import Provenance.Proofs.Header.Displaced
import Provenance.Proofs.Syntax.CommentLines

/-!
How the parser of headers reads comments to the end of a line. Two slashes and what follows on the line
are one comment, and what stands between comments is blank. A comment reaches its line break in all
dialects, though by different ways; of a break written as two characters some dialects take the first
one into the comment. Swift and Rust are left out, where slashes may be an operator or hold a block
comment.
-/
namespace Provenance.Header

open Syntax

variable {language : Language} {text body rest t : Text} {ls : List Lexeme}

/-- The text ends here, or a line does. -/
inductive EndsLine : Text → Prop
  | nil : EndsLine []
  | lf (rest : Text) : EndsLine ('\n' :: rest)
  | crlf (rest : Text) : EndsLine ('\r' :: '\n' :: rest)

theorem EndsLine.of_isLineBreak {lineBreak : Text} (h : IsLineBreak lineBreak) (rest : Text) :
    EndsLine (lineBreak ++ rest) := by
  rcases h with rfl | rfl
  · exact EndsLine.lf rest
  · exact EndsLine.crlf rest

/-- The part of a line break that counts to the comment in front of it. -/
def breakPart (language : Language) (rest : Text) : Text :=
  rest.takeWhile fun c => !(Dialect.ofLanguage language).endsComment c

theorem endsComment_eq_false (language : Language) {c : Char}
    (h : c ≠ '\n' ∧ c ≠ '\r' ∧ c ≠ '\u2028' ∧ c ≠ '\u2029') :
    (Dialect.ofLanguage language).endsComment c = false := by
  obtain ⟨hlf, hcr, hline, hparagraph⟩ := h
  cases language <;>
    simp [Dialect.ofLanguage, Dialect.plain, Dialect.web, Dialect.cSharp, Dialect.isLineFeed,
      Dialect.isUnicodeBreak, hlf, hcr, hline, hparagraph]

/-- Some dialects take the carriage return of a line break into the comment; the rest is blank. -/
theorem exists_breakPart_eq {lineBreak : Text} (h : IsLineBreak lineBreak) (language : Language)
    (rest : Text) :
    ∃ tail, lineBreak = breakPart language (lineBreak ++ rest) ++ tail ∧ ∀ c ∈ tail, IsBlank c := by
  have hlf : (Dialect.ofLanguage language).endsComment '\n' = true := by cases language <;> rfl
  rcases h with rfl | rfl
  · exact ⟨['\n'], by simp [breakPart, hlf], by simp [IsBlank]⟩
  · cases hcr : (Dialect.ofLanguage language).endsComment '\r' with
    | true => exact ⟨['\r', '\n'], by simp [breakPart, hcr], by simp [IsBlank]⟩
    | false => exact ⟨['\n'], by simp [breakPart, hlf, hcr], by simp [IsBlank]⟩

theorem takeWhile_append_breakPart (hbody : StaysOnLine body) (rest : Text) :
    ((body ++ rest).takeWhile fun c => !(Dialect.ofLanguage language).endsComment c) =
      body ++ breakPart language rest := by
  apply List.takeWhile_append_of_pos
  intro c hc
  rw [endsComment_eq_false language (hbody c hc)]
  rfl

/-- A character that hides no line break is counted. -/
theorem joinedTail_cons {c : Char} (hc : c ≠ '\n')
    (hhides : c = '\\' → (∀ t, text ≠ '\n' :: t) ∧ ∀ t, text ≠ '\r' :: '\n' :: t) :
    joinedTail (c :: text) = joinedTail text + 1 := by
  rw [joinedTail, if_neg hc]
  · intro t hbackslash hcrlf
    exact (hhides hbackslash).2 t hcrlf
  · intro t hbackslash hlf
    exact (hhides hbackslash).1 t hlf

theorem joinedTail_append (hbody : StaysOnLine body) (hlast : body.getLast? ≠ some '\\')
    (rest : Text) : joinedTail (body ++ rest) = body.length + joinedTail rest := by
  induction body with
  | nil => simp
  | cons c body ih =>
    have hc := hbody c List.mem_cons_self
    have hrest : joinedTail (body ++ rest) = body.length + joinedTail rest := by
      apply ih fun b hb => hbody b (List.mem_cons_of_mem c hb)
      intro hbackslash
      apply hlast
      rw [List.getLast?_cons, hbackslash]
      rfl
    have hcons : joinedTail (c :: (body ++ rest)) = joinedTail (body ++ rest) + 1 := by
      apply joinedTail_cons hc.1
      rintro rfl
      -- A backslash is not the last character, so another one of the same line follows it.
      cases body with
      | nil => exact absurd rfl hlast
      | cons b body =>
        have hb := hbody b (List.mem_cons_of_mem _ List.mem_cons_self)
        constructor
        · intro t heq
          exact hb.1 (List.cons.inj heq).1
        · intro t heq
          exact hb.2.1 (List.cons.inj heq).1
    rw [List.cons_append, hcons, hrest, List.length_cons]
    omega

theorem joinedTail_of_endsLine (hrest : EndsLine rest) :
    joinedTail rest = (rest.takeWhile fun c => !Dialect.isLineFeed c).length := by
  cases hrest with
  | nil => rfl
  | lf rest => simp [joinedTail, Dialect.isLineFeed]
  | crlf rest => simp [joinedTail, Dialect.isLineFeed]

theorem joinsLines_ofLanguage (language : Language) :
    (Dialect.ofLanguage language).joinsLines = true ↔ language = .c ∨ language = .cPlusPlus := by
  cases language <;> simp [Dialect.ofLanguage, Dialect.plain, Dialect.web, Dialect.cSharp]

/-- Where slashes open a comment, and nothing else, it goes on to the end of its line. -/
theorem lineTail?_eq (hswift : language ≠ .swift) (hrust : language ≠ .rust) (t : Text) :
    (Dialect.ofLanguage language).lineTail? t =
      if (Dialect.ofLanguage language).joinsLines then some (joinedTail t)
      else some (lineTail (Dialect.ofLanguage language).endsComment t) := by
  have hholds : (Dialect.ofLanguage language).slashesHoldBlocks = false := by
    cases language with
    | rust => exact absurd rfl hrust
    | _ => rfl
  have hmeets : (Dialect.ofLanguage language).slashesMeetStar = false := by
    cases language with
    | swift => exact absurd rfl hswift
    | _ => rfl
  unfold Dialect.lineTail? Dialect.lineTail?.plainTail?
  rw [hholds, hmeets, Bool.false_and]
  split <;> rfl

/-- A comment goes on to its line break. -/
theorem lineTail?_append (hswift : language ≠ .swift) (hrust : language ≠ .rust)
    (h : LineComment language ('/' :: '/' :: body)) (hrest : EndsLine rest) :
    (Dialect.ofLanguage language).lineTail? (body ++ rest) =
      some (body.length + (breakPart language rest).length) := by
  have hstays : StaysOnLine body := fun c hc =>
    h.oneLine c (List.mem_cons_of_mem _ (List.mem_cons_of_mem _ hc))
  rw [lineTail?_eq hswift hrust]
  split
  · next hjoins =>
    have hlanguage := (joinsLines_ofLanguage language).mp hjoins
    have hends : (Dialect.ofLanguage language).endsComment = Dialect.isLineFeed := by
      rcases hlanguage with rfl | rfl <;> rfl
    have hlast : body.getLast? ≠ some '\\' := by
      intro hbackslash
      apply h.unjoined hlanguage
      rw [List.getLast?_cons, List.getLast?_cons, hbackslash]
      rfl
    rw [joinedTail_append hstays hlast, joinedTail_of_endsLine hrest, breakPart, hends]
  · rw [lineTail, takeWhile_append_breakPart hstays, List.length_append]

/-- A comment is read up to its line break, and nothing stays open. -/
theorem recognize_comment (hswift : language ≠ .swift) (hrust : language ≠ .rust)
    (h : LineComment language ('/' :: '/' :: body)) (hrest : EndsLine rest) :
    (Dialect.ofLanguage language).recognize [] '/' ('/' :: (body ++ rest)) =
      (.comment, (body ++ breakPart language rest).length + 1, []) := by
  have hslash : (Dialect.ofLanguage language).blankTail? '/' ('/' :: (body ++ rest)) = none := by
    cases language <;> rfl
  rw [Dialect.recognize, Dialect.recognizeCode, hslash]
  simp only [Dialect.commentTail?, lineTail?_append hswift hrust h hrest, Option.map_some,
    List.length_append]

theorem stretchesFrom_comment (hswift : language ≠ .swift) (hrust : language ≠ .rust)
    (h : LineComment language text) (hrest : EndsLine rest) (start : Nat) :
    stretchesFrom (.ofLanguage language) [] start (text ++ rest) =
      ⟨start, .comment, text ++ breakPart language rest⟩ ::
        stretchesFrom (.ofLanguage language) [] (start + (text ++ breakPart language rest).length)
          (rest.drop (breakPart language rest).length) := by
  obtain ⟨body, rfl⟩ : ∃ body, text = '/' :: '/' :: body := h.slashes.imp fun _ heq => heq.symm
  have hbreak : breakPart language rest <+: rest := List.takeWhile_prefix _
  have htext : ('/' :: (body ++ rest)).take ((body ++ breakPart language rest).length + 1) =
      '/' :: (body ++ breakPart language rest) := by
    rw [List.take_succ_cons, List.length_append, List.take_length_add_append,
      ← List.prefix_iff_eq_take.mp hbreak]
  have hdrop : ('/' :: (body ++ rest)).drop ((body ++ breakPart language rest).length + 1) =
      rest.drop (breakPart language rest).length := by
    rw [List.drop_succ_cons, List.length_append, List.drop_length_add_append]
  have hread := recognize_comment hswift hrust h hrest
  show stretchesFrom (.ofLanguage language) [] start ('/' :: '/' :: (body ++ rest)) = _
  rw [stretchesFrom_cons, hread, htext, hdrop]
  rfl

theorem isBlank_of_isBlank (language : Language) {c : Char} (h : IsBlank c) :
    (Dialect.ofLanguage language).isBlank c = true := by
  have hblank : isAsciiBlank c = true := by rcases h with rfl | rfl | rfl | rfl <;> rfl
  cases language <;>
    simp [Dialect.ofLanguage, Dialect.plain, Dialect.web, Dialect.cSharp, Dialect.isWebBlank,
      Dialect.isCSharpBlank, hblank]

/-- Blanks are blank in every language. -/
theorem exists_stretchesFrom_blanks (language : Language) {gap : Text} (hgap : ∀ c ∈ gap, IsBlank c)
    (start : Nat) (rest : Text) :
    ∃ blanks, stretchesFrom (.ofLanguage language) [] start (gap ++ rest) =
        blanks ++ stretchesFrom (.ofLanguage language) [] (start + gap.length) rest ∧
      ∀ s ∈ blanks, s.kind = .blank := by
  induction gap generalizing start with
  | nil => exact ⟨[], rfl, nofun⟩
  | cons c gap ih =>
    obtain ⟨blanks, hblanks, hkind⟩ := ih (fun b hb => hgap b (List.mem_cons_of_mem c hb)) (start + 1)
    have hblank : (Dialect.ofLanguage language).blankTail? c (gap ++ rest) = some 0 := by
      unfold Dialect.blankTail?
      rw [if_pos (isBlank_of_isBlank language (hgap c List.mem_cons_self))]
    have hread : (Dialect.ofLanguage language).recognize [] c (gap ++ rest) = (.blank, 0, []) := by
      rw [Dialect.recognize, Dialect.recognizeCode, hblank]
    refine ⟨⟨start, .blank, [c]⟩ :: blanks, ?_, ?_⟩
    · have hlength : start + (c :: gap).length = start + 1 + gap.length := by
        rw [List.length_cons]
        omega
      rw [List.cons_append, stretchesFrom_cons, hread, hlength]
      exact congrArg _ hblanks
    · intro s hs
      rcases List.mem_cons.mp hs with rfl | hs
      · rfl
      · exact hkind s hs

theorem filterMap_lexeme?_of_blanks {blanks : List Stretch} (h : ∀ s ∈ blanks, s.kind = .blank) :
    blanks.filterMap Stretch.lexeme? = [] := by
  rw [List.filterMap_eq_nil_iff]
  intro s hs
  rw [Stretch.lexeme?, h s hs]

theorem stretches_eq_of_not_opensFile (h : ¬OpensFile language t) (d : Dialect) :
    stretches d t = stretchesFrom d [] 0 t :=
  stretches_eq_stretchesFrom fun hmark => h (Or.inl hmark)

theorem lexing_blank {c : Char} (hc : IsBlank c) (hopens : ¬OpensFile language t)
    (hwell : lexing t language = some ls) :
    lexing (c :: t) language = some (ls.map (·.moved 1)) := by
  have hgap : ∀ b ∈ [c], IsBlank b := fun b hb => List.mem_singleton.mp hb ▸ hc
  obtain ⟨blanks, hblanks, hkind⟩ := exists_stretchesFrom_blanks language hgap 0 t
  have hfresh : EndsFresh [c] := by
    have hnil : EndsFresh [] := nofun
    exact hnil.append_whiteSpace fun b hb => isWhiteSpace_of_isBlank (hgap b hb)
  have hsplit : stretches (.ofLanguage language) ([c] ++ t) =
      blanks ++ (stretches (.ofLanguage language) t).map (·.moved [c].length) := by
    rw [stretches_eq_of_not_opensFile (not_opensFile_of_blanks hgap hopens), hblanks, Nat.zero_add,
      stretches_eq_of_not_opensFile hopens, ← stretchesFrom_add, Nat.add_zero]
  have hall := lexing_append_of_endsFresh hfresh hsplit (fun s hs => Or.inl (hkind s hs)) hwell
  rw [filterMap_lexeme?_of_blanks hkind] at hall
  exact hall

theorem lexing_comment (hswift : language ≠ .swift) (hrust : language ≠ .rust)
    {comment lineBreak : Text} (hcomment : LineComment language comment)
    (hbreak : IsLineBreak lineBreak) (hopens : ¬OpensFile language t)
    (hwell : lexing t language = some ls) :
    ∃ n ≤ lineBreak.length, lexing (comment ++ lineBreak ++ t) language =
      some (⟨.comment, 0, comment.length + n⟩ :: ls.map (·.moved (comment ++ lineBreak).length)) := by
  obtain ⟨tail, htext, htail⟩ := exists_breakPart_eq hbreak language t
  have hread := stretchesFrom_comment hswift hrust hcomment (EndsLine.of_isLineBreak hbreak t) 0
  generalize breakPart language (lineBreak ++ t) = part at htext hread
  subst htext
  obtain ⟨blanks, hblanks, hkind⟩ := exists_stretchesFrom_blanks language htail
    (0 + (comment ++ part).length) t
  rw [List.append_assoc part tail t, List.drop_left, hblanks] at hread
  have hstop : 0 + (comment ++ part).length + tail.length =
      (comment ++ (part ++ tail)).length + 0 := by
    simp only [List.length_append]
    omega
  have hsplit : stretches (.ofLanguage language) (comment ++ (part ++ tail) ++ t) =
      (⟨0, .comment, comment ++ part⟩ :: blanks) ++
        (stretches (.ofLanguage language) t).map (·.moved (comment ++ (part ++ tail)).length) := by
    have hopens' : ¬OpensFile language (comment ++ (part ++ (tail ++ t))) :=
      hcomment.not_opensFile _
    rw [List.append_assoc, List.append_assoc, stretches_eq_of_not_opensFile hopens', hread, hstop,
      stretchesFrom_add, stretches_eq_of_not_opensFile hopens, List.cons_append]
  have hfront : ∀ s ∈ (⟨0, .comment, comment ++ part⟩ :: blanks : List Stretch),
      s.kind = .blank ∨ s.kind = .comment := by
    intro s hs
    rcases List.mem_cons.mp hs with rfl | hs
    · exact Or.inr rfl
    · exact Or.inl (hkind s hs)
  refine ⟨part.length, by rw [List.length_append]; omega, ?_⟩
  rw [lexing_append_of_endsFresh (hbreak.endsFresh comment) hsplit hfront hwell,
    List.filterMap_cons_some (show Stretch.lexeme? ⟨0, .comment, comment ++ part⟩ = _ from rfl),
    filterMap_lexeme?_of_blanks hkind, Stretch.stop]
  simp only [Nat.zero_add, List.length_append, List.singleton_append]

/-- A text of comments is well-formed. -/
theorem lexing_last (hswift : language ≠ .swift) (hrust : language ≠ .rust) {comment : Text}
    (hcomment : LineComment language comment) :
    lexing comment language = some [⟨.comment, 0, comment.length⟩] := by
  have hread := stretchesFrom_comment hswift hrust hcomment EndsLine.nil 0
  have hopens := hcomment.not_opensFile []
  rw [List.append_nil] at hread hopens
  have hstretches : stretches (.ofLanguage language) comment = [⟨0, .comment, comment⟩] := by
    rw [stretches_eq_of_not_opensFile hopens, hread, breakPart, List.takeWhile_nil, List.append_nil,
      List.drop_nil, stretchesFrom]
  refine lexing_eq_some_iff.mpr ⟨?_, ?_⟩
  · intro s hs
    rw [headerOf, hstretches] at hs
    rw [List.mem_singleton.mp ((header_isPrefix _ _ _).subset hs), Stretch.isSound_eq_true_iff,
      endsHeader_of_noToken (show PieceKind.comment ≠ .token by decide)]
    exact ⟨by simp [IsWhole], fun h => absurd h Bool.false_ne_true⟩
  · rw [hstretches]
    simp [Stretch.lexeme?, Stretch.stop]

theorem lexing_readsLineComments (hswift : language ≠ .swift) (hrust : language ≠ .rust) :
    ReadsLineComments lexing language where
  nil := by cases language <;> decide
  blank _ _ _ hc hopens hwell := lexing_blank hc hopens hwell
  last _ hcomment := lexing_last hswift hrust hcomment
  comment _ _ _ _ hcomment hbreak hopens hwell :=
    lexing_comment hswift hrust hcomment hbreak hopens hwell

end Provenance.Header
