import Mathlib.Data.List.Induction
import Provenance.Proofs.Syntax.Displaced

/-!
Headers of line comments. A comment that fills its line ends with it in every language, and blanks and
comments leave what follows them as it is, one by one further on. So the lexemes of such a header are
its comments, and each makes one piece of trivia: itself, as it is written.
-/
namespace Provenance.Syntax

variable {lexing : Lexing} {language : Language} {comment before before' t : Text}
  {ls : List Lexeme}

/-- A character that blank lines and the beginnings of lines are made of. -/
def IsBlank (c : Char) : Prop := c = ' ' ∨ c = '\t' ∨ c = '\n' ∨ c = '\r'

/-- No character of the text ends a line. -/
def StaysOnLine (text : Text) : Prop :=
  ∀ c ∈ text, c ≠ '\n' ∧ c ≠ '\r' ∧ c ≠ '\u2028' ∧ c ≠ '\u2029'

instance (text : Text) : Decidable (StaysOnLine text) := List.decidableBAll _ text

/-- A comment that fills its line. In C and C++ a backslash would join the next line to it. -/
structure LineComment (language : Language) (text : Text) : Prop where
  slashes : "//".toList <+: text
  oneLine : StaysOnLine text
  unjoined : language = .c ∨ language = .cPlusPlus → text.getLast? ≠ some '\\'

/-- A line break as it is written under one system or the other. -/
def IsLineBreak (text : Text) : Prop := text = ['\n'] ∨ text = ['\r', '\n']

instance (text : Text) : Decidable (IsLineBreak text) := inferInstanceAs (Decidable (_ ∨ _))

/-- A comment alone on its line, with the blanks in front of it and the line break behind it. -/
structure CommentLine (language : Language) where
  gap : Text
  comment : Text
  lineBreak : Text
  gap_blank : ∀ c ∈ gap, IsBlank c
  isComment : LineComment language comment
  isLineBreak : IsLineBreak lineBreak

namespace CommentLine

def text (line : CommentLine language) : Text :=
  line.gap ++ (line.comment ++ line.lineBreak)

/-- The comment as a piece of trivia. -/
def trivia (line : CommentLine language) : Trivia :=
  ⟨Trivia.commentKind line.comment language, line.comment⟩

end CommentLine

/-- The text of some lines, one below the other. -/
def layout (lines : List (CommentLine language)) : Text :=
  lines.flatMap CommentLine.text

/-- The text begins with what only a file can begin with: a byte order mark, or the line that names an
interpreter. In Rust an attribute may begin with the same two characters. -/
def OpensFile (language : Language) (t : Text) : Prop :=
  t.head? = some Utf8.byteOrderMark ∨
    ∃ u, t = '#' :: '!' :: u ∧ (language = .rust → (u.dropWhile isAsciiBlank).head? ≠ some '[')

/-- Blanks and line comments are read for themselves, and so is what follows them. A line comment goes
on to its line break, of which it may cover some. -/
structure ReadsLineComments (lexing : Lexing) (language : Language) : Prop where
  nil : lexing [] language = some []
  blank : ∀ c t ls, IsBlank c → ¬OpensFile language t → lexing t language = some ls →
    lexing (c :: t) language = some (ls.map (·.moved 1))
  last : ∀ comment, LineComment language comment →
    lexing comment language = some [⟨.comment, 0, comment.length⟩]
  comment : ∀ comment lineBreak t ls, LineComment language comment → IsLineBreak lineBreak →
    ¬OpensFile language t → lexing t language = some ls →
    ∃ n ≤ lineBreak.length, lexing (comment ++ lineBreak ++ t) language =
      some (⟨.comment, 0, comment.length + n⟩ :: ls.map (·.moved (comment ++ lineBreak).length))

theorem isWhiteSpace_of_isBlank {c : Char} (h : IsBlank c) : isWhiteSpace c = true := by
  rcases h with rfl | rfl | rfl | rfl <;> rfl

theorem not_opensFile_cons {c : Char} (hmark : c ≠ Utf8.byteOrderMark) (hsign : c ≠ '#') :
    ¬OpensFile language (c :: t) := by
  rintro (hhead | ⟨u, heq, -⟩)
  · exact hmark (Option.some.inj hhead)
  · exact hsign (List.cons.inj heq).1

theorem not_opensFile_of_blanks {gap : Text} (hgap : ∀ c ∈ gap, IsBlank c)
    (h : ¬OpensFile language t) : ¬OpensFile language (gap ++ t) := by
  cases gap with
  | nil => exact h
  | cons c gap =>
    rcases hgap c List.mem_cons_self with rfl | rfl | rfl | rfl <;>
      exact not_opensFile_cons (by decide) (by decide)

theorem LineComment.not_opensFile (h : LineComment language comment) (t : Text) :
    ¬OpensFile language (comment ++ t) := by
  obtain ⟨body, rfl⟩ := h.slashes
  exact not_opensFile_cons (by decide) (by decide)

theorem Lexeme.moved_zero (l : Lexeme) : l.moved 0 = l := by
  rw [moved, Nat.zero_add, Nat.zero_add]

theorem Lexeme.moved_moved (n m : Nat) (l : Lexeme) : (l.moved n).moved m = l.moved (m + n) := by
  simp only [moved, Nat.add_assoc]

/-- In front of a text stands one that is read for itself, as `front`, and adds nothing but the
items. -/
structure Fronts (lexing : Lexing) (language : Language) (before t : Text) (ls front : List Lexeme)
    (items : List Trivia) : Prop where
  lexing_eq : lexing (before ++ t) language = some (front ++ ls.map (·.moved before.length))
  extra : ∀ l ∈ front, l.kind ≠ .token
  items_eq : front.map (·.toTrivia (before ++ t) language) = items

namespace Fronts

variable {front front' : List Lexeme} {items items' : List Trivia}

theorem nil (hwell : lexing t language = some ls) : Fronts lexing language [] t ls [] [] where
  lexing_eq := by
    rw [List.nil_append, hwell, List.nil_append, List.length_nil,
      List.map_congr_left fun l _ => l.moved_zero, List.map_id']
  extra := nofun
  items_eq := rfl

theorem append (h : Fronts lexing language before (before' ++ t)
      (front' ++ ls.map (·.moved before'.length)) front items)
    (h' : Fronts lexing language before' t ls front' items') :
    Fronts lexing language (before ++ before') t ls (front ++ front'.map (·.moved before.length))
      (items ++ items') where
  lexing_eq := by
    rw [List.append_assoc, h.lexing_eq, List.map_append, List.map_map, List.append_assoc,
      List.length_append]
    simp only [Function.comp_def, Lexeme.moved_moved]
  extra := by
    intro l hl
    rcases List.mem_append.mp hl with hl | hl
    · exact h.extra l hl
    · obtain ⟨k, hk, rfl⟩ := List.mem_map.mp hl
      exact h'.extra k hk
  items_eq := by
    rw [List.append_assoc, List.map_append, h.items_eq, List.map_map]
    simp only [Function.comp_def, Lexeme.toTrivia_moved]
    rw [h'.items_eq]

theorem isCode_eq_false (h : Fronts lexing language before t ls front items) :
    ∀ l ∈ front, l.isCode (before ++ t) language = false :=
  fun l hl => Lexeme.isCode_of_extra (h.extra l hl) _ _

/-- Where a line begins afresh and a token follows on no directive line, the items are the leading
trivia. -/
theorem map_leadingOf {token : Lexeme} {others : List Lexeme}
    (h : Fronts lexing language before t (token :: others) front items) (hfresh : EndsFresh before)
    (hle : token.start ≤ t.length) (hcode : token.isCode t language = true) :
    (leadingOf (before ++ t) language (front ++ (token :: others).map (·.moved before.length))).map
      (fun placed => placed.map Placed.item) = some items := by
  have hmoved := (hfresh.isCode_moved language hle).trans hcode
  have hextra : Lexeme.triviaOf (before ++ t) language [] (front ++ []) = _ :=
    Lexeme.triviaOf_append_of_extra h.extra []
  rw [List.append_nil] at hextra
  rw [List.map_cons, leadingOf_append h.isCode_eq_false hmoved, hextra, ← h.items_eq]
  simp [Lexeme.triviaOf, Lexeme.placed]

/-- With no token behind it there are no leading trivia. -/
theorem leadingOf_eq_none (h : Fronts lexing language before t ls front items)
    (hfresh : EndsFresh before) (hle : ∀ l ∈ ls, l.start ≤ t.length)
    (hfree : ∀ l ∈ ls, l.isCode t language = false) :
    leadingOf (before ++ t) language (front ++ ls.map (·.moved before.length)) = none := by
  apply Syntax.leadingOf_eq_none
  intro l hl
  rcases List.mem_append.mp hl with hl | hl
  · exact h.isCode_eq_false l hl
  · obtain ⟨k, hk, rfl⟩ := List.mem_map.mp hl
    rw [hfresh.isCode_moved language (hle k hk), hfree k hk]

end Fronts

/-- Trimming takes off what the comment had from its line break, and no more. -/
theorem trimEnd_append {p : Char → Bool} {text part : Text} (htext : ∀ c ∈ text, p c = false)
    (hpart : ∀ c ∈ part, p c = true) : (text ++ part).trimEnd p = text := by
  have hkept : text.reverse.dropWhile p = text.reverse := by
    cases hrev : text.reverse with
    | nil => rfl
    | cons c cs =>
      have hc : c ∈ text := by
        rw [← List.mem_reverse, hrev]
        exact List.mem_cons_self
      rw [List.dropWhile_cons_of_neg (by simp [htext c hc])]
  rw [Text.trimEnd, List.reverse_append,
    List.dropWhile_append_of_pos fun c hc => hpart c (List.mem_reverse.mp hc), hkept,
    List.reverse_reverse]

namespace ReadsLineComments

variable (h : ReadsLineComments lexing language)

include h

theorem fronts_blanks {gap : Text} (hgap : ∀ c ∈ gap, IsBlank c) (hopens : ¬OpensFile language t)
    (hwell : lexing t language = some ls) : Fronts lexing language gap t ls [] [] := by
  induction gap with
  | nil => exact Fronts.nil hwell
  | cons c gap ih =>
    have hothers : ∀ c ∈ gap, IsBlank c := fun b hb => hgap b (List.mem_cons_of_mem c hb)
    have hgap' := ih hothers
    have hfirst : Fronts lexing language [c] (gap ++ t) ([] ++ ls.map (·.moved gap.length)) [] [] :=
      ⟨h.blank c (gap ++ t) _ (hgap c List.mem_cons_self) (not_opensFile_of_blanks hothers hopens)
        hgap'.lexing_eq, nofun, rfl⟩
    exact hfirst.append hgap'

/-- A comment gives its own text back, without its line break. -/
theorem exists_fronts_comment {comment lineBreak : Text} (hcomment : LineComment language comment)
    (hbreak : IsLineBreak lineBreak) (hopens : ¬OpensFile language t)
    (hwell : lexing t language = some ls) :
    ∃ l, Fronts lexing language (comment ++ lineBreak) t ls [l]
      [⟨Trivia.commentKind comment language, comment⟩] := by
  obtain ⟨n, hn, hlexing⟩ := h.comment comment lineBreak t ls hcomment hbreak hopens hwell
  refine ⟨_, hlexing, ?_, ?_⟩
  · intro l hl
    rw [List.mem_singleton.mp hl]
    nofun
  · have hslice : Lexeme.slice ⟨.comment, 0, comment.length + n⟩ (comment ++ lineBreak ++ t) =
        comment ++ lineBreak.take n := by
      rw [Lexeme.slice, List.drop_zero, Nat.sub_zero, List.append_assoc,
        List.take_length_add_append, List.take_append_of_le_length hn]
    have htrim : (comment ++ lineBreak.take n).trimEnd (fun c => c == '\r' || c == '\n') =
        comment := by
      apply trimEnd_append
      · intro c hc
        simp [hcomment.oneLine c hc]
      · intro c hc
        have hmem := List.mem_of_mem_take hc
        rcases hbreak with rfl | rfl
        · simp [List.mem_singleton.mp hmem]
        · simpa using hmem
    rw [List.map_singleton, Lexeme.toTrivia, hslice, htrim]
    rfl

theorem exists_fronts_line (line : CommentLine language) (hopens : ¬OpensFile language t)
    (hwell : lexing t language = some ls) :
    ∃ front, Fronts lexing language line.text t ls front [line.trivia] := by
  obtain ⟨l, hcomment⟩ := h.exists_fronts_comment line.isComment line.isLineBreak hopens hwell
  have hopens' : ¬OpensFile language (line.comment ++ line.lineBreak ++ t) := by
    rw [List.append_assoc]
    exact line.isComment.not_opensFile _
  exact ⟨_, (h.fronts_blanks line.gap_blank hopens' hcomment.lexing_eq).append hcomment⟩

/-- A header adds its comments, in order and as they are written. -/
theorem exists_fronts_layout (lines : List (CommentLine language)) (hopens : ¬OpensFile language t)
    (hwell : lexing t language = some ls) :
    ∃ front, Fronts lexing language (layout lines) t ls front (lines.map CommentLine.trivia) := by
  induction lines with
  | nil => exact ⟨[], Fronts.nil hwell⟩
  | cons line lines ih =>
    obtain ⟨front, hlines⟩ := ih
    have hopens' : ¬OpensFile language (layout lines ++ t) := by
      cases lines with
      | nil => exact hopens
      | cons next others =>
        have htext : layout (next :: others) ++ t =
            next.gap ++ (next.comment ++ (next.lineBreak ++ (layout others ++ t))) := by
          show next.text ++ layout others ++ t = _
          simp only [CommentLine.text, List.append_assoc]
        rw [htext]
        exact not_opensFile_of_blanks next.gap_blank (next.isComment.not_opensFile _)
    obtain ⟨first, hline⟩ := h.exists_fronts_line line hopens' hlines.lexing_eq
    exact ⟨_, hline.append hlines⟩

end ReadsLineComments

theorem IsLineBreak.endsFresh {lineBreak : Text} (h : IsLineBreak lineBreak) (before : Text) :
    EndsFresh (before ++ lineBreak) := by
  rcases h with rfl | rfl
  · exact EndsFresh.append_lf before
  · rw [List.append_cons]
    exact EndsFresh.append_lf _

theorem endsFresh_layout (lines : List (CommentLine language)) : EndsFresh (layout lines) := by
  induction lines using List.reverseRecOn with
  | nil => nofun
  | append_singleton others line _ =>
    have htext : layout (others ++ [line]) =
        layout others ++ (line.gap ++ line.comment) ++ line.lineBreak := by
      rw [layout, List.flatMap_append, List.flatMap_singleton, ← layout, CommentLine.text]
      simp only [List.append_assoc]
    rw [htext]
    exact line.isLineBreak.endsFresh _

end Provenance.Syntax
