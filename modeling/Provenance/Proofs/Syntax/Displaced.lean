import Provenance.Proofs.Syntax.Lexemes

/-!
A text with another one in front of it. Its lines are those of the text alone, further on, except that
its first line may begin in what stands in front. Where nothing visible does, as at the beginning of a
line, the same lines are directives; a visible character there keeps the first line from being one.
-/
namespace Provenance.Syntax

section Splitting

variable {α : Type} {sep : α → Bool}

theorem afterLast_append_of_any (as : List α) {bs : List α} (hbs : bs.any sep = true) :
    afterLast sep (as ++ bs) = afterLast sep bs := by
  induction as with
  | nil => rfl
  | cons a as ih =>
    have hany : (as ++ bs).any sep = true := by rw [List.any_append, hbs, Bool.or_true]
    rw [List.cons_append, afterLast_cons_of_any sep hany, ih]

theorem afterLast_append_of_free (as : List α) {bs : List α} (hbs : bs.any sep = false) :
    afterLast sep (as ++ bs) = afterLast sep as ++ bs := by
  have hfree : ∀ b ∈ bs.reverse, (!sep b) = true := by
    intro b hb
    rw [Bool.eq_false_iff.mpr (List.any_eq_false.mp hbs b (List.mem_reverse.mp hb))]
    rfl
  rw [afterLast, List.reverse_append, List.takeWhile_append_of_pos hfree, List.reverse_append,
    List.reverse_reverse, ← afterLast]

end Splitting

def Lexeme.moved (n : Nat) (l : Lexeme) : Lexeme := ⟨l.kind, n + l.start, n + l.stop⟩

def Line.moved (n : Nat) (line : Line) : Line := ⟨n + line.start, line.text⟩

def Placed.moved (n : Nat) (placed : Placed) : Placed :=
  ⟨n + placed.start, n + placed.stop, placed.item⟩

variable {before t : Text} {language : Language} {i : Nat} {l : Lexeme}

theorem Lexeme.toTrivia_moved (before t : Text) (language : Language) (l : Lexeme) :
    (l.moved before.length).toTrivia (before ++ t) language = l.toTrivia t language := by
  have hslice : (l.moved before.length).slice (before ++ t) = l.slice t := by
    rw [slice, slice, moved, List.drop_length_add_append, Nat.add_sub_add_left]
  rw [toTrivia, toTrivia, hslice]
  rfl

theorem Lexeme.placed_moved (before t : Text) (language : Language) (l : Lexeme) :
    (l.moved before.length).placed (before ++ t) language =
      (l.placed t language).moved before.length := by
  rw [placed, toTrivia_moved]
  rfl

/-- A line behind a line feed is the same line further on. -/
theorem lineHolding?_append_of_lf (before : Text) (hi : i ≤ t.length) (hlf : '\n' ∈ t.take i) :
    lineHolding? (before ++ t) (before.length + i) =
      (lineHolding? t i).map (·.moved before.length) := by
  have hlength : before.length + i ≤ (before ++ t).length := by
    rw [List.length_append]
    omega
  have hany : (t.take i).any (· == '\n') = true := List.any_eq_true.mpr ⟨'\n', hlf, rfl⟩
  have hle := length_afterLast_le (· == '\n') (t.take i)
  rw [List.length_take] at hle
  rw [lineHolding?_eq hlength, lineHolding?_eq hi, List.take_length_add_append,
    List.drop_length_add_append, afterLast_append_of_any _ hany]
  simp only [Option.map_some, Line.moved, Option.some.injEq, Line.mk.injEq, and_true]
  omega

/-- The first line goes on from the last one in front. -/
theorem lineHolding?_append_of_free (before : Text) (hi : i ≤ t.length)
    (hfree : '\n' ∉ t.take i) :
    ∃ line, lineHolding? t i = some line ∧ line.start = 0 ∧
      lineHolding? (before ++ t) (before.length + i) =
        some ⟨before.length - (afterLast (· == '\n') before).length,
          afterLast (· == '\n') before ++ line.text⟩ := by
  have hlength : before.length + i ≤ (before ++ t).length := by
    rw [List.length_append]
    omega
  have hany : (t.take i).any (· == '\n') = false := by
    apply List.any_eq_false.mpr
    intro c hc heq
    rw [beq_iff_eq] at heq
    exact hfree (heq ▸ hc)
  refine ⟨_, lineHolding?_eq hi, ?_, ?_⟩
  · simp only [afterLast_eq_self _ hany, List.length_take]
    omega
  · rw [lineHolding?_eq hlength, List.take_length_add_append, List.drop_length_add_append,
      afterLast_append_of_free _ hany, afterLast_eq_self _ hany]
    simp only [List.length_append, List.length_take, List.append_assoc, Option.some.injEq,
      Line.mk.injEq, and_true]
    omega

theorem start_ne_zero_of_lf {line : Line} (hi : i ≤ t.length) (hlf : '\n' ∈ t.take i)
    (hline : lineHolding? t i = some line) : line.start ≠ 0 := by
  obtain ⟨before, hbefore⟩ := exists_append_afterLast (· == '\n') (t.take i)
  rw [lineHolding?_eq hi, Option.some.injEq] at hline
  subst hline
  intro hzero
  have hlength := congrArg List.length hbefore
  rw [List.length_append, List.length_take] at hlength
  obtain rfl : before = [] := List.length_eq_zero_iff.mp (by simp only at hzero; omega)
  rw [hbefore] at hlf
  exact absurd (sep_eq_false_of_mem_afterLast hlf) (by decide)

theorem directiveHolding?_append_of_lf (before : Text) (language : Language) (hi : i ≤ t.length)
    (hlf : '\n' ∈ t.take i) :
    directiveHolding? (before ++ t) (before.length + i) language =
      (directiveHolding? t i language).map (·.moved before.length) := by
  rw [directiveHolding?, directiveHolding?, lineHolding?_append_of_lf before hi hlf]
  split
  · cases lineHolding? t i with
    | none => rfl
    | some line =>
      have hsame : (line.moved before.length).IsDirective ↔ line.IsDirective := Iff.rfl
      by_cases hdirective : line.IsDirective
      · simp [Option.filter_some, hsame, hdirective]
      · simp [Option.filter_some, hsame, hdirective]
  · rfl

/-- Nothing visible stands on the last line. -/
def EndsFresh (before : Text) : Prop :=
  ∀ c ∈ afterLast (· == '\n') before, isWhiteSpace c = true

theorem EndsFresh.append_lf (before : Text) : EndsFresh (before ++ ['\n']) := by
  have hlast : afterLast (· == '\n') (before ++ ['\n']) = [] := by
    rw [afterLast_append_of_any before (by decide)]
    rfl
  rw [EndsFresh, hlast]
  nofun

theorem EndsFresh.append_whiteSpace {gap : Text} (h : EndsFresh before)
    (hgap : ∀ c ∈ gap, isWhiteSpace c = true) : EndsFresh (before ++ gap) := by
  intro c hc
  cases hany : gap.any (· == '\n') with
  | true =>
    rw [afterLast_append_of_any before hany] at hc
    obtain ⟨front, hfront⟩ := exists_append_afterLast (· == '\n') gap
    exact hgap c (hfront ▸ List.mem_append_right front hc)
  | false =>
    rw [afterLast_append_of_free before hany] at hc
    exact (List.mem_append.mp hc).elim (h c) (hgap c)

/-- Behind a line that begins afresh the same places are held by directives. -/
theorem EndsFresh.isSome_directiveHolding? (h : EndsFresh before) (language : Language)
    (hi : i ≤ t.length) :
    (directiveHolding? (before ++ t) (before.length + i) language).isSome =
      (directiveHolding? t i language).isSome := by
  by_cases hlf : '\n' ∈ t.take i
  · rw [directiveHolding?_append_of_lf before language hi hlf, Option.isSome_map]
  · obtain ⟨line, hline, -, hmoved⟩ := lineHolding?_append_of_free before hi hlf
    have hsame : Line.IsDirective ⟨before.length - (afterLast (· == '\n') before).length,
        afterLast (· == '\n') before ++ line.text⟩ ↔ line.IsDirective := by
      have hnone : (afterLast (· == '\n') before).find? (fun c => !isWhiteSpace c) = none :=
        List.find?_eq_none.mpr fun c hc => by simp [h c hc]
      rw [Line.IsDirective, Line.IsDirective, List.find?_append, hnone, Option.none_or]
    rw [directiveHolding?, directiveHolding?, hline, hmoved]
    split
    · by_cases hdirective : line.IsDirective
      · simp [Option.filter_some, hdirective, hsame.mpr hdirective]
      · simp [Option.filter_some, hdirective, mt hsame.mp hdirective]
    · rfl

theorem EndsFresh.isCode_moved (h : EndsFresh before) (language : Language)
    (hl : l.start ≤ t.length) :
    (l.moved before.length).isCode (before ++ t) language = l.isCode t language := by
  rw [Lexeme.isCode, Lexeme.isCode, ← Option.not_isSome, ← Option.not_isSome, Lexeme.moved,
    h.isSome_directiveHolding? language hl]

/-- Behind a visible character no directive begins on the line. -/
theorem directiveHolding?_cons_of_free {c : Char} (hc : isWhiteSpace c = false) (hsign : c ≠ '#')
    (hi : i ≤ t.length) (hfree : '\n' ∉ t.take i) :
    directiveHolding? (c :: t) (1 + i) language = none := by
  obtain ⟨line, -, -, hline⟩ := lineHolding?_append_of_free [c] hi hfree
  have hlf : (c == '\n') = false := by
    rw [beq_eq_false_iff_ne]
    rintro rfl
    cases hc
  rw [afterLast_eq_self _ (by simp [hlf])] at hline
  rw [Option.eq_none_iff_forall_ne_some]
  intro line' hline'
  obtain ⟨-, hholding, hdirective⟩ := directiveHolding?_eq_some_iff.mp hline'
  rw [show (c :: t) = [c] ++ t from rfl, show 1 + i = [c].length + i from rfl, hline,
    Option.some.injEq] at hholding
  subst hholding
  rw [Line.IsDirective, List.singleton_append, List.find?_cons_of_pos (by simp [hc])] at hdirective
  exact hsign (Option.some.inj hdirective)

/-- Where the lines that hold tokens are the same further on, so are the pieces of trivia. -/
theorem Lexeme.triviaOf_moved (before : Text) {noted : List Nat} {ls : List Lexeme}
    (hlines : ∀ l ∈ ls, l.kind = .token →
      directiveHolding? (before ++ t) (before.length + l.start) language =
        (directiveHolding? t l.start language).map (·.moved before.length)) :
    triviaOf (before ++ t) language (noted.map (before.length + ·))
        (ls.map (·.moved before.length)) =
      (triviaOf t language noted ls).map (·.moved before.length) := by
  induction ls generalizing noted with
  | nil => rfl
  | cons l ls ih =>
    have hothers : ∀ noted, triviaOf (before ++ t) language (noted.map (before.length + ·))
        (ls.map (·.moved before.length)) =
          (triviaOf t language noted ls).map (·.moved before.length) :=
      fun noted => ih fun other hother => hlines other (List.mem_cons_of_mem l hother)
    have hkind : (l.moved before.length).kind = l.kind := rfl
    have hstart : (l.moved before.length).start = before.length + l.start := rfl
    rw [List.map_cons, triviaOf, triviaOf, hkind, hstart]
    split
    · next htoken =>
      rw [hlines l List.mem_cons_self htoken]
      cases directiveHolding? t l.start language with
      | none => exact hothers noted
      | some line =>
        have hnoted : (line.moved before.length).start ∈ noted.map (before.length + ·) ↔
            line.start ∈ noted := by
          simp [Line.moved]
        have hplaced : (line.moved before.length).placed = line.placed.moved before.length := by
          simp [Line.placed, Line.moved, Placed.moved, Line.content, Nat.add_assoc]
        simp only [Option.map_some, hnoted]
        split
        · exact hothers noted
        · rw [List.map_cons, hplaced]
          exact congrArg _ (hothers (line.start :: noted))
    · rw [hothers, List.map_cons, placed_moved]

theorem leadingOf_moved (before : Text) {ls : List Lexeme}
    (hlines : ∀ l ∈ ls, l.kind = .token →
      directiveHolding? (before ++ t) (before.length + l.start) language =
        (directiveHolding? t l.start language).map (·.moved before.length)) :
    leadingOf (before ++ t) language (ls.map (·.moved before.length)) =
      (leadingOf t language ls).map fun items => items.map (·.moved before.length) := by
  have hcode : ∀ l ∈ ls, (l.moved before.length).isCode (before ++ t) language =
      l.isCode t language := by
    intro l hl
    by_cases hkind : l.kind = .token
    · rw [Lexeme.isCode, Lexeme.isCode, Lexeme.moved, hlines l hl hkind, Option.isNone_map]
    · simp [Lexeme.isCode, Lexeme.moved, hkind]
  have hfront : Lexeme.triviaOf (before ++ t) language ([].map (before.length + ·))
      ((inFront t language ls).map (·.moved before.length)) =
      (Lexeme.triviaOf t language [] (inFront t language ls)).map (·.moved before.length) :=
    Lexeme.triviaOf_moved before fun l hl => hlines l (mem_of_mem_inFront hl)
  rw [List.map_nil] at hfront
  rw [leadingOf_map hcode, leadingOf, Option.map_map, hfront]
  rfl

/-- A byte order mark in front of a text is skipped as a blank. -/
def SkipsMark (lexing : Lexing) : Prop :=
  ∀ text language ls, text.head? ≠ some Utf8.byteOrderMark → lexing text language = some ls →
    lexing (Utf8.byteOrderMark :: text) language = some (ls.map (·.moved 1))

end Provenance.Syntax
