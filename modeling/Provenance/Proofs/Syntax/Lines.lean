import Mathlib.Data.List.TakeWhile
import Mathlib.Tactic.ByContra
import Provenance.Syntax.Walk

/-!
The lines of a text, each with the offset at which it starts. Every offset in the text is held by
exactly one line, where a line feed belongs to the line that it ends; this is the line that a walk
looks at. An offset further on lies on the same line or on a later one.
-/
namespace Provenance.Syntax

/-- A line without the line feed that ends it. -/
structure Line where
  start : Nat
  text : Text
deriving DecidableEq

namespace Line

def stop (line : Line) : Nat := line.start + line.text.length

def Holds (line : Line) (offset : Nat) : Prop :=
  line.start ≤ offset ∧ offset ≤ line.stop

instance (line : Line) (offset : Nat) : Decidable (line.Holds offset) :=
  inferInstanceAs (Decidable (_ ∧ _))

/-- The line without the carriage returns at its end. -/
def content (line : Line) : Text := line.text.trimEnd (· == '\r')

/-- The first character that is no white space is a number sign. -/
def IsDirective (line : Line) : Prop :=
  line.text.find? (fun c => !isWhiteSpace c) = some '#'

instance (line : Line) : Decidable line.IsDirective :=
  inferInstanceAs (Decidable (_ = _))

end Line

/-- Consecutive lines, the first of which starts at `start`. -/
def linesFrom (start : Nat) : List Text → List Line
  | [] => []
  | text :: texts => ⟨start, text⟩ :: linesFrom (start + text.length + 1) texts

def lines (source : Text) : List Line :=
  linesFrom 0 (splitWhere (· == '\n') source)

def lineHolding? (source : Text) (offset : Nat) : Option Line :=
  (lines source).find? fun line => line.Holds offset

section Splitting

variable {α : Type} (sep : α → Bool)

theorem afterLast_cons_of_sep {a : α} (as : List α) (ha : sep a = true) :
    afterLast sep (a :: as) = afterLast sep as := by
  simp only [afterLast, List.reverse_cons]
  rw [List.takeWhile_append]
  split
  · next hlen =>
    rw [(List.takeWhile_prefix _).eq_of_length hlen]
    simp [ha]
  · rfl

theorem afterLast_cons_of_any {a : α} {as : List α} (has : as.any sep = true) :
    afterLast sep (a :: as) = afterLast sep as := by
  have hne : (as.reverse.takeWhile fun b => !sep b).length ≠ as.reverse.length := by
    intro hlen
    have hall : ∀ b ∈ as.reverse, (!sep b) = true :=
      List.takeWhile_eq_self_iff.mp ((List.takeWhile_prefix _).eq_of_length hlen)
    obtain ⟨b, hb, hsep⟩ := List.any_eq_true.mp has
    have hfree := hall b (List.mem_reverse.mpr hb)
    simp [hsep] at hfree
  simp only [afterLast, List.reverse_cons]
  rw [List.takeWhile_append, if_neg hne]

theorem afterLast_eq_self {as : List α} (has : as.any sep = false) : afterLast sep as = as := by
  have hall : ∀ b ∈ as.reverse, (!sep b) = true := by
    intro b hb
    have hfree := List.any_eq_false.mp has b (List.mem_reverse.mp hb)
    simpa using hfree
  rw [afterLast, List.takeWhile_eq_self_iff.mpr hall, List.reverse_reverse]

theorem length_afterLast_append_le (as bs : List α) :
    (afterLast sep (as ++ bs)).length ≤ (afterLast sep as).length + bs.length := by
  simp only [afterLast, List.reverse_append, List.length_reverse]
  rw [List.takeWhile_append]
  split
  · simp only [List.length_append, List.length_reverse]
    omega
  · have h := (List.takeWhile_prefix (fun a => !sep a) (l := bs.reverse)).length_le
    simp only [List.length_reverse] at h
    omega

theorem length_afterLast_le (as : List α) : (afterLast sep as).length ≤ as.length := by
  have h := (List.takeWhile_prefix (fun a => !sep a) (l := as.reverse)).length_le
  simpa [afterLast] using h

/-- The first stretch reaches up to the first separator. -/
theorem exists_splitWhere_eq (as : List α) :
    ∃ others, splitWhere sep as = as.takeWhile (fun a => !sep a) :: others := by
  induction as with
  | nil => exact ⟨[], rfl⟩
  | cons a as ih =>
    obtain ⟨others, hothers⟩ := ih
    by_cases ha : sep a
    · exact ⟨splitWhere sep as, by simp [splitWhere, ha]⟩
    · exact ⟨others, by simp [splitWhere, ha, hothers]⟩

theorem takeWhile_eq_take_append {as : List α} {n : Nat} (hfree : (as.take n).any sep = false) :
    as.takeWhile (fun a => !sep a) = as.take n ++ (as.drop n).takeWhile fun a => !sep a := by
  have hall : ∀ b ∈ as.take n, (!sep b) = true := by
    intro b hb
    have h := List.any_eq_false.mp hfree b hb
    simpa using h
  conv => lhs; rw [← List.take_append_drop n as]
  exact List.takeWhile_append_of_pos hall

theorem le_length_takeWhile {as : List α} {n : Nat} (hn : n ≤ as.length)
    (hfree : (as.take n).any sep = false) : n ≤ (as.takeWhile fun a => !sep a).length := by
  rw [takeWhile_eq_take_append sep hfree, List.length_append, List.length_take]
  omega

theorem length_takeWhile_lt {as : List α} {n : Nat} (hany : (as.take n).any sep = true) :
    (as.takeWhile fun a => !sep a).length < n := by
  by_contra hle
  obtain ⟨b, hb, hsep⟩ := List.any_eq_true.mp hany
  have hbegins : as.take n <+: as.takeWhile fun a => !sep a :=
    List.prefix_of_prefix_length_le (List.take_prefix n as) (List.takeWhile_prefix _)
      (by rw [List.length_take]; omega)
  have hfree := List.all_eq_true.mp List.all_takeWhile b (hbegins.subset hb)
  simp [hsep] at hfree

end Splitting

/-- A character that ends no line is put in front of the first line; the later ones stay. -/
theorem exists_linesFrom_cons (start : Nat) {c : Char} (hc : ¬(c == '\n') = true) (cs : Text) :
    ∃ later, linesFrom start (splitWhere (· == '\n') (c :: cs)) =
        ⟨start, c :: cs.takeWhile fun c => !(c == '\n')⟩ :: later ∧
      linesFrom (start + 1) (splitWhere (· == '\n') cs) =
        ⟨start + 1, cs.takeWhile fun c => !(c == '\n')⟩ :: later := by
  obtain ⟨others, hothers⟩ := exists_splitWhere_eq (· == '\n') cs
  have hsplit : splitWhere (· == '\n') (c :: cs) =
      (c :: cs.takeWhile fun c => !(c == '\n')) :: others := by
    rw [splitWhere, if_neg hc, hothers]
  refine ⟨linesFrom (start + 1 + (cs.takeWhile fun c => !(c == '\n')).length + 1) others, ?_, ?_⟩
  · have hnext : start + (c :: cs.takeWhile fun c => !(c == '\n')).length + 1 =
        start + 1 + (cs.takeWhile fun c => !(c == '\n')).length + 1 := by
      rw [List.length_cons]
      omega
    rw [hsplit, linesFrom, hnext]
  · rw [hothers, linesFrom]

/-- The line that holds an offset consists of what follows the last line feed in front of it and
what comes up to the next one. -/
theorem find?_linesFrom (source : Text) (start offset : Nat) (h : offset ≤ source.length) :
    (linesFrom start (splitWhere (· == '\n') source)).find?
        (fun line => line.Holds (start + offset)) =
      some ⟨start + offset - (afterLast (· == '\n') (source.take offset)).length,
        afterLast (· == '\n') (source.take offset) ++
          (source.drop offset).takeWhile fun c => !(c == '\n')⟩ := by
  induction source generalizing start offset with
  | nil =>
    have hzero : offset = 0 := by simpa using h
    subst hzero
    simp [splitWhere, linesFrom, Line.Holds, Line.stop, afterLast]
  | cons c cs ih =>
    by_cases hc : (c == '\n') = true
    · have hsplit : splitWhere (· == '\n') (c :: cs) = [] :: splitWhere (· == '\n') cs := by
        rw [splitWhere, if_pos hc]
      cases offset with
      | zero => simp [hsplit, linesFrom, Line.Holds, Line.stop, afterLast, hc]
      | succ k =>
        have hnot : ¬Line.Holds ⟨start, []⟩ (start + (k + 1)) := by
          simp only [Line.Holds, Line.stop, List.length_nil]
          omega
        have htail := ih (start + 1) k (Nat.le_of_succ_le_succ h)
        rw [hsplit, linesFrom, List.find?_cons_of_neg (by simpa using hnot), List.take_succ_cons,
          List.drop_succ_cons, afterLast_cons_of_sep (· == '\n') (cs.take k) hc,
          show start + (k + 1) = start + 1 + k by omega]
        exact htail
    · obtain ⟨later, hlines, hlater⟩ := exists_linesFrom_cons start hc cs
      rw [hlines]
      cases offset with
      | zero => simp [Line.Holds, Line.stop, afterLast, hc]
      | succ k =>
        have hk : k ≤ cs.length := Nat.le_of_succ_le_succ h
        rw [List.take_succ_cons, List.drop_succ_cons]
        cases hany : (cs.take k).any (· == '\n') with
        | true =>
          have hlt := length_takeWhile_lt _ hany
          have hnot : ¬Line.Holds ⟨start, c :: cs.takeWhile fun c => !(c == '\n')⟩
              (start + (k + 1)) := by
            simp only [Line.Holds, Line.stop, List.length_cons]
            omega
          have hnot' : ¬Line.Holds ⟨start + 1, cs.takeWhile fun c => !(c == '\n')⟩
              (start + 1 + k) := by
            simp only [Line.Holds, Line.stop]
            omega
          have htail := ih (start + 1) k hk
          rw [hlater, List.find?_cons_of_neg (by simpa using hnot')] at htail
          rw [List.find?_cons_of_neg (by simpa using hnot), afterLast_cons_of_any _ hany,
            show start + (k + 1) = start + 1 + k by omega, htail]
        | false =>
          have hle := le_length_takeWhile _ hk hany
          have hholds : Line.Holds ⟨start, c :: cs.takeWhile fun c => !(c == '\n')⟩
              (start + (k + 1)) := by
            simp only [Line.Holds, Line.stop, List.length_cons]
            omega
          have hfree : (c :: cs.take k).any (· == '\n') = false := by
            rw [List.any_cons, hany, Bool.or_false, Bool.eq_false_iff]
            exact hc
          rw [List.find?_cons_of_pos (by simpa using hholds), afterLast_eq_self _ hfree,
            takeWhile_eq_take_append _ hany]
          simp only [List.cons_append, List.length_cons, List.length_take, Nat.min_eq_left hk,
            Option.some.injEq, Line.mk.injEq, and_true]
          omega

theorem lineHolding?_eq {source : Text} {offset : Nat} (h : offset ≤ source.length) :
    lineHolding? source offset =
      some ⟨offset - (afterLast (· == '\n') (source.take offset)).length,
        afterLast (· == '\n') (source.take offset) ++
          (source.drop offset).takeWhile fun c => !(c == '\n')⟩ := by
  have hfind := find?_linesFrom source 0 offset h
  rw [Nat.zero_add] at hfind
  exact hfind

/-- The line that a walk looks at is the one that holds the offset. -/
theorem lineAt_eq {source : Text} {offset : Nat} {line : Line} (h : offset ≤ source.length)
    (hline : lineHolding? source offset = some line) :
    lineAt source offset = (line.start, line.content) := by
  rw [lineHolding?_eq h, Option.some.injEq] at hline
  subst hline
  simp only [lineAt, Line.content, Nat.min_eq_left h]
  rfl

theorem exists_lineHolding?_eq {source : Text} {offset : Nat} (h : offset ≤ source.length) :
    ∃ line, lineHolding? source offset = some line :=
  ⟨_, lineHolding?_eq h⟩

theorem holds_of_lineHolding? {source : Text} {offset : Nat} {line : Line}
    (hline : lineHolding? source offset = some line) : line.Holds offset := by
  have h := List.find?_some hline
  simpa using h

/-- A later offset is held by the same line or by one that starts later. -/
theorem start_le_start {source : Text} {offset offset' : Nat} {line line' : Line}
    (hle : offset ≤ offset') (h : offset' ≤ source.length)
    (hline : lineHolding? source offset = some line)
    (hline' : lineHolding? source offset' = some line') : line.start ≤ line'.start := by
  rw [lineHolding?_eq (by omega), Option.some.injEq] at hline
  rw [lineHolding?_eq h, Option.some.injEq] at hline'
  subst hline hline'
  have hsplit : source.take offset' =
      source.take offset ++ (source.drop offset).take (offset' - offset) := by
    have hsum : offset' = offset + (offset' - offset) := by omega
    conv => lhs; rw [hsum]
    exact List.take_add
  have hlength := length_afterLast_append_le (· == '\n') (source.take offset)
    ((source.drop offset).take (offset' - offset))
  rw [← hsplit, List.length_take] at hlength
  simp only
  omega

/-- White space at the end of a line does not matter to what its visible part begins with. -/
theorem isDirective_append {text blanks : Text} (hblanks : ∀ c ∈ blanks, isWhiteSpace c = true) :
    isDirective (text ++ blanks) = isDirective text := by
  have hnone : blanks.dropWhile isWhiteSpace = [] := List.dropWhile_eq_nil_iff.mpr hblanks
  rw [isDirective, isDirective, List.dropWhile_append, hnone]
  split
  · next hempty =>
    rw [List.isEmpty_iff.mp hempty]
  · next hfull =>
    cases htext : text.dropWhile isWhiteSpace with
    | nil => simp [htext] at hfull
    | cons c cs => rfl

theorem exists_append_trimEnd (p : Char → Bool) (text : Text) :
    ∃ rest, text = text.trimEnd p ++ rest ∧ ∀ c ∈ rest, p c = true := by
  refine ⟨(text.reverse.takeWhile p).reverse, ?_, ?_⟩
  · rw [Text.trimEnd, ← List.reverse_append, List.takeWhile_append_dropWhile,
      List.reverse_reverse]
  · intro c hc
    exact List.all_eq_true.mp List.all_takeWhile c (List.mem_reverse.mp hc)

theorem length_trimEnd_le (p : Char → Bool) (text : Text) : (text.trimEnd p).length ≤ text.length := by
  obtain ⟨rest, htext, -⟩ := exists_append_trimEnd p text
  have hlength := congrArg List.length htext
  rw [List.length_append] at hlength
  omega

theorem length_content_le (line : Line) : line.content.length ≤ line.text.length :=
  length_trimEnd_le _ line.text

theorem isDirective_content (line : Line) : isDirective line.content = true ↔ line.IsDirective := by
  obtain ⟨rest, htext, hrest⟩ := exists_append_trimEnd (· == '\r') line.text
  have hblanks : ∀ c ∈ rest, isWhiteSpace c = true := by
    intro c hc
    have hcr : c = '\r' := by simpa using hrest c hc
    subst hcr
    decide
  have hsame : isDirective line.text = isDirective line.content := by
    conv => lhs; rw [htext]
    exact isDirective_append hblanks
  rw [← hsame, Line.IsDirective, List.find?_not_eq_head?_dropWhile, isDirective, beq_iff_eq]

/-- The directive line of C# that holds an offset. -/
def directiveHolding? (source : Text) (offset : Nat) (language : Language) : Option Line :=
  if language = .cSharp then (lineHolding? source offset).filter fun line => line.IsDirective
  else none

theorem directiveLine?_eq {source : Text} {offset : Nat} (language : Language)
    (h : offset ≤ source.length) :
    directiveLine? source offset language =
      (directiveHolding? source offset language).map fun line => (line.start, line.content) := by
  obtain ⟨line, hline⟩ := exists_lineHolding?_eq h
  rw [directiveLine?, lineAt_eq h hline, directiveHolding?, hline]
  by_cases hlanguage : language = .cSharp
  · by_cases hdirective : line.IsDirective
    · have hcontent := (isDirective_content line).mpr hdirective
      simp [hlanguage, hcontent, Option.filter_some, hdirective]
    · have hcontent := mt (isDirective_content line).mp hdirective
      simp [hlanguage, hcontent, Option.filter_some, hdirective]
  · simp [hlanguage]

theorem directiveHolding?_eq_some_iff {source : Text} {offset : Nat} {language : Language}
    {line : Line} :
    directiveHolding? source offset language = some line ↔
      language = .cSharp ∧ lineHolding? source offset = some line ∧ line.IsDirective := by
  rw [directiveHolding?]
  split
  · next hlanguage => simp [hlanguage, Option.filter_eq_some_iff]
  · next hlanguage => simp [hlanguage]

theorem start_le_of_mem_linesFrom {line : Line} {start : Nat} {texts : List Text}
    (h : line ∈ linesFrom start texts) : start ≤ line.start := by
  induction texts generalizing start with
  | nil => cases h
  | cons text texts ih =>
    rcases List.mem_cons.mp h with rfl | h
    · exact Nat.le_refl _
    · have hle := ih h
      omega

/-- An offset is held by one line only. -/
theorem eq_of_holds {line line' : Line} {start offset : Nat} {texts : List Text}
    (h : line ∈ linesFrom start texts) (h' : line' ∈ linesFrom start texts)
    (hholds : line.Holds offset) (hholds' : line'.Holds offset) : line = line' := by
  induction texts generalizing start with
  | nil => cases h
  | cons text texts ih =>
    rcases List.mem_cons.mp h with rfl | h
    · rcases List.mem_cons.mp h' with rfl | h'
      · rfl
      · have hle := start_le_of_mem_linesFrom h'
        simp only [Line.Holds, Line.stop] at hholds hholds'
        omega
    · rcases List.mem_cons.mp h' with rfl | h'
      · have hle := start_le_of_mem_linesFrom h
        simp only [Line.Holds, Line.stop] at hholds hholds'
        omega
      · exact ih h h'

theorem mem_lines {source : Text} {offset : Nat} {line : Line}
    (hline : lineHolding? source offset = some line) : line ∈ lines source :=
  List.mem_of_find?_eq_some hline

theorem lineHolding?_of_holds {source : Text} {offset : Nat} {line : Line}
    (hmem : line ∈ lines source) (hholds : line.Holds offset) (h : offset ≤ source.length) :
    lineHolding? source offset = some line := by
  obtain ⟨line', hline'⟩ := exists_lineHolding?_eq h
  rw [hline', eq_of_holds hmem (mem_lines hline') hholds (holds_of_lineHolding? hline')]

namespace Line

variable {source : Text} {line line' : Line}

/-- Lines with one start are the same. -/
theorem eq_of_start_eq (h : line ∈ lines source) (h' : line' ∈ lines source)
    (hstart : line.start = line'.start) : line = line' :=
  eq_of_holds h h' ⟨Nat.le_refl _, Nat.le_add_right _ _⟩
    ⟨Nat.le_of_eq hstart.symm, hstart ▸ Nat.le_add_right _ _⟩

/-- A line that starts later starts behind the end of the other one. -/
theorem stop_lt_start (h : line ∈ lines source) (h' : line' ∈ lines source)
    (hlt : line.start < line'.start) : line.stop < line'.start := by
  by_contra hle
  have hsame : line = line' := eq_of_holds h h' ⟨Nat.le_of_lt hlt, Nat.le_of_not_lt hle⟩
    ⟨Nat.le_refl _, Nat.le_add_right _ _⟩
  rw [hsame] at hlt
  exact Nat.lt_irrefl _ hlt

end Line

end Provenance.Syntax
