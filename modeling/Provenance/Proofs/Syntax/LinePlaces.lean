import Provenance.Proofs.Syntax.Lines
import Provenance.Proofs.Text.Agreement

/-!
Where a line stands in its text. It is the stretch around an offset up to the next line feed, so a line
that ends in front of where two texts may differ is a line of both, and what is visible on it stands in
front of the carriage returns that end it.
-/
namespace Provenance.Syntax

variable {source source' : Text} {language : Language} {line : Line} {i m : Nat} {c : Char}

/-- The line that holds an offset covers what comes up to the next line feed. -/
theorem stop_of_lineHolding? (hi : i ≤ source.length)
    (hline : lineHolding? source i = some line) :
    line.stop = i + ((source.drop i).takeWhile fun c => !(c == '\n')).length := by
  rw [lineHolding?_eq hi, Option.some.injEq] at hline
  subst hline
  have hle := length_afterLast_le (· == '\n') (source.take i)
  rw [List.length_take] at hle
  simp only [Line.stop, List.length_append]
  omega

theorem lineHolding?_local (h : Agree m source source') (hi : i ≤ source.length)
    (hi' : i ≤ source'.length) (hline : lineHolding? source i = some line) (hlt : line.stop < m) :
    lineHolding? source' i = some line := by
  have hstop := stop_of_lineHolding? hi hline
  have htake : source'.take i = source.take i := (h.mono (by omega)).symm
  have hrest : ((source'.drop i).takeWhile fun c => !(c == '\n')) =
      (source.drop i).takeWhile fun c => !(c == '\n') :=
    (h.drop i).takeWhile_eq (by omega)
  rw [lineHolding?_eq hi, Option.some.injEq] at hline
  rw [lineHolding?_eq hi', htake, hrest, hline]

theorem directiveHolding?_local (h : Agree m source source') (hi : i ≤ source.length)
    (hi' : i ≤ source'.length) (hline : directiveHolding? source i language = some line)
    (hlt : line.stop < m) : directiveHolding? source' i language = some line := by
  obtain ⟨hlanguage, hholding, hdirective⟩ := directiveHolding?_eq_some_iff.mp hline
  exact directiveHolding?_eq_some_iff.mpr
    ⟨hlanguage, lineHolding?_local h hi hi' hholding hlt, hdirective⟩

/-- What stands no further on than a directive line goes is held by it. -/
theorem directiveHolding?_of_le {j : Nat} (hline : directiveHolding? source i language = some line)
    (hij : i ≤ j) (hle : j ≤ line.stop) (hj : j ≤ source.length) :
    directiveHolding? source j language = some line := by
  obtain ⟨hlanguage, hholding, hdirective⟩ := directiveHolding?_eq_some_iff.mp hline
  have hholds : line.Holds j := ⟨Nat.le_trans (holds_of_lineHolding? hholding).1 hij, hle⟩
  exact directiveHolding?_eq_some_iff.mpr
    ⟨hlanguage, lineHolding?_of_holds (mem_lines hholding) hholds hj, hdirective⟩

/-- A visible character stands in front of the carriage returns that end its line. -/
theorem lt_of_visible (hline : lineHolding? source i = some line) (hc : source[i]? = some c)
    (hvisible : isWhiteSpace c = false) : i < line.start + line.content.length := by
  obtain ⟨hlt, hget⟩ := List.getElem?_eq_some_iff.mp hc
  have hlf : (c == '\n') = false := by
    rw [beq_eq_false_iff_ne]
    rintro rfl
    cases hvisible
  obtain ⟨rest, htext, hrest⟩ := exists_append_trimEnd (· == '\r') line.text
  rw [lineHolding?_eq (Nat.le_of_lt hlt), Option.some.injEq] at hline
  have hbegun := length_afterLast_le (· == '\n') (source.take i)
  rw [List.length_take] at hbegun
  have hstart : line.start + (afterLast (· == '\n') (source.take i)).length = i := by
    rw [← hline]
    simp only []
    omega
  by_contra hle
  have hmem : c ∈ rest := by
    have hsplit : line.content ++ rest = afterLast (· == '\n') (source.take i) ++
        c :: (source.drop (i + 1)).takeWhile fun c => !(c == '\n') := by
      rw [Line.content, ← htext, ← hline, List.drop_eq_getElem_cons hlt, hget,
        List.takeWhile_cons, hlf]
      rfl
    rcases List.append_eq_append_iff.mp hsplit with ⟨mid, -, hmid⟩ | ⟨mid, hmid, hafter⟩
    · rw [hmid]
      exact List.mem_append_right mid List.mem_cons_self
    · cases mid with
      | nil =>
        rw [← (List.nil_append rest), ← hafter]
        exact List.mem_cons_self
      | cons a mid =>
        have hlength := congrArg List.length hmid
        rw [List.length_append, List.length_cons] at hlength
        omega
  have hcr : c = '\r' := by simpa using hrest c hmem
  subst hcr
  cases hvisible

/-- A line stands at its place. -/
theorem text_prefix_of_lineHolding? (h : lineHolding? source i = some line)
    (hi : i ≤ source.length) : line.text <+: source.drop line.start := by
  obtain ⟨front, hfront⟩ := exists_append_afterLast (· == '\n') (source.take i)
  have hlength : i = front.length + (afterLast (· == '\n') (source.take i)).length := by
    rw [← List.length_append, ← hfront, List.length_take, Nat.min_eq_left hi]
  have hstart : i - (afterLast (· == '\n') (source.take i)).length = front.length := by omega
  have hdrop : source.drop front.length =
      afterLast (· == '\n') (source.take i) ++ source.drop i := by
    conv => lhs; rw [← List.take_append_drop i source, hfront, List.append_assoc, List.drop_left]
  rw [lineHolding?_eq hi, Option.some.injEq] at h
  subst h
  rw [hstart, hdrop]
  exact (List.prefix_append_right_inj _).mpr (List.takeWhile_prefix _)

end Provenance.Syntax
