import Provenance.Proofs.Header.Stretches
import Provenance.Proofs.Syntax.LinePlaces

/-!
What the visible part of a line begins with, told from the front and read off the whole line. Once
something has been found, the rest of the line does not change it. So a number sign that has been
found makes its line a directive, and what is found behind it without one stands on a later line. A
line that ends in front of where two texts may differ is a line of both.
-/
namespace Provenance.Header

open Syntax

variable {source source' : Text} {language : Language} {line : Line} {i j k m : Nat} {c : Char}

theorem lineFront_append (before after : Text) :
    lineFront (before ++ after) = after.foldl LineFront.step (lineFront before) := by
  rw [lineFront, List.foldl_append, lineFront]

theorem foldl_step_of_ne_nothing {front : LineFront} {after : Text} (hfront : front ≠ .nothing)
    (hfree : '\n' ∉ after) : after.foldl LineFront.step front = front := by
  induction after with
  | nil => rfl
  | cons c cs ih =>
    have hc : c ≠ '\n' := fun heq => hfree (heq ▸ List.mem_cons_self)
    have hstep : front.step c = front := by
      cases front with
      | nothing => exact absurd rfl hfront
      | sign => simp only [LineFront.step, if_neg hc]
      | other => simp only [LineFront.step, if_neg hc]
    rw [List.foldl_cons, hstep]
    exact ih fun hmem => hfree (List.mem_cons_of_mem c hmem)

theorem any_lf_eq_false {text : Text} (hfree : '\n' ∉ text) : text.any (· == '\n') = false := by
  apply List.any_eq_false.mpr
  intro a ha heq
  rw [beq_iff_eq] at heq
  exact hfree (heq ▸ ha)

/-- A line feed ends all that stands in front of it. -/
theorem foldl_step_of_mem {front : LineFront} {before : Text} (h : '\n' ∈ before) :
    before.foldl LineFront.step front = lineFront (afterLast (· == '\n') before) := by
  induction before generalizing front with
  | nil => cases h
  | cons c cs ih =>
    by_cases hcs : '\n' ∈ cs
    · have hany : cs.any (· == '\n') = true := List.any_eq_true.mpr ⟨'\n', hcs, rfl⟩
      rw [afterLast_cons_of_any _ hany, List.foldl_cons, ih hcs]
    · have hc : c = '\n' := by
        rcases List.mem_cons.mp h with heq | hmem
        · exact heq.symm
        · exact absurd hmem hcs
      subst hc
      rw [afterLast_cons_of_sep (· == '\n') cs rfl, afterLast_eq_self _ (any_lf_eq_false hcs)]
      rfl

theorem lineFront_afterLast (before : Text) :
    lineFront (afterLast (· == '\n') before) = lineFront before := by
  by_cases h : '\n' ∈ before
  · exact (foldl_step_of_mem h).symm
  · rw [afterLast_eq_self _ (any_lf_eq_false h)]

theorem lineFront_eq_sign_iff {text : Text} (hfree : '\n' ∉ text) :
    lineFront text = .sign ↔ text.find? (fun c => !isWhiteSpace c) = some '#' := by
  induction text with
  | nil => simp [lineFront]
  | cons c cs ih =>
    have hc : c ≠ '\n' := fun heq => hfree (heq ▸ List.mem_cons_self)
    have hcs : '\n' ∉ cs := fun hmem => hfree (List.mem_cons_of_mem c hmem)
    have hcons : lineFront (c :: cs) = cs.foldl LineFront.step (LineFront.nothing.step c) := rfl
    rw [hcons, LineFront.step, if_neg hc]
    cases hblank : isWhiteSpace c with
    | true =>
      rw [List.find?_cons_of_neg (by simp [hblank])]
      exact ih hcs
    | false =>
      rw [List.find?_cons_of_pos (by simp [hblank])]
      by_cases hsign : c = '#'
      · simp [hsign, foldl_step_of_ne_nothing (show LineFront.sign ≠ .nothing by decide) hcs]
      · simp [hsign, foldl_step_of_ne_nothing (show LineFront.other ≠ .nothing by decide) hcs]

theorem lf_notMem_takeWhile (text : Text) : '\n' ∉ text.takeWhile fun c => !(c == '\n') := by
  intro hmem
  have hall := List.all_eq_true.mp List.all_takeWhile _ hmem
  exact absurd hall (by decide)

/-- From the offset to the end of its line there is no line feed. -/
theorem take_stop_of_lineHolding? (hi : i ≤ source.length)
    (hline : lineHolding? source i = some line) :
    source.take line.stop =
      source.take i ++ (source.drop i).takeWhile fun c => !(c == '\n') := by
  rw [stop_of_lineHolding? hi hline, List.take_add]
  exact congrArg _ (List.prefix_iff_eq_take.mp (List.takeWhile_prefix _)).symm

theorem lineFront_text (hi : i ≤ source.length) (hline : lineHolding? source i = some line) :
    lineFront line.text = lineFront (source.take line.stop) := by
  rw [take_stop_of_lineHolding? hi hline, lineFront_append]
  rw [lineHolding?_eq hi, Option.some.injEq] at hline
  subst hline
  rw [lineFront_append, lineFront_afterLast]

theorem isDirective_iff (hi : i ≤ source.length) (hline : lineHolding? source i = some line) :
    line.IsDirective ↔ lineFront (source.take line.stop) = .sign := by
  have hfree : '\n' ∉ line.text := by
    rw [lineHolding?_eq hi, Option.some.injEq] at hline
    subst hline
    intro hmem
    rcases List.mem_append.mp hmem with hbefore | hafter
    · have hsep := sep_eq_false_of_mem_afterLast hbefore
      exact absurd hsep (by decide)
    · exact lf_notMem_takeWhile _ hafter
  rw [← lineFront_text hi hline, lineFront_eq_sign_iff hfree, Line.IsDirective]

/-- What has been found stays, up to the end of the line. -/
theorem lineFront_take_eq (hi : i ≤ source.length) (hline : lineHolding? source i = some line)
    (hij : i ≤ j) (hjk : j ≤ k) (hk : k ≤ line.stop)
    (hfront : lineFront (source.take j) ≠ .nothing) :
    lineFront (source.take k) = lineFront (source.take j) := by
  have hsum : k = j + (k - j) := by omega
  rw [hsum, List.take_add, lineFront_append]
  apply foldl_step_of_ne_nothing hfront
  intro hmem
  have hstop := stop_of_lineHolding? hi hline
  have hbegins : (source.drop i).take (k - i) <+: (source.drop i).takeWhile fun c => !(c == '\n') :=
    List.prefix_of_prefix_length_le (List.take_prefix _ _) (List.takeWhile_prefix _)
      (by rw [List.length_take]; omega)
  have hdrop : (source.drop j).take (k - j) = ((source.drop i).take (k - i)).drop (j - i) := by
    have hj : i + (j - i) = j := by omega
    have hwidth : k - i - (j - i) = k - j := by omega
    rw [List.drop_take, List.drop_drop, hj, hwidth]
  rw [hdrop] at hmem
  exact lf_notMem_takeWhile _ (hbegins.subset (List.mem_of_mem_drop hmem))

/-- What the visible part of a line begins with, up to and with the character at an offset. -/
def frontAt (source : Text) (offset : Nat) : LineFront :=
  match source[offset]? with
  | none => lineFront (source.take offset)
  | some c => (lineFront (source.take offset)).including c

theorem exists_frontAt_eq (hi : i < source.length) (hline : lineHolding? source i = some line) :
    ∃ j, i ≤ j ∧ j ≤ i + 1 ∧ j ≤ line.stop ∧ frontAt source i = lineFront (source.take j) := by
  have hget : source[i]? = some source[i] := List.getElem?_eq_getElem hi
  have hdrop : source.drop i = source[i] :: source.drop (i + 1) := List.drop_eq_getElem_cons hi
  have hstop := stop_of_lineHolding? (Nat.le_of_lt hi) hline
  rw [hdrop, List.takeWhile_cons] at hstop
  by_cases hc : source[i] = '\n'
  · refine ⟨i, Nat.le_refl i, by omega, by omega, ?_⟩
    rw [frontAt, hget]
    simp only [LineFront.including, if_pos hc]
  · have hbeq : (!(source[i] == '\n')) = true := by
      rw [beq_eq_false_iff_ne.mpr hc]
      rfl
    rw [hbeq, if_pos rfl, List.length_cons] at hstop
    refine ⟨i + 1, by omega, by omega, by omega, ?_⟩
    rw [frontAt, hget, List.take_succ_eq_append_getElem hi, lineFront_append]
    simp only [LineFront.including, if_neg hc]
    rfl

theorem isDirective_of_frontAt (hi : i < source.length)
    (hline : lineHolding? source i = some line) (hsign : frontAt source i = .sign) :
    line.IsDirective := by
  obtain ⟨j, hij, -, hj, hfront⟩ := exists_frontAt_eq hi hline
  rw [hsign] at hfront
  rw [isDirective_iff (Nat.le_of_lt hi) hline, hfront]
  exact lineFront_take_eq (Nat.le_of_lt hi) hline hij hj (Nat.le_refl _) (by rw [← hfront]; decide)

end Provenance.Header
