import Provenance.NameRule
import Provenance.Proofs.Text.AsciiBytes
import Provenance.Proofs.Scan.Justified
import Provenance.Proofs.Scan.FilesBelow

/-!
What the rules see of a spelling. The rule for names reads a path as text, and patterns read what is
left of it below a root; both come down to the steps of the path, as long as its spelling ends in its
last name. Then the separator in front of that name is a byte of its own, whatever stands before it.
-/
namespace Provenance

theorem afterLast_append_sep {α : Type} {sep : α → Bool} (before after : List α) {a : α}
    (ha : sep a = true) : afterLast sep (before ++ a :: after) = afterLast sep after := by
  have hstop : (!sep a) = false := by rw [ha, Bool.not_true]
  rw [afterLast, afterLast, List.reverse_append, List.reverse_cons, List.append_assoc,
    List.takeWhile_append]
  split
  · next hall =>
    have htaken : after.reverse.takeWhile (fun b => !sep b) = after.reverse :=
      (List.takeWhile_prefix _).eq_of_length hall
    rw [htaken, List.singleton_append,
      List.takeWhile_cons_of_neg (by rw [hstop]; exact Bool.false_ne_true),
      List.append_nil]
  · rfl

theorem joinWith_concat {α : Type} {glue : α} {parts : List (List α)} (hparts : parts ≠ [])
    (last : List α) :
    joinWith [glue] (parts ++ [last]) = joinWith [glue] parts ++ glue :: last := by
  induction parts with
  | nil => exact absurd rfl hparts
  | cons first others ih =>
    cases others with
    | nil => simp [joinWith]
    | cons second others =>
      have hrest := ih (List.cons_ne_nil second others)
      simp only [List.cons_append, joinWith] at hrest ⊢
      rw [hrest]
      simp

namespace Path

/-- The spelling ends in this name, with nothing behind it. -/
def EndsIn (p : Path) (name : FileName) : Prop :=
  p.stretches.getLast? = some name.bytes

variable {p q : Path} {name other : FileName}

theorem EndsIn.fileName?_eq (h : p.EndsIn name) : p.fileName? = some name := by
  obtain ⟨others, hothers⟩ := List.getLast?_eq_some_iff.mp h
  have hlast : p.components.getLast? = some (.name name) := by
    rw [components, hothers, List.filterMap_append]
    simp
  rw [fileName?, hlast]

theorem EndsIn.eq_of_components (hp : p.EndsIn name) (hq : q.EndsIn other)
    (h : p.components = q.components) : name = other := by
  have hname := hp.fileName?_eq
  rw [fileName?, h, ← fileName?, hq.fileName?_eq] at hname
  exact (Option.some.inj hname).symm

/-- In front of the last name stands nothing, or a separator. -/
theorem EndsIn.bytes_eq (h : p.EndsIn name) :
    p.bytes = name.bytes ∨ ∃ before, p.bytes = before ++ separator :: name.bytes := by
  obtain ⟨others, hothers⟩ := List.getLast?_eq_some_iff.mp h
  have hjoined := joinWith_splitWhere separator p.bytes
  rw [← stretches, hothers] at hjoined
  by_cases hnil : others = []
  · rw [hnil] at hjoined
    exact Or.inl hjoined.symm
  · rw [joinWith_concat hnil] at hjoined
    exact Or.inr ⟨_, hjoined.symm⟩

/-- The rule for names reads the last name and nothing else. -/
theorem EndsIn.fires_eq (h : p.EndsIn name) :
    NameRule.fires p.display = NameRule.fires (Utf8.decode name.bytes) := by
  have hsegment : NameRule.lastSegment p.display =
      NameRule.lastSegment (Utf8.decode name.bytes) := by
    rw [display]
    rcases h.bytes_eq with hbytes | ⟨before, hbytes⟩
    · rw [hbytes]
    · rw [hbytes, Utf8.decode_append_ascii before name.bytes (by decide)]
      exact afterLast_append_sep _ _ rfl
  rw [NameRule.fires, NameRule.fires, hsegment]

theorem fires_of_components (hp : p.EndsIn name) (hq : q.EndsIn other)
    (h : p.components = q.components) :
    NameRule.fires p.display = NameRule.fires q.display := by
  rw [hp.fires_eq, hq.fires_eq, hp.eq_of_components hq h]

end Path

namespace Scan

variable {path path' root root' : Path} {name other : FileName}

/-- What a path settles by itself depends on its steps. -/
theorem settledByName?_of_components (hname : path.EndsIn name) (hname' : path'.EndsIn other)
    (h : path.components = path'.components) : settledByName? path = settledByName? path' := by
  rw [settledByName?, settledByName?, Path.fires_of_components hname hname' h,
    ofPath?_of_components h]

/-- The path of a file below a root ends in the name of the file. -/
theorem endsIn_walkedPath (root : Path) {names : List FileName} (h : names ≠ []) :
    (walkedPath root names).EndsIn (names.getLast h) := by
  obtain ⟨others, hothers⟩ : ∃ others,
      (walkedPath root names).stretches = others ++ (Path.ofNames names).stretches := by
    obtain ⟨b⟩ := root
    rw [walkedPath, Path.join]
    split
    · next hjoined =>
      rcases hjoined with hnil | hlast
      · rw [List.getLast?_eq_none_iff.mp hnil]
        exact ⟨[], rfl⟩
      · obtain ⟨q, hq⟩ := List.getLast?_eq_some_iff.mp hlast
        rw [hq, List.append_assoc]
        exact ⟨_, splitWhere_append_cons _ _ rfl⟩
    · exact ⟨_, splitWhere_append_cons _ _ rfl⟩
  rw [Path.EndsIn, hothers, Path.stretches_ofNames h, List.getLast?_append, List.getLast?_map,
    List.getLast?_eq_some_getLast h]
  rfl

theorem excludes_of_components (exclusion : Exclusion) (hpath : path.components = path'.components)
    (hroot : root.components = root'.components)
    (hbelow : root.components <+: path.components) :
    exclusion.excludes path root = exclusion.excludes path' root' := by
  have hname : Exclusion.matchedName path = Exclusion.matchedName path' := by
    rw [Exclusion.matchedName, Exclusion.matchedName, Path.fileName?, Path.fileName?, hpath]
  have hfound : root.components.isPrefixOf path.components = true :=
    List.isPrefixOf_iff_prefix.mpr hbelow
  have hrelative : (path.below? root).getD path = (path'.below? root').getD path' := by
    rw [Path.below?, Path.below?, ← hpath, ← hroot, if_pos hfound]
    rfl
  rw [Exclusion.excludes, Exclusion.excludes, hname, hrelative]

end Scan

end Provenance
