import Provenance.Path

/-!
What joined paths mean. The spelling of a path in names is read back as these names, and joining puts
the names behind the steps of the first path, however that one is spelled.
-/
namespace Provenance.Path

theorem stretches_ofNames {names : List FileName} (h : names ≠ []) :
    (ofNames names).stretches = names.map FileName.bytes := by
  refine splitWhere_joinWith (by simpa using h) fun part hpart => ?_
  obtain ⟨n, -, rfl⟩ := List.mem_map.mp hpart
  exact n.separator_notMem_bytes

private theorem filterMap_ofStretch?_names (names : List FileName) :
    (names.map FileName.bytes).filterMap Component.ofStretch? = names.map Component.name := by
  induction names with
  | nil => rfl
  | cons n names ih => simp [ih]

theorem components_ofNames {names : List FileName} (h : names ≠ []) :
    (ofNames names).components = names.map Component.name := by
  rw [components, stretches_ofNames h, filterMap_ofStretch?_names]
  cases names with
  | nil => exact absurd rfl h
  | cons n names =>
    have hdot := n.bytes_ne_dot
    have hnil := n.bytes_ne_nil
    cases names <;> simp [front, hdot, hnil]

theorem front_append {parts : List Bytes} (hnil : parts ≠ []) (hempty : parts ≠ [[]])
    (more : List Bytes) : front (parts ++ more) = front parts := by
  cases parts with
  | nil => exact absurd rfl hnil
  | cons first others =>
    cases others with
    | cons second others => cases first <;> rfl
    | nil =>
      cases first with
      | nil => exact absurd rfl hempty
      | cons b bs => rfl

theorem front_append_congr {parts more more' : List Bytes} (hnil : parts ≠ []) (hmore : more ≠ [])
    (hmore' : more' ≠ []) : front (parts ++ more) = front (parts ++ more') := by
  cases parts with
  | nil => exact absurd rfl hnil
  | cons first others =>
    cases others with
    | cons second others => cases first <;> rfl
    | nil =>
      cases more with
      | nil => exact absurd rfl hmore
      | cons second _ =>
        cases more' with
        | nil => exact absurd rfl hmore'
        | cons third _ => cases first <;> rfl

/-- A joined path has the steps of its first part followed by the names of its second. -/
theorem components_join_ofNames (p : Path) {names : List FileName} (h : names ≠ []) :
    (p.join (ofNames names).bytes).components = p.components ++ names.map Component.name := by
  have hnames := stretches_ofNames h
  rw [stretches] at hnames
  have hmore : names.map FileName.bytes ≠ [] := by simpa using h
  obtain ⟨b⟩ := p
  by_cases hnil : b = []
  · subst hnil
    exact components_ofNames h
  by_cases hlast : b.getLast? = some separator
  · obtain ⟨q, rfl⟩ := List.getLast?_eq_some_iff.mp hlast
    have hjoined : (join ⟨q ++ [separator]⟩ (ofNames names).bytes).stretches =
        splitWhere (· == separator) q ++ names.map FileName.bytes := by
      rw [join, if_pos (Or.inr hlast), stretches, List.append_assoc, List.singleton_append,
        splitWhere_append_cons _ _ (by simp), hnames]
    have hself : stretches ⟨q ++ [separator]⟩ = splitWhere (· == separator) q ++ [[]] := by
      rw [stretches, splitWhere_append_cons _ _ (by simp)]
      rfl
    rw [components, components, hjoined, hself,
      front_append_congr (splitWhere_ne_nil _ q) hmore (List.cons_ne_nil [] [])]
    have hblank : [([] : Bytes)].filterMap Component.ofStretch? = [] := rfl
    rw [List.filterMap_append, List.filterMap_append, filterMap_ofStretch?_names, hblank,
      List.append_nil, List.append_assoc]
  · have hjoined : (join ⟨b⟩ (ofNames names).bytes).stretches =
        splitWhere (· == separator) b ++ names.map FileName.bytes := by
      rw [join, if_neg (by simp [hnil, hlast]), stretches,
        splitWhere_append_cons _ _ (by simp), hnames]
    have hempty : splitWhere (· == separator) b ≠ [[]] := by
      intro hsplit
      have hglue := joinWith_splitWhere separator b
      rw [hsplit] at hglue
      exact hnil hglue.symm
    rw [components, components, hjoined, front_append (splitWhere_ne_nil _ b) hempty, stretches,
      List.filterMap_append, filterMap_ofStretch?_names, List.append_assoc]

end Provenance.Path
