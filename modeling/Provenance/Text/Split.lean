/-!
Splitting lists at separators and joining them again. Splitting everywhere gives the stretches between
separators, and joining these gives the list back; splitting once, at the last separator, gives what
stands in front of it and what comes after.
-/
namespace Provenance

/-- The stretches between the elements that satisfy `sep`; there is always one more than separators. -/
def splitWhere {α : Type} (sep : α → Bool) : List α → List (List α)
  | [] => [[]]
  | a :: as =>
    if sep a then [] :: splitWhere sep as
    else
      match splitWhere sep as with
      | [] => [[a]]
      | first :: others => (a :: first) :: others

/-- The stretch after the last element that satisfies `sep`, or all of the list if none does. -/
def afterLast {α : Type} (sep : α → Bool) (as : List α) : List α :=
  (as.reverse.takeWhile (fun a => !sep a)).reverse

/-- The parts before and after the last element that satisfies `sep`. -/
def splitAtLast {α : Type} (sep : α → Bool) (as : List α) : Option (List α × List α) :=
  match as.reverse.dropWhile (fun a => !sep a) with
  | [] => none
  | _ :: before => some (before.reverse, afterLast sep as)

def joinWith {α : Type} (glue : List α) : List (List α) → List α
  | [] => []
  | [last] => last
  | first :: others => first ++ glue ++ joinWith glue others

theorem splitWhere_ne_nil {α : Type} (sep : α → Bool) (as : List α) : splitWhere sep as ≠ [] := by
  cases as with
  | nil => simp [splitWhere]
  | cons a as =>
    rw [splitWhere]
    split
    · simp
    · split <;> simp

theorem sep_eq_false_of_mem_splitWhere {α : Type} {sep : α → Bool} {as part : List α} {a : α}
    (hpart : part ∈ splitWhere sep as) (ha : a ∈ part) : sep a = false := by
  induction as generalizing part with
  | nil =>
    simp only [splitWhere, List.mem_singleton] at hpart
    subst hpart
    cases ha
  | cons b bs ih =>
    rw [splitWhere] at hpart
    split at hpart
    · rcases List.mem_cons.mp hpart with rfl | hpart
      · cases ha
      · exact ih hpart ha
    · next hb =>
      cases hsplit : splitWhere sep bs with
      | nil => exact absurd hsplit (splitWhere_ne_nil sep bs)
      | cons first others =>
        simp only [hsplit] at hpart ih
        rcases List.mem_cons.mp hpart with rfl | hpart
        · rcases List.mem_cons.mp ha with rfl | ha
          · simpa using hb
          · exact ih List.mem_cons_self ha
        · exact ih (List.mem_cons_of_mem _ hpart) ha

theorem splitWhere_append_cons {α : Type} {sep : α → Bool} (as bs : List α) {a : α}
    (ha : sep a = true) :
    splitWhere sep (as ++ a :: bs) = splitWhere sep as ++ splitWhere sep bs := by
  induction as with
  | nil => simp [splitWhere, ha]
  | cons b as ih =>
    rw [List.cons_append, splitWhere, splitWhere]
    split
    · rw [ih, List.cons_append]
    · rw [ih]
      cases hsplit : splitWhere sep as with
      | nil => exact absurd hsplit (splitWhere_ne_nil sep as)
      | cons first others => rfl

theorem splitWhere_eq_singleton {α : Type} {sep : α → Bool} {part : List α}
    (hpart : ∀ b ∈ part, sep b = false) : splitWhere sep part = [part] := by
  induction part with
  | nil => rfl
  | cons b bs ih =>
    have hb := hpart b List.mem_cons_self
    simp [splitWhere, hb, ih fun c hc => hpart c (List.mem_cons_of_mem _ hc)]

theorem exists_append_afterLast {α : Type} (sep : α → Bool) (as : List α) :
    ∃ before, as = before ++ afterLast sep as := by
  refine ⟨(as.reverse.dropWhile fun a => !sep a).reverse, ?_⟩
  rw [afterLast, ← List.reverse_append, List.takeWhile_append_dropWhile, List.reverse_reverse]

theorem sep_eq_false_of_mem_afterLast {α : Type} {sep : α → Bool} {as : List α} {a : α}
    (h : a ∈ afterLast sep as) : sep a = false := by
  have hall := List.all_takeWhile (p := fun a => !sep a) (l := as.reverse)
  rw [List.all_eq_true] at hall
  simpa using hall a (List.mem_reverse.mp h)

/-- A separator ends all that stands in front of it. -/
theorem afterLast_append_cons {α : Type} {sep : α → Bool} {before after : List α} {a : α}
    (ha : sep a = true) (hafter : ∀ b ∈ after, sep b = false) :
    afterLast sep (before ++ a :: after) = after := by
  have hall : ∀ b ∈ after.reverse, (!sep b) = true := fun b hb => by
    simp [hafter b (List.mem_reverse.mp hb)]
  simp only [afterLast, List.reverse_append, List.reverse_cons, List.append_assoc]
  rw [List.takeWhile_append_of_pos hall]
  simp [ha]

/-- The parts before and after the last separator, and that separator, make up the list. -/
theorem splitAtLast_append_cons {α : Type} {sep : α → Bool} {before after : List α} {a : α}
    (ha : sep a = true) (hafter : ∀ b ∈ after, sep b = false) :
    splitAtLast sep (before ++ a :: after) = some (before, after) := by
  have hall : ∀ b ∈ after.reverse, (!sep b) = true := fun b hb => by
    simp [hafter b (List.mem_reverse.mp hb)]
  have hdrop : (before ++ a :: after).reverse.dropWhile (fun b => !sep b) = a :: before.reverse := by
    simp only [List.reverse_append, List.reverse_cons, List.append_assoc]
    rw [List.dropWhile_append_of_pos hall]
    simp [ha]
  rw [splitAtLast, hdrop, afterLast_append_cons ha hafter]
  simp

theorem splitAtLast_eq_none_iff {α : Type} {sep : α → Bool} {as : List α} :
    splitAtLast sep as = none ↔ ∀ a ∈ as, sep a = false := by
  have hsplit := List.takeWhile_append_dropWhile (p := fun a => !sep a) (l := as.reverse)
  rw [splitAtLast]
  cases hdrop : as.reverse.dropWhile (fun a => !sep a) with
  | nil =>
    have hall := List.all_takeWhile (p := fun a => !sep a) (l := as.reverse)
    rw [hdrop, List.append_nil] at hsplit
    rw [hsplit, List.all_eq_true] at hall
    simpa using hall
  | cons a before =>
    simp only [reduceCtorEq, false_iff]
    intro hnone
    have hnil : (as.reverse ++ []).dropWhile (fun b => !sep b) = [] :=
      List.dropWhile_append_of_pos fun b hb => by simp [hnone b (List.mem_reverse.mp hb)]
    simp [hdrop] at hnil

theorem joinWith_splitWhere {α : Type} [DecidableEq α] (glue : α) (as : List α) :
    joinWith [glue] (splitWhere (· == glue) as) = as := by
  induction as with
  | nil => rfl
  | cons a as ih =>
    cases hsplit : splitWhere (· == glue) as with
    | nil => exact absurd hsplit (splitWhere_ne_nil _ as)
    | cons first others =>
      rw [hsplit] at ih
      by_cases ha : a = glue
      · subst ha
        simp [splitWhere, hsplit, joinWith, ih]
      · cases others with
        | nil => simpa [splitWhere, hsplit, ha, joinWith] using ih
        | cons second others => simpa [splitWhere, hsplit, ha, joinWith] using ih

theorem splitWhere_joinWith {α : Type} [DecidableEq α] {glue : α} {parts : List (List α)}
    (hparts : parts ≠ []) (hfree : ∀ part ∈ parts, glue ∉ part) :
    splitWhere (· == glue) (joinWith [glue] parts) = parts := by
  have free : ∀ part ∈ parts, ∀ b ∈ part, (b == glue) = false := fun part hpart b hb => by
    rw [beq_eq_false_iff_ne]
    rintro rfl
    exact hfree part hpart hb
  induction parts with
  | nil => exact absurd rfl hparts
  | cons first others ih =>
    cases others with
    | nil => exact splitWhere_eq_singleton (free first List.mem_cons_self)
    | cons second others =>
      have hrest := ih (by simp) (fun part hpart => hfree part (List.mem_cons_of_mem _ hpart))
        fun part hpart => free part (List.mem_cons_of_mem _ hpart)
      rw [joinWith]
      · rw [List.append_assoc, List.singleton_append, splitWhere_append_cons _ _ (by simp), hrest,
          splitWhere_eq_singleton (free first List.mem_cons_self), List.singleton_append]
      · simp

end Provenance
