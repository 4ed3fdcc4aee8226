import Provenance.Text.Basic
import Mathlib.Data.List.TakeWhile
import Mathlib.Tactic.ByContra

/-!
Lists that begin alike. Two lists agree up to a length if they have the same elements so far, or are
equal and shorter. What can be told from the elements in front of this length is the same for both.
-/
namespace Provenance

variable {α : Type} {m n : Nat} {as bs : List α}

def Agree (m : Nat) (as bs : List α) : Prop := as.take m = bs.take m

namespace Agree

theorem refl (m : Nat) (as : List α) : Agree m as as := rfl

theorem symm (h : Agree m as bs) : Agree m bs as := Eq.symm h

theorem mono (h : Agree m as bs) (hn : n ≤ m) : Agree n as bs := by
  have hmin : min n m = n := by omega
  have htake := congrArg (List.take n) h
  rw [List.take_take, List.take_take, hmin] at htake
  exact htake

theorem drop (h : Agree m as bs) (n : Nat) : Agree (m - n) (as.drop n) (bs.drop n) := by
  have hdrop := congrArg (List.drop n) h
  rw [List.drop_take, List.drop_take] at hdrop
  exact hdrop

theorem cons (a : α) (h : Agree m as bs) : Agree (m + 1) (a :: as) (a :: bs) := by
  rw [Agree, List.take_succ_cons, List.take_succ_cons, h]

/-- Either both lists are at their end, or they begin with the same element. -/
theorem cases_of_pos (h : Agree m as bs) (hm : 0 < m) :
    (as = [] ∧ bs = []) ∨
      ∃ a as' bs', as = a :: as' ∧ bs = a :: bs' ∧ Agree (m - 1) as' bs' := by
  obtain ⟨k, rfl⟩ : ∃ k, m = k + 1 := ⟨m - 1, by omega⟩
  cases as with
  | nil =>
    cases bs with
    | nil => exact Or.inl ⟨rfl, rfl⟩
    | cons b bs => simp [Agree] at h
  | cons a as =>
    cases bs with
    | nil => simp [Agree] at h
    | cons b bs =>
      rw [Agree, List.take_succ_cons, List.take_succ_cons, List.cons.injEq] at h
      exact Or.inr ⟨a, as, bs, rfl, by rw [h.1], h.2⟩

theorem exists_cons {a : α} (h : Agree m (a :: as) bs) (hm : 0 < m) :
    ∃ bs', bs = a :: bs' ∧ Agree (m - 1) as bs' := by
  rcases h.cases_of_pos hm with ⟨hnil, -⟩ | ⟨b, as', bs', has, hbs, hrest⟩
  · cases hnil
  · cases has
    exact ⟨bs', hbs, hrest⟩

theorem eq_nil (h : Agree m [] bs) (hm : 0 < m) : bs = [] := by
  rcases h.cases_of_pos hm with ⟨-, hnil⟩ | ⟨b, as', bs', has, -⟩
  · exact hnil
  · cases has

theorem head? (h : Agree m as bs) (hm : 0 < m) : as.head? = bs.head? := by
  rcases h.cases_of_pos hm with ⟨rfl, rfl⟩ | ⟨a, as', bs', rfl, rfl, -⟩
  · rfl
  · rfl

theorem takeWhile_eq {p : α → Bool} (h : Agree m as bs) (hlt : (as.takeWhile p).length < m) :
    bs.takeWhile p = as.takeWhile p := by
  induction as generalizing m bs with
  | nil =>
    rw [h.eq_nil (by omega)]
  | cons a as ih =>
    obtain ⟨bs', rfl, hrest⟩ := h.exists_cons (by omega)
    by_cases ha : p a = true
    · rw [List.takeWhile_cons_of_pos ha] at hlt ⊢
      rw [List.takeWhile_cons_of_pos ha, ih hrest]
      rw [List.length_cons] at hlt
      omega
    · rw [List.takeWhile_cons_of_neg ha, List.takeWhile_cons_of_neg ha]

theorem dropWhile {p : α → Bool} (h : Agree m as bs) (hlt : (as.takeWhile p).length < m) :
    Agree (m - (as.takeWhile p).length) (as.dropWhile p) (bs.dropWhile p) := by
  induction as generalizing m bs with
  | nil =>
    rw [h.eq_nil (by omega)]
    exact refl _ _
  | cons a as ih =>
    obtain ⟨bs', rfl, hrest⟩ := h.exists_cons (by omega)
    by_cases ha : p a = true
    · rw [List.takeWhile_cons_of_pos ha, List.length_cons] at hlt ⊢
      rw [List.dropWhile_cons_of_pos ha, List.dropWhile_cons_of_pos ha]
      have htail := ih hrest (by omega)
      have hsub : m - 1 - (as.takeWhile p).length = m - ((as.takeWhile p).length + 1) := by omega
      rw [hsub] at htail
      exact htail
    · rw [List.takeWhile_cons_of_neg ha, List.dropWhile_cons_of_neg ha,
        List.dropWhile_cons_of_neg ha]
      exact h

theorem le_length_takeWhile {p : α → Bool} (h : Agree m as bs) (hn : n ≤ m)
    (hle : n ≤ (as.takeWhile p).length) : n ≤ (bs.takeWhile p).length := by
  by_contra hlt
  have heq : as.takeWhile p = bs.takeWhile p := h.symm.takeWhile_eq (by omega)
  rw [heq] at hle
  omega

theorem isPrefixOf [BEq α] [LawfulBEq α] {word : List α} (h : Agree m as bs)
    (hle : word.length ≤ m) (hword : word.isPrefixOf as = true) : word.isPrefixOf bs = true := by
  rw [List.isPrefixOf_iff_prefix] at hword ⊢
  rw [List.prefix_iff_eq_take] at hword ⊢
  rw [hword]
  have htake := h.mono hle
  rw [List.length_take]
  have hlen : min word.length as.length = word.length := by
    have hle' := congrArg List.length hword
    rw [List.length_take] at hle'
    exact hle'.symm
  rw [hlen]
  exact htake

end Agree

/-- The first element of a list is the same for two conditions if the one found by each meets the
other. -/
theorem find?_eq_find? {p q : α → Bool} {l : List α} (hpq : ∀ a, l.find? p = some a → q a = true)
    (hqp : ∀ a, l.find? q = some a → p a = true) : l.find? p = l.find? q := by
  induction l with
  | nil => rfl
  | cons a l ih =>
    by_cases hp : p a = true
    · have hq := hpq a (List.find?_cons_of_pos hp)
      rw [List.find?_cons_of_pos hp, List.find?_cons_of_pos hq]
    · by_cases hq : q a = true
      · exact absurd (hqp a (List.find?_cons_of_pos hq)) hp
      · rw [List.find?_cons_of_neg hp] at hpq ⊢
        rw [List.find?_cons_of_neg hq] at hqp ⊢
        exact ih hpq hqp

end Provenance
