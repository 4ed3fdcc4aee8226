import Mathlib.Data.List.InsertIdx
import Mathlib.Data.List.Nodup
import Mathlib.Logic.Function.Basic
import Mathlib.Logic.Relation
import Provenance.Cancellation.Registry

/-!
Whom a cancellation reaches. A history tells tokens apart for good: each has a number, and it is
known of which other one it is a copy and which tokens have been asked to cancel. A family are the
tokens that come from one new token by copying. A live token has been cancelled just if some token of
its family has been asked to, dropped or not, before it was copied or after; so every step concerns
one family at most, and nothing makes a cancelled token go on.
-/
namespace Provenance.Registry

/-- What has been done to tokens. They are numbered in the order in which they are made. -/
structure History where
  /-- For each token ever made the one that it is a copy of, if it is not a new one. -/
  made : List (Option Nat)
  /-- The live tokens, by position. -/
  live : List Nat
  /-- The tokens that have been asked to cancel. -/
  asked : List Nat

namespace History

def empty : History := ⟨[], [], []⟩

/-- The history with one more token, which is live. -/
def add (h : History) (source : Option Nat) : History :=
  { h with made := h.made ++ [source], live := h.live ++ [h.made.length] }

/-- The history with one more step. -/
def apply (h : History) : Step → History
  | .fresh => h.add none
  | .copy i =>
    match h.live[i]? with
    | none => h
    | some x => h.add (some x)
  | .cancel i =>
    match h.live[i]? with
    | none => h
    | some x => { h with asked := h.asked ++ [x] }
  | .drop i => { h with live := h.live.eraseIdx i }

/-- The history of a sequence of steps. -/
def run (steps : List Step) : History :=
  steps.foldl apply empty

def IsNew (h : History) (x : Nat) : Prop := h.made[x]? = some none

/-- The second token is a copy of the first. -/
def Copied (h : History) (x y : Nat) : Prop := h.made[y]? = some (some x)

/-- A token, a copy of it, a copy of a copy and so on. -/
def Descends (h : History) : Nat → Nat → Prop := Relation.ReflTransGen h.Copied

/-- Two tokens that come from the same new token. -/
def SameFamily (h : History) (x y : Nat) : Prop :=
  ∃ first, h.IsNew first ∧ h.Descends first x ∧ h.Descends first y

theorem run_concat (steps : List Step) (step : Step) :
    run (steps ++ [step]) = (run steps).apply step := by
  rw [run, List.foldl_append]
  rfl

/-- A later history knows of all copies and all requests of an earlier one. -/
structure Extends (h h' : History) : Prop where
  made : h.made <+: h'.made
  asked : h.asked <+: h'.asked

theorem Extends.refl (h : History) : h.Extends h := ⟨List.prefix_refl _, List.prefix_refl _⟩

theorem Extends.trans {h h' h'' : History} (first : h.Extends h') (second : h'.Extends h'') :
    h.Extends h'' :=
  ⟨first.made.trans second.made, first.asked.trans second.asked⟩

theorem extends_apply (h : History) (step : Step) : h.Extends (h.apply step) := by
  cases step with
  | fresh => exact ⟨List.prefix_append _ _, List.prefix_refl _⟩
  | copy i =>
    rw [apply]
    cases h.live[i]? with
    | none => exact .refl h
    | some x => exact ⟨List.prefix_append _ _, List.prefix_refl _⟩
  | cancel i =>
    rw [apply]
    cases h.live[i]? with
    | none => exact .refl h
    | some x => exact ⟨List.prefix_refl _, List.prefix_append _ _⟩
  | drop i => exact ⟨List.prefix_refl _, List.prefix_refl _⟩

theorem extends_run_append (steps later : List Step) :
    (run steps).Extends (run (steps ++ later)) := by
  induction later generalizing steps with
  | nil => rw [List.append_nil]; exact .refl _
  | cons step later ih =>
    have hrest := ih (steps ++ [step])
    rw [run_concat, List.append_assoc, List.singleton_append] at hrest
    exact (extends_apply _ step).trans hrest

theorem getElem?_concat_eq_some_iff {as : List (Option Nat)} {a b : Option Nat} {x : Nat} :
    (as ++ [a])[x]? = some b ↔ as[x]? = some b ∨ x = as.length ∧ a = b := by
  rcases Nat.lt_trichotomy x as.length with hlt | rfl | hgt
  · rw [List.getElem?_append_left hlt]
    simp [Nat.ne_of_lt hlt]
  · simp
  · have hnone : as[x]? = none := List.getElem?_eq_none (Nat.le_of_lt hgt)
    rw [List.getElem?_append_right (Nat.le_of_lt hgt), hnone,
      List.getElem?_eq_none (by simp; omega)]
    simp [Nat.ne_of_gt hgt]

theorem isNew_add_iff {h : History} {source : Option Nat} {x : Nat} :
    (h.add source).IsNew x ↔ h.IsNew x ∨ x = h.made.length ∧ source = none :=
  getElem?_concat_eq_some_iff

theorem copied_add_iff {h : History} {source : Option Nat} {x y : Nat} :
    (h.add source).Copied x y ↔ h.Copied x y ∨ y = h.made.length ∧ source = some x :=
  getElem?_concat_eq_some_iff

theorem Copied.lt {h : History} {x y : Nat} (hcopied : h.Copied x y) : y < h.made.length :=
  (List.getElem?_eq_some_iff.mp hcopied).1

theorem IsNew.lt {h : History} {x : Nat} (hnew : h.IsNew x) : x < h.made.length :=
  (List.getElem?_eq_some_iff.mp hnew).1

theorem getElem?_of_prefix {as bs : List (Option Nat)} (h : as <+: bs) {x : Nat} {a : Option Nat}
    (ha : as[x]? = some a) : bs[x]? = some a := by
  obtain ⟨more, rfl⟩ := h
  exact (List.getElem?_append_left (List.getElem?_eq_some_iff.mp ha).1).trans ha

theorem SameFamily.mono {h h' : History} {x y : Nat} (hfamily : h.SameFamily x y)
    (hextends : h.Extends h') : h'.SameFamily x y := by
  have hcopied : ∀ a b, h.Copied a b → h'.Copied a b :=
    fun a b => getElem?_of_prefix hextends.made
  obtain ⟨first, hnew, hx, hy⟩ := hfamily
  exact ⟨first, getElem?_of_prefix hextends.made hnew,
    Relation.ReflTransGen.mono hcopied _ _ hx, Relation.ReflTransGen.mono hcopied _ _ hy⟩

/-- Tokens are made before they are used. -/
structure Lawful (h : History) : Prop where
  live_made : ∀ x ∈ h.live, x < h.made.length
  live_nodup : h.live.Nodup
  asked_made : ∀ x ∈ h.asked, x < h.made.length
  copied_lt : ∀ x y, h.Copied x y → x < y

namespace Lawful

variable {h : History} {x : Nat}

theorem empty : Lawful .empty where
  live_made := nofun
  live_nodup := List.nodup_nil
  asked_made := nofun
  copied_lt := nofun

theorem add (hl : h.Lawful) {source : Option Nat}
    (hsource : ∀ x, source = some x → x < h.made.length) : (h.add source).Lawful where
  live_made := by
    intro x hx
    rw [History.add, List.length_append, List.length_singleton]
    rcases List.mem_append.mp hx with hx | hx
    · exact Nat.lt_succ_of_lt (hl.live_made x hx)
    · rw [List.mem_singleton.mp hx]
      exact Nat.lt_succ_self _
  live_nodup := by
    rw [History.add, List.nodup_append]
    refine ⟨hl.live_nodup, List.nodup_singleton _, ?_⟩
    rintro x hx y hy rfl
    exact absurd (List.mem_singleton.mp hy) (Nat.ne_of_lt (hl.live_made x hx))
  asked_made := by
    intro x hx
    rw [History.add, List.length_append, List.length_singleton]
    exact Nat.lt_succ_of_lt (hl.asked_made x hx)
  copied_lt := by
    intro x y hcopied
    rcases copied_add_iff.mp hcopied with hcopied | ⟨rfl, hx⟩
    · exact hl.copied_lt x y hcopied
    · exact hsource x hx

theorem ask (hl : h.Lawful) (hx : x < h.made.length) :
    Lawful { h with asked := h.asked ++ [x] } where
  live_made := hl.live_made
  live_nodup := hl.live_nodup
  asked_made := by
    intro y hy
    rcases List.mem_append.mp hy with hy | hy
    · exact hl.asked_made y hy
    · exact List.mem_singleton.mp hy ▸ hx
  copied_lt := hl.copied_lt

theorem drop (hl : h.Lawful) (i : Nat) : Lawful { h with live := h.live.eraseIdx i } where
  live_made := fun x hx => hl.live_made x (List.mem_of_mem_eraseIdx hx)
  live_nodup := (List.eraseIdx_sublist _ _).nodup hl.live_nodup
  asked_made := hl.asked_made
  copied_lt := hl.copied_lt

/-- Every token comes from a new one. -/
theorem exists_descends (hl : h.Lawful) (hx : x < h.made.length) :
    ∃ first, h.IsNew first ∧ h.Descends first x := by
  induction x using Nat.strongRecOn with
  | _ x ih =>
    cases hsource : h.made[x] with
    | none => exact ⟨x, List.getElem?_eq_some_iff.mpr ⟨hx, hsource⟩, Relation.ReflTransGen.refl⟩
    | some y =>
      have hcopied : h.Copied y x := List.getElem?_eq_some_iff.mpr ⟨hx, hsource⟩
      have hlt := hl.copied_lt y x hcopied
      obtain ⟨first, hnew, hdescends⟩ := ih y hlt (Nat.lt_trans hlt hx)
      exact ⟨first, hnew, hdescends.tail hcopied⟩

end Lawful

end History

open History

/-- What a history has to do with the flags of a registry, where `flag` tells for each token ever
made, live or not, the flag that it points at. -/
structure Tracks (h : History) (r : Registry) (flag : Nat → Nat) : Prop where
  lawful : h.Lawful
  tokens_eq : r.tokens = h.live.map flag
  flag_lt : ∀ x < h.made.length, flag x < r.flags.length
  /-- Copies point at the flag of their source, and new tokens at flags of their own. -/
  flag_copied : ∀ x y, h.Copied x y → flag y = flag x
  flag_new : ∀ x y, h.IsNew x → h.IsNew y → flag x = flag y → x = y
  raised_iff : ∀ x < h.made.length, r.isRaised (flag x) = true ↔ ∃ y ∈ h.asked, flag y = flag x

/-- A flag that is added is not raised, as one that is not there. -/
theorem isRaised_append_false (r : Registry) (tokens : List Nat) (flag : Nat) :
    (⟨r.flags ++ [false], tokens⟩ : Registry).isRaised flag = r.isRaised flag := by
  rw [isRaised, isRaised]
  rcases Nat.lt_or_ge flag r.flags.length with hlt | hge
  · rw [List.getElem?_append_left hlt]
  · rw [List.getElem?_append_right hge, List.getElem?_eq_none hge]
    cases flag - r.flags.length <;> rfl

theorem isRaised_of_le {r : Registry} {flag : Nat} (h : r.flags.length ≤ flag) :
    r.isRaised flag = false := by
  rw [isRaised, List.getElem?_eq_none h]
  rfl

namespace Tracks

variable {h : History} {r : Registry} {flag : Nat → Nat} {x y : Nat}

theorem empty : Tracks .empty .empty id where
  lawful := .empty
  tokens_eq := rfl
  flag_lt := nofun
  flag_copied := nofun
  flag_new := nofun
  raised_iff := nofun

theorem flag_eq_of_descends (ht : Tracks h r flag) (hdescends : h.Descends x y) :
    flag y = flag x := by
  induction hdescends with
  | refl => rfl
  | tail _ hcopied ih => rw [ht.flag_copied _ _ hcopied, ih]

/-- Two tokens are of one family just if they point at one flag. -/
theorem sameFamily_iff (ht : Tracks h r flag) (hx : x < h.made.length) (hy : y < h.made.length) :
    h.SameFamily x y ↔ flag x = flag y := by
  constructor
  · rintro ⟨first, -, hfirst, hfirst'⟩
    rw [ht.flag_eq_of_descends hfirst, ht.flag_eq_of_descends hfirst']
  · intro hflag
    obtain ⟨first, hnew, hfirst⟩ := ht.lawful.exists_descends hx
    obtain ⟨first', hnew', hfirst'⟩ := ht.lawful.exists_descends hy
    have hsame : first = first' := by
      apply ht.flag_new _ _ hnew hnew'
      rw [← ht.flag_eq_of_descends hfirst, ← ht.flag_eq_of_descends hfirst', hflag]
    exact ⟨first, hnew, hfirst, hsame ▸ hfirst'⟩

/-- Nobody who has been asked points at a flag that is not there. -/
theorem not_asked_of_le (ht : Tracks h r flag) {f : Nat} (hf : r.flags.length ≤ f) :
    ¬∃ y ∈ h.asked, flag y = f := by
  rintro ⟨y, hy, rfl⟩
  have hlt := ht.flag_lt y (ht.lawful.asked_made y hy)
  omega

/-- A token that is added points at a flag of its own, or at that of its source. -/
theorem add (ht : Tracks h r flag) {source : Option Nat} {flags : List Bool} {f : Nat}
    (hlength : r.flags.length ≤ flags.length) (hf : f < flags.length)
    (hraised : ∀ g, (⟨flags, r.tokens ++ [f]⟩ : Registry).isRaised g = r.isRaised g)
    (hfresh : source = none → r.flags.length ≤ f)
    (hcopy : ∀ x, source = some x → x < h.made.length ∧ flag x = f) :
    Tracks (h.add source) ⟨flags, r.tokens ++ [f]⟩ (Function.update flag h.made.length f) := by
  have hold : ∀ x < h.made.length, Function.update flag h.made.length f x = flag x :=
    fun x hx => Function.update_of_ne (Nat.ne_of_lt hx) _ _
  have hlast : Function.update flag h.made.length f h.made.length = f := Function.update_self _ _ _
  have hcases : ∀ x < (h.add source).made.length, x < h.made.length ∨ x = h.made.length := by
    intro x hx
    rw [History.add, List.length_append, List.length_singleton] at hx
    omega
  -- What is asked was made before, so its flag is the old one.
  have hasked : ∀ g, (∃ y ∈ h.asked, Function.update flag h.made.length f y = g) ↔
      ∃ y ∈ h.asked, flag y = g := by
    intro g
    apply exists_congr
    intro y
    apply and_congr_right
    intro hy
    rw [hold y (ht.lawful.asked_made y hy)]
  constructor
  case lawful => exact ht.lawful.add fun x hx => (hcopy x hx).1
  case tokens_eq =>
    show r.tokens ++ [f] = List.map _ (h.live ++ [h.made.length])
    rw [List.map_append, List.map_singleton, hlast, ht.tokens_eq]
    congr 1
    exact List.map_congr_left fun x hx => (hold x (ht.lawful.live_made x hx)).symm
  case flag_lt =>
    intro x hx
    rcases hcases x hx with hx | rfl
    · rw [hold x hx]
      exact Nat.lt_of_lt_of_le (ht.flag_lt x hx) hlength
    · rw [hlast]
      exact hf
  case flag_copied =>
    intro x y hcopied
    rcases copied_add_iff.mp hcopied with hcopied | ⟨rfl, hsource⟩
    · rw [hold y hcopied.lt,
        hold x (Nat.lt_trans (ht.lawful.copied_lt x y hcopied) hcopied.lt)]
      exact ht.flag_copied x y hcopied
    · obtain ⟨hx, hflag⟩ := hcopy x hsource
      rw [hlast, hold x hx, hflag]
  case flag_new =>
    intro x y hx hy hflag
    rcases isNew_add_iff.mp hx with hx | ⟨rfl, hsource⟩ <;>
      rcases isNew_add_iff.mp hy with hy | ⟨rfl, hsource'⟩
    · rw [hold x hx.lt, hold y hy.lt] at hflag
      exact ht.flag_new x y hx hy hflag
    · rw [hold x hx.lt, hlast] at hflag
      have hlt := ht.flag_lt x hx.lt
      have hge := hfresh hsource'
      omega
    · rw [hold y hy.lt, hlast] at hflag
      have hlt := ht.flag_lt y hy.lt
      have hge := hfresh hsource
      omega
    · rfl
  case raised_iff =>
    intro x hx
    show Registry.isRaised _ _ = true ↔ ∃ y ∈ h.asked, _
    rw [hraised, hasked]
    rcases hcases x hx with hx | rfl
    · rw [hold x hx]
      exact ht.raised_iff x hx
    · rw [hlast]
      cases source with
      | none =>
        rw [isRaised_of_le (hfresh rfl)]
        exact iff_of_false Bool.false_ne_true (ht.not_asked_of_le (hfresh rfl))
      | some x =>
        obtain ⟨hx, hflag⟩ := hcopy x rfl
        rw [← hflag]
        exact ht.raised_iff x hx

/-- A new token gets a flag that nobody has pointed at. -/
theorem addNew (ht : Tracks h r flag) :
    Tracks (h.add none) r.fresh (Function.update flag h.made.length r.flags.length) := by
  refine ht.add (by simp) (by simp) (isRaised_append_false r _) (fun _ => Nat.le_refl _) ?_
  intro x hx
  cases hx

/-- A copy gets the flag of its source. -/
theorem addCopy (ht : Tracks h r flag) (hx : x < h.made.length) :
    Tracks (h.add (some x)) { r with tokens := r.tokens ++ [flag x] }
      (Function.update flag h.made.length (flag x)) := by
  refine ht.add (Nat.le_refl _) (ht.flag_lt x hx) (fun _ => rfl) (fun hsource => ?_) ?_
  · cases hsource
  · intro y hy
    cases hy
    exact ⟨hx, rfl⟩

/-- Asking a token to cancel raises the flag that its family points at. -/
theorem ask (ht : Tracks h r flag) (hx : x < h.made.length) :
    Tracks { h with asked := h.asked ++ [x] } { r with flags := r.flags.set (flag x) true }
      flag where
  lawful := ht.lawful.ask hx
  tokens_eq := ht.tokens_eq
  flag_lt := by
    intro y hy
    rw [List.length_set]
    exact ht.flag_lt y hy
  flag_copied := ht.flag_copied
  flag_new := ht.flag_new
  raised_iff := by
    intro y hy
    have hlt := ht.flag_lt x hx
    have hraised := ht.raised_iff y hy
    rw [Registry.isRaised] at hraised ⊢
    simp only [List.mem_append, List.mem_singleton, or_and_right, exists_or, exists_eq_left]
    rw [List.getElem?_set]
    by_cases hflag : flag x = flag y
    · rw [if_pos hflag, if_pos (hflag ▸ hlt)]
      simp [hflag]
    · rw [if_neg hflag, hraised]
      simp [hflag]

/-- Forgetting a token leaves all flags as they are. -/
theorem drop (ht : Tracks h r flag) (i : Nat) :
    Tracks { h with live := h.live.eraseIdx i } (r.drop i) flag where
  lawful := ht.lawful.drop i
  tokens_eq := by
    show r.tokens.eraseIdx i = (h.live.eraseIdx i).map flag
    rw [ht.tokens_eq, List.eraseIdx_map]
  flag_lt := ht.flag_lt
  flag_copied := ht.flag_copied
  flag_new := ht.flag_new
  raised_iff := ht.raised_iff

/-- A step keeps the flags of the tokens made so far. -/
theorem apply (ht : Tracks h r flag) (step : Step) :
    ∃ flag', Tracks (h.apply step) (r.apply step) flag' ∧
      ∀ x < h.made.length, flag' x = flag x := by
  have hold : ∀ f, ∀ x < h.made.length, Function.update flag h.made.length f x = flag x :=
    fun f x hx => Function.update_of_ne (Nat.ne_of_lt hx) _ _
  have htokens : ∀ i : Nat, r.tokens[i]? = h.live[i]?.map flag := by
    intro i
    rw [ht.tokens_eq, List.getElem?_map]
  cases step with
  | fresh => exact ⟨_, ht.addNew, hold _⟩
  | copy i =>
    rw [History.apply, Registry.apply, Registry.copy, htokens]
    cases hlive : h.live[i]? with
    | none => exact ⟨flag, ht, fun _ _ => rfl⟩
    | some x =>
      have hx := ht.lawful.live_made x (List.mem_of_getElem? hlive)
      exact ⟨_, ht.addCopy hx, hold _⟩
  | cancel i =>
    rw [History.apply, Registry.apply, Registry.cancel, htokens]
    cases hlive : h.live[i]? with
    | none => exact ⟨flag, ht, fun _ _ => rfl⟩
    | some x =>
      have hx := ht.lawful.live_made x (List.mem_of_getElem? hlive)
      exact ⟨flag, ht.ask hx, fun _ _ => rfl⟩
  | drop i => exact ⟨flag, ht.drop i, fun _ _ => rfl⟩

theorem run (ht : Tracks h r flag) (steps : List Step) :
    ∃ flag', Tracks (steps.foldl History.apply h) (r.run steps) flag' := by
  induction steps generalizing h r flag with
  | nil => exact ⟨flag, ht⟩
  | cons step steps ih =>
    obtain ⟨flag', ht', -⟩ := ht.apply step
    exact ih ht'

end Tracks

theorem exists_tracks (steps : List Step) :
    ∃ flag, Tracks (History.run steps) (empty.run steps) flag :=
  Tracks.empty.run steps

/-- After some steps a token is live and says whether it has been cancelled. -/
def Shows (steps : List Step) (x : Nat) (raised : Bool) : Prop :=
  ∃ i : Nat, (History.run steps).live[i]? = some x ∧ (empty.run steps).cancelled[i]? = some raised

/-- Some token of the family of `x` has been asked to cancel. -/
def FamilyAsked (h : History) (x : Nat) : Prop :=
  ∃ y ∈ h.asked, h.SameFamily x y

theorem shows_iff {steps : List Step} {x : Nat} {raised : Bool} :
    Shows steps x raised ↔
      x ∈ (History.run steps).live ∧ (raised = true ↔ FamilyAsked (History.run steps) x) := by
  obtain ⟨flag, ht⟩ := exists_tracks steps
  have hcancelled : (empty.run steps).cancelled =
      (History.run steps).live.map fun x => (empty.run steps).isRaised (flag x) := by
    rw [cancelled, ht.tokens_eq, List.map_map]
    rfl
  have hraised : ∀ x ∈ (History.run steps).live,
      ((empty.run steps).isRaised (flag x) = true ↔ FamilyAsked (History.run steps) x) := by
    intro x hx
    have hmade := ht.lawful.live_made x hx
    rw [ht.raised_iff x hmade]
    apply exists_congr
    intro y
    apply and_congr_right
    intro hy
    rw [ht.sameFamily_iff hmade (ht.lawful.asked_made y hy), eq_comm]
  rw [Shows, hcancelled]
  constructor
  · rintro ⟨i, hlive, hshown⟩
    have hx := List.mem_of_getElem? hlive
    rw [List.getElem?_map, hlive, Option.map_some, Option.some.injEq] at hshown
    exact ⟨hx, hshown ▸ hraised x hx⟩
  · rintro ⟨hx, hfamily⟩
    obtain ⟨i, hlive⟩ := List.getElem?_of_mem hx
    refine ⟨i, hlive, ?_⟩
    rw [List.getElem?_map, hlive, Option.map_some, Option.some.injEq, Bool.eq_iff_iff]
    exact (hraised x hx).trans hfamily.symm

theorem mem_live_apply {h : History} {step : Step} {x : Nat} (hx : x ∈ h.live) :
    (∃ i, step = .drop i ∧ h.live[i]? = some x) ∨ x ∈ (h.apply step).live := by
  cases step with
  | fresh => exact Or.inr (List.mem_append_left _ hx)
  | copy i =>
    rw [History.apply]
    cases h.live[i]? with
    | none => exact Or.inr hx
    | some y => exact Or.inr (List.mem_append_left _ hx)
  | cancel i =>
    rw [History.apply]
    cases h.live[i]? with
    | none => exact Or.inr hx
    | some y => exact Or.inr hx
  | drop i =>
    obtain ⟨j, hj⟩ := List.getElem?_of_mem hx
    by_cases hij : j = i
    · exact Or.inl ⟨i, rfl, hij ▸ hj⟩
    · exact Or.inr (List.mem_eraseIdx_iff_getElem?.mpr ⟨j, hij, hj⟩)

/-- A step asks the token at its position, and nobody else. -/
theorem mem_asked_apply_iff {h : History} {step : Step} {y : Nat} :
    y ∈ (h.apply step).asked ↔ y ∈ h.asked ∨ ∃ i, step = .cancel i ∧ h.live[i]? = some y := by
  cases step with
  | fresh => simp [History.apply, History.add]
  | copy i =>
    rw [History.apply]
    cases h.live[i]? <;> simp [History.add]
  | cancel i =>
    rw [History.apply]
    cases hlive : h.live[i]? with
    | none => simp [hlive]
    | some x => simp [hlive, eq_comm]
  | drop i => simp [History.apply]

/-- A step joins no tokens that there were before. -/
theorem Tracks.sameFamily_apply_iff {h : History} {r : Registry} {flag : Nat → Nat}
    (ht : Tracks h r flag) (step : Step) {x y : Nat} (hx : x < h.made.length)
    (hy : y < h.made.length) : (h.apply step).SameFamily x y ↔ h.SameFamily x y := by
  obtain ⟨flag', ht', hold⟩ := ht.apply step
  have hlength := (extends_apply h step).made.length_le
  rw [ht'.sameFamily_iff (by omega) (by omega), ht.sameFamily_iff hx hy, hold x hx, hold y hy]

/-- After a step a family has been asked to cancel just if it had been before or the step asks a
token of it. -/
theorem familyAsked_concat_iff (steps : List Step) (step : Step) {x : Nat}
    (hx : x ∈ (History.run steps).live) :
    FamilyAsked (History.run (steps ++ [step])) x ↔
      FamilyAsked (History.run steps) x ∨ ∃ i y, step = .cancel i ∧
        (History.run steps).live[i]? = some y ∧ (History.run steps).SameFamily x y := by
  obtain ⟨flag, ht⟩ := exists_tracks steps
  have hmade := ht.lawful.live_made x hx
  have hfamily : ∀ y < (History.run steps).made.length,
      ((History.run (steps ++ [step])).SameFamily x y ↔ (History.run steps).SameFamily x y) := by
    intro y hy
    rw [History.run_concat]
    exact ht.sameFamily_apply_iff step hmade hy
  constructor
  · rintro ⟨y, hy, hsame⟩
    rw [History.run_concat, mem_asked_apply_iff] at hy
    rcases hy with hy | ⟨i, hstep, hlive⟩
    · exact Or.inl ⟨y, hy, (hfamily y (ht.lawful.asked_made y hy)).mp hsame⟩
    · exact Or.inr ⟨i, y, hstep, hlive,
        (hfamily y (ht.lawful.live_made y (List.mem_of_getElem? hlive))).mp hsame⟩
  · rintro (⟨y, hy, hsame⟩ | ⟨i, y, hstep, hlive, hsame⟩)
    · refine ⟨y, ?_, (hfamily y (ht.lawful.asked_made y hy)).mpr hsame⟩
      rw [History.run_concat]
      exact mem_asked_apply_iff.mpr (Or.inl hy)
    · refine ⟨y, ?_, (hfamily y (ht.lawful.live_made y (List.mem_of_getElem? hlive))).mpr hsame⟩
      rw [History.run_concat]
      exact mem_asked_apply_iff.mpr (Or.inr ⟨i, hstep, hlive⟩)

/-- A request stays known. -/
theorem FamilyAsked.mono {h h' : History} {x : Nat} (hasked : FamilyAsked h x)
    (hextends : h.Extends h') : FamilyAsked h' x := by
  obtain ⟨y, hy, hsame⟩ := hasked
  exact ⟨y, hextends.asked.subset hy, hsame.mono hextends⟩

theorem length_cancelled (steps : List Step) :
    (empty.run steps).cancelled.length = (History.run steps).live.length := by
  obtain ⟨flag, ht⟩ := exists_tracks steps
  rw [cancelled, ht.tokens_eq, List.length_map, List.length_map]

/-- After any steps, every live token says that it has been cancelled, and refuses to go on, just if
some token of its family has been asked to cancel; each live token is at one position. Any further
step leaves a token live unless it drops this token, and changes what it says only by asking a token
of its family to cancel. A token that has been cancelled once stays so as long as it lives. -/
theorem cancelled_iff_familyAsked (steps : List Step) :
    (∀ (i x : Nat), (History.run steps).live[i]? = some x →
      ∃ raised, (empty.run steps).cancelled[i]? = some raised ∧
        (empty.run steps).checks[i]? = some (if raised then .error .cancelled else .ok ()) ∧
        (raised = true ↔
          ∃ y ∈ (History.run steps).asked, (History.run steps).SameFamily x y)) ∧
    (History.run steps).live.Nodup ∧
    (empty.run steps).cancelled.length = (History.run steps).live.length ∧
    (∀ step x raised, Shows steps x raised →
      ((∃ i, step = .drop i ∧ (History.run steps).live[i]? = some x) ∨
        ∃ raised', Shows (steps ++ [step]) x raised') ∧
      ∀ raised', Shows (steps ++ [step]) x raised' →
        (raised' = true ↔ raised = true ∨ ∃ i y, step = .cancel i ∧
          (History.run steps).live[i]? = some y ∧ (History.run steps).SameFamily x y)) ∧
    ∀ later x raised, Shows steps x true → Shows (steps ++ later) x raised → raised = true := by
  obtain ⟨flag, ht⟩ := exists_tracks steps
  refine ⟨?_, ht.lawful.live_nodup, length_cancelled steps, ?_, ?_⟩
  · intro i x hlive
    have hlength := length_cancelled steps
    have hi := (List.getElem?_eq_some_iff.mp hlive).1
    obtain ⟨raised, hraised⟩ : ∃ raised, (empty.run steps).cancelled[i]? = some raised :=
      ⟨_, List.getElem?_eq_getElem (by omega)⟩
    refine ⟨raised, hraised, ?_, (shows_iff.mp ⟨i, hlive, hraised⟩).2⟩
    rw [checks, List.getElem?_map, hraised]
    rfl
  · intro step x raised hshows
    obtain ⟨hx, hfamily⟩ := shows_iff.mp hshows
    constructor
    · apply (mem_live_apply hx).imp_right
      intro hx'
      rw [← History.run_concat] at hx'
      obtain ⟨i, hlive⟩ := List.getElem?_of_mem hx'
      have hlength := length_cancelled (steps ++ [step])
      have hi := (List.getElem?_eq_some_iff.mp hlive).1
      exact ⟨_, i, hlive, List.getElem?_eq_getElem (by omega)⟩
    · intro raised' hshows'
      rw [(shows_iff.mp hshows').2, familyAsked_concat_iff steps step hx, hfamily]
  · intro later x raised hshows hshows'
    rw [(shows_iff.mp hshows').2]
    exact ((shows_iff.mp hshows).2.mp rfl).mono (History.extends_run_append steps later)

/-- A copy is cancelled and dropped, and then its source is copied once more; another token is there
all the time. -/
def droppedCopy : List Step := [.fresh, .copy 0, .fresh, .cancel 1, .drop 1, .copy 0]

/-- The source and its second copy are cancelled, the other token is not, and dropping the source
changes nothing. -/
theorem cancelled_droppedCopy :
    (∃ y ∈ (History.run droppedCopy).asked, (History.run droppedCopy).SameFamily 3 y) ∧
    (¬∃ y ∈ (History.run droppedCopy).asked, (History.run droppedCopy).SameFamily 2 y) ∧
    Shows droppedCopy 3 true ∧ Shows (droppedCopy ++ [.drop 0]) 3 true ∧
    Shows (droppedCopy ++ [.drop 0]) 2 false ∧
    ∀ raised, Shows (droppedCopy ++ [.drop 0]) 3 raised → raised = true := by
  obtain ⟨hstate, -, -, hstep, hlater⟩ := cancelled_iff_familyAsked droppedCopy
  have hcopy : Shows droppedCopy 3 true := ⟨2, rfl, rfl⟩
  have hother : Shows droppedCopy 2 false := ⟨1, rfl, rfl⟩
  obtain ⟨raised, hraised, -, hfamily⟩ := hstate 2 3 rfl
  obtain ⟨raised', hraised', -, hfamily'⟩ := hstate 1 2 rfl
  cases hraised
  cases hraised'
  refine ⟨hfamily.mp rfl, fun h => Bool.false_ne_true (hfamily'.mpr h), hcopy, ⟨1, rfl, rfl⟩, ?_,
    fun raised => hlater [.drop 0] 3 raised hcopy⟩
  rcases (hstep (.drop 0) 2 false hother).1 with ⟨i, hdrop, hlive⟩ | ⟨raised, hshows⟩
  · cases hdrop
    cases hlive
  · have hnot : ¬raised = true := by
      rw [(hstep (.drop 0) 2 false hother).2 raised hshows]
      rintro (h | ⟨i, y, h, -⟩) <;> cases h
    rwa [Bool.eq_false_iff.mpr hnot] at hshows

end Provenance.Registry
