import Provenance.Cancellation.Signal

/-!
How polled work depends on its signal. Work settles after a number of polls if a signal that lasts so
long lets it come to one fixed result, and every other signal ends it as cancelled. Settling is kept
by sequencing, so all work that is built from polls, results and faults settles: a signal decides
whether there is a result, and never which one.
-/
namespace Provenance

namespace Signal

/-- The next `n` polls all pass. -/
def Lasts (s : Signal) (n : Nat) : Prop :=
  ∀ k, s.remaining = some k → n ≤ k

def after (s : Signal) (n : Nat) : Signal :=
  ⟨s.remaining.map (· - n)⟩

theorem lasts_zero (s : Signal) : s.Lasts 0 := by
  intro k hk
  exact Nat.zero_le k

theorem lasts_never (n : Nat) : never.Lasts n := by
  intro k hk
  cases hk

theorem not_lasts_fired {n : Nat} (hn : 0 < n) : ¬fired.Lasts n := by
  intro h
  have hle := h 0 rfl
  omega

@[simp] theorem after_zero (s : Signal) : s.after 0 = s := by
  obtain ⟨remaining⟩ := s
  cases remaining <;> rfl

@[simp] theorem after_never (n : Nat) : never.after n = never := rfl

theorem after_after (s : Signal) (m n : Nat) : (s.after m).after n = s.after (m + n) := by
  obtain ⟨remaining⟩ := s
  cases remaining with
  | none => rfl
  | some k =>
    have hsub : k - m - n = k - (m + n) := by omega
    simp [after, hsub]

theorem lasts_add_iff (s : Signal) (m n : Nat) :
    s.Lasts (m + n) ↔ s.Lasts m ∧ (s.after m).Lasts n := by
  obtain ⟨remaining⟩ := s
  cases remaining with
  | none => simp [Lasts, after]
  | some k =>
    simp only [Lasts, after, Option.map_some, Option.some.injEq, forall_eq']
    omega

end Signal

open Signal

/-- Signals that last for so many polls lead to the result, all others to cancellation. -/
def Settles {α : Type} (work : Polled α) (polls : Nat) (result : Except Fault α) : Prop :=
  ∀ s : Signal, (s.Lasts polls → work.run s = (result, s.after polls)) ∧
    (¬s.Lasts polls → work.run s = (.error .cancelled, fired))

section

variable {α β : Type}

theorem settles_pure (a : α) : Settles (pure a) 0 (.ok a) := by
  intro s
  refine ⟨fun _ => ?_, fun h => absurd (lasts_zero s) h⟩
  rw [after_zero]
  rfl

theorem settles_throw (fault : Fault) : Settles (throw fault : Polled α) 0 (.error fault) := by
  intro s
  refine ⟨fun _ => ?_, fun h => absurd (lasts_zero s) h⟩
  rw [after_zero]
  rfl

theorem settles_poll : Settles poll 1 (.ok ()) := by
  intro s
  rw [run_poll]
  obtain ⟨remaining⟩ := s
  cases remaining with
  | none => exact ⟨fun _ => rfl, fun h => absurd (lasts_never 1) h⟩
  | some k =>
    cases k with
    | zero => exact ⟨fun h => absurd h (not_lasts_fired Nat.one_pos), fun _ => rfl⟩
    | succ k =>
      refine ⟨fun _ => rfl, fun h => absurd ?_ h⟩
      intro n hn
      cases hn
      omega

/-- Work on a state of any type that may end in a fault; polled work is an instance. -/
theorem run_bind {σ : Type} (work : ExceptT Fault (StateM σ) α)
    (next : α → ExceptT Fault (StateM σ) β) (s : σ) :
    (work >>= next).run s = match work.run s with
      | (.ok a, rest) => (next a).run rest
      | (.error fault, rest) => (.error fault, rest) := by
  change (match work.run s with | (r, rest) => (ExceptT.bindCont next r) rest) = _
  cases work.run s with
  | mk result rest => cases result <;> rfl

/-- What comes after work with a result asks its own polls after the polls of the work. -/
theorem settles_bind {work : Polled α} {next : α → Polled β} {m n : Nat} {a : α}
    {result : Except Fault β} (hwork : Settles work m (.ok a)) (hnext : Settles (next a) n result) :
    Settles (work >>= next) (m + n) result := by
  intro s
  by_cases hm : s.Lasts m
  · have hrun : (work >>= next).run s = (next a).run (s.after m) := by
      rw [run_bind, (hwork s).1 hm]
    rw [hrun, lasts_add_iff, ← after_after]
    refine ⟨fun h => (hnext _).1 h.2, fun h => (hnext _).2 fun hn => h ⟨hm, hn⟩⟩
  · have hrun : (work >>= next).run s = (.error .cancelled, fired) := by
      rw [run_bind, (hwork s).2 hm]
    rw [hrun, lasts_add_iff]
    exact ⟨fun h => absurd h.1 hm, fun _ => rfl⟩

theorem Settles.run_never {work : Polled α} {n : Nat} {result : Except Fault α}
    (h : Settles work n result) : work.run never = (result, never) := by
  rw [(h never).1 (lasts_never n), after_never]

/-- A signal that has fired ends all work that polls. -/
theorem Settles.run_fired {work : Polled α} {n : Nat} {result : Except Fault α}
    (h : Settles work n result) (hn : 0 < n) : work.run fired = (.error .cancelled, fired) :=
  (h fired).2 (not_lasts_fired hn)

end

end Provenance
