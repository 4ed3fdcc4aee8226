import Provenance.Text.Utf8.RoundTrip

/-!
ASCII bytes in ill-formed UTF-8. A byte below 128 never continues a character, so it ends whatever is
open and stands for itself. The bytes in front of it and behind it are decoded as if they stood alone,
which is what lets a path be cut at its separators, or a file at its line feeds, before decoding or
after.
-/
namespace Provenance.Utf8

/-- An open character that waits for a byte that is not ASCII. -/
def Pending.Waits (p : Pending) : Prop :=
  128 ≤ p.low.toNat

theorem waits_start {b : UInt8} {p : Pending} (h : (start b).2 = some p) : p.Waits := by
  unfold start at h
  repeat' split at h
  -- A byte that writes something at once leaves nothing open.
  all_goals
    first
    | exact absurd h.symm (Option.some_ne_none p)
    | (rw [← Option.some.inj h]
       exact Nat.le_of_ble_eq_true rfl)

theorem waits_step {state : Option Pending} {b : UInt8} {p : Pending}
    (h : (step state b).2 = some p) : p.Waits := by
  cases state with
  | none => exact waits_start h
  | some q =>
    rw [step] at h
    split at h
    · rw [Pending.push] at h
      cases hmore : q.more with
      | zero =>
        rw [hmore] at h
        cases h
      | succ more =>
        rw [hmore] at h
        rw [← Option.some.inj h]
        exact Nat.le_refl 128
    · exact waits_start h

variable {b : UInt8}

theorem start_ascii (hb : b < 0x80) : start b = ([Char.ofNat b.toNat], none) := by
  rw [start, if_pos hb]

/-- What is written for an open character once no byte continues it. -/
def unfinished (state : Option Pending) : Text :=
  decodeFrom state []

theorem step_ascii {state : Option Pending} (hstate : ∀ p, state = some p → p.Waits)
    (hb : b < 0x80) : step state b = (unfinished state ++ [Char.ofNat b.toNat], none) := by
  cases state with
  | none => exact start_ascii hb
  | some p =>
    have hlow : 128 ≤ p.low.toNat := hstate p rfl
    have hrefused : p.accepts b = false := by
      apply Bool.eq_false_iff.mpr
      intro haccepts
      have hle := (accepts_iff.mp haccepts).1
      have hlt : b.toNat < 128 := UInt8.lt_iff_toNat_lt.mp hb
      omega
    rw [step, hrefused, start_ascii hb]
    rfl

theorem decodeFrom_append_ascii {state : Option Pending} (hstate : ∀ p, state = some p → p.Waits)
    (before after : Bytes) (hb : b < 0x80) :
    decodeFrom state (before ++ b :: after) =
      decodeFrom state before ++ Char.ofNat b.toNat :: decodeFrom none after := by
  induction before generalizing state with
  | nil =>
    rw [List.nil_append, decodeFrom_cons, step_ascii hstate hb, List.append_assoc]
    rfl
  | cons first before ih =>
    rw [List.cons_append, decodeFrom_cons, decodeFrom_cons, ih fun p hp => waits_step hp,
      List.append_assoc]

/-- An ASCII byte stands for itself, and what is in front of it and behind it is decoded apart. -/
theorem decode_append_ascii (before after : Bytes) (hb : b < 0x80) :
    decode (before ++ b :: after) = decode before ++ Char.ofNat b.toNat :: decode after :=
  by
  apply decodeFrom_append_ascii _ before after hb
  intro p hp
  cases hp

end Provenance.Utf8
