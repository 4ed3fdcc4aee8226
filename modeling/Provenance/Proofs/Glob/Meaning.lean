import Provenance.Glob.Engine

/-!
What patterns mean. An expression writes byte strings, which is said here without a reader: a byte of
a class, anything, nothing, one part after another, or one of two. Reading a byte leaves the
expressions that write what may follow it, so an expression matches the byte strings that it writes.
-/
namespace Provenance.Glob

namespace Expression

/-- The byte strings that an expression writes. -/
inductive Writes : Expression → Bytes → Prop
  | byte {negated : Bool} {ranges : List (UInt8 × UInt8)} {b : UInt8}
      (h : inClass negated ranges b = true) : Writes (byte negated ranges) [b]
  | run (bs : Bytes) : Writes run bs
  | nothing : Writes nothing []
  | both {first second : Expression} {bs cs : Bytes} (hfirst : Writes first bs)
      (hsecond : Writes second cs) : Writes (both first second) (bs ++ cs)
  | left {left right : Expression} {bs : Bytes} (h : Writes left bs) : Writes (either left right) bs
  | right {left right : Expression} {bs : Bytes} (h : Writes right bs) :
      Writes (either left right) bs

variable {e first second left right : Expression} {b : UInt8} {bs cs : Bytes}

theorem writes_byte_iff {negated : Bool} {ranges : List (UInt8 × UInt8)} :
    Writes (.byte negated ranges) bs ↔ ∃ b, inClass negated ranges b = true ∧ bs = [b] := by
  constructor
  · rintro ⟨h⟩
    exact ⟨_, h, rfl⟩
  · rintro ⟨b, h, rfl⟩
    exact .byte h

theorem writes_nothing_iff : Writes .nothing bs ↔ bs = [] := by
  constructor
  · rintro ⟨⟩
    rfl
  · rintro rfl
    exact .nothing

theorem writes_both_iff :
    Writes (.both first second) bs ↔ ∃ cs ds, Writes first cs ∧ Writes second ds ∧ bs = cs ++ ds := by
  constructor
  · rintro ⟨⟩
    next hfirst hsecond => exact ⟨_, _, hfirst, hsecond, rfl⟩
  · rintro ⟨cs, ds, hfirst, hsecond, rfl⟩
    exact .both hfirst hsecond

theorem writes_either_iff : Writes (.either left right) bs ↔ Writes left bs ∨ Writes right bs := by
  constructor
  · intro h
    cases h with
    | left h => exact Or.inl h
    | right h => exact Or.inr h
  · rintro (h | h)
    · exact .left h
    · exact .right h

theorem matchesNothing_iff : e.matchesNothing = true ↔ Writes e [] := by
  induction e with
  | byte negated ranges => simp [matchesNothing, writes_byte_iff]
  | run => exact iff_of_true rfl (.run [])
  | nothing => exact iff_of_true rfl .nothing
  | both first second ihfirst ihsecond =>
    rw [matchesNothing, Bool.and_eq_true, ihfirst, ihsecond, writes_both_iff]
    simp
  | either left right ihleft ihright =>
    rw [matchesNothing, Bool.or_eq_true, ihleft, ihright, writes_either_iff]

theorem writes_andThen_iff : Writes (first.andThen second) bs ↔ Writes (.both first second) bs := by
  cases first with
  | nothing => simp [andThen, writes_both_iff, writes_nothing_iff]
  | byte => rfl
  | run => rfl
  | both => rfl
  | either => rfl

/-- The first byte belongs to the first part, unless that part is passed over. -/
theorem writes_both_cons_iff :
    Writes (.both first second) (b :: bs) ↔
      (∃ cs ds, Writes first (b :: cs) ∧ Writes second ds ∧ bs = cs ++ ds) ∨
        Writes first [] ∧ Writes second (b :: bs) := by
  rw [writes_both_iff]
  constructor
  · rintro ⟨cs, ds, hfirst, hsecond, heq⟩
    cases cs with
    | nil =>
      rw [List.nil_append] at heq
      exact Or.inr ⟨hfirst, heq ▸ hsecond⟩
    | cons c cs =>
      obtain ⟨rfl, rfl⟩ := List.cons.inj heq
      exact Or.inl ⟨cs, ds, hfirst, hsecond, rfl⟩
  · rintro (⟨cs, ds, hfirst, hsecond, rfl⟩ | ⟨hfirst, hsecond⟩)
    · exact ⟨b :: cs, ds, hfirst, hsecond, rfl⟩
    · exact ⟨[], b :: bs, hfirst, hsecond, rfl⟩

/-- What is left after a byte writes what may follow it. -/
theorem exists_mem_afterByte_iff :
    (∃ e' ∈ e.afterByte b, Writes e' bs) ↔ Writes e (b :: bs) := by
  induction e generalizing bs with
  | byte negated ranges =>
    have hbyte : Writes (.byte negated ranges) (b :: bs) ↔
        inClass negated ranges b = true ∧ bs = [] := by
      rw [writes_byte_iff]
      simp only [List.cons.injEq, ← and_assoc, exists_and_right, exists_eq_right']
    rw [afterByte, hbyte]
    split
    · next h => simp [writes_nothing_iff, h]
    · next h => simp [h]
  | run =>
    have hrun : ∀ cs, Writes .run cs := .run
    simp [afterByte, hrun]
  | nothing => simp [afterByte, writes_nothing_iff]
  | both first second ihfirst ihsecond =>
    have hahead : (∃ e' ∈ (first.afterByte b).map (·.andThen second), Writes e' bs) ↔
        ∃ cs ds, Writes first (b :: cs) ∧ Writes second ds ∧ bs = cs ++ ds := by
      constructor
      · rintro ⟨e', hmem, hwrites⟩
        obtain ⟨rest, hrest, rfl⟩ := List.mem_map.mp hmem
        obtain ⟨cs, ds, hfirst, hsecond, heq⟩ := writes_both_iff.mp (writes_andThen_iff.mp hwrites)
        exact ⟨cs, ds, ihfirst.mp ⟨rest, hrest, hfirst⟩, hsecond, heq⟩
      · rintro ⟨cs, ds, hfirst, hsecond, rfl⟩
        obtain ⟨rest, hrest, hwrites⟩ := ihfirst.mpr hfirst
        exact ⟨_, List.mem_map_of_mem hrest, writes_andThen_iff.mpr (.both hwrites hsecond)⟩
    have hbehind : (∃ e' ∈ if first.matchesNothing then second.afterByte b else [], Writes e' bs) ↔
        Writes first [] ∧ Writes second (b :: bs) := by
      rw [← matchesNothing_iff, ← ihsecond]
      cases first.matchesNothing <;> simp
    rw [writes_both_cons_iff, ← hahead, ← hbehind, afterByte]
    simp only [List.mem_append, or_and_right, exists_or]
  | either left right ihleft ihright =>
    rw [writes_either_iff, ← ihleft, ← ihright, afterByte]
    simp only [List.mem_append, or_and_right, exists_or]

theorem exists_mem_afterBytes_iff (es : List Expression) (bs cs : Bytes) :
    (∃ e ∈ afterBytes es bs, Writes e cs) ↔ ∃ e ∈ es, Writes e (bs ++ cs) := by
  induction bs generalizing es with
  | nil => rfl
  | cons b bs ih =>
    rw [afterBytes, List.foldl_cons, ← afterBytes, ih]
    simp only [List.mem_eraseDups, List.mem_flatMap, List.cons_append, ← exists_mem_afterByte_iff]
    constructor
    · rintro ⟨e', ⟨e, he, he'⟩, h⟩
      exact ⟨e, he, e', he', h⟩
    · rintro ⟨e, he, e', he', h⟩
      exact ⟨e', ⟨e, he, he'⟩, h⟩

/-- An expression matches what it writes. -/
theorem isMatch_iff : e.isMatch bs = true ↔ Writes e bs := by
  have hafter := exists_mem_afterBytes_iff [e] bs []
  simp only [List.mem_singleton, exists_eq_left, List.append_nil] at hafter
  rw [← hafter, isMatch, List.any_eq_true]
  simp only [matchesNothing_iff]

end Expression

/-- The byte strings that the expression of a pattern writes. -/
def Writes (tokens : List Token) (bytes : Bytes) : Prop :=
  (expression tokens).Writes bytes

/-- The patterns of the engine match what their expressions write. -/
theorem means_engine : engine.Means Writes where
  isMatch_iff := by
    intro patterns exclusion hbuild bytes
    rw [eq_exclusion_of_build hbuild]
    change (patterns.any fun tokens => (expression tokens).isMatch bytes) = true ↔ _
    simp only [List.any_eq_true, Expression.isMatch_iff, Writes]
  isEmpty_iff := by
    intro patterns exclusion hbuild
    rw [eq_exclusion_of_build hbuild]
    exact List.isEmpty_iff
  empty := by
    refine ⟨[], exclusion [[]], read_of_tokens ?_, rfl, fun bytes => Expression.writes_nothing_iff⟩
    rw [parse, readFrom]
    rfl

end Provenance.Glob
