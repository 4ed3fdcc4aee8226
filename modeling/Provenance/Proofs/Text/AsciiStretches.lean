import Provenance.Proofs.Text.AsciiBytes
import Mathlib.Tactic.Ring

/-!
ASCII in a text that has been decoded. A character below 128 is written for the byte with its number
and for nothing else: the bytes from 128 on come to characters beyond ASCII, however they are put
together. So wherever ASCII characters stand in the text their bytes stand in the byte string, with
nothing in between, and the text in front of them and behind them is that of the bytes there.
-/
namespace Provenance

/-- A text of ASCII characters only. -/
def Text.IsAscii (t : Text) : Prop :=
  ∀ c ∈ t, c.toNat < 128

instance (t : Text) : Decidable t.IsAscii :=
  decidable_of_iff (t.all fun c => c.toNat < 128) (by simp [Text.IsAscii])

theorem Text.IsAscii.cons_iff {c : Char} {t : Text} :
    Text.IsAscii (c :: t) ↔ c.toNat < 128 ∧ Text.IsAscii t :=
  List.forall_mem_cons

namespace Utf8

/-- The byte of an ASCII character. -/
def asciiByte (c : Char) : UInt8 :=
  UInt8.ofNat c.toNat

variable {c : Char} {b : UInt8}

theorem toNat_asciiByte (hc : c.toNat < 128) : (asciiByte c).toNat = c.toNat := by
  rw [asciiByte, UInt8.toNat_ofNat', Nat.mod_eq_of_lt (by omega)]

theorem asciiByte_lt (hc : c.toNat < 128) : asciiByte c < 0x80 := by
  rw [UInt8.lt_iff_toNat_lt, toNat_asciiByte hc]
  exact hc

theorem ofNat_asciiByte (hc : c.toNat < 128) : Char.ofNat (asciiByte c).toNat = c := by
  rw [toNat_asciiByte hc, Char.ofNat_toNat]

theorem toNat_ofNat_of_isValidChar {n : Nat} (h : n.isValidChar) : (Char.ofNat n).toNat = n := by
  rw [Char.ofNat, dif_pos h]
  rfl

theorem toNat_ofNat_byte (hb : b < 0x80) : (Char.ofNat b.toNat).toNat = b.toNat := by
  have hlt : b.toNat < 128 := UInt8.lt_iff_toNat_lt.mp hb
  exact toNat_ofNat_of_isValidChar (Or.inl (by omega))

theorem asciiByte_ofNat (hb : b < 0x80) : asciiByte (Char.ofNat b.toNat) = b := by
  rw [asciiByte, toNat_ofNat_byte hb, UInt8.ofNat_toNat]

theorem encode_cons_ascii (t : Text) (hc : c.toNat < 128) :
    encode (c :: t) = asciiByte c :: encode t := by
  have hvalue : c.val.toNat ≤ 0x7F := Nat.le_of_lt_succ hc
  rw [encode, List.flatMap_cons, String.utf8EncodeChar, if_pos hvalue]
  rfl

theorem replacement_beyond : 128 ≤ replacement.toNat := by decide

/-- The bytes that begin nothing and are not ASCII. -/
theorem start_refused (hlow : 0x80 ≤ b.toNat) (h : b.toNat < 0xC2 ∨ 0xF4 < b.toNat) :
    start b = ([replacement], none) := by
  unfold start
  simp only [UInt8.lt_iff_toNat_lt, ← UInt8.toNat_inj, UInt8.reduceToNat]
  rw [if_neg (by omega)]
  rcases h with h | h
  · rw [if_pos h]
  · rw [if_neg (by omega), if_neg (by omega), if_neg (by omega), if_neg (by omega),
      if_neg (by omega), if_neg (by omega), if_neg (by omega), if_neg (by omega)]

/-- The least code point that the open character can become. -/
def Pending.least (p : Pending) : Nat :=
  (p.value * 64 + (p.low.toNat - 128)) * 64 ^ p.more

/-- The code point after the greatest one that the open character can become. -/
def Pending.past (p : Pending) : Nat :=
  (p.value * 64 + (p.high.toNat - 128) + 1) * 64 ^ p.more

/-- All that the open character can become are characters beyond ASCII. -/
structure Pending.Beyond (p : Pending) : Prop where
  least : 128 ≤ p.least
  /-- The surrogates are no characters. -/
  valid : p.past ≤ 0xD800 ∨ 0xE000 ≤ p.least ∧ p.past ≤ 0x110000

/-- A byte beyond ASCII writes a replacement, or it begins a character beyond ASCII. -/
theorem start_beyond (hb : 0x80 ≤ b.toNat) :
    start b = ([replacement], none) ∨ ∃ p, start b = ([], some p) ∧ p.Beyond := by
  rcases Nat.lt_or_ge b.toNat 0xC2 with h1 | h1
  · exact Or.inl (start_refused hb (Or.inl h1))
  rcases Nat.lt_or_ge b.toNat 0xE0 with h2 | h2
  · refine Or.inr ⟨_, start_two h1 h2, ?_⟩
    constructor <;> simp [Pending.least, Pending.past] <;> omega
  rcases Nat.lt_or_ge b.toNat 0xF0 with h3 | h3
  · refine Or.inr ⟨_, start_three h2 h3, ?_⟩
    by_cases hfirst : b.toNat = 0xE0
    · constructor <;> simp [Pending.least, Pending.past, hfirst]
    · by_cases hlast : b.toNat = 0xED
      · constructor <;> simp [Pending.least, Pending.past, hlast]
      · constructor <;> simp [Pending.least, Pending.past, hfirst, hlast] <;> omega
  rcases Nat.lt_or_ge 0xF4 b.toNat with h4 | h4
  · exact Or.inl (start_refused hb (Or.inr h4))
  · refine Or.inr ⟨_, start_four h3 h4, ?_⟩
    by_cases hfirst : b.toNat = 0xF0
    · constructor <;> simp [Pending.least, Pending.past, hfirst]
    · by_cases hlast : b.toNat = 0xF4
      · constructor <;> simp [Pending.least, Pending.past, hlast]
      · constructor <;> simp [Pending.least, Pending.past, hfirst, hlast] <;> omega

theorem writes_beyond_start (hb : 0x80 ≤ b.toNat) :
    (∀ c ∈ (start b).1, 128 ≤ c.toNat) ∧ ∀ p, (start b).2 = some p → p.Beyond := by
  rcases start_beyond hb with hwritten | ⟨p, hopen, hbeyond⟩
  · rw [hwritten]
    exact ⟨fun c hc => List.mem_singleton.mp hc ▸ replacement_beyond, nofun⟩
  · rw [hopen]
    exact ⟨nofun, fun q hq => Option.some.inj hq ▸ hbeyond⟩

/-- A byte that continues the character narrows down what it can become. -/
theorem Pending.bounds_push {p q : Pending} (hwaits : p.Waits) (haccepts : p.accepts b = true)
    (h : (p.push b).2 = some q) : p.least ≤ q.least ∧ q.past ≤ p.past := by
  obtain ⟨hlow, hhigh⟩ := accepts_iff.mp haccepts
  have hwaits' : 128 ≤ p.low.toNat := hwaits
  rw [Pending.push] at h
  cases hmore : p.more with
  | zero =>
    rw [hmore] at h
    cases h
  | succ more =>
    rw [hmore] at h
    rw [← Option.some.inj h]
    simp only [Pending.least, Pending.past, hmore, UInt8.reduceToNat]
    constructor
    · calc (p.value * 64 + (p.low.toNat - 128)) * 64 ^ (more + 1)
          ≤ (p.value * 64 + (b.toNat - 128)) * 64 ^ (more + 1) :=
            Nat.mul_le_mul_right _ (by omega)
        _ = ((p.value * 64 + (b.toNat - 128)) * 64 + (128 - 128)) * 64 ^ more := by ring
    · calc ((p.value * 64 + (b.toNat - 128)) * 64 + (191 - 128) + 1) * 64 ^ more
          = (p.value * 64 + (b.toNat - 128) + 1) * 64 ^ (more + 1) := by ring
        _ ≤ (p.value * 64 + (p.high.toNat - 128) + 1) * 64 ^ (more + 1) :=
            Nat.mul_le_mul_right _ (by omega)

/-- The last byte of the character makes one of those that it could become. -/
theorem Pending.Beyond.written_push {p : Pending} (hp : p.Beyond) (hwaits : p.Waits)
    (haccepts : p.accepts b = true) : ∀ c ∈ (p.push b).1, 128 ≤ c.toNat := by
  obtain ⟨hlow, hhigh⟩ := accepts_iff.mp haccepts
  have hwaits' : 128 ≤ p.low.toNat := hwaits
  obtain ⟨hleast, hvalid⟩ := hp
  intro c hc
  rw [Pending.push] at hc
  cases hmore : p.more with
  | zero =>
    rw [hmore, List.mem_singleton] at hc
    simp only [Pending.least, Pending.past, hmore, pow_zero, Nat.mul_one] at hleast hvalid
    have hchar : (p.value * 64 + (b.toNat - 128)).isValidChar := by
      rw [Nat.isValidChar]
      omega
    rw [hc]
    show 128 ≤ (Char.ofNat (p.value * 64 + (b.toNat - 128))).toNat
    rw [toNat_ofNat_of_isValidChar hchar]
    omega
  | succ more =>
    rw [hmore] at hc
    cases hc

/-- What is known between two bytes: a character that is open waits for bytes that are not ASCII,
and will not become ASCII. -/
def Sound (state : Option Pending) : Prop :=
  ∀ p, state = some p → p.Waits ∧ p.Beyond

theorem sound_none : Sound none := nofun

section

variable {state : Option Pending} (h : Sound state)

include h

theorem Sound.waits : ∀ p, state = some p → p.Waits :=
  fun p hp => (h p hp).1

/-- A byte beyond ASCII writes nothing that is ASCII, and what is known stays known. -/
theorem Sound.step_beyond (hb : 0x80 ≤ b.toNat) :
    (∀ c ∈ (step state b).1, 128 ≤ c.toNat) ∧ Sound (step state b).2 := by
  have hstart := writes_beyond_start hb
  suffices hsuffices : (∀ c ∈ (step state b).1, 128 ≤ c.toNat) ∧
      ∀ p, (step state b).2 = some p → p.Beyond from
    ⟨hsuffices.1, fun p hp => ⟨waits_step hp, hsuffices.2 p hp⟩⟩
  cases state with
  | none => exact hstart
  | some p =>
    obtain ⟨hwaits, hbeyond⟩ := h p rfl
    rw [step]
    split
    · next haccepts =>
      refine ⟨hbeyond.written_push hwaits haccepts, fun q hq => ?_⟩
      obtain ⟨hleast, hpast⟩ := Pending.bounds_push hwaits haccepts hq
      obtain ⟨hleast', hvalid⟩ := hbeyond
      constructor <;> omega
    · exact ⟨List.forall_mem_cons.mpr ⟨replacement_beyond, hstart.1⟩, hstart.2⟩

end

/-- What is written while a character is open is not ASCII. -/
theorem unfinished_beyond (state : Option Pending) : ∀ c ∈ unfinished state, 128 ≤ c.toNat := by
  cases state with
  | none => exact nofun
  | some p => exact fun c hc => List.mem_singleton.mp hc ▸ replacement_beyond

/-- Bytes are never decoded to nothing. -/
theorem decodeFrom_some_ne_nil (p : Pending) (bs : Bytes) : decodeFrom (some p) bs ≠ [] := by
  induction bs generalizing p with
  | nil => simp [decodeFrom]
  | cons b bs ih =>
    rw [decodeFrom_cons, step]
    split
    · rw [Pending.push]
      cases p.more with
      | zero => simp
      | succ more => exact ih _
    · simp

theorem decode_eq_nil_iff {bs : Bytes} : decode bs = [] ↔ bs = [] := by
  refine ⟨fun h => ?_, fun h => h ▸ rfl⟩
  cases bs with
  | nil => rfl
  | cons b bs =>
    exfalso
    rw [decode, decodeFrom_cons, step] at h
    rcases Nat.lt_or_ge b.toNat 0x80 with hb | hb
    · rw [start_ascii (UInt8.lt_iff_toNat_lt.mpr hb)] at h
      cases h
    · rcases start_beyond hb with hwritten | ⟨p, hopen, -⟩
      · rw [hwritten] at h
        cases h
      · rw [hopen] at h
        exact decodeFrom_some_ne_nil p bs h

/-- An element stands behind all of a list that does not hold it. -/
theorem exists_append_of_notMem {α : Type} {x y before after : List α} {a : α} (hx : a ∉ x)
    (h : x ++ y = before ++ a :: after) :
    ∃ more, before = x ++ more ∧ y = more ++ a :: after := by
  rcases List.append_eq_append_iff.mp h with ⟨more, hbefore, hy⟩ | ⟨more, hxsplit, hafter⟩
  · exact ⟨more, hbefore, hy⟩
  · cases more with
    | nil => exact ⟨[], by simpa using hxsplit.symm, hafter.symm⟩
    | cons first more =>
      rw [List.cons_append, List.cons.injEq] at hafter
      rw [hxsplit, hafter.1] at hx
      exact absurd (List.mem_append_right _ List.mem_cons_self) hx

theorem exists_split_of_decodeFrom {state : Option Pending} (h : Sound state) {bs : Bytes}
    {before after : Text} (hc : c.toNat < 128) (heq : decodeFrom state bs = before ++ c :: after) :
    ∃ front back, bs = front ++ asciiByte c :: back ∧ decodeFrom state front = before ∧
      decode back = after := by
  have hbeyond : ∀ written : Text, (∀ d ∈ written, 128 ≤ d.toNat) → c ∉ written := by
    intro written hwritten hmem
    have hge := hwritten c hmem
    omega
  induction bs generalizing state before with
  | nil =>
    have hnone := hbeyond _ (unfinished_beyond state)
    rw [unfinished, heq] at hnone
    exact absurd (List.mem_append_right _ List.mem_cons_self) hnone
  | cons b bs ih =>
    rw [decodeFrom_cons] at heq
    rcases Nat.lt_or_ge b.toNat 0x80 with hb | hb
    · -- The byte is ASCII: it writes `c`, or `c` is written later.
      have hb' : b < 0x80 := UInt8.lt_iff_toNat_lt.mpr hb
      rw [step_ascii h.waits hb', List.append_assoc] at heq
      obtain ⟨more, hbefore, hrest⟩ :=
        exists_append_of_notMem (hbeyond _ (unfinished_beyond state)) heq
      cases more with
      | nil =>
        rw [List.singleton_append, List.nil_append, List.cons.injEq] at hrest
        refine ⟨[], bs, ?_, ?_, hrest.2⟩
        · rw [← hrest.1, asciiByte_ofNat hb', List.nil_append]
        · rw [hbefore, List.append_nil, unfinished]
      | cons first more =>
        rw [List.singleton_append, List.cons_append, List.cons.injEq] at hrest
        obtain ⟨front, back, hbs, hfront, hback⟩ := ih sound_none hrest.2
        refine ⟨b :: front, back, by rw [hbs, List.cons_append], ?_, hback⟩
        rw [decodeFrom_cons, step_ascii h.waits hb', hfront, hbefore, hrest.1, List.append_assoc,
          List.singleton_append]
    · obtain ⟨hwritten, hsound⟩ := h.step_beyond hb
      obtain ⟨more, hbefore, hrest⟩ := exists_append_of_notMem (hbeyond _ hwritten) heq
      obtain ⟨front, back, hbs, hfront, hback⟩ := ih hsound hrest
      refine ⟨b :: front, back, by rw [hbs, List.cons_append], ?_, hback⟩
      rw [decodeFrom_cons, hfront, hbefore]

section

variable {bs : Bytes} {before after w : Text}

/-- An ASCII character in the text stands for its byte, and the text around it for the bytes around
that. -/
theorem decode_eq_append_cons_iff (hc : c.toNat < 128) :
    decode bs = before ++ c :: after ↔
      ∃ front back, bs = front ++ asciiByte c :: back ∧ decode front = before ∧
        decode back = after := by
  constructor
  · exact exists_split_of_decodeFrom sound_none hc
  · rintro ⟨front, back, rfl, rfl, rfl⟩
    rw [decode_append_ascii _ _ (asciiByte_lt hc), ofNat_asciiByte hc]

theorem mem_decode_iff (hc : c.toNat < 128) : c ∈ decode bs ↔ asciiByte c ∈ bs := by
  rw [List.mem_iff_append, List.mem_iff_append]
  constructor
  · rintro ⟨before, after, heq⟩
    obtain ⟨front, back, hbs, -, -⟩ := (decode_eq_append_cons_iff hc).mp heq
    exact ⟨front, back, hbs⟩
  · rintro ⟨front, back, hbs⟩
    exact ⟨_, _, (decode_eq_append_cons_iff hc).mpr ⟨front, back, hbs, rfl, rfl⟩⟩

/-- A text begins with ASCII characters just if the bytes begin with theirs. -/
theorem decode_eq_ascii_append_iff (hw : w.IsAscii) :
    decode bs = w ++ after ↔ ∃ back, bs = encode w ++ back ∧ decode back = after := by
  constructor
  · intro heq
    induction w generalizing bs with
    | nil => exact ⟨bs, rfl, heq⟩
    | cons c w ih =>
      obtain ⟨hc, hrest⟩ := Text.IsAscii.cons_iff.mp hw
      rw [← List.nil_append (c :: w ++ after)] at heq
      obtain ⟨front, back, hbs, hfront, hback⟩ := (decode_eq_append_cons_iff hc).mp heq
      obtain ⟨back', hback', hafter⟩ := ih hrest hback
      refine ⟨back', ?_, hafter⟩
      rw [hbs, decode_eq_nil_iff.mp hfront, hback', encode_cons_ascii w hc, List.nil_append,
        List.cons_append]
  · rintro ⟨back, rfl, rfl⟩
    exact decodeFrom_encode_append w back

/-- ASCII characters that stand in a row in the text stand for their bytes in a row. -/
theorem decode_eq_append_ascii_append_iff (hw : w.IsAscii) (hne : w ≠ []) :
    decode bs = before ++ w ++ after ↔
      ∃ front back, bs = front ++ encode w ++ back ∧ decode front = before ∧
        decode back = after := by
  cases w with
  | nil => exact absurd rfl hne
  | cons c w =>
    obtain ⟨hc, hrest⟩ := Text.IsAscii.cons_iff.mp hw
    rw [List.append_assoc, List.cons_append, decode_eq_append_cons_iff hc, encode_cons_ascii w hc]
    constructor
    · rintro ⟨front, back, hbs, hfront, hback⟩
      obtain ⟨back', hback', hafter⟩ := (decode_eq_ascii_append_iff hrest).mp hback
      exact ⟨front, back', by simp [hbs, hback'], hfront, hafter⟩
    · rintro ⟨front, back, hbs, hfront, hback⟩
      exact ⟨front, encode w ++ back, by simp [hbs], hfront,
        (decode_eq_ascii_append_iff hrest).mpr ⟨back, rfl, hback⟩⟩

/-- A text ends with ASCII characters just if the bytes end with theirs. -/
theorem decode_eq_append_ascii_iff (hw : w.IsAscii) :
    decode bs = before ++ w ↔ ∃ front, bs = front ++ encode w ∧ decode front = before := by
  by_cases hne : w = []
  · subst hne
    simp [encode]
  · rw [← List.append_nil (before ++ w), decode_eq_append_ascii_append_iff hw hne]
    simp [decode_eq_nil_iff]

/-- An ASCII string occurs in the text just if its bytes occur in the byte string. -/
theorem isInfix_decode_iff (hw : w.IsAscii) (hne : w ≠ []) :
    w <:+: decode bs ↔ encode w <:+: bs := by
  constructor
  · rintro ⟨before, after, heq⟩
    obtain ⟨front, back, hbs, -, -⟩ := (decode_eq_append_ascii_append_iff hw hne).mp heq.symm
    exact ⟨front, back, hbs.symm⟩
  · rintro ⟨front, back, hbs⟩
    exact ⟨_, _, ((decode_eq_append_ascii_append_iff hw hne).mpr
      ⟨front, back, hbs.symm, rfl, rfl⟩).symm⟩

end

end Utf8

end Provenance
