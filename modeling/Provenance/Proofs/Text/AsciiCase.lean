import Provenance.Proofs.Text.AsciiStretches

/-!
ASCII case in texts and in bytes. An ASCII text and its bytes have the same lower-case form, and
what equals an ASCII text up to case is ASCII itself. So it does not matter whether case is ignored
before decoding or after: the bytes begin or end with an ASCII string, up to case, just if the text
does.
-/
namespace Provenance

/-- Equality of byte strings up to the case of ASCII letters. -/
def SameUpToCase (as bs : Bytes) : Prop :=
  as.map lowerByte = bs.map lowerByte

instance (as bs : Bytes) : Decidable (SameUpToCase as bs) :=
  inferInstanceAs (Decidable (as.map lowerByte = bs.map lowerByte))

namespace SameUpToCase

variable {as bs : Bytes}

theorem symm (h : SameUpToCase as bs) : SameUpToCase bs as := Eq.symm h

theorem trans {cs : Bytes} (h : SameUpToCase as bs) (h' : SameUpToCase bs cs) :
    SameUpToCase as cs :=
  Eq.trans h h'

theorem length_eq (h : SameUpToCase as bs) : as.length = bs.length := by
  simpa using congrArg List.length h

/-- What is equal to two parts up to case falls into two parts. -/
theorem exists_append {front back : Bytes} (h : SameUpToCase (front ++ back) bs) :
    ∃ front' back', bs = front' ++ back' ∧ SameUpToCase front front' ∧ SameUpToCase back back' := by
  have hmap : bs.map lowerByte = front.map lowerByte ++ back.map lowerByte := by
    rw [← List.map_append]
    exact h.symm
  obtain ⟨front', back', hbs, hfront, hback⟩ := List.map_eq_append_iff.mp hmap
  exact ⟨front', back', hbs, hfront.symm, hback.symm⟩

theorem exists_cons {b : UInt8} (h : SameUpToCase (b :: as) bs) :
    ∃ b' bs', bs = b' :: bs' ∧ lowerByte b = lowerByte b' ∧ SameUpToCase as bs' := by
  cases bs with
  | nil => cases h
  | cons b' bs' =>
    obtain ⟨hb, hrest⟩ := List.cons.inj h
    exact ⟨b', bs', rfl, hb, hrest⟩

end SameUpToCase

/-- A byte that is no letter has no other case. -/
theorem eq_of_lowerByte_eq {b sign : UInt8} (hsign : ¬(0x41 ≤ sign.toNat ∧ sign.toNat ≤ 0x5A))
    (hsmall : ¬(0x61 ≤ sign.toNat ∧ sign.toNat ≤ 0x7A)) (h : lowerByte sign = lowerByte b) :
    b = sign := by
  have hb := b.toNat_lt
  rw [lowerByte, lowerByte] at h
  simp only [UInt8.le_iff_toNat_le, UInt8.reduceToNat] at h
  rw [if_neg hsign] at h
  split at h
  · have hnat := congrArg UInt8.toNat h
    simp only [UInt8.toNat_add, UInt8.reduceToNat] at hnat
    omega
  · exact h.symm

/-- Signs that are no letters stand in both of two byte strings that are equal up to case. -/
theorem SameUpToCase.mem_iff {as bs : Bytes} (h : SameUpToCase as bs) {sign : UInt8}
    (hsign : ¬(0x41 ≤ sign.toNat ∧ sign.toNat ≤ 0x5A))
    (hsmall : ¬(0x61 ≤ sign.toNat ∧ sign.toNat ≤ 0x7A)) : sign ∈ as ↔ sign ∈ bs := by
  have htransfer : ∀ {as bs : Bytes}, SameUpToCase as bs → sign ∈ as → sign ∈ bs := by
    intro as bs h hmem
    have hlower : lowerByte sign ∈ bs.map lowerByte := h ▸ List.mem_map_of_mem hmem
    obtain ⟨b, hb, heq⟩ := List.mem_map.mp hlower
    exact eq_of_lowerByte_eq hsign hsmall heq.symm ▸ hb
  exact ⟨htransfer h, htransfer h.symm⟩

theorem lowerByte_lt_iff {b : UInt8} : lowerByte b < 0x80 ↔ b < 0x80 := by
  rw [lowerByte]
  simp only [UInt8.le_iff_toNat_le, UInt8.lt_iff_toNat_lt, UInt8.reduceToNat]
  split
  · simp only [UInt8.toNat_add, UInt8.reduceToNat]
    omega
  · exact Iff.rfl

namespace Text

theorem toNat_toLower_lt_iff (c : Char) : c.toLower.toNat < 128 ↔ c.toNat < 128 := by
  unfold Char.toLower
  split
  · next h =>
    have hlow : 65 ≤ c.toNat := h.1
    have hhigh : c.toNat ≤ 90 := h.2
    have hlower : (c.val + ('a'.val - 'A'.val)).toNat = c.toNat + 32 := by
      have hshift : ('a'.val - 'A'.val).toNat = 32 := rfl
      rw [UInt32.toNat_add, hshift]
      show (c.toNat + 32) % 4294967296 = c.toNat + 32
      omega
    change (c.val + ('a'.val - 'A'.val)).toNat < 128 ↔ c.toNat < 128
    omega
  · exact Iff.rfl

/-- Only ASCII is equal to ASCII up to case. -/
theorem IsAscii.of_sameIgnoringCase {t w : Text} (hw : w.IsAscii)
    (h : sameIgnoringCase t w = true) : t.IsAscii := by
  rw [sameIgnoringCase, beq_iff_eq] at h
  intro c hc
  have hmem : c.toLower ∈ w.map Char.toLower := h ▸ List.mem_map_of_mem hc
  obtain ⟨d, hd, heq⟩ := List.mem_map.mp hmem
  rw [← toNat_toLower_lt_iff, ← heq, toNat_toLower_lt_iff]
  exact hw d hd

end Text

namespace Utf8

theorem encode_injective : Function.Injective encode :=
  Function.LeftInverse.injective decode_encode

theorem lowerByte_asciiByte {c : Char} (hc : c.toNat < 128) :
    lowerByte (asciiByte c) = asciiByte c.toLower := by
  have hall : ∀ n : Fin 128, lowerByte (asciiByte (Char.ofNat n)) =
      asciiByte (Char.ofNat n).toLower := by decide
  have hone := hall ⟨c.toNat, hc⟩
  rwa [Char.ofNat_toNat] at hone

/-- Lower case and encoding may be taken in either order. -/
theorem map_lowerByte_encode {w : Text} (hw : w.IsAscii) :
    (encode w).map lowerByte = encode (w.map Char.toLower) := by
  induction w with
  | nil => rfl
  | cons c w ih =>
    obtain ⟨hc, hrest⟩ := Text.IsAscii.cons_iff.mp hw
    rw [encode_cons_ascii w hc, List.map_cons, List.map_cons, ih hrest, lowerByte_asciiByte hc,
      encode_cons_ascii _ ((Text.toNat_toLower_lt_iff c).mpr hc)]

variable {bs : Bytes} {t w : Text}

/-- Bytes that equal those of an ASCII text up to case are the bytes of an ASCII text. -/
theorem exists_ascii_of_sameUpToCase (hw : w.IsAscii) (h : SameUpToCase bs (encode w)) :
    ∃ u : Text, u.IsAscii ∧ bs = encode u := by
  induction w generalizing bs with
  | nil =>
    cases bs with
    | nil => exact ⟨[], nofun, rfl⟩
    | cons b bs => cases h
  | cons c w ih =>
    obtain ⟨hc, hrest⟩ := Text.IsAscii.cons_iff.mp hw
    rw [encode_cons_ascii w hc] at h
    obtain ⟨b, bs', rfl, hb, hbs⟩ := h.symm.exists_cons
    obtain ⟨u, hu, rfl⟩ := ih hrest hbs.symm
    have hlt : b < 0x80 := lowerByte_lt_iff.mp (hb ▸ lowerByte_lt_iff.mpr (asciiByte_lt hc))
    have hbyte : (Char.ofNat b.toNat).toNat < 128 := by
      rw [toNat_ofNat_byte hlt]
      exact UInt8.lt_iff_toNat_lt.mp hlt
    refine ⟨Char.ofNat b.toNat :: u, Text.IsAscii.cons_iff.mpr ⟨hbyte, hu⟩, ?_⟩
    rw [encode_cons_ascii u hbyte, asciiByte_ofNat hlt]

theorem sameUpToCase_encode_iff (ht : t.IsAscii) (hw : w.IsAscii) :
    SameUpToCase (encode t) (encode w) ↔ Text.sameIgnoringCase t w = true := by
  rw [SameUpToCase, map_lowerByte_encode ht, map_lowerByte_encode hw, encode_injective.eq_iff,
    Text.sameIgnoringCase, beq_iff_eq]

/-- The text begins with an ASCII string, up to case, just if the bytes do. -/
theorem begins_decode_iff (hw : w.IsAscii) :
    (∃ front rest, decode bs = front ++ rest ∧ Text.sameIgnoringCase front w = true) ↔
      ∃ front rest, bs = front ++ rest ∧ SameUpToCase front (encode w) := by
  constructor
  · rintro ⟨front, rest, heq, hsame⟩
    have hfront := hw.of_sameIgnoringCase hsame
    obtain ⟨back, hbs, -⟩ := (decode_eq_ascii_append_iff hfront).mp heq
    exact ⟨_, back, hbs, (sameUpToCase_encode_iff hfront hw).mpr hsame⟩
  · rintro ⟨front, rest, hbs, hsame⟩
    obtain ⟨u, hu, rfl⟩ := exists_ascii_of_sameUpToCase hw hsame
    exact ⟨u, decode rest, (decode_eq_ascii_append_iff hu).mpr ⟨rest, hbs, rfl⟩,
      (sameUpToCase_encode_iff hu hw).mp hsame⟩

/-- The text ends with an ASCII string, up to case, just if the bytes do. -/
theorem ends_decode_iff (hw : w.IsAscii) :
    (∃ front back, decode bs = front ++ back ∧ Text.sameIgnoringCase back w = true) ↔
      ∃ front back, bs = front ++ back ∧ SameUpToCase back (encode w) := by
  constructor
  · rintro ⟨front, back, heq, hsame⟩
    have hback := hw.of_sameIgnoringCase hsame
    obtain ⟨before, hbs, -⟩ := (decode_eq_append_ascii_iff hback).mp heq
    exact ⟨before, _, hbs, (sameUpToCase_encode_iff hback hw).mpr hsame⟩
  · rintro ⟨front, back, hbs, hsame⟩
    obtain ⟨u, hu, rfl⟩ := exists_ascii_of_sameUpToCase hw hsame
    exact ⟨decode front, u, (decode_eq_append_ascii_iff hu).mpr ⟨front, hbs, rfl⟩,
      (sameUpToCase_encode_iff hu hw).mp hsame⟩

end Utf8

end Provenance
