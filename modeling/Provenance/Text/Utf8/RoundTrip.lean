import Provenance.Text.Utf8

/-!
Decoding undoes encoding. The automaton reads the two, three or four bytes of a character one after
the other, and the bounds that it sets for the second byte admit every character. So the byte strings
that are well formed are exactly the encodings of texts.
-/
namespace Provenance.Utf8

private theorem toNat_ofNat_of_lt {n : Nat} (h : n < 256) : (UInt8.ofNat n).toNat = n := by
  simp [UInt8.toNat_ofNat', Nat.mod_eq_of_lt h]

theorem accepts_iff {p : Pending} {b : UInt8} :
    p.accepts b = true ↔ p.low.toNat ≤ b.toNat ∧ b.toNat ≤ p.high.toNat := by
  simp [Pending.accepts, UInt8.le_iff_toNat_le]

theorem decodeFrom_cons (state : Option Pending) (b : UInt8) (bs : Bytes) :
    decodeFrom state (b :: bs) = (step state b).1 ++ decodeFrom (step state b).2 bs := by
  cases state <;> rfl

/-- An accepted byte that is not the last one leaves any continuation byte to come. -/
theorem decodeFrom_more {value more : Nat} {low high b : UInt8} (bs : Bytes)
    (hlow : low.toNat ≤ b.toNat) (hhigh : b.toNat ≤ high.toNat) :
    decodeFrom (some ⟨value, more + 1, low, high⟩) (b :: bs) =
      decodeFrom (some ⟨value * 64 + (b.toNat - 0x80), more, 0x80, 0xBF⟩) bs := by
  rw [decodeFrom_cons, step, if_pos (accepts_iff.mpr ⟨hlow, hhigh⟩)]
  rfl

theorem decodeFrom_last {value : Nat} {low high b : UInt8} (bs : Bytes)
    (hlow : low.toNat ≤ b.toNat) (hhigh : b.toNat ≤ high.toNat) :
    decodeFrom (some ⟨value, 0, low, high⟩) (b :: bs) =
      Char.ofNat (value * 64 + (b.toNat - 0x80)) :: decodeFrom none bs := by
  rw [decodeFrom_cons, step, if_pos (accepts_iff.mpr ⟨hlow, hhigh⟩)]
  rfl

theorem decodeFrom_start {b : UInt8} {p : Pending} (bs : Bytes) (h : start b = ([], some p)) :
    decodeFrom none (b :: bs) = decodeFrom (some p) bs := by
  rw [decodeFrom_cons, step, h]
  rfl

theorem start_two {b : UInt8} (hlow : 0xC2 ≤ b.toNat) (hhigh : b.toNat < 0xE0) :
    start b = ([], some ⟨b.toNat - 0xC0, 0, 0x80, 0xBF⟩) := by
  have h1 : ¬b < 0x80 := by simp only [UInt8.lt_iff_toNat_lt, UInt8.reduceToNat]; omega
  have h2 : ¬b < 0xC2 := by simp only [UInt8.lt_iff_toNat_lt, UInt8.reduceToNat]; omega
  have h3 : b < 0xE0 := by simp only [UInt8.lt_iff_toNat_lt, UInt8.reduceToNat]; omega
  rw [start, if_neg h1, if_neg h2, if_pos h3]

/-- The first byte of a character of three bytes; the second byte has to leave out what two bytes
encode, and the surrogates. -/
theorem start_three {b : UInt8} (hlow : 0xE0 ≤ b.toNat) (hhigh : b.toNat < 0xF0) :
    start b = ([], some ⟨b.toNat - 0xE0, 1, if b.toNat = 0xE0 then 0xA0 else 0x80,
      if b.toNat = 0xED then 0x9F else 0xBF⟩) := by
  have h1 : ¬b < 0x80 := by simp only [UInt8.lt_iff_toNat_lt, UInt8.reduceToNat]; omega
  have h2 : ¬b < 0xC2 := by simp only [UInt8.lt_iff_toNat_lt, UInt8.reduceToNat]; omega
  have h3 : ¬b < 0xE0 := by simp only [UInt8.lt_iff_toNat_lt, UInt8.reduceToNat]; omega
  have h4 : b < 0xF0 := by simp only [UInt8.lt_iff_toNat_lt, UInt8.reduceToNat]; omega
  rw [start, if_neg h1, if_neg h2, if_neg h3]
  simp only [← UInt8.toNat_inj, UInt8.reduceToNat, h4, if_true]
  split
  · next h => simp [h]
  · split
    · next h => simp [h]
    · rfl

/-- The first byte of a character of four bytes; the second byte has to leave out what three bytes
encode, and what lies beyond the last code point. -/
theorem start_four {b : UInt8} (hlow : 0xF0 ≤ b.toNat) (hhigh : b.toNat ≤ 0xF4) :
    start b = ([], some ⟨b.toNat - 0xF0, 2, if b.toNat = 0xF0 then 0x90 else 0x80,
      if b.toNat = 0xF4 then 0x8F else 0xBF⟩) := by
  have h1 : ¬b < 0x80 := by simp only [UInt8.lt_iff_toNat_lt, UInt8.reduceToNat]; omega
  have h2 : ¬b < 0xC2 := by simp only [UInt8.lt_iff_toNat_lt, UInt8.reduceToNat]; omega
  have h3 : ¬b < 0xE0 := by simp only [UInt8.lt_iff_toNat_lt, UInt8.reduceToNat]; omega
  have h4 : ¬b < 0xF0 := by simp only [UInt8.lt_iff_toNat_lt, UInt8.reduceToNat]; omega
  rw [start, if_neg h1, if_neg h2, if_neg h3]
  simp only [← UInt8.toNat_inj, UInt8.reduceToNat, h4, if_false, UInt8.lt_iff_toNat_lt]
  rw [if_neg (by omega), if_neg (by omega)]
  split
  · next h => simp [h]
  · split
    · next h h' => rw [if_neg (by omega : ¬b.toNat = 0xF4)]
    · next h h' =>
      have hlast : b.toNat = 0xF4 := by omega
      simp [hlast]

/-- A character is read back from its bytes, whatever follows them. -/
theorem decodeFrom_encodeChar (c : Char) (bs : Bytes) :
    decodeFrom none (String.utf8EncodeChar c ++ bs) = c :: decodeFrom none bs := by
  have hvalid : c.toNat < 0xD800 ∨ 0xDFFF < c.toNat ∧ c.toNat < 0x110000 := c.valid
  have hchar : Char.ofNat c.toNat = c := Char.ofNat_toNat c
  generalize hv : c.toNat = v at hvalid hchar
  have hv' : c.val.toNat = v := hv
  simp only [String.utf8EncodeChar, hv']
  split
  · next h1 =>
    have hb := toNat_ofNat_of_lt (n := v) (by omega)
    rw [List.singleton_append, decodeFrom_cons, step, start, if_pos, hb, hchar]
    · rfl
    · simp only [UInt8.lt_iff_toNat_lt, hb, UInt8.reduceToNat]
      omega
  · split
    · next h1 h2 =>
      have hb0 := toNat_ofNat_of_lt (n := v / 64 % 32 + 192) (by omega)
      have hb1 := toNat_ofNat_of_lt (n := v % 64 + 128) (by omega)
      rw [List.cons_append, List.singleton_append,
        decodeFrom_start _ (start_two (by omega) (by omega)),
        decodeFrom_last _ (by rw [hb1]; simp) (by rw [hb1]; simp; omega), hb0, hb1]
      have hsum : (v / 64 % 32 + 192 - 192) * 64 + (v % 64 + 128 - 128) = v := by omega
      rw [hsum, hchar]
    · split
      · next h1 h2 h3 =>
        have hb0 := toNat_ofNat_of_lt (n := v / 4096 % 16 + 224) (by omega)
        have hb1 := toNat_ofNat_of_lt (n := v / 64 % 64 + 128) (by omega)
        have hb2 := toNat_ofNat_of_lt (n := v % 64 + 128) (by omega)
        rw [List.cons_append, List.cons_append, List.singleton_append,
          decodeFrom_start _ (start_three (by omega) (by omega)), decodeFrom_more,
          decodeFrom_last, hb0, hb1, hb2]
        · have hsum : ((v / 4096 % 16 + 224 - 224) * 64 + (v / 64 % 64 + 128 - 128)) * 64 +
              (v % 64 + 128 - 128) = v := by omega
          rw [hsum, hchar]
        · rw [hb2]; simp
        · rw [hb2]; simp; omega
        · rw [hb0, hb1]
          split
          · simp; omega
          · simp
        · rw [hb0, hb1]
          split
          · simp; omega
          · simp; omega
      · next h1 h2 h3 =>
        have hb0 := toNat_ofNat_of_lt (n := v / 262144 % 8 + 240) (by omega)
        have hb1 := toNat_ofNat_of_lt (n := v / 4096 % 64 + 128) (by omega)
        have hb2 := toNat_ofNat_of_lt (n := v / 64 % 64 + 128) (by omega)
        have hb3 := toNat_ofNat_of_lt (n := v % 64 + 128) (by omega)
        rw [List.cons_append, List.cons_append, List.cons_append, List.singleton_append,
          decodeFrom_start _ (start_four (by omega) (by omega)), decodeFrom_more, decodeFrom_more,
          decodeFrom_last, hb0, hb1, hb2, hb3]
        · have hsum : (((v / 262144 % 8 + 240 - 240) * 64 + (v / 4096 % 64 + 128 - 128)) * 64 +
              (v / 64 % 64 + 128 - 128)) * 64 + (v % 64 + 128 - 128) = v := by omega
          rw [hsum, hchar]
        · rw [hb3]; simp
        · rw [hb3]; simp; omega
        · rw [hb2]; simp
        · rw [hb2]; simp; omega
        · rw [hb0, hb1]
          split
          · simp; omega
          · simp
        · rw [hb0, hb1]
          split
          · simp; omega
          · simp; omega

theorem decodeFrom_encode_append (t : Text) (bs : Bytes) :
    decodeFrom none (encode t ++ bs) = t ++ decodeFrom none bs := by
  induction t with
  | nil => rfl
  | cons c t ih =>
    rw [encode, List.flatMap_cons, List.append_assoc, decodeFrom_encodeChar]
    exact congrArg (c :: ·) ih

@[simp] theorem decode_encode (t : Text) : decode (encode t) = t := by
  simpa [decode, decodeFrom] using decodeFrom_encode_append t []

theorem isValid_iff {bs : Bytes} : isValid bs = true ↔ ∃ t, encode t = bs := by
  constructor
  · exact fun h => ⟨decode bs, by simpa [isValid] using h⟩
  · rintro ⟨t, rfl⟩
    simp [isValid]

end Provenance.Utf8
