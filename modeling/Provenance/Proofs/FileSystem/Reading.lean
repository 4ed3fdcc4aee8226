import Provenance.Proofs.Scan.LibraryPath
import Provenance.Proofs.Text.AsciiCase

/-!
What reading a file keeps of its bytes. A text that is well formed is kept to the byte, but for one
byte order mark in front. In any other, decoding replaces what is no character, and an ASCII string
stands in the text just if it stands in the bytes. A text that is written back is read as the same
text.
-/
namespace Provenance.Contents

/-- The bytes of a byte order mark. -/
def markBytes : Bytes := [0xEF, 0xBB, 0xBF]

/-- What a text has to do with the bytes that it is read from. -/
structure IsTextOf (bytes : Bytes) (t : Text) : Prop where
  /-- The bytes of a text stay as they are without one mark in front; a second one is kept. -/
  encode_eq : (∃ held, Utf8.encode held = bytes) →
    (∀ rest, bytes = markBytes ++ rest → Utf8.encode t = rest) ∧
      (¬markBytes <+: bytes → Utf8.encode t = bytes)
  isInfix_iff : ∀ w : Text, w.IsAscii → w ≠ [] → (w <:+: t ↔ Utf8.encode w <:+: bytes)
  read_again : t ≠ [] → t.head? ≠ some Utf8.byteOrderMark → 0 ∉ (Utf8.encode t).take 512 →
    ∀ (fs : FileSystem) (path : Path), fs.bytes path = .ok (Utf8.encode t) →
      read fs path = .ok (.text t)

variable {bytes : Bytes} {t : Text}

theorem dropMark_of_head?_ne (h : t.head? ≠ some Utf8.byteOrderMark) : dropMark t = t := by
  cases t with
  | nil => rfl
  | cons c t =>
    have hc : c ≠ Utf8.byteOrderMark := fun heq => h (congrArg some heq)
    rw [dropMark, if_neg hc]

theorem dropMark_mark (t : Text) : dropMark (Utf8.byteOrderMark :: t) = t := by
  rw [dropMark, if_pos rfl]

theorem encode_mark (t : Text) :
    Utf8.encode (Utf8.byteOrderMark :: t) = markBytes ++ Utf8.encode t := rfl

/-- The mark in front of a text is there just if its bytes are there. -/
theorem encode_dropMark (held : Text) :
    (∀ rest, Utf8.encode held = markBytes ++ rest → Utf8.encode (dropMark held) = rest) ∧
      (¬markBytes <+: Utf8.encode held → Utf8.encode (dropMark held) = Utf8.encode held) := by
  constructor
  · intro rest hrest
    have hheld : held = Utf8.byteOrderMark :: Utf8.decode rest := by
      rw [← Utf8.decode_encode held, hrest]
      exact Utf8.decodeFrom_encodeChar Utf8.byteOrderMark rest
    rw [hheld, encode_mark] at hrest
    rw [hheld, dropMark_mark]
    exact List.append_cancel_left hrest
  · intro hmark
    rw [dropMark_of_head?_ne]
    intro hhead
    obtain ⟨t, rfl⟩ := List.head?_eq_some_iff.mp hhead
    exact hmark ⟨_, (encode_mark t).symm⟩

/-- The mark is no part of an ASCII string. -/
theorem isInfix_dropMark_iff {w : Text} (hw : w.IsAscii) (hne : w ≠ []) :
    w <:+: dropMark t ↔ w <:+: t := by
  by_cases hhead : t.head? = some Utf8.byteOrderMark
  · obtain ⟨t, rfl⟩ := List.head?_eq_some_iff.mp hhead
    rw [dropMark_mark, List.infix_cons_iff]
    refine ⟨Or.inr, fun h => h.resolve_left ?_⟩
    intro hbegins
    cases w with
    | nil => exact hne rfl
    | cons c w =>
      have hc := hw c List.mem_cons_self
      rw [(List.cons_prefix_cons.mp hbegins).1] at hc
      exact absurd hc (by decide)
  · rw [dropMark_of_head?_ne hhead]

/-- What is neither empty nor binary is read as its text. -/
theorem ofBytes_eq_text (hne : bytes ≠ []) (hzero : 0 ∉ bytes.take 512) :
    ofBytes bytes = .text (dropMark (Utf8.decode bytes)) := by
  have hbinary : ¬isBinary bytes = true := by
    simpa [isBinary, binaryWindow] using hzero
  rw [ofBytes, if_neg hne, if_neg hbinary]

theorem isTextOf_decode (bytes : Bytes) : IsTextOf bytes (dropMark (Utf8.decode bytes)) := by
  constructor
  · rintro ⟨held, rfl⟩
    rw [Utf8.decode_encode]
    exact encode_dropMark held
  · intro w hw hne
    rw [isInfix_dropMark_iff hw hne, Utf8.isInfix_decode_iff hw hne]
  · intro hne hhead hzero fs path hbytes
    have hne' : Utf8.encode (dropMark (Utf8.decode bytes)) ≠ [] :=
      fun h => hne (Utf8.encode_injective (h.trans rfl))
    rw [Scan.read_of_bytes hbytes, ofBytes_eq_text hne' hzero, Utf8.decode_encode,
      dropMark_of_head?_ne hhead]

/-- Reading a file loses and makes up nothing. No bytes are read as empty, a zero byte near the
beginning makes a file binary, and what is read in all other cases is the text of the bytes. -/
theorem read_isTextOf (fs : FileSystem) (path : Path) (hbytes : fs.bytes path = .ok bytes) :
    ∃ contents, read fs path = .ok contents ∧
      (contents = .empty ↔ bytes = []) ∧
      (contents = .binary ↔ bytes ≠ [] ∧ 0 ∈ bytes.take 512) ∧
      (bytes ≠ [] → 0 ∉ bytes.take 512 → ∃ t, contents = .text t ∧ IsTextOf bytes t) := by
  refine ⟨ofBytes bytes, Scan.read_of_bytes hbytes, Scan.ofBytes_eq_empty_iff,
    Scan.ofBytes_eq_binary_iff, ?_⟩
  intro hne hzero
  exact ⟨_, ofBytes_eq_text hne hzero, isTextOf_decode bytes⟩

/-- A file system where every path leads to a file with these bytes. -/
def holding (bytes : Bytes) : FileSystem := fun _ => .ok (.file ⟨0⟩ (.ok bytes))

/-- A marker behind two byte order marks. -/
def markedTwice : Bytes := markBytes ++ (markBytes ++ Utf8.encode "// <auto-generated>\n".toList)

/-- A marker behind a character that is cut short. -/
def markerBehindCut : Bytes := 0xE2 :: 0x82 :: Utf8.encode "// <auto-generated>\n".toList

/-- The second mark is kept; the marker behind the replaced bytes stands in the text, which is read
again as it is. -/
theorem read_markedTwice_markerBehindCut :
    (∃ t, read (holding markedTwice) ⟨[0x61]⟩ = .ok (.text t) ∧
      Utf8.encode t = markBytes ++ Utf8.encode "// <auto-generated>\n".toList) ∧
    ∃ t, read (holding markerBehindCut) ⟨[0x61]⟩ = .ok (.text t) ∧
      "// <auto-generated>".toList <:+: t ∧
      read (holding (Utf8.encode t)) ⟨[0x62]⟩ = .ok (.text t) := by
  constructor
  · obtain ⟨contents, hread, -, -, htext⟩ := read_isTextOf (holding markedTwice) ⟨[0x61]⟩ rfl
    obtain ⟨t, rfl, hkept⟩ := htext (by decide) (by decide)
    have hheld : Utf8.encode (Utf8.byteOrderMark :: Utf8.byteOrderMark ::
        "// <auto-generated>\n".toList) = markedTwice := rfl
    exact ⟨t, hread, (hkept.encode_eq ⟨_, hheld⟩).1 _ rfl⟩
  · obtain ⟨contents, hread, -, -, htext⟩ := read_isTextOf (holding markerBehindCut) ⟨[0x61]⟩ rfl
    obtain ⟨t, rfl, hkept⟩ := htext (by decide) (by decide)
    have ht : t = Utf8.replacement :: "// <auto-generated>\n".toList :=
      Contents.text.inj (Except.ok.inj (hread.symm.trans rfl))
    refine ⟨t, hread, ?_, hkept.read_again ?_ ?_ ?_ _ _ rfl⟩
    · exact (hkept.isInfix_iff _ (by decide) (by decide)).mpr (by decide)
    · simp [ht]
    · simp [ht, Utf8.replacement, Utf8.byteOrderMark]
    · rw [ht]
      decide

end Provenance.Contents
