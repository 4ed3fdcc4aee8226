import Provenance.NameRule
import Provenance.Path
import Provenance.Proofs.Syntax.Lines
import Provenance.Proofs.Text.AsciiCase

/-!
The rule for names on the bytes of a path. The rule reads a decoded path, but all that it looks for
is ASCII, and ASCII is what decoding leaves in its place: the rule can be told of the bytes alone,
whether they are UTF-8 or not. It can also be told of slices of the encoded path, none of which
reaches beyond the bytes that there are.
-/
namespace Provenance.NameRule

/-- Either kind of slash. -/
def IsSlash (b : UInt8) : Prop := b = 0x2F ∨ b = 0x5C

/-- The bytes after the last slash of a path, or all of its bytes if it holds no slash. -/
def IsLastSegment (path name : Bytes) : Prop :=
  (∀ b ∈ name, ¬IsSlash b) ∧
    (path = name ∨ ∃ folder slash, IsSlash slash ∧ path = folder ++ slash :: name)

/-- What the rule looks for at the end of a name without its extension. -/
def tellingEndings : List String :=
  ["AssemblyInfo", ".designer", ".generated", ".g", ".g.i", ".AssemblyAttributes"]

/-- A name that tells of a tool, up to ASCII case: it has the opening of throwaway files, or an
extension and in front of that one of the known endings. -/
def Tells (name : Bytes) : Prop :=
  (∃ front rest, name = front ++ rest ∧
    SameUpToCase front (Utf8.encode "TemporaryGeneratedFile_".toList)) ∨
  ∃ stem ext, name = stem ++ 0x2E :: ext ∧ ext ≠ [] ∧ 0x2E ∉ ext ∧
    ∃ ending ∈ tellingEndings, ∃ front back, stem = front ++ back ∧
      SameUpToCase back (Utf8.encode ending.toList)

/-- A path whose name tells of a tool. -/
def NamesGenerated (path : Bytes) : Prop :=
  ∃ name, IsLastSegment path name ∧ Tells name

section

variable {α : Type} {a : α} {as : List α}

/-- A list has a last element with a property, unless none of its elements has it. -/
theorem exists_last_or_forall_not (p : α → Prop) (as : List α) :
    (∃ before a after, as = before ++ a :: after ∧ p a ∧ ∀ b ∈ after, ¬p b) ∨ ∀ a ∈ as, ¬p a := by
  induction as with
  | nil => exact Or.inr nofun
  | cons b as ih =>
    rcases ih with ⟨before, a, after, rfl, ha, hafter⟩ | hnone
    · exact Or.inl ⟨b :: before, a, after, rfl, ha, hafter⟩
    · by_cases hb : p b
      · exact Or.inl ⟨[], b, as, rfl, hb, hnone⟩
      · exact Or.inr (List.forall_mem_cons.mpr ⟨hb, hnone⟩)

theorem exists_split_at_last (h : a ∈ as) :
    ∃ before after, as = before ++ a :: after ∧ a ∉ after := by
  rcases exists_last_or_forall_not (· = a) as with ⟨before, b, after, has, rfl, hafter⟩ | hnone
  · exact ⟨before, after, has, fun hmem => hafter _ hmem rfl⟩
  · exact absurd rfl (hnone a h)

theorem beq_eq_false_of_notMem [DecidableEq α] (h : a ∉ as) : ∀ b ∈ as, (b == a) = false := by
  intro b hb
  rw [beq_eq_false_iff_ne]
  rintro rfl
  exact h hb

end

theorem exists_isLastSegment (path : Bytes) : ∃ name, IsLastSegment path name := by
  rcases exists_last_or_forall_not IsSlash path with
    ⟨folder, slash, name, hpath, hslash, hfree⟩ | hfree
  · exact ⟨name, hfree, Or.inr ⟨folder, slash, hslash, hpath⟩⟩
  · exact ⟨path, hfree, Or.inl rfl⟩

theorem temporaryOpening_isAscii : temporaryOpening.IsAscii := by
  decide

theorem stemEndings_isAscii : ∀ ending ∈ stemEndings, Text.IsAscii ending := by
  decide

theorem IsSlash.decoded {slash : UInt8} (h : IsSlash slash) :
    slash < 0x80 ∧ isSlash (Char.ofNat slash.toNat) = true := by
  rcases h with rfl | rfl
  · exact ⟨by decide, rfl⟩
  · exact ⟨by decide, rfl⟩

/-- Decoding keeps the last segment. -/
theorem IsLastSegment.lastSegment_decode {path name : Bytes} (h : IsLastSegment path name) :
    lastSegment (Utf8.decode path) = Utf8.decode name := by
  obtain ⟨hfree, hpath⟩ := h
  have hfree' : ∀ c ∈ Utf8.decode name, isSlash c = false := by
    intro c hc
    apply Bool.eq_false_iff.mpr
    intro hslash
    rw [isSlash, Bool.or_eq_true, beq_iff_eq, beq_iff_eq] at hslash
    rcases hslash with rfl | rfl
    · exact hfree _ ((Utf8.mem_decode_iff (by decide)).mp hc) (Or.inl rfl)
    · exact hfree _ ((Utf8.mem_decode_iff (by decide)).mp hc) (Or.inr rfl)
  rcases hpath with rfl | ⟨folder, slash, hslash, rfl⟩
  · refine Syntax.afterLast_eq_self isSlash ?_
    rw [List.any_eq_false]
    exact fun c hc => Bool.eq_false_iff.mp (hfree' c hc)
  · obtain ⟨hascii, hsame⟩ := hslash.decoded
    rw [lastSegment, Utf8.decode_append_ascii folder name hascii]
    exact afterLast_append_cons hsame hfree'

section

variable {α β : Type} (lower : α → β) (as sought : List α)

/-- A list begins with another one up to case just if the slice of that length is equal to it up to
case. -/
theorem exists_front_iff :
    (∃ front rest, as = front ++ rest ∧ front.map lower = sought.map lower) ↔
      sought.length ≤ as.length ∧ (as.take sought.length).map lower = sought.map lower := by
  constructor
  · rintro ⟨front, rest, rfl, hsame⟩
    have hlength : front.length = sought.length := by simpa using congrArg List.length hsame
    rw [← hlength, List.take_left, List.length_append]
    exact ⟨Nat.le_add_right _ _, hsame⟩
  · rintro ⟨-, hsame⟩
    exact ⟨_, _, (List.take_append_drop sought.length as).symm, hsame⟩

/-- A list ends with another one up to case just if the slice of that length is equal to it up to
case. -/
theorem exists_back_iff :
    (∃ front back, as = front ++ back ∧ back.map lower = sought.map lower) ↔
      sought.length ≤ as.length ∧
        (as.drop (as.length - sought.length)).map lower = sought.map lower := by
  constructor
  · rintro ⟨front, back, rfl, hsame⟩
    have hlength : back.length = sought.length := by simpa using congrArg List.length hsame
    rw [← hlength, List.length_append, Nat.add_sub_cancel, List.drop_left]
    exact ⟨Nat.le_add_left _ _, hsame⟩
  · rintro ⟨-, hsame⟩
    exact ⟨_, _, (List.take_append_drop _ as).symm, hsame⟩

end

theorem opensWith_iff {t opening : Text} :
    opensWith t opening = true ↔
      ∃ front rest, t = front ++ rest ∧ Text.sameIgnoringCase front opening = true := by
  simp only [opensWith, Bool.and_eq_true, decide_eq_true_eq, Text.sameIgnoringCase, beq_iff_eq]
  exact (exists_front_iff Char.toLower t opening).symm

theorem endsWith_iff {t ending : Text} :
    endsWith t ending = true ↔
      ∃ front back, t = front ++ back ∧ Text.sameIgnoringCase back ending = true := by
  simp only [endsWith, Bool.and_eq_true, decide_eq_true_eq, Text.sameIgnoringCase, beq_iff_eq]
  exact (exists_back_iff Char.toLower t ending).symm

theorem stemFires_iff {name : Text} :
    stemFires name = true ↔ ∃ stem ext, name = stem ++ '.' :: ext ∧ ext ≠ [] ∧ '.' ∉ ext ∧
      ∃ ending ∈ stemEndings, endsWith stem ending = true := by
  constructor
  · intro hfires
    by_cases hdot : '.' ∈ name
    · obtain ⟨stem, ext, rfl, hext⟩ := exists_split_at_last hdot
      rw [stemFires, splitAtLast_append_cons (by decide) (beq_eq_false_of_notMem hext)] at hfires
      simp only [Bool.and_eq_true, Bool.not_eq_true', List.any_eq_true] at hfires
      exact ⟨stem, ext, rfl, by simpa using hfires.1, hext, hfires.2⟩
    · rw [stemFires, splitAtLast_eq_none_iff.mpr (beq_eq_false_of_notMem hdot)] at hfires
      cases hfires
  · rintro ⟨stem, ext, rfl, hne, hext, hending⟩
    rw [stemFires, splitAtLast_append_cons (by decide) (beq_eq_false_of_notMem hext)]
    simpa [hne] using hending

theorem opensWith_decode_iff (name : Bytes) {opening : Text} (hascii : opening.IsAscii) :
    opensWith (Utf8.decode name) opening = true ↔
      ∃ front rest, name = front ++ rest ∧ SameUpToCase front (Utf8.encode opening) := by
  rw [opensWith_iff, Utf8.begins_decode_iff hascii]

theorem endsWith_decode_iff (stem : Bytes) {ending : Text} (hascii : ending.IsAscii) :
    endsWith (Utf8.decode stem) ending = true ↔
      ∃ front back, stem = front ++ back ∧ SameUpToCase back (Utf8.encode ending) := by
  rw [endsWith_iff, Utf8.ends_decode_iff hascii]

theorem exists_ending_decode_iff (stem : Bytes) :
    (∃ ending ∈ stemEndings, endsWith (Utf8.decode stem) ending = true) ↔
      ∃ ending ∈ tellingEndings, ∃ front back, stem = front ++ back ∧
        SameUpToCase back (Utf8.encode ending.toList) := by
  have hsame : stemEndings = tellingEndings.map String.toList := rfl
  rw [hsame]
  simp only [List.mem_map, exists_exists_and_eq_and]
  apply exists_congr
  intro ending
  apply and_congr_right
  intro hmem
  exact endsWith_decode_iff stem (stemEndings_isAscii _ (hsame ▸ List.mem_map_of_mem hmem))

/-- The last dot of a name is a byte of its own, with the bytes of the extension behind it. -/
theorem stemFires_decode_iff {name : Bytes} :
    stemFires (Utf8.decode name) = true ↔
      ∃ stem ext, name = stem ++ 0x2E :: ext ∧ ext ≠ [] ∧ 0x2E ∉ ext ∧
        ∃ ending ∈ tellingEndings, ∃ front back, stem = front ++ back ∧
          SameUpToCase back (Utf8.encode ending.toList) := by
  have hdot : '.'.toNat < 128 := by decide
  rw [stemFires_iff]
  constructor
  · rintro ⟨stem, ext, heq, hne, hext, hending⟩
    obtain ⟨front, back, hname, rfl, rfl⟩ := (Utf8.decode_eq_append_cons_iff hdot).mp heq
    refine ⟨front, back, hname, ?_, ?_, (exists_ending_decode_iff front).mp hending⟩
    · exact fun hnil => hne (Utf8.decode_eq_nil_iff.mpr hnil)
    · exact fun hmem => hext ((Utf8.mem_decode_iff hdot).mpr hmem)
  · rintro ⟨stem, ext, hname, hne, hext, hending⟩
    refine ⟨_, _, (Utf8.decode_eq_append_cons_iff hdot).mpr ⟨stem, ext, hname, rfl, rfl⟩, ?_, ?_,
      (exists_ending_decode_iff stem).mpr hending⟩
    · exact fun hnil => hne (Utf8.decode_eq_nil_iff.mp hnil)
    · exact fun hmem => hext ((Utf8.mem_decode_iff hdot).mp hmem)

/-- The rule fires on a path just if its last segment tells of a tool. -/
theorem fires_decode_iff {path name : Bytes} (h : IsLastSegment path name) :
    fires (Utf8.decode path) = true ↔ Tells name := by
  have hopening : temporaryOpening = "TemporaryGeneratedFile_".toList := rfl
  rw [fires, h.lastSegment_decode, Bool.or_eq_true,
    opensWith_decode_iff name temporaryOpening_isAscii, stemFires_decode_iff, hopening, Tells]

theorem fires_iff_namesGenerated {path : Bytes} :
    fires (Utf8.decode path) = true ↔ NamesGenerated path := by
  constructor
  · intro hfires
    obtain ⟨name, hname⟩ := exists_isLastSegment path
    exact ⟨name, hname, (fires_decode_iff hname).mp hfires⟩
  · rintro ⟨name, hname, htells⟩
    exact (fires_decode_iff hname).mpr htells

/-- A folder in front is not part of the last segment. -/
theorem IsLastSegment.inFolder {path name : Bytes} (h : IsLastSegment path name) (folder : Bytes)
    {slash : UInt8} (hslash : IsSlash slash) : IsLastSegment (folder ++ slash :: path) name := by
  obtain ⟨hfree, rfl | ⟨inner, slash', hslash', rfl⟩⟩ := h
  · exact ⟨hfree, Or.inr ⟨folder, slash, hslash, rfl⟩⟩
  · exact ⟨hfree, Or.inr ⟨folder ++ slash :: inner, slash', hslash', by simp⟩⟩

section

variable {path path' name name' : Bytes}

theorem IsLastSegment.exists_sameUpToCase (h : IsLastSegment path name)
    (hsame : SameUpToCase path path') :
    ∃ name', IsLastSegment path' name' ∧ SameUpToCase name name' := by
  have hfree : ∀ {name' : Bytes}, SameUpToCase name name' → ∀ b ∈ name', ¬IsSlash b := by
    rintro name' hname b hb (rfl | rfl)
    · exact h.1 _ ((hname.mem_iff (by decide) (by decide)).mpr hb) (Or.inl rfl)
    · exact h.1 _ ((hname.mem_iff (by decide) (by decide)).mpr hb) (Or.inr rfl)
  rcases h.2 with rfl | ⟨folder, slash, hslash, rfl⟩
  · exact ⟨path', ⟨hfree hsame, Or.inl rfl⟩, hsame⟩
  · obtain ⟨folder', rest, rfl, -, hrest⟩ := hsame.exists_append
    obtain ⟨slash', name', rfl, hlower, hname⟩ := hrest.exists_cons
    refine ⟨name', ⟨hfree hname, Or.inr ⟨folder', slash', ?_, rfl⟩⟩, hname⟩
    rcases hslash with rfl | rfl
    · exact Or.inl (eq_of_lowerByte_eq (by decide) (by decide) hlower)
    · exact Or.inr (eq_of_lowerByte_eq (by decide) (by decide) hlower)

theorem Tells.of_sameUpToCase (h : Tells name) (hsame : SameUpToCase name name') : Tells name' := by
  rcases h with ⟨front, rest, rfl, hfront⟩ |
    ⟨stem, ext, rfl, hne, hext, ending, hending, front, back, rfl, hback⟩
  · obtain ⟨front', rest', rfl, hfront', -⟩ := hsame.exists_append
    exact Or.inl ⟨front', rest', rfl, hfront'.symm.trans hfront⟩
  · obtain ⟨stem', rest, rfl, hstem, hrest⟩ := hsame.exists_append
    obtain ⟨sign, ext', rfl, hlower, hext'⟩ := hrest.exists_cons
    obtain ⟨front', back', rfl, -, hback'⟩ := hstem.exists_append
    rw [eq_of_lowerByte_eq (by decide) (by decide) hlower]
    refine Or.inr ⟨_, ext', rfl, ?_, ?_, ending, hending, front', back', rfl,
      hback'.symm.trans hback⟩
    · rintro rfl
      exact hne (List.length_eq_zero_iff.mp hext'.length_eq)
    · exact fun hmem => hext ((hext'.mem_iff (by decide) (by decide)).mpr hmem)

theorem NamesGenerated.of_sameUpToCase (h : NamesGenerated path) (hsame : SameUpToCase path path') :
    NamesGenerated path' := by
  obtain ⟨name, hname, htells⟩ := h
  obtain ⟨name', hname', hsame'⟩ := hname.exists_sameUpToCase hsame
  exact ⟨name', hname', htells.of_sameUpToCase hsame'⟩

end

/-- The first bytes; a slice of more bytes than there are is out of range. -/
def firstSlice? (n : Nat) (bs : Bytes) : Option Bytes :=
  if n ≤ bs.length then some (bs.take n) else none

/-- The last bytes; a slice of more bytes than there are is out of range. -/
def lastSlice? (n : Nat) (bs : Bytes) : Option Bytes :=
  if n ≤ bs.length then some (bs.drop (bs.length - n)) else none

/-- Whether two slices are equal up to ASCII case. -/
def sameSlices (as bs : Bytes) : Bool :=
  as.map lowerByte == bs.map lowerByte

/-- Whether bytes begin with others, by a slice of them; nothing if the slice is out of range. -/
def opensWithSlice? (bs opening : Bytes) : Option Bool :=
  if opening.length ≤ bs.length then
    (firstSlice? opening.length bs).map fun front => sameSlices front opening
  else some false

/-- Whether bytes end with others, by a slice of them; nothing if the slice is out of range. -/
def endsWithSlice? (bs ending : Bytes) : Option Bool :=
  if ending.length ≤ bs.length then
    (lastSlice? ending.length bs).map fun back => sameSlices back ending
  else some false

/-- The rule for stems as it is evaluated on the bytes of a name. -/
def stemFiresBySlices? (name : Bytes) : Option Bool :=
  match splitAtLast (· == 0x2E) name with
  | none => some false
  | some (stem, ext) =>
    if ext = [] then some false
    else stemEndings.anyM fun ending => endsWithSlice? stem (Utf8.encode ending)

/-- The rule as it is evaluated on the bytes of a path, ending in nothing as soon as a slice is out
of range. -/
def firesBySlices? (path : Bytes) : Option Bool := do
  let name := afterLast (fun b => b == 0x2F || b == 0x5C) path
  if ← opensWithSlice? name (Utf8.encode temporaryOpening) then pure true
  else stemFiresBySlices? name

theorem opensWithSlice?_eq {name : Bytes} {opening : Text} (hascii : opening.IsAscii) :
    opensWithSlice? name (Utf8.encode opening) = some (opensWith (Utf8.decode name) opening) := by
  have hfires := (opensWith_decode_iff name hascii).trans (exists_front_iff lowerByte name _)
  rw [opensWithSlice?]
  split
  · next hle =>
    rw [firstSlice?, if_pos hle, Option.map_some, Option.some.injEq, Bool.eq_iff_iff, hfires,
      sameSlices, beq_iff_eq]
    exact (and_iff_right hle).symm
  · next hle => rw [Bool.eq_false_iff.mpr fun h => hle (hfires.mp h).1]

theorem endsWithSlice?_eq {stem : Bytes} {ending : Text} (hascii : ending.IsAscii) :
    endsWithSlice? stem (Utf8.encode ending) = some (endsWith (Utf8.decode stem) ending) := by
  have hfires := (endsWith_decode_iff stem hascii).trans (exists_back_iff lowerByte stem _)
  rw [endsWithSlice?]
  split
  · next hle =>
    rw [lastSlice?, if_pos hle, Option.map_some, Option.some.injEq, Bool.eq_iff_iff, hfires,
      sameSlices, beq_iff_eq]
    exact (and_iff_right hle).symm
  · next hle => rw [Bool.eq_false_iff.mpr fun h => hle (hfires.mp h).1]

theorem anyM_eq_some {α : Type} {as : List α} {p : α → Option Bool} {q : α → Bool}
    (h : ∀ a ∈ as, p a = some (q a)) : as.anyM p = some (as.any q) := by
  induction as with
  | nil => rfl
  | cons a as ih =>
    rw [List.anyM_cons, h a List.mem_cons_self, List.any_cons]
    cases hq : q a with
    | true => rfl
    | false => simpa using ih fun b hb => h b (List.mem_cons_of_mem _ hb)

theorem stemFiresBySlices?_eq (name : Bytes) :
    stemFiresBySlices? name = some (stemFires (Utf8.decode name)) := by
  have hfree : ∀ {ext : Bytes}, 0x2E ∉ ext → '.' ∉ Utf8.decode ext :=
    fun hext hmem => hext ((Utf8.mem_decode_iff (by decide)).mp hmem)
  by_cases hdot : 0x2E ∈ name
  · obtain ⟨stem, ext, rfl, hext⟩ := exists_split_at_last hdot
    rw [stemFiresBySlices?, splitAtLast_append_cons (by decide) (beq_eq_false_of_notMem hext),
      Utf8.decode_append_ascii stem ext (by decide), stemFires,
      splitAtLast_append_cons (by decide) (beq_eq_false_of_notMem (hfree hext))]
    by_cases hnil : ext = []
    · subst hnil
      rfl
    · have hne : Utf8.decode ext ≠ [] := fun h => hnil (Utf8.decode_eq_nil_iff.mp h)
      simp only [if_neg hnil]
      rw [anyM_eq_some fun ending hending => endsWithSlice?_eq (stemEndings_isAscii ending hending)]
      simp [hne]
  · rw [stemFiresBySlices?, splitAtLast_eq_none_iff.mpr (beq_eq_false_of_notMem hdot), stemFires,
      splitAtLast_eq_none_iff.mpr (beq_eq_false_of_notMem (hfree hdot))]

theorem IsLastSegment.afterLast_eq {path name : Bytes} (h : IsLastSegment path name) :
    afterLast (fun b => b == 0x2F || b == 0x5C) path = name := by
  have hfree : ∀ b ∈ name, (b == 0x2F || b == 0x5C) = false := by
    intro b hb
    simpa [IsSlash] using h.1 b hb
  rcases h.2 with rfl | ⟨folder, slash, hslash, rfl⟩
  · refine Syntax.afterLast_eq_self _ ?_
    rw [List.any_eq_false]
    exact fun b hb => Bool.eq_false_iff.mp (hfree b hb)
  · refine afterLast_append_cons ?_ hfree
    simpa [IsSlash] using hslash

/-- No slice is out of range, and the slices tell what the rule tells. -/
theorem firesBySlices?_eq (path : Bytes) :
    firesBySlices? path = some (fires (Utf8.decode path)) := by
  obtain ⟨name, hname⟩ := exists_isLastSegment path
  rw [firesBySlices?, hname.afterLast_eq, fires, hname.lastSegment_decode]
  simp only [opensWithSlice?_eq temporaryOpening_isAscii, stemFiresBySlices?_eq]
  cases opensWith (Utf8.decode name) temporaryOpening with
  | true => rfl
  | false => rfl

/-- The rule for names on the bytes of any path: it fires on the decoded path just if the last
segment of the bytes tells of a tool. Evaluating it takes no slice out of range. Neither folders in
front nor the case of ASCII letters make a difference, and the bytes that decoding has replaced
neither make a path tell of a tool nor keep it from doing so. -/
theorem fires_on_bytes (path : Bytes) :
    (fires (Utf8.decode path) = true ↔ NamesGenerated path) ∧
    firesBySlices? (Utf8.encode (Utf8.decode path)) = some (fires (Utf8.decode path)) ∧
    (∀ folder slash, IsSlash slash →
      fires (Utf8.decode (folder ++ slash :: path)) = fires (Utf8.decode path)) ∧
    (∀ path', SameUpToCase path path' → fires (Utf8.decode path') = fires (Utf8.decode path)) ∧
    (NamesGenerated (Utf8.encode (Utf8.decode path)) ↔ NamesGenerated path) := by
  have hreplaced : Utf8.decode (Utf8.encode (Utf8.decode path)) = Utf8.decode path :=
    Utf8.decode_encode _
  refine ⟨fires_iff_namesGenerated, ?_, ?_, ?_, ?_⟩
  · rw [firesBySlices?_eq, hreplaced]
  · intro folder slash hslash
    obtain ⟨name, hname⟩ := exists_isLastSegment path
    rw [Bool.eq_iff_iff, fires_decode_iff hname, fires_decode_iff (hname.inFolder folder hslash)]
  · intro path' hsame
    rw [Bool.eq_iff_iff, fires_iff_namesGenerated, fires_iff_namesGenerated]
    exact ⟨fun h => h.of_sameUpToCase hsame.symm, fun h => h.of_sameUpToCase hsame⟩
  · rw [← fires_iff_namesGenerated, hreplaced, fires_iff_namesGenerated]

/-- A name with a character that is cut short and an extension that is no character. -/
def cutShort (ending : String) : Bytes :=
  0xE2 :: 0x82 :: (Utf8.encode ending.toList ++ [0xFF])

/-- The telling ending of the name is found behind the bytes that are replaced, in either case, and
in a folder whose name is no character either. -/
theorem fires_cutShort :
    NamesGenerated (cutShort ".g.i.") ∧
    IsSlash 0x5C ∧ fires (Utf8.decode ([0xC0] ++ 0x5C :: cutShort ".g.i.")) = true ∧
    SameUpToCase (cutShort ".g.i.") (cutShort ".G.i.") ∧
      fires (Utf8.decode (cutShort ".G.i.")) = true := by
  have hfires : fires (Utf8.decode (cutShort ".g.i.")) = true := by decide
  have hslash : IsSlash 0x5C := Or.inr rfl
  have hsame : SameUpToCase (cutShort ".g.i.") (cutShort ".G.i.") := by decide
  obtain ⟨htells, -, hfolder, hcase, -⟩ := fires_on_bytes (cutShort ".g.i.")
  exact ⟨htells.mp hfires, hslash, (hfolder [0xC0] 0x5C hslash).trans hfires, hsame,
    (hcase _ hsame).trans hfires⟩

end Provenance.NameRule
