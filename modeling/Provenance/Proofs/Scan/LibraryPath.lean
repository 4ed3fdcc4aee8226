import Provenance.Header.Tree
import Provenance.Proofs.Scan.Classification

/-!
A scan and a caller of the library look at a file in two ways. The caller loads it and asks for the
evidence; the scan asks for the metadata first, reads the contents by itself and may have to say why
there is no evidence to ask for. Both agree: the status of a file is what its name, its language,
loading it and the evidence tell, each asked only where the one before says nothing.
-/
namespace Provenance

/-- What a caller of the library finds out about the file at a path, put in the words of a scan. -/
inductive LibraryStatus (parser : Parser) (fs : FileSystem) (path : Path) : Status → Prop
  | named (hname : NameRule.fires path.display = true) :
    LibraryStatus parser fs path (.generated .fileName)
  | unsupported (hname : NameRule.fires path.display = false)
    (hlanguage : Language.ofPath? path = none) :
    LibraryStatus parser fs path (.skipped .unsupported)
  | failed {language : Language} {fault : Fault} (hname : NameRule.fires path.display = false)
    (hlanguage : Language.ofPath? path = some language)
    (hfault : fs.object path = .error fault ∨ SourceFile.load fs path = .error fault) :
    LibraryStatus parser fs path (.failed fault.message)
  | empty {language : Language} (hname : NameRule.fires path.display = false)
    (hlanguage : Language.ofPath? path = some language)
    (hload : SourceFile.load fs path = .ok none) (hbytes : fs.bytes path = .ok []) :
    LibraryStatus parser fs path (.skipped .empty)
  | binary {language : Language} {bytes : Bytes} (hname : NameRule.fires path.display = false)
    (hlanguage : Language.ofPath? path = some language)
    (hload : SourceFile.load fs path = .ok none) (hbytes : fs.bytes path = .ok bytes)
    (hlength : bytes ≠ []) (hzero : 0 ∈ bytes.take 512) :
    LibraryStatus parser fs path (.skipped .binary)
  | authored {language : Language} {file : SourceFile}
    (hname : NameRule.fires path.display = false)
    (hlanguage : Language.ofPath? path = some language)
    (hload : SourceFile.load fs path = .ok (some file))
    (hdetect : ((file.detect parser).run .never).1 = .ok none) :
    LibraryStatus parser fs path .authored
  | marked {language : Language} {file : SourceFile} {m : Text}
    (hname : NameRule.fires path.display = false)
    (hlanguage : Language.ofPath? path = some language)
    (hload : SourceFile.load fs path = .ok (some file))
    (hdetect : ((file.detect parser).run .never).1 = .ok (some (.marker m))) :
    LibraryStatus parser fs path (.generated (.marker m))

namespace Scan

section

variable {parser : Parser} {fs : FileSystem} {path : Path}

theorem load_eq (fs : FileSystem) (path : Path) :
    SourceFile.load fs path = (Contents.read fs path).map fun contents =>
      match contents with
      | .text t => some ⟨path, t⟩
      | .empty | .binary => none := by
  rw [SourceFile.load]
  cases Contents.read fs path with
  | error fault => rfl
  | ok contents => cases contents <;> rfl

/-- Loading fails where reading does. -/
theorem load_eq_error_iff {fault : Fault} :
    SourceFile.load fs path = .error fault ↔ Contents.read fs path = .error fault := by
  rw [load_eq]
  cases Contents.read fs path with
  | error other => simp [Except.map]
  | ok contents => simp [Except.map]

theorem load_eq_some_iff {file : SourceFile} :
    SourceFile.load fs path = .ok (some file) ↔
      Contents.read fs path = .ok (.text file.text) ∧ file.path = path := by
  rw [load_eq]
  obtain ⟨place, text⟩ := file
  cases Contents.read fs path with
  | error other => simp [Except.map]
  | ok contents =>
    cases contents with
    | empty => simp [Except.map]
    | binary => simp [Except.map]
    | text t => simp [Except.map, and_comm, eq_comm]

theorem load_eq_none_iff :
    SourceFile.load fs path = .ok none ↔
      Contents.read fs path = .ok .empty ∨ Contents.read fs path = .ok .binary := by
  rw [load_eq]
  cases Contents.read fs path with
  | error other => simp [Except.map]
  | ok contents => cases contents <;> simp [Except.map]

theorem read_of_bytes {bytes : Bytes} (hbytes : fs.bytes path = .ok bytes) :
    Contents.read fs path = .ok (Contents.ofBytes bytes) := by
  rw [Contents.read, hbytes]
  rfl

theorem exists_bytes_of_read {contents : Contents} (hread : Contents.read fs path = .ok contents) :
    ∃ bytes, fs.bytes path = .ok bytes ∧ contents = Contents.ofBytes bytes := by
  rw [Contents.read] at hread
  cases hbytes : fs.bytes path with
  | error fault =>
    rw [hbytes] at hread
    cases hread
  | ok bytes =>
    rw [hbytes] at hread
    exact ⟨bytes, rfl, (Except.ok.inj hread).symm⟩

theorem ofBytes_eq_empty_iff {bytes : Bytes} : Contents.ofBytes bytes = .empty ↔ bytes = [] := by
  unfold Contents.ofBytes
  by_cases hnil : bytes = []
  · simp [hnil]
  · rw [if_neg hnil]
    split <;> simp [hnil]

theorem ofBytes_eq_binary_iff {bytes : Bytes} :
    Contents.ofBytes bytes = .binary ↔ bytes ≠ [] ∧ 0 ∈ bytes.take 512 := by
  unfold Contents.ofBytes
  by_cases hnil : bytes = []
  · simp [hnil]
  · rw [if_neg hnil]
    by_cases hzero : isBinary bytes = true
    · rw [if_pos hzero]
      simpa [isBinary, binaryWindow, hnil] using hzero
    · rw [if_neg hzero]
      simpa [isBinary, binaryWindow, hnil] using hzero

/-- Under a signal that never fires the look at contents is a function of what reading gives and of
the evidence in the text. -/
theorem freshStatus_eq_of_read (hpath : settledByName? path = none) :
    freshStatus parser fs path =
      match Contents.read fs path with
      | .error fault => Status.ofResult (.error fault)
      | .ok .empty => .skipped .empty
      | .ok .binary => .skipped .binary
      | .ok (.text t) =>
        match (SourceFile.detect parser ⟨path, t⟩ |>.run .never).1 with
        | .error fault => Status.ofResult (.error fault)
        | .ok (some evidence) => .generated evidence
        | .ok none => .authored := by
  rw [freshStatus_eq hpath, classifyContents, run_bind, settles_poll.run_never]
  cases Contents.read fs path with
  | error fault => rfl
  | ok contents =>
    cases contents with
    | empty => rfl
    | binary => rfl
    | text t =>
      simp only [run_bind]
      cases (SourceFile.detect parser ⟨path, t⟩).run .never with
      | mk result rest =>
        cases result with
        | error fault => rfl
        | ok evidence => cases evidence <;> rfl

theorem status_of_fault {fault : Fault} (h : fault ≠ .cancelled) :
    Status.ofResult (.error fault) = .failed fault.message := by
  cases fault with
  | cancelled => exact absurd rfl h
  | notFound path => rfl
  | permissionDenied path => rfl
  | io path cause => rfl
  | invalidPattern pattern reason => rfl

/-- Whatever the caller of the library finds out is what the scan reports. -/
theorem freshStatus_of_libraryStatus {status : Status} (h : LibraryStatus parser fs path status) :
    freshStatus parser fs path = status := by
  have hnone : ∀ {language : Language}, NameRule.fires path.display = false →
      Language.ofPath? path = some language → settledByName? path = none :=
    fun hname hlanguage => settledByName?_eq_none_iff.mpr ⟨hname, _, hlanguage⟩
  cases h with
  | named hname => exact freshStatus_of_settled fs (settledByName?_of_named hname)
  | unsupported hname hlanguage =>
    exact freshStatus_of_settled fs (settledByName?_of_unsupported hname hlanguage)
  | @failed language fault hname hlanguage hfault =>
    have hread : Contents.read fs path = .error fault := by
      rcases hfault with hobject | hload
      · exact read_of_object hobject
      · exact load_eq_error_iff.mp hload
    rw [freshStatus_eq_of_read (hnone hname hlanguage), hread]
    refine status_of_fault ?_
    rintro rfl
    exact read_ne_cancelled fs path hread
  | empty hname hlanguage hload hbytes =>
    rw [freshStatus_eq_of_read (hnone hname hlanguage), read_of_bytes hbytes]
    rfl
  | binary hname hlanguage hload hbytes hlength hzero =>
    have hread := read_of_bytes hbytes
    rw [ofBytes_eq_binary_iff.mpr ⟨hlength, hzero⟩] at hread
    rw [freshStatus_eq_of_read (hnone hname hlanguage), hread]
  | @authored language file hname hlanguage hload hdetect =>
    obtain ⟨hread, rfl⟩ := load_eq_some_iff.mp hload
    rw [freshStatus_eq_of_read (hnone hname hlanguage), hread]
    simp only [hdetect]
  | @marked language file m hname hlanguage hload hdetect =>
    obtain ⟨hread, rfl⟩ := load_eq_some_iff.mp hload
    rw [freshStatus_eq_of_read (hnone hname hlanguage), hread]
    simp only [hdetect]

/-- The evidence in a loaded file whose name says nothing is a marker that is known, if any. -/
theorem detect_of_load (parser : Parser) {file : SourceFile}
    (hname : NameRule.fires path.display = false)
    (hload : SourceFile.load fs path = .ok (some file)) :
    ((file.detect parser).run .never).1 = .ok none ∨
      ∃ m ∈ Marker.known, ((file.detect parser).run .never).1 = .ok (some (.marker m)) := by
  obtain ⟨-, rfl⟩ := load_eq_some_iff.mp hload
  obtain ⟨polls, marker, hsettles, hknown⟩ := SourceFile.exists_settles_detect parser hname
  rw [hsettles.run_never]
  cases marker with
  | none => exact Or.inl rfl
  | some m => exact Or.inr ⟨m, hknown m rfl, rfl⟩

/-- The caller of the library always finds something out. -/
theorem exists_libraryStatus (parser : Parser) (fs : FileSystem) (path : Path) :
    ∃ status, LibraryStatus parser fs path status := by
  cases hname : NameRule.fires path.display with
  | true => exact ⟨_, .named hname⟩
  | false =>
    cases hlanguage : Language.ofPath? path with
    | none => exact ⟨_, .unsupported hname hlanguage⟩
    | some language =>
      cases hread : Contents.read fs path with
      | error fault =>
        exact ⟨_, .failed hname hlanguage (Or.inr (load_eq_error_iff.mpr hread))⟩
      | ok contents =>
        obtain ⟨bytes, hbytes, hcontents⟩ := exists_bytes_of_read hread
        cases contents with
        | empty =>
          rw [ofBytes_eq_empty_iff.mp hcontents.symm] at hbytes
          exact ⟨_, .empty hname hlanguage (load_eq_none_iff.mpr (Or.inl hread)) hbytes⟩
        | binary =>
          obtain ⟨hlength, hzero⟩ := ofBytes_eq_binary_iff.mp hcontents.symm
          exact ⟨_, .binary hname hlanguage (load_eq_none_iff.mpr (Or.inr hread)) hbytes hlength
            hzero⟩
        | text t =>
          have hload := load_eq_some_iff.mpr
            (show _ ∧ (SourceFile.mk path t).path = path from ⟨hread, rfl⟩)
          rcases detect_of_load parser hname hload with hdetect | ⟨m, -, hdetect⟩
          · exact ⟨_, .authored hname hlanguage hload hdetect⟩
          · exact ⟨_, .marked hname hlanguage hload hdetect⟩

theorem libraryStatus_iff {status : Status} :
    freshStatus parser fs path = status ↔ LibraryStatus parser fs path status := by
  constructor
  · intro h
    obtain ⟨other, hother⟩ := exists_libraryStatus parser fs path
    rw [← h, freshStatus_of_libraryStatus hother]
    exact hother
  · exact freshStatus_of_libraryStatus

/-- Nothing comes of loading exactly when the file is skipped for its contents. -/
theorem load_eq_none_iff_skipped {language : Language}
    (hname : NameRule.fires path.display = false)
    (hlanguage : Language.ofPath? path = some language) :
    SourceFile.load fs path = .ok none ↔
      freshStatus parser fs path = .skipped .empty ∨ freshStatus parser fs path = .skipped .binary := by
  constructor
  · intro hload
    obtain ⟨status, hstatus⟩ := exists_libraryStatus parser fs path
    have hpath := settledByName?_eq_none_iff.mpr ⟨hname, language, hlanguage⟩
    rw [freshStatus_eq_of_read hpath]
    rcases load_eq_none_iff.mp hload with hread | hread
    · exact Or.inl (by rw [hread])
    · exact Or.inr (by rw [hread])
  · rintro (h | h)
    · cases libraryStatus_iff.mp h with
      | empty hname hlanguage hload hbytes => exact hload
    · cases libraryStatus_iff.mp h with
      | binary hname hlanguage hload hbytes hlength hzero => exact hload

/-- For every path and file system, the status of a file without a cache and without cancellation is
the one that the library tells, and it is unique; the file is skipped for its contents exactly when
loading it gives nothing, and otherwise the evidence is a known marker or there is none. -/
theorem classify_agrees_with_library (parser : Parser) (fs : FileSystem) (path : Path) :
    (∀ status, ((classify parser fs path).run (Cache.empty, .never)).1 = status ↔
      LibraryStatus parser fs path status) ∧
    (NameRule.fires path.display = false → Language.ofPath? path ≠ none →
      ((SourceFile.load fs path = .ok none ↔
        ((classify parser fs path).run (Cache.empty, .never)).1 = .skipped .empty ∨
        ((classify parser fs path).run (Cache.empty, .never)).1 = .skipped .binary) ∧
      ∀ file, SourceFile.load fs path = .ok (some file) →
        ((file.detect parser).run .never).1 = .ok none ∨
          ∃ m ∈ Marker.known, ((file.detect parser).run .never).1 = .ok (some (.marker m)))) := by
  refine ⟨fun status => libraryStatus_iff, ?_⟩
  intro hname hlanguage
  obtain ⟨language, hsome⟩ := Option.ne_none_iff_exists'.mp hlanguage
  exact ⟨load_eq_none_iff_skipped hname hsome, fun file hload => detect_of_load parser hname hload⟩

end

/-- Every path leads to the same small file. -/
def bracesEverywhere : FileSystem := fun _ => .ok (.file ⟨0⟩ (.ok [0x7B, 0x7D]))

theorem detect_bracesEverywhere :
    NameRule.fires (Path.ofText "src/A.cs".toList).display = false ∧
      Language.ofPath? (.ofText "src/A.cs".toList) ≠ none ∧
      SourceFile.load bracesEverywhere (.ofText "src/A.cs".toList) =
        .ok (some ⟨.ofText "src/A.cs".toList, "{}".toList⟩) ∧
      ((SourceFile.detect Header.parser ⟨.ofText "src/A.cs".toList, "{}".toList⟩ |>.run .never).1 =
          .ok none ∨
        ∃ m ∈ Marker.known,
          (SourceFile.detect Header.parser ⟨.ofText "src/A.cs".toList, "{}".toList⟩ |>.run .never).1 =
            .ok (some (.marker m))) := by
  have hname : NameRule.fires (Path.ofText "src/A.cs".toList).display = false := by decide
  have hlanguage : Language.ofPath? (.ofText "src/A.cs".toList) ≠ none := by decide
  have hload : SourceFile.load bracesEverywhere (.ofText "src/A.cs".toList) =
      .ok (some ⟨.ofText "src/A.cs".toList, "{}".toList⟩) := by decide
  exact ⟨hname, hlanguage, hload,
    ((classify_agrees_with_library Header.parser _ _).2 hname hlanguage).2 _ hload⟩

end Scan

end Provenance
