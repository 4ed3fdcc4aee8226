import Provenance.Proofs.Syntax.CursorWalk
import Provenance.Scan.Classification

/-!
What a classification does, in one equation. The leading trivia of a file settle whatever its text is,
and so does the look at its contents; with a signal that never fires this look has a verdict on every
file that can be read.
-/
namespace Provenance

variable {parser : Parser}

namespace SourceFile

/-- The leading trivia are the same with every signal that lets them be found. -/
theorem exists_settles_leadingTrivia (parser : Parser) (file : SourceFile) :
    ∃ polls trivia, Settles (file.leadingTrivia parser) polls (.ok trivia) := by
  unfold leadingTrivia
  cases file.language? with
  | none => exact ⟨0, none, settles_pure none⟩
  | some language =>
    cases hparse : SyntaxTree.parse parser file.text language with
    | none =>
      refine ⟨1 + 0, none, settles_bind settles_poll ?_⟩
      simp only [hparse]
      exact settles_pure none
    | some tree =>
      obtain ⟨polls, -, hsettles⟩ := @Syntax.settles_walk tree.source tree.language
        (.ofRoot tree.root) .none
      refine ⟨1 + (1 + polls), Syntax.scan tree.source tree.language .none
        (Syntax.Cursor.ofRoot tree.root).remaining, settles_bind settles_poll ?_⟩
      simp only [hparse]
      exact settles_bind settles_poll hsettles

/-- So is the marker among them, which is one of those that are known. -/
theorem exists_settles_findMarker (parser : Parser) (file : SourceFile) :
    ∃ polls marker, Settles (Detection.findMarker (file.leadingTrivia parser)) polls (.ok marker) ∧
      ∀ m, marker = some m → m ∈ Marker.known := by
  obtain ⟨polls, trivia, hsettles⟩ := file.exists_settles_leadingTrivia parser
  refine ⟨polls + 0, trivia.bind Marker.find?, ?_, ?_⟩
  · refine settles_bind hsettles ?_
    cases trivia with
    | none => exact settles_pure none
    | some items => exact settles_pure (Marker.find? items)
  · intro m hm
    cases trivia with
    | none => cases hm
    | some items =>
      obtain ⟨candidate, -, hfound⟩ := List.exists_of_findSome?_eq_some hm
      exact List.mem_of_find?_eq_some hfound

/-- Where the name says nothing, only a marker is evidence. -/
theorem exists_settles_detect (parser : Parser) {file : SourceFile}
    (hname : NameRule.fires file.name = false) :
    ∃ polls marker, Settles (file.detect parser) polls (.ok (marker.map Evidence.marker)) ∧
      ∀ m, marker = some m → m ∈ Marker.known := by
  obtain ⟨polls, marker, hmarker, hknown⟩ := file.exists_settles_findMarker parser
  refine ⟨polls + 0, marker, ?_, hknown⟩
  rw [detect, Detection.detect, hname]
  exact settles_bind hmarker (settles_pure _)

end SourceFile

namespace Scan

open Cache

theorem settledByName?_of_named {path : Path} (hname : NameRule.fires path.display = true) :
    settledByName? path = some (.generated .fileName) := by
  rw [settledByName?, if_pos hname]

theorem settledByName?_of_unsupported {path : Path} (hname : NameRule.fires path.display = false)
    (hlanguage : Language.ofPath? path = none) :
    settledByName? path = some (.skipped .unsupported) := by
  simp [settledByName?, hname, hlanguage]

/-- The path settles nothing exactly when the name says nothing and the language is known. -/
theorem settledByName?_eq_none_iff {path : Path} :
    settledByName? path = none ↔
      NameRule.fires path.display = false ∧ ∃ language, Language.ofPath? path = some language := by
  unfold settledByName?
  cases NameRule.fires path.display with
  | true => simp
  | false =>
    cases Language.ofPath? path with
    | none => simp
    | some language => simp

theorem ofObstacle_ne_cancelled (path : Path) (obstacle : Obstacle) :
    Fault.ofObstacle path obstacle ≠ .cancelled := by
  intro h
  cases obstacle <;> cases h

theorem object_ne_cancelled (fs : FileSystem) (path : Path) :
    fs.object path ≠ .error .cancelled := by
  intro h
  unfold FileSystem.object at h
  cases hfs : fs path with
  | error obstacle =>
    rw [hfs] at h
    exact ofObstacle_ne_cancelled path obstacle (Except.error.inj h)
  | ok object =>
    rw [hfs] at h
    cases h

/-- What has no object has no contents either, and for the same reason. -/
theorem read_of_object {fs : FileSystem} {path : Path} {fault : Fault}
    (h : fs.object path = .error fault) : Contents.read fs path = .error fault := by
  rw [Contents.read, FileSystem.bytes, h]
  rfl

/-- Reading ends for reasons of the file system only. -/
theorem read_ne_cancelled (fs : FileSystem) (path : Path) :
    Contents.read fs path ≠ .error .cancelled := by
  intro h
  unfold Contents.read FileSystem.bytes at h
  cases hobject : fs.object path with
  | error fault =>
    rw [hobject] at h
    have hfault : fault = .cancelled := Except.error.inj h
    exact object_ne_cancelled fs path (hfault ▸ hobject)
  | ok object =>
    rw [hobject] at h
    cases object with
    | directory modified entries => exact ofObstacle_ne_cancelled path _ (Except.error.inj h)
    | file modified content =>
      cases content with
      | error obstacle => exact ofObstacle_ne_cancelled path obstacle (Except.error.inj h)
      | ok bytes => cases h

/-- The look at contents polls before it does anything else, and leaves nothing unknown unless the
signal makes it. -/
theorem exists_settles_classifyContents (parser : Parser) (fs : FileSystem) (path : Path)
    (hname : NameRule.fires path.display = false) :
    ∃ polls result, Settles (classifyContents parser fs path) (1 + polls) result ∧
      Status.ofResult result ≠ .unknown := by
  unfold classifyContents
  cases hread : Contents.read fs path with
  | error fault =>
    refine ⟨0, .error fault, settles_bind settles_poll (settles_throw fault), ?_⟩
    intro hunknown
    cases fault with
    | cancelled => exact read_ne_cancelled fs path hread
    | notFound path => cases hunknown
    | permissionDenied path => cases hunknown
    | io path cause => cases hunknown
    | invalidPattern pattern reason => cases hunknown
  | ok contents =>
    cases contents with
    | empty => exact ⟨0, _, settles_bind settles_poll (settles_pure _), nofun⟩
    | binary => exact ⟨0, _, settles_bind settles_poll (settles_pure _), nofun⟩
    | text t =>
      obtain ⟨polls, marker, hdetect, -⟩ := @SourceFile.exists_settles_detect parser ⟨path, t⟩ hname
      cases marker with
      | none =>
        exact ⟨polls + 0, .ok .authored,
          settles_bind settles_poll (settles_bind hdetect (settles_pure _)), nofun⟩
      | some m =>
        exact ⟨polls + 0, .ok (.generated (.marker m)),
          settles_bind settles_poll (settles_bind hdetect (settles_pure _)), nofun⟩

/-- The verdict on contents depends on the path only through the language. -/
theorem classifyContents_congr {fs fs' : FileSystem} {path path' : Path} {contents : Contents}
    (hname : NameRule.fires path.display = false) (hname' : NameRule.fires path'.display = false)
    (hlanguage : Language.ofPath? path = Language.ofPath? path')
    (hread : Contents.read fs path = .ok contents)
    (hread' : Contents.read fs' path' = .ok contents) :
    classifyContents parser fs path = classifyContents parser fs' path' := by
  have hdetect : ∀ t : Text,
      SourceFile.detect parser ⟨path, t⟩ = SourceFile.detect parser ⟨path', t⟩ := by
    intro t
    simp only [SourceFile.detect, Detection.detect, SourceFile.name, hname, hname',
      SourceFile.leadingTrivia, SourceFile.language?, hlanguage]
  unfold classifyContents
  rw [hread, hread']
  cases contents with
  | empty => rfl
  | binary => rfl
  | text t => simp only [hdetect t]

theorem run_getOrCompute {σ : Type} (key : Key) (compute : Caching σ Status) (cache : Cache)
    (rest : σ) :
    (getOrCompute key compute).run (cache, rest) =
      match cache.find? key with
      | some hit => (.ok hit, cache, rest)
      | none =>
        match compute.run (cache, rest) with
        | (.error fault, state) => (.error fault, state)
        | (.ok status, cache, rest) =>
          (.ok (cache.insertNew key status).1, (cache.insertNew key status).2, rest) := by
  have hget : (get : Caching σ (Cache × σ)).run (cache, rest) = (.ok (cache, rest), cache, rest) := rfl
  rw [getOrCompute, run_bind, hget]
  cases hfind : cache.find? key with
  | some hit =>
    simp only [hfind]
    rfl
  | none =>
    simp only [hfind]
    rw [run_bind]
    cases compute.run (cache, rest) with
    | mk result state => cases result <;> rfl

theorem run_besideCache {α : Type} (work : Polled α) (cache : Cache) (signal : Signal) :
    (besideCache work).run (cache, signal) =
      ((work.run signal).1, cache, (work.run signal).2) := by
  have hget : (get : Caching Signal (Cache × Signal)).run (cache, signal) =
      (.ok (cache, signal), cache, signal) := rfl
  rw [besideCache, run_bind, hget]
  simp only []
  cases work.run signal with
  | mk result rest => cases result <;> rfl

/-- A classification that the path does not settle: metadata first, then the cache, then the look at
the contents, whose verdict is stored and whose fault is not. -/
theorem run_classify {path : Path} (hpath : settledByName? path = none) (fs : FileSystem)
    (cache : Cache) (signal : Signal) :
    (classify parser fs path).run (cache, signal) =
      match fs.object path with
      | .error fault => (Status.ofResult (.error fault), cache, signal)
      | .ok object =>
        match cache.find? (Key.of path object.modified) with
        | some hit => (hit, cache, signal)
        | none =>
          match (classifyContents parser fs path).run signal with
          | (.error fault, rest) => (Status.ofResult (.error fault), cache, rest)
          | (.ok status, rest) =>
            ((cache.insertNew (Key.of path object.modified) status).1,
              (cache.insertNew (Key.of path object.modified) status).2, rest) := by
  rw [classify, hpath]
  cases hobject : fs.object path with
  | error fault =>
    simp only [lookInto, hobject]
    rfl
  | ok object =>
    simp only [lookInto, hobject]
    change ((fun r => (Status.ofResult r.1, r.2))
      ((getOrCompute (Key.of path object.modified)
        (besideCache (classifyContents parser fs path))).run (cache, signal))) = _
    rw [run_getOrCompute]
    cases cache.find? (Key.of path object.modified) with
    | some hit => rfl
    | none =>
      rw [run_besideCache]
      cases (classifyContents parser fs path).run signal with
      | mk result rest => cases result <;> rfl

/-- The status that a file gets without a cache and without cancellation. -/
def freshStatus (parser : Parser) (fs : FileSystem) (path : Path) : Status :=
  ((classify parser fs path).run (Cache.empty, .never)).1

theorem freshStatus_of_settled {path : Path} {status : Status} (fs : FileSystem)
    (hpath : settledByName? path = some status) : freshStatus parser fs path = status := by
  rw [freshStatus, classify, hpath]
  rfl

/-- Without a cache the metadata add nothing to what reading tells. -/
theorem freshStatus_eq {path : Path} (hpath : settledByName? path = none) (fs : FileSystem) :
    freshStatus parser fs path = Status.ofResult ((classifyContents parser fs path).run .never).1 := by
  rw [freshStatus, run_classify hpath]
  cases hobject : fs.object path with
  | error fault =>
    rw [classifyContents, run_bind, settles_poll.run_never, read_of_object hobject]
    rfl
  | ok object =>
    cases hrun : (classifyContents parser fs path).run .never with
    | mk result rest => cases result <;> rfl

end Scan

end Provenance
