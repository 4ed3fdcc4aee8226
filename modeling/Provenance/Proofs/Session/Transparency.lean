import Mathlib.Data.List.Permutation
import Provenance.Disk
import Provenance.Glob.Engine
import Provenance.Header.Tree
import Provenance.Proofs.Scan.Justified
import Provenance.Session

/-!
A session may use its cache without anyone noticing. As long as a path never leads to other contents
at the same time of modification, every verdict of a session is the one that an empty cache would
have given at that moment; only a signal that has fired can hold a verdict back, and nothing of this
remains in the cache for later.
-/
namespace Provenance.Session

open Scan

/-- A step of a session in the state that it finds. -/
structure Moment where
  before : State
  step : Step

section

variable (parser : Parser) (engine : PatternEngine)

namespace Moment

def answer (m : Moment) : Answer := (Session.step parser engine m.before m.step).1

/-- The verdicts that are given with the cache of the session, alone or in the report of a scan. -/
def verdicts (m : Moment) : List FileVerdict :=
  match m.step, m.answer parser engine with
  | .classify path, .status status _ => [⟨path, status⟩]
  | .scan _ _, .scanned (.ok report) _ => report.files
  | _, _ => []

end Moment

/-- The moments of a session that goes on from a state. -/
def moments (s : State) : List Step → List Moment
  | [] => []
  | first :: steps => ⟨s, first⟩ :: moments (step parser engine s first).2 steps

/-- A verdict on the path is given while the file system is like this. -/
def Sighted (ms : List Moment) (fs : FileSystem) (path : Path) : Prop :=
  ∃ m ∈ ms, fs = m.before.fs ∧ ∃ verdict ∈ m.verdicts parser engine, verdict.path = path

end

variable {parser : Parser} {engine : PatternEngine}

/-- The moments have the answers of the session. -/
theorem map_answer_moments (s : State) (steps : List Step) :
    (moments parser engine s steps).map (Moment.answer parser engine) =
      (runFrom parser engine s steps).map Prod.fst := by
  induction steps generalizing s with
  | nil => rfl
  | cons first steps ih =>
    rw [moments, runFrom, List.map_cons, List.map_cons, ih]
    rfl

theorem verdicts_classify (s : State) (path : Path) :
    Moment.verdicts parser engine ⟨s, .classify path⟩ =
      [⟨path, ((Scan.classify parser s.fs path).run (s.cache, s.signal)).1⟩] := rfl

theorem verdicts_scan (s : State) (roots : List Path) (patterns : List Text) :
    Moment.verdicts parser engine ⟨s, .scan roots patterns⟩ =
      match (scanWith parser engine s roots patterns).1 with
      | .ok report => report.files
      | .error _ => [] := by
  have hanswer : Moment.answer parser engine ⟨s, .scan roots patterns⟩ =
      .scanned (scanWith parser engine s roots patterns).1
        (scanWith parser engine s roots patterns).2.1.size := rfl
  simp only [Moment.verdicts, hanswer]
  cases (scanWith parser engine s roots patterns).1 <;> rfl

/-- A scan that comes to a report classifies paths one after the other; any other scan leaves cache
and signal alone. -/
theorem scanWith_cases (parser : Parser) (engine : PatternEngine) (s : State) (roots : List Path)
    (patterns : List Text) :
    (∃ fault, scanWith parser engine s roots patterns = (.error fault, s.cache, s.signal)) ∨
      ∃ paths report, scanWith parser engine s roots patterns =
          (.ok report, ((classifyAll parser s.fs paths).run (s.cache, s.signal)).2) ∧
        report.files = ((classifyAll parser s.fs paths).run (s.cache, s.signal)).1 := by
  unfold scanWith
  cases Exclusion.ofPatterns engine patterns with
  | error fault => exact Or.inl ⟨fault, rfl⟩
  | ok exclusion =>
    simp only [run_scan]
    cases collect s.fs exclusion roots with
    | error fault => exact Or.inl ⟨fault, rfl⟩
    | ok paths => exact Or.inr ⟨paths, _, rfl, rfl⟩

theorem path_of_verdicts_scan {s : State} {roots : List Path} {patterns : List Text}
    {exclusion : Exclusion} {paths : List Path} {verdict : FileVerdict}
    (hpatterns : Exclusion.ofPatterns engine patterns = .ok exclusion)
    (hpaths : collect s.fs exclusion roots = .ok paths)
    (h : verdict ∈ Moment.verdicts parser engine ⟨s, .scan roots patterns⟩) :
    verdict.path ∈ paths := by
  rw [verdicts_scan] at h
  simp only [scanWith, hpatterns, run_scan, hpaths] at h
  rw [← map_path_classifyAll parser s.fs paths (s.cache, s.signal)]
  exact List.mem_map_of_mem h

section

variable {seen : FileSystem → Path → Prop} {s : State}

/-- What one step keeps: the verdicts are as good as fresh ones, the stored ones stay justified, and
the signal has fired or never fires. -/
theorem step_faithful (first : Step) (hstable : Stable seen) (hcache : Justified parser seen s.cache)
    (hsignal : s.signal = .never ∨ s.signal = .fired)
    (hseen : ∀ verdict ∈ Moment.verdicts parser engine ⟨s, first⟩, seen s.fs verdict.path) :
    (∀ verdict ∈ Moment.verdicts parser engine ⟨s, first⟩,
        Faithful parser s.fs s.cache s.signal verdict) ∧
      Justified parser seen (step parser engine s first).2.cache ∧
      ((step parser engine s first).2.signal = .never ∨
        (step parser engine s first).2.signal = .fired) := by
  cases first with
  | change c => exact ⟨nofun, hcache, hsignal⟩
  | cancel => exact ⟨nofun, hcache, Or.inr rfl⟩
  | renewSignal => exact ⟨nofun, hcache, Or.inl rfl⟩
  | renewCache => exact ⟨nofun, justified_empty parser seen, hsignal⟩
  | run roots patterns => exact ⟨nofun, hcache, hsignal⟩
  | read path => exact ⟨nofun, hcache, hsignal⟩
  | load path => exact ⟨nofun, hcache, hsignal⟩
  | classify path =>
    rw [verdicts_classify] at hseen ⊢
    obtain ⟨hfaithful, hjustified, hsame, -⟩ :=
      classify_faithful hstable (hseen _ (List.mem_singleton_self _)) hcache hsignal
    refine ⟨?_, hjustified, ?_⟩
    · intro verdict hverdict
      rw [List.mem_singleton.mp hverdict]
      exact hfaithful
    · change ((classify parser s.fs path).run (s.cache, s.signal)).2.2 = _ ∨
        ((classify parser s.fs path).run (s.cache, s.signal)).2.2 = _
      rw [hsame]
      exact hsignal
  | scan roots patterns =>
    have hafter : (step parser engine s (.scan roots patterns)).2 =
        { s with cache := (scanWith parser engine s roots patterns).2.1,
                 signal := (scanWith parser engine s roots patterns).2.2 } := rfl
    rw [verdicts_scan] at hseen ⊢
    rw [hafter]
    rcases scanWith_cases parser engine s roots patterns with
      ⟨fault, hscan⟩ | ⟨paths, report, hscan, hfiles⟩
    · simp only [hscan]
      exact ⟨nofun, hcache, hsignal⟩
    · simp only [hscan, hfiles] at hseen ⊢
      have hpaths : ∀ path ∈ paths, seen s.fs path := by
        intro path hpath
        rw [← map_path_classifyAll parser s.fs paths (s.cache, s.signal)] at hpath
        obtain ⟨verdict, hverdict, rfl⟩ := List.mem_map.mp hpath
        exact hseen verdict hverdict
      obtain ⟨hfaithful, hjustified, hsame, -⟩ :=
        classifyAll_faithful hstable hpaths hcache hsignal
      refine ⟨hfaithful, hjustified, ?_⟩
      rw [hsame]
      exact hsignal

/-- What a run keeps, by induction on its steps. -/
theorem moments_faithful (steps : List Step) (hstable : Stable seen)
    (hcache : Justified parser seen s.cache) (hsignal : s.signal = .never ∨ s.signal = .fired)
    (hseen : ∀ m ∈ moments parser engine s steps, ∀ verdict ∈ m.verdicts parser engine,
      seen m.before.fs verdict.path) :
    ∀ m ∈ moments parser engine s steps, ∀ verdict ∈ m.verdicts parser engine,
      Faithful parser m.before.fs m.before.cache m.before.signal verdict := by
  induction steps generalizing s with
  | nil => exact nofun
  | cons first steps ih =>
    rw [moments] at hseen ⊢
    obtain ⟨hfirst, hcache', hsignal'⟩ :=
      step_faithful first hstable hcache hsignal (hseen _ List.mem_cons_self)
    intro m hm
    rcases List.mem_cons.mp hm with rfl | hm
    · exact hfirst
    · exact ih hcache' hsignal' (fun m hm => hseen m (List.mem_cons_of_mem _ hm)) m hm

end

/-- In every session that starts without stored verdicts, each verdict is the one that an empty cache
would give at that moment, or else the signal has fired, the path settles nothing, there is a file,
nothing is stored about it, and the status is unknown. -/
theorem verdicts_faithful (parser : Parser) (engine : PatternEngine) (fs : FileSystem)
    (steps : List Step)
    (hstable : Stable (Sighted parser engine (moments parser engine (.start fs) steps))) :
    ∀ m ∈ moments parser engine (.start fs) steps, ∀ verdict ∈ m.verdicts parser engine,
      Faithful parser m.before.fs m.before.cache m.before.signal verdict := by
  refine moments_faithful steps hstable (justified_empty parser _) (Or.inl rfl) ?_
  intro m hm verdict hverdict
  exact ⟨m, hm, rfl, verdict, hverdict, rfl⟩

/-- The bytes that the file of the session has at a time. -/
def bytesAt (t : Instant) : Bytes :=
  if t = ⟨1⟩ then Utf8.encode "class A {}".toList
  else Utf8.encode "// <auto-generated>\nclass A {}".toList

/-- A disk with one file, and the disk after that file has been overwritten. -/
def firstDisk : Disk :=
  Disk.empty.apply ⟨-1⟩ (.write (.ofText "d/A.cs".toList) ⟨1⟩ (bytesAt ⟨1⟩))

def secondDisk : Disk :=
  firstDisk.apply ⟨-1⟩ (.write (.ofText "d/A.cs".toList) ⟨2⟩ (bytesAt ⟨2⟩))

/-- A file is classified, overwritten while the signal has fired, and scanned before and after there
is a new signal. -/
def overwriting : List Step :=
  [.change firstDisk.view, .classify (.ofText "d//A.cs".toList), .cancel,
    .change secondDisk.view, .classify (.ofText "d/A.cs".toList), .scan [.ofText "d".toList] [],
    .renewSignal, .scan [.ofText "d/".toList] []]

theorem ofText_source :
    Path.ofText "d/A.cs".toList = ⟨[0x64, separator, 0x41, dot, 0x63, 0x73]⟩ := by decide

theorem view_firstDisk : firstDisk.view (.ofText "d//A.cs".toList) =
    .ok (.file ⟨1⟩ (.ok (bytesAt ⟨1⟩))) := by
  rw [firstDisk, ofText_source, show Path.ofText "d//A.cs".toList =
    ⟨[0x64, separator, separator, 0x41, dot, 0x63, 0x73]⟩ by decide]
  generalize bytesAt ⟨1⟩ = content
  cbv

theorem view_secondDisk : secondDisk.view (.ofText "d/A.cs".toList) =
    .ok (.file ⟨2⟩ (.ok (bytesAt ⟨2⟩))) := by
  rw [secondDisk, firstDisk, ofText_source]
  generalize bytesAt ⟨1⟩ = content
  generalize bytesAt ⟨2⟩ = content'
  cbv

theorem collect_secondDisk {root : Path}
    (hroot : root = ⟨[0x64]⟩ ∨ root = ⟨[0x64, separator]⟩) :
    collect secondDisk.view .none [root] = .ok [.ofText "d/A.cs".toList] := by
  have hinput : isStandardInput root = false := by
    rcases hroot with rfl | rfl <;> decide
  have hview : secondDisk.view root = .ok (.directory ⟨-1⟩
      [(⟨[0x41, dot, 0x63, 0x73], by decide⟩, .file ⟨2⟩ (bytesAt ⟨2⟩))]) := by
    rw [secondDisk, firstDisk, ofText_source]
    generalize bytesAt ⟨1⟩ = content
    generalize bytesAt ⟨2⟩ = content'
    rcases hroot with rfl | rfl
    · cbv
    · cbv
  simp only [collect, collectInto, FileSystem.object, hview, pathsOf, hinput]
  rcases hroot with rfl | rfl <;> rfl

theorem verdicts_overwriting :
    Stable (Sighted Header.parser Glob.engine
        (moments Header.parser Glob.engine (.start Disk.empty.view) overwriting)) ∧
      ∀ m ∈ moments Header.parser Glob.engine (.start Disk.empty.view) overwriting,
        ∀ verdict ∈ m.verdicts Header.parser Glob.engine,
          Faithful Header.parser m.before.fs m.before.cache m.before.signal verdict := by
  have hcollect : collect secondDisk.view .none [.ofText "d".toList] =
      .ok [.ofText "d/A.cs".toList] := collect_secondDisk (Or.inl (by decide))
  have hcollect' : collect secondDisk.view .none [.ofText "d/".toList] =
      .ok [.ofText "d/A.cs".toList] := collect_secondDisk (Or.inr (by decide))
  have hpatterns : Exclusion.ofPatterns Glob.engine [] = .ok .none := rfl
  have hstable : Stable (Sighted Header.parser Glob.engine
      (moments Header.parser Glob.engine (.start Disk.empty.view) overwriting)) := by
    refine stable_of_contents bytesAt ?_
    rintro fs path ⟨m, hm, rfl, verdict, hverdict, rfl⟩
    simp only [overwriting, moments, List.mem_cons, List.not_mem_nil, or_false] at hm
    rcases hm with rfl | rfl | rfl | rfl | rfl | rfl | rfl | rfl
    · cases hverdict
    · rw [verdicts_classify, List.mem_singleton] at hverdict
      subst hverdict
      exact ⟨⟨1⟩, view_firstDisk⟩
    · cases hverdict
    · cases hverdict
    · rw [verdicts_classify, List.mem_singleton] at hverdict
      subst hverdict
      exact ⟨⟨2⟩, view_secondDisk⟩
    · have hpath := path_of_verdicts_scan hpatterns hcollect hverdict
      rw [List.mem_singleton.mp hpath]
      exact ⟨⟨2⟩, view_secondDisk⟩
    · cases hverdict
    · have hpath := path_of_verdicts_scan hpatterns hcollect' hverdict
      rw [List.mem_singleton.mp hpath]
      exact ⟨⟨2⟩, view_secondDisk⟩
  exact ⟨hstable, verdicts_faithful Header.parser Glob.engine Disk.empty.view overwriting hstable⟩

end Provenance.Session
