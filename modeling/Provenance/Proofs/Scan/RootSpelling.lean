import Mathlib.Data.List.Permutation
import Mathlib.Data.List.Sort
import Provenance.Header.Tree
import Provenance.Proofs.FileSystem.Stepwise
import Provenance.Proofs.Scan.AnyOrder

/-!
Roots in another order, more often, or in other spellings. What a root contributes is told by its
steps, so two lists of roots with the same steps lead to files with the same steps, in the same order;
only the spellings differ that survive. The name rule, the patterns, the language and the key of the
cache see no difference between them, and so the two rows of classifications run in step: each file
meets the same cache and the same signal. A spelling that makes the path of a file too long is another
matter.
-/
namespace Provenance.Scan

open Cache

section Classified

/-- The status of one file under two spellings of its path. -/
inductive SameStatus (path path' : Path) : Status → Status → Prop
  | same (status : Status) : SameStatus path path' status status
  /-- The system's obstacle is reported with the path at which it was met. -/
  | failed (obstacle : Obstacle) : SameStatus path path'
      (.failed (Fault.ofObstacle path obstacle).message)
      (.failed (Fault.ofObstacle path' obstacle).message)

/-- The path of a file as it can be looked up. -/
def Reachable (path : Path) : Prop :=
  (∃ name, path.EndsIn name) ∧ path.bytes.length ≤ FileSystem.maxPath

variable {parser : Parser} {fs : FileSystem} {path path' : Path}

/-- Paths with the same steps lead to the same, be it an obstacle. -/
theorem Reachable.lookup_eq (hfs : fs.Stepwise) (hpath : Reachable path) (hpath' : Reachable path')
    (hsame : path.components = path'.components) : fs path = fs path' := by
  obtain ⟨⟨name, hname⟩, hlength⟩ := hpath
  obtain ⟨⟨other, hother⟩, hlength'⟩ := hpath'
  exact hfs.eq_of_named hsame hname hother hlength hlength'

theorem Reachable.settledByName?_eq (hpath : Reachable path) (hpath' : Reachable path')
    (hsame : path.components = path'.components) : settledByName? path = settledByName? path' := by
  obtain ⟨⟨name, hname⟩, -⟩ := hpath
  obtain ⟨⟨other, hother⟩, -⟩ := hpath'
  exact settledByName?_of_components hname hother hsame

theorem ofResult_ofObstacle (path : Path) (obstacle : Obstacle) :
    Status.ofResult (.error (.ofObstacle path obstacle)) =
      .failed (Fault.ofObstacle path obstacle).message := by
  cases obstacle <;> rfl

/-- Reading finds the same contents, or meets the same obstacle. -/
theorem read_or_obstacle (h : fs path = fs path') :
    (∃ contents, Contents.read fs path = .ok contents ∧ Contents.read fs path' = .ok contents) ∨
      ∃ obstacle, Contents.read fs path = .error (.ofObstacle path obstacle) ∧
        Contents.read fs path' = .error (.ofObstacle path' obstacle) := by
  rw [Contents.read, Contents.read, FileSystem.bytes, FileSystem.bytes, FileSystem.object,
    FileSystem.object, ← h]
  cases fs path with
  | error obstacle => exact Or.inr ⟨obstacle, rfl, rfl⟩
  | ok object =>
    cases object with
    | directory modified entries => exact Or.inr ⟨.unmappable, rfl, rfl⟩
    | file modified content =>
      cases content with
      | error obstacle => exact Or.inr ⟨obstacle, rfl, rfl⟩
      | ok bytes => exact Or.inl ⟨Contents.ofBytes bytes, rfl, rfl⟩

/-- The two looks at the contents poll alike, and end alike. -/
theorem run_classifyContents_respelled (hlookup : fs path = fs path')
    (hsettled : settledByName? path = none) (hsettled' : settledByName? path' = none)
    (hsame : path.components = path'.components) (signal : Signal) :
    (classifyContents parser fs path).run signal = (classifyContents parser fs path').run signal ∨
      ∃ obstacle rest,
        (classifyContents parser fs path).run signal = (.error (.ofObstacle path obstacle), rest) ∧
        (classifyContents parser fs path').run signal = (.error (.ofObstacle path' obstacle), rest) := by
  rcases read_or_obstacle hlookup with ⟨contents, hread, hread'⟩ | ⟨obstacle, hread, hread'⟩
  · rw [classifyContents_congr (settledByName?_eq_none_iff.mp hsettled).1
      (settledByName?_eq_none_iff.mp hsettled').1 (ofPath?_of_components hsame) hread hread']
    exact Or.inl rfl
  · rw [classifyContents, classifyContents, run_bind, run_bind, run_poll, hread, hread']
    cases signal.hasFired with
    | true => exact Or.inl rfl
    | false => exact Or.inr ⟨obstacle, signal.next, rfl, rfl⟩

/-- One step of the two rows: the same state gives statuses that differ at most in a path that they
name, and leads to the same state. -/
theorem run_classify_respelled (hfs : fs.Stepwise) (hpath : Reachable path)
    (hpath' : Reachable path') (hsame : path.components = path'.components)
    (state : Cache × Signal) :
    SameStatus path path' ((classify parser fs path).run state).1
        ((classify parser fs path').run state).1 ∧
      ((classify parser fs path).run state).2 = ((classify parser fs path').run state).2 := by
  obtain ⟨cache, signal⟩ := state
  have hlookup := hpath.lookup_eq hfs hpath' hsame
  have hsettled := hpath.settledByName?_eq hpath' hsame
  cases hpath : settledByName? path with
  | some status =>
    rw [classify, classify, ← hsettled, hpath]
    exact ⟨.same status, rfl⟩
  | none =>
    rw [hpath] at hsettled
    rw [run_classify hpath, run_classify hsettled.symm, FileSystem.object, FileSystem.object,
      ← hlookup]
    cases hobject : fs path with
    | error obstacle =>
      refine ⟨?_, rfl⟩
      change SameStatus path path' (Status.ofResult (.error (.ofObstacle path obstacle)))
        (Status.ofResult (.error (.ofObstacle path' obstacle)))
      rw [ofResult_ofObstacle, ofResult_ofObstacle]
      exact .failed obstacle
    | ok object =>
      have hkey : Key.of path object.modified = Key.of path' object.modified := by
        rw [Key.of, Key.of, hsame]
      simp only [Except.mapError, ← hkey]
      cases cache.find? (Key.of path object.modified) with
      | some hit => exact ⟨.same hit, rfl⟩
      | none =>
        rcases run_classifyContents_respelled hlookup hpath hsettled.symm hsame signal with
          hrun | ⟨obstacle, rest, hrun, hrun'⟩
        · rw [hrun]
          exact ⟨.same _, rfl⟩
        · rw [hrun, hrun']
          refine ⟨?_, rfl⟩
          simp only [ofResult_ofObstacle]
          exact .failed obstacle

end Classified

/-- One verdict under two spellings of the path. -/
structure Respelled (file file' : FileVerdict) : Prop where
  path : file.path.components = file'.path.components
  status : SameStatus file.path file'.path file.status file'.status

/-- Two spellings of the path of a file. -/
structure RespelledPath (path path' : Path) : Prop where
  components_eq : path.components = path'.components
  reachable : Reachable path
  reachable' : Reachable path'

section Rows

variable {parser : Parser} {fs : FileSystem} {paths paths' : List Path}
  {files files' : List FileVerdict}

/-- Two rows of classifications that run in step. -/
theorem run_classifyAll_respelled (hfs : fs.Stepwise)
    (hpaths : List.Forall₂ RespelledPath paths paths') (state : Cache × Signal) :
    List.Forall₂ Respelled ((classifyAll parser fs paths).run state).1
        ((classifyAll parser fs paths').run state).1 ∧
      ((classifyAll parser fs paths).run state).2 = ((classifyAll parser fs paths').run state).2 := by
  induction hpaths generalizing state with
  | nil => exact ⟨.nil, rfl⟩
  | @cons path path' paths paths' hpath hpaths ih =>
    obtain ⟨hstatus, hstate⟩ := run_classify_respelled hfs hpath.reachable hpath.reachable'
      hpath.components_eq state
    obtain ⟨hothers, hrest⟩ := ih ((classify parser fs path).run state).2
    rw [run_classifyAll_cons, run_classifyAll_cons, ← hstate]
    exact ⟨.cons ⟨hpath.components_eq, hstatus⟩ hothers, hrest⟩

theorem SameStatus.count_eq {path path' : Path} {status status' : Status}
    (h : SameStatus path path' status status') (summary : Summary) :
    summary.count status = summary.count status' := by
  cases h with
  | same status => rfl
  | failed obstacle => rfl

/-- The summary counts the same. -/
theorem tally_respelled (h : List.Forall₂ Respelled files files') :
    Summary.tally files = Summary.tally files' := by
  have hcount (summary : Summary) :
      files.foldl (fun s file => s.count file.status) summary =
        files'.foldl (fun s file => s.count file.status) summary := by
    induction h generalizing summary with
    | nil => rfl
    | cons hfile hfiles ih => rw [List.foldl_cons, List.foldl_cons, hfile.status.count_eq, ih]
  rw [Summary.tally, Summary.tally, h.length_eq, hcount]

end Rows

section Collected

variable {fs : FileSystem} {exclusion : Exclusion} {root root' path : Path}
  {roots roots' : List Path}

/-- The paths of the files below a root can be looked up: none of them is too long. -/
def Fits (root : Path) (entries : Listing) : Prop :=
  ∀ names, FileAt entries names → (∀ name ∈ names.dropLast, isSkipped name = false) →
    (walkedPath root names).bytes.length ≤ FileSystem.maxPath

/-- Every root leads somewhere, and the files below it can be looked up. -/
def Walkable (fs : FileSystem) (roots : List Path) : Prop :=
  ∀ root ∈ roots, ∃ object, fs root = .ok object ∧
    ∀ modified entries, object = .directory modified entries → Fits root entries

/-- The same roots, whatever their order, number and spelling. -/
def SameRoots (roots roots' : List Path) : Prop :=
  (∀ root ∈ roots, ∃ root' ∈ roots', root.components = root'.components) ∧
    ∀ root' ∈ roots', ∃ root ∈ roots, root'.components = root.components

theorem Fits.pathBelow?_eq {entries : Listing} {names : List FileName} (h : Fits root entries)
    (hnames : names ∈ filesBelow entries) : pathBelow? root names = some (walkedPath root names) := by
  obtain ⟨hfile, hdirectories⟩ := mem_filesBelow_iff.mp hnames
  have hlength := h names hfile hdirectories
  have hshort : (walkedPath root names).bytes.length ≤
      FileSystem.maxPath + 1 + (names.getLast?.map fun name => name.bytes.length).getD 0 := by
    omega
  exact if_pos hshort

theorem pathsFrom_of_ok {object : Object} (hroot : fs root = .ok object) :
    pathsFrom fs exclusion root = pathsOf exclusion root object := by
  rw [pathsFrom, FileSystem.object, hroot]
  rfl

/-- What a directory contributes where all its paths can be looked up. -/
theorem mem_pathsOf_of_fits {modified : Instant} {entries : Listing} (hfits : Fits root entries) :
    path ∈ pathsOf exclusion root (.directory modified entries) ↔ isStandardInput root = false ∧
      ∃ names ∈ filesBelow entries, path = walkedPath root names ∧
        exclusion.excludes path root = false := by
  cases hinput : isStandardInput root with
  | true => simp [pathsOf, hinput]
  | false =>
    simp only [pathsOf, hinput, Bool.false_eq_true, if_false, List.mem_filter, List.mem_filterMap,
      Bool.not_eq_true', true_and]
    constructor
    · rintro ⟨⟨names, hnames, hpath⟩, hkept⟩
      exact ⟨names, hnames, pathBelow?_eq_some hpath, hkept⟩
    · rintro ⟨names, hnames, rfl, hkept⟩
      exact ⟨⟨names, hnames, hfits.pathBelow?_eq hnames⟩, hkept⟩

/-- A root contributes paths that can be looked up. -/
theorem reachable_of_mem_pathsFrom (hfs : fs.Stepwise) {object : Object}
    (hroot : fs root = .ok object)
    (hfits : ∀ modified entries, object = .directory modified entries → Fits root entries)
    (hpath : path ∈ pathsFrom fs exclusion root) : Reachable path := by
  rw [pathsFrom_of_ok hroot] at hpath
  cases object with
  | file modified content =>
    rw [List.mem_singleton.mp hpath]
    exact ⟨hfs.endsIn_of_file hroot, hfs.length_le hroot⟩
  | directory modified entries =>
    have hfits := hfits modified entries rfl
    obtain ⟨-, names, hnames, rfl, -⟩ := (mem_pathsOf_of_fits hfits).mp hpath
    obtain ⟨hfile, hdirectories⟩ := mem_filesBelow_iff.mp hnames
    exact ⟨⟨_, endsIn_walkedPath root hfile.ne_nil⟩, hfits names hfile hdirectories⟩

/-- In another spelling a root contributes paths with the same steps. -/
theorem exists_mem_pathsFrom (hfs : fs.Stepwise) {object object' : Object}
    (hsame : root.components = root'.components) (hroot : fs root = .ok object)
    (hroot' : fs root' = .ok object')
    (hfits : ∀ modified entries, object = .directory modified entries → Fits root entries)
    (hfits' : ∀ modified entries, object' = .directory modified entries → Fits root' entries)
    (hpath : path ∈ pathsFrom fs exclusion root) :
    ∃ path' ∈ pathsFrom fs exclusion root', path.components = path'.components := by
  obtain rfl := hfs.object_eq hsame hroot hroot'
  rw [pathsFrom_of_ok hroot] at hpath
  rw [pathsFrom_of_ok hroot']
  cases object with
  | file modified content =>
    rw [List.mem_singleton.mp hpath]
    exact ⟨root', List.mem_singleton.mpr rfl, hsame⟩
  | directory modified entries =>
    obtain ⟨hinput, names, hnames, rfl, hkept⟩ :=
      (mem_pathsOf_of_fits (hfits modified entries rfl)).mp hpath
    have hfile := (mem_filesBelow_iff.mp hnames).1
    have hsteps := Path.components_join_ofNames root hfile.ne_nil
    have hpaths : (walkedPath root names).components = (walkedPath root' names).components := by
      rw [walkedPath, walkedPath, hsteps, Path.components_join_ofNames root' hfile.ne_nil, hsame]
    have hbelow : root.components <+: (walkedPath root names).components := by
      rw [walkedPath, hsteps]
      exact List.prefix_append _ _
    refine ⟨walkedPath root' names, ?_, hpaths⟩
    apply (mem_pathsOf_of_fits (hfits' modified entries rfl)).mpr
    refine ⟨?_, names, hnames, rfl, ?_⟩
    · rw [← hinput, isStandardInput, isStandardInput, Path.same, Path.same, hsame]
    · rw [← excludes_of_components exclusion hpaths hsame hbelow, hkept]

/-- The files of both rows have the same places in the order of paths. -/
theorem exists_rank_eq (hfs : fs.Stepwise)
    (hsame : ∀ root ∈ roots, ∃ root' ∈ roots', root.components = root'.components)
    (hroots : Walkable fs roots) (hroots' : Walkable fs roots')
    (hpath : path ∈ roots.flatMap (pathsFrom fs exclusion)) :
    ∃ path' ∈ roots'.flatMap (pathsFrom fs exclusion), path'.rank = path.rank := by
  obtain ⟨root, hroot, hmem⟩ := List.mem_flatMap.mp hpath
  obtain ⟨root', hroot', hcomponents⟩ := hsame root hroot
  obtain ⟨object, hobject, hfits⟩ := hroots root hroot
  obtain ⟨object', hobject', hfits'⟩ := hroots' root' hroot'
  obtain ⟨path', hpath', heq⟩ :=
    exists_mem_pathsFrom hfs hcomponents hobject hobject' hfits hfits' hmem
  exact ⟨path', List.mem_flatMap.mpr ⟨root', hroot', hpath'⟩, Path.rank_eq_iff.mpr heq.symm⟩

/-- What is collected has the places of what the roots contribute. -/
theorem mem_ranks_iff {paths found : List Path} {rank : List (List Nat)}
    (hmem : ∀ path, path ∈ paths ↔ found.find? (·.same path) = some path) :
    rank ∈ paths.map Path.rank ↔ ∃ path ∈ found, path.rank = rank := by
  rw [List.mem_map]
  constructor
  · rintro ⟨path, hpath, hrank⟩
    exact ⟨path, List.mem_of_find?_eq_some ((hmem path).mp hpath), hrank⟩
  · rintro ⟨path, hpath, hrank⟩
    obtain ⟨first, hfirst, hsame⟩ :=
      exists_first_spelling_iff.mpr ⟨path, hpath, Path.same_iff.mpr rfl⟩
    refine ⟨first, (hmem first).mpr hfirst, ?_⟩
    rw [← hrank]
    exact Path.rank_eq_iff.mpr (Path.same_iff.mp hsame)

/-- All that is collected can be looked up. -/
theorem reachable_of_collected {paths : List Path} (hfs : fs.Stepwise) (hroots : Walkable fs roots)
    (hmem : ∀ path, path ∈ paths ↔
      (roots.flatMap (pathsFrom fs exclusion)).find? (·.same path) = some path) :
    ∀ path ∈ paths, Reachable path := by
  intro path hpath
  have hfound := List.mem_of_find?_eq_some ((hmem path).mp hpath)
  obtain ⟨root, hroot, hfrom⟩ := List.mem_flatMap.mp hfound
  obtain ⟨object, hobject, hfits⟩ := hroots root hroot
  exact reachable_of_mem_pathsFrom hfs hobject hfits hfrom

theorem Walkable.exists_object (h : Walkable fs roots) :
    ∀ root ∈ roots, ∃ object, fs.object root = .ok object := by
  intro root hroot
  obtain ⟨object, hobject, -⟩ := h root hroot
  refine ⟨object, ?_⟩
  rw [FileSystem.object, hobject]
  rfl

/-- Both lists of roots lead to one row of files, in two spellings. -/
theorem exists_collect_respelled (hfs : fs.Stepwise) (exclusion : Exclusion)
    (hsame : SameRoots roots roots') (hroots : Walkable fs roots) (hroots' : Walkable fs roots') :
    ∃ paths paths', collect fs exclusion roots = .ok paths ∧
      collect fs exclusion roots' = .ok paths' ∧ List.Forall₂ RespelledPath paths paths' := by
  obtain ⟨paths, hcollect, hincreasing, hmem⟩ := exists_collect exclusion hroots.exists_object
  obtain ⟨paths', hcollect', hincreasing', hmem'⟩ := exists_collect exclusion hroots'.exists_object
  have hranks : paths.map Path.rank = paths'.map Path.rank := by
    apply List.Pairwise.eq_of_mem_iff (List.pairwise_map.mpr hincreasing)
      (List.pairwise_map.mpr hincreasing')
    intro rank
    rw [mem_ranks_iff hmem, mem_ranks_iff hmem']
    constructor
    · rintro ⟨path, hpath, rfl⟩
      exact exists_rank_eq hfs hsame.1 hroots hroots' hpath
    · rintro ⟨path, hpath, rfl⟩
      exact exists_rank_eq hfs hsame.2 hroots' hroots hpath
  refine ⟨paths, paths', hcollect, hcollect', ?_⟩
  have hplaces : List.Forall₂ (· = ·) (paths.map Path.rank) (paths'.map Path.rank) := by
    rw [hranks]
    exact List.forall₂_refl _
  rw [List.forall₂_map_left_iff, List.forall₂_map_right_iff] at hplaces
  obtain ⟨hlength, hzip⟩ := List.forall₂_iff_zip.mp hplaces
  refine List.forall₂_iff_zip.mpr ⟨hlength, ?_⟩
  intro path path' hpair
  obtain ⟨hpath, hpath'⟩ := List.of_mem_zip hpair
  exact ⟨Path.rank_eq_iff.mp (hzip hpair), reachable_of_collected hfs hroots hmem path hpath,
    reachable_of_collected hfs hroots' hmem' path' hpath'⟩

end Collected

/-- Neither the order of the roots nor their number nor their spelling matters. Where both lists name
the same roots, all of which lead somewhere, and no file below them has a path too long to be looked
up, the two scans report the same files in the same order with the same statuses, up to the spelling
of paths, count the same, and leave the same cache and the same signal behind. -/
theorem scan_respelled (parser : Parser) (fs : FileSystem) (hfs : fs.Stepwise) (exclusion : Exclusion)
    (roots roots' : List Path) (hsame : SameRoots roots roots') (hroots : Walkable fs roots)
    (hroots' : Walkable fs roots') (state : Cache × Signal) :
    ∃ report report' state', (scan parser fs roots exclusion).run state = (.ok report, state') ∧
      (scan parser fs roots' exclusion).run state = (.ok report', state') ∧
      List.Forall₂ Respelled report.files report'.files ∧ report.summary = report'.summary := by
  obtain ⟨paths, paths', hcollect, hcollect', hpaths⟩ :=
    exists_collect_respelled hfs exclusion hsame hroots hroots'
  obtain ⟨hfiles, hstate⟩ := run_classifyAll_respelled hfs hpaths state
  refine ⟨⟨roots, Summary.tally ((classifyAll parser fs paths).run state).1,
      ((classifyAll parser fs paths).run state).1⟩,
    ⟨roots', Summary.tally ((classifyAll parser fs paths').run state).1,
      ((classifyAll parser fs paths').run state).1⟩,
    ((classifyAll parser fs paths).run state).2, ?_, ?_, hfiles, tally_respelled hfiles⟩
  · rw [run_scan, hcollect]
  · rw [run_scan, hcollect', hstate]

/-- The name of the one file. -/
def sourceName : FileName := ⟨Utf8.encode "aaaaaaaaaaaa.cs".toList, by decide⟩

/-- A directory `d` with one empty file in it. -/
def oneSource : Disk :=
  ⟨[(⟨[0x64], by decide⟩, .directory ⟨0⟩
    [(sourceName, .file ⟨0⟩ [])])]⟩

def shortRoot : Path := .ofText "./d".toList

theorem view_shortRoot : oneSource.view shortRoot = .ok (.directory ⟨0⟩
    [(sourceName, .file ⟨0⟩ [])]) := by
  rw [oneSource, show shortRoot = ⟨[dot, separator, 0x64]⟩ by decide]
  generalize sourceName = name
  cbv

theorem walkable_oneSource {root : Path}
    (hroot : oneSource.view root = .ok (.directory ⟨0⟩
      [(sourceName, .file ⟨0⟩ [])]))
    (hshort : (walkedPath root [sourceName]).bytes.length ≤ FileSystem.maxPath) :
    ∃ object, oneSource.view root = .ok object ∧
      ∀ modified entries, object = .directory modified entries → Fits root entries := by
  refine ⟨_, hroot, ?_⟩
  intro modified entries hentries names hfile _
  cases hentries
  cases hfile with
  | here h =>
    obtain ⟨rfl, -⟩ := Prod.mk.inj (List.mem_singleton.mp h)
    exact hshort
  | inside h => cases (Prod.mk.inj (List.mem_singleton.mp h)).2

/-- A root in two spellings, one of them twice, gives the same as the root alone. -/
theorem scan_respelled_oneSource :
    SameRoots [shortRoot] [.ofText "./d//".toList, .ofText "././d/.".toList] ∧
    ∃ report report' state',
      (scan Header.parser oneSource.view [shortRoot] .none).run (Cache.empty, .never) =
        (.ok report, state') ∧
      (scan Header.parser oneSource.view [.ofText "./d//".toList, .ofText "././d/.".toList] .none).run
        (Cache.empty, .never) = (.ok report', state') ∧
      List.Forall₂ Respelled report.files report'.files ∧ report.summary = report'.summary := by
  have hsame : SameRoots [shortRoot] [.ofText "./d//".toList, .ofText "././d/.".toList] := by
    constructor
    · intro root hroot
      exact ⟨.ofText "./d//".toList, by simp, List.mem_singleton.mp hroot ▸ by decide⟩
    · intro root' hroot'
      refine ⟨shortRoot, by simp, ?_⟩
      rcases List.mem_cons.mp hroot' with rfl | hroot'
      · decide
      · exact List.mem_singleton.mp hroot' ▸ by decide
  have hroots : Walkable oneSource.view [shortRoot] := by
    intro root hroot
    rw [List.mem_singleton.mp hroot]
    exact walkable_oneSource view_shortRoot (by decide)
  have hroots' : Walkable oneSource.view
      [.ofText "./d//".toList, .ofText "././d/.".toList] := by
    intro root hroot
    rcases List.mem_cons.mp hroot with rfl | hroot
    · refine walkable_oneSource ?_ (by decide)
      rw [show Path.ofText "./d//".toList = ⟨[dot, separator, 0x64, separator, separator]⟩ by decide,
        oneSource]
      generalize sourceName = name
      cbv
    · rw [List.mem_singleton.mp hroot]
      refine walkable_oneSource ?_ (by decide)
      rw [show Path.ofText "././d/.".toList =
        ⟨[dot, separator, dot, separator, 0x64, separator, dot]⟩ by decide, oneSource]
      generalize sourceName = name
      cbv
  exact ⟨hsame, scan_respelled Header.parser oneSource.view oneSource.stepwise_view .none _ _ hsame
    hroots hroots' (Cache.empty, .never)⟩

/-- The root with so many more dots in front of it. -/
def dottedRoot (n : Nat) : Path :=
  ⟨(List.replicate (n + 1) [dot, separator]).flatten ++ [0x64]⟩

/-- The path of the file below it. -/
def dottedPath (n : Nat) : Path :=
  walkedPath (dottedRoot n) [sourceName]

theorem splitWhere_dots (n : Nat) (rest : Bytes) :
    splitWhere (· == separator) ((List.replicate n [dot, separator]).flatten ++ rest) =
      List.replicate n [dot] ++ splitWhere (· == separator) rest := by
  induction n with
  | zero => rfl
  | succ n ih =>
    have hfirst (bs : Bytes) : splitWhere (· == separator) ([dot, separator] ++ bs) =
        [dot] :: splitWhere (· == separator) bs :=
      splitWhere_append_cons [dot] bs (beq_self_eq_true separator)
    rw [List.replicate_succ, List.flatten_cons, List.append_assoc, hfirst, ih]
    rfl

section

variable {parser : Parser} {n : Nat}

theorem stretches_dottedRoot :
    (dottedRoot n).stretches = List.replicate (n + 1) [dot] ++ [[0x64]] :=
  splitWhere_dots (n + 1) [0x64]

theorem components_dottedRoot : (dottedRoot n).components = shortRoot.components := by
  have hdots : (List.replicate (n + 1) [dot]).filterMap Component.ofStretch? = [] := by
    apply List.filterMap_eq_nil_iff.mpr
    intro stretch hstretch
    rw [(List.mem_replicate.mp hstretch).2]
    rfl
  have hfront : Path.front (List.replicate (n + 1) [dot] ++ [[0x64]]) = [.here] := by
    rw [List.replicate_succ, List.cons_append, Path.front, if_pos rfl]
    intro first tail hnil
    cases hnil
  rw [Path.components, stretches_dottedRoot, List.filterMap_append, hdots, hfront]
  decide

theorem length_dottedRoot : (dottedRoot n).bytes.length = 2 * n + 3 := by
  simp only [dottedRoot, List.length_append, List.length_flatten, List.map_replicate,
    List.sum_replicate_nat, List.length_cons, List.length_nil]
  omega

/-- A root that is not too long itself can be looked up. -/
theorem view_dottedRoot (h : 2 * n + 3 ≤ FileSystem.maxPath) :
    oneSource.view (dottedRoot n) = oneSource.view shortRoot := by
  have hname : (dottedRoot n).EndsIn ⟨[0x64], by decide⟩ := by
    rw [Path.EndsIn, stretches_dottedRoot, List.getLast?_append]
    rfl
  have hshort : shortRoot.EndsIn ⟨[0x64], by decide⟩ := rfl
  exact oneSource.stepwise_view.eq_of_named components_dottedRoot hname hshort
    (length_dottedRoot ▸ h) (by decide)

/-- Below any spelling of the directory that is no dash the one file is found. -/
theorem collect_oneSource {root path : Path}
    (hroot : oneSource.view root = .ok (.directory ⟨0⟩ [(sourceName, .file ⟨0⟩ [])]))
    (hinput : isStandardInput root = false) (hbelow : pathBelow? root [sourceName] = some path) :
    collect oneSource.view .none [root] = .ok [path] := by
  have hpaths : pathsFrom oneSource.view .none root = [path] := by
    rw [pathsFrom_of_ok hroot]
    simp [pathsOf, hinput, filesBelow, filesUnder, filesAt, hbelow, Exclusion.excludes,
      Exclusion.none]
  have hobject : ∀ root' ∈ [root], ∃ object, oneSource.view.object root' = .ok object := by
    intro root' hroot'
    rw [List.mem_singleton.mp hroot', FileSystem.object, hroot]
    exact ⟨_, rfl⟩
  rw [collect, collectInto_eq_foldl hobject, List.flatMap_singleton, hpaths]
  rfl

theorem view_sourceFile :
    oneSource.view (walkedPath shortRoot [sourceName]) = .ok (.file ⟨0⟩ (.ok [])) := by
  rw [show walkedPath shortRoot [sourceName] = ⟨[dot, separator, 0x64, separator] ++
    List.replicate 12 0x61 ++ [dot, 0x63, 0x73]⟩ by decide, oneSource, show sourceName =
    ⟨List.replicate 12 0x61 ++ [dot, 0x63, 0x73], by decide⟩ by decide]
  cbv

/-- By the short spelling the file is found and read. -/
theorem status_shortRoot :
    ((scan parser oneSource.view [shortRoot] .none).run (Cache.empty, .never)).1 =
      .ok ⟨[shortRoot], ⟨1, 0, 0, 1, 0, 0⟩, [⟨walkedPath shortRoot [sourceName], .skipped .empty⟩]⟩ := by
  have hcollect : collect oneSource.view .none [shortRoot] =
      .ok [walkedPath shortRoot [sourceName]] :=
    collect_oneSource view_shortRoot (by decide) (by decide)
  have hsettled : settledByName? (walkedPath shortRoot [sourceName]) = none := by decide
  have hread : Contents.read oneSource.view (walkedPath shortRoot [sourceName]) = .ok .empty := by
    rw [Contents.read, FileSystem.bytes, FileSystem.object, view_sourceFile]
    rfl
  have hlook : (classifyContents parser oneSource.view
      (walkedPath shortRoot [sourceName])).run .never = (.ok (.skipped .empty), .never) := by
    rw [classifyContents, run_bind, settles_poll.run_never, hread]
    rfl
  have hclassify : ((classify parser oneSource.view (walkedPath shortRoot [sourceName])).run
      (Cache.empty, .never)).1 = .skipped .empty := by
    rw [run_classify hsettled, FileSystem.object, view_sourceFile, hlook]
    rfl
  rw [run_scan, hcollect]
  simp only [run_classifyAll_cons, hclassify]
  rfl

theorem length_dottedPath : (dottedPath n).bytes.length = 2 * n + 19 := by
  have hlast : (dottedRoot n).bytes.getLast? = some 0x64 := by
    rw [dottedRoot, List.getLast?_append]
    rfl
  have hname : (Path.ofNames [sourceName]).bytes.length = 15 := by decide
  rw [dottedPath, walkedPath, Path.join, if_neg (by rw [hlast]; decide), List.length_append,
    List.length_cons, hname, length_dottedRoot]

theorem components_dottedPath :
    (dottedPath n).components = (walkedPath shortRoot [sourceName]).components := by
  rw [dottedPath, walkedPath, walkedPath, Path.components_join_ofNames _ (List.cons_ne_nil _ _),
    Path.components_join_ofNames _ (List.cons_ne_nil _ _), components_dottedRoot]

/-- A path that is too long meets the obstacle. -/
theorem view_dottedPath (h : FileSystem.maxPath < 2 * n + 19) :
    oneSource.view (dottedPath n) = .error .nameTooLong := by
  have hzero : (dottedPath n).bytes.contains 0 =
      (walkedPath shortRoot [sourceName]).bytes.contains 0 := by
    rw [Bool.eq_iff_iff, Path.contains_zero_iff, Path.contains_zero_iff, components_dottedPath]
  have hfree : ¬(walkedPath shortRoot [sourceName]).bytes.contains 0 = true := by decide
  rw [Disk.view, hzero, if_neg hfree, if_pos (length_dottedPath ▸ h)]
  rfl

/-- The walk gives the path nevertheless, since the directory can be opened. -/
theorem collect_dottedRoot (h : 2 * n + 3 ≤ FileSystem.maxPath) :
    collect oneSource.view .none [dottedRoot n] = .ok [dottedPath n] := by
  have hroot := (view_dottedRoot h).trans view_shortRoot
  have hinput : isStandardInput (dottedRoot n) = false := by
    rw [isStandardInput, Path.same, components_dottedRoot]
    decide
  have hbelow : pathBelow? (dottedRoot n) [sourceName] = some (dottedPath n) := by
    have hname : ([sourceName].getLast?.map fun name => name.bytes.length).getD 0 = 15 := by decide
    apply if_pos
    change (dottedPath n).bytes.length ≤ _
    rw [length_dottedPath, hname]
    omega
  exact collect_oneSource hroot hinput hbelow

theorem run_classify_dottedPath (h : FileSystem.maxPath < 2 * n + 19) (state : Cache × Signal) :
    (classify parser oneSource.view (dottedPath n)).run state =
      (.failed (Fault.ofObstacle (dottedPath n) .nameTooLong).message, state) := by
  have hsettled : settledByName? (dottedPath n) = none := by
    have hshort := endsIn_walkedPath shortRoot (List.cons_ne_nil sourceName [])
    have hlong : (dottedPath n).EndsIn sourceName :=
      endsIn_walkedPath (dottedRoot n) (List.cons_ne_nil sourceName [])
    rw [settledByName?_of_components hlong hshort components_dottedPath]
    decide
  obtain ⟨cache, signal⟩ := state
  rw [run_classify hsettled, FileSystem.object, view_dottedPath h]
  rfl

theorem run_scan_dottedRoot (hroot : 2 * n + 3 ≤ FileSystem.maxPath)
    (hpath : FileSystem.maxPath < 2 * n + 19) (state : Cache × Signal) :
    (scan parser oneSource.view [dottedRoot n] .none).run state =
      (.ok ⟨[dottedRoot n], ⟨1, 0, 0, 0, 0, 1⟩, [⟨dottedPath n,
        .failed (Fault.ofObstacle (dottedPath n) .nameTooLong).message⟩]⟩, state) := by
  rw [run_scan, collect_dottedRoot hroot]
  simp only [run_classifyAll_cons, run_classify_dottedPath hpath]
  rfl

end

/-- Both spellings of the root lead to the directory. Below the long one the path of the file is too
long to be looked up, and the file, merely empty otherwise, has failed. -/
theorem status_below_dottedRoot :
    SameRoots [shortRoot] [dottedRoot 2042] ∧
      (∃ object, oneSource.view shortRoot = .ok object ∧
        oneSource.view (dottedRoot 2042) = .ok object) ∧
      ∃ report report',
        ((scan Header.parser oneSource.view [shortRoot] .none).run (Cache.empty, .never)).1 = .ok report ∧
        ((scan Header.parser oneSource.view [dottedRoot 2042] .none).run (Cache.empty, .never)).1 =
          .ok report' ∧
        report.files.map FileVerdict.status = [.skipped .empty] ∧
        report'.files.map FileVerdict.status =
          [.failed (Fault.ofObstacle (dottedPath 2042) .nameTooLong).message] := by
  have hroot : 2 * 2042 + 3 ≤ FileSystem.maxPath := by decide
  have hpath : FileSystem.maxPath < 2 * 2042 + 19 := by decide
  refine ⟨⟨?_, ?_⟩, ⟨_, view_shortRoot, (view_dottedRoot hroot).trans view_shortRoot⟩,
    _, _, status_shortRoot, congrArg Prod.fst (run_scan_dottedRoot hroot hpath _), rfl, rfl⟩
  · intro root hroot
    rw [List.mem_singleton.mp hroot]
    exact ⟨_, List.mem_cons_self, components_dottedRoot.symm⟩
  · intro root hroot
    rw [List.mem_singleton.mp hroot]
    exact ⟨_, List.mem_cons_self, components_dottedRoot⟩

end Provenance.Scan
