import Provenance.Glob.Engine
import Provenance.Header.Tree
import Provenance.Proofs.Scan.FilesBelow
import Provenance.Proofs.Scan.Justified

/-!
The files of a scan. What the roots contribute is put in order one path after the other, and a path
that is there already in another spelling is left out. So what has been collected in the end is told
without the order of insertion: every path that some root yields, in the spelling of the first root
that yields it.
-/
namespace Provenance.Scan

section

variable {found : Ordered} {entry : List (List Nat) × Path} {path : Path}

theorem Ordered.IsIncreasing.eq_of_rank {other : List (List Nat) × Path} (h : found.IsIncreasing)
    (hentry : entry ∈ found) (hother : other ∈ found) (hrank : entry.1 = other.1) :
    entry = other := by
  have hne : ∀ {a b : List (List Nat) × Path}, a.1 < b.1 → a.1 ≠ b.1 := fun hlt heq => by
    rw [heq] at hlt
    exact Std.lt_irrefl hlt
  have hforth : found.Pairwise fun a b => a.1 = b.1 → a = b :=
    h.imp fun hlt heq => absurd heq (hne hlt)
  have hback : found.Pairwise fun a b => b.1 = a.1 → b = a :=
    h.imp fun hlt heq => absurd heq.symm (hne hlt)
  exact hforth.forall_of_forall_of_flip (fun _ _ _ => rfl) hback hentry hother hrank

/-- Adding a path adds it unless one of its spellings is there, and changes nothing else. -/
theorem mem_insertNew_iff (h : found.IsIncreasing) :
    entry ∈ insertNew path found ↔
      entry ∈ found ∨ (entry = (path.rank, path) ∧ ∀ other ∈ found, other.1 ≠ path.rank) := by
  constructor
  · intro hentry
    rcases mem_of_mem_place hentry with rfl | hold
    · by_cases hthere : ∃ other ∈ found, other.1 = path.rank
      · obtain ⟨other, hother, hrank⟩ := hthere
        have hsame := (isIncreasing_insertNew path h).eq_of_rank hentry
          (mem_insertNew_of_mem path hother) hrank.symm
        exact Or.inl (hsame ▸ hother)
      · exact Or.inr ⟨rfl, fun other hother hrank => hthere ⟨other, hother, hrank⟩⟩
    · exact Or.inl hold
  · rintro (hold | ⟨rfl, hnew⟩)
    · exact mem_insertNew_of_mem path hold
    · obtain ⟨spelling, hspelling⟩ := exists_mem_insertNew path found
      rcases mem_of_mem_place hspelling with heq | hold
      · exact heq ▸ hspelling
      · exact absurd rfl (hnew _ hold)

theorem isIncreasing_foldl_insertNew (paths : List Path) (h : found.IsIncreasing) :
    Ordered.IsIncreasing (paths.foldl (fun found path => insertNew path found) found) := by
  induction paths generalizing found with
  | nil => exact h
  | cons path paths ih => exact ih (isIncreasing_insertNew path h)

/-- A row of insertions adds the first spelling of every path that was not there. -/
theorem mem_foldl_insertNew_iff (paths : List Path) (h : found.IsIncreasing) :
    entry ∈ paths.foldl (fun found path => insertNew path found) found ↔
      entry ∈ found ∨ (entry.1 = entry.2.rank ∧ (∀ other ∈ found, other.1 ≠ entry.1) ∧
        paths.find? (·.same entry.2) = some entry.2) := by
  induction paths generalizing found with
  | nil => simp
  | cons first paths ih =>
    rw [List.foldl_cons, ih (isIncreasing_insertNew first h), mem_insertNew_iff h, List.find?_cons]
    obtain ⟨spelling, hspelling⟩ := exists_mem_insertNew first found
    by_cases hsame : first.same entry.2 = true
    · -- No later path is added in the place of the first one.
      have hrank : first.rank = entry.2.rank := Path.rank_eq_iff.mpr (Path.same_iff.mp hsame)
      simp only [hsame, Option.some.injEq]
      constructor
      · rintro ((hold | ⟨rfl, hnew⟩) | ⟨hentry, hnew, -⟩)
        · exact Or.inl hold
        · exact Or.inr ⟨rfl, hnew, rfl⟩
        · exact absurd (hrank.trans hentry.symm) (hnew _ hspelling)
      · rintro (hold | ⟨hentry, hnew, rfl⟩)
        · exact Or.inl (Or.inl hold)
        · exact Or.inl (Or.inr ⟨Prod.ext hentry rfl, fun other hother => hentry ▸ hnew other hother⟩)
    · have hrank : first.rank ≠ entry.2.rank := fun hrank =>
        hsame (Path.same_iff.mpr (Path.rank_eq_iff.mp hrank))
      simp only [hsame]
      constructor
      · rintro ((hold | ⟨rfl, -⟩) | ⟨hentry, hnew, hfind⟩)
        · exact Or.inl hold
        · exact absurd rfl hrank
        · exact Or.inr ⟨hentry, fun other hother => hnew other (mem_insertNew_of_mem first hother),
            hfind⟩
      · rintro (hold | ⟨hentry, hnew, hfind⟩)
        · exact Or.inl (Or.inl hold)
        · refine Or.inr ⟨hentry, fun other hother => ?_, hfind⟩
          rcases (mem_insertNew_iff h).mp hother with hold | ⟨rfl, -⟩
          · exact hnew other hold
          · exact fun heq => hrank (heq.trans hentry)

end

section

variable {fs : FileSystem} {exclusion : Exclusion} {roots : List Path}

/-- The paths that a root contributes, if it leads anywhere. -/
def pathsFrom (fs : FileSystem) (exclusion : Exclusion) (root : Path) : List Path :=
  match fs.object root with
  | .ok object => pathsOf exclusion root object
  | .error _ => []

/-- Where every root leads somewhere, collecting is one row of insertions. -/
theorem collectInto_eq_foldl (hroots : ∀ root ∈ roots, ∃ object, fs.object root = .ok object)
    (found : Ordered) :
    collectInto fs exclusion found roots =
      .ok ((roots.flatMap (pathsFrom fs exclusion)).foldl
        (fun found path => insertNew path found) found) := by
  induction roots generalizing found with
  | nil => rfl
  | cons root roots ih =>
    obtain ⟨object, hobject⟩ := hroots root List.mem_cons_self
    have hpaths : pathsFrom fs exclusion root = pathsOf exclusion root object := by
      rw [pathsFrom, hobject]
    rw [List.flatMap_cons, List.foldl_append, hpaths,
      ← ih (fun other hother => hroots other (List.mem_cons_of_mem _ hother)), collectInto, hobject]
    rfl

/-- What is collected are the first spellings of the paths that the roots contribute, in increasing
order. -/
theorem exists_collect (exclusion : Exclusion)
    (hroots : ∀ root ∈ roots, ∃ object, fs.object root = .ok object) :
    ∃ paths, collect fs exclusion roots = .ok paths ∧
      paths.Pairwise (fun a b => a.rank < b.rank) ∧
      ∀ path, path ∈ paths ↔
        (roots.flatMap (pathsFrom fs exclusion)).find? (·.same path) = some path := by
  have hcollect : collect fs exclusion roots = .ok
      (((roots.flatMap (pathsFrom fs exclusion)).foldl
        (fun found path => insertNew path found) []).map Prod.snd) := by
    rw [collect, collectInto_eq_foldl hroots]
    rfl
  have hmem : ∀ entry, entry ∈ (roots.flatMap (pathsFrom fs exclusion)).foldl
      (fun found path => insertNew path found) [] ↔ entry.1 = entry.2.rank ∧
        (roots.flatMap (pathsFrom fs exclusion)).find? (·.same entry.2) = some entry.2 := by
    intro entry
    rw [mem_foldl_insertNew_iff _ isIncreasing_nil]
    simp
  have hincreasing := isIncreasing_foldl_insertNew
    (roots.flatMap (pathsFrom fs exclusion)) isIncreasing_nil
  refine ⟨_, hcollect, ?_, fun path => ?_⟩
  · apply List.pairwise_map.mpr
    refine hincreasing.imp_of_mem fun {a b} ha hb hlt => ?_
    rw [← ((hmem a).mp ha).1, ← ((hmem b).mp hb).1]
    exact hlt
  · rw [List.mem_map]
    constructor
    · rintro ⟨entry, hentry, rfl⟩
      exact ((hmem entry).mp hentry).2
    · intro hfind
      exact ⟨(path.rank, path), (hmem _).mpr ⟨rfl, hfind⟩, rfl⟩

/-- Paths in increasing order differ in what they mean. -/
theorem same_eq_false_of_rank_lt {a b : Path} (h : a.rank < b.rank) : a.same b = false := by
  apply Bool.eq_false_iff.mpr
  intro hsame
  rw [Path.rank_eq_iff.mpr (Path.same_iff.mp hsame)] at h
  exact Std.lt_irrefl h

theorem exists_object_of_collectInto {found found' : Ordered}
    (h : collectInto fs exclusion found roots = .ok found') :
    ∀ root ∈ roots, ∃ object, fs.object root = .ok object := by
  induction roots generalizing found with
  | nil => exact nofun
  | cons root roots ih =>
    rw [collectInto] at h
    cases hobject : fs.object root with
    | error fault =>
      rw [hobject] at h
      cases h
    | ok object =>
      rw [hobject] at h
      intro other hother
      rcases List.mem_cons.mp hother with rfl | hother
      · exact ⟨object, hobject⟩
      · exact ih h other hother

/-- No two of the paths that are collected mean the same. -/
theorem pairwise_same_of_collect {paths : List Path}
    (h : collect fs exclusion roots = .ok paths) : paths.Pairwise fun a b => a.same b = false := by
  have hroots : ∀ root ∈ roots, ∃ object, fs.object root = .ok object := by
    rw [collect] at h
    cases hfound : collectInto fs exclusion [] roots with
    | error fault =>
      rw [hfound] at h
      cases h
    | ok found => exact exists_object_of_collectInto hfound
  obtain ⟨paths', hcollect, hincreasing, -⟩ := exists_collect exclusion hroots
  rw [h] at hcollect
  cases hcollect
  exact hincreasing.imp same_eq_false_of_rank_lt

variable {root path : Path}

theorem exists_find?_same {paths : List Path} {other : Path} (hother : other ∈ paths)
    (hsame : other.same path = true) :
    ∃ first, paths.find? (·.same path) = some first ∧ first.same path = true := by
  have hfound : (paths.find? (·.same path)).isSome = true :=
    List.find?_isSome.mpr ⟨other, hother, hsame⟩
  obtain ⟨first, hfirst⟩ := Option.isSome_iff_exists.mp hfound
  exact ⟨first, hfirst, List.find?_some (p := fun spelling : Path => spelling.same path) hfirst⟩

/-- Some path in a row means the same as a path exactly if some path does that is a first spelling. -/
theorem exists_first_spelling_iff {paths : List Path} :
    (∃ first, paths.find? (·.same first) = some first ∧ first.same path = true) ↔
      ∃ other ∈ paths, other.same path = true := by
  constructor
  · rintro ⟨first, hfirst, hsame⟩
    exact ⟨first, List.mem_of_find?_eq_some hfirst, hsame⟩
  · rintro ⟨other, hother, hsame⟩
    obtain ⟨first, hfirst, hmeaning⟩ := exists_find?_same hother hsame
    have hspellings : (fun p : Path => p.same first) = fun p => p.same path := by
      funext p
      rw [Path.same, Path.same, Path.same_iff.mp hmeaning]
    exact ⟨first, hspellings ▸ hfirst, hmeaning⟩

theorem mem_pathsFrom_iff (hroot : ∃ object, fs.object root = .ok object)
    (hwalk : ∀ modified entries, fs.object root = .ok (.directory modified entries) →
      WalksAll root entries) :
    path ∈ pathsFrom fs exclusion root ↔ Yields fs exclusion root path := by
  obtain ⟨object, hobject⟩ := hroot
  have hpaths : pathsFrom fs exclusion root = pathsOf exclusion root object := by
    rw [pathsFrom, hobject]
  rw [hpaths]
  apply mem_pathsOf_iff hobject
  rintro modified entries rfl
  exact hwalk modified entries hobject

/-- Among the paths of one root, the first one with the meaning of a path is the path itself if the
root yields it, since a root yields no path in two spellings. -/
theorem find?_pathsFrom_eq_some_iff (hroot : ∃ object, fs.object root = .ok object)
    (hwalk : ∀ modified entries, fs.object root = .ok (.directory modified entries) →
      WalksAll root entries) :
    (pathsFrom fs exclusion root).find? (·.same path) = some path ↔
      Yields fs exclusion root path := by
  rw [← mem_pathsFrom_iff hroot hwalk]
  constructor
  · exact List.mem_of_find?_eq_some
  · intro hpath
    obtain ⟨first, hfirst, hmeaning⟩ := exists_find?_same hpath (Path.same_iff.mpr rfl)
    have hyields := (mem_pathsFrom_iff hroot hwalk).mp (List.mem_of_find?_eq_some hfirst)
    rw [hfirst, hyields.eq_of_components ((mem_pathsFrom_iff hroot hwalk).mp hpath)
      (Path.same_iff.mp hmeaning)]

/-- A path is collected in the spelling that the first root gives to it that yields it. -/
theorem find?_flatMap_pathsFrom_eq_some_iff
    (hroots : ∀ root ∈ roots, ∃ object, fs.object root = .ok object)
    (hwalk : ∀ root ∈ roots, ∀ modified entries,
      fs.object root = .ok (.directory modified entries) → WalksAll root entries) :
    (roots.flatMap (pathsFrom fs exclusion)).find? (·.same path) = some path ↔
      ∃ before root after, roots = before ++ root :: after ∧ Yields fs exclusion root path ∧
        ∀ earlier ∈ before, ∀ other, Yields fs exclusion earlier other →
          other.same path = false := by
  rw [List.find?_flatMap, List.findSome?_eq_some_iff]
  refine exists_congr fun before => exists_congr fun root => exists_congr fun after =>
    and_congr_right fun hsplit => ?_
  have hroot : root ∈ roots := hsplit ▸ List.mem_append_right _ List.mem_cons_self
  rw [find?_pathsFrom_eq_some_iff (hroots root hroot) (hwalk root hroot)]
  refine and_congr_right fun _ => forall_congr' fun earlier => forall_congr' fun hearlier => ?_
  have hmem : earlier ∈ roots := hsplit ▸ List.mem_append_left _ hearlier
  rw [List.find?_eq_none]
  refine forall_congr' fun other => ?_
  rw [mem_pathsFrom_iff (hroots earlier hmem) (hwalk earlier hmem), Bool.not_eq_true]

/-- The files of a scan are exactly those that the roots yield: a root that is a file, and below a root
that is a directory every file that neither a passed directory hides nor this root excludes. They
stand in the order of their steps, none of them twice, each as the first root spells it that yields
it; so a file is left out only if every root leaves it out. -/
theorem scan_files_exact (parser : Parser) (fs : FileSystem) (roots : List Path)
    (exclusion : Exclusion) (state : Cache × Signal)
    (hroots : ∀ root ∈ roots, ∃ object, fs.object root = .ok object)
    (hwalk : ∀ root ∈ roots, ∀ modified entries,
      fs.object root = .ok (.directory modified entries) → WalksAll root entries) :
    ∃ report, ((scan parser fs roots exclusion).run state).1 = .ok report ∧
      (report.files.map FileVerdict.path).Pairwise
        (fun a b => a.rank < b.rank ∧ a.same b = false) ∧
      (∀ path, path ∈ report.files.map FileVerdict.path ↔
        ∃ before root after, roots = before ++ root :: after ∧ Yields fs exclusion root path ∧
          ∀ earlier ∈ before, ∀ other, Yields fs exclusion earlier other →
            other.same path = false) ∧
      ∀ path, (∃ file ∈ report.files, file.path.same path = true) ↔
        ∃ root ∈ roots, ∃ other, Yields fs exclusion root other ∧ other.same path = true := by
  obtain ⟨paths, hcollect, hincreasing, hmem⟩ := exists_collect exclusion hroots
  refine ⟨⟨roots, Summary.tally ((classifyAll parser fs paths).run state).1,
    ((classifyAll parser fs paths).run state).1⟩, ?_, ?_, ?_, ?_⟩
  · rw [run_scan, hcollect]
  · rw [map_path_classifyAll]
    exact hincreasing.imp fun hlt => ⟨hlt, same_eq_false_of_rank_lt hlt⟩
  · intro path
    rw [map_path_classifyAll, hmem, find?_flatMap_pathsFrom_eq_some_iff hroots hwalk]
  · intro path
    have hspelled : (∃ file ∈ ((classifyAll parser fs paths).run state).1,
          file.path.same path = true) ↔
        ∃ first ∈ paths, first.same path = true := by
      conv_rhs => rw [← map_path_classifyAll parser fs paths state]
      simp only [List.mem_map, exists_exists_and_eq_and]
    rw [hspelled]
    simp only [hmem, exists_first_spelling_iff, List.mem_flatMap]
    constructor
    · rintro ⟨other, ⟨root, hroot, hother⟩, hsame⟩
      exact ⟨root, hroot, other,
        (mem_pathsFrom_iff (hroots root hroot) (hwalk root hroot)).mp hother, hsame⟩
    · rintro ⟨root, hroot, other, hother, hsame⟩
      exact ⟨other, ⟨root, hroot,
        (mem_pathsFrom_iff (hroots root hroot) (hwalk root hroot)).mpr hother⟩, hsame⟩

end

/-- The entries of a directory: a file, a directory with a file, and one that is passed over. -/
def entriesOfA : Listing :=
  [(⟨[0x67], by decide⟩, .file ⟨0⟩ []),
    (⟨[0x62], by decide⟩, .directory ⟨0⟩ [(⟨[0x66], by decide⟩, .file ⟨0⟩ [])]),
    (⟨Utf8.encode "target".toList, by decide⟩,
      .directory ⟨0⟩ [(⟨[0x74], by decide⟩, .file ⟨0⟩ [])]),
    (⟨[0x6C], by decide⟩, .link ⟨[0x67]⟩)]

/-- A directory `a` with these entries, the directory `b` in it, and files everywhere else. -/
def nestedDirectories : FileSystem := fun path =>
  if path = .ofText "a".toList then .ok (.directory ⟨0⟩ entriesOfA)
  else if path = .ofText "a/./b".toList then
    .ok (.directory ⟨0⟩ [(⟨[0x66], by decide⟩, .file ⟨0⟩ [])])
  else .ok (.file ⟨0⟩ (.ok []))

/-- Two directories, one of them inside the other, and a file in a directory that is passed over. -/
def nestedRoots : List Path :=
  [.ofText "a/./b".toList, .ofText "a".toList, .ofText "a/target/t".toList]

/-- What the pattern `b/*` excludes: below `a` the file in `b`, but nothing below `b` itself. -/
def insideB : Exclusion :=
  Glob.exclusion [[.literal 'b', .literal '/', .anyRun]]

example : Exclusion.ofPatterns Glob.engine ["b/*".toList] = .ok insideB := by cbv

theorem files_nestedRoots :
    ∃ report, ((scan Header.parser nestedDirectories nestedRoots insideB).run (Cache.empty, .never)).1 =
        .ok report ∧
      report.files.map FileVerdict.path =
        [.ofText "a/./b/f".toList, .ofText "a/g".toList, .ofText "a/target/t".toList] ∧
      ∃ root ∈ nestedRoots, ∃ other, Yields nestedDirectories insideB root other ∧
        other.same (.ofText "a/b/f".toList) = true := by
  have hroots : ∀ root ∈ nestedRoots, ∃ object, nestedDirectories.object root = .ok object := by
    intro root hroot
    simp only [nestedRoots, List.mem_cons, List.not_mem_nil, or_false] at hroot
    rcases hroot with rfl | rfl | rfl
    · exact ⟨_, rfl⟩
    · exact ⟨_, rfl⟩
    · exact ⟨_, rfl⟩
  have hwalk : ∀ root ∈ nestedRoots, ∀ modified entries,
      nestedDirectories.object root = .ok (.directory modified entries) →
        WalksAll root entries := by
    intro root hroot modified entries hobject
    apply walksAll_iff.mpr
    simp only [nestedRoots, List.mem_cons, List.not_mem_nil, or_false] at hroot
    rcases hroot with rfl | rfl | rfl
    · cases hobject
      decide
    · cases hobject
      decide
    · cases hobject
  have hcollect : collect nestedDirectories insideB nestedRoots =
      .ok [.ofText "a/./b/f".toList, .ofText "a/g".toList, .ofText "a/target/t".toList] := rfl
  obtain ⟨report, hrun, -, -, hsame⟩ :=
    scan_files_exact Header.parser nestedDirectories nestedRoots insideB (Cache.empty, .never) hroots
      hwalk
  have hpaths : report.files.map FileVerdict.path =
      [.ofText "a/./b/f".toList, .ofText "a/g".toList, .ofText "a/target/t".toList] := by
    rw [run_scan, hcollect] at hrun
    rw [← Except.ok.inj hrun, map_path_classifyAll]
  refine ⟨report, hrun, hpaths, (hsame _).mp ?_⟩
  have hfirst : Path.ofText "a/./b/f".toList ∈ report.files.map FileVerdict.path := by
    rw [hpaths]
    exact List.mem_cons_self
  obtain ⟨file, hfile, hpath⟩ := List.mem_map.mp hfirst
  refine ⟨file, hfile, ?_⟩
  rw [hpath]
  decide

end Provenance.Scan
