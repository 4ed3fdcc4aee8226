import Provenance.Path.Join
import Provenance.Scan.Collection

/-!
The files that one root contributes. Files below a directory are told by the names on the way to them,
as a relation on the tree of entries that knows nothing of a walk. The walk finds exactly those on
whose way no directory is passed over, and the names can be read off the path that it gives to them.
-/
namespace Provenance.Scan

/-- A regular file stands in a directory with these entries, at the end of a row of names. Links are
neither files nor on the way to one. -/
inductive FileAt : Listing → List FileName → Prop
  | here {entries : Listing} {name : FileName} {modified : Instant} {content : Bytes}
      (h : (name, .file modified content) ∈ entries) : FileAt entries [name]
  | inside {entries below : Listing} {name : FileName} {modified : Instant} {names : List FileName}
      (h : (name, .directory modified below) ∈ entries) (hbelow : FileAt below names) :
      FileAt entries (name :: names)

theorem FileAt.ne_nil {entries : Listing} {names : List FileName} (h : FileAt entries names) :
    names ≠ [] := by
  cases h <;> exact List.cons_ne_nil _ _

theorem isSkipped_eq_false_iff {name : FileName} :
    isSkipped name = false ↔ name.bytes ∉ skippedNames.map Utf8.encode := by
  simp only [isSkipped, List.any_eq_false, List.mem_map, beq_iff_eq, not_exists, not_and]

theorem mem_filesBelow {entries : Listing} {names : List FileName} :
    names ∈ filesBelow entries ↔ ∃ entry ∈ entries, names ∈ filesAt entry.2 entry.1 := by
  induction entries with
  | nil => simp [filesBelow]
  | cons entry entries ih =>
    obtain ⟨name, node⟩ := entry
    simp [filesBelow, filesUnder, ih]

/-- The names that the walk finds lead to a file, and none of the directories is passed over. -/
theorem fileAt_of_mem_filesBelow {entries : Listing} {names : List FileName}
    (h : names ∈ filesBelow entries) :
    FileAt entries names ∧ ∀ name ∈ names.dropLast, isSkipped name = false := by
  induction names generalizing entries with
  | nil =>
    obtain ⟨⟨name, node⟩, -, hnames⟩ := mem_filesBelow.mp h
    cases node with
    | file modified content => simp [filesAt] at hnames
    | directory modified below => simp [filesAt] at hnames
    | link target => simp [filesAt] at hnames
  | cons first names ih =>
    obtain ⟨⟨name, node⟩, hentry, hnames⟩ := mem_filesBelow.mp h
    cases node with
    | file modified content =>
      simp only [filesAt, List.mem_singleton, List.cons.injEq] at hnames
      obtain ⟨rfl, rfl⟩ := hnames
      exact ⟨FileAt.here hentry, nofun⟩
    | directory modified below =>
      simp only [filesAt] at hnames
      split at hnames
      · cases hnames
      · next hskipped =>
        simp only [List.mem_map, List.cons.injEq, exists_eq_right_right] at hnames
        obtain ⟨hbelow, rfl⟩ := hnames
        obtain ⟨hfile, hdirectories⟩ := ih hbelow
        refine ⟨FileAt.inside hentry hfile, ?_⟩
        rw [List.dropLast_cons_of_ne_nil hfile.ne_nil]
        intro other hother
        rcases List.mem_cons.mp hother with rfl | hother
        · exact Bool.eq_false_iff.mpr hskipped
        · exact hdirectories other hother
    | link target => simp [filesAt] at hnames

theorem mem_filesBelow_of_fileAt {entries : Listing} {names : List FileName}
    (h : FileAt entries names) (hdirectories : ∀ name ∈ names.dropLast, isSkipped name = false) :
    names ∈ filesBelow entries := by
  induction h with
  | here hentry =>
    apply mem_filesBelow.mpr
    exact ⟨_, hentry, by simp [filesAt]⟩
  | @inside entries below name modified names hentry hbelow ih =>
    rw [List.dropLast_cons_of_ne_nil hbelow.ne_nil] at hdirectories
    have hname := hdirectories name List.mem_cons_self
    have hmem := ih fun other hother => hdirectories other (List.mem_cons_of_mem _ hother)
    apply mem_filesBelow.mpr
    exact ⟨_, hentry, by simp [filesAt, hname, hmem]⟩

theorem mem_filesBelow_iff {entries : Listing} {names : List FileName} :
    names ∈ filesBelow entries ↔
      FileAt entries names ∧ ∀ name ∈ names.dropLast, isSkipped name = false :=
  ⟨fileAt_of_mem_filesBelow, fun h => mem_filesBelow_of_fileAt h.1 h.2⟩

/-- The path that a walk from a root gives to what the names lead to. -/
def walkedPath (root : Path) (names : List FileName) : Path :=
  root.join (Path.ofNames names).bytes

/-- The names can be read off the steps of the path. -/
theorem walkedPath_injective {root : Path} {names names' : List FileName} (h : names ≠ [])
    (h' : names' ≠ [])
    (hsame : (walkedPath root names).components = (walkedPath root names').components) :
    names = names' := by
  rw [walkedPath, walkedPath, Path.components_join_ofNames root h,
    Path.components_join_ofNames root h'] at hsame
  have hnames := List.append_cancel_left hsame
  exact (List.map_inj_right fun _ _ heq => Component.name.inj heq).mp hnames

/-- The walk below a root comes to every file there that no directory hides. It does, unless the root
is a dash alone, which is taken for the standard input, or the path of some directory is too long to
be opened. -/
def WalksAll (root : Path) (entries : Listing) : Prop :=
  isStandardInput root = false ∧
    ∀ names, FileAt entries names → (∀ name ∈ names.dropLast, isSkipped name = false) →
      (pathBelow? root names).isSome = true

theorem walksAll_iff {root : Path} {entries : Listing} :
    WalksAll root entries ↔ isStandardInput root = false ∧
      ∀ names ∈ filesBelow entries, (pathBelow? root names).isSome = true := by
  simp only [WalksAll, mem_filesBelow_iff, and_imp]

theorem pathBelow?_eq_some {root path : Path} {names : List FileName}
    (h : pathBelow? root names = some path) : path = walkedPath root names := by
  simp only [pathBelow?] at h
  split at h
  · exact (Option.some.inj h).symm
  · cases h

/-- What a root contributes: itself if it is a file, whatever is excluded, and otherwise the files
below it on whose way no directory is passed over, unless they are excluded. -/
inductive Yields (fs : FileSystem) (exclusion : Exclusion) (root : Path) : Path → Prop
  | whole {modified : Instant} {content : Except Obstacle Bytes}
      (h : fs.object root = .ok (.file modified content)) : Yields fs exclusion root root
  | below {modified : Instant} {entries : Listing} {names : List FileName}
      (h : fs.object root = .ok (.directory modified entries)) (hfile : FileAt entries names)
      (hdirectories : ∀ name ∈ names.dropLast, name.bytes ∉ skippedNames.map Utf8.encode)
      (hkept : exclusion.excludes (walkedPath root names) root = false) :
      Yields fs exclusion root (walkedPath root names)

section

variable {fs : FileSystem} {exclusion : Exclusion} {root path : Path} {object : Object}

theorem mem_pathsOf_directory {modified : Instant} {entries : Listing}
    (hwalk : WalksAll root entries) :
    path ∈ pathsOf exclusion root (.directory modified entries) ↔
      ∃ names, FileAt entries names ∧ (∀ name ∈ names.dropLast, isSkipped name = false) ∧
        path = walkedPath root names ∧ exclusion.excludes path root = false := by
  simp only [pathsOf, hwalk.1, Bool.false_eq_true, if_false, List.mem_filter,
    List.mem_filterMap, mem_filesBelow_iff, Bool.not_eq_true']
  constructor
  · rintro ⟨⟨names, ⟨hfile, hdirectories⟩, hpath⟩, hkept⟩
    exact ⟨names, hfile, hdirectories, pathBelow?_eq_some hpath, hkept⟩
  · rintro ⟨names, hfile, hdirectories, rfl, hkept⟩
    obtain ⟨found, hfound⟩ := Option.isSome_iff_exists.mp (hwalk.2 names hfile hdirectories)
    refine ⟨⟨names, ⟨hfile, hdirectories⟩, ?_⟩, hkept⟩
    rw [hfound, pathBelow?_eq_some hfound]

/-- The paths of a root are those that it yields. -/
theorem mem_pathsOf_iff (hobject : fs.object root = .ok object)
    (hwalk : ∀ modified entries, object = .directory modified entries → WalksAll root entries) :
    path ∈ pathsOf exclusion root object ↔ Yields fs exclusion root path := by
  cases object with
  | file modified content =>
    rw [pathsOf, List.mem_singleton]
    constructor
    · rintro rfl
      exact Yields.whole hobject
    · intro h
      cases h with
      | whole h => rfl
      | below h =>
        rw [hobject] at h
        cases h
  | directory modified entries =>
    rw [mem_pathsOf_directory (hwalk modified entries rfl)]
    constructor
    · rintro ⟨names, hfile, hdirectories, rfl, hkept⟩
      exact Yields.below hobject hfile
        (fun name hname => isSkipped_eq_false_iff.mp (hdirectories name hname)) hkept
    · intro h
      cases h with
      | whole h =>
        rw [hobject] at h
        cases h
      | below h hfile hdirectories hkept =>
        rw [hobject] at h
        cases h
        exact ⟨_, hfile, fun name hname => isSkipped_eq_false_iff.mpr (hdirectories name hname), rfl,
          hkept⟩

/-- One root does not spell a path in two ways. -/
theorem Yields.eq_of_components {path' : Path} (h : Yields fs exclusion root path)
    (h' : Yields fs exclusion root path') (hsame : path.components = path'.components) :
    path = path' := by
  cases h with
  | whole hroot =>
    cases h' with
    | whole => rfl
    | below hroot' =>
      rw [hroot] at hroot'
      cases hroot'
  | below hroot hfile =>
    cases h' with
    | whole hroot' =>
      rw [hroot] at hroot'
      cases hroot'
    | below hroot' hfile' =>
      rw [walkedPath_injective hfile.ne_nil hfile'.ne_nil hsame]

end

end Provenance.Scan
