import Provenance.FileSystem
import Provenance.Scan.Exclusion

/-!
The files that a scan looks at. A root that is a file is taken as it is; below a root that is a
directory every file is found, except in directories that hold foreign or internal matter. A dash
alone is the standard input and no directory. The paths found are kept in order, and of several
spellings of one path the first one found stays.
-/
namespace Provenance.Scan

/-- The directories that are passed over below a root: the stores of version control and editors,
and what others have written. -/
def skippedNames : List Text :=
  [".git".toList, ".hg".toList, ".svn".toList, "node_modules".toList, "target".toList,
    "vendor".toList, "__pycache__".toList, ".venv".toList, ".idea".toList, ".vs".toList,
    ".gradle".toList]

def isSkipped (name : FileName) : Bool :=
  skippedNames.any fun skipped => Utf8.encode skipped == name.bytes

mutual

/-- The files at and below an entry, each by the names on the way to it; links are not files. -/
def filesAt : Entry → FileName → List (List FileName)
  | .file _ _, name => [[name]]
  | .directory _ entries, name => if isSkipped name then [] else (filesBelow entries).map (name :: ·)
  | .link _, _ => []

def filesBelow : List (FileName × Entry) → List (List FileName)
  | [] => []
  | entry :: entries => filesUnder entry ++ filesBelow entries

def filesUnder : FileName × Entry → List (List FileName)
  | (name, entry) => filesAt entry name

end

/-- Paths in strictly increasing order, each with its place in that order. -/
abbrev Ordered := List (List (List Nat) × Path)

def insertNew (path : Path) (found : Ordered) : Ordered :=
  place path.rank found
where
  /-- Puts the path where its rank belongs. -/
  place (rank : List (List Nat)) : Ordered → Ordered
    | [] => [(rank, path)]
    | (other, spelling) :: rest =>
      if rank < other then (rank, path) :: (other, spelling) :: rest
      else if rank = other then (other, spelling) :: rest
      else (other, spelling) :: place rank rest

def Ordered.IsIncreasing (found : Ordered) : Prop :=
  found.Pairwise fun a b => a.1 < b.1

private theorem rank_trichotomy {a b : List (List Nat)} (hlt : ¬a < b) (hne : a ≠ b) : b < a := by
  rcases Std.lt_trichotomy a b with h | h | h
  · exact absurd h hlt
  · exact absurd h hne
  · exact h

theorem isIncreasing_nil : Ordered.IsIncreasing [] := List.Pairwise.nil

theorem mem_of_mem_place {path : Path} {rank : List (List Nat)} {found : Ordered}
    {entry : List (List Nat) × Path} (h : entry ∈ insertNew.place path rank found) :
    entry = (rank, path) ∨ entry ∈ found := by
  induction found with
  | nil => exact Or.inl (List.mem_singleton.mp h)
  | cons first rest ih =>
    obtain ⟨other, spelling⟩ := first
    rw [insertNew.place] at h
    split at h
    · exact (List.mem_cons.mp h).imp_right id
    · split at h
      · exact Or.inr h
      · rcases List.mem_cons.mp h with rfl | h
        · exact Or.inr List.mem_cons_self
        · exact (ih h).imp_right (List.mem_cons_of_mem _)

theorem isIncreasing_place {path : Path} {rank : List (List Nat)} {found : Ordered}
    (h : found.IsIncreasing) : Ordered.IsIncreasing (insertNew.place path rank found) := by
  induction found with
  | nil => exact List.pairwise_singleton _ _
  | cons first rest ih =>
    obtain ⟨other, spelling⟩ := first
    obtain ⟨hfirst, hrest⟩ := List.pairwise_cons.mp h
    rw [insertNew.place]
    split
    · next hlt =>
      refine List.pairwise_cons.mpr ⟨fun entry hentry => ?_, h⟩
      rcases List.mem_cons.mp hentry with rfl | hentry
      · exact hlt
      · exact Std.lt_trans hlt (hfirst entry hentry)
    · next hlt =>
      split
      · exact h
      · next hne =>
        refine List.pairwise_cons.mpr ⟨fun entry hentry => ?_, ih hrest⟩
        rcases mem_of_mem_place hentry with rfl | hentry
        · exact rank_trichotomy hlt hne
        · exact hfirst entry hentry

theorem isIncreasing_insertNew (path : Path) {found : Ordered} (h : found.IsIncreasing) :
    Ordered.IsIncreasing (insertNew path found) :=
  isIncreasing_place h

theorem mem_insertNew_of_mem (path : Path) {found : Ordered} {entry : List (List Nat) × Path}
    (h : entry ∈ found) : entry ∈ insertNew path found := by
  rw [insertNew]
  induction found with
  | nil => cases h
  | cons first rest ih =>
    obtain ⟨other, spelling⟩ := first
    rw [insertNew.place]
    split
    · exact List.mem_cons_of_mem _ h
    · split
      · exact h
      · rcases List.mem_cons.mp h with rfl | h
        · exact List.mem_cons_self
        · exact List.mem_cons_of_mem _ (ih h)

/-- The path that has been added is there, in this spelling or an earlier one. -/
theorem exists_mem_insertNew (path : Path) (found : Ordered) :
    ∃ spelling, (path.rank, spelling) ∈ insertNew path found := by
  rw [insertNew]
  induction found with
  | nil => exact ⟨path, List.mem_singleton.mpr rfl⟩
  | cons first rest ih =>
    obtain ⟨other, spelling⟩ := first
    rw [insertNew.place]
    split
    · exact ⟨path, List.mem_cons_self⟩
    · split
      · next heq => exact ⟨spelling, heq ▸ List.mem_cons_self⟩
      · obtain ⟨found, hfound⟩ := ih
        exact ⟨found, List.mem_cons_of_mem _ hfound⟩

/-- A dash alone stands for the standard input, which holds no files, even if a directory has that
name; with a leading dot the directory is meant. -/
def isStandardInput (root : Path) : Bool :=
  root.same (.ofText "-".toList)

/-- The path of a file below a root, by the names on the way to it. There is none if the path of its
directory is longer than can be looked up; its own path may be. -/
def pathBelow? (root : Path) (names : List FileName) : Option Path :=
  let path := root.join (Path.ofNames names).bytes
  let ownLength := (names.getLast?.map fun name => name.bytes.length).getD 0
  if path.bytes.length ≤ FileSystem.maxPath + 1 + ownLength then some path else none

def pathsOf (exclusion : Exclusion) (root : Path) : Object → List Path
  | .file _ _ => [root]
  | .directory _ entries =>
    if isStandardInput root then []
    else
      ((filesBelow entries).filterMap (pathBelow? root)).filter
        fun path => !exclusion.excludes path root

/-- Adds what the roots contribute, one root after the other; the first one that leads nowhere is
at fault. -/
def collectInto (fs : FileSystem) (exclusion : Exclusion) (found : Ordered) :
    List Path → Except Fault Ordered
  | [] => pure found
  | root :: roots => do
    let object ← fs.object root
    let paths := pathsOf exclusion root object
    collectInto fs exclusion (paths.foldl (fun found path => insertNew path found) found) roots

def collect (fs : FileSystem) (exclusion : Exclusion) (roots : List Path) :
    Except Fault (List Path) := do
  let found ← collectInto fs exclusion [] roots
  pure (found.map Prod.snd)

end Provenance.Scan
