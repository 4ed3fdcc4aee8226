import Provenance.Text.Basic
import Provenance.Text.Split
import Provenance.Text.Utf8

/-!
Paths as raw bytes, read as a sequence of components. Two spellings with the same components name
the same place: repeated separators, a final separator and a dot that is not in front are ignored.
Paths are ordered by their components, each compared byte by byte.
-/
namespace Provenance

def separator : UInt8 := 0x2F

def dot : UInt8 := 0x2E

/-- Whether a directory can hold an entry of this name. -/
def isOrdinaryName (b : Bytes) : Bool :=
  b != [] && b != [dot] && b != [dot, dot] && !b.contains separator

structure FileName where
  bytes : Bytes
  ordinary : isOrdinaryName bytes = true := by decide
deriving DecidableEq

namespace FileName

def ofBytes? (b : Bytes) : Option FileName :=
  if h : isOrdinaryName b = true then some ⟨b, h⟩ else none

@[simp] theorem ofBytes?_bytes (n : FileName) : ofBytes? n.bytes = some n := by
  simp [ofBytes?, n.ordinary]

theorem bytes_ne_nil (n : FileName) : n.bytes ≠ [] := by
  have h := n.ordinary
  simp only [isOrdinaryName, Bool.and_eq_true, bne_iff_ne] at h
  exact h.1.1.1

theorem bytes_ne_dot (n : FileName) : n.bytes ≠ [dot] := by
  have h := n.ordinary
  simp only [isOrdinaryName, Bool.and_eq_true, bne_iff_ne] at h
  exact h.1.1.2

theorem bytes_ne_dots (n : FileName) : n.bytes ≠ [dot, dot] := by
  have h := n.ordinary
  simp only [isOrdinaryName, Bool.and_eq_true, bne_iff_ne] at h
  exact h.1.2

theorem separator_notMem_bytes (n : FileName) : separator ∉ n.bytes := by
  have h := n.ordinary
  simp only [isOrdinaryName, Bool.and_eq_true, Bool.not_eq_true', List.contains_eq_mem,
    decide_eq_false_iff_not] at h
  exact h.2

end FileName

inductive Component
  /-- The top of the file system. -/
  | top
  /-- A dot in front of everything else. -/
  | here
  /-- The directory above. -/
  | up
  | name (n : FileName)
deriving DecidableEq

namespace Component

/-- The step that a stretch between separators stands for, if it stands for any. -/
def ofStretch? (b : Bytes) : Option Component :=
  if b = [dot, dot] then some up else (FileName.ofBytes? b).map name

@[simp] theorem ofStretch?_bytes (n : FileName) : ofStretch? n.bytes = some (name n) := by
  simp [ofStretch?, n.bytes_ne_dots]

def bytes : Component → Bytes
  | top => []
  | here => [dot]
  | up => [dot, dot]
  | name n => n.bytes

/-- Orders the steps: the top, a leading dot and the step upwards come before every name. -/
def rank : Component → List Nat
  | top => [0]
  | here => [1]
  | up => [2]
  | name n => 3 :: n.bytes.map UInt8.toNat

theorem rank_injective {a b : Component} (h : a.rank = b.rank) : a = b := by
  cases a <;> cases b <;> simp [rank] at h ⊢
  case name.name m n =>
    obtain ⟨mb, hm⟩ := m
    obtain ⟨nb, hn⟩ := n
    have hbytes : mb = nb :=
      (List.map_inj_right fun _ _ => UInt8.toNat_inj.mp).mp h
    subst hbytes
    rfl

end Component

structure Path where
  bytes : Bytes
deriving DecidableEq

namespace Path

def ofText (t : Text) : Path :=
  ⟨Utf8.encode t⟩

def display (p : Path) : Text :=
  Utf8.decode p.bytes

def isText (p : Path) : Bool :=
  Utf8.isValid p.bytes

def stretches (p : Path) : List Bytes :=
  splitWhere (· == separator) p.bytes

/-- The step that only the first of some stretches can stand for: the top, if nothing stands in
front of the first separator, or a leading dot. -/
def front : List Bytes → List Component
  | [] :: _ :: _ => [.top]
  | first :: _ => if first = [dot] then [.here] else []
  | [] => []

def components (p : Path) : List Component :=
  front p.stretches ++ p.stretches.filterMap Component.ofStretch?

/-- The place of the path in the order of paths. -/
def rank (p : Path) : List (List Nat) :=
  p.components.map Component.rank

/-- Whether two spellings mean the same path. -/
def same (p q : Path) : Bool :=
  p.components == q.components

def fileName? (p : Path) : Option FileName :=
  match p.components.getLast? with
  | some (.name n) => some n
  | _ => none

/-- What follows the last dot of the file name; a name that only begins with a dot has none. -/
def extension? (p : Path) : Option Bytes := do
  let name ← p.fileName?
  let (stem, ext) ← splitAtLast (· == dot) name.bytes
  if stem = [] then none else some ext

/-- The path of an entry below this one, a separator between them unless one is there already. -/
def join (p : Path) (below : Bytes) : Path :=
  if p.bytes.getLast? = none ∨ p.bytes.getLast? = some separator then ⟨p.bytes ++ below⟩
  else ⟨p.bytes ++ separator :: below⟩

def ofNames (names : List FileName) : Path :=
  ⟨joinWith [separator] (names.map FileName.bytes)⟩

/-- What remains of the path below `base`, if it lies there. -/
def below? (p base : Path) : Option Path :=
  if base.components.isPrefixOf p.components then
    some ⟨joinWith [separator] ((p.components.drop base.components.length).map Component.bytes)⟩
  else none

theorem same_iff {p q : Path} : p.same q = true ↔ p.components = q.components := by
  simp [same]

theorem rank_eq_iff {p q : Path} : p.rank = q.rank ↔ p.components = q.components := by
  constructor
  · exact (List.map_inj_right fun _ _ => Component.rank_injective).mp
  · exact fun h => by rw [rank, rank, h]

end Path

end Provenance
