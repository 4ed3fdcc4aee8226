import Provenance.FileSystem
import Provenance.Verdict

/-!
A cache of verdicts. A key is a path, whatever its spelling, with the time at which the file was last
modified, so a changed file never meets its old verdict. A verdict is computed when its key is
absent; the computation may itself use the cache, and the verdict that was stored first stays. A
computation that ends in a fault stores nothing.
-/
namespace Provenance

namespace Cache

structure Key where
  path : List Component
  modified : Instant
deriving DecidableEq

def Key.of (path : Path) (modified : Instant) : Key :=
  ⟨path.components, modified⟩

end Cache

/-- The stored verdicts, the oldest first. -/
structure Cache where
  entries : List (Cache.Key × Status)

namespace Cache

def empty : Cache := ⟨[]⟩

def size (c : Cache) : Nat := c.entries.length

def isEmpty (c : Cache) : Bool := c.entries.isEmpty

def find? (c : Cache) (key : Key) : Option Status :=
  (c.entries.find? fun entry => entry.1 == key).map Prod.snd

/-- Stores a verdict under a key that has none, and gives the verdict that is stored then. -/
def insertNew (c : Cache) (key : Key) (status : Status) : Status × Cache :=
  match c.find? key with
  | some first => (first, c)
  | none => (status, ⟨c.entries ++ [(key, status)]⟩)

theorem find?_insertNew_of_find? {c : Cache} {key other : Key} {status stored : Status}
    (h : c.find? other = some stored) : (c.insertNew key status).2.find? other = some stored := by
  rw [insertNew]
  split
  · exact h
  · simp only [find?, Option.map_eq_some_iff] at h ⊢
    obtain ⟨entry, hentry, hstatus⟩ := h
    exact ⟨entry, by rw [List.find?_append, hentry]; rfl, hstatus⟩

theorem find?_insertNew_self (c : Cache) (key : Key) (status : Status) :
    (c.insertNew key status).2.find? key = some (c.insertNew key status).1 := by
  rw [insertNew]
  split
  · next first hfirst => exact hfirst
  · next hnone =>
    simp only [find?, Option.map_eq_none_iff] at hnone
    simp [find?, List.find?_append, hnone]

theorem find?_insertNew_of_ne {c : Cache} {key other : Key} {status : Status} (h : other ≠ key) :
    (c.insertNew key status).2.find? other = c.find? other := by
  rw [insertNew]
  split
  · rfl
  · have hne : (key == other) = false := by simpa using Ne.symm h
    simp [find?, List.find?_append, hne]

/-- Work on a cache and on further state of type `σ` that may end in a fault. -/
abbrev Caching (σ α : Type) := ExceptT Fault (StateM (Cache × σ)) α

/-- The verdict stored under a key, computed first if there is none. -/
def getOrCompute {σ : Type} (key : Key) (compute : Caching σ Status) : Caching σ Status := do
  match (← get).1.find? key with
  | some hit => pure hit
  | none =>
    let status ← compute
    modifyGet fun (cache, rest) =>
      let (stored, cache) := cache.insertNew key status
      (stored, cache, rest)

/-- A request for a verdict whose computation first makes further requests. -/
inductive Request
  | mk (key : Key) (nested : List Request) (outcome : Except Fault Status)

/-- What came of a request: the result, the answers of the requests that its computation made, if
it ran, and the size of the cache afterwards. -/
inductive Answer
  | mk (result : Except Fault Status) (nested : Option (List Answer)) (size : Nat)

mutual

/-- Makes one request of the cache. The state beside the cache holds the answers of the
computation once it has run. -/
def request (cache : Cache) : Request → Answer × Cache
  | .mk key nested outcome =>
    let compute : Caching (Option (List Answer)) Status := do
      let (cache, _) ← get
      let (answers, cache) := requestAll cache nested
      set (cache, some answers)
      match outcome with
      | .ok status => pure status
      | .error fault => throw fault
    let (result, cache, answers) := (getOrCompute key compute).run (cache, none)
    (.mk result answers cache.size, cache)

def requestAll (cache : Cache) : List Request → List Answer × Cache
  | [] => ([], cache)
  | r :: rs =>
    let (answer, cache) := request cache r
    let (answers, cache) := requestAll cache rs
    (answer :: answers, cache)

end

end Cache

end Provenance
