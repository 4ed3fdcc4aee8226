import Provenance.Trivia

/-!
Syntax trees as a parser delivers them. A node covers a stretch of the text, counted in characters.
Comments and other pieces that may stand anywhere are extra nodes between the others; a missing node
is one that the parser had to assume. A cursor stands at a node and can go to its first child, to
its next sibling and back to its parent.
-/
namespace Provenance.Syntax

structure Node where
  /-- The name of the kind of node in the grammar. -/
  kind : Text
  isExtra : Bool
  isMissing : Bool
  start : Nat
  stop : Nat
  children : List Node

def occursIn (needle : Text) : Text → Bool
  | [] => needle.isEmpty
  | c :: cs => needle.isPrefixOf (c :: cs) || occursIn needle cs

namespace Node

mutual

def size : Node → Nat
  | ⟨_, _, _, _, _, children⟩ => sizes children + 1

def sizes : List Node → Nat
  | [] => 0
  | node :: nodes => size node + sizes nodes

end

@[simp] theorem sizes_nil : sizes [] = 0 := by
  simp [sizes]

@[simp] theorem sizes_cons (node : Node) (nodes : List Node) :
    sizes (node :: nodes) = size node + sizes nodes := by
  simp [sizes]

theorem size_eq (node : Node) : node.size = sizes node.children + 1 := by
  cases node
  simp [size]

def isComment (node : Node) : Bool :=
  occursIn "comment".toList node.kind

def isBare (node : Node) : Bool :=
  node.isMissing || node.start == node.stop

def slice (node : Node) (source : Text) : Text :=
  (source.drop node.start).take (node.stop - node.start)

/-- The extra node as a piece of trivia, without the line break that it may end with. -/
def toTrivia (node : Node) (source : Text) (language : Language) : Trivia :=
  let text := (node.slice source).trimEnd fun c => c == '\r' || c == '\n'
  if node.isComment then ⟨Trivia.commentKind text language, text⟩ else .other text

end Node

/-- A node on the way up from a cursor, with the siblings after it. -/
structure Frame where
  node : Node
  later : List Node

/-- A position in a tree: a node, the siblings after it, and the nodes above, innermost first. -/
structure Cursor where
  node : Node
  later : List Node
  above : List Frame

namespace Cursor

def ofRoot (root : Node) : Cursor := ⟨root, [], []⟩

def firstChild? (c : Cursor) : Option Cursor :=
  match c.node.children with
  | [] => none
  | child :: others => some ⟨child, others, ⟨c.node, c.later⟩ :: c.above⟩

def nextSibling? (c : Cursor) : Option Cursor :=
  match c.later with
  | [] => none
  | sibling :: others => some ⟨sibling, others, c.above⟩

def parent? (c : Cursor) : Option Cursor :=
  match c.above with
  | [] => none
  | frame :: above => some ⟨frame.node, frame.later, above⟩

theorem length_above_parent? {c p : Cursor} (h : c.parent? = some p) :
    p.above.length < c.above.length := by
  obtain ⟨node, later, above⟩ := c
  cases above with
  | nil => simp [parent?] at h
  | cons frame above =>
    simp only [parent?, Option.some.injEq] at h
    subst h
    simp

/-- The next node that is not below this one: the next sibling of the nearest node that has one. -/
def next? (c : Cursor) : Option Cursor :=
  match c.nextSibling? with
  | some d => some d
  | none =>
    match _h : c.parent? with
    | some p => p.next?
    | none => none
termination_by c.above.length
decreasing_by exact length_above_parent? _h

def aheadOf : List Frame → Nat
  | [] => 0
  | frame :: above => Node.sizes frame.later + aheadOf above

/-- How many nodes come after this one and all that is below it. -/
def ahead (c : Cursor) : Nat :=
  Node.sizes c.later + aheadOf c.above

/-- How many nodes a walk from here can still come to. -/
def weight (c : Cursor) : Nat :=
  c.node.size + c.ahead

theorem weight_firstChild? {c d : Cursor} (h : c.firstChild? = some d) :
    d.weight < c.weight := by
  obtain ⟨node, later, above⟩ := c
  have hsize := node.size_eq
  cases hc : node.children with
  | nil => simp [firstChild?, hc] at h
  | cons child others =>
    simp only [firstChild?, hc, Option.some.injEq] at h
    subst h
    simp only [weight, ahead, aheadOf, hc, Node.sizes_cons] at hsize ⊢
    omega

theorem weight_nextSibling? {c d : Cursor} (h : c.nextSibling? = some d) :
    d.weight ≤ c.ahead := by
  obtain ⟨node, later, above⟩ := c
  cases later with
  | nil => simp [nextSibling?] at h
  | cons sibling others =>
    simp only [nextSibling?, Option.some.injEq] at h
    subst h
    simp only [weight, ahead, Node.sizes_cons]
    omega

theorem ahead_parent? {c p : Cursor} (h : c.parent? = some p) : p.ahead ≤ c.ahead := by
  obtain ⟨node, later, above⟩ := c
  cases above with
  | nil => simp [parent?] at h
  | cons frame above =>
    simp only [parent?, Option.some.injEq] at h
    subst h
    simp only [ahead, aheadOf]
    omega

theorem weight_next?_le {c d : Cursor} (h : c.next? = some d) : d.weight ≤ c.ahead := by
  induction c using next?.induct generalizing d with
  | case1 c e hsibling =>
    rw [next?, hsibling] at h
    cases h
    exact weight_nextSibling? hsibling
  | case2 c hsibling p hparent ih =>
    rw [next?, hsibling] at h
    simp only at h
    split at h
    · next q hq =>
      rw [hparent] at hq
      cases hq
      exact Nat.le_trans (ih h) (ahead_parent? hparent)
    · simp at h
  | case3 c hsibling hparent =>
    rw [next?, hsibling] at h
    simp only at h
    split at h
    · next q hq => simp [hparent] at hq
    · simp at h

theorem weight_next? {c d : Cursor} (h : c.next? = some d) : d.weight < c.weight := by
  have hle := weight_next?_le h
  have hsize := c.node.size_eq
  simp only [weight] at hle ⊢
  omega

end Cursor

end Provenance.Syntax
