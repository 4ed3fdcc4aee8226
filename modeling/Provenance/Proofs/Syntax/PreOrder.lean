import Provenance.Proofs.Cancellation.Polling
import Provenance.Proofs.Syntax.Lines

/-!
The leading trivia of a tree by recursion over the tree, without a cursor. The nodes are listed in
pre-order, extra nodes without what is below them. The first token is the first leaf in the list that
covers text and stands on no directive line; in front of it every extra node is a piece of trivia,
and so is every directive line that holds a leaf. The walk with a cursor settles, after at most one
poll a node, on this list.
-/
namespace Provenance.Syntax

/-- A piece of trivia with the stretch of the text that it was taken from. -/
structure Placed where
  start : Nat
  stop : Nat
  item : Trivia
deriving DecidableEq

namespace Node

mutual

/-- The node and, if it is not extra, all nodes below it in pre-order. -/
def visits : Node → List Node
  | ⟨kind, isExtra, isMissing, start, stop, children⟩ =>
    ⟨kind, isExtra, isMissing, start, stop, children⟩ :: if isExtra then [] else visitsAll children

def visitsAll : List Node → List Node
  | [] => []
  | node :: nodes => visits node ++ visitsAll nodes

end

def isLeaf (node : Node) : Bool := !node.isExtra && node.children.isEmpty

/-- A leaf that was not assumed by the parser and covers some text. -/
def coversText (node : Node) : Bool :=
  node.isLeaf && !node.isMissing && node.start != node.stop

/-- The directive line that a leaf stands on. -/
def directive? (node : Node) (source : Text) (language : Language) : Option Line :=
  if node.coversText then directiveHolding? source node.start language else none

theorem coversText_of_directive? {node : Node} {source : Text} {language : Language} {line : Line}
    (h : node.directive? source language = some line) :
    node.coversText = true ∧ directiveHolding? source node.start language = some line := by
  unfold directive? at h
  split at h
  · next hcovers => exact ⟨hcovers, h⟩
  · cases h

def isToken (source : Text) (language : Language) (node : Node) : Bool :=
  node.coversText && (node.directive? source language).isNone

def placed (node : Node) (source : Text) (language : Language) : Placed :=
  ⟨node.start, node.stop, node.toTrivia source language⟩

end Node

def Line.placed (line : Line) : Placed :=
  ⟨line.start, line.start + line.content.length, .other line.content⟩

/-- The trivia of nodes in order. Lines that start at a place in `noted` have been taken already. -/
def triviaOf (source : Text) (language : Language) (noted : List Nat) : List Node → List Placed
  | [] => []
  | node :: nodes =>
    if node.isExtra then node.placed source language :: triviaOf source language noted nodes
    else
      match node.directive? source language with
      | none => triviaOf source language noted nodes
      | some line =>
        if line.start ∈ noted then triviaOf source language noted nodes
        else line.placed :: triviaOf source language (line.start :: noted) nodes

/-- The trivia of the nodes in front of the first token, if there is one. -/
def triviaBeforeToken (source : Text) (language : Language) (noted : List Nat)
    (nodes : List Node) : Option (List Placed) :=
  if nodes.any (·.isToken source language) then
    some (triviaOf source language noted (nodes.takeWhile fun node => !node.isToken source language))
  else none

/-- The leading trivia of a tree. -/
def placedTrivia (root : Node) (source : Text) (language : Language) : Option (List Placed) :=
  triviaBeforeToken source language [] root.visits

/-- All nodes that a walk can come to lie in the text, and its leaves stand in order. -/
structure Node.FitsIn (root : Node) (source : Text) : Prop where
  inside : ∀ node ∈ root.visits, node.start ≤ node.stop ∧ node.stop ≤ source.length
  ordered : (root.visits.filter Node.isLeaf).Pairwise fun a b => a.start ≤ b.start

namespace Node

@[simp] theorem visitsAll_nil : visitsAll [] = [] := by
  simp [visitsAll]

@[simp] theorem visitsAll_cons (node : Node) (nodes : List Node) :
    visitsAll (node :: nodes) = node.visits ++ visitsAll nodes := by
  simp [visitsAll]

theorem visits_eq (node : Node) :
    node.visits = node :: if node.isExtra then [] else visitsAll node.children := by
  cases node
  simp [visits]

mutual

theorem length_visits_le : (node : Node) → node.visits.length ≤ node.size
  | ⟨kind, isExtra, isMissing, start, stop, children⟩ => by
    have hbelow := length_visitsAll_le children
    rw [visits_eq, size_eq]
    cases isExtra with
    | true => simp
    | false =>
      simp only [Bool.false_eq_true, if_false, List.length_cons]
      omega

theorem length_visitsAll_le : (nodes : List Node) → (visitsAll nodes).length ≤ sizes nodes
  | [] => by simp
  | node :: nodes => by
    have hnode := length_visits_le node
    have hnodes := length_visitsAll_le nodes
    simp only [visitsAll_cons, List.length_append, sizes_cons]
    omega

end

end Node

namespace Cursor

open Node

/-- The nodes that a walk comes to behind those on the way up. -/
def visitsAbove : List Frame → List Node
  | [] => []
  | frame :: above => visitsAll frame.later ++ visitsAbove above

/-- The nodes that a walk comes to once it has left the node at the cursor. -/
def rest (c : Cursor) : List Node := visitsAll c.later ++ visitsAbove c.above

def remaining (c : Cursor) : List Node := c.node.visits ++ c.rest

/-- Climbing out of exhausted subtrees leads to the next node in pre-order. -/
theorem remaining_next? (c : Cursor) : (c.next?.map remaining).getD [] = c.rest := by
  induction c using next?.induct with
  | case1 c d hsibling =>
    obtain ⟨node, later, above⟩ := c
    cases later with
    | nil => simp [nextSibling?] at hsibling
    | cons sibling others =>
      simp only [nextSibling?, Option.some.injEq] at hsibling
      subst hsibling
      rw [next?]
      simp [nextSibling?, remaining, rest]
  | case2 c hsibling p hparent ih =>
    obtain ⟨node, later, above⟩ := c
    cases later with
    | cons sibling others => simp [nextSibling?] at hsibling
    | nil =>
      cases above with
      | nil => simp [parent?] at hparent
      | cons frame above =>
        simp only [parent?, Option.some.injEq] at hparent
        subst hparent
        rw [next?]
        simp only [nextSibling?, parent?]
        rw [ih]
        simp [rest, visitsAbove]
  | case3 c hsibling hparent =>
    obtain ⟨node, later, above⟩ := c
    cases later with
    | cons sibling others => simp [nextSibling?] at hsibling
    | nil =>
      cases above with
      | cons frame above => simp [parent?] at hparent
      | nil =>
        rw [next?]
        simp [nextSibling?, parent?, rest, visitsAbove]

theorem remaining_firstChild? {c d : Cursor} (hextra : c.node.isExtra = false)
    (h : c.firstChild? = some d) : c.remaining = c.node :: d.remaining := by
  obtain ⟨node, later, above⟩ := c
  cases hchildren : node.children with
  | nil => simp [firstChild?, hchildren] at h
  | cons child others =>
    simp only [firstChild?, hchildren, Option.some.injEq] at h
    subst h
    simp only at hextra
    simp [remaining, rest, visitsAbove, visits_eq node, hextra, hchildren]

end Cursor

/-- What a walk that comes to these nodes in turn ends with. -/
def scan (source : Text) (language : Language) (p : Progress) : List Node → Option (List Trivia)
  | [] => none
  | node :: nodes =>
    match visit source language p node with
    | .found => some p.items
    | .enter => scan source language p nodes
    | .pass q => scan source language q nodes

end Provenance.Syntax
