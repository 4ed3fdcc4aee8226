import Provenance.Trivia

/-!
The markers that tools write at the top of their output. A marker counts only as the whole text of
one of the first two plain comments in front of the first token.
-/
namespace Provenance.Marker

def known : List Text :=
  ["// This file has been generated by the GUI designer. Do not modify.".toList,
    "// <auto-generated>".toList,
    "// <autogenerated>".toList]

/-- How many plain comments are looked at. -/
def examined : Nat := 2

def candidates (items : List Trivia) : List Trivia :=
  (items.filter fun t => t.kind == .singleLine).take examined

def ofText? (text : Text) : Option Text :=
  known.find? (· == text)

theorem ofText?_eq (text : Text) : ofText? text = if text ∈ known then some text else none := by
  rw [ofText?]
  cases hfind : known.find? (· == text) with
  | none =>
    rw [if_neg]
    intro hmem
    exact List.find?_eq_none.mp hfind text hmem BEq.rfl
  | some marker =>
    have heq : marker = text := by simpa using List.find?_some hfind
    have hmem := List.mem_of_find?_eq_some hfind
    rw [heq] at hmem ⊢
    rw [if_pos hmem]

/-- The first marker among the comments that are looked at. -/
def find? (items : List Trivia) : Option Text :=
  (candidates items).findSome? fun t => ofText? t.text

end Provenance.Marker
