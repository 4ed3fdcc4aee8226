import Provenance.Proofs.Detection.EntryPoints
import Provenance.Proofs.Header.Lexing
import Provenance.Proofs.Syntax.PlacedOrder

/-!
Directive lines of C# and the comments on them. A condition is no lexeme of its own; the line that its
tokens stand on is taken as a whole. A comment behind it is a piece as well, so its text is taken twice,
and it counts among the comments that are looked at for a marker. Without such a comment every line
that is taken is one piece and nothing else, and the pieces stand one behind the other.
-/
namespace Provenance.Syntax

/-- Every line that is taken is one piece of trivia and nothing else: no other piece begins on it, so
neither does any of the comments that are looked at for a marker. -/
structure LinesWhole (source : Text) (language : Language) (ls : List Lexeme) (items : List Placed) :
    Prop where
  taken : ∀ line, TakenLine source language ls line → line.placed ∈ items
  alone : ∀ line, TakenLine source language ls line →
    ∀ placed ∈ items, line.Holds placed.start → placed = line.placed
  examined : ∀ item ∈ Marker.candidates (items.map Placed.item),
    ∃ placed ∈ items, placed.item = item ∧
      ∀ line, TakenLine source language ls line → ¬line.Holds placed.start

/-- If nothing shares a character with a line that is taken, all such lines are whole. -/
theorem linesWhole_of_apart {source : Text} {language : Language} {ls : List Lexeme}
    (h : InOrder source ls) (hvisible : BeginVisibly source ls)
    (hfree : ApartFromLines source language ls) :
    LinesWhole source language ls (Lexeme.triviaOf source language [] ls) := by
  have halone : ∀ line, TakenLine source language ls line →
      ∀ placed ∈ Lexeme.triviaOf source language [] ls,
        line.Holds placed.start → placed = line.placed :=
    fun line htaken placed hplaced hholds =>
      eq_line_placed_of_apart h hvisible hfree htaken hplaced hholds
  refine ⟨fun line htaken => htaken.placed_mem List.not_mem_nil, halone, ?_⟩
  intro item hitem
  obtain ⟨hmem, hkind⟩ := List.mem_filter.mp (List.mem_of_mem_take hitem)
  obtain ⟨placed, hplaced, rfl⟩ := List.mem_map.mp hmem
  refine ⟨placed, hplaced, rfl, ?_⟩
  intro line htaken hholds
  rw [halone line htaken placed hplaced hholds] at hkind
  cases hkind

/-- The text of every piece of trivia stands at its place. The pieces stand one behind the other
exactly if no comment shares a character with a directive line that is taken as a whole, and then each
such line is one piece and nothing else. -/
theorem directiveLines_apart_iff {parser : Parser} {lexing : Lexing} {text : Text}
    {language : Language} {ls : List Lexeme} {items : List Placed} (hparser : Follows parser lexing)
    (hwell : lexing text language = some ls) (hvisible : BeginVisibly text ls)
    (hitems : leadingOf text language ls = some items) :
    ∃ tree : SyntaxTree, SyntaxTree.parse parser text language = some tree ∧
      tree.leadingTrivia.run .never = (.ok (some (items.map Placed.item)), .never) ∧
      (∀ placed ∈ items, placed.item.text <+: text.drop placed.start) ∧
      (items.Pairwise Placed.Before ↔
        ApartFromLines text language (inFront text language ls)) ∧
      (ApartFromLines text language (inFront text language ls) →
        LinesWhole text language (inFront text language ls) items) := by
  have horder := (hparser.inOrder _ _ _ hwell).to_inFront language
  have hfront : BeginVisibly text (inFront text language ls) :=
    fun l hl => hvisible l (mem_of_mem_inFront hl)
  obtain ⟨tree, polls, htree, hsettles⟩ := hparser.settles hwell
  have hrun := hsettles.run_never
  rw [hitems] at hrun
  obtain ⟨-, -, rfl⟩ := Option.map_eq_some_iff.mp hitems
  exact ⟨tree, htree, hrun, fun placed hplaced => horder.isPrefix_drop hplaced,
    pairwise_triviaOf_iff horder hfront, linesWhole_of_apart horder hfront⟩

/-- Two conditions without a comment, and a marker behind them. -/
def bareConditions : Text := "#if A\n#endif\n// <auto-generated>\nclass A \x7b\x7d\n".toList

/-- Both conditions are pieces of their own, and the marker stands behind them. -/
theorem linesWhole_bareConditions :
    ∃ ls, ∃ tree : SyntaxTree, ∃ items : List Placed,
      Header.lexing bareConditions .cSharp = some ls ∧
      SyntaxTree.parse Header.parser bareConditions .cSharp = some tree ∧
      tree.leadingTrivia.run .never = (.ok (some (items.map Placed.item)), .never) ∧
      items.map Placed.item = [.other "#if A".toList, .other "#endif".toList,
        .singleLine "// <auto-generated>".toList] ∧
      LinesWhole bareConditions .cSharp (inFront bareConditions .cSharp ls) items := by
  have hwell : Header.lexing bareConditions .cSharp =
      some [⟨.token, 0, 3⟩, ⟨.token, 4, 5⟩, ⟨.token, 5, 6⟩, ⟨.token, 6, 12⟩, ⟨.comment, 13, 32⟩,
        ⟨.token, 33, 38⟩, ⟨.token, 39, 40⟩, ⟨.token, 41, 42⟩, ⟨.token, 42, 43⟩] := by decide +kernel
  have hitems : leadingOf bareConditions .cSharp
      [⟨.token, 0, 3⟩, ⟨.token, 4, 5⟩, ⟨.token, 5, 6⟩, ⟨.token, 6, 12⟩, ⟨.comment, 13, 32⟩,
        ⟨.token, 33, 38⟩, ⟨.token, 39, 40⟩, ⟨.token, 41, 42⟩, ⟨.token, 42, 43⟩] =
      some [⟨0, 5, .other "#if A".toList⟩, ⟨6, 12, .other "#endif".toList⟩,
        ⟨13, 32, .singleLine "// <auto-generated>".toList⟩] := by decide
  obtain ⟨tree, htree, hrun, -, hiff, hwhole⟩ :=
    directiveLines_apart_iff Header.parser_follows hwell (by decide) hitems
  exact ⟨_, tree, _, hwell, htree, hrun, rfl, hwhole (hiff.mp (by decide))⟩

/-- A condition with a marker behind it on the same line. -/
def conditionWithMarker : Text :=
  "#if DEBUG // <auto-generated>\n#endif\nclass A \x7b\x7d\n".toList

/-- The marker is part of the line that is taken, and a second piece that makes the file generated. -/
theorem findMarker_conditionWithMarker :
    ∃ ls, ∃ tree : SyntaxTree, ∃ items : List Placed,
      Follows Header.parser Header.lexing ∧
      Header.lexing conditionWithMarker .cSharp = some ls ∧ BeginVisibly conditionWithMarker ls ∧
      SyntaxTree.parse Header.parser conditionWithMarker .cSharp = some tree ∧
      tree.leadingTrivia.run .never = (.ok (some (items.map Placed.item)), .never) ∧
      (∀ placed ∈ items, placed.item.text <+: conditionWithMarker.drop placed.start) ∧
      items = [⟨0, 29, .other "#if DEBUG // <auto-generated>".toList⟩,
        ⟨10, 29, .singleLine "// <auto-generated>".toList⟩, ⟨30, 36, .other "#endif".toList⟩] ∧
      ¬items.Pairwise Placed.Before ∧
      (Detection.findMarker tree.leadingTrivia).run .never =
        (.ok (some "// <auto-generated>".toList), .never) := by
  have hwell : Header.lexing conditionWithMarker .cSharp =
      some [⟨.token, 0, 3⟩, ⟨.token, 4, 9⟩, ⟨.comment, 10, 29⟩, ⟨.token, 29, 30⟩, ⟨.token, 30, 36⟩,
        ⟨.token, 37, 42⟩, ⟨.token, 43, 44⟩, ⟨.token, 45, 46⟩, ⟨.token, 46, 47⟩] := by decide +kernel
  have hitems : leadingOf conditionWithMarker .cSharp
      [⟨.token, 0, 3⟩, ⟨.token, 4, 9⟩, ⟨.comment, 10, 29⟩, ⟨.token, 29, 30⟩, ⟨.token, 30, 36⟩,
        ⟨.token, 37, 42⟩, ⟨.token, 43, 44⟩, ⟨.token, 45, 46⟩, ⟨.token, 46, 47⟩] =
      some [⟨0, 29, .other "#if DEBUG // <auto-generated>".toList⟩,
        ⟨10, 29, .singleLine "// <auto-generated>".toList⟩,
        ⟨30, 36, .other "#endif".toList⟩] := by decide
  obtain ⟨tree, polls, htree, hsettles⟩ := Header.parser_follows.settles hwell
  have hrun := hsettles.run_never
  rw [hitems] at hrun
  refine ⟨_, tree, _, Header.parser_follows, hwell, by decide, htree, hrun, by decide, rfl,
    by decide, ?_⟩
  rw [Detection.run_findMarker, hrun]
  rfl

end Provenance.Syntax
