import Provenance.Proofs.Detection.EntryPoints
import Provenance.Proofs.Header.Lexing

/-!
The first token of a text is its first lexeme that is neither a comment nor part of a directive, where
everything on a line that begins with a number sign is part of a directive. The leading trivia end in
front of it and leave out nothing visible, and what stands behind it changes neither them nor what is
told from them. A number sign inside a comment counts like any other, so code on its line is no first
token.
-/
namespace Provenance.Syntax

section

variable {source source' : Text} {language : Language} {ls : List Lexeme} {l token : Lexeme}
  {placed : Placed}

theorem kind_of_not_isCode (h : l.isCode source language = false)
    (hline : directiveHolding? source l.start language = none) : l.kind ≠ .token := by
  intro hkind
  rw [Lexeme.isCode_eq_true_iff.mpr ⟨hkind, hline⟩] at h
  cases h

theorem exists_directive_of_not_isCode (h : l.isCode source language = false)
    (hkind : l.kind = .token) : ∃ line, directiveHolding? source l.start language = some line := by
  apply Option.ne_none_iff_exists'.mp
  intro hline
  exact kind_of_not_isCode h hline hkind

/-- What stands in front of the first token ends in front of it. -/
theorem InOrder.stop_le_of_inFront (h : InOrder source ls)
    (htoken : firstToken? source language ls = some token) (hl : l ∈ inFront source language ls) :
    l.stop ≤ token.start := by
  obtain ⟨-, after, hsplit, -⟩ := exists_split_of_firstToken htoken
  have hapart := h.apart
  rw [hsplit] at hapart
  exact (List.pairwise_append.mp hapart).2.2 l hl token List.mem_cons_self

/-- A directive line in front of the first token ends in front of it too, or it would hold it. -/
theorem InOrder.exists_directive_stop_lt (h : InOrder source ls)
    (htoken : firstToken? source language ls = some token) (hl : l ∈ inFront source language ls)
    (hkind : l.kind = .token) :
    ∃ line, directiveHolding? source l.start language = some line ∧ line.stop < token.start := by
  obtain ⟨hcode, after, hsplit, hfree⟩ := exists_split_of_firstToken htoken
  obtain ⟨line, hline⟩ := exists_directive_of_not_isCode (hfree l hl) hkind
  refine ⟨line, hline, ?_⟩
  by_contra hreach
  have hinside := h.inside l (mem_of_mem_inFront hl)
  have hinside' := h.inside token (List.mem_of_find?_eq_some htoken)
  have hle := h.stop_le_of_inFront htoken hl
  have hholds := directiveHolding?_of_le hline (show l.start ≤ token.start by omega)
    (by omega) (by omega)
  rw [(Lexeme.isCode_eq_true_iff.mp hcode).2] at hholds
  cases hholds

/-- All pieces of trivia lie in front of the first token. -/
theorem InOrder.placed_le (h : InOrder source ls)
    (htoken : firstToken? source language ls = some token)
    (hplaced : placed ∈ Lexeme.triviaOf source language [] (inFront source language ls)) :
    placed.start < token.start ∧ placed.stop ≤ token.start := by
  obtain ⟨l, hl, ⟨-, rfl⟩ | ⟨hkind, line, hline, -, rfl⟩⟩ := Lexeme.mem_triviaOf hplaced
  · have hinside := h.inside l (mem_of_mem_inFront hl)
    have hle := h.stop_le_of_inFront htoken hl
    simp only [Lexeme.placed]
    omega
  · obtain ⟨line', hline', hlt⟩ := h.exists_directive_stop_lt htoken hl hkind
    rw [hline', Option.some.injEq] at hline
    subst hline
    have hlength := length_content_le line'
    simp only [Line.placed]
    rw [Line.stop] at hlt
    omega

/-- Every lexeme in front of the first token that begins visibly begins in a piece of trivia. -/
theorem InOrder.exists_placed (h : InOrder source ls)
    (htoken : firstToken? source language ls = some token) (hl : l ∈ inFront source language ls)
    {c : Char} (hc : source[l.start]? = some c) (hvisible : isWhiteSpace c = false) :
    ∃ placed ∈ Lexeme.triviaOf source language [] (inFront source language ls),
      placed.start ≤ l.start ∧ l.start < placed.stop := by
  by_cases hkind : l.kind = .token
  · obtain ⟨line, hline, -⟩ := h.exists_directive_stop_lt htoken hl hkind
    have hholding := (directiveHolding?_eq_some_iff.mp hline).2.1
    refine ⟨_, Lexeme.line_placed_mem_triviaOf hl hkind hline List.not_mem_nil, ?_, ?_⟩
    · exact (holds_of_lineHolding? hholding).1
    · exact lt_of_visible hholding hc hvisible
  · refine ⟨_, Lexeme.placed_mem_triviaOf hl hkind, Nat.le_refl _, ?_⟩
    exact (h.inside l (mem_of_mem_inFront hl)).1

theorem Lexeme.placed_local {m : Nat} (hsame : Agree m source source') (hle : l.stop ≤ m) :
    l.placed source' language = l.placed source language := by
  have hslice : l.slice source' = l.slice source := ((hsame.drop l.start).mono (by omega)).symm
  rw [placed, placed, toTrivia, toTrivia, hslice]

/-- Two texts that agree up to and with the first token of both, and have the same lexemes in front of
it, have the same leading trivia. -/
theorem leadingOf_local {ls' : List Lexeme} (h : InOrder source ls) (h' : InOrder source' ls')
    (htoken : firstToken? source language ls = some token)
    (htoken' : firstToken? source' language ls' = some token)
    (hfront : inFront source' language ls' = inFront source language ls)
    (hsame : Agree token.stop source source') :
    leadingOf source' language ls' = leadingOf source language ls := by
  have hinside := h.inside token (List.mem_of_find?_eq_some htoken)
  have hinside' := h'.inside token (List.mem_of_find?_eq_some htoken')
  rw [leadingOf, leadingOf, htoken, htoken', hfront]
  refine congrArg some (Lexeme.triviaOf_congr ?_ ?_)
  · intro l hl _
    have hle := h.stop_le_of_inFront htoken hl
    exact Lexeme.placed_local hsame (by omega)
  · intro l hl hkind
    have hle := h.stop_le_of_inFront htoken hl
    have hstart := (h.inside l (mem_of_mem_inFront hl)).1
    obtain ⟨line, hline, hlt⟩ := h.exists_directive_stop_lt htoken hl hkind
    rw [hline]
    exact directiveHolding?_local hsame (by omega) (by omega) hline (by omega)

end

/-- The leading trivia lie in front of the first token, and every lexeme there that begins visibly
begins in one of them. They are the same for all texts that have this first token and agree up to and
with it, and so is what is told from them. -/
theorem leadingTrivia_before_firstToken {parser : Parser} {lexing : Lexing} {text : Text}
    {language : Language} {ls : List Lexeme} {token : Lexeme} (hparser : Follows parser lexing)
    (hlexing : LeftToRight lexing) (hwell : lexing text language = some ls)
    (htoken : firstToken? text language ls = some token) :
    ∃ (tree : SyntaxTree) (items : List Placed),
      SyntaxTree.parse parser text language = some tree ∧
      tree.leadingTrivia.run .never = (.ok (some (items.map Placed.item)), .never) ∧
      (∀ placed ∈ items, placed.start < token.start ∧ placed.stop ≤ token.start ∧
        placed.item.text <+: text.drop placed.start) ∧
      (∀ l ∈ inFront text language ls, ∀ c, text[l.start]? = some c → isWhiteSpace c = false →
        ∃ placed ∈ items, placed.start ≤ l.start ∧ l.start < placed.stop) ∧
      ∀ text' ls', lexing text' language = some ls' → firstToken? text' language ls' = some token →
        text'.take token.stop = text.take token.stop →
        ∃ tree', SyntaxTree.parse parser text' language = some tree' ∧
          tree'.leadingTrivia.run .never = tree.leadingTrivia.run .never ∧
          (Detection.findMarker tree'.leadingTrivia).run .never =
            (Detection.findMarker tree.leadingTrivia).run .never ∧
          ∀ path, (Detection.isGenerated path tree'.leadingTrivia).run .never =
            (Detection.isGenerated path tree.leadingTrivia).run .never := by
  have horder := hparser.inOrder _ _ _ hwell
  obtain ⟨tree, polls, htree, hsettles⟩ := hparser.settles hwell
  have hrun := hsettles.run_never
  refine ⟨tree, Lexeme.triviaOf text language [] (inFront text language ls), htree, ?_, ?_, ?_, ?_⟩
  · rw [hrun, leadingOf, htoken]
    rfl
  · intro placed hplaced
    have hle := horder.placed_le htoken hplaced
    exact ⟨hle.1, hle.2, (horder.to_inFront language).isPrefix_drop hplaced⟩
  · intro l hl c hc hvisible
    exact horder.exists_placed htoken hl hc hvisible
  · intro text' ls' hwell' htoken' hsame
    obtain ⟨tree', polls', htree', hsettles'⟩ := hparser.settles hwell'
    have hleading := leadingOf_local horder (hparser.inOrder _ _ _ hwell') htoken htoken'
      (hlexing _ _ _ _ _ _ hwell hwell' htoken htoken' hsame) hsame.symm
    have hrun' : tree'.leadingTrivia.run .never = tree.leadingTrivia.run .never := by
      rw [hsettles'.run_never, hrun, hleading]
    have hmarker := Detection.run_findMarker_congr hrun'
    exact ⟨tree', htree', hrun', hmarker, fun path => Detection.run_isGenerated_congr path hmarker⟩

def conditionThenUsing : Text := "#if A\nusing A;\n".toList

def conditionThenUsingAndMarker : Text := "#if A\nusing\n// <auto-generated>\nB;\n".toList

/-- A condition in front of the first token, and a marker behind the token in one of two texts. -/
theorem findMarker_behind_using :
    ∃ ls ls' token, ∃ tree tree' : SyntaxTree,
      Header.lexing conditionThenUsing .cSharp = some ls ∧
      Header.lexing conditionThenUsingAndMarker .cSharp = some ls' ∧
      firstToken? conditionThenUsing .cSharp ls = some token ∧
      firstToken? conditionThenUsingAndMarker .cSharp ls' = some token ∧
      conditionThenUsingAndMarker.take token.stop = conditionThenUsing.take token.stop ∧
      SyntaxTree.parse Header.parser conditionThenUsing .cSharp = some tree ∧
      SyntaxTree.parse Header.parser conditionThenUsingAndMarker .cSharp = some tree' ∧
      (Detection.findMarker tree'.leadingTrivia).run .never =
        (Detection.findMarker tree.leadingTrivia).run .never := by
  have hwell : Header.lexing conditionThenUsing .cSharp =
      some [⟨.token, 0, 3⟩, ⟨.token, 4, 5⟩, ⟨.token, 5, 6⟩, ⟨.token, 6, 11⟩, ⟨.token, 12, 13⟩,
        ⟨.token, 13, 14⟩] := by decide +kernel
  have hwell' : Header.lexing conditionThenUsingAndMarker .cSharp =
      some [⟨.token, 0, 3⟩, ⟨.token, 4, 5⟩, ⟨.token, 5, 6⟩, ⟨.token, 6, 11⟩, ⟨.comment, 12, 31⟩,
        ⟨.token, 32, 33⟩, ⟨.token, 33, 34⟩] := by decide +kernel
  have htoken : firstToken? conditionThenUsing .cSharp
      [⟨.token, 0, 3⟩, ⟨.token, 4, 5⟩, ⟨.token, 5, 6⟩, ⟨.token, 6, 11⟩, ⟨.token, 12, 13⟩,
        ⟨.token, 13, 14⟩] = some ⟨.token, 6, 11⟩ := by decide
  have htoken' : firstToken? conditionThenUsingAndMarker .cSharp
      [⟨.token, 0, 3⟩, ⟨.token, 4, 5⟩, ⟨.token, 5, 6⟩, ⟨.token, 6, 11⟩, ⟨.comment, 12, 31⟩,
        ⟨.token, 32, 33⟩, ⟨.token, 33, 34⟩] = some ⟨.token, 6, 11⟩ := by decide
  have hsame : conditionThenUsingAndMarker.take 11 = conditionThenUsing.take 11 := by decide
  obtain ⟨tree, items, htree, -, -, -, hlaw⟩ := leadingTrivia_before_firstToken
    Header.parser_follows Header.lexing_leftToRight hwell htoken
  obtain ⟨tree', htree', -, hmarker, -⟩ := hlaw _ _ hwell' htoken' hsame
  exact ⟨_, _, _, tree, tree', hwell, hwell', htoken, htoken', hsame, htree, htree', hmarker⟩

/-- A directive line whose number sign stands in no comment. -/
def isProperDirective (ls : List Lexeme) (line : Line) : Bool :=
  let sign := line.start + (line.text.takeWhile isWhiteSpace).length
  !ls.any fun l => l.kind = .comment && l.start ≤ sign && sign < l.stop

/-- The first lexeme that is neither a comment nor a directive nor on such a line. -/
def firstProperToken? (source : Text) (language : Language) (ls : List Lexeme) : Option Lexeme :=
  ls.find? fun l => l.kind = .token &&
    ((directiveHolding? source l.start language).filter (isProperDirective ls)).isNone

/-- A number sign in a comment, with code on its line. -/
def signInComment : Text := "/*\n# */ using A;\n".toList

def signInCommentThenMarker : Text := signInComment ++ "// <auto-generated>\nusing B;\n".toList

/-- Code on the line of a number sign in a comment is passed over, and a marker behind it is found. -/
theorem findMarker_behind_signInComment :
    ∃ ls ls' token, ∃ tree tree' : SyntaxTree, ∃ items : List Placed,
      Follows Header.parser Header.lexing ∧ LeftToRight Header.lexing ∧
      Header.lexing signInComment .cSharp = some ls ∧
      Header.lexing signInCommentThenMarker .cSharp = some ls' ∧
      firstProperToken? signInComment .cSharp ls = some token ∧
      firstProperToken? signInCommentThenMarker .cSharp ls' = some token ∧
      signInCommentThenMarker.take token.stop = signInComment.take token.stop ∧
      SyntaxTree.parse Header.parser signInComment .cSharp = some tree ∧
      SyntaxTree.parse Header.parser signInCommentThenMarker .cSharp = some tree' ∧
      tree'.leadingTrivia.run .never = (.ok (some (items.map Placed.item)), .never) ∧
      (∃ placed ∈ items, token.stop < placed.start ∧
        placed.item.text <+: signInCommentThenMarker.drop placed.start) ∧
      (Detection.findMarker tree'.leadingTrivia).run .never =
        (.ok (some "// <auto-generated>".toList), .never) ∧
      (Detection.findMarker tree.leadingTrivia).run .never = (.ok none, .never) := by
  have hwell : Header.lexing signInComment .cSharp =
      some [⟨.comment, 0, 7⟩, ⟨.token, 8, 13⟩, ⟨.token, 14, 15⟩, ⟨.token, 15, 16⟩] := by decide +kernel
  have hwell' : Header.lexing signInCommentThenMarker .cSharp =
      some [⟨.comment, 0, 7⟩, ⟨.token, 8, 13⟩, ⟨.token, 14, 15⟩, ⟨.token, 15, 16⟩,
        ⟨.comment, 17, 36⟩, ⟨.token, 37, 42⟩, ⟨.token, 43, 44⟩, ⟨.token, 44, 45⟩] := by decide +kernel
  have hnone : leadingOf signInComment .cSharp
      [⟨.comment, 0, 7⟩, ⟨.token, 8, 13⟩, ⟨.token, 14, 15⟩, ⟨.token, 15, 16⟩] = none := by decide
  have hitems : leadingOf signInCommentThenMarker .cSharp
      [⟨.comment, 0, 7⟩, ⟨.token, 8, 13⟩, ⟨.token, 14, 15⟩, ⟨.token, 15, 16⟩, ⟨.comment, 17, 36⟩,
        ⟨.token, 37, 42⟩, ⟨.token, 43, 44⟩, ⟨.token, 44, 45⟩] =
      some [⟨0, 7, .other "/*\n# */".toList⟩, ⟨3, 16, .other "# */ using A;".toList⟩,
        ⟨17, 36, .singleLine "// <auto-generated>".toList⟩] := by decide
  obtain ⟨tree, polls, htree, hsettles⟩ := Header.parser_follows.settles hwell
  obtain ⟨tree', polls', htree', hsettles'⟩ := Header.parser_follows.settles hwell'
  have hrun := hsettles.run_never
  have hrun' := hsettles'.run_never
  rw [hnone] at hrun
  rw [hitems] at hrun'
  refine ⟨_, _, ⟨.token, 8, 13⟩, tree, tree', _, Header.parser_follows, Header.lexing_leftToRight,
    hwell, hwell', by decide, by decide, by decide, htree, htree', hrun',
    ⟨_, List.mem_cons_of_mem _ (List.mem_cons_of_mem _ List.mem_cons_self), by decide, by decide⟩,
    ?_, ?_⟩
  · rw [Detection.run_findMarker, hrun']
    rfl
  · rw [Detection.run_findMarker, hrun]
    rfl

end Provenance.Syntax
