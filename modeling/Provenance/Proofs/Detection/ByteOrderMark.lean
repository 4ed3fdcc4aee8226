import Provenance.Proofs.Detection.EntryPoints
import Provenance.Proofs.Header.Displaced

/-!
A text with a byte order mark in front against the text without it. The parser skips the mark as a
blank, so all lexemes are the same one character further on. The mark is visible to the test for a
directive line, though, which only the first line can notice: a directive there that is made of tokens
is no directive behind a mark, and its first token is the first token of the text. In all other texts
the mark changes nothing.
-/
namespace Provenance.Syntax

variable {language : Language} {t : Text} {ls before after : List Lexeme} {l first : Lexeme}
  {line : Line}

/-- The first line is a directive of C# that is no lexeme of its own: a token stands on it. -/
def OpensWithDirective (t : Text) (ls : List Lexeme) : Prop :=
  ∃ l ∈ ls, l.kind = .token ∧
    ∃ line, directiveHolding? t l.start .cSharp = some line ∧ line.start = 0

theorem directiveHolding?_marked_of_free {i : Nat} (language : Language) (hi : i ≤ t.length)
    (hfree : '\n' ∉ t.take i) :
    directiveHolding? (Utf8.byteOrderMark :: t) (1 + i) language = none :=
  directiveHolding?_cons_of_free (by decide) (by decide) hi hfree

/-- If the first line is no directive that is made of tokens, the lines that hold tokens are the same
behind the mark. -/
theorem directiveHolding?_marked (hopens : ¬(language = .cSharp ∧ OpensWithDirective t ls))
    (hl : l ∈ ls) (hkind : l.kind = .token) (hle : l.start ≤ t.length) :
    directiveHolding? (Utf8.byteOrderMark :: t) (1 + l.start) language =
      (directiveHolding? t l.start language).map (·.moved 1) := by
  by_cases hlf : '\n' ∈ t.take l.start
  · exact directiveHolding?_append_of_lf [Utf8.byteOrderMark] language hle hlf
  · have hnone : directiveHolding? t l.start language = none := by
      rw [Option.eq_none_iff_forall_ne_some]
      intro line hline
      obtain ⟨first, hfirst, hzero, -⟩ :=
        lineHolding?_append_of_free [Utf8.byteOrderMark] hle hlf
      obtain ⟨rfl, hholding, -⟩ := directiveHolding?_eq_some_iff.mp hline
      rw [hfirst, Option.some.injEq] at hholding
      exact hopens ⟨rfl, l, hl, hkind, line, hline, hholding ▸ hzero⟩
    rw [hnone]
    exact directiveHolding?_marked_of_free language hle hlf

/-- The lexemes of a text that opens with a directive, parted by the first of all tokens. -/
structure Opening (t : Text) (before : List Lexeme) (first : Lexeme) (line : Line) : Prop where
  noToken : ∀ l ∈ before, l.kind ≠ .token
  isToken : first.kind = .token
  line_eq : directiveHolding? t first.start .cSharp = some line
  start_eq : line.start = 0

theorem OpensWithDirective.exists_opening (h : OpensWithDirective t ls) (horder : InOrder t ls) :
    ∃ before first after line, ls = before ++ first :: after ∧ Opening t before first line := by
  obtain ⟨l, hl, hkind, line, hline, hzero⟩ := h
  obtain ⟨hlanguage, hholding, hdirective⟩ := directiveHolding?_eq_some_iff.mp hline
  cases hfind : ls.find? fun l => decide (l.kind = .token) with
  | none => exact absurd (decide_eq_true hkind) (List.find?_eq_none.mp hfind l hl)
  | some first =>
    obtain ⟨hfirst, before, after, rfl, hbefore⟩ := List.find?_eq_some_iff_append.mp hfind
    have hinside := horder.inside first (List.mem_append_right _ List.mem_cons_self)
    have hle : first.start ≤ l.start := by
      rcases List.mem_append.mp hl with hin | hin
      · have hnot := hbefore l hin
        simp [hkind] at hnot
      · rcases List.mem_cons.mp hin with rfl | hin
        · exact Nat.le_refl _
        · have hapart := (List.pairwise_cons.mp (List.pairwise_append.mp horder.apart).2.1).1 l hin
          omega
    have hsame : lineHolding? t first.start = some line :=
      lineHolding?_of_holds (mem_lines hholding)
        ⟨hzero ▸ Nat.zero_le _, Nat.le_trans hle (holds_of_lineHolding? hholding).2⟩ (by omega)
    refine ⟨before, first, after, line, rfl, ?_, of_decide_eq_true hfirst,
      directiveHolding?_eq_some_iff.mpr ⟨hlanguage, hsame, hdirective⟩, hzero⟩
    intro other hother
    simpa using hbefore other hother

namespace Opening

/-- Behind a mark the first token is code, and what stands in front of it is all. -/
theorem length_marked (h : Opening t before first line) (hle : first.start ≤ t.length)
    (after : List Lexeme) :
    (leadingOf (Utf8.byteOrderMark :: t) .cSharp
      ((before ++ first :: after).map (·.moved 1))).map List.length = some before.length := by
  have hlf : '\n' ∉ t.take first.start := by
    intro hlf
    exact start_ne_zero_of_lf hle hlf (directiveHolding?_eq_some_iff.mp h.line_eq).2.1 h.start_eq
  have hextra : ∀ l ∈ before.map (·.moved 1), l.kind ≠ .token := by
    intro l hl
    obtain ⟨k, hk, rfl⟩ := List.mem_map.mp hl
    exact h.noToken k hk
  have hfree : ∀ l ∈ before.map (·.moved 1),
      l.isCode (Utf8.byteOrderMark :: t) .cSharp = false :=
    fun l hl => Lexeme.isCode_of_extra (hextra l hl) _ _
  have hcode : (first.moved 1).isCode (Utf8.byteOrderMark :: t) .cSharp = true :=
    Lexeme.isCode_eq_true_iff.mpr ⟨h.isToken, directiveHolding?_marked_of_free .cSharp hle hlf⟩
  rw [List.map_append, List.map_cons, leadingOf_append hfree hcode,
    ← List.append_nil (before.map (·.moved 1)), Lexeme.triviaOf_append_of_extra hextra]
  simp [Lexeme.triviaOf]

/-- Without it the directive is one more piece, unless no first token follows. -/
theorem length_lt (h : Opening t before first line) {items : List Placed}
    (hitems : leadingOf t .cSharp (before ++ first :: after) = some items) :
    before.length < items.length := by
  have hfree : ∀ l ∈ before, (!l.isCode t .cSharp) = true := by
    intro l hl
    rw [Lexeme.isCode_of_extra (h.noToken l hl) t .cSharp]
    rfl
  have hfirst : (!first.isCode t .cSharp) = true := by
    rw [Bool.not_eq_true', ← Bool.not_eq_true, Lexeme.isCode_eq_true_iff, h.line_eq]
    exact fun hcode => nomatch hcode.2
  rw [leadingOf, Option.map_eq_some_iff] at hitems
  obtain ⟨-, -, rfl⟩ := hitems
  rw [inFront, List.takeWhile_append_of_pos hfree, Lexeme.triviaOf_append_of_extra h.noToken]
  simp [hfirst, Lexeme.triviaOf, h.isToken, h.line_eq]

end Opening

/-- A byte order mark in front of a text is noticed in one case only: in a file of C# whose first line
is a directive that a token stands on. In every other file the leading trivia are the same, and so is
what is told from them. -/
theorem leadingTrivia_byteOrderMark_iff {parser : Parser} {lexing : Lexing} {path : Path}
    {language : Language} {t : Text} {ls : List Lexeme} (hparser : Follows parser lexing)
    (hskips : SkipsMark lexing) (hlanguage : Language.ofPath? path = some language)
    (hmark : t.head? ≠ some Utf8.byteOrderMark) (hwell : lexing t language = some ls) :
    ((SourceFile.leadingTrivia parser ⟨path, Utf8.byteOrderMark :: t⟩).run .never =
        (SourceFile.leadingTrivia parser ⟨path, t⟩).run .never ↔
      ¬(language = .cSharp ∧ OpensWithDirective t ls)) ∧
    (¬(language = .cSharp ∧ OpensWithDirective t ls) →
      (SourceFile.detect parser ⟨path, Utf8.byteOrderMark :: t⟩).run .never =
          (SourceFile.detect parser ⟨path, t⟩).run .never ∧
        (SourceFile.isGenerated parser ⟨path, Utf8.byteOrderMark :: t⟩).run .never =
          (SourceFile.isGenerated parser ⟨path, t⟩).run .never) := by
  have horder := hparser.inOrder _ _ _ hwell
  have hrun := hparser.run_leadingTrivia (show SourceFile.language? ⟨path, t⟩ = some language
    from hlanguage) hwell
  have hrun' := hparser.run_leadingTrivia
    (show SourceFile.language? ⟨path, Utf8.byteOrderMark :: t⟩ = some language from hlanguage)
    (hskips t language ls hmark hwell)
  have hsame : ¬(language = .cSharp ∧ OpensWithDirective t ls) →
      (SourceFile.leadingTrivia parser ⟨path, Utf8.byteOrderMark :: t⟩).run .never =
        (SourceFile.leadingTrivia parser ⟨path, t⟩).run .never := by
    intro hopens
    have hlines : ∀ l ∈ ls, l.kind = .token →
        directiveHolding? (Utf8.byteOrderMark :: t) (1 + l.start) language =
          (directiveHolding? t l.start language).map (·.moved 1) := by
      intro l hl hkind
      have hinside := horder.inside l hl
      exact directiveHolding?_marked hopens hl hkind (by omega)
    have hmoved : leadingOf (Utf8.byteOrderMark :: t) language (ls.map (·.moved 1)) =
        (leadingOf t language ls).map fun items => items.map (·.moved 1) :=
      leadingOf_moved [Utf8.byteOrderMark] hlines
    rw [hrun, hrun', hmoved, Option.map_map]
    simp only [Function.comp_def, List.map_map, Placed.moved]
  refine ⟨⟨?_, hsame⟩, fun hopens => ⟨?_, ?_⟩⟩
  · rintro hequal ⟨rfl, hopens⟩
    obtain ⟨before, first, after, line, rfl, hopening⟩ := hopens.exists_opening horder
    have hinside := horder.inside first (List.mem_append_right _ List.mem_cons_self)
    have hlength := hopening.length_marked (by omega) after
    rw [hrun, hrun'] at hequal
    have hitems := congrArg (Option.map List.length) (Except.ok.inj (Prod.mk.inj hequal).1)
    simp only [Option.map_map, Function.comp_def, List.length_map] at hitems
    rw [show (fun items : List Placed => items.length) = List.length from rfl, hlength] at hitems
    obtain ⟨items, hleading, hcount⟩ := Option.map_eq_some_iff.mp hitems.symm
    have hlt := hopening.length_lt hleading
    omega
  · exact Detection.run_detect_congr _ (Detection.run_findMarker_congr (hsame hopens))
  · exact Detection.run_isGenerated_congr _ (Detection.run_findMarker_congr (hsame hopens))

/-- A marker in the first line. -/
def markerThenClass : Text := "// <auto-generated>\nclass A \x7b\x7d\n".toList

theorem detect_markedMarker :
    markerThenClass.head? ≠ some Utf8.byteOrderMark ∧
      (SourceFile.leadingTrivia Header.parser ⟨.ofText "A.cs".toList,
          Utf8.byteOrderMark :: markerThenClass⟩).run .never =
        (SourceFile.leadingTrivia Header.parser
          ⟨.ofText "A.cs".toList, markerThenClass⟩).run .never ∧
      (SourceFile.detect Header.parser ⟨.ofText "A.cs".toList,
          Utf8.byteOrderMark :: markerThenClass⟩).run .never =
        (SourceFile.detect Header.parser ⟨.ofText "A.cs".toList, markerThenClass⟩).run .never := by
  have hwell : Header.lexing markerThenClass .cSharp =
      some [⟨.comment, 0, 19⟩, ⟨.token, 20, 25⟩, ⟨.token, 26, 27⟩, ⟨.token, 28, 29⟩,
        ⟨.token, 29, 30⟩] := by decide +kernel
  have hnone : ∀ l ∈ ([⟨.comment, 0, 19⟩, ⟨.token, 20, 25⟩, ⟨.token, 26, 27⟩, ⟨.token, 28, 29⟩,
      ⟨.token, 29, 30⟩] : List Lexeme),
      directiveHolding? markerThenClass l.start .cSharp = none := by decide
  have hopens : ¬(Language.cSharp = .cSharp ∧ OpensWithDirective markerThenClass
      [⟨.comment, 0, 19⟩, ⟨.token, 20, 25⟩, ⟨.token, 26, 27⟩, ⟨.token, 28, 29⟩,
        ⟨.token, 29, 30⟩]) := by
    rintro ⟨-, l, hl, -, line, hline, -⟩
    rw [hnone l hl] at hline
    cases hline
  have hlanguage : Language.ofPath? (.ofText "A.cs".toList) = some .cSharp := by decide
  have hmark : markerThenClass.head? ≠ some Utf8.byteOrderMark := by decide
  obtain ⟨htrivia, hdetect⟩ := leadingTrivia_byteOrderMark_iff Header.parser_follows
    Header.lexing_skipsMark hlanguage hmark hwell
  exact ⟨hmark, htrivia.mpr hopens, (hdetect hopens).1⟩

/-- A condition in the first line and a marker behind it. -/
def conditionThenMarker : Text := "#if DEBUG\n#endif\n// <auto-generated>\nclass A \x7b\x7d\n".toList

/-- Behind a mark the condition is the first token, so nothing stands in front of it and the marker is
not seen. -/
theorem detect_marked_conditionThenMarker :
    Follows Header.parser Header.lexing ∧ SkipsMark Header.lexing ∧
      (∃ ls, Header.lexing conditionThenMarker .cSharp = some ls) ∧
      conditionThenMarker.head? ≠ some Utf8.byteOrderMark ∧
      ((SourceFile.leadingTrivia Header.parser
          ⟨.ofText "A.cs".toList, conditionThenMarker⟩).run .never).1 =
        .ok (some [.other "#if DEBUG".toList, .other "#endif".toList,
          .singleLine "// <auto-generated>".toList]) ∧
      ((SourceFile.leadingTrivia Header.parser ⟨.ofText "A.cs".toList,
          Utf8.byteOrderMark :: conditionThenMarker⟩).run .never).1 = .ok (some []) ∧
      ((SourceFile.detect Header.parser
          ⟨.ofText "A.cs".toList, conditionThenMarker⟩).run .never).1 =
        .ok (some (.marker "// <auto-generated>".toList)) ∧
      ((SourceFile.detect Header.parser ⟨.ofText "A.cs".toList,
          Utf8.byteOrderMark :: conditionThenMarker⟩).run .never).1 = .ok none := by
  have hlanguage : Language.ofPath? (.ofText "A.cs".toList) = some .cSharp := by decide
  have hname : NameRule.fires (Path.ofText "A.cs".toList).display = false := by decide
  have hmark : conditionThenMarker.head? ≠ some Utf8.byteOrderMark := by decide
  have hwell : Header.lexing conditionThenMarker .cSharp =
      some [⟨.token, 0, 3⟩, ⟨.token, 4, 9⟩, ⟨.token, 9, 10⟩, ⟨.token, 10, 16⟩, ⟨.comment, 17, 36⟩,
        ⟨.token, 37, 42⟩, ⟨.token, 43, 44⟩, ⟨.token, 45, 46⟩, ⟨.token, 46, 47⟩] := by decide +kernel
  have htrivia := Header.parser_follows.run_leadingTrivia (show SourceFile.language?
    ⟨.ofText "A.cs".toList, conditionThenMarker⟩ = some .cSharp from hlanguage) hwell
  have htrivia' := Header.parser_follows.run_leadingTrivia (show SourceFile.language?
    ⟨.ofText "A.cs".toList, Utf8.byteOrderMark :: conditionThenMarker⟩ = some .cSharp
      from hlanguage) (Header.lexing_skipsMark _ _ _ hmark hwell)
  refine ⟨Header.parser_follows, Header.lexing_skipsMark, ⟨_, hwell⟩, hmark, ?_, ?_, ?_, ?_⟩
  · rw [htrivia]
    decide
  · rw [htrivia']
    decide
  · rw [SourceFile.run_detect htrivia hname]
    decide
  · rw [SourceFile.run_detect htrivia' hname]
    decide

end Provenance.Syntax
