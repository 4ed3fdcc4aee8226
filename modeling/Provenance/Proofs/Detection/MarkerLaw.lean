import Provenance.Proofs.Detection.EntryPoints
import Provenance.Proofs.Header.LineComments

/-!
The marker rule on headers of line comments. A line begins afresh behind such a header, so what follows
it is read as if it stood alone. If that begins with a token, the leading trivia are the comments and
the marker is the first one among the first two plain comments that is known; documentation does not
count. If no token follows, there is no trivia and no marker.
-/
namespace Provenance.Syntax

variable {parser : Parser} {lexing : Lexing} {language : Language}

/-- The text begins with a token, which is not one of a directive. -/
structure BeginsWithToken (lexing : Lexing) (language : Language) (program : Text) : Prop where
  not_opensFile : ¬OpensFile language program
  exists_token : ∃ token others, lexing program language = some (token :: others) ∧
    token.isCode program language = true

/-- The text has no token, except on directive lines. -/
structure HoldsNoToken (lexing : Lexing) (language : Language) (rest : Text) : Prop where
  not_opensFile : ¬OpensFile language rest
  exists_lexemes : ∃ ls, lexing rest language = some ls ∧ ∀ l ∈ ls, l.isCode rest language = false

/-- The first known text among the first two comments that are no documentation. -/
def earliestMarker? (language : Language) (comments : List Text) : Option Text :=
  ((comments.filter fun text => Trivia.commentKind text language = .singleLine).take 2).find?
    fun text => text ∈ Marker.known

/-- The rule looks at the comments as they are written. -/
theorem find?_comments (language : Language) (comments : List Text) :
    Marker.find? (comments.map fun text => ⟨Trivia.commentKind text language, text⟩) =
      earliestMarker? language comments := by
  have hcandidates : Marker.candidates
      (comments.map fun text => ⟨Trivia.commentKind text language, text⟩) =
      ((comments.filter fun text => Trivia.commentKind text language = .singleLine).take 2).map
        fun text => ⟨Trivia.commentKind text language, text⟩ := by
    rw [Marker.candidates, List.filter_map, ← List.map_take]
    rfl
  rw [Marker.find?, hcandidates, List.findSome?_map, earliestMarker?]
  induction (comments.filter fun text => Trivia.commentKind text language = .singleLine).take 2 with
  | nil => rfl
  | cons text others ih =>
    rw [List.findSome?_cons, List.find?_cons, ih]
    by_cases hknown : text ∈ Marker.known
    · simp only [Function.comp_apply, Marker.ofText?_eq, hknown, if_true, decide_true]
    · simp only [Function.comp_apply, Marker.ofText?_eq, hknown, if_false, decide_false]

/-- Blanks and one comment that ends the text hold no token. -/
theorem ReadsLineComments.holdsNoToken (h : ReadsLineComments lexing language) {gap last : Text}
    (hgap : ∀ c ∈ gap, IsBlank c) (hlast : last = [] ∨ LineComment language last) :
    HoldsNoToken lexing language (gap ++ last) := by
  obtain ⟨ls, hwell, hextra⟩ : ∃ ls, lexing last language = some ls ∧ ∀ l ∈ ls, l.kind ≠ .token := by
    rcases hlast with rfl | hcomment
    · exact ⟨[], h.nil, nofun⟩
    · refine ⟨_, h.last last hcomment, ?_⟩
      intro l hl
      rw [List.mem_singleton.mp hl]
      nofun
  have hopens : ¬OpensFile language last := by
    rcases hlast with rfl | hcomment
    · rintro (hmark | ⟨u, heq, -⟩)
      · cases hmark
      · cases heq
    · rw [← List.append_nil last]
      exact hcomment.not_opensFile []
  refine ⟨not_opensFile_of_blanks hgap hopens, _, (h.fronts_blanks hgap hopens hwell).lexing_eq, ?_⟩
  intro l hl
  obtain ⟨k, hk, rfl⟩ := List.mem_map.mp hl
  exact Lexeme.isCode_of_extra (l := k.moved gap.length) (hextra k hk) _ language

section

variable (hparser : Follows parser lexing) (hcomments : ReadsLineComments lexing language)
  {path : Path} (hlanguage : Language.ofPath? path = some language)
  (lines : List (CommentLine language))

include hparser hcomments hlanguage

/-- Behind a header of comments and a gap, a token leaves the comments as the leading trivia. -/
theorem run_leadingTrivia_of_beginsWithToken {gap program : Text} (hgap : ∀ c ∈ gap, IsBlank c)
    (hprogram : BeginsWithToken lexing language program) :
    (SourceFile.leadingTrivia parser ⟨path, layout lines ++ (gap ++ program)⟩).run .never =
      (.ok (some (lines.map CommentLine.trivia)), .never) := by
  obtain ⟨token, others, hwell, hcode⟩ := hprogram.exists_token
  have hgaps := hcomments.fronts_blanks hgap hprogram.not_opensFile hwell
  obtain ⟨front, hlines⟩ := hcomments.exists_fronts_layout lines
    (not_opensFile_of_blanks hgap hprogram.not_opensFile) hgaps.lexing_eq
  have hfronts := hlines.append hgaps
  have hfresh : EndsFresh (layout lines ++ gap) :=
    (endsFresh_layout lines).append_whiteSpace fun c hc => isWhiteSpace_of_isBlank (hgap c hc)
  have hinside := (hparser.inOrder _ _ _ hwell).inside token List.mem_cons_self
  have hitems := hfronts.map_leadingOf hfresh (by omega) hcode
  rw [List.append_nil] at hitems
  rw [← List.append_assoc, hparser.run_leadingTrivia (show SourceFile.language?
    ⟨path, layout lines ++ gap ++ program⟩ = some language from hlanguage) hfronts.lexing_eq]
  exact congrArg (fun answer => (Except.ok answer, Signal.never)) hitems

/-- Behind a header of comments, no token means no trivia. -/
theorem run_leadingTrivia_of_holdsNoToken {rest : Text}
    (hrest : HoldsNoToken lexing language rest) :
    (SourceFile.leadingTrivia parser ⟨path, layout lines ++ rest⟩).run .never =
      (.ok none, .never) := by
  obtain ⟨ls, hwell, hfree⟩ := hrest.exists_lexemes
  obtain ⟨front, hlines⟩ := hcomments.exists_fronts_layout lines hrest.not_opensFile hwell
  have hle : ∀ l ∈ ls, l.start ≤ rest.length := by
    intro l hl
    have hinside := (hparser.inOrder _ _ _ hwell).inside l hl
    omega
  rw [hparser.run_leadingTrivia (show SourceFile.language? ⟨path, layout lines ++ rest⟩ =
    some language from hlanguage) hlines.lexing_eq]
  simp only [hlines.leadingOf_eq_none (endsFresh_layout lines) hle hfree, Option.map_none]

end

/-- Documentation and a marker below it. -/
def documentedMarker : List (CommentLine .cPlusPlus) :=
  [⟨[], "/// x".toList, "\r\n".toList, by simp, ⟨by decide, by decide, by decide⟩, by decide⟩,
    ⟨"\n\t".toList, "// <auto-generated>".toList, "\n".toList, by simp [IsBlank],
      ⟨by decide, by decide, by decide⟩, by decide⟩]

end Provenance.Syntax
