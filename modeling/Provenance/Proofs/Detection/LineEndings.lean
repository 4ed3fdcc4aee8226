import Provenance.Proofs.Detection.EntryPoints
import Provenance.Proofs.FileSystem.Reading
import Provenance.Proofs.Header.Lexing
import Provenance.Proofs.Scan.Justified
import Provenance.Proofs.Syntax.LineOrigins

/-!
The verdict on a file and its line endings. To the language a carriage return in front of a line feed is
part of the line break, so a text with carriage returns there has the lexemes of the text without them.
Its leading trivia are the same pieces, each with the same line breaks inside, so the marker and the
verdict are the same, and so is the status of a file that holds it.
-/
namespace Provenance

open Cache Syntax

/-- The leading trivia of a text without carriage returns and of the text with them. -/
structure SameTrivia (answer answer' : Option (List Trivia)) : Prop where
  eq_map : answer = answer'.map fun items => items.map Trivia.withLineFeeds
  /-- Within a piece a carriage return stands in front of a line feed only. -/
  sameLines : ∀ items, answer' = some items → ∀ item ∈ items,
    SameLines item.withLineFeeds.text item.text
  /-- A piece of one line is the same in both texts. -/
  oneLine : ∀ items, answer' = some items → ∀ item ∈ items, '\n' ∉ item.text →
    item.withLineFeeds = item ∧ '\r' ∉ item.text

namespace SameTrivia

variable {answer answer' : Option (List Trivia)}

theorem of_sameLines (heq : answer = answer'.map fun items => items.map Trivia.withLineFeeds)
    (hlines : ∀ items, answer' = some items → ∀ item ∈ items,
      SameLines item.withLineFeeds.text item.text) : SameTrivia answer answer' := by
  refine ⟨heq, hlines, ?_⟩
  intro items hitems item hitem hfeed
  have hsame := hlines items hitems item hitem
  have hfree : '\n' ∉ item.withLineFeeds.text := by
    rw [← hsame.withoutReturns_eq]
    exact fun hmem => hfeed (List.mem_filter.mp hmem).1
  have htext : item.text = item.withLineFeeds.text := hsame.eq_of_notMem hfree
  refine ⟨?_, htext ▸ hsame.return_notMem⟩
  rw [Trivia.withLineFeeds] at htext ⊢
  simp only at htext
  rw [← htext]

theorem bind_find? (h : SameTrivia answer answer') :
    answer'.bind Marker.find? = answer.bind Marker.find? := by
  rw [h.eq_map]
  cases answer' with
  | none => rfl
  | some items => exact (find?_withLineFeeds (h.sameLines items rfl)).symm

end SameTrivia

section

variable {parser : Parser} {lexing : Lexing} {language : Language} {t : Text} {ls ls' : List Lexeme}

/-- The pieces of the text with carriage returns, without them, are those of the text. -/
theorem sameTrivia_withReturns (hreturn : '\r' ∉ t) (horder : InOrder t.withReturns ls')
    (horigin : ls'.map (·.original t.withReturns) = ls) :
    SameTrivia ((leadingOf t language ls).map fun items => items.map Placed.item)
      ((leadingOf t.withReturns language ls').map fun items => items.map Placed.item) := by
  have hlines := SameLines.withReturns hreturn
  refine .of_sameLines ?_ ?_
  · rw [← horigin, leadingOf_original hlines horder, Option.map_map]
    simp only [Function.comp_def, List.map_map]
  · intro items hitems item hitem
    obtain ⟨placed, hplaced, rfl⟩ := Option.map_eq_some_iff.mp hitems
    obtain ⟨piece, hpiece, rfl⟩ := List.mem_map.mp hitem
    exact sameLines_of_leadingOf hlines horder hplaced hpiece

variable (hparser : Follows parser lexing) (hbreaks : ReadsBothBreaks lexing) (hreturn : '\r' ∉ t)
  (hwell : lexing t language = some ls) {path : Path}
  (hlanguage : Language.ofPath? path = some language)

include hparser hbreaks hreturn hwell hlanguage

theorem run_findMarker_withReturns :
    (Detection.findMarker (SourceFile.leadingTrivia parser ⟨path, t.withReturns⟩)).run .never =
      (Detection.findMarker (SourceFile.leadingTrivia parser ⟨path, t⟩)).run .never := by
  obtain ⟨ls', hwell', horigin⟩ := hbreaks _ _ _ hreturn hwell
  have hsame : SameTrivia ((leadingOf t language ls).map fun items => items.map Placed.item) _ :=
    sameTrivia_withReturns hreturn (hparser.inOrder _ _ _ hwell') horigin
  have hrun := hparser.run_leadingTrivia
    (show SourceFile.language? ⟨path, t⟩ = some language from hlanguage) hwell
  have hrun' := hparser.run_leadingTrivia
    (show SourceFile.language? ⟨path, t.withReturns⟩ = some language from hlanguage) hwell'
  rw [Detection.run_findMarker, Detection.run_findMarker, hrun, hrun']
  exact congrArg (fun marker => (Except.ok marker, Signal.never)) hsame.bind_find?

/-- The marker decides all other verdicts. -/
theorem run_detect_withReturns :
    (SourceFile.detect parser ⟨path, t.withReturns⟩).run .never =
      (SourceFile.detect parser ⟨path, t⟩).run .never :=
  Detection.run_detect_congr path.display
    (run_findMarker_withReturns hparser hbreaks hreturn hwell hlanguage)

end

namespace Contents

variable {held : Text}

theorem dropMark_withReturns (held : Text) :
    dropMark held.withReturns = (dropMark held).withReturns := by
  cases held with
  | nil => rfl
  | cons c t =>
    by_cases hfeed : c = '\n'
    · subst hfeed
      rw [Text.withReturns, if_pos rfl, dropMark, if_neg (by decide), dropMark, if_neg (by decide),
        Text.withReturns, if_pos rfl]
    · rw [Text.withReturns, if_neg hfeed, dropMark, dropMark]
      split
      · rfl
      · rw [Text.withReturns, if_neg hfeed]

theorem encode_eq_nil_iff (t : Text) : Utf8.encode t = [] ↔ t = [] :=
  ⟨fun h => Utf8.encode_injective (h.trans rfl), fun h => h ▸ rfl⟩

theorem withReturns_eq_nil_iff (t : Text) : t.withReturns = [] ↔ t = [] := by
  cases t with
  | nil => exact Iff.rfl
  | cons c t =>
    rw [Text.withReturns]
    split <;> simp

/-- Bytes that are empty or binary with either line endings tell nothing of a text. -/
theorem ofBytes_withReturns
    (hbinary : isBinary (Utf8.encode held.withReturns) = isBinary (Utf8.encode held)) :
    (ofBytes (Utf8.encode held.withReturns) = ofBytes (Utf8.encode held)) ∨
      ofBytes (Utf8.encode held) = .text (dropMark held) ∧
        ofBytes (Utf8.encode held.withReturns) = .text (dropMark held).withReturns := by
  have hempty : Utf8.encode held.withReturns = [] ↔ Utf8.encode held = [] := by
    rw [encode_eq_nil_iff, encode_eq_nil_iff, withReturns_eq_nil_iff]
  rw [ofBytes, ofBytes, hbinary]
  by_cases hnil : Utf8.encode held = []
  · rw [if_pos hnil, if_pos (hempty.mpr hnil)]
    exact Or.inl rfl
  · rw [if_neg hnil, if_neg (mt hempty.mp hnil)]
    split
    · exact Or.inl rfl
    · rw [Utf8.decode_encode, Utf8.decode_encode, dropMark_withReturns]
      exact Or.inr ⟨rfl, rfl⟩

end Contents

namespace Scan

variable {parser : Parser} {lexing : Lexing} {language : Language} {ls : List Lexeme} {path : Path}
  {held : Text} {fs fs' : FileSystem} {modified modified' : Instant}

theorem bytes_of_file {bytes : Bytes} (hfile : fs path = .ok (.file modified (.ok bytes))) :
    fs.bytes path = .ok bytes := by
  rw [FileSystem.bytes, FileSystem.object, hfile]
  rfl

theorem object_of_file {bytes : Bytes} (hfile : fs path = .ok (.file modified (.ok bytes))) :
    fs.object path = .ok (.file modified (.ok bytes)) := by
  rw [FileSystem.object, hfile]
  rfl

section

variable (hparser : Follows parser lexing) (hbreaks : ReadsBothBreaks lexing)
  (hreturn : '\r' ∉ Contents.dropMark held)
  (hwell : lexing (Contents.dropMark held) language = some ls)
  (hlanguage : Language.ofPath? path = some language)
  (hbinary : isBinary (Utf8.encode held.withReturns) = isBinary (Utf8.encode held))
  (hfile : fs path = .ok (.file modified (.ok (Utf8.encode held))))
  (hfile' : fs' path = .ok (.file modified' (.ok (Utf8.encode held.withReturns))))

include hparser hbreaks hreturn hwell hlanguage hbinary hfile hfile'

/-- The look at the contents ends with the same verdict. -/
theorem run_classifyContents_withReturns :
    (classifyContents parser fs' path).run .never =
      (classifyContents parser fs path).run .never := by
  rw [classifyContents, classifyContents, run_bind, run_bind, settles_poll.run_never]
  simp only [read_of_bytes (bytes_of_file hfile), read_of_bytes (bytes_of_file hfile')]
  rcases Contents.ofBytes_withReturns hbinary with hsame | ⟨htext, htext'⟩
  · rw [hsame]
  · rw [htext, htext']
    simp only [run_bind, run_detect_withReturns hparser hbreaks hreturn hwell hlanguage]

theorem freshStatus_withReturns : freshStatus parser fs' path = freshStatus parser fs path := by
  cases hpath : settledByName? path with
  | some status => rw [freshStatus_of_settled fs hpath, freshStatus_of_settled fs' hpath]
  | none =>
    rw [freshStatus_eq hpath, freshStatus_eq hpath, run_classifyContents_withReturns hparser hbreaks
      hreturn hwell hlanguage hbinary hfile hfile']

/-- With nothing stored about either file, the statuses are the same. -/
theorem run_classify_withReturns {cache cache' : Cache}
    (hmiss : cache.find? (Key.of path modified) = none)
    (hmiss' : cache'.find? (Key.of path modified') = none) :
    ((classify parser fs' path).run (cache', .never)).1 =
      ((classify parser fs path).run (cache, .never)).1 := by
  cases hpath : settledByName? path with
  | some status =>
    rw [classify, classify, hpath]
    rfl
  | none =>
    rw [run_classify_never hpath (object_of_file hfile) hmiss,
      run_classify_never hpath (object_of_file hfile') hmiss',
      freshStatus_withReturns hparser hbreaks hreturn hwell hlanguage hbinary hfile hfile']

end

end Scan

namespace Header

/-- A text that is lexed alike with carriage returns and without them. -/
def readsBothBreaks (text : Text) (language : Language) : Bool :=
  (lexing text.withReturns language).map (·.map (·.original text.withReturns)) =
    lexing text language

/-- The lexing of headers, of those texts only that it lexes alike with both line breaks. -/
def evenLexing : Lexing := fun text language =>
  (lexing text language).filter fun _ => readsBothBreaks text.withoutReturns language

theorem evenLexing_follows : Follows parser evenLexing :=
  parser_follows.restrict fun _ _ _ hwell => (Option.filter_eq_some_iff.mp hwell).1

theorem evenLexing_readsBothBreaks : ReadsBothBreaks evenLexing := by
  intro text language ls hreturn hwell
  obtain ⟨hlexing, hreads⟩ := Option.filter_eq_some_iff.mp hwell
  rw [withoutReturns_of_notMem hreturn] at hreads
  have hboth := of_decide_eq_true hreads
  rw [hlexing] at hboth
  obtain ⟨ls', hlexing', horigin⟩ := Option.map_eq_some_iff.mp hboth
  refine ⟨ls', Option.filter_eq_some_iff.mpr ⟨hlexing', ?_⟩, horigin⟩
  rw [(SameLines.withReturns hreturn).withoutReturns_eq]
  exact hreads

end Header

/-- Directives of both kinds, a comment of two lines and a marker. -/
def headerOfManyLines : Text :=
  "#region r\n/* a\n b */\n#if X\n#endif\n// <auto-generated>\nclass A \x7b\x7d\n".toList

/-- A file system in which every path leads to one file. -/
def holding (modified : Instant) (text : Text) : FileSystem := fun _ =>
  .ok (.file modified (.ok (Utf8.encode text)))

end Provenance
