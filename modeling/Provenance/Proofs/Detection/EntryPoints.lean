import Provenance.Header.Tree
import Provenance.Proofs.Cancellation.AllOrNothing

/-!
One verdict from every entry point. A parsed file is what it answers to each signal, and the question
is put to it through a counter, so that a run tells the verdict, what is left of the signal, and how
often the file was asked. The entry points differ in how they leave out the question when the name
decides; what they tell is one verdict in several forms.
-/
namespace Provenance.Detection

/-- Work on a signal, with the number of questions put so far. -/
abbrev Counting (α : Type) := ExceptT Fault (StateM (Signal × Nat)) α

/-- What a parsed file answers, with the question counted. -/
def counted (unit : Polled (Option (List Trivia))) : Counting (Option (List Trivia)) :=
  ExceptT.mk fun (signal, asked) => ((unit.run signal).1, (unit.run signal).2, asked + 1)

/-- A run without its count. -/
def uncounted {α : Type} (run : Except Fault α × Signal × Nat) : Except Fault α × Signal :=
  (run.1, run.2.1)

theorem run_counted (unit : Polled (Option (List Trivia))) (signal : Signal) (asked : Nat) :
    (counted unit).run (signal, asked) =
      ((unit.run signal).1, (unit.run signal).2, asked + 1) := rfl

section

variable {σ : Type} {path : Text}

theorem run_findMarker (work : ExceptT Fault (StateM σ) (Option (List Trivia))) (s : σ) :
    (findMarker work).run s =
      ((work.run s).1.map fun answer => answer.bind Marker.find?, (work.run s).2) := by
  rw [findMarker, run_bind]
  cases work.run s with
  | mk answer rest =>
    cases answer with
    | error fault => rfl
    | ok trivia => cases trivia <;> rfl

theorem run_isMarked (work : ExceptT Fault (StateM σ) (Option (List Trivia))) (s : σ) :
    (isMarked work).run s =
      (((findMarker work).run s).1.map Option.isSome, ((findMarker work).run s).2) := by
  rw [isMarked, run_bind]
  cases (findMarker work).run s with
  | mk marker rest => cases marker <;> rfl

/-- A name that tells is the evidence, and nobody is asked. -/
theorem run_detect_of_fires (work : ExceptT Fault (StateM σ) (Option (List Trivia))) (s : σ)
    (hname : NameRule.fires path = true) :
    (detect path work).run s = (.ok (some .fileName), s) := by
  rw [detect, if_pos hname]
  rfl

theorem run_detect_of_not_fires (work : ExceptT Fault (StateM σ) (Option (List Trivia))) (s : σ)
    (hname : NameRule.fires path = false) :
    (detect path work).run s =
      (((findMarker work).run s).1.map (Option.map .marker), ((findMarker work).run s).2) := by
  rw [detect, if_neg (Bool.eq_false_iff.mp hname), run_bind]
  cases (findMarker work).run s with
  | mk marker rest => cases marker <;> rfl

theorem run_findMarker_congr {work work' : ExceptT Fault (StateM σ) (Option (List Trivia))} {s : σ}
    (h : work'.run s = work.run s) : (findMarker work').run s = (findMarker work).run s := by
  rw [run_findMarker, run_findMarker, h]

/-- The evidence depends on the file through its marker only. -/
theorem run_detect_congr {work work' : ExceptT Fault (StateM σ) (Option (List Trivia))} {s : σ}
    (path : Text) (h : (findMarker work').run s = (findMarker work).run s) :
    (detect path work').run s = (detect path work).run s := by
  cases hname : NameRule.fires path with
  | true => rw [run_detect_of_fires _ _ hname, run_detect_of_fires _ _ hname]
  | false => rw [run_detect_of_not_fires _ _ hname, run_detect_of_not_fires _ _ hname, h]

theorem isGenerated_of_not_fires {m : Type → Type} [Monad m] (work : m (Option (List Trivia)))
    (hname : NameRule.fires path = false) : isGenerated path work = isMarked work :=
  if_neg (Bool.eq_false_iff.mp hname)

/-- The short form of the verdict says whether the long one has evidence. -/
theorem run_isGenerated (path : Text) (work : ExceptT Fault (StateM σ) (Option (List Trivia)))
    (s : σ) :
    (isGenerated path work).run s =
      (((detect path work).run s).1.map Option.isSome, ((detect path work).run s).2) := by
  cases hname : NameRule.fires path with
  | true =>
    rw [run_detect_of_fires work s hname, isGenerated, if_pos hname]
    rfl
  | false =>
    rw [isGenerated_of_not_fires work hname, run_isMarked, run_detect_of_not_fires work s hname]
    cases ((findMarker work).run s).1 with
    | error fault => rfl
    | ok marker => cases marker <;> rfl

theorem run_isGenerated_congr {work work' : ExceptT Fault (StateM σ) (Option (List Trivia))}
    {s : σ} (path : Text) (h : (findMarker work').run s = (findMarker work).run s) :
    (isGenerated path work').run s = (isGenerated path work).run s := by
  rw [run_isGenerated, run_isGenerated, run_detect_congr path h]

end

section

variable (path : Text) (unit : Polled (Option (List Trivia))) (signal : Signal) (asked : Nat)

/-- Counting changes neither the verdict nor the signal. -/
theorem uncounted_detect :
    uncounted ((detect path (counted unit)).run (signal, asked)) = (detect path unit).run signal := by
  cases hname : NameRule.fires path with
  | true =>
    rw [run_detect_of_fires _ _ hname, run_detect_of_fires _ _ hname]
    rfl
  | false =>
    rw [run_detect_of_not_fires _ _ hname, run_detect_of_not_fires _ _ hname, run_findMarker,
      run_findMarker, run_counted]
    rfl

theorem uncounted_isGenerated :
    uncounted ((isGenerated path (counted unit)).run (signal, asked)) =
      (isGenerated path unit).run signal := by
  have hdetect := uncounted_detect path unit signal asked
  rw [run_isGenerated, run_isGenerated, ← hdetect]
  rfl

/-- What the entry points tell of a path and a parsed file, to which questions have been put before. -/
structure OneVerdict : Prop where
  isGenerated_eq : (isGenerated path (counted unit)).run (signal, asked) =
    (((detect path (counted unit)).run (signal, asked)).1.map Option.isSome,
      ((detect path (counted unit)).run (signal, asked)).2)
  context_eq : (Context.isGenerated ⟨path, counted unit⟩).run (signal, asked) =
    (isGenerated path (counted unit)).run (signal, asked)
  isMarked_eq : (isMarked (counted unit)).run (signal, asked) =
    (((findMarker (counted unit)).run (signal, asked)).1.map Option.isSome,
      ((findMarker (counted unit)).run (signal, asked)).2)
  /-- A name that tells leaves the file unasked, whatever it would answer to whatever signal. -/
  named : NameRule.fires path = true →
    (detect path (counted unit)).run (signal, asked) = (.ok (some .fileName), signal, asked)
  unnamed : NameRule.fires path = false →
    (isGenerated path (counted unit)).run (signal, asked) =
        (isMarked (counted unit)).run (signal, asked) ∧
      (detect path (counted unit)).run (signal, asked) =
        (((findMarker (counted unit)).run (signal, asked)).1.map (Option.map .marker),
          ((findMarker (counted unit)).run (signal, asked)).2)
  /-- The search for a marker asks once. -/
  findMarker_eq : (findMarker (counted unit)).run (signal, asked) =
    ((unit.run signal).1.map fun answer => answer.bind Marker.find?,
      (unit.run signal).2, asked + 1)
  /-- What keeps the file from answering is passed on as it is. -/
  fault_eq : ∀ fault, (unit.run signal).1 = .error fault →
    (findMarker (counted unit)).run (signal, asked) =
        (.error fault, (unit.run signal).2, asked + 1) ∧
      (isMarked (counted unit)).run (signal, asked) =
        (.error fault, (unit.run signal).2, asked + 1) ∧
      (NameRule.fires path = false →
        (detect path (counted unit)).run (signal, asked) =
            (.error fault, (unit.run signal).2, asked + 1) ∧
          (isGenerated path (counted unit)).run (signal, asked) =
            (.error fault, (unit.run signal).2, asked + 1))

theorem oneVerdict : OneVerdict path unit signal asked := by
  have hfind : (findMarker (counted unit)).run (signal, asked) =
      ((unit.run signal).1.map fun answer => answer.bind Marker.find?,
        (unit.run signal).2, asked + 1) := by
    rw [run_findMarker, run_counted]
  refine ⟨run_isGenerated path _ _, rfl, run_isMarked _ _, run_detect_of_fires _ _, ?_, hfind, ?_⟩
  · intro hname
    exact ⟨congrArg (fun work => work.run (signal, asked))
      (isGenerated_of_not_fires (counted unit) hname), run_detect_of_not_fires _ _ hname⟩
  · intro fault hfault
    have hfailed : (findMarker (counted unit)).run (signal, asked) =
        (.error fault, (unit.run signal).2, asked + 1) := by
      rw [hfind, hfault]
      rfl
    have hmarked : (isMarked (counted unit)).run (signal, asked) =
        (.error fault, (unit.run signal).2, asked + 1) := by
      rw [run_isMarked, hfailed]
      rfl
    refine ⟨hfailed, hmarked, ?_⟩
    intro hname
    constructor
    · rw [run_detect_of_not_fires _ _ hname, hfailed]
      rfl
    · rw [isGenerated_of_not_fires _ hname, hmarked]

end

end Provenance.Detection

namespace Provenance

open Detection

namespace SourceFile

variable {parser : Parser} {file : SourceFile} {signal : Signal}

/-- A file of no known language answers under every signal, without a poll. -/
theorem run_leadingTrivia_of_no_language (hlanguage : file.language? = none) (signal : Signal) :
    (file.leadingTrivia parser).run signal = (.ok none, signal) := by
  rw [leadingTrivia, hlanguage]
  rfl

/-- A file of a known language polls before it is parsed. -/
theorem run_leadingTrivia_of_fired (hlanguage : file.language?.isSome = true)
    (hfired : signal.hasFired = true) :
    ((file.leadingTrivia parser).run signal).1 = .error .cancelled := by
  obtain ⟨language, hlanguage⟩ := Option.isSome_iff_exists.mp hlanguage
  rw [leadingTrivia, hlanguage]
  dsimp only
  rw [run_bind, run_poll, if_pos hfired]

/-- Where the name says nothing, the marker in the leading trivia decides. -/
theorem run_detect {trivia : Option (List Trivia)} {rest : Signal}
    (htrivia : (file.leadingTrivia parser).run signal = (.ok trivia, rest))
    (hname : NameRule.fires file.name = false) :
    (file.detect parser).run signal = (.ok ((trivia.bind Marker.find?).map .marker), rest) := by
  rw [detect, run_detect_of_not_fires _ _ hname, run_findMarker, htrivia]
  rfl

end SourceFile

/-- For a path and any parsed file all entry points give one verdict, asking once or, where the name
tells, not at all. A source file is such a parsed file, whatever parses it: without a language it
answers even a signal that has fired, and with one it then never answers. -/
theorem entryPoints_agree :
    (∀ path unit signal asked, OneVerdict path unit signal asked ∧
      uncounted ((detect path (counted unit)).run (signal, asked)) =
        (detect path unit).run signal ∧
      uncounted ((Detection.isGenerated path (counted unit)).run (signal, asked)) =
        (Detection.isGenerated path unit).run signal) ∧
    ∀ (parser : Parser) (file : SourceFile) (signal : Signal) (asked : Nat),
      (file.detect parser).run signal =
        uncounted ((detect file.name (counted (file.leadingTrivia parser))).run (signal, asked)) ∧
      (file.isGenerated parser).run signal =
        uncounted ((Detection.isGenerated file.name (counted (file.leadingTrivia parser))).run
          (signal, asked)) ∧
      OneVerdict file.name (file.leadingTrivia parser) signal asked ∧
      (NameRule.fires file.name = false → file.language? = none →
        (file.detect parser).run signal = (.ok none, signal) ∧
          (file.isGenerated parser).run signal = (.ok false, signal)) ∧
      (NameRule.fires file.name = false → file.language?.isSome = true → signal.hasFired = true →
        ((file.detect parser).run signal).1 = .error .cancelled ∧
          ((file.isGenerated parser).run signal).1 = .error .cancelled) := by
  constructor
  · intro path unit signal asked
    exact ⟨oneVerdict path unit signal asked, uncounted_detect path unit signal asked,
      uncounted_isGenerated path unit signal asked⟩
  · intro parser file signal asked
    have hgenerated : (file.isGenerated parser).run signal =
        (((file.detect parser).run signal).1.map Option.isSome, ((file.detect parser).run signal).2) :=
      run_isGenerated file.name (file.leadingTrivia parser) signal
    have hdetect (hname : NameRule.fires file.name = false) : (file.detect parser).run signal =
        ((((file.leadingTrivia parser).run signal).1.map fun answer => answer.bind Marker.find?).map
            (Option.map .marker), ((file.leadingTrivia parser).run signal).2) := by
      rw [SourceFile.detect, run_detect_of_not_fires _ _ hname, run_findMarker]
    refine ⟨(uncounted_detect _ _ _ _).symm, (uncounted_isGenerated _ _ _ _).symm,
      oneVerdict _ _ _ _, ?_, ?_⟩
    · intro hname hlanguage
      have hnone : (file.detect parser).run signal = (.ok none, signal) := by
        rw [hdetect hname, SourceFile.run_leadingTrivia_of_no_language hlanguage]
        rfl
      refine ⟨hnone, ?_⟩
      rw [hgenerated, hnone]
      rfl
    · intro hname hlanguage hfired
      have hcancelled : ((file.detect parser).run signal).1 = .error .cancelled := by
        rw [hdetect hname, SourceFile.run_leadingTrivia_of_fired hlanguage hfired]
        rfl
      refine ⟨hcancelled, ?_⟩
      rw [hgenerated, hcancelled]
      rfl

/-- Three files under a signal that has fired: one of a language, one of none, and one whose name
tells. -/
theorem entryPoints_under_fired :
    ((SourceFile.detect Header.parser
          ⟨.ofText "Program.cs".toList, "class P {}".toList⟩).run .fired).1 =
        .error .cancelled ∧
      (SourceFile.detect Header.parser
          ⟨.ofText "notes.txt".toList, "// <auto-generated>\n".toList⟩).run .fired =
        (.ok none, .fired) ∧
      (detect "Form1.Designer.cs".toList
          (counted (throw .cancelled))).run (.fired, 0) = (.ok (some .fileName), .fired, 0) := by
  refine ⟨?_, ?_, ?_⟩
  · have hfile := entryPoints_agree.2 Header.parser
      ⟨.ofText "Program.cs".toList, "class P {}".toList⟩ .fired 0
    exact (hfile.2.2.2.2 (by decide) (by decide) rfl).1
  · have hfile := entryPoints_agree.2 Header.parser
      ⟨.ofText "notes.txt".toList, "// <auto-generated>\n".toList⟩ .fired 0
    exact (hfile.2.2.2.1 (by decide) (by decide)).1
  · exact (entryPoints_agree.1 "Form1.Designer.cs".toList (throw .cancelled) .fired 0).1.named
      (by decide)

end Provenance
