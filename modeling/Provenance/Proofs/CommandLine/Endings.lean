import Provenance.Glob.Engine
import Provenance.Header.Tree
import Provenance.Proofs.CommandLine.Spelling
import Provenance.Proofs.Report.Faithful
import Provenance.Proofs.Scan.Failing

/-!
How the program ends. Arguments that are accepted ask for completions, which need nothing else, or for
a scan. A scan that fails ends the program with the code and the message of its fault; one that comes
to a report ends it with a rendering of the report, unless a document is asked for and a path cannot
stand in it. Which files a scan finds decides about the exit code; what is said of them does not.
-/
namespace Provenance

namespace Scan

/-- Two looks at a root that find the same files there, or the same obstacle. What the files hold does
not matter, nor whether they can be read. -/
inductive SameFiles : Except Obstacle Object → Except Obstacle Object → Prop
  | nowhere (obstacle : Obstacle) : SameFiles (.error obstacle) (.error obstacle)
  | file (modified modified' : Instant) (contents contents' : Except Obstacle Bytes) :
      SameFiles (.ok (.file modified contents)) (.ok (.file modified' contents'))
  | directory (modified modified' : Instant) {entries entries' : List (FileName × Entry)}
      (h : filesBelow entries = filesBelow entries') :
      SameFiles (.ok (.directory modified entries)) (.ok (.directory modified' entries'))

section

variable {fs fs' : FileSystem} {roots : List Path}

theorem collectInto_of_ok {root : Path} {object : Object} (h : fs root = .ok object)
    (exclusion : Exclusion) (found : Ordered) :
    collectInto fs exclusion found (root :: roots) = collectInto fs exclusion
      ((pathsOf exclusion root object).foldl (fun found path => insertNew path found) found)
      roots := by
  rw [collectInto, object_of_ok h]
  rfl

/-- Roots in which the same files are found contribute the same paths, or the same fault. -/
theorem collectInto_eq_of_sameFiles (exclusion : Exclusion)
    (h : ∀ root ∈ roots, SameFiles (fs root) (fs' root)) (found : Ordered) :
    collectInto fs exclusion found roots = collectInto fs' exclusion found roots := by
  induction roots generalizing found with
  | nil => rfl
  | cons root roots ih =>
    obtain ⟨hroot, hroots⟩ := List.forall_mem_cons.mp h
    generalize hlook : fs root = look at hroot
    generalize hlook' : fs' root = look' at hroot
    cases hroot with
    | nowhere obstacle =>
      rw [collectInto, collectInto, object_of_obstacle hlook, object_of_obstacle hlook']
      rfl
    | file =>
      rw [collectInto_of_ok hlook, collectInto_of_ok hlook']
      exact ih hroots _
    | directory _ _ hfiles =>
      rw [collectInto_of_ok hlook, collectInto_of_ok hlook', pathsOf, pathsOf, hfiles]
      exact ih hroots _

theorem collect_eq_of_sameFiles (exclusion : Exclusion)
    (h : ∀ root ∈ roots, SameFiles (fs root) (fs' root)) :
    collect fs exclusion roots = collect fs' exclusion roots := by
  rw [collect, collect, collectInto_eq_of_sameFiles exclusion h]

/-- The paths in the report of a scan, or its fault, depend on nothing but the files found. -/
theorem map_paths_run_eq (parser : Parser) (engine : PatternEngine) (patterns : List Text)
    (signal signal' : Signal) (h : ∀ root ∈ roots, SameFiles (fs root) (fs' root)) :
    (run parser engine fs roots patterns signal).map Report.paths =
      (run parser engine fs' roots patterns signal').map Report.paths := by
  rcases Exclusion.exists_build_or_fault engine patterns with ⟨-, exclusion, -, -, hexclusion⟩ |
    ⟨fault, hfault⟩
  · rw [run_of_ok hexclusion, run_of_ok hexclusion, run_scan, run_scan,
      collect_eq_of_sameFiles exclusion h]
    cases collect fs' exclusion roots with
    | error fault => rfl
    | ok paths => simp only [Except.map, Report.paths, map_path_classifyAll]
  · rw [run_of_fault hfault, run_of_fault hfault]

end

end Scan

namespace Fault

variable {fault : Fault}

theorem exitCode_eq_two_iff :
    fault.exitCode = 2 ↔ (∃ path, fault = notFound path) ∨ ∃ path cause, fault = io path cause := by
  cases fault <;> simp [exitCode]

theorem exitCode_eq_three_iff :
    fault.exitCode = 3 ↔ ∃ pattern reason, fault = invalidPattern pattern reason := by
  cases fault <;> simp [exitCode]

theorem exitCode_eq_four_iff : fault.exitCode = 4 ↔ ∃ path, fault = permissionDenied path := by
  cases fault <;> simp [exitCode]

theorem exitCode_cases (h : fault ≠ cancelled) :
    fault.exitCode = 2 ∨ fault.exitCode = 3 ∨ fault.exitCode = 4 := by
  cases fault <;> simp_all [exitCode]

end Fault

namespace Report

/-- Every path of the report is UTF-8. -/
def IsText (r : Report) : Prop :=
  ∀ path ∈ r.roots ++ r.files.map FileVerdict.path, ∃ t, Utf8.encode t = path.bytes

theorem encode?_eq_none_iff_not_isText {r : Report} : r.encode? = none ↔ ¬r.IsText := by
  rw [encode?_eq_none_iff, IsText]
  simp only [Path.isText_eq_false_iff, not_forall, not_exists, exists_prop, paths]

theorem isText_of_encode?_eq_some {r : Report} {value : Json} (h : r.encode? = some value) :
    r.IsText := by
  by_contra hnot
  rw [encode?_eq_none_iff_not_isText.mpr hnot] at h
  cases h

end Report

namespace CommandLine

/-- The ways in which an invocation ends. -/
inductive Ends (tools : Tools) (fs : FileSystem) (signal : Signal) (i : Invocation) : Outcome → Prop
  | completions {shell : Shell} (h : i.completions = some shell) :
      Ends tools fs signal i ⟨0, tools.interface.completions shell, []⟩
  | fault {fault : Fault} (hscans : i.completions = none)
      (hrun : Scan.run tools.parser tools.patterns fs i.roots i.patterns signal = .error fault) :
      Ends tools fs signal i (.failure fault.exitCode fault.message)
  | listing {report : Report} (hscans : i.completions = none)
      (hrun : Scan.run tools.parser tools.patterns fs i.roots i.patterns signal = .ok report)
      (hjson : i.json = false) :
      Ends tools fs signal i (.success (report.listing i.all))
  | document {report : Report} {value : Json} (hscans : i.completions = none)
      (hrun : Scan.run tools.parser tools.patterns fs i.roots i.patterns signal = .ok report)
      (hjson : i.json = true)
      (hvalue : report.encode? = some value) : Ends tools fs signal i (.success value.pretty)
  /-- A path of the report cannot stand in a document. -/
  | unencoded {report : Report} (hscans : i.completions = none)
      (hrun : Scan.run tools.parser tools.patterns fs i.roots i.patterns signal = .ok report)
      (hjson : i.json = true)
      (hvalue : report.encode? = none) : Ends tools fs signal i (.failure 2 Report.encodingFault)

section

variable {tools : Tools} {fs : FileSystem} {signal : Signal} {i : Invocation}

theorem render_of_listing (hjson : i.json = false) (r : Report) :
    render i r = .success (r.listing i.all) := by
  rw [render, hjson, if_neg Bool.false_ne_true]

theorem ends_render {report : Report} (hscans : i.completions = none)
    (hrun : Scan.run tools.parser tools.patterns fs i.roots i.patterns signal = .ok report) :
    Ends tools fs signal i (render i report) := by
  cases hjson : i.json with
  | false =>
    rw [render_of_listing hjson]
    exact .listing hscans hrun hjson
  | true =>
    rcases Report.render_of_json hjson report with ⟨hvalue, hrender⟩ | ⟨value, hvalue, hrender⟩
    · rw [hrender]
      exact .unencoded hscans hrun hjson hvalue
    · rw [hrender]
      exact .document hscans hrun hjson hvalue

theorem ends_execute (tools : Tools) (fs : FileSystem) (signal : Signal) (i : Invocation) :
    Ends tools fs signal i (execute tools fs signal i) := by
  rw [execute]
  cases hscans : i.completions with
  | some shell => exact .completions hscans
  | none =>
    cases hrun : Scan.run tools.parser tools.patterns fs i.roots i.patterns signal with
    | error fault => exact .fault hscans hrun
    | ok report => exact ends_render hscans hrun

end

/-- What an outcome tells about a scan, and what has been written. -/
structure Outcome.Tells (tools : Tools) (fs : FileSystem) (signal : Signal) (i : Invocation)
    (o : Outcome) : Prop where
  code_zero : o.exitCode = 0 ↔ i.completions.isSome = true ∨
    ∃ report, Scan.run tools.parser tools.patterns fs i.roots i.patterns signal = .ok report ∧
      (i.json = false ∨ report.IsText)
  code_two : o.exitCode = 2 ↔ i.completions = none ∧
    ((∃ path, Scan.run tools.parser tools.patterns fs i.roots i.patterns signal =
          .error (.notFound path)) ∨
      (∃ path cause, Scan.run tools.parser tools.patterns fs i.roots i.patterns signal =
          .error (.io path cause)) ∨
      ∃ report, Scan.run tools.parser tools.patterns fs i.roots i.patterns signal = .ok report ∧
        i.json = true ∧ ¬report.IsText)
  code_three : o.exitCode = 3 ↔ i.completions = none ∧ ∃ pattern reason,
    Scan.run tools.parser tools.patterns fs i.roots i.patterns signal =
      .error (.invalidPattern pattern reason)
  code_four : o.exitCode = 4 ↔ i.completions = none ∧ ∃ path,
    Scan.run tools.parser tools.patterns fs i.roots i.patterns signal = .error (.permissionDenied path)
  code_mem : o.exitCode ∈ [0, 2, 3, 4]
  /-- A failure writes nothing but the message of what went wrong. -/
  failing : o.exitCode ≠ 0 → o.output = [] ∧
    ((∃ fault, Scan.run tools.parser tools.patterns fs i.roots i.patterns signal = .error fault ∧
        o.exitCode = fault.exitCode ∧ o.errors = fault.message ++ ['\n']) ∨
      ∃ report, Scan.run tools.parser tools.patterns fs i.roots i.patterns signal = .ok report ∧
        i.json = true ∧ ¬report.IsText ∧ o.errors = Report.encodingFault ++ ['\n'])
  /-- A scan that succeeds writes nothing but one rendering of its report. -/
  rendering : o.exitCode = 0 → i.completions = none → o.errors = [] ∧
    ∃ report, Scan.run tools.parser tools.patterns fs i.roots i.patterns signal = .ok report ∧
      ((i.json = false ∧ o.output = report.listing i.all ++ ['\n']) ∨
        i.json = true ∧ ∃ value, report.encode? = some value ∧ o.output = value.pretty ++ ['\n'])

section

variable {tools : Tools} {fs fs' : FileSystem} {signal signal' : Signal} {i : Invocation}
  {o : Outcome}

theorem Ends.tells (h : Ends tools fs signal i o) : o.Tells tools fs signal i := by
  cases h with
  | completions hshell =>
    constructor <;> simp [hshell]
  | @fault fault hscans hrun =>
    have hcode : fault.exitCode = 2 ∨ fault.exitCode = 3 ∨ fault.exitCode = 4 := by
      apply Fault.exitCode_cases
      rintro rfl
      exact Scan.run_ne_cancelled tools.parser tools.patterns fs i.roots i.patterns signal hrun
    have hfailed : fault.exitCode ≠ 0 := by omega
    constructor
    case code_zero => simp [Outcome.failure, hscans, hrun, hfailed]
    case code_two => simp [Outcome.failure, hscans, hrun, Fault.exitCode_eq_two_iff]
    case code_three => simp [Outcome.failure, hscans, hrun, Fault.exitCode_eq_three_iff]
    case code_four => simp [Outcome.failure, hscans, hrun, Fault.exitCode_eq_four_iff]
    case code_mem => simp [Outcome.failure, hcode]
    case failing => exact fun _ => ⟨rfl, Or.inl ⟨fault, hrun, rfl, rfl⟩⟩
    case rendering => exact fun hzero => absurd hzero hfailed
  | listing hscans hrun hjson =>
    constructor <;> simp [Outcome.success, hscans, hrun, hjson]
  | document hscans hrun hjson hvalue =>
    have htext := Report.isText_of_encode?_eq_some hvalue
    constructor <;> simp [Outcome.success, hscans, hrun, hjson, hvalue, htext]
  | unencoded hscans hrun hjson hvalue =>
    have htext := Report.encode?_eq_none_iff_not_isText.mp hvalue
    constructor <;> simp [Outcome.failure, hscans, hrun, hjson, htext]

/-- What is said of the files has no part in whether a report can be rendered. -/
theorem exitCode_render_eq {r r' : Report} (h : r.paths = r'.paths) :
    (render i r).exitCode = (render i r').exitCode := by
  cases hjson : i.json with
  | false =>
    rw [render_of_listing hjson, render_of_listing hjson]
    rfl
  | true =>
    have hnone : r.encode? = none ↔ r'.encode? = none := by
      rw [Report.encode?_eq_none_iff, Report.encode?_eq_none_iff, h]
    rcases Report.render_of_json hjson r with ⟨hvalue, hrender⟩ | ⟨value, hvalue, hrender⟩ <;>
      rcases Report.render_of_json hjson r' with ⟨hvalue', hrender'⟩ | ⟨value', hvalue', hrender'⟩
    · rw [hrender, hrender']
    · simp [hvalue, hvalue'] at hnone
    · simp [hvalue, hvalue'] at hnone
    · rw [hrender, hrender']
      rfl

/-- The exit code depends on nothing but the files found. -/
theorem exitCode_execute_eq (h : ∀ root ∈ i.roots, Scan.SameFiles (fs root) (fs' root)) :
    (execute tools fs signal i).exitCode = (execute tools fs' signal' i).exitCode := by
  have hpaths := Scan.map_paths_run_eq tools.parser tools.patterns i.patterns signal signal' h
  rw [execute, execute]
  cases i.completions with
  | some shell => rfl
  | none =>
    dsimp only
    cases hrun : Scan.run tools.parser tools.patterns fs i.roots i.patterns signal with
    | error fault =>
      cases hrun' : Scan.run tools.parser tools.patterns fs' i.roots i.patterns signal' with
      | error fault' =>
        rw [hrun, hrun'] at hpaths
        cases hpaths
        rfl
      | ok report' =>
        rw [hrun, hrun'] at hpaths
        cases hpaths
    | ok report =>
      cases hrun' : Scan.run tools.parser tools.patterns fs' i.roots i.patterns signal' with
      | error fault' =>
        rw [hrun, hrun'] at hpaths
        cases hpaths
      | ok report' =>
        rw [hrun, hrun'] at hpaths
        exact exitCode_render_eq (Except.ok.inj hpaths)

/-- Whether all files are asked for does not matter to a document. -/
theorem execute_all_eq (hjson : i.json = true) (all : Bool) :
    execute tools fs signal { i with all := all } = execute tools fs signal i := by
  have hrender (r : Report) : render { i with all := all } r = render i r := by
    rw [render, render, if_pos hjson, if_pos hjson]
  rw [execute, execute]
  simp only [hrender]
  rfl

theorem run_of_read {arguments : List Bytes} (h : tools.interface.read arguments = .ok i)
    (fs : FileSystem) (timer : Nat → Signal) :
    run tools fs timer arguments = execute tools fs (i.signal timer) i := by
  rw [run, h]

/-- Arguments that the interface of this library accepts spell the invocation. -/
theorem spells_of_interface {arguments : List Bytes} (h : interface.read arguments = .ok i) :
    ∃ items, Spells arguments items ∧ i = Invocation.none.adding items := by
  apply spells_of_read
  simp only [interface] at h
  split at h
  · next hread => rw [hread, Except.ok.inj h]
  all_goals cases h

end

/-- How the program ends on arguments that it accepts, whatever reads them. The roots are the paths
among them, or the current directory; the signal is that of the timer, if there is a time limit. The
exit code tells how the scan ended, a failure writes its message and a success one rendering.
Completions are printed whatever else is there. For a document it does not matter whether all files are
asked for. What the files hold, whether they can be read and when the signal fires does not change the
exit code. -/
theorem ends_as_told {tools : Tools} {arguments : List Bytes} {i : Invocation}
    (h : tools.interface.read arguments = .ok i) :
    ((i.paths ≠ [] → i.roots = i.paths) ∧ (i.paths = [] → i.roots = [.ofText ".".toList])) ∧
    (tools.interface = interface →
      ∃ items, Spells arguments items ∧ i = Invocation.none.adding items) ∧
    (∀ fs timer, run tools fs timer arguments = execute tools fs (i.signal timer) i) ∧
    (∀ fs signal, (execute tools fs signal i).Tells tools fs signal i) ∧
    (∀ shell, i.completions = some shell →
      ∀ fs timer, run tools fs timer arguments = ⟨0, tools.interface.completions shell, []⟩) ∧
    (i.json = true → ∀ all fs signal,
      execute tools fs signal { i with all := all } = execute tools fs signal i) ∧
    ∀ fs fs' signal signal', (∀ root ∈ i.roots, Scan.SameFiles (fs root) (fs' root)) →
      (execute tools fs signal i).exitCode = (execute tools fs' signal' i).exitCode := by
  refine ⟨⟨fun hsome => if_neg hsome, fun hnone => if_pos hnone⟩, ?_, run_of_read h, ?_, ?_, ?_, ?_⟩
  · intro hinterface
    rw [hinterface] at h
    exact spells_of_interface h
  · intro fs signal
    exact (ends_execute tools fs signal i).tells
  · intro shell hshell fs timer
    rw [run_of_read h, execute, hshell]
  · intro hjson all fs signal
    exact execute_all_eq hjson all
  · intro fs fs' signal signal' hsame
    exact exitCode_execute_eq hsame

/-- A root that may not be looked at, and one with no files below it and a fired signal. -/
theorem ends_onlyDirectoryA :
    interface.read [option "json".toList, Utf8.encode "b".toList] =
        .ok ⟨[.ofText "b".toList], false, true, [], none, none⟩ ∧
      (run ⟨Header.parser, Glob.engine, interface⟩ Scan.onlyDirectoryA (fun _ => .never)
        [option "json".toList, Utf8.encode "b".toList]).exitCode = 4 ∧
      (run ⟨Header.parser, Glob.engine, interface⟩ Scan.onlyDirectoryA (fun _ => .never)
        [option "json".toList, Utf8.encode "b".toList]).output = [] ∧
      interface.read [option "timeout".toList, Utf8.encode "0".toList, Utf8.encode "a".toList] =
        .ok ⟨[.ofText "a".toList], false, false, [], some 0, none⟩ ∧
      (run ⟨Header.parser, Glob.engine, interface⟩ Scan.onlyDirectoryA (fun _ => .fired)
        [option "timeout".toList, Utf8.encode "0".toList, Utf8.encode "a".toList]).exitCode = 0 := by
  have hdenied : interface.read [option "json".toList, Utf8.encode "b".toList] =
      .ok ⟨[.ofText "b".toList], false, true, [], none, none⟩ := by rfl
  have hempty : interface.read
      [option "timeout".toList, Utf8.encode "0".toList, Utf8.encode "a".toList] =
      .ok ⟨[.ofText "a".toList], false, false, [], some 0, none⟩ := by rfl
  obtain ⟨-, -, hrun, htells, -⟩ :=
    @ends_as_told ⟨Header.parser, Glob.engine, interface⟩ _ _ hdenied
  obtain ⟨-, -, hrun', htells', -⟩ :=
    @ends_as_told ⟨Header.parser, Glob.engine, interface⟩ _ _ hempty
  have htold := htells Scan.onlyDirectoryA .never
  have hcode := htold.code_four.mpr ⟨rfl, _, rfl⟩
  refine ⟨hdenied, hcode, (htold.failing ?_).1, hempty, ?_⟩
  · rw [hcode]
    decide
  · rw [hrun']
    exact (htells' Scan.onlyDirectoryA .fired).code_zero.mpr (Or.inr ⟨_, rfl, Or.inl rfl⟩)

end CommandLine
end Provenance
