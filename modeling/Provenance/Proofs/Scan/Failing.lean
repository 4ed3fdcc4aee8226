import Provenance.Glob.Engine
import Provenance.Header.Tree
import Provenance.Proofs.Glob.Nesting
import Provenance.Proofs.Scan.Collected

/-!
When a scan fails. Patterns are read one by one and the first that cannot be read is at fault; where
all can be read but no set can be made of them, all of them are named. Roots are looked at in their
order before any file is, so the first that leads nowhere is at fault and nothing has been stored.
Nothing else ends a scan, a signal that has fired included.
-/
namespace Provenance.Exclusion

variable {engine : PatternEngine} {patterns : List Text} {read : List engine.Pattern}

/-- A pattern cannot be read, or all can but no set can be made of them. -/
def Refused (engine : PatternEngine) (patterns : List Text) : Prop :=
  (∃ pattern ∈ patterns, ∃ reason, engine.read pattern = .error reason) ∨
    ∃ read reason, patterns.map engine.read = read.map .ok ∧ engine.build read = .error reason

/-- The fault that lies in patterns. -/
inductive PatternFault (engine : PatternEngine) (patterns : List Text) : Fault → Prop
  /-- The first pattern that cannot be read is named as it stands. -/
  | unreadable {before after : List Text} {pattern reason : Text}
      (hpatterns : patterns = before ++ pattern :: after)
      (hbefore : ∀ other ∈ before, ∃ read, engine.read other = .ok read)
      (hpattern : engine.read pattern = .error reason) :
      PatternFault engine patterns (.invalidPattern pattern reason)
  /-- Patterns that can all be read are at fault together. -/
  | unbuilt {read : List engine.Pattern} {reason : Text}
      (hread : patterns.map engine.read = read.map .ok)
      (hbuild : engine.build read = .error reason) :
      PatternFault engine patterns (.invalidPattern (joinWith ", ".toList patterns) reason)

/-- The patterns can all be read, or one of them is the first that cannot. -/
theorem read_or_first_unreadable (engine : PatternEngine) (patterns : List Text) :
    (∃ read : List engine.Pattern, patterns.map engine.read = read.map .ok) ∨
    ∃ before pattern after reason, patterns = before ++ pattern :: after ∧
      (∀ other ∈ before, ∃ read, engine.read other = .ok read) ∧
      engine.read pattern = .error reason := by
  induction patterns with
  | nil => exact Or.inl ⟨[], rfl⟩
  | cons first patterns ih =>
    cases hfirst : engine.read first with
    | error reason => exact Or.inr ⟨[], first, patterns, reason, rfl, nofun, hfirst⟩
    | ok own =>
      rcases ih with ⟨others, hread⟩ | ⟨before, pattern, after, reason, hsplit, hbefore, hpattern⟩
      · refine Or.inl ⟨own :: others, ?_⟩
        rw [List.map_cons, hfirst, hread, List.map_cons]
      · refine Or.inr ⟨first :: before, pattern, after, reason, ?_, ?_, hpattern⟩
        · rw [hsplit, List.cons_append]
        · intro other hother
          rcases List.mem_cons.mp hother with rfl | hother
          · exact ⟨own, hfirst⟩
          · exact hbefore other hother

theorem readPattern_of_ok {pattern : Text} {own : engine.Pattern}
    (h : engine.read pattern = .ok own) : readPattern engine pattern = .ok own := by
  rw [readPattern, h]
  rfl

theorem mapM_readPattern_of_read (hread : patterns.map engine.read = read.map .ok) :
    patterns.mapM (readPattern engine) = .ok read := by
  induction patterns generalizing read with
  | nil =>
    rw [List.map_eq_nil_iff.mp hread.symm]
    rfl
  | cons first patterns ih =>
    cases read with
    | nil => cases hread
    | cons own others =>
      rw [List.map_cons, List.map_cons] at hread
      obtain ⟨hfirst, hrest⟩ := List.cons.inj hread
      rw [List.mapM_cons, readPattern_of_ok hfirst, ih hrest]
      rfl

/-- Behind the first pattern that cannot be read none is looked at. -/
theorem mapM_readPattern_of_unreadable {before : List Text} {pattern reason : Text}
    (hbefore : ∀ other ∈ before, ∃ read, engine.read other = .ok read)
    (hpattern : engine.read pattern = .error reason) (after : List Text) :
    (before ++ pattern :: after).mapM (readPattern engine) =
      .error (.invalidPattern pattern reason) := by
  induction before with
  | nil =>
    rw [List.nil_append, List.mapM_cons, readPattern, hpattern]
    rfl
  | cons first before ih =>
    obtain ⟨own, hfirst⟩ := hbefore first List.mem_cons_self
    have hrest := ih fun other hother => hbefore other (List.mem_cons_of_mem _ hother)
    rw [List.cons_append, List.mapM_cons, readPattern_of_ok hfirst, hrest]
    rfl

/-- Where all patterns can be read, the set of them decides. -/
theorem ofPatterns_of_read (hread : patterns.map engine.read = read.map .ok) :
    ofPatterns engine patterns =
      (engine.build read).mapError (Fault.invalidPattern (joinWith ", ".toList patterns)) := by
  rw [ofPatterns, mapM_readPattern_of_read hread]
  rfl

theorem ofPatterns_of_fault {fault : Fault} (h : PatternFault engine patterns fault) :
    ofPatterns engine patterns = .error fault := by
  cases h with
  | unreadable hpatterns hbefore hpattern =>
    rw [hpatterns, ofPatterns, mapM_readPattern_of_unreadable hbefore hpattern]
    rfl
  | unbuilt hread hbuild =>
    rw [ofPatterns_of_read hread, hbuild]
    rfl

/-- Patterns make an exclusion, the one that the engine builds of them, unless a fault lies in them. -/
theorem exists_build_or_fault (engine : PatternEngine) (patterns : List Text) :
    (∃ read exclusion, patterns.map engine.read = read.map .ok ∧
      engine.build read = .ok exclusion ∧ ofPatterns engine patterns = .ok exclusion) ∨
    ∃ fault, PatternFault engine patterns fault := by
  rcases read_or_first_unreadable engine patterns with ⟨read, hread⟩ |
    ⟨before, pattern, after, reason, hsplit, hbefore, hpattern⟩
  · cases hbuild : engine.build read with
    | error reason => exact Or.inr ⟨_, .unbuilt hread hbuild⟩
    | ok exclusion =>
      refine Or.inl ⟨read, exclusion, hread, hbuild, ?_⟩
      rw [ofPatterns_of_read hread, hbuild]
      rfl
  · exact Or.inr ⟨_, .unreadable hsplit hbefore hpattern⟩

theorem ofPatterns_eq_error_iff {fault : Fault} :
    ofPatterns engine patterns = .error fault ↔ PatternFault engine patterns fault := by
  constructor
  · intro h
    rcases exists_build_or_fault engine patterns with ⟨read, exclusion, -, -, hexclusion⟩ |
      ⟨other, hother⟩
    · rw [hexclusion] at h
      cases h
    · rw [ofPatterns_of_fault hother] at h
      cases h
      exact hother
  · exact ofPatterns_of_fault

theorem PatternFault.refused {fault : Fault} (h : PatternFault engine patterns fault) :
    Refused engine patterns := by
  cases h with
  | @unreadable before after pattern reason hpatterns hbefore hpattern =>
    have hmem : pattern ∈ patterns := hpatterns ▸ List.mem_append_right before List.mem_cons_self
    exact Or.inl ⟨pattern, hmem, reason, hpattern⟩
  | unbuilt hread hbuild => exact Or.inr ⟨_, _, hread, hbuild⟩

/-- Patterns that have all been read have been read in one way. -/
theorem read_unique {other : List engine.Pattern} (hread : patterns.map engine.read = read.map .ok)
    (hother : patterns.map engine.read = other.map .ok) : read = other :=
  (List.map_inj_right fun _ _ => Except.ok.inj).mp (hread.symm.trans hother)

/-- Making an exclusion fails just if the patterns are refused. -/
theorem exists_ofPatterns_error_iff (engine : PatternEngine) (patterns : List Text) :
    (∃ fault, ofPatterns engine patterns = .error fault) ↔ Refused engine patterns := by
  constructor
  · rintro ⟨fault, hfault⟩
    exact (ofPatterns_eq_error_iff.mp hfault).refused
  · intro hrefused
    rcases exists_build_or_fault engine patterns with ⟨read, exclusion, hread, hbuild, -⟩ |
      ⟨fault, hfault⟩
    · rcases hrefused with ⟨pattern, hpattern, reason, hreason⟩ | ⟨other, reason, hother, hreason⟩
      · have hmem : engine.read pattern ∈ read.map Except.ok := hread ▸ List.mem_map_of_mem hpattern
        obtain ⟨own, -, hown⟩ := List.mem_map.mp hmem
        rw [hreason] at hown
        cases hown
      · rw [read_unique hother hread, hbuild] at hreason
        cases hreason
    · exact ⟨fault, ofPatterns_of_fault hfault⟩

theorem PatternFault.ne_cancelled {fault : Fault} (h : PatternFault engine patterns fault) :
    fault ≠ .cancelled := by
  intro hcancelled
  subst hcancelled
  cases h

end Provenance.Exclusion

namespace Provenance.Scan

open Exclusion

/-- The fault of looking at the first root that leads nowhere. -/
inductive RootFault (fs : FileSystem) (roots : List Path) : Fault → Prop
  | mk {before after : List Path} {root : Path} {obstacle : Obstacle}
      (hroots : roots = before ++ root :: after)
      (hbefore : ∀ other ∈ before, ∃ object, fs other = .ok object)
      (hroot : fs root = .error obstacle) :
      RootFault fs roots (.ofObstacle root obstacle)

section

variable {parser : Parser} {fs : FileSystem} {roots : List Path}

/-- Every root leads somewhere, or one is the first that does not. -/
theorem roots_or_fault (fs : FileSystem) (roots : List Path) :
    (∀ root ∈ roots, ∃ object, fs root = .ok object) ∨ ∃ fault, RootFault fs roots fault := by
  induction roots with
  | nil => exact Or.inl nofun
  | cons first roots ih =>
    cases hfirst : fs first with
    | error obstacle =>
      have hsplit : first :: roots = [] ++ first :: roots := rfl
      exact Or.inr ⟨_, .mk hsplit nofun hfirst⟩
    | ok object =>
      rcases ih with hroots | ⟨fault, hfault⟩
      · exact Or.inl (List.forall_mem_cons.mpr ⟨⟨object, hfirst⟩, hroots⟩)
      · cases hfault with
        | mk hroots hbefore hroot =>
          have hbefore := List.forall_mem_cons.mpr ⟨⟨object, hfirst⟩, hbefore⟩
          exact Or.inr ⟨_, .mk (congrArg (List.cons first) hroots) hbefore hroot⟩

theorem object_of_ok {path : Path} {object : Object} (h : fs path = .ok object) :
    fs.object path = .ok object := by
  rw [FileSystem.object, h]
  rfl

theorem object_of_obstacle {path : Path} {obstacle : Obstacle} (h : fs path = .error obstacle) :
    fs.object path = .error (.ofObstacle path obstacle) := by
  rw [FileSystem.object, h]
  rfl

/-- What the roots before have contributed does not matter once a root leads nowhere. -/
theorem collectInto_of_fault {fault : Fault} (exclusion : Exclusion)
    (h : RootFault fs roots fault) (found : Ordered) :
    collectInto fs exclusion found roots = .error fault := by
  cases h with
  | @mk before after root obstacle hroots hbefore hroot =>
    subst hroots
    induction before generalizing found with
    | nil =>
      rw [List.nil_append, collectInto, object_of_obstacle hroot]
      rfl
    | cons first before ih =>
      obtain ⟨object, hobject⟩ := hbefore first List.mem_cons_self
      rw [List.cons_append, collectInto, object_of_ok hobject]
      exact ih _ fun other hother => hbefore other (List.mem_cons_of_mem _ hother)

theorem collect_of_fault {fault : Fault} (exclusion : Exclusion) (h : RootFault fs roots fault) :
    collect fs exclusion roots = .error fault := by
  rw [collect, collectInto_of_fault exclusion h]
  rfl

theorem RootFault.ne_cancelled {fault : Fault} (h : RootFault fs roots fault) :
    fault ≠ .cancelled := by
  cases h with
  | mk hroots hbefore hroot => exact ofObstacle_ne_cancelled _ _

theorem RootFault.exists_obstacle {fault : Fault} (h : RootFault fs roots fault) :
    ∃ root ∈ roots, ∃ obstacle, fs root = .error obstacle := by
  cases h with
  | @mk before after root obstacle hroots hbefore hroot =>
    subst hroots
    exact ⟨root, List.mem_append_right before List.mem_cons_self, obstacle, hroot⟩

/-- A scan with a root that leads nowhere leaves cache and signal as they are. -/
theorem run_scan_of_fault {fault : Fault} (exclusion : Exclusion) (state : Cache × Signal)
    (h : RootFault fs roots fault) :
    (scan parser fs roots exclusion).run state = (.error fault, state) := by
  rw [run_scan, collect_of_fault exclusion h]

/-- Where every root leads somewhere, a scan comes to a report. -/
theorem exists_run_scan (parser : Parser) (hroots : ∀ root ∈ roots, ∃ object, fs root = .ok object)
    (exclusion : Exclusion) (state : Cache × Signal) :
    ∃ report, ((scan parser fs roots exclusion).run state).1 = .ok report := by
  have hobjects : ∀ root ∈ roots, ∃ object, fs.object root = .ok object := by
    intro root hroot
    obtain ⟨object, hobject⟩ := hroots root hroot
    exact ⟨object, object_of_ok hobject⟩
  obtain ⟨paths, hcollect, -⟩ := exists_collect exclusion hobjects
  rw [run_scan, hcollect]
  exact ⟨_, rfl⟩

end

section

variable {engine : PatternEngine} {patterns : List Text}

theorem run_of_fault {fault : Fault} (h : PatternFault engine patterns fault) (parser : Parser)
    (fs : FileSystem) (roots : List Path) (signal : Signal) :
    run parser engine fs roots patterns signal = .error fault := by
  rw [run, ofPatterns_of_fault h]
  rfl

theorem run_of_ok {exclusion : Exclusion} (h : ofPatterns engine patterns = .ok exclusion)
    (parser : Parser) (fs : FileSystem) (roots : List Path) (signal : Signal) :
    run parser engine fs roots patterns signal =
      ((scan parser fs roots exclusion).run (Cache.empty, signal)).1 := by
  rw [run, h]
  rfl

end

theorem scan_ne_cancelled (parser : Parser) (fs : FileSystem) (roots : List Path)
    (exclusion : Exclusion) (state : Cache × Signal) :
    ((scan parser fs roots exclusion).run state).1 ≠ .error .cancelled := by
  intro hcancelled
  rcases roots_or_fault fs roots with hroots | ⟨fault, hfault⟩
  · obtain ⟨report, hreport⟩ := exists_run_scan parser hroots exclusion state
    rw [hreport] at hcancelled
    cases hcancelled
  · rw [run_scan_of_fault exclusion state hfault] at hcancelled
    exact hfault.ne_cancelled (Except.error.inj hcancelled)

theorem run_ne_cancelled (parser : Parser) (engine : PatternEngine) (fs : FileSystem)
    (roots : List Path) (patterns : List Text) (signal : Signal) :
    run parser engine fs roots patterns signal ≠ .error .cancelled := by
  intro hcancelled
  rcases exists_build_or_fault engine patterns with ⟨read, exclusion, -, -, hexclusion⟩ |
    ⟨fault, hfault⟩
  · rw [run_of_ok hexclusion] at hcancelled
    exact scan_ne_cancelled parser fs roots exclusion (Cache.empty, signal) hcancelled
  · rw [run_of_fault hfault] at hcancelled
    exact hfault.ne_cancelled (Except.error.inj hcancelled)

/-- What can end a scan. An exclusion is refused just if a pattern cannot be read or no set can be made
of all: the first that cannot be read is named, or all together where each can, and a run says so
without looking at any root. A scan fails just if a root leads nowhere, with the obstacle of the first
such root, and leaves everything as it was. Otherwise there is a report, and cancellation is never a
fault of a scan. -/
theorem scan_fails_iff (parser : Parser) (engine : PatternEngine) :
    (∀ patterns,
      ((∃ fault, ofPatterns engine patterns = .error fault) ↔ Refused engine patterns) ∧
      ∀ fault, (ofPatterns engine patterns = .error fault ↔ PatternFault engine patterns fault) ∧
        (PatternFault engine patterns fault →
          ∀ fs roots signal, run parser engine fs roots patterns signal = .error fault)) ∧
    (∀ fs roots exclusion cache signal,
      ((∃ fault, ((scan parser fs roots exclusion).run (cache, signal)).1 = .error fault) ↔
        ∃ root ∈ roots, ∃ obstacle, fs root = .error obstacle) ∧
      (∀ fault, RootFault fs roots fault →
        (scan parser fs roots exclusion).run (cache, signal) = (.error fault, cache, signal)) ∧
      ((∀ root ∈ roots, ∃ object, fs root = .ok object) →
        ∃ report, ((scan parser fs roots exclusion).run (cache, signal)).1 = .ok report) ∧
      ((scan parser fs roots exclusion).run (cache, signal)).1 ≠ .error .cancelled) ∧
    ∀ fs roots patterns signal, run parser engine fs roots patterns signal ≠ .error .cancelled ∧
      ∀ exclusion, ofPatterns engine patterns = .ok exclusion →
        run parser engine fs roots patterns signal =
          ((scan parser fs roots exclusion).run (Cache.empty, signal)).1 := by
  refine ⟨?_, ?_, ?_⟩
  · intro patterns
    refine ⟨exists_ofPatterns_error_iff engine patterns, ?_⟩
    intro fault
    exact ⟨ofPatterns_eq_error_iff, fun h => run_of_fault h parser⟩
  · intro fs roots exclusion cache signal
    refine ⟨?_, fun fault h => run_scan_of_fault exclusion (cache, signal) h,
      fun hroots => exists_run_scan parser hroots exclusion (cache, signal),
      scan_ne_cancelled parser fs roots exclusion (cache, signal)⟩
    constructor
    · rintro ⟨fault, hfault⟩
      rcases roots_or_fault fs roots with hroots | ⟨other, hother⟩
      · obtain ⟨report, hreport⟩ := exists_run_scan parser hroots exclusion (cache, signal)
        rw [hreport] at hfault
        cases hfault
      · exact hother.exists_obstacle
    · rintro ⟨root, hroot, obstacle, hobstacle⟩
      rcases roots_or_fault fs roots with hroots | ⟨fault, hfault⟩
      · obtain ⟨object, hobject⟩ := hroots root hroot
        rw [hobject] at hobstacle
        cases hobstacle
      · rw [run_scan_of_fault exclusion (cache, signal) hfault]
        exact ⟨fault, rfl⟩
  · intro fs roots patterns signal
    refine ⟨run_ne_cancelled parser engine fs roots patterns signal, ?_⟩
    intro exclusion hexclusion
    exact run_of_ok hexclusion parser fs roots signal

/-- An empty directory, and nothing else that may be looked at. -/
def onlyDirectoryA : FileSystem := fun path =>
  if path.same (.ofText "a".toList) then .ok (.directory ⟨0⟩ []) else .error .denied

/-- Two roots that lead nowhere behind one that does, and two patterns that cannot be read. -/
theorem first_fault_named :
    (scan Header.parser onlyDirectoryA
        [.ofText "a".toList, .ofText "b".toList, .ofText "c".toList] .none).run
        (Cache.empty, .fired) =
      (.error (.permissionDenied (.ofText "b".toList)), Cache.empty, .fired) ∧
    run Header.parser Glob.engine onlyDirectoryA [.ofText "b".toList]
        ["*".toList, "[".toList, "]".toList, "[".toList] .fired =
      .error (.invalidPattern "[".toList Glob.Defect.unclosedClass.message) := by
  have hscan := scan_fails_iff Header.parser Glob.engine
  constructor
  · have hroots : [.ofText "a".toList, .ofText "b".toList, .ofText "c".toList] =
        [.ofText "a".toList] ++ Path.ofText "b".toList :: [.ofText "c".toList] := rfl
    have hdenied : onlyDirectoryA (.ofText "b".toList) = .error .denied := rfl
    have hfault := RootFault.mk hroots (List.forall_mem_singleton.mpr ⟨_, rfl⟩) hdenied
    exact (hscan.2.1 onlyDirectoryA _ .none Cache.empty .fired).2.1 _ hfault
  · have hpatterns : ["*".toList, "[".toList, "]".toList, "[".toList] =
        ["*".toList] ++ "[".toList :: ["]".toList, "[".toList] := rfl
    have hstar : Glob.engine.read "*".toList = .ok [.anyRun] := by cbv
    have hbracket : Glob.engine.read "[".toList = .error Glob.Defect.unclosedClass.message :=
      Glob.read_of_defect (by cbv)
    have hfault := PatternFault.unreadable hpatterns
      (List.forall_mem_singleton.mpr ⟨_, hstar⟩) hbracket
    exact ((hscan.1 _).2 _).2 hfault onlyDirectoryA _ .fired

/-- Each of two patterns can be read, and the first can be used alone, the second not; but the fault
of both names the first beside the second. -/
theorem fault_names_all_patterns :
    (∃ exclusion, ofPatterns Glob.engine ["a".toList] = .ok exclusion) ∧
      (∃ fault, ofPatterns Glob.engine [Glob.nestedGroups 260] = .error fault) ∧
      (∃ reason, ofPatterns Glob.engine ["a".toList, Glob.nestedGroups 260] =
        .error (.invalidPattern ("a, ".toList ++ Glob.nestedGroups 260) reason)) ∧
      ∀ reason, ofPatterns Glob.engine ["a".toList, Glob.nestedGroups 260] ≠
        .error (.invalidPattern (Glob.nestedGroups 260) reason) := by
  have hletter : Glob.engine.read "a".toList = .ok [.literal 'a'] := by cbv
  have hnested := Glob.read_nestedGroups 260
  have halone : [Glob.nestedGroups 260].map Glob.engine.read = [[Glob.nestedToken 260]].map .ok := by
    rw [List.map_singleton, hnested]
    rfl
  have hboth : ["a".toList, Glob.nestedGroups 260].map Glob.engine.read =
      [[.literal 'a'], [Glob.nestedToken 260]].map .ok := by
    rw [List.map_cons, hletter, halone]
    rfl
  obtain ⟨reason, hreason⟩ := Glob.exists_build_error_of_nested (show 250 ≤ 260 by omega)
    (List.mem_singleton_self [Glob.nestedToken 260])
  obtain ⟨reason', hreason'⟩ := Glob.exists_build_error_of_nested (show 250 ≤ 260 by omega)
    (List.mem_cons_of_mem [.literal 'a'] (List.mem_singleton_self [Glob.nestedToken 260]))
  have hpatterns : ofPatterns Glob.engine ["a".toList, Glob.nestedGroups 260] =
      .error (.invalidPattern ("a, ".toList ++ Glob.nestedGroups 260) reason') :=
    ofPatterns_of_fault (.unbuilt hboth hreason')
  refine ⟨⟨_, by cbv⟩, ⟨_, ofPatterns_of_fault (.unbuilt halone hreason)⟩, ⟨reason', hpatterns⟩, ?_⟩
  intro other hother
  rw [hpatterns] at hother
  have hnames := congrArg List.head? (Fault.invalidPattern.inj (Except.error.inj hother)).1
  exact absurd hnames (by decide)

end Provenance.Scan
