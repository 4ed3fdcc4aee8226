import Provenance.Header.Tree
import Provenance.Proofs.Scan.Justified
import Provenance.Report.Listing

/-!
The counts of a report and its listings. A status is of one of five kinds, and a summary has a counter
for each: counting a file adds one to the counter of its kind and leaves the others alone. So the
counters of a scan say how many files of each kind there are, whatever the files are, and the number of
generated files that the header names is the number of lines that follow it by default.
-/
namespace Provenance

/-- What is counted apart from each other. -/
inductive Status.Kind
  | generated | authored | skipped | unknown | failed
deriving DecidableEq, Repr

/-- The kind of a status; what makes a file generated, or why it is passed over, does not matter. -/
def Status.kind : Status → Status.Kind
  | generated _ => .generated
  | authored => .authored
  | skipped _ => .skipped
  | unknown => .unknown
  | failed _ => .failed

theorem Status.isGenerated_iff (status : Status) :
    status.isGenerated = true ↔ status.kind = .generated := by
  cases status <;> simp [isGenerated, kind]

namespace Summary

/-- The counter of a kind. -/
def counter (s : Summary) : Status.Kind → Nat
  | .generated => s.generated
  | .authored => s.authored
  | .skipped => s.skipped
  | .unknown => s.unknown
  | .failed => s.failed

/-- Counting a status adds to the counter of its kind and to no other. -/
theorem counter_count (s : Summary) (status : Status) (kind : Status.Kind) :
    (s.count status).counter kind = s.counter kind + if status.kind = kind then 1 else 0 := by
  cases status <;> cases kind <;> rfl

theorem files_count (s : Summary) (status : Status) : (s.count status).files = s.files := by
  cases status <;> rfl

theorem counter_foldl_count (files : List FileVerdict) (s : Summary) (kind : Status.Kind) :
    (files.foldl (fun s file => s.count file.status) s).counter kind =
      s.counter kind + files.countP fun file => file.status.kind = kind := by
  induction files generalizing s with
  | nil => rfl
  | cons file files ih =>
    rw [List.foldl_cons, ih, counter_count, List.countP_cons]
    simp only [decide_eq_true_eq]
    omega

theorem files_foldl_count (files : List FileVerdict) (s : Summary) :
    (files.foldl (fun s file => s.count file.status) s).files = s.files := by
  induction files generalizing s with
  | nil => rfl
  | cons file files ih => rw [List.foldl_cons, ih, files_count]

theorem files_tally (files : List FileVerdict) : (tally files).files = files.length :=
  files_foldl_count files _

/-- A counter of the summary is the number of files of its kind. -/
theorem counter_tally (files : List FileVerdict) (kind : Status.Kind) :
    (tally files).counter kind = files.countP fun file => file.status.kind = kind := by
  have hzero : counter { zero with files := files.length } kind = 0 := by cases kind <;> rfl
  rw [tally, counter_foldl_count, hzero, Nat.zero_add]

/-- All counters together, the files as such left out. -/
def total (s : Summary) : Nat :=
  s.generated + s.authored + s.skipped + s.unknown + s.failed

theorem total_count (s : Summary) (status : Status) : (s.count status).total = s.total + 1 := by
  cases status <;> simp only [total, count] <;> omega

theorem total_foldl_count (files : List FileVerdict) (s : Summary) :
    (files.foldl (fun s file => s.count file.status) s).total = s.total + files.length := by
  induction files generalizing s with
  | nil => rfl
  | cons file files ih =>
    rw [List.foldl_cons, ih, total_count, List.length_cons]
    omega

/-- Every file is counted once. -/
theorem total_tally (files : List FileVerdict) : (tally files).total = files.length := by
  have hzero : total { zero with files := files.length } = 0 := rfl
  rw [tally, total_foldl_count, hzero, Nat.zero_add]

end Summary

namespace Report

/-- What the header says of a count: nothing at all, if there is nothing to count. -/
def mention (n : Nat) (label : Text) : List Text :=
  if n = 0 then [] else [Text.ofNat n ++ ' ' :: label]

theorem exceptions_eq (s : Summary) :
    exceptions s = mention s.skipped "skipped".toList ++ mention s.unknown "unknown".toList ++
      mention s.failed "failed".toList := by
  obtain ⟨files, generated, authored, skipped, unknown, failed⟩ := s
  cases skipped <;> cases unknown <;> cases failed <;> rfl

theorem mention_eq_nil_iff {n : Nat} {label : Text} : mention n label = [] ↔ n = 0 := by
  simp [mention]

theorem exceptions_eq_nil_iff (s : Summary) :
    exceptions s = [] ↔ s.skipped = 0 ∧ s.unknown = 0 ∧ s.failed = 0 := by
  rw [exceptions_eq, List.append_eq_nil_iff, List.append_eq_nil_iff, mention_eq_nil_iff,
    mention_eq_nil_iff, mention_eq_nil_iff, and_assoc]

theorem parenthesis_of_ne_nil {s : Summary} (h : exceptions s ≠ []) :
    parenthesis s = " (".toList ++ joinWith ", ".toList (exceptions s) ++ ")".toList := by
  rw [parenthesis]
  split
  · next hnil => exact absurd hnil h
  · rfl

theorem parenthesis_eq_nil_iff (s : Summary) :
    parenthesis s = [] ↔ s.skipped = 0 ∧ s.unknown = 0 ∧ s.failed = 0 := by
  rw [← exceptions_eq_nil_iff]
  constructor
  · intro h
    by_contra hne
    rw [parenthesis_of_ne_nil hne] at h
    cases h
  · intro h
    rw [parenthesis, h]

/-- The files of one kind, in their order. -/
def filesOf (r : Report) (kind : Status.Kind) : List FileVerdict :=
  r.files.filter fun file => file.status.kind = kind

theorem listing_all (r : Report) :
    r.listing true = header r.roots r.summary ++ r.files.flatMap line := by
  have hlisted : r.files.filter (isListed true) = r.files := List.filter_eq_self.mpr fun _ _ => rfl
  rw [listing, hlisted]

theorem listing_default (r : Report) :
    r.listing false = header r.roots r.summary ++ (r.filesOf .generated).flatMap line := by
  have hlisted : r.files.filter (isListed false) = r.filesOf .generated := by
    refine List.filter_congr fun file _ => ?_
    rw [isListed, Bool.false_or, Bool.eq_iff_iff, file.status.isGenerated_iff, decide_eq_true_eq]
  rw [listing, hlisted]

/-- With only the generated files left, all files are listed either way. -/
theorem listing_generated (r : Report) (all : Bool) :
    listing { r with files := r.filesOf .generated } all = r.listing false := by
  have hlisted : (r.filesOf .generated).filter (isListed all) = r.filesOf .generated := by
    refine List.filter_eq_self.mpr fun file hfile => ?_
    have hkind := of_decide_eq_true (List.mem_filter.mp hfile).2
    rw [isListed, file.status.isGenerated_iff.mpr hkind, Bool.or_true]
  rw [listing_default, listing, hlisted]

/-- The counts of a report are those of its files, and both listings tell the same as the counts. -/
structure Agrees (r : Report) : Prop where
  files : r.summary.files = r.files.length
  counter : ∀ kind, r.summary.counter kind = (r.filesOf kind).length
  total : r.summary.files = r.summary.generated + r.summary.authored + r.summary.skipped +
    r.summary.unknown + r.summary.failed
  /-- All files are listed in their order, each with its path and what is said about it. -/
  all : r.listing true = header r.roots r.summary ++ (r.files.map fun file =>
    '\n' :: file.path.display ++ " [".toList ++ tag file.status ++ "]".toList).flatten
  /-- By default the lines of the other files are missing, and nothing else is. -/
  default : r.listing false = header r.roots r.summary ++ ((r.filesOf .generated).map fun file =>
    '\n' :: file.path.display ++ " [".toList ++ tag file.status ++ "]".toList).flatten
  /-- It is what either listing would be if there were no other files. -/
  removed : ∀ all, r.listing false = listing { r with files := r.filesOf .generated } all
  /-- The header names as many generated files as there are lines by default. -/
  header : header r.roots r.summary =
    "# Scan: ".toList ++ joinWith ", ".toList (r.roots.map Path.display) ++ " — ".toList ++
      Text.ofNat r.files.length ++ " files, ".toList ++
      Text.ofNat (r.filesOf .generated).length ++ " generated".toList ++ parenthesis r.summary
  /-- The other counts stand in parentheses in a fixed order, those that are zero left out. -/
  exceptions : r.summary.skipped ≠ 0 ∨ r.summary.unknown ≠ 0 ∨ r.summary.failed ≠ 0 →
    parenthesis r.summary = " (".toList ++ joinWith ", ".toList
      (mention r.summary.skipped "skipped".toList ++ mention r.summary.unknown "unknown".toList ++
        mention r.summary.failed "failed".toList) ++ ")".toList
  no_exceptions_iff : parenthesis r.summary = [] ↔
    r.summary.skipped = 0 ∧ r.summary.unknown = 0 ∧ r.summary.failed = 0

theorem agrees_of_tally {r : Report} (h : r.summary = Summary.tally r.files) : r.Agrees where
  files := by rw [h, Summary.files_tally]
  counter kind := by rw [h, Summary.counter_tally, filesOf, List.countP_eq_length_filter]
  total := by rw [h, Summary.files_tally, ← Summary.total_tally, Summary.total]
  all := by
    rw [listing_all, List.flatMap_def]
    unfold line
    rfl
  default := by
    rw [listing_default, List.flatMap_def]
    unfold line
    rfl
  removed all := (listing_generated r all).symm
  header := by
    have hgenerated : r.summary.generated = (r.filesOf .generated).length := by
      rw [h, filesOf, ← List.countP_eq_length_filter]
      exact Summary.counter_tally r.files .generated
    have hfiles : r.summary.files = r.files.length := by rw [h, Summary.files_tally]
    unfold Report.header
    rw [hfiles, hgenerated]
  exceptions hsome := by
    rw [← exceptions_eq]
    refine parenthesis_of_ne_nil fun hnil => ?_
    obtain ⟨hskipped, hunknown, hfailed⟩ := (exceptions_eq_nil_iff r.summary).mp hnil
    rcases hsome with hsome | hsome | hsome
    · exact hsome hskipped
    · exact hsome hunknown
    · exact hsome hfailed
  no_exceptions_iff := parenthesis_eq_nil_iff r.summary

end Report

namespace Scan

/-- Whatever a scan reports, its counts and its listings agree. -/
theorem report_agrees {parser : Parser} {fs : FileSystem} {roots : List Path}
    {exclusion : Exclusion} {state state' : Cache × Signal} {report : Report}
    (h : (scan parser fs roots exclusion).run state = (.ok report, state')) : report.Agrees := by
  rw [run_scan] at h
  cases hcollect : collect fs exclusion roots with
  | error fault =>
    rw [hcollect] at h
    cases h
  | ok paths =>
    rw [hcollect] at h
    cases h
    exact Report.agrees_of_tally rfl

/-- An empty file everywhere. -/
def emptyFiles : FileSystem := fun _ => .ok (.file ⟨0⟩ (.ok []))

/-- Four files, in another order than their paths have. -/
def fourRoots : List Path :=
  [.ofText "b.g.cs".toList, .ofText "a.md".toList, .ofText "d.rs".toList, .ofText "c.cs".toList]

theorem listing_fourRoots :
    ∃ report, (scan Header.parser emptyFiles fourRoots .none).run (Cache.empty, .fired) =
        (.ok report, Cache.empty, .fired) ∧
      report.Agrees ∧ report.listing false =
        "# Scan: b.g.cs, a.md, d.rs, c.cs — 4 files, 1 generated (1 skipped, 2 unknown)".toList ++
          "\nb.g.cs [generated: file name]".toList := by
  have hrun : (scan Header.parser emptyFiles fourRoots .none).run (Cache.empty, .fired) =
      (.ok ⟨fourRoots, ⟨4, 1, 0, 1, 2, 0⟩,
        [⟨.ofText "a.md".toList, .skipped .unsupported⟩,
          ⟨.ofText "b.g.cs".toList, .generated .fileName⟩, ⟨.ofText "c.cs".toList, .unknown⟩,
          ⟨.ofText "d.rs".toList, .unknown⟩]⟩, Cache.empty, .fired) := by
    rfl
  exact ⟨_, hrun, report_agrees hrun, by decide⟩

end Scan

end Provenance
