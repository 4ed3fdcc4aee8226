import Mathlib.Data.Set.Card
import Provenance.Proofs.Cache.FirstInsert
import Provenance.Proofs.Scan.AnyOrder
import Provenance.Proofs.Session.Transparency

/-!
What the cache of a session holds. A classification stores a verdict only if it comes to the end of a
look at the contents, so the keys are those of the files that were there and could be read while the
signal had not fired, and a verdict tells something about contents. What one classification gains is
gained by a row of them, by a scan, and by a session. A second scan finds everything stored that it
could gain.
-/
namespace Provenance

/-- The statuses that only a look at the contents can give. -/
def Status.TellsContents : Status → Prop
  | .authored | .skipped .empty | .skipped .binary => True
  | .generated (.marker m) => m ∈ Marker.known
  | .generated .fileName | .skipped .unsupported | .unknown | .failed _ => False

namespace Scan

open Cache Signal

/-- The classification of a file comes to a verdict on its contents, or would without the cache: the
signal has not fired, the name says nothing, the language is known, and metadata and contents are
there. The key is that of the file as it is. -/
structure Concluded (fs : FileSystem) (signal : Signal) (path : Path) (key : Key) : Prop where
  live : signal.hasFired = false
  unnamed : NameRule.fires path.display = false
  supported : ∃ language, Language.ofPath? path = some language
  readable : ∃ contents, Contents.read fs path = .ok contents
  keyed : ∃ object, fs.object path = .ok object ∧ key = Key.of path object.modified

/-- What a cache has gained: the keys for which something was concluded, each once, with verdicts on
contents, and nothing at all if these keys were there. -/
structure Gains (cache cache' : Cache) (concluded : Key → Prop) : Prop where
  mem_keys : ∀ key, key ∈ cache'.keys ↔ key ∈ cache.keys ∨ concluded key
  nodup_keys : cache.keys.Nodup → cache'.keys.Nodup
  tells : ∀ entry ∈ cache'.entries, entry ∈ cache.entries ∨ entry.2.TellsContents
  same : (∀ key, concluded key → key ∈ cache.keys) → cache' = cache

theorem gains_nothing (cache : Cache) {concluded : Key → Prop} (h : ∀ key, ¬concluded key) :
    Gains cache cache concluded := by
  refine ⟨fun key => ?_, id, fun entry => Or.inl, fun _ => rfl⟩
  simp [h key]

theorem Gains.trans {cache cache' cache'' : Cache} {concluded concluded' : Key → Prop}
    (h : Gains cache cache' concluded) (h' : Gains cache' cache'' concluded') :
    Gains cache cache'' fun key => concluded key ∨ concluded' key := by
  constructor
  · intro key
    rw [h'.mem_keys, h.mem_keys, or_assoc]
  · intro hnodup
    exact h'.nodup_keys (h.nodup_keys hnodup)
  · intro entry hentry
    rcases h'.tells entry hentry with hearlier | htells
    · exact h.tells entry hearlier
    · exact Or.inr htells
  · intro hstored
    have hsame : cache' = cache := h.same fun key hkey => hstored key (Or.inl hkey)
    rw [h'.same fun key hkey => hsame ▸ hstored key (Or.inr hkey), hsame]

theorem Gains.congr {cache cache' : Cache} {concluded concluded' : Key → Prop}
    (h : Gains cache cache' concluded) (hiff : ∀ key, concluded key ↔ concluded' key) :
    Gains cache cache' concluded' := by
  have heq : concluded = concluded' := funext fun key => propext (hiff key)
  exact heq ▸ h

section

variable {parser : Parser} {fs : FileSystem} {path : Path} {cache : Cache} {signal : Signal} {key : Key}

/-- What can be read is told about. -/
theorem exists_settles_of_read (parser : Parser) {contents : Contents}
    (hname : NameRule.fires path.display = false)
    (hread : Contents.read fs path = .ok contents) :
    ∃ polls status, Settles (classifyContents parser fs path) polls (.ok status) ∧
      status.TellsContents := by
  unfold classifyContents
  rw [hread]
  cases contents with
  | empty => exact ⟨1 + 0, _, settles_bind settles_poll (settles_pure _), trivial⟩
  | binary => exact ⟨1 + 0, _, settles_bind settles_poll (settles_pure _), trivial⟩
  | text t =>
    obtain ⟨polls, marker, hdetect, hknown⟩ :=
      @SourceFile.exists_settles_detect parser ⟨path, t⟩ hname
    cases marker with
    | none =>
      exact ⟨1 + (polls + 0), .authored,
        settles_bind settles_poll (settles_bind hdetect (settles_pure _)), trivial⟩
    | some m =>
      exact ⟨1 + (polls + 0), .generated (.marker m),
        settles_bind settles_poll (settles_bind hdetect (settles_pure _)), hknown m rfl⟩

theorem concluded_of_addition? {status : Status} (hsignal : signal.next = signal)
    (h : addition? parser fs cache signal path = some (key, status)) :
    Concluded fs signal path key ∧ cache.find? key = none ∧ status.TellsContents := by
  have hkey : key? fs path = some key := key_of_addition? h
  obtain ⟨hpath, object, hobject, rfl⟩ := key?_eq_some_iff.mp hkey
  obtain ⟨hname, hlanguage⟩ := settledByName?_eq_none_iff.mp hpath
  simp only [addition?, hkey] at h
  split at h
  · next hfind hlook =>
    cases h
    have hlive : signal = .never := by
      rcases eq_never_or_fired hsignal with rfl | rfl
      · rfl
      · obtain ⟨polls, result, hsettles, -⟩ := exists_settles_classifyContents parser fs path hname
        rw [hsettles.run_fired (show 0 < 1 + polls by omega)] at hlook
        cases hlook
    subst hlive
    obtain ⟨contents, hread⟩ := exists_read_of_classifyContents hlook
    obtain ⟨polls, status', hsettles, htells⟩ := exists_settles_of_read parser hname hread
    rw [hsettles.run_never] at hlook
    cases hlook
    exact ⟨⟨rfl, hname, hlanguage, ⟨contents, hread⟩, object, hobject, rfl⟩, hfind, htells⟩
  · cases h

theorem Concluded.exists_addition? (h : Concluded fs signal path key)
    (hsignal : signal.next = signal) (hfind : cache.find? key = none) :
    ∃ status, addition? parser fs cache signal path = some (key, status) := by
  obtain ⟨object, hobject, rfl⟩ := h.keyed
  obtain ⟨contents, hread⟩ := h.readable
  obtain ⟨polls, status, hsettles, -⟩ := exists_settles_of_read parser h.unnamed hread
  have hkey : key? fs path = some (Key.of path object.modified) :=
    key?_eq_some_iff.mpr
      ⟨settledByName?_eq_none_iff.mpr ⟨h.unnamed, h.supported⟩, object, hobject, rfl⟩
  have hnever : signal = .never := by
    rcases eq_never_or_fired hsignal with rfl | rfl
    · rfl
    · exact absurd h.live (by decide)
  refine ⟨status, ?_⟩
  simp only [addition?, hkey, hfind, hnever, hsettles.run_never]

theorem Concluded.key_eq {key' : Key} (h : Concluded fs signal path key)
    (h' : Concluded fs signal path key') : key = key' := by
  obtain ⟨object, hobject, rfl⟩ := h.keyed
  obtain ⟨object', hobject', rfl⟩ := h'.keyed
  rw [Except.ok.inj (hobject.symm.trans hobject')]

theorem gains_classify (hsignal : signal.next = signal) :
    Gains cache ((classify parser fs path).run (cache, signal)).2.1 (Concluded fs signal path) := by
  rw [state_run_classify hsignal]
  cases hadded : addition? parser fs cache signal path with
  | none =>
    have hstored : ∀ key, Concluded fs signal path key → key ∈ cache.keys := by
      intro key hkey
      rw [mem_keys_iff, Option.isSome_iff_ne_none]
      intro hfind
      obtain ⟨status, hstatus⟩ := hkey.exists_addition? hsignal hfind
      rw [hadded] at hstatus
      cases hstatus
    simp only [Option.toList_none, List.append_nil]
    refine ⟨fun key => ?_, id, fun entry => Or.inl, fun _ => rfl⟩
    exact ⟨Or.inl, fun h => h.elim id (hstored key)⟩
  | some entry =>
    obtain ⟨key, status⟩ := entry
    obtain ⟨hconcluded, hfind, htells⟩ := concluded_of_addition? hsignal hadded
    have hnew : key ∉ cache.keys := by simp [mem_keys_iff, hfind]
    have hkeys : (⟨cache.entries ++ [(key, status)]⟩ : Cache).keys = cache.keys ++ [key] := by
      simp [Cache.keys]
    refine ⟨fun other => ?_, fun hnodup => ?_, ?_, fun hstored => ?_⟩
    · simp only [Option.toList_some, hkeys, List.mem_append, List.mem_singleton]
      refine or_congr_right ⟨?_, fun hother => hother.key_eq hconcluded⟩
      rintro rfl
      exact hconcluded
    · simp only [Option.toList_some, hkeys]
      exact List.nodup_append.mpr ⟨hnodup, List.nodup_singleton key, by
        rintro a ha b hb rfl
        exact hnew (List.mem_singleton.mp hb ▸ ha)⟩
    · intro entry hentry
      rcases List.mem_append.mp hentry with hentry | hentry
      · exact Or.inl hentry
      · obtain rfl : entry = (key, status) := by simpa using hentry
        exact Or.inr htells
    · exact absurd (hstored key hconcluded) hnew

/-- The row, by induction on its files. -/
theorem gains_classifyAll {paths : List Path} (hsignal : signal.next = signal) :
    Gains cache ((classifyAll parser fs paths).run (cache, signal)).2.1
        (fun key => ∃ path ∈ paths, Concluded fs signal path key) ∧
      ((classifyAll parser fs paths).run (cache, signal)).2.2 = signal := by
  induction paths generalizing cache with
  | nil => exact ⟨gains_nothing cache (by simp), rfl⟩
  | cons path paths ih =>
    have hstate : ((classify parser fs path).run (cache, signal)).2 =
        (((classify parser fs path).run (cache, signal)).2.1, signal) := by
      rw [state_run_classify hsignal]
    obtain ⟨hothers, hsteady⟩ :=
      @ih ((classify parser fs path).run (cache, signal)).2.1
    rw [run_classifyAll_cons, hstate]
    refine ⟨((gains_classify hsignal).trans hothers).congr fun key => ?_, hsteady⟩
    simp only [List.mem_cons, exists_eq_or_imp]

end

end Scan

namespace Session

open Cache Scan

section

variable (parser : Parser) (engine : PatternEngine)

/-- The state that a sequence of steps leads to. -/
def stateAfter (s : State) : List Step → State
  | [] => s
  | first :: steps => stateAfter (step parser engine s first).2 steps

/-- In a moment of a session a file is classified, alone or in a scan, and comes to a verdict on its
contents. -/
def ConcludedIn (m : Moment) (key : Key) : Prop :=
  ∃ path ∈ (m.verdicts parser engine).map FileVerdict.path,
    Concluded m.before.fs m.before.signal path key

end

variable {parser : Parser} {engine : PatternEngine}

/-- It is the last one of the run. -/
theorem stateAfter_eq (s : State) (steps : List Step) :
    stateAfter parser engine s steps =
      ((runFrom parser engine s steps).map Prod.snd).getLastD s := by
  induction steps generalizing s with
  | nil => rfl
  | cons first steps ih =>
    rw [stateAfter, ih, runFrom, List.map_cons, List.getLastD_cons]

/-- Which files are classified in a scan depends on the disk only. -/
theorem map_path_verdicts_scan (s : State) (roots : List Path) (patterns : List Text) :
    (Moment.verdicts parser engine ⟨s, .scan roots patterns⟩).map FileVerdict.path =
      match Exclusion.ofPatterns engine patterns with
      | .error _ => []
      | .ok exclusion =>
        match collect s.fs exclusion roots with
        | .error _ => []
        | .ok paths => paths := by
  rw [verdicts_scan, scanWith]
  cases Exclusion.ofPatterns engine patterns with
  | error fault => rfl
  | ok exclusion =>
    simp only [run_scan]
    cases collect s.fs exclusion roots with
    | error fault => rfl
    | ok paths => exact map_path_classifyAll parser s.fs paths (s.cache, s.signal)

section

variable {s : State}

/-- What one step gains, and that a signal stays one that polls do not change. -/
theorem gains_step (first : Step) (hfirst : first ≠ .renewCache)
    (hsignal : s.signal.next = s.signal) :
    Gains s.cache (step parser engine s first).2.cache (ConcludedIn parser engine ⟨s, first⟩) ∧
      (step parser engine s first).2.signal.next = (step parser engine s first).2.signal := by
  have hsilent : Moment.verdicts parser engine ⟨s, first⟩ = [] →
      Gains s.cache s.cache (ConcludedIn parser engine ⟨s, first⟩) := by
    intro hnone
    refine gains_nothing s.cache fun key => ?_
    rintro ⟨path, hpath, -⟩
    rw [hnone] at hpath
    cases hpath
  cases first with
  | change c => exact ⟨hsilent rfl, hsignal⟩
  | cancel => exact ⟨hsilent rfl, rfl⟩
  | renewSignal => exact ⟨hsilent rfl, rfl⟩
  | renewCache => exact absurd rfl hfirst
  | run roots patterns => exact ⟨hsilent rfl, hsignal⟩
  | read path => exact ⟨hsilent rfl, hsignal⟩
  | load path => exact ⟨hsilent rfl, hsignal⟩
  | classify path =>
    constructor
    · refine Gains.congr (gains_classify hsignal) fun key => ?_
      simp [ConcludedIn, verdicts_classify]
    · show ((classify parser s.fs path).run (s.cache, s.signal)).2.2.next =
        ((classify parser s.fs path).run (s.cache, s.signal)).2.2
      rw [state_run_classify hsignal]
      exact hsignal
  | scan roots patterns =>
    have hafter : (step parser engine s (.scan roots patterns)).2 =
        { s with cache := (scanWith parser engine s roots patterns).2.1,
                 signal := (scanWith parser engine s roots patterns).2.2 } := rfl
    rw [hafter]
    rcases scanWith_cases parser engine s roots patterns with
      ⟨fault, hscan⟩ | ⟨paths, report, hscan, hfiles⟩
    · simp only [hscan]
      refine ⟨hsilent ?_, hsignal⟩
      rw [verdicts_scan, hscan]
    · have hpaths : (Moment.verdicts parser engine ⟨s, .scan roots patterns⟩).map FileVerdict.path =
          paths := by
        simp only [verdicts_scan, hscan, hfiles, map_path_classifyAll]
      obtain ⟨hgains, hsteady⟩ := @gains_classifyAll parser s.fs s.cache s.signal paths hsignal
      simp only [hscan]
      refine ⟨hgains.congr fun key => ?_, hsteady.symm ▸ hsignal⟩
      rw [ConcludedIn, hpaths]

/-- What a session gains, by induction on its steps. -/
theorem gains_session {steps : List Step} (hsteps : .renewCache ∉ steps)
    (hsignal : s.signal.next = s.signal) :
    Gains s.cache (stateAfter parser engine s steps).cache
        (fun key => ∃ m ∈ moments parser engine s steps, ConcludedIn parser engine m key) ∧
      (stateAfter parser engine s steps).signal.next = (stateAfter parser engine s steps).signal := by
  induction steps generalizing s with
  | nil => exact ⟨gains_nothing s.cache (by simp [moments]), hsignal⟩
  | cons first steps ih =>
    rw [List.mem_cons, not_or] at hsteps
    obtain ⟨hgains, hsteady⟩ := gains_step first (Ne.symm hsteps.1) hsignal
    obtain ⟨hgains', hsteady'⟩ := ih hsteps.2 hsteady
    refine ⟨(hgains.trans hgains').congr fun key => ?_, hsteady'⟩
    simp only [moments, List.mem_cons, exists_eq_or_imp]

/-- A scan finds everything stored if the same scan has been made of the same disk, unless that one
was cancelled and this one is not. -/
theorem cache_rescan {roots : List Path} {patterns : List Text} {more : List Step}
    (hmore : .renewCache ∉ more) (hsignal : s.signal.next = s.signal)
    (hdisk : (stateAfter parser engine
      (step parser engine s (.scan roots patterns)).2 more).fs = s.fs)
    (hlive : s.signal.hasFired = true → (stateAfter parser engine
      (step parser engine s (.scan roots patterns)).2 more).signal.hasFired = true) :
    (step parser engine
      (stateAfter parser engine (step parser engine s (.scan roots patterns)).2 more)
      (.scan roots patterns)).2.cache =
      (stateAfter parser engine (step parser engine s (.scan roots patterns)).2 more).cache := by
  obtain ⟨hfirst, hsteady⟩ := gains_step (.scan roots patterns) (by simp) hsignal
  obtain ⟨hlater, hsteady'⟩ := gains_session hmore hsteady
  obtain ⟨hagain, -⟩ := gains_step (.scan roots patterns) (by simp) hsteady'
  refine hagain.same fun key hkey => (hlater.mem_keys key).mpr (Or.inl ?_)
  refine (hfirst.mem_keys key).mpr (Or.inr ?_)
  obtain ⟨path, hpath, hconcluded⟩ := hkey
  rw [map_path_verdicts_scan] at hpath
  simp only [hdisk] at hpath hconcluded
  have hlive' : s.signal.hasFired = false := by
    cases hthen : s.signal.hasFired with
    | false => rfl
    | true => exact absurd (hlive hthen) (Bool.eq_false_iff.mp hconcluded.live)
  refine ⟨path, ?_, { hconcluded with live := hlive' }⟩
  rw [map_path_verdicts_scan]
  exact hpath

end

/-- What the cache of a session holds that started without stored verdicts. The keys are those of the
classifications, alone or in a scan, in which the signal had not fired, the name said nothing, the
language was known, and metadata and contents were there; there are as many entries as there are such
keys; and every stored verdict tells about contents. A scan repeated on the same disk leaves the cache
as it is. -/
theorem cache_of_session (parser : Parser) (engine : PatternEngine) (s : State)
    (hcache : s.cache = .empty) (hsignal : s.signal.next = s.signal) (steps : List Step)
    (hsteps : .renewCache ∉ steps) :
    (∀ key, (∃ status, (stateAfter parser engine s steps).cache.find? key = some status) ↔
      ∃ m ∈ moments parser engine s steps, ConcludedIn parser engine m key) ∧
    (stateAfter parser engine s steps).cache.size =
      Set.ncard {key | ∃ m ∈ moments parser engine s steps, ConcludedIn parser engine m key} ∧
    (∀ entry ∈ (stateAfter parser engine s steps).cache.entries, entry.2.TellsContents) ∧
    ∀ roots patterns more later, .renewCache ∉ more →
      stateAfter parser engine
        (step parser engine (stateAfter parser engine s steps) (.scan roots patterns)).2 more =
          later →
      later.fs = (stateAfter parser engine s steps).fs →
      ((stateAfter parser engine s steps).signal.hasFired = true →
        later.signal.hasFired = true) →
      (step parser engine later (.scan roots patterns)).2.cache = later.cache := by
  obtain ⟨hgains, hsteady⟩ := gains_session hsteps hsignal
  rw [hcache] at hgains
  have hkeys : ∀ key, key ∈ (stateAfter parser engine s steps).cache.keys ↔
      ∃ m ∈ moments parser engine s steps, ConcludedIn parser engine m key := by
    intro key
    rw [hgains.mem_keys]
    exact or_iff_right (by simp [Cache.keys, Cache.empty])
  refine ⟨fun key => ?_, ?_, fun entry hentry => ?_, ?_⟩
  · rw [← hkeys, mem_keys_iff, Option.isSome_iff_exists]
  · have hset : {key | ∃ m ∈ moments parser engine s steps, ConcludedIn parser engine m key} =
        ↑(stateAfter parser engine s steps).cache.keys.toFinset := by
      ext key
      simp [hkeys]
    rw [hset, Set.ncard_coe_finset, size_eq_card _ (hgains.nodup_keys List.nodup_nil)]
  · exact (hgains.tells entry hentry).resolve_left (by simp [Cache.empty])
  · rintro roots patterns more later hmore rfl hdisk hlive
    exact cache_rescan hmore hsteady hdisk hlive

/-- A file is classified under two spellings, the first time while the signal has fired. -/
def spelledTwice : List Step :=
  [.change firstDisk.view, .cancel, .classify (.ofText "d/A.cs".toList), .renewSignal,
    .classify (.ofText "d//A.cs".toList)]

/-- Where that leads to from an empty disk. -/
def afterSpelledTwice : State :=
  stateAfter Header.parser Glob.engine (.start Disk.empty.view) spelledTwice

/-- The same, and then a scan and a signal that fires. -/
def afterCancelledScan : State :=
  stateAfter Header.parser Glob.engine
    (step Header.parser Glob.engine afterSpelledTwice (.scan [.ofText "d".toList] [])).2 [.cancel]

theorem cache_spelledTwice :
    (∃ status, afterSpelledTwice.cache.find?
      (Key.of (.ofText "d/A.cs".toList) ⟨1⟩) = some status) ∧
    afterSpelledTwice.cache.size =
      Set.ncard {key | ∃ m ∈ moments Header.parser Glob.engine (.start Disk.empty.view)
        spelledTwice, ConcludedIn Header.parser Glob.engine m key} ∧
    (∀ entry ∈ afterSpelledTwice.cache.entries, entry.2.TellsContents) ∧
    (step Header.parser Glob.engine afterCancelledScan (.scan [.ofText "d".toList] [])).2.cache =
      afterCancelledScan.cache := by
  have hobject : firstDisk.view.object (.ofText "d//A.cs".toList) =
      .ok (.file ⟨1⟩ (.ok (bytesAt ⟨1⟩))) := by
    rw [FileSystem.object, view_firstDisk]
    rfl
  have hread : Contents.read firstDisk.view (.ofText "d//A.cs".toList) =
      .ok (Contents.ofBytes (bytesAt ⟨1⟩)) := by
    rw [Contents.read, FileSystem.bytes, hobject]
    rfl
  obtain ⟨hkeys, hsize, htells, hrescan⟩ :=
    cache_of_session Header.parser Glob.engine (.start Disk.empty.view) rfl rfl spelledTwice
      (by simp [spelledTwice])
  refine ⟨(hkeys _).mpr ?_, hsize, htells, ?_⟩
  · refine ⟨_, by
      simp only [spelledTwice, moments, List.mem_cons]
      exact Or.inr (Or.inr (Or.inr (Or.inr (Or.inl rfl)))), .ofText "d//A.cs".toList, ?_, ?_⟩
    · rw [verdicts_classify]
      exact List.mem_singleton_self _
    · exact ⟨rfl, by decide, ⟨.cSharp, by decide⟩, ⟨_, hread⟩, _, hobject, by decide⟩
  · exact hrescan [.ofText "d".toList] [] [.cancel] _ (by simp) rfl rfl fun _ => rfl

end Session

end Provenance
