import Mathlib.Data.List.Nodup
import Provenance.Glob.Engine
import Provenance.Proofs.Scan.Interrupted

/-!
The order in which the files of a scan are classified is of no consequence, although they share one
cache. A classification asks the cache for one key and stores under no other, and the key has the steps
of the path; so where all paths differ in their steps, each file meets the cache as it was before the
first one. A row of classifications is then a `map` over the paths, and what it stores a `filterMap`.
-/
namespace Provenance

theorem Path.same_comm (p q : Path) : p.same q = q.same p := by
  rw [Bool.eq_iff_iff, same_iff, same_iff]
  exact eq_comm

namespace Cache

/-- Where keys differ, a question finds the one entry with the key. -/
theorem find?_key_eq_some_iff {entries : List (Key × Status)} {key : Key} {entry : Key × Status}
    (hkeys : (entries.map Prod.fst).Nodup) :
    entries.find? (fun other => other.1 == key) = some entry ↔ entry ∈ entries ∧ entry.1 = key := by
  constructor
  · intro hfound
    exact ⟨List.mem_of_find?_eq_some hfound, by simpa using List.find?_some hfound⟩
  · rintro ⟨hentry, rfl⟩
    have hsome : (entries.find? fun other => other.1 == entry.1).isSome = true :=
      List.find?_isSome.mpr ⟨entry, hentry, beq_self_eq_true _⟩
    obtain ⟨other, hother⟩ := Option.isSome_iff_exists.mp hsome
    have hkey : other.1 = entry.1 := by simpa using List.find?_some hother
    rw [hother, List.inj_on_of_nodup_map hkeys (List.mem_of_find?_eq_some hother) hentry hkey]

theorem find?_append_of_perm {older added added' : List (Key × Status)} (hperm : added.Perm added')
    (hkeys : (added.map Prod.fst).Nodup) (key : Key) :
    find? ⟨older ++ added⟩ key = find? ⟨older ++ added'⟩ key := by
  have hkeys' : (added'.map Prod.fst).Nodup := (hperm.map Prod.fst).nodup_iff.mp hkeys
  have hfind : added.find? (fun entry => entry.1 == key) =
      added'.find? fun entry => entry.1 == key := by
    refine Option.ext fun entry => ?_
    rw [find?_key_eq_some_iff hkeys, find?_key_eq_some_iff hkeys', hperm.mem_iff]
  simp only [find?, List.find?_append, hfind]

end Cache

namespace Scan

open Cache Signal

/-- The key that the cache is asked for; there is none if the path settles the status or the file has
no metadata. -/
def key? (fs : FileSystem) (path : Path) : Option Key :=
  match settledByName? path, fs.object path with
  | none, .ok object => some (Key.of path object.modified)
  | _, _ => none

/-- Whether the contents are looked at: the cache is asked for a key, and nothing is stored there. -/
def looksInto (fs : FileSystem) (cache : Cache) (path : Path) : Bool :=
  match key? fs path with
  | some key => (cache.find? key).isNone
  | none => false

/-- The entry that the classification of a file adds to the cache, if it adds one. -/
def addition? (parser : Parser) (fs : FileSystem) (cache : Cache) (signal : Signal)
    (path : Path) : Option (Key × Status) :=
  match key? fs path with
  | some key =>
    match cache.find? key, ((classifyContents parser fs path).run signal).1 with
    | none, .ok status => some (key, status)
    | _, _ => none
  | none => none

/-- A classification with any way of finding the verdict on the contents, beside any state. -/
def classifyWith {σ : Type} (fs : FileSystem) (look : Path → Caching σ Status) (path : Path) :
    StateM (Cache × σ) Status :=
  match settledByName? path with
  | some status => pure status
  | none => Status.ofResult <$> ExceptT.run (do
      match fs.object path with
      | .error fault => throw fault
      | .ok object => getOrCompute (Key.of path object.modified) (look path))

theorem classify_eq_classifyWith (parser : Parser) (fs : FileSystem) (path : Path) :
    classify parser fs path =
      classifyWith fs (fun p => besideCache (classifyContents parser fs p)) path := rfl

/-- The look at the contents of a file, which is noted. -/
def lookNoting (parser : Parser) (fs : FileSystem) (path : Path) :
    Caching (Signal × List Path) Status := do
  let (cache, signal, looked) ← get
  let (result, signal) := (classifyContents parser fs path).run signal
  set (cache, signal, looked ++ [path])
  match result with
  | .ok status => pure status
  | .error fault => throw fault

/-- The verdicts on files, classified one after the other, with a note of each look at contents. -/
def classifyAllNoting (parser : Parser) (fs : FileSystem) :
    List Path → StateM (Cache × Signal × List Path) (List FileVerdict)
  | [] => pure []
  | path :: paths => do
    let status ← classifyWith fs (lookNoting parser fs) path
    let others ← classifyAllNoting parser fs paths
    pure (⟨path, status⟩ :: others)

section

variable {parser : Parser} {fs : FileSystem} {path other : Path} {cache : Cache} {signal : Signal}
  {key : Key}

theorem key?_eq_some_iff : key? fs path = some key ↔
    settledByName? path = none ∧ ∃ object, fs.object path = .ok object ∧
      key = Key.of path object.modified := by
  unfold key?
  cases settledByName? path with
  | some status => simp
  | none => cases fs.object path <;> simp [eq_comm]

theorem path_of_key? (h : key? fs path = some key) : key.path = path.components := by
  obtain ⟨-, object, -, rfl⟩ := key?_eq_some_iff.mp h
  rfl

theorem key_of_addition? {entry : Key × Status}
    (h : addition? parser fs cache signal path = some entry) :
    key? fs path = some entry.1 := by
  unfold addition? at h
  cases hkey : key? fs path with
  | none =>
    rw [hkey] at h
    cases h
  | some key =>
    rw [hkey] at h
    simp only at h
    split at h
    · cases h
      rfl
    · cases h

theorem looksInto_empty_iff : looksInto fs .empty path = true ↔
    NameRule.fires path.display = false ∧
      (∃ language, Language.ofPath? path = some language) ∧
      ∃ object, fs.object path = .ok object := by
  have hkey : looksInto fs .empty path = true ↔ ∃ key, key? fs path = some key := by
    unfold looksInto
    cases key? fs path with
    | none => simp
    | some key => simp [Cache.find?, Cache.empty]
  simp only [hkey, key?_eq_some_iff, settledByName?_eq_none_iff, and_assoc]
  constructor
  · rintro ⟨key, hname, hlanguage, object, hobject, -⟩
    exact ⟨hname, hlanguage, object, hobject⟩
  · rintro ⟨hname, hlanguage, object, hobject⟩
    exact ⟨_, hname, hlanguage, object, hobject, rfl⟩

/-- Without a key, neither the cache nor the further state is of any concern. -/
theorem run_classifyWith_of_unkeyed (h : key? fs path = none) :
    ∃ status, ∀ (σ : Type) (look : Path → Caching σ Status) (state : Cache × σ),
      (classifyWith fs look path).run state = (status, state) := by
  unfold key? at h
  cases hpath : settledByName? path with
  | some status =>
    refine ⟨status, fun σ look state => ?_⟩
    rw [classifyWith, hpath]
    rfl
  | none =>
    cases hobject : fs.object path with
    | error fault =>
      refine ⟨Status.ofResult (.error fault), fun σ look state => ?_⟩
      simp only [classifyWith, hpath, hobject]
      rfl
    | ok object =>
      rw [hpath, hobject] at h
      cases h

theorem run_classifyWith_of_key {σ : Type} (h : key? fs path = some key)
    (look : Path → Caching σ Status) (cache : Cache) (rest : σ) :
    (classifyWith fs look path).run (cache, rest) =
      match cache.find? key with
      | some hit => (hit, cache, rest)
      | none =>
        match (look path).run (cache, rest) with
        | (.error fault, state) => (Status.ofResult (.error fault), state)
        | (.ok status, cache, rest) =>
          ((cache.insertNew key status).1, (cache.insertNew key status).2, rest) := by
  obtain ⟨hpath, object, hobject, rfl⟩ := key?_eq_some_iff.mp h
  have hrun : (classifyWith fs look path).run (cache, rest) =
      (fun r => (Status.ofResult r.1, r.2))
        ((getOrCompute (Key.of path object.modified) (look path)).run (cache, rest)) := by
    simp only [classifyWith, hpath, hobject]
    rfl
  rw [hrun, run_getOrCompute]
  cases cache.find? (Key.of path object.modified) with
  | some hit => rfl
  | none =>
    cases (look path).run (cache, rest) with
    | mk result state => cases result <;> rfl

theorem run_lookNoting (fs : FileSystem) (path : Path) (cache : Cache) (signal : Signal)
    (looked : List Path) :
    (lookNoting parser fs path).run (cache, signal, looked) =
      (((classifyContents parser fs path).run signal).1, cache,
        ((classifyContents parser fs path).run signal).2, looked ++ [path]) := by
  have hget : (get : Caching (Signal × List Path) (Cache × Signal × List Path)).run
      (cache, signal, looked) = (.ok (cache, signal, looked), cache, signal, looked) := rfl
  rw [lookNoting, run_bind, hget]
  simp only []
  cases (classifyContents parser fs path).run signal with
  | mk result rest => cases result <;> rfl

/-- Notes change nothing else, and there is one exactly if the contents are looked at. -/
theorem run_classifyWith_lookNoting (fs : FileSystem) (path : Path) (cache : Cache)
    (signal : Signal) (looked : List Path) :
    (classifyWith fs (lookNoting parser fs) path).run (cache, signal, looked) =
      (((classify parser fs path).run (cache, signal)).1,
        ((classify parser fs path).run (cache, signal)).2.1,
        ((classify parser fs path).run (cache, signal)).2.2,
        looked ++ if looksInto fs cache path then [path] else []) := by
  unfold looksInto
  rw [classify_eq_classifyWith]
  cases hkey : key? fs path with
  | none =>
    obtain ⟨status, hrun⟩ := run_classifyWith_of_unkeyed hkey
    simp [hrun]
  | some key =>
    rw [run_classifyWith_of_key hkey, run_classifyWith_of_key hkey, run_besideCache,
      run_lookNoting]
    cases hfind : cache.find? key with
    | some hit => simp [hfind]
    | none =>
      cases (classifyContents parser fs path).run signal with
      | mk result rest => cases result <;> simp [hfind]

theorem eq_never_or_fired (h : signal.next = signal) : signal = .never ∨ signal = .fired := by
  obtain ⟨remaining⟩ := signal
  cases remaining with
  | none => exact Or.inl rfl
  | some n =>
    cases n with
    | zero => exact Or.inr rfl
    | succ n => simp [Signal.next] at h

theorem signal_run_classifyContents (hsignal : signal.next = signal)
    (hpath : settledByName? path = none) :
    ((classifyContents parser fs path).run signal).2 = signal := by
  obtain ⟨polls, result, hsettles, -⟩ :=
    exists_settles_classifyContents parser fs path (settledByName?_eq_none_iff.mp hpath).1
  rcases eq_never_or_fired hsignal with rfl | rfl
  · rw [hsettles.run_never]
  · rw [hsettles.run_fired (show 0 < 1 + polls by omega)]

/-- With a signal that polls do not change, a classification adds at most one entry at the end. -/
theorem state_run_classify (hsignal : signal.next = signal) :
    ((classify parser fs path).run (cache, signal)).2 =
      (⟨cache.entries ++ (addition? parser fs cache signal path).toList⟩, signal) := by
  unfold addition?
  rw [classify_eq_classifyWith]
  cases hkey : key? fs path with
  | none =>
    obtain ⟨status, hrun⟩ := run_classifyWith_of_unkeyed hkey
    simp [hrun]
  | some key =>
    rw [run_classifyWith_of_key hkey, run_besideCache]
    cases hfind : cache.find? key with
    | some hit => simp [hfind]
    | none =>
      have hsteady : ((classifyContents parser fs path).run signal).2 = signal :=
        signal_run_classifyContents hsignal (key?_eq_some_iff.mp hkey).1
      cases hrun : (classifyContents parser fs path).run signal with
      | mk result rest =>
        obtain rfl : rest = signal := by simpa only [hrun] using hsteady
        cases result with
        | error fault => simp [hfind]
        | ok status => simp [Cache.insertNew, hfind]

/-- No entry is added that another path could meet. -/
theorem find?_run_classify_of_same (hsignal : signal.next = signal)
    (hne : path.same other = false) (hkey : key? fs other = some key) :
    ((classify parser fs path).run (cache, signal)).2.1.find? key = cache.find? key := by
  rw [state_run_classify hsignal]
  cases hadded : addition? parser fs cache signal path with
  | none => simp
  | some entry =>
    have hentry : (entry.1 == key) = false := by
      rw [beq_eq_false_iff_ne]
      intro heq
      have hsame : path.same other = true := by
        rw [Path.same_iff, ← path_of_key? (key_of_addition? hadded), heq, path_of_key? hkey]
      rw [hne] at hsame
      cases hsame
    simp [Cache.find?, List.find?_append, hentry]

end

section

variable {parser : Parser} {fs : FileSystem} {path : Path} {cache cache' : Cache} {signal : Signal}
  {paths : List Path}

/-- A classification depends on the cache only through what is stored under the key of the file. -/
theorem looksInto_congr
    (hcache : ∀ key, key? fs path = some key → cache.find? key = cache'.find? key) :
    looksInto fs cache path = looksInto fs cache' path := by
  unfold looksInto
  cases hkey : key? fs path with
  | none => rfl
  | some key => simp only [hcache key hkey]

theorem addition?_congr
    (hcache : ∀ key, key? fs path = some key → cache.find? key = cache'.find? key) :
    addition? parser fs cache signal path = addition? parser fs cache' signal path := by
  unfold addition?
  cases hkey : key? fs path with
  | none => rfl
  | some key => simp only [hcache key hkey]

theorem status_run_classify_congr
    (hcache : ∀ key, key? fs path = some key → cache.find? key = cache'.find? key) :
    ((classify parser fs path).run (cache, signal)).1 =
      ((classify parser fs path).run (cache', signal)).1 := by
  rw [classify_eq_classifyWith]
  cases hkey : key? fs path with
  | none =>
    obtain ⟨status, hrun⟩ := run_classifyWith_of_unkeyed hkey
    simp only [hrun]
  | some key =>
    have hfind := hcache key hkey
    rw [run_classifyWith_of_key hkey, run_classifyWith_of_key hkey, run_besideCache,
      run_besideCache, hfind]
    cases hfound : cache'.find? key with
    | some hit => rfl
    | none =>
      rw [hfound] at hfind
      cases (classifyContents parser fs path).run signal with
      | mk result rest => cases result <;> simp [Cache.insertNew, hfind, hfound]

/-- The row as a whole: every file is classified as if it came first. -/
theorem run_classifyAll_steady (hsignal : signal.next = signal)
    (hdistinct : paths.Pairwise fun a b => a.same b = false) :
    (classifyAll parser fs paths).run (cache, signal) =
      (paths.map fun path => ⟨path, ((classify parser fs path).run (cache, signal)).1⟩,
        ⟨cache.entries ++ paths.filterMap (addition? parser fs cache signal)⟩, signal) := by
  induction paths generalizing cache with
  | nil =>
    simp only [List.filterMap_nil, List.append_nil, List.map_nil]
    rfl
  | cons path paths ih =>
    obtain ⟨hpath, hothers⟩ := List.pairwise_cons.mp hdistinct
    have hstate : ((classify parser fs path).run (cache, signal)).2 =
        (⟨cache.entries ++ (addition? parser fs cache signal path).toList⟩, signal) :=
      state_run_classify hsignal
    have hcache : ∀ other ∈ paths, ∀ key, key? fs other = some key →
        ((classify parser fs path).run (cache, signal)).2.1.find? key = cache.find? key :=
      fun other hother key hkey => find?_run_classify_of_same hsignal (hpath other hother) hkey
    rw [run_classifyAll_cons, hstate, ih hothers]
    rw [hstate] at hcache
    refine Prod.ext ?_ (Prod.ext ?_ rfl)
    · simp only [List.map_cons, List.cons.injEq, true_and]
      refine List.map_congr_left fun other hother => ?_
      rw [status_run_classify_congr (hcache other hother)]
    · have hadded : paths.filterMap (addition? parser fs
          ⟨cache.entries ++ (addition? parser fs cache signal path).toList⟩ signal) =
          paths.filterMap (addition? parser fs cache signal) :=
        List.filterMap_congr fun other hother => addition?_congr (hcache other hother)
      simp only [hadded]
      cases hfirst : addition? parser fs cache signal path <;> simp [hfirst]

/-- What is noted in a row: the paths whose contents are looked at. -/
theorem run_classifyAllNoting (hsignal : signal.next = signal)
    (hdistinct : paths.Pairwise fun a b => a.same b = false) (looked : List Path) :
    (classifyAllNoting parser fs paths).run (cache, signal, looked) =
      (((classifyAll parser fs paths).run (cache, signal)).1,
        ((classifyAll parser fs paths).run (cache, signal)).2.1,
        ((classifyAll parser fs paths).run (cache, signal)).2.2,
        looked ++ paths.filter (looksInto fs cache)) := by
  induction paths generalizing cache looked with
  | nil =>
    simp only [List.filter_nil, List.append_nil]
    rfl
  | cons path paths ih =>
    obtain ⟨hpath, hothers⟩ := List.pairwise_cons.mp hdistinct
    have hcache : ∀ other ∈ paths, looksInto fs
        ((classify parser fs path).run (cache, signal)).2.1 other = looksInto fs cache other :=
      fun other hother => looksInto_congr fun key hkey =>
        find?_run_classify_of_same hsignal (hpath other hother) hkey
    have hsteady : ((classify parser fs path).run (cache, signal)).2.2 = signal := by
      rw [state_run_classify hsignal]
    have hrun : (classifyAllNoting parser fs (path :: paths)).run (cache, signal, looked) =
        (fun first => (fun others => (⟨path, first.1⟩ :: others.1, others.2))
          ((classifyAllNoting parser fs paths).run first.2))
        ((classifyWith fs (lookNoting parser fs) path).run (cache, signal, looked)) := rfl
    rw [hrun, run_classifyWith_lookNoting, run_classifyAll_cons]
    simp only [hsteady, ih hothers, List.filter_congr hcache, List.append_assoc]
    have hstate : ((classify parser fs path).run (cache, signal)).2 =
        (((classify parser fs path).run (cache, signal)).2.1, signal) := Prod.ext rfl hsteady
    rw [hstate]
    cases hlooks : looksInto fs cache path <;> simp [hlooks]

/-- No two entries are added under one key. -/
theorem nodup_keys_additions (cache : Cache) (signal : Signal)
    (hdistinct : paths.Pairwise fun a b => a.same b = false) :
    ((paths.filterMap (addition? parser fs cache signal)).map Prod.fst).Nodup := by
  rw [List.Nodup, List.pairwise_map, List.pairwise_filterMap]
  refine hdistinct.imp fun {path other} hne entry hentry entry' hentry' heq => ?_
  have hsame : path.same other = true := by
    rw [Path.same_iff, ← path_of_key? (key_of_addition? hentry), heq,
      path_of_key? (key_of_addition? hentry')]
  rw [hne] at hsame
  cases hsame

end

theorem tally_of_perm {files files' : List FileVerdict} (h : files.Perm files') :
    Summary.tally files = Summary.tally files' := by
  unfold Summary.tally
  rw [h.length_eq]
  refine h.foldl_eq' ?_ _
  intro first _ second _ summary
  cases first.status <;> cases second.status <;> rfl

/-- What the files, classified one after the other in some order, have in common with a scan that
gives this report and leaves this cache. -/
structure AgreesWith (parser : Parser) (fs : FileSystem) (cache : Cache) (signal : Signal)
    (order : List Path) (report : Report) (cache' : Cache) : Prop where
  files : ((classifyAll parser fs order).run (cache, signal)).1.Perm report.files
  /-- Each file has the status that it gets if it is the only one. -/
  alone : ∀ file ∈ ((classifyAll parser fs order).run (cache, signal)).1,
    file.status = ((classify parser fs file.path).run (cache, signal)).1
  summary : Summary.tally ((classifyAll parser fs order).run (cache, signal)).1 = report.summary
  entries : ((classifyAll parser fs order).run (cache, signal)).2.1.entries.Perm cache'.entries
  stored : ∀ key, ((classifyAll parser fs order).run (cache, signal)).2.1.find? key = cache'.find? key
  steady : ((classifyAll parser fs order).run (cache, signal)).2.2 = signal
  /-- Nothing that the files before it have stored can be hit by a file. -/
  unmet : ∀ before path after, order = before ++ path :: after → ∀ time,
    ((classifyAll parser fs before).run (cache, signal)).2.1.find? (Key.of path time) =
      cache.find? (Key.of path time)

section

variable {parser : Parser} {fs : FileSystem} {signal : Signal} {paths order : List Path}

theorem agreesWith_of_perm (roots : List Path) (cache : Cache) (hsignal : signal.next = signal)
    (hdistinct : paths.Pairwise fun a b => a.same b = false) (hperm : order.Perm paths) :
    AgreesWith parser fs cache signal order
      ⟨roots, Summary.tally ((classifyAll parser fs paths).run (cache, signal)).1,
        ((classifyAll parser fs paths).run (cache, signal)).1⟩
      ((classifyAll parser fs paths).run (cache, signal)).2.1 := by
  have hdistinct' : order.Pairwise fun a b => a.same b = false :=
    (hperm.pairwise_iff fun {a b} h => (Path.same_comm b a).trans h).mpr hdistinct
  have hfiles : ((classifyAll parser fs order).run (cache, signal)).1.Perm
      ((classifyAll parser fs paths).run (cache, signal)).1 := by
    rw [run_classifyAll_steady hsignal hdistinct', run_classifyAll_steady hsignal hdistinct]
    exact hperm.map _
  constructor
  · exact hfiles
  · intro file hfile
    rw [run_classifyAll_steady hsignal hdistinct'] at hfile
    obtain ⟨path, -, rfl⟩ := List.mem_map.mp hfile
    rfl
  · exact tally_of_perm hfiles
  · rw [run_classifyAll_steady hsignal hdistinct', run_classifyAll_steady hsignal hdistinct]
    exact (hperm.filterMap _).append_left _
  · intro key
    rw [run_classifyAll_steady hsignal hdistinct', run_classifyAll_steady hsignal hdistinct]
    exact find?_append_of_perm (hperm.filterMap _) (nodup_keys_additions cache signal hdistinct') key
  · rw [run_classifyAll_steady hsignal hdistinct']
  · intro before path after hsplit time
    rw [hsplit, List.pairwise_append] at hdistinct'
    obtain ⟨hbefore, -, hacross⟩ := hdistinct'
    rw [run_classifyAll_steady hsignal hbefore, Cache.find?, List.find?_append]
    have hnone : (before.filterMap (addition? parser fs cache signal)).find?
        (fun entry => entry.1 == Key.of path time) = none := by
      rw [List.find?_eq_none]
      intro entry hentry heq
      obtain ⟨earlier, hearlier, hadded⟩ := List.mem_filterMap.mp hentry
      have hsame : earlier.same path = true := by
        rw [Path.same_iff, ← path_of_key? (key_of_addition? hadded), beq_iff_eq.mp heq]
        rfl
      rw [hacross earlier hearlier path List.mem_cons_self] at hsame
      cases hsame
    rw [hnone, Option.or_none, Cache.find?]

/-- A scan does not depend on the order in which its files are classified. With a signal that polls do
not change, every order of the files gives them the same statuses, counts the same and stores the same
entries, and no file meets an entry of another one. With an empty cache, as in a scan that has a cache
of its own, the contents are looked at once for each file whose status the path does not settle and
whose metadata are there, and not for any other. -/
theorem scan_any_order (parser : Parser) (fs : FileSystem) (roots : List Path)
    (exclusion : Exclusion) (cache : Cache) (signal : Signal) (hsignal : signal.next = signal) :
    match collect fs exclusion roots with
    | .error fault =>
      (scan parser fs roots exclusion).run (cache, signal) = (.error fault, cache, signal)
    | .ok paths => ∃ report cache',
      (scan parser fs roots exclusion).run (cache, signal) = (.ok report, cache', signal) ∧
      report.files.map FileVerdict.path = paths ∧
      ∀ order, order.Perm paths → AgreesWith parser fs cache signal order report cache' ∧
        (cache = .empty →
          (∀ engine patterns, Exclusion.ofPatterns engine patterns = .ok exclusion →
            run parser engine fs roots patterns signal = .ok report) ∧
          ∃ looked, (classifyAllNoting parser fs order).run (.empty, signal, []) =
              (((classifyAll parser fs order).run (.empty, signal)).1,
                ((classifyAll parser fs order).run (.empty, signal)).2.1,
                ((classifyAll parser fs order).run (.empty, signal)).2.2, looked) ∧
            looked.Nodup ∧
            ∀ path, path ∈ looked ↔ path ∈ paths ∧ NameRule.fires path.display = false ∧
              (∃ language, Language.ofPath? path = some language) ∧
              ∃ object, fs.object path = .ok object) := by
  cases hcollect : collect fs exclusion roots with
  | error fault =>
    show (scan parser fs roots exclusion).run (cache, signal) = (.error fault, cache, signal)
    rw [run_scan, hcollect]
  | ok paths =>
    have hdistinct := pairwise_same_of_collect hcollect
    have hscan : (scan parser fs roots exclusion).run (cache, signal) =
        (.ok ⟨roots, Summary.tally ((classifyAll parser fs paths).run (cache, signal)).1,
          ((classifyAll parser fs paths).run (cache, signal)).1⟩,
          ((classifyAll parser fs paths).run (cache, signal)).2.1, signal) := by
      rw [run_scan, hcollect]
      simp only [run_classifyAll_steady hsignal hdistinct]
    refine ⟨_, _, hscan, map_path_classifyAll parser fs paths (cache, signal), ?_⟩
    intro order hperm
    refine ⟨agreesWith_of_perm roots cache hsignal hdistinct hperm, ?_⟩
    rintro rfl
    constructor
    · intro engine patterns hpatterns
      have hrun : run parser engine fs roots patterns signal =
          ((scan parser fs roots exclusion).run (Cache.empty, signal)).1 := by
        rw [run, hpatterns]
        rfl
      rw [hrun, hscan]
    · have hdistinct' : order.Pairwise fun a b => a.same b = false :=
        (hperm.pairwise_iff fun {a b} h => (Path.same_comm b a).trans h).mpr hdistinct
      refine ⟨order.filter (looksInto fs .empty), run_classifyAllNoting hsignal hdistinct' [], ?_, ?_⟩
      · refine List.Nodup.filter _ (hdistinct'.imp ?_)
        rintro path other hne rfl
        rw [Path.same_iff.mpr rfl] at hne
        cases hne
      · intro path
        rw [List.mem_filter, hperm.mem_iff, looksInto_empty_iff]

end

/-- Two files classified in the opposite order, from an empty cache: each of them is looked into
once. -/
theorem opposite_order_binaryAmongTexts :
    Signal.never.next = Signal.never ∧ ∃ report cache',
      (scan Header.parser binaryAmongTexts [.ofText "A.cs".toList, .ofText "B.cs".toList] .none).run
          (.empty, .never) = (.ok report, cache', .never) ∧
      AgreesWith Header.parser binaryAmongTexts .empty .never
        [.ofText "B.cs".toList, .ofText "A.cs".toList]
        report cache' ∧
      run Header.parser Glob.engine binaryAmongTexts
        [.ofText "A.cs".toList, .ofText "B.cs".toList] [] .never = .ok report ∧
      ∃ looked, ((classifyAllNoting Header.parser binaryAmongTexts
          [.ofText "B.cs".toList, .ofText "A.cs".toList]).run (.empty, .never, [])).2.2.2 = looked ∧
        looked.Nodup ∧ .ofText "A.cs".toList ∈ looked ∧ .ofText "B.cs".toList ∈ looked := by
  have hcollect : collect binaryAmongTexts .none [.ofText "A.cs".toList, .ofText "B.cs".toList] =
      .ok [.ofText "A.cs".toList, .ofText "B.cs".toList] := rfl
  have hscan := scan_any_order Header.parser binaryAmongTexts
    [.ofText "A.cs".toList, .ofText "B.cs".toList] .none .empty .never rfl
  rw [hcollect] at hscan
  obtain ⟨report, cache', hrun, -, horder⟩ := hscan
  obtain ⟨hagrees, hempty⟩ := horder [.ofText "B.cs".toList, .ofText "A.cs".toList]
    (List.Perm.swap _ _ _)
  obtain ⟨hown, looked, hnoting, hnodup, hlooked⟩ := hempty rfl
  refine ⟨rfl, report, cache', hrun, hagrees, hown Glob.engine [] rfl, looked, ?_, hnodup, ?_, ?_⟩
  · rw [hnoting]
  · exact (hlooked _).mpr ⟨by simp, by decide, ⟨.cSharp, by decide⟩, _, rfl⟩
  · exact (hlooked _).mpr ⟨by simp, by decide, ⟨.cSharp, by decide⟩, _, rfl⟩

end Scan

end Provenance
