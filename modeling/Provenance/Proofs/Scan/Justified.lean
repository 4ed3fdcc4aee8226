import Provenance.Proofs.Scan.Classification
import Provenance.Scan.Report

/-!
Why a stored verdict can be used again. A key says when a file was modified and which steps lead to
it, but a verdict depends on the spelling of the path, on the contents and on the signal. It is stored
only where the name says nothing and the look at the contents has come to its end, and then the steps
tell the language. So a stored verdict is right wherever the same path leads to the same contents, and
this is kept by every classification, also by one that is cancelled or fails.
-/
namespace Provenance.Scan

open Cache

/-- Wherever a path is seen twice, in two spellings or at two moments, with the same time of
modification, its contents are the same, or cannot be had either time. -/
def Stable (seen : FileSystem → Path → Prop) : Prop :=
  ∀ fs path object fs' path' object', seen fs path → seen fs' path' → path.same path' = true →
    fs.object path = .ok object → fs'.object path' = .ok object' →
    object.modified = object'.modified →
    (Contents.read fs path).toOption = (Contents.read fs' path').toOption

/-- Every stored verdict is what a look at the contents of some file that has been seen gives. -/
def Justified (parser : Parser) (seen : FileSystem → Path → Prop) (cache : Cache) : Prop :=
  ∀ key status, cache.find? key = some status → ∃ fs path object, seen fs path ∧
    settledByName? path = none ∧ fs.object path = .ok object ∧
    key = Key.of path object.modified ∧
    ((classifyContents parser fs path).run .never).1 = .ok status

/-- The verdict on a file is the one that it gets without a cache. A signal that has fired may leave it
unknown instead, and does so exactly where there is a file to look into and nothing is stored
about it. -/
structure Faithful (parser : Parser) (fs : FileSystem) (cache : Cache) (signal : Signal)
    (verdict : FileVerdict) : Prop where
  fresh : signal.hasFired = false → verdict.status = freshStatus parser fs verdict.path
  fresh_or_unknown : signal.hasFired = true →
    verdict.status = freshStatus parser fs verdict.path ∨ verdict.status = .unknown
  unknown_iff : signal.hasFired = true → (verdict.status = .unknown ↔
    NameRule.fires verdict.path.display = false ∧
      (∃ language, Language.ofPath? verdict.path = some language) ∧
      ∃ object, fs.object verdict.path = .ok object ∧
        cache.find? (Key.of verdict.path object.modified) = none)

theorem extension?_of_components {p q : Path} (h : p.components = q.components) :
    p.extension? = q.extension? := by
  rw [Path.extension?, Path.extension?, Path.fileName?, Path.fileName?, h]

theorem ofPath?_of_components {p q : Path} (h : p.components = q.components) :
    Language.ofPath? p = Language.ofPath? q := by
  rw [Language.ofPath?, Language.ofPath?, extension?_of_components h]

variable {parser : Parser} {seen : FileSystem → Path → Prop} {fs : FileSystem} {path : Path}
  {cache : Cache} {signal : Signal}

theorem justified_empty (parser : Parser) (seen : FileSystem → Path → Prop) :
    Justified parser seen Cache.empty := by
  intro key status h
  cases h

theorem stable_of_contents (content : Instant → Bytes)
    (h : ∀ fs path, seen fs path → ∃ t, fs path = .ok (.file t (.ok (content t)))) :
    Stable seen := by
  intro fs path object fs' path' object' hseen hseen' _ hobject hobject' hmodified
  obtain ⟨t, hfile⟩ := h fs path hseen
  obtain ⟨t', hfile'⟩ := h fs' path' hseen'
  have hread : Contents.read fs path = .ok (Contents.ofBytes (content t)) := by
    simp only [Contents.read, FileSystem.bytes, FileSystem.object, hfile]
    rfl
  have hread' : Contents.read fs' path' = .ok (Contents.ofBytes (content t')) := by
    simp only [Contents.read, FileSystem.bytes, FileSystem.object, hfile']
    rfl
  have ht : object = .file t (.ok (content t)) := by
    rw [FileSystem.object, hfile] at hobject
    exact (Except.ok.inj hobject).symm
  have ht' : object' = .file t' (.ok (content t')) := by
    rw [FileSystem.object, hfile'] at hobject'
    exact (Except.ok.inj hobject').symm
  rw [ht, ht'] at hmodified
  have hsame : t = t' := hmodified
  rw [hread, hread', hsame]

theorem exists_read_of_classifyContents {status : Status}
    (h : ((classifyContents parser fs path).run .never).1 = .ok status) :
    ∃ contents, Contents.read fs path = .ok contents := by
  rw [classifyContents, run_bind, settles_poll.run_never] at h
  cases hread : Contents.read fs path with
  | error fault =>
    rw [hread] at h
    cases h
  | ok contents => exact ⟨contents, rfl⟩

/-- What a look at the contents gave once, it gives wherever the file is seen with the same key. -/
theorem Stable.classifyContents_eq {path' : Path} {object object' : Object} {status : Status}
    (hstable : Stable seen) (hseen : seen fs path) (hseen' : seen fs' path')
    (hpath : settledByName? path = none) (hpath' : settledByName? path' = none)
    (hobject : fs.object path = .ok object) (hobject' : fs'.object path' = .ok object')
    (hkey : Key.of path object.modified = Key.of path' object'.modified)
    (hstatus : ((classifyContents parser fs' path').run .never).1 = .ok status) :
    ((classifyContents parser fs path).run .never).1 = .ok status := by
  have hcomponents : path.components = path'.components := congrArg Key.path hkey
  have hmodified : object.modified = object'.modified := congrArg Key.modified hkey
  have hread := hstable fs path object fs' path' object' hseen hseen'
    (Path.same_iff.mpr hcomponents) hobject hobject' hmodified
  obtain ⟨contents, hcontents⟩ := exists_read_of_classifyContents hstatus
  rw [hcontents] at hread
  have hcontents' : Contents.read fs path = .ok contents := by
    cases h : Contents.read fs path with
    | error fault =>
      rw [h] at hread
      cases hread
    | ok other =>
      rw [h] at hread
      exact congrArg Except.ok (Option.some.inj hread)
  rw [classifyContents_congr (settledByName?_eq_none_iff.mp hpath).1
    (settledByName?_eq_none_iff.mp hpath').1 (ofPath?_of_components hcomponents) hcontents'
    hcontents]
  exact hstatus

/-- A hit is what a look at the contents would give now. -/
theorem Justified.hit {object : Object} {status : Status} (hcache : Justified parser seen cache)
    (hstable : Stable seen) (hseen : seen fs path) (hpath : settledByName? path = none)
    (hobject : fs.object path = .ok object)
    (hhit : cache.find? (Key.of path object.modified) = some status) :
    ((classifyContents parser fs path).run .never).1 = .ok status := by
  obtain ⟨fs', path', object', hseen', hpath', hobject', hkey, hstatus⟩ := hcache _ _ hhit
  exact hstable.classifyContents_eq hseen hseen' hpath hpath' hobject hobject' hkey hstatus

theorem Justified.insertNew {object : Object} {status : Status} (hcache : Justified parser seen cache)
    (hseen : seen fs path) (hpath : settledByName? path = none)
    (hobject : fs.object path = .ok object)
    (hstatus : ((classifyContents parser fs path).run .never).1 = .ok status) :
    Justified parser seen (cache.insertNew (Key.of path object.modified) status).2 := by
  intro key stored hstored
  by_cases hkey : key = Key.of path object.modified
  · subst hkey
    cases hfind : cache.find? (Key.of path object.modified) with
    | some first =>
      rw [find?_insertNew_of_find? hfind] at hstored
      exact hcache _ stored (hfind.trans hstored)
    | none =>
      have hgiven : (cache.insertNew (Key.of path object.modified) status).1 = status := by
        rw [Cache.insertNew, hfind]
      rw [find?_insertNew_self, hgiven] at hstored
      exact ⟨fs, path, object, hseen, hpath, hobject, rfl,
        hstatus.trans (congrArg Except.ok (Option.some.inj hstored))⟩
  · rw [find?_insertNew_of_ne hkey] at hstored
    exact hcache key stored hstored

/-- Without a hit, and with a signal that never fires, the fresh verdict is given and stored. -/
theorem run_classify_never {object : Object} (hpath : settledByName? path = none)
    (hobject : fs.object path = .ok object)
    (hmiss : cache.find? (Key.of path object.modified) = none) :
    (classify parser fs path).run (cache, .never) =
      (freshStatus parser fs path,
        match ((classifyContents parser fs path).run .never).1 with
        | .error _ => cache
        | .ok status => (cache.insertNew (Key.of path object.modified) status).2, .never) := by
  obtain ⟨polls, result, hsettles, -⟩ :=
    exists_settles_classifyContents parser fs path (settledByName?_eq_none_iff.mp hpath).1
  rw [run_classify hpath, freshStatus_eq hpath, hobject]
  simp only [hmiss, hsettles.run_never]
  cases result with
  | error fault => rfl
  | ok status =>
    have hgiven : (cache.insertNew (Key.of path object.modified) status).1 = status := by
      rw [Cache.insertNew, hmiss]
    simp only [hgiven]
    rfl

/-- Without a hit, a signal that has fired leaves nothing but an unknown status. -/
theorem run_classify_fired {object : Object} (hpath : settledByName? path = none)
    (hobject : fs.object path = .ok object)
    (hmiss : cache.find? (Key.of path object.modified) = none) :
    (classify parser fs path).run (cache, .fired) = (.unknown, cache, .fired) := by
  obtain ⟨polls, result, hsettles, -⟩ :=
    exists_settles_classifyContents parser fs path (settledByName?_eq_none_iff.mp hpath).1
  rw [run_classify hpath, hobject]
  simp only [hmiss, hsettles.run_fired (show 0 < 1 + polls by omega)]
  rfl

theorem freshStatus_ne_unknown (fs : FileSystem) (path : Path) :
    freshStatus parser fs path ≠ .unknown := by
  cases hpath : settledByName? path with
  | some status =>
    rw [freshStatus_of_settled fs hpath]
    unfold settledByName? at hpath
    split at hpath
    · cases hpath
      exact nofun
    · split at hpath
      · cases hpath
        exact nofun
      · cases hpath
  | none =>
    obtain ⟨polls, result, hsettles, hresult⟩ :=
      exists_settles_classifyContents parser fs path (settledByName?_eq_none_iff.mp hpath).1
    rw [freshStatus_eq hpath, hsettles.run_never]
    exact hresult

/-- The fresh status is faithful unless the cache was asked and did not know. -/
theorem Faithful.of_fresh {status : Status} (hstatus : status = freshStatus parser fs path)
    (hknown : ¬∃ object, settledByName? path = none ∧ fs.object path = .ok object ∧
      cache.find? (Key.of path object.modified) = none) :
    Faithful parser fs cache signal ⟨path, status⟩ := by
  refine ⟨fun _ => hstatus, fun _ => Or.inl hstatus, fun _ => ⟨fun hunknown => ?_, ?_⟩⟩
  · exact absurd (hstatus.symm.trans hunknown) (freshStatus_ne_unknown fs path)
  · rintro ⟨hname, hlanguage, object, hobject, hmiss⟩
    exact absurd ⟨object, settledByName?_eq_none_iff.mpr ⟨hname, hlanguage⟩, hobject, hmiss⟩ hknown

/-- What one classification keeps and gives: the fresh status, except that a signal that has fired
may leave it unknown; such a signal also leaves the cache as it is. -/
theorem classify_faithful (hstable : Stable seen) (hseen : seen fs path)
    (hcache : Justified parser seen cache) (hsignal : signal = .never ∨ signal = .fired) :
    Faithful parser fs cache signal ⟨path, ((classify parser fs path).run (cache, signal)).1⟩ ∧
      Justified parser seen ((classify parser fs path).run (cache, signal)).2.1 ∧
      ((classify parser fs path).run (cache, signal)).2.2 = signal ∧
      (signal = .fired → ((classify parser fs path).run (cache, signal)).2.1 = cache) := by
  -- Three of the four ways to a verdict give the fresh one and store nothing.
  cases hpath : settledByName? path with
  | some status =>
    have hrun : (classify parser fs path).run (cache, signal) = (status, cache, signal) := by
      rw [classify, hpath]
      rfl
    rw [hrun]
    refine ⟨.of_fresh (freshStatus_of_settled fs hpath).symm ?_, hcache, rfl, fun _ => rfl⟩
    rintro ⟨object, hnone, -⟩
    rw [hpath] at hnone
    cases hnone
  | none =>
    cases hobject : fs.object path with
    | error fault =>
      have hrun : (classify parser fs path).run (cache, signal) =
          (Status.ofResult (.error fault), cache, signal) := by
        rw [run_classify hpath, hobject]
      have hstatus : Status.ofResult (.error fault) = freshStatus parser fs path := by
        rw [freshStatus, run_classify hpath, hobject]
      rw [hrun]
      refine ⟨.of_fresh hstatus ?_, hcache, rfl, fun _ => rfl⟩
      rintro ⟨object, -, hfound, -⟩
      rw [hobject] at hfound
      cases hfound
    | ok object =>
      cases hfind : cache.find? (Key.of path object.modified) with
      | some hit =>
        have hrun : (classify parser fs path).run (cache, signal) = (hit, cache, signal) := by
          rw [run_classify hpath, hobject]
          simp only [hfind]
        have hstatus : hit = freshStatus parser fs path := by
          rw [freshStatus_eq hpath, hcache.hit hstable hseen hpath hobject hfind]
          rfl
        rw [hrun]
        refine ⟨.of_fresh hstatus ?_, hcache, rfl, fun _ => rfl⟩
        rintro ⟨other, -, hother, hmiss⟩
        have hsame : object = other := Except.ok.inj (hobject.symm.trans hother)
        rw [← hsame, hfind] at hmiss
        cases hmiss
      | none =>
        rcases hsignal with rfl | rfl
        · rw [run_classify_never hpath hobject hfind]
          refine ⟨⟨fun _ => rfl, fun hfired => absurd hfired (by decide),
            fun hfired => absurd hfired (by decide)⟩, ?_, rfl,
            fun hfired => absurd hfired (by decide)⟩
          cases hresult : ((classifyContents parser fs path).run .never).1 with
          | error fault => exact hcache
          | ok status => exact hcache.insertNew hseen hpath hobject hresult
        · rw [run_classify_fired hpath hobject hfind]
          obtain ⟨hname, hlanguage⟩ := settledByName?_eq_none_iff.mp hpath
          exact ⟨⟨fun hnever => absurd hnever (by decide), fun _ => Or.inr rfl,
            fun _ => ⟨fun _ => ⟨hname, hlanguage, object, hobject, hfind⟩, fun _ => rfl⟩⟩,
            hcache, rfl, fun _ => rfl⟩

theorem run_classifyAll_cons (fs : FileSystem) (path : Path) (paths : List Path)
    (state : Cache × Signal) :
    (classifyAll parser fs (path :: paths)).run state =
      (⟨path, ((classify parser fs path).run state).1⟩ ::
          ((classifyAll parser fs paths).run ((classify parser fs path).run state).2).1,
        ((classifyAll parser fs paths).run ((classify parser fs path).run state).2).2) := rfl

/-- There is one verdict for each path, in the same order. -/
theorem map_path_classifyAll (parser : Parser) (fs : FileSystem) (paths : List Path)
    (state : Cache × Signal) :
    ((classifyAll parser fs paths).run state).1.map FileVerdict.path = paths := by
  induction paths generalizing state with
  | nil => rfl
  | cons path paths ih => rw [run_classifyAll_cons, List.map_cons, ih]

/-- What a row of classifications keeps and gives. -/
theorem classifyAll_faithful {paths : List Path} (hstable : Stable seen)
    (hseen : ∀ path ∈ paths, seen fs path) (hcache : Justified parser seen cache)
    (hsignal : signal = .never ∨ signal = .fired) :
    (∀ verdict ∈ ((classifyAll parser fs paths).run (cache, signal)).1,
        Faithful parser fs cache signal verdict) ∧
      Justified parser seen ((classifyAll parser fs paths).run (cache, signal)).2.1 ∧
      ((classifyAll parser fs paths).run (cache, signal)).2.2 = signal ∧
      (signal = .fired → ((classifyAll parser fs paths).run (cache, signal)).2.1 = cache) := by
  induction paths generalizing cache with
  | nil => exact ⟨nofun, hcache, rfl, fun _ => rfl⟩
  | cons path paths ih =>
    obtain ⟨hfirst, hcache', hsignal', hsame⟩ :=
      classify_faithful hstable (hseen path List.mem_cons_self) hcache hsignal
    have hstate : ((classify parser fs path).run (cache, signal)).2 =
        (((classify parser fs path).run (cache, signal)).2.1, signal) := Prod.ext rfl hsignal'
    obtain ⟨hothers, hcache'', hsignal'', hsame'⟩ :=
      ih (fun other hother => hseen other (List.mem_cons_of_mem _ hother)) hcache'
    rw [run_classifyAll_cons, hstate]
    refine ⟨?_, hcache'', hsignal'', fun hfired => (hsame' hfired).trans (hsame hfired)⟩
    intro verdict hverdict
    rcases List.mem_cons.mp hverdict with rfl | hverdict
    · exact hfirst
    · have hfaithful := hothers verdict hverdict
      rcases hsignal with rfl | rfl
      · exact ⟨hfaithful.fresh, nofun, nofun⟩
      · rw [hsame rfl] at hfaithful
        exact hfaithful

/-- A scan classifies what it has collected, if it could. -/
theorem run_scan (fs : FileSystem) (roots : List Path) (exclusion : Exclusion)
    (state : Cache × Signal) :
    (scan parser fs roots exclusion).run state =
      match collect fs exclusion roots with
      | .error fault => (.error fault, state)
      | .ok paths =>
        (.ok ⟨roots, Summary.tally ((classifyAll parser fs paths).run state).1,
          ((classifyAll parser fs paths).run state).1⟩, ((classifyAll parser fs paths).run state).2) := by
  rw [scan]
  cases collect fs exclusion roots <;> rfl

end Provenance.Scan
