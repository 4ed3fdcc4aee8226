import Provenance.Header.Tree
import Provenance.Proofs.Cancellation.AllOrNothing
import Provenance.Proofs.Scan.Collected

/-!
Scans that are cancelled on the way. Each classification either gives the status that the file gets
when nothing is stored and nothing cancelled, or leaves it unknown and stores nothing. In a whole scan
this needs the stored verdicts to be right before every classification; they stay so since no two of
the scanned files share a key, whatever the file system looks like.
-/
namespace Provenance.Scan

open Cache Signal

/-- If the cache has a verdict on the file as it is, it is the one that the file gets without a cache
and without cancellation. -/
def Trusts (parser : Parser) (fs : FileSystem) (cache : Cache) (path : Path) : Prop :=
  settledByName? path = none → ∀ object status, fs.object path = .ok object →
    cache.find? (Key.of path object.modified) = some status → status = freshStatus parser fs path

/-- An entry of a cache that holds the verdict of a look at the contents that came to its end. -/
def Completed (parser : Parser) (fs : FileSystem) (path : Path) (entry : Key × Status) : Prop :=
  settledByName? path = none ∧ entry.2 = freshStatus parser fs path ∧
    ((classifyContents parser fs path).run .never).1 = .ok entry.2 ∧
    ∃ object, fs.object path = .ok object ∧ entry.1 = Key.of path object.modified

/-- What a classification that starts with this cache and this signal gives and leaves behind. -/
structure Classified (parser : Parser) (fs : FileSystem) (path : Path) (cache : Cache)
    (signal : Signal) (status : Status) (cache' : Cache) (signal' : Signal) : Prop where
  advanced : ∃ polls, signal' = signal.after polls
  fresh_or_unknown : status = freshStatus parser fs path ∨
    (status = .unknown ∧ signal'.hasFired = true)
  stored : cache' = cache ∨ ∃ entry, Completed parser fs path entry ∧
    cache' = (cache.insertNew entry.1 entry.2).2

section

variable {parser : Parser} {fs : FileSystem} {path : Path} {cache cache' : Cache}
  {signal signal' : Signal} {status : Status}

/-- With any signal, a classification gives the fresh status and may store it, or it leaves the status
unknown and the cache as it is. -/
theorem classified_run (hcache : Trusts parser fs cache path) (signal : Signal) :
    Classified parser fs path cache signal ((classify parser fs path).run (cache, signal)).1
      ((classify parser fs path).run (cache, signal)).2.1
      ((classify parser fs path).run (cache, signal)).2.2 := by
  have hself : ∃ polls, signal = signal.after polls := ⟨0, (after_zero signal).symm⟩
  cases hpath : settledByName? path with
  | some status =>
    have hrun : (classify parser fs path).run (cache, signal) = (status, cache, signal) := by
      rw [classify, hpath]
      rfl
    rw [hrun]
    exact ⟨hself, Or.inl (freshStatus_of_settled fs hpath).symm, Or.inl rfl⟩
  | none =>
    rw [run_classify hpath]
    cases hobject : fs.object path with
    | error fault =>
      have hfresh : freshStatus parser fs path = Status.ofResult (.error fault) := by
        rw [freshStatus, run_classify hpath, hobject]
      exact ⟨hself, Or.inl hfresh.symm, Or.inl rfl⟩
    | ok object =>
      simp only
      cases hfind : cache.find? (Key.of path object.modified) with
      | some hit => exact ⟨hself, Or.inl (hcache hpath object hit hobject hfind), Or.inl rfl⟩
      | none =>
        obtain ⟨polls, result, hsettles, -⟩ :=
          exists_settles_classifyContents parser fs path (settledByName?_eq_none_iff.mp hpath).1
        have hfresh : freshStatus parser fs path = Status.ofResult result := by
          rw [freshStatus_eq hpath, hsettles.run_never]
        by_cases hlasts : signal.Lasts (1 + polls)
        · simp only [(hsettles signal).1 hlasts]
          cases result with
          | error fault => exact ⟨⟨1 + polls, rfl⟩, Or.inl hfresh.symm, Or.inl rfl⟩
          | ok status =>
            have hgiven : (cache.insertNew (Key.of path object.modified) status).1 = status := by
              rw [Cache.insertNew, hfind]
            have hcompleted : Completed parser fs path (Key.of path object.modified, status) :=
              ⟨hpath, hfresh.symm, by rw [hsettles.run_never], object, hobject, rfl⟩
            exact ⟨⟨1 + polls, rfl⟩, Or.inl (hgiven.trans hfresh.symm),
              Or.inr ⟨_, hcompleted, rfl⟩⟩
        · simp only [(hsettles signal).2 hlasts]
          exact ⟨⟨1 + polls, (after_eq_fired hlasts).symm⟩, Or.inr ⟨rfl, rfl⟩, Or.inl rfl⟩

/-- A verdict on one path says nothing about others. -/
theorem Classified.trusts_of_same {other : Path}
    (h : Classified parser fs path cache signal status cache' signal') (hne : path.same other = false)
    (hcache : Trusts parser fs cache other) : Trusts parser fs cache' other := by
  rcases h.stored with rfl | ⟨⟨key, verdict⟩, ⟨-, -, -, object, -, rfl⟩, rfl⟩
  · exact hcache
  · intro hother object' stored hobject' hstored
    have hkey : Key.of other object'.modified ≠ Key.of path object.modified := by
      intro heq
      have hsame : path.same other = true := Path.same_iff.mpr (congrArg Key.path heq).symm
      rw [hne] at hsame
      cases hsame
    rw [find?_insertNew_of_ne hkey] at hstored
    exact hcache hother object' stored hobject' hstored

/-- A verdict is stored only if it was before or is that of a look that came to its end. -/
theorem Classified.stored_or_completed {key : Key} {verdict : Status}
    (h : Classified parser fs path cache signal status cache' signal')
    (hverdict : cache'.find? key = some verdict) :
    cache.find? key = some verdict ∨ Completed parser fs path (key, verdict) := by
  rcases h.stored with rfl | ⟨⟨key', verdict'⟩, hcompleted, rfl⟩
  · exact Or.inl hverdict
  · by_cases hkey : key = key'
    · subst hkey
      rw [find?_insertNew_self] at hverdict
      cases hfind : cache.find? key with
      | some first =>
        rw [Cache.insertNew, hfind] at hverdict
        exact Or.inl hverdict
      | none =>
        rw [Cache.insertNew, hfind] at hverdict
        cases hverdict
        exact Or.inr hcompleted
    · rw [find?_insertNew_of_ne hkey] at hverdict
      exact Or.inl hverdict

theorem Classified.keeps {key : Key} {verdict : Status}
    (h : Classified parser fs path cache signal status cache' signal')
    (hverdict : cache.find? key = some verdict) : cache'.find? key = some verdict := by
  rcases h.stored with rfl | ⟨entry, -, rfl⟩
  · exact hverdict
  · exact find?_insertNew_of_find? hverdict

end

/-- What a row of classifications gives and leaves behind, wherever the signal fires: statuses that are
fresh or unknown, all of them fresh if the signal has not fired in the end, and in the cache nothing
new but verdicts that have come to their end. -/
structure Uncut (parser : Parser) (fs : FileSystem) (cache : Cache) (signal : Signal)
    (files : List FileVerdict) (cache' : Cache) (signal' : Signal) : Prop where
  advanced : ∃ polls, signal' = signal.after polls
  fresh_or_unknown : ∀ file ∈ files,
    file.status = freshStatus parser fs file.path ∨ file.status = .unknown
  fresh : signal'.hasFired = false → ∀ file ∈ files, file.status = freshStatus parser fs file.path
  keeps : ∀ key verdict, cache.find? key = some verdict → cache'.find? key = some verdict
  stored_or_completed : ∀ key verdict, cache'.find? key = some verdict →
    cache.find? key = some verdict ∨ ∃ file ∈ files, Completed parser fs file.path (key, verdict)

section

variable {parser : Parser} {fs : FileSystem} {cache : Cache}

/-- One more file in front of a row. -/
theorem Classified.cons_uncut {path : Path} {status : Status} {files : List FileVerdict}
    {cache' cache'' : Cache} {signal signal' signal'' : Signal}
    (hfirst : Classified parser fs path cache signal status cache' signal')
    (hothers : Uncut parser fs cache' signal' files cache'' signal'') :
    Uncut parser fs cache signal (⟨path, status⟩ :: files) cache'' signal'' := by
  obtain ⟨polls, rfl⟩ := hfirst.advanced
  obtain ⟨polls', rfl⟩ := hothers.advanced
  constructor
  · exact ⟨polls + polls', after_after signal polls polls'⟩
  · intro file hfile
    rcases List.mem_cons.mp hfile with rfl | hfile
    · exact hfirst.fresh_or_unknown.imp_right And.left
    · exact hothers.fresh_or_unknown file hfile
  · intro hquiet file hfile
    rcases List.mem_cons.mp hfile with rfl | hfile
    · rcases hfirst.fresh_or_unknown with hfresh | ⟨-, hfired⟩
      · exact hfresh
      · have hlater : signal.answer (polls + polls') = true :=
          answer_mono (Nat.le_add_right polls polls') hfired
        rw [after_after] at hquiet
        rw [answer, hquiet] at hlater
        cases hlater
    · exact hothers.fresh hquiet file hfile
  · intro key verdict hverdict
    exact hothers.keeps key verdict (hfirst.keeps hverdict)
  · intro key verdict hverdict
    rcases hothers.stored_or_completed key verdict hverdict with
      hearlier | ⟨file, hfile, hcompleted⟩
    · rcases hfirst.stored_or_completed hearlier with hold | hcompleted
      · exact Or.inl hold
      · exact Or.inr ⟨⟨path, status⟩, List.mem_cons_self, hcompleted⟩
    · exact Or.inr ⟨file, List.mem_cons_of_mem _ hfile, hcompleted⟩

/-- Paths that differ in their meaning do not spoil each other's verdicts. -/
theorem uncut_run_classifyAll {paths : List Path}
    (hdistinct : paths.Pairwise fun a b => a.same b = false)
    (hcache : ∀ path ∈ paths, Trusts parser fs cache path) (signal : Signal) :
    Uncut parser fs cache signal ((classifyAll parser fs paths).run (cache, signal)).1
      ((classifyAll parser fs paths).run (cache, signal)).2.1
      ((classifyAll parser fs paths).run (cache, signal)).2.2 := by
  induction paths generalizing cache signal with
  | nil =>
    exact ⟨⟨0, (after_zero signal).symm⟩, nofun, fun _ => nofun, fun _ _ => id,
      fun _ _ => Or.inl⟩
  | cons path paths ih =>
    obtain ⟨hpath, hothers⟩ := List.pairwise_cons.mp hdistinct
    have hfirst := classified_run (hcache path List.mem_cons_self) signal
    rw [run_classifyAll_cons]
    apply hfirst.cons_uncut
    apply ih hothers
    intro other hother
    exact hfirst.trusts_of_same (hpath other hother) (hcache other (List.mem_cons_of_mem _ hother))

/-- Nothing is unknown unless the signal fires. -/
theorem Uncut.status_ne_unknown {files : List FileVerdict} {cache' : Cache}
    {signal signal' : Signal} (h : Uncut parser fs cache signal files cache' signal')
    (hquiet : ∀ n, signal.answer n = false) : ∀ file ∈ files, file.status ≠ .unknown := by
  obtain ⟨polls, rfl⟩ := h.advanced
  intro file hfile
  rw [h.fresh (hquiet polls) file hfile]
  exact freshStatus_ne_unknown fs file.path

/-- Where spellings do not matter, what the row leaves behind can be trusted again on every file. -/
theorem Uncut.trusts {files : List FileVerdict} {cache' : Cache} {signal signal' : Signal}
    (h : Uncut parser fs cache signal files cache' signal') (hstable : Stable fun seen _ => seen = fs)
    (hcache : ∀ path, Trusts parser fs cache path) (path : Path) : Trusts parser fs cache' path := by
  intro hpath object status hobject hstatus
  rcases h.stored_or_completed _ status hstatus with
    hold | ⟨file, -, hname, -, hlook, object', hobject', hkey⟩
  · exact hcache path hpath object status hobject hold
  · have hsame : ((classifyContents parser fs path).run .never).1 = .ok status :=
      hstable.classifyContents_eq rfl rfl hpath hname hobject hobject' hkey hlook
    rw [freshStatus_eq hpath, hsame]
    rfl

/-- A cache whose entries are verdicts of completed looks can be trusted on every file. -/
theorem Justified.trusts (hcache : Justified parser (fun seen _ => seen = fs) cache)
    (hstable : Stable fun seen _ => seen = fs) (path : Path) : Trusts parser fs cache path := by
  intro hpath object status hobject hstatus
  rw [freshStatus_eq hpath, hcache.hit hstable rfl hpath hobject hstatus]
  rfl

end

/-- Cancellation leaves no partial answers. Whenever the signal fires, each question about a tree or a
source file gets its one answer or none. A scan fails as it would fail anyway, or it reports the files
that it would report anyway, each with its fresh status, or unknown if the signal has fired. A cache
that could be trusted before gains nothing but verdicts of looks that came to their end, so it can be
trusted again. -/
theorem scan_never_partial (parser : Parser) :
    (∀ schedule : Nat → Bool, (∀ m n, m ≤ n → schedule m = true → schedule n = true) →
      ∃ signal : Signal, signal.answer = schedule) ∧
    (∀ root source language, AllOrNothing (Syntax.leadingTrivia root source language)) ∧
    (∀ file : SourceFile, AllOrNothing (file.leadingTrivia parser) ∧
      AllOrNothing (file.detect parser) ∧ AllOrNothing (file.isGenerated parser)) ∧
    ∀ fs roots exclusion cache, (∀ path, Trusts parser fs cache path) → ∀ signal,
      match collect fs exclusion roots with
      | .error fault =>
        (scan parser fs roots exclusion).run (cache, signal) = (.error fault, cache, signal)
      | .ok paths => ∃ files cache' signal',
        (scan parser fs roots exclusion).run (cache, signal) =
          (.ok ⟨roots, Summary.tally files, files⟩, cache', signal') ∧
        files.map FileVerdict.path = paths ∧
        Uncut parser fs cache signal files cache' signal' ∧
        ((∀ n, signal.answer n = false) → ∀ file ∈ files, file.status ≠ .unknown) ∧
        ((Stable fun seen _ => seen = fs) → ∀ path, Trusts parser fs cache' path) := by
  refine ⟨fun schedule => exists_answer_eq, Syntax.allOrNothing_leadingTrivia, fun file =>
    ⟨file.allOrNothing_leadingTrivia parser, file.allOrNothing_detect parser,
      file.allOrNothing_isGenerated parser⟩, ?_⟩
  intro fs roots exclusion cache hcache signal
  cases hcollect : collect fs exclusion roots with
  | error fault =>
    show (scan parser fs roots exclusion).run (cache, signal) = (.error fault, cache, signal)
    rw [run_scan, hcollect]
  | ok paths =>
    have huncut := uncut_run_classifyAll (pairwise_same_of_collect hcollect)
      (fun path _ => hcache path) signal
    refine ⟨_, _, _, ?_, map_path_classifyAll parser fs paths (cache, signal), huncut,
      huncut.status_ne_unknown, fun hstable => huncut.trusts hstable hcache⟩
    rw [run_scan, hcollect]

/-- A file that is no text, and texts everywhere else. -/
def binaryAmongTexts : FileSystem := fun path =>
  .ok (.file ⟨0⟩ (.ok (if path.same (.ofText "A.cs".toList) then [0] else [0x7B, 0x7D])))

/-- The verdict on this file alone. -/
def knowingBinary : Cache :=
  ⟨[(Key.of (.ofText "A.cs".toList) ⟨0⟩, .skipped .binary)]⟩

/-- The verdict on the first file is taken from the cache; in the second file the signal fires before
the text is parsed. -/
theorem statuses_binaryAmongTexts :
    (∀ path, Trusts Header.parser binaryAmongTexts knowingBinary path) ∧ ∃ files cache' signal',
      (scan Header.parser binaryAmongTexts [.ofText "B.cs".toList, .ofText "A.cs".toList] .none).run
          (knowingBinary, ⟨some 1⟩) = (.ok ⟨[.ofText "B.cs".toList, .ofText "A.cs".toList],
            Summary.tally files, files⟩, cache', signal') ∧
      files.map FileVerdict.status = [.skipped .binary, .unknown] ∧
      Uncut Header.parser binaryAmongTexts knowingBinary ⟨some 1⟩ files cache' signal' := by
  have hread : ∀ path, Contents.read binaryAmongTexts path = .ok (Contents.ofBytes
      (if path.same (.ofText "A.cs".toList) then [0] else [0x7B, 0x7D])) := fun _ => rfl
  have hstable : Stable fun seen _ => seen = binaryAmongTexts := by
    rintro fs path object fs' path' object' rfl rfl hsame - - -
    rw [hread, hread, Path.same, Path.same, Path.same_iff.mp hsame]
  have hjustified : Justified Header.parser (fun seen _ => seen = binaryAmongTexts) knowingBinary := by
    intro key status hstatus
    have hlook : ((classifyContents Header.parser binaryAmongTexts (.ofText "A.cs".toList)).run .never).1 =
        .ok (.skipped .binary) := by decide
    have hentry : key = Key.of (.ofText "A.cs".toList) ⟨0⟩ ∧ status = .skipped .binary := by
      simp only [knowingBinary, Cache.find?, List.find?_cons, List.find?_nil] at hstatus
      split at hstatus
      · next hkey => exact ⟨(beq_iff_eq.mp hkey).symm, by simpa using hstatus.symm⟩
      · cases hstatus
    obtain ⟨rfl, rfl⟩ := hentry
    exact ⟨_, _, _, rfl, by decide, rfl, rfl, hlook⟩
  have htrusts := hjustified.trusts hstable
  have hcollect : collect binaryAmongTexts .none [.ofText "B.cs".toList, .ofText "A.cs".toList] =
      .ok [.ofText "A.cs".toList, .ofText "B.cs".toList] := rfl
  have hscan := (scan_never_partial Header.parser).2.2.2 binaryAmongTexts
    [.ofText "B.cs".toList, .ofText "A.cs".toList] .none knowingBinary htrusts ⟨some 1⟩
  rw [hcollect] at hscan
  obtain ⟨files, cache', signal', hrun, -, huncut, -⟩ := hscan
  refine ⟨htrusts, files, cache', signal', hrun, ?_, huncut⟩
  have hstatuses : ((classifyAll Header.parser binaryAmongTexts
      [.ofText "A.cs".toList, .ofText "B.cs".toList]).run (knowingBinary, ⟨some 1⟩)).1.map
        FileVerdict.status = [.skipped .binary, .unknown] := rfl
  rw [run_scan, hcollect] at hrun
  have hfiles := congrArg Report.files (Except.ok.inj (Prod.mk.inj hrun).1)
  rw [← hstatuses]
  exact congrArg (List.map FileVerdict.status) hfiles.symm

end Provenance.Scan
