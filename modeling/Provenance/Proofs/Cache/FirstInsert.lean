import Mathlib.Data.Finset.Card
import Mathlib.Data.Finset.Dedup
import Provenance.Proofs.Cache.NestedCalls

/-!
The laws of a cache whose users call it while they compute. Each of them is a law of the four ways in
which one moment follows another, carried through a run by induction on its moments: a verdict that
has been stored first stays, also when it is stored in the middle of a computation of the same
verdict, and as many verdicts are stored as keys have had theirs computed.
-/
namespace Provenance.Cache

/-- What a call that has returned owes to its caller. -/
structure Call.Lawful (c : Call) : Prop where
  /-- It runs its computation exactly when nothing was stored under its key. -/
  computes_iff : c.computation.isSome = true ↔ c.before.find? c.key = none
  /-- Otherwise it gives what was stored, and stores nothing. -/
  of_stored : ∀ stored, c.before.find? c.key = some stored →
    c.result = .ok stored ∧ c.after = c.before
  /-- What it gives is stored then. -/
  find?_after : ∀ status, c.result = .ok status → c.after.find? c.key = some status
  /-- The fault of its computation is its own fault, and nothing is stored but what the computation
  has stored. -/
  of_failed : ∀ fault ended, c.computation = some (.error fault, ended) →
    c.result = .error fault ∧ c.after = ended
  /-- The verdict that has been computed counts, unless the computation has stored another one under
  the key, and no other key is concerned. -/
  of_completed : ∀ status ended, c.computation = some (.ok status, ended) →
    c.result = .ok ((ended.find? c.key).getD status) ∧
      ∀ other, other ≠ c.key → c.after.find? other = ended.find? other

theorem fst_insertNew (c : Cache) (key : Key) (status : Status) :
    (c.insertNew key status).1 = (c.find? key).getD status := by
  rw [insertNew]
  cases c.find? key <;> rfl

theorem Follows.lawful {now : Cache} {m : Moment} {call : Call} (h : Follows now m)
    (hcall : m.returned? = some call) : call.Lawful ∧ m.cache = call.after := by
  cases h with
  | made key => cases hcall
  | hit key stored hstored =>
    cases hcall
    refine ⟨⟨by simp [hstored], ?_, ?_, nofun, nofun⟩, rfl⟩
    · intro other hother
      exact ⟨congrArg Except.ok (Option.some.inj (hstored.symm.trans hother)), rfl⟩
    · intro status hstatus
      cases hstatus
      exact hstored
  | failed key before fault hnone =>
    cases hcall
    refine ⟨⟨by simp [hnone], by simp [hnone], nofun, ?_, nofun⟩, rfl⟩
    intro other ended hother
    cases hother
    exact ⟨rfl, rfl⟩
  | completed key before status hnone =>
    cases hcall
    refine ⟨⟨by simp [hnone], by simp [hnone], ?_, nofun, ?_⟩, rfl⟩
    · intro given hgiven
      cases hgiven
      exact find?_insertNew_self now key status
    · intro other ended hother
      cases hother
      exact ⟨congrArg Except.ok (fst_insertNew now key status), fun _ => find?_insertNew_of_ne⟩

/-- The oldest entries stay in front. -/
theorem Follows.entries_grow {now : Cache} {m : Moment} (h : Follows now m) :
    now.entries <+: m.cache.entries := by
  cases h with
  | made key => exact List.prefix_refl _
  | hit key stored hstored => exact List.prefix_refl _
  | failed key before fault hnone => exact List.prefix_refl _
  | completed key before status hnone =>
    show now.entries <+: (now.insertNew key status).2.entries
    rw [insertNew]
    cases now.find? key with
    | some first => exact List.prefix_refl _
    | none => exact List.prefix_append _ _

theorem find?_eq_some_of_prefix {c c' : Cache} {key : Key} {status : Status}
    (h : c.entries <+: c'.entries) (hfind : c.find? key = some status) :
    c'.find? key = some status := by
  obtain ⟨more, hmore⟩ := h
  simp only [find?, Option.map_eq_some_iff] at hfind ⊢
  obtain ⟨entry, hentry, hstatus⟩ := hfind
  refine ⟨entry, ?_, hstatus⟩
  rw [← hmore, List.find?_append, hentry]
  rfl

def keys (c : Cache) : List Key := c.entries.map Prod.fst

theorem mem_keys_iff {c : Cache} {key : Key} : key ∈ c.keys ↔ (c.find? key).isSome = true := by
  simp only [keys, find?, Option.isSome_map, List.find?_isSome, List.mem_map, beq_iff_eq]

theorem keys_insertNew (c : Cache) (key : Key) (status : Status) :
    (c.insertNew key status).2.keys = if key ∈ c.keys then c.keys else c.keys ++ [key] := by
  rw [insertNew]
  cases h : c.find? key with
  | some first => simp [mem_keys_iff, h]
  | none =>
    have hnot : key ∉ c.keys := by simp [mem_keys_iff, h]
    rw [if_neg hnot]
    simp [keys]

/-- A key is added exactly when its verdict has been computed, and never twice. -/
theorem Follows.keys_eq {now : Cache} {m : Moment} (h : Follows now m) :
    (∀ key, key ∈ m.cache.keys ↔ key ∈ now.keys ∨ m.completed? = some key) ∧
      (now.keys.Nodup → m.cache.keys.Nodup) := by
  cases h with
  | made key => exact ⟨fun other => by simp [Moment.completed?], id⟩
  | hit key stored hstored => exact ⟨fun other => by simp [Moment.completed?], id⟩
  | failed key before fault hnone => exact ⟨fun other => by simp [Moment.completed?], id⟩
  | completed key before status hnone =>
    simp only [Moment.completed?, keys_insertNew, Option.some.injEq]
    split
    · next hmem =>
      refine ⟨fun other => ⟨Or.inl, ?_⟩, id⟩
      rintro (hother | rfl)
      · exact hother
      · exact hmem
    · next hmem =>
      refine ⟨fun other => by simp [eq_comm], ?_⟩
      intro hnodup
      simpa [List.nodup_append] using ⟨hnodup, fun other hother heq => hmem (heq ▸ hother)⟩

/-- The keys whose verdicts have been computed in some moments, as often as this has happened. -/
def completedKeys (log : List Moment) : List Key := log.filterMap Moment.completed?

section

variable {start : Cache} {log : List Moment}

theorem entries_grow_of_mem (h : Consecutive start log) :
    ∀ m ∈ log, start.entries <+: m.cache.entries := by
  induction log generalizing start with
  | nil => exact nofun
  | cons first log ih =>
    intro m hm
    have hfirst := h.1.entries_grow
    rcases List.mem_cons.mp hm with rfl | hm
    · exact hfirst
    · exact hfirst.trans (ih h.2 m hm)

theorem pairwise_entries_grow (h : Consecutive start log) :
    log.Pairwise fun m m' => m.cache.entries <+: m'.cache.entries := by
  induction log generalizing start with
  | nil => exact List.Pairwise.nil
  | cons first log ih =>
    exact List.pairwise_cons.mpr ⟨entries_grow_of_mem h.2, ih h.2⟩

theorem entries_grow_cacheAfter (h : Consecutive start log) :
    ∀ m ∈ log, m.cache.entries <+: (cacheAfter start log).entries := by
  induction log generalizing start with
  | nil => exact nofun
  | cons first log ih =>
    intro m hm
    rcases List.mem_cons.mp hm with rfl | hm
    · cases log with
      | nil => exact List.prefix_refl _
      | cons second log => exact h.2.1.entries_grow.trans (ih h.2 second List.mem_cons_self)
    · exact ih h.2 m hm

theorem lawful_of_mem (h : Consecutive start log) :
    ∀ m ∈ log, ∀ call, m.returned? = some call → call.Lawful ∧ m.cache = call.after := by
  induction log generalizing start with
  | nil => exact nofun
  | cons first log ih =>
    intro m hm call hcall
    rcases List.mem_cons.mp hm with rfl | hm
    · exact h.1.lawful hcall
    · exact ih h.2 m hm call hcall

/-- The keys after a run are those before it and those whose verdicts it has computed. -/
theorem keys_cacheAfter (h : Consecutive start log) :
    (∀ key, key ∈ (cacheAfter start log).keys ↔ key ∈ start.keys ∨ key ∈ completedKeys log) ∧
      (start.keys.Nodup → (cacheAfter start log).keys.Nodup) := by
  induction log generalizing start with
  | nil => exact ⟨fun key => by simp [cacheAfter, completedKeys], id⟩
  | cons m log ih =>
    obtain ⟨hkeys, hnodup⟩ := h.1.keys_eq
    obtain ⟨hkeys', hnodup'⟩ := ih h.2
    refine ⟨fun key => ?_, fun hstart => hnodup' (hnodup hstart)⟩
    show key ∈ (cacheAfter m.cache log).keys ↔ _
    rw [hkeys', hkeys, or_assoc]
    simp [completedKeys, List.filterMap_cons]
    cases m.completed? <;> simp [eq_comm]

end

/-- The calls that have returned in some moments, in this order. -/
def returnedCalls (log : List Moment) : List Call := log.filterMap Moment.returned?

theorem size_eq_card (c : Cache) (h : c.keys.Nodup) : c.size = c.keys.toFinset.card := by
  rw [List.toFinset_card_of_nodup h]
  simp [size, keys]

/-- In every run on an empty cache, however calls are nested: each call keeps its promises; what is
stored at one moment is stored at every later one; two calls of one key never give different
verdicts; and at every moment as many verdicts are stored as keys have had one computed. -/
theorem first_verdict_stays (script : Script) :
    (∀ call ∈ returnedCalls (script.run .empty).log, call.Lawful) ∧
    ((script.run .empty).log.Pairwise fun m m' =>
      (∀ key status, m.cache.find? key = some status → m'.cache.find? key = some status) ∧
        m.cache.size ≤ m'.cache.size) ∧
    (∀ call ∈ returnedCalls (script.run .empty).log,
      ∀ call' ∈ returnedCalls (script.run .empty).log, call.key = call'.key →
        ∀ status status', call.result = .ok status → call'.result = .ok status' →
          status = status') ∧
    ∀ past, past <+: (script.run .empty).log →
      (cacheAfter .empty past).size = (completedKeys past).toFinset.card := by
  obtain ⟨hrun, -⟩ := consecutive_run script .empty
  have hlast : ∀ call ∈ returnedCalls (script.run .empty).log, call.Lawful ∧
      call.after.entries <+: (cacheAfter .empty (script.run .empty).log).entries := by
    intro call hcall
    obtain ⟨m, hm, hreturned⟩ := List.mem_filterMap.mp hcall
    obtain ⟨hlawful, hafter⟩ := lawful_of_mem hrun m hm call hreturned
    rw [← hafter]
    exact ⟨hlawful, entries_grow_cacheAfter hrun m hm⟩
  refine ⟨fun call hcall => (hlast call hcall).1, ?_, ?_, ?_⟩
  · apply (pairwise_entries_grow hrun).imp
    intro m m' hle
    exact ⟨fun key status => find?_eq_some_of_prefix hle, hle.length_le⟩
  · intro call hcall call' hcall' hkey status status' hstatus hstatus'
    obtain ⟨hlawful, hle⟩ := hlast call hcall
    obtain ⟨hlawful', hle'⟩ := hlast call' hcall'
    have hfind := find?_eq_some_of_prefix hle (hlawful.find?_after status hstatus)
    have hfind' := find?_eq_some_of_prefix hle' (hlawful'.find?_after status' hstatus')
    rw [hkey] at hfind
    exact Option.some.inj (hfind.symm.trans hfind')
  · rintro past ⟨later, hlater⟩
    rw [← hlater, consecutive_append] at hrun
    obtain ⟨hkeys, hnodup⟩ := keys_cacheAfter hrun.1
    rw [size_eq_card _ (hnodup List.nodup_nil)]
    congr 1
    ext key
    rw [List.mem_toFinset, List.mem_toFinset, hkeys]
    simp [keys, Cache.empty]

/-- The key of the file in the run below. -/
def raceKey : Key := .of (.ofText "Race.cs".toList) ⟨0⟩

/-- The computation of a verdict asks for the same verdict, and comes to another one then. A further
call brings a computation that would fail. -/
def racing : Script :=
  .call raceKey (.call raceKey (.done (.ok .authored)) fun _ => .done (.ok .unknown)) fun _ =>
    .call raceKey (.done (.error .cancelled)) .done

theorem verdicts_racing :
    ∃ inner outer again, returnedCalls (racing.run .empty).log = [inner, outer, again] ∧
      outer.computation.map Prod.fst = some (.ok .unknown) ∧ again.computation.isNone = true ∧
      inner.result = .ok .authored ∧ outer.result = .ok .authored ∧ again.result = .ok .authored ∧
      inner.result = outer.result ∧ outer.Lawful ∧
      (cacheAfter .empty (racing.run .empty).log).size = 1 := by
  have hlog : returnedCalls (racing.run .empty).log =
      [⟨raceKey, .empty, some (.ok .authored, .empty), .ok .authored, ⟨[(raceKey, .authored)]⟩⟩,
        ⟨raceKey, .empty, some (.ok .unknown, ⟨[(raceKey, .authored)]⟩), .ok .authored,
          ⟨[(raceKey, .authored)]⟩⟩,
        ⟨raceKey, ⟨[(raceKey, .authored)]⟩, none, .ok .authored, ⟨[(raceKey, .authored)]⟩⟩] := rfl
  obtain ⟨hlawful, -, hequal, hsize⟩ := first_verdict_stays racing
  rw [hlog] at hlawful hequal
  have hstatus := hequal _ (by simp) _ (List.mem_cons_of_mem _ List.mem_cons_self) rfl
    .authored .authored rfl rfl
  have hcount := hsize _ (List.prefix_refl _)
  have hcompleted : completedKeys (racing.run .empty).log = [raceKey, raceKey] := rfl
  rw [hcompleted] at hcount
  exact ⟨_, _, _, hlog, rfl, rfl, rfl, rfl, rfl, congrArg Except.ok hstatus,
    hlawful _ (List.mem_cons_of_mem _ List.mem_cons_self), hcount⟩

end Provenance.Cache
