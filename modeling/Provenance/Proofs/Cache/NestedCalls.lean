import Provenance.Proofs.Scan.Classification

/-!
Calls of one cache whose computations make further calls of it, to any depth. A script says what a
caller does: it makes a call, goes on as the result tells, and ends with an outcome; the computation
of a call is a script too. A run logs each call when it is made and when it returns, with the cache
at that moment. Whatever the script is, one moment follows another in one of four ways. Requests that
do not look at results are scripts, and leave the same cache.
-/
namespace Provenance.Cache

/-- What is done with a cache: a call, and what comes after its result, until there is an outcome. -/
inductive Script
  | done (outcome : Except Fault Status)
  | call (key : Key) (compute : Script) (next : Except Fault Status → Script)

/-- A call that has returned. If it has run its computation, the outcome of that is kept, and the cache
as the computation has left it. -/
structure Call where
  key : Key
  before : Cache
  computation : Option (Except Fault Status × Cache)
  result : Except Fault Status
  after : Cache

inductive Event
  | made (key : Key)
  | returned (call : Call)

/-- An event and the cache right after it. -/
structure Moment where
  event : Event
  cache : Cache

namespace Moment

/-- The call that returns at this moment. -/
def returned? (m : Moment) : Option Call :=
  match m.event with
  | .made _ => none
  | .returned call => some call

/-- The key whose verdict has been computed when the call returns. -/
def completed? (m : Moment) : Option Key :=
  match m.event with
  | .returned ⟨key, _, some (.ok _, _), _, _⟩ => some key
  | _ => none

end Moment

/-- What a script has done: the moments in their order, the outcome, and the cache that it leaves. -/
structure Run where
  log : List Moment
  outcome : Except Fault Status
  cache : Cache

/-- A run that begins with a call, after the moments of its computation. -/
def Run.prepend (inner : List Moment) (call : Call) (rest : Run) : Run :=
  ⟨⟨.made call.key, call.before⟩ :: inner ++ ⟨.returned call, call.after⟩ :: rest.log,
    rest.outcome, rest.cache⟩

/-- The computation that a call is given. It leaves its run beside the cache. -/
def recorded (run : Cache → Run) : Caching (Option Run) Status := do
  let (cache, _) ← get
  set ((run cache).cache, some (run cache))
  match (run cache).outcome with
  | .ok status => pure status
  | .error fault => throw fault

/-- Runs a script on a cache. -/
def Script.run (cache : Cache) : Script → Run
  | .done outcome => ⟨[], outcome, cache⟩
  | .call key compute next =>
    let (result, after, inner) :=
      (getOrCompute key (recorded fun cache => compute.run cache)).run (cache, none)
    .prepend ((inner.map Run.log).getD [])
      ⟨key, cache, inner.map fun r => (r.outcome, r.cache), result, after⟩ ((next result).run after)

/-- The script of requests that are made one after the other. -/
def Script.ofRequests (last : Except Fault Status) : List Request → Script
  | [] => .done last
  | .mk key nested outcome :: requests =>
    .call key (ofRequests outcome nested) fun _ => ofRequests last requests

section

variable {key : Key} {compute : Script} {next : Except Fault Status → Script} {cache : Cache}

theorem run_recorded (run : Cache → Run) (cache : Cache) (inner : Option Run) :
    (recorded run).run (cache, inner) = ((run cache).outcome, (run cache).cache, some (run cache)) := by
  have hget : (get : Caching (Option Run) (Cache × Option Run)).run (cache, inner) =
      (.ok (cache, inner), cache, inner) := rfl
  rw [recorded, run_bind, hget]
  cases h : (run cache).outcome <;> simp only [h] <;> rfl

theorem run_call_of_hit {hit : Status} (h : cache.find? key = some hit) :
    (Script.call key compute next).run cache =
      .prepend [] ⟨key, cache, none, .ok hit, cache⟩ ((next (.ok hit)).run cache) := by
  rw [Script.run, Scan.run_getOrCompute]
  simp only [h]
  rfl

theorem run_call_of_failed {fault : Fault} (h : cache.find? key = none)
    (houtcome : (compute.run cache).outcome = .error fault) :
    (Script.call key compute next).run cache =
      .prepend (compute.run cache).log
        ⟨key, cache, some (.error fault, (compute.run cache).cache), .error fault,
          (compute.run cache).cache⟩
        ((next (.error fault)).run (compute.run cache).cache) := by
  rw [Script.run, Scan.run_getOrCompute, run_recorded]
  simp only [h, houtcome, Option.map_some, Option.getD_some]

theorem run_call_of_completed {status : Status} (h : cache.find? key = none)
    (houtcome : (compute.run cache).outcome = .ok status) :
    (Script.call key compute next).run cache =
      .prepend (compute.run cache).log
        ⟨key, cache, some (.ok status, (compute.run cache).cache),
          .ok ((compute.run cache).cache.insertNew key status).1,
          ((compute.run cache).cache.insertNew key status).2⟩
        ((next (.ok ((compute.run cache).cache.insertNew key status).1)).run
          ((compute.run cache).cache.insertNew key status).2) := by
  rw [Script.run, Scan.run_getOrCompute, run_recorded]
  simp only [h, houtcome, Option.map_some, Option.getD_some]

end

/-- The four ways in which a moment can follow a cache. A computation is run only if there was nothing
under the key when the call was made, and its verdict is stored only if there is nothing there now. -/
inductive Follows (now : Cache) : Moment → Prop
  | made (key : Key) : Follows now ⟨.made key, now⟩
  | hit (key : Key) (stored : Status) (h : now.find? key = some stored) :
      Follows now ⟨.returned ⟨key, now, none, .ok stored, now⟩, now⟩
  | failed (key : Key) (before : Cache) (fault : Fault) (h : before.find? key = none) :
      Follows now ⟨.returned ⟨key, before, some (.error fault, now), .error fault, now⟩, now⟩
  | completed (key : Key) (before : Cache) (status : Status) (h : before.find? key = none) :
      Follows now ⟨.returned ⟨key, before, some (.ok status, now), .ok (now.insertNew key status).1,
        (now.insertNew key status).2⟩, (now.insertNew key status).2⟩

/-- The cache after some moments. -/
def cacheAfter (start : Cache) (log : List Moment) : Cache :=
  log.foldl (fun _ m => m.cache) start

/-- Each moment follows the cache of the one before it. -/
def Consecutive : Cache → List Moment → Prop
  | _, [] => True
  | now, m :: log => Follows now m ∧ Consecutive m.cache log

theorem consecutive_append (start : Cache) (log log' : List Moment) :
    Consecutive start (log ++ log') ↔
      Consecutive start log ∧ Consecutive (cacheAfter start log) log' := by
  induction log generalizing start with
  | nil => simp [Consecutive, cacheAfter]
  | cons m log ih =>
    rw [List.cons_append, Consecutive, Consecutive, ih, and_assoc]
    rfl

/-- A run is consecutive, and leaves the cache of its last moment, if its parts do. -/
theorem consecutive_prepend {now : Cache} {inner : List Moment} {call : Call} {rest : Run}
    (hbefore : call.before = now) (hinner : Consecutive now inner)
    (hreturn : Follows (cacheAfter now inner) ⟨.returned call, call.after⟩)
    (hrest : Consecutive call.after rest.log ∧ rest.cache = cacheAfter call.after rest.log) :
    Consecutive now (Run.prepend inner call rest).log ∧
      (Run.prepend inner call rest).cache = cacheAfter now (Run.prepend inner call rest).log := by
  subst hbefore
  constructor
  · show Consecutive call.before (_ :: (inner ++ _))
    rw [Consecutive, consecutive_append]
    exact ⟨Follows.made call.key, hinner, hreturn, hrest.1⟩
  · show rest.cache = List.foldl _ _ (_ :: (inner ++ _))
    rw [List.foldl_cons, List.foldl_append, List.foldl_cons]
    exact hrest.2

/-- Every run is consecutive, by induction on the script: a call comes with the moments of its
computation, which is a smaller script. -/
theorem consecutive_run (script : Script) (cache : Cache) :
    Consecutive cache (script.run cache).log ∧
      (script.run cache).cache = cacheAfter cache (script.run cache).log := by
  induction script generalizing cache with
  | done outcome => exact ⟨trivial, rfl⟩
  | call key compute next ihCompute ihNext =>
    obtain ⟨hinner, hended⟩ := ihCompute cache
    cases hfind : cache.find? key with
    | some hit =>
      rw [run_call_of_hit hfind]
      exact consecutive_prepend rfl trivial (Follows.hit key hit hfind) (ihNext _ cache)
    | none =>
      cases houtcome : (compute.run cache).outcome with
      | error fault =>
        rw [run_call_of_failed hfind houtcome]
        refine consecutive_prepend rfl hinner ?_ (ihNext _ _)
        rw [← hended]
        exact Follows.failed key cache fault hfind
      | ok status =>
        rw [run_call_of_completed hfind houtcome]
        refine consecutive_prepend rfl hinner ?_ (ihNext _ _)
        rw [← hended]
        exact Follows.completed key cache status hfind

theorem run_request (cache : Cache) (key : Key) (nested : List Request)
    (outcome : Except Fault Status) :
    (request cache (.mk key nested outcome)).2 =
      match cache.find? key with
      | some _ => cache
      | none =>
        match outcome with
        | .error _ => (requestAll cache nested).2
        | .ok status => ((requestAll cache nested).2.insertNew key status).2 := by
  unfold request
  simp only [Scan.run_getOrCompute]
  cases cache.find? key with
  | some hit => rfl
  | none => cases outcome <;> rfl

/-- Requests leave the cache that their script leaves. -/
theorem run_ofRequests (requests : List Request) (last : Except Fault Status) (cache : Cache) :
    ((Script.ofRequests last requests).run cache).outcome = last ∧
      ((Script.ofRequests last requests).run cache).cache = (requestAll cache requests).2 := by
  fun_induction Script.ofRequests last requests generalizing cache with
  | case1 last =>
    rw [requestAll]
    exact ⟨rfl, rfl⟩
  | case2 last key nested outcome requests ihNested ihRequests =>
    have hall : (requestAll cache (.mk key nested outcome :: requests)).2 =
        (requestAll (request cache (.mk key nested outcome)).2 requests).2 := by
      rw [requestAll]
    obtain ⟨houtcome, hcache⟩ := ihNested cache
    rw [hall, run_request]
    cases hfind : cache.find? key with
    | some hit =>
      rw [run_call_of_hit hfind]
      exact ihRequests cache
    | none =>
      rw [← hcache]
      cases outcome with
      | error fault =>
        rw [run_call_of_failed hfind houtcome]
        exact ihRequests _
      | ok status =>
        rw [run_call_of_completed hfind houtcome]
        exact ihRequests _

end Provenance.Cache
