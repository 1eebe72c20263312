import Mathlib.Data.Finset.Basic
import Mathlib.Data.List.ReduceOption
import Tubekit.Lib.Transition

/-!
# Dispatch of tasks

`socket_handler::do_task` takes a task object from the pool, gives it the gid and assigns it
to the worker of the gid (`worker_pool::assign`); the queue of the worker drops it if a task of
the same gid is already in it (`task_queue::push`), and the object goes back to the pool. A
worker pops a task, runs it and returns the object (`worker::run`).

Threads are numbers and their calls interleave at the locks. A caller is a thread inside
`do_task`; a worker that calls `do_task` from a task it runs is a caller too. No worker is
stopped, so no `nullptr` is pushed.
-/

namespace Tubekit

open Lib.Transition

/-! ## `task_queue` -/

/-- `task_queue`. A task is the number of its object, `none` is `nullptr`. -/
structure TaskQueue where
  task : List (Option Nat)
  inTask : Finset Nat

namespace TaskQueue

def new : TaskQueue := { task := [], inTask := ∅ }

/-- `push`, where `gid` is `get_gid` of the task objects. -/
def push (gid : Nat → Nat) (q : TaskQueue) (task : Option Nat) : Bool × TaskQueue :=
  match task with
  | none => (true, { q with task := q.task ++ [none] })
  | some t =>
    if gid t ∈ q.inTask then (false, q)
    else (true, { task := q.task ++ [some t], inTask := insert (gid t) q.inTask })

/-- `pop`; with an empty queue it waits. -/
def pop (gid : Nat → Nat) (q : TaskQueue) : Option (Option Nat × TaskQueue) :=
  match q.task with
  | [] => none
  | none :: rest => some (none, { q with task := rest })
  | some t :: rest => some (some t, { task := rest, inTask := q.inTask.erase (gid t) })

/-- The tasks in the queue that are not null. -/
def tasks (q : TaskQueue) : List Nat := q.task.reduceOption

end TaskQueue

/-! ## The system -/

/-- Where a thread is in `do_task`. -/
inductive CallerPc where
  | idle
  /-- `task_mgr::create` has taken the object from the pool for this gid. -/
  | allocated (task gid : Nat)
  /-- The object has its gid. -/
  | created (task gid : Nat)
  /-- The queue did not take the object. -/
  | rejected (task : Nat)
  deriving DecidableEq

/-- Where a worker is in `worker::run`. -/
inductive WorkerPc where
  | idle
  | running (task : Nat)
  /-- `run` has returned, the object has not been returned to the pool. -/
  | finished (task : Nat)
  | stopped
  deriving DecidableEq

structure Dispatch where
  gid : Nat → Nat
  pool : Finset Nat
  queue : Nat → TaskQueue
  worker : Nat → WorkerPc
  caller : Nat → CallerPc
  /-- The tasks that each queue took, with their gids, in order. -/
  pushed : Nat → List (Nat × Nat)
  /-- The tasks that each worker popped, with their gids, in order. -/
  popped : Nat → List (Nat × Nat)

namespace Dispatch

inductive Action where
  | allocate (caller task gid : Nat)
  | setGid (caller : Nat)
  | assign (caller : Nat)
  | destroyRejected (caller : Nat)
  | pop (worker : Nat)
  | finish (worker : Nat)
  | destroy (worker : Nat)

/-- One step with `n` workers. -/
def next (n : Nat) (s : Dispatch) : Action → Option Dispatch
  | .allocate c t g =>
    if s.caller c = .idle ∧ t ∈ s.pool then
      some { s with
        pool := s.pool.erase t
        caller := Function.update s.caller c (.allocated t g) }
    else none
  | .setGid c =>
    match s.caller c with
    | .allocated t g =>
      some { s with
        gid := Function.update s.gid t g
        caller := Function.update s.caller c (.created t g) }
    | _ => none
  | .assign c =>
    match s.caller c with
    | .created t _ =>
      let w := s.gid t % n
      let (taken, q) := (s.queue w).push s.gid (some t)
      some { s with
        queue := Function.update s.queue w q
        caller := Function.update s.caller c (if taken then .idle else .rejected t)
        pushed := if taken then
          Function.update s.pushed w (s.pushed w ++ [(t, s.gid t)]) else s.pushed }
    | _ => none
  | .destroyRejected c =>
    match s.caller c with
    | .rejected t =>
      some { s with pool := insert t s.pool, caller := Function.update s.caller c .idle }
    | _ => none
  | .pop w =>
    if w < n ∧ s.worker w = .idle then
      match (s.queue w).pop s.gid with
      | none => none
      | some (none, q) =>
        some { s with
          queue := Function.update s.queue w q
          worker := Function.update s.worker w .stopped }
      | some (some t, q) =>
        some { s with
          queue := Function.update s.queue w q
          worker := Function.update s.worker w (.running t)
          popped := Function.update s.popped w (s.popped w ++ [(t, s.gid t)]) }
    else none
  | .finish w =>
    match s.worker w with
    | .running t => some { s with worker := Function.update s.worker w (.finished t) }
    | _ => none
  | .destroy w =>
    match s.worker w with
    | .finished t =>
      some { s with pool := insert t s.pool, worker := Function.update s.worker w .idle }
    | _ => none

/-- All task objects are in the pool and nothing has happened. -/
def start (objects : Finset Nat) (gid : Nat → Nat) : Dispatch :=
  { gid
    pool := objects
    queue := fun _ => .new
    worker := fun _ => .idle
    caller := fun _ => .idle
    pushed := fun _ => []
    popped := fun _ => [] }

def system (n : Nat) (objects : Finset Nat) : System Dispatch Action where
  init s := ∃ gid, s = start objects gid
  next := next n

/-! ## What a step does -/

/-- The steps of `next`, one for each outcome. -/
inductive Step (n : Nat) (s : Dispatch) : Action → Dispatch → Prop
  | allocate {c t g : Nat} (hc : s.caller c = .idle) (ht : t ∈ s.pool) :
    Step n s (.allocate c t g) { s with
      pool := s.pool.erase t
      caller := Function.update s.caller c (.allocated t g) }
  | setGid {c t g : Nat} (hc : s.caller c = .allocated t g) :
    Step n s (.setGid c) { s with
      gid := Function.update s.gid t g
      caller := Function.update s.caller c (.created t g) }
  | assignTaken {c t g : Nat} (hc : s.caller c = .created t g)
    (hnew : s.gid t ∉ (s.queue (s.gid t % n)).inTask) :
    Step n s (.assign c) { s with
      queue := Function.update s.queue (s.gid t % n)
        { task := (s.queue (s.gid t % n)).task ++ [some t]
          inTask := insert (s.gid t) (s.queue (s.gid t % n)).inTask }
      caller := Function.update s.caller c .idle
      pushed := Function.update s.pushed (s.gid t % n)
        (s.pushed (s.gid t % n) ++ [(t, s.gid t)]) }
  | assignRejected {c t g : Nat} (hc : s.caller c = .created t g)
    (hold : s.gid t ∈ (s.queue (s.gid t % n)).inTask) :
    Step n s (.assign c) { s with caller := Function.update s.caller c (.rejected t) }
  | destroyRejected {c t : Nat} (hc : s.caller c = .rejected t) :
    Step n s (.destroyRejected c) { s with
      pool := insert t s.pool
      caller := Function.update s.caller c .idle }
  | pop {w t : Nat} {rest : List (Option Nat)} (hw : w < n) (hidle : s.worker w = .idle)
    (hq : (s.queue w).task = some t :: rest) :
    Step n s (.pop w) { s with
      queue := Function.update s.queue w
        { task := rest, inTask := (s.queue w).inTask.erase (s.gid t) }
      worker := Function.update s.worker w (.running t)
      popped := Function.update s.popped w (s.popped w ++ [(t, s.gid t)]) }
  | popNull {w : Nat} {rest : List (Option Nat)} (hw : w < n) (hidle : s.worker w = .idle)
    (hq : (s.queue w).task = none :: rest) :
    Step n s (.pop w) { s with
      queue := Function.update s.queue w { s.queue w with task := rest }
      worker := Function.update s.worker w .stopped }
  | finish {w t : Nat} (hw : s.worker w = .running t) :
    Step n s (.finish w) { s with worker := Function.update s.worker w (.finished t) }
  | destroy {w t : Nat} (hw : s.worker w = .finished t) :
    Step n s (.destroy w) { s with
      pool := insert t s.pool
      worker := Function.update s.worker w .idle }

theorem step_of_next {n : Nat} {s s' : Dispatch} {a : Action} (h : next n s a = some s') :
    Step n s a s' := by
  cases a with
  | allocate c t g =>
    simp only [next] at h
    split at h
    · rename_i hguard
      cases h
      exact .allocate hguard.1 hguard.2
    · cases h
  | setGid c =>
    simp only [next] at h
    split at h
    · cases h
      exact .setGid (by assumption)
    · cases h
  | assign c =>
    simp only [next] at h
    split at h
    · rename_i t g hc
      by_cases hold : s.gid t ∈ (s.queue (s.gid t % n)).inTask
      · simp only [TaskQueue.push, hold, if_true, Function.update_eq_self, Bool.false_eq_true,
          if_false] at h
        cases h
        exact .assignRejected hc hold
      · simp only [TaskQueue.push, hold, if_false, if_true] at h
        cases h
        exact .assignTaken hc hold
    · cases h
  | destroyRejected c =>
    simp only [next] at h
    split at h
    · cases h
      exact .destroyRejected (by assumption)
    · cases h
  | pop w =>
    simp only [next] at h
    split at h
    · rename_i hguard
      cases hq : (s.queue w).task with
      | nil => simp [TaskQueue.pop, hq] at h
      | cons front rest =>
        cases front with
        | none =>
          simp only [TaskQueue.pop, hq] at h
          cases h
          exact .popNull hguard.1 hguard.2 hq
        | some t =>
          simp only [TaskQueue.pop, hq] at h
          cases h
          exact .pop hguard.1 hguard.2 hq
    · cases h
  | finish w =>
    simp only [next] at h
    split at h
    · cases h
      exact .finish (by assumption)
    · cases h
  | destroy w =>
    simp only [next] at h
    split at h
    · cases h
      exact .destroy (by assumption)
    · cases h

end Dispatch

end Tubekit
