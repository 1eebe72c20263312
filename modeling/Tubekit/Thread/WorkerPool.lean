import Tubekit.Lib.Monitor
import Tubekit.Thread.Dispatch

/-!
# Workers that are stopped

`worker::run`, `worker::push`, `worker::stop` and `worker_pool::stop`, step by step between the
accesses to what threads share: the queue behind its mutex, `stop_flag` and `m_stoped`. The main
thread stops the workers one after the other when the server stops (`server::on_stop`), while other
threads are inside `do_task`. A task that a worker runs may call `do_task` too; such a call is a
caller of its own.
-/

namespace Tubekit

open Lib Transition

/-! ## Waiting in `pop` -/

namespace TaskQueue

open Monitor

/-- The queue behind its mutex: a step comes with the gids that the tasks have then. -/
def guarded : Guarded TaskQueue (Nat → Nat) ((Nat → Nat) × Option Nat) where
  ready q := !q.task.isEmpty
  take q gid := (q.pop gid).map Prod.snd
  give q pushed := some (q.push pushed.1 pushed.2).2

/-- `push` wakes the waiting workers before it unlocks the mutex, whether it takes the task or not. -/
def discipline : Discipline where
  waits := true
  deferred := false

/-- Threads that push and pop. -/
def monitor (θ : Type) [DecidableEq θ] :
    System (Monitor.State TaskQueue θ) (Monitor.Action (Nat → Nat) ((Nat → Nat) × Option Nat) θ) :=
  Monitor.system guarded discipline (· = new)

theorem pop_of_ne_nil {q : TaskQueue} (h : q.task ≠ []) (gid : Nat → Nat) :
    ∃ popped, q.pop gid = some popped := by
  unfold pop
  split
  · rename_i hq
    exact absurd hq h
  · exact ⟨_, rfl⟩
  · exact ⟨_, rfl⟩

theorem task_of_pop {q q' : TaskQueue} {gid : Nat → Nat} {task : Option Nat}
    (h : q.pop gid = some (task, q')) : q.task = task :: q'.task := by
  unfold pop at h
  split at h
  · cases h
  · rename_i rest hq
    cases h
    exact hq
  · rename_i t rest hq
    cases h
    exact hq

/-- **No push is missed.** A worker that waits in `pop` waits because the queue is empty, and when
something is pushed all workers are awake, in any order of the threads and with any number of
wake-ups without a reason. -/
theorem waits_while_empty {θ : Type} [DecidableEq θ] {s : Monitor.State TaskQueue θ}
    (hreach : (monitor θ).Reachable s) :
    (∀ t, s.asleep t = true → s.shared.task = []) ∧
    ∀ t gid task, s.asleep t = false → ∃ s', (monitor θ).next s (.give t (gid, task)) = some s' ∧
      s'.shared = (s.shared.push gid task).2 ∧ ∀ u, s'.asleep u = false := by
  have howing := owing_eq (d := discipline) rfl hreach
  constructor
  · intro t hasleep
    have hnothing := nothing_for_sleepers hreach howing hasleep
    change (!s.shared.task.isEmpty) = false at hnothing
    rw [Bool.not_eq_false', List.isEmpty_iff] at hnothing
    exact hnothing
  · intro t gid task hawake
    have hfree : (s.asleep t || s.owing t) = false := by rw [hawake, howing t, Bool.or_false]
    refine ⟨{ s with shared := (s.shared.push gid task).2, asleep := fun _ => false }, ?_, rfl,
      fun _ => rfl⟩
    exact (if_neg (by simp [hfree])).trans rfl

theorem waits_while_empty_one : ∃ s : Monitor.State TaskQueue Nat, (monitor Nat).Reachable s ∧
    s.asleep 0 = true ∧ s.shared.task = [] := by
  let start : Monitor.State TaskQueue Nat :=
    { shared := new, asleep := fun _ => false, owing := fun _ => false }
  have hstart : (monitor Nat).Reachable start := .start ⟨rfl, fun _ => rfl, fun _ => rfl⟩
  obtain ⟨s, hexec, hasleep⟩ : ∃ s, (monitor Nat).exec start [.enter 0 fun t => t] = some s ∧
      s.asleep 0 = true := ⟨_, rfl, rfl⟩
  have hreach := hstart.run (.of_exec hexec)
  exact ⟨s, hreach, hasleep, (waits_while_empty hreach).1 0 hasleep⟩

end TaskQueue

/-! ## The threads -/

/-- Where a thread is in `worker::run`. -/
inductive ThreadPc where
  /-- The thread has not begun yet. -/
  | created
  | popping
  | popped (task : Option Nat)
  | running (task : Nat)
  /-- `run` has returned, the task has not been destroyed. -/
  | finished (task : Nat)
  /-- Out of the loop, with what was popped last. -/
  | exited (task : Option Nat)
  deriving DecidableEq

/-- `worker`. -/
structure Worker where
  queue : TaskQueue
  stopFlag : Bool
  stoped : Bool
  pc : ThreadPc

/-- What a worker does on its own. -/
inductive Work where
  | start
  | pop
  | check
  | finish
  | destroy
  deriving DecidableEq

namespace Worker

def new : Worker := { queue := .new, stopFlag := false, stoped := true, pc := .created }

/-- One step of `run`. With an empty queue `pop` waits. -/
def act (gid : Nat → Nat) (v : Worker) : Work → Option Worker
  | .start =>
    match v.pc with
    | .created => some { v with stoped := false, pc := .popping }
    | _ => none
  | .pop =>
    match v.pc with
    | .popping => (v.queue.pop gid).map fun (task, queue) => { v with queue, pc := .popped task }
    | _ => none
  | .check =>
    match v.pc with
    | .popped none => some { v with stoped := true, pc := .exited none }
    | .popped (some t) =>
      some (if v.stopFlag then { v with stoped := true, pc := .exited (some t) }
        else { v with pc := .running t })
    | _ => none
  | .finish =>
    match v.pc with
    | .running t => some { v with pc := .finished t }
    | _ => none
  | .destroy =>
    match v.pc with
    | .finished _ => some { v with pc := .popping }
    | _ => none

/-- What the task queue has after a `push`. -/
def push (gid : Nat → Nat) (v : Worker) (task : Option Nat) : Worker :=
  { v with queue := (v.queue.push gid task).2 }

/-- The task that the worker begins to run. -/
def begins (v : Worker) : Work → Option Nat
  | .check =>
    match v.pc with
    | .popped (some t) => if v.stopFlag then none else some t
    | _ => none
  | _ => none

/-- The task that the worker gives back to the pool. -/
def releases (v : Worker) : Work → Option Nat
  | .destroy =>
    match v.pc with
    | .finished t => some t
    | _ => none
  | _ => none

end Worker

/-- Where a thread is in `do_task`. -/
inductive PushPc where
  | idle
  /-- `task_mgr::create` has taken the object from the pool for this gid. -/
  | allocated (task gid : Nat)
  | created (task gid : Nat)
  /-- `push` has seen that the worker is not stopped. -/
  | admitted (task gid : Nat)
  /-- The task is not in the queue and has to be destroyed. -/
  | refused (task : Nat)
  deriving DecidableEq

/-- Where the main thread is in `worker::stop`: before the check of `stop_flag` in `push`, before the
queue takes the `nullptr`, before `stop_flag` is set, and in the loop that waits for `m_stoped`. -/
inductive StopStage where
  | check
  | push
  | flag
  | wait
  deriving DecidableEq

/-- Where the main thread is in `worker_pool::stop`. -/
inductive StopPc where
  | idle
  | stopping (worker : Nat) (stage : StopStage) (rest : List Nat)
  | returned
  deriving DecidableEq

/-- The main thread goes to the next worker of the map. -/
def StopPc.next : List Nat → StopPc
  | [] => .returned
  | w :: rest => .stopping w .check rest

structure WorkerPool where
  gid : Nat → Nat
  pool : Finset Nat
  worker : Nat → Worker
  caller : Nat → PushPc
  stopper : StopPc
  /-- The tasks that were run, with the workers that ran them. -/
  ran : List (Nat × Nat)

namespace WorkerPool

inductive Action where
  | allocate (caller task gid : Nat)
  | setGid (caller : Nat)
  | readFlag (caller : Nat)
  | assign (caller : Nat)
  | destroyRefused (caller : Nat)
  | work (worker : Nat) (step : Work)
  /-- `worker_pool::stop`, with the order in which the map gives the workers. -/
  | stop (order : List Nat)
  | stopStep
  deriving DecidableEq

/-- One step of `worker::stop` and of the loop over the workers. -/
def stopStep (s : WorkerPool) (w : Nat) (rest : List Nat) : StopStage → Option WorkerPool
  | .check =>
    some { s with stopper := .stopping w (if (s.worker w).stopFlag then .flag else .push) rest }
  | .push =>
    some { s with
      worker := Function.update s.worker w ((s.worker w).push s.gid none)
      stopper := .stopping w .flag rest }
  | .flag =>
    some { s with
      worker := Function.update s.worker w { s.worker w with stopFlag := true }
      stopper := .stopping w .wait rest }
  | .wait => if (s.worker w).stoped then some { s with stopper := .next rest } else none

/-- One step with `n` workers. -/
def next (n : Nat) (s : WorkerPool) : Action → Option WorkerPool
  | .allocate c t g =>
    if s.caller c = .idle ∧ t ∈ s.pool then
      some { s with
        pool := s.pool.erase t
        caller := Function.update s.caller c (.allocated t g) }
    else none
  | .setGid c =>
    match s.caller c with
    | .allocated t g =>
      some { s with
        gid := Function.update s.gid t g
        caller := Function.update s.caller c (.created t g) }
    | _ => none
  | .readFlag c =>
    match s.caller c with
    | .created t g =>
      some { s with
        caller := Function.update s.caller c
          (if (s.worker (s.gid t % n)).stopFlag then .refused t else .admitted t g) }
    | _ => none
  | .assign c =>
    match s.caller c with
    | .admitted t _ =>
      let w := s.gid t % n
      some { s with
        worker := Function.update s.worker w ((s.worker w).push s.gid (some t))
        caller := Function.update s.caller c
          (if ((s.worker w).queue.push s.gid (some t)).1 then .idle else .refused t) }
    | _ => none
  | .destroyRefused c =>
    match s.caller c with
    | .refused t =>
      some { s with pool := insert t s.pool, caller := Function.update s.caller c .idle }
    | _ => none
  | .work w step =>
    if w < n then
      ((s.worker w).act s.gid step).map fun v => { s with
        pool := match (s.worker w).releases step with
          | some t => insert t s.pool
          | none => s.pool
        worker := Function.update s.worker w v
        ran := match (s.worker w).begins step with
          | some t => s.ran ++ [(w, t)]
          | none => s.ran }
    else none
  | .stop order =>
    if s.stopper = .idle ∧ order.Perm (List.range n) then some { s with stopper := .next order }
    else none
  | .stopStep =>
    match s.stopper with
    | .stopping w stage rest => s.stopStep w rest stage
    | _ => none

/-- All task objects are in the pool and the threads have not begun. -/
def start (objects : Finset Nat) (gid : Nat → Nat) : WorkerPool :=
  { gid
    pool := objects
    worker := fun _ => .new
    caller := fun _ => .idle
    stopper := .idle
    ran := [] }

def system (n : Nat) (objects : Finset Nat) : System WorkerPool Action where
  init s := ∃ gid, s = start objects gid
  next := next n

end WorkerPool

end Tubekit
