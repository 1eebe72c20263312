import Tubekit.Thread.Shutdown
import Tubekit.Thread.TaskCustody

/-!
# The task objects through the stop

Until the main thread begins to stop the workers, the pool of workers does what `Dispatch` does
(`view`), so what holds of its reachable states holds here. Through the stop every task object stays
at one place. What a worker leaves in its queue, and what it has popped when it leaves the loop, is
not destroyed any more: it stays where it is.
-/

namespace Tubekit

open Lib.Transition

namespace ThreadPc

/-- The task object that the worker has. -/
def task : ThreadPc → Option Nat
  | .popped task => task
  | .running t => some t
  | .finished t => some t
  | .exited task => task
  | _ => none

/-- The worker as `Dispatch` has it. -/
def view : ThreadPc → WorkerPc
  | .popped (some t) => .running t
  | .running t => .running t
  | .finished t => .finished t
  | .popped none => .stopped
  | .exited _ => .stopped
  | _ => .idle

end ThreadPc

namespace PushPc

/-- The task object that the caller has. -/
def task : PushPc → Option Nat
  | .idle => none
  | .allocated t _ => some t
  | .created t _ => some t
  | .admitted t _ => some t
  | .refused t => some t

/-- The caller as `Dispatch` has it. -/
def view : PushPc → CallerPc
  | .idle => .idle
  | .allocated t g => .allocated t g
  | .created t g => .created t g
  | .admitted t g => .created t g
  | .refused t => .rejected t

end PushPc

namespace Worker

/-- What is true of a worker of which nobody has pushed a `nullptr`. -/
structure Going (v : Worker) : Prop where
  untold : v.stopFlag = false
  tasks : none ∉ v.queue.task
  popped : v.pc ≠ .popped none ∧ ∀ task, v.pc ≠ .exited task

variable {gid : Nat → Nat} {v v' : Worker}

theorem going_new : new.Going where
  untold := rfl
  tasks := List.not_mem_nil
  popped := by simp [new]

theorem Going.push (h : v.Going) (t : Nat) : (v.push gid (some t)).Going := by
  refine ⟨h.untold, ?_, h.popped⟩
  by_cases hold : gid t ∈ v.queue.inTask
  · simpa only [Worker.push, TaskQueue.push, if_pos hold] using h.tasks
  · simp only [Worker.push, TaskQueue.push, if_neg hold, List.mem_append, List.mem_singleton,
      reduceCtorEq, or_false]
    exact h.tasks

theorem Going.act {step : Work} (h : v.Going) (hact : v.act gid step = some v') : v'.Going := by
  rcases act_cases hact with ⟨-, hpc, rfl⟩ | ⟨task, queue, -, hpc, -, hq, rfl⟩ |
    ⟨task, -, hpc, htold, rfl⟩ | ⟨t, -, hpc, -, rfl⟩ | ⟨t, -, hpc, rfl⟩ | ⟨t, -, hpc, rfl⟩
  · exact ⟨h.untold, h.tasks, by simp⟩
  · have htasks := h.tasks
    rw [hq, List.mem_cons, not_or] at htasks
    exact ⟨h.untold, htasks.2, by simpa using Ne.symm htasks.1⟩
  · rw [h.untold] at htold
    obtain rfl := htold.resolve_right Bool.false_ne_true
    exact absurd hpc h.popped.1
  · exact ⟨h.untold, h.tasks, by simp⟩
  · exact ⟨h.untold, h.tasks, by simp⟩
  · exact ⟨h.untold, h.tasks, by simp⟩

theorem nodup_push {task : Option Nat} (h : v.queue.tasks.Nodup)
    (hnew : ∀ t, task = some t → t ∉ v.queue.tasks) : (v.push gid task).queue.tasks.Nodup := by
  cases task with
  | none =>
    have htasks : (v.push gid none).queue.tasks = v.queue.tasks := by
      simp [push, TaskQueue.push, TaskQueue.tasks, List.reduceOption_append,
        List.reduceOption_singleton]
    rw [htasks]
    exact h
  | some t =>
    by_cases hold : gid t ∈ v.queue.inTask
    · simpa only [push, TaskQueue.push, if_pos hold] using h
    · simp only [push, TaskQueue.push, if_neg hold, TaskQueue.tasks_push]
      rw [List.nodup_append]
      refine ⟨h, List.nodup_singleton t, ?_⟩
      intro u hu t' ht' heq
      rw [List.mem_singleton] at ht'
      rw [heq, ht'] at hu
      exact hnew t rfl hu

theorem nodup_act {step : Work} (h : v.queue.tasks.Nodup) (hact : v.act gid step = some v') :
    v'.queue.tasks.Nodup := by
  rcases act_cases hact with ⟨-, -, rfl⟩ | ⟨task, queue, -, -, -, hq, rfl⟩ | ⟨_, -, -, -, rfl⟩ |
    ⟨_, -, -, -, rfl⟩ | ⟨_, -, -, rfl⟩ | ⟨_, -, -, rfl⟩
  · exact h
  · cases task with
    | none => rwa [TaskQueue.tasks_popNull hq queue.inTask] at h
    | some t =>
      rw [TaskQueue.tasks_pop hq queue.inTask] at h
      exact h.of_cons
  · exact h
  · exact h
  · exact h
  · exact h

end Worker

namespace WorkerPool

variable {n : Nat} {objects : Finset Nat} {s s' : WorkerPool} {a : Action} {d : Dispatch}

/-! ## Before the stop -/

/-- The state as `Dispatch` has it, with what `Dispatch` remembers. -/
def view (s : WorkerPool) (pushed popped : Nat → List (Nat × Nat)) : Dispatch where
  gid := s.gid
  pool := s.pool
  queue w := (s.worker w).queue
  worker w := (s.worker w).pc.view
  caller c := (s.caller c).view
  pushed := pushed
  popped := popped

/-- Nobody has been told to stop, and no `nullptr` was pushed. -/
structure Going (s : WorkerPool) : Prop where
  idle : s.stopper = .idle
  worker : ∀ w, (s.worker w).Going

theorem going_start (gid : Nat → Nat) : Going (start objects gid) where
  idle := rfl
  worker _ := Worker.going_new

theorem going_next (hgoing : Going s) (hidle : s'.stopper = .idle)
    (hnext : next n s a = some s') : Going s' := by
  refine ⟨hidle, ?_⟩
  intro w
  rcases next_cases hnext with ⟨-, -, -, -, hsame | ⟨w', task, ⟨c, t, g, -, rfl⟩, hworker⟩⟩ |
    ⟨w', step, v, -, -, hact, -, hworker, -⟩ | ⟨order, -, -, -, rfl⟩ |
    ⟨w', stage, rest, -, hstopper, -⟩
  · rw [hsame]
    exact hgoing.worker w
  · rw [hworker]
    by_cases heq : w = w'
    · subst heq
      rw [Function.update_self]
      exact (hgoing.worker w).push t
    · rw [Function.update_of_ne heq]
      exact hgoing.worker w
  · rw [hworker]
    by_cases heq : w = w'
    · subst heq
      rw [Function.update_self]
      exact (hgoing.worker w).act hact
    · rw [Function.update_of_ne heq]
      exact hgoing.worker w
  · exact hgoing.worker w
  · cases hgoing.idle.symm.trans hstopper

variable {pushed popped : Nat → List (Nat × Nat)}

/-- What the other model does for a step, if it does anything. -/
def Simulated (n : Nat) (s s' : WorkerPool) : Prop :=
  ∀ pushed popped, view s' pushed popped = view s pushed popped ∨
    ∃ b pushed' popped', Dispatch.next n (view s pushed popped) b = some (view s' pushed' popped')

theorem view_caller (c : Nat) (pc : PushPc) :
    (fun c' => (Function.update s.caller c pc c').view) =
      Function.update (fun c' => (s.caller c').view) c pc.view :=
  Function.comp_update PushPc.view s.caller c pc

theorem view_pc (w : Nat) (v : Worker) :
    (fun w' => (Function.update s.worker w v w').pc.view) =
      Function.update (fun w' => (s.worker w').pc.view) w v.pc.view :=
  Function.comp_update (fun v : Worker => v.pc.view) s.worker w v

theorem view_queue (w : Nat) (v : Worker) :
    (fun w' => (Function.update s.worker w v w').queue) =
      Function.update (fun w' => (s.worker w').queue) w v.queue :=
  Function.comp_update Worker.queue s.worker w v

theorem queue_same (w : Nat) : Function.update (fun w' => (s.worker w').queue) w
    (s.worker w).queue = fun w' => (s.worker w').queue := Function.update_eq_self w _

theorem pc_same (w : Nat) : Function.update (fun w' => (s.worker w').pc.view) w
    (s.worker w).pc.view = fun w' => (s.worker w').pc.view := Function.update_eq_self w _

/-- A step of a worker that does not show in `Dispatch`. -/
theorem view_update {w : Nat} {v : Worker} (ran : List (Nat × Nat))
    (hqueue : v.queue = (s.worker w).queue) (hpc : v.pc.view = (s.worker w).pc.view) :
    view { s with worker := Function.update s.worker w v, ran } pushed popped =
      view s pushed popped := by
  simp only [view, view_queue, view_pc, hqueue, hpc, queue_same, pc_same]

theorem simulated_work {w : Nat} {step : Work} (hgoing : Going s)
    (hnext : next n s (.work w step) = some s') : Simulated n s s' := by
  intro pushed popped
  obtain ⟨hw, hnext⟩ := Option.ite_none_right_eq_some.mp hnext
  obtain ⟨v, hact, rfl⟩ := Option.map_eq_some_iff.mp hnext
  rcases Worker.act_cases hact with ⟨rfl, hpc, rfl⟩ | ⟨task, queue, rfl, hpc, hpop, hq, rfl⟩ |
    ⟨task, rfl, hpc, htold, rfl⟩ | ⟨t, rfl, hpc, -, rfl⟩ | ⟨t, rfl, hpc, rfl⟩ | ⟨t, rfl, hpc, rfl⟩
  · exact Or.inl (view_update _ rfl (by rw [hpc]; rfl))
  · cases task with
    | none =>
      refine absurd ?_ ((hgoing.worker w).tasks)
      rw [hq]
      exact List.mem_cons_self
    | some t =>
      refine Or.inr ⟨.pop w, pushed, Function.update popped w (popped w ++ [(t, s.gid t)]), ?_⟩
      have hidle : (s.worker w).pc.view = .idle := by
        rw [hpc]
        rfl
      simp only [Dispatch.next, view, view_queue, view_pc, hidle, hw, hpop, and_self, if_true]
      rfl
  · have hnone : task = none := by
      refine htold.resolve_right ?_
      rw [(hgoing.worker w).untold]
      exact Bool.false_ne_true
    subst hnone
    exact absurd hpc (hgoing.worker w).popped.1
  · exact Or.inl (view_update _ rfl (by rw [hpc]; rfl))
  · refine Or.inr ⟨.finish w, pushed, popped, ?_⟩
    have hrunning : (s.worker w).pc.view = .running t := by
      rw [hpc]
      rfl
    simp only [Dispatch.next, view, view_queue, view_pc, hrunning, queue_same]
    rfl
  · refine Or.inr ⟨.destroy w, pushed, popped, ?_⟩
    simp only [Dispatch.next, view, view_queue, view_pc, queue_same, Worker.releases, hpc]
    rfl

theorem simulated_next (hgoing : Going s) (hidle : s'.stopper = .idle)
    (hnext : next n s a = some s') : Simulated n s s' := by
  intro pushed popped
  cases a with
  | allocate c t g =>
    obtain ⟨⟨hc, ht⟩, hnext⟩ := Option.ite_none_right_eq_some.mp hnext
    cases hnext
    refine Or.inr ⟨.allocate c t g, pushed, popped, ?_⟩
    have hc' : (view s pushed popped).caller c = .idle := congrArg PushPc.view hc
    have ht' : t ∈ (view s pushed popped).pool := ht
    rw [Dispatch.next, if_pos ⟨hc', ht'⟩]
    simp only [view, view_caller]
    rfl
  | setGid c =>
    simp only [next] at hnext
    split at hnext
    · rename_i t g hc
      cases hnext
      refine Or.inr ⟨.setGid c, pushed, popped, ?_⟩
      simp only [Dispatch.next, view, hc, view_caller]
      rfl
    · cases hnext
  | readFlag c =>
    simp only [next] at hnext
    split at hnext
    · rename_i t g hc
      cases hnext
      left
      have hsame : (s.caller c).view = PushPc.view (.admitted t g) := by rw [hc]; rfl
      simp only [view, (hgoing.worker _).untold, Bool.false_eq_true, if_false, view_caller, ← hsame,
        Function.update_eq_self]
    · cases hnext
  | assign c =>
    simp only [next] at hnext
    split at hnext
    · rename_i t g hc
      cases hnext
      -- what `Dispatch` remembers of the push
      obtain ⟨w, hw⟩ : ∃ w, w = s.gid t % n := ⟨_, rfl⟩
      obtain ⟨taken, htaken⟩ : ∃ taken, taken = ((s.worker w).queue.push s.gid (some t)).1 :=
        ⟨_, rfl⟩
      refine Or.inr ⟨.assign c,
        if taken then Function.update pushed w (pushed w ++ [(t, s.gid t)]) else pushed, popped, ?_⟩
      have hcaller : (s.caller c).view = .created t g := by
        rw [hc]
        rfl
      have hafter : PushPc.view (if taken then .idle else .refused t) =
          if taken then .idle else .rejected t := by
        cases taken <;> rfl
      simp only [Dispatch.next, view, hcaller, ← hw, ← htaken, view_caller, view_queue, view_pc,
        Worker.push, pc_same, hafter]
    · cases hnext
  | destroyRefused c =>
    simp only [next] at hnext
    split at hnext
    · rename_i t hc
      cases hnext
      refine Or.inr ⟨.destroyRejected c, pushed, popped, ?_⟩
      simp only [Dispatch.next, view, hc, view_caller]
      rfl
    · cases hnext
  | work w step =>
    exact simulated_work hgoing hnext pushed popped
  | stop order =>
    obtain ⟨-, hnext⟩ := Option.ite_none_right_eq_some.mp hnext
    cases hnext
    cases order <;> cases hidle
  | stopStep =>
    simp only [next, hgoing.idle] at hnext
    cases hnext

/-- **The stop adds nothing before it begins.** While the main thread has not begun to stop the
workers, the state is one that `Dispatch` reaches. -/
theorem dispatch_reachable (hreach : (system n objects).Reachable s) (hidle : s.stopper = .idle) :
    ∃ pushed popped, (Dispatch.system n objects).Reachable (view s pushed popped) := by
  have hboth : s.stopper = .idle → Going s ∧
      ∃ pushed popped, (Dispatch.system n objects).Reachable (view s pushed popped) := by
    apply hreach.invariant (P := fun s => s.stopper = .idle → Going s ∧
      ∃ pushed popped, (Dispatch.system n objects).Reachable (view s pushed popped))
    · rintro s ⟨gid, rfl⟩ -
      exact ⟨going_start gid, fun _ => [], fun _ => [], .start ⟨gid, rfl⟩⟩
    · intro s a s' _ ih hnext hidle'
      have hidle : s.stopper = .idle := by
        by_contra hbegun
        exact begun_next hbegun hnext hidle'
      obtain ⟨hgoing, pushed, popped, hview⟩ := ih hidle
      refine ⟨going_next hgoing hidle' hnext, ?_⟩
      rcases simulated_next hgoing hidle' hnext pushed popped with
        hsame | ⟨b, pushed', popped', hstep⟩
      · refine ⟨pushed, popped, ?_⟩
        rw [hsame]
        exact hview
      · exact ⟨pushed', popped', hview.step b hstep⟩
  exact (hboth hidle).2

theorem dispatch_reachable_two : ∃ s : WorkerPool, (system 2 {1, 2}).Reachable s ∧
    (s.worker 1).pc = .running 1 ∧
    ∃ pushed popped, (Dispatch.system 2 {1, 2}).Reachable (view s pushed popped) := by
  have hstart : (system 2 {1, 2}).Reachable (start {1, 2} fun _ => 0) := .start ⟨_, rfl⟩
  obtain ⟨s, hexec, hidle, hpc⟩ : ∃ s : WorkerPool,
      (system 2 {1, 2}).exec (start {1, 2} fun _ => 0) [.work 1 .start, .allocate 0 1 5, .setGid 0,
        .readFlag 0, .assign 0, .work 1 .pop, .work 1 .check] = some s ∧ s.stopper = .idle ∧
          (s.worker 1).pc = .running 1 := ⟨_, rfl, rfl, rfl⟩
  have hreach := hstart.run (.of_exec hexec)
  exact ⟨s, hreach, hpc, dispatch_reachable hreach hidle⟩

/-! ## Through the stop -/

def At (s : WorkerPool) (t : Nat) : TaskPlace → Prop
  | .pool => t ∈ s.pool
  | .caller c => (s.caller c).task = some t
  | .queue w => t ∈ (s.worker w).queue.tasks
  | .worker w => (s.worker w).pc.task = some t

/-- Every object is at one place, and once in its queue. -/
structure Kept (objects : Finset Nat) (s : WorkerPool) : Prop where
  custody : Custody s.At ↑objects
  nodup : ∀ w, (s.worker w).queue.tasks.Nodup

theorem kept_start (gid : Nat → Nat) : Kept objects (start objects gid) where
  custody := by
    refine ⟨fun t ht => ⟨.pool, ht, fun p hp => ?_⟩, fun t p hp => ?_⟩
    all_goals
      cases p with
      | pool => first | rfl | exact hp
      | caller c => cases hp
      | queue w => cases hp
      | worker w => cases hp
  nodup _ := List.nodup_nil

theorem custody_next (h : Kept objects s) (hnext : next n s a = some s') :
    Custody s'.At ↑objects := by
  cases a with
  | allocate c t g =>
    obtain ⟨⟨hc, ht⟩, hnext⟩ := Option.ite_none_right_eq_some.mp hnext
    cases hnext
    have hu := fun q => h.custody.unique (o := t) (p := .pool) (q := q) ht
    refine h.custody.move (o := t) (p := .pool) (q := .caller c) ht fun t' p => ?_
    cases p <;> grind [At, PushPc.task]
  | setGid c =>
    simp only [next] at hnext
    split at hnext
    · rename_i t g hc
      cases hnext
      refine h.custody.stay fun t' p => ?_
      cases p <;> grind [At, PushPc.task]
    · cases hnext
  | readFlag c =>
    simp only [next] at hnext
    split at hnext
    · rename_i t g hc
      cases hnext
      refine h.custody.stay fun t' p => ?_
      cases p <;> grind [At, PushPc.task]
    · cases hnext
  | assign c =>
    simp only [next] at hnext
    split at hnext
    · rename_i t g hc
      cases hnext
      by_cases hold : s.gid t ∈ (s.worker (s.gid t % n)).queue.inTask
      · simp only [Worker.push, TaskQueue.push, if_pos hold, Bool.false_eq_true, if_false]
        refine h.custody.stay fun t' p => ?_
        cases p <;> grind [At, PushPc.task]
      · have ht : s.At t (.caller c) := by simp [At, hc, PushPc.task]
        have hu := fun q => h.custody.unique (o := t) (q := q) ht
        simp only [Worker.push, TaskQueue.push, if_neg hold, if_true]
        refine h.custody.move (q := .queue (s.gid t % n)) ht fun t' p => ?_
        cases p <;> grind [At, PushPc.task, TaskQueue.tasks_push]
    · cases hnext
  | destroyRefused c =>
    simp only [next] at hnext
    split at hnext
    · rename_i t hc
      cases hnext
      have ht : s.At t (.caller c) := by simp [At, hc, PushPc.task]
      have hu := fun q => h.custody.unique (o := t) (q := q) ht
      refine h.custody.move (q := .pool) ht fun t' p => ?_
      cases p <;> grind [At, PushPc.task]
    · cases hnext
  | work w step =>
    obtain ⟨hw, hnext⟩ := Option.ite_none_right_eq_some.mp hnext
    obtain ⟨v, hact, rfl⟩ := Option.map_eq_some_iff.mp hnext
    rcases Worker.act_cases hact with ⟨rfl, hpc, rfl⟩ | ⟨task, queue, rfl, hpc, hpop, hq, rfl⟩ |
      ⟨task, rfl, hpc, -, rfl⟩ | ⟨t, rfl, hpc, hnot, rfl⟩ | ⟨t, rfl, hpc, rfl⟩ | ⟨t, rfl, hpc, rfl⟩
    · simp only [Worker.releases]
      refine h.custody.stay fun t' p => ?_
      cases p <;> grind [At, ThreadPc.task]
    · cases task with
      | none =>
        have htasks : (s.worker w).queue.tasks = queue.tasks := TaskQueue.tasks_popNull hq _
        simp only [Worker.releases]
        refine h.custody.stay fun t' p => ?_
        cases p <;> grind [At, ThreadPc.task]
      | some t =>
        have htasks : (s.worker w).queue.tasks = t :: queue.tasks := TaskQueue.tasks_pop hq _
        have hnodup := h.nodup w
        have ht : s.At t (.queue w) := by simp [At, htasks]
        have hu := fun q => h.custody.unique (o := t) (q := q) ht
        simp only [Worker.releases]
        refine h.custody.move (q := .worker w) ht fun t' p => ?_
        cases p <;> grind [At, ThreadPc.task]
    · simp only [Worker.releases]
      refine h.custody.stay fun t' p => ?_
      cases p <;> grind [At, ThreadPc.task]
    · simp only [Worker.releases]
      refine h.custody.stay fun t' p => ?_
      cases p <;> grind [At, ThreadPc.task]
    · simp only [Worker.releases]
      refine h.custody.stay fun t' p => ?_
      cases p <;> grind [At, ThreadPc.task]
    · have ht : s.At t (.worker w) := by simp [At, hpc, ThreadPc.task]
      have hu := fun q => h.custody.unique (o := t) (q := q) ht
      simp only [Worker.releases, hpc]
      refine h.custody.move (q := .pool) ht fun t' p => ?_
      cases p <;> grind [At, ThreadPc.task]
  | stop order =>
    obtain ⟨-, hnext⟩ := Option.ite_none_right_eq_some.mp hnext
    cases hnext
    exact h.custody
  | stopStep =>
    simp only [next] at hnext
    split at hnext
    · rename_i w stage rest hstopper
      cases stage with
      | push =>
        cases hnext
        have htasks : ((s.worker w).push s.gid none).queue.tasks = (s.worker w).queue.tasks := by
          simp [Worker.push, TaskQueue.push, TaskQueue.tasks, List.reduceOption_append,
            List.reduceOption_singleton]
        have hpc : ((s.worker w).push s.gid none).pc = (s.worker w).pc := rfl
        refine h.custody.stay fun t' p => ?_
        cases p <;> grind [At]
      | flag =>
        cases hnext
        refine h.custody.stay fun t' p => ?_
        cases p <;> grind [At]
      | check =>
        cases hnext
        exact h.custody
      | wait =>
        obtain ⟨-, hnext⟩ := Option.ite_none_right_eq_some.mp hnext
        cases hnext
        exact h.custody
    · cases hnext

theorem kept_next (h : Kept objects s) (hnext : next n s a = some s') : Kept objects s' := by
  refine ⟨custody_next h hnext, ?_⟩
  have hpush {w : Nat} (task : Option Nat) (hnew : ∀ t, task = some t → t ∉ (s.worker w).queue.tasks)
      (w' : Nat) : (Function.update s.worker w ((s.worker w).push s.gid task) w').queue.tasks.Nodup := by
    by_cases heq : w' = w
    · subst heq
      rw [Function.update_self]
      exact Worker.nodup_push (h.nodup w') hnew
    · rw [Function.update_of_ne heq]
      exact h.nodup w'
  intro w
  rcases next_cases hnext with ⟨-, -, -, -, hsame | ⟨w', task, ⟨c, t, g, hc, rfl⟩, hworker⟩⟩ |
    ⟨w', step, v, -, -, hact, -, hworker, -⟩ | ⟨order, -, -, -, rfl⟩ |
    ⟨w', stage, rest, -, -, hstep⟩
  · rw [hsame]
    exact h.nodup w
  · rw [hworker]
    apply hpush
    intro t' ht' hin
    cases ht'
    have hhand : s.At t (.caller c) := by simp [At, hc, PushPc.task]
    cases h.custody.unique (p := .queue w') hin hhand
  · rw [hworker]
    by_cases heq : w = w'
    · subst heq
      rw [Function.update_self]
      exact Worker.nodup_act (h.nodup w) hact
    · rw [Function.update_of_ne heq]
      exact h.nodup w
  · exact h.nodup w
  · obtain ⟨-, (hsame | ⟨w'', task, rfl, hworker⟩) | ⟨-, hworker⟩⟩ := stopStep_cases hstep
    · rw [hsame]
      exact h.nodup w
    · rw [hworker]
      apply hpush
      simp
    · rw [hworker]
      by_cases heq : w = w'
      · subst heq
        rw [Function.update_self]
        exact h.nodup w
      · rw [Function.update_of_ne heq]
        exact h.nodup w

theorem kept_reachable (hreach : (system n objects).Reachable s) : Kept objects s := by
  apply hreach.invariant (P := Kept objects)
  · rintro s ⟨gid, rfl⟩
    exact kept_start gid
  · intro s a s' _ h hnext
    exact kept_next h hnext

/-- The task that the action puts back into the pool. -/
def Action.releases (s : WorkerPool) : Action → Option Nat
  | .destroyRefused c =>
    match s.caller c with
    | .refused t => some t
    | _ => none
  | .work w step => (s.worker w).releases step
  | _ => none

theorem releases_next (h : Kept objects s) (hnext : next n s a = some s') {t : Nat}
    (hrel : a.releases s = some t) : t ∉ s.pool ∧ t ∈ s'.pool := by
  cases a with
  | destroyRefused c =>
    simp only [next, Action.releases] at hnext hrel
    split at hnext
    · rename_i u hc
      cases hnext
      simp only [hc, Option.some.injEq] at hrel
      subst hrel
      have hhand : s.At u (.caller c) := by simp [At, hc, PushPc.task]
      refine ⟨?_, Finset.mem_insert_self u s.pool⟩
      intro hpool
      cases h.custody.unique (p := .pool) hpool hhand
    · cases hnext
  | work w step =>
    obtain ⟨-, hnext⟩ := Option.ite_none_right_eq_some.mp hnext
    obtain ⟨v, -, rfl⟩ := Option.map_eq_some_iff.mp hnext
    simp only [Action.releases] at hrel
    have hhand : s.At t (.worker w) := by
      cases step <;> simp only [Worker.releases, reduceCtorEq] at hrel
      split at hrel
      · rename_i u hpc
        cases hrel
        simp [At, hpc, ThreadPc.task]
      · cases hrel
    simp only [hrel]
    refine ⟨?_, Finset.mem_insert_self t s.pool⟩
    intro hpool
    cases h.custody.unique (p := .pool) hpool hhand
  | _ => cases hrel

theorem tasks_push_prefix (v : Worker) (gid : Nat → Nat) (task : Option Nat) :
    v.queue.tasks <+: (v.push gid task).queue.tasks := by
  cases task with
  | none => simp [Worker.push, TaskQueue.push, TaskQueue.tasks, List.reduceOption_append]
  | some t =>
    by_cases hold : gid t ∈ v.queue.inTask
    · simp [Worker.push, TaskQueue.push, hold]
    · simp [Worker.push, TaskQueue.push, hold, TaskQueue.tasks, List.reduceOption_append]

/-- Nobody takes anything from a worker that has left the loop. -/
theorem exited_next {w : Nat} {task : Option Nat} (hnext : next n s a = some s')
    (hpc : (s.worker w).pc = .exited task) :
    (s'.worker w).pc = .exited task ∧
      (s.worker w).queue.tasks <+: (s'.worker w).queue.tasks := by
  rcases change_next hnext w with hchange | ⟨rest, -, heq⟩
  · revert hchange
    generalize s'.worker w = v
    intro hchange
    cases hchange with
    | same => exact ⟨hpc, List.prefix_rfl⟩
    | push task => exact ⟨hpc, tasks_push_prefix _ _ _⟩
    | act step hact =>
      rcases Worker.act_cases hact with ⟨-, h, -⟩ | ⟨_, _, -, h, -⟩ | ⟨_, -, h, -⟩ | ⟨_, -, h, -⟩ |
        ⟨_, -, h, -⟩ | ⟨_, -, h, -⟩ <;> cases hpc.symm.trans h
  · rw [heq]
    exact ⟨hpc, List.prefix_rfl⟩

theorem exited_run {w : Nat} {task : Option Nat} {as : List Action}
    (hrun : (system n objects).Run s as s') (hpc : (s.worker w).pc = .exited task) :
    (s'.worker w).pc = .exited task ∧
      (s.worker w).queue.tasks <+: (s'.worker w).queue.tasks := by
  induction hrun with
  | nil => exact ⟨hpc, List.prefix_rfl⟩
  | cons hnext _ ih =>
    obtain ⟨hpc', hprefix⟩ := exited_next hnext hpc
    obtain ⟨hend, hrest⟩ := ih hpc'
    exact ⟨hend, hprefix.trans hrest⟩

/-- **Conservation through the stop.** In every reachable state, also while the workers are stopped
and afterwards, every task object is at one place and at most once in its queue, and what is released
was not free. What a worker leaves in its queue and in its hand when it leaves the loop stays there
for good. -/
theorem conserved_through_stop (hreach : (system n objects).Reachable s) :
    (∀ t ∈ objects, ∃! p, s.At t p) ∧ (∀ t p, s.At t p → t ∈ objects) ∧
    (∀ w, (s.worker w).queue.tasks.Nodup) ∧
    (∀ a s' t, next n s a = some s' → a.releases s = some t → t ∉ s.pool ∧ t ∈ s'.pool) ∧
    ∀ w task, (s.worker w).pc = .exited task → ∀ as s', (system n objects).Run s as s' →
      (s'.worker w).pc = .exited task ∧
        (s.worker w).queue.tasks <+: (s'.worker w).queue.tasks := by
  have h := kept_reachable hreach
  refine ⟨h.custody.one, h.custody.known, h.nodup, ?_, ?_⟩
  · intro a s' t hnext hrel
    exact releases_next h hnext hrel
  · intro w task hpc as s' hrun
    exact exited_run hrun hpc

/-- A task that comes while the worker is stopped is left in the queue. -/
theorem conserved_through_stop_left : ∃ s : WorkerPool, (system 1 {1, 2}).Reachable s ∧
    s.stopper = .returned ∧ (s.worker 0).queue.tasks = [2] ∧
      ∀ as s', (system 1 {1, 2}).Run s as s' →
        (s.worker 0).queue.tasks <+: (s'.worker 0).queue.tasks := by
  have hstart : (system 1 {1, 2}).Reachable (start {1, 2} fun _ => 0) := .start ⟨_, rfl⟩
  obtain ⟨s, hexec, hstopped, hpc, htasks⟩ : ∃ s : WorkerPool,
      (system 1 {1, 2}).exec (start {1, 2} fun _ => 0) (.allocate 1 2 7 :: .setGid 1 :: .readFlag 1 ::
        stopWhileRunning ++ .assign 1 :: leaveLoop) = some s ∧ s.stopper = .returned ∧
          (s.worker 0).pc = .exited none ∧ (s.worker 0).queue.tasks = [2] :=
    ⟨_, rfl, rfl, rfl, rfl⟩
  have hreach := hstart.run (.of_exec hexec)
  refine ⟨s, hreach, hstopped, htasks, ?_⟩
  intro as s' hrun
  exact ((conserved_through_stop hreach).2.2.2.2 0 none hpc as s' hrun).2

end WorkerPool

end Tubekit
