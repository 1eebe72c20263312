import Tubekit.Thread.Dispatch

/-!
# Coalescing keeps every wake-up

A task object is in the pool, with a caller, in a queue or with a worker, and only in one of
them (`At`), so the gid of a queued task does not change under the queue. Hence `m_in_task` is
the set of the gids in `m_task`, with one task each; and a gid has one worker, so its tasks run
one after the other.
-/

namespace Tubekit

open Lib.Transition

/-- The task object that the caller holds. -/
def CallerPc.task : CallerPc → Option Nat
  | .idle => none
  | .allocated t _ => some t
  | .created t _ => some t
  | .rejected t => some t

/-- The task object that the worker holds. -/
def WorkerPc.task : WorkerPc → Option Nat
  | .idle => none
  | .running t => some t
  | .finished t => some t
  | .stopped => none

inductive TaskPlace where
  | pool
  | caller (c : Nat)
  | queue (w : Nat)
  | worker (w : Nat)

namespace TaskQueue

theorem tasks_push (q : TaskQueue) (t : Nat) (inTask : Finset Nat) :
    tasks { task := q.task ++ [some t], inTask } = q.tasks ++ [t] := by
  simp [tasks, List.reduceOption_append, List.reduceOption_singleton]

theorem tasks_pop {q : TaskQueue} {t : Nat} {rest : List (Option Nat)} (h : q.task = some t :: rest)
    (inTask : Finset Nat) : q.tasks = t :: tasks { task := rest, inTask } := by
  simp [tasks, h]

theorem tasks_popNull {q : TaskQueue} {rest : List (Option Nat)} (h : q.task = none :: rest)
    (inTask : Finset Nat) : q.tasks = tasks { task := rest, inTask } := by
  simp [tasks, h]

end TaskQueue

/-- The queue of worker `w`, with the tasks that were pushed to it and popped from it. -/
structure QueueInv (n w : Nat) (gid : Nat → Nat) (q : TaskQueue)
    (pushed popped : List (Nat × Nat)) : Prop where
  /-- `m_in_task` is the set of the gids in the queue. -/
  inTask : ∀ g, g ∈ q.inTask ↔ ∃ t ∈ q.tasks, gid t = g
  onePerGid : (q.tasks.map gid).Nodup
  home : ∀ t ∈ q.tasks, gid t % n = w
  history : pushed = popped ++ q.tasks.map fun t => (t, gid t)

namespace QueueInv

variable {n w t : Nat} {gid : Nat → Nat} {q : TaskQueue} {pushed popped : List (Nat × Nat)}

theorem congr_gid {gid' : Nat → Nat} (h : QueueInv n w gid q pushed popped)
    (hgid : ∀ t ∈ q.tasks, gid' t = gid t) : QueueInv n w gid' q pushed popped := by
  refine ⟨fun g => ?_, ?_, fun t ht => ?_, ?_⟩
  · rw [h.inTask]
    exact exists_congr fun t => and_congr_right fun ht => by rw [hgid t ht]
  · rw [List.map_congr_left hgid]
    exact h.onePerGid
  · rw [hgid t ht]
    exact h.home t ht
  · rw [h.history]
    congr 1
    exact List.map_congr_left fun t ht => by rw [hgid t ht]

theorem push (h : QueueInv n w gid q pushed popped) (hw : gid t % n = w)
    (hnew : gid t ∉ q.inTask) :
    QueueInv n w gid { task := q.task ++ [some t], inTask := insert (gid t) q.inTask }
      (pushed ++ [(t, gid t)]) popped := by
  have htasks := TaskQueue.tasks_push q t (insert (gid t) q.inTask)
  rw [h.inTask] at hnew
  refine ⟨fun g => ?_, ?_, fun t' ht' => ?_, ?_⟩
  · rw [htasks, Finset.mem_insert, h.inTask]
    constructor
    · rintro (rfl | ⟨t', ht', hg⟩)
      · exact ⟨t, by simp, rfl⟩
      · exact ⟨t', by simp [ht'], hg⟩
    · rintro ⟨t', ht', hg⟩
      rw [List.mem_append, List.mem_singleton] at ht'
      rcases ht' with ht' | rfl
      · exact Or.inr ⟨t', ht', hg⟩
      · exact Or.inl hg.symm
  · rw [htasks, List.map_append, List.map_singleton, List.nodup_append]
    refine ⟨h.onePerGid, List.nodup_singleton _, fun g hg g' hg' heq => hnew ?_⟩
    obtain ⟨t', ht', rfl⟩ := List.mem_map.mp hg
    rw [List.mem_singleton] at hg'
    exact ⟨t', ht', heq.trans hg'⟩
  · rw [htasks, List.mem_append, List.mem_singleton] at ht'
    rcases ht' with ht' | rfl
    · exact h.home t' ht'
    · exact hw
  · rw [htasks, h.history, List.map_append, List.append_assoc]
    rfl

theorem pop {rest : List (Option Nat)} (h : QueueInv n w gid q pushed popped)
    (hq : q.task = some t :: rest) :
    QueueInv n w gid { task := rest, inTask := q.inTask.erase (gid t) } pushed
      (popped ++ [(t, gid t)]) := by
  have htasks := TaskQueue.tasks_pop hq (q.inTask.erase (gid t))
  have hnodup := h.onePerGid
  have hhistory := h.history
  rw [htasks, List.map_cons] at hnodup hhistory
  obtain ⟨hnot, hnodup⟩ := List.nodup_cons.mp hnodup
  refine ⟨fun g => ?_, hnodup, fun t' ht' => h.home t' (by rw [htasks]; simp [ht']), ?_⟩
  · rw [Finset.mem_erase, h.inTask, htasks]
    constructor
    · rintro ⟨hne, t', ht', rfl⟩
      rcases List.mem_cons.mp ht' with rfl | ht'
      · exact absurd rfl hne
      · exact ⟨t', ht', rfl⟩
    · rintro ⟨t', ht', rfl⟩
      refine ⟨fun heq => hnot ?_, t', by simp [ht'], rfl⟩
      rw [← heq]
      exact List.mem_map_of_mem ht'
  · rw [hhistory, List.append_assoc]
    rfl

theorem popNull {rest : List (Option Nat)} (h : QueueInv n w gid q pushed popped)
    (hq : q.task = none :: rest) : QueueInv n w gid { q with task := rest } pushed popped := by
  have htasks := TaskQueue.tasks_popNull hq q.inTask
  obtain ⟨hin, hnodup, hhome, hhistory⟩ := h
  rw [htasks] at hin hnodup hhome hhistory
  exact ⟨hin, hnodup, hhome, hhistory⟩

end QueueInv

namespace Dispatch

def At (s : Dispatch) (t : Nat) : TaskPlace → Prop
  | .pool => t ∈ s.pool
  | .caller c => (s.caller c).task = some t
  | .queue w => t ∈ (s.queue w).tasks
  | .worker w => (s.worker w).task = some t

structure Inv (n : Nat) (objects : Finset Nat) (s : Dispatch) : Prop where
  custody : Custody s.At ↑objects
  queues : ∀ w, QueueInv n w s.gid (s.queue w) (s.pushed w) (s.popped w)
  running : ∀ w t, (s.worker w).task = some t → s.gid t % n = w
  /-- A task has the gid that `do_task` was called with. -/
  created : ∀ c t g, s.caller c = .created t g → s.gid t = g

variable {n : Nat} {objects : Finset Nat} {s s' : Dispatch} {a : Action}

theorem inv_start (gid : Nat → Nat) : Inv n objects (start objects gid) where
  custody := by
    refine ⟨fun t ht => ⟨.pool, ht, fun p hp => ?_⟩, fun t p hp => ?_⟩
    all_goals
      cases p with
      | pool => first | rfl | exact hp
      | caller c => simp [At, start, CallerPc.task] at hp
      | queue w => simp [At, start, TaskQueue.new, TaskQueue.tasks] at hp
      | worker w => simp [At, start, WorkerPc.task] at hp
  queues w := by
    refine ⟨fun g => ?_, ?_, fun t ht => ?_, ?_⟩
    · simp [start, TaskQueue.new, TaskQueue.tasks]
    · simp [start, TaskQueue.new, TaskQueue.tasks]
    · simp [start, TaskQueue.new, TaskQueue.tasks] at ht
    · simp [start, TaskQueue.new, TaskQueue.tasks]
  running := by simp [start, WorkerPc.task]
  created := by simp [start]

/-- A step moves one task object at most. -/
theorem custody_step (h : Inv n objects s) (hstep : Step n s a s') : Custody s'.At ↑objects := by
  cases hstep with
  | @allocate c t g hc ht =>
    have hu := fun q => h.custody.unique (o := t) (p := .pool) (q := q) ht
    refine h.custody.move (o := t) (p := .pool) (q := .caller c) ht fun t' p => ?_
    cases p <;> grind [At, CallerPc.task]
  | @setGid c t g hc =>
    refine h.custody.stay fun t' p => ?_
    cases p <;> grind [At, CallerPc.task]
  | @assignTaken c t g hc hnew =>
    have ht : s.At t (.caller c) := by simp [At, hc, CallerPc.task]
    have hu := fun q => h.custody.unique (o := t) (q := q) ht
    refine h.custody.move (q := .queue (s.gid t % n)) ht fun t' p => ?_
    cases p <;> grind [At, CallerPc.task, TaskQueue.tasks_push]
  | @assignRejected c t g hc hold =>
    refine h.custody.stay fun t' p => ?_
    cases p <;> grind [At, CallerPc.task]
  | @destroyRejected c t hc =>
    have ht : s.At t (.caller c) := by simp [At, hc, CallerPc.task]
    have hu := fun q => h.custody.unique (o := t) (q := q) ht
    refine h.custody.move (q := .pool) ht fun t' p => ?_
    cases p <;> grind [At, CallerPc.task]
  | @pop w t rest hw hidle hq =>
    have htasks := fun i => TaskQueue.tasks_pop hq i
    have hnodup := (h.queues w).onePerGid.of_map
    have ht : s.At t (.queue w) := by simp [At, htasks ∅]
    have hu := fun q => h.custody.unique (o := t) (q := q) ht
    refine h.custody.move (q := .worker w) ht fun t' p => ?_
    cases p <;> grind [At, WorkerPc.task]
  | @popNull w rest hw hidle hq =>
    have htasks := fun i => TaskQueue.tasks_popNull hq i
    refine h.custody.stay fun t' p => ?_
    cases p <;> grind [At, WorkerPc.task]
  | @finish w t hw =>
    refine h.custody.stay fun t' p => ?_
    cases p <;> grind [At, WorkerPc.task]
  | @destroy w t hw =>
    have ht : s.At t (.worker w) := by simp [At, hw, WorkerPc.task]
    have hu := fun q => h.custody.unique (o := t) (q := q) ht
    refine h.custody.move (q := .pool) ht fun t' p => ?_
    cases p <;> grind [At, WorkerPc.task]

/-- A caller other than `c` is where it was. -/
theorem created_of_update {c c' t g : Nat} {pc : CallerPc} (h : Inv n objects s)
    (hpc : ∀ t g, pc ≠ .created t g)
    (hc : Function.update s.caller c pc c' = .created t g) : s.gid t = g := by
  by_cases heq : c' = c
  · subst heq
    rw [Function.update_self] at hc
    exact absurd hc (hpc t g)
  · rw [Function.update_of_ne heq] at hc
    exact h.created c' t g hc

/-- A worker other than `w` is where it was. -/
theorem running_of_update {w w' t' : Nat} {pc : WorkerPc} (h : Inv n objects s)
    (hpc : ∀ t, pc.task = some t → s.gid t % n = w)
    (hw : (Function.update s.worker w pc w').task = some t') : s.gid t' % n = w' := by
  by_cases heq : w' = w
  · subst heq
    rw [Function.update_self] at hw
    exact hpc t' hw
  · rw [Function.update_of_ne heq] at hw
    exact h.running w' t' hw

theorem inv_step (h : Inv n objects s) (hstep : Step n s a s') : Inv n objects s' := by
  have hcustody := custody_step h hstep
  cases hstep with
  | @allocate c t g hc ht =>
    exact ⟨hcustody, h.queues, h.running, fun c' t' g' => created_of_update h (by simp)⟩
  | @setGid c t g hc =>
    -- the object is in the hand of the caller, so no one else has it
    have ht : s.At t (.caller c) := by simp [At, hc, CallerPc.task]
    have hother : ∀ t' p, s.At t' p → p ≠ .caller c → Function.update s.gid t g t' = s.gid t' := by
      intro t' p hp hne
      refine Function.update_of_ne ?_ _ _
      rintro rfl
      exact hne (h.custody.unique hp ht)
    refine ⟨hcustody, fun w => ?_, fun w t' ht' => ?_, fun c' t' g' hc' => ?_⟩
    · exact (h.queues w).congr_gid fun t' ht' => hother t' (.queue w) ht' (by simp)
    · show Function.update s.gid t g t' % n = w
      rw [hother t' (.worker w) ht' (by simp)]
      exact h.running w t' ht'
    · show Function.update s.gid t g t' = g'
      by_cases heq : c' = c
      · subst heq
        simp only [Function.update_self, CallerPc.created.injEq] at hc'
        rw [← hc'.1, Function.update_self]
        exact hc'.2
      · simp only [Function.update_of_ne heq] at hc'
        rw [hother t' (.caller c') (by simp [At, hc', CallerPc.task]) (by simpa using heq)]
        exact h.created c' t' g' hc'
  | @assignTaken c t g hc hnew =>
    refine ⟨hcustody, fun w => ?_, h.running, fun c' t' g' => created_of_update h (by simp)⟩
    by_cases hw : w = s.gid t % n
    · subst hw
      simpa using (h.queues _).push rfl hnew
    · simpa [hw] using h.queues w
  | @assignRejected c t g hc hold =>
    exact ⟨hcustody, h.queues, h.running, fun c' t' g' => created_of_update h (by simp)⟩
  | @destroyRejected c t hc =>
    exact ⟨hcustody, h.queues, h.running, fun c' t' g' => created_of_update h (by simp)⟩
  | @pop w t rest hw hidle hq =>
    have hhome : s.gid t % n = w :=
      (h.queues w).home t (by rw [TaskQueue.tasks_pop hq ∅]; simp)
    refine ⟨hcustody, fun w' => ?_,
      fun w' t' => running_of_update h (by simp [WorkerPc.task, hhome]), h.created⟩
    by_cases hw' : w' = w
    · subst hw'
      simpa using (h.queues w').pop hq
    · simpa [hw'] using h.queues w'
  | @popNull w rest hw hidle hq =>
    refine ⟨hcustody, fun w' => ?_,
      fun w' t' => running_of_update h (by simp [WorkerPc.task]), h.created⟩
    by_cases hw' : w' = w
    · subst hw'
      simpa using (h.queues w').popNull hq
    · simpa [hw'] using h.queues w'
  | @finish w t hw =>
    have hhome := h.running w t (by simp [hw, WorkerPc.task])
    exact ⟨hcustody, h.queues,
      fun w' t' => running_of_update h (by simp [WorkerPc.task, hhome]), h.created⟩
  | @destroy w t hw =>
    exact ⟨hcustody, h.queues,
      fun w' t' => running_of_update h (by simp [WorkerPc.task]), h.created⟩

theorem inv_reachable (h : (system n objects).Reachable s) : Inv n objects s := by
  refine h.invariant (P := Inv n objects) ?_ fun t a t' _ hinv hnext =>
    inv_step hinv (step_of_next hnext)
  rintro t ⟨gid, rfl⟩
  exact inv_start gid

/-! ## Wake-ups -/

/-- What was pushed and popped is not forgotten. -/
theorem history_step (hstep : Step n s a s') (w : Nat) :
    s.pushed w <+: s'.pushed w ∧ s.popped w <+: s'.popped w := by
  cases hstep with
  | @assignTaken c t g hc hnew =>
    refine ⟨?_, List.prefix_rfl⟩
    by_cases hw : w = s.gid t % n
    · subst hw
      simp
    · simp [hw]
  | @pop w' t rest hw' hidle hq =>
    refine ⟨List.prefix_rfl, ?_⟩
    by_cases hw : w = w'
    · subst hw
      simp
    · simp [hw]
  | _ => exact ⟨List.prefix_rfl, List.prefix_rfl⟩

theorem history_run {as : List Action} (hrun : (system n objects).Run s as s') (w : Nat) :
    s.pushed w <+: s'.pushed w ∧ s.popped w <+: s'.popped w := by
  induction hrun with
  | nil => exact ⟨List.prefix_rfl, List.prefix_rfl⟩
  | cons hnext _ ih =>
    obtain ⟨hpushed, hpopped⟩ := history_step (step_of_next hnext) w
    exact ⟨hpushed.trans ih.1, hpopped.trans ih.2⟩

/-- A task of the gid `g` is in the queue of its worker. -/
def Queued (n : Nat) (s : Dispatch) (g : Nat) : Prop := ∃ t ∈ (s.queue (g % n)).tasks, s.gid t = g

/-- Accepted or dropped, a task of the gid is queued after the push. -/
theorem queued_after_assign (h : Inv n objects s) {c t g : Nat} (hc : s.caller c = .created t g)
    (hstep : Step n s (.assign c) s') : Queued n s' g := by
  have hgid := h.created c t g hc
  cases hstep with
  | @assignTaken _ t' g' hc' hnew =>
    rw [hc] at hc'
    cases hc'
    refine ⟨t, ?_, hgid⟩
    simp [hgid, TaskQueue.tasks_push]
  | @assignRejected _ t' g' hc' hold =>
    rw [hc] at hc'
    cases hc'
    rw [hgid] at hold
    exact ((h.queues (g % n)).inTask g).mp hold

/-- A queued task stays in its queue until it is popped. -/
theorem queued_run {as : List Action} {g : Nat} (h : Inv n objects s) (h' : Inv n objects s')
    (hqueued : Queued n s g) (hrun : (system n objects).Run s as s') :
    Queued n s' g ∨ ∃ t, (t, g) ∈ (s'.popped (g % n)).drop (s.popped (g % n)).length := by
  obtain ⟨t, ht, hg⟩ := hqueued
  obtain ⟨⟨later, hpushed⟩, ⟨more, hpopped⟩⟩ := history_run hrun (g % n)
  -- the task is behind what had been popped, so it is popped later or still queued
  have hin : (t, g) ∈ more ++ (s'.queue (g % n)).tasks.map fun t => (t, s'.gid t) := by
    have hhistory := hpushed
    rw [(h.queues _).history, (h'.queues _).history, ← hpopped, List.append_assoc,
      List.append_assoc, List.append_cancel_left_eq] at hhistory
    rw [← hhistory]
    exact List.mem_append_left _ (List.mem_map.mpr ⟨t, ht, by rw [hg]⟩)
  rw [List.mem_append] at hin
  rcases hin with hin | hin
  · right
    refine ⟨t, ?_⟩
    rw [← hpopped, List.drop_left]
    exact hin
  · left
    obtain ⟨t', ht', heq⟩ := List.mem_map.mp hin
    exact ⟨t', ht', congrArg Prod.snd heq⟩

/-- **Dispatch.** In every reachable state, with `n` workers: each queue has one task per gid
and knows exactly the gids it has; tasks are popped in the order in which they were pushed;
after every push of `do_task(g)` a task of `g` is in the queue of worker `g % n`, and on every
run from there it stays until a task of `g` is popped, which starts a run; and two running tasks
never have the same gid. -/
theorem dispatch_serial (h : (system n objects).Reachable s) :
    (∀ w, ((s.queue w).tasks.map s.gid).Nodup ∧
      ∀ g, g ∈ (s.queue w).inTask ↔ ∃ t ∈ (s.queue w).tasks, s.gid t = g) ∧
    (∀ w, s.pushed w = s.popped w ++ (s.queue w).tasks.map fun t => (t, s.gid t)) ∧
    (∀ c t g s', s.caller c = .created t g → next n s (.assign c) = some s' →
      Queued n s' g ∧ ∀ as s'', (system n objects).Run s' as s'' →
        Queued n s'' g ∨ ∃ t, (t, g) ∈ (s''.popped (g % n)).drop (s'.popped (g % n)).length) ∧
    (∀ w w' t t', s.worker w = .running t → s.worker w' = .running t' → s.gid t = s.gid t' →
      w = w' ∧ t = t') := by
  have hinv := inv_reachable h
  refine ⟨fun w => ⟨(hinv.queues w).onePerGid, (hinv.queues w).inTask⟩,
    fun w => (hinv.queues w).history, fun c t g s' hc hnext => ?_, fun w w' t t' hw hw' hgid => ?_⟩
  · have hreach : (system n objects).Reachable s' := h.step (.assign c) hnext
    have hqueued := queued_after_assign hinv hc (step_of_next hnext)
    exact ⟨hqueued, fun as s'' hrun =>
      queued_run (inv_reachable hreach) (inv_reachable (hreach.run hrun)) hqueued hrun⟩
  · have hhome := hinv.running w t (by simp [hw, WorkerPc.task])
    have hhome' := hinv.running w' t' (by simp [hw', WorkerPc.task])
    have heq : w = w' := by rw [← hhome, ← hhome', hgid]
    subst heq
    rw [hw] at hw'
    exact ⟨rfl, WorkerPc.running.inj hw'⟩

/-- Two calls of `do_task(5)`, the second while the task of the first is running. -/
def twoCalls : List Action :=
  [.allocate 0 1 5, .setGid 0, .assign 0, .pop 1, .allocate 0 2 5, .setGid 0, .assign 0]

theorem dispatch_serial_twoCalls :
    ∃ s, (system 2 {1, 2, 3}).Reachable s ∧ s.worker 1 = .running 1 ∧ (s.queue 1).tasks = [2] ∧
      s.pushed 1 = s.popped 1 ++ [(2, 5)] := by
  obtain ⟨s, hexec, hworker, hqueue, hgid⟩ : ∃ s,
      (system 2 {1, 2, 3}).exec (start {1, 2, 3} fun _ => 0) twoCalls = some s ∧
        s.worker 1 = .running 1 ∧ (s.queue 1).tasks = [2] ∧ s.gid 2 = 5 :=
    ⟨_, rfl, rfl, rfl, rfl⟩
  have hstart : (system 2 {1, 2, 3}).Reachable (start {1, 2, 3} fun _ => 0) := .start ⟨_, rfl⟩
  have hreach := hstart.run (.of_exec hexec)
  have hfifo := (dispatch_serial hreach).2.1 1
  rw [hqueue] at hfifo
  simp only [List.map_cons, List.map_nil, hgid] at hfifo
  exact ⟨s, hreach, hworker, hqueue, hfifo⟩

end Dispatch

end Tubekit
