import Tubekit.Thread.WorkerPool

/-!
# What stopping the workers does

`stop_flag` is set after a `nullptr` has gone into the queue, so a worker that is told to stop
does not wait in `pop` for good (`Worker.Woken`), and leaves the loop after four steps of its own at
most (`ThreadPc.togo`). `m_stoped` is true before the thread begins and after it has left the loop;
either way the worker runs no task any more once the main thread has read it (`Worker.Quiet`).
-/

namespace Tubekit

open Lib.Transition

/-! ## One worker -/

/-- The steps of its own that a worker takes before it is out of the loop, when it is told to stop. -/
def ThreadPc.togo : ThreadPc → Nat
  | .created => 3
  | .popping => 2
  | .popped _ => 1
  | .running _ => 4
  | .finished _ => 3
  | .exited _ => 0

namespace Worker

variable {gid : Nat → Nat} {v v' : Worker}

/-- What a step of the system does to a worker that it does not tell to stop. -/
inductive Change (gid : Nat → Nat) (v : Worker) : Worker → Prop
  | same : Change gid v v
  | push (task : Option Nat) : Change gid v (v.push gid task)
  | act {v' : Worker} (step : Work) : v.act gid step = some v' → Change gid v v'

/-- Where a worker is before and after each of its steps. -/
theorem act_cases {step : Work} (h : v.act gid step = some v') :
    (step = .start ∧ v.pc = .created ∧ v' = { v with stoped := false, pc := .popping }) ∨
    (∃ task queue, step = .pop ∧ v.pc = .popping ∧ v.queue.pop gid = some (task, queue) ∧
      v.queue.task = task :: queue.task ∧ v' = { v with queue, pc := .popped task }) ∨
    (∃ task, step = .check ∧ v.pc = .popped task ∧ (task = none ∨ v.stopFlag = true) ∧
      v' = { v with stoped := true, pc := .exited task }) ∨
    (∃ t, step = .check ∧ v.pc = .popped (some t) ∧ v.stopFlag = false ∧
      v' = { v with pc := .running t }) ∨
    (∃ t, step = .finish ∧ v.pc = .running t ∧ v' = { v with pc := .finished t }) ∨
    (∃ t, step = .destroy ∧ v.pc = .finished t ∧ v' = { v with pc := .popping }) := by
  cases step with
  | start =>
    simp only [act] at h
    split at h
    · cases h
      exact Or.inl ⟨rfl, by assumption, rfl⟩
    · cases h
  | pop =>
    simp only [act] at h
    split at h
    · rename_i hpc
      obtain ⟨⟨task, queue⟩, hpop, rfl⟩ := Option.map_eq_some_iff.mp h
      exact Or.inr (Or.inl ⟨task, queue, rfl, hpc, hpop, TaskQueue.task_of_pop hpop, rfl⟩)
    · cases h
  | check =>
    simp only [act] at h
    split at h
    · rename_i hpc
      cases h
      exact Or.inr (Or.inr (Or.inl ⟨none, rfl, hpc, Or.inl rfl, rfl⟩))
    · rename_i t hpc
      cases hflag : v.stopFlag with
      | true =>
        rw [hflag] at h
        cases h
        exact Or.inr (Or.inr (Or.inl ⟨some t, rfl, hpc, Or.inr rfl, rfl⟩))
      | false =>
        rw [hflag] at h
        cases h
        exact Or.inr (Or.inr (Or.inr (Or.inl ⟨t, rfl, hpc, rfl, rfl⟩)))
    · cases h
  | finish =>
    simp only [act] at h
    split at h
    · rename_i t hpc
      cases h
      exact Or.inr (Or.inr (Or.inr (Or.inr (Or.inl ⟨t, rfl, hpc, rfl⟩))))
    · cases h
  | destroy =>
    simp only [act] at h
    split at h
    · rename_i t hpc
      cases h
      exact Or.inr (Or.inr (Or.inr (Or.inr (Or.inr ⟨t, rfl, hpc, rfl⟩))))
    · cases h

/-- There is a `nullptr` for the worker to pop, or it has popped it, or is out of the loop. -/
def Woken (v : Worker) : Prop :=
  none ∈ v.queue.task ∨ v.pc = .popped none ∨ ∃ task, v.pc = .exited task

/-- The worker is told to stop and runs no task. -/
structure Quiet (v : Worker) : Prop where
  told : v.stopFlag = true
  idle : ∀ t, v.pc ≠ .running t ∧ v.pc ≠ .finished t

theorem mem_push {task : Option Nat} (h : none ∈ v.queue.task) :
    none ∈ (v.push gid task).queue.task := by
  cases task with
  | none => exact List.mem_append_left _ h
  | some t =>
    by_cases hold : gid t ∈ v.queue.inTask
    · simpa only [push, TaskQueue.push, if_pos hold] using h
    · simpa only [push, TaskQueue.push, if_neg hold] using List.mem_append_left _ h

theorem woken_push (v : Worker) : (v.push gid none).Woken :=
  Or.inl (List.mem_append_right _ List.mem_cons_self)

theorem Woken.change (h : v.Woken) (hchange : Change gid v v') : v'.Woken := by
  cases hchange with
  | same => exact h
  | push task => exact h.imp_left mem_push
  | act step hact =>
    rcases act_cases hact with ⟨-, hpc, rfl⟩ | ⟨task, queue, -, hpc, -, hq, rfl⟩ |
      ⟨task, -, hpc, -, rfl⟩ | ⟨t, -, hpc, -, rfl⟩ | ⟨t, -, hpc, rfl⟩ | ⟨t, -, hpc, rfl⟩
    · refine Or.inl (h.resolve_right ?_)
      simp [hpc]
    · have hin : none ∈ v.queue.task := by
        refine h.resolve_right ?_
        simp [hpc]
      rw [hq, List.mem_cons] at hin
      rcases hin with rfl | hin
      · exact Or.inr (Or.inl rfl)
      · exact Or.inl hin
    · exact Or.inr (Or.inr ⟨task, rfl⟩)
    · refine Or.inl (h.resolve_right ?_)
      simp [hpc]
    · refine Or.inl (h.resolve_right ?_)
      simp [hpc]
    · refine Or.inl (h.resolve_right ?_)
      simp [hpc]

theorem stopFlag_change (hchange : Change gid v v') : v'.stopFlag = v.stopFlag := by
  cases hchange with
  | same => rfl
  | push task => rfl
  | act step hact =>
    rcases act_cases hact with ⟨-, -, rfl⟩ | ⟨_, _, -, -, -, -, rfl⟩ | ⟨_, -, -, -, rfl⟩ |
      ⟨_, -, -, -, rfl⟩ | ⟨_, -, -, rfl⟩ | ⟨_, -, -, rfl⟩ <;> rfl

theorem Quiet.change (h : v.Quiet) (hchange : Change gid v v') : v'.Quiet := by
  refine ⟨(stopFlag_change hchange).trans h.told, ?_⟩
  cases hchange with
  | same => exact h.idle
  | push task => exact h.idle
  | act step hact =>
    rcases act_cases hact with ⟨-, hpc, rfl⟩ | ⟨task, queue, -, hpc, -, hq, rfl⟩ |
      ⟨task, -, hpc, -, rfl⟩ | ⟨t, -, hpc, hnot, rfl⟩ | ⟨t, -, hpc, rfl⟩ | ⟨t, -, hpc, rfl⟩
    · simp
    · simp
    · simp
    · cases hnot.symm.trans h.told
    · exact absurd hpc (h.idle t).1
    · exact absurd hpc (h.idle t).2

/-- `m_stoped` is true before the thread begins and after it has left the loop. -/
def Honest (v : Worker) : Prop := v.stoped = true ↔ v.pc = .created ∨ ∃ task, v.pc = .exited task

theorem Honest.change (h : v.Honest) (hchange : Change gid v v') : v'.Honest := by
  unfold Honest at h ⊢
  cases hchange with
  | same => exact h
  | push task => exact h
  | act step hact =>
    rcases act_cases hact with ⟨-, hpc, rfl⟩ | ⟨task, queue, -, hpc, -, hq, rfl⟩ |
      ⟨task, -, hpc, -, rfl⟩ | ⟨t, -, hpc, -, rfl⟩ | ⟨t, -, hpc, rfl⟩ | ⟨t, -, hpc, rfl⟩ <;>
    simp_all

/-- A worker that is told to stop comes closer to the end of the loop with each step of its own. -/
theorem togo_act {step : Work} (htold : v.stopFlag = true) (hact : v.act gid step = some v') :
    v.pc.togo = v'.pc.togo + 1 := by
  rcases act_cases hact with ⟨-, hpc, rfl⟩ | ⟨task, queue, -, hpc, -, hq, rfl⟩ |
    ⟨task, -, hpc, -, rfl⟩ | ⟨t, -, hpc, hnot, rfl⟩ | ⟨t, -, hpc, rfl⟩ | ⟨t, -, hpc, rfl⟩
  · rw [hpc]
    rfl
  · rw [hpc]
    rfl
  · rw [hpc]
    rfl
  · cases hnot.symm.trans htold
  · rw [hpc]
    rfl
  · rw [hpc]
    rfl

/-- Such a worker can take its next step. -/
theorem exists_act (gid : Nat → Nat) (h : v.Woken) (hin : v.pc.togo ≠ 0) :
    ∃ step v', v.act gid step = some v' := by
  cases hpc : v.pc with
  | created => exact ⟨.start, _, by rw [act, hpc]⟩
  | popping =>
    have hqueue : none ∈ v.queue.task := by
      refine h.resolve_right ?_
      simp [hpc]
    obtain ⟨popped, hpop⟩ := TaskQueue.pop_of_ne_nil (List.ne_nil_of_mem hqueue) gid
    exact ⟨.pop, _, by rw [act, hpc, hpop]; rfl⟩
  | popped task =>
    cases task with
    | none => exact ⟨.check, _, by rw [act, hpc]⟩
    | some t => exact ⟨.check, _, by rw [act, hpc]⟩
  | running t => exact ⟨.finish, _, by rw [act, hpc]⟩
  | finished t => exact ⟨.destroy, _, by rw [act, hpc]⟩
  | exited task =>
    rw [hpc] at hin
    exact absurd rfl hin

end Worker

/-! ## All workers -/

namespace WorkerPool

variable {n : Nat} {objects : Finset Nat} {s s' : WorkerPool} {a : Action}

section

variable {worker : Nat → Worker} {gid : Nat → Nat} {w w' : Nat} {v : Worker}

theorem change_other (hne : w' ≠ w) :
    Worker.Change gid (worker w') (Function.update worker w v w') := by
  rw [Function.update_of_ne hne]
  exact .same

theorem change_update (h : Worker.Change gid (worker w) v) (w' : Nat) :
    Worker.Change gid (worker w') (Function.update worker w v w') := by
  by_cases heq : w' = w
  · subst heq
    rw [Function.update_self]
    exact h
  · exact change_other heq

end

/-- The step is one of `worker::run` of this worker. -/
def Action.isWork (w : Nat) : Action → Bool
  | .work w' _ => w' == w
  | _ => false

/-- What the callers of `do_task` and the main thread do to the queues. -/
def Pushes (p : Option Nat → Prop) (s s' : WorkerPool) : Prop :=
  s'.worker = s.worker ∨
    ∃ w task, p task ∧ s'.worker = Function.update s.worker w ((s.worker w).push s.gid task)

/-- The four kinds of steps: of a caller, of a worker, and of the main thread when it begins and when
it goes on. -/
theorem next_cases (h : next n s a = some s') :
    ((∀ w, a.isWork w = false) ∧ a ≠ .stopStep ∧ s'.stopper = s.stopper ∧ s'.ran = s.ran ∧
      Pushes (fun task => ∃ c t g, s.caller c = .admitted t g ∧ task = some t) s s') ∨
    (∃ w step v, a = .work w step ∧ w < n ∧ (s.worker w).act s.gid step = some v ∧
      s'.stopper = s.stopper ∧ s'.worker = Function.update s.worker w v ∧
      ((s.worker w).begins step = none → s'.ran = s.ran)) ∨
    (∃ order, a = .stop order ∧ s.stopper = .idle ∧ order.Perm (List.range n) ∧
      s' = { s with stopper := .next order }) ∨
    ∃ w stage rest, a = .stopStep ∧ s.stopper = .stopping w stage rest ∧
      s.stopStep w rest stage = some s' := by
  cases a with
  | allocate c t g =>
    obtain ⟨-, h⟩ := Option.ite_none_right_eq_some.mp h
    cases h
    exact Or.inl ⟨fun _ => rfl, by simp, rfl, rfl, Or.inl rfl⟩
  | setGid c =>
    simp only [next] at h
    split at h <;> cases h
    exact Or.inl ⟨fun _ => rfl, by simp, rfl, rfl, Or.inl rfl⟩
  | readFlag c =>
    simp only [next] at h
    split at h <;> cases h
    exact Or.inl ⟨fun _ => rfl, by simp, rfl, rfl, Or.inl rfl⟩
  | assign c =>
    simp only [next] at h
    split at h
    · rename_i t g hc
      cases h
      exact Or.inl ⟨fun _ => rfl, by simp, rfl, rfl, Or.inr ⟨_, _, ⟨c, t, g, hc, rfl⟩, rfl⟩⟩
    · cases h
  | destroyRefused c =>
    simp only [next] at h
    split at h <;> cases h
    exact Or.inl ⟨fun _ => rfl, by simp, rfl, rfl, Or.inl rfl⟩
  | work w step =>
    obtain ⟨hw, h⟩ := Option.ite_none_right_eq_some.mp h
    obtain ⟨v, hact, rfl⟩ := Option.map_eq_some_iff.mp h
    refine Or.inr (Or.inl ⟨w, step, v, rfl, hw, hact, rfl, rfl, ?_⟩)
    intro hbegins
    simp only [hbegins]
  | stop order =>
    obtain ⟨⟨hidle, hperm⟩, h⟩ := Option.ite_none_right_eq_some.mp h
    cases h
    exact Or.inr (Or.inr (Or.inl ⟨order, rfl, hidle, hperm, rfl⟩))
  | stopStep =>
    simp only [next] at h
    split at h
    · rename_i w stage rest hstopper
      exact Or.inr (Or.inr (Or.inr ⟨w, stage, rest, rfl, hstopper, h⟩))
    · cases h

theorem stopStep_cases {w : Nat} {stage : StopStage} {rest : List Nat}
    (h : s.stopStep w rest stage = some s') :
    s'.ran = s.ran ∧ (Pushes (· = none) s s' ∨ stage = .flag ∧
      s'.worker = Function.update s.worker w { s.worker w with stopFlag := true }) := by
  cases stage with
  | check =>
    cases h
    exact ⟨rfl, Or.inl (Or.inl rfl)⟩
  | push =>
    cases h
    exact ⟨rfl, Or.inl (Or.inr ⟨w, none, rfl, rfl⟩)⟩
  | flag =>
    cases h
    exact ⟨rfl, Or.inr ⟨rfl, rfl⟩⟩
  | wait =>
    obtain ⟨-, h⟩ := Option.ite_none_right_eq_some.mp h
    cases h
    exact ⟨rfl, Or.inl (Or.inl rfl)⟩

theorem change_pushes {p : Option Nat → Prop} (h : Pushes p s s') (w : Nat) :
    Worker.Change s.gid (s.worker w) (s'.worker w) := by
  rcases h with hsame | ⟨w', task, -, hpush⟩
  · rw [hsame]
    exact .same
  · rw [hpush]
    exact change_update (.push task) w

/-- Only the main thread tells a worker to stop. -/
theorem change_next (h : next n s a = some s') (w : Nat) :
    Worker.Change s.gid (s.worker w) (s'.worker w) ∨
    ∃ rest, s.stopper = .stopping w .flag rest ∧
      s'.worker w = { s.worker w with stopFlag := true } := by
  rcases next_cases h with ⟨-, -, -, -, hpushes⟩ | ⟨w', step, v, -, -, hact, -, hworker, -⟩ |
    ⟨order, -, -, -, rfl⟩ | ⟨w', stage, rest, -, hstopper, hstep⟩
  · exact Or.inl (change_pushes hpushes w)
  · rw [hworker]
    exact Or.inl (change_update (.act step hact) w)
  · exact Or.inl .same
  · obtain ⟨-, hpushes | ⟨rfl, hworker⟩⟩ := stopStep_cases hstep
    · exact Or.inl (change_pushes hpushes w)
    rw [hworker]
    by_cases heq : w = w'
    · subst heq
      exact Or.inr ⟨rest, hstopper, Function.update_self ..⟩
    · exact Or.inl (change_other heq)

/-- The workers that the main thread has not stopped yet. -/
def pending (n : Nat) : StopPc → List Nat
  | .idle => List.range n
  | .stopping w _ rest => w :: rest
  | .returned => []

@[simp] theorem pending_next (rest : List Nat) : pending n (.next rest) = rest := by
  cases rest <;> rfl

/-- The main thread and the workers. -/
structure Inv (n : Nat) (s : WorkerPool) : Prop where
  honest : ∀ w, (s.worker w).Honest
  woken : ∀ w, (s.worker w).stopFlag = true → (s.worker w).Woken
  pushed : ∀ w rest, s.stopper = .stopping w .flag rest → (s.worker w).Woken
  told : ∀ w rest, s.stopper = .stopping w .wait rest → (s.worker w).stopFlag = true
  quiet : ∀ w, w < n → w ∉ pending n s.stopper → (s.worker w).Quiet
  known : ∀ w ∈ pending n s.stopper, w < n

theorem inv_start (gid : Nat → Nat) : Inv n (start objects gid) where
  honest w := by simp [start, Worker.new, Worker.Honest]
  woken w h := by cases h
  pushed w rest h := by cases h
  told w rest h := by cases h
  quiet w hw hnot := absurd (List.mem_range.mpr hw) hnot
  known w hw := List.mem_range.mp hw

/-- `m_stoped` shows that a worker that is told to stop runs nothing. -/
theorem quiet_of_stoped {v : Worker} (hhonest : v.Honest) (htold : v.stopFlag = true)
    (hstoped : v.stoped = true) : v.Quiet := by
  refine ⟨htold, ?_⟩
  intro t
  rcases hhonest.mp hstoped with hpc | ⟨task, hpc⟩ <;> simp [hpc]

theorem honest_next (h : Inv n s) (hnext : next n s a = some s') (w : Nat) :
    (s'.worker w).Honest := by
  rcases change_next hnext w with hchange | ⟨rest, -, heq⟩
  · exact (h.honest w).change hchange
  · rw [heq]
    exact h.honest w

theorem woken_next (hnext : next n s a = some s') {w : Nat} (h : (s.worker w).Woken) :
    (s'.worker w).Woken := by
  rcases change_next hnext w with hchange | ⟨rest, -, heq⟩
  · exact h.change hchange
  · rw [heq]
    exact h

theorem told_next (hnext : next n s a = some s') {w : Nat} (h : (s.worker w).stopFlag = true) :
    (s'.worker w).stopFlag = true := by
  rcases change_next hnext w with hchange | ⟨rest, -, heq⟩
  · exact (Worker.stopFlag_change hchange).trans h
  · rw [heq]

theorem quiet_next (hnext : next n s a = some s') {w : Nat} (h : (s.worker w).Quiet) :
    (s'.worker w).Quiet := by
  rcases change_next hnext w with hchange | ⟨rest, -, heq⟩
  · exact h.change hchange
  · rw [heq]
    exact ⟨rfl, h.idle⟩

theorem flag_woken_next (h : Inv n s) (hnext : next n s a = some s') (w : Nat)
    (htold : (s'.worker w).stopFlag = true) : (s'.worker w).Woken := by
  apply woken_next hnext
  rcases change_next hnext w with hchange | ⟨rest, hstopper, -⟩
  · exact h.woken w ((Worker.stopFlag_change hchange).symm.trans htold)
  · exact h.pushed w rest hstopper

/-- A step that leaves the main thread where it is. -/
theorem inv_of_stopper (h : Inv n s) (hnext : next n s a = some s')
    (hsame : s'.stopper = s.stopper) : Inv n s' where
  honest := honest_next h hnext
  woken := flag_woken_next h hnext
  pushed w rest hstopper := woken_next hnext (h.pushed w rest (hsame.symm.trans hstopper))
  told w rest hstopper := told_next hnext (h.told w rest (hsame.symm.trans hstopper))
  quiet w hw hnot := by
    rw [hsame] at hnot
    exact quiet_next hnext (h.quiet w hw hnot)
  known := by
    rw [hsame]
    exact h.known

theorem inv_next (h : Inv n s) (hnext : next n s a = some s') : Inv n s' := by
  have hhonest := honest_next h hnext
  have hwoken := flag_woken_next h hnext
  rcases next_cases hnext with ⟨-, -, hsame, -⟩ | ⟨_, _, _, -, -, -, hsame, -⟩ |
    ⟨order, rfl, hidle, hperm, rfl⟩ | ⟨w, stage, rest, rfl, hstopper, hstep⟩
  · exact inv_of_stopper h hnext hsame
  · exact inv_of_stopper h hnext hsame
  · have hmem (w : Nat) : w ∈ pending n (StopPc.next order) ↔ w < n := by
      rw [pending_next, hperm.mem_iff, List.mem_range]
    refine ⟨hhonest, hwoken, ?_, ?_, ?_, ?_⟩
    · intro w rest hstopper
      cases order <;> cases hstopper
    · intro w rest hstopper
      cases order <;> cases hstopper
    · intro w hw hnot
      exact absurd ((hmem w).mpr hw) hnot
    · intro w hw
      exact (hmem w).mp hw
  -- the main thread goes on with worker `w`
  have hknown := h.known
  have hquiet := h.quiet
  rw [hstopper] at hknown hquiet
  have hquiet' (w' : Nat) (hw' : w' < n) (hnot : w' ∉ w :: rest) : (s'.worker w').Quiet :=
    quiet_next hnext (hquiet w' hw' hnot)
  cases stage with
  | check =>
    cases hstep
    refine ⟨hhonest, hwoken, ?_, ?_, hquiet', hknown⟩
    · intro w' rest' hstopper'
      cases htold : (s.worker w).stopFlag with
      | true =>
        simp only [htold, if_true] at hstopper'
        cases hstopper'
        exact h.woken w htold
      | false =>
        simp only [htold, Bool.false_eq_true, if_false] at hstopper'
        cases hstopper'
    · intro w' rest' hstopper'
      cases htold : (s.worker w).stopFlag <;> simp [htold] at hstopper'
  | push =>
    cases hstep
    refine ⟨hhonest, hwoken, ?_, ?_, hquiet', hknown⟩
    · intro w' rest' hstopper'
      cases hstopper'
      simp only [Function.update_self]
      exact Worker.woken_push _
    · intro w' rest' hstopper'
      cases hstopper'
  | flag =>
    cases hstep
    refine ⟨hhonest, hwoken, ?_, ?_, hquiet', hknown⟩
    · intro w' rest' hstopper'
      cases hstopper'
    · intro w' rest' hstopper'
      cases hstopper'
      simp only [Function.update_self]
  | wait =>
    obtain ⟨hstoped, hstep⟩ := Option.ite_none_right_eq_some.mp hstep
    cases hstep
    have hdone : (s.worker w).Quiet :=
      quiet_of_stoped (h.honest w) (h.told w rest hstopper) hstoped
    refine ⟨hhonest, hwoken, ?_, ?_, ?_, ?_⟩
    · intro w' rest' hstopper'
      cases rest <;> cases hstopper'
    · intro w' rest' hstopper'
      cases rest <;> cases hstopper'
    · intro w' hw' hnot
      rw [pending_next] at hnot
      by_cases heq : w' = w
      · rw [heq]
        exact hdone
      · exact hquiet' w' hw' (by simp [heq, hnot])
    · intro w' hw'
      rw [pending_next] at hw'
      exact hknown w' (List.mem_cons_of_mem w hw')

theorem stopping_inv (hreach : (system n objects).Reachable s) : Inv n s := by
  apply hreach.invariant (P := Inv n)
  · rintro s ⟨gid, rfl⟩
    exact inv_start gid
  · intro s a s' _ h hnext
    exact inv_next h hnext

/-! ## After the stop -/

/-- The worker runs a task while it is stopped. -/
def stopWhileRunning : List Action :=
  [.work 0 .start, .allocate 0 1 5, .setGid 0, .readFlag 0, .assign 0, .work 0 .pop, .work 0 .check,
    .stop [0], .stopStep, .stopStep, .stopStep]

def leaveLoop : List Action :=
  [.work 0 .finish, .work 0 .destroy, .work 0 .pop, .work 0 .check, .stopStep]

/-- The steps that the main thread still takes. -/
def left : StopPc → Nat
  | .idle => 0
  | .stopping _ .check rest => 4 + 4 * rest.length
  | .stopping _ .push rest => 3 + 4 * rest.length
  | .stopping _ .flag rest => 2 + 4 * rest.length
  | .stopping _ .wait rest => 1 + 4 * rest.length
  | .returned => 0

theorem left_of_next (rest : List Nat) : left (.next rest) = 4 * rest.length := by
  cases rest with
  | nil => rfl
  | cons w rest =>
    rw [StopPc.next, left, List.length_cons]
    omega

theorem left_stopStep {w : Nat} {stage : StopStage} {rest : List Nat}
    (hstopper : s.stopper = .stopping w stage rest) (hstep : s.stopStep w rest stage = some s') :
    left s'.stopper + 1 ≤ left s.stopper := by
  rw [hstopper]
  cases stage with
  | check =>
    cases hstep
    cases (s.worker w).stopFlag <;> simp only [left, if_true, Bool.false_eq_true, if_false] <;> omega
  | push =>
    cases hstep
    simp only [left]
    omega
  | flag =>
    cases hstep
    simp only [left]
    omega
  | wait =>
    obtain ⟨-, hstep⟩ := Option.ite_none_right_eq_some.mp hstep
    cases hstep
    change left (.next rest) + 1 ≤ 1 + 4 * rest.length
    rw [left_of_next]
    omega

/-- The other steps leave the worker where it is. -/
theorem pc_next {w : Nat} (hnot : a.isWork w = false) (hnext : next n s a = some s') :
    (s'.worker w).pc = (s.worker w).pc := by
  have hupdate {w' : Nat} {v : Worker} (hpc : v.pc = (s.worker w').pc) :
      (Function.update s.worker w' v w).pc = (s.worker w).pc := by
    by_cases heq : w = w'
    · subst heq
      rw [Function.update_self]
      exact hpc
    · rw [Function.update_of_ne heq]
  have hpushes {p : Option Nat → Prop} (h : Pushes p s s') :
      (s'.worker w).pc = (s.worker w).pc := by
    rcases h with hsame | ⟨w', task, -, hpush⟩
    · rw [hsame]
    · rw [hpush]
      exact hupdate rfl
  rcases next_cases hnext with ⟨-, -, -, -, h⟩ | ⟨w', step, v, rfl, -, -, -, hworker, -⟩ |
    ⟨order, -, -, -, rfl⟩ | ⟨w', stage, rest, -, -, hstep⟩
  · exact hpushes h
  · have hne : w ≠ w' := by
      rintro rfl
      simp [Action.isWork] at hnot
    rw [hworker, Function.update_of_ne hne]
  · rfl
  · obtain ⟨-, h | ⟨-, hworker⟩⟩ := stopStep_cases hstep
    · exact hpushes h
    · rw [hworker]
      exact hupdate rfl

theorem togo_next {w : Nat} (htold : (s.worker w).stopFlag = true)
    (hnext : next n s a = some s') :
    (s.worker w).pc.togo = (s'.worker w).pc.togo + if a.isWork w then 1 else 0 := by
  cases hwork : a.isWork w with
  | false =>
    rw [pc_next hwork hnext]
    rfl
  | true =>
    cases a with
    | work w' step =>
      rw [Action.isWork, beq_iff_eq] at hwork
      subst hwork
      obtain ⟨-, hnext⟩ := Option.ite_none_right_eq_some.mp hnext
      obtain ⟨v, hact, rfl⟩ := Option.map_eq_some_iff.mp hnext
      simp only [Function.update_self]
      exact Worker.togo_act htold hact
    | _ => cases hwork

theorem togo_run {w : Nat} {as : List Action} (hrun : (system n objects).Run s as s')
    (htold : (s.worker w).stopFlag = true) :
    as.countP (Action.isWork w) + (s'.worker w).pc.togo = (s.worker w).pc.togo := by
  induction hrun with
  | nil => exact Nat.zero_add _
  | @cons s t s' a as hnext _ ih =>
    rw [togo_next htold hnext, ← ih (told_next hnext htold), List.countP_cons]
    omega

theorem begun_next (hbegun : s.stopper ≠ .idle) (hnext : next n s a = some s') :
    s'.stopper ≠ .idle := by
  rcases next_cases hnext with ⟨-, -, hsame, -⟩ | ⟨_, _, _, -, -, -, hsame, -⟩ |
    ⟨order, -, hidle, -⟩ | ⟨w, stage, rest, -, hstopper, hstep⟩
  · rw [hsame]
    exact hbegun
  · rw [hsame]
    exact hbegun
  · exact absurd hidle hbegun
  · intro hidle
    cases stage with
    | wait =>
      obtain ⟨-, hstep⟩ := Option.ite_none_right_eq_some.mp hstep
      cases hstep
      cases rest <;> cases hidle
    | _ =>
      cases hstep
      cases hidle

theorem left_next (hbegun : s.stopper ≠ .idle) (hnext : next n s a = some s') :
    (if a == .stopStep then 1 else 0) + left s'.stopper ≤ left s.stopper := by
  rcases next_cases hnext with ⟨-, hne, hsame, -⟩ | ⟨w, step, v, rfl, -, -, hsame, -⟩ |
    ⟨order, -, hidle, -⟩ | ⟨w, stage, rest, rfl, hstopper, hstep⟩
  · rw [hsame, if_neg (by simpa using hne), Nat.zero_add]
  · rw [hsame]
    exact (Nat.zero_add _).le
  · exact absurd hidle hbegun
  · have hleft := left_stopStep hstopper hstep
    rw [beq_self_eq_true, if_pos rfl]
    omega

theorem left_run {as : List Action} (hrun : (system n objects).Run s as s')
    (hbegun : s.stopper ≠ .idle) : as.count .stopStep + left s'.stopper ≤ left s.stopper := by
  induction hrun with
  | nil => exact (Nat.zero_add _).le
  | @cons s t s' a as hnext _ ih =>
    have hstep := left_next hbegun hnext
    have hrest := ih (begun_next hbegun hnext)
    rw [List.count_cons]
    omega

/-- A worker that is told to stop and has not set `m_stoped` can take its next step. -/
theorem exists_work (h : Inv n s) {w : Nat} (hw : w < n)
    (htold : (s.worker w).stopFlag = true) (hstoped : (s.worker w).stoped = false) :
    ∃ step t, next n s (.work w step) = some t := by
  have hin : (s.worker w).pc.togo ≠ 0 := by
    intro hzero
    have hexited : ∃ task, (s.worker w).pc = .exited task := by
      cases hpc : (s.worker w).pc <;> rw [hpc] at hzero <;> first | exact ⟨_, rfl⟩ | cases hzero
    cases hstoped.symm.trans ((h.honest w).mpr (Or.inr hexited))
  obtain ⟨step, v, hact⟩ := Worker.exists_act s.gid (h.woken w htold) hin
  exact ⟨step, _, by rw [next, if_pos hw, hact]; rfl⟩

/-- **The stop comes to an end.** The main thread takes four steps at most for each worker that is
left, and a worker that is told to stop four. While the main thread has not returned it can take its
next step, or the worker that it waits for can. -/
theorem stop_comes_to_an_end (hreach : (system n objects).Reachable s)
    (hbegun : s.stopper ≠ .idle) {as : List Action} (hrun : (system n objects).Run s as s') :
    as.count .stopStep + left s'.stopper ≤ left s.stopper ∧
    (∀ w, (s.worker w).stopFlag = true →
      as.countP (Action.isWork w) + (s'.worker w).pc.togo = (s.worker w).pc.togo) ∧
    (s'.stopper = .returned ∨ (∃ t, next n s' .stopStep = some t) ∨
      ∃ w rest step t, s'.stopper = .stopping w .wait rest ∧ (s'.worker w).stopFlag = true ∧
        next n s' (.work w step) = some t) := by
  refine ⟨left_run hrun hbegun, fun w => togo_run hrun, ?_⟩
  have hinv := stopping_inv (hreach.run hrun)
  have hbegun' : s'.stopper ≠ .idle := by
    apply hrun.keeps (P := fun u => u.stopper ≠ .idle) hreach
    · intro u a u' _ hu hnext
      exact begun_next hu hnext
    · exact hbegun
  cases hstopper : s'.stopper with
  | idle => exact absurd hstopper hbegun'
  | returned => exact Or.inl rfl
  | stopping w stage rest =>
    refine Or.inr ?_
    cases stage with
    | wait =>
      cases hstoped : (s'.worker w).stoped with
      | true => exact Or.inl ⟨_, by simp only [next, hstopper, stopStep, hstoped, if_true]; rfl⟩
      | false =>
        have hw : w < n := by
          apply hinv.known
          rw [hstopper]
          exact List.mem_cons_self
        have htold := hinv.told w rest hstopper
        obtain ⟨step, t, hstep⟩ := exists_work hinv hw htold hstoped
        exact Or.inr ⟨w, rest, step, t, rfl, htold, hstep⟩
    | _ => exact Or.inl ⟨_, by simp only [next, hstopper]; rfl⟩

theorem stop_comes_to_an_end_one : ∃ s s' : WorkerPool,
    (system 1 {1, 2}).Reachable s ∧ s.stopper = .stopping 0 .wait [] ∧
      (system 1 {1, 2}).Run s leaveLoop s' ∧ leaveLoop.countP (Action.isWork 0) +
        (s'.worker 0).pc.togo = (s.worker 0).pc.togo := by
  have hstart : (system 1 {1, 2}).Reachable (start {1, 2} fun _ => 0) := .start ⟨_, rfl⟩
  obtain ⟨s, s', hexec, hstopper, htold, hleave⟩ : ∃ s s' : WorkerPool,
      (system 1 {1, 2}).exec (start {1, 2} fun _ => 0) stopWhileRunning = some s ∧
        s.stopper = .stopping 0 .wait [] ∧ (s.worker 0).stopFlag = true ∧
        (system 1 {1, 2}).exec s leaveLoop = some s' := ⟨_, _, rfl, rfl, rfl, rfl⟩
  have hreach := hstart.run (.of_exec hexec)
  have hrun := System.Run.of_exec hleave
  have hbegun : s.stopper ≠ .idle := by
    rw [hstopper]
    simp
  exact ⟨s, s', hreach, hstopper, hrun, (stop_comes_to_an_end hreach hbegun hrun).2.1 0 htold⟩

end WorkerPool

end Tubekit
