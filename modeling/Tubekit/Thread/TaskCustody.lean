import Tubekit.Thread.Coalescing

/-!
# Task objects are conserved

The pool is a set, so a second release of an object would not fail: the object would be handed to
two threads later. It does not happen. Every object is in the free set, in the hand of a thread
inside `do_task`, at one position of one queue, or in the run of one worker, and each release finds
the object outside the free set.
-/

namespace Tubekit

open Lib.Transition

/-- `TaskPlace` with the position in the queue. -/
inductive TaskSpot where
  | free
  | hand (caller : Nat)
  | queued (worker position : Nat)
  | run (worker : Nat)

namespace TaskSpot

def place : TaskSpot → TaskPlace
  | .free => .pool
  | .hand c => .caller c
  | .queued w _ => .queue w
  | .run w => .worker w

end TaskSpot

namespace Dispatch

variable {n : Nat} {objects : Finset Nat} {s s' : Dispatch} {a : Action}

def Spot (s : Dispatch) (t : Nat) : TaskSpot → Prop
  | .free => t ∈ s.pool
  | .hand c => (s.caller c).task = some t
  | .queued w i => (s.queue w).task[i]? = some (some t)
  | .run w => (s.worker w).task = some t

/-- The task that the action gives back to the pool. -/
def Action.releases (s : Dispatch) : Action → Option Nat
  | .destroyRejected c =>
    match s.caller c with
    | .rejected t => some t
    | _ => none
  | .destroy w =>
    match s.worker w with
    | .finished t => some t
    | _ => none
  | _ => none

theorem mem_tasks_iff {q : TaskQueue} {t : Nat} :
    t ∈ q.tasks ↔ ∃ i : Nat, q.task[i]? = some (some t) := by
  rw [TaskQueue.tasks, List.reduceOption_mem_iff, List.mem_iff_getElem?]

/-- A list without repetitions has an element at one index only. -/
theorem position_unique {l : List (Option Nat)} (hnodup : l.reduceOption.Nodup) {t i j : Nat}
    (hi : l[i]? = some (some t)) (hj : l[j]? = some (some t)) : i = j := by
  induction l generalizing i j with
  | nil => simp at hi
  | cons head l ih =>
    have hmem : ∀ k : Nat, l[k]? = some (some t) → t ∈ l.reduceOption := fun k hk =>
      List.reduceOption_mem_iff.2 (List.mem_of_getElem? hk)
    cases i with
    | zero =>
      cases j with
      | zero => rfl
      | succ j =>
        simp only [List.getElem?_cons_zero, Option.some.injEq] at hi
        subst hi
        rw [List.reduceOption_cons_of_some, List.nodup_cons] at hnodup
        exact absurd (hmem j (by simpa using hj)) hnodup.1
    | succ i =>
      cases j with
      | zero =>
        simp only [List.getElem?_cons_zero, Option.some.injEq] at hj
        subst hj
        rw [List.reduceOption_cons_of_some, List.nodup_cons] at hnodup
        exact absurd (hmem i (by simpa using hi)) hnodup.1
      | succ j =>
        have htail : l.reduceOption.Nodup := by
          cases head with
          | none => simpa using hnodup
          | some u =>
            rw [List.reduceOption_cons_of_some, List.nodup_cons] at hnodup
            exact hnodup.2
        exact congrArg (· + 1) (ih htail (by simpa using hi) (by simpa using hj))

theorem at_of_spot {t : Nat} {p : TaskSpot} (h : s.Spot t p) : s.At t p.place := by
  cases p with
  | free => exact h
  | hand c => exact h
  | queued w i => exact mem_tasks_iff.2 ⟨i, h⟩
  | run w => exact h

theorem spot_of_at {t : Nat} {p : TaskPlace} (h : s.At t p) : ∃ p' : TaskSpot, p'.place = p ∧ s.Spot t p' := by
  cases p with
  | pool => exact ⟨.free, rfl, h⟩
  | caller c => exact ⟨.hand c, rfl, h⟩
  | queue w =>
    obtain ⟨i, hi⟩ := mem_tasks_iff.1 h
    exact ⟨.queued w i, rfl, hi⟩
  | worker w => exact ⟨.run w, rfl, h⟩

theorem spot_custody (h : Inv n objects s) : Custody s.Spot ↑objects := by
  refine ⟨fun t ht => ?_, fun t p hp => h.custody.known t p.place (at_of_spot hp)⟩
  obtain ⟨p, hp, -⟩ := h.custody.one t ht
  obtain ⟨spot, -, hspot⟩ := spot_of_at hp
  refine ⟨spot, hspot, fun other hother => ?_⟩
  have hplace : other.place = spot.place := h.custody.unique (at_of_spot hother) (at_of_spot hspot)
  cases other with
  | free => cases spot <;> first | rfl | cases hplace
  | hand c => cases spot <;> cases hplace; rfl
  | run w => cases spot <;> cases hplace; rfl
  | queued w i =>
    cases spot with
    | queued w' j =>
      cases hplace
      rw [position_unique (h.queues w).onePerGid.of_map hother hspot]
    | _ => cases hplace

/-- The gid of an object changes only in the hand of a caller. -/
theorem gid_step (h : Inv n objects s) (hstep : Step n s a s') {t : Nat} {p : TaskPlace}
    (ht : s.At t p) (hp : ∀ c, p ≠ .caller c) : s'.gid t = s.gid t := by
  cases hstep with
  | @setGid c u g hc =>
    have hu : s.At u (.caller c) := by simp [At, hc, CallerPc.task]
    refine Function.update_of_ne ?_ _ _
    rintro rfl
    exact hp c (h.custody.unique ht hu)
  | _ => rfl

/-- A released object is not in the free set before, and is in it afterwards. -/
theorem releases_step (h : Inv n objects s) (hstep : Step n s a s') {t : Nat}
    (hrel : a.releases s = some t) : t ∉ s.pool ∧ t ∈ s'.pool := by
  cases hstep with
  | @destroyRejected c u hc =>
    simp only [Action.releases, hc, Option.some.injEq] at hrel
    subst hrel
    have hu : s.At u (.caller c) := by simp [At, hc, CallerPc.task]
    refine ⟨fun hpool => ?_, Finset.mem_insert_self u s.pool⟩
    cases h.custody.unique (p := .pool) hpool hu
  | @destroy w u hw =>
    simp only [Action.releases, hw, Option.some.injEq] at hrel
    subst hrel
    have hu : s.At u (.worker w) := by simp [At, hw, WorkerPc.task]
    refine ⟨fun hpool => ?_, Finset.mem_insert_self u s.pool⟩
    cases h.custody.unique (p := .pool) hpool hu
  | _ => cases hrel

/-- An object leaves the free set when a caller takes it. -/
theorem pool_step (hstep : Step n s a s') {t : Nat} (ht : t ∈ s.pool) :
    t ∈ s'.pool ∨ ∃ c g, a = .allocate c t g := by
  cases hstep with
  | @allocate c u g hc hu =>
    by_cases heq : t = u
    · subst heq
      exact .inr ⟨c, g, rfl⟩
    · exact .inl (Finset.mem_erase.2 ⟨heq, ht⟩)
  | destroyRejected hc => exact .inl (Finset.mem_insert_of_mem ht)
  | destroy hw => exact .inl (Finset.mem_insert_of_mem ht)
  | _ => exact .inl ht

/-- A step of another caller. -/
theorem rejected_update {c c' t : Nat} {pc pc' : CallerPc} (hc : s.caller c = .rejected t)
    (hc' : s.caller c' = pc) (hpc : pc ≠ .rejected t) : Function.update s.caller c' pc' c = .rejected t := by
  have hne : c ≠ c' := by
    rintro rfl
    exact hpc (hc'.symm.trans hc)
  rw [Function.update_of_ne hne, hc]

/-- A caller whose push was rejected holds the object until it gives it back. -/
theorem rejected_step (hstep : Step n s a s') {c t : Nat} (hc : s.caller c = .rejected t)
    (ha : a ≠ .destroyRejected c) : s'.caller c = .rejected t := by
  cases hstep with
  | allocate hc' _ => exact rejected_update hc hc' (by simp)
  | setGid hc' => exact rejected_update hc hc' (by simp)
  | assignTaken hc' _ => exact rejected_update hc hc' (by simp)
  | assignRejected hc' _ => exact rejected_update hc hc' (by simp)
  | @destroyRejected c' u hc' =>
    have hne : c ≠ c' := by
      rintro rfl
      exact ha rfl
    simpa [Function.update_of_ne hne] using hc
  | _ => exact hc

theorem rejected_run {as : List Action} (hrun : (system n objects).Run s as s') {c t : Nat}
    (hc : s.caller c = .rejected t) (has : .destroyRejected c ∉ as) : s'.caller c = .rejected t := by
  induction hrun with
  | nil => exact hc
  | cons hnext _ ih =>
    rw [List.mem_cons, not_or] at has
    exact ih (rejected_step (step_of_next hnext) hc (Ne.symm has.1)) has.2

/-- **Conservation of task objects.** In every reachable state every object is at one spot and
nothing else is. A step leaves the gids of the queued and the running tasks as they are; what it
releases was not free, and an object stays free until a caller takes it. A push that the queue
rejects leaves the object with the caller, whose next step, whenever it comes, puts it back into
the free set. -/
theorem task_objects_conserved (h : (system n objects).Reachable s) :
    (∀ t ∈ objects, ∃! p, s.Spot t p) ∧ (∀ t p, s.Spot t p → t ∈ objects) ∧
    (∀ a s', next n s a = some s' →
      (∀ t w i, s.Spot t (.queued w i) ∨ s.Spot t (.run w) → s'.gid t = s.gid t) ∧
      (∀ t, a.releases s = some t → t ∉ s.pool ∧ t ∈ s'.pool) ∧
      (∀ t ∈ s.pool, t ∈ s'.pool ∨ ∃ c g, a = .allocate c t g)) ∧
    (∀ c t g s', s.caller c = .created t g → s.gid t ∈ (s.queue (s.gid t % n)).inTask →
      next n s (.assign c) = some s' →
      ∀ as s'', (system n objects).Run s' as s'' → .destroyRejected c ∉ as →
        s''.Spot t (.hand c) ∧ ∃ final, next n s'' (.destroyRejected c) = some final ∧
          final.Spot t .free) := by
  have hinv := inv_reachable h
  have hcustody := spot_custody hinv
  refine ⟨hcustody.one, hcustody.known, fun a s' hnext => ?_, fun c t g s' hc hold hnext as s'' hrun has => ?_⟩
  · have hstep := step_of_next hnext
    refine ⟨fun t w i ht => ?_, fun t => releases_step hinv hstep, fun t => pool_step hstep⟩
    rcases ht with ht | ht
    · exact gid_step hinv hstep (at_of_spot ht) (by simp [TaskSpot.place])
    · exact gid_step hinv hstep (at_of_spot ht) (by simp [TaskSpot.place])
  · have hrejected : s'.caller c = .rejected t := by
      cases step_of_next hnext with
      | assignTaken hc' hnew =>
        rw [hc] at hc'
        cases hc'
        exact absurd hold hnew
      | assignRejected hc' _ =>
        rw [hc] at hc'
        cases hc'
        exact Function.update_self _ _ _
    have hlast := rejected_run hrun hrejected has
    refine ⟨by simp [Spot, hlast, CallerPc.task], _, by rw [next, hlast], ?_⟩
    simp [Spot]

/-- Two calls of `do_task(5)`, the second while the task of the first is queued. -/
def duplicateCall : List Action :=
  [.allocate 0 1 5, .setGid 0, .assign 0, .allocate 1 2 5, .setGid 1]

theorem task_objects_conserved_duplicate :
    ∃ s s' : Dispatch, (system 2 {1, 2, 3}).Reachable s ∧ next 2 s (.assign 1) = some s' ∧
      s'.Spot 2 (.hand 1) := by
  obtain ⟨s, s', hexec, hcaller, hin, hnext⟩ : ∃ s s' : Dispatch,
      (system 2 {1, 2, 3}).exec (start {1, 2, 3} fun _ => 0) duplicateCall = some s ∧
        s.caller 1 = .created 2 5 ∧ s.gid 2 ∈ (s.queue (s.gid 2 % 2)).inTask ∧
        next 2 s (.assign 1) = some s' :=
    ⟨_, _, rfl, rfl, by decide, rfl⟩
  have hstart : (system 2 {1, 2, 3}).Reachable (start {1, 2, 3} fun _ => 0) := .start ⟨_, rfl⟩
  have hreach := hstart.run (.of_exec hexec)
  have hrejected := (task_objects_conserved hreach).2.2.2 1 2 5 s' hcaller hin hnext [] s' (.nil s') (by simp)
  exact ⟨s, s', hreach, hnext, hrejected.1⟩

end Dispatch

end Tubekit
