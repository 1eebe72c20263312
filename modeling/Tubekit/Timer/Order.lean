import Mathlib.Data.Int.Order.Basic
import Tubekit.Lib.HeapOrder
import Tubekit.Timer.Firing

/-!
# Which timers a check runs

The queue is ordered by expiry times (`Ordered`). `run` changes that of the first timer while it
is still in the queue, which `pop` does not mind, and the others are as they were: so the first
loop of `check_and_handle` meets the expired timers in the order of their expiry times at entry,
and stops behind the last of them (`checkLoop_ordered`).
-/

namespace Tubekit

open Lib

namespace TimerManager

variable {m m' : TimerManager} {now : Int}

/-- The expiry time of a timer that is alive. -/
def due (timers : TimerPtr → Option Timer) (p : TimerPtr) : Int :=
  ((timers p).map Timer.expiredTime).getD 0

/-- The queue has the heap order. -/
def Ordered (m : TimerManager) : Prop := BinaryHeap.HeapOrdered (due m.timers) m.queue

theorem due_eq {timers : TimerPtr → Option Timer} {p : TimerPtr} {t : Timer}
    (h : timers p = some t) : due timers p = t.expiredTime := by
  rw [due, h]
  rfl

theorem ordered_empty (initialId : Nat) : (empty initialId).Ordered := by
  intro i x p _ hx
  cases hx

theorem ranks {timers : TimerPtr → Option Timer} {ptrs : List TimerPtr}
    (h : ∀ p ∈ ptrs, (timers p).isSome = true) :
    BinaryHeap.Ranks (comparator timers) (due timers) ptrs := by
  intro a ha b hb
  obtain ⟨x, hx⟩ := Option.isSome_iff_exists.mp (h a ha)
  obtain ⟨y, hy⟩ := Option.isSome_iff_exists.mp (h b hb)
  simp only [comparator, hx, hy, due_eq hx, due_eq hy, gt_iff_lt]

/-- A timer outside of the queue does not count for its order. -/
theorem due_update {timers : TimerPtr → Option Timer} {ptr p : TimerPtr} (hne : p ≠ ptr)
    (t : Option Timer) : due (Function.update timers ptr t) p = due timers p := by
  rw [due, Function.update_of_ne hne, due]

theorem add_ordered (hm : m.Sound) (hordered : m.Ordered) {ptr : TimerPtr}
    (hfree : m.timers ptr = none) {repeatedTimes interval : Int} {id : Nat}
    (hadd : m.add ptr now repeatedTimes interval = some (id, m')) : m'.Ordered := by
  have hne : ∀ p ∈ m.queue, p ≠ ptr := by
    rintro p hp rfl
    rw [hm.live, hfree] at hp
    cases hp
  have hlive : ∀ p ∈ ptr :: m.queue, (Function.update m.timers ptr
      (some (.new (m.initialId + 1) now repeatedTimes interval)) p).isSome = true := by
    intro p hp
    rcases List.mem_cons.mp hp with rfl | hp
    · rw [Function.update_self]
      rfl
    · rw [Function.update_of_ne (hne p hp)]
      exact (hm.live p).mp hp
  obtain ⟨queue, hpush, -⟩ := BinaryHeap.push_spec (comparable hlive)
  simp only [add, hpush, Option.some.injEq, Prod.mk.injEq] at hadd
  obtain ⟨-, rfl⟩ := hadd
  exact BinaryHeap.push_ordered (ranks hlive)
    (hordered.congr fun p hp => due_update (hne p hp) _) hpush

/-- The first loop of `check_and_handle`: it runs the expired timers in order. -/
theorem checkLoop_ordered {fuel : Nat} {list list' : List TimerPtr} {fired : List Firing}
    (h : Balanced m list) (hordered : m.Ordered) (hfuel : m.queue.length ≤ fuel)
    (hloop : checkLoop now fuel m list = some (fired, m', list')) :
    m'.Ordered ∧
      (∀ p, p ∈ ranLoop now fuel m ↔ p ∈ m.queue ∧ due m.timers p ≤ now) ∧
      (ranLoop now fuel m).Pairwise fun p q => due m.timers p ≤ due m.timers q := by
  induction fuel generalizing m list fired with
  | zero =>
    rw [checkLoop, Option.some.injEq, Prod.mk.injEq, Prod.mk.injEq] at hloop
    obtain ⟨-, rfl, -⟩ := hloop
    have hnil := List.eq_nil_of_length_eq_zero (Nat.le_zero.mp hfuel)
    refine ⟨hordered, fun p => ?_, List.Pairwise.nil⟩
    rw [ranLoop, hnil]
    exact ⟨fun hp => absurd hp List.not_mem_nil, fun hp => absurd hp.1 List.not_mem_nil⟩
  | succ fuel ih =>
    rw [checkLoop] at hloop
    rw [ranLoop]
    cases hqueue : m.queue with
    | nil =>
      rw [hqueue] at hloop
      simp only [Option.some.injEq, Prod.mk.injEq] at hloop
      obtain ⟨-, rfl, -⟩ := hloop
      exact ⟨hordered, by simp, List.Pairwise.nil⟩
    | cons ptr rest =>
      obtain ⟨t, ht⟩ := h.first hqueue
      have hfirst : ∀ p ∈ ptr :: rest, t.expiredTime ≤ due m.timers p := by
        intro p hp
        rw [← due_eq ht]
        exact hordered.root_le (by rw [hqueue]; rfl) (by rw [hqueue]; exact hp)
      rw [hqueue] at hloop
      simp only [ht] at hloop ⊢
      by_cases hexpired : t.isExpired now = true
      · have hdue : t.expiredTime ≤ now := by simpa [Timer.isExpired] using hexpired
        have hne := h.ne_first hqueue
        have hlive := h.live_rest hqueue t.afterRun
        obtain ⟨queue, hpop, hperm⟩ := BinaryHeap.pop_spec (x := ptr) (comparable hlive)
        have hdelete : (if t.run.2.repeatedTimes == 0 then none else some t.run.2) = t.afterRun := rfl
        simp only [hexpired, if_true, hdelete, hpop] at hloop ⊢
        -- the first timer has changed, the others are ordered as before
        have hrest : BinaryHeap.HeapOrdered (due (Function.update m.timers ptr t.afterRun)) queue :=
          BinaryHeap.pop_ordered (ranks hlive)
            (BinaryHeap.HeapOrdered.gap_root (hqueue ▸ hordered) fun p hp =>
              due_update (hne p hp) _) hpop
        have hnext := h.next hqueue ht hperm
        have hlen : queue.length ≤ fuel := by
          rw [hqueue, List.length_cons] at hfuel
          rw [hperm.length_eq]
          omega
        split at hloop
        · cases hloop
        · rename_i fired₁ out hloop₁
          simp only [Option.some.injEq, Prod.mk.injEq] at hloop
          obtain ⟨-, rfl⟩ := hloop
          obtain ⟨hordered', hmem, hsorted⟩ := ih hnext hrest hlen hloop₁
          have hsame : ∀ p, p ∈ ranLoop now fuel { m with
              queue, timers := Function.update m.timers ptr t.afterRun } →
              p ∈ rest ∧ due (Function.update m.timers ptr t.afterRun) p = due m.timers p := by
            intro p hp
            have hin := hperm.mem_iff.mp ((hmem p).mp hp).1
            exact ⟨hin, due_update (hne p hin) _⟩
          refine ⟨hordered', fun p => ?_, List.Pairwise.cons ?_ ?_⟩
          · rw [List.mem_cons, List.mem_cons]
            by_cases hp : p = ptr
            · subst hp
              rw [due_eq ht]
              exact ⟨fun _ => ⟨Or.inl rfl, hdue⟩, fun _ => Or.inl rfl⟩
            · rw [hmem p, hperm.mem_iff, due_update hp]
              simp only [hp, false_or]
          · intro p hp
            rw [due_eq ht]
            exact hfirst p (List.mem_cons_of_mem _ (hsame p hp).1)
          · refine hsorted.imp_of_mem fun {p q} hp hq hle => ?_
            rwa [(hsame p hp).2, (hsame q hq).2] at hle
      · rw [Bool.not_eq_true] at hexpired
        simp only [hexpired, Bool.false_eq_true, if_false, Option.some.injEq, Prod.mk.injEq]
          at hloop ⊢
        obtain ⟨-, rfl, -⟩ := hloop
        have hlater : now < t.expiredTime := by simpa [Timer.isExpired] using hexpired
        refine ⟨hordered, fun p => ?_, List.Pairwise.nil⟩
        constructor
        · intro hp
          exact absurd hp List.not_mem_nil
        · rintro ⟨hp, hle⟩
          have hafter := hfirst p hp
          omega

theorem pushAll_ordered {list : List TimerPtr} (h : Balanced m list) (hordered : m.Ordered)
    (hpush : m.pushAll list = some m') : m'.Ordered := by
  induction list generalizing m with
  | nil =>
    rw [pushAll, Option.some.injEq] at hpush
    exact hpush ▸ hordered
  | cons ptr list ih =>
    have hlive : ∀ p ∈ ptr :: m.queue, (m.timers p).isSome = true := by
      intro p hp
      rw [← h.live]
      rcases List.mem_cons.mp hp with rfl | hp
      · exact List.mem_append_right _ List.mem_cons_self
      · exact List.mem_append_left _ hp
    obtain ⟨queue, hone, hperm⟩ := BinaryHeap.push_spec (comparable hlive)
    have hall : (queue ++ list).Perm (m.queue ++ ptr :: list) :=
      (hperm.append_right list).trans List.perm_middle.symm
    have hnext : Balanced { m with queue } list :=
      ⟨hall.nodup_iff.mpr h.nodup, fun p => by rw [hall.mem_iff]; exact h.live p⟩
    simp only [pushAll, hone] at hpush
    exact ih hnext (BinaryHeap.push_ordered (ranks hlive) hordered hone) hpush

theorem checkAndHandle_ordered (hm : m.Sound) (hordered : m.Ordered) {fired : List Firing}
    (hcheck : m.checkAndHandle now = some (fired, m')) :
    m'.Ordered ∧ (∀ p, p ∈ m.ran now ↔ p ∈ m.queue ∧ due m.timers p ≤ now) ∧
      (m.ran now).Pairwise fun p q => due m.timers p ≤ due m.timers q := by
  have hstart : Balanced m [] := ⟨by simpa using hm.nodup, by simpa using hm.live⟩
  obtain ⟨m₁, list, hloop, -, -, -, -, hbalanced⟩ := checkLoop_spec now m.queue.length hstart
  obtain ⟨hordered₁, hran⟩ := checkLoop_ordered hstart hordered (Nat.le_refl _) hloop
  obtain ⟨queue, hpush, -⟩ := pushAll_spec hbalanced
  simp only [checkAndHandle, hloop, hpush, Option.some.injEq, Prod.mk.injEq] at hcheck
  obtain ⟨-, rfl⟩ := hcheck
  exact ⟨pushAll_ordered hbalanced hordered₁ hpush, hran⟩

theorem step_ordered (hm : m.Sound) (hordered : m.Ordered) {op : TimerOp} (hallows : m.Allows op)
    {fired : List Firing} (hstep : m.step op = some (fired, m')) : m'.Ordered := by
  cases op with
  | add ptr now repeatedTimes interval =>
    obtain ⟨⟨id, m₁⟩, hadd, heq⟩ := Option.map_eq_some_iff.mp hstep
    rw [Prod.mk.injEq] at heq
    exact add_ordered hm hordered hallows (heq.2 ▸ hadd)
  | checkAndHandle now => exact (checkAndHandle_ordered hm hordered hstep).1

theorem run_ordered (hm : m.Sound) (hordered : m.Ordered) {ops : List TimerOp}
    (hallowed : m.Allowed ops) {logs : List (List Firing)} (hrun : m.run ops = some (logs, m')) :
    m'.Ordered := by
  induction ops generalizing m logs with
  | nil =>
    rw [run, Option.some.injEq, Prod.mk.injEq] at hrun
    exact hrun.2 ▸ hordered
  | cons op ops ih =>
    obtain ⟨fired, m₁, hstep, hm₁, -⟩ := step_total hm hallowed.1
    have hrest := hallowed.2
    rw [hstep] at hrest
    simp only [run, hstep] at hrun
    obtain ⟨⟨logs₁, m₂⟩, hrun₁, heq⟩ := Option.map_eq_some_iff.mp hrun
    simp only [Prod.mk.injEq] at heq
    obtain ⟨-, rfl⟩ := heq
    exact ih hm₁ (step_ordered hm hordered hallowed.1 hstep) hrest hrun₁

/-- **Order.** After any operations, a check at any time runs the timers whose expiry time is not
later, each once and in the order of these times. The queue has the heap order again, and in it,
each once, the other timers as they were and those of the timers run that have repetitions left,
due an interval later. -/
theorem check_runs_expired (initialId : Nat) (ops : List TimerOp)
    (hallowed : (empty initialId).Allowed ops) (now : Int) :
    ∃ logs m m', (empty initialId).run ops = some (logs, m) ∧ m.Ordered ∧
      m.checkAndHandle now = some (calls m.timers now (m.ran now), m') ∧
      (m.ran now).Nodup ∧
      (∀ p, p ∈ m.ran now ↔
        p ∈ m.queue ∧ ∃ t, m.timers p = some t ∧ t.expiredTime ≤ now) ∧
      ((m.ran now).Pairwise fun p q => ∀ t u, m.timers p = some t → m.timers q = some u →
        t.expiredTime ≤ u.expiredTime) ∧
      m'.Ordered ∧ m'.queue.Nodup ∧
      ∀ p t', p ∈ m'.queue ∧ m'.timers p = some t' ↔
        ∃ t, p ∈ m.queue ∧ m.timers p = some t ∧
          (now < t.expiredTime ∧ t' = t ∨
            t.expiredTime ≤ now ∧ t.run.2.repeatedTimes ≠ 0 ∧
              t' = { t with
                repeatedTimes := t.run.2.repeatedTimes
                expiredTime := t.expiredTime + t.interval }) := by
  obtain ⟨logs, m, hrun, hm, -⟩ := run_total (sound_empty initialId) hallowed
  have hordered := run_ordered (sound_empty initialId) (ordered_empty initialId) hallowed hrun
  obtain ⟨m', hcheck, hnodup, -, htimers, -, hm'⟩ := checkAndHandle_spec hm now
  obtain ⟨hordered', hmem, hsorted⟩ := checkAndHandle_ordered hm hordered hcheck
  have hran : ∀ p t, m.timers p = some t → (p ∈ m.ran now ↔ t.expiredTime ≤ now) := by
    intro p t ht
    rw [hmem p, due_eq ht, hm.live, ht]
    exact and_iff_right rfl
  refine ⟨logs, m, m', hrun, hordered, hcheck, hnodup, fun p => ?_, ?_, hordered', hm'.nodup, ?_⟩
  · rw [hmem p]
    refine and_congr_right fun hp => ?_
    obtain ⟨t, ht⟩ := Option.isSome_iff_exists.mp ((hm.live p).mp hp)
    rw [due_eq ht]
    constructor
    · exact fun hle => ⟨t, ht, hle⟩
    · rintro ⟨u, hu, hle⟩
      rw [ht, Option.some.injEq] at hu
      exact hu ▸ hle
  · refine hsorted.imp fun {p q} hle t u ht hu => ?_
    rwa [due_eq ht, due_eq hu] at hle
  · intro p t'
    have hlive : p ∈ m'.queue ∧ m'.timers p = some t' ↔ m'.timers p = some t' := by
      refine and_iff_right_of_imp fun h => ?_
      rw [hm'.live, h]
      rfl
    rw [hlive, htimers, afterCheck]
    cases ht : m.timers p with
    | none => simp
    | some t =>
      have hin : p ∈ m.queue := by
        rw [hm.live, ht]
        rfl
      by_cases hdue : t.expiredTime ≤ now
      · rw [if_pos ((hran p t ht).mpr hdue), Option.bind_some, Timer.afterRun]
        simp only [hin, Option.some.injEq, exists_eq_left', true_and, hdue, not_lt.mpr hdue,
          false_and, false_or, beq_iff_eq]
        by_cases hzero : t.run.2.repeatedTimes = 0
        · simp [hzero]
        · rw [if_neg hzero, Option.some.injEq]
          exact ⟨fun h => ⟨hzero, h.symm⟩, fun h => h.2.symm⟩
      · rw [if_neg (mt (hran p t ht).mp hdue)]
        simp only [hin, Option.some.injEq, exists_eq_left', true_and, hdue, not_le.mp hdue,
          false_and, or_false]
        exact eq_comm

/-- Three timers of which a check at 6 runs two, the later one added first. -/
def threeTimers : List TimerOp := [.add 5 0 1 6, .add 8 0 (-1) 4, .add 3 0 2 9]

theorem check_runs_two : ∃ logs m m', (empty 0).run threeTimers = some (logs, m) ∧
    m.checkAndHandle 6 = some (calls m.timers 6 (m.ran 6), m') ∧ m.ran 6 = [8, 5] ∧
    m'.Ordered ∧ 8 ∈ m'.queue := by
  obtain ⟨logs, m, m', hrun, -, hcheck, -, -, -, hordered, -, hqueue⟩ :=
    check_runs_expired 0 threeTimers (by decide +kernel) 6
  have hm : ((empty 0).run threeTimers).map (fun r => r.2.ran 6) = some [8, 5] := by
    decide +kernel
  have hm' : ((empty 0).run threeTimers).bind (fun r =>
      (r.2.checkAndHandle 6).map fun s => s.2.queue) = some [8, 3] := by
    decide +kernel
  rw [hrun, Option.map_some, Option.some.injEq] at hm
  rw [hrun, Option.bind_some, hcheck, Option.map_some, Option.some.injEq] at hm'
  exact ⟨logs, m, m', hrun, hcheck, hm, hordered, by rw [hm']; simp⟩

end TimerManager

end Tubekit
