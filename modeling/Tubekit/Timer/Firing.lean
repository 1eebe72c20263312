import Tubekit.Timer.TimerManager

/-!
# How often and when timers fire

`check_and_handle` takes expired timers from the queue, runs each of them once and puts those
that are not finished back (`checkAndHandle_spec`). Which ones it finds depends on the order of
the queue and does not matter here. A timer that was added is then followed through the
operations (`Followed`): what its members are is determined by how often it has fired.
-/

namespace Tubekit

open Lib

namespace Timer

/-- What is left of a timer that was run: finished ones are deleted. -/
def afterRun (t : Timer) : Option Timer :=
  if t.run.2.repeatedTimes == 0 then none else some t.run.2

/-- The call that a run makes. -/
def firing (t : Timer) (now : Int) : Option Firing :=
  if t.run.1 then some ⟨t.id, now⟩ else none

end Timer

namespace TimerManager

variable {m m' : TimerManager} {now : Int}

/-- The invariant of the manager: the queue has the timers that are alive, each once, and their
ids are different. -/
structure Sound (m : TimerManager) : Prop where
  nodup : m.queue.Nodup
  live : ∀ p, p ∈ m.queue ↔ (m.timers p).isSome = true
  distinct : ∀ p q t u, m.timers p = some t → m.timers q = some u → t.id = u.id → p = q
  issued : ∀ p t, m.timers p = some t → t.id ≤ m.initialId

theorem sound_empty (initialId : Nat) : (empty initialId).Sound :=
  ⟨List.nodup_nil, by simp [empty], by simp [empty], by simp [empty]⟩

theorem comparable {timers : TimerPtr → Option Timer} {ptrs : List TimerPtr}
    (h : ∀ p ∈ ptrs, (timers p).isSome = true) :
    BinaryHeap.Comparable (comparator timers) ptrs := by
  intro a ha b hb
  obtain ⟨x, hx⟩ := Option.isSome_iff_exists.mp (h a ha)
  obtain ⟨y, hy⟩ := Option.isSome_iff_exists.mp (h b hb)
  simp [comparator, hx, hy]

/-! ## `add` -/

theorem add_spec (hm : m.Sound) {ptr : TimerPtr} (hfree : m.timers ptr = none)
    (now repeatedTimes interval : Int) :
    ∃ m', m.add ptr now repeatedTimes interval = some (m.initialId + 1, m') ∧ m'.Sound ∧
      m'.timers = Function.update m.timers ptr
        (some (.new (m.initialId + 1) now repeatedTimes interval)) ∧
      m'.initialId = m.initialId + 1 := by
  have hout : ptr ∉ m.queue := by
    rw [hm.live, hfree]
    simp
  generalize hnew : Timer.new (m.initialId + 1) now repeatedTimes interval = new
  have hid : new.id = m.initialId + 1 := by
    rw [← hnew]
    rfl
  have hlive : ∀ p ∈ ptr :: m.queue, (Function.update m.timers ptr (some new) p).isSome = true := by
    intro p hp
    by_cases hpp : p = ptr
    · simp [hpp]
    · rw [Function.update_of_ne hpp]
      exact (hm.live p).mp ((List.mem_cons.mp hp).resolve_left hpp)
  obtain ⟨queue, hpush, hperm⟩ := BinaryHeap.push_spec (comparable hlive)
  have hcases : ∀ p t, Function.update m.timers ptr (some new) p = some t →
      (p = ptr ∧ t = new) ∨ m.timers p = some t := by
    intro p t hp
    by_cases hpp : p = ptr
    · subst hpp
      rw [Function.update_self] at hp
      exact Or.inl ⟨rfl, (Option.some.inj hp).symm⟩
    · rw [Function.update_of_ne hpp] at hp
      exact Or.inr hp
  refine ⟨{ queue, timers := Function.update m.timers ptr (some new), initialId := m.initialId + 1 },
    by simp only [add, hnew, hpush], ⟨?_, ?_, ?_, ?_⟩, rfl, rfl⟩
  · exact hperm.nodup_iff.mpr (List.nodup_cons.mpr ⟨hout, hm.nodup⟩)
  · intro p
    rw [hperm.mem_iff]
    by_cases hpp : p = ptr
    · simp [hpp]
    · simp only [List.mem_cons, hpp, false_or, Function.update_of_ne hpp]
      exact hm.live p
  · intro p q t u hp hq heq
    rcases hcases p t hp with ⟨rfl, rfl⟩ | hold
    · rcases hcases q u hq with ⟨rfl, rfl⟩ | hq
      · rfl
      · have hle := hm.issued q u hq
        omega
    · rcases hcases q u hq with ⟨rfl, rfl⟩ | hq
      · have hle := hm.issued p t hold
        omega
      · exact hm.distinct p q t u hold hq heq
  · intro p t hp
    rcases hcases p t hp with ⟨rfl, rfl⟩ | hp
    · exact Nat.le_of_eq hid
    · exact Nat.le_succ_of_le (hm.issued p t hp)

/-! ## `check_and_handle` -/

/-- The timers after those of `handled` were run. -/
def afterCheck (timers : TimerPtr → Option Timer) (handled : List TimerPtr) (p : TimerPtr) :
    Option Timer :=
  if p ∈ handled then (timers p).bind Timer.afterRun else timers p

/-- The calls made while the timers of `handled` are run. -/
def calls (timers : TimerPtr → Option Timer) (now : Int) (handled : List TimerPtr) : List Firing :=
  handled.filterMap fun p => (timers p).bind (·.firing now)

/-- In the loop, the queue and `m_list` together have the timers that are alive. -/
structure Balanced (m : TimerManager) (list : List TimerPtr) : Prop where
  nodup : (m.queue ++ list).Nodup
  live : ∀ p, p ∈ m.queue ++ list ↔ (m.timers p).isSome = true

theorem Balanced.first {ptr : TimerPtr} {rest list : List TimerPtr} (h : Balanced m list)
    (hqueue : m.queue = ptr :: rest) : ∃ t, m.timers ptr = some t := by
  rw [← Option.isSome_iff_exists, ← h.live]
  simp [hqueue]

theorem Balanced.ne_first {ptr : TimerPtr} {rest list : List TimerPtr} (h : Balanced m list)
    (hqueue : m.queue = ptr :: rest) : ∀ p ∈ rest, p ≠ ptr := by
  have hnodup := h.nodup
  rw [hqueue, List.cons_append, List.nodup_cons] at hnodup
  rintro p hp rfl
  exact hnodup.1 (List.mem_append_left _ hp)

/-- The timers behind the first stay alive, whatever becomes of it. -/
theorem Balanced.live_rest {ptr : TimerPtr} {rest list : List TimerPtr} (h : Balanced m list)
    (hqueue : m.queue = ptr :: rest) (t : Option Timer) :
    ∀ p ∈ rest, (Function.update m.timers ptr t p).isSome = true := by
  intro p hp
  rw [Function.update_of_ne (h.ne_first hqueue p hp), ← h.live, hqueue]
  exact List.mem_append_left _ (List.mem_cons_of_mem _ hp)

/-- Taking the first timer from the queue and running it. -/
theorem Balanced.next {ptr : TimerPtr} {rest list queue : List TimerPtr} {t : Timer}
    (h : Balanced m list) (hqueue : m.queue = ptr :: rest) (ht : m.timers ptr = some t)
    (hperm : queue.Perm rest) :
    Balanced { m with queue, timers := Function.update m.timers ptr t.afterRun }
      (if t.run.2.repeatedTimes == 0 then list else list ++ [ptr]) := by
  have hnodup := h.nodup
  rw [hqueue, List.cons_append, List.nodup_cons] at hnodup
  have hlive := h.live
  rw [hqueue] at hlive
  have hother : ∀ p, p ≠ ptr →
      (p ∈ queue ++ list ↔ (Function.update m.timers ptr t.afterRun p).isSome = true) := by
    intro p hp
    rw [Function.update_of_ne hp, ← hlive p]
    simp [hperm.mem_iff, hp]
  have hnot : ptr ∉ queue ++ list := by
    rw [List.mem_append, hperm.mem_iff, ← List.mem_append]
    exact hnodup.1
  have hrest : (queue ++ list).Nodup := (hperm.append_right list).nodup_iff.mpr hnodup.2
  cases hzero : t.run.2.repeatedTimes == 0 with
  | true =>
    refine ⟨hrest, fun p => ?_⟩
    by_cases hp : p = ptr
    · subst hp
      simpa [Timer.afterRun, hzero] using hnot
    · exact hother p hp
  | false =>
    refine ⟨?_, fun p => ?_⟩
    · simp only [Bool.false_eq_true, if_false]
      rw [← List.append_assoc]
      exact (List.perm_append_singleton ptr _).nodup_iff.mpr (List.nodup_cons.mpr ⟨hnot, hrest⟩)
    · by_cases hp : p = ptr
      · subst hp
        simp [Timer.afterRun, hzero]
      · simp only [Bool.false_eq_true, if_false, ← hother p hp]
        simp [hp]

/-- The loop has run the timers of `handled`, expired ones of the queue, each once. -/
def Handles (m : TimerManager) (now : Int) (handled : List TimerPtr)
    (result : Option (List Firing × TimerManager × List TimerPtr)) : Prop :=
  ∃ m' list', result = some (calls m.timers now handled, m', list') ∧ handled.Nodup ∧
    (∀ p ∈ handled, p ∈ m.queue ∧ ∃ t, m.timers p = some t ∧ t.expiredTime ≤ now) ∧
    m'.timers = afterCheck m.timers handled ∧ m'.initialId = m.initialId ∧ Balanced m' list'

theorem Balanced.handles_nothing {list : List TimerPtr} (h : Balanced m list) (now : Int) :
    m.Handles now [] (some ([], m, list)) :=
  ⟨m, list, rfl, List.nodup_nil, by simp, by funext p; simp [afterCheck], rfl, h⟩

theorem checkLoop_spec (now : Int) (fuel : Nat) {list : List TimerPtr} (h : Balanced m list) :
    m.Handles now (ranLoop now fuel m) (checkLoop now fuel m list) := by
  induction fuel generalizing m list with
  | zero => exact h.handles_nothing now
  | succ fuel ih =>
    rw [checkLoop, ranLoop]
    cases hqueue : m.queue with
    | nil => exact h.handles_nothing now
    | cons ptr rest =>
      obtain ⟨t, ht⟩ := h.first hqueue
      simp only [ht]
      split
      case isFalse => exact h.handles_nothing now
      case isTrue hexpired =>
        have hdelete : (if t.run.2.repeatedTimes == 0 then none else some t.run.2) = t.afterRun := rfl
        have hne := h.ne_first hqueue
        have hlive := h.live_rest hqueue t.afterRun
        obtain ⟨queue, hpop, hperm⟩ := BinaryHeap.pop_spec (x := ptr) (comparable hlive)
        have hnext := h.next hqueue ht hperm
        obtain ⟨m', list', hloop, hhandled, hdue, htimers, hid, hbalanced⟩ := ih hnext
        simp only [hdelete, hpop, hloop]
        generalize ranLoop now fuel { m with
          queue, timers := Function.update m.timers ptr t.afterRun } = handled at *
        have hmem : ∀ p ∈ handled, p ∈ rest := fun p hp => hperm.mem_iff.mp (hdue p hp).1
        have hsame : ∀ p ∈ handled, Function.update m.timers ptr t.afterRun p = m.timers p :=
          fun p hp => Function.update_of_ne (hne p (hmem p hp)) _ _
        have hnot : ptr ∉ handled := fun hp => hne ptr (hmem ptr hp) rfl
        refine ⟨m', list', ?_, List.nodup_cons.mpr ⟨hnot, hhandled⟩, ?_, ?_, hid,
          hbalanced⟩
        · have hcalls : calls (Function.update m.timers ptr t.afterRun) now handled =
              calls m.timers now handled := by
            refine List.filterMap_congr fun p hp => ?_
            rw [hsame p hp]
          rw [hcalls]
          simp only [calls, List.filterMap_cons, ht, Option.bind_some, Timer.firing]
          cases t.run.1 <;> rfl
        · rw [List.forall_mem_cons]
          refine ⟨⟨by simp [hqueue], t, ht, by simpa [Timer.isExpired] using hexpired⟩, ?_⟩
          intro p hp
          obtain ⟨-, u, hu, hle⟩ := hdue p hp
          refine ⟨?_, u, (hsame p hp).symm.trans hu, hle⟩
          rw [hqueue]
          exact List.mem_cons_of_mem _ (hmem p hp)
        · rw [htimers]
          funext p
          by_cases hp : p = ptr
          · subst hp
            simp [afterCheck, hnot, ht]
          · simp [afterCheck, hp]

theorem pushAll_spec {list : List TimerPtr} (h : Balanced m list) :
    ∃ queue, m.pushAll list = some { m with queue } ∧ queue.Perm (m.queue ++ list) := by
  induction list generalizing m with
  | nil => exact ⟨m.queue, rfl, by simp⟩
  | cons ptr list ih =>
    have hcomp : ∀ p ∈ ptr :: m.queue, (m.timers p).isSome = true := by
      intro p hp
      rw [← h.live]
      rcases List.mem_cons.mp hp with rfl | hp
      · exact List.mem_append_right _ List.mem_cons_self
      · exact List.mem_append_left _ hp
    obtain ⟨queue, hpush, hperm⟩ := BinaryHeap.push_spec (comparable hcomp)
    have hall : (queue ++ list).Perm (m.queue ++ ptr :: list) :=
      (hperm.append_right list).trans List.perm_middle.symm
    have hnext : Balanced { m with queue } list :=
      ⟨hall.nodup_iff.mpr h.nodup, fun p => by rw [hall.mem_iff]; exact h.live p⟩
    obtain ⟨queue', hrun, hperm'⟩ := ih hnext
    exact ⟨queue', by simp only [pushAll, hpush, hrun], hperm'.trans hall⟩

theorem id_of_afterRun {t u : Timer} (h : t.afterRun = some u) : u.id = t.id := by
  unfold Timer.afterRun at h
  split at h
  · cases h
  · cases h
    rfl

/-- `check_and_handle` runs some expired timers once each. -/
theorem checkAndHandle_spec (hm : m.Sound) (now : Int) :
    ∃ m', m.checkAndHandle now = some (calls m.timers now (m.ran now), m') ∧ (m.ran now).Nodup ∧
      (∀ p ∈ m.ran now, ∃ t, m.timers p = some t ∧ t.expiredTime ≤ now) ∧
      m'.timers = afterCheck m.timers (m.ran now) ∧ m'.initialId = m.initialId ∧ m'.Sound := by
  have hstart : Balanced m [] := ⟨by simpa using hm.nodup, by simpa using hm.live⟩
  obtain ⟨m₁, list, hloop, hhandled, hdue, htimers, hid, hbalanced⟩ :=
    checkLoop_spec now m.queue.length hstart
  obtain ⟨queue, hpush, hperm⟩ := pushAll_spec hbalanced
  have hold : ∀ p t, m₁.timers p = some t → ∃ u, m.timers p = some u ∧ u.id = t.id := by
    intro p t hp
    rw [htimers, afterCheck] at hp
    split at hp
    · obtain ⟨u, hu, hafter⟩ := Option.bind_eq_some_iff.mp hp
      exact ⟨u, hu, (id_of_afterRun hafter).symm⟩
    · exact ⟨t, hp, rfl⟩
  refine ⟨{ m₁ with queue }, by simp only [checkAndHandle, hloop, hpush, ran], hhandled,
    fun p hp => (hdue p hp).2, htimers, hid, ⟨?_, ?_, ?_, ?_⟩⟩
  · exact hperm.nodup_iff.mpr hbalanced.nodup
  · intro p
    rw [hperm.mem_iff]
    exact hbalanced.live p
  · intro p q t u hp hq heq
    obtain ⟨t', ht', hidt⟩ := hold p t hp
    obtain ⟨u', hu', hidu⟩ := hold q u hq
    exact hm.distinct p q t' u' ht' hu' (by rw [hidt, hidu, heq])
  · intro p t hp
    obtain ⟨t', ht', hidt⟩ := hold p t hp
    have hle := hm.issued p t' ht'
    change t.id ≤ m₁.initialId
    omega

/-! ## One timer -/

/-- The timer `id` that was added at `t` with interval `i` and `n` repetitions, after it has fired
at the times `fs`. -/
inductive Followed (m : TimerManager) (id : Nat) (t n i : Int) (fs : List Int) : Prop
  /-- It will fire again. -/
  | armed (p : TimerPtr) (hleft : n = -1 ∨ (fs.length : Int) < n)
      (htimer : m.timers p = some
        { id
          expiredTime := t + (fs.length + 1) * i
          repeatedTimes := if n = -1 then -1 else n - fs.length
          interval := i })
  /-- It has fired `n` times and is deleted. -/
  | removed (hn : 1 ≤ n) (hcount : (fs.length : Int) = n)
      (hgone : ∀ p u, m.timers p = some u → u.id ≠ id)
  /-- It never fires. -/
  | inert (hn : n ≠ -1 ∧ n < 1) (hnone : fs = [])
      (htimer : ∀ p u, m.timers p = some u → u.id = id → u.repeatedTimes = n)

/-- Every firing is due: the `k`-th one not before `t + k * i`. -/
def Due (t i : Int) (fs : List Int) : Prop :=
  ∀ (k : Nat) (now : Int), fs[k]? = some now → t + (k + 1) * i ≤ now

theorem Due.append {t i now : Int} {fs : List Int} (h : Due t i fs)
    (hnow : t + (fs.length + 1) * i ≤ now) : Due t i (fs ++ [now]) := by
  intro k x hx
  by_cases hk : k < fs.length
  · rw [List.getElem?_append_left hk] at hx
    exact h k x hx
  · rw [List.getElem?_append_right (by omega)] at hx
    obtain ⟨hlt, rfl⟩ := List.getElem?_eq_some_iff.mp hx
    have hkeq : k = fs.length := by
      simp only [List.length_singleton] at hlt
      omega
    subst hkeq
    simpa using hnow

/-- What a call of `check_and_handle` shows of one timer. -/
theorem calls_filter (hm : m.Sound) {handled : List TimerPtr} (hnodup : handled.Nodup) (now : Int)
    {p : TimerPtr} {t : Timer} (ht : m.timers p = some t) :
    (calls m.timers now handled).filter (fun f => f.id = t.id) =
      if p ∈ handled then (t.firing now).toList else [] := by
  induction handled with
  | nil => rfl
  | cons q handled ih =>
    rw [List.nodup_cons] at hnodup
    have hrest := ih hnodup.2
    have hcons : calls m.timers now (q :: handled) =
        ((m.timers q).bind (·.firing now)).toList ++ calls m.timers now handled := by
      simp only [calls, List.filterMap_cons]
      cases (m.timers q).bind (·.firing now) <;> rfl
    rw [hcons, List.filter_append, hrest]
    by_cases hq : q = p
    · subst hq
      have hown : (t.firing now).toList.filter (fun f => f.id = t.id) = (t.firing now).toList := by
        unfold Timer.firing
        split <;> simp
      simp [ht, hown, hnodup.1]
    · have hother : ((m.timers q).bind (·.firing now)).toList.filter (fun f => f.id = t.id) = [] := by
        rw [List.filter_eq_nil_iff]
        intro f hf
        obtain ⟨u, hu, hfire⟩ := Option.bind_eq_some_iff.mp (Option.mem_toList.mp hf)
        unfold Timer.firing at hfire
        split at hfire
        · cases hfire
          simp only [decide_eq_true_eq]
          exact fun heq => hq (hm.distinct q p u t hu ht heq)
        · cases hfire
      simp [hother, Ne.symm hq]

theorem calls_filter_gone {handled : List TimerPtr} (now : Int) {id : Nat}
    (hgone : ∀ p ∈ handled, ∀ u f, m.timers p = some u → u.firing now = some f → f.id ≠ id) :
    (calls m.timers now handled).filter (fun f => f.id = id) = [] := by
  rw [List.filter_eq_nil_iff]
  intro f hf
  obtain ⟨p, hp, hbind⟩ := List.mem_filterMap.mp hf
  obtain ⟨u, hu, hfire⟩ := Option.bind_eq_some_iff.mp hbind
  simpa using hgone p hp u f hu hfire

theorem firing_id {t : Timer} {now : Int} {f : Firing} (h : t.firing now = some f) :
    f.id = t.id ∧ t.run.1 = true := by
  unfold Timer.firing at h
  split at h
  · rename_i hcall
    cases h
    exact ⟨rfl, hcall⟩
  · cases h

/-- A timer that fires: one firing more, and one repetition less. -/
theorem Followed.fire {id : Nat} {t n i now : Int} {fs : List Int} {p : TimerPtr} {timer : Timer}
    (hleft : n = -1 ∨ (fs.length : Int) < n)
    (htimer : timer = { id
                        expiredTime := t + (fs.length + 1) * i
                        repeatedTimes := if n = -1 then -1 else n - fs.length
                        interval := i })
    (hafter : m'.timers p = timer.afterRun)
    (hothers : ∀ q u, m'.timers q = some u → u.id = id → q = p) :
    timer.firing now = some ⟨id, now⟩ ∧ Followed m' id t n i (fs ++ [now]) := by
  have hlen : ((fs ++ [now]).length : Int) = fs.length + 1 := by simp
  have hid : timer.id = id := by rw [htimer]
  have hexpired : t + (fs.length + 1) * i + i = t + (fs.length + 1 + 1) * i := by
    rw [Int.add_assoc, Int.add_mul (fs.length + 1 : Int) 1 i, Int.one_mul]
  rcases hleft with hn | hlt
  · have hrun : timer.run = (true, { timer with expiredTime := timer.expiredTime + timer.interval }) := by
      simp [Timer.run, htimer, hn]
    refine ⟨by simp [Timer.firing, hrun, hid], .armed p (Or.inl hn) ?_⟩
    rw [hafter, Timer.afterRun, hrun, hlen, htimer]
    simp [hn, hexpired]
  · have hn : ¬n = -1 := by omega
    have hrun : timer.run = (true, { timer with
        repeatedTimes := n - fs.length - 1
        expiredTime := timer.expiredTime + timer.interval }) := by
      simp only [Timer.run, htimer, hn, if_false]
      rw [if_pos (by omega), decide_eq_true (by omega : n - (fs.length : Int) ≥ 1), Bool.or_true]
    refine ⟨by simp [Timer.firing, hrun, hid], ?_⟩
    by_cases hlast : n - fs.length - 1 = 0
    · have hdeleted : m'.timers p = none := by
        rw [hafter, Timer.afterRun, hrun]
        simp [hlast]
      refine .removed (by omega) (by omega) fun q u hq hid => ?_
      rw [hothers q u hq hid, hdeleted] at hq
      cases hq
    · refine .armed p (Or.inr (by omega)) ?_
      rw [hafter, Timer.afterRun, hrun, hlen, htimer]
      simp only [beq_eq_false_iff_ne.mpr hlast, hn, Bool.false_eq_true, if_false, hexpired]
      congr 2
      omega

/-- A timer that is not run stays as it is. -/
theorem Followed.keep {id : Nat} {t n i : Int} {fs : List Int} (hf : Followed m id t n i fs)
    (hsame : ∀ p u, u.id = id → (m'.timers p = some u ↔ m.timers p = some u)) :
    Followed m' id t n i fs := by
  cases hf with
  | armed p hleft htimer => exact .armed p hleft ((hsame p _ rfl).mpr htimer)
  | removed hn hcount hgone =>
    exact .removed hn hcount fun p u hu hid => hgone p u ((hsame p u hid).mp hu) hid
  | inert hn hnone htimer =>
    exact .inert hn hnone fun p u hu hid => htimer p u ((hsame p u hid).mp hu) hid

/-- One call of `check_and_handle`, seen by one timer. -/
theorem Followed.check (hm : m.Sound) {id : Nat} {t n i now : Int} {fs : List Int}
    (hf : Followed m id t n i fs) (hdue : Due t i fs) {handled : List TimerPtr}
    (hnodup : handled.Nodup)
    (hexpired : ∀ p ∈ handled, ∃ u, m.timers p = some u ∧ u.expiredTime ≤ now)
    (htimers : m'.timers = afterCheck m.timers handled) :
    ((calls m.timers now handled).filter (fun f => f.id = id)).length ≤ 1 ∧
      Followed m' id t n i (fs ++ firings id [calls m.timers now handled]) ∧
      Due t i (fs ++ firings id [calls m.timers now handled]) := by
  have hold : ∀ p u, m'.timers p = some u → ∃ v, m.timers p = some v ∧ v.id = u.id := by
    intro p u hp
    rw [htimers, afterCheck] at hp
    split at hp
    · obtain ⟨v, hv, hafter⟩ := Option.bind_eq_some_iff.mp hp
      exact ⟨v, hv, (id_of_afterRun hafter).symm⟩
    · exact ⟨u, hp, rfl⟩
  have hfirings : firings id [calls m.timers now handled] =
      ((calls m.timers now handled).filter (fun f => f.id = id)).map (·.now) := by
    simp [firings]
  rw [hfirings]
  cases hf with
  | armed p hleft htimer =>
    have hcalls := calls_filter hm hnodup now htimer
    by_cases hp : p ∈ handled
    · obtain ⟨hfire, hnext⟩ := @Followed.fire m' id t n i now fs p _ hleft rfl
        (by rw [htimers, afterCheck, if_pos hp, htimer]; rfl)
        (fun q u hu hid => by
          obtain ⟨v, hv, hvid⟩ := hold q u hu
          exact hm.distinct q p v _ hv htimer (hvid.trans hid))
      rw [if_pos hp, hfire] at hcalls
      rw [hcalls]
      obtain ⟨u, hu, hle⟩ := hexpired p hp
      rw [htimer] at hu
      cases hu
      exact ⟨Nat.le_refl 1, hnext, hdue.append hle⟩
    · rw [if_neg hp] at hcalls
      rw [hcalls]
      simp only [List.length_nil, List.map_nil, List.append_nil]
      refine ⟨Nat.zero_le 1, .armed p hleft ?_, hdue⟩
      rw [htimers, afterCheck, if_neg hp, htimer]
  | removed hn hcount hgone =>
    have hcalls := @calls_filter_gone m handled now id fun p _ u f hu hfire =>
      (firing_id hfire).1 ▸ hgone p u hu
    rw [hcalls]
    simp only [List.length_nil, List.map_nil, List.append_nil]
    refine ⟨Nat.zero_le 1, .removed hn hcount fun p u hu => ?_, hdue⟩
    obtain ⟨v, hv, hvid⟩ := hold p u hu
    exact hvid ▸ hgone p v hv
  | inert hn hnone htimer =>
    have hcalls := @calls_filter_gone m handled now id fun p _ u f hu hfire hid => by
      obtain ⟨hfid, hcalled⟩ := firing_id hfire
      have hrep := htimer p u hu (hfid.symm.trans hid)
      simp [Timer.run, hrep, hn.1] at hcalled
      omega
    rw [hcalls]
    simp only [List.length_nil, List.map_nil, List.append_nil]
    refine ⟨Nat.zero_le 1, .inert hn hnone fun p u hu hid => ?_, hdue⟩
    obtain ⟨v, hv, hvid⟩ := hold p u hu
    have hrep := htimer p v hv (hvid.trans hid)
    rw [htimers, afterCheck, hv] at hu
    split at hu
    · simp only [Option.bind_some, Timer.afterRun] at hu
      split at hu
      · cases hu
      · cases hu
        simp only [Timer.run, hrep]
        rw [if_neg (by omega)]
    · cases hu
      exact hrep

/-- No operation looks at a timer that is not alive. -/
theorem step_total (hm : m.Sound) {op : TimerOp} (hallows : m.Allows op) :
    ∃ fired m', m.step op = some (fired, m') ∧ m'.Sound ∧ m.initialId ≤ m'.initialId ∧
      (∀ f ∈ fired, f.id ≤ m.initialId) ∧
      ∀ id t n i fs, Followed m id t n i fs → Due t i fs → id ≤ m.initialId →
        (fired.filter (fun f => f.id = id)).length ≤ 1 ∧
          Followed m' id t n i (fs ++ firings id [fired]) ∧ Due t i (fs ++ firings id [fired]) := by
  cases op with
  | add ptr now repeatedTimes interval =>
    obtain ⟨m', hadd, hm', htimers, hid⟩ := add_spec hm hallows now repeatedTimes interval
    refine ⟨[], m', by simp [step, hadd], hm', by omega, by simp, ?_⟩
    intro id t n i fs hf hdue hle
    refine ⟨Nat.zero_le 1, ?_, by simpa [firings] using hdue⟩
    simp only [firings, List.flatten_cons, List.flatten_nil, List.append_nil, List.filter_nil,
      List.map_nil]
    refine hf.keep fun p u hu => ?_
    rw [htimers]
    by_cases hp : p = ptr
    · subst hp
      rw [Function.update_self, hallows]
      simp only [Option.some.injEq, reduceCtorEq, iff_false]
      rintro rfl
      simp only [Timer.new] at hu
      omega
    · rw [Function.update_of_ne hp]
  | checkAndHandle now =>
    obtain ⟨m', hcheck, hnodup, hexpired, htimers, hid, hm'⟩ := checkAndHandle_spec hm now
    refine ⟨calls m.timers now (m.ran now), m', hcheck, hm', by omega, ?_, ?_⟩
    · intro f hf
      obtain ⟨p, -, hbind⟩ := List.mem_filterMap.mp hf
      obtain ⟨u, hu, hfire⟩ := Option.bind_eq_some_iff.mp hbind
      rw [(firing_id hfire).1]
      exact hm.issued p u hu
    · intro id t n i fs hf hdue _
      exact hf.check hm hdue hnodup hexpired htimers

theorem firings_cons (id : Nat) (fired : List Firing) (logs : List (List Firing)) :
    firings id (fired :: logs) = firings id [fired] ++ firings id logs := by
  simp [firings]

theorem run_total (hm : m.Sound) {ops : List TimerOp} (hallowed : m.Allowed ops) :
    ∃ logs m', m.run ops = some (logs, m') ∧ m'.Sound ∧ m.initialId ≤ m'.initialId ∧
      (∀ f ∈ logs.flatten, f.id ≤ m'.initialId) ∧
      ∀ id t n i fs, Followed m id t n i fs → Due t i fs → id ≤ m.initialId →
        (∀ log ∈ logs, (log.filter (fun f => f.id = id)).length ≤ 1) ∧
          Followed m' id t n i (fs ++ firings id logs) ∧ Due t i (fs ++ firings id logs) := by
  induction ops generalizing m with
  | nil =>
    exact ⟨[], m, rfl, hm, Nat.le_refl _, by simp, fun id t n i fs hf hdue _ =>
      ⟨by simp, by simpa [firings] using hf, by simpa [firings] using hdue⟩⟩
  | cons op ops ih =>
    obtain ⟨fired, m₁, hstep, hm₁, hle₁, hids, hfollow⟩ := step_total hm hallowed.1
    have hrest := hallowed.2
    rw [hstep] at hrest
    obtain ⟨logs, m', hrun, hm', hle, hids', hfollow'⟩ := ih hm₁ hrest
    refine ⟨fired :: logs, m', by simp [run, hstep, hrun], hm', by omega, ?_, ?_⟩
    · intro f hf
      rw [List.flatten_cons, List.mem_append] at hf
      rcases hf with hf | hf
      · have := hids f hf
        omega
      · exact hids' f hf
    · intro id t n i fs hf hdue hid
      obtain ⟨honce, hf₁, hdue₁⟩ := hfollow id t n i fs hf hdue hid
      obtain ⟨honces, hf', hdue'⟩ := hfollow' id t n i _ hf₁ hdue₁ (by omega)
      rw [firings_cons, ← List.append_assoc]
      exact ⟨List.forall_mem_cons.mpr ⟨honce, honces⟩, hf', hdue'⟩

theorem run_append (m : TimerManager) (ops more : List TimerOp) :
    m.run (ops ++ more) = (m.run ops).bind fun (logs, m) =>
      (m.run more).map fun (logs', m) => (logs ++ logs', m) := by
  induction ops generalizing m with
  | nil => simp [run]
  | cons op ops ih =>
    simp only [List.cons_append, run]
    cases m.step op with
    | none => rfl
    | some r =>
      simp only [ih]
      cases r.2.run ops with
      | none => rfl
      | some r' =>
        simp only [Option.bind_some, Option.map_some]
        cases r'.2.run more <;> rfl

theorem Allowed.left {ops more : List TimerOp} (h : m.Allowed (ops ++ more)) : m.Allowed ops := by
  induction ops generalizing m with
  | nil => trivial
  | cons op ops ih =>
    obtain ⟨hallows, hrest⟩ := h
    refine ⟨hallows, ?_⟩
    cases hstep : m.step op with
    | none => trivial
    | some r =>
      rw [hstep] at hrest
      exact ih hrest

theorem Allowed.right {ops more : List TimerOp} (h : m.Allowed (ops ++ more))
    {logs : List (List Firing)} (hrun : m.run ops = some (logs, m')) : m'.Allowed more := by
  induction ops generalizing m logs with
  | nil =>
    cases hrun
    exact h
  | cons op ops ih =>
    have hrest := h.2
    simp only [run] at hrun
    cases hstep : m.step op with
    | none =>
      rw [hstep] at hrun
      cases hrun
    | some r =>
      rw [hstep] at hrun hrest
      obtain ⟨r', hr', heq⟩ := Option.map_eq_some_iff.mp hrun
      cases heq
      exact ih hrest hr'

/-- A timer that has just been added. -/
theorem followed_add {ptr : TimerPtr} {t n i : Int} {id : Nat}
    (htimers : m'.timers = Function.update m.timers ptr (some (.new id t n i)))
    (hgone : ∀ p u, m.timers p = some u → u.id ≠ id) : Followed m' id t n i [] := by
  have hnew : m'.timers ptr = some (.new id t n i) := by rw [htimers, Function.update_self]
  by_cases hn : n = -1 ∨ 1 ≤ n
  · refine .armed ptr (by simpa using hn.imp_right (Int.add_one_le_iff.mp ·)) ?_
    rw [hnew, Timer.new]
    by_cases hinf : n = -1
    · simp [hinf]
    · simp [hinf]
  · refine .inert (by omega) rfl fun p u hu hid => ?_
    by_cases hp : p = ptr
    · subst hp
      rw [hnew] at hu
      cases hu
      rfl
    · rw [htimers, Function.update_of_ne hp] at hu
      exact absurd hid (hgone p u hu)

theorem Followed.alive_iff (hm : m.Sound) {id : Nat} {t n i : Int} {fs : List Int}
    (hf : Followed m id t n i fs) :
    (1 ≤ n → (fs.length : Int) ≤ n ∧ (m.Alive id ↔ (fs.length : Int) < n)) ∧
      (n = -1 → m.Alive id) := by
  cases hf with
  | armed p hleft htimer =>
    have halive : m.Alive id := ⟨p, (hm.live p).mpr (by simp [htimer]), _, htimer, rfl⟩
    refine ⟨fun hn => ?_, fun _ => halive⟩
    have hlt : (fs.length : Int) < n := hleft.resolve_left (by omega)
    exact ⟨by omega, iff_of_true halive hlt⟩
  | removed hn hcount hgone =>
    refine ⟨fun _ => ⟨by omega, iff_of_false ?_ (by omega)⟩, fun heq => by omega⟩
    rintro ⟨p, -, u, hu, hid⟩
    exact hgone p u hu hid
  | inert hn hnone htimer => exact ⟨fun hle => by omega, fun heq => absurd heq hn.1⟩

/-- **Timers.** In a run of any operations, take a timer that is added at time `t` with interval
`i` and `n` repetitions, and everything up to some later moment. No operation has looked at a
deleted timer. The timer has fired at most once in each call, its `k`-th firing was not before
`t + k * i`; for `n ≥ 1` it has fired at most `n` times and is alive exactly as long as there are
firings left; for `n = -1` it is alive. -/
theorem timers_fire (initialId : Nat) (pre : List TimerOp) (ptr : TimerPtr) (t n i : Int)
    (post : List TimerOp)
    (hallowed : (empty initialId).Allowed (pre ++ .add ptr t n i :: post)) :
    ∃ before m id logs m', (empty initialId).run pre = some (before, m) ∧
      (m.add ptr t n i).map Prod.fst = some id ∧
      (empty initialId).run (pre ++ .add ptr t n i :: post) = some (before ++ [] :: logs, m') ∧
      firings id before = [] ∧
      (∀ log ∈ logs, (log.filter (fun f => f.id = id)).length ≤ 1) ∧
      (∀ (k : Nat) (now : Int), (firings id logs)[k]? = some now → t + (k + 1) * i ≤ now) ∧
      (1 ≤ n → ((firings id logs).length : Int) ≤ n ∧
        (m'.Alive id ↔ ((firings id logs).length : Int) < n)) ∧
      (n = -1 → m'.Alive id) ∧
      ∀ p ∈ m'.queue, (m'.timers p).isSome = true := by
  obtain ⟨before, m, hrun, hm, -, hids, -⟩ := run_total (sound_empty initialId) hallowed.left
  obtain ⟨hfree, hpost⟩ := hallowed.right hrun
  obtain ⟨m₁, hadd, hm₁, htimers, hid⟩ := add_spec hm hfree t n i
  have hstep : m.step (.add ptr t n i) = some ([], m₁) := by simp [step, hadd]
  rw [hstep] at hpost
  obtain ⟨logs, m', hruns, hm', -, -, hfollow⟩ := run_total hm₁ hpost
  have hnew : Followed m₁ (m.initialId + 1) t n i [] := followed_add htimers fun p u hu heq => by
    have := hm.issued p u hu
    omega
  obtain ⟨honce, hfollowed, hdue⟩ := hfollow _ t n i [] hnew (by simp [Due]) (by omega)
  rw [List.nil_append] at hfollowed hdue
  obtain ⟨hcount, hforever⟩ := hfollowed.alive_iff hm'
  refine ⟨before, m, m.initialId + 1, logs, m', hrun, by simp [hadd], ?_, ?_, honce, hdue, hcount,
    hforever, fun p hp => (hm'.live p).mp hp⟩
  · rw [run_append, hrun]
    simp [run, hstep, hruns]
  · rw [firings, List.filter_eq_nil_iff.mpr, List.map_nil]
    intro f hf
    have := hids f hf
    simp only [decide_eq_true_eq]
    omega

/-- Two timers; the first one fires twice and is gone then. -/
def twoTimers : List TimerOp :=
  [.checkAndHandle 3, .add 8 3 (-1) 1, .checkAndHandle 9, .checkAndHandle 9]

theorem timers_fire_twice :
    (empty 0).Allowed ([] ++ .add 5 0 2 3 :: twoTimers) ∧
      ∃ before m id logs m', (empty 0).run [] = some (before, m) ∧
        (m.add 5 0 2 3).map Prod.fst = some id ∧
        (empty 0).run ([] ++ .add 5 0 2 3 :: twoTimers) = some (before ++ [] :: logs, m') ∧
        ((firings id logs).length : Int) ≤ 2 ∧
        (m'.Alive id ↔ ((firings id logs).length : Int) < 2) := by
  have hallowed : (empty 0).Allowed ([] ++ .add 5 0 2 3 :: twoTimers) := by decide +kernel
  obtain ⟨before, m, id, logs, m', hrun, hadd, hall, -, -, -, hcount, -⟩ :=
    timers_fire 0 [] 5 0 2 3 twoTimers hallowed
  exact ⟨hallowed, before, m, id, logs, m', hrun, hadd, hall, hcount (by decide)⟩

end TimerManager

end Tubekit
