import Mathlib.Algebra.Ring.Nat
import Mathlib.Data.Finset.Card
import Tubekit.Lib.Monitor

/-!
# `object_pool`

The class of `src/utility/object_pool.h`: the free objects are a set behind a mutex. A thread that
finds the set empty waits on the condition variable in the pools that block, and gets null in the
others; `release` wakes the waiting threads after it has unlocked the mutex.

Threads call `allocate` and `release` in any order, and release what is held. Nobody gets an
object that somebody else holds, and nobody waits for good while an object is free.
-/

namespace Tubekit

open Lib Transition Lending Monitor

/-- `object_pool`. An object is its index in `m_objects`. -/
structure ObjectPool where
  set : Finset Nat
  block : Bool
  maxSize : Nat
  deriving DecidableEq

/-- What a call of `allocate` does when it has the lock and looks at the set. -/
inductive Allocated where
  | wait
  | null
  | object (p : Nat)
  deriving DecidableEq

namespace ObjectPool

def new : ObjectPool := { set := ∅, block := true, maxSize := 0 }

/-- `init`, where `memory` says whether there is memory for the objects. -/
def init (memory : Bool) (maxSize : Nat) (block : Bool) (pool : ObjectPool) : Int × ObjectPool :=
  if memory then
    (0, { set := (List.range maxSize).foldl (fun set i => insert i set) pool.set, block, maxSize })
  else (-1, pool)

/-- `allocate`, where `begin` is the object that the set gives first. -/
def allocate (begin : Nat) (pool : ObjectPool) : Allocated × ObjectPool :=
  if pool.set = ∅ then (if pool.block then .wait else .null, pool)
  else (.object begin, { pool with set := pool.set.erase begin })

/-- `release`, up to the call of `broadcast`. -/
def release (t : Nat) (pool : ObjectPool) : ObjectPool := { pool with set := insert t pool.set }

/-- `space`, an unsigned integer of 32 bits. -/
def space (pool : ObjectPool) : Nat := pool.set.card % 2 ^ 32

theorem mem_foldl_insert (set : Finset Nat) (l : List Nat) (i : Nat) :
    i ∈ l.foldl (fun set i => insert i set) set ↔ i ∈ set ∨ i ∈ l := by
  induction l generalizing set with
  | nil => simp
  | cons j l ih =>
    rw [List.foldl_cons, ih, Finset.mem_insert, List.mem_cons]
    tauto

/-! ## The pool and its threads -/

/-- The pool and the objects that threads hold. -/
structure Shared where
  pool : ObjectPool
  held : Finset Nat

/-- The first object of the set may be any of it. -/
def take (s : Shared) (begin : Nat) : Option Shared :=
  if begin ∈ s.pool.set then
    match s.pool.allocate begin with
    | (.object p, pool) => some { pool, held := insert p s.held }
    | _ => none
  else none

/-- What is released was held; the thread that had it may have passed it on. -/
def give (s : Shared) (t : Nat) : Option Shared :=
  if t ∈ s.held then some { pool := s.pool.release t, held := s.held.erase t } else none

def guarded : Guarded Shared Nat Nat where
  ready s := decide (s.pool.set ≠ ∅)
  take := take
  give := give

def discipline (block : Bool) : Discipline where
  waits := block
  deferred := true

/-- The pool after `init` and threads that call `allocate` and `release`. -/
def system (maxSize : Nat) (block : Bool) (θ : Type) [DecidableEq θ] :
    System (Monitor.State Shared θ) (Monitor.Action Nat Nat θ) :=
  Monitor.system guarded (discipline block) fun s =>
    s.pool = (new.init true maxSize block).2 ∧ s.held = ∅

theorem take_spec {s s' : Shared} {begin : Nat} (h : guarded.take s begin = some s') :
    begin ∈ s.pool.set ∧ s' = { pool := { s.pool with set := s.pool.set.erase begin }
                                held := insert begin s.held } := by
  obtain ⟨hmem, h⟩ := Option.ite_none_right_eq_some.mp h
  have hne : s.pool.set ≠ ∅ := Finset.ne_empty_of_mem hmem
  rw [allocate, if_neg hne] at h
  exact ⟨hmem, (Option.some.inj h).symm⟩

theorem give_spec {s s' : Shared} {t : Nat} (h : guarded.give s t = some s') :
    t ∈ s.held ∧ s' = { pool := s.pool.release t, held := s.held.erase t } := by
  obtain ⟨hmem, h⟩ := Option.ite_none_right_eq_some.mp h
  exact ⟨hmem, (Option.some.inj h).symm⟩

/-- The pool lends its objects. -/
def lends : Lends guarded Nat where
  free s := s.pool.set
  out s := s.held
  lent begin := begin
  returned t := t
  ready_iff s := by
    rw [Finset.nonempty_iff_ne_empty]
    exact decide_eq_true_iff
  take h := by
    obtain ⟨hmem, rfl⟩ := take_spec h
    exact ⟨hmem, rfl, rfl⟩
  give h := by
    obtain ⟨hmem, rfl⟩ := give_spec h
    exact ⟨hmem, rfl, rfl⟩

variable {maxSize : Nat} {block : Bool} {θ : Type} [DecidableEq θ]

theorem whole_init {s : Shared} (h : s.pool = (new.init true maxSize block).2 ∧ s.held = ∅) :
    Lends.Whole lends (Finset.range maxSize) s := by
  obtain ⟨hpool, hheld⟩ := h
  have hset : s.pool.set = (List.range maxSize).foldl (fun set i => insert i set) ∅ := by
    rw [hpool]
    rfl
  constructor
  · intro i
    change _ ↔ i ∈ s.pool.set ∨ i ∈ s.held
    rw [hset, hheld, mem_foldl_insert, Finset.mem_range, List.mem_range]
    simp
  · intro i _
    change i ∉ s.held
    rw [hheld]
    exact Finset.notMem_empty i

variable {s s' : Monitor.State Shared θ}

/-- Every object is free or held by somebody, and not both. -/
theorem whole (hreach : (system maxSize block θ).Reachable s) :
    Lends.Whole lends (Finset.range maxSize) s.shared :=
  Lends.whole_reachable (fun _ => whole_init) hreach

/-- A step of the threads does not change whether the pool blocks. -/
theorem block_next {a : Monitor.Action Nat Nat θ}
    (hnext : (system maxSize block θ).next s a = some s') :
    s'.shared.pool.block = s.shared.pool.block := by
  cases a with
  | enter t begin =>
    obtain ⟨-, hnext⟩ := Option.ite_none_left_eq_some.mp hnext
    split at hnext
    · obtain ⟨shared, htake, rfl⟩ := Option.map_eq_some_iff.mp hnext
      obtain ⟨-, rfl⟩ := take_spec htake
      rfl
    · split at hnext <;> cases hnext <;> rfl
  | give t p =>
    obtain ⟨-, hnext⟩ := Option.ite_none_left_eq_some.mp hnext
    obtain ⟨shared, hgive, rfl⟩ := Option.map_eq_some_iff.mp hnext
    obtain ⟨-, rfl⟩ := give_spec hgive
    rfl
  | broadcast t =>
    obtain ⟨-, hnext⟩ := Option.ite_none_right_eq_some.mp hnext
    cases hnext
    rfl
  | wake t =>
    cases hnext
    rfl

theorem block_eq (hreach : (system maxSize block θ).Reachable s) :
    s.shared.pool.block = block := by
  apply hreach.invariant (P := fun s => s.shared.pool.block = block)
  · intro s hinit
    rw [hinit.1.1]
    rfl
  · intro s a s' _ hblock hnext
    exact (block_next hnext).trans hblock

/-- A thread that enters does what `allocate` says. -/
theorem next_enter (hreach : (system maxSize block θ).Reachable s) {t : θ} {begin : Nat}
    (hawake : s.asleep t = false) (hidle : s.owing t = false)
    (hbegin : s.shared.pool.set = ∅ ∨ begin ∈ s.shared.pool.set) :
    (system maxSize block θ).next s (.enter t begin) =
      match s.shared.pool.allocate begin with
      | (.wait, _) => some { s with asleep := Function.update s.asleep t true }
      | (.null, _) => some s
      | (.object p, pool) => some { s with shared := { pool, held := insert p s.shared.held } } := by
  have hblock := block_eq hreach
  have hnext : (system maxSize block θ).next s (.enter t begin) =
      if guarded.ready s.shared then
        (take s.shared begin).map fun shared => { s with shared }
      else if block then some { s with asleep := Function.update s.asleep t true }
      else some s := by
    simp only [system, Monitor.system, Monitor.next, hawake, hidle, discipline, guarded]
    rfl
  rw [hnext]
  by_cases hempty : s.shared.pool.set = ∅
  · have hready : guarded.ready s.shared = false := decide_eq_false (not_not.mpr hempty)
    rw [hready, allocate, if_pos hempty, hblock]
    cases block <;> rfl
  · have hready : guarded.ready s.shared = true := decide_eq_true hempty
    rw [hready, take, if_pos (hbegin.resolve_left hempty), allocate, if_neg hempty]
    rfl

/-- What `allocate` says to a thread that it gives no object. -/
theorem allocate_eq_object {pool : ObjectPool} {begin : Nat}
    (h : ∀ p, (pool.allocate begin).1 ≠ .object p) : pool.set = ∅ := by
  by_contra hne
  apply h begin
  rw [allocate, if_neg hne]

/-- When nothing is free everything is held. -/
theorem held_eq (hreach : (system maxSize block θ).Reachable s) (hempty : s.shared.pool.set = ∅) :
    s.shared.held = Finset.range maxSize := by
  apply Finset.ext
  intro i
  have hmem : i ∈ Finset.range maxSize ↔ i ∈ s.shared.pool.set ∨ i ∈ s.shared.held :=
    (whole hreach).mem i
  rw [hmem, hempty]
  simp

theorem card_set (hreach : (system maxSize block θ).Reachable s) :
    s.shared.pool.set.card = maxSize - s.shared.held.card := by
  have hunion : s.shared.pool.set ∪ s.shared.held = Finset.range maxSize := by
    apply Finset.ext
    intro i
    rw [Finset.mem_union]
    exact ((whole hreach).mem i).symm
  have hdisjoint : Disjoint s.shared.pool.set s.shared.held :=
    Finset.disjoint_left.mpr (whole hreach).apart
  have hcard := Finset.card_union_of_disjoint hdisjoint
  rw [hunion, Finset.card_range] at hcard
  omega

/-- **The pool.** The free objects and those that threads hold are all objects, and `space` counts
the free ones. A call of `allocate` gives no object only when all are held. A thread that waits
while an object is free gets one after a wake-up that is on its way, and when none is on its way
all objects are held. -/
theorem waits_for_release (hreach : (system maxSize block θ).Reachable s) :
    (∀ i, i < maxSize ↔ i ∈ s.shared.pool.set ∨ i ∈ s.shared.held) ∧
    Disjoint s.shared.pool.set s.shared.held ∧
    s.shared.pool.space = (maxSize - s.shared.held.card) % 2 ^ 32 ∧
    (∀ begin, (∀ p, (s.shared.pool.allocate begin).1 ≠ .object p) →
      s.shared.held = Finset.range maxSize) ∧
    ∀ t, s.asleep t = true →
      (∀ begin ∈ s.shared.pool.set, ∃ u s', (system maxSize block θ).Run s
        [.broadcast u, .enter t begin] s' ∧ begin ∈ s'.shared.held ∧ s'.asleep t = false) ∧
      ((∀ u, s.owing u = false) → s.shared.held = Finset.range maxSize) := by
  have hwhole := whole hreach
  refine ⟨?_, Finset.disjoint_left.mpr hwhole.apart, ?_, ?_, ?_⟩
  · intro i
    rw [← Finset.mem_range]
    exact hwhole.mem i
  · rw [space, card_set hreach]
  · intro begin hnone
    exact held_eq hreach (allocate_eq_object hnone)
  · intro t hasleep
    constructor
    · intro begin hbegin
      have hready : guarded.ready s.shared = true :=
        decide_eq_true (Finset.ne_empty_of_mem hbegin)
      obtain ⟨shared, htake⟩ : ∃ shared, guarded.take s.shared begin = some shared := by
        have hne := Finset.ne_empty_of_mem hbegin
        simp only [guarded, take, if_pos hbegin, allocate, if_neg hne]
        exact ⟨_, rfl⟩
      obtain ⟨u, s', hrun, rfl, hawake⟩ := served hreach hasleep hready htake
      obtain ⟨-, hshared⟩ := take_spec htake
      refine ⟨u, s', hrun, ?_, hawake⟩
      rw [hshared]
      exact Finset.mem_insert_self begin s.shared.held
    · intro hsettled
      exact Lends.all_out (fun _ => whole_init) hreach hsettled hasleep

/-- Two threads and one object: the second waits, and the first releases the object. -/
def oneObject : List (Monitor.Action Nat Nat Nat) := [.enter 0 0, .enter 1 0, .give 0 0]

theorem waits_for_release_one : ∃ s : Monitor.State Shared Nat,
    (system 1 true Nat).Reachable s ∧ s.asleep 1 = true ∧
      ∃ u s', (system 1 true Nat).Run s [.broadcast u, .enter 1 0] s' ∧ 0 ∈ s'.shared.held := by
  let start : Monitor.State Shared Nat :=
    { shared := { pool := (new.init true 1 true).2, held := ∅ }
      asleep := fun _ => false
      owing := fun _ => false }
  have hstart : (system 1 true Nat).Reachable start :=
    .start ⟨⟨rfl, rfl⟩, fun _ => rfl, fun _ => rfl⟩
  obtain ⟨s, hexec, hasleep, hfree⟩ : ∃ s, (system 1 true Nat).exec start oneObject = some s ∧
      s.asleep 1 = true ∧ 0 ∈ s.shared.pool.set := ⟨_, rfl, rfl, Finset.mem_insert_self 0 _⟩
  have hreach := hstart.run (.of_exec hexec)
  have hserved := ((waits_for_release hreach).2.2.2.2 1 hasleep).1 0 hfree
  obtain ⟨u, s', hrun, hheld, -⟩ := hserved
  exact ⟨s, hreach, hasleep, u, s', hrun, hheld⟩

/-- An object is handed out as often as it comes back, up to where it is at the two ends. -/
theorem hand_outs {as : List (Monitor.Action Nat Nat θ)}
    (hreach : (system maxSize block θ).Reachable s)
    (hrun : (system maxSize block θ).Run s as s') (i : Nat) :
    (lends.deals (discipline block) s as).count (.lend i) +
        (if i ∈ s.shared.held then 1 else 0) =
      (lends.deals (discipline block) s as).count (.restore i) +
        (if i ∈ s'.shared.held then 1 else 0) :=
  run_balance (Lends.lender_run (whole hreach) hrun) i

theorem hand_outs_one : ∃ s s' : Monitor.State Shared Nat,
    (system 1 true Nat).Reachable s ∧ (system 1 true Nat).Run s oneObject s' ∧
      (lends.deals (discipline true) s oneObject).count (.lend 0) =
        (lends.deals (discipline true) s oneObject).count (.restore 0) := by
  let start : Monitor.State Shared Nat :=
    { shared := { pool := (new.init true 1 true).2, held := ∅ }
      asleep := fun _ => false
      owing := fun _ => false }
  have hstart : (system 1 true Nat).Reachable start :=
    .start ⟨⟨rfl, rfl⟩, fun _ => rfl, fun _ => rfl⟩
  obtain ⟨s, hexec, hfree⟩ : ∃ s, (system 1 true Nat).exec start oneObject = some s ∧
      s.shared.held = ∅ := ⟨_, rfl, rfl⟩
  have hrun : (system 1 true Nat).Run start oneObject s := .of_exec hexec
  refine ⟨start, s, hstart, hrun, ?_⟩
  have hbalance := hand_outs hstart hrun 0
  rwa [hfree] at hbalance

end ObjectPool

end Tubekit
