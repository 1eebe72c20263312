import Mathlib.Data.Finset.Card
import Mathlib.Data.List.Nodup
import Tubekit.Lib.Monitor

/-!
# `sql::pool`

The pool of database connections of `src/external/tubekit-sql`: a list behind a mutex. `get` waits
while the list is empty and takes the first connection, `back` puts a connection behind the others
and wakes the waiting threads before it unlocks the mutex.
-/

namespace Tubekit.Sql

open Lib Transition Lending Monitor

/-- `pool`. A connection is its number in `init`. -/
structure Pool where
  list : List Nat
  deriving DecidableEq

namespace Pool

/-- `init`, where `connect` says whether a connection reaches the database. -/
def init (connect : Nat → Bool) (size : Nat) (pool : Pool) : Pool :=
  (List.range size).foldl
    (fun pool i => if connect i then { list := pool.list ++ [i] } else pool) pool

/-- `get`; with an empty list it waits. -/
def get (pool : Pool) : Option (Nat × Pool) :=
  match pool.list with
  | [] => none
  | ptr :: rest => some (ptr, { list := rest })

def back (pool : Pool) (ptr : Nat) : Pool := { list := pool.list ++ [ptr] }

def getSize (pool : Pool) : Nat := pool.list.length

theorem init_list (connect : Nat → Bool) (size : Nat) (pool : Pool) :
    (pool.init connect size).list = pool.list ++ (List.range size).filter connect := by
  unfold init
  induction List.range size generalizing pool with
  | nil => simp
  | cons i l ih =>
    rw [List.foldl_cons, ih]
    by_cases hi : connect i
    · simp [hi]
    · simp [hi]

theorem get_eq {pool pool' : Pool} {ptr : Nat} :
    pool.get = some (ptr, pool') ↔ pool.list = ptr :: pool'.list := by
  obtain ⟨rest⟩ := pool'
  rw [get]
  split
  · rename_i hlist
    simp [hlist]
  · rename_i first rest' hlist
    simp [hlist]

/-! ## The pool and its threads -/

/-- The pool and the connections that threads hold. Nothing is in the list twice, and nothing is in
the list that is held. -/
structure Shared where
  pool : Pool
  held : Finset Nat
  nodup : pool.list.Nodup
  apart : ∀ i ∈ pool.list, i ∉ held

variable {s s' : Shared} {pool : Pool} {ptr : Nat}

theorem nodup_get (h : s.pool.get = some (ptr, pool)) : pool.list.Nodup := by
  have hnodup := s.nodup
  rw [get_eq.mp h] at hnodup
  exact hnodup.of_cons

theorem apart_get (h : s.pool.get = some (ptr, pool)) :
    ∀ i ∈ pool.list, i ∉ insert ptr s.held := by
  have hnodup := s.nodup
  have hapart := s.apart
  rw [get_eq.mp h] at hnodup hapart
  intro i hi
  rw [Finset.mem_insert, not_or]
  refine ⟨?_, hapart i (List.mem_cons_of_mem ptr hi)⟩
  rintro rfl
  exact (List.nodup_cons.mp hnodup).1 hi

theorem nodup_back (h : ptr ∈ s.held) : (s.pool.back ptr).list.Nodup := by
  have hnot : ptr ∉ s.pool.list := fun hi => s.apart ptr hi h
  change (s.pool.list ++ [ptr]).Nodup
  rw [List.nodup_append]
  refine ⟨s.nodup, List.nodup_singleton ptr, ?_⟩
  intro i hi j hj
  rw [List.mem_singleton] at hj
  rw [hj]
  rintro rfl
  exact hnot hi

theorem apart_back : ∀ i ∈ (s.pool.back ptr).list, i ∉ s.held.erase ptr := by
  intro i hi
  rw [Finset.mem_erase, not_and]
  intro hne
  rcases List.mem_append.mp hi with hi | hi
  · exact s.apart i hi
  · exact absurd (List.mem_singleton.mp hi) hne

def take (s : Shared) (ptr : Nat) : Option Shared :=
  match h : s.pool.get with
  | some (first, pool) =>
    if first = ptr then
      some { pool, held := insert first s.held, nodup := nodup_get h, apart := apart_get h }
    else none
  | none => none

/-- What is given back was held; the thread that had it may have passed it on. -/
def give (s : Shared) (ptr : Nat) : Option Shared :=
  if h : ptr ∈ s.held then
    some {
      pool := s.pool.back ptr
      held := s.held.erase ptr
      nodup := nodup_back h
      apart := apart_back }
  else none

def guarded : Guarded Shared Nat Nat where
  ready s := !s.pool.list.isEmpty
  take := take
  give := give

def discipline : Discipline where
  waits := true
  deferred := false

/-- The pool after `init` and threads that call `get` and `back`. -/
def system (connect : Nat → Bool) (size : Nat) (θ : Type) [DecidableEq θ] :
    System (Monitor.State Shared θ) (Monitor.Action Nat Nat θ) :=
  Monitor.system guarded discipline fun s =>
    s.pool = Pool.init connect size { list := [] } ∧ s.held = ∅

theorem take_spec (h : guarded.take s ptr = some s') :
    s.pool.list = ptr :: s'.pool.list ∧ s'.held = insert ptr s.held := by
  change take s ptr = some s' at h
  rw [take] at h
  split at h
  · rename_i first pool hget
    obtain ⟨rfl, htaken⟩ := Option.ite_none_right_eq_some.mp h
    rw [← Option.some.inj htaken]
    exact ⟨get_eq.mp hget, rfl⟩
  · cases h

theorem give_spec (h : guarded.give s ptr = some s') :
    ptr ∈ s.held ∧ s'.pool.list = s.pool.list ++ [ptr] ∧ s'.held = s.held.erase ptr := by
  obtain ⟨hmem, h⟩ := Option.dite_none_right_eq_some.mp h
  cases h
  exact ⟨hmem, rfl, rfl⟩

/-- The pool lends its connections. -/
def lends : Lends guarded Nat where
  free s := s.pool.list.toFinset
  out s := s.held
  lent ptr := ptr
  returned ptr := ptr
  ready_iff s := by
    rw [List.toFinset_nonempty_iff, ← List.isEmpty_eq_false_iff]
    change (!s.pool.list.isEmpty) = true ↔ _
    rw [Bool.not_eq_true']
  take {s ptr s'} h := by
    obtain ⟨hlist, hheld⟩ := take_spec h
    have hnodup := s.nodup
    rw [hlist, List.nodup_cons] at hnodup
    refine ⟨?_, ?_, hheld⟩
    · rw [hlist, List.mem_toFinset]
      exact List.mem_cons_self
    · rw [hlist, List.toFinset_cons, Finset.erase_insert]
      rw [List.mem_toFinset]
      exact hnodup.1
  give h := by
    obtain ⟨hmem, hlist, hheld⟩ := give_spec h
    refine ⟨hmem, ?_, hheld⟩
    apply Finset.ext
    intro i
    rw [hlist]
    simp

variable {connect : Nat → Bool} {size : Nat} {θ : Type} [DecidableEq θ]

/-- The connections that reach the database. -/
def stock (connect : Nat → Bool) (size : Nat) : Finset Nat :=
  (Finset.range size).filter fun i => connect i

theorem whole_init (h : s.pool = Pool.init connect size { list := [] } ∧ s.held = ∅) :
    Lends.Whole lends (stock connect size) s := by
  obtain ⟨hpool, hheld⟩ := h
  constructor
  · intro i
    change _ ↔ i ∈ s.pool.list.toFinset ∨ i ∈ s.held
    rw [hpool, hheld, init_list]
    simp [stock]
  · intro i _
    change i ∉ s.held
    rw [hheld]
    exact Finset.notMem_empty i

variable {t t' : Monitor.State Shared θ}

theorem whole (hreach : (system connect size θ).Reachable t) :
    Lends.Whole lends (stock connect size) t.shared :=
  Lends.whole_reachable (fun _ => whole_init) hreach

/-- The connections that a run takes from the list and puts into it, in order. -/
def taken (deals : List (Deal Nat)) : List Nat :=
  deals.filterMap fun
    | .lend ptr => some ptr
    | _ => none

def returned (deals : List (Deal Nat)) : List Nat :=
  deals.filterMap fun
    | .restore ptr => some ptr
    | _ => none

theorem taken_append (ds es : List (Deal Nat)) : taken (ds ++ es) = taken ds ++ taken es :=
  List.filterMap_append

theorem returned_append (ds es : List (Deal Nat)) :
    returned (ds ++ es) = returned ds ++ returned es := List.filterMap_append

theorem fifo_next {a : Monitor.Action Nat Nat θ}
    (hnext : Monitor.next guarded discipline t a = some t') :
    t.shared.pool.list ++ returned (lends.deal discipline t a) =
      taken (lends.deal discipline t a) ++ t'.shared.pool.list := by
  cases a with
  | enter u ptr =>
    obtain ⟨-, hnext⟩ := Option.ite_none_left_eq_some.mp hnext
    rw [Lends.deal]
    split at hnext
    · rename_i hready
      obtain ⟨shared, htake, rfl⟩ := Option.map_eq_some_iff.mp hnext
      rw [if_pos hready, (take_spec htake).1]
      exact List.append_nil _
    · rename_i hready
      cases hnext
      rw [if_neg hready]
      exact List.append_nil _
  | give u ptr =>
    obtain ⟨-, hnext⟩ := Option.ite_none_left_eq_some.mp hnext
    obtain ⟨shared, hgive, rfl⟩ := Option.map_eq_some_iff.mp hnext
    exact (give_spec hgive).2.1.symm
  | broadcast u =>
    obtain ⟨-, hnext⟩ := Option.ite_none_right_eq_some.mp hnext
    cases hnext
    exact List.append_nil _
  | wake u =>
    cases hnext
    exact List.append_nil _

/-- What a run puts into the list stands behind what was there. -/
theorem fifo {as : List (Monitor.Action Nat Nat θ)}
    (hrun : (system connect size θ).Run t as t') :
    t.shared.pool.list ++ returned (lends.deals discipline t as) =
      taken (lends.deals discipline t as) ++ t'.shared.pool.list := by
  induction hrun with
  | nil => simp [Lends.deals, taken, returned]
  | @cons t u t' a as hnext _ ih =>
    have hsome : Monitor.next guarded discipline t a = some u := hnext
    rw [Lends.deals, hsome, returned_append, taken_append, List.append_assoc, ← ih,
      ← List.append_assoc, ← List.append_assoc]
    apply congrArg (· ++ returned (lends.deals discipline u as))
    exact fifo_next hsome

/-- When the list is empty everything is held. -/
theorem held_eq (hreach : (system connect size θ).Reachable t) (hempty : t.shared.pool.list = []) :
    t.shared.held = stock connect size := by
  apply Finset.ext
  intro i
  have hmem : i ∈ stock connect size ↔ i ∈ t.shared.pool.list.toFinset ∨ i ∈ t.shared.held :=
    (whole hreach).mem i
  rw [hmem, hempty]
  simp

/-- Who waits finds the list empty. -/
theorem list_of_asleep (hreach : (system connect size θ).Reachable t) {u : θ}
    (hasleep : t.asleep u = true) : t.shared.pool.list = [] := by
  have hnothing := nothing_for_sleepers hreach (owing_eq rfl hreach) hasleep
  change (!t.shared.pool.list.isEmpty) = false at hnothing
  rw [Bool.not_eq_false', List.isEmpty_iff] at hnothing
  exact hnothing

theorem getSize_eq (hreach : (system connect size θ).Reachable t) :
    t.shared.pool.getSize + t.shared.held.card = (stock connect size).card := by
  have hdisjoint : Disjoint t.shared.pool.list.toFinset t.shared.held :=
    Finset.disjoint_left.mpr (whole hreach).apart
  have hunion : t.shared.pool.list.toFinset ∪ t.shared.held = stock connect size := by
    apply Finset.ext
    intro i
    rw [Finset.mem_union]
    exact ((whole hreach).mem i).symm
  rw [← hunion, Finset.card_union_of_disjoint hdisjoint,
    List.toFinset_card_of_nodup t.shared.nodup]
  rfl

/-- **The pool of connections.** A connection that reaches the database is in the list once or held
by somebody. Who waits waits because all of them are held, as does who would have to wait. Over every
run the connections are taken in the order in which they came back. -/
theorem shared_in_order (hreach : (system connect size θ).Reachable t) :
    (∀ i, (i < size ∧ connect i = true) ↔ i ∈ t.shared.pool.list ∨ i ∈ t.shared.held) ∧
    t.shared.pool.list.Nodup ∧ (∀ i ∈ t.shared.pool.list, i ∉ t.shared.held) ∧
    t.shared.pool.getSize + t.shared.held.card = (stock connect size).card ∧
    (t.shared.pool.get = none → t.shared.held = stock connect size) ∧
    (∀ u, t.asleep u = true →
      t.shared.pool.list = [] ∧ t.shared.held = stock connect size) ∧
    ∀ as t', (system connect size θ).Run t as t' →
      t.shared.pool.list ++ returned (lends.deals discipline t as) =
        taken (lends.deals discipline t as) ++ t'.shared.pool.list := by
  refine ⟨?_, t.shared.nodup, t.shared.apart, getSize_eq hreach, ?_, ?_, fun _ _ => fifo⟩
  · intro i
    have hmem : i ∈ stock connect size ↔ i ∈ t.shared.pool.list.toFinset ∨ i ∈ t.shared.held :=
      (whole hreach).mem i
    rw [← List.mem_toFinset, ← hmem, stock, Finset.mem_filter, Finset.mem_range]
  · intro hnone
    apply held_eq hreach
    rw [get] at hnone
    split at hnone
    · assumption
    · cases hnone
  · intro u hasleep
    have hempty := list_of_asleep hreach hasleep
    exact ⟨hempty, held_eq hreach hempty⟩

/-- One of two connections reaches the database, and two threads want one. -/
theorem shared_in_order_one : ∃ t : Monitor.State Shared Nat,
    (system (fun i => i == 1) 2 Nat).Reachable t ∧ t.asleep 1 = true ∧
      t.shared.held = stock (fun i => i == 1) 2 := by
  let start : Monitor.State Shared Nat :=
    { shared :=
        { pool := Pool.init (fun i => i == 1) 2 { list := [] }
          held := ∅
          nodup := List.nodup_singleton 1
          apart := fun i _ => Finset.notMem_empty i }
      asleep := fun _ => false
      owing := fun _ => false }
  have hstart : (system (fun i => i == 1) 2 Nat).Reachable start :=
    .start ⟨⟨rfl, rfl⟩, fun _ => rfl, fun _ => rfl⟩
  obtain ⟨t, hexec, hasleep⟩ : ∃ t, (system (fun i => i == 1) 2 Nat).exec start
      [.enter 0 1, .enter 1 1] = some t ∧ t.asleep 1 = true := ⟨_, rfl, rfl⟩
  have hreach := hstart.run (.of_exec hexec)
  exact ⟨t, hreach, hasleep, ((shared_in_order hreach).2.2.2.2.2.1 1 hasleep).2⟩

end Pool

end Tubekit.Sql
