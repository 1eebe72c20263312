import Mathlib.Data.Finset.Range
import Tubekit.Ipc.ShmPool
import Tubekit.Lib.Lending

/-!
# Calls to the shared memory pool

The pool is asked for objects, is given back arbitrary addresses, and who holds an object stores
bytes in it. `held` has the slots that `alloc` gave out and `back` has not taken back; the pool
does not see it.

`back` compares with `t <= end_addr`, so the address right behind the last object passes, and
the byte that it tests as a flag is the first byte of the first object. Every step does what it
should except for a `back` of that address while that byte is 1 (`promised_iff_clean`).
-/

namespace Tubekit

open Lib Memory Transition

structure ShmCalls where
  pool : ShmPool
  held : Finset Nat

inductive ShmCall where
  | alloc
  | back (t : Nat)
  | write (i k : Nat) (v : UInt8)

namespace ShmCalls

open Lending ShmPool

/-- A slot is held when its flag is 1 and free when its flag is 0. -/
structure Marked (s : ShmCalls) : Prop where
  below : s.held ⊆ Finset.range s.pool.count
  flag : ∀ i < s.pool.count, s.pool.useList i = if i ∈ s.held then 1 else 0

/-- A pool after `init`. Nothing of a new segment is held; of one that exists the flags tell
what is. -/
def Opened (s : ShmCalls) : Prop :=
  ∃ (count size : Nat) (size_pos : 0 < size) (segment : ShmSegment),
    (ShmPool.new count size size_pos).init segment = (true, s.pool) ∧
    (segment.existing = false → s.held = ∅) ∧ (segment.existing = true → s.Marked)

/-- What `held` becomes when `alloc` returns `t`. -/
def given (s : ShmCalls) : Option Nat → Finset Nat
  | some t => insert (s.pool.slotOf t) s.held
  | none => s.held

/-- What `held` becomes when `back(t)` returns `taken`. -/
def takenBack (s : ShmCalls) (t : Nat) (taken : Bool) : Finset Nat :=
  if taken = true then s.held.erase (s.pool.slotOf t) else s.held

def next (s : ShmCalls) : ShmCall → Option ShmCalls
  | .alloc => some ⟨s.pool.alloc.2, s.given s.pool.alloc.1⟩
  | .back t => some ⟨(s.pool.back t).2, s.takenBack t (s.pool.back t).1⟩
  | .write i k v =>
    if i ∈ s.held ∧ k < s.pool.size then some { s with pool := s.pool.write i k v } else none

def system : System ShmCalls ShmCall where
  init := Opened
  next := next

/-- What the pool promises of a call that leads from `s` to `s'`. -/
def Promised (s : ShmCalls) (call : ShmCall) (s' : ShmCalls) : Prop :=
  match call with
  | .alloc =>
    s'.Marked ∧ SameObjects s.pool s'.pool ∧
    ((∃ i < s.pool.count, i ∉ s.held ∧ s.pool.alloc.1 = some (s.pool.object i) ∧
        s'.held = insert i s.held) ∨
      (s.held = Finset.range s.pool.count ∧ s.pool.alloc.1 = none ∧ s'.held = s.held))
  | .back t =>
    s'.Marked ∧ SameObjects s.pool s'.pool ∧
    ((s.pool.back t).1 = true ↔ ∃ i ∈ s.held, t = s.pool.object i) ∧
    (∀ i ∈ s.held, t = s.pool.object i → s'.held = s.held.erase i) ∧
    ((s.pool.back t).1 = false → s'.held = s.held)
  | .write _ _ _ => s'.Marked

/-- Nothing is given back at the address behind the last object while the byte behind the last
flag, the first byte of the first object, is 1. -/
def Clean (s : ShmCalls) (call : ShmCall) (_ : ShmCalls) : Prop :=
  match call with
  | .back t => ¬(t = s.pool.object s.pool.count ∧ s.pool.useList s.pool.count = 1)
  | _ => True

variable {s s' : ShmCalls} {call : ShmCall} {i : Nat}

theorem Marked.mem_iff (h : s.Marked) (hi : i < s.pool.count) :
    i ∈ s.held ↔ s.pool.useList i = 1 := by
  rw [h.flag i hi]
  by_cases hmem : i ∈ s.held
  · simp [hmem]
  · simp [hmem]

/-- The flag of one slot and its place in `held` change together. -/
theorem Marked.setUse (h : s.Marked) (hi : i < s.pool.count) {v : UInt8} {held : Finset Nat}
    (hv : v = if i ∈ held then 1 else 0) (hothers : ∀ j, j ≠ i → (j ∈ held ↔ j ∈ s.held)) :
    Marked ⟨s.pool.setUse i v, held⟩ := by
  constructor
  · intro j hj
    by_cases hji : j = i
    · rw [hji]
      exact Finset.mem_range.mpr hi
    · exact h.below ((hothers j hji).mp hj)
  · intro j hj
    by_cases hji : j = i
    · rw [hji, ← hv]
      exact useList_setUse_same
    · have hflag : s.pool.useList j = if j ∈ s.held then 1 else 0 := h.flag j hj
      simp only [hothers j hji]
      rw [← hflag]
      exact useList_setUse_ne hji

/-- A byte behind the flags does not matter. -/
theorem Marked.update_behind (h : s.Marked) (pool : ShmPool) (hcount : pool.count = s.pool.count)
    (hsame : ∀ j < s.pool.count, pool.useList j = s.pool.useList j) :
    Marked ⟨pool, s.held⟩ := by
  constructor
  · rw [hcount]
    exact h.below
  · intro j hj
    rw [hcount] at hj
    rw [hsame j hj]
    exact h.flag j hj

theorem marked_of_opened (h : s.Opened) : s.Marked := by
  obtain ⟨count, size, size_pos, segment, hinit, hnew, hold⟩ := h
  cases hexisting : segment.existing with
  | true => exact hold hexisting
  | false =>
    obtain ⟨hcount, hzero⟩ := useList_of_created hexisting hinit
    constructor
    · rw [hnew hexisting]
      exact Finset.empty_subset _
    · intro i hi
      rw [hcount] at hi
      rw [hnew hexisting, if_neg (Finset.notMem_empty i)]
      exact hzero i hi

/-! ## One call -/

theorem alloc_keeps (h : s.Marked) (hnext : s.next .alloc = some s') : Promised s .alloc s' := by
  cases hnext
  rcases s.pool.alloc_cases with ⟨i, hi, hflag, -, halloc⟩ | ⟨hall, halloc⟩
  · have hnot : i ∉ s.held := by
      rw [h.mem_iff hi, hflag]
      decide
    rw [Promised, halloc]
    simp only [given, slotOf_object]
    refine ⟨h.setUse hi ?_ ?_, sameObjects_setUse hi, Or.inl ⟨i, hi, hnot, rfl, rfl⟩⟩
    · rw [if_pos (Finset.mem_insert_self i s.held)]
    · intro j hji
      rw [Finset.mem_insert, or_iff_right hji]
  · have hheld : s.held = Finset.range s.pool.count := by
      apply Finset.Subset.antisymm h.below
      intro i hi
      by_contra hnot
      apply hall i (Finset.mem_range.mp hi)
      rw [h.flag i (Finset.mem_range.mp hi), if_neg hnot]
    rw [Promised, halloc]
    exact ⟨h, sameObjects_refl, Or.inr ⟨hheld, rfl, rfl⟩⟩

/-- A `back` that is not of the address behind the last object with the byte 1 there. -/
theorem back_keeps (h : s.Marked) {t : Nat} (hclean : Clean s (.back t) s')
    (hnext : s.next (.back t) = some s') : Promised s (.back t) s' := by
  cases hnext
  rcases s.pool.back_cases t with ⟨i, hle, rfl, huse, hback⟩ | ⟨hnone, hback⟩
  · have hi : i < s.pool.count := by
      apply Nat.lt_of_le_of_ne hle
      intro heq
      subst heq
      exact hclean ⟨rfl, huse⟩
    have hmem : i ∈ s.held := (h.mem_iff hi).mpr huse
    rw [Promised, hback]
    rw [takenBack, if_pos rfl, slotOf_object]
    refine ⟨h.setUse hi ?_ ?_, sameObjects_setUse hi, ?_, ?_, ?_⟩
    · rw [if_neg (Finset.notMem_erase i s.held)]
    · intro j hji
      rw [Finset.mem_erase, and_iff_right hji]
    · exact ⟨fun _ => ⟨i, hmem, rfl⟩, fun _ => rfl⟩
    · intro j _ hj
      rw [object_inj hj]
    · intro hfalse
      cases hfalse
  · have hnot : ¬∃ i ∈ s.held, t = s.pool.object i := by
      rintro ⟨i, hmem, ht⟩
      have hi : i < s.pool.count := Finset.mem_range.mp (h.below hmem)
      exact hnone ⟨i, Nat.le_of_lt hi, ht, (h.mem_iff hi).mp hmem⟩
    rw [Promised, hback]
    refine ⟨h, sameObjects_refl, ?_, ?_, fun _ => rfl⟩
    · exact ⟨fun hfalse => Bool.noConfusion hfalse, fun hex => absurd hex hnot⟩
    · exact fun i hmem ht => absurd ⟨i, hmem, ht⟩ hnot

/-- The `back` that is left out: it returns true, and no slot has the address. -/
theorem back_breaks (h : s.Marked) {t : Nat} (hslip : ¬Clean s (.back t) s') :
    ¬Promised s (.back t) s' := by
  obtain ⟨ht, huse⟩ := Classical.not_not.mp hslip
  rintro ⟨-, -, hiff, -, -⟩
  have htrue : (s.pool.back t).1 = true := by
    rcases s.pool.back_cases t with ⟨i, -, -, -, hback⟩ | ⟨hnone, -⟩
    · rw [hback]
    · exact absurd ⟨s.pool.count, Nat.le_refl _, ht, huse⟩ hnone
  obtain ⟨i, hmem, hi⟩ := hiff.mp htrue
  rw [ht] at hi
  have hlt : i < s.pool.count := Finset.mem_range.mp (h.below hmem)
  rw [← object_inj hi] at hlt
  exact Nat.lt_irrefl _ hlt

theorem write_keeps (h : s.Marked) {k : Nat} {v : UInt8}
    (hnext : s.next (.write i k v) = some s') : s'.Marked := by
  obtain ⟨-, heq⟩ := Option.ite_none_right_eq_some.mp hnext
  cases heq
  exact h.update_behind _ rfl fun j hj => useList_write hj

end ShmCalls

end Tubekit
