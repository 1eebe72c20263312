import Mathlib.Algebra.Ring.Nat
import Tubekit.Lib.Memory

/-!
# `tubekit::ipc::shm_pool`

The pool of `external/tubekit-ipc/shm.h`. Its segment has `count` flag bytes and behind them
`count` objects of `sizeof(T)` bytes; the bytes are indexed from `mem_ptr` on. Pointers are
addresses. A segment is in memory, so that neither its size nor an address in it wraps around.
-/

namespace Tubekit

open Lib Memory

structure ShmPool where
  count : Nat
  /-- `sizeof(T)` -/
  size : Nat
  size_pos : 0 < size
  memPtr : Nat
  bytes : Nat → UInt8

/-- What the system has for `init`: whether there is a segment of the name, whether one is made
and sized, and where `mmap` puts it, with its bytes. -/
structure ShmSegment where
  existing : Bool
  created : Bool
  sized : Bool
  mapped : Option (Nat × (Nat → UInt8))

namespace ShmPool

/-- The constructor. -/
def new (count size : Nat) (size_pos : 0 < size) : ShmPool := ⟨count, size, size_pos, 0, fun _ => 0⟩

def memSize (p : ShmPool) : Nat := p.count + p.size * p.count

/-- `MAP_FAILED`. -/
def mapFailed : Nat := 2 ^ 64 - 1

/-- The part of `init` from `mmap` on. -/
def map (p : ShmPool) (mapped : Option (Nat × (Nat → UInt8))) (recreate : Bool) : Bool × ShmPool :=
  match mapped with
  | none => (false, { p with memPtr := mapFailed })
  | some (memPtr, bytes) =>
    (true, { p with
      memPtr := memPtr
      bytes := if recreate then store bytes 0 (List.replicate p.count 0) else bytes })

def init (p : ShmPool) (segment : ShmSegment) : Bool × ShmPool :=
  if segment.existing = false then
    if segment.created = false then (false, p)
    else if segment.sized = false then (false, p)
    else p.map segment.mapped true
  else p.map segment.mapped false

/-- `use_list[i]`. -/
def useList (p : ShmPool) (i : Nat) : UInt8 := p.bytes i

def setUse (p : ShmPool) (i : Nat) (v : UInt8) : ShmPool :=
  { p with bytes := Function.update p.bytes i v }

/-- `&object_ptr[i]`. -/
def object (p : ShmPool) (i : Nat) : Nat := p.memPtr + p.count + i * p.size

def alloc (p : ShmPool) : Option Nat × ShmPool :=
  match (List.range p.count).find? (fun i => p.useList i == 0) with
  | some i => (some (p.object i), p.setUse i 1)
  | none => (none, p)

def back (p : ShmPool) (t : Nat) : Bool × ShmPool :=
  let startAddr := p.object 0
  let endAddr := p.object p.count
  if ¬(t ≤ endAddr ∧ t ≥ startAddr) then (false, p)
  else
    let gap := t - startAddr
    if gap % p.size ≠ 0 then (false, p)
    else
      let index := gap / p.size
      if p.useList index ≠ 1 then (false, p)
      else (true, p.setUse index 0)

/-- The offset of byte `k` of object `i`. -/
def objectByte (p : ShmPool) (i k : Nat) : Nat := p.count + i * p.size + k

/-- The holder of object `i` stores a byte in it. -/
def write (p : ShmPool) (i k : Nat) (v : UInt8) : ShmPool :=
  { p with bytes := Function.update p.bytes (p.objectByte i k) v }

/-- The slot that an address of an object belongs to. -/
def slotOf (p : ShmPool) (t : Nat) : Nat := (t - p.object 0) / p.size

/-- Every byte of every object is as it was. -/
def SameObjects (p q : ShmPool) : Prop :=
  ∀ i k, i < p.count → k < p.size → q.bytes (p.objectByte i k) = p.bytes (p.objectByte i k)

variable {p q : ShmPool} {i j k t : Nat} {v : UInt8}

theorem useList_setUse_same : (p.setUse i v).useList i = v := by
  simp [useList, setUse]

theorem useList_setUse_ne (hne : j ≠ i) : (p.setUse i v).useList j = p.useList j := by
  simp [useList, setUse, hne]

/-- No byte of an object is a flag. -/
theorem count_le_objectByte : p.count ≤ p.objectByte i k := by
  rw [objectByte, Nat.add_assoc]
  exact Nat.le_add_right _ _

theorem objectByte_lt_memSize (hi : i < p.count) (hk : k < p.size) :
    p.objectByte i k < p.memSize := by
  have hle : (i + 1) * p.size ≤ p.count * p.size := Nat.mul_le_mul_right _ hi
  rw [Nat.succ_mul] at hle
  rw [objectByte, memSize, Nat.mul_comm p.size]
  omega

/-- Different objects have no byte in common. -/
theorem objectByte_inj {i' k' : Nat} (hk : k < p.size) (hk' : k' < p.size)
    (h : p.objectByte i k = p.objectByte i' k') : i = i' ∧ k = k' := by
  have heq : p.size * i + k = p.size * i' + k' := by
    rw [objectByte, objectByte] at h
    rw [Nat.mul_comm, Nat.mul_comm p.size]
    omega
  have hi : i = i' := by
    have hdiv := congrArg (· / p.size) heq
    simpa [Nat.mul_add_div p.size_pos, Nat.div_eq_of_lt hk, Nat.div_eq_of_lt hk'] using hdiv
  subst hi
  exact ⟨rfl, Nat.add_left_cancel heq⟩

theorem object_inj (h : p.object i = p.object j) : i = j :=
  Nat.eq_of_mul_eq_mul_right p.size_pos (Nat.add_left_cancel h)

@[simp] theorem slotOf_object : p.slotOf (p.object i) = i := by
  have hgap : p.object i - p.object 0 = i * p.size := by
    simp only [object]
    omega
  rw [slotOf, hgap, Nat.mul_div_cancel i p.size_pos]

@[simp] theorem useList_write (hj : j < p.count) : (p.write i k v).useList j = p.useList j := by
  have hne : j ≠ p.objectByte i k := by
    have hle : p.count ≤ p.objectByte i k := count_le_objectByte
    omega
  exact Function.update_of_ne hne v p.bytes

/-- The objects are the segment behind the flags. -/
theorem sameObjects_iff : SameObjects p q ↔
    ∀ k, p.count ≤ k → k < p.memSize → q.bytes k = p.bytes k := by
  constructor
  · intro hsame k hle hlt
    have hi : (k - p.count) / p.size < p.count := by
      apply Nat.div_lt_of_lt_mul
      rw [memSize] at hlt
      omega
    have hk : p.objectByte ((k - p.count) / p.size) ((k - p.count) % p.size) = k := by
      rw [objectByte, Nat.add_assoc, Nat.div_add_mod']
      omega
    have hbyte := hsame _ _ hi (Nat.mod_lt (k - p.count) p.size_pos)
    rwa [hk] at hbyte
  · intro hsame i k hi hk
    exact hsame _ count_le_objectByte (objectByte_lt_memSize hi hk)

theorem sameObjects_refl : SameObjects p p := fun _ _ _ _ => rfl

theorem sameObjects_setUse (hi : i < p.count) : SameObjects p (p.setUse i v) := by
  intro j k _ _
  have hne : p.objectByte j k ≠ i := by
    have hle : p.count ≤ p.objectByte j k := count_le_objectByte
    omega
  exact Function.update_of_ne hne v p.bytes

/-- The flags of a segment that `init` made are zero. -/
theorem useList_of_created {segment : ShmSegment} (hnew : segment.existing = false)
    (hinit : p.init segment = (true, q)) :
    q.count = p.count ∧ ∀ i < p.count, q.useList i = 0 := by
  unfold init at hinit
  rw [if_pos hnew] at hinit
  split at hinit
  · cases hinit
  split at hinit
  · cases hinit
  unfold map at hinit
  split at hinit
  · cases hinit
  cases hinit
  refine ⟨rfl, ?_⟩
  intro i hi
  have hlen : i < (List.replicate p.count (0 : UInt8)).length := by
    rw [List.length_replicate]
    exact hi
  simp only [useList, if_true]
  rw [← Nat.zero_add i, store_at hlen, List.getElem_replicate]

/-- `alloc` takes the first slot whose flag is zero. -/
theorem alloc_cases :
    (∃ i < p.count, p.useList i = 0 ∧ (∀ j < i, p.useList j ≠ 0) ∧
      p.alloc = (some (p.object i), p.setUse i 1)) ∨
    ((∀ i < p.count, p.useList i ≠ 0) ∧ p.alloc = (none, p)) := by
  cases hfind : (List.range p.count).find? (fun i => p.useList i == 0) with
  | some i =>
    obtain ⟨hflag, hmem, hbefore⟩ := List.find?_range_eq_some.mp hfind
    refine Or.inl ⟨i, List.mem_range.mp hmem, eq_of_beq hflag, ?_, ?_⟩
    · intro j hj
      simpa using hbefore j hj
    · rw [alloc, hfind]
  | none =>
    refine Or.inr ⟨?_, ?_⟩
    · intro i hi
      simpa using List.find?_range_eq_none.mp hfind i hi
    · rw [alloc, hfind]

/-- `back` takes back what is at the address of a slot, or right behind the last one, and has
the byte 1 at the place of its flag. -/
theorem back_cases (p : ShmPool) (t : Nat) :
    (∃ i ≤ p.count, t = p.object i ∧ p.useList i = 1 ∧ p.back t = (true, p.setUse i 0)) ∨
    ((¬∃ i ≤ p.count, t = p.object i ∧ p.useList i = 1) ∧ p.back t = (false, p)) := by
  by_cases h : ∃ i ≤ p.count, t = p.object i ∧ p.useList i = 1
  · obtain ⟨i, hi, rfl, huse⟩ := h
    refine Or.inl ⟨i, hi, rfl, huse, ?_⟩
    have hle : i * p.size ≤ p.count * p.size := Nat.mul_le_mul_right _ hi
    have hrange : p.object i ≤ p.object p.count ∧ p.object i ≥ p.object 0 := by
      simp only [object]
      omega
    have hgap : p.object i - p.object 0 = i * p.size := by
      simp only [object]
      omega
    simp [back, hrange, hgap, Nat.mul_div_cancel i p.size_pos, huse]
  · refine Or.inr ⟨h, ?_⟩
    by_cases hrange : t ≤ p.object p.count ∧ t ≥ p.object 0
    · by_cases hmod : (t - p.object 0) % p.size = 0
      · have hmul : (t - p.object 0) / p.size * p.size = t - p.object 0 :=
          Nat.div_mul_cancel (Nat.dvd_of_mod_eq_zero hmod)
        have ht : t = p.object ((t - p.object 0) / p.size) := by
          have hge := hrange.2
          simp only [object] at hmul hge ⊢
          omega
        have hle : (t - p.object 0) / p.size ≤ p.count := by
          have hsub : t - p.object 0 ≤ p.count * p.size := by
            have hle := hrange.1
            simp only [object] at hle ⊢
            omega
          exact Nat.div_le_of_le_mul (Nat.mul_comm _ _ ▸ hsub)
        have huse : p.useList ((t - p.object 0) / p.size) ≠ 1 := fun huse => h ⟨_, hle, ht, huse⟩
        simp [back, hrange, hmod, huse]
      · simp [back, hrange, hmod]
    · rw [back, if_pos hrange]

end ShmPool

end Tubekit
