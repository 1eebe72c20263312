import Tubekit.Ipc.ShmCalls

/-!
# Runs of the shared memory pool

The flags tell what is held in every state of every run. `promised_iff_clean` is about all calls
of a run, and says which of them break the promise. While none does, the pool is a lender of its
slots (`lender_run`), so that a slot is given out as often as it is taken back, and an object has
the bytes that its holder put there (`object_kept`).
-/

namespace Tubekit

open Lib Transition

namespace ShmCalls

open Lending ShmPool

variable {s s' : ShmCalls} {call : ShmCall} {calls : List ShmCall} {i : Nat}

/-- The `back` that is taken by mistake does not change a flag. -/
theorem marked_of_slip (h : s.Marked) {t : Nat} (hslip : ¬Clean s (.back t) s')
    (hnext : s.next (.back t) = some s') : s'.Marked := by
  obtain ⟨rfl, huse⟩ := Classical.not_not.mp hslip
  cases hnext
  rcases s.pool.back_cases (s.pool.object s.pool.count) with ⟨i, -, hi, -, hback⟩ | ⟨hnone, -⟩
  · have hnot : s.pool.count ∉ s.held := by
      intro hmem
      exact absurd (Finset.mem_range.mp (h.below hmem)) (Nat.lt_irrefl _)
    have heq : s.takenBack (s.pool.object s.pool.count) true = s.held := by
      rw [takenBack, if_pos rfl, slotOf_object]
      exact Finset.erase_eq_of_notMem hnot
    rw [hback, heq, ← object_inj hi]
    apply h.update_behind (s.pool.setUse s.pool.count 0) rfl
    intro j hj
    exact useList_setUse_ne (Nat.ne_of_lt hj)
  · exact absurd ⟨s.pool.count, Nat.le_refl _, rfl, huse⟩ hnone

theorem marked_step (h : s.Marked) (hnext : s.next call = some s') : s'.Marked := by
  cases call with
  | alloc => exact (alloc_keeps h hnext).1
  | back t =>
    by_cases hclean : Clean s (.back t) s'
    · exact (back_keeps h hclean hnext).1
    · exact marked_of_slip h hclean hnext
  | write i k v => exact write_keeps h hnext

theorem marked_reachable (h : system.Reachable s) : s.Marked := by
  apply h.invariant
  · intro t hopened
    exact marked_of_opened hopened
  · intro t call t' _ hmarked hnext
    exact marked_step hmarked hnext

theorem promised_step_iff (h : s.Marked) (hnext : s.next call = some s') :
    Promised s call s' ↔ Clean s call s' := by
  cases call with
  | alloc => exact ⟨fun _ => trivial, fun _ => alloc_keeps h hnext⟩
  | back t =>
    constructor
    · intro hpromised
      by_contra hslip
      exact back_breaks h hslip hpromised
    · intro hclean
      exact back_keeps h hclean hnext
  | write i k v => exact ⟨fun _ => trivial, fun _ => write_keeps h hnext⟩

theorem promised_along_iff (h : system.Reachable s) (calls : List ShmCall) :
    system.Along Promised s calls ↔ system.Along Clean s calls := by
  apply h.along_congr
  intro t call t' ht hnext
  exact promised_step_iff (marked_reachable ht) hnext

/-- The pool does what it should along a run exactly when nothing is given back at the address
behind the last object while the byte 1 stands there. -/
theorem promised_iff_clean (hopened : system.init s) (calls : List ShmCall) :
    system.Along Promised s calls ↔ system.Along Clean s calls :=
  promised_along_iff (.start hopened) calls

/-- `shm_pool<int> pool("/m_pool", 10)` after `init` made the segment. -/
def intPool : ShmCalls where
  pool := ((new 10 4 (by decide)).init ⟨false, true, true, some (4096, fun _ => 0)⟩).2
  held := ∅

theorem intPool_opened : intPool.Opened :=
  ⟨10, 4, by decide, ⟨false, true, true, some (4096, fun _ => 0)⟩, rfl, fun _ => rfl, nofun⟩

theorem promised_iff_clean_intPool :
    system.Along Promised intPool [.alloc, .write 0 0 1, .back (intPool.pool.object 0)] := by
  apply (promised_iff_clean intPool_opened _).mpr
  intro s₁ h₁
  cases h₁
  refine ⟨trivial, ?_⟩
  intro s₂ h₂
  cases h₂
  refine ⟨trivial, ?_⟩
  intro s₃ _
  refine ⟨?_, trivial⟩
  rintro ⟨ht, -⟩
  exact absurd (object_inj ht) (by decide)

/-- The first object is held and its first byte is 1; then the address behind the last object is
given back. -/
def strayBack : List ShmCall := [.alloc, .write 0 0 1, .back (intPool.pool.object 10)]

theorem strayBack_taken :
    system.init intPool ∧ ¬system.Along Promised intPool strayBack ∧
    (system.exec intPool (strayBack.take 2)).map
      (fun s => (s.held, s.pool.bytes 10, (s.pool.back (s.pool.object 10)).1)) =
        some ({0}, 1, true) ∧
    (system.exec intPool strayBack).map (fun s => (s.held, s.pool.bytes 10)) = some ({0}, 0) := by
  refine ⟨intPool_opened, ?_, rfl, rfl⟩
  intro halong
  obtain ⟨s, hexec, hcount, hobject, huse⟩ : ∃ s,
      system.exec intPool (strayBack.take 2) = some s ∧ s.pool.count = 10 ∧
        intPool.pool.object 10 = s.pool.object 10 ∧ s.pool.useList 10 = 1 :=
    ⟨_, rfl, rfl, rfl, rfl⟩
  have hrun : system.Run intPool (strayBack.take 2) s := .of_exec hexec
  have hmarked : s.Marked := by
    have hreach : system.Reachable intPool := .start intPool_opened
    exact marked_reachable (hreach.run hrun)
  have hback : system.Along Promised s [.back (intPool.pool.object 10)] :=
    halong.of_append hrun
  apply back_breaks hmarked _ (hback _ rfl).1
  rw [Clean, hcount, hobject]
  exact not_not_intro ⟨rfl, huse⟩

/-! ## The pool as a lender -/

/-- What a call is to the lender of the slots. -/
def deal (s : ShmCalls) : ShmCall → Deal Nat
  | .alloc =>
    match s.pool.alloc.1 with
    | some t => .lend (s.pool.slotOf t)
    | none => .exhausted
  | .back t => if (s.pool.back t).1 = true then .restore (s.pool.slotOf t) else .refuse
  | .write i _ _ => .use i

def deals (s : ShmCalls) : List ShmCall → List (Deal Nat)
  | [] => []
  | call :: calls =>
    s.deal call ::
      match s.next call with
      | some s' => s'.deals calls
      | none => []

/-- The layout of the segment stays. -/
theorem next_layout (hnext : s.next call = some s') :
    s'.pool.count = s.pool.count ∧ s'.pool.size = s.pool.size := by
  cases call with
  | alloc =>
    cases hnext
    rcases s.pool.alloc_cases with ⟨i, -, -, -, halloc⟩ | ⟨-, halloc⟩
    · rw [halloc]
      exact ⟨rfl, rfl⟩
    · rw [halloc]
      exact ⟨rfl, rfl⟩
  | back t =>
    cases hnext
    rcases s.pool.back_cases t with ⟨i, -, -, -, hback⟩ | ⟨-, hback⟩
    · rw [hback]
      exact ⟨rfl, rfl⟩
    · rw [hback]
      exact ⟨rfl, rfl⟩
  | write i k v =>
    obtain ⟨-, heq⟩ := Option.ite_none_right_eq_some.mp hnext
    cases heq
    exact ⟨rfl, rfl⟩

/-- A call that keeps its promise is a deal of the lender. -/
theorem lender_step (hnext : s.next call = some s') (h : Promised s call s') :
    (lender (Finset.range s.pool.count)).next s.held (s.deal call) = some s'.held := by
  cases call with
  | alloc =>
    obtain ⟨-, -, ⟨i, hi, hnot, halloc, hheld⟩ | ⟨hall, halloc, hheld⟩⟩ := h
    · rw [deal, halloc, hheld]
      simp only [slotOf_object]
      exact next_lend (Finset.mem_range.mpr hi) hnot
    · rw [deal, halloc, hheld]
      exact next_exhausted hall.symm.subset
  | back t =>
    obtain ⟨-, -, hiff, htaken, hrefused⟩ := h
    cases hback : (s.pool.back t).1 with
    | true =>
      obtain ⟨i, hmem, rfl⟩ := hiff.mp hback
      rw [deal, if_pos hback, slotOf_object, htaken i hmem rfl]
      exact next_restore hmem
    | false =>
      rw [deal, hback, hrefused hback]
      rfl
  | write i k v =>
    obtain ⟨⟨hmem, -⟩, heq⟩ := Option.ite_none_right_eq_some.mp hnext
    cases heq
    exact next_use hmem

theorem lender_run (hrun : system.Run s calls s') (h : system.Along Promised s calls) :
    (lender (Finset.range s.pool.count)).Run s.held (s.deals calls) s'.held := by
  induction hrun with
  | nil => exact .nil _
  | @cons s t s' call calls hnext _ ih =>
    obtain ⟨hfirst, hrest⟩ := h t hnext
    have hdeals : s.deals (call :: calls) = s.deal call :: t.deals calls := by
      have hsome : s.next call = some t := hnext
      rw [deals, hsome]
    have hlater := ih hrest
    rw [(next_layout hnext).1] at hlater
    rw [hdeals]
    exact .cons (lender_step hnext hfirst) hlater

/-- A slot is given out as often as it is taken back, and once more while it is held. -/
theorem slot_balance (h : system.Reachable s) (hrun : system.Run s calls s')
    (hclean : system.Along Clean s calls) (i : Nat) :
    (s.deals calls).count (.lend i) + (if i ∈ s.held then 1 else 0) =
      (s.deals calls).count (.restore i) + (if i ∈ s'.held then 1 else 0) := by
  have hpromised : system.Along Promised s calls := (promised_along_iff h calls).mpr hclean
  exact run_balance (lender_run hrun hpromised) i

/-- A slot is held until it is taken back. -/
theorem held_kept (h : system.Reachable s) (hrun : system.Run s calls s')
    (hclean : system.Along Clean s calls) (hheld : i ∈ s.held)
    (hkeep : .restore i ∉ s.deals calls) : i ∈ s'.held := by
  have hpromised : system.Along Promised s calls := (promised_along_iff h calls).mpr hclean
  exact run_stays_out (lender_run hrun hpromised) hheld hkeep

/-- A call that keeps its promise changes an object only if its holder writes to it. -/
theorem object_step {k : Nat} (hnext : s.next call = some s') (h : Promised s call s')
    (hi : i < s.pool.count) (hk : k < s.pool.size) (hother : ∀ k v, call ≠ .write i k v) :
    s'.pool.bytes (s.pool.objectByte i k) = s.pool.bytes (s.pool.objectByte i k) := by
  cases call with
  | alloc => exact h.2.1 i k hi hk
  | back t => exact h.2.1 i k hi hk
  | write j l v =>
    obtain ⟨⟨-, hl⟩, heq⟩ := Option.ite_none_right_eq_some.mp hnext
    cases heq
    have hne : s.pool.objectByte i k ≠ s.pool.objectByte j l := by
      intro heq
      have hij : i = j := (objectByte_inj hk hl heq).1
      exact hother l v (hij ▸ rfl)
    exact Function.update_of_ne hne v s.pool.bytes

/-- An object has the bytes that its holder put there. -/
theorem object_kept {k : Nat} (hrun : system.Run s calls s') (h : system.Along Promised s calls)
    (hi : i < s.pool.count) (hk : k < s.pool.size) (hother : ∀ k v, .write i k v ∉ calls) :
    s'.pool.bytes (s.pool.objectByte i k) = s.pool.bytes (s.pool.objectByte i k) := by
  induction hrun with
  | nil => rfl
  | @cons s t s' call calls hnext _ ih =>
    obtain ⟨hfirst, hrest⟩ := h t hnext
    obtain ⟨hcount, hsize⟩ := next_layout hnext
    have hbyte : t.pool.objectByte i k = s.pool.objectByte i k := by
      rw [objectByte, objectByte, hcount, hsize]
    have hlater : s'.pool.bytes (t.pool.objectByte i k) = t.pool.bytes (t.pool.objectByte i k) := by
      apply ih hrest (hcount ▸ hi) (hsize ▸ hk)
      intro k v hmem
      exact hother k v (List.mem_cons_of_mem call hmem)
    rw [hbyte] at hlater
    rw [hlater]
    apply object_step hnext hfirst hi hk
    intro k v heq
    exact hother k v (heq ▸ List.mem_cons_self)

end ShmCalls

end Tubekit
