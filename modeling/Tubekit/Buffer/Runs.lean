import Tubekit.Buffer.Refinement

/-!
# Sequences of buffer operations

The public operations as data (`Op`, `Out`), their effect on a buffer (`apply`) and on the
queue of unread bytes (`FifoStep`). Along every sequence of operations on a fresh buffer the
storage stays well formed and every operation is a `FifoStep` (`run_refines_fifo`).

The only bound on the inputs is that of the machine: limits are `uint64_t`, and the sizes of
the writes of the sequence sum up to less than `2 ^ 64`.
-/

namespace Tubekit.Buffer

/-- A call of a public operation. A `source`, `dest` or `out` may be `nullptr`. -/
inductive Op where
  | write (source : Option (List Byte))
  | read (dest : Bool) (size : Nat)
  | copyAll (out : Bool) (outLen : Nat)
  | readPtrMoveN (n : Nat)
  | canReadableSize
  | blankSpace
  | setLimitMax (limitMax : Nat)
  | clear

/-- What a call gives back: its return value and the bytes it wrote to its destination. -/
inductive Out where
  | wrote (result : Except BufferError Nat)
  | gave (result : Except BufferError (List Byte))
  | copied (bytes : List Byte)
  | moved (done : Bool)
  | size (n : Nat)
  | nothing

def apply (b : Buffer) : Op → Out × Buffer
  | .write source => (.wrote (b.write source).1, (b.write source).2)
  | .read dest size => (.gave (b.read dest size).1, (b.read dest size).2)
  | .copyAll out outLen => (.copied (b.copyAll out outLen).1, (b.copyAll out outLen).2)
  | .readPtrMoveN n => (.moved (b.readPtrMoveN n).1, (b.readPtrMoveN n).2)
  | .canReadableSize => (.size b.canReadableSize.1, b.canReadableSize.2)
  | .blankSpace => (.size b.blankSpace.1, b.blankSpace.2)
  | .setLimitMax limitMax => (.nothing, b.setLimitMax limitMax)
  | .clear => (.nothing, b.clear)

def run (b : Buffer) (ops : List Op) : Buffer := ops.foldl (fun b op => (b.apply op).2) b

/-- The bytes an operation asks to write. -/
def Op.written : Op → Nat
  | .write (some source) => source.length
  | _ => 0

/-- The limit an operation asks for, `0` when it asks for none. -/
def Op.limit : Op → Nat
  | .setLimitMax limitMax => limitMax
  | _ => 0

/-- An operation with a result, as a step of a queue of bytes from `q` to `q'`. -/
def FifoStep (q q' : List Byte) : Op → Out → Prop
  | .write source, .wrote (.ok n) => ∃ bytes, source = some bytes ∧ n = bytes.length ∧ q' = q ++ bytes
  | .write _, .wrote (.error _) => q' = q
  | .read _ size, .gave (.ok bytes) => bytes = q.take size ∧ q' = q.drop size
  | .read dest size, .gave (.error _) => q' = q ∧ (dest = false ∨ size = 0)
  | .copyAll out outLen, .copied bytes =>
    q' = q ∧ bytes = if out = true ∧ q.length ≤ outLen then q else []
  | .readPtrMoveN n, .moved done =>
    if n ≤ q.length then done = true ∧ q' = q.drop n else done = false ∧ q' = q
  | .canReadableSize, .size n => n = q.length ∧ q' = q
  | .blankSpace, .size _ => q' = q
  | .setLimitMax _, .nothing => q' = q
  | .clear, .nothing => q' = []
  | _, _ => False

/-- One operation on a well-formed buffer. -/
theorem apply_fifoStep {b : Buffer} (h : Wf b) {op : Op} (hl : op.limit < 2 ^ 64)
    (hsum : b.content.length + op.written < 2 ^ 64) :
    Wf (b.apply op).2 ∧ FifoStep b.content (b.apply op).2.content op (b.apply op).1 := by
  cases op with
  | write source =>
    by_cases hs : source = none ∨ source = some []
    · obtain ⟨b', hRun, hWf, hC, -⟩ := write_throws h hs
      simp only [apply, hRun]
      exact ⟨hWf, hC⟩
    · obtain ⟨bytes, rfl⟩ : ∃ bytes, source = some bytes := by
        cases source with
        | none => simp at hs
        | some bytes => exact ⟨bytes, rfl⟩
      obtain ⟨b', hWf, -, hCase⟩ := write_spec h (by simpa using hs) hsum
      split at hCase
      · obtain ⟨hRun, hC⟩ := hCase
        simp only [apply, hRun]
        exact ⟨hWf, bytes, rfl, rfl, hC⟩
      · obtain ⟨hRun, hC⟩ := hCase
        simp only [apply, hRun]
        exact ⟨hWf, hC⟩
  | read dest size =>
    by_cases hs : dest = false ∨ size = 0
    · obtain ⟨b', hRun, hWf, hC, -⟩ := read_throws h hs
      simp only [apply, hRun]
      exact ⟨hWf, hC, hs⟩
    · obtain ⟨rfl, hpos⟩ : dest = true ∧ 0 < size := by
        simp only [not_or, Bool.not_eq_false] at hs
        exact ⟨hs.1, Nat.pos_of_ne_zero hs.2⟩
      obtain ⟨b', hRun, hWf, hC, -⟩ := read_spec h hpos
      simp only [apply, hRun]
      exact ⟨hWf, rfl, hC⟩
  | copyAll out outLen =>
    obtain ⟨b', hRun, hWf, hC, -⟩ := copyAll_spec h out outLen
    simp only [apply, hRun]
    exact ⟨hWf, hC, rfl⟩
  | readPtrMoveN n =>
    obtain ⟨b', hRun, hWf, hC, -⟩ := readPtrMoveN_spec h n
    simp only [apply, hRun]
    refine ⟨hWf, ?_⟩
    simp only [FifoStep, hC]
    split <;> simp_all
  | canReadableSize =>
    obtain ⟨b', hRun, hWf, hC, -⟩ := canReadableSize_spec h
    simp only [apply, hRun]
    exact ⟨hWf, rfl, hC⟩
  | blankSpace =>
    obtain ⟨b', hRun, hWf, hC, -, -⟩ := blankSpace_spec h
    simp only [apply, hRun]
    exact ⟨hWf, hC⟩
  | setLimitMax limitMax =>
    obtain ⟨hWf, hC, -⟩ := setLimitMax_spec h hl
    exact ⟨hWf, hC⟩
  | clear => exact ⟨wf_clear b, rfl⟩

/-- A step of the queue adds at most the bytes that the operation asks to write. -/
theorem FifoStep.length_le {q q' : List Byte} {op : Op} {out : Out} (h : FifoStep q q' op out) :
    q'.length ≤ q.length + op.written := by
  unfold FifoStep at h
  split at h
  · obtain ⟨bytes, rfl, -, rfl⟩ := h
    simp [Op.written]
  · rw [h]
    exact Nat.le_add_right _ _
  · obtain ⟨-, rfl⟩ := h
    rw [List.length_drop]
    omega
  · rw [h.1]
    exact Nat.le_add_right _ _
  · rw [h.1]
    exact Nat.le_add_right _ _
  · split at h
    · rw [h.2, List.length_drop]
      omega
    · rw [h.2]
      exact Nat.le_add_right _ _
  · rw [h.2]
    exact Nat.le_add_right _ _
  · rw [h]
    exact Nat.le_add_right _ _
  · rw [h]
    exact Nat.le_add_right _ _
  · rw [h]
    exact Nat.zero_le _
  · exact h.elim

theorem run_append (b : Buffer) (ops ops' : List Op) :
    b.run (ops ++ ops') = (b.run ops).run ops' := List.foldl_append

/-- Along a sequence the buffer stays well formed and holds no more than was written. -/
theorem run_wf {b : Buffer} (h : Wf b) (ops : List Op) (hl : ∀ op ∈ ops, op.limit < 2 ^ 64)
    (hsum : b.content.length + (ops.map Op.written).sum < 2 ^ 64) :
    Wf (b.run ops) ∧
      (b.run ops).content.length ≤ b.content.length + (ops.map Op.written).sum := by
  induction ops generalizing b with
  | nil => exact ⟨h, Nat.le_refl _⟩
  | cons op ops ih =>
    simp only [List.map_cons, List.sum_cons] at hsum ⊢
    obtain ⟨hWf, hStep⟩ := apply_fifoStep h (hl op List.mem_cons_self) (by omega)
    have hlen := hStep.length_le
    obtain ⟨hWf', hlen'⟩ :=
      ih hWf (fun op' h' => hl op' (List.mem_cons_of_mem op h')) (by omega)
    exact ⟨hWf', by simp only [run, List.foldl_cons] at hlen' ⊢; omega⟩

/-- Every operation of a sequence on a fresh buffer finds and leaves the storage placed, its
size within the limit once allocated, and is a step of the queue of unread bytes. -/
theorem run_refines_fifo (heap : Nat → Byte) (before after : List Op) (op : Op)
    (hl : ∀ o ∈ before ++ op :: after, o.limit < 2 ^ 64)
    (hsum : ((before ++ op :: after).map Op.written).sum < 2 ^ 64) :
    let b := (new heap).run before
    b.Placed ∧ (b.apply op).2.Placed ∧
      b.checkInit.size ≤ b.checkInit.limitMax ∧
      FifoStep b.content (b.apply op).2.content op (b.apply op).1 := by
  intro b
  simp only [List.map_append, List.map_cons, List.sum_append, List.sum_cons] at hsum
  obtain ⟨hWf, hlen⟩ : Wf b ∧ b.content.length ≤ 0 + (before.map Op.written).sum :=
    run_wf (wf_new heap) before (fun o ho => hl o (by simp [ho]))
      (by rw [content_new, List.length_nil]; omega)
  obtain ⟨hWf', hStep⟩ := apply_fifoStep hWf (hl op (by simp)) (by omega)
  obtain ⟨m, r, w, hReady, -, -⟩ := checkInit_spec hWf
  exact ⟨hWf.placed, hWf'.placed, hReady.within, hStep⟩

/-- `run_refines_fifo` at a write after a partial read. -/
theorem run_refines_fifo_write_after_read :
    let b := (new (fun _ => 0)).run [.write (some [97, 98]), .read true 1]
    FifoStep b.content (b.apply (.write (some [99]))).2.content (.write (some [99]))
      (b.apply (.write (some [99]))).1 :=
  (run_refines_fifo (fun _ => 0) [.write (some [97, 98]), .read true 1] [] (.write (some [99]))
    (by simp [Op.limit]) (by simp [Op.written])).2.2.2

end Tubekit.Buffer
