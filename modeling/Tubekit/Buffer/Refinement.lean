import Tubekit.Buffer.Model

/-!
# The buffer is a FIFO queue of bytes

`content b` is the list of bytes between the two cursors. Every operation keeps the storage
well formed (`Wf`) and acts on `content` as on a queue; appending in place, moving to the
front and reallocating cannot be told apart. Each operation has one specification lemma
(`write_spec`, `read_spec`, and so on) that callers use instead of its definition.

`Buffer/Runs.lean` puts them together along sequences of operations.
-/

namespace Tubekit.Buffer

open Lib

/-- The bytes between the cursors. -/
def content (b : Buffer) : List Byte := Memory.load b.cells b.readOff (b.writeOff - b.readOff)

/-- The storage is absent with both cursors null, or the cursors lie in it in order and it
is within the limit. -/
def Placed (b : Buffer) : Prop :=
  (b.buffer = none ∧ b.size = 0 ∧ b.readPtr = none ∧ b.writePtr = none) ∨
    ∃ m r w, b.buffer = some m ∧ b.readPtr = some r ∧ b.writePtr = some w ∧
      r ≤ w ∧ w ≤ b.size ∧ b.size ≤ b.limitMax

/-- `Placed`, with the bounds on the limit that the operations rely on. -/
structure Wf (b : Buffer) : Prop where
  placed : b.Placed
  minLimit : initSize ≤ b.limitMax
  maxLimit : b.limitMax < 2 ^ 64

/-- A buffer whose storage `m` is allocated, with its cursors at `r` and `w`. -/
structure Ready (b : Buffer) (m : Nat → Byte) (r w : Nat) : Prop where
  buffer : b.buffer = some m
  readPtr : b.readPtr = some r
  writePtr : b.writePtr = some w
  order : r ≤ w
  inside : w ≤ b.size
  within : b.size ≤ b.limitMax
  minLimit : initSize ≤ b.limitMax
  maxLimit : b.limitMax < 2 ^ 64

namespace Ready

variable {b : Buffer} {m : Nat → Byte} {r w : Nat}

theorem wf (h : Ready b m r w) : Wf b :=
  ⟨Or.inr ⟨m, r, w, h.buffer, h.readPtr, h.writePtr, h.order, h.inside, h.within⟩,
    h.minLimit, h.maxLimit⟩

theorem cells_eq (h : Ready b m r w) : b.cells = m := by simp [cells, h.buffer]

theorem readOff_eq (h : Ready b m r w) : b.readOff = r := by simp [readOff, h.readPtr]

theorem writeOff_eq (h : Ready b m r w) : b.writeOff = w := by simp [writeOff, h.writePtr]

theorem content_eq (h : Ready b m r w) : b.content = Memory.load m r (w - r) := by
  simp [content, h.cells_eq, h.readOff_eq, h.writeOff_eq]

theorem length_content (h : Ready b m r w) : b.content.length = w - r := by
  simp [h.content_eq]

theorem checkInit_eq (h : Ready b m r w) : b.checkInit = b := by
  simp [checkInit, h.buffer]

theorem getReadableSize_eq (h : Ready b m r w) : b.getReadableSize = w - r := by
  have hin := h.inside
  have hle := h.within
  have hmax := h.maxLimit
  rw [getReadableSize, h.writeOff_eq, h.readOff_eq, u64Sub_of_le h.order (by omega)]

theorem afterSize_eq (h : Ready b m r w) : b.afterSize = b.size - w := by
  have hle := h.within
  have hmax := h.maxLimit
  rw [afterSize, h.writeOff_eq, u64Sub_of_le h.inside (by omega)]

end Ready

/-! ## Allocation on first use -/

theorem initSize_lt : initSize < 2 ^ 64 := by decide

theorem wf_new (heap : Nat → Byte) : Wf (new heap) :=
  ⟨Or.inl ⟨rfl, rfl, rfl, rfl⟩, Nat.le_refl _, initSize_lt⟩

@[simp] theorem content_new (heap : Nat → Byte) : (new heap).content = [] := rfl

theorem content_of_unallocated {b : Buffer} (hr : b.readPtr = none) (hw : b.writePtr = none) :
    b.content = [] := by
  simp [content, readOff, writeOff, hr, hw]

/-- After `check_init` the storage is there; content and limit are as before. -/
theorem checkInit_spec {b : Buffer} (h : Wf b) :
    ∃ m r w, Ready b.checkInit m r w ∧ b.checkInit.content = b.content ∧
      b.checkInit.limitMax = b.limitMax := by
  rcases h.placed with ⟨hb, hs, hr, hw⟩ | ⟨m, r, w, hb, hr, hw, hrw, hws, hsl⟩
  · have hInit : b.checkInit = { b with
        buffer := some b.heap
        size := initSize
        readPtr := some 0
        writePtr := some 0
        heap := fun i => b.heap (i + initSize) } := by
      simp [checkInit, hb, hr, hw]
    rw [hInit]
    refine ⟨b.heap, 0, 0, ⟨rfl, rfl, rfl, Nat.le_refl _, Nat.zero_le _, h.minLimit, h.minLimit,
      h.maxLimit⟩, ?_, rfl⟩
    rw [content_of_unallocated hr hw]
    rfl
  · have hReady : Ready b m r w := ⟨hb, hr, hw, hrw, hws, hsl, h.minLimit, h.maxLimit⟩
    exact ⟨m, r, w, by rw [hReady.checkInit_eq]; exact hReady, by rw [hReady.checkInit_eq],
      by rw [hReady.checkInit_eq]⟩

theorem Wf.length_content_le {b : Buffer} (h : Wf b) : b.content.length ≤ b.limitMax := by
  obtain ⟨m, r, w, hReady, hContent, hLimit⟩ := checkInit_spec h
  have hin := hReady.inside
  have hle := hReady.within
  rw [← hContent, hReady.length_content]
  omega

/-! ## Reading -/

/-- Advancing the read cursor by `n` unread bytes removes them. -/
theorem Ready.advance {b : Buffer} {m : Nat → Byte} {r w n : Nat} (h : Ready b m r w)
    (hn : n ≤ w - r) :
    Ready { b with readPtr := some (r + n) } m (r + n) w ∧
      content { b with readPtr := some (r + n) } = b.content.drop n := by
  have hReady : Ready { b with readPtr := some (r + n) } m (r + n) w :=
    ⟨h.buffer, rfl, h.writePtr, by have := h.order; omega, h.inside, h.within, h.minLimit,
      h.maxLimit⟩
  refine ⟨hReady, ?_⟩
  rw [hReady.content_eq, h.content_eq, Memory.drop_load m r hn, Nat.sub_sub]

/-- `read` with a destination and `size ≥ 1` returns and removes the first bytes, at most
`size` of them. -/
theorem read_spec {b : Buffer} (h : Wf b) {size : Nat} (hs : 0 < size) :
    ∃ b', b.read true size = (.ok (b.content.take size), b') ∧ Wf b' ∧
      b'.content = b.content.drop size ∧ b'.limitMax = b.limitMax := by
  obtain ⟨m, r, w, hReady, hContent, hLimit⟩ := checkInit_spec h
  have hsize : (size == 0) = false := by simpa using Nat.ne_of_gt hs
  simp only [read, hsize, Bool.not_true, Bool.or_self, Bool.false_eq_true, if_false,
    hReady.getReadableSize_eq, hReady.cells_eq, hReady.readOff_eq]
  rw [← hContent, ← hLimit]
  by_cases hle : size ≤ w - r
  · obtain ⟨hNext, hDrop⟩ := hReady.advance hle
    rw [if_pos hle]
    refine ⟨_, ?_, hNext.wf, hDrop, rfl⟩
    rw [hReady.content_eq, Memory.take_load m r hle]
  · obtain ⟨hNext, hDrop⟩ := hReady.advance (Nat.le_refl (w - r))
    have hlen := hReady.length_content
    rw [if_neg hle]
    refine ⟨_, ?_, hNext.wf, ?_, rfl⟩
    · rw [hReady.content_eq, List.take_of_length_le (by rw [Memory.length_load]; omega)]
    · rw [hDrop, List.drop_of_length_le (by omega), List.drop_of_length_le (by omega)]

/-- `read` without a destination or with size `0` throws and keeps the content. -/
theorem read_throws {b : Buffer} (h : Wf b) {dest : Bool} {size : Nat}
    (hd : dest = false ∨ size = 0) :
    ∃ b', b.read dest size = (.error .nullOrEmpty, b') ∧ Wf b' ∧ b'.content = b.content ∧
      b'.limitMax = b.limitMax := by
  obtain ⟨m, r, w, hReady, hContent, hLimit⟩ := checkInit_spec h
  have hcond : (!dest || size == 0) = true := by
    rcases hd with rfl | rfl <;> simp
  exact ⟨_, by simp only [read, hcond, if_true], hReady.wf, hContent, hLimit⟩

/-- `read_ptr_move_n` removes the first `n` bytes, or returns false with nothing changed. -/
theorem readPtrMoveN_spec {b : Buffer} (h : Wf b) (n : Nat) :
    ∃ b', b.readPtrMoveN n = (decide (n ≤ b.content.length), b') ∧ Wf b' ∧
      b'.content = (if n ≤ b.content.length then b.content.drop n else b.content) ∧
      b'.limitMax = b.limitMax := by
  by_cases h0 : n = 0
  · subst h0
    exact ⟨b, by simp [readPtrMoveN], h, by simp, rfl⟩
  · obtain ⟨m, r, w, hReady, hContent, hLimit⟩ := checkInit_spec h
    have hbeq : (n == 0) = false := by simpa using h0
    have hlen : b.content.length = w - r := by rw [← hContent, hReady.length_content]
    simp only [readPtrMoveN, hbeq, Bool.false_eq_true, if_false, hReady.getReadableSize_eq,
      hReady.readOff_eq, hlen]
    rw [← hContent, ← hLimit]
    by_cases hle : n ≤ w - r
    · obtain ⟨hNext, hDrop⟩ := hReady.advance hle
      rw [if_neg (by omega), if_pos hle, decide_eq_true hle]
      exact ⟨_, rfl, hNext.wf, hDrop, rfl⟩
    · rw [if_pos (by omega), if_neg hle, decide_eq_false hle]
      exact ⟨_, rfl, hReady.wf, rfl, rfl⟩

/-- `copy_all` copies the content when there is room for it, and nothing otherwise. -/
theorem copyAll_spec {b : Buffer} (h : Wf b) (out : Bool) (outLen : Nat) :
    ∃ b', b.copyAll out outLen =
        (if out = true ∧ b.content.length ≤ outLen then b.content else [], b') ∧
      Wf b' ∧ b'.content = b.content ∧ b'.limitMax = b.limitMax := by
  cases out with
  | false => exact ⟨b, by simp [copyAll], h, rfl, rfl⟩
  | true =>
    obtain ⟨m, r, w, hReady, hContent, hLimit⟩ := checkInit_spec h
    have hlen : b.content.length = w - r := by rw [← hContent, hReady.length_content]
    refine ⟨b.checkInit, ?_, hReady.wf, hContent, hLimit⟩
    simp only [copyAll, Bool.not_true, Bool.false_eq_true, if_false, true_and,
      hReady.getReadableSize_eq, hReady.cells_eq, hReady.readOff_eq, hlen]
    rw [← hContent, hReady.content_eq]
    by_cases hle : w - r ≤ outLen
    · rw [if_neg (by omega), if_pos hle]
    · rw [if_pos (by omega), if_neg hle]

theorem canReadableSize_spec {b : Buffer} (h : Wf b) :
    ∃ b', b.canReadableSize = (b.content.length, b') ∧ Wf b' ∧ b'.content = b.content ∧
      b'.limitMax = b.limitMax := by
  obtain ⟨m, r, w, hReady, hContent, hLimit⟩ := checkInit_spec h
  refine ⟨b.checkInit, ?_, hReady.wf, hContent, hLimit⟩
  rw [canReadableSize, hReady.getReadableSize_eq, ← hContent, hReady.length_content]

/-- The bytes seen through `force_get_read_ptr` are those of the content. -/
theorem forceGetReadPtr_spec {b : Buffer} (h : Wf b) :
    ∃ data b', b.forceGetReadPtr = (data, b') ∧
      Memory.load data 0 b.content.length = b.content ∧ Wf b' ∧ b'.content = b.content ∧
      b'.limitMax = b.limitMax := by
  obtain ⟨m, r, w, hReady, hContent, hLimit⟩ := checkInit_spec h
  refine ⟨_, b.checkInit, rfl, ?_, hReady.wf, hContent, hLimit⟩
  rw [← hContent, hReady.length_content, hReady.content_eq, hReady.cells_eq, hReady.readOff_eq]
  exact Memory.load_congr fun i _ => by simp

/-- `blank_space` does not wrap: it is the room behind the write cursor up to the limit. -/
theorem blankSpace_spec {b : Buffer} (h : Wf b) :
    ∃ b', b.blankSpace = (b.limitMax - b.writeOff, b') ∧ Wf b' ∧ b'.content = b.content ∧
      b'.limitMax = b.limitMax ∧ b'.writeOff = b.writeOff := by
  obtain ⟨m, r, w, hReady, hContent, hLimit⟩ := checkInit_spec h
  have hOff : b.checkInit.writeOff = b.writeOff := by
    rcases h.placed with ⟨hb, hs, hr, hw⟩ | ⟨m, r, w, hb, _⟩
    · simp [checkInit, writeOff, hb, hr, hw]
    · simp [checkInit, hb]
  have hin := hReady.inside
  have hle := hReady.within
  have hmax := hReady.maxLimit
  refine ⟨b.checkInit, ?_, hReady.wf, hContent, hLimit, hOff⟩
  rw [blankSpace]
  simp only [hReady.afterSize_eq]
  rw [u64Sub_of_le hle hmax, u64Add_of_lt (by omega), ← hOff, hReady.writeOff_eq, ← hLimit]
  congr 1
  omega

/-! ## Writing -/

/-- `check_and_write` on allocated storage: the bytes are appended when they fit behind the
write cursor. -/
theorem Ready.checkAndWrite {b : Buffer} {m : Nat → Byte} {r w : Nat} (h : Ready b m r w)
    (source : List Byte) :
    if source.length ≤ b.size - w then
      ∃ b', b.checkAndWrite source = (true, b') ∧ Wf b' ∧ b'.content = b.content ++ source ∧
        b'.limitMax = b.limitMax
    else b.checkAndWrite source = (false, b) := by
  split
  · rename_i hfit
    have hor := h.order
    have hin := h.inside
    have hNext : Ready { b with
        buffer := some (Memory.store m w source)
        writePtr := some (w + source.length) } (Memory.store m w source) r (w + source.length) :=
      ⟨rfl, h.readPtr, rfl, by omega, by simp only; omega, h.within, h.minLimit, h.maxLimit⟩
    refine ⟨_, ?_, hNext.wf, ?_, rfl⟩
    · simp only [Buffer.checkAndWrite, h.checkInit_eq, h.afterSize_eq, if_pos hfit, h.cells_eq,
        h.writeOff_eq]
    · -- the range of the cursors is the old range followed by the stored bytes
      have hStore := Memory.load_store_append m r (w - r) source
      rw [Nat.add_sub_cancel' hor] at hStore
      rw [hNext.content_eq, h.content_eq, ← hStore]
      congr 1
      omega
  · rename_i hfit
    simp only [Buffer.checkAndWrite, h.checkInit_eq, h.afterSize_eq, if_neg hfit]

/-- `move_to_before` keeps the content and frees the room in front of it. -/
theorem Ready.moveToBefore {b : Buffer} {m : Nat → Byte} {r w : Nat} (h : Ready b m r w) :
    ∃ m', Ready b.moveToBefore m' 0 (w - r) ∧ b.moveToBefore.content = b.content ∧
      b.moveToBefore.size = b.size ∧ b.moveToBefore.limitMax = b.limitMax := by
  have hor := h.order
  have hin := h.inside
  let m' := Memory.store m 0 (Memory.load m r (w - r))
  have hMove : b.moveToBefore =
      { b with buffer := some m', writePtr := some (w - r), readPtr := some 0 } := by
    simp only [Buffer.moveToBefore, h.checkInit_eq, h.getReadableSize_eq, h.cells_eq,
      h.readOff_eq, m']
  have hNext : Ready b.moveToBefore m' 0 (w - r) := by
    rw [hMove]
    exact ⟨rfl, rfl, rfl, Nat.zero_le _, by simp only; omega, h.within, h.minLimit, h.maxLimit⟩
  refine ⟨m', hNext, ?_, by rw [hMove], by rw [hMove]⟩
  have hSame := Memory.load_store_same m 0 (Memory.load m r (w - r))
  rw [Memory.length_load] at hSame
  rw [hNext.content_eq, h.content_eq, Nat.sub_zero]
  exact hSame

/-- Growing the storage keeps the content; the new room is behind the write cursor. -/
theorem Ready.reallocBy {b : Buffer} {m : Nat → Byte} {r w n : Nat} (h : Ready b m r w)
    (hn : b.size + n ≤ b.limitMax) :
    ∃ m', Ready (b.reallocBy n) m' r w ∧ (b.reallocBy n).content = b.content ∧
      (b.reallocBy n).size = b.size + n ∧ (b.reallocBy n).limitMax = b.limitMax := by
  have hmax := h.maxLimit
  have hin := h.inside
  have hor := h.order
  have hsize : (b.reallocBy n).size = b.size + n := u64Add_of_lt (by omega)
  have hNext : Ready (b.reallocBy n) (Memory.grow m b.size b.heap) r w := by
    refine ⟨by simp only [Buffer.reallocBy, h.cells_eq], h.readPtr, h.writePtr, hor, ?_, ?_,
      h.minLimit, hmax⟩
    · omega
    · rw [hsize]
      exact hn
  refine ⟨_, hNext, ?_, hsize, rfl⟩
  rw [hNext.content_eq, h.content_eq, Memory.load_grow (by omega)]

/-- What `write` adds to the storage when `n` bytes do not fit behind the unread ones, and how
large the storage is then. -/
theorem Ready.growth {b : Buffer} {m : Nat → Byte} {w n : Nat} (h : Ready b m 0 w)
    (hfull : ¬n ≤ b.size - w) (hsum : w + n < 2 ^ 64) :
    u64Sub n b.afterSize = n - (b.size - w) ∧ u64Add (u64Sub n b.afterSize) b.size = w + n := by
  have hwithin := h.within
  have hinside := h.inside
  have hsub : u64Sub n b.afterSize = n - (b.size - w) := by
    rw [h.afterSize_eq, u64Sub_of_le (by omega) (by omega)]
  refine ⟨hsub, ?_⟩
  rw [hsub, u64Add_of_lt (by omega)]
  omega

/-- `write` of at least one byte appends when the unread bytes and the new ones are within
the limit, and otherwise throws with the content kept. The only assumption on the sizes is
that their sum does not wrap. -/
theorem write_spec {b : Buffer} (h : Wf b) {source : List Byte} (hne : source ≠ [])
    (hsum : b.content.length + source.length < 2 ^ 64) :
    ∃ b', Wf b' ∧ b'.limitMax = b.limitMax ∧
      if b.content.length + source.length ≤ b.limitMax then
        b.write (some source) = (.ok source.length, b') ∧ b'.content = b.content ++ source
      else b.write (some source) = (.error .overLimit, b') ∧ b'.content = b.content := by
  obtain ⟨m, r, w, hReady, hContent, hLimit⟩ := checkInit_spec h
  have hlen : b.content.length = w - r := by rw [← hContent, hReady.length_content]
  have hbeq : (source.length == 0) = false := by simpa using hne
  have hor := hReady.order
  have hin := hReady.inside
  have hwithin := hReady.within
  have hmax := hReady.maxLimit
  rw [← hLimit]
  simp only [Buffer.write, hbeq, Bool.false_eq_true, if_false]
  have hFirst := hReady.checkAndWrite source
  by_cases hfit : source.length ≤ b.checkInit.size - w
  · -- append in place
    rw [if_pos hfit] at hFirst
    obtain ⟨b', hRun, hWf, hC, hL⟩ := hFirst
    refine ⟨b', hWf, hL, ?_⟩
    rw [if_pos (by omega), hRun, hC, hContent]
    exact ⟨rfl, rfl⟩
  · rw [if_neg hfit] at hFirst
    rw [hFirst]
    obtain ⟨m₁, hMoved, hMovedC, hMovedS, hMovedL⟩ := hReady.moveToBefore
    have hSecond := hMoved.checkAndWrite source
    rw [hMovedS] at hSecond
    by_cases hfit₁ : source.length ≤ b.checkInit.size - (w - r)
    · -- append after the move
      rw [if_pos hfit₁] at hSecond
      obtain ⟨b', hRun, hWf, hC, hL⟩ := hSecond
      refine ⟨b', hWf, hL.trans hMovedL, ?_⟩
      rw [if_pos (by omega)]
      simp only [hRun, true_and]
      rw [hC, hMovedC, hContent]
    · rw [if_neg hfit₁] at hSecond
      simp only [hSecond]
      obtain ⟨hAdd, hTotal⟩ := hMoved.growth (n := source.length) (hMovedS ▸ hfit₁) (by omega)
      rw [hMovedS] at hAdd
      rw [← hlen] at hTotal
      rw [hTotal, hAdd, hMovedL]
      by_cases hroom : b.content.length + source.length ≤ b.checkInit.limitMax
      · -- append after the reallocation
        obtain ⟨m₂, hGrown, hGrownC, hGrownS, hGrownL⟩ :=
          hMoved.reallocBy (n := source.length - (b.checkInit.size - (w - r))) (by omega)
        have hThird := hGrown.checkAndWrite source
        rw [if_pos (by omega)] at hThird
        obtain ⟨b', hRun, hWf, hC, hL⟩ := hThird
        refine ⟨b', hWf, by rw [hL, hGrownL, hMovedL], ?_⟩
        rw [if_pos hroom, if_neg (Nat.not_lt.mpr hroom), hRun]
        exact ⟨rfl, by rw [hC, hGrownC, hMovedC, hContent]⟩
      · refine ⟨b.checkInit.moveToBefore, hMoved.wf, hMovedL, ?_⟩
        rw [if_neg hroom, if_pos (Nat.not_le.mp hroom)]
        exact ⟨rfl, by rw [hMovedC, hContent]⟩

/-- `write` of nothing throws and keeps the content. -/
theorem write_throws {b : Buffer} (h : Wf b) {source : Option (List Byte)}
    (hs : source = none ∨ source = some []) :
    ∃ b', b.write source = (.error .nullOrEmpty, b') ∧ Wf b' ∧ b'.content = b.content ∧
      b'.limitMax = b.limitMax := by
  obtain ⟨m, r, w, hReady, hContent, hLimit⟩ := checkInit_spec h
  refine ⟨b.checkInit, ?_, hReady.wf, hContent, hLimit⟩
  rcases hs with rfl | rfl <;> rfl

/-! ## Growth -/

theorem size_checkInit_le (b : Buffer) : b.checkInit.size ≤ max b.size initSize := by
  unfold checkInit
  split
  · exact Nat.le_max_right _ _
  · exact Nat.le_max_left _ _

theorem size_checkAndWrite (b : Buffer) (source : List Byte) :
    (b.checkAndWrite source).2.size = b.checkInit.size := by
  simp only [checkAndWrite]
  split <;> rfl

theorem size_read (b : Buffer) (dest : Bool) (size : Nat) :
    (b.read dest size).2.size = b.checkInit.size := by
  simp only [read]
  split
  · rfl
  · split <;> rfl

/-- The storage grows no further than to what it has to hold. -/
theorem size_write_le {b : Buffer} (h : Wf b) (source : List Byte)
    (hsum : b.content.length + source.length < 2 ^ 64) :
    (b.write (some source)).2.size ≤ max (max b.size initSize) (b.content.length + source.length) := by
  obtain ⟨m, r, w, hReady, hContent, hLimit⟩ := checkInit_spec h
  have hlen : b.content.length = w - r := by rw [← hContent, hReady.length_content]
  have hin := hReady.inside
  have hor := hReady.order
  have hwithin := hReady.within
  have hmax := hReady.maxLimit
  have hinit := size_checkInit_le b
  obtain ⟨m₁, hMoved, -, hMovedS, hMovedL⟩ := hReady.moveToBefore
  simp only [Buffer.write]
  split
  · exact Nat.le_trans hinit (Nat.le_max_left _ _)
  · have hFirst := hReady.checkAndWrite source
    by_cases hfit : source.length ≤ b.checkInit.size - w
    · rw [if_pos hfit] at hFirst
      obtain ⟨b', hRun, -⟩ := hFirst
      have hsize := size_checkAndWrite b.checkInit source
      rw [hRun, hReady.checkInit_eq] at hsize
      simp only [hRun] at hsize ⊢
      omega
    · rw [if_neg hfit] at hFirst
      simp only [hFirst]
      have hSecond := hMoved.checkAndWrite source
      rw [hMovedS] at hSecond
      by_cases hfit₁ : source.length ≤ b.checkInit.size - (w - r)
      · rw [if_pos hfit₁] at hSecond
        obtain ⟨b', hRun, -⟩ := hSecond
        have hsize := size_checkAndWrite b.checkInit.moveToBefore source
        rw [hRun, hMoved.checkInit_eq] at hsize
        simp only [hRun] at hsize ⊢
        omega
      · rw [if_neg hfit₁] at hSecond
        simp only [hSecond]
        obtain ⟨hAdd, hTotal⟩ := hMoved.growth (n := source.length) (hMovedS ▸ hfit₁) (by omega)
        rw [hMovedS] at hAdd
        rw [← hlen] at hTotal
        rw [hTotal, hAdd]
        split
        · simp only [hMovedS]
          omega
        · rename_i hroom
          obtain ⟨m₂, hGrown, -, hGrownS, -⟩ :=
            hMoved.reallocBy (n := source.length - (b.checkInit.size - (w - r))) (by omega)
          simp only [size_checkAndWrite, hGrown.checkInit_eq, hGrownS]
          omega

/-! ## Limit and clearing -/

theorem setLimitMax_spec {b : Buffer} (h : Wf b) {limitMax : Nat} (hl : limitMax < 2 ^ 64) :
    Wf (b.setLimitMax limitMax) ∧ (b.setLimitMax limitMax).content = b.content ∧
      (b.setLimitMax limitMax).limitMax = max limitMax b.limitMax := by
  unfold setLimitMax
  have hmin := h.minLimit
  by_cases hlt : limitMax < b.limitMax
  · rw [if_pos hlt]
    exact ⟨h, rfl, by omega⟩
  · rw [if_neg hlt, if_neg (by omega)]
    refine ⟨⟨?_, by simp only; omega, hl⟩, rfl, by simp only; omega⟩
    rcases h.placed with hNull | ⟨m, r, w, hb, hr, hw, hrw, hws, hsl⟩
    · exact Or.inl hNull
    · exact Or.inr ⟨m, r, w, hb, hr, hw, hrw, hws, by simp only; omega⟩

theorem wf_clear (b : Buffer) : Wf b.clear :=
  ⟨Or.inl ⟨rfl, rfl, rfl, rfl⟩, Nat.le_refl _, initSize_lt⟩

@[simp] theorem content_clear (b : Buffer) : b.clear.content = [] := rfl

end Tubekit.Buffer
