import Tubekit.Connection.Model

/-!
# Buffers that cannot be told apart

Two buffers agree when their cursors, sizes and limits are the same and so are the bytes between
the cursors. Everything else, the rest of the storage and the memory that a later allocation
will find, may differ. Every operation gives the same result on both and keeps them in
agreement: the result lemmas of `Buffer/Refinement.lean` say what the bytes are, and the shape
of a buffer after an operation depends on its shape before.
-/

namespace Tubekit.Buffer

open Lib

/-- The same cursors, size and limit. -/
structure SameShape (b b' : Buffer) : Prop where
  limitMax : b.limitMax = b'.limitMax
  size : b.size = b'.size
  readPtr : b.readPtr = b'.readPtr
  writePtr : b.writePtr = b'.writePtr
  allocated : b.buffer.isNone = b'.buffer.isNone

namespace SameShape

variable {b b' : Buffer}

theorem readOff (h : SameShape b b') : b.readOff = b'.readOff := by
  simp only [Buffer.readOff, h.readPtr]

theorem writeOff (h : SameShape b b') : b.writeOff = b'.writeOff := by
  simp only [Buffer.writeOff, h.writePtr]

theorem getReadableSize (h : SameShape b b') : b.getReadableSize = b'.getReadableSize := by
  simp only [Buffer.getReadableSize, h.readOff, h.writeOff]

theorem afterSize (h : SameShape b b') : b.afterSize = b'.afterSize := by
  simp only [Buffer.afterSize, h.size, h.writeOff]

theorem checkInit (h : SameShape b b') : SameShape b.checkInit b'.checkInit := by
  unfold Buffer.checkInit
  rw [h.allocated, h.writePtr, h.readPtr]
  split
  · exact ⟨h.limitMax, rfl, rfl, rfl, rfl⟩
  · exact h

theorem read (h : SameShape b b') (n : Nat) : SameShape (b.read true n).2 (b'.read true n).2 := by
  have hinit := h.checkInit
  simp only [Buffer.read, hinit.getReadableSize, hinit.readOff]
  split
  · exact hinit
  · split <;> exact { hinit with readPtr := rfl }

theorem checkAndWrite (h : SameShape b b') (source : List Byte) :
    (b.checkAndWrite source).1 = (b'.checkAndWrite source).1 ∧
      SameShape (b.checkAndWrite source).2 (b'.checkAndWrite source).2 := by
  have hinit := h.checkInit
  simp only [Buffer.checkAndWrite, hinit.afterSize, hinit.writeOff]
  split
  · exact ⟨rfl, hinit.limitMax, hinit.size, hinit.readPtr, rfl, rfl⟩
  · exact ⟨rfl, hinit⟩

theorem moveToBefore (h : SameShape b b') : SameShape b.moveToBefore b'.moveToBefore := by
  have hinit := h.checkInit
  simp only [Buffer.moveToBefore, hinit.getReadableSize]
  exact ⟨hinit.limitMax, hinit.size, rfl, rfl, rfl⟩

theorem reallocBy (h : SameShape b b') (n : Nat) : SameShape (b.reallocBy n) (b'.reallocBy n) :=
  ⟨h.limitMax, by simp only [Buffer.reallocBy, h.size], h.readPtr, h.writePtr, rfl⟩

theorem write (h : SameShape b b') (source : Option (List Byte)) :
    SameShape (b.write source).2 (b'.write source).2 := by
  have hinit := h.checkInit
  cases source with
  | none => exact hinit
  | some source =>
    obtain ⟨hfirst, hplace⟩ := hinit.checkAndWrite source
    obtain ⟨hsecond, hmoved⟩ := hplace.moveToBefore.checkAndWrite source
    simp only [Buffer.write]
    split
    · exact hinit
    · generalize b.checkInit.checkAndWrite source = p at hfirst hplace hsecond hmoved ⊢
      generalize b'.checkInit.checkAndWrite source = p' at hfirst hplace hsecond hmoved ⊢
      obtain ⟨r, b₁⟩ := p
      obtain ⟨r', b₁'⟩ := p'
      cases hfirst
      cases r with
      | true => exact hplace
      | false =>
        simp only at hsecond hmoved ⊢
        generalize b₁.moveToBefore.checkAndWrite source = p at hsecond hmoved ⊢
        generalize b₁'.moveToBefore.checkAndWrite source = p' at hsecond hmoved ⊢
        obtain ⟨r, b₂⟩ := p
        obtain ⟨r', b₂'⟩ := p'
        cases hsecond
        cases r with
        | true => exact hmoved
        | false =>
          simp only at hmoved ⊢
          rw [hmoved.afterSize, hmoved.size, hmoved.limitMax]
          split
          · exact hmoved
          · exact ((hmoved.reallocBy _).checkAndWrite source).2

theorem readPtrMoveN (h : SameShape b b') (n : Nat) :
    SameShape (b.readPtrMoveN n).2 (b'.readPtrMoveN n).2 := by
  have hinit := h.checkInit
  simp only [Buffer.readPtrMoveN, hinit.getReadableSize, hinit.readOff]
  split
  · exact h
  · split
    · exact hinit
    · exact { hinit with readPtr := rfl }

end SameShape

theorem Wf.length_read_le {b : Buffer} (h : Wf b) (n : Nat) (bytes : List Byte)
    (hread : (b.read true n).1 = .ok bytes) : bytes.length ≤ n := by
  by_cases hn : n = 0
  · obtain ⟨b₁, hrun, -⟩ := @read_throws b h true n (Or.inr hn)
    rw [hrun] at hread
    cases hread
  · obtain ⟨b₁, hrun, -⟩ := read_spec h (Nat.pos_of_ne_zero hn)
    rw [hrun] at hread
    cases hread
    exact List.length_take_le _ _

/-! ## Agreement -/

/-- Nothing tells the two buffers apart. -/
structure Agree (b b' : Buffer) : Prop where
  wf : Wf b
  wf' : Wf b'
  shape : SameShape b b'
  content : b.content = b'.content
  limit : b.limitMax ≤ maxObjectSize

namespace Agree

variable {b b' : Buffer}

/-- A buffer that is cleared keeps nothing of its past. -/
theorem clear (b b' : Buffer) : Agree b.clear b'.clear :=
  ⟨wf_clear b, wf_clear b', ⟨rfl, rfl, rfl, rfl, rfl⟩, rfl,
    (by decide : initSize ≤ maxObjectSize)⟩

theorem setLimitMax (h : Agree b b') {n : Nat} (hn : n ≤ maxObjectSize) :
    Agree (b.setLimitMax n) (b'.setLimitMax n) := by
  have hlt : n < 2 ^ 64 := by
    unfold maxObjectSize at hn
    omega
  obtain ⟨hwf, hcontent, hlimit⟩ := setLimitMax_spec h.wf hlt
  obtain ⟨hwf', hcontent', hlimit'⟩ := setLimitMax_spec h.wf' hlt
  refine ⟨hwf, hwf', ?_, by rw [hcontent, hcontent', h.content], ?_⟩
  · simp only [Buffer.setLimitMax, h.shape.limitMax]
    split
    · exact h.shape
    · exact { h.shape with limitMax := rfl }
  · rw [hlimit]
    exact Nat.max_le.mpr ⟨hn, h.limit⟩

/-- What every `reuse` does to a buffer. -/
theorem reuse (b b' : Buffer) {n : Nat} (hn : n ≤ maxObjectSize) :
    Agree (b.clear.setLimitMax n) (b'.clear.setLimitMax n) :=
  (clear b b').setLimitMax hn

theorem read (h : Agree b b') (n : Nat) :
    (b.read true n).1 = (b'.read true n).1 ∧ Agree (b.read true n).2 (b'.read true n).2 := by
  have hshape := h.shape.read n
  by_cases hn : n = 0
  · obtain ⟨b₁, hrun, hwf, hcontent, hlimit⟩ := @read_throws b h.wf true n (Or.inr hn)
    obtain ⟨b₁', hrun', hwf', hcontent', hlimit'⟩ := @read_throws b' h.wf' true n (Or.inr hn)
    rw [hrun, hrun'] at hshape ⊢
    exact ⟨rfl, hwf, hwf', hshape, by rw [hcontent, hcontent', h.content], hlimit ▸ h.limit⟩
  · obtain ⟨b₁, hrun, hwf, hcontent, hlimit⟩ := read_spec h.wf (Nat.pos_of_ne_zero hn)
    obtain ⟨b₁', hrun', hwf', hcontent', hlimit'⟩ := read_spec h.wf' (Nat.pos_of_ne_zero hn)
    rw [hrun, hrun'] at hshape ⊢
    exact ⟨by rw [h.content], hwf, hwf', hshape, by rw [hcontent, hcontent', h.content],
      hlimit ▸ h.limit⟩

theorem write (h : Agree b b') {source : Option (List Byte)}
    (hs : ∀ bytes, source = some bytes → bytes.length ≤ maxObjectSize) :
    (b.write source).1 = (b'.write source).1 ∧ Agree (b.write source).2 (b'.write source).2 := by
  have hshape := h.shape.write source
  by_cases hnil : source = none ∨ source = some []
  · obtain ⟨b₁, hrun, hwf, hcontent, hlimit⟩ := write_throws h.wf hnil
    obtain ⟨b₁', hrun', hwf', hcontent', hlimit'⟩ := write_throws h.wf' hnil
    rw [hrun, hrun'] at hshape ⊢
    exact ⟨rfl, hwf, hwf', hshape, by rw [hcontent, hcontent', h.content], hlimit ▸ h.limit⟩
  · cases source with
    | none => exact absurd (Or.inl rfl) hnil
    | some bytes =>
      have hne : bytes ≠ [] := fun heq => hnil (Or.inr (by rw [heq]))
      have hlen := h.wf.length_content_le
      have hmax := h.limit
      have hbytes := hs bytes rfl
      have hsum : b.content.length + bytes.length < 2 ^ 64 := by
        unfold maxObjectSize at *
        omega
      obtain ⟨b₁, hwf, hlimit, hrun⟩ := write_spec h.wf hne hsum
      obtain ⟨b₁', hwf', hlimit', hrun'⟩ := write_spec h.wf' hne (h.content ▸ hsum)
      rw [← h.content, ← h.shape.limitMax] at hrun'
      by_cases hfit : b.content.length + bytes.length ≤ b.limitMax
      · rw [if_pos hfit] at hrun hrun'
        rw [hrun.1, hrun'.1] at hshape ⊢
        exact ⟨rfl, hwf, hwf', hshape, hrun.2.trans hrun'.2.symm, hlimit ▸ h.limit⟩
      · rw [if_neg hfit] at hrun hrun'
        rw [hrun.1, hrun'.1] at hshape ⊢
        exact ⟨rfl, hwf, hwf', hshape, hrun.2.trans hrun'.2.symm, hlimit ▸ h.limit⟩

theorem write_some (h : Agree b b') {bytes : List Byte} (hs : bytes.length ≤ maxObjectSize) :
    (b.write (some bytes)).1 = (b'.write (some bytes)).1 ∧
      Agree (b.write (some bytes)).2 (b'.write (some bytes)).2 := by
  refine h.write fun bytes' heq => ?_
  cases heq
  exact hs

theorem canReadableSize (h : Agree b b') :
    b.canReadableSize.1 = b'.canReadableSize.1 ∧
      Agree b.canReadableSize.2 b'.canReadableSize.2 := by
  have hshape : SameShape b.canReadableSize.2 b'.canReadableSize.2 := h.shape.checkInit
  obtain ⟨b₁, hrun, hwf, hcontent, hlimit⟩ := canReadableSize_spec h.wf
  obtain ⟨b₁', hrun', hwf', hcontent', hlimit'⟩ := canReadableSize_spec h.wf'
  rw [hrun, hrun'] at hshape ⊢
  exact ⟨by rw [h.content], hwf, hwf', hshape, by rw [hcontent, hcontent', h.content],
    hlimit ▸ h.limit⟩

theorem blankSpace (h : Agree b b') :
    b.blankSpace.1 = b'.blankSpace.1 ∧ Agree b.blankSpace.2 b'.blankSpace.2 := by
  have hshape : SameShape b.blankSpace.2 b'.blankSpace.2 := h.shape.checkInit
  obtain ⟨b₁, hrun, hwf, hcontent, hlimit, -⟩ := blankSpace_spec h.wf
  obtain ⟨b₁', hrun', hwf', hcontent', hlimit', -⟩ := blankSpace_spec h.wf'
  rw [hrun, hrun'] at hshape ⊢
  exact ⟨by rw [h.shape.limitMax, h.shape.writeOff], hwf, hwf', hshape,
    by rw [hcontent, hcontent', h.content], hlimit ▸ h.limit⟩

theorem readPtrMoveN (h : Agree b b') (n : Nat) :
    (b.readPtrMoveN n).1 = (b'.readPtrMoveN n).1 ∧
      Agree (b.readPtrMoveN n).2 (b'.readPtrMoveN n).2 := by
  have hshape := h.shape.readPtrMoveN n
  obtain ⟨b₁, hrun, hwf, hcontent, hlimit⟩ := readPtrMoveN_spec h.wf n
  obtain ⟨b₁', hrun', hwf', hcontent', hlimit'⟩ := readPtrMoveN_spec h.wf' n
  rw [hrun, hrun'] at hshape ⊢
  exact ⟨by rw [h.content], hwf, hwf', hshape, by rw [hcontent, hcontent', h.content],
    hlimit ▸ h.limit⟩

/-- What is seen of the content through `force_get_read_ptr`. -/
theorem look (h : Agree b b') :
    Memory.load b.canReadableSize.2.forceGetReadPtr.1 0 b.canReadableSize.1 =
        Memory.load b'.canReadableSize.2.forceGetReadPtr.1 0 b'.canReadableSize.1 ∧
      Agree b.canReadableSize.2.forceGetReadPtr.2 b'.canReadableSize.2.forceGetReadPtr.2 := by
  have hshape : SameShape b.canReadableSize.2.forceGetReadPtr.2
      b'.canReadableSize.2.forceGetReadPtr.2 := h.shape.checkInit.checkInit
  obtain ⟨b₁, hsize, hwf₁, hcontent₁, hlimit₁⟩ := canReadableSize_spec h.wf
  obtain ⟨b₁', hsize', hwf₁', hcontent₁', hlimit₁'⟩ := canReadableSize_spec h.wf'
  obtain ⟨data, b₂, hptr, hload, hwf, hcontent, hlimit⟩ := forceGetReadPtr_spec hwf₁
  obtain ⟨data', b₂', hptr', hload', hwf', hcontent', hlimit'⟩ := forceGetReadPtr_spec hwf₁'
  rw [hsize, hsize'] at hshape ⊢
  simp only [hptr, hptr'] at hshape ⊢
  rw [← hcontent₁, ← hcontent₁', hload, hload', hcontent₁, hcontent₁']
  exact ⟨h.content, hwf, hwf', hshape, by rw [hcontent, hcontent', hcontent₁, hcontent₁', h.content],
    by rw [hlimit, hlimit₁]; exact h.limit⟩

end Agree

end Tubekit.Buffer
