import Mathlib.Data.List.Basic

/-!
# Streams in blocks

A stream comes in pieces of any length and is worked off in blocks of `size` elements. The state is
that of the worker with the elements of a block that is not complete yet. `push` takes one element
and `feed` a piece, so how a stream is cut into pieces does not show (`feed_flatten`). What a whole
stream does is the fold over its blocks, and what is left over waits (`feed_eq`).
-/

namespace Tubekit.Lib.BlockStream

variable {σ α : Type*} {size : Nat} {work : σ → List α → σ} {s : σ × List α}

/-! ## The blocks of a list -/

/-- The complete blocks at the beginning of a list. -/
def blocks (size : Nat) (xs : List α) : List (List α) :=
  if _h : 0 < size ∧ size ≤ xs.length then xs.take size :: blocks size (xs.drop size) else []
termination_by xs.length
decreasing_by
  rw [List.length_drop]
  omega

/-- What stands behind the complete blocks. -/
def remainder (size : Nat) (xs : List α) : List α := xs.drop (size * (xs.length / size))

theorem blocks_of_lt {xs : List α} (h : xs.length < size) : blocks size xs = [] := by
  rw [blocks, dif_neg (by omega)]

theorem blocks_append {block : List α} (hsize : 0 < size) (hblock : block.length = size)
    (xs : List α) : blocks size (block ++ xs) = block :: blocks size xs := by
  rw [blocks, dif_pos ⟨hsize, by rw [List.length_append]; omega⟩, List.take_left' hblock,
    List.drop_left' hblock]

theorem remainder_of_lt {xs : List α} (h : xs.length < size) : remainder size xs = xs := by
  rw [remainder, Nat.div_eq_of_lt h, Nat.mul_zero, List.drop_zero]

theorem remainder_append {block : List α} (hsize : 0 < size) (hblock : block.length = size)
    (xs : List α) : remainder size (block ++ xs) = remainder size xs := by
  have hquotient : (block ++ xs).length / size = xs.length / size + 1 := by
    rw [List.length_append, hblock, Nat.add_comm, Nat.add_div_right _ hsize]
  rw [remainder, hquotient, Nat.mul_add, Nat.mul_one, Nat.add_comm, ← List.drop_drop,
    List.drop_left' hblock, remainder]

/-- A list without a complete block, or one block and a shorter list. -/
theorem block_induction (hsize : 0 < size) {motive : List α → Prop}
    (short : ∀ xs : List α, xs.length < size → motive xs)
    (block : ∀ b xs : List α, b.length = size → motive xs → motive (b ++ xs)) (xs : List α) :
    motive xs := by
  induction hlen : xs.length using Nat.strongRecOn generalizing xs with
  | ind len ih =>
    by_cases hshort : xs.length < size
    · exact short xs hshort
    · rw [← List.take_append_drop size xs]
      apply block
      · rw [List.length_take]
        omega
      · apply ih (xs.drop size).length _ _ rfl
        rw [List.length_drop]
        omega

theorem length_of_mem_blocks {xs b : List α} (hsize : 0 < size) (hb : b ∈ blocks size xs) :
    b.length = size := by
  induction xs using block_induction hsize with
  | short xs hxs =>
    rw [blocks_of_lt hxs] at hb
    cases hb
  | block c xs hc ih =>
    rw [blocks_append hsize hc] at hb
    cases hb with
    | head => exact hc
    | tail _ hb => exact ih hb

/-- The blocks and the remainder are the list. -/
theorem blocks_flatten (hsize : 0 < size) (xs : List α) :
    (blocks size xs).flatten ++ remainder size xs = xs := by
  induction xs using block_induction hsize with
  | short xs hxs => rw [blocks_of_lt hxs, remainder_of_lt hxs, List.flatten_nil, List.nil_append]
  | block b xs hb ih =>
    rw [blocks_append hsize hb, remainder_append hsize hb, List.flatten_cons, List.append_assoc, ih]

theorem remainder_length (size : Nat) (xs : List α) :
    (remainder size xs).length = xs.length % size := by
  rw [remainder, List.length_drop, Nat.mod_def]

/-! ## The stream -/

/-- Take one element; a block that is complete is worked off. -/
def push (size : Nat) (work : σ → List α → σ) (s : σ × List α) (a : α) : σ × List α :=
  if s.2.length + 1 = size then (work s.1 (s.2 ++ [a]), []) else (s.1, s.2 ++ [a])

/-- Take a piece of the stream. -/
def feed (size : Nat) (work : σ → List α → σ) (s : σ × List α) (xs : List α) : σ × List α :=
  xs.foldl (push size work) s

theorem feed_append (xs ys : List α) :
    feed size work s (xs ++ ys) = feed size work (feed size work s xs) ys := List.foldl_append

/-- The pieces of a stream, one after the other. -/
theorem feed_flatten (pieces : List (List α)) :
    feed size work s pieces.flatten = pieces.foldl (feed size work) s := by
  induction pieces generalizing s with
  | nil => rfl
  | cons xs pieces ih => rw [List.flatten_cons, feed_append, ih, List.foldl_cons]

/-- A piece that does not complete the block. -/
theorem feed_short {xs : List α} (h : s.2.length + xs.length < size) :
    feed size work s xs = (s.1, s.2 ++ xs) := by
  induction xs generalizing s with
  | nil => exact congrArg (Prod.mk s.1) (List.append_nil s.2).symm
  | cons a xs ih =>
    rw [List.length_cons] at h
    have hpush : push size work s a = (s.1, s.2 ++ [a]) := if_neg (by omega)
    have hlen : (s.2 ++ [a]).length + xs.length < size := by
      rw [List.length_append, List.length_singleton]
      omega
    rw [feed, List.foldl_cons, hpush]
    exact (ih hlen).trans (by rw [List.append_assoc, List.singleton_append])

/-- A piece that completes the block. -/
theorem feed_full {xs : List α} (hne : xs ≠ []) (h : s.2.length + xs.length = size) :
    feed size work s xs = (work s.1 (s.2 ++ xs), []) := by
  obtain ⟨front, a, rfl⟩ := List.eq_nil_or_concat xs |>.resolve_left hne
  rw [List.concat_eq_append, List.length_append, List.length_singleton] at h
  have hfront : feed size work s front = (s.1, s.2 ++ front) := feed_short (by omega)
  have hlen : (s.2 ++ front).length + 1 = size := by
    rw [List.length_append]
    omega
  rw [List.concat_eq_append, feed_append, hfront]
  exact (if_pos hlen).trans (by rw [List.append_assoc])

/-- A whole stream. -/
theorem feed_eq (hsize : 0 < size) (acc : σ) (xs : List α) :
    feed size work (acc, []) xs = ((blocks size xs).foldl work acc, remainder size xs) := by
  induction xs using block_induction hsize generalizing acc with
  | short xs hxs =>
    rw [blocks_of_lt hxs, remainder_of_lt hxs]
    exact feed_short (by rwa [List.length_nil, Nat.zero_add])
  | block b xs hb ih =>
    have hne : b ≠ [] := by
      rintro rfl
      rw [List.length_nil] at hb
      omega
    have hfull : feed size work (acc, []) b = (work acc b, []) :=
      feed_full hne (by rwa [List.length_nil, Nat.zero_add])
    rw [feed_append, hfull, ih, blocks_append hsize hb, remainder_append hsize hb,
      List.foldl_cons]

end Tubekit.Lib.BlockStream
