import Mathlib.Data.List.Basic

/-!
# Memory blocks

A block of memory is a function from offsets to cells. `load` is the list of cells in a
range of offsets and `store` overwrites a range with a list, so `store m d (load m s n)` is
a `memmove`. The extent of a block is not part of it: whoever owns a block keeps its size
and stays below it, and the lemmas here only speak about ranges.
-/

namespace Tubekit.Lib.Memory

variable {α : Type*}

/-- The `len` cells of `m` from offset `off` on. -/
def load (m : Nat → α) (off len : Nat) : List α := (List.range len).map (fun i => m (off + i))

/-- `m` with the cells from offset `off` on overwritten by `xs`. -/
def store (m : Nat → α) (off : Nat) (xs : List α) : Nat → α :=
  fun i => if off ≤ i then (xs[i - off]?).getD (m i) else m i

/-- The block that `realloc` gives back: the first `size` cells are kept, the cells behind
them are whatever `fresh` memory holds. -/
def grow (m : Nat → α) (size : Nat) (fresh : Nat → α) : Nat → α :=
  fun i => if i < size then m i else fresh (i - size)

@[simp] theorem length_load (m : Nat → α) (off len : Nat) : (load m off len).length = len := by
  simp [load]

@[simp] theorem load_zero (m : Nat → α) (off : Nat) : load m off 0 = [] := rfl

theorem load_congr {m m' : Nat → α} {off off' len : Nat}
    (h : ∀ i, i < len → m (off + i) = m' (off' + i)) : load m off len = load m' off' len := by
  unfold load
  apply List.map_congr_left
  intro i hi
  exact h i (List.mem_range.mp hi)

theorem load_append (m : Nat → α) (off a b : Nat) :
    load m off (a + b) = load m off a ++ load m (off + a) b := by
  simp [load, List.range_add, Nat.add_assoc, Function.comp_def]

theorem getElem?_load {m : Nat → α} {off len i : Nat} (hi : i < len) :
    (load m off len)[i]? = some (m (off + i)) := by
  simp [load, hi]

theorem take_load (m : Nat → α) (off : Nat) {k len : Nat} (hk : k ≤ len) :
    (load m off len).take k = load m off k := by
  obtain ⟨r, rfl⟩ := Nat.exists_eq_add_of_le hk
  rw [load_append, List.take_left' (length_load m off k)]

theorem drop_load (m : Nat → α) (off : Nat) {k len : Nat} (hk : k ≤ len) :
    (load m off len).drop k = load m (off + k) (len - k) := by
  obtain ⟨r, rfl⟩ := Nat.exists_eq_add_of_le hk
  rw [load_append, List.drop_left' (length_load m off k), Nat.add_sub_cancel_left]

theorem store_at {m : Nat → α} {off : Nat} {xs : List α} {i : Nat} (hi : i < xs.length) :
    store m off xs (off + i) = xs[i] := by
  simp [store, hi]

theorem store_below {m : Nat → α} {off i : Nat} (xs : List α) (hi : i < off) :
    store m off xs i = m i := by
  unfold store
  rw [if_neg (by omega)]

/-- What was stored is loaded again. -/
theorem load_store_same (m : Nat → α) (off : Nat) (xs : List α) :
    load (store m off xs) off xs.length = xs := by
  apply List.ext_getElem (by simp)
  intro i hi hi'
  have h : (load (store m off xs) off xs.length)[i]? = some (store m off xs (off + i)) :=
    getElem?_load hi'
  rw [store_at hi', List.getElem?_eq_getElem hi] at h
  exact Option.some.inj h

/-- A range that ends before the stored one is untouched. -/
theorem load_store_below {m : Nat → α} {off off' len : Nat} (xs : List α) (h : off' + len ≤ off) :
    load (store m off xs) off' len = load m off' len :=
  load_congr fun i hi => store_below xs (by omega)

/-- Storing right behind a range appends to it. -/
theorem load_store_append (m : Nat → α) (off len : Nat) (xs : List α) :
    load (store m (off + len) xs) off (len + xs.length) = load m off len ++ xs := by
  rw [load_append, load_store_below xs (Nat.le_refl _), load_store_same]

theorem load_grow {m fresh : Nat → α} {size off len : Nat} (h : off + len ≤ size) :
    load (grow m size fresh) off len = load m off len :=
  load_congr fun i hi => by unfold grow; rw [if_pos (by omega)]

/-! ## What a reader sees below a bound -/

/-- From offset `off` on, the cells below `bound` hold the cells of `xs`. -/
def Shows (m : Nat → α) (bound off : Nat) (xs : List α) : Prop :=
  ∀ i, i < xs.length → off + i < bound → xs[i]? = some (m (off + i))

@[simp] theorem shows_cons {m : Nat → α} {bound off : Nat} {x : α} {xs : List α} :
    Shows m bound off (x :: xs) ↔ (off < bound → x = m off) ∧ Shows m bound (off + 1) xs := by
  constructor
  · intro h
    refine ⟨fun hlt => by simpa using h 0 (by simp) (by simpa using hlt), fun i hi hlt => ?_⟩
    have hget := h (i + 1) (by simpa using hi) (by omega)
    rw [List.getElem?_cons_succ] at hget
    rw [hget, show off + (i + 1) = off + 1 + i from by omega]
  · rintro ⟨hx, hxs⟩ i hi hlt
    cases i with
    | zero => simpa using hx (by omega)
    | succ i =>
      have hget := hxs i (by simpa using hi) (by omega)
      rw [List.getElem?_cons_succ, hget, show off + (i + 1) = off + 1 + i from by omega]

@[simp] theorem shows_nil (m : Nat → α) (bound off : Nat) : Shows m bound off [] := by
  intro i hi
  simp at hi

theorem shows_append {m : Nat → α} {bound off : Nat} {xs ys : List α} :
    Shows m bound off (xs ++ ys) ↔
      Shows m bound off xs ∧ Shows m bound (off + xs.length) ys := by
  induction xs generalizing off with
  | nil => simp
  | cons x xs ih =>
    rw [List.cons_append, shows_cons, shows_cons, ih, List.length_cons, and_assoc,
      show off + 1 + xs.length = off + (xs.length + 1) from by omega]

/-- A list that lies below the bound is loaded whole. -/
theorem Shows.load_eq {m : Nat → α} {bound off : Nat} {xs : List α} (h : Shows m bound off xs)
    (hle : off + xs.length ≤ bound) : load m off xs.length = xs := by
  apply List.ext_getElem?
  intro i
  by_cases hi : i < xs.length
  · rw [getElem?_load hi, h i hi (by omega)]
  · rw [List.getElem?_eq_none (by simpa using hi), List.getElem?_eq_none (by omega)]

theorem shows_of_load_prefix {m : Nat → α} {bound : Nat} {xs : List α}
    (h : load m 0 bound <+: xs) : Shows m bound 0 xs := by
  intro i hi hlt
  obtain ⟨rest, rfl⟩ := h
  rw [Nat.zero_add] at hlt
  rw [List.getElem?_append_left (by simpa using hlt), getElem?_load hlt]

theorem Shows.mono {m : Nat → α} {bound off : Nat} {xs ys : List α} (h : Shows m bound off ys)
    (hle : xs <+: ys) : Shows m bound off xs := by
  obtain ⟨rest, rfl⟩ := hle
  exact (shows_append.mp h).1

theorem shows_load (m : Nat → α) (bound off : Nat) : Shows m bound off (load m off (bound - off)) := by
  intro i hi hlt
  exact getElem?_load (by omega)

/-- What begins the cells from `off` up to the bound. -/
theorem prefix_load_iff {m : Nat → α} {bound off : Nat} {xs : List α} (hoff : off ≤ bound) :
    xs <+: load m off (bound - off) ↔ Shows m bound off xs ∧ off + xs.length ≤ bound := by
  constructor
  · intro h
    have hlen := h.length_le
    rw [length_load] at hlen
    exact ⟨(shows_load m bound off).mono h, by omega⟩
  · rintro ⟨hshows, hle⟩
    rw [← hshows.load_eq hle, ← take_load m off (show xs.length ≤ bound - off from by omega)]
    exact List.take_prefix _ _

end Tubekit.Lib.Memory
