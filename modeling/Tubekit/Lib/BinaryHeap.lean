import Mathlib.Data.List.Perm.Basic

/-!
# The binary heap in an array

`push_heap` and `pop_heap` as the standard library of C++ has them: a hole moves through the
array, and the value that has to be placed goes into it at the end. The comparison may look at
memory behind the elements, so it is partial, and an operation is `none` where it compares
something that cannot be compared.

The lemmas say which elements are left in the array and what has to be comparable: everything
that stays, and nothing else. Their order is the subject of `HeapOrder`.
-/

namespace Tubekit.Lib.BinaryHeap

variable {α : Type*} (comp : α → α → Option Bool)

/-- `__push_heap`: while the parent of the hole is less than `value`, it moves down into it. -/
def siftUp (value : α) : Nat → List α → Nat → Option (List α)
  | 0, xs, hole => some (xs.set hole value)
  | fuel + 1, xs, hole =>
    if hole = 0 then some (xs.set hole value)
    else
      match xs[(hole - 1) / 2]? with
      | none => none
      | some parent =>
        match comp parent value with
        | none => none
        | some true => siftUp value fuel (xs.set hole parent) ((hole - 1) / 2)
        | some false => some (xs.set hole value)

/-- The loop of `__adjust_heap`: the greater of two children moves up into the hole. -/
def siftDown : Nat → List α → Nat → Option (List α × Nat)
  | 0, xs, hole => some (xs, hole)
  | fuel + 1, xs, hole =>
    if hole < (xs.length - 1) / 2 then
      match xs[2 * (hole + 1)]?, xs[2 * hole + 1]? with
      | some right, some left =>
        match comp right left with
        | none => none
        | some true => siftDown fuel (xs.set hole left) (2 * hole + 1)
        | some false => siftDown fuel (xs.set hole right) (2 * (hole + 1))
      | _, _ => none
    else some (xs, hole)

/-- The end of `__adjust_heap`: a last child without a sibling. -/
def onlyChild (xs : List α) (hole : Nat) : List α × Nat :=
  if xs.length % 2 = 0 ∧ hole = (xs.length - 2) / 2 then
    match xs[2 * hole + 1]? with
    | some left => (xs.set hole left, 2 * hole + 1)
    | none => (xs, hole)
  else (xs, hole)

/-- `push_back` and `push_heap`. -/
def push (xs : List α) (value : α) : Option (List α) :=
  siftUp comp value xs.length (xs ++ [value]) xs.length

/-- `pop_heap` and `pop_back`: the last element goes to where the hole ends that the first one
leaves. -/
def pop : List α → Option (List α)
  | [] => none
  | [_] => some []
  | x :: y :: xs =>
    let value := (y :: xs).getLast (List.cons_ne_nil y xs)
    match siftDown comp (xs.length + 1) (x :: (y :: xs).dropLast) 0 with
    | none => none
    | some (ys, hole) =>
      let (ys, hole) := onlyChild ys hole
      siftUp comp value hole ys hole

/-! ## A hole in an array -/

/-- With `value` in its hole, the array holds the elements of `elems`. -/
structure Hole (elems : List α) (value : α) (xs : List α) (hole : Nat) : Prop where
  inside : hole < xs.length
  perm : (xs.set hole value).Perm elems

namespace Hole

variable {elems xs : List α} {value x : α} {hole i : Nat}

theorem value_mem (h : Hole elems value xs hole) : value ∈ elems :=
  h.perm.subset (List.mem_set h.inside value)

theorem mem (h : Hole elems value xs hole) (hi : i ≠ hole) (hx : xs[i]? = some x) : x ∈ elems := by
  refine h.perm.subset (List.mem_of_getElem? (i := i) ?_)
  rw [List.getElem?_set_ne (Ne.symm hi), hx]

/-- The hole moves to where the element comes from. -/
theorem move (h : Hole elems value xs hole) (hi : i ≠ hole) (hx : xs[i]? = some x) :
    Hole elems value (xs.set hole x) i := by
  obtain ⟨hlt, hget⟩ := List.getElem?_eq_some_iff.mp hx
  refine ⟨by simpa using hlt, List.Perm.trans ?_ h.perm⟩
  have hswap := @List.set_set_perm _ (xs.set hole value) hole i
    (by simpa using h.inside) (by simpa using hlt)
  simpa [List.getElem_set_ne (Ne.symm hi), hget, List.set_set] using hswap

end Hole

variable {comp} {elems xs : List α} {value : α} {hole : Nat}

/-- Any two of the elements can be compared. -/
def Comparable (comp : α → α → Option Bool) (elems : List α) : Prop :=
  ∀ a ∈ elems, ∀ b ∈ elems, comp a b ≠ none

theorem siftUp_spec (hcomp : Comparable comp elems) (fuel : Nat) (h : Hole elems value xs hole) :
    ∃ ys, siftUp comp value fuel xs hole = some ys ∧ ys.Perm elems := by
  induction fuel generalizing xs hole with
  | zero => exact ⟨_, rfl, h.perm⟩
  | succ fuel ih =>
    simp only [siftUp]
    split
    case isTrue => exact ⟨_, rfl, h.perm⟩
    case isFalse hpos =>
      have hinside := h.inside
      obtain ⟨parent, hparent⟩ : ∃ parent, xs[(hole - 1) / 2]? = some parent :=
        ⟨_, List.getElem?_eq_getElem (by omega)⟩
      have hne : (hole - 1) / 2 ≠ hole := by omega
      have hdef := hcomp parent (h.mem hne hparent) value h.value_mem
      simp only [hparent]
      cases hless : comp parent value with
      | none => exact absurd hless hdef
      | some less =>
        cases less with
        | true => exact ih (h.move hne hparent)
        | false => exact ⟨_, rfl, h.perm⟩

theorem siftDown_spec (hcomp : Comparable comp elems) (fuel : Nat)
    (h : Hole elems value xs hole) :
    ∃ ys hole', siftDown comp fuel xs hole = some (ys, hole') ∧ Hole elems value ys hole' := by
  induction fuel generalizing xs hole with
  | zero => exact ⟨_, _, rfl, h⟩
  | succ fuel ih =>
    simp only [siftDown]
    split
    case isFalse => exact ⟨_, _, rfl, h⟩
    case isTrue hlt =>
      obtain ⟨right, hright⟩ : ∃ right, xs[2 * (hole + 1)]? = some right :=
        ⟨_, List.getElem?_eq_getElem (by omega)⟩
      obtain ⟨left, hleft⟩ : ∃ left, xs[2 * hole + 1]? = some left :=
        ⟨_, List.getElem?_eq_getElem (by omega)⟩
      have hdef := hcomp right (h.mem (by omega) hright) left (h.mem (by omega) hleft)
      simp only [hright, hleft]
      cases hless : comp right left with
      | none => exact absurd hless hdef
      | some less =>
        cases less with
        | true => exact ih (h.move (by omega) hleft)
        | false => exact ih (h.move (by omega) hright)

theorem onlyChild_spec (h : Hole elems value xs hole) :
    Hole elems value (onlyChild xs hole).1 (onlyChild xs hole).2 := by
  unfold onlyChild
  split
  · split
    · rename_i left hleft
      exact h.move (by omega) hleft
    · exact h
  · exact h

/-- The hole that `push` makes behind the elements. -/
theorem hole_push (value : α) (xs : List α) :
    Hole (value :: xs) value (xs ++ [value]) xs.length := by
  refine ⟨by simp, ?_⟩
  rw [List.set_append_right _ _ (Nat.le_refl _), Nat.sub_self, List.set_cons_zero]
  exact List.perm_append_singleton value xs

/-- The hole that the first element leaves to the last one. -/
theorem hole_pop (x y : α) (xs : List α) :
    Hole (y :: xs) ((y :: xs).getLast (List.cons_ne_nil y xs)) (x :: (y :: xs).dropLast) 0 := by
  refine ⟨by simp, ?_⟩
  rw [List.set_cons_zero]
  refine (List.perm_append_singleton _ _).symm.trans ?_
  rw [List.dropLast_append_getLast]

/-- `push` adds the element. -/
theorem push_spec (hcomp : Comparable comp (value :: xs)) :
    ∃ ys, push comp xs value = some ys ∧ ys.Perm (value :: xs) :=
  siftUp_spec hcomp xs.length (hole_push value xs)

/-- `pop` removes the first element, without a look at it. -/
theorem pop_spec {x : α} (hcomp : Comparable comp xs) :
    ∃ ys, pop comp (x :: xs) = some ys ∧ ys.Perm xs := by
  cases xs with
  | nil => exact ⟨[], rfl, .nil⟩
  | cons y xs =>
    obtain ⟨ys, hole, hdown, hnext⟩ := siftDown_spec hcomp (xs.length + 1) (hole_pop x y xs)
    simp only [pop, hdown]
    exact siftUp_spec hcomp _ (onlyChild_spec hnext)

end Tubekit.Lib.BinaryHeap
