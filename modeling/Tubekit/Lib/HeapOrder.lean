import Mathlib.Order.Lattice
import Tubekit.Lib.BinaryHeap

/-!
# The order of a binary heap

`rank` is what the comparison compares, least first. While a hole moves, every element is ordered
against its parent except where the hole is one of the two, and the parent of the hole is ordered
against the children of the hole (`Gap`). Nothing is asked of what the hole holds: `pop` restores
the order also where the first element has lost its place.
-/

namespace Tubekit.Lib.BinaryHeap

variable {α κ : Type*} [LinearOrder κ]

/-- The comparison is that of the ranks, for all of the elements. -/
def Ranks (comp : α → α → Option Bool) (rank : α → κ) (elems : List α) : Prop :=
  ∀ a ∈ elems, ∀ b ∈ elems, comp a b = some (decide (rank b < rank a))

/-- No element has a lower rank than its parent. -/
def HeapOrdered (rank : α → κ) (xs : List α) : Prop :=
  ∀ i x p, 0 < i → xs[i]? = some x → xs[(i - 1) / 2]? = some p → rank p ≤ rank x

/-- The array is ordered around a hole. -/
structure Gap (rank : α → κ) (xs : List α) (hole : Nat) : Prop where
  order : ∀ i x p, 0 < i → i ≠ hole → (i - 1) / 2 ≠ hole → xs[i]? = some x →
    xs[(i - 1) / 2]? = some p → rank p ≤ rank x
  across : ∀ i x p, 0 < i → 0 < hole → (i - 1) / 2 = hole → xs[i]? = some x →
    xs[(hole - 1) / 2]? = some p → rank p ≤ rank x

/-- The children of the hole. -/
def Below (rank : α → κ) (value : α) (xs : List α) (hole : Nat) : Prop :=
  ∀ i x, 0 < i → (i - 1) / 2 = hole → xs[i]? = some x → rank value ≤ rank x

variable {comp : α → α → Option Bool} {rank : α → κ} {elems xs ys : List α} {value : α}
  {hole : Nat}

theorem Ranks.comparable (h : Ranks comp rank elems) : Comparable comp elems := by
  intro a ha b hb
  rw [h a ha b hb]
  exact Option.some_ne_none _

theorem HeapOrdered.congr {rank' : α → κ} (h : HeapOrdered rank xs)
    (hsame : ∀ y ∈ xs, rank' y = rank y) : HeapOrdered rank' xs := by
  intro i x p hi hx hp
  rw [hsame x (List.mem_of_getElem? hx), hsame p (List.mem_of_getElem? hp)]
  exact h i x p hi hx hp

/-- The rank of the first element may have changed. -/
theorem HeapOrdered.gap_root {rank' : α → κ} {x : α} (h : HeapOrdered rank (x :: xs))
    (hsame : ∀ y ∈ xs, rank' y = rank y) : Gap rank' (x :: xs) 0 where
  order := by
    intro i y p hi hne hne' hy hp
    have hmem : ∀ k z, k ≠ 0 → (x :: xs)[k]? = some z → z ∈ xs := by
      intro k z hk hz
      obtain ⟨k, rfl⟩ := Nat.exists_eq_succ_of_ne_zero hk
      rw [List.getElem?_cons_succ] at hz
      exact List.mem_of_getElem? hz
    rw [hsame y (hmem i y hne hy), hsame p (hmem _ p hne' hp)]
    exact h i y p hi hy hp
  across := fun i y p _ hpos => absurd hpos (Nat.lt_irrefl 0)

/-- The first element has the lowest rank. -/
theorem HeapOrdered.root_le (h : HeapOrdered rank xs) {x y : α} (hx : xs[0]? = some x)
    (hy : y ∈ xs) : rank x ≤ rank y := by
  obtain ⟨i, hi⟩ := List.mem_iff_getElem?.mp hy
  induction i using Nat.strongRecOn generalizing y with
  | ind i ih =>
    by_cases hzero : i = 0
    · subst hzero
      rw [hx, Option.some.injEq] at hi
      exact hi ▸ le_refl _
    · have hlt := (List.getElem?_eq_some_iff.mp hi).1
      obtain ⟨p, hp⟩ : ∃ p, xs[(i - 1) / 2]? = some p :=
        ⟨_, List.getElem?_eq_getElem (by omega)⟩
      have hparent := ih ((i - 1) / 2) (by omega) (List.mem_of_getElem? hp) hp
      exact le_trans hparent (h i y p (by omega) hi hp)

/-- The value goes into a hole between its parent and its children. -/
theorem Gap.fill (h : Gap rank xs hole) (hbelow : Below rank value xs hole)
    (habove : 0 < hole → ∀ p, xs[(hole - 1) / 2]? = some p → rank p ≤ rank value) :
    HeapOrdered rank (xs.set hole value) := by
  intro i x p hi hx hp
  rw [List.getElem?_set] at hx hp
  by_cases hhole : hole = i
  · subst hhole
    rw [if_neg (by omega)] at hp
    rw [if_pos rfl] at hx
    split at hx
    · rw [Option.some.injEq] at hx
      exact hx ▸ habove hi p hp
    · cases hx
  · rw [if_neg hhole] at hx
    by_cases hparent : hole = (i - 1) / 2
    · rw [if_pos hparent] at hp
      split at hp
      · rw [Option.some.injEq] at hp
        exact hp ▸ hbelow i x hi hparent.symm hx
      · cases hp
    · rw [if_neg hparent] at hp
      exact h.order i x p hi (Ne.symm hhole) (Ne.symm hparent) hx hp

/-- The parent of the hole comes down into it. -/
theorem Gap.up (h : Gap rank xs hole) (hpos : 0 < hole) {parent : α}
    (hparent : xs[(hole - 1) / 2]? = some parent) (hless : rank value < rank parent) :
    Gap rank (xs.set hole parent) ((hole - 1) / 2) ∧
      Below rank value (xs.set hole parent) ((hole - 1) / 2) := by
  -- all children of the new hole rank with the old parent or behind it
  have hchild : ∀ i x, 0 < i → (i - 1) / 2 = (hole - 1) / 2 → (xs.set hole parent)[i]? = some x →
      rank parent ≤ rank x := by
    intro i x hi heq hx
    rw [List.getElem?_set] at hx
    by_cases hhole : hole = i
    · rw [if_pos hhole] at hx
      split at hx
      · rw [Option.some.injEq] at hx
        exact le_of_eq (congrArg rank hx)
      · cases hx
    · rw [if_neg hhole] at hx
      exact h.order i x parent hi (Ne.symm hhole) (by omega) hx (heq ▸ hparent)
  refine ⟨⟨?_, ?_⟩, fun i x hi heq hx => le_trans (le_of_lt hless) (hchild i x hi heq hx)⟩
  · intro i x p hi hne hne' hx hp
    rw [List.getElem?_set] at hx hp
    by_cases hhole : hole = i
    · omega
    · rw [if_neg hhole] at hx
      by_cases hunder : hole = (i - 1) / 2
      · rw [if_pos hunder] at hp
        split at hp
        · rw [Option.some.injEq] at hp
          subst hp
          exact h.across i x _ hi hpos hunder.symm hx hparent
        · cases hp
      · rw [if_neg hunder] at hp
        exact h.order i x p hi (Ne.symm hhole) (Ne.symm hunder) hx hp
  · intro i x p hi hpos' heq hx hp
    have hgrand : rank p ≤ rank parent := by
      rw [List.getElem?_set_ne (by omega)] at hp
      exact h.order _ parent p hpos' (by omega) (by omega) hparent hp
    exact le_trans hgrand (hchild i x hi heq hx)

/-- The child of the hole that does not rank behind its sibling goes up into it. -/
theorem Gap.down (h : Gap rank xs hole) {c : Nat} {child : α} (hpos : 0 < c)
    (hparent : (c - 1) / 2 = hole) (hc : xs[c]? = some child)
    (hleast : ∀ i x, 0 < i → (i - 1) / 2 = hole → xs[i]? = some x → rank child ≤ rank x) :
    Gap rank (xs.set hole child) c where
  order := by
    intro i x p hi hne hne' hx hp
    rw [List.getElem?_set] at hx hp
    by_cases hhole : hole = i
    · subst hhole
      rw [if_neg (by omega)] at hp
      rw [if_pos rfl] at hx
      split at hx
      · rw [Option.some.injEq] at hx
        subst hx
        exact h.across c _ p hpos hi hparent hc hp
      · cases hx
    · rw [if_neg hhole] at hx
      by_cases hunder : hole = (i - 1) / 2
      · rw [if_pos hunder] at hp
        split at hp
        · rw [Option.some.injEq] at hp
          exact hp ▸ hleast i x hi hunder.symm hx
        · cases hp
      · rw [if_neg hunder] at hp
        exact h.order i x p hi (Ne.symm hhole) (Ne.symm hunder) hx hp
  across := by
    intro i x p hi _ heq hx hp
    rw [List.getElem?_set_ne (by omega)] at hx
    rw [hparent, List.getElem?_set] at hp
    simp only [if_true] at hp
    split at hp
    · rw [Option.some.injEq] at hp
      subst hp
      exact h.order i x _ hi (by omega) (by omega) hx (heq ▸ hc)
    · cases hp

/-! ## The operations -/

theorem siftUp_ordered (hranks : Ranks comp rank elems) {fuel : Nat}
    (hhole : Hole elems value xs hole) (hgap : Gap rank xs hole)
    (hbelow : Below rank value xs hole) (hfuel : hole ≤ fuel)
    (h : siftUp comp value fuel xs hole = some ys) : HeapOrdered rank ys := by
  induction fuel generalizing xs hole with
  | zero =>
    rw [siftUp, Option.some.injEq] at h
    exact h ▸ hgap.fill hbelow (fun hpos => by omega)
  | succ fuel ih =>
    rw [siftUp] at h
    by_cases hzero : hole = 0
    · rw [if_pos hzero, Option.some.injEq] at h
      exact h ▸ hgap.fill hbelow (fun hpos => by omega)
    · have hinside := hhole.inside
      obtain ⟨parent, hparent⟩ : ∃ parent, xs[(hole - 1) / 2]? = some parent :=
        ⟨_, List.getElem?_eq_getElem (by omega)⟩
      have hne : (hole - 1) / 2 ≠ hole := by omega
      rw [if_neg hzero] at h
      simp only [hparent, hranks parent (hhole.mem hne hparent) value hhole.value_mem] at h
      by_cases hless : rank value < rank parent
      · rw [decide_eq_true hless] at h
        obtain ⟨hgap', hbelow'⟩ := hgap.up (by omega) hparent hless
        exact ih (hhole.move hne hparent) hgap' hbelow' (by omega) h
      · rw [decide_eq_false hless] at h
        simp only [Option.some.injEq] at h
        refine h ▸ hgap.fill hbelow (fun _ p hp => ?_)
        rw [hparent, Option.some.injEq] at hp
        exact hp ▸ le_of_not_gt hless

/-- The hole ends where it has at most one child. -/
theorem siftDown_ordered (hranks : Ranks comp rank elems) {fuel hole' : Nat}
    (hhole : Hole elems value xs hole) (hgap : Gap rank xs hole)
    (hfuel : xs.length ≤ hole + fuel) (h : siftDown comp fuel xs hole = some (ys, hole')) :
    Gap rank ys hole' ∧ (ys.length - 1) / 2 ≤ hole' := by
  induction fuel generalizing xs hole with
  | zero =>
    rw [siftDown, Option.some.injEq, Prod.mk.injEq] at h
    obtain ⟨rfl, rfl⟩ := h
    exact ⟨hgap, by omega⟩
  | succ fuel ih =>
    rw [siftDown] at h
    by_cases hlt : hole < (xs.length - 1) / 2
    · obtain ⟨right, hright⟩ : ∃ right, xs[2 * (hole + 1)]? = some right :=
        ⟨_, List.getElem?_eq_getElem (by omega)⟩
      obtain ⟨left, hleft⟩ : ∃ left, xs[2 * hole + 1]? = some left :=
        ⟨_, List.getElem?_eq_getElem (by omega)⟩
      -- the children of the hole are these two
      have hchildren : ∀ i x, 0 < i → (i - 1) / 2 = hole → xs[i]? = some x →
          x = left ∨ x = right := by
        intro i x hi hparent hx
        rcases show i = 2 * hole + 1 ∨ i = 2 * (hole + 1) from by omega with rfl | rfl
        · exact Or.inl (Option.some.inj (hx.symm.trans hleft))
        · exact Or.inr (Option.some.inj (hx.symm.trans hright))
      rw [if_pos hlt] at h
      simp only [hright, hleft, hranks right (hhole.mem (by omega) hright) left
        (hhole.mem (by omega) hleft)] at h
      by_cases hless : rank left < rank right
      · rw [decide_eq_true hless] at h
        refine ih (hhole.move (by omega) hleft)
          (hgap.down (by omega) (by omega) hleft fun i x hi hparent hx => ?_)
          (by rw [List.length_set]; omega) h
        rcases hchildren i x hi hparent hx with rfl | rfl
        · exact le_refl _
        · exact le_of_lt hless
      · rw [decide_eq_false hless] at h
        refine ih (hhole.move (by omega) hright)
          (hgap.down (by omega) (by omega) hright fun i x hi hparent hx => ?_)
          (by rw [List.length_set]; omega) h
        rcases hchildren i x hi hparent hx with rfl | rfl
        · exact le_of_not_gt hless
        · exact le_refl _
    · rw [if_neg hlt, Option.some.injEq, Prod.mk.injEq] at h
      obtain ⟨rfl, rfl⟩ := h
      exact ⟨hgap, by omega⟩

/-- Behind an only child the hole is a leaf. -/
theorem onlyChild_ordered (hgap : Gap rank xs hole) (hlast : (xs.length - 1) / 2 ≤ hole) :
    Gap rank (onlyChild xs hole).1 (onlyChild xs hole).2 ∧
      (onlyChild xs hole).1.length ≤ 2 * (onlyChild xs hole).2 + 1 := by
  unfold onlyChild
  by_cases honly : xs.length % 2 = 0 ∧ hole = (xs.length - 2) / 2
  · rw [if_pos honly]
    cases hleft : xs[2 * hole + 1]? with
    | none =>
      rw [List.getElem?_eq_none_iff] at hleft
      exact ⟨hgap, hleft⟩
    | some left =>
      have hdown := hgap.down (c := 2 * hole + 1) (by omega) (by omega) hleft
        (fun i x hi hparent hx => by
          have hlt := (List.getElem?_eq_some_iff.mp hx).1
          have hi : i = 2 * hole + 1 := by omega
          subst hi
          rw [hleft, Option.some.injEq] at hx
          exact le_of_eq (congrArg rank hx))
      refine ⟨hdown, ?_⟩
      simp only [List.length_set]
      omega
  · rw [if_neg honly]
    refine ⟨hgap, ?_⟩
    simp only
    omega

/-- `push` keeps the order. -/
theorem push_ordered (hranks : Ranks comp rank (value :: xs)) (hordered : HeapOrdered rank xs)
    (h : push comp xs value = some ys) : HeapOrdered rank ys := by
  have hleaf : ∀ i x, 0 < i → (i - 1) / 2 = xs.length → (xs ++ [value])[i]? = some x → False := by
    intro i x hi hparent hx
    have hlt := (List.getElem?_eq_some_iff.mp hx).1
    rw [List.length_append, List.length_singleton] at hlt
    omega
  refine siftUp_ordered hranks (hole_push value xs) ⟨?_, ?_⟩ ?_ (Nat.le_refl _) h
  · intro i x p hi hne _ hx hp
    have hlt := (List.getElem?_eq_some_iff.mp hx).1
    rw [List.length_append, List.length_singleton] at hlt
    rw [List.getElem?_append_left (by omega)] at hx hp
    exact hordered i x p hi hx hp
  · exact fun i x _ hi _ hparent hx _ => (hleaf i x hi hparent hx).elim
  · exact fun i x hi hparent hx => (hleaf i x hi hparent hx).elim

/-- `pop` needs no order of the first element: it restores it among the others. -/
theorem pop_ordered {x : α} (hranks : Ranks comp rank xs) (hgap : Gap rank (x :: xs) 0)
    (h : pop comp (x :: xs) = some ys) : HeapOrdered rank ys := by
  cases xs with
  | nil =>
    rw [pop, Option.some.injEq] at h
    subst h
    intro i x p _ hx
    cases hx
  | cons y xs =>
    have hhole := hole_pop x y xs
    have hshort : Gap rank (x :: (y :: xs).dropLast) 0 := by
      refine ⟨fun i a p hi hne hne' ha hp => ?_, fun i a p _ hpos => absurd hpos (Nat.lt_irrefl 0)⟩
      rw [← List.dropLast_cons_of_ne_nil (List.cons_ne_nil y xs)] at ha hp
      rw [List.getElem?_dropLast] at ha hp
      split at ha
      · split at hp
        · exact hgap.order i a p hi hne hne' ha hp
        · cases hp
      · cases ha
    obtain ⟨zs, hole, hdown, hnext⟩ := siftDown_spec hranks.comparable (xs.length + 1) hhole
    obtain ⟨hgap', hlast⟩ := siftDown_ordered hranks hhole hshort (by simp) hdown
    obtain ⟨hgap'', hleaf⟩ := onlyChild_ordered hgap' hlast
    simp only [pop, hdown] at h
    refine siftUp_ordered hranks (onlyChild_spec hnext) hgap'' ?_ (Nat.le_refl _) h
    intro i a hi hparent ha
    have hlt := (List.getElem?_eq_some_iff.mp ha).1
    omega

end Tubekit.Lib.BinaryHeap
