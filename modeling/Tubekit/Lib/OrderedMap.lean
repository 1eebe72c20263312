import Mathlib.Data.List.Lex
import Mathlib.Data.UInt

/-!
# Ordered maps

A `std::map` is the list of its entries in the order of their keys. `assign` is assignment to
`m[key]` and `erase` removes an entry. Both keep the order; an entry with the last key is appended.
-/

namespace Tubekit.Lib.OrderedMap

variable {K V : Type} [LT K]

/-- The keys are in order, so no two are the same. -/
def Ordered (entries : List (K × V)) : Prop := entries.Pairwise fun m m' => m.1 < m'.1

/-- `m[key] = value`. -/
def assign [DecidableLT K] (key : K) (value : V) : List (K × V) → List (K × V)
  | [] => [(key, value)]
  | (k, v) :: entries =>
    if key < k then (key, value) :: (k, v) :: entries
    else if k < key then (k, v) :: assign key value entries
    else (k, value) :: entries

/-- `m.find(key)`. -/
def lookup [DecidableEq K] (key : K) : List (K × V) → Option V
  | [] => none
  | (k, v) :: entries => if k = key then some v else lookup key entries

/-- `m.erase(key)`. -/
def erase [DecidableEq K] (key : K) (entries : List (K × V)) : List (K × V) :=
  entries.filter fun m => m.1 ≠ key

theorem Ordered.erase [DecidableEq K] {entries : List (K × V)} (h : Ordered entries) (key : K) :
    Ordered (erase key entries) :=
  h.filter _

section

variable [DecidableLT K] {key : K} {value : V} {entries : List (K × V)}

theorem mem_assign [Std.Trichotomous (α := K) (· < ·)] {m : K × V} (h : m ∈ assign key value entries) :
    m = (key, value) ∨ m ∈ entries := by
  induction entries with
  | nil => simpa [assign] using h
  | cons head entries ih =>
    obtain ⟨k, v⟩ := head
    rw [assign] at h
    split at h
    · simpa using h
    · split at h
      · rcases List.mem_cons.1 h with rfl | hm
        · simp
        · rcases ih hm with rfl | hm
          · simp
          · simp [hm]
      · next hlt hgt =>
        have hk : k = key := Std.Trichotomous.trichotomous k key hgt hlt
        subst hk
        rcases List.mem_cons.1 h with rfl | hm
        · simp
        · simp [hm]

theorem Ordered.assign [Std.Trichotomous (α := K) (· < ·)]
    [Trans (α := K) (β := K) (γ := K) (· < ·) (· < ·) (· < ·)] (h : Ordered entries) :
    Ordered (assign key value entries) := by
  induction entries with
  | nil => simp [OrderedMap.assign, Ordered]
  | cons head entries ih =>
    obtain ⟨k, v⟩ := head
    have ⟨hhead, htail⟩ := List.pairwise_cons.1 h
    rw [OrderedMap.assign]
    split
    · next hlt =>
      refine List.pairwise_cons.2 ⟨fun m hm => ?_, h⟩
      rcases List.mem_cons.1 hm with rfl | hm
      · exact hlt
      · exact Trans.trans hlt (hhead m hm)
    · split
      · next hgt =>
        refine List.pairwise_cons.2 ⟨fun m hm => ?_, ih htail⟩
        rcases mem_assign hm with rfl | hm
        · exact hgt
        · exact hhead m hm
      · exact List.pairwise_cons.2 ⟨hhead, htail⟩

/-- A key behind all others is appended. -/
theorem assign_append [Std.Asymm (α := K) (· < ·)] (h : ∀ m ∈ entries, m.1 < key) :
    assign key value entries = entries ++ [(key, value)] := by
  induction entries with
  | nil => rfl
  | cons head entries ih =>
    obtain ⟨k, v⟩ := head
    have hk : k < key := h (k, v) (by simp)
    rw [assign, if_neg (Std.Asymm.asymm _ _ hk), if_pos hk, ih fun m hm => h m (by simp [hm])]
    rfl

theorem mem_assign_self [Std.Trichotomous (α := K) (· < ·)] (key : K) (value : V)
    (entries : List (K × V)) : (key, value) ∈ assign key value entries := by
  induction entries with
  | nil => exact List.mem_singleton.mpr rfl
  | cons head entries ih =>
    obtain ⟨k, v⟩ := head
    rw [assign]
    split
    · exact List.mem_cons_self
    · split
      · exact List.mem_cons_of_mem _ ih
      · next hlt hgt =>
        rw [Std.Trichotomous.trichotomous k key hgt hlt]
        exact List.mem_cons_self

/-- The entries of other keys stay. -/
theorem mem_assign_of_ne [Std.Trichotomous (α := K) (· < ·)] {m : K × V} (h : m ∈ entries)
    (hne : m.1 ≠ key) : m ∈ assign key value entries := by
  induction entries with
  | nil => cases h
  | cons head entries ih =>
    obtain ⟨k, v⟩ := head
    rw [assign]
    split
    · exact List.mem_cons_of_mem _ h
    · split
      · rcases List.mem_cons.mp h with rfl | h
        · exact List.mem_cons_self
        · exact List.mem_cons_of_mem _ (ih h)
      · next hlt hgt =>
        have hk : k = key := Std.Trichotomous.trichotomous k key hgt hlt
        rcases List.mem_cons.mp h with rfl | h
        · exact absurd hk hne
        · exact List.mem_cons_of_mem _ h

end

/-- The keys before an entry are less than its key. -/
theorem Ordered.lt_of_append {entries more : List (K × V)} {m : K × V}
    (h : Ordered (entries ++ m :: more)) : ∀ n ∈ entries, n.1 < m.1 := fun n hn =>
  (List.pairwise_append.1 h).2.2 n hn m (by simp)

section

variable [DecidableEq K] {key : K} {value : V} {entries : List (K × V)}

omit [LT K] in
theorem mem_of_lookup (h : lookup key entries = some value) : (key, value) ∈ entries := by
  induction entries with
  | nil => cases h
  | cons head entries ih =>
    obtain ⟨k, v⟩ := head
    rw [lookup] at h
    split at h
    · next hk =>
      cases h
      rw [hk]
      exact List.mem_cons_self
    · exact List.mem_cons_of_mem _ (ih h)

theorem lookup_of_mem [Std.Asymm (α := K) (· < ·)] (hordered : Ordered entries)
    (h : (key, value) ∈ entries) : lookup key entries = some value := by
  induction entries with
  | nil => cases h
  | cons head entries ih =>
    obtain ⟨k, v⟩ := head
    have ⟨hhead, htail⟩ := List.pairwise_cons.mp hordered
    rw [lookup]
    rcases List.mem_cons.mp h with heq | hmem
    · cases heq
      rw [if_pos rfl]
    · have hlt : k < key := hhead (key, value) hmem
      have hne : k ≠ key := by
        rintro rfl
        exact Std.Asymm.asymm _ _ hlt hlt
      rw [if_neg hne, ih htail hmem]

end

end Tubekit.Lib.OrderedMap
