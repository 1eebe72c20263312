import Mathlib.Data.Finset.Basic
import Tubekit.Lib.Transition

/-!
# Lending

Who lends the things of a fixed stock gives away a thing that is not out, says that nothing is
left only when everything is out, and takes back a thing that is out. Who holds a thing may use
it. The state is the set of the things that are out.
-/

namespace Tubekit.Lib.Lending

open Transition

variable {ι : Type*} [DecidableEq ι]

inductive Deal (ι : Type*) where
  | lend (i : ι)
  | exhausted
  | restore (i : ι)
  | refuse
  | use (i : ι)
  deriving DecidableEq

def lender (stock : Finset ι) : System (Finset ι) (Deal ι) where
  init out := out ⊆ stock
  next out
    | .lend i => if i ∈ stock ∧ i ∉ out then some (insert i out) else none
    | .exhausted => if stock ⊆ out then some out else none
    | .restore i => if i ∈ out then some (out.erase i) else none
    | .refuse => some out
    | .use i => if i ∈ out then some out else none

variable {stock out out' : Finset ι} {deal : Deal ι} {deals : List (Deal ι)} {i : ι}

theorem next_lend (hin : i ∈ stock) (hnot : i ∉ out) :
    (lender stock).next out (.lend i) = some (insert i out) := if_pos ⟨hin, hnot⟩

theorem next_exhausted (hall : stock ⊆ out) :
    (lender stock).next out .exhausted = some out := if_pos hall

theorem next_restore (hout : i ∈ out) :
    (lender stock).next out (.restore i) = some (out.erase i) := if_pos hout

theorem next_use (hout : i ∈ out) : (lender stock).next out (.use i) = some out := if_pos hout

/-- Everything one deal can do. -/
theorem next_cases (h : (lender stock).next out deal = some out') :
    (∃ i, deal = .lend i ∧ i ∈ stock ∧ i ∉ out ∧ out' = insert i out) ∨
    (∃ i, deal = .restore i ∧ i ∈ out ∧ out' = out.erase i) ∨
    ((∀ i, deal ≠ .lend i ∧ deal ≠ .restore i) ∧ out' = out) := by
  cases deal with
  | lend i =>
    obtain ⟨⟨hin, hnot⟩, heq⟩ := Option.ite_none_right_eq_some.mp h
    exact Or.inl ⟨i, rfl, hin, hnot, (Option.some.inj heq).symm⟩
  | exhausted =>
    obtain ⟨-, heq⟩ := Option.ite_none_right_eq_some.mp h
    exact Or.inr (Or.inr ⟨by simp, (Option.some.inj heq).symm⟩)
  | restore i =>
    obtain ⟨hout, heq⟩ := Option.ite_none_right_eq_some.mp h
    exact Or.inr (Or.inl ⟨i, rfl, hout, (Option.some.inj heq).symm⟩)
  | refuse => exact Or.inr (Or.inr ⟨by simp, (Option.some.inj h).symm⟩)
  | use i =>
    obtain ⟨-, heq⟩ := Option.ite_none_right_eq_some.mp h
    exact Or.inr (Or.inr ⟨by simp, (Option.some.inj heq).symm⟩)

/-- A thing is lent as often as it is taken back, up to where it is at the two ends. -/
theorem run_balance (hrun : (lender stock).Run out deals out') (i : ι) :
    deals.count (.lend i) + (if i ∈ out then 1 else 0) =
      deals.count (.restore i) + (if i ∈ out' then 1 else 0) := by
  induction hrun with
  | nil => rfl
  | cons hnext _ ih =>
    rcases next_cases hnext with ⟨j, rfl, -, hnot, rfl⟩ | ⟨j, rfl, hout, rfl⟩ | ⟨hne, rfl⟩
    · by_cases hj : j = i
      · subst hj
        simp [hnot] at ih ⊢
        omega
      · simp [hj, Ne.symm hj] at ih ⊢
        omega
    · by_cases hj : j = i
      · subst hj
        simp [hout] at ih ⊢
        omega
      · simp [hj, Ne.symm hj] at ih ⊢
        omega
    · rw [List.count_cons_of_ne (hne i).1, List.count_cons_of_ne (hne i).2]
      exact ih

/-- What is out stays out while it is not taken back. -/
theorem run_stays_out (hrun : (lender stock).Run out deals out') (hout : i ∈ out)
    (hkeep : .restore i ∉ deals) : i ∈ out' := by
  have hbalance := run_balance hrun i
  rw [if_pos hout, List.count_eq_zero_of_not_mem hkeep] at hbalance
  by_contra hnot
  rw [if_neg hnot] at hbalance
  omega

end Tubekit.Lib.Lending
