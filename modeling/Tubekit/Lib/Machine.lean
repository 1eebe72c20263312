import Mathlib.Logic.Function.Iterate
import Mathlib.Order.WellFounded

/-!
# Deterministic machines

A machine takes one step after the other, and its final states stay. It ends from a state if some
number of steps leads to a final one. `ends_of_measure` shows that it ends, by a measure that is
smaller behind every step that it takes; `not_ends_of_recurs` that it does not, by states that are
not final and come again and again.
-/

namespace Tubekit.Lib

structure Machine (σ : Type*) where
  step : σ → σ
  Final : σ → Prop
  stays : ∀ c, Final c → step c = c

namespace Machine

variable {σ : Type*} (M : Machine σ)

def run (n : Nat) (c : σ) : σ := M.step^[n] c

/-- Some number of steps leads from one state to the other. -/
def Leads (c d : σ) : Prop := ∃ n, M.run n c = d

def Ends (c : σ) : Prop := ∃ n, M.Final (M.run n c)

variable {M} {c d e : σ}

@[simp] theorem run_zero (c : σ) : M.run 0 c = c := rfl

theorem run_succ (n : Nat) (c : σ) : M.run (n + 1) c = M.run n (M.step c) := rfl

theorem run_succ_last (n : Nat) (c : σ) : M.run (n + 1) c = M.step (M.run n c) :=
  Function.iterate_succ_apply' M.step n c

theorem run_add (m n : Nat) (c : σ) : M.run (m + n) c = M.run n (M.run m c) := by
  rw [run, run, run, Nat.add_comm, Function.iterate_add_apply]

theorem run_final (h : M.Final c) (n : Nat) : M.run n c = c := by
  induction n with
  | zero => rfl
  | succ n ih => rw [run_succ, M.stays c h, ih]

theorem Leads.refl (c : σ) : M.Leads c c := ⟨0, rfl⟩

theorem Leads.one (c : σ) : M.Leads c (M.step c) := ⟨1, rfl⟩

theorem Leads.trans (h : M.Leads c d) (h' : M.Leads d e) : M.Leads c e := by
  obtain ⟨m, rfl⟩ := h
  obtain ⟨n, rfl⟩ := h'
  exact ⟨m + n, run_add m n c⟩

theorem Leads.next (h : M.Leads c d) : M.Leads c (M.step d) := h.trans (.one d)

/-- What each step on the way keeps holds at its end. -/
theorem Leads.keeps {P : σ → Prop} (h : M.Leads c d) (hc : P c)
    (hstep : ∀ e, M.Leads c e → ¬M.Final e → P e → P (M.step e)) : P d := by
  obtain ⟨n, rfl⟩ := h
  induction n with
  | zero => exact hc
  | succ n ih =>
    rw [run_succ_last]
    by_cases hfinal : M.Final (M.run n c)
    · rw [M.stays _ hfinal]
      exact ih
    · exact hstep _ ⟨n, rfl⟩ hfinal ih

/-- Final states are not left, so they come after all others. -/
theorem Leads.of_final (h : M.Leads c d) (hd : M.Final d) (h' : M.Leads c e) : M.Leads e d := by
  obtain ⟨m, rfl⟩ := h
  obtain ⟨n, rfl⟩ := h'
  rcases Nat.le_total n m with hle | hle
  · obtain ⟨k, rfl⟩ := Nat.exists_eq_add_of_le hle
    exact ⟨k, (run_add n k c).symm⟩
  · obtain ⟨k, rfl⟩ := Nat.exists_eq_add_of_le hle
    rw [run_add, run_final hd]
    exact .refl _

theorem Leads.ends (h : M.Leads c d) (hd : M.Ends d) : M.Ends c := by
  obtain ⟨m, rfl⟩ := h
  obtain ⟨n, hn⟩ := hd
  exact ⟨m + n, by rwa [run_add]⟩

theorem Ends.of_leads (hc : M.Ends c) (h : M.Leads c d) : M.Ends d := by
  obtain ⟨n, hn⟩ := hc
  obtain ⟨k, hk⟩ := Leads.of_final (d := M.run n c) ⟨n, rfl⟩ hn h
  exact ⟨k, by rwa [hk]⟩

/-- A state that is not final after some steps was not final before. -/
theorem not_final_of_le {m n : Nat} (hle : m ≤ n) (h : ¬M.Final (M.run n c)) :
    ¬M.Final (M.run m c) := by
  obtain ⟨k, rfl⟩ := Nat.exists_eq_add_of_le hle
  intro hm
  rw [run_add, run_final hm] at h
  exact h hm

theorem ends_of_measure {α : Type*} {r : α → α → Prop} (hr : WellFounded r) (measure : σ → α)
    (h : ∀ d, M.Leads c d → ¬M.Final d → r (measure (M.step d)) (measure d)) : M.Ends c := by
  have hall : ∀ a d, measure d = a → M.Leads c d → M.Ends d := by
    intro a
    induction a using hr.induction with
    | h a ih =>
      intro d hd hleads
      by_cases hfinal : M.Final d
      · exact ⟨0, hfinal⟩
      · refine (Leads.one d).ends (ih (measure (M.step d)) ?_ (M.step d) rfl hleads.next)
        rw [← hd]
        exact h d hleads hfinal
  exact hall _ c rfl (.refl c)

theorem not_ends_of_recurs {P : σ → Prop} (hfinal : ∀ d, P d → ¬M.Final d)
    (hrecurs : ∀ d, P d → ∃ n, P (M.run (n + 1) d)) (hc : P c) : ¬M.Ends c := by
  rintro ⟨n, hn⟩
  have hlater : ∀ n, ∃ m, n ≤ m ∧ P (M.run m c) := by
    intro n
    induction n with
    | zero => exact ⟨0, Nat.le_refl 0, hc⟩
    | succ n ih =>
      obtain ⟨m, hle, hm⟩ := ih
      obtain ⟨k, hk⟩ := hrecurs _ hm
      exact ⟨m + (k + 1), by omega, by rwa [run_add]⟩
  obtain ⟨m, hle, hm⟩ := hlater n
  exact not_final_of_le hle (hfinal _ hm) hn

end Machine

end Tubekit.Lib
