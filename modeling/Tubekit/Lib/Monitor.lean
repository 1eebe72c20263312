import Mathlib.Logic.Function.Basic
import Tubekit.Lib.Lending

/-!
# Monitors

Threads share a state behind a lock. Who wants to take something and finds nothing sleeps until
somebody gives and wakes all sleepers, either before the lock is released or, when the giver is
`deferred`, some time afterwards. Sleepers may also wake up without a reason.

No wake-up is lost: a thread that sleeps while there is something to take is going to be woken by a
giver on its way (`sound_reachable`, `served`). For a stock of things that are lent, a thread sleeps
for good only while everything is out (`all_out`), and the takers and givers make a lender
(`lender_run`).
-/

namespace Tubekit.Lib.Monitor

open Transition

variable {σ γ δ θ : Type*}

/-- What is behind the lock: when there is something to take, the ways to take it, and to give. -/
structure Guarded (σ γ δ : Type*) where
  ready : σ → Bool
  take : σ → γ → Option σ
  give : σ → δ → Option σ

/-- Who finds nothing waits, or leaves without it. Who gives wakes the sleepers after the lock is
released, or before. -/
structure Discipline where
  waits : Bool
  deferred : Bool

structure State (σ θ : Type*) where
  shared : σ
  asleep : θ → Bool
  /-- The thread has given something and has not woken the sleepers yet. -/
  owing : θ → Bool

inductive Action (γ δ θ : Type*) where
  /-- The loop around the wait, up to the wait or through it. -/
  | enter (t : θ) (choice : γ)
  | give (t : θ) (thing : δ)
  | broadcast (t : θ)
  /-- A wake-up without a reason. -/
  | wake (t : θ)

variable [DecidableEq θ]

def next (G : Guarded σ γ δ) (d : Discipline) (s : State σ θ) :
    Action γ δ θ → Option (State σ θ)
  | .enter t choice =>
    if s.asleep t || s.owing t then none
    else if G.ready s.shared then (G.take s.shared choice).map fun shared => { s with shared }
    else if d.waits then some { s with asleep := Function.update s.asleep t true }
    else some s
  | .give t thing =>
    if s.asleep t || s.owing t then none
    else (G.give s.shared thing).map fun shared =>
      if d.deferred then { s with shared, owing := Function.update s.owing t true }
      else { s with shared, asleep := fun _ => false }
  | .broadcast t =>
    if s.owing t then
      some { s with owing := Function.update s.owing t false, asleep := fun _ => false }
    else none
  | .wake t => some { s with asleep := Function.update s.asleep t false }

/-- Nobody sleeps at the beginning, and nobody has given anything. -/
def system (G : Guarded σ γ δ) (d : Discipline) (init : σ → Prop) :
    System (State σ θ) (Action γ δ θ) where
  init s := init s.shared ∧ (∀ t, s.asleep t = false) ∧ ∀ t, s.owing t = false
  next := next G d

variable {G : Guarded σ γ δ} {d : Discipline} {init : σ → Prop} {s s' : State σ θ}

/-! ## No wake-up is lost -/

/-- Who sleeps while there is something to take is going to be woken. -/
structure Sound (G : Guarded σ γ δ) (s : State σ θ) : Prop where
  woken : ∀ t, s.asleep t = true → G.ready s.shared = true → ∃ u, s.owing u = true
  idle : ∀ t, s.asleep t = true → s.owing t = false

omit [DecidableEq θ] in
theorem sound_of_awake (h : ∀ t, s.asleep t = false) : Sound G s := by
  constructor <;> intro t ht <;> rw [h t] at ht <;> cases ht

theorem sound_enter {t : θ} {choice : γ} (hs : Sound G s)
    (hnext : next G d s (.enter t choice) = some s') : Sound G s' := by
  obtain ⟨hfree, hnext⟩ := Option.ite_none_left_eq_some.mp hnext
  rw [Bool.or_eq_true, not_or, Bool.not_eq_true, Bool.not_eq_true] at hfree
  split at hnext
  · rename_i hready
    obtain ⟨shared, -, rfl⟩ := Option.map_eq_some_iff.mp hnext
    exact ⟨fun u hu _ => hs.woken u hu hready, hs.idle⟩
  split at hnext
  · rename_i hready _
    cases hnext
    refine ⟨fun u _ hnow => absurd hnow hready, ?_⟩
    intro u hu
    by_cases heq : u = t
    · rw [heq]
      exact hfree.2
    · exact hs.idle u ((Function.update_of_ne heq _ _).symm.trans hu)
  · cases hnext
    exact hs

theorem sound_give {t : θ} {thing : δ} (hs : Sound G s)
    (hnext : next G d s (.give t thing) = some s') : Sound G s' := by
  obtain ⟨hfree, hnext⟩ := Option.ite_none_left_eq_some.mp hnext
  rw [Bool.or_eq_true, not_or, Bool.not_eq_true, Bool.not_eq_true] at hfree
  obtain ⟨shared, -, rfl⟩ := Option.map_eq_some_iff.mp hnext
  split
  · refine ⟨fun u _ _ => ⟨t, Function.update_self t true s.owing⟩, ?_⟩
    intro u hu
    have hne : u ≠ t := by
      rintro rfl
      cases hfree.1.symm.trans hu
    exact (Function.update_of_ne hne _ _).trans (hs.idle u hu)
  · exact sound_of_awake fun _ => rfl

theorem sound_next {a : Action γ δ θ} (hs : Sound G s) (hnext : next G d s a = some s') :
    Sound G s' := by
  cases a with
  | enter t choice => exact sound_enter hs hnext
  | give t thing => exact sound_give hs hnext
  | broadcast t =>
    obtain ⟨-, hnext⟩ := Option.ite_none_right_eq_some.mp hnext
    cases hnext
    exact sound_of_awake fun _ => rfl
  | wake t =>
    cases hnext
    have hasleep (u : θ) (hu : Function.update s.asleep t false u = true) : s.asleep u = true := by
      by_cases heq : u = t
      · rw [heq, Function.update_self] at hu
        cases hu
      · rwa [Function.update_of_ne heq] at hu
    exact ⟨fun u hu => hs.woken u (hasleep u hu), fun u hu => hs.idle u (hasleep u hu)⟩

theorem sound_reachable (hreach : (system G d init).Reachable s) : Sound G s := by
  apply hreach.invariant (P := Sound G)
  · intro t hinit
    exact sound_of_awake hinit.2.1
  · intro t a t' _ hs hnext
    exact sound_next hs hnext

/-- A sleeper for whom there is something takes it after a wake-up that somebody owes. -/
theorem served (hreach : (system G d init).Reachable s) {t : θ} (hasleep : s.asleep t = true)
    (hready : G.ready s.shared = true) {choice : γ} {shared : σ}
    (htake : G.take s.shared choice = some shared) :
    ∃ u s', (system G d init).Run s [.broadcast u, .enter t choice] s' ∧
      s'.shared = shared ∧ s'.asleep t = false := by
  have hsound := sound_reachable hreach
  obtain ⟨u, hu⟩ := hsound.woken t hasleep hready
  have hne : t ≠ u := by
    rintro rfl
    cases (hsound.idle t hasleep).symm.trans hu
  have howing : Function.update s.owing u false t = false :=
    (Function.update_of_ne hne _ _).trans (hsound.idle t hasleep)
  let awake : State σ θ :=
    { s with owing := Function.update s.owing u false, asleep := fun _ => false }
  have henter : next G d awake (.enter t choice) = some { awake with shared } := by
    simp only [next, awake, howing, hready, htake]
    rfl
  exact ⟨u, _, .cons (if_pos hu) (.cons henter (.nil _)), rfl, rfl⟩

/-- When nobody owes a wake-up, there is nothing for those who sleep. -/
theorem nothing_for_sleepers (hreach : (system G d init).Reachable s)
    (hsettled : ∀ u, s.owing u = false) {t : θ} (hasleep : s.asleep t = true) :
    G.ready s.shared = false := by
  rw [← Bool.not_eq_true]
  intro hready
  obtain ⟨u, hu⟩ := (sound_reachable hreach).woken t hasleep hready
  cases (hsettled u).symm.trans hu

/-- Who wakes the sleepers before the lock is released owes nothing. -/
theorem owing_eq (hprompt : d.deferred = false) (hreach : (system G d init).Reachable s) (u : θ) :
    s.owing u = false := by
  revert u
  apply hreach.invariant (P := fun s => ∀ u, s.owing u = false)
  · intro s hinit
    exact hinit.2.2
  · intro s a s' _ howing hnext u
    cases a with
    | enter t choice =>
      obtain ⟨-, hnext⟩ := Option.ite_none_left_eq_some.mp hnext
      split at hnext
      · obtain ⟨shared, -, rfl⟩ := Option.map_eq_some_iff.mp hnext
        exact howing u
      · split at hnext <;> cases hnext <;> exact howing u
    | give t thing =>
      obtain ⟨-, hnext⟩ := Option.ite_none_left_eq_some.mp hnext
      obtain ⟨shared, -, rfl⟩ := Option.map_eq_some_iff.mp hnext
      rw [hprompt]
      exact howing u
    | broadcast t =>
      obtain ⟨hdebt, -⟩ := Option.ite_none_right_eq_some.mp hnext
      cases (howing t).symm.trans hdebt
    | wake t =>
      cases hnext
      exact howing u

/-! ## Lending -/

open Lending (Deal lender)

variable {ι : Type*} [DecidableEq ι]

/-- A guarded state that lends things: who takes picks a thing that is free, and who gives brings back
one that is out. -/
structure Lends (G : Guarded σ γ δ) (ι : Type*) [DecidableEq ι] where
  free : σ → Finset ι
  out : σ → Finset ι
  lent : γ → ι
  returned : δ → ι
  ready_iff : ∀ s, G.ready s = true ↔ (free s).Nonempty
  take : ∀ {s choice s'}, G.take s choice = some s' → lent choice ∈ free s ∧
    free s' = (free s).erase (lent choice) ∧ out s' = insert (lent choice) (out s)
  give : ∀ {s thing s'}, G.give s thing = some s' → returned thing ∈ out s ∧
    free s' = insert (returned thing) (free s) ∧ out s' = (out s).erase (returned thing)

namespace Lends

variable {L : Lends G ι} {stock : Finset ι}

/-- Everything is free or out, and nothing is both. -/
structure Whole (L : Lends G ι) (stock : Finset ι) (shared : σ) : Prop where
  mem : ∀ i, i ∈ stock ↔ i ∈ L.free shared ∨ i ∈ L.out shared
  apart : ∀ i, i ∈ L.free shared → i ∉ L.out shared

/-- What an action is to the lender. -/
def deal (L : Lends G ι) (d : Discipline) (s : State σ θ) : Action γ δ θ → List (Deal ι)
  | .enter _ choice =>
    if G.ready s.shared then [.lend (L.lent choice)]
    else if d.waits then [] else [.exhausted]
  | .give _ thing => [.restore (L.returned thing)]
  | _ => []

theorem whole_take {shared shared' : σ} {choice : γ} (h : Whole L stock shared)
    (htake : G.take shared choice = some shared') : Whole L stock shared' := by
  obtain ⟨hfree, hfree', hout'⟩ := L.take htake
  constructor
  · intro i
    rw [h.mem, hfree', hout', Finset.mem_erase, Finset.mem_insert]
    by_cases heq : i = L.lent choice
    · subst heq
      simp [hfree]
    · simp [heq]
  · intro i hi
    rw [hfree', Finset.mem_erase] at hi
    rw [hout', Finset.mem_insert, not_or]
    exact ⟨hi.1, h.apart i hi.2⟩

theorem whole_give {shared shared' : σ} {thing : δ} (h : Whole L stock shared)
    (hgive : G.give shared thing = some shared') : Whole L stock shared' := by
  obtain ⟨hout, hfree', hout'⟩ := L.give hgive
  constructor
  · intro i
    rw [h.mem, hfree', hout', Finset.mem_erase, Finset.mem_insert]
    by_cases heq : i = L.returned thing
    · subst heq
      simp [hout]
    · simp [heq]
  · intro i hi
    rw [hfree', Finset.mem_insert] at hi
    rw [hout', Finset.mem_erase, not_and]
    intro hne
    exact h.apart i (hi.resolve_left hne)

/-- A step of the monitor is what the lender does, and keeps the stock whole. -/
theorem step_spec {a : Action γ δ θ} (h : Whole L stock s.shared)
    (hnext : next G d s a = some s') : Whole L stock s'.shared ∧
      (lender stock).Run (L.out s.shared) (L.deal d s a) (L.out s'.shared) := by
  cases a with
  | enter t choice =>
    obtain ⟨-, hnext⟩ := Option.ite_none_left_eq_some.mp hnext
    rw [deal]
    split at hnext
    · rename_i hready
      obtain ⟨shared, htake, rfl⟩ := Option.map_eq_some_iff.mp hnext
      obtain ⟨hfree, -, hout⟩ := L.take htake
      have hlend := Lending.next_lend ((h.mem _).mpr (Or.inl hfree)) (h.apart _ hfree)
      rw [if_pos hready, hout]
      exact ⟨whole_take h htake, .cons hlend (.nil _)⟩
    · rename_i hready
      have hnone : ∀ i, i ∉ L.free s.shared := by
        intro i hi
        exact hready ((L.ready_iff _).mpr ⟨i, hi⟩)
      have hall : stock ⊆ L.out s.shared := by
        intro i hi
        exact ((h.mem i).mp hi).resolve_left (hnone i)
      rw [if_neg hready]
      split at hnext
      · rename_i hwaits
        cases hnext
        rw [if_pos hwaits]
        exact ⟨h, .nil _⟩
      · rename_i hwaits
        cases hnext
        rw [if_neg hwaits]
        exact ⟨h, .cons (Lending.next_exhausted hall) (.nil _)⟩
  | give t thing =>
    obtain ⟨-, hnext⟩ := Option.ite_none_left_eq_some.mp hnext
    obtain ⟨shared, hgive, hs'⟩ := Option.map_eq_some_iff.mp hnext
    have hshared : s'.shared = shared := by
      rw [← hs']
      split <;> rfl
    obtain ⟨hout, -, hout'⟩ := L.give hgive
    rw [hshared, hout', deal]
    exact ⟨whole_give h hgive, .cons (Lending.next_restore hout) (.nil _)⟩
  | broadcast t =>
    obtain ⟨-, hnext⟩ := Option.ite_none_right_eq_some.mp hnext
    cases hnext
    exact ⟨h, .nil _⟩
  | wake t =>
    cases hnext
    exact ⟨h, .nil _⟩

theorem whole_reachable (hinit : ∀ shared, init shared → Whole L stock shared)
    (hreach : (system G d init : System (State σ θ) _).Reachable s) : Whole L stock s.shared := by
  apply hreach.invariant (P := fun s => Whole L stock s.shared)
  · intro t ht
    exact hinit _ ht.1
  · intro t a t' _ h hnext
    exact (step_spec h hnext).1

/-- Who sleeps when nobody owes a wake-up sleeps because everything is out. -/
theorem all_out (hinit : ∀ shared, init shared → Whole L stock shared)
    (hreach : (system G d init).Reachable s) (hsettled : ∀ u, s.owing u = false) {t : θ}
    (hasleep : s.asleep t = true) : L.out s.shared = stock := by
  have hwhole := whole_reachable hinit hreach
  have hnothing := nothing_for_sleepers hreach hsettled hasleep
  have hnone : ∀ i, i ∉ L.free s.shared := by
    intro i hi
    have hready := (L.ready_iff _).mpr ⟨i, hi⟩
    cases hnothing.symm.trans hready
  apply Finset.ext
  intro i
  rw [hwhole.mem]
  constructor
  · intro hi
    exact Or.inr hi
  · intro hi
    exact hi.resolve_left (hnone i)

/-- What the actions of a run are to the lender. -/
def deals (L : Lends G ι) (d : Discipline) : State σ θ → List (Action γ δ θ) → List (Deal ι)
  | _, [] => []
  | s, a :: as =>
    L.deal d s a ++ match next G d s a with
      | some s' => L.deals d s' as
      | none => []

/-- Takers and givers together are a lender. -/
theorem lender_run {as : List (Action γ δ θ)} (h : Whole L stock s.shared)
    (hrun : (system G d init).Run s as s') :
    (lender stock).Run (L.out s.shared) (L.deals d s as) (L.out s'.shared) := by
  induction hrun with
  | nil => exact .nil _
  | @cons s t s' a as hnext _ ih =>
    have hsome : next G d s a = some t := hnext
    obtain ⟨hwhole, hdeal⟩ := step_spec h hsome
    rw [deals, hsome]
    exact hdeal.append (ih hwhole)

end Lends

end Tubekit.Lib.Monitor
