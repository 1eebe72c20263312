import Mathlib.Data.List.Nodup
import Mathlib.Data.Set.Defs
import Mathlib.Logic.ExistsUnique

/-!
# Transition systems

A system has its initial states and, for each action, a step that is taken when the action is
enabled. `Reachable.invariant` is the induction that every safety result goes through, and
`Run` is a finite sequence of actions from a given state.

The second part is about objects that are handed from place to place: under `Custody` every
object is at exactly one place, and a step keeps that when it moves one object and leaves the
others where they are.
-/

namespace Tubekit.Lib.Transition

variable {σ α : Type*}

structure System (σ α : Type*) where
  init : σ → Prop
  next : σ → α → Option σ

namespace System

variable (S : System σ α)

inductive Reachable : σ → Prop
  | start {s : σ} : S.init s → Reachable s
  | step {s s' : σ} (a : α) : Reachable s → S.next s a = some s' → Reachable s'

/-- The actions lead from one state to the other. -/
inductive Run : σ → List α → σ → Prop
  | nil (s : σ) : Run s [] s
  | cons {s s' s'' : σ} {a : α} {as : List α} :
    S.next s a = some s' → Run s' as s'' → Run s (a :: as) s''

/-- Take the actions one after the other. -/
def exec (s : σ) (as : List α) : Option σ := as.foldlM S.next s

/-- `P` holds of every step that the actions take. -/
def Along (P : σ → α → σ → Prop) : σ → List α → Prop
  | _, [] => True
  | s, a :: as => ∀ s', S.next s a = some s' → P s a s' ∧ Along P s' as

variable {S}

theorem Run.of_exec {s s' : σ} {as : List α} (h : S.exec s as = some s') : S.Run s as s' := by
  induction as generalizing s with
  | nil =>
    cases h
    exact .nil _
  | cons a as ih =>
    rw [exec, List.foldlM_cons, Option.bind_eq_bind, Option.bind_eq_some_iff] at h
    obtain ⟨t, hnext, hrest⟩ := h
    exact .cons hnext (ih hrest)

theorem exec_append {s s' : σ} {as bs : List α} (h : S.exec s as = some s') :
    S.exec s (as ++ bs) = S.exec s' bs := by
  rw [exec] at h
  rw [exec, List.foldlM_append, h]
  rfl

theorem Reachable.invariant {P : σ → Prop} (hinit : ∀ s, S.init s → P s)
    (hstep : ∀ s a s', S.Reachable s → P s → S.next s a = some s' → P s') {s : σ}
    (h : S.Reachable s) : P s := by
  induction h with
  | start h => exact hinit _ h
  | step a hs hnext ih => exact hstep _ a _ hs ih hnext

theorem Reachable.run {s s' : σ} {as : List α} (h : S.Reachable s) (hrun : S.Run s as s') :
    S.Reachable s' := by
  induction hrun with
  | nil => exact h
  | cons hnext _ ih => exact ih (h.step _ hnext)

theorem Run.append {s s' s'' : σ} {as bs : List α} (hfirst : S.Run s as s')
    (hsecond : S.Run s' bs s'') : S.Run s (as ++ bs) s'' := by
  induction hfirst with
  | nil => exact hsecond
  | cons hnext _ ih => exact .cons hnext (ih hsecond)

/-- What each step of a run keeps holds at its end. -/
theorem Run.keeps {P : σ → Prop} {s s' : σ} {as : List α} (hrun : S.Run s as s')
    (hreach : S.Reachable s)
    (hstep : ∀ t a t', S.Reachable t → P t → S.next t a = some t' → P t') (h : P s) : P s' := by
  induction hrun with
  | nil => exact h
  | cons hnext _ ih => exact ih (hreach.step _ hnext) (hstep _ _ _ hreach h hnext)

/-- Two properties that agree on the steps from reachable states agree along every run. -/
theorem Reachable.along_congr {P Q : σ → α → σ → Prop}
    (hstep : ∀ t a t', S.Reachable t → S.next t a = some t' → (P t a t' ↔ Q t a t')) {s : σ}
    (h : S.Reachable s) (as : List α) : S.Along P s as ↔ S.Along Q s as := by
  induction as generalizing s with
  | nil => exact Iff.rfl
  | cons a as ih =>
    apply forall_congr'
    intro s'
    apply imp_congr_right
    intro hnext
    exact and_congr (hstep s a s' h hnext) (ih (h.step a hnext))

theorem Along.of_append {P : σ → α → σ → Prop} {s s' : σ} {as bs : List α}
    (h : S.Along P s (as ++ bs)) (hrun : S.Run s as s') : S.Along P s' bs := by
  induction hrun with
  | nil => exact h
  | cons hnext _ ih => exact ih (h _ hnext).2

end System

/-! ## Custody -/

variable {ο π : Type*}

/-- Every object of `objects` is at exactly one place, and there are no others. -/
structure Custody (At : ο → π → Prop) (objects : Set ο) : Prop where
  one : ∀ o ∈ objects, ∃! p, At o p
  known : ∀ o p, At o p → o ∈ objects

/-- The object `o` is moved to `q` and no other object is moved. -/
def Moves (At At' : ο → π → Prop) (o : ο) (q : π) : Prop :=
  ∀ o' p', At' o' p' ↔ (o' = o ∧ p' = q) ∨ (o' ≠ o ∧ At o' p')

namespace Custody

variable {At At' : ο → π → Prop} {objects : Set ο}

theorem unique (h : Custody At objects) {o : ο} {p q : π} (hp : At o p) (hq : At o q) : p = q :=
  (h.one o (h.known o p hp)).unique hp hq

theorem move (h : Custody At objects) {o : ο} {p q : π} (ho : At o p)
    (hmove : Moves At At' o q) : Custody At' objects := by
  refine ⟨fun o' ho' => ?_, fun o' p' hat => ?_⟩
  · by_cases heq : o' = o
    · refine ⟨q, (hmove o' q).mpr (Or.inl ⟨heq, rfl⟩), fun p' hat => ?_⟩
      rcases (hmove o' p').mp hat with ⟨-, hq⟩ | ⟨hne, -⟩
      · exact hq
      · exact absurd heq hne
    · obtain ⟨p', hat, huniq⟩ := h.one o' ho'
      refine ⟨p', (hmove o' p').mpr (Or.inr ⟨heq, hat⟩), fun p'' hat' => ?_⟩
      rcases (hmove o' p'').mp hat' with ⟨heq', -⟩ | ⟨-, hat'⟩
      · exact absurd heq' heq
      · exact huniq p'' hat'
  · rcases (hmove o' p').mp hat with ⟨rfl, -⟩ | ⟨-, hat'⟩
    · exact h.known _ p ho
    · exact h.known o' p' hat'

/-- Nothing is moved. -/
theorem stay (h : Custody At objects) (hsame : ∀ o p, At' o p ↔ At o p) : Custody At' objects := by
  have heq : At' = At := funext fun o => funext fun p => propext (hsame o p)
  rw [heq]
  exact h

end Custody

/-- The list has, once each, the objects that are at a place of the kind `C`. -/
structure Tally (At : ο → π → Prop) (C : π → Prop) (l : List ο) : Prop where
  nodup : l.Nodup
  mem : ∀ o, o ∈ l ↔ ∃ p, At o p ∧ C p

namespace Tally

variable {At At' : ο → π → Prop} {objects : Set ο} {C : π → Prop} {l : List ο} {o : ο} {p q : π}

theorem mem_iff (h : Tally At C l) (hc : Custody At objects) (ho : At o p) : o ∈ l ↔ C p := by
  rw [h.mem]
  constructor
  · rintro ⟨p', hp', hC⟩
    rw [hc.unique ho hp']
    exact hC
  · exact fun hC => ⟨p, ho, hC⟩

theorem count_of_at [DecidableEq ο] (h : Tally At C l) (hc : Custody At objects) (ho : At o p)
    (hC : C p) : l.count o = 1 :=
  List.count_eq_one_of_mem h.nodup ((h.mem_iff hc ho).mpr hC)

theorem count_of_not_at [DecidableEq ο] (h : Tally At C l) (hc : Custody At objects) (ho : At o p)
    (hC : ¬C p) : l.count o = 0 :=
  List.count_eq_zero_of_not_mem fun hin => hC ((h.mem_iff hc ho).mp hin)

theorem stay (h : Tally At C l) (hsame : ∀ o p, At' o p ↔ At o p) : Tally At' C l :=
  ⟨h.nodup, fun o => (h.mem o).trans (exists_congr fun p => and_congr_left' (hsame o p).symm)⟩

/-- An object that stays among the places of the kind, or outside of them. -/
theorem same (h : Tally At C l) (hc : Custody At objects) (ho : At o p)
    (hmove : Moves At At' o q) (hC : C p ↔ C q) : Tally At' C l := by
  refine ⟨h.nodup, fun o' => ?_⟩
  by_cases heq : o' = o
  · subst heq
    rw [h.mem_iff hc ho, hC]
    constructor
    · exact fun hq => ⟨q, (hmove o' q).mpr (Or.inl ⟨rfl, rfl⟩), hq⟩
    · rintro ⟨p', hp', hCp'⟩
      rcases (hmove o' p').mp hp' with ⟨-, rfl⟩ | ⟨hne, -⟩
      · exact hCp'
      · exact absurd rfl hne
  · rw [h.mem]
    refine exists_congr fun p' => and_congr_left' ?_
    rw [hmove]
    simp [heq]

/-- An object that reaches a place of the kind is added. -/
theorem gain (h : Tally At C l) (hc : Custody At objects) (ho : At o p)
    (hmove : Moves At At' o q) (hp : ¬C p) (hq : C q) : Tally At' C (l ++ [o]) := by
  have hnot : o ∉ l := fun hin => hp ((h.mem_iff hc ho).mp hin)
  refine ⟨?_, fun o' => ?_⟩
  · rw [List.nodup_append]
    refine ⟨h.nodup, by simp, fun a ha b hb heq => hnot ?_⟩
    rw [List.mem_singleton] at hb
    rw [← hb, ← heq]
    exact ha
  · rw [List.mem_append, List.mem_singleton]
    by_cases heq : o' = o
    · subst heq
      exact ⟨fun _ => ⟨q, (hmove o' q).mpr (Or.inl ⟨rfl, rfl⟩), hq⟩, fun _ => Or.inr rfl⟩
    · rw [h.mem]
      simp only [heq, or_false]
      refine exists_congr fun p' => and_congr_left' ?_
      rw [hmove]
      simp [heq]

end Tally

end Tubekit.Lib.Transition
