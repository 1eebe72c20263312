import Mathlib.Data.List.Basic

/-!
# Machines that ask

A machine takes turns. In a turn it goes on by itself, it asks and goes on as it is answered, or it
is done. Every turn lowers a rank, so it is done in the end, whatever it is answered; `run` is what
becomes of it and of the state of the one who answers.

`Leads` is that it comes from one state to another where every answer is the same one, which stands
for `go on`.
-/

namespace Tubekit.Lib

inductive Turn (σ ε α ρ : Type*) where
  | pass (s : σ)
  | ask (question : ε) (next : α → σ)
  | done (result : ρ)

structure Dialogue (σ ε α ρ : Type*) where
  turn : σ → Turn σ ε α ρ
  rank : σ → Nat
  pass_lt : ∀ {s s'}, turn s = .pass s' → rank s' < rank s
  ask_lt : ∀ {s e next}, turn s = .ask e next → ∀ a, rank (next a) < rank s

namespace Dialogue

variable {σ ε α ρ γ : Type*} (D : Dialogue σ ε α ρ)

def runFor (on : γ → ε → α × γ) : Nat → γ → σ → Option (γ × ρ)
  | 0, _, _ => none
  | n + 1, c, s =>
    match D.turn s with
    | .pass s' => runFor on n c s'
    | .ask e next => runFor on n (on c e).2 (next (on c e).1)
    | .done r => some (c, r)

variable {D} {s s' s'' : σ} {e : ε} {next : α → σ} {r : ρ} {on : γ → ε → α × γ}

/-- What every turn hands back from the state behind it holds everywhere. -/
theorem induction {P : σ → Prop} (pass : ∀ s s', D.turn s = .pass s' → P s' → P s)
    (ask : ∀ s e next, D.turn s = .ask e next → (∀ a, P (next a)) → P s)
    (done : ∀ s r, D.turn s = .done r → P s) (s : σ) : P s := by
  induction h : D.rank s using Nat.strongRecOn generalizing s with
  | ind n ih =>
    cases hturn : D.turn s with
    | pass s' => exact pass s s' hturn (ih _ (h ▸ D.pass_lt hturn) s' rfl)
    | ask e next => exact ask s e next hturn fun a => ih _ (h ▸ D.ask_lt hturn a) (next a) rfl
    | done r => exact done s r hturn

theorem runFor_eq (on : γ → ε → α × γ) {m n : Nat} (c : γ) (s : σ) (hm : D.rank s < m)
    (hn : D.rank s < n) : D.runFor on m c s = D.runFor on n c s := by
  induction s using D.induction generalizing m n c with
  | pass s s' hturn ih =>
    have hlt := D.pass_lt hturn
    obtain ⟨m, rfl⟩ := Nat.exists_eq_add_one_of_ne_zero (Nat.ne_of_gt (Nat.zero_lt_of_lt hm))
    obtain ⟨n, rfl⟩ := Nat.exists_eq_add_one_of_ne_zero (Nat.ne_of_gt (Nat.zero_lt_of_lt hn))
    rw [runFor, runFor, hturn]
    exact ih c (by omega) (by omega)
  | ask s e next hturn ih =>
    have hlt := D.ask_lt hturn (on c e).1
    obtain ⟨m, rfl⟩ := Nat.exists_eq_add_one_of_ne_zero (Nat.ne_of_gt (Nat.zero_lt_of_lt hm))
    obtain ⟨n, rfl⟩ := Nat.exists_eq_add_one_of_ne_zero (Nat.ne_of_gt (Nat.zero_lt_of_lt hn))
    rw [runFor, runFor, hturn]
    exact ih _ _ (by omega) (by omega)
  | done s r hturn =>
    obtain ⟨m, rfl⟩ := Nat.exists_eq_add_one_of_ne_zero (Nat.ne_of_gt (Nat.zero_lt_of_lt hm))
    obtain ⟨n, rfl⟩ := Nat.exists_eq_add_one_of_ne_zero (Nat.ne_of_gt (Nat.zero_lt_of_lt hn))
    rw [runFor, runFor, hturn]

theorem runFor_isSome (on : γ → ε → α × γ) {n : Nat} (c : γ) (s : σ) (h : D.rank s < n) :
    (D.runFor on n c s).isSome := by
  induction s using D.induction generalizing n c with
  | pass s s' hturn ih =>
    have hlt := D.pass_lt hturn
    obtain ⟨n, rfl⟩ := Nat.exists_eq_add_one_of_ne_zero (Nat.ne_of_gt (Nat.zero_lt_of_lt h))
    rw [runFor, hturn]
    exact ih c (by omega)
  | ask s e next hturn ih =>
    have hlt := D.ask_lt hturn (on c e).1
    obtain ⟨n, rfl⟩ := Nat.exists_eq_add_one_of_ne_zero (Nat.ne_of_gt (Nat.zero_lt_of_lt h))
    rw [runFor, hturn]
    exact ih _ _ (by omega)
  | done s r hturn =>
    obtain ⟨n, rfl⟩ := Nat.exists_eq_add_one_of_ne_zero (Nat.ne_of_gt (Nat.zero_lt_of_lt h))
    rw [runFor, hturn]
    rfl

/-- The state of the one who answers, and the result. -/
def run (D : Dialogue σ ε α ρ) (on : γ → ε → α × γ) (c : γ) (s : σ) : γ × ρ :=
  (D.runFor on (D.rank s + 1) c s).get (runFor_isSome on c s (Nat.lt_succ_self _))

theorem runFor_run (on : γ → ε → α × γ) (c : γ) (s : σ) :
    D.runFor on (D.rank s + 1) c s = some (D.run on c s) := (Option.some_get _).symm

theorem run_pass (h : D.turn s = .pass s') (c : γ) : D.run on c s = D.run on c s' := by
  apply Option.some_inj.mp
  rw [← runFor_run, ← runFor_run, runFor, h]
  exact runFor_eq on c s' (D.pass_lt h) (Nat.lt_succ_self _)

theorem run_ask (h : D.turn s = .ask e next) (c : γ) :
    D.run on c s = D.run on (on c e).2 (next (on c e).1) := by
  apply Option.some_inj.mp
  rw [← runFor_run, ← runFor_run, runFor, h]
  exact runFor_eq on _ _ (D.ask_lt h _) (Nat.lt_succ_self _)

theorem run_done (h : D.turn s = .done r) (c : γ) : D.run on c s = (c, r) := by
  apply Option.some_inj.mp
  rw [← runFor_run, runFor, h]

/-- What the turns keep, whatever is answered, the result comes from. -/
theorem run_keeps {P : σ → Prop} {Q : ρ → Prop}
    (pass : ∀ s s', P s → D.turn s = .pass s' → P s')
    (ask : ∀ s e next a, P s → D.turn s = .ask e next → P (next a))
    (done : ∀ s r, P s → D.turn s = .done r → Q r) (hs : P s) (c : γ) : Q (D.run on c s).2 := by
  induction s using D.induction generalizing c with
  | pass s s' hturn ih =>
    rw [run_pass hturn]
    exact ih (pass s s' hs hturn) c
  | ask s e next hturn ih =>
    rw [run_ask hturn]
    exact ih _ (ask s e next _ hs hturn) _
  | done s r hturn =>
    rw [run_done hturn]
    exact done s r hs hturn

/-! ## One answer to everything -/

/-- What is asked, where everything is answered `a`, and the result then. -/
def asked (D : Dialogue σ ε α ρ) (a : α) (s : σ) : List ε :=
  (D.run (fun log e => (a, log ++ [e])) [] s).1

def result (D : Dialogue σ ε α ρ) (a : α) (s : σ) : ρ := (D.run (fun (_ : Unit) _ => (a, ())) () s).2

variable {a : α}

theorem run_log (log : List ε) (s : σ) :
    D.run (fun log e => (a, log ++ [e])) log s = (log ++ D.asked a s, D.result a s) := by
  have hlog : ∀ log, D.run (fun log e => (a, log ++ [e])) log s =
      (log ++ (D.run (fun log e => (a, log ++ [e])) [] s).1, D.result a s) := by
    induction s using D.induction with
    | pass s s' hturn ih =>
      intro log
      rw [result, run_pass hturn, run_pass hturn, run_pass hturn]
      exact ih log
    | ask s e next hturn ih =>
      intro log
      rw [result, run_ask hturn, run_ask hturn, run_ask hturn, ih, ih a ([] ++ [e]), List.nil_append,
        List.append_assoc, result]
    | done s r hturn =>
      intro log
      rw [result, run_done hturn, run_done hturn, run_done hturn, List.append_nil]
  exact hlog log

theorem asked_pass (h : D.turn s = .pass s') : D.asked a s = D.asked a s' := by
  rw [asked, run_pass h, asked]

theorem asked_ask (h : D.turn s = .ask e next) : D.asked a s = e :: D.asked a (next a) := by
  rw [asked, run_ask h, run_log]
  rfl

theorem asked_done (h : D.turn s = .done r) : D.asked a s = [] := by
  rw [asked, run_done h]

theorem result_pass (h : D.turn s = .pass s') : D.result a s = D.result a s' := by
  rw [result, run_pass h, result]

theorem result_ask (h : D.turn s = .ask e next) : D.result a s = D.result a (next a) := by
  rw [result, run_ask h, result]

theorem result_done (h : D.turn s = .done r) : D.result a s = r := by
  rw [result, run_done h]

/-- It asks these questions first, and then what it asks there, with the same result. -/
structure Leads (D : Dialogue σ ε α ρ) (a : α) (s : σ) (es : List ε) (s' : σ) : Prop where
  asked : D.asked a s = es ++ D.asked a s'
  result : D.result a s = D.result a s'

namespace Leads

variable {es es' : List ε}

theorem refl (s : σ) : D.Leads a s [] s := ⟨rfl, rfl⟩

theorem pass (h : D.turn s = .pass s') (h' : D.Leads a s' es s'') : D.Leads a s es s'' :=
  ⟨(asked_pass h).trans h'.asked, (result_pass h).trans h'.result⟩

theorem ask (h : D.turn s = .ask e next) (h' : D.Leads a (next a) es s'') :
    D.Leads a s (e :: es) s'' := by
  refine ⟨?_, (result_ask h).trans h'.result⟩
  rw [asked_ask h, h'.asked, List.cons_append]

theorem trans (h : D.Leads a s es s') (h' : D.Leads a s' es' s'') :
    D.Leads a s (es ++ es') s'' := by
  refine ⟨?_, h.result.trans h'.result⟩
  rw [h.asked, h'.asked, List.append_assoc]

/-- All that counts is the turn. -/
theorem of_turn_eq (h : D.turn s = D.turn s') : D.Leads a s [] s' := by
  cases hturn : D.turn s' with
  | pass s'' =>
    have hs := h.trans hturn
    exact ⟨(asked_pass hs).trans (asked_pass hturn).symm,
      (result_pass hs).trans (result_pass hturn).symm⟩
  | ask e next =>
    have hs := h.trans hturn
    exact ⟨(asked_ask hs).trans (asked_ask hturn).symm,
      (result_ask hs).trans (result_ask hturn).symm⟩
  | done r =>
    have hs := h.trans hturn
    exact ⟨(asked_done hs).trans (asked_done hturn).symm,
      (result_done hs).trans (result_done hturn).symm⟩

end Leads

end Dialogue

end Tubekit.Lib
