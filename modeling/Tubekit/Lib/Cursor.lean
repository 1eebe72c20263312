import Mathlib.Algebra.Ring.Nat
import Tubekit.Lib.Scan

/-!
# Parsers that move an index

`Cursor` is the control flow of a parser that keeps a text and an index into it: statements one
after the other, exceptions, loops. It keeps a list of what the parser does, each character that
it reads, each value that it gives to its index, and each call that returns, so that a bound on
the indexes is a statement about the program and not about what it returns.

`Runs good x s i r` says that `x`, at index `i` of `s`, comes to `r` and does only what `good`
allows. It has one rule for each form of statement.
-/

namespace Tubekit.Lib

open Scan

/-- The parser reads the character at an index, sets its index, or returns from a call. -/
inductive Touch where
  | read (i : Nat)
  | move (i : Nat)
  | call (start stop : Nat)
  deriving DecidableEq

/-- What was done, the index then, and what was returned or thrown. -/
structure Traced (ε α : Type) where
  touches : List Touch
  idx : Nat
  result : Except ε α

namespace Traced

variable {ε α β γ : Type} {t : Traced ε α} {a : α} {e : ε} {j : Nat}

/-- The value with the index, or the exception. -/
def value (t : Traced ε α) : Except ε (α × Nat) :=
  match t.result with
  | .error e => .error e
  | .ok a => .ok (a, t.idx)

def andThen (t : Traced ε α) (next : α → Nat → Traced ε β) : Traced ε β :=
  match t with
  | ⟨touches, j, .error e⟩ => ⟨touches, j, .error e⟩
  | ⟨touches, j, .ok a⟩ => ⟨touches ++ (next a j).touches, (next a j).idx, (next a j).result⟩

theorem result_eq (t : Traced ε α) :
    t.result = match t.value with
      | .error e => .error e
      | .ok (a, _) => .ok a := by
  obtain ⟨touches, idx, result⟩ := t
  cases result with
  | error e => rfl
  | ok a => rfl

theorem andThen_assoc (t : Traced ε α) (next : α → Nat → Traced ε β) (last : β → Nat → Traced ε γ) :
    (t.andThen next).andThen last = t.andThen fun a j => (next a j).andThen last := by
  obtain ⟨touches, idx, result⟩ := t
  cases result with
  | error e => rfl
  | ok a =>
    simp only [andThen]
    generalize next a idx = u
    obtain ⟨touches', idx', result'⟩ := u
    cases result' with
    | error e => rfl
    | ok b => simp

theorem andThen_ok (next : α → Nat → Traced ε β) (h : t.value = .ok (a, j)) :
    (t.andThen next).value = (next a j).value ∧
      (t.andThen next).touches = t.touches ++ (next a j).touches := by
  obtain ⟨touches, idx, result⟩ := t
  cases result with
  | error e => cases h
  | ok b =>
    cases h
    exact ⟨rfl, rfl⟩

theorem andThen_error (next : α → Nat → Traced ε β) (h : t.value = .error e) :
    (t.andThen next).value = .error e ∧ (t.andThen next).touches = t.touches := by
  obtain ⟨touches, idx, result⟩ := t
  cases result with
  | error e' =>
    cases h
    exact ⟨rfl, rfl⟩
  | ok b => cases h

end Traced

def Cursor (ε α : Type) : Type := List UInt8 → Nat → Traced ε α

namespace Cursor

variable {ε α β γ σ : Type}

instance : Monad (Cursor ε) where
  pure a := fun _ i => ⟨[], i, .ok a⟩
  bind x f := fun s i => (x s i).andThen fun a j => f a s j

def raise (e : ε) : Cursor ε α := fun _ i => ⟨[], i, .error e⟩

def index : Cursor ε Nat := fun _ i => ⟨[], i, .ok i⟩

def size : Cursor ε Nat := fun s i => ⟨[], i, .ok s.length⟩

/-- `s[k]` of a `std::string`. -/
def char (k : Nat) : Cursor ε UInt8 := fun s i => ⟨[.read k], i, .ok (charAt s k)⟩

def setIndex (k : Nat) : Cursor ε Unit := fun _ _ => ⟨[.move k], k, .ok ()⟩

/-- `s[idx]`. -/
def peek : Cursor ε UInt8 := do char (← index)

/-- `idx += n`. -/
def advance (n : Nat) : Cursor ε Unit := do setIndex ((← index) + n)

/-- `s[idx++]`. -/
def take : Cursor ε UInt8 := do
  let ch ← peek
  advance 1
  pure ch

/-- `idx--` of a `size_t`. -/
def decrement : Cursor ε Unit := do
  let i ← index
  setIndex (if i = 0 then 2 ^ 64 - 1 else i - 1)

/-- `s.compare(idx, text.size(), text) == 0`, which throws behind the end of the text. -/
def compare (outOfRange : ε) (text : List UInt8) : Cursor ε Bool := fun s i =>
  if s.length < i then ⟨[], i, .error outOfRange⟩
  else ⟨(List.range' i (min text.length (s.length - i))).map .read, i, .ok (occursAt s text i)⟩

/-- `s.c_str() + pos`, for a function that reads on to the terminating zero at most. -/
def textFrom (pos : Nat) : Cursor ε (List UInt8) := fun s i =>
  ⟨(List.range' pos (s.length + 1 - pos)).map .read, i, .ok (s.drop pos)⟩

/-- A call that is noted when it returns. -/
def call (x : Cursor ε α) : Cursor ε α := fun s i =>
  (x s i).andThen fun a j => ⟨[.call i j], j, .ok a⟩

/-- At most `n` rounds of a loop. A round gives what the next one begins with or what the loop
ends with. -/
def rounds (stuck : ε) (body : σ → Cursor ε (σ ⊕ α)) : Nat → σ → Cursor ε α
  | 0, _ => raise stuck
  | n + 1, x => do
    match ← body x with
    | .inl y => rounds stuck body n y
    | .inr a => pure a

/-- A loop with more rounds than the text has characters. -/
def iterate (stuck : ε) (body : σ → Cursor ε (σ ⊕ α)) (x : σ) : Cursor ε α := fun s i =>
  rounds stuck body (s.length + 1) x s i

/-- `while (p(s[idx])) idx++`. -/
def skip (stuck : ε) (p : UInt8 → Bool) : Cursor ε Unit :=
  iterate stuck (fun _ => do
    if p (← peek) then
      advance 1
      pure (.inl ())
    else pure (.inr ())) ()

/-! ## What a program comes to -/

structure Runs (good : Touch → Prop) (x : Cursor ε α) (s : List UInt8) (i : Nat)
    (r : Except ε (α × Nat)) : Prop where
  value : (x s i).value = r
  touches : ∀ t ∈ (x s i).touches, good t

namespace Runs

variable {good : Touch → Prop} {s : List UInt8} {i j k n : Nat} {x : Cursor ε α}
  {f : α → Cursor ε β} {g : β → Cursor ε γ} {a : α} {e : ε} {r : Except ε (α × Nat)}
  {q : Except ε (β × Nat)}

theorem pure : Runs good (Pure.pure a : Cursor ε α) s i (.ok (a, i)) := ⟨rfl, by rintro t ⟨⟩⟩

theorem raise : Runs good (Cursor.raise e : Cursor ε α) s i (.error e) := ⟨rfl, by rintro t ⟨⟩⟩

theorem index : Runs good (Cursor.index : Cursor ε Nat) s i (.ok (i, i)) := ⟨rfl, by rintro t ⟨⟩⟩

theorem size : Runs good (Cursor.size : Cursor ε Nat) s i (.ok (s.length, i)) :=
  ⟨rfl, by rintro t ⟨⟩⟩

theorem char (h : good (.read k)) :
    Runs good (Cursor.char k : Cursor ε UInt8) s i (.ok (charAt s k, i)) := by
  refine ⟨rfl, ?_⟩
  intro t ht
  rw [List.mem_singleton.mp ht]
  exact h

theorem setIndex (h : good (.move k)) :
    Runs good (Cursor.setIndex k : Cursor ε Unit) s i (.ok ((), k)) := by
  refine ⟨rfl, ?_⟩
  intro t ht
  rw [List.mem_singleton.mp ht]
  exact h

theorem bind (hx : Runs good x s i (.ok (a, j))) (hf : Runs good (f a) s j q) :
    Runs good (x >>= f) s i q := by
  obtain ⟨hvalue, htouches⟩ := (x s i).andThen_ok (fun a j => f a s j) hx.value
  refine ⟨hvalue.trans hf.value, ?_⟩
  intro t ht
  rcases List.mem_append.mp (htouches ▸ ht) with ht | ht
  · exact hx.touches t ht
  · exact hf.touches t ht

theorem bind_error (hx : Runs good x s i (.error e)) : Runs good (x >>= f) s i (.error e) := by
  obtain ⟨hvalue, htouches⟩ := (x s i).andThen_error (fun a j => f a s j) hx.value
  refine ⟨hvalue, ?_⟩
  intro t ht
  exact hx.touches t (htouches ▸ ht)

/-- Whatever the first statement comes to. -/
theorem bind_cases (hx : Runs good x s i r) (herror : ∀ e, r = .error e → q = .error e)
    (hok : ∀ a j, r = .ok (a, j) → Runs good (f a) s j q) : Runs good (x >>= f) s i q := by
  cases r with
  | error e =>
    rw [herror e rfl]
    exact bind_error hx
  | ok p => exact bind hx (hok _ _ rfl)

theorem assoc {q : Except ε (γ × Nat)} (h : Runs good (x >>= fun a => f a >>= g) s i q) :
    Runs good ((x >>= f) >>= g) s i q := by
  have hassoc : ((x >>= f) >>= g) s i = (x >>= fun a => f a >>= g) s i :=
    (x s i).andThen_assoc (fun a j => f a s j) (fun b j => g b s j)
  constructor
  · rw [hassoc]
    exact h.value
  · rw [hassoc]
    exact h.touches

theorem call_ok (hx : Runs good x s i (.ok (a, j))) (h : good (.call i j)) :
    Runs good (Cursor.call x) s i (.ok (a, j)) := by
  obtain ⟨hvalue, htouches⟩ :=
    (x s i).andThen_ok (fun a j => ⟨[.call i j], j, .ok a⟩) hx.value
  refine ⟨hvalue, ?_⟩
  intro t ht
  rcases List.mem_append.mp (htouches ▸ ht) with ht | ht
  · exact hx.touches t ht
  · rw [List.mem_singleton.mp ht]
    exact h

theorem call_error (hx : Runs good x s i (.error e)) :
    Runs good (Cursor.call x) s i (.error e) := by
  obtain ⟨hvalue, htouches⟩ :=
    (x s i).andThen_error (fun a j => ⟨[.call i j], j, .ok a⟩) hx.value
  refine ⟨hvalue, ?_⟩
  intro t ht
  exact hx.touches t (htouches ▸ ht)

/-- Either branch of a test. -/
theorem ite {P : Prop} [Decidable P] {y : Cursor ε α} {r' : Except ε (α × Nat)}
    (hx : P → Runs good x s i r) (hy : ¬P → Runs good y s i r') :
    Runs good (if P then x else y) s i (if P then r else r') := by
  by_cases h : P
  · rw [if_pos h, if_pos h]
    exact hx h
  · rw [if_neg h, if_neg h]
    exact hy h

theorem peek (h : good (.read i)) :
    Runs good (Cursor.peek : Cursor ε UInt8) s i (.ok (charAt s i, i)) := bind index (char h)

theorem advance (h : good (.move (i + n))) :
    Runs good (Cursor.advance n : Cursor ε Unit) s i (.ok ((), i + n)) := bind index (setIndex h)

theorem take (hread : good (.read i)) (hmove : good (.move (i + 1))) :
    Runs good (Cursor.take : Cursor ε UInt8) s i (.ok (charAt s i, i + 1)) :=
  bind (peek hread) (bind (advance hmove) pure)

/-- Either branch of a test, with statements behind it. -/
theorem ite_bind {P : Prop} [Decidable P] {y : Cursor ε α} {q' : Except ε (β × Nat)}
    (hx : P → Runs good (x >>= f) s i q) (hy : ¬P → Runs good (y >>= f) s i q') :
    Runs good ((if P then x else y) >>= f) s i (if P then q else q') := by
  by_cases h : P
  · rw [if_pos h, if_pos h]
    exact hx h
  · rw [if_neg h, if_neg h]
    exact hy h

theorem decrement (hi : 0 < i) (h : good (.move (i - 1))) :
    Runs good (Cursor.decrement : Cursor ε Unit) s i (.ok ((), i - 1)) := by
  apply bind index
  rw [if_neg (Nat.ne_of_gt hi)]
  exact setIndex h

theorem compare {text : List UInt8} (hi : i ≤ s.length) (h : ∀ k ≤ s.length, good (.read k)) :
    Runs good (Cursor.compare e text) s i (.ok (occursAt s text i, i)) := by
  have hnot : ¬s.length < i := Nat.not_lt.mpr hi
  constructor
  · rw [Cursor.compare, if_neg hnot]
    rfl
  · intro t ht
    rw [Cursor.compare, if_neg hnot] at ht
    obtain ⟨k, hk, rfl⟩ := List.mem_map.mp ht
    rw [List.mem_range'_1] at hk
    exact h k (by omega)

theorem textFrom (h : ∀ k ≤ s.length, good (.read k)) :
    Runs good (Cursor.textFrom k : Cursor ε (List UInt8)) s i (.ok (s.drop k, i)) := by
  refine ⟨rfl, ?_⟩
  intro t ht
  obtain ⟨l, hl, rfl⟩ := List.mem_map.mp ht
  rw [List.mem_range'_1] at hl
  exact h l (by omega)

/-! ### Loops -/

variable {body : σ → Cursor ε (σ ⊕ α)} {y z : σ}

theorem rounds_next (hbody : Runs good (body y) s i (.ok (.inl z, j)))
    (hrest : Runs good (rounds e body n z) s j r) : Runs good (rounds e body (n + 1) y) s i r :=
  bind hbody hrest

theorem rounds_last (hbody : Runs good (body y) s i (.ok (.inr a, j))) :
    Runs good (rounds e body (n + 1) y) s i (.ok (a, j)) := bind hbody pure

theorem rounds_error {e' : ε} (hbody : Runs good (body y) s i (.error e')) :
    Runs good (rounds e body (n + 1) y) s i (.error e') := bind_error hbody

theorem iterate (h : Runs good (rounds e body (s.length + 1) y) s i r) :
    Runs good (Cursor.iterate e body y) s i r := ⟨h.value, h.touches⟩

/-- A loop that moves on over the characters with `p`, to the end of the text at most. -/
theorem iterate_skip {p : UInt8 → Bool} {body : Unit → Cursor ε (Unit ⊕ Unit)}
    (hgo : ∀ j < s.length, p (charAt s j) = true →
      Runs good (body ()) s j (.ok (.inl (), j + 1)))
    (hstay : ∀ j ≤ s.length, ¬(j < s.length ∧ p (charAt s j) = true) →
      Runs good (body ()) s j (.ok (.inr (), j))) (hi : i ≤ s.length) :
    Runs good (Cursor.iterate e body ()) s i (.ok ((), skipWhile p s i)) := by
  apply iterate
  have hrounds : ∀ n j, j ≤ s.length → s.length - j < n →
      Runs good (rounds e body n ()) s j (.ok ((), skipWhile p s j)) := by
    intro n
    induction n with
    | zero => omega
    | succ n ih =>
      intro j hj hn
      by_cases h : j < s.length ∧ p (charAt s j) = true
      · rw [skipWhile_go h.1 h.2]
        exact rounds_next (hgo j h.1 h.2) (ih (j + 1) h.1 (by omega))
      · rw [skipWhile_stay h]
        exact rounds_last (hstay j hj h)
  exact hrounds _ i hi (by omega)

theorem skip {p : UInt8 → Bool} (hzero : p 0 = false) (hread : ∀ k ≤ s.length, good (.read k))
    (hmove : ∀ k ≤ s.length, good (.move k)) (hi : i ≤ s.length) :
    Runs good (Cursor.skip e p) s i (.ok ((), skipWhile p s i)) := by
  apply iterate_skip _ _ hi
  · intro j hj hp
    apply bind (peek (hread j (Nat.le_of_lt hj)))
    rw [if_pos hp]
    exact bind (advance (hmove (j + 1) hj)) pure
  · intro j hj hstop
    have hp : ¬p (charAt s j) = true := by
      intro hp
      apply hstop ⟨lt_of_charAt _, hp⟩
      intro h0
      rw [h0, hzero] at hp
      cases hp
    apply bind (peek (hread j hj))
    rw [if_neg hp]
    exact pure

end Runs

end Cursor

end Tubekit.Lib
