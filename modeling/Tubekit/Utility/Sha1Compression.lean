import Mathlib.Logic.Function.Iterate
import Tubekit.Utility.Sha1

/-!
# `transform` is the compression function

The unrolled calls rename the variables instead of moving the words. After `t` calls the word that
the standard calls `a` is in the variable `turn t .a`, and so are the others; the ring has the last
sixteen words of the schedule. From this, call `t` of `transform` is step `t` of the standard.
-/

namespace Tubekit

open Lib SecureHash

/-! ## Words -/

theorem eq_of_bits {x y : UInt32}
    (h : ∀ i, i < 32 → x.toBitVec.getLsbD i = y.toBitVec.getLsbD i) : x = y := by
  apply UInt32.eq_of_toBitVec_eq
  apply BitVec.eq_of_getLsbD_eq
  intro i hi
  exact h i hi

theorem choose_eq (w x y : UInt32) : (w &&& (x ^^^ y)) ^^^ y = choose w x y := by
  apply eq_of_bits
  intro i hi
  simp only [choose, UInt32.toBitVec_xor, UInt32.toBitVec_and, UInt32.toBitVec_not,
    BitVec.getLsbD_xor, BitVec.getLsbD_and, BitVec.getLsbD_not, hi, decide_true, Bool.true_and]
  cases w.toBitVec.getLsbD i <;> cases x.toBitVec.getLsbD i <;> cases y.toBitVec.getLsbD i <;> rfl

theorem majority_eq (w x y : UInt32) : ((w ||| x) &&& y) ||| (w &&& x) = majority w x y := by
  apply eq_of_bits
  intro i _
  simp only [majority, UInt32.toBitVec_xor, UInt32.toBitVec_and, UInt32.toBitVec_or,
    BitVec.getLsbD_xor, BitVec.getLsbD_and, BitVec.getLsbD_or]
  cases w.toBitVec.getLsbD i <;> cases x.toBitVec.getLsbD i <;> cases y.toBitVec.getLsbD i <;> rfl

theorem rol_one (x : UInt32) : rol x 1 = rotl x 1 := rfl

theorem rol_five (x : UInt32) : rol x 5 = rotl x 5 := rfl

theorem rol_thirty (x : UInt32) : rol x 30 = rotl x 30 := rfl

/-! ## The names of the variables -/

namespace Sha1Var

/-- The variable that the next call names like this one. -/
def next : Sha1Var → Sha1Var
  | .a => .e
  | .b => .a
  | .c => .b
  | .d => .c
  | .e => .d

theorem next_injective : Function.Injective next := by
  intro v w h
  cases v <;> cases w <;> first | rfl | cases h

/-- What call `t` has in the place of a variable of the first call. -/
def turn (t : Nat) (v : Sha1Var) : Sha1Var := next^[t] v

theorem turn_succ (t : Nat) (v : Sha1Var) : turn (t + 1) v = turn t v.next := rfl

theorem turn_ne (t : Nat) {v w : Sha1Var} (h : v ≠ w) : turn t v ≠ turn t w :=
  (next_injective.iterate t).ne h

end Sha1Var

open Sha1Var

namespace Sha1Call

/-- The operation of call `t`. -/
def opAt (t : Nat) : Sha1Op :=
  if t < 16 then .R0
  else if t < 20 then .R1
  else if t < 40 then .R2
  else if t < 60 then .R3
  else .R4

/-- Call `t`. -/
def regular (t : Nat) : Sha1Call where
  op := opAt t
  v := turn t .a
  w := turn t .b
  x := turn t .c
  y := turn t .d
  z := turn t .e
  i := ring t

/-- The unrolled calls are regular. -/
theorem unrolled_eq : unrolled = (List.range 80).map regular := by decide

end Sha1Call

namespace Sha1Locals

/-- The ring with the word of call `t` in it. -/
def advance (t : Nat) (s : Sha1Locals) : Sha1Locals :=
  if t < 16 then s else s.extend (ring t)

/-- Every call extends the schedule and mixes with the function and the constant of the step. -/
theorem run_regular (t : Nat) (s : Sha1Locals) :
    (Sha1Call.regular t).run s = (s.advance t).mix (function t) (constant t) (turn t .a)
      (turn t .b) (turn t .c) (turn t .d) (turn t .e) (ring t) := by
  have hchoose : (fun w x y : UInt32 => (w &&& (x ^^^ y)) ^^^ y) = choose := by
    funext w x y
    exact choose_eq w x y
  have hmajority : (fun w x y : UInt32 => ((w ||| x) &&& y) ||| (w &&& x)) = majority := by
    funext w x y
    exact majority_eq w x y
  have hparity : (fun w x y : UInt32 => w ^^^ x ^^^ y) = parity := rfl
  simp only [Sha1Call.run, Sha1Call.regular, Sha1Call.opAt, advance, function, constant]
  by_cases h16 : t < 16
  · have h20 : t < 20 := by omega
    simp only [if_pos h16, if_pos h20, R0, hchoose]
  by_cases h20 : t < 20
  · simp only [if_neg h16, if_pos h20, R1, hchoose]
  by_cases h40 : t < 40
  · simp only [if_neg h16, if_neg h20, if_pos h40, R2, hparity]
  by_cases h60 : t < 60
  · simp only [if_neg h16, if_neg h20, if_neg h40, if_pos h60, R3, hmajority]
  · simp only [if_neg h16, if_neg h20, if_neg h40, if_neg h60, R4, hparity]

/-! ## The words in the variables -/

/-- The words under the names of call `t`. -/
def seen (t : Nat) (s : Sha1Locals) : Digest :=
  ⟨s.vars (turn t .a), s.vars (turn t .b), s.vars (turn t .c), s.vars (turn t .d),
    s.vars (turn t .e)⟩

@[simp] theorem seen_advance (t n : Nat) (s : Sha1Locals) : seen t (s.advance n) = seen t s := by
  unfold advance
  split <;> rfl

@[simp] theorem block_mix (f : UInt32 → UInt32 → UInt32 → UInt32) (k : UInt32)
    (v w x y z : Sha1Var) (i : Fin 16) (s : Sha1Locals) :
    (s.mix f k v w x y z i).block = s.block := rfl

theorem seen_mix (f : UInt32 → UInt32 → UInt32 → UInt32) (k : UInt32) (t : Nat) (i : Fin 16)
    (s : Sha1Locals) :
    seen (t + 1) (s.mix f k (turn t .a) (turn t .b) (turn t .c) (turn t .d) (turn t .e) i) =
      { a := (seen t s).e + (f (seen t s).b (seen t s).c (seen t s).d + s.block.get i + k +
          rol (seen t s).a 5)
        b := (seen t s).a
        c := rol (seen t s).b 30
        d := (seen t s).c
        e := (seen t s).d } := by
  have hne {v w : Sha1Var} (h : v ≠ w) : turn t v ≠ turn t w := turn_ne t h
  simp [seen, turn_succ, next, mix, Function.update, hne, Vector.get]

/-! ## The ring -/

/-- The ring in call `t`: for each place the last word of the schedule that belongs there. -/
def Ring (m : Vector UInt32 16) (t : Nat) (s : Sha1Locals) : Prop :=
  ∀ n, (n < t ∨ n < 16) → t ≤ n + 16 → s.block[n % 16] = schedule m n

variable {m : Vector UInt32 16} {t : Nat} {s : Sha1Locals}

theorem ring_val (i : Nat) : (ring i).val = i % 16 := Nat.and_two_pow_sub_one_eq_mod i 4

/-- The new word of the schedule. -/
theorem blk_eq (hring : Ring m t s) (ht : 16 ≤ t) :
    blk s.block (ring t) = schedule m t := by
  have hplace : (ring t).val = t % 16 := ring_val t
  have hold (k : Nat) (hlt : k < t) (hnear : t ≤ k + 16) (j : Fin 16) (hj : j.val = k % 16) :
      s.block[j] = schedule m k := by
    rw [← hring k (.inl hlt) hnear]
    simp only [Fin.getElem_fin, hj]
  rw [blk, rol_one, schedule, dif_neg (by omega),
    hold (t - 3) (by omega) (by omega) _ (by rw [ring_val, hplace]; omega),
    hold (t - 8) (by omega) (by omega) _ (by rw [ring_val, hplace]; omega),
    hold (t - 14) (by omega) (by omega) _ (by rw [ring_val, hplace]; omega),
    hold (t - 16) (by omega) (by omega) _ (by rw [hplace]; omega)]

theorem Ring.advance (hring : Ring m t s) : Ring m (t + 1) (s.advance t) := by
  intro n hn hnear
  unfold Sha1Locals.advance
  split
  · rename_i ht
    exact hring n (by omega) (by omega)
  · rename_i ht
    have hplace : (ring t).val = t % 16 := ring_val t
    simp only [extend, Vector.getElem_set, hplace]
    by_cases hlast : n = t
    · subst hlast
      rw [if_pos rfl]
      exact blk_eq hring (by omega)
    · rw [if_neg (by omega)]
      exact hring n (by omega) (by omega)

theorem Ring.word (hring : Ring m (t + 1) s) : s.block.get (ring t) = schedule m t := by
  rw [← hring t (.inl t.lt_succ_self) (by omega)]
  change s.block[(ring t).val] = _
  simp only [ring_val]

/-! ## The run of the calls -/

/-- Call `t` is step `t`. -/
theorem run_step {h : Digest} (hseen : seen t s = steps m h t) (hring : Ring m t s) :
    seen (t + 1) ((Sha1Call.regular t).run s) = steps m h (t + 1) ∧
      Ring m (t + 1) ((Sha1Call.regular t).run s) := by
  rw [run_regular]
  refine ⟨?_, hring.advance⟩
  rw [seen_mix, seen_advance, hseen, hring.advance.word, rol_five, rol_thirty, steps, step]
  apply congrArg (fun word => Digest.mk word _ _ _ _)
  ac_rfl

/-- After `n` calls the words and the ring are those of the standard. -/
theorem run_steps (m : Vector UInt32 16) (h : Digest) (n : Nat) :
    let done := ((List.range n).map Sha1Call.regular).foldl (fun s call => call.run s)
      (SHA1.locals h m)
    seen n done = steps m h n ∧ Ring m n done := by
  induction n with
  | zero =>
    refine ⟨rfl, ?_⟩
    intro n hn _
    have hlt : n < 16 := by omega
    rw [schedule, dif_pos hlt]
    simp only [Nat.mod_eq_of_lt hlt]
    rfl
  | succ n ih =>
    rw [List.range_succ, List.map_append, List.foldl_append]
    exact run_step ih.1 ih.2

end Sha1Locals

/-- `transform` compresses the block into the digest. -/
theorem SHA1.transform_eq (h : Digest) (m : Vector UInt32 16) :
    (transform h m).1 = h.add (steps m h 80) := by
  obtain ⟨hseen, -⟩ := Sha1Locals.run_steps m h 80
  rw [← Sha1Call.unrolled_eq] at hseen
  rw [← hseen]
  have hturn (v : Sha1Var) : turn 80 v = v := by cases v <;> rfl
  simp only [transform, Digest.add, Sha1Locals.seen, hturn]

end Tubekit
