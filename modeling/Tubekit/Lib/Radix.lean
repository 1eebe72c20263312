import Mathlib.Algebra.Ring.Nat
import Mathlib.Data.List.Basic
import Mathlib.Tactic.Ring

/-!
# Numerals of fixed length

A number as a given count of digits in some base, the highest first, with zeros in front where the
number is short. `digits` forgets what does not fit (`number_digits`), and `number` reads numerals
of the base without loss (`digits_number`). A numeral splits at every place (`digits_add`).
-/

namespace Tubekit.Lib.Radix

variable {base : Nat}

/-- The last `count` digits of a number. -/
def digits (base : Nat) : Nat → Nat → List Nat
  | 0, _ => []
  | count + 1, n => n / base ^ count % base :: digits base count n

/-- The number that digits stand for. -/
def number (base : Nat) : List Nat → Nat
  | [] => 0
  | d :: ds => d * base ^ ds.length + number base ds

@[simp] theorem length_digits (count n : Nat) : (digits base count n).length = count := by
  induction count with
  | zero => rfl
  | succ count ih => rw [digits, List.length_cons, ih]

theorem digits_lt (hbase : 0 < base) {count n d : Nat} (hd : d ∈ digits base count n) :
    d < base := by
  induction count with
  | zero => cases hd
  | succ count ih =>
    rw [digits, List.mem_cons] at hd
    rcases hd with rfl | hd
    · exact Nat.mod_lt _ hbase
    · exact ih hd

theorem number_append (xs ys : List Nat) :
    number base (xs ++ ys) = number base xs * base ^ ys.length + number base ys := by
  induction xs with
  | nil => rw [List.nil_append, number, Nat.zero_mul, Nat.zero_add]
  | cons x xs ih =>
    rw [List.cons_append, number, number, ih, List.length_append, Nat.pow_add]
    ring

theorem number_lt {ds : List Nat} (hds : ∀ d ∈ ds, d < base) :
    number base ds < base ^ ds.length := by
  induction ds with
  | nil => exact Nat.one_pos
  | cons d ds ih =>
    obtain ⟨hd, hds⟩ := List.forall_mem_cons.mp hds
    rw [number, List.length_cons, Nat.pow_succ']
    calc d * base ^ ds.length + number base ds < d * base ^ ds.length + base ^ ds.length :=
          Nat.add_lt_add_left (ih hds) _
      _ = (d + 1) * base ^ ds.length := by ring
      _ ≤ base * base ^ ds.length := Nat.mul_le_mul_right _ hd

/-- What stands above the last `count` digits does not matter. -/
theorem digits_mul_add (count high low : Nat) :
    digits base count (high * base ^ count + low) = digits base count low := by
  induction count generalizing high with
  | zero => rfl
  | succ count ih =>
    have hsplit : high * base ^ (count + 1) + low = high * base * base ^ count + low := by
      rw [Nat.pow_succ', Nat.mul_assoc]
    rw [hsplit, digits, digits, ih]
    by_cases hbase : base = 0
    · subst hbase
      rw [Nat.mul_zero, Nat.zero_mul, Nat.zero_add]
    · have hpow : 0 < base ^ count := Nat.pow_pos (Nat.pos_of_ne_zero hbase)
      rw [Nat.mul_comm (high * base), Nat.mul_add_div hpow, Nat.mul_comm high, Nat.mul_add_mod]

/-- The numeral of a number is read as its remainder. -/
theorem number_digits (count n : Nat) : number base (digits base count n) = n % base ^ count := by
  induction count with
  | zero => rw [digits, number, Nat.pow_zero, Nat.mod_one]
  | succ count ih =>
    rw [digits, number, ih, length_digits, Nat.pow_succ, Nat.mod_mul]
    ring

theorem digits_number (hbase : 0 < base) {ds : List Nat} (hds : ∀ d ∈ ds, d < base) :
    digits base ds.length (number base ds) = ds := by
  induction ds with
  | nil => rfl
  | cons d ds ih =>
    obtain ⟨hd, hds⟩ := List.forall_mem_cons.mp hds
    have hpow : 0 < base ^ ds.length := Nat.pow_pos hbase
    have htop : (d * base ^ ds.length + number base ds) / base ^ ds.length % base = d := by
      rw [Nat.mul_comm, Nat.mul_add_div hpow, Nat.div_eq_of_lt (number_lt hds), Nat.add_zero,
        Nat.mod_eq_of_lt hd]
    rw [List.length_cons, digits, number, htop, digits_mul_add, ih hds]

theorem digits_add (j k n : Nat) :
    digits base (j + k) n = digits base j (n / base ^ k) ++ digits base k n := by
  induction j with
  | zero => rw [Nat.zero_add, digits, List.nil_append]
  | succ j ih =>
    rw [Nat.succ_add, digits, ih, digits, List.cons_append, Nat.div_div_eq_div_mul,
      ← Nat.pow_add, Nat.add_comm k j]

/-- The upper and the lower digits of a number in two parts. -/
theorem digits_add_parts {j k high low : Nat} (hlow : low < base ^ k) :
    digits base (j + k) (high * base ^ k + low) = digits base j high ++ digits base k low := by
  have hpow : 0 < base ^ k := Nat.zero_lt_of_lt hlow
  rw [digits_add, digits_mul_add, Nat.mul_comm, Nat.mul_add_div hpow, Nat.div_eq_of_lt hlow,
    Nat.add_zero]

end Tubekit.Lib.Radix
