import Mathlib.Data.Nat.Digits.Lemmas
import Tubekit.Json.Acceptance

/-!
# Parsing what was printed

`parse` gives a canonical value without doubles back from its text: what is printed is a text of the
grammar without a fraction, and from such a text the parser returns the value that it is the text of.
-/

namespace Tubekit

open Lib Scan OrderedMap

namespace Json

variable {D : Type} {io : DoubleIo D} {rest : List UInt8}

mutual

/-- The value contains a double. -/
def hasDouble : Json D → Bool
  | .double _ => true
  | .array values => elementsHaveDouble values
  | .object members => membersHaveDouble members
  | _ => false

def elementsHaveDouble : List (Json D) → Bool
  | [] => false
  | v :: values => hasDouble v || elementsHaveDouble values

def membersHaveDouble : List (List UInt8 × Json D) → Bool
  | [] => false
  | (_, v) :: members => hasDouble v || membersHaveDouble members

end

theorem hasDouble_of_elements {values : List (Json D)} (h : elementsHaveDouble values = false) :
    ∀ v ∈ values, hasDouble v = false := by
  induction values with
  | nil => simp
  | cons v values ih =>
    rw [elementsHaveDouble, Bool.or_eq_false_iff] at h
    simpa using ⟨h.1, ih h.2⟩

theorem hasDouble_of_members {members : List (List UInt8 × Json D)}
    (h : membersHaveDouble members = false) : ∀ m ∈ members, hasDouble m.2 = false := by
  induction members with
  | nil => simp
  | cons m members ih =>
    rw [membersHaveDouble, Bool.or_eq_false_iff] at h
    exact List.forall_mem_cons.2 ⟨h.1, ih h.2⟩

/-! ## Numbers -/

theorem isDigit_ofNat {d : Nat} (hd : d < 10) :
    isDigit (UInt8.ofNat (48 + d)) = true ∧ (UInt8.ofNat (48 + d)).toNat - 48 = d := by
  interval_cases d <;> decide

theorem isDigit_of_mem_decimal {n : Nat} {c : UInt8} (hc : c ∈ decimal n) : isDigit c = true := by
  unfold decimal at hc
  split at hc
  · rw [List.mem_singleton.1 hc]
    decide
  · simp only [List.mem_reverse, List.mem_map] at hc
    obtain ⟨d, hd, rfl⟩ := hc
    exact (isDigit_ofNat (Nat.digits_lt_base (by omega) hd)).1

theorem digitsValue_decimal (n : Nat) : digitsValue (decimal n) = n := by
  unfold decimal digitsValue
  split
  · next h =>
    subst h
    decide
  · have hmap : ((Nat.digits 10 n).map fun d => (UInt8.ofNat (48 + d)).toNat - 48) = Nat.digits 10 n := by
      conv_rhs => rw [← List.map_id (Nat.digits 10 n)]
      refine List.map_congr_left fun d hd => ?_
      exact (isDigit_ofNat (Nat.digits_lt_base (by omega) hd)).2
    rw [List.map_reverse, List.reverse_reverse, List.map_map]
    exact (congrArg _ hmap).trans (Nat.ofDigits_digits 10 n)

/-- A number other than 0 does not begin with 0. -/
theorem decimal_eq_cons (n : Nat) :
    ∃ c tail, decimal n = c :: tail ∧ isDigit c = true ∧ (c = zero → tail = []) := by
  by_cases hn : n = 0
  · exact ⟨zero, [], by simp [decimal, hn], by decide, fun _ => rfl⟩
  · have hne : Nat.digits 10 n ≠ [] := Nat.digits_ne_nil_iff_ne_zero.2 hn
    have hlast := Nat.getLast_digit_ne_zero 10 hn
    have hlt : (Nat.digits 10 n).getLast hne < 10 :=
      Nat.digits_lt_base (by omega) (List.getLast_mem hne)
    refine ⟨UInt8.ofNat (48 + (Nat.digits 10 n).getLast hne),
      (((Nat.digits 10 n).dropLast.map fun d => UInt8.ofNat (48 + d)).reverse), ?_,
      (isDigit_ofNat hlt).1, fun h0 => ?_⟩
    · conv_lhs => rw [decimal, if_neg hn, ← List.dropLast_append_getLast hne]
      simp
    · have hval := (isDigit_ofNat hlt).2
      rw [h0] at hval
      exact absurd hval.symm hlast

theorem isInteger_decimal (n : Nat) : IsInteger (decimal n) := by
  obtain ⟨c, tail, hcons, hdigit, hzero⟩ := decimal_eq_cons n
  rw [hcons]
  by_cases h0 : c = zero
  · rw [hzero h0, h0]
    exact .inl rfl
  · refine .inr ⟨c, tail, rfl, hdigit, h0, fun d hd => ?_⟩
    apply isDigit_of_mem_decimal (n := n)
    rw [hcons]
    exact List.mem_cons_of_mem c hd

theorem printInteger_eq (v : Int) :
    printInteger v = signText (decide (v < 0)) (decimal v.natAbs) := by
  simp only [printInteger, signText, decide_eq_true_eq]

theorem printInteger_eq_cons (v : Int) :
    ∃ c tail, printInteger v = c :: tail ∧ (c = minus ∨ isDigit c = true) := by
  rw [printInteger_eq]
  exact signText_eq_cons (isInteger_decimal _)

/-- The text that is printed stands for the integer. -/
theorem denotes_printInteger (v : LongLong) :
    Denotes v (signed (decide (v.1 < 0)) (digitsValue (decimal v.1.natAbs))) := by
  have hsigned : signed (decide (v.1 < 0)) (digitsValue (decimal v.1.natAbs)) = v.1 := by
    rw [digitsValue_decimal]
    simp only [signed, decide_eq_true_eq]
    split <;> omega
  have := v.2
  rw [hsigned]
  unfold Denotes
  omega

theorem atoll_printInteger (v : LongLong) (hrest : Stops isDigit rest) :
    atoll (printInteger v.1 ++ rest) = v := by
  rw [printInteger_eq]
  exact (atoll_signText (isInteger_decimal _) hrest).unique (denotes_printInteger v)

/-! ## The text of a value -/

theorem elements_cons_cons (io : DoubleIo D) (v w : Json D) (values : List (Json D)) :
    elements io true (v :: w :: values) = toString io v ++ comma :: elements io true (w :: values) := by
  simp [elements]

theorem elements_singleton (io : DoubleIo D) (v : Json D) : elements io true [v] = toString io v := by
  simp [elements]

theorem pairs_cons_cons (io : DoubleIo D) (m n : List UInt8 × Json D)
    (members : List (List UInt8 × Json D)) :
    pairs io true (m :: n :: members) =
      quote :: (m.1 ++ quote :: colon :: (toString io m.2 ++ comma :: pairs io true (n :: members))) := by
  simp [pairs]

theorem pairs_singleton (io : DoubleIo D) (m : List UInt8 × Json D) :
    pairs io true [m] = quote :: (m.1 ++ quote :: colon :: toString io m.2) := by
  simp [pairs]

/-- No white space is printed. -/
theorem elements_spelled {fractions : Prop} (values : List (Json D)) :
    ∀ v : Json D, (∀ w ∈ v :: values, Spells fractions w (toString io w)) →
      Elements fractions (v :: values) (elements io true (v :: values)) := by
  induction values with
  | nil =>
    intro v hall
    have hlast := Elements.last blank_nil (hall v List.mem_cons_self) blank_nil
    rwa [List.nil_append, List.append_nil, ← elements_singleton] at hlast
  | cons w values ih =>
    intro v hall
    have hmore := ih w fun u hu => hall u (List.mem_cons_of_mem v hu)
    have hcons := Elements.cons blank_nil (hall v List.mem_cons_self) blank_nil hmore
    rwa [List.nil_append, List.nil_append, ← elements_cons_cons] at hcons

theorem pairs_spelled {fractions : Prop} (members : List (List UInt8 × Json D)) :
    ∀ m : List UInt8 × Json D, (∀ n ∈ m :: members, Plain n.1) →
      (∀ n ∈ m :: members, Spells fractions n.2 (toString io n.2)) →
      Members fractions (m :: members) (pairs io true (m :: members)) := by
  induction members with
  | nil =>
    intro m hplain hall
    have hlast := Members.last blank_nil (hplain m List.mem_cons_self) blank_nil blank_nil
      (hall m List.mem_cons_self) blank_nil
    rwa [List.nil_append, List.nil_append, List.nil_append, List.append_nil, ← pairs_singleton] at hlast
  | cons n members ih =>
    intro m hplain hall
    have hmore := ih n (fun u hu => hplain u (List.mem_cons_of_mem m hu))
      fun u hu => hall u (List.mem_cons_of_mem m hu)
    have hcons := Members.cons blank_nil (hplain m List.mem_cons_self) blank_nil blank_nil
      (hall m List.mem_cons_self) blank_nil hmore
    rwa [List.nil_append, List.nil_append, List.nil_append, List.nil_append, ← pairs_cons_cons] at hcons

/-- Members in order are assigned one behind the other. -/
theorem assignAll_append (members : List (List UInt8 × Json D)) :
    ∀ obj, Ordered (obj ++ members) → assignAll members obj = obj ++ members := by
  induction members with
  | nil =>
    intro obj _
    rw [List.append_nil]
    rfl
  | cons m members ih =>
    intro obj hordered
    have hlast : assign m.1 m.2 obj = obj ++ [m] := assign_append hordered.lt_of_append
    rw [assignAll, List.foldl_cons, hlast]
    have hrest := ih (obj ++ [m]) (by rwa [List.append_assoc])
    rwa [List.append_assoc] at hrest

/-- A canonical value is printed as a text of its own, and without doubles there is no fraction in
it. -/
theorem spells_toString {v : Json D} (h : Canonical v) (hv : hasDouble v = false) :
    Spells False v (toString io v) := by
  induction h with
  | null => exact .null
  | bool value => exact .bool value
  | integer value =>
    rw [toString, printInteger_eq]
    exact .integer (isInteger_decimal _) (denotes_printInteger value)
  | double value => cases hv
  | string plain => exact .string plain
  | @array values each ih =>
    rw [hasDouble] at hv
    have hall : ∀ w ∈ values, Spells False w (toString io w) := by
      intro w hw
      exact ih w hw (hasDouble_of_elements hv w hw)
    cases values with
    | nil => exact .emptyArray blank_nil
    | cons v values => exact .array (elements_spelled values v hall)
  | @object members plain ordered each ih =>
    rw [hasDouble] at hv
    have hall : ∀ m ∈ members, Spells False m.2 (toString io m.2) := by
      intro m hm
      exact ih m hm (hasDouble_of_members hv m hm)
    cases members with
    | nil => exact .emptyObject blank_nil
    | cons m members =>
      have hobject := Spells.object (pairs_spelled members m plain hall)
      rwa [assignAll_append (m :: members) [] ordered] at hobject

/-- The value is parsed from its text, wherever that stands. -/
def ParsesBack (io : DoubleIo D) (v : Json D) : Prop :=
  ∀ (pre rest : List UInt8) (fuel : Nat), Stops goesOn rest → 2 * (toString io v).length ≤ fuel + 1 →
    parseValue io (pre ++ (toString io v ++ rest)) (fuel + 1) pre.length =
      .ok (v, pre.length + (toString io v).length)

/-- Every canonical value without doubles is parsed from its text. -/
theorem parsesBack_of_canonical {v : Json D} (h : Canonical v) (hv : hasDouble v = false) :
    ParsesBack io v := by
  intro pre rest fuel hrest hfuel
  obtain ⟨w, hw, hsame⟩ := (complete False io (pre ++ (toString io v ++ rest)) (fuel + 1)).value _ v _ rest
    List.drop_left (spells_toString h hv) (ends_of_stops hrest) hfuel
  rw [hw, hsame id]

/-- A value that comes from a text and has no double in it comes again from the text it is printed
as. -/
theorem parse_toString_of_parse (io : DoubleIo D) (s : List UInt8) (v : Json D) (h : parse io s = .ok v)
    (hv : hasDouble v = false) : parse io (toString io v) = .ok v := by
  have hcanon : ParsesBack io v := parsesBack_of_canonical (canonical_of_parse h) hv
  have hback := hcanon [] [] (2 * (toString io v).length) (by simp) (by omega)
  simp only [List.nil_append, List.append_nil, List.length_nil] at hback
  rw [parse, hback]

/-- The text `{ "b": [1, -20,null] ,"a":{},"b":["x" , [true]]}`. -/
def sampleText : List UInt8 :=
  [123, 32, 34, 98, 34, 58, 32, 91, 49, 44, 32, 45, 50, 48, 44, 110, 117, 108, 108, 93, 32, 44,
    34, 97, 34, 58, 123, 125, 44, 34, 98, 34, 58, 91, 34, 120, 34, 32, 44, 32, 91, 116, 114, 117,
    101, 93, 93, 125]

def sampleValue : Json Unit :=
  .object [([97], .object []), ([98], .array [.string [120], .array [.bool true]])]

theorem parse_toString_of_parse_sample :
    parse noDoubleIo sampleText = .ok sampleValue ∧
      parse noDoubleIo (toString noDoubleIo sampleValue) = .ok sampleValue :=
  have h : parse noDoubleIo sampleText = .ok sampleValue := by rfl
  ⟨h, parse_toString_of_parse noDoubleIo sampleText sampleValue h (by rfl)⟩

end Json

end Tubekit
