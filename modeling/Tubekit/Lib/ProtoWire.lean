import Mathlib.Algebra.Ring.Int.Defs
import Mathlib.Algebra.Ring.Nat
import Mathlib.Data.List.Basic

/-!
# The protocol buffer wire format

Varints, and fields with a varint or a length-delimited value. Encoded fields that follow
each other are decoded one after the other (`decodeFields_append`), whatever the message is
that each of them belongs to; and a field that is cut short is not decoded
(`decodeFields_truncated`).
-/

namespace Tubekit.Lib.ProtoWire

/-! ## Varints -/

/-- The varint of `n`, of at most `fuel + 1` bytes. -/
def encodeVarintAux : Nat → Nat → List UInt8
  | 0, n => [UInt8.ofNat n]
  | fuel + 1, n =>
    if n < 128 then [UInt8.ofNat n]
    else UInt8.ofNat (n % 128 + 128) :: encodeVarintAux fuel (n / 128)

/-- Ten bytes hold 64 bits. -/
def encodeVarint (n : Nat) : List UInt8 := encodeVarintAux 9 n

/-- The value of the varint in front and the bytes behind it. -/
def decodeVarintAux : Nat → List UInt8 → Option (Nat × List UInt8)
  | 0, _ => none
  | _ + 1, [] => none
  | fuel + 1, b :: bytes =>
    if b.toNat < 128 then some (b.toNat, bytes)
    else (decodeVarintAux fuel bytes).map fun (n, rest) => (b.toNat - 128 + 128 * n, rest)

def decodeVarint (bytes : List UInt8) : Option (Nat × List UInt8) := decodeVarintAux 10 bytes

theorem decodeVarintAux_append {fuel n : Nat} (hn : n < 128 ^ (fuel + 1)) (rest : List UInt8) :
    decodeVarintAux (fuel + 1) (encodeVarintAux fuel n ++ rest) = some (n, rest) := by
  induction fuel generalizing n with
  | zero =>
    have hbyte : (UInt8.ofNat n).toNat = n := by
      rw [UInt8.toNat_ofNat']
      omega
    rw [encodeVarintAux, List.singleton_append, decodeVarintAux, hbyte, if_pos (by omega)]
  | succ fuel ih =>
    rw [encodeVarintAux]
    split
    · rename_i hlt
      have hbyte : (UInt8.ofNat n).toNat = n := by
        rw [UInt8.toNat_ofNat']
        omega
      rw [List.singleton_append, decodeVarintAux, hbyte, if_pos hlt]
    · have hbyte : (UInt8.ofNat (n % 128 + 128)).toNat = n % 128 + 128 := by
        rw [UInt8.toNat_ofNat']
        omega
      have hdiv : n / 128 < 128 ^ (fuel + 1) := by
        rw [Nat.pow_succ] at hn
        exact Nat.div_lt_of_lt_mul (by omega)
      rw [List.cons_append, decodeVarintAux, hbyte, if_neg (by omega), ih hdiv]
      simp only [Option.map_some]
      congr 2
      omega

/-- A list is cut inside its first part, or behind it. -/
theorem prefix_append_cases {α : Type*} {t a b : List α} (h : t <+: a ++ b) :
    (t <+: a ∧ t ≠ a) ∨ ∃ t', t = a ++ t' ∧ t' <+: b := by
  rcases List.prefix_or_prefix_of_prefix h (List.prefix_append a b) with hta | ⟨t', rfl⟩
  · by_cases heq : t = a
    · exact Or.inr ⟨[], by rw [heq, List.append_nil], List.nil_prefix⟩
    · exact Or.inl ⟨hta, heq⟩
  · exact Or.inr ⟨t', rfl, (List.prefix_append_right_inj a).mp h⟩

theorem decodeVarintAux_truncated {fuel n : Nat} {bytes : List UInt8}
    (hpre : bytes <+: encodeVarintAux fuel n) (hne : bytes ≠ encodeVarintAux fuel n)
    (limit : Nat) : decodeVarintAux limit bytes = none := by
  -- a proper beginning of the varint holds continuation bytes only
  induction fuel generalizing n bytes limit with
  | zero =>
    cases bytes with
    | nil => cases limit <;> rfl
    | cons b bytes =>
      rw [encodeVarintAux, List.cons_prefix_cons, List.prefix_nil] at hpre
      rw [encodeVarintAux, hpre.1, hpre.2] at hne
      exact absurd rfl hne
  | succ fuel ih =>
    cases bytes with
    | nil => cases limit <;> rfl
    | cons b bytes =>
      rw [encodeVarintAux] at hpre hne
      by_cases hlt : n < 128
      · rw [if_pos hlt] at hpre hne
        rw [List.cons_prefix_cons, List.prefix_nil] at hpre
        rw [hpre.1, hpre.2] at hne
        exact absurd rfl hne
      · rw [if_neg hlt] at hpre hne
        rw [List.cons_prefix_cons] at hpre
        obtain ⟨rfl, hpre⟩ := hpre
        have hbyte : (UInt8.ofNat (n % 128 + 128)).toNat = n % 128 + 128 := by
          rw [UInt8.toNat_ofNat']
          omega
        cases limit with
        | zero => rfl
        | succ limit =>
          rw [decodeVarintAux, hbyte, if_neg (by omega),
            ih hpre (fun heq => hne (by rw [heq])) limit]
          rfl

theorem decodeVarint_append {n : Nat} (hn : n < 2 ^ 64) (rest : List UInt8) :
    decodeVarint (encodeVarint n ++ rest) = some (n, rest) :=
  decodeVarintAux_append (Nat.lt_of_lt_of_le hn (by decide)) rest

theorem decodeVarint_truncated {n : Nat} {bytes : List UInt8} (hpre : bytes <+: encodeVarint n)
    (hne : bytes ≠ encodeVarint n) : decodeVarint bytes = none :=
  decodeVarintAux_truncated hpre hne 10

theorem encodeVarint_ne_nil (n : Nat) : encodeVarint n ≠ [] := by
  unfold encodeVarint encodeVarintAux
  split <;> simp

/-! ## Fields -/

/-- The value of a field. -/
inductive Value where
  | varint (n : Nat)
  | len (bytes : List UInt8)
  deriving DecidableEq

structure Field where
  number : Nat
  value : Value
  deriving DecidableEq

namespace Field

def encode (f : Field) : List UInt8 :=
  match f.value with
  | .varint n => encodeVarint (f.number * 8) ++ encodeVarint n
  | .len bytes => encodeVarint (f.number * 8 + 2) ++ (encodeVarint bytes.length ++ bytes)

/-- The number and the value or length of a field are below these bounds on the wire. -/
def InRange (f : Field) : Prop :=
  f.number < 2 ^ 32 ∧
    match f.value with
    | .varint n => n < 2 ^ 64
    | .len bytes => bytes.length < 2 ^ 64

end Field

/-- The field in front and the bytes behind it. Other wire types are not decoded. -/
def decodeField (bytes : List UInt8) : Option (Field × List UInt8) :=
  match decodeVarint bytes with
  | none => none
  | some (tag, bytes) =>
    match decodeVarint bytes with
    | none => none
    | some (n, bytes) =>
      if tag % 8 = 0 then some (⟨tag / 8, .varint n⟩, bytes)
      else if tag % 8 = 2 then
        if bytes.length < n then none else some (⟨tag / 8, .len (bytes.take n)⟩, bytes.drop n)
      else none

/-- All the fields; each takes a byte at least, so `fuel` fields are enough for `fuel` bytes. -/
def decodeFieldsAux : Nat → List UInt8 → Option (List Field)
  | _, [] => some []
  | 0, _ :: _ => none
  | fuel + 1, b :: bytes =>
    match decodeField (b :: bytes) with
    | none => none
    | some (f, rest) => (decodeFieldsAux fuel rest).map (f :: ·)

def decodeFields (bytes : List UInt8) : Option (List Field) := decodeFieldsAux bytes.length bytes

theorem decodeField_append {f : Field} (hf : f.InRange) (rest : List UInt8) :
    decodeField (f.encode ++ rest) = some (f, rest) := by
  obtain ⟨number, value⟩ := f
  obtain ⟨hnumber, hvalue⟩ := hf
  simp only at hnumber
  cases value with
  | varint n =>
    simp only [Field.encode, decodeField, List.append_assoc]
    rw [decodeVarint_append (by omega)]
    simp only
    rw [decodeVarint_append hvalue]
    simp only [Nat.mul_mod_left, if_true]
    congr 3
    omega
  | len bytes =>
    simp only [Field.encode, decodeField, List.append_assoc]
    rw [decodeVarint_append (by omega)]
    simp only
    rw [decodeVarint_append hvalue]
    simp only
    rw [if_neg (by omega), if_pos (by omega), if_neg (by simp), List.take_left, List.drop_left]
    congr 3
    omega

/-- A field that is cut short is not decoded. -/
theorem decodeField_truncated {f : Field} (hf : f.InRange) {bytes : List UInt8}
    (hpre : bytes <+: f.encode) (hne : bytes ≠ f.encode) : decodeField bytes = none := by
  obtain ⟨number, value⟩ := f
  obtain ⟨hnumber, hvalue⟩ := hf
  simp only at hnumber
  cases value with
  | varint n =>
    simp only [Field.encode] at hpre hne
    rcases prefix_append_cases hpre with ⟨htag, htagNe⟩ | ⟨t, rfl, ht⟩
    · rw [decodeField, decodeVarint_truncated htag htagNe]
    · rw [decodeField, decodeVarint_append (by omega)]
      simp only
      rw [decodeVarint_truncated ht fun heq => hne (by rw [heq])]
  | len data =>
    simp only [Field.encode] at hpre hne
    rcases prefix_append_cases hpre with ⟨htag, htagNe⟩ | ⟨t, rfl, ht⟩
    · rw [decodeField, decodeVarint_truncated htag htagNe]
    · rw [decodeField, decodeVarint_append (by omega)]
      simp only
      rcases prefix_append_cases ht with ⟨hlen, hlenNe⟩ | ⟨t', rfl, hdata⟩
      · rw [decodeVarint_truncated hlen hlenNe]
      · have hshort : t'.length < data.length := by
          refine Nat.lt_of_le_of_ne hdata.length_le fun heq => hne ?_
          rw [hdata.eq_of_length heq]
        rw [decodeVarint_append hvalue]
        simp only
        rw [if_neg (by omega), if_pos (by omega), if_pos hshort]

theorem Field.encode_ne_nil (f : Field) : f.encode ≠ [] := by
  unfold Field.encode
  split <;> simp [encodeVarint_ne_nil]

theorem decodeFieldsAux_append {fields : List Field} (hf : ∀ f ∈ fields, f.InRange)
    (rest : List UInt8) {fuel : Nat}
    (hfuel : (fields.flatMap Field.encode ++ rest).length ≤ fuel) :
    decodeFieldsAux fuel (fields.flatMap Field.encode ++ rest) =
      (decodeFieldsAux (fuel - fields.length) rest).map (fields ++ ·) := by
  induction fields generalizing fuel with
  | nil => simp
  | cons f fields ih =>
    have hstep := decodeField_append (hf f (by simp)) (fields.flatMap Field.encode ++ rest)
    have hpos : 0 < f.encode.length := List.length_pos_of_ne_nil f.encode_ne_nil
    rw [List.flatMap_cons, List.append_assoc] at hfuel ⊢
    rw [List.length_append] at hfuel
    obtain ⟨fuel, rfl⟩ := Nat.exists_eq_add_of_lt (Nat.lt_of_lt_of_le hpos (by omega : _ ≤ fuel))
    have hrest := ih (fun f hm => hf f (by simp [hm])) (show _ ≤ fuel by omega)
    cases hbytes : f.encode ++ (fields.flatMap Field.encode ++ rest) with
    | nil => simp [f.encode_ne_nil] at hbytes
    | cons b bytes =>
      rw [hbytes] at hstep
      rw [Nat.zero_add, decodeFieldsAux, hstep]
      simp only [hrest, List.length_cons, Nat.add_sub_add_right, Option.map_map]
      rfl

/-- Fields that follow each other are decoded as one message. -/
theorem decodeFields_append {fields : List Field} (hf : ∀ f ∈ fields, f.InRange) :
    decodeFields (fields.flatMap Field.encode) = some fields := by
  have h := decodeFieldsAux_append hf [] (Nat.le_refl _)
  rw [List.append_nil] at h
  rw [decodeFields, h]
  cases (fields.flatMap Field.encode).length - fields.length <;> simp [decodeFieldsAux]

/-- A message whose last field is cut short is not decoded. -/
theorem decodeFields_truncated {fields : List Field} (hfields : ∀ f ∈ fields, f.InRange)
    {f : Field} (hf : f.InRange) {bytes : List UInt8} (hpre : bytes <+: f.encode)
    (hne : bytes ≠ f.encode) (hnil : bytes ≠ []) :
    decodeFields (fields.flatMap Field.encode ++ bytes) = none := by
  rw [decodeFields, decodeFieldsAux_append hfields bytes (Nat.le_refl _)]
  cases bytes with
  | nil => exact absurd rfl hnil
  | cons b bytes =>
    cases (fields.flatMap Field.encode ++ b :: bytes).length - fields.length with
    | zero => rfl
    | succ fuel => rw [decodeFieldsAux, decodeField_truncated hf hpre hne, Option.map_none]

end Tubekit.Lib.ProtoWire
