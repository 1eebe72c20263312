import Tubekit.Lib.ProtoWire

/-!
# Messages with fields that are kept

The fields of a message of any type, as a parser reads them that keeps the fields it does not know.
Varints need not be the shortest, and a group is read up to its end. Written again in the shortest
form, the fields take at most the bytes that they were read from (`length_readFields_le`).
-/

namespace Tubekit.Lib.ProtoWire

/-! ## Varints that are longer than they need be -/

theorem length_encodeVarintAux_le {fuel n k : Nat} (hk : 0 < k) (hn : n < 128 ^ k) :
    (encodeVarintAux fuel n).length ≤ k := by
  induction fuel generalizing n k with
  | zero => exact hk
  | succ fuel ih =>
    rw [encodeVarintAux]
    split
    · exact hk
    · rename_i hlarge
      obtain ⟨k, rfl⟩ := Nat.exists_eq_add_of_lt hk
      rw [Nat.zero_add, Nat.pow_succ] at hn
      have hpos : 0 < k := by
        rcases Nat.eq_zero_or_pos k with rfl | hpos
        · omega
        · exact hpos
      have hrest := ih hpos (Nat.div_lt_of_lt_mul (by omega : n < 128 * 128 ^ k))
      rw [List.length_cons]
      omega

/-- A varint takes as many bytes as its value needs, or more. -/
theorem decodeVarintAux_bound {fuel n : Nat} {bytes rest : List UInt8}
    (h : decodeVarintAux fuel bytes = some (n, rest)) :
    ∃ k, 0 < k ∧ n < 128 ^ k ∧ bytes.length = k + rest.length := by
  induction fuel generalizing n bytes with
  | zero => cases h
  | succ fuel ih =>
    cases bytes with
    | nil => cases h
    | cons b bytes =>
      rw [decodeVarintAux] at h
      split at h
      · rename_i hlast
        cases h
        exact ⟨1, Nat.one_pos, by omega, by rw [List.length_cons, Nat.add_comm]⟩
      · obtain ⟨⟨m, rest'⟩, hmore, heq⟩ := Option.map_eq_some_iff.mp h
        cases heq
        obtain ⟨k, -, hm, hlen⟩ := ih hmore
        have hbyte := b.toNat_lt
        refine ⟨k + 1, Nat.succ_pos k, ?_, by rw [List.length_cons, hlen]; omega⟩
        rw [Nat.pow_succ]
        omega

theorem length_encodeVarint_mod_le {fuel n m : Nat} {bytes rest : List UInt8}
    (h : decodeVarintAux fuel bytes = some (n, rest)) :
    (encodeVarint (n % m)).length + rest.length ≤ bytes.length := by
  obtain ⟨k, hk, hn, hlen⟩ := decodeVarintAux_bound h
  have hshort : (encodeVarint (n % m)).length ≤ k :=
    length_encodeVarintAux_le hk (Nat.lt_of_le_of_lt (Nat.mod_le n m) hn)
  omega

/-! ## Reading -/

/-- The tag of a field: five bytes at most, of which 32 bits count, with a field number that is not
zero. -/
def readTag (bytes : List UInt8) : Option (Nat × List UInt8) :=
  match decodeVarintAux 5 bytes with
  | none => none
  | some (n, rest) => if n % 2 ^ 32 / 8 = 0 then none else some (n % 2 ^ 32, rest)

/-- The value of a field of any wire type; `fixed` has four or eight bytes, and `group` the fields
of a group and its end. -/
inductive KeptValue where
  | varint (n : Nat)
  | fixed (data : List UInt8)
  | len (data : List UInt8)
  | group (data : List UInt8)
  deriving DecidableEq

structure KeptField where
  tag : Nat
  value : KeptValue
  deriving DecidableEq

def KeptValue.encode : KeptValue → List UInt8
  | .varint n => encodeVarint n
  | .fixed data => data
  | .len data => encodeVarint data.length ++ data
  | .group data => data

def KeptField.encode (f : KeptField) : List UInt8 := encodeVarint f.tag ++ f.value.encode

/-- Some bytes in front and those behind them. -/
def readBytes (n : Nat) (bytes : List UInt8) : Option (List UInt8 × List UInt8) :=
  if bytes.length < n then none else some (bytes.take n, bytes.drop n)

/-- The value of a field that is no group. -/
def readScalar (tag : Nat) (bytes : List UInt8) : Option (KeptValue × List UInt8) :=
  match tag % 8 with
  | 0 => (decodeVarint bytes).map fun (n, rest) => (.varint (n % 2 ^ 64), rest)
  | 1 => (readBytes 8 bytes).map fun (data, rest) => (.fixed data, rest)
  | 2 =>
    match decodeVarint bytes with
    | none => none
    | some (n, rest) => (readBytes n rest).map fun (data, rest) => (.len data, rest)
  | 5 => (readBytes 4 bytes).map fun (data, rest) => (.fixed data, rest)
  | _ => none

/-- The fields of the group with this number up to its end, written again. Each takes a byte at
least. -/
def readGroup : Nat → Nat → List UInt8 → Option (List UInt8 × List UInt8)
  | 0, _, _ => none
  | fuel + 1, number, bytes =>
    match readTag bytes with
    | none => none
    | some (tag, rest) =>
      if tag % 8 = 4 then if tag / 8 = number then some (encodeVarint tag, rest) else none
      else
        match if tag % 8 = 3 then (readGroup fuel (tag / 8) rest).map fun (data, rest) =>
            (KeptValue.group data, rest) else readScalar tag rest with
        | none => none
        | some (value, rest) =>
          (readGroup fuel number rest).map fun (more, rest) =>
            (KeptField.encode ⟨tag, value⟩ ++ more, rest)

def readValue (tag : Nat) (bytes : List UInt8) : Option (KeptValue × List UInt8) :=
  if tag % 8 = 3 then
    (readGroup bytes.length (tag / 8) bytes).map fun (data, rest) => (.group data, rest)
  else readScalar tag bytes

/-- All the fields; each takes a byte at least. -/
def readFieldsAux : Nat → List UInt8 → Option (List KeptField)
  | _, [] => some []
  | 0, _ :: _ => none
  | fuel + 1, b :: bytes =>
    match readTag (b :: bytes) with
    | none => none
    | some (tag, rest) =>
      match readValue tag rest with
      | none => none
      | some (value, rest) => (readFieldsAux fuel rest).map (⟨tag, value⟩ :: ·)

def readFields (bytes : List UInt8) : Option (List KeptField) := readFieldsAux bytes.length bytes

/-! ## The length of what is kept -/

theorem length_readTag_le {tag : Nat} {bytes rest : List UInt8} (h : readTag bytes = some (tag, rest)) :
    (encodeVarint tag).length + rest.length ≤ bytes.length := by
  unfold readTag at h
  split at h
  · cases h
  · rename_i hvarint
    split at h
    · cases h
    · cases h
      exact length_encodeVarint_mod_le hvarint

theorem length_readBytes {n : Nat} {bytes data rest : List UInt8}
    (h : readBytes n bytes = some (data, rest)) :
    data.length = n ∧ data.length + rest.length = bytes.length := by
  unfold readBytes at h
  split at h
  · cases h
  · cases h
    rw [List.length_take, List.length_drop]
    omega

theorem length_readScalar_le {tag : Nat} {bytes rest : List UInt8} {value : KeptValue}
    (h : readScalar tag bytes = some (value, rest)) :
    value.encode.length + rest.length ≤ bytes.length := by
  unfold readScalar at h
  split at h
  · obtain ⟨⟨n, rest'⟩, hvarint, heq⟩ := Option.map_eq_some_iff.mp h
    cases heq
    exact length_encodeVarint_mod_le hvarint
  · obtain ⟨⟨data, rest'⟩, hbytes, heq⟩ := Option.map_eq_some_iff.mp h
    cases heq
    exact Nat.le_of_eq (length_readBytes hbytes).2
  · split at h
    · cases h
    · rename_i n behind hvarint
      obtain ⟨⟨data, rest'⟩, hbytes, heq⟩ := Option.map_eq_some_iff.mp h
      cases heq
      obtain ⟨hdata, hbehind⟩ := length_readBytes hbytes
      obtain ⟨k, hk, hn, hlen⟩ := decodeVarintAux_bound hvarint
      have hshort : (encodeVarint n).length ≤ k := length_encodeVarintAux_le hk hn
      rw [KeptValue.encode, List.length_append, hdata]
      omega
  · obtain ⟨⟨data, rest'⟩, hbytes, heq⟩ := Option.map_eq_some_iff.mp h
    cases heq
    exact Nat.le_of_eq (length_readBytes hbytes).2
  · cases h

theorem length_readGroup_le {fuel number : Nat} {bytes data rest : List UInt8}
    (h : readGroup fuel number bytes = some (data, rest)) :
    data.length + rest.length ≤ bytes.length := by
  induction fuel generalizing number bytes data rest with
  | zero => cases h
  | succ fuel ih =>
    rw [readGroup] at h
    split at h
    · cases h
    · rename_i tag behind htag
      have htag := length_readTag_le htag
      split at h
      · split at h
        · cases h
          exact htag
        · cases h
      · split at h
        · cases h
        · rename_i value behind' hvalue
          have hfield : value.encode.length + behind'.length ≤ behind.length := by
            split at hvalue
            · obtain ⟨⟨inner, rest'⟩, hgroup, heq⟩ := Option.map_eq_some_iff.mp hvalue
              cases heq
              exact ih hgroup
            · exact length_readScalar_le hvalue
          obtain ⟨⟨more, rest'⟩, hmore, heq⟩ := Option.map_eq_some_iff.mp h
          cases heq
          have hrest := ih hmore
          simp only [KeptField.encode, List.length_append]
          omega

theorem length_readValue_le {tag : Nat} {bytes rest : List UInt8} {value : KeptValue}
    (h : readValue tag bytes = some (value, rest)) :
    value.encode.length + rest.length ≤ bytes.length := by
  unfold readValue at h
  split at h
  · obtain ⟨⟨data, rest'⟩, hgroup, heq⟩ := Option.map_eq_some_iff.mp h
    cases heq
    exact length_readGroup_le hgroup
  · exact length_readScalar_le h

theorem length_readFieldsAux_le {fuel : Nat} {bytes : List UInt8} {fields : List KeptField}
    (h : readFieldsAux fuel bytes = some fields) :
    (fields.flatMap KeptField.encode).length ≤ bytes.length := by
  induction fuel generalizing bytes fields with
  | zero =>
    cases bytes with
    | nil =>
      cases h
      exact Nat.le_refl 0
    | cons b bytes => cases h
  | succ fuel ih =>
    cases bytes with
    | nil =>
      cases h
      exact Nat.le_refl 0
    | cons b bytes =>
      rw [readFieldsAux] at h
      split at h
      · cases h
      · rename_i tag behind htag
        have htag := length_readTag_le htag
        split at h
        · cases h
        · rename_i value rest hvalue
          have hvalue := length_readValue_le hvalue
          obtain ⟨more, hmore, rfl⟩ := Option.map_eq_some_iff.mp h
          have hrest := ih hmore
          simp only [List.flatMap_cons, List.length_append, KeptField.encode]
          omega

/-- Written again, the fields are not longer than what was read. -/
theorem length_readFields_le {bytes : List UInt8} {fields : List KeptField}
    (h : readFields bytes = some fields) :
    (fields.flatMap KeptField.encode).length ≤ bytes.length :=
  length_readFieldsAux_le h

end Tubekit.Lib.ProtoWire
