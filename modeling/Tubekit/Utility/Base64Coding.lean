import Tubekit.Lib.Radix
import Tubekit.Utility.Base64

/-!
# What base64 texts stand for

A text in base64 is a number in base 64: the encoder takes the bytes as a number in base 256, puts
as many zero bits behind it as a whole number of digits needs, and writes the digits (`encode_eq`).
The decoder drops what is more than whole bytes (`decodeLoop_reads`). So it undoes the encoder, for
both alphabets.
-/

namespace Tubekit.Base64

open Lib Radix

variable {url : Bool} {bytes : List Byte}

/-! ## The encoding as a change of base -/

/-- The number of digits for so many bytes. -/
def digitCount (length : Nat) : Nat := (4 * length + 2) / 3

/-- The number of bits that fill up the last digit. -/
def fill (length : Nat) : Nat := 6 * digitCount length - 8 * length

/-- The bytes as a number. -/
def value (bytes : List Byte) : Nat := number 256 (bytes.map UInt8.toNat)

/-- The bytes in base 64. -/
def sextets (bytes : List Byte) : List Nat :=
  digits 64 (digitCount bytes.length) (value bytes * 2 ^ fill bytes.length)

/-- The text for the bytes. -/
def text (url : Bool) (bytes : List Byte) : List Byte :=
  (sextets bytes).map (charAt url) ++
    List.replicate ((3 - bytes.length % 3) % 3) (trailingChar url)

/-- The whole bytes of a number in base 64. -/
def octets (ds : List Nat) : List Byte :=
  (digits 256 (6 * ds.length / 8) (number 64 ds / 2 ^ (6 * ds.length % 8))).map UInt8.ofNat

theorem value_lt (bytes : List Byte) : value bytes < 256 ^ bytes.length := by
  rw [value, ← List.length_map (f := UInt8.toNat)]
  apply number_lt
  intro d hd
  obtain ⟨b, -, rfl⟩ := List.mem_map.mp hd
  exact b.toNat_lt

/-- The bits of the bytes and the fill are the bits of the digits. -/
theorem bits_eq (length : Nat) :
    256 ^ length * 2 ^ fill length = 64 ^ digitCount length := by
  rw [show 256 = 2 ^ 8 from rfl, show 64 = 2 ^ 6 from rfl, ← Nat.pow_mul, ← Nat.pow_mul,
    ← Nat.pow_add]
  congr 1
  unfold fill digitCount
  omega

theorem fill_lt (length : Nat) : fill length < 6 := by
  unfold fill digitCount
  omega

/-- A last group of one or two bytes takes one digit more. -/
theorem digitCount_mod {length : Nat} (h : length % 3 ≠ 0) :
    digitCount length % 4 = length % 3 + 1 := by
  have hcases : length % 3 = 1 ∨ length % 3 = 2 := by omega
  rcases hcases with hone | htwo
  · have hcount : digitCount length = 4 * (length / 3) + 2 := by
      unfold digitCount
      omega
    omega
  · have hcount : digitCount length = 4 * (length / 3) + 3 := by
      unfold digitCount
      omega
    omega

/-- The digits of the encoding are read as the bytes. -/
theorem octets_sextets (bytes : List Byte) : octets (sextets bytes) = bytes := by
  have hlen : (sextets bytes).length = digitCount bytes.length := length_digits _ _
  have hcount : 6 * digitCount bytes.length / 8 = bytes.length := by
    unfold digitCount
    omega
  have hrest : 6 * digitCount bytes.length % 8 = fill bytes.length := by
    unfold fill digitCount
    omega
  have hlt : value bytes * 2 ^ fill bytes.length < 64 ^ digitCount bytes.length := by
    rw [← bits_eq]
    exact Nat.mul_lt_mul_of_pos_right (value_lt bytes) (Nat.two_pow_pos _)
  have hnumber : number 64 (sextets bytes) = value bytes * 2 ^ fill bytes.length := by
    rw [sextets, number_digits, Nat.mod_eq_of_lt hlt]
  have hbytes : ∀ d ∈ bytes.map UInt8.toNat, d < 256 := by
    intro d hd
    obtain ⟨b, -, rfl⟩ := List.mem_map.mp hd
    exact b.toNat_lt
  have hdigits : digits 256 bytes.length (value bytes) = bytes.map UInt8.toNat := by
    have h := digits_number (by omega) hbytes
    rwa [List.length_map] at h
  rw [octets, hlen, hcount, hrest, hnumber, Nat.mul_div_cancel _ (Nat.two_pow_pos _), hdigits,
    List.map_map]
  apply List.map_id''
  intro b
  exact UInt8.ofNat_toNat

/-! ## The encoder -/

/-- The rounds of the loop over what is left of the bytes. -/
def groups (url : Bool) : List Byte → List Byte
  | [] => []
  | [b₀] => encodeGroup url [b₀] 0
  | [b₀, b₁] => encodeGroup url [b₀, b₁] 0
  | b₀ :: b₁ :: b₂ :: rest => encodeGroup url [b₀, b₁, b₂] 0 ++ groups url rest

theorem mask_high (n : Nat) : (n &&& 0xfc) >>> 2 = n / 4 % 64 := by
  rw [Nat.shiftRight_and_distrib, Nat.shiftRight_eq_div_pow n 2]
  exact Nat.and_two_pow_sub_one_eq_mod _ 6

theorem mask_low (n : Nat) : (n &&& 0x03) <<< 4 = n % 4 * 16 := by
  rw [Nat.shiftLeft_eq, Nat.and_two_pow_sub_one_eq_mod n 2]

theorem mask_upper (n : Nat) : (n &&& 0xf0) >>> 4 = n / 16 % 16 := by
  rw [Nat.shiftRight_and_distrib, Nat.shiftRight_eq_div_pow n 4]
  exact Nat.and_two_pow_sub_one_eq_mod _ 4

theorem mask_lower (n : Nat) : (n &&& 0x0f) <<< 2 = n % 16 * 4 := by
  rw [Nat.shiftLeft_eq, Nat.and_two_pow_sub_one_eq_mod n 4]

theorem mask_top (n : Nat) : (n &&& 0xc0) >>> 6 = n / 64 % 4 := by
  rw [Nat.shiftRight_and_distrib, Nat.shiftRight_eq_div_pow n 6]
  exact Nat.and_two_pow_sub_one_eq_mod _ 2

theorem mask_last (n : Nat) : n &&& 0x3f = n % 64 := Nat.and_two_pow_sub_one_eq_mod n 6

theorem digits_four (n : Nat) :
    digits 64 4 n = [n / 262144 % 64, n / 4096 % 64, n / 64 % 64, n % 64] := by
  simp [digits]

theorem digits_three (n : Nat) : digits 64 3 n = [n / 4096 % 64, n / 64 % 64, n % 64] := by
  simp [digits]

theorem digits_two (n : Nat) : digits 64 2 n = [n / 64 % 64, n % 64] := by
  simp [digits]

/-- A group of three bytes. -/
theorem encodeGroup_three (b₀ b₁ b₂ : Byte) :
    encodeGroup url [b₀, b₁, b₂] 0 = (digits 64 4 (value [b₀, b₁, b₂])).map (charAt url) := by
  have h₀ := b₀.toNat_lt
  have h₁ := b₁.toNat_lt
  have h₂ := b₂.toNat_lt
  have hvalue : value [b₀, b₁, b₂] = b₀.toNat * 65536 + b₁.toNat * 256 + b₂.toNat := by
    simp [value, number, Nat.add_assoc]
  have hgroup : encodeGroup url [b₀, b₁, b₂] 0 = [(b₀.toNat &&& 0xfc) >>> 2,
      ((b₀.toNat &&& 0x03) <<< 4) + ((b₁.toNat &&& 0xf0) >>> 4),
      ((b₁.toNat &&& 0x0f) <<< 2) + ((b₂.toNat &&& 0xc0) >>> 6),
      b₂.toNat &&& 0x3f].map (charAt url) := rfl
  rw [hgroup, mask_high, mask_low, mask_upper, mask_lower, mask_top, mask_last, digits_four, hvalue]
  congr 2
  · omega
  congr 1
  · omega
  congr 1
  · omega
  congr 1
  omega

/-- A last group of two bytes, with two bits behind it. -/
theorem encodeGroup_two (b₀ b₁ : Byte) : encodeGroup url [b₀, b₁] 0 = text url [b₀, b₁] := by
  have h₀ := b₀.toNat_lt
  have h₁ := b₁.toNat_lt
  have hvalue : value [b₀, b₁] = b₀.toNat * 256 + b₁.toNat := by
    simp [value, number]
  have hgroup : encodeGroup url [b₀, b₁] 0 = [(b₀.toNat &&& 0xfc) >>> 2,
      ((b₀.toNat &&& 0x03) <<< 4) + ((b₁.toNat &&& 0xf0) >>> 4),
      (b₁.toNat &&& 0x0f) <<< 2].map (charAt url) ++ [trailingChar url] := rfl
  have htext : text url [b₀, b₁] = (digits 64 3 (value [b₀, b₁] * 4)).map (charAt url) ++
      [trailingChar url] := by
    simp [text, sextets, digitCount, fill]
  rw [hgroup, htext, mask_high, mask_low, mask_upper, mask_lower, digits_three, hvalue]
  congr 3
  · omega
  congr 1
  · omega
  congr 1
  omega

/-- A last group of one byte, with four bits behind it. -/
theorem encodeGroup_one (b₀ : Byte) : encodeGroup url [b₀] 0 = text url [b₀] := by
  have h₀ := b₀.toNat_lt
  have hvalue : value [b₀] = b₀.toNat := by
    simp [value, number]
  have hgroup : encodeGroup url [b₀] 0 = [(b₀.toNat &&& 0xfc) >>> 2,
      (b₀.toNat &&& 0x03) <<< 4].map (charAt url) ++ [trailingChar url, trailingChar url] := rfl
  have htext : text url [b₀] = (digits 64 2 (value [b₀] * 16)).map (charAt url) ++
      [trailingChar url, trailingChar url] := by
    simp [text, sextets, digitCount, fill]
  rw [hgroup, htext, mask_high, mask_low, digits_two, hvalue]
  congr 3
  · omega
  congr 1
  omega

/-- The digits of the first three bytes stand in front of those of the others. -/
theorem sextets_cons (b₀ b₁ b₂ : Byte) (rest : List Byte) :
    sextets (b₀ :: b₁ :: b₂ :: rest) = digits 64 4 (value [b₀, b₁, b₂]) ++ sextets rest := by
  have hcount : digitCount (rest.length + 3) = 4 + digitCount rest.length := by
    unfold digitCount
    omega
  have hfill : fill (rest.length + 3) = fill rest.length := by
    unfold fill digitCount
    omega
  have hvalue : value (b₀ :: b₁ :: b₂ :: rest) =
      value [b₀, b₁, b₂] * 256 ^ rest.length + value rest := by
    have happend : number 256 ([b₀, b₁, b₂].map UInt8.toNat ++ rest.map UInt8.toNat) = _ :=
      number_append _ _
    rwa [List.length_map] at happend
  have hlow : value rest * 2 ^ fill rest.length < 64 ^ digitCount rest.length := by
    rw [← bits_eq]
    exact Nat.mul_lt_mul_of_pos_right (value_lt rest) (Nat.two_pow_pos _)
  have hlength : (b₀ :: b₁ :: b₂ :: rest).length = rest.length + 3 := rfl
  rw [sextets, hlength, hcount, hfill, hvalue, Nat.add_mul, Nat.mul_assoc, bits_eq,
    digits_add_parts hlow, sextets]

theorem text_cons (b₀ b₁ b₂ : Byte) (rest : List Byte) :
    text url (b₀ :: b₁ :: b₂ :: rest) =
      (digits 64 4 (value [b₀, b₁, b₂])).map (charAt url) ++ text url rest := by
  have hpad : (b₀ :: b₁ :: b₂ :: rest).length % 3 = rest.length % 3 := Nat.add_mod_right _ 3
  rw [text, sextets_cons, hpad, List.map_append, List.append_assoc, text]

theorem groups_eq (bytes : List Byte) : groups url bytes = text url bytes := by
  induction bytes using groups.induct with
  | case1 => rfl
  | case2 b₀ => exact encodeGroup_one b₀
  | case3 b₀ b₁ => exact encodeGroup_two b₀ b₁
  | case4 b₀ b₁ b₂ rest ih => rw [groups, encodeGroup_three, ih, text_cons]

/-! ## The loop of the encoder -/

/-- The round at `pos` is the first one for what stands there. -/
theorem encodeGroup_drop {pos : UInt32} (hpos : pos.toNat + 2 < 2 ^ 32) :
    encodeGroup url bytes pos = encodeGroup url (bytes.drop pos.toNat) 0 := by
  have hone : (pos + 1).toNat = pos.toNat + 1 := by
    rw [UInt32.toNat_add]
    exact Nat.mod_eq_of_lt (Nat.lt_of_succ_lt hpos)
  have htwo : (pos + 2).toNat = pos.toNat + 2 := by
    rw [UInt32.toNat_add]
    exact Nat.mod_eq_of_lt hpos
  have hget (i : Nat) : (bytes.drop pos.toNat).getD i 0 = bytes.getD (pos.toNat + i) 0 := by
    rw [List.getD_eq_getElem?_getD, List.getD_eq_getElem?_getD, List.getElem?_drop]
  have hlt (i : Nat) : i < (bytes.drop pos.toNat).length ↔ pos.toNat + i < bytes.length := by
    rw [List.length_drop]
    omega
  unfold encodeGroup
  simp only [hone, htwo, UInt32.zero_add, UInt32.toNat_zero, UInt32.toNat_one,
    UInt32.reduceToNat, hget, hlt, Nat.add_zero]

theorem encodeGroup_append (b₀ b₁ b₂ : Byte) (rest : List Byte) :
    encodeGroup url (b₀ :: b₁ :: b₂ :: rest) 0 = encodeGroup url [b₀, b₁, b₂] 0 := by
  have hone : (0 + 1 : UInt32).toNat < (b₀ :: b₁ :: b₂ :: rest).length := Nat.succ_lt_succ
    (Nat.zero_lt_succ _)
  have htwo : (0 + 2 : UInt32).toNat < (b₀ :: b₁ :: b₂ :: rest).length := Nat.succ_lt_succ
    (Nat.succ_lt_succ (Nat.zero_lt_succ _))
  unfold encodeGroup
  simp only [if_pos hone, if_pos htwo]
  rfl

theorem groups_drop {pos : UInt32} (hpos : pos.toNat + 2 < 2 ^ 32)
    (hlt : pos.toNat < bytes.length) :
    groups url (bytes.drop pos.toNat) =
      encodeGroup url bytes pos ++ groups url (bytes.drop (pos.toNat + 3)) := by
  have hne : bytes.drop pos.toNat ≠ [] := by
    intro hnil
    have hlen := congrArg List.length hnil
    rw [List.length_drop, List.length_nil] at hlen
    omega
  rw [encodeGroup_drop hpos, ← List.drop_drop]
  generalize bytes.drop pos.toNat = left at hne
  match left with
  | [] => exact absurd rfl hne
  | [b₀] => rw [groups, List.drop_eq_nil_of_le (by simp), groups, List.append_nil]
  | [b₀, b₁] => rw [groups, List.drop_eq_nil_of_le (by simp), groups, List.append_nil]
  | b₀ :: b₁ :: b₂ :: rest => rw [groups, encodeGroup_append]; rfl

/-- The loop from `pos` on. -/
theorem encodeLoop_eq (hlength : bytes.length < 2 ^ 32) {rounds : Nat} {pos : UInt32}
    (ret : List Byte) (hdvd : 3 ∣ pos.toNat) (hrounds : bytes.length ≤ pos.toNat + 3 * rounds) :
    encodeLoop url bytes (rounds + 1) pos ret =
      some (ret ++ groups url (bytes.drop pos.toNat)) := by
  induction rounds generalizing pos ret with
  | zero =>
    rw [encodeLoop, if_neg (by omega), List.drop_eq_nil_of_le (by omega), groups, List.append_nil]
  | succ rounds ih =>
    rw [encodeLoop]
    split
    · rename_i hpos
      have hroom : pos.toNat + 3 < 2 ^ 32 := by omega
      have hnext : (pos + 3).toNat = pos.toNat + 3 := by
        rw [UInt32.toNat_add]
        exact Nat.mod_eq_of_lt hroom
      rw [ih _ (by omega) (by omega), hnext, groups_drop (by omega) hpos, List.append_assoc]
    · rename_i hpos
      rw [List.drop_eq_nil_of_le (by omega), groups, List.append_nil]

/-- A text of 4 GiB is never encoded: the position wraps around. -/
theorem encodeLoop_none (hlength : 2 ^ 32 ≤ bytes.length) (rounds : Nat) (pos : UInt32)
    (ret : List Byte) : encodeLoop url bytes rounds pos ret = none := by
  induction rounds generalizing pos ret with
  | zero => rfl
  | succ rounds ih =>
    have hpos : pos.toNat < bytes.length := pos.toNat_lt.trans_le hlength
    rw [encodeLoop, if_pos hpos]
    exact ih _ _

/-- More rounds do not change what the loop returns. -/
theorem encodeLoop_mono {rounds : Nat} (more : Nat) {pos : UInt32} {ret result : List Byte}
    (h : encodeLoop url bytes rounds pos ret = some result) :
    encodeLoop url bytes (rounds + more) pos ret = some result := by
  induction rounds generalizing pos ret with
  | zero => cases h
  | succ rounds ih =>
    rw [encodeLoop] at h
    rw [Nat.succ_add, encodeLoop]
    split
    · rename_i hpos
      rw [if_pos hpos] at h
      exact ih h
    · rename_i hpos
      rwa [if_neg hpos] at h

/-- The encoder writes the number of the bytes in base 64, unless there are 4 GiB of them: then it
does not return. -/
theorem encode_eq (bytes : List Byte) (url : Bool) {rounds : Nat}
    (hrounds : digitCount bytes.length < rounds) :
    encode rounds bytes url = if bytes.length < 2 ^ 32 then some (text url bytes) else none := by
  obtain ⟨n, rfl⟩ := Nat.exists_eq_add_of_lt (Nat.zero_lt_of_lt hrounds)
  split
  · rename_i hlength
    have henough : bytes.length ≤ (0 : UInt32).toNat + 3 * (0 + n) := by
      unfold digitCount at hrounds
      rw [UInt32.toNat_zero]
      omega
    rw [encode, encodeLoop_eq hlength [] ⟨0, rfl⟩ henough, UInt32.toNat_zero,
      List.drop_zero, List.nil_append, groups_eq]
  · rename_i hlength
    exact encodeLoop_none (by omega) _ _ _

/-- What the encoder returns is the text for the bytes. -/
theorem eq_text_of_encode {rounds : Nat} {encoded : List Byte}
    (h : encode rounds bytes url = some encoded) : encoded = text url bytes := by
  have hmore := encodeLoop_mono (digitCount bytes.length + 1) h
  have hlt : digitCount bytes.length < rounds + (digitCount bytes.length + 1) := by omega
  have heq := encode_eq bytes url hlt
  rw [encode, hmore] at heq
  split at heq
  · exact Option.some.inj heq
  · cases heq

/-! ## The decoder -/

/-- The characters have these positions in the alphabets. -/
def Reads (cs : List Byte) (ds : List Nat) : Prop :=
  List.Forall₂ (fun c d => posOfChar c = .ok d) cs ds

/-- A character that ends a group. -/
def isPadding (c : Byte) : Bool := c = 61 ∨ c = 46

/-- The padding may fill up a last group of two or three characters. -/
def Pads (count : Nat) (pad : List Byte) : Prop :=
  (pad.all isPadding = true) ∧ (pad = [] ∨ 2 ≤ count % 4 ∧ count % 4 + pad.length ≤ 4)

theorem posOfChar_lt {c : Byte} {d : Nat} (h : posOfChar c = .ok d) : d < 64 := by
  simp only [posOfChar, UInt8.le_iff_toNat_le, UInt8.reduceToNat] at h
  split at h
  · cases h
    omega
  split at h
  · cases h
    omega
  split at h
  · cases h
    omega
  split at h
  · cases h
    omega
  split at h
  · cases h
    omega
  · cases h

theorem posOfChar_ne_outOfRange (c : Byte) : posOfChar c ≠ .error .outOfRange := by
  unfold posOfChar
  split_ifs <;> intro h <;> cases h

theorem dataChar_of_pos {c : Byte} {d : Nat} (h : posOfChar c = .ok d) :
    dataChar (some c) = some c := by
  have hne : c ≠ 61 ∧ c ≠ 46 := by
    constructor <;> rintro rfl <;> cases h
  simp [dataChar, hne]

theorem dataChar_padding {c : Byte} (h : isPadding c = true) : dataChar (some c) = none := by
  simp only [isPadding, Bool.decide_or, Bool.or_eq_true, decide_eq_true_eq] at h
  rcases h with rfl | rfl <;> rfl

theorem mask_pair (n : Nat) (h : n < 64) : (n &&& 0x30) >>> 4 = n / 16 := by
  rw [Nat.shiftRight_and_distrib, Nat.shiftRight_eq_div_pow n 4]
  exact (Nat.and_two_pow_sub_one_eq_mod _ 2).trans (Nat.mod_eq_of_lt (by omega))

theorem mask_middle (n : Nat) (h : n < 64) : (n &&& 0x3c) >>> 2 = n / 4 := by
  rw [Nat.shiftRight_and_distrib, Nat.shiftRight_eq_div_pow n 2]
  exact (Nat.and_two_pow_sub_one_eq_mod _ 4).trans (Nat.mod_eq_of_lt (by omega))

theorem mask_nibble (n : Nat) : (n &&& 0x0f) <<< 4 = n % 16 * 16 := by
  rw [Nat.shiftLeft_eq, Nat.and_two_pow_sub_one_eq_mod n 4]

theorem mask_bits (n : Nat) : (n &&& 0x03) <<< 6 = n % 4 * 64 := by
  rw [Nat.shiftLeft_eq, Nat.and_two_pow_sub_one_eq_mod n 2]

variable {c₀ c₁ : Byte} {c₂ c₃ : Option Byte} {d₀ d₁ d₂ d₃ : Nat}

theorem decodeGroup_two (h₀ : posOfChar c₀ = .ok d₀) (h₁ : posOfChar c₁ = .ok d₁)
    (h₂ : dataChar c₂ = none) : decodeGroup c₀ c₁ c₂ c₃ = .ok (octets [d₀, d₁]) := by
  have hlt₀ := posOfChar_lt h₀
  have hlt₁ := posOfChar_lt h₁
  have hgroup : decodeGroup c₀ c₁ c₂ c₃ =
      .ok ([(d₀ <<< 2) + ((d₁ &&& 0x30) >>> 4)].map UInt8.ofNat) := by
    rw [decodeGroup, h₀, h₁]
    simp only [h₂]
    rfl
  have hoctets : octets [d₀, d₁] = [(d₀ * 64 + d₁) / 16 % 256].map UInt8.ofNat := by
    simp [octets, digits, number]
  rw [hgroup, hoctets, mask_pair _ hlt₁, Nat.shiftLeft_eq]
  congr 3
  omega

theorem decodeGroup_three {c₂ : Byte} (h₀ : posOfChar c₀ = .ok d₀) (h₁ : posOfChar c₁ = .ok d₁)
    (h₂ : posOfChar c₂ = .ok d₂) (h₃ : dataChar c₃ = none) :
    decodeGroup c₀ c₁ (some c₂) c₃ = .ok (octets [d₀, d₁, d₂]) := by
  have hlt₀ := posOfChar_lt h₀
  have hlt₁ := posOfChar_lt h₁
  have hlt₂ := posOfChar_lt h₂
  have hgroup : decodeGroup c₀ c₁ (some c₂) c₃ =
      .ok ([(d₀ <<< 2) + ((d₁ &&& 0x30) >>> 4),
        ((d₁ &&& 0x0f) <<< 4) + ((d₂ &&& 0x3c) >>> 2)].map UInt8.ofNat) := by
    rw [decodeGroup, h₀, h₁, dataChar_of_pos h₂]
    simp only [h₂, h₃]
    rfl
  have hoctets : octets [d₀, d₁, d₂] = [(d₀ * 4096 + d₁ * 64 + d₂) / 4 / 256 % 256,
      (d₀ * 4096 + d₁ * 64 + d₂) / 4 % 256].map UInt8.ofNat := by
    simp [octets, digits, number, Nat.add_assoc]
  rw [hgroup, hoctets, mask_pair _ hlt₁, mask_middle _ hlt₂, mask_nibble, Nat.shiftLeft_eq]
  congr 3
  · omega
  congr 1
  omega

theorem decodeGroup_four {c₂ c₃ : Byte} (h₀ : posOfChar c₀ = .ok d₀) (h₁ : posOfChar c₁ = .ok d₁)
    (h₂ : posOfChar c₂ = .ok d₂) (h₃ : posOfChar c₃ = .ok d₃) :
    decodeGroup c₀ c₁ (some c₂) (some c₃) =
      .ok ((digits 256 3 (number 64 [d₀, d₁, d₂, d₃])).map UInt8.ofNat) := by
  have hlt₀ := posOfChar_lt h₀
  have hlt₁ := posOfChar_lt h₁
  have hlt₂ := posOfChar_lt h₂
  have hlt₃ := posOfChar_lt h₃
  have hgroup : decodeGroup c₀ c₁ (some c₂) (some c₃) =
      .ok ([(d₀ <<< 2) + ((d₁ &&& 0x30) >>> 4), ((d₁ &&& 0x0f) <<< 4) + ((d₂ &&& 0x3c) >>> 2),
        ((d₂ &&& 0x03) <<< 6) + d₃].map UInt8.ofNat) := by
    rw [decodeGroup, h₀, h₁, dataChar_of_pos h₂, dataChar_of_pos h₃]
    simp only [h₂, h₃]
    rfl
  have hnumber : number 64 [d₀, d₁, d₂, d₃] = d₀ * 262144 + d₁ * 4096 + d₂ * 64 + d₃ := by
    simp [number, Nat.add_assoc]
  have hdigits (n : Nat) : digits 256 3 n = [n / 65536 % 256, n / 256 % 256, n % 256] := by
    simp [digits]
  rw [hgroup, hdigits, hnumber, mask_pair _ hlt₁, mask_middle _ hlt₂, mask_nibble, mask_bits,
    Nat.shiftLeft_eq]
  congr 3
  · omega
  congr 1
  · omega
  congr 1
  omega

theorem octets_cons {ds : List Nat} (hds : ∀ d ∈ ds, d < 64) :
    octets (d₀ :: d₁ :: d₂ :: d₃ :: ds) =
      (digits 256 3 (number 64 [d₀, d₁, d₂, d₃])).map UInt8.ofNat ++ octets ds := by
  have hcount : 6 * (ds.length + 4) / 8 = 3 + 6 * ds.length / 8 := by omega
  have hrest : 6 * (ds.length + 4) % 8 = 6 * ds.length % 8 := by omega
  have hbits : 64 ^ ds.length = 256 ^ (6 * ds.length / 8) * 2 ^ (6 * ds.length % 8) := by
    rw [show 256 = 2 ^ 8 from rfl, show 64 = 2 ^ 6 from rfl, ← Nat.pow_mul, ← Nat.pow_mul,
      ← Nat.pow_add, Nat.div_add_mod]
  have hnumber : number 64 (d₀ :: d₁ :: d₂ :: d₃ :: ds) =
      number 64 [d₀, d₁, d₂, d₃] * 64 ^ ds.length + number 64 ds :=
    number_append [d₀, d₁, d₂, d₃] ds
  have hpow : 0 < 2 ^ (6 * ds.length % 8) := Nat.two_pow_pos _
  have hdiv : (number 64 [d₀, d₁, d₂, d₃] * 64 ^ ds.length + number 64 ds) /
      2 ^ (6 * ds.length % 8) = number 64 [d₀, d₁, d₂, d₃] * 256 ^ (6 * ds.length / 8) +
        number 64 ds / 2 ^ (6 * ds.length % 8) := by
    rw [hbits, ← Nat.mul_assoc, Nat.mul_comm _ (2 ^ (6 * ds.length % 8)), Nat.mul_add_div hpow]
  have hlow : number 64 ds / 2 ^ (6 * ds.length % 8) < 256 ^ (6 * ds.length / 8) := by
    rw [Nat.div_lt_iff_lt_mul hpow, ← hbits]
    exact number_lt hds
  have hlength : (d₀ :: d₁ :: d₂ :: d₃ :: ds).length = ds.length + 4 := rfl
  rw [octets, hlength, hcount, hrest, hnumber, hdiv, digits_add_parts hlow, List.map_append, octets]

theorem Reads.lt {cs : List Byte} {ds : List Nat} (h : Reads cs ds) : ∀ d ∈ ds, d < 64 := by
  induction h with
  | nil =>
    intro d hd
    cases hd
  | cons hd _ ih => exact List.forall_mem_cons.mpr ⟨posOfChar_lt hd, ih⟩

/-- The decoder gives the whole bytes of the number that the characters stand for, with the padding
of the last group or without it. -/
theorem decodeLoop_reads {cs : List Byte} {ds : List Nat} {pad : List Byte} (h : Reads cs ds)
    (hcount : ds.length % 4 ≠ 1) (hpad : Pads ds.length pad) :
    decodeLoop (cs ++ pad) = .ok (octets ds) := by
  obtain ⟨hall, hlength⟩ := hpad
  induction cs using decodeLoop.induct generalizing ds with
  | case1 =>
    cases h
    have hnil : pad = [] := hlength.resolve_right (by simp)
    rw [hnil]
    rfl
  | case2 c₀ =>
    rcases h with _ | ⟨-, _ | _⟩
    exact absurd rfl hcount
  | case3 c₀ c₁ =>
    rcases h with _ | ⟨h₀, _ | ⟨h₁, _ | _⟩⟩
    match pad with
    | [] => exact decodeGroup_two h₀ h₁ rfl
    | [p] =>
      have hp : isPadding p = true := by simpa using hall
      exact decodeGroup_two h₀ h₁ (dataChar_padding hp)
    | [p, q] =>
      have hp : isPadding p = true := by
        rw [List.all_cons, Bool.and_eq_true] at hall
        exact hall.1
      change decodeLoop [c₀, c₁, p, q] = _
      rw [decodeLoop, decodeGroup_two h₀ h₁ (dataChar_padding hp)]
      exact congrArg Except.ok (List.append_nil _)
    | p :: q :: r :: rest =>
      simp at hlength
      omega
  | case4 c₀ c₁ c₂ =>
    rcases h with _ | ⟨h₀, _ | ⟨h₁, _ | ⟨h₂, _ | _⟩⟩⟩
    match pad with
    | [] => exact decodeGroup_three h₀ h₁ h₂ rfl
    | [p] =>
      have hp : isPadding p = true := by simpa using hall
      change decodeLoop [c₀, c₁, c₂, p] = _
      rw [decodeLoop, decodeGroup_three h₀ h₁ h₂ (dataChar_padding hp)]
      exact congrArg Except.ok (List.append_nil _)
    | p :: q :: rest =>
      simp at hlength
      omega
  | case5 c₀ c₁ c₂ c₃ text ih =>
    rcases h with _ | ⟨h₀, _ | ⟨h₁, _ | ⟨h₂, _ | ⟨h₃, h⟩⟩⟩⟩
    rename_i ds
    have hmod : (ds.length + 4) % 4 = ds.length % 4 := Nat.add_mod_right _ _
    simp only [List.length_cons, hmod] at hcount hlength
    have htext := ih h hcount hlength
    rw [octets_cons (Reads.lt h)]
    change decodeLoop (c₀ :: c₁ :: c₂ :: c₃ :: (text ++ pad)) = _
    rw [decodeLoop, decodeGroup_four h₀ h₁ h₂ h₃, htext]
    rfl

/-- Complete groups in front of a text. -/
theorem decodeLoop_append {cs : List Byte} {ds : List Nat} (h : Reads cs ds)
    (hcount : ds.length % 4 = 0) (rest : List Byte) :
    decodeLoop (cs ++ rest) = (decodeLoop rest).map (octets ds ++ ·) := by
  induction cs using decodeLoop.induct generalizing ds with
  | case1 =>
    cases h
    have hnil : (octets [] ++ ·) = (id : List Byte → List Byte) := rfl
    rw [List.nil_append, hnil]
    cases decodeLoop rest <;> rfl
  | case2 c₀ =>
    rcases h with _ | ⟨-, _ | _⟩
    cases hcount
  | case3 c₀ c₁ =>
    rcases h with _ | ⟨-, _ | ⟨-, _ | _⟩⟩
    cases hcount
  | case4 c₀ c₁ c₂ =>
    rcases h with _ | ⟨-, _ | ⟨-, _ | ⟨-, _ | _⟩⟩⟩
    cases hcount
  | case5 c₀ c₁ c₂ c₃ text ih =>
    rcases h with _ | ⟨h₀, _ | ⟨h₁, _ | ⟨h₂, _ | ⟨h₃, h⟩⟩⟩⟩
    rename_i ds
    have hmod : (ds.length + 4) % 4 = ds.length % 4 := Nat.add_mod_right _ _
    simp only [List.length_cons, hmod] at hcount
    change decodeLoop (c₀ :: c₁ :: c₂ :: c₃ :: (text ++ rest)) = _
    rw [decodeLoop, decodeGroup_four h₀ h₁ h₂ h₃, ih h hcount, octets_cons (Reads.lt h)]
    cases decodeLoop rest with
    | error e => rfl
    | ok bytes => exact congrArg Except.ok (List.append_assoc _ _ _).symm

/-- A character outside the alphabets at the beginning of a group. -/
theorem decodeLoop_error {rest : List Byte} (h : posOfChar c₀ = .error .runtimeError) :
    decodeLoop (c₀ :: c₁ :: rest) = .error .runtimeError := by
  have hgroup (c₂ c₃ : Option Byte) : decodeGroup c₀ c₁ c₂ c₃ = .error .runtimeError := by
    unfold decodeGroup
    cases h₁ : posOfChar c₁ with
    | error e =>
      cases e with
      | outOfRange => exact absurd h₁ (posOfChar_ne_outOfRange c₁)
      | runtimeError => rfl
    | ok d =>
      rw [h]
      rfl
  match rest with
  | [] => exact hgroup _ _
  | [c₂] => exact hgroup _ _
  | c₂ :: c₃ :: rest =>
    rw [decodeLoop, hgroup]
    rfl

/-- One character that is left over. -/
theorem decodeLoop_odd {cs : List Byte} {ds : List Nat} (h : Reads cs ds)
    (hcount : ds.length % 4 = 1) : decodeLoop cs = .error .outOfRange := by
  induction cs using decodeLoop.induct generalizing ds with
  | case1 =>
    cases h
    cases hcount
  | case2 c₀ => rfl
  | case3 c₀ c₁ =>
    rcases h with _ | ⟨-, _ | ⟨-, _ | _⟩⟩
    cases hcount
  | case4 c₀ c₁ c₂ =>
    rcases h with _ | ⟨-, _ | ⟨-, _ | ⟨-, _ | _⟩⟩⟩
    cases hcount
  | case5 c₀ c₁ c₂ c₃ text ih =>
    rcases h with _ | ⟨h₀, _ | ⟨h₁, _ | ⟨h₂, _ | ⟨h₃, h⟩⟩⟩⟩
    rename_i ds
    have hmod : (ds.length + 4) % 4 = ds.length % 4 := Nat.add_mod_right _ _
    simp only [List.length_cons, hmod] at hcount
    rw [decodeLoop, decodeGroup_four h₀ h₁ h₂ h₃, ih h hcount]
    rfl

end Tubekit.Base64
