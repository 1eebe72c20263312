import Tubekit.Lib.PercentCoding
import Tubekit.Utility.Url

/-!
# Percent coding by `url`

`url::decode` is a percent decoder whose escapes are the pairs that `extractHex` accepts. These are
more than the pairs of hexadecimal digits: a blank or a sign may stand for the first digit, and
what is no digit for the second. The decoder undoes the encoder (`decode_encode`), which writes
the bytes below 16 with a blank. It is the reference decoder only for texts without such pairs
(`decode_eq_reference_iff`), and the reference decoder does not undo the encoder where it writes a
blank (`encode_conforms_iff`).
-/

namespace Tubekit.Url

open Lib PercentCoding

variable {b c d value : Byte} {text : List Byte}

/-- The escapes of `url::decode`. -/
def lenient (c d : Byte) : Option Byte := (extractHex [c, d]).map toChar

theorem decode_eq (text : List Byte) : decode text = PercentCoding.decode lenient plain text := by
  fun_induction Url.decode text with
  | case1 c d rest value hvalue ih =>
    have hescape : lenient c d = some (toChar value) := by rw [lenient, hvalue, Option.map_some]
    rw [ih]
    exact (decode_escape hescape).symm
  | case2 c d rest hnone ih =>
    have hescape : lenient c d = none := by rw [lenient, hnone, Option.map_none]
    rw [ih]
    have hplain : PercentCoding.decode lenient plain (percent :: c :: d :: rest) = _ :=
      decode_not_escape hescape
    exact hplain.symm
  | case3 b c d rest hb ih =>
    rw [ih]
    exact (decode_cons fun _ _ _ _ => hb).symm
  | case4 b rest hshort ih =>
    rw [ih]
    exact (decode_cons fun c d tail htail => absurd htail (hshort c d tail)).symm
  | case5 => exact decode_nil.symm

/-! ## What is read behind a `%` -/

/-- Two hexadecimal digits. -/
def hexPair (c d : Byte) : Option Byte :=
  match hexDigit c, hexDigit d with
  | some high, some low => some (UInt8.ofNat (16 * high + low))
  | _, _ => none

/-- Two characters that are read as a number and are not two digits: a digit behind white space or a
sign, or a digit with another character behind it, except for the `x` of `0x`. -/
def misread (c d : Byte) : Bool :=
  ((isSpace c || c == 43 || c == 45) && (hexDigit d).isSome) ||
    ((hexDigit c).isSome && (hexDigit d).isNone && !(c == 48 && (d == 120 || d == 88)))

theorem hexDigit_lt {digit : Nat} (h : hexDigit b = some digit) : digit < 16 := by
  unfold hexDigit at h
  split at h
  · next hb =>
    have := UInt8.le_iff_toNat_le.mp hb.2
    cases h
    simp only [UInt8.reduceToNat] at this
    omega
  · split at h
    · next hb =>
      have := UInt8.le_iff_toNat_le.mp hb.2
      cases h
      simp only [UInt8.reduceToNat] at this
      omega
    · split at h
      · next hb =>
        have := UInt8.le_iff_toNat_le.mp hb.2
        cases h
        simp only [UInt8.reduceToNat] at this
        omega
      · cases h

/-- A digit is neither white space nor a sign nor the `x` of a base. -/
theorem hexDigit_char (h : (hexDigit b).isSome = true) :
    isSpace b = false ∧ b ≠ 43 ∧ b ≠ 45 ∧ b ≠ 120 ∧ b ≠ 88 := by
  have hall : ∀ k : Fin 256, (hexDigit (UInt8.ofNat k)).isSome = true →
      isSpace (UInt8.ofNat k) = false ∧ UInt8.ofNat k ≠ 43 ∧ UInt8.ofNat k ≠ 45 ∧
        UInt8.ofNat k ≠ 120 ∧ UInt8.ofNat k ≠ 88 := by
    decide +kernel
  have hb := hall ⟨b.toNat, b.toNat_lt⟩
  rw [UInt8.ofNat_toNat] at hb
  exact hb h

theorem unsignedHex_nil : unsignedHex [] = none := rfl

theorem unsignedHex_singleton (d : Byte) : unsignedHex [d] = hexDigit d := by
  cases hd : hexDigit d <;> simp [unsignedHex, skipBase, hd]

/-- Two characters, of which the first begins the number. -/
theorem unsignedHex_pair (c d : Byte) :
    unsignedHex [c, d] =
      if c = 48 ∧ (d = 120 ∨ d = 88) then none
      else (hexDigit c).map fun high => ((hexDigit d).map fun low => 16 * high + low).getD high := by
  by_cases hbase : c = 48 ∧ (d = 120 ∨ d = 88)
  · simp [unsignedHex, skipBase, hbase]
  · cases hc : hexDigit c <;> cases hd : hexDigit d <;>
      simp [unsignedHex, skipBase, hbase, hc, hd]

/-- The number that one digit stands for. -/
def single (d : Byte) : Option Int := (hexDigit d).map Int.ofNat

theorem extractHex_pair (c d : Byte) :
    extractHex [c, d] =
      if isSpace c = true ∨ c = 43 then single d
      else if c = 45 then (single d).map fun low => -low
      else if c = 48 ∧ (d = 120 ∨ d = 88) then none
      else (hexDigit c).map fun high =>
        Int.ofNat (((hexDigit d).map fun low => 16 * high + low).getD high) := by
  by_cases hspace : isSpace c = true
  · rw [if_pos (Or.inl hspace), single]
    by_cases hdigit : (hexDigit d).isSome = true
    · obtain ⟨hd, hplus, hminus, -⟩ := hexDigit_char hdigit
      simp only [extractHex, hspace, hd, hplus, hminus, unsignedHex_singleton, List.dropWhile_cons,
        if_true, if_false, Bool.false_eq_true]
      cases hexDigit d <;> rfl
    · have hnone : hexDigit d = none := by simpa using hdigit
      by_cases hd : isSpace d = true
      · simp [extractHex, hspace, hd, hnone]
      · simp [extractHex, hspace, hd, hnone, unsignedHex_nil, unsignedHex_singleton]
  · have hdrop : [c, d].dropWhile isSpace = [c, d] := List.dropWhile_cons_of_neg hspace
    simp only [hspace, false_or, Bool.false_eq_true]
    rw [extractHex, hdrop]
    dsimp only
    rw [unsignedHex_singleton, unsignedHex_pair]
    by_cases hminus : c = 45
    · subst hminus
      rw [if_pos rfl, if_neg (by decide), if_pos rfl, single]
      cases hexDigit d <;> rfl
    · by_cases hplus : c = 43
      · rw [if_neg hminus, if_pos hplus, if_pos hplus, single]
        cases hexDigit d <;> rfl
      · rw [if_neg hminus, if_neg hplus, if_neg hplus, if_neg hminus]
        split
        · rfl
        · cases hexDigit c <;> rfl

theorem hexPair_eq_some_iff : hexPair c d = some value ↔
    ∃ high low, hexDigit c = some high ∧ hexDigit d = some low ∧
      value = UInt8.ofNat (16 * high + low) := by
  unfold hexPair
  cases hexDigit c <;> cases hexDigit d <;> simp [eq_comm]

theorem lenient_of_hexPair (h : hexPair c d = some value) : lenient c d = some value := by
  obtain ⟨high, low, hc, hd, rfl⟩ := hexPair_eq_some_iff.mp h
  obtain ⟨hspace, hplus, hminus, -⟩ := hexDigit_char (b := c) (by simp [hc])
  obtain ⟨-, -, -, hx, hX⟩ := hexDigit_char (b := d) (by simp [hd])
  have hhigh := hexDigit_lt hc
  have hlow := hexDigit_lt hd
  rw [lenient, extractHex_pair, if_neg (by simp [hspace, hplus]), if_neg hminus,
    if_neg (by simp [hx, hX]), hc, hd]
  simp only [Option.map_some, Option.getD_some, toChar]
  congr 1
  congr 1
  simp only [Int.ofNat_eq_natCast]
  omega

theorem toChar_ne_percent {n : Int} (hlow : -16 < n) (hhigh : n < 16) : toChar n ≠ percent := by
  intro heq
  have hnat := congrArg UInt8.toNat heq
  rw [toChar, UInt8.toNat_ofNat', percent] at hnat
  simp only [UInt8.reduceToNat] at hnat
  omega

/-- A pair that is not two digits: it is read if it is one of the misread ones, and the number is too
small for a `%`. -/
theorem lenient_of_not_hexPair (h : hexPair c d = none) :
    misread c d = (lenient c d).isSome ∧ ∀ value, lenient c d = some value → value ≠ percent := by
  rw [lenient, extractHex_pair]
  by_cases hskip : isSpace c = true ∨ c = 43
  · have hc : hexDigit c = none := by
      by_contra hsome
      obtain ⟨hspace, hplus, -⟩ := hexDigit_char (Option.isSome_iff_ne_none.mpr hsome)
      simp [hspace, hplus] at hskip
    have hmark : (isSpace c || c == 43 || c == 45) = true := by simpa using Or.inl hskip
    rw [if_pos hskip, misread, hmark, hc]
    cases hd : hexDigit d with
    | none => simp [single, hd]
    | some low =>
      have hlow := hexDigit_lt hd
      refine ⟨by simp [single, hd], fun value hvalue => ?_⟩
      rw [single, hd, Option.map_some, Option.map_some, Option.some.injEq] at hvalue
      rw [← hvalue]
      exact toChar_ne_percent (by simp; omega) (by simp; omega)
  rw [if_neg hskip]
  obtain ⟨hspace, hplus⟩ := not_or.mp hskip
  by_cases hminus : c = 45
  · subst hminus
    rw [if_pos rfl]
    cases hd : hexDigit d with
    | none =>
      have hc : hexDigit 45 = none := by decide
      simp [single, misread, hd, hc]
    | some low =>
      have hlow := hexDigit_lt hd
      refine ⟨by simp [single, misread, hd], fun value hvalue => ?_⟩
      rw [single, hd, Option.map_some, Option.map_some, Option.map_some, Option.some.injEq] at hvalue
      rw [← hvalue]
      exact toChar_ne_percent (by simp; omega) (by simp; omega)
  rw [if_neg hminus]
  have hmark : (isSpace c || c == 43 || c == 45) = false := by simp [hspace, hplus, hminus]
  by_cases hbase : c = 48 ∧ (d = 120 ∨ d = 88)
  · have hmisread : misread c d = false := by
      rw [misread, hmark]
      rcases hbase with ⟨rfl, rfl | rfl⟩ <;> decide
    rw [if_pos hbase, hmisread]
    simp
  rw [if_neg hbase, misread, hmark]
  have hnot : (c == 48 && (d == 120 || d == 88)) = false := by simpa using hbase
  rw [hnot]
  cases hc : hexDigit c with
  | none => simp
  | some high =>
    have hd : hexDigit d = none := by
      cases hd : hexDigit d with
      | none => rfl
      | some low => simp [hexPair, hc, hd] at h
    have hhigh := hexDigit_lt hc
    refine ⟨by simp [hd], fun value hvalue => ?_⟩
    rw [hd, Option.map_some, Option.map_none, Option.getD_none, Option.map_some,
      Option.some.injEq] at hvalue
    rw [← hvalue]
    exact toChar_ne_percent (by simp; omega) (by simp; omega)

theorem lenient_extends : Extends lenient hexPair misread where
  same := fun _ _ _ h => lenient_of_hexPair h
  more := fun _ _ h => (lenient_of_not_hexPair h).1
  other := fun _ _ value h hvalue => (lenient_of_not_hexPair h).2 value hvalue

/-! ## The reference decoder -/

/-- A `%` with two hexadecimal digits is the byte they denote, a `+` is a space, and every other
byte is itself. -/
def reference : List Byte → List Byte := PercentCoding.decode hexPair plain

/-- **The decoder is the reference decoder** exactly for the texts in which no `%` that is no escape
has a pair behind it that is read as a number all the same. -/
theorem decode_eq_reference_iff (text : List Byte) :
    decode text = reference text ↔ Avoids hexPair misread text = true := by
  rw [decode_eq, reference]
  exact decode_eq_iff lenient_extends rfl text

/-- `%5z` becomes one byte. -/
theorem decode_drops : decode [37, 53, 122] = [5] ∧ decode [37, 53, 122] ≠ reference [37, 53, 122] := by
  decide

/-! ## What the encoder writes -/

/-- The characters that the encoder copies. -/
def copied (b : Byte) : Bool := isAlnum b || b == 45 || b == 95 || b == 46 || b == 126 || b == 47

theorem encodeByte_eq (b : Byte) :
    encodeByte b = if copied b = true then [b] else
      [percent, if b < 16 then 32 else hexChar (b >>> 4), hexChar (b &&& 0x0f)] := by
  have hall : ∀ k : Fin 256, encodeByte (UInt8.ofNat k) =
      if copied (UInt8.ofNat k) = true then [UInt8.ofNat k] else
        [percent, if UInt8.ofNat k < 16 then 32 else hexChar (UInt8.ofNat k >>> 4),
          hexChar (UInt8.ofNat k &&& 0x0f)] := by
    decide +kernel
  have hb := hall ⟨b.toNat, b.toNat_lt⟩
  rwa [UInt8.ofNat_toNat] at hb

theorem copied_spec (h : copied b = true) : b ≠ percent ∧ plain b = b ∧ 16 ≤ b := by
  have hall : ∀ k : Fin 256, copied (UInt8.ofNat k) = true →
      UInt8.ofNat k ≠ percent ∧ plain (UInt8.ofNat k) = UInt8.ofNat k ∧ 16 ≤ UInt8.ofNat k := by
    decide +kernel
  have hb := hall ⟨b.toNat, b.toNat_lt⟩
  rw [UInt8.ofNat_toNat] at hb
  exact hb h

/-- What is written behind the `%` is read back. -/
theorem lenient_encoded (b : Byte) :
    lenient (if b < 16 then 32 else hexChar (b >>> 4)) (hexChar (b &&& 0x0f)) = some b := by
  have hall : ∀ k : Fin 256, lenient (if UInt8.ofNat k < 16 then 32 else hexChar (UInt8.ofNat k >>> 4))
      (hexChar (UInt8.ofNat k &&& 0x0f)) = some (UInt8.ofNat k) := by
    decide +kernel
  have hb := hall ⟨b.toNat, b.toNat_lt⟩
  rwa [UInt8.ofNat_toNat] at hb

/-- The decoder undoes the encoder, for all bytes. -/
theorem decode_encode (text : List Byte) : decode (encode text) = text := by
  rw [decode_eq, encode]
  apply decode_flatMap
  intro b _
  rw [encodeByte_eq]
  split
  · next h => exact .plain (copied_spec h).1 (copied_spec h).2.1
  · exact .escape (lenient_encoded b)

/-! ## Standard decoders -/

/-- The digits that stand behind a `%` in standard texts. -/
def isUpperHex (b : Byte) : Bool := decide (48 ≤ b ∧ b ≤ 57) || decide (65 ≤ b ∧ b ≤ 70)

/-- Two of them, and the byte they denote. -/
def upperPair (c d : Byte) : Option Byte :=
  if isUpperHex c && isUpperHex d then hexPair c d else none

/-- The decoder that replaces such triples and copies everything else. -/
def standardDecode : List Byte → List Byte := PercentCoding.decode upperPair id

/-- Letters, digits, `-`, `_`, `.`, `~` and `/`, and triples of a `%` and two digits. -/
inductive Conforms : List Byte → Prop
  | nil : Conforms []
  | copied {b : Byte} {rest : List Byte} (hb : copied b = true) (hrest : Conforms rest) :
      Conforms (b :: rest)
  | triple {c d : Byte} {rest : List Byte} (hc : isUpperHex c = true) (hd : isUpperHex d = true)
      (hrest : Conforms rest) : Conforms (percent :: c :: d :: rest)

theorem Conforms.no_blank (h : Conforms text) : 32 ∉ text := by
  induction h with
  | nil => simp
  | copied hb hrest ih =>
    intro hmem
    rcases List.mem_cons.mp hmem with rfl | hmem
    · exact absurd hb (by decide)
    · exact ih hmem
  | triple hc hd hrest ih =>
    intro hmem
    simp only [List.mem_cons] at hmem
    rcases hmem with h | rfl | rfl | hmem
    · exact absurd h (by decide)
    · exact absurd hc (by decide)
    · exact absurd hd (by decide)
    · exact ih hmem

/-- The escape of a byte from 16 on. -/
theorem upperPair_encoded (hb : 16 ≤ b) :
    isUpperHex (hexChar (b >>> 4)) = true ∧ isUpperHex (hexChar (b &&& 0x0f)) = true ∧
      upperPair (hexChar (b >>> 4)) (hexChar (b &&& 0x0f)) = some b := by
  have hall : ∀ k : Fin 256, 16 ≤ UInt8.ofNat k →
      isUpperHex (hexChar (UInt8.ofNat k >>> 4)) = true ∧
        isUpperHex (hexChar (UInt8.ofNat k &&& 0x0f)) = true ∧
          upperPair (hexChar (UInt8.ofNat k >>> 4)) (hexChar (UInt8.ofNat k &&& 0x0f)) =
            some (UInt8.ofNat k) := by
    decide +kernel
  have hk := hall ⟨b.toNat, b.toNat_lt⟩
  rw [UInt8.ofNat_toNat] at hk
  exact hk hb

theorem conforms_encode (htext : ∀ b ∈ text, 16 ≤ b) : Conforms (encode text) := by
  induction text with
  | nil => exact .nil
  | cons b text ih =>
    obtain ⟨hb, htext⟩ := List.forall_mem_cons.mp htext
    have hrest := ih htext
    rw [encode, List.flatMap_cons, encodeByte_eq, if_neg (UInt8.not_lt.mpr hb)]
    split
    · next hcopied => exact .copied hcopied hrest
    · exact .triple (upperPair_encoded hb).1 (upperPair_encoded hb).2.1 hrest

theorem codeOf_encodeByte (hb : 16 ≤ b) : CodeOf upperPair id b (encodeByte b) := by
  rw [encodeByte_eq, if_neg (UInt8.not_lt.mpr hb)]
  split
  · next h => exact .plain (copied_spec h).1 rfl
  · exact .escape (upperPair_encoded hb).2.2

theorem standardDecode_encode (htext : ∀ b ∈ text, 16 ≤ b) : standardDecode (encode text) = text :=
  decode_flatMap fun b hb => codeOf_encodeByte (htext b hb)

/-- A standard decoder copies the code of a byte below 16. -/
theorem standardDecode_blank (hb : b < 16) (rest : List Byte) :
    ∃ x, standardDecode (encodeByte b ++ rest) = percent :: 32 :: x :: standardDecode rest := by
  have hcopied : ¬copied b = true := fun h => absurd (copied_spec h).2.2 (UInt8.not_le.mpr hb)
  have hnone : upperPair 32 (hexChar (b &&& 0x0f)) = none := by
    rw [upperPair]
    rfl
  have hall : ∀ k : Fin 256, hexChar (UInt8.ofNat k &&& 0x0f) ≠ percent := by decide +kernel
  have hdigit := hall ⟨b.toNat, b.toNat_lt⟩
  rw [UInt8.ofNat_toNat] at hdigit
  refine ⟨hexChar (b &&& 0x0f), ?_⟩
  rw [encodeByte_eq, if_neg hcopied, if_pos hb, standardDecode]
  simp only [List.cons_append, List.nil_append]
  rw [decode_not_escape hnone, decode_cons fun _ _ _ _ => by decide, decode_cons fun _ _ _ _ => hdigit]
  rfl

theorem standardDecode_cons (hb : 16 ≤ b) (rest : List Byte) :
    standardDecode (encodeByte b ++ rest) = b :: standardDecode rest :=
  (codeOf_encodeByte hb).decode_append rest

theorem length_le_standardDecode (text : List Byte) :
    text.length ≤ (standardDecode (encode text)).length := by
  induction text with
  | nil => exact Nat.zero_le _
  | cons b text ih =>
    rw [encode] at ih
    rw [encode, List.flatMap_cons]
    by_cases hb : b < 16
    · obtain ⟨x, hx⟩ := standardDecode_blank hb (text.flatMap encodeByte)
      rw [hx]
      simp only [List.length_cons]
      omega
    · rw [standardDecode_cons (UInt8.not_lt.mp hb), List.length_cons, List.length_cons]
      omega

theorem standardDecode_encode_iff (text : List Byte) :
    standardDecode (encode text) = text ↔ ∀ b ∈ text, 16 ≤ b := by
  refine ⟨fun h => ?_, standardDecode_encode⟩
  induction text with
  | nil => simp
  | cons b text ih =>
    rw [encode, List.flatMap_cons] at h
    by_cases hb : b < 16
    · -- what is decoded is longer
      obtain ⟨x, hx⟩ := standardDecode_blank hb (text.flatMap encodeByte)
      have hlength := length_le_standardDecode text
      rw [encode] at hlength
      rw [hx] at h
      have := congrArg List.length h
      simp only [List.length_cons] at this
      omega
    · rw [standardDecode_cons (UInt8.not_lt.mp hb), List.cons.injEq] at h
      exact List.forall_mem_cons.mpr ⟨UInt8.not_lt.mp hb, ih h.2⟩

theorem conforms_encode_iff (text : List Byte) :
    Conforms (encode text) ↔ ∀ b ∈ text, 16 ≤ b := by
  refine ⟨fun h b hb => ?_, conforms_encode⟩
  by_contra hlow
  have hcopied : ¬copied b = true := fun hcopied => hlow (copied_spec hcopied).2.2
  have hblank : 32 ∈ encodeByte b := by
    rw [encodeByte_eq, if_neg hcopied, if_pos (UInt8.not_le.mp hlow)]
    simp
  exact h.no_blank (List.mem_flatMap.mpr ⟨b, hb, hblank⟩)

/-- **Standard decoders.** What the encoder writes consists of the characters and triples of a standard
text, and a standard decoder gives the text back, each exactly where the text has no byte below
16. -/
theorem encode_conforms_iff (text : List Byte) :
    (Conforms (encode text) ↔ ∀ b ∈ text, 16 ≤ b) ∧
      (standardDecode (encode text) = text ↔ ∀ b ∈ text, 16 ≤ b) :=
  ⟨conforms_encode_iff text, standardDecode_encode_iff text⟩

/-- A tab is written as `% 9`. -/
theorem encode_tab :
    encode [9] = [37, 32, 57] ∧ ¬Conforms (encode [9]) ∧ standardDecode (encode [9]) ≠ [9] :=
  ⟨by decide, fun h => h.no_blank (by decide), by decide⟩

end Tubekit.Url
