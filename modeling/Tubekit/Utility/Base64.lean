import Tubekit.Buffer.Model

/-!
# `base64`

The encoder and the decoder of `src/utility/base64.cpp`. The encoder counts in an `unsigned int`,
so it may not end; the decoder takes both alphabets, and a last group of two to four characters.
-/

namespace Tubekit.Base64

/-! ## `base64_encode` -/

/-- The 62 characters that the two alphabets share, and the last two of each. -/
def base64Chars (url : Bool) : List Byte :=
  (List.range 26).map (fun i => UInt8.ofNat (65 + i)) ++
    (List.range 26).map (fun i => UInt8.ofNat (97 + i)) ++
    (List.range 10).map (fun i => UInt8.ofNat (48 + i)) ++ if url then [45, 95] else [43, 47]

def charAt (url : Bool) (i : Nat) : Byte := (base64Chars url).getD i 0

/-- `.` or `=`. -/
def trailingChar (url : Bool) : Byte := if url then 46 else 61

/-- The four characters that one round of the loop writes. -/
def encodeGroup (url : Bool) (bytes : List Byte) (pos : UInt32) : List Byte :=
  let byteAt (i : UInt32) : Nat := (bytes.getD i.toNat 0).toNat
  charAt url ((byteAt pos &&& 0xfc) >>> 2) ::
    if (pos + 1).toNat < bytes.length then
      charAt url (((byteAt pos &&& 0x03) <<< 4) + ((byteAt (pos + 1) &&& 0xf0) >>> 4)) ::
        if (pos + 2).toNat < bytes.length then
          [charAt url (((byteAt (pos + 1) &&& 0x0f) <<< 2) + ((byteAt (pos + 2) &&& 0xc0) >>> 6)),
            charAt url (byteAt (pos + 2) &&& 0x3f)]
        else [charAt url ((byteAt (pos + 1) &&& 0x0f) <<< 2), trailingChar url]
    else [charAt url ((byteAt pos &&& 0x03) <<< 4), trailingChar url, trailingChar url]

/-- The loop from `pos` on, if it ends within so many rounds. -/
def encodeLoop (url : Bool) (bytes : List Byte) : Nat → UInt32 → List Byte → Option (List Byte)
  | 0, _, _ => none
  | rounds + 1, pos, ret =>
    if pos.toNat < bytes.length then
      encodeLoop url bytes rounds (pos + 3) (ret ++ encodeGroup url bytes pos)
    else some ret

/-- `base64_encode`, if its loop ends within so many rounds. -/
def encode (rounds : Nat) (bytes : List Byte) (url : Bool) : Option (List Byte) :=
  encodeLoop url bytes rounds 0 []

/-! ## Line breaks -/

def lineBreak : Byte := 10

/-- The length of a line, `64` or `76`. With 0 the loop of `insert_linebreaks` has no end. -/
abbrev LineLength := { n : Nat // 0 < n }

/-- `insert_linebreaks` from `pos` on. -/
def insertFrom (distance : LineLength) (str : List Byte) (pos : Nat) : List Byte :=
  if pos < str.length then
    insertFrom distance (str.take pos ++ lineBreak :: str.drop pos) (pos + (distance.1 + 1))
  else str
termination_by str.length - pos
decreasing_by
  have := distance.2
  rw [List.length_append, List.length_cons, List.length_take, List.length_drop]
  omega

def insertLinebreaks (str : List Byte) (distance : LineLength) : List Byte :=
  if str.length = 0 then [] else insertFrom distance str distance.1

def encodeWithLineBreaks (lineLength : LineLength) (rounds : Nat) (s : List Byte) :
    Option (List Byte) :=
  (encode rounds s false).map fun text => insertLinebreaks text lineLength

def pemLine : LineLength := ⟨64, Nat.zero_lt_succ 63⟩

def mimeLine : LineLength := ⟨76, Nat.zero_lt_succ 75⟩

def encodePem : Nat → List Byte → Option (List Byte) := encodeWithLineBreaks pemLine

def encodeMime : Nat → List Byte → Option (List Byte) := encodeWithLineBreaks mimeLine

/-! ## `base64_decode` -/

/-- What the decoder throws: `std::out_of_range` by `at`, `std::runtime_error` by `pos_of_char`. -/
inductive DecodeError
  | outOfRange
  | runtimeError
  deriving DecidableEq

def posOfChar (chr : Byte) : Except DecodeError Nat :=
  if 65 ≤ chr ∧ chr ≤ 90 then .ok (chr.toNat - 65)
  else if 97 ≤ chr ∧ chr ≤ 122 then .ok (chr.toNat - 97 + (90 - 65) + 1)
  else if 48 ≤ chr ∧ chr ≤ 57 then .ok (chr.toNat - 48 + (90 - 65) + (122 - 97) + 2)
  else if chr = 43 ∨ chr = 45 then .ok 62
  else if chr = 47 ∨ chr = 95 then .ok 63
  else .error .runtimeError

/-- The character is there and no padding. -/
def dataChar (chr : Option Byte) : Option Byte := chr.filter fun c => c ≠ 61 ∧ c ≠ 46

/-- One round of the loop, on a group whose first two characters are there. -/
def decodeGroup (c₀ c₁ : Byte) (c₂ c₃ : Option Byte) : Except DecodeError (List Byte) := do
  let pos₁ ← posOfChar c₁
  let pos₀ ← posOfChar c₀
  let first := UInt8.ofNat ((pos₀ <<< 2) + ((pos₁ &&& 0x30) >>> 4))
  match dataChar c₂ with
  | none => return [first]
  | some c₂ =>
    let pos₂ ← posOfChar c₂
    let second := UInt8.ofNat (((pos₁ &&& 0x0f) <<< 4) + ((pos₂ &&& 0x3c) >>> 2))
    match dataChar c₃ with
    | none => return [first, second]
    | some c₃ =>
      let pos₃ ← posOfChar c₃
      return [first, second, UInt8.ofNat (((pos₂ &&& 0x03) <<< 6) + pos₃)]

/-- The loop over what is left of the text. -/
def decodeLoop : List Byte → Except DecodeError (List Byte)
  | [] => return []
  | [_] => throw .outOfRange
  | [c₀, c₁] => decodeGroup c₀ c₁ none none
  | [c₀, c₁, c₂] => decodeGroup c₀ c₁ (some c₂) none
  | c₀ :: c₁ :: c₂ :: c₃ :: text => do
    let group ← decodeGroup c₀ c₁ (some c₂) (some c₃)
    let ret ← decodeLoop text
    return group ++ ret

def decode (text : List Byte) (removeLinebreaks : Bool) : Except DecodeError (List Byte) :=
  if removeLinebreaks then decodeLoop (text.filter fun c => c ≠ lineBreak) else decodeLoop text

end Tubekit.Base64
