import Tubekit.Buffer.Model

/-!
# `url::decode` and `url::encode`

The percent decoder of `src/utility/url.cpp`. The two characters behind a `%` are read by an
`istringstream` as a hexadecimal `int`: white space is skipped, a sign is accepted, and the number
ends where no digit follows. Whatever the number took, both characters are consumed. The encoder
writes a number below 16 with a blank in place of its first digit.
-/

namespace Tubekit.Url

/-- `std::isspace` in the C locale. -/
def isSpace (b : Byte) : Bool := b == 32 || decide (9 ≤ b ∧ b ≤ 13)

def hexDigit (b : Byte) : Option Nat :=
  if 48 ≤ b ∧ b ≤ 57 then some (b.toNat - 48)
  else if 97 ≤ b ∧ b ≤ 102 then some (b.toNat - 87)
  else if 65 ≤ b ∧ b ≤ 70 then some (b.toNat - 55)
  else none

/-- The text behind `0x` or `0X`. -/
def skipBase : List Byte → List Byte
  | b :: c :: text => if b = 48 ∧ (c = 120 ∨ c = 88) then text else b :: c :: text
  | text => text

/-- The number at the beginning of the text, if there is a digit. -/
def unsignedHex (text : List Byte) : Option Nat :=
  match (skipBase text).map hexDigit with
  | some digit :: digits =>
    some ((digits.takeWhile Option.isSome).foldl (fun value d => 16 * value + d.getD 0) digit)
  | _ => none

/-- `hex_stream >> std::hex >> hex_value`, for a text that is too short to overflow. -/
def extractHex (text : List Byte) : Option Int :=
  match text.dropWhile isSpace with
  | [] => none
  | b :: rest =>
    if b = 45 then (unsignedHex rest).map fun value => -(value : Int)
    else if b = 43 then (unsignedHex rest).map fun value => (value : Int)
    else (unsignedHex (b :: rest)).map fun value => (value : Int)

/-- `static_cast<char>`. -/
def toChar (value : Int) : Byte := UInt8.ofNat (value % 256).toNat

/-- A character that is no escape. -/
def plain (b : Byte) : Byte := if b = 43 then 32 else b

def decode : List Byte → List Byte
  | b :: c :: d :: rest =>
    if b = 37 then
      match extractHex [c, d] with
      | some value => toChar value :: decode rest
      | none => b :: decode (c :: d :: rest)
    else plain b :: decode (c :: d :: rest)
  | b :: rest => plain b :: decode rest
  | [] => []

-- `%5z` is the byte 5, `%-5` the byte 251, and `%0x` is no escape
example : decode [37, 53, 122, 37, 45, 53, 37, 48, 120] = [5, 251, 37, 48, 120] := by decide

/-! ## `url::encode` -/

/-- `std::isalnum` in the C locale. -/
def isAlnum (b : Byte) : Bool :=
  decide (48 ≤ b ∧ b ≤ 57) || decide (65 ≤ b ∧ b ≤ 90) || decide (97 ≤ b ∧ b ≤ 122)

/-- A digit as `std::hex` and `std::uppercase` write it. -/
def hexChar (n : Byte) : Byte := if n < 10 then 48 + n else 55 + n

/-- One character; `setw(2)` fills up with a blank. -/
def encodeByte (b : Byte) : List Byte :=
  if isAlnum b || b == 45 || b == 95 || b == 46 || b == 126 || b == 47 then [b]
  else if b < 16 then [37, 32, hexChar b]
  else [37, hexChar (b >>> 4), hexChar (b &&& 0x0f)]

def encode (text : List Byte) : List Byte := text.flatMap encodeByte

example : encode [97, 9, 233] = [97, 37, 32, 57, 37, 69, 57] := by decide

end Tubekit.Url
