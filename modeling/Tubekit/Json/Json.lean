import Mathlib.Data.Nat.Digits.Defs
import Tubekit.Lib.OrderedMap
import Tubekit.Lib.Scan

/-!
# `tubekit::json`

The values of `external/tubekit-json/json.cpp` and `json::to_string`. Strings are bytes. The
members of an object are the entries of a `std::map`. Doubles are opaque:
what the standard library does with them is a parameter (`DoubleIo`).
-/

namespace Tubekit

/-- `long long`. -/
abbrev LongLong := { v : Int // -2 ^ 63 ≤ v ∧ v < 2 ^ 63 }

/-- What the standard library does with doubles. -/
structure DoubleIo (D : Type) where
  atof : List UInt8 → D
  print : D → List UInt8

inductive Json (D : Type) where
  | null
  | bool (value : Bool)
  | integer (value : LongLong)
  | double (value : D)
  | string (value : List UInt8)
  | array (values : List (Json D))
  | object (members : List (List UInt8 × Json D))

namespace Json

variable {D : Type}

/-- The characters that the parser and the printer mention. -/
def quote : UInt8 := 34
def backslash : UInt8 := 92
def comma : UInt8 := 44
def colon : UInt8 := 58
def minus : UInt8 := 45
def dot : UInt8 := 46
def zero : UInt8 := 48
def openBracket : UInt8 := 91
def closeBracket : UInt8 := 93
def openBrace : UInt8 := 123
def closeBrace : UInt8 := 125

/-! ## `json::to_string` -/

/-- The decimal digits of a number. -/
def decimal (n : Nat) : List UInt8 :=
  if n = 0 then [zero] else ((Nat.digits 10 n).map fun d => UInt8.ofNat (48 + d)).reverse

/-- `os << m_integer_value`. -/
def printInteger (v : Int) : List UInt8 :=
  if v < 0 then minus :: decimal v.natAbs else decimal v.natAbs

def nullText : List UInt8 := [110, 117, 108, 108]
def trueText : List UInt8 := [116, 114, 117, 101]
def falseText : List UInt8 := [102, 97, 108, 115, 101]

mutual

def toString (io : DoubleIo D) : Json D → List UInt8
  | .null => nullText
  | .bool value => if value then trueText else falseText
  | .integer value => printInteger value.1
  | .double value => io.print value
  | .string value => quote :: value ++ [quote]
  | .array values => openBracket :: elements io true values ++ [closeBracket]
  | .object members => openBrace :: pairs io true members ++ [closeBrace]

/-- The loop over the elements of an array; `first` is `it == begin()`. -/
def elements (io : DoubleIo D) (first : Bool) : List (Json D) → List UInt8
  | [] => []
  | v :: values => (if first then [] else [comma]) ++ toString io v ++ elements io false values

/-- The loop over the members of an object. -/
def pairs (io : DoubleIo D) (first : Bool) : List (List UInt8 × Json D) → List UInt8
  | [] => []
  | (key, v) :: members =>
    (if first then [] else [comma]) ++ (quote :: key ++ [quote, colon]) ++ toString io v ++
      pairs io false members

end

end Json

end Tubekit
