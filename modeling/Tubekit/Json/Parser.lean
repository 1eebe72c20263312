import Tubekit.Json.Json

/-!
# `tubekit::json::parser`

The parser of `external/tubekit-json/parser.cpp`. Its state is the index `m_idx` into the text;
every function takes the index and returns the new one. A token that turns out to begin a value
is un-read with `m_idx--` before `parse` is called for it.

`parse` and the two loops in it are given fuel for their recursion. The fuel of `Json.parse` is
never used up (`parse_ne_outOfFuel`).
-/

namespace Tubekit

open Lib Scan OrderedMap

/-- `std::logic_error` with its text; `outOfFuel` is not an error of the source. -/
inductive JsonError where
  | logicError (what : String)
  | outOfFuel
  deriving DecidableEq

namespace Json

variable {D : Type}

def isSpace (c : UInt8) : Bool := c == 32 || c == 13 || c == 10 || c == 9

/-- `in_range(c, '0', '9')`. -/
def isDigit (c : UInt8) : Bool := decide (48 ≤ c ∧ c ≤ 57)

def skipWhiteSpaces (s : List UInt8) (idx : Nat) : Nat := skipWhile isSpace s idx

def getNextToken (s : List UInt8) (idx : Nat) : Except JsonError (UInt8 × Nat) :=
  let idx := skipWhiteSpaces s idx
  if idx = s.length then .error (.logicError "unexpected end of input")
  else .ok (charAt s idx, idx + 1)

def parseNull (s : List UInt8) (idx : Nat) : Except JsonError (Json D × Nat) :=
  if occursAt s nullText idx then .ok (.null, idx + 4)
  else .error (.logicError "parse null error")

def parseBool (s : List UInt8) (idx : Nat) : Except JsonError (Json D × Nat) :=
  if occursAt s trueText idx then .ok (.bool true, idx + 4)
  else if occursAt s falseText idx then .ok (.bool false, idx + 5)
  else .error (.logicError "parse bool error")

/-- The characters that `parse_string` appends to `out` and goes on. -/
def isPlain (c : UInt8) : Bool := c != quote && c != backslash

def parseString (s : List UInt8) (idx : Nat) : Except JsonError (List UInt8 × Nat) :=
  let stop := skipWhile isPlain s idx
  if stop ≥ s.length then .error (.logicError "unexpected end of input in string")
  else if charAt s stop = quote then .ok ((s.drop idx).takeWhile isPlain, stop + 1)
  else .error (.logicError "not support escaped characters in string")

/-- The value of decimal digits. -/
def digitsValue (digits : List UInt8) : Nat :=
  Nat.ofDigits 10 ((digits.map fun c => c.toNat - 48).reverse)

/-- A number that does not fit is replaced by the nearest one that does. -/
def saturate (v : Int) : LongLong :=
  ⟨max (-2 ^ 63) (min v (2 ^ 63 - 1)), by omega⟩

/-- `std::atoll` of a text that begins with its sign or its first digit. -/
def atoll (text : List UInt8) : LongLong :=
  match text with
  | c :: rest =>
    if c = minus then saturate (-(digitsValue (rest.takeWhile isDigit) : Int))
    else saturate (digitsValue (text.takeWhile isDigit))
  | [] => saturate 0

/-- The digits of the integer part of a number, to the index behind them. -/
def integerDigits (s : List UInt8) (idx : Nat) : Except JsonError Nat :=
  if charAt s idx = zero then
    if isDigit (charAt s (idx + 1)) then .error (.logicError "leading 0s not permitted in numbers")
    else .ok (idx + 1)
  else if isDigit (charAt s idx) then .ok (skipWhile isDigit s (idx + 1))
  else .error (.logicError "invalid character in number")

/-- The part of `parse_number` that finds the end of the integer part. -/
def integerEnd (s : List UInt8) (idx : Nat) : Except JsonError Nat :=
  integerDigits s (if charAt s idx = minus then idx + 1 else idx)

def parseNumber (io : DoubleIo D) (s : List UInt8) (pos : Nat) : Except JsonError (Json D × Nat) :=
  match integerEnd s pos with
  | .error e => .error e
  | .ok idx =>
    if charAt s idx = dot then
      if isDigit (charAt s (idx + 1)) then
        .ok (.double (io.atof (s.drop pos)), skipWhile isDigit s (idx + 1))
      else .error (.logicError "at least one digit required in fractional part")
    else .ok (.integer (atoll (s.drop pos)), idx)

mutual

/-- `parser::parse`. -/
def parseValue (io : DoubleIo D) (s : List UInt8) : Nat → Nat → Except JsonError (Json D × Nat)
  | 0, _ => .error .outOfFuel
  | fuel + 1, idx =>
    match getNextToken s idx with
    | .error e => .error e
    | .ok (ch, idx) =>
      if ch = 110 then parseNull s (idx - 1)
      else if ch = 116 ∨ ch = 102 then parseBool s (idx - 1)
      else if ch = minus ∨ isDigit ch = true then parseNumber io s (idx - 1)
      else if ch = quote then
        match parseString s idx with
        | .error e => .error e
        | .ok (out, idx) => .ok (.string out, idx)
      else if ch = openBracket then
        match getNextToken s idx with
        | .error e => .error e
        | .ok (ch, idx) =>
          if ch = closeBracket then .ok (.array [], idx) else parseElements io s fuel [] idx
      else if ch = openBrace then
        match getNextToken s idx with
        | .error e => .error e
        | .ok (ch, idx) =>
          if ch = closeBrace then .ok (.object [], idx) else parseMembers io s fuel [] ch idx
      else .error (.logicError "unexpected character in parse json")

/-- The loop of an array, after a token that is un-read first. -/
def parseElements (io : DoubleIo D) (s : List UInt8) :
    Nat → List (Json D) → Nat → Except JsonError (Json D × Nat)
  | 0, _, _ => .error .outOfFuel
  | fuel + 1, arr, idx =>
    match parseValue io s fuel (idx - 1) with
    | .error e => .error e
    | .ok (v, idx) =>
      match getNextToken s idx with
      | .error e => .error e
      | .ok (ch, idx) =>
        if ch = closeBracket then .ok (.array (arr ++ [v]), idx)
        else if ch ≠ comma then .error (.logicError "expected ',' in array")
        else
          match getNextToken s idx with
          | .error e => .error e
          | .ok (_, idx) => parseElements io s fuel (arr ++ [v]) idx

/-- The loop of an object, after the token `ch`. -/
def parseMembers (io : DoubleIo D) (s : List UInt8) :
    Nat → List (List UInt8 × Json D) → UInt8 → Nat → Except JsonError (Json D × Nat)
  | 0, _, _, _ => .error .outOfFuel
  | fuel + 1, obj, ch, idx =>
    if ch ≠ quote then .error (.logicError "expected '\"' in object")
    else
      match parseString s idx with
      | .error e => .error e
      | .ok (key, idx) =>
        match getNextToken s idx with
        | .error e => .error e
        | .ok (ch, idx) =>
          if ch ≠ colon then .error (.logicError "expected ':' in object")
          else
            match parseValue io s fuel idx with
            | .error e => .error e
            | .ok (v, idx) =>
              match getNextToken s idx with
              | .error e => .error e
              | .ok (ch, idx) =>
                if ch = closeBrace then .ok (.object (assign key v obj), idx)
                else if ch ≠ comma then .error (.logicError "expected ',' in object")
                else
                  match getNextToken s idx with
                  | .error e => .error e
                  | .ok (ch, idx) => parseMembers io s fuel (assign key v obj) ch idx

end

/-- `json::parse`. -/
def parse (io : DoubleIo D) (s : List UInt8) : Except JsonError (Json D) :=
  match parseValue io s (2 * s.length + 1) 0 with
  | .error e => .error e
  | .ok (v, _) => .ok v

end Json

end Tubekit
