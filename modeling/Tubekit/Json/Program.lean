import Tubekit.Json.Parser
import Tubekit.Lib.Cursor

/-!
# `tubekit::json::parser`, statement by statement

The parser once more, as the program that it is: `m_idx` is set by single statements, and every
`m_str[m_idx]` is a read of its own. Nothing here keeps a read behind the end away, or `m_idx` from
going below zero. `depth` is fuel for the calls of `parse` in one another.
-/

namespace Tubekit

open Lib Scan OrderedMap Cursor

namespace JsonParser

open Json

variable {D : Type}

def inRange (x lower upper : UInt8) : Bool := decide (lower ≤ x ∧ x ≤ upper)

def skipWhiteSpaces : Cursor JsonError Unit :=
  iterate .outOfFuel (fun _ => do
    if (← index) < (← size) then
      if isSpace (← peek) then
        advance 1
        pure (.inl ())
      else pure (.inr ())
    else pure (.inr ())) ()

def getNextToken : Cursor JsonError UInt8 := do
  skipWhiteSpaces
  if (← index) = (← size) then raise (.logicError "unexpected end of input")
  else take

/-- The `std::out_of_range` of `compare` is a `std::logic_error`. -/
def outOfRange : JsonError := .logicError "basic_string::compare"

def parseNull : Cursor JsonError (Json D) := do
  if ← compare outOfRange nullText then
    advance 4
    pure .null
  else raise (.logicError "parse null error")

def parseBool : Cursor JsonError (Json D) := do
  if ← compare outOfRange trueText then
    advance 4
    pure (.bool true)
  else if ← compare outOfRange falseText then
    advance 5
    pure (.bool false)
  else raise (.logicError "parse bool error")

/-- A round of `parse_string`, with what `out` has so far. -/
def stringRound (out : List UInt8) : Cursor JsonError (List UInt8 ⊕ List UInt8) := do
  if (← index) ≥ (← size) then raise (.logicError "unexpected end of input in string")
  else
    let ch ← take
    if ch = quote then pure (.inr out)
    else if ch ≠ backslash then pure (.inl (out ++ [ch]))
    else raise (.logicError "not support escaped characters in string")

def parseString : Cursor JsonError (List UInt8) := iterate .outOfFuel stringRound []

/-- The sign of `parse_number`. -/
def skipMinus : Cursor JsonError Unit := do
  if (← peek) = minus then advance 1 else pure ()

/-- The integer part of `parse_number`. -/
def integerDigits : Cursor JsonError Unit := do
  if (← peek) = zero then
    advance 1
    if inRange (← peek) 48 57 then
      raise (.logicError "leading 0s not permitted in numbers")
    else pure ()
  else if inRange (← peek) 49 57 then
    advance 1
    skip .outOfFuel (inRange · 48 57)
  else raise (.logicError "invalid character in number")

def parseNumber (io : DoubleIo D) : Cursor JsonError (Json D) := do
  let pos ← index
  skipMinus
  integerDigits
  if (← peek) = dot then
    advance 1
    if inRange (← peek) 48 57 = false then
      raise (.logicError "at least one digit required in fractional part")
    else
      skip .outOfFuel (inRange · 48 57)
      pure (.double (io.atof (← textFrom pos)))
  else pure (.integer (atoll (← textFrom pos)))

/-- A round of the loop of an array. -/
def arrayRound (parse : Cursor JsonError (Json D)) (arr : List (Json D)) :
    Cursor JsonError (List (Json D) ⊕ Json D) := do
  decrement
  let v ← parse
  let ch ← getNextToken
  if ch = closeBracket then pure (.inr (.array (arr ++ [v])))
  else if ch ≠ comma then raise (.logicError "expected ',' in array")
  else
    let _ ← getNextToken
    pure (.inl (arr ++ [v]))

/-- A round of the loop of an object, with its members so far and the token `ch`. -/
def objectRound (parse : Cursor JsonError (Json D)) (round : List (List UInt8 × Json D) × UInt8) :
    Cursor JsonError ((List (List UInt8 × Json D) × UInt8) ⊕ Json D) := do
  let (obj, ch) := round
  if ch ≠ quote then raise (.logicError "expected '\"' in object")
  else
    let key ← parseString
    let ch ← getNextToken
    if ch ≠ colon then raise (.logicError "expected ':' in object")
    else
      let v ← parse
      let ch ← getNextToken
      if ch = closeBrace then pure (.inr (.object (assign key v obj)))
      else if ch ≠ comma then raise (.logicError "expected ',' in object")
      else
        let ch ← getNextToken
        pure (.inl (assign key v obj, ch))

def parse (io : DoubleIo D) : Nat → Cursor JsonError (Json D)
  | 0 => raise .outOfFuel
  | depth + 1 => call do
    let ch ← getNextToken
    if ch = 110 then
      decrement
      parseNull
    else if ch = 116 ∨ ch = 102 then
      decrement
      parseBool
    else if ch = minus ∨ inRange ch 48 57 = true then
      decrement
      parseNumber io
    else if ch = quote then
      let out ← parseString
      pure (.string out)
    else if ch = openBracket then
      let ch ← getNextToken
      if ch = closeBracket then pure (.array [])
      else iterate .outOfFuel (arrayRound (parse io depth)) []
    else if ch = openBrace then
      let ch ← getNextToken
      if ch = closeBrace then pure (.object [])
      else iterate .outOfFuel (objectRound (parse io depth)) ([], ch)
    else raise (.logicError "unexpected character in parse json")

/-- `load(s)` and then `parse()`. -/
def run (io : DoubleIo D) (s : List UInt8) : Traced JsonError (Json D) :=
  parse io (s.length + 1) s 0

end JsonParser

end Tubekit
