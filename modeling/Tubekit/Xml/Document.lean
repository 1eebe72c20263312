import Tubekit.Lib.OrderedMap
import Tubekit.Lib.Scan

/-!
# `tubekit::xml`

The elements of `external/tubekit-xml/element.cpp` with `element::to_string`, and the parser of
`document.cpp`. The attributes of an element are a `std::map`. The parser keeps one index into its
text for all levels of its recursion; every function takes the index and returns the new one.

`parse` and the loop in it are given fuel. The loop of the source need not end: at an end tag of
another element whose own end tag stands further on it neither returns nor moves. The loops over
the characters of a text and of an attribute value have no check for the end of the string; where
they would run over it the model stops with `outOfRange`.
-/

namespace Tubekit

open Lib Scan OrderedMap

namespace Xml

/-- `std::map<string, string>`. -/
abbrev Attrs := { entries : List (List UInt8 × List UInt8) // Ordered entries }

inductive Element where
  | mk (name text : List UInt8) (attrs : Attrs) (children : List Element)

namespace Attrs

theorem ordered_empty : Ordered ([] : List (List UInt8 × List UInt8)) := .nil

def empty : Attrs := ⟨[], ordered_empty⟩

def assign (attrs : Attrs) (key value : List UInt8) : Attrs :=
  ⟨OrderedMap.assign key value attrs.1, attrs.2.assign⟩

def erase (attrs : Attrs) (key : List UInt8) : Attrs :=
  ⟨OrderedMap.erase key attrs.1, attrs.2.erase key⟩

end Attrs

namespace Element

/-- `element elem;`. -/
def default : Element := .mk [] [] .empty []

def setName (name : List UInt8) : Element → Element
  | .mk _ text attrs children => .mk name text attrs children

def setText (text : List UInt8) : Element → Element
  | .mk name _ attrs children => .mk name text attrs children

/-- `element::attr(key, value)`; a blank value deletes the attribute. -/
def attr (key value : List UInt8) : Element → Element
  | .mk name text attrs children =>
    .mk name text (if value ≠ [] then attrs.assign key value else attrs.erase key) children

def append : Element → Element → Element
  | .mk name text attrs children, child => .mk name text attrs (children ++ [child])

end Element

/-! ## Characters -/

def lt : UInt8 := 60
def gt : UInt8 := 62
def slash : UInt8 := 47
def equals : UInt8 := 61
def quote : UInt8 := 34
def space : UInt8 := 32
def underscore : UInt8 := 95

def isSpace (c : UInt8) : Bool := c == 32 || c == 13 || c == 10 || c == 9

/-- `isalpha` in the C locale. -/
def isAlpha (c : UInt8) : Bool := decide (65 ≤ c ∧ c ≤ 90) || decide (97 ≤ c ∧ c ≤ 122)

/-- `isalnum` in the C locale. -/
def isAlnum (c : UInt8) : Bool := isAlpha c || decide (48 ≤ c ∧ c ≤ 57)

/-- The first character of a name. -/
def isNameStart (c : UInt8) : Bool := isAlpha c || c == underscore

/-- The other characters of a name: letters, digits, `_`, `-` and `:`. -/
def isNameChar (c : UInt8) : Bool := isAlnum c || c == underscore || c == 45 || c == 58

theorem isNameStart_ne {c : UInt8} (h : isNameStart c = true) :
    isSpace c = false ∧ c ≠ 0 ∧ c ≠ gt ∧ c ≠ slash ∧ c ≠ lt ∧ c ≠ 63 ∧ c ≠ 33 := by
  refine ⟨?_, ?_, ?_, ?_, ?_, ?_, ?_⟩
  · by_contra hspace
    simp only [isSpace, Bool.not_eq_false, Bool.or_eq_true, beq_iff_eq] at hspace
    rcases hspace with ((rfl | rfl) | rfl) | rfl <;> exact absurd h (by decide)
  all_goals
    rintro rfl
    exact absurd h (by decide)

/-! ## `element::to_string` -/

def attrText (entry : List UInt8 × List UInt8) : List UInt8 :=
  space :: entry.1 ++ [equals, quote] ++ entry.2 ++ [quote]

def endTag (name : List UInt8) : List UInt8 := lt :: slash :: name ++ [gt]

mutual

def toString : Element → List UInt8
  | .mk name text attrs children =>
    if name = [] then []
    else
      lt :: name ++ attrs.1.flatMap attrText ++ [gt] ++
        (match children with
          | [] => text
          | child :: children => toString child ++ toStrings children) ++
        endTag name

def toStrings : List Element → List UInt8
  | [] => []
  | child :: children => toString child ++ toStrings children

end

/-! ## `document::parse` -/

/-- `std::logic_error` with its text. `outOfRange` is a read behind the end of the string and
`outOfFuel` a run that is not over; neither is an error of the source. -/
inductive XmlError where
  | logicError (what : List UInt8)
  | outOfRange
  | outOfFuel
  deriving DecidableEq

/-- The bytes of an error text. -/
def XmlError.logic (what : String) : XmlError := .logicError what.toUTF8.toList

def skipWhiteSpaces (s : List UInt8) (idx : Nat) : Nat := skipWhile isSpace s idx

def parseDeclaration (s : List UInt8) (idx : Nat) : Option Nat :=
  (find s [63, 62] idx).map (· + 2)

def parseComment (s : List UInt8) (idx : Nat) : Option Nat :=
  (find s [45, 45, 62] idx).map (· + 3)

/-- `<?xml` stands at the index. -/
def atDeclaration (s : List UInt8) (idx : Nat) : Bool := occursAt s [60, 63, 120, 109, 108] idx

/-- `<!--` stands at the index. -/
def atComment (s : List UInt8) (idx : Nat) : Bool := occursAt s [60, 33, 45, 45] idx

/-- `parse_element_name`, and `parse_element_attr_key`, which has the same body. -/
def parseElementName (s : List UInt8) (idx : Nat) : List UInt8 × Nat :=
  let idx := skipWhiteSpaces s idx
  if isNameStart (charAt s idx) then
    (charAt s idx :: (s.drop (idx + 1)).takeWhile isNameChar, skipWhile isNameChar s (idx + 1))
  else ([], idx)

def parseElementAttrKey (s : List UInt8) (idx : Nat) : List UInt8 × Nat := parseElementName s idx

/-- The characters up to the next `mark`, with the loop that has no check for the end. -/
def readUntil (mark : UInt8) (s : List UInt8) (idx : Nat) : Except XmlError (List UInt8 × Nat) :=
  let stop := skipWhile (· != mark) s idx
  if stop < s.length then .ok ((s.drop idx).takeWhile (· != mark), stop) else .error .outOfRange

def parseElementText (s : List UInt8) (idx : Nat) : Except XmlError (List UInt8 × Nat) :=
  readUntil lt s (skipWhiteSpaces s idx)

def parseElementAttrVal (s : List UInt8) (idx : Nat) : Except XmlError (List UInt8 × Nat) :=
  let idx := skipWhiteSpaces s idx
  if charAt s idx ≠ quote then
    .error (.logic "xml element attr value should be in double quotes")
  else
    match readUntil quote s (idx + 1) with
    | .error e => .error e
    | .ok (val, idx) => .ok (val, idx + 1)

/-- What `parse` does before the element: the declaration and a comment are skipped. -/
def parseProlog (s : List UInt8) (idx : Nat) : Except XmlError Nat :=
  let idx := skipWhiteSpaces s idx
  if idx = s.length ∨ charAt s idx = 0 then .error (.logic "xml document is empty")
  else
    match (if atDeclaration s idx then parseDeclaration s idx else some idx) with
    | none => .error (.logic "xml declaration is error")
    | some idx =>
      let idx := skipWhiteSpaces s idx
      match (if atComment s idx then parseComment s idx else some idx) with
      | none => .error (.logic "xml comment is error")
      | some idx => .ok (skipWhiteSpaces s idx)

mutual

def parse (s : List UInt8) : Nat → Nat → Except XmlError (Element × Nat)
  | 0, _ => .error .outOfFuel
  | fuel + 1, idx =>
    match parseProlog s idx with
    | .error e => .error e
    | .ok idx =>
      if charAt s idx = lt ∧ isNameStart (charAt s (idx + 1)) = true then
        let (name, idx) := parseElementName s (idx + 1)
        parseLoop s name fuel (Element.default.setName name) (skipWhiteSpaces s idx)
      else .ok (.default, idx)

/-- The loop of `parse`, with the element built so far. -/
def parseLoop (s name : List UInt8) : Nat → Element → Nat → Except XmlError (Element × Nat)
  | 0, _, _ => .error .outOfFuel
  | fuel + 1, elem, idx =>
    if charAt s idx = 0 then .ok (elem, idx)
    else if charAt s idx = gt then
      match parseElementText s (idx + 1) with
      | .error e => .error e
      | .ok (text, idx) =>
        let idx := skipWhiteSpaces s idx
        if text ≠ [] then parseLoop s name fuel (elem.setText text) (skipWhiteSpaces s idx)
        else
          match parse s fuel idx with
          | .error e => .error e
          | .ok (child, idx) => parseLoop s name fuel (elem.append child) (skipWhiteSpaces s idx)
    else if charAt s idx = slash then
      if charAt s (idx + 1) = gt then .ok (elem, idx + 2)
      else .error (.logic "xml empty element is error")
    else if charAt s idx = lt then
      if charAt s (idx + 1) = slash then
        match find s (endTag name) idx with
        | none => .error (.logicError ("xml error ".toUTF8.toList ++ name ++ " end tag not found".toUTF8.toList))
        | some pos =>
          if pos = idx then .ok (elem, idx + (endTag name).length)
          else parseLoop s name fuel elem (skipWhiteSpaces s idx)
      else if atComment s idx then
        match parseComment s idx with
        | none => .error (.logic "xml comment is error")
        | some idx => parseLoop s name fuel elem (skipWhiteSpaces s idx)
      else
        match parse s fuel idx with
        | .error e => .error e
        | .ok (child, idx) => parseLoop s name fuel (elem.append child) (skipWhiteSpaces s idx)
    else
      let (key, idx) := parseElementAttrKey s idx
      let idx := skipWhiteSpaces s idx
      if charAt s idx ≠ equals then
        .error (.logicError ("xml element attr is error ".toUTF8.toList ++ key))
      else
        match parseElementAttrVal s (idx + 1) with
        | .error e => .error e
        | .ok (val, idx) => parseLoop s name fuel (elem.attr key val) (skipWhiteSpaces s idx)

end

end Xml

end Tubekit
