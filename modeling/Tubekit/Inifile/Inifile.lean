import Tubekit.Lib.OrderedMap
import Tubekit.Lib.Scan
import Tubekit.Lib.TextLines

/-!
# `tubekit::inifile`

The reader and the writer of `external/tubekit-inifile/inifile.cpp`. The sections are a
`std::map` of maps from keys to values; a value is the string in it. The reader takes the text
line by line, and `name` is the section that the last tag named.

Positions in a line are kept in an `int`: what `find_first_of` returns is cut to 32 bits. A negative
number becomes a `size_t` that is larger than every string: as a count it goes to the end, as a
position `substr` throws. `pos + 1` is taken to wrap round.
-/

namespace Tubekit.Inifile

open Lib Scan OrderedMap TextLines

def openBracket : UInt8 := 91
def closeBracket : UInt8 := 93
def sharp : UInt8 := 35
def equals : UInt8 := 61
def space : UInt8 := 32

/-! ## The map -/

/-- `map<string, value>`. -/
abbrev Keys := { entries : List (List UInt8 × List UInt8) // Ordered entries }

/-- `m_inifile`. -/
abbrev Sections := { entries : List (List UInt8 × Keys) // Ordered entries }

def Keys.empty : Keys := ⟨[], .nil⟩

def Keys.set (keys : Keys) (key value : List UInt8) : Keys :=
  ⟨assign key value keys.1, keys.2.assign⟩

namespace Sections

def empty : Sections := ⟨[], .nil⟩

/-- `m_inifile.find(name)`. -/
def find (m : Sections) (name : List UInt8) : Option Keys := lookup name m.1

/-- `m_inifile[name];`. -/
def touch (m : Sections) (name : List UInt8) : Sections :=
  match m.find name with
  | some _ => m
  | none => ⟨assign name .empty m.1, m.2.assign⟩

/-- `m_inifile[name][key] = value`. -/
def set (m : Sections) (name key value : List UInt8) : Sections :=
  ⟨assign name (((m.find name).getD .empty).set key value) m.1, m.2.assign⟩

end Sections

/-! ## `inifile::load` -/

def isBlank (c : UInt8) : Bool := c == 32 || c == 13 || c == 10

def trim (s : List UInt8) : List UInt8 := TextLines.trim isBlank s

/-- `s.find_first_of(c)`; there is nothing for `npos`. -/
def findFirstOf (c : UInt8) (s : List UInt8) : Option Nat := s.findIdx? (· == c)

/-- The value of an `int`. -/
def wrap (n : Int) : Int := Int.bmod n 4294967296

/-- The conversion of a position to `int`. -/
def toInt : Option Nat → Int
  | some pos => wrap pos
  | none => -1

/-- `s.substr(pos, count)`, for a position in the string. -/
def substr (s : List UInt8) (pos : Nat) (count : Int) : List UInt8 :=
  if count < 0 then s.drop pos else (s.drop pos).take count.toNat

/-- What a line is for `load`; `outOfRange` is the exception of `substr`. -/
inductive Line where
  | tag (name : List UInt8)
  | entry (key value : List UInt8)
  | nothing
  | outOfRange
  deriving DecidableEq

def readLine (line : List UInt8) : Line :=
  let line := trim line
  if openBracket = charAt line 0 then
    let pos := toInt (findFirstOf closeBracket line)
    if -1 ≠ pos then .tag (trim (substr line 1 (pos - 1))) else .nothing
  else if sharp = charAt line 0 then .nothing
  else
    let pos := toInt (findFirstOf equals line)
    if pos > 0 then
      if wrap (pos + 1) < 0 then .outOfRange
      else .entry (trim (substr line 0 pos)) (trim (substr line (pos.toNat + 1) (line.length - pos)))
    else .nothing

/-- How `load` ends, with the sections that are left. -/
inductive Loaded where
  | returned (ok : Bool) (m : Sections)
  | outOfRange (m : Sections)

/-- The loop of `load`. -/
def loadLines (m : Sections) (name : List UInt8) : List (List UInt8) → Loaded
  | [] => .returned true m
  | line :: lines =>
    match readLine line with
    | .tag name => loadLines (m.touch name) name lines
    | .entry key value =>
      match m.find name with
      | none => .returned false m
      | some _ => loadLines (m.set name key value) name lines
    | .nothing => loadLines m name lines
    | .outOfRange => .outOfRange m

/-- `load`; there is no content where the file cannot be opened. -/
def load : Option (List UInt8) → Loaded
  | none => .returned false .empty
  | some content => loadLines .empty [] (lines content)

/-! ## `inifile::save` -/

end Tubekit.Inifile
