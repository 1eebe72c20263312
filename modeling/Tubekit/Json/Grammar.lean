import Tubekit.Json.Image

/-!
# The grammar of the parser

`Spells` says which texts are those of a value. The lemmas about a helper of the parser describe its
calls by the text from the index on: what is taken from it, and what the rest is. There is one for
what a successful call has taken (`_ok`) and one for the call at a text of that form (`_of_drop`).
-/

namespace Tubekit

open Lib Scan OrderedMap

namespace Json

variable {D : Type} {io : DoubleIo D} {s : List UInt8} {idx idx' fuel : Nat}
variable {fractions : Prop}

/-! ## Texts -/

def Blank (ws : List UInt8) : Prop := ∀ c ∈ ws, isSpace c = true

def Plain (value : List UInt8) : Prop := ∀ c ∈ value, isPlain c = true

def Digits (digits : List UInt8) : Prop := ∀ c ∈ digits, isDigit c = true

/-- `0|[1-9][0-9]*`. -/
def IsInteger (digits : List UInt8) : Prop :=
  digits = [zero] ∨ ∃ c tail, digits = c :: tail ∧ isDigit c = true ∧ c ≠ zero ∧ Digits tail

/-- An integer with its sign. -/
def signText (negative : Bool) (digits : List UInt8) : List UInt8 :=
  if negative then minus :: digits else digits

def signed (negative : Bool) (n : Nat) : Int := if negative then -n else n

/-- The integer that a literal stands for: its value if it fits, else the nearest that does. -/
def Denotes (v : LongLong) (n : Int) : Prop :=
  (-2 ^ 63 ≤ n ∧ n < 2 ^ 63 → v.1 = n) ∧ (n < -2 ^ 63 → v.1 = -2 ^ 63) ∧ (2 ^ 63 ≤ n → v.1 = 2 ^ 63 - 1)

/-- The members of an object in the order of the text; a later one replaces one of the same key. -/
def assignAll (members : List (List UInt8 × Json D)) (obj : List (List UInt8 × Json D)) :
    List (List UInt8 × Json D) :=
  members.foldl (fun obj m => assign m.1 m.2 obj) obj

mutual

/-- The text of a value, with fractions in it or not. What a fraction is as a double is left
open. -/
inductive Spells (fractions : Prop) : Json D → List UInt8 → Prop
  | null : Spells fractions .null nullText
  | bool (value : Bool) : Spells fractions (.bool value) (if value then trueText else falseText)
  | integer {v : LongLong} {negative : Bool} {digits : List UInt8} : IsInteger digits →
      Denotes v (signed negative (digitsValue digits)) →
      Spells fractions (.integer v) (signText negative digits)
  | double (d : D) {negative : Bool} {digits fraction : List UInt8} : fractions →
      IsInteger digits → fraction ≠ [] → Digits fraction →
      Spells fractions (.double d) (signText negative digits ++ dot :: fraction)
  | string {value : List UInt8} : Plain value → Spells fractions (.string value) (quote :: value ++ [quote])
  | emptyArray {ws : List UInt8} : Blank ws → Spells fractions (.array []) (openBracket :: ws ++ [closeBracket])
  | array {values : List (Json D)} {text : List UInt8} : Elements fractions values text →
      Spells fractions (.array values) (openBracket :: text ++ [closeBracket])
  | emptyObject {ws : List UInt8} : Blank ws → Spells fractions (.object []) (openBrace :: ws ++ [closeBrace])
  | object {members : List (List UInt8 × Json D)} {text : List UInt8} : Members fractions members text →
      Spells fractions (.object (assignAll members [])) (openBrace :: text ++ [closeBrace])

/-- The text of the elements of an array, at least one. -/
inductive Elements (fractions : Prop) : List (Json D) → List UInt8 → Prop
  | last {v : Json D} {ws text ws' : List UInt8} : Blank ws → Spells fractions v text → Blank ws' →
      Elements fractions [v] (ws ++ (text ++ ws'))
  | cons {v : Json D} {values : List (Json D)} {ws text ws' more : List UInt8} : Blank ws →
      Spells fractions v text → Blank ws' → Elements fractions values more →
      Elements fractions (v :: values) (ws ++ (text ++ (ws' ++ comma :: more)))

/-- The text of the members of an object, at least one. -/
inductive Members (fractions : Prop) : List (List UInt8 × Json D) → List UInt8 → Prop
  | last {key : List UInt8} {v : Json D} {ws ws₁ ws₂ text ws' : List UInt8} : Blank ws → Plain key →
      Blank ws₁ → Blank ws₂ → Spells fractions v text → Blank ws' →
      Members fractions [(key, v)]
        (ws ++ quote :: (key ++ quote :: (ws₁ ++ colon :: (ws₂ ++ (text ++ ws')))))
  | cons {key : List UInt8} {v : Json D} {members : List (List UInt8 × Json D)}
      {ws ws₁ ws₂ text ws' more : List UInt8} : Blank ws → Plain key → Blank ws₁ → Blank ws₂ →
      Spells fractions v text → Blank ws' → Members fractions members more →
      Members fractions ((key, v) :: members)
        (ws ++ quote :: (key ++ quote :: (ws₁ ++ colon :: (ws₂ ++ (text ++ (ws' ++ comma :: more))))))

end

/-- The characters that would go on a number. -/
def goesOn (c : UInt8) : Bool := isDigit c || c == dot

theorem stops_isDigit {rest : List UInt8} (h : Stops goesOn rest) : Stops isDigit rest := fun c tail hrest => by
  have := h c tail hrest
  simp only [goesOn, Bool.or_eq_false_iff] at this
  exact this.1

/-- What stands behind a value does not belong to it: a number has been read to its end. -/
def Ends : Json D → List UInt8 → Prop
  | .integer _, rest => Stops goesOn rest
  | .double _, rest => Stops isDigit rest
  | _, _ => True

/-- White space and a value stand at the front of the text. -/
def Begins (s : List UInt8) (v : Json D) : Prop :=
  ∃ ws text rest, s = ws ++ (text ++ rest) ∧ Blank ws ∧ Spells True v text ∧ Ends v rest

/-! ## Tokens and strings -/

theorem getNextToken_ok {c : UInt8} (hidx : idx ≤ s.length) (h : getNextToken s idx = .ok (c, idx')) :
    ∃ ws, Blank ws ∧ isSpace c = false ∧ s.drop idx = ws ++ c :: s.drop idx' ∧
      s.drop (idx' - 1) = c :: s.drop idx' ∧ idx < idx' ∧ idx' ≤ s.length := by
  obtain ⟨ws, hws, hskip, hdrop, hstops⟩ := skipWhile_drop s idx isSpace
  have hle := add_le_length hdrop hidx
  unfold getNextToken skipWhiteSpaces at h
  rw [hskip] at h
  dsimp only at h
  split at h
  · cases h
  next hne =>
    cases h
    have hcons := drop_eq_cons (s := s) (show idx + ws.length < s.length by omega)
    refine ⟨ws, hws, hstops _ _ hcons, ?_, ?_, by omega, by omega⟩
    · rwa [← hcons]
    · rwa [Nat.add_sub_cancel]

theorem getNextToken_of_drop {ws rest : List UInt8} {c : UInt8} (h : s.drop idx = ws ++ c :: rest)
    (hws : Blank ws) (hc : isSpace c = false) : getNextToken s idx = .ok (c, idx + ws.length + 1) := by
  have hskip : skipWhiteSpaces s idx = idx + ws.length :=
    skipWhile_eq h hws (stops_cons.mpr hc)
  have hchar : charAt s (idx + ws.length) = c := charAt_of_drop (drop_add h)
  have hlength : idx + ws.length ≠ s.length := by
    intro heq
    have hnil := drop_add h
    rw [heq, List.drop_length] at hnil
    cases hnil
  rw [getNextToken, hskip, if_neg hlength, hchar]

theorem parseString_ok {out : List UInt8} (h : parseString s idx = .ok (out, idx')) :
    Plain out ∧ s.drop idx = out ++ quote :: s.drop idx' ∧ idx < idx' ∧ idx' ≤ s.length := by
  obtain ⟨run, hrun, hskip, hdrop, -⟩ := skipWhile_drop s idx isPlain
  unfold parseString at h
  rw [hskip] at h
  dsimp only at h
  split at h
  · cases h
  next hlt =>
    split at h
    next hquote =>
      cases h
      have hcons := drop_eq_cons (s := s) (Nat.lt_of_not_ge hlt)
      have htake : (s.drop idx).takeWhile isPlain = run := by
        rw [hdrop, takeWhile_append hrun]
        rw [hcons, hquote]
        exact stops_cons.mpr (by decide)
      rw [htake, ← hquote, ← hcons]
      exact ⟨hrun, hdrop, by omega, by omega⟩
    · cases h

theorem parseString_of_drop {out rest : List UInt8} (h : s.drop idx = out ++ quote :: rest)
    (hout : Plain out) : parseString s idx = .ok (out, idx + out.length + 1) := by
  have hstop : Stops isPlain (quote :: rest) := stops_cons.mpr (by decide)
  have hchar : charAt s (idx + out.length) = quote := charAt_of_drop (drop_add h)
  have hlt : idx + out.length < s.length := lt_of_charAt (by rw [hchar]; decide)
  rw [parseString, skipWhile_eq h hout hstop, if_neg (Nat.not_le_of_lt hlt), if_pos hchar, h,
    takeWhile_append hout hstop]

/-! ## Numbers -/

theorem saturate_denotes (n : Int) : Denotes (saturate n) n := by
  unfold Denotes saturate
  dsimp only
  omega

theorem IsInteger.digits {digits : List UInt8} (h : IsInteger digits) : Digits digits := by
  rcases h with rfl | ⟨c, tail, rfl, hc, -, htail⟩
  · intro c hc
    rw [List.mem_singleton.mp hc]
    decide
  · intro d hd
    rcases List.mem_cons.mp hd with rfl | hd
    · exact hc
    · exact htail d hd

/-- The first digit of an integer. -/
theorem IsInteger.eq_cons {digits : List UInt8} (h : IsInteger digits) :
    ∃ c tail, digits = c :: tail ∧ isDigit c = true := by
  rcases h with rfl | ⟨c, tail, rfl, hc, -, -⟩
  · exact ⟨zero, [], rfl, by decide⟩
  · exact ⟨c, tail, rfl, hc⟩

theorem integerDigits_ok (h : integerDigits s idx = .ok idx') :
    ∃ digits, IsInteger digits ∧ s.drop idx = digits ++ s.drop idx' ∧ Stops isDigit (s.drop idx') := by
  unfold integerDigits at h
  split at h
  next hzero =>
    have hlt : idx < s.length := lt_of_charAt (by rw [hzero]; decide)
    split at h
    · cases h
    next hnext =>
      cases h
      refine ⟨[zero], .inl rfl, ?_, stops_of_charAt (by simpa using hnext)⟩
      rw [drop_eq_cons hlt, hzero]
      rfl
  next hzero =>
    split at h
    next hdigit =>
      cases h
      have hlt := lt_of_isDigit hdigit
      obtain ⟨run, hrun, hskip, hdrop, hstops⟩ := skipWhile_drop s (idx + 1) isDigit
      rw [hskip]
      refine ⟨charAt s idx :: run, .inr ⟨_, run, rfl, hdigit, hzero, hrun⟩, ?_, hstops⟩
      rw [drop_eq_cons hlt, List.cons_append, ← hdrop]
    · cases h

theorem integerDigits_of_drop {digits rest : List UInt8} (h : s.drop idx = digits ++ rest)
    (hdigits : IsInteger digits) (hrest : Stops isDigit rest) :
    integerDigits s idx = .ok (idx + digits.length) := by
  rcases hdigits with rfl | ⟨c, tail, rfl, hc, hzero, htail⟩
  · have hnext : isDigit (charAt s (idx + 1)) = false := by
      have hdrop : s.drop (idx + 1) = rest := drop_succ_of_drop h
      rw [← hdrop] at hrest
      exact stops_charAt hrest (by decide)
    rw [integerDigits, if_pos (charAt_of_drop h), hnext]
    rfl
  · have hchar : charAt s idx = c := charAt_of_drop h
    have hskip := skipWhile_eq (drop_succ_of_drop h) htail hrest
    rw [integerDigits, hchar, if_neg hzero, if_pos hc, hskip, List.length_cons]
    congr 1
    omega

theorem integerEnd_ok (h : integerEnd s idx = .ok idx') :
    ∃ negative digits, IsInteger digits ∧ s.drop idx = signText negative digits ++ s.drop idx' ∧
      Stops isDigit (s.drop idx') := by
  unfold integerEnd at h
  by_cases hminus : charAt s idx = minus
  · rw [if_pos hminus] at h
    obtain ⟨digits, hdigits, hdrop, hstops⟩ := integerDigits_ok h
    refine ⟨true, digits, hdigits, ?_, hstops⟩
    have hlt : idx < s.length := lt_of_charAt (by rw [hminus]; decide)
    rw [drop_eq_cons hlt, hminus, hdrop]
    rfl
  · rw [if_neg hminus] at h
    obtain ⟨digits, hdigits, hdrop, hstops⟩ := integerDigits_ok h
    exact ⟨false, digits, hdigits, hdrop, hstops⟩

theorem integerEnd_of_drop {negative : Bool} {digits rest : List UInt8}
    (h : s.drop idx = signText negative digits ++ rest) (hdigits : IsInteger digits)
    (hrest : Stops isDigit rest) :
    integerEnd s idx = .ok (idx + (signText negative digits).length) := by
  cases negative with
  | true =>
    have hminus : charAt s idx = minus := charAt_of_drop h
    have hdrop : s.drop (idx + 1) = digits ++ rest := drop_succ_of_drop h
    rw [integerEnd, if_pos hminus, integerDigits_of_drop hdrop hdigits hrest]
    simp only [signText, if_true, List.length_cons]
    congr 1
    omega
  | false =>
    have hminus : charAt s idx ≠ minus := by
      obtain ⟨c, tail, rfl, hc⟩ := hdigits.eq_cons
      rw [charAt_of_drop h]
      rintro rfl
      exact absurd hc (by decide)
    rw [integerEnd, if_neg hminus]
    exact integerDigits_of_drop h hdigits hrest

/-- `atoll` at the text of an integer. -/
theorem atoll_signText {negative : Bool} {digits rest : List UInt8} (hdigits : IsInteger digits)
    (hrest : Stops isDigit rest) :
    Denotes (atoll (signText negative digits ++ rest)) (signed negative (digitsValue digits)) := by
  have htake : (digits ++ rest).takeWhile isDigit = digits := takeWhile_append hdigits.digits hrest
  cases negative with
  | true =>
    simp only [signText, if_true, List.cons_append, atoll, htake]
    exact saturate_denotes _
  | false =>
    obtain ⟨c, tail, rfl, hc⟩ := hdigits.eq_cons
    have hminus : c ≠ minus := by
      rintro rfl
      exact absurd hc (by decide)
    simp only [signText, Bool.false_eq_true, if_false, List.cons_append, atoll, hminus]
    rw [← List.cons_append, htake]
    exact saturate_denotes _

theorem stops_goesOn (h : Stops isDigit (s.drop idx)) (hdot : charAt s idx ≠ dot) :
    Stops goesOn (s.drop idx) := by
  intro c tail hdrop
  rw [charAt_of_drop hdrop] at hdot
  simp [goesOn, h c tail hdrop, hdot]

theorem parseNumber_of_integer {negative : Bool} {digits rest : List UInt8}
    (h : s.drop idx = signText negative digits ++ rest) (hdigits : IsInteger digits)
    (hrest : Stops goesOn rest) :
    parseNumber io s idx =
      .ok (.integer (atoll (s.drop idx)), idx + (signText negative digits).length) := by
  have hdrop := drop_add h
  have hdot : charAt s (idx + (signText negative digits).length) ≠ dot := by
    intro hdot
    rw [← hdrop] at hrest
    have hnone := stops_charAt hrest (by decide)
    rw [hdot] at hnone
    exact absurd hnone (by decide)
  rw [parseNumber, integerEnd_of_drop h hdigits (stops_isDigit hrest)]
  dsimp only
  rw [if_neg hdot]

theorem parseNumber_of_double {negative : Bool} {digits fraction rest : List UInt8}
    (h : s.drop idx = signText negative digits ++ dot :: (fraction ++ rest)) (hdigits : IsInteger digits)
    (hne : fraction ≠ []) (hfraction : Digits fraction) (hrest : Stops isDigit rest) :
    parseNumber io s idx = .ok (.double (io.atof (s.drop idx)),
      idx + (signText negative digits ++ dot :: fraction).length) := by
  have hdot := drop_add h
  have hafter := drop_succ_of_drop hdot
  have hdigit : isDigit (charAt s (idx + (signText negative digits).length + 1)) = true := by
    obtain ⟨c, tail, rfl⟩ := List.exists_cons_of_ne_nil hne
    rw [charAt_of_drop hafter]
    exact hfraction c List.mem_cons_self
  have hstop : Stops isDigit (dot :: (fraction ++ rest)) := stops_cons.mpr (by decide)
  rw [parseNumber, integerEnd_of_drop h hdigits hstop]
  dsimp only
  rw [if_pos (charAt_of_drop hdot), if_pos hdigit, skipWhile_eq hafter hfraction hrest,
    List.length_append, List.length_cons]
  congr 2
  omega

/-! ## The first characters of values -/

/-- The character begins a value and nothing else that `parse` asks for. -/
theorem number_char {c : UInt8} (h : c = minus ∨ isDigit c = true) :
    isSpace c = false ∧ c ≠ closeBracket ∧ c ≠ 110 ∧ c ≠ 116 ∧ c ≠ 102 := by
  rcases h with rfl | h
  · decide
  · refine ⟨?_, ?_, ?_, ?_, ?_⟩
    · by_contra hspace
      simp only [isSpace, Bool.not_eq_false, Bool.or_eq_true, beq_iff_eq] at hspace
      rcases hspace with ((rfl | rfl) | rfl) | rfl <;> exact absurd h (by decide)
    all_goals
      rintro rfl
      exact absurd h (by decide)

theorem ends_of_stops {v : Json D} {rest : List UInt8} (h : Stops goesOn rest) : Ends v rest := by
  cases v with
  | integer => exact h
  | double => exact stops_isDigit h
  | null | bool | string | array | object => trivial

/-- No number goes on behind white space or a mark. -/
theorem stops_blank {ws rest : List UInt8} {c : UInt8} (hws : Blank ws) (hc : goesOn c = false) :
    Stops goesOn (ws ++ c :: rest) := by
  cases ws with
  | nil => exact stops_cons.mpr hc
  | cons space ws =>
    have hspace := hws space List.mem_cons_self
    rw [List.cons_append, stops_cons]
    simp only [isSpace, Bool.or_eq_true, beq_iff_eq] at hspace
    rcases hspace with ((rfl | rfl) | rfl) | rfl <;> decide

theorem signText_eq_cons {negative : Bool} {digits : List UInt8} (h : IsInteger digits) :
    ∃ c tail, signText negative digits = c :: tail ∧ (c = minus ∨ isDigit c = true) := by
  cases negative with
  | true => exact ⟨minus, digits, rfl, .inl rfl⟩
  | false =>
    obtain ⟨c, tail, rfl, hc⟩ := h.eq_cons
    exact ⟨c, tail, rfl, .inr hc⟩

/-- The first character of a value. -/
theorem Spells.eq_cons {v : Json D} {text : List UInt8} (h : Spells fractions v text) :
    ∃ c tail, text = c :: tail ∧ isSpace c = false ∧ c ≠ closeBracket := by
  cases h with
  | null => exact ⟨_, _, rfl, by decide, by decide⟩
  | bool value => cases value <;> exact ⟨_, _, rfl, by decide, by decide⟩
  | integer hdigits hvalue =>
    obtain ⟨c, tail, htext, hc⟩ := signText_eq_cons hdigits
    exact ⟨c, tail, htext, (number_char hc).1, (number_char hc).2.1⟩
  | @double d negative digits fraction _ hdigits hne hfraction =>
    obtain ⟨c, tail, htext, hc⟩ : ∃ c tail, signText negative digits = c :: tail ∧ _ :=
      signText_eq_cons hdigits
    refine ⟨c, tail ++ dot :: fraction, ?_, (number_char hc).1, (number_char hc).2.1⟩
    rw [htext, List.cons_append]
  | string | emptyArray | array | emptyObject | object =>
    exact ⟨_, _, rfl, by decide, by decide⟩

/-! ## White space -/

theorem blank_nil : Blank [] := by
  intro c hc
  cases hc

theorem Blank.append {ws ws' : List UInt8} (h : Blank ws) (h' : Blank ws') : Blank (ws ++ ws') := by
  intro c hc
  rcases List.mem_append.mp hc with hc | hc
  · exact h c hc
  · exact h' c hc

/-- White space in front of the first element belongs to it. -/
theorem Elements.blank {values : List (Json D)} {ws text : List UInt8} (hws : Blank ws)
    (h : Elements fractions values text) : Elements fractions values (ws ++ text) := by
  cases h with
  | last hfirst hv hlast =>
    rw [← List.append_assoc]
    exact .last (hws.append hfirst) hv hlast
  | cons hfirst hv hlast hmore =>
    rw [← List.append_assoc]
    exact .cons (hws.append hfirst) hv hlast hmore

theorem Members.blank {members : List (List UInt8 × Json D)} {ws text : List UInt8} (hws : Blank ws)
    (h : Members fractions members text) : Members fractions members (ws ++ text) := by
  cases h with
  | last hfirst hkey h₁ h₂ hv hlast =>
    rw [← List.append_assoc]
    exact .last (hws.append hfirst) hkey h₁ h₂ hv hlast
  | cons hfirst hkey h₁ h₂ hv hlast hmore =>
    rw [← List.append_assoc]
    exact .cons (hws.append hfirst) hkey h₁ h₂ hv hlast hmore

end Json

end Tubekit
