import Mathlib.Data.List.TakeWhile
import Tubekit.Json.Parser

/-!
# What the parser can return

`parse` never runs out of its fuel, stays inside the text, and returns only values that the
printer can print without escapes: the strings and keys have neither a quote nor a backslash, and
the members of an object are in the order of their keys (`Canonical`).
-/

namespace Tubekit

open Lib Scan OrderedMap

namespace Json

variable {D : Type} {s : List UInt8}

/-- The strings of the value can be printed as they are, the keys of its objects are in order. -/
inductive Canonical : Json D → Prop
  | null : Canonical .null
  | bool (value : Bool) : Canonical (.bool value)
  | integer (value : LongLong) : Canonical (.integer value)
  | double (value : D) : Canonical (.double value)
  | string {value : List UInt8} (plain : ∀ c ∈ value, isPlain c = true) : Canonical (.string value)
  | array {values : List (Json D)} (each : ∀ v ∈ values, Canonical v) : Canonical (.array values)
  | object {members : List (List UInt8 × Json D)} (plain : ∀ m ∈ members, ∀ c ∈ m.1, isPlain c = true)
      (ordered : Ordered members) (each : ∀ m ∈ members, Canonical m.2) :
      Canonical (.object members)

/-! ## The helpers move the index on, inside the text -/

theorem getNextToken_spec {idx : Nat} (hidx : idx ≤ s.length) :
    (∃ what, getNextToken s idx = .error (.logicError what)) ∨
      ∃ ch idx', getNextToken s idx = .ok (ch, idx') ∧ idx < idx' ∧ idx' ≤ s.length := by
  obtain ⟨hge, hle⟩ : idx ≤ skipWhiteSpaces s idx ∧ skipWhiteSpaces s idx ≤ s.length := skipWhile_le hidx
  by_cases hend : skipWhiteSpaces s idx = s.length
  · exact .inl ⟨_, if_pos hend⟩
  · exact .inr ⟨_, _, if_neg hend, by omega, by omega⟩

theorem parseString_spec {idx : Nat} (hidx : idx ≤ s.length) :
    (∃ what, parseString s idx = .error (.logicError what)) ∨
      ∃ out idx', parseString s idx = .ok (out, idx') ∧ (∀ c ∈ out, isPlain c = true) ∧
        idx < idx' ∧ idx' ≤ s.length := by
  obtain ⟨hge, hle⟩ := skipWhile_le (p := isPlain) hidx
  by_cases hend : skipWhile isPlain s idx ≥ s.length
  · exact .inl ⟨_, if_pos hend⟩
  by_cases hquote : charAt s (skipWhile isPlain s idx) = quote
  · exact .inr ⟨_, _, (if_neg hend).trans (if_pos hquote), fun c hc => List.mem_takeWhile_imp hc,
      by omega, by omega⟩
  · exact .inl ⟨_, (if_neg hend).trans (if_neg hquote)⟩

/-- What a call of the parser at `idx` can give: an error of the source, or a canonical value and
an index further on in the text. -/
inductive Outcome (s : List UInt8) (idx : Nat) : Except JsonError (Json D × Nat) → Prop
  | error (what : String) : Outcome s idx (.error (.logicError what))
  | ok {v : Json D} {idx' : Nat} (canonical : Canonical v) (lt : idx < idx') (le : idx' ≤ s.length) :
      Outcome s idx (.ok (v, idx'))

theorem Outcome.mono {idx idx' : Nat} {r : Except JsonError (Json D × Nat)} (h : Outcome s idx' r)
    (hidx : idx ≤ idx') : Outcome s idx r := by
  cases h with
  | error what => exact .error what
  | ok canonical lt le => exact .ok canonical (by omega) le

theorem parseNull_outcome {idx : Nat} (hidx : idx ≤ s.length) :
    Outcome s idx (parseNull s idx : Except JsonError (Json D × Nat)) := by
  unfold parseNull
  split
  · next h =>
    have hle := le_of_occursAt hidx h
    exact .ok .null (by omega) hle
  · exact .error _

theorem parseBool_outcome {idx : Nat} (hidx : idx ≤ s.length) :
    Outcome s idx (parseBool s idx : Except JsonError (Json D × Nat)) := by
  unfold parseBool
  split
  · next h =>
    have hle := le_of_occursAt hidx h
    exact .ok (.bool true) (by omega) hle
  · split
    · next h =>
      have hle := le_of_occursAt hidx h
      exact .ok (.bool false) (by omega) hle
    · exact .error _

theorem lt_of_isDigit {idx : Nat} (h : isDigit (charAt s idx) = true) : idx < s.length := by
  refine lt_of_charAt fun h0 => ?_
  rw [h0] at h
  exact absurd h (by decide)

theorem integerDigits_spec (s : List UInt8) (idx : Nat) :
    (∃ what, integerDigits s idx = .error (.logicError what)) ∨
      ∃ idx', integerDigits s idx = .ok idx' ∧ idx < idx' ∧ idx' ≤ s.length := by
  by_cases hzero : charAt s idx = zero
  · have hlt : idx < s.length := lt_of_charAt (by rw [hzero]; decide)
    by_cases hnext : isDigit (charAt s (idx + 1)) = true
    · exact .inl ⟨_, (if_pos hzero).trans (if_pos hnext)⟩
    · exact .inr ⟨_, (if_pos hzero).trans (if_neg hnext), by omega, by omega⟩
  by_cases hdigit : isDigit (charAt s idx) = true
  · have hlt := lt_of_isDigit hdigit
    obtain ⟨hge, hle⟩ := skipWhile_le (p := isDigit) (show idx + 1 ≤ s.length by omega)
    exact .inr ⟨_, (if_neg hzero).trans (if_pos hdigit), by omega, hle⟩
  · exact .inl ⟨_, (if_neg hzero).trans (if_neg hdigit)⟩

theorem integerEnd_spec (s : List UInt8) (idx : Nat) :
    (∃ what, integerEnd s idx = .error (.logicError what)) ∨
      ∃ idx', integerEnd s idx = .ok idx' ∧ idx < idx' ∧ idx' ≤ s.length := by
  unfold integerEnd
  have hstart : idx ≤ if charAt s idx = minus then idx + 1 else idx := by split <;> omega
  generalize (if charAt s idx = minus then idx + 1 else idx) = start at hstart
  obtain he | ⟨idx', he, hlt, hle⟩ := integerDigits_spec s start
  · exact .inl he
  · exact .inr ⟨idx', he, by omega, hle⟩

theorem parseNumber_outcome (io : DoubleIo D) {pos : Nat} : Outcome s pos (parseNumber io s pos) := by
  unfold parseNumber
  obtain ⟨what, he⟩ | ⟨idx, he, hlt, hle⟩ := integerEnd_spec s pos
  · rw [he]
    exact .error what
  · rw [he]
    dsimp only
    split
    · split
      · next h =>
        have hidx := lt_of_isDigit h
        have hskip := skipWhile_le (p := isDigit) (show idx + 1 ≤ s.length by omega)
        exact .ok (.double _) (by omega) hskip.2
      · exact .error _
    · exact .ok (.integer _) hlt hle

/-! ## The recursion -/

/-- The three functions of the recursion, given the fuel they need. -/
structure Outcomes (io : DoubleIo D) (s : List UInt8) (fuel : Nat) : Prop where
  value : ∀ idx, idx ≤ s.length → 2 * (s.length - idx) + 1 ≤ fuel →
    Outcome s idx (parseValue io s fuel idx)
  elements : ∀ arr idx, 0 < idx → idx ≤ s.length → 2 * (s.length - idx) + 4 ≤ fuel →
    (∀ v ∈ arr, Canonical v) → Outcome s idx (parseElements io s fuel arr idx)
  members : ∀ obj ch idx, 0 < idx → idx ≤ s.length → 2 * (s.length - idx) + 4 ≤ fuel →
    Canonical (.object obj) → Outcome s idx (parseMembers io s fuel obj ch idx)

variable {io : DoubleIo D} {fuel : Nat}

theorem parseValue_outcome (ih : Outcomes io s fuel) (idx : Nat) (hidx : idx ≤ s.length)
    (hfuel : 2 * (s.length - idx) + 1 ≤ fuel + 1) : Outcome s idx (parseValue io s (fuel + 1) idx) := by
  rw [parseValue]
  obtain ⟨what, ht⟩ | ⟨ch, i, ht, hlt, hle⟩ := getNextToken_spec hidx
  · rw [ht]
    exact .error what
  rw [ht]
  dsimp only
  split
  · exact (parseNull_outcome (by omega)).mono (by omega)
  split
  · exact (parseBool_outcome (by omega)).mono (by omega)
  split
  · exact (parseNumber_outcome io).mono (by omega)
  split
  · obtain ⟨what, hs⟩ | ⟨out, j, hs, hplain, hlt', hle'⟩ := parseString_spec hle
    · rw [hs]
      exact .error what
    · rw [hs]
      exact .ok (.string hplain) (by omega) hle'
  split
  · obtain ⟨what, ht'⟩ | ⟨ch', j, ht', hlt', hle'⟩ := getNextToken_spec hle
    · rw [ht']
      exact .error what
    rw [ht']
    dsimp only
    split
    · exact .ok (.array (by simp)) (by omega) hle'
    · exact (ih.elements [] j (by omega) hle' (by omega) (by simp)).mono (by omega)
  split
  · obtain ⟨what, ht'⟩ | ⟨ch', j, ht', hlt', hle'⟩ := getNextToken_spec hle
    · rw [ht']
      exact .error what
    rw [ht']
    dsimp only
    have hempty : Canonical (.object [] : Json D) := .object (by simp) .nil (by simp)
    split
    · exact .ok hempty (by omega) hle'
    · exact (ih.members [] ch' j (by omega) hle' (by omega) hempty).mono (by omega)
  · exact .error _

theorem parseElements_outcome (ih : Outcomes io s fuel) (arr : List (Json D)) (idx : Nat)
    (hpos : 0 < idx) (hidx : idx ≤ s.length) (hfuel : 2 * (s.length - idx) + 4 ≤ fuel + 1)
    (harr : ∀ v ∈ arr, Canonical v) : Outcome s idx (parseElements io s (fuel + 1) arr idx) := by
  rw [parseElements]
  have hv := ih.value (idx - 1) (by omega) (by omega)
  generalize parseValue io s fuel (idx - 1) = r at hv
  cases hv with
  | error what => exact .error what
  | @ok v i hcanon hlt hle =>
    have harr' : ∀ w ∈ arr ++ [v], Canonical w := by
      intro w hw
      rcases List.mem_append.1 hw with hw | hw
      · exact harr w hw
      · rw [List.mem_singleton.1 hw]
        exact hcanon
    dsimp only
    obtain ⟨what, ht⟩ | ⟨ch, j, ht, hltj, hlej⟩ := getNextToken_spec hle
    · rw [ht]
      exact .error what
    rw [ht]
    dsimp only
    split
    · exact .ok (.array harr') (by omega) hlej
    split
    · exact .error _
    obtain ⟨what, ht'⟩ | ⟨ch', k, ht', hltk, hlek⟩ := getNextToken_spec hlej
    · rw [ht']
      exact .error what
    rw [ht']
    exact (ih.elements _ k (by omega) hlek (by omega) harr').mono (by omega)

theorem canonical_assign {obj : List (List UInt8 × Json D)} {key : List UInt8} {v : Json D}
    (hobj : Canonical (.object obj)) (hkey : ∀ c ∈ key, isPlain c = true) (hv : Canonical v) :
    Canonical (.object (assign key v obj)) := by
  cases hobj with
  | object plain ordered each =>
    refine .object (fun m hm => ?_) ordered.assign (fun m hm => ?_)
    · rcases mem_assign hm with rfl | hm
      · exact hkey
      · exact plain m hm
    · rcases mem_assign hm with rfl | hm
      · exact hv
      · exact each m hm

theorem parseMembers_outcome (ih : Outcomes io s fuel) (obj : List (List UInt8 × Json D)) (ch : UInt8)
    (idx : Nat) (hpos : 0 < idx) (hidx : idx ≤ s.length) (hfuel : 2 * (s.length - idx) + 4 ≤ fuel + 1)
    (hobj : Canonical (.object obj)) : Outcome s idx (parseMembers io s (fuel + 1) obj ch idx) := by
  rw [parseMembers]
  split
  · exact .error _
  obtain ⟨what, hs⟩ | ⟨key, i, hs, hkey, hlt, hle⟩ := parseString_spec hidx
  · rw [hs]
    exact .error what
  rw [hs]
  dsimp only
  obtain ⟨what, ht⟩ | ⟨ch', j, ht, hltj, hlej⟩ := getNextToken_spec hle
  · rw [ht]
    exact .error what
  rw [ht]
  dsimp only
  split
  · exact .error _
  have hv := ih.value j hlej (by omega)
  generalize parseValue io s fuel j = r at hv
  cases hv with
  | error what => exact .error what
  | @ok v k hcanon hltk hlek =>
    have hobj' := canonical_assign hobj hkey hcanon
    dsimp only
    obtain ⟨what, ht'⟩ | ⟨ch', l, ht', hltl, hlel⟩ := getNextToken_spec hlek
    · rw [ht']
      exact .error what
    rw [ht']
    dsimp only
    split
    · exact .ok hobj' (by omega) hlel
    split
    · exact .error _
    obtain ⟨what, ht''⟩ | ⟨ch'', n, ht'', hltn, hlen⟩ := getNextToken_spec hlel
    · rw [ht'']
      exact .error what
    rw [ht'']
    exact (ih.members _ ch'' n (by omega) hlen (by omega) hobj').mono (by omega)

theorem outcomes (io : DoubleIo D) (s : List UInt8) (fuel : Nat) : Outcomes io s fuel := by
  induction fuel with
  | zero => exact ⟨by omega, by omega, by omega⟩
  | succ fuel ih => exact ⟨parseValue_outcome ih, parseElements_outcome ih, parseMembers_outcome ih⟩

/-- The fuel of `parse` is enough. -/
theorem parse_ne_outOfFuel (io : DoubleIo D) (s : List UInt8) : parse io s ≠ .error .outOfFuel := by
  have h := (outcomes io s (2 * s.length + 1)).value 0 (by omega) (by omega)
  unfold parse
  generalize parseValue io s (2 * s.length + 1) 0 = r at h
  cases h with
  | error what => simp
  | ok canonical lt le => simp

/-- A value that comes from a text is canonical. -/
theorem canonical_of_parse {v : Json D} (h : parse io s = .ok v) : Canonical v := by
  have hout := (outcomes io s (2 * s.length + 1)).value 0 (by omega) (by omega)
  unfold parse at h
  generalize parseValue io s (2 * s.length + 1) 0 = r at h hout
  cases hout with
  | error what => simp at h
  | ok canonical lt le =>
    cases h
    exact canonical

end Json

end Tubekit
