import Tubekit.Json.Grammar

/-!
# What is accepted

`parse` returns a value exactly where the text begins with one of the grammar (`parse_iff`). In both
directions the induction is on the fuel, with a step for the values, one for the loop of an array and
one for the loop of an object.
-/

namespace Tubekit

open Lib Scan OrderedMap

namespace Json

variable {D : Type} {io : DoubleIo D} {s : List UInt8} {idx idx' fuel : Nat}
variable {fractions : Prop}

/-! ## What is accepted is in the grammar -/

/-- A value is taken from the text at one index, up to another. -/
def Takes (s : List UInt8) (idx : Nat) (v : Json D) (idx' : Nat) : Prop :=
  idx' ≤ s.length ∧
    ∃ text, Spells True v text ∧ s.drop idx = text ++ s.drop idx' ∧ Ends v (s.drop idx')

theorem Outcome.le {v : Json D} (h : Outcome s idx (.ok (v, idx'))) : idx' ≤ s.length := by
  cases h with
  | ok canonical lt le => exact le

theorem parseNumber_ok {v : Json D} (h : parseNumber io s idx = .ok (v, idx')) : Takes s idx v idx' := by
  have hout : Outcome s idx (.ok (v, idx')) := h ▸ parseNumber_outcome io
  refine ⟨hout.le, ?_⟩
  unfold parseNumber at h
  split at h
  · cases h
  next i hend =>
    obtain ⟨negative, digits, hdigits, hdrop, hstops⟩ := integerEnd_ok hend
    split at h
    next hdot =>
      split at h
      next hdigit =>
        cases h
        have hlt : i < s.length := lt_of_charAt (by rw [hdot]; decide)
        obtain ⟨run, hrun, hskip, hfraction, hstops⟩ :=
          skipWhile_drop s (i + 1) isDigit
        have hne : run ≠ [] := by
          rintro rfl
          have hnone := stops_charAt (i := i + 1) hstops (by decide)
          rw [hdigit] at hnone
          cases hnone
        rw [hskip]
        refine ⟨signText negative digits ++ dot :: run, .double _ trivial hdigits hne hrun, ?_, hstops⟩
        rw [hdrop, drop_eq_cons hlt, hdot, List.append_assoc, List.cons_append, ← hfraction]
      · cases h
    next hdot =>
      cases h
      refine ⟨_, .integer hdigits ?_, hdrop, stops_goesOn hstops hdot⟩
      rw [hdrop]
      exact atoll_signText hdigits hstops

theorem parseNull_ok {v : Json D} (hidx : idx ≤ s.length) (h : parseNull s idx = .ok (v, idx')) :
    Takes s idx v idx' := by
  have hout : Outcome s idx (.ok (v, idx')) := h ▸ parseNull_outcome hidx
  refine ⟨hout.le, ?_⟩
  unfold parseNull at h
  split at h
  next hnull =>
    cases h
    exact ⟨nullText, .null, drop_of_occursAt hnull, trivial⟩
  · cases h

theorem parseBool_ok {v : Json D} (hidx : idx ≤ s.length) (h : parseBool s idx = .ok (v, idx')) :
    Takes s idx v idx' := by
  have hout : Outcome s idx (.ok (v, idx')) := h ▸ parseBool_outcome hidx
  refine ⟨hout.le, ?_⟩
  unfold parseBool at h
  split at h
  next htrue =>
    cases h
    exact ⟨trueText, .bool true, drop_of_occursAt htrue, trivial⟩
  · split at h
    next hfalse =>
      cases h
      exact ⟨falseText, .bool false, drop_of_occursAt hfalse, trivial⟩
    · cases h

/-- What the successful calls of the recursion take from the text. The loops begin behind a token,
which belongs to the first element. -/
structure Accepted (io : DoubleIo D) (s : List UInt8) (fuel : Nat) : Prop where
  value : ∀ idx v idx', idx ≤ s.length → parseValue io s fuel idx = .ok (v, idx') →
    ∃ ws i, Blank ws ∧ s.drop idx = ws ++ s.drop i ∧ Takes s i v idx'
  elements : ∀ arr idx v idx', idx ≤ s.length → parseElements io s fuel arr idx = .ok (v, idx') →
    idx' ≤ s.length ∧ ∃ values text, Elements True values text ∧ v = .array (arr ++ values) ∧
      s.drop (idx - 1) = text ++ closeBracket :: s.drop idx'
  members : ∀ obj ch idx v idx', s.drop (idx - 1) = ch :: s.drop idx →
    parseMembers io s fuel obj ch idx = .ok (v, idx') →
    idx' ≤ s.length ∧ ∃ members text, Members True members text ∧ v = .object (assignAll members obj) ∧
      s.drop (idx - 1) = text ++ closeBrace :: s.drop idx'

theorem string_ok {v : Json D} (hback : s.drop (idx - 1) = quote :: s.drop idx)
    (h : (match parseString s idx with
      | .error e => .error e
      | .ok (out, idx) => .ok (.string out, idx)) = Except.ok (v, idx')) :
    Takes s (idx - 1) v idx' := by
  cases hstring : parseString s idx with
  | error e =>
    rw [hstring] at h
    cases h
  | ok r =>
    obtain ⟨out, i⟩ := r
    obtain ⟨hplain, hdrop, -, hle⟩ := parseString_ok hstring
    rw [hstring] at h
    cases h
    refine ⟨hle, _, .string hplain, ?_, trivial⟩
    rw [hback, hdrop]
    simp

theorem array_ok (ih : Accepted io s fuel) {v : Json D} (hidx : idx ≤ s.length)
    (hback : s.drop (idx - 1) = openBracket :: s.drop idx)
    (h : (match getNextToken s idx with
      | .error e => .error e
      | .ok (ch, idx) =>
        if ch = closeBracket then .ok (.array [], idx) else parseElements io s fuel [] idx) =
      Except.ok (v, idx')) : Takes s (idx - 1) v idx' := by
  cases htoken : getNextToken s idx with
  | error e =>
    rw [htoken] at h
    cases h
  | ok token =>
    obtain ⟨ch, i⟩ := token
    obtain ⟨ws, hws, -, hdrop, hunread, hlt, hle⟩ := getNextToken_ok hidx htoken
    rw [htoken] at h
    dsimp only at h
    by_cases hclose : ch = closeBracket
    · rw [if_pos hclose] at h
      cases h
      refine ⟨hle, _, .emptyArray hws, ?_, trivial⟩
      rw [hback, hdrop, hclose]
      simp
    · rw [if_neg hclose] at h
      obtain ⟨hle', values, text, helements, rfl, htext⟩ := ih.elements [] i v idx' hle h
      refine ⟨hle', _, .array (helements.blank hws), ?_, trivial⟩
      rw [hback, hdrop, ← hunread, htext]
      simp

theorem object_ok (ih : Accepted io s fuel) {v : Json D} (hidx : idx ≤ s.length)
    (hback : s.drop (idx - 1) = openBrace :: s.drop idx)
    (h : (match getNextToken s idx with
      | .error e => .error e
      | .ok (ch, idx) =>
        if ch = closeBrace then .ok (.object [], idx) else parseMembers io s fuel [] ch idx) =
      Except.ok (v, idx')) : Takes s (idx - 1) v idx' := by
  cases htoken : getNextToken s idx with
  | error e =>
    rw [htoken] at h
    cases h
  | ok token =>
    obtain ⟨ch, i⟩ := token
    obtain ⟨ws, hws, -, hdrop, hunread, hlt, hle⟩ := getNextToken_ok hidx htoken
    rw [htoken] at h
    dsimp only at h
    by_cases hclose : ch = closeBrace
    · rw [if_pos hclose] at h
      cases h
      refine ⟨hle, _, .emptyObject hws, ?_, trivial⟩
      rw [hback, hdrop, hclose]
      simp
    · rw [if_neg hclose] at h
      obtain ⟨hle', members, text, hmembers, rfl, htext⟩ := ih.members [] ch i v idx' hunread h
      refine ⟨hle', _, .object (hmembers.blank hws), ?_, trivial⟩
      rw [hback, hdrop, ← hunread, htext]
      simp

theorem value_accepted (ih : Accepted io s fuel) (idx : Nat) (v : Json D) (idx' : Nat)
    (hidx : idx ≤ s.length) (h : parseValue io s (fuel + 1) idx = .ok (v, idx')) :
    ∃ ws i, Blank ws ∧ s.drop idx = ws ++ s.drop i ∧ Takes s i v idx' := by
  rw [parseValue] at h
  cases htoken : getNextToken s idx with
  | error e =>
    rw [htoken] at h
    cases h
  | ok token =>
    obtain ⟨ch, i⟩ := token
    obtain ⟨ws, hws, -, hdrop, hback, hlt, hle⟩ := getNextToken_ok hidx htoken
    rw [htoken] at h
    dsimp only at h
    refine ⟨ws, i - 1, hws, by rw [hdrop, hback], ?_⟩
    have hunread : i - 1 ≤ s.length := by omega
    split at h
    · exact parseNull_ok hunread h
    split at h
    · exact parseBool_ok hunread h
    split at h
    · exact parseNumber_ok h
    split at h
    next hch =>
      subst hch
      exact string_ok hback h
    split at h
    next hch =>
      subst hch
      exact array_ok ih hle hback h
    split at h
    next hch =>
      subst hch
      exact object_ok ih hle hback h
    · cases h

theorem elements_accepted (ih : Accepted io s fuel) (arr : List (Json D)) (idx : Nat) (v : Json D)
    (idx' : Nat) (hidx : idx ≤ s.length) (h : parseElements io s (fuel + 1) arr idx = .ok (v, idx')) :
    idx' ≤ s.length ∧ ∃ values text, Elements True values text ∧ v = .array (arr ++ values) ∧
      s.drop (idx - 1) = text ++ closeBracket :: s.drop idx' := by
  rw [parseElements] at h
  cases hvalue : parseValue io s fuel (idx - 1) with
  | error e =>
    rw [hvalue] at h
    cases h
  | ok r =>
    obtain ⟨head, i⟩ := r
    obtain ⟨ws, j, hws, hdrop, hle, text, hspells, htext, -⟩ := ih.value _ _ _ (by omega) hvalue
    rw [hvalue] at h
    dsimp only at h
    cases htoken : getNextToken s i with
    | error e =>
      rw [htoken] at h
      cases h
    | ok token =>
      obtain ⟨ch, k⟩ := token
      obtain ⟨ws', hws', -, hrest, -, -, hle'⟩ := getNextToken_ok hle htoken
      rw [htoken] at h
      dsimp only at h
      by_cases hclose : ch = closeBracket
      · rw [if_pos hclose] at h
        cases h
        refine ⟨hle', [head], _, .last hws hspells hws', rfl, ?_⟩
        rw [hdrop, htext, hrest, hclose]
        simp
      rw [if_neg hclose] at h
      by_cases hcomma : ch ≠ comma
      · rw [if_pos hcomma] at h
        cases h
      rw [if_neg hcomma] at h
      cases hnext : getNextToken s k with
      | error e =>
        rw [hnext] at h
        cases h
      | ok token =>
        obtain ⟨ch', n⟩ := token
        obtain ⟨ws'', hws'', -, hmore, hunread, -, hle''⟩ := getNextToken_ok hle' hnext
        rw [hnext] at h
        obtain ⟨hend, values, text', helements, rfl, htext'⟩ := ih.elements _ n v idx' hle'' h
        refine ⟨hend, head :: values, _, .cons hws hspells hws' (helements.blank hws''), by simp, ?_⟩
        rw [hdrop, htext, hrest, not_not.mp hcomma, hmore, ← hunread, htext']
        simp

theorem members_accepted (ih : Accepted io s fuel) (obj : List (List UInt8 × Json D)) (ch : UInt8)
    (idx : Nat) (v : Json D) (idx' : Nat) (hback : s.drop (idx - 1) = ch :: s.drop idx)
    (h : parseMembers io s (fuel + 1) obj ch idx = .ok (v, idx')) :
    idx' ≤ s.length ∧ ∃ members text, Members True members text ∧ v = .object (assignAll members obj) ∧
      s.drop (idx - 1) = text ++ closeBrace :: s.drop idx' := by
  rw [parseMembers] at h
  by_cases hquote : ch ≠ quote
  · rw [if_pos hquote] at h
    cases h
  rw [if_neg hquote] at h
  rw [not_not.mp hquote] at hback
  cases hstring : parseString s idx with
  | error e =>
    rw [hstring] at h
    cases h
  | ok r =>
    obtain ⟨key, i⟩ := r
    obtain ⟨hkey, hdrop, -, hle⟩ := parseString_ok hstring
    rw [hstring] at h
    dsimp only at h
    cases hcolon : getNextToken s i with
    | error e =>
      rw [hcolon] at h
      cases h
    | ok token =>
      obtain ⟨ch', j⟩ := token
      obtain ⟨ws₁, hws₁, -, hafter, -, -, hle⟩ := getNextToken_ok hle hcolon
      rw [hcolon] at h
      dsimp only at h
      by_cases hcolon' : ch' ≠ colon
      · rw [if_pos hcolon'] at h
        cases h
      rw [if_neg hcolon'] at h
      rw [not_not.mp hcolon'] at hafter
      cases hvalue : parseValue io s fuel j with
      | error e =>
        rw [hvalue] at h
        cases h
      | ok r =>
        obtain ⟨head, k⟩ := r
        obtain ⟨ws₂, n, hws₂, hblank, hle, text, hspells, htext, -⟩ := ih.value _ _ _ hle hvalue
        rw [hvalue] at h
        dsimp only at h
        cases htoken : getNextToken s k with
        | error e =>
          rw [htoken] at h
          cases h
        | ok token =>
          obtain ⟨ch'', l⟩ := token
          obtain ⟨ws', hws', -, hrest, -, -, hle⟩ := getNextToken_ok hle htoken
          rw [htoken] at h
          dsimp only at h
          by_cases hclose : ch'' = closeBrace
          · rw [if_pos hclose] at h
            cases h
            refine ⟨hle, [(key, head)], _, .last blank_nil hkey hws₁ hws₂ hspells hws', rfl, ?_⟩
            rw [hback, hdrop, hafter, hblank, htext, hrest, hclose]
            simp
          rw [if_neg hclose] at h
          by_cases hcomma : ch'' ≠ comma
          · rw [if_pos hcomma] at h
            cases h
          rw [if_neg hcomma] at h
          cases hnext : getNextToken s l with
          | error e =>
            rw [hnext] at h
            cases h
          | ok token =>
            obtain ⟨next, m⟩ := token
            obtain ⟨ws'', hws'', -, hmore, hunread, -, hle⟩ := getNextToken_ok hle hnext
            rw [hnext] at h
            obtain ⟨hend, members, text', hmembers, rfl, htext'⟩ :=
              ih.members _ next m v idx' hunread h
            refine ⟨hend, (key, head) :: members, _,
              .cons blank_nil hkey hws₁ hws₂ hspells hws' (hmembers.blank hws''), rfl, ?_⟩
            rw [hback, hdrop, hafter, hblank, htext, hrest, not_not.mp hcomma, hmore, ← hunread, htext']
            simp

theorem accepted (io : DoubleIo D) (s : List UInt8) (fuel : Nat) : Accepted io s fuel := by
  induction fuel with
  | zero =>
    refine ⟨fun idx v idx' _ h => ?_, fun arr idx v idx' _ h => ?_, fun obj ch idx v idx' _ h => ?_⟩
    · rw [parseValue] at h
      cases h
    · rw [parseElements] at h
      cases h
    · rw [parseMembers] at h
      cases h
  | succ fuel ih => exact ⟨value_accepted ih, elements_accepted ih, members_accepted ih⟩

/-- A value that is returned stands at the front of the text. -/
theorem begins_of_parse {v : Json D} (h : parse io s = .ok v) : Begins s v := by
  unfold parse at h
  cases hvalue : parseValue io s (2 * s.length + 1) 0 with
  | error e =>
    rw [hvalue] at h
    cases h
  | ok r =>
    obtain ⟨w, idx'⟩ := r
    rw [hvalue] at h
    cases h
    obtain ⟨ws, i, hws, hdrop, -, text, hspells, htext, hends⟩ :=
      (accepted io s _).value 0 v idx' (Nat.zero_le _) hvalue
    refine ⟨ws, text, s.drop idx', ?_, hws, hspells, hends⟩
    rw [← htext, ← hdrop, List.drop_zero]

/-! ## What is in the grammar is accepted -/

theorem Denotes.unique {v w : LongLong} {n : Int} (hv : Denotes v n) (hw : Denotes w n) : v = w := by
  apply Subtype.ext
  have := v.2
  unfold Denotes at hv hw
  omega

/-- White space in front of a value is skipped. -/
theorem parseValue_blank {ws rest : List UInt8} (h : s.drop idx = ws ++ rest) (hws : Blank ws) :
    parseValue io s fuel idx = parseValue io s fuel (idx + ws.length) := by
  have hskip : skipWhiteSpaces s idx = skipWhiteSpaces s (idx + ws.length) := by
    unfold skipWhiteSpaces skipWhile
    rw [drop_add h, h, List.takeWhile_append_of_pos hws, List.length_append]
    omega
  cases fuel with
  | zero => rw [parseValue, parseValue]
  | succ fuel => rw [parseValue, parseValue, getNextToken, getNextToken, hskip]

theorem parseValue_of_drop {c : UInt8} {tail : List UInt8} (h : s.drop idx = c :: tail)
    (hc : isSpace c = false) :
    parseValue io s (fuel + 1) idx =
      if c = 110 then parseNull s idx
      else if c = 116 ∨ c = 102 then parseBool s idx
      else if c = minus ∨ isDigit c = true then parseNumber io s idx
      else if c = quote then
        match parseString s (idx + 1) with
        | .error e => .error e
        | .ok (out, idx) => .ok (.string out, idx)
      else if c = openBracket then
        match getNextToken s (idx + 1) with
        | .error e => .error e
        | .ok (ch, idx) =>
          if ch = closeBracket then .ok (.array [], idx) else parseElements io s fuel [] idx
      else if c = openBrace then
        match getNextToken s (idx + 1) with
        | .error e => .error e
        | .ok (ch, idx) =>
          if ch = closeBrace then .ok (.object [], idx) else parseMembers io s fuel [] ch idx
      else .error (.logicError "unexpected character in parse json") := by
  have htoken : getNextToken s idx = .ok (c, idx + 1) := getNextToken_of_drop h blank_nil hc
  rw [parseValue, htoken]
  rfl

/-- `parse` at a number. -/
theorem parseValue_number {c : UInt8} {tail : List UInt8} (h : s.drop idx = c :: tail)
    (hc : c = minus ∨ isDigit c = true) :
    parseValue io s (fuel + 1) idx = parseNumber io s idx := by
  obtain ⟨hspace, -, hn, ht, hf⟩ := number_char hc
  rw [parseValue_of_drop h hspace, if_neg hn, if_neg (by simp [ht, hf]), if_pos hc]

/-- `parse` at an array, with the token behind the bracket. -/
theorem parseValue_array {tail : List UInt8} {ch : UInt8} (h : s.drop idx = openBracket :: tail)
    (htoken : getNextToken s (idx + 1) = .ok (ch, idx')) :
    parseValue io s (fuel + 1) idx =
      if ch = closeBracket then .ok (.array [], idx') else parseElements io s fuel [] idx' := by
  rw [parseValue_of_drop h (by decide), if_neg (by decide), if_neg (by decide), if_neg (by decide),
    if_neg (by decide), if_pos rfl, htoken]

theorem parseValue_object {tail : List UInt8} {ch : UInt8} (h : s.drop idx = openBrace :: tail)
    (htoken : getNextToken s (idx + 1) = .ok (ch, idx')) :
    parseValue io s (fuel + 1) idx =
      if ch = closeBrace then .ok (.object [], idx') else parseMembers io s fuel [] ch idx' := by
  rw [parseValue_of_drop h (by decide), if_neg (by decide), if_neg (by decide), if_neg (by decide),
    if_neg (by decide), if_neg (by decide), if_pos rfl, htoken]

/-- What the recursion does at a text of the grammar, given the fuel it needs. The value is that of
the grammar if no fraction is in it. -/
structure Complete (fractions : Prop) (io : DoubleIo D) (s : List UInt8) (fuel : Nat) : Prop where
  value : ∀ idx (v : Json D) text rest, s.drop idx = text ++ rest → Spells fractions v text →
    Ends v rest → 2 * text.length ≤ fuel →
    ∃ w, parseValue io s fuel idx = .ok (w, idx + text.length) ∧ (¬fractions → w = v)
  elements : ∀ arr idx (values : List (Json D)) text rest,
    s.drop idx = text ++ closeBracket :: rest → Elements fractions values text → 2 * text.length < fuel →
    ∃ c i ws, getNextToken s idx = .ok (c, i) ∧ c ≠ closeBracket ∧
      parseElements io s fuel arr i = .ok (.array (arr ++ ws), idx + text.length + 1) ∧
      (¬fractions → ws = values)
  members : ∀ obj idx (members : List (List UInt8 × Json D)) text rest,
    s.drop idx = text ++ closeBrace :: rest → Members fractions members text → 2 * text.length < fuel →
    ∃ i ms, getNextToken s idx = .ok (quote, i) ∧
      parseMembers io s fuel obj quote i = .ok (.object (assignAll ms obj), idx + text.length + 1) ∧
      (¬fractions → ms = members)

/-- The loop of an array over one element: what is left to do is at the mark behind it. -/
theorem parseElements_head (ih : Complete fractions io s fuel) (arr : List (Json D)) {v : Json D}
    {ws text ws' rest : List UInt8} {c : UInt8}
    (h : s.drop idx = ws ++ (text ++ (ws' ++ c :: rest))) (hws : Blank ws)
    (hv : Spells fractions v text) (hws' : Blank ws') (hc : isSpace c = false)
    (hgo : goesOn c = false) (hfuel : 2 * text.length ≤ fuel) :
    ∃ ch w, getNextToken s idx = .ok (ch, idx + ws.length + 1) ∧ ch ≠ closeBracket ∧
      (¬fractions → w = v) ∧ parseElements io s (fuel + 1) arr (idx + ws.length + 1) =
        if c = closeBracket then
          .ok (.array (arr ++ [w]), idx + ws.length + text.length + ws'.length + 1)
        else if c ≠ comma then .error (.logicError "expected ',' in array")
        else
          match getNextToken s (idx + ws.length + text.length + ws'.length + 1) with
          | .error e => .error e
          | .ok (_, idx) => parseElements io s fuel (arr ++ [w]) idx := by
  have hdrop := drop_add h
  have hends : Ends v (ws' ++ c :: rest) := ends_of_stops (stops_blank hws' hgo)
  have hmark := getNextToken_of_drop (drop_add hdrop) hws' hc
  obtain ⟨w, hw, hsame⟩ := ih.value _ v text _ hdrop hv hends hfuel
  obtain ⟨ch, tail, rfl, hch, hclose⟩ := hv.eq_cons
  refine ⟨ch, w, getNextToken_of_drop h hws hch, hclose, hsame, ?_⟩
  rw [parseElements, Nat.add_sub_cancel, hw]
  dsimp only
  rewrite [hmark]
  rfl

theorem elements_complete (ih : Complete fractions io s fuel) (arr : List (Json D)) (idx : Nat)
    (values : List (Json D)) (text rest : List UInt8) (h : s.drop idx = text ++ closeBracket :: rest)
    (helements : Elements fractions values text) (hfuel : 2 * text.length < fuel + 1) :
    ∃ c i ws, getNextToken s idx = .ok (c, i) ∧ c ≠ closeBracket ∧
      parseElements io s (fuel + 1) arr i = .ok (.array (arr ++ ws), idx + text.length + 1) ∧
      (¬fractions → ws = values) := by
  cases helements with
  | @last v ws text ws' hws hv hws' =>
    simp only [List.append_assoc] at h
    simp only [List.length_append] at hfuel
    obtain ⟨ch, w, hfirst, hclose, hsame, hloop⟩ :=
      parseElements_head ih arr h hws hv hws' (by decide) (by decide) (by omega)
    refine ⟨ch, _, [w], hfirst, hclose, ?_, fun hnone => by rw [hsame hnone]⟩
    rw [hloop, if_pos rfl]
    simp only [List.length_append]
    congr 2
    omega
  | @cons v values ws text ws' more hws hv hws' hmore =>
    simp only [List.append_assoc, List.cons_append] at h
    simp only [List.length_append, List.length_cons] at hfuel
    have hrest := drop_succ_of_drop (drop_add (drop_add (drop_add h)))
    obtain ⟨ch, w, hfirst, hclose, hsame, hloop⟩ :=
      parseElements_head ih arr h hws hv hws' (by decide) (by decide) (by omega)
    obtain ⟨ch', i, us, hnext, -, htail, hsames⟩ :=
      ih.elements (arr ++ [w]) _ values more rest hrest hmore (by omega)
    refine ⟨ch, _, w :: us, hfirst, hclose, ?_, fun hnone => by rw [hsame hnone, hsames hnone]⟩
    rw [hloop, if_neg (by decide), if_neg (by decide), hnext]
    dsimp only
    rw [htail, List.append_assoc, List.singleton_append]
    simp only [List.length_append, List.length_cons]
    congr 2
    omega

/-- The loop of an object over one member, from behind the quote of its key. -/
theorem parseMembers_head (ih : Complete fractions io s fuel) (obj : List (List UInt8 × Json D))
    {key : List UInt8} {v : Json D} {ws₁ ws₂ text ws' rest : List UInt8} {c : UInt8}
    (h : s.drop idx = key ++ quote :: (ws₁ ++ colon :: (ws₂ ++ (text ++ (ws' ++ c :: rest)))))
    (hkey : Plain key) (hws₁ : Blank ws₁) (hws₂ : Blank ws₂) (hv : Spells fractions v text)
    (hws' : Blank ws') (hc : isSpace c = false) (hgo : goesOn c = false)
    (hfuel : 2 * text.length ≤ fuel) :
    ∃ i w, s.drop i = rest ∧
      i = idx + key.length + 1 + ws₁.length + 1 + ws₂.length + text.length + ws'.length + 1 ∧
      (¬fractions → w = v) ∧ parseMembers io s (fuel + 1) obj quote idx =
        if c = closeBrace then .ok (.object (assign key w obj), i)
        else if c ≠ comma then .error (.logicError "expected ',' in object")
        else
          match getNextToken s i with
          | .error e => .error e
          | .ok (ch, idx) => parseMembers io s fuel (assign key w obj) ch idx := by
  have hcolon := drop_succ_of_drop (drop_add h)
  have hblank := drop_succ_of_drop (drop_add hcolon)
  have hvalue := drop_add hblank
  have hmark := drop_add hvalue
  have hends : Ends v (ws' ++ c :: rest) := ends_of_stops (stops_blank hws' hgo)
  obtain ⟨w, hw, hsame⟩ := ih.value _ v text _ hvalue hv hends hfuel
  refine ⟨_, w, drop_succ_of_drop (drop_add hmark), rfl, hsame, ?_⟩
  rw [parseMembers, if_neg (by simp), parseString_of_drop h hkey]
  dsimp only
  rw [getNextToken_of_drop hcolon hws₁ (by decide)]
  dsimp only
  rw [if_neg (by simp), parseValue_blank hblank hws₂, hw]
  dsimp only
  rewrite [getNextToken_of_drop hmark hws' hc]
  rfl

theorem members_complete (ih : Complete fractions io s fuel) (obj : List (List UInt8 × Json D))
    (idx : Nat) (members : List (List UInt8 × Json D)) (text rest : List UInt8)
    (h : s.drop idx = text ++ closeBrace :: rest) (hmembers : Members fractions members text)
    (hfuel : 2 * text.length < fuel + 1) :
    ∃ i ms, getNextToken s idx = .ok (quote, i) ∧
      parseMembers io s (fuel + 1) obj quote i =
        .ok (.object (assignAll ms obj), idx + text.length + 1) ∧ (¬fractions → ms = members) := by
  cases hmembers with
  | @last key v ws ws₁ ws₂ text ws' hws hkey hws₁ hws₂ hv hws' =>
    simp only [List.append_assoc, List.cons_append] at h
    simp only [List.length_append, List.length_cons] at hfuel
    have hquote := drop_succ_of_drop (drop_add h)
    obtain ⟨i, w, -, hi, hsame, hloop⟩ :=
      parseMembers_head ih obj hquote hkey hws₁ hws₂ hv hws' (by decide) (by decide) (by omega)
    refine ⟨_, [(key, w)], getNextToken_of_drop h hws (by decide), ?_,
      fun hnone => by rw [hsame hnone]⟩
    rw [hloop, if_pos rfl]
    simp only [List.length_append, List.length_cons]
    congr 2
    omega
  | @cons key v members ws ws₁ ws₂ text ws' more hws hkey hws₁ hws₂ hv hws' hmore =>
    simp only [List.append_assoc, List.cons_append] at h
    simp only [List.length_append, List.length_cons] at hfuel
    have hquote := drop_succ_of_drop (drop_add h)
    obtain ⟨i, w, hrest, hi, hsame, hloop⟩ :=
      parseMembers_head ih obj hquote hkey hws₁ hws₂ hv hws' (by decide) (by decide) (by omega)
    obtain ⟨j, us, hnext, htail, hsames⟩ :=
      ih.members (assign key w obj) i members more rest hrest hmore (by omega)
    refine ⟨_, (key, w) :: us, getNextToken_of_drop h hws (by decide), ?_,
      fun hnone => by rw [hsame hnone, hsames hnone]⟩
    rw [hloop, if_neg (by decide), if_neg (by decide), hnext]
    dsimp only
    rw [htail]
    simp only [List.length_append, List.length_cons]
    congr 2
    omega

theorem value_complete (ih : Complete fractions io s fuel) (idx : Nat) (v : Json D)
    (text rest : List UInt8) (h : s.drop idx = text ++ rest) (hv : Spells fractions v text)
    (hends : Ends v rest) (hfuel : 2 * text.length ≤ fuel + 1) :
    ∃ w, parseValue io s (fuel + 1) idx = .ok (w, idx + text.length) ∧ (¬fractions → w = v) := by
  cases hv with
  | null =>
    have hdrop : s.drop idx = 110 :: ([117, 108, 108] ++ rest) := h
    refine ⟨.null, ?_, fun _ => rfl⟩
    rw [parseValue_of_drop hdrop (by decide), if_pos rfl, parseNull, occursAt_of_drop h]
    rfl
  | bool value =>
    refine ⟨.bool value, ?_, fun _ => rfl⟩
    cases value with
    | true =>
      have hdrop : s.drop idx = 116 :: ([114, 117, 101] ++ rest) := h
      have htrue : occursAt s trueText idx = true := occursAt_of_drop h
      rw [parseValue_of_drop hdrop (by decide), if_neg (by decide), if_pos (by decide), parseBool,
        htrue]
      rfl
    | false =>
      have hdrop : s.drop idx = 102 :: ([97, 108, 115, 101] ++ rest) := h
      have htrue : occursAt s trueText idx = false := by
        rw [occursAt, hdrop]
        simp [trueText]
      have hfalse : occursAt s falseText idx = true := occursAt_of_drop h
      rw [parseValue_of_drop hdrop (by decide), if_neg (by decide), if_pos (by decide), parseBool,
        htrue, hfalse]
      rfl
  | @integer n negative digits hdigits hvalue =>
    obtain ⟨c, tail, htext, hc⟩ : ∃ c tail, signText negative digits = c :: tail ∧ _ :=
      signText_eq_cons hdigits
    have hdrop : s.drop idx = c :: (tail ++ rest) := by rw [h, htext, List.cons_append]
    refine ⟨.integer (atoll (s.drop idx)), ?_, fun _ => ?_⟩
    · rw [parseValue_number hdrop hc]
      exact parseNumber_of_integer h hdigits hends
    · have hdenotes : Denotes (atoll (s.drop idx)) (signed negative (digitsValue digits)) := by
        rw [h]
        exact atoll_signText hdigits (stops_isDigit hends)
      rw [hdenotes.unique hvalue]
  | @double d negative digits fraction hfractions hdigits hne hfraction =>
    obtain ⟨c, tail, htext, hc⟩ : ∃ c tail, signText negative digits = c :: tail ∧ _ :=
      signText_eq_cons hdigits
    rw [List.append_assoc, List.cons_append] at h
    have hdrop : s.drop idx = c :: (tail ++ dot :: (fraction ++ rest)) := by
      rw [h, htext, List.cons_append]
    refine ⟨.double (io.atof (s.drop idx)), ?_, fun hnone => absurd hfractions hnone⟩
    rw [parseValue_number hdrop hc]
    exact parseNumber_of_double h hdigits hne hfraction hends
  | @string value hplain =>
    simp only [List.append_assoc, List.cons_append, List.nil_append] at h
    refine ⟨.string value, ?_, fun _ => rfl⟩
    rw [parseValue_of_drop h (by decide), if_neg (by decide), if_neg (by decide), if_neg (by decide),
      if_pos rfl, parseString_of_drop (drop_succ_of_drop h) hplain]
    simp only [List.length_append, List.length_cons, List.length_nil]
    congr 2
    omega
  | @emptyArray ws hws =>
    simp only [List.append_assoc, List.cons_append, List.nil_append] at h
    have hclose := getNextToken_of_drop (drop_succ_of_drop h) hws (by decide)
    refine ⟨.array [], ?_, fun _ => rfl⟩
    rw [parseValue_array h hclose, if_pos rfl]
    simp only [List.length_append, List.length_cons, List.length_nil]
    congr 2
    omega
  | @array values text helements =>
    simp only [List.append_assoc, List.cons_append, List.nil_append] at h
    simp only [List.length_append, List.length_cons, List.length_nil] at hfuel
    obtain ⟨c, i, ws, htoken, hclose, hloop, hsame⟩ :=
      ih.elements [] (idx + 1) values text rest (drop_succ_of_drop h) helements (by omega)
    refine ⟨.array ws, ?_, fun hnone => by rw [hsame hnone]⟩
    rw [parseValue_array h htoken, if_neg hclose, hloop, List.nil_append]
    simp only [List.length_append, List.length_cons, List.length_nil]
    congr 2
    omega
  | @emptyObject ws hws =>
    simp only [List.append_assoc, List.cons_append, List.nil_append] at h
    have hclose := getNextToken_of_drop (drop_succ_of_drop h) hws (by decide)
    refine ⟨.object [], ?_, fun _ => rfl⟩
    rw [parseValue_object h hclose, if_pos rfl]
    simp only [List.length_append, List.length_cons, List.length_nil]
    congr 2
    omega
  | @object members text hmembers =>
    simp only [List.append_assoc, List.cons_append, List.nil_append] at h
    simp only [List.length_append, List.length_cons, List.length_nil] at hfuel
    obtain ⟨i, ms, htoken, hloop, hsame⟩ :=
      ih.members [] (idx + 1) members text rest (drop_succ_of_drop h) hmembers (by omega)
    refine ⟨.object (assignAll ms []), ?_, fun hnone => by rw [hsame hnone]⟩
    rw [parseValue_object h htoken, if_neg (by decide), hloop]
    simp only [List.length_append, List.length_cons, List.length_nil]
    congr 2
    omega

theorem complete (fractions : Prop) (io : DoubleIo D) (s : List UInt8) (fuel : Nat) :
    Complete fractions io s fuel := by
  induction fuel with
  | zero =>
    refine ⟨?_, by omega, by omega⟩
    intro idx v text rest _ hv _ hfuel
    obtain ⟨c, tail, rfl, -⟩ := hv.eq_cons
    cases hfuel
  | succ fuel ih => exact ⟨value_complete ih, elements_complete ih, members_complete ih⟩

theorem parse_of_begins {v : Json D} (h : Begins s v) : ∃ w, parse io s = .ok w := by
  obtain ⟨ws, text, rest, hs, hws, hv, hends⟩ := h
  have hblank : s.drop 0 = ws ++ (text ++ rest) := by rw [List.drop_zero, hs]
  have hfuel : 2 * text.length ≤ 2 * s.length + 1 := by
    rw [hs, List.length_append, List.length_append]
    omega
  obtain ⟨w, hw, -⟩ := (complete True io s _).value _ v text rest (drop_add hblank) hv hends hfuel
  refine ⟨w, ?_⟩
  rw [parse, parseValue_blank hblank hws, hw]

/-- `parse` returns exactly on the texts that begin with white space and a value, and it returns a
value that the text begins with. -/
theorem parse_iff (io : DoubleIo D) (s : List UInt8) :
    ((∃ v, parse io s = .ok v) ↔ ∃ v : Json D, Begins s v) ∧
      ∀ v, parse io s = .ok v → Begins s v := by
  refine ⟨⟨?_, ?_⟩, fun v => begins_of_parse⟩
  · rintro ⟨v, h⟩
    exact ⟨v, begins_of_parse h⟩
  · rintro ⟨v, h⟩
    exact parse_of_begins h

/-- Doubles of which nothing is read and nothing is printed. -/
def noDoubleIo : DoubleIo Unit where
  atof := fun _ => ()
  print := fun _ => []

/-- The whole text is white space, a value and white space. -/
def Whole (s : List UInt8) (v : Json D) : Prop :=
  ∃ ws text ws', s = ws ++ (text ++ ws') ∧ Blank ws ∧ Blank ws' ∧ Spells True v text

/-- Behind a digit a value has only the characters of numbers. -/
theorem Spells.number {v : Json D} {text : List UInt8} (h : Spells fractions v text) {c : UInt8}
    {tail : List UInt8} (htext : text = c :: tail) (hc : isDigit c = true) :
    ∀ d ∈ text, isDigit d = true ∨ d = minus ∨ d = dot := by
  have hsign : ∀ {negative : Bool} {digits : List UInt8}, IsInteger digits →
      ∀ d ∈ signText negative digits, isDigit d = true ∨ d = minus ∨ d = dot := by
    intro negative digits hdigits d hd
    cases negative with
    | true =>
      rcases List.mem_cons.mp hd with rfl | hd
      · exact .inr (.inl rfl)
      · exact .inl (hdigits.digits d hd)
    | false => exact .inl (hdigits.digits d hd)
  cases h with
  | integer hdigits hvalue => exact hsign hdigits
  | double d _ hdigits hne hfraction =>
    intro e he
    rcases List.mem_append.mp he with he | he
    · exact hsign hdigits e he
    · rcases List.mem_cons.mp he with rfl | he
      · exact .inr (.inr rfl)
      · exact .inl (hfraction e he)
  | null =>
    cases htext
    exact absurd hc (by decide)
  | bool value =>
    cases value <;> (cases htext; exact absurd hc (by decide))
  | string | emptyArray | array | emptyObject | object =>
    cases htext
    exact absurd hc (by decide)

/-- `1 2` is read as 1, and 2^63 as the integer before it. -/
theorem parse_not_whole :
    parse noDoubleIo [49, 32, 50] = .ok (.integer ⟨1, by decide⟩) ∧
      (¬∃ v : Json Unit, Whole [49, 32, 50] v) ∧
      parse noDoubleIo [57, 50, 50, 51, 51, 55, 50, 48, 51, 54, 56, 53, 52, 55, 55, 53, 56, 48, 56] =
        .ok (.integer ⟨9223372036854775807, by decide⟩) := by
  refine ⟨rfl, ?_, rfl⟩
  rintro ⟨v, ws, text, ws', hs, hws, hws', hv⟩
  obtain ⟨c, tail, htext, -, -⟩ := hv.eq_cons
  have hnil : ws = [] := by
    cases ws with
    | nil => rfl
    | cons d ws =>
      have hd := hws d List.mem_cons_self
      rw [← (List.cons.inj hs).1] at hd
      exact absurd hd (by decide)
  rw [hnil, htext, List.nil_append, List.cons_append, List.cons.injEq] at hs
  obtain ⟨rfl, hs⟩ := hs
  cases tail with
  | nil =>
    rw [List.nil_append] at hs
    have hlast := hws' 50 (by rw [← hs]; decide)
    exact absurd hlast (by decide)
  | cons d tail =>
    have hd := hv.number htext (by decide) d (by simp [htext])
    rw [← (List.cons.inj hs).1] at hd
    exact absurd hd (by decide)

end Json

end Tubekit
