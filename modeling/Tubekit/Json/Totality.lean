import Tubekit.Json.Image
import Tubekit.Json.Program

/-!
# The parser as a program

Each function comes to what its counterpart on the text does, and stays inside the text on the way
(`Inside`), from every index in the text. So the program returns what `Json.parse` returns
(`run_result`), and its fuel is never used up.
-/

namespace Tubekit

open Lib Scan OrderedMap Cursor

namespace JsonParser

open Json

variable {D : Type}

/-! ## What each function comes to -/

/-- Reads and `m_idx` are at most at the end of the text, and a call moves `m_idx` on. -/
def Inside (s : List UInt8) : Touch → Prop
  | .read i => i ≤ s.length
  | .move i => i ≤ s.length
  | .call start stop => start < stop

variable {s : List UInt8} {i : Nat}

theorem inside_read (k : Nat) (hk : k ≤ s.length) : Inside s (.read k) := hk

theorem inside_move (k : Nat) (hk : k ≤ s.length) : Inside s (.move k) := hk

theorem skipWhiteSpaces_runs (hi : i ≤ s.length) :
    Runs (Inside s) skipWhiteSpaces s i (.ok ((), Json.skipWhiteSpaces s i)) := by
  apply Runs.iterate_skip _ _ hi
  · intro j hj hp
    apply Runs.bind Runs.index
    apply Runs.bind Runs.size
    rw [if_pos hj]
    apply Runs.bind (Runs.peek (Nat.le_of_lt hj))
    rw [if_pos hp]
    exact Runs.bind (Runs.advance hj) Runs.pure
  · intro j hj hstop
    apply Runs.bind Runs.index
    apply Runs.bind Runs.size
    by_cases hlt : j < s.length
    · rw [if_pos hlt]
      apply Runs.bind (Runs.peek hj)
      rw [if_neg (fun hp => hstop ⟨hlt, hp⟩)]
      exact Runs.pure
    · rw [if_neg hlt]
      exact Runs.pure

theorem getNextToken_runs (hi : i ≤ s.length) :
    Runs (Inside s) getNextToken s i (Json.getNextToken s i) := by
  have hle : Json.skipWhiteSpaces s i ≤ s.length := (skipWhile_le hi).2
  apply Runs.bind (skipWhiteSpaces_runs hi)
  apply Runs.bind Runs.index
  apply Runs.bind Runs.size
  apply Runs.ite
  · intro _
    exact Runs.raise
  · intro hne
    have hlt : Json.skipWhiteSpaces s i < s.length := Nat.lt_of_le_of_ne hle hne
    exact Runs.take hle hlt

theorem parseNull_runs (hi : i ≤ s.length) :
    Runs (Inside s) (parseNull : Cursor JsonError (Json D)) s i (Json.parseNull s i) := by
  apply Runs.bind (Runs.compare hi inside_read)
  apply Runs.ite
  · intro hoccurs
    exact Runs.bind (Runs.advance (le_of_occursAt hi hoccurs)) Runs.pure
  · intro _
    exact Runs.raise

theorem parseBool_runs (hi : i ≤ s.length) :
    Runs (Inside s) (parseBool : Cursor JsonError (Json D)) s i (Json.parseBool s i) := by
  apply Runs.bind (Runs.compare hi inside_read)
  apply Runs.ite
  · intro hoccurs
    exact Runs.bind (Runs.advance (le_of_occursAt hi hoccurs)) Runs.pure
  · intro _
    apply Runs.bind (Runs.compare hi inside_read)
    apply Runs.ite
    · intro hoccurs
      exact Runs.bind (Runs.advance (le_of_occursAt hi hoccurs)) Runs.pure
    · intro _
      exact Runs.raise

/-- What `parseString` gives where a run of plain characters ends at `j`. -/
theorem parseString_eq {j : Nat} {run : List UInt8} (hrun : s.drop i = run ++ s.drop j)
    (hj : j = i + run.length) (hplain : ∀ c ∈ run, isPlain c = true)
    (hstops : Stops isPlain (s.drop j)) :
    Json.parseString s i =
      if j ≥ s.length then .error (.logicError "unexpected end of input in string")
      else if charAt s j = quote then .ok (run, j + 1)
      else .error (.logicError "not support escaped characters in string") := by
  have hstop : skipWhile isPlain s i = j := by
    rw [hj]
    exact skipWhile_eq hrun hplain hstops
  unfold Json.parseString
  rw [hstop, hrun, takeWhile_append hplain hstops]

theorem isPlain_iff {c : UInt8} : isPlain c = true ↔ c ≠ quote ∧ c ≠ backslash := by
  simp [isPlain]

theorem stringRound_runs (out : List UInt8) (hi : i ≤ s.length) :
    Runs (Inside s) (stringRound out) s i
      (if i ≥ s.length then .error (.logicError "unexpected end of input in string")
      else if charAt s i = quote then .ok (.inr out, i + 1)
      else if charAt s i ≠ backslash then .ok (.inl (out ++ [charAt s i]), i + 1)
      else .error (.logicError "not support escaped characters in string")) := by
  apply Runs.bind Runs.index
  apply Runs.bind Runs.size
  apply Runs.ite
  · intro _
    exact Runs.raise
  · intro hend
    apply Runs.bind (Runs.take hi (Nat.lt_of_not_le hend))
    apply Runs.ite
    · intro _
      exact Runs.pure
    · intro _
      apply Runs.ite
      · intro _
        exact Runs.pure
      · intro _
        exact Runs.raise

theorem parseString_runs (hi : i ≤ s.length) :
    Runs (Inside s) parseString s i (Json.parseString s i) := by
  apply Runs.iterate
  -- `out` has the characters from the start to the index
  have hrounds : ∀ n j out, s.drop i = out ++ s.drop j → j = i + out.length →
      (∀ c ∈ out, isPlain c = true) → j ≤ s.length → s.length - j < n →
      Runs (Inside s) (rounds .outOfFuel stringRound n out) s j (Json.parseString s i) := by
    intro n
    induction n with
    | zero => omega
    | succ n ih =>
      intro j out hout hj hplain hle hn
      have hround := stringRound_runs out hle
      by_cases hend : j ≥ s.length
      · have hstops : Stops isPlain (s.drop j) := by
          rw [List.drop_eq_nil_of_le hend]
          exact stops_nil _
        rw [if_pos hend] at hround
        rw [parseString_eq hout hj hplain hstops, if_pos hend]
        exact Runs.rounds_error hround
      rw [if_neg hend] at hround
      by_cases hquote : charAt s j = quote
      · have hstops : Stops isPlain (s.drop j) := stops_of_charAt (by rw [hquote]; rfl)
        rw [if_pos hquote] at hround
        rw [parseString_eq hout hj hplain hstops, if_neg hend, if_pos hquote]
        exact Runs.rounds_last hround
      rw [if_neg hquote] at hround
      by_cases hbackslash : charAt s j = backslash
      · have hstops : Stops isPlain (s.drop j) := stops_of_charAt (by rw [hbackslash]; rfl)
        rw [if_neg (not_not_intro hbackslash)] at hround
        rw [parseString_eq hout hj hplain hstops, if_neg hend, if_neg hquote]
        exact Runs.rounds_error hround
      · have hlt : j < s.length := Nat.lt_of_not_le hend
        rw [if_pos hbackslash] at hround
        apply Runs.rounds_next hround
        apply ih (j + 1) _ _ _ _ hlt (by omega)
        · rw [hout, List.append_assoc, drop_eq_cons hlt]
          rfl
        · rw [List.length_append, hj]
          rfl
        · intro c hc
          rcases List.mem_append.mp hc with hc | hc
          · exact hplain c hc
          · rw [List.mem_singleton.mp hc]
            exact isPlain_iff.mpr ⟨hquote, hbackslash⟩
  exact hrounds _ i [] rfl rfl (by simp) hi (by omega)

/-! ### Numbers -/

theorem inRange_of_ne_zero {c : UInt8} (h : c ≠ zero) : inRange c 49 57 = isDigit c := by
  have hne : c.toNat ≠ 48 := by
    intro heq
    exact h (UInt8.toNat_inj.mp heq)
  simp only [inRange, isDigit, UInt8.le_iff_toNat_le]
  have hiff : (49 ≤ c.toNat ∧ c.toNat ≤ 57) ↔ (48 ≤ c.toNat ∧ c.toNat ≤ 57) := by omega
  exact decide_eq_decide.mpr hiff

theorem skipDigits_runs (hi : i ≤ s.length) :
    Runs (Inside s) (skip .outOfFuel (inRange · 48 57) : Cursor JsonError Unit) s i
      (.ok ((), skipWhile isDigit s i)) :=
  Runs.skip rfl inside_read inside_move hi

theorem skipMinus_runs (hi : i ≤ s.length) :
    Runs (Inside s) skipMinus s i (.ok ((), if charAt s i = minus then i + 1 else i)) := by
  apply Runs.bind (Runs.peek hi)
  by_cases hminus : charAt s i = minus
  · have hlt : i < s.length := lt_of_charAt (by rw [hminus]; decide)
    rw [if_pos hminus, if_pos hminus]
    exact Runs.advance hlt
  · rw [if_neg hminus, if_neg hminus]
    exact Runs.pure

theorem integerDigits_runs (hi : i ≤ s.length) :
    Runs (Inside s) integerDigits s i ((Json.integerDigits s i).map (Prod.mk ())) := by
  apply Runs.bind (Runs.peek hi)
  by_cases hzero : charAt s i = zero
  · have hlt : i < s.length := lt_of_charAt (by rw [hzero]; decide)
    rw [if_pos hzero, Json.integerDigits, if_pos hzero]
    apply Runs.bind (Runs.advance hlt)
    apply Runs.bind (Runs.peek hlt)
    by_cases hdigit : inRange (charAt s (i + 1)) 48 57 = true
    · have hdigit' : isDigit (charAt s (i + 1)) = true := hdigit
      rw [if_pos hdigit, if_pos hdigit']
      exact Runs.raise
    · have hdigit' : ¬isDigit (charAt s (i + 1)) = true := hdigit
      rw [if_neg hdigit, if_neg hdigit']
      exact Runs.pure
  · rw [if_neg hzero, Json.integerDigits, if_neg hzero]
    apply Runs.bind (Runs.peek hi)
    rw [inRange_of_ne_zero hzero]
    by_cases hdigit : isDigit (charAt s i) = true
    · have hlt : i < s.length := lt_of_isDigit hdigit
      rw [if_pos hdigit, if_pos hdigit]
      exact Runs.bind (Runs.advance hlt) (skipDigits_runs hlt)
    · rw [if_neg hdigit, if_neg hdigit]
      exact Runs.raise

theorem parseNumber_runs (io : DoubleIo D) (hi : i ≤ s.length) :
    Runs (Inside s) (parseNumber io) s i (Json.parseNumber io s i) := by
  have hsign : (if charAt s i = minus then i + 1 else i) ≤ s.length := by
    split
    · next hminus => exact lt_of_charAt (by rw [hminus]; decide)
    · exact hi
  have hdigits : Runs (Inside s) integerDigits s _ ((integerEnd s i).map (Prod.mk ())) :=
    integerDigits_runs hsign
  apply Runs.bind Runs.index
  apply Runs.bind (skipMinus_runs hi)
  unfold Json.parseNumber
  obtain ⟨what, he⟩ | ⟨j, he, -, hj⟩ := integerEnd_spec s i
  · rw [he] at hdigits ⊢
    exact Runs.bind_error hdigits
  · rw [he] at hdigits ⊢
    apply Runs.bind hdigits
    apply Runs.bind (Runs.peek hj)
    dsimp only
    by_cases hdot : charAt s j = dot
    · have hlt : j < s.length := lt_of_charAt (by rw [hdot]; decide)
      rw [if_pos hdot, if_pos hdot]
      apply Runs.bind (Runs.advance hlt)
      apply Runs.bind (Runs.peek hlt)
      by_cases hdigit : isDigit (charAt s (j + 1)) = true
      · have hdigit' : ¬inRange (charAt s (j + 1)) 48 57 = false := by
          rw [Bool.not_eq_false]
          exact hdigit
        rw [if_pos hdigit, if_neg hdigit']
        apply Runs.bind (skipDigits_runs hlt)
        exact Runs.bind (Runs.textFrom inside_read) Runs.pure
      · have hdigit' : inRange (charAt s (j + 1)) 48 57 = false := Bool.eq_false_iff.mpr hdigit
        rw [if_neg hdigit, if_pos hdigit']
        exact Runs.raise
    · rw [if_neg hdot, if_neg hdot]
      exact Runs.bind (Runs.textFrom inside_read) Runs.pure

/-! ### The calls in one another -/

variable {io : DoubleIo D} {depth fuel : Nat}

/-- A token that was found is un-read. -/
theorem unread_runs (hpos : 0 < i) (hi : i ≤ s.length) :
    Runs (Inside s) (decrement : Cursor JsonError Unit) s i (.ok ((), i - 1)) := by
  apply Runs.decrement hpos
  apply inside_move
  omega

theorem call_runs {x : Cursor JsonError (Json D)} {r : Except JsonError (Json D × Nat)}
    (hx : Runs (Inside s) x s i r) (hr : Json.Outcome s i r) : Runs (Inside s) (call x) s i r := by
  cases hr with
  | error what => exact Runs.call_error hx
  | ok canonical lt le => exact Runs.call_ok hx lt

/-- What is known of `parse` for the calls in a loop. -/
def ParseRuns (io : DoubleIo D) (s : List UInt8) (depth : Nat) : Prop :=
  ∀ i fuel, i ≤ s.length → s.length - i < depth → 2 * (s.length - i) + 1 ≤ fuel →
    Runs (Inside s) (parse io depth) s i (parseValue io s fuel i)

/-! #### A call and what is behind it -/

section Behind

variable {α β : Type} {q : Except JsonError (β × Nat)}

theorem of_ok {P : α → Nat → Prop} {r : Except JsonError (α × Nat)} {a : α} {j : Nat}
    (hspec : (∃ what, r = .error (.logicError what)) ∨ ∃ a j, r = .ok (a, j) ∧ P a j)
    (hok : r = .ok (a, j)) : P a j := by
  obtain ⟨what, he⟩ | ⟨a', j', hok', hP⟩ := hspec
  · rw [he] at hok
    cases hok
  · rw [hok'] at hok
    cases hok
    exact hP

theorem token_cases {f : UInt8 → Cursor JsonError β} (hi : i ≤ s.length)
    (herror : ∀ e, Json.getNextToken s i = .error e → q = .error e)
    (hok : ∀ ch j, Json.getNextToken s i = .ok (ch, j) → i < j → j ≤ s.length →
      Runs (Inside s) (f ch) s j q) : Runs (Inside s) (getNextToken >>= f) s i q := by
  apply Runs.bind_cases (getNextToken_runs hi) herror
  intro ch j htoken
  obtain ⟨hlt, hle⟩ := of_ok (getNextToken_spec hi) htoken
  exact hok ch j htoken hlt hle

theorem string_cases {f : List UInt8 → Cursor JsonError β} (hi : i ≤ s.length)
    (herror : ∀ e, Json.parseString s i = .error e → q = .error e)
    (hok : ∀ out j, Json.parseString s i = .ok (out, j) → i < j → j ≤ s.length →
      Runs (Inside s) (f out) s j q) : Runs (Inside s) (parseString >>= f) s i q := by
  apply Runs.bind_cases (parseString_runs hi) herror
  intro out j hstring
  obtain ⟨-, hlt, hle⟩ := of_ok (parseString_spec hi) hstring
  exact hok out j hstring hlt hle

theorem value_cases {f : Json D → Cursor JsonError β} (fuel : Nat) (ih : ParseRuns io s depth)
    (hi : i ≤ s.length) (hdepth : s.length - i < depth) (hfuel : 2 * (s.length - i) + 1 ≤ fuel)
    (herror : ∀ e, parseValue io s fuel i = .error e → q = .error e)
    (hok : ∀ v j, parseValue io s fuel i = .ok (v, j) → i < j → j ≤ s.length →
      Runs (Inside s) (f v) s j q) : Runs (Inside s) (parse io depth >>= f) s i q := by
  apply Runs.bind_cases (ih i fuel hi hdepth hfuel) herror
  intro v j hvalue
  have hout := (outcomes io s fuel).value i hi hfuel
  rw [hvalue] at hout
  cases hout with
  | ok _ hlt hle => exact hok v j hvalue hlt hle

end Behind

theorem arrayRounds_runs (ih : ParseRuns io s depth) (n : Nat) (arr : List (Json D))
    (hpos : 0 < i) (hi : i ≤ s.length) (hdepth : s.length - (i - 1) < depth)
    (hn : s.length - i < n) (hfuel : 2 * (s.length - i) + 4 ≤ fuel) :
    Runs (Inside s) (rounds .outOfFuel (arrayRound (parse io depth)) n arr) s i
      (parseElements io s fuel arr i) := by
  induction n generalizing arr i fuel with
  | zero => omega
  | succ n ihn =>
    obtain ⟨fuel, rfl⟩ : ∃ f, fuel = f + 1 := ⟨fuel - 1, by omega⟩
    rw [parseElements]
    apply Runs.assoc
    apply Runs.bind (unread_runs hpos hi)
    apply Runs.assoc
    apply value_cases fuel ih (by omega) hdepth (by omega)
    · intro e hvalue
      rw [hvalue]
    intro v j hvalue _ hj
    rw [hvalue]
    apply Runs.assoc
    apply token_cases hj
    · intro e htoken
      simp only [htoken]
    intro ch k htoken _ hk
    simp only [htoken]
    apply Runs.ite_bind
    · intro _
      exact Runs.bind Runs.pure Runs.pure
    intro _
    apply Runs.ite_bind
    · intro _
      exact Runs.bind_error Runs.raise
    intro _
    apply Runs.assoc
    apply token_cases hk
    · intro e htoken'
      simp only [htoken']
    intro ch' l htoken' _ hl
    simp only [htoken']
    apply Runs.bind Runs.pure
    exact ihn _ (by omega) hl (by omega) (by omega) (by omega)

theorem objectRounds_runs (ih : ParseRuns io s depth) (n : Nat)
    (obj : List (List UInt8 × Json D)) (ch : UInt8)
    (hi : i ≤ s.length) (hdepth : s.length - i < depth)
    (hn : s.length - i < n) (hfuel : 2 * (s.length - i) + 4 ≤ fuel) :
    Runs (Inside s) (rounds .outOfFuel (objectRound (parse io depth)) n (obj, ch)) s i
      (parseMembers io s fuel obj ch i) := by
  induction n generalizing obj ch i fuel with
  | zero => omega
  | succ n ihn =>
    obtain ⟨fuel, rfl⟩ : ∃ f, fuel = f + 1 := ⟨fuel - 1, by omega⟩
    rw [parseMembers]
    apply Runs.ite_bind
    · intro _
      exact Runs.bind_error Runs.raise
    intro _
    apply Runs.assoc
    apply string_cases hi
    · intro e hstring
      rw [hstring]
    intro key j hstring _ hj
    simp only [hstring]
    apply Runs.assoc
    apply token_cases hj
    · intro e htoken
      simp only [htoken]
    intro colonCh k htoken _ hk
    simp only [htoken]
    apply Runs.ite_bind
    · intro _
      exact Runs.bind_error Runs.raise
    intro _
    apply Runs.assoc
    apply value_cases fuel ih hk (by omega) (by omega)
    · intro e hvalue
      simp only [hvalue]
    intro v l hvalue _ hl
    simp only [hvalue]
    apply Runs.assoc
    apply token_cases hl
    · intro e htoken'
      simp only [htoken']
    intro ch' m htoken' _ hm
    simp only [htoken']
    apply Runs.ite_bind
    · intro _
      exact Runs.bind Runs.pure Runs.pure
    intro _
    apply Runs.ite_bind
    · intro _
      exact Runs.bind_error Runs.raise
    intro _
    apply Runs.assoc
    apply token_cases hm
    · intro e htoken''
      simp only [htoken'']
    intro next o htoken'' _ ho
    simp only [htoken'']
    apply Runs.bind Runs.pure
    exact ihn _ _ ho (by omega) (by omega) (by omega)

theorem parse_runs (io : DoubleIo D) (s : List UInt8) (depth : Nat) : ParseRuns io s depth := by
  induction depth with
  | zero =>
    intro i fuel _ hdepth _
    omega
  | succ depth ih =>
    intro i fuel hi hdepth hfuel
    apply call_runs _ ((outcomes io s fuel).value i hi hfuel)
    obtain ⟨fuel, rfl⟩ : ∃ f, fuel = f + 1 := ⟨fuel - 1, by omega⟩
    rw [parseValue]
    apply token_cases hi
    · intro e htoken
      rw [htoken]
    intro ch j htoken hij hj
    have hpos : 0 < j := by omega
    have hback : j - 1 ≤ s.length := by omega
    simp only [htoken]
    apply Runs.ite
    · intro _
      exact Runs.bind (unread_runs hpos hj) (parseNull_runs hback)
    intro _
    apply Runs.ite
    · intro _
      exact Runs.bind (unread_runs hpos hj) (parseBool_runs hback)
    intro _
    apply Runs.ite
    · intro _
      exact Runs.bind (unread_runs hpos hj) (parseNumber_runs io hback)
    intro _
    apply Runs.ite
    · intro _
      apply string_cases hj
      · intro e hstring
        rw [hstring]
      intro out k hstring _ _
      rw [hstring]
      exact Runs.pure
    intro _
    apply Runs.ite
    · intro _
      apply token_cases hj
      · intro e htoken'
        rw [htoken']
      intro ch' k htoken' hjk hk
      rw [htoken']
      apply Runs.ite
      · intro _
        exact Runs.pure
      intro _
      apply Runs.iterate
      exact arrayRounds_runs ih _ [] (by omega) hk (by omega) (by omega) (by omega)
    intro _
    apply Runs.ite
    · intro _
      apply token_cases hj
      · intro e htoken'
        rw [htoken']
      intro ch' k htoken' hjk hk
      rw [htoken']
      apply Runs.ite
      · intro _
        exact Runs.pure
      intro _
      apply Runs.iterate
      exact objectRounds_runs ih _ [] ch' hk (by omega) (by omega) (by omega)
    intro _
    exact Runs.raise

/-! ## The whole parser -/

theorem run_runs (io : DoubleIo D) (s : List UInt8) :
    Runs (Inside s) (parse io (s.length + 1)) s 0 (parseValue io s (2 * s.length + 1) 0) :=
  parse_runs io s (s.length + 1) 0 _ (Nat.zero_le _) (by omega) (by omega)

/-- The program returns and throws what `Json.parse` does. -/
theorem run_result (io : DoubleIo D) (s : List UInt8) : (run io s).result = Json.parse io s := by
  rw [Traced.result_eq, run, (run_runs io s).value, Json.parse]
  cases parseValue io s (2 * s.length + 1) 0 with
  | error e => rfl
  | ok p => rfl

/-- With more depth the parser does the same. -/
theorem parse_depth (io : DoubleIo D) (s : List UInt8) {depth : Nat} (h : s.length < depth) :
    (parse io depth s 0).value = (run io s).value := by
  have hdeep := parse_runs io s depth 0 (2 * s.length + 1) (Nat.zero_le _) (by omega) (by omega)
  exact hdeep.value.trans (run_runs io s).value.symm

/-- The parser ends on every text, with a value or a `std::logic_error`. It reads no character
behind the terminating zero, `m_idx` stays inside the text, and every call of `parse` that returns
has moved it on. -/
theorem parse_total (io : DoubleIo D) (s : List UInt8) :
    ((∃ v, (run io s).result = .ok v) ∨
      ∃ what, (run io s).result = .error (.logicError what)) ∧
    (∀ i, Touch.read i ∈ (run io s).touches → i ≤ s.length) ∧
    (∀ i, Touch.move i ∈ (run io s).touches → i ≤ s.length) ∧
    ∀ start stop, Touch.call start stop ∈ (run io s).touches → start < stop := by
  have hinside : ∀ t ∈ (run io s).touches, Inside s t := (run_runs io s).touches
  refine ⟨?_, fun i hi => hinside _ hi, fun i hi => hinside _ hi, fun start stop h => hinside _ h⟩
  have hfuel : Json.parse io s ≠ .error .outOfFuel := parse_ne_outOfFuel io s
  rw [← run_result io s] at hfuel
  cases hresult : (run io s).result with
  | ok v => exact Or.inl ⟨v, rfl⟩
  | error e =>
    cases e with
    | logicError what => exact Or.inr ⟨what, rfl⟩
    | outOfFuel => exact absurd hresult hfuel

end JsonParser

end Tubekit
