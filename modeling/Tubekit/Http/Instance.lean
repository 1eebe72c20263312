import Mathlib.Data.List.TakeWhile
import Tubekit.Http.Assertions
import Tubekit.Http.Recording

/-!
# `http_parser` is what the tasks take it for

`httpParser` is the parser of `Tubekit.Http.Execute` as an instance of the interface that the tasks
are modelled over. Its states are the parsers on which no assertion fails.

* `execute_eq`: with callbacks that answer `on_headers_complete` neither with `1` nor with `2`, a
  call does what the interface says: the callbacks are made in turn until one of them fails, and the
  outcome depends on the index of that one only.
* `httpParser_documented`: it does what is documented of it.

The tasks call `http_parser_execute` with what `recv` has read, if it has read anything, so that no
call is made for an empty piece.
-/

namespace Tubekit.HttpExecute

/-! ## One failing callback -/

/-- The callbacks of which that one fails which has the index `stop`. -/
def failingAt (stop : Option Nat) : Nat → ParserEvent → Int × Nat :=
  fun i _ => (if stop = some i then -1 else 0, i + 1)

theorem failingAt_self (i : Nat) (e : ParserEvent) : failingAt (some i) i e = (-1, i + 1) := by
  rw [failingAt, if_pos rfl]

theorem failingAt_ne {i j : Nat} (h : j ≠ i) (e : ParserEvent) :
    failingAt (some j) i e = (0, i + 1) := by
  rw [failingAt, if_neg fun heq => h (Option.some_inj.mp heq)]

theorem runCallbacks_cons {C : Type} (callback : C → ParserEvent → Int × C) (c : C) (e : ParserEvent)
    (events : List ParserEvent) (i : Nat) :
    runCallbacks callback c (e :: events) i =
      if (callback c e).1 = 0 then runCallbacks callback (callback c e).2 events (i + 1)
      else ((callback c e).2, some i) := rfl

/-- An answer that stops the parser does so at once, and it does not matter which. -/
theorem turn_failed {x : Point} {e : ParserEvent} {next : Int → Point}
    (h : turn x = .ask e next) {answer : Int} (hzero : answer ≠ 0)
    (hheaders : e = .headersComplete → answer ≠ 1 ∧ answer ≠ 2) :
    next answer = next (-1) ∧
      ∃ q unread, next answer = .ended (.returned q unread) ∧ q.httpErrno ≠ .ok := by
  cases x with
  | head p m rest => cases rest <;> cases h
  | label p m ch rest =>
    rw [turn] at h
    unfold Pass.turn at h
    split at h
    · cases h
    · rename_i p' m' e' control ch' rest' hpass
      cases h
      have hstop : ∀ a : Int, a ≠ 0 → (e = .headersComplete → a ≠ 1 ∧ a ≠ 2) →
          answered p' m' ch' rest' e control a = stop p' (cbErrno e) (control.unread rest') := by
        intro a ha hhead
        rw [answered, if_neg ha, if_neg fun hand => (hhead hand.1).2 hand.2,
          if_neg fun hand => (hhead hand.1).1 hand.2]
      rw [hstop answer hzero hheaders, hstop (-1) (by decide) fun _ => ⟨by decide, by decide⟩]
      exact ⟨rfl, _, _, rfl, cbErrno_ne e⟩
    · cases h
    · cases h
  | count n p m ch rest => cases h
  | flush left p m =>
    cases left with
    | nil => cases h
    | cons k left =>
      rw [turn] at h
      split at h
      · cases h
      · cases h
        dsimp only
        rw [if_neg hzero, if_neg (by decide)]
        exact ⟨rfl, _, _, rfl, cbErrno_ne _⟩
  | ended r => cases h

theorem run_ended {C : Type} (on : C → ParserEvent → Int × C) (c : C) (r : Result) :
    loop.run on c (.ended r) = (c, r) := Lib.Dialogue.run_done rfl c

theorem runCallbacks_bounds {C : Type} (callback : C → ParserEvent → Int × C)
    (events : List ParserEvent) (c : C) (i : Nat) :
    ∀ j, (runCallbacks callback c events i).2 = some j → i ≤ j ∧ j < i + events.length := by
  induction events generalizing c i with
  | nil =>
    intro j hj
    cases hj
  | cons e events ih =>
    intro j hj
    rw [runCallbacks_cons] at hj
    rw [List.length_cons]
    split at hj
    · obtain ⟨hle, hlt⟩ := ih _ _ j hj
      omega
    · cases hj
      omega

/-- The callbacks are made in turn until one fails. -/
theorem run_eq {C : Type} (callback : C → ParserEvent → Int × C)
    (hheaders : ∀ c, (callback c .headersComplete).1 ≠ 1 ∧ (callback c .headersComplete).1 ≠ 2)
    (x : Point) (c : C) (i : Nat) :
    loop.run callback c x =
      ((runCallbacks callback c (loop.asked 0 x) i).1,
        match (runCallbacks callback c (loop.asked 0 x) i).2 with
        | none => loop.result 0 x
        | some j => (loop.run (failingAt (some j)) i x).2) := by
  induction x using loop.induction generalizing c i with
  | pass x x' hturn ih =>
    rw [Lib.Dialogue.run_pass hturn, Lib.Dialogue.asked_pass hturn, Lib.Dialogue.result_pass hturn, ih]
    cases (runCallbacks callback c (loop.asked 0 x') i).2 with
    | none => rfl
    | some j =>
      dsimp only
      rw [Lib.Dialogue.run_pass hturn]
  | ask x e next hturn ih =>
    rw [Lib.Dialogue.run_ask hturn, Lib.Dialogue.asked_ask hturn, Lib.Dialogue.result_ask hturn,
      runCallbacks_cons]
    by_cases hzero : (callback c e).1 = 0
    · have hbounds := runCallbacks_bounds callback (loop.asked 0 (next 0)) (callback c e).2 (i + 1)
      rw [hzero, if_pos rfl, ih 0 (callback c e).2 (i + 1)]
      generalize runCallbacks callback (callback c e).2 (loop.asked 0 (next 0)) (i + 1) = out at hbounds
      obtain ⟨c', stop⟩ := out
      cases stop with
      | none => rfl
      | some j =>
        have hne : j ≠ i := Nat.ne_of_gt (hbounds j rfl).1
        dsimp only
        rw [Lib.Dialogue.run_ask hturn, failingAt_ne hne]
    · obtain ⟨hsame, q, unread, hended, -⟩ := turn_failed hturn hzero fun he => he ▸ hheaders c
      rw [if_neg hzero, hended, run_ended]
      dsimp only
      rw [Lib.Dialogue.run_ask hturn, failingAt_self, ← hsame, hended, run_ended]
  | done x r hturn =>
    rw [Lib.Dialogue.run_done hturn, Lib.Dialogue.asked_done hturn, Lib.Dialogue.result_done hturn]
    rfl

/-- Where a callback fails, the parser is in an error. -/
theorem run_failingAt (x : Point) (i k : Nat) (hk : k < (loop.asked 0 x).length) :
    ∃ q unread, (loop.run (failingAt (some (i + k))) i x).2 = .returned q unread ∧
      q.httpErrno ≠ .ok := by
  induction x using loop.induction generalizing i k with
  | pass x x' hturn ih =>
    rw [Lib.Dialogue.asked_pass hturn] at hk
    rw [Lib.Dialogue.run_pass hturn]
    exact ih i k hk
  | ask x e next hturn ih =>
    rw [Lib.Dialogue.asked_ask hturn, List.length_cons] at hk
    rw [Lib.Dialogue.run_ask hturn]
    cases k with
    | zero =>
      obtain ⟨-, q, unread, hended, herror⟩ := turn_failed hturn (show (-1 : Int) ≠ 0 by decide)
        fun _ => ⟨by decide, by decide⟩
      refine ⟨q, unread, ?_, herror⟩
      rw [Nat.add_zero, failingAt_self, hended, run_ended]
    | succ k =>
      have hne : i + (k + 1) ≠ i := by omega
      have hrest := ih 0 (i + 1) k (by omega)
      rw [show i + 1 + k = i + (k + 1) by omega] at hrest
      rwa [failingAt_ne hne]
  | done x r hturn =>
    rw [Lib.Dialogue.asked_done hturn] at hk
    cases hk

/-! ## The parser of the tasks -/

/-- The parsers on which no assertion fails. -/
abbrev GoodParser := { p : Parser // p.Good }

theorem execute_isSome {C : Type} (on : C → ParserEvent → Int × C) (p : GoodParser) (c : C)
    (data : Bytes) : (execute on p.1 c data).isSome := by
  obtain ⟨c', q, n, hexec, -⟩ := execute_good on p.2 c data
  rw [hexec]
  rfl

theorem execute_get_good {C : Type} (on : C → ParserEvent → Int × C) (p : GoodParser) (c : C)
    (data : Bytes) : ((execute on p.1 c data).get (execute_isSome on p c data)).2.1.Good := by
  obtain ⟨c', q, n, hexec, hq⟩ := execute_good on p.2 c data
  simp only [hexec, Option.get_some]
  exact hq

/-- `http_parser_execute` on such a parser. -/
def executeGood {C : Type} (on : C → ParserEvent → Int × C) (p : GoodParser) (c : C) (data : Bytes) :
    C × GoodParser × Nat :=
  let out := (execute on p.1 c data).get (execute_isSome on p c data)
  (out.1, ⟨out.2.1, execute_get_good on p c data⟩, out.2.2)

theorem execute_eq_good {C : Type} (on : C → ParserEvent → Int × C) (p : GoodParser) (c : C)
    (data : Bytes) : execute on p.1 c data = some ((executeGood on p c data).1,
      (executeGood on p c data).2.1.1, (executeGood on p c data).2.2) :=
  (Option.some_get _).symm

/-- What a call comes to is what it makes of the parser. -/
theorem executeGood_of {C : Type} {on : C → ParserEvent → Int × C} {p : GoodParser} {c c' : C}
    {data : Bytes} {q : Parser} {n : Nat} (h : execute on p.1 c data = some (c', q, n)) :
    (executeGood on p c data).1 = c' ∧ (executeGood on p c data).2.1.1 = q ∧
      (executeGood on p c data).2.2 = n := by
  rw [execute_eq_good, Option.some_inj, Prod.mk.injEq, Prod.mk.injEq] at h
  exact h

/-- A parser in an error. -/
def failed (p : Parser) : GoodParser :=
  ⟨{ p with httpErrno := .strict }, .inl fun hok => by cases hok⟩

/-- The callbacks of a call, where each of them returns `0`. -/
def calledBack (p : Parser) (data : Bytes) : List ParserEvent :=
  if p.httpErrno ≠ .ok then [] else loop.asked 0 (.head p (.start p.state) data)

def httpParser : HttpParser GoodParser where
  init := ⟨.init .request, init_good .request⟩
  events p data := if data = [] then [] else calledBack p.1 data
  after p data stop :=
    let outcome (p : GoodParser) (n : Nat) : Executed GoodParser :=
      { parser := p, nparsed := n, upgrade := p.1.upgrade }
    let out := executeGood (failingAt stop) p 0 data
    match stop with
    | none => if data = [] then outcome p 0 else outcome out.2.1 out.2.2
    | some i =>
      if data ≠ [] ∧ i < (calledBack p.1 data).length then outcome out.2.1 out.2.2
      -- there is no such callback
      else outcome (failed p.1) 0

theorem failingAt_none (x : Point) (i : Nat) :
    (loop.run (failingAt none) i x).2 = loop.result 0 x := by
  induction x using loop.induction generalizing i with
  | pass x x' hturn ih => rw [Lib.Dialogue.run_pass hturn, Lib.Dialogue.result_pass hturn, ih]
  | ask x e next hturn ih =>
    rw [Lib.Dialogue.run_ask hturn, Lib.Dialogue.result_ask hturn]
    exact ih 0 (i + 1)
  | done x r hturn => rw [Lib.Dialogue.run_done hturn, Lib.Dialogue.result_done hturn]

variable {C : Type}

/-- A call that is not empty, on a parser that is in no error. -/
theorem execute_run (on : C → ParserEvent → Int × C) {p : Parser} (hok : p.httpErrno = .ok) (c : C)
    {data : Bytes} (hdata : data ≠ []) :
    execute on p c data = outcome data.length (loop.run on c (.head p (.start p.state) data)) := by
  rw [execute, if_neg (not_not.mpr hok), if_neg hdata]

theorem execute_failed (on : C → ParserEvent → Int × C) {p : Parser} (herror : p.httpErrno ≠ .ok)
    (c : C) (data : Bytes) : execute on p c data = some (c, p, 0) := by
  rw [execute, if_pos herror]

/-- **A call does what the interface says**, if no callback answers `on_headers_complete` with `1` or
`2`. -/
theorem execute_eq (callback : C → ParserEvent → Int × C)
    (hheaders : ∀ c, (callback c .headersComplete).1 ≠ 1 ∧ (callback c .headersComplete).1 ≠ 2)
    (p : GoodParser) (c : C) {data : Bytes} (hdata : data ≠ []) :
    execute callback p.1 c data =
      some ((httpParser.execute callback p c data).1,
        (httpParser.execute callback p c data).2.parser.1,
        (httpParser.execute callback p c data).2.nparsed) := by
  by_cases hok : p.1.httpErrno = .ok
  · have hcalled : calledBack p.1 data = loop.asked 0 (.head p.1 (.start p.1.state) data) := by
      rw [calledBack, if_neg (not_not.mpr hok)]
    have hrun := run_eq callback hheaders (.head p.1 (.start p.1.state) data) c 0
    have hlast := runCallbacks_bounds callback (calledBack p.1 data) c 0
    have hafter : ∀ stop c', loop.run callback c (.head p.1 (.start p.1.state) data) =
        (c', (loop.run (failingAt stop) 0 (.head p.1 (.start p.1.state) data)).2) →
        execute callback p.1 c data = some (c', (executeGood (failingAt stop) p 0 data).2.1.1,
          (executeGood (failingAt stop) p 0 data).2.2) := by
      intro stop c' hsame
      have hgood := execute_eq_good (failingAt stop) p 0 data
      rw [execute_run _ hok _ hdata] at hgood ⊢
      rw [hsame]
      generalize loop.run (failingAt stop) 0 _ = out at hgood ⊢
      obtain ⟨i, r⟩ := out
      cases r with
      | returned q unread =>
        rw [outcome, Option.some_inj, Prod.mk.injEq] at hgood
        rw [outcome, hgood.2]
      | aborted => cases hgood
    rw [← hcalled] at hrun
    simp only [HttpParser.execute, httpParser, if_neg hdata]
    generalize runCallbacks callback c (calledBack p.1 data) 0 = out at hrun hlast ⊢
    obtain ⟨c', stop⟩ := out
    cases stop with
    | none =>
      apply hafter none c'
      rw [hrun, failingAt_none]
    | some j =>
      have hlt : j < (calledBack p.1 data).length := by
        have hbounds := hlast j rfl
        omega
      simp only [if_pos (And.intro hdata hlt)]
      exact hafter (some j) c' hrun
  · have hcalled : calledBack p.1 data = [] := if_pos hok
    obtain ⟨-, hparser, hn⟩ := executeGood_of (execute_failed (failingAt none) hok 0 data)
    simp only [HttpParser.execute, httpParser, if_neg hdata, hcalled, runCallbacks]
    rw [execute_failed _ hok, hparser, hn]

/-- Callbacks that are counted and all return `0`. -/
def counting (n : Nat) (_ : ParserEvent) : Int × Nat := (0, n + 1)

theorem execute_eq_get : execute counting httpParser.init.1 0 (chars "GET / HTTP/1.1\r\n\r\n") =
    some ((httpParser.execute counting httpParser.init 0 (chars "GET / HTTP/1.1\r\n\r\n")).1,
      (httpParser.execute counting httpParser.init 0
        (chars "GET / HTTP/1.1\r\n\r\n")).2.parser.1,
      (httpParser.execute counting httpParser.init 0
        (chars "GET / HTTP/1.1\r\n\r\n")).2.nparsed) := by
  have hzero : ∀ n : Nat, (counting n .headersComplete).1 ≠ 1 ∧ (counting n .headersComplete).1 ≠ 2 := by
    intro n
    constructor <;> intro h <;> cases h
  exact execute_eq counting hzero httpParser.init 0 (by decide)

/-! ## What is documented -/

theorem callbacks_failed {p : GoodParser} (herror : p.1.httpErrno ≠ .ok) (pieces : List Bytes) :
    httpParser.callbacks p pieces = [] := by
  induction pieces with
  | nil => rfl
  | cons data pieces ih =>
    have hevents : httpParser.events p data = [] := by
      simp only [httpParser, calledBack, if_pos herror, ite_self]
    have hafter : (httpParser.after p data none).parser = p := by
      obtain ⟨-, hparser, -⟩ := executeGood_of (execute_failed (failingAt none) herror 0 data)
      simp only [httpParser]
      split
      · rfl
      · exact Subtype.ext hparser
    rw [HttpParser.callbacks, hevents, hafter, ih, List.append_nil]

theorem httpParser_stops (p : GoodParser) (data : Bytes) (i : Nat) (pieces : List Bytes) :
    httpParser.callbacks (httpParser.after p data (some i)).parser pieces = [] := by
  apply callbacks_failed
  simp only [httpParser]
  split
  · rename_i hcall
    obtain ⟨hdata, hi⟩ := hcall
    by_cases hok : p.1.httpErrno = .ok
    · rw [calledBack, if_neg (not_not.mpr hok)] at hi
      obtain ⟨q, unread, hresult, herror⟩ := run_failingAt _ 0 i hi
      rw [Nat.zero_add] at hresult
      have hexec : execute (failingAt (some i)) p.1 0 data =
          some ((loop.run (failingAt (some i)) 0 (.head p.1 (.start p.1.state) data)).1, q,
            data.length - unread) := by
        rw [execute_run _ hok _ hdata]
        generalize loop.run (failingAt (some i)) 0 _ = out at hresult
        obtain ⟨c, r⟩ := out
        cases hresult
        rfl
      rw [(executeGood_of hexec).2.1]
      exact herror
    · rw [calledBack, if_pos hok] at hi
      cases hi
  · exact fun hok => by cases hok

/-- The states before the headers of a message are complete. -/
def State.early : State → Bool
  | .headersDone | .chunkSizeStart | .chunkSize | .chunkParameters | .chunkSizeAlmostDone
  | .chunkData | .chunkDataAlmostDone | .chunkDataDone | .bodyIdentity | .bodyIdentityEof
  | .messageDone => false
  | _ => true

/-- No message has had its headers complete. -/
def Parser.Early (p : Parser) : Prop := p.state.early = true ∧ p.flags.trailing = false

/-- A pass over the headers reports that they are complete, or is one of those before. -/
def Out.Early : Out → Prop
  | .go p _ call _ => call = some .headersComplete ∨ p.Early ∧ call ≠ some .messageComplete
  | .fail _ e => e ≠ .ok
  | .abort => True

variable {p : Parser} {m : Marks} {ch : Byte}

theorem valueFlags_trailing (p : Parser) : (valueFlags p).trailing = p.flags.trailing := by
  unfold valueFlags
  split <;> rfl

/-- The callbacks for marks are data callbacks. -/
theorem call_ne (m : Marks) (k : Mark) : m.call k ≠ some .messageComplete := by
  unfold Marks.call
  cases m k with
  | none => exact fun h => by cases h
  | some data => cases k <;> exact fun h => by cases h

theorem switch_early (h : p.Early) : (switch p m ch).Early := by
  obtain ⟨hstate, htrailing⟩ := h
  unfold switch
  cases hs : p.state <;> rw [hs] at hstate
  all_goals try (exact absurd hstate (by decide))
  all_goals grind [Out.Early, Parser.Early, State.early, constant, version, reqMethod, urlChar,
    urlCharOrEnd, valueStart, headersAlmostDone, Parser.reset, valueFlags_trailing, Flags.none,
    parseUrlChar, call_ne]

theorem fieldStep_frame {q : Parser} {c : Byte} (h : fieldStep p ch c = some q) :
    q.state = p.state ∧ q.flags = p.flags := by
  unfold fieldStep at h
  grind [matchNext]

theorem valueStep_frame {q : Parser} {s s' : HeaderState} (hs : p.state = .headerValue)
    (h : valueStep p s ch = .go q s') :
    q.state = .headerValue ∧ q.flags.trailing = p.flags.trailing := by
  unfold valueStep at h
  cases s <;> grind [matchValue, lengthStep, connectionStep]

theorem valueStep_fail {q : Parser} {s : HeaderState} {e : HttpErrno}
    (h : valueStep p s ch = .fail q e) : e ≠ .ok := by
  unfold valueStep at h
  cases s <;> grind [matchValue, lengthStep, connectionStep]

theorem fieldLoop_early (hs : p.state = .headerField) (h : p.flags.trailing = false) (n : Nat)
    (rest : Bytes) : (fieldLoop p m n ch rest).out.Early := by
  have hbody : ∀ q m n ch rest q', q.state = .headerField ∧ q.flags.trailing = false →
      fieldBody q m n ch rest = .inr q' → q'.state = .headerField ∧ q'.flags.trailing = false := by
    rintro q m n ch rest q' ⟨hstate, htrailing⟩ hbody
    simp only [fieldBody] at hbody
    grind [fieldStep_frame]
  refine scan_keeps (I := fun q _ _ => q.state = .headerField ∧ q.flags.trailing = false)
    (P := fun pass => pass.out.Early) ?_ ?_ ?_ ⟨hs, h⟩ n ch
  · intro q m n ch q' hq hnext
    obtain ⟨hstate, htrailing⟩ := hbody q m n ch [] q' hq hnext
    exact .inr ⟨⟨by rw [id, hstate]; rfl, htrailing⟩, fun hcall => by cases hcall⟩
  · rintro q m n ch rest pass ⟨hstate, htrailing⟩ hleft
    simp only [fieldBody] at hleft
    grind [Out.Early, Parser.Early, State.early, Parser.read, call_ne]
  · exact fun q m n ch ch' rest q' hq hnext => hbody q m n ch _ q' hq hnext

theorem valueLoop_early (hs : p.state = .headerValue) (h : p.flags.trailing = false) (n : Nat)
    (rest : Bytes) : (valueLoop p m n ch rest).out.Early := by
  have hbody : ∀ v m n ch rest v', v.parser.state = .headerValue ∧ v.parser.flags.trailing = false →
      valueBody v m n ch rest = .inr v' →
      v'.parser.state = .headerValue ∧ v'.parser.flags.trailing = false := by
    rintro v m n ch rest v' ⟨hstate, htrailing⟩ hbody
    simp only [valueBody] at hbody
    grind [valueStep_frame]
  refine scan_keeps (P := fun pass => pass.out.Early) (I := fun v _ _ =>
    v.parser.state = .headerValue ∧ v.parser.flags.trailing = false) ?_ ?_ ?_ ⟨hs, h⟩ n ch
  · intro v m n ch v' hv hnext
    obtain ⟨hstate, htrailing⟩ := hbody v m n ch [] v' hv hnext
    exact .inr ⟨⟨by dsimp only; rw [hstate]; rfl, htrailing⟩, fun hcall => by cases hcall⟩
  · rintro v m n ch rest pass ⟨hstate, htrailing⟩ hleft
    simp only [valueBody] at hleft
    grind [Out.Early, Parser.Early, State.early, Parser.read, call_ne, valueStep_fail]
  · exact fun v m n ch ch' rest v' hv hnext => hbody v m n ch _ v' hv hnext

theorem pass_early (h : p.Early) (rest : Bytes) : (pass p m ch rest).out.Early := by
  obtain ⟨hstate, htrailing⟩ := h
  unfold pass
  split
  · rename_i hs
    exact fieldLoop_early hs htrailing 0 rest
  · rename_i hs
    exact valueLoop_early hs htrailing 0 rest
  · rename_i hs
    rw [hs] at hstate
    cases hstate
  · rename_i hs
    rw [hs] at hstate
    cases hstate
  · rename_i hs
    rw [hs] at hstate
    cases hstate
  · exact switch_early ⟨hstate, htrailing⟩

/-- The point is before the end of the headers, or the parser is in an error. -/
def Point.Early : Point → Prop
  | .head p _ _ => p.Early
  | .label p _ _ _ => p.Early
  | .count _ p _ _ _ => p.Early
  | .flush _ p _ => p.Early
  | .ended (.returned p _) => p.Early ∨ p.httpErrno ≠ .ok
  | .ended .aborted => True

theorem countHeaderSize_early {n : Nat} {rest : Bytes} {next : Parser → Point}
    (hnext : (next (p.read n)).Early) : (countHeaderSize p n rest next).Early := by
  unfold countHeaderSize
  dsimp only
  split
  · exact .inr fun hok => by cases hok
  · exact hnext

theorem Control.point_early {rest : Bytes} (h : p.Early) (control : Control) :
    (control.point p m ch rest).Early := by
  cases control with
  | next => exact h
  | count n => exact h
  | reexecute => exact h
  | leave => exact .inl h

/-- One turn: the headers become complete, or it stays so and the message does not. -/
theorem turn_early {x : Point} (h : x.Early) :
    match turn x with
    | .pass x' => x'.Early
    | .ask e next => e = .headersComplete ∨ e ≠ .messageComplete ∧ (next 0).Early
    | .done r => (Point.ended r).Early := by
  cases x with
  | head p m rest =>
    cases rest with
    | nil =>
      rw [turn]
      dsimp only
      split
      · exact h
      · trivial
    | cons ch rest =>
      rw [turn]
      dsimp only
      split
      · exact countHeaderSize_early h
      · exact h
  | label p m ch rest =>
    have hpass : (pass p m ch rest).out.Early := pass_early h rest
    rw [turn]
    generalize pass p m ch rest = out at hpass
    obtain ⟨out, ch', rest'⟩ := out
    cases out with
    | go p' m' call control =>
      cases call with
      | none =>
        rcases hpass with hcall | ⟨hearly, -⟩
        · cases hcall
        · exact control.point_early hearly
      | some e =>
        rcases hpass with hcall | ⟨hearly, hne⟩
        · exact .inl (Option.some_inj.mp hcall)
        · refine .inr ⟨fun he => hne (congrArg some he), ?_⟩
          rw [answered, if_pos rfl]
          exact control.point_early hearly
    | fail p' e => exact .inr hpass
    | abort => trivial
  | count n p m ch rest => exact countHeaderSize_early h
  | flush left p m =>
    cases left with
    | nil => exact .inl h
    | cons k left =>
      rw [turn]
      have hcall := call_ne m k
      cases hk : m.call k with
      | none => exact h
      | some e =>
        rw [hk] at hcall
        exact .inr ⟨fun he => hcall (congrArg some he), h⟩
  | ended r => exact h

/-- The message is not complete before its headers, and where they do not become complete, it goes
on so. -/
theorem asked_early (x : Point) (h : x.Early) :
    .messageComplete ∉ (loop.asked 0 x).takeWhile (· ≠ .headersComplete) ∧
      (.headersComplete ∉ loop.asked 0 x → (Point.ended (loop.result 0 x)).Early) := by
  induction x using loop.induction with
  | pass x x' hturn ih =>
    have hnext := turn_early h
    rw [show turn x = .pass x' from hturn] at hnext
    rw [Lib.Dialogue.asked_pass hturn, Lib.Dialogue.result_pass hturn]
    exact ih hnext
  | ask x e next hturn ih =>
    have hnext := turn_early h
    rw [show turn x = .ask e next from hturn] at hnext
    rw [Lib.Dialogue.asked_ask hturn, Lib.Dialogue.result_ask hturn, List.takeWhile_cons,
      List.mem_cons]
    by_cases he : e = .headersComplete
    · simp [he]
    · obtain ⟨hne, hearly⟩ := hnext.resolve_left he
      obtain ⟨hbefore, hafter⟩ := ih 0 hearly
      rw [if_pos (decide_eq_true he), List.mem_cons, not_or]
      exact ⟨⟨hne.symm, hbefore⟩, fun hnot => hafter fun hmem => hnot (.inr hmem)⟩
  | done x r hturn =>
    have hnext := turn_early h
    rw [show turn x = .done r from hturn] at hnext
    rw [Lib.Dialogue.asked_done hturn, Lib.Dialogue.result_done hturn]
    refine ⟨?_, fun _ => hnext⟩
    rintro ⟨⟩

theorem events_eq {p : GoodParser} (hok : p.1.httpErrno = .ok) {data : Bytes} (hdata : data ≠ []) :
    httpParser.events p data = loop.asked 0 (.head p.1 (.start p.1.state) data) := by
  simp only [httpParser, if_neg hdata, calledBack, if_neg (not_not.mpr hok)]

/-- The parser behind a call whose callbacks all return `0`. -/
theorem after_none {p : GoodParser} (hok : p.1.httpErrno = .ok) {data : Bytes} (hdata : data ≠ []) :
    ∃ unread, loop.result 0 (.head p.1 (.start p.1.state) data) =
      .returned (httpParser.after p data none).parser.1 unread ∧
      (httpParser.after p data none).nparsed = data.length - unread := by
  have hgood := execute_eq_good (failingAt none) p 0 data
  rw [execute_run _ hok _ hdata] at hgood
  have hresult := failingAt_none (.head p.1 (.start p.1.state) data) 0
  have hafter : (httpParser.after p data none).parser = (executeGood (failingAt none) p 0 data).2.1 ∧
      (httpParser.after p data none).nparsed = (executeGood (failingAt none) p 0 data).2.2 := by
    simp only [httpParser, if_neg hdata]
    exact ⟨trivial, trivial⟩
  rw [hafter.1, hafter.2, ← hresult]
  generalize loop.run (failingAt none) 0 _ = out at hgood
  obtain ⟨i, r⟩ := out
  cases r with
  | returned q unread =>
    rw [outcome, Option.some_inj, Prod.mk.injEq, Prod.mk.injEq] at hgood
    exact ⟨unread, by rw [hgood.2.1], hgood.2.2.symm⟩
  | aborted => cases hgood

theorem httpParser_headersFirst (pieces : List Bytes) :
    .messageComplete ∉ (httpParser.callbacks httpParser.init pieces).takeWhile
      (· ≠ .headersComplete) := by
  have hall : ∀ p : GoodParser, p.1.Early ∨ p.1.httpErrno ≠ .ok →
      .messageComplete ∉ (httpParser.callbacks p pieces).takeWhile (· ≠ .headersComplete) := by
    induction pieces with
    | nil =>
      rintro p - ⟨⟩
    | cons data pieces ih =>
      intro p hp
      by_cases hok : p.1.httpErrno = .ok
      · have hearly := hp.resolve_right (not_not.mpr hok)
        rw [HttpParser.callbacks]
        by_cases hdata : data = []
        · rw [hdata]
          exact ih p hp
        · obtain ⟨unread, hresult, -⟩ := after_none hok hdata
          obtain ⟨hbefore, hafter⟩ := asked_early (.head p.1 (.start p.1.state) data) hearly
          rw [hresult] at hafter
          rw [events_eq hok hdata]
          by_cases hcomplete : .headersComplete ∈ loop.asked 0 (.head p.1 (.start p.1.state) data)
          · rwa [show List.takeWhile _ (_ ++ _) = _ from
              ParserEvent.before_append hcomplete _]
          · have hall : ∀ e ∈ loop.asked 0 (.head p.1 (.start p.1.state) data),
                decide (e ≠ .headersComplete) = true := by
              intro e he
              rw [decide_eq_true_eq]
              rintro rfl
              exact hcomplete he
            rw [List.takeWhile_append_of_pos hall, List.mem_append, not_or]
            rw [List.takeWhile_eq_self_iff.mpr hall] at hbefore
            exact ⟨hbefore, ih _ (hafter hcomplete)⟩
      · rw [callbacks_failed hok]
        rintro ⟨⟩
  exact hall httpParser.init (.inl ⟨rfl, rfl⟩)

/-- **`http_parser` does what is documented of it.** -/
theorem httpParser_documented : httpParser.Documented :=
  ⟨httpParser_stops, httpParser_headersFirst⟩

end Tubekit.HttpExecute
