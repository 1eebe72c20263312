import Tubekit.Http.Instance

/-!
# One byte after the other

`bite` is what `http_parser` makes of one byte, without the loops inside its cases and with the marks
kept where the data end: the parser as a reader of a stream. `bites` reads several bytes so.

`bites_leads` is that a call does the same as long as no byte is an error, whatever comes behind the
bytes. The loops inside the cases, the window of `h_general` among them, bodies that are taken at
once, and `COUNT_HEADER_SIZE` for many bytes make no difference.

So the data can come in as many calls as they like, if they are cut where no mark is set: the
callbacks are those of one call (`httpParser_cut`).
-/

namespace Tubekit.HttpExecute

/-! ## One byte -/

/-- What becomes of a byte: the callbacks, the parser, its marks, and whether the call is left there
with `RETURN((p - data) + 1)`. The marks are those of the next call then. -/
structure Bitten where
  events : List ParserEvent
  parser : Parser
  marks : Marks
  left : Bool

def Bitten.behind (b : Bitten) (events : List ParserEvent) : Bitten :=
  { b with events := events ++ b.events }

/-- The passes for a byte behind which there is nothing, or `none` for an error. The first number is
how often the byte can still be looked at again. -/
def settle : Nat → Parser → Marks → Byte → Option Bitten
  | n, p, m, ch =>
    match (pass p m ch []).out, n with
    | .go p m call .next, _ => some ⟨call.toList, p, m.add [ch], false⟩
    -- nothing is counted behind the first byte
    | .go p m call (.count _), _ => some ⟨call.toList, p, m.add [ch], false⟩
    | .go p _ call .leave, _ => some ⟨call.toList, p, .start p.state, true⟩
    | .go p m call .reexecute, n + 1 => (settle n p m ch).map (·.behind call.toList)
    | _, _ => none

def bite (p : Parser) (m : Marks) (ch : Byte) : Option Bitten :=
  if p.state.parsingHeader then
    if (p.read 1).nread > maxHeaderSize then none else settle 3 (p.read 1) m ch
  else settle 3 p m ch

/-- The bytes up to the one where the call is left, which has to be the last. -/
def bites (p : Parser) (m : Marks) : Bytes → Option Bitten
  | [] => some ⟨[], p, m, false⟩
  | ch :: rest =>
    (bite p m ch).bind fun b =>
      if b.left then if rest = [] then some b else none
      else (bites b.parser b.marks rest).map (·.behind b.events)

/-- Where a byte leads. -/
def Bitten.point (b : Bitten) (rest : Bytes) : Point :=
  if b.left then .ended (.returned b.parser rest.length) else .head b.parser b.marks rest

section Bitten

variable {b b' : Bitten} {p q : Parser} {m : Marks} {ch : Byte} {rest xs : Bytes}

@[simp] theorem Bitten.behind_events (b : Bitten) (es : List ParserEvent) :
    (b.behind es).events = es ++ b.events := rfl

@[simp] theorem Bitten.behind_parser (b : Bitten) (es : List ParserEvent) :
    (b.behind es).parser = b.parser := rfl

@[simp] theorem Bitten.behind_marks (b : Bitten) (es : List ParserEvent) :
    (b.behind es).marks = b.marks := rfl

@[simp] theorem Bitten.behind_left (b : Bitten) (es : List ParserEvent) :
    (b.behind es).left = b.left := rfl

@[simp] theorem Bitten.behind_point (b : Bitten) (es : List ParserEvent) (rest : Bytes) :
    (b.behind es).point rest = b.point rest := rfl

theorem Bitten.point_of_left (h : b.left = false) (rest : Bytes) :
    b.point rest = .head b.parser b.marks rest := by
  rw [point, h]
  rfl

/-- What comes of a byte and of those behind it. -/
def Bitten.Before (b₁ : Bitten) (xs : Bytes) (b : Bitten) : Prop :=
  b₁.left = false ∧ (∃ b₂, bites b₁.parser b₁.marks xs = some b₂ ∧ b₂.behind b₁.events = b) ∨
    b₁.left = true ∧ xs = [] ∧ b₁ = b

theorem bites_cons : bites p m (ch :: xs) = some b ↔ ∃ b₁, bite p m ch = some b₁ ∧
    b₁.Before xs b := by
  rw [bites, Option.bind_eq_some_iff]
  apply exists_congr
  intro b₁
  apply and_congr_right
  intro _
  unfold Bitten.Before
  cases hleft : b₁.left with
  | false => simp [Option.map_eq_some_iff]
  | true =>
    by_cases hxs : xs = []
    · simp [hxs]
    · simp [hxs]

/-- What the passes for a byte come from. -/
theorem settle_cases {n : Nat} (h : settle n p m ch = some b) : ∃ q m' call control,
    (pass p m ch []).out = .go q m' call control ∧
      ((control = .next ∨ ∃ k, control = .count k) ∧ b = ⟨call.toList, q, m'.add [ch], false⟩ ∨
        control = .leave ∧ b = ⟨call.toList, q, .start q.state, true⟩ ∨
        control = .reexecute ∧ ∃ k b', n = k + 1 ∧ settle k q m' ch = some b' ∧
          b = b'.behind call.toList) := by
  unfold settle at h
  split at h
  · rename_i _ q m' call hout
    exact ⟨q, m', call, .next, hout, .inl ⟨.inl rfl, (Option.some_inj.mp h).symm⟩⟩
  · rename_i _ q m' call k hout
    exact ⟨q, m', call, .count k, hout, .inl ⟨.inr ⟨k, rfl⟩, (Option.some_inj.mp h).symm⟩⟩
  · rename_i _ q m' call hout
    exact ⟨q, m', call, .leave, hout, .inr (.inl ⟨rfl, (Option.some_inj.mp h).symm⟩)⟩
  · rename_i q m' call k hout
    obtain ⟨b', hsettle, hb⟩ := Option.map_eq_some_iff.mp h
    exact ⟨q, m', call, .reexecute, hout, .inr (.inr ⟨rfl, k, b', rfl, hsettle, hb.symm⟩)⟩
  · cases h

end Bitten

/-! ## Where it leads -/

/-- Where a pass leads to. -/
def Pass.Leads (pass : Pass) (es : List ParserEvent) (y : Point) : Prop :=
  ∀ x, loop.turn x = pass.turn → loop.Leads 0 x es y

section Leads

variable {b : Bitten} {p q : Parser} {m m' : Marks} {ch : Byte} {rest : Bytes}

theorem Pass.leads_go (p : Parser) (m : Marks) (call : Option ParserEvent) (control : Control)
    (ch : Byte) (rest : Bytes) :
    Pass.Leads ⟨.go p m call control, ch, rest⟩ call.toList (control.point p m ch rest) := by
  intro x hx
  cases call with
  | none => exact .pass hx (.refl _)
  | some e =>
    refine Lib.Dialogue.Leads.ask hx ?_
    rw [answered, if_pos rfl]
    exact .refl _

theorem Pass.Leads.trans {pass : Pass} {es es' : List ParserEvent} {y z : Point}
    (h : pass.Leads es y) (h' : loop.Leads 0 y es' z) : pass.Leads (es ++ es') z :=
  fun x hx => (h x hx).trans h'

theorem label_leads {es : List ParserEvent} {y : Point} (h : (pass p m ch rest).Leads es y) :
    loop.Leads 0 (.label p m ch rest) es y := h _ rfl

theorem leads_of_turn {x y : Point} (h : turn x = .pass y) : loop.Leads 0 x [] y :=
  .pass h (.refl y)

theorem head_leads (m : Marks) (ch : Byte) (rest : Bytes) (hp : p.state.parsingHeader = false) :
    loop.Leads 0 (.head p m (ch :: rest)) [] (.label p m ch rest) := by
  apply leads_of_turn
  rw [turn, hp, if_neg Bool.false_ne_true]

theorem head_leads_counted (m : Marks) (ch : Byte) (rest : Bytes)
    (hp : p.state.parsingHeader = true) (hread : (p.read 1).nread ≤ maxHeaderSize) :
    loop.Leads 0 (.head p m (ch :: rest)) [] (.label (p.read 1) m ch rest) := by
  apply leads_of_turn
  rw [turn, hp, if_pos rfl, countHeaderSize, if_neg (Nat.not_lt.mpr hread)]

theorem count_leads {n : Nat} (m : Marks) (ch : Byte) (rest : Bytes)
    (hread : (p.read n).nread ≤ maxHeaderSize) :
    loop.Leads 0 (.count n p m ch rest) [] (.head (p.read n) (m.add [ch]) rest) := by
  apply leads_of_turn
  rw [turn, countHeaderSize, if_neg (Nat.not_lt.mpr hread)]

theorem pass_of_not_many (m : Marks) (ch : Byte) (rest : Bytes) (hone : p.state.many = false) :
    pass p m ch rest = ⟨switch p m ch, ch, rest⟩ := by
  unfold pass
  split <;> first | rfl | (rename_i hs; rw [hs] at hone; cases hone)

/-- A byte that is looked at again is looked at alone. -/
theorem switch_control {call : Option ParserEvent} {control : Control}
    (h : switch p m ch = .go q m' call control) :
    (∀ k, control ≠ .count k) ∧ (control = .reexecute → q.state.many = false) := by
  unfold switch at h
  cases hs : p.state <;> simp only [hs] at h
  all_goals grind [constant, version, reqMethod, urlChar, urlCharOrEnd, valueStart, headersAlmostDone,
    messageComplete, headersDone, State.many]

theorem settle_leads {n : Nat} (hone : p.state.many = false) (h : settle n p m ch = some b)
    (rest : Bytes) : loop.Leads 0 (.label p m ch rest) b.events (b.point rest) := by
  induction n using Nat.strong_induction_on generalizing p m b with
  | h n ih =>
    obtain ⟨q, m', call, control, hout, hcontrol⟩ := settle_cases h
    rw [pass_of_not_many m ch [] hone] at hout
    obtain ⟨hcount, hagain⟩ := switch_control hout
    have hpass := pass_of_not_many m ch rest hone
    rw [show switch p m ch = _ from hout] at hpass
    have hgo := label_leads (hpass ▸ Pass.leads_go q m' call control ch rest)
    rcases hcontrol with ⟨rfl | ⟨k, rfl⟩, rfl⟩ | ⟨rfl, rfl⟩ | ⟨rfl, k, b', rfl, hsettle, rfl⟩
    · exact hgo
    · exact absurd rfl (hcount k)
    · exact hgo
    · exact hgo.trans (ih k (Nat.lt_succ_self k) (hagain rfl) hsettle)

end Leads

/-! ## A field -/

section Field

variable {b : Bitten} {p q : Parser} {m : Marks} {ch : Byte} {rest xs : Bytes}

theorem Parser.read_read (p : Parser) (n k : Nat) : (p.read n).read k = p.read (n + k) := by
  simp only [read, Nat.mod_add_mod, Nat.add_assoc]

theorem Parser.read_zero (h : p.nread ≤ maxHeaderSize) : p.read 0 = p := by
  have hlt : p.nread % 4294967296 = p.nread := Nat.mod_eq_of_lt (by
    simp only [maxHeaderSize] at h
    omega)
  rw [read, Nat.add_zero, hlt]

theorem matchNext_read (p : Parser) (n : Nat) (c : Byte) (text : Bytes) (next last : HeaderState) :
    matchNext (p.read n) c text next last = (matchNext p c text next last).read n := by
  simp only [matchNext]
  rw [apply_ite (Parser.read · n), apply_ite (Parser.read · n)]
  rfl

theorem fieldStep_read (p : Parser) (n : Nat) (ch c : Byte) :
    fieldStep (p.read n) ch c = (fieldStep p ch c).map (·.read n) := by
  unfold fieldStep
  rw [show (p.read n).headerState = p.headerState from rfl]
  cases p.headerState <;> simp only [matchNext_read, Option.map_some, Option.map_none] <;> try rfl
  case matchingTransferEncoding =>
    rw [Option.some_inj]
    rw [apply_ite (Parser.read · n)]
    rfl
  all_goals
    rw [Option.some_inj, apply_ite (Parser.read · n)]
    rfl

/-- What a loop that leaves its body leaves. -/
theorem scan_left {τ : Type} {body : τ → Marks → Nat → Byte → Bytes → Pass ⊕ τ} {parser : τ → Parser}
    {t : τ} {n : Nat} {pass : Pass} (h : body t m n ch rest = .inl pass) :
    scan body parser t m n ch rest = pass := by
  cases rest with
  | nil => rw [scan, h]
  | cons ch' rest => rw [scan, h]

theorem scan_right {τ : Type} {body : τ → Marks → Nat → Byte → Bytes → Pass ⊕ τ} {parser : τ → Parser}
    {t t' : τ} {n : Nat} {ch' : Byte} (h : body t m n ch (ch' :: rest) = .inr t') :
    scan body parser t m n ch (ch' :: rest) = scan body parser t' (m.add [ch]) (n + 1) ch' rest := by
  rw [scan, h]

end Field

/-! ## What holds between the bytes -/

/-- What holds at every byte; behind the test of the loop `counted` is `1`. -/
structure Fine (counted : Nat) (p : Parser) (m : Marks) : Prop where
  sound : Sound counted p m
  nread : p.nread ≤ maxHeaderSize
  ok : p.httpErrno = .ok

section Fine

variable {b : Bitten} {p q : Parser} {m m' : Marks} {ch : Byte} {rest xs : Bytes}

theorem switch_keeps {call : Option ParserEvent} {control : Control}
    (h : switch p m ch = .go q m' call control) :
    q.httpErrno = p.httpErrno ∧ q.nread ≤ p.nread := by
  unfold switch at h
  cases hs : p.state <;> simp only [hs] at h
  all_goals grind [constant, version, reqMethod, urlChar, urlCharOrEnd, valueStart, headersAlmostDone,
    messageComplete, headersDone, Parser.reset]

theorem fieldStep_keeps {c : Byte} (h : fieldStep p ch c = some q) :
    q.state = p.state ∧ q.httpErrno = p.httpErrno ∧ q.nread = p.nread := by
  unfold fieldStep at h
  grind [matchNext]

theorem valueStep_keeps {s s' : HeaderState} (hs : p.state = .headerValue)
    (h : valueStep p s ch = .go q s') :
    q.state = .headerValue ∧ q.httpErrno = p.httpErrno ∧ q.nread = p.nread := by
  unfold valueStep at h
  cases s <;> grind [matchValue, lengthStep, connectionStep]

/-- A byte of a field. -/
theorem pass_field {call : Option ParserEvent} {control : Control} (hs : p.state = .headerField)
    (hread : p.nread ≤ maxHeaderSize) (h : (pass p m ch []).out = .go q m' call control) :
    token ch = 0 ∧ ch = chr ':' ∧ q = { p with state := .headerValueDiscardWs } ∧
        m' = m.clear .headerField ∧ call = m.call .headerField ∧ control = .next ∨
      token ch ≠ 0 ∧ fieldStep p ch (token ch) = some q ∧ m' = m ∧ call = none ∧
        control = .count 0 := by
  have hzero := Parser.read_zero hread
  simp only [pass, hs, fieldLoop, scan, fieldBody, hzero, if_neg (Nat.not_lt.mpr hread)] at h
  by_cases htoken : token ch = 0
  · rw [if_pos htoken] at h
    by_cases hcolon : ch = chr ':'
    · rw [if_pos hcolon] at h
      cases h
      exact .inl ⟨htoken, hcolon, rfl, rfl, rfl, rfl⟩
    · rw [if_neg hcolon] at h
      cases h
  · rw [if_neg htoken] at h
    cases hstep : fieldStep p ch (token ch) with
    | none =>
      rw [hstep] at h
      cases h
    | some q' =>
      rw [hstep] at h
      cases h
      exact .inr ⟨htoken, rfl, rfl, rfl, rfl⟩

/-- A byte of a value. -/
theorem pass_value {call : Option ParserEvent} {control : Control} (hs : p.state = .headerValue)
    (hread : p.nread ≤ maxHeaderSize) (h : (pass p m ch []).out = .go q m' call control) :
    (ch = CR ∧ control = .count 0 ∨ ch = LF ∧ control = .reexecute) ∧
        q = { p with state := .headerAlmostDone } ∧ m' = m.clear .headerValue ∧
        call = m.call .headerValue ∨
      ch ≠ CR ∧ ch ≠ LF ∧ (p.lenientHttpHeaders || isHeaderChar ch) = true ∧ m' = m ∧ call = none ∧
        control = .count 0 ∧
        (p.headerState = .general ∧ q = p ∨ p.headerState ≠ .general ∧
          ∃ q' s, valueStep p p.headerState ch = .go q' s ∧ q = { q' with headerState := s }) := by
  have hzero := Parser.read_zero hread
  simp only [pass, hs, valueLoop, scan, valueBody, hzero, if_neg (Nat.not_lt.mpr hread), reduceCtorEq,
    if_false] at h
  by_cases hcr : ch = CR
  · rw [if_pos hcr] at h
    cases h
    exact .inl ⟨.inl ⟨hcr, rfl⟩, rfl, rfl, rfl⟩
  · rw [if_neg hcr] at h
    by_cases hlf : ch = LF
    · rw [if_pos hlf] at h
      cases h
      exact .inl ⟨.inr ⟨hlf, rfl⟩, rfl, rfl, rfl⟩
    · rw [if_neg hlf] at h
      by_cases hchar : (p.lenientHttpHeaders || isHeaderChar ch) = true
      · have hallowed : (!p.lenientHttpHeaders && !isHeaderChar ch) = false := by
          rw [← Bool.not_or, hchar]
          rfl
        rw [hallowed, if_neg Bool.false_ne_true] at h
        refine .inr ⟨hcr, hlf, hchar, ?_⟩
        by_cases hgeneral : p.headerState = .general
        · rw [if_pos hgeneral] at h
          cases h
          exact ⟨rfl, rfl, rfl, .inl ⟨hgeneral, rfl⟩⟩
        · rw [if_neg hgeneral] at h
          cases hstep : valueStep p p.headerState ch with
          | go q' s =>
            rw [hstep] at h
            cases h
            exact ⟨rfl, rfl, rfl, .inr ⟨hgeneral, q', s, rfl, rfl⟩⟩
          | fail q' e =>
            rw [hstep] at h
            cases h
          | abort =>
            rw [hstep] at h
            cases h
      · have hfails : (!p.lenientHttpHeaders && !isHeaderChar ch) = true := by
          rw [← Bool.not_or, Bool.not_eq_true _ |>.mp hchar]
          rfl
        rw [hfails, if_pos rfl] at h
        cases h

theorem pass_keeps {call : Option ParserEvent} {control : Control}
    (h : (pass p m ch []).out = .go q m' call control) (hread : p.nread ≤ maxHeaderSize) :
    q.httpErrno = p.httpErrno ∧ q.nread ≤ maxHeaderSize := by
  cases hmany : p.state.many with
  | false =>
    rw [pass_of_not_many m ch [] hmany] at h
    obtain ⟨hok, hle⟩ := switch_keeps h
    exact ⟨hok, Nat.le_trans hle hread⟩
  | true =>
    cases hs : p.state with
    | headerField =>
      rcases pass_field hs hread h with ⟨-, -, rfl, -⟩ | ⟨-, hstep, -⟩
      · exact ⟨rfl, hread⟩
      · obtain ⟨-, hok, hsame⟩ := fieldStep_keeps hstep
        exact ⟨hok, hsame ▸ hread⟩
    | headerValue =>
      rcases pass_value hs hread h with ⟨-, rfl, -⟩ | ⟨-, -, -, -, -, -, ⟨-, rfl⟩ | ⟨-, q', s, hstep, rfl⟩⟩
      · exact ⟨rfl, hread⟩
      · exact ⟨rfl, hread⟩
      · obtain ⟨-, hok, hsame⟩ := valueStep_keeps hs hstep
        exact ⟨hok, hsame.symm ▸ hread⟩
    | bodyIdentity =>
      simp only [pass, hs, bodyIdentity, takeBody] at h
      grind
    | bodyIdentityEof =>
      simp only [pass, hs, bodyIdentityEof] at h
      cases h
      exact ⟨rfl, hread⟩
    | chunkData =>
      simp only [pass, hs, chunkData, takeBody] at h
      grind
    | _ =>
      rw [hs] at hmany
      cases hmany

theorem pass_ch (p : Parser) (m : Marks) (ch : Byte) : (pass p m ch []).ch = ch := by
  unfold pass
  split
  · simp only [fieldLoop, scan, fieldBody]
    grind
  · simp only [valueLoop, scan, valueBody]
    grind
  · simp only [bodyIdentity, takeBody]
    grind
  · rfl
  · simp only [chunkData, takeBody]
    grind
  · rfl

theorem Fine.settle {n : Nat} (h : Fine 1 p m) (hsettle : settle n p m ch = some b) :
    Fine 0 b.parser b.marks := by
  induction n using Nat.strong_induction_on generalizing p m b with
  | h n ih =>
    obtain ⟨q, m', call, control, hout, hcontrol⟩ := settle_cases hsettle
    have hpass := pass_sound h.sound ch []
    obtain ⟨hsame, hle⟩ := pass_keeps hout h.nread
    have hok := hsame.trans h.ok
    rw [Pass.Sound, hout, pass_ch] at hpass
    rcases hcontrol with ⟨rfl | ⟨k, rfl⟩, rfl⟩ | ⟨rfl, rfl⟩ | ⟨rfl, k, b', rfl, hsettle', rfl⟩
    · exact ⟨hpass, hle, hok⟩
    · exact ⟨hpass.1, hle, hok⟩
    · exact ⟨hpass, hle, hok⟩
    · exact ih k (Nat.lt_succ_self k) (b := b') ⟨hpass, hle, hok⟩ hsettle'

theorem bite_counted (h : Fine 0 p m) (hs : p.state.parsingHeader = true)
    (hbite : bite p m ch = some b) :
    Fine 1 (p.read 1) m ∧ settle 3 (p.read 1) m ch = some b := by
  obtain ⟨hsound, hread, hok⟩ := h
  rw [bite, if_pos hs] at hbite
  obtain ⟨hle, hsettle⟩ := Option.ite_none_left_eq_some.mp hbite
  refine ⟨⟨⟨hsound.marked, hsound.length, hsound.field, hsound.value, hsound.chunked, hsound.size,
    hsound.data, hsound.almost, fun hstart => ?_⟩, Nat.not_lt.mp hle, hok⟩, hsettle⟩
  rw [Parser.read, hsound.start hstart]

theorem bite_uncounted (h : Fine 0 p m) (hs : p.state.parsingHeader = false)
    (hbite : bite p m ch = some b) : Fine 1 p m ∧ settle 3 p m ch = some b := by
  obtain ⟨hsound, hread, hok⟩ := h
  rw [bite, hs, if_neg Bool.false_ne_true] at hbite
  refine ⟨⟨⟨hsound.marked, hsound.length, hsound.field, hsound.value, hsound.chunked, hsound.size,
    hsound.data, hsound.almost, fun hstart => ?_⟩, hread, hok⟩, hbite⟩
  rw [hstart] at hs
  cases hs

theorem bite_fine (h : Fine 0 p m) (hbite : bite p m ch = some b) : Fine 0 b.parser b.marks := by
  cases hs : p.state.parsingHeader with
  | true =>
    obtain ⟨hcounted, hsettle⟩ := bite_counted h hs hbite
    exact hcounted.settle hsettle
  | false =>
    obtain ⟨hcounted, hsettle⟩ := bite_uncounted h hs hbite
    exact hcounted.settle hsettle

end Fine

/-! ## Several bytes at once -/

/-- Of the bytes `zs` are left, and what comes of all of them is to come of these. -/
def Onto (leads : List ParserEvent → Point → Prop) (xs rest : Bytes) (b : Bitten) : Prop :=
  ∃ (b₁ : Bitten) (zs : Bytes), zs.length ≤ xs.length ∧ Fine 0 b₁.parser b₁.marks ∧ b₁.Before zs b ∧
    leads b₁.events (b₁.point (zs ++ rest))

section Several

variable {b b₁ : Bitten} {p q : Parser} {m m' : Marks} {ch : Byte} {rest xs : Bytes}

theorem Bitten.Before.nil {b₁ b : Bitten} (h : b₁.Before [] b) : b = b₁ := by
  rcases h with ⟨hleft, b₂, hb, rfl⟩ | ⟨-, -, rfl⟩
  · cases hb
    obtain ⟨es, p, m, left⟩ := b₁
    cases hleft
    simp [Bitten.behind]
  · rfl

theorem Bitten.Before.cons {p : Parser} {m : Marks} {b : Bitten} {ch : Byte} {xs : Bytes}
    (h : Bitten.Before ⟨[], p, m, false⟩ (ch :: xs) b) :
    ∃ b₁, bite p m ch = some b₁ ∧ b₁.Before xs b := by
  rcases h with ⟨-, b₂, hb, hb₂⟩ | ⟨hleft, -⟩
  · have hsame : b₂ = b := hb₂
    exact bites_cons.mp (hsame ▸ hb)
  · cases hleft

/-- A colon ends a field, in the loop as for a byte alone. -/
theorem field_colon {n : Nat} (hread : (q.read n).nread ≤ maxHeaderSize) (htoken : token (chr ':') = 0)
    (more : Bytes) : fieldLoop q m n (chr ':') more =
      ⟨.go { q.read n with state := .headerValueDiscardWs } (m.clear .headerField)
        (m.call .headerField) .next, chr ':', more⟩ := by
  apply scan_left
  simp only [fieldBody, htoken, if_true, if_neg (Nat.not_lt.mpr hread)]

/-- A byte that goes on with a field. -/
theorem field_next {n : Nat} {c : Byte} (htoken : token c ≠ 0) (hstep : fieldStep q c (token c) = some p)
    (more : Bytes) : fieldBody q m n c more = .inr p := by
  simp only [fieldBody, if_neg htoken, hstep]

/-- The loop over a field. -/
theorem field_onto {n : Nat} (hs : q.state = .headerField) (hcounted : Fine 1 (q.read n) m)
    (hsettle : settle 3 (q.read n) m ch = some b₁) (hbefore : b₁.Before xs b)
    (hrest : rest = [] ∨ b.parser.state ≠ .headerField) :
    Onto (fieldLoop q m n ch (xs ++ rest)).Leads xs rest b := by
  induction xs generalizing q m n ch b₁ with
  | nil =>
    have hfine := hcounted.settle hsettle
    refine ⟨b₁, [], Nat.le_refl 0, hfine, hbefore, ?_⟩
    obtain ⟨q', m', call, control, hout, hcontrol⟩ := settle_cases hsettle
    rcases pass_field (p := q.read n) hs hcounted.nread hout with
      ⟨htoken, rfl, rfl, rfl, rfl, rfl⟩ | ⟨htoken, hstep, rfl, rfl, rfl⟩
    · simp only [reduceCtorEq, true_or, false_and, or_false, true_and] at hcontrol
      rw [field_colon hcounted.nread htoken, hcontrol]
      exact Pass.leads_go _ _ _ _ _ _
    · simp only [reduceCtorEq, false_or, false_and, or_false] at hcontrol
      obtain ⟨-, rfl⟩ := hcontrol
      rw [fieldStep_read, Option.map_eq_some_iff] at hstep
      obtain ⟨q₁, hstep, rfl⟩ := hstep
      have hempty : rest = [] := by
        apply hrest.resolve_right
        rw [hbefore.nil, not_not]
        exact (fieldStep_keeps hstep).1.trans hs
      rw [hempty]
      have hscan : fieldLoop q m' n ch ([] ++ []) = ⟨.go q₁ m' none (.count n), ch, []⟩ := by
        rw [List.append_nil, fieldLoop, scan, field_next htoken hstep]
        rfl
      rw [hscan]
      exact (Pass.leads_go q₁ m' none (.count n) ch []).trans (count_leads m' ch [] hfine.nread)
  | cons ch' xs ih =>
    have hfine := hcounted.settle hsettle
    obtain ⟨q', m', call, control, hout, hcontrol⟩ := settle_cases hsettle
    rcases pass_field (p := q.read n) hs hcounted.nread hout with
      ⟨htoken, rfl, rfl, rfl, rfl, rfl⟩ | ⟨htoken, hstep, rfl, rfl, rfl⟩
    · simp only [reduceCtorEq, true_or, false_and, or_false, true_and] at hcontrol
      refine ⟨b₁, ch' :: xs, Nat.le_refl _, hfine, hbefore, ?_⟩
      rw [field_colon hcounted.nread htoken, hcontrol]
      exact Pass.leads_go _ _ _ _ _ _
    · simp only [reduceCtorEq, false_or, false_and, or_false] at hcontrol
      obtain ⟨-, rfl⟩ := hcontrol
      rw [fieldStep_read, Option.map_eq_some_iff] at hstep
      obtain ⟨q₁, hstep, rfl⟩ := hstep
      have hs₁ : q₁.state = .headerField := (fieldStep_keeps hstep).1.trans hs
      obtain ⟨b₂, hbite, hbefore₂⟩ := hbefore.cons
      have hheader : (q₁.read n).state.parsingHeader = true := by
        rw [show (q₁.read n).state = q₁.state from rfl, hs₁]
        rfl
      obtain ⟨hcounted₂, hsettle₂⟩ := bite_counted hfine hheader hbite
      rw [Parser.read_read] at hcounted₂ hsettle₂
      obtain ⟨b₃, zs, hlength, hfine₃, hbefore₃, hleads⟩ := ih hs₁ hcounted₂ hsettle₂ hbefore₂
      refine ⟨b₃, zs, Nat.le_succ_of_le hlength, hfine₃, hbefore₃, ?_⟩
      rw [fieldLoop, List.cons_append, scan_right (field_next htoken hstep (ch' :: (xs ++ rest)))]
      exact hleads

/-- The parser of the loop over a value, with what it has looked at counted. -/
def ValueLocals.at (v : ValueLocals) (n : Nat) : Parser := { v.parser.read n with headerState := v.h }

theorem valueStep_at {s s' : HeaderState} (h : valueStep { p.read n with headerState := s } s ch = .go q s') :
    ∃ q', valueStep p s ch = .go q' s' ∧
      { q with headerState := s' } = { q'.read n with headerState := s' } := by
  unfold valueStep at h ⊢
  cases s <;> grind [matchValue, lengthStep, connectionStep, Parser.read, Parser.nextIndex]

/-- What the window of `h_general` still has to look at is more than can be counted. -/
structure ValueLocals.Fits (v : ValueLocals) (n : Nat) : Prop where
  state : v.parser.state = .headerValue
  counted : v.parser.nread + n ≤ maxHeaderSize
  one : 1 ≤ v.parser.nread
  room : ∀ r, v.room = some r → v.h = .general ∧ maxHeaderSize ≤ r + n

theorem ValueLocals.Fits.room_ne {v : ValueLocals} {n : Nat} (h : v.Fits n) : v.room ≠ some 0 := by
  intro hroom
  have hle := (h.room 0 hroom).2
  have hone := h.one
  have hcounted := h.counted
  omega

/-- A byte that goes on with a value. -/
theorem value_next {v : ValueLocals} {n : Nat} (hfits : v.Fits n) (hcr : ch ≠ CR) (hlf : ch ≠ LF)
    (hchar : (v.parser.lenientHttpHeaders || isHeaderChar ch) = true)
    (hstep : v.h = .general ∧ q = v.at n ∨
      v.h ≠ .general ∧ ∃ q' s, valueStep (v.at n) v.h ch = .go q' s ∧ q = { q' with headerState := s }) :
    ∃ v', (∀ m more, valueBody v m n ch more = .inr v') ∧ v'.at n = q ∧
      v'.parser.state = .headerValue ∧ v'.parser.nread = v.parser.nread ∧
      ∀ r, v'.room = some r → v'.h = .general ∧ maxHeaderSize ≤ r + (n + 1) := by
  have hallowed : (!v.parser.lenientHttpHeaders && !isHeaderChar ch) = false := by
    rw [← Bool.not_or, hchar]
    rfl
  cases hroom : v.room with
  | some r =>
    obtain ⟨hgeneral, hle⟩ := hfits.room r hroom
    have hzero : r ≠ 0 := fun hzero => hfits.room_ne (hzero ▸ hroom)
    rcases hstep with ⟨-, rfl⟩ | ⟨hnot, -⟩
    · refine ⟨{ v with room := some (r - 1) }, ?_, rfl, hfits.state, rfl, ?_⟩
      · intro m more
        simp only [valueBody, hroom, Option.some_inj, if_neg hzero, if_neg hcr, if_neg hlf, hallowed,
          Bool.false_eq_true, if_false]
      · intro r' hr'
        cases hr'
        exact ⟨hgeneral, by omega⟩
    · exact absurd hgeneral hnot
  | none =>
    rcases hstep with ⟨hgeneral, rfl⟩ | ⟨hnot, q', s, hstep, rfl⟩
    · refine ⟨{ v with room := some (maxHeaderSize - 1) }, ?_, rfl, hfits.state, rfl, ?_⟩
      · intro m more
        simp only [valueBody, hroom, reduceCtorEq, if_neg hcr, if_neg hlf, hallowed, Bool.false_eq_true,
          if_false, if_pos hgeneral]
      · intro r' hr'
        cases hr'
        exact ⟨hgeneral, by omega⟩
    · obtain ⟨q₁, hstep₁, hsame⟩ := valueStep_at hstep
      obtain ⟨hstate, -, hread⟩ := valueStep_keeps hfits.state hstep₁
      refine ⟨{ parser := q₁, h := s, room := none }, ?_, hsame.symm, hstate, hread, ?_⟩
      · intro m more
        simp only [valueBody, hroom, reduceCtorEq, if_neg hcr, if_neg hlf, hallowed, Bool.false_eq_true,
          if_false, if_neg hnot, hstep₁]
      · intro r' hr'
        cases hr'

def scanValue (v : ValueLocals) : Marks → Nat → Byte → Bytes → Pass :=
  scan valueBody (fun v => { v.parser with headerState := v.h }) v

/-- The end of the line, in the loop as for the byte alone. -/
theorem value_ends {v : ValueLocals} {n : Nat} (hfits : v.Fits n) (hcounted : Fine 1 (v.at n) m)
    (hsettle : settle 3 (v.at n) m ch = some b₁) (hend : ch = CR ∨ ch = LF) (more : Bytes) :
    (scanValue v m n ch more).Leads b₁.events (b₁.point more) := by
  obtain ⟨q, m', call, control, hout, hcontrol⟩ := settle_cases hsettle
  rcases pass_value (p := v.at n) hfits.state hcounted.nread hout with
    ⟨hch, rfl, rfl, rfl⟩ | ⟨hcr, hlf, -⟩
  · rcases hch with ⟨rfl, rfl⟩ | ⟨rfl, rfl⟩
    · have hscan : scanValue v m n CR more =
          ⟨.go { v.parser with state := .headerAlmostDone, headerState := v.h } (m.clear .headerValue)
            (m.call .headerValue) (.count n), CR, more⟩ := by
        apply scan_left
        simp only [valueBody, if_neg hfits.room_ne, if_true]
      simp only [reduceCtorEq, false_or, false_and, or_false] at hcontrol
      obtain ⟨-, rfl⟩ := hcontrol
      rw [hscan]
      have hgo := (Pass.leads_go { v.parser with state := .headerAlmostDone, headerState := v.h }
        (m.clear .headerValue) (m.call .headerValue) (.count n) CR more).trans
        (count_leads (m.clear .headerValue) CR more hcounted.nread)
      rwa [List.append_nil] at hgo
    · have hscan : scanValue v m n LF more =
          ⟨.go { v.at n with state := .headerAlmostDone } (m.clear .headerValue)
            (m.call .headerValue) .reexecute, LF, more⟩ := by
        apply scan_left
        have hread : (v.parser.read n).nread ≤ maxHeaderSize := hcounted.nread
        simp only [valueBody, if_neg hfits.room_ne, if_neg (show LF ≠ CR by decide), if_true,
          if_neg (Nat.not_lt.mpr hread)]
        rfl
      simp only [reduceCtorEq, false_or, false_and, true_and, exists_false] at hcontrol
      obtain ⟨k, b', -, hsettle', rfl⟩ := hcontrol
      rw [hscan]
      exact (Pass.leads_go _ _ _ _ _ _).trans (settle_leads rfl hsettle' more)
  · exact absurd hend (not_or.mpr ⟨hcr, hlf⟩)

/-- Any other byte, in the loop as for the byte alone. -/
theorem value_goes_on {v : ValueLocals} {n : Nat} (hfits : v.Fits n) (hcounted : Fine 1 (v.at n) m)
    (hsettle : settle 3 (v.at n) m ch = some b₁) (hend : ¬(ch = CR ∨ ch = LF)) :
    ∃ v', (∀ m more, valueBody v m n ch more = .inr v') ∧ b₁ = ⟨[], v'.at n, m.add [ch], false⟩ ∧
      v'.parser.state = .headerValue ∧ v'.parser.nread = v.parser.nread ∧
      ∀ r, v'.room = some r → v'.h = .general ∧ maxHeaderSize ≤ r + (n + 1) := by
  obtain ⟨q, m', call, control, hout, hcontrol⟩ := settle_cases hsettle
  rcases pass_value (p := v.at n) hfits.state hcounted.nread hout with
    ⟨hch, -⟩ | ⟨hcr, hlf, hchar, rfl, rfl, rfl, hstep⟩
  · exact absurd (hch.imp And.left And.left) hend
  · obtain ⟨v', hbody, rfl, hstate, hread, hroom⟩ := value_next hfits hcr hlf hchar hstep
    simp only [reduceCtorEq, false_or, false_and, or_false] at hcontrol
    exact ⟨v', hbody, hcontrol.2, hstate, hread, hroom⟩

/-- The loop over a value. -/
theorem value_onto {v : ValueLocals} {n : Nat} (hfits : v.Fits n) (hcounted : Fine 1 (v.at n) m)
    (hsettle : settle 3 (v.at n) m ch = some b₁) (hbefore : b₁.Before xs b)
    (hrest : rest = [] ∨ b.parser.state ≠ .headerValue) :
    Onto (scanValue v m n ch (xs ++ rest)).Leads xs rest b := by
  induction xs generalizing v m n ch b₁ with
  | nil =>
    have hfine := hcounted.settle hsettle
    refine ⟨b₁, [], Nat.le_refl 0, hfine, hbefore, ?_⟩
    by_cases hend : ch = CR ∨ ch = LF
    · exact value_ends hfits hcounted hsettle hend rest
    · obtain ⟨v', hbody, rfl, hstate, -⟩ := value_goes_on hfits hcounted hsettle hend
      have hempty : rest = [] := by
        apply hrest.resolve_right
        rw [hbefore.nil, not_not]
        exact hstate
      have hscan : scanValue v m n ch ([] ++ []) =
          ⟨.go { v'.parser with headerState := v'.h } m none (.count n), ch, []⟩ := by
        rw [List.append_nil, scanValue, scan, hbody]
      rw [hempty, hscan]
      exact (Pass.leads_go { v'.parser with headerState := v'.h } m none (.count n) ch []).trans
        (count_leads m ch [] hfine.nread)
  | cons ch' xs ih =>
    have hfine := hcounted.settle hsettle
    by_cases hend : ch = CR ∨ ch = LF
    · exact ⟨b₁, ch' :: xs, Nat.le_refl _, hfine, hbefore, value_ends hfits hcounted hsettle hend _⟩
    · obtain ⟨v', hbody, rfl, hstate, hread, hroom⟩ := value_goes_on hfits hcounted hsettle hend
      obtain ⟨b₂, hbite, hbefore₂⟩ := hbefore.cons
      have hheader : (v'.at n).state.parsingHeader = true := by
        rw [show (v'.at n).state = v'.parser.state from rfl, hstate]
        rfl
      obtain ⟨hcounted₂, hsettle₂⟩ := bite_counted hfine hheader hbite
      have hat : (v'.at n).read 1 = v'.at (n + 1) := by
        simp only [ValueLocals.at, Parser.read, Nat.mod_add_mod, Nat.add_assoc]
      rw [hat] at hcounted₂ hsettle₂
      have hfits' : v'.Fits (n + 1) := by
        refine ⟨hstate, ?_, hread.symm ▸ hfits.one, hroom⟩
        have hle : (v'.parser.nread + (n + 1)) % 4294967296 ≤ maxHeaderSize := hcounted₂.nread
        have hcounted' := hfits.counted
        rw [hread] at hle ⊢
        simp only [maxHeaderSize] at hle hcounted' ⊢
        omega
      obtain ⟨b₃, zs, hlength, hfine₃, hbefore₃, hleads⟩ := ih hfits' hcounted₂ hsettle₂ hbefore₂
      refine ⟨b₃, zs, Nat.le_succ_of_le hlength, hfine₃, hbefore₃, ?_⟩
      rw [scanValue, List.cons_append, scan_right (hbody m (ch' :: (xs ++ rest)))]
      exact hleads

/-! ## Bodies -/

theorem Marks.add_add (m : Marks) (xs ys : Bytes) : (m.add xs).add ys = m.add (xs ++ ys) := by
  funext k
  cases hk : m k <;> simp [Marks.add, hk]

theorem Marks.add_nil (m : Marks) : m.add [] = m := by
  funext k
  cases hk : m k <;> simp [Marks.add, hk]

theorem Marks.set_set_add (m : Marks) (k : Mark) (xs : Bytes) :
    ((m.set k).add xs).set k = (m.set k).add xs := by
  funext k'
  by_cases hk : k' = k
  · subst hk
    simp [Marks.set, Marks.add]
  · simp [Marks.set, Marks.add, hk]

/-- What is read of a body is read byte by byte. -/
theorem takeBody_next (p : Parser) (m : Marks) (ch ch' : Byte) (more : Bytes)
    (hmore : 2 ≤ p.contentLength) :
    takeBody p m ch (ch' :: more) =
      takeBody { p with contentLength := p.contentLength - 1 } ((m.set .body).add [ch]) ch' more := by
  obtain ⟨t, ht⟩ : ∃ t, min (p.contentLength - 1) (more.length + 1) = t + 1 :=
    Nat.exists_eq_add_one_of_ne_zero (by omega)
  have hread : min p.contentLength ((ch' :: more).length + 1) = t + 2 := by
    rw [List.length_cons]
    omega
  have hget : (ch' :: more).getD t ch = (ch' :: more).getD t ch' := by
    have hlt : t < (ch' :: more).length := by
      rw [List.length_cons]
      omega
    rw [List.getD_eq_getElem?_getD, List.getD_eq_getElem?_getD, List.getElem?_eq_getElem hlt]
    rfl
  simp only [takeBody, hread, ht, Marks.set_set_add, Marks.add_add, Nat.add_sub_cancel,
    Nat.add_succ_sub_one, List.take_succ_cons, List.getD_cons_succ, List.drop_succ_cons,
    List.cons_append, List.nil_append, hget]
  have hleft : p.contentLength - (t + 2) = p.contentLength - 1 - (t + 1) := by omega
  rw [hleft]

/-- A byte of a body that is not its last. -/
theorem takeBody_alone (p : Parser) (m : Marks) (ch : Byte) (hmore : 2 ≤ p.contentLength) :
    takeBody p m ch [] = ({ p with contentLength := p.contentLength - 1 }, m.set .body, ch, []) := by
  have hread : min p.contentLength (([] : Bytes).length + 1) = 1 := by
    rw [List.length_nil]
    omega
  simp only [takeBody, hread, Marks.add_nil, Nat.sub_self, List.take_zero, List.getD_cons_zero,
    List.drop_succ_cons, List.drop_nil]

/-- The last byte of a body. -/
theorem takeBody_last (p : Parser) (m : Marks) (ch : Byte) (more : Bytes) (hone : p.contentLength = 1) :
    takeBody p m ch more = ({ p with contentLength := 0 }, m.set .body, ch, more) := by
  have hread : min p.contentLength (more.length + 1) = 1 := by omega
  have hleft : p.contentLength - 1 = 0 := by omega
  simp only [takeBody, hread, hleft, Marks.add_nil, Nat.sub_self, List.take_zero,
    List.getD_cons_zero, List.drop_succ_cons, List.drop_zero]

/-- A pass that comes to the same one byte further on. -/
theorem label_leads_head {ch' : Byte} {more : Bytes} (hs : q.state.parsingHeader = false)
    (hpass : pass p m ch (ch' :: more) = pass q m' ch' more) :
    loop.Leads 0 (.label p m ch (ch' :: more)) [] (.head q m' (ch' :: more)) := by
  have hhead := head_leads m' ch' more hs
  have hsame : loop.Leads 0 (.label p m ch (ch' :: more)) [] (.label q m' ch' more) := by
    apply Lib.Dialogue.Leads.of_turn_eq
    change (pass p m ch (ch' :: more)).turn = (pass q m' ch' more).turn
    rw [hpass]
  exact ⟨hsame.asked.trans hhead.asked.symm, hsame.result.trans hhead.result.symm⟩

/-- A byte that the loop inside a case reads with those behind it. -/
theorem taken_leads (q : Parser) (m' : Marks) (hs : q.state.parsingHeader = false)
    (halone : pass p m ch [] = ⟨.go q m' none .next, ch, []⟩)
    (hmore : ∀ ch' more, pass p m ch (ch' :: more) = pass q (m'.add [ch]) ch' more)
    (hsettle : settle 3 p m ch = some b₁) (more : Bytes) :
    loop.Leads 0 (.label p m ch more) b₁.events (b₁.point more) := by
  obtain ⟨q', m₁, call, control, hout, hcontrol⟩ := settle_cases hsettle
  rw [halone] at hout
  cases hout
  simp only [reduceCtorEq, true_or, true_and, false_and, or_false] at hcontrol
  rw [hcontrol]
  cases more with
  | nil => exact label_leads (halone ▸ Pass.leads_go q m' none .next ch [])
  | cons ch' more => exact label_leads_head hs (hmore ch' more)

theorem body_leads (hs : p.state = .bodyIdentity) (hcounted : Fine 1 p m)
    (hsettle : settle 3 p m ch = some b₁) (more : Bytes) :
    loop.Leads 0 (.label p m ch more) b₁.events (b₁.point more) := by
  have hlength := hcounted.sound.length
  have hzero := hcounted.sound.data (.inr hs)
  have hmax := hcounted.sound.size (.inr (.inr (.inr (.inr hs))))
  have hpass : ∀ m ch more, pass p m ch more = bodyIdentity p m ch more := by
    intro m ch more
    simp only [pass, hs]
  by_cases hone : p.contentLength = 1
  · obtain ⟨q, m', call, control, hout, hcontrol⟩ := settle_cases hsettle
    rw [hpass, bodyIdentity, if_neg (not_or.mpr ⟨hzero, hmax⟩), takeBody_last p m ch [] hone] at hout
    cases hout
    simp only [reduceCtorEq, false_or, false_and, true_and, exists_false] at hcontrol
    obtain ⟨k, b', -, hsettle', rfl⟩ := hcontrol
    have hall : pass p m ch more = ⟨.go { p with contentLength := 0, state := .messageDone }
        ((m.set .body).clear .body) (((m.set .body).add [ch]).call .body) .reexecute, ch, more⟩ := by
      rw [hpass, bodyIdentity, if_neg (not_or.mpr ⟨hzero, hmax⟩), takeBody_last p m ch more hone]
      rfl
    exact (label_leads (hall ▸ Pass.leads_go _ _ _ _ _ _)).trans (settle_leads rfl hsettle' more)
  · have htwo : 2 ≤ p.contentLength := by omega
    have hleft : ¬(p.contentLength - 1 = 0) := by omega
    have hnotmax : ¬(p.contentLength - 1 = 0 ∨ p.contentLength - 1 = ullongMax) := by omega
    refine taken_leads { p with contentLength := p.contentLength - 1 } (m.set .body) ?_ ?_ ?_ hsettle
      more
    · rw [show Parser.state _ = p.state from rfl, hs]
      rfl
    · rw [hpass, bodyIdentity, if_neg (not_or.mpr ⟨hzero, hmax⟩), takeBody_alone p m ch htwo]
      dsimp only
      rw [if_neg hleft]
    · intro ch' more
      rw [hpass, bodyIdentity, if_neg (not_or.mpr ⟨hzero, hmax⟩), takeBody_next p m ch ch' more htwo]
      simp only [pass, hs, bodyIdentity, if_neg hnotmax]

theorem chunk_leads (hs : p.state = .chunkData) (hcounted : Fine 1 p m)
    (hsettle : settle 3 p m ch = some b₁) (more : Bytes) :
    loop.Leads 0 (.label p m ch more) b₁.events (b₁.point more) := by
  have hlength := hcounted.sound.length
  have hzero := hcounted.sound.data (.inl hs)
  have hmax := hcounted.sound.size (.inr (.inr (.inr (.inl hs))))
  have hchunked := hcounted.sound.chunked (.inr (.inr (.inr (.inr (.inl hs)))))
  have hasserted : ¬(!p.flags.chunked || p.contentLength = 0 || p.contentLength = ullongMax) = true := by
    simp [hchunked, hzero, hmax]
  have hpass : ∀ m ch more, pass p m ch more = chunkData p m ch more := by
    intro m ch more
    simp only [pass, hs]
  by_cases hone : p.contentLength = 1
  · have hall : ∀ more, pass p m ch more =
        ⟨.go { p with contentLength := 0, state := .chunkDataAlmostDone } (m.set .body) none .next, ch,
          more⟩ := by
      intro more
      rw [hpass, chunkData, if_neg hasserted, takeBody_last p m ch more hone]
      rfl
    obtain ⟨q, m', call, control, hout, hcontrol⟩ := settle_cases hsettle
    rw [hall] at hout
    cases hout
    simp only [reduceCtorEq, true_or, true_and, false_and, or_false] at hcontrol
    rw [hcontrol]
    exact label_leads (hall more ▸ Pass.leads_go _ _ _ _ _ _)
  · have htwo : 2 ≤ p.contentLength := by omega
    have hleft : ¬(p.contentLength - 1 = 0) := by omega
    have hnotmax : ¬(p.contentLength - 1 = ullongMax) := by omega
    refine taken_leads { p with contentLength := p.contentLength - 1 } (m.set .body) ?_ ?_ ?_ hsettle
      more
    · rw [show Parser.state _ = p.state from rfl, hs]
      rfl
    · rw [hpass, chunkData, if_neg hasserted, takeBody_alone p m ch htwo]
      dsimp only
      rw [if_neg hleft]
    · intro ch' more
      rw [hpass, chunkData, if_neg hasserted, takeBody_next p m ch ch' more htwo]
      have hagain : ¬(!p.flags.chunked || p.contentLength - 1 = 0 || p.contentLength - 1 = ullongMax) =
          true := by simp [hchunked, hleft, hnotmax]
      simp only [pass, hs, chunkData, if_neg hagain]

theorem eof_leads (hs : p.state = .bodyIdentityEof) (hsettle : settle 3 p m ch = some b₁)
    (more : Bytes) : loop.Leads 0 (.label p m ch more) b₁.events (b₁.point more) := by
  refine taken_leads p (m.set .body) ?_ ?_ ?_ hsettle more
  · rw [hs]
    rfl
  · simp only [pass, hs, bodyIdentityEof, List.dropLast_singleton, Marks.add_nil]
    rfl
  · intro ch' more
    simp only [pass, hs, bodyIdentityEof, Marks.set_set_add, Marks.add_add, List.dropLast_cons_cons,
      List.singleton_append]
    rfl

/-! ## The bytes at once -/

theorem Onto.imp {leads leads' : List ParserEvent → Point → Prop} (h : Onto leads xs rest b)
    (hleads : ∀ es y, leads es y → leads' es y) : Onto leads' xs rest b := by
  obtain ⟨b₁, zs, hlength, hfine, hbefore, hle⟩ := h
  exact ⟨b₁, zs, hlength, hfine, hbefore, hleads _ _ hle⟩

theorem label_onto (hcounted : Fine 1 p m) (hone : p.state = .headerValue → 1 ≤ p.nread)
    (hsettle : settle 3 p m ch = some b₁) (hbefore : b₁.Before xs b)
    (hrest : rest = [] ∨ b.parser.state ≠ .headerField ∧ b.parser.state ≠ .headerValue) :
    Onto (loop.Leads 0 (.label p m ch (xs ++ rest))) xs rest b := by
  have hzero : p.read 0 = p := Parser.read_zero hcounted.nread
  have hfine := hcounted.settle hsettle
  have hall : loop.Leads 0 (.label p m ch (xs ++ rest)) b₁.events (b₁.point (xs ++ rest)) →
      Onto (loop.Leads 0 (.label p m ch (xs ++ rest))) xs rest b :=
    fun hleads => ⟨b₁, xs, Nat.le_refl _, hfine, hbefore, hleads⟩
  cases hs : p.state with
  | headerField =>
    have honto : Onto (fieldLoop p m 0 ch (xs ++ rest)).Leads xs rest b := by
      apply field_onto hs _ _ hbefore (hrest.imp_right And.left)
      · rwa [hzero]
      · rwa [hzero]
    apply honto.imp
    intro es y hleads
    have hpass : pass p m ch (xs ++ rest) = fieldLoop p m 0 ch (xs ++ rest) := by
      simp only [pass, hs]
    exact label_leads (hpass ▸ hleads)
  | headerValue =>
    have hat : ValueLocals.at ⟨p, p.headerState, none⟩ 0 = p := by
      rw [ValueLocals.at, hzero]
    have hfits : ValueLocals.Fits ⟨p, p.headerState, none⟩ 0 :=
      ⟨hs, hcounted.nread, hone hs, fun r hr => by cases hr⟩
    have honto : Onto (scanValue ⟨p, p.headerState, none⟩ m 0 ch (xs ++ rest)).Leads xs rest b := by
      apply value_onto hfits _ _ hbefore (hrest.imp_right And.right)
      · rwa [hat]
      · rwa [hat]
    apply honto.imp
    intro es y hleads
    have hpass : pass p m ch (xs ++ rest) =
        scanValue ⟨p, p.headerState, none⟩ m 0 ch (xs ++ rest) := by
      simp only [pass, hs]
      rfl
    exact label_leads (hpass ▸ hleads)
  | bodyIdentity => exact hall (body_leads hs hcounted hsettle _)
  | bodyIdentityEof => exact hall (eof_leads hs hsettle _)
  | chunkData => exact hall (chunk_leads hs hcounted hsettle _)
  | _ => exact hall (settle_leads (by rw [hs]; rfl) hsettle _)

theorem head_onto (hfine : Fine 0 p m) (hbite : bite p m ch = some b₁) (hbefore : b₁.Before xs b)
    (hrest : rest = [] ∨ b.parser.state ≠ .headerField ∧ b.parser.state ≠ .headerValue) :
    Onto (loop.Leads 0 (.head p m (ch :: (xs ++ rest)))) xs rest b := by
  cases hs : p.state.parsingHeader with
  | true =>
    obtain ⟨hcounted, hsettle⟩ := bite_counted hfine hs hbite
    have hone : (p.read 1).nread = p.nread + 1 := by
      have hread := hfine.nread
      simp only [maxHeaderSize] at hread
      exact Nat.mod_eq_of_lt (by omega)
    apply (label_onto hcounted (fun _ => by omega) hsettle hbefore hrest).imp
    intro es y hleads
    exact (head_leads_counted m ch (xs ++ rest) hs hcounted.nread).trans hleads
  | false =>
    obtain ⟨hcounted, hsettle⟩ := bite_uncounted hfine hs hbite
    have hvalue : p.state ≠ .headerValue := by
      intro hstate
      rw [hstate] at hs
      cases hs
    apply (label_onto hcounted (fun hstate => absurd hstate hvalue) hsettle hbefore hrest).imp
    intro es y hleads
    exact (head_leads m ch (xs ++ rest) hs).trans hleads

/-- **A call does with the bytes what it does with one after the other**, if none of them is an error,
and behind them it is where the last one leads. What comes behind must not be in the middle of the
same field or value. -/
theorem bites_leads (hfine : Fine 0 p m) (hbites : bites p m xs = some b)
    (hrest : rest = [] ∨ b.parser.state ≠ .headerField ∧ b.parser.state ≠ .headerValue) :
    loop.Leads 0 (.head p m (xs ++ rest)) b.events (b.point rest) := by
  induction hn : xs.length using Nat.strong_induction_on generalizing p m xs b with
  | h n ih =>
    cases xs with
    | nil =>
      cases hbites
      exact .refl _
    | cons ch xs =>
      obtain ⟨b₁, hbite, hbefore⟩ := bites_cons.mp hbites
      obtain ⟨b₂, zs, hlength, hfine₂, hbefore₂, hleads⟩ := head_onto hfine hbite hbefore hrest
      rcases hbefore₂ with ⟨hleft, b₃, hbites₃, rfl⟩ | ⟨hleft, rfl, rfl⟩
      · have hlt : zs.length < n := by
          rw [← hn, List.length_cons]
          omega
        rw [Bitten.point_of_left hleft] at hleads
        exact hleads.trans (ih zs.length hlt hfine₂ hbites₃ hrest rfl)
      · rw [Bitten.point, hleft, if_pos rfl] at hleads ⊢
        exact hleads

/-- What holds at every byte holds behind them. -/
theorem bites_fine (hfine : Fine 0 p m) (hbites : bites p m xs = some b) : Fine 0 b.parser b.marks := by
  induction xs generalizing p m b with
  | nil =>
    cases hbites
    exact hfine
  | cons ch xs ih =>
    obtain ⟨b₁, hbite, hbefore⟩ := bites_cons.mp hbites
    rcases hbefore with ⟨-, b₂, hbites₂, rfl⟩ | ⟨-, -, rfl⟩
    · exact ih (b := b₂) (bite_fine hfine hbite) hbites₂
    · exact bite_fine hfine hbite

end Several

/-! ## A call that is cut -/

section Cut

variable {p : GoodParser} {b : Bitten} {m : Marks} {data : Bytes}

theorem Marked.eq_none {s : State} (h : Marked s m) (hs : s.mark = none) : m = .none :=
  funext (h.isNone hs)

/-- The marks of the next call, where no mark is set. -/
theorem Marked.eq_start {s : State} (h : Marked s m) (hs : s.mark = none) : m = .start s :=
  (h.eq_none hs).trans ((start s).eq_none hs).symm

theorem Marked.others {s : State} {k : Mark} (h : Marked s m) (hs : s.mark = some k) (k' : Mark)
    (hk : k' ≠ k) : m k' = none := by
  by_contra hsome
  have hmark := h.only k' (Option.isSome_iff_ne_none.mpr hsome)
  exact hk (Option.some_inj.mp (hmark.symm.trans hs))

theorem flush_leads (q : Parser) {left : List Mark} (hleft : left.Nodup) (m : Marks) :
    loop.Leads 0 (.flush left q m) (left.filterMap m.call) (.ended (.returned q 0)) := by
  induction left generalizing m with
  | nil => exact leads_of_turn rfl
  | cons k left ih =>
    obtain ⟨hk, hleft⟩ := List.nodup_cons.mp hleft
    cases hcall : m.call k with
    | none =>
      rw [List.filterMap_cons_none hcall]
      refine .pass ?_ (ih hleft m)
      change turn (.flush (k :: left) q m) = .pass (.flush left q m)
      rw [turn, hcall]
    | some e =>
      rw [List.filterMap_cons_some hcall]
      have hrest := ih hleft (m.clear k)
      have hsame : left.filterMap (m.clear k).call = left.filterMap m.call := by
        apply List.filterMap_congr
        intro k' hk'
        rw [Marks.call, Marks.clear, Function.update_of_ne (ne_of_mem_of_not_mem hk' hk), Marks.call]
      rw [hsame] at hrest
      have hturn : loop.turn (.flush (k :: left) q m) = .ask e fun answer =>
          if answer = 0 then .flush left q (m.clear k) else stop q (cbErrno e) 0 := by
        change turn (.flush (k :: left) q m) = _
        rw [turn, hcall]
      exact Lib.Dialogue.Leads.ask hturn hrest

/-- The callback for the mark that is left over. -/
def leftOver (q : State) (m : Marks) : List ParserEvent := (q.mark.bind m.call).toList

theorem leftOver_eq {q : State} (h : Marked q m) : Mark.all.filterMap m.call = leftOver q m := by
  rw [leftOver]
  cases hq : q.mark with
  | none =>
    rw [h.eq_none hq]
    rfl
  | some k =>
    have hothers := h.others hq
    cases k <;> simp [Mark.all, Marks.call, hothers, List.filterMap_cons]
    all_goals
      generalize Option.map _ _ = e
      cases e <;> rfl

theorem leftOver_none {q : State} (hq : q.mark = none) (m : Marks) : leftOver q m = [] := by
  rw [leftOver, hq]
  rfl

/-- Where the data end. -/
theorem end_leads {q : Parser} (h : Marked q.state m) :
    loop.Leads 0 (.head q m []) (leftOver q.state m) (.ended (.returned q 0)) := by
  refine .pass ?_ (leftOver_eq h ▸ flush_leads q (by decide) m)
  change turn (.head q m []) = .pass (.flush Mark.all q m)
  rw [turn, if_pos h.count_le]

/-- A call with the bytes and no more. -/
theorem piece_leads (hfine : Fine 0 p.1 (.start p.1.state))
    (hbites : bites p.1 (.start p.1.state) data = some b) (hleft : b.left = false) :
    loop.Leads 0 (.head p.1 (.start p.1.state) data) (b.events ++ leftOver b.parser.state b.marks)
      (.ended (.returned b.parser 0)) := by
  have hleads := (bites_leads hfine hbites (.inl rfl)).trans
    (Bitten.point_of_left hleft [] ▸ end_leads (bites_fine hfine hbites).sound.marked)
  rwa [List.append_nil] at hleads

/-- The parser between two calls. -/
theorem after_bites (hfine : Fine 0 p.1 (.start p.1.state))
    (hbites : bites p.1 (.start p.1.state) data = some b) (hleft : b.left = false) :
    (httpParser.after p data none).parser.1 = b.parser := by
  by_cases hdata : data = []
  · subst hdata
    cases hbites
    rfl
  · obtain ⟨unread, hresult, -⟩ := after_none hfine.ok hdata
    have hreturned := hresult.symm.trans
      ((piece_leads hfine hbites hleft).result.trans (Lib.Dialogue.result_done (D := loop) rfl))
    rw [Result.returned.injEq] at hreturned
    exact hreturned.1

theorem events_piece (hfine : Fine 0 p.1 (.start p.1.state))
    (hbites : bites p.1 (.start p.1.state) data = some b) (hleft : b.left = false) (hdata : data ≠ []) :
    httpParser.events p data = b.events ++ leftOver b.parser.state b.marks := by
  rw [events_eq hfine.ok hdata, (piece_leads hfine hbites hleft).asked,
    Lib.Dialogue.asked_done (D := loop) rfl, List.append_nil]

/-- Whatever comes behind the bytes. -/
theorem call_leads (hfine : Fine 0 p.1 (.start p.1.state))
    (hbites : bites p.1 (.start p.1.state) data = some b) (hmark : b.parser.state.mark = none)
    (rest : Bytes) :
    loop.Leads 0 (.head p.1 (.start p.1.state) (data ++ rest)) b.events (b.point rest) := by
  apply bites_leads hfine hbites
  right
  constructor <;> intro hstate <;> rw [hstate] at hmark <;> cases hmark

theorem events_bites (hfine : Fine 0 p.1 (.start p.1.state))
    (hbites : bites p.1 (.start p.1.state) data = some b) (hmark : b.parser.state.mark = none)
    {rest : Bytes} (hdata : data ++ rest ≠ []) :
    httpParser.events p (data ++ rest) = b.events ++ loop.asked 0 (b.point rest) := by
  rw [events_eq hfine.ok hdata, (call_leads hfine hbites hmark rest).asked]

/-- A call goes on as the next one does. -/
theorem events_append (hfine : Fine 0 p.1 (.start p.1.state))
    (hbites : bites p.1 (.start p.1.state) data = some b) (hleft : b.left = false)
    (hmark : b.parser.state.mark = none) (rest : Bytes) :
    httpParser.events p (data ++ rest) =
      httpParser.events p data ++ httpParser.events (httpParser.after p data none).parser rest := by
  have hafter := after_bites hfine hbites hleft
  have hfine' := bites_fine hfine hbites
  by_cases hdata : data = []
  · subst hdata
    rfl
  · by_cases hrest : rest = []
    · subst hrest
      rw [List.append_nil, show httpParser.events _ [] = [] from rfl, List.append_nil]
    · have hok : (httpParser.after p data none).parser.1.httpErrno = .ok := by
        rw [hafter]
        exact hfine'.ok
      rw [events_bites hfine hbites hmark (List.append_ne_nil_of_left_ne_nil hdata rest),
        events_piece hfine hbites hleft hdata, leftOver_none hmark, List.append_nil,
        events_eq hok hrest, hafter, Bitten.point_of_left hleft,
        hfine'.sound.marked.eq_start hmark]

/-- The pieces are cut where no mark is set; behind that no byte of them is an error, and no call is
left before its end. Of the last one nothing is said. -/
def CutBetween (p : Parser) : List Bytes → Prop
  | [] => True
  | [_] => True
  | data :: pieces => ∃ b, bites p (.start p.state) data = some b ∧ b.left = false ∧
      b.parser.state.mark = none ∧ CutBetween b.parser pieces

theorem callbacks_flatten {pieces : List Bytes} (hfine : Fine 0 p.1 (.start p.1.state))
    (hcut : CutBetween p.1 pieces) :
    httpParser.callbacks p pieces = httpParser.callbacks p [pieces.flatten] := by
  induction pieces generalizing p with
  | nil => rfl
  | cons data pieces ih =>
    cases pieces with
    | nil => rw [List.flatten_singleton]
    | cons data' pieces =>
      obtain ⟨b, hbites, hleft, hmark, hcut⟩ := hcut
      have hafter := after_bites hfine hbites hleft
      have hfine' := bites_fine hfine hbites
      rw [hfine'.sound.marked.eq_start hmark, ← hafter] at hfine'
      rw [← hafter] at hcut
      rw [HttpParser.callbacks, ih hfine' hcut]
      simp only [HttpParser.callbacks, List.append_nil, List.flatten_cons]
      rw [← List.flatten_cons]
      exact (events_append hfine hbites hleft hmark _).symm

theorem init_fine : Fine 0 httpParser.init.1 (.start .startReq) :=
  ⟨Sound.to (.start _) (Nat.zero_le _) rfl rfl, Nat.zero_le _, rfl⟩

/-- **Where the data of a connection are cut between its fields makes no difference.** -/
theorem httpParser_cut (pieces : List Bytes) (hcut : CutBetween (Parser.init .request) pieces) :
    httpParser.callbacks httpParser.init pieces =
      httpParser.callbacks httpParser.init [pieces.flatten] :=
  callbacks_flatten init_fine hcut

theorem httpParser_cut_get :
    httpParser.callbacks httpParser.init [chars "GET / HTTP/1.1\r\n", chars "A: b\r\n\r\n"] =
      httpParser.callbacks httpParser.init [chars "GET / HTTP/1.1\r\nA: b\r\n\r\n"] :=
  httpParser_cut [chars "GET / HTTP/1.1\r\n", chars "A: b\r\n\r\n"] ⟨_, rfl, rfl, rfl, trivial⟩

end Cut

end Tubekit.HttpExecute
