import Tubekit.Http.Bytes

/-!
# A request in pieces

`Touch` is what a byte does to the marks, which depends on the parser and the byte and not on the
marks (`pass_made`). So to a `Reader`, who puts the data of callbacks that follow each other together,
a byte tells the same whatever is in the marks already (`bites_same`).

`httpParser_reports`: what a request reports does not depend on how it is cut into calls.
-/

namespace Tubekit.HttpExecute

/-! ## What a byte does to the marks -/

/-- What a pass does to the marks, and where it reads the byte into one. -/
inductive Touch
  | keep
  | stay (k : Mark)
  | set (k : Mark)
  | take (k : Mark)
  | close (k : Mark)
  | empty (k : Mark)
  | last (k : Mark)

namespace Touch

def marks : Touch → Marks → Marks
  | keep, m => m
  | stay _, m => m
  | set k, m => m.set k
  | take k, m => m.set k
  | close k, m => m.clear k
  | empty k, m => (m.set k).clear k
  | last k, m => (m.set k).clear k

/-- The callback, which is this one where it does not hand a mark over. -/
def call (call : Option ParserEvent) (ch : Byte) : Touch → Marks → Option ParserEvent
  | keep, _ => call
  | stay _, _ => none
  | set _, _ => none
  | take _, _ => none
  | close k, m => m.call k
  | empty k, m => (m.set k).call k
  | last k, m => ((m.set k).add [ch]).call k

/-- The mark of the state in which it is done. -/
def Fits (s : State) : Touch → Prop
  | keep | set _ | empty _ => s.mark = none
  | stay k => s.mark = some k ∧ k ≠ .body
  | take k | last k => s.mark = some k ∧ k = .body
  | close k => s.mark = some k

end Touch

def touch (p : Parser) (ch : Byte) : Touch :=
  match p.state with
  | .resStatusStart => .set .status
  | .resStatus => if ch = CR ∨ ch = LF then .close .status else .stay .status
  | .reqSpacesBeforeUrl => if ch = SP then .keep else .set .url
  | .reqSchema | .reqSchemaSlash | .reqSchemaSlashSlash | .reqServerStart => .stay .url
  | .reqServer | .reqServerWithAt | .reqPath | .reqQueryStringStart | .reqQueryString
  | .reqFragmentStart | .reqFragment =>
    if ch = SP ∨ ch = CR ∨ ch = LF then .close .url else .stay .url
  | .headerFieldStart => if ch = CR ∨ ch = LF then .keep else .set .headerField
  | .headerField => if ch = chr ':' then .close .headerField else .stay .headerField
  | .headerValueDiscardWs =>
    if ch = SP ∨ ch = HT ∨ ch = CR ∨ ch = LF then .keep else .set .headerValue
  | .headerValueStart => .set .headerValue
  | .headerValue => if ch = CR ∨ ch = LF then .close .headerValue else .stay .headerValue
  | .headerValueDiscardLws => if ch = SP ∨ ch = HT then .keep else .empty .headerValue
  | .chunkDataAlmostDone => .close .body
  | .bodyIdentity => if p.contentLength = 1 then .last .body else .take .body
  | .bodyIdentityEof | .chunkData => .take .body
  | _ => .keep

section Touch

variable {p q : Parser} {m m' : Marks} {ch : Byte} {call : Option ParserEvent} {control : Control}

/-- What a pass makes of the marks is this, whatever they are. -/
structure Touch.Made (t : Touch) (ch : Byte) (out : Marks → Out) : Prop where
  all : ∀ m q m' call control, out m = .go q m' call control →
    m' = t.marks m ∧ call = t.call call ch m ∧
      ∀ m₀, out m₀ = .go q (t.marks m₀) (t.call call ch m₀) control

namespace Touch

variable {t t' : Touch} {out out' : Marks → Out}

theorem call_call (t : Touch) (call : Option ParserEvent) (ch : Byte) (m m₀ : Marks) :
    t.call (t.call call ch m) ch m₀ = t.call call ch m₀ := by
  cases t <;> rfl

theorem made_go (t : Touch) (q : Parser) (call : Option ParserEvent) (control : Control) :
    t.Made ch fun m => .go q (t.marks m) (t.call call ch m) control := by
  constructor
  intro m q' m' call' control' h
  cases h
  refine ⟨rfl, (t.call_call call ch m m).symm, fun m₀ => ?_⟩
  rw [t.call_call]

theorem made_keep (q : Parser) (call : Option ParserEvent) (control : Control) :
    keep.Made ch fun m => .go q m call control := made_go keep q call control

theorem made_stay (k : Mark) (q : Parser) (control : Control) :
    (stay k).Made ch fun m => .go q m none control := made_go (stay k) q none control

theorem made_set (k : Mark) (q : Parser) (control : Control) :
    (set k).Made ch fun m => .go q (m.set k) none control := made_go (set k) q none control

theorem made_take (k : Mark) (q : Parser) (control : Control) :
    (take k).Made ch fun m => .go q (m.set k) none control := made_go (take k) q none control

theorem made_close (k : Mark) (q : Parser) (control : Control) :
    (close k).Made ch fun m => .go q (m.clear k) (m.call k) control := made_go (close k) q none control

theorem made_empty (k : Mark) (q : Parser) (control : Control) :
    (empty k).Made ch fun m => .go q ((m.set k).clear k) ((m.set k).call k) control :=
  made_go (empty k) q none control

theorem made_fail (t : Touch) (q : Parser) (e : HttpErrno) : t.Made ch fun _ => .fail q e := by
  constructor
  intro m q' m' call' control' h
  cases h

theorem made_abort (t : Touch) : t.Made ch fun _ => .abort := by
  constructor
  intro m q' m' call' control' h
  cases h

theorem made_ite {c : Prop} [Decidable c] (h : c → t.Made ch out) (h' : ¬c → t.Made ch out') :
    t.Made ch fun m => if c then out m else out' m := by
  by_cases hc : c
  · simp only [if_pos hc]
    exact h hc
  · simp only [if_neg hc]
    exact h' hc

theorem made_cases {c : Prop} [Decidable c] (h : c → t.Made ch out) (h' : ¬c → t'.Made ch out) :
    (if c then t else t').Made ch out := by
  by_cases hc : c
  · rw [if_pos hc]
    exact h hc
  · rw [if_neg hc]
    exact h' hc

end Touch

open Touch

theorem urlChar_made {t : Touch} {f : Marks → Marks}
    (h : ∀ q, t.Made ch fun m => .go q (f m) none .next) (p : Parser) :
    t.Made ch fun m => urlChar p (f m) ch := made_ite (fun _ => made_fail _ _ _) fun _ => h _

theorem constant_made (p : Parser) (c : Byte) (s : State) :
    keep.Made ch fun m => constant p m ch c s := by
  unfold constant
  repeat' first
    | exact made_fail _ _ _
    | exact made_keep _ _ _
    | apply made_ite <;> intro _

theorem version_made (p q : Parser) : keep.Made ch fun m => version p m ch q := by
  unfold version
  repeat' first
    | exact made_fail _ _ _
    | exact made_keep _ _ _
    | apply made_ite <;> intro _

theorem reqMethod_made (p : Parser) : keep.Made ch fun m => reqMethod p m ch := by
  unfold reqMethod
  generalize otherMethod p.method p.index ch = other
  cases other
  all_goals
    dsimp only
    repeat' first
      | exact made_fail _ _ _
      | exact made_keep _ _ _
      | apply made_ite <;> intro _

theorem valueStart_made (p : Parser) : (Touch.set .headerValue).Made ch fun m => valueStart p m ch := by
  unfold valueStart
  cases p.headerState
  all_goals
    dsimp only
    repeat' first
      | exact made_fail _ _ _
      | exact made_set _ _ _
      | apply made_ite <;> intro _

theorem headersAlmostDone_made (p : Parser) : keep.Made ch fun m => headersAlmostDone p m ch := by
  unfold headersAlmostDone
  repeat' first
    | exact made_fail _ _ _
    | exact made_keep _ _ _
    | apply made_ite <;> intro _

theorem headersDone_made (p : Parser) : keep.Made ch fun m => headersDone p m ch := by
  unfold headersDone messageComplete
  dsimp only
  repeat' first
    | exact made_fail _ _ _
    | exact made_keep _ _ _
    | apply made_ite <;> intro _

theorem switch_made (p : Parser) (ch : Byte) : (touch p ch).Made ch fun m => switch p m ch := by
  unfold switch touch
  cases p.state <;> dsimp only
  case startReq =>
    cases firstMethod ch
    all_goals
      dsimp only
      repeat' first
        | exact made_fail _ _ _
        | exact made_keep _ _ _
        | apply made_ite <;> intro _
  case chunkSizeStart | chunkSize =>
    cases unhex ch
    all_goals
      dsimp only
      repeat' first
        | exact made_fail _ _ _
        | exact made_abort _
        | exact made_keep _ _ _
        | apply made_ite <;> intro _
  all_goals
    repeat' first
      | exact made_fail _ _ _
      | exact made_abort _
      | exact made_keep _ _ _
      | exact made_stay _ _ _
      | exact made_set _ _ _
      | exact made_close _ _ _
      | exact made_empty _ _ _
      | exact constant_made _ _ _
      | exact version_made _ _
      | exact reqMethod_made _
      | exact valueStart_made _
      | exact headersAlmostDone_made _
      | exact headersDone_made _
      | exact urlChar_made (f := id) (made_stay _ · _) _
      | exact urlChar_made (f := (Marks.set · .url)) (made_set _ · _) _
      | (apply made_cases <;> intro _)
      | apply made_ite <;> intro _
      | contradiction
      | (exfalso; grind)

theorem touch_fits (p : Parser) (ch : Byte) : (touch p ch).Fits p.state := by
  unfold touch
  cases p.state <;> dsimp only <;> (try split) <;>
    first | rfl | exact ⟨rfl, Mark.noConfusion⟩ | exact ⟨rfl, rfl⟩

theorem field_made (hs : p.state = .headerField) (hread : p.nread ≤ maxHeaderSize) :
    (touch p ch).Made ch fun m => (pass p m ch []).out := by
  have hzero := Parser.read_zero hread
  simp only [touch, pass, hs, fieldLoop, scan, fieldBody, hzero, if_neg (Nat.not_lt.mpr hread)]
  by_cases htoken : token ch = 0
  · simp only [if_pos htoken]
    by_cases hcolon : ch = chr ':'
    · simp only [if_pos hcolon]
      exact made_close _ _ _
    · simp only [if_neg hcolon]
      exact made_fail _ _ _
  · have hcolon : ch ≠ chr ':' := by
      rintro rfl
      exact htoken rfl
    simp only [if_neg htoken, if_neg hcolon]
    cases fieldStep p ch (token ch) with
    | none => exact made_abort _
    | some q => exact made_stay _ _ _

theorem value_made (hs : p.state = .headerValue) (hread : p.nread ≤ maxHeaderSize) :
    (touch p ch).Made ch fun m => (pass p m ch []).out := by
  have hzero := Parser.read_zero hread
  simp only [touch, pass, hs, valueLoop, scan, valueBody, hzero, if_neg (Nat.not_lt.mpr hread),
    reduceCtorEq, if_false]
  by_cases hcr : ch = CR
  · simp only [hcr, true_or, if_true]
    exact made_close _ _ _
  · by_cases hlf : ch = LF
    · simp only [hlf, or_true, if_true, if_neg (show ¬LF = CR by decide)]
      exact made_close _ _ _
    · simp only [hcr, hlf, or_self, if_false]
      by_cases hallowed : (!p.lenientHttpHeaders && !isHeaderChar ch) = true
      · simp only [if_pos hallowed]
        exact made_fail _ _ _
      · simp only [if_neg hallowed]
        by_cases hgeneral : p.headerState = .general
        · simp only [if_pos hgeneral]
          exact made_stay _ _ _
        · simp only [if_neg hgeneral]
          cases valueStep p p.headerState ch with
          | go q s => exact made_stay _ _ _
          | fail q e => exact made_fail _ _ _
          | abort => exact made_abort _

/-- A byte of a body is taken, and it is the last one or not. -/
theorem takeBody_one (p : Parser) (m : Marks) (ch : Byte) (hzero : p.contentLength ≠ 0) :
    takeBody p m ch [] = ({ p with contentLength := p.contentLength - 1 }, m.set .body, ch, []) := by
  by_cases hone : p.contentLength = 1
  · rw [takeBody_last p m ch [] hone, hone]
  · exact takeBody_alone p m ch (by omega)

theorem pass_made (hread : p.nread ≤ maxHeaderSize) (ch : Byte) :
    (touch p ch).Made ch fun m => (pass p m ch []).out := by
  cases hs : p.state with
  | headerField => exact field_made hs hread
  | headerValue => exact value_made hs hread
  | bodyIdentity =>
    simp only [touch, pass, hs, bodyIdentity]
    by_cases hlength : p.contentLength = 0 ∨ p.contentLength = ullongMax
    · simp only [if_pos hlength]
      exact made_abort _
    · simp only [if_neg hlength, takeBody_one p _ ch (not_or.mp hlength).1]
      by_cases hone : p.contentLength = 1
      · simp only [hone, if_true]
        exact made_go (.last .body) _ none _
      · have hleft : ¬(p.contentLength - 1 = 0) := by omega
        simp only [if_neg hone, if_neg hleft]
        exact made_take _ _ _
  | bodyIdentityEof =>
    simp only [touch, pass, hs, bodyIdentityEof, List.dropLast_singleton, Marks.add_nil]
    exact made_take _ _ _
  | chunkData =>
    simp only [touch, pass, hs, chunkData]
    by_cases hasserted : (!p.flags.chunked || p.contentLength = 0 || p.contentLength = ullongMax) = true
    · simp only [if_pos hasserted]
      exact made_abort _
    · have hlength : p.contentLength ≠ 0 := by
        intro hzero
        simp [hzero] at hasserted
      simp only [if_neg hasserted, takeBody_one p _ ch hlength]
      split
      · exact made_take _ _ _
      · exact made_take _ _ _
  | _ =>
    have hmade := switch_made p ch
    simp only [pass, hs]
    exact hmade

end Touch

/-! ## Who reads the callbacks -/

/-- One who puts the data of callbacks that follow each other together, and to whom a body that is
empty says nothing. -/
structure Reader (σ : Type) where
  add : σ → ParserEvent → σ
  glue : ∀ s (k : Mark) xs ys, add (add s (k.event xs)) (k.event ys) = add s (k.event (xs ++ ys))
  body : ∀ s, add s (.body []) = s

namespace Reader

variable {σ : Type} (R : Reader σ)

/-- What is read with these callbacks. -/
def read (s : σ) (events : List ParserEvent) : σ := events.foldl R.add s

/-- And with the mark of the state as far as it goes. -/
def told (s : σ) (q : State) (m : Marks) : σ := R.read s (leftOver q m)

/-- What a byte tells. -/
def tell (t : Touch) (call : Option ParserEvent) (ch : Byte) (data : Bytes) (s : σ) : σ :=
  match t with
  | .keep => R.read s call.toList
  | .stay k | .set k | .take k => R.add s (k.event data)
  | .close _ => s
  | .empty k => R.add s (k.event [])
  | .last k => R.add s (k.event [ch])

variable {R} {s s' : σ} {q q' : State} {m : Marks} {ch : Byte} {call : Option ParserEvent} {k : Mark}

@[simp] theorem read_nil (s : σ) : R.read s [] = s := rfl

theorem read_append (s : σ) (es es' : List ParserEvent) :
    R.read s (es ++ es') = R.read (R.read s es) es' := List.foldl_append

theorem told_of_none (s : σ) (hq : q.mark = none) (m : Marks) : R.told s q m = s := by
  rw [told, leftOver_none hq, read_nil]

theorem told_of_mark_none (s : σ) (hq : q.mark = some k) (hm : m k = none) : R.told s q m = s := by
  rw [told, leftOver, hq, Option.bind_some, Marks.call, hm]
  rfl

theorem told_of_some (s : σ) (hq : q.mark = some k) {xs : Bytes} (hm : m k = some xs) :
    R.told s q m = R.add s (k.event xs) := by
  rw [told, leftOver, hq, Option.bind_some, Marks.call, hm]
  rfl

theorem told_none (s : σ) (q : State) : R.told s q .none = s := by
  cases hq : q.mark with
  | none => exact told_of_none s hq _
  | some k => exact told_of_mark_none s hq rfl

theorem add_stay (hm : Marked q m) (hq : q.mark = some k) (hk : k ≠ .body) (data : Bytes)
    (hm' : Marked q' (m.add data)) :
    R.told s q' (m.add data) = R.add (R.told s q m) (k.event data) := by
  obtain ⟨xs, hxs⟩ := Option.isSome_iff_exists.mp (hm.is k hq hk)
  have hadd : m.add data k = some (xs ++ data) := by rw [Marks.add, hxs, Option.map_some]
  rw [told_of_some s (hm'.only k (by rw [hadd]; rfl)) hadd, told_of_some s hq hxs, R.glue]

theorem add_set (hm : Marked q m) (hq : q.mark = none) (data : Bytes)
    (hm' : Marked q' ((m.set k).add data)) :
    R.told s q' ((m.set k).add data) = R.add (R.told s q m) (k.event data) := by
  have hadd : (m.set k).add data k = some data := by
    rw [Marks.add, Marks.set, Function.update_self, hm.isNone hq k]
    rfl
  rw [told_of_some s (hm'.only k (by rw [hadd]; rfl)) hadd, told_of_none s hq]

theorem add_take (hq : q.mark = some .body) (data : Bytes)
    (hm' : Marked q' ((m.set .body).add data)) :
    R.told s q' ((m.set .body).add data) = R.add (R.told s q m) (.body data) := by
  have hadd : (m.set .body).add data .body = some ((m .body).getD [] ++ data) := by
    rw [Marks.add, Marks.set, Function.update_self]
    rfl
  rw [told_of_some s (hm'.only .body (by rw [hadd]; rfl)) hadd]
  cases hbody : m .body with
  | none => rw [told_of_mark_none s hq hbody]; rfl
  | some xs =>
    rw [told_of_some s hq hbody]
    exact (R.glue s .body xs data).symm

theorem told_last (hq : q.mark = some .body) (xs : Bytes) :
    R.read s ((((m.set .body).add xs).call .body).toList) = R.add (R.told s q m) (.body xs) := by
  have hadd : (m.set .body).add xs .body = some ((m .body).getD [] ++ xs) := by
    rw [Marks.add, Marks.set, Function.update_self]
    rfl
  rw [Marks.call, hadd]
  cases hbody : m .body with
  | none => rw [told_of_mark_none s hq hbody]; rfl
  | some ys =>
    rw [told_of_some s hq hbody]
    exact (R.glue s .body ys xs).symm

theorem clear_add (hm : ∀ k', k' ≠ k → m k' = none) (data : Bytes) :
    (m.clear k).add data = .none := by
  funext k'
  by_cases hk : k' = k
  · rw [hk, Marks.add, Marks.clear, Function.update_self]
    rfl
  · rw [Marks.add, Marks.clear, Function.update_of_ne hk, hm k' hk]
    rfl

theorem set_others (hm : ∀ k', k' ≠ k → m k' = none) (k' : Mark) (hk : k' ≠ k) : m.set k k' = none := by
  rw [Marks.set, Function.update_of_ne hk, hm k' hk]

/-- What a byte tells depends on what was told only. -/
theorem told_touch {t : Touch} (hfits : t.Fits q) (hm : Marked q m) (data : Bytes)
    (hm' : Marked q' ((t.marks m).add data)) :
    R.told (R.read s (t.call call ch m).toList) q' ((t.marks m).add data) =
      R.tell t call ch data (R.told s q m) := by
  cases t with
  | keep =>
    have hnone : m.add data = .none := by
      rw [hm.eq_none hfits]
      rfl
    rw [told_of_none s hfits]
    change R.told _ q' (m.add data) = _
    rw [hnone, told_none]
    rfl
  | stay k => exact add_stay hm hfits.1 hfits.2 data hm'
  | set k => exact add_set hm hfits data hm'
  | take k =>
    obtain ⟨hq, rfl⟩ := hfits
    exact add_take hq data hm'
  | close k =>
    change R.told _ q' ((m.clear k).add data) = _
    rw [clear_add (hm.others hfits), told_none]
    change _ = R.told s q m
    rw [told, leftOver, show q.mark = some k from hfits]
    rfl
  | empty k =>
    have hset : (m.set k) k = some [] := by
      rw [Marks.set, Function.update_self, hm.isNone hfits k]
      rfl
    have hnone : ((m.set k).clear k).add data = .none :=
      clear_add (set_others fun k' _ => hm.isNone hfits k') data
    change R.told _ q' (((m.set k).clear k).add data) = _
    rw [hnone, told_none, told_of_none s hfits]
    change R.read s ((m.set k).call k).toList = R.add s (k.event [])
    rw [Marks.call, hset]
    rfl
  | last k =>
    obtain ⟨hq, rfl⟩ := hfits
    have hnone : ((m.set .body).clear .body).add data = .none :=
      clear_add (set_others (hm.others hq)) data
    change R.told _ q' (((m.set .body).clear .body).add data) = _
    rw [hnone, told_none]
    exact told_last hq [ch]

end Reader

/-! ## Marks that differ -/

/-- Where a call is left it is between two messages. -/
theorem switch_leave {p q : Parser} {m m' : Marks} {ch : Byte} {call : Option ParserEvent}
    (h : switch p m ch = .go q m' call .leave) : p.state = .headersDone ∨ p.state = .messageDone := by
  unfold switch at h
  cases hs : p.state <;> simp only [hs] at h
  all_goals grind [constant, version, reqMethod, urlChar, urlCharOrEnd, valueStart, headersAlmostDone,
    messageComplete, headersDone]

theorem pass_leave {p q : Parser} {m m' : Marks} {ch : Byte} {call : Option ParserEvent}
    (hread : p.nread ≤ maxHeaderSize)
    (h : (pass p m ch []).out = .go q m' call .leave) :
    p.state = .headersDone ∨ p.state = .messageDone := by
  cases hs : p.state with
  | headerField =>
    rcases pass_field hs hread h with ⟨-, -, -, -, -, hcontrol⟩ | ⟨-, -, -, -, hcontrol⟩ <;> cases hcontrol
  | headerValue =>
    rcases pass_value hs hread h with ⟨⟨-, hcontrol⟩ | ⟨-, hcontrol⟩, -⟩ | ⟨-, -, -, -, -, hcontrol, -⟩ <;>
      cases hcontrol
  | bodyIdentity =>
    simp only [pass, hs, bodyIdentity] at h
    grind
  | bodyIdentityEof =>
    simp only [pass, hs, bodyIdentityEof] at h
    cases h
  | chunkData =>
    simp only [pass, hs, chunkData] at h
    grind
  | _ =>
    simp only [pass, hs] at h
    have hleave := switch_leave h
    rwa [hs] at hleave

namespace Reader

variable {σ : Type} (R : Reader σ)

/-- What is read at a byte's end; where the call is left, no mark is. -/
def view (s : σ) (b : Bitten) : σ :=
  if b.left then R.read s b.events else R.told (R.read s b.events) b.parser.state b.marks

/-- The same but for the marks, for readers to whom the same was told. -/
structure Same (s s' : σ) (b b' : Bitten) : Prop where
  parser : b'.parser = b.parser
  left : b'.left = b.left
  view : R.view s b = R.view s' b'

variable {R} {s s' : σ} {p : Parser} {m m' : Marks} {ch : Byte} {b : Bitten}

theorem Same.behind {es es' : List ParserEvent} {b b' : Bitten}
    (h : R.Same (R.read s es) (R.read s' es') b b') : R.Same s s' (b.behind es) (b'.behind es') := by
  refine ⟨h.parser, h.left, ?_⟩
  have hview := h.view
  simp only [Reader.view, Bitten.behind_events, Bitten.behind_left, Bitten.behind_parser,
    Bitten.behind_marks, read_append] at hview ⊢
  exact hview

theorem settle_same {n : Nat} (h : Fine 1 p m) (h' : Fine 1 p m')
    (htold : R.told s p.state m = R.told s' p.state m') (hsettle : settle n p m ch = some b) :
    ∃ b', settle n p m' ch = some b' ∧ R.Same s s' b b' := by
  induction n using Nat.strong_induction_on generalizing p m m' s s' b with
  | h n ih =>
    obtain ⟨q, m₁, call, control, hout, hcontrol⟩ := settle_cases hsettle
    obtain ⟨rfl, hcall, hall⟩ := (pass_made h.nread ch).all m q m₁ call control hout
    have hout' := hall m'
    have hsound := pass_sound h.sound ch []
    have hsound' := pass_sound h'.sound ch []
    obtain ⟨hok, hle⟩ := pass_keeps hout h.nread
    rw [Pass.Sound, hout, pass_ch] at hsound
    rw [Pass.Sound, hout', pass_ch] at hsound'
    have hfits := touch_fits p ch
    have hstep : ∀ data, Marked q.state (((touch p ch).marks m).add data) →
        Marked q.state (((touch p ch).marks m').add data) →
        R.told (R.read s call.toList) q.state (((touch p ch).marks m).add data) =
          R.told (R.read s' ((touch p ch).call call ch m').toList) q.state
            (((touch p ch).marks m').add data) := by
      intro data hq hq'
      rw [told_touch (q := p.state) hfits h'.sound.marked data hq', ← htold,
        ← told_touch (q := p.state) hfits h.sound.marked data hq, ← hcall]
    rcases hcontrol with ⟨hnext, rfl⟩ | ⟨rfl, rfl⟩ | ⟨rfl, k, b₁, rfl, hagain, rfl⟩
    · refine ⟨⟨((touch p ch).call call ch m').toList, q, ((touch p ch).marks m').add [ch], false⟩, ?_,
        rfl, rfl, ?_⟩
      · unfold settle
        rw [hout']
        rcases hnext with rfl | ⟨k, rfl⟩ <;> rfl
      · apply hstep [ch]
        · rcases hnext with rfl | ⟨k, rfl⟩
          · exact hsound.marked
          · exact hsound.1.marked
        · rcases hnext with rfl | ⟨k, rfl⟩
          · exact hsound'.marked
          · exact hsound'.1.marked
    · refine ⟨⟨((touch p ch).call call ch m').toList, q, .start q.state, true⟩, ?_, rfl, rfl, ?_⟩
      · unfold settle
        rw [hout']
      · have hmark : touch p ch = .keep ∧ p.state.mark = none := by
          rcases pass_leave h.nread hout with hs | hs <;> rw [touch, hs] <;> exact ⟨rfl, rfl⟩
        rw [told_of_none s hmark.2, told_of_none s' hmark.2] at htold
        rw [htold, hmark.1]
        rfl
    · have hnil : ∀ m : Marks, m.add [] = m := Marks.add_nil
      have hsame := hstep []
      rw [hnil, hnil] at hsame
      obtain ⟨b₁', hagain', hsame'⟩ := ih k (Nat.lt_succ_self k) (b := b₁)
        ⟨hsound, hle, hok.trans h.ok⟩ ⟨hsound', hle, hok.trans h.ok⟩
        (hsame hsound.marked hsound'.marked) hagain
      refine ⟨b₁'.behind ((touch p ch).call call ch m').toList, ?_, hsame'.behind⟩
      unfold settle
      rw [hout', Option.map_eq_some_iff]
      exact ⟨b₁', hagain', rfl⟩

theorem bite_same (h : Fine 0 p m) (h' : Fine 0 p m')
    (htold : R.told s p.state m = R.told s' p.state m') (hbite : bite p m ch = some b) :
    ∃ b', bite p m' ch = some b' ∧ R.Same s s' b b' := by
  cases hs : p.state.parsingHeader with
  | true =>
    obtain ⟨hcounted, hsettle⟩ := bite_counted h hs hbite
    have hcounted' : Fine 1 (p.read 1) m' := by
      obtain ⟨hsound, hle, hok⟩ := hcounted
      exact ⟨{ hsound with marked := h'.sound.marked }, hle, hok⟩
    obtain ⟨b', hsettle', hsame⟩ := settle_same hcounted hcounted' htold hsettle
    refine ⟨b', ?_, hsame⟩
    rw [bite, if_pos hs, if_neg (Nat.not_lt.mpr hcounted.nread), hsettle']
  | false =>
    obtain ⟨hcounted, hsettle⟩ := bite_uncounted h hs hbite
    have hcounted' : Fine 1 p m' := by
      obtain ⟨hsound, hle, hok⟩ := hcounted
      exact ⟨{ hsound with marked := h'.sound.marked }, hle, hok⟩
    obtain ⟨b', hsettle', hsame⟩ := settle_same hcounted hcounted' htold hsettle
    refine ⟨b', ?_, hsame⟩
    rw [bite, hs, if_neg Bool.false_ne_true, hsettle']

theorem bites_same {xs : Bytes} (h : Fine 0 p m) (h' : Fine 0 p m')
    (htold : R.told s p.state m = R.told s' p.state m') (hbites : bites p m xs = some b) :
    ∃ b', bites p m' xs = some b' ∧ R.Same s s' b b' := by
  induction xs generalizing p m m' s s' b with
  | nil =>
    cases hbites
    exact ⟨_, rfl, rfl, rfl, htold⟩
  | cons ch xs ih =>
    obtain ⟨b₁, hbite, hbefore⟩ := bites_cons.mp hbites
    obtain ⟨b₁', hbite', hsame⟩ := bite_same h h' htold hbite
    obtain ⟨hparser, hleft, hview⟩ := hsame
    rcases hbefore with ⟨hgo, b₂, hbites₂, rfl⟩ | ⟨hgo, rfl, rfl⟩
    · have hgo' := hleft.trans hgo
      have hfine' := bite_fine h' hbite'
      simp only [Reader.view, hgo, hgo', hparser, Bool.false_eq_true, if_false] at hview
      rw [hparser] at hfine'
      obtain ⟨b₂', hbites₂', hsame₂⟩ := ih (bite_fine h hbite) hfine' hview hbites₂
      refine ⟨b₂'.behind b₁'.events, ?_, hsame₂.behind⟩
      refine bites_cons.mpr ⟨b₁', hbite', .inl ⟨hgo', b₂', ?_, rfl⟩⟩
      rwa [hparser]
    · refine ⟨b₁', ?_, hparser, hleft, hview⟩
      exact bites_cons.mpr ⟨b₁', hbite', .inr ⟨hleft.trans hgo, rfl, rfl⟩⟩

end Reader

/-! ## Pieces -/

theorem start_mark {q : State} {k : Mark} (hq : q.mark = some k) :
    Marks.start q k = if k = .body then none else some [] := by
  cases q <;> cases hq <;> rfl

theorem Fine.start {n : Nat} {p : Parser} {m : Marks} (h : Fine n p m) : Fine n p (.start p.state) := by
  obtain ⟨hsound, hle, hok⟩ := h
  exact ⟨{ hsound with marked := .start _ }, hle, hok⟩

theorem bites_append {p : Parser} {m : Marks} {xs ys : Bytes} {b : Bitten}
    (h : bites p m (xs ++ ys) = some b) : ∃ b₁, bites p m xs = some b₁ ∧ b₁.Before ys b := by
  induction xs generalizing p m b with
  | nil => exact ⟨_, rfl, .inl ⟨rfl, b, h, rfl⟩⟩
  | cons ch xs ih =>
    obtain ⟨b₁, hbite, hbefore⟩ := bites_cons.mp h
    rcases hbefore with ⟨hleft, b₂, hbites, rfl⟩ | ⟨hleft, hnil, rfl⟩
    · obtain ⟨b₃, hbites₃, hbefore₃⟩ := ih hbites
      refine ⟨b₃.behind b₁.events, bites_cons.mpr ⟨b₁, hbite, .inl ⟨hleft, b₃, hbites₃, rfl⟩⟩, ?_⟩
      rcases hbefore₃ with ⟨hleft₃, b₄, hbites₄, rfl⟩ | ⟨hleft₃, hnil, rfl⟩
      · refine .inl ⟨hleft₃, b₄, hbites₄, ?_⟩
        simp [Bitten.behind]
      · exact .inr ⟨hleft₃, hnil, rfl⟩
    · obtain ⟨rfl, rfl⟩ := List.append_eq_nil_iff.mp hnil
      exact ⟨b₁, bites_cons.mpr ⟨b₁, hbite, .inr ⟨hleft, rfl, rfl⟩⟩, .inr ⟨hleft, rfl, rfl⟩⟩

namespace Reader

variable {σ : Type} {R : Reader σ} {s s' : σ} {b : Bitten}

theorem told_start {q : State} {m : Marks} (h : Marked q m) :
    R.told (R.told s q m) q (.start q) = R.told s q m := by
  cases hq : q.mark with
  | none => exact told_of_none _ hq _
  | some k =>
    have hstart := start_mark hq
    by_cases hk : k = .body
    · rw [if_pos hk] at hstart
      exact told_of_mark_none _ hq hstart
    · rw [if_neg hk] at hstart
      obtain ⟨xs, hxs⟩ := Option.isSome_iff_exists.mp (h.is k hq hk)
      rw [told_of_some _ hq hstart, told_of_some s hq hxs, R.glue, List.append_nil]

theorem view_eq (hmark : b.parser.state.mark = none) : R.view s b = R.read s b.events := by
  rw [view, told_of_none _ hmark, ite_self]

/-- However the bytes are cut, the reader has read the same behind them. -/
theorem callbacks_read {pieces : List Bytes} {p : GoodParser} {m : Marks} {xs rest : Bytes}
    (hfine : Fine 0 p.1 m) (htold : R.told s p.1.state m = R.told s' p.1.state (.start p.1.state))
    (hbites : bites p.1 m xs = some b) (hmark : b.parser.state.mark = none)
    (hpieces : pieces.flatten = xs ++ rest) :
    ∃ more, R.read s' (httpParser.callbacks p pieces) = R.read (R.read s b.events) more := by
  have hstart := hfine.start
  induction pieces generalizing p m xs s s' b with
  | nil =>
    obtain ⟨rfl, -⟩ := List.append_eq_nil_iff.mp hpieces.symm
    cases hbites
    rw [told_of_none s hmark, told_of_none s' hmark] at htold
    exact ⟨[], htold.symm⟩
  | cons data pieces ih =>
    rw [HttpParser.callbacks]
    by_cases hdata : data = []
    · subst hdata
      exact ih hfine htold hbites hmark hpieces hstart
    · rw [List.flatten_cons] at hpieces
      have hend : ∀ ys, data = xs ++ ys →
          ∃ more, R.read s' (httpParser.events p data ++
            httpParser.callbacks (httpParser.after p data none).parser pieces) =
              R.read (R.read s b.events) more := by
        rintro ys rfl
        obtain ⟨b', hbites', hparser, -, hview⟩ := bites_same hfine hstart htold hbites
        have hmark' : b'.parser.state.mark = none := by rw [hparser, hmark]
        rw [view_eq hmark, view_eq hmark'] at hview
        refine ⟨loop.asked 0 (b'.point ys) ++
          httpParser.callbacks (httpParser.after p (xs ++ ys) none).parser pieces, ?_⟩
        rw [events_bites hstart hbites' hmark' hdata, List.append_assoc, read_append, hview]
      rcases List.append_eq_append_iff.mp hpieces with ⟨ys, rfl, hrest⟩ | ⟨ys, hys, -⟩
      · obtain ⟨b₁, hbites₁, hbefore⟩ := bites_append hbites
        rcases hbefore with ⟨hgo, b₂, hbites₂, rfl⟩ | ⟨-, rfl, -⟩
        · obtain ⟨b₁', hbites₁', hparser, hleft, hview⟩ := bites_same hfine hstart htold hbites₁
          have hafter := after_bites hstart hbites₁' (hleft.trans hgo)
          rw [view, view, hgo, hleft.trans hgo, if_neg Bool.false_ne_true, if_neg Bool.false_ne_true]
            at hview
          rw [events_piece hstart hbites₁' (hleft.trans hgo) hdata, read_append, read_append]
          change ∃ more, R.read (R.told (R.read s' b₁'.events) b₁'.parser.state b₁'.marks) _ = _
          rw [← hview, Bitten.behind_events, read_append]
          have hnext := hafter.trans hparser
          have hfine₁ := bites_fine hfine hbites₁
          refine ih (m := b₁.marks) ?_ ?_ ?_ hmark hrest ?_
          · rw [hnext]
            exact hfine₁
          · rw [hnext]
            exact (told_start hfine₁.sound.marked).symm
          · rw [hnext]
            exact hbites₂
          · rw [hnext]
            exact hfine₁.start
        · exact hend [] (by rw [List.append_nil, List.append_nil])
      · exact hend ys hys

end Reader

/-! ## A request in pieces -/

/-- The data of the callbacks up to now, put together; the latest header comes first. -/
structure Reading where
  url : Bytes
  last : LastHeader
  field : Bytes
  headers : List Header
  body : Bytes

namespace Reading

def add (r : Reading) : ParserEvent → Reading
  | .url data => { r with url := r.url ++ data }
  | .headerField data =>
    match r.last with
    | .field => { r with field := r.field ++ data }
    | _ => { r with field := data, last := .field }
  | .headerValue data =>
    match r.last, r.headers with
    | .value, (name, value) :: headers => { r with headers := (name, value ++ data) :: headers }
    | _, headers => { r with headers := (r.field, data) :: headers, last := .value }
  | .body data => { r with body := r.body ++ data }
  | _ => r

def of (f : Fragments) : Reading :=
  { url := f.url.flatten
    last := f.last
    field := f.fields.flatten
    headers := f.headers.map fun h => (h.1.flatten, h.2.flatten)
    body := f.body.flatten }

def request (r : Reading) : Request := { url := r.url, headers := r.headers.reverse, body := r.body }

theorem request_of (f : Fragments) : (of f).request = f.request := by
  simp only [request, of, Fragments.request, List.map_reverse]

theorem of_add (f : Fragments) (e : ParserEvent) : of (f.add e) = (of f).add e := by
  obtain ⟨url, last, fields, headers, body⟩ := f
  cases e with
  | headerField data => cases last <;> simp [of, add, Fragments.add, Fragments.addField]
  | headerValue data =>
    cases last <;> cases headers <;> simp [of, add, Fragments.add, Fragments.addValue]
  | _ => simp [of, add, Fragments.add]

theorem of_foldl (events : List ParserEvent) (f : Fragments) :
    of (events.foldl Fragments.add f) = events.foldl add (of f) := by
  induction events generalizing f with
  | nil => rfl
  | cons e events ih => rw [List.foldl_cons, List.foldl_cons, ih, of_add]

theorem glue (r : Reading) (k : Mark) (xs ys : Bytes) :
    (r.add (k.event xs)).add (k.event ys) = r.add (k.event (xs ++ ys)) := by
  obtain ⟨url, last, field, headers, body⟩ := r
  cases k with
  | headerField => cases last <;> simp [add, Mark.event]
  | headerValue => cases last <;> cases headers <;> simp [add, Mark.event]
  | _ => simp [add, Mark.event]

/-- The reader up to the callback `mark`, which has no data. -/
def upTo (mark : ParserEvent) (hmark : ∀ (k : Mark) xs, k.event xs ≠ mark) :
    Reader (Reading × Bool) where
  add := fun (r, found) e => if found then (r, true) else if e = mark then (r, true) else (r.add e, false)
  glue := by
    rintro ⟨r, found⟩ k xs ys
    cases found with
    | true => rfl
    | false => simp [hmark, glue]
  body := by
    rintro ⟨r, found⟩
    cases found with
    | true => rfl
    | false =>
      have hbody : ParserEvent.body [] ≠ mark := hmark .body []
      simp [hbody, add]

variable {mark : ParserEvent} {hmark : ∀ (k : Mark) xs, k.event xs ≠ mark}

theorem read_found (r : Reading) (events : List ParserEvent) :
    (upTo mark hmark).read (r, true) events = (r, true) := by
  induction events with
  | nil => rfl
  | cons e events ih => exact ih

theorem read_upTo (r : Reading) (events : List ParserEvent) :
    (upTo mark hmark).read (r, false) events =
      ((mark.before events).foldl add r, decide (mark ∈ events)) := by
  induction events generalizing r with
  | nil => rfl
  | cons e events ih =>
    by_cases he : e = mark
    · have hadd : (upTo mark hmark).add (r, false) e = (r, true) := by simp [upTo, he]
      rw [Reader.read, List.foldl_cons, hadd]
      change (upTo mark hmark).read (r, true) events = _
      rw [read_found]
      simp [ParserEvent.before, he]
    · have hadd : (upTo mark hmark).add (r, false) e = (r.add e, false) := by simp [upTo, he]
      rw [Reader.read, List.foldl_cons, hadd]
      change (upTo mark hmark).read (r.add e, false) events = _
      rw [ih]
      simp [ParserEvent.before, he, Ne.symm he]

end Reading

/-- **What a request reports does not depend on how it is cut**: what comes of its bytes one after the
other comes of them in any pieces, whatever is behind them. -/
theorem httpParser_reports {mark : ParserEvent}
    (hmark : mark = .headersComplete ∨ mark = .messageComplete) {bytes : Bytes} {b : Bitten}
    (hbites : bites (.init .request) (.start .startReq) bytes = some b) (hmem : mark ∈ b.events)
    (hend : b.parser.state.mark = none) :
    httpParser.Reports mark bytes (Request.assemble (mark.before b.events)) := by
  intro pieces rest _ hpieces
  have hdata : ∀ (k : Mark) xs, k.event xs ≠ mark := by
    intro k xs
    rcases hmark with rfl | rfl <;> cases k <;> exact ParserEvent.noConfusion
  obtain ⟨more, hread⟩ := Reader.callbacks_read (R := Reading.upTo mark hdata)
    (s := (Reading.of .empty, false)) init_fine rfl hbites hend hpieces
  rw [Reading.read_upTo, Reading.read_upTo, decide_eq_true hmem, Reading.read_found,
    Prod.mk.injEq, decide_eq_true_eq] at hread
  refine ⟨hread.2, ?_⟩
  rw [Request.assemble, Request.assemble, Fragments.ofEvents, Fragments.ofEvents, ← Reading.request_of,
    ← Reading.request_of, Reading.of_foldl, Reading.of_foldl, hread.1]

theorem httpParser_reports_get :
    httpParser.Reports .messageComplete (chars "GET /a HTTP/1.1\r\nA: b\r\n\r\n")
      ⟨chars "/a", [(chars "A", chars "b")], []⟩ := by
  have hreports := httpParser_reports (.inr rfl) (show bites (.init .request) (.start .startReq)
    (chars "GET /a HTTP/1.1\r\nA: b\r\n\r\n") = some _ from rfl) (by decide) rfl
  exact hreports

end Tubekit.HttpExecute
