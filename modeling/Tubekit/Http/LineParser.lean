import Tubekit.Http.Recording

/-!
# A parser for requests without a body

`lineParser` reports requests that have no body as `http_parser` does: byte by byte, where the
pieces of an item that lie in one call are reported together, and the end of an item is
reported with what is left of it, which may be nothing.

A request that it reports when it gets it at once is reported in every other way of cutting it
(`lineParser_reports`).
-/

namespace Tubekit

open ParserEvent

/-! ## Reports that differ in the pieces -/

/-- The first list has some pieces of the second put together. -/
inductive Coarser : List ParserEvent → List ParserEvent → Prop
  | nil : Coarser [] []
  | cons (e : ParserEvent) {es es' : List ParserEvent} : Coarser es es' → Coarser (e :: es) (e :: es')
  | url (a : Bytes) {b : Bytes} {es es' : List ParserEvent} :
    Coarser (.url b :: es) es' → Coarser (.url (a ++ b) :: es) (.url a :: es')
  | headerField (a : Bytes) {b : Bytes} {es es' : List ParserEvent} :
    Coarser (.headerField b :: es) es' → Coarser (.headerField (a ++ b) :: es) (.headerField a :: es')
  | headerValue (a : Bytes) {b : Bytes} {es es' : List ParserEvent} :
    Coarser (.headerValue b :: es) es' → Coarser (.headerValue (a ++ b) :: es) (.headerValue a :: es')

namespace Coarser

variable {es es' xs xs' : List ParserEvent} {mark : ParserEvent}

theorem append (hx : Coarser xs xs') (h : Coarser es es') : Coarser (xs ++ es) (xs' ++ es') := by
  induction hx with
  | nil => exact h
  | cons e _ ih => exact .cons e ih
  | url a _ ih => exact .url a ih
  | headerField a _ ih => exact .headerField a ih
  | headerValue a _ ih => exact .headerValue a ih

/-- The callbacks that carry no data. -/
def Mark (e : ParserEvent) : Prop := e = .headersComplete ∨ e = .messageComplete

theorem mem_iff (h : Coarser es es') (hmark : Mark mark) : mark ∈ es ↔ mark ∈ es' := by
  induction h with
  | nil => rfl
  | cons e _ ih => simp only [List.mem_cons, ih]
  | _ =>
    rename_i ih
    rcases hmark with rfl | rfl <;> simpa using ih

theorem before (h : Coarser es es') (hmark : Mark mark) :
    Coarser (mark.before es) (mark.before es') := by
  induction h with
  | nil => exact .nil
  | cons e _ ih =>
    by_cases he : e = mark
    · simp only [ParserEvent.before, he, ne_eq, not_true, decide_false, List.takeWhile_cons]
      exact .nil
    · simp only [ParserEvent.before, List.takeWhile_cons, he, ne_eq, not_false_eq_true, decide_true,
        if_true]
      exact .cons e ih
  | url a _ ih => rcases hmark with rfl | rfl <;> exact .url a ih
  | headerField a _ ih => rcases hmark with rfl | rfl <;> exact .headerField a ih
  | headerValue a _ ih => rcases hmark with rfl | rfl <;> exact .headerValue a ih

end Coarser

namespace Fragments

/-- The pieces make up the same items. -/
structure Same (f f' : Fragments) : Prop where
  url : f.url.flatten = f'.url.flatten
  last : f.last = f'.last
  fields : f.fields.flatten = f'.fields.flatten
  headers : f.headers.map reportedHeader = f'.headers.map reportedHeader
  body : f.body.flatten = f'.body.flatten

theorem Same.refl (f : Fragments) : Same f f := ⟨rfl, rfl, rfl, rfl, rfl⟩

theorem Same.trans {f f' f'' : Fragments} (h : Same f f') (h' : Same f' f'') : Same f f'' :=
  ⟨h.url.trans h'.url, h.last.trans h'.last, h.fields.trans h'.fields, h.headers.trans h'.headers,
    h.body.trans h'.body⟩

theorem Same.addField {f f' : Fragments} (h : Same f f') (data : Bytes) :
    Same (f.addField data) (f'.addField data) := by
  obtain ⟨hurl, hlast, hfields, hheaders, hbody⟩ := h
  unfold Fragments.addField
  rw [← hlast]
  split
  · exact ⟨hurl, rfl, by simp [hfields], hheaders, hbody⟩
  · exact ⟨hurl, rfl, rfl, hheaders, hbody⟩

theorem Same.addValue {f f' : Fragments} (h : Same f f') (data : Bytes) :
    Same (f.addValue data) (f'.addValue data) := by
  obtain ⟨hurl, hlast, hfields, hheaders, hbody⟩ := h
  have hnew : reportedHeader (f.fields, [data]) = reportedHeader (f'.fields, [data]) := by
    simp [reportedHeader, hfields]
  unfold Fragments.addValue
  rw [← hlast]
  cases hl : f.headers with
  | nil =>
    rw [hl, List.map_nil, eq_comm, List.map_eq_nil_iff] at hheaders
    rw [hheaders]
    cases f.last <;> exact ⟨hurl, rfl, hfields, by simp [hnew], hbody⟩
  | cons g gs =>
    rw [hl, List.map_cons, eq_comm, List.map_eq_cons_iff] at hheaders
    obtain ⟨g', gs', hl', hg, hgs⟩ := hheaders
    rw [hl']
    have hmore : reportedHeader (g.1, g.2 ++ [data]) = reportedHeader (g'.1, g'.2 ++ [data]) := by
      simp only [reportedHeader, Prod.mk.injEq, List.flatten_append] at hg ⊢
      exact ⟨hg.1.symm, by rw [hg.2]⟩
    cases f.last with
    | value => exact ⟨hurl, rfl, hfields, by simp [hmore, hgs], hbody⟩
    | _ => exact ⟨hurl, rfl, hfields, by simp [hnew, hg, hgs], hbody⟩

theorem Same.add {f f' : Fragments} (h : Same f f') (e : ParserEvent) : Same (f.add e) (f'.add e) := by
  cases e with
  | url data => exact { h with url := by simp [Fragments.add, h.url] }
  | headerField data => exact h.addField data
  | headerValue data => exact h.addValue data
  | body data => exact { h with body := by simp [Fragments.add, h.body] }
  | _ => exact h

theorem Same.foldl {f f' : Fragments} (h : Same f f') (es : List ParserEvent) :
    Same (es.foldl Fragments.add f) (es.foldl Fragments.add f') := by
  induction es generalizing f f' with
  | nil => exact h
  | cons e es ih => exact ih (h.add e)

theorem Same.request {f f' : Fragments} (h : Same f f') : f.request = f'.request := by
  simp only [Fragments.request, h.url, h.body, List.map_reverse]
  rw [show (f.headers.map fun h => (h.1.flatten, h.2.flatten)) = f.headers.map reportedHeader from rfl,
    h.headers]
  rfl

/-- Two pieces of one item are one piece. -/
theorem same_url (f : Fragments) (a b : Bytes) :
    Same (f.add (.url (a ++ b))) ((f.add (.url a)).add (.url b)) :=
  { Same.refl f with url := by simp [Fragments.add] }

theorem same_headerField (f : Fragments) (a b : Bytes) :
    Same (f.add (.headerField (a ++ b))) ((f.add (.headerField a)).add (.headerField b)) := by
  simp only [Fragments.add, addField]
  cases hlast : f.last <;>
    exact ⟨rfl, by simp, by simp, by simp, by simp⟩

theorem same_headerValue (f : Fragments) (a b : Bytes) :
    Same (f.add (.headerValue (a ++ b))) ((f.add (.headerValue a)).add (.headerValue b)) := by
  simp only [Fragments.add, addValue]
  cases hlast : f.last <;> cases hheaders : f.headers <;>
    exact ⟨rfl, rfl, rfl, by simp [reportedHeader], rfl⟩

theorem same_of_coarser {es es' : List ParserEvent} (h : Coarser es es') {f f' : Fragments}
    (hf : Same f f') : Same (es.foldl Fragments.add f) (es'.foldl Fragments.add f') := by
  induction h generalizing f f' with
  | nil => exact hf
  | cons e _ ih => exact ih (hf.add e)
  | @url a b es es' _ ih => exact ((same_url f a b).foldl es).trans (ih (hf.add (.url a)))
  | @headerField a b es es' _ ih =>
    exact ((same_headerField f a b).foldl es).trans (ih (hf.add (.headerField a)))
  | @headerValue a b es es' _ ih =>
    exact ((same_headerValue f a b).foldl es).trans (ih (hf.add (.headerValue a)))

end Fragments

theorem assemble_of_coarser {es es' : List ParserEvent} (h : Coarser es es') :
    Request.assemble es = Request.assemble es' :=
  (Fragments.same_of_coarser h (.refl .empty)).request

/-! ## The parser -/

/-- The place reached in a request. -/
inductive LinePhase where
  | start
  | method
  | url
  | version
  | lineStart
  | field
  | space
  | value
  | valueEnd
  | blankLine
  /-- A callback has returned a non-zero value. -/
  | stopped
  deriving DecidableEq

/-- The state of the parser; `field` is the name of the header that is being read. -/
structure LineState where
  phase : LinePhase
  field : Bytes
  upgradeField : Bool
  upgrade : Bool

namespace LineState

def cr : Byte := 13
def lf : Byte := 10
def blank : Byte := 32
def colon : Byte := 58

/-- `http_method_str` where only the first letter is known. -/
def methodOf (b : Byte) : Bytes := if b = 71 then [71, 69, 84] else [80, 79, 83, 84]

/-- The name of the `Upgrade` header. -/
def upgradeName : Bytes := [85, 112, 103, 114, 97, 100, 101]

/-- The state and the callbacks after one byte. -/
def step (p : LineState) (b : Byte) : LineState × List ParserEvent :=
  match p.phase with
  | .start =>
    if b = cr ∨ b = lf then (p, [])
    else ({ p with phase := .method, field := [], upgradeField := false },
      [.messageBegin (methodOf b)])
  | .method => if b = blank then ({ p with phase := .url }, []) else (p, [])
  | .url => if b = blank then ({ p with phase := .version }, [.url []]) else (p, [.url [b]])
  | .version => if b = lf then ({ p with phase := .lineStart }, []) else (p, [])
  | .lineStart =>
    if b = cr then ({ p with phase := .blankLine }, [])
    else ({ p with phase := .field, field := [b] }, [.headerField [b]])
  | .field =>
    if b = colon then
      ({ p with phase := .space, upgradeField := p.upgradeField || p.field == upgradeName },
        [.headerField []])
    else ({ p with field := p.field ++ [b] }, [.headerField [b]])
  | .space =>
    if b = blank then (p, [])
    else if b = cr then ({ p with phase := .valueEnd }, [.headerValue []])
    else ({ p with phase := .value }, [.headerValue [b]])
  | .value =>
    if b = cr then ({ p with phase := .valueEnd }, [.headerValue []]) else (p, [.headerValue [b]])
  | .valueEnd => if b = lf then ({ p with phase := .lineStart }, []) else (p, [])
  | .blankLine =>
    if b = lf then
      ({ p with phase := .start, upgrade := p.upgradeField }, [.headersComplete, .messageComplete])
    else (p, [])
  | .stopped => (p, [])

def scan (p : LineState) : Bytes → LineState × List ParserEvent
  | [] => (p, [])
  | b :: bs => ((scan (p.step b).1 bs).1, (p.step b).2 ++ (scan (p.step b).1 bs).2)

theorem scan_append (p : LineState) (xs ys : Bytes) :
    scan p (xs ++ ys) = ((scan (scan p xs).1 ys).1, (scan p xs).2 ++ (scan (scan p xs).1 ys).2) := by
  induction xs generalizing p with
  | nil => rfl
  | cons b xs ih => simp only [List.cons_append, scan, ih, List.append_assoc]

theorem scan_stopped {p : LineState} (hp : p.phase = .stopped) (bs : Bytes) : scan p bs = (p, []) := by
  have hstep : ∀ b, p.step b = (p, []) := fun b => by simp [step, hp]
  induction bs with
  | nil => rfl
  | cons b bs ih => simp [scan, hstep, ih]

/-- The message is complete right after its headers. -/
theorem scan_headersFirst (p : LineState) (bs : Bytes) :
    .messageComplete ∉ ParserEvent.before .headersComplete (scan p bs).2 := by
  induction bs generalizing p with
  | nil => simp [scan, ParserEvent.before]
  | cons b bs ih =>
    have hrest := ih (p.step b).1
    have hcases : (p.step b).2 = [] ∨ (∃ e, (p.step b).2 = [e] ∧ ¬Coarser.Mark e) ∨
        (p.step b).2 = [.headersComplete, .messageComplete] := by
      unfold step
      cases p.phase <;> grind [Coarser.Mark]
    simp only [scan, ParserEvent.before] at hrest ⊢
    rcases hcases with hnil | ⟨e, he, hmark⟩ | hend
    · rw [hnil, List.nil_append]
      exact hrest
    · have hne : e ≠ .headersComplete ∧ e ≠ .messageComplete := by simpa [Coarser.Mark] using hmark
      rw [he]
      simp only [List.singleton_append, List.takeWhile_cons, hne.1, ne_eq, not_false_eq_true,
        decide_true, if_true, List.mem_cons, not_or]
      exact ⟨hne.2.symm, hrest⟩
    · rw [hend]
      simp

end LineState

/-- Put the pieces of one item together. -/
def mergePieces : List ParserEvent → List ParserEvent
  | [] => []
  | e :: es =>
    match e, mergePieces es with
    | .url a, .url b :: rest => .url (a ++ b) :: rest
    | .headerField a, .headerField b :: rest => .headerField (a ++ b) :: rest
    | .headerValue a, .headerValue b :: rest => .headerValue (a ++ b) :: rest
    | e, rest => e :: rest

theorem coarser_mergePieces (es : List ParserEvent) : Coarser (mergePieces es) es := by
  induction es with
  | nil => exact .nil
  | cons e es ih =>
    unfold mergePieces
    split
    · rename_i heq
      rw [heq] at ih
      exact .url _ ih
    · rename_i heq
      rw [heq] at ih
      exact .headerField _ ih
    · rename_i heq
      rw [heq] at ih
      exact .headerValue _ ih
    · exact .cons _ ih

def lineParser : HttpParser LineState where
  init := { phase := .start, field := [], upgradeField := false, upgrade := false }
  events p data := mergePieces (p.scan data).2
  after p data stop :=
    match stop with
    | none => { parser := (p.scan data).1, nparsed := data.length, upgrade := (p.scan data).1.upgrade }
    | some _ => { parser := { p with phase := .stopped }, nparsed := 0, upgrade := p.upgrade }

theorem lineParser_stopped {p : LineState} (hp : p.phase = .stopped) (pieces : List Bytes) :
    lineParser.callbacks p pieces = [] := by
  induction pieces with
  | nil => rfl
  | cons data pieces ih =>
    have hscan := LineState.scan_stopped hp data
    simp only [HttpParser.callbacks, lineParser, hscan, mergePieces, List.nil_append]
    exact ih

/-- The pieces are reported as the bytes would be, one after the other. -/
theorem lineParser_coarser (p : LineState) (pieces : List Bytes) :
    Coarser (lineParser.callbacks p pieces) (p.scan pieces.flatten).2 := by
  induction pieces generalizing p with
  | nil => exact .nil
  | cons data pieces ih =>
    rw [List.flatten_cons, LineState.scan_append]
    exact (coarser_mergePieces _).append (ih _)

theorem lineParser_documented : lineParser.Documented where
  stops p data i pieces := lineParser_stopped rfl pieces
  headersFirst pieces := by
    have hbefore := (lineParser_coarser lineParser.init pieces).before (.inl rfl)
    exact (hbefore.mem_iff (.inr rfl)).not.mpr (LineState.scan_headersFirst _ _)

theorem lineParser_reports {mark : ParserEvent} (hmark : Coarser.Mark mark) (bytes : Bytes)
    (hmem : mark ∈ (lineParser.init.scan bytes).2) :
    lineParser.Reports mark bytes
      (Request.assemble (mark.before (lineParser.init.scan bytes).2)) := by
  intro pieces rest _ hflat
  have hcoarser := lineParser_coarser lineParser.init pieces
  rw [hflat, LineState.scan_append] at hcoarser
  have hbefore : mark.before ((lineParser.init.scan bytes).2 ++
      ((lineParser.init.scan bytes).1.scan rest).2) = mark.before (lineParser.init.scan bytes).2 :=
    before_append hmem _
  refine ⟨(hcoarser.mem_iff hmark).mpr (List.mem_append_left _ hmem), ?_⟩
  rw [← hbefore]
  exact assemble_of_coarser (hcoarser.before hmark)

/-! ## Stopping at an upgrade -/

namespace LineState

/-- The byte ends the headers of a request for an upgrade. -/
def endsUpgrade (p : LineState) (b : Byte) : Bool :=
  decide (.headersComplete ∈ (p.step b).2) && (p.step b).1.upgrade

/-- The bytes have the end of the headers of a request for an upgrade. -/
def upgrades (p : LineState) : Bytes → Bool
  | [] => false
  | b :: bs => p.endsUpgrade b || upgrades (p.step b).1 bs

/-- The number of bytes up to there, or of all of them. -/
def parsed (p : LineState) : Bytes → Nat
  | [] => 0
  | b :: bs => if p.endsUpgrade b then 1 else parsed (p.step b).1 bs + 1

theorem upgrades_append (p : LineState) (xs ys : Bytes) :
    p.upgrades (xs ++ ys) = (p.upgrades xs || (p.scan xs).1.upgrades ys) := by
  induction xs generalizing p with
  | nil => rfl
  | cons b xs ih => simp only [List.cons_append, upgrades, scan, ih, Bool.or_assoc]

theorem parsed_append (p : LineState) (xs ys : Bytes) :
    p.parsed (xs ++ ys) =
      if p.upgrades xs then p.parsed xs else xs.length + (p.scan xs).1.parsed ys := by
  induction xs generalizing p with
  | nil => simp [upgrades, scan]
  | cons b xs ih =>
    by_cases hb : p.endsUpgrade b = true
    · simp [parsed, upgrades, hb]
    · simp only [List.cons_append, parsed, upgrades, scan, hb, ih, Bool.false_or, Bool.false_eq_true,
        if_false, List.length_cons]
      split <;> omega

theorem parsed_of_not_upgrades {p : LineState} {bs : Bytes} (h : p.upgrades bs = false) :
    p.parsed bs = bs.length := by
  have happend := p.parsed_append bs []
  rw [List.append_nil, h] at happend
  exact happend

theorem upgrade_step {p : LineState} (hp : p.upgrade = false) {b : Byte}
    (hb : p.endsUpgrade b = false) : (p.step b).1.upgrade = false := by
  unfold endsUpgrade at hb
  unfold step at hb ⊢
  cases hphase : p.phase <;> simp only [hphase] at hb ⊢ <;> grind

theorem upgrade_scan {p : LineState} (hp : p.upgrade = false) {bs : Bytes}
    (hbs : p.upgrades bs = false) : (p.scan bs).1.upgrade = false := by
  induction bs generalizing p with
  | nil => exact hp
  | cons b bs ih =>
    rw [upgrades, Bool.or_eq_false_iff] at hbs
    exact ih (upgrade_step hp hbs.1) hbs.2

theorem mem_of_upgrades {p : LineState} {bs : Bytes} (h : p.upgrades bs = true) :
    .headersComplete ∈ (p.scan bs).2 := by
  induction bs generalizing p with
  | nil => cases h
  | cons b bs ih =>
    rw [upgrades, Bool.or_eq_true] at h
    rw [scan, List.mem_append]
    rcases h with hb | hbs
    · rw [endsUpgrade, Bool.and_eq_true, decide_eq_true_eq] at hb
      exact Or.inl hb.1
    · exact Or.inr (ih hbs)

theorem parsed_le (p : LineState) (bs : Bytes) : p.parsed bs ≤ bs.length := by
  induction bs generalizing p with
  | nil => exact Nat.le_refl 0
  | cons b bs ih =>
    have hrest := ih (p.step b).1
    simp only [parsed, List.length_cons]
    split <;> omega

theorem upgrade_taken {p : LineState} {bs : Bytes} (h : p.upgrades bs = true) :
    (p.scan (bs.take (p.parsed bs))).1.upgrade = true := by
  induction bs generalizing p with
  | nil => cases h
  | cons b bs ih =>
    rw [upgrades, Bool.or_eq_true] at h
    rw [parsed]
    split
    · rename_i hb
      rw [endsUpgrade, Bool.and_eq_true] at hb
      exact hb.2
    · rename_i hb
      exact ih (h.resolve_left hb)

/-- Where the headers are complete with the last byte, all is parsed. -/
theorem parsed_of_upgrades {p : LineState} {bs : Bytes} (hopen : p.upgrades bs.dropLast = false)
    (h : p.upgrades bs = true) : p.parsed bs = bs.length ∧ (p.scan bs).1.upgrade = true := by
  have hne : bs ≠ [] := by
    rintro rfl
    cases h
  obtain ⟨init, b, rfl⟩ : ∃ init b, bs = init ++ [b] :=
    ⟨bs.dropLast, bs.getLast hne, (List.dropLast_append_getLast hne).symm⟩
  rw [List.dropLast_concat] at hopen
  rw [upgrades_append, hopen, Bool.false_or, upgrades, upgrades, Bool.or_false] at h
  rw [parsed_append, hopen, scan_append]
  constructor
  · simp [parsed, h]
  · rw [endsUpgrade, Bool.and_eq_true] at h
    exact h.2

end LineState

/-- `lineParser`, but it stops behind the headers of a request for an upgrade, and for good. -/
def upgradeParser : HttpParser LineState where
  init := lineParser.init
  events p data := lineParser.events p (data.take (p.parsed data))
  after p data stop :=
    match stop with
    | none =>
      let out := lineParser.after p (data.take (p.parsed data)) none
      { out with
        parser := if out.upgrade then { out.parser with phase := .stopped } else out.parser }
    | some i => lineParser.after p data (some i)

theorem upgradeParser_callbacks_cons (p : LineState) (data : Bytes) (pieces : List Bytes) :
    upgradeParser.callbacks p (data :: pieces) =
      mergePieces (p.scan (data.take (p.parsed data))).2 ++
        upgradeParser.callbacks
          (if (p.scan (data.take (p.parsed data))).1.upgrade then
            { (p.scan (data.take (p.parsed data))).1 with phase := .stopped }
          else (p.scan (data.take (p.parsed data))).1) pieces := rfl

theorem upgradeParser_stopped {p : LineState} (hp : p.phase = .stopped) (pieces : List Bytes) :
    upgradeParser.callbacks p pieces = [] := by
  induction pieces generalizing p with
  | nil => rfl
  | cons data pieces ih =>
    rw [upgradeParser_callbacks_cons, LineState.scan_stopped hp]
    split
    · exact ih rfl
    · exact ih hp

/-- What it reports is what some bytes would be reported as, one after the other. -/
theorem upgradeParser_coarser (p : LineState) (pieces : List Bytes) :
    ∃ bs, Coarser (upgradeParser.callbacks p pieces) (p.scan bs).2 := by
  induction pieces generalizing p with
  | nil => exact ⟨[], .nil⟩
  | cons data pieces ih =>
    have hfirst := coarser_mergePieces (p.scan (data.take (p.parsed data))).2
    rw [upgradeParser_callbacks_cons]
    split
    · refine ⟨data.take (p.parsed data), ?_⟩
      rw [upgradeParser_stopped rfl, List.append_nil]
      exact hfirst
    · obtain ⟨bs, hbs⟩ := ih (p.scan (data.take (p.parsed data))).1
      refine ⟨data.take (p.parsed data) ++ bs, ?_⟩
      rw [LineState.scan_append]
      exact hfirst.append hbs

theorem upgradeParser_documented : upgradeParser.Documented where
  stops p data i pieces := upgradeParser_stopped rfl pieces
  headersFirst pieces := by
    obtain ⟨bs, hcoarser⟩ := upgradeParser_coarser upgradeParser.init pieces
    have hbefore := hcoarser.before (.inl rfl)
    exact (hbefore.mem_iff (.inr rfl)).not.mpr (LineState.scan_headersFirst _ _)

/-- Up to an upgrade it is `lineParser`. -/
theorem upgradeParser_before (p : LineState) (hp : p.upgrade = false) (pieces : List Bytes)
    (hnot : p.upgrades pieces.flatten = false) :
    upgradeParser.callbacks p pieces = lineParser.callbacks p pieces ∧
      (upgradeParser.feed (fun (_ : Unit) _ => (0, ())) p () pieces).1 = (p.scan pieces.flatten).1 := by
  induction pieces generalizing p with
  | nil => exact ⟨rfl, rfl⟩
  | cons data pieces ih =>
    rw [List.flatten_cons, LineState.upgrades_append, Bool.or_eq_false_iff] at hnot
    have hall : data.take (p.parsed data) = data := by
      rw [LineState.parsed_of_not_upgrades hnot.1, List.take_length]
    have hup := LineState.upgrade_scan hp hnot.1
    have hafter : (upgradeParser.after p data none).parser = (p.scan data).1 := by
      simp [upgradeParser, lineParser, hall, hup]
    obtain ⟨hcallbacks, hfeed⟩ := ih _ hup hnot.2
    constructor
    · rw [HttpParser.callbacks, hafter, hcallbacks]
      simp [HttpParser.callbacks, upgradeParser, lineParser, hall]
    · rw [HttpParser.feed_zero_cons, hafter, List.flatten_cons, LineState.scan_append]
      exact hfeed

/-- Up to an upgrade and with it, the bytes are reported as they would be one after the other; what
is behind is not reported. -/
theorem upgradeParser_upTo {p : LineState} (hp : p.upgrade = false) {pieces : List Bytes}
    (hup : p.upgrades pieces.flatten = true) :
    Coarser (upgradeParser.callbacks p pieces)
      (p.scan (pieces.flatten.take (p.parsed pieces.flatten))).2 := by
  induction pieces generalizing p with
  | nil => cases hup
  | cons data pieces ih =>
    rw [List.flatten_cons] at hup ⊢
    rw [upgradeParser_callbacks_cons, LineState.parsed_append]
    cases hdata : p.upgrades data with
    | true =>
      rw [LineState.upgrade_taken hdata, if_pos rfl, if_pos rfl, upgradeParser_stopped rfl,
        List.append_nil, List.take_append_of_le_length (p.parsed_le data)]
      exact coarser_mergePieces _
    | false =>
      have hall : data.take (p.parsed data) = data := by
        rw [LineState.parsed_of_not_upgrades hdata, List.take_length]
      have hopen := LineState.upgrade_scan hp hdata
      rw [LineState.upgrades_append, hdata, Bool.false_or] at hup
      rw [hall, hopen, if_neg (by decide), if_neg (by decide), List.take_length_add_append,
        LineState.scan_append]
      exact (coarser_mergePieces _).append (ih hopen hup)

/-- A request for an upgrade that is complete with its last byte is reported, however it is cut. -/
theorem upgradeParser_request {request rest : Bytes}
    (hopen : lineParser.init.upgrades request.dropLast = false)
    (hup : lineParser.init.upgrades request = true) {pieces : List Bytes}
    (hflat : pieces.flatten = request ++ rest) :
    Coarser (upgradeParser.callbacks upgradeParser.init pieces) (lineParser.init.scan request).2 := by
  have hreached : lineParser.init.upgrades pieces.flatten = true := by
    rw [hflat, LineState.upgrades_append, hup, Bool.true_or]
  have hparsed : lineParser.init.parsed pieces.flatten = request.length := by
    rw [hflat, LineState.parsed_append, if_pos hup, (LineState.parsed_of_upgrades hopen hup).1]
  have htaken := upgradeParser_upTo (p := lineParser.init) rfl hreached
  rw [hparsed, hflat, List.take_left] at htaken
  exact htaken

/-- A request for an upgrade that is complete with its last byte. -/
theorem upgradeParser_upgrades {request : Bytes}
    (hopen : .headersComplete ∉ (lineParser.init.scan request.dropLast).2)
    (hup : lineParser.init.upgrades request = true) : upgradeParser.Upgrades request := by
  have hdone := LineState.mem_of_upgrades hup
  have hnot : lineParser.init.upgrades request.dropLast = false := by
    rw [← Bool.not_eq_true]
    exact fun h => hopen (LineState.mem_of_upgrades h)
  obtain ⟨hlen, hupgrade⟩ := LineState.parsed_of_upgrades hnot hup
  have hcut : ∀ bs : Bytes, bs.length < request.length → bs <+: request →
      bs <+: request.dropLast := fun bs hbs hpre => by
    rw [List.prefix_iff_eq_take] at hpre ⊢
    rw [List.dropLast_eq_take, List.take_take, Nat.min_eq_left (by omega)]
    exact hpre
  have hbefore : ∀ bs : Bytes, bs.length < request.length → bs <+: request →
      lineParser.init.upgrades bs = false := fun bs hbs hpre => by
    obtain ⟨more, hmore⟩ := hcut bs hbs hpre
    rw [← hmore, LineState.upgrades_append, Bool.or_eq_false_iff] at hnot
    exact hnot.1
  refine ⟨fun pieces hshort hpre => ?_, fun pieces data rest hshort hflat hreach => ?_⟩
  · obtain ⟨more, hmore⟩ := hcut _ hshort hpre
    have hsame := (upgradeParser_before lineParser.init rfl pieces (hbefore _ hshort hpre)).1
    have hcoarser := lineParser_coarser lineParser.init pieces
    rw [← hmore, LineState.scan_append] at hopen
    rw [show upgradeParser.init = lineParser.init from rfl, hsame, hcoarser.mem_iff (.inl rfl)]
    exact fun hmem => hopen (List.mem_append_left _ hmem)
  · have hpre : pieces.flatten <+: request :=
      List.prefix_of_prefix_length_le ⟨data, hflat⟩ ⟨rest, rfl⟩ (Nat.le_of_lt hshort)
    have hstate : upgradeParser.behind pieces = (lineParser.init.scan pieces.flatten).1 :=
      (upgradeParser_before lineParser.init rfl pieces (hbefore _ hshort hpre)).2
    have hparsed : (lineParser.init.scan pieces.flatten).1.parsed data =
        request.length - pieces.flatten.length := by
      have hleft := lineParser.init.parsed_append pieces.flatten data
      have hright := lineParser.init.parsed_append request rest
      rw [hbefore _ hshort hpre] at hleft
      rw [hup, hlen] at hright
      rw [hflat] at hleft
      simp only [Bool.false_eq_true, if_false, if_true] at hleft hright
      omega
    have hrequest : pieces.flatten ++ data.take (request.length - pieces.flatten.length) = request := by
      have htake := congrArg (List.take request.length) hflat
      rw [List.take_append_of_le_length (Nat.le_refl _), List.take_length, List.take_append,
        List.take_of_length_le (Nat.le_of_lt hshort)] at htake
      exact htake
    have hscan := LineState.scan_append lineParser.init pieces.flatten
      (data.take (request.length - pieces.flatten.length))
    rw [hrequest] at hscan
    rw [hscan] at hdone hupgrade
    have hpieces : .headersComplete ∉ (lineParser.init.scan pieces.flatten).2 := by
      obtain ⟨more, hmore⟩ := hcut _ hshort hpre
      rw [← hmore, LineState.scan_append] at hopen
      exact fun hmem => hopen (List.mem_append_left _ hmem)
    rw [hstate]
    refine ⟨?_, ?_, ?_⟩
    · simp only [upgradeParser, lineParser] at hparsed hdone ⊢
      rw [hparsed, (coarser_mergePieces _).mem_iff (.inl rfl)]
      exact (List.mem_append.mp hdone).resolve_left hpieces
    · simp only [upgradeParser, lineParser] at hparsed hupgrade ⊢
      rw [hparsed]
      exact hupgrade
    · simp only [upgradeParser, lineParser] at hparsed ⊢
      rw [hparsed, List.length_take]
      omega

end Tubekit
