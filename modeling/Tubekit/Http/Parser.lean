import Tubekit.Buffer.Model

/-!
# The interface of `http_parser`

`external/http-parser` is used through `http_parser_init` and `http_parser_execute` only. The
parser is a parameter here: what it reports for a piece of input is a list of callbacks, and
the callbacks act on it only by returning a non-zero value, which makes it stop.

A url, header field, header value or body is reported by one or more data callbacks whose
concatenation is the item. `Request.assemble` is the reading of such a sequence that the
README of `http_parser` gives: a field after a field and a value after a value continue, a
field after a value starts the next header.
-/

namespace Tubekit

abbrev Bytes := List Byte

/-- A callback of `http_parser_settings` with its data. `messageBegin` carries what
`http_method_str` says of `parser->method` at that point. -/
inductive ParserEvent where
  | messageBegin (method : Bytes)
  | url (data : Bytes)
  | status (data : Bytes)
  | headerField (data : Bytes)
  | headerValue (data : Bytes)
  | headersComplete
  | body (data : Bytes)
  | messageComplete
  | chunkHeader
  | chunkComplete
  deriving DecidableEq

/-- What `http_parser_execute` leaves: the parser, the number of bytes parsed and
`parser->upgrade`. -/
structure Executed (P : Type) where
  parser : P
  nparsed : Nat
  upgrade : Bool

/-- An `http_parser` with state `P`. `events p data` are the callbacks made for `data` while
each of them returns `0`; `after p data stop` is the outcome, where `stop` is the index of the
callback that returned something else, if one did. -/
structure HttpParser (P : Type) where
  init : P
  events : P → Bytes → List ParserEvent
  after : P → Bytes → Option Nat → Executed P

/-- Make the callbacks of `events` on `c` until one returns a non-zero value; the index of that
one is counted from `i`. -/
def runCallbacks {C : Type} (callback : C → ParserEvent → Int × C) :
    C → List ParserEvent → Nat → C × Option Nat
  | c, [], _ => (c, none)
  | c, e :: events, i =>
    match callback c e with
    | (ret, c) => if ret = 0 then runCallbacks callback c events (i + 1) else (c, some i)

/-- `http_parser_execute(parser, settings, data, len)`. -/
def HttpParser.execute {P C : Type} (h : HttpParser P) (callback : C → ParserEvent → Int × C)
    (p : P) (c : C) (data : Bytes) : C × Executed P :=
  let (c, stop) := runCallbacks callback c (h.events p data) 0
  (c, h.after p data stop)

namespace HttpParser

variable {P C : Type}

/-- The callbacks made for the pieces, with one `http_parser_execute` for each, while every
callback returns `0`. -/
def callbacks (h : HttpParser P) : P → List Bytes → List ParserEvent
  | _, [] => []
  | p, data :: pieces => h.events p data ++ callbacks h (h.after p data none).parser pieces

/-- Execute the pieces one after the other. -/
def feed (h : HttpParser P) (callback : C → ParserEvent → Int × C) : P → C → List Bytes → P × C
  | p, c, [] => (p, c)
  | p, c, data :: pieces =>
    let (c, out) := h.execute callback p c data
    feed h callback out.parser c pieces

end HttpParser

theorem runCallbacks_index {C : Type} (callback : C → ParserEvent → Int × C) (c : C)
    (events : List ParserEvent) (i : Nat) :
    (runCallbacks callback c events i).1 = (runCallbacks callback c events 0).1 ∧
      ((runCallbacks callback c events i).2 = none ↔ (runCallbacks callback c events 0).2 = none) := by
  induction events generalizing c i with
  | nil => simp [runCallbacks]
  | cons e events ih =>
    by_cases hret : (callback c e).1 = 0
    · simp only [runCallbacks, hret, if_true]
      exact ⟨(ih _ (i + 1)).1.trans (ih _ (0 + 1)).1.symm,
        (ih _ (i + 1)).2.trans (ih _ (0 + 1)).2.symm⟩
    · simp [runCallbacks, hret]

/-- Callbacks up to one that stops, and then the others if none does. -/
theorem runCallbacks_append {C : Type} (callback : C → ParserEvent → Int × C) (c : C)
    (xs ys : List ParserEvent) (i : Nat) :
    runCallbacks callback c (xs ++ ys) i =
      match runCallbacks callback c xs i with
      | (c', none) => runCallbacks callback c' ys (i + xs.length)
      | (c', some j) => (c', some j) := by
  induction xs generalizing c i with
  | nil => rfl
  | cons e xs ih =>
    by_cases hret : (callback c e).1 = 0
    · simp only [List.cons_append, runCallbacks, hret, if_true, ih, List.length_cons]
      rw [show i + 1 + xs.length = i + (xs.length + 1) by omega]
    · simp [runCallbacks, hret]

theorem runCallbacks_none {C : Type} (callback : C → ParserEvent → Int × C)
    (events : List ParserEvent) (hzero : ∀ e ∈ events, ∀ c, (callback c e).1 = 0) (c : C) (i : Nat) :
    (runCallbacks callback c events i).2 = none := by
  induction events generalizing c i with
  | nil => rfl
  | cons e events ih =>
    rw [List.forall_mem_cons] at hzero
    simp only [runCallbacks, hzero.1, if_true]
    exact ih hzero.2 _ _

/-- Two sets of callbacks that do the same, seen through `R`. -/
theorem runCallbacks_sim {C D : Type} {callback : C → ParserEvent → Int × C}
    {callback' : D → ParserEvent → Int × D} {R : C → D → Prop}
    (hstep : ∀ c d e, R c d → (callback c e).1 = (callback' d e).1 ∧
      R (callback c e).2 (callback' d e).2)
    {c : C} {d : D} (h : R c d) (events : List ParserEvent) (i : Nat) :
    R (runCallbacks callback c events i).1 (runCallbacks callback' d events i).1 ∧
      (runCallbacks callback c events i).2 = (runCallbacks callback' d events i).2 := by
  induction events generalizing c d i with
  | nil => exact ⟨h, rfl⟩
  | cons e events ih =>
    obtain ⟨hret, hR⟩ := hstep c d e h
    by_cases hzero : (callback' d e).1 = 0
    · simp only [runCallbacks, hret, hzero, if_true]
      exact ih hR (i + 1)
    · simp only [runCallbacks, hret, hzero, if_false]
      exact ⟨hR, trivial⟩

namespace HttpParser

variable {P C : Type} {h : HttpParser P}

/-- What the README and the source of `http_parser` say about its callbacks: a non-zero result
makes the parser exit, and it stays in that error; a message is complete only after its
headers are. -/
structure Documented (h : HttpParser P) : Prop where
  stops : ∀ p data i pieces, h.callbacks (h.after p data (some i)).parser pieces = []
  headersFirst : ∀ pieces, .messageComplete ∉
    (h.callbacks h.init pieces).takeWhile (· ≠ .headersComplete)

theorem feed_eq (hdoc : h.Documented) (callback : C → ParserEvent → Int × C) (p : P) (c : C)
    (pieces : List Bytes) :
    (h.feed callback p c pieces).2 = (runCallbacks callback c (h.callbacks p pieces) 0).1 := by
  induction pieces generalizing p c with
  | nil => rfl
  | cons data pieces ih =>
    simp only [feed, callbacks, execute, runCallbacks_append]
    rcases runCallbacks callback c (h.events p data) 0 with ⟨c', _ | i⟩
    · simp only [ih]
      exact (runCallbacks_index callback c' _ _).1.symm
    · simp only [ih, hdoc.stops]
      rfl

/-- Where every callback returns `0`, no piece is left before its end. -/
theorem feed_zero_cons (p : P) (data : Bytes) (pieces : List Bytes) :
    h.feed (fun (_ : Unit) _ => (0, ())) p () (data :: pieces) =
      h.feed (fun (_ : Unit) _ => (0, ())) (h.after p data none).parser () pieces := by
  have hnone := runCallbacks_none (fun (_ : Unit) _ => (0, ())) (h.events p data) (fun _ _ _ => rfl)
    () 0
  simp only [feed, execute, hnone]

/-- The parser after pieces whose callbacks all return `0`. -/
theorem feed_quiet {callback : C → ParserEvent → Int × C} {p : P} {pieces : List Bytes}
    (hzero : ∀ e ∈ h.callbacks p pieces, ∀ c, (callback c e).1 = 0) (c : C) :
    (h.feed callback p c pieces).1 = (h.feed (fun (_ : Unit) _ => (0, ())) p () pieces).1 := by
  induction pieces generalizing p c with
  | nil => rfl
  | cons data pieces ih =>
    rw [callbacks] at hzero
    have hfirst := runCallbacks_none callback _ (fun e he => hzero e (List.mem_append_left _ he)) c 0
    rw [feed_zero_cons]
    simp only [feed, execute, hfirst]
    exact ih (fun e he => hzero e (List.mem_append_right _ he)) _

theorem callbacks_append (p : P) (pieces more : List Bytes) :
    h.callbacks p (pieces ++ more) = h.callbacks p pieces ++
      h.callbacks (h.feed (fun (_ : Unit) _ => (0, ())) p () pieces).1 more := by
  induction pieces generalizing p with
  | nil => rfl
  | cons data pieces ih =>
    rw [feed_zero_cons]
    simp only [List.cons_append, callbacks, ih, List.append_assoc]

theorem feed_append (callback : C → ParserEvent → Int × C) (p : P) (c : C)
    (pieces more : List Bytes) :
    h.feed callback p c (pieces ++ more) =
      h.feed callback (h.feed callback p c pieces).1 (h.feed callback p c pieces).2 more := by
  induction pieces generalizing p c with
  | nil => rfl
  | cons data pieces ih =>
    simp only [List.cons_append, feed]
    exact ih _ _

end HttpParser

/-! ## Reading callbacks as a request -/

/-- Field name and value. -/
abbrev Header := Bytes × Bytes

/-- The `std::map<std::string, std::vector<std::string>>` of the connections. -/
abbrev HeaderMap := Bytes → Option (List Bytes)

/-- `add_header`. -/
def HeaderMap.addHeader (m : HeaderMap) (key value : Bytes) : HeaderMap :=
  fun k => if k = key then some ((m key).getD [] ++ [value]) else m k

def HeaderMap.ofList (l : List Header) : HeaderMap :=
  l.foldl (fun m h => m.addHeader h.1 h.2) (fun _ => none)

/-- A request as its sender means it. -/
structure Request where
  url : Bytes
  headers : List Header
  body : Bytes
  deriving DecidableEq

/-- The callback before, as far as headers go. -/
inductive LastHeader where
  | nothing
  | field
  | value
  deriving DecidableEq

/-- The data of the callbacks, sorted into the items they belong to. A header is the pieces of
its field name and those of its value; the latest header comes first. -/
structure Fragments where
  url : List Bytes
  last : LastHeader
  fields : List Bytes
  headers : List (List Bytes × List Bytes)
  body : List Bytes
  deriving DecidableEq

namespace Fragments

def empty : Fragments := { url := [], last := .nothing, fields := [], headers := [], body := [] }

def addField (f : Fragments) (data : Bytes) : Fragments :=
  match f.last with
  | .field => { f with fields := f.fields ++ [data] }
  | _ => { f with fields := [data], last := .field }

def addValue (f : Fragments) (data : Bytes) : Fragments :=
  match f.last, f.headers with
  | .value, (fields, values) :: headers => { f with headers := (fields, values ++ [data]) :: headers }
  | _, headers => { f with headers := (f.fields, [data]) :: headers, last := .value }

def add (f : Fragments) : ParserEvent → Fragments
  | .url data => { f with url := f.url ++ [data] }
  | .headerField data => f.addField data
  | .headerValue data => f.addValue data
  | .body data => { f with body := f.body ++ [data] }
  | _ => f

def ofEvents (events : List ParserEvent) : Fragments := events.foldl add empty

/-- Put the pieces together. -/
def request (f : Fragments) : Request :=
  { url := f.url.flatten
    headers := f.headers.reverse.map fun h => (h.1.flatten, h.2.flatten)
    body := f.body.flatten }

end Fragments

/-- The request that a sequence of callbacks reports. -/
def Request.assemble (events : List ParserEvent) : Request := (Fragments.ofEvents events).request

/-- The callbacks before and behind the first `mark`. -/
def ParserEvent.before (mark : ParserEvent) (events : List ParserEvent) : List ParserEvent :=
  events.takeWhile (· ≠ mark)

def ParserEvent.behind (mark : ParserEvent) (events : List ParserEvent) : List ParserEvent :=
  (events.dropWhile (· ≠ mark)).tail

/-- The parser accepts `bytes` as the request `r`, up to its callback `mark`: however the bytes
are cut and whatever comes behind them, `mark` is called, and the callbacks before report
`r`. -/
def HttpParser.Reports {P : Type} (h : HttpParser P) (mark : ParserEvent) (bytes : Bytes)
    (r : Request) : Prop :=
  ∀ pieces rest, (∀ piece ∈ pieces, piece ≠ []) → pieces.flatten = bytes ++ rest →
    mark ∈ h.callbacks h.init pieces ∧
      Request.assemble (mark.before (h.callbacks h.init pieces)) = r

/-- The parser after the pieces, where every callback returned `0`. -/
def HttpParser.behind {P : Type} (h : HttpParser P) (pieces : List Bytes) : P :=
  (h.feed (fun (_ : Unit) _ => (0, ())) h.init () pieces).1

/-- `request` asks for an upgrade. As the README of `http_parser` has it, the headers are complete
at its end and not before, and the call that gets there sets `parser->upgrade`, stops there and
returns that offset. -/
structure HttpParser.Upgrades {P : Type} (h : HttpParser P) (request : Bytes) : Prop where
  notBefore : ∀ pieces : List Bytes, pieces.flatten.length < request.length →
    pieces.flatten <+: request → .headersComplete ∉ h.callbacks h.init pieces
  stops : ∀ (pieces : List Bytes) (data rest : Bytes), pieces.flatten.length < request.length →
    pieces.flatten ++ data = request ++ rest → request.length ≤ pieces.flatten.length + data.length →
    .headersComplete ∈ h.events (h.behind pieces) data ∧
      (h.after (h.behind pieces) data none).upgrade = true ∧
      (h.after (h.behind pieces) data none).nparsed = request.length - pieces.flatten.length

end Tubekit
