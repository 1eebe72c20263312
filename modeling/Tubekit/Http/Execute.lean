import Mathlib.Logic.Function.Basic
import Tubekit.Http.ParserState
import Tubekit.Lib.Dialogue

/-!
# `http_parser_execute`

The loop over the bytes of one call, as a machine that asks: a turn is the test of the loop, a pass
through the `switch`, or what is left to do behind either, and a callback is a question whose answer
is what the callback returns.

* `ch` is the byte at `p` and `rest` what is behind it, so `p - data` is `len - rest.length - 1`.
* A mark is kept as the bytes from the mark up to `p`.
* `p_state` and `nread` are local copies that every way out writes back; here they are those of the
  parser.
* `http_errno` is set on the way out only, so the assertions of the callbacks about it hold.
* All callbacks are installed, and none of them pauses the parser.
-/

namespace Tubekit.HttpExecute

/-- The marks `header_field_mark`, `header_value_mark`, `url_mark`, `body_mark` and
`status_mark`. -/
inductive Mark
  | headerField | headerValue | url | body | status
  deriving DecidableEq

/-- The order in which the callbacks for the marks that are left over come. -/
def Mark.all : List Mark := [.headerField, .headerValue, .url, .body, .status]

def Mark.event : Mark → Bytes → ParserEvent
  | .headerField, data => .headerField data
  | .headerValue, data => .headerValue data
  | .url, data => .url data
  | .body, data => .body data
  | .status, data => .status data

abbrev Marks := Mark → Option Bytes

namespace Marks

def none : Marks := fun _ => .none

/-- `MARK`. -/
def set (m : Marks) (k : Mark) : Marks := Function.update m k (some ((m k).getD []))

def clear (m : Marks) (k : Mark) : Marks := Function.update m k .none

/-- `p` moves on over `data`. -/
def add (m : Marks) (data : Bytes) : Marks := fun k => (m k).map (· ++ data)

/-- The number of marks that are set. -/
def count (m : Marks) : Nat := Mark.all.countP fun k => (m k).isSome

/-- The callback of `CALLBACK_DATA`. -/
def call (m : Marks) (k : Mark) : Option ParserEvent := (m k).map k.event

/-- The marks at the start of a call. -/
def start : State → Marks
  | .headerField => Function.update none .headerField (some [])
  | .headerValue => Function.update none .headerValue (some [])
  | .reqPath | .reqSchema | .reqSchemaSlash | .reqSchemaSlashSlash | .reqServerStart | .reqServer
  | .reqServerWithAt | .reqQueryStringStart | .reqQueryString | .reqFragmentStart
  | .reqFragment => Function.update none .url (some [])
  | .resStatus => Function.update none .status (some [])
  | _ => none

end Marks

/-! ## The outcome of a pass -/

/-- How a pass ends: with `break`, with `COUNT_HEADER_SIZE(n)` and `break`, with `REEXECUTE()`, or
with `RETURN((p - data) + 1)`. -/
inductive Control
  | next
  | count (n : Nat)
  | reexecute
  | leave
  deriving DecidableEq

/-- What a pass makes of the parser and its marks, with the callback that it makes before it ends;
or `SET_ERRNO(e)` and `goto error`; or an assertion that fails. -/
inductive Out
  | go (p : Parser) (m : Marks) (call : Option ParserEvent) (control : Control)
  | fail (p : Parser) (e : HttpErrno)
  | abort

/-- A pass with the bytes that it leaves at `p` and behind. -/
structure Pass where
  out : Out
  ch : Byte
  rest : Bytes

/-- A loop over the bytes inside a case: `body` leaves it, or goes on with its variables. Behind the
last byte `p` goes one back; `n` is `p - start`. -/
def scan {τ : Type} (body : τ → Marks → Nat → Byte → Bytes → Pass ⊕ τ) (parser : τ → Parser) :
    τ → Marks → Nat → Byte → Bytes → Pass
  | t, m, n, ch, [] =>
    match body t m n ch [] with
    | .inl pass => pass
    | .inr t => ⟨.go (parser t) m none (.count n), ch, []⟩
  | t, m, n, ch, ch' :: rest =>
    match body t m n ch (ch' :: rest) with
    | .inl pass => pass
    | .inr t => scan body parser t (m.add [ch]) (n + 1) ch' rest

/-! ## Header fields -/

/-- The next character of a name that is being matched: `next` where `text` does not go on with it,
`last` where `text` ends with it. -/
def matchNext (p : Parser) (c : Byte) (text : Bytes) (next last : HeaderState) : Parser :=
  let p := { p with index := p.nextIndex }
  if p.index > text.length ∨ c ≠ text.getD p.index 0 then { p with headerState := next }
  else if p.index = text.length - 1 then { p with headerState := last }
  else p

/-- The `switch` over `header_state` in `s_header_field`; `none` where the assertion fails. -/
def fieldStep (p : Parser) (ch c : Byte) : Option Parser :=
  match p.headerState with
  -- the loop inside this case only runs ahead over more tokens
  | .general => some p
  | .C =>
    some { p with
      index := p.nextIndex, headerState := if c = chr 'o' then .CO else .general }
  | .CO =>
    some { p with
      index := p.nextIndex, headerState := if c = chr 'n' then .CON else .general }
  | .CON =>
    some { p with
      index := p.nextIndex
      headerState :=
        if c = chr 'n' then .matchingConnection
        else if c = chr 't' then .matchingContentLength
        else .general }
  | .matchingConnection => some (matchNext p c (chars "connection") .general .connection)
  | .matchingProxyConnection =>
    some (matchNext p c (chars "proxy-connection") .general .connection)
  | .matchingContentLength => some (matchNext p c (chars "content-length") .general .contentLength)
  | .matchingTransferEncoding =>
    let p := matchNext p c (chars "transfer-encoding") .general .transferEncoding
    some (if p.headerState = .transferEncoding then { p with usesTransferEncoding := true } else p)
  | .matchingUpgrade => some (matchNext p c (chars "upgrade") .general .upgrade)
  | .connection | .contentLength | .transferEncoding | .upgrade =>
    some (if ch ≠ SP then { p with headerState := .general } else p)
  | _ => none

/-- The body of the loop of `s_header_field` and what is behind the loop where the body leaves it;
`n` is `p - start`. -/
def fieldBody (p : Parser) (m : Marks) (n : Nat) (ch : Byte) (rest : Bytes) : Pass ⊕ Parser :=
  let c := token ch
  if c = 0 then
    let p := p.read n
    if p.nread > maxHeaderSize then .inl ⟨.fail p .headerOverflow, ch, rest⟩
    else if ch = chr ':' then
      .inl ⟨.go { p with state := .headerValueDiscardWs } (m.clear .headerField)
        (m.call .headerField) .next, ch, rest⟩
    else .inl ⟨.fail p .invalidHeaderToken, ch, rest⟩
  else
    match fieldStep p ch c with
    | some p => .inr p
    | none => .inl ⟨.abort, ch, rest⟩

def fieldLoop (p : Parser) : Marks → Nat → Byte → Bytes → Pass := scan fieldBody id p

/-! ## Header values -/

/-- A case of the `switch` over `h_state` in `s_header_value`. -/
inductive ValueStep
  | go (p : Parser) (h : HeaderState)
  | fail (p : Parser) (e : HttpErrno)
  | abort

/-- The next character of a value that is being matched. -/
def matchValue (p : Parser) (c : Byte) (text : Bytes) (h next last : HeaderState) : ValueStep :=
  let p := { p with index := p.nextIndex }
  if p.index > text.length ∨ c ≠ text.getD p.index 0 then .go p next
  else if p.index = text.length - 1 then .go p last
  else .go p h

/-- The character of a content length. -/
def lengthStep (p : Parser) (ch : Byte) : ValueStep :=
  if ch = SP then .go p .contentLengthWs
  else if !isNum ch then
    .fail { p with headerState := .contentLengthNum } .invalidContentLength
  else if (ullongMax - 10) / 10 < p.contentLength then
    .fail { p with headerState := .contentLengthNum } .invalidContentLength
  else
    .go { p with
      contentLength := (p.contentLength * 10 + (ch.toNat - 48)) % 18446744073709551616 }
      .contentLengthNum

/-- The token of `Connection` is known: its end, or something else behind it. -/
def connectionStep (p : Parser) (ch : Byte) (h : HeaderState) (flags : Flags) : ValueStep :=
  if ch = chr ',' then .go { p with flags := flags, index := 0 } .matchingConnectionTokenStart
  else if ch ≠ SP then .go p .matchingConnectionToken
  else .go p h

/-- The `switch` over `h_state` in `s_header_value`, but for `h_general`, whose loop is in
`valueLoop`. -/
def valueStep (p : Parser) (h : HeaderState) (ch : Byte) : ValueStep :=
  let c := lower ch
  match h with
  | .connection | .transferEncoding => .abort
  | .contentLength => if ch = SP then .go p h else lengthStep p ch
  | .contentLengthNum => lengthStep p ch
  | .contentLengthWs =>
    if ch = SP then .go p h else .fail { p with headerState := h } .invalidContentLength
  | .matchingTransferEncodingTokenStart =>
    if c = chr 'c' then .go p .matchingTransferEncodingChunked
    else if strictToken c ≠ 0 then .go p .matchingTransferEncodingToken
    else if c = SP ∨ c = HT then .go p h
    else .go p .general
  | .matchingTransferEncodingChunked =>
    matchValue p c (chars "chunked") h .matchingTransferEncodingToken .transferEncodingChunked
  | .matchingTransferEncodingToken =>
    if ch = chr ',' then .go { p with index := 0 } .matchingTransferEncodingTokenStart else .go p h
  | .matchingConnectionTokenStart =>
    if c = chr 'k' then .go p .matchingConnectionKeepAlive
    else if c = chr 'c' then .go p .matchingConnectionClose
    else if c = chr 'u' then .go p .matchingConnectionUpgrade
    else if strictToken c ≠ 0 then .go p .matchingConnectionToken
    else if c = SP ∨ c = HT then .go p h
    else .go p .general
  | .matchingConnectionKeepAlive =>
    matchValue p c (chars "keep-alive") h .matchingConnectionToken .connectionKeepAlive
  | .matchingConnectionClose =>
    matchValue p c (chars "close") h .matchingConnectionToken .connectionClose
  | .matchingConnectionUpgrade =>
    matchValue p c (chars "upgrade") h .matchingConnectionToken .connectionUpgrade
  | .matchingConnectionToken =>
    if ch = chr ',' then .go { p with index := 0 } .matchingConnectionTokenStart else .go p h
  | .transferEncodingChunked =>
    if ch ≠ SP then .go p .matchingTransferEncodingToken else .go p h
  | .connectionKeepAlive =>
    connectionStep p ch h { p.flags with connectionKeepAlive := true }
  | .connectionClose => connectionStep p ch h { p.flags with connectionClose := true }
  | .connectionUpgrade => connectionStep p ch h { p.flags with connectionUpgrade := true }
  | _ => .go { p with state := .headerValue } .general

/-- The variables of the loop of `s_header_value`: the parser, `h_state`, and how much is left of the
`MIN(left, max_header_size)` bytes that the loop inside `h_general` looks at, where it is in that
loop. -/
structure ValueLocals where
  parser : Parser
  h : HeaderState
  room : Option Nat

/-- The body of the loop of `s_header_value`; `n` is `p - start`. Where the bytes of the loop inside
`h_general` are used up before the data, the loop around it goes on behind the byte at `pe`, which
nobody has looked at. -/
def valueBody (v : ValueLocals) (m : Marks) (n : Nat) (ch : Byte) (rest : Bytes) :
    Pass ⊕ ValueLocals :=
  let p := v.parser
  if v.room = some 0 then .inr { v with room := none }
  else if ch = CR then
    .inl ⟨.go { p with state := .headerAlmostDone, headerState := v.h } (m.clear .headerValue)
      (m.call .headerValue) (.count n), ch, rest⟩
  else if ch = LF then
    let p := { p.read n with state := .headerAlmostDone }
    if p.nread > maxHeaderSize then .inl ⟨.fail p .headerOverflow, ch, rest⟩
    else
      .inl ⟨.go { p with headerState := v.h } (m.clear .headerValue) (m.call .headerValue)
        .reexecute, ch, rest⟩
  else if !p.lenientHttpHeaders && !isHeaderChar ch then
    .inl ⟨.fail p .invalidHeaderToken, ch, rest⟩
  else
    match v.room with
    | some room => .inr { v with room := some (room - 1) }
    | none =>
      if v.h = .general then .inr { v with room := some (maxHeaderSize - 1) }
      else
        match valueStep p v.h ch with
        | .go p h => .inr { parser := p, h, room := none }
        | .fail p e => .inl ⟨.fail p e, ch, rest⟩
        | .abort => .inl ⟨.abort, ch, rest⟩

def valueLoop (p : Parser) : Marks → Nat → Byte → Bytes → Pass :=
  scan valueBody (fun v => { v.parser with headerState := v.h })
    { parser := p, h := p.headerState, room := none }

/-! ## Bodies -/

/-- `MARK(body)`, and `p` moves on to the last of the bytes to read, here and in `s_chunk_data`. -/
def takeBody (p : Parser) (m : Marks) (ch : Byte) (rest : Bytes) : Parser × Marks × Byte × Bytes :=
  let toRead := min p.contentLength (rest.length + 1)
  ({ p with contentLength := p.contentLength - toRead },
    (m.set .body).add ((ch :: rest).take (toRead - 1)),
    (ch :: rest).getD (toRead - 1) ch,
    (ch :: rest).drop toRead)

/-- The case `s_body_identity`. -/
def bodyIdentity (p : Parser) (m : Marks) (ch : Byte) (rest : Bytes) : Pass :=
  if p.contentLength = 0 ∨ p.contentLength = ullongMax then ⟨.abort, ch, rest⟩
  else
    let (p, m, ch, rest) := takeBody p m ch rest
    if p.contentLength = 0 then
      ⟨.go { p with state := .messageDone } (m.clear .body) ((m.add [ch]).call .body) .reexecute,
        ch, rest⟩
    else ⟨.go p m none .next, ch, rest⟩

/-- The case `s_chunk_data`. -/
def chunkData (p : Parser) (m : Marks) (ch : Byte) (rest : Bytes) : Pass :=
  if !p.flags.chunked || p.contentLength = 0 || p.contentLength = ullongMax then
    ⟨.abort, ch, rest⟩
  else
    let (p, m, ch, rest) := takeBody p m ch rest
    if p.contentLength = 0 then
      ⟨.go { p with state := .chunkDataAlmostDone } m none .next, ch, rest⟩
    else ⟨.go p m none .next, ch, rest⟩

/-- The case `s_body_identity_eof`: all that is left. -/
def bodyIdentityEof (p : Parser) (m : Marks) (ch : Byte) (rest : Bytes) : Pass :=
  ⟨.go p ((m.set .body).add ((ch :: rest).dropLast)) none .next, (ch :: rest).getLastD ch, []⟩

/-! ## One character -/

/-- `STRICT_CHECK(ch != c)` and the next state. -/
def constant (p : Parser) (m : Marks) (ch c : Byte) (s : State) : Out :=
  if ch ≠ c then .fail p .strict else .go { p with state := s } m none .next

/-- A digit of the version. -/
def version (p : Parser) (m : Marks) (ch : Byte) (p' : Parser) : Out :=
  if !isNum ch then .fail p .invalidVersion else .go p' m none .next

/-- The method that begins with a letter, as a first guess. -/
def firstMethod (ch : Byte) : Option HttpMethod :=
  if ch = chr 'A' then some .acl
  else if ch = chr 'B' then some .bind
  else if ch = chr 'C' then some .connect
  else if ch = chr 'D' then some .delete
  else if ch = chr 'G' then some .get
  else if ch = chr 'H' then some .head
  else if ch = chr 'L' then some .lock
  else if ch = chr 'M' then some .mkcol
  else if ch = chr 'N' then some .notify
  else if ch = chr 'O' then some .options
  else if ch = chr 'P' then some .post
  else if ch = chr 'R' then some .report
  else if ch = chr 'S' then some .subscribe
  else if ch = chr 'T' then some .trace
  else if ch = chr 'U' then some .unlock
  else none

/-- The method that the letter at `index` turns another one into. -/
def otherMethod (method : HttpMethod) (index : Nat) (ch : Byte) : Option HttpMethod :=
  match method, index with
  | .post, 1 =>
    if ch = chr 'U' then some .put
    else if ch = chr 'A' then some .patch
    else if ch = chr 'R' then some .propfind
    else none
  | .put, 2 => if ch = chr 'R' then some .purge else none
  | .connect, 1 => if ch = chr 'H' then some .checkout else none
  | .connect, 2 => if ch = chr 'P' then some .copy else none
  | .mkcol, 1 =>
    if ch = chr 'O' then some .move
    else if ch = chr 'E' then some .merge
    else if ch = chr '-' then some .msearch
    else none
  | .mkcol, 2 => if ch = chr 'A' then some .mkactivity else none
  | .mkcol, 3 => if ch = chr 'A' then some .mkcalendar else none
  | .subscribe, 1 =>
    if ch = chr 'E' then some .search
    else if ch = chr 'O' then some .source
    else none
  | .report, 2 => if ch = chr 'B' then some .rebind else none
  | .propfind, 4 => if ch = chr 'P' then some .proppatch else none
  | .lock, 1 => if ch = chr 'I' then some .link else none
  | .unlock, 2 =>
    if ch = chr 'S' then some .unsubscribe
    else if ch = chr 'B' then some .unbind
    else none
  | .unlock, 3 => if ch = chr 'I' then some .unlink else none
  | _, _ => none

/-- The case `s_req_method`. -/
def reqMethod (p : Parser) (m : Marks) (ch : Byte) : Out :=
  let matcher := p.method.str.getD p.index 0
  let next := { p with index := p.nextIndex }
  if ch = 0 then .fail p .invalidMethod
  else if ch = SP ∧ matcher = 0 then
    .go { next with state := .reqSpacesBeforeUrl } m none .next
  else if ch = matcher then .go next m none .next
  else if (chr 'A' ≤ ch ∧ ch ≤ chr 'Z') ∨ ch = chr '-' then
    match otherMethod p.method p.index ch with
    | some method => .go { next with method } m none .next
    | none => .fail p .invalidMethod
  else .fail p .invalidMethod

/-- `UPDATE_STATE(parse_url_char(CURRENT_STATE(), ch))`. -/
def urlChar (p : Parser) (m : Marks) (ch : Byte) : Out :=
  let s := parseUrlChar p.state ch
  if s = .dead then .fail { p with state := s } .invalidUrl
  else .go { p with state := s } m none .next

/-- The cases from `s_req_server` to `s_req_fragment`, in which the url can end. -/
def urlCharOrEnd (p : Parser) (m : Marks) (ch : Byte) : Out :=
  let ends (p : Parser) : Out := .go p (m.clear .url) (m.call .url) .next
  if ch = SP then ends { p with state := .reqHttpStart }
  else if ch = CR then ends { p with httpMajor := 0, httpMinor := 9, state := .reqLineAlmostDone }
  else if ch = LF then ends { p with httpMajor := 0, httpMinor := 9, state := .headerFieldStart }
  else urlChar p m ch

/-- The case `s_header_value_start`, which `s_header_value_discard_ws` falls into. -/
def valueStart (p : Parser) (m : Marks) (ch : Byte) : Out :=
  let m := m.set .headerValue
  let p := { p with state := .headerValue, index := 0 }
  let c := lower ch
  let go (p : Parser) (h : HeaderState) : Out := .go { p with headerState := h } m none .next
  match p.headerState with
  | .upgrade => go { p with flags := { p.flags with upgrade := true } } .general
  | .transferEncoding =>
    go p (if c = chr 'c' then .matchingTransferEncodingChunked else .matchingTransferEncodingToken)
  | .contentLength =>
    if !isNum ch then .fail p .invalidContentLength
    else if p.flags.contentLength then .fail p .unexpectedContentLength
    else
      go { p with
        flags := { p.flags with contentLength := true }
        contentLength := ch.toNat - 48 } .contentLengthNum
  | .connection =>
    go p (if c = chr 'k' then .matchingConnectionKeepAlive
      else if c = chr 'c' then .matchingConnectionClose
      else if c = chr 'u' then .matchingConnectionUpgrade
      else .matchingConnectionToken)
  | .matchingTransferEncodingTokenStart | .contentLengthWs | .matchingConnectionTokenStart =>
    go p p.headerState
  | _ => go p .general

/-- What a value that is complete says. -/
def valueFlags (p : Parser) : Flags :=
  match p.headerState with
  | .connectionKeepAlive => { p.flags with connectionKeepAlive := true }
  | .connectionClose => { p.flags with connectionClose := true }
  | .transferEncodingChunked => { p.flags with chunked := true }
  | .connectionUpgrade => { p.flags with connectionUpgrade := true }
  | _ => p.flags

/-- The case `s_headers_almost_done`. -/
def headersAlmostDone (p : Parser) (m : Marks) (ch : Byte) : Out :=
  if ch ≠ LF then .fail p .strict
  else if p.flags.trailing then
    .go { p with state := .messageDone } m (some .chunkComplete) .reexecute
  else if p.usesTransferEncoding && p.flags.contentLength &&
      !(if p.flags.chunked then p.allowChunkedLength else p.lenientHttpHeaders) then
    .fail p .unexpectedContentLength
  else
    .go { p with
      state := .headersDone
      upgrade :=
        if p.flags.upgrade && p.flags.connectionUpgrade then
          p.type = .request || p.statusCode = 101
        else p.method = .connect } m (some .headersComplete) .reexecute

/-- The message is complete with its headers. -/
def messageComplete (p : Parser) (m : Marks) (control : Control) : Out :=
  .go { p with state := p.newMessage } m (some .messageComplete) control

/-- The case `s_headers_done`. -/
def headersDone (p : Parser) (m : Marks) (ch : Byte) : Out :=
  if ch ≠ LF then .fail p .strict
  else
    let p := { p with nread := 0 }
    let go (s : State) : Out := .go { p with state := s } m none .next
    let hasBody := p.flags.chunked || (p.contentLength > 0 && p.contentLength ≠ ullongMax)
    if p.upgrade && (p.method = .connect || p.flags.skipBody || !hasBody) then
      messageComplete p m .leave
    else if p.flags.skipBody then messageComplete p m .next
    else if p.flags.chunked then go .chunkSizeStart
    else if p.usesTransferEncoding then
      if p.type = .request && !p.lenientHttpHeaders then .fail p .invalidTransferEncoding
      else go .bodyIdentityEof
    else if p.contentLength = 0 then messageComplete p m .next
    else if p.contentLength ≠ ullongMax then go .bodyIdentity
    else if !p.messageNeedsEof then messageComplete p m .next
    else go .bodyIdentityEof

/-- The `switch`, but for the cases that look at more than one byte. -/
def switch (p : Parser) (m : Marks) (ch : Byte) : Out :=
  let go (s : State) : Out := .go { p with state := s } m none .next
  let again (s : State) : Out := .go { p with state := s } m none .reexecute
  match p.state with
  | .dead => if ch = CR ∨ ch = LF then .go p m none .next else .fail p .closedConnection
  | .startReqOrRes =>
    if ch = CR ∨ ch = LF then .go p m none .next
    else if ch = chr 'H' then
      .go { p.reset with state := .resOrRespH } m (some (.messageBegin p.method.str)) .next
    else .go { p.reset with type := .request, state := .startReq } m none .reexecute
  | .resOrRespH =>
    if ch = chr 'T' then .go { p with type := .response, state := .resHT } m none .next
    else if ch ≠ chr 'E' then .fail p .invalidConstant
    else
      .go { p with type := .request, method := .head, index := 2, state := .reqMethod } m none .next
  | .startRes =>
    if ch = CR ∨ ch = LF then .go p m none .next
    else if ch = chr 'H' then
      .go { p.reset with state := .resH } m (some (.messageBegin p.method.str)) .next
    else .fail p.reset .invalidConstant
  | .resH => constant p m ch (chr 'T') .resHT
  | .resHT => constant p m ch (chr 'T') .resHTT
  | .resHTT => constant p m ch (chr 'P') .resHTTP
  | .resHTTP => constant p m ch (chr '/') .resHttpMajor
  | .resHttpMajor => version p m ch { p with httpMajor := ch.toNat - 48, state := .resHttpDot }
  | .resHttpDot => if ch ≠ chr '.' then .fail p .invalidVersion else go .resHttpMinor
  | .resHttpMinor => version p m ch { p with httpMinor := ch.toNat - 48, state := .resHttpEnd }
  | .resHttpEnd => if ch ≠ SP then .fail p .invalidVersion else go .resFirstStatusCode
  | .resFirstStatusCode =>
    if !isNum ch then if ch = SP then .go p m none .next else .fail p .invalidStatus
    else .go { p with statusCode := ch.toNat - 48, state := .resStatusCode } m none .next
  | .resStatusCode =>
    if !isNum ch then
      if ch = SP then go .resStatusStart
      else if ch = CR ∨ ch = LF then again .resStatusStart
      else .fail p .invalidStatus
    else
      let p := { p with statusCode := p.statusCode * 10 + (ch.toNat - 48) }
      if p.statusCode > 999 then .fail p .invalidStatus else .go p m none .next
  | .resStatusStart =>
    .go { p with state := .resStatus, index := 0 } (m.set .status) none
      (if ch = CR ∨ ch = LF then .reexecute else .next)
  | .resStatus =>
    if ch = CR then
      .go { p with state := .resLineAlmostDone } (m.clear .status) (m.call .status) .next
    else if ch = LF then
      .go { p with state := .headerFieldStart } (m.clear .status) (m.call .status) .next
    else .go p m none .next
  | .resLineAlmostDone => constant p m ch LF .headerFieldStart
  | .startReq =>
    if ch = CR ∨ ch = LF then .go p m none .next
    else if !isAlpha ch then .fail p.reset .invalidMethod
    else
      match firstMethod ch with
      | none => .fail { p.reset with method := .delete, index := 1 } .invalidMethod
      | some method =>
        .go { p.reset with method, index := 1, state := .reqMethod } m
          (some (.messageBegin method.str)) .next
  | .reqMethod => reqMethod p m ch
  | .reqSpacesBeforeUrl =>
    if ch = SP then .go p m none .next
    else
      urlChar (if p.method = .connect then { p with state := .reqServerStart } else p) (m.set .url) ch
  | .reqSchema | .reqSchemaSlash | .reqSchemaSlashSlash | .reqServerStart =>
    if ch = SP ∨ ch = CR ∨ ch = LF then .fail p .invalidUrl else urlChar p m ch
  | .reqServer | .reqServerWithAt | .reqPath | .reqQueryStringStart | .reqQueryString
  | .reqFragmentStart | .reqFragment =>
    urlCharOrEnd p m ch
  | .reqHttpStart =>
    if ch = SP then .go p m none .next
    else if ch = chr 'H' then go .reqHttpH
    else if ch = chr 'I' ∧ p.method = .source then go .reqHttpI
    else .fail p .invalidConstant
  | .reqHttpH => constant p m ch (chr 'T') .reqHttpHT
  | .reqHttpHT => constant p m ch (chr 'T') .reqHttpHTT
  | .reqHttpHTT => constant p m ch (chr 'P') .reqHttpHTTP
  | .reqHttpI => constant p m ch (chr 'C') .reqHttpIC
  | .reqHttpIC => constant p m ch (chr 'E') .reqHttpHTTP
  | .reqHttpHTTP => constant p m ch (chr '/') .reqHttpMajor
  | .reqHttpMajor => version p m ch { p with httpMajor := ch.toNat - 48, state := .reqHttpDot }
  | .reqHttpDot => if ch ≠ chr '.' then .fail p .invalidVersion else go .reqHttpMinor
  | .reqHttpMinor => version p m ch { p with httpMinor := ch.toNat - 48, state := .reqHttpEnd }
  | .reqHttpEnd =>
    if ch = CR then go .reqLineAlmostDone
    else if ch = LF then go .headerFieldStart
    else .fail p .invalidVersion
  | .reqLineAlmostDone => if ch ≠ LF then .fail p .lfExpected else go .headerFieldStart
  | .headerFieldStart =>
    if ch = CR then go .headersAlmostDone
    else if ch = LF then again .headersAlmostDone
    else
      let c := token ch
      if c = 0 then .fail p .invalidHeaderToken
      else
        .go { p with
          index := 0
          state := .headerField
          headerState :=
            if c = chr 'c' then .C
            else if c = chr 'p' then .matchingProxyConnection
            else if c = chr 't' then .matchingTransferEncoding
            else if c = chr 'u' then .matchingUpgrade
            else .general } (m.set .headerField) none .next
  | .headerValueDiscardWs =>
    if ch = SP ∨ ch = HT then .go p m none .next
    else if ch = CR then go .headerValueDiscardWsAlmostDone
    else if ch = LF then go .headerValueDiscardLws
    else valueStart p m ch
  | .headerValueStart => valueStart p m ch
  | .headerAlmostDone => if ch ≠ LF then .fail p .lfExpected else go .headerValueLws
  | .headerValueLws =>
    if ch = SP ∨ ch = HT then
      .go { p with
        headerState :=
          if p.headerState = .contentLengthNum then .contentLengthWs else p.headerState
        state := .headerValueStart } m none .reexecute
    else .go { p with flags := valueFlags p, state := .headerFieldStart } m none .reexecute
  | .headerValueDiscardWsAlmostDone => constant p m ch LF .headerValueDiscardLws
  | .headerValueDiscardLws =>
    if ch = SP ∨ ch = HT then go .headerValueDiscardWs
    else if p.headerState = .contentLength then .fail p .invalidContentLength
    else
      let m := m.set .headerValue
      .go { p with flags := valueFlags p, state := .headerFieldStart } (m.clear .headerValue)
        (m.call .headerValue) .reexecute
  | .headersAlmostDone => headersAlmostDone p m ch
  | .headersDone => headersDone p m ch
  | .messageDone => messageComplete p m (if p.upgrade then .leave else .next)
  | .chunkSizeStart =>
    if p.nread ≠ 1 ∨ p.flags.chunked = false then .abort
    else
      match unhex ch with
      | none => .fail p .invalidChunkSize
      | some digit => .go { p with contentLength := digit, state := .chunkSize } m none .next
  | .chunkSize =>
    if p.flags.chunked = false then .abort
    else if ch = CR then go .chunkSizeAlmostDone
    else
      match unhex ch with
      | none =>
        if ch = chr ';' ∨ ch = SP then go .chunkParameters else .fail p .invalidChunkSize
      | some digit =>
        if (ullongMax - 16) / 16 < p.contentLength then .fail p .invalidContentLength
        else
          .go { p with contentLength := (p.contentLength * 16 + digit) % 18446744073709551616 } m
            none .next
  | .chunkParameters =>
    if p.flags.chunked = false then .abort
    else if ch = CR then go .chunkSizeAlmostDone
    else .go p m none .next
  | .chunkSizeAlmostDone =>
    if p.flags.chunked = false then .abort
    else if ch ≠ LF then .fail p .strict
    else
      let p := { p with nread := 0 }
      if p.contentLength = 0 then
        .go { p with flags := { p.flags with trailing := true }, state := .headerFieldStart } m
          (some .chunkHeader) .next
      else .go { p with state := .chunkData } m (some .chunkHeader) .next
  | .chunkDataAlmostDone =>
    if p.flags.chunked = false ∨ p.contentLength ≠ 0 then .abort
    else if ch ≠ CR then .fail p .strict
    else .go { p with state := .chunkDataDone } (m.clear .body) (m.call .body) .next
  | .chunkDataDone =>
    if p.flags.chunked = false then .abort
    else if ch ≠ LF then .fail p .strict
    else .go { p with nread := 0, state := .chunkSizeStart } m (some .chunkComplete) .next
  -- no such state: `assert(0 && "unhandled state")`
  | .headerField | .headerValue | .bodyIdentity | .bodyIdentityEof | .chunkData => .abort

/-! ## The loop -/

/-- One pass through the `switch`. -/
def pass (p : Parser) (m : Marks) (ch : Byte) (rest : Bytes) : Pass :=
  match p.state with
  | .headerField => fieldLoop p m 0 ch rest
  | .headerValue => valueLoop p m 0 ch rest
  | .bodyIdentity => bodyIdentity p m ch rest
  | .bodyIdentityEof => bodyIdentityEof p m ch rest
  | .chunkData => chunkData p m ch rest
  | _ => ⟨switch p m ch, ch, rest⟩

/-- What `http_parser_execute` comes to: it returns and leaves so many bytes that it did not parse,
or an assertion fails. -/
inductive Result
  | returned (p : Parser) (unread : Nat)
  | aborted
  deriving DecidableEq

/-- Where the loop is: at the test of the `for`, at the label `reexecute`, at the
`COUNT_HEADER_SIZE(n)` behind a callback, at the callbacks for the marks that are left over, or at
its end. -/
inductive Point
  | head (p : Parser) (m : Marks) (rest : Bytes)
  | label (p : Parser) (m : Marks) (ch : Byte) (rest : Bytes)
  | count (n : Nat) (p : Parser) (m : Marks) (ch : Byte) (rest : Bytes)
  | flush (left : List Mark) (p : Parser) (m : Marks)
  | ended (r : Result)

abbrev Turn := Lib.Turn Point ParserEvent Int Result

/-- `SET_ERRNO(e)`, and back with so many bytes not parsed. -/
def stop (p : Parser) (e : HttpErrno) (unread : Nat) : Point :=
  .ended (.returned { p with httpErrno := e } unread)

/-- Where a pass leads that ends so. -/
def Control.point (p : Parser) (m : Marks) (ch : Byte) (rest : Bytes) : Control → Point
  | .next => .head p (m.add [ch]) rest
  | .count n => .count n p m ch rest
  | .reexecute => .label p m ch rest
  | .leave => .ended (.returned p rest.length)

/-- `HPE_CB_` of a callback. -/
def cbErrno : ParserEvent → HttpErrno
  | .messageBegin _ => .cbMessageBegin
  | .url _ => .cbUrl
  | .status _ => .cbStatus
  | .headerField _ => .cbHeaderField
  | .headerValue _ => .cbHeaderValue
  | .headersComplete => .cbHeadersComplete
  | .body _ => .cbBody
  | .messageComplete => .cbMessageComplete
  | .chunkHeader => .cbChunkHeader
  | .chunkComplete => .cbChunkComplete

/-- The bytes that are not parsed where a callback fails: with the byte at `p`, if the pass would
have looked at it again. -/
def Control.unread (rest : Bytes) : Control → Nat
  | .reexecute => rest.length + 1
  | _ => rest.length

/-- What becomes of the answer to a callback. -/
def answered (p : Parser) (m : Marks) (ch : Byte) (rest : Bytes) (e : ParserEvent)
    (control : Control) (answer : Int) : Point :=
  if answer = 0 then control.point p m ch rest
  else if e = .headersComplete ∧ answer = 2 then
    control.point { p with flags := { p.flags with skipBody := true }, upgrade := true } m ch rest
  else if e = .headersComplete ∧ answer = 1 then
    control.point { p with flags := { p.flags with skipBody := true } } m ch rest
  else stop p (cbErrno e) (control.unread rest)

/-- `COUNT_HEADER_SIZE(n)`, and where it leads. -/
def countHeaderSize (p : Parser) (n : Nat) (rest : Bytes) (next : Parser → Point) : Point :=
  let p := p.read n
  if p.nread > maxHeaderSize then stop p .headerOverflow (rest.length + 1) else next p

def Pass.turn : Pass → Turn
  | ⟨.go p m none control, ch, rest⟩ => .pass (control.point p m ch rest)
  | ⟨.go p m (some e) control, ch, rest⟩ => .ask e (answered p m ch rest e control)
  | ⟨.fail p e, _, rest⟩ => .pass (stop p e (rest.length + 1))
  | ⟨.abort, _, _⟩ => .pass (.ended .aborted)

def turn : Point → Turn
  | .head p m [] => .pass (if m.count ≤ 1 then .flush Mark.all p m else .ended .aborted)
  | .head p m (ch :: rest) =>
    .pass (if p.state.parsingHeader then countHeaderSize p 1 rest fun p => .label p m ch rest
      else .label p m ch rest)
  | .label p m ch rest => (pass p m ch rest).turn
  | .count n p m ch rest => .pass (countHeaderSize p n rest fun p => .head p (m.add [ch]) rest)
  | .flush (k :: left) p m =>
    match m.call k with
    | none => .pass (.flush left p m)
    | some e =>
      .ask e fun answer =>
        if answer = 0 then .flush left p (m.clear k) else stop p (cbErrno e) 0
  | .flush [] p _ => .pass (.ended (.returned p 0))
  | .ended r => .done r

/-! ## The way to the end -/

/-- How often a character can still be looked at again. -/
def State.again : State → Nat
  | .headerValueLws | .headerValueDiscardLws => 3
  | .headerFieldStart | .resStatusCode => 2
  | .headersAlmostDone | .resStatusStart | .startReqOrRes | .bodyIdentity | .headerValue => 1
  | _ => 0

def Point.rank : Point → Nat
  | .head _ _ rest => 12 * rest.length + 7
  | .label p _ _ rest => 12 * rest.length + 9 + p.state.again
  | .count _ _ _ _ rest => 12 * rest.length + 8
  | .flush left _ _ => left.length + 1
  | .ended _ => 0

theorem State.again_le (s : State) : s.again ≤ 3 := by cases s <;> decide

theorem switch_reexecute {p p' : Parser} {m m' : Marks} {ch : Byte} {call : Option ParserEvent}
    (h : switch p m ch = .go p' m' call .reexecute) : p'.state.again < p.state.again := by
  unfold switch at h
  cases hs : p.state <;> simp only [hs] at h
  all_goals grind [constant, version, reqMethod, urlChar, urlCharOrEnd, valueStart, headersAlmostDone,
    messageComplete, headersDone, State.again]

/-- What the body of a loop inside a case keeps, its passes come from. -/
theorem scan_keeps {τ : Type} {body : τ → Marks → Nat → Byte → Bytes → Pass ⊕ τ}
    {parser : τ → Parser} {I : τ → Marks → Bytes → Prop} {P : Pass → Prop}
    (last : ∀ t m n ch t', I t m [] → body t m n ch [] = .inr t' →
      P ⟨.go (parser t') m none (.count n), ch, []⟩)
    (left : ∀ t m n ch rest pass, I t m rest → body t m n ch rest = .inl pass → P pass)
    (further : ∀ t m n ch ch' rest t', I t m (ch' :: rest) → body t m n ch (ch' :: rest) = .inr t' →
      I t' (m.add [ch]) rest)
    {t : τ} {m : Marks} {rest : Bytes} (h : I t m rest) (n : Nat) (ch : Byte) :
    P (scan body parser t m n ch rest) := by
  induction rest generalizing t m n ch with
  | nil =>
    rw [scan]
    split
    · rename_i pass hbody
      exact left t m n ch [] pass h hbody
    · rename_i t' hbody
      exact last t m n ch t' h hbody
  | cons ch' rest ih =>
    rw [scan]
    split
    · rename_i pass hbody
      exact left t m n ch _ pass h hbody
    · rename_i t' hbody
      exact ih (further t m n ch ch' rest t' h hbody) _ _

/-- A pass does not go back, and looks at a byte again in a later state only. -/
def Pass.Onward (s : State) (rest : Bytes) (pass : Pass) : Prop :=
  ∀ p m call control, pass.out = .go p m call control → pass.rest.length ≤ rest.length ∧
    (control = .reexecute → p.state.again < s.again)

theorem scan_onward {τ : Type} {body : τ → Marks → Nat → Byte → Bytes → Pass ⊕ τ}
    {parser : τ → Parser} {s : State} {rest : Bytes}
    (hbody : ∀ t m n ch more pass, more.length ≤ rest.length → body t m n ch more = .inl pass →
      pass.Onward s rest) (t : τ) (m : Marks) (n : Nat) (ch : Byte) :
    (scan body parser t m n ch rest).Onward s rest := by
  refine scan_keeps (I := fun _ _ more => more.length ≤ rest.length) ?_ hbody ?_ (Nat.le_refl _) n ch
  · intro t m n ch t' _ _ p m call control hgo
    cases hgo
    exact ⟨Nat.zero_le _, fun hcontrol => by cases hcontrol⟩
  · intro t m n ch ch' more t' hlen _
    exact Nat.le_of_succ_le hlen

theorem fieldLoop_onward (p : Parser) (m : Marks) (ch : Byte) (rest : Bytes) :
    (fieldLoop p m 0 ch rest).Onward .headerField rest := by
  refine scan_onward (fun t m n ch more pass hlen hleft => ?_) p m 0 ch
  simp only [fieldBody] at hleft
  grind [Pass.Onward]

theorem valueLoop_onward (p : Parser) (m : Marks) (ch : Byte) (rest : Bytes) :
    (valueLoop p m 0 ch rest).Onward .headerValue rest := by
  refine scan_onward (fun t m n ch more pass hlen hleft => ?_) _ m 0 ch
  simp only [valueBody] at hleft
  grind [Pass.Onward, State.again]

theorem takeBody_rest_le {p : Parser} (hp : p.contentLength ≠ 0) (m : Marks) (ch : Byte)
    (rest : Bytes) : (takeBody p m ch rest).2.2.2.length ≤ rest.length := by
  simp only [takeBody, List.length_drop, List.length_cons]
  omega

theorem pass_onward (p : Parser) (m : Marks) (ch : Byte) (rest : Bytes) :
    (pass p m ch rest).Onward p.state rest := by
  have hbody : p.contentLength ≠ 0 → _ := fun hp => takeBody_rest_le hp m ch rest
  unfold pass
  split
  · rename_i hs
    rw [hs]
    exact fieldLoop_onward p m ch rest
  · rename_i hs
    rw [hs]
    exact valueLoop_onward p m ch rest
  · rename_i hs
    unfold bodyIdentity
    grind [Pass.Onward, State.again]
  · intro p m call control hgo
    cases hgo
    exact ⟨Nat.zero_le _, fun hcontrol => by cases hcontrol⟩
  · rename_i hs
    unfold chunkData
    grind [Pass.Onward, State.again]
  · intro p' m' call control hgo
    refine ⟨Nat.le_refl _, ?_⟩
    rintro rfl
    exact switch_reexecute hgo

theorem countHeaderSize_rank (p : Parser) (n : Nat) (rest : Bytes) {next : Parser → Point} {k : Nat}
    (hk : 0 < k) (hnext : (next (p.read n)).rank < k) :
    (countHeaderSize p n rest next).rank < k := by
  simp only [countHeaderSize]
  split
  · exact hk
  · exact hnext

/-- Behind a pass less is left to do. -/
theorem Control.point_rank {s : State} {ch' : Byte} {rest rest' : Bytes} {p p' : Parser} {m : Marks}
    {call : Option ParserEvent} {control : Control} {out : Pass} (h : out.Onward s rest)
    (hout : out = ⟨.go p m call control, ch', rest'⟩) (hstate : p'.state = p.state) :
    (control.point p' m ch' rest').rank < 12 * rest.length + 9 + s.again := by
  obtain ⟨hrest, hagain⟩ := h p m call control (congrArg Pass.out hout)
  rw [hout] at hrest
  change rest'.length ≤ rest.length at hrest
  cases control with
  | next => simp only [point, Point.rank]; omega
  | count n => simp only [point, Point.rank]; omega
  | reexecute =>
    have hless := hagain rfl
    simp only [point, Point.rank, hstate]
    omega
  | leave => simp only [point, Point.rank]; omega

theorem turn_pass {x x' : Point} (h : turn x = .pass x') : x'.rank < x.rank := by
  cases x with
  | head p m rest =>
    cases rest with
    | nil =>
      rw [turn, Lib.Turn.pass.injEq] at h
      rw [← h]
      split
      · exact Nat.lt_succ_self _
      · exact Nat.zero_lt_succ _
    | cons ch rest =>
      have hlabel (q : Parser) : (Point.label q m ch rest).rank < (Point.head p m (ch :: rest)).rank := by
        have hle := q.state.again_le
        simp only [Point.rank, List.length_cons]
        omega
      rw [turn, Lib.Turn.pass.injEq] at h
      rw [← h]
      split
      · exact countHeaderSize_rank p 1 rest (Nat.zero_lt_of_lt (hlabel p)) (hlabel _)
      · exact hlabel p
  | label p m ch rest =>
    have honward := pass_onward p m ch rest
    rw [turn] at h
    unfold Pass.turn at h
    split at h
    · rename_i hpass
      rw [Lib.Turn.pass.injEq] at h
      rw [← h]
      exact Control.point_rank honward hpass rfl
    · cases h
    · cases h
      simp only [stop, Point.rank]
      omega
    · cases h
      simp only [Point.rank]
      omega
  | count n p m ch rest =>
    rw [turn, Lib.Turn.pass.injEq] at h
    rw [← h]
    exact countHeaderSize_rank p n rest (Nat.zero_lt_succ _) (Nat.lt_succ_self _)
  | flush left p m =>
    cases left with
    | nil =>
      cases h
      exact Nat.zero_lt_succ _
    | cons k left =>
      rw [turn] at h
      split at h
      · cases h
        exact Nat.lt_succ_self _
      · cases h
  | ended r => cases h

theorem turn_ask {x : Point} {e : ParserEvent} {next : Int → Point} (h : turn x = .ask e next)
    (answer : Int) : (next answer).rank < x.rank := by
  cases x with
  | head p m rest => cases rest <;> cases h
  | label p m ch rest =>
    have honward := pass_onward p m ch rest
    rw [turn] at h
    unfold Pass.turn at h
    split at h
    · cases h
    · rename_i hpass
      cases h
      unfold answered
      split
      · exact Control.point_rank honward hpass rfl
      · split
        · exact Control.point_rank honward hpass rfl
        · split
          · exact Control.point_rank honward hpass rfl
          · simp only [stop, Point.rank]
            omega
    · cases h
    · cases h
  | count n p m ch rest => cases h
  | flush left p m =>
    cases left with
    | nil => cases h
    | cons k left =>
      rw [turn] at h
      split at h
      · cases h
      · cases h
        dsimp only
        split
        · exact Nat.lt_succ_self _
        · exact Nat.zero_lt_succ _
  | ended r => cases h

/-- The loop of one call. -/
def loop : Lib.Dialogue Point ParserEvent Int Result where
  turn
  rank := Point.rank
  pass_lt := turn_pass
  ask_lt := turn_ask

/-! ## The call -/

/-- A call with no data, which stands for the end of the stream: what it returns. -/
def executeEof {C : Type} (on : C → ParserEvent → Int × C) (p : Parser) (c : C) :
    C × Parser × Nat :=
  match p.state with
  | .bodyIdentityEof =>
    let (answer, c) := on c .messageComplete
    (c, if answer = 0 then p else { p with httpErrno := .cbMessageComplete }, 0)
  | .dead | .startReqOrRes | .startRes | .startReq => (c, p, 0)
  | _ => (c, { p with httpErrno := .invalidEofState }, 1)

/-- What a call makes of the result of its loop, with `len` bytes of data. -/
def outcome {C : Type} (len : Nat) : C × Result → Option (C × Parser × Nat)
  | (c, .returned p unread) => some (c, p, len - unread)
  | (_, .aborted) => none

/-- `http_parser_execute`: the state of the callbacks, the parser and the result, or `none` where an
assertion fails. -/
def execute {C : Type} (on : C → ParserEvent → Int × C) (p : Parser) (c : C) (data : Bytes) :
    Option (C × Parser × Nat) :=
  if p.httpErrno ≠ .ok then some (c, p, 0)
  else if data = [] then some (executeEof on p c)
  else outcome data.length (loop.run on c (.head p (.start p.state) data))

end Tubekit.HttpExecute
