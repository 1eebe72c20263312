import Tubekit.Http.Parser

/-!
# The state of `http_parser`

The enumerations, the classes of characters and `struct http_parser` of `external/http-parser`, with
the functions that only read them. It is built with its defaults, so `HTTP_PARSER_STRICT` is `1` and
the assertions are checked.

`data`, the pointer to the connection, is the state of the callbacks in `Tubekit.Http.Execute`.
-/

namespace Tubekit.HttpExecute

/-! ## Characters -/

def chr (c : Char) : Byte := UInt8.ofNat c.toNat

def chars (s : String) : Bytes := s.toList.map chr

def CR : Byte := 13
def LF : Byte := 10
def HT : Byte := 9
def SP : Byte := 32

/-- `LOWER`. -/
def lower (c : Byte) : Byte := c ||| 0x20

def isAlpha (c : Byte) : Bool := chr 'a' ≤ lower c && lower c ≤ chr 'z'

def isNum (c : Byte) : Bool := chr '0' ≤ c && c ≤ chr '9'

def isAlphanum (c : Byte) : Bool := isAlpha c || isNum c

def isMark (c : Byte) : Bool := (chars "-_.!~*'()").contains c

def isUserinfoChar (c : Byte) : Bool := isAlphanum c || isMark c || (chars "%;:&=+$,").contains c

/-- The table `tokens`: letters in lower case, and what else may be in a token. -/
def tokens (c : Byte) : Byte :=
  if isAlpha c then lower c
  else if isNum c || (chars " !#$%&'*+-.^_`|~").contains c then c
  else 0

def strictToken (c : Byte) : Byte := if c = SP then 0 else tokens c

/-- `TOKEN`. -/
def token (c : Byte) : Byte := strictToken c

/-- `IS_URL_CHAR`: the bits that are set in the table `normal_url_char`. -/
def isUrlChar (c : Byte) : Bool :=
  chr '!' ≤ c && c ≤ chr '~' && c != chr '#' && c != chr '?'

def isHeaderChar (c : Byte) : Bool := c == CR || c == LF || c == 9 || (31 < c && c != 127)

/-- The table `unhex`, where `none` is `-1`. Its initializer ends with the first 128 entries, so the
others are `0`. -/
def unhex (c : Byte) : Option Nat :=
  if 128 ≤ c then some 0
  else if isNum c then some (c.toNat - 48)
  else if chr 'a' ≤ lower c && lower c ≤ chr 'f' then some ((lower c).toNat - 87)
  else none

/-! ## Enumerations -/

inductive HttpMethod
  | delete | get | head | post | put | connect | options | trace | copy | lock | mkcol | move
  | propfind | proppatch | search | unlock | bind | rebind | unbind | acl | report | mkactivity
  | checkout | merge | msearch | notify | subscribe | unsubscribe | patch | purge | mkcalendar
  | link | unlink | source
  deriving DecidableEq

/-- `method_strings`, which `http_method_str` reads. -/
def HttpMethod.str : HttpMethod → Bytes
  | .delete => chars "DELETE"
  | .get => chars "GET"
  | .head => chars "HEAD"
  | .post => chars "POST"
  | .put => chars "PUT"
  | .connect => chars "CONNECT"
  | .options => chars "OPTIONS"
  | .trace => chars "TRACE"
  | .copy => chars "COPY"
  | .lock => chars "LOCK"
  | .mkcol => chars "MKCOL"
  | .move => chars "MOVE"
  | .propfind => chars "PROPFIND"
  | .proppatch => chars "PROPPATCH"
  | .search => chars "SEARCH"
  | .unlock => chars "UNLOCK"
  | .bind => chars "BIND"
  | .rebind => chars "REBIND"
  | .unbind => chars "UNBIND"
  | .acl => chars "ACL"
  | .report => chars "REPORT"
  | .mkactivity => chars "MKACTIVITY"
  | .checkout => chars "CHECKOUT"
  | .merge => chars "MERGE"
  | .msearch => chars "M-SEARCH"
  | .notify => chars "NOTIFY"
  | .subscribe => chars "SUBSCRIBE"
  | .unsubscribe => chars "UNSUBSCRIBE"
  | .patch => chars "PATCH"
  | .purge => chars "PURGE"
  | .mkcalendar => chars "MKCALENDAR"
  | .link => chars "LINK"
  | .unlink => chars "UNLINK"
  | .source => chars "SOURCE"

/-- `enum http_parser_type`. -/
inductive ParserType
  | request | response | both
  deriving DecidableEq

/-- `enum state`. -/
inductive State
  | dead
  | startReqOrRes | resOrRespH | startRes | resH | resHT | resHTT | resHTTP | resHttpMajor
  | resHttpDot | resHttpMinor | resHttpEnd | resFirstStatusCode | resStatusCode | resStatusStart
  | resStatus | resLineAlmostDone
  | startReq
  | reqMethod | reqSpacesBeforeUrl | reqSchema | reqSchemaSlash | reqSchemaSlashSlash
  | reqServerStart | reqServer | reqServerWithAt | reqPath | reqQueryStringStart | reqQueryString
  | reqFragmentStart | reqFragment | reqHttpStart | reqHttpH | reqHttpHT | reqHttpHTT | reqHttpHTTP
  | reqHttpI | reqHttpIC | reqHttpMajor | reqHttpDot | reqHttpMinor | reqHttpEnd
  | reqLineAlmostDone
  | headerFieldStart | headerField | headerValueDiscardWs | headerValueDiscardWsAlmostDone
  | headerValueDiscardLws | headerValueStart | headerValue | headerValueLws
  | headerAlmostDone
  | chunkSizeStart | chunkSize | chunkParameters | chunkSizeAlmostDone
  | headersAlmostDone | headersDone
  | chunkData | chunkDataAlmostDone | chunkDataDone
  | bodyIdentity | bodyIdentityEof
  | messageDone
  deriving DecidableEq

/-- `PARSING_HEADER`: the states up to `s_headers_done`. -/
def State.parsingHeader : State → Bool
  | .chunkData | .chunkDataAlmostDone | .chunkDataDone | .bodyIdentity | .bodyIdentityEof
  | .messageDone => false
  | _ => true

/-- `enum header_states`. -/
inductive HeaderState
  | general | C | CO | CON
  | matchingConnection | matchingProxyConnection | matchingContentLength
  | matchingTransferEncoding | matchingUpgrade
  | connection | contentLength | contentLengthNum | contentLengthWs | transferEncoding | upgrade
  | matchingTransferEncodingTokenStart | matchingTransferEncodingChunked
  | matchingTransferEncodingToken
  | matchingConnectionTokenStart | matchingConnectionKeepAlive | matchingConnectionClose
  | matchingConnectionUpgrade | matchingConnectionToken
  | transferEncodingChunked | connectionKeepAlive | connectionClose | connectionUpgrade
  deriving DecidableEq

/-- The `HPE_` numbers that `http_parser_execute` sets. -/
inductive HttpErrno
  | ok
  | cbMessageBegin | cbUrl | cbHeaderField | cbHeaderValue | cbHeadersComplete | cbBody
  | cbMessageComplete | cbStatus | cbChunkHeader | cbChunkComplete
  | invalidEofState | headerOverflow | closedConnection | invalidVersion | invalidStatus
  | invalidMethod | invalidUrl | lfExpected | invalidHeaderToken | invalidContentLength
  | unexpectedContentLength | invalidChunkSize | invalidConstant | strict
  | invalidTransferEncoding
  deriving DecidableEq

/-- The bits of `enum flags`. -/
structure Flags where
  chunked : Bool
  connectionKeepAlive : Bool
  connectionClose : Bool
  connectionUpgrade : Bool
  trailing : Bool
  upgrade : Bool
  skipBody : Bool
  contentLength : Bool
  deriving DecidableEq

def Flags.none : Flags := ⟨false, false, false, false, false, false, false, false⟩

/-! ## The parser -/

/-- `ULLONG_MAX`. -/
def ullongMax : Nat := 18446744073709551615

/-- `max_header_size`, which stays `HTTP_MAX_HEADER_SIZE`. -/
def maxHeaderSize : Nat := 81920

/-- `struct http_parser`. -/
structure Parser where
  type : ParserType
  flags : Flags
  state : State
  headerState : HeaderState
  index : Nat
  usesTransferEncoding : Bool
  allowChunkedLength : Bool
  lenientHttpHeaders : Bool
  nread : Nat
  contentLength : Nat
  httpMajor : Nat
  httpMinor : Nat
  statusCode : Nat
  method : HttpMethod
  httpErrno : HttpErrno
  upgrade : Bool
  deriving DecidableEq

namespace Parser

/-- `http_parser_init`. -/
def init (t : ParserType) : Parser :=
  { type := t
    flags := .none
    state :=
      match t with
      | .request => .startReq
      | .response => .startRes
      | .both => .startReqOrRes
    headerState := .general
    index := 0
    usesTransferEncoding := false
    allowChunkedLength := false
    lenientHttpHeaders := false
    nread := 0
    contentLength := 0
    httpMajor := 0
    httpMinor := 0
    statusCode := 0
    method := .delete
    httpErrno := .ok
    upgrade := false }

/-- `++parser->index`, a field of five bits. -/
def nextIndex (p : Parser) : Nat := (p.index + 1) % 32

/-- `http_message_needs_eof`. -/
def messageNeedsEof (p : Parser) : Bool :=
  if p.type = .request then false
  else if p.statusCode / 100 = 1 || p.statusCode = 204 || p.statusCode = 304 || p.flags.skipBody then
    false
  else if p.usesTransferEncoding && !p.flags.chunked then true
  else if p.flags.chunked || p.contentLength ≠ ullongMax then false
  else true

/-- `http_should_keep_alive`. -/
def shouldKeepAlive (p : Parser) : Bool :=
  if p.httpMajor > 0 && p.httpMinor > 0 then
    if p.flags.connectionClose then false else !p.messageNeedsEof
  else if !p.flags.connectionKeepAlive then false
  else !p.messageNeedsEof

/-- `start_state`. -/
def startState (p : Parser) : State := if p.type = .request then .startReq else .startRes

/-- `NEW_MESSAGE`. -/
def newMessage (p : Parser) : State := if p.shouldKeepAlive then p.startState else .dead

/-- What the states at the start of a message reset. -/
def reset (p : Parser) : Parser :=
  { p with flags := .none, usesTransferEncoding := false, contentLength := ullongMax }

/-- `nread += (uint32_t)(n)`. -/
def read (p : Parser) (n : Nat) : Parser := { p with nread := (p.nread + n) % 4294967296 }

end Parser

/-! ## The characters of a url -/

/-- `parse_url_char`. -/
def parseUrlChar (s : State) (ch : Byte) : State :=
  if ch = SP ∨ ch = CR ∨ ch = LF then .dead
  else if ch = HT ∨ ch = 12 then .dead
  else
    match s with
    | .reqSpacesBeforeUrl =>
      if ch = chr '/' ∨ ch = chr '*' then .reqPath
      else if isAlpha ch then .reqSchema
      else .dead
    | .reqSchema =>
      if isAlpha ch then s
      else if ch = chr ':' then .reqSchemaSlash
      else .dead
    | .reqSchemaSlash => if ch = chr '/' then .reqSchemaSlashSlash else .dead
    | .reqSchemaSlashSlash => if ch = chr '/' then .reqServerStart else .dead
    | .reqServerWithAt | .reqServerStart | .reqServer =>
      if s = .reqServerWithAt ∧ ch = chr '@' then .dead
      else if ch = chr '/' then .reqPath
      else if ch = chr '?' then .reqQueryStringStart
      else if ch = chr '@' then .reqServerWithAt
      else if isUserinfoChar ch ∨ ch = chr '[' ∨ ch = chr ']' then .reqServer
      else .dead
    | .reqPath =>
      if isUrlChar ch then s
      else if ch = chr '?' then .reqQueryStringStart
      else if ch = chr '#' then .reqFragmentStart
      else .dead
    | .reqQueryStringStart | .reqQueryString =>
      if isUrlChar ch then .reqQueryString
      else if ch = chr '?' then .reqQueryString
      else if ch = chr '#' then .reqFragmentStart
      else .dead
    | .reqFragmentStart =>
      if isUrlChar ch then .reqFragment
      else if ch = chr '?' then .reqFragment
      else if ch = chr '#' then s
      else .dead
    | .reqFragment =>
      if isUrlChar ch then s
      else if ch = chr '?' ∨ ch = chr '#' then s
      else .dead
    | _ => .dead

end Tubekit.HttpExecute
