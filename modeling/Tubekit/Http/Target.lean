import Tubekit.Buffer.Model

/-!
# Request targets

The part of `http_parser_execute` that reads the target of a request (`parse_url_char` and the
states before the target is reported), with `HTTP_PARSER_STRICT` set.
-/

namespace Tubekit

/-- The states `s_req_…` of the target, and `s_dead`. -/
inductive UrlState where
  | spacesBeforeUrl
  | schema
  | schemaSlash
  | schemaSlashSlash
  | serverStart
  | server
  | serverWithAt
  | path
  | queryStringStart
  | queryString
  | fragmentStart
  | fragment
  | dead
  deriving DecidableEq

namespace UrlState

def isAlpha (ch : Byte) : Bool := decide (97 ≤ ch ||| 0x20 ∧ ch ||| 0x20 ≤ 122)
def isNum (ch : Byte) : Bool := decide (48 ≤ ch ∧ ch ≤ 57)

/-- `-`, `_`, `.`, `!`, `~`, `*`, `'`, `(` and `)`. -/
def isMark (ch : Byte) : Bool := [45, 95, 46, 33, 126, 42, 39, 40, 41].contains ch

/-- Letters, digits, marks and `%`, `;`, `:`, `&`, `=`, `+`, `$`, `,`. -/
def isUserinfoChar (ch : Byte) : Bool :=
  isAlpha ch || isNum ch || isMark ch || [37, 59, 58, 38, 61, 43, 36, 44].contains ch

/-- `normal_url_char`: what can be printed, but for `#` and `?`. -/
def isUrlChar (ch : Byte) : Bool := decide (33 ≤ ch ∧ ch ≤ 126 ∧ ch ≠ 35 ∧ ch ≠ 63)

/-- The cases `s_req_server_start` and `s_req_server`. -/
def serverChar (ch : Byte) : UrlState :=
  if ch = 47 then .path
  else if ch = 63 then .queryStringStart
  else if ch = 64 then .serverWithAt
  else if isUserinfoChar ch || ch == 91 || ch == 93 then .server
  else .dead

def parseUrlChar (s : UrlState) (ch : Byte) : UrlState :=
  if ch = 32 ∨ ch = 13 ∨ ch = 10 ∨ ch = 9 ∨ ch = 12 then .dead
  else
    match s with
    | .spacesBeforeUrl => if ch = 47 ∨ ch = 42 then .path else if isAlpha ch then .schema else .dead
    | .schema => if isAlpha ch then .schema else if ch = 58 then .schemaSlash else .dead
    | .schemaSlash => if ch = 47 then .schemaSlashSlash else .dead
    | .schemaSlashSlash => if ch = 47 then .serverStart else .dead
    | .serverWithAt => if ch = 64 then .dead else serverChar ch
    | .serverStart => serverChar ch
    | .server => serverChar ch
    | .path =>
      if isUrlChar ch then .path
      else if ch = 63 then .queryStringStart
      else if ch = 35 then .fragmentStart
      else .dead
    | .queryStringStart =>
      if isUrlChar ch || ch == 63 then .queryString else if ch = 35 then .fragmentStart else .dead
    | .queryString =>
      if isUrlChar ch || ch == 63 then .queryString else if ch = 35 then .fragmentStart else .dead
    | .fragmentStart =>
      if isUrlChar ch || ch == 63 then .fragment else if ch = 35 then .fragmentStart else .dead
    | .fragment => if isUrlChar ch || ch == 63 || ch == 35 then .fragment else .dead
    | .dead => .dead

/-- A blank ends the target in this state. -/
def mayEnd : UrlState → Bool
  | .server | .serverWithAt | .path | .queryStringStart | .queryString | .fragmentStart | .fragment =>
    true
  | _ => false

end UrlState

/-- The parser accepts the target of a request, where `connect` says that its method is `CONNECT`. -/
def acceptsTarget (connect : Bool) (target : List Byte) : Bool :=
  (target.foldl UrlState.parseUrlChar
    (if connect then .serverStart else .spacesBeforeUrl)).mayEnd

end Tubekit
