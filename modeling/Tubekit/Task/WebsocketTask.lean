import Tubekit.Task.StreamTask

/-!
# `websocket_task`

The parser callbacks of `websocket_task` and `websocket_task::run`. Until the handshake is done
the bytes of the socket go to the http parser; afterwards a run is that of `stream_task`, with
another end. `accept` is the function from the key of the client to `Sec-WebSocket-Accept`,
that is the SHA-1 hash of the key with the fixed suffix, in base64.
-/

namespace Tubekit

open Lib

/-- The bytes of an ASCII text. -/
def ascii (text : String) : Bytes := text.toList.map fun c => UInt8.ofNat c.toNat

/-- The base64 text of a SHA-1 hash. -/
abbrev AcceptKey := { text : Bytes // text.length = 28 }

namespace WebsocketConnection

variable {P : Type}

/-- The parser callbacks. -/
def callback (c : WebsocketConnection P) : ParserEvent → Int × WebsocketConnection P
  | .messageBegin method => (if method ≠ ascii "GET" then -1 else 0, { c with method })
  | .url data => (0, { c with url := data })
  | .status _ => (0, c)
  | .headerField data => (0, { c with headFiledTmp := data })
  | .headerValue data => (0, c.addHeader c.headFiledTmp data)
  | .headersComplete => (0, { c with httpProcessed := true })
  | .body _ => (0, c)
  | .messageComplete => (0, { c with httpProcessed := true })
  | .chunkHeader => (-1, c)
  | .chunkComplete => (-1, c)

/-- The loop that reads the request of the handshake. -/
def readLoop (h : HttpParser P) (c : WebsocketConnection P) :
    List (SockRecv httpBufferSize) → WebsocketConnection P
  | [] => { c with bufferUsedLen := -1, bufferStartUse := 0 }
  | .failed .eagain :: _ => { c with bufferUsedLen := -1, bufferStartUse := 0 }
  | .failed .eintr :: answers => readLoop h { c with bufferUsedLen := 0 } answers
  | .block data :: answers =>
    let c := { c with
      buffer := Memory.store c.buffer 0 data.bytes
      bufferUsedLen := data.bytes.length }
    let (c, out) := h.execute callback c.httpParser c (Memory.load c.buffer 0 data.bytes.length)
    let c := { c with httpParser := out.parser }
    if out.upgrade then readLoop h { c with isUpgrade := true, bufferUsedLen := 0 } answers
    else if out.nparsed ≠ data.bytes.length then
      { c with bufferUsedLen := 0, everythingEnd := true, httpProcessed := true }
    else readLoop h { c with bufferUsedLen := 0 } answers
  | .eof :: _ => { c with bufferUsedLen := 0, httpProcessed := true, everythingEnd := true }
  | .failed .other :: _ => { c with
      bufferUsedLen := -1
      httpProcessed := true
      everythingEnd := true }

/-- The first value of a header, if the header is there. -/
def firstValue (c : WebsocketConnection P) (key old : Bytes) : Bytes :=
  match c.headers key with
  | some (value :: _) => value
  | _ => old

/-- Take the two headers of the handshake over from `headers`. -/
def examine (c : WebsocketConnection P) : WebsocketConnection P :=
  { c with
    secWebsocketKey := c.firstValue (ascii "Sec-WebSocket-Key") c.secWebsocketKey
    secWebsocketVersion := c.firstValue (ascii "Sec-WebSocket-Version") c.secWebsocketVersion }

/-- The response that accepts the connection. -/
def handshakeResponse (accept : Bytes → AcceptKey) (key : Bytes) : Bytes :=
  ascii "HTTP/1.1 101 Switching Protocols\r\n" ++ ascii "Upgrade: websocket\r\n" ++
    ascii "Connection: Upgrade\r\n" ++ ascii "Sec-WebSocket-Accept: " ++ (accept key).1 ++
    ascii "\r\n\r\n"

/-- Process the connect protocol. -/
def connect (accept : Bytes → AcceptKey) (c : WebsocketConnection P) :
    List EndpointOutput × WebsocketConnection P :=
  if !c.connected && c.httpProcessed && !c.everythingEnd then
    let examined := EndpointOutput.handshake c.url c.headers
    let c := c.examine
    if c.secWebsocketKey = [] ∨ c.secWebsocketVersion ≠ ascii "13" then
      ([examined], { c with everythingEnd := true })
    else
      let (out, c) := c.send (some (handshakeResponse accept c.secWebsocketKey)) false
      (examined :: if out.doTask then [.doTask] else [], c.setConnected true)
  else ([], c)

/-- `mark_close`, and return. -/
def closing (c : WebsocketConnection P) : Endpoint.Phase P :=
  .returned (Endpoint.websocket c).markClose.1 (Endpoint.websocket c).markClose.2

/-- What follows the read loop: wait for more, give up, or process the connect protocol. -/
def respond (accept : Bytes → AcceptKey) (c : WebsocketConnection P) : Endpoint.Phase P :=
  if !c.httpProcessed && !c.everythingEnd then .returned [.attach false] (.websocket c)
  else if !(c.httpProcessed && c.isUpgrade) then c.closing
  else .next (c.connect accept).1 (.websocket (c.connect accept).2)

/-- The part of a run up to the end of the handshake. -/
def greet (h : HttpParser P) (accept : Bytes → AcceptKey) (c : WebsocketConnection P)
    (answers : List (SockRecv httpBufferSize)) : Endpoint.Phase P :=
  if c.connected = false then
    if c.httpProcessed then c.closing
    else (readLoop h { c with bufferUsedLen := 0 } answers).respond accept
  else c.respond accept

end WebsocketConnection

namespace Endpoint

variable {P : Type}

/-- The end of `websocket_task::run`. -/
def websocketEnd (e : Endpoint P) : List EndpointOutput × Endpoint P :=
  match e with
  | .websocket c => if c.everythingEnd then e.markClose else ([.attach false], e)
  | .stream _ => ([.attach false], e)

/-- `websocket_task::run`, where the connection is up. -/
def websocketData (e : Endpoint P) (turn : EndpointTurn) :
    Option (List EndpointOutput × Endpoint P) :=
  (e.recvData turn.recv).andThen fun e =>
    (e.processData turn.process).andThen fun e =>
      match e.buf2sock turn.writeEnd .tag1 turn.send with
      | none => none
      | some (sent, bSend, bClosed, e) =>
        if bClosed then
          let (outs, e) := e.markClose
          some (sent ++ outs ++ e.websocketEnd.1, e.websocketEnd.2)
        else if bSend then some (sent ++ [.attach bSend], e)
        else some (sent ++ e.websocketEnd.1, e.websocketEnd.2)

/-- `websocket_task::run` on the connection it finds. -/
def websocketRun (h : HttpParser P) (accept : Bytes → AcceptKey) (c : WebsocketConnection P)
    (turn : EndpointTurn) : Option (List EndpointOutput × Endpoint P) :=
  match (Endpoint.websocket c).checkOpen turn.ssl with
  | .returned outs e =>
    some ((if c.closeFlag then c.destoryCallback.toList.map .destoryCallback else []) ++ outs, e)
  | .next _ _ =>
    (c.greet h accept turn.handshake).andThen fun e =>
      match e with
      | .websocket c => if c.connected then e.websocketData turn else some e.websocketEnd
      | .stream _ => some e.websocketEnd

/-- The `run` of the task that belongs to the connection. -/
def run (h : HttpParser P) (accept : Bytes → AcceptKey) (e : Endpoint P) (turn : EndpointTurn) :
    Option (List EndpointOutput × Endpoint P) :=
  match e with
  | .stream _ => e.streamRun turn
  | .websocket c => websocketRun h accept c turn

/-- One run after the other. -/
def runs (h : HttpParser P) (accept : Bytes → AcceptKey) (e : Endpoint P) :
    List EndpointTurn → Option (List EndpointOutput × Endpoint P)
  | [] => some ([], e)
  | turn :: turns =>
    match e.run h accept turn with
    | none => none
    | some (outs, e) =>
      match runs h accept e turns with
      | none => none
      | some (rest, e) => some (outs ++ rest, e)

end Endpoint

end Tubekit
