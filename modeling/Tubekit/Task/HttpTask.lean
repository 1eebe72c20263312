import Tubekit.Connection.Transfer

/-!
# `http_task`

The parser callbacks that `http_task` installs and `http_task::run` on the connection of its
gid. A run is given what it gets from outside (`HttpTurn`): the answers of the socket, and what
the callbacks of the application do to the connection. What leaves the connection is recorded
as a list of `HttpOutput`s: the bytes sent, what a callback is called with, and what is asked
of `socket_handler` and `connection_mgr`.
-/

namespace Tubekit

open Lib

/-- What becomes of `SSL_accept`, where it is called. -/
inductive SslAccept where
  | notNeeded
  | accepted
  | waiting (listenSend : Bool)
  | failed
  deriving DecidableEq

/-- What an application callback can do to its http connection. -/
inductive HttpAct where
  | write (source : Option MemoryBlock)
  | setResponseEnd (responseEnd : Bool)
  | setEverythingEnd (everythingEnd : Bool)
  | setProcessEnd (processEnd : Bool)
  | setRecvEnd (recvEnd : Bool)
  | setWriteEndCallback (callback : Option Nat)
  | setDestoryCallback (callback : Option Nat)
  | setPtr (ptr : Option Nat)
  | addChunk (chunk : Bytes)
  | setUrl (url : Bytes)
  | markClose

/-- A call of an application callback: what it does, and whether it throws in the end. -/
structure HttpScript where
  acts : List HttpAct
  throws : Bool

/-- What an application callback can see of the request. -/
structure HttpView where
  url : Bytes
  method : Bytes
  headers : HeaderMap
  body : Bytes
  chunks : List Bytes
  data : Bytes
  ptr : Option Nat

inductive HttpOutput where
  | processCallback (callback : Nat) (view : HttpView)
  | writeEndCallback (callback : Nat) (view : HttpView)
  | destoryCallback (callback : Nat) (view : HttpView)
  | wrote (result : Except BufferError Nat)
  | sent (bytes : Bytes)
  | attach (listenSend : Bool)
  | doTask
  | remove

/-- What one run gets from outside. Where a list of answers ends, the socket answers
`EAGAIN`. -/
structure HttpTurn where
  ssl : SslAccept
  recv : List (SockRecv httpBufferSize)
  send : List SockSend
  process : HttpScript
  writeEnd : HttpScript
  destory : HttpScript

/-- `http_app::on_body`. -/
def onBody (bodySize : Nat) : Int := if bodySize > 1024 then -1 else 0

/-- The callbacks that `http_app::process_connection` installs. -/
def httpAppDestory : Nat := 0
def httpAppProcess : Nat := 1

namespace HttpConnection

variable {P : Type}

def view (c : HttpConnection P) : HttpView :=
  { url := c.url
    method := c.method
    headers := c.headers
    body := c.body
    chunks := c.chunks
    data := c.data
    ptr := c.ptr }

/-- The parser callbacks. -/
def callback (c : HttpConnection P) : ParserEvent → Int × HttpConnection P
  | .messageBegin method => (0, { c with method })
  | .url data => (0, { c with url := data })
  | .status _ => (0, c)
  | .headerField data => (0, { c with headFieldTmp := data })
  | .headerValue data => (0, c.addHeader c.headFieldTmp data)
  | .headersComplete => (0, c)
  | .body data => (onBody (c.addToBody data).body.length, c.addToBody data)
  | .messageComplete => (0, { c with recvEnd := true })
  | .chunkHeader => (0, c)
  | .chunkComplete => (0, c)

def act (c : HttpConnection P) : HttpAct → List HttpOutput × HttpConnection P
  | .write source =>
    let (result, b) := c.sendBuffer.write (source.map (·.bytes))
    ([.wrote result], { c with sendBuffer := b })
  | .setResponseEnd responseEnd => ([], { c with responseEnd })
  | .setEverythingEnd everythingEnd => ([], { c with everythingEnd })
  | .setProcessEnd processEnd => ([], { c with processEnd })
  | .setRecvEnd recvEnd => ([], { c with recvEnd })
  | .setWriteEndCallback callback => ([], { c with writeEndCallback := callback })
  | .setDestoryCallback callback => ([], { c with destoryCallback := callback })
  | .setPtr ptr => ([], { c with ptr })
  | .addChunk chunk => ([], { c with chunks := c.chunks ++ [chunk] })
  | .setUrl url => ([], { c with url })
  | .markClose =>
    let (task, c) := c.markClose
    (if task then [.doTask] else [], c)

def acts (c : HttpConnection P) : List HttpAct → List HttpOutput × HttpConnection P
  | [] => ([], c)
  | a :: rest =>
    let (out, c) := c.act a
    let (outs, c) := acts c rest
    (out ++ outs, c)

/-- A callback inside its `try` block, where an exception sets `everything_end`. -/
def attempt (c : HttpConnection P) (script : HttpScript) : List HttpOutput × HttpConnection P :=
  let (outs, c) := c.acts script.acts
  (outs, if script.throws then { c with everythingEnd := true } else c)

/-! ## `http_task::run` -/

/-- The loop that reads from the socket. -/
def readLoop (h : HttpParser P) (c : HttpConnection P) :
    List (SockRecv httpBufferSize) → HttpConnection P
  | [] => { c with bufferUsedLen := 0 }
  | .failed .eagain :: _ => { c with bufferUsedLen := 0 }
  | .failed .eintr :: answers => readLoop h { c with bufferUsedLen := 0 } answers
  | .block data :: answers =>
    let c := { c with
      buffer := Memory.store c.buffer 0 data.bytes
      bufferUsedLen := data.bytes.length }
    let (c, out) := h.execute callback c.httpParser c (Memory.load c.buffer 0 data.bytes.length)
    let c := { c with httpParser := out.parser }
    if out.upgrade then readLoop h c answers
    else if out.nparsed ≠ data.bytes.length then
      { c with bufferUsedLen := 0, everythingEnd := true }
    else readLoop h c answers
  | .eof :: _ => { c with bufferUsedLen := 0, everythingEnd := true }
  | .failed .other :: _ => { c with bufferUsedLen := -1, everythingEnd := true }

def read (h : HttpParser P) (c : HttpConnection P) (answers : List (SockRecv httpBufferSize)) :
    HttpConnection P :=
  if !c.recvEnd && !c.everythingEnd then readLoop h { c with bufferUsedLen := 0 } answers else c

def process (c : HttpConnection P) (script : HttpScript) : List HttpOutput × HttpConnection P :=
  if !c.everythingEnd && c.recvEnd && !c.processEnd then
    let c := { c with
      processEnd := true
      destoryCallback := some httpAppDestory
      processCallback := some httpAppProcess }
    match c.processCallback with
    | some callback =>
      let (outs, c') := c.attempt script
      (.processCallback callback c.view :: outs, c')
    | none => ([], { c with everythingEnd := true })
  else ([], c)

/-- The loop that sends what is in `buffer`; the socket takes at most what it is offered. -/
def sendLoop (c : HttpConnection P) : List SockSend → List HttpOutput × HttpConnection P
  | [] => ([], c)
  | answer :: answers =>
    if c.bufferUsedLen > c.bufferStartUse then
      match answer with
      | .failed .eintr => sendLoop c answers
      | .failed .eagain => ([], c)
      | .failed .other => ([], { c with responseEnd := true, everythingEnd := true })
      | .took 0 => ([], { c with everythingEnd := true })
      | .took (k + 1) =>
        let sended := min (k + 1) (c.bufferUsedLen - c.bufferStartUse).toNat
        let bytes := Memory.load c.buffer c.bufferStartUse.toNat sended
        let (outs, c) := sendLoop { c with bufferStartUse := c.bufferStartUse + sended } answers
        (.sent bytes :: outs, c)
    else ([], c)

/-- `buffer_start_use == buffer_used_len`, and then the size of `m_send_buffer`. -/
def drained (c : HttpConnection P) : Option Nat × HttpConnection P :=
  if c.bufferStartUse = c.bufferUsedLen then
    let (size, b) := c.sendBuffer.canReadableSize
    (some size, { c with sendBuffer := b })
  else (none, c)

/-- Call the `write_end_callback` when all content has been sent. -/
def notify (c : HttpConnection P) (script : HttpScript) : List HttpOutput × HttpConnection P :=
  match c.drained with
  | (some 0, c) =>
    if !c.responseEnd then
      match c.writeEndCallback with
      | some callback =>
        let (outs, c') := c.attempt script
        (.writeEndCallback callback c.view :: outs, c')
      | none => ([], { c with everythingEnd := true })
    else ([], c)
  | (_, c) => ([], c)

/-- Fill `buffer` from `m_send_buffer` for the next write. -/
def refill (c : HttpConnection P) : HttpConnection P :=
  match c.drained with
  | (some (_ + 1), c) =>
    let c :=
      match c.sendBuffer.read true (httpBufferSize - 1) with
      | (.ok bytes, b) => { c with
          sendBuffer := b
          buffer := Memory.store c.buffer 0 bytes
          bufferUsedLen := bytes.length }
      | (.error _, b) => { c with sendBuffer := b }
    { c with
      buffer := Memory.store c.buffer c.bufferUsedLen.toNat [0]
      bufferStartUse := 0 }
  | (_, c) => c

/-- The response is over when all of it has been sent. -/
def finish (c : HttpConnection P) : HttpConnection P :=
  match c.drained with
  | (some 0, c) => if c.responseEnd then { c with everythingEnd := true } else c
  | (_, c) => c

def write (c : HttpConnection P) (turn : HttpTurn) : List HttpOutput × HttpConnection P :=
  if !c.everythingEnd && c.processEnd then
    let (sent, c) := c.sendLoop turn.send
    let (outs, c) := c.notify turn.writeEnd
    (sent ++ outs, c.refill.finish)
  else ([], c)

/-- Wait for the socket, or mark the connection closed. -/
def wait (c : HttpConnection P) : List HttpOutput × HttpConnection P :=
  if !c.everythingEnd && !c.recvEnd then ([.attach false], c)
  else if !c.everythingEnd then ([.attach true], c)
  else { c with everythingEnd := true }.act .markClose

/-- The part of a run after the SSL handshake: read, process, write, wait. -/
def serve (h : HttpParser P) (c : HttpConnection P) (turn : HttpTurn) :
    List HttpOutput × HttpConnection P :=
  let c := c.read h turn.recv
  let (processed, c) := c.process turn.process
  let (written, c) := c.write turn
  let (outs, c) := c.wait
  (processed ++ written ++ outs, c)

/-- `http_task::run` on the connection it finds. -/
def run (h : HttpParser P) (c : HttpConnection P) (turn : HttpTurn) :
    List HttpOutput × HttpConnection P :=
  if c.closeFlag then
    match c.destoryCallback with
    | some callback =>
      let (outs, c') := c.acts turn.destory.acts
      (.destoryCallback callback c.view :: outs ++ [.remove], c')
    | none => ([.remove], c)
  else
    match turn.ssl with
    | .waiting listenSend => ([.attach listenSend], c)
    | .failed => c.act .markClose
    | _ => c.serve h turn

/-- One run after the other. -/
def runs (h : HttpParser P) (c : HttpConnection P) : List HttpTurn → List HttpOutput × HttpConnection P
  | [] => ([], c)
  | turn :: turns =>
    let (outs, c) := c.run h turn
    let (rest, c) := runs h c turns
    (outs ++ rest, c)

end HttpConnection

end Tubekit
