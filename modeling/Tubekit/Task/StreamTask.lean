import Tubekit.Task.HttpTask

/-!
# `stream_task`

`stream_task::run` on the connection of its gid, and the parts of it that `websocket_task::run`
shares: both read from the socket into `m_recv_buffer`, let the application process the
connection and send what is queued. They are functions on `Endpoint`, which is either of the
two connections.

As for `http_task`, a run is given what comes from outside and records what leaves the
connection. A run is `none` where the socket claims to have taken more than it was offered, or
where the answers end before `buf2sock` does.
-/

namespace Tubekit

open Lib

/-- What the application can do to a stream or websocket connection. -/
inductive EndpointAct where
  | send (buffer : Option MemoryBlock) (checkConnected : Bool)
  /-- `can_readable_size` and `force_get_read_ptr` of `m_recv_buffer`. -/
  | look
  | readPtrMoveN (n : Nat)
  | read (n : Nat)
  | clearRecvBuffer
  | setWriteEndCallback (callback : Option Nat)
  /-- The members of a websocket connection that the application may set. -/
  | setConnected (connected : Bool)
  | setEverythingEnd (everythingEnd : Bool)
  | setDestoryCallback (callback : Option Nat)
  | markClose

/-- A call of `process_connection`: what it does, and whether it throws in the end. -/
structure EndpointScript where
  acts : List EndpointAct
  throws : Bool

inductive EndpointOutput where
  | sendResult (ret : Bool)
  /-- The content of `m_recv_buffer` as the application sees it. -/
  | recvContent (bytes : Bytes)
  | moved (ret : Bool)
  | read (result : Except BufferError Bytes)
  | writeEndCallback (callback : Nat)
  | destoryCallback (callback : Nat)
  /-- The url and the headers that are examined for the handshake. -/
  | handshake (url : Bytes) (headers : HeaderMap)
  | sent (bytes : Bytes)
  | attach (listenSend : Bool)
  | doTask
  | remove

/-- What one run gets from outside. -/
structure EndpointTurn where
  ssl : SslAccept
  /-- The answers of `recv` during the handshake of a websocket connection. -/
  handshake : List (SockRecv httpBufferSize)
  recv : List SockRecv
  process : EndpointScript
  send : List Staging.Outside
  writeEnd : List EndpointAct

namespace Endpoint

variable {P : Type}

def closeFlag : Endpoint P → Bool
  | .stream c => c.closeFlag
  | .websocket c => c.closeFlag

/-- `mark_close`, with the `do_task` that it may reach. -/
def markClose : Endpoint P → List EndpointOutput × Endpoint P
  | .stream c => (if c.markClose.1 then [.doTask] else [], .stream c.markClose.2)
  | .websocket c => (if c.markClose.1 then [.doTask] else [], .websocket c.markClose.2)

def setRecvBuffer (e : Endpoint P) (b : Buffer) : Endpoint P :=
  e.withStaging { e.staging with recvBuffer := b }

def act (e : Endpoint P) : EndpointAct → List EndpointOutput × Endpoint P
  | .send buffer checkConnected =>
    let (out, e) := e.send (buffer.map (·.bytes)) checkConnected
    (.sendResult out.ret :: if out.doTask then [.doTask] else [], e)
  | .look =>
    let (allDataLen, b) := e.staging.recvBuffer.canReadableSize
    let (data, b) := b.forceGetReadPtr
    ([.recvContent (Memory.load data 0 allDataLen)], e.setRecvBuffer b)
  | .readPtrMoveN n =>
    let (ret, b) := e.staging.recvBuffer.readPtrMoveN n
    ([.moved ret], e.setRecvBuffer b)
  | .read n =>
    let (result, b) := e.staging.recvBuffer.read true n
    ([.read result], e.setRecvBuffer b)
  | .clearRecvBuffer => ([], e.setRecvBuffer e.staging.recvBuffer.clear)
  | .setWriteEndCallback callback =>
    ([], e.withStaging { e.staging with writeEndCallback := callback })
  | .setConnected connected => ([], e.onWebsocket (·.setConnected connected))
  | .setEverythingEnd everythingEnd => ([], e.onWebsocket fun c => { c with everythingEnd })
  | .setDestoryCallback callback =>
    ([], e.onWebsocket fun c => { c with destoryCallback := callback })
  | .markClose => e.markClose

def acts (e : Endpoint P) : List EndpointAct → List EndpointOutput × Endpoint P
  | [] => ([], e)
  | a :: rest =>
    let (out, e) := e.act a
    let (outs, e) := acts e rest
    (out ++ outs, e)

/-- The socket takes at most what it is offered. -/
def offered (e : Endpoint P) (pc : Staging.Buf2sockPc) (sock : SockSend) : Bool :=
  match pc, sock with
  | .tag4, .took k => decide (k ≤ e.staging.shouldSendSize.toNat)
  | _, _ => true

/-- What a step of `buf2sock` shows. -/
def shown (pc : Staging.Buf2sockPc) (callback : Option Nat) (bytes : Bytes) : List EndpointOutput :=
  match pc, callback with
  | .callback, some callback => [.writeEndCallback callback]
  | .tag4, _ => [.sent bytes]
  | _, _ => []

/-- One step of `buf2sock`; `writeEnd` is what the `write_end_callback` does. -/
def buf2sockTurn (e : Endpoint P) (writeEnd : List EndpointAct) (pc : Staging.Buf2sockPc)
    (out : Staging.Outside) : List EndpointOutput × Staging.Buf2sockPc × Endpoint P :=
  let callback := e.staging.writeEndCallback
  let (acted, e) := if pc = .callback then e.acts writeEnd else ([], e)
  let (staging, pc', bytes) := e.staging.buf2sockStep out pc
  (shown pc callback bytes ++ acted, pc', e.withStaging staging)

/-- `buf2sock` from `pc` on: its result, `closed` and the connection it leaves. -/
def buf2sock (e : Endpoint P) (writeEnd : List EndpointAct) (pc : Staging.Buf2sockPc) :
    List Staging.Outside → Option (List EndpointOutput × Bool × Bool × Endpoint P)
  | [] =>
    match pc with
    | .done ret closed => some ([], ret, closed, e)
    | _ => none
  | out :: outs =>
    match pc with
    | .done ret closed => some ([], ret, closed, e)
    | _ =>
      if e.offered pc out.sock then
        let (shown, pc, e) := e.buf2sockTurn writeEnd pc out
        (e.buf2sock writeEnd pc outs).map fun (rest, result) => (shown ++ rest, result)
      else none

theorem buf2sock_nil (e : Endpoint P) (writeEnd : List EndpointAct) {pc : Staging.Buf2sockPc}
    (hpc : ∀ ret closed, pc ≠ .done ret closed) : e.buf2sock writeEnd pc [] = none := by
  cases pc <;> first | rfl | exact absurd rfl (hpc _ _)

theorem buf2sock_cons (e : Endpoint P) (writeEnd : List EndpointAct) {pc : Staging.Buf2sockPc}
    (hpc : ∀ ret closed, pc ≠ .done ret closed) (out : Staging.Outside)
    (outs : List Staging.Outside) :
    e.buf2sock writeEnd pc (out :: outs) =
      if e.offered pc out.sock then
        ((e.buf2sockTurn writeEnd pc out).2.2.buf2sock writeEnd
          (e.buf2sockTurn writeEnd pc out).2.1 outs).map
          fun r => ((e.buf2sockTurn writeEnd pc out).1 ++ r.1, r.2)
      else none := by
  cases pc <;> first | rfl | exact absurd rfl (hpc _ _)

/-- How a phase of a run ends: the run returns, or it goes on. -/
inductive Phase (P : Type) where
  | returned (outs : List EndpointOutput) (e : Endpoint P)
  | next (outs : List EndpointOutput) (e : Endpoint P)

/-- Read from the socket into `m_recv_buffer`. -/
def recvData (e : Endpoint P) (answers : List SockRecv) : Phase P :=
  let d := e.staging.sock2buf answers
  let e := e.withStaging d.staging
  if d.ret then .next [] e
  else if d.needTask then .next [.doTask] e
  else .returned e.markClose.1 e.markClose.2

/-- `process_connection` in its `try` block. -/
def processData (e : Endpoint P) (script : EndpointScript) : Phase P :=
  let (outs, e) := e.acts script.acts
  if script.throws then .returned (outs ++ e.markClose.1) e.markClose.2 else .next outs e

/-- Go on with the next phase. -/
def Phase.andThen (p : Phase P) (f : Endpoint P → Option (List EndpointOutput × Endpoint P)) :
    Option (List EndpointOutput × Endpoint P) :=
  match p with
  | .returned outs e => some (outs, e)
  | .next outs e =>
    match f e with
    | none => none
    | some (rest, e) => some (outs ++ rest, e)

/-- `stream_task::run`, where the connection is not closed. -/
def streamData (e : Endpoint P) (turn : EndpointTurn) : Option (List EndpointOutput × Endpoint P) :=
  (e.recvData turn.recv).andThen fun e =>
    (e.processData turn.process).andThen fun e =>
      match e.buf2sock turn.writeEnd .tag1 turn.send with
      | none => none
      | some (sent, bSend, bClosed, e) =>
        let (outs, e) := if bClosed then e.markClose else ([], e)
        some (sent ++ outs ++ [.attach bSend], e)

/-- The part of a run that deals with closed connections and with SSL. -/
def checkOpen (e : Endpoint P) (ssl : SslAccept) : Phase P :=
  if e.closeFlag then .returned [.remove] e
  else
    match ssl with
    | .waiting listenSend => .returned [.attach listenSend] e
    | .failed => .returned e.markClose.1 e.markClose.2
    | _ => .next [] e

/-- `stream_task::run` on the connection it finds. -/
def streamRun (e : Endpoint P) (turn : EndpointTurn) : Option (List EndpointOutput × Endpoint P) :=
  (e.checkOpen turn.ssl).andThen fun e => e.streamData turn

end Endpoint

end Tubekit
