import Tubekit.Connection.Model

/-!
# `sock2buf` and `buf2sock`

The two loops between the socket and the staging areas, the same in `stream_connection.cpp`
and in `websocket_connection.cpp`.

`buf2sock` is given step by step (`buf2sockStep`), one step for each operation on a buffer or
on the socket, because other threads may call `send` between any two of them. `Buf2sockPc` is
the place reached in the text of the function, with the locals that are live there; the tags
are those of its comments. What the socket answers and what an installed `write_end_callback`
returns come from outside.

`sock2buf` is a function of the answers of `recv`; where the list of answers ends, the socket
has nothing more and answers `EAGAIN`.
-/

namespace Tubekit

open Lib

/-- The values of `oper_errno` that the loops distinguish. -/
inductive Errno where
  | eintr
  | eagain
  | other
  deriving DecidableEq

/-- What `socket::send` answers: `took k` is the return value `k ≥ 0`, and the socket has
taken the first `k` bytes. -/
inductive SockSend where
  | took (k : Nat)
  | failed (errno : Errno)
  deriving DecidableEq

/-- The bytes of one successful `recv` into an array of this size. -/
structure RecvBlock (size : Nat := innerBufferSize) where
  bytes : Bytes
  nonempty : bytes ≠ []
  fits : bytes.length ≤ size

/-- What `socket::recv` answers: a block, the end of the stream (`0`), or an error. -/
inductive SockRecv (size : Nat := innerBufferSize) where
  | block (data : RecvBlock size)
  | eof
  | failed (errno : Errno)

namespace Staging

/-! ## Sending -/

/-- Where a call of `buf2sock` stands. -/
inductive Buf2sockPc where
  /-- At the head of the loops: a block is in the inner buffer or is to be loaded. -/
  | tag1
  /-- `m_send_buffer` was empty. -/
  | tag3
  /-- `reserve_size` is known. -/
  | reserve (reserveSize : Nat)
  /-- `temp_buffer` holds bytes of `m_wating_send_pack`. -/
  | temp (tempBuffer : Bytes)
  /-- Nothing left, and a `write_end_callback` is being called. -/
  | callback
  /-- The inner buffer holds bytes for the socket. -/
  | tag4
  /-- Returned, with `closed` set or not. -/
  | done (ret closed : Bool)
  deriving DecidableEq

/-- What the outside contributes to a step: the answer of the socket and the result of the
callback, where throwing counts as `false`. -/
structure Outside where
  sock : SockSend
  callback : Bool

/-- The bytes of `buf2sock_inner_buffer` that are still to be sent. -/
def unsent (s : Staging) : Bytes :=
  if s.shouldSendIdx < 0 then []
  else Memory.load s.buf2sockInnerBuffer s.shouldSendIdx.toNat s.shouldSendSize.toNat

/-- `socket_ptr->send(&buf2sock_inner_buffer[should_send_idx], should_send_size, oper_errno)`
and the branches on its result. The third component are the bytes that the socket takes. -/
def offer (s : Staging) : SockSend → Staging × Buf2sockPc × Bytes
  | .failed .eintr => (s, .tag1, [])
  | .failed .eagain => (s, .done true false, [])
  | .failed .other => (s, .done false true, [])
  | .took 0 => (s, .done true true, [])
  | .took (k + 1) =>
    let taken := Memory.load s.buf2sockInnerBuffer s.shouldSendIdx.toNat (k + 1)
    let shouldSendSize := s.shouldSendSize - (k + 1)
    if shouldSendSize ≤ 0 then
      ({ s with shouldSendSize := 0, shouldSendIdx := -1 }, .tag1, taken)
    else ({ s with shouldSendSize }, .tag1, taken)

/-- One step of `buf2sock`. -/
def buf2sockStep (s : Staging) (out : Outside) : Buf2sockPc → Staging × Buf2sockPc × Bytes
  | .tag1 =>
    if s.shouldSendIdx < 0 then
      match s.sendBuffer.read true innerBufferSize with
      | (.error _, b) => ({ s with sendBuffer := b }, .done false true, [])
      | (.ok bytes, b) =>
        let s := { s with
          sendBuffer := b
          buf2sockInnerBuffer := Memory.store s.buf2sockInnerBuffer 0 bytes }
        if bytes.length > 0 then
          ({ s with shouldSendIdx := 0, shouldSendSize := bytes.length }, .tag4, [])
        else (s, .tag3, [])
    else (s, .tag4, [])
  | .tag3 =>
    let (sendBufferBlankSpace, b) := s.sendBuffer.blankSpace
    let s := { s with sendBuffer := b }
    if sendBufferBlankSpace > 0 then
      (s, .reserve (if sendBufferBlankSpace ≥ innerBufferSize then innerBufferSize
        else sendBufferBlankSpace), [])
    else (s, .done false true, [])
  | .reserve reserveSize =>
    match s.watingSendPack.read true reserveSize with
    | (.error _, b) => ({ s with watingSendPack := b }, .done false true, [])
    | (.ok tempBuffer, b) =>
      let s := { s with watingSendPack := b }
      if tempBuffer.length > 0 then (s, .temp tempBuffer, [])
      else if s.writeEndCallback.isSome then (s, .callback, [])
      else (s, .done false false, [])
  | .temp tempBuffer =>
    match s.sendBuffer.write (some tempBuffer) with
    | (.error _, b) => ({ s with sendBuffer := b }, .done false true, [])
    | (.ok writedLen, b) =>
      let s := { s with sendBuffer := b }
      if writedLen ≠ tempBuffer.length then (s, .done false true, []) else (s, .tag1, [])
  | .callback => (s, .done out.callback false, [])
  | .tag4 => s.offer out.sock
  | .done ret closed => (s, .done ret closed, [])

/-! ## Receiving -/

/-- A finished call of `sock2buf`: its result, `need_task`, the staging areas it leaves and the
answers of `recv` that it used. -/
structure Sock2bufDone where
  ret : Bool
  needTask : Bool
  staging : Staging
  used : List SockRecv

/-- The loop at `tag1` of `sock2buf`; `used` are the answers used before. -/
def sock2bufLoop (s : Staging) (used : List SockRecv) : List SockRecv → Sock2bufDone
  | [] => ⟨true, false, { s with sock2bufDataLen := -1 }, used ++ [.failed .eagain]⟩
  | .failed .eagain :: _ =>
    ⟨true, false, { s with sock2bufDataLen := -1 }, used ++ [.failed .eagain]⟩
  | .failed .eintr :: answers =>
    sock2bufLoop { s with sock2bufDataLen := -1 } (used ++ [.failed .eintr]) answers
  | .block data :: answers =>
    let s := { s with
      sock2bufInnerBuffer := Memory.store s.sock2bufInnerBuffer 0 data.bytes
      sock2bufDataLen := data.bytes.length }
    match s.recvBuffer.write (some (Memory.load s.sock2bufInnerBuffer 0 data.bytes.length)) with
    | (.error _, b) => ⟨false, true, { s with recvBuffer := b }, used ++ [.block data]⟩
    | (.ok _, b) =>
      sock2bufLoop { s with recvBuffer := b, sock2bufDataLen := 0 } (used ++ [.block data]) answers
  | .eof :: _ => ⟨false, false, { s with sock2bufDataLen := 0 }, used ++ [.eof]⟩
  | .failed .other :: _ =>
    ⟨false, false, { s with sock2bufDataLen := -1 }, used ++ [.failed .other]⟩

/-- `sock2buf`: first the block that the previous call could not store, then the loop. -/
def sock2buf (s : Staging) (answers : List SockRecv) : Sock2bufDone :=
  if s.sock2bufDataLen > 0 then
    match s.recvBuffer.write
        (some (Memory.load s.sock2bufInnerBuffer 0 s.sock2bufDataLen.toNat)) with
    | (.error _, b) => ⟨false, false, { s with recvBuffer := b }, []⟩
    | (.ok _, b) => sock2bufLoop { s with recvBuffer := b, sock2bufDataLen := 0 } [] answers
  else sock2bufLoop s [] answers

end Staging

/-! ## Both classes -/

/-- A connection that stages its data: a stream connection or a websocket connection. -/
inductive Endpoint (P : Type) where
  | stream (c : StreamConnection)
  | websocket (c : WebsocketConnection P)

namespace Endpoint

variable {P : Type}

def staging : Endpoint P → Staging
  | .stream c => c.toStaging
  | .websocket c => c.toStaging

def withStaging (s : Staging) : Endpoint P → Endpoint P
  | .stream c => .stream { c with toStaging := s }
  | .websocket c => .websocket { c with toStaging := s }

def gid : Endpoint P → Nat
  | .stream c => c.gid
  | .websocket c => c.gid

/-- A change of members that a stream connection does not have. -/
def onWebsocket (f : WebsocketConnection P → WebsocketConnection P) : Endpoint P → Endpoint P
  | .stream c => .stream c
  | .websocket c => .websocket (f c)

/-- What the accept loop does to a pooled connection: `reuse`, `set_socket_ptr`, `set_gid`. -/
def prepare (init : P) (socketPtr : Option Nat) (gid : Nat) : Endpoint P → Endpoint P
  | .stream c => .stream ((c.reuse.setSocketPtr socketPtr).setGid gid)
  | .websocket c => .websocket (((c.reuse init).setSocketPtr socketPtr).setGid gid)

/-- `send`; only a websocket connection looks at `check_connected`. -/
def send (e : Endpoint P) (buffer : Option Bytes) (checkConnected : Bool) :
    SendOutcome × Endpoint P :=
  match e with
  | .stream c => ((c.send buffer).1, .stream (c.send buffer).2)
  | .websocket c =>
    ((c.send buffer checkConnected).1, .websocket (c.send buffer checkConnected).2)

@[simp] theorem staging_withStaging (s : Staging) (e : Endpoint P) :
    (e.withStaging s).staging = s := by
  cases e <;> rfl

@[simp] theorem gid_withStaging (s : Staging) (e : Endpoint P) :
    (e.withStaging s).gid = e.gid := by
  cases e <;> rfl

@[simp] theorem staging_prepare (init : P) (socketPtr : Option Nat) (gid : Nat)
    (e : Endpoint P) : (e.prepare init socketPtr gid).staging = e.staging.reuse := by
  cases e <;> rfl

@[simp] theorem gid_prepare (init : P) (socketPtr : Option Nat) (gid : Nat) (e : Endpoint P) :
    (e.prepare init socketPtr gid).gid = gid := by
  cases e <;> rfl

/-- `send` either stops before it reaches the queue, or is `Staging.send`. -/
theorem send_cases (e : Endpoint P) (buffer : Option Bytes) (checkConnected : Bool) :
    e.send buffer checkConnected = (⟨false, false⟩, e) ∨
      e.send buffer checkConnected =
        ((e.staging.send e.gid buffer).1, e.withStaging (e.staging.send e.gid buffer).2) := by
  cases e with
  | stream c => exact Or.inr rfl
  | websocket c =>
    by_cases h : (checkConnected && !c.connected) = true
    · left
      simp only [send, WebsocketConnection.send, h, if_true]
    · right
      simp only [send, WebsocketConnection.send, h, if_false, Bool.false_eq_true]
      rfl

end Endpoint

end Tubekit
