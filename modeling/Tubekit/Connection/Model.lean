import Tubekit.Buffer.Refinement
import Tubekit.Http.Parser

/-!
# The connection classes

`connection` and its three subclasses (`src/connection`). `stream_connection` and
`websocket_connection` have the same staging areas and, up to the names of the class, the
same `sock2buf` and `buf2sock`; these are the fields of `Staging`. The raw arrays of a class
(`buffer`, `buf2sock_inner_buffer`, `sock2buf_inner_buffer`) are blocks of memory that no
operation clears.

Callbacks that the application installs are numbers here: which function is installed is
data of the connection, what it does is up to the application.
-/

namespace Tubekit

open Lib

/-- `connection`. -/
structure Connection where
  closeFlag : Bool
  gid : Nat
  socketPtr : Option Nat

/-- `connection::connection(socket_ptr)`. -/
def Connection.new (socketPtr : Option Nat) : Connection :=
  { closeFlag := false, gid := 0, socketPtr }

def Connection.reuse (_ : Connection) : Connection :=
  { closeFlag := false, socketPtr := none, gid := 0 }

/-- The largest object in memory, `std::string` or `std::vector`. -/
def maxObjectSize : Nat := 2 ^ 63 - 1

/-- The bytes of an object in memory. -/
structure MemoryBlock where
  bytes : Bytes
  fits : bytes.length ≤ maxObjectSize

theorem MemoryBlock.fits_of_map (block : Option MemoryBlock) (bytes : Bytes)
    (h : block.map (·.bytes) = some bytes) : bytes.length ≤ maxObjectSize := by
  obtain ⟨block, -, rfl⟩ := Option.map_eq_some_iff.mp h
  exact block.fits

/-- The size of `buf2sock_inner_buffer` and `sock2buf_inner_buffer`. -/
def innerBufferSize : Nat := 1024000

/-- The limit that `reuse` gives to the buffers of a stream or websocket connection. -/
def memBufferSizeMax : Nat := innerBufferSize + 2

/-- The members through which a stream or websocket connection moves its data. -/
structure Staging where
  sendBuffer : Buffer
  recvBuffer : Buffer
  watingSendPack : Buffer
  writeEndCallback : Option Nat
  shouldSendIdx : Int
  shouldSendSize : Int
  buf2sockInnerBuffer : Nat → Byte
  sock2bufInnerBuffer : Nat → Byte
  sock2bufDataLen : Int

namespace Staging

/-- The staging areas of a newly constructed connection. -/
def new (heap : Nat → Byte) : Staging :=
  { sendBuffer := .new heap
    recvBuffer := .new heap
    watingSendPack := .new heap
    writeEndCallback := none
    shouldSendIdx := -1
    shouldSendSize := 0
    buf2sockInnerBuffer := fun _ => 0
    sock2bufInnerBuffer := fun _ => 0
    sock2bufDataLen := 0 }

/-- What both `reuse`s do to the staging areas. -/
def reuse (s : Staging) : Staging :=
  { s with
    sendBuffer := s.sendBuffer.clear.setLimitMax memBufferSizeMax
    recvBuffer := s.recvBuffer.clear.setLimitMax memBufferSizeMax
    watingSendPack := s.watingSendPack.clear.setLimitMax memBufferSizeMax
    writeEndCallback := none
    shouldSendIdx := -1
    shouldSendSize := 0
    sock2bufDataLen := 0 }

/-- The buffers after `on_mark_close`. -/
def onMarkClose (s : Staging) : Staging :=
  { s with
    sendBuffer := s.sendBuffer.clear
    recvBuffer := s.recvBuffer.clear
    watingSendPack := s.watingSendPack.clear }

end Staging

/-- What a call of `send` gives: its return value, and whether it reached its `do_task`. -/
structure SendOutcome where
  ret : Bool
  doTask : Bool
  deriving DecidableEq

/-- The part that both `send`s share: queue the bytes, then ask for a task. -/
def Staging.send (s : Staging) (gid : Nat) (buffer : Option Bytes) : SendOutcome × Staging :=
  match buffer with
  | none => (⟨false, false⟩, s)
  | some bytes =>
    match s.watingSendPack.write (some bytes) with
    | (.error _, b) => (⟨false, false⟩, { s with watingSendPack := b })
    | (.ok _, b) =>
      if gid > 0 then (⟨true, true⟩, { s with watingSendPack := b })
      else (⟨false, false⟩, { s with watingSendPack := b })

/-! ## `stream_connection` -/

structure StreamConnection extends Connection, Staging

namespace StreamConnection

/-- `stream_connection(socket_ptr)`. -/
def new (heap : Nat → Byte) (socketPtr : Option Nat) : StreamConnection :=
  { toConnection := .new socketPtr, toStaging := .new heap }

def reuse (c : StreamConnection) : StreamConnection :=
  { toConnection := c.toConnection.reuse, toStaging := c.toStaging.reuse }

def setSocketPtr (c : StreamConnection) (socketPtr : Option Nat) : StreamConnection :=
  { c with socketPtr }

def setGid (c : StreamConnection) (gid : Nat) : StreamConnection := { c with gid }

def send (c : StreamConnection) (buffer : Option Bytes) : SendOutcome × StreamConnection :=
  let (out, staging) := c.toStaging.send c.gid buffer
  (out, { c with toStaging := staging })

/-- `mark_close` with `on_mark_close`; the result says whether its `do_task` is reached. -/
def markClose (c : StreamConnection) : Bool × StreamConnection :=
  if c.closeFlag == false then
    (true, { c with closeFlag := true, toStaging := c.toStaging.onMarkClose })
  else (false, c)

end StreamConnection

/-! ## `websocket_connection` -/

/-- `websocket_connection`, with a parser of state `P`. -/
structure WebsocketConnection (P : Type) extends Connection, Staging where
  url : Bytes
  method : Bytes
  secWebsocketKey : Bytes
  secWebsocketVersion : Bytes
  headers : HeaderMap
  buffer : Nat → Byte
  bufferUsedLen : Int
  bufferStartUse : Int
  headFiledTmp : Bytes
  httpProcessed : Bool
  everythingEnd : Bool
  isUpgrade : Bool
  destoryCallback : Option Nat
  httpParser : P
  connected : Bool

namespace WebsocketConnection

variable {P : Type}

/-- `websocket_connection(socket_ptr)`, where `init` is the parser after `http_parser_init`. -/
def new (heap : Nat → Byte) (init : P) (socketPtr : Option Nat) : WebsocketConnection P :=
  { toConnection := .new socketPtr
    toStaging := .new heap
    url := []
    method := []
    secWebsocketKey := []
    secWebsocketVersion := []
    headers := fun _ => none
    buffer := fun _ => 0
    bufferUsedLen := 0
    bufferStartUse := 0
    headFiledTmp := []
    httpProcessed := false
    everythingEnd := false
    isUpgrade := false
    destoryCallback := none
    httpParser := init
    connected := false }

def reuse (init : P) (c : WebsocketConnection P) : WebsocketConnection P :=
  { toConnection := c.toConnection.reuse
    toStaging := c.toStaging.reuse
    url := []
    method := []
    secWebsocketKey := []
    secWebsocketVersion := []
    headers := fun _ => none
    buffer := c.buffer
    bufferUsedLen := 0
    bufferStartUse := 0
    headFiledTmp := []
    httpProcessed := false
    everythingEnd := false
    isUpgrade := false
    destoryCallback := none
    httpParser := init
    connected := false }

def setSocketPtr (c : WebsocketConnection P) (socketPtr : Option Nat) : WebsocketConnection P :=
  { c with socketPtr }

def setGid (c : WebsocketConnection P) (gid : Nat) : WebsocketConnection P := { c with gid }

def addHeader (c : WebsocketConnection P) (key value : Bytes) : WebsocketConnection P :=
  { c with headers := c.headers.addHeader key value }

def setConnected (c : WebsocketConnection P) (connected : Bool) : WebsocketConnection P :=
  { c with connected }

def send (c : WebsocketConnection P) (buffer : Option Bytes) (checkConnected : Bool) :
    SendOutcome × WebsocketConnection P :=
  if checkConnected && !c.connected then (⟨false, false⟩, c)
  else
    let (out, staging) := c.toStaging.send c.gid buffer
    (out, { c with toStaging := staging })

def markClose (c : WebsocketConnection P) : Bool × WebsocketConnection P :=
  if c.closeFlag == false then
    (true, { c with closeFlag := true, toStaging := c.toStaging.onMarkClose })
  else (false, c)

end WebsocketConnection

/-! ## `http_connection` -/

/-- The size of the `buffer` of an http connection and of a websocket connection. -/
def httpBufferSize : Nat := 20230

/-- The limit that `http_connection::reuse` gives to `m_send_buffer`. -/
def httpMemBufferSizeMax : Nat := 1048576

/-- `http_connection`, with a parser of state `P`. -/
structure HttpConnection (P : Type) extends Connection where
  url : Bytes
  method : Bytes
  headers : HeaderMap
  body : Bytes
  chunks : List Bytes
  data : Bytes
  sendBuffer : Buffer
  buffer : Nat → Byte
  bufferUsedLen : Int
  bufferStartUse : Int
  headFieldTmp : Bytes
  processCallback : Option Nat
  writeEndCallback : Option Nat
  destoryCallback : Option Nat
  ptr : Option Nat
  httpParser : P
  recvEnd : Bool
  processEnd : Bool
  responseEnd : Bool
  everythingEnd : Bool

namespace HttpConnection

variable {P : Type}

/-- `http_connection(socket_ptr)`. -/
def new (heap : Nat → Byte) (init : P) (socketPtr : Option Nat) : HttpConnection P :=
  { toConnection := .new socketPtr
    url := []
    method := []
    headers := fun _ => none
    body := []
    chunks := []
    data := []
    sendBuffer := .new heap
    buffer := fun _ => 0
    bufferUsedLen := 0
    bufferStartUse := 0
    headFieldTmp := []
    processCallback := none
    writeEndCallback := none
    destoryCallback := none
    ptr := none
    httpParser := init
    recvEnd := false
    processEnd := false
    responseEnd := false
    everythingEnd := false }

def reuse (init : P) (c : HttpConnection P) : HttpConnection P :=
  { toConnection := c.toConnection.reuse
    url := []
    method := []
    headers := fun _ => none
    body := []
    chunks := []
    data := []
    sendBuffer := c.sendBuffer.clear.setLimitMax httpMemBufferSizeMax
    buffer := c.buffer
    bufferUsedLen := 0
    bufferStartUse := 0
    headFieldTmp := []
    processCallback := none
    writeEndCallback := none
    destoryCallback := none
    ptr := none
    httpParser := init
    recvEnd := false
    processEnd := false
    responseEnd := false
    everythingEnd := false }

def setSocketPtr (c : HttpConnection P) (socketPtr : Option Nat) : HttpConnection P :=
  { c with socketPtr }

def setGid (c : HttpConnection P) (gid : Nat) : HttpConnection P := { c with gid }

/-- What the accept loop does to a pooled connection: `reuse`, `set_socket_ptr`, `set_gid`. -/
def prepare (init : P) (socketPtr : Option Nat) (gid : Nat) (c : HttpConnection P) :
    HttpConnection P :=
  ((c.reuse init).setSocketPtr socketPtr).setGid gid

def addHeader (c : HttpConnection P) (key value : Bytes) : HttpConnection P :=
  { c with headers := c.headers.addHeader key value }

def addToBody (c : HttpConnection P) (data : Bytes) : HttpConnection P :=
  { c with body := c.body ++ data }

def markClose (c : HttpConnection P) : Bool × HttpConnection P :=
  if c.closeFlag == false then
    (true, { c with closeFlag := true, sendBuffer := c.sendBuffer.clear })
  else (false, c)

end HttpConnection

end Tubekit
