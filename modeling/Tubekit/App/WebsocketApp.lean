import Mathlib.Logic.Function.Basic
import Tubekit.Connection.Transfer

/-!
# `websocket_app`

The WebSocket framing of `src/app/websocket_app.cpp`: `send_packet` builds a frame,
`process_connection` takes the complete frames off `m_recv_buffer` and hands each of them to
`process_frame`, which sends its payload to every player. A connection is named by its gid in
the world that the functions share; `calls` is the record of the calls of `process_frame`.
-/

namespace Tubekit

open Lib

inductive WebsocketFrameType where
  | connectionCloseFrame
  | textFrame
  | binaryFrame
  | pong
  | ping
  | continuationFrame
  | furtherNonControl
  | furtherControl
  | error
  deriving DecidableEq

/-- `n_2_websocket_frame_type`. -/
def n2WebsocketFrameType (n : Byte) : WebsocketFrameType :=
  let n := n &&& 0x0f
  if n = 0x1 then .textFrame
  else if n = 0x2 then .binaryFrame
  else if n = 0x0 then .continuationFrame
  else if n ≥ 0x3 ∧ n ≤ 0x7 then .furtherNonControl
  else if n ≥ 0xb ∧ n ≤ 0xf then .furtherControl
  else if n = 0x8 then .connectionCloseFrame
  else if n = 0x9 then .ping
  else if n = 0xa then .pong
  else .error

/-- `websocket_frame_type_2_n`. -/
def websocketFrameType2N (type : WebsocketFrameType) (idx : Byte) : Byte :=
  match type with
  | .textFrame => 0x1
  | .binaryFrame => 0x2
  | .continuationFrame => 0x0
  | .furtherNonControl => if idx ≤ 0x4 then 0x3 + idx else 0x8
  | .furtherControl => if idx ≤ 0x5 then 0xb + idx else 0x8
  | .connectionCloseFrame => 0x8
  | .ping => 0x9
  | .pong => 0xa
  | .error => 0x8

structure WebsocketFrame where
  fin : Bool
  opcode : Byte
  mask : Bool
  payloadLength : Nat
  maskingKey : Bytes
  payloadData : Bytes
  deriving DecidableEq

/-- What the application functions share: `global_player`, the connections of
`connection_mgr`, the gids of the calls of `do_task` and the calls of `process_frame`. -/
structure WebsocketWorld (P : Type) where
  globalPlayer : List Nat
  connections : Nat → Option (WebsocketConnection P)
  tasks : List Nat
  calls : List (Nat × WebsocketFrame)

/-! ## Sending -/

/-- The bytes that `send_packet` puts in front of the payload. -/
def packetHead (firstByte : Byte) (messageLength : Nat) : Bytes :=
  if messageLength ≤ 125 then [firstByte, UInt8.ofNat messageLength]
  else if messageLength ≤ 0xFFFF then
    [firstByte, 126, UInt8.ofNat (messageLength >>> 8 &&& 0xFF), UInt8.ofNat (messageLength &&& 0xFF)]
  else
    firstByte :: 127 ::
      [7, 6, 5, 4, 3, 2, 1, 0].map fun i => UInt8.ofNat (messageLength >>> (8 * i) &&& 0xFF)

/-- The frame that `send_packet` builds. -/
def packet (firstByte : Byte) (data : Bytes) : Bytes := packetHead firstByte data.length ++ data

namespace WebsocketWorld

variable {P : Type}

/-- `send` on the connection of `gid`, if there is one. -/
def sendOn (w : WebsocketWorld P) (gid : Nat) (frame : Bytes) : Bool × WebsocketWorld P :=
  match w.connections gid with
  | none => (false, w)
  | some c =>
    let (out, c') := c.send (some frame) true
    (out.ret, { w with
      connections := Function.update w.connections gid (some c')
      tasks := if out.doTask then w.tasks ++ [c.gid] else w.tasks })

/-- `send_packet`, on the given connection or on that of `gid`. -/
def sendPacket (w : WebsocketWorld P) (connection : Option Nat) (firstByte : Byte)
    (data : Option Bytes) (gid : Nat) : Bool × WebsocketWorld P :=
  match data, connection with
  | none, _ => (false, w)
  | some data, none => w.sendOn gid (packet firstByte data)
  | some data, some own => w.sendOn (if gid = 0 then own else gid) (packet firstByte data)

/-- `process_frame`: the payload goes to every player. -/
def processFrame (w : WebsocketWorld P) (gid : Nat) (frame : WebsocketFrame) : WebsocketWorld P :=
  let firstByte := 0x80 ||| websocketFrameType2N .textFrame 0
  w.globalPlayer.foldl
    (fun w player => (w.sendPacket none firstByte
      (some (frame.payloadData.take frame.payloadLength)) player).2)
    { w with calls := w.calls ++ [(gid, frame)] }

end WebsocketWorld

/-! ## Decoding -/

/-- `ntohs` of the two bytes at `index`. -/
def read16 (data : Nat → Byte) (index : Nat) : Nat :=
  (data index).toNat * 256 + (data (index + 1)).toNat

/-- `ntohl` of the four bytes at `index`. -/
def read32 (data : Nat → Byte) (index : Nat) : Nat :=
  read16 data index * 65536 + read16 data (index + 2)

/-- The payload length and the index behind it, `none` where more bytes are needed. -/
def parseLength (data : Nat → Byte) (allDataLen index : Nat) (len7 : Byte) : Option (Nat × Nat) :=
  if len7 = 126 then
    if index + 2 ≥ allDataLen then none else some (read16 data index, index + 2)
  else if len7 = 127 then
    if index + 8 ≥ allDataLen then none
    else some (read32 data index <<< 32 ||| read32 data (index + 4), index + 8)
  else some (len7.toNat, index)

/-- The masking key and the index behind it, `none` where more bytes are needed. -/
def parseMask (data : Nat → Byte) (allDataLen index : Nat) (mask : Bool) : Option (Bytes × Nat) :=
  if mask then
    if index + 4 ≥ allDataLen then none else some (Memory.load data index 4, index + 4)
  else some ([], index)

/-- `payload_data[i] ^= masking_key[i % 4]`. -/
def unmask (key payload : Bytes) : Bytes := payload.mapIdx fun i b => b ^^^ key.getD (i % 4) 0

/-- One round of the loop of `process_connection` up to its call of `process_frame`. -/
inductive FrameRound where
  /-- `break`: more bytes are needed, or the frame is empty. -/
  | stop
  /-- An opcode that is neither text nor binary. -/
  | close
  /-- `std::string` cannot be that long. -/
  | throws
  /-- A frame, with the index of its payload. -/
  | frame (frame : WebsocketFrame) (index : Nat)

def parseFrame (data : Nat → Byte) (allDataLen index : Nat) : FrameRound :=
  let head := data index
  let type := n2WebsocketFrameType (head &&& 0x0f)
  if type ≠ .textFrame ∧ type ≠ .binaryFrame then .close
  else
    let index := index + 1
    if index ≥ allDataLen then .stop
    else
      let second := data index
      let mask := decide (second &&& 0x80 ≠ 0)
      let index := index + 1
      if index ≥ allDataLen then .stop
      else
        match parseLength data allDataLen index (second &&& 0x7F) with
        | none => .stop
        | some (payloadLength, index) =>
          if payloadLength = 0 then .stop
          else
            match parseMask data allDataLen index mask with
            | none => .stop
            | some (maskingKey, index) =>
              if index ≥ allDataLen then .stop
              else if u64Add (index - 1) payloadLength ≥ allDataLen then .stop
              else if payloadLength > maxObjectSize then .throws
              else
                let payload := Memory.load data index payloadLength
                .frame
                  { fin := decide (head &&& 0x80 ≠ 0)
                    opcode := head &&& 0x0F
                    mask
                    payloadLength
                    maskingKey
                    payloadData := if mask then unmask maskingKey payload else payload }
                  index

namespace WebsocketWorld

variable {P : Type}

/-- Update the connection of `gid`. -/
def modify (w : WebsocketWorld P) (gid : Nat)
    (f : WebsocketConnection P → WebsocketConnection P) : WebsocketWorld P :=
  { w with connections := Function.update w.connections gid ((w.connections gid).map f) }

/-- `mark_close` on the connection of `gid`. -/
def markClose (w : WebsocketWorld P) (gid : Nat) : WebsocketWorld P :=
  match w.connections gid with
  | none => w
  | some c =>
    let (task, c') := c.markClose
    { w with
      connections := Function.update w.connections gid (some c')
      tasks := if task then w.tasks ++ [c.gid] else w.tasks }

/-- The loop of `process_connection`; the result says whether it threw. A round takes at least
one byte, so `fuel` rounds are enough for `fuel` bytes. -/
def processLoop (gid : Nat) (data : Nat → Byte) (allDataLen : Nat) :
    Nat → Nat → WebsocketWorld P → Bool × WebsocketWorld P
  | 0, _, w => (false, w)
  | fuel + 1, index, w =>
    if index ≥ allDataLen then (false, w)
    else
      match parseFrame data allDataLen index with
      | .stop => (false, w)
      | .close => (false, w.markClose gid)
      | .throws => (true, w)
      | .frame frame payloadIndex =>
        let w := w.processFrame gid frame
        let w := w.modify gid fun c => { c with
          recvBuffer := (c.recvBuffer.readPtrMoveN
            (payloadIndex - index + frame.payloadLength)).2 }
        processLoop gid data allDataLen fuel (payloadIndex + frame.payloadLength) w

/-- `websocket_app::process_connection` on the connection of `gid`. -/
def processConnection (w : WebsocketWorld P) (gid : Nat) : Bool × WebsocketWorld P :=
  match w.connections gid with
  | none => (false, w)
  | some c =>
    let (allDataLen, b) := c.recvBuffer.canReadableSize
    let w := w.modify gid fun c => { c with recvBuffer := b }
    if allDataLen = 0 then (false, w)
    else
      let (data, b) := b.forceGetReadPtr
      processLoop gid data allDataLen (allDataLen + 1) 0
        (w.modify gid fun c => { c with recvBuffer := b })

end WebsocketWorld

end Tubekit
