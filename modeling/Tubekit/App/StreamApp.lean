import Tubekit.Connection.RecvPath
import Tubekit.Lib.ProtoWire

/-!
# `stream_app`

`process_connection` of `src/app/stream_app.cpp`: it parses all unread bytes as one
`ProtoPackage`, hands it to `process_protocol` and skips as many bytes as the package takes
when serialized. The classes that protoc generates are a parameter (`ProtoCodec`), with what
is documented of them in `ProtoCodec.Documented`; `wireCodec` is the wire format itself.
-/

namespace Tubekit

open Lib

/-! ## The generated classes -/

/-- `ProtoCmd`. -/
def csReqExample : Int := 0
def csResExample : Int := 1

/-- The most that `SerializeToString` and `ParseFromArray` handle, an `int`. -/
def maxProtoSize : Nat := 2 ^ 31 - 1

/-- The classes `ProtoPackage`, `ProtoCSReqExample` and `ProtoCSResExample` as `stream_app`
uses them. -/
structure ProtoCodec where
  Package : Type
  cmd : Package → Int
  body : Package → Bytes
  parseFromArray : Bytes → Option Package
  byteSizeLong : Package → Nat
  /-- `SerializeToString` of a package with this `cmd` and `body`. -/
  serialize : Int → Bytes → Bytes
  /-- `ProtoCSReqExample::ParseFromString`, with the `testcontext` it finds. -/
  parseReqExample : Bytes → Option Bytes
  /-- `SerializeToString` of a `ProtoCSResExample` with this `testcontext`. -/
  serializeResExample : Bytes → Bytes

/-- What is documented of the generated classes, for requests: `cmd` is `CS_REQ_EXAMPLE`, the
default, and so it is omitted. -/
structure ProtoCodec.Documented (codec : ProtoCodec) : Prop where
  /-- The whole range is parsed and the last occurrence of a field wins; `ByteSizeLong` is the
  size of the serialization. -/
  lastWins : ∀ (bodies : List Bytes) (body : Bytes),
    (∀ b ∈ bodies ++ [body], codec.serialize csReqExample b ≠ []) →
    ((bodies ++ [body]).flatMap (codec.serialize csReqExample)).length ≤ maxProtoSize →
    ∃ p, codec.parseFromArray ((bodies ++ [body]).flatMap (codec.serialize csReqExample)) = some p ∧
      codec.cmd p = csReqExample ∧ codec.body p = body ∧
      codec.byteSizeLong p = (codec.serialize csReqExample body).length
  /-- A range that ends inside a field is rejected. -/
  truncated : ∀ (bodies : List Bytes) (body bytes : Bytes),
    (∀ b ∈ bodies, codec.serialize csReqExample b ≠ []) →
    (bodies.flatMap (codec.serialize csReqExample) ++ bytes).length ≤ maxProtoSize →
    (codec.serialize csReqExample body).length ≤ maxProtoSize →
    bytes <+: codec.serialize csReqExample body → bytes ≠ codec.serialize csReqExample body →
    bytes ≠ [] →
    codec.parseFromArray (bodies.flatMap (codec.serialize csReqExample) ++ bytes) = none

/-! ## The wire format of the messages -/

structure ProtoPackage where
  cmd : Int
  body : Bytes
  deriving DecidableEq

namespace ProtoPackage

/-- The fields of a package on the wire, default values omitted. -/
def fields (p : ProtoPackage) : List ProtoWire.Field :=
  (if p.cmd = 0 then [] else [⟨1, .varint (p.cmd % 2 ^ 64).toNat⟩]) ++
    if p.body = [] then [] else [⟨2, .len p.body⟩]

/-- The `int32` of a varint. -/
def int32 (n : Nat) : Int :=
  if n % 2 ^ 32 < 2 ^ 31 then (n % 2 ^ 32 : Nat) else (n % 2 ^ 32 : Nat) - 2 ^ 32

/-- Add a field that was parsed. Fields the message does not have are not handled here. -/
def merge (p : ProtoPackage) (f : ProtoWire.Field) : Option ProtoPackage :=
  match f with
  | ⟨1, .varint n⟩ => some { p with cmd := int32 n }
  | ⟨2, .len bytes⟩ => some { p with body := bytes }
  | _ => none

def parse (bytes : Bytes) : Option ProtoPackage :=
  (ProtoWire.decodeFields bytes).bind fun fields => fields.foldlM merge { cmd := 0, body := [] }

end ProtoPackage

/-- The `testContext` that the fields of a `ProtoCSReqExample` give. -/
def mergeTestContext (_ : Bytes) (f : ProtoWire.Field) : Option Bytes :=
  match f with
  | ⟨1, .len bytes⟩ => some bytes
  | _ => none

/-- The messages of `protocol/` in the wire format, without unknown fields. -/
def wireCodec : ProtoCodec where
  Package := ProtoPackage
  cmd := ProtoPackage.cmd
  body := ProtoPackage.body
  parseFromArray := ProtoPackage.parse
  byteSizeLong p := (p.fields.flatMap ProtoWire.Field.encode).length
  serialize cmd body := (ProtoPackage.fields ⟨cmd, body⟩).flatMap ProtoWire.Field.encode
  parseReqExample bytes :=
    (ProtoWire.decodeFields bytes).bind fun fields => fields.foldlM mergeTestContext []
  serializeResExample testcontext :=
    if testcontext = [] then [] else ProtoWire.Field.encode ⟨1, .len testcontext⟩

theorem serialize_request_nil : wireCodec.serialize csReqExample [] = [] := rfl

theorem serialize_request {body : Bytes} (h : body ≠ []) :
    wireCodec.serialize csReqExample body = ProtoWire.Field.encode ⟨2, .len body⟩ := by
  simp [wireCodec, csReqExample, ProtoPackage.fields, h]

/-- The serialization of requests is a list of `body` fields, within the bounds of the wire. -/
theorem flatMap_serialize {bodies : List Bytes}
    (h : ∀ b ∈ bodies, wireCodec.serialize csReqExample b ≠ [])
    (hlen : (bodies.flatMap (wireCodec.serialize csReqExample)).length ≤ maxProtoSize) :
    bodies.flatMap (wireCodec.serialize csReqExample) =
        (bodies.map fun b => (⟨2, .len b⟩ : ProtoWire.Field)).flatMap ProtoWire.Field.encode ∧
      ∀ f ∈ bodies.map fun b => (⟨2, .len b⟩ : ProtoWire.Field), f.InRange := by
  induction bodies with
  | nil => simp
  | cons b bodies ih =>
    have hb : b ≠ [] := by
      rintro rfl
      exact h [] (by simp) serialize_request_nil
    rw [List.flatMap_cons, List.length_append, serialize_request hb] at hlen
    obtain ⟨hbytes, hrange⟩ := ih (fun b hm => h b (by simp [hm])) (by omega)
    have hmax : maxProtoSize < 2 ^ 64 := by decide
    have hfield : b.length < 2 ^ 64 := by
      simp only [ProtoWire.Field.encode, List.length_append] at hlen
      omega
    refine ⟨by rw [List.flatMap_cons, hbytes, serialize_request hb, List.map_cons,
      List.flatMap_cons], fun f hf => ?_⟩
    rw [List.map_cons, List.mem_cons] at hf
    rcases hf with rfl | hf
    · exact ⟨(by decide : 2 < 2 ^ 32), hfield⟩
    · exact hrange f hf

theorem foldlM_merge_bodies (p : ProtoPackage) (bodies : List Bytes) :
    (bodies.map fun b => (⟨2, .len b⟩ : ProtoWire.Field)).foldlM ProtoPackage.merge p =
      some { p with body := bodies.getLastD p.body } := by
  induction bodies generalizing p with
  | nil => rfl
  | cons b bodies ih =>
    rw [List.map_cons, List.foldlM_cons]
    show (ProtoPackage.merge p ⟨2, .len b⟩).bind _ = _
    simp only [ProtoPackage.merge, Option.bind_some, ih, List.getLastD_cons]

theorem wireCodec_documented : wireCodec.Documented where
  lastWins bodies body hne hlen := by
    obtain ⟨hbytes, hrange⟩ := flatMap_serialize hne hlen
    have hparse : ProtoPackage.parse ((bodies ++ [body]).flatMap
        (wireCodec.serialize csReqExample)) = some { cmd := 0, body } := by
      rw [hbytes, ProtoPackage.parse, ProtoWire.decodeFields_append hrange, Option.bind_some,
        foldlM_merge_bodies]
      simp
    exact ⟨{ cmd := 0, body }, hparse, rfl, rfl, rfl⟩
  truncated bodies body bytes hne hlen hbody hpre hcut hnil := by
    rw [List.length_append] at hlen
    obtain ⟨hbytes, hrange⟩ := flatMap_serialize hne (by omega)
    have hne' : body ≠ [] := by
      rintro rfl
      exact hnil (List.prefix_nil.mp hpre)
    have hmax : maxProtoSize < 2 ^ 64 := by decide
    rw [serialize_request hne'] at hpre hcut hbody
    have hfield : (⟨2, .len body⟩ : ProtoWire.Field).InRange := by
      refine ⟨(by decide : 2 < 2 ^ 32), ?_⟩
      simp only [ProtoWire.Field.encode, List.length_append] at hbody
      simp only
      omega
    have hparse : ProtoPackage.parse (bodies.flatMap (wireCodec.serialize csReqExample) ++ bytes) =
        none := by
      rw [hbytes, ProtoPackage.parse,
        ProtoWire.decodeFields_truncated hrange hfield hpre hcut hnil, Option.bind_none]
    exact hparse

/-! ## The application -/

/-- A connection, the calls of `do_task` and the packages that `process_protocol` was called
with. -/
structure StreamWorld where
  connection : StreamConnection
  tasks : List Nat
  calls : List (Int × Bytes)

namespace StreamWorld

/-- `send_packet` on the connection itself (`gid` is `0`). -/
def sendPacket (w : StreamWorld) (data : Bytes) : Bool × StreamWorld :=
  if data.length == 0 then (false, w)
  else
    let (out, c) := w.connection.send (some data)
    (out.ret, { w with
      connection := c
      tasks := if out.doTask then w.tasks ++ [w.connection.gid] else w.tasks })

def markClose (w : StreamWorld) : StreamWorld :=
  let (task, c) := w.connection.markClose
  { w with
    connection := c
    tasks := if task then w.tasks ++ [w.connection.gid] else w.tasks }

def setRecvBuffer (w : StreamWorld) (b : Buffer) : StreamWorld :=
  { w with connection := { w.connection with recvBuffer := b } }

variable (codec : ProtoCodec)

/-- `send_protocol`, where `pack` is the serialized body. -/
def sendProtocol (w : StreamWorld) (cmd : Int) (pack : Bytes) : Bool × StreamWorld :=
  w.sendPacket (codec.serialize cmd pack)

def processProtocol (w : StreamWorld) (package : codec.Package) : Int × StreamWorld :=
  let w := { w with calls := w.calls ++ [(codec.cmd package, codec.body package)] }
  if codec.cmd package = csReqExample then
    match codec.parseReqExample (codec.body package) with
    | some testcontext =>
      (0, (w.sendProtocol codec csResExample (codec.serializeResExample testcontext)).2)
    | none => (-1, w)
  else (-1, w)

/-- The loop of `process_connection`, with the offset at which it is left. A round that takes
no byte is repeated for ever; without such a round `fuel` rounds are enough for fewer than
`fuel` bytes, so `none` is a loop that is not left. -/
def processLoop (data : Nat → Byte) (allDataLen : Nat) :
    Nat → Nat → StreamWorld → Option Nat × StreamWorld
  | 0, _, w => (none, w)
  | fuel + 1, offset, w =>
    let dataLen := u64Sub allDataLen offset
    if dataLen = 0 then (some offset, w)
    else
      match codec.parseFromArray (Memory.load data offset dataLen) with
      | none => (some offset, w)
      | some package =>
        let (ret, w) := w.processProtocol codec package
        if ret ≠ 0 then
          let w := w.markClose
          (some offset, w.setRecvBuffer w.connection.recvBuffer.clear)
        else processLoop data allDataLen fuel (u64Add offset (codec.byteSizeLong package)) w

/-- The end of `process_connection`, once its loop is left: the bytes up to the offset are
taken off the buffer. -/
def skip (left : Option Nat × StreamWorld) : Bool × StreamWorld :=
  match left with
  | (none, w) => (false, w)
  | (some offset, w) =>
    let (moved, b) := w.connection.recvBuffer.readPtrMoveN offset
    let w := w.setRecvBuffer b
    (true, if !moved then w.markClose else w)

/-- `stream_app::process_connection`; the result says whether it returns. -/
def processConnection (w : StreamWorld) : Bool × StreamWorld :=
  let (allDataLen, b) := w.connection.recvBuffer.canReadableSize
  let w := w.setRecvBuffer b
  if 0 = allDataLen then (true, w)
  else
    let (data, b) := b.forceGetReadPtr
    skip (processLoop codec data allDataLen (allDataLen + 1) 0 (w.setRecvBuffer b))

end StreamWorld

end Tubekit
