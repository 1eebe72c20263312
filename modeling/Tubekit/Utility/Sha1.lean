import Tubekit.Lib.SecureHash
import Tubekit.Utility.Url

/-!
# `SHA1`

The class of `src/utility/sha1.h`. `transform` works on a ring of sixteen words, into which the
message schedule is written over the words of the block, and on five variables that never move:
the unrolled calls rename them instead. The digest is written as text, from which `to_binary`
makes bytes again.
-/

namespace Tubekit

open Lib SecureHash

/-! ## `transform` -/

def rol (value : UInt32) (bits : UInt32) : UInt32 := (value <<< bits) ||| (value >>> (32 - bits))

/-- The working variables of `transform`. -/
inductive Sha1Var
  | a | b | c | d | e
  deriving DecidableEq

/-- The local variables of `transform`. -/
structure Sha1Locals where
  vars : Sha1Var → UInt32
  block : Vector UInt32 16

/-- An index into the ring. -/
def ring (i : Nat) : Fin 16 := ⟨i &&& 15, Nat.lt_succ_of_le Nat.and_le_right⟩

def blk (block : Vector UInt32 16) (i : Fin 16) : UInt32 :=
  rol (block[ring (i + 13)] ^^^ block[ring (i + 8)] ^^^ block[ring (i + 2)] ^^^ block[i]) 1

namespace Sha1Locals

/-- `block[i] = blk(block, i)`. -/
def extend (i : Fin 16) (s : Sha1Locals) : Sha1Locals :=
  { s with block := s.block.set i (blk s.block i) }

/-- What the operations have in common. -/
def mix (f : UInt32 → UInt32 → UInt32 → UInt32) (k : UInt32) (v w x y z : Sha1Var) (i : Fin 16)
    (s : Sha1Locals) : Sha1Locals :=
  let total := s.vars z + (f (s.vars w) (s.vars x) (s.vars y) + s.block[i] + k + rol (s.vars v) 5)
  let s := { s with vars := Function.update s.vars z total }
  { s with vars := Function.update s.vars w (rol (s.vars w) 30) }

def R0 (v w x y z : Sha1Var) (i : Fin 16) (s : Sha1Locals) : Sha1Locals :=
  s.mix (fun w x y => (w &&& (x ^^^ y)) ^^^ y) 0x5a827999 v w x y z i

def R1 (v w x y z : Sha1Var) (i : Fin 16) (s : Sha1Locals) : Sha1Locals :=
  (s.extend i).mix (fun w x y => (w &&& (x ^^^ y)) ^^^ y) 0x5a827999 v w x y z i

def R2 (v w x y z : Sha1Var) (i : Fin 16) (s : Sha1Locals) : Sha1Locals :=
  (s.extend i).mix (fun w x y => w ^^^ x ^^^ y) 0x6ed9eba1 v w x y z i

def R3 (v w x y z : Sha1Var) (i : Fin 16) (s : Sha1Locals) : Sha1Locals :=
  (s.extend i).mix (fun w x y => ((w ||| x) &&& y) ||| (w &&& x)) 0x8f1bbcdc v w x y z i

def R4 (v w x y z : Sha1Var) (i : Fin 16) (s : Sha1Locals) : Sha1Locals :=
  (s.extend i).mix (fun w x y => w ^^^ x ^^^ y) 0xca62c1d6 v w x y z i

end Sha1Locals

inductive Sha1Op
  | R0 | R1 | R2 | R3 | R4
  deriving DecidableEq

/-- A call of one of the operations in the body of `transform`. -/
structure Sha1Call where
  op : Sha1Op
  v : Sha1Var
  w : Sha1Var
  x : Sha1Var
  y : Sha1Var
  z : Sha1Var
  i : Fin 16
  deriving DecidableEq

def Sha1Call.run (call : Sha1Call) (s : Sha1Locals) : Sha1Locals :=
  match call.op with
  | .R0 => s.R0 call.v call.w call.x call.y call.z call.i
  | .R1 => s.R1 call.v call.w call.x call.y call.z call.i
  | .R2 => s.R2 call.v call.w call.x call.y call.z call.i
  | .R3 => s.R3 call.v call.w call.x call.y call.z call.i
  | .R4 => s.R4 call.v call.w call.x call.y call.z call.i

/-! The calls in the body of `transform`, in four rounds of 20 operations. -/

def round1 : List Sha1Call :=
  [
    ⟨.R0, .a, .b, .c, .d, .e, 0⟩, ⟨.R0, .e, .a, .b, .c, .d, 1⟩, ⟨.R0, .d, .e, .a, .b, .c, 2⟩, ⟨.R0, .c, .d, .e, .a, .b, 3⟩,
    ⟨.R0, .b, .c, .d, .e, .a, 4⟩, ⟨.R0, .a, .b, .c, .d, .e, 5⟩, ⟨.R0, .e, .a, .b, .c, .d, 6⟩, ⟨.R0, .d, .e, .a, .b, .c, 7⟩,
    ⟨.R0, .c, .d, .e, .a, .b, 8⟩, ⟨.R0, .b, .c, .d, .e, .a, 9⟩, ⟨.R0, .a, .b, .c, .d, .e, 10⟩, ⟨.R0, .e, .a, .b, .c, .d, 11⟩,
    ⟨.R0, .d, .e, .a, .b, .c, 12⟩, ⟨.R0, .c, .d, .e, .a, .b, 13⟩, ⟨.R0, .b, .c, .d, .e, .a, 14⟩, ⟨.R0, .a, .b, .c, .d, .e, 15⟩,
    ⟨.R1, .e, .a, .b, .c, .d, 0⟩, ⟨.R1, .d, .e, .a, .b, .c, 1⟩, ⟨.R1, .c, .d, .e, .a, .b, 2⟩, ⟨.R1, .b, .c, .d, .e, .a, 3⟩
  ]

def round2 : List Sha1Call :=
  [
    ⟨.R2, .a, .b, .c, .d, .e, 4⟩, ⟨.R2, .e, .a, .b, .c, .d, 5⟩, ⟨.R2, .d, .e, .a, .b, .c, 6⟩, ⟨.R2, .c, .d, .e, .a, .b, 7⟩,
    ⟨.R2, .b, .c, .d, .e, .a, 8⟩, ⟨.R2, .a, .b, .c, .d, .e, 9⟩, ⟨.R2, .e, .a, .b, .c, .d, 10⟩, ⟨.R2, .d, .e, .a, .b, .c, 11⟩,
    ⟨.R2, .c, .d, .e, .a, .b, 12⟩, ⟨.R2, .b, .c, .d, .e, .a, 13⟩, ⟨.R2, .a, .b, .c, .d, .e, 14⟩, ⟨.R2, .e, .a, .b, .c, .d, 15⟩,
    ⟨.R2, .d, .e, .a, .b, .c, 0⟩, ⟨.R2, .c, .d, .e, .a, .b, 1⟩, ⟨.R2, .b, .c, .d, .e, .a, 2⟩, ⟨.R2, .a, .b, .c, .d, .e, 3⟩,
    ⟨.R2, .e, .a, .b, .c, .d, 4⟩, ⟨.R2, .d, .e, .a, .b, .c, 5⟩, ⟨.R2, .c, .d, .e, .a, .b, 6⟩, ⟨.R2, .b, .c, .d, .e, .a, 7⟩
  ]

def round3 : List Sha1Call :=
  [
    ⟨.R3, .a, .b, .c, .d, .e, 8⟩, ⟨.R3, .e, .a, .b, .c, .d, 9⟩, ⟨.R3, .d, .e, .a, .b, .c, 10⟩, ⟨.R3, .c, .d, .e, .a, .b, 11⟩,
    ⟨.R3, .b, .c, .d, .e, .a, 12⟩, ⟨.R3, .a, .b, .c, .d, .e, 13⟩, ⟨.R3, .e, .a, .b, .c, .d, 14⟩, ⟨.R3, .d, .e, .a, .b, .c, 15⟩,
    ⟨.R3, .c, .d, .e, .a, .b, 0⟩, ⟨.R3, .b, .c, .d, .e, .a, 1⟩, ⟨.R3, .a, .b, .c, .d, .e, 2⟩, ⟨.R3, .e, .a, .b, .c, .d, 3⟩,
    ⟨.R3, .d, .e, .a, .b, .c, 4⟩, ⟨.R3, .c, .d, .e, .a, .b, 5⟩, ⟨.R3, .b, .c, .d, .e, .a, 6⟩, ⟨.R3, .a, .b, .c, .d, .e, 7⟩,
    ⟨.R3, .e, .a, .b, .c, .d, 8⟩, ⟨.R3, .d, .e, .a, .b, .c, 9⟩, ⟨.R3, .c, .d, .e, .a, .b, 10⟩, ⟨.R3, .b, .c, .d, .e, .a, 11⟩
  ]

def round4 : List Sha1Call :=
  [
    ⟨.R4, .a, .b, .c, .d, .e, 12⟩, ⟨.R4, .e, .a, .b, .c, .d, 13⟩, ⟨.R4, .d, .e, .a, .b, .c, 14⟩, ⟨.R4, .c, .d, .e, .a, .b, 15⟩,
    ⟨.R4, .b, .c, .d, .e, .a, 0⟩, ⟨.R4, .a, .b, .c, .d, .e, 1⟩, ⟨.R4, .e, .a, .b, .c, .d, 2⟩, ⟨.R4, .d, .e, .a, .b, .c, 3⟩,
    ⟨.R4, .c, .d, .e, .a, .b, 4⟩, ⟨.R4, .b, .c, .d, .e, .a, 5⟩, ⟨.R4, .a, .b, .c, .d, .e, 6⟩, ⟨.R4, .e, .a, .b, .c, .d, 7⟩,
    ⟨.R4, .d, .e, .a, .b, .c, 8⟩, ⟨.R4, .c, .d, .e, .a, .b, 9⟩, ⟨.R4, .b, .c, .d, .e, .a, 10⟩, ⟨.R4, .a, .b, .c, .d, .e, 11⟩,
    ⟨.R4, .e, .a, .b, .c, .d, 12⟩, ⟨.R4, .d, .e, .a, .b, .c, 13⟩, ⟨.R4, .c, .d, .e, .a, .b, 14⟩, ⟨.R4, .b, .c, .d, .e, .a, 15⟩
  ]

def unrolled : List Sha1Call := round1 ++ round2 ++ round3 ++ round4

namespace SHA1

/-- Copy `digest` to the working variables. -/
def locals (digest : Digest) (block : Vector UInt32 16) : Sha1Locals where
  vars
    | .a => digest.a
    | .b => digest.b
    | .c => digest.c
    | .d => digest.d
    | .e => digest.e
  block := block

/-- `transform`, without its counter: the digest, and what is left in the block. -/
def transform (digest : Digest) (block : Vector UInt32 16) : Digest × Vector UInt32 16 :=
  let done := unrolled.foldl (fun s call => call.run s) (locals digest block)
  ({  a := digest.a + done.vars .a
      b := digest.b + done.vars .b
      c := digest.c + done.vars .c
      d := digest.d + done.vars .d
      e := digest.e + done.vars .e }, done.block)

/-! ## The stream of bytes -/

def blockBytes : Nat := 64

def bufferToBlock (buffer : List Byte) : Vector UInt32 16 :=
  Vector.ofFn fun i =>
    (buffer.getD (4 * i + 3) 0).toUInt32 ||| (buffer.getD (4 * i + 2) 0).toUInt32 <<< 8 |||
      (buffer.getD (4 * i + 1) 0).toUInt32 <<< 16 ||| (buffer.getD (4 * i) 0).toUInt32 <<< 24

end SHA1

/-- Between two calls the buffer is not full. -/
structure SHA1 where
  digest : Digest
  buffer : List Byte
  transforms : UInt64
  notFull : buffer.length < SHA1.blockBytes

namespace SHA1

theorem notFull_nil : ([] : List Byte).length < blockBytes := Nat.zero_lt_succ 63

/-- `reset`. -/
def reset : SHA1 where
  digest := ⟨0x67452301, 0xefcdab89, 0x98badcfe, 0x10325476, 0xc3d2e1f0⟩
  buffer := []
  transforms := 0
  notFull := notFull_nil

theorem length_of_read {s : SHA1} {is : List Byte}
    (h : (s.buffer ++ is.take (blockBytes - s.buffer.length)).length ≠ blockBytes) :
    (s.buffer ++ is.take (blockBytes - s.buffer.length)).length < blockBytes := by
  have hroom := s.notFull
  rw [List.length_append, List.length_take] at *
  omega

/-- `update`, which reads the stream as far as the buffer has room for it. -/
def update (s : SHA1) (is : List Byte) : SHA1 :=
  let buffer := s.buffer ++ is.take (blockBytes - s.buffer.length)
  if hsize : buffer.length ≠ blockBytes then { s with buffer, notFull := length_of_read hsize }
  else
    update {
      digest := (transform s.digest (bufferToBlock buffer)).1
      buffer := []
      transforms := s.transforms + 1
      notFull := notFull_nil } (is.drop (blockBytes - s.buffer.length))
termination_by is.length
decreasing_by
  have hroom := s.notFull
  have hfull : (s.buffer ++ is.take (blockBytes - s.buffer.length)).length = blockBytes :=
    Decidable.not_not.mp hsize
  rw [List.length_append, List.length_take] at hfull
  rw [List.length_drop]
  omega

/-- A digit as `std::hex` writes it. -/
def digitChar (digit : Nat) : Byte :=
  if digit < 10 then UInt8.ofNat (48 + digit) else UInt8.ofNat (87 + digit)

/-- A word with `std::hex`, `setfill('0')` and `setw(8)`. -/
def hexWord (value : UInt32) : List Byte :=
  (List.range 8).map fun i => digitChar (value.toNat / 16 ^ (7 - i) % 16)

def hexText (digest : Digest) : List Byte := digest.values.flatMap hexWord

/-- The first words are zero. -/
def clearWords (block : Vector UInt32 16) : Vector UInt32 16 :=
  Vector.ofFn fun i => if i.val < 14 then 0 else block[i]

/-- Append `total_bits`, split into two words. -/
def appendBits (block : Vector UInt32 16) (totalBits : UInt64) : Vector UInt32 16 :=
  (block.set 15 totalBits.toUInt32).set 14 (totalBits >>> 32).toUInt32

/-- `final`: the text of the digest, and what the object is afterwards. -/
def final (s : SHA1) : List Byte × SHA1 :=
  let totalBits := (s.transforms * 64 + UInt64.ofNat s.buffer.length) * 8
  let buffer := s.buffer ++ [0x80]
  let origSize := buffer.length
  let block := bufferToBlock (buffer ++ List.replicate (blockBytes - origSize) 0)
  let (digest, block) :=
    if blockBytes - 8 < origSize then
      let (digest, block) := transform s.digest block
      (digest, clearWords block)
    else (s.digest, block)
  (hexText (transform digest (appendBits block totalBits)).1, reset)

/-- `strtol` with the base 16, for a text of at most two characters. -/
def strtol (text : List Byte) : Int := (Url.extractHex text).getD 0

def toBinary : List Byte → List Byte
  | [] => []
  | [c] => [Url.toChar (strtol [c])]
  | c :: d :: str => Url.toChar (strtol [c, d]) :: toBinary str

end SHA1

end Tubekit
