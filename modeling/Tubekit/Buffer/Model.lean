import Mathlib.Algebra.Ring.Nat
import Tubekit.Lib.Memory

/-!
# `tubekit::buffer::buffer`

The growing byte buffer of `external/tubekit-buffer/buffer.cpp`, through which all data of
every connection goes. Storage is allocated on first use (`checkInit`), a write appends in
place, or moves the unread bytes to the front (`moveToBefore`), or reallocates.

Pointers into the storage are offsets from `m_buffer`, `none` being `nullptr`. Sizes are
`uint64_t`: sums and differences wrap (`u64Add`, `u64Sub`). Allocation succeeds, and the
bytes of fresh memory are unspecified: `heap` is the stream they are taken from, so nothing
is known about a byte before it is written. A call that throws `std::runtime_error` still
leaves a state, so every operation returns one next to its result.
-/

namespace Tubekit

open Lib

abbrev Byte := UInt8

/-- Addition of `uint64_t`. -/
def u64Add (a b : Nat) : Nat := (a + b) % 2 ^ 64

/-- Subtraction of `uint64_t`. -/
def u64Sub (a b : Nat) : Nat := (2 ^ 64 + a - b) % 2 ^ 64

theorem u64Add_of_lt {a b : Nat} (h : a + b < 2 ^ 64) : u64Add a b = a + b :=
  Nat.mod_eq_of_lt h

theorem u64Sub_of_le {a b : Nat} (h : b ≤ a) (ha : a < 2 ^ 64) : u64Sub a b = a - b := by
  unfold u64Sub
  rw [show 2 ^ 64 + a - b = a - b + 2 ^ 64 from by omega, Nat.add_mod_right]
  exact Nat.mod_eq_of_lt (by omega)

/-- The two reasons for which `buffer.cpp` throws while allocation succeeds. -/
inductive BufferError where
  | nullOrEmpty
  | overLimit
  deriving DecidableEq, Repr

/-- The text of the `std::runtime_error`. -/
def BufferError.what : BufferError → String
  | .nullOrEmpty => "dest == nullptr || size == 0"
  | .overLimit => "should_add_size + m_size > m_limit_max"

structure Buffer where
  limitMax : Nat
  size : Nat
  readPtr : Option Nat
  writePtr : Option Nat
  buffer : Option (Nat → Byte)
  heap : Nat → Byte

namespace Buffer

/-- The size of the first allocation and the smallest limit. -/
def initSize : Nat := 1024

/-- `buffer::buffer()`. -/
def new (heap : Nat → Byte) : Buffer :=
  { limitMax := initSize, size := 0, readPtr := none, writePtr := none, buffer := none, heap }

def readOff (b : Buffer) : Nat := b.readPtr.getD 0

def writeOff (b : Buffer) : Nat := b.writePtr.getD 0

/-- The cells of the storage. Before the first allocation there is none to look at. -/
def cells (b : Buffer) : Nat → Byte := b.buffer.getD b.heap

def checkInit (b : Buffer) : Buffer :=
  if b.buffer.isNone && b.writePtr.isNone && b.readPtr.isNone then
    { b with
      buffer := some b.heap
      size := initSize
      readPtr := some 0
      writePtr := some 0
      heap := fun i => b.heap (i + initSize) }
  else b

/-- `get_readable_size`, after the `check_init` of its caller. -/
def getReadableSize (b : Buffer) : Nat := u64Sub b.writeOff b.readOff

/-- `after_size`, after the `check_init` of its caller. -/
def afterSize (b : Buffer) : Nat := u64Sub b.size b.writeOff

def read (b : Buffer) (dest : Bool) (size : Nat) : Except BufferError (List Byte) × Buffer :=
  let b := b.checkInit
  if !dest || size == 0 then
    (.error .nullOrEmpty, b)
  else
    let canReadable := b.getReadableSize
    if size ≤ canReadable then
      (.ok (Memory.load b.cells b.readOff size), { b with readPtr := some (b.readOff + size) })
    else
      (.ok (Memory.load b.cells b.readOff canReadable),
        { b with readPtr := some (b.readOff + canReadable) })

/-- `check_and_write`: append in place when the bytes fit behind the write cursor. -/
def checkAndWrite (b : Buffer) (source : List Byte) : Bool × Buffer :=
  let b := b.checkInit
  if source.length ≤ b.afterSize then
    (true, { b with
      buffer := some (Memory.store b.cells b.writeOff source)
      writePtr := some (b.writeOff + source.length) })
  else (false, b)

/-- `move_to_before`: the unread bytes go to the front of the storage. -/
def moveToBefore (b : Buffer) : Buffer :=
  let b := b.checkInit
  let readable := b.getReadableSize
  { b with
    buffer := some (Memory.store b.cells 0 (Memory.load b.cells b.readOff readable))
    writePtr := some readable
    readPtr := some 0 }

/-- The `realloc` of `write` with the adjustment of the cursors. -/
def reallocBy (b : Buffer) (shouldAddSize : Nat) : Buffer :=
  { b with
    buffer := some (Memory.grow b.cells b.size b.heap)
    size := u64Add b.size shouldAddSize
    heap := fun i => b.heap (i + shouldAddSize) }

/-- `buffer::write`. A `source` of `none` is `nullptr`; otherwise `size` is the length of
`source`. -/
def write (b : Buffer) (source : Option (List Byte)) : Except BufferError Nat × Buffer :=
  let b := b.checkInit
  match source with
  | none => (.error .nullOrEmpty, b)
  | some source =>
    if source.length == 0 then
      (.error .nullOrEmpty, b)
    else
      match b.checkAndWrite source with
      | (true, b) => (.ok source.length, b)
      | (false, b) =>
        match b.moveToBefore.checkAndWrite source with
        | (true, b) => (.ok source.length, b)
        | (false, b) =>
          let shouldAddSize := u64Sub source.length b.afterSize
          if u64Add shouldAddSize b.size > b.limitMax then
            (.error .overLimit, b)
          else
            (.ok source.length, ((b.reallocBy shouldAddSize).checkAndWrite source).2)

def canReadableSize (b : Buffer) : Nat × Buffer :=
  let b := b.checkInit
  (b.getReadableSize, b)

def setLimitMax (b : Buffer) (limitMax : Nat) : Buffer :=
  if limitMax < b.limitMax then b
  else { b with limitMax := if limitMax < initSize then initSize else limitMax }

def clear (b : Buffer) : Buffer :=
  { b with buffer := none, readPtr := none, writePtr := none, size := 0, limitMax := initSize }

/-- `copy_all`: the bytes copied to `out`, whose number is the return value. Neither a null
`out` nor a too small one is written to. -/
def copyAll (b : Buffer) (out : Bool) (outLen : Nat) : List Byte × Buffer :=
  if !out then
    ([], b)
  else
    let b := b.checkInit
    let allBytes := b.getReadableSize
    if outLen < allBytes then ([], b) else (Memory.load b.cells b.readOff allBytes, b)

def readPtrMoveN (b : Buffer) (n : Nat) : Bool × Buffer :=
  if n == 0 then
    (true, b)
  else
    let b := b.checkInit
    let allBytes := b.getReadableSize
    if n > allBytes then (false, b) else (true, { b with readPtr := some (b.readOff + n) })

/-- `force_get_read_ptr`: the unread bytes as the caller sees them through the pointer. -/
def forceGetReadPtr (b : Buffer) : (Nat → Byte) × Buffer :=
  let b := b.checkInit
  (fun i => b.cells (b.readOff + i), b)

def blankSpace (b : Buffer) : Nat × Buffer :=
  let b := b.checkInit
  let canPromoteBytes := u64Sub b.limitMax b.size
  (u64Add b.afterSize canPromoteBytes, b)

end Buffer

end Tubekit
