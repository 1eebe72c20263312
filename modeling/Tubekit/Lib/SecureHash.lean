import Mathlib.Algebra.Ring.Nat
import Mathlib.Data.UInt
import Tubekit.Lib.BlockStream

/-!
# The secure hash standard

SHA-1 as the standard defines it: a message is padded to whole blocks of 64 bytes, and each block
is compressed into the digest by 80 steps with a schedule of 80 words. The state of a step is the
five words `a`, `b`, `c`, `d`, `e` in this order.
-/

namespace Tubekit.Lib.SecureHash

open BlockStream

structure Digest where
  a : UInt32
  b : UInt32
  c : UInt32
  d : UInt32
  e : UInt32
  deriving DecidableEq

namespace Digest

def values (s : Digest) : List UInt32 := [s.a, s.b, s.c, s.d, s.e]

def add (s t : Digest) : Digest := ⟨s.a + t.a, s.b + t.b, s.c + t.c, s.d + t.d, s.e + t.e⟩

end Digest

/-! ## Functions and constants -/

/-- Rotation to the left. -/
def rotl (x : UInt32) (n : Nat) : UInt32 := ⟨x.toBitVec.rotateLeft n⟩

def choose (x y z : UInt32) : UInt32 := (x &&& y) ^^^ (~~~x &&& z)

def parity (x y z : UInt32) : UInt32 := x ^^^ y ^^^ z

def majority (x y z : UInt32) : UInt32 := (x &&& y) ^^^ (x &&& z) ^^^ (y &&& z)

/-- The function of step `t`. -/
def function (t : Nat) : UInt32 → UInt32 → UInt32 → UInt32 :=
  if t < 20 then choose else if t < 40 then parity else if t < 60 then majority else parity

/-- The constant of step `t`. -/
def constant (t : Nat) : UInt32 :=
  if t < 20 then 0x5a827999
  else if t < 40 then 0x6ed9eba1
  else if t < 60 then 0x8f1bbcdc
  else 0xca62c1d6

def initial : Digest := ⟨0x67452301, 0xefcdab89, 0x98badcfe, 0x10325476, 0xc3d2e1f0⟩

/-! ## A block -/

/-- Four bytes as a number, the first one on top. -/
def word (b₀ b₁ b₂ b₃ : UInt8) : UInt32 :=
  UInt32.ofNat (((b₀.toNat * 256 + b₁.toNat) * 256 + b₂.toNat) * 256 + b₃.toNat)

/-- The words of a block. -/
def words (block : List UInt8) : Vector UInt32 16 :=
  Vector.ofFn fun i => word (block.getD (4 * i) 0) (block.getD (4 * i + 1) 0)
    (block.getD (4 * i + 2) 0) (block.getD (4 * i + 3) 0)

/-- Word `t` of the message schedule. -/
def schedule (m : Vector UInt32 16) (t : Nat) : UInt32 :=
  if h : t < 16 then m[t]
  else
    rotl (schedule m (t - 3) ^^^ schedule m (t - 8) ^^^ schedule m (t - 14) ^^^
      schedule m (t - 16)) 1

def step (m : Vector UInt32 16) (t : Nat) (s : Digest) : Digest where
  a := rotl s.a 5 + function t s.b s.c s.d + s.e + constant t + schedule m t
  b := s.a
  c := rotl s.b 30
  d := s.c
  e := s.d

/-- The first `t` steps. -/
def steps (m : Vector UInt32 16) (s : Digest) : Nat → Digest
  | 0 => s
  | t + 1 => step m t (steps m s t)

/-- The digest with a block compressed into it. -/
def compress (s : Digest) (block : List UInt8) : Digest :=
  s.add (steps (words block) s 80)

/-! ## A message -/

/-- The last eight bytes: the number of bits of the message. -/
def lengthBytes (bits : Nat) : List UInt8 :=
  (List.range 8).map fun i => UInt8.ofNat (bits / 256 ^ (7 - i))

/-- What is put behind a message of this length. -/
def padding (length : Nat) : List UInt8 :=
  0x80 :: List.replicate ((119 - length % 64) % 64) 0 ++ lengthBytes (8 * length)

/-- The digest of a message. -/
def digest (message : List UInt8) : Digest :=
  (blocks 64 (message ++ padding message.length)).foldl compress initial

@[simp] theorem length_lengthBytes (bits : Nat) : (lengthBytes bits).length = 8 := by
  simp [lengthBytes]

/-- A padded message has no part of a block. -/
theorem padded_length (message : List UInt8) :
    (message ++ padding message.length).length % 64 = 0 := by
  simp only [padding, List.length_append, List.length_cons, List.length_replicate,
    length_lengthBytes]
  omega

/-- A word from four bytes of a number. -/
theorem word_of_number (n : Nat) :
    word (UInt8.ofNat (n / 256 ^ 3)) (UInt8.ofNat (n / 256 ^ 2)) (UInt8.ofNat (n / 256))
      (UInt8.ofNat n) = UInt32.ofNat n := by
  have hnumber : ((n / 256 ^ 3 % 256 * 256 + n / 256 ^ 2 % 256) * 256 + n / 256 % 256) * 256 +
      n % 256 = n % 4294967296 := by omega
  simp only [word, UInt8.toNat_ofNat']
  rw [show 2 ^ 8 = 256 from rfl, hnumber]
  exact UInt32.ofNat_mod_size

end Tubekit.Lib.SecureHash
