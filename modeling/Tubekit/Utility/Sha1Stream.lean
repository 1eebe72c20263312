import Mathlib.Data.List.GetD
import Tubekit.Utility.Sha1Compression

/-!
# Messages through `SHA1`

Between two calls the object has the digest of the complete blocks so far and the part of a block
that is left (`Hashed`). How a message is cut into calls of `update` does not show in what `final`
gives: it is the digest of the padded message. Afterwards the object is as new.
-/

namespace Tubekit

open Lib SecureHash BlockStream

/-! ## The words of a block -/

/-- A number in the bits above another one. -/
theorem or_shiftLeft {low n : Nat} (high : Nat) (h : low < 2 ^ n) :
    low ||| high <<< n = high * 2 ^ n + low := by
  rw [Nat.or_comm, ← Nat.shiftLeft_add_eq_or_of_lt h, Nat.shiftLeft_eq]

theorem word_eq (b₀ b₁ b₂ b₃ : Byte) :
    b₃.toUInt32 ||| b₂.toUInt32 <<< 8 ||| b₁.toUInt32 <<< 16 ||| b₀.toUInt32 <<< 24 =
      word b₀ b₁ b₂ b₃ := by
  have h₀ := b₀.toNat_lt
  have h₁ := b₁.toNat_lt
  have h₂ := b₂.toNat_lt
  have h₃ := b₃.toNat_lt
  have hshift (b : Byte) (n : UInt32) (hn : n.toNat ≤ 24) :
      (b.toUInt32 <<< n).toNat = b.toNat <<< n.toNat := by
    have hb := b.toNat_lt
    have hmod : n.toNat % 32 = n.toNat := Nat.mod_eq_of_lt (by omega)
    rw [UInt32.toNat_shiftLeft, hmod, UInt8.toNat_toUInt32]
    apply Nat.mod_eq_of_lt
    rw [Nat.shiftLeft_eq]
    calc b.toNat * 2 ^ n.toNat < 2 ^ 8 * 2 ^ n.toNat := by
          apply Nat.mul_lt_mul_of_pos_right hb (Nat.two_pow_pos _)
      _ ≤ 2 ^ 8 * 2 ^ 24 := Nat.mul_le_mul_left _ (Nat.pow_le_pow_right (by omega) hn)
  apply UInt32.toNat_inj.mp
  rw [word, UInt32.toNat_ofNat', Nat.mod_eq_of_lt (by omega), UInt32.toNat_or, UInt32.toNat_or,
    UInt32.toNat_or, hshift b₂ 8 (by decide), hshift b₁ 16 (by decide), hshift b₀ 24 (by decide),
    UInt8.toNat_toUInt32]
  simp only [UInt32.reduceToNat]
  rw [or_shiftLeft b₂.toNat h₃, or_shiftLeft b₁.toNat (by omega), or_shiftLeft b₀.toNat (by omega)]
  omega

theorem bufferToBlock_eq (buffer : List Byte) : SHA1.bufferToBlock buffer = words buffer := by
  unfold SHA1.bufferToBlock words
  congr 1
  funext i
  exact word_eq _ _ _ _

/-! ## `update` -/

namespace SHA1

theorem transform_bufferToBlock (h : Digest) (buffer : List Byte) :
    (transform h (bufferToBlock buffer)).1 = compress h buffer := by
  rw [transform_eq, bufferToBlock_eq, compress]

/-- `update` takes the piece byte by byte, and counts. -/
theorem update_spec (s : SHA1) (is : List Byte) :
    ((s.update is).digest, (s.update is).buffer) = feed 64 compress (s.digest, s.buffer) is ∧
      (s.update is).transforms * 64 + UInt64.ofNat (s.update is).buffer.length =
        s.transforms * 64 + UInt64.ofNat s.buffer.length + UInt64.ofNat is.length := by
  induction s, is using update.induct with
  | case1 s is buffer hsize =>
    have hroom : s.buffer.length < 64 := s.notFull
    have hlen : buffer.length = s.buffer.length + min (64 - s.buffer.length) is.length := by
      rw [List.length_append, List.length_take]
      rfl
    have hne : buffer.length ≠ 64 := hsize
    have hall : s.buffer.length + is.length < 64 := by omega
    have htake : buffer = s.buffer ++ is := by
      apply congrArg (s.buffer ++ ·)
      apply List.take_of_length_le
      rw [blockBytes]
      omega
    have hfeed : feed 64 compress (s.digest, s.buffer) is = (s.digest, s.buffer ++ is) :=
      feed_short hall
    rw [update, dif_pos hsize, hfeed]
    refine ⟨congrArg (Prod.mk s.digest) htake, ?_⟩
    change s.transforms * 64 + UInt64.ofNat buffer.length = _
    rw [htake, List.length_append, UInt64.ofNat_add, UInt64.add_assoc]
  | case2 s is buffer hsize ih =>
    have hroom : s.buffer.length < 64 := s.notFull
    have hfull : buffer.length = 64 := Decidable.not_not.mp hsize
    have hjoin : s.buffer.length + (is.take (64 - s.buffer.length)).length = 64 :=
      List.length_append.symm.trans hfull
    have hne : is.take (64 - s.buffer.length) ≠ [] := by
      apply List.ne_nil_of_length_pos
      omega
    have hfeed : feed 64 compress (s.digest, s.buffer) is =
        feed 64 compress (compress s.digest buffer, []) (is.drop (64 - s.buffer.length)) := by
      have hblock : feed 64 compress (s.digest, s.buffer) (is.take (64 - s.buffer.length)) =
          (compress s.digest buffer, []) := feed_full hne hjoin
      rw [← hblock, ← feed_append, List.take_append_drop]
    have hcount : UInt64.ofNat s.buffer.length + UInt64.ofNat is.length =
        64 + UInt64.ofNat (is.drop (64 - s.buffer.length)).length := by
      rw [← UInt64.ofNat_add, ← List.take_append_drop (64 - s.buffer.length) is, List.length_append,
        ← Nat.add_assoc, hjoin, List.take_append_drop, UInt64.ofNat_add]
      rfl
    rw [update, dif_neg hsize, hfeed]
    refine ⟨?_, ?_⟩
    · rw [ih.1, transform_bufferToBlock]
      rfl
    · rw [ih.2, UInt64.add_assoc (s.transforms * 64), hcount, ← UInt64.add_assoc]
      change (s.transforms + 1) * 64 + 0 + UInt64.ofNat (is.drop (64 - s.buffer.length)).length = _
      rw [UInt64.add_mul, UInt64.one_mul, UInt64.add_zero]

/-! ## `final` -/

/-- The object after the bytes of a message, in whatever pieces they came. -/
structure Hashed (s : SHA1) (message : List Byte) : Prop where
  fed : (s.digest, s.buffer) = feed 64 compress (initial, []) message
  count : s.transforms * 64 + UInt64.ofNat s.buffer.length = UInt64.ofNat message.length

variable {s : SHA1} {message : List Byte}

theorem hashed_reset : Hashed reset [] where
  fed := rfl
  count := rfl

theorem Hashed.update (h : Hashed s message) (is : List Byte) :
    Hashed (s.update is) (message ++ is) where
  fed := by rw [(update_spec s is).1, h.fed, feed_append]
  count := by rw [(update_spec s is).2, h.count, List.length_append, UInt64.ofNat_add]

theorem Hashed.length_mod (h : Hashed s message) : s.buffer.length = message.length % 64 := by
  have hfed := h.fed
  rw [feed_eq (by omega)] at hfed
  rw [(Prod.mk.inj hfed).2, remainder_length]

/-- What is left to do for the digest: take the padding. -/
theorem Hashed.digest_eq (h : Hashed s message) :
    SecureHash.digest message = (feed 64 compress (s.digest, s.buffer) (padding message.length)).1 := by
  rw [h.fed, ← feed_append, feed_eq (by omega)]
  rfl

theorem getElem_words (block : List Byte) {i : Nat} (hi : i < 16) :
    (words block)[i] = word (block.getD (4 * i) 0) (block.getD (4 * i + 1) 0)
      (block.getD (4 * i + 2) 0) (block.getD (4 * i + 3) 0) := by
  simp [words]

theorem getElem_words_append {front : List Byte} (hfront : front.length = 56) (back : List Byte)
    {i : Nat} (hi : i < 14) : (words (front ++ back))[i] = (words front)[i] := by
  rw [getElem_words, getElem_words, List.getD_append, List.getD_append, List.getD_append,
    List.getD_append] <;> omega

theorem getD_lengthBytes (bits : Nat) {i : Nat} (hi : i < 8) :
    (lengthBytes bits).getD i 0 = UInt8.ofNat (bits / 256 ^ (7 - i)) := by
  simp [lengthBytes, List.getD_eq_getElem?_getD, hi]

theorem totalBits_low (n : Nat) : (UInt64.ofNat n * 8).toUInt32 = UInt32.ofNat (8 * n) := by
  apply UInt32.toNat_inj.mp
  simp
  omega

theorem totalBits_high (n : Nat) :
    ((UInt64.ofNat n * 8) >>> 32).toUInt32 = UInt32.ofNat (8 * n / 256 ^ 4) := by
  apply UInt32.toNat_inj.mp
  simp [Nat.shiftRight_eq_div_pow]
  omega

/-- The last two words are set to the number of bits. -/
theorem set_bits {block : Vector UInt32 16} {front : List Byte} (hfront : front.length = 56)
    (n : Nat) (hblock : ∀ i, (hi : i < 14) → block[i] = (words front)[i]) :
    appendBits block (UInt64.ofNat n * 8) = words (front ++ lengthBytes (8 * n)) := by
  obtain ⟨bits, hbits⟩ : ∃ bits, bits = 8 * n := ⟨_, rfl⟩
  rw [appendBits, totalBits_low, totalBits_high, ← hbits]
  have hbyte (i : Nat) (hlow : 56 ≤ i) (hhigh : i < 64) :
      (front ++ lengthBytes bits).getD i 0 = UInt8.ofNat (bits / 256 ^ (63 - i)) := by
    rw [List.getD_append_right _ _ _ _ (by omega), getD_lengthBytes bits (by omega), hfront]
    congr 3
    omega
  have hword (i : Nat) (hlow : 56 ≤ 4 * i) (hi : i < 16) :
      (words (front ++ lengthBytes bits))[i] = UInt32.ofNat (bits / 256 ^ (60 - 4 * i)) := by
    have hdiv (j : Nat) (hj : j < 4) : (front ++ lengthBytes bits).getD (4 * i + j) 0 =
        UInt8.ofNat (bits / 256 ^ (60 - 4 * i) / 256 ^ (3 - j)) := by
      have hsum : 63 - (4 * i + j) = 60 - 4 * i + (3 - j) := by omega
      rw [hbyte _ (by omega) (by omega), Nat.div_div_eq_div_mul, ← Nat.pow_add, hsum]
    have htop := hdiv 0 (by omega)
    have hlast := hdiv 3 (by omega)
    rw [Nat.add_zero] at htop
    rw [Nat.sub_self, Nat.pow_zero, Nat.div_one] at hlast
    rw [getElem_words, htop, hdiv 1 (by omega), hdiv 2 (by omega), hlast, ← word_of_number]
    rfl
  apply Vector.ext
  intro i hi
  by_cases h14 : i = 14
  · subst h14
    rw [Vector.getElem_set_self, hword 14 (by omega) hi]
  by_cases h15 : i = 15
  · subst h15
    rw [Vector.getElem_set_ne _ _ (by omega), Vector.getElem_set_self, hword 15 (by omega) hi,
      Nat.pow_zero, Nat.div_one]
  · rw [Vector.getElem_set_ne _ _ (by omega), Vector.getElem_set_ne _ _ (by omega),
      hblock i (by omega), getElem_words_append hfront _ (by omega)]

/-- The padding fits behind what is in the buffer. -/
theorem final_short (h : Hashed s message) (hshort : s.buffer.length < 56) :
    s.final.1 = hexText (SecureHash.digest message) := by
  have hmod := h.length_mod
  let front := s.buffer ++ 0x80 :: List.replicate (55 - s.buffer.length) 0
  have hfront : front.length = 56 := by
    simp only [front, List.length_append, List.length_cons, List.length_replicate]
    omega
  have hpadding : s.buffer ++ padding message.length = front ++ lengthBytes (8 * message.length) := by
    have hzeros : (119 - message.length % 64) % 64 = 55 - s.buffer.length := by omega
    simp only [padding, front, hzeros, List.append_assoc, List.cons_append]
  have hdigest : SecureHash.digest message =
      compress s.digest (front ++ lengthBytes (8 * message.length)) := by
    have hlen : s.buffer.length + (padding message.length).length = 64 := by
      rw [← List.length_append, hpadding, List.length_append, hfront, length_lengthBytes]
    have hfeed : feed 64 compress (s.digest, s.buffer) (padding message.length) =
        (compress s.digest (s.buffer ++ padding message.length), []) :=
      feed_full (List.cons_ne_nil _ _) hlen
    rw [h.digest_eq, hfeed, hpadding]
  have hbuffer : s.buffer ++ [0x80] ++ List.replicate (64 - (s.buffer.length + 1)) 0 =
      front ++ List.replicate 8 0 := by
    have hzeros : 64 - (s.buffer.length + 1) = 55 - s.buffer.length + 8 := by omega
    simp only [front, hzeros, List.replicate_add, List.append_assoc, List.cons_append,
      List.nil_append]
  have hblock (i : Nat) (hi : i < 14) :
      (bufferToBlock (s.buffer ++ [0x80] ++ List.replicate (64 - (s.buffer.length + 1)) 0))[i] =
        (words front)[i] := by
    simp only [bufferToBlock_eq, hbuffer]
    exact getElem_words_append hfront _ hi
  have hsize : ¬blockBytes - 8 < (s.buffer ++ [0x80]).length := by
    rw [List.length_append, List.length_singleton, blockBytes]
    omega
  simp only [final, if_neg hsize, h.count]
  rw [List.length_append, List.length_singleton]
  change hexText (transform s.digest (appendBits (bufferToBlock (s.buffer ++ [0x80] ++
    List.replicate (64 - (s.buffer.length + 1)) 0)) _)).1 = _
  rw [set_bits hfront _ hblock, transform_eq, hdigest, compress]

theorem getElem_words_zeros (n : Nat) {i : Nat} (hi : i < 16) :
    (words (List.replicate n 0))[i] = 0 := by
  have hget (j : Nat) : (List.replicate n (0 : Byte)).getD j 0 = 0 := by
    rw [List.getD_eq_getElem?_getD, List.getElem?_replicate]
    split <;> rfl
  rw [getElem_words, hget, hget, hget, hget]
  rfl

theorem set_bits_zeros (block : Vector UInt32 16) (n : Nat) :
    appendBits (clearWords block) (UInt64.ofNat n * 8) =
      words (List.replicate 56 0 ++ lengthBytes (8 * n)) := by
  apply set_bits List.length_replicate
  intro i hi
  rw [getElem_words_zeros, clearWords, Vector.getElem_ofFn, if_pos hi]

/-- The number of bits does not fit any more: the padding goes over two blocks. -/
theorem final_long (h : Hashed s message) (hlong : 56 ≤ s.buffer.length) :
    s.final.1 = hexText (SecureHash.digest message) := by
  have hroom : s.buffer.length < 64 := s.notFull
  have hmod := h.length_mod
  obtain ⟨zeros, hzeros⟩ : ∃ zeros : List Byte, zeros = List.replicate 56 0 := ⟨_, rfl⟩
  have hlength : zeros.length = 56 := by rw [hzeros, List.length_replicate]
  let first : List Byte := [0x80] ++ List.replicate (64 - (s.buffer.length + 1)) 0
  have hfirst : s.buffer.length + first.length = 64 := by
    simp only [first, List.length_append, List.length_singleton, List.length_replicate]
    omega
  have hpadding : padding message.length =
      first ++ (zeros ++ lengthBytes (8 * message.length)) := by
    have hcount : (119 - message.length % 64) % 64 = 64 - (s.buffer.length + 1) + 56 := by omega
    rw [hzeros]
    simp only [padding, first, hcount, List.replicate_add, List.append_assoc, List.cons_append,
      List.nil_append]
  have hdigest : SecureHash.digest message =
      compress (compress s.digest (s.buffer ++ first))
        (zeros ++ lengthBytes (8 * message.length)) := by
    have hfull : feed 64 compress (s.digest, s.buffer) first =
        (compress s.digest (s.buffer ++ first), []) := feed_full (List.cons_ne_nil _ _) hfirst
    have hlen : (zeros ++ lengthBytes (8 * message.length)).length = 64 := by
      rw [List.length_append, hlength, length_lengthBytes]
    have hne : zeros ++ lengthBytes (8 * message.length) ≠ [] := by
      apply List.ne_nil_of_length_pos
      omega
    have hrest (acc : Digest) :
        feed 64 compress (acc, []) (zeros ++ lengthBytes (8 * message.length)) =
          (compress acc (zeros ++ lengthBytes (8 * message.length)), []) :=
      feed_full hne ((Nat.zero_add _).trans hlen)
    rw [h.digest_eq, hpadding, feed_append, hfull, hrest]
  have hsize : blockBytes - 8 < (s.buffer ++ [0x80]).length := by
    rw [List.length_append, List.length_singleton, blockBytes]
    omega
  simp only [final, if_pos hsize, h.count]
  rw [set_bits_zeros, ← hzeros, transform_eq, transform_bufferToBlock, hdigest, compress,
    List.length_append, List.length_singleton, List.append_assoc]
  rfl

/-- `final` gives the digest of the message. -/
theorem final_eq (h : Hashed s message) :
    s.final = (hexText (SecureHash.digest message), reset) := by
  apply Prod.ext
  · by_cases hshort : s.buffer.length < 56
    · exact final_short h hshort
    · exact final_long h (by omega)
  · rfl

/-! ## Sequences of calls -/

/-- A call of `update` with what the stream gives, or of `final`. -/
inductive Call
  | update (is : List Byte)
  | final

/-- What calls one after the other return. -/
def calls (s : SHA1) : List Call → List (List Byte)
  | [] => []
  | .update is :: more => (s.update is).calls more
  | .final :: more => s.final.1 :: s.final.2.calls more

/-- The messages between the calls of `final`, the first one begun with `message`. -/
def messages (message : List Byte) : List Call → List (List Byte)
  | [] => []
  | .update is :: more => messages (message ++ is) more
  | .final :: more => message :: messages [] more

theorem Hashed.calls_eq (h : Hashed s message) (cs : List Call) :
    s.calls cs = (messages message cs).map fun m => hexText (SecureHash.digest m) := by
  induction cs generalizing s message with
  | nil => rfl
  | cons c cs ih =>
    cases c with
    | update is => exact ih (h.update is)
    | final =>
      rw [calls, messages, List.map_cons, final_eq h]
      exact congrArg _ (ih hashed_reset)

/-- Every call of `final` returns the digest of what came since the one before it. -/
theorem calls_digests (cs : List Call) :
    reset.calls cs = (messages [] cs).map fun m => hexText (SecureHash.digest m) :=
  hashed_reset.calls_eq cs

/-! ## `to_binary` -/

/-- The bytes of a number, the first one on top. -/
def bytes (value : UInt32) : List Byte :=
  [UInt8.ofNat (value.toNat / 256 ^ 3), UInt8.ofNat (value.toNat / 256 ^ 2),
    UInt8.ofNat (value.toNat / 256), UInt8.ofNat value.toNat]

theorem toBinary_digits {high low : Nat} (hhigh : high < 16) (hlow : low < 16) (str : List Byte) :
    toBinary (digitChar high :: digitChar low :: str) =
      UInt8.ofNat (16 * high + low) :: toBinary str := by
  have hall : ∀ high low : Fin 16, Url.toChar (strtol [digitChar high, digitChar low]) =
      UInt8.ofNat (16 * high + low) := by decide
  rw [toBinary]
  exact congrArg (· :: toBinary str) (hall ⟨high, hhigh⟩ ⟨low, hlow⟩)

/-- The last two digits of a number are its last byte. -/
theorem toBinary_byte (n : Nat) (str : List Byte) :
    toBinary (digitChar (n / 16 % 16) :: digitChar (n % 16) :: str) =
      UInt8.ofNat n :: toBinary str := by
  have hbyte : 16 * (n / 16 % 16) + n % 16 = n % 256 := by omega
  rw [toBinary_digits (Nat.mod_lt _ (by omega)) (Nat.mod_lt _ (by omega)), hbyte]
  exact congrArg (· :: toBinary str) UInt8.ofNat_mod_size

theorem toBinary_hexWord (value : UInt32) (str : List Byte) :
    toBinary (hexWord value ++ str) = bytes value ++ toBinary str := by
  have hword : hexWord value ++ str =
      digitChar (value.toNat / 256 ^ 3 / 16 % 16) :: digitChar (value.toNat / 256 ^ 3 % 16) ::
      digitChar (value.toNat / 256 ^ 2 / 16 % 16) :: digitChar (value.toNat / 256 ^ 2 % 16) ::
      digitChar (value.toNat / 256 / 16 % 16) :: digitChar (value.toNat / 256 % 16) ::
      digitChar (value.toNat / 16 % 16) :: digitChar (value.toNat % 16) :: str := by
    simp [hexWord, List.range_succ, Nat.div_div_eq_div_mul]
  rw [hword, toBinary_byte, toBinary_byte, toBinary_byte, toBinary_byte]
  rfl

/-- `to_binary` makes the digest of its text. -/
theorem toBinary_hexText (h : Digest) : toBinary (hexText h) = h.values.flatMap bytes := by
  unfold hexText
  induction h.values with
  | nil => rfl
  | cons value values ih =>
    rw [List.flatMap_cons, toBinary_hexWord, ih, List.flatMap_cons]

end SHA1

end Tubekit
