import Tubekit.App.WebsocketApp
import Tubekit.Connection.RecvPath

/-!
# Frames under any segmentation

The bytes of a list of frames, each as `send_packet` frames it or masked, may reach
`m_recv_buffer` in any chunks. `parseFrame_spec` says what one round of the loop of
`process_connection` sees of a frame, `processLoop_spec` what a whole call takes off the
buffer, and `frames_delivered` what a run of writes and calls hands to `process_frame`.
-/

namespace Tubekit

open Lib

/-! ## Frames on the wire -/

/-- A frame with a non-empty payload, as `send_packet` builds it or masked with `key`. Its
bytes are those of a `std::vector`. -/
structure SentFrame where
  firstByte : Byte
  key : Option Bytes
  payload : Bytes
  opcode : firstByte &&& 0x0f = 1 ∨ firstByte &&& 0x0f = 2
  keyLength : ∀ k, key = some k → k.length = 4
  nonempty : payload ≠ []
  fits : (packet firstByte payload).length ≤ maxObjectSize

namespace SentFrame

/-- The bytes in front of the masking key. -/
def head (f : SentFrame) : Bytes :=
  if f.key.isSome then (packetHead f.firstByte f.payload.length).modify 1 (· ||| 0x80)
  else packetHead f.firstByte f.payload.length

/-- The payload as it travels. -/
def body (f : SentFrame) : Bytes :=
  match f.key with
  | none => f.payload
  | some key => unmask key f.payload

/-- The frame as it travels. -/
def bytes (f : SentFrame) : Bytes := f.head ++ f.key.getD [] ++ f.body

/-- The frame as `process_frame` receives it. -/
def frame (f : SentFrame) : WebsocketFrame :=
  { fin := decide (f.firstByte &&& 0x80 ≠ 0)
    opcode := f.firstByte &&& 0x0F
    mask := f.key.isSome
    payloadLength := f.payload.length
    maskingKey := f.key.getD []
    payloadData := f.payload }

end SentFrame

@[simp] theorem length_unmask (key payload : Bytes) : (unmask key payload).length = payload.length := by
  simp [unmask]

/-- Masking twice with one key gives the payload back. -/
theorem unmask_unmask (key payload : Bytes) : unmask key (unmask key payload) = payload := by
  apply List.ext_getElem?
  intro i
  simp only [unmask, List.getElem?_mapIdx]
  cases payload[i]? with
  | none => rfl
  | some b =>
    simp only [Option.map_some, Option.some.injEq]
    rw [UInt8.xor_assoc, UInt8.xor_self, UInt8.xor_zero]

/-! ## The length forms -/

/-- The bytes of the length behind the second byte of a frame. -/
def lengthTail (n : Nat) : Bytes := (packetHead 0 n).drop 2

/-- The second byte of a frame, without the mask bit. -/
def lengthCode (n : Nat) : Byte := if n ≤ 125 then UInt8.ofNat n else if n ≤ 0xFFFF then 126 else 127

theorem packetHead_eq (firstByte : Byte) (n : Nat) :
    packetHead firstByte n = firstByte :: lengthCode n :: lengthTail n := by
  unfold packetHead lengthCode lengthTail packetHead
  by_cases h : n ≤ 125
  · simp [h]
  · by_cases h' : n ≤ 0xFFFF
    · simp [h, h']
    · simp [h, h']

theorem lengthCode_toNat_lt (n : Nat) : (lengthCode n).toNat < 128 := by
  unfold lengthCode
  by_cases h : n ≤ 125
  · simp only [h, if_true, UInt8.toNat_ofNat']
    omega
  · by_cases h' : n ≤ 0xFFFF
    · simp [h, h']
    · simp [h, h']

theorem head_eq (f : SentFrame) :
    f.head = f.firstByte ::
      (if f.key.isSome then lengthCode f.payload.length ||| 0x80 else lengthCode f.payload.length) ::
        lengthTail f.payload.length := by
  unfold SentFrame.head
  rw [packetHead_eq]
  split
  · rfl
  · rfl

/-- A byte of `n` in network order. -/
theorem byte_toNat (n k : Nat) : (UInt8.ofNat (n >>> k &&& 0xFF)).toNat = n / 2 ^ k % 256 := by
  rw [UInt8.toNat_ofNat', Nat.shiftRight_eq_div_pow, show (0xFF : Nat) = 2 ^ 8 - 1 from rfl,
    Nat.and_two_pow_sub_one_eq_mod]
  omega

theorem or_lt_two_pow {a b k : Nat} (hb : b < 2 ^ k) : a <<< k ||| b = a * 2 ^ k + b := by
  rw [← Nat.shiftLeft_add_eq_or_of_lt hb, Nat.shiftLeft_eq]

theorem read16_lt (data : Nat → Byte) (index : Nat) : read16 data index < 2 ^ 16 := by
  have h₀ := (data index).toNat_lt
  have h₁ := (data (index + 1)).toNat_lt
  unfold read16
  omega

theorem read32_lt (data : Nat → Byte) (index : Nat) : read32 data index < 2 ^ 32 := by
  have h₀ := read16_lt data index
  have h₁ := read16_lt data (index + 2)
  unfold read32
  omega

theorem lengthTail_short {n : Nat} (h : n ≤ 125) : lengthTail n = [] := by
  simp [lengthTail, packetHead, h]

theorem lengthTail_medium {n : Nat} (h : ¬n ≤ 125) (h' : n ≤ 0xFFFF) :
    lengthTail n = [UInt8.ofNat (n >>> 8 &&& 0xFF), UInt8.ofNat (n >>> 0 &&& 0xFF)] := by
  simp [lengthTail, packetHead, h, h']

theorem lengthTail_long {n : Nat} (h : ¬n ≤ 125) (h' : ¬n ≤ 0xFFFF) :
    lengthTail n = [7, 6, 5, 4, 3, 2, 1, 0].map fun i => UInt8.ofNat (n >>> (8 * i) &&& 0xFF) := by
  simp [lengthTail, packetHead, h, h']

/-- The length is read back from each of its three forms as soon as a byte follows it. -/
theorem parseLength_spec {data : Nat → Byte} {all index n : Nat} (hn : n < 2 ^ 63)
    (hi : index < all) (h : Memory.Shows data all index (lengthTail n)) :
    parseLength data all index (lengthCode n) =
      if index + (lengthTail n).length ≥ all then none
      else some (n, index + (lengthTail n).length) := by
  by_cases hs : n ≤ 125
  · have hcode : (lengthCode n).toNat = n := by
      simp only [lengthCode, hs, if_true, UInt8.toNat_ofNat']
      omega
    have h126 : lengthCode n ≠ 126 := by
      intro heq
      rw [heq] at hcode
      simp at hcode
      omega
    have h127 : lengthCode n ≠ 127 := by
      intro heq
      rw [heq] at hcode
      simp at hcode
      omega
    simp [parseLength, h126, h127, hcode, lengthTail_short hs, hi]
  · by_cases hm : n ≤ 0xFFFF
    · have hcode : lengthCode n = 126 := by simp [lengthCode, hs, hm]
      rw [lengthTail_medium hs hm] at h ⊢
      simp only [Memory.shows_cons] at h
      obtain ⟨h₁, h₀, -⟩ := h
      simp only [parseLength, hcode, if_true, List.length_cons, List.length_nil]
      by_cases hall : index + 2 ≥ all
      · rw [if_pos hall, if_pos hall]
      · rw [if_neg hall, if_neg hall, read16, ← h₁ (by omega), ← h₀ (by omega), byte_toNat,
          byte_toNat]
        congr 2
        omega
    · have hcode : lengthCode n = 127 := by simp [lengthCode, hs, hm]
      rw [lengthTail_long hs hm] at h ⊢
      simp only [List.map_cons, List.map_nil, Memory.shows_cons] at h
      obtain ⟨h₇, h₆, h₅, h₄, h₃, h₂, h₁, h₀, -⟩ := h
      have h127 : ¬(127 : Byte) = 126 := by decide
      simp only [parseLength, hcode, h127, if_false, if_true, List.length_map, List.length_cons,
        List.length_nil]
      by_cases hall : index + 8 ≥ all
      · rw [if_pos hall, if_pos hall]
      · rw [if_neg hall, if_neg hall, or_lt_two_pow (read32_lt _ _)]
        have hhigh : read32 data index = n / 2 ^ 32 := by
          rw [read32, read16, read16, ← h₇ (by omega), ← h₆ (by omega), ← h₅ (by omega),
            ← h₄ (by omega)]
          simp only [byte_toNat]
          omega
        have hlow : read32 data (index + 4) = n % 2 ^ 32 := by
          rw [read32, read16, read16, ← h₃ (by omega), ← h₂ (by omega), ← h₁ (by omega),
            ← h₀ (by omega)]
          simp only [byte_toNat]
          omega
        rw [hhigh, hlow, Nat.div_add_mod']

/-- The masking key is read as soon as a byte follows it. -/
theorem parseMask_spec {data : Nat → Byte} {all index : Nat} {f : SentFrame} (hi : index < all)
    (h : Memory.Shows data all index (f.key.getD [])) :
    parseMask data all index f.key.isSome =
      if index + (f.key.getD []).length ≥ all then none
      else some (f.key.getD [], index + (f.key.getD []).length) := by
  unfold parseMask
  rcases hk : f.key with _ | key
  · simp [hi]
  · rw [hk] at h
    simp only [Option.getD_some] at h
    have hlen := f.keyLength key hk
    simp only [Option.isSome_some, if_true, Option.getD_some, hlen]
    by_cases hall : index + 4 ≥ all
    · rw [if_pos hall, if_pos hall]
    · have hload := h.load_eq (by omega)
      rw [hlen] at hload
      rw [if_neg hall, if_neg hall, hload]

namespace SentFrame

theorem payload_lt (f : SentFrame) : f.payload.length < 2 ^ 63 := by
  have hfits := f.fits
  unfold packet maxObjectSize at hfits
  rw [List.length_append, packetHead_eq] at hfits
  simp only [List.length_cons] at hfits
  omega

theorem length_body (f : SentFrame) : f.body.length = f.payload.length := by
  unfold body
  split
  · rfl
  · exact length_unmask _ _

theorem length_bytes (f : SentFrame) :
    f.bytes.length =
      2 + (lengthTail f.payload.length).length + (f.key.getD []).length + f.payload.length := by
  rw [bytes, List.length_append, List.length_append, length_body, head_eq]
  simp only [List.length_cons]
  omega

theorem bytes_pos (f : SentFrame) : 0 < f.bytes.length := by
  rw [length_bytes]
  omega

/-- What travels is turned back into the payload. -/
theorem unmask_body (f : SentFrame) :
    (if f.key.isSome then unmask (f.key.getD []) f.body else f.body) = f.payload := by
  unfold body
  rcases f.key with _ | key
  · rfl
  · exact unmask_unmask key f.payload

/-- The second byte of a frame holds the mask bit and the length code. -/
theorem second_spec (f : SentFrame) (second : Byte)
    (h : (if f.key.isSome then lengthCode f.payload.length ||| 0x80
      else lengthCode f.payload.length) = second) :
    decide (second &&& 0x80 ≠ 0) = f.key.isSome ∧ second &&& 0x7F = lengthCode f.payload.length := by
  have hcode : ∀ k : Fin 128, ∀ mask : Bool,
      decide ((if mask then UInt8.ofNat k ||| 0x80 else UInt8.ofNat k) &&& 0x80 ≠ 0) = mask ∧
        (if mask then UInt8.ofNat k ||| 0x80 else UInt8.ofNat k) &&& 0x7F = UInt8.ofNat k := by
    decide
  have hlt := lengthCode_toNat_lt f.payload.length
  have hk := hcode ⟨(lengthCode f.payload.length).toNat, hlt⟩ f.key.isSome
  rw [UInt8.ofNat_toNat, h] at hk
  exact hk

end SentFrame

theorem n2WebsocketFrameType_eq_textFrame {n : Byte} :
    n2WebsocketFrameType n = .textFrame ↔ n &&& 0x0f = 1 := by
  unfold n2WebsocketFrameType
  grind

theorem n2WebsocketFrameType_eq_binaryFrame {n : Byte} :
    n2WebsocketFrameType n = .binaryFrame ↔ n &&& 0x0f = 2 := by
  unfold n2WebsocketFrameType
  grind

theorem nibble_nibble (b : Byte) : b &&& 0x0f &&& 0x0f = b &&& 0x0f := by
  rw [UInt8.and_assoc]
  rfl

/-- One round of the loop at the start of a frame: the frame, once all of it is there. -/
theorem parseFrame_spec {data : Nat → Byte} {all index : Nat} (f : SentFrame) (hi : index < all)
    (hall : all ≤ memBufferSizeMax) (h : Memory.Shows data all index f.bytes) :
    parseFrame data all index =
      if index + f.bytes.length ≤ all then
        .frame f.frame (index + f.bytes.length - f.payload.length)
      else .stop := by
  have hpay := f.payload_lt
  have hpos : 0 < f.payload.length := List.length_pos_of_ne_nil f.nonempty
  have hsmall : memBufferSizeMax < 2 ^ 62 := by decide
  have hlen := f.length_bytes
  have hbody := f.length_body
  rw [SentFrame.bytes, head_eq, Memory.shows_append, Memory.shows_append] at h
  simp only [Memory.shows_cons, List.length_append, List.length_cons] at h
  obtain ⟨⟨⟨hFirst, hSecond, hTail⟩, hKey⟩, hBody⟩ := h
  have hFirst := hFirst hi
  have htype : ¬(n2WebsocketFrameType (f.firstByte &&& 0x0f) ≠ .textFrame ∧
      n2WebsocketFrameType (f.firstByte &&& 0x0f) ≠ .binaryFrame) := by
    rintro ⟨htext, hbinary⟩
    rw [ne_eq, n2WebsocketFrameType_eq_textFrame, nibble_nibble] at htext
    rw [ne_eq, n2WebsocketFrameType_eq_binaryFrame, nibble_nibble] at hbinary
    exact f.opcode.elim htext hbinary
  unfold parseFrame
  rw [← hFirst]
  simp only [if_neg htype]
  by_cases h₁ : index + 1 ≥ all
  · rw [if_pos h₁, if_neg (by omega)]
  · obtain ⟨hmask, hcode⟩ := f.second_spec _ (hSecond (by omega))
    rw [if_neg h₁]
    by_cases h₂ : index + 1 + 1 ≥ all
    · rw [if_pos h₂, if_neg (by omega)]
    · rw [if_neg h₂, hcode, parseLength_spec (n := f.payload.length) (by omega) (by omega) hTail]
      by_cases h₃ : index + 1 + 1 + (lengthTail f.payload.length).length ≥ all
      · rw [if_pos h₃, if_neg (by omega)]
      · rw [if_neg h₃]
        simp only [hmask, if_neg (Nat.ne_of_gt hpos)]
        have hKey : Memory.Shows data all
            (index + 1 + 1 + (lengthTail f.payload.length).length) (f.key.getD []) := by
          rw [show index + 1 + 1 + (lengthTail f.payload.length).length =
            index + ((lengthTail f.payload.length).length + 1 + 1) from by omega]
          exact hKey
        rw [parseMask_spec (by omega) hKey]
        by_cases h₄ : index + 1 + 1 + (lengthTail f.payload.length).length +
            (f.key.getD []).length ≥ all
        · rw [if_pos h₄, if_neg (by omega)]
        · rw [if_neg h₄]
          simp only [if_neg h₄]
          rw [u64Add_of_lt (by omega)]
          by_cases h₅ : index + f.bytes.length ≤ all
          · -- the last byte of the payload is there
            have hIdx : index + 1 + 1 + (lengthTail f.payload.length).length +
                (f.key.getD []).length = index + f.bytes.length - f.payload.length := by omega
            have hLoad := hBody.load_eq (by omega)
            rw [show index + ((lengthTail f.payload.length).length + 1 + 1 +
              (f.key.getD []).length) = index + f.bytes.length - f.payload.length from by omega,
              hbody] at hLoad
            rw [if_pos h₅, if_neg (by omega), if_neg (by unfold maxObjectSize; omega), hIdx, hLoad,
              f.unmask_body]
            rfl
          · rw [if_neg h₅, if_pos (by omega)]

/-- One round at a byte whose opcode is neither text nor binary. -/
theorem parseFrame_bad {data : Nat → Byte} (all : Nat) {index : Nat}
    (h₁ : data index &&& 0x0f ≠ 1) (h₂ : data index &&& 0x0f ≠ 2) :
    parseFrame data all index = .close := by
  unfold parseFrame
  simp only [ne_eq, n2WebsocketFrameType_eq_textFrame, n2WebsocketFrameType_eq_binaryFrame,
    nibble_nibble]
  rw [if_pos ⟨h₁, h₂⟩]

/-! ## What a frame leaves alone -/

namespace WebsocketWorld

variable {P : Type}

/-- The close flag and the receive buffer of a connection. -/
def input (w : WebsocketWorld P) (gid : Nat) : Option (Bool × Buffer) :=
  (w.connections gid).map fun c => (c.closeFlag, c.recvBuffer)

theorem send_input {c : WebsocketConnection P} (buffer : Option Bytes) (checkConnected : Bool) :
    (c.send buffer checkConnected).2.closeFlag = c.closeFlag ∧
      (c.send buffer checkConnected).2.recvBuffer = c.recvBuffer := by
  unfold WebsocketConnection.send Staging.send
  grind

theorem sendOn_input (w : WebsocketWorld P) (player : Nat) (frame : Bytes) (gid : Nat) :
    (w.sendOn player frame).2.input gid = w.input gid := by
  unfold sendOn
  rcases hc : w.connections player with _ | c
  · rfl
  · by_cases hg : gid = player
    · subst hg
      obtain ⟨hflag, hbuf⟩ := send_input (c := c) (some frame) true
      simp [input, hc, hflag, hbuf]
    · simp [input, Function.update_of_ne hg]

theorem sendOn_calls (w : WebsocketWorld P) (player : Nat) (frame : Bytes) :
    (w.sendOn player frame).2.calls = w.calls := by
  unfold sendOn
  split
  · rfl
  · rfl

theorem broadcast_spec (players : List Nat) (firstByte : Byte) (data : Bytes)
    (w : WebsocketWorld P) :
    (players.foldl (fun w player => (w.sendPacket none firstByte (some data) player).2) w).calls =
        w.calls ∧
      ∀ g, (players.foldl (fun w player =>
        (w.sendPacket none firstByte (some data) player).2) w).input g = w.input g := by
  induction players generalizing w with
  | nil => exact ⟨rfl, fun _ => rfl⟩
  | cons player players ih =>
    obtain ⟨hcalls, hinput⟩ := ih (w.sendPacket none firstByte (some data) player).2
    simp only [List.foldl_cons]
    refine ⟨hcalls.trans (sendOn_calls _ _ _), fun g => (hinput g).trans (sendOn_input _ _ _ g)⟩

/-- `process_frame` is recorded once and touches no close flag and no receive buffer. -/
theorem processFrame_spec (w : WebsocketWorld P) (gid : Nat) (frame : WebsocketFrame) :
    (w.processFrame gid frame).calls = w.calls ++ [(gid, frame)] ∧
      ∀ g, (w.processFrame gid frame).input g = w.input g :=
  broadcast_spec _ _ _ { w with calls := w.calls ++ [(gid, frame)] }

theorem modify_recvBuffer {w : WebsocketWorld P} {gid : Nat} {closed : Bool} {b : Buffer}
    (h : w.input gid = some (closed, b)) (f : Buffer → Buffer) :
    (w.modify gid fun c => { c with recvBuffer := f c.recvBuffer }).input gid =
      some (closed, f b) := by
  unfold input at h ⊢
  rcases hc : w.connections gid with _ | c
  · simp [hc] at h
  · rw [hc] at h
    simp only [Option.map_some, Option.some.injEq, Prod.mk.injEq] at h
    simp [modify, hc, h.1, h.2]

theorem markClose_input {w : WebsocketWorld P} {gid : Nat} {b : Buffer}
    (h : w.input gid = some (false, b)) :
    (w.markClose gid).input gid = some (true, b.clear) ∧ (w.markClose gid).calls = w.calls := by
  unfold input at h
  rcases hc : w.connections gid with _ | c
  · simp [hc] at h
  · rw [hc] at h
    simp only [Option.map_some, Option.some.injEq, Prod.mk.injEq] at h
    simp [markClose, input, hc, WebsocketConnection.markClose, h.1, h.2, Staging.onMarkClose]

end WebsocketWorld

/-! ## A call of `process_connection` -/

/-- A byte that begins neither a text nor a binary frame. -/
structure BadByte where
  byte : Byte
  notText : byte &&& 0x0f ≠ 1
  notBinary : byte &&& 0x0f ≠ 2

/-- The bytes of the frames, and of a bad byte behind them. -/
def wire (frames : List SentFrame) (bad : Option BadByte) : Bytes :=
  frames.flatMap SentFrame.bytes ++ bad.toList.map BadByte.byte

/-- The frames that are complete within the first `n` bytes. -/
def completed : List SentFrame → Nat → List SentFrame
  | [], _ => []
  | f :: fs, n => if f.bytes.length ≤ n then f :: completed fs (n - f.bytes.length) else []

@[simp] theorem wire_cons (f : SentFrame) (fs : List SentFrame) (bad : Option BadByte) :
    wire (f :: fs) bad = f.bytes ++ wire fs bad := by
  simp [wire]

theorem length_completed_le (frames : List SentFrame) (n : Nat) :
    ((completed frames n).flatMap SentFrame.bytes).length ≤ n := by
  induction frames generalizing n with
  | nil => simp [completed]
  | cons f fs ih =>
    unfold completed
    split
    · have := ih (n - f.bytes.length)
      simp only [List.flatMap_cons, List.length_append]
      omega
    · simp

/-- The frames completed by further bytes follow those that were complete before. -/
theorem completed_add (frames : List SentFrame) (n m : Nat) :
    completed frames (n + m) = completed frames n ++
      completed (frames.drop (completed frames n).length)
        (n - ((completed frames n).flatMap SentFrame.bytes).length + m) := by
  induction frames generalizing n with
  | nil => simp [completed]
  | cons f fs ih =>
    by_cases h : f.bytes.length ≤ n
    · have hsplit : n + m - f.bytes.length = n - f.bytes.length + m := by omega
      simp only [completed, h, if_true, show f.bytes.length ≤ n + m from by omega, hsplit,
        List.length_cons, List.drop_succ_cons, List.flatMap_cons, List.length_append,
        List.cons_append]
      rw [ih, Nat.sub_sub]
    · simp [completed, h]

theorem completed_zero (frames : List SentFrame) : completed frames 0 = [] := by
  cases frames with
  | nil => rfl
  | cons f fs =>
    have := f.bytes_pos
    rw [completed, if_neg (by omega)]

theorem completed_self (f : SentFrame) (fs : List SentFrame) :
    completed (f :: fs) f.bytes.length = [f] := by
  rw [completed, if_pos (Nat.le_refl _), Nat.sub_self, completed_zero]

theorem completed_all {frames : List SentFrame} {n : Nat}
    (h : (frames.flatMap SentFrame.bytes).length ≤ n) : completed frames n = frames := by
  induction frames generalizing n with
  | nil => rfl
  | cons f fs ih =>
    rw [List.flatMap_cons, List.length_append] at h
    rw [completed, if_pos (by omega), ih (by omega)]

theorem isPrefix_completed (frames : List SentFrame) (bad : Option BadByte) (n : Nat) :
    (completed frames n).flatMap SentFrame.bytes <+: wire frames bad := by
  induction frames generalizing n with
  | nil => simp [completed]
  | cons f fs ih =>
    unfold completed
    split
    · rw [wire_cons, List.flatMap_cons, List.prefix_append_right_inj]
      exact ih _
    · exact List.nil_prefix

theorem drop_completed (frames : List SentFrame) (bad : Option BadByte) (n : Nat) :
    (wire frames bad).drop ((completed frames n).flatMap SentFrame.bytes).length =
      wire (frames.drop (completed frames n).length) bad := by
  induction frames generalizing n with
  | nil => simp [completed]
  | cons f fs ih =>
    unfold completed
    split
    · simp only [List.flatMap_cons, List.length_append, List.length_cons, List.drop_succ_cons,
        wire_cons]
      rw [← ih, List.drop_append, List.drop_eq_nil_of_le (by omega), List.nil_append]
      congr 1
      omega
    · simp

/-- The whole of the frames and a bad byte behind them have been received. -/
def BadReceived (frames : List SentFrame) (bad : Option BadByte) (received : Bytes) : Prop :=
  bad.isSome ∧ received.length = (wire frames bad).length

namespace WebsocketWorld

variable {P : Type}

/-- The connection of `gid` is open, with `bytes` unread in its receive buffer. -/
def Open (w : WebsocketWorld P) (gid : Nat) (bytes : Bytes) : Prop :=
  ∃ b, w.input gid = some (false, b) ∧ b.Wf ∧ b.limitMax = memBufferSizeMax ∧ b.content = bytes

/-- The connection of `gid` is marked closed. -/
def Closed (w : WebsocketWorld P) (gid : Nat) : Prop := ∃ b, w.input gid = some (true, b)

/-- The state once the bytes `received` have been handed over: `process_frame` has had the
completed frames, the rest is unread, and a bad byte has closed the connection. -/
structure Handed (w : WebsocketWorld P) (gid : Nat) (before : List (Nat × WebsocketFrame))
    (frames : List SentFrame) (bad : Option BadByte) (received : Bytes) : Prop where
  calls : w.calls = before ++ (completed frames received.length).map fun f => (gid, f.frame)
  closed : BadReceived frames bad received → w.Closed gid
  unread : ¬BadReceived frames bad received →
    w.Open gid (received.drop ((completed frames received.length).flatMap SentFrame.bytes).length)

/-- What was handed over of the frames still open is handed over of all frames. -/
theorem Handed.append {w w₀ : WebsocketWorld P} {gid : Nat}
    {before : List (Nat × WebsocketFrame)} {frames : List SentFrame} {bad : Option BadByte}
    {received chunk : Bytes} (hle : received.length ≤ (wire frames bad).length)
    (h₀ : w₀.calls = before ++ (completed frames received.length).map fun f => (gid, f.frame))
    (h : w.Handed gid w₀.calls (frames.drop (completed frames received.length).length) bad
      (received.drop ((completed frames received.length).flatMap SentFrame.bytes).length ++ chunk)) :
    w.Handed gid before frames bad (received ++ chunk) := by
  have hdone := length_completed_le frames received.length
  have hrest := congrArg List.length (drop_completed frames bad received.length)
  rw [List.length_drop] at hrest
  have hadd := completed_add frames received.length chunk.length
  have hbad : BadReceived (frames.drop (completed frames received.length).length) bad
      (received.drop ((completed frames received.length).flatMap SentFrame.bytes).length ++ chunk) ↔
      BadReceived frames bad (received ++ chunk) := by
    unfold BadReceived
    rw [← hrest, List.length_append, List.length_append, List.length_drop]
    refine and_congr_right fun _ => ?_
    omega
  obtain ⟨hcalls, hclosed, hunread⟩ := h
  rw [hbad] at hclosed hunread
  simp only [List.length_append, List.length_drop] at hcalls hunread
  refine ⟨?_, hclosed, fun hopen => ?_⟩
  · rw [hcalls, h₀, List.length_append, hadd, List.map_append, List.append_assoc]
  · have hw := hunread hopen
    rw [← List.drop_append_of_le_length hdone, List.drop_drop] at hw
    rw [List.length_append, hadd, List.flatMap_append, List.length_append]
    exact hw

/-- Nothing is handed over while no frame is complete and no bad byte is in sight. -/
theorem Handed.of_none {w : WebsocketWorld P} {gid : Nat} {frames : List SentFrame}
    {bad : Option BadByte} {received : Bytes} (hnone : completed frames received.length = [])
    (hlt : received.length < (wire frames bad).length ∨ bad = none) (h : w.Open gid received) :
    w.Handed gid w.calls frames bad received := by
  have hnot : ¬BadReceived frames bad received := by
    rintro ⟨hsome, hlen⟩
    rcases hlt with hlt | rfl
    · omega
    · simp at hsome
  refine ⟨by simp [hnone], fun hbad => absurd hbad hnot, fun _ => ?_⟩
  rw [hnone]
  exact h

theorem Handed.nil {w : WebsocketWorld P} {gid : Nat} {frames : List SentFrame}
    {bad : Option BadByte} (h : w.Open gid []) : w.Handed gid w.calls frames bad [] := by
  refine Handed.of_none (completed_zero frames) ?_ h
  rcases bad with _ | bad
  · exact Or.inr rfl
  · exact Or.inl (by simp [wire])

/-- A complete frame is handed over and its bytes are taken off the buffer. -/
theorem Open.takeFrame {w : WebsocketWorld P} {gid n : Nat} {bytes : Bytes}
    (h : w.Open gid bytes) (frame : WebsocketFrame) (hn : n ≤ bytes.length) :
    let w' := (w.processFrame gid frame).modify gid fun c => { c with
      recvBuffer := (c.recvBuffer.readPtrMoveN n).2 }
    w'.Open gid (bytes.drop n) ∧ w'.calls = w.calls ++ [(gid, frame)] := by
  obtain ⟨b, hinput, hwf, hlimit, rfl⟩ := h
  obtain ⟨hcalls, hsame⟩ := processFrame_spec w gid frame
  obtain ⟨b', hmove, hwf', hcontent, hlimit'⟩ := Buffer.readPtrMoveN_spec hwf n
  rw [if_pos hn] at hcontent
  have hnext := modify_recvBuffer ((hsame gid).trans hinput) fun b => (b.readPtrMoveN n).2
  rw [hmove] at hnext
  exact ⟨⟨b', hnext, hwf', hlimit'.trans hlimit, hcontent⟩, hcalls⟩

/-- `process_connection` on the unread bytes from `index` on, which begin the given frames. -/
theorem processLoop_spec {gid all : Nat} {data : Nat → Byte} {bad : Option BadByte}
    (hall : all ≤ memBufferSizeMax) (frames : List SentFrame) {index fuel : Nat}
    {w : WebsocketWorld P} (hi : index ≤ all)
    (hshows : Memory.Shows data all index (wire frames bad))
    (hle : all - index ≤ (wire frames bad).length) (hfuel : all - index < fuel)
    (hopen : w.Open gid (Memory.load data index (all - index))) :
    (processLoop gid data all fuel index w).1 = false ∧
      (processLoop gid data all fuel index w).2.Handed gid w.calls frames bad
        (Memory.load data index (all - index)) := by
  induction frames generalizing index fuel w with
  | nil =>
    obtain ⟨fuel, rfl⟩ := Nat.exists_eq_add_of_lt (Nat.zero_lt_of_lt hfuel)
    simp only [Nat.zero_add, processLoop]
    by_cases hend : index ≥ all
    · -- the chunk ends here; a bad byte may still come
      rw [if_pos hend]
      rw [Nat.sub_eq_zero_of_le hend] at hopen ⊢
      exact ⟨rfl, Handed.nil hopen⟩
    · rcases bad with _ | bad
      · simp [wire] at hle
        omega
      · rw [if_neg hend]
        simp only [wire, List.flatMap_nil, Option.toList_some, List.map_cons, List.map_nil,
          List.nil_append, Memory.shows_cons, List.length_cons, List.length_nil] at hshows hle
        have hbyte := hshows.1 (by omega)
        have hround : parseFrame data all index = .close :=
          parseFrame_bad all (hbyte ▸ bad.notText) (hbyte ▸ bad.notBinary)
        obtain ⟨b, hinput, -⟩ := hopen
        obtain ⟨hclosed, hcalls⟩ := markClose_input hinput
        rw [hround]
        refine ⟨rfl, by simpa [completed] using hcalls, fun _ => ⟨_, hclosed⟩, fun hnot => ?_⟩
        refine absurd ⟨rfl, ?_⟩ hnot
        rw [Memory.length_load]
        simp [wire]
        omega
  | cons f fs ih =>
    obtain ⟨fuel, rfl⟩ := Nat.exists_eq_add_of_lt (Nat.zero_lt_of_lt hfuel)
    have hpos := f.bytes_pos
    simp only [wire_cons, List.length_append] at hle
    rw [wire_cons, Memory.shows_append] at hshows
    simp only [Nat.zero_add, processLoop]
    by_cases hfull : index + f.bytes.length ≤ all
    · have hround : index + f.bytes.length - f.payload.length - index + f.frame.payloadLength =
          f.bytes.length := by
        have := f.length_bytes
        simp only [SentFrame.frame]
        omega
      have hnext : index + f.bytes.length - f.payload.length + f.frame.payloadLength =
          index + f.bytes.length := by
        have := f.length_bytes
        simp only [SentFrame.frame]
        omega
      have hsplit : Memory.load data index (all - index) = f.bytes ++
          Memory.load data (index + f.bytes.length) (all - (index + f.bytes.length)) := by
        have hload := Memory.load_append data index f.bytes.length
          (all - (index + f.bytes.length))
        rw [hshows.1.load_eq hfull] at hload
        rw [← hload]
        congr 1
        omega
      obtain ⟨hopen', hcalls'⟩ := @Open.takeFrame _ w gid f.bytes.length _ hopen f.frame
        (by rw [Memory.length_load]; omega)
      rw [hsplit, List.drop_left] at hopen'
      rw [if_neg (by omega), parseFrame_spec f (by omega) hall hshows.1, if_pos hfull]
      simp only [hround, hnext]
      obtain ⟨hret, hhanded⟩ := @ih (index + f.bytes.length) fuel _ hfull hshows.2
        (by omega) (by omega) hopen'
      have hfit : f.bytes.length ≤ (wire (f :: fs) bad).length := by simp
      refine ⟨hret, ?_⟩
      rw [hsplit]
      refine Handed.append hfit (by rw [completed_self]; exact hcalls') ?_
      rw [completed_self]
      simpa using hhanded
    · -- the frame is not complete
      have hstays : w.Handed gid w.calls (f :: fs) bad (Memory.load data index (all - index)) := by
        refine Handed.of_none ?_ (Or.inl ?_) hopen
        · rw [Memory.length_load, completed, if_neg (by omega)]
        · rw [Memory.length_load, wire_cons, List.length_append]
          omega
      by_cases hend : index ≥ all
      · rw [if_pos hend]
        exact ⟨rfl, hstays⟩
      · rw [if_neg hend, parseFrame_spec f (by omega) hall hshows.1, if_neg hfull]
        exact ⟨rfl, hstays⟩

/-- A whole call of `process_connection`. -/
theorem processConnection_spec {w : WebsocketWorld P} {gid : Nat} {bytes : Bytes}
    {frames : List SentFrame} {bad : Option BadByte} (hopen : w.Open gid bytes)
    (hbytes : bytes <+: wire frames bad) :
    (w.processConnection gid).1 = false ∧
      (w.processConnection gid).2.Handed gid w.calls frames bad bytes := by
  obtain ⟨b, hinput, hwf, hlimit, rfl⟩ := hopen
  have hinput₀ := hinput
  unfold input at hinput
  rcases hc : w.connections gid with _ | c
  · simp [hc] at hinput
  · rw [hc] at hinput
    simp only [Option.map_some, Option.some.injEq, Prod.mk.injEq] at hinput
    obtain ⟨hflag, rfl⟩ := hinput
    obtain ⟨b₁, hsize, hwf₁, hcontent₁, hlimit₁⟩ := Buffer.canReadableSize_spec hwf
    obtain ⟨data, b₂, hptr, hdata, hwf₂, hcontent₂, hlimit₂⟩ := Buffer.forceGetReadPtr_spec hwf₁
    have hmod₁ := modify_recvBuffer hinput₀ fun _ => b₁
    have hmod₂ := modify_recvBuffer hmod₁ fun _ => b₂
    rw [hcontent₁] at hdata
    have hle : c.recvBuffer.content.length ≤ memBufferSizeMax := by
      have := hwf.length_content_le
      omega
    unfold processConnection
    rw [hc]
    simp only [hsize, hptr]
    by_cases hzero : c.recvBuffer.content.length = 0
    · rw [if_pos hzero]
      have hnil := List.eq_nil_of_length_eq_zero hzero
      rw [hnil] at hcontent₁ ⊢
      exact ⟨rfl, Handed.nil ⟨b₁, hmod₁, hwf₁, hlimit₁.trans hlimit, hcontent₁⟩⟩
    · rw [if_neg hzero]
      have hloop := @processLoop_spec P gid c.recvBuffer.content.length data bad hle frames 0
        (c.recvBuffer.content.length + 1) _ (Nat.zero_le _)
        (Memory.shows_of_load_prefix (by rw [hdata]; exact hbytes)) hbytes.length_le (by omega)
        ⟨b₂, hmod₂, hwf₂, by omega, by rw [Nat.sub_zero, hdata, hcontent₂, hcontent₁]⟩
      rw [Nat.sub_zero, hdata] at hloop
      exact hloop

end WebsocketWorld

/-! ## Chunks -/

/-- A run of writes to `m_recv_buffer`, each followed by a call of `process_connection`. -/
structure Delivery (P : Type) where
  written : Bool
  threw : Bool
  world : WebsocketWorld P

namespace Delivery

variable {P : Type}

/-- The chunk is written and, if that succeeds, `process_connection` is called. -/
def next (gid : Nat) (d : Delivery P) (chunk : Bytes) : Delivery P :=
  match d.world.connections gid with
  | none => { d with written := false }
  | some c =>
    match c.recvBuffer.write (some chunk) with
    | (.error _, b) =>
      { d with
        written := false
        world := d.world.modify gid fun c => { c with recvBuffer := b } }
    | (.ok _, b) =>
      let (threw, w) :=
        (d.world.modify gid fun c => { c with recvBuffer := b }).processConnection gid
      { d with threw := d.threw || threw, world := w }

def run (gid : Nat) (d : Delivery P) (chunks : List Bytes) : Delivery P :=
  chunks.foldl (next gid) d

def start (w : WebsocketWorld P) : Delivery P := { written := true, threw := false, world := w }

theorem next_written {gid : Nat} {d : Delivery P} {chunk : Bytes}
    (h : (d.next gid chunk).written = true) : d.written = true := by
  unfold next at h
  split at h
  · cases h
  · split at h
    · cases h
    · exact h

theorem run_written {gid : Nat} {d : Delivery P} {chunks : List Bytes}
    (h : (d.run gid chunks).written = true) : d.written = true := by
  induction chunks generalizing d with
  | nil => exact h
  | cons chunk chunks ih => exact next_written (ih h)

/-- One chunk: what has been received grows by it. -/
theorem next_handed {gid : Nat} {d : Delivery P} {before : List (Nat × WebsocketFrame)}
    {frames : List SentFrame} {bad : Option BadByte} {received chunk : Bytes}
    (hfit : chunk.length ≤ maxObjectSize) (hpre : received ++ chunk <+: wire frames bad)
    (h : d.world.Handed gid before frames bad received)
    (hwritten : (d.next gid chunk).written = true) :
    (d.next gid chunk).threw = d.threw ∧
      (d.next gid chunk).world.Handed gid before frames bad (received ++ chunk) := by
  have hlen := hpre.length_le
  rw [List.length_append] at hlen
  by_cases hnil : chunk = []
  · -- an empty write throws
    subst hnil
    unfold next at hwritten
    split at hwritten
    · cases hwritten
    · cases hwritten
  · have hpos : 0 < chunk.length := List.length_pos_of_ne_nil hnil
    have hnot : ¬BadReceived frames bad received := by
      rintro ⟨-, hall⟩
      omega
    have hdone := length_completed_le frames received.length
    obtain ⟨b, hinput, hwf, hlimit, hcontent⟩ := h.unread hnot
    have hmod := fun b' => WebsocketWorld.modify_recvBuffer hinput fun _ => b'
    obtain ⟨c, hc, hpair⟩ := Option.map_eq_some_iff.mp hinput
    simp only [Prod.mk.injEq] at hpair
    obtain ⟨-, rfl⟩ := hpair
    have hmax : memBufferSizeMax + maxObjectSize < 2 ^ 64 := by decide
    have hunread := hwf.length_content_le
    obtain ⟨b', hwf', hlimit', hwrite⟩ := Buffer.write_spec hwf hnil (by omega)
    unfold next at hwritten ⊢
    rw [hc] at hwritten ⊢
    split at hwrite
    · obtain ⟨hrun, hcontent'⟩ := hwrite
      simp only [hrun]
      have hbegin : b'.content <+: wire (frames.drop (completed frames received.length).length)
          bad := by
        obtain ⟨rest, hrest⟩ := hpre
        refine ⟨rest, ?_⟩
        rw [← drop_completed, ← hrest, hcontent', hcontent, List.append_assoc, List.append_assoc,
          List.drop_append_of_le_length hdone]
      obtain ⟨hret, hhanded⟩ := WebsocketWorld.processConnection_spec
        ⟨b', hmod b', hwf', hlimit'.trans hlimit, rfl⟩ hbegin
      rw [hcontent', hcontent] at hhanded
      exact ⟨by rw [hret, Bool.or_false], WebsocketWorld.Handed.append (by omega) h.calls hhanded⟩
    · obtain ⟨hrun, -⟩ := hwrite
      simp only [hrun] at hwritten
      cases hwritten

theorem run_handed {gid : Nat} {d : Delivery P} {before : List (Nat × WebsocketFrame)}
    {frames : List SentFrame} {bad : Option BadByte} {received : Bytes} {chunks : List Bytes}
    (hfit : ∀ chunk ∈ chunks, chunk.length ≤ maxObjectSize)
    (hpre : received ++ chunks.flatten <+: wire frames bad)
    (h : d.world.Handed gid before frames bad received)
    (hwritten : (d.run gid chunks).written = true) :
    (d.run gid chunks).threw = d.threw ∧
      (d.run gid chunks).world.Handed gid before frames bad (received ++ chunks.flatten) := by
  induction chunks generalizing d received with
  | nil => simpa [run] using h
  | cons chunk chunks ih =>
    rw [List.flatten_cons, ← List.append_assoc] at hpre ⊢
    obtain ⟨hthrew, hnext⟩ := next_handed (hfit chunk (by simp))
      ((List.prefix_append _ _).trans hpre) h (run_written hwritten)
    obtain ⟨hthrew', hrun⟩ := ih (fun c hc => hfit c (by simp [hc])) hpre hnext hwritten
    exact ⟨hthrew'.trans hthrew, hrun⟩

end Delivery

/-- A connection that the accept loop has prepared is open with nothing unread. -/
theorem WebsocketWorld.open_reuse {P : Type} {w : WebsocketWorld P} {gid : Nat}
    {c : WebsocketConnection P} {s : Staging} (hc : w.connections gid = some c)
    (hflag : c.closeFlag = false) (hbuffer : c.recvBuffer = s.reuse.recvBuffer) :
    w.Open gid [] := by
  have hsound := s.recvSound_reuse
  exact ⟨s.reuse.recvBuffer, by rw [input, hc, Option.map_some, hflag, hbuffer], hsound.wf,
    hsound.limit, s.recvBuffer_reuse_content⟩

/-- **Framing.** The bytes of any frames, with or without a bad byte behind them, reach an open
connection in any chunks. Whatever has been received so far, `process_frame` has been called
once for each frame that is complete, in order, with its payload; while the connection is open
its receive buffer holds what was received behind these frames; and it is marked closed exactly
when the bad byte has been received, after all frames. -/
theorem frames_delivered {P : Type} {w : WebsocketWorld P} {gid : Nat} (hopen : w.Open gid [])
    (frames : List SentFrame) (bad : Option BadByte) (chunks : List Bytes)
    (hfit : ∀ chunk ∈ chunks, chunk.length ≤ maxObjectSize)
    (hcut : chunks.flatten <+: wire frames bad)
    (hwritten : ((Delivery.start w).run gid chunks).written = true) :
    let d := (Delivery.start w).run gid chunks
    let done := completed frames chunks.flatten.length
    d.threw = false ∧
      d.world.calls = w.calls ++ done.map (fun f => (gid, f.frame)) ∧
      ∃ c, d.world.connections gid = some c ∧
        (c.closeFlag = true ↔ BadReceived frames bad chunks.flatten) ∧
        (c.closeFlag = true → done = frames) ∧
        (c.closeFlag = false →
          done.flatMap SentFrame.bytes ++ c.recvBuffer.content = chunks.flatten) := by
  intro d done
  have hstart : (Delivery.start w).world.Handed gid w.calls frames bad [] :=
    WebsocketWorld.Handed.nil hopen
  obtain ⟨hthrew, hrun⟩ := Delivery.run_handed hfit hcut hstart hwritten
  rw [List.nil_append] at hrun
  refine ⟨hthrew, hrun.calls, ?_⟩
  by_cases hbad : BadReceived frames bad chunks.flatten
  · obtain ⟨b, hinput⟩ := hrun.closed hbad
    obtain ⟨c, hc, hpair⟩ := Option.map_eq_some_iff.mp hinput
    simp only [Prod.mk.injEq] at hpair
    have hall : done = frames := by
      refine completed_all ?_
      rw [hbad.2, wire, List.length_append]
      omega
    exact ⟨c, hc, by simp [hpair.1, hbad], fun _ => hall, fun hflag => by simp [hpair.1] at hflag⟩
  · obtain ⟨b, hinput, -, -, hcontent⟩ := hrun.unread hbad
    obtain ⟨c, hc, hpair⟩ := Option.map_eq_some_iff.mp hinput
    simp only [Prod.mk.injEq] at hpair
    obtain ⟨hflag, rfl⟩ := hpair
    refine ⟨c, hc, by simp [hflag, hbad], fun hclosed => by simp [hflag] at hclosed, fun _ => ?_⟩
    -- the completed frames are the beginning of what was received
    obtain ⟨rest, hrest⟩ := List.prefix_of_prefix_length_le
      (isPrefix_completed frames bad chunks.flatten.length) hcut (length_completed_le _ _)
    have hdrop : chunks.flatten.drop (done.flatMap SentFrame.bytes).length = rest := by
      have hboth := congrArg (List.drop (done.flatMap SentFrame.bytes).length) hrest
      rw [List.drop_left] at hboth
      exact hboth.symm
    rw [hcontent, hdrop]
    exact hrest

/-- A masked text frame with the payload `hi`. -/
def maskedHi : SentFrame :=
  { firstByte := 0x81
    key := some [1, 2, 3, 4]
    payload := [104, 105]
    opcode := Or.inl rfl
    keyLength := fun k hk => by cases hk; rfl
    nonempty := by simp
    fits := by decide }

/-- Two connections on a fresh server, both of them players. -/
def twoPlayers : WebsocketWorld Unit :=
  { globalPlayer := [1, 2]
    connections := fun gid =>
      if gid = 1 ∨ gid = 2 then
        some (((WebsocketConnection.new (fun _ => 0) () none).reuse ()).setGid gid |>.setConnected true)
      else none
    tasks := []
    calls := [] }

theorem frames_delivered_maskedHi :
    let d := (Delivery.start twoPlayers).run 1 [[0x81, 0x82, 1], [2, 3, 4, 105, 107], [0x88]]
    d.threw = false ∧ d.world.calls = [(1, maskedHi.frame)] ∧
      ∃ c, d.world.connections 1 = some c ∧ c.closeFlag = true := by
  obtain ⟨hthrew, hcalls, c, hc, hclosed, -⟩ := @frames_delivered Unit
    twoPlayers 1 (WebsocketWorld.open_reuse (s := .new fun _ => 0) rfl rfl rfl)
    [maskedHi] (some ⟨0x88, by decide, by decide⟩)
    [[0x81, 0x82, 1], [2, 3, 4, 105, 107], [0x88]] (by decide) (by decide) (by decide +kernel)
  exact ⟨hthrew, hcalls, c, hc, hclosed.mpr ⟨rfl, rfl⟩⟩

end Tubekit
