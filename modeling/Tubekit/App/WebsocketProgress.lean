import Mathlib.Data.List.Induction
import Tubekit.App.WebsocketFraming

/-!
# What a call of `process_connection` leaves behind

The unread bytes are whatever a client sent. `FrameHeader` is the header of a data frame with
any form of its length, minimal or not, and any declared length; `DataFrame` is a header with
all the payload it declares. `parseFrame_header` says what a round of the loop does behind a
complete header, `processLoop_frames` takes the loop over the frames that it consumes.
-/

namespace Tubekit

open Lib

/-! ## Data frames as they arrive -/

/-- A number in network order. -/
def networkOrder (bytes : Bytes) : Nat := bytes.foldl (fun n b => n * 256 + b.toNat) 0

/-- How many bytes of length follow the second byte of a frame. -/
def extendedSize (len7 : Byte) : Nat := if len7 = 126 then 2 else if len7 = 127 then 8 else 0

/-- How many bytes of masking key follow the length. -/
def keySize (second : Byte) : Nat := if second &&& 0x80 ≠ 0 then 4 else 0

/-- The payload length: that of the second byte, or the one in the bytes behind it. -/
def payloadSize (len7 : Byte) (extended : Bytes) : Nat :=
  if extended = [] then len7.toNat else networkOrder extended

/-- The complete header of a text or binary frame. -/
structure FrameHeader where
  firstByte : Byte
  second : Byte
  extended : Bytes
  key : Bytes
  opcode : firstByte &&& 0x0f = 1 ∨ firstByte &&& 0x0f = 2
  extendedLength : extended.length = extendedSize (second &&& 0x7F)
  keyLength : key.length = keySize second

namespace FrameHeader

def bytes (h : FrameHeader) : Bytes := h.firstByte :: h.second :: (h.extended ++ h.key)

/-- The declared length of the payload. -/
def declared (h : FrameHeader) : Nat := payloadSize (h.second &&& 0x7F) h.extended

theorem length_bytes (h : FrameHeader) :
    h.bytes.length = 2 + extendedSize (h.second &&& 0x7F) + keySize h.second := by
  simp only [bytes, List.length_cons, List.length_append, h.extendedLength, h.keyLength]
  omega

end FrameHeader

/-- A complete text or binary frame: all declared bytes of the payload are there. -/
structure DataFrame extends FrameHeader where
  payload : Bytes
  complete : payload.length = toFrameHeader.declared

namespace DataFrame

def bytes (f : DataFrame) : Bytes := f.toFrameHeader.bytes ++ f.payload

/-- The frame as `process_frame` receives it. -/
def frame (f : DataFrame) : WebsocketFrame :=
  { fin := decide (f.firstByte &&& 0x80 ≠ 0)
    opcode := f.firstByte &&& 0x0F
    mask := decide (f.second &&& 0x80 ≠ 0)
    payloadLength := f.payload.length
    maskingKey := f.key
    payloadData :=
      if decide (f.second &&& 0x80 ≠ 0) then unmask f.key f.payload else f.payload }

theorem bytes_pos (f : DataFrame) : 0 < f.bytes.length := by
  simp only [bytes, List.length_append, FrameHeader.length_bytes]
  omega

end DataFrame

theorem networkOrder_concat (bytes : Bytes) (b : Byte) :
    networkOrder (bytes ++ [b]) = networkOrder bytes * 256 + b.toNat := by
  rw [networkOrder, List.foldl_append]
  rfl

theorem networkOrder_lt (bytes : Bytes) : networkOrder bytes < 256 ^ bytes.length := by
  induction bytes using List.reverseRec with
  | nil => exact Nat.one_pos
  | append_singleton bytes b ih =>
    have hb := b.toNat_lt
    rw [networkOrder_concat, List.length_append, List.length_singleton, Nat.pow_succ]
    omega

theorem FrameHeader.declared_lt (h : FrameHeader) : h.declared < 2 ^ 64 := by
  have hlt := networkOrder_lt h.extended
  have hlen7 := (h.second &&& 0x7F).toNat_lt
  have hsize : h.extended.length ≤ 8 := by
    rw [h.extendedLength, extendedSize]
    split
    · omega
    · split <;> omega
  have hpow : 256 ^ h.extended.length ≤ 256 ^ 8 := Nat.pow_le_pow_right (by omega) hsize
  unfold declared payloadSize
  split <;> omega

theorem read16_eq (data : Nat → Byte) (index : Nat) :
    read16 data index = networkOrder (Memory.load data index 2) := by
  simp [read16, networkOrder, Memory.load, List.range_succ]

theorem read64_eq (data : Nat → Byte) (index : Nat) :
    read32 data index <<< 32 ||| read32 data (index + 4) =
      networkOrder (Memory.load data index 8) := by
  rw [or_lt_two_pow (read32_lt data (index + 4))]
  simp only [read32, read16, networkOrder, Memory.load, List.range_succ, List.range_zero,
    List.nil_append, List.cons_append, List.map_cons, List.map_nil, List.foldl_cons,
    List.foldl_nil, Nat.add_assoc, Nat.add_zero, Nat.reduceAdd]
  omega

/-! ## One round of the loop -/

/-- The length is read in any of its forms as soon as a byte follows it. -/
theorem parseLength_eq {data : Nat → Byte} {all index : Nat} (hi : index < all) (len7 : Byte) :
    parseLength data all index len7 =
      if index + extendedSize len7 ≥ all then none
      else some (payloadSize len7 (Memory.load data index (extendedSize len7)),
        index + extendedSize len7) := by
  unfold parseLength extendedSize payloadSize
  by_cases h₁ : len7 = 126
  · rw [if_pos h₁, if_pos h₁, read16_eq]
    rfl
  · by_cases h₂ : len7 = 127
    · rw [if_neg h₁, if_neg h₁, if_pos h₂, if_pos h₂, read64_eq]
      rfl
    · rw [if_neg h₁, if_neg h₁, if_neg h₂, if_neg h₂, Memory.load_zero, Nat.add_zero,
        if_neg (by omega), if_pos rfl]

theorem parseMask_eq {data : Nat → Byte} {all index : Nat} (hi : index < all) (second : Byte) :
    parseMask data all index (decide (second &&& 0x80 ≠ 0)) =
      if index + keySize second ≥ all then none
      else some (Memory.load data index (keySize second), index + keySize second) := by
  unfold parseMask keySize
  by_cases h : second &&& 0x80 ≠ 0
  · rw [decide_eq_true h, if_pos h]
    rfl
  · rw [decide_eq_false h, if_neg h, if_neg (show ¬index + 0 ≥ all from by omega)]
    rfl

/-- A byte that begins a text or a binary frame. -/
theorem isData_iff (first : Byte) :
    ¬(n2WebsocketFrameType (first &&& 0x0f) ≠ .textFrame ∧
        n2WebsocketFrameType (first &&& 0x0f) ≠ .binaryFrame) ↔
      first &&& 0x0f = 1 ∨ first &&& 0x0f = 2 := by
  rw [ne_eq, ne_eq, n2WebsocketFrameType_eq_textFrame, n2WebsocketFrameType_eq_binaryFrame,
    nibble_nibble, not_and_or, not_not, not_not]

/-- A round that does not see a whole header and a byte behind it takes nothing. -/
theorem parseFrame_short {data : Nat → Byte} {all index : Nat}
    (hdata : data index &&& 0x0f = 1 ∨ data index &&& 0x0f = 2)
    (hshort : index + 1 ≥ all ∨ index + (2 + extendedSize (data (index + 1) &&& 0x7F) +
      keySize (data (index + 1))) ≥ all) :
    parseFrame data all index = .stop := by
  unfold parseFrame
  simp only [if_neg ((isData_iff _).mpr hdata)]
  by_cases h₁ : index + 1 ≥ all
  · rw [if_pos h₁]
  · rw [if_neg h₁]
    by_cases h₂ : index + 1 + 1 ≥ all
    · rw [if_pos h₂]
    · rw [if_neg h₂, parseLength_eq (by omega)]
      by_cases h₃ : index + 1 + 1 + extendedSize (data (index + 1) &&& 0x7F) ≥ all
      · rw [if_pos h₃]
      · rw [if_neg h₃]
        simp only [parseMask_eq (show index + 1 + 1 + extendedSize (data (index + 1) &&& 0x7F) < all
          from by omega)]
        rw [if_pos (show index + 1 + 1 + extendedSize (data (index + 1) &&& 0x7F) +
          keySize (data (index + 1)) ≥ all from by omega)]
        exact ite_self _

/-- A round behind a whole header: the bounds check compares modulo `2 ^ 64`. -/
theorem parseFrame_header {data : Nat → Byte} {all index : Nat} (h : FrameHeader)
    (hshows : Memory.Shows data all index h.bytes) (hle : index + h.bytes.length < all) :
    parseFrame data all index =
      if h.declared = 0 then .stop
      else if u64Add (index + h.bytes.length - 1) h.declared ≥ all then .stop
      else if h.declared > maxObjectSize then .throws
      else
        let payload := Memory.load data (index + h.bytes.length) h.declared
        .frame
          { fin := decide (h.firstByte &&& 0x80 ≠ 0)
            opcode := h.firstByte &&& 0x0F
            mask := decide (h.second &&& 0x80 ≠ 0)
            payloadLength := h.declared
            maskingKey := h.key
            payloadData := if decide (h.second &&& 0x80 ≠ 0) then unmask h.key payload else payload }
          (index + h.bytes.length) := by
  have hlen := h.length_bytes
  simp only [FrameHeader.bytes, Memory.shows_cons, Memory.shows_append] at hshows
  obtain ⟨hFirst, hSecond, hExtended, hKey⟩ := hshows
  have hFirst := hFirst (by omega)
  have hSecond := hSecond (by omega)
  have hExtended := hExtended.load_eq (by rw [h.extendedLength]; omega)
  have hKey := hKey.load_eq (by rw [h.extendedLength, h.keyLength]; omega)
  rw [h.extendedLength] at hExtended hKey
  rw [h.keyLength] at hKey
  unfold parseFrame
  rw [← hFirst]
  simp only [if_neg ((isData_iff _).mpr h.opcode), ← hSecond]
  rw [if_neg (by omega), if_neg (by omega), parseLength_eq (by omega), if_neg (by omega), hExtended]
  have hEnd : index + 1 + 1 + extendedSize (h.second &&& 0x7F) + keySize h.second =
      index + h.bytes.length := by omega
  simp only [parseMask_eq (show index + 1 + 1 + extendedSize (h.second &&& 0x7F) < all from by omega),
    hEnd, hKey, ge_iff_le, if_neg (show ¬all ≤ index + h.bytes.length from by omega)]
  rfl

/-- A round at a byte that begins a data frame stops short or sees a whole header. -/
theorem exists_header {data : Nat → Byte} {all index : Nat}
    (hdata : data index &&& 0x0f = 1 ∨ data index &&& 0x0f = 2) :
    parseFrame data all index = .stop ∨
      ∃ h : FrameHeader, Memory.Shows data all index h.bytes ∧ index + h.bytes.length < all := by
  by_cases hshort : index + 1 ≥ all ∨ index + (2 + extendedSize (data (index + 1) &&& 0x7F) +
      keySize (data (index + 1))) ≥ all
  · exact Or.inl (parseFrame_short hdata hshort)
  · refine Or.inr ⟨⟨data index, data (index + 1),
      Memory.load data (index + 1 + 1) (extendedSize (data (index + 1) &&& 0x7F)),
      Memory.load data (index + 1 + 1 + extendedSize (data (index + 1) &&& 0x7F))
        (keySize (data (index + 1))), hdata, Memory.length_load _ _ _, Memory.length_load _ _ _⟩,
      ?_, ?_⟩
    · simp only [FrameHeader.bytes, Memory.shows_cons, Memory.shows_append, Memory.length_load,
        implies_true, true_and]
      exact ⟨fun i hi _ => Memory.getElem?_load (by simpa using hi),
        fun i hi _ => Memory.getElem?_load (by simpa using hi)⟩
    · rw [FrameHeader.length_bytes]
      simp only
      omega

/-- A complete frame with a payload is taken. -/
theorem parseFrame_frame {data : Nat → Byte} {all index : Nat} (f : DataFrame)
    (hall : all ≤ memBufferSizeMax) (hne : f.payload ≠ [])
    (hshows : Memory.Shows data all index f.bytes) (hle : index + f.bytes.length ≤ all) :
    parseFrame data all index = .frame f.frame (index + f.toFrameHeader.bytes.length) := by
  have hpos : 0 < f.payload.length := List.length_pos_of_ne_nil hne
  have hmax : memBufferSizeMax < maxObjectSize := by decide
  have hword : maxObjectSize < 2 ^ 64 := by decide
  have hlen := f.toFrameHeader.length_bytes
  obtain ⟨hHeader, hPayload⟩ := Memory.shows_append.mp hshows
  rw [DataFrame.bytes, List.length_append] at hle
  have hload := hPayload.load_eq (by omega)
  rw [parseFrame_header f.toFrameHeader hHeader (by omega), ← f.complete, if_neg (by omega),
    u64Add_of_lt (by omega), if_neg (by omega), if_neg (by omega), hload]
  rfl

/-- A length with which the bounds check wraps passes it and is refused by `std::string`. -/
theorem parseFrame_wrapped {data : Nat → Byte} {all index : Nat} (h : FrameHeader)
    (hall : all ≤ memBufferSizeMax) (hshows : Memory.Shows data all index h.bytes)
    (hle : index + h.bytes.length < all)
    (hwraps : 2 ^ 64 ≤ index + h.bytes.length - 1 + h.declared) :
    parseFrame data all index = .throws := by
  have hmax : memBufferSizeMax + maxObjectSize < 2 ^ 64 := by decide
  have hlt := h.declared_lt
  have hsum : u64Add (index + h.bytes.length - 1) h.declared =
      index + h.bytes.length - 1 + h.declared - 2 ^ 64 := by
    unfold u64Add
    omega
  rw [parseFrame_header h hshows hle, if_neg (by omega), hsum, if_neg (by omega), if_pos (by omega)]

/-- A round at the unread bytes: a frame is complete and has a payload, and only a length with
which the bounds check wraps makes it throw. -/
theorem parseFrame_cases {data : Nat → Byte} {all : Nat} (hall : all ≤ memBufferSizeMax)
    (index : Nat) :
    parseFrame data all index = .close ∨ parseFrame data all index = .stop ∨
      (∃ f : DataFrame, f.payload ≠ [] ∧ Memory.Shows data all index f.bytes ∧
        index + f.bytes.length ≤ all) ∨
      parseFrame data all index = .throws ∧ ∃ h : FrameHeader, Memory.Shows data all index h.bytes ∧
        index + h.bytes.length < all ∧ 2 ^ 64 ≤ index + h.bytes.length - 1 + h.declared := by
  by_cases hdata : data index &&& 0x0f = 1 ∨ data index &&& 0x0f = 2
  · rcases exists_header hdata with hstop | ⟨h, hshows, hle⟩
    · exact Or.inr (Or.inl hstop)
    · by_cases hwraps : 2 ^ 64 ≤ index + h.bytes.length - 1 + h.declared
      · exact Or.inr (Or.inr (Or.inr
          ⟨parseFrame_wrapped h hall hshows hle hwraps, h, hshows, hle, hwraps⟩))
      · by_cases hstop : h.declared = 0 ∨ all < index + h.bytes.length + h.declared
        · refine Or.inr (Or.inl ?_)
          rw [parseFrame_header h hshows hle, u64Add_of_lt (by omega)]
          by_cases hzero : h.declared = 0
          · rw [if_pos hzero]
          · rw [if_neg hzero, if_pos (by omega)]
        · refine Or.inr (Or.inr (Or.inl ⟨⟨h, Memory.load data (index + h.bytes.length) h.declared,
            Memory.length_load _ _ _⟩, ?_, ?_, ?_⟩))
          · intro hnil
            have hlen := congrArg List.length hnil
            rw [Memory.length_load] at hlen
            exact hstop (Or.inl hlen)
          · exact Memory.shows_append.mpr
              ⟨hshows, fun i hi _ => Memory.getElem?_load (by simpa using hi)⟩
          · simp only [DataFrame.bytes, List.length_append, Memory.length_load]
            omega
  · rw [not_or] at hdata
    exact Or.inl (parseFrame_bad all hdata.1 hdata.2)

/-! ## A call -/

/-- Index and length of the payloads that the rounds from `index` on build behind their bounds
check, the one that `std::string` refuses to build included. -/
def payloadsLoop (data : Nat → Byte) (allDataLen : Nat) : Nat → Nat → List (Nat × Nat)
  | 0, _ => []
  | fuel + 1, index =>
    if index ≥ allDataLen then []
    else
      match parseFrame data allDataLen index with
      | .stop => []
      | .close => []
      | .throws =>
        let second := data (index + 1)
        let len7 := second &&& 0x7F
        [(index + 2 + extendedSize len7 + keySize second,
          payloadSize len7 (Memory.load data (index + 2) (extendedSize len7)))]
      | .frame frame payloadIndex =>
        (payloadIndex, frame.payloadLength) ::
          payloadsLoop data allDataLen fuel (payloadIndex + frame.payloadLength)

namespace WebsocketWorld

variable {P : Type}

/-- Index and length of the payloads that `process_connection` builds. -/
def builtPayloads (w : WebsocketWorld P) (gid : Nat) : List (Nat × Nat) :=
  match w.connections gid with
  | none => []
  | some c =>
    let (allDataLen, b) := c.recvBuffer.canReadableSize
    if allDataLen = 0 then []
    else payloadsLoop b.forceGetReadPtr.1 allDataLen (allDataLen + 1) 0

/-- The loop takes the complete frames with a payload one by one and goes on behind them. -/
theorem processLoop_frames {gid all : Nat} {data : Nat → Byte} (hall : all ≤ memBufferSizeMax)
    {frames : List DataFrame} (hne : ∀ f ∈ frames, f.payload ≠ []) {left : Bytes}
    {index fuel : Nat} {w : WebsocketWorld P} (hi : index ≤ all)
    (hrest : Memory.load data index (all - index) = frames.flatMap DataFrame.bytes ++ left)
    (hfuel : all - index < fuel)
    (hopen : w.Open gid (Memory.load data index (all - index))) :
    ∃ fuel' w', left.length < fuel' ∧ w'.Open gid left ∧
      w'.calls = w.calls ++ frames.map (fun f => (gid, f.frame)) ∧
      processLoop gid data all fuel index w =
        processLoop gid data all fuel' (all - left.length) w' ∧
      ∃ built, payloadsLoop data all fuel index =
          built ++ payloadsLoop data all fuel' (all - left.length) ∧
        ∀ p ∈ built, p.1 + p.2 ≤ all := by
  induction frames generalizing index fuel w with
  | nil =>
    have hlen := congrArg List.length hrest
    simp only [Memory.length_load, List.flatMap_nil, List.nil_append] at hlen hrest
    have hindex : all - left.length = index := by omega
    rw [hindex]
    exact ⟨fuel, w, by omega, hrest ▸ hopen, by simp, rfl, [], rfl, by simp⟩
  | cons f fs ih =>
    obtain ⟨fuel, rfl⟩ := Nat.exists_eq_add_of_lt (Nat.zero_lt_of_lt hfuel)
    have hpos := f.bytes_pos
    rw [List.flatMap_cons, List.append_assoc] at hrest
    obtain ⟨hshows, hle⟩ := (Memory.prefix_load_iff hi).mp ⟨_, hrest.symm⟩
    have hround := parseFrame_frame f hall (hne f (by simp)) hshows hle
    have hbytes : index + f.toFrameHeader.bytes.length + f.frame.payloadLength =
        index + f.bytes.length := by
      simp only [DataFrame.frame, DataFrame.bytes, List.length_append]
      omega
    have hmove : index + f.toFrameHeader.bytes.length - index + f.frame.payloadLength =
        f.bytes.length := by omega
    have hnext : Memory.load data (index + f.bytes.length) (all - (index + f.bytes.length)) =
        fs.flatMap DataFrame.bytes ++ left := by
      have hdrop := congrArg (List.drop f.bytes.length) hrest
      rw [Memory.drop_load data index (by omega), List.drop_left] at hdrop
      rw [← hdrop, Nat.sub_sub]
    obtain ⟨hopen', hcalls⟩ := @Open.takeFrame _ w gid f.bytes.length _ hopen f.frame
      (by rw [Memory.length_load]; omega)
    rw [Memory.drop_load data index (by omega), Nat.sub_sub] at hopen'
    obtain ⟨fuel', w', hfuel', hopen'', hcalls', hloop, built, hbuilt, hinside⟩ :=
      @ih (fun g hg => hne g (by simp [hg])) (index + f.bytes.length) fuel _ hle hnext
        (by omega) hopen'
    refine ⟨fuel', w', hfuel', hopen'', ?_, ?_,
      (index + f.toFrameHeader.bytes.length, f.frame.payloadLength) :: built, ?_, ?_⟩
    · rw [hcalls', hcalls, List.map_cons, List.append_assoc]
      rfl
    · rw [← hloop, Nat.zero_add, processLoop, if_neg (by omega), hround]
      simp only [hmove, hbytes]
    · rw [Nat.zero_add, payloadsLoop, if_neg (by omega), hround]
      simp only [hbytes, hbuilt, List.cons_append]
    · intro p hp
      rcases List.mem_cons.mp hp with rfl | hp
      · simp only [hbytes]
        exact hle
      · exact hinside p hp

/-- A call of `process_connection` has taken `frames` and is at the bytes `left`. -/
structure Behind (w : WebsocketWorld P) (gid : Nat) (frames : List DataFrame) (left : Bytes)
    (data : Nat → Byte) (all fuel : Nat) (w' : WebsocketWorld P) : Prop where
  all_eq : all = (frames.flatMap DataFrame.bytes).length + left.length
  all_le : all ≤ memBufferSizeMax
  unread : Memory.load data (frames.flatMap DataFrame.bytes).length
    (all - (frames.flatMap DataFrame.bytes).length) = left
  isOpen : w'.Open gid left
  calls : w'.calls = w.calls ++ frames.map fun f => (gid, f.frame)
  loop : w.processConnection gid =
    processLoop gid data all (fuel + 1) (frames.flatMap DataFrame.bytes).length w'
  payloads : ∃ built, w.builtPayloads gid =
      built ++ payloadsLoop data all (fuel + 1) (frames.flatMap DataFrame.bytes).length ∧
    ∀ p ∈ built, p.1 + p.2 ≤ all

/-- Complete frames at the front of the unread bytes, all with a payload, are taken. -/
theorem processConnection_frames {w : WebsocketWorld P} {gid : Nat} {frames : List DataFrame}
    (hne : ∀ f ∈ frames, f.payload ≠ []) {left : Bytes}
    (hopen : w.Open gid (frames.flatMap DataFrame.bytes ++ left)) :
    ∃ data all fuel w', w.Behind gid frames left data all fuel w' := by
  obtain ⟨b, hinput, hwf, hlimit, hcontent⟩ := hopen
  obtain ⟨c, hc, hpair⟩ := Option.map_eq_some_iff.mp hinput
  simp only [Prod.mk.injEq] at hpair
  obtain ⟨hflag, rfl⟩ := hpair
  obtain ⟨b₁, hsize, hwf₁, hcontent₁, hlimit₁⟩ := Buffer.canReadableSize_spec hwf
  obtain ⟨data, b₂, hptr, hdata, hwf₂, hcontent₂, hlimit₂⟩ := Buffer.forceGetReadPtr_spec hwf₁
  have hmod₁ := modify_recvBuffer hinput fun _ => b₁
  have hmod₂ := modify_recvBuffer hmod₁ fun _ => b₂
  have hall := congrArg List.length hcontent
  rw [List.length_append] at hall
  have hle : c.recvBuffer.content.length ≤ memBufferSizeMax := by
    have := hwf.length_content_le
    omega
  rw [hcontent₁] at hdata
  by_cases hzero : c.recvBuffer.content.length = 0
  · -- nothing is unread
    have hnil : frames = [] := by
      rcases frames with _ | ⟨f, fs⟩
      · rfl
      · have hpos := f.bytes_pos
        simp only [List.flatMap_cons, List.length_append] at hall
        omega
    have hleft : left = [] := List.eq_nil_of_length_eq_zero (by omega)
    subst hnil hleft
    refine ⟨data, 0, 0, _, rfl, Nat.zero_le _, rfl, ⟨b₁, hmod₁, hwf₁, hlimit₁.trans hlimit,
      hcontent₁.trans hcontent⟩, (List.append_nil _).symm, ?_, [], ?_, by simp⟩
    · simp [processConnection, hc, hsize, hzero, processLoop]
    · simp [builtPayloads, hc, hsize, hzero, payloadsLoop]
  · have hrest : Memory.load data 0 (c.recvBuffer.content.length - 0) =
        frames.flatMap DataFrame.bytes ++ left := by
      rw [Nat.sub_zero, hdata, hcontent]
    obtain ⟨fuel, w', hfuel, hopen', hcalls, hloop, built, hbuilt, hinside⟩ :=
      @processLoop_frames P gid _ data hle frames hne left 0 (c.recvBuffer.content.length + 1)
        ((w.modify gid fun c => { c with recvBuffer := b₁ }).modify gid
          fun c => { c with recvBuffer := b₂ }) (Nat.zero_le _) hrest (by omega)
        ⟨b₂, hmod₂, hwf₂, by omega, by rw [hrest, hcontent₂, hcontent₁, hcontent]⟩
    obtain ⟨fuel, rfl⟩ := Nat.exists_eq_add_of_lt (Nat.zero_lt_of_lt hfuel)
    rw [Nat.zero_add, show c.recvBuffer.content.length - left.length =
      (frames.flatMap DataFrame.bytes).length from by omega] at hloop hbuilt
    refine ⟨data, _, fuel, w', hall, hle, ?_, hopen', hcalls, ?_, built, ?_, hinside⟩
    · have hdrop := congrArg (List.drop (frames.flatMap DataFrame.bytes).length) hrest
      rw [Memory.drop_load data 0 (by omega), Nat.zero_add, List.drop_left, Nat.sub_zero] at hdrop
      exact hdrop
    · rw [← hloop]
      unfold processConnection
      rw [hc]
      simp only [hsize, hptr, if_neg hzero]
    · rw [← hbuilt]
      unfold builtPayloads
      rw [hc]
      simp only [hsize, hptr, if_neg hzero]

/-- What the next round of the call sees of the bytes left. -/
theorem Behind.shows {w w' : WebsocketWorld P} {gid all fuel : Nat} {frames : List DataFrame}
    {left bytes : Bytes} {data : Nat → Byte} (h : w.Behind gid frames left data all fuel w') :
    bytes <+: left ↔ Memory.Shows data all (frames.flatMap DataFrame.bytes).length bytes ∧
      (frames.flatMap DataFrame.bytes).length + bytes.length ≤ all := by
  have hle := h.all_eq
  rw [← Memory.prefix_load_iff (by omega), h.unread]

/-- A chunk is written to the receive buffer of a connection. -/
def receive (w : WebsocketWorld P) (gid : Nat) (chunk : Bytes) : WebsocketWorld P :=
  w.modify gid fun c => { c with recvBuffer := (c.recvBuffer.write (some chunk)).2 }

theorem Open.receive {w : WebsocketWorld P} {gid : Nat} {bytes chunk : Bytes}
    (h : w.Open gid bytes) (hne : chunk ≠ [])
    (hfit : bytes.length + chunk.length ≤ memBufferSizeMax) :
    (w.receive gid chunk).Open gid (bytes ++ chunk) := by
  obtain ⟨b, hinput, hwf, hlimit, rfl⟩ := h
  have hmax : memBufferSizeMax < 2 ^ 64 := by decide
  obtain ⟨b', hwf', hlimit', hwrite⟩ := Buffer.write_spec hwf hne (by omega)
  rw [hlimit, if_pos hfit] at hwrite
  have hmod := modify_recvBuffer hinput fun b => (b.write (some chunk)).2
  rw [hwrite.1] at hmod
  exact ⟨b', hmod, hwf', hlimit'.trans hlimit, hwrite.2⟩

theorem Open.unread {w : WebsocketWorld P} {gid : Nat} {bytes : Bytes} (h : w.Open gid bytes)
    {c : WebsocketConnection P} (hc : w.connections gid = some c) :
    c.closeFlag = false ∧ c.recvBuffer.content = bytes := by
  obtain ⟨b, hinput, -, -, hcontent⟩ := h
  rw [input, hc, Option.map_some, Option.some.injEq, Prod.mk.injEq] at hinput
  exact ⟨hinput.1, hinput.2 ▸ hcontent⟩

end WebsocketWorld

/-- A round at a complete frame without a payload takes nothing. -/
theorem parseFrame_empty {data : Nat → Byte} {all index : Nat} (f : DataFrame)
    (hempty : f.payload = []) (hshows : Memory.Shows data all index f.bytes)
    (hle : index + f.bytes.length ≤ all) : parseFrame data all index = .stop := by
  have hlen := f.toFrameHeader.length_bytes
  have hdeclared : f.declared = 0 := by rw [← f.complete, hempty, List.length_nil]
  rw [DataFrame.bytes, hempty, List.append_nil] at hshows hle
  by_cases hlast : index + f.toFrameHeader.bytes.length < all
  · rw [parseFrame_header f.toFrameHeader hshows hlast, if_pos hdeclared]
  · rw [FrameHeader.bytes, Memory.shows_cons, Memory.shows_cons] at hshows
    obtain ⟨hFirst, hSecond, -⟩ := hshows
    have hFirst := hFirst (by omega)
    have hSecond := hSecond (by omega)
    refine parseFrame_short (hFirst ▸ f.opcode) (Or.inr ?_)
    rw [← hSecond]
    omega

/-- The complete frames with a payload at the front, and what begins with no such frame. -/
theorem exists_frames (content : Bytes) :
    ∃ (frames : List DataFrame) (left : Bytes), (∀ f ∈ frames, f.payload ≠ []) ∧
      content = frames.flatMap DataFrame.bytes ++ left ∧
      ∀ f : DataFrame, f.payload ≠ [] → ¬f.bytes <+: left := by
  induction hlen : content.length using Nat.strongRecOn generalizing content with
  | ind n ih =>
    by_cases hfront : ∃ f : DataFrame, f.payload ≠ [] ∧ f.bytes <+: content
    · obtain ⟨f, hf, rest, rfl⟩ := hfront
      have hpos := f.bytes_pos
      rw [List.length_append] at hlen
      obtain ⟨fs, left, hne, rfl, hleft⟩ := ih rest.length (by omega) rest rfl
      refine ⟨f :: fs, left, ?_, by simp, hleft⟩
      intro g hg
      rcases List.mem_cons.mp hg with rfl | hg
      · exact hf
      · exact hne g hg
    · exact ⟨[], content, by simp, rfl, fun f hf hpre => hfront ⟨f, hf, hpre⟩⟩

/-- Behind complete frames with a payload stands one without. -/
def ReachesEmptyFrame (content : Bytes) : Prop :=
  ∃ (frames : List DataFrame) (empty : DataFrame), (∀ f ∈ frames, f.payload ≠ []) ∧
    empty.payload = [] ∧ frames.flatMap DataFrame.bytes ++ empty.bytes <+: content

/-- Behind complete frames with a payload, a header with a byte behind it declares a length with
which the bounds check does not wrap. -/
def DeclaresWithinWord (content : Bytes) : Prop :=
  ∀ (frames : List DataFrame) (h : FrameHeader) (next : Byte), (∀ f ∈ frames, f.payload ≠ []) →
    frames.flatMap DataFrame.bytes ++ (h.bytes ++ [next]) <+: content →
    (frames.flatMap DataFrame.bytes).length + h.bytes.length - 1 + h.declared < 2 ^ 64

/-- **Progress.** A call that returns and leaves the connection open has taken every complete
frame off the buffer, unless it reaches a frame without a payload: then the unread bytes begin
with that frame, and the next call stops at it again. -/
theorem complete_frames_taken_iff {P : Type} {w : WebsocketWorld P} {gid : Nat} {content : Bytes}
    (hopen : w.Open gid content) :
    ((w.processConnection gid).1 = false →
      ∀ c, (w.processConnection gid).2.connections gid = some c → c.closeFlag = false →
        ∀ f : DataFrame, ¬f.bytes <+: c.recvBuffer.content) ↔
      ¬ReachesEmptyFrame content := by
  constructor
  · rintro htaken ⟨frames, empty, hne, hempty, rest, rfl⟩
    rw [List.append_assoc] at hopen
    obtain ⟨data, all, fuel, w', hbehind⟩ := WebsocketWorld.processConnection_frames hne hopen
    have hpos := empty.bytes_pos
    obtain ⟨hshows, hle⟩ := hbehind.shows.mp (List.prefix_append empty.bytes rest)
    have hround := parseFrame_empty empty hempty hshows hle
    have hcall := hbehind.loop
    rw [WebsocketWorld.processLoop, if_neg (by omega), hround] at hcall
    rw [hcall] at htaken
    obtain ⟨b, hinput, -⟩ := hbehind.isOpen
    obtain ⟨c, hc, -⟩ := Option.map_eq_some_iff.mp hinput
    obtain ⟨hflag, hcontent⟩ := hbehind.isOpen.unread hc
    exact htaken rfl c hc hflag empty (hcontent ▸ List.prefix_append _ _)
  · intro hreach hret c hc hflag f hf
    obtain ⟨frames, left, hne, rfl, hleft⟩ := exists_frames content
    obtain ⟨data, all, fuel, w', hbehind⟩ := WebsocketWorld.processConnection_frames hne hopen
    have hpos := f.bytes_pos
    have hcall := hbehind.loop
    -- the call has returned at `left`, so that is what is unread
    have hstopped : w.processConnection gid = (false, w') → False := by
      intro heq
      rw [heq] at hc
      rw [(hbehind.isOpen.unread hc).2] at hf
      by_cases hempty : f.payload = []
      · exact hreach ⟨frames, f, hne, hempty, (List.prefix_append_right_inj _).mpr hf⟩
      · exact hleft f hempty hf
    rw [WebsocketWorld.processLoop] at hcall
    by_cases hend : (frames.flatMap DataFrame.bytes).length ≥ all
    · rw [if_pos hend] at hcall
      exact hstopped hcall
    · rw [if_neg hend] at hcall
      rcases parseFrame_cases hbehind.all_le (frames.flatMap DataFrame.bytes).length with hclose | hstop | ⟨g, hg, hshows⟩ | ⟨hthrows, -⟩
      · rw [hclose] at hcall
        obtain ⟨b, hinput, -⟩ := hbehind.isOpen
        obtain ⟨hclosed, -⟩ := WebsocketWorld.markClose_input hinput
        rw [hcall] at hc
        rw [WebsocketWorld.input, hc, Option.map_some, Option.some.injEq, Prod.mk.injEq,
          hflag] at hclosed
        cases hclosed.1
      · rw [hstop] at hcall
        exact hstopped hcall
      · exact hleft g hg (hbehind.shows.mpr hshows)
      · rw [hthrows] at hcall
        rw [hcall] at hret
        cases hret

/-- Both players are connected, and the first has sent `bytes`. -/
def playersAfter (bytes : Bytes) : WebsocketWorld Unit := twoPlayers.receive 1 bytes

theorem open_playersAfter {bytes : Bytes} (hne : bytes ≠ []) (hfit : bytes.length ≤ memBufferSizeMax) :
    (playersAfter bytes).Open 1 bytes := by
  have hfresh : twoPlayers.Open 1 [] :=
    WebsocketWorld.open_reuse (s := .new fun _ => 0) rfl rfl rfl
  exact hfresh.receive hne (by simpa using hfit)

theorem complete_frames_taken_maskedHi : ¬ReachesEmptyFrame maskedHi.bytes := by
  refine (complete_frames_taken_iff (open_playersAfter (by decide) (by decide))).mp ?_
  intro _ c hc _ f hf
  have hleft : (((playersAfter maskedHi.bytes).processConnection 1).2.connections 1).map
      (fun c => c.recvBuffer.content) = some [] := by decide +kernel
  have hpos := f.bytes_pos
  have hlen := hf.length_le
  rw [hc, Option.map_some, Option.some.injEq] at hleft
  rw [hleft, List.length_nil] at hlen
  omega

/-- A masked text frame without a payload, and a frame behind it: the call returns, nothing is
handed over and the empty frame stays at the front. -/
theorem empty_frame_kept :
    let out := (playersAfter [0x81, 0x80, 1, 2, 3, 4, 0x81, 0x81, 0, 0, 0, 0, 65]).processConnection 1
    out.1 = false ∧ out.2.calls = [] ∧ ∃ c, out.2.connections 1 = some c ∧ c.closeFlag = false ∧
      ∃ f : DataFrame, f.bytes <+: c.recvBuffer.content := by
  intro out
  have hleft : (out.2.connections 1).map (fun c => (c.closeFlag, c.recvBuffer.content)) =
      some (false, [0x81, 0x80, 1, 2, 3, 4, 0x81, 0x81, 0, 0, 0, 0, 65]) := by decide +kernel
  obtain ⟨c, hc, hpair⟩ := Option.map_eq_some_iff.mp hleft
  rw [Prod.mk.injEq] at hpair
  refine ⟨by decide +kernel, by decide +kernel, c, hc, hpair.1,
    ⟨⟨0x81, 0x80, [], [1, 2, 3, 4], by decide, by decide, by decide⟩, [], by decide⟩, ?_⟩
  rw [hpair.2]
  exact ⟨[0x81, 0x81, 0, 0, 0, 0, 65], by decide⟩

/-- **The payload bound.** A call throws nothing and builds every payload inside the received
bytes exactly when it reaches no length with which the bounds check wraps. -/
theorem payloads_inside_iff {P : Type} {w : WebsocketWorld P} {gid : Nat} {content : Bytes}
    (hopen : w.Open gid content) :
    ((w.processConnection gid).1 = false ∧
        ∀ p ∈ w.builtPayloads gid, p.1 + p.2 ≤ content.length) ↔
      DeclaresWithinWord content := by
  constructor
  · rintro ⟨hret, -⟩ frames h next hne ⟨rest, rfl⟩
    rw [List.append_assoc] at hopen
    obtain ⟨data, all, fuel, w', hbehind⟩ := WebsocketWorld.processConnection_frames hne hopen
    obtain ⟨hshows, hle⟩ := hbehind.shows.mp (List.prefix_append (h.bytes ++ [next]) rest)
    rw [List.length_append, List.length_singleton] at hle
    by_contra hwraps
    have hround := parseFrame_wrapped h hbehind.all_le
      (hshows.mono (List.prefix_append _ _)) (by omega) (by omega)
    have hcall := hbehind.loop
    rw [WebsocketWorld.processLoop, if_neg (by omega), hround] at hcall
    rw [hcall] at hret
    cases hret
  · intro hdeclared
    obtain ⟨frames, left, hne, rfl, hleft⟩ := exists_frames content
    obtain ⟨data, all, fuel, w', hbehind⟩ := WebsocketWorld.processConnection_frames hne hopen
    have hcall := hbehind.loop
    have hall := hbehind.all_eq
    obtain ⟨built, hbuilt, hinside⟩ := hbehind.payloads
    rw [WebsocketWorld.processLoop] at hcall
    rw [payloadsLoop] at hbuilt
    rw [← List.length_append] at hall
    rw [← hall]
    by_cases hend : (frames.flatMap DataFrame.bytes).length ≥ all
    · rw [if_pos hend] at hcall hbuilt
      rw [hcall, hbuilt, List.append_nil]
      exact ⟨rfl, hinside⟩
    · rw [if_neg hend] at hcall hbuilt
      rcases parseFrame_cases hbehind.all_le (frames.flatMap DataFrame.bytes).length with hclose | hstop | ⟨g, hg, hshows⟩ | ⟨-, h, hshows, hle, hwraps⟩
      · rw [hclose] at hcall hbuilt
        rw [hcall, hbuilt, List.append_nil]
        exact ⟨rfl, hinside⟩
      · rw [hstop] at hcall hbuilt
        rw [hcall, hbuilt, List.append_nil]
        exact ⟨rfl, hinside⟩
      · exact absurd (hbehind.shows.mpr hshows) (hleft g hg)
      · -- the byte behind the header
        obtain ⟨rest, rfl⟩ := hbehind.shows.mpr ⟨hshows, Nat.le_of_lt hle⟩
        rcases rest with _ | ⟨next, rest⟩
        · rw [List.append_nil, List.length_append] at hall
          omega
        · have hlt := hdeclared frames h next hne
            ((List.prefix_append_right_inj _).mpr ⟨rest, by simp⟩)
          omega

theorem payloads_inside_maskedHi : DeclaresWithinWord maskedHi.bytes :=
  (payloads_inside_iff (open_playersAfter (by decide) (by decide))).mp
    ⟨by decide +kernel, by decide +kernel⟩

/-- A text frame that declares `2 ^ 64 - 1` bytes, of which one has come: the bounds check
passes and `std::string` throws. -/
theorem declared_length_throws :
    let w := playersAfter [0x81, 0x7F, 255, 255, 255, 255, 255, 255, 255, 255, 65]
    (w.processConnection 1).1 = true ∧ (10, 2 ^ 64 - 1) ∈ w.builtPayloads 1 ∧
      ¬10 + (2 ^ 64 - 1) ≤ 11 := by
  decide +kernel

end Tubekit
