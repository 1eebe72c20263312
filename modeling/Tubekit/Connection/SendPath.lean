import Tubekit.Connection.Transfer

/-!
# The send path: what was accepted and what is on the wire

A connection from the accept loop on, driven by calls of `send` from any thread and by the
steps of `buf2sock`. `SendState` records next to it the bytes that the socket has taken
(`wire`) and the payloads of the calls of `send` that returned true (`accepted`).

Bytes move from `m_wating_send_pack` through `temp_buffer` and `m_send_buffer` to the inner
buffer, and no step of `buf2sock` before the socket loses or reorders any
(`buf2sockStep_pending`). At the socket they are lost or repeated: after a partial write the
source decreases `should_send_size` but does not advance `should_send_idx`, so the next send
starts again at the first byte of the block. `Aligned` is the condition under which this does
no harm, and `conserved_iff_aligned` says that it is exactly that condition.
-/

namespace Tubekit

open Lib

namespace Staging

/-- The bytes held by a step of `buf2sock` between two buffers. -/
def Buf2sockPc.inFlight : Buf2sockPc → Bytes
  | .temp tempBuffer => tempBuffer
  | _ => []

/-- What is queued for the socket, in the order in which it will be offered. -/
def pending (s : Staging) (pc : Buf2sockPc) : Bytes :=
  s.unsent ++ (s.sendBuffer.content ++ (pc.inFlight ++ s.watingSendPack.content))

/-- No block is loaded and `m_send_buffer` is empty. -/
def Drained (s : Staging) : Prop :=
  s.shouldSendIdx = -1 ∧ s.shouldSendSize = 0 ∧ s.sendBuffer.content = []

/-- What holds of the staging areas at each place in `buf2sock`. -/
def At (s : Staging) : Buf2sockPc → Prop
  | .tag1 => True
  | .tag3 => s.Drained
  | .reserve reserveSize =>
    s.Drained ∧ 0 < reserveSize ∧ reserveSize ≤ innerBufferSize ∧
      reserveSize ≤ s.sendBuffer.limitMax
  | .temp tempBuffer =>
    s.Drained ∧ tempBuffer ≠ [] ∧ tempBuffer.length ≤ innerBufferSize ∧
      tempBuffer.length ≤ s.sendBuffer.limitMax
  | .callback => True
  | .tag4 => s.shouldSendIdx = 0
  | .done _ _ => True

/-- The invariant of the send path. -/
structure Sound (s : Staging) (pc : Buf2sockPc) : Prop where
  sendWf : s.sendBuffer.Wf
  watingWf : s.watingSendPack.Wf
  watingLimit : s.watingSendPack.limitMax = memBufferSizeMax
  index : (s.shouldSendIdx = -1 ∧ s.shouldSendSize = 0) ∨
    (s.shouldSendIdx = 0 ∧ 0 < s.shouldSendSize)
  place : s.At pc

theorem unsent_of_idle {s : Staging} (h : s.shouldSendIdx = -1) : s.unsent = [] := by
  simp [unsent, h]

theorem unsent_of_loaded {s : Staging} (h : s.shouldSendIdx = 0) :
    s.unsent = Memory.load s.buf2sockInnerBuffer 0 s.shouldSendSize.toNat := by
  simp [unsent, h]

theorem length_unsent_of_loaded {s : Staging} (h : s.shouldSendIdx = 0) :
    s.unsent.length = s.shouldSendSize.toNat := by
  rw [unsent_of_loaded h, Memory.length_load]

theorem sound_reuse (s : Staging) (ret closed : Bool) : s.reuse.Sound (.done ret closed) := by
  have hmax : memBufferSizeMax < 2 ^ 64 := by decide
  obtain ⟨hs, -, -⟩ := Buffer.setLimitMax_spec (Buffer.wf_clear s.sendBuffer) hmax
  obtain ⟨hw, -, hl⟩ := Buffer.setLimitMax_spec (Buffer.wf_clear s.watingSendPack) hmax
  exact ⟨hs, hw, hl, Or.inl ⟨rfl, rfl⟩, trivial⟩

theorem pending_reuse (s : Staging) (ret closed : Bool) :
    s.reuse.pending (.done ret closed) = [] := by
  have hmax : memBufferSizeMax < 2 ^ 64 := by decide
  obtain ⟨-, hs, -⟩ := Buffer.setLimitMax_spec (Buffer.wf_clear s.sendBuffer) hmax
  obtain ⟨-, hw, -⟩ := Buffer.setLimitMax_spec (Buffer.wf_clear s.watingSendPack) hmax
  have hu : s.reuse.unsent = [] := unsent_of_idle rfl
  simp only [pending, hu, Buf2sockPc.inFlight, List.nil_append]
  simp only [reuse, hs, hw, Buffer.content_clear, List.append_nil]

/-! ## Steps before the socket -/

/-- Loading a block moves the first bytes of `m_send_buffer` to the inner buffer. -/
theorem tag1_spec {s : Staging} (h : s.Sound .tag1) (out : Outside) :
    ∃ s' pc, s.buf2sockStep out .tag1 = (s', pc, []) ∧ s'.Sound pc ∧
      s'.pending pc = s.pending .tag1 := by
  rcases h.index with ⟨hi, hsz⟩ | ⟨hi, hsz⟩
  · have hpos : 0 < innerBufferSize := by decide
    obtain ⟨b, hRun, hWf, hC, hL⟩ := Buffer.read_spec h.sendWf hpos
    have hneg : s.shouldSendIdx < 0 := by omega
    simp only [buf2sockStep, hneg, if_true, hRun]
    by_cases hlen : (s.sendBuffer.content.take innerBufferSize).length > 0
    · simp only [hlen, if_true]
      refine ⟨_, _, rfl, ⟨hWf, h.watingWf, h.watingLimit, Or.inr ⟨rfl, by simp only; omega⟩, rfl⟩,
        ?_⟩
      -- the loaded block is what was taken from the front of `m_send_buffer`
      have hBlock := Memory.load_store_same s.buf2sockInnerBuffer 0
        (s.sendBuffer.content.take innerBufferSize)
      rw [pending, pending, unsent_of_loaded rfl, unsent_of_idle hi]
      simp only [Int.toNat_natCast, hBlock, hC, Buf2sockPc.inFlight, List.nil_append]
      rw [← List.append_assoc, List.take_append_drop]
    · have hempty : s.sendBuffer.content = [] := by
        rw [List.length_take] at hlen
        exact List.eq_nil_of_length_eq_zero (by omega)
      have hC' : b.content = [] := by rw [hC, hempty, List.drop_nil]
      simp only [hlen, if_false]
      refine ⟨_, _, rfl, ⟨hWf, h.watingWf, h.watingLimit, Or.inl ⟨hi, hsz⟩, hi, hsz, hC'⟩, ?_⟩
      simp only [pending, unsent, hneg, if_true, hC', hempty, Buf2sockPc.inFlight]
  · have hneg : ¬ s.shouldSendIdx < 0 := by omega
    simp only [buf2sockStep, hneg, if_false]
    exact ⟨_, _, rfl, ⟨h.sendWf, h.watingWf, h.watingLimit, h.index, hi⟩, rfl⟩

theorem tag3_spec {s : Staging} (h : s.Sound .tag3) (out : Outside) :
    ∃ s' pc, s.buf2sockStep out .tag3 = (s', pc, []) ∧ s'.Sound pc ∧
      s'.pending pc = s.pending .tag3 := by
  obtain ⟨hi, hsz, hempty⟩ := h.place
  obtain ⟨b, hRun, hWf, hC, hL, -⟩ := Buffer.blankSpace_spec h.sendWf
  simp only [buf2sockStep, hRun]
  have hpend : ∀ pc : Buf2sockPc, pc.inFlight = [] →
      pending { s with sendBuffer := b } pc = s.pending .tag3 := by
    intro pc hpc
    simp only [pending, hpc, hC]
    rfl
  by_cases hroom : s.sendBuffer.limitMax - s.sendBuffer.writeOff > 0
  · simp only [hroom, if_true]
    have hpos : 0 < innerBufferSize := by decide
    refine ⟨_, _, rfl, ⟨hWf, h.watingWf, h.watingLimit, h.index,
      ⟨hi, hsz, by rw [← hempty]; exact hC⟩, ?_⟩, hpend _ rfl⟩
    simp only [hL]
    split <;> omega
  · simp only [hroom, if_false]
    exact ⟨_, _, rfl, ⟨hWf, h.watingWf, h.watingLimit, h.index, trivial⟩, hpend _ rfl⟩

theorem reserve_spec {s : Staging} {n : Nat} (h : s.Sound (.reserve n)) (out : Outside) :
    ∃ s' pc, s.buf2sockStep out (.reserve n) = (s', pc, []) ∧ s'.Sound pc ∧
      s'.pending pc = s.pending (.reserve n) := by
  obtain ⟨hdrained, hpos, hinner, hlimit⟩ := h.place
  obtain ⟨b, hRun, hWf, hC, hL⟩ := Buffer.read_spec h.watingWf hpos
  have hwl : b.limitMax = memBufferSizeMax := by rw [hL, h.watingLimit]
  simp only [buf2sockStep, hRun]
  by_cases hlen : (s.watingSendPack.content.take n).length > 0
  · simp only [hlen, if_true]
    have hne : s.watingSendPack.content.take n ≠ [] := List.ne_nil_of_length_pos hlen
    have hle : (s.watingSendPack.content.take n).length ≤ n := by
      rw [List.length_take]
      omega
    refine ⟨_, _, rfl, ⟨h.sendWf, hWf, hwl, h.index, hdrained, hne, by omega, by simp only; omega⟩, ?_⟩
    simp only [pending, Buf2sockPc.inFlight, hC, List.nil_append]
    rw [List.take_append_drop]
    rfl
  · have hempty : s.watingSendPack.content = [] := by
      rw [List.length_take] at hlen
      exact List.eq_nil_of_length_eq_zero (by omega)
    have hC' : b.content = s.watingSendPack.content := by rw [hC, hempty, List.drop_nil]
    have hpend : ∀ pc : Buf2sockPc, pc.inFlight = [] →
        pending { s with watingSendPack := b } pc = s.pending (.reserve n) := by
      intro pc hpc
      simp only [pending, hpc, hC']
      rfl
    simp only [hlen, if_false]
    split
    · exact ⟨_, _, rfl, ⟨h.sendWf, hWf, hwl, h.index, trivial⟩, hpend _ rfl⟩
    · exact ⟨_, _, rfl, ⟨h.sendWf, hWf, hwl, h.index, trivial⟩, hpend _ rfl⟩

/-- The write of `temp_buffer` succeeds: `m_send_buffer` is empty and its limit is above
`reserve_size`. -/
theorem temp_spec {s : Staging} {bytes : Bytes} (h : s.Sound (.temp bytes)) (out : Outside) :
    ∃ s', s.buf2sockStep out (.temp bytes) = (s', .tag1, []) ∧ s'.Sound .tag1 ∧
      s'.pending .tag1 = s.pending (.temp bytes) := by
  obtain ⟨⟨hi, hsz, hempty⟩, hne, hinner, hlimit⟩ := h.place
  have hsmall : innerBufferSize < 2 ^ 64 := by decide
  have hlen : s.sendBuffer.content.length = 0 := by rw [hempty]; rfl
  obtain ⟨b, hWf, -, hCase⟩ := Buffer.write_spec h.sendWf hne (by omega)
  rw [if_pos (by omega)] at hCase
  obtain ⟨hRun, hC⟩ := hCase
  simp only [buf2sockStep, hRun, ne_eq, not_true_eq_false, if_false]
  refine ⟨_, rfl, ⟨hWf, h.watingWf, h.watingLimit, h.index, trivial⟩, ?_⟩
  simp only [pending, hC, hempty, Buf2sockPc.inFlight, List.nil_append]
  rfl

/-- Every step but that at the socket keeps the queued bytes, and takes none. -/
theorem buf2sockStep_pending {s : Staging} {pc : Buf2sockPc} (h : s.Sound pc) (out : Outside)
    (hpc : pc ≠ .tag4) :
    ∃ s' pc', s.buf2sockStep out pc = (s', pc', []) ∧ s'.Sound pc' ∧
      s'.pending pc' = s.pending pc := by
  cases pc with
  | tag1 => exact tag1_spec h out
  | tag3 => exact tag3_spec h out
  | reserve n => exact reserve_spec h out
  | temp bytes =>
    obtain ⟨s', hRun, hSound, hPend⟩ := temp_spec h out
    exact ⟨s', _, hRun, hSound, hPend⟩
  | callback =>
    exact ⟨s, _, rfl, ⟨h.sendWf, h.watingWf, h.watingLimit, h.index, trivial⟩, rfl⟩
  | tag4 => exact absurd rfl hpc
  | done ret closed => exact ⟨s, _, rfl, h, rfl⟩

/-! ## The step at the socket -/

/-- What a healthy socket may answer to an offer of `n` bytes. -/
def Answers (n : Nat) : SockSend → Prop
  | .took k => 1 ≤ k ∧ k ≤ n
  | .failed errno => errno ≠ .other

instance (n : Nat) : (sock : SockSend) → Decidable (Answers n sock)
  | .took k => inferInstanceAs (Decidable (1 ≤ k ∧ k ≤ n))
  | .failed errno => inferInstanceAs (Decidable (errno ≠ .other))

/-- After the socket has taken `k` bytes of the block, the source offers the front of the block
again. This is the rest of the block exactly when the block overlaps itself so; it always does
when the socket takes all of it. -/
def Realigned (block : Bytes) : SockSend → Prop
  | .took k => block.take (block.length - k) = block.drop k
  | .failed _ => True

instance (block : Bytes) : (sock : SockSend) → Decidable (Realigned block sock)
  | .took k => inferInstanceAs (Decidable (block.take (block.length - k) = block.drop k))
  | .failed _ => isTrue trivial

/-- The block after an answer `took (k + 1)`: its front, shortened by the bytes taken. -/
theorem offer_took {s : Staging} (h : s.Sound .tag4) {k : Nat}
    (hk : k + 1 ≤ s.shouldSendSize.toNat) :
    ∃ s', s.offer (.took (k + 1)) = (s', .tag1, s.unsent.take (k + 1)) ∧ s'.Sound .tag1 ∧
      s'.unsent = s.unsent.take (s.unsent.length - (k + 1)) ∧
      s'.sendBuffer = s.sendBuffer ∧ s'.watingSendPack = s.watingSendPack := by
  have hi : s.shouldSendIdx = 0 := h.place
  have hTaken : Memory.load s.buf2sockInnerBuffer s.shouldSendIdx.toNat (k + 1) =
      s.unsent.take (k + 1) := by
    rw [unsent_of_loaded hi, Memory.take_load _ _ hk, hi]
    rfl
  simp only [offer, hTaken]
  rw [length_unsent_of_loaded hi]
  by_cases hall : s.shouldSendSize - (k + 1 : Int) ≤ 0
  · rw [if_pos (by simpa using hall)]
    refine ⟨_, rfl, ⟨h.sendWf, h.watingWf, h.watingLimit, Or.inl ⟨rfl, rfl⟩, trivial⟩, ?_, rfl, rfl⟩
    rw [unsent_of_idle rfl, show s.shouldSendSize.toNat - (k + 1) = 0 from by omega,
      List.take_zero]
  · rw [if_neg (by simpa using hall)]
    refine ⟨_, rfl, ⟨h.sendWf, h.watingWf, h.watingLimit, Or.inr ⟨hi, by simp only; omega⟩,
      trivial⟩, ?_, rfl, rfl⟩
    rw [unsent_of_loaded hi, Memory.take_load _ _ (by omega)]
    simp only [unsent, hi]
    rw [if_neg (by omega)]
    exact congrArg (Memory.load s.buf2sockInnerBuffer 0) (by omega)

/-- At the socket the queued bytes are kept if and only if the block realigns. -/
theorem offer_conserves_iff {s : Staging} (h : s.Sound .tag4) {sock : SockSend}
    (ha : Answers s.shouldSendSize.toNat sock) :
    ∃ s' pc taken, s.offer sock = (s', pc, taken) ∧ s'.Sound pc ∧
      (taken ++ s'.pending pc = s.pending .tag4 ↔ Realigned s.unsent sock) := by
  have hi : s.shouldSendIdx = 0 := h.place
  have hlen := length_unsent_of_loaded hi
  cases sock with
  | failed errno =>
    have hDone : s.Sound (.done true false) := ⟨h.sendWf, h.watingWf, h.watingLimit, h.index, trivial⟩
    cases errno with
    | eintr =>
      exact ⟨s, .tag1, [], rfl, ⟨h.sendWf, h.watingWf, h.watingLimit, h.index, trivial⟩,
        iff_of_true rfl trivial⟩
    | eagain => exact ⟨s, _, [], rfl, hDone, iff_of_true rfl trivial⟩
    | other => exact absurd rfl ha
  | took k =>
    obtain ⟨hk1, hkn⟩ := ha
    obtain ⟨k, rfl⟩ : ∃ j, k = j + 1 := ⟨k - 1, by omega⟩
    obtain ⟨s', hRun, hSound, hUnsent, hSend, hWating⟩ := offer_took h hkn
    refine ⟨s', _, _, hRun, hSound, ?_⟩
    have hSplit := List.take_append_drop (k + 1) s.unsent
    simp only [pending, hUnsent, hSend, hWating, Buf2sockPc.inFlight, Realigned]
    rw [← List.append_assoc, List.append_cancel_right_eq]
    constructor
    · intro hEq
      exact List.append_cancel_left (hEq.trans hSplit.symm)
    · intro hEq
      rw [hEq, hSplit]

/-! ## `send` -/

/-- The invariant speaks about `m_wating_send_pack` only through its well-formedness. -/
theorem Sound.withWating {s : Staging} {pc : Buf2sockPc} (h : s.Sound pc) {b : Buffer}
    (hWf : b.Wf) (hl : b.limitMax = memBufferSizeMax) :
    Sound { s with watingSendPack := b } pc := by
  refine ⟨h.sendWf, hWf, hl, h.index, ?_⟩
  cases pc <;> exact h.place

/-- `send` appends its payload to what is queued when it returns true, and nothing otherwise. -/
theorem send_spec {s : Staging} {pc : Buf2sockPc} (h : s.Sound pc) {gid : Nat} (hg : 0 < gid)
    {buffer : Option Bytes} (hb : (buffer.getD []).length ≤ maxObjectSize) :
    (s.send gid buffer).2.Sound pc ∧
      (s.send gid buffer).2.pending pc =
        s.pending pc ++ if (s.send gid buffer).1.ret then buffer.getD [] else [] := by
  cases buffer with
  | none => exact ⟨h, by simp [send]⟩
  | some bytes =>
    by_cases hne : bytes = []
    · subst hne
      obtain ⟨b, hRun, hWf, hC, hL⟩ := Buffer.write_throws h.watingWf (Or.inr rfl)
      simp only [send, hRun]
      refine ⟨h.withWating hWf (hL.trans h.watingLimit), ?_⟩
      simp only [pending, hC, Bool.false_eq_true, if_false, List.append_nil]
      rfl
    · have hmax : memBufferSizeMax + maxObjectSize < 2 ^ 64 := by decide
      have hle := h.watingWf.length_content_le
      have hlimit := h.watingLimit
      obtain ⟨b, hWf, hL, hCase⟩ := Buffer.write_spec h.watingWf hne
        (by rw [Option.getD_some] at hb; omega)
      have hNext := h.withWating hWf (hL.trans h.watingLimit)
      split at hCase
      · obtain ⟨hRun, hC⟩ := hCase
        simp only [send, hRun, gt_iff_lt, hg, if_true]
        refine ⟨hNext, ?_⟩
        simp only [pending, hC, Option.getD_some, List.append_assoc]
        rfl
      · obtain ⟨hRun, hC⟩ := hCase
        simp only [send, hRun]
        refine ⟨hNext, ?_⟩
        simp only [pending, hC, Bool.false_eq_true, if_false, List.append_nil]
        rfl

end Staging

/-! ## Runs -/

/-- A connection on its send side, with the bytes its socket has taken and the payloads
accepted so far. A `pc` of `done` means that no call of `buf2sock` is going on. -/
structure SendState (P : Type) where
  endpoint : Endpoint P
  pc : Staging.Buf2sockPc
  wire : Bytes
  accepted : Bytes

/-- `send` by any thread, a worker entering `buf2sock`, and a step of the call. -/
inductive SendEvent where
  | send (buffer : Option Bytes) (checkConnected : Bool)
  | call
  | step (out : Staging.Outside)

namespace SendState

variable {P : Type}

/-- A connection as the accept loop hands it on. -/
def start (init : P) (socketPtr : Option Nat) (gid : Nat) (e : Endpoint P) : SendState P :=
  { endpoint := e.prepare init socketPtr gid, pc := .done false false, wire := [], accepted := [] }

def next (s : SendState P) : SendEvent → SendState P
  | .send buffer checkConnected =>
    let (out, e) := s.endpoint.send buffer checkConnected
    { s with
      endpoint := e
      accepted := if out.ret then s.accepted ++ buffer.getD [] else s.accepted }
  | .call =>
    match s.pc with
    | .done _ _ => { s with pc := .tag1 }
    | _ => s
  | .step out =>
    let (staging, pc, taken) := s.endpoint.staging.buf2sockStep out s.pc
    { s with endpoint := s.endpoint.withStaging staging, pc, wire := s.wire ++ taken }

def run (s : SendState P) (events : List SendEvent) : SendState P := events.foldl next s

/-- What the machine allows: payloads are objects, and a socket takes part of what it is
offered or fails with `EINTR` or `EAGAIN`. -/
def Allows (s : SendState P) : SendEvent → Prop
  | .send buffer _ => (buffer.getD []).length ≤ maxObjectSize
  | .call => True
  | .step out =>
    s.pc = .tag4 → Staging.Answers s.endpoint.staging.shouldSendSize.toNat out.sock

instance (s : SendState P) : (e : SendEvent) → Decidable (s.Allows e)
  | .send buffer _ => inferInstanceAs (Decidable ((buffer.getD []).length ≤ maxObjectSize))
  | .call => isTrue trivial
  | .step out => inferInstanceAs (Decidable
      (s.pc = .tag4 → Staging.Answers s.endpoint.staging.shouldSendSize.toNat out.sock))

/-- Every event of the run is allowed where it happens. -/
def Allowed (s : SendState P) : List SendEvent → Prop
  | [] => True
  | e :: events => s.Allows e ∧ (s.next e).Allowed events

instance decidableAllowed (s : SendState P) : (events : List SendEvent) →
    Decidable (s.Allowed events)
  | [] => isTrue trivial
  | e :: events =>
    have := decidableAllowed (s.next e) events
    inferInstanceAs (Decidable (s.Allows e ∧ (s.next e).Allowed events))

/-- If the event lets the socket take part of a block, the block realigns. -/
def AlignedAt (s : SendState P) : SendEvent → Prop
  | .step out => s.pc = .tag4 → Staging.Realigned s.endpoint.staging.unsent out.sock
  | _ => True

instance (s : SendState P) : (e : SendEvent) → Decidable (s.AlignedAt e)
  | .step out => inferInstanceAs (Decidable
      (s.pc = .tag4 → Staging.Realigned s.endpoint.staging.unsent out.sock))
  | .send _ _ => isTrue trivial
  | .call => isTrue trivial

/-- Whenever the socket takes part of a block in the run, the block realigns. -/
def Aligned (s : SendState P) : List SendEvent → Prop
  | [] => True
  | e :: events => s.AlignedAt e ∧ (s.next e).Aligned events

instance decidableAligned (s : SendState P) : (events : List SendEvent) →
    Decidable (s.Aligned events)
  | [] => isTrue trivial
  | e :: events =>
    have := decidableAligned (s.next e) events
    inferInstanceAs (Decidable (s.AlignedAt e ∧ (s.next e).Aligned events))

/-- What the socket has taken, then the unsent rest of the inner buffer, `m_send_buffer`, bytes
in `temp_buffer` and `m_wating_send_pack` are the accepted payloads. -/
def Conserved (s : SendState P) : Prop :=
  s.wire ++ s.endpoint.staging.pending s.pc = s.accepted

/-- The invariant of a run. -/
structure Live (s : SendState P) : Prop where
  sound : s.endpoint.staging.Sound s.pc
  gid : 0 < s.endpoint.gid

theorem live_start (init : P) (socketPtr : Option Nat) {gid : Nat} (hg : 0 < gid)
    (e : Endpoint P) : (start init socketPtr gid e).Live :=
  ⟨by simpa [start] using Staging.sound_reuse _ _ _, by simpa [start] using hg⟩

theorem conserved_start (init : P) (socketPtr : Option Nat) (gid : Nat) (e : Endpoint P) :
    (start init socketPtr gid e).Conserved := by
  simp [Conserved, start, Staging.pending_reuse]

/-- One event keeps the invariant, and keeps the bytes exactly when it is aligned. -/
theorem next_spec {s : SendState P} (h : s.Live) {e : SendEvent} (ha : s.Allows e) :
    (s.next e).Live ∧ (s.Conserved → ((s.next e).Conserved ↔ s.AlignedAt e)) := by
  cases e with
  | send buffer checkConnected =>
    obtain ⟨hSound, hPend⟩ := Staging.send_spec h.sound h.gid ha
    rcases s.endpoint.send_cases buffer checkConnected with hRun | hRun
    · simp only [next, hRun, Bool.false_eq_true, if_false]
      exact ⟨h, fun hc => iff_of_true hc trivial⟩
    · simp only [next, hRun]
      refine ⟨⟨by simpa using hSound, by simpa using h.gid⟩, fun hc => iff_of_true ?_ trivial⟩
      simp only [Conserved, Endpoint.staging_withStaging, hPend]
      rw [← List.append_assoc, hc]
      split <;> simp
  | call =>
    simp only [next]
    split
    · rename_i hpc
      have hSound := h.sound
      refine ⟨⟨⟨hSound.sendWf, hSound.watingWf, hSound.watingLimit, hSound.index, trivial⟩,
        h.gid⟩, fun hc => iff_of_true ?_ trivial⟩
      simpa [Conserved, Staging.pending, hpc, Staging.Buf2sockPc.inFlight] using hc
    · exact ⟨h, fun hc => iff_of_true hc trivial⟩
  | step out =>
    by_cases hpc : s.pc = .tag4
    · have hSound := h.sound
      rw [hpc] at hSound
      obtain ⟨s', pc, taken, hRun, hNext, hIff⟩ := Staging.offer_conserves_iff hSound (ha hpc)
      simp only [next, hpc, Staging.buf2sockStep, hRun, AlignedAt, true_implies]
      refine ⟨⟨by simpa using hNext, by simpa using h.gid⟩, fun hc => ?_⟩
      rw [← hIff]
      simp only [Conserved, Endpoint.staging_withStaging, hpc] at hc ⊢
      rw [List.append_assoc, ← hc, List.append_cancel_left_eq]
    · obtain ⟨s', pc, hRun, hNext, hPend⟩ := Staging.buf2sockStep_pending h.sound out hpc
      simp only [next, hRun, AlignedAt, hpc, false_implies, List.append_nil]
      refine ⟨⟨by simpa using hNext, by simpa using h.gid⟩, fun hc => iff_of_true ?_ trivial⟩
      simpa [Conserved, hPend] using hc

/-- From a live state in which nothing is lost: nothing is lost in any state of the run if and
only if every partial write of the run is aligned. -/
theorem run_conserved_iff {s : SendState P} (h : s.Live) (hc : s.Conserved)
    (events : List SendEvent) (ha : s.Allowed events) :
    (∀ n, (s.run (events.take n)).Conserved) ↔ s.Aligned events := by
  induction events generalizing s with
  | nil => simpa [run, Aligned] using hc
  | cons e events ih =>
    obtain ⟨hLive, hIff⟩ := next_spec h ha.1
    constructor
    · intro hAll
      have hFirst : (s.next e).Conserved := by simpa [run] using hAll 1
      exact ⟨(hIff hc).mp hFirst, (ih hLive hFirst ha.2).mp fun n => hAll (n + 1)⟩
    · rintro ⟨hAt, hRest⟩ n
      have hFirst := (hIff hc).mpr hAt
      cases n with
      | zero => exact hc
      | succ n => exact (ih hLive hFirst ha.2).mpr hRest n

/-- **The send path.** For a connection handed on by the accept loop, of either class: in every
state of a run the bytes taken by the socket, followed by what is queued, are the accepted
payloads in order, if and only if every partial write of the run takes bytes of a block that
realigns. -/
theorem conserved_iff_aligned (init : P) (socketPtr : Option Nat) (gid : Nat) (hg : 0 < gid)
    (e : Endpoint P) (events : List SendEvent)
    (ha : (start init socketPtr gid e).Allowed events) :
    (∀ n, ((start init socketPtr gid e).run (events.take n)).Conserved) ↔
      (start init socketPtr gid e).Aligned events :=
  run_conserved_iff (live_start init socketPtr hg e) (conserved_start init socketPtr gid e)
    events ha

/-- `send` of two bytes, and a `buf2sock` whose first socket send takes one of them. -/
def partialWrite : List SendEvent :=
  [.send (some [97, 98]) true, .call] ++ List.replicate 6 (.step ⟨.took 1, false⟩)

/-- The same with a socket that takes the whole block. -/
def wholeWrite : List SendEvent :=
  [.send (some [97, 98]) true, .call] ++ List.replicate 6 (.step ⟨.took 2, false⟩)

/-- A new stream connection, handed on with gid `1`. -/
def fresh : SendState Unit := start () none 1 (.stream (.new (fun _ => 0) none))

/-- After the partial write the first byte is queued once more and the second is lost. -/
theorem partialWrite_not_conserved :
    fresh.Allowed partialWrite ∧ (fresh.run partialWrite).accepted = [97, 98] ∧
      (fresh.run partialWrite).wire = [97] ∧
      (fresh.run partialWrite).endpoint.staging.pending (fresh.run partialWrite).pc = [97] ∧
      ¬ (fresh.run partialWrite).Conserved := by
  have hWire : (fresh.run partialWrite).wire = [97] := by decide +kernel
  have hPend : (fresh.run partialWrite).endpoint.staging.pending
      (fresh.run partialWrite).pc = [97] := by decide +kernel
  have hAccepted : (fresh.run partialWrite).accepted = [97, 98] := by decide +kernel
  refine ⟨?_, hAccepted, hWire, hPend, ?_⟩
  · decide +kernel
  · rw [Conserved, hWire, hPend, hAccepted]
    decide

/-- `conserved_iff_aligned` at a run whose write is not partial. -/
theorem wholeWrite_conserved :
    fresh.Allowed wholeWrite ∧ fresh.Aligned wholeWrite ∧
      ∀ n, (fresh.run (wholeWrite.take n)).Conserved := by
  have hAllowed : fresh.Allowed wholeWrite := by decide +kernel
  have hAligned : fresh.Aligned wholeWrite := by decide +kernel
  exact ⟨hAllowed, hAligned,
    (conserved_iff_aligned () none 1 Nat.one_pos _ wholeWrite hAllowed).mpr hAligned⟩

end SendState

end Tubekit
