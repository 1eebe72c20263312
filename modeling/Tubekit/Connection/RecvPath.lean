import Tubekit.Connection.Transfer

/-!
# The receive path

A connection from the accept loop on, with calls of `sock2buf` and reads of `m_recv_buffer`
by the application in any order. A block that does not fit stays in the inner buffer
(`held`), with its length in `sock2buf_data_len`, and is stored by the next call; the field
is also overwritten with the results `-1` and `0` of `recv`, which is harmless because the
block has been stored by then.
-/

namespace Tubekit

open Lib

/-- The bytes that an answer of `recv` brings. -/
def SockRecv.bytes : SockRecv → Bytes
  | .block data => data.bytes
  | _ => []

/-- End of stream, or an error other than `EAGAIN` and `EINTR`. -/
def SockRecv.Ends : SockRecv → Prop
  | .eof => True
  | .failed errno => errno = .other
  | .block _ => False

namespace Staging

/-- The block that did not fit into `m_recv_buffer`. -/
def held (s : Staging) : Bytes :=
  if s.sock2bufDataLen > 0 then Memory.load s.sock2bufInnerBuffer 0 s.sock2bufDataLen.toNat
  else []

/-- The invariant of the receive path. -/
structure RecvSound (s : Staging) : Prop where
  wf : s.recvBuffer.Wf
  limit : s.recvBuffer.limitMax = memBufferSizeMax
  dataLen : s.sock2bufDataLen ≤ innerBufferSize

theorem held_of_nonpos {s : Staging} (h : s.sock2bufDataLen ≤ 0) : s.held = [] := by
  unfold held
  rw [if_neg (by omega)]

theorem held_ne_nil {s : Staging} (h : 0 < s.sock2bufDataLen) : s.held ≠ [] := by
  unfold held
  rw [if_pos h]
  intro hnil
  have hlen := congrArg List.length hnil
  rw [Memory.length_load, List.length_nil] at hlen
  omega

theorem recvSound_reuse (s : Staging) : s.reuse.RecvSound := by
  have hmax : memBufferSizeMax < 2 ^ 64 := by decide
  obtain ⟨hWf, -, hl⟩ := Buffer.setLimitMax_spec (Buffer.wf_clear s.recvBuffer) hmax
  exact ⟨hWf, hl, Int.natCast_nonneg _⟩

theorem recvBuffer_reuse_content (s : Staging) : s.reuse.recvBuffer.content = [] := by
  have hmax : memBufferSizeMax < 2 ^ 64 := by decide
  obtain ⟨-, hC, -⟩ := Buffer.setLimitMax_spec (Buffer.wf_clear s.recvBuffer) hmax
  exact hC

/-- What the receive path needs of the staging areas, also where `clear` has put the limit of
`m_recv_buffer` back. -/
structure Receiving (s : Staging) : Prop where
  wf : s.recvBuffer.Wf
  limit : s.recvBuffer.limitMax ≤ memBufferSizeMax
  dataLen : s.sock2bufDataLen ≤ innerBufferSize

theorem RecvSound.receiving {s : Staging} (h : s.RecvSound) : s.Receiving :=
  ⟨h.wf, Nat.le_of_eq h.limit, h.dataLen⟩

/-- A write of a block to `m_recv_buffer` appends it, or throws because it does not fit. -/
theorem Receiving.write {s : Staging} (h : s.Receiving) {bytes : Bytes} (hne : bytes ≠ [])
    (hfit : bytes.length ≤ innerBufferSize) :
    ∃ b, b.Wf ∧ b.limitMax = s.recvBuffer.limitMax ∧
      if s.recvBuffer.content.length + bytes.length ≤ s.recvBuffer.limitMax then
        s.recvBuffer.write (some bytes) = (.ok bytes.length, b) ∧
          b.content = s.recvBuffer.content ++ bytes
      else s.recvBuffer.write (some bytes) = (.error .overLimit, b) ∧
        b.content = s.recvBuffer.content := by
  have hle := h.wf.length_content_le
  have hsmall : memBufferSizeMax + innerBufferSize < 2 ^ 64 := by decide
  have hl := h.limit
  exact Buffer.write_spec h.wf hne (by omega)

/-- What a call of `sock2buf` on `s` does, and when it gives up: `before` are the bytes it has to
store first and `used` the answers of `recv` it used. -/
structure Arrives (s : Staging) (before : Bytes) (d : Sock2bufDone) (used : List SockRecv) : Prop where
  receiving : d.staging.Receiving
  limit : d.staging.recvBuffer.limitMax = s.recvBuffer.limitMax
  bytes : ∃ arrived, d.staging.recvBuffer.content = s.recvBuffer.content ++ arrived ∧
    arrived ++ d.staging.held = before ++ (used.map SockRecv.bytes).flatten
  gaveUp : d.ret = false → d.needTask = false → ∃ answer ∈ used, answer.Ends

/-- A call that stores `bytes` and goes on as from `t`. -/
theorem Arrives.store {s t : Staging} {bytes rest : Bytes} {d : Sock2bufDone} {used : List SockRecv}
    (h : Arrives t rest d used) (hlimit : t.recvBuffer.limitMax = s.recvBuffer.limitMax)
    (hcontent : t.recvBuffer.content = s.recvBuffer.content ++ bytes) :
    Arrives s (bytes ++ rest) d used := by
  obtain ⟨arrived, hC, hbytes⟩ := h.bytes
  refine ⟨h.receiving, h.limit.trans hlimit, ⟨bytes ++ arrived, ?_, ?_⟩, h.gaveUp⟩
  · rw [hC, hcontent, List.append_assoc]
  · rw [List.append_assoc, hbytes, List.append_assoc]

/-- One more answer of `recv` before the others. -/
theorem Arrives.answer {s : Staging} {before : Bytes} {d : Sock2bufDone} {used : List SockRecv}
    {answer : SockRecv} (h : Arrives s (before ++ answer.bytes) d used) :
    Arrives s before d (answer :: used) := by
  obtain ⟨arrived, hC, hbytes⟩ := h.bytes
  refine ⟨h.receiving, h.limit, ⟨arrived, hC, ?_⟩, fun hr hn => ?_⟩
  · simpa using hbytes
  · obtain ⟨other, hmem, hEnds⟩ := h.gaveUp hr hn
    exact ⟨other, List.mem_cons_of_mem _ hmem, hEnds⟩

/-- The loop ends with an answer that brings nothing. -/
theorem Receiving.arrives_last {s : Staging} (h : s.Receiving) (ret : Bool) {len : Int}
    (hlen : len ≤ 0) (used : List SockRecv) {answer : SockRecv} (hnone : answer.bytes = [])
    (hends : ret = false → answer.Ends) :
    Arrives s [] ⟨ret, false, { s with sock2bufDataLen := len }, used⟩ [answer] := by
  have hheld : held { s with sock2bufDataLen := len } = [] := held_of_nonpos hlen
  refine ⟨⟨h.wf, h.limit, Int.le_trans hlen (by decide)⟩, rfl, ⟨[], by simp, ?_⟩, fun hr _ => ?_⟩
  · simp [hheld, hnone]
  · exact ⟨answer, by simp, hends hr⟩

theorem sock2bufLoop_arrives {s : Staging} (h : s.Receiving) (used answers : List SockRecv)
    (hlen : s.sock2bufDataLen ≤ 0) :
    ∃ new, (s.sock2bufLoop used answers).used = used ++ new ∧
      Arrives s [] (s.sock2bufLoop used answers) new := by
  induction answers generalizing s used with
  | nil => exact ⟨_, rfl, h.arrives_last true (by decide) _ rfl (by simp)⟩
  | cons answer answers ih =>
    cases answer with
    | block data =>
      have hload := Memory.load_store_same s.sock2bufInnerBuffer 0 data.bytes
      obtain ⟨b, hWf, hL, hCase⟩ := h.write data.nonempty data.fits
      have hlimit : b.limitMax ≤ memBufferSizeMax := hL ▸ h.limit
      simp only [sock2bufLoop, hload]
      split at hCase
      · obtain ⟨hRun, hC⟩ := hCase
        simp only [hRun]
        obtain ⟨new, hUsed, hArrives⟩ := ih (s := { s with
          sock2bufInnerBuffer := Memory.store s.sock2bufInnerBuffer 0 data.bytes
          recvBuffer := b
          sock2bufDataLen := 0 }) ⟨hWf, hlimit, by simp⟩ (used ++ [.block data]) (Int.le_refl 0)
        have hstored : Arrives s (data.bytes ++ []) _ new := hArrives.store hL hC
        rw [List.append_nil] at hstored
        exact ⟨.block data :: new, by rw [hUsed, List.append_assoc]; rfl, hstored.answer⟩
      · obtain ⟨hRun, hC⟩ := hCase
        have hpos : 0 < (data.bytes.length : Int) := by
          have := List.length_pos_of_ne_nil data.nonempty
          omega
        simp only [hRun]
        refine ⟨[.block data], rfl, ⟨hWf, hlimit, by have := data.fits; simp only; omega⟩, hL,
          ⟨[], by simp [hC], ?_⟩, fun _ hn => by cases hn⟩
        simp only [held, gt_iff_lt, hpos, if_true, Int.toNat_natCast, hload]
        simp [SockRecv.bytes]
    | eof => exact ⟨_, rfl, h.arrives_last false (by decide) _ rfl fun _ => trivial⟩
    | failed errno =>
      cases errno with
      | eintr =>
        simp only [sock2bufLoop]
        obtain ⟨new, hUsed, hArrives⟩ := ih (s := { s with sock2bufDataLen := -1 })
          ⟨h.wf, h.limit, by simp only; omega⟩ (used ++ [.failed .eintr]) (by simp)
        have hsame : Arrives s ([] ++ []) _ new := hArrives.store rfl (by simp)
        exact ⟨.failed .eintr :: new, by rw [hUsed, List.append_assoc]; rfl, hsame.answer⟩
      | eagain => exact ⟨_, rfl, h.arrives_last true (by decide) _ rfl (by simp)⟩
      | other => exact ⟨_, rfl, h.arrives_last false (by decide) _ rfl fun _ => rfl⟩

/-- A call of `sock2buf` appends to `m_recv_buffer` what was held and what `recv` brings, up to
what is held afterwards. It gives up only at the end of the stream, at an error, or when the held
block still does not fit. -/
theorem sock2buf_arrives {s : Staging} (h : s.Receiving) (answers : List SockRecv) :
    Arrives s s.held (s.sock2buf answers) (s.sock2buf answers).used ∨
      (s.held ≠ [] ∧ s.recvBuffer.limitMax < s.recvBuffer.content.length + s.held.length ∧
        ∃ b, b.Wf ∧ b.limitMax = s.recvBuffer.limitMax ∧ b.content = s.recvBuffer.content ∧
          s.sock2buf answers = ⟨false, false, { s with recvBuffer := b }, []⟩) := by
  by_cases hlen : s.sock2bufDataLen > 0
  · have hheld : s.held = Memory.load s.sock2bufInnerBuffer 0 s.sock2bufDataLen.toNat := by
      unfold held
      rw [if_pos hlen]
    have hdata := h.dataLen
    obtain ⟨b, hWf, hL, hCase⟩ := h.write (held_ne_nil hlen)
      (by rw [hheld, Memory.length_load]; omega)
    have hlimit : b.limitMax ≤ memBufferSizeMax := hL ▸ h.limit
    simp only [sock2buf, hlen, if_true, ← hheld]
    split at hCase
    · obtain ⟨hRun, hC⟩ := hCase
      simp only [hRun]
      obtain ⟨new, hUsed, hArrives⟩ := sock2bufLoop_arrives
        (s := { s with recvBuffer := b, sock2bufDataLen := 0 }) ⟨hWf, hlimit, by simp⟩ [] answers
        (Int.le_refl 0)
      have hstored : Arrives s (s.held ++ []) _ new := hArrives.store hL hC
      rw [List.append_nil] at hstored
      rw [List.nil_append] at hUsed
      rw [hUsed]
      exact Or.inl hstored
    · rename_i hover
      obtain ⟨hRun, hC⟩ := hCase
      simp only [hRun]
      exact Or.inr ⟨held_ne_nil hlen, by omega, b, hWf, hL, hC, rfl⟩
  · obtain ⟨new, hUsed, hArrives⟩ := sock2bufLoop_arrives h [] answers (by omega)
    rw [List.nil_append] at hUsed
    simp only [sock2buf, hlen, if_false]
    rw [hUsed, held_of_nonpos (by omega)]
    exact Or.inl hArrives

/-- `sock2buf` keeps every byte, and gives up only at the end of the stream, at an error, or
when the held block still does not fit. -/
theorem sock2buf_spec {s : Staging} (h : s.RecvSound) (answers : List SockRecv) :
    (s.sock2buf answers).staging.RecvSound ∧
      (s.sock2buf answers).staging.recvBuffer.content ++ (s.sock2buf answers).staging.held =
        s.recvBuffer.content ++ s.held ++ ((s.sock2buf answers).used.map SockRecv.bytes).flatten ∧
      ((s.sock2buf answers).ret = false → (s.sock2buf answers).needTask = false →
        (∃ answer ∈ (s.sock2buf answers).used, answer.Ends) ∨
          (s.held ≠ [] ∧ memBufferSizeMax < s.recvBuffer.content.length + s.held.length)) := by
  rcases sock2buf_arrives h.receiving answers with harrives | ⟨hne, hover, b, hWf, hL, hC, hrun⟩
  · obtain ⟨hreceiving, hlimit, ⟨arrived, hcontent, hbytes⟩, hgaveUp⟩ := harrives
    refine ⟨⟨hreceiving.wf, hlimit.trans h.limit, hreceiving.dataLen⟩, ?_,
      fun hr hn => Or.inl (hgaveUp hr hn)⟩
    rw [hcontent, List.append_assoc, hbytes, List.append_assoc]
  · have hkept : held { s with recvBuffer := b } = s.held := rfl
    rw [hrun]
    refine ⟨⟨hWf, hL.trans h.limit, h.dataLen⟩, ?_, fun _ _ => Or.inr ⟨hne, h.limit ▸ hover⟩⟩
    simp only [hC, hkept, List.map_nil, List.flatten_nil, List.append_nil]

end Staging

/-! ## Runs -/

/-- A connection on its receive side, with the bytes received and those consumed so far. -/
structure RecvState (P : Type) where
  endpoint : Endpoint P
  received : Bytes
  consumed : Bytes

/-- A call of `sock2buf`, or a read of `m_recv_buffer` by the application. -/
inductive RecvEvent where
  | sock2buf (answers : List SockRecv)
  | read (size : Nat)
  | readPtrMoveN (n : Nat)

namespace RecvState

variable {P : Type}

def start (init : P) (socketPtr : Option Nat) (gid : Nat) (e : Endpoint P) : RecvState P :=
  { endpoint := e.prepare init socketPtr gid, received := [], consumed := [] }

def withRecvBuffer (s : RecvState P) (b : Buffer) : RecvState P :=
  { s with endpoint := s.endpoint.withStaging { s.endpoint.staging with recvBuffer := b } }

def next (s : RecvState P) : RecvEvent → RecvState P
  | .sock2buf answers =>
    let d := s.endpoint.staging.sock2buf answers
    { s with
      endpoint := s.endpoint.withStaging d.staging
      received := s.received ++ (d.used.map SockRecv.bytes).flatten }
  | .read size =>
    match s.endpoint.staging.recvBuffer.read true size with
    | (.error _, b) => s.withRecvBuffer b
    | (.ok bytes, b) => { s.withRecvBuffer b with consumed := s.consumed ++ bytes }
  | .readPtrMoveN n =>
    match s.endpoint.staging.recvBuffer.readPtrMoveN n with
    | (false, b) => s.withRecvBuffer b
    | (true, b) =>
      { s.withRecvBuffer b with
        consumed := s.consumed ++ s.endpoint.staging.recvBuffer.content.take n }

def run (s : RecvState P) (events : List RecvEvent) : RecvState P := events.foldl next s

/-- What was consumed, then `m_recv_buffer`, then the held block are the bytes received. -/
structure Conserved (s : RecvState P) : Prop where
  sound : s.endpoint.staging.RecvSound
  bytes : s.consumed ++ (s.endpoint.staging.recvBuffer.content ++ s.endpoint.staging.held) =
    s.received

theorem conserved_start (init : P) (socketPtr : Option Nat) (gid : Nat) (e : Endpoint P) :
    (start init socketPtr gid e).Conserved := by
  refine ⟨by simpa [start] using Staging.recvSound_reuse _, ?_⟩
  have hheld : e.staging.reuse.held = [] := Staging.held_of_nonpos (Int.le_refl 0)
  simp [start, Staging.recvBuffer_reuse_content, hheld]

/-- Taking bytes from the front of `m_recv_buffer` keeps the account. -/
theorem Conserved.consume {s : RecvState P} (h : s.Conserved) {b : Buffer} {bytes : Bytes}
    (hWf : b.Wf) (hl : b.limitMax = s.endpoint.staging.recvBuffer.limitMax)
    (hC : bytes ++ b.content = s.endpoint.staging.recvBuffer.content) :
    Conserved { s.withRecvBuffer b with consumed := s.consumed ++ bytes } := by
  have hSound := h.sound
  have hBytes := h.bytes
  refine ⟨⟨by simpa [withRecvBuffer] using hWf,
    by simpa [withRecvBuffer] using hl.trans hSound.limit,
    by simpa [withRecvBuffer] using hSound.dataLen⟩, ?_⟩
  rw [← hC] at hBytes
  simp only [withRecvBuffer, Endpoint.staging_withStaging]
  rw [← hBytes]
  simp only [List.append_assoc]
  rfl

theorem Conserved.keep {s : RecvState P} (h : s.Conserved) {b : Buffer} (hWf : b.Wf)
    (hl : b.limitMax = s.endpoint.staging.recvBuffer.limitMax)
    (hC : b.content = s.endpoint.staging.recvBuffer.content) : (s.withRecvBuffer b).Conserved := by
  have hNone := @consume P s h b [] hWf hl hC
  rw [List.append_nil] at hNone
  exact hNone

theorem next_conserved {s : RecvState P} (h : s.Conserved) (e : RecvEvent) :
    (s.next e).Conserved := by
  cases e with
  | sock2buf answers =>
    obtain ⟨hSound, hBytes, -⟩ := Staging.sock2buf_spec h.sound answers
    refine ⟨by simpa [next] using hSound, ?_⟩
    simp only [next, Endpoint.staging_withStaging]
    rw [hBytes, ← h.bytes]
    simp only [List.append_assoc]
  | read size =>
    by_cases hs : size = 0
    · obtain ⟨b, hRun, hWf, hC, hL⟩ :=
        @Buffer.read_throws _ h.sound.wf true size (Or.inr hs)
      simp only [next, hRun]
      exact h.keep hWf hL hC
    · obtain ⟨b, hRun, hWf, hC, hL⟩ := Buffer.read_spec h.sound.wf (Nat.pos_of_ne_zero hs)
      simp only [next, hRun]
      exact h.consume hWf hL (by rw [hC, List.take_append_drop])
  | readPtrMoveN n =>
    obtain ⟨b, hRun, hWf, hC, hL⟩ := Buffer.readPtrMoveN_spec h.sound.wf n
    simp only [next, hRun]
    by_cases hn : n ≤ s.endpoint.staging.recvBuffer.content.length
    · rw [if_pos hn] at hC
      simp only [decide_eq_true hn]
      exact h.consume hWf hL (by rw [hC, List.take_append_drop])
    · rw [if_neg hn] at hC
      simp only [decide_eq_false hn]
      exact h.keep hWf hL hC

theorem run_conserved {s : RecvState P} (h : s.Conserved) (events : List RecvEvent) :
    (s.run events).Conserved := by
  induction events generalizing s with
  | nil => exact h
  | cons e events ih => exact ih (next_conserved h e)

/-- **The receive path.** For a connection handed on by the accept loop, of either class, after
any calls of `sock2buf` and any reads: the bytes consumed, then those in `m_recv_buffer`, then
the held block are the bytes received; and a call of `sock2buf` returns false without asking
for a task only after the end of the stream or an error, or because the held block still does
not fit. -/
theorem received_conserved (init : P) (socketPtr : Option Nat) (gid : Nat) (e : Endpoint P)
    (events : List RecvEvent) :
    let s := (start init socketPtr gid e).run events
    let staging := s.endpoint.staging
    s.consumed ++ (staging.recvBuffer.content ++ staging.held) = s.received ∧
      ∀ answers, (staging.sock2buf answers).ret = false →
        (staging.sock2buf answers).needTask = false →
        (∃ answer ∈ (staging.sock2buf answers).used, answer.Ends) ∨
          (staging.held ≠ [] ∧
            memBufferSizeMax < staging.recvBuffer.content.length + staging.held.length) := by
  intro s staging
  have h : s.Conserved := run_conserved (conserved_start init socketPtr gid e) events
  exact ⟨h.bytes, fun answers => (Staging.sock2buf_spec h.sound answers).2.2⟩

end RecvState

end Tubekit
