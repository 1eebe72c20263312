import Tubekit.Connection.SendPath

/-!
# The staging pipeline under concurrent senders

Any number of threads call `send` on a connection while a worker is inside `buf2sock`. The
guards of `send` and its write to `m_wating_send_pack` are separate steps, and only the latter
is atomic; between the two a thread holds its message. `Pipeline` records the messages whose
write was accepted and the blocks that were ever loaded into `buf2sock_inner_buffer`.

Nothing is assumed of the socket. The bytes between the senders and the socket are the
accepted messages in order (`messages_not_torn`), and `buf2sock` never gives up by itself
(`send_path_never_closes`): the storage of `m_send_buffer` never grows beyond the inner buffer,
which is two bytes less than its limit.
-/

namespace Tubekit

open Lib

namespace Staging

/-! ## The branches in which `buf2sock` gives up -/

inductive Buf2sockFault where
  /-- `m_send_buffer.read` throws. -/
  | sendReadThrows
  /-- `send_buffer_blank_space <= 0`. -/
  | noBlankSpace
  /-- `m_wating_send_pack.read` throws. -/
  | watingReadThrows
  /-- `writed_len != temp_buffer_len`. -/
  | shortWrite
  /-- `m_send_buffer.write` throws. -/
  | sendWriteThrows
  deriving DecidableEq

/-- The branch of this kind that the next step of `buf2sock` takes, if it takes one. -/
def fault (s : Staging) : Buf2sockPc → Option Buf2sockFault
  | .tag1 =>
    if s.shouldSendIdx < 0 then
      match s.sendBuffer.read true innerBufferSize with
      | (.error _, _) => some .sendReadThrows
      | (.ok _, _) => none
    else none
  | .tag3 => if s.sendBuffer.blankSpace.1 > 0 then none else some .noBlankSpace
  | .reserve reserveSize =>
    match s.watingSendPack.read true reserveSize with
    | (.error _, _) => some .watingReadThrows
    | (.ok _, _) => none
  | .temp tempBuffer =>
    match s.sendBuffer.write (some tempBuffer) with
    | (.error _, _) => some .sendWriteThrows
    | (.ok writedLen, _) => if writedLen ≠ tempBuffer.length then some .shortWrite else none
  | _ => none

/-- `closed` is set by such a branch, or at the socket. -/
theorem fault_or_offer_of_closed (s : Staging) (out : Outside) {pc : Buf2sockPc}
    (hpc : ∀ ret closed, pc ≠ .done ret closed) {ret : Bool}
    (hclosed : (s.buf2sockStep out pc).2.1 = .done ret true) :
    s.fault pc ≠ none ∨ pc = .tag4 ∧ (out.sock = .took 0 ∨ out.sock = .failed .other) := by
  cases pc with
  | tag1 =>
    simp only [buf2sockStep, fault] at hclosed ⊢
    split at hclosed
    · rename_i hneg
      simp only [hneg, if_true]
      generalize s.sendBuffer.read true innerBufferSize = r at hclosed ⊢
      rcases r with ⟨_ | bytes, b⟩
      · exact Or.inl (by simp)
      · simp only at hclosed
        split at hclosed <;> cases hclosed
    · cases hclosed
  | tag3 =>
    simp only [buf2sockStep, fault] at hclosed ⊢
    split at hclosed
    · cases hclosed
    · rename_i hroom
      exact Or.inl (by simp [hroom])
  | reserve n =>
    simp only [buf2sockStep, fault] at hclosed ⊢
    generalize s.watingSendPack.read true n = r at hclosed ⊢
    rcases r with ⟨_ | bytes, b⟩
    · exact Or.inl (by simp)
    · simp only at hclosed
      split at hclosed
      · cases hclosed
      · split at hclosed <;> cases hclosed
  | temp bytes =>
    simp only [buf2sockStep, fault] at hclosed ⊢
    generalize s.sendBuffer.write (some bytes) = r at hclosed ⊢
    rcases r with ⟨_ | len, b⟩
    · exact Or.inl (by simp)
    · simp only at hclosed ⊢
      split at hclosed
      · rename_i hshort
        exact Or.inl (by simp [hshort])
      · cases hclosed
  | callback => cases hclosed
  | tag4 =>
    refine Or.inr ⟨rfl, ?_⟩
    simp only [buf2sockStep] at hclosed
    rcases out with ⟨_ | errno, callback⟩
    · rename_i k
      cases k with
      | zero => exact Or.inl rfl
      | succ k =>
        simp only [offer] at hclosed
        split at hclosed <;> cases hclosed
    · cases errno with
      | eintr => cases hclosed
      | eagain => cases hclosed
      | other => exact Or.inr rfl
  | done ret' closed => exact absurd rfl (hpc ret' closed)

/-! ## Room -/

/-- The storage of `m_send_buffer` is not larger than the inner buffer, and its limit is. -/
structure Roomy (s : Staging) : Prop where
  size : s.sendBuffer.size ≤ innerBufferSize
  limit : s.sendBuffer.limitMax = memBufferSizeMax

theorem roomy_reuse (s : Staging) : s.reuse.Roomy where
  size := by
    have hsize : s.reuse.sendBuffer.size = 0 := by
      simp only [reuse, Buffer.setLimitMax]
      split <;> rfl
    omega
  limit := by
    obtain ⟨-, -, hl⟩ := Buffer.setLimitMax_spec (Buffer.wf_clear s.sendBuffer)
      (by decide : memBufferSizeMax < 2 ^ 64)
    exact hl

theorem Roomy.of_sendBuffer_eq {s s' : Staging} (h : s.Roomy) (hb : s'.sendBuffer = s.sendBuffer) :
    s'.Roomy :=
  ⟨hb ▸ h.size, hb ▸ h.limit⟩

/-- The write cursor stays in the storage, so it is never at the limit. -/
theorem Roomy.writeOff_lt {s : Staging} (h : s.Roomy) (hwf : s.sendBuffer.Wf) :
    s.sendBuffer.writeOff < s.sendBuffer.limitMax := by
  have hsize := h.size
  have hlimit := h.limit
  have hmax : innerBufferSize < memBufferSizeMax := by decide
  rcases hwf.placed with ⟨-, -, -, hw⟩ | ⟨m, r, w, -, -, hw, -, hws, -⟩
  · simp only [Buffer.writeOff, hw, Option.getD_none]
    omega
  · simp only [Buffer.writeOff, hw, Option.getD_some]
    omega

theorem fault_none {s : Staging} {pc : Buf2sockPc} (h : s.Sound pc) (hroom : s.Roomy) :
    s.fault pc = none := by
  cases pc with
  | tag1 =>
    obtain ⟨b, hRun, -⟩ := Buffer.read_spec h.sendWf (by decide : 0 < innerBufferSize)
    simp [fault, hRun]
  | tag3 =>
    obtain ⟨b, hRun, -⟩ := Buffer.blankSpace_spec h.sendWf
    have hlt := hroom.writeOff_lt h.sendWf
    simp only [fault, hRun]
    rw [if_pos (by omega)]
  | reserve n =>
    obtain ⟨-, hpos, -⟩ := h.place
    obtain ⟨b, hRun, -⟩ := Buffer.read_spec h.watingWf hpos
    simp [fault, hRun]
  | temp bytes =>
    obtain ⟨⟨-, -, hempty⟩, hne, hinner, hlimit⟩ := h.place
    have hsmall : innerBufferSize < 2 ^ 64 := by decide
    have hlen : s.sendBuffer.content.length = 0 := by rw [hempty]; rfl
    obtain ⟨b, -, -, hCase⟩ := Buffer.write_spec h.sendWf hne (by omega)
    rw [if_pos (by omega)] at hCase
    simp [fault, hCase.1]
  | callback => rfl
  | tag4 => rfl
  | done ret closed => rfl

/-! ## One step -/

/-- At the socket only the index and the size of the block change. -/
theorem offer_spec {s : Staging} (h : s.Sound .tag4) (sock : SockSend) :
    (s.offer sock).1.Sound (s.offer sock).2.1 ∧
      (s.offer sock).1.sendBuffer = s.sendBuffer ∧
      (s.offer sock).1.watingSendPack = s.watingSendPack ∧
      (s.offer sock).2.1.inFlight = [] := by
  have hEnd : ∀ pc : Buf2sockPc, s.At pc → s.Sound pc := fun pc hat =>
    ⟨h.sendWf, h.watingWf, h.watingLimit, h.index, hat⟩
  cases sock with
  | failed errno => cases errno <;> exact ⟨hEnd _ trivial, rfl, rfl, rfl⟩
  | took k =>
    cases k with
    | zero => exact ⟨hEnd _ trivial, rfl, rfl, rfl⟩
    | succ k =>
      simp only [offer]
      split
      · exact ⟨⟨h.sendWf, h.watingWf, h.watingLimit, Or.inl ⟨rfl, rfl⟩, trivial⟩, rfl, rfl, rfl⟩
      · rename_i hmore
        exact ⟨⟨h.sendWf, h.watingWf, h.watingLimit, Or.inr ⟨h.place, by simp only; omega⟩,
          trivial⟩, rfl, rfl, rfl⟩

theorem buf2sockStep_sound {s : Staging} {pc : Buf2sockPc} (h : s.Sound pc) (out : Outside) :
    (s.buf2sockStep out pc).1.Sound (s.buf2sockStep out pc).2.1 := by
  by_cases hpc : pc = .tag4
  · subst hpc
    exact (offer_spec h out.sock).1
  · obtain ⟨s', pc', hRun, hSound, -⟩ := buf2sockStep_pending h out hpc
    rw [hRun]
    exact hSound

theorem buf2sockStep_roomy {s : Staging} {pc : Buf2sockPc} (h : s.Sound pc) (hroom : s.Roomy)
    (out : Outside) : (s.buf2sockStep out pc).1.Roomy := by
  have hsize := hroom.size
  have hinit := Buffer.size_checkInit_le s.sendBuffer
  have hsmall : Buffer.initSize ≤ innerBufferSize := by decide
  cases pc with
  | tag1 =>
    obtain ⟨b, hRun, -, -, hL⟩ := Buffer.read_spec h.sendWf (by decide : 0 < innerBufferSize)
    have hbsize : b.size ≤ innerBufferSize := by
      have hread := Buffer.size_read s.sendBuffer true innerBufferSize
      rw [hRun] at hread
      simp only at hread
      omega
    have hb : ∀ t : Staging, t.sendBuffer = b → t.Roomy := fun t ht =>
      ⟨ht ▸ hbsize, by rw [ht, hL, hroom.limit]⟩
    simp only [buf2sockStep, hRun]
    split
    · split
      · exact hb _ rfl
      · exact hb _ rfl
    · exact hroom
  | tag3 =>
    have hb : ∀ t : Staging, t.sendBuffer = s.sendBuffer.blankSpace.2 → t.Roomy := by
      intro t ht
      obtain ⟨b, hRun, -, -, hL, -⟩ := Buffer.blankSpace_spec h.sendWf
      refine ⟨?_, by rw [ht, hRun]; exact hL.trans hroom.limit⟩
      rw [ht]
      exact Nat.le_trans hinit (by omega)
    simp only [buf2sockStep]
    split
    · exact hb _ rfl
    · exact hb _ rfl
  | reserve n =>
    simp only [buf2sockStep]
    rcases s.watingSendPack.read true n with ⟨_ | bytes, b⟩
    · exact hroom.of_sendBuffer_eq rfl
    · simp only
      split
      · exact hroom.of_sendBuffer_eq rfl
      · split <;> exact hroom.of_sendBuffer_eq rfl
  | temp bytes =>
    obtain ⟨⟨-, -, hempty⟩, hne, hinner, -⟩ := h.place
    have hlt : innerBufferSize < 2 ^ 64 := by decide
    have hlen : s.sendBuffer.content.length = 0 := by rw [hempty]; rfl
    have hgrown := Buffer.size_write_le h.sendWf bytes (by omega)
    obtain ⟨b, -, hL, hCase⟩ := Buffer.write_spec h.sendWf hne (by omega)
    have hRun : (s.sendBuffer.write (some bytes)).2 = b := by
      split at hCase <;> rw [hCase.1]
    have hb : ∀ t : Staging, t.sendBuffer = (s.sendBuffer.write (some bytes)).2 → t.Roomy :=
      fun t ht => ⟨by rw [ht]; omega, by rw [ht, hRun, hL, hroom.limit]⟩
    simp only [buf2sockStep]
    generalize s.sendBuffer.write (some bytes) = r at hb ⊢
    rcases r with ⟨_ | len, b⟩
    · exact hb _ rfl
    · simp only
      split
      · exact hb _ rfl
      · exact hb _ rfl
  | callback => exact hroom
  | tag4 => exact hroom.of_sendBuffer_eq (offer_spec h out.sock).2.1
  | done ret closed => exact hroom

/-- The block that the step from `pc` loads, if it loads one. -/
def loadedBlock (s : Staging) (out : Outside) (pc : Buf2sockPc) : List Bytes :=
  if pc = .tag1 ∧ s.shouldSendIdx < 0 ∧ (s.buf2sockStep out pc).2.1 = .tag4 then
    [(s.buf2sockStep out pc).1.unsent]
  else []

/-- What is between the senders and the inner buffer. -/
def staged (s : Staging) (pc : Buf2sockPc) : Bytes :=
  pc.inFlight ++ s.sendBuffer.content ++ s.watingSendPack.content

/-- While `temp_buffer` holds bytes, `m_send_buffer` is empty. -/
theorem pending_eq {s : Staging} {pc : Buf2sockPc} (h : s.Sound pc) :
    s.pending pc = s.unsent ++ s.staged pc := by
  unfold pending staged
  cases pc with
  | temp bytes =>
    obtain ⟨⟨-, -, hempty⟩, -⟩ := h.place
    simp [hempty]
  | _ => simp [Buf2sockPc.inFlight]

/-- Only loading and sending change the block in the inner buffer. -/
theorem unsent_of_not_loaded {s s' : Staging} {out : Outside} {pc pc' : Buf2sockPc}
    {taken : Bytes} (hRun : s.buf2sockStep out pc = (s', pc', taken)) (hpc : pc ≠ .tag4)
    (hload : ¬(pc = .tag1 ∧ s.shouldSendIdx < 0 ∧ pc' = .tag4)) : s'.unsent = s.unsent := by
  cases pc with
  | tag1 =>
    simp only [buf2sockStep] at hRun
    split at hRun
    · rename_i hneg
      generalize s.sendBuffer.read true innerBufferSize = r at hRun
      rcases r with ⟨_ | bytes, b⟩
      · cases hRun
        rfl
      · simp only at hRun
        split at hRun
        · cases hRun
          exact absurd ⟨rfl, hneg, rfl⟩ hload
        · cases hRun
          simp only [unsent, hneg, if_true]
    · cases hRun
      rfl
  | tag3 =>
    simp only [buf2sockStep] at hRun
    split at hRun <;> cases hRun <;> rfl
  | reserve n =>
    simp only [buf2sockStep] at hRun
    generalize s.watingSendPack.read true n = r at hRun
    rcases r with ⟨_ | bytes, b⟩
    · cases hRun
      rfl
    · simp only at hRun
      split at hRun
      · cases hRun
        rfl
      · split at hRun <;> cases hRun <;> rfl
  | temp bytes =>
    simp only [buf2sockStep] at hRun
    generalize s.sendBuffer.write (some bytes) = r at hRun
    rcases r with ⟨_ | len, b⟩
    · cases hRun
      rfl
    · simp only at hRun
      split at hRun <;> cases hRun <;> rfl
  | callback =>
    cases hRun
    rfl
  | tag4 => exact absurd rfl hpc
  | done ret closed =>
    cases hRun
    rfl

/-- Every step takes from the staged bytes what it loads, and nothing else. -/
theorem staged_buf2sockStep {s : Staging} {pc : Buf2sockPc} (h : s.Sound pc) (out : Outside) :
    (s.loadedBlock out pc).flatten ++ (s.buf2sockStep out pc).1.staged (s.buf2sockStep out pc).2.1 =
      s.staged pc := by
  by_cases hpc : pc = .tag4
  · subst hpc
    obtain ⟨-, hsend, hwating, hflight⟩ := offer_spec h out.sock
    rw [loadedBlock, if_neg (by simp)]
    simp only [staged, buf2sockStep, hsend, hwating, hflight]
    rfl
  · obtain ⟨s', pc', hRun, hSound, hPend⟩ := buf2sockStep_pending h out hpc
    rw [pending_eq h, pending_eq hSound] at hPend
    by_cases hload : pc = .tag1 ∧ s.shouldSendIdx < 0 ∧ pc' = .tag4
    · have hidle : s.unsent = [] := by simp [unsent, hload.2.1]
      rw [loadedBlock, hRun, if_pos hload]
      rw [hidle, List.nil_append] at hPend
      simpa using hPend
    · rw [loadedBlock, hRun, if_neg hload]
      have hsame : s'.unsent = s.unsent := unsent_of_not_loaded hRun hpc hload
      rw [hsame] at hPend
      simpa using List.append_cancel_left hPend

end Staging

/-! ## Runs -/

/-- A connection with the threads that are inside its `send`, the blocks loaded so far and the
messages whose write was accepted. A `pc` of `done` means that no call of `buf2sock` is going
on. -/
structure Pipeline (P : Type) where
  endpoint : Endpoint P
  pc : Staging.Buf2sockPc
  /-- The message that a thread is about to write to `m_wating_send_pack`. -/
  writing : Nat → Option MemoryBlock
  loaded : List Bytes
  accepted : List Bytes

inductive PipelineEvent where
  /-- A thread calls `send` and goes through its guards. -/
  | enter (thread : Nat) (buffer : Option MemoryBlock) (checkConnected : Bool)
  /-- The thread writes to `m_wating_send_pack`. -/
  | write (thread : Nat)
  | setConnected (connected : Bool)
  /-- A worker enters `buf2sock`. -/
  | call
  | step (out : Staging.Outside)

/-- The guard of `send` at its `check_connected`. -/
def Endpoint.refuses {P : Type} (checkConnected : Bool) : Endpoint P → Bool
  | .stream _ => false
  | .websocket c => checkConnected && !c.connected

namespace Pipeline

variable {P : Type}

def start (init : P) (socketPtr : Option Nat) (gid : Nat) (e : Endpoint P) : Pipeline P :=
  { endpoint := e.prepare init socketPtr gid
    pc := .done false false
    writing := fun _ => none
    loaded := []
    accepted := [] }

/-- The write of a message, atomic under the mutex of the buffer. -/
def writeMessage (s : Pipeline P) (block : MemoryBlock) : Except BufferError Nat × Buffer :=
  s.endpoint.staging.watingSendPack.write (some block.bytes)

def next (s : Pipeline P) : PipelineEvent → Pipeline P
  | .enter thread buffer checkConnected =>
    match s.writing thread with
    | some _ => s
    | none =>
      if s.endpoint.refuses checkConnected then s
      else { s with writing := Function.update s.writing thread buffer }
  | .write thread =>
    match s.writing thread with
    | none => s
    | some block =>
      let (result, b) := s.writeMessage block
      { s with
        endpoint := s.endpoint.withStaging { s.endpoint.staging with watingSendPack := b }
        writing := Function.update s.writing thread none
        accepted := match result with
          | .ok _ => s.accepted ++ [block.bytes]
          | .error _ => s.accepted }
  | .setConnected connected =>
    { s with endpoint := s.endpoint.onWebsocket (·.setConnected connected) }
  | .call =>
    match s.pc with
    | .done _ _ => { s with pc := .tag1 }
    | _ => s
  | .step out =>
    let (staging, pc, _) := s.endpoint.staging.buf2sockStep out s.pc
    { s with
      endpoint := s.endpoint.withStaging staging
      pc
      loaded := s.loaded ++ s.endpoint.staging.loadedBlock out s.pc }

def run (s : Pipeline P) (events : List PipelineEvent) : Pipeline P := events.foldl next s

/-- A call of `send` that no other thread gets into is the `send` of `Connection/Transfer.lean`. -/
theorem enter_write_eq_send (s : Pipeline P) {thread : Nat} (hfree : s.writing thread = none)
    (buffer : Option MemoryBlock) (checkConnected : Bool) :
    ((s.next (.enter thread buffer checkConnected)).next (.write thread)).endpoint =
      (s.endpoint.send (buffer.map (·.bytes)) checkConnected).2 := by
  have hsend : ∀ (staging : Staging) (gid : Nat), (staging.send gid (buffer.map (·.bytes))).2 =
      match buffer with
      | none => staging
      | some block =>
        { staging with watingSendPack := (staging.watingSendPack.write (some block.bytes)).2 } := by
    intro staging gid
    cases buffer with
    | none => rfl
    | some block =>
      simp only [Option.map_some, Staging.send]
      generalize staging.watingSendPack.write (some block.bytes) = r
      rcases r with ⟨_ | n, b⟩
      · rfl
      · simp only
        split <;> rfl
  have hself : s.endpoint.withStaging s.endpoint.staging = s.endpoint := by
    cases s.endpoint <;> rfl
  cases hrefuse : s.endpoint.refuses checkConnected with
  | true =>
    simp only [next, hfree, hrefuse, if_true]
    cases he : s.endpoint with
    | stream c => simp [he, Endpoint.refuses] at hrefuse
    | websocket c =>
      rw [he, Endpoint.refuses] at hrefuse
      simp [Endpoint.send, WebsocketConnection.send, hrefuse]
  | false =>
    have hrun : (s.endpoint.send (buffer.map (·.bytes)) checkConnected).2 =
        s.endpoint.withStaging (s.endpoint.staging.send s.endpoint.gid (buffer.map (·.bytes))).2 := by
      cases he : s.endpoint with
      | stream c => rfl
      | websocket c =>
        rw [he, Endpoint.refuses] at hrefuse
        simp only [Endpoint.send, WebsocketConnection.send, hrefuse, Bool.false_eq_true, if_false]
        rfl
    rw [hrun, hsend]
    cases buffer with
    | none => simp [next, hfree, hrefuse, hself]
    | some block => simp [next, hfree, hrefuse, writeMessage]

/-- What the staging areas hold is what was accepted and has not been loaded. -/
def Untorn (s : Pipeline P) : Prop :=
  s.loaded.flatten ++ s.endpoint.staging.staged s.pc = s.accepted.flatten

/-- The invariant of a run. -/
structure Live (s : Pipeline P) : Prop where
  sound : s.endpoint.staging.Sound s.pc
  roomy : s.endpoint.staging.Roomy
  untorn : s.Untorn

theorem live_start (init : P) (socketPtr : Option Nat) (gid : Nat) (e : Endpoint P) :
    (start init socketPtr gid e).Live where
  sound := by simpa [start] using Staging.sound_reuse _ _ _
  roomy := by simpa [start] using Staging.roomy_reuse _
  untorn := by
    have hnil := Staging.pending_reuse e.staging false false
    rw [Staging.pending_eq (Staging.sound_reuse _ _ _)] at hnil
    simpa [Untorn, start] using (List.append_eq_nil_iff.mp hnil).2

/-- The write of one message: whole, or not at all. -/
theorem writeMessage_spec {s : Pipeline P} (h : s.Live) (block : MemoryBlock) :
    (s.writeMessage block).2.Wf ∧ (s.writeMessage block).2.limitMax = memBufferSizeMax ∧
      (s.writeMessage block).2.content = s.endpoint.staging.watingSendPack.content ++
        match (s.writeMessage block).1 with
        | .ok _ => block.bytes
        | .error _ => [] := by
  have hlimit := h.sound.watingLimit
  unfold writeMessage
  by_cases hne : block.bytes = []
  · obtain ⟨b, hRun, hWf, hC, hL⟩ := Buffer.write_throws h.sound.watingWf (Or.inr rfl)
    rw [hne, hRun]
    exact ⟨hWf, hL.trans hlimit, by simpa using hC⟩
  · have hmax : memBufferSizeMax + maxObjectSize < 2 ^ 64 := by decide
    have hle := h.sound.watingWf.length_content_le
    have hfits := block.fits
    obtain ⟨b, hWf, hL, hCase⟩ := Buffer.write_spec h.sound.watingWf hne (by omega)
    split at hCase
    · obtain ⟨hRun, hC⟩ := hCase
      rw [hRun]
      exact ⟨hWf, hL.trans hlimit, hC⟩
    · obtain ⟨hRun, hC⟩ := hCase
      rw [hRun]
      exact ⟨hWf, hL.trans hlimit, by simpa using hC⟩

theorem next_live {s : Pipeline P} (h : s.Live) (e : PipelineEvent) : (s.next e).Live := by
  cases e with
  | enter thread buffer checkConnected =>
    simp only [next]
    split
    · exact h
    · split
      · exact h
      · exact ⟨h.sound, h.roomy, h.untorn⟩
  | write thread =>
    simp only [next]
    split
    · exact h
    · rename_i block hblock
      obtain ⟨hWf, hL, hC⟩ := writeMessage_spec h block
      have huntorn := h.untorn
      unfold Untorn Staging.staged at huntorn
      refine ⟨?_, ?_, ?_⟩
      · simpa using h.sound.withWating hWf hL
      · exact h.roomy.of_sendBuffer_eq (by simp)
      · simp only [Untorn, Endpoint.staging_withStaging, Staging.staged, hC]
        generalize (s.writeMessage block).1 = result
        cases result with
        | ok n => simp [← huntorn]
        | error e => simpa using huntorn
  | setConnected connected =>
    have hstaging : (s.endpoint.onWebsocket (·.setConnected connected)).staging =
        s.endpoint.staging := by
      cases s.endpoint <;> rfl
    exact ⟨by simpa [next, hstaging] using h.sound, by simpa [next, hstaging] using h.roomy,
      by simpa [next, Untorn, hstaging] using h.untorn⟩
  | call =>
    simp only [next]
    split
    · rename_i ret closed hpc
      have hSound := h.sound
      refine ⟨⟨hSound.sendWf, hSound.watingWf, hSound.watingLimit, hSound.index, trivial⟩,
        h.roomy, ?_⟩
      have huntorn := h.untorn
      rwa [Untorn, hpc] at huntorn
    · exact h
  | step out =>
    have hstaged := Staging.staged_buf2sockStep h.sound out
    have huntorn := h.untorn
    refine ⟨?_, ?_, ?_⟩
    · simpa [next] using Staging.buf2sockStep_sound h.sound out
    · simpa [next] using Staging.buf2sockStep_roomy h.sound h.roomy out
    · simp only [Untorn, next, Endpoint.staging_withStaging, List.flatten_append,
        List.append_assoc, hstaged]
      exact huntorn

theorem run_live {s : Pipeline P} (h : s.Live) (events : List PipelineEvent) :
    (s.run events).Live := by
  induction events generalizing s with
  | nil => exact h
  | cons e events ih => exact ih (next_live h e)

/-- **Messages are not torn.** Whatever threads call `send` while `buf2sock` runs: the blocks
loaded, then `temp_buffer`, `m_send_buffer` and `m_wating_send_pack` are the accepted messages,
whole and in the order of their writes. A write that is not accepted leaves no byte behind. -/
theorem messages_not_torn (init : P) (socketPtr : Option Nat) (gid : Nat) (e : Endpoint P)
    (events : List PipelineEvent) :
    let s := (start init socketPtr gid e).run events
    s.loaded.flatten ++ (s.pc.inFlight ++ s.endpoint.staging.sendBuffer.content ++
        s.endpoint.staging.watingSendPack.content) = s.accepted.flatten ∧
      ∀ thread block error, s.writing thread = some block →
        (s.writeMessage block).1 = .error error →
        (s.next (.write thread)).accepted = s.accepted ∧
          (s.next (.write thread)).loaded = s.loaded ∧
          (s.next (.write thread)).endpoint.staging.staged s.pc = s.endpoint.staging.staged s.pc := by
  intro s
  have hlive : s.Live := run_live (live_start init socketPtr gid e) events
  refine ⟨hlive.untorn, ?_⟩
  intro thread block error hwriting hfails
  obtain ⟨-, -, hC⟩ := writeMessage_spec hlive block
  rw [hfails, List.append_nil] at hC
  simp only [next, hwriting, hfails, Endpoint.staging_withStaging, Staging.staged, hC, true_and]

/-- **The send path does not close a connection.** No step of `buf2sock` takes a branch in which
it gives up, and so `closed` is set only where the socket's `send` returned `0` or failed with
an error other than `EINTR` and `EAGAIN`. -/
theorem send_path_never_closes (init : P) (socketPtr : Option Nat) (gid : Nat) (e : Endpoint P)
    (events : List PipelineEvent) :
    let s := (start init socketPtr gid e).run events
    s.endpoint.staging.fault s.pc = none ∧
      ∀ out ret, (∀ ret closed, s.pc ≠ .done ret closed) →
        (s.next (.step out)).pc = .done ret true →
        s.pc = .tag4 ∧ (out.sock = .took 0 ∨ out.sock = .failed .other) := by
  intro s
  have hlive : s.Live := run_live (live_start init socketPtr gid e) events
  have hnone := Staging.fault_none hlive.sound hlive.roomy
  refine ⟨hnone, fun out ret hpc hclosed => ?_⟩
  rcases Staging.fault_or_offer_of_closed s.endpoint.staging out hpc hclosed with hfault | hoffer
  · exact absurd hnone hfault
  · exact hoffer

end Pipeline

end Tubekit
