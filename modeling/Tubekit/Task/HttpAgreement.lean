import Tubekit.Task.EndpointAgreement
import Tubekit.Task.HttpTask

/-!
# Http connections that cannot be told apart

Of its `buffer` an http connection shows only what lies between `buffer_start_use` and
`buffer_used_len`. Two connections that agree there, in the content of `m_send_buffer` and in
all other members are served alike.
-/

namespace Tubekit

open Lib

namespace HttpConnection

variable {P : Type} {c c' : HttpConnection P}

/-- The part of `buffer` that is still to be sent. -/
def pending (c : HttpConnection P) : Bytes :=
  Memory.load c.buffer c.bufferStartUse.toNat (c.bufferUsedLen - c.bufferStartUse).toNat

/-- Nothing tells the two connections apart. -/
inductive Agree (c : HttpConnection P) : HttpConnection P → Prop where
  | intro {sendBuffer : Buffer} (buffer : Nat → Byte)
      (hsend : c.sendBuffer.Agree sendBuffer) (hstart : 0 ≤ c.bufferStartUse)
      (hpending : c.pending = pending { c with sendBuffer, buffer }) :
      Agree c { c with sendBuffer, buffer }

theorem pending_of_used_le (c : HttpConnection P) (h : c.bufferUsedLen ≤ c.bufferStartUse) :
    c.pending = [] := by
  unfold pending
  rw [show (c.bufferUsedLen - c.bufferStartUse).toNat = 0 by omega]
  rfl

/-- Whatever they held, two connections agree after `reuse`. -/
theorem agree_prepare (init : P) (socketPtr : Option Nat) (gid : Nat) (c c' : HttpConnection P) :
    Agree (c.prepare init socketPtr gid) (c'.prepare init socketPtr gid) :=
  Agree.intro (c := c.prepare init socketPtr gid) c'.buffer
    (Buffer.Agree.reuse c.sendBuffer c'.sendBuffer (n := httpMemBufferSizeMax) (by decide))
    (Int.le_refl 0) rfl

theorem Agree.everythingEnd (hagree : Agree c c') :
    Agree { c with everythingEnd := true } { c' with everythingEnd := true } := by
  cases hagree with
  | intro buffer hsend hstart hpending =>
    exact .intro (c := { c with everythingEnd := true }) buffer hsend hstart hpending

theorem Agree.closeFlag_eq (hagree : Agree c c') : c.closeFlag = c'.closeFlag := by
  cases hagree
  rfl

theorem Agree.sendBuffer (hagree : Agree c c') : c.sendBuffer.Agree c'.sendBuffer := by
  cases hagree
  assumption

theorem Agree.view_eq (hagree : Agree c c') : c.view = c'.view := by
  cases hagree
  rfl

/-! ## What is done to a connection -/

theorem Agree.act (hagree : Agree c c') (a : HttpAct) :
    (c.act a).1 = (c'.act a).1 ∧ Agree (c.act a).2 (c'.act a).2 := by
  cases hagree with
  | @intro sendBuffer buffer hsend hstart hpending =>
    cases a with
    | write source =>
      obtain ⟨hret, hwritten⟩ := hsend.write (MemoryBlock.fits_of_map source)
      simp only [HttpConnection.act]
      exact ⟨by rw [hret], .intro (c := { c with sendBuffer := (c.sendBuffer.write _).2 }) buffer
        hwritten hstart hpending⟩
    | setResponseEnd r => exact ⟨rfl, .intro (c := { c with responseEnd := r }) buffer hsend hstart hpending⟩
    | setEverythingEnd e =>
      exact ⟨rfl, .intro (c := { c with everythingEnd := e }) buffer hsend hstart hpending⟩
    | setProcessEnd p => exact ⟨rfl, .intro (c := { c with processEnd := p }) buffer hsend hstart hpending⟩
    | setRecvEnd r => exact ⟨rfl, .intro (c := { c with recvEnd := r }) buffer hsend hstart hpending⟩
    | setWriteEndCallback k =>
      exact ⟨rfl, .intro (c := { c with writeEndCallback := k }) buffer hsend hstart hpending⟩
    | setDestoryCallback k =>
      exact ⟨rfl, .intro (c := { c with destoryCallback := k }) buffer hsend hstart hpending⟩
    | setPtr p => exact ⟨rfl, .intro (c := { c with ptr := p }) buffer hsend hstart hpending⟩
    | addChunk chunk =>
      exact ⟨rfl, .intro (c := { c with chunks := c.chunks ++ [chunk] }) buffer hsend hstart hpending⟩
    | setUrl u => exact ⟨rfl, .intro (c := { c with url := u }) buffer hsend hstart hpending⟩
    | markClose =>
      simp only [HttpConnection.act, markClose]
      split
      · exact ⟨rfl, .intro (c := { c with closeFlag := true, sendBuffer := c.sendBuffer.clear }) buffer
          (Buffer.Agree.clear _ _) hstart hpending⟩
      · exact ⟨rfl, .intro buffer hsend hstart hpending⟩

theorem Agree.acts (hagree : Agree c c') (as : List HttpAct) :
    (c.acts as).1 = (c'.acts as).1 ∧ Agree (c.acts as).2 (c'.acts as).2 := by
  induction as generalizing c c' with
  | nil => exact ⟨rfl, hagree⟩
  | cons a as ih =>
    obtain ⟨hout, hnext⟩ := hagree.act a
    obtain ⟨houts, hend⟩ := ih hnext
    simp only [HttpConnection.acts]
    exact ⟨by rw [hout, houts], hend⟩

theorem Agree.attempt (hagree : Agree c c') (script : HttpScript) :
    (c.attempt script).1 = (c'.attempt script).1 ∧
      Agree (c.attempt script).2 (c'.attempt script).2 := by
  obtain ⟨houts, hnext⟩ := hagree.acts script.acts
  simp only [HttpConnection.attempt]
  split
  · exact ⟨houts, hnext.everythingEnd⟩
  · exact ⟨houts, hnext⟩

/-! ## Reading -/

/-- The parser callbacks look neither at the array nor at the output. -/
theorem runCallbacks_frame (c : HttpConnection P) (sendBuffer : Buffer) (start : Int)
    (buffer : Nat → Byte) (events : List ParserEvent) (i : Nat) :
    runCallbacks callback { c with sendBuffer, buffer, bufferStartUse := start } events i =
      ({ (runCallbacks callback c events i).1 with sendBuffer, buffer, bufferStartUse := start },
        (runCallbacks callback c events i).2) := by
  have hstep : ∀ (c d : HttpConnection P) (e : ParserEvent),
      d = { c with sendBuffer, buffer, bufferStartUse := start } →
      (c.callback e).1 = (d.callback e).1 ∧
        (d.callback e).2 = { (c.callback e).2 with sendBuffer, buffer, bufferStartUse := start } := by
    rintro c d e rfl
    cases e <;> exact ⟨rfl, rfl⟩
  obtain ⟨hstate, hstop⟩ := runCallbacks_sim hstep (c := c) rfl events i
  exact Prod.ext hstate hstop.symm

theorem readLoop_frame (h : HttpParser P) (c : HttpConnection P) (sendBuffer : Buffer) (start : Int)
    (buffer : Nat → Byte) (answers : List (SockRecv httpBufferSize)) :
    ∃ buffer', readLoop h { c with sendBuffer, buffer, bufferStartUse := start } answers =
      { readLoop h c answers with sendBuffer, buffer := buffer', bufferStartUse := start } := by
  induction answers generalizing c buffer with
  | nil => exact ⟨buffer, rfl⟩
  | cons answer answers ih =>
    cases answer with
    | eof => exact ⟨buffer, rfl⟩
    | failed errno =>
      cases errno with
      | eintr => exact ih { c with bufferUsedLen := 0 } buffer
      | eagain => exact ⟨buffer, rfl⟩
      | other => exact ⟨buffer, rfl⟩
    | block data =>
      have hframe := runCallbacks_frame
        { c with
          buffer := Memory.store c.buffer 0 data.bytes
          bufferUsedLen := data.bytes.length }
        sendBuffer start (Memory.store buffer 0 data.bytes) (h.events c.httpParser data.bytes) 0
      simp only [readLoop, HttpParser.execute, Memory.load_store_same] at hframe ⊢
      rw [hframe]
      generalize runCallbacks callback _ (h.events c.httpParser data.bytes) 0 = r
      obtain ⟨c₁, stop⟩ := r
      simp only
      split
      · exact ih { c₁ with httpParser := (h.after c.httpParser data.bytes stop).parser } _
      · split
        · exact ⟨_, rfl⟩
        · exact ih { c₁ with httpParser := (h.after c.httpParser data.bytes stop).parser } _

theorem readLoop_keeps (h : HttpParser P) (c : HttpConnection P)
    (answers : List (SockRecv httpBufferSize)) :
    (readLoop h c answers).sendBuffer = c.sendBuffer ∧
      (readLoop h c answers).bufferStartUse = c.bufferStartUse := by
  obtain ⟨buffer, hframe⟩ := readLoop_frame h c c.sendBuffer c.bufferStartUse c.buffer answers
  have hself : readLoop h c answers = { readLoop h c answers with
      sendBuffer := c.sendBuffer
      buffer
      bufferStartUse := c.bufferStartUse } := hframe
  constructor <;> rw [hself]

/-- The loop ends with nothing in `buffer`. -/
theorem bufferUsedLen_readLoop_le (h : HttpParser P) (c : HttpConnection P)
    (answers : List (SockRecv httpBufferSize)) : (readLoop h c answers).bufferUsedLen ≤ 0 := by
  induction answers generalizing c with
  | nil => exact Int.le_refl 0
  | cons answer answers ih =>
    cases answer with
    | eof => exact Int.le_refl 0
    | failed errno =>
      cases errno with
      | eintr => exact ih _
      | eagain => exact Int.le_refl 0
      | other => exact (by decide : (-1 : Int) ≤ 0)
    | block data =>
      simp only [readLoop]
      split
      · exact ih _
      · split
        · exact Int.le_refl 0
        · exact ih _

theorem Agree.read (h : HttpParser P) (hagree : Agree c c') (answers : List (SockRecv httpBufferSize)) :
    Agree (c.read h answers) (c'.read h answers) := by
  cases hagree with
  | @intro sendBuffer buffer hsend hstart hpending =>
    simp only [HttpConnection.read]
    split
    · obtain ⟨hds, hdu⟩ := readLoop_keeps h { c with bufferUsedLen := 0 } answers
      obtain ⟨other, hother⟩ := readLoop_frame h { c with bufferUsedLen := 0 } sendBuffer
        c.bufferStartUse buffer answers
      have hused := bufferUsedLen_readLoop_le h { c with bufferUsedLen := 0 } answers
      generalize readLoop h { c with bufferUsedLen := 0 } answers = d at hds hdu hother hused
      simp only at hds hdu
      rw [hother, ← hdu]
      refine .intro other (hds ▸ hsend) (hdu ▸ hstart) ?_
      rw [pending_of_used_le _ (by omega), pending_of_used_le _ (by simp only; omega)]
    · exact .intro buffer hsend hstart hpending

theorem Agree.process (hagree : Agree c c') (script : HttpScript) :
    (c.process script).1 = (c'.process script).1 ∧
      Agree (c.process script).2 (c'.process script).2 := by
  cases hagree with
  | intro buffer hsend hstart hpending =>
    have hinstalled := Agree.intro (c := { c with
      processEnd := true
      destoryCallback := some httpAppDestory
      processCallback := some httpAppProcess }) buffer hsend hstart hpending
    obtain ⟨houts, hnext⟩ := hinstalled.attempt script
    simp only [HttpConnection.process]
    split
    · exact ⟨congrArg (HttpOutput.processCallback httpAppProcess c.view :: ·) houts, hnext⟩
    · exact ⟨rfl, .intro buffer hsend hstart hpending⟩

/-! ## Writing -/

theorem load_eq_of_pending_eq {c c' : HttpConnection P} (hpending : c.pending = c'.pending) {k : Nat}
    (hk : k ≤ (c.bufferUsedLen - c.bufferStartUse).toNat)
    (hk' : k ≤ (c'.bufferUsedLen - c'.bufferStartUse).toNat) :
    Memory.load c.buffer c.bufferStartUse.toNat k =
        Memory.load c'.buffer c'.bufferStartUse.toNat k ∧
      Memory.load c.buffer (c.bufferStartUse.toNat + k)
          ((c.bufferUsedLen - c.bufferStartUse).toNat - k) =
        Memory.load c'.buffer (c'.bufferStartUse.toNat + k)
          ((c'.bufferUsedLen - c'.bufferStartUse).toNat - k) := by
  unfold pending at hpending
  constructor
  · rw [← Memory.take_load _ _ hk, ← Memory.take_load _ _ hk', hpending]
  · rw [← Memory.drop_load _ _ hk, ← Memory.drop_load _ _ hk', hpending]

theorem Agree.sendLoop (hagree : Agree c c') (answers : List SockSend) :
    (c.sendLoop answers).1 = (c'.sendLoop answers).1 ∧
      Agree (c.sendLoop answers).2 (c'.sendLoop answers).2 := by
  induction answers generalizing c c' with
  | nil => exact ⟨rfl, hagree⟩
  | cons answer answers ih =>
    cases hagree with
    | @intro sendBuffer buffer hsend hstart hpending =>
      simp only [HttpConnection.sendLoop]
      split
      case isFalse => exact ⟨rfl, .intro buffer hsend hstart hpending⟩
      case isTrue hmore =>
        cases answer with
        | failed errno =>
          cases errno with
          | eintr => exact ih (.intro buffer hsend hstart hpending)
          | eagain => exact ⟨rfl, .intro buffer hsend hstart hpending⟩
          | other => exact ⟨rfl, .intro (c := { c with responseEnd := true, everythingEnd := true }) buffer
              hsend hstart hpending⟩
        | took k =>
          cases k with
          | zero =>
            exact ⟨rfl, .intro (c := { c with everythingEnd := true }) buffer hsend hstart hpending⟩
          | succ k =>
            simp only
            generalize hsended :
              min (k + 1) (c.bufferUsedLen - c.bufferStartUse).toNat = sended
            have hle : sended ≤ (c.bufferUsedLen - c.bufferStartUse).toNat := by omega
            obtain ⟨htaken, hrest⟩ := load_eq_of_pending_eq hpending hle hle
            have hnext : Agree { c with bufferStartUse := c.bufferStartUse + sended }
                { c with sendBuffer, buffer, bufferStartUse := c.bufferStartUse + sended } := by
              refine .intro (c := { c with bufferStartUse := c.bufferStartUse + sended }) buffer hsend
                (by simp only; omega) ?_
              simp only [pending] at hrest ⊢
              rw [show (c.bufferStartUse + sended).toNat = c.bufferStartUse.toNat + sended by omega,
                show (c.bufferUsedLen - (c.bufferStartUse + sended)).toNat =
                  (c.bufferUsedLen - c.bufferStartUse).toNat - sended by omega]
              exact hrest
            obtain ⟨houts, hend⟩ := ih hnext
            exact ⟨by rw [htaken, houts], hend⟩

theorem Agree.drained (hagree : Agree c c') :
    c.drained.1 = c'.drained.1 ∧ Agree c.drained.2 c'.drained.2 := by
  cases hagree with
  | @intro sendBuffer buffer hsend hstart hpending =>
    obtain ⟨hsize, hnext⟩ := hsend.canReadableSize
    simp only [HttpConnection.drained]
    split
    · exact ⟨congrArg some hsize,
        .intro (c := { c with sendBuffer := c.sendBuffer.canReadableSize.2 }) buffer hnext hstart hpending⟩
    · exact ⟨rfl, .intro buffer hsend hstart hpending⟩

theorem Agree.notify (hagree : Agree c c') (script : HttpScript) :
    (c.notify script).1 = (c'.notify script).1 ∧
      Agree (c.notify script).2 (c'.notify script).2 := by
  obtain ⟨hsize, hnext⟩ := hagree.drained
  simp only [HttpConnection.notify]
  generalize c.drained = p at hsize hnext ⊢
  generalize c'.drained = p' at hsize hnext ⊢
  obtain ⟨size, d⟩ := p
  obtain ⟨size', d'⟩ := p'
  cases hsize
  obtain ⟨houts, hcalled⟩ := hnext.attempt script
  have hview := hnext.view_eq
  have hend := hnext.everythingEnd
  simp only at houts hcalled hview hend ⊢
  rcases size with _ | _ | size
  · exact ⟨rfl, hnext⟩
  · cases hnext with
    | intro buffer hsend hstart hpending =>
      simp only at houts hview ⊢
      split
      · split
        · exact ⟨by rw [houts, hview], hcalled⟩
        · exact ⟨rfl, hend⟩
      · exact ⟨rfl, .intro buffer hsend hstart hpending⟩
  · exact ⟨rfl, hnext⟩

theorem Agree.fill (hagree : Agree c c') {bytes : Bytes} {b b' : Buffer} (hb : b.Agree b') :
    Agree
      { c with
        sendBuffer := b
        buffer := Memory.store (Memory.store c.buffer 0 bytes) bytes.length [0]
        bufferUsedLen := bytes.length
        bufferStartUse := 0 }
      { c' with
        sendBuffer := b'
        buffer := Memory.store (Memory.store c'.buffer 0 bytes) bytes.length [0]
        bufferUsedLen := bytes.length
        bufferStartUse := 0 } := by
  cases hagree with
  | @intro sendBuffer buffer hsend hstart hpending =>
    refine .intro (c := { c with
      sendBuffer := b
      buffer := Memory.store (Memory.store c.buffer 0 bytes) bytes.length [0]
      bufferUsedLen := bytes.length
      bufferStartUse := 0 }) _ hb (Int.le_refl 0) ?_
    have hbytes : ∀ m : Nat → Byte,
        Memory.load (Memory.store (Memory.store m 0 bytes) bytes.length [0]) 0 bytes.length = bytes := by
      intro m
      rw [Memory.load_store_below _ (by omega), Memory.load_store_same]
    simp only [pending, Int.sub_zero, Int.toNat_natCast, Int.toNat_zero]
    rw [hbytes, hbytes]

theorem Agree.refill (hagree : Agree c c') : Agree c.refill c'.refill := by
  obtain ⟨hsize, hnext⟩ := hagree.drained
  simp only [HttpConnection.refill]
  generalize c.drained = p at hsize hnext ⊢
  generalize c'.drained = p' at hsize hnext ⊢
  obtain ⟨size, d⟩ := p
  obtain ⟨size', d'⟩ := p'
  cases hsize
  simp only at hnext
  rcases size with _ | _ | size
  · exact hnext
  · exact hnext
  · have hsend := hnext.sendBuffer
    obtain ⟨b, hread, -⟩ := Buffer.read_spec hsend.wf (by decide : 0 < httpBufferSize - 1)
    obtain ⟨hbytes, hb⟩ := hsend.read (httpBufferSize - 1)
    have hread' : d'.sendBuffer.read true (httpBufferSize - 1) =
        (.ok (d.sendBuffer.content.take (httpBufferSize - 1)),
          (d'.sendBuffer.read true (httpBufferSize - 1)).2) := by
      rw [hread] at hbytes
      exact Prod.ext hbytes.symm rfl
    rw [hread] at hb
    simp only [hread]
    rw [hread']
    exact hnext.fill hb

theorem Agree.finish (hagree : Agree c c') : Agree c.finish c'.finish := by
  obtain ⟨hsize, hnext⟩ := hagree.drained
  simp only [HttpConnection.finish]
  generalize c.drained = p at hsize hnext ⊢
  generalize c'.drained = p' at hsize hnext ⊢
  obtain ⟨size, d⟩ := p
  obtain ⟨size', d'⟩ := p'
  cases hsize
  have hend := hnext.everythingEnd
  simp only at hnext hend
  rcases size with _ | _ | size
  · exact hnext
  · cases hnext with
    | intro buffer hsend hstart hpending =>
      simp only
      split
      · exact hend
      · exact .intro buffer hsend hstart hpending
  · exact hnext

theorem Agree.write (hagree : Agree c c') (turn : HttpTurn) :
    (c.write turn).1 = (c'.write turn).1 ∧ Agree (c.write turn).2 (c'.write turn).2 := by
  obtain ⟨hsent, hnext⟩ := hagree.sendLoop turn.send
  obtain ⟨houts, hcalled⟩ := hnext.notify turn.writeEnd
  have hflags : c.everythingEnd = c'.everythingEnd ∧ c.processEnd = c'.processEnd := by
    cases hagree
    exact ⟨rfl, rfl⟩
  simp only [HttpConnection.write, ← hflags.1, ← hflags.2]
  split
  · exact ⟨by rw [hsent, houts], hcalled.refill.finish⟩
  · exact ⟨rfl, hagree⟩

theorem Agree.wait (hagree : Agree c c') :
    c.wait.1 = c'.wait.1 ∧ Agree c.wait.2 c'.wait.2 := by
  have hclosed := hagree.everythingEnd.act .markClose
  cases hagree with
  | intro buffer hsend hstart hpending =>
    simp only [HttpConnection.wait]
    split
    · exact ⟨rfl, .intro buffer hsend hstart hpending⟩
    · split
      · exact ⟨rfl, .intro buffer hsend hstart hpending⟩
      · exact hclosed

theorem Agree.serve (h : HttpParser P) (hagree : Agree c c') (turn : HttpTurn) :
    (c.serve h turn).1 = (c'.serve h turn).1 ∧ Agree (c.serve h turn).2 (c'.serve h turn).2 := by
  obtain ⟨hprocessed, hprocess⟩ := (hagree.read h turn.recv).process turn.process
  obtain ⟨hwritten, hwrite⟩ := hprocess.write turn
  obtain ⟨houts, hwait⟩ := hwrite.wait
  simp only [HttpConnection.serve]
  exact ⟨by rw [hprocessed, hwritten, houts], hwait⟩

theorem Agree.run (h : HttpParser P) (hagree : Agree c c') (turn : HttpTurn) :
    (c.run h turn).1 = (c'.run h turn).1 ∧ Agree (c.run h turn).2 (c'.run h turn).2 := by
  have hserved := hagree.serve h turn
  have hclosed := hagree.act .markClose
  obtain ⟨houts, hdestoryed⟩ := hagree.acts turn.destory.acts
  have hview := hagree.view_eq
  have hflags : c.closeFlag = c'.closeFlag ∧ c.destoryCallback = c'.destoryCallback := by
    cases hagree
    exact ⟨rfl, rfl⟩
  simp only [HttpConnection.run, ← hflags.1, ← hflags.2]
  split
  · split
    · exact ⟨by rw [houts, hview], hdestoryed⟩
    · exact ⟨rfl, hagree⟩
  · split
    · exact ⟨rfl, hagree⟩
    · exact hclosed
    · exact hserved

/-- What is done to a connection: a run of its task, or an operation. -/
inductive Op where
  | run (turn : HttpTurn)
  | act (a : HttpAct)

def operation (h : HttpParser P) (c : HttpConnection P) : Op → List HttpOutput × HttpConnection P
  | .run turn => c.run h turn
  | .act a => c.act a

/-- One operation after the other, with all that they show. -/
def operate (h : HttpParser P) (c : HttpConnection P) : List Op → List HttpOutput × HttpConnection P
  | [] => ([], c)
  | op :: ops =>
    let (outs, c) := c.operation h op
    let (rest, c) := operate h c ops
    (outs ++ rest, c)

theorem Agree.operate (h : HttpParser P) (hagree : Agree c c') (ops : List Op) :
    (c.operate h ops).1 = (c'.operate h ops).1 ∧ Agree (c.operate h ops).2 (c'.operate h ops).2 := by
  induction ops generalizing c c' with
  | nil => exact ⟨rfl, hagree⟩
  | cons op ops ih =>
    have hop : (c.operation h op).1 = (c'.operation h op).1 ∧
        Agree (c.operation h op).2 (c'.operation h op).2 := by
      cases op with
      | run turn => exact hagree.run h turn
      | act a => exact hagree.act a
    obtain ⟨hrest, hend⟩ := ih hop.2
    simp only [HttpConnection.operate]
    exact ⟨by rw [hop.1, hrest], hend⟩

end HttpConnection

end Tubekit
