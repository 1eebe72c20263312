import Tubekit.Buffer.Agreement
import Tubekit.Task.WebsocketTask

/-!
# Connections that cannot be told apart

Two stream or websocket connections agree when they differ only in what no operation looks at:
the raw arrays outside of the bytes that the lengths beside them mark, and the storage of the
buffers outside of their content. The runs of their tasks, and all else that is done to them,
then show the same and keep them in agreement.
-/

namespace Tubekit

open Lib

namespace Staging

variable {s s' : Staging}

/-- Nothing tells the two staging areas apart. -/
structure Agree (s s' : Staging) : Prop where
  sendBuffer : s.sendBuffer.Agree s'.sendBuffer
  recvBuffer : s.recvBuffer.Agree s'.recvBuffer
  watingSendPack : s.watingSendPack.Agree s'.watingSendPack
  writeEndCallback : s.writeEndCallback = s'.writeEndCallback
  shouldSendIdx : s.shouldSendIdx = s'.shouldSendIdx
  shouldSendSize : s.shouldSendSize = s'.shouldSendSize
  sock2bufDataLen : s.sock2bufDataLen = s'.sock2bufDataLen
  unsent : s.unsent = s'.unsent
  held : Memory.load s.sock2bufInnerBuffer 0 s.sock2bufDataLen.toNat =
    Memory.load s'.sock2bufInnerBuffer 0 s'.sock2bufDataLen.toNat
  heldFits : s.sock2bufDataLen ≤ innerBufferSize

/-- The staging areas differ only in buffers and arrays. -/
theorem Agree.eq (h : Agree s s') : ∃ sendBuffer recvBuffer watingSendPack inner inner',
    s' = { s with
      sendBuffer
      recvBuffer
      watingSendPack
      buf2sockInnerBuffer := inner
      sock2bufInnerBuffer := inner' } := by
  refine ⟨s'.sendBuffer, s'.recvBuffer, s'.watingSendPack, s'.buf2sockInnerBuffer,
    s'.sock2bufInnerBuffer, ?_⟩
  rw [h.writeEndCallback, h.shouldSendIdx, h.shouldSendSize, h.sock2bufDataLen]

/-- Whatever they held, two connections agree after `reuse`. -/
theorem agree_reuse (s s' : Staging) : Agree s.reuse s'.reuse where
  sendBuffer := Buffer.Agree.reuse s.sendBuffer s'.sendBuffer (n := memBufferSizeMax) (by decide)
  recvBuffer := Buffer.Agree.reuse s.recvBuffer s'.recvBuffer (n := memBufferSizeMax) (by decide)
  watingSendPack := Buffer.Agree.reuse s.watingSendPack s'.watingSendPack (n := memBufferSizeMax) (by decide)
  writeEndCallback := rfl
  shouldSendIdx := rfl
  shouldSendSize := rfl
  sock2bufDataLen := rfl
  unsent := rfl
  held := rfl
  heldFits := (by decide : (0 : Int) ≤ innerBufferSize)

theorem Agree.onMarkClose (h : Agree s s') : Agree s.onMarkClose s'.onMarkClose :=
  { h with
    sendBuffer := Buffer.Agree.clear _ _
    recvBuffer := Buffer.Agree.clear _ _
    watingSendPack := Buffer.Agree.clear _ _ }

theorem Agree.send (h : Agree s s') (gid : Nat) {buffer : Option Bytes}
    (hb : ∀ bytes, buffer = some bytes → bytes.length ≤ maxObjectSize) :
    (s.send gid buffer).1 = (s'.send gid buffer).1 ∧
      Agree (s.send gid buffer).2 (s'.send gid buffer).2 := by
  cases buffer with
  | none => exact ⟨rfl, h⟩
  | some bytes =>
    obtain ⟨hret, hagree⟩ := h.watingSendPack.write hb
    simp only [Staging.send]
    generalize s.watingSendPack.write (some bytes) = p at hret hagree ⊢
    generalize s'.watingSendPack.write (some bytes) = p' at hret hagree ⊢
    obtain ⟨r, b⟩ := p
    obtain ⟨r', b'⟩ := p'
    cases hret
    have hnext : Agree { s with watingSendPack := b } { s' with watingSendPack := b' } :=
      { h with watingSendPack := hagree }
    cases r with
    | error e => exact ⟨rfl, hnext⟩
    | ok n =>
      simp only
      split
      · exact ⟨rfl, hnext⟩
      · exact ⟨rfl, hnext⟩

/-! ## `buf2sock` -/

/-- The locals of `buf2sock` are within their bounds, and there is something to offer where it
offers. -/
def Fits (s : Staging) : Buf2sockPc → Prop
  | .reserve n => n ≤ innerBufferSize
  | .temp bytes => bytes.length ≤ innerBufferSize
  | .tag4 => 0 ≤ s.shouldSendIdx
  | _ => True

theorem fits_tag1 (s : Staging) : s.Fits .tag1 := trivial

theorem load_of_unsent_eq (hidx : 0 ≤ s.shouldSendIdx) (h : Agree s s') {k : Nat}
    (hk : k ≤ s.shouldSendSize.toNat) :
    Memory.load s.buf2sockInnerBuffer s.shouldSendIdx.toNat k =
      Memory.load s'.buf2sockInnerBuffer s'.shouldSendIdx.toNat k := by
  have hunsent := h.unsent
  unfold Staging.unsent at hunsent
  rw [if_neg (by omega), if_neg (by rw [← h.shouldSendIdx]; omega)] at hunsent
  have htake := congrArg (List.take k) hunsent
  rwa [Memory.take_load _ _ hk, Memory.take_load _ _ (h.shouldSendSize ▸ hk)] at htake

theorem Agree.offer (h : Agree s s') (hidx : 0 ≤ s.shouldSendIdx) {sock : SockSend}
    (hk : ∀ k, sock = .took k → k ≤ s.shouldSendSize.toNat) :
    (s.offer sock).2 = (s'.offer sock).2 ∧ Agree (s.offer sock).1 (s'.offer sock).1 ∧
      (s.offer sock).1.Fits (s.offer sock).2.1 := by
  cases sock with
  | failed errno => cases errno <;> exact ⟨rfl, h, trivial⟩
  | took k =>
    cases k with
    | zero => exact ⟨rfl, h, trivial⟩
    | succ k =>
      have hle := hk (k + 1) rfl
      have htaken := load_of_unsent_eq hidx h hle
      simp only [Staging.offer, ← h.shouldSendSize]
      split
      · refine ⟨by rw [htaken], { h with
          shouldSendIdx := rfl
          shouldSendSize := rfl
          unsent := rfl }, trivial⟩
      · refine ⟨by rw [htaken], { h with shouldSendSize := rfl, unsent := ?_ }, trivial⟩
        have hrest := load_of_unsent_eq hidx h
          (k := (s.shouldSendSize - ((k : Int) + 1)).toNat) (by omega)
        simp only [Staging.unsent, ← h.shouldSendIdx, if_neg (show ¬s.shouldSendIdx < 0 by omega)]
        rw [← h.shouldSendIdx] at hrest
        exact hrest

/-- The block that `buf2sock` loads is the same, whatever its array held before. -/
theorem Agree.load (h : Agree s s') {b b' : Buffer} (hb : b.Agree b') (bytes : Bytes) :
    Agree
      { s with
        sendBuffer := b
        buf2sockInnerBuffer := Memory.store s.buf2sockInnerBuffer 0 bytes
        shouldSendIdx := 0
        shouldSendSize := bytes.length }
      { s' with
        sendBuffer := b'
        buf2sockInnerBuffer := Memory.store s'.buf2sockInnerBuffer 0 bytes
        shouldSendIdx := 0
        shouldSendSize := bytes.length } := by
  refine { h with sendBuffer := hb, shouldSendIdx := rfl, shouldSendSize := rfl, unsent := ?_ }
  simp [Staging.unsent, Memory.load_store_same]

theorem Agree.buf2sockStep (h : Agree s s') (out : Outside) {pc : Buf2sockPc} (hpc : s.Fits pc)
    (hoffered : pc = .tag4 → ∀ k, out.sock = .took k → k ≤ s.shouldSendSize.toNat) :
    (s.buf2sockStep out pc).2 = (s'.buf2sockStep out pc).2 ∧
      Agree (s.buf2sockStep out pc).1 (s'.buf2sockStep out pc).1 ∧
      (s.buf2sockStep out pc).1.Fits (s.buf2sockStep out pc).2.1 := by
  obtain ⟨sb, rb, wp, inner, inner', rfl⟩ := h.eq
  cases pc with
  | tag1 =>
    simp only [Staging.buf2sockStep]
    split
    · rename_i hidx
      obtain ⟨hret, hagree⟩ := h.sendBuffer.read innerBufferSize
      generalize s.sendBuffer.read true innerBufferSize = p at hret hagree ⊢
      simp only at hret hagree ⊢
      generalize sb.read true innerBufferSize = p' at hret hagree ⊢
      obtain ⟨r, b⟩ := p
      obtain ⟨r', b'⟩ := p'
      cases hret
      cases r with
      | error e => exact ⟨rfl, { h with sendBuffer := hagree }, trivial⟩
      | ok bytes =>
        simp only
        split
        · exact ⟨rfl, h.load hagree bytes, Int.le_refl 0⟩
        · refine ⟨rfl, { h with sendBuffer := hagree, unsent := ?_ }, trivial⟩
          simp only [Staging.unsent, if_pos hidx]
    · rename_i hidx
      exact ⟨rfl, h, Int.not_lt.mp hidx⟩
  | tag3 =>
    obtain ⟨hret, hagree⟩ := h.sendBuffer.blankSpace
    simp only [Staging.buf2sockStep] at hret hagree ⊢
    rw [← hret]
    split
    · refine ⟨rfl, { h with sendBuffer := hagree }, ?_⟩
      simp only [Fits]
      split
      · exact Nat.le_refl _
      · omega
    · exact ⟨rfl, { h with sendBuffer := hagree }, trivial⟩
  | reserve n =>
    obtain ⟨hret, hagree⟩ := h.watingSendPack.read n
    have hlen := h.watingSendPack.wf.length_read_le n
    simp only [Staging.buf2sockStep]
    generalize s.watingSendPack.read true n = p at hret hagree hlen ⊢
    simp only at hret hagree ⊢
    generalize wp.read true n = p' at hret hagree ⊢
    obtain ⟨r, b⟩ := p
    obtain ⟨r', b'⟩ := p'
    cases hret
    have hnext : Agree { s with watingSendPack := b } { s with
        sendBuffer := sb
        recvBuffer := rb
        watingSendPack := b'
        buf2sockInnerBuffer := inner
        sock2bufInnerBuffer := inner' } := { h with watingSendPack := hagree }
    cases r with
    | error e => exact ⟨rfl, hnext, trivial⟩
    | ok bytes =>
      simp only
      split
      · exact ⟨rfl, hnext, Nat.le_trans (hlen bytes rfl) hpc⟩
      · split
        · exact ⟨rfl, hnext, trivial⟩
        · exact ⟨rfl, hnext, trivial⟩
  | temp bytes =>
    have hfit : bytes.length ≤ maxObjectSize := Nat.le_trans hpc (by decide)
    obtain ⟨hret, hagree⟩ := h.sendBuffer.write_some hfit
    simp only [Staging.buf2sockStep] at hret hagree ⊢
    generalize s.sendBuffer.write (some bytes) = p at hret hagree ⊢
    generalize sb.write (some bytes) = p' at hret hagree ⊢
    obtain ⟨r, b⟩ := p
    obtain ⟨r', b'⟩ := p'
    cases hret
    have hnext : Agree { s with sendBuffer := b } { s with
        sendBuffer := b'
        recvBuffer := rb
        watingSendPack := wp
        buf2sockInnerBuffer := inner
        sock2bufInnerBuffer := inner' } := { h with sendBuffer := hagree }
    cases r with
    | error e => exact ⟨rfl, hnext, trivial⟩
    | ok n =>
      simp only
      split
      · exact ⟨rfl, hnext, trivial⟩
      · exact ⟨rfl, hnext, trivial⟩
  | callback => exact ⟨rfl, h, trivial⟩
  | tag4 => exact h.offer hpc (hoffered rfl)
  | done ret closed => exact ⟨rfl, h, trivial⟩

/-! ## `sock2buf` -/

/-- Nothing is held back. -/
theorem Agree.holdNothing (h : Agree s s') {len : Int} (hlen : len ≤ 0) :
    Agree { s with sock2bufDataLen := len } { s' with sock2bufDataLen := len } := by
  have hzero : len.toNat = 0 := Int.toNat_eq_zero.mpr hlen
  refine { h with
    sock2bufDataLen := rfl
    held := ?_
    heldFits := Int.le_trans hlen (by decide : (0 : Int) ≤ innerBufferSize) }
  simp only [hzero, Memory.load_zero]

theorem Agree.sock2bufLoop (h : Agree s s') (used used' answers : List SockRecv) :
    (s.sock2bufLoop used answers).ret = (s'.sock2bufLoop used' answers).ret ∧
      (s.sock2bufLoop used answers).needTask = (s'.sock2bufLoop used' answers).needTask ∧
      Agree (s.sock2bufLoop used answers).staging (s'.sock2bufLoop used' answers).staging := by
  induction answers generalizing s s' used used' with
  | nil => exact ⟨rfl, rfl, h.holdNothing (by decide)⟩
  | cons answer answers ih =>
    cases answer with
    | eof => exact ⟨rfl, rfl, h.holdNothing (by decide)⟩
    | failed errno =>
      cases errno with
      | eintr => exact ih (h.holdNothing (by decide)) _ _
      | eagain => exact ⟨rfl, rfl, h.holdNothing (by decide)⟩
      | other => exact ⟨rfl, rfl, h.holdNothing (by decide)⟩
    | block data =>
      have hfit : data.bytes.length ≤ maxObjectSize := Nat.le_trans data.fits (by decide)
      obtain ⟨hret, hagree⟩ := h.recvBuffer.write_some hfit
      simp only [Staging.sock2bufLoop, Memory.load_store_same]
      generalize s.recvBuffer.write (some data.bytes) = p at hret hagree ⊢
      generalize s'.recvBuffer.write (some data.bytes) = p' at hret hagree ⊢
      obtain ⟨r, b⟩ := p
      obtain ⟨r', b'⟩ := p'
      cases hret
      have hnext : Agree
          { s with
            recvBuffer := b
            sock2bufInnerBuffer := Memory.store s.sock2bufInnerBuffer 0 data.bytes
            sock2bufDataLen := data.bytes.length }
          { s' with
            recvBuffer := b'
            sock2bufInnerBuffer := Memory.store s'.sock2bufInnerBuffer 0 data.bytes
            sock2bufDataLen := data.bytes.length } := by
        refine { h with
          recvBuffer := hagree
          sock2bufDataLen := rfl
          held := ?_
          heldFits := Int.ofNat_le.mpr data.fits }
        simp [Memory.load_store_same]
      cases r with
      | error e => exact ⟨rfl, rfl, hnext⟩
      | ok n => exact ih (hnext.holdNothing (by decide)) _ _

theorem Agree.sock2buf (h : Agree s s') (answers : List SockRecv) :
    (s.sock2buf answers).ret = (s'.sock2buf answers).ret ∧
      (s.sock2buf answers).needTask = (s'.sock2buf answers).needTask ∧
      Agree (s.sock2buf answers).staging (s'.sock2buf answers).staging := by
  have hheld := h.held
  have hfits := h.heldFits
  obtain ⟨sb, rb, wp, inner, inner', rfl⟩ := h.eq
  simp only [Staging.sock2buf] at hheld ⊢
  split
  · rw [← hheld]
    have hmax : innerBufferSize ≤ maxObjectSize := by decide
    have hlen : (Memory.load s.sock2bufInnerBuffer 0 s.sock2bufDataLen.toNat).length ≤
        maxObjectSize := by
      rw [Memory.length_load]
      omega
    obtain ⟨hret, hagree⟩ := h.recvBuffer.write_some hlen
    simp only at hret hagree
    generalize s.recvBuffer.write _ = p at hret hagree ⊢
    generalize rb.write _ = p' at hret hagree ⊢
    obtain ⟨r, b⟩ := p
    obtain ⟨r', b'⟩ := p'
    cases hret
    have hnext : Agree { s with recvBuffer := b } { s with
        sendBuffer := sb
        recvBuffer := b'
        watingSendPack := wp
        buf2sockInnerBuffer := inner
        sock2bufInnerBuffer := inner' } := { h with recvBuffer := hagree }
    cases r with
    | error e => exact ⟨rfl, rfl, hnext⟩
    | ok n => exact (hnext.holdNothing (Int.le_refl 0)).sock2bufLoop _ _ _
  · exact h.sock2bufLoop _ _ _

end Staging

/-! ## Endpoints -/

namespace Endpoint

variable {P : Type} {e e' : Endpoint P}

/-- Nothing tells the two connections apart. -/
inductive Agree : Endpoint P → Endpoint P → Prop
  | stream (c : StreamConnection) {staging : Staging} (h : c.toStaging.Agree staging) :
    Agree (.stream c) (.stream { c with toStaging := staging })
  | websocket (c : WebsocketConnection P) {staging : Staging} (buffer : Nat → Byte)
    (h : c.toStaging.Agree staging) :
    Agree (.websocket c) (.websocket { c with toStaging := staging, buffer })

namespace Agree

theorem staging (h : Agree e e') : e.staging.Agree e'.staging := by
  cases h with
  | stream c hs => exact hs
  | websocket c buffer hs => exact hs

theorem withStaging (h : Agree e e') {s s' : Staging} (hs : s.Agree s') :
    Agree (e.withStaging s) (e'.withStaging s') := by
  cases h with
  | stream c _ => exact .stream { c with toStaging := s } hs
  | websocket c buffer _ => exact .websocket { c with toStaging := s } buffer hs

theorem closeFlag (h : Agree e e') : e.closeFlag = e'.closeFlag := by
  cases h <;> rfl

theorem markClose (h : Agree e e') :
    e.markClose.1 = e'.markClose.1 ∧ Agree e.markClose.2 e'.markClose.2 := by
  cases h with
  | stream c hs =>
    simp only [Endpoint.markClose, StreamConnection.markClose]
    split
    · exact ⟨rfl, .stream { c with closeFlag := true, toStaging := _ } hs.onMarkClose⟩
    · exact ⟨rfl, .stream c hs⟩
  | websocket c buffer hs =>
    simp only [Endpoint.markClose, WebsocketConnection.markClose]
    split
    · exact ⟨rfl, .websocket { c with closeFlag := true, toStaging := _ } buffer hs.onMarkClose⟩
    · exact ⟨rfl, .websocket c buffer hs⟩

theorem send (h : Agree e e') {buffer : Option Bytes} (checkConnected : Bool)
    (hb : ∀ bytes, buffer = some bytes → bytes.length ≤ maxObjectSize) :
    (e.send buffer checkConnected).1 = (e'.send buffer checkConnected).1 ∧
      Agree (e.send buffer checkConnected).2 (e'.send buffer checkConnected).2 := by
  cases h with
  | stream c hs =>
    obtain ⟨hret, hagree⟩ := hs.send c.gid hb
    exact ⟨hret, .stream { c with toStaging := _ } hagree⟩
  | websocket c buffer' hs =>
    obtain ⟨hret, hagree⟩ := hs.send c.gid hb
    simp only [Endpoint.send, WebsocketConnection.send]
    split
    · exact ⟨rfl, .websocket c buffer' hs⟩
    · exact ⟨hret, .websocket { c with toStaging := _ } buffer' hagree⟩

theorem setRecvBuffer (h : Agree e e') {b b' : Buffer} (hb : b.Agree b') :
    Agree (e.setRecvBuffer b) (e'.setRecvBuffer b') :=
  h.withStaging { h.staging with recvBuffer := hb }

/-- A change of other members than the staging areas and the array. -/
theorem onWebsocket (h : Agree e e') {f : WebsocketConnection P → WebsocketConnection P}
    (hstaging : ∀ c, (f c).toStaging = c.toStaging)
    (hframe : ∀ c staging buffer, f { c with toStaging := staging, buffer } =
      { f c with toStaging := staging, buffer }) :
    Agree (e.onWebsocket f) (e'.onWebsocket f) := by
  cases h with
  | stream c hs => exact .stream c hs
  | @websocket c staging buffer hs =>
    have heq := hframe c staging buffer
    simp only [Endpoint.onWebsocket]
    rw [heq]
    exact .websocket (f c) buffer ((hstaging c).symm ▸ hs)

theorem act (h : Agree e e') (a : EndpointAct) :
    (e.act a).1 = (e'.act a).1 ∧ Agree (e.act a).2 (e'.act a).2 := by
  have hrecv := h.staging.recvBuffer
  cases a with
  | send buffer checkConnected =>
    obtain ⟨hret, hagree⟩ := h.send checkConnected (MemoryBlock.fits_of_map buffer)
    simp only [Endpoint.act]
    exact ⟨by rw [hret], hagree⟩
  | look =>
    obtain ⟨hload, hagree⟩ := hrecv.look
    exact ⟨by simp only [Endpoint.act, hload], h.setRecvBuffer hagree⟩
  | readPtrMoveN n =>
    obtain ⟨hret, hagree⟩ := hrecv.readPtrMoveN n
    exact ⟨by simp only [Endpoint.act, hret], h.setRecvBuffer hagree⟩
  | read n =>
    obtain ⟨hret, hagree⟩ := hrecv.read n
    exact ⟨by simp only [Endpoint.act, hret], h.setRecvBuffer hagree⟩
  | clearRecvBuffer => exact ⟨rfl, h.setRecvBuffer (.clear _ _)⟩
  | setWriteEndCallback callback =>
    exact ⟨rfl, h.withStaging { h.staging with writeEndCallback := rfl }⟩
  | setConnected connected => exact ⟨rfl, h.onWebsocket (fun _ => rfl) fun _ _ _ => rfl⟩
  | setEverythingEnd everythingEnd => exact ⟨rfl, h.onWebsocket (fun _ => rfl) fun _ _ _ => rfl⟩
  | setDestoryCallback callback => exact ⟨rfl, h.onWebsocket (fun _ => rfl) fun _ _ _ => rfl⟩
  | markClose => exact h.markClose

theorem acts (h : Agree e e') (l : List EndpointAct) :
    (e.acts l).1 = (e'.acts l).1 ∧ Agree (e.acts l).2 (e'.acts l).2 := by
  induction l generalizing e e' with
  | nil => exact ⟨rfl, h⟩
  | cons a l ih =>
    obtain ⟨hout, hagree⟩ := h.act a
    obtain ⟨houts, hagree⟩ := ih hagree
    exact ⟨by simp only [Endpoint.acts, hout, houts], hagree⟩

theorem offered (h : Agree e e') (pc : Staging.Buf2sockPc) (sock : SockSend) :
    e.offered pc sock = e'.offered pc sock := by
  simp only [Endpoint.offered, h.staging.shouldSendSize]

theorem buf2sockTurn (h : Agree e e') (writeEnd : List EndpointAct) {pc : Staging.Buf2sockPc}
    (hpc : e.staging.Fits pc) {out : Staging.Outside} (hoffered : e.offered pc out.sock = true) :
    (e.buf2sockTurn writeEnd pc out).1 = (e'.buf2sockTurn writeEnd pc out).1 ∧
    (e.buf2sockTurn writeEnd pc out).2.1 = (e'.buf2sockTurn writeEnd pc out).2.1 ∧
    Agree (e.buf2sockTurn writeEnd pc out).2.2 (e'.buf2sockTurn writeEnd pc out).2.2 ∧
    (e.buf2sockTurn writeEnd pc out).2.2.staging.Fits (e.buf2sockTurn writeEnd pc out).2.1 := by
  have hcallback := h.staging.writeEndCallback
  by_cases hcall : pc = .callback
  · subst hcall
    obtain ⟨hacts, hagree⟩ := h.acts writeEnd
    simp only [Endpoint.buf2sockTurn, if_true, hcallback, hacts, Staging.buf2sockStep]
    exact ⟨trivial, trivial, hagree.withStaging hagree.staging, by simp [Staging.Fits]⟩
  · have htaken : pc = .tag4 → ∀ k, out.sock = .took k → k ≤ e.staging.shouldSendSize.toNat := by
      rintro rfl k hk
      simpa [Endpoint.offered, hk] using hoffered
    obtain ⟨hret, hagree, hfits⟩ := h.staging.buf2sockStep out hpc htaken
    simp only [Endpoint.buf2sockTurn, if_neg hcall, hcallback, hret]
    exact ⟨trivial, trivial, h.withStaging hagree, by rw [← hret]; simpa using hfits⟩

end Agree

/-- The same outputs, and connections that agree. -/
inductive Alike : Option (List EndpointOutput × Endpoint P) →
    Option (List EndpointOutput × Endpoint P) → Prop
  | none : Alike none none
  | some (outs : List EndpointOutput) {e e' : Endpoint P} (h : Agree e e') :
    Alike (some (outs, e)) (some (outs, e'))

inductive Phase.Alike : Phase P → Phase P → Prop
  | returned (outs : List EndpointOutput) {e e' : Endpoint P} (h : Agree e e') :
    Alike (.returned outs e) (.returned outs e')
  | next (outs : List EndpointOutput) {e e' : Endpoint P} (h : Agree e e') :
    Alike (.next outs e) (.next outs e')

theorem Phase.Alike.andThen {p p' : Phase P} (hp : Phase.Alike p p')
    {f f' : Endpoint P → Option (List EndpointOutput × Endpoint P)}
    (hf : ∀ {e e'}, Agree e e' → Endpoint.Alike (f e) (f' e')) :
    Endpoint.Alike (p.andThen f) (p'.andThen f') := by
  cases hp with
  | returned outs h => exact .some outs h
  | @next outs e e' h =>
    have hnext := hf h
    simp only [Phase.andThen]
    generalize f e = r at hnext ⊢
    generalize f' e' = r' at hnext ⊢
    cases hnext with
    | none => exact .none
    | some rest h => exact .some (outs ++ rest) h

namespace Agree

theorem buf2sock (h : Agree e e') (writeEnd : List EndpointAct) {pc : Staging.Buf2sockPc}
    (hpc : e.staging.Fits pc) (answers : List Staging.Outside) :
    (e.buf2sock writeEnd pc answers = none ∧ e'.buf2sock writeEnd pc answers = none) ∨
    ∃ outs ret closed e₁ e₁', e.buf2sock writeEnd pc answers = some (outs, ret, closed, e₁) ∧
      e'.buf2sock writeEnd pc answers = some (outs, ret, closed, e₁') ∧ Agree e₁ e₁' := by
  induction answers generalizing e e' pc with
  | nil =>
    by_cases hdone : ∃ ret closed, pc = .done ret closed
    · obtain ⟨ret, closed, rfl⟩ := hdone
      exact Or.inr ⟨[], ret, closed, e, e', rfl, rfl, h⟩
    · have hpc' : ∀ ret closed, pc ≠ .done ret closed := fun ret closed heq => hdone ⟨ret, closed, heq⟩
      exact Or.inl ⟨buf2sock_nil e writeEnd hpc', buf2sock_nil e' writeEnd hpc'⟩
  | cons out answers ih =>
    by_cases hdone : ∃ ret closed, pc = .done ret closed
    · obtain ⟨ret, closed, rfl⟩ := hdone
      exact Or.inr ⟨[], ret, closed, e, e', rfl, rfl, h⟩
    · have hpc' : ∀ ret closed, pc ≠ .done ret closed := fun ret closed heq => hdone ⟨ret, closed, heq⟩
      rw [buf2sock_cons e writeEnd hpc', buf2sock_cons e' writeEnd hpc', ← h.offered pc out.sock]
      by_cases hoffered : e.offered pc out.sock = true
      · rw [if_pos hoffered, if_pos hoffered]
        obtain ⟨houts, hpcs, hagree, hfits⟩ := h.buf2sockTurn writeEnd hpc hoffered
        rw [← houts, ← hpcs]
        rcases ih hagree hfits with ⟨hnone, hnone'⟩ | ⟨outs, ret, closed, e₁, e₁', hrun, hrun', hagree⟩
        · rw [hnone, hnone']
          exact Or.inl ⟨rfl, rfl⟩
        · rw [hrun, hrun']
          exact Or.inr ⟨_, ret, closed, e₁, e₁', rfl, rfl, hagree⟩
      · rw [if_neg hoffered, if_neg hoffered]
        exact Or.inl ⟨rfl, rfl⟩

theorem recvData (h : Agree e e') (answers : List SockRecv) :
    Phase.Alike (e.recvData answers) (e'.recvData answers) := by
  obtain ⟨hret, hneed, hstaging⟩ := h.staging.sock2buf answers
  have hnext := h.withStaging hstaging
  obtain ⟨houts, hclosed⟩ := hnext.markClose
  simp only [Endpoint.recvData, hret, hneed, houts]
  split
  · exact .next _ hnext
  · split
    · exact .next _ hnext
    · exact .returned _ hclosed

theorem processData (h : Agree e e') (script : EndpointScript) :
    Phase.Alike (e.processData script) (e'.processData script) := by
  obtain ⟨houts, hnext⟩ := h.acts script.acts
  obtain ⟨hcloses, hclosed⟩ := hnext.markClose
  simp only [Endpoint.processData, houts, hcloses]
  split
  · exact .returned _ hclosed
  · exact .next _ hnext

theorem checkOpen (h : Agree e e') (ssl : SslAccept) : Phase.Alike (e.checkOpen ssl) (e'.checkOpen ssl) := by
  obtain ⟨hcloses, hclosed⟩ := h.markClose
  simp only [Endpoint.checkOpen, h.closeFlag, hcloses]
  split
  · exact .returned _ h
  · cases ssl with
    | waiting listenSend => exact .returned _ h
    | failed => exact .returned _ hclosed
    | notNeeded => exact .next _ h
    | accepted => exact .next _ h

theorem streamData (h : Agree e e') (turn : EndpointTurn) :
    Endpoint.Alike (e.streamData turn) (e'.streamData turn) := by
  refine (h.recvData turn.recv).andThen fun h₁ => (h₁.processData turn.process).andThen fun h₂ => ?_
  rcases h₂.buf2sock turn.writeEnd (Staging.fits_tag1 _) turn.send with
    ⟨hnone, hnone'⟩ | ⟨outs, bSend, bClosed, e₁, e₁', hrun, hrun', hagree⟩
  · rw [hnone, hnone']
    exact .none
  · rw [hrun, hrun']
    obtain ⟨hcloses, hclosed⟩ := hagree.markClose
    cases bClosed with
    | true =>
      simp only [if_true, hcloses]
      exact .some _ hclosed
    | false => exact .some _ hagree

theorem streamRun (h : Agree e e') (turn : EndpointTurn) :
    Endpoint.Alike (e.streamRun turn) (e'.streamRun turn) :=
  (h.checkOpen turn.ssl).andThen fun h₁ => h₁.streamData turn

theorem websocketEnd (h : Agree e e') :
    e.websocketEnd.1 = e'.websocketEnd.1 ∧ Agree e.websocketEnd.2 e'.websocketEnd.2 := by
  have hclose := h.markClose
  cases h with
  | stream c hs => exact ⟨rfl, .stream c hs⟩
  | websocket c buffer hs =>
    simp only [Endpoint.websocketEnd]
    split
    · exact hclose
    · exact ⟨rfl, .websocket c buffer hs⟩

theorem websocketData (h : Agree e e') (turn : EndpointTurn) :
    Endpoint.Alike (e.websocketData turn) (e'.websocketData turn) := by
  refine (h.recvData turn.recv).andThen fun h₁ => (h₁.processData turn.process).andThen fun h₂ => ?_
  rcases h₂.buf2sock turn.writeEnd (Staging.fits_tag1 _) turn.send with
    ⟨hnone, hnone'⟩ | ⟨outs, bSend, bClosed, e₁, e₁', hrun, hrun', hagree⟩
  · rw [hnone, hnone']
    exact .none
  · rw [hrun, hrun']
    obtain ⟨hcloses, hclosed⟩ := hagree.markClose
    obtain ⟨hends, hended⟩ := hclosed.websocketEnd
    obtain ⟨houts, hend⟩ := hagree.websocketEnd
    cases bClosed with
    | true =>
      simp only [if_true, hcloses, hends]
      exact .some _ hended
    | false =>
      cases bSend with
      | true => exact .some _ hagree
      | false =>
        simp only [Bool.false_eq_true, if_false, houts]
        exact .some _ hend

end Agree

end Endpoint

/-! ## The handshake -/

namespace WebsocketConnection

variable {P : Type} (h : HttpParser P) (accept : Bytes → AcceptKey)

/-- The callbacks look neither at the array nor at the staging areas. -/
theorem runCallbacks_frame (c : WebsocketConnection P) (staging : Staging) (buffer : Nat → Byte)
    (events : List ParserEvent) (i : Nat) :
    runCallbacks callback { c with toStaging := staging, buffer } events i =
      ({ (runCallbacks callback c events i).1 with toStaging := staging, buffer },
        (runCallbacks callback c events i).2) := by
  have hstep : ∀ (c d : WebsocketConnection P) (e : ParserEvent),
      d = { c with toStaging := staging, buffer } →
      (c.callback e).1 = (d.callback e).1 ∧
        (d.callback e).2 = { (c.callback e).2 with toStaging := staging, buffer } := by
    rintro c d e rfl
    cases e <;> exact ⟨rfl, rfl⟩
  obtain ⟨hstate, hstop⟩ := runCallbacks_sim hstep (c := c) rfl events i
  exact Prod.ext hstate hstop.symm

theorem readLoop_frame (c : WebsocketConnection P) (staging : Staging) (buffer : Nat → Byte)
    (answers : List (SockRecv httpBufferSize)) :
    ∃ buffer', readLoop h { c with toStaging := staging, buffer } answers =
      { readLoop h c answers with toStaging := staging, buffer := buffer' } := by
  induction answers generalizing c buffer with
  | nil => exact ⟨buffer, rfl⟩
  | cons answer answers ih =>
    cases answer with
    | eof => exact ⟨buffer, rfl⟩
    | failed errno =>
      cases errno with
      | eintr => exact ih { c with bufferUsedLen := 0 } buffer
      | eagain => exact ⟨buffer, rfl⟩
      | other => exact ⟨buffer, rfl⟩
    | block data =>
      have hframe := runCallbacks_frame
        { c with
          buffer := Memory.store c.buffer 0 data.bytes
          bufferUsedLen := data.bytes.length }
        staging (Memory.store buffer 0 data.bytes) (h.events c.httpParser data.bytes) 0
      simp only [readLoop, HttpParser.execute, Memory.load_store_same] at hframe ⊢
      rw [hframe]
      generalize runCallbacks callback _ (h.events c.httpParser data.bytes) 0 = r
      obtain ⟨c₁, stop⟩ := r
      simp only
      split
      · exact ih { c₁ with
          httpParser := (h.after c.httpParser data.bytes stop).parser
          isUpgrade := true
          bufferUsedLen := 0 } _
      · split
        · exact ⟨_, rfl⟩
        · exact ih { c₁ with
            httpParser := (h.after c.httpParser data.bytes stop).parser
            bufferUsedLen := 0 } _

theorem toStaging_readLoop (c : WebsocketConnection P) (answers : List (SockRecv httpBufferSize)) :
    (readLoop h c answers).toStaging = c.toStaging := by
  obtain ⟨buffer, hsame⟩ := readLoop_frame h c c.toStaging c.buffer answers
  have heq : readLoop h c answers =
      { readLoop h c answers with toStaging := c.toStaging, buffer } := hsame
  rw [heq]

theorem length_handshakeResponse_le (key : Bytes) :
    (handshakeResponse accept key).length ≤ maxObjectSize := by
  have hlen := (accept key).2
  simp only [handshakeResponse, List.length_append, hlen]
  decide

theorem connect_alike (c : WebsocketConnection P) {staging : Staging} (buffer : Nat → Byte)
    (hs : c.toStaging.Agree staging) :
    (c.connect accept).1 = (connect accept { c with toStaging := staging, buffer }).1 ∧
      Endpoint.Agree (.websocket (c.connect accept).2)
        (.websocket (connect accept { c with toStaging := staging, buffer }).2) := by
  have hexamined : Endpoint.Agree (.websocket c.examine)
      (.websocket (examine { c with toStaging := staging, buffer })) :=
    .websocket c.examine buffer hs
  obtain ⟨hret, hsent⟩ := hexamined.send false fun bytes heq =>
    (Option.some.inj heq) ▸ length_handshakeResponse_le accept c.examine.secWebsocketKey
  have hkey : (examine { c with toStaging := staging, buffer }).secWebsocketKey =
      c.examine.secWebsocketKey := rfl
  have hversion : (examine { c with toStaging := staging, buffer }).secWebsocketVersion =
      c.examine.secWebsocketVersion := rfl
  simp only [connect, hkey, hversion]
  split
  · split
    · exact ⟨rfl, (hexamined.act (.setEverythingEnd true)).2⟩
    · refine ⟨congrArg (fun out : SendOutcome => EndpointOutput.handshake c.url c.headers ::
          if out.doTask then [.doTask] else []) hret, (hsent.act (.setConnected true)).2⟩
  · exact ⟨rfl, .websocket c buffer hs⟩

theorem respond_alike (c : WebsocketConnection P) {staging : Staging} (buffer : Nat → Byte)
    (hs : c.toStaging.Agree staging) :
    Endpoint.Phase.Alike (c.respond accept)
      (respond accept { c with toStaging := staging, buffer }) := by
  have hagree := Endpoint.Agree.websocket c buffer hs
  obtain ⟨hcloses, hclosed⟩ := hagree.markClose
  obtain ⟨houts, hconnect⟩ := connect_alike accept c buffer hs
  simp only [respond, closing]
  split
  · exact .returned _ hagree
  · split
    · rw [hcloses]
      exact .returned _ hclosed
    · rw [houts]
      exact .next _ hconnect

/-- Two connections that agree are greeted alike. -/
theorem greet_alike (c : WebsocketConnection P) {staging : Staging} (buffer : Nat → Byte)
    (hs : c.toStaging.Agree staging) (answers : List (SockRecv httpBufferSize)) :
    Endpoint.Phase.Alike (c.greet h accept answers)
      (greet h accept { c with toStaging := staging, buffer } answers) := by
  obtain ⟨hcloses, hclosed⟩ := (Endpoint.Agree.websocket c buffer hs).markClose
  simp only [greet]
  split
  · split
    · simp only [closing]
      rw [hcloses]
      exact .returned _ hclosed
    · obtain ⟨buffer', heq⟩ := readLoop_frame h { c with bufferUsedLen := 0 } staging buffer answers
      have hstaging := toStaging_readLoop h { c with bufferUsedLen := 0 } answers
      have hnext := respond_alike accept (readLoop h { c with bufferUsedLen := 0 } answers) buffer'
        (hstaging.symm ▸ hs)
      rw [← heq] at hnext
      exact hnext
  · exact respond_alike accept c buffer hs

end WebsocketConnection

namespace Endpoint

variable {P : Type} (h : HttpParser P) (accept : Bytes → AcceptKey) {e e' : Endpoint P}

theorem Agree.run (hagree : Agree e e') (turn : EndpointTurn) :
    Endpoint.Alike (e.run h accept turn) (e'.run h accept turn) := by
  have hopen := hagree.checkOpen turn.ssl
  cases hagree with
  | stream c hs => exact Agree.streamRun (.stream c hs) turn
  | @websocket c staging buffer hs =>
    simp only [Endpoint.run, websocketRun]
    generalize (Endpoint.websocket c).checkOpen turn.ssl = p at hopen ⊢
    generalize Endpoint.checkOpen (.websocket { c with toStaging := staging, buffer }) turn.ssl = p'
      at hopen ⊢
    cases hopen with
    | returned outs hclosed => exact .some _ hclosed
    | next outs _ =>
      refine (WebsocketConnection.greet_alike h accept c buffer hs turn.handshake).andThen ?_
      intro e e' hnext
      obtain ⟨houts, hend⟩ := hnext.websocketEnd
      have hdata := hnext.websocketData turn
      have hsome : Endpoint.Alike (some e.websocketEnd) (some e'.websocketEnd) := by
        rw [show e.websocketEnd = (e'.websocketEnd.1, e.websocketEnd.2) from Prod.ext houts rfl]
        exact .some _ hend
      cases hnext with
      | stream c hs => exact hsome
      | websocket c buffer hs =>
        simp only
        split
        · exact hdata
        · exact hsome

/-- What is done to a connection: a run of its task, or an operation. -/
inductive Op where
  | run (turn : EndpointTurn)
  | act (a : EndpointAct)

/-- One operation after the other, with all that they show. -/
def operate (h : HttpParser P) (accept : Bytes → AcceptKey) (e : Endpoint P) :
    List Op → Option (List EndpointOutput × Endpoint P)
  | [] => some ([], e)
  | .act a :: ops => (Phase.next (e.act a).1 (e.act a).2).andThen fun e => operate h accept e ops
  | .run turn :: ops =>
    match e.run h accept turn with
    | none => none
    | some (outs, e) => (Phase.next outs e).andThen fun e => operate h accept e ops

theorem Agree.operate (hagree : Agree e e') (ops : List Op) :
    Endpoint.Alike (e.operate h accept ops) (e'.operate h accept ops) := by
  induction ops generalizing e e' with
  | nil => exact .some [] hagree
  | cons op ops ih =>
    cases op with
    | act a =>
      obtain ⟨houts, hnext⟩ := hagree.act a
      simp only [Endpoint.operate, houts]
      exact (Phase.Alike.next _ hnext).andThen ih
    | run turn =>
      have hrun := Agree.run h accept hagree turn
      simp only [Endpoint.operate]
      generalize e.run h accept turn = r at hrun ⊢
      generalize e'.run h accept turn = r' at hrun ⊢
      cases hrun with
      | none => exact .none
      | some outs hnext => exact (Phase.Alike.next _ hnext).andThen ih

end Endpoint

end Tubekit
