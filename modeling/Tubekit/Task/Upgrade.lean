import Mathlib.Data.List.TakeWhile
import Tubekit.Connection.RecvPath
import Tubekit.Task.WebsocketLife

/-!
# From the handshake to the frames

The bytes of a websocket connection are read in two places: by the loop of the handshake, into
`buffer` and from there to the parser, and by `sock2buf`, into `m_recv_buffer`. `Upgrade` is the
life of a connection with an account of both. The loop of the handshake goes on reading until
`EAGAIN` and drops what the parser did not take, so what it reads behind the request is lost; all
that is read afterwards arrives.
-/

namespace Tubekit

open Lib Transition
open WebsocketConnection (handshakeResponse readLoop)

/-- The life of a websocket connection with what was read from its socket. -/
structure Upgrade (P : Type) where
  life : WebsocketLife P
  /-- What `recv` gave to the loop of the handshake. -/
  pieces : List Bytes
  /-- What `recv` gave to `sock2buf`. -/
  received : Bytes
  /-- What `sock2buf` wrote to `m_recv_buffer`. -/
  arrived : Bytes

namespace Upgrade

variable {P : Type}

/-- Note what an event reads. -/
def record (s : Upgrade P) : WebsocketEvent → Upgrade P
  | .read answers =>
    if !s.life.conn.connected && !s.life.conn.httpProcessed then
      { s with pieces := s.pieces ++ SockRecv.blocks answers }
    else s
  | .sock2buf answers =>
    let d := s.life.conn.toStaging.sock2buf answers
    { s with
      received := s.received ++ (d.used.map SockRecv.bytes).flatten
      arrived := s.arrived ++
        d.staging.recvBuffer.content.drop s.life.conn.recvBuffer.content.length }
  | _ => s

def next (h : HttpParser P) (accept : Bytes → AcceptKey) (s : Upgrade P) (e : WebsocketEvent) :
    Option (Upgrade P) :=
  (s.life.next h accept e).map fun life => { s.record e with life }

def start (life : WebsocketLife P) : Upgrade P :=
  { life, pieces := [], received := [], arrived := [] }

def system (h : HttpParser P) (accept : Bytes → AcceptKey) : System (Upgrade P) WebsocketEvent where
  init s := ∃ life, (WebsocketLife.system h accept).init life ∧ s = start life
  next := next h accept

/-- The bytes that have reached `m_recv_buffer`, with the block that waits for room in it. -/
def reached (s : Upgrade P) : Bytes := s.arrived ++ s.life.conn.toStaging.held

end Upgrade

/-! ## Steps that read nothing -/

namespace WebsocketConnection

variable {P : Type} {c c' c'' : WebsocketConnection P}

/-- What the callbacks have collected of the headers, and what was taken over from it. -/
def collected (c : WebsocketConnection P) : HeaderMap × Bytes × Bytes × Bytes :=
  (c.headers, c.headFiledTmp, c.secWebsocketKey, c.secWebsocketVersion)

/-- Nothing is read and the parser is not used. -/
structure ReadsNothing (c c' : WebsocketConnection P) : Prop where
  receiving : c.toStaging.Receiving → c'.toStaging.Receiving
  held : c'.toStaging.held = c.toStaging.held
  httpParser : c'.httpParser = c.httpParser
  httpProcessed : c'.httpProcessed = c.httpProcessed
  everythingEnd : c'.everythingEnd = c.everythingEnd ∨ c'.everythingEnd = true ∧ c.httpProcessed = true
  collected : c.httpProcessed = false → c'.collected = c.collected

theorem ReadsNothing.of_staging (hrecv : c'.recvBuffer = c.recvBuffer)
    (hinner : c'.sock2bufInnerBuffer = c.sock2bufInnerBuffer)
    (hlen : c'.sock2bufDataLen = c.sock2bufDataLen) (hparser : c'.httpParser = c.httpParser)
    (hprocessed : c'.httpProcessed = c.httpProcessed)
    (hend : c'.everythingEnd = c.everythingEnd ∨ c'.everythingEnd = true ∧ c.httpProcessed = true)
    (hcollected : c.httpProcessed = false → c'.collected = c.collected) : ReadsNothing c c' := by
  refine ⟨fun h => ⟨hrecv ▸ h.wf, hrecv ▸ h.limit, hlen ▸ h.dataLen⟩, ?_, hparser, hprocessed, hend,
    hcollected⟩
  simp only [Staging.held, hinner, hlen]

theorem ReadsNothing.refl (c : WebsocketConnection P) : ReadsNothing c c :=
  ⟨id, rfl, rfl, rfl, Or.inl rfl, fun _ => rfl⟩

theorem ReadsNothing.of_recvBuffer (c : WebsocketConnection P) {b : Buffer}
    (hb : c.recvBuffer.Wf → b.Wf ∧ b.limitMax = c.recvBuffer.limitMax) :
    ReadsNothing c (c.setRecvBuffer b) := by
  refine ⟨fun h => ?_, rfl, rfl, rfl, Or.inl rfl, fun _ => rfl⟩
  obtain ⟨hWf, hL⟩ := hb h.wf
  exact ⟨hWf, hL ▸ h.limit, h.dataLen⟩

theorem readsNothing_markClose (c : WebsocketConnection P) : ReadsNothing c c.markClose.2 := by
  unfold markClose
  split
  · have hlimit : Buffer.initSize ≤ memBufferSizeMax := by decide
    exact ⟨fun h => ⟨Buffer.wf_clear _, hlimit, h.dataLen⟩, rfl, rfl, rfl, Or.inl rfl, fun _ => rfl⟩
  · exact .refl c

theorem readsNothing_queue (c : WebsocketConnection P) (bytes : Bytes) :
    ReadsNothing c (c.queue bytes).2 := by
  unfold queue
  generalize c.watingSendPack.write (some bytes) = r
  rcases r with ⟨_ | n, b⟩ <;> exact .of_staging rfl rfl rfl rfl rfl (Or.inl rfl) fun _ => rfl

theorem readsNothing_appAct (c : WebsocketConnection P) (act : WebsocketAppAct) :
    ReadsNothing c (c.appAct act) := by
  cases act with
  | canReadableSize =>
    refine .of_recvBuffer c fun hWf => ?_
    obtain ⟨b, hRun, hWf', -, hL⟩ := Buffer.canReadableSize_spec hWf
    rw [hRun]
    exact ⟨hWf', hL⟩
  | forceGetReadPtr =>
    refine .of_recvBuffer c fun hWf => ?_
    obtain ⟨data, b, hRun, -, hWf', -, hL⟩ := Buffer.forceGetReadPtr_spec hWf
    rw [hRun]
    exact ⟨hWf', hL⟩
  | readPtrMoveN n =>
    refine .of_recvBuffer c fun hWf => ?_
    obtain ⟨b, hRun, hWf', -, hL⟩ := Buffer.readPtrMoveN_spec hWf n
    rw [hRun]
    exact ⟨hWf', hL⟩
  | markClose => exact readsNothing_markClose c

theorem buf2sockStep_recv (s : Staging) (out : Staging.Outside) (pc : Staging.Buf2sockPc) :
    (s.buf2sockStep out pc).1.recvBuffer = s.recvBuffer ∧
      (s.buf2sockStep out pc).1.sock2bufInnerBuffer = s.sock2bufInnerBuffer ∧
      (s.buf2sockStep out pc).1.sock2bufDataLen = s.sock2bufDataLen := by
  cases pc with
  | tag4 =>
    rcases out with ⟨_ | errno, callback⟩
    · rename_i k
      cases k <;> grind [Staging.buf2sockStep, Staging.offer]
    · cases errno <;> exact ⟨rfl, rfl, rfl⟩
  | _ => grind [Staging.buf2sockStep]

theorem readsNothing_buf2sockStep (c : WebsocketConnection P) (out : Staging.Outside)
    (pc : Staging.Buf2sockPc) :
    ReadsNothing c { c with toStaging := (c.toStaging.buf2sockStep out pc).1 } := by
  obtain ⟨hrecv, hinner, hlen⟩ := buf2sockStep_recv c.toStaging out pc
  exact .of_staging hrecv hinner hlen rfl rfl (Or.inl rfl) fun _ => rfl

theorem ReadsNothing.trans (h : ReadsNothing c c') (h' : ReadsNothing c' c'') : ReadsNothing c c'' := by
  refine ⟨fun hc => h'.receiving (h.receiving hc), h'.held.trans h.held,
    h'.httpParser.trans h.httpParser, h'.httpProcessed.trans h.httpProcessed, ?_, fun hopen =>
    (h'.collected (h.httpProcessed.trans hopen)).trans (h.collected hopen)⟩
  rcases h'.everythingEnd with hsame | ⟨hend, hprocessed⟩
  · rw [hsame]
    exact h.everythingEnd
  · exact Or.inr ⟨hend, h.httpProcessed ▸ hprocessed⟩

end WebsocketConnection

namespace WebsocketLife

variable {P : Type} {h : HttpParser P} {accept : Bytes → AcceptKey} {s s' : WebsocketLife P}

/-- The response is queued or about to be. -/
def Responding (s : WebsocketLife P) : Prop :=
  s.conn.connected = true ∨ s.pc = .responding ∨ s.pc = .responded

/-- A step that reads nothing and responds only to a request that is complete. -/
structure Quiescent (s s' : WebsocketLife P) : Prop where
  reads : s.conn.ReadsNothing s'.conn
  responding : s'.Responding →
    s.Responding ∨ s.conn.httpProcessed = true ∧ s.conn.everythingEnd = false

theorem Quiescent.of_pc (hreads : s.conn.ReadsNothing s'.conn)
    (hconn : s'.conn.connected = s.conn.connected)
    (hpc : s'.pc = s.pc ∨ s'.pc ≠ .responding ∧ s'.pc ≠ .responded) : Quiescent s s' := by
  refine ⟨hreads, fun hresponding => Or.inl ?_⟩
  rcases hresponding with hconn' | hpc'
  · exact Or.inl (hconn.symm.trans hconn')
  · rcases hpc with hsame | ⟨hne, hne'⟩
    · exact Or.inr (hsame ▸ hpc')
    · exact absurd hpc' (by simp [hne, hne'])

theorem markClose_connected (c : WebsocketConnection P) : c.markClose.2.connected = c.connected :=
  (WebsocketConnection.keeps_markClose c).connected

theorem quiescent_close (s : WebsocketLife P) {pc : WebsocketPc}
    (hpc : pc = s.pc ∨ pc ≠ .responding ∧ pc ≠ .responded) : Quiescent s (s.close pc) :=
  .of_pc (WebsocketConnection.readsNothing_markClose s.conn) (markClose_connected s.conn) hpc

/-- What follows the read loop reads nothing and does not respond. -/
theorem readDone_reads (s : WebsocketLife P) (c : WebsocketConnection P) :
    c.ReadsNothing (s.readDone c).conn ∧ (s.readDone c).conn.connected = c.connected ∧
      (s.readDone c).pc ≠ .responding ∧ (s.readDone c).pc ≠ .responded := by
  unfold readDone
  split
  · exact ⟨.refl c, rfl, by simp, by simp⟩
  · split
    · exact ⟨WebsocketConnection.readsNothing_markClose c, markClose_connected c, by simp, by simp⟩
    · exact ⟨.refl c, rfl, by simp, by simp⟩

theorem quiescent_queue (s : WebsocketLife P) (bytes : Bytes) {pc : WebsocketPc}
    (writing : Nat → Option Broadcast) (hpc : pc = s.pc ∨ pc ≠ .responding ∧ pc ≠ .responded) :
    Quiescent s (s.queue bytes pc writing) := by
  refine .of_pc (WebsocketConnection.readsNothing_queue s.conn bytes) ?_ hpc
  simp only [queue, WebsocketConnection.queue]
  generalize s.conn.watingSendPack.write (some bytes) = r
  rcases r with ⟨_ | n, b⟩ <;> rfl

theorem quiescent_sent (s : WebsocketLife P) (out : Staging.Outside) (pc : Staging.Buf2sockPc) :
    Quiescent s (sent { s with
      conn := { s.conn with toStaging := (s.conn.toStaging.buf2sockStep out pc).1 } }
      (s.conn.toStaging.buf2sockStep out pc).2.1) := by
  have hreads := WebsocketConnection.readsNothing_buf2sockStep s.conn out pc
  generalize s.conn.toStaging.buf2sockStep out pc = r at hreads ⊢
  obtain ⟨staging, pc', bytes⟩ := r
  have hclosed := hreads.trans (WebsocketConnection.readsNothing_markClose _)
  cases pc' with
  | done ret closed =>
    cases closed with
    | true => exact .of_pc hclosed (markClose_connected _) (by simp [sent, close])
    | false => cases ret <;> exact .of_pc hreads rfl (by simp [sent])
  | _ => exact .of_pc hreads rfl (by simp [sent])

/-- The steps other than the loop of the handshake and `sock2buf`. -/
theorem next_quiescent {e : WebsocketEvent} (hnext : next h accept s e = some s')
    (hread : ∀ answers, e = .read answers → s.conn.connected = true ∨ s.conn.httpProcessed = true)
    (hsock : ∀ answers, e ≠ .sock2buf answers) : Quiescent s s' := by
  have hsame : s.conn.ReadsNothing s.conn := .refl _
  cases step_of_next hnext with
  | received hpc | peerClosed hpc => exact absurd rfl (hsock _)
  | @readRequest answers hpc hconn hopen =>
    rcases hread answers rfl with hconn' | hprocessed
    · exact nomatch hconn.symm.trans hconn'
    · exact nomatch hopen.symm.trans hprocessed
  | readConnected hpc hconn =>
    obtain ⟨hreads, hconn, hpc⟩ := s.readDone_reads s.conn
    exact .of_pc hreads hconn (Or.inr hpc)
  | waiting hpc | otherSendRefused hpc => exact .of_pc hsame rfl (Or.inl rfl)
  | removed hpc | admitted hpc => exact .of_pc hsame rfl (by simp)
  | examined hpc | checkConnected hpc | checkRefused hpc => exact .of_pc hsame rfl (by simp)
  | send hpc | sendRefused hpc | processed hpc => exact .of_pc hsame rfl (by simp)
  | wait hpc | otherSend hpc => exact .of_pc hsame rfl (by simp)
  | sslFailed hpc | readRejected hpc => exact s.quiescent_close (by simp)
  | thrown hpc | finish hpc | otherMarkClose hpc => exact s.quiescent_close (by simp)
  | reject hpc hconn hprocessed hend =>
    -- nothing is taken over before the request is complete
    have hdone : ∀ {c : WebsocketConnection P}, s.conn.httpProcessed = false →
        c.collected = s.conn.collected := fun hopen => nomatch hprocessed.symm.trans hopen
    exact .of_pc (.of_staging rfl rfl rfl rfl rfl (Or.inr ⟨rfl, hprocessed⟩) hdone) rfl (by simp)
  | answer hpc hconn hprocessed hend =>
    have hdone : ∀ {c : WebsocketConnection P}, s.conn.httpProcessed = false →
        c.collected = s.conn.collected := fun hopen => nomatch hprocessed.symm.trans hopen
    exact ⟨.of_staging rfl rfl rfl rfl rfl (Or.inl rfl) hdone, fun _ => Or.inr ⟨hprocessed, hend⟩⟩
  | respond hpc =>
    exact ⟨WebsocketConnection.readsNothing_queue s.conn _, fun _ => Or.inl (Or.inr (Or.inl hpc))⟩
  | setConnected hpc =>
    exact ⟨.of_staging rfl rfl rfl rfl rfl (Or.inl rfl) fun _ => rfl,
      fun _ => Or.inl (Or.inr (Or.inr hpc))⟩
  | @act act hpc =>
    exact .of_pc (WebsocketConnection.readsNothing_appAct s.conn act)
      (WebsocketConnection.keeps_appAct s.conn act).connected (by simp)
  | write hpc | otherWrite hframe => exact s.quiescent_queue _ _ (by simp)
  | @buf2sock out pc hpc => exact s.quiescent_sent out pc

end WebsocketLife

/-! ## The account -/

namespace Upgrade

variable {P : Type} {h : HttpParser P} {accept : Bytes → AcceptKey} {s s' : Upgrade P}

/-- The connection was ended, or the parser got all that was read for the handshake. -/
def Parsed (c : WebsocketConnection P) (fed : P × Recording) : Prop :=
  c.everythingEnd = true ∧ c.httpProcessed = true ∨
    c.everythingEnd = false ∧ c.httpParser = fed.1 ∧ c.httpProcessed = fed.2.2

theorem Parsed.keep {c c' : WebsocketConnection P} {fed : P × Recording} (hc : Parsed c fed)
    (hreads : c.ReadsNothing c') : Parsed c' fed := by
  unfold Parsed
  rw [hreads.httpProcessed, hreads.httpParser]
  rcases hreads.everythingEnd with hsame | ⟨hend, hprocessed⟩
  · rw [hsame]
    exact hc
  · exact Or.inl ⟨hend, hprocessed⟩

/-- What the callbacks that were recorded have collected, where nothing was taken over yet. -/
def collectedOf (r : Recorded) : HeaderMap × Bytes × Bytes × Bytes :=
  (HeaderMap.ofList r.headers, r.fieldTmp, [], [])

/-- The parser and the record after what was read for the handshake. -/
def fed (h : HttpParser P) (s : Upgrade P) : P × Recording :=
  h.feed websocketRecorder h.init (.empty, false) s.pieces

structure Inv (h : HttpParser P) (accept : Bytes → AcceptKey) (s : Upgrade P) : Prop where
  life : WebsocketLife.Inv accept s.life
  receiving : s.life.conn.toStaging.Receiving
  bytes : s.reached = s.received
  parsed : Parsed s.life.conn (s.fed h)
  responding : s.life.Responding → (s.fed h).2.2 = true
  collected : s.life.conn.httpProcessed = false →
    s.life.conn.collected = collectedOf (s.fed h).2.1

theorem inv_start (socketPtr : Option Nat) (gid : Nat) (c : WebsocketConnection P) :
    Inv h accept (start (.start h.init socketPtr gid c)) := by
  have hreceiving := (Staging.recvSound_reuse c.toStaging).receiving
  have hheld : c.toStaging.reuse.held = [] := Staging.held_of_nonpos (Int.le_refl 0)
  refine ⟨WebsocketLife.inv_start h.init socketPtr gid c, hreceiving, hheld,
    Or.inr ⟨rfl, rfl, rfl⟩, ?_, fun _ => rfl⟩
  rintro (hconn | hpc | hpc)
  · cases hconn
  · cases hpc
  · cases hpc

/-- A step that reads nothing keeps the account. -/
theorem Inv.quiescent (hs : Inv h accept s) {life : WebsocketLife P}
    (hlife : WebsocketLife.Inv accept life) (hquiescent : s.life.Quiescent life) :
    Inv h accept { s with life } := by
  obtain ⟨hreads, hresponding⟩ := hquiescent
  refine ⟨hlife, hreads.receiving hs.receiving, ?_, hs.parsed.keep hreads, fun hresp => ?_,
    fun hopen => ?_⟩
  · show s.arrived ++ life.conn.toStaging.held = s.received
    rw [hreads.held]
    exact hs.bytes
  · show (s.fed h).2.2 = true
    rcases hresponding hresp with hbefore | ⟨hprocessed, hopen⟩
    · exact hs.responding hbefore
    · rcases hs.parsed with ⟨hend, -⟩ | ⟨-, -, hrecorded⟩
      · exact absurd (hopen.symm.trans hend) (by decide)
      · exact hrecorded.symm.trans hprocessed
  · have hopen' : s.life.conn.httpProcessed = false := hreads.httpProcessed.symm.trans hopen
    exact (hreads.collected hopen').trans (hs.collected hopen')

/-- The connection has what was recorded. -/
structure HasRecorded (c : WebsocketConnection P) (r : Recording) : Prop where
  everythingEnd : c.everythingEnd = false
  httpProcessed : c.httpProcessed = r.2
  collected : c.collected = collectedOf r.1

/-- What the callbacks do to the connection is what they do to the record. -/
theorem callback_recorded (c : WebsocketConnection P) (r : Recording) (e : ParserEvent)
    (hc : HasRecorded c r) :
    (c.callback e).1 = (websocketRecorder r e).1 ∧
      HasRecorded (c.callback e).2 (websocketRecorder r e).2 := by
  obtain ⟨hend, hprocessed, hcollected⟩ := hc
  simp only [WebsocketConnection.collected, collectedOf, Prod.mk.injEq] at hcollected
  obtain ⟨hheaders, htmp, hkey, hversion⟩ := hcollected
  cases e with
  | headerValue data =>
    refine ⟨rfl, hend, by simp [websocketRecorder, recorder, websocketEnds,
      WebsocketConnection.callback, WebsocketConnection.addHeader, hprocessed], ?_⟩
    simp [WebsocketConnection.callback, WebsocketConnection.addHeader, websocketRecorder, recorder,
      WebsocketConnection.collected, collectedOf, Recorded.add,
      HeaderMap.ofList_append_singleton, hheaders, htmp, hkey, hversion]
  | _ =>
    refine ⟨rfl, hend, by simp [websocketRecorder, recorder, websocketEnds,
      WebsocketConnection.callback, hprocessed], ?_⟩
    simp [WebsocketConnection.callback, websocketRecorder, recorder, WebsocketConnection.collected,
      collectedOf, Recorded.add, hheaders, htmp, hkey, hversion]

/-- Until the request is complete, the parser has got all that was read. -/
theorem Inv.reading (hs : Inv h accept s) (hopen : s.life.conn.httpProcessed = false) :
    s.life.conn.everythingEnd = false ∧ s.life.conn.httpParser = (s.fed h).1 ∧
      s.life.conn.httpProcessed = (s.fed h).2.2 := by
  rcases hs.parsed with ⟨-, hprocessed⟩ | hreading
  · exact absurd (hopen.symm.trans hprocessed) (by decide)
  · exact hreading

/-- The loop of the handshake ends the connection, or the parser got all that was read. -/
theorem readLoop_recorded (hs : Inv h accept s) (hopen : s.life.conn.httpProcessed = false)
    (answers : List (SockRecv httpBufferSize)) {c : WebsocketConnection P}
    (hc : c = readLoop h { s.life.conn with bufferUsedLen := 0 } answers) {fed : P × Recording}
    (hfed : fed = h.feed websocketRecorder h.init (.empty, false)
      (s.pieces ++ SockRecv.blocks answers)) :
    c.everythingEnd = true ∧ c.httpProcessed = true ∨ c.httpParser = fed.1 ∧ HasRecorded c fed.2 := by
  obtain ⟨hend, hparser, hrecorded⟩ := hs.reading hopen
  rw [HttpParser.feed_append, show h.feed websocketRecorder h.init (.empty, false) s.pieces = s.fed h
    from rfl, ← hparser] at hfed
  have hsim := WebsocketConnection.readLoop_sim (h := h) callback_recorded
    (fun hc _ _ _ _ _ => { hc with }) (c := { s.life.conn with bufferUsedLen := 0 })
    (d := (s.fed h).2) ⟨hend, hrecorded, hs.collected hopen⟩ answers
  rw [hc, hfed]
  rcases hsim with ⟨hended, hprocessed, -⟩ | hrest
  · exact Or.inl ⟨hended, hprocessed⟩
  · exact Or.inr hrest

/-- The loop of the handshake. -/
theorem Inv.read (hs : Inv h accept s) (hconn : s.life.conn.connected = false)
    (hopen : s.life.conn.httpProcessed = false) {answers : List (SockRecv httpBufferSize)}
    (hlife : WebsocketLife.Inv accept
      (s.life.readDone (readLoop h { s.life.conn with bufferUsedLen := 0 } answers))) :
    Inv h accept { s with
      life := s.life.readDone (readLoop h { s.life.conn with bufferUsedLen := 0 } answers)
      pieces := s.pieces ++ SockRecv.blocks answers } := by
  have huntouched : s.life.conn.Untouched { s.life.conn with bufferUsedLen := 0 } := ⟨rfl, rfl, rfl⟩
  have hloop := WebsocketConnection.readLoop_untouched h huntouched answers
  have hsim := readLoop_recorded hs hopen answers rfl rfl
  generalize readLoop h { s.life.conn with bufferUsedLen := 0 } answers = c at hlife hloop hsim ⊢
  have hparsed : Parsed c
      (h.feed websocketRecorder h.init (.empty, false) (s.pieces ++ SockRecv.blocks answers)) := by
    rcases hsim with hended | ⟨hparser, hrecorded⟩
    · exact Or.inl hended
    · exact Or.inr ⟨hrecorded.everythingEnd, hparser, hrecorded.httpProcessed⟩
  obtain ⟨hreads, hconn', hpc, hpc'⟩ := s.life.readDone_reads c
  refine ⟨hlife, hreads.receiving (hloop.staging ▸ hs.receiving), ?_, hparsed.keep hreads, ?_,
    fun hwait => ?_⟩
  · show s.arrived ++ (s.life.readDone c).conn.toStaging.held = s.received
    rw [hreads.held, hloop.staging]
    exact hs.bytes
  · rintro (hresp | hresp | hresp)
    · rw [hconn', hloop.connected, hconn] at hresp
      cases hresp
    · exact absurd hresp hpc
    · exact absurd hresp hpc'
  · have hwait' : c.httpProcessed = false := hreads.httpProcessed.symm.trans hwait
    rcases hsim with ⟨-, hprocessed⟩ | ⟨-, hrecorded⟩
    · exact nomatch hwait'.symm.trans hprocessed
    · exact (hreads.collected hwait').trans hrecorded.collected

/-- `sock2buf` appends to `m_recv_buffer` what it received, up to what is held. -/
theorem sock2buf_reached {staging : Staging} (hreceiving : staging.Receiving) (answers : List SockRecv) :
    (staging.sock2buf answers).staging.Receiving ∧
      (staging.sock2buf answers).staging.recvBuffer.content.drop staging.recvBuffer.content.length ++
          (staging.sock2buf answers).staging.held =
        staging.held ++ ((staging.sock2buf answers).used.map SockRecv.bytes).flatten := by
  rcases Staging.sock2buf_arrives hreceiving answers with harrives | ⟨-, -, b, hWf, hL, hC, hrun⟩
  · obtain ⟨arrived, hC, hbytes⟩ := harrives.bytes
    refine ⟨harrives.receiving, ?_⟩
    rw [hC, List.drop_left, hbytes]
  · have hheld : Staging.held { staging with recvBuffer := b } = staging.held := rfl
    rw [hrun]
    refine ⟨⟨hWf, hL ▸ hreceiving.limit, hreceiving.dataLen⟩, ?_⟩
    simp [hC, hheld]

theorem Inv.sock2buf (hs : Inv h accept s) {answers : List SockRecv} {life : WebsocketLife P}
    (hlife : WebsocketLife.Inv accept life)
    (hnext : s.life.next h accept (.sock2buf answers) = some life) :
    Inv h accept { s.record (.sock2buf answers) with life } := by
  obtain ⟨hreceiving, hbytes⟩ := sock2buf_reached hs.receiving answers
  let c : WebsocketConnection P :=
    { s.life.conn with toStaging := (s.life.conn.toStaging.sock2buf answers).staging }
  obtain ⟨hreads, hconn⟩ : c.ReadsNothing life.conn ∧ life.conn.connected = c.connected ∧
      life.pc ≠ .responding ∧ life.pc ≠ .responded := by
    cases WebsocketLife.step_of_next hnext with
    | received hpc => exact ⟨.refl c, rfl, by simp, by simp⟩
    | peerClosed hpc =>
      exact ⟨WebsocketConnection.readsNothing_markClose c, WebsocketLife.markClose_connected c,
        by simp [WebsocketLife.close], by simp [WebsocketLife.close]⟩
  have hparsed : Parsed c (s.fed h) := hs.parsed
  refine ⟨hlife, hreads.receiving hreceiving, ?_, hparsed.keep hreads, ?_, fun hopen => ?_⟩
  · show s.arrived ++ _ ++ life.conn.toStaging.held = s.received ++ _
    rw [hreads.held, List.append_assoc, hbytes, ← List.append_assoc]
    congr 1
    exact hs.bytes
  · rintro (hresp | hresp | hresp)
    · exact hs.responding (Or.inl (hconn.1.symm.trans hresp))
    · exact absurd hresp hconn.2.1
    · exact absurd hresp hconn.2.2
  · have hopen' : s.life.conn.httpProcessed = false := hreads.httpProcessed.symm.trans hopen
    exact (hreads.collected hopen').trans (hs.collected hopen')

/-- A run that reads the request. -/
theorem next_read (hopen : s.life.conn.connected = false ∧ s.life.conn.httpProcessed = false)
    {answers : List (SockRecv httpBufferSize)} (hnext : next h accept s (.read answers) = some s') :
    s' = { s with
      life := s.life.readDone (readLoop h { s.life.conn with bufferUsedLen := 0 } answers)
      pieces := s.pieces ++ SockRecv.blocks answers } := by
  obtain ⟨life, hstep, rfl⟩ := Option.map_eq_some_iff.mp hnext
  cases WebsocketLife.step_of_next hstep with
  | readRequest hpc => simp [record, hopen]
  | readRejected hpc hconn hprocessed => exact nomatch hprocessed.symm.trans hopen.2
  | readConnected hpc hconn => exact nomatch hconn.symm.trans hopen.1

/-- A run that has read it before. -/
theorem record_read (hclosed : ¬(s.life.conn.connected = false ∧ s.life.conn.httpProcessed = false))
    (answers : List (SockRecv httpBufferSize)) : s.record (.read answers) = s := by
  simp only [record]
  rw [if_neg (by simpa using hclosed)]

theorem inv_next (hs : Inv h accept s) {e : WebsocketEvent} (hnext : next h accept s e = some s') :
    Inv h accept s' := by
  obtain ⟨life, hstep, rfl⟩ := Option.map_eq_some_iff.mp hnext
  have hlife := WebsocketLife.inv_next hs.life hstep
  cases e with
  | sock2buf answers => exact hs.sock2buf hlife hstep
  | read answers =>
    by_cases hopen : s.life.conn.connected = false ∧ s.life.conn.httpProcessed = false
    · have hread := next_read hopen hnext
      have hsame : life = s.life.readDone
          (readLoop h { s.life.conn with bufferUsedLen := 0 } answers) := congrArg Upgrade.life hread
      rw [hsame] at hlife
      rw [hread]
      exact hs.read hopen.1 hopen.2 hlife
    · have hquiescent := WebsocketLife.next_quiescent hstep
        (fun _ _ => by simpa [or_iff_not_imp_left] using hopen) (fun _ he => by cases he)
      rw [record_read hopen]
      exact hs.quiescent hlife hquiescent
  | _ =>
    exact hs.quiescent hlife (WebsocketLife.next_quiescent hstep (fun _ he => by cases he)
      (fun _ he => by cases he))

theorem inv_reachable (hreach : (system h accept).Reachable s) : Inv h accept s := by
  refine hreach.invariant (P := Inv h accept) ?_ fun t e t' _ hinv hnext => inv_next hinv hnext
  rintro t ⟨life, ⟨socketPtr, gid, c, rfl⟩, rfl⟩
  exact inv_start socketPtr gid c

/-- A request is taken as complete only when its headers are. -/
theorem headersComplete_of_fed (hdoc : h.Documented) (hdone : (s.fed h).2.2 = true) :
    .headersComplete ∈ h.callbacks h.init s.pieces := by
  by_contra hno
  have hall : (h.callbacks h.init s.pieces).takeWhile (· ≠ .headersComplete) =
      h.callbacks h.init s.pieces :=
    List.takeWhile_eq_self_iff.mpr fun e he => decide_eq_true fun heq => hno (heq ▸ he)
  have hmessage := hdoc.headersFirst s.pieces
  rw [hall] at hmessage
  have hends : ∀ e ∈ h.callbacks h.init s.pieces, websocketEnds e = false := by
    intro e he
    have hne : e ≠ .headersComplete ∧ e ≠ .messageComplete := by
      constructor <;> rintro rfl <;> contradiction
    simp [websocketEnds, hne]
  have hflag := (@recorder_before (fun _ => websocketReply) _ _ hends .empty 0).1
  rw [fed, HttpParser.feed_eq hdoc] at hdone
  exact absurd (hflag.symm.trans hdone) (by decide)

/-- Once the response is queued, the loop of the handshake has read the request. -/
theorem request_read (hdoc : h.Documented) {request rest : Bytes} (hrequest : h.Upgrades request)
    (hinv : Inv h accept s) {key : Bytes} (hqueued : handshakeResponse accept key ∈ s.life.accepted)
    (hstream : s.pieces.flatten ++ s.received = request ++ rest) :
    request <+: s.pieces.flatten := by
  have hresponding : s.life.Responding := by
    by_contra hno
    simp only [WebsocketLife.Responding, not_or, Bool.not_eq_true] at hno
    rw [(hinv.life.fresh hno.1 hno.2.2).1] at hqueued
    cases hqueued
  have hcomplete := headersComplete_of_fed hdoc (hinv.responding hresponding)
  rcases Nat.lt_or_ge s.pieces.flatten.length request.length with hlt | hge
  · have hpre : s.pieces.flatten <+: request :=
      List.prefix_of_prefix_length_le ⟨s.received, hstream⟩ ⟨rest, rfl⟩ (Nat.le_of_lt hlt)
    exact absurd hcomplete (hrequest.notBefore s.pieces hlt hpre)
  · exact List.prefix_of_prefix_length_le ⟨rest, rfl⟩ ⟨s.received, hstream⟩ hge

/-- **Bytes behind the request.** Let a request for an upgrade and `rest` be what was read from the
socket, cut in any way, and the response queued. Then what has reached `m_recv_buffer` is `rest`
exactly when the loop of the handshake read the request and nothing behind it. What it read behind
the request is what is missing. -/
theorem upgrade_loses_nothing_iff (hdoc : h.Documented) {request rest : Bytes}
    (hrequest : h.Upgrades request) (hreach : (system h accept).Reachable s) {key : Bytes}
    (hqueued : handshakeResponse accept key ∈ s.life.accepted)
    (hstream : s.pieces.flatten ++ s.received = request ++ rest) :
    (s.reached = rest ↔ s.pieces.flatten = request) ∧
      ∃ behind, s.pieces.flatten = request ++ behind ∧ rest = behind ++ s.reached := by
  have hinv := inv_reachable hreach
  obtain ⟨behind, hbehind⟩ := request_read hdoc hrequest hinv hqueued hstream
  have hrest : rest = behind ++ s.reached := by
    rw [← hbehind, List.append_assoc] at hstream
    rw [hinv.bytes]
    exact (List.append_cancel_left hstream).symm
  refine ⟨?_, behind, hbehind.symm, hrest⟩
  rw [← hbehind, hrest, List.self_eq_append_left, List.append_right_eq_self]

/-- A request for an upgrade, and a frame. -/
def upgradeRequest : Bytes :=
  ascii "GET /ws HTTP/1.1\r\n" ++ ascii "Upgrade: websocket\r\n" ++ ascii "Connection: Upgrade\r\n" ++
    ascii "Sec-WebSocket-Key: k\r\n" ++ ascii "Sec-WebSocket-Version: 13\r\n\r\n"

def smallFrame : Bytes := [0x81, 0x01, 0x41]

theorem upgradeRequest_upgrades : upgradeParser.Upgrades upgradeRequest :=
  upgradeParser_upgrades (by decide +kernel) (by decide +kernel)

/-- A run in which the handshake gets the first block and `sock2buf` the answers behind it. -/
def upgradeRun (first : RecvBlock httpBufferSize) (more : List SockRecv) : List WebsocketEvent :=
  [.enter .notNeeded, .read [.block first], .examine, .respond, .setConnected, .check, .sock2buf more]

/-- A connection of the pool, prepared for a client. -/
def freshUpgrade : Upgrade LineState :=
  start (.start upgradeParser.init (some 3) 7 (.new (fun _ => 0) upgradeParser.init none))

theorem freshUpgrade_init : (system upgradeParser someKey).init freshUpgrade :=
  ⟨_, ⟨_, _, _, rfl⟩, rfl⟩

theorem upgrade_loses_nothing_apart : ∃ s : Upgrade LineState,
    (system upgradeParser someKey).Reachable s ∧
      handshakeResponse someKey (ascii "k") ∈ s.life.accepted ∧
      s.pieces.flatten ++ s.received = upgradeRequest ++ smallFrame ∧ s.reached = smallFrame := by
  have hrun : ((system upgradeParser someKey).exec freshUpgrade
      (upgradeRun ⟨upgradeRequest, by decide, by decide⟩
        [.block ⟨smallFrame, by decide, by decide⟩])).map
      (fun s => (s.life.accepted, s.pieces.flatten, s.received)) =
        some ([handshakeResponse someKey (ascii "k")], upgradeRequest, smallFrame) := by
    decide +kernel
  obtain ⟨s, hexec, hs⟩ := Option.map_eq_some_iff.1 hrun
  simp only [Prod.mk.injEq] at hs
  obtain ⟨haccepted, hpieces, hreceived⟩ := hs
  have hreach : (system upgradeParser someKey).Reachable s :=
    .run (.start freshUpgrade_init) (.of_exec hexec)
  have hqueued : handshakeResponse someKey (ascii "k") ∈ s.life.accepted := by simp [haccepted]
  have hstream : s.pieces.flatten ++ s.received = upgradeRequest ++ smallFrame := by
    rw [hpieces, hreceived]
  exact ⟨s, hreach, hqueued, hstream, (upgrade_loses_nothing_iff upgradeParser_documented
    upgradeRequest_upgrades hreach hqueued hstream).1.mpr hpieces⟩

/-- The request and a frame in one block: the frame is lost. -/
theorem upgrade_loses_frame :
    upgradeParser.Documented ∧ upgradeParser.Upgrades upgradeRequest ∧
    ∃ s : Upgrade LineState, (system upgradeParser someKey).Reachable s ∧
      handshakeResponse someKey (ascii "k") ∈ s.life.accepted ∧
      s.pieces.flatten ++ s.received = upgradeRequest ++ smallFrame ∧ s.reached ≠ smallFrame := by
  refine ⟨upgradeParser_documented, upgradeRequest_upgrades, ?_⟩
  have hrun : ((system upgradeParser someKey).exec freshUpgrade
      (upgradeRun ⟨upgradeRequest ++ smallFrame, by decide, by decide⟩ [])).map
      (fun s => (s.life.accepted, s.pieces.flatten ++ s.received, s.reached)) =
        some ([handshakeResponse someKey (ascii "k")], upgradeRequest ++ smallFrame, []) := by
    decide +kernel
  obtain ⟨s, hexec, hs⟩ := Option.map_eq_some_iff.1 hrun
  simp only [Prod.mk.injEq] at hs
  obtain ⟨haccepted, hstream, hreached⟩ := hs
  refine ⟨s, .run (.start freshUpgrade_init) (.of_exec hexec), by simp [haccepted], hstream, ?_⟩
  rw [hreached]
  decide

end Upgrade

end Tubekit
