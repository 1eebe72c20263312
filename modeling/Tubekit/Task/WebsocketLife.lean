import Tubekit.App.WebsocketApp
import Tubekit.Lib.Transition
import Tubekit.Task.Handshake

/-!
# The handshake comes first

A websocket connection is known to the other workers from its `on_new_connection` on, long before
its handshake. `WebsocketLife` is a connection from the accept loop to its removal: the steps of
`websocket_task::run` on it, the calls of `send` that other workers make for their broadcasts, and
`mark_close` from the main thread, in any order. A `send` passes its guard in one step and writes to
`m_wating_send_pack` in another. The loops that read the socket are one step each: they touch
nothing that `send` reads or writes. Broadcasts reach the connection through
`connection_mgr::if_exist`, so none of them is under way when the connection is removed.
-/

namespace Tubekit

open Lib Transition
open WebsocketConnection (handshakeResponse)

/-- A frame that `process_frame` sends, built by `send_packet`. -/
structure Broadcast where
  payload : Bytes
  fits : (packet (0x80 ||| websocketFrameType2N .textFrame 0) payload).length ≤ maxObjectSize

def Broadcast.bytes (b : Broadcast) : Bytes :=
  packet (0x80 ||| websocketFrameType2N .textFrame 0) b.payload

/-- The place reached in `websocket_task::run`. -/
inductive WebsocketPc where
  /-- No run is going on. -/
  | idle
  /-- Behind the checks for a closed connection and for SSL. -/
  | admitted
  /-- At `process connect protocol`. -/
  | connecting
  /-- Before `send` of the response. -/
  | responding
  /-- Before `set_connected(true)`. -/
  | responded
  /-- Before `if (get_connected())`. -/
  | checking
  /-- Before `sock2buf`. -/
  | data
  /-- Inside `process_connection`. -/
  | processing
  /-- Inside `process_connection`, in a `send` of its own behind the guard. -/
  | writing (frame : Broadcast)
  /-- Inside `buf2sock`. -/
  | sending (pc : Staging.Buf2sockPc)
  /-- Before `if (everything_end)`. -/
  | ending
  /-- The connection is given back to the pool. -/
  | removed

structure WebsocketLife (P : Type) where
  conn : WebsocketConnection P
  pc : WebsocketPc
  /-- The frame that another thread is about to write. -/
  writing : Nat → Option Broadcast
  /-- What `m_wating_send_pack` has accepted. -/
  accepted : List Bytes
  /-- `process_connection` has been called. -/
  processed : Bool

/-- What `websocket_app::process_connection` does to its connection, apart from `send`. -/
inductive WebsocketAppAct where
  | canReadableSize
  | forceGetReadPtr
  | readPtrMoveN (n : Nat)
  | markClose

inductive WebsocketEvent where
  | enter (ssl : SslAccept)
  | read (answers : List (SockRecv httpBufferSize))
  | examine
  | respond
  | setConnected
  | check
  | sock2buf (answers : List SockRecv)
  | act (act : WebsocketAppAct)
  | send (frame : Broadcast)
  | write
  | processed (throws : Bool)
  | buf2sock (out : Staging.Outside)
  | finish
  /-- Another thread calls `send` and goes through its guard. -/
  | otherSend (thread : Nat) (frame : Broadcast)
  | otherWrite (thread : Nat)
  | otherMarkClose

namespace WebsocketConnection

variable {P : Type}

def setRecvBuffer (c : WebsocketConnection P) (b : Buffer) : WebsocketConnection P :=
  { c with recvBuffer := b }

def appAct (c : WebsocketConnection P) : WebsocketAppAct → WebsocketConnection P
  | .canReadableSize => c.setRecvBuffer c.recvBuffer.canReadableSize.2
  | .forceGetReadPtr => c.setRecvBuffer c.recvBuffer.forceGetReadPtr.2
  | .readPtrMoveN n => c.setRecvBuffer (c.recvBuffer.readPtrMoveN n).2
  | .markClose => c.markClose.2

/-- The write of `send` to `m_wating_send_pack`; the result says whether it was accepted. -/
def queue (c : WebsocketConnection P) (bytes : Bytes) : Bool × WebsocketConnection P :=
  match c.watingSendPack.write (some bytes) with
  | (.ok _, b) => (true, { c with watingSendPack := b })
  | (.error _, b) => (false, { c with watingSendPack := b })

end WebsocketConnection

namespace WebsocketLife

variable {P : Type}

/-- A connection that the accept loop hands on. -/
def start (init : P) (socketPtr : Option Nat) (gid : Nat) (c : WebsocketConnection P) :
    WebsocketLife P :=
  { conn := ((c.reuse init).setSocketPtr socketPtr).setGid gid
    pc := .idle
    writing := fun _ => none
    accepted := []
    processed := false }

/-- The write of a `send`, and what follows it. -/
def queue (s : WebsocketLife P) (bytes : Bytes) (pc : WebsocketPc)
    (writing : Nat → Option Broadcast) : WebsocketLife P :=
  { s with
    conn := (s.conn.queue bytes).2
    pc
    writing
    accepted := if (s.conn.queue bytes).1 then s.accepted ++ [bytes] else s.accepted }

/-- `mark_close` and what follows it. -/
def close (s : WebsocketLife P) (pc : WebsocketPc) : WebsocketLife P :=
  { s with conn := s.conn.markClose.2, pc }

/-- What follows the read loop: wait for more, give up, or process the connect protocol. -/
def readDone (s : WebsocketLife P) (c : WebsocketConnection P) : WebsocketLife P :=
  if !c.httpProcessed && !c.everythingEnd then { s with conn := c, pc := .idle }
  else if !(c.httpProcessed && c.isUpgrade) then { s with conn := c.markClose.2, pc := .idle }
  else { s with conn := c, pc := .connecting }

/-- What follows `buf2sock`. -/
def sent (s : WebsocketLife P) : Staging.Buf2sockPc → WebsocketLife P
  | .done _ true => s.close .ending
  | .done true false => { s with pc := .idle }
  | .done false false => { s with pc := .ending }
  | pc => { s with pc := .sending pc }

def next (h : HttpParser P) (accept : Bytes → AcceptKey) (s : WebsocketLife P) :
    WebsocketEvent → Option (WebsocketLife P)
  | .enter ssl =>
    match s.pc with
    | .idle =>
      if s.conn.closeFlag then some { s with pc := .removed }
      else
        match ssl with
        | .waiting _ => some s
        | .failed => some (s.close .idle)
        | _ => some { s with pc := .admitted }
    | _ => none
  | .read answers =>
    match s.pc with
    | .admitted =>
      if s.conn.connected = false then
        if s.conn.httpProcessed then some (s.close .idle)
        else some (s.readDone (.readLoop h { s.conn with bufferUsedLen := 0 } answers))
      else some (s.readDone s.conn)
    | _ => none
  | .examine =>
    match s.pc with
    | .connecting =>
      if !s.conn.connected && s.conn.httpProcessed && !s.conn.everythingEnd then
        let c := s.conn.examine
        if c.secWebsocketKey = [] ∨ c.secWebsocketVersion ≠ ascii "13" then
          some { s with conn := { c with everythingEnd := true }, pc := .checking }
        else some { s with conn := c, pc := .responding }
      else some { s with pc := .checking }
    | _ => none
  | .respond =>
    match s.pc with
    | .responding =>
      some (s.queue (handshakeResponse accept s.conn.secWebsocketKey) .responded
        s.writing)
    | _ => none
  | .setConnected =>
    match s.pc with
    | .responded => some { s with conn := s.conn.setConnected true, pc := .checking }
    | _ => none
  | .check =>
    match s.pc with
    | .checking => some { s with pc := if s.conn.connected then .data else .ending }
    | _ => none
  | .sock2buf answers =>
    match s.pc with
    | .data =>
      let d := s.conn.toStaging.sock2buf answers
      let s := { s with conn := { s.conn with toStaging := d.staging } }
      if d.ret || d.needTask then some { s with pc := .processing, processed := true }
      else some (s.close .idle)
    | _ => none
  | .act act =>
    match s.pc with
    | .processing => some { s with conn := s.conn.appAct act }
    | _ => none
  | .send frame =>
    match s.pc with
    | .processing => some { s with pc := if s.conn.connected then .writing frame else .processing }
    | _ => none
  | .write =>
    match s.pc with
    | .writing frame => some (s.queue frame.bytes .processing s.writing)
    | _ => none
  | .processed throws =>
    match s.pc with
    | .processing => some (if throws then s.close .idle else { s with pc := .sending .tag1 })
    | _ => none
  | .buf2sock out =>
    match s.pc with
    | .sending pc =>
      let (staging, pc, _) := s.conn.toStaging.buf2sockStep out pc
      some ({ s with conn := { s.conn with toStaging := staging } }.sent pc)
    | _ => none
  | .finish =>
    match s.pc with
    | .ending => some (if s.conn.everythingEnd then s.close .idle else { s with pc := .idle })
    | _ => none
  | .otherSend thread frame =>
    match s.pc, s.writing thread with
    | .removed, _ => none
    | _, some _ => none
    | _, none =>
      some (if s.conn.connected then
        { s with writing := Function.update s.writing thread (some frame) } else s)
  | .otherWrite thread =>
    match s.writing thread with
    | some frame => some (s.queue frame.bytes s.pc (Function.update s.writing thread none))
    | none => none
  | .otherMarkClose =>
    match s.pc with
    | .removed => none
    | _ => some (s.close s.pc)

def system (h : HttpParser P) (accept : Bytes → AcceptKey) : System (WebsocketLife P) WebsocketEvent where
  init s := ∃ socketPtr gid c, s = start h.init socketPtr gid c
  next := next h accept

/-! ## What a step does -/

/-- The steps of `next`, one for each outcome. -/
inductive Step (h : HttpParser P) (accept : Bytes → AcceptKey) (s : WebsocketLife P) :
    WebsocketEvent → WebsocketLife P → Prop
  | removed {ssl : SslAccept} (hpc : s.pc = .idle) (hclosed : s.conn.closeFlag = true) :
    Step h accept s (.enter ssl) { s with pc := .removed }
  | waiting {listenSend : Bool} (hpc : s.pc = .idle) (hopen : s.conn.closeFlag = false) :
    Step h accept s (.enter (.waiting listenSend)) s
  | sslFailed (hpc : s.pc = .idle) (hopen : s.conn.closeFlag = false) :
    Step h accept s (.enter .failed) (s.close .idle)
  | admitted {ssl : SslAccept} (hpc : s.pc = .idle) (hopen : s.conn.closeFlag = false) :
    Step h accept s (.enter ssl) { s with pc := .admitted }
  | readRejected {answers : List (SockRecv httpBufferSize)} (hpc : s.pc = .admitted)
    (hconn : s.conn.connected = false) (hprocessed : s.conn.httpProcessed = true) :
    Step h accept s (.read answers) (s.close .idle)
  | readRequest {answers : List (SockRecv httpBufferSize)} (hpc : s.pc = .admitted)
    (hconn : s.conn.connected = false) (hopen : s.conn.httpProcessed = false) :
    Step h accept s (.read answers)
      (s.readDone (.readLoop h { s.conn with bufferUsedLen := 0 } answers))
  | readConnected {answers : List (SockRecv httpBufferSize)} (hpc : s.pc = .admitted)
    (hconn : s.conn.connected = true) :
    Step h accept s (.read answers) (s.readDone s.conn)
  | reject (hpc : s.pc = .connecting) (hconn : s.conn.connected = false)
    (hprocessed : s.conn.httpProcessed = true) (hend : s.conn.everythingEnd = false)
    (hbad : s.conn.examine.secWebsocketKey = [] ∨ s.conn.examine.secWebsocketVersion ≠ ascii "13") :
    Step h accept s .examine
      { s with conn := { s.conn.examine with everythingEnd := true }, pc := .checking }
  | answer (hpc : s.pc = .connecting) (hconn : s.conn.connected = false)
    (hprocessed : s.conn.httpProcessed = true) (hend : s.conn.everythingEnd = false)
    (hgood : ¬(s.conn.examine.secWebsocketKey = [] ∨
      s.conn.examine.secWebsocketVersion ≠ ascii "13")) :
    Step h accept s .examine { s with conn := s.conn.examine, pc := .responding }
  | examined (hpc : s.pc = .connecting)
    (hguard : (!s.conn.connected && s.conn.httpProcessed && !s.conn.everythingEnd) = false) :
    Step h accept s .examine { s with pc := .checking }
  | respond (hpc : s.pc = .responding) :
    Step h accept s .respond
      (s.queue (handshakeResponse accept s.conn.secWebsocketKey) .responded s.writing)
  | setConnected (hpc : s.pc = .responded) :
    Step h accept s .setConnected { s with conn := s.conn.setConnected true, pc := .checking }
  | checkConnected (hpc : s.pc = .checking) (hconn : s.conn.connected = true) :
    Step h accept s .check { s with pc := .data }
  | checkRefused (hpc : s.pc = .checking) (hconn : s.conn.connected = false) :
    Step h accept s .check { s with pc := .ending }
  | received {answers : List SockRecv} (hpc : s.pc = .data) :
    Step h accept s (.sock2buf answers) { s with
      conn := { s.conn with toStaging := (s.conn.toStaging.sock2buf answers).staging }
      pc := .processing
      processed := true }
  | peerClosed {answers : List SockRecv} (hpc : s.pc = .data) :
    Step h accept s (.sock2buf answers)
      (close { s with
        conn := { s.conn with toStaging := (s.conn.toStaging.sock2buf answers).staging } } .idle)
  | act {act : WebsocketAppAct} (hpc : s.pc = .processing) :
    Step h accept s (.act act) { s with conn := s.conn.appAct act }
  | send {frame : Broadcast} (hpc : s.pc = .processing) (hconn : s.conn.connected = true) :
    Step h accept s (.send frame) { s with pc := .writing frame }
  | sendRefused {frame : Broadcast} (hpc : s.pc = .processing) (hconn : s.conn.connected = false) :
    Step h accept s (.send frame) { s with pc := .processing }
  | write {frame : Broadcast} (hpc : s.pc = .writing frame) :
    Step h accept s .write (s.queue frame.bytes .processing s.writing)
  | thrown (hpc : s.pc = .processing) : Step h accept s (.processed true) (s.close .idle)
  | processed (hpc : s.pc = .processing) :
    Step h accept s (.processed false) { s with pc := .sending .tag1 }
  | buf2sock {out : Staging.Outside} {pc : Staging.Buf2sockPc} (hpc : s.pc = .sending pc) :
    Step h accept s (.buf2sock out)
      (sent { s with
        conn := { s.conn with toStaging := (s.conn.toStaging.buf2sockStep out pc).1 } }
        (s.conn.toStaging.buf2sockStep out pc).2.1)
  | finish (hpc : s.pc = .ending) (hend : s.conn.everythingEnd = true) :
    Step h accept s .finish (s.close .idle)
  | wait (hpc : s.pc = .ending) (hend : s.conn.everythingEnd = false) :
    Step h accept s .finish { s with pc := .idle }
  | otherSend {thread : Nat} {frame : Broadcast} (hpc : s.pc ≠ .removed)
    (hfree : s.writing thread = none) (hconn : s.conn.connected = true) :
    Step h accept s (.otherSend thread frame)
      { s with writing := Function.update s.writing thread (some frame) }
  | otherSendRefused {thread : Nat} {frame : Broadcast} (hpc : s.pc ≠ .removed)
    (hfree : s.writing thread = none) (hconn : s.conn.connected = false) :
    Step h accept s (.otherSend thread frame) s
  | otherWrite {thread : Nat} {frame : Broadcast} (hframe : s.writing thread = some frame) :
    Step h accept s (.otherWrite thread)
      (s.queue frame.bytes s.pc (Function.update s.writing thread none))
  | otherMarkClose (hpc : s.pc ≠ .removed) : Step h accept s .otherMarkClose (s.close s.pc)

theorem step_of_next {h : HttpParser P} {accept : Bytes → AcceptKey} {s s' : WebsocketLife P}
    {e : WebsocketEvent} (hnext : next h accept s e = some s') : Step h accept s e s' := by
  cases e with
  | enter ssl =>
    simp only [next] at hnext
    split at hnext
    · next hpc =>
      split at hnext
      · next hclosed =>
        cases hnext
        exact .removed hpc hclosed
      · next hopen =>
        rw [Bool.not_eq_true] at hopen
        cases ssl with
        | waiting =>
          cases hnext
          exact .waiting hpc hopen
        | failed =>
          cases hnext
          exact .sslFailed hpc hopen
        | notNeeded | accepted =>
          cases hnext
          exact .admitted hpc hopen
    · cases hnext
  | read answers =>
    simp only [next] at hnext
    split at hnext
    · next hpc =>
      split at hnext
      · next hconn =>
        split at hnext
        · next hprocessed =>
          cases hnext
          exact .readRejected hpc hconn hprocessed
        · next hopen =>
          cases hnext
          exact .readRequest hpc hconn (Bool.not_eq_true _ ▸ hopen)
      · next hconn =>
        cases hnext
        exact .readConnected hpc (Bool.not_eq_false _ ▸ hconn)
    · cases hnext
  | examine =>
    simp only [next] at hnext
    split at hnext
    · next hpc =>
      split at hnext
      · next hguard =>
        simp only [Bool.and_eq_true, Bool.not_eq_true'] at hguard
        obtain ⟨⟨hconn, hprocessed⟩, hend⟩ := hguard
        split at hnext
        · next hbad =>
          cases hnext
          exact .reject hpc hconn hprocessed hend hbad
        · next hgood =>
          cases hnext
          exact .answer hpc hconn hprocessed hend hgood
      · next hguard =>
        cases hnext
        exact .examined hpc (Bool.not_eq_true _ ▸ hguard)
    · cases hnext
  | respond =>
    simp only [next] at hnext
    split at hnext
    · next hpc =>
      cases hnext
      exact .respond hpc
    · cases hnext
  | setConnected =>
    simp only [next] at hnext
    split at hnext
    · next hpc =>
      cases hnext
      exact .setConnected hpc
    · cases hnext
  | check =>
    simp only [next] at hnext
    split at hnext
    · next hpc =>
      cases hnext
      cases hconn : s.conn.connected with
      | true => exact .checkConnected hpc hconn
      | false => exact .checkRefused hpc hconn
    · cases hnext
  | sock2buf answers =>
    simp only [next] at hnext
    split at hnext
    · next hpc =>
      split at hnext
      · cases hnext
        exact .received hpc
      · cases hnext
        exact .peerClosed hpc
    · cases hnext
  | act act =>
    simp only [next] at hnext
    split at hnext
    · next hpc =>
      cases hnext
      exact .act hpc
    · cases hnext
  | send frame =>
    simp only [next] at hnext
    split at hnext
    · next hpc =>
      cases hnext
      cases hconn : s.conn.connected with
      | true => exact .send hpc hconn
      | false => exact .sendRefused hpc hconn
    · cases hnext
  | write =>
    simp only [next] at hnext
    split at hnext
    · next frame hpc =>
      cases hnext
      exact .write hpc
    · cases hnext
  | processed throws =>
    simp only [next] at hnext
    split at hnext
    · next hpc =>
      cases hnext
      cases throws with
      | true => exact .thrown hpc
      | false => exact .processed hpc
    · cases hnext
  | buf2sock out =>
    simp only [next] at hnext
    split at hnext
    · next pc hpc =>
      cases hnext
      exact .buf2sock hpc
    · cases hnext
  | finish =>
    simp only [next] at hnext
    split at hnext
    · next hpc =>
      cases hnext
      cases hend : s.conn.everythingEnd with
      | true => exact .finish hpc hend
      | false => exact .wait hpc hend
    · cases hnext
  | otherSend thread frame =>
    simp only [next] at hnext
    split at hnext
    · cases hnext
    · cases hnext
    · next hfree hpc =>
      cases hnext
      cases hconn : s.conn.connected with
      | true => exact .otherSend hpc hfree hconn
      | false => exact .otherSendRefused hpc hfree hconn
  | otherWrite thread =>
    simp only [next] at hnext
    split at hnext
    · next frame hframe =>
      cases hnext
      exact .otherWrite hframe
    · cases hnext
  | otherMarkClose =>
    simp only [next] at hnext
    split at hnext
    · cases hnext
    · next hpc =>
      cases hnext
      exact .otherMarkClose hpc

end WebsocketLife

/-! ## A run that no other thread gets into -/

namespace WebsocketConnection

variable {P : Type}

theorem queue_eq_send (c : WebsocketConnection P) (bytes : Bytes) :
    (c.queue bytes).2 = (c.send (some bytes) false).2 := by
  simp only [queue, send, Staging.send, Bool.false_and, Bool.false_eq_true, if_false]
  generalize c.watingSendPack.write (some bytes) = r
  rcases r with ⟨_ | n, b⟩
  · rfl
  · dsimp only
    split <;> rfl

end WebsocketConnection

namespace WebsocketLife

variable {P : Type} {h : HttpParser P} {accept : Bytes → AcceptKey} {s : WebsocketLife P}

theorem connect_steps (hpc : s.pc = .connecting) : ∃ events s',
    (system h accept).exec s events = some s' ∧ s'.pc = .checking ∧
      s'.conn = (s.conn.connect accept).2 := by
  by_cases hguard : (!s.conn.connected && s.conn.httpProcessed && !s.conn.everythingEnd) = true
  · by_cases hbad : s.conn.examine.secWebsocketKey = [] ∨ s.conn.examine.secWebsocketVersion ≠ ascii "13"
    · refine ⟨[.examine], { s with
        conn := { s.conn.examine with everythingEnd := true }, pc := .checking }, ?_, rfl, ?_⟩
      · simp [System.exec, system, next, hpc, hguard, hbad]
      · simp [WebsocketConnection.connect, hguard, hbad]
    · let response := handshakeResponse accept s.conn.examine.secWebsocketKey
      let asked : WebsocketLife P := { s with conn := s.conn.examine, pc := .responding }
      refine ⟨[.examine, .respond, .setConnected], { asked.queue response .responded s.writing with
        conn := (asked.queue response .responded s.writing).conn.setConnected true, pc := .checking },
        ?_, rfl, ?_⟩
      · simp [System.exec, system, next, hpc, hguard, hbad, queue, response, asked]
      · simp [WebsocketConnection.connect, hguard, hbad, WebsocketConnection.queue_eq_send, queue,
          response, asked]
  · refine ⟨[.examine], { s with pc := .checking }, ?_, rfl, ?_⟩
    · simp [System.exec, system, next, hpc, hguard]
    · simp [WebsocketConnection.connect, hguard]

/-- The life stands where a phase of `websocketRun` has ended, with its connection. -/
def Reaches (s : WebsocketLife P) : Endpoint.Phase P → Prop
  | .returned _ e => s.pc = .idle ∧ e = .websocket s.conn
  | .next _ e => s.pc = .checking ∧ e = .websocket s.conn

theorem respond_steps (answers : List (SockRecv httpBufferSize)) {c : WebsocketConnection P}
    (hread : next h accept s (.read answers) = some (s.readDone c)) :
    ∃ events s', (system h accept).exec s events = some s' ∧ s'.Reaches (c.respond accept) := by
  have hexec : (system h accept).exec s [.read answers] = some (s.readDone c) := by
    simp [System.exec, system, hread]
  unfold WebsocketConnection.respond
  by_cases hwait : (!c.httpProcessed && !c.everythingEnd) = true
  · rw [if_pos hwait]
    exact ⟨_, _, hexec, by simp [Reaches, readDone, hwait]⟩
  rw [if_neg hwait]
  by_cases hother : (!(c.httpProcessed && c.isUpgrade)) = true
  · rw [if_pos hother]
    refine ⟨_, _, hexec, ?_⟩
    simp only [readDone, if_neg hwait, if_pos hother]
    exact ⟨rfl, rfl⟩
  · have hconnecting : s.readDone c = { s with conn := c, pc := .connecting } := by
      simp [readDone, hwait, hother]
    obtain ⟨events, s', hsteps, hpc', hconn⟩ : ∃ events s',
        (system h accept).exec (s.readDone c) events = some s' ∧ s'.pc = .checking ∧
          s'.conn = ((s.readDone c).conn.connect accept).2 := connect_steps (by rw [hconnecting])
    rw [if_neg hother]
    refine ⟨.read answers :: events, s', ?_, hpc', ?_⟩
    · rw [← List.singleton_append, System.exec_append hexec, hsteps]
    · rw [hconn, hconnecting]

/-- The steps of the handshake, taken one after the other, are `greet`. -/
theorem greet_steps (hpc : s.pc = .admitted) (answers : List (SockRecv httpBufferSize)) :
    ∃ events s', (system h accept).exec s events = some s' ∧
      s'.Reaches (s.conn.greet h accept answers) := by
  unfold WebsocketConnection.greet
  by_cases hconn : s.conn.connected = false
  · rw [if_pos hconn]
    by_cases hprocessed : s.conn.httpProcessed = true
    · rw [if_pos hprocessed]
      refine ⟨[.read answers], s.close .idle, ?_, rfl, rfl⟩
      simp [System.exec, system, next, hpc, hconn, hprocessed]
    · rw [if_neg hprocessed]
      exact respond_steps answers (by simp [next, hpc, hconn, hprocessed])
  · rw [if_neg hconn]
    exact respond_steps answers (by simp [next, hpc, hconn])

end WebsocketLife

/-! ## What the steps do to the queue -/

namespace WebsocketConnection

variable {P : Type} {c c' : WebsocketConnection P}

/-- `m_wating_send_pack` can be used, with the limit of `reuse` or of `clear`. -/
structure Queueing (c : WebsocketConnection P) : Prop where
  wf : c.watingSendPack.Wf
  limit : c.watingSendPack.limitMax ≤ memBufferSizeMax

/-- A step that queues nothing. -/
structure Keeps (c c' : WebsocketConnection P) : Prop where
  connected : c'.connected = c.connected
  queueing : c.Queueing → c'.Queueing
  empty : c.watingSendPack.content = [] → c'.watingSendPack.content = []

theorem Keeps.of_eq (hconn : c'.connected = c.connected) (hqueue : c'.watingSendPack = c.watingSendPack) :
    Keeps c c' :=
  ⟨hconn, fun h => ⟨hqueue ▸ h.wf, hqueue ▸ h.limit⟩, fun h => by rw [hqueue, h]⟩

theorem Keeps.trans {c'' : WebsocketConnection P} (h : Keeps c c') (h' : Keeps c' c'') : Keeps c c'' :=
  ⟨h'.connected.trans h.connected, fun hq => h'.queueing (h.queueing hq), fun he => h'.empty (h.empty he)⟩

theorem keeps_markClose (c : WebsocketConnection P) : Keeps c c.markClose.2 := by
  unfold markClose
  split
  · have hlimit : Buffer.initSize ≤ memBufferSizeMax := by decide
    exact ⟨rfl, fun _ => ⟨Buffer.wf_clear _, hlimit⟩, fun _ => rfl⟩
  · exact .of_eq rfl rfl

/-- The members that `send` and the frame phase use are the same. -/
structure Untouched (c c' : WebsocketConnection P) : Prop where
  connection : c'.toConnection = c.toConnection
  staging : c'.toStaging = c.toStaging
  connected : c'.connected = c.connected

theorem callback_untouched (h : Untouched c c') (e : ParserEvent) : Untouched c (c'.callback e).2 := by
  cases e <;> exact ⟨h.connection, h.staging, h.connected⟩

theorem runCallbacks_untouched (h : Untouched c c') (events : List ParserEvent) (i : Nat) :
    Untouched c (runCallbacks callback c' events i).1 := by
  induction events generalizing c' i with
  | nil => exact h
  | cons e events ih =>
    have hcall := callback_untouched h e
    rw [runCallbacks]
    split
    next ret c'' he =>
      rw [he] at hcall
      split
      · exact ih hcall _
      · exact hcall

theorem execute_untouched (h : HttpParser P) (p : P) (hc : Untouched c c') (data : Bytes) :
    Untouched c (h.execute callback p c' data).1 :=
  runCallbacks_untouched hc _ _

/-- The read loop of the handshake touches none of them. -/
theorem readLoop_untouched (h : HttpParser P) (hc : Untouched c c')
    (answers : List (SockRecv httpBufferSize)) : Untouched c (readLoop h c' answers) := by
  induction answers generalizing c' with
  | nil => exact { hc with }
  | cons answer answers ih =>
    cases answer with
    | eof => exact { hc with }
    | failed errno =>
      cases errno with
      | eintr => exact ih { hc with }
      | eagain => exact { hc with }
      | other => exact { hc with }
    | block data =>
      have hread : Untouched c { c' with
          buffer := Memory.store c'.buffer 0 data.bytes
          bufferUsedLen := data.bytes.length } := { hc with }
      have hexec := execute_untouched h c'.httpParser hread
        (Memory.load (Memory.store c'.buffer 0 data.bytes) 0 data.bytes.length)
      simp only [readLoop]
      generalize h.execute callback _ _ _ = r at hexec ⊢
      obtain ⟨c'', out⟩ := r
      dsimp only at hexec ⊢
      split
      · exact ih { hexec with }
      · split
        · exact { hexec with }
        · exact ih { hexec with }

theorem Untouched.keeps (h : Untouched c c') : Keeps c c' :=
  .of_eq h.connected (congrArg Staging.watingSendPack h.staging)

theorem keeps_appAct (c : WebsocketConnection P) (act : WebsocketAppAct) : Keeps c (c.appAct act) := by
  cases act with
  | markClose => exact keeps_markClose c
  | _ => exact .of_eq rfl rfl

/-- `buf2sock` touches the queue only where `reserve_size` is known, and that is not zero. -/
theorem buf2sockStep_queue (s : Staging) (out : Staging.Outside) (pc : Staging.Buf2sockPc) :
    ((∀ n, pc ≠ .reserve n) → (s.buf2sockStep out pc).1.watingSendPack = s.watingSendPack) ∧
      ∀ n, (s.buf2sockStep out pc).2.1 = .reserve n → 0 < n := by
  cases pc with
  | tag1 =>
    simp only [Staging.buf2sockStep]
    split
    · generalize s.sendBuffer.read true innerBufferSize = r
      rcases r with ⟨_ | bytes, b⟩
      · exact ⟨fun _ => rfl, by simp⟩
      · dsimp only
        split <;> exact ⟨fun _ => rfl, by simp⟩
    · exact ⟨fun _ => rfl, by simp⟩
  | tag3 =>
    have hinner : 0 < innerBufferSize := by decide
    simp only [Staging.buf2sockStep]
    split
    · next hblank =>
      refine ⟨fun _ => rfl, fun n hn => ?_⟩
      cases hn
      split
      · exact hinner
      · exact hblank
    · exact ⟨fun _ => rfl, by simp⟩
  | reserve n =>
    refine ⟨fun hpc => absurd rfl (hpc n), ?_⟩
    simp only [Staging.buf2sockStep]
    generalize s.watingSendPack.read true n = r
    rcases r with ⟨_ | bytes, b⟩
    · simp
    · dsimp only
      split
      · simp
      · split <;> simp
  | temp bytes =>
    simp only [Staging.buf2sockStep]
    generalize s.sendBuffer.write (some bytes) = r
    rcases r with ⟨_ | n, b⟩
    · exact ⟨fun _ => rfl, by simp⟩
    · dsimp only
      split <;> exact ⟨fun _ => rfl, by simp⟩
  | callback => exact ⟨fun _ => rfl, by simp [Staging.buf2sockStep]⟩
  | tag4 =>
    simp only [Staging.buf2sockStep]
    rcases out with ⟨_ | errno, callback⟩
    · rename_i k
      cases k with
      | zero => exact ⟨fun _ => rfl, by simp [Staging.offer]⟩
      | succ k =>
        simp only [Staging.offer]
        split <;> exact ⟨fun _ => rfl, by simp⟩
    · cases errno <;> exact ⟨fun _ => rfl, by simp [Staging.offer]⟩
  | done ret closed => exact ⟨fun _ => rfl, by simp [Staging.buf2sockStep]⟩

/-- A step of `buf2sock` takes bytes from the queue at most. -/
theorem keeps_buf2sockStep (hc : c.Queueing) (out : Staging.Outside) {pc : Staging.Buf2sockPc}
    (hpc : ∀ n, pc = .reserve n → 0 < n) :
    Keeps c { c with toStaging := (c.toStaging.buf2sockStep out pc).1 } := by
  cases pc with
  | reserve n =>
    obtain ⟨b, hread, hWf, hC, hL⟩ := Buffer.read_spec hc.wf (hpc n rfl)
    have hb : (c.toStaging.buf2sockStep out (.reserve n)).1.watingSendPack = b := by
      simp only [Staging.buf2sockStep, hread]
      split
      · rfl
      · split <;> rfl
    have hlimit : b.limitMax ≤ memBufferSizeMax := hL ▸ hc.limit
    exact ⟨rfl, fun _ => ⟨hb ▸ hWf, hb ▸ hlimit⟩, fun he => by rw [hb, hC, he, List.drop_nil]⟩
  | _ => exact .of_eq rfl ((buf2sockStep_queue c.toStaging out _).1 (by simp))

/-- The write of a `send`: the whole message, or nothing. -/
theorem queue_spec (hc : c.Queueing) {bytes : Bytes} (hne : bytes ≠ [])
    (hfits : bytes.length ≤ maxObjectSize) :
    (c.queue bytes).2.Queueing ∧ (c.queue bytes).2.connected = c.connected ∧
      ((c.queue bytes).1 = true ↔
        c.watingSendPack.content.length + bytes.length ≤ c.watingSendPack.limitMax) := by
  have hmax : memBufferSizeMax + maxObjectSize < 2 ^ 64 := by decide
  have hle := hc.wf.length_content_le
  have hlimit := hc.limit
  obtain ⟨b, hWf, hL, hCase⟩ := Buffer.write_spec hc.wf hne (by omega)
  unfold queue
  split at hCase
  · next hroom =>
    rw [hCase.1]
    exact ⟨⟨hWf, by simpa [hL] using hlimit⟩, rfl, by simpa using hroom⟩
  · next hroom =>
    rw [hCase.1]
    exact ⟨⟨hWf, by simpa [hL] using hlimit⟩, rfl, by simpa using hroom⟩

theorem sock2bufLoop_watingSendPack (s : Staging) (used answers : List SockRecv) :
    (s.sock2bufLoop used answers).staging.watingSendPack = s.watingSendPack := by
  induction answers generalizing s used with
  | nil => rfl
  | cons answer answers ih =>
    cases answer with
    | eof => rfl
    | failed errno =>
      cases errno with
      | eintr => exact ih _ _
      | eagain => rfl
      | other => rfl
    | block data =>
      simp only [Staging.sock2bufLoop]
      generalize Buffer.write _ _ = r
      rcases r with ⟨_ | n, b⟩
      · rfl
      · exact ih _ _

theorem keeps_sock2buf (c : WebsocketConnection P) (answers : List SockRecv) :
    Keeps c { c with toStaging := (c.toStaging.sock2buf answers).staging } := by
  refine .of_eq rfl ?_
  show (c.toStaging.sock2buf answers).staging.watingSendPack = c.watingSendPack
  unfold Staging.sock2buf
  split
  · generalize Buffer.write _ _ = r
    rcases r with ⟨_ | n, b⟩
    · rfl
    · exact sock2bufLoop_watingSendPack _ _ _
  · exact sock2bufLoop_watingSendPack _ _ _

end WebsocketConnection

/-! ## The invariant -/

/-- The places that are reached only with `connected` set, and those that are reached only before. -/
def WebsocketPc.Fits (connected : Bool) : WebsocketPc → Prop
  | .responding => connected = false
  | .responded => connected = false
  | .data => connected = true
  | .processing => connected = true
  | .writing _ => connected = true
  | .sending _ => connected = true
  | _ => True

namespace WebsocketLife

variable {P : Type} {h : HttpParser P} {accept : Bytes → AcceptKey} {s s' : WebsocketLife P}

/-- One response and frames behind it. -/
def Answered (accept : Bytes → AcceptKey) (accepted : List Bytes) : Prop :=
  ∃ key, ∃ frames : List Broadcast,
    accepted = handshakeResponse accept key :: frames.map Broadcast.bytes

structure Inv (accept : Bytes → AcceptKey) (s : WebsocketLife P) : Prop where
  queueing : s.conn.Queueing
  place : s.pc.Fits s.conn.connected
  reserve : ∀ n, s.pc = .sending (.reserve n) → 0 < n
  answered : s.conn.connected = true → Answered accept s.accepted
  responded : s.pc = .responded → Answered accept s.accepted
  fresh : s.conn.connected = false → s.pc ≠ .responded →
    s.accepted = [] ∧ s.conn.watingSendPack.content = []
  silent : s.conn.connected = false → s.processed = false ∧ ∀ thread, s.writing thread = none

theorem inv_start (init : P) (socketPtr : Option Nat) (gid : Nat) (c : WebsocketConnection P) :
    Inv accept (start init socketPtr gid c) := by
  have hmax : memBufferSizeMax < 2 ^ 64 := by decide
  obtain ⟨hWf, hC, hL⟩ := Buffer.setLimitMax_spec (Buffer.wf_clear c.watingSendPack) hmax
  have hlimit : max memBufferSizeMax c.watingSendPack.clear.limitMax ≤ memBufferSizeMax := by
    simp [Buffer.clear, Buffer.initSize, memBufferSizeMax, innerBufferSize]
  exact ⟨⟨hWf, hL ▸ hlimit⟩, trivial, by simp [start], by simp [start, WebsocketConnection.setGid,
    WebsocketConnection.setSocketPtr, WebsocketConnection.reuse], by simp [start],
    fun _ _ => ⟨rfl, hC⟩, fun _ => ⟨rfl, fun _ => rfl⟩⟩

/-- A step that queues nothing. -/
theorem Inv.keep (hs : Inv accept s) {c : WebsocketConnection P} (hc : s.conn.Keeps c) {pc : WebsocketPc}
    (hpc : pc = .responded ↔ s.pc = .responded) (hplace : pc.Fits s.conn.connected)
    (hreserve : ∀ n, pc = .sending (.reserve n) → 0 < n) {processed : Bool}
    (hprocessed : s.conn.connected = false → processed = false) :
    Inv accept { s with conn := c, pc, processed } := by
  refine ⟨hc.queueing hs.queueing, ?_, hreserve, fun hconn => ?_, fun h => ?_, fun hconn hne => ?_,
    fun hconn => ?_⟩
  · exact hc.connected ▸ hplace
  · exact hs.answered (hc.connected ▸ hconn)
  · exact hs.responded (hpc.1 h)
  · have hold := hs.fresh (hc.connected ▸ hconn) (fun h => hne (hpc.2 h))
    exact ⟨hold.1, hc.empty hold.2⟩
  · have hconn' : s.conn.connected = false := hc.connected ▸ hconn
    exact ⟨hprocessed hconn', (hs.silent hconn').2⟩

/-- An event that closes the connection. -/
theorem Inv.close (hs : Inv accept s) {pc : WebsocketPc} (hpc : pc = .responded ↔ s.pc = .responded)
    (hplace : pc.Fits s.conn.connected) (hreserve : ∀ n, pc = .sending (.reserve n) → 0 < n) :
    Inv accept (s.close pc) :=
  hs.keep (WebsocketConnection.keeps_markClose s.conn) hpc hplace hreserve fun h => (hs.silent h).1

theorem packet_ne_nil (firstByte : Byte) (data : Bytes) : packet firstByte data ≠ [] := by
  unfold packet packetHead
  split
  · simp
  · split <;> simp

/-- A frame is queued behind the response. -/
theorem Inv.frame (hs : Inv accept s) (hconn : s.conn.connected = true) (frame : Broadcast)
    {pc : WebsocketPc} (hpc : pc ≠ .responded) (hplace : pc.Fits true)
    (hreserve : ∀ n, pc = .sending (.reserve n) → 0 < n) (writing : Nat → Option Broadcast) :
    Inv accept (s.queue frame.bytes pc writing) := by
  obtain ⟨hqueueing, hsame, -⟩ :=
    WebsocketConnection.queue_spec hs.queueing (packet_ne_nil _ frame.payload) frame.fits
  have hconn' : (s.queue frame.bytes pc writing).conn.connected = true := hsame.trans hconn
  refine ⟨hqueueing, ?_, hreserve, fun _ => ?_, fun h => absurd h hpc, fun h => ?_, fun h => ?_⟩
  · exact hconn'.symm ▸ hplace
  · obtain ⟨key, frames, hlog⟩ := hs.answered hconn
    show Answered accept (if _ then _ else _)
    split
    · exact ⟨key, frames ++ [frame], by simp [hlog]⟩
    · exact ⟨key, frames, hlog⟩
  · rw [hconn'] at h
    cases h
  · rw [hconn'] at h
    cases h

theorem handshakeResponse_length (key : Bytes) :
    (handshakeResponse accept key).length = 129 := by
  have hkey := (accept key).2
  simp only [handshakeResponse, List.length_append, hkey]
  decide

/-- The response is accepted, since nothing is queued before it. -/
theorem Inv.respond (hs : Inv accept s) (hpc : s.pc = .responding) (key : Bytes) :
    Inv accept (s.queue (handshakeResponse accept key) .responded s.writing) := by
  have hlen : (handshakeResponse accept key).length = 129 :=
    handshakeResponse_length key
  have hconn : s.conn.connected = false := by
    have := hs.place
    rwa [hpc] at this
  obtain ⟨hnone, hempty⟩ := hs.fresh hconn (by simp [hpc])
  have hsmall : 129 ≤ maxObjectSize := by decide
  have hne : handshakeResponse accept key ≠ [] := by
    intro hnil
    rw [hnil] at hlen
    cases hlen
  obtain ⟨hqueueing, hsame, hroom⟩ := WebsocketConnection.queue_spec hs.queueing hne (by omega)
  have hmin := hs.queueing.wf.minLimit
  have hinit : 129 ≤ Buffer.initSize := by decide
  have hok : (s.conn.queue (handshakeResponse accept key)).1 = true :=
    hroom.2 (by rw [hempty, hlen, List.length_nil]; omega)
  have hlog : Answered accept
      (s.queue (handshakeResponse accept key) .responded s.writing).accepted := by
    refine ⟨key, [], ?_⟩
    simp [queue, hok, hnone]
  refine ⟨hqueueing, hsame.trans hconn, by simp [queue], fun _ => hlog, fun _ => hlog,
    fun _ h => absurd rfl h, fun _ => hs.silent hconn⟩

theorem Inv.readDone (hs : Inv accept s) (hpc : s.pc = .admitted) {c : WebsocketConnection P}
    (hc : s.conn.Keeps c) : Inv accept (s.readDone c) := by
  have hold : ∀ hconn : s.conn.connected = false, s.processed = false := fun hconn => (hs.silent hconn).1
  unfold WebsocketLife.readDone
  split
  · exact hs.keep hc (by simp [hpc]) (by trivial) (by simp) hold
  · split
    · exact hs.keep (hc.trans (WebsocketConnection.keeps_markClose c)) (by simp [hpc]) (by trivial) (by simp) hold
    · exact hs.keep hc (by simp [hpc]) (by trivial) (by simp) hold

/-- What follows `buf2sock`. -/
theorem Inv.sent (hs : Inv accept s) {pc : Staging.Buf2sockPc} (hpc : s.pc = .sending pc)
    (out : Staging.Outside) :
    Inv accept (WebsocketLife.sent { s with
      conn := { s.conn with toStaging := (s.conn.toStaging.buf2sockStep out pc).1 } }
      (s.conn.toStaging.buf2sockStep out pc).2.1) := by
  have hold : ∀ hconn : s.conn.connected = false, s.processed = false := fun hconn => (hs.silent hconn).1
  have hplace := hs.place
  have hconn : s.conn.connected = true := by rwa [hpc] at hplace
  have hreserve : ∀ n, pc = .reserve n → 0 < n := fun n hn => hs.reserve n (by rw [hpc, hn])
  have hkeep := WebsocketConnection.keeps_buf2sockStep hs.queueing out hreserve
  have hpos := (WebsocketConnection.buf2sockStep_queue s.conn.toStaging out pc).2
  generalize s.conn.toStaging.buf2sockStep out pc = r at hkeep hpos ⊢
  obtain ⟨staging, pc', bytes⟩ := r
  have hclosed := hkeep.trans (WebsocketConnection.keeps_markClose _)
  cases pc' with
  | done ret closed =>
    cases closed with
    | true => exact hs.keep hclosed (by simp [hpc]) (by trivial) (by simp) hold
    | false =>
      cases ret with
      | true => exact hs.keep hkeep (by simp [hpc]) (by trivial) (by simp) hold
      | false => exact hs.keep hkeep (by simp [hpc]) (by trivial) (by simp) hold
  | reserve n =>
    refine hs.keep hkeep (by simp [hpc]) (by exact hconn) (fun m hm => ?_) hold
    cases hm
    exact hpos n rfl
  | _ => exact hs.keep hkeep (by simp [hpc]) (by exact hconn) (by simp) hold

/-- One step of the life of the connection. -/
theorem inv_next (hs : Inv accept s) {e : WebsocketEvent} (hnext : next h accept s e = some s') :
    Inv accept s' := by
  have hold : ∀ hconn : s.conn.connected = false, s.processed = false := fun hconn => (hs.silent hconn).1
  have hsame : s.conn.Keeps s.conn := .of_eq rfl rfl
  have hplace := hs.place
  cases step_of_next hnext with
  | waiting hpc hopen => exact hs
  | removed hpc | admitted hpc => exact hs.keep hsame (by simp [hpc]) (by trivial) (by simp) hold
  | examined hpc => exact hs.keep hsame (by simp [hpc]) (by trivial) (by simp) hold
  | checkRefused hpc | wait hpc => exact hs.keep hsame (by simp [hpc]) (by trivial) (by simp) hold
  | sslFailed hpc | readRejected hpc => exact hs.close (by simp [hpc]) (by trivial) (by simp)
  | thrown hpc | finish hpc => exact hs.close (by simp [hpc]) (by trivial) (by simp)
  | @readRequest answers hpc hconn hopen =>
    have huntouched : s.conn.Untouched { s.conn with bufferUsedLen := 0 } := ⟨rfl, rfl, rfl⟩
    exact hs.readDone hpc (WebsocketConnection.readLoop_untouched h huntouched answers).keeps
  | readConnected hpc hconn => exact hs.readDone hpc hsame
  | reject hpc hconn =>
    have hend : s.conn.Keeps { s.conn.examine with everythingEnd := true } := .of_eq rfl rfl
    exact hs.keep hend (by simp [hpc]) (by trivial) (by simp) hold
  | answer hpc hconn =>
    have hexamine : s.conn.Keeps s.conn.examine := .of_eq rfl rfl
    exact hs.keep hexamine (by simp [hpc]) (by exact hconn) (by simp) hold
  | respond hpc => exact hs.respond hpc _
  | setConnected hpc =>
    refine ⟨⟨hs.queueing.wf, hs.queueing.limit⟩, trivial, by simp, fun _ => hs.responded hpc, by simp,
      fun hconn => ?_, fun hconn => ?_⟩
    · cases hconn
    · cases hconn
  | checkConnected hpc hconn =>
    exact hs.keep hsame (by simp [hpc]) (by exact hconn) (by simp) hold
  | @received answers hpc =>
    have hconn : s.conn.connected = true := by rwa [hpc] at hplace
    have hkeep := WebsocketConnection.keeps_sock2buf s.conn answers
    exact hs.keep hkeep (by simp [hpc]) (by exact hconn) (by simp) (by simp [hconn])
  | @peerClosed answers hpc =>
    have hkeep := WebsocketConnection.keeps_sock2buf s.conn answers
    exact hs.keep (hkeep.trans (WebsocketConnection.keeps_markClose _)) (by simp [hpc]) (by trivial)
      (by simp) hold
  | @act act hpc =>
    exact hs.keep (WebsocketConnection.keeps_appAct s.conn act) Iff.rfl hplace hs.reserve hold
  | send hpc hconn => exact hs.keep hsame (by simp [hpc]) (by exact hconn) (by simp) hold
  | sendRefused hpc hconn =>
    rw [hpc] at hplace
    exact hs.keep hsame (by simp [hpc]) hplace (by simp) hold
  | @write frame hpc =>
    have hconn : s.conn.connected = true := by rwa [hpc] at hplace
    exact hs.frame hconn frame (by simp) (by rfl) (by simp) s.writing
  | processed hpc =>
    have hconn : s.conn.connected = true := by rwa [hpc] at hplace
    exact hs.keep hsame (by simp [hpc]) (by exact hconn) (by simp) hold
  | @buf2sock out pc hpc => exact hs.sent hpc out
  | otherSend hpc hfree hconn =>
    exact ⟨hs.queueing, hs.place, hs.reserve, hs.answered, hs.responded, hs.fresh,
      fun hno => absurd (hconn.symm.trans hno) (by decide)⟩
  | otherSendRefused hpc hfree hconn => exact hs
  | @otherWrite thread frame hframe =>
    have hconn : s.conn.connected = true := by
      by_contra hno
      rw [Bool.not_eq_true] at hno
      rw [(hs.silent hno).2 thread] at hframe
      cases hframe
    have hpc : s.pc ≠ .responded := by
      intro hpc
      rw [hpc] at hplace
      exact absurd (hconn.symm.trans hplace) (by decide)
    exact hs.frame hconn frame hpc (hconn ▸ hplace) hs.reserve _
  | otherMarkClose hpc => exact hs.close Iff.rfl hplace hs.reserve

theorem inv_reachable (hreach : (system h accept).Reachable s) : Inv accept s := by
  refine hreach.invariant (P := Inv accept) ?_ fun t e t' _ hinv hnext => inv_next hinv hnext
  rintro t ⟨socketPtr, gid, c, rfl⟩
  exact inv_start h.init socketPtr gid c

/-- A frame begins with the byte of a final text frame, the response with an `H`. -/
theorem bytes_ne_handshakeResponse (frame : Broadcast) (key : Bytes) :
    frame.bytes ≠ handshakeResponse accept key := by
  intro heq
  have hframe : frame.bytes.head? = some 0x81 := by
    simp only [Broadcast.bytes, packet, packetHead]
    split
    · rfl
    · split <;> rfl
  have hresponse : (handshakeResponse accept key).head? = some 72 := by
    simp [handshakeResponse, ascii]
  rw [heq, hresponse] at hframe
  cases hframe

/-- **Handshake first.** At every point of the life of a websocket connection,
`m_wating_send_pack` has accepted nothing, or one response and then frames of broadcasts; and
`process_connection` was not called before the response was accepted. -/
theorem handshake_first (hreach : (system h accept).Reachable s) :
    (s.accepted = [] ∨ ∃ key, ∃ frames : List Broadcast,
      s.accepted = handshakeResponse accept key :: frames.map Broadcast.bytes ∧
        ∀ frame ∈ frames, ∀ key', frame.bytes ≠ handshakeResponse accept key') ∧
    (s.processed = true → s.accepted ≠ []) := by
  have hinv := inv_reachable hreach
  have hanswered : s.conn.connected = true ∨ s.pc = .responded → ∃ key, ∃ frames : List Broadcast,
      s.accepted = handshakeResponse accept key :: frames.map Broadcast.bytes ∧
        ∀ frame ∈ frames, ∀ key', frame.bytes ≠ handshakeResponse accept key' := by
    intro hcase
    obtain ⟨key, frames, hlog⟩ := hcase.elim hinv.answered hinv.responded
    exact ⟨key, frames, hlog, fun frame _ => bytes_ne_handshakeResponse frame⟩
  constructor
  · by_cases hcase : s.conn.connected = true ∨ s.pc = .responded
    · exact .inr (hanswered hcase)
    · rw [not_or, Bool.not_eq_true] at hcase
      exact .inl (hinv.fresh hcase.1 hcase.2).1
  · intro hprocessed hnil
    have hconn : s.conn.connected = true := by
      by_contra hno
      rw [Bool.not_eq_true] at hno
      exact absurd (hprocessed.symm.trans (hinv.silent hno).1) (by decide)
    obtain ⟨key, frames, hlog, -⟩ := hanswered (.inl hconn)
    rw [hnil] at hlog
    cases hlog

/-- A broadcast of one byte. -/
def oneByte : Broadcast := ⟨[65], by decide⟩

/-- A handshake in one segment, with broadcasts of another worker before, during and after it. -/
def broadcastsAround : List WebsocketEvent :=
  [.otherSend 1 oneByte, .enter .notNeeded,
    .read [asciiBlock ("GET /ws HTTP/1.1\r\nUpgrade: websocket\r\nSec-WebSocket-Key: k\r\n" ++
      "Sec-WebSocket-Version: 13\r\n\r\n") (by decide)],
    .examine, .otherSend 1 oneByte, .respond, .otherSend 1 oneByte, .setConnected,
    .otherSend 1 oneByte, .otherWrite 1, .check, .sock2buf []]

theorem handshake_first_broadcasts :
    ∃ s : WebsocketLife LineState, (system lineParser someKey).Reachable s ∧ s.processed = true ∧
      ∃ key, ∃ frame : Broadcast,
        s.accepted = [handshakeResponse someKey key, frame.bytes] := by
  have hrun : ((system lineParser someKey).exec
      (start lineParser.init (some 3) 7 (.new (fun _ => 0) lineParser.init none)) broadcastsAround).map
        (fun s => (s.processed, s.accepted.length)) = some (true, 2) := by decide +kernel
  obtain ⟨s, hexec, hs⟩ := Option.map_eq_some_iff.1 hrun
  have hprocessed : s.processed = true := congrArg Prod.fst hs
  have hlength : s.accepted.length = 2 := congrArg Prod.snd hs
  have hreach : (system lineParser someKey).Reachable s := .run (.start ⟨_, _, _, rfl⟩) (.of_exec hexec)
  obtain ⟨hlog, -⟩ := handshake_first hreach
  rcases hlog with hnil | ⟨key, frames, hlog, -⟩
  · rw [hnil] at hlength
    cases hlength
  · rw [hlog, List.length_cons, List.length_map] at hlength
    obtain ⟨frame, rfl⟩ := List.length_eq_one_iff.1 (Nat.succ.inj hlength)
    exact ⟨s, hreach, hprocessed, key, frame, hlog⟩

end WebsocketLife

end Tubekit
