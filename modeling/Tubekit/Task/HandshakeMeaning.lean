import Tubekit.Task.Upgrade

/-!
# What a handshake means

The names of http headers are the same in any letter case. `headers` is a map whose keys are
compared byte by byte, and `websocket_task::run` looks up two names as the source spells them.
`acceptedKey` reads a list of headers in either way. The response is decided by the headers as the
callbacks hand them to `add_header`, and by their spelling.
-/

namespace Tubekit

open Lib Transition
open WebsocketConnection (handshakeResponse readLoop)

/-! ## Reading a list of headers -/

/-- The ASCII letters in lower case. -/
def lower (name : Bytes) : Bytes := name.map fun b => if 65 ≤ b ∧ b ≤ 90 then b + 32 else b

/-- The first value under a name, where names are the same if `fold` makes them so. -/
def firstNamed (fold : Bytes → Bytes) (name : Bytes) (headers : List Header) : Option Bytes :=
  (headers.find? fun header => fold header.1 = fold name).map (·.2)

/-- The key that a handshake is accepted with. -/
def acceptedKey (fold : Bytes → Bytes) (headers : List Header) : Option Bytes :=
  (firstNamed fold (ascii "Sec-WebSocket-Key") headers).filter fun key =>
    key ≠ [] ∧ firstNamed fold (ascii "Sec-WebSocket-Version") headers = some (ascii "13")

/-- The headers are the same up to the letter case of their names. -/
def Respelled (l l' : List Header) : Prop :=
  List.Forall₂ (fun header header' => lower header.1 = lower header'.1 ∧ header.2 = header'.2) l l'

theorem firstNamed_respelled {l l' : List Header} (h : Respelled l l') (name : Bytes) :
    firstNamed lower name l = firstNamed lower name l' := by
  induction h with
  | nil => rfl
  | cons hsame _ ih =>
    obtain ⟨hname, hvalue⟩ := hsame
    simp only [firstNamed, List.find?_cons, hname] at ih ⊢
    split
    · simp [hvalue]
    · exact ih

/-- In any letter case, two requests that differ in nothing else have the same key. -/
theorem acceptedKey_respelled {l l' : List Header} (h : Respelled l l') :
    acceptedKey lower l = acceptedKey lower l' := by
  simp only [acceptedKey, firstNamed_respelled h]

theorem HeaderMap.head_values (key : Bytes) (l : List Header) :
    (HeaderMap.values key l).head? = firstNamed id key l := by
  rw [HeaderMap.values, List.head?_map, List.head?_filter]
  rfl

/-- The headers as the callbacks hand them to `add_header`. -/
def addedHeaders (es : List ParserEvent) : List Header :=
  ((es.takeWhile ParserEvent.accepted).foldl Recorded.add .empty).headers

namespace WebsocketConnection

variable {P : Type} {c : WebsocketConnection P}

theorem firstValue_ofList {l : List Header} (hc : c.headers = HeaderMap.ofList l)
    (key old : Bytes) : c.firstValue key old = (firstNamed id key l).getD old := by
  rw [firstValue, hc, HeaderMap.ofList, HeaderMap.foldl_addHeader, ← HeaderMap.head_values]
  cases hvalues : HeaderMap.values key l with
  | nil => simp
  | cons value values => simp

/-- What `run` finds in the headers. -/
def verdict (c : WebsocketConnection P) : Option Bytes :=
  if c.examine.secWebsocketKey = [] ∨ c.examine.secWebsocketVersion ≠ ascii "13" then none
  else some c.examine.secWebsocketKey

theorem verdict_of_collected {r : Recorded} (hc : c.collected = Upgrade.collectedOf r) :
    c.verdict = acceptedKey id r.headers := by
  simp only [collected, Upgrade.collectedOf, Prod.mk.injEq] at hc
  obtain ⟨hheaders, -, hkey, hversion⟩ := hc
  have hthirteen : ascii "13" ≠ [] := by decide
  simp only [verdict, examine, firstValue_ofList hheaders, hkey, hversion, acceptedKey]
  generalize firstNamed id (ascii "Sec-WebSocket-Key") r.headers = key
  generalize firstNamed id (ascii "Sec-WebSocket-Version") r.headers = version
  cases key with
  | none => simp
  | some key =>
    cases version with
    | none => simp [hthirteen.symm]
    | some version => by_cases hnil : key = [] <;> by_cases hv : version = ascii "13" <;>
      simp [hnil, hv, Option.filter]

end WebsocketConnection

/-! ## The loop that reads the request -/

/-- The answers end with `EAGAIN`, not with the end of the stream or another error. -/
def SockRecv.waits {size : Nat} : List (SockRecv size) → Bool
  | [] => true
  | .block _ :: answers => waits answers
  | .failed .eintr :: answers => waits answers
  | .failed .eagain :: _ => true
  | .failed .other :: _ => false
  | .eof :: _ => false

namespace HttpParser

variable {P : Type} {h : HttpParser P}

/-- What `http_parser_execute` gives for each of the pieces with the callbacks of `websocket_task`,
and the length of the piece. -/
def executions (h : HttpParser P) : P → List Bytes → List (Executed P × Nat)
  | _, [] => []
  | p, data :: pieces =>
    let out := (h.execute (fun (_ : Unit) e => (websocketReply e, ())) p () data).2
    (out, data.length) :: executions h out.parser pieces

/-- The parser takes every piece whole or says `upgrade`. -/
def Takes (h : HttpParser P) (p : P) (pieces : List Bytes) : Prop :=
  ∀ x ∈ h.executions p pieces, x.1.upgrade = true ∨ x.1.nparsed = x.2

instance (p : P) (pieces : List Bytes) : Decidable (h.Takes p pieces) :=
  inferInstanceAs (Decidable (∀ x ∈ h.executions p pieces, x.1.upgrade = true ∨ x.1.nparsed = x.2))

/-- A piece for which no callback stops the parser. -/
theorem executions_accepted {p : P} {pieces : List Bytes} {data : Bytes} (more : List Bytes)
    (haccepted : ∀ e ∈ h.callbacks p (pieces ++ [data]), e.accepted = true) :
    (h.after (h.feed (fun (_ : Unit) _ => (0, ())) p () pieces).1 data none, data.length) ∈
      h.executions p (pieces ++ data :: more) := by
  induction pieces generalizing p with
  | nil =>
    have hnone := runCallbacks_none (fun (_ : Unit) e => (websocketReply e, ()))
      (h.events p data) (fun e he _ => by
        simpa [ParserEvent.accepted] using haccepted e (by simpa [callbacks] using he)) () 0
    simp [executions, execute, hnone, feed]
  | cons piece pieces ih =>
    have hnone := runCallbacks_none (fun (_ : Unit) e => (websocketReply e, ()))
      (h.events p piece) (fun e he _ => by
        simpa [ParserEvent.accepted] using haccepted e (by simp [callbacks, he])) () 0
    rw [feed_zero_cons]
    simp only [List.cons_append, executions, execute, hnone]
    exact List.mem_cons_of_mem _ (ih fun e he => haccepted e (by simp [callbacks, he]))

end HttpParser

namespace WebsocketConnection

variable {P : Type} {h : HttpParser P} {c : WebsocketConnection P}

/-- How the loop ends. -/
theorem readLoop_flags (hend : c.everythingEnd = false) (answers : List (SockRecv httpBufferSize)) :
    ((readLoop h c answers).everythingEnd = false ↔
      SockRecv.waits answers = true ∧ h.Takes c.httpParser (SockRecv.blocks answers)) ∧
    ((readLoop h c answers).everythingEnd = false →
      (c.isUpgrade = true ∨
        ∃ x ∈ h.executions c.httpParser (SockRecv.blocks answers), x.1.upgrade = true) →
      (readLoop h c answers).isUpgrade = true) := by
  induction answers generalizing c with
  | nil => simp [readLoop, SockRecv.waits, SockRecv.blocks, HttpParser.Takes, HttpParser.executions, hend]
  | cons answer answers ih =>
    cases answer with
    | eof => simp [readLoop, SockRecv.waits]
    | failed errno =>
      cases errno with
      | eintr => exact ih hend
      | eagain =>
        simp [readLoop, SockRecv.waits, SockRecv.blocks, HttpParser.Takes, HttpParser.executions, hend]
      | other => simp [readLoop, SockRecv.waits]
    | block data =>
      have hstored : { c with
          buffer := Memory.store c.buffer 0 data.bytes
          bufferUsedLen := data.bytes.length }.everythingEnd = false ∧ { c with
          buffer := Memory.store c.buffer 0 data.bytes
          bufferUsedLen := data.bytes.length }.isUpgrade = c.isUpgrade := ⟨hend, rfl⟩
      have hcall : ∀ (c' : WebsocketConnection P) (_ : Unit) (e : ParserEvent),
          c'.everythingEnd = false ∧ c'.isUpgrade = c.isUpgrade →
          (c'.callback e).1 = ((websocketReply e, ()) : Int × Unit).1 ∧
            (c'.callback e).2.everythingEnd = false ∧ (c'.callback e).2.isUpgrade = c.isUpgrade :=
        fun c' _ e hc' => by cases e <;> exact ⟨rfl, hc'⟩
      obtain ⟨⟨hend', hup'⟩, hstop⟩ := runCallbacks_sim hcall (d := ()) hstored
        (h.events c.httpParser data.bytes) 0
      simp only [readLoop, SockRecv.waits, SockRecv.blocks, HttpParser.Takes, HttpParser.executions,
        HttpParser.execute, Memory.load_store_same, hstop, List.forall_mem_cons, List.exists_mem_cons_iff]
      generalize (runCallbacks callback _ (h.events c.httpParser data.bytes) 0).1 = c' at hend' hup' ⊢
      generalize h.after c.httpParser data.bytes _ = out
      cases hout : out.upgrade with
      | true =>
        obtain ⟨hiff, hset⟩ :=
          ih (c := { c' with httpParser := out.parser, isUpgrade := true, bufferUsedLen := 0 }) hend'
        simp only [if_true, true_or, true_and]
        exact ⟨hiff, fun hopen _ => hset hopen (Or.inl rfl)⟩
      | false =>
        obtain ⟨hiff, hset⟩ := ih (c := { c' with httpParser := out.parser, bufferUsedLen := 0 }) hend'
        by_cases hparsed : out.nparsed = data.bytes.length
        · simp only [hparsed, ne_eq, not_true, if_false, Bool.false_eq_true, false_or, true_and]
          exact ⟨hiff, fun hopen hany => hset hopen (hany.imp hup'.trans id)⟩
        · simp [hparsed]

end WebsocketConnection

/-! ## From the request to the response -/

namespace WebsocketLife

variable {P : Type} {h : HttpParser P} {accept : Bytes → AcceptKey} {s s' : WebsocketLife P}
  {d : Option Bytes}

/-- How far a request has got whose headers decide for `d`. -/
inductive Stage (accept : Bytes → AcceptKey) (d : Option Bytes) (s : WebsocketLife P) : Prop
  | waiting (hpc : s.pc = .connecting)
      (hguard : (!s.conn.connected && s.conn.httpProcessed && !s.conn.everythingEnd) = true)
      (hd : s.conn.verdict = d)
  | responding (hpc : s.pc = .responding) (hd : d = some s.conn.secWebsocketKey)
  | answered (key : Bytes) (hd : d = some key) (hfirst : [handshakeResponse accept key] <+: s.accepted)
  | rejected (hd : d = none) (hprocessed : s.conn.httpProcessed = true)
      (hend : s.conn.everythingEnd = true) (hquiet : ¬s.Responding)

theorem accepted_queue (s : WebsocketLife P) (bytes : Bytes) (pc : WebsocketPc)
    (writing : Nat → Option Broadcast) : s.accepted <+: (s.queue bytes pc writing).accepted := by
  unfold queue
  split
  · exact List.prefix_append _ _
  · exact List.prefix_refl _

theorem accepted_readDone (s : WebsocketLife P) (c : WebsocketConnection P) :
    (s.readDone c).accepted = s.accepted := by
  unfold readDone
  split
  · rfl
  · split <;> rfl

theorem accepted_sent (s : WebsocketLife P) (pc : Staging.Buf2sockPc) :
    (s.sent pc).accepted = s.accepted := by
  unfold sent
  split <;> rfl

/-- What was queued stays queued, as far as `accepted` goes. -/
theorem next_accepted {e : WebsocketEvent} (hnext : next h accept s e = some s') :
    s.accepted <+: s'.accepted := by
  cases step_of_next hnext with
  | respond hpc | write hpc | otherWrite hframe => exact s.accepted_queue _ _ _
  | readRequest hpc | readConnected hpc =>
    rewrite [accepted_readDone]
    exact List.prefix_refl s.accepted
  | buf2sock hpc =>
    rewrite [accepted_sent]
    exact List.prefix_refl s.accepted
  | _ => exact List.prefix_refl s.accepted

/-- The steps behind a rejected request. -/
theorem Stage.rejected_next (hinv : Inv accept s) (hprocessed : s.conn.httpProcessed = true)
    (hend : s.conn.everythingEnd = true) (hquiet : ¬s.Responding) {e : WebsocketEvent}
    (hnext : next h accept s e = some s') : Stage accept none s' := by
  have hsock : ∀ answers, e ≠ .sock2buf answers := by
    rintro answers rfl
    have hplace := hinv.place
    cases step_of_next hnext with
    | received hpc | peerClosed hpc =>
      rw [hpc] at hplace
      exact hquiet (Or.inl hplace)
  obtain ⟨hreads, hresponding⟩ := next_quiescent hnext (fun _ _ => Or.inr hprocessed) hsock
  refine .rejected rfl (hreads.httpProcessed.trans hprocessed) ?_ fun hresp => ?_
  · rcases hreads.everythingEnd with hsame | ⟨hended, -⟩
    · exact hsame.trans hend
    · exact hended
  · rcases hresponding hresp with hbefore | ⟨-, hopen⟩
    · exact hquiet hbefore
    · exact nomatch hopen.symm.trans hend

theorem markClose_examine (c : WebsocketConnection P) :
    c.markClose.2.verdict = c.verdict ∧ c.markClose.2.secWebsocketKey = c.secWebsocketKey ∧
      c.markClose.2.connected = c.connected ∧ c.markClose.2.httpProcessed = c.httpProcessed ∧
      c.markClose.2.everythingEnd = c.everythingEnd := by
  unfold WebsocketConnection.markClose
  split <;> exact ⟨rfl, rfl, rfl, rfl, rfl⟩

/-- What the other threads do while the request is examined. -/
theorem next_examining (hinv : Inv accept s) (hpc : s.pc = .connecting ∨ s.pc = .responding)
    {e : WebsocketEvent} (hconn : s.conn.connected = false) (hnext : next h accept s e = some s') :
    e = .examine ∧ s.pc = .connecting ∨ e = .respond ∧ s.pc = .responding ∨ s' = s ∨
      s' = s.close s.pc := by
  have hnone := (hinv.silent hconn).2
  cases step_of_next hnext with
  | reject hpc' | answer hpc' | examined hpc' => exact .inl ⟨rfl, hpc'⟩
  | respond hpc' => exact .inr (.inl ⟨rfl, hpc'⟩)
  | otherSendRefused hpc' => exact .inr (.inr (.inl rfl))
  | otherMarkClose hpc' => exact .inr (.inr (.inr rfl))
  | otherSend hpc' hfree hconn' => exact nomatch hconn.symm.trans hconn'
  | otherWrite hframe => exact nomatch (hnone _).symm.trans hframe
  | _ hpc' =>
    -- the run of the task is at another place
    rcases hpc with hpc | hpc <;> exact nomatch hpc.symm.trans hpc'

/-- The response is the first that is queued. -/
theorem first_queued (hinv : Inv accept s) (hpc : s.pc = .responding)
    (hconn : s.conn.connected = false) (key : Bytes) :
    [handshakeResponse accept key] <+:
      (s.queue (handshakeResponse accept key) .responded s.writing).accepted := by
  obtain ⟨key', frames, hlog⟩ := (hinv.respond hpc key).responded rfl
  have hnone : s.accepted = [] := (hinv.fresh hconn (by simp [hpc])).1
  simp only [queue, hnone] at hlog ⊢
  split
  · exact List.prefix_refl _
  · rename_i hfull
    rw [if_neg hfull] at hlog
    cases hlog

theorem Stage.next (hinv : Inv accept s) (hs : Stage accept d s) {e : WebsocketEvent}
    (hnext : next h accept s e = some s') : Stage accept d s' := by
  cases hs with
  | answered key hd hfirst => exact .answered key hd (hfirst.trans (next_accepted hnext))
  | rejected hd hprocessed hend hquiet =>
    rw [hd]
    exact Stage.rejected_next hinv hprocessed hend hquiet hnext
  | waiting hpc hguard hd =>
    have hconn : s.conn.connected = false := by
      simp only [Bool.and_eq_true, Bool.not_eq_true'] at hguard
      exact hguard.1.1
    rcases next_examining hinv (Or.inl hpc) hconn hnext with ⟨rfl, -⟩ | ⟨-, hpc'⟩ | rfl | rfl
    · rw [WebsocketConnection.verdict] at hd
      cases step_of_next hnext with
      | reject hpc' hconn' hprocessed hend hbad =>
        rw [if_pos hbad] at hd
        refine .rejected hd.symm hprocessed rfl ?_
        simp [Responding, WebsocketConnection.examine, hconn]
      | answer hpc' hconn' hprocessed hend hgood =>
        rw [if_neg hgood] at hd
        exact .responding rfl hd.symm
      | examined hpc' hskip => cases hguard.symm.trans hskip
    · cases hpc.symm.trans hpc'
    · exact .waiting hpc hguard hd
    · obtain ⟨hverdict, -, hconn', hproc', hend'⟩ := markClose_examine s.conn
      refine .waiting hpc ?_ (hverdict.trans hd)
      rw [show (s.close s.pc).conn = s.conn.markClose.2 from rfl, hconn', hproc', hend']
      exact hguard
  | responding hpc hd =>
    have hconn : s.conn.connected = false := by
      have hplace := hinv.place
      rwa [hpc] at hplace
    rcases next_examining hinv (Or.inr hpc) hconn hnext with ⟨-, hpc'⟩ | ⟨rfl, -⟩ | rfl | rfl
    · cases hpc.symm.trans hpc'
    · cases step_of_next hnext with
      | respond hpc' => exact .answered _ hd (first_queued hinv hpc hconn _)
    · exact .responding hpc hd
    · exact .responding hpc (hd.trans (congrArg some (markClose_examine s.conn).2.1.symm))

end WebsocketLife

/-- `request` is a `GET` for an upgrade: no callback stops the parser up to the call that gets to
its end. -/
structure HttpParser.GetUpgrade {P : Type} (h : HttpParser P) (request : Bytes) : Prop extends
    h.Upgrades request where
  accepted : ∀ (pieces : List Bytes) (data rest : Bytes), pieces.flatten.length < request.length →
    pieces.flatten ++ data = request ++ rest →
    ∀ e ∈ h.callbacks h.init (pieces ++ [data]), e.accepted = true

/-- The piece with which `n` bytes are reached. -/
theorem exists_crossing {before : List Bytes} (pieces : List Bytes) {n : Nat}
    (hbefore : before.flatten.length < n) (hreach : n ≤ (before ++ pieces).flatten.length) :
    ∃ xs data ys, pieces = xs ++ data :: ys ∧ (before ++ xs).flatten.length < n ∧
      n ≤ (before ++ xs).flatten.length + data.length := by
  induction pieces generalizing before with
  | nil =>
    rw [List.append_nil] at hreach
    omega
  | cons piece pieces ih =>
    by_cases hfirst : n ≤ before.flatten.length + piece.length
    · exact ⟨[], piece, pieces, rfl, by simpa using hbefore, by simpa using hfirst⟩
    · have hlonger : (before ++ [piece]).flatten.length < n := by
        simp only [List.flatten_append, List.flatten_singleton, List.length_append]
        omega
      obtain ⟨xs, data, ys, rfl, hlt, hle⟩ := ih hlonger (by simpa using hreach)
      exact ⟨piece :: xs, data, ys, rfl, by simpa using hlt, by simpa using hle⟩

/-- The call that gets to the end of the request. -/
theorem HttpParser.GetUpgrade.reaches {P : Type} {h : HttpParser P} {request rest : Bytes}
    (hget : h.GetUpgrade request) {before blocks : List Bytes}
    (hbefore : before.flatten.length < request.length)
    (hcomplete : (before ++ blocks).flatten = request ++ rest) :
    ∃ xs data ys, blocks = xs ++ data :: ys ∧
      (∀ e ∈ h.callbacks h.init (before ++ xs ++ [data]), e.accepted = true) ∧
      .headersComplete ∈ h.callbacks h.init (before ++ xs ++ [data]) ∧
      (h.after (h.behind (before ++ xs)) data none).upgrade = true := by
  have hlen := congrArg List.length hcomplete
  rw [List.length_append] at hlen
  obtain ⟨xs, data, ys, rfl, hlt, hle⟩ := exists_crossing blocks hbefore (by omega)
  have hsplit : (before ++ xs).flatten ++ data ++ ys.flatten = request ++ rest := by
    simpa using hcomplete
  have hpre : request <+: (before ++ xs).flatten ++ data :=
    List.prefix_of_prefix_length_le ⟨rest, rfl⟩ ⟨ys.flatten, hsplit⟩ (by rwa [List.length_append])
  obtain ⟨more, hmore⟩ := hpre
  obtain ⟨hmem, hupgrade, -⟩ := hget.stops _ data more hlt hmore.symm hle
  refine ⟨xs, data, ys, rfl, hget.accepted _ data more hlt hmore.symm, ?_, hupgrade⟩
  rw [HttpParser.callbacks_append]
  exact List.mem_append_right _ (List.mem_append_left _ hmem)

theorem websocketRecorder_true (r : Recorded) (es : List ParserEvent) (i : Nat) :
    (runCallbacks websocketRecorder (r, true) es i).1.2 = true := by
  induction es generalizing r i with
  | nil => rfl
  | cons e es ih =>
    rw [websocketRecorder, recorder_cons]
    split
    · exact ih _ _
    · rfl

/-- The request is complete when the callbacks up to the end of its headers return `0`. -/
theorem websocketRecorder_done {es : List ParserEvent} (haccepted : ∀ e ∈ es, e.accepted = true)
    (hmem : .headersComplete ∈ es) (more : List ParserEvent) (r : Recorded) (b : Bool) (i : Nat) :
    (runCallbacks websocketRecorder (r, b) (es ++ more) i).1.2 = true := by
  induction es generalizing r b i with
  | nil => cases hmem
  | cons e es ih =>
    rw [List.forall_mem_cons] at haccepted
    have hzero : websocketReply e = 0 := by simpa [ParserEvent.accepted] using haccepted.1
    rw [List.cons_append, websocketRecorder, recorder_cons, if_pos hzero]
    rcases List.mem_cons.mp hmem with rfl | hrest
    · rw [show (b || websocketEnds .headersComplete) = true by simp [websocketEnds]]
      exact websocketRecorder_true _ _ _
    · exact ih haccepted.2 hrest _ _ _

namespace Upgrade

variable {P : Type} {h : HttpParser P} {accept : Bytes → AcceptKey} {s s' : Upgrade P}

/-- The run that reads the end of the request. -/
theorem read_steps {request rest : Bytes}
    (hbefore : s.pieces.flatten.length < request.length) {answers : List (SockRecv httpBufferSize)}
    (hread : next h accept s (.read answers) = some s')
    (hcomplete : s'.pieces.flatten = request ++ rest) :
    s.life.conn.connected = false ∧ s.life.conn.httpProcessed = false ∧
      s'.pieces = s.pieces ++ SockRecv.blocks answers ∧
      s'.life = s.life.readDone (readLoop h { s.life.conn with bufferUsedLen := 0 } answers) := by
  by_cases hopen : s.life.conn.connected = false ∧ s.life.conn.httpProcessed = false
  · rw [next_read hopen hread]
    exact ⟨hopen.1, hopen.2, rfl, rfl⟩
  · -- nothing is read
    obtain ⟨life, -, rfl⟩ := Option.map_eq_some_iff.mp hread
    have hlen := congrArg List.length hcomplete
    rw [record_read hopen, List.length_append] at hlen
    simp only at hlen
    omega

/-- What the callbacks record is what they hand to `add_header`. -/
theorem recorded_added (hdoc : h.Documented) (pieces : List Bytes) :
    (h.feed websocketRecorder h.init (.empty, false) pieces).2.1.headers =
      addedHeaders (h.callbacks h.init pieces) := by
  rw [HttpParser.feed_eq hdoc, websocketRecorder_behind]
  rfl

/-- When the end of the request is read, it is complete, and the parser has asked for an upgrade. -/
theorem read_complete (hdoc : h.Documented) {request rest : Bytes} (hget : h.GetUpgrade request)
    (hinv : Inv h accept s) (hopen : s.life.conn.httpProcessed = false)
    (hbefore : s.pieces.flatten.length < request.length) {blocks : List Bytes}
    (hcomplete : (s.pieces ++ blocks).flatten = request ++ rest) :
    (h.feed websocketRecorder h.init (.empty, false) (s.pieces ++ blocks)).2.2 = true ∧
      ∃ x ∈ h.executions s.life.conn.httpParser blocks, x.1.upgrade = true := by
  obtain ⟨xs, data, ys, rfl, haccepted, hmem, hupgrade⟩ := hget.reaches hbefore hcomplete
  constructor
  · rw [HttpParser.feed_eq hdoc, List.append_cons, ← List.append_assoc, ← List.append_assoc,
      HttpParser.callbacks_append]
    exact websocketRecorder_done haccepted hmem _ _ _ _
  · rw [List.append_assoc, HttpParser.callbacks_append] at haccepted
    have hparser : s.life.conn.httpParser = h.behind s.pieces := by
      rw [(hinv.reading hopen).2.1]
      refine HttpParser.feed_quiet (fun e he c => ?_) _
      have hzero := haccepted e (List.mem_append_left _ he)
      simpa [ParserEvent.accepted, websocketRecorder, recorder] using hzero
    refine ⟨_, HttpParser.executions_accepted ys fun e he => ?_, ?_⟩
    · rw [hparser] at he
      exact haccepted e (List.mem_append_right _ he)
    · rw [hparser, HttpParser.behind, ← HttpParser.feed_append]
      exact hupgrade

/-- The key that is found by the run which reads the end of the request. -/
def keyFound (h : HttpParser P) (p : P) (answers : List (SockRecv httpBufferSize))
    (es : List ParserEvent) : Option Bytes :=
  if SockRecv.waits answers = true ∧ h.Takes p (SockRecv.blocks answers) then
    acceptedKey id (addedHeaders es)
  else none

theorem stage_read (hdoc : h.Documented) {request rest : Bytes} (hget : h.GetUpgrade request)
    (hinv : Inv h accept s) (hbefore : s.pieces.flatten.length < request.length)
    {answers : List (SockRecv httpBufferSize)} (hread : next h accept s (.read answers) = some s')
    (hcomplete : s'.pieces.flatten = request ++ rest) :
    WebsocketLife.Stage accept
      (keyFound h s.life.conn.httpParser answers (h.callbacks h.init s'.pieces)) s'.life := by
  obtain ⟨hconn, hopen, hpieces, hlife⟩ := read_steps hbefore hread hcomplete
  rw [hpieces] at hcomplete
  obtain ⟨hdone, hupgrade⟩ := read_complete hdoc hget hinv hopen hbefore hcomplete
  have huntouched : s.life.conn.Untouched { s.life.conn with bufferUsedLen := 0 } := ⟨rfl, rfl, rfl⟩
  have hloop := WebsocketConnection.readLoop_untouched h huntouched answers
  have hrecorded := readLoop_recorded hinv hopen answers rfl rfl
  obtain ⟨hends, hasks⟩ := WebsocketConnection.readLoop_flags (h := h)
    (c := { s.life.conn with bufferUsedLen := 0 }) (hinv.reading hopen).1 answers
  rw [hlife, hpieces, keyFound]
  generalize readLoop h { s.life.conn with bufferUsedLen := 0 } answers = c
    at hloop hrecorded hends hasks ⊢
  by_cases hwhole : SockRecv.waits answers = true ∧
      h.Takes s.life.conn.httpParser (SockRecv.blocks answers)
  · have hgoes : c.everythingEnd = false := hends.mpr hwhole
    have hask : c.isUpgrade = true := hasks hgoes (Or.inr hupgrade)
    rcases hrecorded with ⟨hended, -⟩ | ⟨-, hhas⟩
    · exact nomatch hgoes.symm.trans hended
    · have hprocessed : c.httpProcessed = true := hhas.httpProcessed.trans hdone
      rw [if_pos hwhole, ← recorded_added hdoc,
        ← WebsocketConnection.verdict_of_collected hhas.collected]
      have hconnecting : s.life.readDone c = { s.life with conn := c, pc := .connecting } := by
        simp [WebsocketLife.readDone, hprocessed, hask]
      rw [hconnecting]
      exact .waiting rfl (by simp [hloop.connected, hconn, hprocessed, hgoes]) rfl
  · have hended : c.everythingEnd = true := by
      rw [← Bool.not_eq_false]
      exact fun hgoes => hwhole (hends.mp hgoes)
    rcases hrecorded with ⟨-, hprocessed⟩ | ⟨-, hhas⟩
    · obtain ⟨hreads, hconn', hpc, hpc'⟩ := s.life.readDone_reads c
      rw [if_neg hwhole]
      refine .rejected rfl (hreads.httpProcessed.trans hprocessed) ?_ ?_
      · rcases hreads.everythingEnd with hsame | ⟨hstill, -⟩
        · exact hsame.trans hended
        · exact hstill
      · rintro (hresp | hresp | hresp)
        · exact nomatch (hconn'.trans (hloop.connected.trans hconn)).symm.trans hresp
        · exact hpc hresp
        · exact hpc' hresp
    · exact nomatch hhas.everythingEnd.symm.trans hended

theorem stage_run {d : Option Bytes} (hreach : (system h accept).Reachable s)
    (hs : WebsocketLife.Stage accept d s.life) {events : List WebsocketEvent}
    (hrun : (system h accept).Run s events s') : WebsocketLife.Stage accept d s'.life := by
  refine hrun.keeps (P := fun s => WebsocketLife.Stage accept d s.life) hreach ?_ hs
  intro t e t' ht hstage hnext
  obtain ⟨life, hstep, rfl⟩ := Option.map_eq_some_iff.mp hnext
  exact hstage.next (inv_reachable ht).life hstep

/-- What is queued once the run is past the connect protocol. -/
theorem stage_past {d : Option Bytes} (hinv : Inv h accept s)
    (hs : WebsocketLife.Stage accept d s.life)
    (hpast : s.life.pc ≠ .connecting ∧ s.life.pc ≠ .responding) :
    s.life.accepted.head? = d.map (handshakeResponse accept) := by
  cases hs with
  | waiting hpc => exact absurd hpc hpast.1
  | responding hpc => exact absurd hpc hpast.2
  | answered key hd hfirst =>
    obtain ⟨more, hmore⟩ := hfirst
    simp [hd, ← hmore]
  | rejected hd _ _ hquiet =>
    simp only [WebsocketLife.Responding, not_or, Bool.not_eq_true] at hquiet
    rw [(hinv.life.fresh hquiet.1 hquiet.2.2).1, hd]
    rfl

end Upgrade

/-- The first run of a connection of the pool. -/
def admittedUpgrade : Upgrade LineState :=
  { Upgrade.freshUpgrade with life := { Upgrade.freshUpgrade.life with pc := .admitted } }

theorem Coarser.accepted {es es' : List ParserEvent} (h : Coarser es es')
    (hes : ∀ e ∈ es', e.accepted = true) : ∀ e ∈ es, e.accepted = true := by
  induction h with
  | nil => exact hes
  | cons e _ ih =>
    rw [List.forall_mem_cons] at hes ⊢
    exact ⟨hes.1, ih hes.2⟩
  | _ =>
    rename_i ih
    rw [List.forall_mem_cons] at hes
    have hrest := ih hes.2
    rw [List.forall_mem_cons] at hrest ⊢
    exact ⟨rfl, hrest.2⟩

theorem upgradeParser_getUpgrade {request : Bytes}
    (hopen : .headersComplete ∉ (lineParser.init.scan request.dropLast).2)
    (hup : lineParser.init.upgrades request = true)
    (haccepted : ∀ e ∈ (lineParser.init.scan request).2, e.accepted = true) :
    upgradeParser.GetUpgrade request where
  toUpgrades := upgradeParser_upgrades hopen hup
  accepted := by
    intro pieces data rest _ hflat
    have hnot : lineParser.init.upgrades request.dropLast = false := by
      rw [← Bool.not_eq_true]
      exact fun h => hopen (LineState.mem_of_upgrades h)
    have hpieces : (pieces ++ [data]).flatten = request ++ rest := by simpa using hflat
    exact (upgradeParser_request hnot hup hpieces).accepted haccepted

/-- The connect protocol is over. -/
def WebsocketPc.isPast : WebsocketPc → Bool
  | .connecting => false
  | .responding => false
  | _ => true

theorem upgradeRequest_getUpgrade : upgradeParser.GetUpgrade Upgrade.upgradeRequest :=
  upgradeParser_getUpgrade (by decide +kernel) (by decide +kernel) (by decide +kernel)

end Tubekit
