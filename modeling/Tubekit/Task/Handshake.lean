import Tubekit.Http.LineParser
import Tubekit.Task.Segmentation

/-!
# The request of a WebSocket handshake

`websocket_task::run` up to the point where it examines the url and the headers of the request,
and the result for both tasks. Here the request is complete with its headers, and the parser is
stopped by a request that is not `GET` and by a chunk.
-/

namespace Tubekit

open Lib ParserEvent

/-! ## What `websocket_task` records -/

def websocketReply : ParserEvent → Int
  | .messageBegin method => if method ≠ ascii "GET" then -1 else 0
  | .chunkHeader => -1
  | .chunkComplete => -1
  | _ => 0

/-- The parser goes on after this callback. -/
def ParserEvent.accepted (e : ParserEvent) : Bool := decide (websocketReply e = 0)

def websocketEnds (e : ParserEvent) : Bool :=
  decide (e = .headersComplete) || decide (e = .messageComplete)

def websocketRecorder : Recording → ParserEvent → Int × Recording :=
  recorder (fun _ => websocketReply) websocketEnds

/-- What stops the parser is not recorded. -/
theorem add_of_not_accepted {e : ParserEvent} (he : websocketReply e ≠ 0) (r : Recorded) :
    r.add e = r := by
  cases e <;> first | rfl | exact absurd rfl he

theorem websocketRecorder_behind (r : Recorded) (b : Bool) (es : List ParserEvent) (i : Nat) :
    (runCallbacks websocketRecorder (r, b) es i).1.1 =
      (es.takeWhile ParserEvent.accepted).foldl Recorded.add r := by
  induction es generalizing r b i with
  | nil => rfl
  | cons e es ih =>
    rw [websocketRecorder, recorder_cons]
    split
    · rename_i hzero
      have hacc : e.accepted = true := by simp [ParserEvent.accepted, hzero]
      rw [List.takeWhile_cons_of_pos hacc, List.foldl_cons]
      exact ih _ _ _
    · rename_i hne
      have hacc : ¬e.accepted = true := by simp [ParserEvent.accepted, hne]
      rw [List.takeWhile_cons_of_neg hacc]
      exact add_of_not_accepted hne r

/-- The record of `websocket_task` is the url and the headers of the first request exactly when
they came unbroken and nothing was added before the parser stopped. -/
theorem websocket_recorded_iff {es behind : List ParserEvent} (hheaders : .headersComplete ∉ es)
    (hmessage : .messageComplete ∉ es) {s : Recording}
    (hs : s = (runCallbacks websocketRecorder (.empty, false) (es ++ .headersComplete :: behind) 0).1)
    (hdone : s.2 = true) :
    (s.1.url = (Request.assemble es).url ∧
        HeaderMap.ofList s.1.headers = HeaderMap.ofList (Request.assemble es).headers) ↔
      Unbroken (Fragments.ofEvents es) (behind.takeWhile ParserEvent.accepted) := by
  rw [hs] at hdone
  have hbefore : ∀ e ∈ es, websocketEnds e = false := by
    intro e he
    have hne : e ≠ .headersComplete ∧ e ≠ .messageComplete := by
      constructor <;> rintro rfl <;> contradiction
    simp [websocketEnds, hne]
  obtain ⟨-, i, hrun⟩ := recorder_split hbefore rfl (fun _ => rfl) (fun _ => rfl) hdone
  rw [websocketRecorder, hrun] at hs
  have hbehind := websocketRecorder_behind (es.foldl Recorded.add .empty) true behind i
  rw [websocketRecorder, ← hs] at hbehind
  rw [hbehind]
  exact recorded_iff (Recorded.records_ofEvents es) _

/-! ## The runs of `websocket_task` -/

/-- The pieces of the stream that a run reads for the handshake. -/
def EndpointTurn.pieces (turn : EndpointTurn) : List Bytes :=
  match turn.ssl with
  | .waiting _ => []
  | .failed => []
  | _ => SockRecv.blocks turn.handshake

/-- The output is the examination of a handshake. -/
def EndpointOutput.isHandshake : EndpointOutput → Bool
  | .handshake _ _ => true
  | _ => false

/-- No handshake is examined. -/
def Quiet (outs : List EndpointOutput) : Prop := ∀ o ∈ outs, o.isHandshake = false

theorem Quiet.append {xs ys : List EndpointOutput} (hx : Quiet xs) (hy : Quiet ys) :
    Quiet (xs ++ ys) :=
  fun o ho => (List.mem_append.mp ho).elim (hx o) (hy o)

namespace Endpoint

variable {P : Type}

theorem markClose_quiet (e : Endpoint P) : Quiet e.markClose.1 := by
  cases e <;> grind [Quiet, markClose, EndpointOutput.isHandshake]

theorem acts_quiet (e : Endpoint P) (l : List EndpointAct) : Quiet (e.acts l).1 := by
  induction l generalizing e with
  | nil => simp [acts, Quiet]
  | cons a l ih =>
    intro o ho
    rcases List.mem_append.mp ho with hact | hrest
    · have hclose := markClose_quiet e
      cases a <;> grind [Quiet, act, EndpointOutput.isHandshake]
    · exact ih _ o hrest

theorem shown_quiet (pc : Staging.Buf2sockPc) (callback : Option Nat) (bytes : Bytes) :
    Quiet (shown pc callback bytes) := by
  cases pc <;> cases callback <;> simp [shown, Quiet, EndpointOutput.isHandshake]

theorem buf2sockTurn_quiet (e : Endpoint P) (writeEnd : List EndpointAct)
    (pc : Staging.Buf2sockPc) (out : Staging.Outside) : Quiet (e.buf2sockTurn writeEnd pc out).1 := by
  unfold buf2sockTurn
  refine (shown_quiet _ _ _).append ?_
  by_cases hpc : pc = .callback
  · rw [if_pos hpc]
    exact acts_quiet e writeEnd
  · rw [if_neg hpc]
    simp [Quiet]

theorem buf2sock_quiet {e : Endpoint P} {writeEnd : List EndpointAct} {pc : Staging.Buf2sockPc}
    {answers : List Staging.Outside} {outs : List EndpointOutput} {result : Bool × Bool × Endpoint P}
    (h : e.buf2sock writeEnd pc answers = some (outs, result)) : Quiet outs := by
  induction answers generalizing e pc outs with
  | nil =>
    by_cases hpc : ∃ ret closed, pc = .done ret closed
    · obtain ⟨ret, closed, rfl⟩ := hpc
      cases h
      simp [Quiet]
    · rw [buf2sock_nil e writeEnd fun ret closed heq => hpc ⟨ret, closed, heq⟩] at h
      cases h
  | cons answer answers ih =>
    by_cases hpc : ∃ ret closed, pc = .done ret closed
    · obtain ⟨ret, closed, rfl⟩ := hpc
      cases h
      simp [Quiet]
    · rw [buf2sock_cons e writeEnd fun ret closed heq => hpc ⟨ret, closed, heq⟩] at h
      split at h
      · obtain ⟨r, hrest, hout⟩ := Option.map_eq_some_iff.mp h
        cases hout
        exact (buf2sockTurn_quiet e writeEnd pc answer).append (ih hrest)
      · cases h

theorem websocketEnd_quiet (e : Endpoint P) : Quiet e.websocketEnd.1 := by
  have hclose := markClose_quiet e
  cases e <;> grind [Quiet, websocketEnd, EndpointOutput.isHandshake]

theorem andThen_quiet {p : Phase P} {f : Endpoint P → Option (List EndpointOutput × Endpoint P)}
    {outs : List EndpointOutput} {e' : Endpoint P} (h : p.andThen f = some (outs, e'))
    (hp : ∀ os e, p = .returned os e ∨ p = .next os e → Quiet os)
    (hf : ∀ e os e', f e = some (os, e') → Quiet os) : Quiet outs := by
  cases p with
  | returned os e =>
    simp only [Phase.andThen, Option.some.injEq, Prod.mk.injEq] at h
    rw [← h.1]
    exact hp os e (Or.inl rfl)
  | next os e =>
    have hos := hp os e (Or.inr rfl)
    simp only [Phase.andThen] at h
    split at h
    · cases h
    · rename_i rest e'' hrest
      have hrest := hf _ _ _ hrest
      simp only [Option.some.injEq, Prod.mk.injEq] at h
      rw [← h.1]
      exact hos.append hrest

theorem recvData_quiet (e : Endpoint P) (answers : List SockRecv) (os : List EndpointOutput)
    (e' : Endpoint P) (h : e.recvData answers = .returned os e' ∨ e.recvData answers = .next os e') :
    Quiet os := by
  have hclose := fun e : Endpoint P => markClose_quiet e
  grind [recvData, Quiet, EndpointOutput.isHandshake]

theorem processData_quiet (e : Endpoint P) (script : EndpointScript) (os : List EndpointOutput)
    (e' : Endpoint P)
    (h : e.processData script = .returned os e' ∨ e.processData script = .next os e') :
    Quiet os := by
  have hclose := fun e : Endpoint P => markClose_quiet e
  have hacts := acts_quiet e script.acts
  grind [processData, Quiet]

theorem websocketData_quiet {e e' : Endpoint P} {turn : EndpointTurn} {outs : List EndpointOutput}
    (h : e.websocketData turn = some (outs, e')) : Quiet outs := by
  refine andThen_quiet h (recvData_quiet e turn.recv) fun e1 os e1' h1 => ?_
  refine andThen_quiet h1 (processData_quiet e1 turn.process) fun e2 os e2' h2 => ?_
  split at h2
  · cases h2
  · rename_i sent bSend bClosed e3 hsent
    have hsent := buf2sock_quiet hsent
    have hclose := markClose_quiet e3
    have hend := fun e : Endpoint P => websocketEnd_quiet e
    grind [Quiet, EndpointOutput.isHandshake]

end Endpoint

namespace WebsocketConnection

variable {P : Type} {h : HttpParser P} {accept : Bytes → AcceptKey} {c : WebsocketConnection P}
  {s : Recording}

/-- The connection is reading the request of its handshake, and `s` is recorded of it. -/
structure Reading (c : WebsocketConnection P) (s : Recording) : Prop where
  closeFlag : c.closeFlag = false
  connected : c.connected = false
  everythingEnd : c.everythingEnd = false
  httpProcessed : c.httpProcessed = s.2
  url : c.url = s.1.url
  headFiledTmp : c.headFiledTmp = s.1.fieldTmp
  headers : c.headers = HeaderMap.ofList s.1.headers

theorem callback_reading (c : WebsocketConnection P) (s : Recording) (e : ParserEvent)
    (hc : c.Reading s) :
    (c.callback e).1 = (websocketRecorder s e).1 ∧
      (c.callback e).2.Reading (websocketRecorder s e).2 := by
  obtain ⟨hclose, hconn, hend, hproc, hurl, htmp, hheaders⟩ := hc
  have hopen : c.httpProcessed = (s.2 || false) := by rw [Bool.or_false, hproc]
  cases e with
  | headerValue data =>
    refine ⟨rfl, hclose, hconn, hend, hopen, hurl, htmp, ?_⟩
    simp [callback, addHeader, websocketRecorder, recorder, Recorded.add,
      HeaderMap.ofList_append_singleton, htmp, hheaders]
  | headersComplete =>
    exact ⟨rfl, hclose, hconn, hend, by simp [callback, websocketRecorder, recorder, websocketEnds],
      hurl, htmp, hheaders⟩
  | messageComplete =>
    exact ⟨rfl, hclose, hconn, hend, by simp [callback, websocketRecorder, recorder, websocketEnds],
      hurl, htmp, hheaders⟩
  | url data => exact ⟨rfl, hclose, hconn, hend, hopen, rfl, htmp, hheaders⟩
  | headerField data => exact ⟨rfl, hclose, hconn, hend, hopen, hurl, rfl, hheaders⟩
  | _ => exact ⟨rfl, hclose, hconn, hend, hopen, hurl, htmp, hheaders⟩

/-- The read loop ends the connection, or it feeds the parser with all that was received. What the
callbacks do to the connection is seen through `R`, which does not look at the members that the
loop itself changes. -/
theorem readLoop_sim {D : Type} {record : D → ParserEvent → Int × D}
    {R : WebsocketConnection P → D → Prop}
    (hcall : ∀ c d e, R c d → (c.callback e).1 = (record d e).1 ∧ R (c.callback e).2 (record d e).2)
    (hraw : ∀ {c d}, R c d → ∀ buffer bufferUsedLen bufferStartUse httpParser isUpgrade,
      R { c with buffer, bufferUsedLen, bufferStartUse, httpParser, isUpgrade } d)
    {d : D} (hc : R c d) (answers : List (SockRecv httpBufferSize)) :
    ((readLoop h c answers).everythingEnd = true ∧ (readLoop h c answers).httpProcessed = true ∧
      ∃ c' d', R c' d' ∧ (readLoop h c answers).connected = c'.connected) ∨
    ((readLoop h c answers).httpParser =
        (h.feed record c.httpParser d (SockRecv.blocks answers)).1 ∧
      R (readLoop h c answers) (h.feed record c.httpParser d (SockRecv.blocks answers)).2) := by
  induction answers generalizing c d with
  | nil => exact Or.inr ⟨rfl, hraw hc _ _ _ _ _⟩
  | cons answer answers ih =>
    cases answer with
    | eof => exact Or.inl ⟨rfl, rfl, c, d, hc, rfl⟩
    | failed errno =>
      cases errno with
      | eintr => exact ih (hraw hc _ _ _ _ _)
      | eagain => exact Or.inr ⟨rfl, hraw hc _ _ _ _ _⟩
      | other => exact Or.inl ⟨rfl, rfl, c, d, hc, rfl⟩
    | block data =>
      have hstored : R { c with
          buffer := Memory.store c.buffer 0 data.bytes
          bufferUsedLen := data.bytes.length } d := hraw hc _ _ _ _ _
      obtain ⟨hsim, hstop⟩ := runCallbacks_sim hcall hstored (h.events c.httpParser data.bytes) 0
      simp only [readLoop, SockRecv.blocks, HttpParser.feed, HttpParser.execute,
        Memory.load_store_same, hstop]
      split
      · exact ih (hraw hsim _ _ _ _ _)
      · split
        · exact Or.inl ⟨rfl, rfl, _, _, hsim, rfl⟩
        · exact ih (hraw hsim _ _ _ _ _)

theorem readLoop_reading (hc : c.Reading s) (answers : List (SockRecv httpBufferSize)) :
    (readLoop h c answers).everythingEnd = true ∧ (readLoop h c answers).connected = false ∨
      (readLoop h c answers).httpParser =
        (h.feed websocketRecorder c.httpParser s (SockRecv.blocks answers)).1 ∧
      (readLoop h c answers).Reading
        (h.feed websocketRecorder c.httpParser s (SockRecv.blocks answers)).2 := by
  rcases readLoop_sim (h := h) callback_reading (fun hc _ _ _ _ _ => { hc with }) hc answers with
    ⟨hend, -, c', s', hc', hconn⟩ | hfed
  · exact Or.inl ⟨hend, hconn.trans hc'.connected⟩
  · exact Or.inr hfed

theorem markClose_closed (c : WebsocketConnection P) :
    (Endpoint.websocket c).markClose.2.closeFlag = true := by
  cases hflag : c.closeFlag <;> simp [Endpoint.markClose, markClose, hflag, Endpoint.closeFlag]

theorem connect_examines (accept : Bytes → AcceptKey) (hproc : c.httpProcessed = true) (hc : c.Reading s) :
    ∃ outs, (c.connect accept).1 = .handshake c.url c.headers :: outs ∧ Quiet outs := by
  simp only [connect, hc.connected, hproc, hc.everythingEnd, Bool.not_false, Bool.and_self, if_true]
  split
  · exact ⟨[], rfl, by simp [Quiet]⟩
  · refine ⟨_, rfl, ?_⟩
    grind [Quiet, EndpointOutput.isHandshake]

/-- How `greet` ends for a connection that reads its handshake. -/
theorem greet_reading (accept : Bytes → AcceptKey) (hc : c.Reading s) (hs : s.2 = false)
    (answers : List (SockRecv httpBufferSize)) :
    (∃ outs e, c.greet h accept answers = .returned outs e ∧ Quiet outs ∧ e.closeFlag = true) ∨
    (∃ c', c.greet h accept answers = .returned [.attach false] (.websocket c') ∧
      c'.httpParser = (h.feed websocketRecorder c.httpParser s (SockRecv.blocks answers)).1 ∧
      c'.Reading (h.feed websocketRecorder c.httpParser s (SockRecv.blocks answers)).2 ∧
      (h.feed websocketRecorder c.httpParser s (SockRecv.blocks answers)).2.2 = false) ∨
    (∃ c', c.greet h accept answers = .next [] (.websocket c') ∧ c'.everythingEnd = true ∧
      c'.connected = false) ∨
    (∃ c' : WebsocketConnection P, ∃ outs c'',
      (h.feed websocketRecorder c.httpParser s (SockRecv.blocks answers)).2.2 = true ∧
      c'.Reading (h.feed websocketRecorder c.httpParser s (SockRecv.blocks answers)).2 ∧
      c.greet h accept answers = .next (.handshake c'.url c'.headers :: outs) (.websocket c'') ∧
      Quiet outs) := by
  have hopen : c.httpProcessed = false := hc.httpProcessed.trans hs
  have hstart : Reading { c with bufferUsedLen := 0 } s := { hc with }
  have hgreet : c.greet h accept answers =
      (readLoop h { c with bufferUsedLen := 0 } answers).respond accept := by
    simp [greet, hc.connected, hopen]
  rw [hgreet]
  rcases readLoop_reading (h := h) hstart answers with ⟨hend, hconn⟩ | ⟨hparser, hreading⟩
  · generalize readLoop h { c with bufferUsedLen := 0 } answers = c1 at hend hconn ⊢
    by_cases hup : (c1.httpProcessed && c1.isUpgrade) = true
    · have hconnect : c1.connect accept = ([], c1) := by simp [connect, hend]
      right; right; left
      exact ⟨c1, by simp [respond, hend, hup, hconnect], hend, hconn⟩
    · left
      exact ⟨_, _, by simp [respond, hend, hup, closing],
        Endpoint.markClose_quiet (.websocket c1), markClose_closed c1⟩
  · generalize readLoop h { c with bufferUsedLen := 0 } answers = c1 at hparser hreading ⊢
    cases hdone : (h.feed websocketRecorder c.httpParser s (SockRecv.blocks answers)).2.2 with
    | false =>
      have hwait : c1.httpProcessed = false := hreading.httpProcessed.trans hdone
      right; left
      exact ⟨c1, by simp [respond, hwait, hreading.everythingEnd], hparser, hreading, rfl⟩
    | true =>
      have hproc : c1.httpProcessed = true := hreading.httpProcessed.trans hdone
      cases hup : c1.isUpgrade with
      | false =>
        left
        exact ⟨_, _, by simp [respond, hproc, hup, closing],
          Endpoint.markClose_quiet (.websocket c1), markClose_closed c1⟩
      | true =>
        obtain ⟨outs, houts, hquiet⟩ := connect_examines accept hproc hreading
        right; right; right
        refine ⟨c1, outs, (c1.connect accept).2, rfl, hreading, ?_, hquiet⟩
        simp only [respond, hproc, hup, Bool.not_true, Bool.false_and, Bool.and_self, houts]
        rfl

end WebsocketConnection

namespace Endpoint

variable {P : Type} {h : HttpParser P} {accept : Bytes → AcceptKey} {c : WebsocketConnection P}
  {s : Recording}

/-- A run of a connection that is closed. -/
theorem run_closed {e e' : Endpoint P} (hclose : e.closeFlag = true) {turn : EndpointTurn}
    {outs : List EndpointOutput} (hrun : e.run h accept turn = some (outs, e')) :
    Quiet outs ∧ e'.closeFlag = true := by
  have hopen : e.checkOpen turn.ssl = .returned [.remove] e := by simp [checkOpen, hclose]
  cases e with
  | stream c =>
    simp only [run, streamRun, hopen, Phase.andThen, Option.some.injEq, Prod.mk.injEq] at hrun
    rw [← hrun.1, ← hrun.2]
    exact ⟨by simp [Quiet, EndpointOutput.isHandshake], hclose⟩
  | websocket c =>
    simp only [run, websocketRun, hopen, Option.some.injEq, Prod.mk.injEq] at hrun
    rw [← hrun.1, ← hrun.2]
    refine ⟨Quiet.append ?_ (by simp [Quiet, EndpointOutput.isHandshake]), hclose⟩
    cases c.destoryCallback <;> simp [Quiet, EndpointOutput.isHandshake]

/-- What a run does to a websocket connection that is not closed. -/
theorem run_open (accept : Bytes → AcceptKey) (hclose : c.closeFlag = false) (turn : EndpointTurn) :
    (∃ listenSend, turn.pieces = [] ∧
      (Endpoint.websocket c).run h accept turn = some ([.attach listenSend], .websocket c)) ∨
    (turn.pieces = [] ∧
      (Endpoint.websocket c).run h accept turn = some (Endpoint.websocket c).markClose) ∨
    (turn.pieces = SockRecv.blocks turn.handshake ∧
      (Endpoint.websocket c).run h accept turn =
        (c.greet h accept turn.handshake).andThen fun e =>
          match e with
          | .websocket c => if c.connected then e.websocketData turn else some e.websocketEnd
          | .stream _ => some e.websocketEnd) := by
  have hflag : (Endpoint.websocket c).closeFlag = false := hclose
  simp only [run, websocketRun, checkOpen, EndpointTurn.pieces, hflag, hclose]
  cases turn.ssl with
  | waiting listenSend => exact Or.inl ⟨listenSend, rfl, rfl⟩
  | failed => exact Or.inr (Or.inl ⟨rfl, rfl⟩)
  | notNeeded => exact Or.inr (Or.inr ⟨rfl, rfl⟩)
  | accepted => exact Or.inr (Or.inr ⟨rfl, rfl⟩)

/-- A run of a connection that reads its handshake: it closes, it goes on reading, or the
handshake is examined with what has been recorded. -/
theorem run_reading (hc : c.Reading s) (hs : s.2 = false) {turn : EndpointTurn}
    {outs : List EndpointOutput} {e' : Endpoint P}
    (hrun : (Endpoint.websocket c).run h accept turn = some (outs, e')) :
    (Quiet outs ∧ (e'.closeFlag = true ∨
      ∃ c', e' = .websocket c' ∧
        c'.httpParser = (h.feed websocketRecorder c.httpParser s turn.pieces).1 ∧
        c'.Reading (h.feed websocketRecorder c.httpParser s turn.pieces).2 ∧
        (h.feed websocketRecorder c.httpParser s turn.pieces).2.2 = false)) ∨
    (h.feed websocketRecorder c.httpParser s turn.pieces).2.2 = true ∧
      ∃ c' : WebsocketConnection P,
        c'.Reading (h.feed websocketRecorder c.httpParser s turn.pieces).2 ∧
        ∃ rest, outs = .handshake c'.url c'.headers :: rest ∧ Quiet rest := by
  rcases run_open (h := h) accept hc.closeFlag turn with ⟨l, hpieces, heq⟩ |
    ⟨hpieces, heq⟩ | ⟨hpieces, heq⟩
  · rw [heq] at hrun
    cases hrun
    rw [hpieces]
    exact Or.inl ⟨by simp [Quiet, EndpointOutput.isHandshake], Or.inr ⟨c, rfl, rfl, hc, hs⟩⟩
  · rw [heq] at hrun
    cases hrun
    exact Or.inl ⟨markClose_quiet (.websocket c), Or.inl (WebsocketConnection.markClose_closed c)⟩
  · rw [heq] at hrun
    rw [hpieces]
    rcases WebsocketConnection.greet_reading (h := h) accept hc hs turn.handshake with
      ⟨os, e, hgreet, hquiet, hclosed⟩ | ⟨c', hgreet, hreading⟩ | ⟨c', hgreet, hend, hconn⟩ |
      ⟨c', os, c'', hdone, hreading, hgreet, hquiet⟩
    · rw [hgreet] at hrun
      cases hrun
      exact Or.inl ⟨hquiet, Or.inl hclosed⟩
    · rw [hgreet] at hrun
      cases hrun
      exact Or.inl ⟨by simp [Quiet, EndpointOutput.isHandshake], Or.inr ⟨c', rfl, hreading⟩⟩
    · rw [hgreet] at hrun
      simp only [Phase.andThen, hconn, websocketEnd, hend, if_true, List.nil_append] at hrun
      cases hrun
      exact Or.inl ⟨markClose_quiet (.websocket c'),
        Or.inl (WebsocketConnection.markClose_closed c')⟩
    · right
      rw [hgreet] at hrun
      simp only [Phase.andThen] at hrun
      split at hrun
      · cases hrun
      · rename_i rest e'' hrest
        cases hrun
        refine ⟨hdone, c', hreading, os ++ rest, rfl, hquiet.append ?_⟩
        split at hrest
        · exact websocketData_quiet hrest
        · have hquiet := websocketEnd_quiet (.websocket c'')
          rw [Option.some.inj hrest] at hquiet
          exact hquiet

theorem runs_closed {e e' : Endpoint P} (hclose : e.closeFlag = true) {turns : List EndpointTurn}
    {outs : List EndpointOutput} (hrun : e.runs h accept turns = some (outs, e')) :
    e'.closeFlag = true := by
  induction turns generalizing e outs with
  | nil =>
    cases hrun
    exact hclose
  | cons turn turns ih =>
    simp only [runs] at hrun
    split at hrun
    · cases hrun
    · rename_i os e1 hfirst
      split at hrun
      · cases hrun
      · rename_i rest e2 hrest
        cases hrun
        exact ih (run_closed hclose hfirst).2 hrest

/-- Runs without a handshake. -/
theorem runs_reading (hc : c.Reading s) (hs : s.2 = false) {turns : List EndpointTurn}
    {outs : List EndpointOutput} {e' : Endpoint P}
    (hrun : (Endpoint.websocket c).runs h accept turns = some (outs, e')) (hquiet : Quiet outs) :
    e'.closeFlag = true ∨ ∃ c', e' = .websocket c' ∧
      c'.httpParser =
        (h.feed websocketRecorder c.httpParser s (turns.flatMap EndpointTurn.pieces)).1 ∧
      c'.Reading (h.feed websocketRecorder c.httpParser s (turns.flatMap EndpointTurn.pieces)).2 ∧
      (h.feed websocketRecorder c.httpParser s (turns.flatMap EndpointTurn.pieces)).2.2 = false := by
  induction turns generalizing c s outs with
  | nil =>
    cases hrun
    exact Or.inr ⟨c, rfl, rfl, hc, hs⟩
  | cons turn turns ih =>
    simp only [runs] at hrun
    split at hrun
    · cases hrun
    · rename_i os e1 hfirst
      split at hrun
      · cases hrun
      · rename_i rest e2 hrest
        cases hrun
        rcases run_reading hc hs hfirst with ⟨-, hclosed | ⟨c1, rfl, hparser, hreading, hopen⟩⟩ |
          ⟨-, c1, -, rest', rfl, -⟩
        · exact Or.inl (runs_closed hclosed hrest)
        · have hnext := ih hreading hopen hrest fun o ho => hquiet o (List.mem_append_right _ ho)
          rw [hparser] at hnext
          rw [List.flatMap_cons, HttpParser.feed_append]
          exact hnext
        · exact absurd (hquiet (.handshake c1.url c1.headers) (by simp))
            (by simp [EndpointOutput.isHandshake])

/-- What is examined for the handshake, the first time that one is examined. -/
theorem runs_handshake (hc : c.Reading s) (hs : s.2 = false) {turns : List EndpointTurn}
    {before outs : List EndpointOutput} {e e' : Endpoint P}
    (hbefore : (Endpoint.websocket c).runs h accept turns = some (before, e)) (hquiet : Quiet before)
    {turn : EndpointTurn} (hrun : e.run h accept turn = some (outs, e')) {url : Bytes}
    {headers : HeaderMap} (hexamined : .handshake url headers ∈ outs) :
    ∃ fed, fed = (h.feed websocketRecorder c.httpParser s
        ((turns ++ [turn]).flatMap EndpointTurn.pieces)).2 ∧ fed.2 = true ∧
      url = fed.1.url ∧ headers = HeaderMap.ofList fed.1.headers := by
  rcases runs_reading hc hs hbefore hquiet with hclosed | ⟨c1, rfl, hparser, hreading, hopen⟩
  · exact absurd ((run_closed hclosed hrun).1 _ hexamined) (by simp [EndpointOutput.isHandshake])
  · rcases run_reading hreading hopen hrun with ⟨hsilent, -⟩ | ⟨hdone, c2, hc2, rest, rfl, hsilent⟩
    · exact absurd (hsilent _ hexamined) (by simp [EndpointOutput.isHandshake])
    · rw [hparser, ← HttpParser.feed_append] at hdone hc2
      rcases List.mem_cons.mp hexamined with heq | hin
      · cases heq
        refine ⟨_, rfl, ?_⟩
        rw [List.flatMap_append, List.flatMap_singleton]
        exact ⟨hdone, hc2.url, hc2.headers⟩
      · exact absurd (hsilent _ hin) (by simp [EndpointOutput.isHandshake])

end Endpoint

/-! ## The request that is acted on -/

/-- `process_callback` is called for the first time in the run `turn` that follows `turns`, and
what it sees is `view`. -/
def HttpConnection.FirstProcess {P : Type} (h : HttpParser P) (c : HttpConnection P)
    (turns : List HttpTurn) (turn : HttpTurn) (view : HttpView) : Prop :=
  (∀ o ∈ (c.runs h turns).1, o.isProcess = false) ∧
    ∃ callback, .processCallback callback view ∈ ((c.runs h turns).2.run h turn).1

/-- A handshake is examined for the first time in the run `turn` that follows `turns`, with this
url and these headers. -/
def Endpoint.FirstHandshake {P : Type} (h : HttpParser P) (accept : Bytes → AcceptKey)
    (e : Endpoint P) (turns : List EndpointTurn) (turn : EndpointTurn) (url : Bytes)
    (headers : HeaderMap) : Prop :=
  ∃ before e' outs e'', e.runs h accept turns = some (before, e') ∧ Quiet before ∧
    e'.run h accept turn = some (outs, e'') ∧ .handshake url headers ∈ outs

theorem blocks_pieces_ne_nil (turns : List HttpTurn) :
    ∀ piece ∈ turns.flatMap HttpTurn.pieces, piece ≠ [] := by
  intro piece hpiece
  obtain ⟨turn, -, hmem⟩ := List.mem_flatMap.mp hpiece
  unfold HttpTurn.pieces at hmem
  split at hmem
  · cases hmem
  · cases hmem
  · exact SockRecv.blocks_ne_nil _ piece hmem

theorem handshake_pieces_ne_nil (turns : List EndpointTurn) :
    ∀ piece ∈ turns.flatMap EndpointTurn.pieces, piece ≠ [] := by
  intro piece hpiece
  obtain ⟨turn, -, hmem⟩ := List.mem_flatMap.mp hpiece
  unfold EndpointTurn.pieces at hmem
  split at hmem
  · cases hmem
  · cases hmem
  · exact SockRecv.blocks_ne_nil _ piece hmem

/-- The request that is acted on is the first request exactly when its url, each field name and
each value was reported in one piece, and none of them, nor the body, was added to by what
follows the request. -/
theorem requests_acted_on_iff {P : Type} (h : HttpParser P) (hdoc : h.Documented)
    (accept : Bytes → AcceptKey) :
    (∀ (request : Bytes) (r : Request), h.Reports .messageComplete request r →
      ∀ (c : HttpConnection P) (socketPtr : Option Nat) (gid : Nat) (turns : List HttpTurn)
        (turn : HttpTurn) (view : HttpView) (pieces : List Bytes) (rest : Bytes),
      (c.prepare h.init socketPtr gid).FirstProcess h turns turn view →
      pieces = (turns ++ [turn]).flatMap HttpTurn.pieces → pieces.flatten = request ++ rest →
      ((view.url = r.url ∧ view.headers = HeaderMap.ofList r.headers ∧ view.body = r.body) ↔
        Unbroken (.ofEvents (ParserEvent.messageComplete.before (h.callbacks h.init pieces)))
            (ParserEvent.messageComplete.behind (h.callbacks h.init pieces)) ∧
          (bodyPieces (ParserEvent.messageComplete.behind
            (h.callbacks h.init pieces))).flatten = [])) ∧
    (∀ (request : Bytes) (r : Request), h.Reports .headersComplete request r →
      ∀ (c : WebsocketConnection P) (socketPtr : Option Nat) (gid : Nat)
        (turns : List EndpointTurn) (turn : EndpointTurn) (url : Bytes) (headers : HeaderMap)
        (pieces : List Bytes) (rest : Bytes),
      ((Endpoint.websocket c).prepare h.init socketPtr gid).FirstHandshake h accept turns turn url
        headers →
      pieces = (turns ++ [turn]).flatMap EndpointTurn.pieces → pieces.flatten = request ++ rest →
      ((url = r.url ∧ headers = HeaderMap.ofList r.headers) ↔
        Unbroken (.ofEvents (ParserEvent.headersComplete.before (h.callbacks h.init pieces)))
          ((ParserEvent.headersComplete.behind (h.callbacks h.init pieces)).takeWhile
            ParserEvent.accepted))) := by
  constructor
  · rintro request r hreports c socketPtr gid turns turn view pieces rest ⟨hquiet, callback, hcall⟩
      hpieces hflat
    have hreading : (c.prepare h.init socketPtr gid).Reading (.empty, false) :=
      ⟨rfl, rfl, rfl, rfl, rfl, rfl, rfl, rfl⟩
    obtain ⟨fed, hfed, hdone, hurl, hheaders, hbody⟩ :=
      HttpConnection.runs_process hreading rfl turns hquiet turn hcall
    rw [← hpieces, HttpParser.feed_eq hdoc] at hfed
    obtain ⟨hmem, hr⟩ := hreports pieces rest (by rw [hpieces]; exact blocks_pieces_ne_nil _) hflat
    have hsplit := before_behind hmem
    rw [hurl, hheaders, hbody, ← hr]
    refine http_recorded_iff (not_mem_before _ _) ?_ hdone
    rw [hsplit]
    exact hfed
  · rintro request r hreports c socketPtr gid turns turn url headers pieces rest
      ⟨before, e', outs, e'', hbefore, hquiet, hrun, hexamined⟩ hpieces hflat
    have hreading : (((c.reuse h.init).setSocketPtr socketPtr).setGid gid).Reading (.empty, false) :=
      ⟨rfl, rfl, rfl, rfl, rfl, rfl, rfl⟩
    obtain ⟨fed, hfed, hdone, hurl, hheaders⟩ :=
      Endpoint.runs_handshake hreading rfl hbefore hquiet hrun hexamined
    rw [← hpieces, HttpParser.feed_eq hdoc] at hfed
    obtain ⟨hmem, hr⟩ :=
      hreports pieces rest (by rw [hpieces]; exact handshake_pieces_ne_nil _) hflat
    have hsplit := before_behind hmem
    rw [hurl, hheaders, ← hr]
    refine websocket_recorded_iff (not_mem_before _ _) (hdoc.headersFirst pieces) ?_ hdone
    rw [hsplit]
    exact hfed

/-- A `recv` that gives an ASCII text. -/
def asciiBlock (text : String)
    (h : ascii text ≠ [] ∧ (ascii text).length ≤ httpBufferSize) : SockRecv httpBufferSize :=
  .block ⟨ascii text, h.1, h.2⟩

/-- A run in which `recv` gives these blocks, with callbacks that do nothing. -/
def httpRecvTurn (recv : List (SockRecv httpBufferSize)) : HttpTurn :=
  { ssl := .notNeeded
    recv
    send := []
    process := ⟨[], false⟩
    writeEnd := ⟨[], false⟩
    destory := ⟨[], false⟩ }

/-- `Unbroken` where no url and no value is reported behind the request. -/
theorem Unbroken.of_quiet {f : Fragments} {behind : List ParserEvent}
    (hurl : urlPieces behind = []) (hvalues : valuePieces behind = [])
    (hf : OnePiece f.url ∧ ∀ h ∈ f.headers, OnePiece h.1 ∧ h.2.length = 1) : Unbroken f behind := by
  refine ⟨fun _ => hf.1, ?_, hf.2, hvalues⟩
  intro url hlast
  rw [hurl] at hlast
  cases hlast

/-- A connection of the pool, prepared for a client. -/
def freshHttp : HttpConnection LineState :=
  (HttpConnection.new (fun _ => 0) lineParser.init none).prepare lineParser.init (some 3) 7

def freshWebsocket : Endpoint LineState :=
  (Endpoint.websocket (.new (fun _ => 0) lineParser.init none)).prepare lineParser.init (some 3) 7

def someKey : Bytes → AcceptKey := fun _ => ⟨List.replicate 28 65, rfl⟩

/-- A request that is cut behind its url. -/
def behindUrl : HttpTurn := httpRecvTurn [asciiBlock "GET /ab HT" (by decide)]
def behindUrlRest : HttpTurn := httpRecvTurn [asciiBlock "TP/1.1\r\nHost: x\r\n\r\n" (by decide)]

/-- A request that is cut between its headers. -/
def betweenHeaders : EndpointTurn :=
  { ssl := .notNeeded
    handshake := [asciiBlock "GET /ws HTTP/1.1\r\nUpgrade: websocket\r\n" (by decide),
      asciiBlock "Connection: Upgrade\r\n\r\n" (by decide)]
    recv := []
    process := ⟨[], false⟩
    send := []
    writeEnd := [] }

theorem requests_acted_on_cutBetween :
    (∃ view : HttpView, freshHttp.FirstProcess lineParser [behindUrl] behindUrlRest view ∧
      view.url = ascii "/ab" ∧ view.headers = HeaderMap.ofList [(ascii "Host", ascii "x")] ∧
      view.body = []) ∧
    (∃ url headers, freshWebsocket.FirstHandshake lineParser someKey [] betweenHeaders url headers ∧
      url = ascii "/ws" ∧
      headers = HeaderMap.ofList [(ascii "Upgrade", ascii "websocket"),
        (ascii "Connection", ascii "Upgrade")]) := by
  obtain ⟨hhttp, hwebsocket⟩ := requests_acted_on_iff lineParser lineParser_documented someKey
  constructor
  · have hreports : lineParser.Reports .messageComplete
        (ascii "GET /ab HTTP/1.1\r\nHost: x\r\n\r\n")
        ⟨ascii "/ab", [(ascii "Host", ascii "x")], []⟩ :=
      lineParser_reports (.inr rfl) _ (by decide +kernel)
    obtain ⟨view, hcall⟩ : ∃ view, ((freshHttp.runs lineParser [behindUrl]).2.run lineParser
        behindUrlRest).1[0]? = some (.processCallback httpAppProcess view) := ⟨_, rfl⟩
    have hfirst : freshHttp.FirstProcess lineParser [behindUrl] behindUrlRest view :=
      ⟨by decide +kernel, _, List.mem_of_getElem? hcall⟩
    refine ⟨view, hfirst, (hhttp _ _ hreports _ _ _ _ _ view _ [] hfirst rfl (by decide +kernel)).mpr
      ⟨.of_quiet (by decide +kernel) (by decide +kernel) (by decide +kernel), by decide +kernel⟩⟩
  · have hreports : lineParser.Reports .headersComplete
        (ascii "GET /ws HTTP/1.1\r\nUpgrade: websocket\r\nConnection: Upgrade\r\n\r\n")
        ⟨ascii "/ws", [(ascii "Upgrade", ascii "websocket"), (ascii "Connection", ascii "Upgrade")],
          []⟩ :=
      lineParser_reports (.inl rfl) _ (by decide +kernel)
    obtain ⟨url, headers, outs, e, hrun, hexamined⟩ : ∃ url headers outs e,
        freshWebsocket.run lineParser someKey betweenHeaders = some (outs, e) ∧
          outs[0]? = some (.handshake url headers) := ⟨_, _, _, _, rfl, rfl⟩
    have hfirst : freshWebsocket.FirstHandshake lineParser someKey [] betweenHeaders url headers :=
      ⟨[], _, outs, e, rfl, by simp [Quiet], hrun, List.mem_of_getElem? hexamined⟩
    refine ⟨url, headers, hfirst, (hwebsocket _ _ hreports _ _ _ _ _ url headers _ [] hfirst rfl
      (by decide +kernel)).mpr (.of_quiet (by decide +kernel) (by decide +kernel)
        (by decide +kernel))⟩

/-- A request that is cut in its url. -/
def inUrl : HttpTurn := httpRecvTurn [asciiBlock "GET /a" (by decide)]
def inUrlRest : HttpTurn := httpRecvTurn [asciiBlock "b HTTP/1.1\r\n\r\n" (by decide)]

/-- Only the second part of the url is acted on. -/
theorem request_cut_in_url :
    lineParser.Documented ∧
    lineParser.Reports .messageComplete (ascii "GET /ab HTTP/1.1\r\n\r\n") ⟨ascii "/ab", [], []⟩ ∧
    ([inUrl, inUrlRest].flatMap HttpTurn.pieces).flatten = ascii "GET /ab HTTP/1.1\r\n\r\n" ∧
    ∃ view : HttpView, freshHttp.FirstProcess lineParser [inUrl] inUrlRest view ∧
      ¬(view.url = ascii "/ab" ∧ view.headers = HeaderMap.ofList [] ∧ view.body = []) := by
  refine ⟨lineParser_documented, lineParser_reports (.inr rfl) _ (by decide +kernel),
    by decide +kernel, ?_⟩
  obtain ⟨view, hcall, hurl⟩ : ∃ view, ((freshHttp.runs lineParser [inUrl]).2.run lineParser
      inUrlRest).1[0]? = some (.processCallback httpAppProcess view) ∧ view.url = ascii "b" :=
    ⟨_, rfl, rfl⟩
  refine ⟨view, ⟨by decide +kernel, _, List.mem_of_getElem? hcall⟩, ?_⟩
  rw [hurl]
  exact fun heq => absurd heq.1 (by decide)

end Tubekit
