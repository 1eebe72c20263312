import Tubekit.Http.Recording
import Tubekit.Task.WebsocketTask

/-!
# The request that is acted on

`http_task::run` and the handshake of `websocket_task::run` act on the url and the headers that
the parser callbacks have recorded, from every piece that `recv` gave up to `EAGAIN`. They are
those of the first request only when each of its items was reported in one piece and nothing
that follows is reported in the same run: then, and only then (`requests_acted_on_iff`).

The callbacks are followed through `httpRecorder` and `websocketRecorder`, which keep only what
is recorded and whether the request is complete.
-/

namespace Tubekit

open Lib ParserEvent

/-- The blocks that a read loop gets before `EAGAIN`, an error or the end of the stream. -/
def SockRecv.blocks {size : Nat} : List (SockRecv size) → List Bytes
  | .block data :: answers => data.bytes :: blocks answers
  | .failed .eintr :: answers => blocks answers
  | _ => []

theorem SockRecv.blocks_ne_nil {size : Nat} (answers : List (SockRecv size)) :
    ∀ piece ∈ blocks answers, piece ≠ [] := by
  fun_induction blocks answers with
  | case1 data answers ih =>
    rw [List.forall_mem_cons]
    exact ⟨data.nonempty, ih⟩
  | case2 answers ih => exact ih
  | case3 => simp

/-! ## Recording until the request is complete -/

/-- A record, and whether the request is complete. -/
abbrev Recording := Recorded × Bool

/-- Callbacks that record and answer `reply`, where `ends` completes the request. -/
def recorder (reply : Recorded → ParserEvent → Int) (ends : ParserEvent → Bool) (s : Recording)
    (e : ParserEvent) : Int × Recording :=
  (reply s.1 e, s.1.add e, s.2 || ends e)

section

variable {reply : Recorded → ParserEvent → Int} {ends : ParserEvent → Bool}

theorem recorder_cons (r : Recorded) (b : Bool) (e : ParserEvent) (es : List ParserEvent) (i : Nat) :
    runCallbacks (recorder reply ends) (r, b) (e :: es) i =
      if reply r e = 0 then runCallbacks (recorder reply ends) (r.add e, b || ends e) es (i + 1)
      else ((r.add e, b || ends e), some i) := rfl

/-- Callbacks without an end of the message. -/
theorem recorder_before {es : List ParserEvent} (hes : ∀ e ∈ es, ends e = false) (r : Recorded)
    (i : Nat) :
    (runCallbacks (recorder reply ends) (r, false) es i).1.2 = false ∧
      ((runCallbacks (recorder reply ends) (r, false) es i).2 = none →
        (runCallbacks (recorder reply ends) (r, false) es i).1.1 = es.foldl Recorded.add r) := by
  induction es generalizing r i with
  | nil => exact ⟨rfl, fun _ => rfl⟩
  | cons e es ih =>
    rw [List.forall_mem_cons] at hes
    rw [recorder_cons, hes.1]
    split
    · exact ih hes.2 _ _
    · exact ⟨rfl, fun hnone => nomatch hnone⟩

/-- The request is complete when no callback before its end has stopped the parser. -/
theorem recorder_split {es behind : List ParserEvent} {mark : ParserEvent}
    (hes : ∀ e ∈ es, ends e = false) (hends : ends mark = true) (hreply : ∀ r, reply r mark = 0)
    (hadd : ∀ r : Recorded, r.add mark = r)
    (hdone : (runCallbacks (recorder reply ends) (.empty, false) (es ++ mark :: behind) 0).1.2 =
      true) :
    (runCallbacks (recorder reply ends) (.empty, false) es 0).2 = none ∧
      ∃ i, (runCallbacks (recorder reply ends) (.empty, false) (es ++ mark :: behind) 0).1 =
        (runCallbacks (recorder reply ends) (es.foldl Recorded.add .empty, true) behind i).1 := by
  obtain ⟨hflag, hall⟩ := @recorder_before reply _ _ hes .empty 0
  rw [runCallbacks_append] at hdone ⊢
  rcases hrun : runCallbacks (recorder reply ends) (.empty, false) es 0 with ⟨⟨r, b⟩, _ | j⟩
  · rw [hrun] at hflag hall
    have hr := hall rfl
    simp only at hflag hr
    subst hflag hr
    refine ⟨rfl, 0 + es.length + 1, ?_⟩
    simp only [recorder_cons, hreply, hadd, hends, if_true, Bool.false_or]
  · rw [hrun] at hflag hdone
    simp only at hflag hdone
    rw [hflag] at hdone
    cases hdone

end

/-! ## What `http_task` records -/

def httpReply (r : Recorded) : ParserEvent → Int
  | .body data => onBody (r.body ++ data).length
  | _ => 0

def httpRecorder : Recording → ParserEvent → Int × Recording :=
  recorder httpReply fun e => decide (e = .messageComplete)

/-- A callback of `http_task` that returns `0` keeps the body small. -/
theorem httpReply_eq_zero {r : Recorded} (hr : r.body.length ≤ 1024) {e : ParserEvent}
    (hzero : httpReply r e = 0) :
    r.body.length ≤ (r.add e).body.length ∧ (r.add e).body.length ≤ 1024 := by
  cases e with
  | body data =>
    simp only [httpReply, onBody] at hzero
    simp only [Recorded.add]
    split at hzero
    · cases hzero
    · rw [List.length_append] at *
      omega
  | _ => exact ⟨le_rfl, hr⟩

theorem httpRecorder_small {es : List ParserEvent} {r : Recorded} {b : Bool} {i : Nat}
    (hr : r.body.length ≤ 1024) (hnone : (runCallbacks httpRecorder (r, b) es i).2 = none) :
    (es.foldl Recorded.add r).body.length ≤ 1024 := by
  induction es generalizing r b i with
  | nil => exact hr
  | cons e es ih =>
    rw [httpRecorder, recorder_cons] at hnone
    split at hnone
    · rename_i hzero
      exact ih (httpReply_eq_zero hr hzero).2 hnone
    · cases hnone

/-- Callbacks behind the end of the message: all of them are recorded, or the parser is stopped
by bytes that were added to the body. -/
theorem httpRecorder_behind {r : Recorded} (hr : r.body.length ≤ 1024) (b : Bool)
    (es : List ParserEvent) (i : Nat) :
    (runCallbacks httpRecorder (r, b) es i).1.1 = es.foldl Recorded.add r ∨
      r.body.length < (runCallbacks httpRecorder (r, b) es i).1.1.body.length ∧
        (bodyPieces es).flatten ≠ [] := by
  induction es generalizing r b i with
  | nil => exact Or.inl rfl
  | cons e es ih =>
    rw [httpRecorder, recorder_cons]
    split
    · rename_i hzero
      obtain ⟨hgrow, hsmall⟩ := httpReply_eq_zero hr hzero
      rcases ih hsmall (b || decide (e = .messageComplete)) (i + 1) with heq | ⟨hlt, hne⟩
      · exact Or.inl heq
      · refine Or.inr ⟨by rw [httpRecorder] at hlt; omega, fun hnil => hne ?_⟩
        cases e with
        | body data =>
          simp only [bodyPieces, List.filterMap_cons, List.flatten_cons, List.append_eq_nil_iff]
            at hnil
          exact hnil.2
        | _ => exact hnil
    · rename_i hzero
      cases e with
      | body data =>
        simp only [httpReply, onBody] at hzero
        split at hzero
        · rename_i hlong
          rw [List.length_append] at hlong
          refine Or.inr ⟨?_, fun hnil => ?_⟩
          · simp only [Recorded.add, List.length_append]
            omega
          · simp only [bodyPieces, List.filterMap_cons, List.flatten_cons,
              List.append_eq_nil_iff] at hnil
            rw [hnil.1, List.length_nil] at hlong
            omega
        · exact absurd rfl hzero
      | _ => exact absurd rfl hzero

/-- The record of `http_task` at the end of its read loop is the first request exactly when the
request came unbroken and nothing was added. -/
theorem http_recorded_iff {es behind : List ParserEvent} (hes : .messageComplete ∉ es)
    {s : Recording}
    (hs : s = (runCallbacks httpRecorder (.empty, false) (es ++ .messageComplete :: behind) 0).1)
    (hdone : s.2 = true) :
    (s.1.url = (Request.assemble es).url ∧
        HeaderMap.ofList s.1.headers = HeaderMap.ofList (Request.assemble es).headers ∧
        s.1.body = (Request.assemble es).body) ↔
      Unbroken (Fragments.ofEvents es) behind ∧ (bodyPieces behind).flatten = [] := by
  rw [hs] at hdone
  have hbefore : ∀ e ∈ es, decide (e = .messageComplete) = false := by
    intro e he
    simp only [decide_eq_false_iff_not]
    rintro rfl
    exact hes he
  obtain ⟨hnone, i, hrun⟩ :=
    recorder_split hbefore (by simp) (fun _ => rfl) (fun _ => rfl) hdone
  have hlen := httpRecorder_small (by simp [Recorded.empty]) hnone
  rw [httpRecorder, hrun] at hs
  have hrecords := Recorded.records_ofEvents es
  rcases httpRecorder_behind hlen true behind i with heq | ⟨hlt, hne⟩
  · rw [httpRecorder, ← hs] at heq
    rw [heq]
    exact and_assoc.symm.trans (and_congr (recorded_iff hrecords behind)
      (recorded_body_iff hrecords behind))
  · -- the parser was stopped: the body has grown
    rw [httpRecorder, ← hs, hrecords.body] at hlt
    constructor
    · rintro ⟨-, -, hbody⟩
      rw [hbody] at hlt
      exact absurd hlt (lt_irrefl _)
    · exact fun hnothing => absurd hnothing.2 hne

/-! ## The runs of `http_task` -/

/-- The pieces of the stream that a run reads. -/
def HttpTurn.pieces (turn : HttpTurn) : List Bytes :=
  match turn.ssl with
  | .waiting _ => []
  | .failed => []
  | _ => SockRecv.blocks turn.recv

/-- The output is a call of `process_callback`. -/
def HttpOutput.isProcess : HttpOutput → Bool
  | .processCallback _ _ => true
  | _ => false

namespace HttpConnection

variable {P : Type} {h : HttpParser P} {c : HttpConnection P} {s : Recording}

/-- The connection is reading a request, and `s` is recorded of it. -/
structure Reading (c : HttpConnection P) (s : Recording) : Prop where
  closeFlag : c.closeFlag = false
  everythingEnd : c.everythingEnd = false
  processEnd : c.processEnd = false
  recvEnd : c.recvEnd = s.2
  url : c.url = s.1.url
  headFieldTmp : c.headFieldTmp = s.1.fieldTmp
  headers : c.headers = HeaderMap.ofList s.1.headers
  body : c.body = s.1.body

/-- The connection will not be processed any more. -/
def Ended (c : HttpConnection P) : Prop := c.closeFlag = true ∨ c.everythingEnd = true

theorem callback_reading (c : HttpConnection P) (s : Recording) (e : ParserEvent)
    (hc : c.Reading s) :
    (c.callback e).1 = (httpRecorder s e).1 ∧ (c.callback e).2.Reading (httpRecorder s e).2 := by
  obtain ⟨hclose, hend, hproc, hrecv, hurl, htmp, hheaders, hbody⟩ := hc
  have hopen : c.recvEnd = (s.2 || false) := by rw [Bool.or_false, hrecv]
  cases e with
  | headerValue data =>
    refine ⟨rfl, hclose, hend, hproc, hopen, hurl, htmp, ?_, hbody⟩
    simp [callback, addHeader, httpRecorder, recorder, Recorded.add, HeaderMap.ofList_append_singleton, htmp,
      hheaders]
  | body data =>
    refine ⟨?_, hclose, hend, hproc, hopen, hurl, htmp, hheaders, ?_⟩
    · simp [callback, addToBody, httpRecorder, recorder, httpReply, hbody]
    · simp [callback, addToBody, httpRecorder, recorder, Recorded.add, hbody]
  | messageComplete =>
    exact ⟨rfl, hclose, hend, hproc, by simp [callback, httpRecorder, recorder], hurl, htmp, hheaders, hbody⟩
  | url data =>
    exact ⟨rfl, hclose, hend, hproc, hopen, rfl, htmp, hheaders, hbody⟩
  | headerField data =>
    exact ⟨rfl, hclose, hend, hproc, hopen, hurl, rfl, hheaders, hbody⟩
  | _ =>
    exact ⟨rfl, hclose, hend, hproc, hopen, hurl, htmp, hheaders,
      hbody⟩

/-- The read loop ends the connection, or it feeds the parser with all that was received. -/
theorem readLoop_reading (hc : c.Reading s) (answers : List (SockRecv httpBufferSize)) :
    (readLoop h c answers).everythingEnd = true ∨
      (readLoop h c answers).httpParser =
        (h.feed httpRecorder c.httpParser s (SockRecv.blocks answers)).1 ∧
      (readLoop h c answers).Reading
        (h.feed httpRecorder c.httpParser s (SockRecv.blocks answers)).2 := by
  induction answers generalizing c s with
  | nil => exact Or.inr ⟨rfl, { hc with }⟩
  | cons answer answers ih =>
    cases answer with
    | eof => exact Or.inl rfl
    | failed errno =>
      cases errno with
      | eintr => exact ih { hc with }
      | eagain => exact Or.inr ⟨rfl, { hc with }⟩
      | other => exact Or.inl rfl
    | block data =>
      have hstored : Reading { c with
          buffer := Memory.store c.buffer 0 data.bytes
          bufferUsedLen := data.bytes.length } s := { hc with }
      obtain ⟨hsim, hstop⟩ := runCallbacks_sim callback_reading hstored
        (h.events c.httpParser data.bytes) 0
      simp only [readLoop, SockRecv.blocks, HttpParser.feed, HttpParser.execute,
        Memory.load_store_same, hstop]
      split
      · exact ih { hsim with }
      · split
        · exact Or.inl rfl
        · exact ih { hsim with }

/-- The application writes, and it may close the connection. -/
theorem acts_outputs (c : HttpConnection P) (l : List HttpAct) :
    ∀ o ∈ (c.acts l).1, o = .doTask ∨ ∃ result, o = .wrote result := by
  induction l generalizing c with
  | nil => simp [acts]
  | cons a l ih =>
    intro o ho
    rcases List.mem_append.mp ho with hact | hrest
    · cases a <;> grind [act]
    · exact ih _ o hrest

theorem acts_silent (c : HttpConnection P) (l : List HttpAct) :
    ∀ o ∈ (c.acts l).1, o.isProcess = false := by
  intro o ho
  rcases acts_outputs c l o ho with rfl | ⟨result, rfl⟩ <;> rfl

theorem acts_closeFlag (c : HttpConnection P) (l : List HttpAct) (hc : c.closeFlag = true) :
    (c.acts l).2.closeFlag = true := by
  induction l generalizing c with
  | nil => exact hc
  | cons a l ih =>
    refine ih (c.act a).2 ?_
    cases a <;> simp [act, markClose, hc]

theorem sendLoop_outputs (c : HttpConnection P) (answers : List SockSend) :
    ∀ o ∈ (c.sendLoop answers).1, ∃ bytes, o = .sent bytes := by
  fun_induction sendLoop c answers <;> grind

/-- A write sends, and it may call `write_end_callback`. -/
theorem write_outputs (c : HttpConnection P) (turn : HttpTurn) :
    ∀ o ∈ (c.write turn).1, (∃ bytes, o = .sent bytes) ∨
      (∃ callback view, o = .writeEndCallback callback view) ∨ o = .doTask ∨
      ∃ result, o = .wrote result := by
  have hsent := sendLoop_outputs c turn.send
  have hacts := fun c : HttpConnection P => acts_outputs c turn.writeEnd.acts
  unfold write notify attempt
  grind

theorem write_silent (c : HttpConnection P) (turn : HttpTurn) :
    ∀ o ∈ (c.write turn).1, o.isProcess = false := by
  intro o ho
  rcases write_outputs c turn o ho with ⟨bytes, rfl⟩ | ⟨callback, view, rfl⟩ | rfl | ⟨result, rfl⟩ <;>
    rfl

theorem wait_outputs (c : HttpConnection P) :
    ∀ o ∈ c.wait.1, o = .doTask ∨ ∃ listenSend, o = .attach listenSend := by
  unfold wait
  grind [act]

theorem wait_silent (c : HttpConnection P) : ∀ o ∈ c.wait.1, o.isProcess = false := by
  intro o ho
  rcases wait_outputs c o ho with rfl | ⟨listenSend, rfl⟩ <;> rfl

/-- What a run does to a connection that is not closed. -/
theorem run_open (hclose : c.closeFlag = false) (turn : HttpTurn) :
    (∃ listenSend, turn.pieces = [] ∧ c.run h turn = ([.attach listenSend], c)) ∨
      (turn.pieces = [] ∧ c.run h turn = c.act .markClose) ∨
      (turn.pieces = SockRecv.blocks turn.recv ∧ c.run h turn = c.serve h turn) := by
  unfold run HttpTurn.pieces
  rw [hclose]
  cases turn.ssl with
  | waiting listenSend => exact Or.inl ⟨listenSend, rfl, rfl⟩
  | failed => exact Or.inr (Or.inl ⟨rfl, rfl⟩)
  | notNeeded => exact Or.inr (Or.inr ⟨rfl, rfl⟩)
  | accepted => exact Or.inr (Or.inr ⟨rfl, rfl⟩)

/-- What is done after the read loop to a connection that has ended there. -/
theorem rest_ended (hc : c.everythingEnd = true) (turn : HttpTurn) :
    c.process turn.process = ([], c) ∧ c.write turn = ([], c) ∧ c.wait.2.Ended := by
  refine ⟨by simp [process, hc], by simp [write, hc], Or.inr ?_⟩
  cases hflag : c.closeFlag <;> simp [wait, act, markClose, hc, hflag]

theorem markClose_silent (c : HttpConnection P) :
    (c.act .markClose).2.Ended ∧ ∀ o ∈ (c.act .markClose).1, o.isProcess = false := by
  cases hflag : c.closeFlag <;> simp [act, markClose, hflag, Ended, HttpOutput.isProcess]

/-- A run of a connection that has ended. -/
theorem run_ended (hc : c.Ended) (turn : HttpTurn) :
    (c.run h turn).2.Ended ∧ ∀ o ∈ (c.run h turn).1, o.isProcess = false := by
  cases hclose : c.closeFlag with
  | true =>
    have hflag := acts_closeFlag c turn.destory.acts hclose
    have hacts := acts_silent c turn.destory.acts
    unfold run
    rw [if_pos hclose]
    split
    · exact ⟨Or.inl hflag, by grind [HttpOutput.isProcess]⟩
    · exact ⟨Or.inl hclose, by simp [HttpOutput.isProcess]⟩
  | false =>
    have hend : c.everythingEnd = true := hc.resolve_left (by simp [hclose])
    rcases run_open (h := h) hclose turn with ⟨l, -, hrun⟩ | ⟨-, hrun⟩ | ⟨-, hrun⟩
    · rw [hrun]
      exact ⟨hc, by simp [HttpOutput.isProcess]⟩
    · rw [hrun]
      exact markClose_silent c
    · obtain ⟨hprocess, hwrite, hwait⟩ := rest_ended hend turn
      have hread : c.read h turn.recv = c := by simp [read, hend]
      rw [hrun]
      simp only [serve, hread, hprocess, hwrite, List.nil_append]
      exact ⟨hwait, wait_silent c⟩

theorem runs_ended (hc : c.Ended) (turns : List HttpTurn) : (c.runs h turns).2.Ended := by
  induction turns generalizing c with
  | nil => exact hc
  | cons turn turns ih => exact ih (run_ended hc turn).1

/-- A run of a connection that is reading: it ends, it goes on reading, or the request is
complete and `process_callback` is called with what has been recorded. -/
theorem run_reading (hc : c.Reading s) (hs : s.2 = false) (turn : HttpTurn) :
    ((∀ o ∈ (c.run h turn).1, o.isProcess = false) ∧
      ((c.run h turn).2.Ended ∨
        (c.run h turn).2.httpParser = (h.feed httpRecorder c.httpParser s turn.pieces).1 ∧
        (c.run h turn).2.Reading (h.feed httpRecorder c.httpParser s turn.pieces).2 ∧
        (h.feed httpRecorder c.httpParser s turn.pieces).2.2 = false)) ∨
      (h.feed httpRecorder c.httpParser s turn.pieces).2.2 = true ∧
      ∃ c' : HttpConnection P, c'.Reading (h.feed httpRecorder c.httpParser s turn.pieces).2 ∧
        ∃ outs, (c.run h turn).1 = .processCallback httpAppProcess c'.view :: outs ∧
          ∀ o ∈ outs, o.isProcess = false := by
  rcases run_open (h := h) hc.closeFlag turn with ⟨l, hpieces, hrun⟩ | ⟨hpieces, hrun⟩ |
    ⟨hpieces, hrun⟩
  · rw [hrun, hpieces]
    exact Or.inl ⟨by simp [HttpOutput.isProcess], Or.inr ⟨rfl, hc, hs⟩⟩
  · rw [hrun]
    exact Or.inl ⟨(markClose_silent c).2, Or.inl (markClose_silent c).1⟩
  · have hstart : Reading { c with bufferUsedLen := 0 } s := { hc with }
    have hread : c.read h turn.recv = readLoop h { c with bufferUsedLen := 0 } turn.recv := by
      simp [read, hc.recvEnd, hs, hc.everythingEnd]
    rw [hrun, hpieces, serve, hread]
    rcases readLoop_reading (h := h) hstart turn.recv with hend | ⟨hparser, hreading⟩
    · obtain ⟨hprocess, hwrite, hwait⟩ := rest_ended hend turn
      left
      simp only [hprocess, hwrite, List.nil_append]
      exact ⟨wait_silent _, Or.inl hwait⟩
    · generalize readLoop h { c with bufferUsedLen := 0 } turn.recv = c1 at hparser hreading ⊢
      cases hdone : (h.feed httpRecorder c.httpParser s (SockRecv.blocks turn.recv)).2.2 with
      | true =>
        right
        have hrecv : c1.recvEnd = true := hreading.recvEnd.trans hdone
        refine ⟨rfl, c1, hreading, ?_⟩
        simp only [process, hreading.everythingEnd, hrecv, hreading.processEnd, Bool.not_false,
          Bool.and_self, if_true]
        refine ⟨_, rfl, ?_⟩
        intro o ho
        rcases List.mem_append.mp ho with ho | ho
        · rcases List.mem_append.mp ho with ho | ho
          · exact acts_silent _ _ o ho
          · exact write_silent _ _ o ho
        · exact wait_silent _ o ho
      | false =>
        left
        have hrecv : c1.recvEnd = false := hreading.recvEnd.trans hdone
        have hprocess : c1.process turn.process = ([], c1) := by simp [process, hrecv]
        have hwrite : c1.write turn = ([], c1) := by simp [write, hreading.processEnd]
        have hwait : c1.wait = ([.attach false], c1) := by
          simp [wait, hreading.everythingEnd, hrecv]
        simp only [hprocess, hwrite, hwait, List.nil_append]
        exact ⟨by simp [HttpOutput.isProcess], Or.inr ⟨hparser, hreading, trivial⟩⟩

/-- Runs without a call of `process_callback`. -/
theorem runs_reading (hc : c.Reading s) (hs : s.2 = false) (turns : List HttpTurn)
    (hquiet : ∀ o ∈ (c.runs h turns).1, o.isProcess = false) :
    (c.runs h turns).2.Ended ∨
      (c.runs h turns).2.httpParser =
        (h.feed httpRecorder c.httpParser s (turns.flatMap HttpTurn.pieces)).1 ∧
      (c.runs h turns).2.Reading
        (h.feed httpRecorder c.httpParser s (turns.flatMap HttpTurn.pieces)).2 ∧
      (h.feed httpRecorder c.httpParser s (turns.flatMap HttpTurn.pieces)).2.2 = false := by
  induction turns generalizing c s with
  | nil => exact Or.inr ⟨rfl, hc, hs⟩
  | cons turn turns ih =>
    have hfirst : ∀ o ∈ (c.run h turn).1, o.isProcess = false :=
      fun o ho => hquiet o (List.mem_append_left _ ho)
    have hrest : ∀ o ∈ ((c.run h turn).2.runs h turns).1, o.isProcess = false :=
      fun o ho => hquiet o (List.mem_append_right _ ho)
    rcases run_reading (h := h) hc hs turn with ⟨-, hended | ⟨hparser, hreading, hopen⟩⟩ |
      ⟨-, c', -, outs, houts, -⟩
    · exact Or.inl (runs_ended hended turns)
    · have hnext := ih hreading hopen hrest
      rw [hparser] at hnext
      rw [List.flatMap_cons, HttpParser.feed_append]
      exact hnext
    · rw [houts] at hfirst
      exact absurd (hfirst _ List.mem_cons_self) (by simp [HttpOutput.isProcess])

/-- What `process_callback` is called with, the first time that it is called. -/
theorem runs_process (hc : c.Reading s) (hs : s.2 = false) (turns : List HttpTurn)
    (hquiet : ∀ o ∈ (c.runs h turns).1, o.isProcess = false) (turn : HttpTurn) {callback : Nat}
    {view : HttpView}
    (hcall : .processCallback callback view ∈ ((c.runs h turns).2.run h turn).1) :
    ∃ fed, fed = (h.feed httpRecorder c.httpParser s
        ((turns ++ [turn]).flatMap HttpTurn.pieces)).2 ∧ fed.2 = true ∧
      view.url = fed.1.url ∧ view.headers = HeaderMap.ofList fed.1.headers ∧
      view.body = fed.1.body := by
  rcases runs_reading hc hs turns hquiet with hended | ⟨hparser, hreading, hopen⟩
  · exact absurd ((run_ended hended turn).2 _ hcall) (by simp [HttpOutput.isProcess])
  · rcases run_reading (h := h) hreading hopen turn with ⟨hsilent, -⟩ |
      ⟨hdone, c', hc', outs, houts, hsilent⟩
    · exact absurd (hsilent _ hcall) (by simp [HttpOutput.isProcess])
    · rw [hparser, ← HttpParser.feed_append] at hdone hc'
      rw [houts, List.mem_cons] at hcall
      rcases hcall with hcall | hcall
      · cases hcall
        refine ⟨_, rfl, ?_⟩
        rw [List.flatMap_append, List.flatMap_singleton]
        exact ⟨hdone, hc'.url, hc'.headers, hc'.body⟩
      · exact absurd (hsilent _ hcall) (by simp [HttpOutput.isProcess])

end HttpConnection

end Tubekit
