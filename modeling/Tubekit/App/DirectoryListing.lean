import Tubekit.App.HttpApp
import Tubekit.Lib.Transition
import Tubekit.Task.Response
import Tubekit.Utility.UrlCoding

/-!
# Directory listings

The page that `http_app` makes of a directory, and how it is sent: `process_callback` appends the
head of the response and calls `write_end_callback`, which appends a slice of the page each time
that `http_task` calls it. Every slice is taken from the front of the page. `appended_eq` says what
has been appended then, and `listing_whole_iff` for which pages that is the page.
-/

namespace Tubekit.HttpApp

open Lib Lib.Transition

/-! ## The page -/

def blanks (n : Nat) : Bytes := List.replicate n 32

def frame1 : Bytes :=
  ascii "<!DOCTYPE html>" ++ blanks 24 ++ ascii "<html>" ++ blanks 24 ++ ascii "<head>" ++
    blanks 24 ++ ascii "<title></title>" ++ blanks 24 ++ ascii "</head>" ++ blanks 24 ++
    ascii "<body>"

def frame2 : Bytes := ascii "</body>" ++ blanks 32 ++ ascii "</html>"

/-- `html_loader::load`. -/
def load (body : Bytes) : Bytes := frame1 ++ body ++ frame2

/-- `html_loader::a_tag`. -/
def aTag (url text : Bytes) : Bytes :=
  ascii "<a href=\"" ++ url ++ ascii "\">" ++ text ++ ascii "</a></br>"

/-- The path of an entry of the directory `path`. -/
def entryPath (path name : Bytes) : Bytes :=
  if path = [] ∨ path.getLast? = some 47 then path ++ name else path ++ 47 :: name

/-- The page for a directory, where `url` is the decoded target and `names` are the entries in the
order of the iterator. -/
def listing (httpStaticDir url : Bytes) (names : List Bytes) : Bytes :=
  load (names.flatMap fun name =>
    let subPath := (entryPath (httpStaticDir ++ url) name).drop httpStaticDir.length
    aTag (Url.encode subPath) subPath)

/-- The address in the link of an entry. -/
def linkUrl (httpStaticDir url name : Bytes) : Bytes :=
  Url.encode ((entryPath (httpStaticDir ++ url) name).drop httpStaticDir.length)

theorem listing_eq (httpStaticDir url : Bytes) (names : List Bytes) :
    listing httpStaticDir url names =
      load (names.flatMap fun name => aTag (linkUrl httpStaticDir url name)
        ((entryPath (httpStaticDir ++ url) name).drop httpStaticDir.length)) := rfl

theorem append_drop_entryPath (httpStaticDir url name : Bytes) :
    httpStaticDir ++ (entryPath (httpStaticDir ++ url) name).drop httpStaticDir.length =
      entryPath (httpStaticDir ++ url) name := by
  obtain ⟨rest, hrest⟩ : ∃ rest, entryPath (httpStaticDir ++ url) name = httpStaticDir ++ rest := by
    unfold entryPath
    split
    · exact ⟨url ++ name, List.append_assoc _ _ _⟩
    · exact ⟨url ++ 47 :: name, List.append_assoc _ _ _⟩
  rw [hrest, List.drop_left]

/-- **Links.** The decoder undoes the encoder for all bytes, and so `process_callback` comes from the
link of an entry back to its path. -/
theorem links_lead_back :
    (∀ text : Bytes, Url.decode (Url.encode text) = text) ∧
      ∀ httpStaticDir url name : Bytes,
        httpStaticDir ++ Url.decode (linkUrl httpStaticDir url name) =
          entryPath (httpStaticDir ++ url) name := by
  refine ⟨Url.decode_encode, fun httpStaticDir url name => ?_⟩
  rw [linkUrl, Url.decode_encode, append_drop_entryPath]

def responseHead : Bytes :=
  ascii "HTTP/1.1 200 OK\r\nServer: tubekit\r\nContent-Type: text/html; charset=UTF-8\r\n\r\n"

/-! ## The callbacks -/

/-- `DIR_TYPE`: the page, and how many of its bytes count as sent. -/
structure DirType where
  page : Bytes
  alreadySize : Nat

namespace DirType

def needSend (d : DirType) : Nat :=
  let needSend := d.page.length - d.alreadySize
  if needSend > 102400 then 102400 else needSend

theorem needSend_le (d : DirType) : d.needSend ≤ 102400 := by
  unfold needSend
  simp only
  split <;> omega

theorem needSend_bounds (d : DirType) (hmore : d.page.length > d.alreadySize) :
    0 < d.needSend ∧ d.needSend ≤ d.page.length - d.alreadySize ∧
      (d.needSend = 102400 ∨ d.needSend = d.page.length - d.alreadySize) := by
  unfold needSend
  simp only
  split <;> omega

/-- `write(buffer_ptr, need_send)`, where `buffer_ptr` is the beginning of the page. -/
def slice (d : DirType) : MemoryBlock where
  bytes := d.page.take d.needSend
  fits := by
    have hle := d.needSend_le
    rw [List.length_take]
    unfold maxObjectSize
    omega

/-- The `write_end_callback` of a listing. -/
def writeEnd (d : DirType) : HttpScript :=
  if d.page.length > d.alreadySize then { acts := [.write (some d.slice)], throws := false }
  else { acts := [.setResponseEnd true], throws := false }

/-- `already_size += need_send`, unless the write has thrown. -/
def after (d : DirType) (outs : List HttpOutput) : DirType :=
  if d.page.length > d.alreadySize && !outs.any (·.isFailedWrite) then
    { d with alreadySize := d.alreadySize + d.needSend }
  else d

end DirType

/-- What was appended by a callback that shows `outs`. -/
def written (outs : List HttpOutput) (bytes : Bytes) : Bytes :=
  if outs.any (·.isFailedWrite) then [] else bytes

/-- The members that the directory branch installs. -/
def httpAppWriteEnd : Nat := 2
def httpAppResponse : Nat := 3

/-- The block of the head. -/
def headBlock : MemoryBlock where
  bytes := responseHead
  fits := by decide

/-- What the directory branch does before it calls `write_end_callback`. -/
def directoryHead : List HttpAct :=
  [.setPtr (some httpAppResponse), .write (some headBlock),
    .setWriteEndCallback (some httpAppWriteEnd)]

/-- The connection with its `DIR_TYPE`, and all that was appended to `m_send_buffer`. -/
structure DirResponse (P : Type) where
  connection : HttpConnection P
  dir : DirType
  appended : Bytes

namespace DirResponse

variable {P : Type}

/-- The directory branch of `process_callback`. -/
def begin (page : Bytes) (c : HttpConnection P) : DirResponse P :=
  let (headOuts, c) := c.acts directoryHead
  let dir : DirType := { page, alreadySize := 0 }
  let (outs, c) := c.acts dir.writeEnd.acts
  { connection := c
    dir := dir.after outs
    appended := written headOuts responseHead ++ written outs dir.writeEnd.payload }

/-- A run of `http_task`, which calls `write_end_callback` or not. -/
def next (h : HttpParser P) (s : DirResponse P) (turn : HttpTurn) : DirResponse P :=
  let (outs, c) := s.connection.run h { turn with writeEnd := s.dir.writeEnd }
  if outs.any (·.isWriteEnd) then
    { connection := c
      dir := s.dir.after outs
      appended := s.appended ++ written outs s.dir.writeEnd.payload }
  else { s with connection := c }

/-- The run calls `write_end_callback`. -/
def Calls (h : HttpParser P) (s : DirResponse P) (turn : HttpTurn) : Prop :=
  (s.connection.run h { turn with writeEnd := s.dir.writeEnd }).1.any (·.isWriteEnd) = true

theorem Calls.next_eq {h : HttpParser P} {s : DirResponse P} {turn : HttpTurn}
    (hcalls : s.Calls h turn) :
    let out := s.connection.run h { turn with writeEnd := s.dir.writeEnd }
    s.next h turn =
      { connection := out.2
        dir := s.dir.after out.1
        appended := s.appended ++ written out.1 s.dir.writeEnd.payload } :=
  if_pos hcalls

end DirResponse

/-- What `process_callback` finds: the request has been read, and nothing is to be sent. -/
structure Ready {P : Type} (c : HttpConnection P) : Prop where
  closeFlag : c.closeFlag = false
  everythingEnd : c.everythingEnd = false
  recvEnd : c.recvEnd = true
  processEnd : c.processEnd = true
  responseEnd : c.responseEnd = false
  wf : c.sendBuffer.Wf
  limit : c.sendBuffer.limitMax = httpMemBufferSizeMax
  content : c.sendBuffer.content = []
  start : 0 ≤ c.bufferStartUse
  used : c.bufferUsedLen = c.bufferStartUse

theorem acts_append {P : Type} (c : HttpConnection P) (l l' : List HttpAct) :
    (c.acts (l ++ l')).2 = ((c.acts l).2.acts l').2 := by
  induction l generalizing c with
  | nil => rfl
  | cons a l ih =>
    simp only [List.cons_append, HttpConnection.acts]
    exact ih _

/-- The phase of `http_task` that calls `process_callback`, where it takes the directory branch. -/
theorem process_begin {P : Type} {c : HttpConnection P} (hopen : c.everythingEnd = false)
    (hrecv : c.recvEnd = true) (hprocess : c.processEnd = false) (page : Bytes) :
    let dir : DirType := { page, alreadySize := 0 }
    (c.process { acts := directoryHead ++ dir.writeEnd.acts, throws := false }).2 =
      (DirResponse.begin page { c with
        processEnd := true
        destoryCallback := some httpAppDestory
        processCallback := some httpAppProcess }).connection := by
  intro dir
  simp only [HttpConnection.process, hopen, hrecv, hprocess, Bool.not_false, Bool.and_self, if_true,
    HttpConnection.attempt, Bool.false_eq_true, if_false]
  exact acts_append _ _ _

/-- The runs of `http_task` from the directory branch on. -/
def system {P : Type} (h : HttpParser P) (page : Bytes) : System (DirResponse P) HttpTurn where
  init s := ∃ c, Ready c ∧ s = .begin page c
  next s turn := some (s.next h turn)

/-! ## The phases of a run -/

/-- The response is being sent. -/
structure Serving {P : Type} (c : HttpConnection P) : Prop where
  closeFlag : c.closeFlag = false
  recvEnd : c.recvEnd = true
  processEnd : c.processEnd = true
  callback : c.writeEndCallback = some httpAppWriteEnd
  wf : c.sendBuffer.Wf
  limit : c.sendBuffer.limitMax = httpMemBufferSizeMax
  start : 0 ≤ c.bufferStartUse
  order : c.bufferStartUse ≤ c.bufferUsedLen

variable {P : Type} {h : HttpParser P} {c : HttpConnection P} {d : DirType}

theorem Serving.fit (hc : Serving c) : c.Fit :=
  ⟨hc.wf, hc.limit ▸ (by decide : httpMemBufferSizeMax ≤ maxObjectSize), hc.start⟩

theorem Serving.sendLoop (hc : Serving c) (answers : List SockSend) :
    Serving (c.sendLoop answers).2 ∧ (c.sendLoop answers).2.sendBuffer = c.sendBuffer := by
  induction answers generalizing c with
  | nil => exact ⟨hc, rfl⟩
  | cons answer answers ih =>
    simp only [HttpConnection.sendLoop]
    split
    case isFalse => exact ⟨hc, rfl⟩
    case isTrue hmore =>
      cases answer with
      | failed errno =>
        cases errno with
        | eintr => exact ih hc
        | eagain => exact ⟨hc, rfl⟩
        | other => exact ⟨{ hc with }, rfl⟩
      | took k =>
        cases k with
        | zero => exact ⟨{ hc with }, rfl⟩
        | succ k =>
          have hstart := hc.start
          exact ih { hc with
            start := by simp only; omega
            order := by simp only; omega }

theorem DirType.slice_ne_nil (hmore : d.alreadySize < d.page.length) : d.slice.bytes ≠ [] := by
  have hneed := (d.needSend_bounds hmore).1
  apply List.ne_nil_of_length_pos
  simp only [slice, List.length_take]
  omega

/-- A write that fits is appended. -/
theorem Serving.write (hc : Serving c) {block : MemoryBlock} (hne : block.bytes ≠ [])
    (hroom : c.sendBuffer.content.length + block.bytes.length ≤ httpMemBufferSizeMax) :
    ∃ b, c.act (.write (some block)) = ([.wrote (.ok block.bytes.length)], { c with sendBuffer := b }) ∧
      Serving { c with sendBuffer := b } ∧ b.content = c.sendBuffer.content ++ block.bytes := by
  have hmax : httpMemBufferSizeMax < 2 ^ 64 := by decide
  obtain ⟨b, hwf, hlimit, hwrite⟩ := Buffer.write_spec hc.wf hne (by omega)
  rw [hc.limit, if_pos hroom] at hwrite
  refine ⟨b, ?_, { hc with wf := hwf, limit := hlimit.trans hc.limit }, hwrite.2⟩
  simp only [HttpConnection.act, Option.map_some, hwrite.1]

/-- What a call of the `write_end_callback` shows and does. -/
structure Called (d : DirType) (c : HttpConnection P) (outs : List HttpOutput)
    (c' : HttpConnection P) : Prop where
  serving : Serving c'
  quiet : outs.any (·.isWriteEnd) = false
  wrote : outs.any (·.isFailedWrite) = false
  content : c'.sendBuffer.content = c.sendBuffer.content ++ d.writeEnd.payload
  everythingEnd : c'.everythingEnd = c.everythingEnd
  responseEnd : c'.responseEnd = (c.responseEnd || decide (d.page.length ≤ d.alreadySize))
  start : c'.bufferStartUse = c.bufferStartUse
  used : c'.bufferUsedLen = c.bufferUsedLen

theorem Serving.called (hc : Serving c)
    (hroom : c.sendBuffer.content.length + 102400 ≤ httpMemBufferSizeMax) :
    Called d c (c.acts d.writeEnd.acts).1 (c.acts d.writeEnd.acts).2 := by
  unfold DirType.writeEnd
  by_cases hmore : d.page.length > d.alreadySize
  · have hle : d.slice.bytes.length ≤ 102400 :=
      Nat.le_trans (List.length_take_le _ _) d.needSend_le
    obtain ⟨b, hact, hserving, hcontent⟩ := hc.write (d.slice_ne_nil hmore) (by omega)
    have hfalse : decide (d.page.length ≤ d.alreadySize) = false := decide_eq_false (by omega)
    simp only [if_pos hmore, HttpConnection.acts, hact, List.append_nil]
    exact ⟨hserving, rfl, rfl, by simp [hcontent, HttpScript.payload, HttpAct.payload,
      DirType.writeEnd, hmore], rfl, by simp [hfalse], rfl, rfl⟩
  · have htrue : decide (d.page.length ≤ d.alreadySize) = true := decide_eq_true (by omega)
    simp only [if_neg hmore, HttpConnection.acts, HttpConnection.act, List.append_nil]
    exact ⟨{ hc with }, rfl, rfl, by simp [HttpScript.payload, HttpAct.payload, DirType.writeEnd,
      hmore], rfl, by simp [htrue], rfl, rfl⟩

/-- Nothing has happened but that `m_send_buffer` may have been set up. -/
structure Alike (c c' : HttpConnection P) : Prop where
  serving : Serving c'
  content : c'.sendBuffer.content = c.sendBuffer.content
  everythingEnd : c'.everythingEnd = c.everythingEnd
  responseEnd : c'.responseEnd = c.responseEnd
  start : c'.bufferStartUse = c.bufferStartUse
  used : c'.bufferUsedLen = c.bufferUsedLen

theorem Serving.drained (hc : Serving c) :
    ∃ c', Alike c c' ∧ c.drained =
      (if c.bufferStartUse = c.bufferUsedLen then some c.sendBuffer.content.length else none, c') := by
  obtain ⟨b, hdrained, hwf, hcontent, hlimit⟩ := HttpConnection.drained_spec hc.fit
  exact ⟨{ c with sendBuffer := b }, ⟨{ hc with wf := hwf, limit := hlimit.trans hc.limit },
    hcontent, rfl, rfl, rfl, rfl⟩, hdrained⟩

/-- All has been sent, and the response goes on. -/
def Idle (c : HttpConnection P) : Prop :=
  c.bufferStartUse = c.bufferUsedLen ∧ c.sendBuffer.content = [] ∧ c.responseEnd = false

/-- `http_task` calls the `write_end_callback` of an idle connection. -/
theorem Serving.notify (hc : Serving c) :
    ¬Idle c ∧ (c.notify d.writeEnd).1 = [] ∧ Alike c (c.notify d.writeEnd).2 ∨
    Idle c ∧ ∃ view outs, (c.notify d.writeEnd).1 = .writeEndCallback httpAppWriteEnd view :: outs ∧
      Called d c outs (c.notify d.writeEnd).2 := by
  obtain ⟨c₁, halike, hdrained⟩ := hc.drained
  unfold HttpConnection.notify
  rw [hdrained]
  by_cases hidle : c.bufferStartUse = c.bufferUsedLen
  · rw [if_pos hidle]
    rcases hlen : c.sendBuffer.content.length with _ | n
    · have hnil := List.eq_nil_of_length_eq_zero hlen
      rcases Bool.eq_false_or_eq_true c₁.responseEnd with hresponse | hresponse
      · refine Or.inl ⟨fun hall => ?_, ?_⟩
        · have hopen := hall.2.2
          rw [← halike.responseEnd, hresponse] at hopen
          cases hopen
        · simp only [hresponse, Bool.not_true, Bool.false_eq_true, if_false, true_and]
          exact halike
      · have hthrows : d.writeEnd.throws = false := by
          unfold DirType.writeEnd
          split <;> rfl
        have hcalled : Called d c₁ _ _ :=
          halike.serving.called (by rw [halike.content, hnil]; decide)
        refine Or.inr ⟨⟨hidle, hnil, halike.responseEnd ▸ hresponse⟩, c₁.view,
          (c₁.acts d.writeEnd.acts).1, ?_, ?_⟩
        · simp only [hresponse, Bool.not_false, if_true, halike.serving.callback,
            HttpConnection.attempt]
        · simp only [hresponse, Bool.not_false, if_true, halike.serving.callback,
            HttpConnection.attempt, hthrows, Bool.false_eq_true, if_false]
          exact ⟨hcalled.serving, hcalled.quiet, hcalled.wrote, by rw [hcalled.content, halike.content],
            hcalled.everythingEnd.trans halike.everythingEnd,
            by rw [hcalled.responseEnd, halike.responseEnd], hcalled.start.trans halike.start,
            hcalled.used.trans halike.used⟩
    · refine Or.inl ⟨fun hall => ?_, rfl, halike⟩
      rw [hall.2.1] at hlen
      cases hlen
  · rw [if_neg hidle]
    exact Or.inl ⟨fun hall => hidle hall.1, rfl, halike⟩

theorem Serving.refill (hc : Serving c) :
    Serving c.refill ∧ c.refill.everythingEnd = c.everythingEnd ∧
      c.refill.responseEnd = c.responseEnd ∧
      c.refill.sendBuffer.content.length ≤ c.sendBuffer.content.length ∧
      (c.bufferStartUse = c.bufferUsedLen → c.sendBuffer.content ≠ [] →
        c.refill.sendBuffer.content.length < c.sendBuffer.content.length) := by
  obtain ⟨c₁, halike, hdrained⟩ := hc.drained
  have hwf := halike.serving.wf
  have hsize := congrArg List.length halike.content
  unfold HttpConnection.refill
  rw [hdrained]
  by_cases hidle : c.bufferStartUse = c.bufferUsedLen
  · rw [if_pos hidle]
    rcases hlen : c.sendBuffer.content.length with _ | n
    · exact ⟨halike.serving, halike.everythingEnd, halike.responseEnd,
        Nat.le_of_eq (hsize.trans hlen),
        fun _ hne => absurd (List.eq_nil_of_length_eq_zero hlen) hne⟩
    · obtain ⟨b, hread, hwf₁, hcontent, hlimit⟩ :=
        Buffer.read_spec hwf (by decide : 0 < httpBufferSize - 1)
      have hdrop : b.content.length < n + 1 := by
        rw [hcontent, List.length_drop]
        unfold httpBufferSize
        omega
      simp only [hread]
      exact ⟨{ halike.serving with
        wf := hwf₁
        limit := hlimit.trans halike.serving.limit
        start := Int.le_refl 0
        order := Int.natCast_nonneg _ }, halike.everythingEnd, halike.responseEnd,
        Nat.le_of_lt hdrop, fun _ _ => hdrop⟩
  · rw [if_neg hidle]
    exact ⟨halike.serving, halike.everythingEnd, halike.responseEnd, Nat.le_of_eq hsize,
      fun heq => absurd heq hidle⟩

theorem Serving.finish (hc : Serving c) :
    Serving c.finish ∧ c.finish.sendBuffer.content = c.sendBuffer.content ∧
      c.finish.responseEnd = c.responseEnd ∧
      (c.responseEnd = false → c.finish.everythingEnd = c.everythingEnd) := by
  obtain ⟨c₁, halike, hdrained⟩ := hc.drained
  have hstays : Serving c₁ ∧ c₁.sendBuffer.content = c.sendBuffer.content ∧
      c₁.responseEnd = c.responseEnd ∧ (c.responseEnd = false → c₁.everythingEnd = c.everythingEnd) :=
    ⟨halike.serving, halike.content, halike.responseEnd, fun _ => halike.everythingEnd⟩
  unfold HttpConnection.finish
  rw [hdrained]
  by_cases hidle : c.bufferStartUse = c.bufferUsedLen
  · rw [if_pos hidle]
    rcases hlen : c.sendBuffer.content.length with _ | n
    · simp only
      split
      · next hresponse =>
        refine ⟨{ halike.serving with }, halike.content, halike.responseEnd, fun hopen => ?_⟩
        rw [halike.responseEnd, hopen] at hresponse
        cases hresponse
      · exact hstays
    · exact hstays
  · rw [if_neg hidle]
    exact hstays

/-- The phase of a run that sends. -/
theorem Serving.writes (hc : Serving c) (hopen : c.everythingEnd = false) {turn : HttpTurn}
    (hturn : turn.writeEnd = d.writeEnd) :
    Serving (c.write turn).2 ∧
      ((c.write turn).1.any (·.isWriteEnd) = true →
        (c.write turn).1.any (·.isFailedWrite) = false ∧
          (c.write turn).2.responseEnd = decide (d.page.length ≤ d.alreadySize)) := by
  simp only [HttpConnection.write, hopen, hc.processEnd, Bool.not_false, Bool.and_self, if_true,
    hturn]
  have hserving₁ := (hc.sendLoop turn.send).1
  have hsent := HttpConnection.sendLoop_outputs c turn.send
  generalize c.sendLoop turn.send = p at hserving₁ hsent ⊢
  obtain ⟨sent, c₁⟩ := p
  simp only at hserving₁ hsent ⊢
  have hquiet : sent.any (·.isWriteEnd) = false ∧ sent.any (·.isFailedWrite) = false := by
    rw [List.any_eq_false, List.any_eq_false]
    constructor <;>
      · intro o ho
        obtain ⟨bytes, rfl⟩ := hsent o ho
        exact Bool.false_ne_true
  rcases hserving₁.notify (d := d) with ⟨-, hnone, halike⟩ | ⟨hidle, view, outs, houts, hcalled⟩
  · have hserving₂ := (halike.serving.refill).1.finish.1
    refine ⟨hserving₂, fun hany => ?_⟩
    rw [hnone, List.append_nil, hquiet.1] at hany
    cases hany
  · obtain ⟨hserving₂, -, hresponse₂, -⟩ := hcalled.serving.refill
    obtain ⟨hserving₃, -, hresponse₃, -⟩ := hserving₂.finish
    refine ⟨hserving₃, fun _ => ⟨?_, ?_⟩⟩
    · rw [houts, List.any_append, List.any_cons, hquiet.2, hcalled.wrote]
      rfl
    · rw [hresponse₃, hresponse₂, hcalled.responseEnd, hidle.2.2, Bool.false_or]

theorem serve_eq (hc : Serving c) (turn : HttpTurn) :
    c.serve h turn = ((c.write turn).1 ++ (c.write turn).2.wait.1, (c.write turn).2.wait.2) := by
  have hread : c.read h turn.recv = c := by simp [HttpConnection.read, hc.recvEnd]
  have hprocessed : c.process turn.process = ([], c) := by
    simp [HttpConnection.process, hc.processEnd]
  simp [HttpConnection.serve, hread, hprocessed]

/-- A run while the response is being sent: the connection is served on or has ended, and a call
of the `write_end_callback` is one with this `DIR_TYPE`. -/
theorem Serving.run (hc : Serving c) (hopen : c.everythingEnd = false) {turn : HttpTurn}
    (hturn : turn.writeEnd = d.writeEnd) :
    (Serving (c.run h turn).2 ∨ (c.run h turn).2.Ended) ∧
      ((c.run h turn).1.any (·.isWriteEnd) = true →
        (c.run h turn).1.any (·.isFailedWrite) = false ∧
          (c.run h turn).2.responseEnd = decide (d.page.length ≤ d.alreadySize)) := by
  rcases HttpConnection.run_open (h := h) hc.closeFlag turn with ⟨l, -, hrun⟩ | ⟨-, hrun⟩ | ⟨-, hrun⟩
  · rw [hrun]
    exact ⟨Or.inl hc, fun hany => by cases hany⟩
  · rw [hrun]
    refine ⟨Or.inr (HttpConnection.markClose_ended c).1, fun hany => ?_⟩
    obtain ⟨o, ho, hcall⟩ := List.any_eq_true.mp hany
    rw [(HttpConnection.idle_markClose c o ho).2.1] at hcall
    cases hcall
  · obtain ⟨hserving, hcalls⟩ := hc.writes hopen hturn
    rw [hrun, serve_eq hc]
    generalize c.write turn = p at hserving hcalls ⊢
    obtain ⟨outs, c₁⟩ := p
    simp only at hserving hcalls ⊢
    have hquiet : c₁.wait.1.any (·.isWriteEnd) = false ∧ c₁.wait.1.any (·.isFailedWrite) = false := by
      rw [List.any_eq_false, List.any_eq_false]
      constructor <;>
        · intro o ho
          rcases HttpConnection.wait_outputs c₁ o ho with rfl | ⟨listenSend, rfl⟩ <;>
            exact Bool.false_ne_true
    have hwait : (Serving c₁.wait.2 ∨ c₁.wait.2.Ended) ∧ c₁.wait.2.responseEnd = c₁.responseEnd := by
      cases hend : c₁.everythingEnd with
      | true =>
        refine ⟨Or.inr (HttpConnection.rest_ended hend turn).2.2, ?_⟩
        simp [HttpConnection.wait, hend, HttpConnection.act, HttpConnection.markClose,
          hserving.closeFlag]
      | false =>
        have hstays : c₁.wait.2 = c₁ := by simp [HttpConnection.wait, hend, hserving.recvEnd]
        exact ⟨Or.inl (by rw [hstays]; exact hserving), by rw [hstays]⟩
    refine ⟨hwait.1, fun hany => ?_⟩
    rw [List.any_append, hquiet.1, Bool.or_false] at hany
    obtain ⟨hwrote, hresponse⟩ := hcalls hany
    rw [List.any_append, hwrote, hquiet.2, hwait.2]
    exact ⟨rfl, hresponse⟩

/-! ## What is appended -/

/-- The first `n` bytes of what comes of sending the first slice of the page again and again. -/
def repeated (page : Bytes) (n : Nat) : Bytes :=
  (List.range n).map fun i => page.getD (i % 102400) 0

/-- A slice behind whole slices. -/
theorem repeated_add {page : Bytes} {n k : Nat} (hn : n % 102400 = 0) (hk : k ≤ 102400)
    (hle : k ≤ page.length) : repeated page (n + k) = repeated page n ++ page.take k := by
  unfold repeated
  rw [List.range_add, List.map_append, List.map_map]
  congr 1
  apply List.ext_getElem?
  intro i
  by_cases hi : i < k
  · rw [List.getElem?_map, List.getElem?_range hi, List.getElem?_take, if_pos hi,
      List.getElem?_eq_getElem (by omega)]
    simp only [Option.map_some, Function.comp_apply]
    rw [show (n + i) % 102400 = i from by omega, List.getD_eq_getElem?_getD,
      List.getElem?_eq_getElem (by omega), Option.getD_some]
  · rw [List.getElem?_eq_none (by simpa using hi),
      List.getElem?_eq_none (by rw [List.length_take]; omega)]

/-- What is appended is the page when the page repeats its first slice. -/
theorem repeated_eq_iff (page : Bytes) :
    repeated page page.length = page ↔
      ∀ i, i + 102400 < page.length → page[i + 102400]? = page[i]? := by
  have hget : ∀ i, i < page.length →
      (repeated page page.length)[i]? = page[i % 102400]? := by
    intro i hi
    have hmod : i % 102400 < page.length := by
      have := Nat.mod_le i 102400
      omega
    rw [repeated, List.getElem?_map, List.getElem?_range hi, List.getElem?_eq_getElem hmod]
    simp only [Option.map_some]
    rw [List.getD_eq_getElem?_getD, List.getElem?_eq_getElem hmod, Option.getD_some]
  constructor
  · intro heq i hi
    have hfirst := hget i (by omega)
    have hlast := hget (i + 102400) hi
    rw [heq] at hfirst hlast
    rw [hlast, hfirst, Nat.add_mod_right]
  · intro hperiod
    -- a byte is the one as many slices before
    have hback : ∀ i, i < page.length → page[i % 102400]? = page[i]? := by
      intro i
      induction i using Nat.strongRecOn with
      | ind i ih =>
        intro hi
        by_cases hsmall : i < 102400
        · rw [Nat.mod_eq_of_lt hsmall]
        · have hprev := ih (i - 102400) (by omega) (by omega)
          have hstep := hperiod (i - 102400) (by omega)
          rw [show i - 102400 + 102400 = i from by omega] at hstep
          rw [hstep, ← hprev, show i % 102400 = (i - 102400) % 102400 from by omega]
    apply List.ext_getElem?
    intro i
    by_cases hi : i < page.length
    · rw [hget i hi, hback i hi]
    · rw [List.getElem?_eq_none (by simpa [repeated] using hi), List.getElem?_eq_none (by omega)]

/-- The state between runs: what has been appended is the head and as much of the repeated slice as
counts as sent. -/
structure Sent (page : Bytes) (s : DirResponse P) : Prop where
  page_eq : s.dir.page = page
  aligned : s.dir.alreadySize % 102400 = 0 ∨ s.dir.alreadySize = page.length
  le : s.dir.alreadySize ≤ page.length
  appended : s.appended = responseHead ++ repeated page s.dir.alreadySize
  stage : Serving s.connection ∨ s.connection.Ended

/-- A call of the `write_end_callback` keeps the account. -/
theorem account {page appended : Bytes} (hpage : d.page = page)
    (haligned : d.alreadySize % 102400 = 0 ∨ d.alreadySize = page.length)
    (hle : d.alreadySize ≤ page.length)
    (happended : appended = responseHead ++ repeated page d.alreadySize) {outs : List HttpOutput}
    (hwrote : outs.any (·.isFailedWrite) = false) :
    (d.after outs).page = page ∧
      ((d.after outs).alreadySize % 102400 = 0 ∨ (d.after outs).alreadySize = page.length) ∧
      (d.after outs).alreadySize ≤ page.length ∧
      appended ++ written outs d.writeEnd.payload =
        responseHead ++ repeated page (d.after outs).alreadySize := by
  subst hpage happended
  by_cases hmore : d.page.length > d.alreadySize
  · have hafter : d.after outs = { d with alreadySize := d.alreadySize + d.needSend } := by
      simp [DirType.after, hmore, hwrote]
    have hwritten : written outs d.writeEnd.payload = d.page.take d.needSend := by
      simp [written, hwrote, DirType.writeEnd, hmore, HttpScript.payload, HttpAct.payload,
        DirType.slice]
    have haligned := haligned.resolve_right (by omega)
    have hneed := d.needSend_le
    obtain ⟨-, hfits, hlast⟩ := d.needSend_bounds hmore
    rw [hafter, hwritten]
    refine ⟨rfl, ?_, ?_, ?_⟩
    · simp only
      omega
    · simp only
      omega
    · rw [repeated_add haligned hneed (by omega), List.append_assoc]
  · have hafter : d.after outs = d := by simp [DirType.after, hmore]
    have hwritten : written outs d.writeEnd.payload = [] := by
      simp [written, DirType.writeEnd, hmore, HttpScript.payload, HttpAct.payload]
    rw [hafter, hwritten, List.append_nil]
    exact ⟨rfl, haligned, hle, rfl⟩

/-- A run keeps the account. -/
theorem Sent.next {page : Bytes} {s : DirResponse P} (hs : Sent page s) (turn : HttpTurn) :
    Sent page (s.next h turn) ∧
      (s.Calls h turn → (s.next h turn).connection.responseEnd =
        decide (page.length ≤ s.dir.alreadySize)) := by
  unfold DirResponse.next DirResponse.Calls
  by_cases hended : s.connection.Ended
  · have hidle := HttpConnection.idle_run_ended (h := h) hended
      { turn with writeEnd := s.dir.writeEnd }
    have hnone : (s.connection.run h { turn with writeEnd := s.dir.writeEnd }).1.any
        (·.isWriteEnd) = false := by
      rw [List.any_eq_false]
      intro o ho
      rw [(hidle o ho).2.1]
      exact Bool.false_ne_true
    simp only [hnone, Bool.false_eq_true, if_false, false_implies, and_true]
    exact { hs with stage := Or.inr (HttpConnection.run_ended hended _).1 }
  · have hserving := hs.stage.resolve_right hended
    have hopen : s.connection.everythingEnd = false := by
      rw [← Bool.not_eq_true]
      exact fun hend => hended (Or.inr hend)
    obtain ⟨hstage, hcalls⟩ := hserving.run (h := h) hopen (d := s.dir)
      (show ({ turn with writeEnd := s.dir.writeEnd } : HttpTurn).writeEnd = s.dir.writeEnd from rfl)
    generalize s.connection.run h { turn with writeEnd := s.dir.writeEnd } = p at hstage hcalls ⊢
    obtain ⟨outs, c⟩ := p
    simp only at hstage hcalls ⊢
    by_cases hcall : outs.any (·.isWriteEnd) = true
    · obtain ⟨hwrote, hresponse⟩ := hcalls hcall
      obtain ⟨hpage, haligned, hle, happended⟩ :=
        account hs.page_eq hs.aligned hs.le hs.appended hwrote
      rw [if_pos hcall]
      exact ⟨⟨hpage, haligned, hle, happended, hstage⟩, fun _ => hs.page_eq ▸ hresponse⟩
    · rw [if_neg hcall]
      exact ⟨{ hs with stage := hstage }, fun hany => absurd hany hcall⟩

theorem Ready.head (hc : Ready c) :
    ∃ b, c.acts directoryHead = ([.wrote (.ok responseHead.length)], { c with
        ptr := some httpAppResponse
        sendBuffer := b
        writeEndCallback := some httpAppWriteEnd }) ∧
      b.Wf ∧ b.limitMax = httpMemBufferSizeMax ∧ b.content = responseHead := by
  have hne : responseHead ≠ [] := by decide
  obtain ⟨b, hwf, hlimit, hwrite⟩ := Buffer.write_spec hc.wf hne
    (by rw [hc.content]; decide)
  rw [hc.limit, hc.content, if_pos (by decide)] at hwrite
  refine ⟨b, ?_, hwf, hlimit.trans hc.limit, hwrite.2⟩
  simp only [directoryHead, HttpConnection.acts, HttpConnection.act, Option.map_some, headBlock,
    hwrite.1, List.nil_append, List.append_nil]

/-- The directory branch appends the head and the first slice. -/
theorem Ready.begin (hc : Ready c) (page : Bytes) :
    Sent page (.begin page c) ∧ Serving (DirResponse.begin page c).connection ∧
      (DirResponse.begin page c).connection.everythingEnd = false ∧
      (DirResponse.begin page c).connection.responseEnd = decide (page.length = 0) := by
  obtain ⟨b, hhead, hwf, hlimit, hcontent⟩ := hc.head
  have hserving : Serving { c with
      ptr := some httpAppResponse
      sendBuffer := b
      writeEndCallback := some httpAppWriteEnd } :=
    { closeFlag := hc.closeFlag
      recvEnd := hc.recvEnd
      processEnd := hc.processEnd
      callback := rfl
      wf := hwf
      limit := hlimit
      start := hc.start
      order := Int.le_of_eq hc.used.symm }
  have hcalled := hserving.called (d := { page, alreadySize := 0 })
    (by simp only [hcontent]; decide)
  have hstart : responseHead = responseHead ++ repeated page 0 := (List.append_nil _).symm
  obtain ⟨hpage, haligned, hle, happended⟩ := account (d := { page, alreadySize := 0 }) rfl
    (Or.inl rfl) (Nat.zero_le _) hstart hcalled.wrote
  unfold DirResponse.begin
  simp only [hhead]
  refine ⟨⟨hpage, haligned, hle, happended, Or.inl hcalled.serving⟩, hcalled.serving,
    hcalled.everythingEnd.trans hc.everythingEnd, ?_⟩
  rw [hcalled.responseEnd]
  simp [hc.responseEnd]

theorem sent_reachable {page : Bytes} {s : DirResponse P} (hs : (system h page).Reachable s) :
    Sent page s := by
  apply hs.invariant
  · rintro s ⟨c, hc, rfl⟩
    exact (hc.begin page).1
  · intro s turn s' _ hsent hnext
    rw [← Option.some.inj hnext]
    exact (hsent.next turn).1

/-- When `write_end_callback` sets `response_end`, all of the repeated slice has been appended. -/
theorem appended_eq {page : Bytes} {s : DirResponse P} (hs : (system h page).Reachable s)
    {turn : HttpTurn} (hcalls : s.Calls h turn)
    (hend : (s.next h turn).connection.responseEnd = true) :
    (s.next h turn).appended = responseHead ++ repeated page page.length := by
  have hsent := sent_reachable hs
  obtain ⟨hnext, hresponse⟩ := hsent.next (h := h) turn
  have hover := hresponse hcalls
  rw [hend, eq_comm, decide_eq_true_eq] at hover
  have hall : s.dir.alreadySize = page.length := Nat.le_antisymm hsent.le hover
  -- the last call appends nothing
  have hafter : (s.next h turn).dir.alreadySize = page.length := by
    rw [hcalls.next_eq, DirType.after, hsent.page_eq]
    simp [hall]
  rw [hnext.appended, hafter]

/-- **Directory listings.** For every directory, and in every order of answers of the socket: when
`write_end_callback` sets `response_end`, what has been appended to `m_send_buffer` is the head
and the page exactly when the page repeats its first 102400 bytes, in particular when it has no
more. -/
theorem listing_whole_iff {httpStaticDir url : Bytes} {names : List Bytes} {s : DirResponse P}
    (hs : (system h (listing httpStaticDir url names)).Reachable s) {turn : HttpTurn}
    (hcalls : s.Calls h turn) (hend : (s.next h turn).connection.responseEnd = true) :
    let page := listing httpStaticDir url names
    (s.next h turn).appended = responseHead ++ page ↔
      ∀ i, i + 102400 < page.length → page[i + 102400]? = page[i]? := by
  intro page
  rw [appended_eq hs hcalls hend, List.append_cancel_left_eq]
  exact repeated_eq_iff page

/-! ## Listings end -/

/-- A turn in which the socket takes all that is offered. -/
def eager (c : HttpConnection P) : HttpTurn :=
  { ssl := .notNeeded
    recv := []
    send := [.took (c.bufferUsedLen - c.bufferStartUse).toNat]
    process := { acts := [], throws := false }
    writeEnd := { acts := [], throws := false }
    destory := { acts := [], throws := false } }

theorem Serving.sendLoop_eager (hc : Serving c) (hopen : c.everythingEnd = false) :
    let c' := (c.sendLoop (eager c).send).2
    Serving c' ∧ c'.sendBuffer = c.sendBuffer ∧ c'.bufferStartUse = c'.bufferUsedLen ∧
      c'.everythingEnd = false ∧ c'.responseEnd = c.responseEnd := by
  intro c'
  obtain ⟨hserving, hbuffer⟩ := hc.sendLoop (eager c).send
  refine ⟨hserving, hbuffer, ?_⟩
  have horder := hc.order
  simp only [c', eager, HttpConnection.sendLoop]
  by_cases hmore : c.bufferUsedLen > c.bufferStartUse
  · obtain ⟨k, hk⟩ := Nat.exists_eq_succ_of_ne_zero
      (show (c.bufferUsedLen - c.bufferStartUse).toNat ≠ 0 from by omega)
    rw [if_pos hmore, hk]
    refine ⟨?_, hopen, rfl⟩
    simp only
    omega
  · rw [if_neg hmore]
    exact ⟨by simp only; omega, hopen, rfl⟩

/-- The end of a run while the response goes on. -/
theorem Serving.end_of_run (hc : Serving c) (hopen : c.everythingEnd = false)
    (hresponse : c.responseEnd = false) :
    let c' := c.refill.finish.wait.2
    Serving c' ∧ c'.everythingEnd = false ∧ c'.responseEnd = false ∧
      c'.sendBuffer.content.length ≤ c.sendBuffer.content.length ∧
      (c.bufferStartUse = c.bufferUsedLen → c.sendBuffer.content ≠ [] →
        c'.sendBuffer.content.length < c.sendBuffer.content.length) := by
  intro c'
  obtain ⟨hserving₁, hopen₁, hresponse₁, hle, hless⟩ := hc.refill
  obtain ⟨hserving₂, hcontent, hresponse₂, hopen₂⟩ := hserving₁.finish
  have hend : c.refill.finish.everythingEnd = false := by
    rw [hopen₂ (hresponse₁.trans hresponse), hopen₁, hopen]
  have hstays : c' = c.refill.finish := by simp [c', HttpConnection.wait, hend, hserving₂.recvEnd]
  rw [hstays, hcontent, hresponse₂, hresponse₁]
  exact ⟨hserving₂, hend, hresponse, hle, hless⟩

/-- Such a turn sends on, or calls the `write_end_callback`. -/
theorem Sent.eager {page : Bytes} {s : DirResponse P} (hs : Sent page s)
    (hc : Serving s.connection) (hopen : s.connection.everythingEnd = false)
    (hresponse : s.connection.responseEnd = false) :
    let s' := s.next h (eager s.connection)
    (s.Calls h (HttpApp.eager s.connection) ∧ s'.connection.responseEnd = true) ∨
      (Serving s'.connection ∧ s'.connection.everythingEnd = false ∧
        s'.connection.responseEnd = false ∧
        2 * (page.length - s'.dir.alreadySize) + s'.connection.sendBuffer.content.length <
          2 * (page.length - s.dir.alreadySize) + s.connection.sendBuffer.content.length) := by
  intro s'
  obtain ⟨hserving₁, hbuffer, hidle, hopen₁, hresponse₁⟩ := hc.sendLoop_eager hopen
  have hrun : s.connection.run h { HttpApp.eager s.connection with writeEnd := s.dir.writeEnd } =
      s.connection.serve h { HttpApp.eager s.connection with writeEnd := s.dir.writeEnd } := by
    unfold HttpConnection.run
    rw [hc.closeFlag]
    rfl
  rw [serve_eq hc] at hrun
  simp only [HttpConnection.write, hopen, hc.processEnd, Bool.not_false, Bool.and_self, if_true]
    at hrun
  have hsent := HttpConnection.sendLoop_outputs s.connection (HttpApp.eager s.connection).send
  generalize s.connection.sendLoop (HttpApp.eager s.connection).send = p at *
  obtain ⟨sent, c₁⟩ := p
  simp only at hserving₁ hbuffer hidle hopen₁ hresponse₁ hrun hsent
  rcases hserving₁.notify (d := s.dir) with ⟨hnot, hnone, halike⟩ | ⟨hall, view, outs, houts, hcalled⟩
  · -- there is more in `m_send_buffer`
    have hne : c₁.sendBuffer.content ≠ [] := fun hnil =>
      hnot ⟨hidle, hnil, hresponse₁.trans hresponse⟩
    obtain ⟨hserving, hend, hgoes, -, hless⟩ := halike.serving.end_of_run
      (halike.everythingEnd.trans hopen₁)
      (halike.responseEnd.trans (hresponse₁.trans hresponse))
    rw [halike.start, halike.used, halike.content] at hless
    have hquiet : ¬(s.connection.run h { HttpApp.eager s.connection with
        writeEnd := s.dir.writeEnd }).1.any (·.isWriteEnd) = true := by
      rw [hrun, hnone, List.append_nil, Bool.not_eq_true, List.any_eq_false]
      intro o ho
      rcases List.mem_append.mp ho with ho | ho
      · obtain ⟨bytes, rfl⟩ := hsent o ho
        exact Bool.false_ne_true
      · rcases HttpConnection.wait_outputs _ o ho with rfl | ⟨listenSend, rfl⟩ <;>
          exact Bool.false_ne_true
    have hnext : s' = { s with connection :=
        (s.connection.run h { HttpApp.eager s.connection with writeEnd := s.dir.writeEnd }).2 } :=
      if_neg hquiet
    rw [hnext, hrun]
    have hshorter := hless hidle hne
    rw [hbuffer] at hshorter
    exact Or.inr ⟨hserving, hend, hgoes, Nat.add_lt_add_left hshorter _⟩
  · have hcalls : s.Calls h (HttpApp.eager s.connection) := by
      unfold DirResponse.Calls
      rw [hrun, houts]
      simp [HttpOutput.isWriteEnd]
    have hover := (hs.next (h := h) _).2 hcalls
    by_cases hlast : page.length ≤ s.dir.alreadySize
    · rw [decide_eq_true hlast] at hover
      exact Or.inl ⟨hcalls, hover⟩
    · -- the next slice
      have hwrote := ((hc.run (h := h) hopen (d := s.dir)
        (show ({ HttpApp.eager s.connection with writeEnd := s.dir.writeEnd } : HttpTurn).writeEnd =
          s.dir.writeEnd from rfl)).2 hcalls).1
      have hlen := congrArg List.length hs.page_eq
      have hmore : s.dir.page.length > s.dir.alreadySize := by omega
      have hgoes : (c₁.notify s.dir.writeEnd).2.responseEnd = false := by
        rw [hcalled.responseEnd, hall.2.2, decide_eq_false (by omega)]
        rfl
      obtain ⟨hserving, hend, hresponse', hle, -⟩ := hcalled.serving.end_of_run
        (hcalled.everythingEnd.trans hopen₁) hgoes
      have hcontent : (c₁.notify s.dir.writeEnd).2.sendBuffer.content.length ≤ s.dir.needSend := by
        rw [hcalled.content, hall.2.1]
        simp only [DirType.writeEnd, if_pos hmore, HttpScript.payload, List.flatMap_cons,
          List.flatMap_nil, HttpAct.payload, DirType.slice, List.append_nil, List.nil_append,
          List.length_take]
        exact Nat.min_le_left _ _
      have hneed := s.dir.needSend_bounds hmore
      have hdir : s'.dir.alreadySize = s.dir.alreadySize + s.dir.needSend := by
        rw [show s' = _ from hcalls.next_eq, DirType.after]
        simp only [hmore, hwrote, decide_true, Bool.not_false, Bool.and_self, if_true]
      have hconnection : s'.connection = (c₁.notify s.dir.writeEnd).2.refill.finish.wait.2 := by
        rw [show s' = _ from hcalls.next_eq, hrun]
      rw [hdir, hconnection]
      exact Or.inr ⟨hserving, hend, hresponse', by omega⟩

/-- Every listing comes to its end where the socket keeps taking bytes. -/
theorem listing_ends {page : Bytes} {s : DirResponse P} (hs : (system h page).Reachable s)
    (hc : Serving s.connection) (hopen : s.connection.everythingEnd = false)
    (hresponse : s.connection.responseEnd = false) :
    ∃ s' turn, (system h page).Reachable s' ∧ s'.Calls h turn ∧
      (s'.next h turn).connection.responseEnd = true := by
  induction hmeasure : 2 * (page.length - s.dir.alreadySize) +
      s.connection.sendBuffer.content.length using Nat.strongRecOn generalizing s with
  | ind n ih =>
    rcases (sent_reachable hs).eager (h := h) hc hopen hresponse with
      ⟨hcalls, hend⟩ | ⟨hc', hopen', hresponse', hless⟩
    · exact ⟨s, _, hs, hcalls, hend⟩
    · exact ih _ (hmeasure ▸ hless) (hs.step (eager s.connection) rfl) hc' hopen' hresponse' rfl

/-- The connection when its request has been read. -/
def requested (init : P) (c : HttpConnection P) : HttpConnection P :=
  { c.prepare init none 0 with recvEnd := true, processEnd := true }

theorem ready_requested (init : P) (c : HttpConnection P) : Ready (requested init c) := by
  obtain ⟨hwf, hcontent, hlimit⟩ := Buffer.setLimitMax_spec (Buffer.wf_clear c.sendBuffer)
    (by decide : httpMemBufferSizeMax < 2 ^ 64)
  exact ⟨rfl, rfl, rfl, rfl, rfl, hwf, hlimit, hcontent, Int.le_refl 0, rfl⟩

theorem exists_end (h : HttpParser P) (c : HttpConnection P) {page : Bytes} (hpage : page ≠ []) :
    ∃ s turn, (system h page).Reachable s ∧ s.Calls h turn ∧
      (s.next h turn).connection.responseEnd = true := by
  have hready := ready_requested h.init c
  obtain ⟨-, hserving, hopen, hresponse⟩ := hready.begin page
  rw [decide_eq_false fun hzero => hpage (List.eq_nil_of_length_eq_zero hzero)] at hresponse
  exact listing_ends (.start ⟨_, hready, rfl⟩) hserving hopen hresponse

theorem listing_ne_nil (httpStaticDir url : Bytes) (names : List Bytes) :
    listing httpStaticDir url names ≠ [] := by
  have hne : frame1 ≠ [] := by decide
  simp [listing, load, hne]

/-- A connection that has been made for a first client. -/
def firstClient : HttpConnection LineState := .new (fun _ => 0) lineParser.init none

theorem listing_whole_empty : ∃ s turn,
    (system lineParser (listing (ascii "/srv/www") (ascii "/") [])).Reachable s ∧
      (s.next lineParser turn).appended =
        responseHead ++ listing (ascii "/srv/www") (ascii "/") [] := by
  obtain ⟨s, turn, hs, hcalls, hend⟩ := exists_end lineParser firstClient
    (listing_ne_nil (ascii "/srv/www") (ascii "/") [])
  refine ⟨s, turn, hs, (listing_whole_iff hs hcalls hend).mpr fun i hi => ?_⟩
  have hshort : (listing (ascii "/srv/www") (ascii "/") []).length ≤ 102400 := by
      decide +kernel
  omega

/-! ## A page with two slices -/

theorem mark_not_mem_encode (text : Bytes) : 33 ∉ Url.encode text := by
  have hbyte : ∀ k : Fin 256, 33 ∉ Url.encodeByte (UInt8.ofNat k) := by decide +kernel
  intro hmem
  obtain ⟨b, -, hb⟩ := List.mem_flatMap.mp hmem
  have hnot := hbyte ⟨b.toNat, b.toNat_lt⟩
  rw [UInt8.ofNat_toNat] at hnot
  exact hnot hb

/-- The path of an entry below the static directory. -/
theorem drop_entryPath (httpStaticDir url name : Bytes) :
    ∃ slash : Bytes, (slash = [] ∨ slash = [47]) ∧
      (entryPath (httpStaticDir ++ url) name).drop httpStaticDir.length = url ++ slash ++ name := by
  unfold entryPath
  split
  · refine ⟨[], Or.inl rfl, ?_⟩
    rw [List.append_assoc, List.drop_left, List.append_nil]
  · refine ⟨[47], Or.inr rfl, ?_⟩
    rw [List.append_assoc, List.drop_left, List.append_assoc]
    rfl

/-- There is one exclamation mark in a page whose entries have none. -/
theorem mark_listing {httpStaticDir url : Bytes} {names : List Bytes} {i : Nat}
    (hurl : 33 ∉ url) (hnames : ∀ name ∈ names, 33 ∉ name) (hi : 1 < i) :
    (listing httpStaticDir url names)[i]? ≠ some 33 := by
  have hframe1 : 33 ∉ frame1.drop 2 := by decide +kernel
  have hframe2 : 33 ∉ frame2 := by decide +kernel
  have htag : 33 ∉ ascii "<a href=\"" ∧ 33 ∉ ascii "\">" ∧ 33 ∉ ascii "</a></br>" := by
    decide +kernel
  intro hmark
  obtain ⟨k, rfl⟩ := Nat.exists_eq_add_of_le (show 2 ≤ i from hi)
  rw [← List.getElem?_drop, listing, load, List.append_assoc,
    List.drop_append_of_le_length (by decide +kernel)] at hmark
  rcases List.mem_append.mp (List.mem_of_getElem? hmark) with hmem | hmem
  · exact hframe1 hmem
  · rcases List.mem_append.mp hmem with hmem | hmem
    · obtain ⟨name, hname, hmem⟩ := List.mem_flatMap.mp hmem
      obtain ⟨slash, hslash, hpath⟩ := drop_entryPath httpStaticDir url name
      have hnot : 33 ∉ url ++ slash ++ name := by
        have hone : 33 ∉ slash := by rcases hslash with rfl | rfl <;> decide
        simp [hurl, hone, hnames name hname]
      simp only [hpath, aTag] at hmem
      generalize url ++ slash ++ name = subPath at hnot hmem
      simp [htag, mark_not_mem_encode, hnot] at hmem
    · exact hframe2 hmem

theorem length_listing (httpStaticDir url : Bytes) (names : List Bytes) :
    20 * names.length ≤ (listing httpStaticDir url names).length := by
  have htag : ∀ url text, 20 ≤ (aTag url text).length := by
    intro url text
    have hframe : 20 = (ascii "<a href=\"").length + (ascii "\">").length +
      (ascii "</a></br>").length := by decide
    simp only [aTag, List.length_append]
    omega
  rw [listing, load, List.length_append, List.length_append]
  have hbody : ∀ f : Bytes → Bytes, (∀ name, 20 ≤ (f name).length) →
      20 * names.length ≤ (names.flatMap f).length := by
    intro f hf
    induction names with
    | nil => exact Nat.le_refl _
    | cons name names ih =>
      have := hf name
      rw [List.flatMap_cons, List.length_append, List.length_cons]
      omega
  refine Nat.le_trans ?_ ((Nat.le_add_left _ _).trans (Nat.le_add_right _ _))
  exact hbody _ fun name => htag _ _

/-- The names of three letters up to `t`. -/
def manyNames : List Bytes :=
  (List.range 8000).map fun n =>
    [UInt8.ofNat (97 + n / 400), UInt8.ofNat (97 + n / 20 % 20), UInt8.ofNat (97 + n % 20)]

/-- A directory with 8000 entries: its page is not what is sent. -/
theorem listing_repeats :
    manyNames.Nodup ∧ ∃ s turn,
      (system lineParser (listing (ascii "/srv/www") (ascii "/") manyNames)).Reachable s ∧
        s.Calls lineParser turn ∧ (s.next lineParser turn).connection.responseEnd = true ∧
        (s.next lineParser turn).appended ≠
          responseHead ++ listing (ascii "/srv/www") (ascii "/") manyNames := by
  have hletter : ∀ n < 158, (UInt8.ofNat (97 + n)).toNat = 97 + n := by
    intro n hn
    rw [UInt8.toNat_ofNat']
    omega
  constructor
  · refine List.Nodup.map_on (fun n hn m hm heq => ?_) List.nodup_range
    rw [List.mem_range] at hn hm
    simp only [List.cons.injEq, and_true] at heq
    obtain ⟨h₁, h₂, h₃⟩ := heq
    replace h₁ := congrArg UInt8.toNat h₁
    replace h₂ := congrArg UInt8.toNat h₂
    replace h₃ := congrArg UInt8.toNat h₃
    rw [hletter _ (by omega), hletter _ (by omega)] at h₁ h₂ h₃
    omega
  · obtain ⟨s, turn, hs, hcalls, hend⟩ := exists_end lineParser firstClient
      (listing_ne_nil (ascii "/srv/www") (ascii "/") manyNames)
    refine ⟨s, turn, hs, hcalls, hend, ?_⟩
    rw [appended_eq hs hcalls hend, ne_eq, List.append_cancel_left_eq, repeated_eq_iff]
    intro hperiod
    have hlong := length_listing (ascii "/srv/www") (ascii "/") manyNames
    rw [manyNames, List.length_map, List.length_range, ← manyNames] at hlong
    have hsecond := hperiod 1 (by omega)
    have hnames : ∀ name ∈ manyNames, 33 ∉ name := by
      intro name hname
      obtain ⟨n, hn, rfl⟩ := List.mem_map.mp hname
      rw [List.mem_range] at hn
      intro hmark
      simp only [List.mem_cons, List.not_mem_nil, or_false] at hmark
      rcases hmark with hmark | hmark | hmark <;>
        · replace hmark := congrArg UInt8.toNat hmark
          rw [hletter _ (by omega)] at hmark
          change 33 = _ at hmark
          omega
    refine mark_listing (i := 1 + 102400) (by decide) hnames (by omega) (hsecond.trans ?_)
    rw [listing, load, List.append_assoc, List.getElem?_append_left (by decide +kernel)]
    rfl

end Tubekit.HttpApp
