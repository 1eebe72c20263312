import Tubekit.Task.HttpAgreement
import Tubekit.Task.Handshake

/-!
# The response of `http_task`

The callbacks of the application append to `m_send_buffer` and at some time set `response_end`;
run after run, the bytes go from there through `buffer` to the socket. The array that served for
receiving now serves for sending, with the same two indices. `rest` is what has been appended
and not been sent yet, and each phase of a run is described by what it does to it
(`acts_spec`, `sendLoop_rest`, `write_spec`). `response_delivered` puts the runs together.
-/

namespace Tubekit

open Lib

/-! ## Callbacks that respond -/

/-- What an act appends to `m_send_buffer`, when its write succeeds. -/
def HttpAct.payload : HttpAct → Bytes
  | .write (some block) => block.bytes
  | _ => []

/-- The act appends to the response, sets `response_end`, or stores something for later. -/
def HttpAct.responds : HttpAct → Bool
  | .write _ => true
  | .setResponseEnd _ => true
  | .setWriteEndCallback _ => true
  | .setDestoryCallback _ => true
  | .setPtr _ => true
  | _ => false

/-- The callback only responds, and does not throw. -/
def HttpScript.Responds (script : HttpScript) : Prop :=
  script.throws = false ∧ ∀ a ∈ script.acts, a.responds = true

instance (script : HttpScript) : Decidable script.Responds :=
  inferInstanceAs (Decidable (_ ∧ _))

def HttpScript.payload (script : HttpScript) : Bytes := script.acts.flatMap HttpAct.payload

namespace HttpOutput

def sentBytes : HttpOutput → Bytes
  | .sent bytes => bytes
  | _ => []

/-- The output is a call of `write_end_callback`. -/
def isWriteEnd : HttpOutput → Bool
  | .writeEndCallback _ _ => true
  | _ => false

/-- The output is a write that threw. -/
def isFailedWrite : HttpOutput → Bool
  | .wrote (.error _) => true
  | _ => false

/-- The output is the call of `destory_callback`. -/
def isDestory : HttpOutput → Bool
  | .destoryCallback _ _ => true
  | _ => false

end HttpOutput

/-- What a run has appended to `m_send_buffer`, given what it has shown. -/
def HttpTurn.appended (turn : HttpTurn) (outs : List HttpOutput) : Bytes :=
  (if outs.any (·.isProcess) then turn.process.payload else []) ++
    if outs.any (·.isWriteEnd) then turn.writeEnd.payload else []

/-- The callbacks of the run respond, and their writes succeed. What is written while the
connection is destroyed does not matter. -/
def HttpTurn.Appending (turn : HttpTurn) (outs : List HttpOutput) : Prop :=
  turn.process.Responds ∧ turn.writeEnd.Responds ∧
    (outs.any (·.isDestory) = false → outs.any (·.isFailedWrite) = false)

instance (turn : HttpTurn) (outs : List HttpOutput) : Decidable (turn.Appending outs) :=
  inferInstanceAs (Decidable (_ ∧ _ ∧ _))

namespace HttpConnection

variable {P : Type} {h : HttpParser P} {c c' : HttpConnection P}

/-- All that the runs have appended to `m_send_buffer`, in order. -/
def appended (h : HttpParser P) (c : HttpConnection P) : List HttpTurn → Bytes
  | [] => []
  | turn :: turns => turn.appended (c.run h turn).1 ++ appended h (c.run h turn).2 turns

/-- All callbacks of the runs respond, and their writes succeed. -/
def Appending (h : HttpParser P) (c : HttpConnection P) : List HttpTurn → Prop
  | [] => True
  | turn :: turns => turn.Appending (c.run h turn).1 ∧ Appending h (c.run h turn).2 turns

instance decidableAppending (h : HttpParser P) (c : HttpConnection P) :
    (turns : List HttpTurn) → Decidable (Appending h c turns)
  | [] => isTrue trivial
  | turn :: turns =>
    have := decidableAppending h (c.run h turn).2 turns
    inferInstanceAs (Decidable (_ ∧ _))

/-! ## What is left to be sent -/

/-- What has been appended and not been sent. -/
def rest (c : HttpConnection P) : Bytes := c.pending ++ c.sendBuffer.content

/-- The indices and the buffer are as the phases leave them. -/
structure Fit (c : HttpConnection P) : Prop where
  wf : c.sendBuffer.Wf
  limit : c.sendBuffer.limitMax ≤ maxObjectSize
  start : 0 ≤ c.bufferStartUse

/-- The members that callbacks that respond leave alone. -/
structure Keeps (c c' : HttpConnection P) : Prop where
  closeFlag : c'.closeFlag = c.closeFlag
  everythingEnd : c'.everythingEnd = c.everythingEnd
  processEnd : c'.processEnd = c.processEnd
  recvEnd : c'.recvEnd = c.recvEnd
  pending : c'.pending = c.pending
  start : c'.bufferStartUse = c.bufferStartUse
  used : c'.bufferUsedLen = c.bufferUsedLen

theorem Keeps.refl (c : HttpConnection P) : Keeps c c := ⟨rfl, rfl, rfl, rfl, rfl, rfl, rfl⟩

theorem Keeps.trans {c₁ c₂ c₃ : HttpConnection P} (h₁ : Keeps c₁ c₂) (h₂ : Keeps c₂ c₃) :
    Keeps c₁ c₃ where
  closeFlag := h₂.closeFlag.trans h₁.closeFlag
  everythingEnd := h₂.everythingEnd.trans h₁.everythingEnd
  processEnd := h₂.processEnd.trans h₁.processEnd
  recvEnd := h₂.recvEnd.trans h₁.recvEnd
  pending := h₂.pending.trans h₁.pending
  start := h₂.start.trans h₁.start
  used := h₂.used.trans h₁.used

theorem act_spec (hfit : c.Fit) {a : HttpAct} (ha : a.responds = true)
    (hok : (c.act a).1.any (·.isFailedWrite) = false) :
    (c.act a).2.Fit ∧ Keeps c (c.act a).2 ∧
      (c.act a).2.sendBuffer.content = c.sendBuffer.content ++ a.payload ∧
      ∀ o ∈ (c.act a).1, ∃ result, o = .wrote result := by
  have hkeep : ∀ d : HttpConnection P, d.sendBuffer = c.sendBuffer → d.bufferStartUse = c.bufferStartUse →
      d.Fit ∧ d.sendBuffer.content = c.sendBuffer.content ++ [] := fun d hb hs =>
    ⟨⟨hb ▸ hfit.wf, hb ▸ hfit.limit, hs ▸ hfit.start⟩, by rw [hb, List.append_nil]⟩
  cases a with
  | write source =>
    simp only [act] at hok ⊢
    by_cases hsource : source.map (·.bytes) = none ∨ source.map (·.bytes) = some []
    · obtain ⟨b, hRun, -⟩ := Buffer.write_throws hfit.wf hsource
      rw [hRun] at hok
      simp [HttpOutput.isFailedWrite] at hok
    · obtain ⟨block, rfl⟩ : ∃ block, source = some block := by
        cases source with
        | none => exact absurd (Or.inl rfl) hsource
        | some block => exact ⟨block, rfl⟩
      have hne : block.bytes ≠ [] := fun heq => hsource (Or.inr (by simp [heq]))
      have hlen := hfit.wf.length_content_le
      have hmax := hfit.limit
      have hblock := block.fits
      have hsum : c.sendBuffer.content.length + block.bytes.length < 2 ^ 64 := by
        unfold maxObjectSize at *
        omega
      obtain ⟨b, hWf, hL, hCase⟩ := Buffer.write_spec hfit.wf hne hsum
      simp only [Option.map_some] at hok ⊢
      split at hCase
      · rw [hCase.1]
        exact ⟨⟨hWf, hL ▸ hfit.limit, hfit.start⟩, ⟨rfl, rfl, rfl, rfl, rfl, rfl, rfl⟩, hCase.2,
          by simp⟩
      · rw [hCase.1] at hok
        simp [HttpOutput.isFailedWrite] at hok
  | setResponseEnd responseEnd =>
    obtain ⟨hf, hcontent⟩ := hkeep { c with responseEnd } rfl rfl
    exact ⟨hf, ⟨rfl, rfl, rfl, rfl, rfl, rfl, rfl⟩, hcontent, by simp [act]⟩
  | setWriteEndCallback callback =>
    obtain ⟨hf, hcontent⟩ := hkeep { c with writeEndCallback := callback } rfl rfl
    exact ⟨hf, ⟨rfl, rfl, rfl, rfl, rfl, rfl, rfl⟩, hcontent, by simp [act]⟩
  | setDestoryCallback callback =>
    obtain ⟨hf, hcontent⟩ := hkeep { c with destoryCallback := callback } rfl rfl
    exact ⟨hf, ⟨rfl, rfl, rfl, rfl, rfl, rfl, rfl⟩, hcontent, by simp [act]⟩
  | setPtr ptr =>
    obtain ⟨hf, hcontent⟩ := hkeep { c with ptr } rfl rfl
    exact ⟨hf, ⟨rfl, rfl, rfl, rfl, rfl, rfl, rfl⟩, hcontent, by simp [act]⟩
  | _ => cases ha

theorem acts_spec (hfit : c.Fit) {l : List HttpAct} (hl : ∀ a ∈ l, a.responds = true)
    (hok : (c.acts l).1.any (·.isFailedWrite) = false) :
    (c.acts l).2.Fit ∧ Keeps c (c.acts l).2 ∧
      (c.acts l).2.sendBuffer.content = c.sendBuffer.content ++ l.flatMap HttpAct.payload ∧
      ∀ o ∈ (c.acts l).1, ∃ result, o = .wrote result := by
  induction l generalizing c with
  | nil => exact ⟨hfit, .refl c, by simp [acts], by simp [acts]⟩
  | cons a l ih =>
    rw [List.forall_mem_cons] at hl
    simp only [acts, List.any_append, Bool.or_eq_false_iff] at hok
    obtain ⟨hfit₁, hkeep₁, hcontent₁, houts₁⟩ := act_spec hfit hl.1 hok.1
    obtain ⟨hfit₂, hkeep₂, hcontent₂, houts₂⟩ := ih hfit₁ hl.2 hok.2
    refine ⟨hfit₂, hkeep₁.trans hkeep₂, ?_, ?_⟩
    · simp only [acts]
      rw [hcontent₂, hcontent₁, List.flatMap_cons, List.append_assoc]
    · intro o ho
      rcases List.mem_append.mp ho with ho | ho
      · exact houts₁ o ho
      · exact houts₂ o ho

/-- A callback in its `try` block. -/
theorem attempt_spec (hfit : c.Fit) {script : HttpScript} (hscript : script.Responds)
    (hok : (c.attempt script).1.any (·.isFailedWrite) = false) :
    (c.attempt script).2.Fit ∧ Keeps c (c.attempt script).2 ∧
      (c.attempt script).2.rest = c.rest ++ script.payload ∧
      ∀ o ∈ (c.attempt script).1, ∃ result, o = .wrote result := by
  have hattempt : c.attempt script = c.acts script.acts := by
    simp [attempt, hscript.1]
  rw [hattempt] at hok ⊢
  obtain ⟨hfit', hkeep, hcontent, houts⟩ := acts_spec hfit hscript.2 hok
  refine ⟨hfit', hkeep, ?_, houts⟩
  rw [rest, hkeep.pending, hcontent, ← List.append_assoc]
  rfl

/-! ## Sending -/

/-- The answers of a socket that is neither broken nor at its end. -/
def Healthy (answers : List SockSend) : Prop :=
  ∀ answer ∈ answers, answer ≠ .took 0 ∧ answer ≠ .failed .other

instance (answers : List SockSend) : Decidable (Healthy answers) :=
  inferInstanceAs (Decidable (∀ answer ∈ answers, _ ∧ _))

/-- What a phase of the write does to the flags. -/
structure Writes (c c' : HttpConnection P) : Prop where
  fit : c'.Fit
  closeFlag : c'.closeFlag = c.closeFlag
  processEnd : c'.processEnd = c.processEnd
  recvEnd : c'.recvEnd = c.recvEnd

theorem Writes.trans {c₁ c₂ c₃ : HttpConnection P} (h₁ : Writes c₁ c₂) (h₂ : Writes c₂ c₃) :
    Writes c₁ c₃ where
  fit := h₂.fit
  closeFlag := h₂.closeFlag.trans h₁.closeFlag
  processEnd := h₂.processEnd.trans h₁.processEnd
  recvEnd := h₂.recvEnd.trans h₁.recvEnd

theorem sendLoop_rest (hfit : c.Fit) (answers : List SockSend) :
    Writes c (c.sendLoop answers).2 ∧
      (c.sendLoop answers).1.flatMap HttpOutput.sentBytes ++ (c.sendLoop answers).2.rest = c.rest ∧
      (∀ o ∈ (c.sendLoop answers).1, ∃ bytes, o = .sent bytes) ∧
      (Healthy answers → (c.sendLoop answers).2.everythingEnd = c.everythingEnd) := by
  induction answers generalizing c with
  | nil => exact ⟨⟨hfit, rfl, rfl, rfl⟩, by simp [sendLoop], by simp [sendLoop], fun _ => rfl⟩
  | cons answer answers ih =>
    simp only [sendLoop]
    split
    case isFalse => exact ⟨⟨hfit, rfl, rfl, rfl⟩, by simp, by simp, fun _ => rfl⟩
    case isTrue hmore =>
      cases answer with
      | failed errno =>
        cases errno with
        | eintr =>
          obtain ⟨hwrites, hrest, houts, hend⟩ := ih hfit
          exact ⟨hwrites, hrest, houts, fun hu => hend fun a ha => hu a (List.mem_cons_of_mem _ ha)⟩
        | eagain => exact ⟨⟨hfit, rfl, rfl, rfl⟩, by simp, by simp, fun _ => rfl⟩
        | other =>
          refine ⟨⟨⟨hfit.wf, hfit.limit, hfit.start⟩, rfl, rfl, rfl⟩, rfl, by simp, fun hu => ?_⟩
          exact absurd rfl (hu _ List.mem_cons_self).2
      | took k =>
        cases k with
        | zero =>
          refine ⟨⟨⟨hfit.wf, hfit.limit, hfit.start⟩, rfl, rfl, rfl⟩, rfl, by simp, fun hu => ?_⟩
          exact absurd rfl (hu _ List.mem_cons_self).1
        | succ k =>
          simp only
          generalize hsended : min (k + 1) (c.bufferUsedLen - c.bufferStartUse).toNat = sended
          have hstart := hfit.start
          have hle : sended ≤ (c.bufferUsedLen - c.bufferStartUse).toNat := by omega
          have hnext : Fit { c with bufferStartUse := c.bufferStartUse + sended } :=
            ⟨hfit.wf, hfit.limit, by simp only; omega⟩
          obtain ⟨hwrites, hrest, houts, hend⟩ := ih hnext
          refine ⟨⟨hwrites.fit, hwrites.closeFlag, hwrites.processEnd, hwrites.recvEnd⟩, ?_, ?_,
            fun hu => hend fun a ha => hu a (List.mem_cons_of_mem _ ha)⟩
          · -- the bytes taken are the front of what is pending
            have hfront := Memory.take_load c.buffer c.bufferStartUse.toNat hle
            have hback := Memory.drop_load c.buffer c.bufferStartUse.toNat hle
            have hpending : Memory.load c.buffer c.bufferStartUse.toNat sended ++
                pending { c with bufferStartUse := c.bufferStartUse + sended } = c.pending := by
              simp only [pending]
              rw [show (c.bufferStartUse + sended).toNat = c.bufferStartUse.toNat + sended by omega,
                show (c.bufferUsedLen - (c.bufferStartUse + sended)).toNat =
                  (c.bufferUsedLen - c.bufferStartUse).toNat - sended by omega, ← hfront, ← hback,
                List.take_append_drop]
            rw [List.flatMap_cons, List.append_assoc, hrest]
            simp only [HttpOutput.sentBytes, rest, ← hpending, List.append_assoc]
          · rw [List.forall_mem_cons]
            exact ⟨⟨_, rfl⟩, houts⟩

/-- Looking at the size of `m_send_buffer` changes nothing that matters. -/
theorem drained_spec (hfit : c.Fit) :
    ∃ b, c.drained = (if c.bufferStartUse = c.bufferUsedLen then some c.sendBuffer.content.length
        else none, { c with sendBuffer := b }) ∧
      b.Wf ∧ b.content = c.sendBuffer.content ∧ b.limitMax = c.sendBuffer.limitMax := by
  unfold drained
  split
  · obtain ⟨b, hRun, hWf, hC, hL⟩ := Buffer.canReadableSize_spec hfit.wf
    exact ⟨b, by rw [hRun], hWf, hC, hL⟩
  · exact ⟨c.sendBuffer, rfl, hfit.wf, rfl, rfl⟩

theorem rest_eq_nil_of_drained (hidle : c.bufferStartUse = c.bufferUsedLen)
    (hempty : c.sendBuffer.content = []) : c.rest = [] := by
  rw [rest, pending_of_used_le c (by omega), hempty]
  rfl

theorem notify_spec (hfit : c.Fit) {script : HttpScript} (hscript : script.Responds)
    (hok : (c.notify script).1.any (·.isFailedWrite) = false) :
    Writes c (c.notify script).2 ∧
      (c.notify script).2.rest = c.rest ++
        (if (c.notify script).1.any (·.isWriteEnd) then script.payload else []) ∧
      (∀ o ∈ (c.notify script).1, o.isWriteEnd = true ∨ ∃ result, o = .wrote result) ∧
      ((c.notify script).2.everythingEnd = true → c.everythingEnd = true ∨
        (c.notify script).2.writeEndCallback = none ∧ (c.notify script).2.responseEnd = false) := by
  obtain ⟨b, hdrained, hWf, hC, hL⟩ := drained_spec hfit
  have hfit₁ : Fit { c with sendBuffer := b } := ⟨hWf, hL ▸ hfit.limit, hfit.start⟩
  have hrest₁ : rest { c with sendBuffer := b } = c.rest := by simp only [rest, hC]; rfl
  have hsame : Writes c { c with sendBuffer := b } := ⟨hfit₁, rfl, rfl, rfl⟩
  unfold notify at hok ⊢
  rw [hdrained] at hok ⊢
  by_cases hidle : c.bufferStartUse = c.bufferUsedLen
  · rw [if_pos hidle] at hok ⊢
    rcases hlen : c.sendBuffer.content.length with _ | n
    · rw [hlen] at hok
      simp only at hok ⊢
      split
      case isTrue hopen =>
        rw [if_pos hopen] at hok
        split
        · rename_i callback hcallback
          have hok' : (attempt { c with sendBuffer := b } script).1.any (·.isFailedWrite) = false := by
            split at hok
            · rw [List.any_cons, Bool.or_eq_false_iff] at hok
              exact hok.2
            · rename_i hnone
              exact absurd (hcallback.symm.trans hnone) (by simp)
          obtain ⟨hfit₂, hkeep, hrest₂, houts⟩ := attempt_spec hfit₁ hscript hok'
          refine ⟨⟨hfit₂, hkeep.closeFlag, hkeep.processEnd, hkeep.recvEnd⟩, ?_, ?_, ?_⟩
          · rw [hrest₂, hrest₁, if_pos (by simp [HttpOutput.isWriteEnd])]
          · rw [List.forall_mem_cons]
            exact ⟨Or.inl rfl, fun o ho => Or.inr (houts o ho)⟩
          · intro hend
            exact Or.inl (hkeep.everythingEnd ▸ hend)
        · rename_i hnone
          refine ⟨⟨⟨hWf, hL ▸ hfit.limit, hfit.start⟩, rfl, rfl, rfl⟩, ?_, by simp, fun _ => ?_⟩
          · simp only [List.any_nil, Bool.false_eq_true, if_false, List.append_nil]
            exact hrest₁
          · exact Or.inr ⟨hnone, by simpa using hopen⟩
      case isFalse =>
        exact ⟨hsame, by simpa using hrest₁, by simp, fun hend => Or.inl hend⟩
    · exact ⟨hsame, by simpa using hrest₁, by simp, fun hend => Or.inl hend⟩
  · rw [if_neg hidle]
    exact ⟨hsame, by simpa using hrest₁, by simp, fun hend => Or.inl hend⟩

theorem refill_spec (hfit : c.Fit) :
    Writes c c.refill ∧ c.refill.rest = c.rest ∧ c.refill.everythingEnd = c.everythingEnd ∧
      c.refill.writeEndCallback = c.writeEndCallback ∧ c.refill.responseEnd = c.responseEnd := by
  obtain ⟨b, hdrained, hWf, hC, hL⟩ := drained_spec hfit
  have hrest₁ : rest { c with sendBuffer := b } = c.rest := by simp only [rest, hC]; rfl
  have hsame : Writes c { c with sendBuffer := b } :=
    ⟨⟨hWf, hL ▸ hfit.limit, hfit.start⟩, rfl, rfl, rfl⟩
  unfold refill
  rw [hdrained]
  by_cases hidle : c.bufferStartUse = c.bufferUsedLen
  · rw [if_pos hidle]
    rcases hlen : c.sendBuffer.content.length with _ | n
    · exact ⟨hsame, hrest₁, rfl, rfl, rfl⟩
    · obtain ⟨b₁, hread, hWf₁, hC₁, hL₁⟩ :=
        Buffer.read_spec hWf (by decide : 0 < httpBufferSize - 1)
      simp only [hread, and_true]
      refine ⟨⟨⟨hWf₁, ?_, Int.le_refl 0⟩, rfl, rfl, rfl⟩, ?_⟩
      · rw [hL₁, hL]
        exact hfit.limit
      · -- what is read from the buffer is what is pending then
        have hload := Memory.load_store_same c.buffer 0 (b.content.take (httpBufferSize - 1))
        rw [rest, rest, pending_of_used_le c (by omega), List.nil_append, ← hC]
        simp only [pending, Int.sub_zero, Int.toNat_natCast, Int.toNat_zero]
        rw [Memory.load_store_below _ (by omega), hload, hC₁, List.take_append_drop]
  · rw [if_neg hidle]
    exact ⟨hsame, hrest₁, rfl, rfl, rfl⟩

theorem finish_spec (hfit : c.Fit) :
    Writes c c.finish ∧ c.finish.rest = c.rest ∧
      c.finish.writeEndCallback = c.writeEndCallback ∧ c.finish.responseEnd = c.responseEnd ∧
      (c.finish.everythingEnd = true → c.everythingEnd = true ∨
        c.responseEnd = true ∧ c.rest = []) := by
  obtain ⟨b, hdrained, hWf, hC, hL⟩ := drained_spec hfit
  have hrest₁ : rest { c with sendBuffer := b } = c.rest := by simp only [rest, hC]; rfl
  have hfit₁ : Fit { c with sendBuffer := b } := ⟨hWf, hL ▸ hfit.limit, hfit.start⟩
  unfold finish
  rw [hdrained]
  by_cases hidle : c.bufferStartUse = c.bufferUsedLen
  · rw [if_pos hidle]
    rcases hlen : c.sendBuffer.content.length with _ | n
    · have hnil := rest_eq_nil_of_drained hidle (List.eq_nil_of_length_eq_zero hlen)
      simp only
      split
      · rename_i hover
        exact ⟨⟨⟨hWf, hL ▸ hfit.limit, hfit.start⟩, rfl, rfl, rfl⟩, hrest₁, rfl, rfl,
          fun _ => Or.inr ⟨hover, hnil⟩⟩
      · exact ⟨⟨hfit₁, rfl, rfl, rfl⟩, hrest₁, rfl, rfl, fun hend => Or.inl hend⟩
    · exact ⟨⟨hfit₁, rfl, rfl, rfl⟩, hrest₁, rfl, rfl, fun hend => Or.inl hend⟩
  · rw [if_neg hidle]
    exact ⟨⟨hfit₁, rfl, rfl, rfl⟩, hrest₁, rfl, rfl, fun hend => Or.inl hend⟩

/-- The connection is installed or has set `response_end`, so that only the end of the response
ends it. -/
def Answerable (c : HttpConnection P) : Prop :=
  c.writeEndCallback.isSome = true ∨ c.responseEnd = true

theorem write_spec (hfit : c.Fit) (hopen : c.everythingEnd = false) (hprocess : c.processEnd = true)
    {turn : HttpTurn} (hscript : turn.writeEnd.Responds)
    (hok : (c.write turn).1.any (·.isFailedWrite) = false) :
    Writes c (c.write turn).2 ∧
      (c.write turn).1.flatMap HttpOutput.sentBytes ++ (c.write turn).2.rest = c.rest ++
        (if (c.write turn).1.any (·.isWriteEnd) then turn.writeEnd.payload else []) ∧
      (Healthy turn.send → (c.write turn).2.everythingEnd = true → (c.write turn).2.Answerable →
        (c.write turn).2.responseEnd = true ∧ (c.write turn).2.rest = []) := by
  simp only [write, hopen, hprocess, Bool.not_false, Bool.and_self, if_true] at hok ⊢
  obtain ⟨hwrites₁, hrest₁, hsent, hend₁⟩ := sendLoop_rest hfit turn.send
  generalize c.sendLoop turn.send = p at hok hwrites₁ hrest₁ hsent hend₁ ⊢
  obtain ⟨sent, c₁⟩ := p
  simp only [List.any_append, Bool.or_eq_false_iff] at hok hwrites₁ hrest₁ hsent hend₁ ⊢
  obtain ⟨hwrites₂, hrest₂, houts, hend₂⟩ := notify_spec hwrites₁.fit hscript hok.2
  generalize c₁.notify turn.writeEnd = p at hok hwrites₂ hrest₂ houts hend₂ ⊢
  obtain ⟨outs, c₂⟩ := p
  simp only at hwrites₂ hrest₂ houts hend₂ ⊢
  obtain ⟨hwrites₃, hrest₃, hend₃, hcallback₃, hover₃⟩ := refill_spec hwrites₂.fit
  obtain ⟨hwrites₄, hrest₄, hcallback₄, hover₄, hend₄⟩ := finish_spec hwrites₃.fit
  refine ⟨((hwrites₁.trans hwrites₂).trans hwrites₃).trans hwrites₄, ?_, ?_⟩
  · have hnotSent : outs.flatMap HttpOutput.sentBytes = [] := by
      rw [List.flatMap_eq_nil_iff]
      intro o ho
      rcases houts o ho with hcall | ⟨result, rfl⟩
      · cases o <;> first | rfl | cases hcall
      · rfl
    have hnotCalled : sent.any (·.isWriteEnd) = false := by
      rw [List.any_eq_false]
      intro o ho
      obtain ⟨bytes, rfl⟩ := hsent o ho
      simp [HttpOutput.isWriteEnd]
    rw [List.flatMap_append, hnotSent, List.append_nil, hrest₄, hrest₃, hrest₂, hnotCalled,
      Bool.false_or, ← List.append_assoc, hrest₁]
  · intro hhealthy hend hanswerable
    rw [hover₄, hover₃, hrest₄]
    unfold Answerable at hanswerable
    rw [hcallback₄, hover₄, hcallback₃, hover₃] at hanswerable
    rcases hend₄ hend with hend | ⟨hover, hnil⟩
    · rw [hend₃] at hend
      rcases hend₂ hend with hend | ⟨hnone, hfalse⟩
      · rw [hend₁ hhealthy, hopen] at hend
        cases hend
      · rw [hnone, hfalse] at hanswerable
        simp at hanswerable
    · exact ⟨hover₃ ▸ hover, hnil⟩

/-! ## The stages of a connection -/

/-- The request has been processed and its response is on its way. -/
structure Responding (c : HttpConnection P) (sent appended : Bytes) : Prop where
  fit : c.Fit
  closeFlag : c.closeFlag = false
  everythingEnd : c.everythingEnd = false
  processEnd : c.processEnd = true
  recvEnd : c.recvEnd = true
  balance : sent ++ c.rest = appended

/-- Where a connection stands: whether `process_callback` has been called, what has been sent and
what has been appended. -/
inductive Stage (c : HttpConnection P) : Bool → Bytes → Bytes → Prop
  | reading {s : Recording} (hc : c.Reading s) (hs : s.2 = false) (hfit : c.Fit)
      (hempty : c.sendBuffer.content = []) : Stage c false [] []
  | responding {sent appended : Bytes} (hc : c.Responding sent appended) : Stage c true sent appended
  | ended {processed : Bool} {sent appended : Bytes} (hc : c.Ended) (hsent : sent <+: appended) :
      Stage c processed sent appended

theorem Stage.sent_prefix {processed : Bool} {sent appended : Bytes}
    (hc : Stage c processed sent appended) : sent <+: appended := by
  cases hc with
  | reading => exact List.prefix_rfl
  | responding hc => exact ⟨c.rest, hc.balance⟩
  | ended _ hsent => exact hsent

theorem wait_of_responding {sent appended : Bytes} (hfit : c.Fit) (hclose : c.closeFlag = false)
    (hprocess : c.processEnd = true) (hrecv : c.recvEnd = true) (hbalance : sent ++ c.rest = appended) :
    Stage c.wait.2 true sent appended ∧ c.wait.2.everythingEnd = c.everythingEnd ∧
      c.wait.2.writeEndCallback = c.writeEndCallback ∧ c.wait.2.responseEnd = c.responseEnd := by
  cases hend : c.everythingEnd with
  | false =>
    have hwait : c.wait = ([.attach true], c) := by simp [wait, hend, hrecv]
    rw [hwait]
    exact ⟨.responding ⟨hfit, hclose, hend, hprocess, hrecv, hbalance⟩, hend, rfl, rfl⟩
  | true =>
    have hwait : c.wait.2 = { c with
        everythingEnd := true
        closeFlag := true
        sendBuffer := c.sendBuffer.clear } := by
      simp [wait, hend, act, markClose, hclose]
    rw [hwait]
    exact ⟨.ended (Or.inl rfl) ⟨c.rest, hbalance⟩, rfl, rfl, rfl⟩

/-- Writing and waiting, once the request has been processed. -/
theorem respond_spec {sent appended : Bytes} (hc : c.Responding sent appended) {turn : HttpTurn}
    (hscript : turn.writeEnd.Responds) (hok : (c.write turn).1.any (·.isFailedWrite) = false) :
    let outs := (c.write turn).1 ++ (c.write turn).2.wait.1
    let c' := (c.write turn).2.wait.2
    let sent' := sent ++ outs.flatMap HttpOutput.sentBytes
    let appended' := appended ++ if outs.any (·.isWriteEnd) then turn.writeEnd.payload else []
    Stage c' true sent' appended' ∧
      (Healthy turn.send → c'.everythingEnd = true → c'.Answerable →
        c'.responseEnd = true ∧ sent' = appended') := by
  intro outs c' sent' appended'
  obtain ⟨hwrites, hrest, hlast⟩ := write_spec hc.fit hc.everythingEnd hc.processEnd hscript hok
  have hwait := wait_outputs (c.write turn).2
  have hsent : outs.flatMap HttpOutput.sentBytes = (c.write turn).1.flatMap HttpOutput.sentBytes := by
    have hnil : (c.write turn).2.wait.1.flatMap HttpOutput.sentBytes = [] := by
      rw [List.flatMap_eq_nil_iff]
      intro o ho
      rcases hwait o ho with rfl | ⟨listenSend, rfl⟩ <;> rfl
    rw [List.flatMap_append, hnil, List.append_nil]
  have hcalled : outs.any (·.isWriteEnd) = (c.write turn).1.any (·.isWriteEnd) := by
    have hfalse : (c.write turn).2.wait.1.any (·.isWriteEnd) = false := by
      rw [List.any_eq_false]
      intro o ho
      rcases hwait o ho with rfl | ⟨listenSend, rfl⟩ <;> simp [HttpOutput.isWriteEnd]
    rw [List.any_append, hfalse, Bool.or_false]
  have hbalance : sent' ++ (c.write turn).2.rest = appended' := by
    simp only [sent', appended', hsent, hcalled]
    rw [List.append_assoc, hrest, ← List.append_assoc, hc.balance]
  obtain ⟨hstage, hend, hcallback, hover⟩ := wait_of_responding hwrites.fit
    (hwrites.closeFlag.trans hc.closeFlag) (hwrites.processEnd.trans hc.processEnd)
    (hwrites.recvEnd.trans hc.recvEnd) hbalance
  refine ⟨hstage, fun hhealthy hended hanswerable => ?_⟩
  unfold Answerable at hanswerable
  rw [hend] at hended
  rw [hcallback, hover] at hanswerable
  obtain ⟨hresponse, hnil⟩ := hlast hhealthy hended hanswerable
  rw [hnil, List.append_nil] at hbalance
  exact ⟨hover.trans hresponse, hbalance⟩

/-! ## Runs -/

/-- Nothing is sent before `process_callback` is called. -/
def SentAfterProcess (outs : List HttpOutput) : Prop :=
  ∀ before bytes after, outs = before ++ .sent bytes :: after → ∃ o ∈ before, o.isProcess = true

theorem sentAfterProcess_of_first {o : HttpOutput} (ho : o.isProcess = true)
    (outs : List HttpOutput) : SentAfterProcess (o :: outs) := by
  intro before bytes after hsplit
  cases before with
  | nil =>
    cases hsplit
    cases ho
  | cons o' before =>
    cases hsplit
    exact ⟨o, List.mem_cons_self, ho⟩

/-- Neither callback is called and nothing is sent. -/
def Idle (outs : List HttpOutput) : Prop :=
  ∀ o ∈ outs, o.isProcess = false ∧ o.isWriteEnd = false ∧ ∀ bytes, o ≠ .sent bytes

theorem Idle.spec {outs : List HttpOutput} (hidle : Idle outs) (turn : HttpTurn) :
    outs.flatMap HttpOutput.sentBytes = [] ∧ turn.appended outs = [] ∧
      outs.any (·.isProcess) = false ∧ outs.filter (·.isProcess) = [] ∧ SentAfterProcess outs := by
  have hprocess : outs.any (·.isProcess) = false := by
    rw [List.any_eq_false]
    intro o ho
    simp [(hidle o ho).1]
  have hwrite : outs.any (·.isWriteEnd) = false := by
    rw [List.any_eq_false]
    intro o ho
    simp [(hidle o ho).2.1]
  refine ⟨?_, by simp [HttpTurn.appended, hprocess, hwrite], hprocess, ?_, ?_⟩
  · rw [List.flatMap_eq_nil_iff]
    intro o ho
    cases o with
    | sent bytes => exact absurd rfl ((hidle _ ho).2.2 bytes)
    | _ => rfl
  · rw [List.filter_eq_nil_iff]
    intro o ho
    simp [(hidle o ho).1]
  · rintro before bytes after rfl
    exact absurd rfl ((hidle (.sent bytes) (by simp)).2.2 bytes)

theorem idle_attach (listenSend : Bool) : Idle [.attach listenSend] := by
  intro o ho
  rw [List.mem_singleton] at ho
  subst ho
  exact ⟨rfl, rfl, by simp⟩

theorem idle_wait (c : HttpConnection P) : Idle c.wait.1 := by
  intro o ho
  rcases wait_outputs c o ho with rfl | ⟨listenSend, rfl⟩ <;> exact ⟨rfl, rfl, by simp⟩

theorem idle_markClose (c : HttpConnection P) : Idle (c.act .markClose).1 := by
  intro o ho
  have hacts := acts_outputs c [.markClose] o (by simpa [acts] using ho)
  rcases hacts with rfl | ⟨result, rfl⟩ <;> exact ⟨rfl, rfl, by simp⟩

theorem idle_run_ended (hc : c.Ended) (turn : HttpTurn) : Idle (c.run h turn).1 := by
  cases hclose : c.closeFlag with
  | true =>
    have hacts := acts_outputs c turn.destory.acts
    unfold run
    rw [if_pos hclose]
    intro o ho
    split at ho
    · rw [List.mem_append, List.mem_cons, List.mem_singleton] at ho
      rcases ho with (rfl | ho) | rfl
      · exact ⟨rfl, rfl, by simp⟩
      · rcases hacts o ho with rfl | ⟨result, rfl⟩ <;> exact ⟨rfl, rfl, by simp⟩
      · exact ⟨rfl, rfl, by simp⟩
    · rw [List.mem_singleton] at ho
      subst ho
      exact ⟨rfl, rfl, by simp⟩
  | false =>
    have hend : c.everythingEnd = true := hc.resolve_left (by simp [hclose])
    rcases run_open (h := h) hclose turn with ⟨l, -, hrun⟩ | ⟨-, hrun⟩ | ⟨-, hrun⟩
    · rw [hrun]
      exact idle_attach l
    · rw [hrun]
      exact idle_markClose c
    · obtain ⟨hprocess, hwrite, -⟩ := rest_ended hend turn
      have hread : c.read h turn.recv = c := by simp [read, hend]
      rw [hrun]
      simp only [serve, hread, hprocess, hwrite, List.nil_append]
      exact idle_wait c

/-- What one run does to a connection at a stage. -/
structure RunSpec (c : HttpConnection P) (turn : HttpTurn) (processed : Bool) (sent appended : Bytes)
    (outs : List HttpOutput) (c' : HttpConnection P) : Prop where
  stage : Stage c' (processed || outs.any (·.isProcess)) (sent ++ outs.flatMap HttpOutput.sentBytes)
    (appended ++ turn.appended outs)
  once : (outs.filter (·.isProcess)).length ≤ if processed then 0 else 1
  order : processed = false → SentAfterProcess outs
  complete : (processed || outs.any (·.isProcess)) = true → c.closeFlag = false →
    c.everythingEnd = false → Healthy turn.send → c'.everythingEnd = true → c'.Answerable →
    c'.responseEnd = true ∧
      sent ++ outs.flatMap HttpOutput.sentBytes = appended ++ turn.appended outs

/-- A run in which nothing happens but that the stage may change. -/
theorem RunSpec.of_idle {turn : HttpTurn} {processed : Bool} {sent appended : Bytes}
    {outs : List HttpOutput} (hidle : Idle outs) (hstage : Stage c' processed sent appended)
    (hopen : processed = true → c.closeFlag = false → c.everythingEnd = false →
      c'.everythingEnd = false) :
    RunSpec c turn processed sent appended outs c' := by
  obtain ⟨hsent, happended, hany, hfilter, horder⟩ := hidle.spec turn
  refine ⟨?_, by simp [hfilter], fun _ => horder, ?_⟩
  · rw [hsent, happended, hany, List.append_nil, List.append_nil, Bool.or_false]
    exact hstage
  · intro hprocessed hclose hend _ hended
    rw [hany, Bool.or_false] at hprocessed
    rw [hopen hprocessed hclose hend] at hended
    cases hended

theorem run_ended_spec {processed : Bool} {sent appended : Bytes} (hc : c.Ended)
    (hsent : sent <+: appended) (turn : HttpTurn) :
    RunSpec c turn processed sent appended (c.run h turn).1 (c.run h turn).2 := by
  refine .of_idle (idle_run_ended hc turn) (.ended (run_ended hc turn).1 hsent) ?_
  intro _ hclose hend
  rcases hc with hc | hc
  · rw [hc] at hclose
    cases hclose
  · rw [hc] at hend
    cases hend

theorem markClose_ended (c : HttpConnection P) :
    (c.act .markClose).2.Ended ∧ (c.act .markClose).2.everythingEnd = c.everythingEnd := by
  refine ⟨(markClose_silent c).1, ?_⟩
  cases hflag : c.closeFlag <;> simp [act, markClose, hflag]

/-- No `destory_callback` is called while the connection is open. -/
theorem any_isDestory_write (c : HttpConnection P) (turn : HttpTurn) :
    ((c.write turn).1 ++ (c.write turn).2.wait.1).any (·.isDestory) = false := by
  rw [List.any_eq_false]
  intro o ho
  rcases List.mem_append.mp ho with ho | ho
  · rcases write_outputs c turn o ho with ⟨bytes, rfl⟩ | ⟨callback, view, rfl⟩ | rfl | ⟨result, rfl⟩ <;>
      simp [HttpOutput.isDestory]
  · rcases wait_outputs _ o ho with rfl | ⟨listenSend, rfl⟩ <;> simp [HttpOutput.isDestory]

theorem silent_write_wait (c : HttpConnection P) (turn : HttpTurn) :
    ∀ o ∈ (c.write turn).1 ++ (c.write turn).2.wait.1, o.isProcess = false := by
  intro o ho
  rcases List.mem_append.mp ho with ho | ho
  · exact write_silent c turn o ho
  · exact wait_silent _ o ho

theorem run_responding_spec {sent appended : Bytes} (hc : c.Responding sent appended)
    {turn : HttpTurn} (hturn : turn.Appending (c.run h turn).1) :
    RunSpec c turn true sent appended (c.run h turn).1 (c.run h turn).2 := by
  obtain ⟨hprocess, hwriteEnd, hok⟩ := hturn
  rcases run_open (h := h) hc.closeFlag turn with ⟨l, -, hrun⟩ | ⟨-, hrun⟩ | ⟨-, hrun⟩
  · rw [hrun]
    exact .of_idle (idle_attach l) (.responding hc) fun _ _ hend => hend
  · rw [hrun]
    obtain ⟨hended, hend⟩ := markClose_ended c
    exact .of_idle (idle_markClose c) (.ended hended ⟨c.rest, hc.balance⟩) fun _ _ hopen =>
      hend.trans hopen
  · have hserve : c.serve h turn =
        ((c.write turn).1 ++ (c.write turn).2.wait.1, (c.write turn).2.wait.2) := by
      have hread : c.read h turn.recv = c := by simp [read, hc.recvEnd]
      have hprocessed : c.process turn.process = ([], c) := by simp [process, hc.processEnd]
      simp [serve, hread, hprocessed]
    have hsilent := silent_write_wait c turn
    rw [hrun, hserve] at hok ⊢
    have hwrote := hok (any_isDestory_write c turn)
    rw [List.any_append, Bool.or_eq_false_iff] at hwrote
    obtain ⟨hstage, hcomplete⟩ := respond_spec hc hwriteEnd hwrote.1
    have hany : ((c.write turn).1 ++ (c.write turn).2.wait.1).any (·.isProcess) = false := by
      rw [List.any_eq_false]
      intro o ho
      simp [hsilent o ho]
    refine ⟨?_, ?_, fun hopen => Bool.noConfusion hopen, ?_⟩
    · simpa [HttpTurn.appended, hany] using hstage
    · simp only [if_true, Nat.le_zero, List.length_eq_zero_iff, List.filter_eq_nil_iff]
      intro o ho
      simp [hsilent o ho]
    · intro _ _ _ hhealthy hend hanswerable
      simpa [HttpTurn.appended, hany] using hcomplete hhealthy hend hanswerable

/-- The connection right after `process_callback`. -/
theorem process_responding {s : Recording} (hc : c.Reading s) (hdone : s.2 = true) (hfit : c.Fit)
    (hempty : c.sendBuffer.content = []) (hused : c.bufferUsedLen ≤ 0) {script : HttpScript}
    (hscript : script.Responds) (hok : (c.process script).1.any (·.isFailedWrite) = false) :
    Responding (c.process script).2 [] script.payload ∧
      ∃ outs, (c.process script).1 = .processCallback httpAppProcess c.view :: outs ∧
        ∀ o ∈ outs, ∃ result, o = .wrote result := by
  have hrecv : c.recvEnd = true := hc.recvEnd.trans hdone
  have hprocess : c.process script = (.processCallback httpAppProcess c.view ::
      (attempt { c with
        processEnd := true
        destoryCallback := some httpAppDestory
        processCallback := some httpAppProcess } script).1,
      (attempt { c with
        processEnd := true
        destoryCallback := some httpAppDestory
        processCallback := some httpAppProcess } script).2) := by
    simp only [process, hc.everythingEnd, hrecv, hc.processEnd, Bool.not_false, Bool.and_self, if_true]
    rfl
  rw [hprocess] at hok ⊢
  rw [List.any_cons, Bool.or_eq_false_iff] at hok
  have hinstalled : Fit { c with
      processEnd := true
      destoryCallback := some httpAppDestory
      processCallback := some httpAppProcess } := ⟨hfit.wf, hfit.limit, hfit.start⟩
  obtain ⟨hfit', hkeep, hrest, houts⟩ := attempt_spec hinstalled hscript hok.2
  refine ⟨⟨hfit', hkeep.closeFlag.trans hc.closeFlag, hkeep.everythingEnd.trans hc.everythingEnd,
    hkeep.processEnd, hkeep.recvEnd.trans hrecv, ?_⟩, _, rfl, houts⟩
  have hnil : c.rest = [] := by
    have hstart := hfit.start
    rw [rest, pending_of_used_le c (by omega), hempty]
    rfl
  rw [List.nil_append, hrest]
  exact congrArg (· ++ script.payload) hnil

theorem any_isDestory_process (c : HttpConnection P) (script : HttpScript) :
    (c.process script).1.any (·.isDestory) = false := by
  rw [List.any_eq_false]
  intro o ho
  have hacts := fun d : HttpConnection P => acts_outputs d script.acts
  unfold process attempt at ho
  grind [HttpOutput.isDestory]

/-- The outputs of a run that processes the request: the call, the writes of the callback and those
behind them. -/
theorem processed_outputs (turn : HttpTurn) (call : HttpOutput) (hcall : call.isProcess = true)
    (hquiet : call.sentBytes = [] ∧ call.isWriteEnd = false) {outs rest : List HttpOutput}
    (hwrote : ∀ o ∈ outs, ∃ result, o = .wrote result) (hsilent : ∀ o ∈ rest, o.isProcess = false) :
    (call :: (outs ++ rest)).flatMap HttpOutput.sentBytes = rest.flatMap HttpOutput.sentBytes ∧
      (call :: (outs ++ rest)).filter (·.isProcess) = [call] ∧
      turn.appended (call :: (outs ++ rest)) =
        turn.process.payload ++ if rest.any (·.isWriteEnd) then turn.writeEnd.payload else [] := by
  have hsent : outs.flatMap HttpOutput.sentBytes = [] := by
    rw [List.flatMap_eq_nil_iff]
    intro o ho
    obtain ⟨result, rfl⟩ := hwrote o ho
    rfl
  have hwriteEnd : outs.any (·.isWriteEnd) = false := by
    rw [List.any_eq_false]
    intro o ho
    obtain ⟨result, rfl⟩ := hwrote o ho
    simp [HttpOutput.isWriteEnd]
  have hfilter : (outs ++ rest).filter (·.isProcess) = [] := by
    rw [List.filter_eq_nil_iff]
    intro o ho
    rcases List.mem_append.mp ho with ho | ho
    · obtain ⟨result, rfl⟩ := hwrote o ho
      simp [HttpOutput.isProcess]
    · simp [hsilent o ho]
  refine ⟨?_, ?_, ?_⟩
  · rw [List.flatMap_cons, List.flatMap_append, hquiet.1, hsent]
    rfl
  · rw [List.filter_cons_of_pos hcall, hfilter]
  · simp only [HttpTurn.appended, List.any_cons, List.any_append, hcall, hquiet.2, hwriteEnd,
      Bool.true_or, Bool.false_or, if_true]

theorem run_reading_spec {s : Recording} (hc : c.Reading s) (hs : s.2 = false) (hfit : c.Fit)
    (hempty : c.sendBuffer.content = []) {turn : HttpTurn}
    (hturn : turn.Appending (c.run h turn).1) :
    RunSpec c turn false [] [] (c.run h turn).1 (c.run h turn).2 := by
  obtain ⟨hprocess, hwriteEnd, hok⟩ := hturn
  rcases run_open (h := h) hc.closeFlag turn with ⟨l, -, hrun⟩ | ⟨-, hrun⟩ | ⟨-, hrun⟩
  · rw [hrun]
    exact .of_idle (idle_attach l) (.reading hc hs hfit hempty) fun hprocessed => nomatch hprocessed
  · rw [hrun]
    exact .of_idle (idle_markClose c) (.ended (markClose_ended c).1 List.prefix_rfl)
      fun hprocessed => nomatch hprocessed
  · have hstart : Reading { c with bufferUsedLen := 0 } s := { hc with }
    have hread : c.read h turn.recv = readLoop h { c with bufferUsedLen := 0 } turn.recv := by
      simp [read, hc.recvEnd, hs, hc.everythingEnd]
    obtain ⟨hbuffer, hstartUse⟩ := readLoop_keeps h { c with bufferUsedLen := 0 } turn.recv
    have hused := bufferUsedLen_readLoop_le h { c with bufferUsedLen := 0 } turn.recv
    rcases readLoop_reading (h := h) hstart turn.recv with hend | ⟨-, hreading⟩
    · obtain ⟨hskip, hnothing, hwait⟩ := rest_ended hend turn
      rw [hrun, serve, hread]
      simp only [hskip, hnothing, List.nil_append]
      exact .of_idle (idle_wait _) (.ended hwait List.prefix_rfl) fun hprocessed => nomatch hprocessed
    · generalize h.feed httpRecorder _ s (SockRecv.blocks turn.recv) = fed at hreading
      generalize readLoop h { c with bufferUsedLen := 0 } turn.recv = c₁ at *
      simp only at hbuffer hstartUse
      have hfit₁ : c₁.Fit := ⟨hbuffer ▸ hfit.wf, hbuffer ▸ hfit.limit, hstartUse ▸ hfit.start⟩
      have hempty₁ : c₁.sendBuffer.content = [] := by rw [hbuffer, hempty]
      have hserve : c.serve h turn = ((c₁.process turn.process).1 ++
          (((c₁.process turn.process).2.write turn).1 ++
            ((c₁.process turn.process).2.write turn).2.wait.1),
          ((c₁.process turn.process).2.write turn).2.wait.2) := by
        simp only [serve, hread, List.append_assoc]
      rw [hrun, hserve] at hok ⊢
      cases hdone : fed.2.2 with
      | false =>
        -- the request is not complete, and nothing follows the read loop
        have hrecv : c₁.recvEnd = false := hreading.recvEnd.trans hdone
        have hskip : c₁.process turn.process = ([], c₁) := by simp [process, hrecv]
        have hwrite : c₁.write turn = ([], c₁) := by simp [write, hreading.processEnd]
        have hwait : c₁.wait = ([.attach false], c₁) := by
          simp [wait, hreading.everythingEnd, hrecv]
        simp only [hskip, hwrite, hwait, List.nil_append]
        exact .of_idle (idle_attach false) (.reading hreading hdone hfit₁ hempty₁)
          fun hprocessed => nomatch hprocessed
      | true =>
        have hdestory := any_isDestory_process c₁ turn.process
        have hokAll := hok (by rw [List.any_append, hdestory, any_isDestory_write]; rfl)
        rw [List.any_append, Bool.or_eq_false_iff] at hokAll
        obtain ⟨hokProcess, hokWrite⟩ := hokAll
        rw [List.any_append, Bool.or_eq_false_iff] at hokWrite
        obtain ⟨hresponding, outs, houts, hwrote⟩ :=
          process_responding hreading hdone hfit₁ hempty₁ hused hprocess hokProcess
        obtain ⟨hstage, hcomplete⟩ := respond_spec hresponding hwriteEnd hokWrite.1
        have hsilent := silent_write_wait (c₁.process turn.process).2 turn
        rw [houts]
        generalize (c₁.process turn.process).2 = c₂ at hstage hcomplete hsilent ⊢
        generalize (c₂.write turn).1 ++ (c₂.write turn).2.wait.1 = rest at hstage hcomplete hsilent ⊢
        obtain ⟨hsent, hfilter, happended⟩ := processed_outputs turn
          (.processCallback httpAppProcess c₁.view) rfl ⟨rfl, rfl⟩ hwrote hsilent
        rw [List.cons_append]
        refine ⟨?_, ?_, fun _ => sentAfterProcess_of_first rfl _, ?_⟩
        · rw [hsent, happended, List.nil_append]
          simpa [HttpOutput.isProcess] using hstage
        · rw [hfilter]
          rfl
        · intro _ _ _ hhealthy hend hanswerable
          rw [hsent, happended, List.nil_append]
          simpa using hcomplete hhealthy hend hanswerable

theorem run_spec {processed : Bool} {sent appended : Bytes} (hc : Stage c processed sent appended)
    {turn : HttpTurn} (hturn : turn.Appending (c.run h turn).1) :
    RunSpec c turn processed sent appended (c.run h turn).1 (c.run h turn).2 := by
  cases hc with
  | reading hc hs hfit hempty => exact run_reading_spec hc hs hfit hempty hturn
  | responding hc => exact run_responding_spec hc hturn
  | ended hc hsent => exact run_ended_spec hc hsent turn

theorem runs_append (h : HttpParser P) (c : HttpConnection P) (turns more : List HttpTurn) :
    c.runs h (turns ++ more) = ((c.runs h turns).1 ++ ((c.runs h turns).2.runs h more).1,
      ((c.runs h turns).2.runs h more).2) := by
  induction turns generalizing c with
  | nil => rfl
  | cons turn turns ih => simp only [List.cons_append, runs, ih, List.append_assoc]

theorem appended_append (h : HttpParser P) (c : HttpConnection P) (turns more : List HttpTurn) :
    appended h c (turns ++ more) =
      appended h c turns ++ appended h (c.runs h turns).2 more := by
  induction turns generalizing c with
  | nil => rfl
  | cons turn turns ih => simp only [List.cons_append, appended, runs, ih, List.append_assoc]

theorem appending_append {turns more : List HttpTurn} (happ : Appending h c (turns ++ more)) :
    Appending h c turns ∧ Appending h (c.runs h turns).2 more := by
  induction turns generalizing c with
  | nil => exact ⟨trivial, happ⟩
  | cons turn turns ih =>
    obtain ⟨hturns, hmore⟩ := ih happ.2
    exact ⟨⟨happ.1, hturns⟩, hmore⟩

theorem SentAfterProcess.append {xs ys : List HttpOutput} (hx : SentAfterProcess xs)
    (hy : SentAfterProcess ys ∨ ∃ o ∈ xs, o.isProcess = true) : SentAfterProcess (xs ++ ys) := by
  intro before bytes after hsplit
  rcases List.append_eq_append_iff.mp hsplit with ⟨mid, rfl, htail⟩ | ⟨mid, rfl, htail⟩
  · rcases hy with hy | ⟨o, ho, hprocess⟩
    · obtain ⟨o, ho, hprocess⟩ := hy mid bytes after htail
      exact ⟨o, List.mem_append_right _ ho, hprocess⟩
    · exact ⟨o, List.mem_append_left _ ho, hprocess⟩
  · cases mid with
    | nil =>
      rcases hy with hy | ⟨o, ho, hprocess⟩
      · obtain ⟨o, ho, -⟩ := hy [] bytes after htail.symm
        cases ho
      · exact ⟨o, by simpa using ho, hprocess⟩
    | cons o mid =>
      cases htail
      exact hx before bytes mid rfl

/-- What a sequence of runs does to a connection at a stage. -/
theorem runs_spec {processed : Bool} {sent app : Bytes} (hc : Stage c processed sent app)
    {turns : List HttpTurn} (happ : Appending h c turns) :
    Stage (c.runs h turns).2 (processed || (c.runs h turns).1.any (·.isProcess))
        (sent ++ (c.runs h turns).1.flatMap HttpOutput.sentBytes) (app ++ appended h c turns) ∧
      ((c.runs h turns).1.filter (·.isProcess)).length ≤ (if processed then 0 else 1) ∧
      (processed = false → SentAfterProcess (c.runs h turns).1) := by
  induction turns generalizing c processed sent app with
  | nil =>
    refine ⟨by simpa [runs, appended] using hc, by simp [runs], fun _ => ?_⟩
    intro before bytes after hsplit
    simp [runs] at hsplit
  | cons turn turns ih =>
    obtain ⟨hstage, honce, horder, -⟩ := run_spec hc happ.1
    obtain ⟨hstages, honces, horders⟩ := ih hstage happ.2
    simp only [runs, appended, List.any_append, List.flatMap_append, List.filter_append,
      List.length_append]
    refine ⟨by simpa [Bool.or_assoc, List.append_assoc] using hstages, ?_, ?_⟩
    · cases processed with
      | true =>
        simp only [Bool.true_or, if_true] at honce honces ⊢
        omega
      | false =>
        cases hany : (c.run h turn).1.any (·.isProcess) with
        | true =>
          simp only [hany, Bool.false_or, Bool.false_eq_true, if_true, if_false] at honce honces ⊢
          omega
        | false =>
          have hnone : (c.run h turn).1.filter (·.isProcess) = [] := by
            rw [List.any_eq_false] at hany
            exact List.filter_eq_nil_iff.mpr hany
          simp only [hany, hnone, Bool.false_or, Bool.false_eq_true, if_false, List.length_nil]
            at honces ⊢
          omega
    · intro hfalse
      subst hfalse
      refine (horder rfl).append ?_
      cases hany : (c.run h turn).1.any (·.isProcess) with
      | true => exact Or.inr (by simpa using hany)
      | false =>
        rw [hany] at horders
        exact Or.inl (horders rfl)

theorem stage_prepare (init : P) (socketPtr : Option Nat) (gid : Nat) (c : HttpConnection P) :
    Stage (c.prepare init socketPtr gid) false [] [] := by
  obtain ⟨hWf, hC, hL⟩ := Buffer.setLimitMax_spec (Buffer.wf_clear c.sendBuffer)
    (by decide : httpMemBufferSizeMax < 2 ^ 64)
  refine .reading (s := (.empty, false)) ⟨rfl, rfl, rfl, rfl, rfl, rfl, rfl, rfl⟩ rfl
    ⟨hWf, ?_, Int.le_refl 0⟩ ?_
  · exact Nat.le_trans (Nat.le_of_eq hL)
      (by decide : max httpMemBufferSizeMax Buffer.initSize ≤ maxObjectSize)
  · exact hC

/-- `process_callback` is called only when the parser has reported the end of the request. -/
theorem process_after_request (hdoc : h.Documented) {s : Recording} (hc : c.Reading s)
    (hs : s = (.empty, false)) (hparser : c.httpParser = h.init) {turns : List HttpTurn}
    {turn : HttpTurn} (hquiet : ∀ o ∈ (c.runs h turns).1, o.isProcess = false)
    (hcall : ∃ o ∈ ((c.runs h turns).2.run h turn).1, o.isProcess = true) :
    .messageComplete ∈ h.callbacks h.init ((turns ++ [turn]).flatMap HttpTurn.pieces) := by
  obtain ⟨o, ho, hprocess⟩ := hcall
  cases o with
  | processCallback callback view =>
    obtain ⟨fed, hfed, hdone, -⟩ := runs_process hc (by rw [hs]) turns hquiet turn ho
    rw [hs, hparser, HttpParser.feed_eq hdoc] at hfed
    by_contra hnot
    have hbefore := (@recorder_before httpReply (fun e => decide (e = .messageComplete)) _
      (fun e he => decide_eq_false fun heq => hnot (heq ▸ he)) .empty 0).1
    rw [hfed] at hdone
    exact absurd (hdone.symm.trans hbefore) (by decide)
  | _ => cases hprocess

/-- **Delivery of a response.** Take a connection from the accept loop on and any sequence of runs
whose callbacks only append to `m_send_buffer` or set `response_end`. What the socket has taken is
a prefix of what was appended. `process_callback` is called at most once, only when the parser
has reported the end of the request, and nothing is sent before. When then a run sets
`everything_end`, the socket being neither broken nor at its end and a `write_end_callback` being
installed or `response_end` set, then `response_end` is set and all that was appended has been
sent. -/
theorem response_delivered (h : HttpParser P) (hdoc : h.Documented) (socketPtr : Option Nat)
    (gid : Nat) (c : HttpConnection P) (turns : List HttpTurn) (turn : HttpTurn)
    (happ : Appending h (c.prepare h.init socketPtr gid) (turns ++ [turn])) :
    let start := c.prepare h.init socketPtr gid
    let before := (start.runs h turns).2
    let outs := (start.runs h (turns ++ [turn])).1
    let after := (start.runs h (turns ++ [turn])).2
    outs.flatMap HttpOutput.sentBytes <+: appended h start (turns ++ [turn]) ∧
      (outs.filter (·.isProcess)).length ≤ 1 ∧
      SentAfterProcess outs ∧
      ((∃ o ∈ (before.run h turn).1, o.isProcess = true) →
        .messageComplete ∈ h.callbacks h.init ((turns ++ [turn]).flatMap HttpTurn.pieces)) ∧
      ((∃ o ∈ outs, o.isProcess = true) → before.closeFlag = false → before.everythingEnd = false →
        after.everythingEnd = true → Healthy turn.send → after.Answerable →
        after.responseEnd = true ∧
          outs.flatMap HttpOutput.sentBytes = appended h start (turns ++ [turn])) := by
  intro start before outs after
  have hstart : Stage start false [] [] := stage_prepare h.init socketPtr gid c
  obtain ⟨hstage, honce, horder⟩ := runs_spec hstart happ
  obtain ⟨happs, happlast⟩ := appending_append happ
  obtain ⟨hstages, -, -⟩ := runs_spec hstart happs
  have houts : outs = (start.runs h turns).1 ++ (before.run h turn).1 := by
    simp only [outs, runs_append, runs, List.append_nil]
    rfl
  have hafter : after = (before.run h turn).2 := by
    simp only [after, runs_append, runs]
    rfl
  refine ⟨by simpa using hstage.sent_prefix, honce, horder rfl, ?_, ?_⟩
  · intro hcall
    refine process_after_request hdoc (s := (.empty, false))
      ⟨rfl, rfl, rfl, rfl, rfl, rfl, rfl, rfl⟩ rfl rfl ?_ hcall
    -- it is called at most once, so not in the runs before
    intro o ho
    by_contra hprocess
    rw [Bool.not_eq_false] at hprocess
    obtain ⟨o', ho', hprocess'⟩ := hcall
    have hfirst : 0 < ((start.runs h turns).1.filter (·.isProcess)).length :=
      List.length_pos_of_mem (List.mem_filter.mpr ⟨ho, hprocess⟩)
    have hlast : 0 < ((before.run h turn).1.filter (·.isProcess)).length :=
      List.length_pos_of_mem (List.mem_filter.mpr ⟨ho', hprocess'⟩)
    change (outs.filter (·.isProcess)).length ≤ 1 at honce
    rw [houts, List.filter_append, List.length_append] at honce
    omega
  · intro hprocess hclose hopen hended hhealthy hanswerable
    have hrun : RunSpec before turn _ _ _ (before.run h turn).1 (before.run h turn).2 :=
      run_spec hstages happlast.1
    rw [hafter] at hended hanswerable ⊢
    have hcalled : (false || (start.runs h turns).1.any (·.isProcess) ||
        (before.run h turn).1.any (·.isProcess)) = true := by
      rw [Bool.false_or, ← List.any_append, ← houts]
      simpa using hprocess
    obtain ⟨hresponse, hall⟩ := hrun.complete hcalled hclose hopen hhealthy hended hanswerable
    refine ⟨hresponse, ?_⟩
    rw [houts, List.flatMap_append, appended_append]
    simpa [appended] using hall

/-- A request, and a response whose two bytes the socket takes one by one. -/
def okRequest : HttpTurn :=
  { httpRecvTurn [asciiBlock "GET / HTTP/1.1\r\n\r\n" (by decide)] with
    process := ⟨[.write (some ⟨ascii "ok", by decide⟩), .setResponseEnd true], false⟩ }

def okSent : HttpTurn := { httpRecvTurn [] with send := [.took 1, .failed .eintr, .took 1] }

theorem response_delivered_ok :
    lineParser.Documented ∧ Appending lineParser freshHttp [okRequest, okSent] ∧
      (freshHttp.runs lineParser [okRequest, okSent]).2.everythingEnd = true ∧
      (freshHttp.runs lineParser [okRequest, okSent]).1.flatMap HttpOutput.sentBytes =
        appended lineParser freshHttp [okRequest, okSent] ∧
      appended lineParser freshHttp [okRequest, okSent] = ascii "ok" := by
  have happ : Appending lineParser freshHttp ([okRequest] ++ [okSent]) := by decide +kernel
  obtain ⟨-, -, -, -, hall⟩ := response_delivered lineParser lineParser_documented (some 3) 7
    (HttpConnection.new (fun _ => 0) lineParser.init none) [okRequest] okSent happ
  refine ⟨lineParser_documented, happ, by decide +kernel, ?_, by decide +kernel⟩
  exact (hall (by decide +kernel) (by decide +kernel) (by decide +kernel) (by decide +kernel)
    (by decide +kernel) (Or.inr (by decide +kernel))).2

end HttpConnection

end Tubekit
