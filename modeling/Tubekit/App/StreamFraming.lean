import Mathlib.Data.List.Infix
import Tubekit.App.StreamApp

/-!
# Requests under segmentation

There is no length in front of a package: `process_connection` parses all unread bytes as one
package and goes by the size of the result. Requests that are parsed together merge into the
last of them, so each of them is handled as the last one (`processLoop_batch`); a request that
is cut short makes the parse fail and waits. Hence the requests are handled as they were sent
exactly when a chunk ends between any two neighbours that differ (`requests_delivered_iff`).
-/

namespace Tubekit

open Lib

/-- A request that `process_protocol` accepts, with a serialization that is not empty. -/
structure SentRequest (codec : ProtoCodec) where
  body : Bytes
  accepted : (codec.parseReqExample body).isSome
  nonempty : codec.serialize csReqExample body ≠ []
  fits : (codec.serialize csReqExample body).length ≤ maxProtoSize

variable {codec : ProtoCodec}

namespace SentRequest

def bytes (m : SentRequest codec) : Bytes := codec.serialize csReqExample m.body

/-- The call of `process_protocol` that the request is for. -/
def call (m : SentRequest codec) : Int × Bytes := (csReqExample, m.body)

/-- The bytes of the requests. -/
def wire (ms : List (SentRequest codec)) : Bytes :=
  (ms.map SentRequest.body).flatMap (codec.serialize csReqExample)

@[simp] theorem wire_nil : wire ([] : List (SentRequest codec)) = [] := rfl

@[simp] theorem wire_cons (m : SentRequest codec) (ms : List (SentRequest codec)) :
    wire (m :: ms) = m.bytes ++ wire ms := rfl

@[simp] theorem wire_append (ms ms' : List (SentRequest codec)) :
    wire (ms ++ ms') = wire ms ++ wire ms' := by
  simp [wire]

theorem bytes_pos (m : SentRequest codec) : 0 < m.bytes.length := List.length_pos_of_ne_nil m.nonempty

/-- What has been received is some requests, or some requests and a part of the next one. -/
theorem prefix_wire {ms : List (SentRequest codec)} {bytes : Bytes} (h : bytes <+: wire ms) :
    (∃ j, j ≤ ms.length ∧ bytes = wire (ms.take j)) ∨
      ∃ (j : Nat) (m : SentRequest codec) (t : Bytes), bytes = wire (ms.take j) ++ t ∧
        ms[j]? = some m ∧ t <+: m.bytes ∧ t ≠ [] ∧ t ≠ m.bytes := by
  induction ms generalizing bytes with
  | nil => exact Or.inl ⟨0, Nat.le_refl 0, by simpa using h⟩
  | cons m ms ih =>
    rw [wire_cons] at h
    rcases ProtoWire.prefix_append_cases h with ⟨hpre, hne⟩ | ⟨t, rfl, ht⟩
    · by_cases hnil : bytes = []
      · exact Or.inl ⟨0, Nat.zero_le _, by simpa using hnil⟩
      · exact Or.inr ⟨0, m, bytes, rfl, rfl, hpre, hnil, hne⟩
    · rcases ih ht with ⟨j, hj, rfl⟩ | ⟨j, m', t', rfl, hm, hpre, hnil, hne⟩
      · exact Or.inl ⟨j + 1, by simpa using hj, by simp⟩
      · exact Or.inr ⟨j + 1, m', t', by simp, hm, hpre, hnil, hne⟩

end SentRequest

/-- The lists differ at a place that both of them have. -/
def Diverges {α : Type*} (xs ys : List α) : Prop :=
  ∃ common x y xs' ys', xs = common ++ x :: xs' ∧ ys = common ++ y :: ys' ∧ x ≠ y

theorem Diverges.ne {α : Type*} {xs ys : List α} (h : Diverges xs ys) : xs ≠ ys := by
  obtain ⟨common, x, y, xs', ys', rfl, rfl, hne⟩ := h
  intro heq
  exact hne (List.cons.inj (List.append_cancel_left heq)).1

theorem Diverges.append {α : Type*} {xs ys : List α} (h : Diverges xs ys) (xs' ys' : List α) :
    Diverges (xs ++ xs') (ys ++ ys') := by
  obtain ⟨common, x, y, xs₁, ys₁, rfl, rfl, hne⟩ := h
  exact ⟨common, x, y, xs₁ ++ xs', ys₁ ++ ys', by simp, by simp, hne⟩

/-! ## A call of `process_connection` -/

namespace StreamWorld

theorem sendPacket_spec (w : StreamWorld) (data : Bytes) :
    (w.sendPacket data).2.connection.recvBuffer = w.connection.recvBuffer ∧
      (w.sendPacket data).2.calls = w.calls := by
  unfold sendPacket StreamConnection.send Staging.send
  grind

theorem processProtocol_spec (w : StreamWorld) (package : codec.Package) :
    (w.processProtocol codec package).2.calls =
        w.calls ++ [(codec.cmd package, codec.body package)] ∧
      (w.processProtocol codec package).2.connection.recvBuffer = w.connection.recvBuffer := by
  unfold processProtocol
  split
  · split
    · obtain ⟨hbuffer, hcalls⟩ := sendPacket_spec
        { w with calls := w.calls ++ [(codec.cmd package, codec.body package)] } _
      exact ⟨hcalls, hbuffer⟩
    · exact ⟨rfl, rfl⟩
  · exact ⟨rfl, rfl⟩

theorem processProtocol_accepted (w : StreamWorld) {package : codec.Package}
    (hcmd : codec.cmd package = csReqExample)
    (hbody : (codec.parseReqExample (codec.body package)).isSome) :
    (w.processProtocol codec package).1 = 0 := by
  obtain ⟨testcontext, htest⟩ := Option.isSome_iff_exists.mp hbody
  simp [processProtocol, hcmd, htest]

@[simp] theorem markClose_calls (w : StreamWorld) : w.markClose.calls = w.calls := rfl

@[simp] theorem setRecvBuffer_calls (w : StreamWorld) (b : Buffer) :
    (w.setRecvBuffer b).calls = w.calls := rfl

@[simp] theorem setRecvBuffer_recvBuffer (w : StreamWorld) (b : Buffer) :
    (w.setRecvBuffer b).connection.recvBuffer = b := rfl

/-- Calls are never taken back. -/
theorem processLoop_calls (data : Nat → Byte) (all fuel offset : Nat) (w : StreamWorld) :
    w.calls <+: (processLoop codec data all fuel offset w).2.calls := by
  induction fuel generalizing offset w with
  | zero => exact List.prefix_rfl
  | succ fuel ih =>
    rw [processLoop]
    simp only
    split
    · exact List.prefix_rfl
    · split
      · exact List.prefix_rfl
      · rename_i package hparse
        obtain ⟨hcalls, -⟩ := processProtocol_spec w package
        have hstep : w.calls <+: (w.processProtocol codec package).2.calls := by
          rw [hcalls]
          exact List.prefix_append _ _
        split
        · exact hstep
        · exact hstep.trans (ih _ _)

theorem skip_calls (left : Option Nat × StreamWorld) : (skip left).2.calls = left.2.calls := by
  obtain ⟨_ | offset, w⟩ := left
  · rfl
  · rcases hmove : w.connection.recvBuffer.readPtrMoveN offset with ⟨moved, b⟩
    simp only [skip, hmove]
    cases moved with
    | false => rfl
    | true => rfl

theorem processConnection_calls (w : StreamWorld) :
    w.calls <+: (w.processConnection codec).2.calls := by
  unfold processConnection
  simp only
  split
  · exact List.prefix_rfl
  · rw [skip_calls]
    refine List.IsPrefix.trans ?_ (processLoop_calls _ _ _ _ _)
    exact List.prefix_rfl

/-- One round on unread bytes that are whole requests: it handles the last of them. -/
theorem processLoop_round (h : codec.Documented) {data : Nat → Byte} {all offset : Nat}
    (hall : all ≤ memBufferSizeMax) (hoff : offset ≤ all) {batch : List (SentRequest codec)}
    {last : SentRequest codec}
    (hload : Memory.load data offset (all - offset) = SentRequest.wire (batch ++ [last]))
    (fuel : Nat) (w : StreamWorld) :
    ∃ w', processLoop codec data all (fuel + 1) offset w =
        processLoop codec data all fuel (offset + last.bytes.length) w' ∧
      w'.calls = w.calls ++ [last.call] ∧
      w'.connection.recvBuffer = w.connection.recvBuffer := by
  have hsmall : memBufferSizeMax < 2 ^ 31 - 1 := by decide
  have hlen := congrArg List.length hload
  have hpos := last.bytes_pos
  rw [Memory.length_load, SentRequest.wire_append, List.length_append] at hlen
  simp only [SentRequest.wire_cons, SentRequest.wire_nil, List.append_nil] at hlen
  have hwire : SentRequest.wire (batch ++ [last]) =
      (batch.map SentRequest.body ++ [last.body]).flatMap (codec.serialize csReqExample) := by
    simp [SentRequest.wire]
  obtain ⟨package, hparse, hcmd, hbody, hsize⟩ := h.lastWins (batch.map SentRequest.body) last.body
    (by
      intro b hb
      rw [List.mem_append, List.mem_map, List.mem_singleton] at hb
      rcases hb with ⟨m, -, rfl⟩ | rfl
      · exact m.nonempty
      · exact last.nonempty)
    (by
      rw [← hwire, ← hload, Memory.length_load]
      unfold maxProtoSize
      omega)
  rw [← hwire, ← hload] at hparse
  obtain ⟨hcalls, hbuffer⟩ := processProtocol_spec w package
  have hret := processProtocol_accepted w hcmd (by rw [hbody]; exact last.accepted)
  refine ⟨(w.processProtocol codec package).2, ?_, ?_, hbuffer⟩
  · rw [processLoop]
    simp only
    rw [u64Sub_of_le hoff (by omega), if_neg (by omega), hparse]
    simp only [hret, ne_eq, not_true_eq_false, if_false]
    rw [hsize, u64Add_of_lt]
    · rfl
    · show offset + last.bytes.length < 2 ^ 64
      omega
  · rw [hcalls, hcmd, hbody]
    rfl

/-- The requests all have one body. -/
def Same (batch : List (SentRequest codec)) : Prop :=
  ∀ m ∈ batch, ∀ m' ∈ batch, m.body = m'.body

theorem Same.cons {m last : SentRequest codec} {ms : List (SentRequest codec)} (h : Same ms)
    (hlast : ms = [] ∨ last ∈ ms) (hbody : m.body = last.body) : Same (m :: ms) := by
  have hms : ∀ a ∈ m :: ms, a.body = m.body := by
    intro a ha
    rw [List.mem_cons] at ha
    rcases ha with rfl | ha
    · rfl
    · rcases hlast with rfl | hlast
      · cases ha
      · rw [hbody]
        exact h a ha last hlast
  exact fun a ha b hb => (hms a ha).trans (hms b hb).symm

/-- Requests that are unread together are handled one by one if they are the same; otherwise
the first call that goes wrong has the body of the last request. -/
theorem processLoop_batch (h : codec.Documented) {data : Nat → Byte} {all : Nat}
    (hall : all ≤ memBufferSizeMax) (batch : List (SentRequest codec)) {offset fuel : Nat}
    {w : StreamWorld} (hoff : offset ≤ all)
    (hload : Memory.load data offset (all - offset) = SentRequest.wire batch)
    (hfuel : all - offset < fuel) :
    (Same batch →
      ∃ w', processLoop codec data all fuel offset w = (some all, w') ∧
        w'.calls = w.calls ++ batch.map SentRequest.call ∧
        w'.connection.recvBuffer = w.connection.recvBuffer) ∧
      (¬Same batch → Diverges (processLoop codec data all fuel offset w).2.calls
        (w.calls ++ batch.map SentRequest.call)) := by
  have hsmall : memBufferSizeMax < 2 ^ 31 - 1 := by decide
  induction batch generalizing offset fuel w with
  | nil =>
    obtain ⟨fuel, rfl⟩ := Nat.exists_eq_add_of_lt (Nat.zero_lt_of_lt hfuel)
    have hend : offset = all := by
      have hlen := congrArg List.length hload
      rw [Memory.length_load, SentRequest.wire_nil, List.length_nil] at hlen
      omega
    refine ⟨fun _ => ⟨w, ?_, by simp, rfl⟩, fun hnot => absurd (fun m hm => by cases hm) hnot⟩
    rw [Nat.zero_add, processLoop]
    simp only
    rw [hend, u64Sub_of_le (Nat.le_refl _) (by omega), Nat.sub_self, if_pos rfl]
  | cons m ms ih =>
    obtain ⟨fuel, rfl⟩ := Nat.exists_eq_add_of_lt (Nat.zero_lt_of_lt hfuel)
    rw [Nat.zero_add] at hfuel ⊢
    obtain ⟨init, last, hsplit⟩ : ∃ init last, m :: ms = init ++ [last] :=
      ⟨_, _, (List.dropLast_append_getLast (List.cons_ne_nil m ms)).symm⟩
    have hmem : last ∈ m :: ms := by rw [hsplit]; simp
    have hlast : ms = [] ∨ last ∈ ms := by
      cases init with
      | nil => exact Or.inl (List.cons.inj hsplit).2
      | cons a init =>
        rw [(List.cons.inj hsplit).2]
        exact Or.inr (by simp)
    obtain ⟨w', hround, hcalls, hbuffer⟩ :=
      @processLoop_round codec h data all offset hall hoff init last (by rw [hload, hsplit]) fuel w
    rw [hround]
    by_cases hbody : m.body = last.body
    · have hcall : last.call = m.call := by simp [SentRequest.call, hbody]
      have hbytes : last.bytes = m.bytes := by simp [SentRequest.bytes, hbody]
      rw [hbytes]
      have hpos := m.bytes_pos
      have hlen := congrArg List.length hload
      rw [Memory.length_load, SentRequest.wire_cons, List.length_append] at hlen
      have hrest : Memory.load data (offset + m.bytes.length) (all - (offset + m.bytes.length)) =
          SentRequest.wire ms := by
        have hdrop := Memory.drop_load data offset (show m.bytes.length ≤ all - offset by omega)
        rw [hload, SentRequest.wire_cons, List.drop_left] at hdrop
        rw [hdrop, Nat.sub_sub]
      obtain ⟨hsame, hdiff⟩ := @ih (offset + m.bytes.length) fuel w' (by omega) hrest (by omega)
      rw [hcalls, hcall, List.append_assoc] at hsame hdiff
      refine ⟨fun hall => ?_, fun hnot => hdiff fun hms => hnot (hms.cons hlast hbody)⟩
      obtain ⟨w'', hrun, hcalls', hbuffer'⟩ :=
        hsame fun a ha b hb => hall a (by simp [ha]) b (by simp [hb])
      exact ⟨w'', hrun, hcalls', hbuffer'.trans hbuffer⟩
    · refine ⟨fun hall => absurd (hall m (by simp) last hmem) hbody, fun _ => ?_⟩
      obtain ⟨rest, hrest⟩ := processLoop_calls data all fuel (offset + last.bytes.length) w'
      rw [← hrest, hcalls]
      exact ⟨w.calls, last.call, m.call, rest, ms.map SentRequest.call, by simp, by simp,
        fun heq => hbody (congrArg Prod.snd heq).symm⟩

/-- The unread bytes of the connection, in a buffer with the limit of `reuse`. -/
structure Unread (w : StreamWorld) (bytes : Bytes) : Prop where
  wf : w.connection.recvBuffer.Wf
  limit : w.connection.recvBuffer.limitMax = memBufferSizeMax
  content : w.connection.recvBuffer.content = bytes

theorem Unread.skip {w : StreamWorld} {bytes : Bytes} (h : w.Unread bytes) {offset : Nat}
    (hoff : offset ≤ bytes.length) :
    (StreamWorld.skip (some offset, w)).1 = true ∧
      (StreamWorld.skip (some offset, w)).2.Unread (bytes.drop offset) := by
  obtain ⟨b, hmove, hwf, hcontent, hlimit⟩ := Buffer.readPtrMoveN_spec h.wf offset
  rw [h.content, if_pos hoff] at hcontent
  rw [h.content, decide_eq_true hoff] at hmove
  simp only [StreamWorld.skip, hmove]
  exact ⟨trivial, hwf, hlimit.trans h.limit, hcontent⟩

/-- A call of `process_connection` is its loop on the unread bytes. -/
theorem Unread.processConnection (codec : ProtoCodec) {w : StreamWorld} {bytes : Bytes}
    (h : w.Unread bytes) (hne : bytes ≠ []) :
    ∃ data w₁, Memory.load data 0 bytes.length = bytes ∧ w₁.calls = w.calls ∧ w₁.Unread bytes ∧
      w.processConnection codec =
        StreamWorld.skip (processLoop codec data bytes.length (bytes.length + 1) 0 w₁) := by
  obtain ⟨b₁, hsize, hwf₁, hcontent₁, hlimit₁⟩ := Buffer.canReadableSize_spec h.wf
  obtain ⟨data, b₂, hptr, hdata, hwf₂, hcontent₂, hlimit₂⟩ := Buffer.forceGetReadPtr_spec hwf₁
  rw [hcontent₁, h.content] at hdata hcontent₂
  have hpos : ¬0 = bytes.length := by
    have := List.length_pos_of_ne_nil hne
    omega
  refine ⟨data, (w.setRecvBuffer b₁).setRecvBuffer b₂, hdata, rfl,
    ⟨hwf₂, (hlimit₂.trans hlimit₁).trans h.limit, hcontent₂⟩, ?_⟩
  rw [h.content] at hsize
  simp only [StreamWorld.processConnection, hsize, hptr, if_neg hpos]

theorem Unread.length_le {w : StreamWorld} {bytes : Bytes} (h : w.Unread bytes) :
    bytes.length ≤ memBufferSizeMax := by
  rw [← h.content, ← h.limit]
  exact h.wf.length_content_le

/-- `process_connection` on whole requests. -/
theorem processConnection_batch (h : codec.Documented) {w : StreamWorld}
    {batch : List (SentRequest codec)} (hne : batch ≠ [])
    (hunread : w.Unread (SentRequest.wire batch)) :
    (Same batch →
      (w.processConnection codec).1 = true ∧
      (w.processConnection codec).2.calls = w.calls ++ batch.map SentRequest.call ∧
      (w.processConnection codec).2.Unread []) ∧
      (¬Same batch → Diverges (w.processConnection codec).2.calls
        (w.calls ++ batch.map SentRequest.call)) := by
  have hnil : SentRequest.wire batch ≠ [] := by
    cases batch with
    | nil => exact absurd rfl hne
    | cons m ms => simp [m.nonempty, SentRequest.bytes]
  obtain ⟨data, w₁, hdata, hcalls₁, hunread₁, hrun⟩ := hunread.processConnection codec hnil
  obtain ⟨hsame, hdiff⟩ := @processLoop_batch codec h data (SentRequest.wire batch).length
    hunread.length_le batch 0 ((SentRequest.wire batch).length + 1) w₁ (Nat.zero_le _)
    (by rw [Nat.sub_zero, hdata]) (by omega)
  rw [hrun, skip_calls, ← hcalls₁]
  refine ⟨fun hs => ?_, hdiff⟩
  obtain ⟨w', hloop, hcalls', hbuffer⟩ := hsame hs
  rw [hloop]
  have hunread' : w'.Unread (SentRequest.wire batch) :=
    ⟨hbuffer ▸ hunread₁.wf, hbuffer ▸ hunread₁.limit, hbuffer ▸ hunread₁.content⟩
  obtain ⟨hret, hleft⟩ := hunread'.skip (Nat.le_refl _)
  rw [List.drop_length] at hleft
  exact ⟨hret, hcalls', hleft⟩

/-- `process_connection` when the last request is cut short: everything waits. -/
theorem processConnection_truncated (h : codec.Documented) {w : StreamWorld}
    {batch : List (SentRequest codec)} {m : SentRequest codec} {t : Bytes}
    (hunread : w.Unread (SentRequest.wire batch ++ t)) (hpre : t <+: m.bytes) (hnil : t ≠ [])
    (hne : t ≠ m.bytes) :
    (w.processConnection codec).1 = true ∧ (w.processConnection codec).2.calls = w.calls ∧
      (w.processConnection codec).2.Unread (SentRequest.wire batch ++ t) := by
  have hsmall : memBufferSizeMax < 2 ^ 31 - 1 := by decide
  have hle := hunread.length_le
  obtain ⟨data, w₁, hdata, hcalls₁, hunread₁, hrun⟩ :=
    hunread.processConnection codec (by simp [hnil])
  have hparse : codec.parseFromArray (SentRequest.wire batch ++ t) = none := by
    refine h.truncated (batch.map SentRequest.body) m.body t ?_ ?_ m.fits hpre hne hnil
    · intro b hb
      obtain ⟨m', -, rfl⟩ := List.mem_map.mp hb
      exact m'.nonempty
    · show (SentRequest.wire batch ++ t).length ≤ maxProtoSize
      unfold maxProtoSize
      omega
  have hpos : (SentRequest.wire batch ++ t).length ≠ 0 := by simp [hnil]
  have hloop : processLoop codec data (SentRequest.wire batch ++ t).length
      ((SentRequest.wire batch ++ t).length + 1) 0 w₁ = (some 0, w₁) := by
    rw [processLoop]
    simp only
    rw [u64Sub_of_le (Nat.zero_le _) (by omega), Nat.sub_zero, if_neg hpos, hdata, hparse]
  rw [hrun, skip_calls, hloop]
  obtain ⟨hret, hleft⟩ := hunread₁.skip (Nat.zero_le _)
  exact ⟨hret, hcalls₁, hleft⟩

end StreamWorld

/-! ## Boundaries and chunks -/

/-- Where the request `i` begins in the stream. -/
def boundary (ms : List (SentRequest codec)) (i : Nat) : Nat :=
  (SentRequest.wire (ms.take i)).length

/-- A chunk ends after `e` bytes, or `e` is zero. -/
def IsEnd (chunks : List Bytes) (e : Nat) : Prop := ∃ k, (chunks.take k).flatten.length = e

/-- The request `i` and the one behind it are not the same. -/
def Differ (ms : List (SentRequest codec)) (i : Nat) : Prop :=
  ∃ a b, ms[i]? = some a ∧ ms[i + 1]? = some b ∧ a.body ≠ b.body

/-- Between any two neighbours that differ a chunk ends. -/
def Separated (ms : List (SentRequest codec)) (chunks : List Bytes) : Prop :=
  ∀ i, Differ ms i → IsEnd chunks (boundary ms (i + 1))

theorem boundary_add (ms : List (SentRequest codec)) (n k : Nat) :
    boundary ms (n + k) = boundary ms n + (SentRequest.wire ((ms.drop n).take k)).length := by
  rw [boundary, boundary, List.take_add, SentRequest.wire_append, List.length_append]

theorem boundary_lt {ms : List (SentRequest codec)} {i j : Nat} (hij : i < j)
    (hj : j ≤ ms.length) : boundary ms i < boundary ms j := by
  obtain ⟨k, rfl⟩ := Nat.exists_eq_add_of_lt hij
  rw [Nat.add_assoc, boundary_add]
  have hdrop : 0 < (ms.drop i).length := by rw [List.length_drop]; omega
  cases hms : ms.drop i with
  | nil => simp [hms] at hdrop
  | cons m rest =>
    have := m.bytes_pos
    simp only [List.take_succ_cons, SentRequest.wire_cons, List.length_append]
    omega

theorem isEnd_concat {chunks : List Bytes} {chunk : Bytes} {e : Nat} :
    IsEnd (chunks ++ [chunk]) e ↔
      IsEnd chunks e ∨ e = (chunks ++ [chunk]).flatten.length := by
  constructor
  · rintro ⟨k, rfl⟩
    by_cases hk : k ≤ chunks.length
    · exact Or.inl ⟨k, by rw [List.take_append_of_le_length hk]⟩
    · exact Or.inr (by rw [List.take_of_length_le (by simp; omega)])
  · rintro (⟨k, rfl⟩ | rfl)
    · refine ⟨min k chunks.length, ?_⟩
      rw [List.take_append_of_le_length (Nat.min_le_right _ _), ← List.take_eq_take_min]
    · exact ⟨chunks.length + 1, by rw [List.take_of_length_le (by simp)]⟩

/-- Requests whose neighbours are the same are all the same. -/
theorem same_of_neighbours {batch : List (SentRequest codec)} (h : ∀ i, ¬Differ batch i) :
    StreamWorld.Same batch := by
  induction batch with
  | nil =>
    intro m hm
    cases hm
  | cons m ms ih =>
    have hms : StreamWorld.Same ms := ih fun i ⟨a, b, ha, hb, hne⟩ => h (i + 1) ⟨a, b, ha, hb, hne⟩
    cases ms with
    | nil => exact @StreamWorld.Same.cons codec m m [] hms (Or.inl rfl) rfl
    | cons m' ms =>
      have hbody : m.body = m'.body := by
        by_contra hne
        exact h 0 ⟨m, m', rfl, rfl, hne⟩
      exact hms.cons (Or.inr (by simp)) hbody

/-- A run of writes to `m_recv_buffer`, each followed by a call of `process_connection`. -/
structure StreamDelivery where
  written : Bool
  returned : Bool
  world : StreamWorld

namespace StreamDelivery

/-- The chunk is written and, if that succeeds, `process_connection` is called. Nothing more
happens once a call does not return. -/
def next (codec : ProtoCodec) (d : StreamDelivery) (chunk : Bytes) : StreamDelivery :=
  if d.returned then
    match d.world.connection.recvBuffer.write (some chunk) with
    | (.error _, b) => { d with written := false, world := d.world.setRecvBuffer b }
    | (.ok _, b) =>
      let done := (d.world.setRecvBuffer b).processConnection codec
      { d with returned := done.1, world := done.2 }
  else d

def run (codec : ProtoCodec) (d : StreamDelivery) (chunks : List Bytes) : StreamDelivery :=
  chunks.foldl (next codec) d

def start (w : StreamWorld) : StreamDelivery := { written := true, returned := true, world := w }

theorem run_concat (d : StreamDelivery) (chunks : List Bytes) (chunk : Bytes) :
    d.run codec (chunks ++ [chunk]) = (d.run codec chunks).next codec chunk := by
  simp [run]

theorem next_written {d : StreamDelivery} {chunk : Bytes}
    (h : (d.next codec chunk).written = true) : d.written = true := by
  unfold next at h
  split at h
  · split at h
    · cases h
    · exact h
  · exact h

theorem next_calls (d : StreamDelivery) (chunk : Bytes) :
    d.world.calls <+: (d.next codec chunk).world.calls := by
  unfold next
  split
  · split
    · exact List.prefix_rfl
    · rename_i b hwrite
      exact StreamWorld.processConnection_calls (d.world.setRecvBuffer b)
  · exact List.prefix_rfl

/-- All chunk ends at a boundary have been at one up to `n`, and the first `n` requests have
been handled as sent. -/
structure Good (before : List (Int × Bytes)) (ms : List (SentRequest codec))
    (chunks : List Bytes) (d : StreamDelivery) (n : Nat) : Prop where
  le : n ≤ ms.length
  returned : d.returned = true
  calls : d.world.calls = before ++ (ms.take n).map SentRequest.call
  covered : boundary ms n ≤ chunks.flatten.length
  unread : d.world.Unread (chunks.flatten.drop (boundary ms n))
  separated : ∀ i, i < n → Differ ms i → IsEnd chunks (boundary ms (i + 1))
  last : ∀ i, i ≤ ms.length → IsEnd chunks (boundary ms i) → i ≤ n

/-- A call has gone wrong, and two neighbours that differ had no chunk end between them. -/
structure Astray (before : List (Int × Bytes)) (ms : List (SentRequest codec))
    (chunks : List Bytes) (d : StreamDelivery) : Prop where
  calls : Diverges d.world.calls (before ++ ms.map SentRequest.call)
  missed : ∃ i, Differ ms i ∧ boundary ms (i + 1) ≤ chunks.flatten.length ∧
    ¬IsEnd chunks (boundary ms (i + 1))

variable {before : List (Int × Bytes)} {ms : List (SentRequest codec)} {chunks : List Bytes}
  {d : StreamDelivery} {n : Nat}

theorem Astray.next (h : Astray before ms chunks d) (chunk : Bytes) :
    Astray before ms (chunks ++ [chunk]) (d.next codec chunk) := by
  obtain ⟨more, hmore⟩ := @next_calls codec d chunk
  obtain ⟨i, hdiff, hle, hmissed⟩ := h.missed
  have hlen : (chunks ++ [chunk]).flatten.length = chunks.flatten.length + chunk.length := by simp
  refine ⟨?_, i, hdiff, by omega, ?_⟩
  · have hdiv := h.calls.append more []
    rw [hmore, List.append_nil] at hdiv
    exact hdiv
  · rw [isEnd_concat]
    rintro (hend | hend)
    · exact hmissed hend
    · exact hmissed ⟨chunks.length, by rw [List.take_length]; omega⟩

theorem boundary_le {i j : Nat} (hij : i ≤ j) : boundary ms i ≤ boundary ms j := by
  obtain ⟨k, rfl⟩ := Nat.exists_eq_add_of_le hij
  rw [boundary_add]
  omega

/-- No boundary lies inside a request. -/
theorem boundary_ne {j i : Nat} {m : SentRequest codec} {t : Bytes} (hm : ms[j]? = some m)
    (hpre : t <+: m.bytes) (hnil : t ≠ []) (hne : t ≠ m.bytes) :
    boundary ms i ≠ boundary ms j + t.length := by
  have hpos : 0 < t.length := List.length_pos_of_ne_nil hnil
  have hlt : t.length < m.bytes.length :=
    Nat.lt_of_le_of_ne hpre.length_le fun heq => hne (hpre.eq_of_length heq)
  have hnext : boundary ms (j + 1) = boundary ms j + m.bytes.length := by
    rw [boundary, List.take_add_one, hm, SentRequest.wire_append, List.length_append]
    simp [boundary]
  by_cases hij : i ≤ j
  · have := @boundary_le codec ms i j hij
    omega
  · have := @boundary_le codec ms (j + 1) i (by omega)
    omega

theorem getElem?_batch {n j i : Nat} (hi : i < j) :
    ((ms.drop n).take j)[i]? = ms[n + i]? := by
  rw [List.getElem?_take_of_lt hi, List.getElem?_drop]

/-- The chunk is in the buffer when `process_connection` is called. -/
theorem Good.written (h : Good before ms chunks d n) {chunk : Bytes}
    (hfit : chunk.length ≤ maxObjectSize) (hwritten : (d.next codec chunk).written = true) :
    chunk ≠ [] ∧ ∃ w : StreamWorld, w.calls = d.world.calls ∧
      w.Unread ((chunks ++ [chunk]).flatten.drop (boundary ms n)) ∧
      (d.next codec chunk).returned = (w.processConnection codec).1 ∧
      (d.next codec chunk).world = (w.processConnection codec).2 := by
  have hmax : memBufferSizeMax + maxObjectSize < 2 ^ 64 := by decide
  have hle := h.unread.length_le
  unfold StreamDelivery.next at hwritten ⊢
  rw [h.returned] at hwritten ⊢
  simp only [if_true] at hwritten ⊢
  have hne : chunk ≠ [] := by
    rintro rfl
    obtain ⟨b, hrun, -⟩ := Buffer.write_throws h.unread.wf (Or.inr rfl)
    rw [hrun] at hwritten
    cases hwritten
  obtain ⟨b, hwf, hlimit, hwrite⟩ := Buffer.write_spec h.unread.wf hne
    (by rw [h.unread.content]; omega)
  refine ⟨hne, ?_⟩
  split at hwrite
  · obtain ⟨hrun, hcontent⟩ := hwrite
    rw [h.unread.content, ← List.drop_append_of_le_length h.covered] at hcontent
    rw [hrun]
    exact ⟨d.world.setRecvBuffer b, rfl, ⟨hwf, hlimit.trans h.unread.limit, by simpa using hcontent⟩,
      rfl, rfl⟩
  · rw [hwrite.1] at hwritten
    cases hwritten

/-- The chunk ends at a boundary and the unread requests are the same. -/
theorem Good.batch {chunk : Bytes} {d' : StreamDelivery} {j : Nat} (h : Good before ms chunks d n)
    (hj : n + j ≤ ms.length) (hend : (chunks ++ [chunk]).flatten.length = boundary ms (n + j))
    (hs : StreamWorld.Same ((ms.drop n).take j)) (hret : d'.returned = true)
    (hcalls : d'.world.calls = before ++ (ms.take (n + j)).map SentRequest.call)
    (hleft : d'.world.Unread []) : Good before ms (chunks ++ [chunk]) d' (n + j) := by
  refine ⟨hj, hret, hcalls, by omega, ?_, ?_, ?_⟩
  · rw [List.drop_of_length_le (by omega)]
    exact hleft
  · intro i hi hdiffer
    rw [isEnd_concat]
    by_cases hin : i < n
    · exact Or.inl (h.separated i hin hdiffer)
    · by_cases hlast : i + 1 = n + j
      · exact Or.inr (by rw [hlast, hend])
      · -- both neighbours are in the batch
        obtain ⟨a, b, ha, hb, hbody⟩ := hdiffer
        have ha' := @getElem?_batch codec ms n j (i - n) (by omega)
        have hb' := @getElem?_batch codec ms n j (i + 1 - n) (by omega)
        rw [show n + (i - n) = i from by omega, ha] at ha'
        rw [show n + (i + 1 - n) = i + 1 from by omega, hb] at hb'
        exact absurd (hs a (List.mem_of_getElem? ha') b (List.mem_of_getElem? hb')) hbody
  · intro i hi hend'
    rw [isEnd_concat] at hend'
    rcases hend' with hold | hnew
    · have := h.last i hi hold
      omega
    · by_contra hgt
      have := boundary_lt (show n + j < i by omega) hi
      omega

/-- The chunk ends at a boundary and two unread neighbours differ. -/
theorem Good.astray {chunk : Bytes} {d' : StreamDelivery} {j : Nat}
    (h : Good before ms chunks d n) (hj : n + j ≤ ms.length)
    (hend : (chunks ++ [chunk]).flatten.length = boundary ms (n + j))
    (hs : ¬StreamWorld.Same ((ms.drop n).take j))
    (hdiff : Diverges d'.world.calls (before ++ (ms.take (n + j)).map SentRequest.call)) :
    Astray before ms (chunks ++ [chunk]) d' := by
  obtain ⟨i, a, b, ha, hb, hbody⟩ : ∃ i, Differ ((ms.drop n).take j) i := by
    by_contra hnone
    exact hs (same_of_neighbours fun i hi => hnone ⟨i, hi⟩)
  have hij : i + 1 < j := by
    by_contra hge
    rw [List.getElem?_take_eq_none (by omega)] at hb
    cases hb
  rw [getElem?_batch (by omega)] at ha hb
  have hlt := boundary_lt (show n + (i + 1) < n + j by omega) hj
  rw [← Nat.add_assoc] at hlt hb
  refine ⟨?_, n + i, ⟨a, b, ha, hb, hbody⟩, by omega, ?_⟩
  · have hdiv := hdiff.append [] ((ms.drop (n + j)).map SentRequest.call)
    rw [List.append_nil, List.append_assoc, ← List.map_append, List.take_append_drop] at hdiv
    exact hdiv
  · rw [isEnd_concat]
    rintro (hold | hnew)
    · have := h.last (n + i + 1) (by omega) hold
      omega
    · omega

/-- The chunk ends inside a request. -/
theorem Good.waits {chunk : Bytes} {d' : StreamDelivery} (h : Good before ms chunks d n)
    (hend : ∀ i, boundary ms i ≠ (chunks ++ [chunk]).flatten.length) (hret : d'.returned = true)
    (hcalls : d'.world.calls = d.world.calls)
    (hleft : d'.world.Unread ((chunks ++ [chunk]).flatten.drop (boundary ms n))) :
    Good before ms (chunks ++ [chunk]) d' n := by
  have hcovered := h.covered
  have hlen : (chunks ++ [chunk]).flatten.length = chunks.flatten.length + chunk.length := by simp
  refine ⟨h.le, hret, hcalls.trans h.calls, by omega, hleft, ?_, ?_⟩
  · intro i hi hdiffer
    rw [isEnd_concat]
    exact Or.inl (h.separated i hi hdiffer)
  · intro i hi hend'
    rw [isEnd_concat] at hend'
    rcases hend' with hold | hnew
    · exact h.last i hi hold
    · exact absurd hnew (hend i)

/-- The step from a good state. -/
theorem Good.next (hdoc : codec.Documented) (h : Good before ms chunks d n) {chunk : Bytes}
    (hfit : chunk.length ≤ maxObjectSize)
    (hpre : (chunks ++ [chunk]).flatten <+: SentRequest.wire ms)
    (hwritten : (d.next codec chunk).written = true) :
    (∃ n', Good before ms (chunks ++ [chunk]) (d.next codec chunk) n') ∨
      Astray before ms (chunks ++ [chunk]) (d.next codec chunk) := by
  obtain ⟨hne, w, hcalls, hunread, hret', hworld⟩ := h.written hfit hwritten
  have hpos : 0 < chunk.length := List.length_pos_of_ne_nil hne
  have hcovered := h.covered
  have hlen : (chunks ++ [chunk]).flatten.length = chunks.flatten.length + chunk.length := by simp
  have hdrop : ((chunks ++ [chunk]).flatten.drop (boundary ms n)).length =
      (chunks ++ [chunk]).flatten.length - boundary ms n := List.length_drop
  have hbegin : (chunks ++ [chunk]).flatten.drop (boundary ms n) <+:
      SentRequest.wire (ms.drop n) := by
    have hdrop := hpre.drop (boundary ms n)
    have hwire : SentRequest.wire ms =
        SentRequest.wire (ms.take n) ++ SentRequest.wire (ms.drop n) := by
      rw [← SentRequest.wire_append, List.take_append_drop]
    rw [hwire, boundary, List.drop_left] at hdrop
    exact hdrop
  rcases SentRequest.prefix_wire hbegin with ⟨j, hj, hbatch⟩ | ⟨j, m, t, hcut, hm, ht, hnil, htne⟩
  · rw [hbatch] at hunread hdrop
    rw [List.length_drop] at hj
    have hend : (chunks ++ [chunk]).flatten.length = boundary ms (n + j) := by
      rw [boundary_add]
      omega
    have hbatchNe : (ms.drop n).take j ≠ [] := by
      intro hnil
      rw [hnil, SentRequest.wire_nil, List.length_nil] at hdrop
      omega
    obtain ⟨hsame, hdiff⟩ := StreamWorld.processConnection_batch hdoc hbatchNe hunread
    have htake : w.calls ++ ((ms.drop n).take j).map SentRequest.call =
        before ++ (ms.take (n + j)).map SentRequest.call := by
      rw [hcalls, h.calls, List.take_add, List.map_append, List.append_assoc]
    rw [htake, ← hret', ← hworld] at hsame
    rw [htake, ← hworld] at hdiff
    by_cases hs : StreamWorld.Same ((ms.drop n).take j)
    · obtain ⟨hret, hcalls', hleft⟩ := hsame hs
      exact Or.inl ⟨n + j, h.batch (by have := h.le; omega) hend hs hret hcalls' hleft⟩
    · exact Or.inr (h.astray (by have := h.le; omega) hend hs (hdiff hs))
  · rw [hcut] at hunread
    obtain ⟨hret, hcalls', hleft⟩ := StreamWorld.processConnection_truncated hdoc hunread ht hnil htne
    rw [← hret'] at hret
    rw [← hworld, hcalls] at hcalls'
    rw [← hworld, ← hcut] at hleft
    refine Or.inl ⟨n, h.waits (fun i heq => ?_) hret hcalls' hleft⟩
    rw [List.getElem?_drop] at hm
    refine absurd ?_ (@boundary_ne codec ms (n + j) i m t hm ht hnil htne)
    rw [hcut, List.length_append] at hdrop
    rw [heq, boundary_add]
    omega

theorem run_good_or_astray (hdoc : codec.Documented) {w : StreamWorld} (hunread : w.Unread [])
    (hfit : ∀ chunk ∈ chunks, chunk.length ≤ maxObjectSize)
    (hpre : chunks.flatten <+: SentRequest.wire ms)
    (hwritten : ((start w).run codec chunks).written = true) :
    (∃ n, Good w.calls ms chunks ((start w).run codec chunks) n) ∨
      Astray w.calls ms chunks ((start w).run codec chunks) := by
  induction chunks using List.reverseRecOn with
  | nil =>
    refine Or.inl ⟨0, Nat.zero_le _, rfl, by simp [run, start], Nat.zero_le _, hunread,
      fun i hi => absurd hi (Nat.not_lt_zero i), fun i hi hend => ?_⟩
    obtain ⟨k, hk⟩ := hend
    rw [List.take_nil, List.flatten_nil, List.length_nil] at hk
    by_contra hgt
    have := boundary_lt (show 0 < i by omega) hi
    omega
  | append_singleton chunks chunk ih =>
    rw [run_concat] at hwritten ⊢
    have hpre' : chunks.flatten <+: SentRequest.wire ms := by
      refine List.IsPrefix.trans ?_ hpre
      simp
    rcases ih (fun c hc => hfit c (by simp [hc])) hpre' (next_written hwritten) with
      ⟨n, hgood⟩ | hastray
    · exact hgood.next hdoc (hfit chunk (by simp)) hpre hwritten
    · exact Or.inr (hastray.next chunk)

/-- **Message framing.** Requests that `process_protocol` accepts arrive in any chunks, each
written to an empty receive buffer and followed by a call of `process_connection`. Then
`process_protocol` is called once for each of them, in order, with its body, and the buffer is
empty in the end, if and only if a chunk ends between any two neighbours that differ. -/
theorem requests_delivered_iff {codec : ProtoCodec} (hdoc : codec.Documented) {w : StreamWorld}
    (hunread : w.Unread []) (ms : List (SentRequest codec)) (chunks : List Bytes)
    (hfit : ∀ chunk ∈ chunks, chunk.length ≤ maxObjectSize)
    (hcut : chunks.flatten = SentRequest.wire ms)
    (hwritten : ((start w).run codec chunks).written = true) :
    (((start w).run codec chunks).returned = true ∧
      ((start w).run codec chunks).world.calls = w.calls ++ ms.map SentRequest.call ∧
      ((start w).run codec chunks).world.connection.recvBuffer.content = []) ↔
      Separated ms chunks := by
  rcases run_good_or_astray hdoc hunread hfit (by rw [hcut]) hwritten with
    ⟨n, hgood⟩ | hastray
  · have hall : n = ms.length := by
      refine Nat.le_antisymm hgood.le (hgood.last ms.length (Nat.le_refl _) ⟨chunks.length, ?_⟩)
      rw [List.take_length, hcut, boundary, List.take_length]
    have hcalls := hgood.calls
    have hcontent := hgood.unread.content
    rw [hall, List.take_length] at hcalls
    rw [hall, hcut, boundary, List.take_length, List.drop_length] at hcontent
    refine ⟨fun _ i hdiffer => hgood.separated i ?_ hdiffer, fun _ =>
      ⟨hgood.returned, hcalls, hcontent⟩⟩
    obtain ⟨a, b, ha, -⟩ := hdiffer
    rw [hall]
    exact (List.getElem?_eq_some_iff.mp ha).1
  · obtain ⟨i, hdiffer, -, hmissed⟩ := hastray.missed
    exact ⟨fun h => absurd h.2.1 hastray.calls.ne, fun h => absurd (h i hdiffer) hmissed⟩

/-- A request whose `testContext` is one letter. -/
def letter (c : Byte) : SentRequest wireCodec :=
  { body := [0x0a, 1, c]
    accepted := rfl
    nonempty := by
      rw [serialize_request (List.cons_ne_nil _ _)]
      exact ProtoWire.Field.encode_ne_nil _
    fits := by
      have h : (wireCodec.serialize csReqExample [0x0a, 1, c]).length = 5 := rfl
      rw [h]
      decide }

/-- A stream connection on which nothing has happened. -/
def freshStream : StreamWorld :=
  { connection := ((StreamConnection.new (fun _ => 0) none).reuse.setSocketPtr (some 1)).setGid 1
    tasks := []
    calls := [] }

theorem freshStream_unread : freshStream.Unread [] :=
  ⟨(Staging.recvSound_reuse _).wf, (Staging.recvSound_reuse _).limit,
    Staging.recvBuffer_reuse_content _⟩

theorem requests_delivered_apart :
    ((start freshStream).run wireCodec [(letter 97).bytes, (letter 98).bytes]).world.calls =
      [(letter 97).call, (letter 98).call] := by
  refine ((requests_delivered_iff wireCodec_documented freshStream_unread [letter 97, letter 98]
    [(letter 97).bytes, (letter 98).bytes] (by decide) (by decide) (by decide +kernel)).mpr ?_).2.1
  rintro i ⟨a, b, ha, hb, -⟩
  cases i with
  | zero => exact ⟨1, rfl⟩
  | succ i => simp at hb

/-- Two requests in one chunk: the second is handled twice and the first is not. -/
theorem requests_merged_in_one_chunk :
    ((start freshStream).run wireCodec [(letter 97).bytes ++ (letter 98).bytes]).written = true ∧
      ((start freshStream).run wireCodec [(letter 97).bytes ++ (letter 98).bytes]).world.calls =
        [(letter 98).call, (letter 98).call] ∧
      ((start freshStream).run wireCodec [(letter 97).bytes ++ (letter 98).bytes]).world.calls ≠
        freshStream.calls ++ [letter 97, letter 98].map SentRequest.call := by
  decide +kernel

end StreamDelivery

end Tubekit
