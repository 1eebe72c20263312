import Mathlib.Logic.Relation
import Tubekit.App.StreamFraming
import Tubekit.Lib.WireFields

/-!
# The loop of `stream_app` goes on

`process_connection` advances by the size that a package has when it is serialized, not by the bytes
it was parsed from. A package is never larger when it is written again, so the offset stays within
the unread bytes. It is empty when all its fields have their default values, and then the same bytes
are parsed again, for ever.
-/

namespace Tubekit

open Lib
open Lib.ProtoWire (KeptField readFields)

/-! ## Packages with the fields they do not know -/

/-- A package as protobuf has it, with the other fields as they are written again. -/
structure KeptPackage extends ProtoPackage where
  unknown : Bytes
  deriving DecidableEq

namespace KeptPackage

/-- A package whose fields all have their default values. -/
def default : KeptPackage := { cmd := csReqExample, body := [], unknown := [] }

/-- The last occurrence of a field wins; what is not known is kept. -/
def merge (p : KeptPackage) (f : KeptField) : KeptPackage :=
  match f with
  | ⟨8, .varint n⟩ => { p with cmd := ProtoPackage.int32 n }
  | ⟨18, .len data⟩ => { p with body := data }
  | f => { p with unknown := p.unknown ++ f.encode }

def read (bytes : Bytes) : Option KeptPackage :=
  (readFields bytes).map fun fields => fields.foldl merge default

/-- `ByteSizeLong`. -/
def byteSize (p : KeptPackage) : Nat :=
  (p.fields.flatMap ProtoWire.Field.encode).length + p.unknown.length

/-- The size without `cmd`. -/
def extent (p : KeptPackage) : Nat :=
  ({ p with cmd := csReqExample } : KeptPackage).byteSize

theorem extent_of_cmd {p : KeptPackage} (h : p.cmd = csReqExample) : p.byteSize = p.extent := by
  obtain ⟨⟨cmd, body⟩, unknown⟩ := p
  cases h
  rfl

theorem byteSize_eq_zero {p : KeptPackage} : p.byteSize = 0 ↔ p = default := by
  constructor
  · intro hzero
    rw [byteSize, Nat.add_eq_zero_iff, List.length_eq_zero_iff, List.length_eq_zero_iff,
      List.flatMap_eq_nil_iff] at hzero
    obtain ⟨hfields, hunknown⟩ := hzero
    have hnone : p.fields = [] := by
      rw [List.eq_nil_iff_forall_not_mem]
      exact fun f hf => ProtoWire.Field.encode_ne_nil f (hfields f hf)
    obtain ⟨⟨cmd, body⟩, unknown⟩ := p
    simp only [ProtoPackage.fields, List.append_eq_nil_iff] at hnone
    simp only at hunknown
    have hcmd : cmd = 0 := by
      by_contra hne
      rw [if_neg hne] at hnone
      cases hnone.1
    have hbody : body = [] := by
      by_contra hne
      rw [if_neg hne] at hnone
      cases hnone.2
    rw [hcmd, hbody, hunknown]
    rfl
  · rintro rfl
    rfl

theorem extent_merge_le (p : KeptPackage) (f : KeptField) :
    (p.merge f).extent ≤ p.extent + f.encode.length := by
  unfold merge
  split
  · exact Nat.le_add_right _ _
  · rename_i data
    have hbody : ((if data = [] then [] else [(⟨2, .len data⟩ : ProtoWire.Field)]).flatMap
        ProtoWire.Field.encode).length ≤ (KeptField.encode ⟨18, .len data⟩).length := by
      split
      · exact Nat.zero_le _
      · rw [List.flatMap_singleton]
        exact Nat.le_refl _
    have hcmd : csReqExample = 0 := rfl
    simp only [extent, byteSize, ProtoPackage.fields, hcmd, if_true, List.nil_append]
    omega
  · simp only [extent, byteSize, List.length_append]
    omega

theorem extent_foldl_le (p : KeptPackage) (fields : List KeptField) :
    (fields.foldl merge p).extent ≤ p.extent + (fields.flatMap KeptField.encode).length := by
  induction fields generalizing p with
  | nil => exact Nat.le_refl _
  | cons f fields ih =>
    have hstep := extent_merge_le p f
    have hrest := ih (p.merge f)
    rw [List.foldl_cons, List.flatMap_cons, List.length_append]
    omega

/-- A package without `cmd` is not larger than what it was read from. -/
theorem byteSize_read_le {bytes : Bytes} {p : KeptPackage} (h : read bytes = some p)
    (hcmd : p.cmd = csReqExample) : p.byteSize ≤ bytes.length := by
  obtain ⟨fields, hfields, rfl⟩ := Option.map_eq_some_iff.mp h
  rw [extent_of_cmd hcmd]
  calc (fields.foldl merge default).extent
      ≤ default.extent + (fields.flatMap KeptField.encode).length := extent_foldl_le _ _
    _ = (fields.flatMap KeptField.encode).length := Nat.zero_add _
    _ ≤ bytes.length := ProtoWire.length_readFields_le hfields

end KeptPackage

/-- What is documented of the parser and of `ByteSizeLong`: what is accepted are fields on the wire
with the values that they give to the package, explicit default values and unknown fields among
them, and the size is that of the package written again. A request without a `testContext` is
accepted. -/
structure ProtoCodec.Proto3 (codec : ProtoCodec) : Prop where
  parsed : ∀ {bytes : Bytes} {p : codec.Package}, codec.parseFromArray bytes = some p →
    ∃ q, KeptPackage.read bytes = some q ∧ codec.cmd p = q.cmd ∧ codec.body p = q.body ∧
      codec.byteSizeLong p = q.byteSize
  emptyExample : (codec.parseReqExample []).isSome

/-- The bytes are accepted as a package that `process_protocol` accepts. -/
def ProtoCodec.Handles (codec : ProtoCodec) (bytes : Bytes) (p : codec.Package) : Prop :=
  codec.parseFromArray bytes = some p ∧ codec.cmd p = csReqExample ∧
    (codec.parseReqExample (codec.body p)).isSome

/-- The bytes that are left at some point are accepted, and all they have are default values. -/
inductive Stalls (codec : ProtoCodec) : Bytes → Prop
  | here {bytes : Bytes} (hne : bytes ≠ []) (p : codec.Package)
      (hparse : codec.parseFromArray bytes = some p)
      (hdefault : KeptPackage.read bytes = some .default) : Stalls codec bytes
  | behind {bytes : Bytes} (hne : bytes ≠ []) (p : codec.Package) (hhandles : codec.Handles bytes p)
      (hbehind : Stalls codec (bytes.drop (codec.byteSizeLong p))) : Stalls codec bytes

namespace StreamWorld

variable {codec : ProtoCodec}

/-- A round of the loop that does not leave it. -/
def goesOn (codec : ProtoCodec) (data : Nat → Byte) (allDataLen : Nat) (s : Nat × StreamWorld) :
    Option (Nat × StreamWorld) :=
  let dataLen := u64Sub allDataLen s.1
  if dataLen = 0 then none
  else
    match codec.parseFromArray (Memory.load data s.1 dataLen) with
    | none => none
    | some package =>
      let (ret, w) := s.2.processProtocol codec package
      if ret ≠ 0 then none else some (u64Add s.1 (codec.byteSizeLong package), w)

/-- The loop is its rounds. -/
theorem processLoop_succ (data : Nat → Byte) (all fuel offset : Nat) (w : StreamWorld) :
    (processLoop codec data all (fuel + 1) offset w).1 =
      match goesOn codec data all (offset, w) with
      | none => some offset
      | some (offset', w') => (processLoop codec data all fuel offset' w').1 := by
  by_cases hend : u64Sub all offset = 0
  · simp [processLoop, goesOn, hend]
  · cases hparse : codec.parseFromArray (Memory.load data offset (u64Sub all offset)) with
    | none => simp [processLoop, goesOn, hend, hparse]
    | some p =>
      by_cases hret : (w.processProtocol codec p).1 = 0 <;>
        simp [processLoop, goesOn, hend, hparse, hret]

theorem processProtocol_ret (w : StreamWorld) (p : codec.Package) :
    (w.processProtocol codec p).1 = 0 ↔
      codec.cmd p = csReqExample ∧ (codec.parseReqExample (codec.body p)).isSome := by
  unfold processProtocol
  split
  · rename_i hcmd
    cases htest : codec.parseReqExample (codec.body p) <;> simp [hcmd]
  · rename_i hcmd
    simp [hcmd]

theorem size_le (h : codec.Proto3) {bytes : Bytes} {p : codec.Package} (hp : codec.Handles bytes p) :
    codec.byteSizeLong p ≤ bytes.length := by
  obtain ⟨hparse, hcmd, -⟩ := hp
  obtain ⟨q, hread, hcmd', -, hsize⟩ := h.parsed hparse
  rw [hsize]
  exact KeptPackage.byteSize_read_le hread (hcmd'.symm.trans hcmd)

/-- A package that takes no byte when it is written again has default values only. -/
theorem size_eq_zero (h : codec.Proto3) {bytes : Bytes} {p : codec.Package}
    (hparse : codec.parseFromArray bytes = some p) :
    codec.byteSizeLong p = 0 ↔ KeptPackage.read bytes = some .default := by
  obtain ⟨q, hread, -, -, hsize⟩ := h.parsed hparse
  rw [hsize, KeptPackage.byteSize_eq_zero, hread, Option.some.injEq]

/-- Default values are handled. -/
theorem handles_default (h : codec.Proto3) {bytes : Bytes} {p : codec.Package}
    (hparse : codec.parseFromArray bytes = some p) (hread : KeptPackage.read bytes = some .default) :
    codec.Handles bytes p := by
  obtain ⟨q, hread', hcmd, hbody, -⟩ := h.parsed hparse
  rw [hread, Option.some.injEq] at hread'
  subst hread'
  exact ⟨hparse, hcmd, by rw [hbody]; exact h.emptyExample⟩

/-- The offset of every round that does not leave the loop increases and stays within the data. -/
def Advances (codec : ProtoCodec) (data : Nat → Byte) (all : Nat) (s : Nat × StreamWorld) : Prop :=
  ∀ s₁ s₂, Relation.ReflTransGen (fun s s' => goesOn codec data all s = some s') s s₁ →
    goesOn codec data all s₁ = some s₂ → s₁.1 < s₂.1 ∧ s₂.1 ≤ all

/-- The loop is left, after some number of rounds. -/
def Leaves (codec : ProtoCodec) (data : Nat → Byte) (all : Nat) (s : Nat × StreamWorld) : Prop :=
  ∃ fuel left, (processLoop codec data all fuel s.1 s.2).1 = some left

section

variable {data : Nat → Byte} {bytes : Bytes} {s s' : Nat × StreamWorld} (h : codec.Proto3)
  (hload : Memory.load data 0 bytes.length = bytes) (hfit : bytes.length ≤ memBufferSizeMax)

include h hload hfit

/-- What a round does that does not leave the loop. -/
theorem goesOn_iff (hoff : s.1 ≤ bytes.length) :
    goesOn codec data bytes.length s = some s' ↔
      bytes.drop s.1 ≠ [] ∧ ∃ p, codec.Handles (bytes.drop s.1) p ∧
        s' = (s.1 + codec.byteSizeLong p, (s.2.processProtocol codec p).2) := by
  have hmax : memBufferSizeMax < 2 ^ 63 := by decide
  have hrest : Memory.load data s.1 (bytes.length - s.1) = bytes.drop s.1 := by
    have hdrop := Memory.drop_load data 0 hoff
    rw [hload, Nat.zero_add] at hdrop
    exact hdrop.symm
  have hend : bytes.drop s.1 ≠ [] ↔ ¬bytes.length - s.1 = 0 := by
    rw [← List.length_drop, List.length_eq_zero_iff]
  simp only [goesOn]
  rw [u64Sub_of_le hoff (by omega), hrest, hend]
  by_cases hzero : bytes.length - s.1 = 0
  · simp [hzero]
  · rw [if_neg hzero]
    cases hparse : codec.parseFromArray (bytes.drop s.1) with
    | none => simp [ProtoCodec.Handles, hparse]
    | some p =>
      simp only [ProtoCodec.Handles, hparse, Option.some.injEq, hzero, not_false_eq_true, true_and]
      by_cases hret : (s.2.processProtocol codec p).1 = 0
      · have hhandles := (processProtocol_ret s.2 p).mp hret
        have hsize := size_le h ⟨hparse, hhandles⟩
        rw [List.length_drop] at hsize
        rw [if_neg (by simpa using hret), u64Add_of_lt (by omega)]
        constructor
        · intro heq
          exact ⟨p, ⟨rfl, hhandles⟩, (Option.some.inj heq).symm⟩
        · rintro ⟨p', ⟨rfl, -⟩, rfl⟩
          rfl
      · rw [if_pos hret]
        constructor
        · intro heq
          cases heq
        · rintro ⟨p', ⟨rfl, hhandles⟩, -⟩
          exact absurd ((processProtocol_ret s.2 p).mpr hhandles) hret

/-- A round where the bytes do not stall. -/
theorem round_advances (hoff : s.1 ≤ bytes.length) (hgood : ¬Stalls codec (bytes.drop s.1))
    (hround : goesOn codec data bytes.length s = some s') :
    s.1 < s'.1 ∧ s'.1 ≤ bytes.length ∧ ¬Stalls codec (bytes.drop s'.1) := by
  obtain ⟨hne, p, hp, rfl⟩ := (goesOn_iff h hload hfit hoff).mp hround
  have hsize := size_le h hp
  rw [List.length_drop] at hsize
  have hpos : codec.byteSizeLong p ≠ 0 := fun hzero =>
    hgood (.here hne p hp.1 ((size_eq_zero h hp.1).mp hzero))
  refine ⟨by simp only; omega, by simp only; omega, fun hstalls => hgood (.behind hne p hp ?_)⟩
  rw [List.drop_drop]
  exact hstalls

theorem advances_of_not_stalls (hoff : s.1 ≤ bytes.length)
    (hgood : ¬Stalls codec (bytes.drop s.1)) : Advances codec data bytes.length s := by
  have hreached : ∀ s₁, Relation.ReflTransGen
      (fun s s' => goesOn codec data bytes.length s = some s') s s₁ →
      s₁.1 ≤ bytes.length ∧ ¬Stalls codec (bytes.drop s₁.1) := by
    intro s₁ hrounds
    induction hrounds with
    | refl => exact ⟨hoff, hgood⟩
    | tail _ hround ih => exact (round_advances h hload hfit ih.1 ih.2 hround).2
  intro s₁ s₂ hrounds hround
  obtain ⟨hoff₁, hgood₁⟩ := hreached s₁ hrounds
  obtain ⟨hlt, hle, -⟩ := round_advances h hload hfit hoff₁ hgood₁ hround
  exact ⟨hlt, hle⟩

/-- More rounds than there are bytes are not needed. -/
theorem processLoop_leaves {fuel offset : Nat} {w : StreamWorld}
    (hoff : offset ≤ bytes.length) (hgood : ¬Stalls codec (bytes.drop offset))
    (hfuel : bytes.length - offset < fuel) :
    ∃ left, (processLoop codec data bytes.length fuel offset w).1 = some left := by
  induction fuel generalizing offset w with
  | zero => omega
  | succ fuel ih =>
    rw [processLoop_succ]
    cases hround : goesOn codec data bytes.length (offset, w) with
    | none => exact ⟨offset, rfl⟩
    | some s' =>
      obtain ⟨hlt, hle, hgood'⟩ := round_advances h hload hfit hoff hgood hround
      exact ih hle hgood' (by simp only at hlt; omega)

/-- Where the bytes stall, the loop is never left, and a round takes no byte. -/
theorem stalls_forever {rest : Bytes} (hstalls : Stalls codec rest)
    (hoff : s.1 ≤ bytes.length) (hrest : rest = bytes.drop s.1) :
    (∀ fuel, (processLoop codec data bytes.length fuel s.1 s.2).1 = none) ∧
      ¬Advances codec data bytes.length s := by
  induction hstalls generalizing s with
  | here hne p hparse hdefault =>
    subst hrest
    obtain ⟨offset, w⟩ := s
    have hhandles := handles_default h hparse hdefault
    have hround : ∀ w : StreamWorld, goesOn codec data bytes.length (offset, w) =
        some (offset, (w.processProtocol codec p).2) := by
      intro w
      refine (goesOn_iff h hload hfit (s := (offset, w)) hoff).mpr ⟨hne, p, hhandles, ?_⟩
      rw [(size_eq_zero h hparse).mpr hdefault]
      rfl
    have hnever : ∀ fuel w, (processLoop codec data bytes.length fuel offset w).1 = none := by
      intro fuel
      induction fuel with
      | zero => exact fun w => rfl
      | succ fuel ih =>
        intro w
        rw [processLoop_succ, hround]
        exact ih _
    refine ⟨fun fuel => hnever fuel w, fun hadvances => ?_⟩
    exact Nat.lt_irrefl _ (hadvances _ _ .refl (hround w)).1
  | behind hne p hhandles hbehind ih =>
    subst hrest
    have hsize := size_le h hhandles
    rw [List.length_drop] at hsize
    have hround : goesOn codec data bytes.length s = some (s.1 + codec.byteSizeLong p,
        (s.2.processProtocol codec p).2) := (goesOn_iff h hload hfit hoff).mpr ⟨hne, p, hhandles, rfl⟩
    obtain ⟨hnever, hstuck⟩ := @ih (s.1 + codec.byteSizeLong p, (s.2.processProtocol codec p).2)
      (by simp only; omega) (by rw [List.drop_drop])
    constructor
    · intro fuel
      cases fuel with
      | zero => rfl
      | succ fuel =>
        rw [processLoop_succ, hround]
        exact hnever fuel
    · intro hadvances
      exact hstuck fun s₁ s₂ hrounds => hadvances s₁ s₂ (.head hround hrounds)

end

/-- The data, `all_data_len` and the connection that the loop of `process_connection` starts with. -/
def entered (w : StreamWorld) : (Nat → Byte) × Nat × StreamWorld :=
  let (allDataLen, b) := w.connection.recvBuffer.canReadableSize
  let w := w.setRecvBuffer b
  let (data, b) := b.forceGetReadPtr
  (data, allDataLen, w.setRecvBuffer b)

theorem skip_returns (left : Option Nat × StreamWorld) : (skip left).1 = left.1.isSome := by
  obtain ⟨_ | offset, w⟩ := left <;> rfl

/-- `process_connection` returns when its loop is left. -/
theorem processConnection_returns (codec : ProtoCodec) (w : StreamWorld) :
    (w.processConnection codec).1 =
      (processLoop codec w.entered.1 w.entered.2.1 (w.entered.2.1 + 1) 0 w.entered.2.2).1.isSome := by
  by_cases hempty : 0 = w.entered.2.1
  · have hreturns : (w.processConnection codec).1 = true := by
      have hsize : 0 = w.connection.recvBuffer.canReadableSize.1 := hempty
      simp only [processConnection, if_pos hsize]
    rw [hreturns, ← hempty, processLoop]
    rfl
  · rw [← skip_returns]
    exact congrArg Prod.fst (if_neg hempty)

theorem Unread.entered {w : StreamWorld} {bytes : Bytes} (h : w.Unread bytes) :
    w.entered.2.1 = bytes.length ∧ Memory.load w.entered.1 0 bytes.length = bytes := by
  obtain ⟨b₁, hsize, hwf₁, hcontent₁, -⟩ := Buffer.canReadableSize_spec h.wf
  obtain ⟨data, b₂, hptr, hdata, -⟩ := Buffer.forceGetReadPtr_spec hwf₁
  rw [hcontent₁, h.content] at hdata
  rw [h.content] at hsize
  simp only [StreamWorld.entered, hsize, hptr]
  exact ⟨trivial, hdata⟩

end StreamWorld

open StreamWorld in
/-- **The loop ends.** For every content of `m_recv_buffer`, the loop of `process_connection` is left
and each of its rounds that does not leave it increases the offset, within the unread bytes, if and
only if none of the rests that it gets to has default values only. The model's `process_connection`
returns under the same condition. -/
theorem loop_ends_iff {codec : ProtoCodec} (h : codec.Proto3) {w : StreamWorld} {bytes : Bytes}
    (hunread : w.Unread bytes) :
    (Leaves codec w.entered.1 w.entered.2.1 (0, w.entered.2.2) ∧
        Advances codec w.entered.1 w.entered.2.1 (0, w.entered.2.2) ↔ ¬Stalls codec bytes) ∧
      ((w.processConnection codec).1 = true ↔ ¬Stalls codec bytes) := by
  obtain ⟨hall, hload⟩ := hunread.entered
  have hfit := hunread.length_le
  have hstuck := fun hstalls => stalls_forever (s := (0, w.entered.2.2)) h hload hfit hstalls
    (Nat.zero_le _) List.drop_zero.symm
  have hleft : ¬Stalls codec bytes → ∃ left, (processLoop codec w.entered.1 bytes.length
      (bytes.length + 1) 0 w.entered.2.2).1 = some left := fun hgood =>
    processLoop_leaves h hload hfit (Nat.zero_le _) hgood (Nat.lt_succ_self _)
  rw [hall]
  refine ⟨⟨?_, fun hgood => ⟨⟨_, hleft hgood⟩, ?_⟩⟩, ?_⟩
  · rintro ⟨-, hadvances⟩ hstalls
    exact (hstuck hstalls).2 hadvances
  · exact advances_of_not_stalls h hload hfit (Nat.zero_le _) hgood
  · rw [processConnection_returns, hall]
    constructor
    · intro hreturns hstalls
      rw [(hstuck hstalls).1] at hreturns
      cases hreturns
    · intro hgood
      obtain ⟨left, hleft⟩ := hleft hgood
      rw [hleft]
      rfl

/-- Add a field of a `ProtoCSReqExample`. -/
def keepTestContext (testcontext : Bytes) (f : KeptField) : Bytes :=
  match f with
  | ⟨10, .len data⟩ => data
  | _ => testcontext

/-- The messages of `protocol/` in the wire format, with the fields that are not known. -/
def keepingCodec : ProtoCodec where
  Package := KeptPackage
  cmd p := p.cmd
  body p := p.body
  parseFromArray := KeptPackage.read
  byteSizeLong := KeptPackage.byteSize
  serialize := wireCodec.serialize
  parseReqExample bytes := (readFields bytes).map fun fields => fields.foldl keepTestContext []
  serializeResExample := wireCodec.serializeResExample

theorem keepingCodec_proto3 : keepingCodec.Proto3 :=
  ⟨fun {_ p} h => ⟨p, h, rfl, rfl, rfl⟩, rfl⟩

/-- A connection with these unread bytes. -/
theorem exists_unread {bytes : Bytes} (hne : bytes ≠ []) (hfits : bytes.length ≤ memBufferSizeMax) :
    ∃ w : StreamWorld, w.Unread bytes := by
  have hmax : memBufferSizeMax < 2 ^ 64 := by decide
  have hfresh := StreamDelivery.freshStream_unread
  obtain ⟨b, hWf, hL, hCase⟩ := Buffer.write_spec hfresh.wf hne
    (by rw [hfresh.content, List.length_nil]; omega)
  rw [hfresh.content, hfresh.limit, List.length_nil, Nat.zero_add, if_pos hfits] at hCase
  exact ⟨StreamDelivery.freshStream.setRecvBuffer b, hWf, hL.trans hfresh.limit, hCase.2⟩

/-- A package that is as long as what it was read from leaves nothing behind it. -/
theorem not_stalls_of_whole {codec : ProtoCodec} (h : codec.Proto3) {bytes : Bytes}
    {p : codec.Package} (hne : bytes ≠ []) (hparse : codec.parseFromArray bytes = some p)
    (hsize : bytes.length ≤ codec.byteSizeLong p) : ¬Stalls codec bytes := by
  have hpos := List.length_pos_of_ne_nil hne
  intro hstalls
  cases hstalls with
  | here _ _ _ hdefault =>
    have hzero := (StreamWorld.size_eq_zero h hparse).mpr hdefault
    omega
  | behind _ p' hhandles hbehind =>
    have hsame : p' = p := Option.some.inj (hhandles.1.symm.trans hparse)
    rw [hsame, List.drop_of_length_le hsize] at hbehind
    cases hbehind with
    | here hnil => exact hnil rfl
    | behind hnil => exact hnil rfl

/-- A request is parsed, and the loop is left behind it. -/
theorem loop_ends_letter : ∃ w : StreamWorld, w.Unread (StreamDelivery.letter 97).bytes ∧
    (w.processConnection keepingCodec).1 = true := by
  obtain ⟨w, hunread⟩ := exists_unread (StreamDelivery.letter 97).nonempty (by decide)
  refine ⟨w, hunread, (loop_ends_iff keepingCodec_proto3 hunread).2.mpr ?_⟩
  have hread : KeptPackage.read (StreamDelivery.letter 97).bytes = some ⟨⟨0, [0x0a, 1, 97]⟩, []⟩ := by
    decide +kernel
  exact not_stalls_of_whole keepingCodec_proto3 (StreamDelivery.letter 97).nonempty hread
    (by decide +kernel)

/-- An explicit default value is parsed again and again. -/
theorem loop_stalls : keepingCodec.Proto3 ∧ ∃ w : StreamWorld, w.Unread [0x08, 0x00] ∧
    ¬(StreamWorld.Leaves keepingCodec w.entered.1 w.entered.2.1 (0, w.entered.2.2) ∧
      StreamWorld.Advances keepingCodec w.entered.1 w.entered.2.1 (0, w.entered.2.2)) := by
  obtain ⟨w, hunread⟩ := @exists_unread [0x08, 0x00] (List.cons_ne_nil _ _) (by decide)
  obtain ⟨hall, hload⟩ := hunread.entered
  have hread : KeptPackage.read [0x08, 0x00] = some .default := by decide +kernel
  have hstalls : Stalls keepingCodec [0x08, 0x00] :=
    .here (List.cons_ne_nil _ _) KeptPackage.default hread hread
  refine ⟨keepingCodec_proto3, w, hunread, ?_⟩
  rw [hall]
  rintro ⟨⟨fuel, left, hleft⟩, -⟩
  have hforever := (StreamWorld.stalls_forever (s := (0, w.entered.2.2)) keepingCodec_proto3 hload
    hunread.length_le hstalls (Nat.zero_le _) List.drop_zero.symm).1
  exact nomatch (hforever fuel).symm.trans hleft

end Tubekit
