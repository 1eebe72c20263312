import Mathlib.Data.List.Basic
import Mathlib.Data.UInt

/-!
# Percent coding

A percent decoder goes over a text. A `%` with the two characters behind it is an escape where
`escape` says which byte the two denote; every other character goes through `plain`. Decoders
differ in what they take for an escape.

An encoder that writes each byte as one character or as one escape is undone by every decoder that
reads these back (`decode_flatMap`). A decoder that takes more escapes than another one gives the
same result exactly for the texts that have none of the others (`decode_eq_iff`): the first of them
shows in the results, as long as it does not stand for the `%` itself.
-/

namespace Tubekit.Lib.PercentCoding

def percent : UInt8 := 37

variable {escape strict : UInt8 → UInt8 → Option UInt8} {plain : UInt8 → UInt8}
variable {b c d value : UInt8} {rest text : List UInt8}

def decode (escape : UInt8 → UInt8 → Option UInt8) (plain : UInt8 → UInt8) :
    List UInt8 → List UInt8
  | b :: c :: d :: rest =>
    if b = percent then
      match escape c d with
      | some value => value :: decode escape plain rest
      | none => plain b :: decode escape plain (c :: d :: rest)
    else plain b :: decode escape plain (c :: d :: rest)
  | b :: rest => plain b :: decode escape plain rest
  | [] => []

@[simp] theorem decode_nil : decode escape plain [] = [] := by
  rw [decode]

/-- A character that is no `%`, or one with fewer than two characters behind it. -/
theorem decode_cons (hb : ∀ c d tail, rest = c :: d :: tail → b ≠ percent) :
    decode escape plain (b :: rest) = plain b :: decode escape plain rest := by
  match rest with
  | [] => simp [decode]
  | [c] => simp [decode]
  | c :: d :: tail => rw [decode, if_neg (hb c d tail rfl)]

theorem decode_escape (h : escape c d = some value) :
    decode escape plain (percent :: c :: d :: rest) = value :: decode escape plain rest := by
  rw [decode, if_pos rfl, h]

theorem decode_not_escape (h : escape c d = none) :
    decode escape plain (percent :: c :: d :: rest) =
      plain percent :: decode escape plain (c :: d :: rest) := by
  rw [decode, if_pos rfl, h]

/-! ## Encoders -/

/-- The code of a byte is a character that stands for it, or an escape. -/
inductive CodeOf (escape : UInt8 → UInt8 → Option UInt8) (plain : UInt8 → UInt8) (b : UInt8) :
    List UInt8 → Prop
  | plain {c : UInt8} (hc : c ≠ percent) (hplain : plain c = b) : CodeOf escape plain b [c]
  | escape {c d : UInt8} (h : escape c d = some b) : CodeOf escape plain b [percent, c, d]

theorem CodeOf.decode_append {code : List UInt8} (h : CodeOf escape plain b code)
    (rest : List UInt8) :
    decode escape plain (code ++ rest) = b :: decode escape plain rest := by
  cases h with
  | plain hc hplain =>
    rw [← hplain]
    exact decode_cons fun _ _ _ _ => hc
  | escape h => exact decode_escape h

/-- A text of codes is decoded to the bytes they stand for. -/
theorem decode_flatMap {code : UInt8 → List UInt8}
    (hcode : ∀ b ∈ text, CodeOf escape plain b (code b)) :
    decode escape plain (text.flatMap code) = text := by
  induction text with
  | nil => exact decode_nil
  | cons b text ih =>
    obtain ⟨hb, htext⟩ := List.forall_mem_cons.mp hcode
    rw [List.flatMap_cons, hb.decode_append, ih htext]

/-! ## Two decoders -/

/-- No `%` that `strict` copies has a pair of the kind `misread` behind it. -/
def Avoids (strict : UInt8 → UInt8 → Option UInt8) (misread : UInt8 → UInt8 → Bool) :
    List UInt8 → Bool
  | b :: c :: d :: rest =>
    if b = percent then
      match strict c d with
      | some _ => Avoids strict misread rest
      | none => !misread c d && Avoids strict misread (c :: d :: rest)
    else Avoids strict misread (c :: d :: rest)
  | _ => true

/-- `escape` takes what `strict` takes and the pairs of the kind `misread`, and none of these for
the `%`. -/
structure Extends (escape strict : UInt8 → UInt8 → Option UInt8)
    (misread : UInt8 → UInt8 → Bool) : Prop where
  same : ∀ c d value, strict c d = some value → escape c d = some value
  more : ∀ c d, strict c d = none → (misread c d = (escape c d).isSome)
  other : ∀ c d value, strict c d = none → escape c d = some value → value ≠ percent

theorem decode_eq_iff {misread : UInt8 → UInt8 → Bool} (h : Extends escape strict misread)
    (hplain : plain percent = percent) (text : List UInt8) :
    decode escape plain text = decode strict plain text ↔
      Avoids strict misread text = true := by
  fun_induction Avoids strict misread text with
  | case1 c d rest value hstrict ih =>
    rw [decode_escape (h.same c d value hstrict), decode_escape hstrict, List.cons.injEq]
    simpa using ih
  | case2 c d rest hstrict ih =>
    have hmore := h.more c d hstrict
    rw [decode_not_escape hstrict, hplain]
    cases hescape : escape c d with
    | none =>
      rw [hescape] at hmore
      rw [decode_not_escape hescape, hplain, hmore, List.cons.injEq]
      simpa using ih
    | some value =>
      -- the results differ in the byte of the escape
      rw [hescape] at hmore
      rw [decode_escape hescape, hmore, List.cons.injEq]
      simp [h.other c d value hstrict hescape]
  | case3 b c d rest hb ih =>
    have hcons : ∀ c' d' tail, c :: d :: rest = c' :: d' :: tail → b ≠ percent := fun _ _ _ _ => hb
    rw [decode_cons hcons, decode_cons hcons, List.cons.injEq]
    simpa using ih
  | case4 text hshort =>
    match text with
    | [] => simp
    | [b] => simp [decode]
    | [b, c] => simp [decode]
    | b :: c :: d :: rest => exact absurd rfl (hshort b c d rest)

end Tubekit.Lib.PercentCoding
