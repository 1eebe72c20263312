import Tubekit.Json.RoundTrip

/-!
# When texts tell values apart

`to_string` writes strings and keys as they are, so a quote in one of them can make two values
print alike (`toString_alike`). Values that are built from strings without quotes never do
(`toString_injective`): the text of a value can be read only in one way, whatever stands behind it,
as long as that does not go on a number.

`Built` has the values that the calls of the interface give. A reference that `operator[]` returns
is assigned to with the value that is put there in the end, which is itself built.
-/

namespace Tubekit

open Lib Scan OrderedMap

namespace Json

variable {D : Type} {io : DoubleIo D}

/-! ## The interface -/

def append (v value : Json D) : Except JsonError (Json D) :=
  match v with
  | .null => .ok (.array [value])
  | .array values => .ok (.array (values ++ [value]))
  | _ => .error (.logicError "function json::append requires array value")

/-- The elements behind a call of `operator[](index)`, which fills up with nulls. -/
def atIndex (v : Json D) (index : Nat) : Except JsonError (List (Json D)) :=
  match v with
  | .null => .ok (List.replicate (index + 1) .null)
  | .array values => .ok (values ++ List.replicate (index + 1 - values.length) .null)
  | _ => .error (.logicError "function json::operator [int] requires array value")

/-- `v[index] = value`. -/
def assignIndex (v : Json D) (index : Nat) (value : Json D) : Except JsonError (Json D) :=
  match atIndex v index with
  | .error e => .error e
  | .ok values => .ok (.array (values.set index value))

/-- `v[key] = value`. -/
def assignKey (v : Json D) (key : List UInt8) (value : Json D) : Except JsonError (Json D) :=
  match v with
  | .null => .ok (.object [(key, value)])
  | .object members => .ok (.object (assign key value members))
  | _ => .error (.logicError "function json::operator [const std::string&] requires object value")

def removeIndex (v : Json D) (index : Nat) : Bool × Json D :=
  match v with
  | .array values =>
    if index < values.length then (true, .array (values.eraseIdx index)) else (false, .array values)
  | v => (false, v)

def removeKey (v : Json D) (key : List UInt8) : Bool × Json D :=
  match v with
  | .object members =>
    match lookup key members with
    | some _ => (true, .object (erase key members))
    | none => (false, .object members)
  | v => (false, v)

/-- The values that are built from strings and keys with `P`, and without doubles. -/
inductive Built (P : List UInt8 → Prop) : Json D → Prop
  | null : Built P .null
  | bool (value : Bool) : Built P (.bool value)
  | integer (value : LongLong) : Built P (.integer value)
  | string {value : List UInt8} : P value → Built P (.string value)
  | emptyArray : Built P (.array [])
  | emptyObject : Built P (.object [])
  | append {v value w : Json D} : Built P v → Built P value → v.append value = .ok w → Built P w
  | assignIndex {v value w : Json D} {index : Nat} : Built P v → Built P value →
      v.assignIndex index value = .ok w → Built P w
  | assignKey {v value w : Json D} {key : List UInt8} : Built P v → P key → Built P value →
      v.assignKey key value = .ok w → Built P w
  | removeIndex {v : Json D} (index : Nat) : Built P v → Built P (v.removeIndex index).2
  | removeKey {v : Json D} (key : List UInt8) : Built P v → Built P (v.removeKey key).2
  | element {values : List (Json D)} {v : Json D} : Built P (.array values) → v ∈ values → Built P v
  | member {members : List (List UInt8 × Json D)} {m : List UInt8 × Json D} :
      Built P (.object members) → m ∈ members → Built P m.2

/-- All strings and keys have `P`, and there is no double. -/
inductive Consists (P : List UInt8 → Prop) : Json D → Prop
  | null : Consists P .null
  | bool (value : Bool) : Consists P (.bool value)
  | integer (value : LongLong) : Consists P (.integer value)
  | string {value : List UInt8} : P value → Consists P (.string value)
  | array {values : List (Json D)} : (∀ v ∈ values, Consists P v) → Consists P (.array values)
  | object {members : List (List UInt8 × Json D)} : (∀ m ∈ members, P m.1) →
      (∀ m ∈ members, Consists P m.2) → Consists P (.object members)

variable {P : List UInt8 → Prop}

theorem Consists.values {values : List (Json D)} (h : Consists P (.array values)) :
    ∀ v ∈ values, Consists P v := by
  cases h with
  | array each => exact each

theorem Consists.members {members : List (List UInt8 × Json D)} (h : Consists P (.object members)) :
    (∀ m ∈ members, P m.1) ∧ ∀ m ∈ members, Consists P m.2 := by
  cases h with
  | object keys each => exact ⟨keys, each⟩

theorem Consists.append {v value w : Json D} (hv : Consists P v) (hvalue : Consists P value)
    (h : v.append value = .ok w) : Consists P w := by
  unfold Json.append at h
  split at h
  · cases h
    exact .array (by simpa using hvalue)
  · cases h
    refine .array fun u hu => ?_
    rcases List.mem_append.mp hu with hu | hu
    · exact hv.values u hu
    · rwa [List.mem_singleton.mp hu]
  · cases h

theorem Consists.assignIndex {v value w : Json D} {index : Nat} (hv : Consists P v)
    (hvalue : Consists P value) (h : v.assignIndex index value = .ok w) : Consists P w := by
  unfold Json.assignIndex at h
  have hfilled : ∀ {values}, v.atIndex index = .ok values → ∀ u ∈ values, Consists P u := by
    intro values hat u hu
    unfold atIndex at hat
    split at hat
    · cases hat
      rw [List.eq_of_mem_replicate hu]
      exact .null
    · cases hat
      rcases List.mem_append.mp hu with hu | hu
      · exact hv.values u hu
      · rw [List.eq_of_mem_replicate hu]
        exact .null
    · cases hat
  split at h
  · cases h
  next values hat =>
    cases h
    refine .array fun u hu => ?_
    rcases List.mem_or_eq_of_mem_set hu with hu | rfl
    · exact hfilled hat u hu
    · exact hvalue

theorem Consists.assignKey {v value w : Json D} {key : List UInt8} (hv : Consists P v) (hkey : P key)
    (hvalue : Consists P value) (h : v.assignKey key value = .ok w) : Consists P w := by
  unfold Json.assignKey at h
  split at h
  · cases h
    exact .object (by simpa using hkey) (by simpa using hvalue)
  · cases h
    refine .object (fun m hm => ?_) (fun m hm => ?_)
    · rcases mem_assign hm with rfl | hm
      · exact hkey
      · exact hv.members.1 m hm
    · rcases mem_assign hm with rfl | hm
      · exact hvalue
      · exact hv.members.2 m hm
  · cases h

theorem Consists.removeIndex {v : Json D} (hv : Consists P v) (index : Nat) :
    Consists P (v.removeIndex index).2 := by
  unfold Json.removeIndex
  split
  · split
    · exact .array fun u hu => hv.values u (List.mem_of_mem_eraseIdx hu)
    · exact hv
  · exact hv

theorem Consists.removeKey {v : Json D} (hv : Consists P v) (key : List UInt8) :
    Consists P (v.removeKey key).2 := by
  unfold Json.removeKey
  split
  · split
    · exact .object (fun m hm => hv.members.1 m (List.mem_of_mem_filter hm))
        (fun m hm => hv.members.2 m (List.mem_of_mem_filter hm))
    · exact hv
  · exact hv

/-- What is built consists of the strings and keys that went in. -/
theorem Built.consists {v : Json D} (h : Built P v) : Consists P v := by
  induction h with
  | null => exact .null
  | bool value => exact .bool value
  | integer value => exact .integer value
  | string hvalue => exact .string hvalue
  | emptyArray => exact .array (by simp)
  | emptyObject => exact .object (by simp) (by simp)
  | append _ _ heq hv hvalue => exact hv.append hvalue heq
  | assignIndex _ _ heq hv hvalue => exact hv.assignIndex hvalue heq
  | assignKey _ hkey _ heq hv hvalue => exact hv.assignKey hkey hvalue heq
  | removeIndex index _ hv => exact hv.removeIndex index
  | removeKey key _ hv => exact hv.removeKey key
  | element _ hmem hv => exact hv.values _ hmem
  | member _ hmem hv => exact hv.members.2 _ hmem

/-! ## Reading a text in one way -/

/-- A string that can stand between quotes. -/
def NoQuote (value : List UInt8) : Prop := quote ∉ value

instance (value : List UInt8) : Decidable (NoQuote value) := inferInstanceAs (Decidable (¬_))

/-- The kinds of values by the first characters of their texts. -/
def firstKind (c : UInt8) : Nat :=
  if c = 110 then 0
  else if c = 116 ∨ c = 102 then 1
  else if c = quote then 2
  else if c = openBracket then 3
  else if c = openBrace then 4
  else if c = minus ∨ isDigit c = true then 5
  else 6

def kind : Json D → Nat
  | .null => 0
  | .bool _ => 1
  | .string _ => 2
  | .array _ => 3
  | .object _ => 4
  | .integer _ => 5
  | .double _ => 6

theorem toString_first (io : DoubleIo D) {v : Json D} (hv : Consists P v) :
    ∃ c tail, toString io v = c :: tail ∧ firstKind c = kind v := by
  cases hv with
  | null => exact ⟨_, _, rfl, rfl⟩
  | bool value => cases value <;> exact ⟨_, _, rfl, rfl⟩
  | integer value =>
    obtain ⟨c, tail, htext, hc⟩ := printInteger_eq_cons value.1
    refine ⟨c, tail, by rw [toString, htext], ?_⟩
    have hn : c ≠ 110 ∧ ¬(c = 116 ∨ c = 102) ∧ c ≠ quote ∧ c ≠ openBracket ∧ c ≠ openBrace := by
      refine ⟨?_, ?_, ?_, ?_, ?_⟩
      · exact (number_char hc).2.2.1
      · rintro (rfl | rfl)
        · exact (number_char hc).2.2.2.1 rfl
        · exact (number_char hc).2.2.2.2 rfl
      all_goals
        rintro rfl
        exact absurd hc (by decide)
    rw [firstKind, if_neg hn.1, if_neg hn.2.1, if_neg hn.2.2.1, if_neg hn.2.2.2.1, if_neg hn.2.2.2.2,
      if_pos hc]
    rfl
  | string hvalue => exact ⟨quote, _, by rw [toString, List.cons_append], rfl⟩
  | array each => exact ⟨openBracket, _, by rw [toString, List.cons_append], rfl⟩
  | object keys each => exact ⟨openBrace, _, by rw [toString, List.cons_append], rfl⟩

/-- Values of different kinds have different texts. -/
theorem kind_eq {v w : Json D} (hv : Consists P v) (hw : Consists P w) {rest rest' : List UInt8}
    (h : toString io v ++ rest = toString io w ++ rest') : kind v = kind w := by
  obtain ⟨c, tail, hc, hkind⟩ := toString_first io hv
  obtain ⟨c', tail', hc', hkind'⟩ := toString_first io hw
  rw [hc, hc', List.cons_append, List.cons_append] at h
  rw [← hkind, ← hkind', (List.cons.inj h).1]

/-- Where the text of the value begins, no other value is written. -/
def Unique (io : DoubleIo D) (v : Json D) : Prop :=
  ∀ w rest rest', Consists NoQuote w → Stops goesOn rest → Stops goesOn rest' →
    toString io v ++ rest = toString io w ++ rest' → v = w ∧ rest = rest'

theorem unique_null : Unique io (.null : Json D) := by
  intro w rest rest' hw _ _ h
  have hkind := kind_eq (P := NoQuote) .null hw h
  cases hw with
  | null => exact ⟨rfl, List.append_cancel_left h⟩
  | _ => cases hkind

theorem unique_bool (value : Bool) : Unique io (.bool value : Json D) := by
  intro w rest rest' hw _ _ h
  have hkind := kind_eq (P := NoQuote) (.bool value) hw h
  cases hw with
  | bool value' =>
    cases value <;> cases value'
    · exact ⟨rfl, List.append_cancel_left h⟩
    · exact absurd (List.cons.inj h).1 (by decide)
    · exact absurd (List.cons.inj h).1 (by decide)
    · exact ⟨rfl, List.append_cancel_left h⟩
  | _ => cases hkind

theorem unique_integer (value : LongLong) : Unique io (.integer value : Json D) := by
  intro w rest rest' hw hrest hrest' h
  have hkind := kind_eq (P := NoQuote) (.integer value) hw h
  cases hw with
  | integer value' =>
    rw [toString, toString] at h
    have hvalue : value = value' := by
      rw [← atoll_printInteger value (stops_isDigit hrest), h,
        atoll_printInteger value' (stops_isDigit hrest')]
    subst hvalue
    exact ⟨rfl, List.append_cancel_left h⟩
  | _ => cases hkind

theorem unique_string {value : List UInt8} (hvalue : NoQuote value) :
    Unique io (.string value : Json D) := by
  intro w rest rest' hw _ _ h
  have hkind := kind_eq (P := NoQuote) (.string hvalue) hw h
  cases hw with
  | string hvalue' =>
    simp only [toString, List.cons_append, List.append_assoc, List.nil_append, List.cons.injEq,
      true_and] at h
    obtain ⟨rfl, hrest⟩ := append_mark_inj hvalue hvalue' h
    exact ⟨rfl, hrest⟩
  | _ => cases hkind

theorem kind_ne_six {v : Json D} (hv : Consists P v) : kind v ≠ 6 := by
  cases hv <;> simp [kind]

/-- No text begins with a mark. -/
theorem toString_ne_mark {v : Json D} (hv : Consists P v) {c : UInt8} (hc : firstKind c = 6)
    (rest rest' : List UInt8) : toString io v ++ rest ≠ c :: rest' := by
  obtain ⟨d, tail, htext, hkind⟩ := toString_first io hv
  rw [htext, List.cons_append]
  intro h
  rw [(List.cons.inj h).1, hc] at hkind
  exact kind_ne_six hv hkind.symm

/-- The end of an array is not the text of more elements. -/
theorem elements_ne {values : List (Json D)} (hne : values ≠ []) (hvalues : ∀ v ∈ values, Consists P v)
    (first : Bool) (rest rest' : List UInt8) :
    elements io first values ++ closeBracket :: rest ≠ closeBracket :: rest' := by
  obtain ⟨v, values, rfl⟩ := List.exists_cons_of_ne_nil hne
  rw [elements]
  cases first with
  | true =>
    simp only [if_true, List.nil_append, List.append_assoc]
    exact toString_ne_mark (hvalues v List.mem_cons_self) (by decide) _ _
  | false =>
    intro h
    exact absurd (List.cons.inj h).1 (by decide)

theorem stops_elements (values : List (Json D)) (rest : List UInt8) :
    Stops goesOn (elements io false values ++ closeBracket :: rest) := by
  cases values with
  | nil => exact stops_cons.mpr (by decide)
  | cons v values => exact stops_cons.mpr (by decide)

/-- The elements of an array up to its bracket. -/
theorem unique_elements {values : List (Json D)} :
    ∀ (first : Bool) (others : List (Json D)) (rest rest' : List UInt8),
      (∀ v ∈ values, Consists NoQuote v ∧ Unique io v) → (∀ w ∈ others, Consists NoQuote w) →
      elements io first values ++ closeBracket :: rest = elements io first others ++ closeBracket :: rest' →
      values = others ∧ rest = rest' := by
  induction values with
  | nil =>
    intro first others rest rest' _ hothers h
    cases others with
    | nil => exact ⟨rfl, (List.cons.inj h).2⟩
    | cons w others => exact absurd h.symm (elements_ne (List.cons_ne_nil w others) hothers first rest' rest)
  | cons v values ih =>
    intro first others rest rest' hvalues hothers h
    cases others with
    | nil => exact absurd h (elements_ne (List.cons_ne_nil v values) (fun u hu => (hvalues u hu).1) first rest rest')
    | cons w others =>
      obtain ⟨⟨-, hv⟩, hmore⟩ := List.forall_mem_cons.mp hvalues
      obtain ⟨hw, hmore'⟩ := List.forall_mem_cons.mp hothers
      rw [elements, elements] at h
      simp only [List.append_assoc, List.append_cancel_left_eq] at h
      obtain ⟨rfl, helements⟩ := hv w _ _ hw (stops_elements values rest) (stops_elements others rest') h
      obtain ⟨rfl, hrest⟩ := ih false others rest rest' hmore hmore' helements
      exact ⟨rfl, hrest⟩

theorem unique_array {values : List (Json D)} (hvalues : ∀ v ∈ values, Consists NoQuote v)
    (hunique : ∀ v ∈ values, Unique io v) : Unique io (.array values) := by
  intro w rest rest' hw _ _ h
  have hkind := kind_eq (.array hvalues) hw h
  cases hw with
  | array hothers =>
    simp only [toString, List.cons_append, List.append_assoc, List.nil_append, List.cons.injEq,
      true_and] at h
    obtain ⟨rfl, hrest⟩ := unique_elements true _ rest rest'
      (fun v hv => ⟨hvalues v hv, hunique v hv⟩) hothers h
    exact ⟨rfl, hrest⟩
  | _ => cases hkind

theorem pairs_ne {members : List (List UInt8 × Json D)} (hne : members ≠ []) (first : Bool)
    (rest rest' : List UInt8) : pairs io first members ++ closeBrace :: rest ≠ closeBrace :: rest' := by
  obtain ⟨⟨key, v⟩, members, rfl⟩ := List.exists_cons_of_ne_nil hne
  rw [pairs]
  cases first <;> exact fun h => absurd (List.cons.inj h).1 (by decide)

theorem stops_pairs (members : List (List UInt8 × Json D)) (rest : List UInt8) :
    Stops goesOn (pairs io false members ++ closeBrace :: rest) := by
  cases members with
  | nil => exact stops_cons.mpr (by decide)
  | cons m members => exact stops_cons.mpr (by decide)

/-- The members of an object up to its brace. -/
theorem unique_pairs {members : List (List UInt8 × Json D)} :
    ∀ (first : Bool) (others : List (List UInt8 × Json D)) (rest rest' : List UInt8),
      (∀ m ∈ members, NoQuote m.1 ∧ Unique io m.2) →
      (∀ n ∈ others, NoQuote n.1 ∧ Consists NoQuote n.2) →
      pairs io first members ++ closeBrace :: rest = pairs io first others ++ closeBrace :: rest' →
      members = others ∧ rest = rest' := by
  induction members with
  | nil =>
    intro first others rest rest' _ _ h
    cases others with
    | nil => exact ⟨rfl, (List.cons.inj h).2⟩
    | cons n others => exact absurd h.symm (pairs_ne (List.cons_ne_nil n others) first rest' rest)
  | cons m members ih =>
    intro first others rest rest' hmembers hothers h
    cases others with
    | nil => exact absurd h (pairs_ne (List.cons_ne_nil m members) first rest rest')
    | cons n others =>
      obtain ⟨key, v⟩ := m
      obtain ⟨key', w⟩ := n
      obtain ⟨⟨hkey, hv⟩, hmore⟩ := List.forall_mem_cons.mp hmembers
      obtain ⟨⟨hkey', hw⟩, hmore'⟩ := List.forall_mem_cons.mp hothers
      rw [pairs, pairs] at h
      simp only [List.append_assoc, List.append_cancel_left_eq, List.cons_append, List.nil_append,
        List.cons.injEq, true_and] at h
      obtain ⟨hsame, hvalue⟩ := append_mark_inj hkey hkey' h
      obtain ⟨rfl, hpairs⟩ := hv w _ _ hw (stops_pairs members rest) (stops_pairs others rest')
        (List.cons.inj hvalue).2
      obtain ⟨rfl, hrest⟩ := ih false others rest rest' hmore hmore' hpairs
      obtain rfl : key = key' := hsame
      exact ⟨rfl, hrest⟩

theorem unique_object {members : List (List UInt8 × Json D)} (hkeys : ∀ m ∈ members, NoQuote m.1)
    (hmembers : ∀ m ∈ members, Consists NoQuote m.2) (hunique : ∀ m ∈ members, Unique io m.2) :
    Unique io (.object members) := by
  intro w rest rest' hw _ _ h
  have hkind := kind_eq (.object hkeys hmembers) hw h
  cases hw with
  | object hkeys' hothers =>
    simp only [toString, List.cons_append, List.append_assoc, List.nil_append, List.cons.injEq,
      true_and] at h
    obtain ⟨rfl, hrest⟩ := unique_pairs true _ rest rest' (fun m hm => ⟨hkeys m hm, hunique m hm⟩)
      (fun n hn => ⟨hkeys' n hn, hothers n hn⟩) h
    exact ⟨rfl, hrest⟩
  | _ => cases hkind

/-- A text without quotes in its strings is the text of one value only. -/
theorem unique_of_consists {v : Json D} (h : Consists NoQuote v) : Unique io v := by
  induction h with
  | null => exact unique_null
  | bool value => exact unique_bool value
  | integer value => exact unique_integer value
  | string hvalue => exact unique_string hvalue
  | array each ih => exact unique_array each ih
  | object keys each ih => exact unique_object keys each ih

/-- Values that are built from strings and keys without quotes are the same if their texts are. -/
theorem toString_injective (io : DoubleIo D) (v w : Json D) (hv : Built NoQuote v)
    (hw : Built NoQuote w) (h : toString io v = toString io w) : v = w := by
  have htext : toString io v ++ [] = toString io w ++ [] := by rw [h]
  exact (unique_of_consists hv.consists w [] [] hw.consists (stops_nil _) (stops_nil _) htext).1

/-- The order of the calls does not matter. -/
theorem toString_injective_order : ∃ v w : Json Unit, Built NoQuote v ∧ Built NoQuote w ∧
    toString noDoubleIo v = toString noDoubleIo w ∧ v = w := by
  have ha : Built NoQuote (.object [([97], .null)] : Json Unit) :=
    .assignKey (v := .null) .null (by decide : NoQuote [97]) .null rfl
  have hb : Built NoQuote (.object [([98, 92], .bool true)] : Json Unit) :=
    .assignKey (v := .null) .null (by decide : NoQuote [98, 92]) (.bool true) rfl
  have hab : Built NoQuote (.object [([97], .null), ([98, 92], .bool true)] : Json Unit) :=
    .assignKey ha (by decide : NoQuote [98, 92]) (.bool true) rfl
  have hba : Built NoQuote (.object [([97], .null), ([98, 92], .bool true)] : Json Unit) :=
    .assignKey hb (by decide : NoQuote [97]) .null rfl
  exact ⟨_, _, hab, hba, rfl, toString_injective noDoubleIo _ _ hab hba rfl⟩

/-- `["a","b"]`, as the text of two strings and of the one string `a","b`. -/
theorem toString_alike :
    ∃ v w : Json Unit, Built (fun _ => True) v ∧ Built (fun _ => True) w ∧
      toString noDoubleIo v = toString noDoubleIo w ∧ v ≠ w := by
  refine ⟨.array [.string [97], .string [98]], .array [.string [97, 34, 44, 34, 98]], ?_, ?_, rfl, ?_⟩
  · have hone : Built (fun _ => True) (.array [.string [97]] : Json Unit) :=
      .append .null (.string trivial) rfl
    exact .append hone (.string trivial) rfl
  · exact .append .null (.string trivial) rfl
  · intro h
    cases h

end Json

end Tubekit
