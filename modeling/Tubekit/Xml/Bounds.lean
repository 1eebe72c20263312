import Tubekit.Xml.Steps

/-!
# What the parser reads

`reads` lists the indexes of `m_str` at which the source reads in a step, comparison by comparison.
They lie in the text or at the zero behind it exactly as long as no text and no attribute value
runs over the end (`inBounds_iff`): these two loops are the only ones without a check, and from the
first such index on each step reads one further.
-/

namespace Tubekit

open Lib Scan Machine

namespace Xml

/-! ## The indexes -/

/-- The loop over characters with `p`: each of them and the one it stops at. -/
def whileReads (p : UInt8 → Bool) (s : List UInt8) (idx : Nat) : List Nat :=
  List.range' idx (skipWhile p s idx + 1 - idx)

/-- `skip_white_spaces`. -/
def skipReads (s : List UInt8) (idx : Nat) : List Nat := whileReads isSpace s idx

/-- Comparisons joined by `&&`, which end with the first that fails. -/
def matchReads (s : List UInt8) : List UInt8 → Nat → List Nat
  | [], _ => []
  | c :: text, idx => idx :: if charAt s idx = c then matchReads s text (idx + 1) else []

/-- `parse_element_name` and `parse_element_attr_key`. -/
def nameReads (s : List UInt8) (idx : Nat) : List Nat :=
  let start := skipWhiteSpaces s idx
  skipReads s idx ++ start ::
    if isNameStart (charAt s start) then whileReads isNameChar s (start + 1) else []

/-- The test for a mark, and what is read behind the part that it begins. -/
def skippedReads (s mark : List UInt8) (found : Bool) (parsed : Option Nat) (idx : Nat)
    (after : Nat → List Nat) : List Nat :=
  matchReads s mark idx ++
    match (if found then parsed else some idx) with
    | none => []
    | some idx => after idx

def commentReads (s : List UInt8) (idx : Nat) : List Nat :=
  let start := skipWhiteSpaces s idx
  skipReads s idx ++
    skippedReads s [60, 33, 45, 45] (atComment s start) (parseComment s start) start (skipReads s)

/-- `parse` before the element. -/
def prologReads (s : List UInt8) (idx : Nat) : List Nat :=
  let start := skipWhiteSpaces s idx
  skipReads s idx ++
    if start = s.length then []
    else start :: if charAt s start = 0 then [] else
      skippedReads s [60, 63, 120, 109, 108] (atDeclaration s start) (parseDeclaration s start) start
        (commentReads s)

def callReads (s : List UInt8) (idx : Nat) : List Nat :=
  prologReads s idx ++
    match parseProlog s idx with
    | .error _ => []
    | .ok idx =>
      (idx :: if charAt s idx = lt then [idx + 1] else []) ++
        if atTag s idx then nameReads s (idx + 1) ++ skipReads s (parseElementName s (idx + 1)).2
        else []

/-- The key of an attribute, and what comes before its value. -/
def attrReads (s : List UInt8) (idx : Nat) : List Nat :=
  let afterKey := (parseElementAttrKey s idx).2
  let start := skipWhiteSpaces s afterKey
  nameReads s idx ++ (skipReads s afterKey ++ start ::
    if charAt s start ≠ equals then []
    else skipReads s (start + 1) ++ [skipWhiteSpaces s (start + 1)])

/-- An end tag, a comment or a child. -/
def ltReads (s : List UInt8) (f : Frame) (idx : Nat) : List Nat :=
  if charAt s (idx + 1) = slash then
    match find s (endTag f.name) idx with
    | none => []
    | some pos => if pos = idx then [] else skipReads s idx
  else
    skippedReads s [60, 33, 45, 45] (atComment s idx) (parseComment s idx) idx fun i =>
      if atComment s idx then skipReads s i else []

def loopReads (s : List UInt8) (f : Frame) (idx : Nat) : List Nat :=
  idx ::
    if charAt s idx = 0 then []
    else if charAt s idx = gt then skipReads s (idx + 1)
    else if charAt s idx = slash then [idx + 1]
    else if charAt s idx = lt then (idx + 1) :: ltReads s f idx
    else attrReads s idx

/-- The indexes that are read in the next step. -/
def reads (s : List UInt8) : State → List Nat
  | .running .call _ idx => callReads s idx
  | .running (.loop f) _ idx => loopReads s f idx
  | .running (.text _ _) _ idx => idx :: if charAt s idx = lt then skipReads s idx else []
  | .running (.attrVal _ _ _) _ idx => idx :: if charAt s idx = quote then skipReads s (idx + 1) else []
  | .running (.ret _) (_ :: _) idx => skipReads s idx
  | _ => []

/-- In the whole run, `m_idx` and every index that is read are at most the size of the text. -/
def InBounds (s : List UInt8) : Prop :=
  ∀ c, Visits s c → c.index ≤ s.length ∧ ∀ k ∈ reads s c, k ≤ s.length

variable {s : List UInt8} {idx i k : Nat} {c d : State}

/-! ## Reading before the end -/

theorem whileReads_le {p : UInt8 → Bool} (hidx : idx ≤ s.length) (hk : k ∈ whileReads p s idx) :
    k ≤ s.length := by
  have hle := skipWhile_le (p := p) hidx
  rw [whileReads, List.mem_range'_1] at hk
  omega

theorem skipReads_le (hidx : idx ≤ s.length) (hk : k ∈ skipReads s idx) : k ≤ s.length :=
  whileReads_le hidx hk

theorem succ_le_of_charAt {c : UInt8} (h : charAt s idx = c) (hc : c ≠ 0) : idx + 1 ≤ s.length :=
  lt_of_charAt (by rwa [h])

theorem matchReads_le {text : List UInt8} (htext : 0 ∉ text) :
    ∀ {idx : Nat}, idx ≤ s.length → k ∈ matchReads s text idx → k ≤ s.length := by
  induction text with
  | nil =>
    intro idx _ hk
    cases hk
  | cons c text ih =>
    obtain ⟨hc, htext⟩ := List.ne_and_not_mem_of_not_mem_cons htext
    intro idx hidx hk
    rw [matchReads, List.mem_cons] at hk
    rcases hk with rfl | hk
    · exact hidx
    · split_ifs at hk with hchar
      · exact ih htext (succ_le_of_charAt hchar (Ne.symm hc)) hk
      · cases hk

theorem nameReads_le (hidx : idx ≤ s.length) (hk : k ∈ nameReads s idx) : k ≤ s.length := by
  unfold nameReads at hk
  dsimp only at hk
  rw [List.mem_append, List.mem_cons] at hk
  rcases hk with hk | rfl | hk
  · exact skipReads_le hidx hk
  · exact skipWhiteSpaces_le hidx
  · split_ifs at hk with hstart
    · have hlt : skipWhiteSpaces s idx < s.length := by
        apply lt_of_charAt
        intro hzero
        rw [hzero] at hstart
        exact absurd hstart (by decide)
      exact whileReads_le hlt hk
    · cases hk

theorem skippedReads_le {mark : List UInt8} {found : Bool} {parsed : Option Nat}
    {after : Nat → List Nat} (hmark : 0 ∉ mark) (hidx : idx ≤ s.length)
    (hparsed : ∀ i, parsed = some i → i ≤ s.length)
    (hafter : ∀ i, i ≤ s.length → ∀ k ∈ after i, k ≤ s.length)
    (hk : k ∈ skippedReads s mark found parsed idx after) : k ≤ s.length := by
  unfold skippedReads at hk
  rw [List.mem_append] at hk
  rcases hk with hk | hk
  · exact matchReads_le hmark hidx hk
  · split at hk
    · cases hk
    next i hi =>
      cases found with
      | true => exact hafter i (hparsed i hi) k hk
      | false =>
        cases hi
        exact hafter idx hidx k hk

theorem commentReads_le (hidx : idx ≤ s.length) (hk : k ∈ commentReads s idx) : k ≤ s.length := by
  unfold commentReads at hk
  dsimp only at hk
  rw [List.mem_append] at hk
  rcases hk with hk | hk
  · exact skipReads_le hidx hk
  · exact skippedReads_le (by decide) (skipWhiteSpaces_le hidx)
      (fun i hi => (le_of_parseComment hi).2) (fun i hi k hk => skipReads_le hi hk) hk

theorem prologReads_le (hidx : idx ≤ s.length) (hk : k ∈ prologReads s idx) : k ≤ s.length := by
  have hstart := skipWhiteSpaces_le hidx
  unfold prologReads at hk
  dsimp only at hk
  rw [List.mem_append] at hk
  rcases hk with hk | hk
  · exact skipReads_le hidx hk
  split_ifs at hk with hend hzero
  · cases hk
  · rw [List.mem_singleton] at hk
    rwa [hk]
  · rw [List.mem_cons] at hk
    rcases hk with rfl | hk
    · exact hstart
    · exact skippedReads_le (by decide) hstart (fun i hi => (le_of_parseDeclaration hi).2)
        (fun i hi k hk => commentReads_le hi hk) hk

theorem callReads_le (hidx : idx ≤ s.length) (hk : k ∈ callReads s idx) : k ≤ s.length := by
  unfold callReads at hk
  rw [List.mem_append] at hk
  rcases hk with hk | hk
  · exact prologReads_le hidx hk
  split at hk
  · cases hk
  next i hprolog =>
    have hi := parseProlog_le hidx hprolog
    rw [List.mem_append, List.mem_cons] at hk
    rcases hk with (rfl | hk) | hk
    · exact hi
    · split_ifs at hk with hlt
      · rw [List.mem_singleton] at hk
        rw [hk]
        exact succ_le_of_charAt hlt (by decide)
      · cases hk
    · split_ifs at hk with htag
      · have hname : i + 1 ≤ s.length := succ_le_of_charAt (atTag_iff.mp htag).1 (by decide)
        rw [List.mem_append] at hk
        rcases hk with hk | hk
        · exact nameReads_le hname hk
        · exact skipReads_le (parseElementName_le hname) hk
      · cases hk

theorem attrReads_le (hidx : idx ≤ s.length)
    (hk : k ∈ attrReads s idx) : k ≤ s.length := by
  have hkey : (parseElementAttrKey s idx).2 ≤ s.length := parseElementName_le hidx
  have hstart := skipWhiteSpaces_le hkey
  unfold attrReads at hk
  dsimp only at hk
  rw [List.mem_append, List.mem_append, List.mem_cons] at hk
  rcases hk with hk | hk | rfl | hk
  · exact nameReads_le hidx hk
  · exact skipReads_le hkey hk
  · exact hstart
  · split_ifs at hk with hequals
    · cases hk
    · have hval := succ_le_of_charAt (not_not.mp hequals) (by decide)
      rw [List.mem_append, List.mem_singleton] at hk
      rcases hk with hk | rfl
      · exact skipReads_le hval hk
      · exact skipWhiteSpaces_le hval

theorem ltReads_le {f : Frame} (hidx : idx ≤ s.length) (hk : k ∈ ltReads s f idx) :
    k ≤ s.length := by
  unfold ltReads at hk
  split at hk
  · split at hk
    · cases hk
    · split at hk
      · cases hk
      · exact skipReads_le hidx hk
  · refine skippedReads_le (by decide) hidx (fun i hi => (le_of_parseComment hi).2) ?_ hk
    intro i hi k hk
    split at hk
    · exact skipReads_le hi hk
    · cases hk

theorem loopReads_le {f : Frame} (hidx : idx ≤ s.length) (hk : k ∈ loopReads s f idx) :
    k ≤ s.length := by
  unfold loopReads at hk
  rw [List.mem_cons] at hk
  rcases hk with rfl | hk
  · exact hidx
  split_ifs at hk with hend hgt hslash hlt
  · cases hk
  · exact skipReads_le (succ_le_of_charAt hgt (by decide)) hk
  · rw [List.mem_singleton] at hk
    rw [hk]
    exact succ_le_of_charAt hslash (by decide)
  · have hnext : idx + 1 ≤ s.length := succ_le_of_charAt hlt (by decide)
    rw [List.mem_cons] at hk
    rcases hk with rfl | hk
    · exact hnext
    · exact ltReads_le hidx hk
  · exact attrReads_le hidx hk

/-- A step from a place in the text reads nothing behind its end. -/
theorem reads_le (hidx : c.index ≤ s.length) (hk : k ∈ reads s c) : k ≤ s.length := by
  match c with
  | .running .call stack idx => exact callReads_le hidx hk
  | .running (.loop f) stack idx => exact loopReads_le hidx hk
  | .running (.text f res) stack idx =>
    rw [reads, List.mem_cons] at hk
    rcases hk with rfl | hk
    · exact hidx
    · split_ifs at hk with hlt
      · exact skipReads_le hidx hk
      · cases hk
  | .running (.attrVal f key res) stack idx =>
    rw [reads, List.mem_cons] at hk
    rcases hk with rfl | hk
    · exact hidx
    · split_ifs at hk with hquote
      · exact skipReads_le (succ_le_of_charAt hquote (by decide)) hk
      · cases hk
  | .running (.ret e) (f :: stack) idx => exact skipReads_le hidx hk

/-! ## Reading behind the end -/

theorem index_overruns_step (h : Overruns s c) : (step s c).index = c.index + 1 := by
  match c, h with
  | .running (.text f res) stack idx, h =>
    rw [step_text (charAt_ne_of_not_mem h (by decide))]
    rfl
  | .running (.attrVal f key res) stack idx, h =>
    rw [step_attrVal (charAt_ne_of_not_mem h (by decide))]
    rfl

/-- A loop that runs over the end comes to every later index. -/
theorem index_overruns (h : Overruns s c) (n : Nat) :
    Overruns s ((machine s).run n c) ∧ ((machine s).run n c).index = c.index + n := by
  induction n with
  | zero => exact ⟨h, rfl⟩
  | succ n ih =>
    rw [run_succ_last]
    refine ⟨overruns_step ih.1, ?_⟩
    change (step s ((machine s).run n c)).index = c.index + (n + 1)
    rw [index_overruns_step ih.1, ih.2]
    rfl

/-- The parser stays inside of its text exactly if no text and no attribute value runs over the
end. -/
theorem inBounds_iff (s : List UInt8) : InBounds s ↔ ∀ c, Visits s c → ¬Overruns s c := by
  constructor
  · intro h c hc hover
    have hend := (index_overruns hover (s.length + 1)).2
    have hbound := (h _ (hc.trans ⟨s.length + 1, rfl⟩)).1
    omega
  · intro h c hc
    have hidx := (index_le_length hc).resolve_left (h c hc)
    exact ⟨hidx, fun k hk => reads_le hidx hk⟩

/-- `<a>x`: the text has no end. -/
theorem not_inBounds_text : ¬InBounds [60, 97, 62, 120] := by
  intro h
  have hvisits : Visits [60, 97, 62, 120] (.running (.text (.new [97]) [120, 0]) [] 5) := ⟨4, rfl⟩
  exact absurd (h _ hvisits).1 (by decide)

end Xml

end Tubekit
