import Mathlib.Data.List.TakeWhile
import Tubekit.Lib.Machine
import Tubekit.Xml.Document

/-!
# `document::parse` step by step

The parser as a machine. Its stack has the calls of `parse` that wait for a child, each with the
element it has built so far; a step is a call of `parse` up to its loop, one round of the loop, one
character of a text or of an attribute value, or a return. The two loops over characters have no
check for the end of the string: behind it the machine goes on reading zeros.

`parse` and `parseLoop`, which are given fuel, say what the machine does (`leads_of_parse`): where
they return the machine comes to the same element, where they stop with `outOfRange` it comes to a
loop that runs over the end, and where their fuel is used up it has taken more steps than that.
-/

namespace Tubekit

open Lib Scan Machine

namespace Xml

/-- A call of `parse` in its loop: the name of its element, and the element so far. -/
structure Frame where
  name : List UInt8
  elem : Element

/-- Where the parser is. -/
inductive Pc where
  /-- `parse` is called. -/
  | call
  /-- The test of the loop. -/
  | loop (f : Frame)
  /-- In the loop of `parse_element_text`, with the characters read. -/
  | text (f : Frame) (res : List UInt8)
  /-- In the loop of `parse_element_attr_val`. -/
  | attrVal (f : Frame) (key res : List UInt8)
  /-- `parse` returns. -/
  | ret (e : Element)

inductive State where
  | running (pc : Pc) (stack : List Frame) (idx : Nat)
  | done (e : Element) (idx : Nat)
  | thrown (error : XmlError)

namespace Frame

def setText (f : Frame) (text : List UInt8) : Frame := { f with elem := f.elem.setText text }
def attr (f : Frame) (key val : List UInt8) : Frame := { f with elem := f.elem.attr key val }
def append (f : Frame) (child : Element) : Frame := { f with elem := f.elem.append child }

/-- The element as it is when its loop begins. -/
def new (name : List UInt8) : Frame := { name, elem := Element.default.setName name }

end Frame

/-- The start of a tag: `<` with the first character of a name. -/
def atTag (s : List UInt8) (idx : Nat) : Bool :=
  charAt s idx == lt && isNameStart (charAt s (idx + 1))

/-- `parse` up to its loop. -/
def callStep (s : List UInt8) (stack : List Frame) (idx : Nat) : State :=
  match parseProlog s idx with
  | .error e => .thrown e
  | .ok idx =>
    if atTag s idx then
      let (name, idx) := parseElementName s (idx + 1)
      .running (.loop (.new name)) stack (skipWhiteSpaces s idx)
    else .running (.ret .default) stack idx

/-- One round of the loop, up to a call or to the characters of a text or value. -/
def loopStep (s : List UInt8) (f : Frame) (stack : List Frame) (idx : Nat) : State :=
  if charAt s idx = 0 then .running (.ret f.elem) stack idx
  else if charAt s idx = gt then .running (.text f []) stack (skipWhiteSpaces s (idx + 1))
  else if charAt s idx = slash then
    if charAt s (idx + 1) = gt then .running (.ret f.elem) stack (idx + 2)
    else .thrown (.logic "xml empty element is error")
  else if charAt s idx = lt then
    if charAt s (idx + 1) = slash then
      match find s (endTag f.name) idx with
      | none =>
        .thrown (.logicError
          ("xml error ".toUTF8.toList ++ f.name ++ " end tag not found".toUTF8.toList))
      | some pos =>
        if pos = idx then .running (.ret f.elem) stack (idx + (endTag f.name).length)
        else .running (.loop f) stack (skipWhiteSpaces s idx)
    else if atComment s idx then
      match parseComment s idx with
      | none => .thrown (.logic "xml comment is error")
      | some idx => .running (.loop f) stack (skipWhiteSpaces s idx)
    else .running .call (f :: stack) idx
  else
    let (key, idx) := parseElementAttrKey s idx
    let idx := skipWhiteSpaces s idx
    if charAt s idx ≠ equals then
      .thrown (.logicError ("xml element attr is error ".toUTF8.toList ++ key))
    else
      let idx := skipWhiteSpaces s (idx + 1)
      if charAt s idx ≠ quote then
        .thrown (.logic "xml element attr value should be in double quotes")
      else .running (.attrVal f key []) stack (idx + 1)

/-- One character of a text, or what the loop does with the text. -/
def textStep (s : List UInt8) (f : Frame) (res : List UInt8) (stack : List Frame) (idx : Nat) : State :=
  if charAt s idx ≠ lt then .running (.text f (res ++ [charAt s idx])) stack (idx + 1)
  else
    let idx := skipWhiteSpaces s idx
    if res ≠ [] then .running (.loop (f.setText res)) stack (skipWhiteSpaces s idx)
    else .running .call (f :: stack) idx

/-- One character of a value, or what the loop does with the value. -/
def attrValStep (s : List UInt8) (f : Frame) (key res : List UInt8) (stack : List Frame) (idx : Nat) :
    State :=
  if charAt s idx ≠ quote then .running (.attrVal f key (res ++ [charAt s idx])) stack (idx + 1)
  else .running (.loop (f.attr key res)) stack (skipWhiteSpaces s (idx + 1))

def retStep (s : List UInt8) (e : Element) (stack : List Frame) (idx : Nat) : State :=
  match stack with
  | [] => .done e idx
  | f :: stack => .running (.loop (f.append e)) stack (skipWhiteSpaces s idx)

def step (s : List UInt8) : State → State
  | .running .call stack idx => callStep s stack idx
  | .running (.loop f) stack idx => loopStep s f stack idx
  | .running (.text f res) stack idx => textStep s f res stack idx
  | .running (.attrVal f key res) stack idx => attrValStep s f key res stack idx
  | .running (.ret e) stack idx => retStep s e stack idx
  | c => c

/-- `parse` has returned or thrown. -/
def Final : State → Prop
  | .running .. => False
  | _ => True

def machine (s : List UInt8) : Machine State where
  step := step s
  Final := Final
  stays := fun c h => by
    cases c with
    | running => exact absurd h (by simp [Final])
    | done => rfl
    | thrown => rfl

/-- `parse` is called on the whole text. -/
def start : State := .running .call [] 0

/-- The parser comes to this state. -/
def Visits (s : List UInt8) (c : State) : Prop := (machine s).Leads start c

variable {s : List UInt8} {f : Frame} {stack : List Frame} {idx : Nat}

/-! ## Characters -/

/-- Where `readUntil` stops, and when it does not. -/
theorem readUntil_cases (mark : UInt8) (s : List UInt8) (idx : Nat) :
    (∃ res rest, readUntil mark s idx = .ok (res, idx + res.length) ∧
      s.drop idx = res ++ mark :: rest ∧ mark ∉ res) ∨
      (readUntil mark s idx = .error .outOfRange ∧ mark ∉ s.drop idx) := by
  obtain ⟨run, hrun, hskip, hdrop, hstops⟩ := skipWhile_drop s idx (· != mark)
  have hnot : mark ∉ run := by
    intro hmem
    simpa using hrun mark hmem
  unfold readUntil
  rw [hskip]
  by_cases hlt : idx + run.length < s.length
  · have hcons := drop_eq_cons hlt
    have hmark : charAt s (idx + run.length) = mark := by simpa using hstops _ _ hcons
    rw [hmark] at hcons
    rw [hcons] at hdrop
    have htake : (s.drop idx).takeWhile (· != mark) = run := by
      rw [hdrop]
      exact takeWhile_append hrun (by simp)
    refine .inl ⟨run, _, ?_, hdrop, hnot⟩
    dsimp only
    rw [if_pos hlt, htake]
  · rw [List.drop_eq_nil_of_le (Nat.le_of_not_lt hlt), List.append_nil] at hdrop
    refine .inr ⟨if_neg hlt, ?_⟩
    rwa [hdrop]

/-- A loop over characters takes those up to its mark. -/
theorem run_chars {mark : UInt8} {c : List UInt8 → Nat → State}
    (hstep : ∀ res idx, charAt s idx ≠ mark →
      step s (c res idx) = c (res ++ [charAt s idx]) (idx + 1)) (run : List UInt8) :
    ∀ (res rest : List UInt8) (idx : Nat), s.drop idx = run ++ rest → mark ∉ run →
      (machine s).run run.length (c res idx) = c (res ++ run) (idx + run.length) := by
  induction run with
  | nil =>
    intro res rest idx _ _
    simp
  | cons head run ih =>
    intro res rest idx hdrop hmark
    obtain ⟨hhead, hrun⟩ := List.ne_and_not_mem_of_not_mem_cons hmark
    have hchar : charAt s idx = head := charAt_of_drop hdrop
    have hnext : (machine s).step (c res idx) = c (res ++ [head]) (idx + 1) := by
      rw [← hchar]
      exact hstep res idx (by rw [hchar]; exact Ne.symm hhead)
    rw [List.length_cons, run_succ, hnext,
      ih (res ++ [head]) rest (idx + 1) (drop_succ_of_drop hdrop) hrun]
    simp only [List.append_assoc, List.singleton_append]
    congr 1
    omega

theorem step_text (h : charAt s idx ≠ lt) (res : List UInt8) :
    step s (.running (.text f res) stack idx) =
      .running (.text f (res ++ [charAt s idx])) stack (idx + 1) := by
  rw [step, textStep, if_pos h]

theorem step_attrVal (h : charAt s idx ≠ quote) (key res : List UInt8) :
    step s (.running (.attrVal f key res) stack idx) =
      .running (.attrVal f key (res ++ [charAt s idx])) stack (idx + 1) := by
  rw [step, attrValStep, if_pos h]

/-- The mark of the loop over characters that the parser is in does not come any more. -/
def Overruns (s : List UInt8) : State → Prop
  | .running (.text _ _) _ idx => lt ∉ s.drop idx
  | .running (.attrVal _ _ _) _ idx => quote ∉ s.drop idx
  | _ => False

/-! ## The functions with fuel -/

/-- What the machine does where `parse` or `parseLoop` gives `r`. -/
def Answers (s : List UInt8) (c : State) (fuel : Nat) (stack : List Frame) :
    Except XmlError (Element × Nat) → Prop
  | .ok (e, i) => (machine s).Leads c (.running (.ret e) stack i)
  | .error .outOfRange => ∃ d, (machine s).Leads c d ∧ Overruns s d
  | .error .outOfFuel => ¬Final ((machine s).run fuel c)
  | .error (.logicError what) => (machine s).Leads c (.thrown (.logicError what))

/-- The answer of a state is that of every state before it. -/
theorem Answers.of_leads {c d : State} {fuel : Nat} {r : Except XmlError (Element × Nat)}
    (hleads : (machine s).Leads (step s c) d) (h : Answers s d fuel stack r) :
    Answers s c (fuel + 1) stack r := by
  have hc : (machine s).Leads c d := (Leads.one c).trans hleads
  match r with
  | .ok (e, i) => exact hc.trans h
  | .error .outOfRange =>
    obtain ⟨e, he, hover⟩ := h
    exact ⟨e, hc.trans he, hover⟩
  | .error .outOfFuel =>
    obtain ⟨n, hn⟩ := hleads
    refine not_final_of_le (M := machine s) (n := n + fuel + 1) (by omega) ?_
    rw [run_succ, run_add]
    change ¬Final ((machine s).run fuel ((machine s).run n (step s c)))
    rw [hn]
    exact h
  | .error (.logicError what) => exact hc.trans h

/-- A child is parsed, and the loop goes on with it. -/
theorem Answers.of_child {c : State} {fuel : Nat}
    (hleads : (machine s).Leads (step s c) (.running .call (f :: stack) idx))
    (hcall : Answers s (.running .call (f :: stack) idx) fuel (f :: stack) (parse s fuel idx))
    (hloop : ∀ child i, Answers s (.running (.loop (f.append child)) stack i) fuel stack
      (parseLoop s f.name fuel (f.elem.append child) i)) :
    Answers s c (fuel + 1) stack
      (match parse s fuel idx with
        | .error e => .error e
        | .ok (child, idx) =>
          parseLoop s f.name fuel (f.elem.append child) (skipWhiteSpaces s idx)) := by
  match hparse : parse s fuel idx with
  | .ok (child, i) =>
    rw [hparse] at hcall
    have hret : (machine s).Leads (step s c)
        (.running (.loop (f.append child)) stack (skipWhiteSpaces s i)) := hleads.trans (Leads.next hcall)
    exact (hloop child (skipWhiteSpaces s i)).of_leads hret
  | .error .outOfRange =>
    rw [hparse] at hcall
    have hanswer : Answers s c (fuel + 1) stack (.error .outOfRange) := .of_leads hleads hcall
    exact hanswer
  | .error .outOfFuel =>
    rw [hparse] at hcall
    have hanswer : Answers s c (fuel + 1) stack (.error .outOfFuel) := .of_leads hleads hcall
    exact hanswer
  | .error (.logicError what) =>
    rw [hparse] at hcall
    have hanswer : Answers s c (fuel + 1) stack (.error (.logicError what)) := .of_leads hleads hcall
    exact hanswer

theorem parseProlog_error {e : XmlError} (h : parseProlog s idx = .error e) :
    ∃ what, e = .logicError what := by
  unfold parseProlog at h
  dsimp only at h
  split at h
  · cases h
    exact ⟨_, rfl⟩
  · split at h
    · cases h
      exact ⟨_, rfl⟩
    · split at h
      · cases h
        exact ⟨_, rfl⟩
      · cases h

theorem atTag_iff : atTag s idx = true ↔
    charAt s idx = lt ∧ isNameStart (charAt s (idx + 1)) = true := by
  simp [atTag]

theorem answers_call {fuel : Nat}
    (hloop : ∀ (f : Frame) (stack : List Frame) (idx : Nat),
      Answers s (.running (.loop f) stack idx) fuel stack (parseLoop s f.name fuel f.elem idx))
    (stack : List Frame) (idx : Nat) :
    Answers s (.running .call stack idx) (fuel + 1) stack (parse s (fuel + 1) idx) := by
  have hstep : (machine s).Leads (.running .call stack idx) (callStep s stack idx) := .one _
  unfold callStep at hstep
  rw [parse]
  cases hprolog : parseProlog s idx with
  | error e =>
    rw [hprolog] at hstep
    obtain ⟨what, rfl⟩ := parseProlog_error hprolog
    exact hstep
  | ok i =>
    rw [hprolog] at hstep
    dsimp only at hstep ⊢
    by_cases htag : atTag s i = true
    · rw [if_pos htag] at hstep
      rw [if_pos (atTag_iff.mp htag)]
      refine Answers.of_leads ?_ (hloop (.new (parseElementName s (i + 1)).1) stack
        (skipWhiteSpaces s (parseElementName s (i + 1)).2))
      rw [step, callStep, hprolog]
      dsimp only
      rw [if_pos htag]
      exact .refl _
    · rw [if_neg htag] at hstep
      rw [if_neg (fun h => htag (atTag_iff.mpr h))]
      exact hstep

/-- The text behind a `>`, and what the loop does with it. -/
theorem leads_text {res rest : List UInt8} (hdrop : s.drop idx = res ++ lt :: rest) (hres : lt ∉ res) :
    (machine s).Leads (.running (.text f []) stack idx)
      (textStep s f res stack (idx + res.length)) := by
  have hrun := run_chars (c := fun res idx => .running (.text f res) stack idx)
    (fun res idx h => step_text h res) res [] (lt :: rest) idx hdrop hres
  exact (Leads.next ⟨_, hrun⟩ : (machine s).Leads _ _)

theorem leads_attrVal {key res rest : List UInt8} (hdrop : s.drop idx = res ++ quote :: rest)
    (hres : quote ∉ res) :
    (machine s).Leads (.running (.attrVal f key []) stack idx)
      (attrValStep s f key res stack (idx + res.length)) := by
  have hrun := run_chars (c := fun res idx => .running (.attrVal f key res) stack idx)
    (fun res idx h => step_attrVal h key res) res [] (quote :: rest) idx hdrop hres
  exact (Leads.next ⟨_, hrun⟩ : (machine s).Leads _ _)

/-- Behind the run of characters there is the mark. -/
theorem charAt_mark {mark : UInt8} {res rest : List UInt8} (hdrop : s.drop idx = res ++ mark :: rest) :
    charAt s (idx + res.length) = mark := by
  have hmark : s.drop (idx + res.length) = mark :: rest := by
    rw [← List.drop_drop, hdrop, List.drop_left]
  exact charAt_of_drop hmark

theorem textStep_mark (h : charAt s idx = lt) (res : List UInt8) :
    textStep s f res stack idx =
      if res ≠ [] then .running (.loop (f.setText res)) stack (skipWhiteSpaces s (skipWhiteSpaces s idx))
      else .running .call (f :: stack) (skipWhiteSpaces s idx) := by
  rw [textStep, if_neg (by simp [h])]

theorem attrValStep_mark (h : charAt s idx = quote) (key res : List UInt8) :
    attrValStep s f key res stack idx =
      .running (.loop (f.attr key res)) stack (skipWhiteSpaces s (idx + 1)) := by
  rw [attrValStep, if_neg (by simp [h])]

/-- What the loop does at the `>` of a start tag. -/
theorem answers_gt {fuel : Nat}
    (hcall : ∀ stack idx, Answers s (.running .call stack idx) fuel stack (parse s fuel idx))
    (hloop : ∀ (f : Frame) (stack : List Frame) (idx : Nat),
      Answers s (.running (.loop f) stack idx) fuel stack (parseLoop s f.name fuel f.elem idx))
    (hstep : step s (.running (.loop f) stack idx) =
      .running (.text f []) stack (skipWhiteSpaces s (idx + 1))) :
    Answers s (.running (.loop f) stack idx) (fuel + 1) stack
      (match parseElementText s (idx + 1) with
        | .error e => .error e
        | .ok (text, idx) =>
          let idx := skipWhiteSpaces s idx
          if text ≠ [] then parseLoop s f.name fuel (f.elem.setText text) (skipWhiteSpaces s idx)
          else
            match parse s fuel idx with
            | .error e => .error e
            | .ok (child, idx) =>
              parseLoop s f.name fuel (f.elem.append child) (skipWhiteSpaces s idx)) := by
  unfold parseElementText
  rcases readUntil_cases lt s (skipWhiteSpaces s (idx + 1)) with ⟨res, rest, hread, hdrop, hres⟩ | ⟨hread, hover⟩
  · have hleads : (machine s).Leads (.running (.text f []) stack (skipWhiteSpaces s (idx + 1))) _ :=
      leads_text hdrop hres
    rw [← hstep, textStep_mark (charAt_mark hdrop)] at hleads
    rw [hread]
    dsimp only
    by_cases hblank : res ≠ []
    · rw [if_pos hblank] at hleads ⊢
      exact (hloop (f.setText res) stack _).of_leads hleads
    · rw [if_neg hblank] at hleads ⊢
      exact Answers.of_child hleads (hcall _ _) (fun child i => hloop (f.append child) stack i)
  · rw [hread]
    refine ⟨step s (.running (.loop f) stack idx), Leads.one _, ?_⟩
    rw [hstep]
    exact hover

/-- What the loop does at an attribute. -/
theorem answers_attr {fuel : Nat}
    (hloop : ∀ (f : Frame) (stack : List Frame) (idx : Nat),
      Answers s (.running (.loop f) stack idx) fuel stack (parseLoop s f.name fuel f.elem idx))
    {key : List UInt8} {i : Nat} {c : State}
    (hstep : step s c =
      if charAt s (skipWhiteSpaces s i) ≠ quote then
        .thrown (.logic "xml element attr value should be in double quotes")
      else .running (.attrVal f key []) stack (skipWhiteSpaces s i + 1)) :
    Answers s c (fuel + 1) stack
      (match parseElementAttrVal s i with
        | .error e => .error e
        | .ok (val, idx) => parseLoop s f.name fuel (f.elem.attr key val) (skipWhiteSpaces s idx)) := by
  unfold parseElementAttrVal
  dsimp only
  by_cases hquote : charAt s (skipWhiteSpaces s i) ≠ quote
  · rw [if_pos hquote] at hstep ⊢
    have hleads := Leads.one (M := machine s) c
    change (machine s).Leads c (step s c) at hleads
    rw [hstep] at hleads
    exact hleads
  · rw [if_neg hquote] at hstep ⊢
    rcases readUntil_cases quote s (skipWhiteSpaces s i + 1) with
      ⟨res, rest, hread, hdrop, hres⟩ | ⟨hread, hover⟩
    · have hleads :
          (machine s).Leads (.running (.attrVal f key []) stack (skipWhiteSpaces s i + 1)) _ :=
        leads_attrVal hdrop hres
      rw [← hstep, attrValStep_mark (charAt_mark hdrop)] at hleads
      rw [hread]
      exact (hloop (f.attr key res) stack _).of_leads hleads
    · rw [hread]
      refine ⟨step s c, Leads.one _, ?_⟩
      rw [hstep]
      exact hover

theorem answers_loop {fuel : Nat}
    (hcall : ∀ stack idx, Answers s (.running .call stack idx) fuel stack (parse s fuel idx))
    (hloop : ∀ (f : Frame) (stack : List Frame) (idx : Nat),
      Answers s (.running (.loop f) stack idx) fuel stack (parseLoop s f.name fuel f.elem idx))
    (f : Frame) (stack : List Frame) (idx : Nat) :
    Answers s (.running (.loop f) stack idx) (fuel + 1) stack
      (parseLoop s f.name (fuel + 1) f.elem idx) := by
  have hleads : (machine s).Leads (.running (.loop f) stack idx) (loopStep s f stack idx) := .one _
  have hstep : step s (.running (.loop f) stack idx) = loopStep s f stack idx := rfl
  unfold loopStep at hstep hleads
  rw [parseLoop]
  by_cases hend : charAt s idx = 0
  · rw [if_pos hend] at hleads ⊢
    exact hleads
  rw [if_neg hend] at hstep hleads ⊢
  by_cases hgt : charAt s idx = gt
  · rw [if_pos hgt] at hstep ⊢
    exact answers_gt hcall hloop hstep
  rw [if_neg hgt] at hstep hleads ⊢
  by_cases hslash : charAt s idx = slash
  · rw [if_pos hslash] at hleads ⊢
    by_cases hempty : charAt s (idx + 1) = gt
    · rw [if_pos hempty] at hleads ⊢
      exact hleads
    · rw [if_neg hempty] at hleads ⊢
      exact hleads
  rw [if_neg hslash] at hstep hleads ⊢
  by_cases hlt : charAt s idx = lt
  · rw [if_pos hlt] at hstep hleads ⊢
    by_cases hend : charAt s (idx + 1) = slash
    · rw [if_pos hend] at hstep hleads ⊢
      cases hfind : find s (endTag f.name) idx with
      | none =>
        rw [hfind] at hleads
        exact hleads
      | some pos =>
        rw [hfind] at hstep hleads
        dsimp only at hstep hleads ⊢
        by_cases hpos : pos = idx
        · rw [if_pos hpos] at hleads ⊢
          exact hleads
        · rw [if_neg hpos] at hstep ⊢
          exact (hloop f stack _).of_leads (hstep ▸ .refl _)
    · rw [if_neg hend] at hstep hleads ⊢
      by_cases hcomment : atComment s idx = true
      · rw [if_pos hcomment] at hstep hleads ⊢
        cases hskip : parseComment s idx with
        | none =>
          rw [hskip] at hleads
          exact hleads
        | some i =>
          rw [hskip] at hstep
          exact (hloop f stack _).of_leads (hstep ▸ .refl _)
      · rw [if_neg hcomment] at hstep ⊢
        exact Answers.of_child (hstep ▸ .refl _) (hcall _ _) (fun child i => hloop (f.append child) stack i)
  · rw [if_neg hlt] at hstep hleads ⊢
    dsimp only at hstep hleads ⊢
    by_cases hequals : charAt s (skipWhiteSpaces s (parseElementAttrKey s idx).2) ≠ equals
    · rw [if_pos hequals] at hleads ⊢
      exact hleads
    · rw [if_neg hequals] at hstep ⊢
      exact answers_attr hloop hstep

/-- `parse` and `parseLoop` say what the machine does from where they are called. -/
theorem answers (s : List UInt8) (fuel : Nat) :
    (∀ stack idx, Answers s (.running .call stack idx) fuel stack (parse s fuel idx)) ∧
      ∀ (f : Frame) (stack : List Frame) (idx : Nat),
        Answers s (.running (.loop f) stack idx) fuel stack (parseLoop s f.name fuel f.elem idx) := by
  induction fuel with
  | zero =>
    refine ⟨fun stack idx => ?_, fun f stack idx => ?_⟩
    · rw [parse]
      exact id
    · rw [parseLoop]
      exact id
  | succ fuel ih =>
    exact ⟨answers_call ih.2, answers_loop ih.1 ih.2⟩

/-- The element that `parse` returns is the one that the machine comes to. -/
theorem leads_of_parse {fuel : Nat} {e : Element} {i : Nat} (h : parse s fuel 0 = .ok (e, i)) :
    (machine s).Leads start (.done e i) := by
  have hanswer := (answers s fuel).1 [] 0
  rw [h] at hanswer
  exact Leads.next hanswer

theorem charAt_ne_of_not_mem {mark : UInt8} (h : mark ∉ s.drop idx) (hmark : mark ≠ 0) :
    charAt s idx ≠ mark := by
  intro hc
  have hlt : idx < s.length := lt_of_charAt (by rwa [hc])
  apply h
  rw [List.drop_eq_getElem_cons hlt, ← charAt_eq_getElem hlt, hc]
  exact List.mem_cons_self

theorem not_mem_drop_succ {mark : UInt8} (h : mark ∉ s.drop idx) : mark ∉ s.drop (idx + 1) := by
  rw [← List.drop_drop]
  exact fun hmem => h (List.mem_of_mem_drop hmem)

/-- A loop over characters whose mark does not come any more goes on for ever. -/
theorem overruns_step {c : State} (h : Overruns s c) : Overruns s (step s c) := by
  match c, h with
  | .running (.text f res) stack idx, h =>
    rw [step_text (charAt_ne_of_not_mem h (by decide))]
    exact not_mem_drop_succ h
  | .running (.attrVal f key res) stack idx, h =>
    rw [step_attrVal (charAt_ne_of_not_mem h (by decide))]
    exact not_mem_drop_succ h

theorem not_ends_of_overruns {c : State} (h : Overruns s c) : ¬(machine s).Ends c := by
  refine not_ends_of_recurs (P := Overruns s) ?_ ?_ h
  · intro d hd hfinal
    match d, hd with
    | .running (.text _ _) _ _, _ => exact hfinal
    | .running (.attrVal _ _ _) _ _, _ => exact hfinal
  · intro d hd
    exact ⟨0, overruns_step hd⟩

/-- With enough fuel `parse` returns an element or throws. -/
def Returns (s : List UInt8) : Prop :=
  ∃ fuel, (∃ r, parse s fuel 0 = .ok r) ∨ ∃ what, parse s fuel 0 = .error (.logicError what)

theorem returns_iff_ends (s : List UInt8) : Returns s ↔ (machine s).Ends start := by
  constructor
  · rintro ⟨fuel, ⟨⟨e, i⟩, hparse⟩ | ⟨what, hparse⟩⟩
    · exact (leads_of_parse hparse).ends ⟨0, trivial⟩
    · have hanswer := (answers s fuel).1 [] 0
      rw [hparse] at hanswer
      exact Leads.ends hanswer ⟨0, trivial⟩
  · rintro ⟨n, hn⟩
    refine ⟨n, ?_⟩
    have hanswer := (answers s n).1 [] 0
    match hparse : parse s n 0 with
    | .ok r => exact .inl ⟨r, rfl⟩
    | .error (.logicError what) => exact .inr ⟨what, rfl⟩
    | .error .outOfFuel =>
      rw [hparse] at hanswer
      exact absurd hn hanswer
    | .error .outOfRange =>
      rw [hparse] at hanswer
      obtain ⟨d, hleads, hover⟩ := hanswer
      exact absurd (Ends.of_leads ⟨n, hn⟩ hleads) (not_ends_of_overruns hover)

end Xml

end Tubekit
