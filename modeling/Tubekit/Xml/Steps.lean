import Tubekit.Xml.Machine

/-!
# What a step of the parser does

`Step` has one rule for each way on, with the guards of the source, and `step_cases` reads a step
of the machine as one of them. The rest of the file is about the index: no rule moves it back
(`Step.index_le`), and outside of a loop that runs over the end it stays in the text
(`index_le_length`).
-/

namespace Tubekit

open Lib Scan Machine

namespace Xml

inductive Step (s : List UInt8) : State → State → Prop
  | callThrown {stack idx what} : parseProlog s idx = .error (.logicError what) →
      Step s (.running .call stack idx) (.thrown (.logicError what))
  | callTag {stack idx i} : parseProlog s idx = .ok i → atTag s i = true →
      Step s (.running .call stack idx)
        (.running (.loop (.new (parseElementName s (i + 1)).1)) stack
          (skipWhiteSpaces s (parseElementName s (i + 1)).2))
  | callNone {stack idx i} : parseProlog s idx = .ok i → atTag s i = false →
      Step s (.running .call stack idx) (.running (.ret .default) stack i)
  | loopEnd {f stack idx} : charAt s idx = 0 →
      Step s (.running (.loop f) stack idx) (.running (.ret f.elem) stack idx)
  | loopGt {f stack idx} : charAt s idx = gt →
      Step s (.running (.loop f) stack idx)
        (.running (.text f []) stack (skipWhiteSpaces s (idx + 1)))
  | loopEmpty {f stack idx} : charAt s idx = slash → charAt s (idx + 1) = gt →
      Step s (.running (.loop f) stack idx) (.running (.ret f.elem) stack (idx + 2))
  | loopEndTag {f stack idx} : charAt s idx = lt → charAt s (idx + 1) = slash →
      find s (endTag f.name) idx = some idx →
      Step s (.running (.loop f) stack idx)
        (.running (.ret f.elem) stack (idx + (endTag f.name).length))
  | loopOtherEndTag {f stack idx pos} : charAt s idx = lt → charAt s (idx + 1) = slash →
      find s (endTag f.name) idx = some pos → pos ≠ idx →
      Step s (.running (.loop f) stack idx) (.running (.loop f) stack (skipWhiteSpaces s idx))
  | loopComment {f stack idx i} : charAt s idx = lt → atComment s idx = true →
      parseComment s idx = some i →
      Step s (.running (.loop f) stack idx) (.running (.loop f) stack (skipWhiteSpaces s i))
  | loopChild {f stack idx} : charAt s idx = lt → charAt s (idx + 1) ≠ slash →
      atComment s idx = false →
      Step s (.running (.loop f) stack idx) (.running .call (f :: stack) idx)
  | loopAttr {f stack idx i j} : i = skipWhiteSpaces s (parseElementAttrKey s idx).2 →
      charAt s i = equals → j = skipWhiteSpaces s (i + 1) → charAt s j = quote →
      Step s (.running (.loop f) stack idx)
        (.running (.attrVal f (parseElementAttrKey s idx).1 []) stack (j + 1))
  | loopThrown {f stack idx e} : Step s (.running (.loop f) stack idx) (.thrown e)
  | textChar {f res stack idx} : charAt s idx ≠ lt →
      Step s (.running (.text f res) stack idx)
        (.running (.text f (res ++ [charAt s idx])) stack (idx + 1))
  | textEnd {f res stack idx} : charAt s idx = lt → res ≠ [] →
      Step s (.running (.text f res) stack idx) (.running (.loop (f.setText res)) stack idx)
  | textNone {f stack idx} : charAt s idx = lt →
      Step s (.running (.text f []) stack idx) (.running .call (f :: stack) idx)
  | attrValChar {f key res stack idx} : charAt s idx ≠ quote →
      Step s (.running (.attrVal f key res) stack idx)
        (.running (.attrVal f key (res ++ [charAt s idx])) stack (idx + 1))
  | attrValEnd {f key res stack idx} : charAt s idx = quote →
      Step s (.running (.attrVal f key res) stack idx)
        (.running (.loop (f.attr key res)) stack (skipWhiteSpaces s (idx + 1)))
  | retDone {e idx} : Step s (.running (.ret e) [] idx) (.done e idx)
  | retChild {e f stack idx} : Step s (.running (.ret e) (f :: stack) idx)
      (.running (.loop (f.append e)) stack (skipWhiteSpaces s idx))

namespace State

/-- `m_idx`. -/
def index : State → Nat
  | .running _ _ idx => idx
  | .done _ idx => idx
  | .thrown _ => 0

@[simp] theorem index_running (pc : Pc) (stack : List Frame) (idx : Nat) :
    (running pc stack idx).index = idx := rfl

@[simp] theorem index_done (e : Element) (idx : Nat) : (done e idx).index = idx := rfl

end State

variable {s : List UInt8} {f : Frame} {stack : List Frame} {idx i : Nat} {c d : State}

/-! ## The rules -/

/-- White space is not skipped where there is none. -/
theorem skipWhiteSpaces_of_not_space (h : isSpace (charAt s idx) = false) : skipWhiteSpaces s idx = idx := by
  have hdrop : s.drop idx = [] ++ s.drop idx := rfl
  exact skipWhile_eq hdrop (by simp) (stops_of_charAt h)

theorem skipWhiteSpaces_lt (h : charAt s idx = lt) : skipWhiteSpaces s idx = idx :=
  skipWhiteSpaces_of_not_space (by rw [h]; decide)

theorem step_call : Step s (.running .call stack idx) (callStep s stack idx) := by
  unfold callStep
  cases hprolog : parseProlog s idx with
  | error e =>
    obtain ⟨what, rfl⟩ := parseProlog_error hprolog
    exact .callThrown hprolog
  | ok i =>
    dsimp only
    cases htag : atTag s i with
    | true => exact .callTag hprolog htag
    | false => exact .callNone hprolog htag

theorem step_loop : Step s (.running (.loop f) stack idx) (loopStep s f stack idx) := by
  unfold loopStep
  split_ifs with hend hgt hslash hempty hlt hendTag hcomment
  · exact .loopEnd hend
  · exact .loopGt hgt
  · exact .loopEmpty hslash hempty
  · exact .loopThrown
  · cases hfind : find s (endTag f.name) idx with
    | none => exact .loopThrown
    | some pos =>
      dsimp only
      split_ifs with hpos
      · exact .loopEndTag hlt hendTag (hpos ▸ hfind)
      · exact .loopOtherEndTag hlt hendTag hfind hpos
  · cases hskip : parseComment s idx with
    | none => exact .loopThrown
    | some i => exact .loopComment hlt hcomment hskip
  · exact .loopChild hlt hendTag (by simpa using hcomment)
  · dsimp only
    split_ifs with hequals hquote
    · exact .loopThrown
    · exact .loopThrown
    · exact .loopAttr rfl (by simpa using hequals) rfl (by simpa using hquote)

theorem step_cases (h : ¬Final c) : Step s c (step s c) := by
  match c with
  | .running .call stack idx => exact step_call
  | .running (.loop f) stack idx => exact step_loop
  | .running (.text f res) stack idx =>
    by_cases hlt : charAt s idx = lt
    · rw [step, textStep_mark hlt, skipWhiteSpaces_lt hlt, skipWhiteSpaces_lt hlt]
      cases res with
      | nil => exact .textNone hlt
      | cons head res => exact .textEnd hlt (List.cons_ne_nil head res)
    · rw [step_text hlt]
      exact .textChar hlt
  | .running (.attrVal f key res) stack idx =>
    by_cases hquote : charAt s idx = quote
    · rw [step, attrValStep_mark hquote]
      exact .attrValEnd hquote
    · rw [step_attrVal hquote]
      exact .attrValChar hquote
  | .running (.ret e) [] idx => exact .retDone
  | .running (.ret e) (f :: stack) idx => exact .retChild
  | .done _ _ => exact absurd trivial h
  | .thrown _ => exact absurd trivial h

/-! ## The index -/

theorem le_skipWhiteSpaces (s : List UInt8) (idx : Nat) : idx ≤ skipWhiteSpaces s idx :=
  Nat.le_add_right _ _

theorem skipWhiteSpaces_le (h : idx ≤ s.length) : skipWhiteSpaces s idx ≤ s.length :=
  (skipWhile_le h).2

theorem le_of_parseDeclaration (h : parseDeclaration s idx = some i) : idx < i ∧ i ≤ s.length := by
  obtain ⟨pos, hfind, rfl⟩ := Option.map_eq_some_iff.mp h
  have hpos := le_of_find hfind
  simp only [List.length_cons, List.length_nil] at hpos
  omega

theorem le_of_parseComment (h : parseComment s idx = some i) : idx < i ∧ i ≤ s.length := by
  obtain ⟨pos, hfind, rfl⟩ := Option.map_eq_some_iff.mp h
  have hpos := le_of_find hfind
  simp only [List.length_cons, List.length_nil] at hpos
  omega

theorem le_parseElementName (s : List UInt8) (idx : Nat) : idx ≤ (parseElementName s idx).2 := by
  have hskip := le_skipWhiteSpaces s idx
  unfold parseElementName
  dsimp only
  split_ifs with hstart
  · unfold skipWhile
    dsimp only
    omega
  · exact hskip

theorem parseElementName_le (h : idx ≤ s.length) : (parseElementName s idx).2 ≤ s.length := by
  unfold parseElementName
  dsimp only
  split_ifs with hstart
  · have hlt : skipWhiteSpaces s idx < s.length := by
      apply lt_of_charAt
      intro hzero
      rw [hzero] at hstart
      exact absurd hstart (by decide)
    exact (skipWhile_le hlt).2
  · exact skipWhiteSpaces_le h

/-- What `parse` skips before the element. -/
theorem parseProlog_ok (h : parseProlog s idx = .ok i) :
    charAt s (skipWhiteSpaces s idx) ≠ 0 ∧ ∃ j k,
      (atDeclaration s (skipWhiteSpaces s idx) = false ∧ j = skipWhiteSpaces s idx ∨
        parseDeclaration s (skipWhiteSpaces s idx) = some j) ∧
      (atComment s (skipWhiteSpaces s j) = false ∧ k = skipWhiteSpaces s j ∨
        parseComment s (skipWhiteSpaces s j) = some k) ∧ i = skipWhiteSpaces s k := by
  have hskipped : ∀ {b : Bool} {o : Option Nat} {i j : Nat},
      (if b then o else some i) = some j → b = false ∧ j = i ∨ o = some j := by
    intro b o i j hif
    cases b with
    | true => exact .inr hif
    | false => exact .inl ⟨rfl, (Option.some.inj hif).symm⟩
  unfold parseProlog at h
  dsimp only at h
  by_cases hblank : skipWhiteSpaces s idx = s.length ∨ charAt s (skipWhiteSpaces s idx) = 0
  · rw [if_pos hblank] at h
    cases h
  rw [if_neg hblank] at h
  refine ⟨fun hzero => hblank (.inr hzero), ?_⟩
  split at h
  · cases h
  next j hdecl =>
    split at h
    · cases h
    next k hcomment =>
      cases h
      exact ⟨j, k, hskipped hdecl, hskipped hcomment, rfl⟩

theorem skipWhiteSpaces_le_of_parseProlog (h : parseProlog s idx = .ok i) :
    skipWhiteSpaces s idx ≤ i := by
  obtain ⟨-, j, k, hdecl, hcomment, rfl⟩ := parseProlog_ok h
  have hj : skipWhiteSpaces s idx ≤ j := by
    rcases hdecl with ⟨-, rfl⟩ | hdecl
    · exact Nat.le_refl _
    · exact (le_of_parseDeclaration hdecl).1.le
  have hk : skipWhiteSpaces s j ≤ k := by
    rcases hcomment with ⟨-, rfl⟩ | hcomment
    · exact Nat.le_refl _
    · exact (le_of_parseComment hcomment).1.le
  have hskip := le_skipWhiteSpaces s j
  have hlast := le_skipWhiteSpaces s k
  omega

theorem le_of_parseProlog (h : parseProlog s idx = .ok i) : idx ≤ i :=
  (le_skipWhiteSpaces s idx).trans (skipWhiteSpaces_le_of_parseProlog h)

theorem parseProlog_le (hidx : idx ≤ s.length) (h : parseProlog s idx = .ok i) : i ≤ s.length := by
  obtain ⟨-, j, k, hdecl, hcomment, rfl⟩ := parseProlog_ok h
  have hj : j ≤ s.length := by
    rcases hdecl with ⟨-, rfl⟩ | hdecl
    · exact skipWhiteSpaces_le hidx
    · exact (le_of_parseDeclaration hdecl).2
  have hk : k ≤ s.length := by
    rcases hcomment with ⟨-, rfl⟩ | hcomment
    · exact skipWhiteSpaces_le hj
    · exact (le_of_parseComment hcomment).2
  exact skipWhiteSpaces_le hk

theorem lt_callTag (h : parseProlog s idx = .ok i) :
    idx < skipWhiteSpaces s (parseElementName s (i + 1)).2 := by
  have hi := le_of_parseProlog h
  have hname := le_parseElementName s (i + 1)
  have hskip := le_skipWhiteSpaces s (parseElementName s (i + 1)).2
  omega

theorem lt_skipWhiteSpaces_succ (s : List UInt8) (idx : Nat) : idx < skipWhiteSpaces s (idx + 1) :=
  le_skipWhiteSpaces s (idx + 1)

theorem lt_loopComment (h : parseComment s idx = some i) : idx < skipWhiteSpaces s i :=
  (le_of_parseComment h).1.trans_le (le_skipWhiteSpaces s i)

theorem lt_loopAttr {j : Nat} (hi : i = skipWhiteSpaces s (parseElementAttrKey s idx).2)
    (hj : j = skipWhiteSpaces s (i + 1)) : idx < j + 1 := by
  have hkey : idx ≤ (parseElementAttrKey s idx).2 := le_parseElementName s idx
  have hafter := le_skipWhiteSpaces s (parseElementAttrKey s idx).2
  have hval := le_skipWhiteSpaces s (i + 1)
  omega

/-- No step moves the index back. -/
theorem Step.index_le (h : Step s c d) : (∃ e, d = .thrown e) ∨ c.index ≤ d.index := by
  cases h with
  | callThrown | loopThrown => exact .inl ⟨_, rfl⟩
  | callTag hprolog htag => exact .inr (lt_callTag hprolog).le
  | callNone hprolog htag => exact .inr (le_of_parseProlog hprolog)
  | loopGt hgt => exact .inr (lt_skipWhiteSpaces_succ s _).le
  | loopComment hlt hcomment hskip => exact .inr (lt_loopComment hskip).le
  | loopAttr hi hequals hj hquote => exact .inr (lt_loopAttr hi hj).le
  | attrValEnd hquote => exact .inr (lt_skipWhiteSpaces_succ s _).le
  | loopOtherEndTag | retChild => exact .inr (le_skipWhiteSpaces s _)
  | loopEnd | loopEmpty | loopEndTag | loopChild | textChar | textEnd | textNone | attrValChar | retDone =>
    simp

theorem index_le_of_leads (h : (machine s).Leads c d) : (∃ e, d = .thrown e) ∨ c.index ≤ d.index := by
  refine h.keeps (P := fun d => (∃ e, d = .thrown e) ∨ c.index ≤ d.index) (.inr (Nat.le_refl _)) ?_
  intro d _ hfinal hd
  rcases hd with ⟨e, rfl⟩ | hd
  · exact absurd trivial hfinal
  · exact (step_cases hfinal).index_le.imp_right hd.trans

/-- A step stays in the text, or it is in a loop that runs over the end. -/
theorem Step.index_le_length (h : Step s c d) (hc : c.index ≤ s.length) :
    Overruns s d ∨ d.index ≤ s.length := by
  have hchar : ∀ {i : Nat} {mark : UInt8}, mark ≠ 0 → charAt s i = mark → i < s.length := by
    intro i mark hmark hi
    exact lt_of_charAt (by rwa [hi])
  cases h with
  | callThrown | loopThrown => exact .inr (Nat.zero_le _)
  | callTag hprolog htag =>
    have hi := hchar (by decide) (atTag_iff.mp htag).1
    exact .inr (skipWhiteSpaces_le (parseElementName_le hi))
  | callNone hprolog htag => exact .inr (parseProlog_le hc hprolog)
  | loopEnd | loopChild | textEnd | textNone | retDone => exact .inr hc
  | loopGt hgt => exact .inr (skipWhiteSpaces_le (hchar (by decide) hgt))
  | loopEmpty hslash hgt => exact .inr (hchar (by decide) hgt)
  | loopEndTag hlt hslash hfind => exact .inr (le_of_find hfind).2
  | loopComment hlt hcomment hskip => exact .inr (skipWhiteSpaces_le (le_of_parseComment hskip).2)
  | loopAttr hi hequals hj hquote => exact .inr (hchar (by decide) hquote)
  | attrValEnd hquote => exact .inr (skipWhiteSpaces_le (hchar (by decide) hquote))
  | loopOtherEndTag | retChild => exact .inr (skipWhiteSpaces_le hc)
  | @textChar f res stack idx hlt =>
    by_cases hidx : idx < s.length
    · exact .inr hidx
    · exact .inl (by rw [Overruns, List.drop_eq_nil_of_le (by omega)]; exact List.not_mem_nil)
  | @attrValChar f key res stack idx hquote =>
    by_cases hidx : idx < s.length
    · exact .inr hidx
    · exact .inl (by rw [Overruns, List.drop_eq_nil_of_le (by omega)]; exact List.not_mem_nil)

theorem index_le_length (h : Visits s c) : Overruns s c ∨ c.index ≤ s.length := by
  refine h.keeps (P := fun c => Overruns s c ∨ c.index ≤ s.length) (.inr (Nat.zero_le _)) ?_
  intro d _ hfinal hd
  rcases hd with hover | hd
  · exact .inl (overruns_step hover)
  · exact (step_cases hfinal).index_le_length hd

end Xml

end Tubekit
