import Tubekit.Xml.Steps

/-!
# The elements that the parser makes up

Where a call that the loop has made comes to no start tag, the default element becomes a child. The
elements of the result are all named exactly if there is no such call (`allNamed_iff`). A nameless
element is never taken out again: `State.Has` follows it from the frame it is appended to into the
result, and without such a call all elements that are being built stay named (`State.Named`).
-/

namespace Tubekit

open Lib Scan Machine

namespace Xml

namespace Element

def name : Element → List UInt8
  | .mk name _ _ _ => name

def children : Element → List Element
  | .mk _ _ _ children => children

/-- `d` is a child of `e`, or a child of a child, and so on. -/
inductive Descendant : Element → Element → Prop
  | child {d e} : d ∈ e.children → Descendant d e
  | deeper {d child e} : child ∈ e.children → Descendant d child → Descendant d e

/-- Every descendant has a name. -/
def AllNamed (e : Element) : Prop := ∀ d, Descendant d e → d.name ≠ []

variable {d e child : Element} {key val name text : List UInt8}

@[simp] theorem name_setText : (e.setText text).name = e.name := by cases e; rfl

@[simp] theorem children_setText : (e.setText text).children = e.children := by cases e; rfl

@[simp] theorem name_attr : (e.attr key val).name = e.name := by cases e; rfl

@[simp] theorem children_attr : (e.attr key val).children = e.children := by cases e; rfl

@[simp] theorem name_append : (e.append child).name = e.name := by cases e; rfl

@[simp] theorem children_append : (e.append child).children = e.children ++ [child] := by
  cases e
  rfl

@[simp] theorem name_setName : (e.setName name).name = name := by cases e; rfl

@[simp] theorem children_setName : (e.setName name).children = e.children := by cases e; rfl

theorem allNamed_iff_children :
    e.AllNamed ↔ ∀ child ∈ e.children, child.name ≠ [] ∧ child.AllNamed := by
  constructor
  · intro h child hchild
    exact ⟨h child (.child hchild), fun d hd => h d (.deeper hchild hd)⟩
  · intro h d hd
    cases hd with
    | child hchild => exact (h d hchild).1
    | deeper hchild hd => exact (h _ hchild).2 d hd

theorem allNamed_of_children_eq_nil (h : e.children = []) : e.AllNamed := by
  rw [allNamed_iff_children, h]
  intro child hchild
  cases hchild

theorem allNamed_congr (h : d.children = e.children) : d.AllNamed ↔ e.AllNamed := by
  rw [allNamed_iff_children, allNamed_iff_children, h]

theorem allNamed_append :
    (e.append child).AllNamed ↔ e.AllNamed ∧ child.name ≠ [] ∧ child.AllNamed := by
  rw [allNamed_iff_children, allNamed_iff_children, children_append, List.forall_mem_append]
  simp

end Element

open Element

/-! ## The elements that are being built -/

def Pc.elems : Pc → List Element
  | .call => []
  | .loop f | .text f _ | .attrVal f _ _ => [f.elem]
  | .ret e => [e]

/-- The elements that are not finished or not appended, the innermost first. -/
def State.elems : State → List Element
  | .running pc stack _ => pc.elems ++ stack.map Frame.elem
  | .done e _ => [e]
  | .thrown _ => []

/-- What a step does to them where it does not make one up. -/
inductive Builds : List Element → List Element → Prop
  | opens {name elems} : name ≠ [] → Builds elems (default.setName name :: elems)
  | fills {e e' elems} : e'.name = e.name → e'.children = e.children →
      Builds (e :: elems) (e' :: elems)
  | closes {e f elems} : Builds (e :: f :: elems) (f.append e :: elems)

variable {s : List UInt8} {f : Frame} {stack : List Frame} {idx i : Nat} {c d : State}

theorem name_ne_nil (h : atTag s idx = true) : (parseElementName s (idx + 1)).1 ≠ [] := by
  have hstart := (atTag_iff.mp h).2
  rw [parseElementName, skipWhiteSpaces_of_not_space (isNameStart_ne hstart).1, if_pos hstart]
  exact List.cons_ne_nil _ _

theorem Step.builds (h : Step s c d) :
    (∃ e, d = .thrown e) ∨ Builds c.elems d.elems ∨
      ∃ stack idx i, c = .running .call stack idx ∧ parseProlog s idx = .ok i ∧ atTag s i = false ∧
        d = .running (.ret .default) stack i := by
  cases h with
  | callThrown | loopThrown => exact .inl ⟨_, rfl⟩
  | callNone hprolog htag => exact .inr (.inr ⟨_, _, _, rfl, hprolog, htag, rfl⟩)
  | callTag hprolog htag => exact .inr (.inl (.opens (name_ne_nil htag)))
  | retChild => exact .inr (.inl .closes)
  | textEnd => exact .inr (.inl (.fills name_setText children_setText))
  | attrValEnd => exact .inr (.inl (.fills name_attr children_attr))
  | loopEnd | loopGt | loopEmpty | loopEndTag | loopOtherEndTag | loopComment | loopChild | loopAttr
    | textChar | textNone | attrValChar | retDone => exact .inr (.inl (.fills rfl rfl))

/-! ## A nameless element stays -/

theorem Builds.not_allNamed {elems elems' : List Element} (h : Builds elems elems')
    (helems : ∃ e ∈ elems, ¬e.AllNamed) : ∃ e ∈ elems', ¬e.AllNamed := by
  obtain ⟨e, hmem, he⟩ := helems
  cases h with
  | opens hname => exact ⟨e, List.mem_cons_of_mem _ hmem, he⟩
  | @fills e₁ e₂ elems hname hchildren =>
    rcases List.mem_cons.mp hmem with rfl | hmem
    · exact ⟨e₂, List.mem_cons_self, by rwa [allNamed_congr hchildren]⟩
    · exact ⟨e, List.mem_cons_of_mem _ hmem, he⟩
  | @closes child f elems =>
    rcases List.mem_cons.mp hmem with rfl | hmem
    · exact ⟨f.append e, List.mem_cons_self, fun h => he (allNamed_append.mp h).2.2⟩
    · rcases List.mem_cons.mp hmem with rfl | hmem
      · exact ⟨e.append child, List.mem_cons_self, fun h => he (allNamed_append.mp h).1⟩
      · exact ⟨e, List.mem_cons_of_mem _ hmem, he⟩

/-- What is built before the end has nameless elements only if the result has. -/
theorem not_allNamed_of_leads {e : Element} (h : (machine s).Leads c (.done e i))
    (hc : ∃ e ∈ c.elems, ¬e.AllNamed) : ¬e.AllNamed := by
  have hdone := h.keeps (P := fun c => (∃ e, c = .thrown e) ∨ ∃ e ∈ c.elems, ¬e.AllNamed) (.inr hc) ?_
  · rcases hdone with ⟨e, hthrown⟩ | ⟨e, hmem, he⟩
    · cases hthrown
    · rwa [← List.mem_singleton.mp hmem]
  · intro d _ hfinal hd
    rcases hd with ⟨e, rfl⟩ | hd
    · exact absurd trivial hfinal
    have hstep : Step s d (step s d) := step_cases hfinal
    rcases hstep.builds with hthrown | hbuilds | ⟨stack, idx, i, rfl, -, -, hnext⟩
    · exact .inl hthrown
    · exact .inr (hbuilds.not_allNamed hd)
    · obtain ⟨e, hmem, he⟩ := hd
      refine .inr ⟨e, ?_, he⟩
      change e ∈ (step s (.running .call stack idx)).elems
      rw [hnext]
      exact List.mem_cons_of_mem _ hmem

/-! ## Named elements stay named -/

/-- All have named descendants, and all but the outermost one a name. -/
def Named (elems : List Element) : Prop :=
  (∀ e ∈ elems, e.AllNamed) ∧ ∀ e ∈ elems.dropLast, e.name ≠ []

theorem named_cons {e : Element} {elems : List Element} :
    Named (e :: elems) ↔ e.AllNamed ∧ (elems ≠ [] → e.name ≠ []) ∧ Named elems := by
  unfold Named
  cases elems with
  | nil => simp
  | cons e' elems =>
    rw [List.dropLast_cons_of_ne_nil (List.cons_ne_nil e' elems)]
    simp only [List.forall_mem_cons, ne_eq, reduceCtorEq, not_false_eq_true, forall_const]
    tauto

theorem Builds.named {elems elems' : List Element} (h : Builds elems elems') (helems : Named elems) :
    Named elems' := by
  cases h with
  | @opens name _ hname =>
    refine named_cons.mpr ⟨allNamed_of_children_eq_nil children_setName, fun _ => ?_, helems⟩
    rwa [name_setName]
  | fills hname hchildren =>
    obtain ⟨hall, hne, hrest⟩ := named_cons.mp helems
    refine named_cons.mpr ⟨(allNamed_congr hchildren).mpr hall, ?_, hrest⟩
    rwa [hname]
  | closes =>
    obtain ⟨hchild, hchildname, hparent⟩ := named_cons.mp helems
    obtain ⟨hall, hne, hrest⟩ := named_cons.mp hparent
    have happend := allNamed_append.mpr ⟨hall, hchildname (List.cons_ne_nil _ _), hchild⟩
    refine named_cons.mpr ⟨happend, ?_, hrest⟩
    rwa [name_append]

/-- Where every call in the loop comes to a start tag, only named elements are built. -/
theorem named_of_visits
    (h : ∀ f stack idx j, Visits s (.running .call (f :: stack) idx) → parseProlog s idx = .ok j →
      atTag s j = true) (hc : Visits s c) : Named c.elems := by
  refine hc.keeps (P := fun c => Named c.elems) ⟨by simp [start, State.elems, Pc.elems], by
    simp [start, State.elems, Pc.elems]⟩ ?_
  intro d hd hfinal hnamed
  have hstep : Step s d (step s d) := step_cases hfinal
  change Named (step s d).elems
  rcases hstep.builds with ⟨e, hthrown⟩ | hbuilds | ⟨stack, idx, i, rfl, hprolog, htag, hnext⟩
  · rw [hthrown]
    exact ⟨by simp [State.elems], by simp [State.elems]⟩
  · exact hbuilds.named hnamed
  · rw [hnext]
    cases stack with
    | nil => exact named_cons.mpr ⟨allNamed_of_children_eq_nil rfl, fun h => absurd rfl h, hnamed⟩
    | cons f stack =>
      rw [h f stack idx i hd hprolog] at htag
      cases htag

/-- The elements below the one that `parse` returns are named exactly if every call that the loop
made came to a start tag. -/
theorem allNamed_iff {fuel : Nat} {e : Element} (h : parse s fuel 0 = .ok (e, i)) :
    e.AllNamed ↔ ∀ f stack idx j, Visits s (.running .call (f :: stack) idx) →
      parseProlog s idx = .ok j → atTag s j = true := by
  have hdone := leads_of_parse h
  constructor
  · intro hall f stack idx j hvisits hprolog
    by_contra htag
    have hnext : step s (.running .call (f :: stack) idx) = .running (.ret .default) (f :: stack) j := by
      rw [step, callStep, hprolog]
      dsimp only
      rw [if_neg htag]
    have hloop : Visits s (.running (.loop (f.append .default)) stack (skipWhiteSpaces s j)) := by
      have hret := hvisits.next
      change Visits s (step s (.running .call (f :: stack) idx)) at hret
      rw [hnext] at hret
      exact Leads.next hret
    have hnameless : ¬(f.elem.append .default).AllNamed := fun h => (allNamed_append.mp h).2.1 rfl
    exact not_allNamed_of_leads (Leads.of_final hdone trivial hloop)
      ⟨_, List.mem_cons_self, hnameless⟩ hall
  · intro hcalls
    exact (named_of_visits hcalls hdone).1 e List.mem_cons_self

/-- `<a><b>x</b></a>`. -/
def nested : List UInt8 := [60, 97, 62, 60, 98, 62, 120, 60, 47, 98, 62, 60, 47, 97, 62]

theorem parse_nested :
    parse nested 20 0 = .ok (.mk [97] [] .empty [.mk [98] [120] .empty []], 15) := rfl

theorem allNamed_iff_nested :
    AllNamed (.mk [97] [] .empty [.mk [98] [120] .empty []]) ↔ ∀ f stack idx j,
      Visits nested (.running .call (f :: stack) idx) → parseProlog nested idx = .ok j →
      atTag nested j = true :=
  allNamed_iff parse_nested

/-- `<a></a>`: the element has a child. -/
theorem not_allNamed_empty :
    ∃ e, parse [60, 97, 62, 60, 47, 97, 62] 10 0 = .ok (e, 7) ∧ e.name ≠ [] ∧ ¬e.AllNamed :=
  ⟨_, rfl, by decide, fun h => h .default (.child List.mem_cons_self) rfl⟩

end Xml

end Tubekit
