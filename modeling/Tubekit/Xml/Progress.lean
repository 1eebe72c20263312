import Tubekit.Xml.Steps

/-!
# Where the parser makes no progress

`parse` ends on a text exactly if it comes to no place where it stalls (`returns_iff`). There are
three kinds of them: the end tag of another element while its own stands further on, a `<` with no
tag behind it, and a text or an attribute value that runs over the end. The loop and the calls of
`parse` in it move the index on exactly if moreover no call is made where it has nothing to read.

The other direction goes by a measure. A step that does not move the index leads to a place of
lower rank; at the end of the text the stack gets shorter.
-/

namespace Tubekit

open Lib Scan Machine

namespace Xml

/-- A `<` with neither a name, nor a declaration, nor a comment. -/
def NoTag (s : List UInt8) (idx : Nat) : Prop :=
  charAt s idx = lt ∧ isNameStart (charAt s (idx + 1)) = false ∧
    atDeclaration s idx = false ∧ atComment s idx = false

instance (s : List UInt8) (idx : Nat) : Decidable (NoTag s idx) :=
  inferInstanceAs (Decidable (_ ∧ _ ∧ _ ∧ _))

/-- The parser does not get on from here. -/
def Stalls (s : List UInt8) : State → Prop
  | .running (.loop f) _ idx =>
    charAt s idx = lt ∧
      (charAt s (idx + 1) = slash ∧ (∃ pos, find s (endTag f.name) idx = some pos ∧ pos ≠ idx) ∨
        charAt s (idx + 1) ≠ slash ∧ NoTag s idx)
  | c => Overruns s c

/-- The loop calls `parse` where it has nothing to read. -/
def Idles (s : List UInt8) : State → Prop
  | .running .call (_ :: _) idx => NoTag s idx
  | _ => False

/-- The call of `parse` that has this stack below it is not over. -/
def State.Within (stack : List Frame) : State → Prop
  | .running _ stack' _ => stack <:+ stack'
  | _ => False

/-- The call of `parse` with this stack goes on for `n` steps. -/
def GoesOn (s : List UInt8) (stack : List Frame) (c : State) (n : Nat) : Prop :=
  ∀ k ≤ n, ((machine s).run k c).Within stack

/-- When a loop comes to its test again, its index has moved on. -/
def IterationsAdvance (s : List UInt8) : Prop :=
  ∀ f stack idx n f' idx', Visits s (.running (.loop f) stack idx) → 0 < n →
    GoesOn s stack (.running (.loop f) stack idx) n →
    (machine s).run n (.running (.loop f) stack idx) = .running (.loop f') stack idx' → idx < idx'

/-- When a call that a loop has made returns, the index has moved on. -/
def CallsAdvance (s : List UInt8) : Prop :=
  ∀ f stack idx n e idx', Visits s (.running .call (f :: stack) idx) →
    GoesOn s (f :: stack) (.running .call (f :: stack) idx) n →
    (machine s).run n (.running .call (f :: stack) idx) = .running (.ret e) (f :: stack) idx' →
    idx < idx'

variable {s : List UInt8} {f : Frame} {stack : List Frame} {idx i : Nat} {c d : State}

/-! ## A `<` with no tag -/

theorem parseProlog_noTag (h : NoTag s idx) : parseProlog s idx = .ok idx := by
  obtain ⟨hlt, hname, hdecl, hcomment⟩ := h
  have hzero : charAt s idx ≠ 0 := by
    rw [hlt]
    decide
  have hlength : idx ≠ s.length := (lt_of_charAt hzero).ne
  unfold parseProlog
  simp only [skipWhiteSpaces_lt hlt, hdecl, hcomment, hzero, hlength, or_self, if_false,
    Bool.false_eq_true]

/-- A call there returns at once. -/
theorem step_call_noTag (h : NoTag s idx) :
    step s (.running .call stack idx) = .running (.ret .default) stack idx := by
  have htag : atTag s idx = false := by
    rw [atTag, h.2.1, Bool.and_false]
  rw [step, callStep, parseProlog_noTag h]
  dsimp only
  rw [htag, if_neg (by decide)]

/-- A call that comes to no tag has skipped something, or there is nothing. -/
theorem noTag_of_parseProlog (hlt : charAt s idx = lt) (h : parseProlog s idx = .ok i)
    (htag : atTag s i = false) : idx < i ∨ NoTag s idx := by
  obtain ⟨-, j, k, hdecl, hcomment, rfl⟩ := parseProlog_ok h
  rw [skipWhiteSpaces_lt hlt] at hdecl
  have hk := le_skipWhiteSpaces s k
  have hj := le_skipWhiteSpaces s j
  rcases hdecl with ⟨hdecl, rfl⟩ | hdecl
  · rw [skipWhiteSpaces_lt hlt] at hcomment
    rcases hcomment with ⟨hcomment, rfl⟩ | hcomment
    · rw [skipWhiteSpaces_lt hlt, atTag, hlt] at htag
      exact .inr ⟨hlt, by simpa using htag, hdecl, hcomment⟩
    · exact .inl ((le_of_parseComment hcomment).1.trans_le hk)
  · have hdecl' := (le_of_parseDeclaration hdecl).1
    rcases hcomment with ⟨-, rfl⟩ | hcomment
    · exact .inl (by omega)
    · have hcomment' := (le_of_parseComment hcomment).1
      exact .inl (by omega)

/-! ## Stalled runs -/

theorem stalls_of_overruns (h : Overruns s c) : Stalls s c := by
  match c, h with
  | .running (.text _ _) _ _, h => exact h
  | .running (.attrVal _ _ _) _ _, h => exact h

/-- A stalled parser is soon stalled again. -/
theorem stalls_recurs (h : Stalls s c) : ∃ n, Stalls s ((machine s).run (n + 1) c) := by
  match c with
  | .running (.loop f) stack idx =>
    obtain ⟨hlt, ⟨hslash, pos, hfind, hpos⟩ | ⟨hslash, hno⟩⟩ := h
    · have hstep : step s (.running (.loop f) stack idx) = .running (.loop f) stack idx := by
        rw [step, loopStep, hlt, if_neg (by decide), if_neg (by decide), if_neg (by decide),
          if_pos rfl, if_pos hslash, hfind]
        dsimp only
        rw [if_neg hpos, skipWhiteSpaces_lt hlt]
      refine ⟨0, ?_⟩
      change Stalls s (step s (.running (.loop f) stack idx))
      rw [hstep]
      exact ⟨hlt, .inl ⟨hslash, pos, hfind, hpos⟩⟩
    · have hcall : step s (.running (.loop f) stack idx) = .running .call (f :: stack) idx := by
        rw [step, loopStep, hlt, if_neg (by decide), if_neg (by decide), if_neg (by decide),
          if_pos rfl, if_neg hslash, hno.2.2.2, if_neg (by decide)]
      refine ⟨2, ?_⟩
      change Stalls s (step s (step s (step s (.running (.loop f) stack idx))))
      rw [hcall, step_call_noTag hno, step, retStep, skipWhiteSpaces_lt hlt]
      exact ⟨hlt, .inr ⟨hslash, hno⟩⟩
  | .running (.text f res) stack idx =>
    have hover : Overruns s (.running (.text f res) stack idx) := h
    exact ⟨0, stalls_of_overruns (overruns_step hover)⟩
  | .running (.attrVal f key res) stack idx =>
    have hover : Overruns s (.running (.attrVal f key res) stack idx) := h
    exact ⟨0, stalls_of_overruns (overruns_step hover)⟩

theorem not_ends_of_stalls (h : Stalls s c) : ¬(machine s).Ends c := by
  refine not_ends_of_recurs (P := Stalls s) ?_ (fun d hd => stalls_recurs hd) h
  intro d hd hfinal
  match d with
  | .running _ _ _ => exact hfinal

/-! ## The measure -/

/-- The place of a state among those at the same index. -/
def rank (s : List UInt8) : State → Nat
  | .running .call _ idx => if charAt s idx = lt ∧ ¬NoTag s idx then 1 else 4
  | .running (.loop _) stack idx => if charAt s idx = 0 then 2 * stack.length + 2 else 2
  | .running (.text _ _) _ _ => 5
  | .running (.attrVal _ _ _) _ _ => 0
  | .running (.ret _) stack idx => if charAt s idx = 0 then 2 * stack.length + 1 else 3
  | _ => 0

/-- The characters that are left, one more while the parser is running, and the rank. -/
def measure (s : List UInt8) : State → Nat × Nat
  | .running pc stack idx => (s.length + 1 - idx, rank s (.running pc stack idx))
  | _ => (0, 0)

/-- A step that is not stalled moves the index on or leads to a lower rank. -/
theorem Step.progress (h : Step s c d) (hstalls : ¬Stalls s c) :
    Final d ∨ c.index < d.index ∨ c.index = d.index ∧ rank s d < rank s c := by
  have hzero : lt ≠ 0 := by decide
  cases h with
  | callThrown | loopThrown | retDone => exact .inl trivial
  | callTag hprolog htag => exact .inr (.inl (lt_callTag hprolog))
  | @callNone stack idx i hprolog htag =>
    rcases (le_of_parseProlog hprolog).lt_or_eq with hlt | rfl
    · exact .inr (.inl hlt)
    · have hchar : charAt s idx ≠ 0 := by
        have hskip := skipWhiteSpaces_le_of_parseProlog hprolog
        rw [← hskip.antisymm (le_skipWhiteSpaces s idx)]
        exact (parseProlog_ok hprolog).1
      have hcall : ¬(charAt s idx = lt ∧ ¬NoTag s idx) := by
        rintro ⟨hlt, hno⟩
        rcases noTag_of_parseProlog hlt hprolog htag with hidx | htag
        · exact absurd hidx (Nat.lt_irrefl _)
        · exact hno htag
      refine .inr (.inr ⟨rfl, ?_⟩)
      rw [rank, rank, if_neg hchar, if_neg hcall]
      decide
  | loopEnd hend =>
    refine .inr (.inr ⟨rfl, ?_⟩)
    rw [rank, rank, if_pos hend, if_pos hend]
    exact Nat.lt_succ_self _
  | loopGt hgt => exact .inr (.inl (lt_skipWhiteSpaces_succ s _))
  | loopEmpty hslash hgt => exact .inr (.inl (Nat.lt_add_of_pos_right (by decide)))
  | loopEndTag hlt hslash hfind => exact .inr (.inl (Nat.lt_add_of_pos_right (Nat.succ_pos _)))
  | loopOtherEndTag hlt hslash hfind hpos => exact absurd ⟨hlt, .inl ⟨hslash, _, hfind, hpos⟩⟩ hstalls
  | loopComment hlt hcomment hskip => exact .inr (.inl (lt_loopComment hskip))
  | @loopChild f stack idx hlt hslash hcomment =>
    have hno : ¬NoTag s idx := fun hno => hstalls ⟨hlt, .inr ⟨hslash, hno⟩⟩
    refine .inr (.inr ⟨rfl, ?_⟩)
    rw [rank, rank, if_pos ⟨hlt, hno⟩, if_neg (by rwa [hlt])]
    decide
  | loopAttr hi hequals hj hquote => exact .inr (.inl (lt_loopAttr hi hj))
  | textChar | attrValChar => exact .inr (.inl (Nat.lt_succ_self _))
  | textEnd hlt hres =>
    refine .inr (.inr ⟨rfl, ?_⟩)
    rw [rank, rank, if_neg (by rwa [hlt])]
    decide
  | textNone hlt =>
    refine .inr (.inr ⟨rfl, ?_⟩)
    rw [rank, rank]
    split_ifs <;> decide
  | attrValEnd hquote => exact .inr (.inl (lt_skipWhiteSpaces_succ s _))
  | @retChild e f stack idx =>
    rcases (le_skipWhiteSpaces s idx).lt_or_eq with hlt | heq
    · exact .inr (.inl hlt)
    · refine .inr (.inr ⟨heq, ?_⟩)
      rw [rank, rank, ← heq, List.length_cons]
      split_ifs <;> omega

/-- A parser that is never stalled is done some time. -/
theorem ends_of_not_stalls (h : ∀ c, Visits s c → ¬Stalls s c) : (machine s).Ends start := by
  have hbound : ∀ c, Visits s c → c.index ≤ s.length := by
    intro c hc
    exact (index_le_length hc).resolve_left fun hover => h c hc (stalls_of_overruns hover)
  apply ends_of_measure (WellFounded.prod_lex wellFounded_lt wellFounded_lt) (measure s)
  intro c hc hfinal
  change Prod.Lex (· < ·) (· < ·) (measure s (step s c)) (measure s c)
  have hidx := hbound c hc
  have hnext : (step s c).index ≤ s.length := hbound _ hc.next
  have hprogress := (step_cases hfinal).progress (h c hc)
  generalize step s c = d at hnext hprogress
  match c, d with
  | .done _ _, _ => exact absurd trivial hfinal
  | .thrown _, _ => exact absurd trivial hfinal
  | .running pc stack idx, .done _ _ =>
    simp only [State.index_running] at hidx
    exact .left _ _ (by omega)
  | .running pc stack idx, .thrown _ =>
    simp only [State.index_running] at hidx
    exact .left _ _ (by omega)
  | .running pc stack idx, .running pc' stack' idx' =>
    simp only [State.index_running] at hidx hnext hprogress
    rcases hprogress with hfinal | hlt | ⟨rfl, hrank⟩
    · exact absurd hfinal id
    · exact .left _ _ (by omega)
    · exact .right _ hrank

/-! ## The iterations and the calls -/

/-- The loop calls `parse` only at a `<`. -/
theorem call_lt (h : Visits s (.running .call (f :: stack) idx)) : charAt s idx = lt := by
  have hcall := h.keeps (P := fun c => ∀ f stack idx, c = .running .call (f :: stack) idx → charAt s idx = lt)
    (by intro f stack idx hstart; cases hstart) ?_
  · exact hcall f stack idx rfl
  · intro c _ hfinal _ f stack idx hnext
    have hstep : Step s c (step s c) := step_cases hfinal
    change step s c = _ at hnext
    rw [hnext] at hstep
    cases hstep with
    | loopChild hlt hslash hcomment => exact hlt
    | textNone hlt => exact hlt

/-- A call at a `<` with something behind it throws or moves the index on. -/
theorem step_call_lt {stack' : List Frame} (hlt : charAt s idx = lt) (hno : ¬NoTag s idx)
    (hd : (step s (.running .call stack idx)).Within stack') :
    idx < (step s (.running .call stack idx)).index := by
  have hstep : Step s (.running .call stack idx) (step s (.running .call stack idx)) := step_cases id
  generalize step s (.running .call stack idx) = d at hstep hd
  cases hstep with
  | callThrown => exact absurd hd id
  | callTag hprolog htag => exact lt_callTag hprolog
  | callNone hprolog htag => exact (noTag_of_parseProlog hlt hprolog htag).resolve_right hno

/-- A call that returns is over behind the next step. -/
theorem not_within_ret (s : List UInt8) (e : Element) (stack : List Frame) (idx : Nat) :
    ¬(step s (.running (.ret e) stack idx)).Within stack := by
  intro h
  match stack with
  | [] => exact h
  | f :: stack =>
    have hlength : (f :: stack).length ≤ stack.length := List.IsSuffix.length_le h
    exact absurd hlength (Nat.not_succ_le_self _)

/-- An index behind the first step is one at the end. -/
theorem lt_of_run {n idx' : Nat} {pc : Pc} {stack' : List Frame}
    (h : (machine s).run n c = .running pc stack' idx') (hidx : idx < c.index) : idx < idx' := by
  rcases index_le_of_leads ⟨n, h⟩ with ⟨e, hthrown⟩ | hle
  · cases hthrown
  · exact hidx.trans_le hle

theorem iterationsAdvance (h : ∀ c, Visits s c → ¬Stalls s c) : IterationsAdvance s := by
  intro f stack idx n f' idx' hvisits hpos hgoes hrun
  obtain ⟨n, rfl⟩ : ∃ m, n = m + 1 := ⟨n - 1, by omega⟩
  have hstalls := h _ hvisits
  have hstep : Step s (.running (.loop f) stack idx) (step s (.running (.loop f) stack idx)) :=
    step_cases id
  have hone : (step s (.running (.loop f) stack idx)).Within stack := hgoes 1 (by omega)
  have htwo : 0 < n → (step s (step s (.running (.loop f) stack idx))).Within stack :=
    fun hn => hgoes 2 (by omega)
  rw [run_succ] at hrun
  change (machine s).run n (step s (.running (.loop f) stack idx)) = _ at hrun
  have hreturned : ∀ e i, step s (.running (.loop f) stack idx) ≠ .running (.ret e) stack i := by
    intro e i hret
    rw [hret] at hrun htwo
    cases n with
    | zero => cases hrun
    | succ n => exact not_within_ret s e stack i (htwo (Nat.succ_pos n))
  generalize step s (.running (.loop f) stack idx) = d at *
  cases hstep with
  | loopThrown => exact absurd hone id
  | loopEnd | loopEmpty | loopEndTag => exact absurd rfl (hreturned _ _)
  | loopOtherEndTag hlt hslash hfind hpos => exact absurd ⟨hlt, .inl ⟨hslash, _, hfind, hpos⟩⟩ hstalls
  | loopGt hgt => exact lt_of_run hrun (lt_skipWhiteSpaces_succ s idx)
  | loopComment hlt hcomment hskip => exact lt_of_run hrun (lt_loopComment hskip)
  | loopAttr hi hequals hj hquote => exact lt_of_run hrun (lt_loopAttr hi hj)
  | loopChild hlt hslash hcomment =>
    have hno : ¬NoTag s idx := fun hno => hstalls ⟨hlt, .inr ⟨hslash, hno⟩⟩
    cases n with
    | zero => cases hrun
    | succ n =>
      rw [run_succ] at hrun
      exact lt_of_run hrun (step_call_lt hlt hno (htwo (Nat.succ_pos n)))

theorem callsAdvance (h : ∀ c, Visits s c → ¬Idles s c) : CallsAdvance s := by
  intro f stack idx n e idx' hvisits hgoes hrun
  cases n with
  | zero => cases hrun
  | succ n =>
    have hone : (step s (.running .call (f :: stack) idx)).Within (f :: stack) := hgoes 1 (by omega)
    rw [run_succ] at hrun
    exact lt_of_run hrun (step_call_lt (call_lt hvisits) (h _ hvisits) hone)

/-- A call with nothing to read returns where it was made. -/
theorem not_idles_of_callsAdvance (h : CallsAdvance s) (hc : Visits s c) : ¬Idles s c := by
  intro hidles
  match c, hidles with
  | .running .call (f :: stack) idx, hno =>
    have hret : step s (.running .call (f :: stack) idx) = _ := step_call_noTag hno
    have hgoes : GoesOn s (f :: stack) (.running .call (f :: stack) idx) 1 := by
      intro k hk
      rcases Nat.le_one_iff_eq_zero_or_eq_one.mp hk with rfl | rfl
      · exact List.suffix_rfl
      · change (step s (.running .call (f :: stack) idx)).Within (f :: stack)
        rw [hret]
        exact List.suffix_rfl
    exact absurd (h f stack idx 1 .default idx hc hgoes hret) (Nat.lt_irrefl idx)

/-- `parse` ends exactly if it is never stalled, and its loop and the calls in it move the index
on exactly if moreover no call has nothing to read. -/
theorem returns_iff (s : List UInt8) :
    (Returns s ↔ ∀ c, Visits s c → ¬Stalls s c) ∧
      (Returns s ∧ IterationsAdvance s ∧ CallsAdvance s ↔
        ∀ c, Visits s c → ¬Stalls s c ∧ ¬Idles s c) := by
  have hreturns : Returns s ↔ ∀ c, Visits s c → ¬Stalls s c := by
    rw [returns_iff_ends]
    refine ⟨fun h c hc hstalls => ?_, ends_of_not_stalls⟩
    exact not_ends_of_stalls hstalls (h.of_leads hc)
  refine ⟨hreturns, ?_, ?_⟩
  · rintro ⟨hends, -, hcalls⟩ c hc
    exact ⟨hreturns.mp hends c hc, not_idles_of_callsAdvance hcalls hc⟩
  · intro h
    have hstalls : ∀ c, Visits s c → ¬Stalls s c := fun c hc => (h c hc).1
    exact ⟨hreturns.mpr hstalls, iterationsAdvance hstalls, callsAdvance fun c hc => (h c hc).2⟩

/-- `<a><b></a></b>`: the parser stays at the first end tag. -/
theorem not_returns_mismatch :
    ¬Returns [60, 97, 62, 60, 98, 62, 60, 47, 97, 62, 60, 47, 98, 62] := by
  rw [returns_iff_ends]
  intro hends
  have hvisits : Visits [60, 97, 62, 60, 98, 62, 60, 47, 97, 62, 60, 47, 98, 62]
      (.running (.loop ((Frame.new [98]).append .default)) [.new [97]] 6) := ⟨8, rfl⟩
  refine not_ends_of_stalls ?_ (hends.of_leads hvisits)
  exact ⟨rfl, .inl ⟨rfl, 10, rfl, by decide⟩⟩

end Xml

end Tubekit
