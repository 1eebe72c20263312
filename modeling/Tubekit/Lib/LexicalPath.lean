import Mathlib.Data.List.Infix
import Mathlib.Data.List.TakeWhile

/-!
# Lexical normal forms of paths

A path is read character by character. The state is the list of names entered so far and the
segment that is being read; a slash enters the segment. An empty segment and a dot change nothing,
two dots take the last name back, where there is one.

`below_append_iff` says when a text appended to a path, with no separator put between them, leads
below it. The text is assumed not to have two dots in a row.
-/

namespace Tubekit.Lib.LexicalPath

/-- The two characters that have a meaning in a path. -/
structure Signs (α : Type*) where
  slash : α
  dot : α
  ne : dot ≠ slash

namespace Signs

variable {α : Type*} [DecidableEq α] (σ : Signs α)

/-- The segment that leads to the directory above. -/
def parent : List α := [σ.dot, σ.dot]

/-- Add a segment to the names. -/
def enter (absolute : Bool) (names : List (List α)) (segment : List α) : List (List α) :=
  if segment = [] ∨ segment = [σ.dot] then names
  else if segment = σ.parent then
    match names.getLast? with
    | none => if absolute then [] else [σ.parent]
    | some top => if top = σ.parent then names ++ [σ.parent] else names.dropLast
  else names ++ [segment]

/-- Read one character; the state is the names and the segment. -/
def read (absolute : Bool) (state : List (List α) × List α) (a : α) : List (List α) × List α :=
  if a = σ.slash then (σ.enter absolute state.1 state.2, []) else (state.1, state.2 ++ [a])

def walk (absolute : Bool) (state : List (List α) × List α) (path : List α) :
    List (List α) × List α :=
  path.foldl (σ.read absolute) state

/-- The names where a path is read from a state to its end. -/
def namesFrom (absolute : Bool) (state : List (List α) × List α) (path : List α) : List (List α) :=
  σ.enter absolute (σ.walk absolute state path).1 (σ.walk absolute state path).2

def absolute (path : List α) : Bool := decide (path.head? = some σ.slash)

/-- The names of the lexical normal form. -/
def names (path : List α) : List (List α) := σ.namesFrom (σ.absolute path) ([], []) path

/-- The path is the directory or lies below it, component by component. -/
def Below (dir path : List α) : Prop :=
  σ.absolute path = σ.absolute dir ∧ ∃ rest, σ.names path = σ.names dir ++ rest ∧ σ.parent ∉ rest

theorem below_refl (dir : List α) : σ.Below dir dir := ⟨rfl, [], by simp, by simp⟩

/-! ## Segments that do not lead up -/

variable {σ} {absolute : Bool} {names : List (List α)} {segment path : List α}

/-- What a segment adds to the names. -/
def own (σ : Signs α) (segment : List α) : List (List α) :=
  if segment = [] ∨ segment = [σ.dot] then [] else [segment]

theorem enter_eq (h : segment ≠ σ.parent) : σ.enter absolute names segment = names ++ σ.own segment := by
  unfold enter own
  split
  · simp
  · rfl

theorem parent_not_mem_own (h : segment ≠ σ.parent) : σ.parent ∉ σ.own segment := by
  unfold own
  split
  · simp
  · simpa using Ne.symm h

/-- No segment of the path leads up, where `segment` is read already. -/
def Downward (σ : Signs α) : List α → List α → Prop
  | segment, [] => segment ≠ σ.parent
  | segment, a :: path =>
    if a = σ.slash then segment ≠ σ.parent ∧ Downward σ [] path else Downward σ (segment ++ [a]) path

theorem namesFrom_nil (state : List (List α) × List α) :
    σ.namesFrom absolute state [] = σ.enter absolute state.1 state.2 := rfl

theorem namesFrom_slash (state : List (List α) × List α) (path : List α) :
    σ.namesFrom absolute state (σ.slash :: path) =
      σ.namesFrom absolute (σ.enter absolute state.1 state.2, []) path := by
  simp [namesFrom, walk, read]

theorem namesFrom_cons {a : α} (ha : a ≠ σ.slash) (state : List (List α) × List α) (path : List α) :
    σ.namesFrom absolute state (a :: path) =
      σ.namesFrom absolute (state.1, state.2 ++ [a]) path := by
  simp [namesFrom, walk, read, ha]

theorem namesFrom_append (state : List (List α) × List α) (path more : List α) :
    σ.namesFrom absolute state (path ++ more) =
      σ.namesFrom absolute (σ.walk absolute state path) more := by
  simp [namesFrom, walk]

/-- A path that does not lead up adds its own names, whatever it is appended to. -/
theorem namesFrom_downward (h : Downward σ segment path) (other : Bool) :
    σ.namesFrom absolute (names, segment) path = names ++ σ.namesFrom other ([], segment) path ∧
      σ.parent ∉ σ.namesFrom other ([], segment) path := by
  induction path generalizing absolute names segment with
  | nil =>
    rw [namesFrom_nil, namesFrom_nil, enter_eq h, enter_eq h]
    exact ⟨by simp, by simpa using parent_not_mem_own h⟩
  | cons a path ih =>
    unfold Downward at h
    by_cases ha : a = σ.slash
    · rw [if_pos ha] at h
      rw [ha, namesFrom_slash, namesFrom_slash, enter_eq h.1, enter_eq h.1]
      obtain ⟨hleft, hnot⟩ := @ih absolute (names ++ σ.own segment) [] h.2
      obtain ⟨hright, -⟩ := @ih other ([] ++ σ.own segment) [] h.2
      rw [hleft, hright]
      refine ⟨by simp, ?_⟩
      simp only [List.nil_append, List.mem_append, not_or]
      exact ⟨parent_not_mem_own h.1, hnot⟩
    · rw [if_neg ha] at h
      rw [namesFrom_cons ha, namesFrom_cons ha]
      exact ih h

/-- The first segment of a path. -/
def first (σ : Signs α) (path : List α) : List α := path.takeWhile (· ≠ σ.slash)

theorem parent_ne_first (hpath : ¬σ.parent <:+: path) : [] ++ σ.first path ≠ σ.parent := by
  rw [List.nil_append]
  intro heq
  exact hpath (heq ▸ (List.takeWhile_prefix _).isInfix)

omit [DecidableEq α] in
theorem not_infix_of_cons {a : α} (hpath : ¬σ.parent <:+: a :: path) : ¬σ.parent <:+: path :=
  fun h => hpath (h.trans (List.suffix_cons a path).isInfix)

theorem downward_of_first (hpath : ¬σ.parent <:+: path) (hfirst : segment ++ σ.first path ≠ σ.parent) :
    Downward σ segment path := by
  induction path generalizing segment with
  | nil => simpa [first, Downward] using hfirst
  | cons a path ih =>
    have hrest := not_infix_of_cons hpath
    unfold Downward
    by_cases ha : a = σ.slash
    · rw [if_pos ha]
      exact ⟨by simpa [first, ha] using hfirst, ih hrest (parent_ne_first hrest)⟩
    · rw [if_neg ha]
      refine ih hrest ?_
      simpa [first, ha] using hfirst

/-! ## A text appended to a path -/

/-- Two dots behind these names take a name back, or stand at the root. -/
def Undone (σ : Signs α) (absolute : Bool) (names : List (List α)) : Prop :=
  names = [] ∧ absolute = true ∨ ∃ top, names.getLast? = some top ∧ top ≠ σ.parent

/-- Two dots behind these names stand at the root, or take back a name that the path behind them
enters again. -/
def Reentered (σ : Signs α) (absolute : Bool) (names : List (List α)) (path : List α) : Prop :=
  names = [] ∧ absolute = true ∨
    ∃ top, names.getLast? = some top ∧ top ≠ σ.parent ∧ (σ.names path).head? = some top

/-- What `more` may be so that `dir ++ more` does not leave `dir`: nothing, a text that begins with
a slash, or any text where `dir` ends with one. Where `dir` ends with a segment of dots, that
segment becomes another one. -/
def Joins (σ : Signs α) (dir more : List α) : Prop :=
  let before := σ.walk (σ.absolute dir) ([], []) dir
  more = [] ∨ (dir = [] → more.head? ≠ some σ.slash) ∧
    (σ.first more = [] ∨ before.2 = [] ∨
      before.2 = [σ.dot] ∧
        (σ.first more = [σ.dot] → σ.Reentered (σ.absolute dir) before.1 (more.drop 2)) ∨
      before.2 = σ.parent ∧ σ.Undone (σ.absolute dir) before.1)

/-- `dir ++ more` goes on from the names of `dir`, without leading up. -/
def Extends (σ : Signs α) (absolute : Bool) (names : List (List α)) (segment more : List α) : Prop :=
  ∃ rest, σ.namesFrom absolute (names, segment) more = σ.enter absolute names segment ++ rest ∧
    σ.parent ∉ rest

variable {more : List α}

/-- A text that is empty or begins with a slash. -/
theorem extends_of_first_nil (hmore : ¬σ.parent <:+: more) (hfirst : σ.first more = []) :
    σ.Extends absolute names segment more := by
  cases more with
  | nil => exact ⟨[], by simp [namesFrom_nil], by simp⟩
  | cons a more =>
    have ha : a = σ.slash := by
      by_contra hne
      simp [first, hne] at hfirst
    have hdown := downward_of_first (not_infix_of_cons hmore) (parent_ne_first (not_infix_of_cons hmore))
    obtain ⟨heq, hnot⟩ := @namesFrom_downward _ _ σ absolute (σ.enter absolute names segment) [] more
      hdown absolute
    exact ⟨_, by rw [ha, namesFrom_slash, heq], hnot⟩

/-- The segment that is being read adds no name. -/
theorem extends_of_own_nil (hdown : Downward σ segment more) (hown : segment = [] ∨ segment = [σ.dot]) :
    σ.Extends absolute names segment more := by
  obtain ⟨heq, hnot⟩ := @namesFrom_downward _ _ σ absolute names segment more hdown absolute
  refine ⟨_, ?_, hnot⟩
  rw [heq, enter, if_pos hown]

/-- The first segment makes a name with the one that is being read. -/
theorem head_namesFrom (hdown : Downward σ segment more) (hempty : segment ++ σ.first more ≠ [])
    (hdot : segment ++ σ.first more ≠ [σ.dot]) :
    (σ.namesFrom absolute ([], segment) more).head? = some (segment ++ σ.first more) := by
  induction more generalizing segment with
  | nil =>
    simp only [first, List.takeWhile_nil, List.append_nil] at hempty hdot ⊢
    rw [namesFrom_nil, enter_eq hdown, own, if_neg (by simp [hempty, hdot])]
    rfl
  | cons a more ih =>
    unfold Downward at hdown
    by_cases ha : a = σ.slash
    · rw [if_pos ha] at hdown
      simp only [first, ha, ne_eq, not_true, decide_false, List.takeWhile_cons, Bool.false_eq_true,
        if_false, List.append_nil] at hempty hdot ⊢
      rw [namesFrom_slash, enter_eq hdown.1, own, if_neg (by simp [hempty, hdot])]
      rw [(@namesFrom_downward _ _ σ absolute ([] ++ [segment]) [] more hdown.2 absolute).1]
      rfl
    · rw [if_neg ha] at hdown
      have hfirst : segment ++ σ.first (a :: more) = segment ++ [a] ++ σ.first more := by
        simp [first, ha]
      rw [hfirst] at hempty hdot ⊢
      rw [namesFrom_cons ha]
      exact ih hdown hempty hdot

theorem enter_parent : σ.enter absolute names σ.parent =
    match names.getLast? with
    | none => if absolute then [] else [σ.parent]
    | some top => if top = σ.parent then names ++ [σ.parent] else names.dropLast := by
  simp [enter, parent]

omit [DecidableEq α] in
theorem eq_dropLast_append {top : List α} (h : names.getLast? = some top) :
    names = names.dropLast ++ [top] := by
  obtain ⟨before, rfl⟩ := List.getLast?_eq_some_iff.mp h
  simp

/-- A dot at the end and a dot at the beginning lead up. -/
theorem extends_dots_iff (hmore : ¬σ.parent <:+: more) (hfirst : σ.first more = [σ.dot]) :
    σ.Extends absolute names [σ.dot] more ↔ σ.Reentered absolute names (more.drop 2) := by
  obtain ⟨heq, hnot⟩ : σ.namesFrom absolute (names, [σ.dot]) more =
      σ.enter absolute names σ.parent ++ σ.names (more.drop 2) ∧ σ.parent ∉ σ.names (more.drop 2) := by
    cases more with
    | nil => cases hfirst
    | cons a more =>
      have ha : a ≠ σ.slash := by
        rintro rfl
        simp [first] at hfirst
      have hnil : a = σ.dot ∧ σ.first more = [] := by simpa [first, ha] using hfirst
      rw [namesFrom_cons ha, hnil.1]
      cases more with
      | nil => exact ⟨by simp [namesFrom_nil, Signs.names, Signs.absolute, enter, parent],
          by simp [namesFrom_nil, Signs.names, enter]⟩
      | cons b more =>
        have hb : b = σ.slash := by
          by_contra hne
          simp [first, hne] at hnil
        have hrest := not_infix_of_cons (not_infix_of_cons hmore)
        rw [hb, namesFrom_slash]
        exact namesFrom_downward (downward_of_first hrest (parent_ne_first hrest)) _
  unfold Extends Reentered
  rw [heq, enter_parent]
  have hdot : σ.enter absolute names [σ.dot] = names := by simp [enter]
  rw [hdot]
  cases hlast : names.getLast? with
  | none =>
    rw [List.getLast?_eq_none_iff] at hlast
    subst hlast
    cases absolute with
    | true => simpa using hnot
    | false => simp
  | some top =>
    have hne : names ≠ [] := by
      rintro rfl
      cases hlast
    by_cases htop : top = σ.parent
    · simp [htop, hne]
    · simp only [htop, if_false, hne, false_and, Option.some.injEq, false_or]
      constructor
      · rintro ⟨rest, hrest, -⟩
        refine ⟨top, rfl, htop, ?_⟩
        rw [eq_dropLast_append hlast] at hrest
        simp only [List.dropLast_concat, List.append_assoc, List.append_cancel_left_eq] at hrest
        rw [hrest]
        rfl
      · rintro ⟨top', rfl, -, hhead⟩
        obtain ⟨rest, hrest⟩ := List.head?_eq_some_iff.mp hhead
        refine ⟨rest, ?_, fun hmem => hnot (hrest ▸ List.mem_cons_of_mem _ hmem)⟩
        rw [hrest, List.append_cons, ← eq_dropLast_append hlast]

/-- Two dots at the end become a name with what is appended. -/
theorem extends_parent_iff (hmore : ¬σ.parent <:+: more) (hfirst : σ.first more ≠ []) :
    σ.Extends absolute names σ.parent more ↔ σ.Undone absolute names := by
  have hlong : ∀ segment : List α, segment.length ≤ 2 → σ.parent ++ σ.first more ≠ segment := by
    intro segment hlen heq
    have hpos := List.length_pos_of_ne_nil hfirst
    have hsum := congrArg List.length heq
    simp only [List.length_append, parent, List.length_cons, List.length_nil] at hsum
    omega
  have hname : σ.parent ++ σ.first more ≠ σ.parent := hlong _ (by simp [parent])
  have hdown := downward_of_first hmore hname
  have hhead : (σ.namesFrom absolute ([], σ.parent) more).head? = some (σ.parent ++ σ.first more) :=
    head_namesFrom hdown (hlong _ (by simp)) (hlong _ (by simp))
  obtain ⟨heq, hnot⟩ := @namesFrom_downward _ _ σ absolute names σ.parent more hdown absolute
  obtain ⟨later, hlater⟩ := List.head?_eq_some_iff.mp hhead
  unfold Extends Undone
  rw [heq, enter_parent]
  cases hlast : names.getLast? with
  | none =>
    rw [List.getLast?_eq_none_iff] at hlast
    subst hlast
    cases absolute with
    | true => simpa using hnot
    | false =>
      rw [hlater]
      simp [hname]
  | some top =>
    have hne : names ≠ [] := by
      rintro rfl
      cases hlast
    by_cases htop : top = σ.parent
    · rw [hlater]
      simp [htop, hne, hname]
    · simp only [htop, if_false, hne, false_and, Option.some.injEq, false_or]
      refine ⟨fun _ => ⟨top, rfl, htop⟩, fun _ => ?_⟩
      refine ⟨top :: σ.namesFrom absolute ([], σ.parent) more, ?_, ?_⟩
      · rw [List.append_cons, ← eq_dropLast_append hlast]
      · simp only [List.mem_cons, not_or]
        exact ⟨Ne.symm htop, hnot⟩

/-- A name at the end becomes another name. -/
theorem not_extends (hmore : ¬σ.parent <:+: more) (hfirst : σ.first more ≠ []) (hempty : segment ≠ [])
    (hdot : segment ≠ [σ.dot]) (hparent : segment ≠ σ.parent) :
    ¬σ.Extends absolute names segment more := by
  have hshort : ∀ a b : α, segment ++ σ.first more = [a, b] → segment = [a] := by
    intro a b heq
    obtain ⟨c, segment, rfl⟩ := List.exists_cons_of_ne_nil hempty
    cases segment with
    | nil => exact congrArg (fun c => [c]) (List.cons.inj heq).1
    | cons d segment => simp_all
  have hname : segment ++ σ.first more ≠ σ.parent := fun heq => hdot (hshort _ _ heq)
  have hdown := downward_of_first hmore hname
  have hhead : (σ.namesFrom absolute ([], segment) more).head? = some (segment ++ σ.first more) := by
    refine head_namesFrom hdown (by simp [hempty]) fun heq => ?_
    have hlen := congrArg List.length heq
    have hpos := List.length_pos_of_ne_nil hfirst
    have hpos' := List.length_pos_of_ne_nil hempty
    simp only [List.length_append, List.length_singleton] at hlen
    omega
  obtain ⟨heq, -⟩ := @namesFrom_downward _ _ σ absolute names segment more hdown absolute
  rintro ⟨rest, hrest, -⟩
  rw [heq, enter_eq hparent, own, if_neg (by simp [hempty, hdot]), List.append_assoc,
    List.append_cancel_left_eq] at hrest
  rw [hrest] at hhead
  simp [hfirst] at hhead

theorem extends_iff (hmore : ¬σ.parent <:+: more) :
    σ.Extends absolute names segment more ↔
      σ.first more = [] ∨ segment = [] ∨
        segment = [σ.dot] ∧ (σ.first more = [σ.dot] → σ.Reentered absolute names (more.drop 2)) ∨
        segment = σ.parent ∧ σ.Undone absolute names := by
  by_cases hfirst : σ.first more = []
  · simp only [hfirst, true_or, iff_true]
    exact extends_of_first_nil hmore hfirst
  by_cases hempty : segment = []
  · simp only [hempty, true_or, or_true, iff_true]
    exact extends_of_own_nil (downward_of_first hmore (parent_ne_first hmore)) (Or.inl rfl)
  by_cases hdot : segment = [σ.dot]
  · subst hdot
    have hother : [σ.dot] ≠ σ.parent := by simp [parent]
    by_cases hdots : σ.first more = [σ.dot]
    · rw [extends_dots_iff hmore hdots]
      simp [hdots, hother]
    · have hdown : Downward σ [σ.dot] more := by
        refine downward_of_first hmore fun heq => hdots ?_
        simpa [parent] using heq
      simp only [hdots, false_imp_iff, and_true, true_or, or_true, iff_true]
      exact extends_of_own_nil hdown (Or.inr rfl)
  by_cases hparent : segment = σ.parent
  · subst hparent
    rw [extends_parent_iff hmore hfirst]
    simp [hfirst, hempty, hdot]
  · simp only [hfirst, hempty, hdot, hparent, false_and, or_false, iff_false]
    exact not_extends hmore hfirst hempty hdot hparent

/-- When a text that has no two dots in a row, appended to a directory, leads below it. -/
theorem below_append_iff (dir : List α) (hmore : ¬σ.parent <:+: more) :
    σ.Below dir (dir ++ more) ↔ σ.Joins dir more := by
  by_cases hnil : more = []
  · simp only [hnil, List.append_nil, Joins, true_or, iff_true]
    exact σ.below_refl dir
  cases dir with
  | nil =>
    have hwalk : σ.walk false ([], []) [] = ([], []) := rfl
    have habsolute : σ.absolute [] = false := by simp [Signs.absolute]
    simp only [Below, Joins, hnil, hwalk, List.nil_append, habsolute, true_imp_iff, false_or, true_or,
      or_true, and_true]
    constructor
    · rintro ⟨hfalse, -⟩
      simpa [Signs.absolute] using hfalse
    · intro hrel
      have hfalse : σ.absolute more = false := by simpa [Signs.absolute] using hrel
      obtain ⟨-, hnot⟩ := @namesFrom_downward _ _ σ false [] [] more
        (downward_of_first hmore (parent_ne_first hmore)) false
      refine ⟨hfalse, σ.names more, by simp [Signs.names, namesFrom_nil, enter], ?_⟩
      rw [Signs.names, hfalse]
      exact hnot
  | cons a dir =>
    have habsolute : σ.absolute (a :: dir ++ more) = σ.absolute (a :: dir) := rfl
    simp only [Below, Joins, hnil, habsolute, true_and, reduceCtorEq, false_imp_iff, false_or]
    rw [← extends_iff hmore, Signs.names, habsolute, namesFrom_append]
    rfl

end Signs

end Tubekit.Lib.LexicalPath
