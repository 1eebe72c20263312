import Mathlib.Data.List.TakeWhile

/-!
# Scanning a text by an index

A hand-written parser keeps an index into its text. `charAt` reads the character there, with a
terminating zero behind the last one, and `skipWhile` is the loop that moves the index on while
the characters satisfy a predicate. The lemmas are about a text that is cut at the index, so
that the state of a parser can be read as the part of the text that is left.
-/

namespace Tubekit.Lib.Scan

variable {s pre run rest : List UInt8} {p : UInt8 → Bool} {c : UInt8}

/-- `s[i]` of a `std::string`, where `s[s.size()]` is the terminating zero. -/
def charAt (s : List UInt8) (i : Nat) : UInt8 := s.getD i 0

/-- The index after `while (p(s[i])) i++`. -/
def skipWhile (p : UInt8 → Bool) (s : List UInt8) (i : Nat) : Nat :=
  i + ((s.drop i).takeWhile p).length

/-- `text` stands at index `i`. -/
def occursAt (s text : List UInt8) (i : Nat) : Bool := (s.drop i).take text.length == text

/-- `s.find(text, from)`: the first index from `start` on at which `text` stands. -/
def find (s text : List UInt8) (start : Nat) : Option Nat :=
  (List.range' start (s.length + 1 - start)).find? (occursAt s text)

/-- A loop over characters with `p` does not go on here. -/
def Stops (p : UInt8 → Bool) (rest : List UInt8) : Prop := ∀ c tail, rest = c :: tail → p c = false

@[simp] theorem stops_nil (p : UInt8 → Bool) : Stops p [] := by
  rintro c tail ⟨⟩

@[simp] theorem stops_cons {tail : List UInt8} : Stops p (c :: tail) ↔ p c = false := by
  refine ⟨fun h => h c tail rfl, ?_⟩
  rintro h c' tail' ⟨⟩
  exact h

theorem charAt_append (pre : List UInt8) (c : UInt8) (rest : List UInt8) :
    charAt (pre ++ c :: rest) pre.length = c := by
  simp [charAt]

theorem charAt_eq_getElem {i : Nat} (h : i < s.length) : charAt s i = s[i] := by
  simp [charAt, h]

theorem charAt_of_drop {i : Nat} (h : s.drop i = c :: rest) : charAt s i = c := by
  have hget : (s.drop i)[0]? = some c := by rw [h]; rfl
  rw [List.getElem?_drop, Nat.add_zero] at hget
  simp [charAt, hget]

/-- Behind the text there is only the terminating zero. -/
theorem lt_of_charAt {i : Nat} (h : charAt s i ≠ 0) : i < s.length := by
  by_contra hle
  exact h (by simp [charAt, List.getElem?_eq_none (Nat.le_of_not_lt hle)])

theorem charAt_of_drop_nil {i : Nat} (h : s.drop i = []) : charAt s i = 0 := by
  by_contra hne
  have hlt := lt_of_charAt hne
  rw [List.drop_eq_nil_iff] at h
  omega

/-- Where a loop stops, the character is none of its own. -/
theorem stops_charAt {i : Nat} (h : Stops p (s.drop i)) (hzero : p 0 = false) :
    p (charAt s i) = false := by
  cases hdrop : s.drop i with
  | nil => rwa [charAt_of_drop_nil hdrop]
  | cons c tail =>
    rw [charAt_of_drop hdrop]
    exact h c tail hdrop

theorem drop_succ_of_drop {i : Nat} (h : s.drop i = c :: rest) : s.drop (i + 1) = rest := by
  rw [← List.drop_drop, h]
  rfl

theorem occursAt_append (pre text rest : List UInt8) :
    occursAt (pre ++ (text ++ rest)) text pre.length = true := by
  simp [occursAt]

theorem occursAt_of_drop {text : List UInt8} {i : Nat} (h : s.drop i = text ++ rest) :
    occursAt s text i = true := by
  rw [occursAt, h, List.take_left]
  exact beq_self_eq_true text

theorem drop_of_occursAt {text : List UInt8} {i : Nat} (h : occursAt s text i = true) :
    s.drop i = text ++ s.drop (i + text.length) := by
  have htake : (s.drop i).take text.length = text := beq_iff_eq.mp h
  have hsplit := List.take_append_drop text.length (s.drop i)
  rw [htake, List.drop_drop] at hsplit
  exact hsplit.symm

theorem le_of_occursAt {text : List UInt8} {i : Nat} (hi : i ≤ s.length) (h : occursAt s text i = true) :
    i + text.length ≤ s.length := by
  have hlen := congrArg List.length (beq_iff_eq.1 h)
  rw [List.length_take, List.length_drop] at hlen
  omega

theorem occursAt_cons {text : List UInt8} {i : Nat} (hc : c ≠ 0) :
    occursAt s (c :: text) i = (charAt s i == c && occursAt s text (i + 1)) := by
  rw [occursAt, occursAt, charAt, List.length_cons]
  by_cases hi : i < s.length
  · rw [List.drop_eq_getElem_cons hi, List.take_succ_cons, List.cons_beq_cons]
    simp [hi]
  · have hnil : s.drop i = [] := List.drop_eq_nil_of_le (by omega)
    have h0 : s[i]? = none := List.getElem?_eq_none (by omega)
    simp [hnil, h0, Ne.symm hc]

theorem find_eq_start {text : List UInt8} {i : Nat} (hi : i ≤ s.length) (h : occursAt s text i = true) :
    find s text i = some i := by
  have hrange : s.length + 1 - i = (s.length - i) + 1 := by omega
  rw [find, hrange, List.range'_succ, List.find?_cons_of_pos h]

/-- What is found stands behind the start, in the text. -/
theorem le_of_find {text : List UInt8} {i pos : Nat} (h : find s text i = some pos) :
    i ≤ pos ∧ pos + text.length ≤ s.length := by
  have hmem := List.mem_of_find?_eq_some h
  rw [List.mem_range'_1] at hmem
  exact ⟨hmem.1, le_of_occursAt (by omega) (List.find?_some h)⟩

theorem takeWhile_append (hrun : ∀ c ∈ run, p c = true) (hrest : Stops p rest) :
    (run ++ rest).takeWhile p = run := by
  rw [List.takeWhile_append_of_pos hrun]
  cases rest with
  | nil => simp
  | cons c tail => simp [hrest c tail rfl]

/-- Texts without a mark are the same if they are with the mark and something behind it. -/
theorem append_mark_inj {mark : UInt8} {text text' rest' : List UInt8} (htext : mark ∉ text)
    (htext' : mark ∉ text') (h : text ++ mark :: rest = text' ++ mark :: rest') :
    text = text' ∧ rest = rest' := by
  have hplain : ∀ {t : List UInt8}, mark ∉ t → ∀ c ∈ t, (c != mark) = true := by
    intro t ht c hc
    simpa using fun heq : c = mark => ht (heq ▸ hc)
  have hsame : text = text' := by
    have htake := congrArg (List.takeWhile (· != mark)) h
    rwa [takeWhile_append (hplain htext) (by simp), takeWhile_append (hplain htext') (by simp)] at htake
  subst hsame
  exact ⟨rfl, (List.cons.inj (List.append_cancel_left h)).2⟩

/-! ## What is left at an index -/

theorem drop_add {i : Nat} {text : List UInt8} (h : s.drop i = text ++ rest) :
    s.drop (i + text.length) = rest := by
  rw [← List.drop_drop, h, List.drop_left]

theorem add_le_length {i : Nat} {text : List UInt8} (h : s.drop i = text ++ rest) (hi : i ≤ s.length) :
    i + text.length ≤ s.length := by
  have hlength := congrArg List.length h
  rw [List.length_drop, List.length_append] at hlength
  omega

theorem drop_eq_cons {i : Nat} (h : i < s.length) : s.drop i = charAt s i :: s.drop (i + 1) := by
  rw [List.drop_eq_getElem_cons h, charAt_eq_getElem h]

theorem stops_of_charAt {i : Nat} (h : p (charAt s i) = false) : Stops p (s.drop i) := by
  intro c tail hdrop
  rwa [charAt_of_drop hdrop] at h

/-- The loop goes over a run of characters and stops behind it. -/
theorem skipWhile_drop (s : List UInt8) (i : Nat) (p : UInt8 → Bool) :
    ∃ run, (∀ c ∈ run, p c = true) ∧ skipWhile p s i = i + run.length ∧
      s.drop i = run ++ s.drop (i + run.length) ∧ Stops p (s.drop (i + run.length)) := by
  have hsplit : s.drop i = (s.drop i).takeWhile p ++ (s.drop i).dropWhile p :=
    List.takeWhile_append_dropWhile.symm
  have hrest := drop_add hsplit
  refine ⟨(s.drop i).takeWhile p, fun c hc => List.mem_takeWhile_imp hc, rfl, ?_, ?_⟩
  · rwa [hrest]
  · rw [hrest]
    intro c tail hcons
    have hhead := List.head?_dropWhile_not p (s.drop i)
    rw [hcons] at hhead
    simpa using hhead

theorem skipWhile_eq {i : Nat} (h : s.drop i = run ++ rest) (hrun : ∀ c ∈ run, p c = true)
    (hrest : Stops p rest) : skipWhile p s i = i + run.length := by
  rw [skipWhile, h, takeWhile_append hrun hrest]

theorem skipWhile_append (pre : List UInt8) (hrun : ∀ c ∈ run, p c = true) (hrest : Stops p rest) :
    skipWhile p (pre ++ (run ++ rest)) pre.length = pre.length + run.length :=
  skipWhile_eq List.drop_left hrun hrest

/-- The loop does not move. -/
theorem skipWhile_stops (pre : List UInt8) (hrest : Stops p rest) :
    skipWhile p (pre ++ rest) pre.length = pre.length :=
  @skipWhile_append [] rest p pre (by simp) hrest

/-- The loop stays inside the text. -/
theorem skipWhile_le {i : Nat} (hi : i ≤ s.length) :
    i ≤ skipWhile p s i ∧ skipWhile p s i ≤ s.length := by
  have hlen := (List.takeWhile_prefix p (l := s.drop i)).length_le
  rw [List.length_drop] at hlen
  unfold skipWhile
  omega

/-- A round of the loop. -/
theorem skipWhile_go {i : Nat} (hi : i < s.length) (hp : p (charAt s i) = true) :
    skipWhile p s i = skipWhile p s (i + 1) := by
  rw [skipWhile, skipWhile, drop_eq_cons hi, List.takeWhile_cons_of_pos hp, List.length_cons]
  omega

/-- The loop ends. -/
theorem skipWhile_stay {i : Nat} (h : ¬(i < s.length ∧ p (charAt s i) = true)) :
    skipWhile p s i = i := by
  by_cases hi : i < s.length
  · have hp : ¬p (charAt s i) = true := fun hp => h ⟨hi, hp⟩
    rw [skipWhile, drop_eq_cons hi, List.takeWhile_cons_of_neg hp]
    rfl
  · rw [skipWhile, List.drop_eq_nil_of_le (Nat.le_of_not_lt hi)]
    rfl

end Tubekit.Lib.Scan
