import Mathlib.Data.List.Nodup
import Tubekit.Buffer.Model

/-!
# The gids of accepted sockets

`socket_handler::handle` makes a gid of the second it has read from the system clock and a number
that starts again whenever the second has changed. The clock may be set back, and then a second
that has passed is read again: the gids are distinct exactly when no socket is accepted in a second
that is read again after another one, with sockets accepted in it before (`gids_distinct_iff`).

A socket that the loop gives up later has got its gid as well.
-/

namespace Tubekit

/-- A round of the main loop: the second that is read, and how many sockets are accepted. -/
structure AcceptRound where
  second : Nat
  accepts : Nat

/-- `lastest_tick_time` and `gid_seq`. -/
structure GidState where
  lastestTickTime : Nat
  gidSeq : Nat

namespace GidState

def tick (s : GidState) (nowTickTime : Nat) : GidState :=
  if s.lastestTickTime ≠ nowTickTime then { lastestTickTime := nowTickTime, gidSeq := 0 } else s

/-- `++gid_seq`. -/
def nextSeq (s : GidState) : GidState := { s with gidSeq := u64Add s.gidSeq 1 }

/-- `(lastest_tick_time << 32) + gid_seq`. -/
def loopGid (s : GidState) : Nat := u64Add (s.lastestTickTime <<< 32 % 2 ^ 64) s.gidSeq

/-- The gids that the accept loop assigns in one round. -/
def accept (s : GidState) : Nat → List Nat × GidState
  | 0 => ([], s)
  | accepts + 1 =>
    let s := s.nextSeq
    let (gids, s') := accept s accepts
    (s.loopGid :: gids, s')

def run (s : GidState) : List AcceptRound → List Nat × GidState
  | [] => ([], s)
  | r :: rounds =>
    let (gids, s) := (s.tick r.second).accept r.accepts
    let (more, s) := run s rounds
    (gids ++ more, s)

/-- The gids that `handle` assigns, where `first` is read before the loop. -/
def handle (first : Nat) (rounds : List AcceptRound) : List Nat :=
  (run { lastestTickTime := first, gidSeq := 0 } rounds).1

end GidState

/-- Fewer than `2 ^ 32` sockets are accepted between two changes of the reading, which is `last`
with `seq` sockets accepted since it changed. -/
def FewAccepts (last seq : Nat) : List AcceptRound → Prop
  | [] => True
  | r :: rounds =>
    (if r.second = last then seq else 0) + r.accepts < 2 ^ 32 ∧
      FewAccepts r.second ((if r.second = last then seq else 0) + r.accepts) rounds

instance decidableFewAccepts (last seq : Nat) :
    (rounds : List AcceptRound) → Decidable (FewAccepts last seq rounds)
  | [] => isTrue trivial
  | r :: rounds =>
    have := decidableFewAccepts r.second ((if r.second = last then seq else 0) + r.accepts) rounds
    inferInstanceAs (Decidable (_ ∧ _))

/-- Between two rounds that read one second, both with accepted sockets, no other one is read. -/
def NoReturn (rounds : List AcceptRound) : Prop :=
  ∀ before r between r' after, rounds = before ++ r :: between ++ r' :: after →
    r.second = r'.second → 0 < r.accepts → 0 < r'.accepts → ∀ x ∈ between, x.second = r.second

theorem NoReturn.tail {r : AcceptRound} {rounds : List AcceptRound} (h : NoReturn (r :: rounds)) :
    NoReturn rounds := by
  rintro before x between x' after rfl
  exact h (r :: before) x between x' after rfl

namespace GidState

/-! ## Gids as pairs -/

/-- The second and the number of each gid, from a reading `last` with `seq` numbers in use. -/
def issued (last seq : Nat) : List AcceptRound → List (Nat × Nat)
  | [] => []
  | r :: rounds =>
    let start := if r.second = last then seq else 0
    (List.range r.accepts).map (fun i => (r.second, start + i + 1)) ++
      issued r.second (start + r.accepts) rounds

/-- The gid of a pair. -/
def gidOf (p : Nat × Nat) : Nat := p.1 * 2 ^ 32 + p.2

theorem gidOf_injective {p q : Nat × Nat} (hp : p.2 < 2 ^ 32) (hq : q.2 < 2 ^ 32)
    (h : gidOf p = gidOf q) : p = q := by
  unfold gidOf at h
  apply Prod.ext <;> omega

theorem loopGid_eq {s : GidState} (hsecond : s.lastestTickTime < 2 ^ 32) (hseq : s.gidSeq < 2 ^ 32) :
    s.loopGid = gidOf (s.lastestTickTime, s.gidSeq) := by
  have hshift : s.lastestTickTime <<< 32 % 2 ^ 64 = s.lastestTickTime * 2 ^ 32 := by
    rw [Nat.shiftLeft_eq, Nat.mod_eq_of_lt (by omega)]
  rw [loopGid, hshift, u64Add_of_lt (by omega)]
  rfl

theorem accept_eq {s : GidState} {accepts : Nat} (hsecond : s.lastestTickTime < 2 ^ 32)
    (hseq : s.gidSeq + accepts < 2 ^ 32) :
    s.accept accepts =
      (((List.range accepts).map fun i => (s.lastestTickTime, s.gidSeq + i + 1)).map gidOf,
        { s with gidSeq := s.gidSeq + accepts }) := by
  induction accepts generalizing s with
  | zero => rfl
  | succ accepts ih =>
    have hnext : s.nextSeq = { s with gidSeq := s.gidSeq + 1 } := by
      rw [nextSeq, u64Add_of_lt (by omega)]
    have hgid : s.nextSeq.loopGid = gidOf (s.lastestTickTime, s.gidSeq + 1) := by
      rw [hnext]
      exact @loopGid_eq { s with gidSeq := s.gidSeq + 1 } hsecond (by simp only; omega)
    have hrest := @ih s.nextSeq (by rw [hnext]; exact hsecond) (by rw [hnext]; simp only; omega)
    simp only [accept, hrest, hgid]
    rw [hnext, List.range_succ_eq_map]
    simp only [List.map_cons, List.map_map, Nat.add_assoc, Nat.add_comm 1 accepts]
    refine Prod.ext ?_ rfl
    simp only [List.cons.injEq, true_and]
    apply List.map_congr_left
    intro i _
    simp only [Function.comp_apply, Nat.succ_eq_add_one, gidOf]
    omega

/-- Without an overflow the gids are those of the pairs. -/
theorem run_eq {s : GidState} {rounds : List AcceptRound}
    (hsecond : ∀ r ∈ rounds, r.second < 2 ^ 32)
    (hfew : FewAccepts s.lastestTickTime s.gidSeq rounds) :
    (s.run rounds).1 = (issued s.lastestTickTime s.gidSeq rounds).map gidOf ∧
      ∀ p ∈ issued s.lastestTickTime s.gidSeq rounds, 0 < p.2 ∧ p.2 < 2 ^ 32 := by
  induction rounds generalizing s with
  | nil => exact ⟨rfl, by simp [issued]⟩
  | cons r rounds ih =>
    rw [List.forall_mem_cons] at hsecond
    obtain ⟨hnow, hrest⟩ := hfew
    have htick : s.tick r.second =
        { lastestTickTime := r.second
          gidSeq := if r.second = s.lastestTickTime then s.gidSeq else 0 } := by
      unfold tick
      by_cases hsame : s.lastestTickTime = r.second
      · simp [← hsame]
      · simp [hsame, Ne.symm hsame]
    generalize hstart : (if r.second = s.lastestTickTime then s.gidSeq else 0) = start at *
    have haccept := @accept_eq { lastestTickTime := r.second, gidSeq := start } r.accepts
      hsecond.1 hnow
    obtain ⟨hgids, hbound⟩ := @ih { lastestTickTime := r.second, gidSeq := start + r.accepts }
      hsecond.2 hrest
    simp only [run, htick, haccept, issued, hstart, List.map_append]
    refine ⟨by rw [hgids], ?_⟩
    intro p hp
    rcases List.mem_append.mp hp with hp | hp
    · obtain ⟨i, hi, rfl⟩ := List.mem_map.mp hp
      rw [List.mem_range] at hi
      exact ⟨by simp, by simp only; omega⟩
    · exact hbound p hp

/-! ## When pairs are distinct -/

theorem issued_append (last seq : Nat) (rounds : List AcceptRound) (x : AcceptRound)
    (more : List AcceptRound) :
    ∃ seq', issued last seq (rounds ++ x :: more) =
      issued last seq (rounds ++ [x]) ++ issued x.second seq' more := by
  induction rounds generalizing last seq with
  | nil =>
    refine ⟨(if x.second = last then seq else 0) + x.accepts, ?_⟩
    simp only [List.nil_append, issued, List.append_nil]
  | cons r rounds ih =>
    obtain ⟨seq', happend⟩ := ih r.second ((if r.second = last then seq else 0) + r.accepts)
    exact ⟨seq', by simp only [List.cons_append, issued, happend, List.append_assoc]⟩

/-- Whoever accepts in a second whose numbers are fresh uses the first one. -/
theorem mem_issued_one {last seq : Nat} {rounds : List AcceptRound} {r : AcceptRound}
    (hfresh : r.second = last → seq = 0) (hr : r ∈ rounds) (haccepts : 0 < r.accepts) :
    (r.second, 1) ∈ issued last seq rounds := by
  induction rounds generalizing last seq with
  | nil => cases hr
  | cons x rounds ih =>
    simp only [issued, List.mem_append]
    by_cases hx : x.second = r.second
    · have hstart : (if x.second = last then seq else 0) = 0 := by
        split
        · next heq => exact hfresh (hx.symm.trans heq)
        · rfl
      rw [hstart]
      by_cases hpos : 0 < x.accepts
      · left
        exact List.mem_map.mpr ⟨0, List.mem_range.mpr hpos, by rw [hx]⟩
      · right
        rcases List.mem_cons.mp hr with rfl | hr
        · exact absurd haccepts hpos
        · exact ih (fun _ => by omega) hr
    · right
      rcases List.mem_cons.mp hr with rfl | hr
      · exact absurd rfl hx
      · exact ih (fun heq => absurd heq.symm hx) hr

/-- A pair belongs to a round that accepts. While only `last` is read, its number is a new one. -/
theorem of_mem_issued {last seq : Nat} {rounds : List AcceptRound} {p : Nat × Nat}
    (hp : p ∈ issued last seq rounds) :
    ∃ before r after, rounds = before ++ r :: after ∧ p.1 = r.second ∧ 0 < r.accepts ∧
      ((∀ x ∈ before, x.second = last) → r.second = last → seq < p.2) := by
  induction rounds generalizing last seq with
  | nil => cases hp
  | cons x rounds ih =>
    simp only [issued, List.mem_append] at hp
    rcases hp with hp | hp
    · obtain ⟨i, hi, rfl⟩ := List.mem_map.mp hp
      rw [List.mem_range] at hi
      refine ⟨[], x, rounds, rfl, rfl, by omega, fun _ hlast => ?_⟩
      simp only [hlast, if_true]
      omega
    · obtain ⟨before, r, after, rfl, hsecond, haccepts, hnew⟩ := ih hp
      refine ⟨x :: before, r, after, rfl, hsecond, haccepts, fun hbefore hlast => ?_⟩
      rw [List.forall_mem_cons] at hbefore
      obtain ⟨hx, hbefore⟩ := hbefore
      have hlt := hnew (fun y hy => (hbefore y hy).trans hx.symm) (hlast.trans hx.symm)
      rw [if_pos hx] at hlt
      omega

theorem issued_nodup {last seq : Nat} {rounds : List AcceptRound} (h : NoReturn rounds) :
    (issued last seq rounds).Nodup := by
  induction rounds generalizing last seq with
  | nil => exact List.nodup_nil
  | cons r rounds ih =>
    simp only [issued]
    rw [List.nodup_append]
    refine ⟨?_, ih h.tail, ?_⟩
    · apply List.Nodup.map_on _ List.nodup_range
      intro i _ j _ heq
      simp only [Prod.mk.injEq] at heq
      omega
    · rintro p hp q hq rfl
      obtain ⟨i, hi, rfl⟩ := List.mem_map.mp hp
      rw [List.mem_range] at hi
      obtain ⟨before, r', after, rfl, hsecond, haccepts, hnew⟩ := of_mem_issued hq
      have hbetween := h [] r before r' after rfl hsecond (by omega) haccepts
      have hlt := hnew hbetween hsecond.symm
      simp only at hlt
      omega

/-- A second that is read again, with sockets accepted before and now, gives a pair again. -/
theorem noReturn_of_nodup {first : Nat} {rounds : List AcceptRound}
    (h : (issued first 0 rounds).Nodup) : NoReturn rounds := by
  rintro before r between r' after rfl hsame haccepts haccepts' x hx
  by_contra hne
  obtain ⟨between₁, between₂, rfl⟩ := List.append_of_mem hx
  -- the numbers start again at `x`, so the first one is used before and behind it
  have hsplit : before ++ r :: (between₁ ++ x :: between₂) ++ r' :: after =
      (before ++ r :: between₁) ++ x :: (between₂ ++ r' :: after) := by simp
  obtain ⟨seq, happend⟩ :=
    issued_append first 0 (before ++ r :: between₁) x (between₂ ++ r' :: after)
  rw [hsplit, happend, List.nodup_append] at h
  have hbefore : (r.second, 1) ∈ issued first 0 (before ++ r :: between₁ ++ [x]) :=
    mem_issued_one (fun _ => rfl) (by simp) haccepts
  have hbehind : (r'.second, 1) ∈ issued x.second seq (between₂ ++ r' :: after) := by
    apply mem_issued_one _ (by simp) haccepts'
    intro heq
    exact absurd (heq.symm.trans hsame.symm) hne
  rw [← hsame] at hbehind
  exact h.2.2 _ hbefore _ hbehind rfl

/-- **Gids.** For every sequence of readings of the clock, with fewer than `2 ^ 32` sockets between
two changes: no gid is zero, and the gids are distinct exactly when no socket is accepted in a
second that is read again after another one and in which sockets were accepted before. -/
theorem gids_distinct_iff (first : Nat) {rounds : List AcceptRound}
    (hsecond : ∀ r ∈ rounds, r.second < 2 ^ 32) (hfew : FewAccepts first 0 rounds) :
    (∀ gid ∈ handle first rounds, gid ≠ 0) ∧ ((handle first rounds).Nodup ↔ NoReturn rounds) := by
  obtain ⟨hgids, hbound⟩ := @run_eq { lastestTickTime := first, gidSeq := 0 } rounds hsecond hfew
  have hhandle : handle first rounds = (issued first 0 rounds).map gidOf := hgids
  rw [hhandle]
  constructor
  · intro gid hgid
    obtain ⟨p, hp, rfl⟩ := List.mem_map.mp hgid
    have hpos := (hbound p hp).1
    unfold gidOf
    omega
  · constructor
    · exact fun hnodup => noReturn_of_nodup hnodup.of_map
    · intro hreturn
      apply List.Nodup.map_on _ (issued_nodup hreturn)
      intro p hp q hq heq
      exact gidOf_injective (hbound p hp).2 (hbound q hq).2 heq

/-- A clock that goes forward. -/
theorem gids_distinct_forward :
    (∀ gid ∈ handle 10 [⟨10, 2⟩, ⟨11, 1⟩], gid ≠ 0) ∧ NoReturn [⟨10, 2⟩, ⟨11, 1⟩] := by
  obtain ⟨hzero, hdistinct⟩ := @gids_distinct_iff 10 [⟨10, 2⟩, ⟨11, 1⟩] (by decide) (by decide)
  exact ⟨hzero, hdistinct.mp (by decide)⟩

/-- The clock is set back by a second: the first gid is given again. -/
theorem gid_given_again :
    let rounds : List AcceptRound := [⟨10, 1⟩, ⟨11, 0⟩, ⟨10, 1⟩]
    (∀ r ∈ rounds, r.second < 2 ^ 32) ∧ FewAccepts 10 0 rounds ∧
      handle 10 rounds = [10 * 2 ^ 32 + 1, 10 * 2 ^ 32 + 1] ∧ ¬(handle 10 rounds).Nodup := by
  decide

end GidState

end Tubekit
