import Mathlib.Data.Finset.Sort
import Tubekit.Connection.Registry
import Tubekit.Lib.Transition

/-!
# The players that are online

The websocket application keeps the gids of its connections in `global_player`, behind a mutex of its
own. `on_new_connection` and `on_close_connection` change it inside calls of `connection_mgr`, while
the mutex of the mapping of the gid is held; `process_frame` copies it and then calls `send_packet`
for every player of the copy, which takes the mutex of one mapping after the other.

Threads do this in any order. The steps below are those between which other threads may come.
-/

namespace Tubekit

open Lib Transition

/-- Where a thread is. -/
inductive PlayerPc where
  | idle
  /-- `on_new_connection` has found the gid and holds the mutex of its mapping. -/
  | joining (gid : Nat)
  | joined (gid : Nat)
  /-- `remove` has taken the pair of the gid out and holds the mutex of the mapping. -/
  | leaving (gid : Nat)
  | left (gid : Nat)
  /-- `process_frame`, with the players of its copy that it has not come to. -/
  | sending (rest : List Nat)
  deriving DecidableEq

/-- The gid whose mapping the thread has locked. -/
def PlayerPc.holds : PlayerPc → Option Nat
  | .joining gid => some gid
  | .joined gid => some gid
  | .leaving gid => some gid
  | .left gid => some gid
  | _ => none

/-- The gid that the thread is bringing into the set, and the one that it is taking out. -/
def PlayerPc.joins : PlayerPc → Option Nat
  | .joining gid => some gid
  | .joined gid => some gid
  | _ => none

def PlayerPc.leaves : PlayerPc → Option Nat
  | .leaving gid => some gid
  | .left gid => some gid
  | _ => none

theorem joins_of_holds {pc : PlayerPc} (h : pc.holds = none) : pc.joins = none := by
  cases pc <;> first | rfl | cases h

theorem leaves_of_holds {pc : PlayerPc} (h : pc.holds = none) : pc.leaves = none := by
  cases pc <;> first | rfl | cases h

theorem holds_of_joins {pc : PlayerPc} {gid : Nat} (h : pc.joins = some gid) :
    pc.holds = some gid := by
  cases pc <;> first | exact h | cases h

theorem holds_of_leaves {pc : PlayerPc} {gid : Nat} (h : pc.leaves = some gid) :
    pc.holds = some gid := by
  cases pc <;> first | exact h | cases h

structure Players where
  mgr : ConnectionMgr
  /-- The thread that holds the mutex of a mapping. -/
  lock : Nat → Option Nat
  globalPlayer : Finset Nat
  thread : Nat → PlayerPc
  /-- The players that packets were sent to, with the threads that sent them, in order. -/
  sent : List (Nat × Nat)

namespace Players

inductive Action where
  | insert (thread gid : Nat) (value : Nat × Nat)
  | onNewConnection (thread gid : Nat)
  | join (thread : Nat)
  | remove (thread gid : Nat)
  | leave (thread : Nat)
  | unlock (thread : Nat)
  | copy (thread : Nat)
  | send (thread : Nat)
  | finish (thread : Nat)
  deriving DecidableEq

/-- The mutex of the mapping of this gid is free. -/
def free (s : Players) (gid : Nat) : Prop := s.lock (s.mgr.hashIdx gid) = none

instance (s : Players) (gid : Nat) : Decidable (s.free gid) := inferInstanceAs (Decidable (_ = _))

/-- The thread locks the mapping of the gid, or unlocks it. -/
def setLock (s : Players) (gid : Nat) (owner : Option Nat) : Nat → Option Nat :=
  Function.update s.lock (s.mgr.hashIdx gid) owner

def next (s : Players) : Action → Option Players
  | .insert t gid value =>
    if s.thread t = .idle ∧ s.free gid then some { s with mgr := (s.mgr.insert gid value).2 }
    else none
  | .onNewConnection t gid =>
    if s.thread t = .idle ∧ s.free gid then
      match s.mgr.ifExist gid with
      | .succ _ =>
        some { s with
          lock := s.setLock gid (some t)
          thread := Function.update s.thread t (.joining gid) }
      | .failed => some s
    else none
  | .join t =>
    match s.thread t with
    | .joining gid =>
      some { s with
        globalPlayer := insert gid s.globalPlayer
        thread := Function.update s.thread t (.joined gid) }
    | _ => none
  | .remove t gid =>
    if s.thread t = .idle ∧ s.free gid then
      match s.mgr.remove gid with
      | (.succ _, mgr) =>
        some { s with
          mgr
          lock := s.setLock gid (some t)
          thread := Function.update s.thread t (.leaving gid) }
      | (.failed, _) => some s
    else none
  | .leave t =>
    match s.thread t with
    | .leaving gid =>
      some { s with
        globalPlayer := s.globalPlayer.erase gid
        thread := Function.update s.thread t (.left gid) }
    | _ => none
  | .unlock t =>
    match s.thread t with
    | .joined gid =>
      some { s with
        lock := s.setLock gid none
        thread := Function.update s.thread t .idle }
    | .left gid =>
      some { s with
        lock := s.setLock gid none
        thread := Function.update s.thread t .idle }
    | _ => none
  | .copy t =>
    if s.thread t = .idle then
      some { s with
        thread := Function.update s.thread t (.sending (s.globalPlayer.sort (· ≤ ·))) }
    else none
  | .send t =>
    match s.thread t with
    | .sending (player :: rest) =>
      if s.free player then
        some { s with
          thread := Function.update s.thread t (.sending rest)
          sent := match s.mgr.ifExist player with
            | .succ _ => s.sent ++ [(t, player)]
            | .failed => s.sent }
      else none
    | _ => none
  | .finish t =>
    match s.thread t with
    | .sending [] => some { s with thread := Function.update s.thread t .idle }
    | _ => none

/-- Nobody is online, with this many worker threads. -/
def start (threadSize : Nat) : Players :=
  { mgr := .init threadSize
    lock := fun _ => none
    globalPlayer := ∅
    thread := fun _ => .idle
    sent := [] }

def system (threadSize : Nat) : System Players Action where
  init s := s = start threadSize
  next := next

/-! ## What a step does -/

variable {s s' : Players} {a : Action} {threadSize : Nat}

/-- The steps of `next`, one for each outcome. -/
inductive Step (s : Players) : Action → Players → Prop
  | insert {t gid : Nat} {value : Nat × Nat} {mgr : ConnectionMgr} (hidle : s.thread t = .idle)
    (hfree : s.free gid) (hidx : mgr.hashIdx = s.mgr.hashIdx)
    (hpair : mgr.pair = Function.update s.mgr.pair gid (some value)) :
    Step s (.insert t gid value) { s with mgr }
  | insertFailed {t gid : Nat} {value : Nat × Nat} {mgr : ConnectionMgr} (hidle : s.thread t = .idle)
    (hidx : mgr.hashIdx = s.mgr.hashIdx) (hpair : mgr.pair = s.mgr.pair) :
    Step s (.insert t gid value) { s with mgr }
  | onNewConnection {t gid : Nat} (hidle : s.thread t = .idle) (hfree : s.free gid)
    (hpair : s.mgr.pair gid ≠ none) :
    Step s (.onNewConnection t gid) { s with
      lock := s.setLock gid (some t)
      thread := Function.update s.thread t (.joining gid) }
  | onNewConnectionFailed {t gid : Nat} : Step s (.onNewConnection t gid) s
  | join {t gid : Nat} (ht : s.thread t = .joining gid) :
    Step s (.join t) { s with
      globalPlayer := Insert.insert gid s.globalPlayer
      thread := Function.update s.thread t (.joined gid) }
  | remove {t gid : Nat} {mgr : ConnectionMgr} (hidle : s.thread t = .idle) (hfree : s.free gid)
    (hidx : mgr.hashIdx = s.mgr.hashIdx)
    (hpair : mgr.pair = Function.update s.mgr.pair gid none) :
    Step s (.remove t gid) { s with
      mgr
      lock := s.setLock gid (some t)
      thread := Function.update s.thread t (.leaving gid) }
  | removeFailed {t gid : Nat} : Step s (.remove t gid) s
  | leave {t gid : Nat} (ht : s.thread t = .leaving gid) :
    Step s (.leave t) { s with
      globalPlayer := s.globalPlayer.erase gid
      thread := Function.update s.thread t (.left gid) }
  | unlock {t gid : Nat} (ht : s.thread t = .joined gid ∨ s.thread t = .left gid) :
    Step s (.unlock t) { s with
      lock := s.setLock gid none
      thread := Function.update s.thread t .idle }
  | copy {t : Nat} (hidle : s.thread t = .idle) :
    Step s (.copy t) { s with
      thread := Function.update s.thread t (.sending (s.globalPlayer.sort (· ≤ ·))) }
  | send {t player : Nat} {rest : List Nat} (ht : s.thread t = .sending (player :: rest))
    (hpair : s.mgr.pair player ≠ none) :
    Step s (.send t) { s with
      thread := Function.update s.thread t (.sending rest)
      sent := s.sent ++ [(t, player)] }
  | sendFailed {t player : Nat} {rest : List Nat} (ht : s.thread t = .sending (player :: rest))
    (hpair : s.mgr.pair player = none) :
    Step s (.send t) { s with thread := Function.update s.thread t (.sending rest) }
  | finish {t : Nat} (ht : s.thread t = .sending []) :
    Step s (.finish t) { s with thread := Function.update s.thread t .idle }

theorem hashIdx_of_threadSize {mgr mgr' : ConnectionMgr} (h : mgr'.threadSize = mgr.threadSize) :
    mgr'.hashIdx = mgr.hashIdx := by
  funext gid
  rw [ConnectionMgr.hashIdx, ConnectionMgr.hashIdx, h]

theorem step_of_next (h : s.next a = some s') : Step s a s' := by
  cases a with
  | insert t gid value =>
    obtain ⟨⟨hidle, hfree⟩, h⟩ := Option.ite_none_right_eq_some.mp h
    cases h
    have hidx : (s.mgr.insert gid value).2.hashIdx = s.mgr.hashIdx := hashIdx_of_threadSize rfl
    rcases s.mgr.insert_spec gid value with ⟨-, -, hpair⟩ | ⟨-, -, hpair⟩
    · exact .insert hidle hfree hidx hpair
    · exact .insertFailed hidle hidx hpair
  | onNewConnection t gid =>
    obtain ⟨⟨hidle, hfree⟩, h⟩ := Option.ite_none_right_eq_some.mp h
    rw [ConnectionMgr.ifExist_eq] at h
    cases hpair : s.mgr.pair gid with
    | none =>
      rw [hpair] at h
      cases h
      exact .onNewConnectionFailed
    | some value =>
      rw [hpair] at h
      cases h
      exact .onNewConnection hidle hfree (by simp [hpair])
  | join t =>
    simp only [next] at h
    split at h
    · cases h
      exact .join (by assumption)
    · cases h
  | remove t gid =>
    obtain ⟨⟨hidle, hfree⟩, h⟩ := Option.ite_none_right_eq_some.mp h
    obtain ⟨-, hpair⟩ := s.mgr.remove_spec gid
    have hidx : (s.mgr.remove gid).2.hashIdx = s.mgr.hashIdx := hashIdx_of_threadSize rfl
    split at h
    · rename_i value mgr hremove
      rw [hremove] at hpair hidx
      cases h
      exact .remove hidle hfree hidx hpair
    · cases h
      exact .removeFailed
  | leave t =>
    simp only [next] at h
    split at h
    · cases h
      exact .leave (by assumption)
    · cases h
  | unlock t =>
    simp only [next] at h
    split at h
    · rename_i gid ht
      cases h
      exact .unlock (Or.inl ht)
    · rename_i gid ht
      cases h
      exact .unlock (Or.inr ht)
    · cases h
  | copy t =>
    obtain ⟨hidle, h⟩ := Option.ite_none_right_eq_some.mp h
    cases h
    exact .copy hidle
  | send t =>
    simp only [next] at h
    split at h
    · rename_i player rest ht
      obtain ⟨hfree, h⟩ := Option.ite_none_right_eq_some.mp h
      rw [ConnectionMgr.ifExist_eq] at h
      cases hpair : s.mgr.pair player with
      | none =>
        rw [hpair] at h
        cases h
        exact .sendFailed ht hpair
      | some value =>
        rw [hpair] at h
        cases h
        exact .send ht (by simp [hpair])
    · cases h
  | finish t =>
    simp only [next] at h
    split at h
    · cases h
      exact .finish (by assumption)
    · cases h

/-! ## Nobody is left behind -/

/-- The mutexes and the players. -/
structure Inv (s : Players) : Prop where
  /-- Who is inside a call holds the mutex of the mapping, and nobody else does. -/
  lock : ∀ i t, s.lock i = some t ↔ ∃ gid, (s.thread t).holds = some gid ∧ s.mgr.hashIdx gid = i
  joining : ∀ t gid, (s.thread t).joins = some gid → s.mgr.pair gid ≠ none
  leaving : ∀ t gid, (s.thread t).leaves = some gid → s.mgr.pair gid = none
  left : ∀ t gid, s.thread t = .left gid → gid ∉ s.globalPlayer
  /-- A player has a connection, or is about to be taken out of the set. -/
  player : ∀ gid ∈ s.globalPlayer, s.mgr.pair gid ≠ none ∨ ∃ t, s.thread t = .leaving gid

theorem inv_start : Inv (start threadSize) where
  lock i t := by simp [start, PlayerPc.holds]
  joining t gid h := by cases h
  leaving t gid h := by cases h
  left t gid h := by simp [start] at h
  player gid h := by simp [start] at h

theorem Inv.owner (h : Inv s) {t gid : Nat} (ht : (s.thread t).holds = some gid) :
    s.lock (s.mgr.hashIdx gid) = some t := (h.lock _ t).mpr ⟨gid, ht, rfl⟩

/-- Two threads are not inside calls for the same gid. -/
theorem Inv.alone (h : Inv s) {t u gid : Nat} (ht : (s.thread t).holds = some gid)
    (hu : (s.thread u).holds = some gid) : t = u :=
  Option.some.inj ((h.owner ht).symm.trans (h.owner hu))

/-- Nobody is inside a call for a gid whose mapping is not locked. -/
theorem Inv.nobody (h : Inv s) {gid : Nat} (hfree : s.free gid) (t : Nat) :
    (s.thread t).holds ≠ some gid := by
  intro ht
  cases hfree.symm.trans (h.owner ht)

theorem thread_update {t u : Nat} {pc pc' : PlayerPc}
    (h : Function.update s.thread t pc u = pc') : (u = t ∧ pc = pc') ∨ (u ≠ t ∧ s.thread u = pc') := by
  by_cases heq : u = t
  · subst heq
    rw [Function.update_self] at h
    exact Or.inl ⟨rfl, h⟩
  · rw [Function.update_of_ne heq] at h
    exact Or.inr ⟨heq, h⟩

/-- A gid is being taken out, by another thread than the one that makes the step. -/
theorem still_leaving {t gid : Nat} {pc : PlayerPc} (hne : s.thread t ≠ .leaving gid) :
    (∃ u, s.thread u = .leaving gid) → ∃ u, Function.update s.thread t pc u = .leaving gid := by
  rintro ⟨u, hu⟩
  have hother : u ≠ t := by
    rintro rfl
    exact hne hu
  exact ⟨u, (Function.update_of_ne hother _ _).trans hu⟩

/-- The thread goes on inside its call, or outside of calls. -/
theorem lock_same (h : Inv s) {t : Nat} {pc : PlayerPc} (hpc : pc.holds = (s.thread t).holds)
    (i u : Nat) : s.lock i = some u ↔
      ∃ gid, (Function.update s.thread t pc u).holds = some gid ∧ s.mgr.hashIdx gid = i := by
  have hsame : (Function.update s.thread t pc u).holds = (s.thread u).holds := by
    by_cases heq : u = t
    · rw [heq, Function.update_self, hpc]
    · rw [Function.update_of_ne heq]
  rw [hsame]
  exact h.lock i u

/-- The thread begins a call. -/
theorem lock_taken (h : Inv s) {t gid : Nat} {pc : PlayerPc} (hidle : s.thread t = .idle)
    (hfree : s.free gid) (hpc : pc.holds = some gid) (i u : Nat) :
    s.setLock gid (some t) i = some u ↔
      ∃ g, (Function.update s.thread t pc u).holds = some g ∧ s.mgr.hashIdx g = i := by
  by_cases hi : i = s.mgr.hashIdx gid
  · subst hi
    rw [setLock, Function.update_self, Option.some.injEq]
    constructor
    · rintro rfl
      exact ⟨gid, by rw [Function.update_self, hpc], rfl⟩
    · rintro ⟨g, hg, hidx⟩
      by_contra hne
      rw [Function.update_of_ne (Ne.symm hne)] at hg
      have howner := h.owner hg
      rw [hidx] at howner
      cases hfree.symm.trans howner
  · rw [setLock, Function.update_of_ne hi, h.lock]
    by_cases heq : u = t
    · subst heq
      rw [Function.update_self, hidle, hpc]
      simp only [PlayerPc.holds, reduceCtorEq, false_and, exists_false, Option.some.injEq, false_iff,
        not_exists, not_and]
      rintro g rfl hidx
      exact hi hidx.symm
    · rw [Function.update_of_ne heq]

/-- The thread ends a call. -/
theorem lock_dropped (h : Inv s) {t gid : Nat} (ht : (s.thread t).holds = some gid) (i u : Nat) :
    s.setLock gid none i = some u ↔
      ∃ g, (Function.update s.thread t .idle u).holds = some g ∧ s.mgr.hashIdx g = i := by
  by_cases heq : u = t
  · subst heq
    rw [Function.update_self]
    simp only [PlayerPc.holds, reduceCtorEq, false_and, exists_false, iff_false]
    by_cases hi : i = s.mgr.hashIdx gid
    · rw [hi, setLock, Function.update_self]
      simp
    · rw [setLock, Function.update_of_ne hi, h.lock]
      rintro ⟨g, hg, hidx⟩
      cases ht.symm.trans hg
      exact hi hidx.symm
  · rw [Function.update_of_ne heq]
    by_cases hi : i = s.mgr.hashIdx gid
    · subst hi
      rw [setLock, Function.update_self]
      simp only [reduceCtorEq, false_iff]
      rintro ⟨g, hg, hidx⟩
      have howner := h.owner hg
      rw [hidx] at howner
      exact heq (Option.some.inj (howner.symm.trans (h.owner ht)))
    · rw [setLock, Function.update_of_ne hi]
      exact h.lock i u

/-- What is true of the threads by a function of their places, when one of them goes on. -/
theorem place_update {f : PlayerPc → Option Nat} {t u gid : Nat} {pc : PlayerPc} (hpc : f pc = none)
    (h : f (Function.update s.thread t pc u) = some gid) : f (s.thread u) = some gid := by
  by_cases heq : u = t
  · rw [heq, Function.update_self, hpc] at h
    cases h
  · rwa [Function.update_of_ne heq] at h

/-- The same where the thread goes on with a gid. -/
theorem place_entered {f : PlayerPc → Option Nat} {t u gid g : Nat} {pc : PlayerPc}
    (hpc : f pc = some gid) (h : f (Function.update s.thread t pc u) = some g) :
    g = gid ∨ f (s.thread u) = some g := by
  by_cases heq : u = t
  · rw [heq, Function.update_self, hpc] at h
    exact Or.inl (Option.some.inj h).symm
  · rw [Function.update_of_ne heq] at h
    exact Or.inr h

theorem left_update {t u gid : Nat} {pc : PlayerPc} (hpc : ∀ g, pc ≠ .left g)
    (h : Function.update s.thread t pc u = .left gid) : u ≠ t ∧ s.thread u = .left gid := by
  by_cases heq : u = t
  · rw [heq, Function.update_self] at h
    exact absurd h (hpc gid)
  · rw [Function.update_of_ne heq] at h
    exact ⟨heq, h⟩

/-- A step that leaves the mutexes, the pairs and the players as they are. -/
theorem inv_idle (h : Inv s) {t : Nat} {pc : PlayerPc} {sent : List (Nat × Nat)}
    (hold : (s.thread t).holds = none) (hpc : pc.holds = none) :
    Inv { s with thread := Function.update s.thread t pc, sent } where
  lock := lock_same h (hpc.trans hold.symm)
  joining u gid hu := h.joining u gid (place_update (joins_of_holds hpc) hu)
  leaving u gid hu := h.leaving u gid (place_update (leaves_of_holds hpc) hu)
  left u gid hu := by
    refine h.left u gid (left_update ?_ hu).2
    rintro g rfl
    cases hpc
  player gid hgid := by
    refine (h.player gid hgid).imp_right (still_leaving ?_)
    intro ht
    rw [ht] at hold
    cases hold

theorem inv_insert (h : Inv s) {gid : Nat} {value : Nat × Nat} {mgr : ConnectionMgr}
    (hfree : s.free gid) (hidx : mgr.hashIdx = s.mgr.hashIdx)
    (hpair : mgr.pair = Function.update s.mgr.pair gid (some value)) : Inv { s with mgr } := by
  refine ⟨?_, ?_, ?_, h.left, ?_⟩
  · rw [hidx]
    exact h.lock
  · intro u g hu
    rw [hpair]
    by_cases heq : g = gid
    · rw [heq, Function.update_self]
      simp
    · rw [Function.update_of_ne heq]
      exact h.joining u g hu
  · intro u g hu
    have hne : g ≠ gid := by
      rintro rfl
      exact h.nobody hfree u (holds_of_leaves hu)
    rw [hpair, Function.update_of_ne hne]
    exact h.leaving u g hu
  · intro g hg
    rw [hpair]
    by_cases heq : g = gid
    · rw [heq, Function.update_self]
      exact Or.inl (by simp)
    · rw [Function.update_of_ne heq]
      exact h.player g hg

theorem inv_join (h : Inv s) {t gid : Nat} (ht : s.thread t = .joining gid) :
    Inv { s with
      globalPlayer := Insert.insert gid s.globalPlayer
      thread := Function.update s.thread t (.joined gid) } := by
  have hholds : (s.thread t).holds = some gid := congrArg PlayerPc.holds ht
  have hjoins : (s.thread t).joins = some gid := congrArg PlayerPc.joins ht
  refine ⟨lock_same h hholds.symm, ?_, ?_, ?_, ?_⟩
  · intro u g hu
    rcases place_entered (f := PlayerPc.joins) rfl hu with rfl | hu
    · exact h.joining t g hjoins
    · exact h.joining u g hu
  · exact fun u g hu => h.leaving u g (place_update rfl hu)
  · intro u g hu
    obtain ⟨hne, hleft⟩ := left_update (by simp) hu
    rw [Finset.mem_insert, not_or]
    refine ⟨?_, h.left u g hleft⟩
    rintro rfl
    have hu' : (s.thread u).holds = some g := congrArg PlayerPc.holds hleft
    exact hne (h.alone hu' hholds)
  · intro g hg
    rcases Finset.mem_insert.mp hg with rfl | hg
    · exact Or.inl (h.joining t g hjoins)
    · exact (h.player g hg).imp_right (still_leaving (by simp [ht]))

theorem inv_remove (h : Inv s) {t gid : Nat} {mgr : ConnectionMgr} (hidle : s.thread t = .idle)
    (hfree : s.free gid) (hidx : mgr.hashIdx = s.mgr.hashIdx)
    (hpair : mgr.pair = Function.update s.mgr.pair gid none) :
    Inv { s with
      mgr
      lock := s.setLock gid (some t)
      thread := Function.update s.thread t (.leaving gid) } := by
  refine ⟨?_, ?_, ?_, ?_, ?_⟩
  · rw [hidx]
    exact lock_taken h hidle hfree rfl
  · intro u g hu
    have hold : (s.thread u).joins = some g := place_update rfl hu
    have hne : g ≠ gid := by
      rintro rfl
      exact h.nobody hfree u (holds_of_joins hold)
    rw [hpair, Function.update_of_ne hne]
    exact h.joining u g hold
  · intro u g hu
    rw [hpair]
    by_cases heq : g = gid
    · rw [heq, Function.update_self]
    · rw [Function.update_of_ne heq]
      exact h.leaving u g ((place_entered (f := PlayerPc.leaves) rfl hu).resolve_left heq)
  · exact fun u g hu => h.left u g (left_update (by simp) hu).2
  · intro g hg
    rw [hpair]
    by_cases heq : g = gid
    · rw [heq]
      exact Or.inr ⟨t, Function.update_self ..⟩
    · rw [Function.update_of_ne heq]
      exact (h.player g hg).imp_right (still_leaving (by simp [hidle]))

theorem inv_leave (h : Inv s) {t gid : Nat} (ht : s.thread t = .leaving gid) :
    Inv { s with
      globalPlayer := s.globalPlayer.erase gid
      thread := Function.update s.thread t (.left gid) } := by
  have hholds : (s.thread t).holds = some gid := congrArg PlayerPc.holds ht
  have hleaves : (s.thread t).leaves = some gid := congrArg PlayerPc.leaves ht
  refine ⟨lock_same h hholds.symm, ?_, ?_, ?_, ?_⟩
  · exact fun u g hu => h.joining u g (place_update rfl hu)
  · intro u g hu
    rcases place_entered (f := PlayerPc.leaves) rfl hu with rfl | hu
    · exact h.leaving t g hleaves
    · exact h.leaving u g hu
  · intro u g hu
    rcases thread_update hu with ⟨-, hpc⟩ | ⟨-, hu⟩
    · cases hpc
      exact Finset.notMem_erase gid s.globalPlayer
    · exact fun hg => h.left u g hu (Finset.mem_of_mem_erase hg)
  · intro g hg
    obtain ⟨hne, hg⟩ := Finset.mem_erase.mp hg
    refine (h.player g hg).imp_right (still_leaving ?_)
    rw [ht]
    intro heq
    cases heq
    exact hne rfl

theorem inv_unlock (h : Inv s) {t gid : Nat} (ht : s.thread t = .joined gid ∨ s.thread t = .left gid) :
    Inv { s with
      lock := s.setLock gid none
      thread := Function.update s.thread t .idle } := by
  have hholds : (s.thread t).holds = some gid := by
    rcases ht with ht | ht
    · exact congrArg PlayerPc.holds ht
    · exact congrArg PlayerPc.holds ht
  refine ⟨lock_dropped h hholds, ?_, ?_, ?_, ?_⟩
  · exact fun u g hu => h.joining u g (place_update rfl hu)
  · exact fun u g hu => h.leaving u g (place_update rfl hu)
  · exact fun u g hu => h.left u g (left_update (by simp) hu).2
  · intro g hg
    refine (h.player g hg).imp_right (still_leaving ?_)
    rcases ht with ht | ht <;> simp [ht]

theorem inv_step (h : Inv s) (hstep : Step s a s') : Inv s' := by
  cases hstep with
  | insert hidle hfree hidx hpair => exact inv_insert h hfree hidx hpair
  | insertFailed hidle hidx hpair =>
    refine ⟨?_, ?_, ?_, h.left, ?_⟩
    · rw [hidx]
      exact h.lock
    · rw [hpair]
      exact h.joining
    · rw [hpair]
      exact h.leaving
    · rw [hpair]
      exact h.player
  | @onNewConnection t gid hidle hfree hpair =>
    refine ⟨lock_taken h hidle hfree rfl, ?_, ?_, ?_, ?_⟩
    · intro u g hu
      rcases place_entered (f := PlayerPc.joins) rfl hu with rfl | hu
      · exact hpair
      · exact h.joining u g hu
    · exact fun u g hu => h.leaving u g (place_update rfl hu)
    · exact fun u g hu => h.left u g (left_update (by simp) hu).2
    · intro g hg
      exact (h.player g hg).imp_right (still_leaving (by simp [hidle]))
  | onNewConnectionFailed => exact h
  | join ht => exact inv_join h ht
  | remove hidle hfree hidx hpair => exact inv_remove h hidle hfree hidx hpair
  | removeFailed => exact h
  | leave ht => exact inv_leave h ht
  | unlock ht => exact inv_unlock h ht
  | copy hidle => exact inv_idle h (by rw [hidle]; rfl) rfl
  | send ht hpair => exact inv_idle h (by rw [ht]; rfl) rfl
  | sendFailed ht hpair => exact inv_idle h (by rw [ht]; rfl) rfl
  | finish ht => exact inv_idle h (by rw [ht]; rfl) rfl

theorem inv_reachable (hreach : (system threadSize).Reachable s) : Inv s := by
  apply hreach.invariant (P := Inv)
  · rintro s rfl
    exact inv_start
  · intro s a s' _ h hnext
    exact inv_step h (step_of_next hnext)

/-- The thread that makes the step. -/
def Action.thread : Action → Nat
  | .insert t _ _ => t
  | .onNewConnection t _ => t
  | .join t => t
  | .remove t _ => t
  | .leave t => t
  | .unlock t => t
  | .copy t => t
  | .send t => t
  | .finish t => t

/-- A player stays in the set until the hook of its `remove` takes it out. -/
theorem player_step (hstep : Step s a s') {gid : Nat} (hgid : gid ∈ s.globalPlayer) :
    gid ∈ s'.globalPlayer ∨ ∃ t, a = .leave t ∧ s.thread t = .leaving gid := by
  cases hstep with
  | join ht => exact Or.inl (Finset.mem_insert_of_mem hgid)
  | @leave t gid' ht =>
    by_cases heq : gid = gid'
    · subst heq
      exact Or.inr ⟨t, rfl, ht⟩
    · exact Or.inl (Finset.mem_erase.mpr ⟨heq, hgid⟩)
  | _ => exact Or.inl hgid

/-- Who holds a mutex does not wait for another one. -/
theorem holder_goes_on {t gid : Nat} (ht : (s.thread t).holds = some gid) :
    ∃ a s', a.thread = t ∧ s.next a = some s' := by
  cases hpc : s.thread t with
  | joining g => exact ⟨.join t, _, rfl, by simp only [next, hpc]; rfl⟩
  | joined g => exact ⟨.unlock t, _, rfl, by simp only [next, hpc]; rfl⟩
  | leaving g => exact ⟨.leave t, _, rfl, by simp only [next, hpc]; rfl⟩
  | left g => exact ⟨.unlock t, _, rfl, by simp only [next, hpc]; rfl⟩
  | idle =>
    rw [hpc] at ht
    cases ht
  | sending rest =>
    rw [hpc] at ht
    cases ht

/-- A thread can go on, or waits for a mutex whose holder can. -/
theorem goes_on (h : Inv s) (t : Nat) : (∃ a s', a.thread = t ∧ s.next a = some s') ∨
    ∃ player rest u b s', s.thread t = .sending (player :: rest) ∧
      s.lock (s.mgr.hashIdx player) = some u ∧ b.thread = u ∧ s.next b = some s' := by
  cases hpc : s.thread t with
  | idle => exact Or.inl ⟨.copy t, _, rfl, by simp only [next, hpc, if_true]; rfl⟩
  | sending rest =>
    cases rest with
    | nil => exact Or.inl ⟨.finish t, _, rfl, by simp only [next, hpc]; rfl⟩
    | cons player rest =>
      cases hlock : s.lock (s.mgr.hashIdx player) with
      | none =>
        have hfree : s.free player := hlock
        exact Or.inl ⟨.send t, _, rfl, by simp only [next, hpc, if_pos hfree]; rfl⟩
      | some u =>
        obtain ⟨gid, hu, -⟩ := (h.lock _ u).mp hlock
        obtain ⟨b, s', hb, hnext⟩ := holder_goes_on hu
        exact Or.inr ⟨player, rest, u, b, s', rfl, hlock, hb, hnext⟩
  | _ =>
    left
    apply holder_goes_on
    rw [hpc]
    rfl

/-- **Nobody is left behind.** A player whose mapping is not locked has a connection; a player stays
until the hook of its own `remove` takes it out; and a thread that cannot go on waits for a mutex
whose holder can. -/
theorem nobody_left_behind (hreach : (system threadSize).Reachable s) :
    (∀ gid ∈ s.globalPlayer, s.free gid → s.mgr.pair gid ≠ none) ∧
    (∀ a s' gid, s.next a = some s' → gid ∈ s.globalPlayer →
      gid ∈ s'.globalPlayer ∨ ∃ t, a = .leave t ∧ s.thread t = .leaving gid) ∧
    ∀ t, (∃ a s', a.thread = t ∧ s.next a = some s') ∨
      ∃ player rest u b s', s.thread t = .sending (player :: rest) ∧
        s.lock (s.mgr.hashIdx player) = some u ∧ b.thread = u ∧ s.next b = some s' := by
  have h := inv_reachable hreach
  refine ⟨?_, ?_, goes_on h⟩
  · intro gid hgid hfree
    refine (h.player gid hgid).resolve_right ?_
    rintro ⟨t, ht⟩
    exact h.nobody hfree t (congrArg PlayerPc.holds ht)
  · intro a s' gid hnext hgid
    exact player_step (step_of_next hnext) hgid

/-- A connection comes online. -/
def comeOnline : List Action := [.insert 0 5 (1, 1), .onNewConnection 0 5, .join 0, .unlock 0]

theorem nobody_left_behind_one : ∃ s : Players, (system 2).Reachable s ∧ 5 ∈ s.globalPlayer ∧
    s.mgr.pair 5 ≠ none := by
  have hstart : (system 2).Reachable (start 2) := .start rfl
  obtain ⟨s, hexec, hplayer, hfree⟩ : ∃ s, (system 2).exec (start 2) comeOnline = some s ∧
      5 ∈ s.globalPlayer ∧ s.free 5 := ⟨_, rfl, Finset.mem_insert_self 5 ∅, rfl⟩
  have hreach := hstart.run (.of_exec hexec)
  exact ⟨s, hreach, hplayer, (nobody_left_behind hreach).1 5 hplayer hfree⟩

/-! ## A packet for every player -/

end Players

end Tubekit
