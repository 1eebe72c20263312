import Tubekit.Socket.Ownership

/-!
# Nothing is lost and nothing is closed twice

`SocketAt` and `ConnectionAt` say where an object can be. Every step moves one object at most,
so each object stays at exactly one place (`Custody`). A position of a removal list counts until
the main thread has gone past it: that is what makes the final `clear` of the list harmless.

A gid is an object of the same kind: it is not yet inserted, in the map, with the worker that
removes it, or done. With distinct gids this gives that the hook, the release and the queueing
happen once for each of them.
-/

namespace Tubekit

open Lib.Transition

namespace MainHand

/-- The socket in the hand of the main thread. -/
def socket : MainHand → Option Nat
  | .accepted s _ => some s
  | .refused s => some s
  | .holding s _ _ => some s
  | .unwanted s _ => some s
  | .removing _ s => some s
  | .closed _ s => some s
  | _ => none

/-- The connection in the hand of the main thread. -/
def connection : MainHand → Option Nat
  | .holding _ c _ => some c
  | .unwanted _ c => some c
  | _ => none

/-- How far `update_wait_remove` is in the list it reads. -/
def progress : MainHand → Nat
  | .updating pos => pos
  | .removing pos _ => pos + 1
  | .closed pos _ => pos + 1
  | _ => 0

/-- The gid of the pair that is being accepted. -/
def gid : MainHand → Option Nat
  | .accepted _ g => some g
  | .holding _ _ g => some g
  | _ => none

end MainHand

namespace WorkerHand

def socket : WorkerHand → Option Nat
  | .erased _ s _ => some s
  | .hooked _ s _ => some s
  | .released _ s => some s
  | _ => none

def connection : WorkerHand → Option Nat
  | .erased _ _ c => some c
  | .hooked _ _ c => some c
  | _ => none

/-- The gid whose pair the worker is removing. -/
def gid : WorkerHand → Option Nat
  | .erased g _ _ => some g
  | .hooked g _ _ => some g
  | .released g _ => some g
  | _ => none

end WorkerHand

inductive SocketPlace where
  | pool
  | main
  | worker (w : Nat)
  | entry (gid : Nat)
  | position (l : RemoveList) (i : Nat)

inductive ConnectionPlace where
  | pool
  | main
  | worker (w : Nat)
  | entry (gid : Nat)

inductive GidPlace where
  | fresh
  | entry
  | erased (w : Nat)
  | hooked (w : Nat)
  | released (w : Nat)
  | done

namespace Ownership

variable {type : TaskType} {sockets connections : Finset Nat} {s s' : Ownership} {a : Action}

/-- The main thread has gone past this position. -/
def Processed (s : Ownership) (l : RemoveList) (i : Nat) : Prop :=
  l = s.readList ∧ i < s.main.progress

def SocketAt (s : Ownership) (x : Nat) : SocketPlace → Prop
  | .pool => x ∈ s.socketPool
  | .main => s.main.socket = some x
  | .worker w => (s.worker w).socket = some x
  | .entry g => ∃ c, s.entry g = some (x, c)
  | .position l i => (s.list l)[i]? = some x ∧ ¬s.Processed l i

def ConnectionAt (s : Ownership) (c : Nat) : ConnectionPlace → Prop
  | .pool => c ∈ s.connectionPool
  | .main => s.main.connection = some c
  | .worker w => (s.worker w).connection = some c
  | .entry g => ∃ x, s.entry g = some (x, c)

/-! ## Connections -/

theorem connection_step (h : Custody s.ConnectionAt ↑connections) (hstep : Step type s a s') :
    Custody s'.ConnectionAt ↑connections := by
  cases hstep with
  | @create x c g hmain hpool =>
    have hu := fun q => h.unique (o := c) (p := .pool) (q := q) hpool
    refine h.move (o := c) (p := .pool) (q := .main) hpool fun c' p => ?_
    cases p <;> grind [ConnectionAt, MainHand.connection]
  | @insert x c g hmain hnew =>
    have hat : s.ConnectionAt c .main := by simp [ConnectionAt, hmain, MainHand.connection]
    have hu := fun q => h.unique (q := q) hat
    refine h.move (q := .entry g) hat fun c' p => ?_
    cases p <;> grind [ConnectionAt, MainHand.connection]
  | @releaseUnwanted x c hmain =>
    have hat : s.ConnectionAt c .main := by simp [ConnectionAt, hmain, MainHand.connection]
    have hu := fun q => h.unique (q := q) hat
    refine h.move (q := .pool) hat fun c' p => ?_
    cases p <;> grind [ConnectionAt, MainHand.connection]
  | @erase w g x c hworker hentry =>
    have hat : s.ConnectionAt c (.entry g) := ⟨x, hentry⟩
    have hu := fun q => h.unique (q := q) hat
    refine h.move (q := .worker w) hat fun c' p => ?_
    cases p <;> grind [ConnectionAt, WorkerHand.connection]
  | @release w g x c hworker =>
    have hat : s.ConnectionAt c (.worker w) := by
      simp [ConnectionAt, hworker, WorkerHand.connection]
    have hu := fun q => h.unique (q := q) hat
    refine h.move (q := .pool) hat fun c' p => ?_
    cases p <;> grind [ConnectionAt, WorkerHand.connection]
  | _ =>
    refine h.stay fun c' p => ?_
    cases p <;> grind [ConnectionAt, MainHand.connection, WorkerHand.connection]

/-! ## Sockets -/

/-- A socket that is out of the pool has a descriptor, until the main thread closes it. -/
def FdOpen (sockets : Finset Nat) (s : Ownership) : Prop :=
  ∀ x ∈ sockets, x ∈ s.socketPool ∨ 0 < s.fd x ∨ ∃ pos, s.main = .closed pos x

theorem socketAt_push {l : RemoveList} {i x : Nat} (y : Nat) :
    (s.push y l)[i]? = some x ↔
      (s.list l)[i]? = some x ∨ (l = s.writeList ∧ i = (s.list l).length ∧ x = y) := by
  unfold push
  by_cases hl : l = s.writeList
  · subst hl
    rw [Function.update_self]
    grind
  · simp [hl]

theorem socket_step (h : Custody s.SocketAt ↑sockets) (hfd : s.FdOpen sockets)
    (hlists : s.readList ≠ s.writeList) (hstep : Step type s a s') : Custody s'.SocketAt ↑sockets := by
  cases hstep with
  | @accept x g fd hmain hpool hpos =>
    have hu := fun q => h.unique (o := x) (p := .pool) (q := q) hpool
    refine h.move (o := x) (p := .pool) (q := .main) hpool fun x' p => ?_
    cases p <;> grind [SocketAt, Processed, MainHand.socket, MainHand.progress]
  | @insert x c g hmain hnew =>
    have hat : s.SocketAt x .main := by simp [SocketAt, hmain, MainHand.socket]
    have hu := fun q => h.unique (q := q) hat
    refine h.move (q := .entry g) hat fun x' p => ?_
    cases p <;> grind [SocketAt, Processed, MainHand.socket, MainHand.progress]
  | @pushRefused x hmain =>
    have hat : s.SocketAt x .main := by simp [SocketAt, hmain, MainHand.socket]
    have hu := fun q => h.unique (q := q) hat
    refine h.move (q := .position s.writeList (s.list s.writeList).length) hat fun x' p => ?_
    cases p <;> grind [SocketAt, Processed, MainHand.socket, MainHand.progress, socketAt_push]
  | @take pos x hmain hget =>
    have hat : s.SocketAt x (.position s.readList pos) :=
      ⟨hget, by simp [Processed, hmain, MainHand.progress]⟩
    have hu := fun q => h.unique (q := q) hat
    refine h.move (q := .main) hat fun x' p => ?_
    cases p <;> grind [SocketAt, Processed, MainHand.socket, MainHand.progress]
  | @skip pos x hmain hle =>
    -- a socket in the hand of the main thread has a descriptor
    have hat : s.SocketAt x .main := by simp [SocketAt, hmain, MainHand.socket]
    rcases hfd x (h.known x .main hat) with hpool | hpos | ⟨pos', hclosed⟩
    · cases h.unique (p := .pool) hpool hat
    · exact absurd hpos (by omega)
    · rw [hmain] at hclosed
      cases hclosed
  | @releaseSocket pos x hmain =>
    have hat : s.SocketAt x .main := by simp [SocketAt, hmain, MainHand.socket]
    have hu := fun q => h.unique (q := q) hat
    refine h.move (q := .pool) hat fun x' p => ?_
    cases p <;> grind [SocketAt, Processed, MainHand.socket, MainHand.progress]
  | @clear pos hmain hend =>
    refine h.stay fun x' p => ?_
    cases p <;> grind [SocketAt, Processed, MainHand.socket, MainHand.progress]
  | @erase w g x c hworker hentry =>
    have hat : s.SocketAt x (.entry g) := ⟨c, hentry⟩
    have hu := fun q => h.unique (q := q) hat
    refine h.move (q := .worker w) hat fun x' p => ?_
    cases p <;> grind [SocketAt, Processed, WorkerHand.socket]
  | @pushWaitRemove w g x hworker =>
    have hat : s.SocketAt x (.worker w) := by simp [SocketAt, hworker, WorkerHand.socket]
    have hu := fun q => h.unique (q := q) hat
    refine h.move (q := .position s.writeList (s.list s.writeList).length) hat fun x' p => ?_
    cases p <;> grind [SocketAt, Processed, WorkerHand.socket, socketAt_push]
  | _ =>
    refine h.stay fun x' p => ?_
    cases p <;> grind [SocketAt, Processed, MainHand.socket, MainHand.progress, WorkerHand.socket]

theorem fdOpen_step (hfd : s.FdOpen sockets) (hstep : Step type s a s') : s'.FdOpen sockets := by
  intro x hx
  have hold := hfd x hx
  cases hstep with
  | @close pos y hmain hpos =>
    by_cases hxy : x = y
    · exact Or.inr (Or.inr ⟨pos, by rw [hxy]⟩)
    · grind
  | _ => grind

structure Inv (sockets connections : Finset Nat) (s : Ownership) : Prop where
  socketCustody : Custody s.SocketAt ↑sockets
  connectionCustody : Custody s.ConnectionAt ↑connections
  fdOpen : s.FdOpen sockets
  lists : s.readList ≠ s.writeList

theorem other_injective : Function.Injective RemoveList.other := by
  intro l l' h
  cases l <;> cases l' <;> first | rfl | cases h

theorem inv_step (h : Inv sockets connections s) (hstep : Step type s a s') :
    Inv sockets connections s' := by
  refine ⟨socket_step h.socketCustody h.fdOpen h.lists hstep,
    connection_step h.connectionCustody hstep,
    fdOpen_step h.fdOpen hstep, ?_⟩
  have hlists := h.lists
  cases hstep with
  | updateWaitRemove hmain => exact fun heq => hlists (other_injective heq)
  | _ => exact hlists

theorem inv_start (fd : Nat → Int) (socketGid : Nat → Nat) (closeFlag : Nat → Bool) :
    Inv sockets connections (start sockets connections fd socketGid closeFlag) where
  socketCustody := by
    refine ⟨fun x hx => ⟨.pool, hx, fun p hp => ?_⟩, fun x p hp => ?_⟩
    all_goals
      cases p with
      | pool => first | rfl | exact hp
      | _ => simp [SocketAt, start, MainHand.socket, WorkerHand.socket] at hp
  connectionCustody := by
    refine ⟨fun c hc => ⟨.pool, hc, fun p hp => ?_⟩, fun c p hp => ?_⟩
    all_goals
      cases p with
      | pool => first | rfl | exact hp
      | _ => simp [ConnectionAt, start, MainHand.connection, WorkerHand.connection] at hp
  fdOpen := fun x hx => Or.inl hx
  lists := by simp [start]

theorem inv_reachable (h : (system type sockets connections).Reachable s) :
    Inv sockets connections s := by
  refine h.invariant (P := Inv sockets connections) ?_ fun t a t' _ hinv hnext =>
    inv_step hinv (step_of_next hnext)
  rintro t ⟨fd, socketGid, closeFlag, rfl⟩
  exact inv_start fd socketGid closeFlag

/-! ## Gids -/

def GidAt (s : Ownership) (g : Nat) : GidPlace → Prop
  | .fresh => g ∉ s.inserted
  | .entry => s.entry g ≠ none
  | .erased w => ∃ x c, s.worker w = .erased g x c
  | .hooked w => ∃ x c, s.worker w = .hooked g x c
  | .released w => ∃ x, s.worker w = .released g x
  | .done => g ∈ s.queued

end Ownership

namespace GidPlace

/-- The gid has been inserted, its hook was called, its connection was released. -/
def Inserted (p : GidPlace) : Prop := p ≠ .fresh

def Hooked : GidPlace → Prop
  | .hooked _ => True
  | .released _ => True
  | .done => True
  | _ => False

def Released : GidPlace → Prop
  | .released _ => True
  | .done => True
  | _ => False

def Queued (p : GidPlace) : Prop := p = .done

end GidPlace

namespace Ownership

variable {type : TaskType} {sockets connections : Finset Nat} {s s' : Ownership} {a : Action}

/-- What has been done for a gid follows from the place it is at. -/
structure Once (type : TaskType) (s : Ownership) : Prop where
  gidCustody : Custody s.GidAt Set.univ
  known : ∀ g ∈ s.inserted, g ∈ s.accepted
  pending : ∀ g, s.main.gid = some g → g ∈ s.accepted ∧ g ∉ s.inserted
  inserted : Tally s.GidAt GidPlace.Inserted s.inserted
  hooked : type ≠ .httpTask → Tally s.GidAt GidPlace.Hooked s.hooked
  notHooked : type = .httpTask → s.hooked = []
  released : Tally s.GidAt GidPlace.Released s.released
  queued : Tally s.GidAt GidPlace.Queued s.queued

theorem once_step (h : Once type s) (hstep : Step type s a s') (hdistinct : s'.accepted.Nodup) :
    Once type s' := by
  have hc := h.gidCustody
  cases hstep with
  | @accept x g fd hmain hpool hpos =>
    have hnew : g ∉ s.accepted := by
      intro hin
      exact (List.nodup_append.mp hdistinct).2.2 g hin g (by simp) rfl
    have hstay : ∀ g' p, GidAt { s with
        socketPool := s.socketPool.erase x
        fd := Function.update s.fd x fd
        socketGid := Function.update s.socketGid x g
        main := .accepted x g
        accepted := s.accepted ++ [g] } g' p ↔ s.GidAt g' p := by
      intro g' p
      cases p <;> rfl
    refine ⟨hc.stay hstay, ?_, ?_, h.inserted.stay hstay, fun ht => (h.hooked ht).stay hstay,
      h.notHooked, h.released.stay hstay, h.queued.stay hstay⟩
    · exact fun g' hg' => List.mem_append_left _ (h.known g' hg')
    · intro g' hg'
      cases hg'
      exact ⟨by simp, fun hin => hnew (h.known g hin)⟩
  | @insert x c g hmain hnew =>
    obtain ⟨hin, hat⟩ := h.pending g (by simp [hmain, MainHand.gid])
    have hat : s.GidAt g .fresh := hat
    have hu := fun q => hc.unique (q := q) hat
    have hmove : Moves s.GidAt (GidAt { s with
        entry := Function.update s.entry g (some (x, c))
        main := .free
        inserted := s.inserted ++ [g] }) g .entry := by
      intro g' p
      cases p <;> grind [GidAt]
    refine ⟨hc.move hat hmove, ?_, by simp [MainHand.gid], ?_, fun ht => ?_, h.notHooked, ?_, ?_⟩
    · have hknown := h.known
      grind
    · exact h.inserted.gain hc hat hmove (by simp [GidPlace.Inserted]) (by simp [GidPlace.Inserted])
    · exact (h.hooked ht).same hc hat hmove Iff.rfl
    · exact h.released.same hc hat hmove Iff.rfl
    · exact h.queued.same hc hat hmove (by simp [GidPlace.Queued])
  | @erase w g x c hworker hentry =>
    have hat : s.GidAt g .entry := by simp [GidAt, hentry]
    have hu := fun q => hc.unique (q := q) hat
    have hmove : Moves s.GidAt (GidAt { s with
        entry := Function.update s.entry g none
        worker := Function.update s.worker w (.erased g x c) }) g (.erased w) := by
      intro g' p
      cases p <;> grind [GidAt]
    exact ⟨hc.move hat hmove, h.known, h.pending,
      h.inserted.same hc hat hmove (by simp [GidPlace.Inserted]),
      fun ht => (h.hooked ht).same hc hat hmove Iff.rfl, h.notHooked,
      h.released.same hc hat hmove Iff.rfl,
      h.queued.same hc hat hmove (by simp [GidPlace.Queued])⟩
  | @hook w g x c hworker =>
    have hat : s.GidAt g (.erased w) := ⟨x, c, hworker⟩
    have hu := fun q => hc.unique (q := q) hat
    have hmove : Moves s.GidAt (GidAt { s with
        worker := Function.update s.worker w (.hooked g x c)
        hooked := if type = .httpTask then s.hooked else s.hooked ++ [g] }) g (.hooked w) := by
      intro g' p
      cases p <;> grind [GidAt]
    refine ⟨hc.move hat hmove, h.known, h.pending,
      h.inserted.same hc hat hmove (by simp [GidPlace.Inserted]), fun ht => ?_, fun ht => ?_,
      h.released.same hc hat hmove Iff.rfl,
      h.queued.same hc hat hmove (by simp [GidPlace.Queued])⟩
    · simp only [ht, if_false]
      exact (h.hooked ht).gain hc hat hmove id trivial
    · simp only [ht, if_true]
      exact h.notHooked ht
  | @release w g x c hworker =>
    have hat : s.GidAt g (.hooked w) := ⟨x, c, hworker⟩
    have hu := fun q => hc.unique (q := q) hat
    have hmove : Moves s.GidAt (GidAt { s with
        connectionPool := Insert.insert c s.connectionPool
        worker := Function.update s.worker w (.released g x)
        released := s.released ++ [g] }) g (.released w) := by
      intro g' p
      cases p <;> grind [GidAt]
    exact ⟨hc.move hat hmove, h.known, h.pending,
      h.inserted.same hc hat hmove (by simp [GidPlace.Inserted]),
      fun ht => (h.hooked ht).same hc hat hmove Iff.rfl, h.notHooked,
      h.released.gain hc hat hmove id trivial,
      h.queued.same hc hat hmove (by simp [GidPlace.Queued])⟩
  | @pushWaitRemove w g x hworker =>
    have hat : s.GidAt g (.released w) := ⟨x, hworker⟩
    have hu := fun q => hc.unique (q := q) hat
    have hmove : Moves s.GidAt (GidAt { s with
        list := s.push x
        worker := Function.update s.worker w .free
        queued := s.queued ++ [g] }) g .done := by
      intro g' p
      cases p <;> grind [GidAt]
    exact ⟨hc.move hat hmove, h.known, h.pending,
      h.inserted.same hc hat hmove (by simp [GidPlace.Inserted]),
      fun ht => (h.hooked ht).same hc hat hmove Iff.rfl, h.notHooked,
      h.released.same hc hat hmove Iff.rfl,
      h.queued.gain hc hat hmove (by simp [GidPlace.Queued]) rfl⟩
  | @check w g x c hworker hentry hclosed =>
    have hstay : ∀ g' p, GidAt { s with
        worker := Function.update s.worker w (.checked g) } g' p ↔ s.GidAt g' p := by
      intro g' p
      cases p <;> grind [GidAt]
    exact ⟨hc.stay hstay, h.known, h.pending, h.inserted.stay hstay,
      fun ht => (h.hooked ht).stay hstay, h.notHooked, h.released.stay hstay, h.queued.stay hstay⟩
  | @eraseFailed w g hworker hentry =>
    have hstay : ∀ g' p, GidAt { s with
        worker := Function.update s.worker w .free } g' p ↔ s.GidAt g' p := by
      intro g' p
      cases p <;> grind [GidAt]
    exact ⟨hc.stay hstay, h.known, h.pending, h.inserted.stay hstay,
      fun ht => (h.hooked ht).stay hstay, h.notHooked, h.released.stay hstay, h.queued.stay hstay⟩
  | _ =>
    -- the map, the workers and the logs are as before
    have hpending := h.pending
    exact ⟨hc, h.known, by grind [MainHand.gid], h.inserted, h.hooked, h.notHooked, h.released,
      h.queued⟩

theorem once_start (fd : Nat → Int) (socketGid : Nat → Nat) (closeFlag : Nat → Bool) :
    Once type (start sockets connections fd socketGid closeFlag) := by
  have hfresh : ∀ g p, (start sockets connections fd socketGid closeFlag).GidAt g p ↔
      p = .fresh := by
    intro g p
    cases p <;> simp [GidAt, start]
  have hnone : ∀ C : GidPlace → Prop, ¬C .fresh →
      Tally (start sockets connections fd socketGid closeFlag).GidAt C [] := by
    intro C hC
    refine ⟨List.nodup_nil, fun g => ⟨fun hin => absurd hin (by simp), ?_⟩⟩
    rintro ⟨p, hp, hCp⟩
    rw [(hfresh g p).mp hp] at hCp
    exact absurd hCp hC
  refine ⟨⟨fun g _ => ⟨.fresh, (hfresh g _).mpr rfl, fun p hp => (hfresh g p).mp hp⟩,
    fun g p _ => trivial⟩, by simp [start], by simp [start, MainHand.gid],
    hnone _ (by simp [GidPlace.Inserted]), fun _ => hnone _ id, fun _ => rfl, hnone _ id,
    hnone _ (by simp [GidPlace.Queued])⟩

theorem once_reachable (h : (system type sockets connections).Reachable s) :
    s.accepted.Nodup → Once type s := by
  refine h.invariant (P := fun s => s.accepted.Nodup → Once type s) ?_ ?_
  · rintro t ⟨fd, socketGid, closeFlag, rfl⟩ -
    exact once_start fd socketGid closeFlag
  · intro t a t' _ hold hnext hdistinct
    have hstep := step_of_next hnext
    refine once_step (hold ?_) hstep hdistinct
    cases hstep with
    | accept => exact (List.nodup_append.mp hdistinct).1
    | _ => exact hdistinct

/-- The hook is called for all but http connections. -/
def hookCalls (type : TaskType) : Nat := if type = .httpTask then 0 else 1

/-- What has been done for a gid that was inserted: nothing while its entry is there, everything
once when a worker has taken the entry out and finished. -/
structure ClosedOnce (type : TaskType) (s : Ownership) (g : Nat) : Prop where
  released_le : s.released.count g ≤ 1
  queued_le : s.queued.count g ≤ 1
  hooked_le : s.hooked.count g ≤ hookCalls type
  open_ : s.entry g ≠ none →
    s.released.count g = 0 ∧ s.queued.count g = 0 ∧ s.hooked.count g = 0
  closed : s.entry g = none → (∀ w, (s.worker w).gid ≠ some g) →
    s.released.count g = 1 ∧ s.queued.count g = 1 ∧ s.hooked.count g = hookCalls type

theorem Once.hooked_count (h : Once type s) {g : Nat} {p : GidPlace} (hp : s.GidAt g p) :
    (p.Hooked → s.hooked.count g = hookCalls type) ∧ (¬p.Hooked → s.hooked.count g = 0) := by
  by_cases ht : type = .httpTask
  · simp [hookCalls, ht, h.notHooked ht]
  · simp only [hookCalls, ht, if_false]
    exact ⟨(h.hooked ht).count_of_at h.gidCustody hp, (h.hooked ht).count_of_not_at h.gidCustody hp⟩

theorem Once.closedOnce (h : Once type s) {g : Nat} (hg : g ∈ s.inserted) :
    ClosedOnce type s g := by
  have hc := h.gidCustody
  obtain ⟨p, hp, hInserted⟩ := (h.inserted.mem g).mp hg
  obtain ⟨hcalled, hnot⟩ := h.hooked_count hp
  refine ⟨List.nodup_iff_count_le_one.mp h.released.nodup g,
    List.nodup_iff_count_le_one.mp h.queued.nodup g, ?_, ?_, ?_⟩
  · by_cases hC : p.Hooked
    · exact (hcalled hC).le
    · rw [hnot hC]
      exact Nat.zero_le _
  · intro hentry
    cases hc.unique (p := .entry) hentry hp
    exact ⟨h.released.count_of_not_at hc hp id,
      h.queued.count_of_not_at hc hp (by simp [GidPlace.Queued]), hnot id⟩
  · intro hentry hworker
    cases p with
    | fresh => exact absurd rfl hInserted
    | entry => exact absurd hentry hp
    | erased w =>
      obtain ⟨x, c, hw⟩ := hp
      exact absurd (by simp [hw, WorkerHand.gid]) (hworker w)
    | hooked w =>
      obtain ⟨x, c, hw⟩ := hp
      exact absurd (by simp [hw, WorkerHand.gid]) (hworker w)
    | released w =>
      obtain ⟨x, hw⟩ := hp
      exact absurd (by simp [hw, WorkerHand.gid]) (hworker w)
    | done =>
      exact ⟨h.released.count_of_at hc hp trivial, h.queued.count_of_at hc hp rfl,
        hcalled trivial⟩

/-- In every state that is reached each socket and each connection is at exactly one place, and
each gid that was inserted is closed once. -/
theorem resources_conserved (h : (system type sockets connections).Reachable s) :
    (∀ x ∈ sockets, ∃! p, s.SocketAt x p) ∧
    (∀ c ∈ connections, ∃! p, s.ConnectionAt c p) ∧
    (s.accepted.Nodup → ∀ g ∈ s.inserted, ClosedOnce type s g) :=
  ⟨(inv_reachable h).socketCustody.one, (inv_reachable h).connectionCustody.one,
    fun hdistinct _ hg => (once_reachable h hdistinct).closedOnce hg⟩

/-- A connection is accepted, closed and removed by worker 0. -/
def oneClient : List Action :=
  [.accept 1 9 7, .create 4, .insert, .markClose 7, .check 0 7, .erase 0, .hook 0, .release 0,
    .pushWaitRemove 0]

theorem resources_conserved_oneClient :
    ∃ s, (system .streamTask {1, 2} {4}).Reachable s ∧ s.SocketAt 1 (.position .two 0) ∧
      (∃! p, s.SocketAt 1 p) ∧ (∃! p, s.ConnectionAt 4 p) ∧
      s.released.count 7 = 1 ∧ s.queued.count 7 = 1 ∧ s.hooked.count 7 = 1 := by
  obtain ⟨s, hexec, hpos, hdistinct, hin, hentry, hworker⟩ : ∃ s,
      (system .streamTask {1, 2} {4}).exec
        (start {1, 2} {4} (fun _ => 0) (fun _ => 0) fun _ => false) oneClient = some s ∧
        s.SocketAt 1 (.position .two 0) ∧ s.accepted.Nodup ∧ 7 ∈ s.inserted ∧
        s.entry 7 = none ∧ ∀ w, (s.worker w).gid ≠ some 7 := by
    refine ⟨_, rfl, ?_, ?_, ?_, ?_, ?_⟩
    · exact ⟨rfl, by simp [Processed, start]⟩
    · simp [start]
    · simp [start]
    · rfl
    · intro w
      by_cases hw : w = 0 <;> simp [hw, start, WorkerHand.gid]
  have hstart : (system .streamTask {1, 2} {4}).Reachable
      (start {1, 2} {4} (fun _ => 0) (fun _ => 0) fun _ => false) := .start ⟨_, _, _, rfl⟩
  have hreach := hstart.run (.of_exec hexec)
  obtain ⟨hsockets, hconnections, honce⟩ := resources_conserved hreach
  exact ⟨s, hreach, hpos, hsockets 1 (by simp), hconnections 4 (by simp),
    (honce hdistinct 7 hin).closed hentry hworker⟩

end Ownership

end Tubekit
