import Tubekit.Socket.Conservation
import Tubekit.Socket.EventLoop

/-!
# Descriptors, registrations and events

What holds of the main thread's side of a server. An open socket has a descriptor of its own and
a socket in the map has the gid of its entry (`Registry`). A registration is of a socket that is
neither in the pool nor in the hand of the main thread (`Fresh`); where it is disarmed, the main
thread still has an event of the socket to process, or is removing it (`Watch`).

`Registry` is about the steps of `Ownership` alone.
-/

namespace Tubekit

open Lib.Transition

namespace MainHand

/-- The socket that the main thread holds and that is not registered. -/
def fresh : MainHand → Option Nat
  | .accepted x _ => some x
  | .refused x => some x
  | .holding x _ _ => some x
  | .unwanted x _ => some x
  | .closed _ x => some x
  | _ => none

/-- The socket that `remove` is about to close. -/
def closing : MainHand → Option Nat
  | .removing _ x => some x
  | _ => none

/-- Where the main thread is in its loop when it holds something. -/
def place : MainHand → LoopPc
  | .updating _ => .updating
  | .removing _ _ => .updating
  | .closed _ _ => .updating
  | _ => .events

/-- The socket that is being accepted, with its gid. -/
def incoming : MainHand → Option (Nat × Nat)
  | .accepted x g => some (x, g)
  | .holding x _ g => some (x, g)
  | _ => none

end MainHand

namespace Ownership

variable {sockets connections : Finset Nat} {o o' : Ownership} {a : Action} {g g' x x' c c' : Nat}

/-- In the pool, or with the main thread before it is put into the map or after it is closed. -/
def Fresh (o : Ownership) (x : Nat) : Prop := x ∈ o.socketPool ∨ o.main.fresh = some x

/-! ## Entries of the map -/

theorem Inv.not_fresh (h : Inv sockets connections o) (hentry : o.entry g = some (x, c)) :
    ¬o.Fresh x := by
  have hat : o.SocketAt x (.entry g) := ⟨c, hentry⟩
  rintro (hpool | hmain)
  · exact SocketPlace.noConfusion (h.socketCustody.unique (p := .pool) hpool hat)
  · have hhand : o.SocketAt x .main := by
      simp only [SocketAt]
      cases hm : o.main <;> rw [hm] at hmain <;> first | exact hmain | cases hmain
    exact SocketPlace.noConfusion (h.socketCustody.unique hhand hat)

theorem Inv.not_closing (h : Inv sockets connections o) (hentry : o.entry g = some (x, c)) :
    o.main.closing ≠ some x := by
  have hat : o.SocketAt x (.entry g) := ⟨c, hentry⟩
  intro hmain
  have hhand : o.SocketAt x .main := by
    simp only [SocketAt]
    cases hm : o.main <;> rw [hm] at hmain <;> first | exact hmain | cases hmain
  exact SocketPlace.noConfusion (h.socketCustody.unique hhand hat)

theorem Inv.fresh_of_removing (h : Inv sockets connections o) {pos : Nat}
    (hmain : o.main = .removing pos x) : x ∈ sockets ∧ ¬o.Fresh x := by
  have hat : o.SocketAt x .main := by simp [SocketAt, hmain, MainHand.socket]
  refine ⟨h.socketCustody.known x _ hat, ?_⟩
  rintro (hpool | hfresh)
  · exact SocketPlace.noConfusion (h.socketCustody.unique (p := .pool) hpool hat)
  · rw [hmain] at hfresh
    cases hfresh

theorem Inv.mem_sockets (h : Inv sockets connections o) (hentry : o.entry g = some (x, c)) :
    x ∈ sockets :=
  h.socketCustody.known x (.entry g) ⟨c, hentry⟩

theorem Inv.socket_inj (h : Inv sockets connections o) (hentry : o.entry g = some (x, c))
    (hentry' : o.entry g' = some (x, c')) : g = g' := by
  have hat : o.SocketAt x (.entry g) := ⟨c, hentry⟩
  have hat' : o.SocketAt x (.entry g') := ⟨c', hentry'⟩
  exact SocketPlace.entry.inj (h.socketCustody.unique hat hat')

theorem Inv.connection_inj (h : Inv sockets connections o) (hentry : o.entry g = some (x, c))
    (hentry' : o.entry g' = some (x', c)) : g = g' := by
  have hat : o.ConnectionAt c (.entry g) := ⟨x, hentry⟩
  have hat' : o.ConnectionAt c (.entry g') := ⟨x', hentry'⟩
  exact ConnectionPlace.entry.inj (h.connectionCustody.unique hat hat')

theorem Inv.connection_not_mem_pool (h : Inv sockets connections o)
    (hentry : o.entry g = some (x, c)) : c ∉ o.connectionPool := by
  have hat : o.ConnectionAt c (.entry g) := ⟨x, hentry⟩
  exact fun hpool => ConnectionPlace.noConfusion
    (h.connectionCustody.unique (p := .pool) hpool hat)

theorem Inv.connection_ne_main (h : Inv sockets connections o)
    (hentry : o.entry g = some (x, c)) : o.main.connection ≠ some c := by
  have hat : o.ConnectionAt c (.entry g) := ⟨x, hentry⟩
  exact fun hmain => ConnectionPlace.noConfusion
    (h.connectionCustody.unique (p := .main) hmain hat)

theorem Inv.connection_ne_worker (h : Inv sockets connections o)
    (hentry : o.entry g = some (x, c)) (w : Nat) : (o.worker w).connection ≠ some c := by
  have hat : o.ConnectionAt c (.entry g) := ⟨x, hentry⟩
  exact fun hworker => ConnectionPlace.noConfusion
    (h.connectionCustody.unique (p := .worker w) hworker hat)

theorem Inv.fd_pos (h : Inv sockets connections o) (hx : x ∈ sockets) (hfresh : ¬o.Fresh x) :
    0 < o.fd x := by
  rcases h.fdOpen x hx with hpool | hfd | ⟨pos, hmain⟩
  · exact absurd (.inl hpool) hfresh
  · exact hfd
  · exact absurd (.inr (by simp [hmain, MainHand.fresh])) hfresh

/-- `Inv` does not speak about the flags. -/
theorem Inv.withCloseFlag (h : Inv sockets connections o) (closeFlag : Nat → Bool) :
    Inv sockets connections { o with closeFlag } where
  socketCustody := h.socketCustody.stay fun x p => by cases p <;> rfl
  connectionCustody := h.connectionCustody.stay fun c p => by cases p <;> rfl
  fdOpen := h.fdOpen
  lists := h.lists

/-! ## Gids and descriptors -/

structure Registry (sockets : Finset Nat) (o : Ownership) : Prop where
  entry : ∀ g x c, o.entry g = some (x, c) → o.socketGid x = g ∧ 0 < g
  incoming : ∀ x g, o.main.incoming = some (x, g) → o.socketGid x = g ∧ 0 < g
  fd : ∀ x ∈ sockets, ∀ y ∈ sockets, x ∉ o.socketPool → y ∉ o.socketPool →
    0 < o.fd x → o.fd x = o.fd y → x = y

/-- What the kernel and the clock promise: a descriptor that is not in use, and a gid that is
positive and new. -/
def Accepts (sockets : Finset Nat) (o : Ownership) : Action → Prop
  | .accept _ fd gid =>
    0 < gid ∧ gid ∉ o.accepted ∧ ∀ y ∈ sockets, y ∉ o.socketPool → o.fd y ≠ fd
  | _ => True

theorem accepted_nodup_step (h : o.accepted.Nodup) (hstep : Step .streamTask o a o')
    (ha : Accepts sockets o a) : o'.accepted.Nodup := by
  cases hstep with
  | @accept x g fd hmain hpool hpos =>
    have hne : ∀ b ∈ o.accepted, b ≠ g := fun b hb heq => ha.2.1 (heq ▸ hb)
    exact List.nodup_append.mpr ⟨h, List.nodup_singleton g, by simpa using hne⟩
  | _ => exact h

theorem registry_step (hinv : Inv sockets connections o) (h : Registry sockets o)
    (hstep : Step .streamTask o a o') (ha : Accepts sockets o a) : Registry sockets o' := by
  obtain ⟨hentry, hincoming, hfd⟩ := h
  cases hstep with
  | @accept x g fd hmain hpool hpos =>
    obtain ⟨hg, -, hnew⟩ := ha
    refine ⟨fun g' y c hy => ?_, fun y g' hy => ?_, fun y hy z hz => ?_⟩
    · have hne : y ≠ x := by
        rintro rfl
        exact hinv.not_fresh hy (.inl hpool)
      simpa [hne] using hentry g' y c hy
    · simp only [MainHand.incoming, Option.some.injEq, Prod.mk.injEq] at hy
      obtain ⟨rfl, rfl⟩ := hy
      simpa using hg
    · have hold := hfd y hy z hz
      have hy' := hnew y hy
      have hz' := hnew z hz
      simp only [Finset.mem_erase, not_and, Function.update_apply]
      split <;> split <;> grind
  | @insert x c g hmain hnew =>
    refine ⟨fun g' y d hy => ?_, by simp [MainHand.incoming], hfd⟩
    by_cases hg : g' = g
    · subst hg
      simp only [Function.update_self, Option.some.injEq, Prod.mk.injEq] at hy
      obtain ⟨rfl, rfl⟩ := hy
      exact hincoming x g' (by simp [hmain, MainHand.incoming])
    · exact hentry g' y d (by simpa [hg] using hy)
  | @erase w g x c hworker hold =>
    refine ⟨fun g' y d hy => ?_, hincoming, hfd⟩
    by_cases hg : g' = g
    · simp [hg] at hy
    · exact hentry g' y d (by simpa [hg] using hy)
  | close hmain hpos =>
    refine ⟨hentry, by simp [MainHand.incoming], fun y hy z hz => ?_⟩
    have hold := hfd y hy z hz
    simp only [Function.update_apply]
    split <;> split <;> grind
  | releaseSocket hmain =>
    refine ⟨hentry, by simp [MainHand.incoming], fun y hy z hz hyp hzp => ?_⟩
    exact hfd y hy z hz (by grind) (by grind)
  | _ => exact ⟨hentry, by grind [MainHand.incoming], hfd⟩

theorem registry_start (fd : Nat → Int) (socketGid : Nat → Nat) (closeFlag : Nat → Bool) :
    Registry sockets (start sockets connections fd socketGid closeFlag) where
  entry := by simp [start]
  incoming := by simp [start, MainHand.incoming]
  fd := fun x hx _ _ hpool => absurd hx hpool

/-- A step other than `close` leaves the sockets that are not fresh so, with their descriptors. -/
theorem fresh_step (hstep : Step .streamTask o a o') (ha : a ≠ .close) :
    (∀ x, o'.Fresh x → o.Fresh x) ∧ ∀ x, ¬o.Fresh x → o'.fd x = o.fd x := by
  cases hstep with
  | @accept x g fd hmain hpool hpos =>
    refine ⟨fun y hy => ?_, fun y hy => ?_⟩
    · rcases hy with hy | hy
      · exact .inl (Finset.mem_of_mem_erase hy)
      · cases hy
        exact .inl hpool
    · have hne : y ≠ x := by
        rintro rfl
        exact hy (.inl hpool)
      simp [hne]
  | close => exact absurd rfl ha
  | skip => exact absurd rfl ha
  | releaseSocket hmain =>
    refine ⟨fun y hy => ?_, fun _ _ => rfl⟩
    simp only [Fresh, MainHand.fresh, hmain, Finset.mem_insert] at hy ⊢
    grind
  | _ =>
    refine ⟨fun y hy => ?_, fun _ _ => rfl⟩
    simp only [Fresh] at hy ⊢
    grind [MainHand.fresh]

theorem place_step (hstep : Step .streamTask o a o') (hupdate : a ≠ .updateWaitRemove)
    (haccept : ∀ x fd g, a ≠ .accept x fd g) (hmain : o'.main ≠ .free) :
    o.main ≠ .free ∧ o'.main.place = o.main.place := by
  cases hstep with
  | updateWaitRemove => exact absurd rfl hupdate
  | accept => exact absurd rfl (haccept _ _ _)
  | clear => exact absurd rfl hmain
  | _ => simp_all [MainHand.place]

theorem closing_step (hstep : Step .streamTask o a o') (hclose : a ≠ .close) (htake : a ≠ .take) :
    o'.main.closing = o.main.closing := by
  cases hstep with
  | close => exact absurd rfl hclose
  | skip => exact absurd rfl hclose
  | take => exact absurd rfl htake
  | _ => simp_all [MainHand.closing]

end Ownership

namespace Server

variable {n : Nat} {sockets connections : Finset Nat} {s s' : Server}

theorem own_callNext (s : Server) (t : Thread) (k : Call) :
    (s.callNext n t k).own = s.own ∨ k.stage = .set ∧
      (s.callNext n t k).own =
        { s.own with closeFlag := Function.update s.own.closeFlag k.connection true } := by
  unfold callNext
  cases k.stage with
  | write buffer =>
    dsimp only
    split <;> exact .inl rfl
  | check =>
    dsimp only
    split <;> exact .inl rfl
  | set => exact .inr ⟨rfl, rfl⟩
  | clear => exact .inl rfl
  | task => exact .inl rfl

/-- On its part `own`, a step does nothing, sets a flag, or is a step of `Ownership`. -/
theorem own_step (hstep : Step n sockets s s') :
    s'.own = s.own ∨ (∃ closeFlag, s'.own = { s.own with closeFlag }) ∨
      ∃ a, s.own.Step .streamTask a s'.own ∧ Ownership.Accepts sockets s.own a := by
  cases hstep with
  | accept hloop hgid hnew hfd hown => exact .inr (.inr ⟨_, hown, hgid, hnew, hfd⟩)
  | moving ha hown => exact .inr (.inr ⟨_, hown, by cases ha <;> trivial⟩)
  | updateWaitRemove _ hown => exact .inr (.inr ⟨_, hown, trivial⟩)
  | take _ _ hown => exact .inr (.inr ⟨_, hown, trivial⟩)
  | close _ hown => exact .inr (.inr ⟨_, hown, trivial⟩)
  | clear hown => exact .inr (.inr ⟨_, hown, trivial⟩)
  | create hown => exact .inr (.inr ⟨_, hown, trivial⟩)
  | insert _ hown => exact .inr (.inr ⟨_, hown, trivial⟩)
  | checkClosed _ hown => exact .inr (.inr ⟨_, hown, trivial⟩)
  | erase _ _ _ _ hown => exact .inr (.inr ⟨_, hown, trivial⟩)
  | eraseFailed _ _ hown => exact .inr (.inr ⟨_, hown, trivial⟩)
  | hook _ hown => exact .inr (.inr ⟨_, hown, trivial⟩)
  | pushWaitRemove _ _ hown => exact .inr (.inr ⟨_, hown, trivial⟩)
  | @call t k hcall =>
    rcases s.own_callNext t k with heq | ⟨-, heq⟩
    · exact .inl heq
    · exact .inr (.inl ⟨_, heq⟩)
  | _ => exact .inl rfl

/-- The part `own` of a reachable state. -/
structure Owned (sockets connections : Finset Nat) (o : Ownership) : Prop where
  inv : o.Inv sockets connections
  registry : o.Registry sockets
  nodup : o.accepted.Nodup
  once : o.Once .streamTask

theorem Owned.withCloseFlag {o : Ownership} (h : Owned sockets connections o)
    (closeFlag : Nat → Bool) : Owned sockets connections { o with closeFlag } where
  inv := h.inv.withCloseFlag closeFlag
  registry := { h.registry with }
  nodup := h.nodup
  once := by
    obtain ⟨hc, hknown, hpending, hinserted, hhooked, hnot, hreleased, hqueued⟩ := h.once
    have hstay : ∀ g p, Ownership.GidAt { o with closeFlag } g p ↔ o.GidAt g p := by
      intro g p
      cases p <;> rfl
    exact ⟨hc.stay hstay, hknown, hpending, hinserted.stay hstay,
      fun ht => (hhooked ht).stay hstay, hnot, hreleased.stay hstay, hqueued.stay hstay⟩

theorem owned_step (h : Owned sockets connections s.own) (hstep : Step n sockets s s') :
    Owned sockets connections s'.own := by
  rcases own_step hstep with heq | ⟨closeFlag, heq⟩ | ⟨a, hown, ha⟩
  · rw [heq]
    exact h
  · rw [heq]
    exact h.withCloseFlag closeFlag
  · have hnodup := Ownership.accepted_nodup_step h.nodup hown ha
    exact ⟨Ownership.inv_step h.inv hown, Ownership.registry_step h.inv h.registry hown ha, hnodup,
      Ownership.once_step h.once hown hnodup⟩

/-! ## Registrations and events -/

/-- The main thread is going to process an event of this socket. -/
def Unprocessed (events : List Event) (removed : Finset Nat) (x : Nat) : Prop :=
  x ∉ removed ∧ ∃ hup, .client x hup ∈ events

structure Watch (sockets : Finset Nat) (own : Ownership) (poller : EventPoller)
    (events : List Event) (removed : Finset Nat) (loop : LoopPc) : Prop where
  coherent : poller.Coherent
  registered : ∀ fd r, poller.registered fd = some r →
    own.fd r.socket = fd ∧ 0 < fd ∧ r.socket ∈ sockets ∧ ¬own.Fresh r.socket
  known : ∀ x hup, .client x hup ∈ events → x ∈ removed ∨ x ∈ sockets ∧ ¬own.Fresh x
  closing : ∀ x, own.main.closing = some x → x ∈ removed
  armed : ∀ fd r, poller.registered fd = some r →
    r.armed = true ∨ Unprocessed events removed r.socket ∨ own.main.closing = some r.socket
  waiting : loop = .waiting → events = []
  hand : own.main ≠ .free → loop = own.main.place

variable {own own' : Ownership} {poller poller' : EventPoller} {events events' : List Event}
  {removed : Finset Nat} {loop loop' : LoopPc} {a : Ownership.Action}

/-- A step of `Ownership` that neither takes nor closes a socket. -/
theorem Watch.ownStep (h : Watch sockets own poller events removed loop)
    (hown : own.Step .streamTask a own') (hclose : a ≠ .close) (htake : a ≠ .take)
    (hloop : loop' = .waiting → loop = .waiting)
    (hhand : own'.main ≠ .free → loop' = own'.main.place) :
    Watch sockets own' poller events removed loop' := by
  obtain ⟨hfresh, hfd⟩ := Ownership.fresh_step hown hclose
  have hclosing := Ownership.closing_step hown hclose htake
  refine ⟨h.coherent, fun fd r hr => ?_, fun x hup hx => ?_, by rw [hclosing]; exact h.closing,
    by rw [hclosing]; exact h.armed, fun hl => h.waiting (hloop hl), hhand⟩
  · obtain ⟨hat, hpos, hmem, hnot⟩ := h.registered fd r hr
    exact ⟨(hfd _ hnot).trans hat, hpos, hmem, fun hf => hnot (hfresh _ hf)⟩
  · exact (h.known x hup hx).imp id fun ⟨hmem, hnot⟩ => ⟨hmem, fun hf => hnot (hfresh _ hf)⟩

theorem Watch.ownStep_of_same (h : Watch sockets own poller events removed loop)
    (hown : own.Step .streamTask a own') (hclose : a ≠ .close) (htake : a ≠ .take)
    (hupdate : a ≠ .updateWaitRemove) (haccept : ∀ x fd g, a ≠ .accept x fd g) :
    Watch sockets own' poller events removed loop := by
  refine h.ownStep hown hclose htake id fun hmain => ?_
  obtain ⟨hold, hplace⟩ := Ownership.place_step hown hupdate haccept hmain
  rw [hplace]
  exact h.hand hold

theorem Watch.main_free (h : Watch sockets own poller events removed loop)
    (hupdating : loop ≠ .updating) (hevents : loop ≠ .events) : own.main = .free := by
  by_contra hmain
  have hplace := h.hand hmain
  cases hm : own.main <;> rw [hm] at hplace <;> first | exact hupdating hplace | exact hevents hplace

/-- The loop goes on, with nothing in the hand of the main thread. -/
theorem Watch.goOn (h : Watch sockets own poller events removed loop) (hmain : own.main = .free)
    (hwaiting : loop' = .waiting → events = []) :
    Watch sockets own poller events removed loop' :=
  { h with waiting := hwaiting, hand := fun hnot => absurd hmain hnot }

/-- The list goes on to the next event, and the socket of the first is not waited for. -/
theorem Watch.nextEvent {e : Event} (h : Watch sockets own poller (e :: events) removed loop)
    (he : ∀ x hup, e = .client x hup → x ∈ removed) :
    Watch sockets own poller events removed loop := by
  refine ⟨h.coherent, h.registered, fun x hup hx => h.known x hup (List.mem_cons_of_mem _ hx),
    h.closing, fun fd r hr => ?_, fun hl => absurd (h.waiting hl) (by simp), h.hand⟩
  rcases h.armed fd r hr with harmed | ⟨hnot, hup, hmem⟩ | hclosing
  · exact .inl harmed
  · refine .inr (.inl ⟨hnot, hup, ?_⟩)
    rcases List.mem_cons.mp hmem with heq | hmem
    · exact absurd (he _ hup heq.symm) hnot
    · exact hmem
  · exact .inr (.inr hclosing)

/-- No other socket has the descriptor of an open one. -/
theorem Watch.socket_of_fd (h : Watch sockets own poller events removed loop)
    (howned : Owned sockets connections own) {x : Nat} (hx : x ∈ sockets) (hfresh : ¬own.Fresh x)
    {r : Registration} (hr : poller.registered (own.fd x) = some r) : r.socket = x := by
  obtain ⟨hat, hpos, hmem, hnot⟩ := h.registered _ r hr
  exact howned.registry.fd _ hmem _ hx (fun hp => hnot (.inl hp)) (fun hp => hfresh (.inl hp))
    (by omega) hat

/-- What is left when an open socket is detached. -/
theorem Watch.registered_of_detach (h : Watch sockets own poller events removed loop) {x : Nat}
    {fd : Int} {r : Registration}
    (hr : (poller.detach (own.fd x)).registered fd = some r) :
    poller.registered fd = some r ∧ r.socket ≠ x := by
  rw [EventPoller.registered_detach] at hr
  by_cases heq : fd = own.fd x
  · simp [heq] at hr
  · rw [Function.update_of_ne heq] at hr
    refine ⟨hr, ?_⟩
    rintro rfl
    exact heq (h.registered fd r hr).1.symm

/-- The socket of the next event is detached. -/
theorem Watch.handle {x : Nat} {hup : Bool}
    (h : Watch sockets own poller (.client x hup :: events) removed loop)
    (hmain : own.main = .free) (hloop' : loop' ≠ .waiting) :
    Watch sockets own (poller.detach (own.fd x)) events removed loop' := by
  refine ⟨h.coherent.detach _, fun fd r hr => h.registered fd r (h.registered_of_detach hr).1,
    fun y hup' hy => h.known y hup' (List.mem_cons_of_mem _ hy), h.closing, fun fd r hr => ?_,
    fun hl => absurd hl hloop', fun hnot => absurd hmain hnot⟩
  obtain ⟨hold, hne⟩ := h.registered_of_detach hr
  rcases h.armed fd r hold with harmed | ⟨hnot, hup', hmem⟩ | hclosing
  · exact .inl harmed
  · refine .inr (.inl ⟨hnot, hup', ?_⟩)
    rcases List.mem_cons.mp hmem with heq | hmem
    · exact absurd (Event.client.inj heq).1 hne
    · exact hmem
  · exact .inr (.inr hclosing)

/-- The socket of an entry is attached. -/
theorem Watch.attach (h : Watch sockets own poller events removed loop)
    (howned : Owned sockets connections own) {g x c : Nat} (hentry : own.entry g = some (x, c))
    (listenSend : Bool) :
    Watch sockets own (poller.attach (own.fd x) x listenSend) events removed loop := by
  have hx := howned.inv.mem_sockets hentry
  have hfresh := howned.inv.not_fresh hentry
  have hpos := howned.inv.fd_pos hx hfresh
  rcases EventPoller.attach_cases h.coherent (own.fd x) x listenSend with ⟨r, -, -, heq⟩ | ⟨-, heq⟩
  · rw [heq]
    exact h
  · rw [heq]
    refine ⟨h.coherent.set _ _, fun fd r hr => ?_, h.known, h.closing, fun fd r hr => ?_,
      h.waiting, h.hand⟩
    all_goals
      by_cases hfd : fd = own.fd x
      · subst hfd
        rw [EventPoller.registered_set_self] at hr
        cases hr
        first | exact ⟨rfl, hpos, hx, hfresh⟩ | exact .inl rfl
      · rw [EventPoller.registered_set_of_ne _ _ hfd] at hr
        first | exact h.registered fd r hr | exact h.armed fd r hr

theorem Watch.wait (h : Watch sockets own poller [] removed .waiting) {reports : List Report}
    (hwait : poller.wait reports = some (events, poller')) :
    Watch sockets own poller' events ∅ .returned := by
  obtain ⟨hkept, -, hknown⟩ := EventPoller.reported_of_wait hwait
  have hmain : own.main = .free := h.main_free (by simp) (by simp)
  refine ⟨h.coherent.wait hwait, fun fd r' hr' => ?_, fun x hup hx => ?_, fun x hx => ?_,
    fun fd r' hr' => ?_, by simp, fun hnot => absurd hmain hnot⟩
  · obtain ⟨r, hr, hsocket, -, -⟩ := hkept fd r' hr'
    rw [hsocket]
    exact h.registered fd r hr
  · obtain ⟨fd, r, hr, rfl⟩ := hknown x hup hx
    exact .inr (h.registered fd r hr).2.2
  · rw [hmain] at hx
    cases hx
  · obtain ⟨r, hr, hsocket, -, hcase⟩ := hkept fd r' hr'
    rw [hsocket]
    rcases hcase with rfl | hevent
    · rcases h.armed fd r' hr with harmed | ⟨-, hup, hmem⟩ | hclosing
      · exact .inl harmed
      · cases hmem
      · exact .inr (.inr hclosing)
    · exact .inr (.inl ⟨by simp, hevent⟩)

/-- `update_wait_remove` takes the next socket. -/
theorem Watch.take {pos x : Nat} (h : Watch sockets own poller events removed loop)
    (hmain : own.main = .updating pos) :
    Watch sockets { own with main := .removing pos x } poller events (insert x removed) loop := by
  have hnone : own.main.closing = none := by rw [hmain]; rfl
  have hfresh : ∀ y, Ownership.Fresh { own with main := .removing pos x } y → own.Fresh y := by
    rintro y (hy | hy)
    · exact .inl hy
    · cases hy
  refine ⟨h.coherent, fun fd r hr => ?_, fun y hup hy => ?_, fun y hy => ?_, fun fd r hr => ?_,
    h.waiting, fun _ => ?_⟩
  · obtain ⟨hat, hpos, hmem, hnot⟩ := h.registered fd r hr
    exact ⟨hat, hpos, hmem, fun hf => hnot (hfresh _ hf)⟩
  · rcases h.known y hup hy with hmem | ⟨hmem, hnot⟩
    · exact .inl (Finset.mem_insert_of_mem hmem)
    · exact .inr ⟨hmem, fun hf => hnot (hfresh _ hf)⟩
  · cases hy
    exact Finset.mem_insert_self _ _
  · by_cases hx : r.socket = x
    · exact .inr (.inr (by simp [MainHand.closing, hx]))
    · rcases h.armed fd r hr with harmed | ⟨hnot, hevent⟩ | hclosing
      · exact .inl harmed
      · exact .inr (.inl ⟨by simp [hx, hnot], hevent⟩)
      · rw [hnone] at hclosing
        cases hclosing
  · have hplace := h.hand (by simp [hmain])
    rw [hmain] at hplace
    exact hplace

/-- The socket that `update_wait_remove` has taken is detached and closed. -/
theorem Watch.close {pos x : Nat} (h : Watch sockets own poller events removed loop)
    (hmain : own.main = .removing pos x) :
    Watch sockets { own with fd := Function.update own.fd x 0, main := .closed pos x }
      (poller.detach (own.fd x)) events removed loop := by
  have hclosing : own.main.closing = some x := by rw [hmain]; rfl
  have hloop : loop = .updating := by
    have hplace := h.hand (by simp [hmain])
    rwa [hmain] at hplace
  have hfresh : ∀ y, y ≠ x →
      Ownership.Fresh { own with fd := Function.update own.fd x 0, main := .closed pos x } y →
        own.Fresh y := by
    rintro y hne (hy | hy)
    · exact .inl hy
    · cases hy
      exact absurd rfl hne
  refine ⟨h.coherent.detach _, fun fd r hr => ?_, fun y hup hy => ?_, by simp [MainHand.closing],
    fun fd r hr => ?_, h.waiting, fun _ => hloop⟩
  · obtain ⟨hold, hne⟩ := h.registered_of_detach hr
    obtain ⟨hat, hpos, hmem, hnot⟩ := h.registered fd r hold
    exact ⟨by simpa [hne] using hat, hpos, hmem, fun hf => hnot (hfresh _ hne hf)⟩
  · by_cases hne : y = x
    · rw [hne]
      exact .inl (h.closing x hclosing)
    · exact (h.known y hup hy).imp id fun ⟨hmem, hnot⟩ => ⟨hmem, fun hf => hnot (hfresh y hne hf)⟩
  · obtain ⟨hold, hne⟩ := h.registered_of_detach hr
    rcases h.armed fd r hold with harmed | hevent | hold
    · exact .inl harmed
    · exact .inr (.inl hevent)
    · rw [hclosing] at hold
      exact absurd (Option.some.inj hold).symm hne

/-- A call touches neither the loop nor the epoll instance nor a run. -/
theorem callNext_frame (s : Server) (t : Thread) (k : Call) :
    (s.callNext n t k).poller = s.poller ∧ (s.callNext n t k).events = s.events ∧
      (s.callNext n t k).removedSocket = s.removedSocket ∧ (s.callNext n t k).loop = s.loop ∧
        (s.callNext n t k).run = s.run := by
  unfold callNext
  cases k.stage with
  | write buffer =>
    dsimp only
    split <;> exact ⟨rfl, rfl, rfl, rfl, rfl⟩
  | check =>
    dsimp only
    split <;> exact ⟨rfl, rfl, rfl, rfl, rfl⟩
  | _ => exact ⟨rfl, rfl, rfl, rfl, rfl⟩

theorem watch_step (howned : Owned sockets connections s.own)
    (h : Watch sockets s.own s.poller s.events s.removedSocket s.loop)
    (htarget : ∀ w g x c b, s.run w = .attaching g x c b → s.own.entry g = some (x, c))
    (hstep : Step n sockets s s') :
    Watch sockets s'.own s'.poller s'.events s'.removedSocket s'.loop := by
  cases hstep with
  | wait hloop hwait =>
    have hwatch := h
    rw [h.waiting hloop, hloop] at hwatch
    exact hwatch.wait hwait
  | updateWaitRemove hloop hown =>
    cases hown with
    | updateWaitRemove hmain =>
      exact h.ownStep (.updateWaitRemove hmain) (by simp) (by simp) (by simp) fun _ => rfl
  | take hmain hget hown =>
    cases hown with
    | take hmain' hget' =>
      obtain rfl := MainHand.updating.inj (hmain.symm.trans hmain')
      obtain rfl := Option.some.inj (hget.symm.trans hget')
      exact h.take hmain
  | close hmain hown =>
    obtain ⟨hmem, hnot⟩ := howned.inv.fresh_of_removing hmain
    have hpos := howned.inv.fd_pos hmem hnot
    cases hown with
    | skip hmain' hfd =>
      obtain ⟨-, rfl⟩ := MainHand.removing.inj (hmain.symm.trans hmain')
      omega
    | close hmain' hfd =>
      obtain ⟨rfl, rfl⟩ := MainHand.removing.inj (hmain.symm.trans hmain')
      rw [if_neg hfd]
      exact h.close hmain
  | clear hown =>
    cases hown with
    | clear hmain hend =>
      exact h.ownStep (.clear hmain hend) (by simp) (by simp) (by simp) (by simp)
  | insert hmain hown =>
    refine h.ownStep hown (by simp) (by simp) (fun hl => ?_) fun hnot => ?_
    · dsimp only at hl
      split at hl
      · cases hl
      · exact hl
    · cases hown with
      | insert => exact absurd rfl hnot
      | insertFailed hmain' hold =>
        obtain ⟨-, -, rfl⟩ := MainHand.holding.inj (hmain.symm.trans hmain')
        rw [if_neg hold, h.hand (by simp [hmain]), hmain]
        rfl
  | accept hloop hgid hnew hfd hown =>
    cases hown with
    | accept hmain hpool hpos =>
      exact h.ownStep (.accept hmain hpool hpos) (by simp) (by simp) id fun _ => hloop
  | create hown => exact h.ownStep_of_same hown (by simp) (by simp) (by simp) (by simp)
  | moving ha hown => cases ha <;> exact h.ownStep_of_same hown (by simp) (by simp) (by simp) (by simp)
  | checkClosed _ hown => exact h.ownStep_of_same hown (by simp) (by simp) (by simp) (by simp)
  | erase _ _ _ _ hown => exact h.ownStep_of_same hown (by simp) (by simp) (by simp) (by simp)
  | eraseFailed _ _ hown => exact h.ownStep_of_same hown (by simp) (by simp) (by simp) (by simp)
  | hook _ hown => exact h.ownStep_of_same hown (by simp) (by simp) (by simp) (by simp)
  | pushWaitRemove _ _ hown => exact h.ownStep_of_same hown (by simp) (by simp) (by simp) (by simp)
  | acceptDone hevents =>
    rw [hevents] at h
    exact h.nextEvent (by simp)
  | skip hevents hremoved =>
    rw [hevents] at h
    exact h.nextEvent (by rintro x hup ⟨⟩; exact hremoved)
  | handle hloop hmain hevents hremoved =>
    rw [hevents] at h
    exact h.handle hmain (by simp)
  | doTask hloop =>
    have hmain := h.main_free (by rcases hloop with hl | hl <;> simp [hl])
      (by rcases hloop with hl | hl <;> simp [hl])
    exact h.goOn hmain (by simp)
  | lookup hloop hcall hlock hentry =>
    exact h.goOn (h.main_free (by simp [hloop]) (by simp [hloop])) (by simp)
  | lookupFailed hloop hentry =>
    exact h.goOn (h.main_free (by simp [hloop]) (by simp [hloop])) (by simp)
  | endBatch hloop hmain hevents => exact h.goOn hmain fun _ => hevents
  | attach hcall hrun => exact h.attach howned (htarget _ _ _ _ _ hrun) _
  | @call t k hcall =>
    obtain ⟨hpoller, hevents, hremoved, hloop, -⟩ := s.callNext_frame (n := n) t k
    rw [hpoller, hevents, hremoved, hloop]
    rcases s.own_callNext (n := n) t k with heq | ⟨-, heq⟩
    · rw [heq]
      exact h
    · rw [heq]
      exact { h with }
  | _ => exact h

end Server

end Tubekit
