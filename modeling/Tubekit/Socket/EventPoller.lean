import Mathlib.Logic.Function.Basic

/-!
# `event_poller`

The epoll instance with `m_map_fd_envets`, which records for each descriptor the events it was
last registered for, and `socket_handler::attach` and `detach` over the two.

All client sockets are registered with `EPOLLONESHOT`: once an event of a descriptor has been
reported the descriptor stays registered and is disarmed until it is registered again. The
record does not know about that. `attach` trusts the record where it has `EPOLLOUT`.

Registration is only refused because a descriptor is registered already, or is not.
-/

namespace Tubekit

/-- A descriptor in the epoll instance: the socket in `data.ptr`, whether `EPOLLOUT` was asked for
next to `EPOLLIN`, and whether it is armed. -/
structure Registration where
  socket : Nat
  out : Bool
  armed : Bool
  deriving DecidableEq

/-- What `epoll_wait` reports: the listening socket, or a descriptor, with one of `EPOLLHUP`,
`EPOLLERR` and `EPOLLRDHUP` or without. -/
inductive Report where
  | listen
  | client (fd : Int) (hup : Bool)
  deriving DecidableEq

/-- An entry of `m_events`. -/
inductive Event where
  | listen
  | client (socket : Nat) (hup : Bool)
  deriving DecidableEq

structure EventPoller where
  registered : Int → Option Registration
  /-- `m_map_fd_envets`: nothing, or whether the events have `EPOLLOUT`. -/
  mapFdEnvets : Int → Option Bool

namespace EventPoller

def new : EventPoller := { registered := fun _ => none, mapFdEnvets := fun _ => none }

/-- A call of `epoll_ctl` that succeeds, with the update of the record. -/
def set (p : EventPoller) (fd : Int) (r : Option Registration) : EventPoller :=
  { registered := Function.update p.registered fd r
    mapFdEnvets := Function.update p.mapFdEnvets fd (r.map (·.out)) }

/-- `add`; the result is false where the error is `EEXIST`. -/
def add (p : EventPoller) (fd : Int) (socket : Nat) (out : Bool) : Bool × EventPoller :=
  match p.registered fd with
  | none => (true, p.set fd (some ⟨socket, out, true⟩))
  | some _ => (false, p)

/-- `mod`, which also arms the descriptor again. -/
def mod (p : EventPoller) (fd : Int) (socket : Nat) (out : Bool) : Bool × EventPoller :=
  match p.registered fd with
  | none => (false, p)
  | some _ => (true, p.set fd (some ⟨socket, out, true⟩))

def del (p : EventPoller) (fd : Int) : Bool × EventPoller :=
  match p.registered fd with
  | none => (false, p)
  | some _ => (true, p.set fd none)

/-- `socket_handler::attach`, where `fd` is the descriptor of `socket`. -/
def attach (p : EventPoller) (fd : Int) (socket : Nat) (listenSend : Bool) : EventPoller :=
  if p.mapFdEnvets fd = some true then p
  else
    match p.add fd socket listenSend with
    | (true, p) => p
    | (false, p) => (p.mod fd socket listenSend).2

/-- `socket_handler::detach`. -/
def detach (p : EventPoller) (fd : Int) : EventPoller := (p.del fd).2

def disarm (p : EventPoller) (fd : Int) : EventPoller :=
  { p with registered :=
      Function.update p.registered fd ((p.registered fd).map fun r => { r with armed := false }) }

/-- `wait`, where the kernel has these reports; it reports only what is armed. -/
def wait (p : EventPoller) : List Report → Option (List Event × EventPoller)
  | [] => some ([], p)
  | .listen :: reports =>
    match p.wait reports with
    | some (events, p) => some (.listen :: events, p)
    | none => none
  | .client fd hup :: reports =>
    match p.registered fd with
    | some r =>
      if r.armed then
        match (p.disarm fd).wait reports with
        | some (events, p) => some (.client r.socket hup :: events, p)
        | none => none
      else none
    | none => none

/-- The record is right about what is registered, armed or not. -/
def Coherent (p : EventPoller) : Prop :=
  ∀ fd, p.mapFdEnvets fd = (p.registered fd).map (·.out)

variable {p p' : EventPoller} {fd fd' : Int} {r r' : Registration} {socket : Nat}

theorem coherent_new : new.Coherent := fun _ => rfl

theorem Coherent.set (h : p.Coherent) (fd : Int) (r : Option Registration) :
    (p.set fd r).Coherent := by
  intro fd'
  by_cases heq : fd' = fd
  · subst heq
    simp [EventPoller.set]
  · simp [EventPoller.set, heq, h fd']

theorem registered_detach (p : EventPoller) (fd : Int) :
    (p.detach fd).registered = Function.update p.registered fd none := by
  unfold detach del
  split
  · rename_i hnone
    rw [← hnone, Function.update_eq_self]
  · rfl

theorem Coherent.detach (h : p.Coherent) (fd : Int) : (p.detach fd).Coherent := by
  unfold EventPoller.detach del
  split
  · exact h
  · exact h.set fd none

/-- `attach` registers the socket, armed, unless the record has `EPOLLOUT`. -/
theorem attach_eq (p : EventPoller) (fd : Int) (socket : Nat) (listenSend : Bool) :
    p.attach fd socket listenSend =
      if p.mapFdEnvets fd = some true then p else p.set fd (some ⟨socket, listenSend, true⟩) := by
  unfold attach
  split
  · rfl
  · cases hreg : p.registered fd with
    | none => simp [add, hreg]
    | some r => simp [add, mod, hreg]

theorem Coherent.attach (h : p.Coherent) (fd : Int) (socket : Nat) (listenSend : Bool) :
    (p.attach fd socket listenSend).Coherent := by
  rw [attach_eq]
  split
  · exact h
  · exact h.set fd _

/-- Behind `attach` the descriptor is as before, with `EPOLLOUT`, or newly armed. -/
theorem attach_cases (h : p.Coherent) (fd : Int) (socket : Nat) (listenSend : Bool) :
    (∃ r, p.registered fd = some r ∧ r.out = true ∧ p.attach fd socket listenSend = p) ∨
      ((∀ r, p.registered fd = some r → r.out = false) ∧
        p.attach fd socket listenSend = p.set fd (some ⟨socket, listenSend, true⟩)) := by
  rw [attach_eq, h fd]
  cases hreg : p.registered fd with
  | none => exact .inr ⟨by simp, by simp⟩
  | some r =>
    cases hout : r.out with
    | false => exact .inr ⟨by simp [hout], by simp [hout]⟩
    | true => exact .inl ⟨r, rfl, hout, by simp [hout]⟩

@[simp] theorem registered_set_self (p : EventPoller) (fd : Int) (r : Option Registration) :
    (p.set fd r).registered fd = r := by
  simp [set]

theorem registered_set_of_ne (p : EventPoller) (r : Option Registration) (h : fd' ≠ fd) :
    (p.set fd r).registered fd' = p.registered fd' := by
  simp [set, h]

theorem Coherent.disarm (h : p.Coherent) (fd : Int) : (p.disarm fd).Coherent := by
  intro fd'
  by_cases heq : fd' = fd
  · subst heq
    simp [EventPoller.disarm, h fd', Function.comp_def]
  · simp [EventPoller.disarm, heq, h fd']

theorem Coherent.wait (h : p.Coherent) {reports : List Report} {events : List Event}
    (hwait : p.wait reports = some (events, p')) : p'.Coherent := by
  induction reports generalizing p events with
  | nil =>
    cases hwait
    exact h
  | cons report reports ih =>
    cases report with
    | listen =>
      simp only [EventPoller.wait] at hwait
      split at hwait
      · cases hwait
        exact ih h (by assumption)
      · cases hwait
    | client fd hup =>
      simp only [EventPoller.wait] at hwait
      split at hwait
      · split at hwait
        · split at hwait
          · cases hwait
            exact ih (h.disarm fd) (by assumption)
          · cases hwait
        · cases hwait
      · cases hwait

/-- The reports of one `wait`: the descriptors stay registered, those that are disarmed have their
socket in an event, and every event is of a socket that was registered. -/
structure Reported (p : EventPoller) (events : List Event) (p' : EventPoller) : Prop where
  kept : ∀ fd r', p'.registered fd = some r' → ∃ r, p.registered fd = some r ∧
    r'.socket = r.socket ∧ r'.out = r.out ∧
      (r' = r ∨ ∃ hup, Event.client r.socket hup ∈ events)
  back : ∀ fd r, p.registered fd = some r → ∃ r', p'.registered fd = some r' ∧
    (r' = r ∨ ∃ hup, Event.client r.socket hup ∈ events)
  known : ∀ socket hup, Event.client socket hup ∈ events →
    ∃ fd r, p.registered fd = some r ∧ r.socket = socket

theorem Reported.client {r : Registration} {hup : Bool} {events : List Event}
    (hreg : p.registered fd = some r) (h : (p.disarm fd).Reported events p') :
    p.Reported (.client r.socket hup :: events) p' := by
  refine ⟨fun fd' r' hr' => ?_, fun fd' r' hr' => ?_, fun socket hup' hmem => ?_⟩
  · obtain ⟨r₁, hr₁, hsocket, hout, hcase⟩ := h.kept fd' r' hr'
    by_cases heq : fd' = fd
    · subst heq
      simp only [disarm, Function.update_self, hreg, Option.map_some, Option.some.injEq] at hr₁
      subst hr₁
      exact ⟨r, hreg, hsocket, hout, .inr ⟨hup, by simp⟩⟩
    · simp only [disarm, Function.update_of_ne heq] at hr₁
      refine ⟨r₁, hr₁, hsocket, hout, hcase.imp id fun ⟨hup', hmem⟩ => ⟨hup', ?_⟩⟩
      exact List.mem_cons_of_mem _ hmem
  · by_cases heq : fd' = fd
    · subst heq
      obtain rfl : r = r' := Option.some.inj (hreg.symm.trans hr')
      have hdis : (p.disarm fd').registered fd' = some { r with armed := false } := by
        simp [disarm, hreg]
      obtain ⟨r₁, hr₁, -⟩ := h.back fd' _ hdis
      exact ⟨r₁, hr₁, .inr ⟨hup, by simp⟩⟩
    · have hdis : (p.disarm fd).registered fd' = some r' := by simp [disarm, heq, hr']
      obtain ⟨r₁, hr₁, hcase⟩ := h.back fd' _ hdis
      exact ⟨r₁, hr₁, hcase.imp id fun ⟨hup', hmem⟩ => ⟨hup', List.mem_cons_of_mem _ hmem⟩⟩
  · rcases List.mem_cons.mp hmem with heq | hmem
    · cases heq
      exact ⟨fd, r, hreg, rfl⟩
    · obtain ⟨fd', r', hr', hsocket⟩ := h.known socket hup' hmem
      by_cases heq : fd' = fd
      · subst heq
        simp only [disarm, Function.update_self, hreg, Option.map_some, Option.some.injEq] at hr'
        subst hr'
        exact ⟨fd', r, hreg, hsocket⟩
      · simp only [disarm, Function.update_of_ne heq] at hr'
        exact ⟨fd', r', hr', hsocket⟩

theorem reported_of_wait {reports : List Report} {events : List Event}
    (hwait : p.wait reports = some (events, p')) : p.Reported events p' := by
  induction reports generalizing p events with
  | nil =>
    cases hwait
    exact ⟨fun fd r hr => ⟨r, hr, rfl, rfl, .inl rfl⟩, fun fd r hr => ⟨r, hr, .inl rfl⟩, by simp⟩
  | cons report reports ih =>
    cases report with
    | listen =>
      simp only [wait] at hwait
      split at hwait
      · cases hwait
        obtain ⟨hkept, hback, hknown⟩ := ih (by assumption)
        exact ⟨by simpa using hkept, by simpa using hback, by simpa using hknown⟩
      · cases hwait
    | client fd hup =>
      simp only [wait] at hwait
      split at hwait
      · rename_i r hreg
        split at hwait
        · split at hwait
          · cases hwait
            exact Reported.client hreg (ih (by assumption))
          · cases hwait
        · cases hwait
      · cases hwait

end EventPoller

end Tubekit
