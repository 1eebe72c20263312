import Tubekit.Lib.Transition
import Tubekit.Socket.EventPoller

/-!
# The interest set and its record

`event_poller` over the interest set of the kernel, with the event masks and the errors of
`epoll_ctl`, and `socket_handler::attach`, `detach` and `remove` over it, in any order and on any
sockets. A descriptor that `remove` closes is given to another socket by `accept`.

The kernel refuses to add a descriptor that is registered, to change or delete one that is not, and
any that is not open. It may refuse to add or change one for reasons of its own (`ENOMEM`,
`ENOSPC`, `EPERM`); it deletes every open descriptor that is registered. Closing a descriptor drops
it from the interest set. That a reported descriptor is disarmed does not count here; with that
`EventPoller` is the same record with kernel calls that are refused only for the first reasons
(`abstracts_attach`, `abstracts_detach`).
-/

namespace Tubekit

open Lib.Transition

/-! ## The kernel -/

def EPOLLIN : UInt32 := 0x001
def EPOLLOUT : UInt32 := 0x004
def EPOLLERR : UInt32 := 0x008
def EPOLLHUP : UInt32 := 0x010
def EPOLLRDHUP : UInt32 := 0x2000
def EPOLLONESHOT : UInt32 := 0x40000000
def EPOLLET : UInt32 := 0x80000000

inductive CtlErrno where
  | EEXIST
  | ENOENT
  | EBADF
  | other (errno : Nat)
  deriving DecidableEq

inductive CtlOp where
  | add
  | mod
  | del
  deriving DecidableEq

structure EpollKernel where
  isOpen : Int → Bool
  /-- The interest set, with the mask that is registered. -/
  registered : Int → Option UInt32

namespace EpollKernel

def register (k : EpollKernel) (fd : Int) (events : Option UInt32) : EpollKernel :=
  { k with registered := Function.update k.registered fd events }

/-- `epoll_ctl`; `EPOLLERR` and `EPOLLHUP` are always asked for. `refusal` is the reason that the kernel
may have of its own. -/
def epollCtl (k : EpollKernel) (op : CtlOp) (fd : Int) (events : UInt32) (refusal : Option Nat) :
    Except CtlErrno EpollKernel :=
  if k.isOpen fd = false then .error .EBADF
  else
    match op, k.registered fd, refusal with
    | .add, some _, _ => .error .EEXIST
    | .add, none, some errno => .error (.other errno)
    | .add, none, none => .ok (k.register fd (some (events ||| EPOLLERR ||| EPOLLHUP)))
    | .mod, none, _ => .error .ENOENT
    | .mod, some _, some errno => .error (.other errno)
    | .mod, some _, none => .ok (k.register fd (some (events ||| EPOLLERR ||| EPOLLHUP)))
    | .del, none, _ => .error .ENOENT
    | .del, some _, _ => .ok (k.register fd none)

/-- `::close`. -/
def close (k : EpollKernel) (fd : Int) : EpollKernel :=
  { isOpen := Function.update k.isOpen fd false
    registered := Function.update k.registered fd none }

end EpollKernel

/-! ## `event_poller` -/

/-- `event_poller` on its epoll instance. -/
structure Epoll where
  kernel : EpollKernel
  /-- `m_et`. -/
  et : Bool
  /-- `m_map_fd_envets`; a descriptor without an entry has 0. -/
  mapFdEnvets : Int → UInt32

namespace Epoll

def ctrl (p : Epoll) (fd : Int) (events : UInt32) (op : CtlOp) (refusal : Option Nat) :
    Except CtlErrno EpollKernel :=
  p.kernel.epollCtl op fd (if p.et then events ||| EPOLLET else events) refusal

/-- A call of `ctrl`, after which the record has `recorded` if it succeeded. -/
def call (p : Epoll) (fd : Int) (events : UInt32) (op : CtlOp) (recorded : UInt32)
    (refusal : Option Nat) : Except CtlErrno Unit × Epoll :=
  match p.ctrl fd events op refusal with
  | .ok kernel =>
    (.ok (), { p with kernel, mapFdEnvets := Function.update p.mapFdEnvets fd recorded })
  | .error errno => (.error errno, p)

def add (p : Epoll) (fd : Int) (events : UInt32) (refusal : Option Nat) :
    Except CtlErrno Unit × Epoll :=
  p.call fd events .add events refusal

def mod (p : Epoll) (fd : Int) (events : UInt32) (refusal : Option Nat) :
    Except CtlErrno Unit × Epoll :=
  p.call fd events .mod events refusal

def del (p : Epoll) (fd : Int) (events : UInt32) : Except CtlErrno Unit × Epoll :=
  p.call fd events .del 0 none

def getEventsByFd (p : Epoll) (fd : Int) : UInt32 := p.mapFdEnvets fd

end Epoll

/-! ## `socket_handler` -/

/-- What 0 and -1 stand for. -/
def returned : Except CtlErrno Unit → Int
  | .ok () => 0
  | .error _ => -1

/-- `target_events` of `attach`. -/
def targetEvents (listenSend : Bool) : UInt32 :=
  if listenSend then EPOLLONESHOT ||| EPOLLIN ||| EPOLLOUT ||| EPOLLHUP ||| EPOLLERR ||| EPOLLRDHUP
  else EPOLLONESHOT ||| EPOLLIN ||| EPOLLHUP ||| EPOLLERR ||| EPOLLRDHUP

/-- The events that the listening socket is registered with. -/
def serverEvents : UInt32 := EPOLLIN ||| EPOLLHUP ||| EPOLLERR

structure SocketHandler where
  /-- `m_init`. -/
  init : Bool
  /-- `m_epoll`. -/
  epoll : Epoll
  /-- `m_sockfd` of each socket object. -/
  sockfd : Nat → Int

namespace SocketHandler

/-- `attach`. The reasons are those that the kernel may have in its answers to `add` and `mod`. -/
def attach (s : SocketHandler) (socket : Nat) (listenSend : Bool) (onAdd onMod : Option Nat) :
    Int × SocketHandler :=
  if s.init = false then (-1, s)
  else if s.epoll.getEventsByFd (s.sockfd socket) &&& EPOLLOUT ≠ 0 then (0, s)
  else
    match s.epoll.add (s.sockfd socket) (targetEvents listenSend) onAdd with
    | (.ok (), epoll) => (0, { s with epoll })
    | (.error errno, epoll) =>
      if errno ≠ .EEXIST then (-1, { s with epoll })
      else
        let (result, epoll) := epoll.mod (s.sockfd socket) (targetEvents listenSend) onMod
        (returned result, { s with epoll })

def detach (s : SocketHandler) (socket : Nat) : Int × SocketHandler :=
  if s.init = false then (-1, s)
  else
    let (result, epoll) := s.epoll.del (s.sockfd socket) 0
    (returned result, { s with epoll })

/-- `socket::close`, as far as it goes to the descriptor. -/
def closeSocket (s : SocketHandler) (socket : Nat) : SocketHandler :=
  if s.sockfd socket > 0 then
    { s with
      epoll := { s.epoll with kernel := s.epoll.kernel.close (s.sockfd socket) }
      sockfd := Function.update s.sockfd socket 0 }
  else s

/-- `remove`; there is no socket for a null pointer. -/
def remove (s : SocketHandler) (socket : Option Nat) : Int × SocketHandler :=
  match socket with
  | none => (-1, s)
  | some socket =>
    if s.init = false then (-1, s)
    else if s.sockfd socket ≤ 0 then (-1, s)
    else
      let (iret, s) := s.detach socket
      (iret, s.closeSocket socket)

/-- The part of `init` that makes the epoll instance and registers the listening socket. -/
def start (s : SocketHandler) (serverFd : Int) (refusal : Option Nat) : SocketHandler :=
  if s.init then s
  else
    let epoll : Epoll :=
      { kernel := { s.epoll.kernel with registered := fun _ => none }
        et := false
        mapFdEnvets := fun _ => 0 }
    { s with init := true, epoll := (epoll.add serverFd serverEvents refusal).2 }

inductive Action where
  | start (serverFd : Int) (refusal : Option Nat)
  | attach (socket : Nat) (listenSend : Bool) (onAdd onMod : Option Nat)
  | detach (socket : Nat)
  | remove (socket : Option Nat)
  /-- A descriptor that was not open is given to a socket object. -/
  | accept (socket : Nat) (fd : Int)

def next (s : SocketHandler) : Action → Option SocketHandler
  | .start serverFd refusal => some (s.start serverFd refusal)
  | .attach socket listenSend onAdd onMod => some (s.attach socket listenSend onAdd onMod).2
  | .detach socket => some (s.detach socket).2
  | .remove socket => some (s.remove socket).2
  | .accept socket fd =>
    if 0 < fd ∧ s.epoll.kernel.isOpen fd = false then
      some { s with
        epoll := { s.epoll with
          kernel := { s.epoll.kernel with isOpen := Function.update s.epoll.kernel.isOpen fd true } }
        sockfd := Function.update s.sockfd socket fd }
    else none

/-- Before `init` nothing is registered and nothing is recorded. -/
def system : System SocketHandler Action where
  init s := s.init = false ∧ s.epoll.et = false ∧ (∀ fd, s.epoll.kernel.registered fd = none) ∧
    ∀ fd, s.epoll.mapFdEnvets fd = 0
  next := next

end SocketHandler

/-! ## The record is faithful -/

/-- A mask that the code registers. -/
def Registers (events : UInt32) : Prop :=
  events = serverEvents ∨ ∃ listenSend, events = targetEvents listenSend

/-- The kernel registers such a mask as it is, it is not 0 and has `EPOLLIN`. -/
theorem Registers.spec {events : UInt32} (h : Registers events) :
    events ||| EPOLLERR ||| EPOLLHUP = events ∧ events &&& EPOLLIN ≠ 0 := by
  rcases h with rfl | ⟨listenSend, rfl⟩
  · decide
  · cases listenSend <;> decide

namespace Epoll

/-- The record has the mask of every registered descriptor and 0 for the others. What is registered is
open. -/
structure Faithful (p : Epoll) : Prop where
  level : p.et = false
  record : ∀ fd, p.mapFdEnvets fd = (p.kernel.registered fd).getD 0
  isOpen : ∀ fd events, p.kernel.registered fd = some events → p.kernel.isOpen fd = true
  masks : ∀ fd events, p.kernel.registered fd = some events → Registers events

variable {p : Epoll} {fd : Int}

/-- Registration and record are updated together. -/
def set (p : Epoll) (fd : Int) (events : Option UInt32) : Epoll :=
  { p with
    kernel := p.kernel.register fd events
    mapFdEnvets := Function.update p.mapFdEnvets fd (events.getD 0) }

theorem Faithful.set (h : p.Faithful) {events : Option UInt32} (hopen : p.kernel.isOpen fd = true)
    (hmask : ∀ mask, events = some mask → Registers mask) : (p.set fd events).Faithful := by
  refine ⟨h.level, fun fd' => ?_, fun fd' mask hreg => ?_, fun fd' mask hreg => ?_⟩ <;>
    by_cases heq : fd' = fd
  · subst heq
    simp [Epoll.set, EpollKernel.register]
  · simp [Epoll.set, EpollKernel.register, heq, h.record fd']
  · subst heq
    exact hopen
  · simp only [Epoll.set, EpollKernel.register, Function.update_of_ne heq] at hreg
    exact h.isOpen fd' mask hreg
  · subst heq
    simp only [Epoll.set, EpollKernel.register, Function.update_self] at hreg
    exact hmask mask hreg
  · simp only [Epoll.set, EpollKernel.register, Function.update_of_ne heq] at hreg
    exact h.masks fd' mask hreg

/-- A successful call of `epoll_ctl` for a mask of the code is on an open descriptor, and registers the
mask or deletes the descriptor. -/
theorem epollCtl_ok {k k' : EpollKernel} {op : CtlOp} {events : UInt32} {refusal : Option Nat}
    (h : k.epollCtl op fd events refusal = .ok k') :
    k.isOpen fd = true ∧
      k' = k.register fd (if op = .del then none else some (events ||| EPOLLERR ||| EPOLLHUP)) := by
  unfold EpollKernel.epollCtl at h
  split at h
  · cases h
  · next hopen =>
    refine ⟨by simpa using hopen, ?_⟩
    split at h <;> cases h <;> rfl

/-- One lemma for `add`, `mod` and `del`: the record stays faithful, and after a success the mask is
registered or the descriptor is not. -/
theorem call_spec (h : p.Faithful) (fd : Int) (op : CtlOp) (events recorded : UInt32)
    (refusal : Option Nat)
    (hmask : Registers events ∨ op = .del) (hrecorded : recorded = if op = .del then 0 else events) :
    (p.call fd events op recorded refusal).2.Faithful ∧
      ((p.call fd events op recorded refusal).1 = .ok () →
        (p.call fd events op recorded refusal).2.kernel.registered fd =
          if op = .del then none else some events) := by
  unfold call
  cases hctl : p.ctrl fd events op refusal with
  | error errno => exact ⟨h, fun heq => by cases heq⟩
  | ok kernel =>
    dsimp only
    rw [ctrl, h.level] at hctl
    obtain ⟨hopen, rfl⟩ := epollCtl_ok hctl
    have hregistered : (if op = .del then none else some (events ||| EPOLLERR ||| EPOLLHUP)) =
        if op = .del then none else some events := by
      rcases hmask with hmask | rfl
      · rw [hmask.spec.1]
      · rfl
    have hvalue : recorded = (if op = .del then none else some events).getD 0 := by
      rw [hrecorded]
      split <;> rfl
    simp only [Bool.false_eq_true, if_false]
    rw [hregistered, hvalue]
    refine ⟨h.set hopen fun mask hsome => ?_, fun _ => by simp [EpollKernel.register]⟩
    rcases hmask with hmask | rfl
    · split at hsome
      · cases hsome
      · cases hsome
        exact hmask
    · simp at hsome

/-- Where the record has a bit, the descriptor is registered with it. -/
theorem Faithful.registered_of_record (h : p.Faithful) {bit : UInt32}
    (hbit : p.mapFdEnvets fd &&& bit ≠ 0) :
    ∃ mask, p.kernel.registered fd = some mask ∧ mask &&& bit ≠ 0 := by
  rw [h.record fd] at hbit
  cases hreg : p.kernel.registered fd with
  | none => simp [hreg] at hbit
  | some mask =>
    rw [hreg] at hbit
    exact ⟨mask, rfl, hbit⟩

/-- Closing keeps the record faithful where it says that the descriptor is not registered. -/
theorem Faithful.close (h : p.Faithful) (hzero : p.mapFdEnvets fd = 0) :
    Faithful { p with kernel := p.kernel.close fd } := by
  refine ⟨h.level, fun fd' => ?_, fun fd' mask hreg => ?_, fun fd' mask hreg => ?_⟩ <;>
    by_cases heq : fd' = fd
  · subst heq
    simp [EpollKernel.close, hzero]
  · simp [EpollKernel.close, heq, h.record fd']
  · subst heq
    simp [EpollKernel.close] at hreg
  · simp only [EpollKernel.close, Function.update_of_ne heq] at hreg ⊢
    exact h.isOpen fd' mask hreg
  · subst heq
    simp [EpollKernel.close] at hreg
  · simp only [EpollKernel.close, Function.update_of_ne heq] at hreg
    exact h.masks fd' mask hreg

/-- Behind `del` the record has 0: it deleted the descriptor, or there was nothing to delete. -/
theorem record_del (h : p.Faithful) (fd : Int) (events : UInt32) :
    (p.del fd events).2.mapFdEnvets fd = 0 := by
  have hspec := call_spec h fd .del events 0 none (Or.inr rfl) rfl
  rw [Epoll.del, hspec.1.record fd]
  cases hresult : (p.call fd events .del 0 none).1 with
  | ok value =>
    rw [hspec.2 hresult]
    rfl
  | error errno =>
    have hsame : (p.call fd events .del 0 none).2 = p := by
      unfold call at hresult ⊢
      split at hresult
      · cases hresult
      · rfl
    rw [hsame]
    cases hreg : p.kernel.registered fd with
    | none => rfl
    | some mask =>
      -- what is registered is open, so the kernel deletes it
      have hopen := h.isOpen fd mask hreg
      simp [call, ctrl, EpollKernel.epollCtl, hopen, hreg] at hresult

end Epoll

namespace SocketHandler

open Epoll

variable {s s' : SocketHandler} {socket : Nat} {listenSend : Bool} {onAdd onMod : Option Nat}

/-- The descriptor of the socket is registered with `EPOLLIN`, and with `EPOLLOUT` if that is asked
for. -/
def Watched (s : SocketHandler) (socket : Nat) (listenSend : Bool) : Prop :=
  ∃ events, s.epoll.kernel.registered (s.sockfd socket) = some events ∧ events &&& EPOLLIN ≠ 0 ∧
    (listenSend = true → events &&& EPOLLOUT ≠ 0)

theorem targetEvents_spec (listenSend : Bool) :
    targetEvents listenSend &&& EPOLLIN ≠ 0 ∧
      (listenSend = true → targetEvents listenSend &&& EPOLLOUT ≠ 0) := by
  cases listenSend <;> decide

/-- A call of `add` or `mod` in `attach`. -/
theorem call_attach (h : s.epoll.Faithful) (socket : Nat) (listenSend : Bool) {op : CtlOp}
    (hop : op ≠ .del) (refusal : Option Nat) :
    let p := s.epoll.call (s.sockfd socket) (targetEvents listenSend) op (targetEvents listenSend) refusal
    p.2.Faithful ∧ (p.1 = .ok () → Watched { s with epoll := p.2 } socket listenSend) := by
  have hspec := call_spec h (s.sockfd socket) op (targetEvents listenSend) (targetEvents listenSend)
    refusal (Or.inl (Or.inr ⟨listenSend, rfl⟩)) (if_neg hop).symm
  refine ⟨hspec.1, fun hok => ⟨targetEvents listenSend, ?_, targetEvents_spec listenSend⟩⟩
  rw [hspec.2 hok, if_neg hop]

/-- `attach` keeps the record faithful, and where it returns 0 the socket is watched. -/
theorem attach_spec (h : s.epoll.Faithful) (socket : Nat) (listenSend : Bool) (onAdd onMod : Option Nat) :
    (s.attach socket listenSend onAdd onMod).2.epoll.Faithful ∧
      ((s.attach socket listenSend onAdd onMod).1 = 0 →
        Watched (s.attach socket listenSend onAdd onMod).2 socket listenSend) := by
  unfold attach
  split
  · exact ⟨h, fun hret => absurd hret (Int.neg_ne_zero.mpr Int.one_ne_zero)⟩
  · split
    · next hout =>
      -- the record has `EPOLLOUT`, so the kernel has a mask of the code with it
      refine ⟨h, fun _ => ?_⟩
      obtain ⟨events, hreg, hbit⟩ := h.registered_of_record hout
      exact ⟨events, hreg, (h.masks _ _ hreg).spec.2, fun _ => hbit⟩
    · have hadd := call_attach h socket listenSend
        (show CtlOp.add ≠ .del by decide) onAdd
      rw [← Epoll.add] at hadd
      split
      · next epoll heq =>
        rw [heq] at hadd
        exact ⟨hadd.1, fun _ => hadd.2 rfl⟩
      · next errno epoll heq =>
        rw [heq] at hadd
        split
        · exact ⟨hadd.1, fun hret => absurd hret (Int.neg_ne_zero.mpr Int.one_ne_zero)⟩
        · have hmod := call_attach (s := { s with epoll }) hadd.1 socket listenSend
            (show CtlOp.mod ≠ .del by decide) onMod
          rw [← Epoll.mod] at hmod
          refine ⟨hmod.1, fun hret => hmod.2 ?_⟩
          cases hresult : (epoll.mod (s.sockfd socket) (targetEvents listenSend) onMod).1 with
          | ok value => rfl
          | error errno =>
            dsimp only at hret
            rw [hresult] at hret
            cases hret

theorem detach_spec (h : s.epoll.Faithful) (socket : Nat) :
    (s.detach socket).2.epoll.Faithful ∧
      (s.init = true → (s.detach socket).2.epoll.mapFdEnvets (s.sockfd socket) = 0) ∧
        (s.detach socket).2.sockfd = s.sockfd := by
  unfold detach
  split
  · next hinit => exact ⟨h, by simp [hinit], rfl⟩
  · exact ⟨(call_spec h _ _ _ _ _ (Or.inr rfl) rfl).1, fun _ => record_del h _ _, rfl⟩

theorem remove_faithful (h : s.epoll.Faithful) (socket : Option Nat) :
    (s.remove socket).2.epoll.Faithful := by
  unfold remove
  split
  · exact h
  · next socket =>
    split
    · exact h
    · next hinit =>
      split
      · exact h
      · obtain ⟨hfaithful, hzero, hsockfd⟩ := detach_spec h socket
        dsimp only
        unfold closeSocket
        split
        · refine hfaithful.close ?_
          rw [hsockfd]
          exact hzero (by simpa using hinit)
        · exact hfaithful

theorem start_faithful (h : s.epoll.Faithful) (serverFd : Int) (refusal : Option Nat) :
    (s.start serverFd refusal).epoll.Faithful := by
  unfold start
  split
  · exact h
  · refine (call_spec ?_ _ _ _ _ _ (Or.inl (Or.inl rfl)) rfl).1
    exact ⟨rfl, fun _ => rfl, (fun _ _ hreg => nomatch hreg), fun _ _ hreg => nomatch hreg⟩

theorem accept_faithful (h : s.epoll.Faithful) (fd : Int) :
    Faithful { s.epoll with
      kernel := { s.epoll.kernel with isOpen := Function.update s.epoll.kernel.isOpen fd true } } := by
  refine ⟨h.level, h.record, fun fd' events hreg => ?_, h.masks⟩
  by_cases heq : fd' = fd
  · subst heq
    exact Function.update_self ..
  · exact (Function.update_of_ne heq ..).trans (h.isOpen fd' events hreg)

theorem next_faithful {a : Action} (h : s.epoll.Faithful) (hnext : s.next a = some s') :
    s'.epoll.Faithful := by
  cases a with
  | start serverFd refusal =>
    cases hnext
    exact start_faithful h serverFd refusal
  | attach socket listenSend onAdd onMod =>
    cases hnext
    exact (attach_spec h socket listenSend onAdd onMod).1
  | detach socket =>
    cases hnext
    exact (detach_spec h socket).1
  | remove socket =>
    cases hnext
    exact remove_faithful h socket
  | accept socket fd =>
    rw [next] at hnext
    split at hnext
    · cases hnext
      exact accept_faithful h fd
    · cases hnext

theorem faithful_of_reachable (h : system.Reachable s) : s.epoll.Faithful := by
  refine h.invariant (P := fun s => s.epoll.Faithful) (fun s hs => ?_) fun s a s' _ hs hnext =>
    next_faithful hs hnext
  obtain ⟨-, het, hregistered, hrecord⟩ := hs
  refine ⟨het, fun fd => ?_, fun fd events hreg => ?_, fun fd events hreg => ?_⟩
  · rw [hrecord, hregistered]
    rfl
  · rw [hregistered] at hreg
    cases hreg
  · rw [hregistered] at hreg
    cases hreg

/-! ## The coarser record

`EventPoller` records for each descriptor only whether its mask has `EPOLLOUT`. -/

def hasOut (events : UInt32) : Bool := decide (events &&& EPOLLOUT ≠ 0)

/-- The two have the same descriptors, with and without `EPOLLOUT`. -/
structure Abstracts (p : Epoll) (q : EventPoller) : Prop where
  registered : ∀ fd, (q.registered fd).map (·.out) = (p.kernel.registered fd).map hasOut
  record : ∀ fd, q.mapFdEnvets fd =
    if p.mapFdEnvets fd = 0 then none else some (hasOut (p.mapFdEnvets fd))

theorem Abstracts.set {p : Epoll} {q : EventPoller} (h : Abstracts p q) {fd : Int}
    {events : Option UInt32} {r : Option Registration} (hout : r.map (·.out) = events.map hasOut)
    (hmask : ∀ mask, events = some mask → mask ≠ 0) : Abstracts (p.set fd events) (q.set fd r) := by
  refine ⟨fun fd' => ?_, fun fd' => ?_⟩ <;> by_cases heq : fd' = fd
  · subst heq
    simp [Epoll.set, EpollKernel.register, EventPoller.set, hout]
  · simp [Epoll.set, EpollKernel.register, EventPoller.set, heq, h.registered fd']
  · subst heq
    cases events with
    | none => simp [Epoll.set, EventPoller.set, hout]
    | some mask => simp [Epoll.set, EventPoller.set, hout, hmask mask rfl]
  · simp [Epoll.set, EventPoller.set, heq, h.record fd']

/-- `attach` on an open descriptor, where the kernel has no reasons of its own. -/
theorem attach_of_open (h : s.epoll.Faithful) (hinit : s.init = true)
    (hopen : s.epoll.kernel.isOpen (s.sockfd socket) = true) (listenSend : Bool) :
    (s.attach socket listenSend none none).2.epoll =
      if s.epoll.mapFdEnvets (s.sockfd socket) &&& EPOLLOUT ≠ 0 then s.epoll
      else s.epoll.set (s.sockfd socket) (some (targetEvents listenSend)) := by
  have hmask : targetEvents listenSend ||| EPOLLERR ||| EPOLLHUP = targetEvents listenSend :=
    (show Registers (targetEvents listenSend) from .inr ⟨listenSend, rfl⟩).spec.1
  unfold attach
  rw [if_neg (by simp [hinit]), getEventsByFd]
  split
  · rfl
  · cases hreg : s.epoll.kernel.registered (s.sockfd socket) with
    | none => simp [Epoll.add, call, ctrl, EpollKernel.epollCtl, hopen, hreg, h.level, hmask, Epoll.set]
    | some events =>
      simp [Epoll.add, Epoll.mod, call, ctrl, EpollKernel.epollCtl, hopen, hreg, h.level, hmask, Epoll.set]

theorem abstracts_attach (h : s.epoll.Faithful) {q : EventPoller} (habs : Abstracts s.epoll q)
    (hinit : s.init = true) (hopen : s.epoll.kernel.isOpen (s.sockfd socket) = true)
    (listenSend : Bool) :
    Abstracts (s.attach socket listenSend none none).2.epoll
      (q.attach (s.sockfd socket) socket listenSend) := by
  rw [attach_of_open h hinit hopen, EventPoller.attach_eq]
  have hrecord := habs.record (s.sockfd socket)
  by_cases hout : s.epoll.mapFdEnvets (s.sockfd socket) &&& EPOLLOUT ≠ 0
  · have hne : s.epoll.mapFdEnvets (s.sockfd socket) ≠ 0 := fun hzero => hout (by rw [hzero]; rfl)
    rw [if_pos hout, if_pos (by simp [hrecord, hne, hasOut, hout])]
    exact habs
  · rw [if_neg hout, if_neg (by rw [hrecord]; split <;> simp [hasOut, hout])]
    refine habs.set ?_ fun mask hsome => ?_
    · cases listenSend <;> rfl
    · cases hsome
      exact fun hzero => (targetEvents_spec listenSend).1 (by rw [hzero]; rfl)

theorem abstracts_detach (h : s.epoll.Faithful) {q : EventPoller} (habs : Abstracts s.epoll q)
    (hinit : s.init = true) :
    Abstracts (s.detach socket).2.epoll (q.detach (s.sockfd socket)) := by
  have hregistered := habs.registered (s.sockfd socket)
  unfold detach EventPoller.detach EventPoller.del
  rw [if_neg (by simp [hinit])]
  cases hreg : s.epoll.kernel.registered (s.sockfd socket) with
  | none =>
    rw [hreg, Option.map_none, Option.map_eq_none_iff] at hregistered
    rw [hregistered]
    have hsame : (s.epoll.del (s.sockfd socket) 0).2 = s.epoll := by
      by_cases hopen : s.epoll.kernel.isOpen (s.sockfd socket) = false
      · simp [Epoll.del, call, ctrl, EpollKernel.epollCtl, hopen]
      · simp [Epoll.del, call, ctrl, EpollKernel.epollCtl, hopen, hreg]
    dsimp only
    rw [hsame]
    exact habs
  | some events =>
    have hopen := h.isOpen _ _ hreg
    obtain ⟨r, hr⟩ : ∃ r, q.registered (s.sockfd socket) = some r := by
      cases hq : q.registered (s.sockfd socket) with
      | none => simp [hq, hreg] at hregistered
      | some r => exact ⟨r, rfl⟩
    have hset : (s.epoll.del (s.sockfd socket) 0).2 = s.epoll.set (s.sockfd socket) none := by
      simp [Epoll.del, call, ctrl, EpollKernel.epollCtl, hopen, hreg, Epoll.set]
    rw [hr]
    dsimp only
    rw [hset]
    exact habs.set rfl fun mask hsome => nomatch hsome

/-! ## Every reachable state -/

/-- **The record of the interest set.** In every reachable state the record has for each descriptor the
mask that the kernel has, or 0 where it is not registered, and `attach` returns 0 only when the
socket is watched. -/
theorem record_faithful (s : SocketHandler) (h : system.Reachable s) :
    (∀ fd, s.epoll.mapFdEnvets fd = (s.epoll.kernel.registered fd).getD 0) ∧
      ∀ socket listenSend onAdd onMod,
        (s.attach socket listenSend onAdd onMod).1 = 0 →
          Watched (s.attach socket listenSend onAdd onMod).2 socket listenSend :=
  ⟨(faithful_of_reachable h).record, fun socket listenSend onAdd onMod =>
    (attach_spec (faithful_of_reachable h) socket listenSend onAdd onMod).2⟩

/-- Before `init`, with the listening socket open. -/
def fresh : SocketHandler where
  init := false
  epoll :=
    { kernel := { isOpen := fun fd => fd == 3, registered := fun _ => none }
      et := false
      mapFdEnvets := fun _ => 0 }
  sockfd := fun _ => 0

/-- The descriptor of a removed socket is given to another one. -/
def reused : List Action :=
  [.start 3 none, .accept 0 5, .attach 0 true none none, .remove (some 0), .accept 1 5]

theorem record_faithful_reused :
    ∃ s, system.exec fresh reused = some s ∧ s.epoll.mapFdEnvets 5 = 0 ∧
      (s.attach 1 true none none).1 = 0 ∧ Watched (s.attach 1 true none none).2 1 true := by
  have hinit : system.Reachable fresh := .start ⟨rfl, rfl, fun _ => rfl, fun _ => rfl⟩
  obtain ⟨s, hs⟩ : ∃ s, system.exec fresh reused = some s := ⟨_, rfl⟩
  have hfaithful := record_faithful s (hinit.run (.of_exec hs))
  have hret : (s.attach 1 true none none).1 = 0 := by
    cases hs
    decide
  refine ⟨s, hs, ?_, hret, hfaithful.2 1 true none none hret⟩
  rw [hfaithful.1]
  cases hs
  decide

end SocketHandler

end Tubekit
