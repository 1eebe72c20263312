import Tubekit.Connection.SendPath
import Tubekit.Socket.EventPoller
import Tubekit.Socket.Ownership
import Tubekit.Thread.Dispatch

/-!
# The server: main loop, workers and callers

A server for stream tasks without SSL, put together from the parts: the pools, `connection_mgr`
and the removal lists (`Ownership`), the staging areas of the connection objects, the epoll
instance, and the queues of the workers. A task in a queue is its gid.

The main thread waits for events, empties the removal list and goes through the events
(`socket_handler::handle`). A worker pops a task and runs it (`stream_task::run`). Any thread may
be inside `send` or `mark_close` of a connection: it has the lock of the connection's part of
`connection_mgr`, as in a callback of `if_exist`, or it is the worker of the connection, which
calls from `process_connection`, from the `write_end_callback` or from `on_close_connection`.
A thread inside such a call takes no other step.

The steps end where a lock is taken or given back or where an object that other threads see is
read or written. `sock2buf` is one step: until the connection is closed, `m_recv_buffer` belongs to
its worker. No worker is stopped and the hooks do not throw, but `process_connection` may.
-/

namespace Tubekit

open Lib.Transition

inductive Thread where
  | main
  | worker (w : Nat)
  | other (k : Nat)
  deriving DecidableEq

/-- What an application asks of a connection. -/
inductive CallRequest where
  | send (buffer : Option MemoryBlock)
  | markClose

/-- Where a thread is in `send` or in `mark_close`. -/
inductive CallStage where
  /-- In `send`, before the write to `m_wating_send_pack`. -/
  | write (buffer : Option MemoryBlock)
  /-- In `mark_close`, before the test of `close_flag`. -/
  | check
  /-- The flag was false. -/
  | set
  /-- In `on_mark_close`. -/
  | clear
  /-- Before `do_task`. -/
  | task

def CallRequest.stage : CallRequest → CallStage
  | .send buffer => .write buffer
  | .markClose => .check

structure Call where
  gid : Nat
  connection : Nat
  /-- The thread has the lock of this gid's part of the map for the call. -/
  locked : Bool
  stage : CallStage

/-- What a lock of `connection_mgr` is held for. -/
inductive Holder where
  | call (t : Thread)
  | removal (w : Nat)
  deriving DecidableEq

/-- Where the main thread is in the loop of `handle`. -/
inductive LoopPc where
  | waiting
  /-- `wait` has returned. -/
  | returned
  | updating
  | events
  /-- The pair of this gid is in the map and its first task is not yet asked for. -/
  | inserted (gid : Nat)
  /-- The socket of an event is detached and has this gid. -/
  | detached (gid : Nat) (hup : Bool)
  deriving DecidableEq

/-- Where a worker is in `stream_task::run`. -/
inductive RunPc where
  | idle
  /-- The task is popped. -/
  | started (gid : Nat)
  | found (gid socket connection : Nat)
  /-- The connection was closed; what is left to do is in the hand of the worker. -/
  | removing (gid : Nat)
  | recv (gid socket connection : Nat)
  /-- `need_task` was set. -/
  | again (gid socket connection : Nat)
  | process (gid socket connection : Nat)
  | sending (gid socket connection : Nat) (pc : Staging.Buf2sockPc)
  | attaching (gid socket connection : Nat) (listenSend : Bool)
  deriving DecidableEq

structure Server where
  own : Ownership
  /-- The members of the connection objects. -/
  staging : Nat → Staging
  poller : EventPoller
  /-- `m_events` from the event on that is processed next. -/
  events : List Event
  removedSocket : Finset Nat
  loop : LoopPc
  queue : Nat → TaskQueue
  run : Nat → RunPc
  call : Thread → Option Call
  /-- The locks of the parts of `connection_mgr`. -/
  lock : Nat → Option Holder

namespace Server

inductive MainAction where
  | wait (reports : List Report)
  | updateWaitRemove
  | take
  | close
  | releaseSocket
  | clear
  | accept (socket : Nat) (fd : Int) (gid : Nat)
  | noConnection
  | create (connection : Nat)
  | insert
  | releaseUnwanted
  | pushRefused
  | acceptDone
  | skip
  | handle
  | doTask
  | lookup
  | endBatch

inductive WorkerAction where
  | pop
  | find
  | check
  | erase
  | hook
  | release
  | pushWaitRemove
  | recv (answers : List SockRecv)
  | again
  | consume (len : Nat)
  | setWriteEndCallback (callback : Option Nat)
  | processed
  | throws
  | send (out : Staging.Outside)
  | attach

inductive Action where
  | main (a : MainAction)
  | worker (w : Nat) (a : WorkerAction)
  /-- The thread asks for this in a callback of `if_exist`. -/
  | start (t : Thread) (gid : Nat) (request : CallRequest)
  /-- The worker asks for this on the connection whose hook or callback it runs. -/
  | startOwn (w : Nat) (request : CallRequest)
  /-- The next step of the call that the thread is in. -/
  | call (t : Thread)

variable (n : Nat) (sockets : Finset Nat)

/-- `socket_handler::do_task`. -/
def doTask (s : Server) (gid : Nat) : Server :=
  { s with
    queue := Function.update s.queue (gid % n) ((s.queue (gid % n)).push id (some gid)).2 }

/-- The worker enters `mark_close` of its connection. -/
def markClose (s : Server) (w gid connection : Nat) : Server :=
  { s with call := Function.update s.call (.worker w) (some ⟨gid, connection, false, .check⟩) }

/-- A step that also is one of `Ownership`. -/
def ownStep (s : Server) (a : Ownership.Action) (f : Ownership → Server) : Option Server :=
  (s.own.next .streamTask a).map f

def mainNext (s : Server) : MainAction → Option Server
  | .wait reports =>
    if s.loop = .waiting then
      match s.poller.wait reports with
      | some (events, poller) =>
        some { s with poller, events, removedSocket := ∅, loop := .returned }
      | none => none
    else none
  | .updateWaitRemove =>
    if s.loop = .returned then
      s.ownStep .updateWaitRemove fun own => { s with own, loop := .updating }
    else none
  | .take =>
    match s.own.main with
    | .updating pos =>
      match (s.own.list s.own.readList)[pos]? with
      | some socket =>
        s.ownStep .take fun own =>
          { s with own, removedSocket := insert socket s.removedSocket }
      | none => none
    | _ => none
  | .close =>
    match s.own.main with
    | .removing _ socket =>
      s.ownStep .close fun own =>
        { s with
          own
          poller := if s.own.fd socket ≤ 0 then s.poller
            else s.poller.detach (s.own.fd socket) }
    | _ => none
  | .releaseSocket => s.ownStep .releaseSocket fun own => { s with own }
  | .clear => s.ownStep .clear fun own => { s with own, loop := .events }
  | .accept socket fd gid =>
    if s.loop = .events ∧ s.events.head? = some .listen ∧ 0 < gid ∧ gid ∉ s.own.accepted ∧
        ∀ y ∈ sockets, y ∉ s.own.socketPool → s.own.fd y ≠ fd then
      s.ownStep (.accept socket fd gid) fun own => { s with own }
    else none
  | .noConnection => s.ownStep .noConnection fun own => { s with own }
  | .create connection =>
    s.ownStep (.create connection) fun own =>
      { s with
        own
        staging := Function.update s.staging connection (s.staging connection).reuse }
  | .insert =>
    match s.own.main with
    | .holding _ _ gid =>
      if s.lock (gid % n) = none then
        s.ownStep .insert fun own =>
          { s with own, loop := if s.own.entry gid = none then .inserted gid else s.loop }
      else none
    | _ => none
  | .releaseUnwanted => s.ownStep .releaseUnwanted fun own => { s with own }
  | .pushRefused => s.ownStep .pushRefused fun own => { s with own }
  | .acceptDone =>
    match s.events with
    | .listen :: events =>
      if s.loop = .events ∧ s.own.main = .free then some { s with events } else none
    | _ => none
  | .skip =>
    match s.events with
    | .client socket _ :: events =>
      if s.loop = .events ∧ s.own.main = .free ∧ socket ∈ s.removedSocket then
        some { s with events }
      else none
    | _ => none
  | .handle =>
    match s.events with
    | .client socket hup :: events =>
      if s.loop = .events ∧ s.own.main = .free ∧ socket ∉ s.removedSocket then
        some { s with
          poller := s.poller.detach (s.own.fd socket)
          events
          loop := .detached (s.own.socketGid socket) hup }
      else none
    | _ => none
  | .doTask =>
    match s.loop with
    | .inserted gid => some { s.doTask n gid with loop := .events }
    | .detached gid false => some { s.doTask n gid with loop := .events }
    | _ => none
  | .lookup =>
    match s.loop with
    | .detached gid true =>
      if s.lock (gid % n) = none then
        match s.own.entry gid with
        | some (_, connection) =>
          some { s with
            loop := .events
            lock := Function.update s.lock (gid % n) (some (.call .main))
            call := Function.update s.call .main (some ⟨gid, connection, true, .check⟩) }
        | none => some { s with loop := .events }
      else none
    | _ => none
  | .endBatch =>
    if s.loop = .events ∧ s.own.main = .free ∧ s.events = [] then
      some { s with loop := .waiting }
    else none

def workerNext (s : Server) (w : Nat) : WorkerAction → Option Server
  | .pop =>
    if s.run w = .idle then
      match (s.queue w).pop id with
      | some (some gid, q) =>
        some { s with
          queue := Function.update s.queue w q
          run := Function.update s.run w (.started gid) }
      | _ => none
    else none
  | .find =>
    match s.run w with
    | .started gid =>
      if gid = 0 then some { s with run := Function.update s.run w .idle }
      else if s.lock (gid % n) = none then
        match s.own.entry gid with
        | some (socket, connection) =>
          some { s with run := Function.update s.run w (.found gid socket connection) }
        | none => some { s with run := Function.update s.run w .idle }
      else none
    | _ => none
  | .check =>
    match s.run w with
    | .found gid socket connection =>
      if s.own.closeFlag connection then
        s.ownStep (.check w gid) fun own =>
          { s with own, run := Function.update s.run w (.removing gid) }
      else some { s with run := Function.update s.run w (.recv gid socket connection) }
    | _ => none
  | .erase =>
    match s.run w with
    | .removing gid =>
      if s.lock (gid % n) = none then
        s.ownStep (.erase w) fun own =>
          if s.own.entry gid = none then { s with own, run := Function.update s.run w .idle }
          else { s with own, lock := Function.update s.lock (gid % n) (some (.removal w)) }
      else none
    | _ => none
  | .hook => s.ownStep (.hook w) fun own => { s with own }
  | .release => s.ownStep (.release w) fun own => { s with own }
  | .pushWaitRemove =>
    match s.run w with
    | .removing gid =>
      s.ownStep (.pushWaitRemove w) fun own =>
        { s with
          own
          lock := Function.update s.lock (gid % n) none
          run := Function.update s.run w .idle }
    | _ => none
  | .recv answers =>
    match s.run w with
    | .recv gid socket connection =>
      let done := (s.staging connection).sock2buf answers
      let s := { s with staging := Function.update s.staging connection done.staging }
      if done.ret then
        some { s with run := Function.update s.run w (.process gid socket connection) }
      else if done.needTask then
        some { s with run := Function.update s.run w (.again gid socket connection) }
      else some ({ s with run := Function.update s.run w .idle }.markClose w gid connection)
    | _ => none
  | .again =>
    match s.run w with
    | .again gid socket connection =>
      some { s.doTask n gid with
        run := Function.update s.run w (.process gid socket connection) }
    | _ => none
  | .consume len =>
    match s.run w with
    | .process _ _ connection =>
      some { s with
        staging := Function.update s.staging connection
          { s.staging connection with
            recvBuffer := ((s.staging connection).recvBuffer.readPtrMoveN len).2 } }
    | _ => none
  | .setWriteEndCallback callback =>
    match s.run w with
    | .process _ _ connection =>
      some { s with
        staging := Function.update s.staging connection
          { s.staging connection with writeEndCallback := callback } }
    | _ => none
  | .processed =>
    match s.run w with
    | .process gid socket connection =>
      some { s with run := Function.update s.run w (.sending gid socket connection .tag1) }
    | _ => none
  | .throws =>
    match s.run w with
    | .process gid _ connection =>
      some ({ s with run := Function.update s.run w .idle }.markClose w gid connection)
    | _ => none
  | .send out =>
    match s.run w with
    | .sending gid socket connection pc =>
      let (staging, pc, _) := (s.staging connection).buf2sockStep out pc
      let s := { s with staging := Function.update s.staging connection staging }
      match pc with
      | .done ret closed =>
        let s := { s with
          run := Function.update s.run w (.attaching gid socket connection ret) }
        some (if closed then s.markClose w gid connection else s)
      | pc => some { s with run := Function.update s.run w (.sending gid socket connection pc) }
    | _ => none
  | .attach =>
    match s.run w with
    | .attaching _ socket _ listenSend =>
      some { s with
        poller := s.poller.attach (s.own.fd socket) socket listenSend
        run := Function.update s.run w .idle }
    | _ => none

/-- The call of the thread returns. -/
def finish (s : Server) (t : Thread) (k : Call) : Server :=
  { s with
    call := Function.update s.call t none
    lock := if k.locked then Function.update s.lock (k.gid % n) none else s.lock }

def goOn (s : Server) (t : Thread) (k : Call) (stage : CallStage) : Server :=
  { s with call := Function.update s.call t (some { k with stage }) }

/-- The next step of `send` or of `mark_close`. -/
def callNext (s : Server) (t : Thread) (k : Call) : Server :=
  match k.stage with
  | .write buffer =>
    let (out, staging) := (s.staging k.connection).send k.gid (buffer.map (·.bytes))
    let s := { s with staging := Function.update s.staging k.connection staging }
    if out.doTask then s.goOn t k .task else s.finish n t k
  | .check => if s.own.closeFlag k.connection then s.finish n t k else s.goOn t k .set
  | .set =>
    let closeFlag := Function.update s.own.closeFlag k.connection true
    { s with own := { s.own with closeFlag } }.goOn t k .clear
  | .clear =>
    let staging := (s.staging k.connection).onMarkClose
    { s with staging := Function.update s.staging k.connection staging }.goOn t k .task
  | .task => (s.doTask n k.gid).finish n t k

/-- The connection whose hook or callback the worker runs. -/
def inHook (s : Server) (w : Nat) : Option (Nat × Nat) :=
  match s.run w with
  | .process gid _ connection => some (gid, connection)
  | .sending gid _ connection .callback => some (gid, connection)
  | .removing _ =>
    match s.own.worker w with
    | .erased gid _ connection => some (gid, connection)
    | _ => none
  | _ => none

/-- One step with `n` workers and these socket objects. -/
def next (s : Server) : Action → Option Server
  | .main a => if (s.call .main).isNone then s.mainNext n sockets a else none
  | .worker w a => if (s.call (.worker w)).isNone then s.workerNext n w a else none
  | .start t gid request =>
    if (s.call t).isNone ∧ s.lock (gid % n) = none then
      match s.own.entry gid with
      | some (_, connection) =>
        some { s with
          lock := Function.update s.lock (gid % n) (some (.call t))
          call := Function.update s.call t (some ⟨gid, connection, true, request.stage⟩) }
      | none => none
    else none
  | .startOwn w request =>
    if (s.call (.worker w)).isNone then
      match s.inHook w with
      | some (gid, connection) =>
        some { s with
          call := Function.update s.call (.worker w)
            (some ⟨gid, connection, false, request.stage⟩) }
      | none => none
    else none
  | .call t => (s.call t).map (s.callNext n t)

def start (own : Ownership) (staging : Nat → Staging) : Server :=
  { own
    staging
    poller := .new
    events := []
    removedSocket := ∅
    loop := .waiting
    queue := fun _ => .new
    run := fun _ => .idle
    call := fun _ => none
    lock := fun _ => none }

def system (connections : Finset Nat) : System Server Action where
  init s := ∃ own staging, (Ownership.system .streamTask sockets connections).init own ∧
    s = start own staging
  next := next n sockets

end Server

/-! ## What a step does -/

/-- The members that the send path uses are the same. -/
structure Staging.SameSend (st st' : Staging) : Prop where
  sendBuffer : st'.sendBuffer = st.sendBuffer
  watingSendPack : st'.watingSendPack = st.watingSendPack
  shouldSendIdx : st'.shouldSendIdx = st.shouldSendIdx
  shouldSendSize : st'.shouldSendSize = st.shouldSendSize
  buf2sockInnerBuffer : st'.buf2sockInnerBuffer = st.buf2sockInnerBuffer

namespace Server

variable (n : Nat) (sockets : Finset Nat)

/-- The actions of `Ownership` that do nothing else. -/
inductive Moving : Ownership.Action → Prop
  | releaseSocket : Moving .releaseSocket
  | noConnection : Moving .noConnection
  | releaseUnwanted : Moving .releaseUnwanted
  | pushRefused : Moving .pushRefused
  | release (w : Nat) : Moving (.release w)

/-- The steps of `next`, one for each kind of outcome. -/
inductive Step (s : Server) : Server → Prop
  | wait {reports : List Report} {events : List Event} {poller : EventPoller}
    (hloop : s.loop = .waiting) (hwait : s.poller.wait reports = some (events, poller)) :
    Step s { s with poller, events, removedSocket := ∅, loop := .returned }
  | updateWaitRemove {own : Ownership} (hloop : s.loop = .returned)
    (hown : s.own.Step .streamTask .updateWaitRemove own) :
    Step s { s with own, loop := .updating }
  | take {own : Ownership} {pos socket : Nat} (hmain : s.own.main = .updating pos)
    (hget : (s.own.list s.own.readList)[pos]? = some socket)
    (hown : s.own.Step .streamTask .take own) :
    Step s { s with own, removedSocket := insert socket s.removedSocket }
  | close {own : Ownership} {pos socket : Nat} (hmain : s.own.main = .removing pos socket)
    (hown : s.own.Step .streamTask .close own) :
    Step s { s with
      own
      poller := if s.own.fd socket ≤ 0 then s.poller
        else s.poller.detach (s.own.fd socket) }
  | clear {own : Ownership} (hown : s.own.Step .streamTask .clear own) :
    Step s { s with own, loop := .events }
  | accept {own : Ownership} {socket gid : Nat} {fd : Int} (hloop : s.loop = .events)
    (hgid : 0 < gid) (hnew : gid ∉ s.own.accepted)
    (hfd : ∀ y ∈ sockets, y ∉ s.own.socketPool → s.own.fd y ≠ fd)
    (hown : s.own.Step .streamTask (.accept socket fd gid) own) :
    Step s { s with own }
  | create {own : Ownership} {connection : Nat}
    (hown : s.own.Step .streamTask (.create connection) own) :
    Step s { s with
      own
      staging := Function.update s.staging connection (s.staging connection).reuse }
  | insert {own : Ownership} {socket connection gid : Nat}
    (hmain : s.own.main = .holding socket connection gid)
    (hown : s.own.Step .streamTask .insert own) :
    Step s { s with own, loop := if s.own.entry gid = none then .inserted gid else s.loop }
  | moving {own : Ownership} {a : Ownership.Action} (ha : Moving a)
    (hown : s.own.Step .streamTask a own) :
    Step s { s with own }
  | acceptDone {events : List Event} (hevents : s.events = .listen :: events) :
    Step s { s with events }
  | skip {socket : Nat} {hup : Bool} {events : List Event}
    (hevents : s.events = .client socket hup :: events) (hremoved : socket ∈ s.removedSocket) :
    Step s { s with events }
  | handle {socket : Nat} {hup : Bool} {events : List Event} (hloop : s.loop = .events)
    (hmain : s.own.main = .free)
    (hevents : s.events = .client socket hup :: events) (hremoved : socket ∉ s.removedSocket) :
    Step s { s with
      poller := s.poller.detach (s.own.fd socket)
      events
      loop := .detached (s.own.socketGid socket) hup }
  | doTask {gid : Nat} (hloop : s.loop = .inserted gid ∨ s.loop = .detached gid false) :
    Step s { s.doTask n gid with loop := .events }
  | lookup {gid socket connection : Nat} (hloop : s.loop = .detached gid true)
    (hcall : s.call .main = none) (hlock : s.lock (gid % n) = none)
    (hentry : s.own.entry gid = some (socket, connection)) :
    Step s { s with
      loop := .events
      lock := Function.update s.lock (gid % n) (some (.call .main))
      call := Function.update s.call .main (some ⟨gid, connection, true, .check⟩) }
  | lookupFailed {gid : Nat} (hloop : s.loop = .detached gid true)
    (hentry : s.own.entry gid = none) :
    Step s { s with loop := .events }
  | endBatch (hloop : s.loop = .events) (hmain : s.own.main = .free) (hevents : s.events = []) :
    Step s { s with loop := .waiting }
  | pop {w gid : Nat} {rest : List (Option Nat)} (hrun : s.run w = .idle)
    (hqueue : (s.queue w).task = some gid :: rest) :
    Step s { s with
      queue := Function.update s.queue w { task := rest, inTask := (s.queue w).inTask.erase gid }
      run := Function.update s.run w (.started gid) }
  | find {w gid socket connection : Nat} (hrun : s.run w = .started gid)
    (hentry : s.own.entry gid = some (socket, connection)) :
    Step s { s with run := Function.update s.run w (.found gid socket connection) }
  | findFailed {w gid : Nat} (hrun : s.run w = .started gid)
    (hentry : gid = 0 ∨ s.own.entry gid = none) :
    Step s { s with run := Function.update s.run w .idle }
  | checkClosed {own : Ownership} {w gid socket connection : Nat}
    (hrun : s.run w = .found gid socket connection)
    (hown : s.own.Step .streamTask (.check w gid) own) :
    Step s { s with own, run := Function.update s.run w (.removing gid) }
  | checkOpen {w gid socket connection : Nat} (hrun : s.run w = .found gid socket connection)
    (hclosed : s.own.closeFlag connection = false) :
    Step s { s with run := Function.update s.run w (.recv gid socket connection) }
  | erase {own : Ownership} {w gid : Nat} (hcall : s.call (.worker w) = none)
    (hrun : s.run w = .removing gid) (hlock : s.lock (gid % n) = none)
    (hentry : s.own.entry gid ≠ none) (hown : s.own.Step .streamTask (.erase w) own) :
    Step s { s with own, lock := Function.update s.lock (gid % n) (some (.removal w)) }
  | eraseFailed {own : Ownership} {w gid : Nat} (hrun : s.run w = .removing gid)
    (hentry : s.own.entry gid = none) (hown : s.own.Step .streamTask (.erase w) own) :
    Step s { s with own, run := Function.update s.run w .idle }
  | hook {own : Ownership} {w : Nat} (hcall : s.call (.worker w) = none)
    (hown : s.own.Step .streamTask (.hook w) own) :
    Step s { s with own }
  | pushWaitRemove {own : Ownership} {w gid : Nat} (hcall : s.call (.worker w) = none)
    (hrun : s.run w = .removing gid) (hown : s.own.Step .streamTask (.pushWaitRemove w) own) :
    Step s { s with
      own
      lock := Function.update s.lock (gid % n) none
      run := Function.update s.run w .idle }
  /-- The data that was received, or what the application does with it. -/
  | receive {w gid socket connection : Nat} {staging : Staging} {pc : RunPc}
    (hcall : s.call (.worker w) = none)
    (hrun : s.run w = .recv gid socket connection ∨ s.run w = .process gid socket connection)
    (hsame : (s.staging connection).SameSend staging)
    (hpc : pc = .process gid socket connection ∨ pc = .again gid socket connection) :
    Step s { s with
      staging := Function.update s.staging connection staging
      run := Function.update s.run w pc }
  /-- The connection fails while data is received, or its processing throws. -/
  | fail {w gid socket connection : Nat} {staging : Staging} (hcall : s.call (.worker w) = none)
    (hrun : s.run w = .recv gid socket connection ∨ s.run w = .process gid socket connection)
    (hsame : (s.staging connection).SameSend staging) :
    Step s ({ s with
      staging := Function.update s.staging connection staging
      run := Function.update s.run w .idle }.markClose w gid connection)
  | again {w gid socket connection : Nat} (hrun : s.run w = .again gid socket connection) :
    Step s { s.doTask n gid with
      run := Function.update s.run w (.process gid socket connection) }
  | processed {w gid socket connection : Nat} (hcall : s.call (.worker w) = none)
    (hrun : s.run w = .process gid socket connection) :
    Step s { s with run := Function.update s.run w (.sending gid socket connection .tag1) }
  | send {w gid socket connection : Nat} {out : Staging.Outside} {pc pc' : Staging.Buf2sockPc}
    {staging : Staging} {taken : Bytes} (hcall : s.call (.worker w) = none)
    (hrun : s.run w = .sending gid socket connection pc)
    (hstep : (s.staging connection).buf2sockStep out pc = (staging, pc', taken))
    (hpc : ∀ ret closed, pc' ≠ .done ret closed) :
    Step s { s with
      staging := Function.update s.staging connection staging
      run := Function.update s.run w (.sending gid socket connection pc') }
  | sent {w gid socket connection : Nat} {out : Staging.Outside} {pc : Staging.Buf2sockPc}
    {staging : Staging} {taken : Bytes} {ret : Bool} (hcall : s.call (.worker w) = none)
    (hrun : s.run w = .sending gid socket connection pc)
    (hstep : (s.staging connection).buf2sockStep out pc = (staging, .done ret false, taken)) :
    Step s { s with
      staging := Function.update s.staging connection staging
      run := Function.update s.run w (.attaching gid socket connection ret) }
  | sendFailed {w gid socket connection : Nat} {out : Staging.Outside} {pc : Staging.Buf2sockPc}
    {staging : Staging} {taken : Bytes} {ret : Bool} (hcall : s.call (.worker w) = none)
    (hrun : s.run w = .sending gid socket connection pc)
    (hstep : (s.staging connection).buf2sockStep out pc = (staging, .done ret true, taken)) :
    Step s ({ s with
      staging := Function.update s.staging connection staging
      run := Function.update s.run w
        (.attaching gid socket connection ret) }.markClose w gid connection)
  | attach {w gid socket connection : Nat} {listenSend : Bool}
    (hcall : s.call (.worker w) = none)
    (hrun : s.run w = .attaching gid socket connection listenSend) :
    Step s { s with
      poller := s.poller.attach (s.own.fd socket) socket listenSend
      run := Function.update s.run w .idle }
  | start {t : Thread} {gid socket connection : Nat} {request : CallRequest}
    (hcall : s.call t = none) (hlock : s.lock (gid % n) = none)
    (hentry : s.own.entry gid = some (socket, connection)) :
    Step s { s with
      lock := Function.update s.lock (gid % n) (some (.call t))
      call := Function.update s.call t (some ⟨gid, connection, true, request.stage⟩) }
  | startOwn {w gid connection : Nat} {request : CallRequest} (hcall : s.call (.worker w) = none)
    (hhook : s.inHook w = some (gid, connection)) :
    Step s { s with
      call := Function.update s.call (.worker w)
        (some ⟨gid, connection, false, request.stage⟩) }
  | call {t : Thread} {k : Call} (hcall : s.call t = some k) : Step s (s.callNext n t k)

variable {n sockets} {s s' : Server}

theorem ownStep_eq_some {a : Ownership.Action} {f : Ownership → Server}
    (h : s.ownStep a f = some s') : ∃ own, s.own.Step .streamTask a own ∧ s' = f own := by
  obtain ⟨own, hown, rfl⟩ := Option.map_eq_some_iff.mp h
  exact ⟨own, Ownership.step_of_next hown, rfl⟩

theorem sock2bufLoop_sameSend (st : Staging) (used : List SockRecv) (answers : List SockRecv) :
    st.SameSend (st.sock2bufLoop used answers).staging := by
  induction answers generalizing st used with
  | nil => exact ⟨rfl, rfl, rfl, rfl, rfl⟩
  | cons answer answers ih =>
    cases answer with
    | eof => exact ⟨rfl, rfl, rfl, rfl, rfl⟩
    | failed errno =>
      cases errno with
      | eintr =>
        obtain ⟨h₁, h₂, h₃, h₄, h₅⟩ := ih { st with sock2bufDataLen := -1 } _
        exact ⟨h₁, h₂, h₃, h₄, h₅⟩
      | _ => exact ⟨rfl, rfl, rfl, rfl, rfl⟩
    | block data =>
      simp only [Staging.sock2bufLoop]
      split
      · exact ⟨rfl, rfl, rfl, rfl, rfl⟩
      · obtain ⟨h₁, h₂, h₃, h₄, h₅⟩ := ih _ _
        exact ⟨h₁, h₂, h₃, h₄, h₅⟩

theorem sock2buf_sameSend (st : Staging) (answers : List SockRecv) :
    st.SameSend (st.sock2buf answers).staging := by
  unfold Staging.sock2buf
  split
  · split
    · exact ⟨rfl, rfl, rfl, rfl, rfl⟩
    · obtain ⟨h₁, h₂, h₃, h₄, h₅⟩ := sock2bufLoop_sameSend _ _ answers
      exact ⟨h₁, h₂, h₃, h₄, h₅⟩
  · exact sock2bufLoop_sameSend st [] answers

theorem step_of_mainNext {a : MainAction} (hcall : s.call .main = none)
    (h : s.mainNext n sockets a = some s') : Step n sockets s s' := by
  cases a with
  | wait reports =>
    simp only [mainNext] at h
    split at h
    · split at h
      · cases h
        exact .wait (by assumption) (by assumption)
      · cases h
    · cases h
  | updateWaitRemove =>
    simp only [mainNext] at h
    split at h
    · obtain ⟨own, hown, rfl⟩ := ownStep_eq_some h
      exact .updateWaitRemove (by assumption) hown
    · cases h
  | take =>
    simp only [mainNext] at h
    split at h
    · split at h
      · obtain ⟨own, hown, rfl⟩ := ownStep_eq_some h
        exact .take (by assumption) (by assumption) hown
      · cases h
    · cases h
  | close =>
    simp only [mainNext] at h
    split at h
    · obtain ⟨own, hown, rfl⟩ := ownStep_eq_some h
      exact .close (by assumption) hown
    · cases h
  | releaseSocket =>
    obtain ⟨own, hown, rfl⟩ := ownStep_eq_some h
    exact .moving .releaseSocket hown
  | clear =>
    obtain ⟨own, hown, rfl⟩ := ownStep_eq_some h
    exact .clear hown
  | accept socket fd gid =>
    simp only [mainNext] at h
    split at h
    · rename_i hguard
      obtain ⟨own, hown, rfl⟩ := ownStep_eq_some h
      exact .accept hguard.1 hguard.2.2.1 hguard.2.2.2.1 hguard.2.2.2.2 hown
    · cases h
  | noConnection =>
    obtain ⟨own, hown, rfl⟩ := ownStep_eq_some h
    exact .moving .noConnection hown
  | create connection =>
    obtain ⟨own, hown, rfl⟩ := ownStep_eq_some h
    exact .create hown
  | insert =>
    simp only [mainNext] at h
    split at h
    · split at h
      · obtain ⟨own, hown, rfl⟩ := ownStep_eq_some h
        exact .insert (by assumption) hown
      · cases h
    · cases h
  | releaseUnwanted =>
    obtain ⟨own, hown, rfl⟩ := ownStep_eq_some h
    exact .moving .releaseUnwanted hown
  | pushRefused =>
    obtain ⟨own, hown, rfl⟩ := ownStep_eq_some h
    exact .moving .pushRefused hown
  | acceptDone =>
    simp only [mainNext] at h
    split at h
    · split at h
      · cases h
        exact .acceptDone (by assumption)
      · cases h
    · cases h
  | skip =>
    simp only [mainNext] at h
    split at h
    · split at h
      · rename_i hguard
        cases h
        exact .skip (by assumption) hguard.2.2
      · cases h
    · cases h
  | handle =>
    simp only [mainNext] at h
    split at h
    · split at h
      · rename_i hguard
        cases h
        exact .handle hguard.1 hguard.2.1 (by assumption) hguard.2.2
      · cases h
    · cases h
  | doTask =>
    simp only [mainNext] at h
    split at h
    · cases h
      exact .doTask (.inl (by assumption))
    · cases h
      exact .doTask (.inr (by assumption))
    · cases h
  | lookup =>
    simp only [mainNext] at h
    split at h
    · split at h
      · split at h
        · cases h
          exact .lookup (by assumption) hcall (by assumption) (by assumption)
        · cases h
          exact .lookupFailed (by assumption) (by assumption)
      · cases h
    · cases h
  | endBatch =>
    simp only [mainNext] at h
    split at h
    · rename_i hguard
      cases h
      exact .endBatch hguard.1 hguard.2.1 hguard.2.2
    · cases h

theorem step_of_workerNext {w : Nat} {a : WorkerAction} (hcall : s.call (.worker w) = none)
    (h : s.workerNext n w a = some s') : Step n sockets s s' := by
  cases a with
  | pop =>
    simp only [workerNext] at h
    split at h
    · rename_i hidle
      cases hq : (s.queue w).task with
      | nil => simp [TaskQueue.pop, hq] at h
      | cons front rest =>
        cases front with
        | none => simp [TaskQueue.pop, hq] at h
        | some gid =>
          simp only [TaskQueue.pop, hq] at h
          cases h
          exact .pop hidle hq
    · cases h
  | find =>
    simp only [workerNext] at h
    split at h
    · split at h
      · cases h
        exact .findFailed (by assumption) (.inl (by assumption))
      · split at h
        · split at h
          · cases h
            exact .find (by assumption) (by assumption)
          · cases h
            exact .findFailed (by assumption) (.inr (by assumption))
        · cases h
    · cases h
  | check =>
    simp only [workerNext] at h
    split at h
    · split at h
      · obtain ⟨own, hown, rfl⟩ := ownStep_eq_some h
        exact .checkClosed (by assumption) hown
      · rename_i hclosed
        cases h
        exact .checkOpen (by assumption) (by simpa using hclosed)
    · cases h
  | erase =>
    simp only [workerNext] at h
    split at h
    · rename_i gid hrun
      split at h
      · obtain ⟨own, hown, rfl⟩ := ownStep_eq_some h
        by_cases hentry : s.own.entry gid = none
        · rw [if_pos hentry]
          exact .eraseFailed hrun hentry hown
        · rw [if_neg hentry]
          exact .erase hcall hrun (by assumption) hentry hown
      · cases h
    · cases h
  | hook =>
    obtain ⟨own, hown, rfl⟩ := ownStep_eq_some h
    exact .hook hcall hown
  | release =>
    obtain ⟨own, hown, rfl⟩ := ownStep_eq_some h
    exact .moving (.release w) hown
  | pushWaitRemove =>
    simp only [workerNext] at h
    split at h
    · obtain ⟨own, hown, rfl⟩ := ownStep_eq_some h
      exact .pushWaitRemove hcall (by assumption) hown
    · cases h
  | recv answers =>
    simp only [workerNext] at h
    split at h
    · rename_i gid socket connection hrun
      have hsame := sock2buf_sameSend (s.staging connection) answers
      split at h
      · cases h
        exact .receive hcall (.inl hrun) hsame (.inl rfl)
      · split at h
        · cases h
          exact .receive hcall (.inl hrun) hsame (.inr rfl)
        · cases h
          exact .fail hcall (.inl hrun) hsame
    · cases h
  | again =>
    simp only [workerNext] at h
    split at h
    · cases h
      exact .again (by assumption)
    · cases h
  | consume len =>
    simp only [workerNext] at h
    split at h
    · rename_i gid socket connection hrun
      cases h
      have hsame : (s.staging connection).SameSend { s.staging connection with
          recvBuffer := ((s.staging connection).recvBuffer.readPtrMoveN len).2 } :=
        ⟨rfl, rfl, rfl, rfl, rfl⟩
      have hstep : Step n sockets s _ := .receive hcall (.inr hrun) hsame (.inl rfl)
      rwa [← hrun, Function.update_eq_self] at hstep
    · cases h
  | setWriteEndCallback callback =>
    simp only [workerNext] at h
    split at h
    · rename_i gid socket connection hrun
      cases h
      have hsame : (s.staging connection).SameSend { s.staging connection with
          writeEndCallback := callback } := ⟨rfl, rfl, rfl, rfl, rfl⟩
      have hstep : Step n sockets s _ := .receive hcall (.inr hrun) hsame (.inl rfl)
      rwa [← hrun, Function.update_eq_self] at hstep
    · cases h
  | processed =>
    simp only [workerNext] at h
    split at h
    · cases h
      exact .processed hcall (by assumption)
    · cases h
  | throws =>
    simp only [workerNext] at h
    split at h
    · rename_i gid socket connection hrun
      cases h
      have hsame : (s.staging connection).SameSend (s.staging connection) :=
        ⟨rfl, rfl, rfl, rfl, rfl⟩
      have hstep : Step n sockets s _ := .fail hcall (.inr hrun) hsame
      rwa [Function.update_eq_self] at hstep
    · cases h
  | send out =>
    simp only [workerNext] at h
    split at h
    · rename_i gid socket connection pc hrun
      rcases hstep : (s.staging connection).buf2sockStep out pc with ⟨staging, pc', taken⟩
      simp only [hstep] at h
      split at h
      · rename_i ret closed
        cases closed with
        | false =>
          cases h
          exact .sent hcall hrun hstep
        | true =>
          cases h
          exact .sendFailed hcall hrun hstep
      · rename_i hnot
        cases h
        exact .send hcall hrun hstep fun ret closed heq => hnot ret closed heq
    · cases h
  | attach =>
    simp only [workerNext] at h
    split at h
    · cases h
      exact .attach hcall (by assumption)
    · cases h

theorem step_of_next {a : Action} (h : s.next n sockets a = some s') : Step n sockets s s' := by
  cases a with
  | main a =>
    simp only [next] at h
    split at h
    · rename_i hcall
      exact step_of_mainNext (Option.isNone_iff_eq_none.mp hcall) h
    · cases h
  | worker w a =>
    simp only [next] at h
    split at h
    · rename_i hcall
      exact step_of_workerNext (Option.isNone_iff_eq_none.mp hcall) h
    · cases h
  | start t gid request =>
    simp only [next] at h
    split at h
    · rename_i hguard
      split at h
      · cases h
        exact .start (Option.isNone_iff_eq_none.mp hguard.1) hguard.2 (by assumption)
      · cases h
    · cases h
  | startOwn w request =>
    simp only [next] at h
    split at h
    · rename_i hcall
      split at h
      · cases h
        exact .startOwn (Option.isNone_iff_eq_none.mp hcall) (by assumption)
      · cases h
    · cases h
  | call t =>
    obtain ⟨k, hk, rfl⟩ := Option.map_eq_some_iff.mp h
    exact .call hk

end Server

end Tubekit
