import Mathlib.Data.Finset.Basic
import Mathlib.Logic.Function.Basic
import Tubekit.Lib.Transition

/-!
# Who owns sockets and connections

Socket and connection objects come from two pools. The accept loop of `socket_handler::handle`
takes one of each and puts them into `connection_mgr` under a gid; a worker whose task finds the
connection closed takes the entry out, runs the close hook, returns the connection and queues
the socket (`push_wait_remove`); and the main thread empties that queue (`update_wait_remove`).
The queue is a pair of lists: one is written to while the main thread walks through the other.

The steps are those that take a lock or hand an object on. Which tasks run and when is left
open, so this covers the three kinds of tasks; `connection_mgr` is one map, since its shards
only spread the locks.
-/

namespace Tubekit

open Lib.Transition

/-- `task_type`. -/
inductive TaskType where
  | streamTask
  | httpTask
  | websocketTask
  deriving DecidableEq

/-- `m_remove_list1` and `m_remove_list2`. -/
inductive RemoveList where
  | one
  | two
  deriving DecidableEq

/-- The list that `update_wait_remove` switches to. -/
def RemoveList.other : RemoveList → RemoveList
  | .one => .two
  | .two => .one

/-- What the main thread holds. -/
inductive MainHand where
  | free
  /-- A socket for a connection that was accepted. -/
  | accepted (socket gid : Nat)
  /-- A socket that is to be queued for removal. -/
  | refused (socket : Nat)
  /-- The connection layer has been created. -/
  | holding (socket connection gid : Nat)
  /-- The map has not taken the pair. -/
  | unwanted (socket connection : Nat)
  /-- `update_wait_remove` is before this position of the list it reads. -/
  | updating (pos : Nat)
  /-- `remove` of the socket at this position. -/
  | removing (pos socket : Nat)
  /-- The socket is closed and not yet returned. -/
  | closed (pos socket : Nat)
  deriving DecidableEq

/-- What a worker holds while it removes a closed connection. -/
inductive WorkerHand where
  | free
  /-- `is_close` was true, `connection_mgr::remove` is called next. -/
  | checked (gid : Nat)
  | erased (gid socket connection : Nat)
  | hooked (gid socket connection : Nat)
  | released (gid socket : Nat)
  deriving DecidableEq

structure Ownership where
  socketPool : Finset Nat
  connectionPool : Finset Nat
  /-- `m_sockfd` and `m_gid` of the socket objects. -/
  fd : Nat → Int
  socketGid : Nat → Nat
  /-- `close_flag` of the connection objects. -/
  closeFlag : Nat → Bool
  /-- The entries of `connection_mgr`. -/
  entry : Nat → Option (Nat × Nat)
  list : RemoveList → List Nat
  readList : RemoveList
  writeList : RemoveList
  main : MainHand
  worker : Nat → WorkerHand
  /-- The gids given to accepted sockets and those inserted, in order. -/
  accepted : List Nat
  inserted : List Nat
  /-- The gids for which `on_close_connection` was called, the connection was released and the
  socket was queued, in order. -/
  hooked : List Nat
  released : List Nat
  queued : List Nat

namespace Ownership

inductive Action where
  | accept (socket : Nat) (fd : Int) (gid : Nat)
  | sslError
  | noConnection
  | create (connection : Nat)
  | insert
  | releaseUnwanted
  | pushRefused
  | updateWaitRemove
  | take
  | close
  | releaseSocket
  | clear
  | markClose (gid : Nat)
  | check (worker gid : Nat)
  | erase (worker : Nat)
  | hook (worker : Nat)
  | release (worker : Nat)
  | pushWaitRemove (worker : Nat)

/-- `push_wait_remove`. -/
def push (s : Ownership) (socket : Nat) : RemoveList → List Nat :=
  Function.update s.list s.writeList (s.list s.writeList ++ [socket])

/-- One step of a server for tasks of type `type`. -/
def next (type : TaskType) (s : Ownership) : Action → Option Ownership
  | .accept socket fd gid =>
    if s.main = .free ∧ socket ∈ s.socketPool ∧ 0 < fd then
      some { s with
        socketPool := s.socketPool.erase socket
        fd := Function.update s.fd socket fd
        socketGid := Function.update s.socketGid socket gid
        main := .accepted socket gid
        accepted := s.accepted ++ [gid] }
    else none
  | .sslError =>
    match s.main with
    | .accepted socket _ => some { s with main := .refused socket }
    | _ => none
  | .noConnection =>
    match s.main with
    | .accepted socket _ =>
      if s.connectionPool = ∅ then some { s with main := .refused socket } else none
    | _ => none
  | .create connection =>
    match s.main with
    | .accepted socket gid =>
      if connection ∈ s.connectionPool then
        some { s with
          connectionPool := s.connectionPool.erase connection
          closeFlag := Function.update s.closeFlag connection false
          main := .holding socket connection gid }
      else none
    | _ => none
  | .insert =>
    match s.main with
    | .holding socket connection gid =>
      if s.entry gid = none then
        some { s with
          entry := Function.update s.entry gid (some (socket, connection))
          main := .free
          inserted := s.inserted ++ [gid] }
      else some { s with main := .unwanted socket connection }
    | _ => none
  | .releaseUnwanted =>
    match s.main with
    | .unwanted socket connection =>
      some { s with
        connectionPool := insert connection s.connectionPool
        main := .refused socket }
    | _ => none
  | .pushRefused =>
    match s.main with
    | .refused socket => some { s with list := s.push socket, main := .free }
    | _ => none
  | .updateWaitRemove =>
    if s.main = .free then
      some { s with
        writeList := s.writeList.other
        readList := s.readList.other
        main := .updating 0 }
    else none
  | .take =>
    match s.main with
    | .updating pos =>
      match (s.list s.readList)[pos]? with
      | some socket => some { s with main := .removing pos socket }
      | none => none
    | _ => none
  | .close =>
    match s.main with
    | .removing pos socket =>
      if s.fd socket ≤ 0 then some { s with main := .updating (pos + 1) }
      else
        some { s with
          fd := Function.update s.fd socket 0
          main := .closed pos socket }
    | _ => none
  | .releaseSocket =>
    match s.main with
    | .closed pos socket =>
      some { s with
        socketPool := insert socket s.socketPool
        main := .updating (pos + 1) }
    | _ => none
  | .clear =>
    match s.main with
    | .updating pos =>
      if (s.list s.readList).length ≤ pos then
        some { s with
          list := Function.update s.list s.readList []
          main := .free }
      else none
    | _ => none
  | .markClose gid =>
    match s.entry gid with
    | some (_, connection) =>
      some { s with closeFlag := Function.update s.closeFlag connection true }
    | none => none
  | .check worker gid =>
    match s.worker worker, s.entry gid with
    | .free, some (_, connection) =>
      if s.closeFlag connection then
        some { s with worker := Function.update s.worker worker (.checked gid) }
      else none
    | _, _ => none
  | .erase worker =>
    match s.worker worker with
    | .checked gid =>
      match s.entry gid with
      | some (socket, connection) =>
        some { s with
          entry := Function.update s.entry gid none
          worker := Function.update s.worker worker (.erased gid socket connection) }
      | none => some { s with worker := Function.update s.worker worker .free }
    | _ => none
  | .hook worker =>
    match s.worker worker with
    | .erased gid socket connection =>
      some { s with
        worker := Function.update s.worker worker (.hooked gid socket connection)
        hooked := if type = .httpTask then s.hooked else s.hooked ++ [gid] }
    | _ => none
  | .release worker =>
    match s.worker worker with
    | .hooked gid socket connection =>
      some { s with
        connectionPool := insert connection s.connectionPool
        worker := Function.update s.worker worker (.released gid socket)
        released := s.released ++ [gid] }
    | _ => none
  | .pushWaitRemove worker =>
    match s.worker worker with
    | .released gid socket =>
      some { s with
        list := s.push socket
        worker := Function.update s.worker worker .free
        queued := s.queued ++ [gid] }
    | _ => none

/-- All objects are in their pools and nothing has happened. -/
def start (sockets connections : Finset Nat) (fd : Nat → Int) (socketGid : Nat → Nat)
    (closeFlag : Nat → Bool) : Ownership :=
  { socketPool := sockets
    connectionPool := connections
    fd
    socketGid
    closeFlag
    entry := fun _ => none
    list := fun _ => []
    readList := .one
    writeList := .two
    main := .free
    worker := fun _ => .free
    accepted := []
    inserted := []
    hooked := []
    released := []
    queued := [] }

def system (type : TaskType) (sockets connections : Finset Nat) : System Ownership Action where
  init s := ∃ fd socketGid closeFlag, s = start sockets connections fd socketGid closeFlag
  next := next type

/-! ## What a step does -/

/-- The steps of `next`, one for each outcome. -/
inductive Step (type : TaskType) (s : Ownership) : Action → Ownership → Prop
  | accept {socket gid : Nat} {fd : Int} (hmain : s.main = .free) (hpool : socket ∈ s.socketPool)
    (hfd : 0 < fd) :
    Step type s (.accept socket fd gid) { s with
      socketPool := s.socketPool.erase socket
      fd := Function.update s.fd socket fd
      socketGid := Function.update s.socketGid socket gid
      main := .accepted socket gid
      accepted := s.accepted ++ [gid] }
  | sslError {socket gid : Nat} (hmain : s.main = .accepted socket gid) :
    Step type s .sslError { s with main := .refused socket }
  | noConnection {socket gid : Nat} (hmain : s.main = .accepted socket gid) :
    Step type s .noConnection { s with main := .refused socket }
  | create {socket connection gid : Nat} (hmain : s.main = .accepted socket gid)
    (hpool : connection ∈ s.connectionPool) :
    Step type s (.create connection) { s with
      connectionPool := s.connectionPool.erase connection
      closeFlag := Function.update s.closeFlag connection false
      main := .holding socket connection gid }
  | insert {socket connection gid : Nat} (hmain : s.main = .holding socket connection gid)
    (hnew : s.entry gid = none) :
    Step type s .insert { s with
      entry := Function.update s.entry gid (some (socket, connection))
      main := .free
      inserted := s.inserted ++ [gid] }
  | insertFailed {socket connection gid : Nat} (hmain : s.main = .holding socket connection gid)
    (hold : s.entry gid ≠ none) :
    Step type s .insert { s with main := .unwanted socket connection }
  | releaseUnwanted {socket connection : Nat} (hmain : s.main = .unwanted socket connection) :
    Step type s .releaseUnwanted { s with
      connectionPool := Insert.insert connection s.connectionPool
      main := .refused socket }
  | pushRefused {socket : Nat} (hmain : s.main = .refused socket) :
    Step type s .pushRefused { s with list := s.push socket, main := .free }
  | updateWaitRemove (hmain : s.main = .free) :
    Step type s .updateWaitRemove { s with
      writeList := s.writeList.other
      readList := s.readList.other
      main := .updating 0 }
  | take {pos socket : Nat} (hmain : s.main = .updating pos)
    (hget : (s.list s.readList)[pos]? = some socket) :
    Step type s .take { s with main := .removing pos socket }
  | skip {pos socket : Nat} (hmain : s.main = .removing pos socket) (hfd : s.fd socket ≤ 0) :
    Step type s .close { s with main := .updating (pos + 1) }
  | close {pos socket : Nat} (hmain : s.main = .removing pos socket) (hfd : ¬s.fd socket ≤ 0) :
    Step type s .close { s with
      fd := Function.update s.fd socket 0
      main := .closed pos socket }
  | releaseSocket {pos socket : Nat} (hmain : s.main = .closed pos socket) :
    Step type s .releaseSocket { s with
      socketPool := Insert.insert socket s.socketPool
      main := .updating (pos + 1) }
  | clear {pos : Nat} (hmain : s.main = .updating pos)
    (hend : (s.list s.readList).length ≤ pos) :
    Step type s .clear { s with
      list := Function.update s.list s.readList []
      main := .free }
  | markClose {gid socket connection : Nat} (hentry : s.entry gid = some (socket, connection)) :
    Step type s (.markClose gid) { s with
      closeFlag := Function.update s.closeFlag connection true }
  | check {worker gid socket connection : Nat} (hworker : s.worker worker = .free)
    (hentry : s.entry gid = some (socket, connection)) (hclosed : s.closeFlag connection = true) :
    Step type s (.check worker gid) { s with
      worker := Function.update s.worker worker (.checked gid) }
  | erase {worker gid socket connection : Nat} (hworker : s.worker worker = .checked gid)
    (hentry : s.entry gid = some (socket, connection)) :
    Step type s (.erase worker) { s with
      entry := Function.update s.entry gid none
      worker := Function.update s.worker worker (.erased gid socket connection) }
  | eraseFailed {worker gid : Nat} (hworker : s.worker worker = .checked gid)
    (hentry : s.entry gid = none) :
    Step type s (.erase worker) { s with worker := Function.update s.worker worker .free }
  | hook {worker gid socket connection : Nat}
    (hworker : s.worker worker = .erased gid socket connection) :
    Step type s (.hook worker) { s with
      worker := Function.update s.worker worker (.hooked gid socket connection)
      hooked := if type = .httpTask then s.hooked else s.hooked ++ [gid] }
  | release {worker gid socket connection : Nat}
    (hworker : s.worker worker = .hooked gid socket connection) :
    Step type s (.release worker) { s with
      connectionPool := Insert.insert connection s.connectionPool
      worker := Function.update s.worker worker (.released gid socket)
      released := s.released ++ [gid] }
  | pushWaitRemove {worker gid socket : Nat} (hworker : s.worker worker = .released gid socket) :
    Step type s (.pushWaitRemove worker) { s with
      list := s.push socket
      worker := Function.update s.worker worker .free
      queued := s.queued ++ [gid] }

theorem step_of_next {type : TaskType} {s s' : Ownership} {a : Action}
    (h : next type s a = some s') : Step type s a s' := by
  cases a with
  | accept socket fd gid =>
    simp only [next] at h
    split at h
    · rename_i hguard
      cases h
      exact .accept hguard.1 hguard.2.1 hguard.2.2
    · cases h
  | sslError =>
    simp only [next] at h
    split at h
    · cases h
      exact .sslError (by assumption)
    · cases h
  | noConnection =>
    simp only [next] at h
    split at h
    · split at h
      · cases h
        exact .noConnection (by assumption)
      · cases h
    · cases h
  | create connection =>
    simp only [next] at h
    split at h
    · split at h
      · rename_i hpool
        cases h
        exact .create (by assumption) hpool
      · cases h
    · cases h
  | insert =>
    simp only [next] at h
    split at h
    · split at h
      · rename_i hnew
        cases h
        exact .insert (by assumption) hnew
      · rename_i hold
        cases h
        exact .insertFailed (by assumption) hold
    · cases h
  | releaseUnwanted =>
    simp only [next] at h
    split at h
    · cases h
      exact .releaseUnwanted (by assumption)
    · cases h
  | pushRefused =>
    simp only [next] at h
    split at h
    · cases h
      exact .pushRefused (by assumption)
    · cases h
  | updateWaitRemove =>
    simp only [next] at h
    split at h
    · cases h
      exact .updateWaitRemove (by assumption)
    · cases h
  | take =>
    simp only [next] at h
    split at h
    · split at h
      · rename_i hget
        cases h
        exact .take (by assumption) hget
      · cases h
    · cases h
  | close =>
    simp only [next] at h
    split at h
    · split at h
      · rename_i hfd
        cases h
        exact .skip (by assumption) hfd
      · rename_i hfd
        cases h
        exact .close (by assumption) hfd
    · cases h
  | releaseSocket =>
    simp only [next] at h
    split at h
    · cases h
      exact .releaseSocket (by assumption)
    · cases h
  | clear =>
    simp only [next] at h
    split at h
    · split at h
      · rename_i hend
        cases h
        exact .clear (by assumption) hend
      · cases h
    · cases h
  | markClose gid =>
    simp only [next] at h
    split at h
    · cases h
      exact .markClose (by assumption)
    · cases h
  | check worker gid =>
    simp only [next] at h
    split at h
    · split at h
      · rename_i hclosed
        cases h
        exact .check (by assumption) (by assumption) hclosed
      · cases h
    · cases h
  | erase worker =>
    simp only [next] at h
    split at h
    · split at h
      · cases h
        exact .erase (by assumption) (by assumption)
      · cases h
        exact .eraseFailed (by assumption) (by assumption)
    · cases h
  | hook worker =>
    simp only [next] at h
    split at h
    · cases h
      exact .hook (by assumption)
    · cases h
  | release worker =>
    simp only [next] at h
    split at h
    · cases h
      exact .release (by assumption)
    · cases h
  | pushWaitRemove worker =>
    simp only [next] at h
    split at h
    · cases h
      exact .pushWaitRemove (by assumption)
    · cases h

end Ownership

end Tubekit
