import Tubekit.Socket.Conservation

/-!
# `connection_mgr::remove` and the close hook

A worker that finds a connection closed calls `connection_mgr::remove`, which takes the entry out,
calls `on_close_connection` of the application and then the callback of the task. The steps of
`Ownership` are this call where the hook returns (`remove_steps`). The hook may also throw: the
exception is caught, and the callback behind it is not called any more (`remove_closes_iff`).

Every connection is of the kind that `create` makes for the task type of the server.
-/

namespace Tubekit.Ownership

open Lib.Transition

/-- How `on_close_connection` of the application ends. -/
inductive HookOutcome where
  | returned
  | threw
  deriving DecidableEq

/-- `safe_mapping::remove`, without a callback for a gid that is not there. -/
def safeMappingRemove (s : Ownership) (gid : Nat)
    (succCallback : Nat → Nat × Nat → Ownership → Ownership) : Ownership :=
  match s.entry gid with
  | some value => succCallback gid value { s with entry := Function.update s.entry gid none }
  | none => s

/-- `on_close_connection` of the application for this kind of connection, and whether it throws.
There is none for http connections. -/
def onCloseConnection (type : TaskType) (hook : HookOutcome) (gid : Nat) (s : Ownership) :
    Bool × Ownership :=
  match type with
  | .httpTask => (false, s)
  | _ => (decide (hook = .threw), { s with hooked := s.hooked ++ [gid] })

/-- `connection_mgr::remove`: what is thrown is caught and logged. -/
def remove (type : TaskType) (hook : HookOutcome) (s : Ownership) (gid : Nat)
    (succCallback : Nat → Nat × Nat → Ownership → Ownership) : Ownership :=
  s.safeMappingRemove gid fun key value s =>
    match s.onCloseConnection type hook key with
    | (true, s) => s
    | (false, s) => succCallback key value s

/-- The callback of the three tasks: `release` of the connection and `push_wait_remove` of the
socket. -/
def giveBack (key : Nat) (value : Nat × Nat) (s : Ownership) : Ownership :=
  { s with
    connectionPool := insert value.2 s.connectionPool
    released := s.released ++ [key]
    list := s.push value.1
    queued := s.queued ++ [key] }

variable {type : TaskType} {hook : HookOutcome} {s : Ownership} {gid socket connection : Nat}

/-- Where the hook returns, the steps of a worker are the call. -/
theorem remove_steps (sockets connections : Finset Nat) {worker : Nat}
    (hworker : s.worker worker = .checked gid) (hentry : s.entry gid = some (socket, connection)) :
    (system type sockets connections).exec s
        [.erase worker, .hook worker, .release worker, .pushWaitRemove worker] =
      some { remove type .returned s gid giveBack with
        worker := Function.update s.worker worker .free } := by
  cases type <;>
    simp [System.exec, system, next, hworker, hentry, remove, safeMappingRemove, onCloseConnection,
      giveBack, push]

/-- What the call does to an entry: the pair is given back, or dropped. -/
theorem remove_cases (hentry : s.entry gid = some (socket, connection)) :
    (hook = .returned ∨ type = .httpTask) ∧
        remove type hook s gid giveBack = giveBack gid (socket, connection)
          { s with
            entry := Function.update s.entry gid none
            hooked := if type = .httpTask then s.hooked else s.hooked ++ [gid] } ∨
      ¬(hook = .returned ∨ type = .httpTask) ∧
        remove type hook s gid giveBack =
          { s with
            entry := Function.update s.entry gid none
            hooked := s.hooked ++ [gid] } := by
  cases type <;> cases hook <;>
    simp [remove, safeMappingRemove, onCloseConnection, hentry]

/-- What is asked of a call for the entry with this pair: the entry is gone, the connection is back
in its pool, and the socket is queued, each once. -/
structure Closes (s s' : Ownership) (gid socket connection : Nat) : Prop where
  entry : s'.entry = Function.update s.entry gid none
  pool : s'.connectionPool = insert connection s.connectionPool
  released : s'.released = s.released ++ [gid]
  list : s'.list = s.push socket
  queued : s'.queued = s.queued ++ [gid]

/-- **The close hook.** For every entry and every kind of connection, a call of `remove` closes the
connection exactly when the hook returns or there is none. Otherwise the entry is gone as well, and
neither the connection nor the socket is given back. -/
theorem remove_closes_iff (hentry : s.entry gid = some (socket, connection)) :
    (Closes s (remove type hook s gid giveBack) gid socket connection ↔
      hook = .returned ∨ type = .httpTask) ∧
    (¬(hook = .returned ∨ type = .httpTask) →
      let s' := remove type hook s gid giveBack
      s'.entry gid = none ∧ s'.connectionPool = s.connectionPool ∧ s'.list = s.list) := by
  rcases @remove_cases type hook s gid socket connection hentry with ⟨hgood, hremove⟩ |
    ⟨hbad, hremove⟩
  · rw [hremove]
    refine ⟨⟨fun _ => hgood, fun _ => ⟨rfl, rfl, rfl, rfl, rfl⟩⟩, fun hbad => absurd hgood hbad⟩
  · rw [hremove]
    refine ⟨⟨?_, fun hgood => absurd hgood hbad⟩, fun _ => ⟨by simp, rfl, rfl⟩⟩
    intro hcloses
    have hreleased : s.released = s.released ++ [gid] := hcloses.released
    rw [List.self_eq_append_right] at hreleased
    cases hreleased

/-- What is lost in this way is held by nobody: the socket and the connection are at no place. -/
theorem remove_loses {sockets connections : Finset Nat}
    (hreach : (system type sockets connections).Reachable s)
    (hentry : s.entry gid = some (socket, connection))
    (hbad : ¬(hook = .returned ∨ type = .httpTask)) :
    (∀ p, ¬(remove type hook s gid giveBack).SocketAt socket p) ∧
      ∀ p, ¬(remove type hook s gid giveBack).ConnectionAt connection p := by
  have hinv := inv_reachable hreach
  have hremove : remove type hook s gid giveBack =
      { s with entry := Function.update s.entry gid none, hooked := s.hooked ++ [gid] } := by
    rcases @remove_cases type hook s gid socket connection hentry with ⟨hgood, -⟩ | ⟨-, hremove⟩
    · exact absurd hgood hbad
    · exact hremove
  have hnone : (remove type hook s gid giveBack).entry gid = none := by
    rw [hremove]
    exact Function.update_self _ _ _
  have hkept : ∀ g value, (remove type hook s gid giveBack).entry g = some value →
      s.entry g = some value := by
    intro g value hg
    by_cases heq : g = gid
    · rw [heq, hnone] at hg
      cases hg
    · rw [hremove] at hg
      simpa only [Function.update_of_ne heq] using hg
  constructor
  · intro p hp
    have hbefore : s.SocketAt socket p := by
      cases p with
      | entry g =>
        obtain ⟨c, hc⟩ := hp
        exact ⟨c, hkept g _ hc⟩
      | _ =>
        rw [hremove] at hp
        exact hp
    -- before the call the socket is in the entry and nowhere else
    have hplace : p = .entry gid := hinv.socketCustody.unique hbefore ⟨connection, hentry⟩
    rw [hplace] at hp
    obtain ⟨c, hc⟩ := hp
    rw [hnone] at hc
    cases hc
  · intro p hp
    have hbefore : s.ConnectionAt connection p := by
      cases p with
      | entry g =>
        obtain ⟨x, hx⟩ := hp
        exact ⟨x, hkept g _ hx⟩
      | _ =>
        rw [hremove] at hp
        exact hp
    have hplace : p = .entry gid := hinv.connectionCustody.unique hbefore ⟨socket, hentry⟩
    rw [hplace] at hp
    obtain ⟨x, hx⟩ := hp
    rw [hnone] at hx
    cases hx

/-- Worker 0 has found the connection of its client closed. -/
def closedClient : List Action := [.accept 1 9 7, .create 4, .insert, .markClose 7, .check 0 7]

def freshServer : Ownership := start {1, 2} {4} (fun _ => 0) (fun _ => 0) fun _ => false

theorem closedClient_reached : ∃ s, (system .streamTask {1, 2} {4}).Reachable s ∧
    s.worker 0 = .checked 7 ∧ s.entry 7 = some (1, 4) := by
  obtain ⟨s, hexec, hs⟩ : ∃ s,
      (system .streamTask {1, 2} {4}).exec freshServer closedClient = some s ∧
        s.worker 0 = .checked 7 ∧ s.entry 7 = some (1, 4) := ⟨_, rfl, rfl, rfl⟩
  have hstart : (system .streamTask {1, 2} {4}).Reachable freshServer := .start ⟨_, _, _, rfl⟩
  exact ⟨s, hstart.run (.of_exec hexec), hs⟩

theorem remove_closes_returned : ∃ s : Ownership, s.entry 7 = some (1, 4) ∧
    Closes s (remove .streamTask .returned s 7 giveBack) 7 1 4 := by
  obtain ⟨s, -, -, hentry⟩ := closedClient_reached
  exact ⟨s, hentry, (remove_closes_iff hentry).1.mpr (Or.inl rfl)⟩

/-- A hook that throws: the entry is gone, the connection is in no pool, and the socket is in no
list and no pool. -/
theorem remove_leaks : ∃ s, (system .streamTask {1, 2} {4}).Reachable s ∧
    s.worker 0 = .checked 7 ∧ s.entry 7 = some (1, 4) ∧
    let s' := remove .streamTask .threw s 7 giveBack
    s'.entry 7 = none ∧ 4 ∉ s'.connectionPool ∧ 1 ∉ s'.socketPool ∧ ∀ l, 1 ∉ s'.list l := by
  obtain ⟨s, hexec, hs⟩ : ∃ s,
      (system .streamTask {1, 2} {4}).exec freshServer closedClient = some s ∧
        s.worker 0 = .checked 7 ∧ s.entry 7 = some (1, 4) ∧
        let s' := remove .streamTask .threw s 7 giveBack
        s'.entry 7 = none ∧ 4 ∉ s'.connectionPool ∧ 1 ∉ s'.socketPool ∧ ∀ l, 1 ∉ s'.list l := by
    refine ⟨_, rfl, rfl, rfl, rfl, by decide, by decide, ?_⟩
    intro l
    exact List.not_mem_nil
  have hstart : (system .streamTask {1, 2} {4}).Reachable freshServer := .start ⟨_, _, _, rfl⟩
  exact ⟨s, hstart.run (.of_exec hexec), hs⟩

end Tubekit.Ownership
