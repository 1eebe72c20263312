import Tubekit.Lib.BinaryHeap

/-!
# `tubekit::timer`

The timers of `external/tubekit-timer` and their manager, whose `m_queue` is a
`std::priority_queue` of pointers. A timer is changed, and may be deleted, while its pointer is
still the first of the queue, so the objects are kept apart from the pointers: `timers` has the
objects that are alive. An operation is `none` where it would look at one that is not.

`::time(nullptr)` and the address that `new` returns come from outside. Expiry times do not
overflow. What a callback does is not seen here, only that it is called (`Firing`).
-/

namespace Tubekit

open Lib

/-- The address of a timer. -/
abbrev TimerPtr := Nat

structure Timer where
  id : Nat
  expiredTime : Int
  repeatedTimes : Int
  interval : Int
  deriving DecidableEq

/-- A call of the callback of a timer. -/
structure Firing where
  id : Nat
  now : Int
  deriving DecidableEq

namespace Timer

/-- `timer::timer`. -/
def new (id : Nat) (now repeatedTimes interval : Int) : Timer :=
  { id, expiredTime := now + interval, repeatedTimes, interval }

def isExpired (t : Timer) (now : Int) : Bool := decide (now ≥ t.expiredTime)

/-- `timer::run`, and whether it calls the callback. -/
def run (t : Timer) : Bool × Timer :=
  (t.repeatedTimes == -1 || decide (t.repeatedTimes ≥ 1),
    { t with
      repeatedTimes := if t.repeatedTimes ≥ 1 then t.repeatedTimes - 1 else t.repeatedTimes
      expiredTime := t.expiredTime + t.interval })

end Timer

/-- `timer_manager`, with the static `s_initial_id` of its timers. -/
structure TimerManager where
  queue : List TimerPtr
  timers : TimerPtr → Option Timer
  initialId : Nat

namespace TimerManager

/-- `TimerComparator`. -/
def comparator (timers : TimerPtr → Option Timer) (a b : TimerPtr) : Option Bool :=
  match timers a, timers b with
  | some x, some y => some (decide (x.expiredTime > y.expiredTime))
  | _, _ => none

/-- `timer_manager::add` at the time `now`, where `new` returns `ptr`. -/
def add (m : TimerManager) (ptr : TimerPtr) (now repeatedTimes interval : Int) :
    Option (Nat × TimerManager) :=
  let id := m.initialId + 1
  let timers := Function.update m.timers ptr (some (.new id now repeatedTimes interval))
  match BinaryHeap.push (comparator timers) m.queue ptr with
  | none => none
  | some queue => some (id, { queue, timers, initialId := id })

/-- The first loop of `check_and_handle`: the firings, and `m_list` in the end. -/
def checkLoop (now : Int) : Nat → TimerManager → List TimerPtr →
    Option (List Firing × TimerManager × List TimerPtr)
  | 0, m, list => some ([], m, list)
  | fuel + 1, m, list =>
    match m.queue with
    | [] => some ([], m, list)
    | ptr :: _ =>
      match m.timers ptr with
      | none => none
      | some t =>
        if t.isExpired now then
          let (called, t') := t.run
          let delete : Bool := t'.repeatedTimes == 0
          let timers := Function.update m.timers ptr (if delete then none else some t')
          let list := if delete then list else list ++ [ptr]
          match BinaryHeap.pop (comparator timers) m.queue with
          | none => none
          | some queue =>
            match checkLoop now fuel { m with queue, timers } list with
            | none => none
            | some (fired, rest) => some ((if called then [⟨t.id, now⟩] else []) ++ fired, rest)
        else some ([], m, list)

/-- The timers that the first loop runs, in this order. -/
def ranLoop (now : Int) : Nat → TimerManager → List TimerPtr
  | 0, _ => []
  | fuel + 1, m =>
    match m.queue with
    | [] => []
    | ptr :: _ =>
      match m.timers ptr with
      | none => []
      | some t =>
        if t.isExpired now then
          let (_, t') := t.run
          let timers := Function.update m.timers ptr (if t'.repeatedTimes == 0 then none else some t')
          match BinaryHeap.pop (comparator timers) m.queue with
          | none => [ptr]
          | some queue => ptr :: ranLoop now fuel { m with queue, timers }
        else []

/-- The second loop: what is in `m_list` goes back to the queue. -/
def pushAll (m : TimerManager) : List TimerPtr → Option TimerManager
  | [] => some m
  | ptr :: list =>
    match BinaryHeap.push (comparator m.timers) m.queue ptr with
    | none => none
    | some queue => pushAll { m with queue } list

/-- `timer_manager::check_and_handle` at the time `now`. Every round of its loop takes one
pointer from the queue. -/
def checkAndHandle (m : TimerManager) (now : Int) : Option (List Firing × TimerManager) :=
  match checkLoop now m.queue.length m [] with
  | none => none
  | some (fired, m, list) =>
    match m.pushAll list with
    | none => none
    | some m => some (fired, m)

/-- The timers that `check_and_handle` runs at the time `now`, in this order. -/
def ran (m : TimerManager) (now : Int) : List TimerPtr := ranLoop now m.queue.length m

end TimerManager

/-! ## Runs -/

inductive TimerOp where
  | add (ptr : TimerPtr) (now repeatedTimes interval : Int)
  | checkAndHandle (now : Int)

namespace TimerManager

def step (m : TimerManager) : TimerOp → Option (List Firing × TimerManager)
  | .add ptr now repeatedTimes interval =>
    (m.add ptr now repeatedTimes interval).map fun (_, m) => ([], m)
  | .checkAndHandle now => m.checkAndHandle now

/-- The firings of each operation, and the manager in the end. -/
def run (m : TimerManager) : List TimerOp → Option (List (List Firing) × TimerManager)
  | [] => some ([], m)
  | op :: ops =>
    match m.step op with
    | none => none
    | some (fired, m) => (run m ops).map fun (logs, m) => (fired :: logs, m)

/-- `new` returns no address of an object that is alive. -/
def Allows (m : TimerManager) : TimerOp → Prop
  | .add ptr _ _ _ => m.timers ptr = none
  | .checkAndHandle _ => True

/-- Every operation is allowed where it happens. -/
def Allowed (m : TimerManager) : List TimerOp → Prop
  | [] => True
  | op :: ops =>
    m.Allows op ∧
      match m.step op with
      | none => True
      | some (_, m) => Allowed m ops

instance (m : TimerManager) : (op : TimerOp) → Decidable (m.Allows op)
  | .add ptr _ _ _ => inferInstanceAs (Decidable (m.timers ptr = none))
  | .checkAndHandle _ => isTrue trivial

instance decidableAllowed (m : TimerManager) : (ops : List TimerOp) → Decidable (m.Allowed ops)
  | [] => isTrue trivial
  | op :: ops =>
    match h : m.step op with
    | none => decidable_of_iff (m.Allows op) (by simp [Allowed, h])
    | some (_, m') =>
      have := decidableAllowed m' ops
      decidable_of_iff (m.Allows op ∧ m'.Allowed ops) (by simp [Allowed, h])

/-- A manager without timers; others may have used ids before. -/
def empty (initialId : Nat) : TimerManager := { queue := [], timers := fun _ => none, initialId }

/-- The times at which a timer fires. -/
def firings (id : Nat) (logs : List (List Firing)) : List Int :=
  (logs.flatten.filter fun f => f.id = id).map (·.now)

/-- A timer of the manager has this id. -/
def Alive (m : TimerManager) (id : Nat) : Prop :=
  ∃ ptr ∈ m.queue, ∃ t, m.timers ptr = some t ∧ t.id = id

end TimerManager

end Tubekit
