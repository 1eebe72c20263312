import Tubekit.Socket.Watch

/-!
# Runs and calls

What holds of the workers' side of a server. The tasks of a gid are run by one worker, and while
a run has the pair of an entry that entry stays in the map, since only this worker takes it out
(`Runs`). It also stays while a thread is in a call on the connection: the thread has the lock
under which an entry is taken out, or it is this worker (`Calls`).
-/

namespace Tubekit

namespace RunPc

/-- The gid of the task that is run. -/
def gid : RunPc → Option Nat
  | .idle => none
  | .started g => some g
  | .found g _ _ => some g
  | .removing g => some g
  | .recv g _ _ => some g
  | .again g _ _ => some g
  | .process g _ _ => some g
  | .sending g _ _ _ => some g
  | .attaching g _ _ _ => some g

/-- The pair that the run has found, up to the test of `close_flag` and behind it. -/
def pair : RunPc → Option (Nat × Nat)
  | .found _ x c => some (x, c)
  | .recv _ x c => some (x, c)
  | .again _ x c => some (x, c)
  | .process _ x c => some (x, c)
  | .sending _ x c _ => some (x, c)
  | .attaching _ x c _ => some (x, c)
  | _ => none

end RunPc

/-- The gid whose entry the worker is about to take out, or has taken out. -/
def WorkerHand.subject : WorkerHand → Option Nat
  | .checked g => some g
  | hand => hand.gid

namespace Server

variable {n : Nat} {sockets connections : Finset Nat} {s s' : Server}

/-! ## Runs -/

structure Runs (n : Nat) (own : Ownership) (queue : Nat → TaskQueue) (run : Nat → RunPc) :
    Prop where
  queued : ∀ w g, some g ∈ (queue w).task → g % n = w
  inTask : ∀ w g, g ∈ (queue w).inTask → some g ∈ (queue w).task
  gid : ∀ w g, (run w).gid = some g → g % n = w
  pair : ∀ w g p, (run w).gid = some g → (run w).pair = some p → own.entry g = some p
  hand : ∀ w g, (own.worker w).subject = some g → run w = .removing g

variable {own own' : Ownership} {queue : Nat → TaskQueue} {run : Nat → RunPc} {a : Ownership.Action}
  {w g : Nat} {pc : RunPc}

/-- The entries that are in the map stay, and the workers keep what they remove. -/
theorem Runs.ownStep (h : Runs n own queue run)
    (hentry : ∀ g p, own.entry g = some p → own'.entry g = some p)
    (hworker : ∀ w g, (own'.worker w).subject = some g → (own.worker w).subject = some g) :
    Runs n own' queue run :=
  ⟨h.queued, h.inTask, h.gid, fun w g p hg hp => hentry g p (h.pair w g p hg hp),
    fun w g hw => h.hand w g (hworker w g hw)⟩

/-- The queue of the gid takes a task, if there is none of this gid in it. -/
theorem Runs.push (h : Runs n own queue run) (g : Nat) :
    Runs n own (Function.update queue (g % n) ((queue (g % n)).push id (some g)).2) run := by
  refine ⟨fun w g' => ?_, fun w g' => ?_, h.gid, h.pair, h.hand⟩
  all_goals
    have hqueued := h.queued w g'
    have hin := h.inTask w g'
    by_cases hw : w = g % n
    · subst hw
      simp only [Function.update_self, TaskQueue.push, id_eq]
      grind
    · simpa only [Function.update_of_ne hw]

theorem Runs.pop {rest : List (Option Nat)} (h : Runs n own queue run)
    (hqueue : (queue w).task = some g :: rest) :
    Runs n own (Function.update queue w { task := rest, inTask := (queue w).inTask.erase g })
      run := by
  refine ⟨fun v g' => ?_, fun v g' => ?_, h.gid, h.pair, h.hand⟩
  all_goals
    have hqueued := h.queued v g'
    have hin := h.inTask v g'
    by_cases hw : v = w
    · subst hw
      simp only [Function.update_self]
      grind
    · simpa only [Function.update_of_ne hw]

/-- One worker goes on. -/
theorem Runs.update (h : Runs n own queue run) (hgid : ∀ g, pc.gid = some g → g % n = w)
    (hpair : ∀ g p, pc.gid = some g → pc.pair = some p → own'.entry g = some p)
    (hhand : ∀ g, (own'.worker w).subject = some g → pc = .removing g)
    (hentry : own'.entry = own.entry) (hworker : ∀ v, v ≠ w → own'.worker v = own.worker v) :
    Runs n own' queue (Function.update run w pc) := by
  refine ⟨h.queued, h.inTask, fun v g' => ?_, fun v g' p => ?_, fun v g' hv => ?_⟩
  · by_cases hw : v = w
    · subst hw
      rw [Function.update_self]
      exact hgid g'
    · rw [Function.update_of_ne hw]
      exact h.gid v g'
  · by_cases hw : v = w
    · subst hw
      rw [Function.update_self]
      exact hpair g' p
    · rw [Function.update_of_ne hw, hentry]
      exact h.pair v g' p
  · by_cases hw : v = w
    · subst hw
      rw [Function.update_self]
      exact hhand g' hv
    · rw [Function.update_of_ne hw]
      rw [hworker v hw] at hv
      exact h.hand v g' hv

/-- The hand of a worker changes and the gid in it does not. -/
theorem Runs.passes {hand : WorkerHand} (h : Runs n own queue run)
    (hentry : own'.entry = own.entry) (hworker : own'.worker = Function.update own.worker w hand)
    (hsubject : hand.subject = (own.worker w).subject) : Runs n own' queue run := by
  refine h.ownStep (by simp [hentry]) fun v g hv => ?_
  rw [hworker] at hv
  by_cases hvw : v = w
  · subst hvw
    rwa [Function.update_self, hsubject] at hv
  · rwa [Function.update_of_ne hvw] at hv

/-- A worker whose run is not `removing` has nothing in its hand. -/
theorem Runs.subject_eq_none (h : Runs n own queue run) (hrun : ∀ g, run w ≠ .removing g) :
    (own.worker w).subject = none := by
  cases hs : (own.worker w).subject with
  | none => rfl
  | some g => exact absurd (h.hand w g hs) (hrun g)

/-- A run goes on with the same gid and pair. -/
theorem Runs.goOn (h : Runs n own queue run) (hrun : ∀ g, run w ≠ .removing g)
    (hgid : pc.gid = (run w).gid) (hpair : ∀ p, pc.pair = some p → (run w).pair = some p) :
    Runs n own queue (Function.update run w pc) := by
  refine h.update (fun g hg => h.gid w g (hgid ▸ hg))
    (fun g p hg hp => h.pair w g p (hgid ▸ hg) (hpair p hp)) (fun g hg => ?_) rfl fun _ _ => rfl
  rw [h.subject_eq_none hrun] at hg
  cases hg

theorem Runs.idle (h : Runs n own queue run) (hrun : ∀ g, run w ≠ .removing g) :
    Runs n own queue (Function.update run w .idle) := by
  refine h.update (by simp [RunPc.gid]) (by simp [RunPc.gid]) (fun g hg => ?_) rfl fun _ _ => rfl
  rw [h.subject_eq_none hrun] at hg
  cases hg

theorem Runs.removing_inj (h : Runs n own queue run) {g' : Nat} (hrun : run w = .removing g)
    (hhand : (own.worker w).subject = some g') : g = g' :=
  RunPc.removing.inj (hrun.symm.trans (h.hand w g' hhand))

/-- The worker of the gid takes the entry out; no other worker has a run of this gid. -/
theorem Runs.erase {x c : Nat} (h : Runs n own queue run) (hworker : own.worker w = .checked g) :
    Runs n { own with
      entry := Function.update own.entry g none
      worker := Function.update own.worker w (.erased g x c) } queue run := by
  have hrun : run w = .removing g := h.hand w g (by rw [hworker]; rfl)
  have hw : g % n = w := h.gid w g (by rw [hrun]; rfl)
  refine ⟨h.queued, h.inTask, h.gid, fun v g' p hg hp => ?_, fun v g' hv => ?_⟩
  · have hne : g' ≠ g := by
      rintro rfl
      have hvw : v = w := (h.gid v g' hg).symm.trans hw
      rw [hvw, hrun] at hp
      cases hp
    simpa [hne] using h.pair v g' p hg hp
  · by_cases hvw : v = w
    · subst hvw
      simp only [Function.update_self, WorkerHand.subject, WorkerHand.gid, Option.some.injEq] at hv
      rw [← hv]
      exact hrun
    · simp only [Function.update_of_ne hvw] at hv
      exact h.hand v g' hv

theorem runs_callNext (h : Runs n s.own s.queue s.run) (t : Thread) (k : Call) :
    Runs n (s.callNext n t k).own (s.callNext n t k).queue (s.callNext n t k).run := by
  unfold callNext
  cases k.stage with
  | write buffer =>
    dsimp only
    split <;> exact h
  | check =>
    dsimp only
    split <;> exact h
  | set => exact { h with }
  | clear => exact h
  | task => exact h.push k.gid

theorem runs_step (h : Runs n s.own s.queue s.run) (hstep : Step n sockets s s') :
    Runs n s'.own s'.queue s'.run := by
  cases hstep with
  | accept _ _ _ _ hown => cases hown; exact h.ownStep (by simp) (by simp)
  | updateWaitRemove hloop hown => cases hown; exact h.ownStep (by simp) (by simp)
  | take hmain hget hown => cases hown; exact h.ownStep (by simp) (by simp)
  | close hmain hown => cases hown <;> exact h.ownStep (by simp) (by simp)
  | clear hown => cases hown; exact h.ownStep (by simp) (by simp)
  | create hown => cases hown; exact h.ownStep (by simp) (by simp)
  | insert hmain hown =>
    cases hown with
    | insert hmain' hnew =>
      refine h.ownStep (fun g p hp => ?_) (by simp)
      have hne : g ≠ _ := fun heq => by rw [heq, hnew] at hp; cases hp
      simpa [hne] using hp
    | insertFailed hmain' hold => exact h.ownStep (by simp) (by simp)
  | moving ha hown =>
    cases ha <;> cases hown
    case release.release hworker => exact h.passes rfl rfl (by rw [hworker]; rfl)
    all_goals exact h.ownStep (by simp) (by simp)
  | hook hcall hown =>
    cases hown with
    | hook hworker => exact h.passes rfl rfl (by rw [hworker]; rfl)
  | doTask hloop => exact h.push _
  | @pop w g rest hrun hqueue =>
    have hg : g % n = w := h.queued w g (by simp [hqueue])
    refine (h.pop hqueue).update (by simpa [RunPc.gid] using hg) (by simp [RunPc.pair])
      (fun g' hg' => ?_) rfl fun _ _ => rfl
    rw [h.subject_eq_none (by simp [hrun])] at hg'
    cases hg'
  | find hrun hentry =>
    refine h.update (fun g hg => h.gid _ g (by rw [hrun]; exact hg)) ?_ (fun g hg => ?_) rfl
      fun _ _ => rfl
    · simpa [RunPc.gid, RunPc.pair] using hentry
    · rw [h.subject_eq_none (by simp [hrun])] at hg
      cases hg
  | findFailed hrun hentry => exact h.idle (by simp [hrun])
  | checkClosed hrun hown =>
    cases hown with
    | check hworker hentry hclosed =>
      refine h.update (fun g hg => h.gid _ g (by rw [hrun]; exact hg)) (by simp [RunPc.pair])
        ?_ rfl fun v hv => by simp [hv]
      simp [WorkerHand.subject]
  | checkOpen hrun hclosed =>
    exact h.goOn (by simp [hrun]) (by simp [hrun, RunPc.gid]) (by simp [hrun, RunPc.pair])
  | erase hcall hrun hlock hentry hown =>
    cases hown with
    | erase hworker hold => exact h.erase hworker
    | eraseFailed hworker hnone =>
      rw [h.removing_inj hrun (by rw [hworker]; rfl)] at hentry
      exact absurd hnone hentry
  | eraseFailed hrun hentry hown =>
    cases hown with
    | erase hworker hold =>
      rw [h.removing_inj hrun (by rw [hworker]; rfl), hold] at hentry
      cases hentry
    | eraseFailed hworker hnone =>
      exact h.update (by simp [RunPc.gid]) (by simp [RunPc.gid])
        (by simp [WorkerHand.subject, WorkerHand.gid]) rfl fun v hv => by simp [hv]
  | pushWaitRemove hcall hrun hown =>
    cases hown with
    | pushWaitRemove hworker =>
      exact h.update (by simp [RunPc.gid]) (by simp [RunPc.gid])
        (by simp [WorkerHand.subject, WorkerHand.gid]) rfl fun v hv => by simp [hv]
  | receive hcall hrun hsame hpc =>
    rcases hrun with hrun | hrun <;> rcases hpc with rfl | rfl <;>
      exact h.goOn (by simp [hrun]) (by simp [hrun, RunPc.gid]) (by simp [hrun, RunPc.pair])
  | fail hcall hrun hsame => exact h.idle (by rcases hrun with hrun | hrun <;> simp [hrun])
  | again hrun =>
    exact (h.push _).goOn (by simp [hrun]) (by simp [hrun, RunPc.gid]) (by simp [hrun, RunPc.pair])
  | processed hcall hrun =>
    exact h.goOn (by simp [hrun]) (by simp [hrun, RunPc.gid]) (by simp [hrun, RunPc.pair])
  | send hcall hrun hstep hpc =>
    exact h.goOn (by simp [hrun]) (by simp [hrun, RunPc.gid]) (by simp [hrun, RunPc.pair])
  | sent hcall hrun hstep =>
    exact h.goOn (by simp [hrun]) (by simp [hrun, RunPc.gid]) (by simp [hrun, RunPc.pair])
  | sendFailed hcall hrun hstep =>
    exact h.goOn (by simp [hrun]) (by simp [hrun, RunPc.gid]) (by simp [hrun, RunPc.pair])
  | attach hcall hrun => exact h.idle (by simp [hrun])
  | call hcall => exact runs_callNext h _ _
  | _ => exact h

/-! ## Calls -/

/-- Where the connection of a call is: in the map, or with the worker in `on_close_connection`. -/
def Reaches (own : Ownership) (t : Thread) (k : Call) : Prop :=
  (∃ x, own.entry k.gid = some (x, k.connection)) ∨
    k.locked = false ∧ ∃ w x, t = .worker w ∧ own.worker w = .erased k.gid x k.connection

structure Calls (n : Nat) (own : Ownership) (call : Thread → Option Call)
    (lock : Nat → Option Holder) : Prop where
  reaches : ∀ t k, call t = some k → Reaches own t k
  locked : ∀ t k, call t = some k → k.locked = true → lock (k.gid % n) = some (.call t)
  unlocked : ∀ t k, call t = some k → k.locked = false → t = .worker (k.gid % n)
  closing : ∀ t k, call t = some k → k.stage = .clear → own.closeFlag k.connection = true
  removal : ∀ w g, (own.worker w).gid = some g → lock (g % n) = some (.removal w)

variable {call : Thread → Option Call} {lock : Nat → Option Holder} {t : Thread} {k : Call}

/-- The connection of a call is not in the pool. -/
theorem Calls.not_mem_pool (h : Calls n own call lock) (howned : Owned sockets connections own)
    (hk : call t = some k) : k.connection ∉ own.connectionPool := by
  rcases h.reaches t k hk with ⟨x, hentry⟩ | ⟨-, w, x, -, hworker⟩
  · exact howned.inv.connection_not_mem_pool hentry
  · have hat : own.ConnectionAt k.connection (.worker w) := by
      simp [Ownership.ConnectionAt, hworker, WorkerHand.connection]
    exact fun hpool => ConnectionPlace.noConfusion
      (howned.inv.connectionCustody.unique (p := .pool) hpool hat)

/-- Where an entry has the connection of a call, it is the entry of the call. -/
theorem Calls.gid_of_entry (h : Calls n own call lock) (howned : Owned sockets connections own)
    (hk : call t = some k) {x : Nat} (hentry : own.entry g = some (x, k.connection)) :
    k.gid = g := by
  rcases h.reaches t k hk with ⟨y, hentry'⟩ | ⟨-, w, y, -, hworker⟩
  · exact howned.inv.connection_inj hentry' hentry
  · exact absurd (by rw [hworker]; rfl) (howned.inv.connection_ne_worker hentry w)

/-- A step of `Ownership` that neither takes an entry out nor touches what the workers hold, and
leaves the flags that are set. -/
theorem Calls.ownStep (h : Calls n own call lock)
    (hentry : ∀ g p, own.entry g = some p → own'.entry g = some p)
    (hworker : ∀ w g, (own'.worker w).gid = some g → (own.worker w).gid = some g)
    (herased : ∀ w k g x c, call (.worker w) = some k → own.worker w = .erased g x c →
      own'.worker w = .erased g x c)
    (hflag : ∀ t k, call t = some k → own.closeFlag k.connection = true →
      own'.closeFlag k.connection = true) :
    Calls n own' call lock := by
  refine ⟨fun t k hk => ?_, h.locked, h.unlocked, fun t k hk hs => hflag t k hk (h.closing t k hk hs),
    fun w g hw => h.removal w g (hworker w g hw)⟩
  rcases h.reaches t k hk with ⟨x, hx⟩ | ⟨hown, w, x, rfl, hw⟩
  · exact .inl ⟨x, hentry _ _ hx⟩
  · exact .inr ⟨hown, w, x, rfl, herased w k _ x _ hk hw⟩

/-- The hand of one worker changes. -/
theorem Calls.hands {hand : WorkerHand} (h : Calls n own call lock)
    (hentry : own'.entry = own.entry) (hflag : own'.closeFlag = own.closeFlag)
    (hworker : own'.worker = Function.update own.worker w hand)
    (hgid : ∀ g, hand.gid = some g → (own.worker w).gid = some g)
    (herased : call (.worker w) = none ∨ ∀ g x c, own.worker w ≠ .erased g x c) :
    Calls n own' call lock := by
  refine h.ownStep (by simp [hentry]) (fun v g hv => ?_) (fun v k g x c hk hv => ?_)
    (by simp [hflag])
  · by_cases hvw : v = w
    · subst hvw
      rw [hworker, Function.update_self] at hv
      exact hgid g hv
    · rwa [hworker, Function.update_of_ne hvw] at hv
  · have hvw : v ≠ w := by
      rintro rfl
      rcases herased with hnone | hnot
      · rw [hnone] at hk
        cases hk
      · exact hnot g x c hv
    rwa [hworker, Function.update_of_ne hvw]

/-- A call begins, under a lock that was free or without one. -/
theorem Calls.start (h : Calls n own call lock) (hreaches : Reaches own t k)
    (hlock : k.locked = true → lock (k.gid % n) = none)
    (hunlocked : k.locked = false → t = .worker (k.gid % n)) (hstage : k.stage ≠ .clear) :
    Calls n own (Function.update call t (some k))
      (if k.locked then Function.update lock (k.gid % n) (some (.call t)) else lock) := by
  obtain ⟨hr, hl, hu, hc, hm⟩ := h
  refine ⟨fun t' k' hk' => ?_, fun t' k' hk' => ?_, fun t' k' hk' => ?_, fun t' k' hk' => ?_,
    fun w g hw => ?_⟩
  · grind
  · grind
  · grind
  · grind
  · grind

/-- The call that a thread is in goes on. -/
theorem Calls.goOn (h : Calls n own call lock) (hk : call t = some k) {stage : CallStage}
    (hclosing : stage = .clear → own.closeFlag k.connection = true) :
    Calls n own (Function.update call t (some { k with stage })) lock := by
  obtain ⟨hr, hl, hu, hc, hm⟩ := h
  refine ⟨fun t' k' hk' => ?_, fun t' k' hk' => ?_, fun t' k' hk' => ?_, fun t' k' hk' => ?_, hm⟩
  · have hold := hr t k hk
    simp only [Reaches] at hold hr ⊢
    grind
  · grind
  · grind
  · grind

/-- The call of a thread returns. -/
theorem Calls.finish (h : Calls n own call lock) (hk : call t = some k) :
    Calls n own (Function.update call t none)
      (if k.locked then Function.update lock (k.gid % n) none else lock) := by
  obtain ⟨hr, hl, hu, hc, hm⟩ := h
  have hown := hl t k hk
  refine ⟨fun t' k' hk' => ?_, fun t' k' hk' => ?_, fun t' k' hk' => ?_, fun t' k' hk' => ?_,
    fun w g hw => ?_⟩
  · grind
  · have hold := hl t' k'
    grind
  · grind
  · grind
  · have hold := hm w g hw
    grind

theorem calls_callNext (h : Calls n s.own s.call s.lock) (hk : s.call t = some k) :
    Calls n (s.callNext n t k).own (s.callNext n t k).call (s.callNext n t k).lock := by
  unfold callNext
  split
  · dsimp only
    split
    · exact h.goOn hk (by simp)
    · exact h.finish hk
  · split
    · exact h.finish hk
    · exact h.goOn hk (by simp)
  · have hflag : Calls n { s.own with
        closeFlag := Function.update s.own.closeFlag k.connection true } s.call s.lock := by
      refine h.ownStep (by simp) (by simp) (by simp) fun t' k' hk' hflag => ?_
      simp only [Function.update_apply]
      split
      · rfl
      · exact hflag
    exact hflag.goOn hk (by simp)
  · exact h.goOn hk (by simp)
  · exact h.finish hk

/-- In a hook or a callback the worker has the connection from its run or in its hand. -/
theorem inHook_spec (h : Runs n s.own s.queue s.run) {c : Nat} (hhook : s.inHook w = some (g, c)) :
    (s.run w).gid = some g ∧
      ((∃ x, (s.run w).pair = some (x, c)) ∨ ∃ x, s.own.worker w = .erased g x c) := by
  unfold inHook at hhook
  split at hhook
  · rename_i hrun
    cases hhook
    rw [hrun]
    exact ⟨rfl, .inl ⟨_, rfl⟩⟩
  · rename_i hrun
    cases hhook
    rw [hrun]
    exact ⟨rfl, .inl ⟨_, rfl⟩⟩
  · split at hhook
    · rename_i hworker
      cases hhook
      have hrun := h.hand w g (by rw [hworker]; rfl)
      rw [hrun]
      exact ⟨rfl, .inr ⟨_, hworker⟩⟩
    · cases hhook
  · cases hhook

/-- An entry is taken out: the lock is free and its worker is not in a call. -/
theorem Calls.erase {x c : Nat} (h : Calls n own call lock) (hworker : own.worker w = .checked g)
    (hw : g % n = w) (hcall : call (.worker w) = none) (hlock : lock (g % n) = none) :
    Calls n { own with
        entry := Function.update own.entry g none
        worker := Function.update own.worker w (.erased g x c) } call
      (Function.update lock (g % n) (some (.removal w))) := by
  obtain ⟨hr, hl, hu, hc, hm⟩ := h
  refine ⟨fun t k hk => ?_, fun t k hk hlocked => ?_, hu, hc, fun v g' hv => ?_⟩
  · rcases hr t k hk with ⟨y, hentry⟩ | ⟨hlocked, v, y, rfl, hv⟩
    · have hne : k.gid ≠ g := by
        intro heq
        cases hlocked : k.locked with
        | true =>
          have hheld := hl t k hk hlocked
          rw [heq, hlock] at hheld
          cases hheld
        | false =>
          have ht := hu t k hk hlocked
          rw [heq, hw] at ht
          rw [ht, hcall] at hk
          cases hk
      exact .inl ⟨y, by simpa [hne] using hentry⟩
    · have hne : v ≠ w := by
        rintro rfl
        rw [hcall] at hk
        cases hk
      exact .inr ⟨hlocked, v, y, rfl, by simpa [hne] using hv⟩
  · have hheld := hl t k hk hlocked
    have hne : k.gid % n ≠ g % n := by
      intro heq
      rw [heq, hlock] at hheld
      cases hheld
    rwa [Function.update_of_ne hne]
  · by_cases hvw : v = w
    · subst hvw
      simp only [Function.update_self, WorkerHand.gid, Option.some.injEq] at hv
      rw [← hv, Function.update_self]
    · simp only [Function.update_of_ne hvw] at hv
      have hheld := hm v g' hv
      have hne : g' % n ≠ g % n := by
        intro heq
        rw [heq, hlock] at hheld
        cases hheld
      rwa [Function.update_of_ne hne]

/-- The worker has queued the socket and gives the lock back. -/
theorem Calls.pushWaitRemove (h : Calls n own call lock) (hgid : (own.worker w).gid = some g)
    (hcall : call (.worker w) = none) (hentry : own'.entry = own.entry)
    (hflag : own'.closeFlag = own.closeFlag)
    (hworker : own'.worker = Function.update own.worker w .free) :
    Calls n own' call (Function.update lock (g % n) none) := by
  obtain ⟨hr, hl, hu, hc, hm⟩ := h
  have hheld := hm w g hgid
  refine ⟨fun t k hk => ?_, fun t k hk hlocked => ?_, hu, by rwa [hflag], fun v g' hv => ?_⟩
  · rcases hr t k hk with hold | ⟨hlocked, v, y, rfl, hv⟩
    · exact .inl (by rwa [hentry])
    · have hne : v ≠ w := by
        rintro rfl
        rw [hcall] at hk
        cases hk
      exact .inr ⟨hlocked, v, y, rfl, by simpa [hworker, hne] using hv⟩
  · have hold := hl t k hk hlocked
    have hne : k.gid % n ≠ g % n := by
      intro heq
      rw [heq, hheld] at hold
      cases hold
    rwa [Function.update_of_ne hne]
  · have hvw : v ≠ w := by
      rintro rfl
      simp [hworker, WorkerHand.gid] at hv
    rw [hworker, Function.update_of_ne hvw] at hv
    have hold := hm v g' hv
    have hne : g' % n ≠ g % n := by
      intro heq
      rw [heq, hheld] at hold
      exact hvw (Holder.removal.inj (Option.some.inj hold)).symm
    rwa [Function.update_of_ne hne]

/-- A step of `Ownership` by the main thread. -/
theorem Calls.mainStep (h : Calls n own call lock)
    (hentry : ∀ g p, own.entry g = some p → own'.entry g = some p)
    (hworker : own'.worker = own.worker) (hflag : own'.closeFlag = own.closeFlag) :
    Calls n own' call lock := by
  refine h.ownStep hentry (by simp [hworker]) (fun w k g x c _ hw => ?_) (by simp [hflag])
  rw [hworker]
  exact hw

theorem calls_step (howned : Owned sockets connections s.own)
    (hruns : Runs n s.own s.queue s.run) (h : Calls n s.own s.call s.lock)
    (hstep : Step n sockets s s') : Calls n s'.own s'.call s'.lock := by
  cases hstep with
  | accept _ _ _ _ hown => cases hown; exact h.mainStep (by simp) rfl rfl
  | updateWaitRemove hloop hown => cases hown; exact h.mainStep (by simp) rfl rfl
  | take hmain hget hown => cases hown; exact h.mainStep (by simp) rfl rfl
  | close hmain hown => cases hown <;> exact h.mainStep (by simp) rfl rfl
  | clear hown => cases hown; exact h.mainStep (by simp) rfl rfl
  | create hown =>
    cases hown with
    | create hmain hpool =>
      refine h.ownStep (by simp) (by simp) (by simp) fun t k hk hflag => ?_
      have hne : k.connection ≠ _ := fun heq => h.not_mem_pool howned hk (heq ▸ hpool)
      simpa [hne] using hflag
  | insert hmain hown =>
    cases hown with
    | insert hmain' hnew =>
      refine h.mainStep (fun g p hp => ?_) rfl rfl
      have hne : g ≠ _ := fun heq => by rw [heq, hnew] at hp; cases hp
      simpa [hne] using hp
    | insertFailed hmain' hold => exact h.mainStep (by simp) rfl rfl
  | moving ha hown =>
    cases ha <;> cases hown
    case release.release hworker =>
      exact h.hands rfl rfl rfl (by simp [hworker, WorkerHand.gid]) (.inr (by simp [hworker]))
    all_goals exact h.mainStep (by simp) rfl rfl
  | hook hcall hown =>
    cases hown with
    | hook hworker => exact h.hands rfl rfl rfl (by simp [hworker, WorkerHand.gid]) (.inl hcall)
  | lookup hloop hcall hlock hentry =>
    exact h.start (k := ⟨_, _, true, .check⟩) (.inl ⟨_, hentry⟩) (fun _ => hlock) (by simp) (by simp)
  | checkClosed hrun hown =>
    cases hown with
    | check hworker hentry hclosed =>
      exact h.hands rfl rfl rfl (by simp [WorkerHand.gid]) (.inr (by simp [hworker]))
  | erase hcall hrun hlock hentry hown =>
    cases hown with
    | erase hworker hold =>
      obtain rfl := hruns.removing_inj hrun (by rw [hworker]; rfl)
      exact h.erase hworker (hruns.gid _ _ (by rw [hrun]; rfl)) hcall hlock
    | eraseFailed hworker hnone =>
      rw [hruns.removing_inj hrun (by rw [hworker]; rfl)] at hentry
      exact absurd hnone hentry
  | eraseFailed hrun hentry hown =>
    cases hown with
    | erase hworker hold =>
      rw [hruns.removing_inj hrun (by rw [hworker]; rfl), hold] at hentry
      cases hentry
    | eraseFailed hworker hnone =>
      exact h.hands rfl rfl rfl (by simp [WorkerHand.gid]) (.inr (by simp [hworker]))
  | pushWaitRemove hcall hrun hown =>
    cases hown with
    | pushWaitRemove hworker =>
      obtain rfl := hruns.removing_inj hrun (by rw [hworker]; rfl)
      exact h.pushWaitRemove (by rw [hworker]; rfl) hcall rfl rfl rfl
  | @fail w g x c _ hcall hrun hsame =>
    have hentry : s.own.entry g = some (x, c) := by
      rcases hrun with hrun | hrun <;>
        exact hruns.pair w g _ (by rw [hrun]; rfl) (by rw [hrun]; rfl)
    have hw : g % n = w := hruns.gid w g (by rcases hrun with hrun | hrun <;> rw [hrun] <;> rfl)
    exact h.start (k := ⟨_, _, false, .check⟩) (.inl ⟨_, hentry⟩) (by simp) (by simp [hw]) (by simp)
  | @sendFailed w g x c _ _ _ _ _ hcall hrun hstep =>
    have hentry : s.own.entry g = some (x, c) :=
      hruns.pair w g _ (by rw [hrun]; rfl) (by rw [hrun]; rfl)
    have hw : g % n = w := hruns.gid w g (by rw [hrun]; rfl)
    exact h.start (k := ⟨_, _, false, .check⟩) (.inl ⟨_, hentry⟩) (by simp) (by simp [hw]) (by simp)
  | @start t g x c request hcall hlock hentry =>
    exact h.start (k := ⟨_, _, true, request.stage⟩) (.inl ⟨_, hentry⟩) (fun _ => hlock) (by simp)
      (by cases request <;> simp [CallRequest.stage])
  | @startOwn w g c request hcall hhook =>
    obtain ⟨hgid, hat⟩ := inHook_spec hruns hhook
    have hw : g % n = w := hruns.gid w g hgid
    have hstage : request.stage ≠ .clear := by cases request <;> simp [CallRequest.stage]
    refine h.start (k := ⟨_, _, false, request.stage⟩) ?_ (by simp) (by simp [hw]) hstage
    rcases hat with ⟨x, hpair⟩ | ⟨x, hworker⟩
    · exact .inl ⟨x, hruns.pair w g _ hgid hpair⟩
    · exact .inr ⟨rfl, w, x, rfl, hworker⟩
  | call hcall => exact calls_callNext h hcall
  | _ => exact h

end Server

end Tubekit
