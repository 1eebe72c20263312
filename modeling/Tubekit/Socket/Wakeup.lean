import Tubekit.Socket.Unsent

/-!
# No connection goes deaf

A connection in the map is taken care of: a task of its gid is queued or run, or is sure to be asked
for, or its descriptor is armed. `Awake` says what each of the three things that can go wrong is
prevented by: a closed connection that is never removed, a socket that is never read again, and
output that is never sent. Each step keeps it; what a step takes away it makes up for, and the
only step that takes a queued task away starts a run of it.

The epoll record and the one-shot registrations meet in `attach`: where the record has `EPOLLOUT`
and the descriptor is disarmed, the main thread still has the event to process.
-/

namespace Tubekit

open Lib.Transition

/-- The call goes on to `do_task`. -/
def Call.Bound (k : Call) (closeFlag : Nat → Bool) : Prop :=
  match k.stage with
  | .write _ => False
  | .check => closeFlag k.connection = false
  | _ => True

theorem Call.Bound.mono {k : Call} {closeFlag closeFlag' : Nat → Bool} (h : k.Bound closeFlag)
    (hopen : closeFlag k.connection = false → closeFlag' k.connection = false) :
    k.Bound closeFlag' := by
  unfold Bound at *
  split at h
  · cases h
  · exact hopen h
  · trivial

namespace RunPc

/-- The run tests `close_flag`, or has found it set. -/
def early : RunPc → Bool
  | .started _ => true
  | .found _ _ _ => true
  | .removing _ => true
  | _ => false

/-- The run is going to look for output, or to arm the descriptor for it. -/
def busy : RunPc → Bool
  | .idle => false
  | .sending _ _ _ .callback => false
  | .sending _ _ _ (.done _ _) => false
  | .attaching _ _ _ listenSend => listenSend
  | _ => true

end RunPc

namespace Server

variable {n : Nat} {sockets connections : Finset Nat} {s s' : Server} {g x c w : Nat} {out : Bool}

/-- A task of the gid is in the queue of its worker. -/
def Queued (n : Nat) (s : Server) (g : Nat) : Prop := some g ∈ (s.queue (g % n)).task

/-- A thread is in `send` or `mark_close` of the connection and goes on to `do_task`. -/
def Called (s : Server) (g : Nat) : Prop :=
  ∃ t k, s.call t = some k ∧ k.gid = g ∧ k.Bound s.own.closeFlag

def Wanted (n : Nat) (s : Server) (g : Nat) : Prop := Queued n s g ∨ Called s g

/-- The main thread is between the detach or the insert and the `do_task`. -/
def Between (s : Server) (g : Nat) : Prop :=
  s.loop = .inserted g ∨ ∃ hup, s.loop = .detached g hup

/-- The descriptor of the socket is registered and armed for `EPOLLIN`, and for `EPOLLOUT`. -/
def Armed (s : Server) (x : Nat) (out : Bool) : Prop :=
  ∃ r, s.poller.registered (s.own.fd x) = some r ∧ r.socket = x ∧ r.armed = true ∧
    (out = true → r.out = true)

def Watched (s : Server) (g x : Nat) (out : Bool) : Prop :=
  Between s g ∨ Unprocessed s.events s.removedSocket x ∨ Armed s x out

/-- The worker of the gid runs a task of it, and is at such a place. -/
def Running (n : Nat) (s : Server) (g : Nat) (P : RunPc → Bool) : Prop :=
  (s.run (g % n)).gid = some g ∧ P (s.run (g % n)) = true

structure Awake (n : Nat) (s : Server) (g x c : Nat) : Prop where
  closed : s.own.closeFlag c = true → Wanted n s g ∨ Running n s g RunPc.early ∨ s.loop = .inserted g
  deaf : Wanted n s g ∨ Running n s g (fun _ => true) ∨ Watched s g x false
  stranded : s.own.closeFlag c = false → (s.staging c).unsentOutput ≠ [] →
    Wanted n s g ∨ Running n s g RunPc.busy ∨ Watched s g x true

theorem Awake.of_wanted (h : Wanted n s g) : Awake n s g x c :=
  ⟨fun _ => .inl h, .inl h, fun _ _ => .inl h⟩

/-- A run that has just begun. -/
theorem Awake.of_early (h : Running n s g RunPc.early) : Awake n s g x c := by
  have hbusy : Running n s g RunPc.busy := by
    obtain ⟨hgid, hearly⟩ := h
    refine ⟨hgid, ?_⟩
    cases hrun : s.run (g % n) <;> rw [hrun] at hearly <;> first | rfl | cases hearly
  exact ⟨fun _ => .inr (.inl h), .inr (.inl ⟨h.1, rfl⟩), fun _ _ => .inr (.inl hbusy)⟩

/-- A pair that was just put into the map. -/
theorem Awake.of_inserted (h : s.loop = .inserted g) : Awake n s g x c :=
  ⟨fun _ => .inr (.inr h), .inr (.inr (.inl (.inl h))), fun _ _ => .inr (.inr (.inl (.inl h)))⟩

/-- What is not taken away is there. -/
theorem Awake.mono (h : Awake n s g x c) (hflag : s'.own.closeFlag c = s.own.closeFlag c)
    (hunsent : s.own.closeFlag c = false → (s'.staging c).unsentOutput ≠ [] →
      (s.staging c).unsentOutput ≠ [])
    (hwanted : Wanted n s g → Wanted n s' g)
    (hrun : ∀ P, Running n s g P → Running n s' g P)
    (hinserted : s.loop = .inserted g → s'.loop = .inserted g)
    (hwatched : ∀ out, Watched s g x out → Watched s' g x out) : Awake n s' g x c where
  closed hc := (h.closed (hflag ▸ hc)).imp hwanted (Or.imp (hrun _) hinserted)
  deaf := h.deaf.imp hwanted (Or.imp (hrun _) (hwatched _))
  stranded hc hu := by
    rw [hflag] at hc
    exact (h.stranded hc (hunsent hc hu)).imp hwanted (Or.imp (hrun _) (hwatched _))

/-! ## What a step leaves in place -/

theorem Queued.push (h : Queued n s g) (g' : Nat) : Queued n (s.doTask n g') g := by
  unfold Queued doTask at *
  by_cases hw : g % n = g' % n
  · rw [hw] at h ⊢
    simp only [Function.update_self, TaskQueue.push]
    split
    · exact h
    · exact List.mem_append_left _ h
  · simpa only [Function.update_of_ne hw]

/-- Behind `do_task` a task of the gid is queued, whether this one is taken or not. -/
theorem queued_doTask (h : Runs n s.own s.queue s.run) (g : Nat) : Queued n (s.doTask n g) g := by
  unfold Queued doTask
  simp only [Function.update_self, TaskQueue.push, id_eq]
  split
  · rename_i hin
    exact h.inTask _ g hin
  · simp

/-- One call changes, and another one of the gid stays. -/
theorem Called.update {t : Thread} {v : Option Call} (h : Called s g)
    (hcall : s'.call = Function.update s.call t v) (hflag : s'.own.closeFlag = s.own.closeFlag)
    (hself : ∀ k, s.call t = some k → k.gid = g → k.Bound s.own.closeFlag →
      ∃ k', v = some k' ∧ k'.gid = g ∧ k'.Bound s.own.closeFlag) : Called s' g := by
  obtain ⟨t', k, hk, hg, hbound⟩ := h
  by_cases ht : t' = t
  · subst ht
    obtain ⟨k', rfl, hg', hbound'⟩ := hself k hk hg hbound
    exact ⟨t', k', by rw [hcall, Function.update_self], hg', hflag ▸ hbound'⟩
  · exact ⟨t', k, by rw [hcall, Function.update_of_ne ht]; exact hk, hg, hflag ▸ hbound⟩

/-- The run of another gid on the worker of this one does not matter. -/
theorem Running.update {P : RunPc → Bool} {pc : RunPc} (h : Running n s g P)
    (hrun : s'.run = Function.update s.run w pc) (hgid : (s.run w).gid ≠ some g) :
    Running n s' g P := by
  unfold Running at *
  have hw : g % n ≠ w := by
    rintro rfl
    exact hgid h.1
  rwa [hrun, Function.update_of_ne hw]

theorem Watched.mono (h : Watched s g x out) (hbetween : Between s g → Between s' g)
    (hevents : Unprocessed s.events s.removedSocket x → Unprocessed s'.events s'.removedSocket x)
    (harmed : Armed s x out → Armed s' x out) : Watched s' g x out :=
  h.imp hbetween (Or.imp hevents harmed)

/-- The loop goes on from a place that is not between, with events and descriptors as before. -/
theorem Watched.goOn (h : Watched s g x out) (hnot : ¬Between s g)
    (hevents : Unprocessed s.events s.removedSocket x → Unprocessed s'.events s'.removedSocket x)
    (harmed : Armed s x out → Armed s' x out) : Watched s' g x out :=
  h.mono (fun hb => absurd hb hnot) hevents harmed

/-- The main thread goes on from a place that is not between, and only its own place changes. -/
theorem Awake.loopOn (h : Awake n s g x c) (hnot : ¬Between s g)
    (hflag : s'.own.closeFlag c = s.own.closeFlag c) (hstaging : s'.staging = s.staging)
    (hwanted : Wanted n s g → Wanted n s' g) (hrun : s'.run = s.run)
    (hevents : Unprocessed s.events s.removedSocket x → Unprocessed s'.events s'.removedSocket x)
    (harmed : ∀ out, Armed s x out → Armed s' x out) : Awake n s' g x c := by
  apply h.mono hflag _ hwanted
  · intro P hr
    unfold Running at *
    rwa [hrun]
  · intro hinserted
    exact absurd (.inl hinserted) hnot
  · intro out hwatched
    exact hwatched.goOn hnot hevents (harmed out)
  · intro _
    rw [hstaging]
    exact id

/-- The descriptor of another socket is detached. -/
theorem Armed.detach {y : Nat} (h : Armed s x out)
    (hpoller : s'.poller = s.poller.detach (s.own.fd y)) (hfd : s'.own.fd x = s.own.fd x)
    (hne : s.own.fd x ≠ s.own.fd y) : Armed s' x out := by
  obtain ⟨r, hr, hrest⟩ := h
  refine ⟨r, ?_, hrest⟩
  rwa [hpoller, hfd, EventPoller.registered_detach, Function.update_of_ne hne]

/-- Sockets that are open have different descriptors. -/
theorem Owned.fd_ne {own : Ownership} (h : Owned sockets connections own) {y : Nat}
    (hentry : own.entry g = some (x, c)) (hy : y ∈ sockets) (hfresh : ¬own.Fresh y)
    (hne : x ≠ y) : own.fd x ≠ own.fd y := by
  have hx := h.inv.mem_sockets hentry
  have hxfresh := h.inv.not_fresh hentry
  intro heq
  exact hne (h.registry.fd x hx y hy (fun hp => hxfresh (.inl hp)) (fun hp => hfresh (.inl hp))
    (h.inv.fd_pos hx hxfresh) heq)

/-- The invariants that the wake-up argument rests on. -/
structure Sane (n : Nat) (sockets connections : Finset Nat) (s : Server) : Prop where
  owned : Owned sockets connections s.own
  watch : Watch sockets s.own s.poller s.events s.removedSocket s.loop
  runs : Runs n s.own s.queue s.run
  calls : Calls n s.own s.call s.lock
  sends : Sends n s.own s.staging s.run

theorem sane_step (h : Sane n sockets connections s) (hstep : Step n sockets s s') :
    Sane n sockets connections s' where
  owned := owned_step h.owned hstep
  watch := watch_step h.owned h.watch (fun w g x c b hrun =>
    h.runs.pair w g (x, c) (by rw [hrun]; rfl) (by rw [hrun]; rfl)) hstep
  runs := runs_step h.runs hstep
  calls := calls_step h.owned h.runs h.calls hstep
  sends := sends_step h.owned h.runs h.calls h.sends hstep

/-- The main thread is in its accept loop or in `update_wait_remove`, not between. -/
theorem Sane.not_between (h : Sane n sockets connections s) (hmain : s.own.main ≠ .free) :
    ¬Between s g := by
  have hplace := h.watch.hand hmain
  rintro (hl | ⟨hup, hl⟩) <;>
    · rw [hl] at hplace
      cases hm : s.own.main <;> rw [hm] at hplace <;> cases hplace

/-! ## Calls -/

/-- A call on the gid of an entry is on its connection. -/
theorem Calls.connection_of_entry {own : Ownership} {call : Thread → Option Call}
    {lock : Nat → Option Holder} {t : Thread} {k : Call} (h : Calls n own call lock)
    (howned : Owned sockets connections own) (hk : call t = some k)
    (hentry : own.entry k.gid = some (x, c)) : k.connection = c := by
  rcases h.reaches t k hk with ⟨y, hy⟩ | ⟨-, w, y, -, hworker⟩
  · exact (Prod.mk.inj (Option.some.inj (hy.symm.trans hentry))).2
  · have hat : own.GidAt k.gid .entry := by simp [Ownership.GidAt, hentry]
    have hat' : own.GidAt k.gid (.erased w) := ⟨y, k.connection, hworker⟩
    exact GidPlace.noConfusion (howned.once.gidCustody.unique hat hat')

theorem Wanted.update {t : Thread} {v : Option Call} (h : Wanted n s g)
    (hqueue : Queued n s g → Queued n s' g) (hcall : s'.call = Function.update s.call t v)
    (hflag : s'.own.closeFlag = s.own.closeFlag)
    (hself : ∀ k, s.call t = some k → k.gid = g → k.Bound s.own.closeFlag →
      ∃ k', v = some k' ∧ k'.gid = g ∧ k'.Bound s.own.closeFlag) : Wanted n s' g :=
  h.imp hqueue fun hcalled => hcalled.update hcall hflag hself

theorem awake_callNext (h : Sane n sockets connections s) (hentry : s.own.entry g = some (x, c))
    (hawake : Awake n s g x c) {t : Thread} {k : Call} (hk : s.call t = some k) :
    Awake n (s.callNext n t k) g x c := by
  have hgid : c = k.connection → k.gid = g := by
    rintro rfl
    exact h.calls.gid_of_entry h.owned hk hentry
  cases hstage : k.stage with
  | write buffer =>
    -- a call that has written goes on to `do_task`; one that has not leaves the output as it is
    have hlater : ¬k.Bound s.own.closeFlag := by simp [Call.Bound, hstage]
    cases htask : ((s.staging k.connection).send k.gid (buffer.map (·.bytes))).1.doTask with
    | true =>
      simp only [callNext, hstage, htask, if_true]
      by_cases hg : k.gid = g
      · exact .of_wanted (.inr ⟨t, { k with stage := .task }, by simp [goOn], hg, trivial⟩)
      · have hne : c ≠ k.connection := fun heq => hg (hgid heq)
        refine hawake.mono rfl (fun _ hu => ?_) (fun hw => ?_) (fun _ => id) id (fun _ => id)
        · simpa [goOn, hne] using hu
        · exact hw.update id rfl rfl fun k' hk' hg' => by
            cases hk.symm.trans hk'
            exact absurd hg' hg
    | false =>
      simp only [callNext, hstage, htask, Bool.false_eq_true, if_false]
      refine hawake.mono rfl (fun hopen hu => ?_) (fun hw => ?_) (fun _ => id) id (fun _ => id)
      · by_cases hne : c = k.connection
        · subst hne
          have hsound := h.sends.entry g x _ hentry hopen
          have hsame := Staging.unsentOutput_send hsound (h.calls.gid_pos h.owned hk hentry)
            buffer htask
          simpa [finish, hsame] using hu
        · simpa [finish, hne] using hu
      · exact hw.update id rfl rfl fun k' hk' _ hbound => by
          cases hk.symm.trans hk'
          exact absurd hbound hlater
  | check =>
    cases hflag : s.own.closeFlag k.connection with
    | true =>
      simp only [callNext, hstage, hflag, if_true]
      refine hawake.mono rfl (fun _ => id) (fun hw => ?_) (fun _ => id) id (fun _ => id)
      exact hw.update id rfl rfl fun k' hk' _ hbound => by
        cases hk.symm.trans hk'
        simp [Call.Bound, hstage, hflag] at hbound
    | false =>
      simp only [callNext, hstage, hflag, Bool.false_eq_true, if_false]
      refine hawake.mono rfl (fun _ => id) (fun hw => ?_) (fun _ => id) id (fun _ => id)
      exact hw.update id rfl rfl fun k' hk' hg _ => by
        cases hk.symm.trans hk'
        exact ⟨_, rfl, hg, trivial⟩
  | set =>
    simp only [callNext, hstage]
    by_cases hg : k.gid = g
    · exact .of_wanted (.inr ⟨t, { k with stage := .clear }, by simp [goOn], hg, trivial⟩)
    · have hne : c ≠ k.connection := fun heq => hg (hgid heq)
      refine hawake.mono (by simp [goOn, hne]) (fun _ => id) ?_ (fun _ => id) id (fun _ => id)
      refine Or.imp id ?_
      rintro ⟨t', k', hk', hg', hbound⟩
      have ht : t' ≠ t := by
        rintro rfl
        cases hk.symm.trans hk'
        exact hg hg'
      -- the flag of the other call is not the one that is set
      have hconnection : k'.connection ≠ k.connection := by
        rw [h.calls.connection_of_entry h.owned hk' (hg' ▸ hentry)]
        exact hne
      refine ⟨t', k', by simpa [goOn, ht] using hk', hg', ?_⟩
      simp only [Call.Bound, goOn, Function.update_of_ne hconnection] at hbound ⊢
      exact hbound
  | clear =>
    simp only [callNext, hstage]
    refine hawake.mono rfl (fun hopen hu => ?_) (fun hw => ?_) (fun _ => id) id (fun _ => id)
    · have hne : c ≠ k.connection := by
        rintro rfl
        rw [h.calls.closing t k hk hstage] at hopen
        cases hopen
      simpa [goOn, hne] using hu
    · exact hw.update id rfl rfl fun k' hk' hg _ => by
        cases hk.symm.trans hk'
        exact ⟨_, rfl, hg, trivial⟩
  | task =>
    simp only [callNext, hstage]
    by_cases hg : k.gid = g
    · exact .of_wanted (.inl (hg ▸ queued_doTask h.runs k.gid))
    · refine hawake.mono rfl (fun _ => id) (fun hw => ?_) (fun _ => id) id (fun _ => id)
      exact hw.update (fun hq => hq.push _) rfl rfl fun k' hk' hg' => by
        cases hk.symm.trans hk'
        exact absurd hg' hg

/-! ## The main thread -/

/-- A descriptor that is disarmed has its socket in an event. -/
theorem awake_wait (h : Sane n sockets connections s) (hawake : Awake n s g x c)
    {reports : List Report} {events : List Event} {poller : EventPoller}
    (hloop : s.loop = .waiting) (hwait : s.poller.wait reports = some (events, poller)) :
    Awake n { s with poller, events, removedSocket := ∅, loop := .returned } g x c := by
  have hback := (EventPoller.reported_of_wait hwait).back
  refine hawake.mono rfl (fun _ => id) id (fun _ => id) (by simp [hloop]) fun out hwatched => ?_
  rcases hwatched with hbetween | ⟨-, hup, hmem⟩ | ⟨r, hr, hx, harmed, hout⟩
  · simp [Between, hloop] at hbetween
  · rw [h.watch.waiting hloop] at hmem
    cases hmem
  · obtain ⟨r', hr', hcase⟩ := hback _ r hr
    rcases hcase with rfl | hevent
    · exact .inr (.inr ⟨r', hr', hx, harmed, hout⟩)
    · exact .inr (.inl ⟨by simp, hx ▸ hevent⟩)

/-- The socket of the next event is detached; if it is that of an entry, its task comes next. -/
theorem awake_handle (h : Sane n sockets connections s) (hentry : s.own.entry g = some (x, c))
    (hawake : Awake n s g x c) {y : Nat} {hup : Bool} {events : List Event}
    (hloop : s.loop = .events) (hevents : s.events = .client y hup :: events)
    (hremoved : y ∉ s.removedSocket) :
    Awake n { s with
      poller := s.poller.detach (s.own.fd y)
      events
      loop := .detached (s.own.socketGid y) hup } g x c := by
  refine hawake.mono rfl (fun _ => id) id (fun _ => id) (by simp [hloop]) fun out hwatched => ?_
  by_cases hxy : x = y
  · subst hxy
    exact .inl (.inr ⟨hup, by rw [(h.owned.registry.entry g x c hentry).1]⟩)
  · obtain ⟨hy, hfresh⟩ : y ∈ sockets ∧ ¬s.own.Fresh y :=
      (h.watch.known y hup (by simp [hevents])).resolve_left hremoved
    refine hwatched.goOn (by simp [Between, hloop]) (fun ⟨hnot, hup', hmem⟩ => ⟨hnot, hup', ?_⟩)
      fun harmed => harmed.detach rfl rfl (h.owned.fd_ne hentry hy hfresh hxy)
    rw [hevents] at hmem
    rcases List.mem_cons.mp hmem with heq | hmem
    · exact absurd (Event.client.inj heq).1 hxy
    · exact hmem

/-- `do_task` of the main thread. -/
theorem awake_doTask (h : Sane n sockets connections s) (hawake : Awake n s g x c) {g' : Nat}
    (hloop : s.loop = .inserted g' ∨ s.loop = .detached g' false) :
    Awake n { s.doTask n g' with loop := .events } g x c := by
  by_cases hg : g = g'
  · subst hg
    exact .of_wanted (.inl (queued_doTask h.runs g))
  · have hnot : ¬Between s g := by
      rcases hloop with hl | hl <;> simp [Between, hl, Ne.symm hg]
    have hwanted : Wanted n s g → Wanted n { s.doTask n g' with loop := .events } g :=
      Or.imp (fun hq => hq.push _) id
    exact hawake.loopOn hnot rfl rfl hwanted rfl id (fun _ => id)

/-- `mark_close` of the main thread begins. If the connection is closed already there is a task or
a run that removes it. -/
theorem awake_lookup (hentry : s.own.entry g = some (x, c)) (hawake : Awake n s g x c)
    {g' x' c' : Nat} {lock : Nat → Option Holder} (hloop : s.loop = .detached g' true)
    (hcall : s.call .main = none) (hentry' : s.own.entry g' = some (x', c')) :
    Awake n { s with
      loop := .events
      lock
      call := Function.update s.call .main (some ⟨g', c', true, .check⟩) } g x c := by
  have hwanted : Wanted n s g → Wanted n { s with
      loop := .events
      lock
      call := Function.update s.call .main (some ⟨g', c', true, .check⟩) } g := fun hw =>
    hw.update id rfl rfl fun k hk => by rw [hcall] at hk; cases hk
  by_cases hg : g = g'
  · subst hg
    obtain ⟨rfl, rfl⟩ := Prod.mk.inj (Option.some.inj (hentry.symm.trans hentry'))
    cases hflag : s.own.closeFlag c with
    | false => exact .of_wanted (.inr ⟨.main, ⟨g, c, true, .check⟩, by simp, rfl, hflag⟩)
    | true =>
      rcases hawake.closed hflag with hw | hrun | hins
      · exact .of_wanted (hwanted hw)
      · exact .of_early hrun
      · rw [hloop] at hins
        cases hins
  · have hnot : ¬Between s g := by simp [Between, hloop, Ne.symm hg]
    exact hawake.loopOn hnot rfl rfl hwanted rfl id (fun _ => id)

/-- Another socket is closed. -/
theorem awake_close (h : Sane n sockets connections s) (hentry : s.own.entry g = some (x, c))
    (hawake : Awake n s g x c) {pos y : Nat} (hmain : s.own.main = .removing pos y) :
    Awake n { s with
      own := { s.own with fd := Function.update s.own.fd y 0, main := .closed pos y }
      poller := s.poller.detach (s.own.fd y) } g x c := by
  obtain ⟨hy, hfresh⟩ := h.owned.inv.fresh_of_removing hmain
  have hxy : x ≠ y := by
    rintro rfl
    exact h.owned.inv.not_closing hentry (by rw [hmain]; rfl)
  refine hawake.mono rfl (fun _ => id) id (fun _ => id) id fun out hwatched => ?_
  exact hwatched.mono id id fun harmed =>
    harmed.detach rfl (by simp [hxy]) (h.owned.fd_ne hentry hy hfresh hxy)

/-! ## The workers -/

/-- A step of a worker whose run is of another gid. -/
theorem Awake.other (h : Awake n s g x c) {pc : RunPc} (hgid : (s.run w).gid ≠ some g)
    (hrun : s'.run = Function.update s.run w pc)
    (hflag : s'.own.closeFlag c = s.own.closeFlag c) (hstaging : s'.staging c = s.staging c)
    (hwanted : Wanted n s g → Wanted n s' g) (hloop : s'.loop = s.loop)
    (hwatched : ∀ out, Watched s g x out → Watched s' g x out) : Awake n s' g x c :=
  h.mono hflag (by rw [hstaging]; exact fun _ => id) hwanted
    (fun _ hr => hr.update hrun hgid) (by rw [hloop]; exact id) hwatched

/-- The worker of the entry begins a run, or has not come to its test of `close_flag`. -/
theorem Awake.begins {pc : RunPc} (hw : g % n = w) (hrun : s'.run = Function.update s.run w pc)
    (hgid : pc.gid = some g) (hearly : pc.early = true) : Awake n s' g x c := by
  have hself : s'.run (g % n) = pc := by rw [hrun, hw, Function.update_self]
  apply Awake.of_early
  constructor
  · rw [hself]
    exact hgid
  · rw [hself]
    exact hearly

/-- The run of the entry goes on behind its test of `close_flag`. -/
theorem Awake.goOn (h : Awake n s g x c) {pc : RunPc} (hw : g % n = w)
    (hearly : (s.run w).early = false) (hrun : s'.run = Function.update s.run w pc)
    (hgid : pc.gid = some g) (hflag : s'.own.closeFlag c = s.own.closeFlag c)
    (hwanted : Wanted n s g → Wanted n s' g) (hloop : s'.loop = s.loop)
    (hstranded : s'.own.closeFlag c = false → (s'.staging c).unsentOutput ≠ [] →
      pc.busy = true ∨ Wanted n s' g ∨ Watched s' g x true) : Awake n s' g x c where
  closed hc := by
    rw [hflag] at hc
    rcases h.closed hc with hwant | ⟨-, hear⟩ | hins
    · exact .inl (hwanted hwant)
    · rw [hw, hearly] at hear
      cases hear
    · exact .inr (.inr (by rw [hloop]; exact hins))
  deaf := .inr (.inl ⟨by rw [hrun, hw, Function.update_self]; exact hgid, rfl⟩)
  stranded hc hu := by
    rcases hstranded hc hu with hbusy | hwant | hwatched
    · refine .inr (.inl ⟨?_, ?_⟩) <;> rw [hrun, hw, Function.update_self]
      · exact hgid
      · exact hbusy
    · exact .inl hwant
    · exact .inr (.inr hwatched)

/-- The worker of the entry enters `mark_close`. If the connection is closed already there is a
task that removes it, or there will be. -/
theorem Awake.markClose (h : Awake n s g x c) (hw : g % n = w) (hearly : (s.run w).early = false)
    (hcall : s'.call = Function.update s.call (.worker w) (some ⟨g, c, false, .check⟩))
    (hflag : s'.own.closeFlag = s.own.closeFlag) (hwanted : Wanted n s g → Wanted n s' g)
    (hloop : s'.loop = s.loop) : Awake n s' g x c := by
  cases hclosed : s.own.closeFlag c with
  | false =>
    refine .of_wanted (.inr ⟨.worker w, ⟨g, c, false, .check⟩, by simp [hcall], rfl, ?_⟩)
    simpa [Call.Bound, hflag] using hclosed
  | true =>
    rcases h.closed hclosed with hwant | ⟨-, hear⟩ | hins
    · exact .of_wanted (hwanted hwant)
    · rw [hw, hearly] at hear
      cases hear
    · exact .of_inserted (by rw [hloop]; exact hins)

/-- The socket of the run is attached and the run ends. -/
theorem awake_attach (h : Sane n sockets connections s) (hentry : s.own.entry g = some (x, c))
    (hawake : Awake n s g x c) {g' x' c' : Nat} {listenSend : Bool}
    (hrun : s.run w = .attaching g' x' c' listenSend) :
    Awake n { s with
      poller := s.poller.attach (s.own.fd x') x' listenSend
      run := Function.update s.run w .idle } g x c := by
  obtain ⟨hentry', hw⟩ := h.runs.found (w := w) (by rw [hrun]; rfl) (by rw [hrun]; rfl)
  have hx' := h.owned.inv.mem_sockets hentry'
  have hfresh := h.owned.inv.not_fresh hentry'
  have hcases := EventPoller.attach_cases h.watch.coherent (s.own.fd x') x' listenSend
  by_cases hg : g' = g
  · subst hg
    obtain ⟨rfl, rfl⟩ := Prod.mk.inj (Option.some.inj (hentry.symm.trans hentry'))
    -- behind `attach` the descriptor is armed, or the main thread has an event of it
    have harmed : ∀ out, (out = true → listenSend = true ∨ Watched s g' x true) →
        Watched { s with
          poller := s.poller.attach (s.own.fd x) x listenSend
          run := Function.update s.run w .idle } g' x out := by
      intro out hout
      rcases hcases with ⟨r, hr, hrout, hsame⟩ | ⟨hnot, hset⟩
      · have hsocket := h.watch.socket_of_fd h.owned hx' hfresh hr
        rcases h.watch.armed _ r hr with hon | hevent | hclosing
        · exact .inr (.inr ⟨r, by rw [hsame]; exact hr, hsocket, hon, fun _ => hrout⟩)
        · exact .inr (.inl (hsocket ▸ hevent))
        · exact absurd (hsocket ▸ hclosing) (h.owned.inv.not_closing hentry)
      · cases ho : out with
        | false => exact .inr (.inr ⟨_, by rw [hset]; exact EventPoller.registered_set_self .., rfl, rfl, by simp⟩)
        | true =>
          rcases hout ho with hlisten | hbetween | hevent | ⟨r, hr, -, -, hrout⟩
          · exact .inr (.inr ⟨_, by rw [hset]; exact EventPoller.registered_set_self .., rfl, rfl,
              fun _ => hlisten⟩)
          · exact .inl hbetween
          · exact .inr (.inl hevent)
          · rw [hnot r hr] at hrout
            exact absurd (hrout rfl) (by simp)
    refine ⟨fun hc => ?_, .inr (.inr (harmed false (by simp))), fun hc hu => ?_⟩
    · rcases hawake.closed hc with hwant | ⟨-, hearly⟩ | hins
      · exact .inl hwant
      · rw [hw, hrun] at hearly
        cases hearly
      · exact .inr (.inr hins)
    · rcases hawake.stranded hc hu with hwant | ⟨-, hbusy⟩ | hwatched
      · exact .inl hwant
      · rw [hw, hrun] at hbusy
        exact .inr (.inr (harmed true fun _ => .inl hbusy))
      · exact .inr (.inr (harmed true fun _ => .inr hwatched))
  · have hxx : x ≠ x' := by
      rintro rfl
      exact hg (h.owned.inv.socket_inj hentry' hentry)
    have hfd := h.owned.fd_ne hentry hx' hfresh hxx
    refine hawake.other (by rw [hrun]; simpa [RunPc.gid] using hg) rfl rfl rfl id rfl
      fun out hwatched => hwatched.mono id id fun ⟨r, hr, hrest⟩ => ⟨r, ?_, hrest⟩
    rcases hcases with ⟨-, -, -, hsame⟩ | ⟨-, hset⟩
    · rw [hsame]
      exact hr
    · rw [hset, EventPoller.registered_set_of_ne _ _ hfd]
      exact hr

/-- A step of `buf2sock`. Where it comes to the callback nothing is left to send. -/
theorem awake_send (h : Sane n sockets connections s) (hentry : s.own.entry g = some (x, c))
    (hawake : Awake n s g x c) {g' x' c' : Nat} {pc pc' : Staging.Buf2sockPc}
    {o : Staging.Outside} {st : Staging} {taken : Bytes}
    (hrun : s.run w = .sending g' x' c' pc)
    (hstep : (s.staging c').buf2sockStep o pc = (st, pc', taken))
    (hpc : ∀ ret closed, pc' ≠ .done ret closed) :
    Awake n { s with
      staging := Function.update s.staging c' st
      run := Function.update s.run w (.sending g' x' c' pc') } g x c := by
  obtain ⟨hentry', hw⟩ := h.runs.found (w := w) (by rw [hrun]; rfl) (by rw [hrun]; rfl)
  by_cases hg : g' = g
  · subst hg
    obtain ⟨rfl, rfl⟩ := Prod.mk.inj (Option.some.inj (hentry.symm.trans hentry'))
    refine hawake.goOn hw (by rw [hrun]; rfl) rfl rfl rfl id rfl fun hopen hu => .inl ?_
    simp only [Function.update_self] at hu
    have hsound := h.sends.entry g' x c hentry hopen
    rw [hw, hrun, RunPc.place, if_pos rfl] at hsound
    cases pc' with
    | callback =>
      refine absurd ?_ hu
      have hleft := Staging.unsentOutput_of_end hsound o ?_ ?_ (.inl (by rw [hstep]))
      · rwa [hstep] at hleft
      · rintro rfl
        cases hstep
      · rintro ret closed rfl
        cases hstep
    | done ret closed => exact absurd rfl (hpc ret closed)
    | _ => rfl
  · have hcc : c ≠ c' := by
      rintro rfl
      exact hg (h.owned.inv.connection_inj hentry' hentry)
    exact hawake.other (by rw [hrun]; simpa [RunPc.gid] using hg) rfl rfl (by simp [hcc]) id rfl
      fun _ => id

/-- `buf2sock` returns. Where it returns false nothing is left to send, or a callback was asked,
and then the output that is left is taken care of already. -/
theorem awake_sent (h : Sane n sockets connections s) (hentry : s.own.entry g = some (x, c))
    (hawake : Awake n s g x c) {g' x' c' : Nat} {pc : Staging.Buf2sockPc} {o : Staging.Outside}
    {st : Staging} {taken : Bytes} {ret : Bool} (hrun : s.run w = .sending g' x' c' pc)
    (hstep : (s.staging c').buf2sockStep o pc = (st, .done ret false, taken)) :
    Awake n { s with
      staging := Function.update s.staging c' st
      run := Function.update s.run w (.attaching g' x' c' ret) } g x c := by
  obtain ⟨hentry', hw⟩ := h.runs.found (w := w) (by rw [hrun]; rfl) (by rw [hrun]; rfl)
  by_cases hg : g' = g
  · subst hg
    obtain ⟨rfl, rfl⟩ := Prod.mk.inj (Option.some.inj (hentry.symm.trans hentry'))
    refine hawake.goOn hw (by rw [hrun]; rfl) rfl rfl rfl id rfl fun hopen hu => ?_
    simp only [Function.update_self] at hu
    cases ret with
    | true => exact .inl rfl
    | false =>
      by_cases hasked : (RunPc.sending g' x c pc).busy = false
      · -- the staging areas are as before
        have hsame : st = s.staging c := by
          cases pc with
          | callback => exact (congrArg Prod.fst hstep).symm
          | done ret closed => exact (congrArg Prod.fst hstep).symm
          | _ => exact absurd hasked (by simp [RunPc.busy])
        rw [hsame] at hu
        rcases hawake.stranded hopen hu with hwant | ⟨-, hbusy⟩ | hwatched
        · exact .inr (.inl hwant)
        · rw [hw, hrun, hasked] at hbusy
          cases hbusy
        · exact .inr (.inr hwatched)
      · have hsound := h.sends.entry g' x c hentry hopen
        rw [hw, hrun, RunPc.place, if_pos rfl] at hsound
        refine absurd ?_ hu
        have hleft := Staging.unsentOutput_of_end hsound o ?_ ?_ (.inr (by rw [hstep]))
        · rwa [hstep] at hleft
        · rintro rfl
          exact hasked rfl
        · rintro ret closed rfl
          exact hasked rfl
  · have hcc : c ≠ c' := by
      rintro rfl
      exact hg (h.owned.inv.connection_inj hentry' hentry)
    exact hawake.other (by rw [hrun]; simpa [RunPc.gid] using hg) rfl rfl (by simp [hcc]) id rfl
      fun _ => id

/-- A call without the lock begins on a thread that is in none. -/
theorem Wanted.start {t : Thread} {v : Option Call} (h : Wanted n s g) (hnone : s.call t = none)
    (hqueue : Queued n s g → Queued n s' g) (hcall : s'.call = Function.update s.call t v)
    (hflag : s'.own.closeFlag = s.own.closeFlag) : Wanted n s' g :=
  h.update hqueue hcall hflag fun k hk => by
    rw [hnone] at hk
    cases hk

/-- A worker asks for its connection to be closed, in its run or behind it. -/
theorem awake_fail (h : Sane n sockets connections s) (hentry : s.own.entry g = some (x, c))
    (hawake : Awake n s g x c) {g' x' c' : Nat} {st : Staging} {pc : RunPc}
    (hcall : s.call (.worker w) = none) (hgid : (s.run w).gid = some g')
    (hpair : (s.run w).pair = some (x', c')) (hearly : (s.run w).early = false) :
    Awake n ({ s with
      staging := Function.update s.staging c' st
      run := Function.update s.run w pc }.markClose w g' c') g x c := by
  obtain ⟨hentry', hw⟩ := h.runs.found hgid hpair
  by_cases hg : g' = g
  · subst hg
    obtain ⟨rfl, rfl⟩ := Prod.mk.inj (Option.some.inj (hentry.symm.trans hentry'))
    exact hawake.markClose hw hearly rfl rfl (fun hwant => hwant.start hcall id rfl rfl) rfl
  · have hcc : c ≠ c' := by
      rintro rfl
      exact hg (h.owned.inv.connection_inj hentry' hentry)
    exact hawake.other (by rw [hgid]; simpa using hg) rfl rfl (by simp [Server.markClose, hcc])
      (fun hwant => hwant.start hcall id rfl rfl) rfl fun _ => id

/-! ## All steps -/

theorem awake_step (h : Sane n sockets connections s)
    (hall : ∀ g x c, s.own.entry g = some (x, c) → Awake n s g x c)
    (hstep : Step n sockets s s') (hsane' : Sane n sockets connections s')
    (hentry' : s'.own.entry g = some (x, c)) : Awake n s' g x c := by
  cases hstep with
  | wait hloop hwait => exact awake_wait h (hall g x c hentry') hloop hwait
  | updateWaitRemove hloop hown =>
    cases hown
    refine (hall g x c hentry').mono rfl (fun _ => id) id (fun _ => id) (by simp [hloop]) ?_
    exact fun out hwatched => hwatched.goOn (by simp [Between, hloop]) id id
  | @take _ pos y hmain hget hown =>
    have hxy : x ≠ y := by
      rintro rfl
      cases hown with
      | take hmain' hget' =>
        obtain rfl := MainHand.updating.inj (hmain.symm.trans hmain')
        obtain rfl := Option.some.inj (hget.symm.trans hget')
        exact hsane'.owned.inv.not_closing hentry' rfl
    cases hown
    refine (hall g x c hentry').mono rfl (fun _ => id) id (fun _ => id) id fun out hwatched => ?_
    exact hwatched.mono id (fun ⟨hnot, hevent⟩ => ⟨by simp [hxy, hnot], hevent⟩) id
  | close hmain hown =>
    cases hown with
    | skip hmain' hfd =>
      obtain ⟨-, rfl⟩ := MainHand.removing.inj (hmain.symm.trans hmain')
      obtain ⟨hmem, hnot⟩ := h.owned.inv.fresh_of_removing hmain
      exact absurd (h.owned.inv.fd_pos hmem hnot) (not_lt.mpr hfd)
    | close hmain' hfd =>
      obtain ⟨rfl, rfl⟩ := MainHand.removing.inj (hmain.symm.trans hmain')
      rw [if_neg hfd]
      exact awake_close h hentry' (hall g x c hentry') hmain
  | clear hown =>
    cases hown with
    | clear hmain hend =>
      have hnot := h.not_between (g := g) (by simp [hmain])
      exact (hall g x c hentry').loopOn hnot rfl rfl id rfl id (fun _ => id)
  | @accept _ y g' fd hloop hgid hnew hfd hown =>
    cases hown with
    | accept hmain hpool hpos =>
      have hxy : x ≠ y := by
        rintro rfl
        exact h.owned.inv.not_fresh hentry' (.inl hpool)
      refine (hall g x c hentry').mono rfl (fun _ => id) id (fun _ => id) id ?_
      refine fun out hwatched => hwatched.mono id id fun ⟨r, hr, hrest⟩ => ⟨r, ?_, hrest⟩
      simpa [hxy] using hr
  | @create _ c' hown =>
    cases hown with
    | create hmain hpool =>
      have hcc : c ≠ c' := by
        rintro rfl
        exact h.owned.inv.connection_not_mem_pool hentry' hpool
      refine (hall g x c hentry').mono (by simp [hcc]) (fun _ hu => ?_) (Or.imp id ?_)
        (fun _ => id) id (fun _ => id)
      · simpa [hcc] using hu
      · rintro ⟨t, k, hk, hg, hbound⟩
        refine ⟨t, k, hk, hg, hbound.mono fun hopen => ?_⟩
        simp only [Function.update_apply]
        split
        · rfl
        · exact hopen
  | @insert _ y c' g' hmain hown =>
    have hnot := h.not_between (g := g) (by simp [hmain])
    cases hown with
    | insert hmain' hnew =>
      obtain ⟨-, -, rfl⟩ := MainHand.holding.inj (hmain.symm.trans hmain')
      rw [if_pos hnew]
      by_cases hg : g = g'
      · exact .of_inserted (by rw [hg])
      · have hentry : s.own.entry g = some (x, c) := by simpa [hg] using hentry'
        exact (hall g x c hentry).loopOn hnot rfl rfl id rfl id (fun _ => id)
    | insertFailed hmain' hold =>
      exact (hall g x c hentry').loopOn hnot rfl rfl id rfl id (fun _ => id)
  | moving ha hown =>
    cases ha <;> cases hown <;>
      exact (hall g x c hentry').mono rfl (fun _ => id) id (fun _ => id) id (fun _ => id)
  | acceptDone hevents =>
    refine (hall g x c hentry').mono rfl (fun _ => id) id (fun _ => id) id fun out hwatched => ?_
    refine hwatched.mono id (fun ⟨hnot, hup, hmem⟩ => ⟨hnot, hup, ?_⟩) id
    simpa [hevents] using hmem
  | skip hevents hremoved =>
    refine (hall g x c hentry').mono rfl (fun _ => id) id (fun _ => id) id fun out hwatched => ?_
    refine hwatched.mono id (fun ⟨hnot, hup, hmem⟩ => ⟨hnot, hup, ?_⟩) id
    rw [hevents] at hmem
    rcases List.mem_cons.mp hmem with heq | hmem
    · cases heq
      exact absurd hremoved hnot
    · exact hmem
  | handle hloop hmain hevents hremoved =>
    exact awake_handle h hentry' (hall g x c hentry') hloop hevents hremoved
  | doTask hloop => exact awake_doTask h (hall g x c hentry') hloop
  | lookup hloop hcall hlock hentry =>
    exact awake_lookup (s := s) hentry' (hall g x c hentry') hloop hcall hentry
  | @lookupFailed g' hloop hentry =>
    have hg : g ≠ g' := by
      rintro rfl
      rw [hentry] at hentry'
      cases hentry'
    have hnot : ¬Between s g := by simp [Between, hloop, Ne.symm hg]
    exact (hall g x c hentry').loopOn hnot rfl rfl id rfl id (fun _ => id)
  | endBatch hloop hmain hevents =>
    have hnot : ¬Between s g := by simp [Between, hloop]
    exact (hall g x c hentry').loopOn hnot rfl rfl id rfl id (fun _ => id)
  | @pop w g' rest hrun hqueue =>
    have hw : g' % n = w := h.runs.queued w g' (by simp [hqueue])
    by_cases hg : g' = g
    · subst hg
      exact .begins hw rfl rfl rfl
    · refine (hall g x c hentry').other (by simp [hrun, RunPc.gid]) rfl rfl rfl (Or.imp ?_ id) rfl
        (fun _ => id)
      intro hq
      unfold Queued at *
      by_cases hv : g % n = w
      · rw [hv] at hq ⊢
        simpa [hqueue, Ne.symm hg] using hq
      · simpa only [Function.update_of_ne hv]
  | @find w g' x' c' hrun hentry =>
    by_cases hg : g' = g
    · subst hg
      have hw : g' % n = w := h.runs.gid w g' (by rw [hrun]; rfl)
      exact .begins hw rfl rfl rfl
    · exact (hall g x c hentry').other (by simpa [hrun, RunPc.gid] using hg) rfl rfl rfl id rfl
        (fun _ => id)
  | @findFailed w g' hrun hentry =>
    have hg : g' ≠ g := by
      rintro rfl
      rcases hentry with rfl | hnone
      · exact absurd (h.owned.registry.entry 0 x c hentry').2 (Nat.lt_irrefl 0)
      · rw [hnone] at hentry'
        cases hentry'
    exact (hall g x c hentry').other (by simpa [hrun, RunPc.gid] using hg) rfl rfl rfl id rfl
      (fun _ => id)
  | @checkClosed _ w g' x' c' hrun hown =>
    by_cases hg : g' = g
    · subst hg
      have hw : g' % n = w := h.runs.gid w g' (by rw [hrun]; rfl)
      exact .begins hw rfl rfl rfl
    · cases hown
      exact (hall g x c hentry').other (by simpa [hrun, RunPc.gid] using hg) rfl rfl rfl id rfl
        (fun _ => id)
  | @checkOpen w g' x' c' hrun hopen =>
    by_cases hg : g' = g
    · subst hg
      obtain ⟨hentry, hw⟩ := h.runs.found (w := w) (by rw [hrun]; rfl) (by rw [hrun]; rfl)
      obtain ⟨rfl, rfl⟩ := Prod.mk.inj (Option.some.inj (hentry'.symm.trans hentry))
      refine ⟨fun hc => ?_, .inr (.inl ⟨by simp [hw, RunPc.gid], rfl⟩),
        fun _ _ => .inr (.inl ⟨by simp [hw, RunPc.gid], by simp [hw, RunPc.busy]⟩)⟩
      rw [hopen] at hc
      cases hc
    · exact (hall g x c hentry').other (by simpa [hrun, RunPc.gid] using hg) rfl rfl rfl id rfl
        (fun _ => id)
  | erase hcall hrun hlock hentry hown =>
    cases hown with
    | @erase _ g' x' c' hworker hold =>
      have hg : g ≠ g' := by
        rintro rfl
        simp at hentry'
      exact (hall g x c (by simpa [hg] using hentry')).mono rfl (fun _ => id) id (fun _ => id) id
        (fun _ => id)
    | eraseFailed hworker hnone =>
      exact (hall g x c hentry').mono rfl (fun _ => id) id (fun _ => id) id (fun _ => id)
  | @eraseFailed _ w g' hrun hentry hown =>
    cases hown with
    | erase hworker hold =>
      rw [h.runs.removing_inj hrun (by rw [hworker]; rfl), hold] at hentry
      cases hentry
    | eraseFailed hworker hnone =>
      have hg : g' ≠ g := by
        rintro rfl
        rw [hentry] at hentry'
        cases hentry'
      exact (hall g x c hentry').other (by simpa [hrun, RunPc.gid] using hg) rfl rfl rfl id rfl
        (fun _ => id)
  | hook hcall hown =>
    cases hown
    exact (hall g x c hentry').mono rfl (fun _ => id) id (fun _ => id) id (fun _ => id)
  | @pushWaitRemove _ w g' hcall hrun hown =>
    cases hown with
    | @pushWaitRemove _ g'' y hworker =>
      obtain rfl := h.runs.removing_inj hrun (by rw [hworker]; rfl)
      have hg : g' ≠ g := by
        rintro rfl
        have hat : s.own.GidAt g' .entry := by simpa [Ownership.GidAt] using
          (show s.own.entry g' ≠ none by rw [hentry']; simp)
        have hat' : s.own.GidAt g' (.released w) := ⟨y, hworker⟩
        exact GidPlace.noConfusion (h.owned.once.gidCustody.unique hat hat')
      exact (hall g x c hentry').other (by simpa [hrun, RunPc.gid] using hg) rfl rfl rfl id rfl
        (fun _ => id)
  | @receive w g' x' c' st pc hcall hrun hsame hpc =>
    have hgid : (s.run w).gid = some g' := by rcases hrun with hr | hr <;> rw [hr] <;> rfl
    have hpair : (s.run w).pair = some (x', c') := by rcases hrun with hr | hr <;> rw [hr] <;> rfl
    obtain ⟨hentry, hw⟩ := h.runs.found hgid hpair
    by_cases hg : g' = g
    · subst hg
      refine (hall g' x c hentry').goOn hw (by rcases hrun with hr | hr <;> rw [hr] <;> rfl) rfl
        (by rcases hpc with rfl | rfl <;> rfl) rfl id rfl fun _ _ => .inl ?_
      rcases hpc with rfl | rfl <;> rfl
    · have hcc : c ≠ c' := by
        rintro rfl
        exact hg (h.owned.inv.connection_inj hentry hentry')
      exact (hall g x c hentry').other (by simpa [hgid] using hg) rfl rfl (by simp [hcc]) id rfl
        (fun _ => id)
  | @fail w g' x' c' st hcall hrun hsame =>
    have hgid : (s.run w).gid = some g' := by rcases hrun with hr | hr <;> rw [hr] <;> rfl
    have hpair : (s.run w).pair = some (x', c') := by rcases hrun with hr | hr <;> rw [hr] <;> rfl
    have hearly : (s.run w).early = false := by rcases hrun with hr | hr <;> rw [hr] <;> rfl
    exact awake_fail (s := s) h hentry' (hall g x c hentry') hcall hgid hpair hearly
  | @again w g' x' c' hrun =>
    by_cases hg : g' = g
    · subst hg
      exact .of_wanted (.inl (queued_doTask h.runs g'))
    · exact (hall g x c hentry').other (by simpa [hrun, RunPc.gid] using hg) rfl rfl rfl
        (Or.imp (fun hq => hq.push _) id) rfl (fun _ => id)
  | @processed w g' x' c' hcall hrun =>
    by_cases hg : g' = g
    · subst hg
      have hw : g' % n = w := h.runs.gid w g' (by rw [hrun]; rfl)
      exact (hall g' x c hentry').goOn hw (by rw [hrun]; rfl) rfl rfl rfl id rfl
        fun _ _ => .inl rfl
    · exact (hall g x c hentry').other (by simpa [hrun, RunPc.gid] using hg) rfl rfl rfl id rfl
        (fun _ => id)
  | send hcall hrun hstep hpc => exact awake_send h hentry' (hall g x c hentry') hrun hstep hpc
  | sent hcall hrun hstep => exact awake_sent h hentry' (hall g x c hentry') hrun hstep
  | @sendFailed w g' x' c' _ _ _ _ _ hcall hrun hstep =>
    have hpair : (s.run w).pair = some (x', c') := by rw [hrun]; rfl
    exact awake_fail (s := s) h hentry' (hall g x c hentry') hcall (by rw [hrun]; rfl) hpair
      (by rw [hrun]; rfl)
  | attach hcall hrun => exact awake_attach h hentry' (hall g x c hentry') hrun
  | start hcall hlock hentry =>
    exact (hall g x c hentry').mono rfl (fun _ => id) (fun hw => hw.start hcall id rfl rfl)
      (fun _ => id) id (fun _ => id)
  | startOwn hcall hhook =>
    exact (hall g x c hentry').mono rfl (fun _ => id) (fun hw => hw.start hcall id rfl rfl)
      (fun _ => id) id (fun _ => id)
  | @call t k hcall =>
    have hentry : s.own.entry g = some (x, c) := by
      rcases s.own_callNext (n := n) t k with heq | ⟨-, heq⟩ <;> rwa [heq] at hentry'
    exact awake_callNext h hentry (hall g x c hentry) hcall

/-! ## Runs -/

theorem sane_start {own : Ownership} (staging : Nat → Staging)
    (hown : (Ownership.system .streamTask sockets connections).init own) :
    Sane n sockets connections (start own staging) := by
  obtain ⟨fd, socketGid, closeFlag, rfl⟩ := hown
  refine ⟨⟨Ownership.inv_start fd socketGid closeFlag,
    Ownership.registry_start fd socketGid closeFlag, List.nodup_nil,
    Ownership.once_start fd socketGid closeFlag⟩, ?_, ?_, ?_, ?_⟩
  · exact ⟨EventPoller.coherent_new, by simp [start, EventPoller.new], by simp [start],
      by simp [start, Ownership.start, MainHand.closing], by simp [start, EventPoller.new],
      fun _ => rfl, fun hmain => absurd rfl hmain⟩
  · exact ⟨by simp [start, TaskQueue.new], by simp [start, TaskQueue.new],
      by simp [start, RunPc.gid], by simp [start, RunPc.gid],
      by simp [start, Ownership.start, WorkerHand.subject, WorkerHand.gid]⟩
  · exact ⟨by simp [start], by simp [start], by simp [start], by simp [start],
      by simp [start, Ownership.start, WorkerHand.gid]⟩
  · exact ⟨by simp [start, Ownership.start], by simp [start, Ownership.start]⟩

theorem awake_reachable (h : (system n sockets connections).Reachable s) :
    Sane n sockets connections s ∧ ∀ g x c, s.own.entry g = some (x, c) → Awake n s g x c := by
  refine h.invariant (P := fun s => Sane n sockets connections s ∧
    ∀ g x c, s.own.entry g = some (x, c) → Awake n s g x c) ?_ fun t a t' _ hold hnext => ?_
  · rintro t ⟨own, staging, hown, rfl⟩
    refine ⟨sane_start staging hown, fun g x c hentry => ?_⟩
    obtain ⟨fd, socketGid, closeFlag, rfl⟩ := hown
    cases hentry
  · obtain ⟨hsane, hawake⟩ := hold
    have hstep := step_of_next hnext
    have hsane' := sane_step hsane hstep
    exact ⟨hsane', fun g x c hentry => awake_step hsane hawake hstep hsane' hentry⟩

/-- What takes care of a connection in the map. -/
def Attended (n : Nat) (s : Server) (g x c : Nat) : Prop :=
  Queued n s g ∨ (s.run (g % n)).gid = some g ∨ Unprocessed s.events s.removedSocket x ∨
    Between s g ∨ Called s g ∨
    Armed s x false ∧
      (s.own.closeFlag c = false → (s.staging c).unsentOutput ≠ [] → Armed s x true)

theorem Awake.attended (h : Awake n s g x c) : Attended n s g x c := by
  by_cases hwant : Wanted n s g
  · exact hwant.elim .inl fun hcalled => .inr (.inr (.inr (.inr (.inl hcalled))))
  by_cases hrun : (s.run (g % n)).gid = some g
  · exact .inr (.inl hrun)
  by_cases hevent : Unprocessed s.events s.removedSocket x
  · exact .inr (.inr (.inl hevent))
  by_cases hbetween : Between s g
  · exact .inr (.inr (.inr (.inl hbetween)))
  -- then nothing but the descriptor is left
  have harmed : ∀ out P, Wanted n s g ∨ Running n s g P ∨ Watched s g x out → Armed s x out := by
    rintro out P (hw | hr | hb | he | ha)
    · exact absurd hw hwant
    · exact absurd hr.1 hrun
    · exact absurd hb hbetween
    · exact absurd he hevent
    · exact ha
  exact .inr (.inr (.inr (.inr (.inr ⟨harmed _ _ h.deaf, fun hopen hu =>
    harmed _ _ (h.stranded hopen hu)⟩))))

/-- In every state that is reached each connection of the map has a task queued or running, an
event or a call that leads to a task, or it is armed, for `EPOLLOUT` too if output is left. -/
theorem no_connection_deaf (h : (system n sockets connections).Reachable s)
    (hentry : s.own.entry g = some (x, c)) : Attended n s g x c :=
  ((awake_reachable h).2 g x c hentry).attended

/-- A client is accepted, its first task is run, and the server waits. -/
def firstTask : List Action :=
  [.main (.wait [.listen]), .main .updateWaitRemove, .main .clear, .main (.accept 1 9 7),
    .main (.create 4), .main .insert, .main .doTask, .main .acceptDone, .main .endBatch,
    .worker 0 .pop, .worker 0 .find, .worker 0 .check, .worker 0 (.recv []),
    .worker 0 .processed] ++
    List.replicate 3 (.worker 0 (.send ⟨.failed .eagain, false⟩)) ++ [.worker 0 .attach]

theorem no_connection_deaf_firstTask :
    ∃ s, (system 1 {1} {4}).Reachable s ∧ s.own.entry 7 = some (1, 4) ∧ s.run 0 = .idle ∧
      (s.queue 0).task = [] ∧ Attended 1 s 7 1 4 := by
  have hexec : ((system 1 {1} {4}).exec
      (start (Ownership.start {1} {4} (fun _ => 0) (fun _ => 0) fun _ => false)
        fun _ => .new fun _ => 0) firstTask).map
      (fun s => (s.own.entry 7, s.run 0, (s.queue 0).task)) =
        some (some (1, 4), .idle, []) := by decide +kernel
  obtain ⟨s, hs, hobserved⟩ := Option.map_eq_some_iff.mp hexec
  simp only [Prod.mk.injEq] at hobserved
  obtain ⟨hentry, hrun, hqueue⟩ := hobserved
  have hstart : (system 1 {1} {4}).Reachable
      (start (Ownership.start {1} {4} (fun _ => 0) (fun _ => 0) fun _ => false)
        fun _ => .new fun _ => 0) := .start ⟨_, _, ⟨_, _, _, rfl⟩, rfl⟩
  have hreach := hstart.run (.of_exec hs)
  exact ⟨s, hreach, hentry, hrun, hqueue, no_connection_deaf hreach hentry⟩

end Server

end Tubekit
