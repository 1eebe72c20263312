import Tubekit.Connection.Pipeline
import Tubekit.Socket.Callers

/-!
# The send path inside the server

The invariant of the send path for every connection of the map that is not closed. The place in
`buf2sock` is that of the worker's run, while any thread may write to `m_wating_send_pack`. Where
`buf2sock` returns false without asking for the connection to be closed, nothing is left to send,
or a `write_end_callback` decided so.
-/

namespace Tubekit

namespace Staging

/-- What is queued for the socket outside of a call of `buf2sock`. -/
def unsentOutput (st : Staging) : Bytes := st.pending (.done false false)

variable {st st' : Staging} {pc : Buf2sockPc}

theorem SameSend.unsentOutput (h : st.SameSend st') : st'.unsentOutput = st.unsentOutput := by
  simp only [Staging.unsentOutput, pending, unsent, h.sendBuffer, h.watingSendPack,
    h.shouldSendIdx, h.shouldSendSize, h.buf2sockInnerBuffer]

theorem SameSend.sound (h : st.SameSend st') (hsound : st.Sound (.done false false)) :
    st'.Sound (.done false false) where
  sendWf := h.sendBuffer ▸ hsound.sendWf
  watingWf := h.watingSendPack ▸ hsound.watingWf
  watingLimit := h.watingSendPack ▸ hsound.watingLimit
  index := by rw [h.shouldSendIdx, h.shouldSendSize]; exact hsound.index
  place := trivial

/-- Outside of `buf2sock` nothing is asked of the place. -/
theorem Sound.leave (h : st.Sound pc) (ret closed : Bool) : st.Sound (.done ret closed) :=
  ⟨h.sendWf, h.watingWf, h.watingLimit, h.index, trivial⟩

theorem Sound.enter (h : st.Sound pc) : st.Sound .tag1 :=
  ⟨h.sendWf, h.watingWf, h.watingLimit, h.index, trivial⟩

/-- Only where `m_wating_send_pack` is empty does `buf2sock` come to an end by itself. -/
theorem reserve_of_end (out : Outside) (hpc : pc ≠ .callback)
    (hnot : ∀ ret closed, pc ≠ .done ret closed)
    (hend : (st.buf2sockStep out pc).2.1 = .callback ∨
      (st.buf2sockStep out pc).2.1 = .done false false) : ∃ n, pc = .reserve n := by
  cases pc with
  | reserve n => exact ⟨n, rfl⟩
  | callback => exact absurd rfl hpc
  | done ret closed => exact absurd rfl (hnot ret closed)
  | tag1 =>
    simp only [buf2sockStep] at hend
    split at hend
    · split at hend
      · simp at hend
      · split at hend <;> simp at hend
    · simp at hend
  | tag3 =>
    simp only [buf2sockStep] at hend
    split at hend <;> simp at hend
  | temp bytes =>
    simp only [buf2sockStep] at hend
    split at hend
    · simp at hend
    · split at hend <;> simp at hend
  | tag4 =>
    simp only [buf2sockStep] at hend
    rcases out with ⟨k | errno, callback⟩
    · cases k with
      | zero => simp [offer] at hend
      | succ k =>
        simp only [offer] at hend
        split at hend <;> simp at hend
    · cases errno <;> simp [offer] at hend

/-- `buf2sock` calls the callback, or returns false with `closed` unset, where nothing is left. -/
theorem unsentOutput_of_end (h : st.Sound pc) (out : Outside) (hpc : pc ≠ .callback)
    (hnot : ∀ ret closed, pc ≠ .done ret closed)
    (hend : (st.buf2sockStep out pc).2.1 = .callback ∨
      (st.buf2sockStep out pc).2.1 = .done false false) :
    (st.buf2sockStep out pc).1.unsentOutput = [] := by
  obtain ⟨n, rfl⟩ := reserve_of_end out hpc hnot hend
  obtain ⟨⟨hidx, -, hempty⟩, hpos, -, -⟩ := h.place
  obtain ⟨b, hRun, -, hC, -⟩ := Buffer.read_spec h.watingWf hpos
  obtain ⟨st', pc', hstep, -, hpending⟩ := buf2sockStep_pending h out (by simp)
  -- a block that is read goes to `temp_buffer` instead
  have hnone : st.watingSendPack.content = [] := by
    by_contra hne
    have htake : (st.watingSendPack.content.take n).length > 0 := by
      have hlen := List.length_pos_of_ne_nil hne
      rw [List.length_take]
      omega
    simp only [buf2sockStep, hRun, htake, if_true] at hend
    simp at hend
  have hflight : pc'.inFlight = [] := by
    rw [hstep] at hend
    rcases hend with rfl | rfl <;> rfl
  have hall : st.pending (.reserve n) = [] := by
    simp [pending, unsent_of_idle hidx, hempty, hnone, Buf2sockPc.inFlight]
  rw [hstep]
  simp only [unsentOutput, pending, hflight] at hpending ⊢
  simpa [Buf2sockPc.inFlight] using hpending.trans hall

/-- `send` returns true when it goes on to `do_task`. -/
theorem send_ret (st : Staging) (gid : Nat) (buffer : Option Bytes) :
    (st.send gid buffer).1.ret = (st.send gid buffer).1.doTask := by
  unfold send
  split
  · rfl
  · split
    · rfl
    · split <;> rfl

theorem sound_send (h : st.Sound pc) {gid : Nat} (hgid : 0 < gid) (buffer : Option MemoryBlock) :
    (st.send gid (buffer.map (·.bytes))).2.Sound pc := by
  refine (send_spec h hgid ?_).1
  cases buffer with
  | none => exact Nat.zero_le _
  | some block => exact block.fits

/-- A call of `send` that does not go on to `do_task` has added nothing. -/
theorem unsentOutput_send (h : st.Sound pc) {gid : Nat} (hgid : 0 < gid)
    (buffer : Option MemoryBlock) (htask : (st.send gid (buffer.map (·.bytes))).1.doTask = false) :
    (st.send gid (buffer.map (·.bytes))).2.unsentOutput = st.unsentOutput := by
  have hfits : ((buffer.map (·.bytes)).getD []).length ≤ maxObjectSize := by
    cases buffer with
    | none => exact Nat.zero_le _
    | some block => exact block.fits
  have hpending := (send_spec (h.leave false false) hgid hfits).2
  rw [send_ret, htask] at hpending
  simpa [unsentOutput] using hpending

end Staging

/-- The place of the run in `buf2sock` of the connection of this gid. -/
def RunPc.place (g : Nat) : RunPc → Staging.Buf2sockPc
  | .sending g' _ _ pc => if g' = g then pc else .done false false
  | _ => .done false false

namespace RunPc

theorem place_of_gid {pc : RunPc} {g : Nat} (h : pc.gid ≠ some g) :
    pc.place g = .done false false := by
  cases pc <;> simp_all [place, gid]

end RunPc

namespace Server

variable {n : Nat} {sockets connections : Finset Nat} {s s' : Server}

structure Sends (n : Nat) (own : Ownership) (staging : Nat → Staging) (run : Nat → RunPc) :
    Prop where
  entry : ∀ g x c, own.entry g = some (x, c) → own.closeFlag c = false →
    (staging c).Sound ((run (g % n)).place g)
  holding : ∀ x c g, own.main = .holding x c g → (staging c).Sound (.done false false)

variable {own own' : Ownership} {staging : Nat → Staging} {run : Nat → RunPc}
  {queue : Nat → TaskQueue} {call : Thread → Option Call} {lock : Nat → Option Holder}
  {t : Thread} {k : Call} {w g x c : Nat} {st : Staging} {pc : RunPc}

/-- A step of `Ownership` that puts no pair into the map and creates none. -/
theorem Sends.ownStep (h : Sends n own staging run)
    (hentry : ∀ g p, own'.entry g = some p → own.entry g = some p)
    (hflag : own'.closeFlag = own.closeFlag)
    (hmain : ∀ x c g, own'.main = .holding x c g → own.main = .holding x c g) :
    Sends n own' staging run :=
  ⟨fun g x c hg hc => h.entry g x c (hentry g _ hg) (by rwa [hflag] at hc),
    fun x c g hm => h.holding x c g (hmain x c g hm)⟩

/-- The worker of an entry goes on, and may change the staging areas of its connection. -/
theorem Sends.update (h : Sends n own staging run) (howned : Owned sockets connections own)
    (hentry : own.entry g = some (x, c)) (hw : g % n = w) (hgid : (run w).gid = some g)
    (hpc : pc.gid = none ∨ pc.gid = some g)
    (hsound : (staging c).Sound ((run w).place g) → st.Sound (pc.place g)) :
    Sends n own (Function.update staging c st) (Function.update run w pc) := by
  refine ⟨fun g' x' c' hg' hc' => ?_, fun x' c' g' hm => ?_⟩
  · by_cases hg : g' = g
    · subst hg
      obtain ⟨rfl, rfl⟩ := Prod.mk.inj (Option.some.inj (hentry.symm.trans hg'))
      rw [Function.update_self, hw, Function.update_self]
      have hold := h.entry g' x c hg' hc'
      rw [hw] at hold
      exact hsound hold
    · have hne : c' ≠ c := by
        rintro rfl
        exact hg (howned.inv.connection_inj hg' hentry)
      have hold := h.entry g' x' c' hg' hc'
      rw [Function.update_of_ne hne]
      by_cases hv : g' % n = w
      · rw [hv] at hold ⊢
        rw [RunPc.place_of_gid (by rw [hgid]; simpa using Ne.symm hg)] at hold
        rw [Function.update_self, RunPc.place_of_gid (by rcases hpc with hp | hp <;> rw [hp] <;> simp [Ne.symm hg])]
        exact hold
      · rwa [Function.update_of_ne hv]
  · have hne : c' ≠ c := by
      rintro rfl
      exact howned.inv.connection_ne_main hentry (by rw [hm]; rfl)
    rw [Function.update_of_ne hne]
    exact h.holding x' c' g' hm

/-- A worker goes on, and not inside `buf2sock`. -/
theorem Sends.goOn (h : Sends n own staging run) (hrun : ∀ g, (run w).place g = .done false false)
    (hpc : ∀ g, pc.place g = .done false false) :
    Sends n own staging (Function.update run w pc) := by
  refine ⟨fun g x c hg hc => ?_, h.holding⟩
  have hold := h.entry g x c hg hc
  by_cases hv : g % n = w
  · rw [hv] at hold ⊢
    rw [hrun] at hold
    rwa [Function.update_self, hpc]
  · rwa [Function.update_of_ne hv]

/-- The gid of a call is positive where its connection is in the map. -/
theorem Calls.gid_pos (h : Calls n own call lock) (howned : Owned sockets connections own)
    (hk : call t = some k) (hentry : own.entry g = some (x, k.connection)) : 0 < k.gid := by
  rw [h.gid_of_entry howned hk hentry]
  exact (howned.registry.entry g x k.connection hentry).2

theorem Calls.connection_ne_main (h : Calls n own call lock)
    (howned : Owned sockets connections own) (hk : call t = some k) :
    own.main.connection ≠ some k.connection := by
  rcases h.reaches t k hk with ⟨y, hentry⟩ | ⟨-, v, y, -, hworker⟩
  · exact howned.inv.connection_ne_main hentry
  · have hat : own.ConnectionAt k.connection (.worker v) := by
      simp [Ownership.ConnectionAt, hworker, WorkerHand.connection]
    exact fun hmain => ConnectionPlace.noConfusion
      (howned.inv.connectionCustody.unique (p := .main) hmain hat)

/-- A call changes the staging areas of its connection, if that is not closed, to sound ones. -/
theorem Sends.called (h : Sends n own staging run) (hcalls : Calls n own call lock)
    (howned : Owned sockets connections own) (hk : call t = some k)
    (hsound : own.closeFlag k.connection = false → 0 < k.gid → ∀ pc,
      (staging k.connection).Sound pc → st.Sound pc) :
    Sends n own (Function.update staging k.connection st) run := by
  refine ⟨fun g x c hg hc => ?_, fun x c g hm => ?_⟩
  · by_cases hne : c = k.connection
    · subst hne
      rw [Function.update_self]
      exact hsound hc (hcalls.gid_pos howned hk hg) _ (h.entry g x _ hg hc)
    · rw [Function.update_of_ne hne]
      exact h.entry g x c hg hc
  · have hne : c ≠ k.connection := by
      rintro rfl
      exact hcalls.connection_ne_main howned hk (by rw [hm]; rfl)
    rw [Function.update_of_ne hne]
    exact h.holding x c g hm

theorem sends_callNext (howned : Owned sockets connections s.own)
    (hcalls : Calls n s.own s.call s.lock) (h : Sends n s.own s.staging s.run)
    (hk : s.call t = some k) :
    Sends n (s.callNext n t k).own (s.callNext n t k).staging (s.callNext n t k).run := by
  unfold callNext
  split
  · rename_i buffer hstage
    have hwritten := h.called hcalls howned hk (fun _ hgid _ hsound =>
      Staging.sound_send hsound hgid buffer)
    dsimp only
    split <;> exact hwritten
  · split <;> exact h
  · refine ⟨fun g x c hg hc => h.entry g x c hg ?_, h.holding⟩
    by_cases hne : c = k.connection
    · simp [hne, goOn] at hc
    · simpa [hne, goOn] using hc
  · rename_i hstage
    refine h.called hcalls howned hk fun hopen => ?_
    rw [hcalls.closing t k hk hstage] at hopen
    cases hopen
  · exact h

/-- An entry and its worker, from the run. -/
theorem Runs.found (h : Runs n own queue run) (hgid : (run w).gid = some g)
    (hpair : (run w).pair = some (x, c)) : own.entry g = some (x, c) ∧ g % n = w :=
  ⟨h.pair w g _ hgid hpair, h.gid w g hgid⟩

theorem sends_step (howned : Owned sockets connections s.own)
    (hruns : Runs n s.own s.queue s.run) (hcalls : Calls n s.own s.call s.lock)
    (h : Sends n s.own s.staging s.run) (hstep : Step n sockets s s') :
    Sends n s'.own s'.staging s'.run := by
  cases hstep with
  | accept _ _ _ _ hown => cases hown; exact h.ownStep (by simp) rfl (by simp)
  | updateWaitRemove hloop hown => cases hown; exact h.ownStep (by simp) rfl (by simp)
  | take hmain hget hown => cases hown; exact h.ownStep (by simp) rfl (by simp)
  | close hmain hown => cases hown <;> exact h.ownStep (by simp) rfl (by simp)
  | clear hown => cases hown; exact h.ownStep (by simp) rfl (by simp)
  | @create own c hown =>
    cases hown with
    | @create x _ g hmain hpool =>
      refine ⟨fun g' x' c' hg' hc' => ?_, fun x' c' g' hm => ?_⟩
      · have hne : c' ≠ c := by
          rintro rfl
          exact howned.inv.connection_not_mem_pool hg' hpool
        simp only [Function.update_of_ne hne] at hc' ⊢
        exact h.entry g' x' c' hg' hc'
      · obtain ⟨-, rfl, -⟩ := MainHand.holding.inj hm
        simp only [Function.update_self]
        exact Staging.sound_reuse _ false false
  | insert hmain hown =>
    cases hown with
    | @insert x c g hmain' hnew =>
      refine ⟨fun g' x' c' hg' hc' => ?_, by simp⟩
      by_cases hg : g' = g
      · subst hg
        simp only [Function.update_self, Option.some.injEq, Prod.mk.injEq] at hg'
        obtain ⟨rfl, rfl⟩ := hg'
        -- no run has the pair yet
        have hplace : (s.run (g' % n)).place g' = .done false false := by
          cases hrun : s.run (g' % n) <;> try rfl
          rename_i g₀ x₀ c₀ pc
          by_cases hg₀ : g₀ = g'
          · subst hg₀
            have hpair := hruns.pair _ g₀ (x₀, c₀) (by rw [hrun]; rfl) (by rw [hrun]; rfl)
            rw [hnew] at hpair
            cases hpair
          · simp [RunPc.place, hg₀]
        rw [hplace]
        exact h.holding _ _ _ hmain'
      · exact h.entry g' x' c' (by simpa [hg] using hg') hc'
    | insertFailed hmain' hold => exact h.ownStep (by simp) rfl (by simp)
  | moving ha hown =>
    cases ha <;> cases hown <;> exact h.ownStep (by simp) rfl (by simp)
  | hook hcall hown => cases hown; exact h.ownStep (by simp) rfl (by simp)
  | pop hrun hqueue => exact h.goOn (by simp [hrun, RunPc.place]) (by simp [RunPc.place])
  | find hrun hentry => exact h.goOn (by simp [hrun, RunPc.place]) (by simp [RunPc.place])
  | findFailed hrun hentry => exact h.goOn (by simp [hrun, RunPc.place]) (by simp [RunPc.place])
  | @checkClosed _ w g x c hrun hown =>
    have hnext : Sends n s.own s.staging (Function.update s.run w (.removing g)) :=
      h.goOn (by simp [hrun, RunPc.place]) (by simp [RunPc.place])
    cases hown
    exact hnext.ownStep (by simp) rfl (by simp)
  | checkOpen hrun hclosed => exact h.goOn (by simp [hrun, RunPc.place]) (by simp [RunPc.place])
  | erase hcall hrun hlock hentry hown =>
    cases hown with
    | @erase _ g x c hworker hold =>
      refine h.ownStep (fun g' p hp => ?_) rfl (by simp)
      by_cases hg : g' = g
      · simp [hg] at hp
      · simpa [hg] using hp
    | eraseFailed hworker hnone => exact h.ownStep (by simp) rfl (by simp)
  | @eraseFailed _ w g hrun hentry hown =>
    have hnext : Sends n s.own s.staging (Function.update s.run w .idle) :=
      h.goOn (by simp [hrun, RunPc.place]) (by simp [RunPc.place])
    cases hown with
    | erase hworker hold =>
      rw [hruns.removing_inj hrun (by rw [hworker]; rfl), hold] at hentry
      cases hentry
    | eraseFailed hworker hnone => exact hnext.ownStep (by simp) rfl (by simp)
  | @pushWaitRemove _ w g hcall hrun hown =>
    have hnext : Sends n s.own s.staging (Function.update s.run w .idle) :=
      h.goOn (by simp [hrun, RunPc.place]) (by simp [RunPc.place])
    cases hown
    exact hnext.ownStep (by simp) rfl (by simp)
  | @receive w g x c _ pc hcall hrun hsame hpc =>
    have hgid : (s.run w).gid = some g := by rcases hrun with hr | hr <;> rw [hr] <;> rfl
    have hpair : (s.run w).pair = some (x, c) := by rcases hrun with hr | hr <;> rw [hr] <;> rfl
    have hout : (s.run w).place g = .done false false := by
      rcases hrun with hr | hr <;> rw [hr] <;> rfl
    have hout' : pc.place g = .done false false := by rcases hpc with rfl | rfl <;> rfl
    obtain ⟨hentry, hw⟩ := hruns.found hgid hpair
    refine h.update howned hentry hw hgid (.inr (by rcases hpc with rfl | rfl <;> rfl)) ?_
    rw [hout, hout']
    exact hsame.sound
  | @fail w g x c _ hcall hrun hsame =>
    have hgid : (s.run w).gid = some g := by rcases hrun with hr | hr <;> rw [hr] <;> rfl
    have hpair : (s.run w).pair = some (x, c) := by rcases hrun with hr | hr <;> rw [hr] <;> rfl
    have hout : (s.run w).place g = .done false false := by
      rcases hrun with hr | hr <;> rw [hr] <;> rfl
    obtain ⟨hentry, hw⟩ := hruns.found hgid hpair
    refine h.update howned hentry hw hgid (.inl rfl) ?_
    rw [hout]
    exact hsame.sound
  | again hrun => exact h.goOn (by simp [hrun, RunPc.place]) (by simp [RunPc.place])
  | @processed w g x c hcall hrun =>
    obtain ⟨hentry, hw⟩ := hruns.found (w := w) (by rw [hrun]; rfl) (by rw [hrun]; rfl)
    have hgid : (RunPc.sending g x c .tag1).gid = some g := rfl
    have hnext := h.update howned hentry hw (by rw [hrun]; rfl) (.inr hgid)
      fun hsound => by simpa [RunPc.place] using hsound.enter
    rwa [Function.update_eq_self] at hnext
  | @send w g x c out pc pc' st _ hcall hrun hstep hpc =>
    obtain ⟨hentry, hw⟩ := hruns.found (w := w) (by rw [hrun]; rfl) (by rw [hrun]; rfl)
    refine h.update howned hentry hw (by rw [hrun]; rfl) (.inr rfl) fun hsound => ?_
    have hnext := Staging.buf2sockStep_sound (by simpa [hrun, RunPc.place] using hsound) out
    rw [hstep] at hnext
    simpa [RunPc.place] using hnext
  | @sent w g x c out pc st _ ret hcall hrun hstep =>
    obtain ⟨hentry, hw⟩ := hruns.found (w := w) (by rw [hrun]; rfl) (by rw [hrun]; rfl)
    refine h.update howned hentry hw (by rw [hrun]; rfl) (.inr rfl) fun hsound => ?_
    have hnext := Staging.buf2sockStep_sound (by simpa [hrun, RunPc.place] using hsound) out
    rw [hstep] at hnext
    exact hnext.leave false false
  | @sendFailed w g x c out pc st _ ret hcall hrun hstep =>
    obtain ⟨hentry, hw⟩ := hruns.found (w := w) (by rw [hrun]; rfl) (by rw [hrun]; rfl)
    refine h.update howned hentry hw (by rw [hrun]; rfl) (.inr rfl) fun hsound => ?_
    have hnext := Staging.buf2sockStep_sound (by simpa [hrun, RunPc.place] using hsound) out
    rw [hstep] at hnext
    exact hnext.leave false false
  | attach hcall hrun => exact h.goOn (by simp [hrun, RunPc.place]) (by simp [RunPc.place])
  | call hcall => exact sends_callNext howned hcalls h hcall
  | _ => exact h

end Server

end Tubekit
