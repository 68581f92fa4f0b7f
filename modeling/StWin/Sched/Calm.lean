import StWin.Sched.Interrupt

/-!
# Steps that leave the condition variables of the program alone

Whatever the state, only `st_cond_timedwait` links a thread on the wait queue of a condition variable
of the program and unlinks it, and only the clock sets the flag `TIMEDOUT`. All the other steps are
`Calm`. A calm step does not touch a pollq either once a dispatch pass has taken it off the I/O queue:
only its own thread will look at it.
-/

namespace StWin.St

/-- From `s` to `s'` no wait queue of a condition variable of the program has changed, nobody has timed
out, and no pollq that is off the I/O queue has changed. -/
structure Calm (s s' : St) : Prop where
  timedout : ∀ t, (s'.thread t).flags.timedout = true → (s.thread t).flags.timedout = true
  cond_q : ∀ n, s'.cond_q (.user n) = s.cond_q (.user n)
  ev : Ev.Kept s.ev s'.ev

namespace Calm

/-- Nothing has been done. -/
theorem refl (s : St) : Calm s s := ⟨fun _ h => h, fun _ => rfl, .refl s.ev⟩

/-- One after the other. -/
theorem trans {s s' s'' : St} (h : Calm s s') (h' : Calm s' s'') : Calm s s'' :=
  ⟨fun t ht => h.timedout t (h'.timedout t ht), fun n => (h'.cond_q n).trans (h.cond_q n),
    h.ev.trans h'.ev⟩

/-- Only the event system has changed, if anything. -/
theorem of_ev {s s' : St} (hth : s'.thread = s.thread) (hq : s'.cond_q = s.cond_q)
    (hev : Ev.Kept s.ev s'.ev) : Calm s s' :=
  ⟨fun t => by rw [hth]; exact id, fun n => by rw [hq], hev⟩

/-- The records, the wait queues and the event system are as they were. -/
theorem of_eq {s s' : St} (hth : s'.thread = s.thread) (hq : s'.cond_q = s.cond_q)
    (hev : s'.ev = s.ev) : Calm s s' :=
  .of_ev hth hq (by rw [hev]; exact .refl s.ev)

/-- An assignment to one record. -/
theorem of_update {s s' : St} {t : ℕ} {th : Thread} (hth : s'.thread = Function.update s.thread t th)
    (hq : ∀ n, s'.cond_q (.user n) = s.cond_q (.user n)) (hev : s'.ev = s.ev)
    (hflag : th.flags.timedout = true → (s.thread t).flags.timedout = true) : Calm s s' := by
  refine ⟨fun u hu => ?_, hq, by rw [hev]; exact .refl s.ev⟩
  rw [hth] at hu
  by_cases hut : u = t
  · rw [hut, Function.update_self] at hu
    rw [hut]
    exact hflag hu
  · rw [Function.update_of_ne hut] at hu
    exact hu

end Calm

section calm

variable {s s' : St}

/-- `_st_vp_schedule` is calm. -/
theorem vpSchedule_calm (s : St) : Calm s s.vpSchedule := by
  obtain ⟨t, q, f, heq⟩ := s.vpSchedule_turns
  rw [heq]
  exact .of_update rfl (fun _ => rfl) rfl id

/-- The end of every wait: set the place to continue, and schedule. -/
theorem Calm.schedule {s₁ : St} (h : Calm s s₁) (pc : Pc) : Calm s (s₁.setPc pc).vpSchedule := by
  have h' : Calm s (s₁.setPc pc) := h.trans (Calm.of_eq rfl rfl rfl)
  exact h'.trans (vpSchedule_calm _)

/-- An assignment of a state is calm. -/
theorem setState_calm (s : St) (t : ℕ) (state : TState) : Calm s (s.setState t state) :=
  .of_update rfl (fun _ => rfl) rfl id

/-- `_ST_ADD_SLEEPQ` is calm. -/
theorem addSleepQ_calm {t timeout : ℕ} (h : s.addSleepQ t timeout = some s') : Calm s s' := by
  obtain ⟨heap, -, rfl⟩ := Option.map_eq_some_iff.mp h
  exact .of_update rfl (fun _ => rfl) rfl id

/-- To make a thread runnable is calm. -/
theorem wake_calm {t : ℕ} (h : s.wake t = some s') : Calm s s' := by
  unfold wake leaveSleepQ at h
  obtain ⟨s₁, hs₁, rfl⟩ := Option.map_eq_some_iff.mp h
  have h₁ : Calm s s₁ := by
    split_ifs at hs₁
    · obtain ⟨heap, -, rfl⟩ := Option.map_eq_some_iff.mp hs₁
      exact .of_update rfl (fun _ => rfl) rfl id
    · cases hs₁
      exact .refl s
  exact h₁.trans (.of_update rfl (fun _ => rfl) rfl id)

/-- The return with `EINTR` at the start of a call is calm. -/
theorem eintr_calm (s : St) (me : ℕ) : Calm s (s.eintr me) := .of_update rfl (fun _ => rfl) rfl id

/-- `st_poll` up to the switch is calm, since its pollq is a new one. -/
theorem poll_calm {pds : List Pollfd} {timeout : ℕ} (hev : s.ev.Counted)
    (h : s.poll pds timeout = some s') :
    Calm s s' := by
  cases poll_paths h with
  | outside _ eq => exact eq ▸ .of_eq rfl rfl rfl
  | interrupted me _ _ eq => exact eq ▸ s.eintr_calm me
  | waits me s₁ _ _ sleeps eq =>
    have h₀ : Calm s (s.setEv (s.ev.register me pds)) :=
      .of_ev rfl rfl (Ev.register_kept hev me pds)
    have h₁ : Calm s s₁ := h₀.trans (addSleepQ_calm sleeps)
    exact eq ▸ (h₁.trans (s₁.setState_calm me .IO_WAIT)).schedule _

/-- `st_usleep` is calm. -/
theorem usleep_calm {usecs : ℕ} (h : s.usleep usecs = some s') : Calm s s' := by
  cases usleep_paths h with
  | stays _ eq => exact eq ▸ (Calm.refl s).schedule _
  | interrupted me _ _ eq => exact eq ▸ s.eintr_calm me
  | sleeps me s₁ _ _ _ _ _ sleeps eq =>
    have h₁ : Calm s s₁ := (s.setState_calm me .SLEEPING).trans (addSleepQ_calm sleeps)
    exact eq ▸ h₁.schedule _
  | suspends me _ _ eq => exact eq ▸ (s.setState_calm me .SUSPENDED).schedule _

/-- The wait queue of a termination condition variable is not one of the program. -/
theorem setCondQ_term (s : St) (k : ℕ) (l : List ℕ) (n : ℕ) :
    (s.setCondQ (.term k) l).cond_q (.user n) = s.cond_q (.user n) :=
  Function.update_of_ne (show Cond.user n ≠ Cond.term k by simp) l s.cond_q

/-- A wait on a termination condition variable. -/
theorem condBlock_calm {me k timeout : ℕ} {pc : Pc}
    (h : s.condBlock me (.term k) timeout pc = some s') : Calm s s' := by
  obtain ⟨s₁, rfl, hs₁⟩ := condBlock_paths h
  have h₀ : Calm s (s.linkCond me (.term k)) :=
    .of_update rfl (fun n => setCondQ_term _ k _ n) rfl id
  have h₁ : Calm s s₁ := by
    rcases hs₁ with ⟨-, hs₁⟩ | ⟨-, rfl⟩
    · exact h₀.trans (addSleepQ_calm hs₁)
    · exact h₀
  exact h₁.schedule _

/-- `st_mutex_lock` up to the switch is calm. -/
theorem mutexLock_calm {m : ℕ} (h : s.mutexLock m = some s') : Calm s s' := by
  cases mutexLock_paths h with
  | returns r eq => exact eq ▸ .of_eq rfl rfl rfl
  | interrupted me _ _ eq => exact eq ▸ s.eintr_calm me
  | locks me _ eq => exact eq ▸ .of_eq rfl rfl rfl
  | waits me _ eq =>
    have h₁ : Calm s (((s.setState me .LOCK_WAIT).setWaitQ m
        ((s.mutex m).wait_q ++ [me])).note (.lockWait m me)) :=
      (s.setState_calm me .LOCK_WAIT).trans (Calm.of_eq rfl rfl rfl)
    exact eq ▸ h₁.schedule _

/-- The loop of `st_thread_join` is calm. -/
theorem joinLoop_calm {k t : ℕ} (h : s.joinLoop (.term k) t = some s') : Calm s s' := by
  cases joinLoop_paths h with
  | joined _ eq => exact eq ▸ .of_update rfl (fun _ => rfl) rfl id
  | interrupted me _ eq => exact eq ▸ s.eintr_calm me
  | waits me _ blocks => exact condBlock_calm blocks

/-- `st_thread_join` up to the switch is calm. -/
theorem threadJoin_calm {t : ℕ} (hterm : ∀ c, (s.thread t).term = some c → ∃ k, c = .term k)
    (h : s.threadJoin t = some s') : Calm s s' := by
  rcases threadJoin_paths h with ⟨r, rfl⟩ | ⟨c, hc, -, h⟩
  · exact .of_eq rfl rfl rfl
  · obtain ⟨k, rfl⟩ := hterm c hc
    exact joinLoop_calm h

/-- `st_poll` after the switch is calm. -/
theorem pollEnd_calm {me q : ℕ} (h : s.pollEnd me q = some s') : Calm s s' := by
  have h₀ : Calm s (s.setEv (s.ev.unregister q)) := .of_ev rfl rfl (Ev.unregister_kept s.ev q)
  rcases pollEnd_paths h with rfl | ⟨n, rfl⟩
  · exact h₀.trans (eintr_calm _ me)
  · exact h₀.trans (.of_eq rfl rfl rfl)

/-- The end of a wait on a termination condition variable. -/
theorem condUnblock_calm (s : St) (me k : ℕ) : Calm s (s.condUnblock me (.term k)).1 := by
  have h₀ : Calm s (s.setCondQ (.term k) ((s.cond_q (.term k)).erase me)) :=
    ⟨fun _ h => h, fun n => setCondQ_term s k _ n, .refl s.ev⟩
  refine h₀.trans (.of_update rfl (fun _ => rfl) rfl fun h => ?_)
  cases h

/-- `st_thread_join` after a wait in its loop is calm. -/
theorem joinEnd_calm {me k t : ℕ} (h : s.joinEnd me (.term k) t = some s') : Calm s s' := by
  have h₀ := s.condUnblock_calm me k
  rcases joinEnd_paths h with ⟨e, rfl⟩ | h
  · exact h₀.trans (.of_eq rfl rfl rfl)
  · exact h₀.trans (joinLoop_calm h)

/-- `st_mutex_lock` after the switch is calm. -/
theorem mutexLockEnd_calm (s : St) (me m : ℕ) : Calm s (s.mutexLockEnd me m) := by
  unfold mutexLockEnd
  dsimp only
  split_ifs
  · exact .of_update rfl (fun _ => rfl) rfl id
  · exact .of_eq rfl rfl rfl

/-- `st_mutex_trylock` is calm. -/
theorem mutexTrylock_calm (s : St) (m : ℕ) : Calm s (s.mutexTrylock m) := by
  unfold mutexTrylock
  dsimp only
  split_ifs
  · exact .of_eq rfl rfl rfl
  · split <;> exact .of_eq rfl rfl rfl

/-- `st_mutex_unlock` is calm. -/
theorem mutexUnlock_calm (s : St) (m : ℕ) : Calm s (s.mutexUnlock m) := by
  by_cases howner : (s.mutex m).owner = s.this_thread
  · rw [mutexUnlock_eq howner]
    split
    · exact .of_update rfl (fun _ => rfl) rfl id
    · exact .of_eq rfl rfl rfl
  · unfold mutexUnlock
    rw [if_pos howner]
    exact .of_eq rfl rfl rfl

/-- The loop of `_st_cond_signal` is calm: who is woken stays on the wait queue. -/
theorem condSignalLoop_calm (broadcast : Bool) (q : List ℕ) : ∀ {s s' : St},
    condSignalLoop broadcast q s = some s' → Calm s s' := by
  induction q with
  | nil =>
    intro s s' h
    cases h
    exact .refl s
  | cons t q ih =>
    intro s s' h
    rw [condSignalLoop] at h
    split_ifs at h
    · obtain ⟨s₁, hs₁, h⟩ := Option.bind_eq_some_iff.mp h
      exact (wake_calm hs₁).trans (ih h)
    · obtain ⟨s₁, hs₁, h⟩ := Option.bind_eq_some_iff.mp h
      cases h
      exact wake_calm hs₁
    · exact ih h

/-- A dispatch pass is calm. -/
theorem vpIdle_calm {outcomes : ℕ → SelectOutcome} (hev : s.ev.Counted)
    (h : s.vpIdle outcomes = some s') : Calm s s' := by
  have h₀ : Calm s (s.setEv (s.ev.dispatch outcomes).1) :=
    .of_ev rfl rfl (Ev.dispatch_kept hev outcomes)
  exact h₀.trans (wakeAll_induct Calm.refl Calm.trans wake_calm (s.ev.dispatch outcomes).2 h)

/-- `st_thread_interrupt` is calm: who is woken stays on its wait queue. -/
theorem threadInterrupt_calm {t : ℕ} (h : s.threadInterrupt t = some s') : Calm s s' := by
  have h₀ : Calm s (s.setFlags t fun fl => { fl with interrupt := true }) :=
    .of_update rfl (fun _ => rfl) rfl id
  rcases threadInterrupt_paths h with rfl | rfl | h
  · exact .refl s'
  · exact h₀
  · exact h₀.trans (wake_calm h)

/-- A switch of fibers is calm. -/
theorem switchContext_calm (s : St) (t : ℕ) : Calm s (s.switchContext t) := by
  unfold switchContext
  split <;> exact .of_eq rfl rfl rfl

/-- The end of `st_thread_exit` is calm. -/
theorem exitFree_calm (s : St) (t : ℕ) (explicit : Bool) : Calm s (s.exitFree t explicit) := by
  unfold exitFree
  dsimp only
  refine Calm.trans ?_ (switchContext_calm _ t)
  split_ifs <;> exact .of_eq rfl rfl rfl

/-- The return from `st_thread_exit` is calm. -/
theorem exitReturn_calm (s : St) (explicit : Bool) : Calm s (s.exitReturn explicit) := by
  unfold exitReturn
  split_ifs <;> exact .of_eq rfl rfl rfl

/-- The start of `st_thread_exit` is calm. -/
theorem enterExit_calm (s : St) (t : ℕ) (retval : ℤ) : Calm s (s.enterExit t retval) :=
  .of_update (enterExit_thread s t retval) (fun _ => rfl) rfl id

/-- `st_thread_exit` up to its first switch is calm. -/
theorem threadExit_calm {retval : ℤ} {explicit : Bool} (h : s.threadExit retval explicit = some s') :
    Calm s s' := by
  cases threadExit_paths h with
  | outside _ eq => exact eq ▸ s.exitReturn_calm explicit
  | frees t _ _ eq => exact eq ▸ (s.enterExit_calm t retval).trans (exitFree_calm _ t explicit)
  | signals t c s₁ _ _ signal eq =>
    have h₀ : Calm s { s.enterExit t retval with zombie_q := s.zombie_q ++ [t] } :=
      (s.enterExit_calm t retval).trans (.of_eq rfl rfl rfl)
    have h₁ : Calm s (s₁.setPc (.exitTerm t explicit)) :=
      (h₀.trans (condSignalLoop_calm false _ signal)).trans (.of_eq rfl rfl rfl)
    exact eq ▸ h₁.trans (switchContext_calm _ t)

/-- `st_thread_exit` after its first switch is calm. -/
theorem exitTermEnd_calm {t : ℕ} {explicit : Bool} (h : s.exitTermEnd t explicit = some s') :
    Calm s s' := by
  obtain ⟨c, s₁, -, hs₁, rfl⟩ := exitTermEnd_paths h
  refine Calm.trans ?_ (exitFree_calm _ t explicit)
  rcases hs₁ with rfl | ⟨rfl, -⟩
  · exact .of_update rfl (fun _ => rfl) rfl id
  · exact .of_update rfl (fun _ => rfl) rfl id

/-- The last statement of the loop of `_st_idle_thread_start` is calm. -/
theorem idleSched_calm (h : s.idleSched = some s') : Calm s s' := by
  have h₀ : Calm s s.readyIdle := by
    unfold readyIdle
    split_ifs
    · exact s.setState_calm _ .RUNNABLE
    · exact .refl s
  rcases idleSched_paths h with ⟨-, retval, h⟩ | ⟨-, rfl⟩
  · exact h₀.trans (threadExit_calm h)
  · exact h₀.schedule _

/-- The record on the new stack has no flags, and a new condition variable is a termination condition
variable. -/
theorem threadCreate_calm (s : St) (start : Pc) (joinable : Bool) (stk_size : ℤ) (ok : Acquire) :
    Calm s (s.threadCreate start joinable stk_size ok).1 := by
  unfold threadCreate
  cases hnew : s.stackNew (s.stackSize stk_size) ok.stack with
  | none => exact .refl s
  | some new =>
    obtain ⟨t, s₁⟩ := new
    obtain ⟨free, sizes, seg, rfl⟩ := stackNew_eq hnew
    dsimp only
    -- The record is cleared, and then the thread is started unless a call has failed.
    have h₀ : ∀ s₁ : St, s₁.thread = s.thread → s₁.cond_q = s.cond_q →
        s₁.ev = s.ev → Calm s (s₁.initThread t start ok.fiber) := by
      intro s₁ hth hq hev
      have hnew : Calm s s₁ := .of_eq hth hq hev
      refine hnew.trans (.of_update rfl (fun _ => rfl) rfl fun h => ?_)
      cases h
    have hstart : ∀ s₁ : St, Calm s s₁ → Calm s (s₁.startThread t) := by
      intro s₁ h₁
      exact h₁.trans (.of_update rfl (fun _ => rfl) rfl id)
    split_ifs
    · refine hstart _ ((h₀ _ rfl rfl rfl).trans ?_)
      exact .of_update rfl (fun n => setCondQ_term s s.terms [] n) rfl id
    · exact (h₀ _ rfl rfl rfl).trans (.of_eq rfl rfl rfl)
    · exact hstart _ (h₀ _ rfl rfl rfl)

/-- Any call but `st_cond_timedwait`. -/
theorem call_calm {c : Call} (h : s.Linked) (hev : s.ev.Counted)
    (hne : ∀ n timeout, c ≠ .condTimedwait n timeout)
    (hcall : s.call c = some s') : Calm s s' := by
  cases c with
  | poll pds timeout => exact poll_calm hev hcall
  | usleep usecs => exact usleep_calm hcall
  | condTimedwait n timeout => exact absurd rfl (hne n timeout)
  | condSignal n =>
    obtain ⟨s₁, hs₁, rfl⟩ := Option.map_eq_some_iff.mp hcall
    exact (condSignalLoop_calm false _ hs₁).trans (.of_eq rfl rfl rfl)
  | condBroadcast n =>
    obtain ⟨s₁, hs₁, rfl⟩ := Option.map_eq_some_iff.mp hcall
    exact (condSignalLoop_calm true _ hs₁).trans (.of_eq rfl rfl rfl)
  | mutexLock m => exact mutexLock_calm hcall
  | mutexTrylock m =>
    cases hcall
    exact s.mutexTrylock_calm m
  | mutexUnlock m =>
    cases hcall
    exact s.mutexUnlock_calm m
  | interrupt t =>
    simp only [call] at hcall
    split_ifs at hcall
    obtain ⟨s₁, hs₁, rfl⟩ := Option.map_eq_some_iff.mp hcall
    exact (threadInterrupt_calm hs₁).trans (.of_eq rfl rfl rfl)
  | create joinable stk_size ok =>
    obtain ⟨r, hs'⟩ := call_create_eq hcall
    rw [hs']
    exact (s.threadCreate_calm _ joinable stk_size ok).trans (.of_eq rfl rfl rfl)
  | join t =>
    -- What `st_thread_join` waits on is not a condition variable of the program.
    simp only [call] at hcall
    split_ifs at hcall
    refine threadJoin_calm (fun c hc => ?_) hcall
    obtain ⟨⟨k, -, rfl⟩, -⟩ := h.term t c hc
    exact ⟨k, rfl⟩
  | exit retval => exact threadExit_calm hcall
  | idleRun =>
    simp only [call] at hcall
    split_ifs at hcall
    cases hcall
    exact .of_eq rfl rfl rfl

/-- Who times out stays on the wait queue. -/
theorem checkClockLoop_cond_q (now fuel : ℕ) : ∀ {s s' : St},
    checkClockLoop now fuel s = some s' → s'.cond_q = s.cond_q := by
  induction fuel with
  | zero =>
    intro s s' h
    cases h
  | succ fuel ih =>
    intro s s' h
    rw [checkClockLoop] at h
    split at h
    · cases h
      rfl
    · split_ifs at h
      · cases h
        rfl
      · obtain ⟨s₁, hs₁, h⟩ := Option.bind_eq_some_iff.mp h
        obtain ⟨heap, -, rfl⟩ := Option.map_eq_some_iff.mp hs₁
        rw [ih h]
        split_ifs <;> rfl

/-- Any step but a pass of the clock, a call of `st_cond_timedwait`, and the end of one. -/
theorem step_calm {l : Label} (h : s.Linked) (hev : s.ev.Counted) (hstep : s.step l = some s')
    (hclock : ∀ now, l ≠ .clock now) (hcall : ∀ n timeout, l ≠ .call (.condTimedwait n timeout))
    (hpc : ∀ me n, (s.fiber s.running).pc ≠ .condWait me (.user n)) : Calm s s' := by
  -- By the place of the fiber that runs.
  obtain ⟨pc, hat⟩ : ∃ pc, (s.fiber s.running).pc = pc := ⟨_, rfl⟩
  cases step_goes hat hstep with
  | call c hgo => exact call_calm h hev (fun n timeout heq => hcall n timeout (by rw [heq])) hgo
  | ret v _ hgo =>
    have h₀ : Calm s (s.note (.returned s.running v)) := .of_eq rfl rfl rfl
    exact h₀.trans (threadExit_calm hgo)
  | poll hgo => exact pollEnd_calm hgo
  | @condWait me c hgo =>
    -- Neither a user's condition variable nor that of a joiner.
    cases c with
    | user n => exact absurd hat (hpc me n)
    | term n => exact absurd hat (h.wait _ me n)
  | lock hgo =>
    rw [hgo]
    exact s.mutexLockEnd_calm _ _
  -- A join waits on the condition variable of a termination.
  | join hgo =>
    obtain ⟨⟨k, -, rfl⟩, -⟩ := h.join _ _ _ _ hat
    exact joinEnd_calm hgo
  | exitTerm hgo => exact exitTermEnd_calm hgo
  | exitEnd hgo =>
    rw [hgo]
    exact s.exitReturn_calm _
  | idleDispatch outcomes _ s₁ hgo eq =>
    rw [eq]
    exact (vpIdle_calm hev hgo).trans (.of_eq rfl rfl rfl)
  | idleEnd _ hgo => exact threadExit_calm hgo
  | idleClock now _ _ _ => exact absurd rfl (hclock now)
  | idleSched hgo => exact idleSched_calm hgo
  | nativeDispatch outcomes _ s₁ hgo eq =>
    rw [eq]
    exact (vpIdle_calm hev hgo).trans (.of_eq rfl rfl rfl)
  | nativeEnd _ eq =>
    rw [eq]
    exact .of_eq rfl rfl rfl
  | nativeClock now _ _ _ => exact absurd rfl (hclock now)
  | nativeSched eq =>
    rw [eq]
    exact (Calm.refl s).schedule _

/-- A pass of the clock is a statement of an idle loop. -/
theorem step_clock_eq {now : ℕ} (hstep : s.step (.clock now) = some s') :
    ∃ s₁ pc, s.vpCheckClock now = some s₁ ∧ s' = s₁.setPc pc ∧
      ∀ c, ¬((s.fiber s.running).pc).waitsOn c := by
  obtain ⟨pc, hpc⟩ : ∃ pc, (s.fiber s.running).pc = pc := ⟨_, rfl⟩
  rw [hpc]
  cases step_goes hpc hstep with
  | idleClock now s₁ hgo eq => exact ⟨s₁, _, hgo, eq, fun _ => id⟩
  | nativeClock now s₁ hgo eq => exact ⟨s₁, _, hgo, eq, fun _ => id⟩

/-- A pass of the clock leaves the wait queues alone, too. -/
theorem step_clock_cond_q {now : ℕ} (hstep : s.step (.clock now) = some s') :
    s'.cond_q = s.cond_q := by
  obtain ⟨s₁, pc, hs₁, rfl, -⟩ := step_clock_eq hstep
  have hq := checkClockLoop_cond_q now _ hs₁
  exact hq

end calm

end StWin.St
