import StWin.Sched.Resume

/-!
# The calls on mutexes

`Locks` is what a step on the mutex `m` by the running thread `t` does for the other mutexes and for
the other threads that wait: a thread leaves `LOCK_WAIT` only when it is interrupted, or when it
becomes the owner.
-/

namespace StWin.St

/-- A step of `t` on the mutex `m`, which becomes `mx`, and which records the events `l`. -/
structure Locks (s s' : St) (m t : ℕ) (mx : Mutex) (l : List Note) : Prop where
  mutex : s'.mutex = Function.update s.mutex m mx
  log : s'.log = l ++ s.log
  waiter : ∀ u m', u ≠ t → s.Live u → s.pcOf u = .lock u m' → s'.pcOf u = .lock u m' ∧
    ((s'.thread u).state = .LOCK_WAIT → (s.thread u).state = .LOCK_WAIT) ∧
    ((s'.thread u).state ≠ .LOCK_WAIT → (s.thread u).state ≠ .LOCK_WAIT ∨
      (s'.thread u).flags.interrupt = true ∨ (m' = m ∧ mx.owner = some u)) ∧
    ((s.thread u).flags.interrupt = true → (s'.thread u).flags.interrupt = true)
  back : ∀ u m', u ≠ t → s'.Live u → s'.pcOf u = .lock u m' → s.pcOf u = .lock u m'
  live : ∀ u, s'.Live u ↔ s.Live u

/-- The running thread changes its own record and the mutex. -/
theorem Acts.locks {s s' : St} {t m : ℕ} {th : Thread} {pc : Pc} {mx : Mutex} {l : List Note}
    (ha : Acts s s' t th pc) (hr : s.Runs t) (hmutex : s'.mutex = Function.update s.mutex m mx)
    (hlog : s'.log = l ++ s.log) : Locks s s' m t mx l := by
  have hother : ∀ u, u ≠ t → s.Live u → s'.pcOf u = s.pcOf u := by
    intro u hu hl
    unfold pcOf
    rw [ha.id_eq, ha.pc_of_ne (hr.ne_running u hu hl)]
  refine ⟨hmutex, hlog, fun u m' hu hl hpc => ?_, fun u m' hu hl hpc => ?_, ha.live⟩
  · rw [hother u hu hl, ha.thread_of_ne hu]
    exact ⟨hpc, fun h => h, fun h => Or.inl h, fun h => h⟩
  · rwa [hother u hu ((ha.live u).mp hl)] at hpc

/-- A step of a mutex, and then one that is not. -/
theorem Locks.trans {s s' s'' : St} {m t : ℕ} {mx : Mutex} {l : List Note}
    (h : Locks s s' m t mx l) (h' : LockFrame s' s'') (hlives : SameLives s' s'')
    (hlog : s''.log = s'.log) : Locks s s'' m t mx l := by
  refine ⟨h'.mutex.trans h.mutex, hlog.trans h.log, fun u m' hu hl hpc => ?_,
    fun u m' hu hl hpc => ?_, fun u => (hlives.live u).trans (h.live u)⟩
  · obtain ⟨hpc₁, hin₁, hout₁, hint₁⟩ := h.waiter u m' hu hl hpc
    obtain ⟨-, hpc₂, hin₂, hout₂, hint₂⟩ := h'.waiter u m' ((h.live u).mpr hl) hpc₁
    refine ⟨hpc₂, fun hst => hin₁ (hin₂ hst), fun hst => ?_, fun hi => hint₂ (hint₁ hi)⟩
    rcases hout₂ hst with hst₁ | hi
    · exact (hout₁ hst₁).imp_right (Or.imp_left hint₂)
    · exact Or.inr (Or.inl hi)
  · obtain ⟨hl₁, hpc₁⟩ := h'.back u m' hl hpc
    exact h.back u m' hu hl₁ hpc₁

section calls

variable {s : St} {t : ℕ} {r : Res}

/-- The links of a thread that begins to wait for `m`. -/
theorem Links.lock {s' : St} {m : ℕ} (h : s.Core []) (hpc : s.pcOf t = .user r)
    (hc : s'.cond_q = s.cond_q)
    (hw : s'.mutex = Function.update s.mutex m { s.mutex m with wait_q := (s.mutex m).wait_q ++ [t] })
    (he : s'.ev = s.ev) : Links s s' t (.lock t m) := by
  obtain ⟨h1, h2, h3⟩ := h.unlinked hpc
  refine ⟨fun c u => ?_, by rw [hc]; exact h.cond_nodup, fun m' u => ?_, fun m' => ?_,
    by rw [he]; exact EvFrame.refl _ _, ?_, by rw [he]; exact h.ev⟩
  · rw [hc]
    by_cases hu : u = t
    · subst hu
      simp [h1 c, Pc.waitsOn]
    · simp [hu]
  · rw [hw, Pc.waitsFor]
    by_cases hm : m' = m
    · subst hm
      by_cases hu : u = t
      · subst hu
        simp
      · simp [hu]
    · rw [Function.update_of_ne hm]
      by_cases hu : u = t
      · subst hu
        simp [h2 m', Ne.symm hm]
      · simp [hu]
  · rw [hw]
    by_cases hm : m' = m
    · subst hm
      rw [Function.update_self]
      exact (h.wait_nodup m').append (List.nodup_singleton t) (by simpa using h2 m')
    · rw [Function.update_of_ne hm]
      exact h.wait_nodup m'
  · rw [he]
    exact fun q hq howner => absurd howner (h3 q hq)

/-- The links of a thread that was in `st_mutex_lock`. -/
theorem Links.of_lock {s' : St} {m : ℕ} {r' : Res} (h : s.Core []) (hpc : s.pcOf t = .lock t m)
    (hc : s'.cond_q = s.cond_q)
    (hw : s'.mutex = Function.update s.mutex m
      { s.mutex m with wait_q := (s.mutex m).wait_q.erase t })
    (he : s'.ev = s.ev) : Links s s' t (.user r') := by
  refine ⟨fun c u => ?_, by rw [hc]; exact h.cond_nodup, fun m' u => ?_, fun m' => ?_,
    by rw [he]; exact EvFrame.refl _ _, ?_, by rw [he]; exact h.ev⟩
  · -- A thread in `st_mutex_lock` is on no condition variable's queue.
    rw [hc]
    by_cases hu : u = t
    · subst hu
      have : u ∉ s.cond_q c := by
        rw [(h.recs u).cond_q c, hpc]
        exact fun h => h.2
      simp [this, Pc.waitsOn]
    · simp [hu]
  · rw [hw]
    -- It leaves this mutex's queue, and is on no other one's.
    by_cases hm : m' = m
    · subst hm
      rw [Function.update_self]
      dsimp only
      rw [(h.wait_nodup m').mem_erase_iff]
      simp [Pc.waitsFor]
    · rw [Function.update_of_ne hm]
      by_cases hu : u = t
      · subst hu
        have : u ∉ (s.mutex m').wait_q := by
          rw [(h.recs u).wait_q m', hpc]
          exact fun h => hm h.2.symm
        simp [this, Pc.waitsFor]
      · simp [hu]
  · rw [hw]
    by_cases hm : m' = m
    · subst hm
      rw [Function.update_self]
      exact (h.wait_nodup m').erase t
    · rw [Function.update_of_ne hm]
      exact h.wait_nodup m'
  · rw [he]
    -- And it has no `pollq`.
    intro q hq howner
    have := ((h.recs t).io_q q hq howner).2
    rw [hpc] at this
    cases this

/-- What a call of `st_mutex_lock` by `t` comes to, before it waits. -/
inductive LockOutcome (s s' : St) (m t : ℕ) : Prop where
  /-- It returns `-1`: it was interrupted, or `t` is the owner. -/
  | fails (frame : LockFrame s s') (e : Errno) (pc : s'.pcOf t = .user (.error e))
      (why : e = .EINTR ∨ (s.mutex m).owner = some t)
  | acquires (free : (s.mutex m).owner = none) (pc : s'.pcOf t = .user (.ok 0))
      (locks : Locks s s' m t ⟨some t, (s.mutex m).wait_q⟩ [.locked m t])
  | waits (owner : ℕ) (held : (s.mutex m).owner = some owner) (ne : owner ≠ t)
      (pc : s'.pcOf t = .lock t m)
      (woken : (s'.thread t).state ≠ .LOCK_WAIT → (s'.thread t).flags.interrupt = true)
      (locks : Locks s s' m t ⟨some owner, (s.mutex m).wait_q ++ [t]⟩ [.lockWait m t])

/-- The place where the program goes on after `ret`. -/
theorem Runs.pcOf_ret (hr : s.Runs t) {s' : St} (hid : (s'.thread t).id = (s.thread t).id)
    (hrun : s'.running = s.running) (r' : Res) : (s'.ret r').pcOf t = .user r' := by
  have hid' : ((s'.ret r').thread t).id = s'.running := by
    rw [hrun, hr.running, ← hid]
    rfl
  unfold pcOf
  rw [hid']
  simp [ret, setPc]

/-- `st_mutex_lock`, up to its return or its switch. -/
theorem mutexLock_fine (hg : s.Good) (hr : s.Runs t) (hpc : s.pcOf t = .user r) (m : ℕ) :
    ∃ s', s.mutexLock m = some s' ∧ Fine s s' ∧ LockOutcome s s' m t := by
  unfold mutexLock
  rw [hr.this]
  dsimp only
  unfold interrupted
  split_ifs with hint
  · -- An interrupt from before the call.
    obtain ⟨hfine, hlock⟩ := setFlags_ret_does hg hr hpc (flagsOk_interrupt false) (.error .EINTR)
    refine ⟨_, rfl, hfine, LockOutcome.fails hlock .EINTR ?_ (Or.inl rfl)⟩
    exact hr.pcOf_ret (by rw [setFlags_thread, if_pos rfl]) (by rfl) _
  · dsimp only
    cases howner : (s.mutex m).owner with
    | none =>
      dsimp only
      have ha : Acts s (((s.setOwner m (some t)).note (.locked m t)).ret (.ok 0)) t (s.thread t)
          (.user (.ok 0)) :=
        .of_links (Function.update_eq_self t s.thread).symm rfl rfl rfl rfl rfl
      refine ⟨_, rfl, Acts.does_user hg hr flagsOk_id ha (Links.user hg.core hpc rfl ?_ rfl) rfl,
        LockOutcome.acquires howner (ha.pcOf_self hr) (ha.locks hr rfl rfl)⟩
      intro m'
      by_cases hm : m' = m
      · subst hm
        simp [setOwner, note, ret, setPc]
      · simp [setOwner, note, ret, setPc, hm]
    | some owner =>
      dsimp only
      split_ifs with hme
      · -- The caller has the mutex already.
        obtain ⟨hfine, hlock⟩ := ret_does hg hr hpc (.error .EDEADLK)
        exact ⟨_, rfl, hfine, LockOutcome.fails hlock .EDEADLK (hr.pcOf_ret rfl rfl _)
          (Or.inr (by rw [howner, hme]))⟩
      · -- Wait for the owner.
        generalize hs₁ : (((s.setState t .LOCK_WAIT).setWaitQ m ((s.mutex m).wait_q ++ [t])).note
          (.lockWait m t)).setPc (.lock t m) = s₁
        have ha : Acts s s₁ t { s.thread t with state := .LOCK_WAIT } (.lock t m) := by
          rw [← hs₁]
          exact .of_links rfl rfl rfl rfl rfl rfl
        have hmutex : s₁.mutex = Function.update s.mutex m
            { s.mutex m with wait_q := (s.mutex m).wait_q ++ [t] } := by
          rw [← hs₁]
          rfl
        have hc : s₁.Core [] := by
          refine hg.core.act hr ha (Links.lock hg.core hpc ?_ hmutex ?_) (fun h => by cases h) ?_ rfl
            ⟨m, by rw [ha.pcOf_self hr]; rfl⟩ (ha.sleepOk hg.core.sleep (by rw [← hs₁]; rfl) rfl)
          · rw [← hs₁]; rfl
          · rw [← hs₁]; rfl
          · intro hon
            rw [hg.core.off_sleepq hr] at hon
            cases hon
        have ho := ha.ownership hg.own hr
        have hframe := vpSchedule_lockFrame hc ho
        have hfine := ha.fine_switch hg.own hr hc (fun h => by cases h) (fun h => by cases h)
        obtain ⟨u, q, hu, heq⟩ := vpSchedule_resumed hc ho
        have hlives : SameLives s₁ s₁.vpSchedule := by
          rw [heq]
          exact resumed_sameLives hu
        have hlog : s₁.vpSchedule.log = s₁.log := by
          rw [heq]
          rfl
        have hlocks : Locks s s₁ m t ⟨some owner, (s.mutex m).wait_q ++ [t]⟩ [.lockWait m t] := by
          refine ha.locks hr (hmutex.trans ?_) (by rw [← hs₁]; rfl)
          rw [← howner]
        -- Whoever gets the turn, the caller is still in `LOCK_WAIT` unless it is itself.
        obtain ⟨-, hpc', -, hout, -⟩ :=
          hframe.waiter t m ((ha.live t).mpr hr.live) (ha.pcOf_self hr)
        refine ⟨_, rfl, hfine, LockOutcome.waits owner howner hme hpc' (fun hst => ?_)
          (hlocks.trans hframe hlives hlog)⟩
        refine (hout hst).resolve_left fun hne => hne ?_
        rw [ha.thread_self]

/-- What `st_mutex_lock` of `t` comes to, after the wait. -/
inductive LockEnd (s s' : St) (m t : ℕ) : Prop where
  | interrupted (flag : (s.thread t).flags.interrupt = true) (owner : (s.mutex m).owner ≠ some t)
      (pc : s'.pcOf t = .user (.error .EINTR))
      (locks : Locks s s' m t ⟨(s.mutex m).owner, (s.mutex m).wait_q.erase t⟩ [])
  | acquires (why : (s.thread t).flags.interrupt = true → (s.mutex m).owner = some t)
      (pc : s'.pcOf t = .user (.ok 0))
      (locks : Locks s s' m t ⟨(s.mutex m).owner, (s.mutex m).wait_q.erase t⟩ [.locked m t])

/-- `st_mutex_lock`, after the wait. -/
theorem mutexLockEnd_fine {me m : ℕ} (hg : s.Good) (hr : s.Runs t) (hpc : s.pcOf t = .lock me m) :
    me = t ∧ Fine s (s.mutexLockEnd me m) ∧ LockEnd s (s.mutexLockEnd me m) m t := by
  have hfits := (hg.core.recs t).pc hr.live
  rw [hpc] at hfits
  cases hfits
  have howner : ((s.setWaitQ m ((s.mutex m).wait_q.erase t)).mutex m).owner = (s.mutex m).owner := by
    simp [setWaitQ]
  refine ⟨rfl, ?_⟩
  unfold mutexLockEnd
  dsimp only
  rw [howner]
  split_ifs with hint
  · have ha : Acts s (((s.setWaitQ m ((s.mutex m).wait_q.erase t)).setFlags t fun fl =>
        { fl with interrupt := false }).ret (.error .EINTR)) t
        { s.thread t with flags := { (s.thread t).flags with interrupt := false } }
        (.user (.error .EINTR)) :=
      .of_links rfl rfl rfl rfl rfl rfl
    exact ⟨ha.does_user hg hr (flagsOk_interrupt false) (Links.of_lock hg.core hpc rfl rfl rfl) rfl,
      LockEnd.interrupted hint.1 hint.2 (ha.pcOf_self hr) (ha.locks hr rfl rfl)⟩
  · have ha : Acts s (((s.setWaitQ m ((s.mutex m).wait_q.erase t)).note (.locked m t)).ret (.ok 0)) t
        (s.thread t) (.user (.ok 0)) :=
      .of_links (Function.update_eq_self t s.thread).symm rfl rfl rfl rfl rfl
    refine ⟨Acts.does_user hg hr flagsOk_id ha (Links.of_lock hg.core hpc rfl rfl rfl) rfl,
      LockEnd.acquires (fun hi => ?_) (ha.pcOf_self hr) (ha.locks hr rfl rfl)⟩
    by_contra hne
    exact hint ⟨hi, hne⟩

/-- What `st_mutex_trylock` of `t` comes to. -/
inductive TrylockOutcome (s s' : St) (m t : ℕ) : Prop where
  | busy (frame : LockFrame s s') (held : (s.mutex m).owner ≠ none)
      (pc : s'.pcOf t = .user (.error .EBUSY))
  | acquires (free : (s.mutex m).owner = none) (pc : s'.pcOf t = .user (.ok 0))
      (locks : Locks s s' m t ⟨some t, (s.mutex m).wait_q⟩ [.locked m t])

/-- `st_mutex_trylock`. -/
theorem mutexTrylock_fine (hg : s.Good) (hr : s.Runs t) (hpc : s.pcOf t = .user r) (m : ℕ) :
    Fine s (s.mutexTrylock m) ∧ TrylockOutcome s (s.mutexTrylock m) m t := by
  unfold mutexTrylock
  rw [hr.this]
  dsimp only
  split_ifs with howner
  · obtain ⟨hfine, hlock⟩ := ret_does hg hr hpc (.error .EBUSY)
    exact ⟨hfine, TrylockOutcome.busy hlock howner (hr.pcOf_ret rfl rfl _)⟩
  · rw [ne_eq, not_not] at howner
    have hthis : (s.note (.locked m t)).this_thread = some t := hr.this
    rw [hthis]
    have ha : Acts s (((s.note (.locked m t)).setOwner m (some t)).ret (.ok 0)) t (s.thread t)
        (.user (.ok 0)) :=
      .of_links (Function.update_eq_self t s.thread).symm rfl rfl rfl rfl rfl
    refine ⟨Acts.does_user hg hr flagsOk_id ha (Links.user hg.core hpc rfl ?_ rfl) rfl,
      TrylockOutcome.acquires howner (ha.pcOf_self hr) (ha.locks hr rfl rfl)⟩
    intro m'
    by_cases hm : m' = m
    · subst hm
      simp [setOwner, note, ret, setPc]
    · simp [setOwner, note, ret, setPc, hm]

end calls

/-! ## Unlocking -/

/-- A fiber that goes on elsewhere keeps its thread. -/
theorem setPc_thd (s : St) (pc : Pc) (f : ℕ) : ((s.setPc pc).fiber f).thd = (s.fiber f).thd := by
  by_cases hf : f = s.running
  · rw [hf]
    simp [setPc]
  · simp [setPc, hf]

/-- The place of the running fiber says nothing about who is live. -/
theorem setPc_sameLives (s : St) (pc : Pc) : SameLives s (s.setPc pc) := by
  refine ⟨rfl, rfl, rfl, rfl, rfl, rfl, rfl, rfl, fun _ => rfl, fun _ => rfl, fun _ => rfl,
    fun _ => rfl, fun _ _ => Or.inl rfl, setPc_thd s pc, fun f hf => ?_⟩
  simp [setPc, hf]

/-- The thread that `st_mutex_unlock` finds waits for the mutex. -/
theorem firstLockWait_spec {s : St} {m u : ℕ} (hc : s.Core []) (h : s.firstLockWait m = some u) :
    u ∈ (s.mutex m).wait_q ∧ s.Live u ∧ (s.thread u).state = .LOCK_WAIT ∧
      (s.thread u).flags.on_sleepq = false := by
  have hmem : u ∈ (s.mutex m).wait_q := List.mem_of_find?_eq_some h
  have hst : (s.thread u).state = .LOCK_WAIT := by simpa using List.find?_some h
  refine ⟨hmem, (((hc.recs u).wait_q m).mp hmem).1, hst, Bool.eq_false_iff.mpr fun hon => ?_⟩
  have := ((hc.recs u).sleep_q hon).2
  rw [hst] at this
  simp at this

/-- Making `u` runnable without a look at the sleep queue. -/
theorem handoff_eq {s : St} (h : s.SleepOk) {u : ℕ} (hoff : (s.thread u).flags.on_sleepq = false) :
    ∃ heap, (s.setState u .RUNNABLE).addRunq u = s.woken u heap ∧ (s.woken u heap).SleepOk := by
  obtain ⟨heap, hrun, hsleep⟩ := wake_eq h u
  refine ⟨heap, ?_, hsleep⟩
  unfold wake leaveSleepQ at hrun
  rw [hoff, if_neg (by decide), Option.map_some, Option.some_inj] at hrun
  exact hrun

/-- What `st_mutex_unlock` comes to, up to its return: `l` is the event that it records. -/
inductive UnlockOutcome (s s' : St) (m : ℕ) (l : List Note) : Res → Prop where
  | fails (same : s' = s) (owner : (s.mutex m).owner ≠ s.this_thread) :
      UnlockOutcome s s' m l (.error .EPERM)
  | passes (u : ℕ) (heap : Heap) (owner : (s.mutex m).owner = s.this_thread)
      (first : s.firstLockWait m = some u) (log : s'.log = l ++ s.log)
      (mutex : s'.mutex = Function.update s.mutex m ⟨some u, (s.mutex m).wait_q⟩)
      (thread : s'.thread = (s.woken u heap).thread) : UnlockOutcome s s' m l (.ok 0)
  | frees (owner : (s.mutex m).owner = s.this_thread) (first : s.firstLockWait m = none)
      (log : s'.log = l ++ s.log)
      (mutex : s'.mutex = Function.update s.mutex m ⟨none, (s.mutex m).wait_q⟩)
      (thread : s'.thread = s.thread) : UnlockOutcome s s' m l (.ok 0)

/-- The event that `st_mutex_unlock` records. -/
def unlockNote (s : St) (m : ℕ) : List Note :=
  match s.this_thread with
  | some me => [.unlocked m me]
  | none => []

/-- `st_mutex_unlock` of the owner. -/
theorem mutexUnlock_eq {s : St} {m : ℕ} (h : (s.mutex m).owner = s.this_thread) :
    s.mutexUnlock m = match s.firstLockWait m with
      | some u => ((({ s with log := s.unlockNote m ++ s.log }.setOwner m (some u)).setState u
          .RUNNABLE).addRunq u).ret (.ok 0)
      | none => ({ s with log := s.unlockNote m ++ s.log }.setOwner m none).ret (.ok 0) := by
  unfold mutexUnlock
  rw [if_neg (not_not.mpr h)]
  obtain ⟨_, _, _, _, _, _, _, _, this_thread, _, _, _, _, _, _, _, _, _, _, _, _, _⟩ := s
  cases this_thread <;> rfl

/-- `st_mutex_unlock`, up to its return, by whoever calls it. -/
theorem mutexUnlock_core {s : St} (hc : s.Core []) (m : ℕ) : ∃ s' r, s.mutexUnlock m = s'.ret r ∧
    s'.Core [] ∧ Pokes s s' ∧ UnlockOutcome s s' m (s.unlockNote m) r := by
  by_cases howner : (s.mutex m).owner ≠ s.this_thread
  · refine ⟨s, _, ?_, hc, ⟨SameLives.refl s, rfl, rfl, rfl, fun _ h => h⟩, .fails rfl howner⟩
    unfold mutexUnlock
    rw [if_pos howner]
  · rw [ne_eq, not_not] at howner
    rw [mutexUnlock_eq howner]
    have hwait : ∀ owner m', (({ s with log := s.unlockNote m ++ s.log }.setOwner m owner).mutex
        m').wait_q = (s.mutex m').wait_q := by
      intro owner m'
      by_cases hm : m' = m
      · subst hm
        simp [setOwner]
      · simp [setOwner, hm]
    cases hu : s.firstLockWait m with
    | none =>
      refine ⟨_, _, rfl, hc.congr rfl rfl rfl rfl (hwait none) rfl rfl rfl rfl rfl rfl,
        ⟨⟨rfl, rfl, rfl, rfl, rfl, rfl, rfl, rfl, fun _ => rfl, fun _ => rfl, fun _ => rfl,
          fun _ => rfl, fun _ _ => Or.inl rfl, fun _ => rfl, fun _ _ => rfl⟩, rfl, rfl, rfl,
          fun _ h => h⟩, .frees howner hu rfl rfl rfl⟩
    | some u =>
      -- The mutex is handed to `u`, which becomes runnable.
      obtain ⟨-, hl, hst, hoff⟩ := firstLockWait_spec hc hu
      dsimp only
      generalize hs₁ : { s with log := s.unlockNote m ++ s.log }.setOwner m (some u) = s₁
      have hc₁ : s₁.Core [] := by
        rw [← hs₁]
        exact hc.congr rfl rfl rfl rfl (hwait (some u)) rfl rfl rfl rfl rfl rfl
      have hth₁ : s₁.thread = s.thread := by rw [← hs₁]; rfl
      have hlives₁ : SameLives s s₁ := by
        rw [← hs₁]
        exact ⟨rfl, rfl, rfl, rfl, rfl, rfl, rfl, rfl, fun _ => rfl, fun _ => rfl, fun _ => rfl,
          fun _ => rfl, fun _ _ => Or.inl rfl, fun _ => rfl, fun _ _ => rfl⟩
      have hl₁ := (hlives₁.live u).mpr hl
      obtain ⟨heap, heq, hsleep⟩ := handoff_eq hc₁.sleep (u := u) (by rw [hth₁]; exact hoff)
      rw [heq]
      refine ⟨_, _, rfl, woken_core hc₁ hl₁ ?_ (fun _ h _ => h) hsleep,
        ⟨hlives₁.trans (woken_sameLives hl₁) (by rw [← hs₁]; rfl), by rw [← hs₁]; rfl,
          by rw [← hs₁]; rfl, by rw [← hs₁]; rfl, fun v hv => ?_⟩,
        .passes u heap howner hu (by rw [← hs₁]; rfl) (by rw [← hs₁]; rfl) ?_⟩
      · rw [hth₁, hst]
        decide
      · have hvu : v ≠ u := by
          rintro rfl
          rw [hst] at hv
          cases hv
        rw [woken_frame.thread v hvu, hth₁]
        exact hv
      · unfold woken
        dsimp only
        rw [hth₁]

/-- `st_mutex_unlock` by a running thread. -/
theorem mutexUnlock_fine {s : St} {t : ℕ} {r : Res} (hg : s.Good) (hr : s.Runs t)
    (hpc : s.pcOf t = .user r) (m : ℕ) : Fine s (s.mutexUnlock m) ∧
      (∃ r', (s.mutexUnlock m).pcOf t = .user r') ∧
      (((s.mutex m).owner ≠ some t ∧ LockFrame s (s.mutexUnlock m)) ∨
        ((s.mutex m).owner = some t ∧ Locks s (s.mutexUnlock m) m t
          ⟨s.firstLockWait m, (s.mutex m).wait_q⟩ [.unlocked m t])) := by
  obtain ⟨s₁, r', heq, hc, hp, hout⟩ := mutexUnlock_core hg.core m
  obtain ⟨hfine, hlock⟩ := hp.fine_ret hg hr hpc hc r'
  have hlives := setPc_sameLives s₁ (.user r')
  have hnote : s.unlockNote m = [.unlocked m t] := by
    unfold unlockNote
    rw [hr.this]
  rw [hnote] at hout
  rw [heq]
  refine ⟨hfine, ⟨r', hr.pcOf_ret (hp.lives.id t) hp.running r'⟩, ?_⟩
  -- Not the owner, or a hand-over to the first waiter, or nobody waits.
  rcases hout with ⟨hsame, howner⟩ | ⟨u, heap, howner, hfirst, hlog, hmutex, hth⟩ |
    ⟨howner, hfirst, hlog, hmutex, hth⟩
  · rw [hr.this] at howner
    rw [hsame] at hlock ⊢
    exact Or.inl ⟨howner, hlock⟩
  · rw [hr.this] at howner
    refine Or.inr ⟨howner, Locks.trans ?_ hlock hlives rfl⟩
    obtain ⟨hmem, hl, hst, -⟩ := firstLockWait_spec hg.core hfirst
    have hfor := (((hg.core.recs u).wait_q m).mp hmem).2
    rw [hfirst]
    refine ⟨hmutex, hlog, fun v m' _ _ hpcv => ?_, fun v m' _ _ hpcv => ?_, hp.lives.live⟩
    · rw [hp.pcOf, hth]
      -- The new owner is runnable, and all other threads are as they were.
      by_cases hv : v = u
      · subst hv
        rw [hpcv] at hfor
        refine ⟨hpcv, fun h => ?_, fun _ => Or.inr (Or.inr ⟨hfor, rfl⟩), fun h => ?_⟩
        · simp [woken] at h
        · simpa [woken] using h
      · rw [woken_frame.thread v hv]
        exact ⟨hpcv, fun h => h, fun h => Or.inl h, fun h => h⟩
    · rwa [hp.pcOf] at hpcv
  · rw [hr.this] at howner
    refine Or.inr ⟨howner, Locks.trans ?_ hlock hlives rfl⟩
    rw [hfirst]
    refine ⟨hmutex, hlog, fun v m' _ _ hpcv => ?_, fun v m' _ _ hpcv => ?_, hp.lives.live⟩
    · rw [hp.pcOf, hth]
      exact ⟨hpcv, fun h => h, fun h => Or.inl h, fun h => h⟩
    · rwa [hp.pcOf] at hpcv

end StWin.St
