import StWin.Sched.Others
import StWin.Sched.Final

/-!
# Interrupts

`st_thread_interrupt` sets a flag and makes the thread runnable. The call that the thread waits in
finds the flag when it goes on, clears it, and returns `-1` with `EINTR`: so do `st_poll`,
`st_cond_timedwait`, and `st_mutex_lock`. `st_usleep` has nothing after its switch. It returns `0`, and
the flag is left for the next call.

For `st_mutex_lock` there is one more thing to see. The call returns `0` in spite of the flag if its
caller is the owner then, and a thread that was interrupted in `LOCK_WAIT` does not become the owner:
`st_mutex_unlock` hands over to threads in `LOCK_WAIT` only, and `main`, which may lock a mutex in the
name of `_st_this_thread`, does not run in the name of a thread that waits.
-/

namespace StWin

/-- The place is in the program's code. -/
def Pc.isUser : Pc → Bool
  | .user _ => true
  | _ => false

/-- A place is in the program's code exactly when a call has returned there. -/
theorem Pc.isUser_iff {pc : Pc} : pc.isUser = true ↔ ∃ r, pc = .user r := by
  cases pc <;> simp [Pc.isUser]

namespace St

/-! ## Who becomes the owner of a mutex -/

/-- While `main` runs, `_st_this_thread` is not in a call of the library. -/
def MainAway (s : St) : Prop :=
  s.running = 0 → s.This fun t => s.Live t → ∃ r, s.pcOf t = .user r

section owner

variable {s s' : St} {l : Label} {t : ℕ}

/-- Nobody is put into a waiting state by another. -/
theorem Stirs.state_of_lockWait {th : Thread} (h : Stirs s l t th) (hst : th.state = .LOCK_WAIT) :
    (s.thread t).state = .LOCK_WAIT := by
  cases h with
  | same => exact hst
  | resumed => cases hst
  | flagged label state => exact hst
  | interrupted => cases hst
  | signalled => cases hst
  | expired => cases hst
  | notified => cases hst
  | released => cases hst

/-- Only the thread itself clears the flag of an interrupt. -/
theorem Stirs.interrupt {th : Thread} (h : Stirs s l t th)
    (hflag : (s.thread t).flags.interrupt = true) : th.flags.interrupt = true := by
  cases h with
  | same => exact hflag
  | resumed => exact hflag
  | flagged => rfl
  | interrupted => rfl
  | signalled => exact hflag
  | expired =>
    unfold Thread.timedOut
    split_ifs <;> exact hflag
  | notified => exact hflag
  | released => exact hflag

/-- A thread that is runnable stays so until it gets the turn. -/
theorem Stirs.state_of_runnable {th : Thread} (h : Stirs s l t th)
    (hst : (s.thread t).state = .RUNNABLE) : th.state = .RUNNABLE ∨ th.state = .RUNNING := by
  cases h with
  | same => exact Or.inl hst
  | resumed => exact Or.inr rfl
  | flagged => exact Or.inl hst
  | interrupted => exact Or.inl rfl
  | signalled => exact Or.inl rfl
  | expired => exact Or.inl rfl
  | notified => exact Or.inl rfl
  | released => exact Or.inl rfl

/-- Whom `st_mutex_unlock` makes the owner. -/
theorem mutexUnlock_owner {m m' : ℕ} (h : ((s.mutexUnlock m').mutex m).owner = some t) :
    (s.mutex m).owner = some t ∨
      ((s.thread t).state = .LOCK_WAIT ∧ ((s.mutexUnlock m').thread t).state = .RUNNABLE) := by
  by_cases howner : (s.mutex m').owner = s.this_thread
  · rw [mutexUnlock_eq howner] at h ⊢
    by_cases hm : m = m'
    · subst hm
      cases hu : s.firstLockWait m with
      | none =>
        rw [hu] at h
        simp [ret, setPc, setOwner] at h
      | some u =>
        rw [hu] at h
        have htu : u = t := by simpa [ret, setPc, addRunq, setState, setThread, setOwner] using h
        subst htu
        refine Or.inr ⟨by simpa using List.find?_some hu, ?_⟩
        simp [ret, setPc, addRunq, setState, setThread, setOwner]
    · refine Or.inl ?_
      rw [← h]
      split <;> simp [ret, setPc, addRunq, setState, setThread, setOwner, hm]
  · unfold mutexUnlock at h
    rw [if_pos howner] at h
    exact Or.inl h

/-- Whom `st_mutex_trylock` makes the owner. -/
theorem mutexTrylock_owner {m m' : ℕ} (h : ((s.mutexTrylock m').mutex m).owner = some t) :
    (s.mutex m).owner = some t ∨ s.this_thread = some t := by
  unfold mutexTrylock at h
  split_ifs at h
  · exact Or.inl h
  · by_cases hm : m = m'
    · subst hm
      refine Or.inr ?_
      cases hthis : s.this_thread with
      | none => simp [hthis, ret, setPc, setOwner] at h
      | some u => simpa [hthis, ret, setPc, setOwner, note] using h
    · refine Or.inl ?_
      rw [← h]
      cases hthis : s.this_thread <;> simp [ret, setPc, setOwner, note, hm]

/-- A thread in `st_mutex_lock` becomes the owner only out of `LOCK_WAIT`. -/
theorem Inv.owner_new (h : s.Inv) (haway : s.MainAway) (hok : s.Ok l) (hstep : s.step l = some s')
    (hl : s.Live t) (hne : (s.thread t).id ≠ s.running) {m : ℕ} (hpc : s.pcOf t = .lock t m)
    (hnew : (s'.mutex m).owner = some t) : (s.mutex m).owner = some t ∨
      ((s.thread t).state = .LOCK_WAIT ∧ (s'.thread t).state = .RUNNABLE) := by
  have hframe : LockFrame s s' → (s.mutex m).owner = some t := by
    intro hlock
    rw [← hlock.mutex]
    exact hnew
  -- A step of another thread on a mutex that it makes its own, or leaves as it was.
  have hlocks : ∀ {m' u : ℕ} {mx : Mutex} {notes : List Note}, s.Runs u →
      Locks s s' m' u mx notes → (mx.owner = some u ∨ mx.owner = (s.mutex m').owner) →
      (s.mutex m).owner = some t := by
    intro m' u mx notes hr hk howner
    rw [hk.mutex] at hnew
    by_cases hm : m = m'
    · subst hm
      rw [Function.update_self] at hnew
      rcases howner with howner | howner
      · rw [hnew, Option.some_inj] at howner
        subst howner
        exact absurd hr.running.symm hne
      · rw [← howner]
        exact hnew
    · rw [Function.update_of_ne hm] at hnew
      exact hnew
  cases h.outcome hok hstep with
  | same fine lock => exact Or.inl (hframe lock)
  | lock m' u runs label fine outcome =>
    refine Or.inl ?_
    cases outcome with
    | fails frame _ _ _ => exact hframe frame
    | acquires free pc locks => exact hlocks runs locks (Or.inl rfl)
    | waits owner held ne pc woken locks => exact hlocks runs locks (Or.inr held.symm)
  | lockEnd m' u runs pc fine outcome =>
    refine Or.inl ?_
    cases outcome with
    | interrupted flag owner pc locks => exact hlocks runs locks (Or.inr rfl)
    | acquires why pc locks => exact hlocks runs locks (Or.inr rfl)
  | trylock m' u runs label fine outcome =>
    refine Or.inl ?_
    cases outcome with
    | busy frame _ _ => exact hframe frame
    | acquires free pc locks => exact hlocks runs locks (Or.inl rfl)
  | unlock m' u runs label fine pc outcome =>
    obtain ⟨-, -, hgo⟩ := step_call_user (label ▸ hstep)
    rw [← Option.some_inj.mp hgo] at hnew ⊢
    exact mutexUnlock_owner hnew
  | mainLock main m' label fine =>
    rcases label with rfl | rfl
    · obtain ⟨-, -, hgo⟩ := step_call_user hstep
      rw [← Option.some_inj.mp hgo] at hnew
      refine (mutexTrylock_owner hnew).imp_right fun hthis => ?_
      obtain ⟨r', hr'⟩ := (haway main).some hthis hl
      rw [hpc] at hr'
      cases hr'
    · obtain ⟨-, -, hgo⟩ := step_call_user hstep
      rw [← Option.some_inj.mp hgo] at hnew ⊢
      exact mutexUnlock_owner hnew
  | creates _ _ _ _ _ _ _ _ _ _ _ _ _ lock => exact Or.inl (hframe lock)
  | exits _ _ _ _ _ _ _ _ lock => exact Or.inl (hframe lock)
  | frees _ _ _ _ lock => exact Or.inl (hframe lock)
  | nothing _ _ _ _ _ _ _ lock => exact Or.inl (hframe lock)

/-- A live thread whose fiber runs has the turn. -/
theorem Good.runs_of_live (hg : s.Good) (hl : s.Live t) (heq : (s.thread t).id = s.running) :
    s.Runs t := by
  have h2 := hg.own.live_id hl
  rcases hg.turn with hmain | ⟨hidle, -⟩ | ⟨u, hlu, hrun, hst, hthis⟩ | ⟨u, -, hex, -, -, -⟩ |
    ⟨u, hleave, -⟩
  · omega
  · omega
  · have htu : t = u := hlu.inj hl (heq.trans hrun)
    subst htu
    exact ⟨hlu, hrun, hst, hthis⟩
  · have := hl.2.1
    rw [heq] at this
    exact absurd this hex
  · exact absurd heq (hleave.ne_running hl)

/-- The fiber that runs was created. -/
theorem Good.running_lt (hg : s.Good) : s.running < s.created := by
  have h2 := hg.own.created
  rcases hg.turn with hmain | ⟨hidle, -⟩ | ⟨u, hlu, hrun, -, -⟩ | ⟨u, hmem, -, -, -, -⟩ | ⟨u, hleave, -⟩
  · omega
  · omega
  · rw [hrun]
    exact (hg.own.thread _ hlu.1).2.1
  · exact (hg.own.thread _ hmem).2.1
  · exact (hg.own.thread _ hleave.mem).2.1

/-- A live thread was live before, or was just created. -/
theorem Change.born (h : Change s l s') (hg : s.Good) (hl : s'.Live t) :
    s.Live t ∨ s'.pcOf t = .user (.ok 0) := by
  cases h with
  | fine fine => exact Or.inl ((fine.lives.live t).mp hl)
  | creates _ _ _ _ s₁ u th started makes _ r eq =>
    rw [eq] at hl ⊢
    have hl₁ := ((setPc_sameLives s₁ (.user r)).live t).mp hl
    by_cases htu : t = u
    · subst htu
      refine Or.inr ?_
      have hid : (s₁.thread t).id = s.created := by rw [makes.thread_self, makes.id]
      have hlt := hg.running_lt
      rw [show s₁.ret r = s₁.setPc (.user r) from rfl, pcOf_setPc_of_ne]
      · unfold pcOf
        rw [hid, makes.fiber, Function.update_self]
      · rw [hid, makes.running]
        omega
    · exact Or.inl ((makes.live_of_ne hg.own htu).mp hl₁)
  | exits u v retval joinable runs label exits =>
    obtain ⟨-, hr₁⟩ := runs.note_good hg (.returned s.running v)
    have htu : t ≠ u := by
      rintro rfl
      exact exits.not_live hr₁ hl
    exact Or.inl ((exits.live_of_ne hr₁ htu).mp hl)
  | frees u leaving frees => exact Or.inl ((frees.live leaving t).mp hl)
  | nothing main _ _ f r eq =>
    rw [eq] at hl
    obtain ⟨hmem, hex, hthd⟩ := ((setPc_sameLives _ (.user r)).live t).mp hl
    have h2 : 2 ≤ (s.thread t).id := (hg.own.thread _ hmem).1
    refine Or.inl ⟨hmem, ?_, hthd⟩
    have hlife : (s.setLife 0 f).life (s.thread t).id = s.life (s.thread t).id :=
      Function.update_of_ne (by omega) _ _
    rw [← hlife]
    exact hex

/-- What holds while threads wait for mutexes. -/
structure LockInv (s : St) : Prop where
  inv : s.Inv
  away : s.MainAway
  /-- A thread in `LOCK_WAIT` is not the owner. -/
  owner : ∀ t m, s.Live t → s.pcOf t = .lock t m → (s.thread t).state = .LOCK_WAIT →
    (s.mutex m).owner ≠ some t

/-- `main` gets the turn from a thread that has terminated, and keeps it until it gives it away. -/
theorem Inv.step_away (h : s.Inv) (haway : s.MainAway) (hok : s.Ok l) (hstep : s.step l = some s') :
    s'.MainAway := by
  have hg' := (h.outcome hok hstep).good
  have hchange := h.change hok hstep
  intro hmain'
  -- As long as `main` keeps the turn, only itself moves.
  have hkeep : s.running = 0 → s'.this_thread = s.this_thread →
      s'.This fun t => s'.Live t → ∃ r, s'.pcOf t = .user r := by
    intro hmain hthis
    cases ht : s'.this_thread with
    | none => exact .of_none ht
    | some t =>
      refine .of_some ht fun hl => ?_
      rcases hchange.born h.good hl with hl₀ | hpc
      · have hne : (s.thread t).id ≠ s.running := by
          have := h.good.own.live_id hl₀
          omega
        rw [(hchange.other h.good hl₀ hne).2]
        exact (haway hmain).some (hthis ▸ ht) hl₀
      · exact ⟨_, hpc⟩
  cases hchange with
  | fine fine =>
    rcases fine.main hmain' with ⟨hmain, hthis⟩ | hzombie
    · exact hkeep hmain hthis
    · cases ht : s'.this_thread with
      | none => exact .of_none ht
      | some t =>
        refine .of_some ht fun hl => ?_
        have hfits := (hg'.core.recs t).state hl
        rw [hzombie.some ht] at hfits
        exact hfits.elim
  | creates _ _ _ _ s₁ u th started makes _ r eq =>
    rw [eq] at hmain' 
    have hrun : s₁.running = 0 := hmain'
    refine hkeep (makes.running ▸ hrun) ?_
    rw [eq]
    exact makes.this_thread
  | exits u v retval joinable runs label exits =>
    have h2 := runs.two_le h.good.own
    have hrun : s'.running = s.running := exits.running
    omega
  | frees u leaving frees =>
    have h2 := (h.good.own.thread _ leaving.mem).1
    have hrun : s'.running = s.running := frees.running
    omega
  | nothing main _ _ f r eq =>
    refine hkeep main ?_
    rw [eq]
    rfl

/-- One step keeps the invariant. -/
theorem step_lockInv (h : s.LockInv) (hok : s.Ok l) (hstep : s.step l = some s') : s'.LockInv := by
  have hinv := step_inv h.inv hok hstep
  have hg := h.inv.good
  refine ⟨hinv, h.inv.step_away h.away hok hstep, fun t m hl' hpc' hst' ho => ?_⟩
  rcases (h.inv.change hok hstep).born hg hl' with hl | hpc
  · by_cases hne : (s.thread t).id = s.running
    · -- The thread itself has taken the step: it has just begun to wait.
      have hr := hg.runs_of_live hl hne
      -- So the step is one of `st_mutex_lock`, which waits for another owner.
      have hframe : ¬LockFrame s s' := by
        intro hlock
        obtain ⟨-, hpc₀⟩ := hlock.back t m hl' hpc'
        have hst₀ := (hlock.waiter t m hl hpc₀).2.2.1 hst'
        rw [hr.state] at hst₀
        cases hst₀
      have huser : ∀ {r : Res}, s'.pcOf t ≠ .user r := by
        intro r hc
        rw [hpc'] at hc
        cases hc
      have hself : ∀ {u}, s.Runs u → u = t :=
        fun hru => hr.live.inj hru.live (hru.running ▸ hne.symm ▸ rfl)
      cases h.inv.outcome hok hstep with
      | same fine lock => exact hframe lock
      | lock m' u runs label fine outcome =>
        obtain rfl := hself runs
        cases outcome with
        | fails frame _ _ _ => exact hframe frame
        | acquires free pc locks => exact huser pc
        | waits owner held ne pc woken locks =>
          rw [hpc'] at pc
          cases pc
          rw [locks.mutex, Function.update_self, Option.some_inj] at ho
          exact ne ho
      | lockEnd m' u runs pc fine outcome =>
        obtain rfl := hself runs
        cases outcome with
        | interrupted flag owner pc locks => exact huser pc
        | acquires why pc locks => exact huser pc
      | trylock m' u runs label fine outcome =>
        obtain rfl := hself runs
        cases outcome with
        | busy frame _ pc => exact huser pc
        | acquires free pc locks => exact huser pc
      | unlock m' u runs label fine pc outcome =>
        obtain rfl := hself runs
        obtain ⟨r, pc⟩ := pc
        exact huser pc
      | mainLock main m' label fine =>
        have h2 := hr.two_le hg.own
        omega
      | creates _ _ _ _ _ _ _ _ _ _ _ _ _ lock => exact hframe lock
      | exits _ _ _ _ _ _ _ _ lock => exact hframe lock
      | frees _ _ _ _ lock => exact hframe lock
      | nothing _ _ _ _ _ _ _ lock => exact hframe lock
    · obtain ⟨⟨hstirs, -⟩, -, hpc⟩ := step_other h.inv hok hl hne hstep
      rw [hpc] at hpc'
      rcases h.inv.owner_new h.away hok hstep hl hne hpc' ho with ho₀ | ⟨-, hst⟩
      · -- It was in `LOCK_WAIT` before, as nobody is put into it by another.
        refine h.owner t m hl hpc' ?_ ho₀
        exact hstirs.state_of_lockWait hst'
      · rw [hst'] at hst
        cases hst
  · -- A thread that has just been created is in code of the program.
    rw [hpc'] at hpc
    cases hpc

end owner

/-- At first nobody waits for a mutex. -/
theorem init_lockInv (pagesize : ℤ) (last_clock : ℕ) : (init pagesize last_clock).LockInv :=
  ⟨init_inv pagesize last_clock, fun _ => .of_none rfl, fun _ _ hl => absurd hl.1 List.not_mem_nil⟩

/-! ## Delivery -/

/-- `t` is blocked in `st_usleep`, timed or not. -/
def Asleep (s : St) (t : ℕ) : Prop :=
  (s.thread t).state = .SLEEPING ∨ (s.thread t).state = .SUSPENDED

/-- `t` is blocked in a call of the library. -/
def Blocked (s : St) (t : ℕ) : Prop :=
  s.Live t ∧ ((s.thread t).state = .IO_WAIT ∨ (s.thread t).state = .COND_WAIT ∨
    (s.thread t).state = .LOCK_WAIT ∨ s.Asleep t)

/-- `t` has the turn and is in the program's code. Its last call has returned `r`. -/
def Back (s : St) (t : ℕ) (r : Res) : Prop := s.Runs t ∧ s.pcOf t = .user r

/-- The step is `Ok`, and the call that `t` is in has not returned before it. -/
def Awaits (t : ℕ) (s : St) (l : Label) : Prop := s.Ok l ∧ ∀ r, ¬s.Back t r

section deliver

variable {s s' : St} {l : Label} {t : ℕ}

/-- A call returns to the program. -/
theorem Acts.back {th : Thread} {r : Res} (ha : Acts s s' t th (.user r)) (hr : s.Runs t)
    (hst : th.state = .RUNNING) : s'.Back t r := by
  refine ⟨⟨(ha.live t).mpr hr.live, ?_, ?_, ?_⟩, ha.pcOf_self hr⟩
  · rw [ha.running, ha.id_eq, hr.running]
  · rw [ha.thread_self, hst]
  · rw [ha.this_thread, hr.this]

/-- The thread `t` is back from its call, which was interrupted, and the flag is clear. -/
def BackInterrupted (s : St) (t : ℕ) : Prop :=
  s.Back t (.error .EINTR) ∧ (s.thread t).flags.interrupt = false

/-- The thread `t` has been interrupted in the call that it was in at `s₀`, and has not gone on. -/
structure Marked (s₀ : St) (t : ℕ) (s : St) : Prop where
  lockInv : s.LockInv
  live : s.Live t
  pc : s.pcOf t = s₀.pcOf t
  flag : (s.thread t).flags.interrupt = true
  state : (s.thread t).state = .RUNNABLE ∨ s.Runs t
  owner : ∀ m, s.pcOf t = .lock t m → (s.mutex m).owner ≠ some t

/-- The rest of a call that has been interrupted. -/
theorem Runs.interrupted (hg : s.Good) (hr : s.Runs t) (hflag : (s.thread t).flags.interrupt = true)
    (howner : ∀ m, s.pcOf t = .lock t m → (s.mutex m).owner ≠ some t)
    (huser : ∀ r, s.pcOf t ≠ .user r) (hstep : s.step l = some s') : s'.BackInterrupted t := by
  have hfits := (hg.core.recs t).pc hr.live
  have hpc := hr.pc_eq
  cases hp : s.pcOf t with
  | user r => exact absurd hp (huser r)
  | poll me q =>
    rw [hp] at hpc hfits
    obtain ⟨rfl, -⟩ := hfits
    -- The test behind the switch finds the flag, whatever `on_ioq` says.
    have hend : s.pollEnd me q = some (((s.setEv (s.ev.unregister q)).setFlags me fun fl =>
        { fl with interrupt := false }).ret (.error .EINTR)) := if_pos hflag
    have ha : Acts s s' me
        { s.thread me with flags := { (s.thread me).flags with interrupt := false } }
        (.user (.error .EINTR)) := by
      cases step_goes hpc hstep with
      | poll hgo =>
        rw [← Option.some_inj.mp (hend.symm.trans hgo)]
        exact .of_links rfl rfl rfl rfl rfl rfl
    exact ⟨ha.back hr hr.state, congrArg (fun th : Thread => th.flags.interrupt) ha.thread_self⟩
  | condWait me c =>
    rw [hp] at hpc hfits
    obtain rfl : me = t := hfits
    -- The flag of the interrupt is tested before that of the timeout.
    have hres : (s.condUnblock me c).2 = .error .EINTR := if_pos hflag
    have ha : Acts s s' me { s.thread me with
        flags := { (s.thread me).flags with timedout := false, interrupt := false } }
        (.user (.error .EINTR)) := by
      cases step_goes hpc hstep with
      | condWait hgo =>
        rw [hgo, hres]
        exact .of_links rfl rfl rfl rfl rfl rfl
    exact ⟨ha.back hr hr.state, congrArg (fun th : Thread => th.flags.interrupt) ha.thread_self⟩
  | lock me m =>
    rw [hp] at hpc hfits
    obtain rfl : me = t := hfits
    -- Only a thread that has become the owner meanwhile would ignore the flag.
    have howner' : ((s.setWaitQ m ((s.mutex m).wait_q.erase me)).mutex m).owner ≠ some me := by
      simpa [setWaitQ] using howner m hp
    have hend : s.mutexLockEnd me m = ((s.setWaitQ m ((s.mutex m).wait_q.erase me)).setFlags me
        fun fl => { fl with interrupt := false }).ret (.error .EINTR) := if_pos ⟨hflag, howner'⟩
    have ha : Acts s s' me
        { s.thread me with flags := { (s.thread me).flags with interrupt := false } }
        (.user (.error .EINTR)) := by
      cases step_goes hpc hstep with
      | lock hgo =>
        rw [hgo, hend]
        exact .of_links rfl rfl rfl rfl rfl rfl
    exact ⟨ha.back hr hr.state, congrArg (fun th : Thread => th.flags.interrupt) ha.thread_self⟩
  | join me c u =>
    rw [hp] at hpc hfits
    obtain ⟨rfl, -⟩ := hfits
    -- `st_thread_join` gives up on the error of its wait.
    have hres : s.condUnblock me c = ((s.condUnblock me c).1, .error .EINTR) :=
      Prod.ext rfl (if_pos hflag)
    have ha : Acts s s' me { s.thread me with
        flags := { (s.thread me).flags with timedout := false, interrupt := false } }
        (.user (.error .EINTR)) := by
      cases step_goes hpc hstep with
      | join hgo =>
        unfold joinEnd at hgo
        rw [hres] at hgo
        cases hgo
        exact .of_links rfl rfl rfl rfl rfl rfl
    exact ⟨ha.back hr hr.state, congrArg (fun th : Thread => th.flags.interrupt) ha.thread_self⟩
  | _ =>
    rw [hp] at hfits
    exact hfits.elim

/-- The interrupt itself. -/
theorem Blocked.interrupt (h : s.LockInv) (hb : s.Blocked t)
    (hstep : s.step (.call (.interrupt t)) = some s') : Marked s t s' := by
  obtain ⟨hl, hst⟩ := hb
  have hg := h.inv.good
  obtain ⟨hrun, hrun', hz⟩ : (s.thread t).state ≠ .RUNNING ∧ (s.thread t).state ≠ .RUNNABLE ∧
      (s.thread t).state ≠ .ZOMBIE := by
    rcases hst with hst | hst | hst | hst | hst <;> rw [hst] <;> decide
  have hne : (s.thread t).id ≠ s.running := fun heq => hrun (hg.runs_of_live hl heq).state
  have hok : s.Ok (.call (.interrupt t)) := trivial
  have hlock' := step_lockInv h hok hstep
  obtain ⟨-, hl', hpc⟩ := step_other h.inv hok hl hne hstep
  obtain ⟨hth, hmutex⟩ : s'.thread t = (s.thread t).flagged.woken ∧ s'.mutex = s.mutex := by
    obtain ⟨-, -, hgo⟩ := step_call_user hstep
    simp only [call] at hgo
    split_ifs at hgo
    obtain ⟨s₁, hs₁, rfl⟩ := Option.map_eq_some_iff.mp hgo
    obtain ⟨hth, -, hmutex⟩ := threadInterrupt_waiting hrun hrun' hz hs₁
    exact ⟨hth, hmutex⟩
  refine ⟨hlock', hl', hpc, by rw [hth]; rfl, Or.inl (by rw [hth]; rfl), fun m hpcm => ?_⟩
  rw [hpc] at hpcm
  rw [hmutex]
  refine h.owner t m hl hpcm ?_
  -- Of the waiting states, only `LOCK_WAIT` fits the place.
  have hfits := (hg.core.recs t).state hl
  rcases hst with hst | hst | hst | hst | hst
  · rw [hst] at hfits
    obtain ⟨-, q, hq, -⟩ := hfits
    rw [hpcm] at hq
    cases hq
  · rw [hst] at hfits
    obtain ⟨c, hc⟩ := hfits
    rw [hpcm] at hc
    exact hc.elim
  · exact hst
  · rw [hst] at hfits
    obtain ⟨-, r, hr⟩ := hfits
    rw [hpcm] at hr
    cases hr
  · rw [hst] at hfits
    obtain ⟨r, hr⟩ := hfits
    rw [hpcm] at hr
    cases hr

/-- As long as the thread does not go on, nothing takes the mark from it. When it goes on, its call
returns. -/
theorem Marked.step {s₀ : St} (h : Marked s₀ t s) (hawaits : Awaits t s l)
    (hstep : s.step l = some s') :
    Marked s₀ t s' ∨ (s'.BackInterrupted t ∧ ∀ r, s₀.pcOf t ≠ .user r) := by
  obtain ⟨hok, hback⟩ := hawaits
  have hg := h.lockInv.inv.good
  by_cases hne : (s.thread t).id = s.running
  · have hr := hg.runs_of_live h.live hne
    have huser : ∀ r, s.pcOf t ≠ .user r := fun r hpc => hback r ⟨hr, hpc⟩
    refine Or.inr ⟨hr.interrupted hg h.flag h.owner huser hstep, fun r hpc => ?_⟩
    exact huser r (h.pc.trans hpc)
  · have hst : (s.thread t).state = .RUNNABLE :=
      h.state.resolve_right fun hr => hne hr.running.symm
    have hlock' := step_lockInv h.lockInv hok hstep
    obtain ⟨⟨hstirs, -⟩, hl', hpc⟩ := step_other h.lockInv.inv hok h.live hne hstep
    refine Or.inl ⟨hlock', hl', hpc.trans h.pc, hstirs.interrupt h.flag, ?_, fun m hpcm ho => ?_⟩
    · rcases hstirs.state_of_runnable hst with hst' | hst'
      · exact Or.inl hst'
      · have hfits := (hlock'.inv.good.core.recs t).state hl'
        rw [hst'] at hfits
        exact Or.inr ⟨hl', hfits.1, hst', hfits.2⟩
    · rw [hpc] at hpcm
      rcases h.lockInv.inv.owner_new h.lockInv.away hok hstep h.live hne hpcm ho with ho₀ | ⟨hst₀, -⟩
      · exact h.owner m hpcm ho₀
      · rw [hst] at hst₀
        cases hst₀

/-- A thread that is blocked is in the program's code only if it sleeps. -/
theorem Blocked.asleep_iff (hc : s.Core []) (hb : s.Blocked t) :
    s.Asleep t ↔ ∃ r, s.pcOf t = .user r := by
  obtain ⟨hl, hst⟩ := hb
  have hfits := (hc.recs t).state hl
  constructor
  · rintro (hsleep | hsleep)
    · rw [hsleep] at hfits
      exact hfits.2
    · rw [hsleep] at hfits
      exact hfits
  · rintro ⟨r, hr⟩
    rcases hst with hst | hst | hst | hst
    · rw [hst] at hfits
      obtain ⟨-, q, hq, -⟩ := hfits
      rw [hr] at hq
      cases hq
    · rw [hst] at hfits
      obtain ⟨c, hc⟩ := hfits
      rw [hr] at hc
      exact hc.elim
    · rw [hst] at hfits
      obtain ⟨m, hm⟩ := hfits
      rw [hr] at hm
      exact hm.elim
    · exact hst

end deliver

/-- In each run whose steps are `Ok`: when an interrupt takes a thread out of its wait, and then the
call that it waited in returns, it returns `-1` with `EINTR` and the flag is clear, if and only if the
call is not `st_usleep`. -/
theorem run_interrupt_delivered (pagesize : ℤ) (last_clock : ℕ) (ls ls' : List Label) (t : ℕ)
    {s s₁ s₂ : St} {r : Res} (hrun : Runs.run step (init pagesize last_clock) ls = some s)
    (hok : Runs.Meets step Ok (init pagesize last_clock) ls) (hblocked : s.Blocked t)
    (hint : s.step (.call (.interrupt t)) = some s₁) (hrun' : Runs.run step s₁ ls' = some s₂)
    (hawaits : Runs.Meets step (Awaits t) s₁ ls') (hback : s₂.Back t r) :
    (r = .error .EINTR ∧ (s₂.thread t).flags.interrupt = false) ↔ ¬s.Asleep t := by
  have h : s.LockInv := Runs.run_invariant step_lockInv (init_lockInv pagesize last_clock) hok hrun
  -- From the interrupt on, the thread is marked until its call returns.
  have hmarked : Marked s t s₂ ∨ (s₂.BackInterrupted t ∧ ∀ r, s.pcOf t ≠ .user r) := by
    refine Runs.run_invariant (I := fun x => Marked s t x ∨ (x.BackInterrupted t ∧
      ∀ r, s.pcOf t ≠ .user r)) (fun {x l x'} hx hawaits hstep => ?_)
      (Or.inl (hblocked.interrupt h hint)) hawaits hrun'
    rcases hx with hx | ⟨hx, -⟩
    · exact hx.step hawaits hstep
    · exact absurd hx.1 (hawaits.2 _)
  rw [hblocked.asleep_iff h.inv.good.core]
  constructor
  · rintro ⟨-, hflag⟩ ⟨r', hr'⟩
    rcases hmarked with hm | ⟨-, hpc⟩
    · rw [hm.flag] at hflag
      cases hflag
    · exact hpc r' hr'
  · intro hpc
    rcases hmarked with hm | ⟨⟨⟨-, hpc'⟩, hflag⟩, -⟩
    · exact absurd ⟨r, hm.pc.symm.trans hback.2⟩ hpc
    · have heq := hback.2.symm.trans hpc'
      cases heq
      exact ⟨rfl, hflag⟩

instance (s : St) (t : ℕ) : Decidable (s.Live t) := inferInstanceAs (Decidable (_ ∧ _ ∧ _))

instance (s : St) (t : ℕ) : Decidable (s.Runs t) :=
  decidable_of_iff (s.Live t ∧ s.running = (s.thread t).id ∧ (s.thread t).state = .RUNNING ∧
      s.this_thread = some t)
    ⟨fun h => ⟨h.1, h.2.1, h.2.2.1, h.2.2.2⟩, fun h => ⟨h.live, h.running, h.state, h.this⟩⟩

instance (s : St) (t : ℕ) (r : Res) : Decidable (s.Back t r) := inferInstanceAs (Decidable (_ ∧ _))

instance (s : St) (t : ℕ) : Decidable (s.Asleep t) := inferInstanceAs (Decidable (_ ∨ _))

instance (s : St) (t : ℕ) : Decidable (s.Blocked t) :=
  inferInstanceAs (Decidable (_ ∧ (_ ∨ _ ∨ _ ∨ _)))

instance (t : ℕ) (s : St) (l : Label) : Decidable (Awaits t s l) :=
  decidable_of_iff (s.Ok l ∧ ¬(s.Runs t ∧ (s.pcOf t).isUser = true)) (and_congr_right fun _ => by
    rw [Pc.isUser_iff, not_and, not_exists]
    exact ⟨fun h r hb => h hb.1 r hb.2, fun h hr r hpc => h r ⟨hr, hpc⟩⟩)

/-- Two threads. The first one waits on a condition variable. -/
def waitsOnCond : List Label :=
  [.call (.create false 0 ⟨true, true, true⟩), .call (.create false 0 ⟨true, true, true⟩),
    .call (.usleep 1), .call (.condTimedwait 0 1000)]

/-- The state in which the second thread interrupts the first one. -/
def waiterBlocked : St := (Runs.run step (init 4096 0) waitsOnCond).get (by decide)

/-- The state after the interrupt. -/
def waiterMarked : St := (waiterBlocked.step (.call (.interrupt 1))).get (by decide)

/-- The second thread then gives the turn away, and the first one goes on. -/
theorem run_interrupt_delivered_waitsOnCond :
    Runs.run step (init 4096 0) waitsOnCond = some waiterBlocked ∧ waiterBlocked.Blocked 1 ∧
      waiterBlocked.step (.call (.interrupt 1)) = some waiterMarked ∧
      ∃ s, Runs.run step waiterMarked [.call (.usleep 1), .resume] = some s ∧
        s.Back 1 (.error .EINTR) ∧ (s.thread 1).flags.interrupt = false := by
  have hrun : Runs.run step (init 4096 0) waitsOnCond = some waiterBlocked := by simp [waiterBlocked]
  have hint : waiterBlocked.step (.call (.interrupt 1)) = some waiterMarked := by simp [waiterMarked]
  refine ⟨hrun, by decide, hint,
    (Runs.run step waiterMarked [.call (.usleep 1), .resume]).get (by decide), by simp, by decide, ?_⟩
  exact ((run_interrupt_delivered 4096 0 waitsOnCond [.call (.usleep 1), .resume] 1 hrun (by decide)
    (by decide) hint (by simp) (by decide) (r := .error .EINTR) (by decide)).mpr (by decide)).2

/-- Two threads. The first one sleeps. -/
def sleepsFirst : List Label :=
  [.call (.create false 0 ⟨true, true, true⟩), .call (.create false 0 ⟨true, true, true⟩),
    .call (.usleep 1), .call (.usleep 1000)]

/-- The state in which the second thread interrupts the first one. -/
def sleeperBlocked : St := (Runs.run step (init 4096 0) sleepsFirst).get (by decide)

/-- The state after the interrupt. -/
def sleeperMarked : St := (sleeperBlocked.step (.call (.interrupt 1))).get (by decide)

/-- The first thread is back from `st_usleep`. -/
def sleeperBack : St := (sleeperMarked.step (.call (.usleep 1))).get (by decide)

/-- The second thread interrupts the first one. `st_usleep` returns `0` and leaves the flag, and the
next call of the first thread fails. -/
theorem run_interrupt_lost :
    Runs.run step (init 4096 0) sleepsFirst = some sleeperBlocked ∧ sleeperBlocked.Blocked 1 ∧
      sleeperBlocked.step (.call (.interrupt 1)) = some sleeperMarked ∧
      Awaits 1 sleeperMarked (.call (.usleep 1)) ∧
      sleeperMarked.step (.call (.usleep 1)) = some sleeperBack ∧ sleeperBack.Back 1 (.ok 0) ∧
      (sleeperBack.thread 1).flags.interrupt = true ∧
      ∃ s, sleeperBack.step (.call (.condTimedwait 0 1000)) = some s ∧ s.Back 1 (.error .EINTR) := by
  refine ⟨by simp [sleeperBlocked], by decide, by simp [sleeperMarked], by decide, by simp [sleeperBack],
    by decide, by decide, (sleeperBack.step (.call (.condTimedwait 0 1000))).get (by decide), by simp,
    by decide⟩

end St

end StWin
