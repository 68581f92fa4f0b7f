import StWin.Sched.Model

/-!
# Paths through the calls

What a call comes to, by the branches that it takes, whatever the state: the inversion of the functions
that wait, join, and terminate. A module that follows some part of the state through all of them takes
the branches from here, and looks at the assignments only.
-/

namespace StWin.St

section paths

variable {s s' : St}

/-! ## Waiting -/

/-- The return of a call that has found the flag `_ST_FL_INTERRUPT`. -/
def eintr (s : St) (me : ℕ) : St :=
  (s.setFlags me fun fl => { fl with interrupt := false }).ret (.error .EINTR)

/-- A call that first asks for an interrupt. -/
theorem interrupted_paths {me : ℕ} {k : St → Option St} (h : s.interrupted me k = some s') :
    ((s.thread me).flags.interrupt = true ∧ s' = s.eintr me) ∨
      ((s.thread me).flags.interrupt = false ∧ k s = some s') := by
  unfold interrupted at h
  cases hflag : (s.thread me).flags.interrupt with
  | true =>
    rw [if_pos hflag] at h
    cases h
    exact Or.inl ⟨rfl, rfl⟩
  | false =>
    rw [if_neg (by simp [hflag])] at h
    exact Or.inr ⟨rfl, h⟩

/-- The paths through `st_poll`, up to the switch. -/
inductive Polls (s s' : St) (pds : List Pollfd) (timeout : ℕ) : Prop where
  | outside (this : s.this_thread = none) (eq : s' = s.ret (.ok 0))
  | interrupted (me : ℕ) (this : s.this_thread = some me)
      (flag : (s.thread me).flags.interrupt = true) (eq : s' = s.eintr me)
  | waits (me : ℕ) (s₁ : St) (this : s.this_thread = some me)
      (flag : (s.thread me).flags.interrupt = false)
      (sleeps : (s.setEv (s.ev.register me pds)).addSleepQ me
        (if timeout ≠ ST_UTIME_NO_TIMEOUT then timeout else 1) = some s₁)
      (eq : s' = ((s₁.setState me .IO_WAIT).setPc (.poll me s.ev.next)).vpSchedule)

/-- The paths through `st_poll`. -/
theorem poll_paths {pds : List Pollfd} {timeout : ℕ} (h : s.poll pds timeout = some s') :
    Polls s s' pds timeout := by
  unfold poll at h
  cases hthis : s.this_thread with
  | none =>
    rw [hthis] at h
    cases h
    exact .outside hthis rfl
  | some me =>
    rw [hthis] at h
    rcases interrupted_paths h with ⟨hflag, rfl⟩ | ⟨hflag, h⟩
    · exact .interrupted me hthis hflag rfl
    · obtain ⟨s₁, hs₁, h⟩ := Option.bind_eq_some_iff.mp h
      cases h
      exact .waits me s₁ hthis hflag hs₁ rfl

/-- The paths through `st_poll` after the switch: an interrupt, or a return. -/
theorem pollEnd_paths {me pq : ℕ} (h : s.pollEnd me pq = some s') :
    s' = (s.setEv (s.ev.unregister pq)).eintr me ∨
      ∃ n, s' = (s.setEv (s.ev.unregister pq)).ret (.ok n) := by
  unfold pollEnd at h
  rcases interrupted_paths h with ⟨-, rfl⟩ | ⟨-, h⟩
  · exact Or.inl rfl
  · cases h
    exact Or.inr ⟨_, rfl⟩

/-- The paths through `st_usleep`. -/
inductive Usleeps (s s' : St) (usecs : ℕ) : Prop where
  /-- There is no thread, or it does not have to be put to sleep. -/
  | stays (skip : ∀ me, s.this_thread = some me → (s.thread me).state = .ZOMBIE ∨
      usecs ≠ ST_UTIME_NO_TIMEOUT ∧ (s.thread me).state = .SLEEPING)
      (eq : s' = (s.ret (.ok 0)).vpSchedule)
  | interrupted (me : ℕ) (this : s.this_thread = some me)
      (flag : (s.thread me).flags.interrupt = true) (eq : s' = s.eintr me)
  | sleeps (me : ℕ) (s₁ : St) (this : s.this_thread = some me)
      (alive : (s.thread me).state ≠ .ZOMBIE) (flag : (s.thread me).flags.interrupt = false)
      (timeout : usecs ≠ ST_UTIME_NO_TIMEOUT) (awake : (s.thread me).state ≠ .SLEEPING)
      (sleeps : (s.setState me .SLEEPING).addSleepQ me usecs = some s₁)
      (eq : s' = (s₁.ret (.ok 0)).vpSchedule)
  | suspends (me : ℕ) (this : s.this_thread = some me) (timeout : usecs = ST_UTIME_NO_TIMEOUT)
      (eq : s' = ((s.setState me .SUSPENDED).ret (.ok 0)).vpSchedule)

/-- The paths through `st_usleep`. -/
theorem usleep_paths {usecs : ℕ} (h : s.usleep usecs = some s') : Usleeps s s' usecs := by
  unfold usleep at h
  cases hthis : s.this_thread with
  | none =>
    rw [hthis] at h
    cases h
    refine .stays (fun me hme => ?_) rfl
    rw [hthis] at hme
    cases hme
  | some me =>
    have hskip {P : ℕ → Prop} (hP : P me) : ∀ t, s.this_thread = some t → P t := by
      intro t ht
      rw [hthis, Option.some_inj] at ht
      exact ht ▸ hP
    rw [hthis] at h
    dsimp only at h
    by_cases hz : (s.thread me).state = .ZOMBIE
    · rw [if_pos hz] at h
      cases h
      exact .stays (hskip (Or.inl hz)) rfl
    rw [if_neg hz] at h
    rcases interrupted_paths h with ⟨hflag, rfl⟩ | ⟨hflag, h⟩
    · exact .interrupted me hthis hflag rfl
    · split_ifs at h with husecs hst
      · cases h
        exact .stays (hskip (Or.inr ⟨husecs, hst⟩)) rfl
      · obtain ⟨s₁, hs₁, rfl⟩ := Option.map_eq_some_iff.mp h
        exact .sleeps me s₁ hthis hz hflag husecs hst hs₁ rfl
      · cases h
        exact .suspends me hthis (not_not.mp husecs) rfl

/-- A thread that waits on a condition variable is linked on its queue. -/
def linkCond (s : St) (me : ℕ) (c : Cond) : St :=
  (s.setState me .COND_WAIT).setCondQ c (s.cond_q c ++ [me])

/-- A thread that begins to wait on a condition variable joins its queue, with a timeout or without. -/
theorem condBlock_paths {me timeout : ℕ} {c : Cond} {pc : Pc}
    (h : s.condBlock me c timeout pc = some s') : ∃ s₁, s' = (s₁.setPc pc).vpSchedule ∧
      ((timeout ≠ ST_UTIME_NO_TIMEOUT ∧ (s.linkCond me c).addSleepQ me timeout = some s₁) ∨
        (timeout = ST_UTIME_NO_TIMEOUT ∧ s₁ = s.linkCond me c)) := by
  obtain ⟨s₁, hs₁, rfl⟩ := Option.map_eq_some_iff.mp h
  refine ⟨s₁, rfl, ?_⟩
  split_ifs at hs₁ with htimeout
  · exact Or.inl ⟨htimeout, hs₁⟩
  · cases hs₁
    exact Or.inr ⟨not_not.mp htimeout, rfl⟩

/-- The paths through `st_cond_timedwait`, up to the switch. -/
inductive TimedWaits (s s' : St) (c : Cond) (timeout : ℕ) : Prop where
  | outside (this : s.this_thread = none) (eq : s' = s.ret (.ok 0))
  | interrupted (me : ℕ) (this : s.this_thread = some me)
      (flag : (s.thread me).flags.interrupt = true) (eq : s' = s.eintr me)
  | waits (me : ℕ) (this : s.this_thread = some me) (flag : (s.thread me).flags.interrupt = false)
      (blocks : s.condBlock me c timeout (.condWait me c) = some s')

/-- The paths through `st_cond_timedwait`. -/
theorem condTimedwait_paths {c : Cond} {timeout : ℕ} (h : s.condTimedwait c timeout = some s') :
    TimedWaits s s' c timeout := by
  unfold condTimedwait at h
  cases hthis : s.this_thread with
  | none =>
    rw [hthis] at h
    cases h
    exact .outside hthis rfl
  | some me =>
    rw [hthis] at h
    rcases interrupted_paths h with ⟨hflag, rfl⟩ | ⟨hflag, h⟩
    · exact .interrupted me hthis hflag rfl
    · exact .waits me hthis hflag h

/-- The paths through `st_mutex_lock`, up to the switch. -/
inductive Locking (s s' : St) (m : ℕ) : Prop where
  /-- There is no thread, or it has the mutex already. -/
  | returns (r : Res) (eq : s' = s.ret r)
  | interrupted (me : ℕ) (this : s.this_thread = some me)
      (flag : (s.thread me).flags.interrupt = true) (eq : s' = s.eintr me)
  | locks (me : ℕ) (this : s.this_thread = some me)
      (eq : s' = ((s.setOwner m (some me)).note (.locked m me)).ret (.ok 0))
  | waits (me : ℕ) (this : s.this_thread = some me)
      (eq : s' = ((((s.setState me .LOCK_WAIT).setWaitQ m ((s.mutex m).wait_q ++ [me])).note
        (.lockWait m me)).setPc (.lock me m)).vpSchedule)

/-- The paths through `st_mutex_lock`. -/
theorem mutexLock_paths {m : ℕ} (h : s.mutexLock m = some s') : Locking s s' m := by
  unfold mutexLock at h
  cases hthis : s.this_thread with
  | none =>
    rw [hthis] at h
    cases h
    exact .returns _ rfl
  | some me =>
    rw [hthis] at h
    rcases interrupted_paths h with ⟨hflag, rfl⟩ | ⟨-, h⟩
    · exact .interrupted me hthis hflag rfl
    · split at h
      · cases h
        exact .locks me hthis rfl
      · split_ifs at h
        · cases h
          exact .returns _ rfl
        · cases h
          exact .waits me hthis rfl

/-- The paths through `st_thread_interrupt`. -/
theorem threadInterrupt_paths {t : ℕ} (h : s.threadInterrupt t = some s') :
    s' = s ∨ s' = (s.setFlags t fun fl => { fl with interrupt := true }) ∨
      (s.setFlags t fun fl => { fl with interrupt := true }).wake t = some s' := by
  unfold threadInterrupt at h
  dsimp only at h
  split_ifs at h
  · cases h
    exact Or.inl rfl
  · cases h
    exact Or.inr (Or.inl rfl)
  · exact Or.inr (Or.inr h)

/-! ## Joining -/

/-- The paths through the loop of `st_thread_join`. -/
inductive Joining (s s' : St) (c : Cond) (t : ℕ) : Prop where
  | joined (state : (s.thread t).state = .ZOMBIE)
      (eq : s' = ((({ s.setState t .RUNNABLE with zombie_q := s.zombie_q.erase t } : St).addRunq t).note
        (.joined s.running t c (s.thread t).retval)).ret (.ok 0))
  | interrupted (me : ℕ) (this : s.this_thread = some me) (eq : s' = s.eintr me)
  | waits (me : ℕ) (this : s.this_thread = some me)
      (blocks : s.condBlock me c ST_UTIME_NO_TIMEOUT (.join me c t) = some s')

/-- The paths through the loop of `st_thread_join`. -/
theorem joinLoop_paths {c : Cond} {t : ℕ} (h : s.joinLoop c t = some s') : Joining s s' c t := by
  unfold joinLoop at h
  by_cases hz : (s.thread t).state = .ZOMBIE
  · rw [if_pos hz] at h
    cases h
    exact .joined hz rfl
  · rw [if_neg hz] at h
    cases hthis : s.this_thread with
    | none =>
      rw [hthis] at h
      cases h
    | some me =>
      rw [hthis] at h
      rcases interrupted_paths h with ⟨-, rfl⟩ | ⟨-, h⟩
      · exact .interrupted me hthis rfl
      · exact .waits me hthis h

/-- `st_thread_join` returns at once, or comes to its loop with nobody else waiting. -/
theorem threadJoin_paths {t : ℕ} (h : s.threadJoin t = some s') : (∃ r, s' = s.ret r) ∨
    ∃ c, (s.thread t).term = some c ∧ s.cond_q c = [] ∧ s.joinLoop c t = some s' := by
  unfold threadJoin at h
  split at h
  · cases h
    exact Or.inl ⟨_, rfl⟩
  · next c hterm =>
    split_ifs at h with hself hq
    · cases h
      exact Or.inl ⟨_, rfl⟩
    · cases h
      exact Or.inl ⟨_, rfl⟩
    · exact Or.inr ⟨c, hterm, not_not.mp hq, h⟩

/-- The paths through `st_thread_join` after a wait in its loop. -/
theorem joinEnd_paths {me t : ℕ} {c : Cond} (h : s.joinEnd me c t = some s') :
    (∃ e, s' = (s.condUnblock me c).1.ret (.error e)) ∨
      (s.condUnblock me c).1.joinLoop c t = some s' := by
  unfold joinEnd at h
  split at h
  · next s₁ e heq =>
    cases h
    exact Or.inl ⟨e, by rw [heq]⟩
  · next s₁ v heq =>
    rw [heq]
    exact Or.inr h

/-! ## Termination -/

/-- The record of a thread that has entered `st_thread_exit`. -/
def enterExit (s : St) (t : ℕ) (retval : ℤ) : St :=
  let s := s.setThread t fun th => { th with retval := retval }
  let s := { s with active_count := s.active_count - 1 }
  let s := s.setLife (s.thread t).id fun l => { l with exits := l.exits + 1 }
  s.setState t .ZOMBIE

/-- `st_thread_exit` writes the caller's record. -/
theorem enterExit_thread (s : St) (t : ℕ) (retval : ℤ) : (s.enterExit t retval).thread =
    Function.update s.thread t { s.thread t with retval := retval, state := .ZOMBIE } := by
  simp [enterExit, setState, setThread, setLife]

/-- The paths through `st_thread_exit`, up to its first switch. -/
inductive Exiting (s s' : St) (retval : ℤ) (explicit : Bool) : Prop where
  | outside (this : s.this_thread = none) (eq : s' = s.exitReturn explicit)
  | frees (t : ℕ) (this : s.this_thread = some t) (term : (s.thread t).term = none)
      (eq : s' = (s.enterExit t retval).exitFree t explicit)
  | signals (t : ℕ) (c : Cond) (s₁ : St) (this : s.this_thread = some t)
      (term : (s.thread t).term = some c)
      (signal : ({ s.enterExit t retval with zombie_q := s.zombie_q ++ [t] } : St).condSignal c false =
        some s₁)
      (eq : s' = (s₁.setPc (.exitTerm t explicit)).switchContext t)

/-- The paths through `st_thread_exit`. -/
theorem threadExit_paths {retval : ℤ} {explicit : Bool} (h : s.threadExit retval explicit = some s') :
    Exiting s s' retval explicit := by
  unfold threadExit at h
  split at h
  · next hthis =>
    cases h
    exact .outside hthis rfl
  · next t hthis =>
    have hterm : ((s.enterExit t retval).thread t).term = (s.thread t).term := by
      rw [enterExit_thread, Function.update_self]
    dsimp only at h
    split at h
    · next hnone =>
      cases h
      exact .frees t hthis (hterm.symm.trans hnone) rfl
    · next c hsome =>
      obtain ⟨s₁, hs₁, h⟩ := Option.bind_eq_some_iff.mp h
      cases h
      exact .signals t c s₁ hthis (hterm.symm.trans hsome) hs₁ rfl

/-- After its first switch `st_thread_exit` destroys the condition variable, if nobody waits on it. -/
theorem exitTermEnd_paths {t : ℕ} {explicit : Bool} (h : s.exitTermEnd t explicit = some s') :
    ∃ c s₁, (s.thread t).term = some c ∧ (s₁ = s ∨ (s₁ = s.note (.condFree c) ∧ s.cond_q c = [])) ∧
      s' = (s₁.setThread t fun th => { th with term := none }).exitFree t explicit := by
  unfold exitTermEnd at h
  split at h
  · cases h
  · next c hterm =>
    cases h
    refine ⟨c, s.condDestroy c, hterm, ?_, rfl⟩
    unfold condDestroy
    split_ifs with hq
    · exact Or.inl rfl
    · exact Or.inr ⟨rfl, not_not.mp hq⟩

/-- The idle thread, as the last statement of its loop finds it. -/
def readyIdle (s : St) : St :=
  if (s.thread s.idle_thread).state ≠ .ZOMBIE ∧ (s.thread s.idle_thread).state ≠ .RUNNABLE then
    s.setState s.idle_thread .RUNNABLE
  else s

/-- Behind its scheduling, the idle thread goes on with its loop, or exits when nobody is active. -/
theorem idleSched_paths (h : s.idleSched = some s') :
    (s.active_count ≤ 0 ∧ ∃ retval, s.readyIdle.threadExit retval false = some s') ∨
      (0 < s.active_count ∧ s' = (s.readyIdle.setPc (.idle .dispatch)).vpSchedule) := by
  have hcount : s.readyIdle.active_count = s.active_count := by
    unfold readyIdle
    split_ifs <;> rfl
  change (if s.readyIdle.active_count ≤ 0 then s.readyIdle.threadExit _ false
    else some (s.readyIdle.setPc (.idle .dispatch)).vpSchedule) = some s' at h
  rw [hcount] at h
  by_cases hended : s.active_count ≤ 0
  · rw [if_pos hended] at h
    exact Or.inl ⟨hended, _, h⟩
  · rw [if_neg hended] at h
    cases h
    exact Or.inr ⟨not_le.mp hended, rfl⟩

end paths

end StWin.St
