import StWin.Lib.Runs
import StWin.Sched.Driver
import StWin.Sched.Interrupt
import StWin.Sched.Links
import StWin.Sched.Passes

/-!
# The turns go by the run queue

A step gives the processor to another fiber by `_st_vp_schedule`, or by `swapOutFiber` back to `main`. In
the first case that is the first thread of the run queue, or the idle thread if the queue is empty. So the
order of the run queue is the order of the turns (`run_turns`): a thread with `k` others before it gets the
processor at the turn after the next `k`, whatever these threads do and however many others become runnable
meanwhile.

There is one exception. `_st_vp_schedule` puts its thread back at the tail if that is `_st_this_thread`. In
`st_idle_thread_run` this is the record of the thread that ran last, whose stack `main` may have got for a
thread that it has created since. `Orderly` leaves such a call out.
-/

namespace StWin.St

/-- The thread that gets the processor between `s` and `s'`, which may be the idle thread. -/
def turn (s s' : St) : Option ℕ :=
  if s'.running = s.running ∨ s'.running = 0 then none else s'.this_thread

/-- The turns of a run, in order. -/
def turns : St → List Label → List ℕ := Runs.served step turn

/-- The step is `Ok`, and `st_idle_thread_run` schedules only while `_st_this_thread` is not itself on the
run queue. -/
def Orderly (s : St) (l : Label) : Prop :=
  s.Ok l ∧ ((s.fiber s.running).pc = .native .sched → s.This (· ∉ s.run_q))

instance (s : St) (l : Label) : Decidable (s.Orderly l) :=
  have : Decidable (s.This (· ∉ s.run_q)) := by
    unfold This
    split <;> infer_instance
  inferInstanceAs (Decidable (_ ∧ (_ → _)))

/-- The turn goes to the first of the run queue, and threads are put at its end. -/
def Serves (s s' : St) : Prop := ∃ more, (turn s s').toList ++ s'.run_q = s.run_q ++ more

section turns

variable {s s' s₁ : St} {l : Label}

/-- Nobody gets the turn. -/
theorem Serves.of_append (hrun : s'.running = s.running ∨ s'.running = 0) {more : List ℕ}
    (hq : s'.run_q = s.run_q ++ more) : Serves s s' := by
  refine ⟨more, ?_⟩
  rw [turn, if_pos hrun, hq]
  rfl

/-- Nobody gets the turn in a part of a step that leaves it alone. -/
theorem Serves.of_stays (h : Stays (fun _ => True) s s') {more : List ℕ}
    (hq : s'.run_q = s.run_q ++ more) : Serves s s' := .of_append (Or.inl h.running) hq

/-- The same without a thread that becomes runnable. -/
theorem Serves.of_eq (h : Stays (fun _ => True) s s') (hq : s'.run_q = s.run_q) : Serves s s' :=
  .of_stays h (hq.trans (List.append_nil _).symm)

/-- All records have the property that all records have. -/
theorem names_true (s : St) : s.Names fun _ => True :=
  ⟨fun _ _ => trivial, trivial, fun _ _ => trivial, fun _ _ => trivial, fun _ _ => trivial,
    fun _ => ⟨fun _ _ => trivial, fun _ _ => trivial⟩⟩

/-! ## Up to the switch -/

/-- From `s` to `s₁` whoever is `_st_this_thread` prepares to wait: nothing is assigned to the other
records. -/
structure Parks (s s₁ : St) : Prop where
  run_q : s₁.run_q = s.run_q
  this_thread : s₁.this_thread = s.this_thread
  idle_thread : s₁.idle_thread = s.idle_thread
  thread : ∀ t, s.this_thread ≠ some t → s₁.thread t = s.thread t

namespace Parks

/-- Nothing has been done. -/
theorem refl (s : St) : Parks s s := ⟨rfl, rfl, rfl, fun _ _ => rfl⟩

/-- One after the other. -/
theorem trans (h : Parks s s₁) (h' : Parks s₁ s') : Parks s s' where
  run_q := h'.run_q.trans h.run_q
  this_thread := h'.this_thread.trans h.this_thread
  idle_thread := h'.idle_thread.trans h.idle_thread
  thread t ht := (h'.thread t (by rwa [h.this_thread])).trans (h.thread t ht)

/-- Assignments to other parts of the state. -/
theorem congr (h : Parks s s₁) (h1 : s'.run_q = s₁.run_q) (h2 : s'.this_thread = s₁.this_thread)
    (h3 : s'.idle_thread = s₁.idle_thread) (h4 : s'.thread = s₁.thread) : Parks s s' :=
  h.trans ⟨h1, h2, h3, fun t _ => congrFun h4 t⟩

/-- An assignment to the record of `_st_this_thread`. -/
theorem setThread (f : Thread → Thread) {me : ℕ} (hthis : s.this_thread = some me) :
    Parks s (s.setThread me f) := by
  refine ⟨rfl, rfl, rfl, fun t ht => Function.update_of_ne ?_ _ _⟩
  rintro rfl
  exact ht hthis

/-- `_ST_ADD_SLEEPQ` of `_st_this_thread`. -/
theorem addSleepQ {me timeout : ℕ} (hthis : s.this_thread = some me)
    (h : s.addSleepQ me timeout = some s') : Parks s s' := by
  obtain ⟨heap, -, rfl⟩ := Option.map_eq_some_iff.mp h
  exact (Parks.setThread (fun th => { th with flags := { th.flags with on_sleepq := true } })
    hthis).congr rfl rfl rfl rfl

end Parks

/-- `_st_vp_schedule` gives the turn to the first of the run queue. -/
theorem vpSchedule_serves (hg : s.Good) (hthis : s.This (· ∉ s.run_q)) (h : Parks s s₁) :
    Serves s s₁.vpSchedule := by
  cases hq : s.run_q with
  | nil =>
    have hnext : s₁.nextThread = (s₁.idle_thread, []) := by rw [nextThread, h.run_q, hq]
    have hempty : s₁.vpSchedule.run_q = [] := by simp [vpSchedule_run_q, hnext]
    exact ⟨(turn s s₁.vpSchedule).toList, by rw [hempty, hq, List.append_nil, List.nil_append]⟩
  | cons t q =>
    have hmem : t ∈ s.run_q := by rw [hq]; exact List.mem_cons_self
    have hrec := hg.core.recs t
    obtain ⟨hl, hst⟩ := hrec.run_q.mp hmem
    have hother : s.this_thread ≠ some t := fun ht => hthis.some ht hmem
    have hsame := h.thread t hother
    have hsched : s₁.vpSchedule.run_q = q ∧ s₁.vpSchedule.this_thread = some t ∧
        s₁.vpSchedule.running = (s.thread t).id := by
      simp [vpSchedule, nextThread, h.run_q, hq, h.this_thread, hother, hsame, hst, switchContext,
        setState, setThread, hrec.context hl]
    obtain ⟨hrun_q, hthis', hrunning⟩ := hsched
    -- The thread is not the one that runs, which is in the state `RUNNING`.
    have hne : s₁.vpSchedule.running ≠ s.running := by
      intro heq
      have hruns := (hg.runs_of_live hl (hrunning.symm.trans heq)).state
      rw [hst] at hruns
      cases hruns
    have hzero : s₁.vpSchedule.running ≠ 0 := by
      have := hg.own.live_id hl
      omega
    refine ⟨[], ?_⟩
    rw [turn, if_neg (not_or.mpr ⟨hne, hzero⟩), hthis', hrun_q, hq, List.append_nil]
    rfl

/-! ## The calls -/

/-- `st_poll`, up to the switch. -/
theorem poll_serves (hg : s.Good) (hthis : s.This (· ∉ s.run_q)) {pds : List Pollfd} {timeout : ℕ}
    (h : s.poll pds timeout = some s') : Serves s s' := by
  cases poll_paths h with
  | outside _ eq => exact .of_eq (eq ▸ Stays.ret s _) (eq ▸ rfl)
  | interrupted me _ _ eq => exact .of_eq (eq ▸ eintr_stays s me) (eq ▸ rfl)
  | waits me s₁ this _ sleeps eq =>
    have hev : Parks s (s.setEv (s.ev.register me pds)) := (Parks.refl s).congr rfl rfl rfl rfl
    have hsleep : Parks s s₁ := hev.trans (.addSleepQ this sleeps)
    have hstate := Parks.setThread (fun th => { th with state := .IO_WAIT }) (hsleep.this_thread.trans this)
    rw [eq]
    exact vpSchedule_serves hg hthis ((hsleep.trans hstate).congr rfl rfl rfl rfl)

/-- `st_usleep`. -/
theorem usleep_serves (hg : s.Good) (hthis : s.This (· ∉ s.run_q)) {usecs : ℕ}
    (h : s.usleep usecs = some s') : Serves s s' := by
  have hset {me : ℕ} (this : s.this_thread = some me) (st : TState) : Parks s (s.setState me st) :=
    .setThread _ this
  cases usleep_paths h with
  | stays _ eq =>
    rw [eq]
    exact vpSchedule_serves hg hthis ((Parks.refl s).congr rfl rfl rfl rfl)
  | interrupted me _ _ eq => exact .of_eq (eq ▸ eintr_stays s me) (eq ▸ rfl)
  | sleeps me s₁ this _ _ _ _ sleeps eq =>
    have hsleep : Parks s s₁ := (hset this .SLEEPING).trans (.addSleepQ this sleeps)
    rw [eq]
    exact vpSchedule_serves hg hthis (hsleep.congr rfl rfl rfl rfl)
  | suspends me this _ eq =>
    rw [eq]
    exact vpSchedule_serves hg hthis ((hset this .SUSPENDED).congr rfl rfl rfl rfl)

/-- A wait on a condition variable, up to the switch, after a part of the step in which only
`_st_this_thread` prepares to wait. -/
theorem condBlock_serves (hg : s.Good) (hthis : s.This (· ∉ s.run_q)) {s₀ : St} (h₀ : Parks s s₀)
    {me timeout : ℕ} {c : Cond} {pc : Pc} (this : s.this_thread = some me)
    (h : s₀.condBlock me c timeout pc = some s') : Serves s s' := by
  obtain ⟨s₁, rfl, hs₁⟩ := condBlock_paths h
  have this₀ : s₀.this_thread = some me := h₀.this_thread.trans this
  have hlink : Parks s (s₀.linkCond me c) := h₀.trans
    ((Parks.setThread (fun th => { th with state := .COND_WAIT }) this₀).congr rfl rfl rfl rfl)
  have hblock : Parks s s₁ := by
    rcases hs₁ with ⟨-, sleeps⟩ | ⟨-, rfl⟩
    · exact hlink.trans (.addSleepQ (hlink.this_thread.trans this) sleeps)
    · exact hlink
  exact vpSchedule_serves hg hthis (hblock.congr rfl rfl rfl rfl)

/-- `st_cond_timedwait`, up to the switch. -/
theorem condTimedwait_serves (hg : s.Good) (hthis : s.This (· ∉ s.run_q)) {c : Cond} {timeout : ℕ}
    (h : s.condTimedwait c timeout = some s') : Serves s s' := by
  cases condTimedwait_paths h with
  | outside _ eq => exact .of_eq (eq ▸ Stays.ret s _) (eq ▸ rfl)
  | interrupted me _ _ eq => exact .of_eq (eq ▸ eintr_stays s me) (eq ▸ rfl)
  | waits me this _ blocks => exact condBlock_serves hg hthis (.refl s) this blocks

/-- `st_mutex_lock`, up to the switch. -/
theorem mutexLock_serves (hg : s.Good) (hthis : s.This (· ∉ s.run_q)) {m : ℕ}
    (h : s.mutexLock m = some s') : Serves s s' := by
  cases mutexLock_paths h with
  | returns r eq => exact .of_eq (eq ▸ Stays.ret s _) (eq ▸ rfl)
  | interrupted me _ _ eq => exact .of_eq (eq ▸ eintr_stays s me) (eq ▸ rfl)
  | locks me _ eq =>
    rw [eq]
    exact .of_append (Or.inl rfl) (List.append_nil _).symm
  | waits me this eq =>
    rw [eq]
    exact vpSchedule_serves hg hthis
      ((Parks.setThread (fun th => { th with state := .LOCK_WAIT }) this).congr rfl rfl rfl rfl)

/-- The loop of `st_thread_join`: the joined thread becomes runnable, or the caller waits. -/
theorem joinLoop_serves (hg : s.Good) (hthis : s.This (· ∉ s.run_q)) {s₀ : St} (h₀ : Parks s s₀)
    (hrun : s₀.running = s.running) {c : Cond} {t : ℕ} (h : s₀.joinLoop c t = some s') :
    Serves s s' := by
  cases joinLoop_paths h with
  | joined _ eq =>
    have hq : s'.run_q = s.run_q ++ [t] := by rw [eq, ← h₀.run_q]; rfl
    exact .of_append (Or.inl (eq ▸ hrun)) hq
  | interrupted me _ eq =>
    have hq : s'.run_q = s.run_q ++ [] := by rw [eq, List.append_nil, ← h₀.run_q]; rfl
    exact .of_append (Or.inl (eq ▸ hrun)) hq
  | waits me this blocks =>
    exact condBlock_serves hg hthis h₀ (h₀.this_thread.symm.trans this) blocks

/-- `st_thread_join`, after a wait in its loop. -/
theorem joinEnd_serves (hg : s.Good) (hthis : s.This (· ∉ s.run_q)) {me t : ℕ} {c : Cond}
    (this : s.this_thread = some me) (h : s.joinEnd me c t = some s') : Serves s s' := by
  have hun : Parks s (s.condUnblock me c).1 :=
    (Parks.setThread (fun th => { th with flags := { th.flags with timedout := false, interrupt := false } })
      this).congr rfl rfl rfl rfl
  rcases joinEnd_paths h with ⟨e, rfl⟩ | h
  · exact .of_append (Or.inl rfl) (List.append_nil _).symm
  · exact joinLoop_serves hg hthis hun rfl h

/-- A signal or a broadcast. -/
theorem condSignal_serves (hg : s.Good) {n : ℕ} {broadcast : Bool} {r : Res}
    (h : (s.condSignal (.user n) broadcast).map (·.ret r) = some s') : Serves s s' := by
  obtain ⟨s₁, hs₁, rfl⟩ := Option.map_eq_some_iff.mp h
  obtain ⟨l, hl, -⟩ := condSignal_edits hs₁ rfl (hg.core.cond_nodup _)
  exact .of_stays ((condSignalLoop_stays broadcast _ s.names_true hs₁).trans (.ret s₁ r)) hl.run_q

/-- `st_mutex_trylock` leaves the run queue. -/
theorem mutexTrylock_run_q (s : St) (m : ℕ) : (s.mutexTrylock m).run_q = s.run_q := by
  unfold mutexTrylock
  split_ifs
  · rfl
  · cases s.this_thread <;> rfl

/-- A thread that is created comes last. -/
theorem threadCreate_serves {joinable : Bool} {stk_size : ℤ} {ok : Acquire} {start : Pc} {r : Res} :
    Serves s ((s.threadCreate start joinable stk_size ok).1.ret r) := by
  have hq : ∃ more, (s.threadCreate start joinable stk_size ok).1.run_q = s.run_q ++ more := by
    unfold threadCreate
    cases hnew : s.stackNew (s.stackSize stk_size) ok.stack with
    | none => exact ⟨[], (List.append_nil _).symm⟩
    | some p =>
      obtain ⟨t, s₁⟩ := p
      obtain ⟨free, sizes, seg, rfl⟩ := stackNew_eq hnew
      dsimp only
      split_ifs
      · exact ⟨[t], rfl⟩
      · exact ⟨[], (List.append_nil _).symm⟩
      · exact ⟨[t], rfl⟩
  obtain ⟨more, hmore⟩ := hq
  exact .of_append (Or.inl (threadCreate_running s start joinable stk_size ok)) hmore

/-- Whoever calls on behalf of a thread is not on the run queue. -/
theorem Good.caller_off (hg : s.Good) {r : Res} (hpc : (s.fiber s.running).pc = .user r)
    (hmain : s.running = 0 → s.This fun t => (s.thread t).state ≠ .RUNNABLE) : s.This (· ∉ s.run_q) := by
  cases hthis : s.this_thread with
  | none => exact .of_none hthis
  | some me =>
    refine .of_some hthis fun hmem => ?_
    have hst := ((hg.core.recs me).run_q.mp hmem).2
    rcases hg.caller hpc with h0 | ⟨t, hruns⟩
    · exact (hmain h0).some hthis hst
    · rw [hruns.this, Option.some_inj] at hthis
      rw [← hthis, hruns.state] at hst
      cases hst

/-- A call. -/
theorem call_serves {c : Call} {r : Res} (hg : s.Good) (hok : s.Allowed c)
    (hpc : (s.fiber s.running).pc = .user r) (h : s.call c = some s') : Serves s s' := by
  -- Whoever may call here, the current thread is not on the run queue.
  have hoff : (s.running = 0 → s.this_thread = none) → s.This (· ∉ s.run_q) := fun hnone =>
    hg.caller_off hpc fun h0 => .of_none (hnone h0)
  cases c with
  | poll pds timeout => exact poll_serves hg (hoff hok) h
  | usleep usecs =>
    -- `main` may sleep while a thread that has terminated is the current one.
    refine usleep_serves hg (hg.caller_off hpc fun h0 => ?_) h
    have hzombie := hok h0
    cases hthis : s.this_thread with
    | none => exact .of_none hthis
    | some me => exact .of_some hthis (by simp [hzombie.some hthis])
  | condTimedwait n timeout => exact condTimedwait_serves hg (hoff hok) h
  | condSignal n => exact condSignal_serves hg h
  | condBroadcast n => exact condSignal_serves hg h
  | mutexLock m => exact mutexLock_serves hg (hoff hok) h
  | mutexTrylock m =>
    cases h
    exact .of_eq (s.mutexTrylock_stays m) (s.mutexTrylock_run_q m)
  | mutexUnlock m =>
    cases h
    obtain ⟨l, hl, -⟩ := mutexUnlock_edits (hg.core.wait_nodup m)
    exact .of_stays (mutexUnlock_stays s.names_true m) hl.run_q
  | interrupt t =>
    simp only [call] at h
    split_ifs at h
    obtain ⟨s₁, hs₁, rfl⟩ := Option.map_eq_some_iff.mp h
    obtain ⟨l, hl, -⟩ := threadInterrupt_edits hs₁
    exact .of_stays ((threadInterrupt_stays s.names_true hs₁).trans (.ret s₁ _)) hl.run_q
  | create joinable stk_size ok =>
    obtain ⟨r', rfl⟩ := call_create_eq h
    exact threadCreate_serves
  | join t =>
    simp only [call] at h
    split_ifs at h
    rcases threadJoin_paths h with ⟨r', rfl⟩ | ⟨c, -, -, hjoin⟩
    · exact .of_append (Or.inl rfl) (List.append_nil _).symm
    · exact joinLoop_serves hg (hoff hok) (.refl s) rfl hjoin
  | exit retval =>
    -- Without a current thread the call returns at once.
    have hnone : s.this_thread = none := hok
    simp only [call, threadExit, hnone] at h
    cases h
    exact .of_append (Or.inl rfl) (List.append_nil _).symm
  | idleRun =>
    simp only [call] at h
    split_ifs at h
    cases h
    exact .of_append (Or.inl rfl) (List.append_nil _).symm

/-! ## Termination -/

/-- The stack is released, and the fiber goes on. -/
theorem exitFree_serves {s₀ : St} {t : ℕ} {explicit : Bool} (hq : s₀.run_q = s.run_q)
    (hcontext : (s₀.thread t).context = some s.running) : Serves s (s₀.exitFree t explicit) := by
  have hsame : (s₀.exitFree t explicit).run_q = s₀.run_q ∧
      (s₀.exitFree t explicit).running = s.running := by
    unfold exitFree
    dsimp only
    rw [switchContext_run_q]
    split_ifs <;> exact ⟨rfl, by simp [switchContext, setPc, stackFree, setLife, hcontext]⟩
  exact .of_append (Or.inl hsame.2) (hsame.1.trans (hq.trans (List.append_nil _).symm))

/-- `st_thread_exit` returns to the start function, or `main` goes on. -/
theorem exitReturn_serves (s : St) (explicit : Bool) : Serves s (s.exitReturn explicit) := by
  cases explicit with
  | true => exact .of_append (Or.inl rfl) (List.append_nil _).symm
  | false => exact .of_append (Or.inr rfl) (List.append_nil _).symm

/-- `st_thread_exit`, up to its first switch or to its end: the thread itself goes on. -/
theorem threadExit_serves {t : ℕ} {retval : ℤ} {explicit : Bool} (hg : s.Good) (hruns : s.Runs t)
    (hfree : s.Unjoined t) (h : s.threadExit retval explicit = some s') : Serves s s' := by
  have hcontext : (s.thread t).context = some s.running := by
    rw [(hg.core.recs t).context hruns.live, hruns.running]
  have henter : ((s.enterExit t retval).thread t).context = some s.running := by
    rw [enterExit_thread, Function.update_self]
    exact hcontext
  cases threadExit_paths h with
  | outside this _ =>
    rw [hruns.this] at this
    cases this
  | frees u this _ eq =>
    rw [hruns.this] at this
    cases this
    rw [eq]
    exact exitFree_serves rfl henter
  | signals u c s₁ this term signal eq =>
    rw [hruns.this] at this
    cases this
    -- Nobody waits for the thread, so nobody is woken.
    have hempty : ({ s.enterExit t retval with zombie_q := s.zombie_q ++ [t] } : St).cond_q c = [] :=
      hfree.cond_q term
    rw [condSignal, hempty] at signal
    cases signal
    have hrun : s'.running = s.running := by
      rw [eq]
      simp only [switchContext, setPc]
      rw [henter]
    have hq : s'.run_q = s.run_q ++ [] := by
      rw [eq, switchContext_run_q, List.append_nil]
      rfl
    exact .of_append (Or.inl hrun) hq

/-- `st_thread_exit`, after its first switch. -/
theorem exitTermEnd_serves {t : ℕ} {explicit : Bool} (hleave : s.Leaving t)
    (h : s.exitTermEnd t explicit = some s') : Serves s s' := by
  obtain ⟨c, s₁, -, hs₁, rfl⟩ := exitTermEnd_paths h
  rcases hs₁ with rfl | ⟨rfl, -⟩
  · refine exitFree_serves rfl ?_
    simp [setThread, hleave.context]
  · refine exitFree_serves rfl ?_
    simp [setThread, note, hleave.context]

/-! ## The loops that dispatch -/

/-- A dispatch pass puts threads at the end of the run queue. -/
theorem vpIdle_serves {outcomes : ℕ → SelectOutcome} {pc : Pc} (hg : s.Good)
    (h : s.vpIdle outcomes = some s₁) : Serves s (s₁.setPc pc) := by
  obtain ⟨s₂, hs₂, -, ha⟩ := @wakeAll_awakened (s.ev.dispatch outcomes).2
    (s.setEv (s.ev.dispatch outcomes).1) hg.core.sleep
  have heq : s₂ = s₁ := Option.some_inj.mp (hs₂.symm.trans h)
  subst heq
  exact .of_append (Or.inl (vpIdle_stays s.names_true h).running) ha.run_q

/-- `_st_vp_check_clock` puts threads at the end of the run queue. -/
theorem vpCheckClock_serves {now : ℕ} {pc : Pc} (h : s.vpCheckClock now = some s₁) :
    Serves s (s₁.setPc pc) := by
  obtain ⟨l, hl, -⟩ := checkClockLoop_edits now _ h
  exact .of_append (Or.inl (vpCheckClock_stays s.names_true h).running) hl.run_q

/-- The idle thread is ready, too, when it schedules. -/
theorem idleSched_serves (hg : s.Good) (hthis : s.this_thread = some 0) (hactive : 0 < s.active_count)
    (h : s.idleSched = some s') : Serves s s' := by
  have hzero : 0 ∉ s.run_q := fun hmem => hg.own.live_ne_zero ((hg.core.recs 0).run_q.mp hmem).1 rfl
  have hready : Parks s s.readyIdle := by
    unfold readyIdle
    rw [hg.own.idle_thread]
    split_ifs
    · exact .setThread _ hthis
    · exact .refl s
  rcases idleSched_paths h with ⟨hended, -⟩ | ⟨-, rfl⟩
  · omega
  · exact vpSchedule_serves hg (.of_some hthis hzero) (hready.congr rfl rfl rfl rfl)

/-! ## Steps -/

/-- A step of a live thread. -/
theorem step_serves_thread {t : ℕ} (h : s.Inv) (hok : s.Ok l) (hruns : s.Runs t)
    (hstep : s.step l = some s') : Serves s s' := by
  have hg := h.good
  have hfits := (hg.core.recs t).pc hruns.live
  have hpc := hruns.pc_eq
  -- The current thread is running, so it is not on the run queue.
  have hoff : s.This (· ∉ s.run_q) := by
    refine .of_some hruns.this fun hmem => ?_
    have hst := ((hg.core.recs t).run_q.mp hmem).2
    rw [hruns.state] at hst
    cases hst
  cases hp : s.pcOf t with
  | user r =>
    rw [hp] at hpc
    cases step_goes hpc hstep with
    | call c hcall => exact call_serves hg hok hpc hcall
    | ret v _ hret =>
      -- The note that the thread has returned moves nobody.
      obtain ⟨hg₁, hr₁⟩ := hruns.note_good hg (.returned s.running v)
      have hfree : s.This s.Unjoined := hok
      have hserves : Serves (s.note (.returned s.running v)) s' :=
        threadExit_serves hg₁ hr₁ (hfree.some hruns.this) hret
      exact hserves
  | poll me q =>
    rw [hp] at hpc
    cases step_goes hpc hstep with
    | poll hend =>
      rcases pollEnd_paths hend with rfl | ⟨n, rfl⟩ <;>
        exact .of_append (Or.inl rfl) (List.append_nil _).symm
  | condWait me c =>
    rw [hp] at hpc
    cases step_goes hpc hstep with
    | condWait hend =>
      rw [hend]
      exact .of_append (Or.inl rfl) (List.append_nil _).symm
  | lock me m =>
    rw [hp] at hpc
    cases step_goes hpc hstep with
    | lock hend =>
      rw [hend]
      refine .of_eq (s.mutexLockEnd_stays me m) ?_
      unfold mutexLockEnd
      dsimp only
      split_ifs <;> rfl
  | join me c u =>
    rw [hp] at hpc hfits
    -- The rest of the join may block again, and then gives the turn away.
    obtain rfl : me = t := hfits.1
    cases step_goes hpc hstep with
    | join hend => exact joinEnd_serves hg hoff hruns.this hend
  | _ =>
    rw [hp] at hfits
    exact hfits.elim

/-- A step of a loop that dispatches. -/
theorem step_serves_loop {stage : Stage} (h : s.Inv) (hok : s.Orderly l)
    (hthis : s.running = 1 → s.this_thread = some 0)
    (hpc : (s.fiber s.running).pc = .idle stage ∨ (s.fiber s.running).pc = .native stage)
    (hstep : s.step l = some s') : Serves s s' := by
  have hg := h.good
  rcases hpc with hpc | hpc
  · have hone := hg.running_idle hpc
    cases step_goes hpc hstep with
    | idleDispatch outcomes _ s₁ hidle eq => exact eq ▸ vpIdle_serves hg hidle
    | idleEnd ended _ =>
      have hactive : 0 < s.active_count := hok.1 hone
      omega
    | idleClock now s₁ hclock eq => exact eq ▸ vpCheckClock_serves hclock
    | idleSched hend => exact idleSched_serves hg (hthis hone) (hok.1 hone) hend
  · cases step_goes hpc hstep with
    | nativeDispatch outcomes _ s₁ hidle eq => exact eq ▸ vpIdle_serves hg hidle
    | nativeEnd _ eq =>
      rw [eq]
      exact .of_append (Or.inl rfl) (List.append_nil _).symm
    | nativeClock now s₁ hclock eq => exact eq ▸ vpCheckClock_serves hclock
    | nativeSched eq =>
      rw [eq]
      exact vpSchedule_serves hg (hok.2 hpc) ((Parks.refl s).congr rfl rfl rfl rfl)

/-- A step: the turn, if somebody gets it, goes to the first of the run queue. -/
theorem step_serves (h : s.Inv) (hok : s.Orderly l) (hstep : s.step l = some s') : Serves s s' := by
  have hg := h.good
  rcases hg.turn with hmain | ⟨hidle, hthis⟩ | ⟨t, hl, hrun, hst, hthis⟩ | ⟨t, -, -, hpc, -, -⟩ |
    ⟨t, hleave, -⟩
  · rcases hg.own.main_pc with ⟨r, hpc⟩ | ⟨stage, hpc⟩
    · rw [← hmain] at hpc
      cases step_goes hpc hstep with
      | call c hcall => exact call_serves hg hok.1 hpc hcall
      | ret v thread _ => exact absurd hmain thread
    · rw [← hmain] at hpc
      exact step_serves_loop h hok (fun hone => by omega) (Or.inr hpc) hstep
  · obtain ⟨stage, hpc⟩ := hg.own.idle_pc
    rw [← hidle] at hpc
    exact step_serves_loop h hok (fun _ => hthis) (Or.inl hpc) hstep
  · exact step_serves_thread h hok.1 ⟨hl, hrun, hst, hthis⟩ hstep
  · cases step_goes hpc hstep with
    | exitEnd hend => exact hend ▸ exitReturn_serves s false
  · cases step_goes hleave.pc hstep with
    | exitTerm hend => exact exitTermEnd_serves hleave hend

end turns

/-! ## Runs -/

/-- The turns of a run from `s` go by its run queue. In a run of orderly steps from `st_init` that reaches
`s`, a thread that has `k` others before it on the run queue of `s` gets the processor at the turn after
the next `k`, in every run of orderly steps from `s` on: until then it moves up by one with each turn, and
the idle thread gets no turn. -/
theorem run_turns (pagesize : ℤ) (last_clock : ℕ) (ls ls' : List Label) {s s' : St}
    (hrun : Runs.run step (init pagesize last_clock) ls = some s)
    (horderly : Runs.Meets step Orderly (init pagesize last_clock) ls)
    (hrun' : Runs.run step s ls' = some s') (horderly' : Runs.Meets step Orderly s ls') {k t : ℕ}
    (ht : s.run_q[k]? = some t) :
    (turns s ls')[k]? = some t ∨
      (turns s ls').length ≤ k ∧ s'.run_q[k - (turns s ls').length]? = some t := by
  have hinv : s.Inv := run_inv hrun (horderly.mono fun _ _ h => h.1)
  have hserved : ∃ more, turns s ls' ++ s'.run_q = s.run_q ++ more :=
    Runs.run_served turn (fun h hok => step_inv h hok.1) step_serves hinv horderly' hrun'
  obtain ⟨more, hmore⟩ := hserved
  exact Runs.place_served hmore ht

/-- `main` creates two threads. -/
def createsTwo : List Label :=
  [.call (.create false 0 ⟨true, true, true⟩), .call (.create false 0 ⟨true, true, true⟩)]

/-- `main` gives up the processor. The first thread creates a third one and sleeps, and so does the second
one. -/
def createsMeanwhile : List Label :=
  [.call (.usleep 1), .call (.create false 0 ⟨true, true, true⟩), .call (.usleep 5), .call (.usleep 5)]

/-- The second thread gets the second turn, before the one that was created meanwhile. -/
theorem run_turns_createsMeanwhile : ∃ s s', Runs.run step (init 4096 0) createsTwo = some s ∧
    Runs.run step s createsMeanwhile = some s' ∧ turns s createsMeanwhile = [1, 2, 3] ∧
    ((turns s createsMeanwhile)[1]? = some 2 ∨ (turns s createsMeanwhile).length ≤ 1 ∧
      s'.run_q[1 - (turns s createsMeanwhile).length]? = some 2) :=
  ⟨_, _, (Option.some_get (by decide)).symm, (Option.some_get (by decide)).symm, by decide,
    run_turns 4096 0 createsTwo createsMeanwhile (Option.some_get (by decide)).symm (by decide)
      (Option.some_get (by decide)).symm (by decide) (by decide)⟩

end StWin.St
