import StWin.Sched.Paths

/-!
# Steps that create, terminate, and join no thread

Whatever the state, coherent or not, only a few statements of the library change who exists, who has
terminated, and who waits in `st_thread_join`: those of `st_thread_create`, `st_thread_exit`, and
`st_thread_join` themselves. All the other steps are `Plain`, and `step_cases` says so.
-/

namespace StWin

/-- The event is one of joining. -/
def Note.isJoin : Note → Bool
  | .joined _ _ _ _ => true
  | .condFree _ => true
  | _ => false

/-- The place is neither in `st_thread_join` nor on a termination condition variable. -/
def Pc.plain : Pc → Bool
  | .join _ _ _ => false
  | .condWait _ (.term _) => false
  | _ => true

namespace St

/-- From `s` to `s'` no thread was created, terminated, or joined. -/
structure Plain (s s' : St) : Prop where
  term : ∀ t, (s'.thread t).term = (s.thread t).term
  id : ∀ t, (s'.thread t).id = (s.thread t).id
  context : ∀ t, (s'.thread t).context = (s.thread t).context
  zombie : ∀ t, (s'.thread t).state = .ZOMBIE → (s.thread t).state = .ZOMBIE
  terms : s'.terms = s.terms
  created : s'.created = s.created
  threads : s'.threads = s.threads
  life : s'.life = s.life
  active_count : s'.active_count = s.active_count
  cond_q : ∀ n, s'.cond_q (.term n) = s.cond_q (.term n)
  log : ∃ l, s'.log = l ++ s.log ∧ ∀ n ∈ l, n.isJoin = false
  pc : ∀ f, (s'.fiber f).pc.plain = false → (s'.fiber f).pc = (s.fiber f).pc

namespace Plain

/-- Nothing has been done. -/
theorem refl (s : St) : Plain s s :=
  ⟨fun _ => rfl, fun _ => rfl, fun _ => rfl, fun _ h => h, rfl, rfl, rfl, rfl, rfl, fun _ => rfl,
    ⟨[], rfl, by simp⟩, fun _ _ => rfl⟩

/-- Two plain parts of a step, one after the other. -/
theorem trans {s s' s'' : St} (h : Plain s s') (h' : Plain s' s'') : Plain s s'' where
  term t := (h'.term t).trans (h.term t)
  id t := (h'.id t).trans (h.id t)
  context t := (h'.context t).trans (h.context t)
  zombie t ht := h.zombie t (h'.zombie t ht)
  terms := h'.terms.trans h.terms
  created := h'.created.trans h.created
  threads := h'.threads.trans h.threads
  life := h'.life.trans h.life
  active_count := h'.active_count.trans h.active_count
  cond_q n := (h'.cond_q n).trans (h.cond_q n)
  log := by
    obtain ⟨l, hl, hn⟩ := h.log
    obtain ⟨l', hl', hn'⟩ := h'.log
    refine ⟨l' ++ l, by rw [hl', hl, List.append_assoc], fun n hmem => ?_⟩
    rcases List.mem_append.mp hmem with hmem | hmem
    · exact hn' n hmem
    · exact hn n hmem
  pc f hf := by
    have hsame := h'.pc f hf
    rw [hsame] at hf ⊢
    exact h.pc f hf

/-- Assignments to other parts of the state. -/
theorem of_eq {s s' : St} (h1 : s'.thread = s.thread) (h2 : s'.terms = s.terms)
    (h3 : s'.created = s.created) (h4 : s'.threads = s.threads) (h5 : s'.life = s.life)
    (h6 : s'.active_count = s.active_count) (h7 : ∀ n, s'.cond_q (.term n) = s.cond_q (.term n))
    (h8 : s'.log = s.log) (h9 : s'.fiber = s.fiber) : Plain s s' := by
  refine ⟨fun t => by rw [h1], fun t => by rw [h1], fun t => by rw [h1],
    fun t => by rw [h1]; exact fun h => h, h2, h3, h4,
    h5, h6, h7, ⟨[], h8, by simp⟩, fun f _ => by rw [h9]⟩

end Plain

/-! ## Assignments -/

section assign

variable (s : St)

/-- An assignment to a record is plain if it keeps the thread, the fiber and the condition variable, and
does not make the record a zombie. -/
theorem setThread_plain (t : ℕ) {f : Thread → Thread} (hterm : ∀ th, (f th).term = th.term)
    (hid : ∀ th, (f th).id = th.id) (hcontext : ∀ th, (f th).context = th.context)
    (hz : ∀ th, (f th).state = .ZOMBIE → th.state = .ZOMBIE) : Plain s (s.setThread t f) := by
  have hth : ∀ u, (s.setThread t f).thread u = if u = t then f (s.thread t) else s.thread u := by
    intro u
    simp only [setThread, Function.update_apply]
  refine ⟨fun u => ?_, fun u => ?_, fun u => ?_, fun u hu => ?_, rfl, rfl, rfl, rfl, rfl,
    fun _ => rfl, ⟨[], rfl, by simp⟩, fun _ _ => rfl⟩
  · rw [hth]
    split_ifs with h
    · rw [h, hterm]
    · rfl
  · rw [hth]
    split_ifs with h
    · rw [h, hid]
    · rfl
  · rw [hth]
    split_ifs with h
    · rw [h, hcontext]
    · rfl
  · rw [hth] at hu
    split_ifs at hu with h
    · rw [h]
      exact hz _ hu
    · exact hu

/-- An assignment of another state than `ZOMBIE` is plain. -/
theorem setState_plain (t : ℕ) {state : TState} (h : state ≠ .ZOMBIE) :
    Plain s (s.setState t state) :=
  s.setThread_plain t (fun _ => rfl) (fun _ => rfl) (fun _ => rfl) fun _ hz => absurd hz h

/-- An assignment to the flags is plain. -/
theorem setFlags_plain (t : ℕ) (f : Flags → Flags) : Plain s (s.setFlags t f) :=
  s.setThread_plain t (fun _ => rfl) (fun _ => rfl) (fun _ => rfl) fun _ hz => hz

/-- An assignment to the timeout heap and its flag is plain. -/
theorem setSleepQ_plain (t : ℕ) (b : Bool) (heap : Heap) : Plain s (s.setSleepQ t b heap) :=
  (s.setFlags_plain t fun fl => { fl with on_sleepq := b }).trans
    (.of_eq rfl rfl rfl rfl rfl rfl (fun _ => rfl) rfl rfl)

/-- To go on at a place outside of `st_thread_join` and `st_thread_exit` is plain. -/
theorem setPc_plain {pc : Pc} (h : pc.plain = true) : Plain s (s.setPc pc) := by
  refine ⟨fun _ => rfl, fun _ => rfl, fun _ => rfl, fun _ h => h, rfl, rfl, rfl, rfl, rfl, fun _ => rfl,
    ⟨[], rfl, by simp⟩, fun f hf => ?_⟩
  by_cases hfr : f = s.running
  · rw [hfr] at hf
    simp [setPc, h] at hf
  · simp [setPc, hfr]

/-- To return from a call is plain. -/
theorem ret_plain (r : Res) : Plain s (s.ret r) := s.setPc_plain rfl

/-- `_ST_ADD_RUNQ` is plain. -/
theorem addRunq_plain (t : ℕ) : Plain s (s.addRunq t) :=
  .of_eq rfl rfl rfl rfl rfl rfl (fun _ => rfl) rfl rfl

/-- An assignment to the event system is plain. -/
theorem setEv_plain (ev : Ev) : Plain s (s.setEv ev) :=
  .of_eq rfl rfl rfl rfl rfl rfl (fun _ => rfl) rfl rfl

/-- An assignment of the owner of a mutex is plain. -/
theorem setOwner_plain (m : ℕ) (owner : Option ℕ) : Plain s (s.setOwner m owner) :=
  .of_eq rfl rfl rfl rfl rfl rfl (fun _ => rfl) rfl rfl

/-- An assignment of the wait queue of a mutex is plain. -/
theorem setWaitQ_plain (m : ℕ) (wait_q : List ℕ) : Plain s (s.setWaitQ m wait_q) :=
  .of_eq rfl rfl rfl rfl rfl rfl (fun _ => rfl) rfl rfl

/-- An assignment of the wait queue of a condition variable of the program is plain. -/
theorem setCondQ_plain (n : ℕ) (wait_q : List ℕ) : Plain s (s.setCondQ (.user n) wait_q) :=
  .of_eq rfl rfl rfl rfl rfl rfl (fun k => by simp [setCondQ]) rfl rfl

/-- An event that is not one of a join is plain. -/
theorem note_plain {n : Note} (h : n.isJoin = false) : Plain s (s.note n) :=
  ⟨fun _ => rfl, fun _ => rfl, fun _ => rfl, fun _ h => h, rfl, rfl, rfl, rfl, rfl, fun _ => rfl,
    ⟨[n], rfl, by simpa using h⟩, fun _ _ => rfl⟩

/-- A switch of fibers is plain. -/
theorem switchContext_plain (t : ℕ) : Plain s (s.switchContext t) := by
  unfold switchContext
  split
  · exact .of_eq rfl rfl rfl rfl rfl rfl (fun _ => rfl) rfl rfl
  · exact .refl s

end assign

/-! ## Waking and scheduling -/

/-- To make a thread runnable is plain. -/
theorem wake_plain {s s' : St} {t : ℕ} (h : s.wake t = some s') : Plain s s' := by
  unfold wake at h
  obtain ⟨s₁, hs₁, rfl⟩ := Option.map_eq_some_iff.mp h
  have hleave : Plain s s₁ := by
    unfold leaveSleepQ at hs₁
    split_ifs at hs₁
    · obtain ⟨heap, -, rfl⟩ := Option.map_eq_some_iff.mp hs₁
      exact s.setSleepQ_plain t false heap
    · cases hs₁
      exact .refl s
  exact (hleave.trans (s₁.setState_plain t (by decide))).trans (addRunq_plain _ t)

/-- Waking a thread does not switch. -/
theorem wake_running {s s' : St} {t : ℕ} (h : s.wake t = some s') :
    s'.running = s.running ∧ s'.fiber = s.fiber := by
  unfold wake leaveSleepQ at h
  obtain ⟨s₁, hs₁, rfl⟩ := Option.map_eq_some_iff.mp h
  split_ifs at hs₁
  · obtain ⟨heap, -, rfl⟩ := Option.map_eq_some_iff.mp hs₁
    exact ⟨rfl, rfl⟩
  · cases hs₁
    exact ⟨rfl, rfl⟩

/-- `_ST_ADD_SLEEPQ` is plain. -/
theorem addSleepQ_plain {s s' : St} {t timeout : ℕ} (h : s.addSleepQ t timeout = some s') :
    Plain s s' := by
  obtain ⟨heap, -, rfl⟩ := Option.map_eq_some_iff.mp h
  exact s.setSleepQ_plain t true heap

/-- Whichever thread `_st_vp_schedule` resumes. -/
theorem vpSchedule_resumes (s : St) : ∃ t q, s.vpSchedule =
    { { s with run_q := q }.setState t .RUNNING with this_thread := some t }.switchContext t := by
  unfold vpSchedule
  dsimp only
  split_ifs
  · exact ⟨_, _, rfl⟩
  · exact ⟨_, _, rfl⟩

/-- It changes the run queue, the turn, and the state of that thread. -/
theorem vpSchedule_turns (s : St) : ∃ t q f, s.vpSchedule =
    { s.setState t .RUNNING with run_q := q, this_thread := some t, running := f } := by
  obtain ⟨t, q, heq⟩ := s.vpSchedule_resumes
  rw [heq]
  unfold switchContext
  split
  · exact ⟨t, q, _, rfl⟩
  · exact ⟨t, q, s.running, rfl⟩

/-- `_st_vp_schedule` moves no fiber from its place. -/
theorem vpSchedule_fiber (s : St) : s.vpSchedule.fiber = s.fiber := by
  obtain ⟨t, q, f, heq⟩ := s.vpSchedule_turns
  rw [heq]
  rfl

/-- `_st_vp_schedule` leaves the timeout heap. -/
theorem vpSchedule_heap (s : St) : s.vpSchedule.heap = s.heap := by
  obtain ⟨t, q, f, heq⟩ := s.vpSchedule_turns
  rw [heq]
  rfl

/-- `_st_vp_schedule` leaves the event system. -/
theorem vpSchedule_ev (s : St) : s.vpSchedule.ev = s.ev := by
  obtain ⟨t, q, f, heq⟩ := s.vpSchedule_turns
  rw [heq]
  rfl

/-- `_st_vp_schedule` leaves the wait queues of condition variables. -/
theorem vpSchedule_cond_q (s : St) : s.vpSchedule.cond_q = s.cond_q := by
  obtain ⟨t, q, f, heq⟩ := s.vpSchedule_turns
  rw [heq]
  rfl

/-- `_st_vp_schedule` makes nobody a zombie. -/
theorem vpSchedule_plain (s : St) : Plain s s.vpSchedule := by
  obtain ⟨t, q, f, heq⟩ := s.vpSchedule_turns
  have hrun := s.setState_plain t (show TState.RUNNING ≠ .ZOMBIE by decide)
  rw [heq]
  exact hrun.trans (.of_eq rfl rfl rfl rfl rfl rfl (fun _ => rfl) rfl rfl)

/-- The loop of `_st_cond_signal` only wakes threads. -/
theorem condSignalLoop_plain (broadcast : Bool) (q : List ℕ) :
    ∀ {s s' : St}, condSignalLoop broadcast q s = some s' → Plain s s' := by
  induction q with
  | nil =>
    intro s s' h
    cases h
    exact .refl s
  | cons t q ih =>
    intro s s' h
    rw [condSignalLoop] at h
    split_ifs at h
    · obtain ⟨s₁, hs₁, h⟩ := Option.bind_eq_some_iff.mp h
      exact (wake_plain hs₁).trans (ih h)
    · obtain ⟨s₁, hs₁, h⟩ := Option.bind_eq_some_iff.mp h
      cases h
      exact wake_plain hs₁
    · exact ih h

/-- The loop of `_st_cond_signal` switches to nobody. -/
theorem condSignalLoop_running (broadcast : Bool) (q : List ℕ) : ∀ {s s' : St},
    condSignalLoop broadcast q s = some s' → s'.running = s.running ∧ s'.fiber = s.fiber := by
  induction q with
  | nil =>
    intro s s' h
    cases h
    exact ⟨rfl, rfl⟩
  | cons t q ih =>
    intro s s' h
    rw [condSignalLoop] at h
    split_ifs at h
    · obtain ⟨s₁, hs₁, h⟩ := Option.bind_eq_some_iff.mp h
      obtain ⟨hr, hf⟩ := wake_running hs₁
      obtain ⟨hr', hf'⟩ := ih h
      exact ⟨hr'.trans hr, hf'.trans hf⟩
    · obtain ⟨s₁, hs₁, h⟩ := Option.bind_eq_some_iff.mp h
      cases h
      exact wake_running hs₁
    · exact ih h

/-- The loop of `_st_vp_check_clock` only wakes threads. -/
theorem checkClockLoop_plain (now fuel : ℕ) :
    ∀ {s s' : St}, checkClockLoop now fuel s = some s' → Plain s s' := by
  induction fuel with
  | zero =>
    intro s s' h
    cases h
  | succ fuel ih =>
    intro s s' h
    rw [checkClockLoop] at h
    split at h
    · cases h
      exact .refl s
    · next t _ =>
      split_ifs at h
      · cases h
        exact .refl s
      · obtain ⟨s₁, hs₁, h⟩ := Option.bind_eq_some_iff.mp h
        obtain ⟨heap, -, rfl⟩ := Option.map_eq_some_iff.mp hs₁
        refine (s.setSleepQ_plain t false heap).trans (Plain.trans ?_ (ih h))
        refine Plain.trans ?_ ((setState_plain _ t (by decide)).trans (addRunq_plain _ t))
        split_ifs
        · exact setFlags_plain _ t _
        · exact .refl _

/-- `_st_vp_check_clock` only wakes threads. -/
theorem vpCheckClock_plain {s s' : St} {now : ℕ} (h : s.vpCheckClock now = some s') : Plain s s' := by
  refine Plain.trans ?_ (checkClockLoop_plain now _ h)
  exact .of_eq rfl rfl rfl rfl rfl rfl (fun _ => rfl) rfl rfl

/-- The rule for the threads that a dispatch pass wakes. -/
theorem wakeAll_induct {R : St → St → Prop} (hrefl : ∀ s, R s s)
    (htrans : ∀ {s₁ s₂ s₃}, R s₁ s₂ → R s₂ s₃ → R s₁ s₃)
    (hwake : ∀ {s s' : St} {t : ℕ}, s.wake t = some s' → R s s') (w : List ℕ) : ∀ {s s' : St},
    w.foldlM (fun s pq => s.wake (s.ev.pollq pq).thread) s = some s' → R s s' := by
  induction w with
  | nil =>
    intro s s' h
    cases h
    exact hrefl s
  | cons q w ih =>
    intro s s' h
    rw [List.foldlM_cons] at h
    obtain ⟨s₁, hs₁, h⟩ := Option.bind_eq_some_iff.mp h
    exact htrans (hwake hs₁) (ih h)

/-- A dispatch pass only wakes threads. -/
theorem vpIdle_plain {s s' : St} {outcomes : ℕ → SelectOutcome} (h : s.vpIdle outcomes = some s') :
    Plain s s' :=
  (s.setEv_plain _).trans (wakeAll_induct Plain.refl Plain.trans wake_plain _ h)

/-- `st_thread_interrupt` sets a flag, and may wake its thread. -/
theorem threadInterrupt_plain {s s' : St} {t : ℕ} (h : s.threadInterrupt t = some s') :
    Plain s s' := by
  rcases threadInterrupt_paths h with rfl | rfl | h
  · exact .refl s'
  · exact s.setFlags_plain t _
  · exact (s.setFlags_plain t _).trans (wake_plain h)

/-! ## Calls -/

section calls

variable {s s' : St}

/-- The return with `EINTR` at the start of a call is plain. -/
theorem eintr_plain (s : St) (me : ℕ) : Plain s (s.eintr me) :=
  (s.setFlags_plain me _).trans (ret_plain _ _)

/-- `st_poll` up to the switch is plain. -/
theorem poll_plain {pds : List Pollfd} {timeout : ℕ} (h : s.poll pds timeout = some s') :
    Plain s s' := by
  cases poll_paths h with
  | outside _ eq => exact eq ▸ s.ret_plain _
  | interrupted me _ _ eq => exact eq ▸ s.eintr_plain me
  | waits me s₁ _ _ sleeps eq =>
    have h₁ := (s.setEv_plain _).trans (addSleepQ_plain sleeps)
    have h₂ := h₁.trans (s₁.setState_plain me (show TState.IO_WAIT ≠ .ZOMBIE by decide))
    rw [eq]
    exact (h₂.trans (setPc_plain _ rfl)).trans (vpSchedule_plain _)

/-- `st_poll` after the switch is plain. -/
theorem pollEnd_plain {me pq : ℕ} (h : s.pollEnd me pq = some s') : Plain s s' := by
  refine (s.setEv_plain (s.ev.unregister pq)).trans ?_
  rcases pollEnd_paths h with rfl | ⟨n, rfl⟩
  · exact eintr_plain _ me
  · exact ret_plain _ _

/-- `st_usleep` is plain. -/
theorem usleep_plain {usecs : ℕ} (h : s.usleep usecs = some s') : Plain s s' := by
  cases usleep_paths h with
  | stays _ eq => exact eq ▸ (s.ret_plain _).trans (vpSchedule_plain _)
  | interrupted me _ _ eq => exact eq ▸ s.eintr_plain me
  | sleeps me s₁ _ _ _ _ _ sleeps eq =>
    have h₁ := (s.setState_plain me (show TState.SLEEPING ≠ .ZOMBIE by decide)).trans
      (addSleepQ_plain sleeps)
    exact eq ▸ (h₁.trans (ret_plain _ _)).trans (vpSchedule_plain _)
  | suspends me _ _ eq =>
    have h₁ := s.setState_plain me (show TState.SUSPENDED ≠ .ZOMBIE by decide)
    exact eq ▸ (h₁.trans (ret_plain _ _)).trans (vpSchedule_plain _)

/-- `st_cond_timedwait` on a condition variable of the program up to the switch is plain. -/
theorem condTimedwait_plain {n timeout : ℕ} (h : s.condTimedwait (.user n) timeout = some s') :
    Plain s s' := by
  cases condTimedwait_paths h with
  | outside _ eq => exact eq ▸ s.ret_plain _
  | interrupted me _ _ eq => exact eq ▸ s.eintr_plain me
  | waits me _ _ blocks =>
    obtain ⟨s₁, rfl, hs₁⟩ := condBlock_paths blocks
    have h₀ : Plain s (s.linkCond me (.user n)) :=
      (s.setState_plain me (show TState.COND_WAIT ≠ .ZOMBIE by decide)).trans (setCondQ_plain _ n _)
    have h₁ : Plain s s₁ := by
      rcases hs₁ with ⟨-, hs₁⟩ | ⟨-, rfl⟩
      · exact h₀.trans (addSleepQ_plain hs₁)
      · exact h₀
    exact (h₁.trans (setPc_plain _ rfl)).trans (vpSchedule_plain _)

/-- `st_cond_timedwait` on a condition variable of the program after the switch is plain. -/
theorem condUnblock_plain (s : St) (me n : ℕ) : Plain s (s.condUnblock me (.user n)).1 := by
  unfold condUnblock
  dsimp only
  exact (s.setCondQ_plain n _).trans (setFlags_plain _ me _)

/-- A second assignment to the place of the running fiber. -/
theorem condBlock_ret (s : St) (me : ℕ) (c : Cond) (timeout : ℕ) (pc : Pc) (r : Res) :
    (s.ret r).condBlock me c timeout pc = s.condBlock me c timeout pc := by
  unfold condBlock
  dsimp only
  split_ifs
  · simp only [addSleepQ, Option.map_map]
    congr 1
    funext heap
    simp [ret, setPc, setState, setThread, setCondQ, setSleepQ, setFlags]
  · simp [ret, setPc, setState, setThread, setCondQ]

/-- So it does not matter whether `st_thread_join` has noted a return before it goes on. -/
theorem joinLoop_ret (s : St) (c : Cond) (t : ℕ) (r : Res) :
    (s.ret r).joinLoop c t = s.joinLoop c t := by
  have hthread : (s.ret r).thread = s.thread := rfl
  have hthis : (s.ret r).this_thread = s.this_thread := rfl
  unfold joinLoop
  rw [hthread, hthis]
  split_ifs
  · simp [ret, setPc, setState, setThread, addRunq, note]
  · cases s.this_thread with
    | none => rfl
    | some me =>
      dsimp only
      unfold interrupted
      rw [hthread]
      split_ifs
      · simp [ret, setPc, setFlags, setThread]
      · exact condBlock_ret s me c _ _ r

/-- `st_mutex_lock` up to the switch is plain. -/
theorem mutexLock_plain {m : ℕ} (h : s.mutexLock m = some s') : Plain s s' := by
  cases mutexLock_paths h with
  | returns r eq => exact eq ▸ s.ret_plain r
  | interrupted me _ _ eq => exact eq ▸ s.eintr_plain me
  | locks me _ eq =>
    exact eq ▸ ((s.setOwner_plain m _).trans (note_plain _ rfl)).trans (ret_plain _ _)
  | waits me _ eq =>
    have h₁ := (s.setState_plain me (show TState.LOCK_WAIT ≠ .ZOMBIE by decide)).trans
      (setWaitQ_plain _ m ((s.mutex m).wait_q ++ [me]))
    exact eq ▸ ((h₁.trans (note_plain _ rfl)).trans (setPc_plain _ rfl)).trans (vpSchedule_plain _)

/-- `st_mutex_lock` after the switch is plain. -/
theorem mutexLockEnd_plain (s : St) (me m : ℕ) : Plain s (s.mutexLockEnd me m) := by
  unfold mutexLockEnd
  dsimp only
  refine (s.setWaitQ_plain m ((s.mutex m).wait_q.erase me)).trans ?_
  split_ifs
  · exact (setFlags_plain _ me _).trans (ret_plain _ _)
  · exact (note_plain _ rfl).trans (ret_plain _ _)

/-- `st_mutex_unlock` is plain. -/
theorem mutexUnlock_plain (s : St) (m : ℕ) : Plain s (s.mutexUnlock m) := by
  unfold mutexUnlock
  split_ifs
  · exact s.ret_plain _
  · dsimp only
    split
    · next t _ =>
      refine Plain.trans ?_ ((addRunq_plain _ t).trans (ret_plain _ _))
      refine Plain.trans ?_ ((setOwner_plain _ m _).trans (setState_plain _ t (by decide)))
      split
      · exact s.note_plain rfl
      · exact .refl s
    · refine Plain.trans ?_ ((setOwner_plain _ m _).trans (ret_plain _ _))
      split
      · exact s.note_plain rfl
      · exact .refl s

/-- `st_mutex_trylock` is plain. -/
theorem mutexTrylock_plain (s : St) (m : ℕ) : Plain s (s.mutexTrylock m) := by
  unfold mutexTrylock
  split_ifs
  · exact s.ret_plain _
  · dsimp only
    refine Plain.trans ?_ ((setOwner_plain _ m _).trans (ret_plain _ _))
    split
    · exact s.note_plain rfl
    · exact .refl s

end calls

/-! ## The other steps -/

/-- `P` holds of `_st_this_thread`, if it is not `NULL`. -/
def This (s : St) (P : ℕ → Prop) : Prop :=
  match s.this_thread with
  | some t => P t
  | none => True

/-- What holds of `_st_this_thread`, for the thread that it names. -/
theorem This.some {s : St} {P : ℕ → Prop} (h : s.This P) {t : ℕ} (ht : s.this_thread = some t) :
    P t := by
  unfold This at h
  rw [ht] at h
  exact h

/-- If `_st_this_thread` is `NULL`, there is nothing to show. -/
theorem This.of_none {s : St} {P : ℕ → Prop} (h : s.this_thread = none) : s.This P := by
  unfold This
  rw [h]
  trivial

/-- What holds of the thread that `_st_this_thread` names. -/
theorem This.of_some {s : St} {P : ℕ → Prop} {t : ℕ} (h : s.this_thread = .some t) (ht : P t) :
    s.This P := by
  unfold This
  rw [h]
  exact ht

instance (s : St) (P : ℕ → Prop) [DecidablePred P] : Decidable (s.This P) :=
  match h : s.this_thread with
  | .some t => decidable_of_iff (P t) (by rw [This, h])
  | .none => .isTrue (by rw [This, h]; trivial)

/-- The step enters `st_thread_exit`. -/
def Enters (s : St) : Label → Prop
  | .call (.exit _) => True
  | .ret _ => True
  | .resume =>
    ((s.fiber s.running).pc = .idle .dispatch ∨ (s.fiber s.running).pc = .idle .sched) ∧
      s.active_count ≤ 0
  | _ => False

instance (s : St) : (l : Label) → Decidable (s.Enters l)
  | .call (.exit _) => inferInstanceAs (Decidable True)
  | .call (.poll _ _) => inferInstanceAs (Decidable False)
  | .call (.usleep _) => inferInstanceAs (Decidable False)
  | .call (.condTimedwait _ _) => inferInstanceAs (Decidable False)
  | .call (.condSignal _) => inferInstanceAs (Decidable False)
  | .call (.condBroadcast _) => inferInstanceAs (Decidable False)
  | .call (.mutexLock _) => inferInstanceAs (Decidable False)
  | .call (.mutexTrylock _) => inferInstanceAs (Decidable False)
  | .call (.mutexUnlock _) => inferInstanceAs (Decidable False)
  | .call (.interrupt _) => inferInstanceAs (Decidable False)
  | .call (.create _ _ _) => inferInstanceAs (Decidable False)
  | .call (.join _) => inferInstanceAs (Decidable False)
  | .call .idleRun => inferInstanceAs (Decidable False)
  | .ret _ => inferInstanceAs (Decidable True)
  | .resume => inferInstanceAs (Decidable (_ ∧ _))
  | .dispatch _ => inferInstanceAs (Decidable False)
  | .clock _ => inferInstanceAs (Decidable False)

/-- The kinds of steps. -/
inductive StepCase (s : St) (l : Label) (s' : St) : Prop where
  | plain (h : Plain s s') (pc : ∀ t e, (s.fiber s.running).pc ≠ .exitTerm t e)
  | create (joinable : Bool) (stk_size : ℤ) (ok : Acquire) (r r' : Res)
      (pc : (s.fiber s.running).pc = .user r)
      (h : s' = (s.threadCreate (.user (.ok 0)) joinable stk_size ok).1.ret r')
  | join (t : ℕ) (r : Res) (pc : (s.fiber s.running).pc = .user r) (h : s.threadJoin t = some s')
  | joinEnd (me : ℕ) (c : Cond) (t : ℕ) (pc : (s.fiber s.running).pc = .join me c t)
      (h : s.joinEnd me c t = some s')
  /-- `s₀` is the state in which `st_thread_exit` is entered. -/
  | exit (s₀ : St) (retval : ℤ) (explicit : Bool) (enters : s.Enters l)
      (pc : ∀ t e, (s.fiber s.running).pc ≠ .exitTerm t e) (plain : Plain s s₀)
      (this : s₀.this_thread = s.this_thread) (running : s₀.running = s.running)
      (h : s₀.threadExit retval explicit = some s')
  | exitTerm (t : ℕ) (explicit : Bool) (pc : (s.fiber s.running).pc = .exitTerm t explicit)
      (h : s.exitTermEnd t explicit = some s')
  | exitEnd (explicit : Bool) (pc : (s.fiber s.running).pc = .exitEnd explicit)
      (h : s' = s.exitReturn explicit)

/-- `st_thread_create` as a call. -/
theorem call_create_eq {s s' : St} {joinable : Bool} {stk_size : ℤ} {ok : Acquire}
    (h : s.call (.create joinable stk_size ok) = some s') :
    ∃ r, s' = (s.threadCreate (.user (.ok 0)) joinable stk_size ok).1.ret r := by
  simp only [call] at h
  split at h
  · next s₁ heq =>
    cases h
    exact ⟨_, by rw [heq]⟩
  · next s₁ t heq =>
    cases h
    exact ⟨_, by rw [heq]⟩

/-- The calls. -/
theorem call_cases {s s' : St} {c : Call} {r : Res} (hpc : (s.fiber s.running).pc = .user r)
    (h : s.call c = some s') : StepCase s (.call c) s' := by
  -- The caller is in the program's code, so this is not the end of a wait for a joiner.
  have hne : ∀ t e, (s.fiber s.running).pc ≠ .exitTerm t e := by
    rw [hpc]
    exact fun _ _ h => by cases h
  cases c with
  | poll pds timeout => exact .plain (poll_plain h) hne
  | usleep usecs => exact .plain (usleep_plain h) hne
  | condTimedwait n timeout => exact .plain (condTimedwait_plain h) hne
  | condSignal n =>
    obtain ⟨s₁, hs₁, rfl⟩ := Option.map_eq_some_iff.mp h
    exact .plain ((condSignalLoop_plain _ _ hs₁).trans (ret_plain _ _)) hne
  | condBroadcast n =>
    obtain ⟨s₁, hs₁, rfl⟩ := Option.map_eq_some_iff.mp h
    exact .plain ((condSignalLoop_plain _ _ hs₁).trans (ret_plain _ _)) hne
  | mutexLock m => exact .plain (mutexLock_plain h) hne
  | mutexTrylock m =>
    cases h
    exact .plain (mutexTrylock_plain s m) hne
  | mutexUnlock m =>
    cases h
    exact .plain (mutexUnlock_plain s m) hne
  | interrupt t =>
    simp only [call] at h
    split_ifs at h
    obtain ⟨s₁, hs₁, rfl⟩ := Option.map_eq_some_iff.mp h
    exact .plain ((threadInterrupt_plain hs₁).trans (ret_plain _ _)) hne
  | create joinable stk_size ok =>
    obtain ⟨r', hs'⟩ := call_create_eq h
    exact .create joinable stk_size ok r r' hpc hs'
  | join t =>
    simp only [call] at h
    split_ifs at h
    exact .join t r hpc h
  -- Called by a thread, `st_thread_exit` is the step of its own kind.
  | exit retval =>
    exact .exit s retval true trivial hne (.refl s) rfl rfl h
  | idleRun =>
    simp only [call] at h
    split_ifs at h
    cases h
    exact .plain (s.setPc_plain rfl) hne

/-- The statement of the idle loop that schedules. -/
theorem idleSched_cases {s s' : St} (hpc : (s.fiber s.running).pc = .idle .sched)
    (h : s.idleSched = some s') : StepCase s .resume s' := by
  have hne : ∀ t e, (s.fiber s.running).pc ≠ .exitTerm t e := by
    rw [hpc]
    exact fun _ _ h => by cases h
  obtain ⟨h₁, hthis, hrun⟩ : Plain s s.readyIdle ∧ s.readyIdle.this_thread = s.this_thread ∧
      s.readyIdle.running = s.running := by
    unfold readyIdle
    split_ifs
    · exact ⟨s.setState_plain _ (by decide), rfl, rfl⟩
    · exact ⟨.refl s, rfl, rfl⟩
  rcases idleSched_paths h with ⟨hended, retval, h⟩ | ⟨-, rfl⟩
  · exact .exit _ retval false ⟨Or.inr hpc, hended⟩ hne h₁ hthis hrun h
  · exact .plain ((h₁.trans (setPc_plain _ rfl)).trans (vpSchedule_plain _)) hne

/-- The steps, if nobody outside `st_thread_join` waits on a termination condition variable. -/
theorem step_cases {s s' : St} {l : Label}
    (hwait : ∀ me n, (s.fiber s.running).pc ≠ .condWait me (.term n)) (h : s.step l = some s') :
    StepCase s l s' := by
  obtain ⟨pc, hpc⟩ : ∃ pc, (s.fiber s.running).pc = pc := ⟨_, rfl⟩
  -- A step from a place that is not in `st_thread_exit`.
  have hplain : (∀ t e, pc ≠ .exitTerm t e) → Plain s s' → StepCase s l s' := by
    intro hne hp
    exact .plain hp (by rw [hpc]; exact hne)
  cases step_goes hpc h with
  | call c hgo => exact call_cases hpc hgo
  | ret v _ hgo =>
    refine .exit _ _ _ trivial ?_ (s.note_plain rfl) rfl rfl hgo
    rw [hpc]
    exact fun _ _ h => by cases h
  | poll hgo => exact hplain (fun _ _ h => by cases h) (pollEnd_plain hgo)
  | @condWait me c hgo =>
    cases c with
    | user n =>
      rw [hgo] at hplain ⊢
      exact hplain (fun _ _ h => by cases h) ((condUnblock_plain s me n).trans (ret_plain _ _))
    | term n => exact absurd hpc (hwait me n)
  | @lock me m hgo =>
    rw [hgo] at hplain ⊢
    exact hplain (fun _ _ h => by cases h) (mutexLockEnd_plain s me m)
  | join hgo => exact .joinEnd _ _ _ hpc hgo
  | exitTerm hgo => exact .exitTerm _ _ hpc hgo
  | exitEnd hgo => exact .exitEnd _ hpc hgo
  | idleDispatch _ _ s₁ hgo eq =>
    rw [eq] at hplain ⊢
    exact hplain (fun _ _ h => by cases h) ((vpIdle_plain hgo).trans (setPc_plain _ rfl))
  | idleEnd ended hgo =>
    refine .exit s _ false ⟨Or.inl hpc, ended⟩ ?_ (.refl s) rfl rfl hgo
    rw [hpc]
    exact fun _ _ h => by cases h
  | idleClock _ s₁ hgo eq =>
    rw [eq] at hplain ⊢
    exact hplain (fun _ _ h => by cases h) ((vpCheckClock_plain hgo).trans (setPc_plain _ rfl))
  | idleSched hgo => exact idleSched_cases hpc hgo
  | nativeDispatch _ _ s₁ hgo eq =>
    rw [eq] at hplain ⊢
    exact hplain (fun _ _ h => by cases h) ((vpIdle_plain hgo).trans (setPc_plain _ rfl))
  | nativeEnd _ eq =>
    rw [eq] at hplain ⊢
    exact hplain (fun _ _ h => by cases h) (s.ret_plain _)
  | nativeClock _ s₁ hgo eq =>
    rw [eq] at hplain ⊢
    exact hplain (fun _ _ h => by cases h) ((vpCheckClock_plain hgo).trans (setPc_plain _ rfl))
  | nativeSched eq =>
    rw [eq] at hplain ⊢
    exact hplain (fun _ _ h => by cases h) ((s.setPc_plain rfl).trans (vpSchedule_plain _))

end St

end StWin
