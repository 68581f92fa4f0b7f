import StWin.Sched.Act
import StWin.Sched.Plain

/-!
# Outcomes of steps

`LockFrame` is what every step does that is not one of a mutex: the mutexes stay as they are, a
thread that waits for a mutex goes on waiting, unless it is interrupted, and no thread begins to wait
for one. `Fine` collects what is proved of each step that creates and terminates no thread.
-/

namespace StWin

/-- The event is one of a mutex. -/
def Note.isMutex : Note → Bool
  | .lockWait _ _ => true
  | .locked _ _ => true
  | .unlocked _ _ => true
  | _ => false

namespace St

/-- A step that is not one of a mutex. -/
structure LockFrame (s s' : St) : Prop where
  mutex : s'.mutex = s.mutex
  log : ∃ l, s'.log = l ++ s.log ∧ ∀ n ∈ l, n.isMutex = false
  waiter : ∀ t m, s.Live t → s.pcOf t = .lock t m → s'.Live t ∧ s'.pcOf t = .lock t m ∧
    ((s'.thread t).state = .LOCK_WAIT → (s.thread t).state = .LOCK_WAIT) ∧
    ((s'.thread t).state ≠ .LOCK_WAIT →
      (s.thread t).state ≠ .LOCK_WAIT ∨ (s'.thread t).flags.interrupt = true) ∧
    ((s.thread t).flags.interrupt = true → (s'.thread t).flags.interrupt = true)
  back : ∀ t m, s'.Live t → s'.pcOf t = .lock t m → s.Live t ∧ s.pcOf t = .lock t m

namespace LockFrame

/-- Nothing has changed. -/
theorem refl (s : St) : LockFrame s s :=
  ⟨rfl, ⟨[], rfl, by simp⟩, fun _ _ hl hpc => ⟨hl, hpc, id, fun h => Or.inl h, id⟩,
    fun _ _ hl hpc => ⟨hl, hpc⟩⟩

/-- Two steps that leave the mutexes alone. -/
theorem trans {s s' s'' : St} (h : LockFrame s s') (h' : LockFrame s' s'') : LockFrame s s'' where
  mutex := h'.mutex.trans h.mutex
  log := by
    obtain ⟨l, hl, hn⟩ := h.log
    obtain ⟨l', hl', hn'⟩ := h'.log
    refine ⟨l' ++ l, by rw [hl', hl, List.append_assoc], fun n hmem => ?_⟩
    rcases List.mem_append.mp hmem with hmem | hmem
    · exact hn' n hmem
    · exact hn n hmem
  waiter t m hl hpc := by
    obtain ⟨hl₁, hpc₁, hin₁, hout₁, hint₁⟩ := h.waiter t m hl hpc
    obtain ⟨hl₂, hpc₂, hin₂, hout₂, hint₂⟩ := h'.waiter t m hl₁ hpc₁
    refine ⟨hl₂, hpc₂, fun hst => hin₁ (hin₂ hst), fun hst => ?_, fun hi => hint₂ (hint₁ hi)⟩
    rcases hout₂ hst with hst₁ | hi
    · exact (hout₁ hst₁).imp_right hint₂
    · exact Or.inr hi
  back t m hl hpc := by
    obtain ⟨hl₁, hpc₁⟩ := h'.back t m hl hpc
    exact h.back t m hl₁ hpc₁

/-- The fibers are unchanged, and a thread leaves `LOCK_WAIT` only when it is interrupted. -/
theorem of_thread {s s' : St} (hmutex : s'.mutex = s.mutex) (hlog : s'.log = s.log)
    (hlives : SameLives s s') (hfiber : s'.fiber = s.fiber)
    (hin : ∀ t, (s'.thread t).state = .LOCK_WAIT → (s.thread t).state = .LOCK_WAIT)
    (hout : ∀ t, (s'.thread t).state ≠ .LOCK_WAIT →
      (s.thread t).state ≠ .LOCK_WAIT ∨ (s'.thread t).flags.interrupt = true)
    (hint : ∀ t, (s.thread t).flags.interrupt = true → (s'.thread t).flags.interrupt = true) :
    LockFrame s s' := by
  have hpc : ∀ t, s'.pcOf t = s.pcOf t := by
    intro t
    unfold pcOf
    rw [hlives.id, hfiber]
  refine ⟨hmutex, ⟨[], hlog, by simp⟩, fun t m hl hpc' => ?_, fun t m hl hpc' => ?_⟩
  · rw [hpc]
    exact ⟨(hlives.live t).mpr hl, hpc', hin t, hout t, hint t⟩
  · rw [hpc] at hpc'
    exact ⟨(hlives.live t).mp hl, hpc'⟩

end LockFrame

/-- To wake threads leaves the mutexes alone. -/
theorem Wakes.lockFrame {s s' : St} {l : List ℕ} (h : Wakes s s' l) : LockFrame s s' := by
  have hlock : ∀ t, (s'.thread t).state = .LOCK_WAIT ↔ (s.thread t).state = .LOCK_WAIT := by
    intro t
    by_cases ht : t ∈ l
    · obtain ⟨-, hst, hwas⟩ := h.state t ht
      rw [hst]
      rcases hwas with hwas | hwas | hwas <;> rw [hwas] <;> decide
    · rw [h.same t ht]
  exact LockFrame.of_thread h.mutex h.log h.lives h.fiber (fun t => (hlock t).mp)
    (fun t hne => Or.inl fun hst => hne ((hlock t).mpr hst)) fun t => by rw [h.interrupt]; exact id

/-- An action of the running thread that is not one of a mutex. -/
theorem Acts.lockFrame {s s' : St} {t : ℕ} {th : Thread} {pc : Pc} (ha : Acts s s' t th pc)
    (hr : s.Runs t) (hmutex : s'.mutex = s.mutex) (hlog : s'.log = s.log)
    (hpc : ∀ m, ¬(s.pcOf t).waitsFor m) (hpc' : ∀ m, ¬pc.waitsFor m) : LockFrame s s' := by
  have hpcs := ha.pcOf_self hr
  have hother : ∀ u, u ≠ t → s.Live u → s'.pcOf u = s.pcOf u := by
    intro u hu hl
    unfold pcOf
    rw [ha.id_eq, ha.pc_of_ne (hr.ne_running u hu hl)]
  refine ⟨hmutex, ⟨[], hlog, by simp⟩, fun u m hl hpcu => ?_, fun u m hl hpcu => ?_⟩
  · have hu : u ≠ t := by
      rintro rfl
      exact hpc m (by rw [hpcu]; rfl)
    rw [ha.thread_of_ne hu, hother u hu hl]
    exact ⟨(ha.live u).mpr hl, hpcu, fun h => h, fun h => Or.inl h, fun h => h⟩
  · have hl := (ha.live u).mp hl
    have hu : u ≠ t := by
      rintro rfl
      rw [hpcs] at hpcu
      exact hpc' m (by rw [hpcu]; rfl)
    rw [hother u hu hl] at hpcu
    exact ⟨hl, hpcu⟩

/-- Whoever is switched to was not waiting. -/
theorem resumed_lockFrame {s : St} {t : ℕ} {run_q : List ℕ} (ht : s.Live t ∨ t = 0)
    (hst : (s.thread t).state ≠ .LOCK_WAIT) : LockFrame s (s.resumed t run_q) := by
  have hlock : ∀ u, ((s.resumed t run_q).thread u).state = .LOCK_WAIT ↔
      (s.thread u).state = .LOCK_WAIT := by
    intro u
    by_cases hu : u = t
    · subst hu
      simp [resumed, hst]
    · simp [resumed, hu]
  refine LockFrame.of_thread rfl rfl (resumed_sameLives ht) rfl (fun u => (hlock u).mp)
    (fun u hne => Or.inl fun h => hne ((hlock u).mpr h)) fun u => ?_
  by_cases hu : u = t
  · subst hu
    simp [resumed]
  · simp [resumed, hu]

/-- A switch leaves the mutexes alone. -/
theorem vpSchedule_lockFrame {s : St} (h : s.Core []) (ho : s.Ownership) :
    LockFrame s s.vpSchedule := by
  have hidle : (s.thread 0).state ≠ .LOCK_WAIT := by
    rcases ho.idle_state with h0 | h0 <;> rw [h0] <;> decide
  rcases vpSchedule_eq h ho with ⟨t, q, hq, hl, -, heq⟩ | ⟨t, q, -, -, heq⟩ | ⟨-, heq⟩
  · rw [heq]
    have hst := ((h.recs t).run_q.mp (by rw [hq]; exact List.mem_cons_self)).2
    exact resumed_lockFrame (Or.inl hl) (by rw [hst]; decide)
  · rw [heq]
    exact resumed_lockFrame (Or.inr rfl) hidle
  · rw [heq]
    exact resumed_lockFrame (Or.inr rfl) hidle

/-! ## The idle thread's turn -/

/-- When the idle thread is about to dispatch, nobody is runnable. -/
def IdleOk (s : St) : Prop :=
  s.running = 1 → (s.fiber 1).pc = .idle .dispatch → s.run_q = []

/-- `_st_this_thread` is not on the run queue while `main` runs. -/
def MainOk (s : St) : Prop := s.running = 0 → ∀ t, s.this_thread = some t → t ∉ s.run_q

/-- The idle thread gets the turn only when the run queue is empty. -/
theorem vpSchedule_idleOk {s : St} (h : s.Core []) (ho : s.Ownership)
    (hthis : ∀ t, s.this_thread = some t → t ∉ s.run_q) : s.vpSchedule.IdleOk := by
  intro hrun _
  rcases vpSchedule_eq h ho with ⟨t, q, -, hl, -, heq⟩ | ⟨t, q, hq, hth, -⟩ | ⟨-, heq⟩
  · rw [heq] at hrun
    have := ho.live_id hl
    change (s.thread t).id = 1 at hrun
    omega
  · exact absurd (by rw [hq]; exact List.mem_cons_self) (hthis t hth)
  · rw [heq]
    rfl

/-- `_st_vp_schedule` does not go to `main`. -/
theorem vpSchedule_running {s : St} (h : s.Core []) (ho : s.Ownership) : s.vpSchedule.running ≠ 0 := by
  obtain ⟨t, q, hl | rfl, heq⟩ := vpSchedule_resumed h ho
  · have := ho.live_id hl
    rw [heq]
    change (s.thread t).id ≠ 0
    omega
  · rw [heq]
    change (s.thread 0).id ≠ 0
    rw [ho.idle_id]
    decide

/-- What a step that creates and terminates no thread keeps, if it starts in a good state. -/
structure Fine (s s' : St) : Prop where
  good : s'.Good
  lives : SameLives s s'
  idle : s.MainOk → s'.IdleOk
  /-- `main` gets the turn from a thread that has terminated. -/
  main : s'.running = 0 → (s.running = 0 ∧ s'.this_thread = s.this_thread) ∨
    s'.This fun t => (s'.thread t).state = .ZOMBIE

/-- The running fiber of a live thread is neither `main` nor the idle thread's. -/
theorem Runs.two_le {s : St} {t : ℕ} (hr : s.Runs t) (ho : s.Ownership) : 2 ≤ s.running := by
  rw [hr.running]
  exact ho.live_id hr.live

/-- A thread that runs has not exited. -/
theorem Runs.not_dead {s : St} {t : ℕ} (hr : s.Runs t) :
    s.running ∈ s.threads → (s.life s.running).exits = 0 := by
  rw [hr.running]
  exact fun _ => hr.live.2.1

/-- After an action of the running thread each stack has the owner that it had. -/
theorem Acts.ownership {s s' : St} {t : ℕ} {th : Thread} {pc : Pc} (ha : Acts s s' t th pc)
    (ho : s.Ownership) (hr : s.Runs t) : s'.Ownership := by
  have h2 := hr.two_le ho
  refine (ha.sameLives hr.live).ownership ho ⟨fun h => ?_, fun h => ?_⟩ hr.not_dead
  · omega
  · omega

/-- The running thread goes on. -/
theorem Acts.fine {s s' : St} {t : ℕ} {th : Thread} {pc : Pc} (ha : Acts s s' t th pc)
    (ho : s.Ownership) (hr : s.Runs t) (hc : s'.Core []) (hst : th.state = .RUNNING) : Fine s s' := by
  have h2 := hr.two_le ho
  refine ⟨⟨hc, ha.ownership ho hr, ?_⟩, ha.sameLives hr.live, fun _ hrun => ?_, fun hrun => ?_⟩
  · refine Turn.thread t ((ha.live t).mpr hr.live) ?_ ?_ ?_
    · rw [ha.running, ha.id_eq, hr.running]
    · rw [ha.thread_self, hst]
    · rw [ha.this_thread, hr.this]
  · rw [ha.running] at hrun
    omega
  · rw [ha.running] at hrun
    omega

/-- The running thread has parked itself, and schedules. -/
theorem Acts.fine_switch {s s' : St} {t : ℕ} {th : Thread} {pc : Pc} (ha : Acts s s' t th pc)
    (ho : s.Ownership) (hr : s.Runs t) (hc : s'.Core []) (hst : th.state ≠ .RUNNING)
    (hst' : th.state ≠ .RUNNABLE) : Fine s s'.vpSchedule := by
  have ho' := ha.ownership ho hr
  have hpark : s'.Parked := by
    intro u hl hrun
    by_cases hu : u = t
    · subst hu
      rw [ha.thread_self] at hrun
      exact hst hrun
    · have hfits := (hc.recs u).state hl
      rw [hrun] at hfits
      refine hr.ne_running u hu ((ha.live u).mp hl) ?_
      rw [← ha.running, hfits.1, ha.id_eq]
  have hdead : s'.running ∈ s'.threads → (s'.life s'.running).exits = 0 := by
    rw [ha.running, ha.threads, ha.life]
    exact hr.not_dead
  obtain ⟨hgood, hsame⟩ := vpSchedule_good hc ho' hpark hdead
  refine ⟨hgood, (ha.sameLives hr.live).trans hsame ha.running, fun _ => ?_,
    fun hrun => absurd hrun (vpSchedule_running hc ho')⟩
  refine vpSchedule_idleOk hc ho' fun u hu hmem => ?_
  rw [ha.this_thread, hr.this, Option.some_inj] at hu
  subst hu
  have := ((hc.recs t).run_q.mp hmem).2
  rw [ha.thread_self] at this
  exact hst' this

end St

end StWin
