import StWin.Sched.Reach
import StWin.Heap.Due

/-!
# What a step does to the other threads

A step is taken by one fiber. `Stirs` lists what it can do to the record of a live thread whose fiber
does not run: nothing, give it the turn if it is runnable, or make it runnable, and then the label of
the step tells by which event: an interrupt, a signal, the clock, a dispatch pass, or the release of a
mutex. The place where the other thread continues, and its due time in the timeout heap, stay as they
are.
-/

namespace StWin

/-- A thread that is made runnable. -/
def Thread.woken (th : Thread) : Thread :=
  { th with state := .RUNNABLE, flags := { th.flags with on_sleepq := false } }

/-- The flag that `st_thread_interrupt` sets. -/
def Thread.flagged (th : Thread) : Thread :=
  { th with flags := { th.flags with interrupt := true } }

/-- The flag that `_st_vp_check_clock` sets for a thread that waits on a condition variable. -/
def Thread.timedOut (th : Thread) : Thread :=
  if th.state = .COND_WAIT then { th with flags := { th.flags with timedout := true } } else th

namespace St

/-- From `s` to `s'` the record `t` is as it was, or has got the turn, and its due time is as it
was. -/
structure Spares (t : ℕ) (s s' : St) : Prop where
  thread : s'.thread t = s.thread t ∨
    ((s.thread t).state = .RUNNABLE ∧ s'.thread t = { s.thread t with state := .RUNNING })
  due : (s'.heap.node t).due = (s.heap.node t).due

namespace Spares

variable {t : ℕ}

/-- The record and the timeout heap are as they were. -/
theorem of_eq {s s' : St} (h : s'.thread t = s.thread t) (hheap : s'.heap = s.heap) :
    Spares t s s' :=
  ⟨Or.inl h, by rw [hheap]⟩

/-- First assignments that do not concern `t`, then the rest. -/
theorem of_same {s s₁ s' : St} (h : Spares t s₁ s') (hth : s₁.thread t = s.thread t)
    (hdue : (s₁.heap.node t).due = (s.heap.node t).due) : Spares t s s' := by
  refine ⟨?_, h.due.trans hdue⟩
  have hcases := h.thread
  rw [hth] at hcases
  exact hcases

end Spares

section spares

variable {s s' : St} {t : ℕ}

/-- `_st_vp_schedule` resumes a runnable thread, or the idle thread. -/
theorem vpSchedule_spares (s : St) (h0 : t ≠ s.idle_thread) : Spares t s s.vpSchedule := by
  have hswitch : ∀ (s₁ : St) (u : ℕ), (s₁.switchContext u).thread = s₁.thread ∧
      (s₁.switchContext u).heap = s₁.heap := by
    intro s₁ u
    unfold switchContext
    split <;> exact ⟨rfl, rfl⟩
  -- Whoever is resumed, it is `t` only if it was runnable.
  have hresume : ∀ (s₁ : St) (u : ℕ), s₁.thread = s.thread → s₁.heap = s.heap →
      (u = t → (s.thread t).state = .RUNNABLE) →
      Spares t s ({ s₁.setState u .RUNNING with this_thread := some u }.switchContext u) := by
    intro s₁ u hth hheap hu
    refine ⟨?_, by rw [(hswitch _ u).2]; exact congrArg (fun h : Heap => (h.node t).due) hheap⟩
    rw [(hswitch _ u).1]
    by_cases hut : u = t
    · refine Or.inr ⟨hu hut, ?_⟩
      simp [setState, setThread, hth, hut]
    · refine Or.inl ?_
      simp [setState, setThread, hth, Ne.symm hut]
  have hidle : s.idle_thread = t → (s.thread t).state = .RUNNABLE := fun h => absurd h.symm h0
  unfold vpSchedule nextThread
  cases s.run_q with
  | nil =>
    dsimp only
    rw [if_neg (by simp)]
    exact hresume _ _ rfl rfl hidle
  | cons u q =>
    dsimp only
    split_ifs with hst hthis hthis
    · exact hresume _ _ rfl rfl hidle
    · exact hresume _ _ rfl rfl fun hu => hu ▸ hst
    · exact hresume _ _ rfl rfl hidle
    · exact hresume _ _ rfl rfl hidle

/-- A thread that waits is not resumed. -/
theorem vpSchedule_waiter (s : St) (h0 : t ≠ s.idle_thread) (hst : (s.thread t).state ≠ .RUNNABLE) :
    s.vpSchedule.thread t = s.thread t :=
  (vpSchedule_spares s h0).thread.resolve_right fun h => hst h.1

/-- `_st_add_sleep_q` of another thread. -/
theorem addSleepQ_of_ne {me timeout : ℕ} (hne : t ≠ me) (h : s.addSleepQ me timeout = some s') :
    s'.thread t = s.thread t ∧ (s'.heap.node t).due = (s.heap.node t).due ∧
      s'.idle_thread = s.idle_thread := by
  obtain ⟨heap, hheap, rfl⟩ := Option.map_eq_some_iff.mp h
  refine ⟨Function.update_of_ne hne _ _, ?_, rfl⟩
  exact (Heap.addSleepQ_due hheap t).trans (if_neg hne)

/-- The return with `EINTR` at the start of a call spares the others. -/
theorem eintr_spares {me : ℕ} (hne : t ≠ me) : Spares t s (s.eintr me) :=
  .of_eq (Function.update_of_ne hne _ _) rfl

/-- The caller is another thread. -/
theorem caller_ne {me : ℕ} (hthis : s.this_thread ≠ some t) (hme : s.this_thread = some me) :
    t ≠ me := by
  rintro rfl
  exact hthis hme

/-- `st_poll` up to the switch spares the others. -/
theorem poll_spares {pds : List Pollfd} {timeout : ℕ} (hthis : s.this_thread ≠ some t)
    (h0 : t ≠ s.idle_thread) (h : s.poll pds timeout = some s') : Spares t s s' := by
  cases poll_paths h with
  | outside _ eq => exact eq ▸ .of_eq rfl rfl
  | interrupted me this _ eq => exact eq ▸ eintr_spares (caller_ne hthis this)
  | waits me s₁ this _ sleeps eq =>
    have hne := caller_ne hthis this
    obtain ⟨hth, hdue, hidle⟩ := addSleepQ_of_ne hne sleeps
    rw [eq]
    refine Spares.of_same (vpSchedule_spares _ ?_) ((Function.update_of_ne hne _ _).trans hth) hdue
    exact h0.trans_eq hidle.symm

/-- `st_usleep` spares the others. -/
theorem usleep_spares {usecs : ℕ} (hthis : s.this_thread ≠ some t) (h0 : t ≠ s.idle_thread)
    (h : s.usleep usecs = some s') : Spares t s s' := by
  cases usleep_paths h with
  | stays _ eq => exact eq ▸ (vpSchedule_spares (s.ret (.ok 0)) h0).of_same rfl rfl
  | interrupted me this _ eq => exact eq ▸ eintr_spares (caller_ne hthis this)
  | sleeps me s₁ this _ _ _ _ sleeps eq =>
    have hne := caller_ne hthis this
    obtain ⟨hth, hdue, hidle⟩ := addSleepQ_of_ne hne sleeps
    rw [eq]
    refine Spares.of_same (vpSchedule_spares _ ?_) (hth.trans (Function.update_of_ne hne _ _)) hdue
    exact h0.trans_eq hidle.symm
  | suspends me this _ eq =>
    rw [eq]
    refine Spares.of_same (vpSchedule_spares _ h0) ?_ rfl
    exact Function.update_of_ne (caller_ne hthis this) _ _

/-- A wait on a condition variable up to the switch spares the others. -/
theorem condBlock_spares {me : ℕ} {c : Cond} {timeout : ℕ} {pc : Pc} (hne : t ≠ me)
    (h0 : t ≠ s.idle_thread) (h : s.condBlock me c timeout pc = some s') : Spares t s s' := by
  obtain ⟨s₁, rfl, hs₁⟩ := condBlock_paths h
  have hstate : (s.linkCond me c).thread t = s.thread t := Function.update_of_ne hne _ _
  rcases hs₁ with ⟨-, hs₁⟩ | ⟨-, rfl⟩
  · obtain ⟨hth, hdue, hidle⟩ := addSleepQ_of_ne hne hs₁
    exact Spares.of_same (vpSchedule_spares _ (h0.trans_eq hidle.symm)) (hth.trans hstate) hdue
  · exact Spares.of_same (vpSchedule_spares _ h0) hstate rfl

/-- `st_cond_timedwait` up to the switch spares the others. -/
theorem condTimedwait_spares {c : Cond} {timeout : ℕ} (hthis : s.this_thread ≠ some t)
    (h0 : t ≠ s.idle_thread) (h : s.condTimedwait c timeout = some s') : Spares t s s' := by
  cases condTimedwait_paths h with
  | outside _ eq => exact eq ▸ .of_eq rfl rfl
  | interrupted me this _ eq => exact eq ▸ eintr_spares (caller_ne hthis this)
  | waits me this _ blocks => exact condBlock_spares (caller_ne hthis this) h0 blocks

/-- `st_mutex_lock` up to the switch spares the others. -/
theorem mutexLock_spares {m : ℕ} (hthis : s.this_thread ≠ some t) (h0 : t ≠ s.idle_thread)
    (h : s.mutexLock m = some s') : Spares t s s' := by
  cases mutexLock_paths h with
  | returns r eq => exact eq ▸ .of_eq rfl rfl
  | interrupted me this _ eq => exact eq ▸ eintr_spares (caller_ne hthis this)
  | locks me _ eq => exact eq ▸ .of_eq rfl rfl
  | waits me this eq =>
    rw [eq]
    refine Spares.of_same (vpSchedule_spares _ h0) ?_ rfl
    exact Function.update_of_ne (caller_ne hthis this) _ _

/-- The loop of `st_thread_join` spares those that are no zombies. -/
theorem joinLoop_spares {c : Cond} {u : ℕ} (hthis : s.this_thread ≠ some t) (h0 : t ≠ s.idle_thread)
    (hz : (s.thread t).state ≠ .ZOMBIE) (h : s.joinLoop c u = some s') : Spares t s s' := by
  cases joinLoop_paths h with
  | joined state eq =>
    have hne : t ≠ u := by
      rintro rfl
      exact hz state
    exact eq ▸ .of_eq (Function.update_of_ne hne _ _) rfl
  | interrupted me this eq => exact eq ▸ eintr_spares (caller_ne hthis this)
  | waits me this blocks => exact condBlock_spares (caller_ne hthis this) h0 blocks

/-- `st_thread_join` up to the switch spares those that are no zombies. -/
theorem threadJoin_spares {u : ℕ} (hthis : s.this_thread ≠ some t) (h0 : t ≠ s.idle_thread)
    (hz : (s.thread t).state ≠ .ZOMBIE) (h : s.threadJoin u = some s') : Spares t s s' := by
  rcases threadJoin_paths h with ⟨r, rfl⟩ | ⟨c, -, -, h⟩
  · exact .of_eq rfl rfl
  · exact joinLoop_spares hthis h0 hz h

/-- `st_poll` after the switch spares the others. -/
theorem pollEnd_spares {me q : ℕ} (hne : t ≠ me) (h : s.pollEnd me q = some s') : Spares t s s' := by
  rcases pollEnd_paths h with rfl | ⟨n, rfl⟩
  · exact Spares.of_same (eintr_spares hne) rfl rfl
  · exact .of_eq rfl rfl

/-- `st_cond_timedwait` after the switch leaves the other records. -/
theorem condUnblock_of_ne {me : ℕ} (hne : t ≠ me) (c : Cond) :
    (s.condUnblock me c).1.thread t = s.thread t :=
  Function.update_of_ne hne _ _

/-- `st_thread_join` after a wait in its loop spares those that are no zombies. -/
theorem joinEnd_spares {me u : ℕ} {c : Cond} (hne : t ≠ me) (hthis : s.this_thread ≠ some t)
    (h0 : t ≠ s.idle_thread) (hz : (s.thread t).state ≠ .ZOMBIE)
    (h : s.joinEnd me c u = some s') : Spares t s s' := by
  have hth : (s.condUnblock me c).1.thread t = s.thread t := condUnblock_of_ne hne c
  rcases joinEnd_paths h with ⟨e, rfl⟩ | h
  · exact .of_eq hth rfl
  · have hloop : Spares t (s.condUnblock me c).1 s' :=
      joinLoop_spares hthis h0 (by rw [hth]; exact hz) h
    exact hloop.of_same hth rfl

/-- `st_mutex_lock` after the switch spares the others. -/
theorem mutexLockEnd_spares {me m : ℕ} (hne : t ≠ me) : Spares t s (s.mutexLockEnd me m) := by
  unfold mutexLockEnd
  dsimp only
  split_ifs
  · exact .of_eq (Function.update_of_ne hne _ _) rfl
  · exact .of_eq rfl rfl

/-- `st_mutex_trylock` spares all records. -/
theorem mutexTrylock_spares {m : ℕ} : Spares t s (s.mutexTrylock m) := by
  unfold mutexTrylock
  dsimp only
  split_ifs
  · exact .of_eq rfl rfl
  · split <;> exact .of_eq rfl rfl

/-- The last statement of the loop of `_st_idle_thread_start` spares the others. -/
theorem idleSched_spares (h0 : t ≠ s.idle_thread) (hactive : 0 < s.active_count)
    (h : s.idleSched = some s') : Spares t s s' := by
  obtain ⟨hth, hheap, hidle⟩ : s.readyIdle.thread t = s.thread t ∧ s.readyIdle.heap = s.heap ∧
      s.readyIdle.idle_thread = s.idle_thread := by
    unfold readyIdle
    split_ifs
    · exact ⟨Function.update_of_ne h0 _ _, rfl, rfl⟩
    · exact ⟨rfl, rfl, rfl⟩
  rcases idleSched_paths h with ⟨hended, -⟩ | ⟨-, rfl⟩
  · omega
  · refine Spares.of_same (vpSchedule_spares _ ?_) hth
      (congrArg (fun h : Heap => (h.node t).due) hheap)
    exact h0.trans_eq hidle.symm

/-- The return from `st_thread_exit` spares all records. -/
theorem exitReturn_spares {explicit : Bool} : Spares t s (s.exitReturn explicit) := by
  unfold exitReturn
  split_ifs <;> exact .of_eq rfl rfl

end spares

/-! ## Waking -/

section wakes

variable {s s' : St} {t : ℕ}

/-- One record is made runnable, and no due time changes. -/
theorem wake_thread {u : ℕ} (h : s.wake u = some s') :
    s'.thread t = (if t = u then (s.thread t).woken else s.thread t) ∧
      (s'.heap.node t).due = (s.heap.node t).due := by
  unfold wake leaveSleepQ at h
  obtain ⟨s₁, hs₁, rfl⟩ := Option.map_eq_some_iff.mp h
  split_ifs at hs₁ with hon
  · obtain ⟨heap, hheap, rfl⟩ := Option.map_eq_some_iff.mp hs₁
    refine ⟨?_, Heap.delSleepQ_sameDue hheap t⟩
    split_ifs with hu
    · subst hu
      simp [addRunq, setState, setSleepQ, setFlags, setThread, Thread.woken]
    · simp [addRunq, setState, setSleepQ, setFlags, setThread, hu]
  · cases hs₁
    refine ⟨?_, rfl⟩
    split_ifs with hu
    · subst hu
      have hfl : { (s.thread t).flags with on_sleepq := false } = (s.thread t).flags := by
        rw [← Bool.not_eq_true _ |>.mp hon]
      simp [addRunq, setState, setThread, Thread.woken, hfl]
    · simp [addRunq, setState, setThread, hu]

/-- To make a thread runnable leaves the event system and the mutexes. -/
theorem wake_ev {u : ℕ} (h : s.wake u = some s') : s'.ev = s.ev ∧ s'.mutex = s.mutex := by
  unfold wake leaveSleepQ at h
  obtain ⟨s₁, hs₁, rfl⟩ := Option.map_eq_some_iff.mp h
  split_ifs at hs₁
  · obtain ⟨heap, -, rfl⟩ := Option.map_eq_some_iff.mp hs₁
    exact ⟨rfl, rfl⟩
  · cases hs₁
    exact ⟨rfl, rfl⟩

/-- The loop of `_st_cond_signal` wakes only threads in `COND_WAIT`. -/
theorem condSignalLoop_thread (broadcast : Bool) (q : List ℕ) : ∀ {s s' : St},
    condSignalLoop broadcast q s = some s' →
      (s'.thread t = s.thread t ∨
        (t ∈ q ∧ (s.thread t).state = .COND_WAIT ∧ s'.thread t = (s.thread t).woken)) ∧
      (s'.heap.node t).due = (s.heap.node t).due := by
  induction q with
  | nil =>
    intro s s' h
    cases h
    exact ⟨Or.inl rfl, rfl⟩
  | cons u q ih =>
    intro s s' h
    rw [condSignalLoop] at h
    split_ifs at h with hst hb
    · obtain ⟨s₁, hs₁, h⟩ := Option.bind_eq_some_iff.mp h
      obtain ⟨hth, hdue⟩ := wake_thread (t := t) hs₁
      obtain ⟨hcases, hdue'⟩ := ih h
      refine ⟨?_, hdue'.trans hdue⟩
      by_cases hu : t = u
      · subst hu
        rw [if_pos rfl] at hth
        rw [hth] at hcases
        -- Once woken, it is not in `COND_WAIT` any more.
        rcases hcases with heq | ⟨-, hst', -⟩
        · exact Or.inr ⟨List.mem_cons_self, hst, heq⟩
        · cases hst'
      · rw [if_neg hu] at hth
        rw [hth] at hcases
        exact hcases.imp_right (And.imp_left (List.mem_cons_of_mem u))
    · obtain ⟨s₁, hs₁, h⟩ := Option.bind_eq_some_iff.mp h
      cases h
      obtain ⟨hth, hdue⟩ := wake_thread (t := t) hs₁
      refine ⟨?_, hdue⟩
      by_cases hu : t = u
      · subst hu
        rw [if_pos rfl] at hth
        exact Or.inr ⟨List.mem_cons_self, hst, hth⟩
      · rw [if_neg hu] at hth
        exact Or.inl hth
    · obtain ⟨hcases, hdue⟩ := ih h
      exact ⟨hcases.imp_right (And.imp_left (List.mem_cons_of_mem u)), hdue⟩

/-- The notified threads of a dispatch pass. -/
theorem wakeAll_thread (w : List ℕ) : ∀ {s s' : St},
    w.foldlM (fun s pq => s.wake (s.ev.pollq pq).thread) s = some s' →
      (s'.thread t = s.thread t ∨
        ((∃ q ∈ w, (s.ev.pollq q).thread = t) ∧ s'.thread t = (s.thread t).woken)) ∧
      (s'.heap.node t).due = (s.heap.node t).due := by
  induction w with
  | nil =>
    intro s s' h
    cases h
    exact ⟨Or.inl rfl, rfl⟩
  | cons q w ih =>
    intro s s' h
    rw [List.foldlM_cons] at h
    obtain ⟨s₁, hs₁, h⟩ := Option.bind_eq_some_iff.mp h
    obtain ⟨hth, hdue⟩ := wake_thread (t := t) hs₁
    obtain ⟨hcases, hdue'⟩ := ih h
    have hev : s₁.ev = s.ev := (wake_ev hs₁).1
    rw [hev] at hcases
    refine ⟨?_, hdue'.trans hdue⟩
    by_cases hu : t = (s.ev.pollq q).thread
    · rw [if_pos hu] at hth
      have hq : ∃ q' ∈ q :: w, (s.ev.pollq q').thread = t := ⟨q, List.mem_cons_self, hu.symm⟩
      rcases hcases with heq | ⟨-, heq⟩
      · exact Or.inr ⟨hq, heq.trans hth⟩
      · rw [hth] at heq
        exact Or.inr ⟨hq, heq⟩
    · rw [if_neg hu] at hth
      rw [hth] at hcases
      exact hcases.imp_right fun ⟨⟨q', hq', hrest⟩, heq⟩ =>
        ⟨⟨q', List.mem_cons_of_mem q hq', hrest⟩, heq⟩

/-- The loop of `_st_vp_check_clock` wakes only threads that are due. -/
theorem checkClockLoop_thread (now fuel : ℕ) : ∀ {s s' : St},
    checkClockLoop now fuel s = some s' →
      (s'.thread t = s.thread t ∨
        ((s.heap.node t).due ≤ now ∧ s'.thread t = (s.thread t).timedOut.woken)) ∧
      (s'.heap.node t).due = (s.heap.node t).due := by
  induction fuel with
  | zero =>
    intro s s' h
    cases h
  | succ fuel ih =>
    intro s s' h
    rw [checkClockLoop] at h
    split at h
    · cases h
      exact ⟨Or.inl rfl, rfl⟩
    · next u _ =>
      split_ifs at h with hdue
      · cases h
        exact ⟨Or.inl rfl, rfl⟩
      · obtain ⟨s₁, hs₁, h⟩ := Option.bind_eq_some_iff.mp h
        obtain ⟨heap, hheap, rfl⟩ := Option.map_eq_some_iff.mp hs₁
        obtain ⟨hcases, hdue'⟩ := ih h
        have hsame := Heap.delSleepQ_sameDue hheap t
        generalize hs₂ : ((if ((s.setSleepQ u false heap).thread u).state = .COND_WAIT then
          (s.setSleepQ u false heap).setFlags u fun fl => { fl with timedout := true }
          else s.setSleepQ u false heap).setState u .RUNNABLE).addRunq u = s₂ at hcases hdue'
        have hheap₂ : s₂.heap = heap := by
          rw [← hs₂]
          split_ifs <;> rfl
        have hth : s₂.thread t = if t = u then (s.thread t).timedOut.woken else s.thread t := by
          rw [← hs₂]
          by_cases hu : t = u
          · subst hu
            by_cases hst : (s.thread t).state = .COND_WAIT
            · simp [setSleepQ, setFlags, setState, setThread, addRunq, Thread.timedOut, Thread.woken, hst]
            · simp [setSleepQ, setFlags, setState, setThread, addRunq, Thread.timedOut, Thread.woken, hst]
          · rw [if_neg hu]
            split_ifs <;> simp [setSleepQ, setFlags, setState, setThread, addRunq, hu]
        rw [hheap₂, hsame] at hcases hdue'
        refine ⟨?_, hdue'⟩
        by_cases hu : t = u
        · subst hu
          rw [if_pos rfl] at hth
          rw [hth] at hcases
          -- A second time would change nothing.
          refine Or.inr ⟨Nat.le_of_not_lt hdue, hcases.elim id fun h => h.2.trans ?_⟩
          simp [Thread.timedOut, Thread.woken]
        · rw [if_neg hu] at hth
          rw [hth] at hcases
          exact hcases

end wakes

/-! ## Steps -/

/-- What a step of another fiber can do to the record of `t`. -/
inductive Stirs (s : St) (l : Label) (t : ℕ) : Thread → Prop where
  | same : Stirs s l t (s.thread t)
  | resumed (state : (s.thread t).state = .RUNNABLE) :
      Stirs s l t { s.thread t with state := .RUNNING }
  /-- An interrupt of a thread that is runnable already. -/
  | flagged (label : l = .call (.interrupt t)) (state : (s.thread t).state = .RUNNABLE) :
      Stirs s l t (s.thread t).flagged
  | interrupted (label : l = .call (.interrupt t)) (state : (s.thread t).state ≠ .RUNNABLE) :
      Stirs s l t (s.thread t).flagged.woken
  | signalled (n : ℕ) (label : l = .call (.condSignal n) ∨ l = .call (.condBroadcast n))
      (mem : t ∈ s.cond_q (.user n)) (state : (s.thread t).state = .COND_WAIT) :
      Stirs s l t (s.thread t).woken
  | expired (now : ℕ) (label : l = .clock now) (due : (s.heap.node t).due ≤ now)
      (state : (s.thread t).state = .SLEEPING ∨ (s.thread t).state = .IO_WAIT ∨
        (s.thread t).state = .COND_WAIT) :
      Stirs s l t (s.thread t).timedOut.woken
  | notified (outcomes : ℕ → SelectOutcome) (label : l = .dispatch outcomes) (q : ℕ)
      (mem : q ∈ (s.ev.dispatch outcomes).2) (thread : (s.ev.pollq q).thread = t)
      (state : (s.thread t).state = .IO_WAIT) :
      Stirs s l t (s.thread t).woken
  | released (m : ℕ) (label : l = .call (.mutexUnlock m)) (state : (s.thread t).state = .LOCK_WAIT) :
      Stirs s l t (s.thread t).woken

/-- What a step of another fiber leaves of the record `t`, and of its due time. -/
structure Stirred (s : St) (l : Label) (t : ℕ) (s' : St) : Prop where
  thread : Stirs s l t (s'.thread t)
  due : (s'.heap.node t).due = (s.heap.node t).due

section steps

variable {s s' : St} {l : Label} {t : ℕ}

/-- The record is one of those that a step can leave. -/
theorem Stirred.of_eq {th : Thread} (h : s'.thread t = th) (hs : Stirs s l t th)
    (hdue : (s'.heap.node t).due = (s.heap.node t).due) : Stirred s l t s' := by
  refine ⟨?_, hdue⟩
  rw [h]
  exact hs

/-- The place where the fiber that ran continues does not matter. -/
theorem Stirred.setPc (h : Stirred s l t s') (pc : Pc) : Stirred s l t (s'.setPc pc) :=
  ⟨h.thread, h.due⟩

/-- A record that was spared is one of those. -/
theorem Spares.stirred (h : Spares t s s') : Stirred s l t s' := by
  refine ⟨?_, h.due⟩
  rcases h.thread with heq | ⟨hst, heq⟩
  · rw [heq]
    exact .same
  · rw [heq]
    exact .resumed hst

/-- A live thread whose fiber does not run is in one of the waiting states, or runnable. -/
theorem Core.waits {p : List ℕ} (hc : s.Core p) (hl : s.Live t) (hne : (s.thread t).id ≠ s.running) :
    (s.thread t).state ≠ .RUNNING ∧ (s.thread t).state ≠ .ZOMBIE := by
  have hfits := (hc.recs t).state hl
  constructor
  · intro hst
    rw [hst] at hfits
    exact hne hfits.1.symm
  · intro hst
    rw [hst] at hfits
    exact hfits

/-- While a fiber other than `main` runs, `_st_this_thread` is not a thread that waits. -/
theorem Good.this_ne (hg : s.Good) (hl : s.Live t) (hne : (s.thread t).id ≠ s.running)
    (hmain : s.running ≠ 0) : s.this_thread ≠ some t := by
  intro hthis
  obtain ⟨-, hz⟩ := hg.core.waits hl hne
  rcases hg.turn with hmain' | ⟨-, hthis'⟩ | ⟨u, -, hrun, -, hthis'⟩ | ⟨u, -, -, -, hthis', hst⟩ |
    ⟨u, hleave, hthis'⟩
  · exact hmain hmain'
  · rw [hthis, Option.some_inj] at hthis'
    exact hg.own.live_ne_zero hl hthis'
  · rw [hthis, Option.some_inj] at hthis'
    subst hthis'
    exact hne hrun.symm
  · rw [hthis, Option.some_inj] at hthis'
    subst hthis'
    exact hz hst
  · rw [hthis, Option.some_inj] at hthis'
    subst hthis'
    exact hz hleave.state

/-- `st_thread_interrupt` of a thread that waits. -/
theorem threadInterrupt_waiting (hrun : (s.thread t).state ≠ .RUNNING)
    (hrun' : (s.thread t).state ≠ .RUNNABLE) (hz : (s.thread t).state ≠ .ZOMBIE)
    (h : s.threadInterrupt t = some s') :
    s'.thread t = (s.thread t).flagged.woken ∧
      (s'.heap.node t).due = (s.heap.node t).due ∧ s'.mutex = s.mutex := by
  have hflag : (s.setFlags t fun fl => { fl with interrupt := true }).thread t =
      (s.thread t).flagged := Function.update_self _ _ _
  have hst : ((s.setFlags t fun fl => { fl with interrupt := true }).thread t).state =
      (s.thread t).state := by rw [hflag]; rfl
  unfold threadInterrupt at h
  dsimp only at h
  rw [if_neg hz, hst, if_neg (by tauto)] at h
  obtain ⟨hth, hdue⟩ := wake_thread (t := t) h
  rw [if_pos rfl, hflag] at hth
  exact ⟨hth, hdue, (wake_ev h).2⟩

/-- `st_thread_interrupt` of any thread. -/
theorem threadInterrupt_stirs {u : ℕ} (hc : s.Core []) (hl : s.Live t)
    (hne : (s.thread t).id ≠ s.running) (h : s.threadInterrupt u = some s') :
    Stirred s (.call (.interrupt u)) t s' := by
  obtain ⟨hrun, hz⟩ := hc.waits hl hne
  by_cases hu : t = u
  · subst hu
    by_cases hrun' : (s.thread t).state = .RUNNABLE
    · have hflag : (s.setFlags t fun fl => { fl with interrupt := true }).thread t =
          (s.thread t).flagged := Function.update_self _ _ _
      have hst : ((s.setFlags t fun fl => { fl with interrupt := true }).thread t).state =
          .RUNNABLE := by rw [hflag]; exact hrun'
      unfold threadInterrupt at h
      dsimp only at h
      rw [if_neg hz, hst, if_pos (Or.inr rfl)] at h
      cases h
      exact .of_eq hflag (.flagged rfl hrun') rfl
    · obtain ⟨hth, hdue, -⟩ := threadInterrupt_waiting hrun hrun' hz h
      exact .of_eq hth (.interrupted rfl hrun') hdue
  · unfold threadInterrupt at h
    dsimp only at h
    have hother : (s.setFlags u fun fl => { fl with interrupt := true }).thread t = s.thread t :=
      Function.update_of_ne hu _ _
    split_ifs at h
    · cases h
      exact ⟨.same, rfl⟩
    · cases h
      exact .of_eq hother .same rfl
    · obtain ⟨hth, hdue⟩ := wake_thread (t := t) h
      rw [if_neg hu, hother] at hth
      exact .of_eq hth .same hdue

/-- `st_mutex_unlock`, whoever calls it. -/
theorem mutexUnlock_stirs {m : ℕ} (hc : s.Core []) :
    Stirred s (.call (.mutexUnlock m)) t (s.mutexUnlock m) := by
  by_cases howner : (s.mutex m).owner = s.this_thread
  · rw [mutexUnlock_eq howner]
    cases hu : s.firstLockWait m with
    | none => exact ⟨.same, rfl⟩
    | some u =>
      obtain ⟨-, -, hst, hoff⟩ := firstLockWait_spec hc hu
      by_cases htu : t = u
      · subst htu
        have hfl : { (s.thread t).flags with on_sleepq := false } = (s.thread t).flags := by
          rw [← hoff]
        have heq : ((((({ s with log := s.unlockNote m ++ s.log }.setOwner m (some t)).setState t
            .RUNNABLE).addRunq t).ret (.ok 0)).thread t) = (s.thread t).woken := by
          simp [ret, setPc, addRunq, setState, setThread, setOwner, Thread.woken, hfl]
        exact .of_eq heq (.released m rfl hst) rfl
      · have heq : ((((({ s with log := s.unlockNote m ++ s.log }.setOwner m (some u)).setState u
            .RUNNABLE).addRunq u).ret (.ok 0)).thread t) = s.thread t := Function.update_of_ne htu _ _
        exact .of_eq heq .same rfl
  · unfold mutexUnlock
    rw [if_pos howner]
    exact ⟨.same, rfl⟩

/-- `_st_vp_check_clock`. -/
theorem vpCheckClock_stirs {now : ℕ} (hc : s.Core []) (h : s.vpCheckClock now = some s') :
    Stirred s (.clock now) t s' := by
  obtain ⟨hcases, hdue⟩ := checkClockLoop_thread (t := t) now _ h
  refine ⟨?_, hdue⟩
  obtain ⟨s₁, w, hs₁, -, hw⟩ := vpCheckClock_core hc now
  rw [h, Option.some_inj] at hs₁
  subst hs₁
  by_cases ht : t ∈ w
  · rcases hcases with heq | ⟨hdue', heq⟩
    · -- Whoever is woken has changed.
      obtain ⟨-, hst, hwas⟩ := hw.state t ht
      rw [heq] at hst
      dsimp only at hst hwas
      rw [hst] at hwas
      simp at hwas
    · rw [heq]
      exact .expired now rfl hdue' (hw.state t ht).2.2
  · rw [hw.same t ht]
    exact .same

/-- A dispatch pass. -/
theorem vpIdle_stirs {outcomes : ℕ → SelectOutcome} (hg : s.Good) (hoff : s.OffTurn)
    (hquiet : s.Quiet outcomes) (h : s.vpIdle outcomes = some s') :
    Stirred s (.dispatch outcomes) t s' := by
  obtain ⟨hnot, -⟩ := Ev.dispatch_counted hg.core.ev outcomes
  obtain ⟨hcases, hdue⟩ := wakeAll_thread (t := t) _ h
  refine ⟨?_, hdue⟩
  rcases hcases with heq | ⟨⟨q, hq, hthread⟩, heq⟩
  · rw [heq]
    exact .same
  · rw [heq]
    have hthread : (s.ev.pollq q).thread = t := (hnot.same.thread q).symm.trans hthread
    refine .notified outcomes rfl q hq hthread ?_
    have hio := hnot.mem q hq
    rw [← hthread]
    refine (hg.core.poller (hoff.parked hg.core) hio).resolve_right ?_
    exact hquiet q hio (Ev.dispatch_reported hg.core.ev hq)

/-- `st_cond_signal` and `st_cond_broadcast`. -/
theorem condSignal_stirs {n : ℕ} {broadcast : Bool}
    (hlabel : l = .call (.condSignal n) ∨ l = .call (.condBroadcast n))
    (h : s.condSignal (.user n) broadcast = some s') :
    Stirred s l t s' := by
  obtain ⟨heq | ⟨hmem, hst, heq⟩, hdue⟩ := condSignalLoop_thread (t := t) broadcast _ h
  · exact .of_eq heq .same hdue
  · exact .of_eq heq (.signalled n hlabel hmem hst) hdue

/-- The idle thread is not one of the live threads. -/
theorem Inv.ne_idle (h : s.Inv) (hl : s.Live t) : t ≠ s.idle_thread := by
  rw [h.good.own.idle_thread]
  exact h.good.own.live_ne_zero hl

/-- A call of a thread, or of `main`. -/
theorem call_stirs {c : Call} (h : s.Inv) (hok : s.Allowed c) (hl : s.Live t)
    (hne : (s.thread t).id ≠ s.running) (hcall : s.call c = some s') :
    Stirred s (.call c) t s' := by
  have hg := h.good
  have h0 := h.ne_idle hl
  obtain ⟨-, hz⟩ := hg.core.waits hl hne
  -- `main` waits in nobody's name.
  have hnone : (s.running = 0 → s.this_thread = none) → s.this_thread ≠ some t := by
    intro hmain
    by_cases hrun : s.running = 0
    · rw [hmain hrun]
      exact fun hc => by cases hc
    · exact hg.this_ne hl hne hrun
  cases c with
  | poll pds timeout => exact (poll_spares (hnone hok) h0 hcall).stirred
  | usleep usecs =>
    refine (usleep_spares ?_ h0 hcall).stirred
    by_cases hrun : s.running = 0
    · exact fun hthis => hz ((hok hrun).some hthis)
    · exact hg.this_ne hl hne hrun
  | condTimedwait n timeout => exact (condTimedwait_spares (hnone hok) h0 hcall).stirred
  | condSignal n =>
    obtain ⟨s₁, hs₁, rfl⟩ := Option.map_eq_some_iff.mp hcall
    exact (condSignal_stirs (Or.inl rfl) hs₁).setPc _
  | condBroadcast n =>
    obtain ⟨s₁, hs₁, rfl⟩ := Option.map_eq_some_iff.mp hcall
    exact (condSignal_stirs (Or.inr rfl) hs₁).setPc _
  | mutexLock m => exact (mutexLock_spares (hnone hok) h0 hcall).stirred
  | mutexTrylock m =>
    cases hcall
    exact mutexTrylock_spares.stirred
  | mutexUnlock m =>
    cases hcall
    exact mutexUnlock_stirs hg.core
  | interrupt u =>
    simp only [call] at hcall
    split_ifs at hcall with hu
    obtain ⟨s₁, hs₁, rfl⟩ := Option.map_eq_some_iff.mp hcall
    exact (threadInterrupt_stirs hg.core hl hne hs₁).setPc _
  | create joinable stk_size ok =>
    obtain ⟨r, hs'⟩ := call_create_eq hcall
    rcases threadCreate_makes hg.own h.fresh joinable stk_size hok with heq | ⟨u, th, started, hm, -⟩
    · rw [hs', heq]
      exact ⟨.same, rfl⟩
    · -- The record that is overwritten is not that of a live thread.
      have hu : t ≠ u := by
        rintro rfl
        exact hm.not_live hl
      rw [hs']
      refine .of_eq (hm.thread_of_ne hu) .same ?_
      change ((s.threadCreate _ _ _ _).1.heap.node t).due = _
      rw [hm.heap, Heap.setNode_node_of_ne _ _ hu]
  | join u =>
    simp only [call] at hcall
    split_ifs at hcall with hu
    exact (threadJoin_spares (hnone hok) h0 hz hcall).stirred
  | exit retval =>
    have hnone : s.this_thread = none := hok
    simp only [call, threadExit, hnone, Option.some_inj] at hcall
    rw [← hcall]
    exact exitReturn_spares.stirred
  | idleRun =>
    simp only [call] at hcall
    split_ifs at hcall
    cases hcall
    exact ⟨.same, rfl⟩

section fibers

variable (h : s.Inv) (hok : s.Ok l) (hl : s.Live t) (hne : (s.thread t).id ≠ s.running)
  (hstep : s.step l = some s')

include h hok hl hne hstep

/-- A step of `main`, in the program or in the loop of `st_idle_thread_run`. -/
theorem main_stirs (hmain : s.running = 0) : Stirred s l t s' := by
  have hg := h.good
  have hoff := hg.main_offTurn hmain
  rcases hg.own.main_pc with ⟨r, hpc⟩ | ⟨stage, hpc⟩
  · rw [← hmain] at hpc
    cases step_goes hpc hstep with
    | call c hgo => exact call_stirs h hok hl hne hgo
    | ret v thread _ => exact absurd hmain thread
  · rw [← hmain] at hpc
    cases step_goes hpc hstep with
    | nativeDispatch outcomes _ s₁ hgo eq =>
      rw [eq]
      exact (vpIdle_stirs hg hoff hok hgo).setPc _
    | nativeClock now s₁ hgo eq =>
      rw [eq]
      exact (vpCheckClock_stirs hg.core hgo).setPc _
    | nativeEnd _ eq =>
      rw [eq]
      exact ⟨.same, rfl⟩
    | nativeSched eq =>
      rw [eq]
      have hspares : Spares t s (s.setPc (.native .dispatch)).vpSchedule :=
        Spares.of_same (vpSchedule_spares _ (h.ne_idle hl)) rfl rfl
      exact hspares.stirred

omit hne in
/-- A step of the idle thread. -/
theorem idle_stirs (hidle : s.running = 1) : Stirred s l t s' := by
  have hg := h.good
  have hoff : s.OffTurn := .of_lt hg.own (by omega)
  obtain ⟨stage, hpc⟩ := hg.own.idle_pc
  rw [← hidle] at hpc
  cases step_goes hpc hstep with
  | idleDispatch outcomes _ s₁ hgo eq =>
    rw [eq]
    exact (vpIdle_stirs hg hoff hok hgo).setPc _
  | idleClock now s₁ hgo eq =>
    rw [eq]
    exact (vpCheckClock_stirs hg.core hgo).setPc _
  | idleEnd ended _ => exact absurd ended (not_le.mpr (hok hidle))
  | idleSched hgo => exact (idleSched_spares (h.ne_idle hl) (hok hidle) hgo).stirred

/-- A step of another thread: it calls, returns from its start function, or goes on behind a switch. -/
theorem thread_stirs {u : ℕ} (hr : s.Runs u) : Stirred s l t s' := by
  have hg := h.good
  have h0 := h.ne_idle hl
  obtain ⟨-, hz⟩ := hg.core.waits hl hne
  have hut : t ≠ u := by
    rintro rfl
    exact hne hr.running.symm
  -- The thread that runs is the current one, and `t` is not.
  have hthis' : s.this_thread ≠ some t := by
    rw [hr.this]
    exact fun hc => hut (Option.some_inj.mp hc).symm
  have hfits := (hg.core.recs u).pc hr.live
  have hpc := hr.pc_eq
  -- By the place of the thread `u` that runs.
  cases hp : s.pcOf u with
  | user r =>
    rw [hp] at hpc
    cases step_goes hpc hstep with
    | call c hgo => exact call_stirs h hok hl hne hgo
    | ret v _ hgo =>
      -- A joined thread may not return, so its record is not given to anybody else here.
      have hfree : s.This s.Unjoined := hok
      obtain ⟨hg₁, hr₁⟩ := hr.note_good hg (.returned s.running v)
      obtain ⟨s₁, hs₁, hex⟩ := threadExit_exits hg₁ hr₁ (hfree.some hr.this)
        (s.thread (s.fiber s.running).thd).retval
      obtain rfl : s' = s₁ := Option.some_inj.mp (hgo.symm.trans hs₁)
      exact .of_eq (hex.thread_of_ne hut) .same (congrArg (fun h : Heap => (h.node t).due) hex.heap)
  | poll me q =>
    rw [hp] at hpc hfits
    obtain ⟨hme, -⟩ := hfits
    cases step_goes hpc hstep with
    | poll hgo => exact (pollEnd_spares (hme ▸ hut) hgo).stirred
  | condWait me c =>
    rw [hp] at hpc hfits
    have hme : me = u := hfits
    cases step_goes hpc hstep with
    | condWait hgo =>
      rw [hgo]
      exact .of_eq (condUnblock_of_ne (hme ▸ hut) c) .same rfl
  | lock me m =>
    rw [hp] at hpc hfits
    have hme : me = u := hfits
    cases step_goes hpc hstep with
    | lock hgo =>
      rw [hgo]
      exact (mutexLockEnd_spares (hme ▸ hut)).stirred
  | join me c v =>
    rw [hp] at hpc hfits
    obtain ⟨hme, -⟩ := hfits
    cases step_goes hpc hstep with
    | join hgo => exact (joinEnd_spares (hme ▸ hut) hthis' h0 hz hgo).stirred
  | _ =>
    rw [hp] at hfits
    exact hfits.elim

end fibers

/-- A step that another fiber takes, and a live thread that does not take it. -/
theorem step_stirs (h : s.Inv) (hok : s.Ok l) (hl : s.Live t) (hne : (s.thread t).id ≠ s.running)
    (hstep : s.step l = some s') :
    Stirred s l t s' := by
  rcases h.good.turn with hmain | ⟨hidle, -⟩ | ⟨u, hlu, hrun, hst, hthis⟩ | ⟨u, -, -, hpc, -, -⟩ |
    ⟨u, hleave, -⟩
  · exact main_stirs h hok hl hne hstep hmain
  · exact idle_stirs h hok hl hstep hidle
  · exact thread_stirs h hok hl hne hstep ⟨hlu, hrun, hst, hthis⟩
  · -- A thread that has swapped out for the last time.
    cases step_goes hpc hstep with
    | exitEnd hgo =>
      rw [hgo]
      exact exitReturn_spares.stirred
  · cases step_goes hleave.pc hstep with
    | exitTerm hgo =>
      obtain ⟨s₁, hs₁, hfrees⟩ := exitTermEnd_frees hleave
      obtain rfl : s' = s₁ := Option.some_inj.mp (hgo.symm.trans hs₁)
      have hut : t ≠ u := by
        rintro rfl
        exact hleave.not_live hl
      exact (Spares.of_eq (hfrees.thread_of_ne hut) hfrees.heap).stirred

/-- The place where another thread continues. -/
theorem pcOf_setPc_of_ne (s : St) (pc : Pc) (hne : (s.thread t).id ≠ s.running) :
    (s.setPc pc).pcOf t = s.pcOf t := by
  unfold pcOf setPc
  dsimp only
  rw [Function.update_of_ne hne]

/-- A live thread that does not take the step lives on, and continues where it would have. -/
theorem Change.other (h : Change s l s') (hg : s.Good) (hl : s.Live t)
    (hne : (s.thread t).id ≠ s.running) : s'.Live t ∧ s'.pcOf t = s.pcOf t := by
  cases h with
  | fine fine =>
    refine ⟨(fine.lives.live t).mpr hl, ?_⟩
    unfold pcOf
    rw [fine.lives.id, fine.lives.pc _ hne]
  | creates _ _ _ _ s₁ u th started makes _ r eq =>
    obtain ⟨hl₁, hth, hpc⟩ := makes.of_live hg.own hl
    rw [eq]
    refine ⟨((setPc_sameLives s₁ (.user r)).live t).mpr hl₁, ?_⟩
    refine (pcOf_setPc_of_ne s₁ (.user r) ?_).trans hpc
    rw [hth, makes.running]
    exact hne
  | exits u v retval joinable runs label exits =>
    have hut : t ≠ u := by
      rintro rfl
      exact hne runs.running.symm
    obtain ⟨-, hr₁⟩ := runs.note_good hg (.returned s.running v)
    exact ⟨(exits.live_of_ne hr₁ hut).mpr hl, exits.pcOf_of_ne hr₁ hut hl⟩
  | frees u leaving frees => exact ⟨(frees.live leaving t).mpr hl, frees.pcOf leaving hl⟩
  | nothing main _ _ f r eq =>
    have h2 := (hg.own.thread _ hl.1).1
    rw [eq]
    refine ⟨((setPc_sameLives _ (.user r)).live t).mpr ⟨hl.1, ?_, hl.2.2⟩, ?_⟩
    · have hlife : (s.setLife 0 f).life (s.thread t).id = s.life (s.thread t).id :=
        Function.update_of_ne (by omega) _ _
      change ((s.setLife 0 f).life (s.thread t).id).exits = 0
      rw [hlife]
      exact hl.2.1
    · exact pcOf_setPc_of_ne (s.setLife 0 f) (.user r) hne

/-- A live thread that takes no part in a step. -/
structure Other (s : St) (l : Label) (t : ℕ) (s' : St) : Prop extends Stirred s l t s' where
  live : s'.Live t
  pc : s'.pcOf t = s.pcOf t

/-- A live thread takes no part in a step of another fiber. -/
theorem step_other (h : s.Inv) (hok : s.Ok l) (hl : s.Live t) (hne : (s.thread t).id ≠ s.running)
    (hstep : s.step l = some s') : Other s l t s' := by
  obtain ⟨hlive, hpc⟩ := (h.change hok hstep).other h.good hl hne
  exact ⟨step_stirs h hok hl hne hstep, hlive, hpc⟩

end steps

end St

end StWin
