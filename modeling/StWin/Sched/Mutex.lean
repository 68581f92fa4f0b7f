import StWin.Sched.Final
import StWin.Lib.Arrival

/-!
# Mutual exclusion

What holds of one mutex `m` in each run whose steps are `Ok`, in which calls on mutexes come from
threads, and in which no thread terminates as the owner of `m`.

The ownership is handed over in `st_mutex_unlock`, while the new owner is still in `st_mutex_lock`, so
a thread holds the mutex when it is the owner and not in `st_mutex_lock`. A thread in `st_mutex_lock`
that is not in `LOCK_WAIT` any more was interrupted, or is the owner: both may be the case. And the
wait queue is in order of arrival: who leaves it early leaves the order of the others as it is.

The steps that have nothing to do with `m`, those on other mutexes included, are `Apart` from it.
-/

namespace StWin

/-- The event is one of the mutex `m`. -/
def Note.on (m : ℕ) : Note → Bool
  | .lockWait m' _ => decide (m' = m)
  | .locked m' _ => decide (m' = m)
  | .unlocked m' _ => decide (m' = m)
  | _ => false

/-- A note that is not about mutexes is about no particular one. -/
theorem Note.on_of_isMutex {n : Note} (h : n.isMutex = false) (m : ℕ) : n.on m = false := by
  cases n <;> simp_all [Note.isMutex, Note.on]

namespace St

/-- A step that is not one of the mutex `m`. -/
structure Apart (m : ℕ) (s s' : St) : Prop where
  mutex : s'.mutex m = s.mutex m
  log : ∃ l, s'.log = l ++ s.log ∧ ∀ n ∈ l, n.on m = false
  waiter : ∀ t, s.Live t → s.pcOf t = .lock t m → s'.Live t ∧ s'.pcOf t = .lock t m ∧
    ((s'.thread t).state = .LOCK_WAIT → (s.thread t).state = .LOCK_WAIT) ∧
    ((s'.thread t).state ≠ .LOCK_WAIT →
      (s.thread t).state ≠ .LOCK_WAIT ∨ (s'.thread t).flags.interrupt = true) ∧
    ((s.thread t).flags.interrupt = true → (s'.thread t).flags.interrupt = true)
  back : ∀ t, s'.Live t → s'.pcOf t = .lock t m → s.Live t ∧ s.pcOf t = .lock t m
  owner : ∀ t, (s.mutex m).owner = some t → s.Live t → s'.Live t

/-- A step that leaves all mutexes alone leaves `m` alone. -/
theorem LockFrame.apart {s s' : St} (h : LockFrame s s') {m : ℕ}
    (howner : ∀ t, (s.mutex m).owner = some t → s.Live t → s'.Live t) : Apart m s s' := by
  refine ⟨by rw [h.mutex], ?_, fun t => h.waiter t m, fun t => h.back t m, howner⟩
  obtain ⟨l, hl, hn⟩ := h.log
  exact ⟨l, hl, fun n hmem => Note.on_of_isMutex (hn n hmem) m⟩

/-- A step of `t` on another mutex. -/
theorem Locks.apart {s s' : St} {m m' t : ℕ} {mx : Mutex} {l : List Note} (h : Locks s s' m' t mx l)
    (hne : m' ≠ m) (hpc : s.pcOf t ≠ .lock t m) (hpc' : s'.pcOf t ≠ .lock t m)
    (hl : ∀ n ∈ l, n.on m = false) : Apart m s s' := by
  refine ⟨?_, ⟨l, h.log, hl⟩, fun u hlive hu => ?_, fun u hlive hu => ?_,
    fun u _ => (h.live u).mpr⟩
  · rw [h.mutex, Function.update_of_ne (Ne.symm hne)]
  · have hut : u ≠ t := by
      rintro rfl
      exact hpc hu
    obtain ⟨hpcu, hin, hout, hint⟩ := h.waiter u m hut hlive hu
    refine ⟨(h.live u).mpr hlive, hpcu, hin, fun hst => ?_, hint⟩
    rcases hout hst with hst | hi | ⟨hm, -⟩
    · exact Or.inl hst
    · exact Or.inr hi
    · exact absurd hm.symm hne
  · have hut : u ≠ t := by
      rintro rfl
      exact hpc' hu
    exact ⟨(h.live u).mp hlive, h.back u m hut hlive hu⟩

/-! ## The invariant of one mutex -/

/-- `t` has locked `m` and has not unlocked it yet. -/
def Holding (s : St) (m t : ℕ) : Prop :=
  s.log.count (.unlocked m t) < s.log.count (.locked m t)

/-- `t` is the owner of `m`, and not in `st_mutex_lock`. -/
def Owns (s : St) (m t : ℕ) : Prop := (s.mutex m).owner = some t ∧ s.pcOf t ≠ .lock t m

instance (s : St) (m t : ℕ) : Decidable (s.Owns m t) := inferInstanceAs (Decidable (_ ∧ _))

/-- The mutex, its wait queue, and the notes about it agree. -/
structure MutexInv (m : ℕ) (s : St) : Prop where
  inv : s.Inv
  owner : ∀ t, (s.mutex m).owner = some t → s.Live t
  count : ∀ t, s.log.count (.locked m t) =
    s.log.count (.unlocked m t) + if s.Owns m t then 1 else 0
  /-- A thread that was made runnable is the owner, or was interrupted. -/
  woken : ∀ t, s.Live t → s.pcOf t = .lock t m → (s.thread t).state ≠ .LOCK_WAIT →
    (s.mutex m).owner = some t ∨ (s.thread t).flags.interrupt = true
  free : (s.mutex m).owner = none → ∀ t ∈ (s.mutex m).wait_q, (s.thread t).state ≠ .LOCK_WAIT
  queue : Arrival.InOrder (Note.lockWait m) s.log (s.mutex m).wait_q

/-- A thread on the wait queue is in `st_mutex_lock`. -/
theorem Core.waiter {p : List ℕ} {s : St} (hc : s.Core p) {m t : ℕ} (ht : t ∈ (s.mutex m).wait_q) :
    s.Live t ∧ s.pcOf t = .lock t m := by
  obtain ⟨hl, hw⟩ := ((hc.recs t).wait_q m).mp ht
  exact ⟨hl, hc.lock_pc hl hw⟩

/-- By the notes a thread holds the mutex exactly when it is the owner. -/
theorem MutexInv.holding_iff {m : ℕ} {s : St} (h : s.MutexInv m) (t : ℕ) :
    s.Holding m t ↔ s.Owns m t := by
  unfold Holding
  rw [h.count t]
  split_ifs with howns
  · simp [howns]
  · simp [howns]

section step

variable {m : ℕ} {s s' : St} (h : s.MutexInv m)
include h

/-- A step that is not one of `m`. -/
theorem MutexInv.apart (hinv : s'.Inv) (ha : Apart m s s') : s'.MutexInv m := by
  obtain ⟨l, hlog, hl⟩ := ha.log
  -- The log has no new events of `m`.
  have hcount : ∀ n : Note, n.on m = true → s'.log.count n = s.log.count n := by
    intro n hn
    rw [hlog, List.count_append, List.count_eq_zero.mpr, zero_add]
    intro hmem
    rw [hl n hmem] at hn
    cases hn
  have howns : ∀ t, s'.Owns m t ↔ s.Owns m t := by
    intro t
    unfold Owns
    rw [ha.mutex]
    refine and_congr_right fun ho => not_congr ⟨fun hpc => ?_, fun hpc => ?_⟩
    · exact (ha.back t (ha.owner t ho (h.owner t ho)) hpc).2
    · exact (ha.waiter t (h.owner t ho) hpc).2.1
  refine ⟨hinv, fun t ho => ?_, fun t => ?_, fun t hlive hpc hst => ?_, fun hnone t ht hst => ?_, ?_⟩
  · rw [ha.mutex] at ho
    exact ha.owner t ho (h.owner t ho)
  · rw [hcount _ (by simp [Note.on]), hcount _ (by simp [Note.on]), h.count t]
    simp only [howns]
  · obtain ⟨hlive₀, hpc₀⟩ := ha.back t hlive hpc
    obtain ⟨-, -, -, hout, hint⟩ := ha.waiter t hlive₀ hpc₀
    rw [ha.mutex]
    rcases hout hst with hst₀ | hi
    · exact (h.woken t hlive₀ hpc₀ hst₀).imp_right hint
    · exact Or.inr hi
  · rw [ha.mutex] at hnone ht
    obtain ⟨hlive, hpc⟩ := h.inv.good.core.waiter ht
    exact h.free hnone t ht ((ha.waiter t hlive hpc).2.2.1 hst)
  · rw [ha.mutex, hlog]
    refine h.queue.append fun t _ hmem => ?_
    have := hl _ hmem
    simp [Note.on] at this

/-- A step of the running thread `t` on `m`. What is left to show is about `t`, and about whom the
ownership is handed to. -/
theorem MutexInv.locks {t : ℕ} {mx : Mutex} {l : List Note} (hinv : s'.Inv)
    (hk : Locks s s' m t mx l) (hl : ∀ n ∈ l, n = .lockWait m t ∨ n = .locked m t ∨ n = .unlocked m t)
    (hlive : s.Live t) (hkeep : ∀ u, u ≠ t → (s.mutex m).owner = some u → mx.owner = some u)
    (hnew : ∀ u, u ≠ t → mx.owner = some u → (s.mutex m).owner = some u ∨
      (s.Live u ∧ s.pcOf u = .lock u m))
    (hself : s'.pcOf t = .lock t m → (s'.thread t).state ≠ .LOCK_WAIT →
      mx.owner = some t ∨ (s'.thread t).flags.interrupt = true)
    (hcount : s'.log.count (.locked m t) =
      s'.log.count (.unlocked m t) + if s'.Owns m t then 1 else 0)
    (hfree : mx.owner = none → ∀ u ∈ mx.wait_q, (s'.thread u).state ≠ .LOCK_WAIT)
    (hqueue : Arrival.InOrder (Note.lockWait m) s'.log mx.wait_q) : s'.MutexInv m := by
  have hmx : s'.mutex m = mx := by rw [hk.mutex, Function.update_self]
  -- The events are not those of another thread.
  have hsame : ∀ u, u ≠ t → s'.log.count (.locked m u) = s.log.count (.locked m u) ∧
      s'.log.count (.unlocked m u) = s.log.count (.unlocked m u) := by
    intro u hu
    rw [hk.log, List.count_append, List.count_append]
    have h1 : l.count (.locked m u) = 0 := by
      refine List.count_eq_zero.mpr fun hmem => ?_
      rcases hl _ hmem with heq | heq | heq <;> cases heq
      exact hu rfl
    have h2 : l.count (.unlocked m u) = 0 := by
      refine List.count_eq_zero.mpr fun hmem => ?_
      rcases hl _ hmem with heq | heq | heq <;> cases heq
      exact hu rfl
    rw [h1, h2, zero_add, zero_add]
    exact ⟨rfl, rfl⟩
  have howns : ∀ u, u ≠ t → (s'.Owns m u ↔ s.Owns m u) := by
    intro u hu
    unfold Owns
    rw [hmx]
    constructor
    · rintro ⟨ho, hpc⟩
      rcases hnew u hu ho with ho₀ | ⟨hlive₀, hpc₀⟩
      · exact ⟨ho₀, fun hpc₀ => hpc (hk.waiter u m hu (h.owner u ho₀) hpc₀).1⟩
      · exact absurd (hk.waiter u m hu hlive₀ hpc₀).1 hpc
    · rintro ⟨ho, hpc⟩
      have hlive₀ := (hk.live u).mpr (h.owner u ho)
      exact ⟨hkeep u hu ho, fun hpc' => hpc (hk.back u m hu hlive₀ hpc')⟩
  refine ⟨hinv, fun u ho => ?_, fun u => ?_, fun u hl' hpc hst => ?_, by rw [hmx]; exact hfree,
    by rw [hmx]; exact hqueue⟩
  · rw [hmx] at ho
    rw [hk.live]
    by_cases hu : u = t
    · rw [hu]
      exact hlive
    · exact (hnew u hu ho).elim (h.owner u) And.left
  · by_cases hu : u = t
    · rw [hu]
      exact hcount
    · obtain ⟨h1, h2⟩ := hsame u hu
      rw [h1, h2, h.count u]
      simp only [howns u hu]
  · rw [hmx]
    by_cases hu : u = t
    · rw [hu] at hpc hst ⊢
      exact hself hpc hst
    · have hl₀ := (hk.live u).mp hl'
      have hpc₀ := hk.back u m hu hl' hpc
      obtain ⟨-, -, hout, hint⟩ := hk.waiter u m hu hl₀ hpc₀
      rcases hout hst with hst₀ | hi | ⟨-, ho⟩
      · exact (h.woken u hl₀ hpc₀ hst₀).imp (hkeep u hu) hint
      · exact Or.inr hi
      · exact Or.inl ho

/-- A thread gets a mutex that is free. -/
theorem MutexInv.acquires {t : ℕ} (hinv : s'.Inv) (hlive : s.Live t)
    (hfree : (s.mutex m).owner = none) {r : Res} (hpc' : s'.pcOf t = .user r)
    (hk : Locks s s' m t ⟨some t, (s.mutex m).wait_q⟩ [.locked m t]) : s'.MutexInv m := by
  refine h.locks hinv hk (by simp) hlive (fun u _ ho => ?_) (fun u hu ho => ?_) (fun hpc => ?_) ?_
    (fun ho => by cases ho) ?_
  · rw [hfree] at ho
    cases ho
  · exact absurd (Option.some_inj.mp ho).symm hu
  · rw [hpc'] at hpc
    cases hpc
  · have hbefore : ¬s.Owns m t := by
      rintro ⟨ho, -⟩
      rw [hfree] at ho
      cases ho
    have hafter : s'.Owns m t := by
      refine ⟨by rw [hk.mutex, Function.update_self], ?_⟩
      rw [hpc']
      exact fun hc => by cases hc
    have hcount := h.count t
    rw [if_neg hbefore] at hcount
    rw [if_pos hafter, hk.log]
    simp [hcount]
  · rw [hk.log]
    exact h.queue.append (by simp)

/-- A thread begins to wait. -/
theorem MutexInv.waits {t owner : ℕ} (hinv : s'.Inv) (hlive : s.Live t)
    (howner : (s.mutex m).owner = some owner) (hne : owner ≠ t) {r : Res} (hpc : s.pcOf t = .user r)
    (hwoken : (s'.thread t).state ≠ .LOCK_WAIT → (s'.thread t).flags.interrupt = true)
    (hk : Locks s s' m t ⟨some owner, (s.mutex m).wait_q ++ [t]⟩ [.lockWait m t]) :
    s'.MutexInv m := by
  refine h.locks hinv hk (by simp) hlive (fun u _ ho => ?_) (fun u _ ho => ?_)
    (fun _ hst => Or.inr (hwoken hst)) ?_ (fun ho => by cases ho) ?_
  · rw [← howner, ho]
  · rw [howner]
    exact Or.inl ho
  · have hbefore : ¬s.Owns m t := by
      rintro ⟨ho, -⟩
      rw [howner, Option.some_inj] at ho
      exact hne ho
    have hafter : ¬s'.Owns m t := by
      rintro ⟨ho, -⟩
      rw [hk.mutex, Function.update_self, Option.some_inj] at ho
      exact hne ho
    have hcount := h.count t
    rw [if_neg hbefore] at hcount
    rw [if_neg hafter, hk.log]
    simp [hcount]
  · rw [hk.log]
    refine h.queue.arrive fun u hu heq => ?_
    obtain ⟨-, hpcu⟩ := h.inv.good.core.waiter hu
    cases heq
    rw [hpc] at hpcu
    cases hpcu

/-- A thread that waited leaves the wait queue: it has the mutex, or was interrupted. -/
theorem MutexInv.leaves {t : ℕ} {l : List Note} (hinv : s'.Inv) (hlive : s.Live t)
    (hpc : s.pcOf t = .lock t m) {r : Res} (hpc' : s'.pcOf t = .user r)
    (hk : Locks s s' m t ⟨(s.mutex m).owner, (s.mutex m).wait_q.erase t⟩ l)
    (hl : ((s.mutex m).owner = some t ∧ l = [.locked m t]) ∨ ((s.mutex m).owner ≠ some t ∧ l = [])) :
    s'.MutexInv m := by
  have hnotes : ∀ n ∈ l, n = .lockWait m t ∨ n = .locked m t ∨ n = .unlocked m t := by
    rcases hl with ⟨-, rfl⟩ | ⟨-, rfl⟩ <;> simp
  refine h.locks hinv hk hnotes hlive (fun u _ ho => ho) (fun u _ ho => Or.inl ho) (fun hc => ?_) ?_
    (fun ho u hu hst => ?_) ?_
  · rw [hpc'] at hc
    cases hc
  · have hbefore : ¬s.Owns m t := fun ho => ho.2 hpc
    have hcount := h.count t
    rw [if_neg hbefore] at hcount
    have howns : s'.Owns m t ↔ (s.mutex m).owner = some t := by
      unfold Owns
      rw [hk.mutex, Function.update_self, hpc']
      exact and_iff_left fun hc => by cases hc
    rw [hk.log]
    rcases hl with ⟨ho, rfl⟩ | ⟨ho, rfl⟩
    · rw [if_pos (howns.mpr ho)]
      simp [hcount]
    · rw [if_neg fun hc => ho (howns.mp hc)]
      simp [hcount]
  · have hut : u ≠ t := by
      rintro rfl
      exact (h.inv.good.core.wait_nodup m).not_mem_erase hu
    have hmem := List.mem_of_mem_erase hu
    obtain ⟨hliveu, hpcu⟩ := h.inv.good.core.waiter hmem
    exact h.free ho u hmem ((hk.waiter u m hut hliveu hpcu).2.1 hst)
  · rw [hk.log]
    refine (h.queue.sublist List.erase_sublist).append fun u _ hmem => ?_
    rcases hl with ⟨-, rfl⟩ | ⟨-, rfl⟩
    · simp at hmem
    · cases hmem

/-- The owner unlocks the mutex. -/
theorem MutexInv.unlocks {t : ℕ} (hinv : s'.Inv) (hr : s.Runs t)
    (howner : (s.mutex m).owner = some t) {r r' : Res} (hpc : s.pcOf t = .user r)
    (hpc' : s'.pcOf t = .user r')
    (hk : Locks s s' m t ⟨s.firstLockWait m, (s.mutex m).wait_q⟩ [.unlocked m t]) :
    s'.MutexInv m := by
  -- The first waiter is not the owner, which runs.
  have hfirst : s.firstLockWait m ≠ some t := by
    intro hc
    have hst := (firstLockWait_spec h.inv.good.core hc).2.2.1
    rw [hr.state] at hst
    cases hst
  refine h.locks hinv hk (by simp) hr.live (fun u hu ho => ?_) (fun u _ ho => ?_) (fun hc => ?_) ?_
    (fun ho u hu hst => ?_) ?_
  · rw [howner, Option.some_inj] at ho
    exact absurd ho.symm hu
  · exact Or.inr (h.inv.good.core.waiter (firstLockWait_spec h.inv.good.core ho).1)
  · rw [hpc'] at hc
    cases hc
  · -- The note on the release closes the hold.
    have hbefore : s.Owns m t := by
      refine ⟨howner, ?_⟩
      rw [hpc]
      exact fun hc => by cases hc
    have hafter : ¬s'.Owns m t := by
      rintro ⟨ho, -⟩
      rw [hk.mutex, Function.update_self] at ho
      exact hfirst ho
    have hcount := h.count t
    rw [if_pos hbefore] at hcount
    rw [if_neg hafter, hk.log]
    simp [hcount]
  · -- If nobody gets the mutex, then nobody was found waiting.
    have hut : u ≠ t := by
      rintro rfl
      obtain ⟨-, hpcu⟩ := h.inv.good.core.waiter hu
      rw [hpc] at hpcu
      cases hpcu
    obtain ⟨hliveu, hpcu⟩ := h.inv.good.core.waiter hu
    have hst₀ := (hk.waiter u m hut hliveu hpcu).2.1 hst
    have := List.find?_eq_none.mp ho u hu
    simp [hst₀] at this
  · rw [hk.log]
    exact h.queue.append (by simp)

end step

/-! ## Steps -/

/-- The step is a call on a mutex. -/
def Label.onMutex : Label → Bool
  | .call (.mutexLock _) => true
  | .call (.mutexTrylock _) => true
  | .call (.mutexUnlock _) => true
  | _ => false

/-- A start function returns. -/
def Label.returns : Label → Bool
  | .ret _ => true
  | _ => false

/-- The step is `Ok`, a call on a mutex comes from a thread, and no thread terminates as the owner of
`m`. -/
structure FromThreads (m : ℕ) (s : St) (l : Label) : Prop where
  ok : s.Ok l
  thread : l.onMutex = true → s.running ≠ 0
  owner : l.returns = true → s.This fun t => (s.mutex m).owner ≠ some t

instance (m : ℕ) (s : St) (l : Label) : Decidable (s.FromThreads m l) :=
  decidable_of_iff (s.Ok l ∧ (l.onMutex = true → s.running ≠ 0) ∧
      (l.returns = true → s.This fun t => (s.mutex m).owner ≠ some t))
    ⟨fun h => ⟨h.1, h.2.1, h.2.2⟩, fun h => ⟨h.ok, h.thread, h.owner⟩⟩

/-- A thread that makes a call is in the program's code. -/
theorem Runs.call_user {s s' : St} {c : Call} {t : ℕ} (hr : s.Runs t)
    (h : s.step (.call c) = some s') : ∃ r, s.pcOf t = .user r := by
  obtain ⟨r, hpc, -⟩ := step_call_user h
  exact ⟨r, hr.pc_eq.symm.trans hpc⟩

/-- A thread that is past the wait in `st_mutex_lock` and was not interrupted is the owner. -/
theorem MutexInv.owner_of_resumed {m : ℕ} {s : St} (h : s.MutexInv m) {t : ℕ} (hr : s.Runs t)
    (hpc : s.pcOf t = .lock t m)
    (hwhy : (s.thread t).flags.interrupt = true → (s.mutex m).owner = some t) :
    (s.mutex m).owner = some t := by
  have hst : (s.thread t).state ≠ .LOCK_WAIT := by
    rw [hr.state]
    decide
  exact (h.woken t hr.live hpc hst).elim (fun ho => ho) hwhy

/-- A thread in code of the program is not past a wait in `st_mutex_lock`. -/
theorem ne_lock_of_user {s : St} {t : ℕ} {r : Res} (hpc : s.pcOf t = .user r) (m : ℕ) :
    s.pcOf t ≠ .lock t m := by
  rw [hpc]
  intro hc
  cases hc

/-- A thread waits in `st_mutex_lock` for one mutex. -/
theorem ne_lock_of_lock {s : St} {t m m' : ℕ} (hpc : s.pcOf t = .lock t m') (hm : m' ≠ m) :
    s.pcOf t ≠ .lock t m := by
  rw [hpc]
  intro hc
  cases hc
  exact hm rfl

/-- One step keeps the invariant of the mutex. -/
theorem step_mutex {m : ℕ} {s s' : St} {l : Label} (h : s.MutexInv m) (hl : s.FromThreads m l)
    (hstep : s.step l = some s') : s'.MutexInv m := by
  have hok := hl.ok
  have hinv := step_inv h.inv hok hstep
  have hg := h.inv.good
  -- A step that uses no mutex, or another one, keeps the invariant by `apart`.
  have hapart (frame : LockFrame s s') (fine : Fine s s') : s'.MutexInv m :=
    h.apart hinv (frame.apart fun t _ => (fine.lives.live t).mpr)
  cases h.inv.outcome hok hstep with
  | same fine lock => exact hapart lock fine
  | lock m' t runs label fine outcome =>
    subst label
    obtain ⟨r, hpc⟩ := runs.call_user hstep
    by_cases hm : m' = m
    · subst hm
      cases outcome with
      | fails frame e _ _ => exact hapart frame fine
      | acquires free pc locks => exact h.acquires hinv runs.live free pc locks
      | waits owner held ne pc woken locks =>
        exact h.waits hinv runs.live held ne hpc woken locks
    · cases outcome with
      | fails frame e _ _ => exact hapart frame fine
      | acquires free pc locks =>
        exact h.apart hinv (locks.apart hm (ne_lock_of_user hpc m) (ne_lock_of_user pc m)
          (by simp [Note.on, hm]))
      | waits owner held ne pc woken locks =>
        exact h.apart hinv (locks.apart hm (ne_lock_of_user hpc m) (ne_lock_of_lock pc hm)
          (by simp [Note.on, hm]))
  | lockEnd m' t runs pc fine outcome =>
    by_cases hm : m' = m
    · subst hm
      cases outcome with
      | interrupted flag owner pc' locks =>
        exact h.leaves hinv runs.live pc pc' locks (Or.inr ⟨owner, rfl⟩)
      | acquires why pc' locks =>
        exact h.leaves hinv runs.live pc pc' locks (Or.inl ⟨h.owner_of_resumed runs pc why, rfl⟩)
    · have hpc := ne_lock_of_lock pc hm
      cases outcome with
      | interrupted flag owner pc' locks =>
        exact h.apart hinv (locks.apart hm hpc (ne_lock_of_user pc' m) (by simp))
      | acquires why pc' locks =>
        exact h.apart hinv (locks.apart hm hpc (ne_lock_of_user pc' m) (by simp [Note.on, hm]))
  | trylock m' t runs label fine outcome =>
    subst label
    obtain ⟨r, hpc⟩ := runs.call_user hstep
    cases outcome with
    | busy frame held _ => exact hapart frame fine
    | acquires free pc locks =>
      by_cases hm : m' = m
      · subst hm
        exact h.acquires hinv runs.live free pc locks
      · exact h.apart hinv (locks.apart hm (ne_lock_of_user hpc m) (ne_lock_of_user pc m)
          (by simp [Note.on, hm]))
  | unlock m' t runs label fine pc outcome =>
    subst label
    obtain ⟨r, hpc⟩ := runs.call_user hstep
    obtain ⟨r', hpc'⟩ := pc
    rcases outcome with ⟨-, frame⟩ | ⟨owner, locks⟩
    · exact hapart frame fine
    · by_cases hm : m' = m
      · subst hm
        exact h.unlocks hinv runs owner hpc hpc' locks
      · exact h.apart hinv (locks.apart hm (ne_lock_of_user hpc m) (ne_lock_of_user hpc' m)
          (by simp [Note.on, hm]))
  | mainLock main m' label fine =>
    -- `FromThreads` has no call of `main` on the mutex.
    rcases label with rfl | rfl
    · exact absurd main (hl.thread rfl)
    · exact absurd main (hl.thread rfl)
  | creates _ _ _ _ s₁ t th started makes _ r eq good lock =>
    refine h.apart hinv (lock.apart fun u _ hlive => ?_)
    rw [eq]
    exact ((setPc_sameLives s₁ (.user r)).live u).mpr (makes.of_live hg.own hlive).1
  | exits t v retval joinable runs label exits good lock =>
    subst label
    -- The owner does not terminate, so it is another thread, which stays alive.
    have hthis : (s.mutex m).owner ≠ some t := (hl.owner rfl).some runs.this
    refine h.apart hinv (lock.apart fun u ho hlive => ?_)
    have hut : u ≠ t := by
      rintro rfl
      exact hthis ho
    exact (exits.live_of_ne (runs.note_good hg _).2 hut).mpr hlive
  | frees t leaving frees good lock =>
    exact h.apart hinv (lock.apart fun u _ => (frees.live leaving u).mpr)
  | nothing main _ _ f r eq good lock =>
    refine h.apart hinv (lock.apart fun u _ hlive => ?_)
    have h2 := (hg.own.thread _ hlive.1).1
    rw [eq]
    refine ((setPc_sameLives _ (.user r)).live u).mpr ⟨hlive.1, ?_, hlive.2.2⟩
    have hlife : (s.setLife 0 f).life (s.thread u).id = s.life (s.thread u).id :=
      Function.update_of_ne (by omega) _ _
    change ((s.setLife 0 f).life (s.thread u).id).exits = 0
    rw [hlife]
    exact hlive.2.1

/-- At first nobody holds the mutex and nobody waits for it. -/
theorem init_mutex (pagesize : ℤ) (last_clock m : ℕ) : (init pagesize last_clock).MutexInv m := by
  refine ⟨init_inv pagesize last_clock, fun t ho => (by cases ho), fun t => ?_,
    fun t hl => absurd hl.1 List.not_mem_nil, fun _ t ht => (by cases ht), .nil⟩
  have howns : ¬(init pagesize last_clock).Owns m t := fun ho => (by cases ho.1)
  rw [if_neg howns]
  rfl

/-! ## Runs -/

/-- Of the threads that are in `LOCK_WAIT` on the wait queue of `m`, `t` began to wait first: its
arrival is the one furthest back in the log. -/
structure WaitsFirst (s : St) (m t : ℕ) : Prop where
  mem : t ∈ (s.mutex m).wait_q
  state : (s.thread t).state = .LOCK_WAIT
  first : ∀ u ∈ (s.mutex m).wait_q, (s.thread u).state = .LOCK_WAIT → u ≠ t →
    s.log.idxOf (.lockWait m u) < s.log.idxOf (.lockWait m t)

/-- `_st_mutex_unlock` finds whoever began to wait first. -/
theorem MutexInv.firstLockWait_iff {m : ℕ} {s : St} (h : s.MutexInv m) (t : ℕ) :
    s.firstLockWait m = some t ↔ s.WaitsFirst m t := by
  constructor
  · intro hfirst
    obtain ⟨hmem, -, hst, -⟩ := firstLockWait_spec h.inv.good.core hfirst
    exact ⟨hmem, hst, fun u hu hstu hne => h.queue.find_first hfirst hu (by simpa using hstu) hne⟩
  · intro hfirst
    -- Somebody is found, and it can only be `t`.
    cases hfind : s.firstLockWait m with
    | none =>
      have := List.find?_eq_none.mp hfind t hfirst.mem
      simp [hfirst.state] at this
    | some u =>
      obtain ⟨hmem, -, hst, -⟩ := firstLockWait_spec h.inv.good.core hfind
      by_contra hne
      have hne : t ≠ u := fun heq => hne (by rw [heq])
      have h1 := h.queue.find_first hfind hfirst.mem (by simpa using hfirst.state) hne
      have h2 := hfirst.first u hmem hst (Ne.symm hne)
      omega

/-- A step returns from `st_mutex_lock` on `m` to `t`, which did not hold `m` when it called. -/
def LockReturns (s : St) (l : Label) (s' : St) (m t : ℕ) (r : Res) : Prop :=
  s.Runs t ∧ ((l = .call (.mutexLock m) ∧ ¬s.Holding m t) ∨ s.pcOf t = .lock t m) ∧
    s'.pcOf t = .user r

/-- Mutual exclusion with hand-over in order of arrival. -/
structure MutexSpec (m : ℕ) (s : St) : Prop where
  /-- At most one thread has a lock that it has not unlocked, and it has one. -/
  exclusive : ∀ t u, s.Holding m t → s.Holding m u → t = u
  once : ∀ t, s.log.count (.locked m t) ≤ s.log.count (.unlocked m t) + 1
  owner : ∀ t, s.Holding m t → (s.mutex m).owner = some t
  free : (s.mutex m).owner = none → ∀ t ∈ (s.mutex m).wait_q, (s.thread t).state ≠ .LOCK_WAIT
  /-- `st_mutex_lock` returns `0` if its caller is the owner then, and else it was interrupted. -/
  lock : ∀ l s' t r, s.FromThreads m l → s.step l = some s' → LockReturns s l s' m t r →
    (r = .ok 0 ↔ (s'.mutex m).owner = some t) ∧
      (r ≠ .ok 0 → r = .error .EINTR ∧ t ∉ (s'.mutex m).wait_q)
  /-- `st_mutex_unlock` hands over to whoever began to wait first. -/
  unlock : ∀ s' t, s.FromThreads m (.call (.mutexUnlock m)) →
    s.step (.call (.mutexUnlock m)) = some s' → s.Runs t → (s.mutex m).owner = some t →
    ∀ u, (s'.mutex m).owner = some u ↔ s.WaitsFirst m u

section spec

variable {m : ℕ} {s s' : St} (h : s.MutexInv m)
include h

/-- What `st_mutex_lock` returns. -/
theorem MutexInv.lock_spec {l : Label} {t : ℕ} {r : Res} (hl : s.FromThreads m l)
    (hstep : s.step l = some s') (hret : LockReturns s l s' m t r) :
    (r = .ok 0 ↔ (s'.mutex m).owner = some t) ∧
      (r ≠ .ok 0 → r = .error .EINTR ∧ t ∉ (s'.mutex m).wait_q) := by
  obtain ⟨hr, hcall, hpc'⟩ := hret
  have hinv := step_inv h.inv hl.ok hstep
  -- Whoever is in the program's code is on no wait queue.
  have hoff : t ∉ (s'.mutex m).wait_q := by
    intro hmem
    obtain ⟨-, hc⟩ := hinv.good.core.waiter hmem
    rw [hpc'] at hc
    cases hc
  have hok : ∀ {e : Errno}, (.error e : Res) ≠ .ok 0 := fun hc => by cases hc
  rcases hcall with ⟨rfl, hnot⟩ | hpc
  · obtain ⟨r₀, hpc⟩ := hr.call_user hstep
    obtain ⟨-, -, hstep'⟩ := step_call_user hstep
    change s.mutexLock m = some s' at hstep'
    obtain ⟨s₁, hs₁, -, hout⟩ := mutexLock_fine h.inv.good hr hpc m
    rw [hstep', Option.some_inj] at hs₁
    subst hs₁
    have hfree : (s.mutex m).owner ≠ some t := by
      intro ho
      refine hnot ((h.holding_iff t).mpr ⟨ho, ?_⟩)
      rw [hpc]
      exact fun hc => by cases hc
    cases hout with
    | fails frame e pc why =>
      rw [hpc', Pc.user.injEq] at pc
      rw [pc, why.resolve_right hfree, frame.mutex]
      exact ⟨⟨fun hc => absurd hc hok, fun ho => absurd ho hfree⟩, fun _ => ⟨rfl, frame.mutex ▸ hoff⟩⟩
    | acquires free pc locks =>
      rw [hpc', Pc.user.injEq] at pc
      rw [pc, locks.mutex, Function.update_self]
      exact ⟨⟨fun _ => rfl, fun _ => rfl⟩, fun hc => absurd rfl hc⟩
    | waits owner held ne pc woken locks =>
      rw [hpc'] at pc
      cases pc
  · have hend : s' = s.mutexLockEnd t m := by
      cases step_goes (hr.pc_eq.trans hpc) hstep with
      | lock hend => exact hend
    obtain ⟨-, -, hout⟩ := mutexLockEnd_fine h.inv.good hr hpc
    rw [← hend] at hout
    cases hout with
    | interrupted flag owner pc locks =>
      rw [hpc', Pc.user.injEq] at pc
      refine ⟨⟨fun hc => absurd (pc.symm.trans hc) hok, fun ho => ?_⟩, fun _ => ⟨pc, hoff⟩⟩
      rw [locks.mutex, Function.update_self] at ho
      exact absurd ho owner
    | acquires why pc locks =>
      rw [hpc', Pc.user.injEq] at pc
      rw [pc, locks.mutex, Function.update_self]
      exact ⟨⟨fun _ => h.owner_of_resumed hr hpc why, fun _ => rfl⟩, fun hc => absurd rfl hc⟩

/-- Whom `st_mutex_unlock` hands the ownership to. -/
theorem MutexInv.unlock_spec {t : ℕ} (hstep : s.step (.call (.mutexUnlock m)) = some s')
    (hr : s.Runs t) (ho : (s.mutex m).owner = some t) (u : ℕ) :
    (s'.mutex m).owner = some u ↔ s.WaitsFirst m u := by
  obtain ⟨r, hpc⟩ := hr.call_user hstep
  obtain ⟨-, -, hcall⟩ := step_call_user hstep
  obtain ⟨-, -, hout⟩ := mutexUnlock_fine h.inv.good hr hpc m
  rw [Option.some_inj.mp hcall] at hout
  rcases hout with ⟨hne, -⟩ | ⟨-, locks⟩
  · exact absurd ho hne
  · rw [locks.mutex, Function.update_self]
    exact h.firstLockWait_iff u

/-- What the invariant says, in the terms of the statement. -/
theorem MutexInv.spec : s.MutexSpec m where
  exclusive t u ht hu := by
    have ht := ((h.holding_iff t).mp ht).1
    have hu := ((h.holding_iff u).mp hu).1
    rw [ht, Option.some_inj] at hu
    exact hu
  once t := by
    rw [h.count t]
    split_ifs <;> omega
  owner t ht := ((h.holding_iff t).mp ht).1
  free := h.free
  lock _ _ _ _ hl hstep hret := h.lock_spec hl hstep hret
  unlock _ _ _ hstep hr ho u := h.unlock_spec hstep hr ho u

end spec

/-- In each run whose steps are all `FromThreads`, the mutex `m` does its work. So each step is `Ok`, calls
on mutexes come from threads, and no thread terminates as the owner of `m`. -/
theorem run_mutex_spec (pagesize : ℤ) (last_clock m : ℕ) (ls : List Label) {s : St}
    (hrun : Runs.run step (init pagesize last_clock) ls = some s)
    (hthreads : Runs.Meets step (FromThreads m) (init pagesize last_clock) ls) : s.MutexSpec m := by
  have h : s.MutexInv m :=
    Runs.run_invariant step_mutex (init_mutex pagesize last_clock m) hthreads hrun
  exact h.spec

/-- Three threads. The first one locks the mutex and sleeps, the others wait for it, and the second
one is interrupted by the first one, which then unlocks the mutex. -/
def locksInTurn : List Label :=
  [.call (.create false 0 ⟨true, true, true⟩), .call (.create false 0 ⟨true, true, true⟩),
    .call (.create false 0 ⟨true, true, true⟩), .call (.usleep 1), .call (.mutexLock 0),
    .call (.usleep 1), .call (.mutexLock 0), .call (.mutexLock 0),
    .dispatch fun _ => .ready fun _ => ∅, .clock 5, .resume, .call (.interrupt 2),
    .call (.mutexUnlock 0)]

/-- The run is possible. The mutex is handed over to the third thread although the second one, which was
interrupted, is before it in the queue. -/
theorem run_mutex_spec_locksInTurn : ∃ s, Runs.run step (init 4096 0) locksInTurn = some s ∧
    s.MutexSpec 0 ∧ (s.mutex 0).owner = some 3 ∧ (s.mutex 0).wait_q = [2, 3] := by
  refine ⟨(Runs.run step (init 4096 0) locksInTurn).get (by decide), by simp, ?_, by decide, by decide⟩
  exact run_mutex_spec 4096 0 0 locksInTurn (by simp) (by decide)

/-- `FromThreads` without `Ok`. -/
def CallsFromThreads (m : ℕ) (s : St) (l : Label) : Prop :=
  (l.onMutex = true → s.running ≠ 0) ∧ (l.returns = true → s.This fun t => (s.mutex m).owner ≠ some t)

instance (m : ℕ) (s : St) (l : Label) : Decidable (s.CallsFromThreads m l) :=
  inferInstanceAs (Decidable ((_ → _) ∧ (_ → _)))

/-- Three threads, and the third one has no fiber. The first one locks the mutex and sleeps, and the second
one has to wait for it: `_st_vp_schedule` selects the third one, does not switch to it, and returns. -/
def locksPastNull : List Label :=
  [.call (.create false 0 ⟨true, true, true⟩), .call (.create false 0 ⟨true, true, true⟩),
    .call (.create false 0 ⟨true, false, true⟩), .call (.usleep 1), .call (.mutexLock 0),
    .call (.usleep 1), .call (.mutexLock 0), .resume]

/-- The second thread returns from `st_mutex_lock` with `0` while the first one holds the mutex. -/
theorem run_mutex_two_holders : ∃ s, Runs.run step (init 4096 0) locksPastNull = some s ∧
    Runs.Meets step (CallsFromThreads 0) (init 4096 0) locksPastNull ∧ s.pcOf 2 = .user (.ok 0) ∧
    s.Holding 0 1 ∧ s.Holding 0 2 ∧ (s.mutex 0).owner = some 1 ∧ ¬s.MutexSpec 0 := by
  refine ⟨(Runs.run step (init 4096 0) locksPastNull).get (by decide), by simp, by decide, by decide,
    by unfold Holding; decide, by unfold Holding; decide, by decide, fun hspec => ?_⟩
  have hsame := hspec.exclusive 1 2 (by unfold Holding; decide) (by unfold Holding; decide)
  cases hsame

end St

end StWin
