import StWin.Sched.Others
import StWin.Sched.Deadline

/-!
# Waits that end early

`_st_add_sleep_q` computes the due time of a wait by an addition in 64 bits, and `_st_vp_check_clock` takes
a thread out of the timeout heap when the clock has reached its due time. The calls pass on any timeout
but `ST_UTIME_NO_TIMEOUT`, so that the sum may wrap, and then the wait ends at once.

An observer writes down the deadline of each wait, without the wrap. As long as no sum wraps, and nobody
writes the due time of a thread that is on the sleep queue, the due times are the deadlines, and no wait
ends early (`run_no_early_expiry`). The second condition is kept wherever the library is well used
(`Ok.begins_awake`).
-/

namespace StWin.St

/-! ## Due times -/

/-- The thread whose due time a step writes, and the deadline of the wait that it begins, in unbounded
arithmetic. A call of `st_poll` without a timeout puts its caller on the sleep queue all the same, and
`st_thread_create` clears the record of the new thread: these have no deadline. -/
def begins (s : St) : Label → Option (ℕ × Option ℕ)
  | .call (.usleep usecs) => s.this_thread.bind fun me =>
    if (s.thread me).state = .ZOMBIE ∨ (s.thread me).flags.interrupt ∨ usecs = ST_UTIME_NO_TIMEOUT ∨
        (s.thread me).state = .SLEEPING then none
    else some (me, some (s.last_clock + usecs))
  | .call (.condTimedwait _ timeout) => s.this_thread.bind fun me =>
    if (s.thread me).flags.interrupt ∨ timeout = ST_UTIME_NO_TIMEOUT then none
    else some (me, some (s.last_clock + timeout))
  | .call (.poll _ timeout) => s.this_thread.bind fun me =>
    if (s.thread me).flags.interrupt then none
    else some (me, if timeout = ST_UTIME_NO_TIMEOUT then none else some (s.last_clock + timeout))
  | .call (.create _ stk_size ok) =>
    (s.stackNew (s.stackSize stk_size) ok.stack).map fun new => (new.1, none)
  | _ => none

/-- From `s` to `s'` the due time of the thread of `b` was written, with the deadline of `b` in 64 bits if
there is one, and no other due time. -/
structure Assigns (s s' : St) (b : Option (ℕ × Option ℕ)) : Prop where
  other : ∀ u, (∀ d, b ≠ some (u, d)) → (s'.heap.node u).due = (s.heap.node u).due
  self : ∀ t d, b = some (t, some d) → (s'.heap.node t).due = d % utimeMod

namespace Assigns

variable {s s' : St}

/-- No due time is assigned, whatever else changes. -/
theorem of_same {s₁ : St} (h : Heap.SameDue s.heap s₁.heap) (heq : s'.heap = s₁.heap) :
    Assigns s s' none := by
  refine ⟨fun u _ => ?_, fun t d hb => by cases hb⟩
  rw [heq]
  exact h u

/-- The timeout heap is as it was. -/
theorem of_heap (h : s'.heap = s.heap) : Assigns s s' none := of_same (.refl s.heap) h

/-- `_st_add_sleep_q`, between assignments that leave the heap and the clock alone. -/
theorem of_add {s₀ s₁ : St} {t timeout : ℕ} {d : Option ℕ} (h : s₀.addSleepQ t timeout = some s₁)
    (hheap : s₀.heap = s.heap) (hclock : s₀.last_clock = s.last_clock) (hheap' : s'.heap = s₁.heap)
    (hd : ∀ d', d = some d' → d' = s.last_clock + timeout) : Assigns s s' (some (t, d)) := by
  obtain ⟨heap, hadd, rfl⟩ := Option.map_eq_some_iff.mp h
  have hdue (u : ℕ) : (s'.heap.node u).due =
      if u = t then (s.last_clock + timeout) % utimeMod else (s.heap.node u).due := by
    rw [hheap', ← hclock, ← hheap]
    exact Heap.addSleepQ_due hadd u
  constructor
  · intro u hu
    rw [hdue, if_neg]
    rintro rfl
    exact hu d rfl
  · intro t' d' hb
    cases hb
    rw [hdue, if_pos rfl, hd d' rfl]

end Assigns

section due

variable {s s' : St}

/-- A switch of fibers leaves the timeout heap. -/
theorem switchContext_heap (s : St) (t : ℕ) : (s.switchContext t).heap = s.heap := by
  unfold switchContext
  split <;> rfl

/-- `st_usleep` assigns the due time of its caller. -/
theorem usleep_assigns {usecs : ℕ} (h : s.usleep usecs = some s') :
    Assigns s s' (s.begins (.call (.usleep usecs))) := by
  rw [begins]
  cases usleep_paths h with
  | stays skip eq =>
    have hnone : (s.this_thread.bind fun me =>
        if (s.thread me).state = .ZOMBIE ∨ (s.thread me).flags.interrupt ∨
          usecs = ST_UTIME_NO_TIMEOUT ∨ (s.thread me).state = .SLEEPING then none
        else some (me, some (s.last_clock + usecs))) = none := by
      refine Option.bind_eq_none_iff.mpr fun me hme => if_pos ?_
      rcases skip me hme with hz | ⟨-, hst⟩
      · exact Or.inl hz
      · exact Or.inr (Or.inr (Or.inr hst))
    rw [hnone]
    exact .of_heap (eq ▸ vpSchedule_heap _)
  | interrupted me this flag eq =>
    rw [this, Option.bind_some, if_pos (Or.inr (Or.inl flag))]
    exact .of_heap (eq ▸ rfl)
  | sleeps me s₁ this alive flag timeout awake sleeps eq =>
    rw [this, Option.bind_some, if_neg (by simp [alive, flag, timeout, awake])]
    exact .of_add sleeps rfl rfl (eq ▸ vpSchedule_heap _) fun d hd => (Option.some_inj.mp hd).symm
  | suspends me this timeout eq =>
    rw [this, Option.bind_some, if_pos (Or.inr (Or.inr (Or.inl timeout)))]
    exact .of_heap (eq ▸ vpSchedule_heap _)

/-- A wait on a condition variable assigns the due time of its caller, if it has a timeout. -/
theorem condBlock_assigns {me timeout : ℕ} {c : Cond} {pc : Pc}
    (h : s.condBlock me c timeout pc = some s') :
    Assigns s s' (if timeout = ST_UTIME_NO_TIMEOUT then none
      else some (me, some (s.last_clock + timeout))) := by
  obtain ⟨s₁, rfl, ⟨htimeout, hs₁⟩ | ⟨htimeout, rfl⟩⟩ := condBlock_paths h
  · rw [if_neg htimeout]
    exact .of_add hs₁ rfl rfl (vpSchedule_heap _) fun d hd => (Option.some_inj.mp hd).symm
  · rw [if_pos htimeout]
    exact .of_heap (vpSchedule_heap _)

/-- `st_cond_timedwait` assigns the due time of its caller, if it has a timeout. -/
theorem condTimedwait_assigns {n timeout : ℕ} (h : s.condTimedwait (.user n) timeout = some s') :
    Assigns s s' (s.begins (.call (.condTimedwait n timeout))) := by
  rw [begins]
  cases condTimedwait_paths h with
  | outside this eq =>
    rw [this]
    exact .of_heap (eq ▸ rfl)
  | interrupted me this flag eq =>
    rw [this, Option.bind_some, if_pos (Or.inl flag)]
    exact .of_heap (eq ▸ rfl)
  | waits me this flag blocks =>
    rw [this, Option.bind_some]
    simp only [flag, Bool.false_eq_true, false_or]
    exact condBlock_assigns blocks

/-- `st_poll` assigns the due time of its caller. -/
theorem poll_assigns {pds : List Pollfd} {timeout : ℕ} (h : s.poll pds timeout = some s') :
    Assigns s s' (s.begins (.call (.poll pds timeout))) := by
  rw [begins]
  cases poll_paths h with
  | outside this eq =>
    rw [this]
    exact .of_heap (eq ▸ rfl)
  | interrupted me this flag eq =>
    rw [this, Option.bind_some, if_pos flag]
    exact .of_heap (eq ▸ rfl)
  | waits me s₁ this flag sleeps eq =>
    rw [this, Option.bind_some, if_neg (by simp [flag])]
    refine .of_add sleeps rfl rfl (eq ▸ vpSchedule_heap _) fun d hd => ?_
    split_ifs at hd with htimeout
    rw [if_pos htimeout]
    exact (Option.some_inj.mp hd).symm

/-- `st_thread_create` clears the record of the new thread. -/
theorem create_assigns {joinable : Bool} {stk_size : ℤ} {ok : Acquire}
    (h : s.call (.create joinable stk_size ok) = some s') :
    Assigns s s' (s.begins (.call (.create joinable stk_size ok))) := by
  obtain ⟨r, rfl⟩ := call_create_eq h
  rw [begins]
  unfold threadCreate
  cases hnew : s.stackNew (s.stackSize stk_size) ok.stack with
  | none => exact .of_heap rfl
  | some new =>
    obtain ⟨t, s₁⟩ := new
    obtain ⟨free, sizes, seg, rfl⟩ := stackNew_eq hnew
    rw [Option.map_some]
    have hclear (s₂ : St) (h₂ : s₂.heap = s.heap.setNode t fun _ => HeapNode.zero) :
        Assigns s s₂ (some (t, none)) := by
      refine ⟨fun u hu => ?_, fun t' d hb => by cases hb⟩
      rw [h₂, Heap.setNode_node, if_neg]
      rintro rfl
      exact hu none rfl
    dsimp only
    split_ifs <;> exact hclear _ rfl

/-- `_st_cond_signal` assigns no due time. -/
theorem condSignal_sameDue {c : Cond} {broadcast : Bool} (h : s.condSignal c broadcast = some s') :
    Heap.SameDue s.heap s'.heap :=
  fun u => (condSignalLoop_thread (t := u) broadcast _ h).2

/-- `st_thread_interrupt` assigns no due time. -/
theorem threadInterrupt_sameDue {t : ℕ} (h : s.threadInterrupt t = some s') :
    Heap.SameDue s.heap s'.heap := by
  rcases threadInterrupt_paths h with rfl | rfl | h
  · exact .refl s'.heap
  · exact .refl s.heap
  · exact fun u => (wake_thread (t := u) h).2

/-- `st_mutex_lock` leaves the timeout heap. -/
theorem mutexLock_heap {m : ℕ} (h : s.mutexLock m = some s') : s'.heap = s.heap := by
  cases mutexLock_paths h with
  | returns r eq => exact eq ▸ rfl
  | interrupted me _ _ eq => exact eq ▸ rfl
  | locks me _ eq => exact eq ▸ rfl
  | waits me _ eq => exact eq ▸ vpSchedule_heap _

/-- `st_mutex_trylock` leaves the timeout heap. -/
theorem mutexTrylock_heap (s : St) (m : ℕ) : (s.mutexTrylock m).heap = s.heap := by
  unfold mutexTrylock
  split_ifs
  · rfl
  · split <;> rfl

/-- `st_mutex_unlock` leaves the timeout heap. -/
theorem mutexUnlock_heap (s : St) (m : ℕ) : (s.mutexUnlock m).heap = s.heap := by
  unfold mutexUnlock
  split_ifs
  · rfl
  · cases s.this_thread <;> dsimp only <;> split <;> rfl

/-- `st_mutex_lock` after the switch leaves the timeout heap. -/
theorem mutexLockEnd_heap (s : St) (me m : ℕ) : (s.mutexLockEnd me m).heap = s.heap := by
  unfold mutexLockEnd
  dsimp only
  split_ifs <;> rfl

/-- The wait of `st_thread_join` is without a timeout. -/
theorem joinLoop_sameDue {c : Cond} {t : ℕ} (h : s.joinLoop c t = some s') :
    Heap.SameDue s.heap s'.heap := by
  cases joinLoop_paths h with
  | joined _ eq => exact eq ▸ .refl s.heap
  | interrupted me _ eq => exact eq ▸ .refl s.heap
  | waits me _ blocks =>
    have hassigns := condBlock_assigns blocks
    rw [if_pos rfl] at hassigns
    exact fun u => hassigns.other u fun d hd => by cases hd

/-- `st_thread_join` waits without a timeout. -/
theorem threadJoin_sameDue {t : ℕ} (h : s.threadJoin t = some s') : Heap.SameDue s.heap s'.heap := by
  rcases threadJoin_paths h with ⟨r, rfl⟩ | ⟨c, -, -, h⟩
  · exact .refl s.heap
  · exact joinLoop_sameDue h

/-- `st_thread_join` waits again without a timeout. -/
theorem joinEnd_sameDue {me t : ℕ} {c : Cond} (h : s.joinEnd me c t = some s') :
    Heap.SameDue s.heap s'.heap := by
  rcases joinEnd_paths h with ⟨e, rfl⟩ | h
  · exact .refl s.heap
  · have hloop := joinLoop_sameDue h
    exact hloop

/-- The return from `st_thread_exit` leaves the timeout heap. -/
theorem exitReturn_heap (s : St) (explicit : Bool) : (s.exitReturn explicit).heap = s.heap := by
  unfold exitReturn
  split_ifs <;> rfl

/-- The end of `st_thread_exit` leaves the timeout heap. -/
theorem exitFree_heap (s : St) (t : ℕ) (explicit : Bool) :
    (s.exitFree t explicit).heap = s.heap := by
  unfold exitFree
  dsimp only
  rw [switchContext_heap]
  split_ifs <;> rfl

/-- `st_thread_exit` assigns no due time, whoever it wakes. -/
theorem threadExit_sameDue {retval : ℤ} {explicit : Bool} (h : s.threadExit retval explicit = some s') :
    Heap.SameDue s.heap s'.heap := by
  cases threadExit_paths h with
  | outside _ eq =>
    rw [eq, exitReturn_heap]
    exact .refl s.heap
  | frees t _ _ eq =>
    rw [eq, exitFree_heap]
    exact .refl s.heap
  | signals t c s₁ _ _ signal eq =>
    have hsame := condSignal_sameDue signal
    rw [eq, switchContext_heap]
    exact hsame

/-- `st_thread_exit` after its first switch leaves the timeout heap. -/
theorem exitTermEnd_heap {t : ℕ} {explicit : Bool} (h : s.exitTermEnd t explicit = some s') :
    s'.heap = s.heap := by
  obtain ⟨c, s₁, -, hs₁, rfl⟩ := exitTermEnd_paths h
  rw [exitFree_heap]
  rcases hs₁ with rfl | ⟨rfl, -⟩
  · rfl
  · rfl

/-- `st_poll` after the switch leaves the timeout heap. -/
theorem pollEnd_heap {me pq : ℕ} (h : s.pollEnd me pq = some s') : s'.heap = s.heap := by
  rcases pollEnd_paths h with rfl | ⟨n, rfl⟩
  · rfl
  · rfl

/-- The last statement of the loop of `_st_idle_thread_start` assigns no due time. -/
theorem idleSched_sameDue (h : s.idleSched = some s') : Heap.SameDue s.heap s'.heap := by
  have hheap : s.readyIdle.heap = s.heap := by
    unfold readyIdle
    split_ifs <;> rfl
  rw [← hheap]
  rcases idleSched_paths h with ⟨-, retval, h⟩ | ⟨-, rfl⟩
  · exact threadExit_sameDue h
  · rw [vpSchedule_heap]
    exact .refl _

/-- `_st_vp_check_clock` assigns no due time. -/
theorem vpCheckClock_sameDue {now : ℕ} (h : s.vpCheckClock now = some s') :
    Heap.SameDue s.heap s'.heap :=
  fun u => (checkClockLoop_thread (t := u) now _ h).2

/-- A dispatch pass assigns no due time. -/
theorem vpIdle_sameDue {outcomes : ℕ → SelectOutcome} (h : s.vpIdle outcomes = some s') :
    Heap.SameDue s.heap s'.heap :=
  fun u => (wakeAll_thread (t := u) _ h).2

/-- A call assigns the due time that `begins` says. -/
theorem call_assigns {c : Call} (h : s.call c = some s') : Assigns s s' (s.begins (.call c)) := by
  cases c with
  | poll pds timeout => exact poll_assigns h
  | usleep usecs => exact usleep_assigns h
  | condTimedwait n timeout => exact condTimedwait_assigns h
  | condSignal n =>
    obtain ⟨s₁, hs₁, rfl⟩ := Option.map_eq_some_iff.mp h
    exact .of_same (condSignal_sameDue hs₁) rfl
  | condBroadcast n =>
    obtain ⟨s₁, hs₁, rfl⟩ := Option.map_eq_some_iff.mp h
    exact .of_same (condSignal_sameDue hs₁) rfl
  | mutexLock m => exact .of_heap (mutexLock_heap h)
  | mutexTrylock m =>
    cases h
    exact .of_heap (s.mutexTrylock_heap m)
  | mutexUnlock m =>
    cases h
    exact .of_heap (s.mutexUnlock_heap m)
  | interrupt t =>
    simp only [call] at h
    split_ifs at h
    obtain ⟨s₁, hs₁, rfl⟩ := Option.map_eq_some_iff.mp h
    exact .of_same (threadInterrupt_sameDue hs₁) rfl
  | create joinable stk_size ok => exact create_assigns h
  | join t =>
    simp only [call] at h
    split_ifs at h
    exact .of_same (threadJoin_sameDue h) rfl
  | exit retval => exact .of_same (threadExit_sameDue h) rfl
  | idleRun =>
    simp only [call] at h
    split_ifs at h
    cases h
    exact .of_heap rfl

/-- One step, whatever the state. -/
theorem step_assigns {l : Label} (h : s.step l = some s') : Assigns s s' (s.begins l) := by
  obtain ⟨pc, hpc⟩ : ∃ pc, (s.fiber s.running).pc = pc := ⟨_, rfl⟩
  cases step_goes hpc h with
  | call c hcall => exact call_assigns hcall
  | ret v _ hexit =>
    have hsame := threadExit_sameDue hexit
    exact .of_same hsame rfl
  | poll hend => exact .of_heap (pollEnd_heap hend)
  | condWait heq => exact .of_heap (by rw [heq]; rfl)
  | lock heq => exact .of_heap (by rw [heq, mutexLockEnd_heap])
  | join hend => exact .of_same (joinEnd_sameDue hend) rfl
  | exitTerm hend => exact .of_heap (exitTermEnd_heap hend)
  | exitEnd heq => exact .of_heap (by rw [heq, exitReturn_heap])
  | idleDispatch outcomes _ s₁ hs₁ heq => exact .of_same (vpIdle_sameDue hs₁) (by rw [heq]; rfl)
  | idleEnd _ hexit => exact .of_same (threadExit_sameDue hexit) rfl
  | idleClock now s₁ hs₁ heq => exact .of_same (vpCheckClock_sameDue hs₁) (by rw [heq]; rfl)
  | idleSched hsched => exact .of_same (idleSched_sameDue hsched) rfl
  | nativeDispatch outcomes _ s₁ hs₁ heq => exact .of_same (vpIdle_sameDue hs₁) (by rw [heq]; rfl)
  | nativeEnd _ heq => exact .of_heap (by rw [heq]; rfl)
  | nativeClock now s₁ hs₁ heq => exact .of_same (vpCheckClock_sameDue hs₁) (by rw [heq]; rfl)
  | nativeSched heq => exact .of_heap (by rw [heq, vpSchedule_heap]; rfl)

end due

/-! ## The threads that the clock takes out of the heap -/

/-- The threads that the loop of `_st_vp_check_clock` takes out of the heap, in order. -/
def expiring (now : ℕ) : ℕ → Heap → List ℕ
  | 0, _ => []
  | fuel + 1, heap =>
    match heap.sleep_q with
    | none => []
    | some t =>
      if now < (heap.node t).due then []
      else
        match heap.delSleepQ t with
        | none => []
        | some heap' => t :: expiring now fuel heap'

/-- The threads that `_st_vp_check_clock` takes out of the heap at the time `now`. -/
def takenOut (s : St) (now : ℕ) : List ℕ := expiring now (s.heap.sleepq_size + 1) s.heap

/-- They are the threads that it makes runnable. -/
theorem checkClockLoop_run_q (now fuel : ℕ) : ∀ {s s' : St}, checkClockLoop now fuel s = some s' →
    s'.run_q = s.run_q ++ expiring now fuel s.heap := by
  induction fuel with
  | zero =>
    intro s s' h
    cases h
  | succ fuel ih =>
    intro s s' h
    rw [expiring]
    cases hroot : s.heap.sleep_q with
    | none =>
      rw [checkClockLoop, hroot] at h
      cases h
      exact (List.append_nil _).symm
    | some t =>
      by_cases hdue : now < (s.heap.node t).due
      · rw [checkClockLoop, hroot] at h
        dsimp only at h ⊢
        rw [if_pos hdue] at h ⊢
        cases h
        exact (List.append_nil _).symm
      · dsimp only
        rw [if_neg hdue]
        cases hdel : s.heap.delSleepQ t with
        | none =>
          rw [checkClockLoop, hroot] at h
          dsimp only at h
          rw [if_neg hdue, delSleepQ, hdel] at h
          cases h
        | some heap =>
          rw [checkClockLoop_pop hroot (Nat.le_of_not_lt hdue) hdel] at h
          rw [ih h]
          exact List.append_assoc s.run_q [t] _

/-- Each of them is due. -/
theorem expiring_due (now fuel : ℕ) : ∀ {heap : Heap}, ∀ t ∈ expiring now fuel heap,
    (heap.node t).due ≤ now := by
  induction fuel with
  | zero =>
    intro heap t ht
    cases ht
  | succ fuel ih =>
    intro heap t ht
    rw [expiring] at ht
    split at ht
    · cases ht
    · split_ifs at ht with hdue
      · cases ht
      · split at ht
        · cases ht
        · next heap' hdel =>
          rcases List.mem_cons.mp ht with rfl | ht
          · exact Nat.le_of_not_lt hdue
          · rw [← Heap.delSleepQ_sameDue hdel t]
            exact ih t ht

/-! ## Deadlines -/

/-- What the observer writes down: the deadline of the wait that a thread begins. A thread that is on the
sleep queue is in a wait already, which does not end with a write to its due time. -/
def noteDeadline (w : ℕ → Option ℕ) (s : St) (l : Label) (_ : St) : ℕ → Option ℕ := fun t =>
  match s.begins l with
  | some (me, d) => if me = t ∧ (s.thread t).flags.on_sleepq = false then d else w t
  | none => w t

/-- For each thread the deadline of the wait that it began last, after a run. -/
def deadlines (s : St) (ls : List Label) : ℕ → Option ℕ :=
  Runs.record step noteDeadline (fun _ => none) s ls

/-- If the step writes a due time, then it is that of a thread that is off the sleep queue, and the
addition does not wrap. -/
def Timely (s : St) (l : Label) : Prop :=
  ∀ b ∈ s.begins l, (s.thread b.1).flags.on_sleepq = false ∧ ∀ d ∈ b.2, d < utimeMod

instance (s : St) (l : Label) : Decidable (s.Timely l) :=
  inferInstanceAs (Decidable (∀ b ∈ s.begins l, _ ∧ ∀ d ∈ b.2, d < utimeMod))

/-- A thread that makes a call of its own is off the sleep queue. -/
theorem Good.caller_awake {s : St} (hg : s.Good) {r : Res} {me : ℕ}
    (hpc : (s.fiber s.running).pc = .user r) (hmain : s.running ≠ 0) (hthis : s.this_thread = some me) :
    (s.thread me).flags.on_sleepq = false := by
  rcases hg.caller hpc with hzero | ⟨t, hr⟩
  · exact absurd hzero hmain
  · obtain rfl : t = me := Option.some_inj.mp (hr.this.symm.trans hthis)
    exact hg.core.off_sleepq hr

/-- Where the library is well used, nobody writes the due time of a thread that is on the sleep queue. -/
theorem Ok.begins_awake {s s' : St} {l : Label} (hg : s.Good) (hok : s.Ok l) (h : s.step l = some s')
    {b : ℕ × Option ℕ} (hb : b ∈ s.begins l) : (s.thread b.1).flags.on_sleepq = false := by
  cases l with
  | call c =>
    obtain ⟨r, hpc, -⟩ := step_call_user h
    cases c with
    | usleep usecs =>
      -- `main` may sleep only on the record of a thread that has terminated, and then writes nothing.
      obtain ⟨me, hthis, hb⟩ := Option.bind_eq_some_iff.mp hb
      split_ifs at hb with hskip
      cases hb
      refine hg.caller_awake hpc (fun hmain => hskip (Or.inl ?_)) hthis
      exact (hok hmain).some hthis
    | condTimedwait n timeout =>
      obtain ⟨me, hthis, hb⟩ := Option.bind_eq_some_iff.mp hb
      split_ifs at hb
      cases hb
      refine hg.caller_awake hpc (fun hmain => ?_) hthis
      rw [hok hmain] at hthis
      cases hthis
    | poll pds timeout =>
      obtain ⟨me, hthis, hb⟩ := Option.bind_eq_some_iff.mp hb
      obtain ⟨-, hb⟩ := Option.ite_none_left_eq_some.mp hb
      cases hb
      refine hg.caller_awake hpc (fun hmain => ?_) hthis
      rw [hok hmain] at hthis
      cases hthis
    | create joinable stk_size ok =>
      -- A record that is taken for a new thread is not that of a live one.
      obtain ⟨⟨t, s₁⟩, hnew, rfl⟩ := Option.map_eq_some_iff.mp hb
      obtain ⟨-, -, -, -, -, hdead, -⟩ := stackNew_spec hg.own hnew
      rw [Bool.eq_false_iff]
      exact fun hon => hdead ((hg.core.recs t).sleep_q hon).1
    | _ => cases hb
  | _ => cases hb

/-- The due times of the threads with a deadline are their deadlines. -/
def Noted (s : St) (w : ℕ → Option ℕ) : Prop := ∀ t d, w t = some d → (s.heap.node t).due = d

/-- A timely step keeps the notes about the deadlines of the threads in the heap true. -/
theorem step_noted {s s' : St} {l : Label} {w : ℕ → Option ℕ} (h : Noted s w) (hok : s.Timely l)
    (hstep : s.step l = some s') : Noted s' (noteDeadline w s l s') := by
  intro t d hd
  have hassigns := step_assigns hstep
  unfold noteDeadline at hd
  split at hd
  · next me d' hb =>
    obtain ⟨hoff, hlt⟩ := hok _ hb
    by_cases hme : me = t
    · -- The thread begins a wait, and the addition does not wrap.
      subst hme
      rw [if_pos ⟨rfl, hoff⟩] at hd
      subst hd
      rw [hassigns.self me d hb]
      exact Nat.mod_eq_of_lt (hlt d rfl)
    · rw [if_neg fun hand => hme hand.1] at hd
      rw [hassigns.other t fun d'' hb' => ?_, h t d hd]
      rw [hb] at hb'
      cases hb'
      exact hme rfl
  · next hb =>
    rw [hassigns.other t fun d' hb' => ?_, h t d hd]
    rw [hb] at hb'
    cases hb'

/-- No wait ends early. In each run in which no deadline wraps and nobody writes the due time of a thread
that is on the sleep queue, and for every clock reading after it: the threads that `_st_vp_check_clock`
takes out of the heap, and makes runnable, are past the deadlines of their waits. -/
theorem run_no_early_expiry (pagesize : ℤ) (last_clock : ℕ) (ls : List Label) {s s' : St} (now : ℕ)
    (hrun : Runs.run step (init pagesize last_clock) ls = some s)
    (hok : Runs.Meets step Timely (init pagesize last_clock) ls)
    (hclock : s.vpCheckClock now = some s') :
    s'.run_q = s.run_q ++ s.takenOut now ∧
      ∀ t ∈ s.takenOut now, ∀ d, deadlines (init pagesize last_clock) ls t = some d → d ≤ now := by
  have hq := checkClockLoop_run_q now _ hclock
  refine ⟨hq, fun t ht d hd => ?_⟩
  have hnoted : Noted s (deadlines (init pagesize last_clock) ls) :=
    Runs.record_invariant step_noted (fun _ _ hnone => by cases hnone) hok hrun
  rw [← hnoted t d hd]
  exact expiring_due now _ t ht

/-- `main` creates a thread and gives it the turn. It sleeps, and the idle thread dispatches. -/
def sleepsFor (usecs : ℕ) : List Label :=
  [.call (.create false 0 ⟨true, true, true⟩), .call (.usleep 1), .call (.usleep usecs),
    .dispatch fun _ => noneReady]

/-- A thread sleeps for 5 µs from 1000 on. It is taken out of the heap at 1005, and not at 1004. -/
theorem run_no_early_expiry_five :
    ∃ s s', Runs.run step (init 4096 1000) (sleepsFor 5) = some s ∧ s.vpCheckClock 1005 = some s' ∧
      s.takenOut 1004 = [] ∧ s.takenOut 1005 = [1] ∧
      ∀ t ∈ s.takenOut 1005, ∀ d, deadlines (init 4096 1000) (sleepsFor 5) t = some d → d ≤ 1005 := by
  have hrun : Runs.run step (init 4096 1000) (sleepsFor 5) =
      some ((Runs.run step (init 4096 1000) (sleepsFor 5)).get (by decide)) := by simp
  refine ⟨_, _, hrun, (Option.some_get (by decide)).symm, by decide, by decide, ?_⟩
  exact (run_no_early_expiry 4096 1000 (sleepsFor 5) 1005 hrun (by decide)
    (Option.some_get (by decide)).symm).2

/-- `main` waits in the name of a thread that has terminated, and another thread creates one on the same
stack. -/
def reusesRecord : List Label :=
  [.call (.create false 0 ⟨true, true, true⟩), .call (.create false 0 ⟨true, true, true⟩),
    .call (.usleep 1), .ret 0, .resume, .call (.condTimedwait 0 100),
    .call (.create false 0 ⟨true, true, true⟩), .call (.condTimedwait 0 ST_UTIME_NO_TIMEOUT),
    .call (.condTimedwait 0 ST_UTIME_NO_TIMEOUT), .dispatch fun _ => noneReady]

/-- The longest timeout but one wraps, and the thread is taken out at once. So is a thread whose record is
cleared while it is in the heap. -/
theorem run_early_expiry :
    (∃ s s', Runs.run step (init 4096 1000) (sleepsFor (2^64 - 2)) = some s ∧
      s.vpCheckClock 1000 = some s' ∧ 1 ∈ s.takenOut 1000 ∧
      ∃ d, deadlines (init 4096 1000) (sleepsFor (2^64 - 2)) 1 = some d ∧ d = 1000 + (2^64 - 2) ∧
        1000 < d) ∧
    ∃ s s', Runs.run step (init 4096 1000) reusesRecord = some s ∧ s.vpCheckClock 1000 = some s' ∧
      1 ∈ s.takenOut 1000 ∧
      ∃ d, deadlines (init 4096 1000) reusesRecord 1 = some d ∧ d = 1000 + 100 ∧ 1000 < d := by
  constructor
  · refine ⟨_, _, (Option.some_get (by decide)).symm, (Option.some_get (by decide)).symm, by decide, ?_⟩
    exact ⟨_, by decide, rfl, by decide⟩
  · refine ⟨_, _, (Option.some_get (by decide)).symm, (Option.some_get (by decide)).symm, by decide, ?_⟩
    exact ⟨_, by decide, rfl, by decide⟩

end StWin.St
