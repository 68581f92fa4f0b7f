import StWin.Sched.Plain
import StWin.Lib.Runs

/-!
# The count of active threads

`_st_active_count` goes up in `st_thread_create` and down in `st_thread_exit`, whoever enters it. It
is the number of the threads that were created and have not terminated as long as each entry of
`st_thread_exit` is the first one of a created thread. The idle thread enters `st_thread_exit` too,
when its loop ends with nobody active, and was not counted when `st_init` created it.
-/

namespace StWin.St

/-- From `s` to `s'` nobody was created, and nobody entered `st_thread_exit`. -/
structure Steady (s s' : St) : Prop where
  threads : s'.threads = s.threads
  created : s'.created = s.created
  active_count : s'.active_count = s.active_count
  exits : ∀ f, (s'.life f).exits = (s.life f).exits
  pc : ∀ f me n, (s'.fiber f).pc = .condWait me (.term n) → (s.fiber f).pc = .condWait me (.term n)

/-- Nothing has been done. -/
theorem Steady.refl (s : St) : Steady s s :=
  ⟨rfl, rfl, rfl, fun _ => rfl, fun _ _ _ h => h⟩

/-- One after the other. -/
theorem Steady.trans {s s' s'' : St} (h : Steady s s') (h' : Steady s' s'') : Steady s s'' :=
  ⟨h'.threads.trans h.threads, h'.created.trans h.created, h'.active_count.trans h.active_count,
    fun f => (h'.exits f).trans (h.exits f), fun f me n hf => h.pc f me n (h'.pc f me n hf)⟩

/-- What is plain is steady. -/
theorem Plain.steady {s s' : St} (h : Plain s s') : Steady s s' := by
  refine ⟨h.threads, h.created, h.active_count, fun f => by rw [h.life], fun f me n hf => ?_⟩
  rw [← h.pc f (by rw [hf]; rfl)]
  exact hf

/-- Assignments to parts of the state that do not matter here. -/
theorem Steady.of_eq {s s' : St} (h1 : s'.threads = s.threads) (h2 : s'.created = s.created)
    (h3 : s'.active_count = s.active_count) (h4 : s'.life = s.life) (h5 : s'.fiber = s.fiber) :
    Steady s s' :=
  ⟨h1, h2, h3, fun f => by rw [h4], fun f me n hf => by rw [← h5]; exact hf⟩

/-- An assignment to the history of a thread that leaves the number of its exits. -/
theorem setLife_steady (s : St) (id : ℕ) {f : Life → Life} (hf : ∀ l, (f l).exits = l.exits) :
    Steady s (s.setLife id f) := by
  refine ⟨rfl, rfl, rfl, fun g => ?_, fun _ _ _ h => h⟩
  by_cases hg : g = id
  · rw [hg]
    simp [setLife, hf]
  · simp [setLife, hg]

/-- The running fiber goes on at a place outside of a wait for a termination. -/
theorem setPc_steady (s : St) {pc : Pc} (h : ∀ me n, pc ≠ .condWait me (.term n)) :
    Steady s (s.setPc pc) := by
  refine ⟨rfl, rfl, rfl, fun _ => rfl, fun f me n hf => ?_⟩
  by_cases hfr : f = s.running
  · rw [hfr] at hf
    simp only [setPc, Function.update_self] at hf
    exact absurd hf (h me n)
  · simpa [setPc, hfr] using hf

/-! ## Joining -/

/-- A wait on a condition variable up to the switch is steady. -/
theorem condBlock_steady {s s' : St} {me timeout : ℕ} {c : Cond} {pc : Pc}
    (hpc : ∀ me n, pc ≠ .condWait me (.term n)) (h : s.condBlock me c timeout pc = some s') :
    Steady s s' := by
  obtain ⟨s₁, rfl, hs₁⟩ := condBlock_paths h
  have h₀ : Steady s (s.linkCond me c) := .of_eq rfl rfl rfl rfl rfl
  have h₁ : Steady s s₁ := by
    rcases hs₁ with ⟨-, hs₁⟩ | ⟨-, rfl⟩
    · exact h₀.trans (addSleepQ_plain hs₁).steady
    · exact h₀
  exact (h₁.trans (s₁.setPc_steady hpc)).trans (vpSchedule_plain _).steady

/-- The loop of `st_thread_join` is steady. -/
theorem joinLoop_steady {s s' : St} {c : Cond} {t : ℕ} (h : s.joinLoop c t = some s') :
    Steady s s' := by
  cases joinLoop_paths h with
  | joined _ eq =>
    rw [eq]
    refine .trans ?_ (setPc_steady _ fun _ _ h => by cases h)
    exact .of_eq rfl rfl rfl rfl rfl
  | interrupted me _ eq => exact eq ▸ (s.eintr_plain me).steady
  | waits me _ blocks => exact condBlock_steady (fun _ _ h => by cases h) blocks

/-- `st_thread_join` up to the switch is steady. -/
theorem threadJoin_steady {s s' : St} {t : ℕ} (h : s.threadJoin t = some s') : Steady s s' := by
  rcases threadJoin_paths h with ⟨r, rfl⟩ | ⟨c, -, -, h⟩
  · exact (s.ret_plain r).steady
  · exact joinLoop_steady h

/-- A wait on a condition variable after the switch is steady. -/
theorem condUnblock_steady (s : St) (me : ℕ) (c : Cond) : Steady s (s.condUnblock me c).1 :=
  .of_eq rfl rfl rfl rfl rfl

/-- `st_thread_join` after a wait in its loop is steady. -/
theorem joinEnd_steady {s s' : St} {me t : ℕ} {c : Cond} (h : s.joinEnd me c t = some s') :
    Steady s s' := by
  have hun := s.condUnblock_steady me c
  rcases joinEnd_paths h with ⟨e, rfl⟩ | h
  · exact hun.trans (ret_plain _ _).steady
  · exact hun.trans (joinLoop_steady h)

/-! ## Termination -/

/-- The return from `st_thread_exit` is steady. -/
theorem exitReturn_steady (s : St) (explicit : Bool) : Steady s (s.exitReturn explicit) := by
  unfold exitReturn
  split_ifs
  · refine .trans ?_ (ret_plain _ _).steady
    exact s.setLife_steady _ fun _ => rfl
  · have hout : Steady s (s.setPc .out) := s.setPc_steady fun _ _ h => by cases h
    refine hout.trans ?_
    exact .of_eq rfl rfl rfl rfl rfl

/-- The end of `st_thread_exit` is steady. -/
theorem exitFree_steady (s : St) (t : ℕ) (explicit : Bool) : Steady s (s.exitFree t explicit) := by
  unfold exitFree
  dsimp only
  refine .trans ?_ (.trans (setPc_steady _ fun _ _ h => by cases h) (switchContext_plain _ t).steady)
  split_ifs
  · exact .refl s
  · refine .trans ?_ (setLife_steady _ _ fun _ => rfl)
    exact .of_eq rfl rfl rfl rfl rfl

/-- `st_thread_exit` after its first switch is steady. -/
theorem exitTermEnd_steady {s s' : St} {t : ℕ} {explicit : Bool}
    (h : s.exitTermEnd t explicit = some s') : Steady s s' := by
  obtain ⟨c, s₁, -, hs₁, rfl⟩ := exitTermEnd_paths h
  refine .trans ?_ (exitFree_steady _ t explicit)
  rcases hs₁ with rfl | ⟨rfl, -⟩
  · exact .of_eq rfl rfl rfl rfl rfl
  · exact .of_eq rfl rfl rfl rfl rfl

/-- The state in which `st_thread_exit` has counted the thread of record `t` off. -/
def leaves (s : St) (t : ℕ) : St :=
  { s.setLife (s.thread t).id fun l => { l with exits := l.exits + 1 } with
    active_count := s.active_count - 1 }

/-- At the start of `st_thread_exit` one thread is counted off. -/
theorem enterExit_steady (s : St) (t : ℕ) (retval : ℤ) :
    Steady (s.leaves t) (s.enterExit t retval) := by
  refine .of_eq rfl rfl rfl ?_ rfl
  simp [enterExit, setState, setThread, setLife, leaves]

/-- An entry of `st_thread_exit` counts `_st_this_thread` off, once. -/
theorem threadExit_steady {s s' : St} {retval : ℤ} {explicit : Bool}
    (h : s.threadExit retval explicit = some s') :
    (s.this_thread = none ∧ Steady s s') ∨ ∃ t, s.this_thread = some t ∧ Steady (s.leaves t) s' := by
  cases threadExit_paths h with
  | outside this eq => exact Or.inl ⟨this, eq ▸ exitReturn_steady s explicit⟩
  | frees t this _ eq =>
    exact Or.inr ⟨t, this, eq ▸ (s.enterExit_steady t retval).trans (exitFree_steady _ t explicit)⟩
  | signals t c s₁ this _ signal eq =>
    refine Or.inr ⟨t, this, (s.enterExit_steady t retval).trans ?_⟩
    rw [eq]
    refine .trans ?_ (.trans (s₁.setPc_steady fun _ _ h => by cases h) (switchContext_plain _ t).steady)
    refine .trans ?_ (condSignalLoop_plain _ _ signal).steady
    exact .of_eq rfl rfl rfl rfl rfl

/-! ## Creation -/

/-- `_st_stack_new` changes the stacks only. -/
theorem stackNew_eq {s s₁ : St} {size : ℤ} {ok : Bool} {t : ℕ}
    (h : s.stackNew size ok = some (t, s₁)) : ∃ free sizes seg,
      s₁ = { s with free_stacks := free, stk_size := sizes, segments := seg } := by
  unfold stackNew at h
  split at h
  · cases h
    exact ⟨_, _, _, rfl⟩
  · split_ifs at h
    cases h
    exact ⟨_, _, _, rfl⟩

/-- From `s` to `s'` the thread with the next number was created and started. -/
structure Starts (s s' : St) : Prop where
  threads : s'.threads = s.threads ++ [s.created]
  created : s'.created = s.created + 1
  active_count : s'.active_count = s.active_count + 1
  exits : ∀ f, f ≠ s.created → (s'.life f).exits = (s.life f).exits
  new : (s'.life s.created).exits = 0

/-- `st_thread_create` starts a thread, or nobody. A number that it used for nobody is not used
again. -/
theorem threadCreate_starts (s : St) (joinable : Bool) (stk_size : ℤ) (ok : Acquire) :
    (∀ f me n, ((s.threadCreate (.user (.ok 0)) joinable stk_size ok).1.fiber f).pc =
        .condWait me (.term n) → (s.fiber f).pc = .condWait me (.term n)) ∧
      (Starts s (s.threadCreate (.user (.ok 0)) joinable stk_size ok).1 ∨
        ((s.threadCreate (.user (.ok 0)) joinable stk_size ok).1.threads = s.threads ∧
          s.created ≤ (s.threadCreate (.user (.ok 0)) joinable stk_size ok).1.created ∧
          (s.threadCreate (.user (.ok 0)) joinable stk_size ok).1.active_count = s.active_count ∧
          ∀ f, f ≠ s.created →
            ((s.threadCreate (.user (.ok 0)) joinable stk_size ok).1.life f).exits =
              (s.life f).exits)) := by
  unfold threadCreate
  cases hnew : s.stackNew (s.stackSize stk_size) ok.stack with
  | none => exact ⟨fun _ _ _ h => h, Or.inr ⟨rfl, le_rfl, rfl, fun _ _ => rfl⟩⟩
  | some new =>
    obtain ⟨t, s₁⟩ := new
    obtain ⟨free, sizes, seg, rfl⟩ := stackNew_eq hnew
    -- The fiber that is made begins in the start function.
    have hpc : ∀ f me n, (Function.update s.fiber s.created ⟨Pc.user (.ok 0), t⟩ f).pc =
        .condWait me (.term n) → (s.fiber f).pc = .condWait me (.term n) := by
      intro f me n h
      by_cases hf : f = s.created
      · rw [hf, Function.update_self] at h
        cases h
      · rwa [Function.update_of_ne hf] at h
    have hlife : ∀ f, f ≠ s.created →
        (Function.update s.life s.created ⟨0, 0, false⟩ f).exits = (s.life f).exits := by
      intro f hf
      rw [Function.update_of_ne hf]
    have hself : (Function.update s.life s.created ⟨0, 0, false⟩ s.created).exits = 0 := by
      rw [Function.update_self]
    dsimp only
    split_ifs
    · refine ⟨hpc, Or.inl ⟨?_, rfl, rfl, hlife, hself⟩⟩
      simp [startThread, addRunq, setState, setThread, initThread]
    · exact ⟨hpc, Or.inr ⟨rfl, Nat.le_succ _, rfl, hlife⟩⟩
    · refine ⟨hpc, Or.inl ⟨?_, rfl, rfl, hlife, hself⟩⟩
      simp [startThread, addRunq, setState, setThread, initThread]

/-! ## The invariant -/

/-- The number of threads that were created and have not terminated, the idle thread apart. -/
def living (s : St) : ℕ := s.threads.countP fun f => decide ((s.life f).exits = 0)

/-- The count is exact. -/
structure Tally (s : St) : Prop where
  nodup : s.threads.Nodup
  fresh : ∀ f ∈ s.threads, f < s.created
  wait : ∀ f me n, (s.fiber f).pc ≠ .condWait me (.term n)
  count : s.active_count = s.living

/-- The number of living threads depends on the threads and on their exits only. -/
theorem living_congr {s s' : St} (h : s'.threads = s.threads)
    (hex : ∀ f ∈ s.threads, (s'.life f).exits = (s.life f).exits) : s'.living = s.living := by
  unfold living
  rw [h]
  exact List.countP_congr fun f hf => by rw [hex f hf]

/-- A steady step keeps the count. -/
theorem Tally.steady {s s' : St} (h : s.Tally) (hs : Steady s s') : s'.Tally := by
  refine ⟨by rw [hs.threads]; exact h.nodup, ?_, fun f me n hf => h.wait f me n (hs.pc f me n hf), ?_⟩
  · rw [hs.threads, hs.created]
    exact h.fresh
  · rw [hs.active_count, h.count, living_congr hs.threads fun f _ => hs.exits f]

/-- A thread that enters `st_thread_exit` for the first time is counted off. -/
theorem Tally.leaves {s : St} (h : s.Tally) {t : ℕ} (hmem : (s.thread t).id ∈ s.threads)
    (hex : (s.life (s.thread t).id).exits = 0) : (s.leaves t).Tally := by
  refine ⟨h.nodup, h.fresh, h.wait, ?_⟩
  have hself : ((s.leaves t).life (s.thread t).id).exits = 1 := by
    simp [St.leaves, setLife, hex]
  have hother : ∀ f, f ≠ (s.thread t).id → ((s.leaves t).life f).exits = (s.life f).exits := by
    intro f hf
    simp [St.leaves, setLife, hf]
  have hcount : s.living = (s.leaves t).living + 1 := by
    unfold living
    have hperm := List.perm_cons_erase hmem
    have hthreads : (s.leaves t).threads = s.threads := rfl
    rw [hthreads, hperm.countP_eq, hperm.countP_eq, List.countP_cons, List.countP_cons, hself, hex]
    simp only [decide_true, if_true, one_ne_zero, decide_false, Bool.false_eq_true, if_false,
      add_zero, Nat.add_right_cancel_iff]
    refine List.countP_congr fun f hf => ?_
    rw [hother f fun heq => h.nodup.not_mem_erase (heq ▸ hf)]
  have hactive : (s.leaves t).active_count = s.active_count - 1 := rfl
  rw [hactive, h.count, hcount]
  push_cast
  omega

/-- A thread is created and counted. -/
theorem Tally.starts {s s' : St} (h : s.Tally) (hs : Starts s s')
    (hpc : ∀ f me n, (s'.fiber f).pc = .condWait me (.term n) →
      (s.fiber f).pc = .condWait me (.term n)) : s'.Tally := by
  have hne : ∀ f ∈ s.threads, f ≠ s.created := fun f hf => (h.fresh f hf).ne
  refine ⟨?_, ?_, fun f me n hf => h.wait f me n (hpc f me n hf), ?_⟩
  · rw [hs.threads]
    refine h.nodup.append (List.nodup_singleton _) ?_
    simpa using fun hmem => hne _ hmem rfl
  · intro f hf
    rw [hs.threads, List.mem_append, List.mem_singleton] at hf
    rw [hs.created]
    rcases hf with hf | rfl
    · exact (h.fresh f hf).trans (Nat.lt_succ_self _)
    · exact Nat.lt_succ_self _
  · have hliving : s'.living = s.living + 1 := by
      unfold living
      rw [hs.threads, List.countP_append, List.countP_singleton, hs.new]
      congr 1
      exact List.countP_congr fun f hf => by rw [hs.exits f (hne f hf)]
    rw [hs.active_count, h.count, hliving]
    push_cast
    rfl

/-- If the step enters `st_thread_exit`, then it does so for a created thread, and for the first
time. -/
def ExitsOnce (s : St) (l : Label) : Prop :=
  s.Enters l →
    s.This fun t => (s.thread t).id ∈ s.threads ∧ (s.life (s.thread t).id).exits = 0

instance (s : St) (l : Label) : Decidable (s.ExitsOnce l) :=
  inferInstanceAs (Decidable (_ → _))

/-- One step keeps the count exact. -/
theorem step_tally {s s' : St} {l : Label} (h : s.Tally) (hok : s.ExitsOnce l)
    (hstep : s.step l = some s') : s'.Tally := by
  rcases step_cases (h.wait _) hstep with ⟨hp, -⟩ | ⟨joinable, stk_size, ok, r, r', -, rfl⟩ |
    ⟨t, r, -, hj⟩ | ⟨me, c, t, -, hj⟩ | ⟨s₀, v, e, henters, -, hp, hthis, -, hx⟩ | ⟨t, e, -, hx⟩ |
    ⟨e, -, rfl⟩
  · exact h.steady hp.steady
  · refine Tally.steady ?_ (ret_plain _ r').steady
    obtain ⟨hpc, hs | ⟨h1, h2, h3, h4⟩⟩ := s.threadCreate_starts joinable stk_size ok
    · exact h.starts hs hpc
    · have hne : ∀ f ∈ s.threads, f ≠ s.created := fun f hf => (h.fresh f hf).ne
      refine ⟨by rw [h1]; exact h.nodup, fun f hf => ?_,
        fun f me n hf => h.wait f me n (hpc f me n hf), ?_⟩
      · rw [h1] at hf
        exact (h.fresh f hf).trans_le h2
      · rw [h3, h.count, living_congr h1 fun f hf => h4 f (hne f hf)]
  · exact h.steady (threadJoin_steady hj)
  · exact h.steady (joinEnd_steady hj)
  · have h₀ := h.steady hp.steady
    have hex := hok henters
    rcases threadExit_steady hx with ⟨-, hs⟩ | ⟨t, ht, hs⟩
    · exact h₀.steady hs
    · obtain ⟨hmem, hzero⟩ := hex.some (hthis.symm.trans ht)
      refine Tally.steady (h₀.leaves ?_ ?_) hs
      · rw [hp.id, hp.threads]
        exact hmem
      · rw [hp.id, hp.life]
        exact hzero
  · exact h.steady (exitTermEnd_steady hx)
  · exact h.steady (exitReturn_steady s e)

/-- The fibers after `st_init`. -/
theorem init_fiber (pagesize : ℤ) (last_clock : ℕ) : (init pagesize last_clock).fiber =
    Function.update (fun _ => ⟨.user (.ok 0), 0⟩) 1 ⟨.idle .dispatch, 0⟩ := rfl

/-- The record of the idle thread, as `st_init` leaves it. -/
def idleRecord : Thread :=
  ⟨.RUNNABLE, { Flags.zero with idle_thread := true }, 0, none, some 1, 1⟩

/-- The records after `st_init`. -/
theorem init_thread (pagesize : ℤ) (last_clock : ℕ) : (init pagesize last_clock).thread =
    Function.update (fun _ => Thread.zero) 0 idleRecord := by
  funext t
  by_cases ht : t = 0
  · rw [ht, Function.update_self]
    rfl
  · simp [init, threadCreate, stackNew, blank, initThread, startThread, setState, setFlags, setThread,
      addRunq, ht]

/-- The count is exact at the start: the idle thread is not counted. -/
theorem init_tally (pagesize : ℤ) (last_clock : ℕ) : (init pagesize last_clock).Tally := by
  refine ⟨List.nodup_nil, fun f hf => (by cases hf), fun f me n hf => ?_, rfl⟩
  rw [init_fiber] at hf
  by_cases h1 : f = 1
  · rw [h1, Function.update_self] at hf
    cases hf
  · rw [Function.update_of_ne h1] at hf
    cases hf

/-- In each run in which every entry of `st_thread_exit` is the first one of a created thread,
`_st_active_count` is the number of the created threads that have not terminated. -/
theorem run_active_count (pagesize : ℤ) (last_clock : ℕ) (ls : List Label) {s : St}
    (hrun : Runs.run step (init pagesize last_clock) ls = some s)
    (hok : Runs.Meets step ExitsOnce (init pagesize last_clock) ls) :
    s.active_count = s.living ∧ 0 ≤ s.active_count := by
  have h : s.Tally := Runs.run_invariant step_tally (init_tally pagesize last_clock) hok hrun
  rw [h.count]
  exact ⟨rfl, Int.natCast_nonneg _⟩

/-- `main` creates two threads and sleeps. One returns, the other sleeps. -/
def twoThreads : List Label :=
  [.call (.create false 0 ⟨true, true, true⟩), .call (.create true 0 ⟨true, true, true⟩),
    .call (.usleep 1), .ret 7, .resume, .call (.usleep 1), .call (.usleep 5)]

/-- Of the two threads one is living. -/
theorem run_active_count_twoThreads : ∃ s, Runs.run step (init 4096 0) twoThreads = some s ∧
    s.active_count = s.living ∧ s.living = 1 := by
  refine ⟨(Runs.run step (init 4096 0) twoThreads).get (by decide), by simp, ?_, by decide⟩
  exact (run_active_count 4096 0 twoThreads (by simp) (by decide)).1

/-- `main` sleeps when there is no thread: the loop of the idle thread ends at once. -/
def sleepsAlone : List Label := [.call (.usleep 1), .resume]

/-- The idle thread is counted off, though it was never counted. -/
theorem run_active_count_idle : ∃ s, Runs.run step (init 4096 0) sleepsAlone = some s ∧
    s.active_count = -1 ∧ s.living = 0 :=
  ⟨(Runs.run step (init 4096 0) sleepsAlone).get (by decide), by simp, by decide, by decide⟩

end StWin.St
