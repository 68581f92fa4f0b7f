import StWin.Sched.MutexCalls

/-!
# Creation of threads

`st_thread_create` takes a stack off the free list, or makes a new one, and writes a record to it.
`Makes` is what it then has done. A call that cannot get its termination condition variable gives the
stack back, and the record that it has written belongs to no thread.

The fiber's number has not been used before, so no thread that exists is affected.
-/

namespace StWin.St

/-- From `s` to `s'` a record `th` was written to the stack `t`, for a thread that was started or
not. -/
structure Makes (s s' : St) (t : ℕ) (th : Thread) (started : Bool) : Prop where
  thread : s'.thread = Function.update s.thread t th
  id : th.id = s.created
  context : th.context = some s.created
  flags : th.flags = Flags.zero
  state : th.state = if started then .RUNNABLE else .RUNNING
  term : started = false → th.term = none
  fiber : s'.fiber = Function.update s.fiber s.created ⟨.user (.ok 0), t⟩
  life : s'.life = Function.update s.life s.created ⟨0, 0, false⟩
  created : s'.created = s.created + 1
  heap : s'.heap = s.heap.setNode t fun _ => HeapNode.zero
  threads : s'.threads = s.threads ++ if started then [s.created] else []
  run_q : s'.run_q = s.run_q ++ if started then [t] else []
  active_count : s'.active_count = s.active_count + if started then 1 else 0
  free_nodup : s'.free_stacks.Nodup
  free : ∀ u, u ∈ s'.free_stacks ↔ (u ∈ s.free_stacks ∧ u ≠ t) ∨ (u = t ∧ started = false)
  segments : s.segments ≤ s'.segments ∧ t < s'.segments
  segment : ∀ u, u < s'.segments → u < s.segments ∨ u = t
  not_live : ¬s.Live t
  ne_zero : t ≠ 0
  cond_q : s'.cond_q = s.cond_q
  mutex : s'.mutex = s.mutex
  ev : s'.ev = s.ev
  zombie_q : s'.zombie_q = s.zombie_q
  idle_thread : s'.idle_thread = s.idle_thread
  this_thread : s'.this_thread = s.this_thread
  running : s'.running = s.running
  log : s'.log = s.log

/-- `_st_stack_new` returns a stack that no live thread has. -/
theorem stackNew_spec {s s₁ : St} (ho : s.Ownership) {size : ℤ} {ok : Bool} {t : ℕ}
    (h : s.stackNew size ok = some (t, s₁)) :
    (∃ free sizes seg,
      s₁ = { s with free_stacks := free, stk_size := sizes, segments := seg }) ∧
    s₁.free_stacks.Nodup ∧ (∀ u, u ∈ s₁.free_stacks ↔ u ∈ s.free_stacks ∧ u ≠ t) ∧
    (s.segments ≤ s₁.segments ∧ t < s₁.segments) ∧ (∀ u, u < s₁.segments → u < s.segments ∨ u = t) ∧
    ¬s.Live t ∧ t ≠ 0 := by
  unfold stackNew at h
  split at h
  · -- A stack of the free list.
    next t' hfind =>
    obtain ⟨rfl, rfl⟩ : t' = t ∧ _ = s₁ := by simpa using h
    have hmem : t' ∈ s.free_stacks := List.mem_of_find?_eq_some hfind
    obtain ⟨hlt, hne, hdead, -⟩ := ho.free t' hmem
    refine ⟨⟨_, _, _, rfl⟩, ho.free_nodup.erase t', fun u => ?_, ⟨le_rfl, hlt⟩, fun u hu => Or.inl hu,
      hdead, hne⟩
    dsimp only
    rw [ho.free_nodup.mem_erase_iff, and_comm]
  · split_ifs at h with hok
    obtain ⟨rfl, rfl⟩ : s.segments = t ∧ _ = s₁ := by simpa using h
    refine ⟨⟨_, _, _, rfl⟩, ho.free_nodup, fun u => ?_, ⟨Nat.le_succ _, Nat.lt_succ_self _⟩,
      fun u hu => ?_, fun hl => absurd (ho.live_lt hl) (lt_irrefl _), ?_⟩
    · dsimp only
      refine ⟨fun hu => ⟨hu, fun heq => ?_⟩, fun hu => hu.1⟩
      have := (ho.free u hu).1
      omega
    · dsimp only at hu
      omega
    · have := ho.idle_stack
      omega

/-- `_st_stack_free` puts the stack on the free list once more. -/
theorem stackFree_perm (s : St) (t : ℕ) :
    (s.stackFree t).free_stacks.Perm (t :: s.free_stacks) := by
  unfold stackFree
  dsimp only
  have hlast : s.free_stacks.dropLast ++ s.free_stacks.getLast?.toList = s.free_stacks := by
    rcases List.eq_nil_or_concat s.free_stacks with h | ⟨l, x, h⟩
    · rw [h]
      rfl
    · rw [h]
      simp
  calc (s.free_stacks.dropLast ++ t :: s.free_stacks.getLast?.toList).Perm
        (t :: (s.free_stacks.dropLast ++ s.free_stacks.getLast?.toList)) := List.perm_middle
    _ = t :: s.free_stacks := by rw [hlast]

/-- `st_thread_create`, when `createFiber` succeeds. -/
theorem threadCreate_makes {s : St} (ho : s.Ownership) (hfresh : s.cond_q (.term s.terms) = [])
    (joinable : Bool) (stk_size : ℤ) {ok : Acquire} (hok : ok.fiber = true) :
    (s.threadCreate (.user (.ok 0)) joinable stk_size ok).1 = s ∨
      ∃ t th started, Makes s (s.threadCreate (.user (.ok 0)) joinable stk_size ok).1 t th started ∧
        (joinable = false → th.term = none) := by
  unfold threadCreate
  cases hnew : s.stackNew (s.stackSize stk_size) ok.stack with
  | none => exact Or.inl rfl
  | some new =>
    obtain ⟨t, s₁⟩ := new
    obtain ⟨⟨free, sizes, seg, rfl⟩, hnodup, hfree, hseg, hsegs, hdead, hne⟩ := stackNew_spec ho hnew
    refine Or.inr ?_
    dsimp only at hnodup hfree hseg hsegs ⊢
    rw [hok]
    -- The stack leaves the free list, if it was there.
    have htaken : ∀ u, u ∈ free ↔ (u ∈ s.free_stacks ∧ u ≠ t) ∨ (u = t ∧ true = false) := by
      intro u
      rw [hfree]
      simp
    split_ifs with hj hcond
    · -- A joinable thread.
      refine ⟨t, ⟨.RUNNABLE, Flags.zero, 0, some (.term s.terms), some s.created, s.created⟩, true,
        ⟨?_, rfl, rfl, rfl, rfl, fun h => (by cases h), rfl, rfl, rfl, rfl, ?_, rfl, rfl, hnodup, htaken,
          hseg, hsegs, hdead, hne, ?_, rfl, rfl, rfl, rfl, rfl, rfl, rfl⟩, fun h => ?_⟩
      · simp [startThread, addRunq, setState, setThread, initThread, Thread.zero]
      · simp [startThread, addRunq, setState, setThread, initThread]
      · rw [← Function.update_eq_self (.term s.terms) s.cond_q, hfresh]
        simp [startThread, addRunq, setState, setThread, initThread]
      · rw [hj] at h
        cases h
    · -- The condition variable is not to be had.
      generalize hs₁ : initThread _ t (.user (.ok 0)) true = s₁
      have hperm := s₁.stackFree_perm t
      have hfree₁ : s₁.free_stacks = free := by rw [← hs₁]; rfl
      rw [hfree₁] at hperm
      refine ⟨t, ⟨.RUNNING, Flags.zero, 0, none, some s.created, s.created⟩, false,
        ⟨by rw [← hs₁]; rfl, rfl, rfl, rfl, rfl, fun _ => rfl, by rw [← hs₁]; rfl, by rw [← hs₁]; rfl,
          by rw [← hs₁]; rfl, by rw [← hs₁]; rfl, ?_, ?_, ?_, ?_, fun u => ?_,
          by rw [← hs₁]; exact hseg, by rw [← hs₁]; exact hsegs, hdead, hne, by rw [← hs₁]; rfl,
          by rw [← hs₁]; rfl, by rw [← hs₁]; rfl, by rw [← hs₁]; rfl, by rw [← hs₁]; rfl,
          by rw [← hs₁]; rfl, by rw [← hs₁]; rfl, by rw [← hs₁]; rfl⟩, fun _ => rfl⟩
      · rw [← hs₁]
        simp [initThread, stackFree]
      · rw [← hs₁]
        simp [initThread, stackFree]
      · rw [← hs₁]
        simp [initThread, stackFree]
      · rw [hperm.nodup_iff, List.nodup_cons]
        refine ⟨fun hmem => ?_, hnodup⟩
        exact ((hfree t).mp hmem).2 rfl
      · rw [hperm.mem_iff, List.mem_cons, hfree]
        tauto
    · -- A thread that cannot be joined.
      refine ⟨t, ⟨.RUNNABLE, Flags.zero, 0, none, some s.created, s.created⟩, true,
        ⟨?_, rfl, rfl, rfl, rfl, fun h => (by cases h), rfl, rfl, rfl, rfl, ?_, rfl, rfl, hnodup, htaken,
          hseg, hsegs, hdead, hne, rfl, rfl, rfl, rfl, rfl, rfl, rfl, rfl⟩, fun _ => rfl⟩
      · simp [startThread, addRunq, setState, setThread, initThread, Thread.zero]
      · simp [startThread, addRunq, setState, setThread, initThread]

namespace Makes

variable {s s' : St} {t : ℕ} {th : Thread} {started : Bool} (h : Makes s s' t th started)
include h

/-- The record that was written. -/
theorem thread_self : s'.thread t = th := by rw [h.thread, Function.update_self]

/-- The other records are as they were. -/
theorem thread_of_ne {u : ℕ} (hu : u ≠ t) : s'.thread u = s.thread u := by
  rw [h.thread, Function.update_of_ne hu]

/-- The other fibers are where they were. -/
theorem fiber_of_ne {f : ℕ} (hf : f ≠ s.created) : s'.fiber f = s.fiber f := by
  rw [h.fiber, Function.update_of_ne hf]

/-- The other fibers have the past that they had. -/
theorem life_of_ne {f : ℕ} (hf : f ≠ s.created) : s'.life f = s.life f := by
  rw [h.life, Function.update_of_ne hf]

/-- The other fibers are threads where they were before. -/
theorem mem_threads {f : ℕ} (hf : f ≠ s.created) : f ∈ s'.threads ↔ f ∈ s.threads := by
  rw [h.threads, List.mem_append]
  cases started <;> simp [hf]

/-- A live thread with another record stays live. -/
theorem live_of_ne (ho : s.Ownership) {u : ℕ} (hu : u ≠ t) : s'.Live u ↔ s.Live u := by
  have hid := (ho.ids u).ne
  unfold Live
  rw [h.thread_of_ne hu, h.mem_threads hid, h.life_of_ne hid, h.fiber_of_ne hid]

/-- The record is that of a live thread exactly when the thread was started. -/
theorem live_self (ho : s.Ownership) : s'.Live t ↔ started = true := by
  have hnew : s.created ∉ s.threads := fun hmem => lt_irrefl _ (ho.thread _ hmem).2.1
  unfold Live
  rw [h.thread_self, h.id, h.threads, h.life, h.fiber, Function.update_self, Function.update_self]
  cases started <;> simp [hnew]

/-- A thread that exists stays as it is. -/
theorem of_live (ho : s.Ownership) {u : ℕ} (hl : s.Live u) :
    s'.Live u ∧ s'.thread u = s.thread u ∧ s'.pcOf u = s.pcOf u := by
  have hu : u ≠ t := by
    rintro rfl
    exact h.not_live hl
  refine ⟨(h.live_of_ne ho hu).mpr hl, h.thread_of_ne hu, ?_⟩
  unfold pcOf
  rw [h.thread_of_ne hu, h.fiber_of_ne (ho.ids u).ne]

/-- The other threads keep their places. -/
theorem frame (ho : s.Ownership) : Frame s s' t := by
  refine ⟨fun u hu => h.thread_of_ne hu, fun u hu => h.live_of_ne ho hu,
    fun c _ _ _ hl _ => absurd hl h.not_live, fun u hu hl => (h.of_live ho hl).2.2, fun u hu => ?_,
    fun c u _ => by rw [h.cond_q], fun m u _ => by rw [h.mutex], ?_, ?_, by rw [h.ev],
    fun u _ _ hrun hthis _ => by rw [h.running, h.this_thread]; exact ⟨hrun, hthis⟩⟩
  · rw [h.run_q]
    cases started <;> simp [hu]
  · rw [h.ev]
    exact fun q _ hq => ⟨hq, rfl⟩
  · rw [h.ev]
    exact fun q _ _ => ⟨rfl, rfl, fun hq => hq⟩

/-- The new record is not on the sleep queue. -/
theorem sleepOk (hc : s.Core []) : s'.SleepOk := by
  obtain ⟨-, -, -, -, hoff⟩ := (hc.recs t).not_live h.not_live
  obtain ⟨S, hw, hS⟩ := hc.sleep
  have ht : t ∉ S := by
    rw [hS, hoff]
    decide
  refine ⟨S, by rw [h.heap]; exact hw.setNode ht _, fun u => (hS u).trans ?_⟩
  by_cases hu : u = t
  · rw [hu, h.thread_self, h.flags, hoff]
    rfl
  · rw [h.thread_of_ne hu]

/-- The state stays coherent. -/
theorem core (hc : s.Core []) (ho : s.Ownership) : s'.Core [] := by
  -- The record `t` belonged to nobody, so it is on no queue.
  obtain ⟨hrun, hcond, hwait, hio, -⟩ := (hc.recs t).not_live h.not_live
  have hcond' : ∀ c, t ∉ s'.cond_q c := by
    rw [h.cond_q]
    exact hcond
  have hwait' : ∀ m, t ∉ (s'.mutex m).wait_q := by
    rw [h.mutex]
    exact hwait
  have hio' : ∀ q ∈ s'.ev.io_q, (s'.ev.pollq q).thread ≠ t := by
    rw [h.ev]
    exact hio
  have hflags : (s'.thread t).flags.on_sleepq = false := by
    rw [h.thread_self, h.flags]
    rfl
  refine hc.move (h.frame ho) ?_ (fun _ h _ => h) ?_ (by rw [h.cond_q]; exact hc.cond_nodup)
    (by rw [h.mutex]; exact hc.wait_nodup) (h.sleepOk hc) (by rw [h.ev]; exact hc.ev)
  · -- The new thread, or the record that was given back.
    cases hstarted : started with
    | false =>
      subst hstarted
      refine Rec.of_not_live ?_ ?_ hcond' hwait' hio' hflags
      · rw [h.live_self ho]
        decide
      · rw [h.run_q]
        simpa using hrun
    | true =>
      subst hstarted
      have hl : s'.Live t := (h.live_self ho).mpr rfl
      have hpc : s'.pcOf t = .user (.ok 0) := by
        unfold pcOf
        rw [h.thread_self, h.id, h.fiber, Function.update_self]
      have hst : (s'.thread t).state = .RUNNABLE := by
        rw [h.thread_self, h.state]
        rfl
      refine ⟨?_, fun c => ?_, fun m => ?_, fun q hq howner => absurd howner (hio' q hq), fun hon => ?_,
        fun _ => ?_, fun _ => ?_, fun _ => ?_⟩
      · rw [h.run_q]
        simp [hl, hst]
      · simp [hcond' c, hpc, Pc.waitsOn]
      · simp [hwait' m, hpc, Pc.waitsFor]
      · rw [hflags] at hon
        cases hon
      · rw [h.thread_self, h.context, h.id]
      · rw [hpc]
        trivial
      · rw [hst]
        trivial
  · rw [h.run_q]
    refine hc.run_nodup.append ?_ ?_
    · cases started <;> simp
    · cases started <;> simp [hrun]

/-- A thread is an old one, or the new one. -/
theorem old_or_new (ho : s.Ownership) {f : ℕ} (hf : f ∈ s'.threads) :
    (f ∈ s.threads ∧ f ≠ s.created) ∨ (f = s.created ∧ started = true) := by
  rw [h.threads, List.mem_append] at hf
  rcases hf with hf | hf
  · exact Or.inl ⟨hf, (ho.thread f hf).2.1.ne⟩
  · cases started <;> simp at hf
    exact Or.inr ⟨hf, rfl⟩

/-- The new fiber has no past. -/
theorem life_self : s'.life s.created = ⟨0, 0, false⟩ := by rw [h.life, Function.update_self]

/-- The new fiber begins in the start function. -/
theorem fiber_self : s'.fiber s.created = ⟨.user (.ok 0), t⟩ := by rw [h.fiber, Function.update_self]

/-- The record of a thread that has not terminated is its own, as before. -/
theorem record (ho : s.Ownership) {f : ℕ} (hf : f ∈ s'.threads) (hex : (s'.life f).exits = 0) :
    (s'.thread (s'.fiber f).thd).id = f ∧ s'.life f = ⟨0, 0, false⟩ := by
  rcases h.old_or_new ho hf with ⟨hf, hne⟩ | ⟨rfl, -⟩
  · rw [h.life_of_ne hne] at hex ⊢
    rw [h.fiber_of_ne hne]
    obtain ⟨hid, hlife⟩ := ho.live f hf hex
    -- The record that is taken was that of no live thread.
    have hthd : (s.fiber f).thd ≠ t := by
      intro heq
      rw [heq] at hid
      exact h.not_live ⟨by rw [hid]; exact hf, by rw [hid]; exact hex, by rw [hid]; exact heq⟩
    rw [h.thread_of_ne hthd]
    exact ⟨hid, hlife⟩
  · rw [h.fiber_self, h.life_self, h.thread_self, h.id]
    exact ⟨rfl, rfl⟩

/-- The free list has stacks that nobody runs on. -/
theorem free_stack (ho : s.Ownership) {u : ℕ} (hu : u ∈ s'.free_stacks) :
    u < s'.segments ∧ u ≠ 0 ∧ ¬s'.Live u ∧ (s'.thread u).term = none ∧
      ((s'.thread u).state = .ZOMBIE ∨ (s'.thread u).state = .RUNNING) := by
  rcases (h.free u).mp hu with ⟨hu, hne⟩ | ⟨rfl, hst⟩
  · obtain ⟨hlt, h0, hdead, hrest⟩ := ho.free u hu
    rw [h.live_of_ne ho hne, h.thread_of_ne hne]
    exact ⟨hlt.trans_le h.segments.1, h0, hdead, hrest⟩
  · rw [h.live_self ho, h.thread_self, h.state, hst]
    exact ⟨h.segments.2, h.ne_zero, by decide, h.term hst, Or.inr rfl⟩

/-- No stack is lost. -/
theorem stack_cover (ho : s.Ownership) (hleave : ∀ u, ¬s.Leaving u) {u : ℕ} (hu : u < s'.segments) :
    u ∈ s'.free_stacks ∨ s'.Live u ∨ u = 0 := by
  by_cases hut : u = t
  · subst hut
    rw [h.free, h.live_self ho]
    cases started <;> simp
  · have hlt := (h.segment u hu).resolve_right hut
    rw [h.free, h.live_of_ne ho hut]
    rcases ho.cover u hlt with hfree | hl | h0 | hl
    · exact Or.inl (Or.inl ⟨hfree, hut⟩)
    · exact Or.inr (Or.inl hl)
    · exact Or.inr (Or.inr h0)
    · exact absurd hl (hleave u)

/-- Each stack has one owner, as before. -/
theorem ownership (ho : s.Ownership) (hdead : s.running ∈ s.threads → (s.life s.running).exits = 0) :
    s'.Ownership := by
  have hcreated := ho.created
  have h0 := h.thread_of_ne (Ne.symm h.ne_zero)
  have hf0 := h.fiber_of_ne (f := 0) (by omega)
  have hf1 := h.fiber_of_ne (f := 1) (by omega)
  -- A fiber that has exited does not run here, so no stack is being given up.
  have hleave : ∀ u, ¬s.Leaving u := fun u => Leaving.not_of_exits hdead
  constructor
  case idle_thread => rw [h.idle_thread, ho.idle_thread]
  case idle_id => rw [h0, ho.idle_id]
  case idle_context => rw [h0, ho.idle_context]
  case idle_term => rw [h0, ho.idle_term]
  case idle_state =>
    rw [h0]
    exact ho.idle_state
  case idle_thd => rw [hf1, ho.idle_thd]
  case idle_pc =>
    rw [hf1]
    exact ho.idle_pc
  case idle_stack => exact ho.idle_stack.trans_le h.segments.1
  case main_pc =>
    rw [hf0]
    exact ho.main_pc
  -- The number of the new fiber is fresh.
  case nodup =>
    have hnew : s.created ∉ s.threads := fun hmem => (ho.thread _ hmem).2.1.ne rfl
    rw [h.threads]
    refine ho.nodup.append ?_ ?_
    · cases started <;> simp
    · cases started <;> simp [hnew]
  -- An old fiber keeps its thread, and the new one gets the stack `t`.
  case thread =>
    intro f hf
    rcases h.old_or_new ho hf with ⟨hf, hne⟩ | ⟨rfl, -⟩
    · obtain ⟨h2, hlt, hthd⟩ := ho.thread f hf
      rw [h.created, h.fiber_of_ne hne]
      exact ⟨h2, by omega, hthd.trans_le h.segments.1⟩
    · rw [h.created, h.fiber_self]
      exact ⟨hcreated, Nat.lt_succ_self _, h.segments.2⟩
  case live => exact fun f hf hex => h.record ho hf hex
  case dead =>
    intro f hf hex
    rcases h.old_or_new ho hf with ⟨hf, hne⟩ | ⟨rfl, -⟩
    · rw [h.life_of_ne hne] at hex ⊢
      rw [h.fiber_of_ne hne, h.running]
      exact Or.inl ((ho.dead f hf hex).resolve_right fun hc => hleave _ hc.2.choose_spec)
    · rw [h.life_self] at hex
      exact absurd rfl hex
  -- The record on `t` is overwritten, whoever had it before.
  case ids =>
    intro u
    rw [h.created]
    by_cases hu : u = t
    · rw [hu, h.thread_self, h.id]
      exact Nat.lt_succ_self _
    · rw [h.thread_of_ne hu]
      exact (ho.ids u).trans (Nat.lt_succ_self _)
  case created =>
    rw [h.created]
    omega
  case free_nodup => exact h.free_nodup
  case free => exact fun u hu => h.free_stack ho hu
  -- A new stack belongs to the new thread, or went back to the free list.
  case cover =>
    intro u hu
    rcases h.stack_cover ho hleave hu with hfree | hl | hzero
    · exact Or.inl hfree
    · exact Or.inr (Or.inl hl)
    · exact Or.inr (Or.inr (Or.inl hzero))
  case primordial =>
    intro u hl
    by_cases hut : u = t
    · rw [hut, h.thread_self, h.flags]
      rfl
    · rw [h.thread_of_ne hut]
      exact ho.primordial u ((h.live_of_ne ho hut).mp hl)

/-- The mutexes, and the threads that wait for them, stay as they are. -/
theorem lockFrame (ho : s.Ownership) : LockFrame s s' := by
  refine ⟨h.mutex, ⟨[], h.log, by simp⟩, fun u m hl hpc => ?_, fun u m hl hpc => ?_⟩
  · obtain ⟨hl', hth, hpc'⟩ := h.of_live ho hl
    rw [hth, hpc']
    exact ⟨hl', hpc, fun h => h, fun h => Or.inl h, fun h => h⟩
  · by_cases hu : u = t
    · subst hu
      unfold pcOf at hpc
      rw [h.thread_self, h.id, h.fiber, Function.update_self] at hpc
      cases hpc
    · have hl := (h.live_of_ne ho hu).mp hl
      rw [(h.of_live ho hl).2.2] at hpc
      exact ⟨hl, hpc⟩

/-- A thread that runs goes on running. -/
theorem runs (ho : s.Ownership) {u : ℕ} (hr : s.Runs u) : s'.Runs u := by
  obtain ⟨hl, hth, -⟩ := h.of_live ho hr.live
  refine ⟨hl, ?_, ?_, ?_⟩
  · rw [h.running, hth, hr.running]
  · rw [hth, hr.state]
  · rw [h.this_thread, hr.this]

end Makes

end StWin.St
