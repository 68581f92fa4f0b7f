import StWin.Sched.Create

/-!
# Termination

A start function returns, and `_st_thread_main` calls `st_thread_exit`. The switches in it go to the
fiber that runs, so the call returns to `_st_thread_main`, which swaps out to `main` for good. From
the entry on the thread is not live, and its record is on no queue but, if it is joinable, the zombie
queue. A thread that is not joinable releases its stack at once, and a joinable one after the first
switch, in `Frees`. That is all as long as nobody waits in `st_thread_join`: a joiner would put the
record back on the run queue.
-/

namespace StWin.St

/-- From `s` to `s'` the running thread `t` has gone through `st_thread_exit`, up to its first
switch. -/
structure Exits (s s' : St) (t : ℕ) (retval : ℤ) (joinable : Bool) : Prop where
  term : (s.thread t).term.isSome = joinable
  thread : s'.thread = Function.update s.thread t
    { s.thread t with retval := retval, state := .ZOMBIE }
  fiber : s'.fiber = Function.update s.fiber s.running
    { s.fiber s.running with pc := if joinable then .exitTerm t false else .exitEnd false }
  life : s'.life = Function.update s.life s.running ⟨1, if joinable then 0 else 1, false⟩
  free : s'.free_stacks.Perm (if joinable then s.free_stacks else t :: s.free_stacks)
  active_count : s'.active_count = s.active_count - 1
  zombie_q : s'.zombie_q = if joinable then s.zombie_q ++ [t] else s.zombie_q
  running : s'.running = s.running
  this_thread : s'.this_thread = s.this_thread
  threads : s'.threads = s.threads
  segments : s'.segments = s.segments
  created : s'.created = s.created
  idle_thread : s'.idle_thread = s.idle_thread
  run_q : s'.run_q = s.run_q
  cond_q : s'.cond_q = s.cond_q
  mutex : s'.mutex = s.mutex
  ev : s'.ev = s.ev
  heap : s'.heap = s.heap
  log : s'.log = s.log

/-- A switch to the fiber that runs. -/
theorem switchContext_self {s : St} {t : ℕ} (h : (s.thread t).context = some s.running) :
    s.switchContext t = s := by
  unfold switchContext
  rw [h]

/-- Nobody waits for `t` in `st_thread_join`. -/
def Unjoined (s : St) (t : ℕ) : Prop :=
  match (s.thread t).term with
  | some c => s.cond_q c = []
  | none => True

instance (s : St) (t : ℕ) : Decidable (s.Unjoined t) :=
  match h : (s.thread t).term with
  | some c => decidable_of_iff (s.cond_q c = []) (by rw [Unjoined, h])
  | none => .isTrue (by rw [Unjoined, h]; trivial)

/-- Nobody waits on the termination condition variable. -/
theorem Unjoined.cond_q {s : St} {t : ℕ} (h : s.Unjoined t) {c : Cond}
    (hc : (s.thread t).term = some c) : s.cond_q c = [] := by
  unfold Unjoined at h
  rw [hc] at h
  exact h

/-- `st_thread_exit` of the running thread, up to its first switch or to its end. -/
theorem threadExit_exits {s : St} {t : ℕ} (hg : s.Good) (hr : s.Runs t) (hfree : s.Unjoined t)
    (retval : ℤ) : ∃ s', s.threadExit retval false = some s' ∧
      Exits s s' t retval (s.thread t).term.isSome := by
  have hid : (s.thread t).id = s.running := hr.running.symm
  have hlife : s.life s.running = ⟨0, 0, false⟩ := by
    rw [hr.running]
    exact (hg.own.live _ hr.live.1 hr.live.2.1).2
  have hprim := hg.own.primordial t hr.live
  have hcontext : (s.thread t).context = some s.running := by
    rw [(hg.core.recs t).context hr.live, hid]
  have hperm := s.stackFree_perm t
  unfold threadExit
  rw [hr.this]
  dsimp only
  generalize hs₁ : St.setState _ t .ZOMBIE = s₁
  have hth : s₁.thread = Function.update s.thread t
      { s.thread t with retval := retval, state := .ZOMBIE } := by
    rw [← hs₁]
    simp [setState, setThread, setLife]
  have hlife₁ : s₁.life = Function.update s.life s.running ⟨1, 0, false⟩ := by
    rw [← hs₁]
    simp [setState, setThread, setLife, hid, hlife]
  have hself : s₁.thread t = { s.thread t with retval := retval, state := .ZOMBIE } := by
    rw [hth, Function.update_self]
  have hterm₁ : (s₁.thread t).term = (s.thread t).term := by rw [hself]
  have hprim₁ : (s₁.thread t).flags.primordial = false := by rw [hself]; exact hprim
  have hid₁ : (s₁.thread t).id = s.running := by rw [hself]; exact hid
  have hcontext₁ : (s₁.thread t).context = some s.running := by rw [hself]; exact hcontext
  rw [hterm₁]
  cases hterm : (s.thread t).term with
  | none =>
    refine ⟨_, rfl, ?_⟩
    unfold exitFree
    dsimp only
    rw [hprim₁, if_neg (by decide), hid₁]
    generalize hs₂ : St.setPc _ (.exitEnd false) = s₂
    rw [switchContext_self (by rw [← hs₂, ← hs₁] at *; exact hcontext₁)]
    refine ⟨by rw [hterm], by rw [← hs₂]; exact hth, by rw [← hs₂, ← hs₁]; rfl, ?_, ?_,
      by rw [← hs₂, ← hs₁]; rfl, by rw [← hs₂, ← hs₁]; rfl, by rw [← hs₂, ← hs₁]; rfl,
      by rw [← hs₂, ← hs₁]; rfl, by rw [← hs₂, ← hs₁]; rfl, by rw [← hs₂, ← hs₁]; rfl,
      by rw [← hs₂, ← hs₁]; rfl, by rw [← hs₂, ← hs₁]; rfl, by rw [← hs₂, ← hs₁]; rfl,
      by rw [← hs₂, ← hs₁]; rfl, by rw [← hs₂, ← hs₁]; rfl, by rw [← hs₂, ← hs₁]; rfl,
      by rw [← hs₂, ← hs₁]; rfl, by rw [← hs₂, ← hs₁]; rfl⟩
    · rw [← hs₂]
      simp [setPc, setLife, stackFree, hlife₁]
    · rw [← hs₂, ← hs₁]
      exact hperm
  | some c =>
    -- The wait queue is empty, so the signal wakes nobody.
    have hq : s₁.cond_q c = [] := by
      rw [← hs₁]
      exact hfree.cond_q hterm
    have hsignal : ∀ s₂ : St, s₂.cond_q = s₁.cond_q → s₂.condSignal c false = some s₂ := by
      intro s₂ h
      unfold condSignal
      rw [h, hq]
      rfl
    dsimp only
    rw [hsignal { s₁ with zombie_q := s₁.zombie_q ++ [t] } rfl]
    refine ⟨_, rfl, ?_⟩
    generalize hs₂ : St.setPc _ (.exitTerm t false) = s₂
    rw [switchContext_self (by rw [← hs₂, ← hs₁] at *; exact hcontext₁)]
    refine ⟨by rw [hterm], by rw [← hs₂]; exact hth, by rw [← hs₂, ← hs₁]; rfl,
      by rw [← hs₂]; exact hlife₁, by rw [← hs₂, ← hs₁]; rfl,
      by rw [← hs₂, ← hs₁]; rfl, by rw [← hs₂, ← hs₁]; rfl, by rw [← hs₂, ← hs₁]; rfl,
      by rw [← hs₂, ← hs₁]; rfl, by rw [← hs₂, ← hs₁]; rfl, by rw [← hs₂, ← hs₁]; rfl,
      by rw [← hs₂, ← hs₁]; rfl, by rw [← hs₂, ← hs₁]; rfl, by rw [← hs₂, ← hs₁]; rfl,
      by rw [← hs₂, ← hs₁]; rfl, by rw [← hs₂, ← hs₁]; rfl, by rw [← hs₂, ← hs₁]; rfl,
      by rw [← hs₂, ← hs₁]; rfl, by rw [← hs₂, ← hs₁]; rfl⟩

/-- From `s` to `s'` the running fiber, whose thread has the record `t`, goes through a part of
`st_thread_exit`: the other records and fibers are as they were. -/
structure Ends (s s' : St) (t : ℕ) : Prop where
  thread : ∀ u, u ≠ t → s'.thread u = s.thread u
  id : (s'.thread t).id = (s.thread t).id
  fiber : ∀ f, f ≠ s.running → s'.fiber f = s.fiber f
  thd : (s'.fiber s.running).thd = (s.fiber s.running).thd
  life : ∀ f, f ≠ s.running → s'.life f = s.life f
  exits : (s'.life s.running).exits ≠ 0
  threads : s'.threads = s.threads
  segments : s'.segments = s.segments
  created : s'.created = s.created
  idle_thread : s'.idle_thread = s.idle_thread

namespace Ends

variable {s s' : St} {t : ℕ} (h : Ends s s' t)
include h

/-- The records keep their fibers. -/
theorem id_eq (u : ℕ) : (s'.thread u).id = (s.thread u).id := by
  by_cases hu : u = t
  · rw [hu, h.id]
  · rw [h.thread u hu]

/-- The fibers keep their records. -/
theorem thd_eq (f : ℕ) : (s'.fiber f).thd = (s.fiber f).thd := by
  by_cases hf : f = s.running
  · rw [hf, h.thd]
  · rw [h.fiber f hf]

/-- What is left to show: where the fiber that ends is, and which stacks are free. -/
theorem ownership (ho : s.Ownership) (hne : t ≠ 0) (h2 : 2 ≤ s.running)
    (hdead : (s'.life s.running = ⟨1, 1, false⟩ ∧ ((s'.fiber s.running).pc = .out ∨
      ((s'.fiber s.running).pc = .exitEnd false ∧ s'.running = s.running))) ∨
      (s'.running = s.running ∧ ∃ t, s'.Leaving t))
    (hnodup : s'.free_stacks.Nodup)
    (hfree : ∀ u ∈ s'.free_stacks, u < s.segments ∧ u ≠ 0 ∧ ¬s'.Live u ∧ (s'.thread u).term = none ∧
      ((s'.thread u).state = .ZOMBIE ∨ (s'.thread u).state = .RUNNING))
    (hcover : ∀ u, u < s.segments → u ∈ s'.free_stacks ∨ s'.Live u ∨ u = 0 ∨ s'.Leaving u)
    (hlive : ∀ u, s'.Live u → u ≠ t ∧ s.Live u) : s'.Ownership := by
  -- The records and the fibers of the idle thread and of `main` are not those that end.
  have h0 := h.thread 0 (Ne.symm hne)
  have hf0 := h.fiber 0 (by omega)
  have hf1 := h.fiber 1 (by omega)
  constructor
  · rw [h.idle_thread, ho.idle_thread]
  · rw [h0, ho.idle_id]
  · rw [h0, ho.idle_context]
  · rw [h0, ho.idle_term]
  · rw [h0]
    exact ho.idle_state
  · rw [hf1, ho.idle_thd]
  · rw [hf1]
    exact ho.idle_pc
  · rw [h.segments]
    exact ho.idle_stack
  · rw [hf0]
    exact ho.main_pc
  · rw [h.threads]
    exact ho.nodup
  · intro f hf
    rw [h.threads] at hf
    rw [h.created, h.thd_eq, h.segments]
    exact ho.thread f hf
  · intro f hf hex
    rw [h.threads] at hf
    have hfr : f ≠ s.running := by
      rintro rfl
      exact h.exits hex
    rw [h.life f hfr] at hex ⊢
    rw [h.thd_eq, h.id_eq]
    exact ho.live f hf hex
  · intro f hf hex
    rw [h.threads] at hf
    by_cases hfr : f = s.running
    · rw [hfr]
      exact hdead
    · -- A fiber that has ended before has swapped out.
      rw [h.life f hfr] at hex ⊢
      rw [h.fiber f hfr]
      obtain ⟨hlife, hpc⟩ := (ho.dead f hf hex).resolve_right fun hc => hfr hc.1.symm
      exact Or.inl ⟨hlife, Or.inl (hpc.resolve_right fun hc => hfr hc.2.symm)⟩
  · intro u
    rw [h.id_eq, h.created]
    exact ho.ids u
  · rw [h.created]
    exact ho.created
  · exact hnodup
  · rw [h.segments]
    exact hfree
  · rw [h.segments]
    exact hcover
  · intro u hu
    obtain ⟨hut, hl⟩ := hlive u hu
    rw [h.thread u hut]
    exact ho.primordial u hl

end Ends

namespace Exits

variable {s s' : St} {t : ℕ} {retval : ℤ} {joinable : Bool} (h : Exits s s' t retval joinable)
include h

/-- The thread has entered `st_thread_exit` once, and its stack is free unless it is joinable. -/
theorem life_running : s'.life s.running = ⟨1, if joinable then 0 else 1, false⟩ := by
  rw [h.life, Function.update_self]

/-- In particular, one thread has ended. -/
theorem ends : Ends s s' t where
  thread u hu := by rw [h.thread, Function.update_of_ne hu]
  id := by rw [h.thread, Function.update_self]
  fiber f hf := by rw [h.fiber, Function.update_of_ne hf]
  thd := by rw [h.fiber, Function.update_self]
  life f hf := by rw [h.life, Function.update_of_ne hf]
  exits := by
    rw [h.life_running]
    exact Nat.one_ne_zero
  threads := h.threads
  segments := h.segments
  created := h.created
  idle_thread := h.idle_thread

/-- The other records are as they were. -/
theorem thread_of_ne {u : ℕ} (hu : u ≠ t) : s'.thread u = s.thread u := h.ends.thread u hu

/-- The records keep their fibers. -/
theorem id_eq (u : ℕ) : (s'.thread u).id = (s.thread u).id := h.ends.id_eq u

/-- The fibers keep their records. -/
theorem thd (f : ℕ) : (s'.fiber f).thd = (s.fiber f).thd := h.ends.thd_eq f

/-- The other fibers stay where they are. -/
theorem fiber_of_ne {f : ℕ} (hf : f ≠ s.running) : s'.fiber f = s.fiber f := h.ends.fiber f hf

/-- Nothing happens to the other threads. -/
theorem life_of_ne {f : ℕ} (hf : f ≠ s.running) : s'.life f = s.life f := h.ends.life f hf

/-- The stack is released at once, if the thread is not joinable. -/
theorem mem_free (u : ℕ) :
    u ∈ s'.free_stacks ↔ u ∈ s.free_stacks ∨ (u = t ∧ joinable = false) := by
  rw [h.free.mem_iff]
  cases joinable <;> simp [or_comm]

/-- The thread is not live any more. -/
theorem not_live (hr : s.Runs t) : ¬s'.Live t := by
  rintro ⟨-, hex, -⟩
  rw [h.id_eq, ← hr.running, h.life_running] at hex
  cases hex

/-- The others stay alive. -/
theorem live_of_ne (hr : s.Runs t) {u : ℕ} (hu : u ≠ t) : s'.Live u ↔ s.Live u := by
  by_cases hid : (s.thread u).id = s.running
  · -- The record of somebody else with the same fiber is not live.
    refine ⟨fun hl => ?_, fun hl => absurd hid (hr.ne_running u hu hl)⟩
    have hex := hl.2.1
    rw [h.id_eq, hid, h.life_running] at hex
    cases hex
  · unfold Live
    rw [h.id_eq, h.threads, h.life_of_ne hid, h.thd]

/-- The other live threads continue where they did. -/
theorem pcOf_of_ne (hr : s.Runs t) {u : ℕ} (hu : u ≠ t) (hl : s.Live u) : s'.pcOf u = s.pcOf u := by
  unfold pcOf
  rw [h.id_eq, h.fiber_of_ne (hr.ne_running u hu hl)]

/-- The coherence of records and queues is kept. -/
theorem core (hg : s.Good) (hr : s.Runs t) {r : Res} (hpc : s.pcOf t = .user r)
    (hfree : s.Unjoined t) : s'.Core [] := by
  obtain ⟨hcond, hwait, hio⟩ := hg.core.unlinked hpc
  have hoff := hg.core.off_sleepq hr
  have hnot : t ∉ s.run_q := by
    intro hmem
    have := ((hg.core.recs t).run_q.mp hmem).2
    rw [hr.state] at this
    cases this
  have hframe : Frame s s' t := by
    refine ⟨fun u hu => h.thread_of_ne hu, fun u hu => h.live_of_ne hr hu, fun c u _ hq _ ht => ?_,
      fun u hu hl => h.pcOf_of_ne hr hu hl, fun u _ => by rw [h.run_q], fun c u _ => by rw [h.cond_q],
      fun m u _ => by rw [h.mutex], ?_, ?_, by rw [h.ev], fun u hu hl hrun _ _ => ?_⟩
    · rw [hfree.cond_q ht] at hq
      cases hq
    · rw [h.ev]
      exact fun q _ hq => ⟨hq, rfl⟩
    · rw [h.ev]
      exact fun q _ _ => ⟨rfl, rfl, fun hq => hq⟩
    · exact absurd hrun.symm (hr.ne_running u hu hl)
  refine hg.core.move hframe ?_ (fun _ h _ => h) (by rw [h.run_q]; exact hg.core.run_nodup)
    (by rw [h.cond_q]; exact hg.core.cond_nodup) (by rw [h.mutex]; exact hg.core.wait_nodup) ?_
    (by rw [h.ev]; exact hg.core.ev)
  · refine Rec.of_not_live (h.not_live hr) (by rw [h.run_q]; exact hnot) (by rw [h.cond_q]; exact hcond)
      (by rw [h.mutex]; exact hwait) (by rw [h.ev]; exact hio) ?_
    rw [h.thread, Function.update_self]
    exact hoff
  · refine hg.core.sleep.congr h.heap fun u => ?_
    rw [h.thread]
    by_cases hu : u = t
    · rw [hu, Function.update_self]
    · rw [Function.update_of_ne hu]

/-- A joinable thread is in the middle of `st_thread_exit` then. -/
theorem leaving (hg : s.Good) (hr : s.Runs t) (hjoin : joinable = true) : s'.Leaving t := by
  have hself : s'.thread t = { s.thread t with retval := retval, state := .ZOMBIE } := by
    rw [h.thread, Function.update_self]
  refine ⟨?_, ?_, ?_, ?_, ?_, ?_, ?_, ?_, ?_⟩
  · rw [h.running, h.threads, hr.running]
    exact hr.live.1
  · rw [h.running, h.life_running, hjoin]
    rfl
  · rw [h.running, h.fiber, Function.update_self, hjoin]
    rfl
  · rw [h.running, h.thd, hr.running]
    exact hr.live.2.2
  · rw [h.running, h.id_eq, hr.running]
  · rw [h.running, hself, hr.running]
    exact (hg.core.recs t).context hr.live
  · rw [hself]
    exact hg.own.primordial t hr.live
  · rw [hself]
    have hterm := h.term
    rw [hjoin] at hterm
    exact Option.isSome_iff_exists.mp hterm
  · rw [hself]

/-- Records, fibers and stacks still belong together. -/
theorem ownership (hg : s.Good) (hr : s.Runs t) : s'.Ownership := by
  have ho := hg.own
  have hne := ho.live_ne_zero hr.live
  have hnot : t ∉ s.free_stacks := fun hin => (ho.free t hin).2.2.1 hr.live
  refine h.ends.ownership ho hne (hr.two_le ho) ?_ ?_ (fun u hu => ?_) (fun u hu => ?_) fun u hl => ?_
  · -- A joined thread waits for its joiner with its stack, and any other one is finished.
    cases hjoin : joinable with
    | true => exact Or.inr ⟨h.running, t, h.leaving hg hr hjoin⟩
    | false =>
      refine Or.inl ⟨?_, Or.inr ⟨?_, h.running⟩⟩
      · rw [h.life_running, hjoin]
        rfl
      · rw [h.fiber, Function.update_self, hjoin]
        rfl
  · rw [h.free.nodup_iff]
    split_ifs
    · exact ho.free_nodup
    · rw [List.nodup_cons]
      exact ⟨hnot, ho.free_nodup⟩
  · -- The only stack that is new on the free list is that of the thread itself.
    rw [h.mem_free] at hu
    by_cases hut : u = t
    · subst hut
      have hjoin := (hu.resolve_left hnot).2
      have hterm : (s.thread u).term = none := by
        rw [← Option.not_isSome_iff_eq_none, h.term, hjoin]
        decide
      rw [h.thread, Function.update_self]
      exact ⟨ho.live_lt hr.live, hne, h.not_live hr, hterm, Or.inl rfl⟩
    · rw [h.live_of_ne hr hut, h.thread_of_ne hut]
      exact ho.free u (hu.resolve_right fun hc => hut hc.1)
  · -- Nobody loses a stack but the thread itself, which has given it back or keeps it until the
    -- join.
    rw [h.mem_free]
    by_cases hut : u = t
    · cases hjoin : joinable with
      | true =>
        rw [hut]
        exact Or.inr (Or.inr (Or.inr (h.leaving hg hr hjoin)))
      | false => exact Or.inl (Or.inr ⟨hut, rfl⟩)
    · rw [h.live_of_ne hr hut]
      rcases ho.cover u hu with hfree | hl | h0 | hleave
      · exact Or.inl (Or.inl hfree)
      · exact Or.inr (Or.inl hl)
      · exact Or.inr (Or.inr (Or.inl h0))
      · exact absurd hleave (Leaving.not_of_exits hr.not_dead)
  · have hut : u ≠ t := by
      rintro rfl
      exact h.not_live hr hl
    exact ⟨hut, (h.live_of_ne hr hut).mp hl⟩

/-- The invariant is kept: the thread has had its turn for the last time. -/
theorem good (hg : s.Good) (hr : s.Runs t) {r : Res} (hpc : s.pcOf t = .user r)
    (hfree : s.Unjoined t) : s'.Good := by
  refine ⟨h.core hg hr hpc hfree, h.ownership hg hr, ?_⟩
  have hthis : s'.this_thread = some t := by rw [h.this_thread, hr.this]
  cases hjoin : joinable with
  | true => exact Turn.leaving t (h.leaving hg hr hjoin) hthis
  | false =>
    have hmem : s'.running ∈ s'.threads := by
      rw [h.running, h.threads, hr.running]
      exact hr.live.1
    refine Turn.exiting t hmem ?_ ?_ hthis ?_
    · rw [h.running, h.life_running]
      exact Nat.one_ne_zero
    · rw [h.running, h.fiber, Function.update_self, hjoin]
      rfl
    · rw [h.thread, Function.update_self]

/-- The mutexes are not touched. -/
theorem lockFrame (hr : s.Runs t) {r : Res} (hpc : s.pcOf t = .user r) : LockFrame s s' := by
  refine ⟨h.mutex, ⟨[], h.log, by simp⟩, fun u m hl hu => ?_, fun u m hl hu => ?_⟩
  · have hut : u ≠ t := by
      rintro rfl
      rw [hpc] at hu
      cases hu
    rw [h.thread_of_ne hut, h.pcOf_of_ne hr hut hl]
    exact ⟨(h.live_of_ne hr hut).mpr hl, hu, fun h => h, fun h => Or.inl h, fun h => h⟩
  · have hut : u ≠ t := by
      rintro rfl
      exact h.not_live hr hl
    have hl := (h.live_of_ne hr hut).mp hl
    rw [h.pcOf_of_ne hr hut hl] at hu
    exact ⟨hl, hu⟩

end Exits

/-! ## Release of a joinable thread -/

/-- From `s` to `s'` the running fiber, which is leaving, has gone on from the first switch of
`st_thread_exit` to the last. -/
structure Frees (s s' : St) (t : ℕ) : Prop where
  thread : s'.thread = Function.update s.thread t { s.thread t with term := none }
  fiber : s'.fiber = Function.update s.fiber s.running
    { s.fiber s.running with pc := .exitEnd false }
  life : s'.life = Function.update s.life s.running ⟨1, 1, false⟩
  free : s'.free_stacks.Perm (t :: s.free_stacks)
  log : ∃ l, s'.log = l ++ s.log ∧ ∀ n ∈ l, n.isMutex = false
  active_count : s'.active_count = s.active_count
  running : s'.running = s.running
  this_thread : s'.this_thread = s.this_thread
  threads : s'.threads = s.threads
  segments : s'.segments = s.segments
  created : s'.created = s.created
  idle_thread : s'.idle_thread = s.idle_thread
  zombie_q : s'.zombie_q = s.zombie_q
  run_q : s'.run_q = s.run_q
  cond_q : s'.cond_q = s.cond_q
  mutex : s'.mutex = s.mutex
  ev : s'.ev = s.ev
  heap : s'.heap = s.heap

/-- `st_thread_exit` of a joinable thread, after its first switch. -/
theorem exitTermEnd_frees {s : St} {t : ℕ} (hl : s.Leaving t) :
    ∃ s', s.exitTermEnd t false = some s' ∧ Frees s s' t := by
  obtain ⟨c, hterm⟩ := hl.term
  have hperm := s.stackFree_perm t
  unfold exitTermEnd
  rw [hterm]
  dsimp only
  -- Whether the condition variable is destroyed or not, only the log tells.
  obtain ⟨l, hdestroy, hnotes⟩ : ∃ l, s.condDestroy c = { s with log := l ++ s.log } ∧
      ∀ n ∈ l, Note.isMutex n = false := by
    unfold condDestroy
    split_ifs
    · exact ⟨[], rfl, by simp⟩
    · exact ⟨[.condFree c], rfl, by simp [Note.isMutex]⟩
  rw [hdestroy]
  generalize hs₁ : St.setThread _ t _ = s₁
  have hth : s₁.thread = Function.update s.thread t { s.thread t with term := none } := by
    rw [← hs₁]
    rfl
  have hself : s₁.thread t = { s.thread t with term := none } := by rw [hth, Function.update_self]
  have hprim : (s₁.thread t).flags.primordial = false := by rw [hself]; exact hl.primordial
  have hid : (s₁.thread t).id = s.running := by rw [hself]; exact hl.id
  have hcontext : (s₁.thread t).context = some s.running := by rw [hself]; exact hl.context
  refine ⟨_, rfl, ?_⟩
  unfold exitFree
  dsimp only
  rw [hprim, if_neg (by decide), hid]
  generalize hs₂ : St.setPc _ (.exitEnd false) = s₂
  rw [switchContext_self (by rw [← hs₂, ← hs₁] at *; exact hcontext)]
  refine ⟨by rw [← hs₂]; exact hth, by rw [← hs₂, ← hs₁]; rfl, ?_, by rw [← hs₂, ← hs₁]; exact hperm,
    ⟨l, by rw [← hs₂, ← hs₁]; rfl, hnotes⟩, by rw [← hs₂, ← hs₁]; rfl, by rw [← hs₂, ← hs₁]; rfl,
    by rw [← hs₂, ← hs₁]; rfl, by rw [← hs₂, ← hs₁]; rfl, by rw [← hs₂, ← hs₁]; rfl,
    by rw [← hs₂, ← hs₁]; rfl, by rw [← hs₂, ← hs₁]; rfl, by rw [← hs₂, ← hs₁]; rfl,
    by rw [← hs₂, ← hs₁]; rfl, by rw [← hs₂, ← hs₁]; rfl, by rw [← hs₂, ← hs₁]; rfl,
    by rw [← hs₂, ← hs₁]; rfl, by rw [← hs₂, ← hs₁]; rfl⟩
  rw [← hs₂, ← hs₁]
  simp [setPc, setLife, stackFree, setThread, hl.life]

namespace Frees

variable {s s' : St} {t : ℕ} (h : Frees s s' t)
include h

/-- The thread has entered `st_thread_exit` once, and its stack is free. -/
theorem life_running : s'.life s.running = ⟨1, 1, false⟩ := by
  rw [h.life, Function.update_self]

/-- In particular, one thread has ended. -/
theorem ends : Ends s s' t where
  thread u hu := by rw [h.thread, Function.update_of_ne hu]
  id := by rw [h.thread, Function.update_self]
  fiber f hf := by rw [h.fiber, Function.update_of_ne hf]
  thd := by rw [h.fiber, Function.update_self]
  life f hf := by rw [h.life, Function.update_of_ne hf]
  exits := by
    rw [h.life_running]
    exact Nat.one_ne_zero
  threads := h.threads
  segments := h.segments
  created := h.created
  idle_thread := h.idle_thread

/-- The other records are as they were. -/
theorem thread_of_ne {u : ℕ} (hu : u ≠ t) : s'.thread u = s.thread u := h.ends.thread u hu

/-- The records keep their fibers. -/
theorem id_eq (u : ℕ) : (s'.thread u).id = (s.thread u).id := h.ends.id_eq u

/-- The fibers keep their records. -/
theorem thd (f : ℕ) : (s'.fiber f).thd = (s.fiber f).thd := h.ends.thd_eq f

/-- The other fibers stay where they are. -/
theorem fiber_of_ne {f : ℕ} (hf : f ≠ s.running) : s'.fiber f = s.fiber f := h.ends.fiber f hf

/-- Nothing happens to the other threads. -/
theorem life_of_ne {f : ℕ} (hf : f ≠ s.running) : s'.life f = s.life f := h.ends.life f hf

/-- One more stack is on the free list. -/
theorem mem_free (u : ℕ) : u ∈ s'.free_stacks ↔ u = t ∨ u ∈ s.free_stacks := by
  rw [h.free.mem_iff, List.mem_cons]

/-- Nobody who was live has ended, since the thread was not live any more. -/
theorem live (hl : s.Leaving t) (u : ℕ) : s'.Live u ↔ s.Live u := by
  unfold Live
  rw [h.id_eq, h.threads, h.thd]
  by_cases hid : (s.thread u).id = s.running
  · rw [hid, h.life_running, hl.life]
  · rw [h.life_of_ne hid]

/-- The live threads continue where they did. -/
theorem pcOf (hl : s.Leaving t) {u : ℕ} (hu : s.Live u) : s'.pcOf u = s.pcOf u := by
  unfold St.pcOf
  rw [h.id_eq, h.fiber_of_ne (hl.ne_running hu)]

/-- The coherence of records and queues is kept. -/
theorem core (hg : s.Good) (hl : s.Leaving t) : s'.Core [] := by
  obtain ⟨h1, h2, h3, h4, h5⟩ := (hg.core.recs t).not_live hl.not_live
  have hframe : Frame s s' t := by
    refine ⟨fun u hu => h.thread_of_ne hu, fun u _ => h.live hl u,
      fun c _ _ _ hlive _ => absurd hlive hl.not_live, fun u _ hu => h.pcOf hl hu,
      fun u _ => by rw [h.run_q], fun c u _ => by rw [h.cond_q], fun m u _ => by rw [h.mutex], ?_, ?_,
      by rw [h.ev], fun u _ hu hrun _ _ => absurd hrun.symm (hl.ne_running hu)⟩
    · rw [h.ev]
      exact fun q _ hq => ⟨hq, rfl⟩
    · rw [h.ev]
      exact fun q _ _ => ⟨rfl, rfl, fun hq => hq⟩
  refine hg.core.move hframe ?_ (fun _ h _ => h) (by rw [h.run_q]; exact hg.core.run_nodup)
    (by rw [h.cond_q]; exact hg.core.cond_nodup) (by rw [h.mutex]; exact hg.core.wait_nodup) ?_
    (by rw [h.ev]; exact hg.core.ev)
  · refine Rec.of_not_live (fun hlive => hl.not_live ((h.live hl t).mp hlive))
      (by rw [h.run_q]; exact h1) (by rw [h.cond_q]; exact h2) (by rw [h.mutex]; exact h3)
      (by rw [h.ev]; exact h4) ?_
    rw [h.thread, Function.update_self]
    exact h5
  · refine hg.core.sleep.congr h.heap fun u => ?_
    rw [h.thread]
    by_cases hu : u = t
    · rw [hu, Function.update_self]
    · rw [Function.update_of_ne hu]

/-- Records, fibers and stacks still belong together. -/
theorem ownership (hg : s.Good) (hl : s.Leaving t) : s'.Ownership := by
  have ho := hg.own
  obtain ⟨c, hterm⟩ := hl.term
  obtain ⟨h2, -, hlt⟩ := ho.thread _ hl.mem
  rw [hl.thd] at hlt
  have hne : t ≠ 0 := by
    rintro rfl
    rw [ho.idle_term] at hterm
    cases hterm
  have hnot : t ∉ s.free_stacks := by
    intro hin
    rw [(ho.free t hin).2.2.2.1] at hterm
    cases hterm
  refine h.ends.ownership ho hne h2 ?_ ?_ (fun u hu => ?_) (fun u hu => ?_) fun u hu => ?_
  · refine Or.inl ⟨h.life_running, Or.inr ⟨?_, h.running⟩⟩
    rw [h.fiber, Function.update_self]
  · rw [h.free.nodup_iff, List.nodup_cons]
    exact ⟨hnot, ho.free_nodup⟩
  · rw [h.mem_free] at hu
    rw [h.live hl]
    by_cases hut : u = t
    · subst hut
      rw [h.thread, Function.update_self]
      exact ⟨hlt, hne, hl.not_live, rfl, Or.inl hl.state⟩
    · rw [h.thread_of_ne hut]
      exact ho.free u (hu.resolve_left hut)
  · rw [h.mem_free, h.live hl]
    rcases ho.cover u hu with hfree | hlive | hzero | hleave
    · exact Or.inl (Or.inr hfree)
    · exact Or.inr (Or.inl hlive)
    · exact Or.inr (Or.inr (Or.inl hzero))
    · exact Or.inl (Or.inl (hleave.thd.symm.trans hl.thd))
  · have hu := (h.live hl u).mp hu
    refine ⟨?_, hu⟩
    rintro rfl
    exact hl.not_live hu

/-- The invariant is kept. -/
theorem good (hg : s.Good) (hl : s.Leaving t) (hthis : s.this_thread = some t) : s'.Good := by
  refine ⟨h.core hg hl, h.ownership hg hl, Turn.exiting t ?_ ?_ ?_ (h.this_thread.trans hthis) ?_⟩
  · rw [h.running, h.threads]
    exact hl.mem
  · rw [h.running, h.life_running]
    exact Nat.one_ne_zero
  · rw [h.running, h.fiber, Function.update_self]
  · rw [h.thread, Function.update_self]
    exact hl.state

/-- The mutexes are not touched. -/
theorem lockFrame (hl : s.Leaving t) : LockFrame s s' := by
  refine ⟨h.mutex, h.log, fun u m hu hpc => ?_, fun u m hu hpc => ?_⟩
  · have hut : u ≠ t := by
      rintro rfl
      exact hl.not_live hu
    rw [h.thread_of_ne hut, h.pcOf hl hu]
    exact ⟨(h.live hl u).mpr hu, hpc, fun h => h, fun h => Or.inl h, fun h => h⟩
  · have hu := (h.live hl u).mp hu
    rw [h.pcOf hl hu] at hpc
    exact ⟨hu, hpc⟩

end Frees

end StWin.St
