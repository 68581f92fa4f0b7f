import StWin.Sched.Reach

/-!
# Termination is final, and stacks have one owner

What a run whose steps are `Ok` says about the threads that have terminated, and about the stacks.
`run_exit_final`: a thread that has entered `st_thread_exit` goes through it once, does not come back
to its start function, and is on no queue from then on. `run_stacks_owned`: each stack is on the free
list once or has one owner, and, if the threads that terminate are not joinable, the records on free
stacks are out of the scheduler's reach, so that `st_thread_create` may overwrite them.
-/

namespace StWin.St

/-- The record `t` is in the timeout heap. -/
def InHeap (s : St) (t : ℕ) : Prop := ∃ i, s.heap.nodeAt i = some t

/-- The heap holds the threads with the flag `ON_SLEEPQ`. -/
theorem Core.inHeap_iff {p : List ℕ} {s : St} (h : s.Core p) (t : ℕ) :
    s.InHeap t ↔ (s.thread t).flags.on_sleepq = true := by
  obtain ⟨S, hw, hS⟩ := h.sleep
  rw [← hS t, hw.mem t]
  refine ⟨fun ⟨i, hi⟩ => ⟨i, hi, fun j hj => ?_⟩, fun ⟨i, hi, _⟩ => ⟨i, hi⟩⟩
  rw [← hw.index i t hi, hw.index j t hj]

/-- A live thread that waits for a mutex does so in its own name. -/
theorem Core.lock_pc {p : List ℕ} {s : St} (hc : s.Core p) {m t : ℕ} (hl : s.Live t)
    (hw : (s.pcOf t).waitsFor m) : s.pcOf t = .lock t m := by
  have hfits := (hc.recs t).pc hl
  cases hpc : s.pcOf t with
  | lock me m' =>
    rw [hpc] at hw hfits
    have hme : me = t := hfits
    have hm : m' = m := hw
    rw [hme, hm]
  | _ =>
    rw [hpc] at hw
    exact hw.elim

/-! ## Termination -/

/-- The thread with the fiber `f` has gone through `st_thread_exit` once, or is going through it, and
is on no queue. -/
structure Finished (s : St) (f : ℕ) : Prop where
  exits : (s.life f).exits = 1
  freed : (s.life f).freed ≤ 1
  back : (s.life f).back = false
  /-- After the last `swapOutFiber` the stack is released and the fiber does not run. -/
  out : s.running ≠ f → (s.fiber f).pc = .out ∧ (s.life f).freed = 1
  run_q : ∀ t, (s.thread t).id = f → t ∉ s.run_q
  heap : ∀ t, (s.thread t).id = f → ¬s.InHeap t
  cond_q : ∀ t, (s.thread t).id = f → ∀ c, t ∉ s.cond_q c
  wait_q : ∀ t, (s.thread t).id = f → ∀ m, t ∉ (s.mutex m).wait_q
  /-- The fiber that has swapped out is not resumed. -/
  resumed : (s.fiber f).pc = .out → s.running ≠ f

/-- Each thread that has entered `st_thread_exit`, the idle thread included, has finished. -/
def ExitFinal (s : St) : Prop := ∀ f, f ∈ s.threads ∨ f = 1 → (s.life f).exits ≠ 0 → s.Finished f

/-- A thread that has terminated has finished. -/
theorem Good.finished {s : St} (hg : s.Good) {f : ℕ} (hf : f ∈ s.threads)
    (hex : (s.life f).exits ≠ 0) : s.Finished f := by
  have hnot : ∀ t, (s.thread t).id = f → ¬s.Live t := by
    intro t ht hl
    have := hl.2.1
    rw [ht] at this
    exact hex this
  have hqueues := fun t ht => (hg.core.recs t).not_live (hnot t ht)
  have hheap : ∀ t, (s.thread t).id = f → ¬s.InHeap t := by
    intro t ht
    rw [hg.core.inHeap_iff, (hqueues t ht).2.2.2.2]
    decide
  -- The fiber that has swapped out is neither `main`, nor the idle thread, nor a live thread.
  have hres : (s.fiber f).pc = .out → s.running ≠ f := by
    intro hpc hrun
    have h2 := (hg.own.thread f hf).1
    rcases hg.turn with hmain | ⟨hidle, -⟩ | ⟨t, hl, hrun', -, -⟩ | ⟨-, -, -, hpc', -, -⟩ |
      ⟨t, hleave, -⟩
    · omega
    · omega
    · exact hnot t (hrun'.symm.trans hrun) hl
    · rw [hrun, hpc] at hpc'
      cases hpc'
    · have hpc' := hleave.pc
      rw [hrun, hpc] at hpc'
      cases hpc'
  -- The stack has been released, or the joinable thread is about to release it.
  rcases hg.own.dead f hf hex with ⟨hlife, hpc⟩ | ⟨hrun, t, hleave⟩
  · refine ⟨by rw [hlife], by rw [hlife], by rw [hlife], fun hne => ⟨?_, by rw [hlife]⟩,
      fun t ht => (hqueues t ht).1, hheap, fun t ht => (hqueues t ht).2.1,
      fun t ht => (hqueues t ht).2.2.1, hres⟩
    exact hpc.resolve_right fun hc => hne hc.2
  · have hlife := hleave.life
    rw [hrun] at hlife
    exact ⟨by rw [hlife], by rw [hlife]; decide, by rw [hlife], fun hne => absurd hrun hne,
      fun t ht => (hqueues t ht).1, hheap, fun t ht => (hqueues t ht).2.1,
      fun t ht => (hqueues t ht).2.2.1, hres⟩

/-- The idle thread does not enter `st_thread_exit`. -/
theorem Change.life_idle {s s' : St} {l : Label} (h : Change s l s') (hg : s.Good) :
    s'.life 1 = s.life 1 := by
  cases h with
  | fine fine => rw [fine.lives.life]
  | creates _ _ _ _ s₁ t th started makes _ r eq =>
    have hcreated := hg.own.created
    rw [eq]
    exact makes.life_of_ne (by omega)
  | exits t v retval joinable runs _ exits =>
    have h2 := runs.two_le hg.own
    exact exits.life_of_ne (show 1 ≠ s.running by omega)
  | frees t leaving frees =>
    have h2 := (hg.own.thread _ leaving.mem).1
    exact frees.life_of_ne (by omega)
  | nothing _ _ _ f r eq =>
    rw [eq]
    simp [ret, setPc, setLife]

/-- One step keeps the invariant, and the idle thread in its loop. -/
theorem step_idle_life {s s' : St} {l : Label} (h : s.Inv ∧ (s.life 1).exits = 0) (hok : s.Ok l)
    (hstep : s.step l = some s') : s'.Inv ∧ (s'.life 1).exits = 0 := by
  obtain ⟨hinv, hidle⟩ := h
  refine ⟨step_inv hinv hok hstep, ?_⟩
  rw [(hinv.change hok hstep).life_idle hinv.good]
  exact hidle

/-- In each run whose steps are `Ok`, termination is final. -/
theorem run_exit_final (pagesize : ℤ) (last_clock : ℕ) (ls : List Label) {s : St}
    (hrun : Runs.run step (init pagesize last_clock) ls = some s)
    (hok : Runs.Meets step Ok (init pagesize last_clock) ls) : s.ExitFinal := by
  obtain ⟨hinv, hidle⟩ : s.Inv ∧ (s.life 1).exits = 0 :=
    Runs.run_invariant step_idle_life ⟨init_inv pagesize last_clock, rfl⟩ hok hrun
  rintro f (hf | rfl) hex
  · exact hinv.good.finished hf hex
  · exact absurd hidle hex

/-- A thread that is not joinable and one that is return, and `main` goes on. -/
def returnsTwice : List Label :=
  [.call (.create false 0 ⟨true, true, true⟩), .call (.create true 0 ⟨true, true, true⟩),
    .call (.usleep 1), .ret 7, .resume, .call (.usleep 1), .ret 8, .resume, .resume]

/-- The run is possible, and each of the two threads has entered `st_thread_exit` once. -/
theorem run_exit_final_returnsTwice :
    ∃ s, Runs.run step (init 4096 0) returnsTwice = some s ∧ s.ExitFinal ∧
      (s.life 2).exits = 1 ∧ (s.life 3).exits = 1 := by
  refine ⟨(Runs.run step (init 4096 0) returnsTwice).get (by decide), by simp, ?_, by decide, by decide⟩
  exact run_exit_final 4096 0 returnsTwice (by simp) (by decide)

/-- A start function calls `st_thread_exit` and then returns. -/
def exitsExplicitly : List Label :=
  [.call (.create false 0 ⟨true, true, true⟩), .call (.usleep 1), .call (.exit 7), .resume, .ret 8]

/-- `st_thread_exit` returned to the start function, and was entered a second time. -/
theorem run_exit_not_final : ∃ s, Runs.run step (init 4096 0) exitsExplicitly = some s ∧
    2 ∈ s.threads ∧ (s.life 2).back = true ∧ (s.life 2).exits = 2 ∧ (s.life 2).freed = 2 ∧
    ¬s.ExitFinal := by
  refine ⟨(Runs.run step (init 4096 0) exitsExplicitly).get (by decide), by simp, by decide, by decide,
    by decide, by decide, fun hfinal => ?_⟩
  have hback := (hfinal 2 (Or.inl (by decide)) (by decide)).back
  exact absurd hback (by decide)

/-! ## Stacks -/

/-- The number of threads that own the stack `t`: threads that have not released it, and the idle
thread. -/
def owners (s : St) (t : ℕ) : ℕ :=
  s.threads.countP (fun f => decide ((s.life f).freed = 0 ∧ (s.fiber f).thd = t)) +
    if t = s.idle_thread then 1 else 0

/-- The scheduler can reach the record `t`. -/
def Reachable (s : St) (t : ℕ) : Prop :=
  t ∈ s.run_q ∨ t ∈ s.zombie_q ∨ s.InHeap t ∨ t = s.idle_thread ∨ (s.thread t).term ≠ none

/-- Stacks are released by those who own them, and used again only when nobody can reach them. -/
structure StacksOwned (s : St) : Prop where
  /-- A stack is on the free list once, or has one owner. -/
  once : ∀ t < s.segments, s.free_stacks.count t + s.owners t = 1
  free : ∀ t ∈ s.free_stacks, ¬s.Reachable t
  /-- `st_thread_create` does not overwrite a record that can be reached. -/
  create : ∀ start joinable stk_size ok, ∀ t < s.segments,
    (s.threadCreate start joinable stk_size ok).1.thread t ≠ s.thread t → ¬s.Reachable t

/-- A thread that has not released its stack is the one that the record there belongs to. -/
theorem Ownership.holder {s : St} (ho : s.Ownership) {f : ℕ} (hf : f ∈ s.threads)
    (hfreed : (s.life f).freed = 0) : (s.thread (s.fiber f).thd).id = f ∧
      (s.Live (s.fiber f).thd ∨ s.Leaving (s.fiber f).thd) := by
  by_cases hex : (s.life f).exits = 0
  · have hid := (ho.live f hf hex).1
    refine ⟨hid, Or.inl ⟨?_, ?_, ?_⟩⟩
    · rw [hid]
      exact hf
    · rw [hid]
      exact hex
    · rw [hid]
  · rcases ho.dead f hf hex with ⟨hlife, -⟩ | ⟨hrun, t, hleave⟩
    · rw [hlife] at hfreed
      cases hfreed
    · have hthd : (s.fiber f).thd = t := hrun ▸ hleave.thd
      rw [hthd]
      exact ⟨hleave.id.trans hrun, Or.inr hleave⟩

/-- A stack with a live thread, or one that is leaving, has this one owner. -/
theorem Ownership.count_owner {s : St} (ho : s.Ownership) {t : ℕ} (ht : s.Live t ∨ s.Leaving t) :
    s.threads.countP (fun f => decide ((s.life f).freed = 0 ∧ (s.fiber f).thd = t)) = 1 := by
  obtain ⟨hmem, hfreed, hthd⟩ : (s.thread t).id ∈ s.threads ∧ (s.life (s.thread t).id).freed = 0 ∧
      (s.fiber (s.thread t).id).thd = t := by
    rcases ht with hl | hleave
    · refine ⟨hl.1, ?_, hl.2.2⟩
      rw [(ho.live _ hl.1 hl.2.1).2]
    · rw [hleave.id]
      exact ⟨hleave.mem, by rw [hleave.life], hleave.thd⟩
  -- So the threads that are counted are those with the id in the record.
  have hiff : ∀ f ∈ s.threads, (decide ((s.life f).freed = 0 ∧ (s.fiber f).thd = t) = true ↔
      (f == (s.thread t).id) = true) := by
    intro f hf
    rw [decide_eq_true_iff, beq_iff_eq]
    constructor
    · rintro ⟨hf0, rfl⟩
      exact (ho.holder hf hf0).1.symm
    · rintro rfl
      exact ⟨hfreed, hthd⟩
  rw [List.countP_congr hiff]
  exact List.count_eq_one_of_mem ho.nodup hmem

/-- A stack without a live thread, or one that is leaving, has no owner but the idle thread. -/
theorem Ownership.count_no_owner {s : St} (ho : s.Ownership) {t : ℕ} (hl : ¬s.Live t)
    (hleave : ¬s.Leaving t) :
    s.threads.countP (fun f => decide ((s.life f).freed = 0 ∧ (s.fiber f).thd = t)) = 0 := by
  rw [List.countP_eq_zero]
  intro f hf
  rw [decide_eq_true_iff]
  rintro ⟨hfreed, rfl⟩
  exact (ho.holder hf hfreed).2.elim hl hleave

/-- The record of a thread that is leaving is neither on a free stack nor the idle thread's. -/
theorem Ownership.leaving {s : St} (ho : s.Ownership) {t : ℕ} (h : s.Leaving t) :
    t ∉ s.free_stacks ∧ t ≠ 0 := by
  obtain ⟨c, hterm⟩ := h.term
  constructor
  · intro hin
    rw [(ho.free t hin).2.2.2.1] at hterm
    cases hterm
  · rintro rfl
    rw [ho.idle_term] at hterm
    cases hterm

/-- A stack is on the free list once, or owned by one thread. -/
theorem Ownership.once {s : St} (ho : s.Ownership) {t : ℕ} (ht : t < s.segments) :
    s.free_stacks.count t + s.owners t = 1 := by
  have hfree : ∀ {u}, u ∈ s.free_stacks → ¬s.Live u ∧ ¬s.Leaving u ∧ u ≠ 0 := by
    intro u hin
    exact ⟨(ho.free u hin).2.2.1, fun hleave => (ho.leaving hleave).1 hin, (ho.free u hin).2.1⟩
  unfold owners
  rw [ho.idle_thread]
  -- The stack is free, that of a live thread, the idle thread's, or that of a thread that leaves.
  rcases ho.cover t ht with hin | hl | rfl | hleave
  · obtain ⟨hl, hleave, h0⟩ := hfree hin
    rw [List.count_eq_one_of_mem ho.free_nodup hin, ho.count_no_owner hl hleave, if_neg h0]
  · rw [List.count_eq_zero.mpr fun hin => (hfree hin).1 hl, ho.count_owner (Or.inl hl),
      if_neg (ho.live_ne_zero hl)]
  · rw [List.count_eq_zero.mpr fun hin => (hfree hin).2.2 rfl,
      ho.count_no_owner ho.not_live_zero fun hleave => (ho.leaving hleave).2 rfl, if_pos rfl]
  · rw [List.count_eq_zero.mpr fun hin => (hfree hin).2.1 hleave, ho.count_owner (Or.inr hleave),
      if_neg (ho.leaving hleave).2]

/-- The record that `st_thread_create` overwrites is on the stack from `_st_stack_new`. -/
theorem threadCreate_overwrites {s : St} {start : Pc} {joinable : Bool} {stk_size : ℤ} {ok : Acquire}
    {u : ℕ} (h : (s.threadCreate start joinable stk_size ok).1.thread u ≠ s.thread u) :
    ∃ s₁, s.stackNew (s.stackSize stk_size) ok.stack = some (u, s₁) := by
  unfold threadCreate at h
  cases hnew : s.stackNew (s.stackSize stk_size) ok.stack with
  | none =>
    rw [hnew] at h
    exact absurd rfl h
  | some new =>
    obtain ⟨t, s₁⟩ := new
    obtain ⟨free, sizes, seg, rfl⟩ := stackNew_eq hnew
    rw [hnew] at h
    by_cases hu : u = t
    · exact ⟨_, by rw [hu]⟩
    · refine absurd ?_ h
      dsimp only
      split_ifs <;>
        simp [startThread, addRunq, setState, setThread, initThread, stackFree, hu]

/-- A stack that is used again comes from the free list. -/
theorem stackNew_mem {s s₁ : St} {size : ℤ} {ok : Bool} {t : ℕ}
    (h : s.stackNew size ok = some (t, s₁)) (ht : t < s.segments) : t ∈ s.free_stacks := by
  unfold stackNew at h
  split at h
  · next t' hfind =>
    cases h
    exact List.mem_of_find?_eq_some hfind
  · split_ifs at h
    cases h
    exact absurd ht (lt_irrefl _)

/-- The stacks of a good state without zombies. -/
theorem Good.stacksOwned {s : St} (hg : s.Good) (hz : s.zombie_q = []) : s.StacksOwned := by
  have hfree : ∀ t ∈ s.free_stacks, ¬s.Reachable t := by
    intro t hin
    obtain ⟨-, h0, hdead, hterm, -⟩ := hg.own.free t hin
    obtain ⟨hrun, -, -, -, hoff⟩ := (hg.core.recs t).not_live hdead
    rintro (h | h | h | h | h)
    · exact hrun h
    · rw [hz] at h
      cases h
    · rw [hg.core.inHeap_iff, hoff] at h
      cases h
    · exact h0 (h.trans hg.own.idle_thread)
    · exact h hterm
  refine ⟨fun t ht => hg.own.once ht, hfree, fun start joinable stk_size ok t ht hne => ?_⟩
  obtain ⟨s₁, hnew⟩ := threadCreate_overwrites hne
  exact hfree t (stackNew_mem hnew ht)

/-- The step is `Ok`, and if a thread terminates in it, then it is not joinable. -/
def OkUnjoinable (s : St) (l : Label) : Prop :=
  s.Ok l ∧
    match l with
    | .ret _ => s.This fun t => (s.thread t).term = none
    | _ => True

instance (s : St) : (l : Label) → Decidable (s.OkUnjoinable l)
  | .ret v => inferInstanceAs (Decidable (s.Ok (.ret v) ∧ s.This fun t => (s.thread t).term = none))
  | .call c => inferInstanceAs (Decidable (s.Ok (.call c) ∧ True))
  | .resume => inferInstanceAs (Decidable (s.Ok .resume ∧ True))
  | .dispatch outcomes => inferInstanceAs (Decidable (s.Ok (.dispatch outcomes) ∧ True))
  | .clock now => inferInstanceAs (Decidable (s.Ok (.clock now) ∧ True))

/-- No thread that terminates is left on the zombie queue. -/
theorem step_zombie_q {s s' : St} {l : Label} (h : s.Inv ∧ s.zombie_q = []) (hok : s.OkUnjoinable l)
    (hstep : s.step l = some s') : s'.Inv ∧ s'.zombie_q = [] := by
  obtain ⟨hinv, hz⟩ := h
  refine ⟨step_inv hinv hok.1 hstep, ?_⟩
  cases hinv.change hok.1 hstep with
  | fine fine => rw [fine.lives.zombie_q, hz]
  | creates _ _ _ _ s₁ t th started makes _ r eq =>
    rw [eq]
    exact makes.zombie_q.trans hz
  | exits t v retval joinable runs label exits =>
    subst label
    have hterm : (s.thread t).term = none := hok.2.some runs.this
    have hjoin : joinable = false := by
      rw [← exits.term]
      exact Option.isSome_eq_false_iff.mpr (Option.isNone_iff_eq_none.mpr hterm)
    rw [exits.zombie_q, hjoin]
    exact hz
  | frees t leaving frees => rw [frees.zombie_q, hz]
  | nothing _ _ _ f r eq =>
    rw [eq]
    exact hz

/-- In each run whose steps are `Ok`, and in which the threads that terminate are not joinable, the
stacks have their owners. -/
theorem run_stacks_owned (pagesize : ℤ) (last_clock : ℕ) (ls : List Label) {s : St}
    (hrun : Runs.run step (init pagesize last_clock) ls = some s)
    (hok : Runs.Meets step OkUnjoinable (init pagesize last_clock) ls) : s.StacksOwned := by
  obtain ⟨hinv, hz⟩ : s.Inv ∧ s.zombie_q = [] :=
    Runs.run_invariant step_zombie_q ⟨init_inv pagesize last_clock, rfl⟩ hok hrun
  exact hinv.good.stacksOwned hz

/-- A thread creates another one and returns, and the other one creates a third one on its stack. -/
def reusesStack : List Label :=
  [.call (.create false 0 ⟨true, true, true⟩), .call (.usleep 1),
    .call (.create false 0 ⟨true, true, true⟩), .ret 7, .resume, .call (.usleep 1),
    .call (.create true 0 ⟨true, true, true⟩)]

/-- The run is possible. The third thread has the stack of the first, and three stacks are enough. -/
theorem run_stacks_owned_reusesStack : ∃ s, Runs.run step (init 4096 0) reusesStack = some s ∧
    s.StacksOwned ∧ (s.thread 1).id = 4 ∧ s.segments = 3 := by
  refine ⟨(Runs.run step (init 4096 0) reusesStack).get (by decide), by simp, ?_, by decide, by decide⟩
  exact run_stacks_owned 4096 0 reusesStack (by simp) (by decide)

/-- `main` sleeps before it creates a thread. The idle thread terminates and its stack is released,
but it is still the idle thread of the scheduler. -/
theorem run_stacks_not_owned : ∃ s, Runs.run step (init 4096 0) sleepsAlone = some s ∧
    0 ∈ s.free_stacks ∧ s.idle_thread = 0 ∧ ¬s.StacksOwned := by
  refine ⟨(Runs.run step (init 4096 0) sleepsAlone).get (by decide), by simp, by decide, by decide,
    fun howned => ?_⟩
  exact howned.free 0 (by decide) (Or.inr (Or.inr (Or.inr (Or.inl (by decide)))))

end StWin.St
