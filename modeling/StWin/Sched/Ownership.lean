import StWin.Sched.Coherent

/-!
# Stacks, fibers, and the turn

`Ownership` says who owns what: each stack is on the free list once, or holds the record of one live
thread or of the idle thread; each live thread has one fiber and that fiber works for its record;
the fiber of a terminated thread has swapped out for the last time, or is about to. `Turn` says whose
fiber runs, and that `_st_this_thread` names its thread. `Good` is the whole invariant.

Most steps leave the ownership as it is. `SameLives` is what they keep.
-/

namespace StWin.St

/-- The running fiber has entered `st_thread_exit` for the joinable thread `t`, and has not released
the stack yet. -/
structure Leaving (s : St) (t : ℕ) : Prop where
  mem : s.running ∈ s.threads
  life : s.life s.running = ⟨1, 0, false⟩
  pc : (s.fiber s.running).pc = .exitTerm t false
  thd : (s.fiber s.running).thd = t
  id : (s.thread t).id = s.running
  context : (s.thread t).context = some s.running
  primordial : (s.thread t).flags.primordial = false
  term : ∃ c, (s.thread t).term = some c
  state : (s.thread t).state = .ZOMBIE

/-- The idle thread's record is `0` and its fiber is `1`. -/
structure Ownership (s : St) : Prop where
  idle_thread : s.idle_thread = 0
  idle_id : (s.thread 0).id = 1
  idle_context : (s.thread 0).context = some 1
  idle_term : (s.thread 0).term = none
  idle_state : (s.thread 0).state = .RUNNING ∨ (s.thread 0).state = .RUNNABLE
  idle_thd : (s.fiber 1).thd = 0
  idle_pc : ∃ stage, (s.fiber 1).pc = .idle stage
  idle_stack : 0 < s.segments
  main_pc : (∃ r, (s.fiber 0).pc = .user r) ∨ ∃ stage, (s.fiber 0).pc = .native stage
  nodup : s.threads.Nodup
  thread : ∀ f ∈ s.threads, 2 ≤ f ∧ f < s.created ∧ (s.fiber f).thd < s.segments
  /-- A thread that has not terminated has its record. -/
  live : ∀ f ∈ s.threads, (s.life f).exits = 0 →
    (s.thread (s.fiber f).thd).id = f ∧ s.life f = ⟨0, 0, false⟩
  /-- A thread that has terminated did so once, and its fiber is past `st_thread_exit`. -/
  dead : ∀ f ∈ s.threads, (s.life f).exits ≠ 0 → (s.life f = ⟨1, 1, false⟩ ∧
    ((s.fiber f).pc = .out ∨ ((s.fiber f).pc = .exitEnd false ∧ s.running = f))) ∨
    (s.running = f ∧ ∃ t, s.Leaving t)
  ids : ∀ t, (s.thread t).id < s.created
  created : 2 ≤ s.created
  free_nodup : s.free_stacks.Nodup
  free : ∀ t ∈ s.free_stacks, t < s.segments ∧ t ≠ 0 ∧ ¬s.Live t ∧ (s.thread t).term = none ∧
    ((s.thread t).state = .ZOMBIE ∨ (s.thread t).state = .RUNNING)
  cover : ∀ t, t < s.segments → t ∈ s.free_stacks ∨ s.Live t ∨ t = 0 ∨ s.Leaving t
  primordial : ∀ t, s.Live t → (s.thread t).flags.primordial = false

namespace Ownership

variable {s : St} (h : s.Ownership)
include h

/-- A live thread does not have the record 0. -/
theorem live_ne_zero {t : ℕ} (ht : s.Live t) : t ≠ 0 := by
  rintro rfl
  have hmem := ht.1
  rw [h.idle_id] at hmem
  exact absurd (h.thread 1 hmem).1 (by decide)

/-- The stack of a live thread exists. -/
theorem live_lt {t : ℕ} (ht : s.Live t) : t < s.segments := by
  have := (h.thread _ ht.1).2.2
  rwa [ht.2.2] at this

/-- A live thread's fiber is not that of `main` or of the idle thread. -/
theorem live_id {t : ℕ} (ht : s.Live t) : 2 ≤ (s.thread t).id := (h.thread _ ht.1).1

/-- The record 0 is not that of a live thread. -/
theorem not_live_zero : ¬s.Live 0 := fun ht => h.live_ne_zero ht rfl

end Ownership

/-- Nobody is leaving, if the running fiber has not entered `st_thread_exit`. -/
theorem Leaving.not_of_exits {s : St} (h : s.running ∈ s.threads → (s.life s.running).exits = 0)
    {t : ℕ} : ¬s.Leaving t := by
  intro hleaving
  have := h hleaving.mem
  rw [hleaving.life] at this
  cases this

/-- A thread that is leaving is not live any more. -/
theorem Leaving.not_live {s : St} {t : ℕ} (h : s.Leaving t) : ¬s.Live t := by
  rintro ⟨-, hex, -⟩
  rw [h.id, h.life] at hex
  cases hex

/-- A live thread is not the one that leaves. -/
theorem Leaving.ne_running {s : St} {t u : ℕ} (h : s.Leaving t) (hu : s.Live u) :
    (s.thread u).id ≠ s.running := by
  intro heq
  have := hu.2.1
  rw [heq, h.life] at this
  cases this

/-- Whose fiber runs. -/
inductive Turn (s : St) : Prop where
  | main (running : s.running = 0)
  | idle (running : s.running = 1) (this : s.this_thread = some 0)
  | thread (t : ℕ) (live : s.Live t) (running : s.running = (s.thread t).id)
      (state : (s.thread t).state = .RUNNING) (this : s.this_thread = some t)
  /-- A thread between the end of `st_thread_exit` and `swapOutFiber`. -/
  | exiting (t : ℕ) (mem : s.running ∈ s.threads) (exits : (s.life s.running).exits ≠ 0)
      (pc : (s.fiber s.running).pc = .exitEnd false) (this : s.this_thread = some t)
      (state : (s.thread t).state = .ZOMBIE)
  /-- A joinable thread in the middle of `st_thread_exit`. -/
  | leaving (t : ℕ) (leaving : s.Leaving t) (this : s.this_thread = some t)

/-- The invariant of the scheduler. -/
structure Good (s : St) : Prop where
  core : s.Core []
  own : s.Ownership
  turn : s.Turn

/-- The running fiber is that of the live thread `t`. -/
structure Runs (s : St) (t : ℕ) : Prop where
  live : s.Live t
  running : s.running = (s.thread t).id
  state : (s.thread t).state = .RUNNING
  this : s.this_thread = some t

/-- No live thread is in the state `RUNNING`. -/
def Parked (s : St) : Prop := ∀ t, s.Live t → (s.thread t).state ≠ .RUNNING

/-- A step that creates and terminates no thread. -/
structure SameLives (s s' : St) : Prop where
  threads : s'.threads = s.threads
  life : s'.life = s.life
  free_stacks : s'.free_stacks = s.free_stacks
  segments : s'.segments = s.segments
  zombie_q : s'.zombie_q = s.zombie_q
  idle_thread : s'.idle_thread = s.idle_thread
  created : s'.created = s.created
  active_count : s'.active_count = s.active_count
  id : ∀ t, (s'.thread t).id = (s.thread t).id
  context : ∀ t, (s'.thread t).context = (s.thread t).context
  term : ∀ t, (s'.thread t).term = (s.thread t).term
  primordial : ∀ t, (s'.thread t).flags.primordial = (s.thread t).flags.primordial
  /-- Of the records without a live thread, only the idle thread's changes its state. -/
  state : ∀ t, ¬s.Live t → (s'.thread t).state = (s.thread t).state ∨
    (t = 0 ∧ ((s'.thread t).state = .RUNNING ∨ (s'.thread t).state = .RUNNABLE))
  thd : ∀ f, (s'.fiber f).thd = (s.fiber f).thd
  pc : ∀ f, f ≠ s.running → (s'.fiber f).pc = (s.fiber f).pc

namespace SameLives

/-- Nothing has changed. -/
theorem refl (s : St) : SameLives s s :=
  ⟨rfl, rfl, rfl, rfl, rfl, rfl, rfl, rfl, fun _ => rfl, fun _ => rfl, fun _ => rfl, fun _ => rfl,
    fun _ _ => Or.inl rfl, fun _ => rfl, fun _ _ => rfl⟩

/-- The same threads are live. -/
theorem live {s s' : St} (h : SameLives s s') (t : ℕ) : s'.Live t ↔ s.Live t := by
  unfold Live
  rw [h.id, h.threads, h.life, h.thd]

/-- The places of the live threads fit as before. -/
theorem pcFits {s s' : St} (h : SameLives s s') (hev : s'.ev = s.ev) (t : ℕ) (pc : Pc) :
    s'.PcFits t pc ↔ s.PcFits t pc := by
  cases pc <;> simp only [PcFits, hev, h.live, h.term]

/-- Two steps without a switch between them. -/
theorem trans {s s' s'' : St} (h : SameLives s s') (h' : SameLives s' s'')
    (hrun : s'.running = s.running) : SameLives s s'' where
  threads := h'.threads.trans h.threads
  life := h'.life.trans h.life
  free_stacks := h'.free_stacks.trans h.free_stacks
  segments := h'.segments.trans h.segments
  zombie_q := h'.zombie_q.trans h.zombie_q
  idle_thread := h'.idle_thread.trans h.idle_thread
  created := h'.created.trans h.created
  active_count := h'.active_count.trans h.active_count
  id t := (h'.id t).trans (h.id t)
  context t := (h'.context t).trans (h.context t)
  term t := (h'.term t).trans (h.term t)
  primordial t := (h'.primordial t).trans (h.primordial t)
  state t ht := by
    rcases h'.state t (fun hl => ht ((h.live t).mp hl)) with h2 | h2
    · rw [h2]
      exact h.state t ht
    · exact Or.inr h2
  thd f := (h'.thd f).trans (h.thd f)
  pc f hf := (h'.pc f (by rw [hrun]; exact hf)).trans (h.pc f hf)

/-- Assignments to one record, and to the place of the running fiber. -/
theorem of_update {s s' : St} {t : ℕ} {th : Thread} (hth : s'.thread = Function.update s.thread t th)
    (hid : th.id = (s.thread t).id) (hcontext : th.context = (s.thread t).context)
    (hterm : th.term = (s.thread t).term)
    (hprim : th.flags.primordial = (s.thread t).flags.primordial)
    (hstate : s.Live t ∨ th.state = (s.thread t).state ∨
      (t = 0 ∧ (th.state = .RUNNING ∨ th.state = .RUNNABLE)))
    (hthd : ∀ f, (s'.fiber f).thd = (s.fiber f).thd)
    (hpc : ∀ f, f ≠ s.running → (s'.fiber f).pc = (s.fiber f).pc) (h1 : s'.threads = s.threads)
    (h2 : s'.life = s.life) (h3 : s'.free_stacks = s.free_stacks) (h4 : s'.segments = s.segments)
    (h5 : s'.zombie_q = s.zombie_q) (h6 : s'.idle_thread = s.idle_thread)
    (h7 : s'.created = s.created) (h8 : s'.active_count = s.active_count) : SameLives s s' := by
  -- A record is the one that was written, or as before.
  have hcases : ∀ u, (u = t ∧ s'.thread u = th) ∨ (u ≠ t ∧ s'.thread u = s.thread u) := by
    intro u
    rw [hth]
    by_cases hu : u = t
    · exact Or.inl ⟨hu, by rw [hu, Function.update_self]⟩
    · exact Or.inr ⟨hu, Function.update_of_ne hu _ _⟩
  refine ⟨h1, h2, h3, h4, h5, h6, h7, h8, ?_, ?_, ?_, ?_, ?_, hthd, hpc⟩
  · intro u
    obtain ⟨rfl, h⟩ | ⟨-, h⟩ := hcases u
    · rw [h, hid]
    · rw [h]
  · intro u
    obtain ⟨rfl, h⟩ | ⟨-, h⟩ := hcases u
    · rw [h, hcontext]
    · rw [h]
  · intro u
    obtain ⟨rfl, h⟩ | ⟨-, h⟩ := hcases u
    · rw [h, hterm]
    · rw [h]
  · intro u
    obtain ⟨rfl, h⟩ | ⟨-, h⟩ := hcases u
    · rw [h, hprim]
    · rw [h]
  · -- A state may change only where the thread is live, or for the idle thread.
    intro u hu
    obtain ⟨rfl, h⟩ | ⟨-, h⟩ := hcases u
    · rw [h]
      exact hstate.resolve_left hu
    · exact Or.inl (by rw [h])

/-- The fiber that was running is at a place that its kind can be at. -/
def PlaceOk (s s' : St) : Prop :=
  (s.running = 0 →
    (∃ r, (s'.fiber 0).pc = .user r) ∨ ∃ stage, (s'.fiber 0).pc = .native stage) ∧
    (s.running = 1 → ∃ stage, (s'.fiber 1).pc = .idle stage)

/-- Ownership is kept, if a fiber that is exiting swaps out. -/
theorem ownership_of_out {s s' : St} (h : SameLives s s') (ho : s.Ownership) (hplace : PlaceOk s s')
    (hout : s.running ∈ s.threads → (s.life s.running).exits ≠ 0 →
      (s'.fiber s.running).pc = .out ∧ (s.life s.running).freed ≠ 0) : s'.Ownership := by
  -- The only fiber that may be leaving is the running one, and its segment is free already.
  have hleaving : ∀ t, ¬s.Leaving t := by
    intro t ht
    obtain ⟨-, hfreed⟩ := hout ht.mem (by rw [ht.life]; decide)
    rw [ht.life] at hfreed
    exact hfreed rfl
  have hlive := h.live
  have hzero := ho.not_live_zero
  constructor
  · rw [h.idle_thread, ho.idle_thread]
  · rw [h.id, ho.idle_id]
  · rw [h.context, ho.idle_context]
  · rw [h.term, ho.idle_term]
  · rcases h.state 0 hzero with h0 | ⟨-, h0⟩
    · rw [h0]
      exact ho.idle_state
    · exact h0
  · rw [h.thd, ho.idle_thd]
  · by_cases hr : s.running = 1
    · exact hplace.2 hr
    · rw [h.pc 1 (Ne.symm hr)]
      exact ho.idle_pc
  · rw [h.segments]
    exact ho.idle_stack
  · by_cases hr : s.running = 0
    · exact hplace.1 hr
    · rw [h.pc 0 (Ne.symm hr)]
      exact ho.main_pc
  · rw [h.threads]
    exact ho.nodup
  · intro f hf
    rw [h.threads] at hf
    rw [h.created, h.thd, h.segments]
    exact ho.thread f hf
  · intro f hf hex
    rw [h.threads] at hf
    rw [h.life] at hex ⊢
    rw [h.thd, h.id]
    exact ho.live f hf hex
  · intro f hf hex
    rw [h.threads] at hf
    rw [h.life] at hex ⊢
    obtain ⟨hlife, hpc⟩ := (ho.dead f hf hex).resolve_right fun hc => hleaving _ hc.2.choose_spec
    refine Or.inl ⟨hlife, Or.inl ?_⟩
    -- A dead fiber is swapped out: the running one by `hout`, the others as before.
    by_cases hne : f = s.running
    · subst hne
      exact (hout hf hex).1
    · rw [h.pc f hne]
      exact hpc.resolve_right fun hc => hne hc.2.symm
  · intro t
    rw [h.id, h.created]
    exact ho.ids t
  · rw [h.created]
    exact ho.created
  · rw [h.free_stacks]
    exact ho.free_nodup
  · intro t ht
    rw [h.free_stacks] at ht
    obtain ⟨hlt, hne, hdead', hterm, hst⟩ := ho.free t ht
    have hsame := (h.state t hdead').resolve_right fun hc => hne hc.1
    rw [h.segments, hlive, h.term, hsame]
    exact ⟨hlt, hne, hdead', hterm, hst⟩
  · intro t ht
    rw [h.segments] at ht
    rw [h.free_stacks, hlive]
    rcases ho.cover t ht with hfree | hl | h0 | hleave
    · exact Or.inl hfree
    · exact Or.inr (Or.inl hl)
    · exact Or.inr (Or.inr (Or.inl h0))
    · exact absurd hleave (hleaving t)
  · intro t ht
    rw [h.primordial]
    exact ho.primordial t ((hlive t).mp ht)

/-- Ownership is kept by the steps of a fiber that is not exiting. -/
theorem ownership {s s' : St} (h : SameLives s s') (ho : s.Ownership) (hplace : PlaceOk s s')
    (hdead : s.running ∈ s.threads → (s.life s.running).exits = 0) : s'.Ownership :=
  h.ownership_of_out ho hplace fun hmem hex => absurd (hdead hmem) hex

end SameLives

end StWin.St
