import StWin.Sched.Count

/-!
# Joining

`st_thread_exit` of a joinable thread signals the termination condition variable and then switches
to its own context, which returns at once: it goes on to destroy the condition variable before the
joiner has run. If the joiner waits, `st_cond_destroy` fails, since the joiner is still linked on the
wait queue, and the result is not looked at. If nobody waits, the condition variable is destroyed and
the record forgets it, so that a later `st_thread_join` finds a thread that cannot be joined.

Hence the condition variable of a thread whose join has returned `0` is never destroyed, which is
`run_join_leaks`. It holds for every run in which a thread terminates only on its own fiber.
-/

namespace StWin.St

/-! ## The links between threads, condition variables, and joiners -/

/-- The condition variable was made by `st_thread_create`. -/
def Made (s : St) (c : Cond) : Prop := ∃ n, n < s.terms ∧ c = .term n

/-- Each termination condition variable has one thread and at most one joiner, and it is not
destroyed while it has either. -/
structure Linked (s : St) : Prop where
  wait : ∀ f me n, (s.fiber f).pc ≠ .condWait me (.term n)
  term : ∀ t c, (s.thread t).term = some c → s.Made c ∧ .condFree c ∉ s.log
  inj : ∀ t u c, (s.thread t).term = some c → (s.thread u).term = some c → t = u
  free : ∀ c, .condFree c ∈ s.log → s.Made c
  join : ∀ f me c u, (s.fiber f).pc = .join me c u → s.Made c ∧ s.cond_q c = [me] ∧
    .condFree c ∉ s.log ∧ ∀ t, (s.thread t).term = some c → t = u
  one : ∀ f g me c u me' u', (s.fiber f).pc = .join me c u → (s.fiber g).pc = .join me' c u' → f = g
  /-- A thread that was joined has lost its condition variable, which was not destroyed. -/
  joined : ∀ f t c r, .joined f t c r ∈ s.log → s.Made c ∧ .condFree c ∉ s.log ∧
    ∀ u, (s.thread u).term ≠ some c

/-- A zombie that can be joined is in the middle of `st_thread_exit`. -/
def ZombieRuns (s : St) : Prop :=
  ∀ t c, (s.thread t).term = some c → (s.thread t).state = .ZOMBIE →
    ∃ e, (s.fiber s.running).pc = .exitTerm t e

/-- No zombie can be joined. -/
def NoZombie (s : St) : Prop := ∀ t c, (s.thread t).term = some c → (s.thread t).state ≠ .ZOMBIE

/-- If no zombie can be joined, there is nothing to show. -/
theorem NoZombie.runs {s : St} (h : s.NoZombie) : s.ZombieRuns :=
  fun t c ht hz => absurd hz (h t c ht)

/-- Unless the running fiber is in `st_thread_exit`, no zombie can be joined. -/
theorem ZombieRuns.none {s : St} (h : s.ZombieRuns)
    (hpc : ∀ t e, (s.fiber s.running).pc ≠ .exitTerm t e) : s.NoZombie := by
  intro t c ht hz
  obtain ⟨e, he⟩ := h t c ht hz
  exact hpc t e he

/-- What `Linked` reads, unchanged. -/
structure LinkFrame (s s' : St) : Prop where
  term : ∀ t, (s'.thread t).term = (s.thread t).term
  terms : s'.terms = s.terms
  cond_q : ∀ n, s'.cond_q (.term n) = s.cond_q (.term n)
  log : ∀ n, n.isJoin = true → (n ∈ s'.log ↔ n ∈ s.log)
  pc : ∀ f, (s'.fiber f).pc.plain = false → (s'.fiber f).pc = (s.fiber f).pc

/-- What is plain leaves the links. -/
theorem Plain.linkFrame {s s' : St} (h : Plain s s') : LinkFrame s s' := by
  refine ⟨h.term, h.terms, h.cond_q, fun n hn => ?_, h.pc⟩
  obtain ⟨l, hl, hnot⟩ := h.log
  rw [hl, List.mem_append]
  refine ⟨fun hmem => hmem.resolve_left fun hin => ?_, Or.inr⟩
  rw [hnot n hin] at hn
  cases hn

/-- The parts of the state that matter are as they were. -/
theorem LinkFrame.of_eq {s s' : St} (h1 : ∀ t, (s'.thread t).term = (s.thread t).term)
    (h2 : s'.terms = s.terms) (h3 : ∀ n, s'.cond_q (.term n) = s.cond_q (.term n))
    (h4 : s'.log = s.log) (h5 : s'.fiber = s.fiber) : LinkFrame s s' :=
  ⟨h1, h2, h3, fun n _ => by rw [h4], fun f _ => by rw [h5]⟩

section frame

variable {s s' : St} (hf : LinkFrame s s')
include hf

/-- The same condition variables were made. -/
theorem LinkFrame.made (c : Cond) : s'.Made c ↔ s.Made c := by
  unfold Made
  rw [hf.terms]

/-- The same condition variables were destroyed. -/
theorem LinkFrame.condFree (c : Cond) : .condFree c ∈ s'.log ↔ .condFree c ∈ s.log :=
  hf.log _ rfl

/-- Unchanged links stay as they should be. -/
theorem Linked.of_frame (h : s.Linked) : s'.Linked := by
  have hjoin : ∀ {f me c u}, (s'.fiber f).pc = .join me c u → (s.fiber f).pc = .join me c u := by
    intro f me c u hpc
    rw [← hf.pc f (by rw [hpc]; rfl)]
    exact hpc
  refine ⟨fun f me n hpc => ?_, fun t c ht => ?_, fun t u c ht hu => ?_, fun c hc => ?_,
    fun f me c u hpc => ?_, fun f g me c u me' u' h1 h2 => h.one f g me c u me' u' (hjoin h1) (hjoin h2),
    fun f t c r hmem => ?_⟩
  · refine h.wait f me n ?_
    rw [← hf.pc f (by rw [hpc]; rfl)]
    exact hpc
  · rw [hf.term] at ht
    rw [hf.made, hf.condFree]
    exact h.term t c ht
  · rw [hf.term] at ht hu
    exact h.inj t u c ht hu
  · rw [hf.condFree] at hc
    rw [hf.made]
    exact h.free c hc
  · obtain ⟨hmade, hq, hfree, huniq⟩ := h.join f me c u (hjoin hpc)
    obtain ⟨n, hn, rfl⟩ := hmade
    rw [hf.made, hf.condFree, hf.cond_q]
    exact ⟨⟨n, hn, rfl⟩, hq, hfree, fun t ht => huniq t (by rw [← hf.term]; exact ht)⟩
  · rw [hf.log _ rfl] at hmem
    rw [hf.made, hf.condFree]
    obtain ⟨hmade, hfree, hnone⟩ := h.joined f t c r hmem
    exact ⟨hmade, hfree, fun u => by rw [hf.term]; exact hnone u⟩

end frame

/-- What is plain makes no zombie. -/
theorem NoZombie.plain {s s' : St} (h : s.NoZombie) (hp : Plain s s') : s'.NoZombie := by
  intro t c ht hz
  rw [hp.term] at ht
  exact h t c ht (hp.zombie t hz)

/-! ## Creation -/

/-- What `st_thread_create` does to the links: a record `th` on the stack `t`, with a new condition
variable or with none. -/
structure Attaches (s s' : St) (t : ℕ) (th : Thread) : Prop where
  thread : s'.thread = Function.update s.thread t th
  state : th.state ≠ .ZOMBIE
  fiber : s'.fiber = Function.update s.fiber s.created ⟨.user (.ok 0), t⟩
  log : s'.log = s.log
  term : (th.term = none ∧ s'.terms = s.terms ∧ s'.cond_q = s.cond_q) ∨
    (th.term = some (.term s.terms) ∧ s'.terms = s.terms + 1 ∧
      s'.cond_q = Function.update s.cond_q (.term s.terms) [])

/-- `st_thread_create` writes one record, or fails before that. -/
theorem threadCreate_attaches (s : St) (joinable : Bool) (stk_size : ℤ) (ok : Acquire) :
    (s.threadCreate (.user (.ok 0)) joinable stk_size ok).1 = s ∨
      ∃ t th, Attaches s (s.threadCreate (.user (.ok 0)) joinable stk_size ok).1 t th := by
  unfold threadCreate
  cases hnew : s.stackNew (s.stackSize stk_size) ok.stack with
  | none => exact Or.inl rfl
  | some new =>
    obtain ⟨t, s₁⟩ := new
    obtain ⟨free, sizes, seg, rfl⟩ := stackNew_eq hnew
    dsimp only
    split_ifs
    · refine Or.inr ⟨t, ⟨.RUNNABLE, Flags.zero, 0, some (.term s.terms),
        if ok.fiber then some s.created else none, s.created⟩, ⟨?_, fun h => (by cases h), rfl, rfl,
        Or.inr ⟨rfl, rfl, rfl⟩⟩⟩
      simp [startThread, addRunq, setState, setThread, initThread, Thread.zero]
    · exact Or.inr ⟨t, _, ⟨rfl, fun h => (by cases h), rfl, rfl, Or.inl ⟨rfl, rfl, rfl⟩⟩⟩
    · refine Or.inr ⟨t, ⟨.RUNNABLE, Flags.zero, 0, none,
        if ok.fiber then some s.created else none, s.created⟩, ⟨?_, fun h => (by cases h), rfl, rfl,
        Or.inl ⟨rfl, rfl, rfl⟩⟩⟩
      simp [startThread, addRunq, setState, setThread, initThread, Thread.zero]

namespace Attaches

variable {s s' : St} {t : ℕ} {th : Thread} (h : Attaches s s' t th)
include h

/-- The condition variables that were made before are still there. -/
theorem made {c : Cond} (hc : s.Made c) : s'.Made c := by
  obtain ⟨n, hn, rfl⟩ := hc
  rcases h.term with ⟨-, hterms, -⟩ | ⟨-, hterms, -⟩
  · exact ⟨n, by omega, rfl⟩
  · exact ⟨n, by omega, rfl⟩

/-- A condition variable that was there keeps its wait queue. -/
theorem cond_q {c : Cond} (hc : s.Made c) : s'.cond_q c = s.cond_q c := by
  obtain ⟨n, hn, rfl⟩ := hc
  rcases h.term with ⟨-, -, hq⟩ | ⟨-, -, hq⟩
  · rw [hq]
  · rw [hq, Function.update_of_ne]
    rintro heq
    cases heq
    exact lt_irrefl _ hn

/-- A condition variable belongs to whom it belonged, or it is the new one. -/
theorem term_cases {u : ℕ} {c : Cond} (hu : (s'.thread u).term = some c) :
    (u ≠ t ∧ (s.thread u).term = some c) ∨
      (u = t ∧ c = .term s.terms ∧ s'.terms = s.terms + 1) := by
  rw [h.thread] at hu
  by_cases hut : u = t
  · rw [hut, Function.update_self] at hu
    rcases h.term with ⟨hnone, -⟩ | ⟨hsome, hterms, -⟩
    · rw [hnone] at hu
      cases hu
    · rw [hsome, Option.some_inj] at hu
      exact Or.inr ⟨hut, hu.symm, hterms⟩
  · rw [Function.update_of_ne hut] at hu
    exact Or.inl ⟨hut, hu⟩

/-- No fiber has come to a place in `st_thread_join` or `st_thread_exit`. -/
theorem pc_plain {f : ℕ} (hf : (s'.fiber f).pc.plain = false) :
    (s'.fiber f).pc = (s.fiber f).pc := by
  rw [h.fiber] at hf ⊢
  by_cases hfc : f = s.created
  · rw [hfc, Function.update_self] at hf
    cases hf
  · rw [Function.update_of_ne hfc]

/-- The links are kept. -/
theorem linked (hl : s.Linked) : s'.Linked := by
  -- The number of the condition variable for the joiner is fresh.
  have hnew : ¬s.Made (.term s.terms) := by
    rintro ⟨n, hn, heq⟩
    cases heq
    exact lt_irrefl _ hn
  -- No thread begins a join in this step.
  have hjoin : ∀ {f me c u}, (s'.fiber f).pc = .join me c u → (s.fiber f).pc = .join me c u := by
    intro f me c u hpc
    rw [← h.pc_plain (by rw [hpc]; rfl)]
    exact hpc
  refine ⟨fun f me n hpc => ?_, fun u c hu => ?_, fun u v c hu hv => ?_, fun c hc => ?_,
    fun f me c u hpc => ?_, fun f g me c u me' u' h1 h2 => hl.one f g me c u me' u' (hjoin h1) (hjoin h2),
    fun f u c r hmem => ?_⟩
  · refine hl.wait f me n ?_
    rw [← h.pc_plain (by rw [hpc]; rfl)]
    exact hpc
  · -- The new record's condition variable is the new one, if it has one.
    rw [h.log]
    rcases h.term_cases hu with ⟨-, hu⟩ | ⟨-, rfl, hterms⟩
    · exact ⟨h.made (hl.term u c hu).1, (hl.term u c hu).2⟩
    · exact ⟨⟨s.terms, by omega, rfl⟩, fun hfree => hnew (hl.free _ hfree)⟩
  · -- Two records share a condition variable only if both are the new one.
    rcases h.term_cases hu with ⟨-, hu⟩ | ⟨rfl, hc, -⟩
    · rcases h.term_cases hv with ⟨-, hv⟩ | ⟨-, hc, -⟩
      · exact hl.inj u v c hu hv
      · exact absurd (hc ▸ (hl.term u c hu).1) hnew
    · rcases h.term_cases hv with ⟨-, hv⟩ | ⟨rfl, -, -⟩
      · exact absurd (hc ▸ (hl.term v c hv).1) hnew
      · rfl
  · rw [h.log] at hc
    exact h.made (hl.free c hc)
  · obtain ⟨hmade, hq, hfree, huniq⟩ := hl.join f me c u (hjoin hpc)
    rw [h.log, h.cond_q hmade]
    refine ⟨h.made hmade, hq, hfree, fun v hv => ?_⟩
    rcases h.term_cases hv with ⟨-, hv⟩ | ⟨-, hc, -⟩
    · exact huniq v hv
    · exact absurd (hc ▸ hmade) hnew
  · rw [h.log] at hmem ⊢
    obtain ⟨hmade, hfree, hnone⟩ := hl.joined f u c r hmem
    refine ⟨h.made hmade, hfree, fun v hv => ?_⟩
    rcases h.term_cases hv with ⟨-, hv⟩ | ⟨-, hc, -⟩
    · exact hnone v hv
    · exact hnew (hc ▸ hmade)

/-- The new thread is no zombie. -/
theorem noZombie (hz : s.NoZombie) : s'.NoZombie := by
  intro u c hu hst
  rcases h.term_cases hu with ⟨hne, hu⟩ | ⟨rfl, -, -⟩
  · rw [h.thread, Function.update_of_ne hne] at hst
    exact hz u c hu hst
  · rw [h.thread, Function.update_self] at hst
    exact h.state hst

end Attaches

/-! ## Waiting for a thread -/

/-- The running fiber begins to wait for `u`, on a condition variable that nobody waits on. -/
theorem Linked.waits {s s' : St} (h : s.Linked) {me u : ℕ} {c : Cond} (hmade : s.Made c)
    (hq : s.cond_q c = []) (hfree : .condFree c ∉ s.log)
    (huniq : ∀ t, (s.thread t).term = some c → t = u)
    (h1 : ∀ t, (s'.thread t).term = (s.thread t).term) (h2 : s'.terms = s.terms)
    (h3 : s'.cond_q = Function.update s.cond_q c [me]) (h4 : s'.log = s.log)
    (h5 : s'.fiber = Function.update s.fiber s.running
      { s.fiber s.running with pc := .join me c u }) : s'.Linked := by
  have hmade' : ∀ c, s'.Made c ↔ s.Made c := by
    intro c
    unfold Made
    rw [h2]
  have hnobody : ∀ f me' u', (s.fiber f).pc ≠ .join me' c u' := by
    intro f me' u' hpc
    obtain ⟨-, hq', -⟩ := h.join f me' c u' hpc
    rw [hq] at hq'
    cases hq'
  -- A joiner is an old one on another condition variable, or the new one.
  have hcases : ∀ {f me' c' u'}, (s'.fiber f).pc = .join me' c' u' →
      (f = s.running ∧ me' = me ∧ c' = c ∧ u' = u) ∨
        (f ≠ s.running ∧ c' ≠ c ∧ (s.fiber f).pc = .join me' c' u') := by
    intro f me' c' u' hpc
    rw [h5] at hpc
    by_cases hf : f = s.running
    · rw [hf, Function.update_self] at hpc
      cases hpc
      exact Or.inl ⟨hf, rfl, rfl, rfl⟩
    · rw [Function.update_of_ne hf] at hpc
      refine Or.inr ⟨hf, ?_, hpc⟩
      rintro rfl
      exact hnobody f me' u' hpc
  refine ⟨fun f me' n hpc => ?_, fun t c' ht => ?_, fun t v c' ht hv => ?_, fun c' hc => ?_,
    fun f me' c' u' hpc => ?_, fun f g me₁ c' u₁ me₂ u₂ hf hg => ?_, fun f t c' r hmem => ?_⟩
  · rw [h5] at hpc
    by_cases hf : f = s.running
    · rw [hf, Function.update_self] at hpc
      cases hpc
    · rw [Function.update_of_ne hf] at hpc
      exact h.wait f me' n hpc
  · rw [h1] at ht
    rw [hmade', h4]
    exact h.term t c' ht
  · rw [h1] at ht hv
    exact h.inj t v c' ht hv
  · rw [h4] at hc
    rw [hmade']
    exact h.free c' hc
  · rw [hmade', h4, h3]
    rcases hcases hpc with ⟨-, rfl, rfl, rfl⟩ | ⟨-, hne, hpc⟩
    · rw [Function.update_self]
      exact ⟨hmade, rfl, hfree, fun t ht => huniq t (by rw [← h1]; exact ht)⟩
    · rw [Function.update_of_ne hne]
      obtain ⟨ha, hb, hd, he⟩ := h.join f me' c' u' hpc
      exact ⟨ha, hb, hd, fun t ht => he t (by rw [← h1]; exact ht)⟩
  · rcases hcases hf with ⟨hf, -, hc, -⟩ | ⟨-, hne, hf⟩
    · rcases hcases hg with ⟨hg, -⟩ | ⟨-, hne, -⟩
      · rw [hf, hg]
      · exact absurd hc hne
    · rcases hcases hg with ⟨-, -, hc, -⟩ | ⟨-, -, hg⟩
      · exact absurd hc hne
      · exact h.one f g me₁ c' u₁ me₂ u₂ hf hg
  · rw [h4] at hmem ⊢
    rw [hmade']
    obtain ⟨ha, hb, hd⟩ := h.joined f t c' r hmem
    exact ⟨ha, hb, fun v => by rw [h1]; exact hd v⟩

/-- `st_cond_timedwait` in the loop of `st_thread_join`. -/
theorem condBlock_linked {s s' : St} (h : s.Linked) (hz : s.NoZombie) {me u timeout : ℕ} {c : Cond}
    (hmade : s.Made c) (hq : s.cond_q c = []) (hfree : .condFree c ∉ s.log)
    (huniq : ∀ t, (s.thread t).term = some c → t = u)
    (hrun : s.condBlock me c timeout (.join me c u) = some s') : s'.Linked ∧ s'.NoZombie := by
  obtain ⟨s₁, rfl, hs₁⟩ := condBlock_paths hrun
  have hstate := s.setState_plain me (show TState.COND_WAIT ≠ .ZOMBIE by decide)
  have hqueue : (s.linkCond me c).cond_q = Function.update s.cond_q c [me] := by
    change Function.update s.cond_q c (s.cond_q c ++ [me]) = _
    rw [hq]
    rfl
  have hz₀ := hz.plain hstate
  have hz₀ : (s.linkCond me c).NoZombie := hz₀
  -- The state before the switch.
  obtain ⟨h1, h2, h3, h4, h5, h6, h7⟩ : (∀ t, (s₁.thread t).term = (s.thread t).term) ∧
      s₁.terms = s.terms ∧ s₁.cond_q = Function.update s.cond_q c [me] ∧ s₁.log = s.log ∧
      s₁.fiber = s.fiber ∧ s₁.running = s.running ∧ s₁.NoZombie := by
    rcases hs₁ with ⟨-, hs₁⟩ | ⟨-, rfl⟩
    · have hp := addSleepQ_plain hs₁
      obtain ⟨heap, -, rfl⟩ := Option.map_eq_some_iff.mp hs₁
      exact ⟨fun t => (hp.term t).trans (hstate.term t), rfl, hqueue, rfl, rfl, rfl, hz₀.plain hp⟩
    · exact ⟨hstate.term, rfl, hqueue, rfl, rfl, rfl, hz₀⟩
  have hsched := vpSchedule_plain (s₁.setPc (.join me c u))
  have hl : (s₁.setPc (.join me c u)).Linked := by
    refine h.waits hmade hq hfree huniq h1 h2 h3 h4 ?_
    unfold setPc
    dsimp only
    rw [h5, h6]
  have hz₁ : (s₁.setPc (.join me c u)).NoZombie := h7
  exact ⟨hl.of_frame hsched.linkFrame, hz₁.plain hsched⟩

/-- A join returns `0`, for a thread that has lost its condition variable. -/
theorem Linked.joins {s s' : St} (h : s.Linked) {f u : ℕ} {c : Cond} {r : ℤ} (hmade : s.Made c)
    (hfree : .condFree c ∉ s.log) (hnone : ∀ v, (s.thread v).term ≠ some c)
    (h1 : ∀ t, (s'.thread t).term = (s.thread t).term) (h2 : s'.terms = s.terms)
    (h3 : s'.cond_q = s.cond_q) (h4 : s'.log = .joined f u c r :: s.log) (h5 : s'.fiber = s.fiber) :
    s'.Linked := by
  have hmade' : ∀ c', s'.Made c' ↔ s.Made c' := by
    intro c'
    unfold Made
    rw [h2]
  have hmem : ∀ c', .condFree c' ∈ s'.log ↔ .condFree c' ∈ s.log := by
    intro c'
    rw [h4]
    simp
  refine ⟨by rw [h5]; exact h.wait, fun t c' ht => ?_, fun t v c' ht hv => ?_, fun c' hc => ?_,
    fun g me c' u' hpc => ?_, by rw [h5]; exact h.one, fun g t c' r' hj => ?_⟩
  · rw [h1] at ht
    rw [hmade', hmem]
    exact h.term t c' ht
  · rw [h1] at ht hv
    exact h.inj t v c' ht hv
  · rw [hmem] at hc
    rw [hmade']
    exact h.free c' hc
  · rw [h5] at hpc
    rw [hmade', hmem, h3]
    obtain ⟨ha, hb, hd, he⟩ := h.join g me c' u' hpc
    exact ⟨ha, hb, hd, fun t ht => he t (by rw [← h1]; exact ht)⟩
  · rw [hmade', hmem]
    rw [h4, List.mem_cons] at hj
    rcases hj with heq | hj
    · cases heq
      exact ⟨hmade, hfree, fun v => by rw [h1]; exact hnone v⟩
    · obtain ⟨ha, hb, hd⟩ := h.joined g t c' r' hj
      exact ⟨ha, hb, fun v => by rw [h1]; exact hd v⟩

/-- The loop of `st_thread_join`, when nobody waits on the condition variable. -/
theorem joinLoop_linked {s s' : St} (h : s.Linked) (hz : s.NoZombie) {u : ℕ} {c : Cond}
    (hmade : s.Made c) (hq : s.cond_q c = []) (hfree : .condFree c ∉ s.log)
    (huniq : ∀ t, (s.thread t).term = some c → t = u) (hrun : s.joinLoop c u = some s') :
    s'.Linked ∧ s'.NoZombie := by
  cases joinLoop_paths hrun with
  | joined state eq =>
    -- The thread is a zombie, so it has lost its condition variable.
    have hnone : ∀ v, (s.thread v).term ≠ some c := by
      intro v hv
      have hvu := huniq v hv
      rw [hvu] at hv
      exact hz u c hv state
    have hp := s.setState_plain u (show TState.RUNNABLE ≠ .ZOMBIE by decide)
    have hz₁ := hz.plain hp
    rw [eq]
    refine ⟨Linked.of_frame (ret_plain _ _).linkFrame ?_, NoZombie.plain ?_ (ret_plain _ _)⟩
    · exact h.joins hmade hfree hnone hp.term rfl rfl rfl rfl
    · exact hz₁
  | interrupted me _ eq =>
    have hp := s.eintr_plain me
    rw [eq]
    exact ⟨h.of_frame hp.linkFrame, hz.plain hp⟩
  | waits me _ blocks => exact condBlock_linked h hz hmade hq hfree huniq blocks

/-- `st_thread_join`. -/
theorem threadJoin_linked {s s' : St} (h : s.Linked) (hz : s.NoZombie) {u : ℕ}
    (hrun : s.threadJoin u = some s') : s'.Linked ∧ s'.NoZombie := by
  rcases threadJoin_paths hrun with ⟨r, rfl⟩ | ⟨c, hterm, hq, hrun⟩
  · exact ⟨h.of_frame (s.ret_plain r).linkFrame, hz.plain (s.ret_plain r)⟩
  · obtain ⟨hmade, hfree⟩ := h.term u c hterm
    exact joinLoop_linked h hz hmade hq hfree (fun t ht => h.inj t u c ht hterm) hrun

/-- The joiner gets the turn again and takes itself off the wait queue. -/
theorem condUnblock_linked {s : St} (h : s.Linked) {me u : ℕ} {c : Cond}
    (hpc : (s.fiber s.running).pc = .join me c u) (r : Res) :
    ((s.condUnblock me c).1.ret r).Linked ∧ ((s.condUnblock me c).1.ret r).cond_q c = [] := by
  obtain ⟨-, hq, -⟩ := h.join _ me c u hpc
  have hplain := (s.setFlags_plain me fun fl => { fl with timedout := false, interrupt := false })
  generalize hs₁ : (s.condUnblock me c).1.ret r = s₁
  have hterm : ∀ t, (s₁.thread t).term = (s.thread t).term := by
    rw [← hs₁]
    exact hplain.term
  have hterms : s₁.terms = s.terms := by rw [← hs₁]; rfl
  have hlog : s₁.log = s.log := by rw [← hs₁]; rfl
  have hcq : s₁.cond_q = Function.update s.cond_q c [] := by
    rw [← hs₁]
    change Function.update s.cond_q c ((s.cond_q c).erase me) = _
    rw [hq]
    simp
  have hfib : s₁.fiber = Function.update s.fiber s.running
      { s.fiber s.running with pc := .user r } := by
    rw [← hs₁]
    rfl
  -- The others wait on other condition variables.
  have hcases : ∀ {f me' c' u'}, (s₁.fiber f).pc = .join me' c' u' →
      c' ≠ c ∧ (s.fiber f).pc = .join me' c' u' := by
    intro f me' c' u' hf
    rw [hfib] at hf
    by_cases hfr : f = s.running
    · rw [hfr, Function.update_self] at hf
      cases hf
    · rw [Function.update_of_ne hfr] at hf
      refine ⟨?_, hf⟩
      rintro rfl
      exact hfr (h.one f s.running me' c' u' me u hf hpc)
  have hmade : ∀ c', s₁.Made c' ↔ s.Made c' := by
    intro c'
    unfold Made
    rw [hterms]
  refine ⟨⟨fun f me' n hf => ?_, fun t c' ht => ?_, fun t v c' ht hv => ?_, fun c' hc => ?_,
    fun f me' c' u' hf => ?_, fun f g me₁ c' u₁ me₂ u₂ hf hg => ?_, fun f t c' r' hj => ?_⟩, ?_⟩
  · rw [hfib] at hf
    by_cases hfr : f = s.running
    · rw [hfr, Function.update_self] at hf
      cases hf
    · rw [Function.update_of_ne hfr] at hf
      exact h.wait f me' n hf
  · rw [hterm] at ht
    rw [hmade, hlog]
    exact h.term t c' ht
  · rw [hterm] at ht hv
    exact h.inj t v c' ht hv
  · rw [hlog] at hc
    rw [hmade]
    exact h.free c' hc
  · obtain ⟨hne, hf⟩ := hcases hf
    obtain ⟨ha, hb, hd, he⟩ := h.join f me' c' u' hf
    rw [hmade, hlog, hcq, Function.update_of_ne hne]
    exact ⟨ha, hb, hd, fun t ht => he t (by rw [← hterm]; exact ht)⟩
  · exact h.one f g me₁ c' u₁ me₂ u₂ (hcases hf).2 (hcases hg).2
  · rw [hlog] at hj ⊢
    rw [hmade]
    obtain ⟨ha, hb, hd⟩ := h.joined f t c' r' hj
    exact ⟨ha, hb, fun v => by rw [hterm]; exact hd v⟩
  · rw [hcq, Function.update_self]

/-- `st_thread_join`, after a wait in its loop. -/
theorem joinEnd_linked {s s' : St} (h : s.Linked) (hz : s.NoZombie) {me u : ℕ} {c : Cond}
    (hpc : (s.fiber s.running).pc = .join me c u) (hrun : s.joinEnd me c u = some s') :
    s'.Linked ∧ s'.NoZombie := by
  obtain ⟨hmade, -, hfree, huniq⟩ := h.join _ me c u hpc
  have hplain := (s.setFlags_plain me fun fl => { fl with timedout := false, interrupt := false })
  have hz₀ := hz.plain hplain
  have hz' : (s.condUnblock me c).1.NoZombie := hz₀
  rcases joinEnd_paths hrun with ⟨e, rfl⟩ | hrun
  · exact ⟨(condUnblock_linked h hpc _).1, hz'.plain (ret_plain _ _)⟩
  · rw [← joinLoop_ret _ c u (.ok 0)] at hrun
    obtain ⟨hl, hq⟩ := condUnblock_linked h hpc (.ok 0)
    refine joinLoop_linked hl (hz'.plain (ret_plain _ _)) hmade hq hfree (fun t ht => huniq t ?_) hrun
    rw [← hplain.term t]
    exact ht

/-! ## Termination -/

/-- The history of a thread does not matter. -/
theorem setLife_linkFrame (s : St) (id : ℕ) (f : Life → Life) : LinkFrame s (s.setLife id f) :=
  .of_eq (fun _ => rfl) rfl (fun _ => rfl) rfl rfl

/-- The end of `st_thread_exit`, after the last switch. -/
theorem exitReturn_linked {s : St} (h : s.Linked) (hz : s.NoZombie) (explicit : Bool) :
    (s.exitReturn explicit).Linked ∧ (s.exitReturn explicit).NoZombie := by
  unfold exitReturn
  split_ifs
  · have hl := h.of_frame (s.setLife_linkFrame s.running fun l => { l with back := true })
    exact ⟨hl.of_frame (ret_plain _ _).linkFrame, hz⟩
  · refine ⟨?_, hz⟩
    have hp : Plain s (s.setPc .out) := s.setPc_plain rfl
    refine Linked.of_frame ?_ (h.of_frame hp.linkFrame)
    exact .of_eq (fun _ => rfl) rfl (fun _ => rfl) rfl rfl

/-- The release of the stack. -/
theorem exitFree_linked {s : St} (h : s.Linked) (hz : s.NoZombie) (t : ℕ) (explicit : Bool) :
    (s.exitFree t explicit).Linked ∧ (s.exitFree t explicit).NoZombie := by
  unfold exitFree
  dsimp only
  generalize hs₁ : (if (s.thread t).flags.primordial then s else
    (s.stackFree t).setLife (s.thread t).id fun l => { l with freed := l.freed + 1 }) = s₁
  have hframe : LinkFrame s s₁ := by
    rw [← hs₁]
    split_ifs
    · exact (Plain.refl s).linkFrame
    · exact .of_eq (fun _ => rfl) rfl (fun _ => rfl) rfl rfl
  have hz₁ : s₁.NoZombie := by
    rw [← hs₁]
    split_ifs
    · exact hz
    · exact hz
  have hpc : Plain s₁ (s₁.setPc (.exitEnd explicit)) := s₁.setPc_plain rfl
  have hp := hpc.trans (switchContext_plain _ t)
  exact ⟨(h.of_frame hframe).of_frame hp.linkFrame, hz₁.plain hp⟩

/-- The record of a thread that has entered `st_thread_exit`. -/
theorem enterExit_linked {s : St} (h : s.Linked) (t : ℕ) (retval : ℤ) :
    (s.enterExit t retval).Linked := by
  have hframe : LinkFrame s (s.enterExit t retval) := by
    refine .of_eq (fun u => ?_) rfl (fun _ => rfl) rfl rfl
    rw [enterExit_thread]
    by_cases hu : u = t
    · rw [hu, Function.update_self]
    · rw [Function.update_of_ne hu]
  exact h.of_frame hframe

/-- It is the only zombie with a condition variable. -/
theorem NoZombie.enterExit {s : St} (hz : s.NoZombie) {t u : ℕ} {retval : ℤ} {c : Cond}
    (hu : ((s.enterExit t retval).thread u).term = some c)
    (hst : ((s.enterExit t retval).thread u).state = .ZOMBIE) : u = t := by
  by_contra hne
  rw [enterExit_thread, Function.update_of_ne hne] at hu hst
  exact hz u c hu hst

/-- A thread enters `st_thread_exit` on its own fiber. -/
theorem threadExit_linked {s s' : St} (h : s.Linked) (hz : s.NoZombie) {retval : ℤ} {explicit : Bool}
    (hself : ∀ t, s.this_thread = some t → (s.thread t).context = some s.running)
    (hrun : s.threadExit retval explicit = some s') : s'.Linked ∧ s'.ZombieRuns := by
  cases threadExit_paths hrun with
  | outside _ eq =>
    obtain ⟨hl, hz⟩ := exitReturn_linked h hz explicit
    exact eq ▸ ⟨hl, hz.runs⟩
  | frees t _ term eq =>
    have hz₁ : (s.enterExit t retval).NoZombie := by
      intro u c hu hst
      rw [hz.enterExit hu hst, enterExit_thread, Function.update_self] at hu
      exact absurd (hu.symm.trans term) (by simp)
    obtain ⟨hl, hz⟩ := exitFree_linked (enterExit_linked h t retval) hz₁ t explicit
    exact eq ▸ ⟨hl, hz.runs⟩
  | signals t c s₁ this _ signal eq =>
    have hsig := condSignalLoop_plain _ _ signal
    obtain ⟨hrunning, -⟩ := condSignalLoop_running _ _ signal
    have hzombie : LinkFrame (s.enterExit t retval)
        { s.enterExit t retval with zombie_q := s.zombie_q ++ [t] } :=
      .of_eq (fun _ => rfl) rfl (fun _ => rfl) rfl rfl
    have hl₁ := ((enterExit_linked h t retval).of_frame hzombie).of_frame hsig.linkFrame
    -- The switch is to the fiber itself.
    have hcontext : (s₁.thread t).context = some s₁.running := by
      rw [hsig.context, hrunning]
      change ((s.enterExit t retval).thread t).context = some s.running
      rw [enterExit_thread, Function.update_self]
      exact hself t this
    have hswitch : (s₁.setPc (.exitTerm t explicit)).switchContext t =
        s₁.setPc (.exitTerm t explicit) := by
      unfold switchContext
      have hpc : ((s₁.setPc (.exitTerm t explicit)).thread t).context = some s₁.running := hcontext
      rw [hpc]
      rfl
    rw [eq, hswitch]
    refine ⟨hl₁.of_frame (s₁.setPc_plain rfl).linkFrame, fun u c' hu hst => ?_⟩
    have hu' := (hsig.term u).symm.trans hu
    rw [hz.enterExit hu' (hsig.zombie u hst)]
    exact ⟨explicit, by simp [setPc]⟩

/-- `thread->term = NULL`. -/
theorem forget_term {s : St} {t u : ℕ} {c : Cond}
    (h : ((s.setThread t fun th => { th with term := none }).thread u).term = some c) :
    u ≠ t ∧ (s.setThread t fun th => { th with term := none }).thread u = s.thread u := by
  unfold setThread at h ⊢
  dsimp only at h ⊢
  by_cases hu : u = t
  · rw [hu, Function.update_self] at h
    cases h
  · exact ⟨hu, Function.update_of_ne hu _ _⟩

/-- A condition variable that is destroyed is forgotten. -/
theorem Linked.forgets {s : St} (h : s.Linked) (t : ℕ) :
    (s.setThread t fun th => { th with term := none }).Linked := by
  refine ⟨h.wait, fun u c hu => ?_, fun u v c hu hv => ?_, h.free, fun f me c u hf => ?_, h.one,
    fun f u c r hj => ?_⟩
  · rw [(forget_term hu).2] at hu
    exact h.term u c hu
  · rw [(forget_term hu).2] at hu
    rw [(forget_term hv).2] at hv
    exact h.inj u v c hu hv
  · obtain ⟨hmade, hq, hfree, huniq⟩ := h.join f me c u hf
    refine ⟨hmade, hq, hfree, fun v hv => huniq v ?_⟩
    rw [← (forget_term hv).2]
    exact hv
  · obtain ⟨hmade, hfree, hnone⟩ := h.joined f u c r hj
    refine ⟨hmade, hfree, fun v hv => hnone v ?_⟩
    rw [← (forget_term hv).2]
    exact hv

/-- A condition variable is destroyed that no thread has, nobody waits on, and nobody has joined on. -/
theorem Linked.destroys {s : St} (h : s.Linked) {c : Cond} (hmade : s.Made c) (hq : s.cond_q c = [])
    (hnone : ∀ u, (s.thread u).term ≠ some c) (hjoined : ∀ f u r, .joined f u c r ∉ s.log) :
    (s.note (.condFree c)).Linked := by
  have hfree : ∀ {c'}, c' ≠ c → .condFree c' ∉ s.log → .condFree c' ∉ (s.note (.condFree c)).log := by
    intro c' hne hnot
    rintro (_ | ⟨_, hmem⟩)
    · exact hne rfl
    · exact hnot hmem
  refine ⟨h.wait, fun u c' hu => ?_, h.inj, fun c' hc => ?_, fun f me c' u hf => ?_, h.one,
    fun f u c' r hj => ?_⟩
  · obtain ⟨hmade', hnot⟩ := h.term u c' hu
    refine ⟨hmade', hfree ?_ hnot⟩
    rintro rfl
    exact hnone u hu
  · rcases List.mem_cons.mp hc with heq | hc
    · cases heq
      exact hmade
    · exact h.free c' hc
  · obtain ⟨hmade', hq', hnot, huniq⟩ := h.join f me c' u hf
    refine ⟨hmade', hq', hfree ?_ hnot, huniq⟩
    rintro rfl
    rw [hq] at hq'
    cases hq'
  · rcases List.mem_cons.mp hj with heq | hmem
    · cases heq
    · obtain ⟨hmade', hnot, hterm⟩ := h.joined f u c' r hmem
      refine ⟨hmade', hfree ?_ hnot, hterm⟩
      rintro rfl
      exact hjoined f u r hmem

/-- `st_thread_exit` destroys the condition variable, if nobody waits on it. -/
theorem exitTermEnd_linked {s s' : St} (h : s.Linked) (hz : s.ZombieRuns) {t : ℕ} {explicit : Bool}
    (hpc : (s.fiber s.running).pc = .exitTerm t explicit)
    (hrun : s.exitTermEnd t explicit = some s') : s'.Linked ∧ s'.NoZombie := by
  obtain ⟨c, s₁, hterm, hs₁, rfl⟩ := exitTermEnd_paths hrun
  have hz₁ : (s.setThread t fun th => { th with term := none }).NoZombie := by
    intro u c' hu hst
    obtain ⟨hne, hsame⟩ := forget_term hu
    rw [hsame] at hu hst
    obtain ⟨e, he⟩ := hz u c' hu hst
    rw [hpc] at he
    cases he
    exact hne rfl
  rcases hs₁ with rfl | ⟨rfl, hq⟩
  · exact exitFree_linked (h.forgets t) hz₁ t explicit
  · have hl : ((s.setThread t fun th => { th with term := none }).note (.condFree c)).Linked := by
      refine (h.forgets t).destroys (h.term t c hterm).1 hq (fun u hu => ?_) fun f u r hj => ?_
      · obtain ⟨hne, hsame⟩ := forget_term hu
        rw [hsame] at hu
        exact hne (h.inj u t c hu hterm)
      · exact (h.joined f u c r hj).2.2 t hterm
    exact exitFree_linked hl hz₁ t explicit

/-! ## Runs -/

/-- If the step enters `st_thread_exit`, then it does so on the fiber of the thread that exits. -/
def ExitsSelf (s : St) (l : Label) : Prop :=
  s.Enters l → s.This fun t => (s.thread t).context = some s.running

instance (s : St) (l : Label) : Decidable (s.ExitsSelf l) :=
  inferInstanceAs (Decidable (_ → _))

/-- One step keeps the links. -/
theorem step_linked {s s' : St} {l : Label} (h : s.Linked ∧ s.ZombieRuns) (hok : s.ExitsSelf l)
    (hstep : s.step l = some s') : s'.Linked ∧ s'.ZombieRuns := by
  obtain ⟨hl, hz⟩ := h
  have huser : ∀ {r}, (s.fiber s.running).pc = .user r → s.NoZombie := by
    intro r hpc
    refine hz.none fun t e he => ?_
    rw [hpc] at he
    cases he
  rcases step_cases (hl.wait _) hstep with ⟨hp, hpc⟩ | ⟨joinable, stk_size, ok, r, r', hpc, rfl⟩ |
    ⟨t, r, hpc, hj⟩ | ⟨me, c, t, hpc, hj⟩ | ⟨s₀, v, e, henters, hpc, hp, hthis, hrun, hx⟩ |
    ⟨t, e, hpc, hx⟩ | ⟨e, hpc, rfl⟩
  · exact ⟨hl.of_frame hp.linkFrame, ((hz.none hpc).plain hp).runs⟩
  · have hz := huser hpc
    have hret := ret_plain (s.threadCreate (.user (.ok 0)) joinable stk_size ok).1 r'
    rcases s.threadCreate_attaches joinable stk_size ok with heq | ⟨t, th, ha⟩
    · rw [heq] at hret ⊢
      exact ⟨hl.of_frame hret.linkFrame, (hz.plain hret).runs⟩
    · exact ⟨(ha.linked hl).of_frame hret.linkFrame, ((ha.noZombie hz).plain hret).runs⟩
  · obtain ⟨hl', hz'⟩ := threadJoin_linked hl (huser hpc) hj
    exact ⟨hl', hz'.runs⟩
  · obtain ⟨hl', hz'⟩ := joinEnd_linked hl (hz.none (by rw [hpc]; exact fun _ _ h => by cases h)) hpc hj
    exact ⟨hl', hz'.runs⟩
  · have hself := hok henters
    refine threadExit_linked (hl.of_frame hp.linkFrame) ((hz.none hpc).plain hp) (fun t ht => ?_) hx
    rw [hp.context, hrun]
    exact hself.some (hthis.symm.trans ht)
  · obtain ⟨hl', hz'⟩ := exitTermEnd_linked hl hz hpc hx
    exact ⟨hl', hz'.runs⟩
  · obtain ⟨hl', hz'⟩ := exitReturn_linked hl (hz.none (by rw [hpc]; exact fun _ _ h => by cases h)) e
    exact ⟨hl', hz'.runs⟩

/-- There are no termination condition variables at the start. -/
theorem init_linked (pagesize : ℤ) (last_clock : ℕ) :
    (init pagesize last_clock).Linked ∧ (init pagesize last_clock).ZombieRuns := by
  have hterm : ∀ t, ((init pagesize last_clock).thread t).term = none := by
    intro t
    rw [init_thread]
    by_cases ht : t = 0
    · rw [ht, Function.update_self]
      rfl
    · rw [Function.update_of_ne ht]
      rfl
  have hpc : ∀ f, ((init pagesize last_clock).fiber f).pc.plain = true := by
    intro f
    rw [init_fiber]
    by_cases hf : f = 1
    · rw [hf, Function.update_self]
      rfl
    · rw [Function.update_of_ne hf]
      rfl
  have hnone : ∀ {t c}, ((init pagesize last_clock).thread t).term = some c → False := by
    intro t c ht
    rw [hterm] at ht
    cases ht
  have hjoin : ∀ {f me c u}, ((init pagesize last_clock).fiber f).pc = .join me c u → False := by
    intro f me c u hf
    have := hpc f
    rw [hf] at this
    cases this
  refine ⟨⟨(init_tally pagesize last_clock).wait, fun _ _ ht => (hnone ht).elim,
    fun _ _ _ ht => (hnone ht).elim, fun _ hc => (by cases hc), fun _ _ _ _ hf => (hjoin hf).elim,
    fun _ _ _ _ _ _ _ hf => (hjoin hf).elim, fun _ _ _ _ hj => (by cases hj)⟩,
    fun _ _ ht => (hnone ht).elim⟩

/-- The join of the thread on the stack `t`, by the fiber `f`, has done its work: it has returned `0`
with the value `v`, the thread is on no zombie queue, and its condition variable was destroyed
once. -/
def Delivered (s : St) (f t : ℕ) (c : Cond) (v : ℤ) : Prop :=
  .joined f t c v ∈ s.log ∧ t ∉ s.zombie_q ∧ s.log.count (.condFree c) = 1

/-- In each run in which threads terminate on their own fibers, no join does its work: if it returns
`0`, then the condition variable is not destroyed. -/
theorem run_join_leaks (pagesize : ℤ) (last_clock : ℕ) (ls : List Label) {s : St}
    (hrun : Runs.run step (init pagesize last_clock) ls = some s)
    (hok : Runs.Meets step ExitsSelf (init pagesize last_clock) ls) (f t : ℕ) (c : Cond) (v : ℤ) :
    ¬s.Delivered f t c v := by
  have h : s.Linked ∧ s.ZombieRuns :=
    Runs.run_invariant step_linked (init_linked pagesize last_clock) hok hrun
  rintro ⟨hjoined, -, hcount⟩
  have hfree := (h.1.joined f t c v hjoined).2.1
  rw [List.count_eq_zero.mpr hfree] at hcount
  cases hcount

/-- A joiner waits, and then the thread returns `7`. -/
def joinsFirst : List Label :=
  [.call (.create false 0 ⟨true, true, true⟩), .call (.create true 0 ⟨true, true, true⟩),
    .call (.usleep 1), .call (.join 2), .ret 7, .resume, .resume, .call (.usleep 1), .resume]

/-- The join returns `0`, and the condition variable is never destroyed. -/
theorem run_join_leaks_joinsFirst : ∃ s, Runs.run step (init 4096 0) joinsFirst = some s ∧
    ¬s.Delivered 2 2 (.term 0) 7 :=
  ⟨(Runs.run step (init 4096 0) joinsFirst).get (by decide), by simp,
    run_join_leaks 4096 0 joinsFirst (by simp) (by decide) 2 2 (.term 0) 7⟩

/-- The join returns `0`, but with the value `0`, and the condition variable is not destroyed. -/
theorem run_join_wrong_value : ∃ s, Runs.run step (init 4096 0) joinsFirst = some s ∧
    .returned 3 7 ∈ s.log ∧ .joined 2 2 (.term 0) 0 ∈ s.log ∧ .joined 2 2 (.term 0) 7 ∉ s.log ∧
    s.log.count (.condFree (.term 0)) = 0 :=
  ⟨(Runs.run step (init 4096 0) joinsFirst).get (by decide), by simp, by decide, by decide, by decide,
    by decide⟩

end StWin.St
