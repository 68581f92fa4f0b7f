import StWin.Sched.Switch
import StWin.Event.Runs

/-!
# What a running thread does to itself

A call of the library by a running thread changes the thread's own record, the place where its fiber
continues, and its own links. `Acts` says so, and `Core.act` is the rule for it: coherence is kept if
the new record, the new place, and the new links of the thread fit together. Both halves of each
waiting call are instances, the one before the switch and the one after it.
-/

namespace StWin.St

/-- From `s` to `s'`, the running thread `t` has assigned `th` to its record and continues at `pc`.
Its links are left open. -/
structure Acts (s s' : St) (t : ℕ) (th : Thread) (pc : Pc) : Prop where
  thread : s'.thread = Function.update s.thread t th
  fiber : s'.fiber = Function.update s.fiber s.running { s.fiber s.running with pc := pc }
  id : th.id = (s.thread t).id
  context : th.context = (s.thread t).context
  term : th.term = (s.thread t).term
  primordial : th.flags.primordial = (s.thread t).flags.primordial
  run_q : s'.run_q = s.run_q
  running : s'.running = s.running
  this_thread : s'.this_thread = s.this_thread
  threads : s'.threads = s.threads
  life : s'.life = s.life
  free_stacks : s'.free_stacks = s.free_stacks
  segments : s'.segments = s.segments
  zombie_q : s'.zombie_q = s.zombie_q
  idle_thread : s'.idle_thread = s.idle_thread
  created : s'.created = s.created
  active_count : s'.active_count = s.active_count

namespace Acts

variable {s s' : St} {t : ℕ} {th : Thread} {pc : Pc}

/-- Besides the record and the place, only links and the log are assigned to. -/
theorem of_links (hthread : s'.thread = Function.update s.thread t th)
    (hrest : s' = { s with
      thread := s'.thread
      fiber := Function.update s.fiber s.running { s.fiber s.running with pc := pc }
      heap := s'.heap
      ev := s'.ev
      cond_q := s'.cond_q
      mutex := s'.mutex
      log := s'.log })
    (hid : th.id = (s.thread t).id) (hcontext : th.context = (s.thread t).context)
    (hterm : th.term = (s.thread t).term)
    (hprimordial : th.flags.primordial = (s.thread t).flags.primordial) : Acts s s' t th pc := by
  refine ⟨hthread, ?_, hid, hcontext, hterm, hprimordial, ?_, ?_, ?_, ?_, ?_, ?_, ?_, ?_, ?_, ?_, ?_⟩
  all_goals
    rw [hrest]

variable (h : Acts s s' t th pc)
include h

/-- The record of the running thread. -/
theorem thread_self : s'.thread t = th := by
  rw [h.thread, Function.update_self]

/-- The other records are as they were. -/
theorem thread_of_ne {u : ℕ} (hu : u ≠ t) : s'.thread u = s.thread u := by
  rw [h.thread, Function.update_of_ne hu]

/-- No fiber changes hands. -/
theorem id_eq (u : ℕ) : (s'.thread u).id = (s.thread u).id := by
  by_cases hu : u = t
  · rw [hu, h.thread_self, h.id]
  · rw [h.thread_of_ne hu]

/-- No fiber gets another record. -/
theorem thd (f : ℕ) : (s'.fiber f).thd = (s.fiber f).thd := by
  rw [h.fiber]
  by_cases hf : f = s.running
  · rw [hf, Function.update_self]
  · rw [Function.update_of_ne hf]

/-- The other fibers are where they were. -/
theorem pc_of_ne {f : ℕ} (hf : f ≠ s.running) : (s'.fiber f).pc = (s.fiber f).pc := by
  rw [h.fiber, Function.update_of_ne hf]

/-- The running fiber goes on at `pc`. -/
theorem pc_running : (s'.fiber s.running).pc = pc := by
  rw [h.fiber, Function.update_self]

/-- The same threads are live. -/
theorem live (u : ℕ) : s'.Live u ↔ s.Live u := by
  unfold Live
  rw [h.id_eq, h.threads, h.life, h.thd]

/-- The same threads are live, with the fibers and stacks that they had. -/
theorem sameLives (hl : s.Live t) : SameLives s s' :=
  SameLives.of_update h.thread h.id h.context h.term h.primordial (Or.inl hl) h.thd
    (fun _ hf => h.pc_of_ne hf) h.threads h.life h.free_stacks h.segments h.zombie_q h.idle_thread
    h.created h.active_count

/-- The thread goes on at `pc`. -/
theorem pcOf_self (hr : s.Runs t) : s'.pcOf t = pc := by
  unfold pcOf
  rw [h.id_eq, ← hr.running, h.pc_running]

end Acts

/-- What the event system's part of a move does for the pollqs of the other threads. -/
structure EvFrame (ev ev' : Ev) (t : ℕ) : Prop where
  io_q : ∀ q, (ev'.pollq q).thread ≠ t → q ∈ ev'.io_q →
    q ∈ ev.io_q ∧ (ev.pollq q).thread = (ev'.pollq q).thread
  pollq : ∀ q, (ev.pollq q).thread ≠ t → q < ev.next → (ev'.pollq q).thread = (ev.pollq q).thread ∧
    (ev'.pollq q).on_ioq = (ev.pollq q).on_ioq ∧ (q ∈ ev.io_q → q ∈ ev'.io_q)
  next : ev.next ≤ ev'.next

/-- Nothing has changed in the event system. -/
theorem EvFrame.refl (ev : Ev) (t : ℕ) : EvFrame ev ev t :=
  ⟨fun _ _ h => ⟨h, rfl⟩, fun _ _ _ => ⟨rfl, rfl, id⟩, le_rfl⟩

/-- The thread whose fiber runs is the only one with that fiber. -/
theorem Runs.ne_running {s : St} {t : ℕ} (hr : s.Runs t) :
    ∀ u, u ≠ t → s.Live u → (s.thread u).id ≠ s.running := by
  intro u hu hl heq
  exact hu (hr.live.inj hl (heq.trans hr.running))

/-- The links of the running thread after it acts. -/
structure Links (s s' : St) (t : ℕ) (pc : Pc) : Prop where
  cond_q : ∀ c u, u ∈ s'.cond_q c ↔ (u ≠ t ∧ u ∈ s.cond_q c) ∨ (u = t ∧ pc.waitsOn c)
  cond_nodup : ∀ c, (s'.cond_q c).Nodup
  wait_q : ∀ m u, u ∈ (s'.mutex m).wait_q ↔
    (u ≠ t ∧ u ∈ (s.mutex m).wait_q) ∨ (u = t ∧ pc.waitsFor m)
  wait_nodup : ∀ m, (s'.mutex m).wait_q.Nodup
  ev : EvFrame s.ev s'.ev t
  io_q : ∀ q ∈ s'.ev.io_q, (s'.ev.pollq q).thread = t → pc = .poll t q
  counted : Ev.Counted s'.ev

/-- The rule for an action of the running thread. -/
theorem Core.act {s s' : St} {t : ℕ} {th : Thread} {pc : Pc} (h : s.Core []) (hr : s.Runs t)
    (ha : Acts s s' t th pc) (hlinks : Links s s' t pc) (hstate : th.state ≠ .RUNNABLE)
    (hon : th.flags.on_sleepq = true →
      th.state = .SLEEPING ∨ th.state = .IO_WAIT ∨ th.state = .COND_WAIT)
    (hpc : s'.PcFits t pc) (hfits : s'.StateFits [] t th.state) (hsleep : s'.SleepOk) :
    s'.Core [] := by
  have hpcs := ha.pcOf_self hr
  have hnot : t ∉ s.run_q := by
    intro hmem
    have := ((h.recs t).run_q.mp hmem).2
    rw [hr.state] at this
    cases this
  -- Nothing changes for the other threads, and the links say what changes for `t`.
  have hframe : Frame s s' t := by
    refine ⟨fun u hu => ha.thread_of_ne hu, fun u _ => ha.live u,
      fun c _ _ _ hl ht => ⟨(ha.live t).mpr hl, by rw [ha.thread_self, ha.term]; exact ht⟩,
      fun u hu hl => ?_,
      fun u _ => by rw [ha.run_q], fun c u hu => ?_, fun m u hu => ?_, hlinks.ev.io_q,
      hlinks.ev.pollq, hlinks.ev.next, fun u _ _ hrun hthis _ => ?_⟩
    · unfold pcOf
      rw [ha.id_eq, ha.pc_of_ne (hr.ne_running u hu hl)]
    · rw [hlinks.cond_q]
      simp [hu]
    · rw [hlinks.wait_q]
      simp [hu]
    · rw [ha.running, ha.this_thread]
      exact ⟨hrun, hthis⟩
  refine h.move hframe ⟨?_, ?_, ?_, ?_, ?_, ?_, ?_, ?_⟩ (fun _ h _ => h) ?_ hlinks.cond_nodup
    hlinks.wait_nodup hsleep hlinks.counted
  · rw [ha.run_q, ha.thread_self]
    simp [hnot, hstate]
  · intro c
    rw [hlinks.cond_q, ha.live, hpcs]
    simp [hr.live]
  · intro m
    rw [hlinks.wait_q, ha.live, hpcs]
    simp [hr.live]
  · intro q hq howner
    rw [ha.live, hpcs]
    exact ⟨hr.live, hlinks.io_q q hq howner⟩
  · rw [ha.thread_self, ha.live]
    exact fun h => ⟨hr.live, hon h⟩
  · intro _
    rw [ha.thread_self, ha.context, ha.id]
    exact (h.recs t).context hr.live
  · intro _
    rw [hpcs]
    exact hpc
  · intro _
    rw [ha.thread_self]
    exact hfits
  · rw [ha.run_q]
    exact h.run_nodup

/-- A thread that is running is neither on the run queue nor on the sleep queue. -/
theorem Core.off_sleepq {s : St} {t : ℕ} (h : s.Core []) (hr : s.Runs t) :
    (s.thread t).flags.on_sleepq = false := by
  rw [Bool.eq_false_iff]
  intro hon
  have := ((h.recs t).sleep_q hon).2
  rw [hr.state] at this
  simp at this

/-- A thread in code of the program is on no wait queue, and no pollq is its own. -/
theorem Core.unlinked {s : St} {t : ℕ} {r : Res} (h : s.Core []) (hpc : s.pcOf t = .user r) :
    (∀ c, t ∉ s.cond_q c) ∧ (∀ m, t ∉ (s.mutex m).wait_q) ∧
      ∀ q ∈ s.ev.io_q, (s.ev.pollq q).thread ≠ t := by
  refine ⟨fun c hmem => ?_, fun m hmem => ?_, fun q hq howner => ?_⟩
  · have := (((h.recs t).cond_q c).mp hmem).2
    rw [hpc] at this
    exact this
  · have := (((h.recs t).wait_q m).mp hmem).2
    rw [hpc] at this
    exact this
  · have := ((h.recs t).io_q q hq howner).2
    rw [hpc] at this
    cases this

/-- The links of a thread that stays in code of the program. -/
theorem Links.user {s s' : St} {t : ℕ} {r r' : Res} (h : s.Core []) (hpc : s.pcOf t = .user r)
    (hc : s'.cond_q = s.cond_q) (hw : ∀ m, (s'.mutex m).wait_q = (s.mutex m).wait_q)
    (he : s'.ev = s.ev) : Links s s' t (.user r') := by
  obtain ⟨h1, h2, h3⟩ := h.unlinked hpc
  refine ⟨fun c u => ?_, by rw [hc]; exact h.cond_nodup, fun m u => ?_,
    fun m => by rw [hw]; exact h.wait_nodup m, by rw [he]; exact EvFrame.refl _ _, ?_,
    by rw [he]; exact h.ev⟩
  · rw [hc]
    by_cases hu : u = t
    · subst hu
      simp [h1 c, Pc.waitsOn]
    · simp [hu]
  · rw [hw]
    by_cases hu : u = t
    · subst hu
      simp [h2 m, Pc.waitsFor]
    · simp [hu]
  · rw [he]
    exact fun q hq howner => absurd howner (h3 q hq)

/-- The heap after an action that leaves the flag `ON_SLEEPQ`. -/
theorem Acts.sleepOk {s s' : St} {t : ℕ} {th : Thread} {pc : Pc} (ha : Acts s s' t th pc)
    (h : s.SleepOk) (hheap : s'.heap = s.heap)
    (hon : th.flags.on_sleepq = (s.thread t).flags.on_sleepq) : s'.SleepOk := by
  obtain ⟨S, hw, hS⟩ := h
  refine ⟨S, by rw [hheap]; exact hw, fun u => (hS u).trans ?_⟩
  by_cases hu : u = t
  · rw [hu, ha.thread_self, hon]
  · rw [ha.thread_of_ne hu]

end StWin.St
