import StWin.Sched.Exit
import StWin.Event.Report

/-!
# The steps of `main` and of the idle thread

`main`, the idle thread, and a fiber that is past `st_thread_exit` are not live threads. What they do
to themselves concerns nobody else: `Aside`. They also wake other threads and give away the turn.
-/

namespace StWin.St

/-- The fiber that runs is not that of a live thread. -/
def OffTurn (s : St) : Prop := ∀ u, s.Live u → (s.thread u).id ≠ s.running

/-- `main` and the idle thread are not live threads. -/
theorem OffTurn.of_lt {s : St} (ho : s.Ownership) (h : s.running < 2) : s.OffTurn := by
  intro u hl heq
  have := ho.live_id hl
  omega

/-- No live thread is marked as running. -/
theorem OffTurn.parked {s : St} (h : s.OffTurn) (hc : s.Core []) : s.Parked := by
  intro u hl hst
  have hfits := (hc.recs u).state hl
  rw [hst] at hfits
  exact h u hl hfits.1.symm

/-- From `s` to `s'` nothing has changed but the turn, the place of the fiber that ran, and the state
of the idle thread. -/
structure Aside (s s' : St) : Prop where
  lives : SameLives s s'
  thread : ∀ u, u ≠ 0 → s'.thread u = s.thread u
  sleep : (s'.thread 0).flags.on_sleepq = (s.thread 0).flags.on_sleepq
  run_q : s'.run_q = s.run_q
  cond_q : s'.cond_q = s.cond_q
  wait_q : ∀ m, (s'.mutex m).wait_q = (s.mutex m).wait_q
  ev : s'.ev = s.ev
  heap : s'.heap = s.heap

/-- A fiber that goes on at another place. -/
theorem setPc_aside (s : St) (pc : Pc) : Aside s (s.setPc pc) :=
  ⟨setPc_sameLives s pc, fun _ _ => rfl, rfl, rfl, rfl, fun _ => rfl, rfl, rfl⟩

namespace Aside

variable {s s' : St} (h : Aside s s')
include h

/-- The live threads are where they were. -/
theorem pcOf (hoff : s.OffTurn) {u : ℕ} (hl : s.Live u) : s'.pcOf u = s.pcOf u := by
  unfold St.pcOf
  rw [h.lives.id, h.lives.pc _ (hoff u hl)]

/-- The queues stay in order. -/
theorem core (hc : s.Core []) (ho : s.Ownership) (hoff : s.OffTurn) : s'.Core [] := by
  obtain ⟨h1, h2, h3, h4, h5⟩ := (hc.recs 0).not_live ho.not_live_zero
  have hframe : Frame s s' 0 := by
    refine ⟨h.thread, fun u _ => h.lives.live u, fun c _ _ _ hl _ => absurd hl ho.not_live_zero,
      fun u _ hl => h.pcOf hoff hl, fun u _ => by rw [h.run_q], fun c u _ => by rw [h.cond_q],
      fun m u _ => by rw [h.wait_q], ?_, ?_, by rw [h.ev],
      fun u _ hl _ _ hst => absurd hst (hoff.parked hc u hl)⟩
    · rw [h.ev]
      exact fun q _ hq => ⟨hq, rfl⟩
    · rw [h.ev]
      exact fun q _ _ => ⟨rfl, rfl, fun hq => hq⟩
  refine hc.move hframe ?_ (fun _ h _ => h) (by rw [h.run_q]; exact hc.run_nodup)
    (by rw [h.cond_q]; exact hc.cond_nodup) (fun m => by rw [h.wait_q]; exact hc.wait_nodup m) ?_
    (by rw [h.ev]; exact hc.ev)
  · refine Rec.of_not_live (fun hl => ho.not_live_zero ((h.lives.live 0).mp hl))
      (by rw [h.run_q]; exact h1) (by rw [h.cond_q]; exact h2) (fun m => by rw [h.wait_q]; exact h3 m)
      (by rw [h.ev]; exact h4) (by rw [h.sleep]; exact h5)
  · refine hc.sleep.congr h.heap fun u => ?_
    by_cases hu : u = 0
    · rw [hu, h.sleep]
    · rw [h.thread u hu]

/-- The mutexes, and the threads that wait for them, stay as they are. -/
theorem lockFrame (ho : s.Ownership) (hoff : s.OffTurn) (hmutex : s'.mutex = s.mutex)
    (hlog : ∃ l, s'.log = l ++ s.log ∧ ∀ n ∈ l, n.isMutex = false) : LockFrame s s' := by
  refine ⟨hmutex, hlog, fun u m hl hpc => ?_, fun u m hl hpc => ?_⟩
  · rw [h.thread u (ho.live_ne_zero hl), h.pcOf hoff hl]
    exact ⟨(h.lives.live u).mpr hl, hpc, fun h => h, fun h => Or.inl h, fun h => h⟩
  · have hl := (h.lives.live u).mp hl
    rw [h.pcOf hoff hl] at hpc
    exact ⟨hl, hpc⟩

end Aside

/-! ## Steps of `main` -/

section main

variable {s : St}

/-- While `main` runs, no live thread does. -/
theorem Good.main_offTurn (hg : s.Good) (hmain : s.running = 0) : s.OffTurn :=
  .of_lt hg.own (by omega)

/-- `main` and the idle thread have not exited as threads. -/
theorem not_dead_of_lt (ho : s.Ownership) (h : s.running < 2) :
    s.running ∈ s.threads → (s.life s.running).exits = 0 := by
  intro hmem
  have := (ho.thread _ hmem).1
  omega

/-- While `main` runs, the idle thread does not. -/
theorem idleOk_of_main {s' : St} (h : s'.running = 0) : s'.IdleOk := by
  intro hrun
  omega

/-- `main` goes on at another place. -/
theorem main_setPc (hg : s.Good) (hmain : s.running = 0) {pc : Pc}
    (hpc : (∃ r, pc = .user r) ∨ ∃ stage, pc = .native stage) :
    Fine s (s.setPc pc) ∧ LockFrame s (s.setPc pc) := by
  have hoff := hg.main_offTurn hmain
  have ha := s.setPc_aside pc
  have hself : ((s.setPc pc).fiber 0).pc = pc := by
    rw [← hmain]
    simp [setPc]
  have hplace : SameLives.PlaceOk s (s.setPc pc) := by
    refine ⟨fun _ => ?_, fun h => ?_⟩
    · rw [hself]
      exact hpc
    · omega
  have hown := ha.lives.ownership hg.own hplace (not_dead_of_lt hg.own (by omega))
  exact ⟨⟨⟨ha.core hg.core hg.own hoff, hown, Turn.main hmain⟩, ha.lives,
    fun _ => idleOk_of_main hmain, fun _ => Or.inl ⟨hmain, rfl⟩⟩,
    ha.lockFrame hg.own hoff rfl ⟨[], rfl, by simp⟩⟩

/-- A call of `main` returns. -/
theorem main_ret (hg : s.Good) (hmain : s.running = 0) (r : Res) :
    Fine s (s.ret r) ∧ LockFrame s (s.ret r) :=
  main_setPc hg hmain (Or.inl ⟨r, rfl⟩)

/-- `main` gives the turn away. -/
theorem main_vpSchedule (hg : s.Good) (hmain : s.running = 0) {pc : Pc}
    (hpc : (∃ r, pc = .user r) ∨ ∃ stage, pc = .native stage) :
    s.Does (some (s.setPc pc).vpSchedule) := by
  obtain ⟨hfine, hlock⟩ := main_setPc hg hmain hpc
  have hoff := hfine.good.main_offTurn hmain
  have hpark := hoff.parked hfine.good.core
  obtain ⟨hgood, hlives⟩ := vpSchedule_good hfine.good.core hfine.good.own hpark
    (not_dead_of_lt hfine.good.own (by rw [show (s.setPc pc).running = s.running from rfl]; omega))
  refine ⟨_, rfl, ⟨hgood, hfine.lives.trans hlives rfl, fun hok => ?_,
    fun hrun => absurd hrun (vpSchedule_running hfine.good.core hfine.good.own)⟩,
    hlock.trans (vpSchedule_lockFrame hfine.good.core hfine.good.own)⟩
  exact vpSchedule_idleOk hfine.good.core hfine.good.own (hok hmain)

/-- `main` has changed other threads, and then goes on at `pc`. -/
theorem Pokes.main_setPc {s' : St} (h : Pokes s s') (hg : s.Good) (hmain : s.running = 0)
    (hc : s'.Core []) {pc : Pc} (hpc : (∃ r, pc = .user r) ∨ ∃ stage, pc = .native stage) :
    Fine s (s'.setPc pc) ∧ LockFrame s' (s'.setPc pc) := by
  have hmain' : s'.running = 0 := h.running.trans hmain
  have hg' : s'.Good :=
    ⟨hc, h.ownership hg.own (not_dead_of_lt hg.own (by omega)), Turn.main hmain'⟩
  obtain ⟨hfine, hlock⟩ := St.main_setPc hg' hmain' hpc
  exact ⟨⟨hfine.good, h.lives.trans hfine.lives h.running, fun _ => idleOk_of_main hmain',
    fun _ => Or.inl ⟨hmain, h.this_thread⟩⟩, hlock⟩

/-- The idle thread has changed other threads, and then goes on at another statement of its loop. -/
theorem Pokes.idle_setPc {s' : St} (h : Pokes s s') (hg : s.Good) (hidle : s.running = 1)
    (hthis : s.this_thread = some 0) (hc : s'.Core []) {stage : Stage} (hstage : stage ≠ .dispatch) :
    Fine s (s'.setPc (.idle stage)) ∧ LockFrame s' (s'.setPc (.idle stage)) := by
  have hidle' : s'.running = 1 := h.running.trans hidle
  have ho' := h.ownership hg.own (not_dead_of_lt hg.own (by omega))
  have hoff : s'.OffTurn := .of_lt ho' (by omega)
  have ha := s'.setPc_aside (.idle stage)
  have hself : ((s'.setPc (.idle stage)).fiber 1).pc = .idle stage := by
    rw [← hidle']
    simp [setPc]
  have hplace : SameLives.PlaceOk s' (s'.setPc (.idle stage)) := by
    refine ⟨fun h => ?_, fun _ => ⟨stage, hself⟩⟩
    omega
  have hown := ha.lives.ownership ho' hplace (not_dead_of_lt ho' (by omega))
  refine ⟨⟨⟨ha.core hc ho' hoff, hown, Turn.idle hidle' (h.this_thread.trans hthis)⟩,
    h.lives.trans ha.lives h.running, fun _ _ hpc => ?_, fun hrun => ?_⟩,
    ha.lockFrame ho' hoff rfl ⟨[], rfl, by simp⟩⟩
  · rw [hself] at hpc
    cases hpc
    exact absurd rfl hstage
  · have hrun : s'.running = 0 := hrun
    omega

end main

/-! ## Dispatch and the clock -/

section loop

variable {s : St}

/-- Two changes of other threads. -/
theorem Pokes.trans {s' s'' : St} (h : Pokes s s') (h' : Pokes s' s'') : Pokes s s'' :=
  ⟨h.lives.trans h'.lives h.running, h'.fiber.trans h.fiber, h'.running.trans h.running,
    h'.this_thread.trans h.this_thread, fun t ht => h'.state t (h.state t ht)⟩

/-- Assignments to parts of the state that no thread reads. -/
theorem pokes_of_eq {s' : St} (h : s'.thread = s.thread) (h' : s'.fiber = s.fiber)
    (h1 : s'.threads = s.threads) (h2 : s'.life = s.life) (h3 : s'.free_stacks = s.free_stacks)
    (h4 : s'.segments = s.segments) (h5 : s'.zombie_q = s.zombie_q)
    (h6 : s'.idle_thread = s.idle_thread) (h7 : s'.created = s.created)
    (h8 : s'.active_count = s.active_count) (h9 : s'.running = s.running)
    (h10 : s'.this_thread = s.this_thread) : Pokes s s' :=
  ⟨⟨h1, h2, h3, h4, h5, h6, h7, h8, fun _ => by rw [h], fun _ => by rw [h], fun _ => by rw [h],
    fun _ => by rw [h], fun _ _ => Or.inl (by rw [h]), fun _ => by rw [h'], fun _ _ => by rw [h']⟩,
    h', h9, h10, fun t ht => by rw [h]; exact ht⟩

/-- A change that writes no record and no mutex leaves the mutexes alone. -/
theorem Pokes.lockFrame_of_eq {s' : St} (hp : Pokes s s') (h : s'.thread = s.thread)
    (hmutex : s'.mutex = s.mutex) (hlog : s'.log = s.log) : LockFrame s s' :=
  LockFrame.of_thread hmutex hlog hp.lives hp.fiber (fun t => by rw [h]; exact fun h => h)
    (fun t => by rw [h]; exact Or.inl) fun t => by rw [h]; exact fun h => h

/-- A pollq on the I/O queue belongs to a thread that waits, or that was made runnable since. -/
theorem Core.poller {q : ℕ} (hc : s.Core []) (hpark : s.Parked) (hq : q ∈ s.ev.io_q) :
    (s.thread (s.ev.pollq q).thread).state = .IO_WAIT ∨
      (s.thread (s.ev.pollq q).thread).state = .RUNNABLE := by
  obtain ⟨hl, hpc⟩ := (hc.recs _).io_q q hq rfl
  have hfits := (hc.recs _).state hl
  generalize (s.ev.pollq q).thread = t at hl hpc hfits
  cases hst : (s.thread t).state with
  | RUNNING => exact absurd hst (hpark t hl)
  | RUNNABLE => exact Or.inr rfl
  | IO_WAIT => exact Or.inl rfl
  | LOCK_WAIT =>
    rw [hst] at hfits
    obtain ⟨m, hm⟩ := hfits
    rw [hpc] at hm
    exact hm.elim
  | COND_WAIT =>
    rw [hst] at hfits
    obtain ⟨c, hm⟩ := hfits
    rw [hpc] at hm
    exact hm.elim
  | SLEEPING =>
    rw [hst] at hfits
    obtain ⟨-, r, hr⟩ := hfits
    rw [hpc] at hr
    cases hr
  | ZOMBIE =>
    rw [hst] at hfits
    exact hfits.elim
  | SUSPENDED =>
    rw [hst] at hfits
    obtain ⟨r, hr⟩ := hfits
    rw [hpc] at hr
    cases hr

/-- No outcome of `select` concerns a thread that is runnable already. -/
def Quiet (s : St) (outcomes : ℕ → SelectOutcome) : Prop :=
  ∀ q ∈ s.ev.io_q, (∃ i < s.ev.num, s.ev.Reported q (outcomes i)) →
    (s.thread (s.ev.pollq q).thread).state ≠ .RUNNABLE

instance (s : St) (outcomes : ℕ → SelectOutcome) : Decidable (s.Quiet outcomes) :=
  inferInstanceAs (Decidable (∀ q ∈ s.ev.io_q, _ → _))

/-- A dispatch pass. -/
theorem vpIdle_pokes (hg : s.Good) (hoff : s.OffTurn) {outcomes : ℕ → SelectOutcome}
    (hquiet : s.Quiet outcomes) :
    ∃ s', s.vpIdle outcomes = some s' ∧ s'.Core [] ∧ Pokes s s' ∧ LockFrame s s' ∧
      ∃ w, s'.run_q = s.run_q ++ w := by
  obtain ⟨hnot, -⟩ := Ev.dispatch_counted hg.core.ev outcomes
  obtain ⟨s', l, hrun, hc, hw⟩ := vpIdle_core hg.core outcomes fun q hq => by
    have hio := hnot.mem q hq
    refine (hg.core.poller (hoff.parked hg.core) hio).resolve_right ?_
    exact hquiet q hio (Ev.dispatch_reported hg.core.ev hq)
  have hp : Pokes s (s.setEv (s.ev.dispatch outcomes).1) :=
    pokes_of_eq rfl rfl rfl rfl rfl rfl rfl rfl rfl rfl rfl rfl
  exact ⟨s', hrun, hc, hp.trans hw.pokes, (hp.lockFrame_of_eq rfl rfl rfl).trans hw.lockFrame, l,
    hw.run_q⟩

/-- `_st_vp_check_clock`. -/
theorem vpCheckClock_pokes (hg : s.Good) (now : ℕ) :
    ∃ s', s.vpCheckClock now = some s' ∧ s'.Core [] ∧ Pokes s s' ∧ LockFrame s s' ∧
      ∃ w, s'.run_q = s.run_q ++ w := by
  obtain ⟨s', l, hrun, hc, hw⟩ := vpCheckClock_core hg.core now
  have hp : Pokes s { s with last_clock := now } :=
    pokes_of_eq rfl rfl rfl rfl rfl rfl rfl rfl rfl rfl rfl rfl
  exact ⟨s', hrun, hc, hp.trans hw.pokes, (hp.lockFrame_of_eq rfl rfl rfl).trans hw.lockFrame, l,
    hw.run_q⟩

/-- The idle thread gives the turn away, while somebody is active. -/
theorem idleSched_does (hg : s.Good) (hidle : s.running = 1) (hthis : s.this_thread = some 0)
    (hactive : 0 < s.active_count) : s.Does s.idleSched := by
  have ho := hg.own
  have hoff : s.OffTurn := .of_lt ho (by omega)
  unfold idleSched
  rw [ho.idle_thread]
  dsimp only
  generalize hs₁ : (if (s.thread 0).state ≠ .ZOMBIE ∧ (s.thread 0).state ≠ .RUNNABLE then
    s.setState 0 .RUNNABLE else s) = s₁
  -- The idle thread's own state is all that has changed.
  obtain ⟨hlives₁, hth₁, hsleep₁, hrest⟩ : SameLives s s₁ ∧ (∀ u, u ≠ 0 → s₁.thread u = s.thread u) ∧
      (s₁.thread 0).flags.on_sleepq = (s.thread 0).flags.on_sleepq ∧
      (s₁.run_q = s.run_q ∧ s₁.cond_q = s.cond_q ∧ s₁.mutex = s.mutex ∧ s₁.ev = s.ev ∧
        s₁.heap = s.heap ∧ s₁.log = s.log ∧ s₁.running = s.running ∧
        s₁.this_thread = s.this_thread) := by
    rw [← hs₁]
    split_ifs
    · refine ⟨SameLives.of_update rfl rfl rfl rfl rfl (Or.inr (Or.inr ⟨rfl, Or.inr rfl⟩)) (fun _ => rfl)
        (fun _ _ => rfl) rfl rfl rfl rfl rfl rfl rfl rfl, fun u hu => Function.update_of_ne hu _ _, ?_,
        rfl, rfl, rfl, rfl, rfl, rfl, rfl, rfl⟩
      simp [setState, setThread]
    · exact ⟨SameLives.refl s, fun _ _ => rfl, rfl, rfl, rfl, rfl, rfl, rfl, rfl, rfl, rfl⟩
  obtain ⟨h1, h2, h3, h4, h5, h6, h7, h8⟩ := hrest
  rw [if_neg (by rw [hlives₁.active_count]; omega)]
  have ha : Aside s (s₁.setPc (.idle .dispatch)) :=
    ⟨hlives₁.trans (setPc_sameLives s₁ _) h7, hth₁, hsleep₁, h1, h2, fun m => by rw [← h3]; rfl, h4, h5⟩
  have hself : ((s₁.setPc (.idle .dispatch)).fiber 1).pc = .idle .dispatch := by
    rw [← hidle, ← h7]
    simp [setPc]
  have hplace : SameLives.PlaceOk s (s₁.setPc (.idle .dispatch)) := by
    refine ⟨fun h => ?_, fun _ => ⟨_, hself⟩⟩
    omega
  have hc := ha.core hg.core ho hoff
  have hown := ha.lives.ownership ho hplace (not_dead_of_lt ho (by omega))
  have hrun₂ : (s₁.setPc (.idle .dispatch)).running = 1 := h7.trans hidle
  have hoff₂ : (s₁.setPc (.idle .dispatch)).OffTurn := .of_lt hown (by omega)
  obtain ⟨hgood, hsame⟩ := vpSchedule_good hc hown (hoff₂.parked hc) (not_dead_of_lt hown (by omega))
  refine ⟨_, rfl, ⟨hgood, ha.lives.trans hsame h7, fun _ => ?_,
    fun hrun => absurd hrun (vpSchedule_running hc hown)⟩,
    (ha.lockFrame ho hoff h3 ⟨[], h6, by simp⟩).trans (vpSchedule_lockFrame hc hown)⟩
  refine vpSchedule_idleOk hc hown fun u hu hmem => ?_
  have hu : u = 0 := by
    have : s₁.this_thread = some u := hu
    rw [h8, hthis, Option.some_inj] at this
    exact this.symm
  rw [hu] at hmem
  exact ((hc.recs 0).not_live hown.not_live_zero).1 hmem

/-- `_st_thread_main` swaps out. -/
theorem exitReturn_fine (hg : s.Good) (hmem : s.running ∈ s.threads)
    (hex : (s.life s.running).exits ≠ 0) (hpc : (s.fiber s.running).pc = .exitEnd false)
    (hthis : s.This fun t => (s.thread t).state = .ZOMBIE) :
    Fine s (s.exitReturn false) ∧ LockFrame s (s.exitReturn false) := by
  have ho := hg.own
  have hlife : s.life s.running = ⟨1, 1, false⟩ := by
    rcases ho.dead _ hmem hex with ⟨hlife, -⟩ | ⟨-, t, hleave⟩
    · exact hlife
    · have := hleave.pc
      rw [hpc] at this
      cases this
  have h2 := (ho.thread _ hmem).1
  have hoff : s.OffTurn := by
    intro u hl heq
    have := hl.2.1
    rw [heq] at this
    exact hex this
  have heq : s.exitReturn false = { s.setPc .out with running := 0 } := rfl
  have hsame := setPc_sameLives s .out
  have hlives : SameLives s { s.setPc .out with running := 0 } :=
    ⟨rfl, rfl, rfl, rfl, rfl, rfl, rfl, rfl, hsame.id, hsame.context, hsame.term, hsame.primordial,
      hsame.state, hsame.thd, hsame.pc⟩
  have ha : Aside s { s.setPc .out with running := 0 } :=
    ⟨hlives, fun _ _ => rfl, rfl, rfl, rfl, fun _ => rfl, rfl, rfl⟩
  have hplace : SameLives.PlaceOk s { s.setPc .out with running := 0 } :=
    ⟨fun h => by omega, fun h => by omega⟩
  have hown := hlives.ownership_of_out ho hplace fun _ _ => ⟨by simp [setPc], by rw [hlife]; decide⟩
  rw [heq]
  exact ⟨⟨⟨ha.core hg.core ho hoff, hown, Turn.main rfl⟩, hlives, fun _ => idleOk_of_main rfl,
    fun _ => Or.inr hthis⟩,
    ha.lockFrame ho hoff rfl ⟨[], rfl, by simp⟩⟩

end loop

end StWin.St
