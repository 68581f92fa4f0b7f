import StWin.Sched.Step
import StWin.Event.Runs

/-!
# States of a well-used scheduler

The invariant holds after `st_init` and is kept by the steps that are `Ok`, so it holds in each state
of a run that is made of such steps. The links of `Join` and the count of `Count` are carried along: a
termination condition variable that is yet to be made has no waiters, which `st_thread_create` relies
on, and while a thread lives somebody is active.
-/

namespace StWin.St

/-- The invariant of the runs whose steps are `Ok`. -/
structure Inv (s : St) : Prop where
  good : s.Good
  linked : s.Linked
  zombie : s.ZombieRuns
  tally : s.Tally

/-- Nobody waits on a condition variable that does not exist yet. -/
theorem Inv.fresh {s : St} (h : s.Inv) : s.cond_q (.term s.terms) = [] := by
  refine List.eq_nil_iff_forall_not_mem.mpr fun t ht => ?_
  obtain ⟨-, hwaits⟩ := ((h.good.core.recs t).cond_q _).mp ht
  unfold pcOf at hwaits
  cases hpc : (s.fiber (s.thread t).id).pc with
  | condWait me c =>
    rw [hpc] at hwaits
    have hc : c = .term s.terms := hwaits
    rw [hc] at hpc
    exact h.linked.wait _ _ _ hpc
  | join me c u =>
    rw [hpc] at hwaits
    have hc : c = .term s.terms := hwaits
    rw [hc] at hpc
    obtain ⟨⟨n, hn, heq⟩, -⟩ := h.linked.join _ _ _ _ hpc
    cases heq
    exact lt_irrefl _ hn
  | _ =>
    rw [hpc] at hwaits
    exact hwaits.elim

/-- A step of a call is one of a fiber in the program's code. -/
theorem step_call_user {s s' : St} {c : Call} (h : s.step (.call c) = some s') :
    ∃ r, (s.fiber s.running).pc = .user r ∧ s.call c = some s' := by
  obtain ⟨pc, hpc⟩ : ∃ pc, (s.fiber s.running).pc = pc := ⟨_, rfl⟩
  cases step_goes hpc h with
  | call c hcall => exact ⟨_, hpc, hcall⟩

/-- Only `main` and the idle thread are in loops that dispatch. -/
theorem Good.place {s : St} (hg : s.Good) :
    (s.running = 0 ∧ ∀ stage, (s.fiber s.running).pc ≠ .idle stage) ∨
      (s.running = 1 ∧ ∀ stage, (s.fiber s.running).pc ≠ .native stage) ∨
      ∀ stage, (s.fiber s.running).pc ≠ .idle stage ∧ (s.fiber s.running).pc ≠ .native stage := by
  rcases hg.turn with hmain | ⟨hidle, -⟩ | ⟨t, hl, hrun, -, -⟩ | ⟨t, -, -, hpc, -, -⟩ | ⟨t, hleave, -⟩
  · refine Or.inl ⟨hmain, fun stage hpc => ?_⟩
    rw [hmain] at hpc
    rcases hg.own.main_pc with ⟨r, hr⟩ | ⟨stage', hr⟩
    · rw [hr] at hpc
      cases hpc
    · rw [hr] at hpc
      cases hpc
  · refine Or.inr (Or.inl ⟨hidle, fun stage hpc => ?_⟩)
    obtain ⟨stage', hstage⟩ := hg.own.idle_pc
    rw [hidle, hstage] at hpc
    cases hpc
  · refine Or.inr (Or.inr fun stage => ⟨fun hpc => ?_, fun hpc => ?_⟩)
    · have hfits := (hg.core.recs t).pc hl
      unfold pcOf at hfits
      rw [← hrun, hpc] at hfits
      exact hfits
    · have hfits := (hg.core.recs t).pc hl
      unfold pcOf at hfits
      rw [← hrun, hpc] at hfits
      exact hfits
  · rw [hpc]
    exact Or.inr (Or.inr fun stage => ⟨fun h => (by cases h), fun h => (by cases h)⟩)
  · rw [hleave.pc]
    exact Or.inr (Or.inr fun stage => ⟨fun h => (by cases h), fun h => (by cases h)⟩)

/-- The idle thread's code is run by the idle thread only. -/
theorem Good.running_idle {s : St} (hg : s.Good) {stage : Stage}
    (hpc : (s.fiber s.running).pc = .idle stage) : s.running = 1 := by
  rcases hg.place with ⟨-, hne⟩ | ⟨hidle, -⟩ | hne
  · exact absurd hpc (hne stage)
  · exact hidle
  · exact absurd hpc (hne stage).1

/-- The code of `st_idle_thread_run` is run by `main` only. -/
theorem Good.running_native {s : St} (hg : s.Good) {stage : Stage}
    (hpc : (s.fiber s.running).pc = .native stage) : s.running = 0 := by
  rcases hg.place with ⟨hmain, -⟩ | ⟨-, hne⟩ | hne
  · exact hmain
  · exact absurd hpc (hne stage)
  · exact absurd hpc (hne stage).2

/-- A fiber in code of the program is that of `main` or of a live thread. -/
theorem Good.caller {s : St} (hg : s.Good) {r : Res} (hpc : (s.fiber s.running).pc = .user r) :
    s.running = 0 ∨ ∃ t, s.Runs t := by
  rcases hg.turn with hmain | ⟨hidle, -⟩ | ⟨u, hlu, hrun, hst, hthis⟩ | ⟨u, -, -, hpc', -, -⟩ |
    ⟨u, hleave, -⟩
  · exact Or.inl hmain
  · obtain ⟨stage, hstage⟩ := hg.own.idle_pc
    rw [hidle, hstage] at hpc
    cases hpc
  · exact Or.inr ⟨u, hlu, hrun, hst, hthis⟩
  · rw [hpc'] at hpc
    cases hpc
  · rw [hleave.pc] at hpc
    cases hpc

/-- Whoever enters `st_thread_exit` runs on its own fiber, and `main` enters it only before any thread
has run. -/
theorem Ok.enters {s s' : St} {l : Label} (hg : s.Good) (hok : s.Ok l) (h : s.step l = some s')
    (henters : s.Enters l) : s.this_thread = none ∨ ∃ t, s.Runs t := by
  cases l with
  | call c =>
    cases c with
    | exit retval => exact Or.inl hok
    | _ => exact henters.elim
  | ret v =>
    obtain ⟨pc, hpc⟩ : ∃ pc, (s.fiber s.running).pc = pc := ⟨_, rfl⟩
    cases step_goes hpc h with
    | ret v thread _ =>
      rcases hg.caller hpc with hmain | hruns
      · exact absurd hmain thread
      · exact Or.inr hruns
  | resume =>
    -- The idle thread's loop does not end.
    obtain ⟨hpc, hcount⟩ := henters
    have hidle : s.running = 1 := hpc.elim hg.running_idle hg.running_idle
    have hactive : 0 < s.active_count := hok hidle
    omega
  | dispatch outcomes => exact henters.elim
  | clock now => exact henters.elim

/-- Where an `Ok` step enters `st_thread_exit`, a thread exits on its own fiber. -/
theorem Ok.exitsSelf {s s' : St} {l : Label} (hg : s.Good) (hok : s.Ok l)
    (h : s.step l = some s') : s.ExitsSelf l := by
  intro henters
  rcases hok.enters hg h henters with hnone | ⟨t, hr⟩
  · exact This.of_none hnone
  · refine This.of_some hr.this ?_
    rw [(hg.core.recs t).context hr.live, hr.running]

/-- Where an `Ok` step enters `st_thread_exit`, a thread exits for the first time. -/
theorem Ok.exitsOnce {s s' : St} {l : Label} (hg : s.Good) (hok : s.Ok l)
    (h : s.step l = some s') : s.ExitsOnce l := by
  intro henters
  rcases hok.enters hg h henters with hnone | ⟨t, hr⟩
  · exact This.of_none hnone
  · exact This.of_some hr.this ⟨hr.live.1, hr.live.2.1⟩

/-- What a step comes to. -/
theorem Inv.outcome {s s' : St} {l : Label} (h : s.Inv) (hok : s.Ok l) (hstep : s.step l = some s') :
    Outcome s l s' :=
  step_outcome h.good h.fresh hok hstep

/-- An `Ok` step changes what its label says. -/
theorem Inv.change {s s' : St} {l : Label} (h : s.Inv) (hok : s.Ok l) (hstep : s.step l = some s') :
    Change s l s' :=
  (h.outcome hok hstep).change

/-- One step keeps the invariant. -/
theorem step_inv {s s' : St} {l : Label} (h : s.Inv) (hok : s.Ok l) (hstep : s.step l = some s') :
    s'.Inv := by
  obtain ⟨hl, hz⟩ := step_linked ⟨h.linked, h.zombie⟩ (hok.exitsSelf h.good hstep) hstep
  exact ⟨(h.outcome hok hstep).good, hl, hz, step_tally h.tally (hok.exitsOnce h.good hstep) hstep⟩

/-- The state after `st_init` is a good one. -/
theorem init_good (pagesize : ℤ) (last_clock : ℕ) : (init pagesize last_clock).Good := by
  have hnot : ∀ t, ¬(init pagesize last_clock).Live t := by
    rintro t ⟨hmem, -⟩
    cases hmem
  have hth := init_thread pagesize last_clock
  have hsleep : ∀ t, ((init pagesize last_clock).thread t).flags.on_sleepq = false := by
    intro t
    rw [hth]
    by_cases ht : t = 0
    · rw [ht, Function.update_self]
      rfl
    · rw [Function.update_of_ne ht]
      rfl
  refine ⟨⟨fun t => ?_, List.nodup_nil, fun _ => List.nodup_nil, fun _ => List.nodup_nil, ?_,
    Ev.init_counted⟩, ?_, Turn.main rfl⟩
  · exact Rec.of_not_live (hnot t) List.not_mem_nil (fun _ => List.not_mem_nil)
      (fun _ => List.not_mem_nil) (fun _ hq => (by cases hq)) (by rw [hsleep])
  · refine ⟨∅, Heap.wf_empty rfl rfl, fun t => ?_⟩
    rw [hsleep]
    simp
  · refine ⟨rfl, rfl, rfl, rfl, Or.inr rfl, rfl, ⟨_, rfl⟩, Nat.one_pos, Or.inl ⟨_, rfl⟩, List.nodup_nil,
      fun f hf => (by cases hf), fun f hf => (by cases hf), fun f hf => (by cases hf), fun t => ?_,
      le_rfl, List.nodup_nil, fun t ht => (by cases ht), fun t ht => ?_,
      fun t ht => (hnot t ht).elim⟩
    · rw [hth]
      change _ < 2
      by_cases ht : t = 0
      · rw [ht, Function.update_self]
        decide
      · rw [Function.update_of_ne ht]
        decide
    · have ht : t < 1 := ht
      exact Or.inr (Or.inr (Or.inl (by omega)))

/-- The state after `st_init` satisfies the invariant. -/
theorem init_inv (pagesize : ℤ) (last_clock : ℕ) : (init pagesize last_clock).Inv := by
  obtain ⟨hl, hz⟩ := init_linked pagesize last_clock
  exact ⟨init_good pagesize last_clock, hl, hz, init_tally pagesize last_clock⟩

/-- A run whose steps are `Ok` keeps the invariant. -/
theorem run_inv {pagesize : ℤ} {last_clock : ℕ} {ls : List Label} {s : St}
    (hrun : Runs.run step (init pagesize last_clock) ls = some s)
    (hok : Runs.Meets step Ok (init pagesize last_clock) ls) : s.Inv :=
  Runs.run_invariant step_inv (init_inv pagesize last_clock) hok hrun

end StWin.St
