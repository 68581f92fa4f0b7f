import StWin.Sched.CondVar

/-!
# Signals that reach a waiter

A signal is consumed by the waiter that it takes out of `COND_WAIT`. That waiter returns `0`, unless
somebody interrupts it before it resumes: then `st_cond_timedwait` finds the flag and returns `-1`, and
the signal is lost. (For the same race `st_mutex_lock` checks who owns the mutex.) In a run without
such an interrupt exactly the waits that a signal or a broadcast has ended return `0`.
-/

namespace StWin

open St

/-- How many waits a signal or a broadcast has ended. -/
def CondLog.signals (w : CondLog) : ℕ :=
  w.pending.countP (fun wt => wt.ended = some .signal) +
    w.done.countP fun d => d.1.ended = some .signal

namespace St

/-- Whom a step interrupts. -/
def Label.interrupts : Label → Option ℕ
  | .call (.interrupt t) => some t
  | _ => none

/-- A call of `st_thread_interrupt` interrupts its argument. -/
theorem Label.interrupts_eq {l : Label} {t : ℕ} (h : l = .call (.interrupt t)) :
    t ∈ l.interrupts := by
  rw [h]
  rfl

/-- The waiter `t` has been signalled and has not resumed. -/
def Signalled (n : ℕ) (s : St) (t : ℕ) : Prop :=
  s.pcOf t = .condWait t (.user n) ∧ (s.thread t).state = .RUNNABLE ∧
    (s.thread t).flags.timedout = false ∧ (s.thread t).flags.interrupt = false

instance (n : ℕ) (s : St) (t : ℕ) : Decidable (s.Signalled n t) :=
  inferInstanceAs (Decidable (_ ∧ _ ∧ _ ∧ _))

/-- The step is `Ok`, and no interrupt of a signalled waiter. -/
def Unraced (n : ℕ) (s : St) (l : Label) : Prop := s.Ok l ∧ ∀ t ∈ l.interrupts, ¬s.Signalled n t

instance (n : ℕ) (s : St) (l : Label) : Decidable (s.Unraced n l) :=
  inferInstanceAs (Decidable (_ ∧ _))

/-- The notes, with no signal hidden by an interrupt. -/
structure SignalInv (n : ℕ) (s : St) (w : CondLog) : Prop where
  cond : CondInv n s w
  pending : ∀ wt ∈ w.pending, wt.ended = some .signal →
    (s.thread wt.thread).flags.interrupt = false
  done : ∀ d ∈ w.done, d.1.ended = some .signal → d.2 = .ok 0

section step

variable {s s' : St} {l : Label} {n : ℕ} {w : CondLog}

/-- The flag of an interrupt is set by an interrupt. -/
theorem Stirs.uninterrupted {t : ℕ} {th : Thread} (h : Stirs s l t th)
    (hflag : (s.thread t).flags.interrupt = false) :
    th.flags.interrupt = false ∨ l = .call (.interrupt t) := by
  cases h with
  | same => exact Or.inl hflag
  | resumed => exact Or.inl hflag
  | flagged label => exact Or.inr label
  | interrupted label => exact Or.inr label
  | signalled => exact Or.inl hflag
  | expired =>
    unfold Thread.timedOut
    split_ifs <;> exact Or.inl hflag
  | notified => exact Or.inl hflag
  | released => exact Or.inl hflag

/-- A waiter that a signal took out of `COND_WAIT` is not interrupted before it resumes. -/
theorem SignalInv.mark_uninterrupted (h : SignalInv n s w) (hun : s.Unraced n l)
    (hstep : s.step l = some s') {wt : Wait} (hmem : wt ∈ w.pending)
    (hne : (s.thread wt.thread).id ≠ s.running)
    (hsignal : (wt.mark s l s').ended = some .signal) :
    (s'.thread wt.thread).flags.interrupt = false := by
  obtain ⟨hl, hpc⟩ := h.cond.inv.waiter_pc (h.cond.mem_queue hmem)
  have hnoted := h.cond.noted wt hmem
  have hstirs := (step_stirs h.cond.inv hun.1 hl hne hstep).thread
  have hclear : (s.thread wt.thread).flags.interrupt = false := by
    by_cases hended : wt.ended = some .signal
    · exact h.pending wt hmem hended
    · -- The step itself is the signal.
      rw [Wait.mark] at hsignal
      split_ifs at hsignal with hout
      · have hflags := hnoted.flags
        rw [Wait.Fits, hnoted.live.mpr hout.1] at hflags
        exact hflags.2
      · exact absurd hsignal hended
  refine (hstirs.uninterrupted hclear).resolve_right fun hlabel => ?_
  rw [Wait.mark] at hsignal
  split_ifs at hsignal with hout
  · rw [hlabel] at hsignal
    cases hsignal
  · have hflags := hnoted.flags
    rw [Wait.Fits, hsignal] at hflags
    refine hun.2 wt.thread (Label.interrupts_eq hlabel) ⟨hpc, ?_, hflags, hclear⟩
    rcases h.cond.inv.good.core.waiter_state hl (show (s.pcOf wt.thread).waitsOn (.user n) by
      rw [hpc]; rfl) with hst | hst | hst
    · rw [hnoted.live.mpr hst] at hsignal
      cases hsignal
    · exact hst
    · exact absurd hst (h.cond.inv.good.core.waits hl hne).1

/-- A wait that neither timed out nor was interrupted returns 0. -/
theorem condUnblock_ok {t : ℕ} (hto : (s.thread t).flags.timedout = false)
    (hint : (s.thread t).flags.interrupt = false) (c : Cond) : (s.condUnblock t c).2 = .ok 0 := by
  simp [condUnblock, setCondQ, hto, hint]

/-- A step that interrupts no signalled waiter keeps the notes true. -/
theorem step_signalInv (h : SignalInv n s w) (hun : s.Unraced n l) (hstep : s.step l = some s') :
    SignalInv n s' (w.track n s l s') := by
  have hcond := h.cond.step hun.1 hstep
  have htracks := h.cond.tracks hun.1 hstep
  generalize w.track n s l s' = w' at htracks hcond
  -- The waits that go on are marked, and one may be added or taken away.
  cases htracks with
  | still queue ne =>
    refine ⟨hcond, fun wt' hmem hended => ?_, h.done⟩
    obtain ⟨wt, hpend, rfl⟩ := List.mem_map.mp hmem
    rw [Wait.mark_thread]
    exact h.mark_uninterrupted hun hstep hpend (ne _ (h.cond.mem_queue hpend)) hended
  | begins me runs user begins =>
    refine ⟨hcond, fun wt' hmem hended => ?_, h.done⟩
    rcases List.mem_append.mp hmem with hmem | hmem
    · obtain ⟨wt, hpend, rfl⟩ := List.mem_map.mp hmem
      obtain ⟨hl, hwaits⟩ := h.cond.inv.waiter_pc (h.cond.mem_queue hpend)
      rw [Wait.mark_thread]
      -- Whoever begins to wait was not waiting.
      refine h.mark_uninterrupted hun hstep hpend (runs.ne_running _ ?_ hl) hended
      rintro rfl
      obtain ⟨r, hr⟩ := user
      rw [hr] at hwaits
      cases hwaits
    · obtain rfl := List.mem_singleton.mp hmem
      cases hended
  | ends me runs eq =>
    refine ⟨hcond, fun wt' hmem hended => ?_, fun d hmem hended => ?_⟩
    · obtain ⟨hmark, hwt⟩ := List.mem_filter.mp hmem
      obtain ⟨wt, hpend, rfl⟩ := List.mem_map.mp hmark
      have hwt : wt.thread ≠ me := by simpa using hwt
      obtain ⟨hl, -⟩ := h.cond.inv.waiter_pc (h.cond.mem_queue hpend)
      rw [Wait.mark_thread]
      exact h.mark_uninterrupted hun hstep hpend (runs.ne_running _ hwt hl) hended
    · rcases List.mem_append.mp hmem with hmem | hmem
      · exact h.done d hmem hended
      · obtain ⟨wt', hfilter, rfl⟩ := List.mem_map.mp hmem
        obtain ⟨hmark, hwt⟩ := List.mem_filter.mp hfilter
        obtain ⟨wt, hpend, rfl⟩ := List.mem_map.mp hmark
        have hwt : wt.thread = me := by simpa using hwt
        subst hwt
        -- A wait that a signal has ended returns with neither flag set.
        rw [Wait.mark_of_runs runs] at hended
        have hflags := (h.cond.noted wt hpend).flags
        rw [Wait.Fits, hended] at hflags
        exact condUnblock_ok hflags (h.pending wt hpend hended) _

end step

/-! ## Counting -/

section count

variable {s s' : St} {l : Label} {n : ℕ} {w : CondLog} {sel : List ℕ}

/-- Marks of a signal, on waits that no signal had ended. -/
theorem countP_signal {xs : List Wait} (f : Wait → Wait) (hsel : ∀ wt ∈ xs, wt.thread ∈ sel →
      wt.ended ≠ some .signal ∧ (f wt).ended = some .signal)
    (hrest : ∀ wt ∈ xs, wt.thread ∉ sel → f wt = wt) :
    (xs.map f).countP (fun wt => wt.ended = some .signal) =
      xs.countP (fun wt => wt.ended = some .signal) + xs.countP fun wt => wt.thread ∈ sel := by
  induction xs with
  | nil => rfl
  | cons wt xs ih =>
    have ih := ih (fun wt hwt => hsel wt (List.mem_cons_of_mem _ hwt)) fun wt hwt =>
      hrest wt (List.mem_cons_of_mem _ hwt)
    rw [List.map_cons, List.countP_cons, List.countP_cons, List.countP_cons, ih]
    by_cases hwt : wt.thread ∈ sel
    · obtain ⟨hbefore, hafter⟩ := hsel wt List.mem_cons_self hwt
      simp only [hwt, hbefore, hafter, decide_true, decide_false, if_true]
      simp only [Bool.false_eq_true, if_false]
      omega
    · rw [hrest wt List.mem_cons_self hwt]
      simp only [hwt, decide_false, Bool.false_eq_true, if_false]
      omega

/-- A signal or a broadcast ends the waits of those that it selects. -/
theorem CondInv.track_signals {c : Call} (h : CondInv n s w) (hstep : s.step (.call c) = some s')
    (hbegins : beginsWait n s (.call c) s' = none) (hending : Ending.ofLabel (.call c) = some .signal)
    (hsel : Selects s s' sel) (hsub : sel.Sublist w.live) :
    (w.track n s (.call c) s').signals = w.signals + sel.length := by
  obtain ⟨r, hr, -⟩ := step_call_user hstep
  have hends : endsWait n s s' = none := by
    unfold endsWait
    rw [hr]
  rw [CondLog.track_still hends hbegins]
  have hcond : ∀ wt ∈ w.pending, wt.thread ∈ sel → (s.thread wt.thread).state = .COND_WAIT := by
    intro wt _ hwt
    have hmem := hsub.subset hwt
    rw [← h.condWaiters_eq] at hmem
    exact of_decide_eq_true (List.mem_filter.mp hmem).2
  -- Each thread that is selected has exactly one of the waits.
  have hcount : w.pending.countP (fun wt => wt.thread ∈ sel) = sel.length := by
    have hlive : w.live.Sublist (w.pending.map Wait.thread) := List.filter_sublist.map _
    have hmap : w.pending.countP (fun wt => wt.thread ∈ sel) =
        (w.pending.map Wait.thread).countP (· ∈ sel) := by
      rw [List.countP_map]
      rfl
    rw [hmap, List.countP_eq_length_filter]
    refine List.Perm.length_eq ?_
    rw [List.perm_ext_iff_of_nodup (h.nodup.filter _) (h.nodup.sublist (hsub.trans hlive))]
    intro t
    rw [List.mem_filter, decide_eq_true_iff]
    exact ⟨fun ht => ht.2, fun ht => ⟨(hsub.trans hlive).subset ht, ht⟩⟩
  have hmarked : ∀ wt ∈ w.pending, wt.thread ∈ sel → wt.ended ≠ some .signal ∧
      (wt.mark s (.call c) s').ended = some .signal := by
    intro wt hmem hwt
    have hst := hcond wt hmem hwt
    rw [(h.noted wt hmem).live.mpr hst, Wait.mark, if_pos, hending]
    · exact ⟨by simp, rfl⟩
    · rw [(hsel.runnable _ hwt).1]
      exact ⟨hst, by decide⟩
  have hrest : ∀ wt ∈ w.pending, wt.thread ∉ sel → wt.mark s (.call c) s' = wt := by
    intro wt hmem hwt
    rw [Wait.mark, if_neg]
    rw [(hsel.others _ hwt).1]
    exact fun hc => hc.2 hc.1
  unfold CondLog.signals
  dsimp only
  rw [countP_signal _ hmarked hrest, hcount]
  omega

end count

/-- No signal on the condition variable `n` is lost. -/
structure SignalSpec (n : ℕ) (s : St) (w : CondLog) : Prop where
  /-- Exactly the waits that a signal or a broadcast has ended return `0`. -/
  result : ∀ d ∈ w.done, d.2 = .ok 0 ↔ d.1.ended = some .signal
  count : (w.done.countP fun d => d.2 = .ok 0) = w.done.countP fun d => d.1.ended = some .signal
  /-- A signal, while somebody is in `COND_WAIT`, ends one wait. -/
  signal : ∀ s', s.step (.call (.condSignal n)) = some s' → w.live ≠ [] →
    (w.track n s (.call (.condSignal n)) s').signals = w.signals + 1
  broadcast : ∀ s', s.step (.call (.condBroadcast n)) = some s' →
    (w.track n s (.call (.condBroadcast n)) s').signals = w.signals + w.live.length
  /-- A signalled waiter is on the run queue or runs, and then its wait returns `0`. -/
  returns : ∀ wt ∈ w.pending, wt.ended = some .signal → wt.thread ∈ s.run_q ∨
    (s.Runs wt.thread ∧ ∀ l s', s.step l = some s' → s'.Back wt.thread (.ok 0))

/-- What the notes say, in the terms of the statement. -/
theorem SignalInv.spec {s : St} {n : ℕ} {w : CondLog} (h : SignalInv n s w) : SignalSpec n s w := by
  have hres : ∀ d ∈ w.done, d.2 = .ok 0 ↔ d.1.ended = some .signal := fun d hmem =>
    ⟨(h.cond.done d hmem).ok, h.done d hmem⟩
  have hspec := h.cond.spec
  refine ⟨hres, ?_, fun s' hstep hlive => ?_, fun s' hstep => ?_, fun wt hmem hended => ?_⟩
  · exact List.countP_congr fun d hmem => by
      rw [decide_eq_true_iff, decide_eq_true_iff]
      exact hres d hmem
  · rw [h.cond.track_signals hstep rfl rfl (hspec.signal s' hstep) (List.take_sublist 1 _)]
    rw [List.length_take, Nat.min_eq_left (List.length_pos_iff.mpr hlive)]
  · exact h.cond.track_signals hstep rfl rfl (hspec.broadcast s' hstep) (List.Sublist.refl _)
  · have hc := h.cond.inv.good.core
    obtain ⟨hl, hpc⟩ := h.cond.inv.waiter_pc (h.cond.mem_queue hmem)
    have hnoted := h.cond.noted wt hmem
    -- A signalled waiter has left `COND_WAIT`.
    rcases hc.waiter_state hl (show (s.pcOf wt.thread).waitsOn (.user n) by rw [hpc]; rfl) with
      hst | hst | hst
    · rw [hnoted.live.mpr hst] at hended
      cases hended
    · exact Or.inl ((hc.recs wt.thread).run_q.mpr ⟨hl, hst⟩)
    · have hfits := (hc.recs wt.thread).state hl
      rw [hst] at hfits
      have hr : s.Runs wt.thread := ⟨hl, hfits.1, hst, hfits.2⟩
      refine Or.inr ⟨hr, fun l s' hstep => ?_⟩
      have hpc' := hr.pc_eq.trans hpc
      have hflags := hnoted.flags
      rw [Wait.Fits, hended] at hflags
      have ha : Acts s s' wt.thread
          { s.thread wt.thread with flags := { (s.thread wt.thread).flags with
            timedout := false, interrupt := false } } (.user (.ok 0)) := by
        cases step_goes hpc' hstep with
        | condWait hgo =>
          rw [hgo, condUnblock_ok hflags (h.pending wt hmem hended)]
          exact .of_links rfl rfl rfl rfl rfl rfl
      exact ha.back hr hr.state

/-- In each run in which nobody interrupts a waiter that has been signalled and has not resumed, no
signal is lost. -/
theorem run_signals_kept (pagesize : ℤ) (last_clock n : ℕ) (ls : List Label) {s : St}
    (hrun : Runs.run step (init pagesize last_clock) ls = some s)
    (hun : Runs.Meets step (Unraced n) (init pagesize last_clock) ls) :
    SignalSpec n s (Runs.record step (CondLog.track n) ⟨[], []⟩ (init pagesize last_clock) ls) := by
  have hinit : SignalInv n (init pagesize last_clock) ⟨[], []⟩ :=
    ⟨init_condInv pagesize last_clock n, by simp, by simp⟩
  have h : SignalInv n s
      (Runs.record step (CondLog.track n) ⟨[], []⟩ (init pagesize last_clock) ls) :=
    Runs.record_invariant step_signalInv hinit hun hrun
  exact h.spec

/-- The first thread waits, and the second one signals and sleeps. Then the first one resumes. -/
def signalsOnce : List Label :=
  [.call (.create false 0 ⟨true, true, true⟩), .call (.create false 0 ⟨true, true, true⟩),
    .call (.usleep 1), .call (.condTimedwait 0 100), .call (.condSignal 0), .call (.usleep 1), .resume]

/-- The run is possible, and the wait that was signalled has returned 0. -/
theorem run_signals_kept_signalsOnce : ∃ s, Runs.run step (init 4096 0) signalsOnce = some s ∧
    SignalSpec 0 s (Runs.record step (CondLog.track 0) ⟨[], []⟩ (init 4096 0) signalsOnce) ∧
    (Runs.record step (CondLog.track 0) ⟨[], []⟩ (init 4096 0) signalsOnce).done =
      [(⟨1, some .signal⟩, .ok 0)] := by
  refine ⟨(Runs.run step (init 4096 0) signalsOnce).get (by decide), by simp, ?_, by decide⟩
  exact run_signals_kept 4096 0 0 signalsOnce (by simp) (by decide)

/-- The same, but the second thread also interrupts the first one after the signal. -/
def interruptsSignalled : List Label :=
  [.call (.create false 0 ⟨true, true, true⟩), .call (.create false 0 ⟨true, true, true⟩),
    .call (.usleep 1), .call (.condTimedwait 0 100), .call (.condSignal 0), .call (.interrupt 1),
    .call (.usleep 1), .resume]

/-- The wait that the signal ended returns `-1`, and the signal is lost. -/
theorem run_signal_lost : ∃ s, Runs.run step (init 4096 0) interruptsSignalled = some s ∧
    Runs.Meets step Ok (init 4096 0) interruptsSignalled ∧
    (Runs.record step (CondLog.track 0) ⟨[], []⟩ (init 4096 0) interruptsSignalled).done =
      [(⟨1, some .signal⟩, .error .EINTR)] ∧
    ¬SignalSpec 0 s
      (Runs.record step (CondLog.track 0) ⟨[], []⟩ (init 4096 0) interruptsSignalled) := by
  refine ⟨(Runs.run step (init 4096 0) interruptsSignalled).get (by decide), by simp, by decide,
    by decide, fun h => ?_⟩
  have hcount := h.count
  revert hcount
  decide

end St

end StWin
