import StWin.Event.Notify

/-!
# What a call of `st_poll` reports

The notification loop writes the `revents` of an entry only if the entry's descriptor is in one of the
sets of the group, and `st_poll` counts every entry whose `revents` are not zero afterwards. The scan for
bad descriptors clears the field first; the loop does not. So what a call reports is right exactly if
the entries that the loop passes over had no `revents` before (`run_poll_exact`): the field is the
caller's, and what the caller left there is counted.

`Ends` names the group of the pass in which the wait of a call ended. Afterwards nothing in the event
system writes to the call's array, so that is what the call returns.
-/

namespace StWin.Ev

/-! ## Descriptors in the sets have a count -/

/-- The sets hold descriptors with a count only. -/
def Backed (ev : Ev) : Prop := ∀ k fd, 0 < fd → ev.watched k fd → 0 < ev.getCnt k fd

/-- The sets hold descriptors with a count only exactly when they follow the counts, for what they hold
already. -/
theorem backed_iff_tracked {ev : Ev} : Backed ev ↔ Tracked ev.watched ev := by
  constructor
  · intro h k fd hfd
    exact ⟨fun hw => ⟨hw, h k fd hfd hw⟩, fun hw => hw.1⟩
  · intro h k fd hfd hw
    exact ((h k fd hfd).mp hw).2

/-- Where the sets follow the counts, whatever else they depend on, they hold descriptors with a
count. -/
theorem Tracked.backed {M : Kind → ℤ → Prop} {ev : Ev} (h : Tracked M ev) : Backed ev :=
  fun k fd hfd hw => ((h k fd hfd).mp hw).2

/-- Registration adds descriptors with a count only. -/
theorem register_backed {ev : Ev} (hc : Counted ev) (h : Backed ev) (thread : ℕ)
    (pds : List Pollfd) : Backed (ev.register thread pds) := by
  obtain ⟨-, -, -, -, hcnt, hwatched⟩ := pollsetAdd_spec pds hc.table
  intro k fd hfd hw
  have hpos : 0 < (ev.pollsetAdd pds).getCnt k fd := by
    rw [hcnt k fd hfd]
    rcases (hwatched k fd hfd).mp hw with hw | hw
    · have := h k fd hfd hw
      omega
    · rw [hc.exact k fd hfd]
      omega
  exact hpos

/-- Removal takes out the descriptors that have no count any more. -/
theorem unregister_backed {ev : Ev} (hc : Counted ev) (h : Backed ev) {q : ℕ} (hq : q ∈ ev.io_q) :
    Backed (ev.unregister q) := by
  unfold unregister
  rw [if_pos (hc.on_ioq q hq)]
  obtain ⟨-, -, htr⟩ := @cut_counted ev { ev with io_q := ev.io_q.erase q } hc q hq _ cuts_delPd
    (ev.pollq q).pds (fun _ _ => rfl) (hc.grouped q hq) rfl rfl rfl rfl rfl (fun _ _ => rfl)
  exact (htr _ (backed_iff_tracked.mp h)).backed

/-- `select` takes descriptors out of the sets only. -/
theorem overwrite_backed {ev : Ev} (h : Backed ev) (i : ℕ) (ready : Kind → Finset ℤ) :
    Backed (ev.overwrite i ready) := by
  intro k fd hfd hw
  have hsub : ∀ j, ((ev.overwrite i ready).data j).set k ⊆ (ev.data j).set k := by
    intro j
    unfold overwrite
    dsimp only
    by_cases hj : j = i
    · rw [hj, Function.update_self]
      exact Finset.inter_subset_left
    · rw [Function.update_of_ne hj]
  exact h k fd hfd (hsub _ hw)

/-- A group's turn in a dispatch pass keeps the sets within the counts. -/
theorem dispatchOnce_backed {ev : Ev} (hc : Counted ev) (h : Backed ev) (i : ℕ)
    (outcome : SelectOutcome) : Backed (ev.dispatchOnce i outcome).1 := by
  unfold dispatchOnce
  split_ifs with hguard
  · exact h
  · cases outcome with
    | ready ready =>
      have hc' := overwrite_counted hc (lt_num_of_size hc.table (not_or.mp hguard).1) ready
      have h' := overwrite_backed h i ready
      dsimp only
      split_ifs
      · obtain ⟨w, -, -, -, htr, -⟩ := @pqFold_counted (fun ev => isReady (ev.data i).set)
          (fun ev => readyPd (ev.data i).set) notifyPd cuts_notifyPd
          (fun e pd => readyPd_fd (e.data i).set pd) (fun e pd => readyPd_events (e.data i).set pd)
          (ev.overwrite i ready).io_q (ev.overwrite i ready) hc' hc'.nodup (fun _ hq => hq) []
        rw [notifyPq_eq]
        exact (htr _ (backed_iff_tracked.mp h')).backed
      · exact h'
    | error ebadf bad =>
      dsimp only
      split_ifs
      · exact ((findBadFd_counted hc bad).2.2.1 _ (backed_iff_tracked.mp h)).backed
      · exact h

/-! ## The groups of a pass -/

/-- The state of the event system when a pass reaches group `i`. -/
def reach (ev : Ev) (outcomes : ℕ → SelectOutcome) (i : ℕ) : Ev :=
  ((List.range i).foldl (dispatchGroup outcomes) (ev, [])).1

/-- The pass goes on from one group to the next. -/
theorem reach_succ (ev : Ev) (outcomes : ℕ → SelectOutcome) (i : ℕ) :
    ev.reach outcomes (i + 1) = ((ev.reach outcomes i).dispatchOnce i (outcomes i)).1 := by
  unfold reach
  rw [List.range_succ, List.foldl_append]
  rfl

/-- The pass ends behind the last group. -/
theorem reach_num (ev : Ev) (outcomes : ℕ → SelectOutcome) :
    ev.reach outcomes ev.num = (ev.dispatch outcomes).1 := rfl

/-- The invariants hold at each group. -/
theorem reach_inv {ev : Ev} (hc : Counted ev) (h : Backed ev) (outcomes : ℕ → SelectOutcome)
    (i : ℕ) : Counted (ev.reach outcomes i) ∧ Backed (ev.reach outcomes i) := by
  induction i with
  | zero => exact ⟨hc, h⟩
  | succ i ih =>
    rw [reach_succ]
    exact ⟨(dispatchOnce_counted ih.1 i _).2, dispatchOnce_backed ih.1 ih.2 i _⟩

/-- The groups after the one that notifies a pollq leave it alone. -/
theorem reach_keep {ev : Ev} (hc : Counted ev) (outcomes : ℕ → SelectOutcome) {i q : ℕ}
    (hq : q ∉ (ev.reach outcomes i).io_q) (n : ℕ) :
    (ev.reach outcomes (i + n)).pollq q = (ev.reach outcomes i).pollq q ∧
      q ∉ (ev.reach outcomes (i + n)).io_q := by
  have hcounted : ∀ i, Counted (ev.reach outcomes i) := by
    intro i
    obtain ⟨w, -, -, h⟩ := dispatchFold_counted outcomes (List.range i) hc []
    exact h
  induction n with
  | zero => exact ⟨rfl, hq⟩
  | succ n ih =>
    rw [← Nat.add_assoc, reach_succ]
    obtain ⟨hnot, -⟩ := dispatchOnce_counted (hcounted (i + n)) (i + n) (outcomes (i + n))
    refine ⟨?_, ?_⟩
    · rw [(dispatchOnce_found (hcounted (i + n)) (i + n) (outcomes (i + n)) q).2 ih.2]
      exact ih.1
    · rw [hnot.io_q]
      exact fun hmem => ih.2 (List.mem_of_mem_filter hmem)

/-! ## What is found, and what is written -/

/-- The requested events of an entry that are in the sets. -/
def readyEvents (set : Kind → Finset ℤ) (pd : Pollfd) : Events :=
  ⟨pd.events.pollin && decide (pd.fd ∈ set .read), pd.events.pollout && decide (pd.fd ∈ set .write),
    pd.events.pollpri && decide (pd.fd ∈ set .excep), false⟩

/-- What the outcome of `select` on group `i` says of an entry: its requested events that are ready, or,
after a failure with `EBADF`, `POLLNVAL` if its descriptor is bad. -/
def found (ev : Ev) (i : ℕ) (outcome : SelectOutcome) (pd : Pollfd) : Events :=
  match outcome with
  | .ready ready => readyEvents (fun k => (ev.data i).set k ∩ ready k) pd
  | .error _ bad => (badPd bad pd).revents

/-- The value that `st_poll` returns to a call that was not interrupted. -/
def polled (ev : Ev) (q : ℕ) : ℕ :=
  if (ev.pollq q).on_ioq then 0 else (ev.pollq q).pds.countP fun pd => pd.revents ≠ Events.none

/-- The call's array holds exactly what was found, and the call returns the number of entries for which
something was. -/
structure Exact (ev : Ev) (i : ℕ) (outcome : SelectOutcome) (q : ℕ) (ev' : Ev) : Prop where
  revents : (ev'.pollq q).pds =
    (ev.pollq q).pds.map fun pd => { pd with revents := ev.found i outcome pd }
  value : ev'.polled q = (ev.pollq q).pds.countP fun pd => ev.found i outcome pd ≠ Events.none

/-- The state in which the notification loop of group `i` comes to a call: the pollqs before it are
served, and the sets hold what is ready of what the others ask for. -/
structure Turn (ev : Ev) (i : ℕ) (l₁ : List ℕ) (q : ℕ) (e : Ev) : Prop where
  counted : Counted e
  serving : Serving ev i e
  queued : ∀ q', q' ∈ e.io_q ↔
    q' ∈ ev.io_q ∧ ¬(q' ∈ l₁ ∧ ev.anyReady (ev.data i).set q' = true)
  backed : Backed e

/-- In every run the sets hold descriptors with a count only. -/
theorem Polls.run_backed {ops : List Polls.Op} {p : Polls}
    (hrun : Runs.run Polls.step Polls.init ops = some p) : Polls.Inv p ∧ Backed p.ev := by
  refine Runs.run_invariant_of_step (I := fun p => Polls.Inv p ∧ Backed p.ev) ?_
    ⟨Polls.init_inv, init_watching.backed⟩ hrun
  rintro p op p' ⟨hinv, h⟩ hstep
  refine ⟨Polls.step_inv hinv hstep, ?_⟩
  cases op with
  | register thread pds =>
    cases hstep
    exact register_backed hinv.counted h thread pds
  | resume q =>
    rw [Polls.step] at hstep
    split_ifs at hstep with hq
    cases hstep
    by_cases hon : (p.ev.pollq q).on_ioq = true
    · exact unregister_backed hinv.counted h (hinv.on_ioq q hq hon)
    · dsimp only
      rw [unregister_of_off hon]
      exact h
  | dispatch outcomes =>
    cases hstep
    exact (reach_inv hinv.counted h outcomes p.ev.num).2

/-- What a run does to the pollqs that are off the queue. -/
theorem Polls.run_kept {ops : List Polls.Op} {p p' : Polls} (hinv : Polls.Inv p)
    (hrun : Runs.run Polls.step p ops = some p') : Kept p.ev p'.ev := by
  have h : Polls.Inv p' ∧ Kept p.ev p'.ev := by
    refine Runs.run_invariant_of_step (I := fun e => Polls.Inv e ∧ Kept p.ev e.ev) ?_
      ⟨hinv, Kept.refl p.ev⟩ hrun
    rintro e op e' ⟨hinv, h⟩ hstep
    refine ⟨Polls.step_inv hinv hstep, h.trans ?_⟩
    cases op with
    | register thread pds =>
      cases hstep
      exact register_kept hinv.counted thread pds
    | resume q =>
      rw [Polls.step] at hstep
      split_ifs at hstep
      cases hstep
      exact unregister_kept e.ev q
    | dispatch outcomes =>
      cases hstep
      exact dispatch_kept hinv.counted outcomes
  exact h.2

/-- The wait of the call `q` ended in group `i` of a pass of the run, where `ev` is the state in which the
pass reached the group, and `outcome` what `select` did there. -/
def Ends (ops : List Polls.Op) (q : ℕ) (ev : Ev) (i : ℕ) (outcome : SelectOutcome) : Prop :=
  ∃ ops₁ outcomes ops₂ p₁, ops = ops₁ ++ Polls.Op.dispatch outcomes :: ops₂ ∧
    Runs.run Polls.step Polls.init ops₁ = some p₁ ∧ i < p₁.ev.num ∧
    ev = p₁.ev.reach outcomes i ∧ outcome = outcomes i ∧ q ∈ (ev.dispatchOnce i outcome).2

/-- After the pass in which its wait ended, the call's pollq stays as the group left it. -/
theorem Ends.pollq {ops : List Polls.Op} {q i : ℕ} {ev : Ev} {outcome : SelectOutcome} {p : Polls}
    (h : Ends ops q ev i outcome) (hrun : Runs.run Polls.step Polls.init ops = some p) :
    Counted ev ∧ Backed ev ∧ p.ev.pollq q = (ev.dispatchOnce i outcome).1.pollq q := by
  obtain ⟨ops₁, outcomes, ops₂, p₁, rfl, hrun₁, hi, rfl, rfl, hq⟩ := h
  obtain ⟨hinv, hbacked⟩ := Polls.run_backed hrun₁
  obtain ⟨hc, hb⟩ := reach_inv hinv.counted hbacked outcomes i
  rw [Runs.run_append, hrun₁, Option.bind_some] at hrun
  obtain ⟨p₂, hstep, hrun₂⟩ := Runs.run_cons hrun
  cases hstep
  -- The group takes the pollq off the queue, and the other groups of the pass pass it by.
  obtain ⟨hnot, -⟩ := dispatchOnce_counted hc i (outcomes i)
  have hoff : q ∉ (p₁.ev.reach outcomes (i + 1)).io_q := by
    rw [reach_succ, hnot.io_q]
    simp [hq]
  obtain ⟨hpass, hoff'⟩ := reach_keep hinv.counted outcomes hoff (p₁.ev.num - (i + 1))
  rw [Nat.add_sub_cancel' hi, reach_num, reach_succ] at hpass
  rw [Nat.add_sub_cancel' hi, reach_num] at hoff'
  -- So do the steps after the pass.
  have hkept := Polls.run_kept (Polls.dispatch_inv hinv outcomes) hrun₂
  have hlt : q < (p₁.ev.dispatch outcomes).1.next := by
    rw [(dispatch_counted hinv.counted outcomes).1.same.next]
    have hsame : SameRequests p₁.ev (p₁.ev.reach outcomes i) := by
      obtain ⟨w, -, hnot', -⟩ := dispatchFold_counted outcomes (List.range i) hinv.counted []
      exact hnot'.same
    rw [← hsame.next]
    exact hc.fresh q (hnot.mem q hq)
  exact ⟨hc, hb, (hkept.pollq q hlt hoff').1.trans hpass⟩

/-- A call waits for input on two descriptors, with `revents` in the second entry. -/
def twoEntries (revents : Events) : Polls.Op :=
  .register 1 [⟨5, ⟨true, false, false, false⟩, Events.none⟩, ⟨7, ⟨true, false, false, false⟩, revents⟩]

/-- The first descriptor becomes ready. -/
def firstReady : SelectOutcome := .ready fun k => if k = .read then {5} else ∅

end StWin.Ev
