import StWin.Event.Groups

/-!
# The bound of a group

A group's `maxfd` is the bound that `select` is given, and a group with `maxfd <= 0` is skipped.
Registration raises it, and nothing lowers it but the scan for bad descriptors, which sets it to zero in
every group. The scan raises it again for the pollqs that it takes off the queue, and not for those that
stay: their descriptors are within the bound afterwards only if a larger one has just left
(`findBadFd_covered_iff`).
-/

namespace StWin.Ev

/-- The bound of a group covers the descriptors of its registered entries. -/
def Covered (ev : Ev) : Prop :=
  ∀ q ∈ ev.io_q, ∀ pd ∈ (ev.pollq q).pds, 0 < pd.fd → pd.events ≠ Events.none →
    pd.fd ≤ (ev.data (getGfd pd.fd).toNat).maxfd

/-- Requests that stay on the queue, in groups whose bounds stay. -/
theorem Covered.of_same {ev ev' : Ev} (h : Covered ev) (hio : ∀ q ∈ ev'.io_q, q ∈ ev.io_q)
    (hsame : SameRequests ev ev') (hmax : ∀ i, (ev'.data i).maxfd = (ev.data i).maxfd) :
    Covered ev' := by
  intro q hq pd hpd hfd hev
  obtain ⟨pd', hpd', hfd', hev'⟩ := hsame.symm.exists_pd hpd
  rw [hmax, ← hfd']
  exact h q (hio q hq) pd' hpd' (hfd' ▸ hfd) (hev' ▸ hev)

/-- Registration moves the bound up as far as needed. -/
theorem register_covered {ev : Ev} (hc : Counted ev) (h : Covered ev) (thread : ℕ)
    (pds : List Pollfd) : Covered (ev.register thread pds) := by
  obtain ⟨hio, hpollq, -⟩ := register_queue hc thread pds
  have hmax : ∀ i fd, fd ≤ ((ev.register thread pds).data i).maxfd ↔
      fd ≤ (ev.data i).maxfd ∨ ∃ pd ∈ pds, pd.isIn i = true ∧ fd ≤ pd.fd :=
    fun i fd => (pollsetAdd_fields pds i hc.table).2 fd
  intro q hq pd hpd hfd hev
  rw [hio, List.mem_append, List.mem_singleton] at hq
  rw [hpollq] at hpd
  rw [hmax]
  rcases hq with hq | rfl
  · have hlt := hc.fresh q hq
    rw [Function.update_of_ne (by omega)] at hpd
    exact Or.inl (h q hq pd hpd hfd hev)
  · rw [Function.update_self] at hpd
    have hnn := getGfd_nonneg hfd
    exact Or.inr ⟨pd, hpd, Pollfd.isIn_iff.mpr ⟨hfd, hev, by omega⟩, le_rfl⟩

/-- Removal leaves bounds that cover what is left. -/
theorem unregister_covered {ev : Ev} (hc : Counted ev) (h : Covered ev) {q : ℕ} (hq : q ∈ ev.io_q) :
    Covered (ev.unregister q) := by
  obtain ⟨hio, hpollq, hnext⟩ := unregister_queue hc hq
  refine h.of_same ?_ ⟨fun _ => by rw [hpollq], fun _ => by rw [hpollq], hnext⟩ fun i => ?_
  · intro q' hq'
    rw [hio] at hq'
    exact List.mem_of_mem_erase hq'
  · unfold unregister
    rw [if_pos (hc.on_ioq q hq)]
    exact (@pollsetDel_fields (ev.pollq q).pds i { ev with io_q := ev.io_q.erase q }
      (hc.grouped q hq)).2

/-- What one iteration of the scan for bad descriptors does to the bound of a group. -/
theorem badPq_maxfd (bad : ℤ → Bool) {ev e : Ev} (ht : TableOk e) (hsame : SameRequests ev e)
    (woken : List ℕ) (q i : ℕ) (fd : ℤ) :
    fd ≤ ((badPq bad (e, woken) q).1.data i).maxfd ↔ fd ≤ (e.data i).maxfd ∨
      (ev.anyBad bad q = true ∧ ∃ pd ∈ (ev.pollq q).pds, getGfd pd.fd = i ∧ fd ≤ pd.fd) := by
  rw [← hsame.anyBad bad q]
  unfold badPq
  dsimp only
  split_ifs with hany
  · have hany' : e.anyBad bad q = true := hany
    have ht' : TableOk (e.takeOff q ((e.pollq q).pds.map (badPd bad))) := ⟨ht.sets, ht.past⟩
    rw [(badCutPds_fields _ i ht').2 fd, and_iff_right hany']
    refine or_congr_right ⟨?_, ?_⟩
    · rintro ⟨pd, hpd, hgfd, hle⟩
      obtain ⟨pd₀, hpd₀, rfl⟩ := List.mem_map.mp hpd
      rw [badPd_fd] at hgfd hle
      obtain ⟨pd', hpd', hfd', -⟩ := hsame.symm.exists_pd hpd₀
      exact ⟨pd', hpd', hfd' ▸ hgfd, hfd' ▸ hle⟩
    · rintro ⟨pd, hpd, hgfd, hle⟩
      obtain ⟨pd', hpd', hfd', -⟩ := hsame.exists_pd hpd
      refine ⟨badPd bad pd', List.mem_map_of_mem hpd', ?_, ?_⟩
      · rw [badPd_fd, hfd']
        exact hgfd
      · rw [badPd_fd, hfd']
        exact hle
  · have hany' : ¬e.anyBad bad q = true := hany
    rw [or_iff_left fun hcon => hany' hcon.1]
    rfl

/-- The bounds in the scan for bad descriptors: those of the entries of the pollqs that it has taken off
the queue. -/
theorem badFold_maxfd (bad : ℤ → Bool) (ev : Ev) (i : ℕ) (l : List ℕ) : ∀ {e : Ev} {woken : List ℕ},
    Counted e → SameRequests ev e → l.Nodup → (∀ q ∈ l, q ∈ e.io_q) → ∀ fd,
    (fd ≤ ((l.foldl (badPq bad) (e, woken)).1.data i).maxfd ↔ fd ≤ (e.data i).maxfd ∨
      ∃ q ∈ l, ev.anyBad bad q = true ∧
        ∃ pd ∈ (ev.pollq q).pds, getGfd pd.fd = i ∧ fd ≤ pd.fd) := by
  induction l with
  | nil =>
    intro e woken _ _ _ _ fd
    simp
  | cons q l ih =>
    intro e woken hc hsame hnodup hmem fd
    obtain ⟨hql, hnodup⟩ := List.nodup_cons.mp hnodup
    obtain ⟨w, hw, -, hnot, hc', -⟩ := @pqStep_counted
      (fun _ pd => decide (pd.events ≠ Events.none) && bad pd.fd) (fun _ => badPd bad) badCutPd
      cuts_badCutPd (fun _ => badPd_fd bad) (fun _ => badPd_events bad) e hc q
      (hmem q List.mem_cons_self) woken
    rw [← badPq_eq] at hnot hc'
    have hmem' : ∀ q' ∈ l, q' ∈ (badPq bad (e, woken) q).1.io_q := by
      intro q' hq'
      have hne : q' ≠ q := fun heq => hql (heq ▸ hq')
      rw [hnot.io_q, List.mem_filter]
      refine ⟨hmem q' (List.mem_cons_of_mem _ hq'), ?_⟩
      rw [hw]
      split_ifs <;> simp [hne]
    have hrest := @ih (badPq bad (e, woken) q).1 (badPq bad (e, woken) q).2 hc'
      (hsame.trans hnot.same) hnodup hmem' fd
    rw [List.foldl_cons]
    refine hrest.trans ?_
    rw [badPq_maxfd bad hc.table hsame]
    simp only [List.mem_cons, exists_eq_or_imp, or_assoc]

/-- A scan that leaves the bounds right: each registered entry that stays has an entry of a pollq with a
bad descriptor beside it in its group, with a descriptor that is at least as large. -/
def ScanCovers (ev : Ev) (bad : ℤ → Bool) : Prop :=
  ∀ q ∈ ev.io_q, ev.anyBad bad q = false → ∀ pd ∈ (ev.pollq q).pds, 0 < pd.fd →
    pd.events ≠ Events.none → ∃ q' ∈ ev.io_q, ev.anyBad bad q' = true ∧
      ∃ pd' ∈ (ev.pollq q').pds, getGfd pd'.fd = getGfd pd.fd ∧ pd.fd ≤ pd'.fd

instance (ev : Ev) (bad : ℤ → Bool) : Decidable (ScanCovers ev bad) :=
  inferInstanceAs (Decidable (∀ q ∈ ev.io_q, ev.anyBad bad q = false → ∀ pd ∈ (ev.pollq q).pds,
    0 < pd.fd → pd.events ≠ Events.none → ∃ q' ∈ ev.io_q, ev.anyBad bad q' = true ∧
      ∃ pd' ∈ (ev.pollq q').pds, getGfd pd'.fd = getGfd pd.fd ∧ pd.fd ≤ pd'.fd))

/-- The scan makes the bounds anew, and exactly then they are right. -/
theorem findBadFd_covered_iff {ev : Ev} (hc : Counted ev) (bad : ℤ → Bool) :
    Covered (ev.findBadFd bad).1 ↔ ScanCovers ev bad := by
  obtain ⟨hnot, -⟩ := findBadFd_counted hc bad
  obtain ⟨hc₀, -⟩ := @setData_counted ev hc
    (fun i => if i < ev.num then { ev.data i with maxfd := 0 } else ev.data i)
    (fun i => by split_ifs <;> rfl) (fun i hi => if_neg (by omega))
  -- All bounds begin at zero.
  have hzero : ∀ i, ((fun i => if i < ev.num then { ev.data i with maxfd := 0 } else ev.data i)
      i).maxfd = 0 := by
    intro i
    dsimp only
    split_ifs with hi
    · rfl
    · rw [hc.table.past i (by omega)]
      rfl
  have hmax : ∀ i fd, 0 < fd → (fd ≤ ((ev.findBadFd bad).1.data i).maxfd ↔
      ∃ q ∈ ev.io_q, ev.anyBad bad q = true ∧
        ∃ pd ∈ (ev.pollq q).pds, getGfd pd.fd = i ∧ fd ≤ pd.fd) := by
    intro i fd hfd
    have hfold := @badFold_maxfd bad ev i ev.io_q _ [] hc₀ ⟨fun _ => rfl, fun _ => rfl, rfl⟩
      hc.nodup (fun _ hq => hq) fd
    rw [hzero i] at hfold
    exact hfold.trans (or_iff_right (not_le.mpr hfd))
  have hstay : ∀ q, q ∈ (ev.findBadFd bad).1.io_q ↔ q ∈ ev.io_q ∧ ev.anyBad bad q = false := by
    intro q
    rw [hnot.io_q, findBadFd_woken hc, List.mem_filter, decide_eq_true_iff, List.mem_filter]
    cases ev.anyBad bad q <;> simp
  constructor
  · intro h q hq hgood pd hpd hfd hev
    obtain ⟨pd', hpd', hfd', hev'⟩ := hnot.same.exists_pd hpd
    have hle := h q ((hstay q).mpr ⟨hq, hgood⟩) pd' hpd' (hfd' ▸ hfd) (hev' ▸ hev)
    have hnn := getGfd_nonneg hfd
    rw [hfd', hmax _ _ hfd, Int.toNat_of_nonneg hnn] at hle
    exact hle
  · intro h q hq pd hpd hfd hev
    obtain ⟨hio, hgood⟩ := (hstay q).mp hq
    obtain ⟨pd', hpd', hfd', hev'⟩ := hnot.same.symm.exists_pd hpd
    have hnn := getGfd_nonneg hfd
    rw [hmax _ _ hfd, Int.toNat_of_nonneg hnn, ← hfd']
    exact h q hio hgood pd' hpd' (hfd' ▸ hfd) (hev' ▸ hev)

/-! ## Passes and runs -/

/-- The condition on one group of a pass: if `select` is called for it and fails with `EBADF`, the scan
leaves the bounds right. -/
def GroupCovers (ev : Ev) (i : ℕ) (outcome : SelectOutcome) : Prop :=
  (ev.data i).size ≤ 0 ∨ (ev.data i).maxfd ≤ 0 ∨
    match outcome with
    | .ready _ => True
    | .error ebadf bad => ebadf = true → ScanCovers ev bad

instance (ev : Ev) (i : ℕ) (outcome : SelectOutcome) : Decidable (GroupCovers ev i outcome) :=
  match outcome with
  | .ready _ => inferInstanceAs (Decidable (_ ∨ _ ∨ True))
  | .error ebadf bad => inferInstanceAs (Decidable (_ ∨ _ ∨ (ebadf = true → ScanCovers ev bad)))

/-- One group: where the bounds were right, they are right afterwards exactly under the condition. -/
theorem dispatchOnce_covered_iff {ev : Ev} (hc : Counted ev) (h : Covered ev) (i : ℕ)
    (outcome : SelectOutcome) :
    Covered (ev.dispatchOnce i outcome).1 ↔ GroupCovers ev i outcome := by
  obtain ⟨hnot, -⟩ := dispatchOnce_counted hc i outcome
  -- Without a scan the bounds stay.
  have hkeep : (∀ j, ((ev.dispatchOnce i outcome).1.data j).maxfd = (ev.data j).maxfd) →
      Covered (ev.dispatchOnce i outcome).1 := by
    refine h.of_same (fun q hq => ?_) hnot.same
    rw [hnot.io_q] at hq
    exact List.mem_of_mem_filter hq
  unfold GroupCovers
  by_cases hguard : (ev.data i).size ≤ 0 ∨ (ev.data i).maxfd ≤ 0
  · rw [← or_assoc]
    refine iff_of_true (hkeep fun j => ?_) (Or.inl hguard)
    unfold dispatchOnce
    rw [if_pos hguard]
  · rw [← or_assoc, or_iff_right hguard]
    cases outcome with
    | ready ready =>
      refine iff_of_true (hkeep fun j => ?_) trivial
      have hover : ((ev.overwrite i ready).data j).maxfd = (ev.data j).maxfd := by
        unfold overwrite
        dsimp only
        by_cases hj : j = i
        · rw [hj, Function.update_self]
        · rw [Function.update_of_ne hj]
      unfold dispatchOnce
      rw [if_neg hguard]
      dsimp only
      split_ifs
      · rw [(notifyFold_fields i _ _ j).2]
        exact hover
      · exact hover
    | error ebadf bad =>
      unfold dispatchOnce
      rw [if_neg hguard]
      cases ebadf with
      | false =>
        refine iff_of_true h ?_
        intro hebadf
        cases hebadf
      | true =>
        dsimp only
        rw [if_pos rfl, findBadFd_covered_iff hc bad]
        exact ⟨fun hcovers _ => hcovers, fun hcovers => hcovers rfl⟩

/-- The condition on a pass: each group meets its condition when the pass reaches it. -/
def PassCovers (ev : Ev) (outcomes : ℕ → SelectOutcome) : Prop :=
  Runs.Meets (groupStep outcomes) (fun ev i => GroupCovers ev i (outcomes i)) ev (List.range ev.num)

instance (ev : Ev) (outcomes : ℕ → SelectOutcome) : Decidable (PassCovers ev outcomes) :=
  Runs.Meets.decidable _ _ _ _

/-- A pass that meets the condition leaves bounds that cover what is left. -/
theorem dispatch_covered {ev : Ev} (hc : Counted ev) (h : Covered ev)
    {outcomes : ℕ → SelectOutcome} (hok : PassCovers ev outcomes) :
    Covered (ev.dispatch outcomes).1 := by
  have hrun := run_groupStep outcomes (List.range ev.num) ev []
  have hboth : Counted (ev.dispatch outcomes).1 ∧ Covered (ev.dispatch outcomes).1 := by
    refine Runs.run_invariant (I := fun e => Counted e ∧ Covered e) ?_ ⟨hc, h⟩ hok hrun
    rintro e i e' ⟨hce, he⟩ hcovers hstep
    cases hstep
    exact ⟨(dispatchOnce_counted hce i _).2, (dispatchOnce_covered_iff hce he i _).mpr hcovers⟩
  exact hboth.2

/-- The condition on a step of the event system: the scans of a pass leave the bounds right. -/
def Polls.StepCovers (p : Polls) : Polls.Op → Prop
  | .dispatch outcomes => PassCovers p.ev outcomes
  | _ => True

instance (p : Polls) (op : Polls.Op) : Decidable (p.StepCovers op) :=
  match op with
  | .dispatch outcomes => inferInstanceAs (Decidable (PassCovers p.ev outcomes))
  | .register _ _ => .isTrue trivial
  | .resume _ => .isTrue trivial

/-- Each step that meets the condition keeps the bounds. -/
theorem Polls.step_covered {p p' : Polls} {op : Polls.Op} (h : Polls.Inv p ∧ Covered p.ev)
    (hok : p.StepCovers op) (hstep : p.step op = some p') : Polls.Inv p' ∧ Covered p'.ev := by
  obtain ⟨hinv, h⟩ := h
  refine ⟨Polls.step_inv hinv hstep, ?_⟩
  cases op with
  | register thread pds =>
    cases hstep
    exact register_covered hinv.counted h thread pds
  | resume q =>
    rw [Polls.step] at hstep
    split_ifs at hstep with hq
    cases hstep
    by_cases hon : (p.ev.pollq q).on_ioq = true
    · exact unregister_covered hinv.counted h (hinv.on_ioq q hq hon)
    · dsimp only
      rw [unregister_of_off hon]
      exact h
  | dispatch outcomes =>
    cases hstep
    exact dispatch_covered hinv.counted h hok

/-- A group with waiting requests is not skipped because of its bound. In every run whose scans leave the
bounds right: for each pollq on the I/O queue and each of its entries with a descriptor above zero and
`events != 0`, the bound of the entry's group is at least the descriptor, so that the guard `maxfd <= 0`
does not skip the group. -/
theorem run_maxfd_covers (ops : List Polls.Op) {p : Polls}
    (hok : Runs.Meets Polls.step Polls.StepCovers Polls.init ops)
    (hrun : Runs.run Polls.step Polls.init ops = some p) :
    ∀ q ∈ p.ev.io_q, ∀ pd ∈ (p.ev.pollq q).pds, 0 < pd.fd → pd.events ≠ Events.none →
      pd.fd ≤ (p.ev.data (getGfd pd.fd).toNat).maxfd ∧
        ¬(p.ev.data (getGfd pd.fd).toNat).maxfd ≤ 0 := by
  have hinit : Covered Polls.init.ev := by
    intro q hq
    cases hq
  obtain ⟨-, h⟩ := Runs.run_invariant (I := fun p => Polls.Inv p ∧ Covered p.ev)
    (fun h hok hstep => Polls.step_covered h hok hstep) ⟨Polls.init_inv, hinit⟩ hok hrun
  intro q hq pd hpd hfd hev
  have hle := h q hq pd hpd hfd hev
  exact ⟨hle, by omega⟩

/-- Two calls wait on descriptors of one group, and a third one on a descriptor of the next. -/
def threeCalls : List Polls.Op :=
  [.register 1 [⟨5, ⟨true, false, false, false⟩, Events.none⟩],
    .register 2 [⟨7, ⟨true, false, false, false⟩, Events.none⟩],
    .register 3 [⟨300, ⟨true, false, false, false⟩, Events.none⟩]]

/-- `select` fails for the first group, and the descriptors of `bad` turn out to be bad. -/
def scans (bad : List ℤ) : Polls.Op :=
  .dispatch fun i => if i = 0 then .error true fun fd => decide (fd ∈ bad) else .error false fun _ => false

/-- The larger descriptors are bad, and the bound stays right for the other call. -/
theorem run_maxfd_covers_larger :
    ∃ p, Runs.run Polls.step Polls.init (threeCalls ++ [scans [7, 300]]) = some p ∧
      p.ev.io_q = [0] ∧ 5 ≤ (p.ev.data 0).maxfd := by
  refine ⟨_, rfl, by decide, ?_⟩
  exact (run_maxfd_covers (threeCalls ++ [scans [7, 300]]) (by decide) rfl 0 (by decide)
    ⟨5, ⟨true, false, false, false⟩, Events.none⟩ (by decide) (by decide) (by decide)).1

/-- The descriptor of the other group is bad, and the group of the two calls is skipped from then on. -/
theorem run_maxfd_lost :
    ∃ p, Runs.run Polls.step Polls.init (threeCalls ++ [scans [300]]) = some p ∧
      0 ∈ p.ev.io_q ∧ ⟨5, ⟨true, false, false, false⟩, Events.none⟩ ∈ (p.ev.pollq 0).pds ∧
      (p.ev.data (getGfd 5).toNat).maxfd = 0 :=
  ⟨_, rfl, by decide, by decide, by decide⟩

end StWin.Ev
