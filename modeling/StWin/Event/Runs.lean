import StWin.Event.Interest
import StWin.Lib.Runs

/-!
# Runs of the event system

A run is a sequence of registrations by `st_poll`, of returns from the wait in `st_poll`, after a
notification, a timeout, or an interrupt, and of dispatch passes with any outcomes of `select`. A
call of `st_poll` returns once: `waiting` lists the pollqs whose call has not.

In every run the counts are exact, so `_st_select_fd_close` refuses exactly the descriptors that
some pollq on the queue waits for. The sets are another matter. They are both the long-lived masks
of interest and the arguments that `select` overwrites, and nothing restores them: a pollq that a
pass leaves on the queue is no longer watched. The sets stay right in the runs in which no pass
leaves a pollq of a group that `select` has reported on.
-/

namespace StWin.Ev

/-- The event system with the calls of `st_poll` that wait. -/
structure Polls where
  ev : Ev
  /-- The pollqs of the calls that have not returned. -/
  waiting : List ℕ

namespace Polls

/-- What happens to the event system. -/
inductive Op where
  /-- `st_poll` registers an array and begins to wait. -/
  | register (thread : ℕ) (pds : List Pollfd)
  /-- The wait of a call of `st_poll` ends. -/
  | resume (pq : ℕ)
  /-- A pass of `_st_select_dispatch`. -/
  | dispatch (outcomes : ℕ → SelectOutcome)

/-- After `_st_select_init`. -/
def init : Polls := ⟨Ev.init, []⟩

/-- One step of the event system. -/
def step (p : Polls) : Op → Option Polls
  | .register thread pds => some ⟨p.ev.register thread pds, p.waiting ++ [p.ev.next]⟩
  | .resume pq =>
    if pq ∈ p.waiting then some ⟨p.ev.unregister pq, p.waiting.erase pq⟩ else none
  | .dispatch outcomes => some ⟨(p.ev.dispatch outcomes).1, p.waiting⟩

/-- The invariant of a run: the flag `on_ioq` of a waiting call tells whether its pollq is on the
queue. -/
structure Inv (p : Polls) : Prop where
  counted : Counted p.ev
  nodup : p.waiting.Nodup
  fresh : ∀ q ∈ p.waiting, q < p.ev.next
  sub : ∀ q ∈ p.ev.io_q, q ∈ p.waiting
  on_ioq : ∀ q ∈ p.waiting, (p.ev.pollq q).on_ioq = true → q ∈ p.ev.io_q

end Polls

/-- At first there is no pollq and no count. -/
theorem init_counted : Counted Ev.init :=
  ⟨⟨by simp [Ev.init, Seldata.new], fun _ _ => rfl⟩, List.nodup_nil, by simp [Ev.init],
    by simp [Ev.init], by simp [Ev.init], fun _ _ _ => rfl⟩

/-- At first the sets are empty. -/
theorem init_watching : Watching Ev.init := by
  intro k fd _
  simp [watched, getCnt, Ev.init, Seldata.new]

/-- What removal does to the queue. -/
theorem unregister_queue {ev : Ev} (h : Counted ev) {q : ℕ} (hq : q ∈ ev.io_q) :
    (ev.unregister q).io_q = ev.io_q.erase q ∧ (ev.unregister q).pollq = ev.pollq ∧
      (ev.unregister q).next = ev.next := by
  obtain ⟨-, hsame, -⟩ := @cut_counted ev { ev with io_q := ev.io_q.erase q } h q hq _ cuts_delPd
    (ev.pollq q).pds (fun _ _ => rfl) (h.grouped q hq) rfl rfl rfl rfl rfl (fun _ _ => rfl)
  unfold unregister
  rw [if_pos (h.on_ioq q hq)]
  exact ⟨hsame.io_q, hsame.pollq, hsame.next⟩

/-- A call of `st_poll` whose pollq was taken off the queue has nothing to remove. -/
theorem unregister_of_off {ev : Ev} {q : ℕ} (h : ¬(ev.pollq q).on_ioq = true) :
    ev.unregister q = ev := by
  unfold unregister
  rw [if_neg h]

namespace Polls

/-- At first no thread waits. -/
theorem init_inv : Inv init :=
  ⟨init_counted, List.nodup_nil, by simp [init], by simp [init, Ev.init], by simp [init]⟩

/-- A registration keeps the invariant. -/
theorem register_inv {p : Polls} (h : Inv p) (thread : ℕ) (pds : List Pollfd) :
    Inv ⟨p.ev.register thread pds, p.waiting ++ [p.ev.next]⟩ := by
  obtain ⟨hio, hpollq, hnext⟩ := register_queue h.counted thread pds
  have hnew : p.ev.next ∉ p.waiting := fun hmem => lt_irrefl _ (h.fresh _ hmem)
  refine ⟨(register_counted h.counted thread pds).1, ?_, ?_, ?_, ?_⟩
  · exact h.nodup.append (List.nodup_singleton _) (by simpa using hnew)
  · intro q hq
    dsimp only at hq ⊢
    rw [hnext]
    rcases List.mem_append.mp hq with hq | hq
    · exact Nat.lt_succ_of_lt (h.fresh q hq)
    · rw [List.mem_singleton.mp hq]
      exact Nat.lt_succ_self _
  · intro q hq
    dsimp only at hq ⊢
    rw [hio] at hq
    rcases List.mem_append.mp hq with hq | hq
    · exact List.mem_append_left _ (h.sub q hq)
    · exact List.mem_append_right _ hq
  · intro q hq hon
    dsimp only at hq hon ⊢
    rw [hio]
    rw [hpollq] at hon
    rcases List.mem_append.mp hq with hq | hq
    · have hne : q ≠ p.ev.next := fun heq => hnew (heq ▸ hq)
      rw [Function.update_of_ne hne] at hon
      exact List.mem_append_left _ (h.on_ioq q hq hon)
    · exact List.mem_append_right _ hq

/-- The end of a wait keeps the invariant. -/
theorem resume_inv {p : Polls} (h : Inv p) {q : ℕ} (hq : q ∈ p.waiting) :
    Inv ⟨p.ev.unregister q, p.waiting.erase q⟩ := by
  have hne : ∀ q' ∈ p.waiting.erase q, q' ∈ p.waiting ∧ q' ≠ q := by
    intro q' hq'
    refine ⟨List.mem_of_mem_erase hq', fun heq => ?_⟩
    rw [heq] at hq'
    exact h.nodup.not_mem_erase hq'
  by_cases hon : (p.ev.pollq q).on_ioq = true
  · have hmem := h.on_ioq q hq hon
    obtain ⟨hio, hpollq, hnext⟩ := unregister_queue h.counted hmem
    refine ⟨(unregister_counted h.counted hmem).1, h.nodup.erase q, ?_, ?_, ?_⟩
    · intro q' hq'
      dsimp only
      rw [hnext]
      exact h.fresh q' (hne q' hq').1
    · intro q' hq'
      dsimp only at hq' ⊢
      rw [hio, h.counted.nodup.mem_erase_iff] at hq'
      exact h.nodup.mem_erase_iff.mpr ⟨hq'.1, h.sub q' hq'.2⟩
    · intro q' hq' hon'
      dsimp only at hon' ⊢
      rw [hpollq] at hon'
      rw [hio, h.counted.nodup.mem_erase_iff]
      exact ⟨(hne q' hq').2, h.on_ioq q' (hne q' hq').1 hon'⟩
  · -- The pollq was notified: it is on no queue.
    rw [unregister_of_off hon]
    have hoff : q ∉ p.ev.io_q := fun hmem => hon (h.counted.on_ioq q hmem)
    refine ⟨h.counted, h.nodup.erase q, ?_, ?_, ?_⟩
    · exact fun q' hq' => h.fresh q' (hne q' hq').1
    · intro q' hq'
      have hq'ne : q' ≠ q := fun heq => hoff (heq ▸ hq')
      exact h.nodup.mem_erase_iff.mpr ⟨hq'ne, h.sub q' hq'⟩
    · exact fun q' hq' hon' => h.on_ioq q' (hne q' hq').1 hon'

/-- A dispatch pass keeps the invariant. -/
theorem dispatch_inv {p : Polls} (h : Inv p) (outcomes : ℕ → SelectOutcome) :
    Inv ⟨(p.ev.dispatch outcomes).1, p.waiting⟩ := by
  obtain ⟨hnot, hc⟩ := dispatch_counted h.counted outcomes
  refine ⟨hc, h.nodup, ?_, ?_, ?_⟩
  · intro q hq
    dsimp only at hq ⊢
    rw [hnot.same.next]
    exact h.fresh q hq
  · intro q hq
    dsimp only at hq ⊢
    rw [hnot.io_q] at hq
    exact h.sub q (List.mem_of_mem_filter hq)
  · intro q hq hon
    dsimp only at hq hon ⊢
    have hw : q ∉ (p.ev.dispatch outcomes).2 := by
      intro hw
      rw [hnot.off q hw] at hon
      cases hon
    rw [hnot.keep q hw] at hon
    rw [hnot.io_q, List.mem_filter]
    exact ⟨h.on_ioq q hq hon, by simpa using hw⟩

/-- Each step keeps the invariant. -/
theorem step_inv {p p' : Polls} {op : Op} (h : Inv p) (hstep : p.step op = some p') : Inv p' := by
  cases op with
  | register thread pds =>
    cases hstep
    exact register_inv h thread pds
  | resume q =>
    rw [step] at hstep
    split_ifs at hstep with hq
    cases hstep
    exact resume_inv h hq
  | dispatch outcomes =>
    cases hstep
    exact dispatch_inv h outcomes

/-- Each state of a run satisfies the invariant. -/
theorem run_inv {ops : List Op} {p : Polls} (hrun : Runs.run step init ops = some p) : Inv p :=
  Runs.run_invariant_of_step (fun h hs => step_inv h hs) init_inv hrun

end Polls

/-! ## The counts, and `_st_select_fd_close` -/

/-- Some pollq on the queue has an entry for `fd` that requests one of the three events. -/
def Awaited (ev : Ev) (fd : ℤ) : Prop :=
  ∃ q ∈ ev.io_q, ∃ pd ∈ (ev.pollq q).pds, pd.fd = fd ∧
    (pd.events.pollin = true ∨ pd.events.pollout = true ∨ pd.events.pollpri = true)

/-- Somebody waits for a descriptor exactly when one of its totals is positive. -/
theorem awaited_iff {ev : Ev} {fd : ℤ} :
    ev.Awaited fd ↔ 0 < ev.total .read fd ∨ 0 < ev.total .write fd ∨ 0 < ev.total .excep fd := by
  rw [total_pos, total_pos, total_pos]
  constructor
  · rintro ⟨q, hq, pd, hpd, hfd, hev | hev | hev⟩
    · exact Or.inl ⟨q, hq, pd, hpd, hfd, hev⟩
    · exact Or.inr (Or.inl ⟨q, hq, pd, hpd, hfd, hev⟩)
    · exact Or.inr (Or.inr ⟨q, hq, pd, hpd, hfd, hev⟩)
  · rintro (⟨q, hq, pd, hpd, hfd, hev⟩ | ⟨q, hq, pd, hpd, hfd, hev⟩ | ⟨q, hq, pd, hpd, hfd, hev⟩)
    · exact ⟨q, hq, pd, hpd, hfd, Or.inl hev⟩
    · exact ⟨q, hq, pd, hpd, hfd, Or.inr (Or.inl hev)⟩
    · exact ⟨q, hq, pd, hpd, hfd, Or.inr (Or.inr hev)⟩

/-- With exact counts, `_st_select_fd_close` refuses exactly the awaited descriptors. -/
theorem Counted.fdClose {ev : Ev} (h : Counted ev) {fd : ℤ} (hfd : 0 < fd) :
    ev.fdClose fd = .error .EBUSY ↔ ev.Awaited fd := by
  rw [awaited_iff]
  unfold Ev.fdClose
  rw [h.exact .read fd hfd, h.exact .write fd hfd, h.exact .excep fd hfd]
  simp only [Int.natCast_pos]
  split_ifs with hgfd hcnt
  · -- The group is outside the table: nobody waits.
    have hnone : ∀ k, ¬0 < ev.total k fd := by
      intro k hpos
      obtain ⟨q, hq, pd, hpd, rfl, hhas⟩ := total_pos.mp hpos
      have := h.grouped q hq pd hpd hfd (Pollfd.events_ne_none hhas)
      omega
    simp [hnone]
  · simp [hcnt]
  · simp [hcnt]

/-- In every run, the counts of the descriptors above zero are the numbers of entries that ask, they
are never negative, and `_st_select_fd_close` fails with `EBUSY` exactly when somebody waits. -/
theorem run_counts_exact (ops : List Polls.Op) {p : Polls}
    (hrun : Runs.run Polls.step Polls.init ops = some p) {fd : ℤ} (hfd : 0 < fd) :
    (∀ k, p.ev.getCnt k fd =
        (p.ev.io_q.map fun q => (p.ev.pollq q).pds.countP fun pd =>
          decide (pd.fd = fd) && pd.events.has k).sum) ∧
      (∀ k, 0 ≤ p.ev.getCnt k fd) ∧
      (p.ev.fdClose fd = .error .EBUSY ↔ p.ev.Awaited fd) := by
  have hc := (Polls.run_inv hrun).counted
  refine ⟨fun k => hc.exact k fd hfd, fun k => ?_, hc.fdClose hfd⟩
  rw [hc.exact k fd hfd]
  exact Int.natCast_nonneg _

/-- Two calls wait, one of them with a repeated descriptor, and the other times out. -/
def timedOutOps : List Polls.Op :=
  [.register 1 [⟨5, ⟨true, false, false, false⟩, Events.none⟩,
      ⟨5, ⟨true, true, false, false⟩, Events.none⟩, ⟨-1, ⟨true, false, false, false⟩, Events.none⟩],
    .register 2 [⟨5, ⟨true, false, false, false⟩, Events.none⟩],
    .dispatch fun _ => .ready fun _ => ∅, .resume 1]

/-- The run is possible. The descriptor counts twice for the call that still waits, and is not to be
closed. -/
theorem run_counts_exact_timedOut : ∃ p, Runs.run Polls.step Polls.init timedOutOps = some p ∧
      p.ev.getCnt .read 5 = 2 ∧ p.ev.fdClose 5 = .error .EBUSY := by
  refine ⟨_, rfl, ?_, ?_⟩
  · rw [(run_counts_exact timedOutOps rfl (by decide)).1]
    decide
  · rw [(run_counts_exact timedOutOps rfl (by decide)).2.2]
    exact ⟨0, by decide, by decide⟩

/-! ## The sets -/

/-- An entry asks to notify exactly when one of its events is in the sets. -/
theorem isReady_iff {set : Kind → Finset ℤ} {pd : Pollfd} :
    isReady set pd = true ↔ ∃ k, pd.events.has k = true ∧ pd.fd ∈ set k := by
  unfold isReady
  simp only [Bool.or_eq_true, Bool.and_eq_true, decide_eq_true_eq]
  constructor
  · rintro ((⟨hev, hmem⟩ | ⟨hev, hmem⟩) | ⟨hev, hmem⟩)
    · exact ⟨.read, hev, hmem⟩
    · exact ⟨.write, hev, hmem⟩
    · exact ⟨.excep, hev, hmem⟩
  · rintro ⟨k, hev, hmem⟩
    cases k with
    | read => exact Or.inl (Or.inl ⟨hev, hmem⟩)
    | write => exact Or.inl (Or.inr ⟨hev, hmem⟩)
    | excep => exact Or.inr ⟨hev, hmem⟩

/-- The entry waits for an event on a descriptor of group `i`. -/
def WaitsIn (i : ℕ) (pd : Pollfd) : Prop :=
  0 < pd.fd ∧ getGfd pd.fd = i ∧
    (pd.events.pollin = true ∨ pd.events.pollout = true ∨ pd.events.pollpri = true)

instance (i : ℕ) (pd : Pollfd) : Decidable (WaitsIn i pd) :=
  inferInstanceAs (Decidable (_ ∧ _ ∧ _))

/-- A call of `select` on group `i` that reports something to each pollq that waits in the group: an
event that it asked for and that was watched is ready. -/
def ReportsAll (ev : Ev) (i : ℕ) (ready : Kind → Finset ℤ) : Prop :=
  ∀ q ∈ ev.io_q, (∃ pd ∈ (ev.pollq q).pds, WaitsIn i pd) →
    ∃ pd ∈ (ev.pollq q).pds, isReady (fun k => (ev.data i).set k ∩ ready k) pd = true

instance (ev : Ev) (i : ℕ) (ready : Kind → Finset ℤ) : Decidable (ReportsAll ev i ready) :=
  inferInstanceAs (Decidable (∀ q ∈ ev.io_q, _ → _))

/-- The condition on one group of a dispatch pass: `select` is not called for the group, or it
fails, or it reports something to each pollq that waits in the group. -/
def GroupOk (ev : Ev) (i : ℕ) (outcome : SelectOutcome) : Prop :=
  (ev.data i).size ≤ 0 ∨ (ev.data i).maxfd ≤ 0 ∨
    match outcome with
    | .ready set => ReportsAll ev i set
    | .error _ _ => True

instance (ev : Ev) (i : ℕ) (outcome : SelectOutcome) : Decidable (GroupOk ev i outcome) :=
  match outcome with
  | .ready set => inferInstanceAs (Decidable (_ ∨ _ ∨ ReportsAll ev i set))
  | .error _ _ => inferInstanceAs (Decidable (_ ∨ _ ∨ True))

/-- The requests of a pollq on both sides of a step that keeps them. -/
theorem SameRequests.exists_pd {ev ev' : Ev} (h : SameRequests ev ev') {q : ℕ} {pd : Pollfd}
    (hpd : pd ∈ (ev.pollq q).pds) :
    ∃ pd' ∈ (ev'.pollq q).pds, pd'.fd = pd.fd ∧ pd'.events = pd.events := by
  have hmem : (pd.fd, pd.events) ∈ Ev.requests (ev.pollq q) := List.mem_map.mpr ⟨pd, hpd, rfl⟩
  rw [← h.requests q] at hmem
  obtain ⟨pd', hpd', heq⟩ := List.mem_map.mp hmem
  rw [Prod.mk.injEq] at heq
  exact ⟨pd', hpd', heq.1, heq.2⟩

/-- The relation is symmetric. -/
theorem SameRequests.symm {ev ev' : Ev} (h : SameRequests ev ev') : SameRequests ev' ev :=
  ⟨fun q => (h.requests q).symm, fun q => (h.thread q).symm, h.next.symm⟩

/-- After `select`, the sets of its group hold what is ready of the interest there. -/
theorem overwrite_tracked {ev : Ev} (h : Watching ev) (i : ℕ) (ready : Kind → Finset ℤ) :
    Tracked (fun k fd => getGfd fd = i → fd ∈ ready k) (ev.overwrite i ready) := by
  intro k fd hfd
  have hnn := getGfd_nonneg hfd
  have hwatch := h.iff k hfd
  have hcnt : (ev.overwrite i ready).getCnt k fd = ev.getCnt k fd := rfl
  rw [hcnt, ← hwatch]
  unfold watched overwrite
  dsimp only
  by_cases hi : getGfd fd = i
  · have hi' : (getGfd fd).toNat = i := by omega
    rw [hi', Function.update_self]
    simp only [Finset.mem_inter, hi, true_implies, and_comm]
  · have hi' : (getGfd fd).toNat ≠ i := by omega
    rw [Function.update_of_ne hi']
    simp [hi]

/-- If no pollq on the queue waits in group `i` any more, what `Tracked` leaves open for the group
is empty. -/
theorem watching_of_none_waits {ev : Ev} (h : Counted ev) {i : ℕ} {ready : Kind → Finset ℤ}
    (htr : Tracked (fun k fd => getGfd fd = i → fd ∈ ready k) ev)
    (hnone : ∀ q ∈ ev.io_q, ∀ pd ∈ (ev.pollq q).pds, ¬WaitsIn i pd) : Watching ev := by
  intro k fd hfd
  rw [htr k fd hfd]
  refine and_congr_left fun hpos => iff_of_true ?_ trivial
  intro hi
  rw [h.exact k fd hfd, Int.natCast_pos] at hpos
  obtain ⟨q, hq, pd, hpd, rfl, hhas⟩ := total_pos.mp hpos
  refine absurd ⟨hfd, hi, ?_⟩ (hnone q hq pd hpd)
  cases k with
  | read => exact Or.inl hhas
  | write => exact Or.inr (Or.inl hhas)
  | excep => exact Or.inr (Or.inr hhas)

/-- One group of a dispatch pass that meets the condition keeps the sets right. -/
theorem dispatchOnce_watching {ev : Ev} (h : Counted ev) (hw : Watching ev) {i : ℕ}
    {outcome : SelectOutcome} (hok : GroupOk ev i outcome) :
    Watching (ev.dispatchOnce i outcome).1 := by
  unfold dispatchOnce
  split_ifs with hguard
  · exact hw
  · rw [not_or] at hguard
    have hok' := (hok.resolve_left hguard.1).resolve_left hguard.2
    cases outcome with
    | error ebadf bad =>
      dsimp only
      split_ifs
      · exact (findBadFd_counted h bad).2.2.1 _ hw
      · exact hw
    | ready ready =>
      dsimp only at hok' ⊢
      have hc := overwrite_counted h (lt_num_of_size h.table hguard.1) ready
      have htr := overwrite_tracked hw i ready
      have hset : ((ev.overwrite i ready).data i).set = fun k => (ev.data i).set k ∩ ready k := by
        simp [overwrite]
      split_ifs with hnfd
      · -- Each pollq that waits in the group is notified when the loop reaches it.
        obtain ⟨w, -, hnot, hc', htr', -, hmid⟩ := @pqFold_counted
          (fun ev => isReady (ev.data i).set) (fun ev => readyPd (ev.data i).set) notifyPd
          cuts_notifyPd (fun e pd => readyPd_fd (e.data i).set pd)
          (fun e pd => readyPd_events (e.data i).set pd) (ev.overwrite i ready).io_q
          (ev.overwrite i ready) hc hc.nodup (fun _ hq => hq) []
        rw [notifyPq_eq]
        refine watching_of_none_waits hc' (htr' _ htr) fun q hq pd hpd hwaits => ?_
        rw [hnot.io_q, List.mem_filter] at hq
        obtain ⟨hq, hqw⟩ := hq
        have hqw : q ∉ w := by simpa using hqw
        -- It had a ready entry when `select` returned.
        obtain ⟨pd₀, hpd₀, hfd₀, hev₀⟩ := hnot.same.symm.exists_pd hpd
        obtain ⟨pd₁, hpd₁, hready₁⟩ := hok' q hq ⟨pd₀, hpd₀, by
          unfold WaitsIn at hwaits ⊢
          rw [hfd₀, hev₀]
          exact hwaits⟩
        obtain ⟨k, hhas, hmem⟩ := isReady_iff.mp hready₁
        obtain ⟨hold, hnew⟩ := Finset.mem_inter.mp hmem
        obtain ⟨hpos, hgfd⟩ := h.table.sets i k pd₁.fd hold
        -- The descriptor is still in the set: its count is not zero while the pollq is queued.
        obtain ⟨e, hme, hiff⟩ := hmid q hq
        obtain ⟨pd₂, hpd₂, hfd₂, hev₂⟩ := hme.same.exists_pd hpd₁
        have hcnt : 0 < e.getCnt k pd₁.fd := by
          rw [hme.counted.exact k _ hpos, Int.natCast_pos]
          exact total_pos.mpr ⟨q, hme.mem, pd₂, hpd₂, hfd₂, by rw [hev₂]; exact hhas⟩
        have hwatched : e.watched k pd₁.fd :=
          (hme.tracked _ htr k pd₁.fd hpos).mpr ⟨fun _ => hnew, hcnt⟩
        refine hqw (hiff.mpr (List.any_eq_true.mpr ⟨pd₂, hpd₂, isReady_iff.mpr ⟨k, ?_, ?_⟩⟩))
        · rw [hev₂]
          exact hhas
        · rw [hfd₂]
          unfold watched at hwatched
          rwa [show (getGfd pd₁.fd).toNat = i by omega] at hwatched
      · -- `select` reported nothing, so nobody waits in the group.
        refine watching_of_none_waits hc htr fun q hq pd hpd hwaits => ?_
        obtain ⟨pd₁, -, hready₁⟩ := hok' q hq ⟨pd, hpd, hwaits⟩
        obtain ⟨k, -, hmem⟩ := isReady_iff.mp hready₁
        have hcard : 0 < (((ev.overwrite i ready).data i).set k).card := by
          rw [hset]
          exact Finset.card_pos.mpr ⟨_, hmem⟩
        apply hnfd
        unfold nfd
        cases k <;> omega

/-- The condition on a dispatch pass: each group meets its condition when the pass reaches it. -/
def PassOk (ev : Ev) (outcomes : ℕ → SelectOutcome) : Prop :=
  Runs.Meets (fun ev i => some (ev.dispatchOnce i (outcomes i)).1)
    (fun ev i => GroupOk ev i (outcomes i)) ev (List.range ev.num)

instance (ev : Ev) (outcomes : ℕ → SelectOutcome) : Decidable (PassOk ev outcomes) :=
  Runs.Meets.decidable _ _ _ _

/-- The groups of a dispatch pass that meets the condition. -/
theorem dispatchFold_watching {outcomes : ℕ → SelectOutcome} {l : List ℕ} :
    ∀ {ev : Ev} (woken : List ℕ), Counted ev → Watching ev →
      Runs.Meets (fun ev i => some (ev.dispatchOnce i (outcomes i)).1)
        (fun ev i => GroupOk ev i (outcomes i)) ev l →
      Watching (l.foldl (dispatchGroup outcomes) (ev, woken)).1 := by
  induction l with
  | nil => exact fun _ _ hw _ => hw
  | cons i l ih =>
    intro ev woken h hw hok
    rw [List.foldl_cons]
    exact ih _ (dispatchOnce_counted h i (outcomes i)).2 (dispatchOnce_watching h hw hok.head)
      (hok.tail rfl)

/-- The condition on a step of the event system: a dispatch pass meets the condition on passes. -/
def Polls.StepOk (p : Polls) : Polls.Op → Prop
  | .dispatch outcomes => PassOk p.ev outcomes
  | _ => True

instance (p : Polls) (op : Polls.Op) : Decidable (p.StepOk op) :=
  match op with
  | .dispatch outcomes => inferInstanceAs (Decidable (PassOk p.ev outcomes))
  | .register _ _ => .isTrue trivial
  | .resume _ => .isTrue trivial

/-- Each step keeps the sets equal to what the counts say, when its pass meets the condition. -/
theorem Polls.step_watching {p p' : Polls} {op : Polls.Op} (h : Polls.Inv p ∧ Watching p.ev)
    (hok : p.StepOk op) (hstep : p.step op = some p') : Polls.Inv p' ∧ Watching p'.ev := by
  obtain ⟨hinv, hw⟩ := h
  refine ⟨Polls.step_inv hinv hstep, ?_⟩
  cases op with
  | register thread pds =>
    cases hstep
    exact (register_counted hinv.counted thread pds).2 hw
  | resume q =>
    rw [Polls.step] at hstep
    split_ifs at hstep with hq
    cases hstep
    by_cases hon : (p.ev.pollq q).on_ioq = true
    · exact (unregister_counted hinv.counted (hinv.on_ioq q hq hon)).2 hw
    · dsimp only
      rw [unregister_of_off hon]
      exact hw
  | dispatch outcomes =>
    cases hstep
    exact dispatchFold_watching [] hinv.counted hw hok

/-- In every run whose dispatch passes meet the condition, a descriptor above zero is in the set of
its group exactly when some pollq on the queue asks for the event. -/
theorem run_watched_iff (ops : List Polls.Op) {p : Polls}
    (hok : Runs.Meets Polls.step Polls.StepOk Polls.init ops)
    (hrun : Runs.run Polls.step Polls.init ops = some p) (k : Kind) {fd : ℤ} (hfd : 0 < fd) :
    (fd ∈ (p.ev.data (getGfd fd).toNat).set k ↔
        ∃ q ∈ p.ev.io_q, ∃ pd ∈ (p.ev.pollq q).pds, pd.fd = fd ∧ pd.events.has k = true) ∧
      (fd ∈ (p.ev.data (getGfd fd).toNat).set k ↔ 0 < p.ev.getCnt k fd) := by
  obtain ⟨hinv, hw⟩ := Runs.run_invariant (fun h hok hs => Polls.step_watching h hok hs)
    ⟨Polls.init_inv, init_watching⟩ hok hrun
  have hcnt := hw.iff k hfd
  refine ⟨?_, hcnt⟩
  rw [← total_pos, ← Int.natCast_pos, ← hinv.counted.exact k fd hfd]
  exact hcnt

/-- A pass in which each waiting pollq is reported ready, and a registration after it. -/
def readyOps : List Polls.Op :=
  [.register 1 [⟨5, ⟨true, false, false, false⟩, Events.none⟩],
    .register 2 [⟨5, ⟨false, true, false, false⟩, Events.none⟩,
      ⟨300, ⟨true, false, false, false⟩, Events.none⟩],
    .dispatch fun _ => .ready fun _ => {5},
    .register 3 [⟨7, ⟨false, false, true, false⟩, Events.none⟩]]

/-- The run is possible, and the statement holds of the descriptor 7 at its end. -/
theorem run_watched_iff_ready : ∃ p, Runs.run Polls.step Polls.init readyOps = some p ∧
      p.ev.io_q = [2] ∧
      ((7 : ℤ) ∈ (p.ev.data (getGfd 7).toNat).set .excep ↔ ∃ q ∈ p.ev.io_q,
        ∃ pd ∈ (p.ev.pollq q).pds, pd.fd = 7 ∧ pd.events.has .excep = true) :=
  ⟨_, rfl, by decide, (run_watched_iff readyOps (by decide) rfl .excep (by decide)).1⟩

/-- A call waits, and a pass in which `select` reports nothing leaves it waiting. -/
def nothingReadyOps : List Polls.Op :=
  [.register 1 [⟨5, ⟨true, false, false, false⟩, Events.none⟩],
    .dispatch fun _ => .ready fun _ => ∅]

/-- The interest of a pollq that a pass leaves on the queue is lost. -/
theorem run_watched_lost : ∃ p, Runs.run Polls.step Polls.init nothingReadyOps = some p ∧
      (∃ q ∈ p.ev.io_q, ∃ pd ∈ (p.ev.pollq q).pds, pd.fd = 5 ∧ pd.events.has .read = true) ∧
      0 < p.ev.getCnt .read 5 ∧ (5 : ℤ) ∉ (p.ev.data (getGfd 5).toNat).set .read :=
  ⟨_, rfl, by decide, by decide, by decide⟩

end StWin.Ev
