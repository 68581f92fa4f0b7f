import StWin.Sched.CondVar
import StWin.Sched.Driver

/-!
# The waits of `st_poll`

A call of `st_poll` that waits is due after its timeout. For `ST_UTIME_NO_TIMEOUT`, `st_poll` puts its
caller on the sleep queue with a timeout of one microsecond. The wait ends for a reason, a notification
or an interrupt, only as long as no pass of the clock reads a time at which it is due. While no pass
does, the call is followed here from the wait to its return: a thread that a dispatch pass has taken off
the I/O queue finds entries whose `revents` are not zero, and the call returns their number.
-/

namespace StWin.St

/-! ## The clock -/

section clock

variable {s s' : St}

/-- The loop of `_st_vp_check_clock` ends at a root that is not due. -/
theorem checkClockLoop_root (now fuel : ℕ) : ∀ {s s' : St}, checkClockLoop now fuel s = some s' →
    ∀ u, s'.heap.sleep_q = some u → now < (s'.heap.node u).due := by
  induction fuel with
  | zero =>
    intro s s' h
    cases h
  | succ fuel ih =>
    intro s s' h u hu
    rw [checkClockLoop] at h
    split at h
    · next hroot =>
      cases h
      rw [hroot] at hu
      cases hu
    · next t hroot =>
      split_ifs at h with hdue
      · cases h
        rw [hroot, Option.some_inj] at hu
        subst hu
        exact hdue
      · obtain ⟨s₁, -, h⟩ := Option.bind_eq_some_iff.mp h
        exact ih h u hu

/-- After a pass of the clock, whoever is on the sleep queue is not due. -/
theorem step_clock_due {now t : ℕ} (h : s.Inv) (hstep : s.step (.clock now) = some s')
    (hon : (s'.thread t).flags.on_sleepq = true) : now < (s'.heap.node t).due := by
  obtain ⟨S, hw, hS⟩ := (step_inv h (l := .clock now) trivial hstep).good.core.sleep
  obtain ⟨s₁, pc, hs₁, rfl, -⟩ := step_clock_eq hstep
  have hmem := (hS t).mpr hon
  obtain ⟨hempty, hroot⟩ := hw.root
  cases hr : (s₁.setPc pc).heap.sleep_q with
  | none =>
    rw [hempty.mp hr] at hmem
    simp at hmem
  | some u =>
    have hu : now < ((s₁.setPc pc).heap.node u).due := checkClockLoop_root now _ hs₁ u hr
    exact hu.trans_le ((hroot u hr).2 t hmem)

end clock

/-! ## The call -/

section poll

variable {s s' : St} {l : Label} {t q due : ℕ}

/-- `st_poll` returns at once, or begins to wait. -/
theorem poll_begins {pds : List Pollfd} {timeout : ℕ}
    (h0 : ∀ me, s.this_thread = some me → me ≠ s.idle_thread) (h : s.poll pds timeout = some s') :
    (∃ r, (s'.fiber s.running).pc = .user r) ∨
      ∃ me, s.this_thread = some me ∧ (s'.fiber s.running).pc = .poll me s.ev.next ∧
        (s'.thread me).state = .IO_WAIT ∧ (s'.heap.node me).due =
          (s.last_clock + if timeout ≠ ST_UTIME_NO_TIMEOUT then timeout else 1) % utimeMod := by
  cases poll_paths h with
  | outside _ eq => exact Or.inl ⟨.ok 0, by simp [eq, ret, setPc]⟩
  | interrupted me _ _ eq =>
    exact Or.inl ⟨.error .EINTR, by simp [eq, eintr, ret, setPc, setFlags, setThread]⟩
  | waits me s₁ this _ sleeps eq =>
    obtain ⟨heap, hheap, rfl⟩ := Option.map_eq_some_iff.mp sleeps
    generalize hs₂ : (((s.setEv (s.ev.register me pds)).setSleepQ me true heap).setState me
      .IO_WAIT).setPc (.poll me s.ev.next) = s₂ at eq
    have hst : (s₂.thread me).state = .IO_WAIT := by
      rw [← hs₂]
      simp [setPc, setState, setThread]
    have hidle : me ≠ s₂.idle_thread := by
      rw [← hs₂]
      exact h0 me this
    rw [eq]
    refine Or.inr ⟨me, this, ?_, ?_, ?_⟩
    · rw [vpSchedule_fiber, ← hs₂]
      simp [setPc, setState, setThread, setSleepQ, setFlags, setEv]
    · rw [vpSchedule_waiter s₂ hidle (by rw [hst]; decide), hst]
    · rw [vpSchedule_heap, ← hs₂]
      exact (Heap.addSleepQ_due hheap me).trans (if_pos rfl)

/-- The clock reading of a step. -/
def Label.reading : Label → Option ℕ
  | .clock now => some now
  | _ => none

/-- The step is `Ok`, the call that `t` is in has not returned before it, and it does not read a time
past `due` while `t` waits for its descriptors. -/
def Undue (t due : ℕ) (s : St) (l : Label) : Prop :=
  Awaits t s l ∧ ∀ now ∈ l.reading, (s.thread t).state = .IO_WAIT → now < due

instance (t due : ℕ) (s : St) (l : Label) : Decidable (Undue t due s l) :=
  inferInstanceAs (Decidable (_ ∧ _))

/-- The thread `t` is in `st_poll` with the pollq `q`. It waits, due at `due`, or there is a reason for
its wait to have ended. -/
structure Polling (t q due : ℕ) (s : St) : Prop where
  inv : s.Inv
  live : s.Live t
  pc : s.pcOf t = .poll t q
  waits : (s.thread t).state = .IO_WAIT → (s.heap.node t).due = due
  ended : (s.thread t).state ≠ .IO_WAIT → (s.thread t).flags.interrupt = true ∨ s.ev.Found q

/-- What a call of `st_poll` may return: the number of entries that are ready, or an interrupt. -/
def PollResult (r : Res) : Prop := r = .error .EINTR ∨ ∃ n : ℤ, 0 < n ∧ r = .ok n

/-- Nobody is put into `IO_WAIT` by another. -/
theorem Stirs.state_of_ioWait {th : Thread} (h : Stirs s l t th) (hst : th.state = .IO_WAIT) :
    (s.thread t).state = .IO_WAIT := by
  cases h with
  | same => exact hst
  | resumed => cases hst
  | flagged => exact hst
  | interrupted => cases hst
  | signalled => cases hst
  | expired => cases hst
  | notified => cases hst
  | released => cases hst

/-- A thread that waits for its descriptors is taken out of the wait by an interrupt, by the clock
when it is due, or by a dispatch pass. -/
theorem Stirs.of_ioWait {th : Thread} (h : Stirs s l t th) (hst : (s.thread t).state = .IO_WAIT)
    (hst' : th.state ≠ .IO_WAIT) :
    (l = .call (.interrupt t) ∧ th.flags.interrupt = true) ∨
      (∃ now, l = .clock now ∧ (s.heap.node t).due ≤ now) ∨
      ∃ outcomes q, l = .dispatch outcomes ∧ q ∈ (s.ev.dispatch outcomes).2 ∧
        (s.ev.pollq q).thread = t := by
  cases h with
  | same => exact absurd hst hst'
  | resumed state =>
    rw [hst] at state
    cases state
  | flagged _ state =>
    rw [hst] at state
    cases state
  | interrupted label => exact Or.inl ⟨label, rfl⟩
  | signalled _ _ _ state =>
    rw [hst] at state
    cases state
  | expired now label due => exact Or.inr (Or.inl ⟨now, label, due⟩)
  | notified outcomes label q mem thread => exact Or.inr (Or.inr ⟨outcomes, q, label, mem, thread⟩)
  | released _ _ state =>
    rw [hst] at state
    cases state

/-- The pollq that a dispatch pass takes off the queue for `t` is that of the call `t` is in. -/
theorem Core.notified_pollq {outcomes : ℕ → SelectOutcome} {q' : ℕ} (hc : s.Core [])
    (hpc : s.pcOf t = .poll t q) (hmem : q' ∈ (s.ev.dispatch outcomes).2)
    (hthread : (s.ev.pollq q').thread = t) : q' = q := by
  have hio := (Ev.dispatch_counted hc.ev outcomes).1.mem q' hmem
  have heq := ((hc.recs t).io_q q' hio hthread).2
  rw [hpc] at heq
  cases heq
  rfl

/-- The event system after a dispatch pass. -/
theorem step_dispatch_ev {outcomes : ℕ → SelectOutcome} (hstep : s.step (.dispatch outcomes) = some s') :
    s'.ev = (s.ev.dispatch outcomes).1 := by
  have hsame : ∀ {s₁ : St}, s.vpIdle outcomes = some s₁ → s₁.ev = (s.ev.dispatch outcomes).1 :=
    wakeAll_induct (R := fun s s' => s'.ev = s.ev) (fun _ => rfl) (fun h h' => h'.trans h)
      (fun h => (wake_ev h).1) (s.ev.dispatch outcomes).2
  obtain ⟨pc, hpc⟩ : ∃ pc, (s.fiber s.running).pc = pc := ⟨_, rfl⟩
  cases step_goes hpc hstep with
  | idleDispatch _ _ s₁ hgo eq =>
    have hev := hsame hgo
    rw [eq]
    exact hev
  | nativeDispatch _ _ s₁ hgo eq =>
    have hev := hsame hgo
    rw [eq]
    exact hev

/-- The rest of `st_poll`. -/
theorem Polling.result (h : Polling t q due s) (hr : s.Runs t) (hstep : s.step l = some s') :
    ∃ r, s'.Back t r ∧ PollResult r := by
  have hst : (s.thread t).state ≠ .IO_WAIT := by
    rw [hr.state]
    decide
  by_cases hflag : (s.thread t).flags.interrupt = true
  · have hback := hr.interrupted h.inv.good hflag (fun m hm => by rw [h.pc] at hm; cases hm)
      (fun r hc => by rw [h.pc] at hc; cases hc) hstep
    exact ⟨_, hback.1, Or.inl rfl⟩
  · obtain ⟨hoff, pd, hpd, hrev⟩ := (h.ended hst).resolve_left hflag
    have hpc := hr.pc_eq.trans h.pc
    obtain ⟨n, hn⟩ : ∃ n, n = (s.ev.pollq q).pds.countP fun pd => pd.revents ≠ Events.none := ⟨_, rfl⟩
    have hend : s.pollEnd t q = some ((s.setEv (s.ev.unregister q)).ret (.ok n)) := by
      unfold pollEnd interrupted
      refine (if_neg hflag).trans ?_
      rw [hoff, hn]
      rfl
    have ha : Acts s s' t (s.thread t) (.user (.ok n)) := by
      cases step_goes hpc hstep with
      | poll hgo =>
        rw [← Option.some_inj.mp (hend.symm.trans hgo)]
        exact .of_links (Function.update_eq_self t s.thread).symm rfl rfl rfl rfl rfl
    have hpos : 0 < n := by
      rw [hn]
      exact List.countP_pos_iff.mpr ⟨pd, hpd, decide_eq_true hrev⟩
    exact ⟨_, ha.back hr hr.state, Or.inr ⟨n, by exact_mod_cast hpos, rfl⟩⟩

/-- Until the call returns, the thread waits, or has a reason not to. -/
theorem Polling.step (h : Polling t q due s) (hun : Undue t due s l) (hstep : s.step l = some s') :
    Polling t q due s' ∨ ∃ r, s'.Back t r ∧ PollResult r := by
  obtain ⟨⟨hok, hback⟩, hundue⟩ := hun
  have hc := h.inv.good.core
  by_cases hne : (s.thread t).id = s.running
  · exact Or.inr (h.result (h.inv.good.runs_of_live h.live hne) hstep)
  obtain ⟨⟨hstirs, hdue⟩, hl', hpc⟩ := step_other h.inv hok h.live hne hstep
  have hfound : s.ev.Found q → s'.ev.Found q := by
    intro hf
    have hfits := (hc.recs t).pc h.live
    rw [h.pc] at hfits
    obtain ⟨-, -, hlt, -⟩ := hfits
    have hq : q ∉ s.ev.io_q := by
      intro hmem
      have hon := hc.ev.on_ioq q hmem
      rw [hf.off] at hon
      cases hon
    exact hf.congr ((step_kept h.inv hok hstep).pollq q hlt hq).1
  refine Or.inl ⟨step_inv h.inv hok hstep, hl', hpc.trans h.pc, fun hst => ?_, fun hst' => ?_⟩
  · rw [hdue]
    exact h.waits (hstirs.state_of_ioWait hst)
  by_cases hst : (s.thread t).state = .IO_WAIT
  · -- The wait ends now.
    rcases hstirs.of_ioWait hst hst' with ⟨-, hflag⟩ | ⟨now, rfl, hle⟩ | ⟨outcomes, q', rfl, hmem, hthread⟩
    · exact Or.inl hflag
    · rw [h.waits hst] at hle
      exact absurd (hundue now rfl hst) (not_lt.mpr hle)
    · obtain rfl := hc.notified_pollq h.pc hmem hthread
      refine Or.inr ?_
      rw [step_dispatch_ev hstep]
      exact Ev.dispatch_found hc.ev hmem
  · exact (h.ended hst).imp hstirs.interrupt hfound

/-- When a call of `st_poll` that begins now is due. -/
def pollDue (s : St) (timeout : ℕ) : ℕ :=
  (s.last_clock + if timeout ≠ ST_UTIME_NO_TIMEOUT then timeout else 1) % utimeMod

/-- The thread waits as soon as it has made the call. -/
theorem polling_begins {pds : List Pollfd} {timeout : ℕ} (h : s.Inv) (hr : s.Runs t)
    (hstep : s.step (.call (.poll pds timeout)) = some s')
    (hst : (s'.thread t).state = .IO_WAIT) : ∃ q, Polling t q (s.pollDue timeout) s' := by
  have hg := h.good
  have hok : s.Ok (.call (.poll pds timeout)) := by
    intro h0
    have h2 := hr.two_le hg.own
    omega
  have hinv := step_inv h hok hstep
  obtain ⟨r, hcall, hgo⟩ := step_call_user hstep
  have hpc := hr.pc_eq.symm.trans hcall
  obtain ⟨s₁, hs₁, hfine, -⟩ := poll_does hg hr hpc pds timeout
  obtain rfl : s' = s₁ := Option.some_inj.mp (hgo.symm.trans hs₁)
  have hl := (hfine.lives.live t).mpr hr.live
  have hpc' : s'.pcOf t = (s'.fiber s.running).pc := by
    unfold pcOf
    rw [hfine.lives.id, hr.running]
  have h0 : ∀ me, s.this_thread = some me → me ≠ s.idle_thread := by
    intro me hthis
    rw [hr.this, Option.some_inj] at hthis
    subst hthis
    rw [hg.own.idle_thread]
    exact hg.own.live_ne_zero hr.live
  rcases poll_begins h0 hgo with ⟨r', hr'⟩ | ⟨me, hthis, hme, -, hdue⟩
  · -- A thread in code of the program does not wait for descriptors.
    have hfits := (hinv.good.core.recs t).state hl
    rw [hst] at hfits
    obtain ⟨-, q, hq, -⟩ := hfits
    rw [hpc', hr'] at hq
    cases hq
  · rw [hr.this, Option.some_inj] at hthis
    subst hthis
    exact ⟨_, hinv, hl, hpc'.trans hme, fun _ => hdue, fun hc => absurd hst hc⟩

/-! ## The wait ends only for a reason -/

/-- A thread `t` that waits in `st_poll` until `due` at the latest. -/
structure PollSpec (t due : ℕ) (s : St) : Prop where
  /-- A dispatch pass that has found one of its descriptors ready, or an interrupt, ends the wait. -/
  ended : ∀ l s', s.step l = some s' → Undue t due s l → (s.thread t).state = .IO_WAIT →
    (s'.thread t).state ≠ .IO_WAIT → l = .call (.interrupt t) ∨
      ∃ outcomes q, l = .dispatch outcomes ∧ s.pcOf t = .poll t q ∧
        ∃ i < s.ev.num, s.ev.Reported q (outcomes i)
  /-- A pass of the clock ends the wait if and only if it reads a time that is not before `due`. -/
  clock : ∀ now s', s.step (.clock now) = some s' → (s.thread t).state = .IO_WAIT →
    ((s'.thread t).state ≠ .IO_WAIT ↔ due ≤ now)
  result : ∀ r, s.Back t r → PollResult r

/-- What holds while the thread is in `st_poll`, in the terms of the statement. -/
theorem Polling.spec (h : Polling t q due s) : PollSpec t due s := by
  have hc := h.inv.good.core
  have hne : (s.thread t).state = .IO_WAIT → (s.thread t).id ≠ s.running := by
    intro hst heq
    rw [(h.inv.good.runs_of_live h.live heq).state] at hst
    cases hst
  refine ⟨fun l s' hstep hun hst hst' => ?_, fun now s' hstep hst => ?_, fun r hback => ?_⟩
  · obtain ⟨⟨hok, -⟩, hundue⟩ := hun
    have hstirs := (step_stirs h.inv hok h.live (hne hst) hstep).thread
    rcases hstirs.of_ioWait hst hst' with ⟨hlabel, -⟩ | ⟨now, rfl, hle⟩ | ⟨outcomes, q', rfl, hmem, hth⟩
    · exact Or.inl hlabel
    · rw [h.waits hst] at hle
      exact absurd (hundue now rfl hst) (not_lt.mpr hle)
    · obtain rfl := hc.notified_pollq h.pc hmem hth
      exact Or.inr ⟨outcomes, q', rfl, h.pc, Ev.dispatch_reported hc.ev hmem⟩
  · have hok : s.Ok (.clock now) := trivial
    obtain ⟨⟨hstirs, hdue⟩, hl', -⟩ := step_other h.inv hok h.live (hne hst) hstep
    constructor
    · intro hst'
      rcases hstirs.of_ioWait hst hst' with ⟨hlabel, -⟩ | ⟨now', hlabel, hle⟩ | ⟨_, _, hlabel, -⟩
      · cases hlabel
      · cases hlabel
        rw [h.waits hst] at hle
        exact hle
      · cases hlabel
    · intro hle hst'
      have hfits := ((step_inv h.inv hok hstep).good.core.recs t).state hl'
      rw [hst'] at hfits
      have hlt := step_clock_due h.inv hstep hfits.1
      rw [hdue, h.waits hst] at hlt
      exact absurd hle (not_le.mpr hlt)
  · have hpc := hback.2
    rw [h.pc] at hpc
    cases hpc

/-- What holds when `st_poll` has returned, in the terms of the statement. -/
theorem PollResult.spec {r : Res} (hback : s.Back t r) (h : PollResult r) : PollSpec t due s := by
  have hst : (s.thread t).state ≠ .IO_WAIT := by
    rw [hback.1.state]
    decide
  refine ⟨fun _ _ _ _ hc => absurd hc hst, fun _ _ _ hc => absurd hc hst, fun r' hback' => ?_⟩
  have heq := hback.2.symm.trans hback'.2
  cases heq
  exact h

/-- From the call on, as long as no pass of the clock reads a time past `due` while the thread
waits. -/
theorem polling_run {pds : List Pollfd} {timeout : ℕ} {ls : List Label} {s₁ : St} (h : s.Inv)
    (hr : s.Runs t) (hcall : s.step (.call (.poll pds timeout)) = some s₁)
    (hwaits : (s₁.thread t).state = .IO_WAIT) (hrun : Runs.run St.step s₁ ls = some s')
    (hundue : Runs.Meets St.step (Undue t (s.pollDue timeout)) s₁ ls) :
    PollSpec t (s.pollDue timeout) s' := by
  obtain ⟨q, hpoll⟩ := polling_begins h hr hcall hwaits
  have hend : Polling t q (s.pollDue timeout) s' ∨ ∃ r, s'.Back t r ∧ PollResult r := by
    refine Runs.run_invariant (I := fun x => Polling t q (s.pollDue timeout) x ∨
      ∃ r, x.Back t r ∧ PollResult r) (fun {x l x'} hx hun hstep => ?_) (Or.inl hpoll) hundue hrun
    rcases hx with hx | ⟨r, hback, -⟩
    · exact hx.step hun hstep
    · exact absurd hback (hun.1.2 r)
  rcases hend with hend | ⟨r, hback, hres⟩
  · exact hend.spec
  · exact hres.spec hback

end poll

/-- A thread calls `st_poll` with a timeout and waits. The call returns `0` only if a pass of the clock
has read a time past `due` while it waited, and until then the wait ends only for a reason. -/
theorem run_poll_timeout (pagesize : ℤ) (last_clock : ℕ) (ls ls' : List Label) (t : ℕ)
    (pds : List Pollfd) (timeout : ℕ) {s s₁ s₂ : St} (hfinite : timeout ≠ ST_UTIME_NO_TIMEOUT)
    (hrun : Runs.run step (init pagesize last_clock) ls = some s)
    (hok : Runs.Meets step Ok (init pagesize last_clock) ls) (hr : s.Runs t)
    (hcall : s.step (.call (.poll pds timeout)) = some s₁)
    (hwaits : (s₁.thread t).state = .IO_WAIT) (hrun' : Runs.run step s₁ ls' = some s₂)
    (hundue : Runs.Meets step (Undue t ((s.last_clock + timeout) % utimeMod)) s₁ ls') :
    PollSpec t ((s.last_clock + timeout) % utimeMod) s₂ := by
  have hdue : s.pollDue timeout = (s.last_clock + timeout) % utimeMod := by
    rw [pollDue, if_pos hfinite]
  rw [← hdue] at hundue ⊢
  exact polling_run (run_inv hrun hok) hr hcall hwaits hrun' hundue

/-- A thread calls `st_poll` without a timeout and waits. As long as no pass of the clock reads a time
past the next microsecond while it waits, its wait ends only because of a dispatch pass that has found
one of its descriptors ready or because of an interrupt, and the call returns a positive number or
`-1`. -/
theorem run_poll_noTimeout (pagesize : ℤ) (last_clock : ℕ) (ls ls' : List Label) (t : ℕ)
    (pds : List Pollfd) {s s₁ s₂ : St} (hrun : Runs.run step (init pagesize last_clock) ls = some s)
    (hok : Runs.Meets step Ok (init pagesize last_clock) ls) (hr : s.Runs t)
    (hcall : s.step (.call (.poll pds ST_UTIME_NO_TIMEOUT)) = some s₁)
    (hwaits : (s₁.thread t).state = .IO_WAIT) (hrun' : Runs.run step s₁ ls' = some s₂)
    (hundue : Runs.Meets step (Undue t ((s.last_clock + 1) % utimeMod)) s₁ ls') :
    PollSpec t ((s.last_clock + 1) % utimeMod) s₂ := by
  have hdue : s.pollDue ST_UTIME_NO_TIMEOUT = (s.last_clock + 1) % utimeMod := by
    rw [pollDue, if_neg (not_not.mpr rfl)]
  rw [← hdue] at hundue ⊢
  exact polling_run (run_inv hrun hok) hr hcall hwaits hrun' hundue

/-- One thread, about to poll. -/
def pollerReady : St := (Runs.run step (init 4096 0)
  [.call (.create false 0 ⟨true, true, true⟩), .call (.usleep 1)]).get (by decide)

/-- It polls a descriptor for reading, without a timeout. -/
def pollerWaits : St := (pollerReady.step (.call (.poll
  [⟨5, ⟨true, false, false, false⟩, Events.none⟩] ST_UTIME_NO_TIMEOUT))).get (by decide)

/-- A dispatch pass finds the descriptor ready. -/
def findsReady : List Label :=
  [.dispatch fun _ => .ready fun _ => {5}, .clock 0, .resume, .resume]

/-- The run is possible, and the call returns the number of ready entries. -/
theorem run_poll_noTimeout_findsReady :
    ∃ s₂, Runs.run step pollerWaits findsReady = some s₂ ∧
      PollSpec 1 ((pollerReady.last_clock + 1) % utimeMod) s₂ ∧ s₂.Back 1 (.ok 1) := by
  have hrun : Runs.run step (init 4096 0)
      [.call (.create false 0 ⟨true, true, true⟩), .call (.usleep 1)] = some pollerReady := by
    simp [pollerReady]
  have hcall : pollerReady.step (.call (.poll [⟨5, ⟨true, false, false, false⟩, Events.none⟩]
      ST_UTIME_NO_TIMEOUT)) = some pollerWaits := by
    simp [pollerWaits]
  refine ⟨(Runs.run step pollerWaits findsReady).get (by decide), by simp, ?_, by decide⟩
  exact run_poll_noTimeout 4096 0 _ findsReady 1 _ hrun (by decide) (by decide) hcall (by decide)
    (by simp) (by decide)

/-- Nothing is ready, and the clock reads one microsecond. -/
def expires : List Label :=
  [.dispatch fun _ => .ready fun _ => ∅, .clock 1, .resume, .resume]

/-- Then the clock ends the wait, and the call returns `0`. -/
theorem run_poll_noTimeout_expires :
    ∃ s s₁ s₂, Runs.run step (init 4096 0)
        [.call (.create false 0 ⟨true, true, true⟩), .call (.usleep 1)] = some s ∧
      s.step (.call (.poll [⟨5, ⟨true, false, false, false⟩, Events.none⟩] ST_UTIME_NO_TIMEOUT)) =
        some s₁ ∧ (s₁.thread 1).state = .IO_WAIT ∧ Runs.run step s₁ expires = some s₂ ∧
      Runs.Meets step (Awaits 1) s₁ expires ∧ s₂.Back 1 (.ok 0) ∧ ¬PollResult (.ok 0) := by
  refine ⟨pollerReady, pollerWaits, (Runs.run step pollerWaits expires).get (by decide),
    by simp [pollerReady], by simp [pollerWaits], by decide, by simp, by decide, by decide, ?_⟩
  rintro (hc | ⟨n, hn, hc⟩)
  · cases hc
  · cases hc
    exact absurd hn (lt_irrefl 0)

end StWin.St
