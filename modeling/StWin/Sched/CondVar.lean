import StWin.Sched.Calm

/-!
# Condition variables

An observer writes down the waits on one condition variable of the program: who began to wait, which
step took the waiter out of `COND_WAIT`, and what the wait returned. The wait queue follows these
notes. It links the waiters that have not resumed yet in the order in which they began, those that have
been taken out of `COND_WAIT` included, so `_st_cond_signal` has to pass over the latter.

What a wait returns is computed from the flags `TIMEDOUT` and `INTERRUPT` after the switch. The flag
`TIMEDOUT` is set only by the clock, which takes the waiter out of `COND_WAIT`, but an interrupt sets
`INTERRUPT` also for a waiter that has been signalled and has not resumed.
-/

namespace StWin

open St

/-- What took a waiter out of `COND_WAIT`. -/
inductive Ending where
  | signal | clock | interrupt
  deriving DecidableEq, Repr

/-- What a step that takes a waiter out of `COND_WAIT` is. -/
def Ending.ofLabel : Label → Option Ending
  | .call (.condSignal _) => some .signal
  | .call (.condBroadcast _) => some .signal
  | .call (.interrupt _) => some .interrupt
  | .clock _ => some .clock
  | _ => none

/-- A wait on a condition variable. -/
structure Wait where
  thread : ℕ
  /-- What took the thread out of `COND_WAIT`, if something has. -/
  ended : Option Ending
  deriving DecidableEq, Repr

/-- The waits on a condition variable. -/
structure CondLog where
  /-- The waits that have begun and not resumed, in the order in which they began. -/
  pending : List Wait
  /-- The waits that have returned, with what they returned. -/
  done : List (Wait × Res)

/-- Write down whether the step took the waiter out of `COND_WAIT`. -/
def Wait.mark (s : St) (l : Label) (s' : St) (wt : Wait) : Wait :=
  if (s.thread wt.thread).state = .COND_WAIT ∧ (s'.thread wt.thread).state ≠ .COND_WAIT then
    { wt with ended := Ending.ofLabel l }
  else wt

/-- A wait stays that of its thread. -/
@[simp] theorem Wait.mark_thread (s : St) (l : Label) (s' : St) (wt : Wait) :
    (wt.mark s l s').thread = wt.thread := by
  unfold Wait.mark
  split_ifs <;> rfl

/-- A waiter that runs was taken out of `COND_WAIT` before. -/
theorem Wait.mark_of_runs {s : St} {wt : Wait} (hr : s.Runs wt.thread) (l : Label) (s' : St) :
    wt.mark s l s' = wt := by
  rw [Wait.mark, if_neg]
  rintro ⟨hst, -⟩
  rw [hr.state] at hst
  cases hst

namespace St

/-- The thread that begins to wait on the condition variable `n` in a step. -/
def beginsWait (n : ℕ) (s : St) (l : Label) (s' : St) : Option ℕ :=
  match l, (s'.fiber s.running).pc with
  | .call (.condTimedwait m _), .condWait me _ => if m = n then some me else none
  | _, _ => none

/-- The thread whose wait on the condition variable `n` returns in a step, and the result. -/
def endsWait (n : ℕ) (s s' : St) : Option (ℕ × Res) :=
  match (s.fiber s.running).pc, (s'.fiber s.running).pc with
  | .condWait me (.user m), .user r => if m = n then some (me, r) else none
  | _, _ => none

/-- No wait on a user's condition variable ends where none is going on. -/
theorem endsWait_eq_none {n : ℕ} {s : St} (s' : St)
    (h : ∀ me m, (s.fiber s.running).pc ≠ .condWait me (.user m)) : endsWait n s s' = none := by
  unfold endsWait
  split
  · next me m r hpc _ => exact absurd hpc (h me m)
  · rfl

end St

namespace CondLog

/-- The notes after one more step. -/
def track (n : ℕ) (w : CondLog) (s : St) (l : Label) (s' : St) : CondLog :=
  let pending := w.pending.map (Wait.mark s l s')
  match endsWait n s s' with
  | some (me, r) =>
    ⟨pending.filter fun wt => wt.thread ≠ me,
      w.done ++ (pending.filter fun wt => wt.thread = me).map fun wt => (wt, r)⟩
  | none => ⟨pending ++ (beginsWait n s l s').toList.map (⟨·, none⟩), w.done⟩

/-- A step in which no wait begins or ends only marks those that go on. -/
theorem track_still {n : ℕ} {w : CondLog} {s s' : St} {l : Label} (hends : endsWait n s s' = none)
    (hbegins : beginsWait n s l s' = none) :
    w.track n s l s' = ⟨w.pending.map (Wait.mark s l s'), w.done⟩ := by
  rw [track, hends, hbegins]
  simp

/-- The waiters that nothing has taken out of `COND_WAIT`, the longest-waiting first. -/
def live (w : CondLog) : List ℕ := (w.pending.filter fun wt => wt.ended = none).map Wait.thread

end CondLog

namespace St

/-! ## Whom a signal selects -/

/-- The waiters that `_st_cond_signal` selects, among those in `COND_WAIT`. -/
def selected (broadcast : Bool) (q : List ℕ) : List ℕ := if broadcast then q else q.take 1

section signal

variable {s s' : St}

/-- A woken thread joins the end of the run queue. -/
theorem wake_run_q {t : ℕ} (h : s.wake t = some s') : s'.run_q = s.run_q ++ [t] := by
  unfold wake leaveSleepQ at h
  obtain ⟨s₁, hs₁, rfl⟩ := Option.map_eq_some_iff.mp h
  split_ifs at hs₁
  · obtain ⟨heap, -, rfl⟩ := Option.map_eq_some_iff.mp hs₁
    rfl
  · cases hs₁
    rfl

/-- The links that are in `COND_WAIT`. -/
def condWaiters (s : St) (q : List ℕ) : List ℕ := q.filter fun t => (s.thread t).state = .COND_WAIT

/-- Who waits is read off the records of the queue's threads. -/
theorem condWaiters_congr {q : List ℕ} (h : ∀ t ∈ q, s'.thread t = s.thread t) :
    s'.condWaiters q = s.condWaiters q :=
  List.filter_congr fun t ht => by rw [h t ht]

/-- The loop of `_st_cond_signal`: the run queue gets the selected waiters, in the order of the wait
queue, and nobody else's record changes. -/
theorem condSignalLoop_selects (broadcast : Bool) (q : List ℕ) : ∀ {s s' : St}, q.Nodup →
    condSignalLoop broadcast q s = some s' →
      s'.run_q = s.run_q ++ selected broadcast (s.condWaiters q) ∧
      ∀ t, s'.thread t =
        if t ∈ selected broadcast (s.condWaiters q) then (s.thread t).woken else s.thread t := by
  induction q with
  | nil =>
    intro s s' _ h
    cases h
    cases broadcast <;> simp [condWaiters, selected]
  | cons u q ih =>
    intro s s' hnodup h
    obtain ⟨hu, hq⟩ := List.nodup_cons.mp hnodup
    rw [condSignalLoop] at h
    by_cases hst : (s.thread u).state = .COND_WAIT
    · rw [if_pos hst] at h
      obtain ⟨s₁, hs₁, h⟩ := Option.bind_eq_some_iff.mp h
      have hwait : s.condWaiters (u :: q) = u :: s.condWaiters q := by
        simp [condWaiters, hst]
      have hth := fun t => (wake_thread (t := t) hs₁).1
      rw [hwait]
      -- A signal stops at the first waiter, and a broadcast goes on.
      cases broadcast with
      | false =>
        cases h
        refine ⟨wake_run_q hs₁, fun t => ?_⟩
        rw [hth t]
        simp [selected]
      | true =>
        -- Waking `u` leaves the rest of the queue waiting, since no thread is on it twice.
        have hrest : s₁.condWaiters q = s.condWaiters q := by
          refine condWaiters_congr fun t ht => ?_
          rw [hth t, if_neg]
          rintro rfl
          exact hu ht
        obtain ⟨hrun, hsel⟩ := ih hq h
        rw [hrest] at hrun hsel
        refine ⟨?_, fun t => ?_⟩
        · rw [hrun, wake_run_q hs₁, List.append_assoc]
          rfl
        · rw [hsel t, hth t]
          have hu' : u ∉ s.condWaiters q := fun hmem => hu (List.mem_of_mem_filter hmem)
          by_cases ht : t = u
          · subst ht
            simp [selected, hu']
          · simp [selected, ht]
    · -- A thread on the queue that has timed out or was interrupted is passed over.
      rw [if_neg hst] at h
      have hwait : s.condWaiters (u :: q) = s.condWaiters q := by
        simp [condWaiters, hst]
      rw [hwait]
      exact ih hq h

end signal

/-! ## Steps -/

section steps

variable {s s' : St} {l : Label}

/-- A fiber that is past a switch in a waiting call is that of a live thread. -/
theorem Good.waiter (hg : s.Good) {pc : Pc} (hpc : (s.fiber s.running).pc = pc)
    (hwaits : ∃ c, pc.waitsOn c) : ∃ t, s.Runs t := by
  obtain ⟨c, hc⟩ := hwaits
  rcases hg.turn with hmain | ⟨hidle, -⟩ | ⟨u, hlu, hrun, hst, hthis⟩ | ⟨u, -, -, hpc', -, -⟩ |
    ⟨u, hleave, -⟩
  · rw [hmain] at hpc
    rcases hg.own.main_pc with ⟨r, hr⟩ | ⟨stage, hr⟩ <;>
      · rw [← hpc, hr] at hc
        exact hc.elim
  · obtain ⟨stage, hstage⟩ := hg.own.idle_pc
    rw [← hpc, hidle, hstage] at hc
    exact hc.elim
  · exact ⟨u, hlu, hrun, hst, hthis⟩
  · rw [← hpc, hpc'] at hc
    exact hc.elim
  · rw [← hpc, hleave.pc] at hc
    exact hc.elim

/-- From `s` to `s'` the caller `me` has begun to wait on `c`. -/
structure Begins (s s' : St) (me : ℕ) (c : Cond) : Prop where
  this : s.this_thread = some me
  pc : (s'.fiber s.running).pc = .condWait me c
  cond_q : s'.cond_q = Function.update s.cond_q c (s.cond_q c ++ [me])
  state : (s'.thread me).state = .COND_WAIT
  interrupt : (s'.thread me).flags.interrupt = false
  timedout : ∀ t, (s'.thread t).flags.timedout = true → (s.thread t).flags.timedout = true
  ev : s'.ev = s.ev

/-- The record of a thread that waits on a condition variable, before the switch: on the sleep queue or
not. -/
theorem condBlock_links {me timeout : ℕ} {c : Cond} {pc : Pc}
    (h : s.condBlock me c timeout pc = some s') :
    ∃ (s₁ : St) (on : Bool), s' = (s₁.setPc pc).vpSchedule ∧
      s₁.thread = Function.update s.thread me
        { s.thread me with state := .COND_WAIT, flags := { (s.thread me).flags with on_sleepq := on } } ∧
      s₁.cond_q = Function.update s.cond_q c (s.cond_q c ++ [me]) ∧ s₁.ev = s.ev ∧
      s₁.running = s.running ∧ s₁.idle_thread = s.idle_thread := by
  obtain ⟨s₁, rfl, ⟨-, hs₁⟩ | ⟨-, rfl⟩⟩ := condBlock_paths h
  · obtain ⟨heap, -, rfl⟩ := Option.map_eq_some_iff.mp hs₁
    refine ⟨_, true, rfl, ?_, rfl, rfl, rfl, rfl⟩
    simp [linkCond, setSleepQ, setFlags, setState, setThread, setCondQ]
  · exact ⟨_, (s.thread me).flags.on_sleepq, rfl, rfl, rfl, rfl, rfl, rfl⟩

/-- `st_cond_timedwait` returns at once, or begins to wait. -/
theorem condTimedwait_begins {c : Cond} {timeout : ℕ}
    (h0 : ∀ me, s.this_thread = some me → me ≠ s.idle_thread)
    (h : s.condTimedwait c timeout = some s') :
    (Calm s s' ∧ ∃ r, (s'.fiber s.running).pc = .user r) ∨ ∃ me, Begins s s' me c := by
  cases condTimedwait_paths h with
  | outside _ eq => exact Or.inl ⟨eq ▸ .of_eq rfl rfl rfl, .ok 0, by simp [eq, ret, setPc]⟩
  | interrupted me _ _ eq =>
    exact Or.inl ⟨eq ▸ s.eintr_calm me, .error .EINTR, by simp [eq, eintr, ret, setPc, setFlags, setThread]⟩
  | waits me this flag blocks =>
    obtain ⟨s₁, on, rfl, hth, hq, hev, hrunning, hidle⟩ := condBlock_links blocks
    have hcalm := (s₁.setPc (.condWait me c)).vpSchedule_calm
    have hme : (s₁.setPc (.condWait me c)).vpSchedule.thread me = s₁.thread me := by
      refine vpSchedule_waiter _ ((h0 me this).trans_eq hidle.symm) ?_
      change (s₁.thread me).state ≠ .RUNNABLE
      simp [hth]
    refine Or.inr ⟨me, this, ?_, ?_, ?_, ?_, fun t ht => ?_, ?_⟩
    · rw [vpSchedule_fiber]
      simp [setPc, hrunning]
    · rw [vpSchedule_cond_q]
      exact hq
    · rw [hme, hth, Function.update_self]
    · rw [hme, hth, Function.update_self]
      exact flag
    · have ht₁ : (s₁.thread t).flags.timedout = true := hcalm.timedout t ht
      by_cases htm : t = me
      · subst htm
        rw [hth, Function.update_self] at ht₁
        exact ht₁
      · rw [hth, Function.update_of_ne htm] at ht₁
        exact ht₁
    · rw [vpSchedule_ev]
      exact hev

/-- What a step does to the condition variables of the program. -/
inductive CondMove (s : St) (l : Label) (s' : St) : Prop where
  | begins (n me timeout : ℕ) (runs : s.Runs me) (user : ∃ r, s.pcOf me = .user r)
      (label : l = .call (.condTimedwait n timeout)) (begins : Begins s s' me (.user n))
  | ends (n me : ℕ) (runs : s.Runs me) (pc : s.pcOf me = .condWait me (.user n))
      (label : l = .resume)
      (eq : s' = (s.condUnblock me (.user n)).1.ret (s.condUnblock me (.user n)).2)
  | calm (calm : Calm s s') (pc : ∀ me n, (s.fiber s.running).pc ≠ .condWait me (.user n))
      (back : ∀ n timeout, l = .call (.condTimedwait n timeout) →
        ∃ r, (s'.fiber s.running).pc = .user r)
  | clock (now : ℕ) (label : l = .clock now)
      (pc : ∀ me n, (s.fiber s.running).pc ≠ .condWait me (.user n))
      (cond_q : s'.cond_q = s.cond_q)

/-- Each step is one of the moves that concern condition variables. -/
theorem step_condMove (h : s.Inv) (hok : s.Ok l) (hstep : s.step l = some s') : CondMove s l s' := by
  have hg := h.good
  by_cases hpc : ∃ me n, (s.fiber s.running).pc = .condWait me (.user n)
  · obtain ⟨me, n, hpc⟩ := hpc
    obtain ⟨t, hr⟩ := hg.waiter hpc ⟨.user n, rfl⟩
    have hfits := (hg.core.recs t).pc hr.live
    rw [← hr.pc_eq, hpc] at hfits
    obtain rfl : me = t := hfits
    cases step_goes hpc hstep with
    | condWait hgo => exact .ends n me hr (hr.pc_eq.symm.trans hpc) rfl hgo
  push Not at hpc
  by_cases hcall : ∃ n timeout, l = .call (.condTimedwait n timeout)
  · obtain ⟨n, timeout, rfl⟩ := hcall
    obtain ⟨r, hr, hgo⟩ := step_call_user hstep
    -- `main` does not wait, and a thread is not the idle thread.
    have h0 : ∀ me, s.this_thread = some me → me ≠ s.idle_thread ∧ s.Runs me := by
      intro me hthis
      rcases hg.caller hr with hmain | ⟨t, hrt⟩
      · rw [show s.this_thread = none from hok hmain] at hthis
        cases hthis
      · rw [hrt.this, Option.some_inj] at hthis
        subst hthis
        rw [hg.own.idle_thread]
        exact ⟨hg.own.live_ne_zero hrt.live, hrt⟩
    rcases condTimedwait_begins (fun me hme => (h0 me hme).1) hgo with ⟨hcalm, hback⟩ | ⟨me, hbegins⟩
    · exact .calm hcalm hpc fun _ _ _ => hback
    · have hrt := (h0 me hbegins.this).2
      exact .begins n me timeout hrt ⟨r, hrt.pc_eq.symm.trans hr⟩ rfl hbegins
  push Not at hcall
  by_cases hclock : ∃ now, l = .clock now
  · obtain ⟨now, rfl⟩ := hclock
    exact .clock now rfl hpc (step_clock_cond_q hstep)
  push Not at hclock
  exact .calm (step_calm h.linked hg.core.ev hstep hclock hcall hpc) hpc fun n timeout heq =>
    absurd heq (hcall n timeout)

/-- Pollqs that are off the I/O queue stay off it, as they are. -/
theorem step_kept (h : s.Inv) (hok : s.Ok l) (hstep : s.step l = some s') : Ev.Kept s.ev s'.ev := by
  cases step_condMove h hok hstep with
  | begins _ _ _ _ _ _ begins =>
    rw [begins.ev]
    exact .refl s.ev
  | ends _ _ _ _ _ eq =>
    rw [eq]
    exact .refl s.ev
  | calm calm => exact calm.ev
  | clock now label =>
    subst label
    obtain ⟨s₁, pc, hs₁, rfl, -⟩ := step_clock_eq hstep
    obtain ⟨s₂, w, hs₂, -, hw⟩ := vpCheckClock_core h.good.core now
    rw [hs₁, Option.some_inj] at hs₂
    rw [← hs₂] at hw
    have hev : (s₁.setPc pc).ev = s.ev := hw.ev
    rw [hev]
    exact .refl s.ev

/-- Only threads that wait on a condition variable have timed out. -/
def TimedoutWaits (s : St) : Prop :=
  ∀ t, (s.thread t).flags.timedout = true → s.Live t ∧ ∃ c, (s.pcOf t).waitsOn c

/-- The end of a wait in `st_thread_join` clears the flag, too. -/
theorem joinEnd_timedout {me k u : ℕ} (h : s.joinEnd me (.term k) u = some s') :
    (s'.thread me).flags.timedout = false := by
  have hclear : ((s.condUnblock me (.term k)).1.thread me).flags.timedout = false := by
    simp [condUnblock, setFlags, setThread, setCondQ]
  have hcalm : Calm (s.condUnblock me (.term k)).1 s' := by
    rcases joinEnd_paths h with ⟨e, rfl⟩ | h
    · exact .of_eq rfl rfl rfl
    · exact joinLoop_calm h
  rw [Bool.eq_false_iff] at hclear ⊢
  exact fun ht => hclear (hcalm.timedout me ht)

/-- A pass of the clock times out threads that wait on a condition variable. -/
theorem step_clock_timedout {now t : ℕ} (hc : s.Core []) (hstep : s.step (.clock now) = some s')
    (ht : (s'.thread t).flags.timedout = true) : (s.thread t).flags.timedout = true ∨
      (s.Live t ∧ (s.thread t).state = .COND_WAIT) := by
  obtain ⟨s₁, pc, hs₁, rfl, -⟩ := step_clock_eq hstep
  have ht : (s₁.thread t).flags.timedout = true := ht
  obtain ⟨s₂, w, hs₂, -, hw⟩ := vpCheckClock_core hc now
  rw [hs₁, Option.some_inj] at hs₂
  subst hs₂
  by_cases hmem : t ∈ w
  · have hlive := (hw.state t hmem).1
    rcases (checkClockLoop_thread (t := t) now _ hs₁).1 with heq | ⟨-, heq⟩
    · rw [heq] at ht
      exact Or.inl ht
    · by_cases hst : (s.thread t).state = .COND_WAIT
      · exact Or.inr ⟨hlive, hst⟩
      · rw [heq] at ht
        simp only [Thread.timedOut, if_neg hst] at ht
        exact Or.inl ht
  · rw [hw.same t hmem] at ht
    exact Or.inl ht

/-- No step sets `timedout` for a thread that waits on nothing. -/
theorem step_timedoutWaits (h : s.Inv) (hwaits : s.TimedoutWaits) (hok : s.Ok l)
    (hstep : s.step l = some s') : s'.TimedoutWaits := by
  have hg := h.good
  intro t ht
  -- A thread that timed out before, and does not run, still waits.
  have hother : s.Live t → (∃ c, (s.pcOf t).waitsOn c) → (s.thread t).id ≠ s.running →
      s'.Live t ∧ ∃ c, (s'.pcOf t).waitsOn c := by
    intro hl hpc hne
    obtain ⟨hl', hpc'⟩ := (h.change hok hstep).other hg hl hne
    rw [hpc']
    exact ⟨hl', hpc⟩
  have hold : (s.thread t).flags.timedout = true → (s.thread t).id ≠ s.running →
      s'.Live t ∧ ∃ c, (s'.pcOf t).waitsOn c :=
    fun hto => hother (hwaits t hto).1 (hwaits t hto).2
  cases step_condMove h hok hstep with
  | begins n me timeout runs user label begins =>
    have hto := begins.timedout t ht
    refine hold hto fun heq => ?_
    obtain rfl := runs.live.inj (hwaits t hto).1 (heq.trans runs.running)
    obtain ⟨c, hc⟩ := (hwaits _ hto).2
    obtain ⟨r, hr⟩ := user
    rw [hr] at hc
    exact hc.elim
  | ends n me runs pc label eq =>
    by_cases htm : t = me
    · subst htm eq
      simp [condUnblock, setFlags, setThread, setCondQ, ret, setPc] at ht
    · rw [eq] at ht
      have hto : (s.thread t).flags.timedout = true := by
        have hth : ((s.condUnblock me (.user n)).1.ret (s.condUnblock me (.user n)).2).thread t =
            s.thread t := Function.update_of_ne htm _ _
        rw [hth] at ht
        exact ht
      exact hold hto (runs.ne_running t htm (hwaits t hto).1)
  | calm calm pc back =>
    have hto := calm.timedout t ht
    refine hold hto fun heq => ?_
    -- Whoever resumes from a wait clears the flag.
    obtain ⟨hl, c, hc⟩ := hwaits t hto
    have hr := hg.runs_of_live hl heq
    cases hp : s.pcOf t with
    | condWait me c' =>
      cases c' with
      | user n => exact pc me n (hr.pc_eq.trans hp)
      | term n => exact h.linked.wait _ me n (hr.pc_eq.trans hp)
    | join me c' u =>
      have hpc := hr.pc_eq.trans hp
      have hfits := (hg.core.recs t).pc hl
      rw [hp] at hfits
      obtain ⟨rfl, -⟩ := hfits
      obtain ⟨⟨k, -, rfl⟩, -⟩ := h.linked.join _ _ _ _ hpc
      cases step_goes hpc hstep with
      | join hgo =>
        rw [joinEnd_timedout hgo] at ht
        cases ht
    | _ =>
      rw [hp] at hc
      exact hc.elim
  | clock now label pc cond_q =>
    subst label
    have hne : ∀ {t}, s.Live t → (∃ c, (s.pcOf t).waitsOn c) → (s.thread t).id ≠ s.running := by
      intro t hl hex heq
      obtain ⟨c, hc⟩ := hex
      rw [← (hg.runs_of_live hl heq).pc_eq] at hc
      obtain ⟨-, -, -, -, hnot⟩ := step_clock_eq hstep
      exact hnot c hc
    rcases step_clock_timedout hg.core hstep ht with hto | ⟨hl, hst⟩
    · exact hold hto (hne (hwaits t hto).1 (hwaits t hto).2)
    · have hfits := (hg.core.recs t).state hl
      rw [hst] at hfits
      exact hother hl hfits (hne hl hfits)

end steps

/-! ## The notes and the state -/

/-- A thread that waits on a condition variable is in `COND_WAIT`, or has been taken out of it. -/
theorem Core.waiter_state {s : St} {t : ℕ} {c : Cond} (hc : s.Core []) (hl : s.Live t)
    (hwaits : (s.pcOf t).waitsOn c) : (s.thread t).state = .COND_WAIT ∨
      (s.thread t).state = .RUNNABLE ∨ (s.thread t).state = .RUNNING := by
  have hfits := (hc.recs t).state hl
  cases hst : (s.thread t).state with
  | COND_WAIT => exact Or.inl rfl
  | RUNNABLE => exact Or.inr (Or.inl rfl)
  | RUNNING => exact Or.inr (Or.inr rfl)
  | IO_WAIT =>
    rw [hst] at hfits
    obtain ⟨-, q, hq, -⟩ := hfits
    rw [hq] at hwaits
    exact hwaits.elim
  | LOCK_WAIT =>
    rw [hst] at hfits
    obtain ⟨m, hm⟩ := hfits
    cases hp : s.pcOf t <;> rw [hp] at hwaits hm <;> first | exact hwaits.elim | exact hm.elim
  | SLEEPING =>
    rw [hst] at hfits
    obtain ⟨-, r, hr⟩ := hfits
    rw [hr] at hwaits
    exact hwaits.elim
  | SUSPENDED =>
    rw [hst] at hfits
    obtain ⟨r, hr⟩ := hfits
    rw [hr] at hwaits
    exact hwaits.elim
  | ZOMBIE =>
    rw [hst] at hfits
    exact hfits.elim

/-- A thread on the wait queue of a condition variable of the program is in `st_cond_timedwait`. -/
theorem Inv.waiter_pc {s : St} {t n : ℕ} (h : s.Inv) (hmem : t ∈ s.cond_q (.user n)) :
    s.Live t ∧ s.pcOf t = .condWait t (.user n) := by
  obtain ⟨hl, hwaits⟩ := ((h.good.core.recs t).cond_q _).mp hmem
  refine ⟨hl, ?_⟩
  have hfits := (h.good.core.recs t).pc hl
  cases hp : s.pcOf t with
  | condWait me c =>
    rw [hp] at hwaits hfits
    obtain rfl : c = .user n := hwaits
    obtain rfl : me = t := hfits
    rfl
  | join me c u =>
    obtain ⟨⟨k, -, rfl⟩, -⟩ := h.linked.join _ _ _ _ hp
    rw [hp] at hwaits
    cases hwaits
  | _ =>
    rw [hp] at hwaits
    exact hwaits.elim

end St

/-- The flags of a waiter fit what took it out of `COND_WAIT`. -/
def Wait.Fits (wt : Wait) (fl : Flags) : Prop :=
  match wt.ended with
  | none => fl.timedout = false ∧ fl.interrupt = false
  | some .signal => fl.timedout = false
  | some .clock => fl.timedout = true
  | some .interrupt => fl.timedout = false ∧ fl.interrupt = true

/-- A wait that is noted as it is. -/
structure Wait.Noted (s : St) (wt : Wait) : Prop where
  live : wt.ended = none ↔ (s.thread wt.thread).state = .COND_WAIT
  flags : wt.Fits (s.thread wt.thread).flags

/-- What the result of a wait says about its end. -/
structure Wait.Returned (wt : Wait) (r : Res) : Prop where
  ended : wt.ended ≠ none
  ok : r = .ok 0 → wt.ended = some .signal
  etime : r = .error .ETIME → wt.ended = some .clock

/-- What a wait returns, from the notes. -/
theorem Wait.Noted.returned {s : St} {wt : Wait} (h : wt.Noted s)
    (hst : (s.thread wt.thread).state = .RUNNING) (c : Cond) : wt.Returned (s.condUnblock wt.thread c).2 := by
  obtain ⟨t, ended⟩ := wt
  obtain ⟨hlive, hflags⟩ := h
  dsimp only at hlive hflags hst
  have hres : (s.condUnblock t c).2 = if (s.thread t).flags.interrupt then .error .EINTR else
      if (s.thread t).flags.timedout then .error .ETIME else .ok 0 := rfl
  cases ended with
  | none =>
    rw [hst] at hlive
    simp at hlive
  | some e =>
    rw [hres]
    cases e with
    | signal =>
      rw [show (s.thread t).flags.timedout = false from hflags]
      refine ⟨by simp, fun _ => rfl, fun het => ?_⟩
      split_ifs at het with hint hto
      · cases het
      · cases hto
    | clock =>
      rw [show (s.thread t).flags.timedout = true from hflags]
      refine ⟨by simp, fun hok => ?_, fun _ => rfl⟩
      split_ifs at hok with hint hto
      exact absurd rfl hto
    | interrupt =>
      rw [if_pos hflags.2]
      refine ⟨by simp, fun hok => ?_, fun het => ?_⟩
      · cases hok
      · cases het

section mark

variable {s s' : St} {l : Label} {wt : Wait}

/-- The step leaves the thread in its state. -/
theorem Wait.Noted.stays (h : wt.Noted s)
    (hst : (s'.thread wt.thread).state = (s.thread wt.thread).state)
    (hfl : (s'.thread wt.thread).flags = (s.thread wt.thread).flags) : (wt.mark s l s').Noted s' := by
  rw [Wait.mark, if_neg (by rw [hst]; exact fun hc => hc.2 hc.1)]
  refine ⟨by rw [h.live, hst], ?_⟩
  rw [hfl]
  exact h.flags

/-- The step takes the thread out of `COND_WAIT`. -/
theorem Wait.Noted.leaves {e : Ending} (hst : (s.thread wt.thread).state = .COND_WAIT)
    (hst' : (s'.thread wt.thread).state = .RUNNABLE) (he : Ending.ofLabel l = some e)
    (hfits : (Wait.mk wt.thread (some e)).Fits (s'.thread wt.thread).flags) :
    (wt.mark s l s').Noted s' := by
  rw [Wait.mark, if_pos ⟨hst, by rw [hst']; decide⟩, he]
  exact ⟨by rw [hst']; simp, hfits⟩

/-- A thread that is runnable already gets the turn, or the flag of an interrupt. -/
theorem Wait.Noted.runnable (h : wt.Noted s) (hst : (s.thread wt.thread).state = .RUNNABLE)
    (hst' : (s'.thread wt.thread).state ≠ .COND_WAIT)
    (hto : (s'.thread wt.thread).flags.timedout = (s.thread wt.thread).flags.timedout)
    (hint : (s.thread wt.thread).flags.interrupt = true →
      (s'.thread wt.thread).flags.interrupt = true) : (wt.mark s l s').Noted s' := by
  obtain ⟨t, ended⟩ := wt
  obtain ⟨hlive, hflags⟩ := h
  dsimp only at hlive hflags hst hst' hto hint
  rw [Wait.mark, if_neg (by rw [hst]; exact fun hc => by cases hc.1)]
  have hended : ended ≠ none := by
    rw [Ne, hlive, hst]
    decide
  refine ⟨iff_of_false hended hst', ?_⟩
  cases ended with
  | none => exact absurd rfl hended
  | some e =>
    cases e with
    | signal => exact hto.trans hflags
    | clock => exact hto.trans hflags
    | interrupt => exact ⟨hto.trans hflags.1, hint hflags.2⟩

/-- Nothing has taken the thread out of `COND_WAIT` yet. -/
theorem Wait.Noted.unflagged (h : wt.Noted s) (hst : (s.thread wt.thread).state = .COND_WAIT) :
    (s.thread wt.thread).flags.timedout = false ∧ (s.thread wt.thread).flags.interrupt = false := by
  have hflags := h.flags
  unfold Wait.Fits at hflags
  rw [h.live.mpr hst] at hflags
  exact hflags

end mark

namespace St

section notes

variable {s s' : St} {l : Label} {n : ℕ}

/-- The notes of a wait are kept by the steps that other fibers take. -/
theorem Inv.mark_noted (h : s.Inv) (hok : s.Ok l) (hstep : s.step l = some s') {wt : Wait}
    (hmem : wt.thread ∈ s.cond_q (.user n)) (hne : (s.thread wt.thread).id ≠ s.running)
    (hnoted : wt.Noted s) : (wt.mark s l s').Noted s' := by
  obtain ⟨hl, hpc⟩ := h.waiter_pc hmem
  obtain ⟨hrunning, -⟩ := h.good.core.waits hl hne
  -- A waiter is on the queue until it resumes, also when its wait has ended.
  have hwas : (s.thread wt.thread).state = .COND_WAIT ∨ (s.thread wt.thread).state = .RUNNABLE := by
    rcases h.good.core.waiter_state (c := .user n) hl (by rw [hpc]; rfl) with hst | hst | hst
    · exact Or.inl hst
    · exact Or.inr hst
    · exact absurd hst hrunning
  -- What the step may have done to the waiter's record.
  have hstirs := (step_stirs h hok hl hne hstep).thread
  generalize hth : s'.thread wt.thread = th at hstirs
  cases hstirs with
  | same => exact hnoted.stays (by rw [hth]) (by rw [hth])
  | resumed state =>
    exact hnoted.runnable state (by rw [hth]; exact fun hc => by cases hc) (by rw [hth]) (by rw [hth]; exact id)
  -- Only a runnable thread is flagged and not woken.
  | flagged label state =>
    have hst : (s.thread wt.thread).flagged.state = .RUNNABLE := state
    refine hnoted.runnable state ?_ (by rw [hth]; rfl) fun _ => by rw [hth]; rfl
    rw [hth, hst]
    decide
  | interrupted label state =>
    have hst := hwas.resolve_right state
    have hfits : (Wait.mk wt.thread (some .interrupt)).Fits (s.thread wt.thread).flagged.woken.flags :=
      ⟨(hnoted.unflagged hst).1, rfl⟩
    exact .leaves hst (by rw [hth]; rfl) (by rw [label]; rfl) (by rw [hth]; exact hfits)
  | signalled m label mem state =>
    have hfits : (Wait.mk wt.thread (some .signal)).Fits (s.thread wt.thread).woken.flags :=
      (hnoted.unflagged state).1
    refine .leaves state (by rw [hth]; rfl) ?_ (by rw [hth]; exact hfits)
    rcases label with rfl | rfl <;> rfl
  -- A thread that is runnable already is not in the heap any more.
  | expired now label due state =>
    rcases hwas with hst | hst
    · have hfits : (Wait.mk wt.thread (some .clock)).Fits (s.thread wt.thread).timedOut.woken.flags := by
        simp [Wait.Fits, Thread.timedOut, Thread.woken, hst]
      exact .leaves hst (by rw [hth]; rfl) (by rw [label]; rfl) (by rw [hth]; exact hfits)
    · rw [hst] at state
      simp at state
  -- These wake threads that wait for something else.
  | notified outcomes label q mem thread state =>
    rw [state] at hwas
    simp at hwas
  | released m label state =>
    rw [state] at hwas
    simp at hwas

end notes

/-- The notes after a step, from those before it. -/
inductive Tracks (n : ℕ) (s : St) (l : Label) (s' : St) (w : CondLog) : CondLog → Prop where
  /-- Nobody begins to wait, and nobody's wait returns. -/
  | still (queue : s'.cond_q (.user n) = s.cond_q (.user n))
      (ne : ∀ t ∈ s.cond_q (.user n), (s.thread t).id ≠ s.running) :
      Tracks n s l s' w ⟨w.pending.map (Wait.mark s l s'), w.done⟩
  | begins (me : ℕ) (runs : s.Runs me) (user : ∃ r, s.pcOf me = .user r)
      (begins : Begins s s' me (.user n)) :
      Tracks n s l s' w ⟨w.pending.map (Wait.mark s l s') ++ [⟨me, none⟩], w.done⟩
  | ends (me : ℕ) (runs : s.Runs me)
      (eq : s' = (s.condUnblock me (.user n)).1.ret (s.condUnblock me (.user n)).2) :
      Tracks n s l s' w ⟨(w.pending.map (Wait.mark s l s')).filter fun wt => wt.thread ≠ me,
        w.done ++ ((w.pending.map (Wait.mark s l s')).filter fun wt => wt.thread = me).map
          fun wt => (wt, (s.condUnblock me (.user n)).2)⟩

/-- The state and the notes on the condition variable `n`. -/
structure CondInv (n : ℕ) (s : St) (w : CondLog) : Prop where
  inv : s.Inv
  timedout : s.TimedoutWaits
  queue : s.cond_q (.user n) = w.pending.map Wait.thread
  noted : ∀ wt ∈ w.pending, wt.Noted s
  done : ∀ d ∈ w.done, d.1.Returned d.2

namespace CondInv

variable {s s' : St} {l : Label} {n : ℕ} {w : CondLog} (h : CondInv n s w) (hok : s.Ok l)
  (hstep : s.step l = some s')
include h

/-- A thread whose wait goes on is on the queue. -/
theorem mem_queue {wt : Wait} (hmem : wt ∈ w.pending) : wt.thread ∈ s.cond_q (.user n) := by
  rw [h.queue]
  exact List.mem_map_of_mem hmem

/-- A thread waits once. -/
theorem nodup : (w.pending.map Wait.thread).Nodup := by
  rw [← h.queue]
  exact h.inv.good.core.cond_nodup _

include hok hstep

/-- A step of another fiber that leaves the wait queue as it is. -/
theorem still (hq : s'.cond_q (.user n) = s.cond_q (.user n))
    (hne : ∀ t ∈ s.cond_q (.user n), (s.thread t).id ≠ s.running) :
    CondInv n s' ⟨w.pending.map (Wait.mark s l s'), w.done⟩ where
  inv := step_inv h.inv hok hstep
  timedout := step_timedoutWaits h.inv h.timedout hok hstep
  queue := by
    rw [hq, h.queue, List.map_map]
    exact List.map_congr_left fun wt _ => (wt.mark_thread s l s').symm
  noted wt hmem := by
    obtain ⟨wt, hpend, rfl⟩ := List.mem_map.mp hmem
    have hq := h.mem_queue hpend
    exact h.inv.mark_noted hok hstep hq (hne _ hq) (h.noted wt hpend)
  done := h.done

/-- The thread `me` begins to wait. -/
theorem begins {me : ℕ} (hr : s.Runs me) (huser : ∃ r, s.pcOf me = .user r)
    (hb : Begins s s' me (.user n)) :
    CondInv n s' ⟨w.pending.map (Wait.mark s l s') ++ [⟨me, none⟩], w.done⟩ where
  inv := step_inv h.inv hok hstep
  timedout := step_timedoutWaits h.inv h.timedout hok hstep
  queue := by
    rw [hb.cond_q, Function.update_self, h.queue, List.map_append, List.map_map]
    refine congrArg (· ++ [me]) ?_
    exact List.map_congr_left fun wt _ => (wt.mark_thread s l s').symm
  noted wt hmem := by
    obtain ⟨r, hpc⟩ := huser
    rcases List.mem_append.mp hmem with hmem | hmem
    · obtain ⟨wt, hpend, rfl⟩ := List.mem_map.mp hmem
      obtain ⟨hl, hwaits⟩ := h.inv.waiter_pc (h.mem_queue hpend)
      refine h.inv.mark_noted hok hstep (h.mem_queue hpend) (hr.ne_running _ ?_ hl) (h.noted wt hpend)
      rintro rfl
      rw [hpc] at hwaits
      cases hwaits
    · obtain rfl := List.mem_singleton.mp hmem
      refine ⟨iff_of_true rfl hb.state, ?_, hb.interrupt⟩
      -- Whoever is in code of the program has not timed out.
      rw [Bool.eq_false_iff]
      intro hto
      obtain ⟨-, c, hc⟩ := h.timedout me (hb.timedout me hto)
      rw [hpc] at hc
      exact hc
  done := h.done

/-- The wait of the thread `me` returns. -/
theorem ends {me : ℕ} (hr : s.Runs me)
    (heq : s' = (s.condUnblock me (.user n)).1.ret (s.condUnblock me (.user n)).2) :
    CondInv n s' ⟨(w.pending.map (Wait.mark s l s')).filter fun wt => wt.thread ≠ me,
      w.done ++ ((w.pending.map (Wait.mark s l s')).filter fun wt => wt.thread = me).map
        fun wt => (wt, (s.condUnblock me (.user n)).2)⟩ where
  inv := step_inv h.inv hok hstep
  timedout := step_timedoutWaits h.inv h.timedout hok hstep
  queue := by
    have hq : s'.cond_q (.user n) = (s.cond_q (.user n)).erase me := by
      rw [heq]
      exact Function.update_self _ _ _
    have hmap : (w.pending.map (Wait.mark s l s')).map Wait.thread = w.pending.map Wait.thread := by
      rw [List.map_map]
      exact List.map_congr_left fun wt _ => wt.mark_thread s l s'
    rw [hq, h.queue, h.nodup.erase_eq_filter, ← hmap, List.filter_map]
    refine congrArg (List.map Wait.thread) (List.filter_congr fun wt _ => ?_)
    by_cases hwt : wt.thread = me <;> simp [hwt]
  noted wt hmem := by
    obtain ⟨hmem, hwt⟩ := List.mem_filter.mp hmem
    obtain ⟨wt, hpend, rfl⟩ := List.mem_map.mp hmem
    have hwt : wt.thread ≠ me := by simpa using hwt
    obtain ⟨hl, -⟩ := h.inv.waiter_pc (h.mem_queue hpend)
    exact h.inv.mark_noted hok hstep (h.mem_queue hpend) (hr.ne_running _ hwt hl) (h.noted wt hpend)
  done d hmem := by
    rcases List.mem_append.mp hmem with hmem | hmem
    · exact h.done d hmem
    · obtain ⟨wt', hfilter, rfl⟩ := List.mem_map.mp hmem
      obtain ⟨hmark, hwt⟩ := List.mem_filter.mp hfilter
      obtain ⟨wt, hpend, rfl⟩ := List.mem_map.mp hmark
      have hwt : wt.thread = me := by simpa using hwt
      subst hwt
      rw [Wait.mark_of_runs hr]
      exact (h.noted wt hpend).returned hr.state _

/-- What a step adds to the notes. -/
theorem tracks : Tracks n s l s' w (w.track n s l s') := by
  -- Unless `me` runs, nobody whose wait could return does.
  have hne : (∀ me, (s.fiber s.running).pc ≠ .condWait me (.user n)) →
      ∀ t ∈ s.cond_q (.user n), (s.thread t).id ≠ s.running := by
    intro hpc t hmem heq
    obtain ⟨hl, hwaits⟩ := h.inv.waiter_pc hmem
    exact hpc t ((h.inv.good.runs_of_live hl heq).pc_eq.trans hwaits)
  cases step_condMove h.inv hok hstep with
  | begins m me timeout runs user label hb =>
    obtain ⟨r, hr⟩ := user
    have hpc := runs.pc_eq.trans hr
    have hends : endsWait n s s' = none := by
      unfold endsWait
      rw [hpc]
    by_cases hm : m = n
    · subst hm
      have hbegins : beginsWait m s l s' = some me := by
        unfold beginsWait
        rw [label, hb.pc]
        exact if_pos rfl
      rw [CondLog.track, hends, hbegins]
      exact .begins me runs ⟨r, hr⟩ hb
    · have hbegins : beginsWait n s l s' = none := by
        unfold beginsWait
        rw [label, hb.pc]
        exact if_neg hm
      have hq : s'.cond_q (.user n) = s.cond_q (.user n) := by
        rw [hb.cond_q]
        exact Function.update_of_ne (by simpa using Ne.symm hm) _ _
      rw [CondLog.track_still hends hbegins]
      exact .still hq (hne fun me' hc => by rw [hpc] at hc; cases hc)
  | ends m me runs pc label heq =>
    have hpc := runs.pc_eq.trans pc
    have hpc' : (s'.fiber s.running).pc = .user (s.condUnblock me (.user m)).2 := by
      rw [heq]
      simp [ret, setPc, condUnblock, setFlags, setThread, setCondQ]
    by_cases hm : m = n
    · subst hm
      have hends : endsWait m s s' = some (me, (s.condUnblock me (.user m)).2) := by
        unfold endsWait
        rw [hpc, hpc']
        exact if_pos rfl
      rw [CondLog.track, hends]
      exact .ends me runs heq
    · have hends : endsWait n s s' = none := by
        unfold endsWait
        rw [hpc, hpc']
        exact if_neg hm
      have hbegins : beginsWait n s l s' = none := by
        unfold beginsWait
        rw [label]
      have hq : s'.cond_q (.user n) = s.cond_q (.user n) := by
        rw [heq]
        exact Function.update_of_ne (by simpa using Ne.symm hm) _ _
      rw [CondLog.track_still hends hbegins]
      refine .still hq (hne fun me' hc => ?_)
      rw [hpc] at hc
      injection hc with _ hc
      injection hc with hc
      exact hm hc
  | calm calm pc back =>
    have hbegins : beginsWait n s l s' = none := by
      unfold beginsWait
      split
      · next m timeout me c hpc =>
        obtain ⟨r, hr⟩ := back m timeout rfl
        rw [hr] at hpc
        cases hpc
      · rfl
    rw [CondLog.track_still (endsWait_eq_none s' pc) hbegins]
    exact .still (calm.cond_q n) (hne fun me => pc me n)
  | clock now label pc cond_q =>
    have hbegins : beginsWait n s l s' = none := by
      unfold beginsWait
      rw [label]
    rw [CondLog.track_still (endsWait_eq_none s' pc) hbegins]
    exact .still (congrFun cond_q (.user n)) (hne fun me => pc me n)

/-- Each step keeps the notes true. -/
theorem step : CondInv n s' (w.track n s l s') := by
  have htracks := h.tracks hok hstep
  generalize w.track n s l s' = w' at htracks
  cases htracks with
  | still queue ne => exact h.still hok hstep queue ne
  | begins me runs user begins => exact h.begins hok hstep runs user begins
  | ends me runs eq => exact h.ends hok hstep runs eq

omit hok hstep in
/-- The waiters in `COND_WAIT` are those that nothing has taken out of it. -/
theorem condWaiters_eq : s.condWaiters (s.cond_q (.user n)) = w.live := by
  rw [h.queue, condWaiters, CondLog.live, List.filter_map]
  refine congrArg (List.map Wait.thread) (List.filter_congr fun wt hmem => ?_)
  exact decide_eq_decide.mpr (h.noted wt hmem).live.symm

end CondInv

/-- At first nobody has timed out. -/
theorem init_timedoutWaits (pagesize : ℤ) (last_clock : ℕ) :
    (init pagesize last_clock).TimedoutWaits := by
  intro t ht
  by_cases h0 : t = 0
  · subst h0
    cases ht
  · have hth : (init pagesize last_clock).thread t = Thread.zero := by
      simp [init, blank, threadCreate, stackNew, initThread, startThread, setFlags, setState, setThread,
        addRunq, h0]
    rw [hth] at ht
    cases ht

/-- At first nobody waits. -/
theorem init_condInv (pagesize : ℤ) (last_clock n : ℕ) :
    CondInv n (init pagesize last_clock) ⟨[], []⟩ where
  inv := init_inv pagesize last_clock
  timedout := init_timedoutWaits pagesize last_clock
  queue := rfl
  noted := by simp
  done := by simp

/-! ## Signals pick the longest-waiting live waiter -/

/-- From `s` to `s'` the threads of `sel`, and nobody else, are made runnable, in that order, and taken
out of the timeout heap. -/
structure Selects (s s' : St) (sel : List ℕ) : Prop where
  run_q : s'.run_q = s.run_q ++ sel
  runnable : ∀ t ∈ sel, (s'.thread t).state = .RUNNABLE ∧ ¬s'.InHeap t
  others : ∀ t, t ∉ sel → s'.thread t = s.thread t ∧ (s'.InHeap t ↔ s.InHeap t)

/-- A call of `st_cond_signal` or of `st_cond_broadcast`. -/
theorem step_selects {s s' : St} {n : ℕ} {w : CondLog} {c : Call} (broadcast : Bool)
    (h : CondInv n s w) (hstep : s.step (.call c) = some s') (hok : s.Allowed c)
    (hcall : ∀ s : St, s.call c = (s.condSignal (.user n) broadcast).map (·.ret (.ok 0))) :
    Selects s s' (selected broadcast w.live) := by
  have hc := h.inv.good.core
  have hok' : s.Ok (.call c) := hok
  have hc' := (step_inv h.inv hok' hstep).good.core
  obtain ⟨-, -, hgo⟩ := step_call_user hstep
  rw [hcall] at hgo
  obtain ⟨s₁, hs₁, rfl⟩ := Option.map_eq_some_iff.mp hgo
  obtain ⟨hrun, hth⟩ := condSignalLoop_selects broadcast _ (hc.cond_nodup _) hs₁
  rw [h.condWaiters_eq] at hrun hth
  have hsame : ∀ t, (s₁.ret (.ok 0)).thread t = s₁.thread t := fun _ => rfl
  refine ⟨hrun, fun t ht => ?_, fun t ht => ?_⟩
  · rw [hc'.inHeap_iff, hsame, hth t, if_pos ht]
    exact ⟨rfl, fun hon => by cases hon⟩
  · rw [hc'.inHeap_iff, hc.inHeap_iff, hsame, hth t, if_neg ht]
    exact ⟨rfl, Iff.rfl⟩

/-- The work of the condition variable `n` in the state `s`, given the notes on its waits. -/
structure CondSpec (n : ℕ) (s : St) (w : CondLog) : Prop where
  /-- The wait queue links the threads whose waits have begun and not resumed, in that order. -/
  queue : s.cond_q (.user n) = w.pending.map Wait.thread
  /-- They are in `COND_WAIT` unless something has taken them out of it. -/
  live : ∀ wt ∈ w.pending, wt.ended = none ↔ (s.thread wt.thread).state = .COND_WAIT
  signal : ∀ s', s.step (.call (.condSignal n)) = some s' → Selects s s' (w.live.take 1)
  broadcast : ∀ s', s.step (.call (.condBroadcast n)) = some s' → Selects s s' w.live
  /-- Whoever has been taken out of `COND_WAIT` is not selected, and nothing takes it out again. -/
  once : ∀ wt ∈ w.pending, wt.ended ≠ none → wt.thread ∉ w.live ∧
    ∀ l s', s.step l = some s' → wt.mark s l s' = wt
  etime : ∀ d ∈ w.done, d.2 = .error .ETIME → d.1.ended = some .clock

/-- What the notes say of a state, in the terms of the statement. -/
theorem CondInv.spec {s : St} {n : ℕ} {w : CondLog} (h : CondInv n s w) : CondSpec n s w where
  queue := h.queue
  live wt hmem := (h.noted wt hmem).live
  signal _ hstep := step_selects false h hstep trivial fun _ => rfl
  broadcast _ hstep := step_selects true h hstep trivial fun _ => rfl
  once wt hmem hended := by
    have hst : (s.thread wt.thread).state ≠ .COND_WAIT := fun hst =>
      hended ((h.noted wt hmem).live.mpr hst)
    refine ⟨fun hlive => ?_, fun l s' _ => if_neg fun hc => hst hc.1⟩
    obtain ⟨wt', hfilter, heq⟩ := List.mem_map.mp hlive
    obtain ⟨hmem', hnone⟩ := List.mem_filter.mp hfilter
    rw [← heq] at hst
    exact hst ((h.noted wt' hmem').live.mp (of_decide_eq_true hnone))
  etime d hmem := (h.done d hmem).etime

/-- In each run whose steps are all `Ok`, the condition variable `n` does its work. -/
theorem run_cond_spec (pagesize : ℤ) (last_clock n : ℕ) (ls : List Label) {s : St}
    (hrun : Runs.run step (init pagesize last_clock) ls = some s)
    (hok : Runs.Meets step Ok (init pagesize last_clock) ls) :
    CondSpec n s (Runs.record step (CondLog.track n) ⟨[], []⟩ (init pagesize last_clock) ls) := by
  have h : CondInv n s (Runs.record step (CondLog.track n) ⟨[], []⟩ (init pagesize last_clock) ls) :=
    Runs.record_invariant (fun h hok hstep => h.step hok hstep) (init_condInv pagesize last_clock n) hok
      hrun
  exact h.spec

/-- Three threads. Two of them wait on a condition variable, the first one times out, and before it
resumes the third one is about to signal. -/
def timesOutFirst : List Label :=
  [.call (.create false 0 ⟨true, true, true⟩), .call (.create false 0 ⟨true, true, true⟩),
    .call (.create false 0 ⟨true, true, true⟩), .call (.usleep 1), .call (.condTimedwait 0 5),
    .call (.condTimedwait 0 100), .call (.usleep 3), .dispatch fun _ => .ready fun _ => ∅, .clock 10,
    .resume]

/-- The run is possible. The signal passes over the thread whose time has come, and that thread is still
on the queue. -/
theorem run_cond_spec_timesOutFirst : ∃ s, Runs.run step (init 4096 0) timesOutFirst = some s ∧
    CondSpec 0 s (Runs.record step (CondLog.track 0) ⟨[], []⟩ (init 4096 0) timesOutFirst) ∧
    s.cond_q (.user 0) = [1, 2] ∧
    (Runs.record step (CondLog.track 0) ⟨[], []⟩ (init 4096 0) timesOutFirst).live = [2] := by
  refine ⟨(Runs.run step (init 4096 0) timesOutFirst).get (by decide), by simp, ?_, by decide,
    by decide⟩
  exact run_cond_spec 4096 0 0 timesOutFirst (by simp) (by decide)

end St

end StWin
