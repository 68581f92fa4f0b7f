import StWin.Sched.Final

/-!
# The two drivers

A program is driven either by `main` calling `st_usleep` while threads are active, as the examples of
the repository do, or by `st_idle_thread_run`, which runs the idle loop on `main` itself.

In the first case dispatch runs on the idle thread only, which gets the turn only when the run queue
is empty, so nobody whom `select` reports to is runnable already. All steps are `Ok`, and each live
thread is where its state says: that is `run_placed`. In the second case `main` also dispatches when a
thread has terminated, and others may be runnable then. `run_native_nodup` says that the run queue
stays a proper ring as long as no `select` reports to such a thread.
-/

namespace StWin.St

/-! ## The idle thread's turn -/

/-- While there is a live thread, `active_count` is positive. -/
theorem Inv.active_of_live {s : St} (h : s.Inv) {t : ℕ} (hl : s.Live t) : 0 < s.active_count := by
  rw [h.tally.count]
  have : 0 < s.living := List.countP_pos_iff.mpr ⟨(s.thread t).id, hl.1, by simpa using hl.2.1⟩
  exact_mod_cast this

/-- A dispatch pass is made in one of the two loops. -/
theorem step_dispatch_pc {s s' : St} {outcomes : ℕ → SelectOutcome}
    (h : s.step (.dispatch outcomes) = some s') :
    (s.fiber s.running).pc = .idle .dispatch ∨ (s.fiber s.running).pc = .native .dispatch := by
  obtain ⟨pc, hpc⟩ : ∃ pc, (s.fiber s.running).pc = pc := ⟨_, rfl⟩
  rw [hpc]
  cases step_goes hpc h with
  | idleDispatch _ _ _ _ _ => exact Or.inl rfl
  | nativeDispatch _ _ _ _ _ => exact Or.inr rfl

/-- The idle thread does not make calls. -/
theorem Good.call_running {s s' : St} {c : Call} (hg : s.Good) (h : s.step (.call c) = some s') :
    s.running ≠ 1 := by
  intro hrun
  obtain ⟨r, hpc, -⟩ := step_call_user h
  obtain ⟨stage, hstage⟩ := hg.own.idle_pc
  rw [hrun, hstage] at hpc
  cases hpc

/-- The idle thread gets the turn only while somebody is active, if `main` gives it away only then. -/
theorem step_active {s s' : St} {l : Label} (hi : s.Inv) (hok : s.Ok l) (hstep : s.step l = some s')
    (hlow : s.running < 2 → 0 < s.active_count) (hrun : s'.running = 1) : 0 < s'.active_count := by
  have hg := hi.good
  -- Whoever had the turn, somebody was active.
  have hactive : s.running ≠ 0 → s.running ≠ 1 → 0 < s.active_count := by
    intro h0 h1
    rcases hg.turn with hmain | ⟨hidle, -⟩ | ⟨t, hl, -, -, -⟩ | ⟨t, -, -, hpc, -, -⟩ | ⟨t, hleave, -⟩
    · exact absurd hmain h0
    · exact absurd hidle h1
    · exact hi.active_of_live hl
    · -- The last switch of a thread is one to `main`.
      cases step_goes hpc hstep with
      | exitEnd hend =>
        rw [hend] at hrun
        cases hrun
    · cases step_goes hleave.pc hstep with
      | exitTerm hend =>
        obtain ⟨s₁, hs₁, hfrees⟩ := exitTermEnd_frees hleave
        obtain rfl : s' = s₁ := Option.some_inj.mp (hend.symm.trans hs₁)
        rw [hfrees.running] at hrun
        exact absurd hrun h1
  have hactive : 0 < s.active_count := by
    by_cases hlt : s.running < 2
    · exact hlow hlt
    · exact hactive (by omega) (by omega)
  cases hi.change hok hstep with
  | fine fine => rwa [fine.lives.active_count]
  | creates _ _ _ _ s₁ t th started makes _ r eq =>
    have hcount : s'.active_count = s.active_count + if started then 1 else 0 := by
      rw [eq]
      exact makes.active_count
    rw [hcount]
    split_ifs <;> omega
  | exits t v retval joinable runs _ exits =>
    have h2 := runs.two_le hg.own
    rw [exits.running] at hrun
    change s.running = 1 at hrun
    omega
  | frees t leaving frees => rwa [frees.active_count]
  | nothing main _ _ f r eq =>
    rw [eq] at hrun
    change s.running = 1 at hrun
    omega

/-- The fibers that do not run stay where they are. -/
theorem Change.pc_main {s s' : St} {l : Label} (h : Change s l s') (hg : s.Good)
    (hrun : s.running ≠ 0) : (s'.fiber 0).pc = (s.fiber 0).pc := by
  cases h with
  | fine fine => exact fine.lives.pc 0 (Ne.symm hrun)
  | creates _ _ _ _ s₁ t th started makes _ r eq =>
    have hcreated := hg.own.created
    have hrun₁ : s₁.running ≠ 0 := by rw [makes.running]; exact hrun
    have hpc : ((s₁.ret r).fiber 0).pc = (s₁.fiber 0).pc :=
      (setPc_sameLives s₁ (.user r)).pc 0 (Ne.symm hrun₁)
    rw [eq, hpc, makes.fiber_of_ne (by omega)]
  | exits t v retval joinable runs _ exits =>
    rw [exits.fiber_of_ne (show 0 ≠ s.running from Ne.symm hrun)]
    rfl
  | frees t leaving frees => rw [frees.fiber_of_ne (Ne.symm hrun)]
  | nothing main _ _ f r eq => exact absurd main hrun

/-- `st_thread_create` does not switch. -/
theorem threadCreate_running (s : St) (start : Pc) (joinable : Bool) (stk_size : ℤ) (ok : Acquire) :
    (s.threadCreate start joinable stk_size ok).1.running = s.running := by
  unfold threadCreate
  cases hnew : s.stackNew (s.stackSize stk_size) ok.stack with
  | none => rfl
  | some new =>
    obtain ⟨t, s₁⟩ := new
    obtain ⟨free, sizes, seg, rfl⟩ := stackNew_eq hnew
    dsimp only
    split_ifs <;> rfl

/-! ## `main` sleeps while threads are active -/

/-- A call of a thread: any but those of `st_thread_exit` and `st_thread_join`. The threads that it
creates are not joinable. -/
def Call.ofThread : Call → Bool
  | .exit _ => false
  | .join _ => false
  | .idleRun => false
  | .create joinable _ ok => joinable = false ∧ ok = ⟨true, true, true⟩
  | _ => true

/-- A call of `main`: it creates threads that are not joinable, and then sleeps while threads are
active. -/
def ofMain (s : St) : Call → Bool
  | .create joinable _ ok => joinable = false ∧ ok = ⟨true, true, true⟩ ∧ s.this_thread = none
  | .usleep _ => 0 < s.active_count
  | _ => false

/-- A step of a program whose `main` creates threads and sleeps while they are active. -/
def Driven (s : St) : Label → Prop
  | .call c => if s.running = 0 then s.ofMain c = true else c.ofThread = true
  | _ => True

instance (s : St) : (l : Label) → Decidable (s.Driven l)
  | .call c => inferInstanceAs
      (Decidable (if s.running = 0 then s.ofMain c = true else c.ofThread = true))
  | .ret _ => inferInstanceAs (Decidable True)
  | .resume => inferInstanceAs (Decidable True)
  | .dispatch _ => inferInstanceAs (Decidable True)
  | .clock _ => inferInstanceAs (Decidable True)

/-- While `main` runs, `_st_this_thread` has terminated. -/
def Rests (s : St) : Prop := s.running = 0 → s.This fun t => (s.thread t).state = .ZOMBIE

/-- The invariant of such a program. -/
structure DrivenInv (s : St) : Prop where
  inv : s.Inv
  idle : s.IdleOk
  rests : s.Rests
  main : ∃ r, (s.fiber 0).pc = .user r
  term : ∀ t, (s.thread t).term = none
  active : s.running = 1 → 0 < s.active_count

namespace DrivenInv

variable {s s' : St} {l : Label} (h : s.DrivenInv)
include h

/-- While `main` runs, `_st_this_thread` is not on the run queue, as it has terminated. -/
theorem mainOk : s.MainOk := by
  intro hrun t ht hmem
  have hz := (h.rests hrun).some ht
  rw [((h.inv.good.core.recs t).run_q.mp hmem).2] at hz
  cases hz

/-- Whom a dispatch pass of the idle thread notifies is not runnable: nobody is. -/
theorem quiet {outcomes : ℕ → SelectOutcome} (hstep : s.step (.dispatch outcomes) = some s') :
    s.Quiet outcomes := by
  have hg := h.inv.good
  obtain ⟨hrun, hpc⟩ : s.running = 1 ∧ (s.fiber 1).pc = .idle .dispatch := by
    rcases step_dispatch_pc hstep with hpc | hpc
    · have hrun := hg.running_idle hpc
      rw [hrun] at hpc
      exact ⟨hrun, hpc⟩
    · obtain ⟨r, hr⟩ := h.main
      rw [hg.running_native hpc, hr] at hpc
      cases hpc
  have hempty := h.idle hrun hpc
  intro q hq _ hst
  have hl := ((hg.core.recs _).io_q q hq rfl).1
  have hmem := (hg.core.recs _).run_q.mpr ⟨hl, hst⟩
  rw [hempty] at hmem
  cases hmem

/-- The steps of such a program are `Ok`. -/
theorem ok (hl : s.Driven l) (hstep : s.step l = some s') : s.Ok l := by
  cases l with
  | call c =>
    -- `main` creates threads, and sleeps while the current thread has terminated.
    by_cases hrun : s.running = 0
    · have hcall : s.ofMain c = true := by simpa only [Driven, if_pos hrun] using hl
      cases c with
      | create joinable stk_size ok =>
        obtain ⟨-, hok, -⟩ := of_decide_eq_true hcall
        rw [hok]
        exact rfl
      | usleep usecs => exact fun _ => h.rests hrun
      | _ => cases hcall
    · -- The calls of a thread.
      have hcall : c.ofThread = true := by simpa only [Driven, if_neg hrun] using hl
      cases c with
      | create joinable stk_size ok =>
        obtain ⟨-, hok⟩ := of_decide_eq_true hcall
        rw [hok]
        exact rfl
      | exit retval => cases hcall
      | poll pds timeout => exact fun h0 => absurd h0 hrun
      | usleep usecs => exact fun h0 => absurd h0 hrun
      | condTimedwait n timeout => exact fun h0 => absurd h0 hrun
      | mutexLock m => exact fun h0 => absurd h0 hrun
      | join t => cases hcall
      | _ => trivial
  | ret v =>
    -- No thread is joinable, so nobody waits to join this one.
    have hfree : ∀ t, s.Unjoined t := by
      intro t
      unfold Unjoined
      rw [h.term t]
      trivial
    cases hthis : s.this_thread with
    | none => exact This.of_none hthis
    | some t => exact This.of_some hthis (hfree t)
  | resume => exact h.active
  | dispatch outcomes => exact h.quiet hstep
  | clock now => trivial

/-- `main` stays in its own code. -/
theorem step_main_user (hl : s.Driven l) (hstep : s.step l = some s') :
    ∃ r, (s'.fiber 0).pc = .user r := by
  obtain ⟨r, hpc⟩ := h.main
  by_cases hrun : s.running = 0
  · rw [← hrun] at hpc
    cases step_goes hpc hstep with
    | call c hgo =>
      have hcall : s.ofMain c = true := by simpa only [Driven, if_pos hrun] using hl
      cases c with
      | create joinable stk_size ok =>
        obtain ⟨r', rfl⟩ := call_create_eq hgo
        refine ⟨r', ?_⟩
        rw [← hrun, ← s.threadCreate_running (.user (.ok 0)) joinable stk_size ok]
        simp [ret, setPc]
      | usleep usecs =>
        rw [call, usleep_of_zombie (h.rests hrun), Option.some_inj] at hgo
        refine ⟨.ok 0, ?_⟩
        rw [← hgo, vpSchedule_fiber, ← hrun]
        simp [ret, setPc]
      | _ => cases hcall
    | ret v thread _ => exact absurd hrun thread
  · rw [(h.inv.change (h.ok hl hstep) hstep).pc_main h.inv.good hrun]
    exact ⟨r, hpc⟩

/-- Threads that are created are not joinable. -/
theorem step_term (hl : s.Driven l) (hstep : s.step l = some s') (u : ℕ) :
    (s'.thread u).term = none := by
  cases h.inv.change (h.ok hl hstep) hstep with
  | fine fine => rw [fine.lives.term, h.term]
  | creates joinable _ _ label s₁ t th started makes term r eq =>
    have hjoin : joinable = false := by
      rw [label] at hl
      by_cases hrun : s.running = 0
      · simp only [Driven, if_pos hrun] at hl
        exact (of_decide_eq_true hl).1
      · simp only [Driven, if_neg hrun] at hl
        exact (of_decide_eq_true hl).1
    rw [eq]
    change (s₁.thread u).term = none
    by_cases hu : u = t
    · rw [hu, makes.thread_self]
      exact term hjoin
    · rw [makes.thread_of_ne hu, h.term]
  | exits t v retval joinable runs _ exits =>
    by_cases hu : u = t
    · rw [hu, exits.thread, Function.update_self]
      exact h.term t
    · rw [exits.thread_of_ne hu]
      exact h.term u
  | frees t leaving frees =>
    by_cases hu : u = t
    · rw [hu, frees.thread, Function.update_self]
    · rw [frees.thread_of_ne hu, h.term]
  | nothing _ _ _ f r eq =>
    rw [eq]
    exact h.term u

/-- A thread that has terminated stays so while `main` runs. -/
theorem step_rests (hl : s.Driven l) (hstep : s.step l = some s') : s'.Rests := by
  intro hrun'
  cases h.inv.change (h.ok hl hstep) hstep with
  | fine fine =>
    rcases fine.main hrun' with ⟨hrun, hthis⟩ | hz
    · cases ht : s.this_thread with
      | none => exact This.of_none (hthis.trans ht)
      | some t =>
        -- The same thread is still the current one.
        have hz := (h.rests hrun).some ht
        have hdead : ¬s.Live t := by
          intro hlive
          have hfits := (h.inv.good.core.recs t).state hlive
          rw [hz] at hfits
          exact hfits
        refine This.of_some (hthis.trans ht) ?_
        rcases fine.lives.state t hdead with hst | ⟨rfl, -⟩
        · rw [hst, hz]
        · -- The idle thread is no zombie.
          rcases h.inv.good.own.idle_state with h0 | h0
          · rw [hz] at h0
            cases h0
          · rw [hz] at h0
            cases h0
    · exact hz
  | creates joinable stk_size ok label s₁ t th started makes _ r eq =>
    -- A thread that is created by `main` comes before any has run.
    have hrun : s.running = 0 := by
      rw [← makes.running]
      rw [eq] at hrun'
      exact hrun'
    rw [label] at hl
    simp only [Driven, if_pos hrun] at hl
    rw [eq]
    exact This.of_none (makes.this_thread.trans (of_decide_eq_true hl).2.2)
  -- These steps are taken by a thread, and leave the turn with it.
  | exits t v retval joinable runs _ exits =>
    have h2 := runs.two_le h.inv.good.own
    rw [exits.running] at hrun'
    change s.running = 0 at hrun'
    omega
  | frees t leaving frees =>
    have h2 := (h.inv.good.own.thread _ leaving.mem).1
    rw [frees.running] at hrun'
    omega
  | nothing main _ label f r eq =>
    rw [label] at hl
    simp only [Driven, if_pos main] at hl
    cases hl

/-- The idle thread gets the turn only when nobody is runnable. -/
theorem step_idleOk (hl : s.Driven l) (hstep : s.step l = some s') : s'.IdleOk := by
  have hg := h.inv.good
  cases h.inv.change (h.ok hl hstep) hstep with
  | fine fine => exact fine.idle h.mainOk
  | creates joinable stk_size ok label s₁ t th started makes _ r eq =>
    subst label
    intro hrun
    rw [eq] at hrun
    exact absurd (makes.running.symm.trans hrun) (hg.call_running hstep)
  | exits t v retval joinable runs _ exits =>
    have h2 := runs.two_le hg.own
    intro hrun
    rw [exits.running] at hrun
    change s.running = 1 at hrun
    omega
  | frees t leaving frees =>
    have h2 := (hg.own.thread _ leaving.mem).1
    intro hrun
    rw [frees.running] at hrun
    omega
  | nothing main _ _ f r eq =>
    intro hrun
    rw [eq] at hrun
    change s.running = 1 at hrun
    omega

/-- Whoever gives the turn to the idle thread, somebody is active. -/
theorem step_driven_active (hl : s.Driven l) (hstep : s.step l = some s') (hrun' : s'.running = 1) :
    0 < s'.active_count := by
  refine step_active h.inv (h.ok hl hstep) hstep (fun hlt => ?_) hrun'
  by_cases hrun : s.running = 0
  · obtain ⟨r, hpc⟩ := h.main
    rw [← hrun] at hpc
    cases step_goes hpc hstep with
    | call c hgo =>
      have hcall : s.ofMain c = true := by simpa only [Driven, if_pos hrun] using hl
      cases c with
      | create joinable stk_size ok =>
        obtain ⟨r', rfl⟩ := call_create_eq hgo
        have hsame := s.threadCreate_running (.user (.ok 0)) joinable stk_size ok
        rw [hrun] at hsame
        change (s.threadCreate (.user (.ok 0)) joinable stk_size ok).1.running = 1 at hrun'
        omega
      | usleep usecs => exact of_decide_eq_true hcall
      | _ => cases hcall
    | ret v thread _ => exact absurd hrun thread
  · exact h.active (by omega)

end DrivenInv

/-- Each step of such a program keeps its invariant. -/
theorem step_driven {s s' : St} {l : Label} (h : s.DrivenInv) (hl : s.Driven l)
    (hstep : s.step l = some s') : s'.DrivenInv :=
  ⟨step_inv h.inv (h.ok hl hstep) hstep, h.step_idleOk hl hstep, h.step_rests hl hstep,
    h.step_main_user hl hstep, h.step_term hl hstep, h.step_driven_active hl hstep⟩

/-- At first no thread has been created. -/
theorem init_driven (pagesize : ℤ) (last_clock : ℕ) : (init pagesize last_clock).DrivenInv := by
  refine ⟨init_inv pagesize last_clock, fun hrun => (by cases hrun), fun _ => trivial, ⟨_, rfl⟩,
    fun t => ?_, fun hrun => (by cases hrun)⟩
  rw [init_thread]
  by_cases ht : t = 0
  · rw [ht, Function.update_self]
    rfl
  · rw [Function.update_of_ne ht]
    rfl

/-- The thread with the record `t` is where its state says. -/
def Placed (s : St) (t : ℕ) : Prop :=
  match (s.thread t).state with
  | .RUNNING => s.this_thread = some t
  | .RUNNABLE => s.run_q.count t = 1
  | .SLEEPING => s.InHeap t
  | .IO_WAIT => s.InHeap t ∧ ∃ q, s.pcOf t = .poll t q ∧ (s.ev.pollq q).thread = t ∧
      q ∈ s.ev.io_q ∧ (s.ev.pollq q).on_ioq = true
  | .COND_WAIT => ∃ c, (s.pcOf t).waitsOn c ∧ t ∈ s.cond_q c
  | .LOCK_WAIT => (∃ m, s.pcOf t = .lock t m ∧ t ∈ (s.mutex m).wait_q) ∧ ¬s.InHeap t
  | .SUSPENDED => t ∉ s.run_q ∧ ¬s.InHeap t
  | .ZOMBIE => False

/-- A live thread is on the queues that its state names, and on no others. -/
theorem Core.placed {s : St} (hc : s.Core []) {t : ℕ} (hl : s.Live t) : s.Placed t := by
  have hrec := hc.recs t
  have hfits := hrec.state hl
  have hpc := hrec.pc hl
  -- A thread in the heap is in one of the states with a timeout.
  have hheap : s.InHeap t → (s.thread t).state = .SLEEPING ∨ (s.thread t).state = .IO_WAIT ∨
      (s.thread t).state = .COND_WAIT := by
    rw [hc.inHeap_iff]
    exact fun hon => (hrec.sleep_q hon).2
  unfold Placed
  cases hst : (s.thread t).state with
  | RUNNING =>
    rw [hst] at hfits
    exact hfits.2
  | RUNNABLE => exact List.count_eq_one_of_mem hc.run_nodup (hrec.run_q.mpr ⟨hl, hst⟩)
  | IO_WAIT =>
    rw [hst] at hfits
    obtain ⟨hon, q, hq, hio⟩ := hfits
    have hio := hio.resolve_right List.not_mem_nil
    rw [hq] at hpc
    obtain ⟨-, howner, -, hin⟩ := hpc
    exact ⟨(hc.inHeap_iff t).mpr hon, q, hq, howner, hin hio, hio⟩
  | LOCK_WAIT =>
    rw [hst] at hfits
    obtain ⟨m, hm⟩ := hfits
    refine ⟨⟨m, hc.lock_pc hl hm, (hrec.wait_q m).mpr ⟨hl, hm⟩⟩, fun hin => ?_⟩
    have := hheap hin
    rw [hst] at this
    rcases this with h | h | h <;> cases h
  | COND_WAIT =>
    rw [hst] at hfits
    obtain ⟨c, hcond⟩ := hfits
    exact ⟨c, hcond, (hrec.cond_q c).mpr ⟨hl, hcond⟩⟩
  | SLEEPING =>
    rw [hst] at hfits
    exact (hc.inHeap_iff t).mpr hfits.1
  | ZOMBIE =>
    rw [hst] at hfits
    exact hfits
  | SUSPENDED =>
    refine ⟨fun hmem => ?_, fun hin => ?_⟩
    · have := (hrec.run_q.mp hmem).2
      rw [hst] at this
      cases this
    · have := hheap hin
      rw [hst] at this
      rcases this with h | h | h <;> cases h

/-- In each run of a program whose `main` creates threads and sleeps while they are active, each live
thread is where its state says. -/
theorem run_placed (pagesize : ℤ) (last_clock : ℕ) (ls : List Label) {s : St}
    (hrun : Runs.run step (init pagesize last_clock) ls = some s)
    (hdriven : Runs.Meets step Driven (init pagesize last_clock) ls) (t : ℕ) (hl : s.Live t) :
    s.Placed t := by
  have h : s.DrivenInv := Runs.run_invariant step_driven (init_driven pagesize last_clock) hdriven hrun
  exact h.inv.good.core.placed hl

/-- Two threads. The first one polls, and the second one interrupts it and sleeps. Then the first one
waits for a mutex that the second one has locked before. -/
def pollsAndSleeps : List Label :=
  [.call (.create false 0 ⟨true, true, true⟩), .call (.create false 0 ⟨true, true, true⟩),
    .call (.usleep 1), .call (.poll [⟨5, ⟨true, false, false, false⟩, Events.none⟩] 100),
    .call (.mutexLock 0), .call (.interrupt 1), .call (.usleep 7), .resume, .call (.mutexLock 0),
    .dispatch fun _ => .ready fun _ => ∅]

/-- The run is possible. One thread is on the I/O queue and the other one on the sleep queue. -/
theorem run_placed_pollsAndSleeps :
    ∃ s, Runs.run step (init 4096 0) pollsAndSleeps = some s ∧ (s.Live 1 ∧ s.Placed 1) ∧
      (s.Live 2 ∧ s.Placed 2) ∧ (s.thread 1).state = .LOCK_WAIT ∧ (s.thread 2).state = .SLEEPING := by
  refine ⟨(Runs.run step (init 4096 0) pollsAndSleeps).get (by decide), by simp, ⟨⟨by decide, by decide,
    by decide⟩, ?_⟩, ⟨⟨by decide, by decide, by decide⟩, ?_⟩, by decide, by decide⟩
  · exact run_placed 4096 0 pollsAndSleeps (by simp) (by decide) 1 ⟨by decide, by decide, by decide⟩
  · exact run_placed 4096 0 pollsAndSleeps (by simp) (by decide) 2 ⟨by decide, by decide, by decide⟩

/-! ## `main` runs the idle loop -/

/-- The calls in such a program: `main` creates threads and calls `st_idle_thread_run`, and nobody
calls `st_thread_exit` from a start function. -/
def callsNative (s : St) : Call → Bool
  | .create _ _ ok => ok.fiber
  | .idleRun => true
  | .exit _ => false
  | _ => s.running ≠ 0

/-- A step of a program whose `main` creates threads and calls `st_idle_thread_run`. Nobody calls
`st_thread_exit` from a start function, a thread terminates only when nobody waits for it in
`st_thread_join`, and no `select` reports to a thread that is runnable already. -/
def Native (s : St) : Label → Prop
  | .call c => s.callsNative c = true
  | .ret _ => s.This s.Unjoined
  | .resume => True
  | .dispatch outcomes => s.Quiet outcomes
  | .clock _ => True

instance (s : St) : (l : Label) → Decidable (s.Native l)
  | .call c => inferInstanceAs (Decidable (s.callsNative c = true))
  | .ret _ => inferInstanceAs (Decidable (s.This s.Unjoined))
  | .resume => inferInstanceAs (Decidable True)
  | .dispatch outcomes => inferInstanceAs (Decidable (s.Quiet outcomes))
  | .clock _ => inferInstanceAs (Decidable True)

/-- The invariant of such a program: past the test of the loop's condition somebody is active. -/
structure NativeInv (s : St) : Prop where
  inv : s.Inv
  active : s.running = 1 → 0 < s.active_count
  loop : ∀ stage, (s.fiber 0).pc = .native stage → stage ≠ .dispatch →
    s.running = 0 ∧ 0 < s.active_count

namespace NativeInv

variable {s s' : St} {l : Label} (h : s.NativeInv)
include h

/-- The steps of such a program are `Ok`. -/
theorem ok (hl : s.Native l) : s.Ok l := by
  cases l with
  | call c =>
    cases c with
    | create joinable stk_size ok => exact hl
    | exit retval => cases hl
    | poll pds timeout => exact fun h0 => absurd h0 (of_decide_eq_true hl)
    | usleep usecs => exact fun h0 => absurd h0 (of_decide_eq_true hl)
    | condTimedwait n timeout => exact fun h0 => absurd h0 (of_decide_eq_true hl)
    | mutexLock m => exact fun h0 => absurd h0 (of_decide_eq_true hl)
    | join t => exact fun h0 => absurd h0 (of_decide_eq_true hl)
    | _ => trivial
  | ret v => exact hl
  | resume => exact h.active
  | dispatch outcomes => exact hl
  | clock now => trivial

/-- A step of `main`. -/
theorem step_main (hl : s.Native l) (hstep : s.step l = some s') (hrun : s.running = 0) :
    (s'.running = 1 → 0 < s.active_count) ∧
      ∀ stage, (s'.fiber 0).pc = .native stage → stage ≠ .dispatch →
        s'.running = 0 ∧ 0 < s'.active_count := by
  have hg := h.inv.good
  -- `main` goes on in its own code.
  have huser : ∀ {s₁ : St} {r : Res}, s₁.running = 0 → s' = s₁.ret r →
      (s'.running = 1 → 0 < s.active_count) ∧
        ∀ stage, (s'.fiber 0).pc = .native stage → stage ≠ .dispatch →
          s'.running = 0 ∧ 0 < s'.active_count := by
    intro s₁ r hrun₁ heq
    rw [heq]
    refine ⟨fun hrun' => ?_, fun stage hpc => ?_⟩
    · change s₁.running = 1 at hrun'
      omega
    · rw [← hrun₁] at hpc
      simp only [ret, setPc, Function.update_self] at hpc
      cases hpc
  -- `main` goes on in the loop, with the same threads active.
  have hloop : ∀ {s₁ : St} {stage : Stage}, s₁.running = 0 → s₁.active_count = s.active_count →
      0 < s.active_count → s' = s₁.setPc (.native stage) →
      (s'.running = 1 → 0 < s.active_count) ∧
        ∀ stage, (s'.fiber 0).pc = .native stage → stage ≠ .dispatch →
          s'.running = 0 ∧ 0 < s'.active_count := by
    intro s₁ stage hrun₁ hsame hactive heq
    rw [heq]
    refine ⟨fun _ => hactive, fun _ _ _ => ⟨hrun₁, ?_⟩⟩
    change 0 < s₁.active_count
    rw [hsame]
    exact hactive
  rcases hg.own.main_pc with ⟨r, hpc⟩ | ⟨stage, hpc⟩
  · rw [← hrun] at hpc
    cases step_goes hpc hstep with
    | call c hgo =>
      cases c with
      | create joinable stk_size ok =>
        obtain ⟨r', heq⟩ := call_create_eq hgo
        refine huser ?_ heq
        rw [s.threadCreate_running, hrun]
      | idleRun =>
        simp only [call, hrun, if_true, Option.some_inj] at hgo
        rw [← hgo]
        refine ⟨fun hrun' => ?_, fun stage hpc' hne => ?_⟩
        · change s.running = 1 at hrun'
          omega
        · rw [← hrun] at hpc'
          simp only [setPc, Function.update_self] at hpc'
          cases hpc'
          exact absurd rfl hne
      | exit retval => cases hl
      | _ => exact absurd hrun (of_decide_eq_true hl)
    | ret v thread _ => exact absurd hrun thread
  · have hactive := h.loop stage hpc
    rw [← hrun] at hpc
    cases step_goes hpc hstep with
    | nativeDispatch outcomes active s₁ hidle eq =>
      obtain ⟨s₂, hs₂, -, hp, -⟩ := vpIdle_pokes hg (hg.main_offTurn hrun) hl
      obtain rfl : s₁ = s₂ := Option.some_inj.mp (hidle.symm.trans hs₂)
      exact hloop (hp.running.trans hrun) hp.lives.active_count active eq
    | nativeEnd _ eq => exact huser hrun eq
    | nativeClock now s₁ hclock eq =>
      obtain ⟨s₂, hs₂, -, hp, -⟩ := vpCheckClock_pokes hg now
      obtain rfl : s₁ = s₂ := Option.some_inj.mp (hclock.symm.trans hs₂)
      exact hloop (hp.running.trans hrun) hp.lives.active_count (hactive (by decide)).2 eq
    | nativeSched eq =>
      refine ⟨fun _ => (hactive (by decide)).2, fun stage hpc' hne => ?_⟩
      rw [eq, vpSchedule_fiber, ← hrun] at hpc'
      simp only [setPc, Function.update_self] at hpc'
      cases hpc'
      exact absurd rfl hne

end NativeInv

/-- Each step of such a program keeps its invariant. -/
theorem step_native {s s' : St} {l : Label} (h : s.NativeInv) (hl : s.Native l)
    (hstep : s.step l = some s') : s'.NativeInv := by
  have hok := h.ok hl
  refine ⟨step_inv h.inv hok hstep, fun hrun' => ?_, fun stage hpc hne => ?_⟩
  · refine step_active h.inv hok hstep (fun hlt => ?_) hrun'
    by_cases hrun : s.running = 0
    · exact (h.step_main hl hstep hrun).1 hrun'
    · exact h.active (by omega)
  · by_cases hrun : s.running = 0
    · exact (h.step_main hl hstep hrun).2 stage hpc hne
    · rw [(h.inv.change hok hstep).pc_main h.inv.good hrun] at hpc
      exact absurd (h.loop stage hpc hne).1 hrun

/-- At first `main` is in its own code. -/
theorem init_native (pagesize : ℤ) (last_clock : ℕ) : (init pagesize last_clock).NativeInv :=
  ⟨init_inv pagesize last_clock, fun hrun => (by cases hrun), fun _ hpc => (by cases hpc)⟩

/-- `_ST_VP_IDLE` or `_st_vp_check_clock`. -/
def Label.polls : Label → Prop
  | .dispatch _ => True
  | .clock _ => True
  | _ => False

/-- Dispatch and the clock only append to the run queue. -/
theorem step_appends {s s' : St} {l : Label} (hg : s.Good) (hok : s.Ok l) (hl : l.polls)
    (hstep : s.step l = some s') : ∃ w, s'.run_q = s.run_q ++ w := by
  obtain ⟨pc, hpc⟩ : ∃ pc, (s.fiber s.running).pc = pc := ⟨_, rfl⟩
  cases step_goes hpc hstep with
  | idleDispatch outcomes _ s₁ hgo eq =>
    have hrun := hg.running_idle hpc
    obtain ⟨s₂, hs₂, -, -, -, w, hw⟩ := vpIdle_pokes hg (.of_lt hg.own (by omega)) hok
    obtain rfl : s₁ = s₂ := Option.some_inj.mp (hgo.symm.trans hs₂)
    rw [eq]
    exact ⟨w, hw⟩
  | nativeDispatch outcomes _ s₁ hgo eq =>
    have hrun := hg.running_native hpc
    obtain ⟨s₂, hs₂, -, -, -, w, hw⟩ := vpIdle_pokes hg (hg.main_offTurn hrun) hok
    obtain rfl : s₁ = s₂ := Option.some_inj.mp (hgo.symm.trans hs₂)
    rw [eq]
    exact ⟨w, hw⟩
  | idleClock now s₁ hgo eq =>
    obtain ⟨s₂, hs₂, -, -, -, w, hw⟩ := vpCheckClock_pokes hg now
    obtain rfl : s₁ = s₂ := Option.some_inj.mp (hgo.symm.trans hs₂)
    rw [eq]
    exact ⟨w, hw⟩
  | nativeClock now s₁ hgo eq =>
    obtain ⟨s₂, hs₂, -, -, -, w, hw⟩ := vpCheckClock_pokes hg now
    obtain rfl : s₁ = s₂ := Option.some_inj.mp (hgo.symm.trans hs₂)
    rw [eq]
    exact ⟨w, hw⟩
  | _ => exact hl.elim

/-- In each run of a program whose `main` calls `st_idle_thread_run`, as long as no `select` reports
to a thread that is runnable already, each thread is on the run queue at most once, and what dispatch
and the clock append was not on it. -/
theorem run_native_nodup (pagesize : ℤ) (last_clock : ℕ) (ls : List Label) {s : St}
    (hrun : Runs.run step (init pagesize last_clock) ls = some s)
    (hnative : Runs.Meets step Native (init pagesize last_clock) ls) :
    s.run_q.Nodup ∧ ∀ l s', s.Native l → s.step l = some s' → l.polls →
      ∃ w, s'.run_q = s.run_q ++ w ∧ ∀ t ∈ w, t ∉ s.run_q := by
  have h : s.NativeInv := Runs.run_invariant step_native (init_native pagesize last_clock) hnative hrun
  refine ⟨h.inv.good.core.run_nodup, fun l s' hl hstep hpolls => ?_⟩
  obtain ⟨w, hw⟩ := step_appends h.inv.good (h.ok hl) hpolls hstep
  refine ⟨w, hw, fun t ht hmem => ?_⟩
  have hnodup := (step_native h hl hstep).inv.good.core.run_nodup
  rw [hw] at hnodup
  exact (List.nodup_append.mp hnodup).2.2 t hmem t ht rfl

/-- A thread polls, and another one interrupts it and terminates. -/
def interruptsPoller : List Label :=
  [.call (.create false 0 ⟨true, true, true⟩), .call (.create false 0 ⟨true, true, true⟩),
    .call .idleRun, .dispatch fun _ => .ready fun _ => ∅, .clock 0, .resume,
    .call (.poll [⟨5, ⟨true, false, false, false⟩, Events.none⟩] 100), .call (.interrupt 1), .ret 7,
    .resume]

/-- The run is possible. The interrupted thread is on the run queue once. -/
theorem run_native_nodup_interruptsPoller :
    ∃ s, Runs.run step (init 4096 0) interruptsPoller = some s ∧ s.run_q.Nodup ∧ s.run_q = [1] := by
  refine ⟨(Runs.run step (init 4096 0) interruptsPoller).get (by decide), by simp, ?_, by decide⟩
  exact (run_native_nodup 4096 0 interruptsPoller (by simp) (by decide)).1

/-- Then the descriptor is ready, and the thread, which is runnable already, is put on the run queue
once more. -/
theorem run_native_twice : ∃ s s', Runs.run step (init 4096 0) interruptsPoller = some s ∧
    s.step (.dispatch fun _ => .ready fun _ => {5}) = some s' ∧ s.run_q = [1] ∧ s'.run_q = [1, 1] :=
  ⟨(Runs.run step (init 4096 0) interruptsPoller).get (by decide),
    (((Runs.run step (init 4096 0) interruptsPoller).get (by decide)).step
      (.dispatch fun _ => .ready fun _ => {5})).get (by decide), by simp, by simp, by decide, by decide⟩

end StWin.St
