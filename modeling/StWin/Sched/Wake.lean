import StWin.Sched.Ownership

/-!
# Making threads runnable

A thread that waits is made runnable by a signal, by the release of a mutex, by an interrupt, by a
dispatch pass, or by the clock. All of them come down to `wake`: off the timeout heap if it is
there, state `RUNNABLE`, to the tail of the run queue. `wake_eq` gives the resulting state in closed
form, and `woken_core` that it is coherent, if the thread was waiting.

The thread keeps its place on the queue that it waited on, and `woken` changes no program counter.
-/

namespace StWin.St

/-- The state after `t` is made runnable, with the timeout heap `heap`. -/
def woken (s : St) (t : ℕ) (heap : Heap) : St :=
  { s with
    heap := heap
    thread := Function.update s.thread t { s.thread t with
      state := .RUNNABLE, flags := { (s.thread t).flags with on_sleepq := false } }
    run_q := s.run_q ++ [t] }

/-- Off the sleep queue. -/
theorem delSleepQ_eq {s : St} (h : s.SleepOk) {t : ℕ} (hon : (s.thread t).flags.on_sleepq = true) :
    ∃ heap, s.delSleepQ t = some (s.setSleepQ t false heap) ∧ (s.setSleepQ t false heap).SleepOk := by
  obtain ⟨S, hw, hS⟩ := h
  obtain ⟨heap, hrun, hw', -⟩ := Heap.delSleepQ_wf hw ((hS t).mpr hon)
  refine ⟨heap, by rw [delSleepQ, hrun]; rfl, S.erase t, hw', fun u => ?_⟩
  rw [Finset.mem_erase, hS]
  by_cases hu : u = t
  · subst hu
    simp [setSleepQ, setFlags, setThread]
  · simp [setSleepQ, setFlags, setThread, hu]

/-- On the sleep queue. -/
theorem addSleepQ_eq {s : St} (h : s.SleepOk) {t : ℕ} (hoff : (s.thread t).flags.on_sleepq = false)
    (timeout : ℕ) :
    ∃ heap, s.addSleepQ t timeout = some (s.setSleepQ t true heap) ∧
      (s.setSleepQ t true heap).SleepOk := by
  obtain ⟨S, hw, hS⟩ := h
  have ht : t ∉ S := by
    rw [hS, hoff]
    decide
  obtain ⟨heap, hrun, hw', -⟩ := Heap.addSleepQ_wf hw ht s.last_clock timeout
  refine ⟨heap, by rw [addSleepQ, hrun]; rfl, insert t S, hw', fun u => ?_⟩
  rw [Finset.mem_insert, hS]
  by_cases hu : u = t
  · subst hu
    simp [setSleepQ, setFlags, setThread]
  · simp [setSleepQ, setFlags, setThread, hu]

/-- `wake` in closed form. -/
theorem wake_eq {s : St} (h : s.SleepOk) (t : ℕ) :
    ∃ heap, s.wake t = some (s.woken t heap) ∧ (s.woken t heap).SleepOk := by
  unfold wake leaveSleepQ
  by_cases hon : (s.thread t).flags.on_sleepq = true
  · obtain ⟨heap, hrun, hsleep⟩ := delSleepQ_eq h hon
    have heq : ((s.setSleepQ t false heap).setState t .RUNNABLE).addRunq t = s.woken t heap := by
      simp [setSleepQ, setFlags, setState, setThread, addRunq, woken]
    refine ⟨heap, ?_, ?_⟩
    · rw [if_pos hon, hrun, Option.map_some, heq]
    · obtain ⟨S, hw, hS⟩ := hsleep
      refine ⟨S, hw, fun u => (hS u).trans ?_⟩
      by_cases hu : u = t
      · subst hu
        simp [setSleepQ, setFlags, setThread, woken]
      · simp [setSleepQ, setFlags, setThread, woken, hu]
  · rw [Bool.not_eq_true] at hon
    have hfl : { (s.thread t).flags with on_sleepq := false } = (s.thread t).flags := by
      rw [← hon]
    have heq : (s.setState t .RUNNABLE).addRunq t = s.woken t s.heap := by
      simp [setState, setThread, addRunq, woken, hfl]
    refine ⟨s.heap, ?_, ?_⟩
    · rw [hon, if_neg (by decide), Option.map_some, heq]
    · obtain ⟨S, hw, hS⟩ := h
      refine ⟨S, hw, fun u => (hS u).trans ?_⟩
      by_cases hu : u = t
      · subst hu
        simp [woken, hon]
      · simp [woken, hu]

section woken

variable {s : St} {t : ℕ} {heap : Heap}

/-- The other threads keep their places. -/
theorem woken_frame : Frame s (s.woken t heap) t :=
  ((setThread_frame (f := fun th => { th with
    state := .RUNNABLE, flags := { th.flags with on_sleepq := false } }) s t rfl rfl).trans
    (addRunq_frame _ t)).trans (setHeap_frame _ heap t)

/-- The same threads are live. -/
theorem woken_sameLives (hl : s.Live t) : SameLives s (s.woken t heap) :=
  SameLives.of_update rfl rfl rfl rfl rfl (Or.inl hl) (fun _ => rfl) (fun _ _ => rfl) rfl rfl rfl rfl
    rfl rfl rfl rfl

/-- A thread that waits may be made runnable. Its pollq, if it has one, no longer counts as yet to
be woken. -/
theorem woken_core {p p' : List ℕ} (h : s.Core p) (hl : s.Live t)
    (hrun : (s.thread t).state ≠ .RUNNABLE)
    (hp : ∀ q ∈ p, (s.ev.pollq q).thread ≠ t → q ∈ p') (hsleep : (s.woken t heap).SleepOk) :
    (s.woken t heap).Core p' := by
  have hlives : SameLives s (s.woken t heap) := woken_sameLives hl
  have hlive := hlives.live t
  have hrec := h.recs t
  have hid : ((s.woken t heap).thread t).id = (s.thread t).id := by simp [woken]
  have hpc : (s.woken t heap).pcOf t = s.pcOf t := by
    unfold pcOf
    rw [hid]
    rfl
  -- Only the state, the flag `ON_SLEEPQ` and the run queue change.
  have hstate : ((s.woken t heap).thread t).state = .RUNNABLE := by simp [woken]
  refine h.move woken_frame ⟨?_, ?_, ?_, ?_, ?_, ?_, ?_, ?_⟩ hp ?_ h.cond_nodup h.wait_nodup hsleep
    h.ev
  · rw [hlive, hstate]
    simp [woken, hl]
  · intro c
    rw [hlive, hpc]
    exact hrec.cond_q c
  · intro m
    rw [hlive, hpc]
    exact hrec.wait_q m
  · intro q hq howner
    rw [hlive, hpc]
    exact hrec.io_q q hq howner
  · intro hon
    simp [woken] at hon
  · intro _
    rw [hid]
    simpa [woken] using hrec.context hl
  · intro _
    rw [hpc, (woken_sameLives hl).pcFits rfl]
    exact hrec.pc hl
  · intro _
    rw [hstate]
    trivial
  · -- It was not runnable, so it was not on the run queue.
    have hnot : t ∉ s.run_q := fun hmem => hrun (hrec.run_q.mp hmem).2
    exact h.run_nodup.append (List.nodup_singleton t) (by simpa using hnot)

end woken

/-! ## Flags -/

section setFlags

variable {s : St} {t : ℕ} {f : Flags → Flags}

/-- Changes of the flags `INTERRUPT` and `TIMEDOUT`. -/
structure FlagsOk (f : Flags → Flags) : Prop where
  on_sleepq : ∀ fl, (f fl).on_sleepq = fl.on_sleepq
  primordial : ∀ fl, (f fl).primordial = fl.primordial

/-- The records after a write to the flags of one of them. -/
theorem setFlags_thread (s : St) (t : ℕ) (f : Flags → Flags) (u : ℕ) :
    (s.setFlags t f).thread u =
      if u = t then { s.thread t with flags := f (s.thread t).flags } else s.thread u := by
  simp only [setFlags, setThread, Function.update_apply]

/-- A write to the flags leaves the same threads live. -/
theorem setFlags_sameLives (hf : FlagsOk f) : SameLives s (s.setFlags t f) :=
  SameLives.of_update rfl rfl rfl rfl (hf.primordial _) (Or.inr (Or.inl rfl)) (fun _ => rfl)
    (fun _ _ => rfl) rfl rfl rfl rfl rfl rfl rfl rfl

/-- A write to the flags leaves the queues in order. -/
theorem setFlags_core {p : List ℕ} (h : s.Core p) (hf : FlagsOk f) : (s.setFlags t f).Core p := by
  have hlive := (setFlags_sameLives hf (s := s) (t := t)).live t
  have hrec := h.recs t
  have hth : (s.setFlags t f).thread t = { s.thread t with flags := f (s.thread t).flags } := by
    rw [setFlags_thread, if_pos rfl]
  have hpc : (s.setFlags t f).pcOf t = s.pcOf t := by
    unfold pcOf
    rw [hth]
    rfl
  -- No queue moves: each link is read off the old record.
  refine h.move (setThread_frame s t rfl rfl) ⟨?_, ?_, ?_, ?_, ?_, ?_, ?_, ?_⟩ (fun _ h _ => h) h.run_nodup
    h.cond_nodup h.wait_nodup ?_ h.ev
  · rw [hlive, hth]
    exact hrec.run_q
  · intro c
    rw [hlive, hpc]
    exact hrec.cond_q c
  · intro m
    rw [hlive, hpc]
    exact hrec.wait_q m
  · intro q hq howner
    rw [hlive, hpc]
    exact hrec.io_q q hq howner
  · rw [hth, hlive]
    dsimp only
    rw [hf.on_sleepq]
    exact hrec.sleep_q
  · rw [hlive, hth]
    exact hrec.context
  · rw [hlive, hpc, (setFlags_sameLives hf).pcFits rfl]
    exact hrec.pc
  · -- What a state asks of its thread: the flags come in by `ON_SLEEPQ` only.
    intro hl
    have hfits := hrec.state (hlive.mp hl)
    rw [hth]
    dsimp only
    cases hst : (s.thread t).state with
    | RUNNING =>
      rw [hst] at hfits
      rw [StateFits, hth]
      exact hfits
    | RUNNABLE => trivial
    | ZOMBIE =>
      rw [hst] at hfits
      exact hfits
    | _ =>
      rw [hst] at hfits
      simp only [StateFits, hpc, hth, hf.on_sleepq] at hfits ⊢
      exact hfits
  · -- The heap holds the threads with `ON_SLEEPQ`, and that flag stays.
    obtain ⟨S, hw, hS⟩ := h.sleep
    refine ⟨S, hw, fun u => (hS u).trans ?_⟩
    rw [setFlags_thread]
    split_ifs with hu
    · rw [hu]
      dsimp only
      rw [hf.on_sleepq]
    · rfl

end setFlags

/-! ## Several threads -/

/-- From `s` to `s'` the threads of `l`, which waited with a timeout or on a condition variable, were
made runnable, in that order. -/
structure Wakes (s s' : St) (l : List ℕ) : Prop where
  lives : SameLives s s'
  run_q : s'.run_q = s.run_q ++ l
  same : ∀ t, t ∉ l → s'.thread t = s.thread t
  state : ∀ t ∈ l, s.Live t ∧ (s'.thread t).state = .RUNNABLE ∧
    ((s.thread t).state = .SLEEPING ∨ (s.thread t).state = .IO_WAIT ∨
      (s.thread t).state = .COND_WAIT)
  interrupt : ∀ t, (s'.thread t).flags.interrupt = (s.thread t).flags.interrupt
  fiber : s'.fiber = s.fiber
  running : s'.running = s.running
  this_thread : s'.this_thread = s.this_thread
  ev : s'.ev = s.ev
  cond_q : s'.cond_q = s.cond_q
  mutex : s'.mutex = s.mutex
  terms : s'.terms = s.terms
  log : s'.log = s.log

namespace Wakes

/-- Nobody was woken. -/
theorem refl (s : St) : Wakes s s [] :=
  ⟨SameLives.refl s, by simp, fun _ _ => rfl, by simp, fun _ => rfl, rfl, rfl, rfl, rfl, rfl, rfl,
    rfl, rfl⟩

/-- Threads are woken, and then some more. -/
theorem trans {s s' s'' : St} {l l' : List ℕ} (h : Wakes s s' l) (h' : Wakes s' s'' l') :
    Wakes s s'' (l ++ l') where
  lives := h.lives.trans h'.lives h.running
  run_q := by rw [h'.run_q, h.run_q, List.append_assoc]
  same t ht := by
    rw [List.mem_append, not_or] at ht
    rw [h'.same t ht.2, h.same t ht.1]
  state t ht := by
    by_cases hl : t ∈ l
    · obtain ⟨hlive, hst, hwas⟩ := h.state t hl
      refine ⟨hlive, ?_, hwas⟩
      by_cases hl' : t ∈ l'
      · exact (h'.state t hl').2.1
      · rw [h'.same t hl']
        exact hst
    · obtain ⟨hlive, hst, hwas⟩ := h'.state t ((List.mem_append.mp ht).resolve_left hl)
      rw [h.same t hl] at hwas
      exact ⟨(h.lives.live t).mp hlive, hst, hwas⟩
  interrupt t := (h'.interrupt t).trans (h.interrupt t)
  fiber := h'.fiber.trans h.fiber
  running := h'.running.trans h.running
  this_thread := h'.this_thread.trans h.this_thread
  ev := h'.ev.trans h.ev
  cond_q := h'.cond_q.trans h.cond_q
  mutex := h'.mutex.trans h.mutex
  terms := h'.terms.trans h.terms
  log := h'.log.trans h.log

/-- One thread. -/
theorem single {s : St} {t : ℕ} {heap : Heap} (hl : s.Live t)
    (hst : (s.thread t).state = .SLEEPING ∨ (s.thread t).state = .IO_WAIT ∨
      (s.thread t).state = .COND_WAIT) : Wakes s (s.woken t heap) [t] := by
  refine ⟨woken_sameLives hl, rfl, fun u hu => ?_, fun u hu => ?_, fun u => ?_, rfl, rfl, rfl, rfl,
    rfl, rfl, rfl, rfl⟩
  · exact Function.update_of_ne (by simpa using hu) _ _
  · rw [List.mem_singleton] at hu
    subst hu
    exact ⟨hl, by simp [woken], hst⟩
  · by_cases hu : u = t
    · subst hu
      simp [woken]
    · simp [woken, hu]

end Wakes

/-- The loop of `_st_cond_signal`, over links of live threads. -/
theorem condSignalLoop_core {p : List ℕ} (broadcast : Bool) (q : List ℕ) :
    ∀ {s : St}, s.Core p → (∀ t ∈ q, s.Live t) →
      ∃ s' l, condSignalLoop broadcast q s = some s' ∧ s'.Core p ∧ Wakes s s' l := by
  induction q with
  | nil =>
    intro s h _
    exact ⟨s, [], rfl, h, Wakes.refl s⟩
  | cons t q ih =>
    intro s h hlive
    have hl := hlive t List.mem_cons_self
    have hrest := fun u hu => hlive u (List.mem_cons_of_mem t hu)
    rw [condSignalLoop]
    split_ifs with hst hb
    · obtain ⟨heap, hrun, hsleep⟩ := wake_eq h.sleep t
      have hw : Wakes s (s.woken t heap) [t] := Wakes.single hl (Or.inr (Or.inr hst))
      have hc : (s.woken t heap).Core p :=
        woken_core h hl (by rw [hst]; decide) (fun _ h _ => h) hsleep
      obtain ⟨s', l, hrun', hc', hw'⟩ := ih hc fun u hu => (hw.lives.live u).mpr (hrest u hu)
      refine ⟨s', [t] ++ l, ?_, hc', hw.trans hw'⟩
      rw [hrun, Option.bind_eq_bind, Option.bind_some]
      exact hrun'
    · obtain ⟨heap, hrun, hsleep⟩ := wake_eq h.sleep t
      refine ⟨_, [t], ?_, woken_core h hl (by rw [hst]; decide) (fun _ h _ => h) hsleep,
        Wakes.single hl (Or.inr (Or.inr hst))⟩
      rw [hrun, Option.bind_eq_bind, Option.bind_some]
    · exact ih h hrest

/-- `_st_cond_signal`. -/
theorem condSignal_core {p : List ℕ} {s : St} (h : s.Core p) (c : Cond) (broadcast : Bool) :
    ∃ s' l, s.condSignal c broadcast = some s' ∧ s'.Core p ∧ Wakes s s' l :=
  condSignalLoop_core broadcast _ h fun t ht => (((h.recs t).cond_q c).mp ht).1

/-! ## The clock -/

/-- The flag that `_st_vp_check_clock` sets for a thread that waits on a condition variable. -/
def timeOut (s : St) (t : ℕ) : St :=
  if (s.thread t).state = .COND_WAIT then s.setFlags t fun fl => { fl with timedout := true } else s

/-- The flag of a timeout may be written. -/
theorem flagsOk_timedout : FlagsOk fun fl => { fl with timedout := true } :=
  ⟨fun _ => rfl, fun _ => rfl⟩

/-- The flag of a timeout leaves the queues in order. -/
theorem timeOut_core {p : List ℕ} {s : St} (h : s.Core p) (t : ℕ) : (s.timeOut t).Core p := by
  unfold timeOut
  split_ifs
  · exact setFlags_core h flagsOk_timedout
  · exact h

/-- The order of the clock's assignments does not matter. -/
theorem clock_body_eq {s : St} {t : ℕ} (hon : (s.thread t).flags.on_sleepq = true) :
    ((s.delSleepQ t).map fun s =>
      ((if (s.thread t).state = .COND_WAIT then s.setFlags t fun fl => { fl with timedout := true }
        else s).setState t .RUNNABLE).addRunq t) = (s.timeOut t).wake t := by
  have hon' : ((s.timeOut t).thread t).flags.on_sleepq = true := by
    unfold timeOut
    split_ifs
    · rw [setFlags_thread, if_pos rfl]
      exact hon
    · exact hon
  have hheap : (s.timeOut t).heap = s.heap := by
    unfold timeOut
    split_ifs <;> rfl
  unfold wake leaveSleepQ
  rw [if_pos hon', delSleepQ, delSleepQ, hheap, Option.map_map, Option.map_map]
  congr 1
  funext heap
  unfold timeOut
  by_cases hst : (s.thread t).state = .COND_WAIT
  · simp [Function.comp, setSleepQ, setFlags, setState, setThread, addRunq, hst]
  · simp [Function.comp, setSleepQ, setFlags, setState, setThread, addRunq, hst]

/-- A thread whose time has come is woken. -/
theorem timeOut_wakes {s : St} {t : ℕ} {heap : Heap} (hl : s.Live t)
    (hst : (s.thread t).state = .SLEEPING ∨ (s.thread t).state = .IO_WAIT ∨
      (s.thread t).state = .COND_WAIT) : Wakes s ((s.timeOut t).woken t heap) [t] := by
  unfold timeOut
  split_ifs
  · let th : Thread := { s.thread t with
      state := .RUNNABLE
      flags := { (s.thread t).flags with on_sleepq := false, timedout := true } }
    refine ⟨@SameLives.of_update _ _ t th ?_ rfl rfl rfl rfl
      (Or.inl hl) (fun _ => rfl) (fun _ _ => rfl) rfl rfl rfl rfl rfl rfl rfl rfl, rfl, fun u hu => ?_,
      fun u hu => ?_, fun u => ?_, rfl, rfl, rfl, rfl, rfl, rfl, rfl, rfl⟩
    · simp [woken, setFlags, setThread, th]
    · have hu : u ≠ t := by simpa using hu
      simp [woken, setFlags, setThread, hu]
    · rw [List.mem_singleton] at hu
      subst hu
      exact ⟨hl, by simp [woken], hst⟩
    · by_cases hu : u = t
      · subst hu
        simp [woken, setFlags, setThread]
      · simp [woken, setFlags, setThread, hu]
  · exact Wakes.single hl hst

/-- The flags `ON_SLEEPQ` after one iteration of the clock's loop. -/
theorem timeOut_woken_on_sleepq (s : St) (t : ℕ) (heap : Heap) (u : ℕ) :
    (((s.timeOut t).woken t heap).thread u).flags.on_sleepq = true ↔
      u ≠ t ∧ (s.thread u).flags.on_sleepq = true := by
  by_cases hu : u = t
  · subst hu
    simp [woken]
  · unfold timeOut
    split_ifs <;> simp [woken, setFlags, setThread, hu]

/-- The loop of `_st_vp_check_clock`: it ends within the size of the heap. -/
theorem checkClockLoop_core (now fuel : ℕ) : ∀ {s : St} {S : Finset ℕ}, s.Core [] →
    Heap.Wf s.heap S → (∀ t, t ∈ S ↔ (s.thread t).flags.on_sleepq = true) → S.card < fuel →
    ∃ s' l, checkClockLoop now fuel s = some s' ∧ s'.Core [] ∧ Wakes s s' l := by
  induction fuel with
  | zero =>
    intro s S _ _ _ hfuel
    exact absurd hfuel (Nat.not_lt_zero _)
  | succ fuel ih =>
    intro s S h hw hS hfuel
    rw [checkClockLoop]
    cases hroot : s.heap.sleep_q with
    | none => exact ⟨s, [], rfl, h, Wakes.refl s⟩
    | some t =>
      dsimp only
      split_ifs with hdue
      · exact ⟨s, [], rfl, h, Wakes.refl s⟩
      · have htS : t ∈ S := (hw.root.2 t hroot).1
        have hon := (hS t).mp htS
        obtain ⟨hl, hst⟩ := (h.recs t).sleep_q hon
        -- One iteration is `wake`, after the flag for a timeout.
        have hto := timeOut_core h t
        obtain ⟨heap, hrun, hsleep⟩ := wake_eq hto.sleep t
        have hwakes : Wakes s ((s.timeOut t).woken t heap) [t] := timeOut_wakes hl hst
        have hsame : ((s.timeOut t).thread t).state = (s.thread t).state ∧
            ((s.timeOut t).Live t ↔ s.Live t) := by
          unfold timeOut
          split_ifs
          · rw [setFlags_thread, if_pos rfl]
            exact ⟨rfl, (setFlags_sameLives flagsOk_timedout).live t⟩
          · exact ⟨rfl, Iff.rfl⟩
        have hc : ((s.timeOut t).woken t heap).Core [] := by
          refine woken_core hto (hsame.2.mpr hl) ?_ (fun _ h _ => h) hsleep
          rw [hsame.1]
          rcases hst with hst | hst | hst <;> rw [hst] <;> decide
        obtain ⟨S', hw', hS'⟩ := hsleep
        have hSS' : S' = S.erase t := by
          ext u
          rw [hS', timeOut_woken_on_sleepq, Finset.mem_erase, hS]
        obtain ⟨s', l, hrun', hc', hwakes'⟩ := ih hc hw' hS' (by
          rw [hSS', Finset.card_erase_of_mem htS]
          have := Finset.card_pos.mpr ⟨t, htS⟩
          omega)
        refine ⟨s', [t] ++ l, ?_, hc', hwakes.trans hwakes'⟩
        have hbody := clock_body_eq hon
        rw [hrun] at hbody
        obtain ⟨s₁, hs₁, heq₁⟩ := Option.map_eq_some_iff.mp hbody
        rw [hs₁, Option.bind_eq_bind, Option.bind_some, heq₁]
        exact hrun'

/-- `_st_vp_check_clock`. -/
theorem vpCheckClock_core {s : St} (h : s.Core []) (now : ℕ) :
    ∃ s' l, s.vpCheckClock now = some s' ∧ s'.Core [] ∧
      Wakes { s with last_clock := now } s' l := by
  have hc : { s with last_clock := now }.Core [] :=
    h.congr rfl rfl rfl rfl (fun _ => rfl) rfl rfl rfl rfl rfl rfl
  obtain ⟨S, hw, hS⟩ := h.sleep
  exact checkClockLoop_core now _ hc hw hS (Nat.lt_succ_of_le hw.card_le)

/-! ## Dispatch -/

/-- A pollq whose thread has been notified but not yet made runnable. -/
structure Pending (s : St) (q : ℕ) : Prop where
  live : s.Live (s.ev.pollq q).thread
  state : (s.thread (s.ev.pollq q).thread).state = .IO_WAIT
  pc : s.pcOf (s.ev.pollq q).thread = .poll (s.ev.pollq q).thread q

/-- The event system's part of a dispatch pass that notifies only threads in `IO_WAIT`. -/
theorem notified_core {s : St} {ev : Ev} {w : List ℕ} (h : s.Core []) (hn : Ev.Notified s.ev ev w)
    (hc : Ev.Counted ev) : (s.setEv ev).Core w := by
  refine ⟨fun t => ?_, h.run_nodup, h.cond_nodup, h.wait_nodup, h.sleep, hc⟩
  have hrec := h.recs t
  refine ⟨hrec.run_q, hrec.cond_q, hrec.wait_q, ?_, hrec.sleep_q, hrec.context, ?_, ?_⟩
  · intro q hq howner
    rw [setEv_ev, hn.io_q] at hq
    rw [setEv_ev, hn.same.thread] at howner
    exact hrec.io_q q (List.mem_of_mem_filter hq) howner
  · -- A poller whose `on_ioq` is still set was not notified.
    intro hl
    have hfits := hrec.pc hl
    change (s.setEv ev).PcFits t (s.pcOf t)
    cases hpc : s.pcOf t with
    | poll me q =>
      rw [hpc] at hfits
      obtain ⟨hme, howner, hlt, hio⟩ := hfits
      refine ⟨hme, (hn.same.thread q).trans howner, hn.same.next ▸ hlt, fun hon => ?_⟩
      rw [setEv_ev] at hon ⊢
      have hw : q ∉ w := by
        intro hw
        rw [hn.off q hw] at hon
        cases hon
      rw [hn.keep q hw] at hon
      rw [hn.io_q, List.mem_filter]
      exact ⟨hio hon, by simpa using hw⟩
    | _ =>
      rw [hpc] at hfits
      exact hfits
  · -- A waiter in `IO_WAIT` is on the I/O queue still, or among those that are about to be woken.
    intro hl
    have hfits := hrec.state hl
    change (s.setEv ev).StateFits w t (s.thread t).state
    cases hst : (s.thread t).state with
    | IO_WAIT =>
      rw [hst] at hfits
      obtain ⟨hon, q, hpc, hio⟩ := hfits
      refine ⟨hon, q, hpc, ?_⟩
      rw [setEv_ev]
      by_cases hw : q ∈ w
      · exact Or.inr hw
      · rw [hn.keep q hw]
        exact Or.inl (hio.resolve_right (by simp))
    | _ =>
      rw [hst] at hfits
      exact hfits

/-- The notified threads are made runnable, one after another. -/
theorem wakePending_core (w : List ℕ) : ∀ {s : St}, s.Core w → w.Nodup → (∀ q ∈ w, s.Pending q) →
    ∃ s', w.foldlM (fun s pq => s.wake (s.ev.pollq pq).thread) s = some s' ∧ s'.Core [] ∧
      Wakes s s' (w.map fun q => (s.ev.pollq q).thread) := by
  induction w with
  | nil =>
    intro s h _ _
    exact ⟨s, rfl, h, Wakes.refl s⟩
  | cons q w ih =>
    intro s h hnd hpend
    obtain ⟨hqw, hnd'⟩ := List.nodup_cons.mp hnd
    have hq := hpend q List.mem_cons_self
    generalize ht : (s.ev.pollq q).thread = t at hq
    have hlive := ht ▸ hq.live
    have hstate := ht ▸ hq.state
    have hpc := ht ▸ hq.pc
    obtain ⟨heap, hrun, hsleep⟩ := wake_eq h.sleep t
    have hw : Wakes s (s.woken t heap) [t] := Wakes.single hlive (Or.inr (Or.inl hstate))
    have hc : (s.woken t heap).Core w := by
      refine woken_core h hlive (by rw [hstate]; decide) (fun q' hq' hne => ?_) hsleep
      rcases List.mem_cons.mp hq' with rfl | hq'
      · exact absurd ht hne
      · exact hq'
    -- The other pollqs belong to other threads.
    have hpend' : ∀ q' ∈ w, (s.woken t heap).Pending q' := by
      intro q' hq'
      have hp := hpend q' (List.mem_cons_of_mem q hq')
      have hne : (s.ev.pollq q').thread ≠ t := by
        intro heq
        have hpc' := hp.pc
        rw [heq, hpc, Pc.poll.injEq] at hpc'
        exact hqw (hpc'.2 ▸ hq')
      refine ⟨(hw.lives.live _).mpr hp.live, ?_, ?_⟩
      · rw [hw.same _ (by simpa [hw.ev] using hne)]
        exact hp.state
      · have hframe : Frame s (s.woken t heap) t := woken_frame
        exact (hframe.pc _ hne hp.live).trans hp.pc
    obtain ⟨s', hrun', hc', hw'⟩ := ih hc hnd' hpend'
    refine ⟨s', ?_, hc', ?_⟩
    · rw [List.foldlM_cons, ht, hrun, Option.bind_eq_bind, Option.bind_some]
      exact hrun'
    · rw [List.map_cons, ht]
      exact hw.trans hw'

/-- `_ST_VP_IDLE`, when every thread that it notifies is in `IO_WAIT`. -/
theorem vpIdle_core {s : St} (h : s.Core []) (outcomes : ℕ → SelectOutcome)
    (hio : ∀ q ∈ (s.ev.dispatch outcomes).2, (s.thread (s.ev.pollq q).thread).state = .IO_WAIT) :
    ∃ s' l, s.vpIdle outcomes = some s' ∧ s'.Core [] ∧
      Wakes (s.setEv (s.ev.dispatch outcomes).1) s' l := by
  obtain ⟨hn, hc⟩ := Ev.dispatch_counted h.ev outcomes
  have hcore := notified_core h hn hc
  have hpend : ∀ q ∈ (s.ev.dispatch outcomes).2,
      (s.setEv (s.ev.dispatch outcomes).1).Pending q := by
    intro q hq
    obtain ⟨hl, hpc⟩ := (h.recs _).io_q q (hn.mem q hq) rfl
    have hthread := hn.same.thread q
    refine ⟨?_, ?_, ?_⟩
    · rw [setEv_ev, hthread]
      exact hl
    · rw [setEv_ev, hthread]
      exact hio q hq
    · rw [setEv_ev, hthread]
      exact hpc
  obtain ⟨s', hrun, hc', hw⟩ := wakePending_core _ hcore hn.nodup hpend
  exact ⟨s', _, hrun, hc', hw⟩

end StWin.St
