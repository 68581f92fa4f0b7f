import StWin.Heap.Points
import StWin.Event.Owner
import StWin.Sched.Plain
import StWin.Sched.Others

/-!
# Steps that only pass the turn on

The library makes a thread runnable if it has a pointer to its record, in `_st_this_thread`, in a pollq on
the I/O queue, or in the timeout heap, or if the thread's state tells that it waits: it looks at that before
it wakes a thread from another queue or for a caller. `Names P` says that all these records have the
property `P`.

Whatever the state, a step outside of `st_thread_create` and `st_thread_exit` keeps `Names P`. It keeps the
threads, their stacks and their fibers as well, and leaves the turn alone but for a call of
`_st_vp_schedule` at its end. `Passes` says so, and `step_kinds` that there are no other steps.
-/

namespace StWin

/-- The place is one in which `st_thread_exit` has been entered for the last time. -/
def Pc.over : Pc → Bool
  | .exitTerm _ _ => true
  | .exitEnd _ => true
  | .out => true
  | _ => false

/-- The place is in the loop of `_st_idle_thread_start`. -/
def Pc.idles : Pc → Bool
  | .idle _ => true
  | _ => false

namespace St

/-- The records that the library has pointers to, and may make runnable, have the property `P`. -/
structure Names (P : ℕ → Prop) (s : St) : Prop where
  this : ∀ t, s.this_thread = some t → P t
  idle : P s.idle_thread
  state : ∀ t, (s.thread t).state ≠ .RUNNING → P t
  pollq : ∀ q ∈ s.ev.io_q, P (s.ev.pollq q).thread
  heap : s.heap.PointsTo P

/-- The property may be replaced by a weaker one. -/
theorem Names.mono {P Q : ℕ → Prop} {s : St} (hPQ : ∀ t, P t → Q t) (h : s.Names P) : s.Names Q :=
  ⟨fun t ht => hPQ t (h.this t ht), hPQ _ h.idle, fun t ht => hPQ t (h.state t ht),
    fun q hq => hPQ _ (h.pollq q hq), h.heap.mono hPQ⟩

/-- From `s` to `s'` the records have kept their threads and fibers, and only records with the property
`P` were given another state or another pointer to them. -/
structure SameRecords (P : ℕ → Prop) (s s' : St) : Prop where
  id : ∀ t, (s'.thread t).id = (s.thread t).id
  context : ∀ t, (s'.thread t).context = (s.thread t).context
  state : ∀ t, (s'.thread t).state = (s.thread t).state ∨ P t
  pollq : ∀ q ∈ s'.ev.io_q, (q ∈ s.ev.io_q ∧ (s'.ev.pollq q).thread = (s.ev.pollq q).thread) ∨
    P (s'.ev.pollq q).thread
  heap : s.heap.PointsTo P → s'.heap.PointsTo P
  thd : ∀ f, (s'.fiber f).thd = (s.fiber f).thd
  idle_thread : s'.idle_thread = s.idle_thread
  segments : s'.segments = s.segments
  created : s'.created = s.created
  /-- No start function has returned. -/
  returned : ∀ f v, .returned f v ∈ s'.log → .returned f v ∈ s.log

namespace SameRecords

variable {P : ℕ → Prop}

/-- Nothing has been done. -/
theorem refl (s : St) : SameRecords P s s :=
  ⟨fun _ => rfl, fun _ => rfl, fun _ => Or.inl rfl, fun _ hq => Or.inl ⟨hq, rfl⟩, fun h => h, fun _ => rfl,
    rfl, rfl, rfl, fun _ _ h => h⟩

/-- One after the other. -/
theorem trans {s s' s'' : St} (h : SameRecords P s s') (h' : SameRecords P s' s'') :
    SameRecords P s s'' where
  id t := (h'.id t).trans (h.id t)
  context t := (h'.context t).trans (h.context t)
  state t := by
    rcases h'.state t with hst | hP
    · rw [hst]
      exact h.state t
    · exact Or.inr hP
  pollq q hq := by
    rcases h'.pollq q hq with ⟨hold, hsame⟩ | hP
    · rw [hsame]
      exact h.pollq q hold
    · exact Or.inr hP
  heap hp := h'.heap (h.heap hp)
  thd f := (h'.thd f).trans (h.thd f)
  idle_thread := h'.idle_thread.trans h.idle_thread
  segments := h'.segments.trans h.segments
  created := h'.created.trans h.created
  returned f v hmem := h.returned f v (h'.returned f v hmem)

/-- The library still has pointers to such records only. -/
theorem names {s s' : St} (h : SameRecords P s s') (hn : s.Names P)
    (hthis : ∀ t, s'.this_thread = some t → P t) : s'.Names P where
  this := hthis
  idle := by
    rw [h.idle_thread]
    exact hn.idle
  state t ht := by
    rcases h.state t with hst | hP
    · rw [hst] at ht
      exact hn.state t ht
    · exact hP
  pollq q hq := by
    rcases h.pollq q hq with ⟨hold, hsame⟩ | hP
    · rw [hsame]
      exact hn.pollq q hold
    · exact hP
  heap := h.heap hn.heap

/-- Neither the records nor the pointers to them are assigned to. -/
theorem of_eq {s s' : St} (hthread : s'.thread = s.thread) (hev : s'.ev = s.ev) (hheap : s'.heap = s.heap)
    (hthd : ∀ f, (s'.fiber f).thd = (s.fiber f).thd) (hidle : s'.idle_thread = s.idle_thread)
    (hsegments : s'.segments = s.segments) (hcreated : s'.created = s.created) (hlog : s'.log = s.log) :
    SameRecords P s s' :=
  ⟨fun t => by rw [hthread], fun t => by rw [hthread], fun t => Or.inl (by rw [hthread]),
    fun q hq => Or.inl ⟨hev ▸ hq, by rw [hev]⟩, fun h => hheap ▸ h, hthd, hidle, hsegments, hcreated,
    fun f v h => hlog ▸ h⟩

/-- An assignment to a record that keeps its thread and its fiber. -/
theorem setThread (s : St) (t : ℕ) {f : Thread → Thread} (hid : ∀ th, (f th).id = th.id)
    (hcontext : ∀ th, (f th).context = th.context) (hstate : ∀ th, (f th).state = th.state ∨ P t) :
    SameRecords P s (s.setThread t f) := by
  have hth : ∀ u, (s.setThread t f).thread u = if u = t then f (s.thread t) else s.thread u := by
    intro u
    simp only [St.setThread, Function.update_apply]
  refine ⟨fun u => ?_, fun u => ?_, fun u => ?_, fun _ hq => Or.inl ⟨hq, rfl⟩, fun h => h, fun _ => rfl,
    rfl, rfl, rfl, fun _ _ h => h⟩
  all_goals
    rw [hth]
    split_ifs with hu
  · rw [hu, hid]
  · rfl
  · rw [hu, hcontext]
  · rfl
  · rw [hu]
    exact hstate _
  · exact Or.inl rfl

/-- The running fiber goes on at another place. -/
theorem setPc (s : St) (pc : Pc) : SameRecords P s (s.setPc pc) := by
  refine .of_eq rfl rfl rfl (fun f => ?_) rfl rfl rfl rfl
  by_cases hf : f = s.running
  · simp [St.setPc, hf]
  · simp [St.setPc, hf]

end SameRecords

/-- From `s` to `s'` the running fiber has gone on: nobody terminated, and nobody was switched to. -/
structure Stays (P : ℕ → Prop) (s s' : St) : Prop extends SameRecords P s s' where
  pc : ∀ f, (s'.fiber f).pc = (s.fiber f).pc ∨ (f = s.running ∧ (s'.fiber f).pc.over = false ∧
    ((s'.fiber f).pc.idles = true → (s.fiber f).pc.idles = true))
  this_thread : s'.this_thread = s.this_thread
  running : s'.running = s.running
  free_stacks : s'.free_stacks = s.free_stacks
  life : s'.life = s.life

namespace Stays

variable {P : ℕ → Prop}

/-- Only records are assigned to, or pointers to them. -/
theorem of_records {s s' : St} (h : SameRecords P s s') (hfiber : s'.fiber = s.fiber)
    (hthis : s'.this_thread = s.this_thread) (hrunning : s'.running = s.running)
    (hfree : s'.free_stacks = s.free_stacks) (hlife : s'.life = s.life) : Stays P s s' :=
  ⟨h, fun f => Or.inl (by rw [hfiber]), hthis, hrunning, hfree, hlife⟩

/-- Nothing has been done. -/
theorem refl (s : St) : Stays P s s := of_records (.refl s) rfl rfl rfl rfl rfl

/-- One after the other. -/
theorem trans {s s' s'' : St} (h : Stays P s s') (h' : Stays P s' s'') : Stays P s s'' where
  toSameRecords := h.toSameRecords.trans h'.toSameRecords
  pc f := by
    rcases h'.pc f with hsame | ⟨hf, hin, hidle⟩
    · rw [hsame]
      exact h.pc f
    · refine Or.inr ⟨hf.trans h.running, hin, fun hi => ?_⟩
      rcases h.pc f with hsame | ⟨-, -, hidle'⟩
      · rw [← hsame]
        exact hidle hi
      · exact hidle' (hidle hi)
  this_thread := h'.this_thread.trans h.this_thread
  running := h'.running.trans h.running
  free_stacks := h'.free_stacks.trans h.free_stacks
  life := h'.life.trans h.life

/-- The library still has pointers to such records only. -/
theorem names {s s' : St} (h : Stays P s s') (hn : s.Names P) : s'.Names P :=
  h.toSameRecords.names hn fun t ht => hn.this t (h.this_thread ▸ ht)

/-- Assignments to parts of the state that do not matter here. -/
theorem of_rest {s s' : St} (h : s' = { s with
    run_q := s'.run_q
    zombie_q := s'.zombie_q
    last_clock := s'.last_clock
    cond_q := s'.cond_q
    mutex := s'.mutex }) : Stays P s s' := by
  rw [h]
  exact of_records (.of_eq rfl rfl rfl (fun _ => rfl) rfl rfl rfl rfl) rfl rfl rfl rfl rfl

/-- An event is recorded that is not the return of a start function. -/
theorem note (s : St) {n : Note} (hn : ∀ f v, n ≠ .returned f v) : Stays P s (s.note n) := by
  refine of_records ⟨fun _ => rfl, fun _ => rfl, fun _ => Or.inl rfl, fun _ hq => Or.inl ⟨hq, rfl⟩, fun h => h,
    fun _ => rfl, rfl, rfl, rfl, fun f v hmem => ?_⟩ rfl rfl rfl rfl rfl
  exact (List.mem_cons.mp hmem).resolve_left fun heq => hn f v heq.symm

/-- An assignment to a record that keeps its thread and its fiber. -/
theorem setThread (s : St) (t : ℕ) {f : Thread → Thread} (hid : ∀ th, (f th).id = th.id)
    (hcontext : ∀ th, (f th).context = th.context) (hstate : ∀ th, (f th).state = th.state ∨ P t) :
    Stays P s (s.setThread t f) :=
  of_records (.setThread s t hid hcontext hstate) rfl rfl rfl rfl rfl

/-- An assignment of the state of one of the records. -/
theorem setState (s : St) {t : ℕ} (ht : P t) (state : TState) : Stays P s (s.setState t state) :=
  setThread s t (fun _ => rfl) (fun _ => rfl) fun _ => Or.inr ht

/-- An assignment to the flags. -/
theorem setFlags (s : St) (t : ℕ) (f : Flags → Flags) : Stays P s (s.setFlags t f) :=
  setThread s t (fun _ => rfl) (fun _ => rfl) fun _ => Or.inl rfl

/-- An assignment to the timeout heap. -/
theorem setHeap (s : St) {heap : Heap} (h : s.heap.PointsTo P → heap.PointsTo P) :
    Stays P s { s with heap := heap } :=
  of_records ⟨fun _ => rfl, fun _ => rfl, fun _ => Or.inl rfl, fun _ hq => Or.inl ⟨hq, rfl⟩, h, fun _ => rfl,
    rfl, rfl, rfl, fun _ _ h => h⟩ rfl rfl rfl rfl rfl

/-- An assignment to the timeout heap and its flag. -/
theorem setSleepQ (s : St) (t : ℕ) (b : Bool) {heap : Heap}
    (h : s.heap.PointsTo P → heap.PointsTo P) : Stays P s (s.setSleepQ t b heap) :=
  (setFlags s t fun fl => { fl with on_sleepq := b }).trans (setHeap _ h)

/-- An assignment to the event system whose pollqs are old ones, or have one of the records. -/
theorem setEv (s : St) {ev : Ev} (h : ∀ q ∈ ev.io_q, (q ∈ s.ev.io_q ∧
    (ev.pollq q).thread = (s.ev.pollq q).thread) ∨ P (ev.pollq q).thread) : Stays P s (s.setEv ev) :=
  of_records ⟨fun _ => rfl, fun _ => rfl, fun _ => Or.inl rfl, h, fun h => h, fun _ => rfl,
    rfl, rfl, rfl, fun _ _ h => h⟩ rfl rfl rfl rfl rfl

/-- The place is compared with the one at the beginning of the step. -/
theorem atPc {s s₁ : St} (h : Stays P s s₁) {pc : Pc} (hin : pc.over = false)
    (hidle : pc.idles = true → (s.fiber s.running).pc.idles = true) : Stays P s (s₁.setPc pc) := by
  refine ⟨h.toSameRecords.trans (.setPc s₁ pc), fun f => ?_, h.this_thread, h.running, h.free_stacks,
    h.life⟩
  by_cases hf : f = s.running
  · have hself : ((s₁.setPc pc).fiber f).pc = pc := by
      rw [hf, ← h.running]
      simp [St.setPc]
    rw [hself]
    exact Or.inr ⟨hf, hin, by rw [hf]; exact hidle⟩
  · have hother : (s₁.setPc pc).fiber f = s₁.fiber f := by
      rw [← h.running] at hf
      simp [St.setPc, hf]
    rw [hother]
    exact h.pc f

/-- The running fiber goes on at a place outside of `st_thread_exit`. -/
theorem setPc (s : St) {pc : Pc} (hin : pc.over = false)
    (hidle : pc.idles = true → (s.fiber s.running).pc.idles = true) : Stays P s (s.setPc pc) :=
  (refl s).atPc hin hidle

/-- A call returns to the program. -/
theorem ret (s : St) (r : Res) : Stays P s (s.ret r) := setPc s rfl fun h => by cases h

end Stays

/-! ## Waking -/

section names

variable {P : ℕ → Prop} {s s' : St}

/-- `_ST_ADD_SLEEPQ` leaves the turn alone. -/
theorem addSleepQ_stays {t timeout : ℕ} (ht : P t) (h : s.addSleepQ t timeout = some s') :
    Stays P s s' := by
  obtain ⟨heap, hheap, rfl⟩ := Option.map_eq_some_iff.mp h
  exact .setSleepQ s t true fun hp => Heap.addSleepQ_pointsTo hp ht hheap

/-- `_ST_DEL_SLEEPQ` leaves the turn alone. -/
theorem delSleepQ_stays {t : ℕ} (h : s.delSleepQ t = some s') : Stays P s s' := by
  obtain ⟨heap, hheap, rfl⟩ := Option.map_eq_some_iff.mp h
  exact .setSleepQ s t false fun hp => Heap.delSleepQ_pointsTo hp hheap

/-- To make one of the records runnable leaves the turn alone. -/
theorem wake_stays {t : ℕ} (ht : P t) (h : s.wake t = some s') : Stays P s s' := by
  obtain ⟨s₁, hs₁, rfl⟩ := Option.map_eq_some_iff.mp h
  have hleave : Stays P s s₁ := by
    unfold leaveSleepQ at hs₁
    split_ifs at hs₁
    · exact delSleepQ_stays hs₁
    · cases hs₁
      exact .refl s
  exact (hleave.trans (.setState s₁ ht _)).trans (.of_rest rfl)

/-- The loop of `_st_cond_signal` wakes threads that are in `COND_WAIT`. -/
theorem condSignalLoop_stays (broadcast : Bool) (q : List ℕ) : ∀ {s s' : St}, s.Names P →
    condSignalLoop broadcast q s = some s' → Stays P s s' := by
  induction q with
  | nil =>
    intro s s' _ h
    cases h
    exact .refl s
  | cons t q ih =>
    intro s s' hn h
    rw [condSignalLoop] at h
    split_ifs at h with hwaits
    · obtain ⟨s₁, hs₁, h⟩ := Option.bind_eq_some_iff.mp h
      have h₁ : Stays P s s₁ := wake_stays (hn.state t (by simp [hwaits])) hs₁
      exact h₁.trans (ih (h₁.names hn) h)
    · obtain ⟨s₁, hs₁, h⟩ := Option.bind_eq_some_iff.mp h
      cases h
      exact wake_stays (hn.state t (by simp [hwaits])) hs₁
    · exact ih hn h

/-- The loop of `_st_vp_check_clock` wakes threads that are on the heap. -/
theorem checkClockLoop_stays (now fuel : ℕ) : ∀ {s s' : St}, s.Names P →
    checkClockLoop now fuel s = some s' → Stays P s s' := by
  induction fuel with
  | zero =>
    intro s s' _ h
    cases h
  | succ fuel ih =>
    intro s s' hn h
    rw [checkClockLoop] at h
    split at h
    · cases h
      exact .refl s
    · next t ht =>
      split_ifs at h
      · cases h
        exact .refl s
      · obtain ⟨s₁, hs₁, h⟩ := Option.bind_eq_some_iff.mp h
        have hP : P t := hn.heap.1 t ht
        have h₁ : Stays P s s₁ := delSleepQ_stays hs₁
        dsimp only at h
        generalize hs₂ : (if (s₁.thread t).state = .COND_WAIT then
          s₁.setFlags t fun fl => { fl with timedout := true } else s₁) = s₂ at h
        have h₂ : Stays P s₁ s₂ := by
          rw [← hs₂]
          split_ifs
          · exact .setFlags s₁ t _
          · exact .refl s₁
        have h₃ : Stays P s ((s₂.setState t .RUNNABLE).addRunq t) :=
          (h₁.trans h₂).trans ((Stays.setState s₂ hP _).trans (.of_rest rfl))
        exact h₃.trans (ih (h₃.names hn) h)

/-- `_st_vp_check_clock` wakes threads of the timeout heap. -/
theorem vpCheckClock_stays {now : ℕ} (hn : s.Names P) (h : s.vpCheckClock now = some s') :
    Stays P s s' := by
  have h₀ : Stays P s { s with last_clock := now } := .of_rest rfl
  exact h₀.trans (checkClockLoop_stays now _ (h₀.names hn) h)

/-- A dispatch pass wakes the threads of pollqs. -/
theorem vpIdle_stays {outcomes : ℕ → SelectOutcome} (hn : s.Names P)
    (h : s.vpIdle outcomes = some s') : Stays P s s' := by
  have hwakes : ∀ (w : List ℕ) {s s' : St}, (∀ q ∈ w, P (s.ev.pollq q).thread) →
      w.foldlM (fun s pq => s.wake (s.ev.pollq pq).thread) s = some s' → Stays P s s' := by
    intro w
    induction w with
    | nil =>
      intro s s' _ h
      cases h
      exact .refl s
    | cons q w ih =>
      intro s s' hP h
      rw [List.foldlM_cons] at h
      obtain ⟨s₁, hs₁, h⟩ := Option.bind_eq_some_iff.mp h
      have h₁ : Stays P s s₁ := wake_stays (hP q (List.mem_cons_self ..)) hs₁
      refine h₁.trans (ih (fun q' hq' => ?_) h)
      rw [(wake_ev hs₁).1]
      exact hP q' (List.mem_cons_of_mem q hq')
  -- The pass comes first, then the threads of the pollqs that it took off the queue are woken.
  have hnot := s.ev.dispatch_notifies outcomes
  have h₀ : Stays P s (s.setEv (s.ev.dispatch outcomes).1) :=
    .setEv s fun q hq => Or.inl ⟨hnot.same.io_q q hq, hnot.same.thread q⟩
  refine h₀.trans (hwakes _ (fun q hq => ?_) h)
  rw [setEv_ev, hnot.same.thread]
  exact hn.pollq q (hnot.woken q hq)

/-- A thread that is interrupted is woken only if it waits. -/
theorem threadInterrupt_stays {t : ℕ} (hn : s.Names P) (h : s.threadInterrupt t = some s') :
    Stays P s s' := by
  by_cases hst : (s.thread t).state = .RUNNING
  · -- Whoever runs, or seems to run, only gets the flag.
    have hset : ((s.setFlags t fun fl => { fl with interrupt := true }).thread t).state = .RUNNING := by
      simpa [setFlags, setThread] using hst
    unfold threadInterrupt at h
    dsimp only at h
    rw [if_neg (by simp [hst]), if_pos (Or.inl hset)] at h
    cases h
    exact .setFlags s t _
  · rcases threadInterrupt_paths h with rfl | rfl | h
    · exact .refl s'
    · exact .setFlags s t _
    · exact (Stays.setFlags s t _).trans (wake_stays (hn.state t hst) h)

/-! ## Calls -/

/-- A step within a thread, and perhaps a call of `_st_vp_schedule` at its end. -/
inductive Passes (P : ℕ → Prop) (s s' : St) : Prop where
  | stays (h : Stays P s s')
  | switches (s₁ : St) (h : Stays P s s₁) (eq : s' = s₁.vpSchedule)

/-- A step that only passes the turn on may begin with a part that leaves the turn alone. -/
theorem Passes.after {s₁ : St} (h : Stays P s s₁) (h' : Passes P s₁ s') : Passes P s s' := by
  cases h' with
  | stays h' => exact .stays (h.trans h')
  | switches s₂ h' eq => exact .switches s₂ (h.trans h') eq

/-- The return with `EINTR` at the start of a call leaves the turn alone. -/
theorem eintr_stays (s : St) (me : ℕ) : Stays P s (s.eintr me) :=
  (Stays.setFlags s me _).trans (.ret _ _)

/-- `st_poll` up to the switch only passes the turn on. -/
theorem poll_passes {pds : List Pollfd} {timeout : ℕ} (hn : s.Names P)
    (h : s.poll pds timeout = some s') : Passes P s s' := by
  cases poll_paths h with
  | outside _ eq => exact .stays (eq ▸ .ret s _)
  | interrupted me _ _ eq => exact .stays (eq ▸ eintr_stays s me)
  | waits me s₁ this _ sleeps eq =>
    have hP := hn.this me this
    -- The new pollq belongs to the caller, who goes to the sleep queue.
    have hreg : Stays P s (s.setEv (s.ev.register me pds)) := by
      refine .setEv s fun q hq => ?_
      rcases s.ev.register_owner me pds hq with hold | hnew
      · exact Or.inl hold
      · rw [hnew]
        exact Or.inr hP
    have h₁ := hreg.trans (addSleepQ_stays hP sleeps)
    have h₂ := h₁.trans (.setState s₁ hP .IO_WAIT)
    exact .switches _ (h₂.trans (.setPc _ rfl fun h => by cases h)) eq

/-- `st_poll` after the switch only passes the turn on. -/
theorem pollEnd_passes {me pq : ℕ} (h : s.pollEnd me pq = some s') : Passes P s s' := by
  have hsame := s.ev.unregister_sameOwners pq
  have hev : Stays P s (s.setEv (s.ev.unregister pq)) :=
    .setEv s fun q hq => Or.inl ⟨hsame.io_q q hq, hsame.thread q⟩
  rcases pollEnd_paths h with rfl | ⟨n, rfl⟩
  · exact .stays (hev.trans (eintr_stays _ me))
  · exact .stays (hev.trans (.ret _ _))

/-- `st_usleep` only passes the turn on. -/
theorem usleep_passes {usecs : ℕ} (hn : s.Names P) (h : s.usleep usecs = some s') : Passes P s s' := by
  cases usleep_paths h with
  | stays _ eq => exact .switches _ (.ret s _) eq
  | interrupted me _ _ eq => exact .stays (eq ▸ eintr_stays s me)
  | sleeps me s₁ this _ _ _ _ sleeps eq =>
    have hP := hn.this me this
    have h₁ := (Stays.setState s hP .SLEEPING).trans (addSleepQ_stays hP sleeps)
    exact .switches _ (h₁.trans (.ret s₁ _)) eq
  | suspends me this _ eq =>
    have h₁ := Stays.setState s (hn.this me this) .SUSPENDED
    exact .switches _ (h₁.trans (.ret _ _)) eq

/-- A wait on a condition variable up to the switch only passes the turn on. -/
theorem condBlock_passes {me timeout : ℕ} {c : Cond} {pc : Pc} (hP : P me) (hin : pc.over = false)
    (hidle : pc.idles = false) (h : s.condBlock me c timeout pc = some s') : Passes P s s' := by
  obtain ⟨s₁, rfl, hs₁⟩ := condBlock_paths h
  have hlink : Stays P s (s.linkCond me c) := (Stays.setState s hP .COND_WAIT).trans (.of_rest rfl)
  have h₁ : Stays P s s₁ := by
    rcases hs₁ with ⟨-, hs₁⟩ | ⟨-, rfl⟩
    · exact hlink.trans (addSleepQ_stays hP hs₁)
    · exact hlink
  exact .switches _ (h₁.trans (.setPc s₁ hin fun h => by rw [hidle] at h; cases h)) rfl

/-- `st_cond_timedwait` up to the switch only passes the turn on. -/
theorem condTimedwait_passes {n timeout : ℕ} (hn : s.Names P)
    (h : s.condTimedwait (.user n) timeout = some s') : Passes P s s' := by
  cases condTimedwait_paths h with
  | outside _ eq => exact .stays (eq ▸ .ret s _)
  | interrupted me _ _ eq => exact .stays (eq ▸ eintr_stays s me)
  | waits me this _ blocks => exact condBlock_passes (hn.this me this) rfl rfl blocks

/-- `st_cond_timedwait` after the switch leaves the turn alone. -/
theorem condUnblock_stays (s : St) (me : ℕ) (c : Cond) : Stays P s (s.condUnblock me c).1 := by
  have hq : Stays P s (s.setCondQ c ((s.cond_q c).erase me)) := .of_rest rfl
  unfold condUnblock
  dsimp only
  exact hq.trans (.setFlags _ me _)

/-- `st_mutex_lock` up to the switch only passes the turn on. -/
theorem mutexLock_passes {m : ℕ} (hn : s.Names P) (h : s.mutexLock m = some s') : Passes P s s' := by
  cases mutexLock_paths h with
  | returns r eq => exact .stays (eq ▸ .ret s r)
  | interrupted me _ _ eq => exact .stays (eq ▸ eintr_stays s me)
  | locks me _ eq =>
    have h₁ : Stays P s (s.setOwner m (some me)) := .of_rest rfl
    have h₂ := h₁.trans (.note _ (n := .locked m me) fun _ _ h => by cases h)
    exact .stays (eq ▸ h₂.trans (.ret _ _))
  | waits me this eq =>
    have h₁ := Stays.setState s (hn.this me this) .LOCK_WAIT
    have h₂ : Stays P s ((s.setState me .LOCK_WAIT).setWaitQ m ((s.mutex m).wait_q ++ [me])) :=
      h₁.trans (.of_rest rfl)
    have h₃ := h₂.trans (.note _ (n := .lockWait m me) fun _ _ h => by cases h)
    exact .switches _ (h₃.trans (.setPc _ rfl fun h => by cases h)) eq

/-- `st_mutex_lock` after the switch leaves the turn alone. -/
theorem mutexLockEnd_stays (s : St) (me m : ℕ) : Stays P s (s.mutexLockEnd me m) := by
  have hq : Stays P s (s.setWaitQ m ((s.mutex m).wait_q.erase me)) := .of_rest rfl
  unfold mutexLockEnd
  dsimp only
  split_ifs
  · exact hq.trans (eintr_stays _ me)
  · exact hq.trans (Stays.trans (.note _ fun _ _ h => by cases h) (.ret _ _))

/-- `st_mutex_unlock` makes a thread runnable only if it is in `LOCK_WAIT`. -/
theorem mutexUnlock_stays (hn : s.Names P) (m : ℕ) : Stays P s (s.mutexUnlock m) := by
  -- The thread that gets the mutex is in `LOCK_WAIT`.
  have hands : ∀ s₁ : St, Stays P s s₁ → ∀ t, s₁.firstLockWait m = some t →
      Stays P s ((((s₁.setOwner m (some t)).setState t .RUNNABLE).addRunq t).ret (.ok 0)) := by
    intro s₁ h₁ t ht
    have hwaits : (s₁.thread t).state = .LOCK_WAIT := by
      unfold firstLockWait at ht
      simpa using List.find?_some ht
    have hP : P t := (h₁.names hn).state t (by simp [hwaits])
    have h₂ : Stays P s (s₁.setOwner m (some t)) := h₁.trans (.of_rest rfl)
    exact ((h₂.trans (.setState _ hP .RUNNABLE)).trans (.of_rest rfl)).trans (.ret _ _)
  unfold mutexUnlock
  split_ifs
  · exact .ret s _
  · dsimp only
    split
    · next t ht =>
      refine hands _ ?_ t ht
      split
      · exact .note s fun _ _ h => by cases h
      · exact .refl s
    · refine Stays.trans (Stays.trans ?_ (.of_rest rfl)) (.ret _ _)
      split
      · exact .note s fun _ _ h => by cases h
      · exact .refl s

/-- `st_mutex_trylock` leaves the turn alone. -/
theorem mutexTrylock_stays (s : St) (m : ℕ) : Stays P s (s.mutexTrylock m) := by
  unfold mutexTrylock
  split_ifs
  · exact .ret s _
  · dsimp only
    refine Stays.trans (Stays.trans ?_ (.of_rest rfl)) (.ret _ _)
    split
    · exact .note s fun _ _ h => by cases h
    · exact .refl s

/-- A thread that is joined is in `ZOMBIE`. -/
theorem joinLoop_passes {c : Cond} {t : ℕ} (hn : s.Names P) (h : s.joinLoop c t = some s') :
    Passes P s s' := by
  cases joinLoop_paths h with
  | joined state eq =>
    rw [eq]
    refine .stays (Stays.trans (Stays.trans ?_ (.note _ fun _ _ h => by cases h)) (.ret _ _))
    exact (Stays.setState s (hn.state t (by simp [state])) .RUNNABLE).trans (.of_rest rfl)
  | interrupted me _ eq => exact .stays (eq ▸ eintr_stays s me)
  | waits me this blocks => exact condBlock_passes (hn.this me this) rfl rfl blocks

/-- `st_thread_join` up to the switch only passes the turn on. -/
theorem threadJoin_passes {t : ℕ} (hn : s.Names P) (h : s.threadJoin t = some s') :
    Passes P s s' := by
  rcases threadJoin_paths h with ⟨r, rfl⟩ | ⟨c, -, -, h⟩
  · exact .stays (.ret s r)
  · exact joinLoop_passes hn h

/-- `st_thread_join` after a wait in its loop only passes the turn on. -/
theorem joinEnd_passes {me t : ℕ} {c : Cond} (hn : s.Names P) (h : s.joinEnd me c t = some s') :
    Passes P s s' := by
  have hun : Stays P s (s.condUnblock me c).1 := s.condUnblock_stays me c
  rcases joinEnd_paths h with ⟨e, rfl⟩ | h
  · exact .stays (hun.trans (.ret _ _))
  · exact .after hun (joinLoop_passes (hun.names hn) h)

/-- The idle thread becomes runnable at the end of its loop. -/
theorem readyIdle_stays (hn : s.Names P) : Stays P s s.readyIdle := by
  unfold readyIdle
  split_ifs
  · exact .setState s hn.idle _
  · exact .refl s

/-! ## All steps -/

/-- The kinds of steps, if threads end by returning. -/
inductive StepKind (P : ℕ → Prop) (s : St) (l : Label) (s' : St) : Prop where
  | passes (pc : (s.fiber s.running).pc.over = false) (enters : ¬s.Enters l)
      (makes : ∀ joinable stk_size ok, l ≠ .call (.create joinable stk_size ok)) (h : Passes P s s')
  | creates (joinable : Bool) (stk_size : ℤ) (ok : Acquire) (r : Res)
      (label : l = .call (.create joinable stk_size ok)) (pc : (s.fiber s.running).pc = .user r)
      (h : s.call (.create joinable stk_size ok) = some s')
  /-- `s₁` is the state in which `st_thread_exit` is entered, perhaps by a start function that returns. -/
  | exits (s₀ s₁ : St) (retval : ℤ) (enters : s.Enters l) (pc : (s.fiber s.running).pc.over = false)
      (fiber : s.running ≠ 0 ∨ (s.fiber s.running).pc.idles = true)
      (note : s₀ = s ∨ ∃ v, s₀ = s.note (.returned s.running v)) (stays : Stays P s₀ s₁)
      (h : s₁.threadExit retval false = some s')
  | exitTerm (t : ℕ) (explicit : Bool) (label : l = .resume)
      (pc : (s.fiber s.running).pc = .exitTerm t explicit) (h : s.exitTermEnd t explicit = some s')
  | exitEnd (explicit : Bool) (label : l = .resume) (pc : (s.fiber s.running).pc = .exitEnd explicit)
      (h : s' = s.exitReturn explicit)

/-- The calls. -/
theorem call_kinds {c : Call} {r : Res} (hn : s.Names P) (hexit : ∀ retval, c ≠ .exit retval)
    (hpc : (s.fiber s.running).pc = .user r) (h : s.call c = some s') :
    StepKind P s (.call c) s' := by
  have hover : (s.fiber s.running).pc.over = false := by
    rw [hpc]
    rfl
  -- A call that neither creates a thread nor ends one.
  have hpass : ∀ {c : Call}, (¬s.Enters (.call c)) →
      (∀ joinable stk_size ok, c ≠ .create joinable stk_size ok) → Passes P s s' →
      StepKind P s (.call c) s' := by
    intro c henters hmakes h
    refine .passes hover henters (fun joinable stk_size ok hl => ?_) h
    cases hl
    exact hmakes _ _ _ rfl
  have hmaps : ∀ {o : Option St} {r : Res}, o.map (·.ret r) = some s' →
      (∀ s₁, o = some s₁ → Stays P s s₁) → Passes P s s' := by
    intro o r ho hs
    obtain ⟨s₁, hs₁, rfl⟩ := Option.map_eq_some_iff.mp ho
    exact .stays ((hs s₁ hs₁).trans (.ret s₁ r))
  cases c with
  | poll pds timeout => exact hpass id (fun _ _ _ h => by cases h) (poll_passes hn h)
  | usleep usecs => exact hpass id (fun _ _ _ h => by cases h) (usleep_passes hn h)
  | condTimedwait n timeout => exact hpass id (fun _ _ _ h => by cases h) (condTimedwait_passes hn h)
  | condSignal n =>
    exact hpass id (fun _ _ _ h => by cases h) (hmaps h fun _ => condSignalLoop_stays _ _ hn)
  | condBroadcast n =>
    exact hpass id (fun _ _ _ h => by cases h) (hmaps h fun _ => condSignalLoop_stays _ _ hn)
  | mutexLock m => exact hpass id (fun _ _ _ h => by cases h) (mutexLock_passes hn h)
  | mutexTrylock m =>
    cases h
    exact hpass id (fun _ _ _ h => by cases h) (.stays (s.mutexTrylock_stays m))
  | mutexUnlock m =>
    cases h
    exact hpass id (fun _ _ _ h => by cases h) (.stays (mutexUnlock_stays hn m))
  | interrupt t =>
    simp only [call] at h
    split_ifs at h
    exact hpass id (fun _ _ _ h => by cases h) (hmaps h fun _ => threadInterrupt_stays hn)
  | create joinable stk_size ok => exact .creates joinable stk_size ok r rfl hpc h
  | join t =>
    simp only [call] at h
    split_ifs at h
    exact hpass id (fun _ _ _ h => by cases h) (threadJoin_passes hn h)
  | exit retval => exact absurd rfl (hexit retval)
  | idleRun =>
    simp only [call] at h
    split_ifs at h
    cases h
    exact hpass id (fun _ _ _ h => by cases h) (.stays (.setPc s rfl fun h => by cases h))

/-- The steps, whatever the state. -/
theorem step_kinds {l : Label} (hn : s.Names P) (hexit : ∀ retval, l ≠ .call (.exit retval))
    (h : s.step l = some s') : StepKind P s l s' := by
  obtain ⟨pc, hpc⟩ : ∃ pc, (s.fiber s.running).pc = pc := ⟨_, rfl⟩
  -- A step that goes on after a switch, or at a statement of a loop.
  have hpass : ∀ {l : Label}, pc.over = false → (¬s.Enters l) → (∀ c, l ≠ .call c) → Passes P s s' →
      StepKind P s l s' := by
    intro l hover henters hcall h
    exact .passes (by rw [hpc]; exact hover) henters (fun _ _ _ => hcall _) h
  have hawake : (∀ stage, pc ≠ .idle stage) → ¬s.Enters .resume := by
    intro hne henters
    rcases henters.1 with hidle | hidle
    · exact hne _ (hpc.symm.trans hidle)
    · exact hne _ (hpc.symm.trans hidle)
  cases step_goes hpc h with
  | call c hgo => exact call_kinds hn (fun retval hc => hexit retval (by rw [hc])) hpc hgo
  | ret v hmain hgo =>
    exact .exits _ _ _ trivial (by rw [hpc]; rfl) (Or.inl hmain) (Or.inr ⟨v, rfl⟩) (.refl _) hgo
  | poll hgo =>
    exact hpass rfl (hawake fun _ h => by cases h) (fun _ h => by cases h) (pollEnd_passes hgo)
  | @condWait me c hgo =>
    refine hpass rfl (hawake fun _ h => by cases h) (fun _ h => by cases h) (.stays ?_)
    rw [hgo]
    exact (s.condUnblock_stays me c).trans (.ret _ _)
  | @lock me m hgo =>
    refine hpass rfl (hawake fun _ h => by cases h) (fun _ h => by cases h) (.stays ?_)
    rw [hgo]
    exact s.mutexLockEnd_stays me m
  | join hgo =>
    exact hpass rfl (hawake fun _ h => by cases h) (fun _ h => by cases h) (joinEnd_passes hn hgo)
  | exitTerm hgo => exact .exitTerm _ _ rfl hpc hgo
  | exitEnd hgo => exact .exitEnd _ rfl hpc hgo
  | idleDispatch _ _ s₁ hgo eq =>
    refine hpass rfl id (fun _ h => by cases h) (.stays ?_)
    rw [eq]
    exact (vpIdle_stays hn hgo).atPc rfl fun _ => by rw [hpc]; rfl
  | idleEnd ended hgo =>
    exact .exits s s _ ⟨Or.inl hpc, ended⟩ (by rw [hpc]; rfl) (Or.inr (by rw [hpc]; rfl)) (Or.inl rfl)
      (.refl s) hgo
  | idleClock _ s₁ hgo eq =>
    refine hpass rfl id (fun _ h => by cases h) (.stays ?_)
    rw [eq]
    exact (vpCheckClock_stays hn hgo).atPc rfl fun _ => by rw [hpc]; rfl
  | idleSched hgo =>
    rcases idleSched_paths hgo with ⟨hended, retval, hgo⟩ | ⟨hactive, eq⟩
    · exact .exits s _ retval ⟨Or.inr hpc, hended⟩ (by rw [hpc]; rfl) (Or.inr (by rw [hpc]; rfl))
        (Or.inl rfl) (readyIdle_stays hn) hgo
    · refine hpass rfl (fun henters => absurd henters.2 (not_le.mpr hactive)) (fun _ h => by cases h) ?_
      exact .switches _ ((readyIdle_stays hn).atPc rfl fun _ => by rw [hpc]; rfl) eq
  | nativeDispatch _ _ s₁ hgo eq =>
    refine hpass rfl id (fun _ h => by cases h) (.stays ?_)
    rw [eq]
    exact (vpIdle_stays hn hgo).trans (.setPc s₁ rfl fun h => by cases h)
  | nativeEnd _ eq =>
    refine hpass rfl (hawake fun _ h => by cases h) (fun _ h => by cases h) (.stays ?_)
    rw [eq]
    exact .ret s _
  | nativeClock _ s₁ hgo eq =>
    refine hpass rfl id (fun _ h => by cases h) (.stays ?_)
    rw [eq]
    exact (vpCheckClock_stays hn hgo).trans (.setPc s₁ rfl fun h => by cases h)
  | nativeSched eq =>
    refine hpass rfl (hawake fun _ h => by cases h) (fun _ h => by cases h) ?_
    exact .switches _ (.setPc s rfl fun h => by cases h) eq

end names

end St

end StWin
