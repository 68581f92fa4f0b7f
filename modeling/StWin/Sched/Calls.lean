import StWin.Sched.Outcome

/-!
# The calls of a running thread

Each call of the library that a running thread makes, and the rest of each waiting call after the
switch back, is defined in every good state and leaves a good state.
-/

namespace StWin.St

/-- A step is possible, its outcome is fine, and it is not one of a mutex. -/
def Does (s : St) (o : Option St) : Prop := ∃ s', o = some s' ∧ Fine s s' ∧ LockFrame s s'

/-- `SleepOk` reads the heap and the flags. -/
theorem SleepOk.congr {s s' : St} (h : s.SleepOk) (hheap : s'.heap = s.heap)
    (hon : ∀ t, (s'.thread t).flags.on_sleepq = (s.thread t).flags.on_sleepq) : s'.SleepOk := by
  obtain ⟨S, hw, hS⟩ := h
  exact ⟨S, by rw [hheap]; exact hw, fun t => by rw [hon]; exact hS t⟩

/-- A thread in code of the program waits for nothing. -/
theorem not_waitsFor_user {s : St} {t : ℕ} {r : Res} (hpc : s.pcOf t = .user r) (m : ℕ) :
    ¬(s.pcOf t).waitsFor m := by
  rw [hpc]
  exact id

/-! ## Returning -/

section ret

variable {s : St} {t : ℕ}

/-- A call that writes the caller's flags and returns is an action of the caller. -/
theorem setFlags_ret_acts (s : St) (t : ℕ) {f : Flags → Flags} (hf : FlagsOk f) (r : Res) :
    Acts s ((s.setFlags t f).ret r) t { s.thread t with flags := f (s.thread t).flags } (.user r) :=
  .of_links rfl rfl rfl rfl rfl (hf.primordial _)

/-- The flags may stay as they are. -/
theorem flagsOk_id : FlagsOk id := ⟨fun _ => rfl, fun _ => rfl⟩

/-- To leave the flags as they are changes nothing. -/
theorem setFlags_id (s : St) (t : ℕ) : s.setFlags t id = s := by
  simp [setFlags, setThread]

/-- A call of a running thread returns, with a change of the flags. -/
theorem setFlags_ret_does {r : Res} (hg : s.Good) (hr : s.Runs t) (hpc : s.pcOf t = .user r)
    {f : Flags → Flags} (hf : FlagsOk f) (r' : Res) :
    Fine s ((s.setFlags t f).ret r') ∧ LockFrame s ((s.setFlags t f).ret r') := by
  have ha := setFlags_ret_acts s t hf r'
  have hoff := hg.core.off_sleepq hr
  have hc : ((s.setFlags t f).ret r').Core [] := by
    refine hg.core.act hr ha (Links.user hg.core hpc rfl (fun _ => rfl) rfl) ?_ ?_ trivial ?_ ?_
    · dsimp only
      rw [hr.state]
      decide
    · dsimp only
      rw [hf.on_sleepq, hoff]
      exact fun h => absurd h (by decide)
    · dsimp only
      rw [hr.state]
      exact ⟨by rw [ha.running, ha.id_eq, hr.running], by rw [ha.this_thread, hr.this]⟩
    · exact ha.sleepOk hg.core.sleep rfl (hf.on_sleepq _)
  exact ⟨ha.fine hg.own hr hc hr.state,
    ha.lockFrame hr rfl rfl (not_waitsFor_user hpc) (fun _ => id)⟩

/-- A call of a running thread returns. -/
theorem ret_does {r : Res} (hg : s.Good) (hr : s.Runs t) (hpc : s.pcOf t = .user r) (r' : Res) :
    Fine s (s.ret r') ∧ LockFrame s (s.ret r') := by
  have := setFlags_ret_does hg hr hpc flagsOk_id r'
  rwa [setFlags_id] at this

/-- The flag of an interrupt may be written. -/
theorem flagsOk_interrupt (b : Bool) : FlagsOk fun fl => { fl with interrupt := b } :=
  ⟨fun _ => rfl, fun _ => rfl⟩

/-- A call that first asks for an interrupt. -/
theorem interrupted_does {r : Res} (hg : s.Good) (hr : s.Runs t) (hpc : s.pcOf t = .user r)
    {k : St → Option St} (hk : s.Does (k s)) : s.Does (s.interrupted t k) := by
  unfold interrupted
  split_ifs
  · exact ⟨_, rfl, setFlags_ret_does hg hr hpc (flagsOk_interrupt false) _⟩
  · exact hk

end ret

/-! ## Waiting -/

section wait

variable {s : St} {t : ℕ} {r : Res}

/-- A thread that parks itself and switches away. -/
theorem Acts.does_switch {s' : St} {th : Thread} {pc : Pc} (ha : Acts s s' t th pc) (hg : s.Good)
    (hr : s.Runs t) (hpc : s.pcOf t = .user r) (hc : s'.Core []) (hst : th.state ≠ .RUNNING)
    (hst' : th.state ≠ .RUNNABLE) (hmutex : s'.mutex = s.mutex) (hlog : s'.log = s.log)
    (hfor : ∀ m, ¬pc.waitsFor m) : s.Does (some s'.vpSchedule) := by
  refine ⟨_, rfl, ha.fine_switch hg.own hr hc hst hst', ?_⟩
  have hlock := ha.lockFrame hr hmutex hlog (not_waitsFor_user hpc) hfor
  exact hlock.trans (vpSchedule_lockFrame hc (ha.ownership hg.own hr))

/-- The links of a thread that begins to wait for the descriptors `pds`. -/
theorem Links.poll {s' : St} (h : s.Core []) (hpc : s.pcOf t = .user r) (pds : List Pollfd)
    (hc : s'.cond_q = s.cond_q) (hw : s'.mutex = s.mutex) (he : s'.ev = s.ev.register t pds) :
    Links s s' t (.poll t s.ev.next) := by
  obtain ⟨hcond, hwait, hown⟩ := h.unlinked hpc
  obtain ⟨hio, hpollq, hnext⟩ := Ev.register_queue h.ev t pds
  have hother : ∀ q, q ≠ s.ev.next → s'.ev.pollq q = s.ev.pollq q := by
    intro q hq
    rw [he, hpollq, Function.update_of_ne hq]
  refine ⟨fun c u => ?_, by rw [hc]; exact h.cond_nodup, fun m u => ?_,
    by rw [hw]; exact h.wait_nodup, ⟨fun q hne hq => ?_, fun q _ hlt => ?_, ?_⟩,
    fun q hq howner => ?_, by rw [he]; exact (Ev.register_counted h.ev t pds).1⟩
  · -- The caller was on no queue, and joins that of the event system only.
    rw [hc]
    by_cases hu : u = t
    · subst hu
      simp [hcond c, Pc.waitsOn]
    · simp [hu]
  · rw [hw]
    by_cases hu : u = t
    · subst hu
      simp [hwait m, Pc.waitsFor]
    · simp [hu]
  · -- A `pollq` of another thread is not the new one.
    have hq' : q ≠ s.ev.next := by
      rintro rfl
      rw [he, hpollq, Function.update_self] at hne
      exact hne rfl
    rw [he, hio, List.mem_append, List.mem_singleton] at hq
    rw [hother q hq']
    exact ⟨hq.resolve_right hq', rfl⟩
  · rw [hother q (Nat.ne_of_lt hlt), he, hio]
    exact ⟨rfl, rfl, fun h => List.mem_append_left _ h⟩
  · rw [he, hnext]
    exact Nat.le_succ _
  · rw [he, hio, List.mem_append, List.mem_singleton] at hq
    rcases hq with hq | rfl
    · -- The thread had no `pollq` before.
      have hq' : q ≠ s.ev.next := fun heq => lt_irrefl _ (h.ev.fresh _ (heq ▸ hq))
      rw [hother q hq'] at howner
      exact absurd howner (hown q hq)
    · rfl

/-- `st_poll` waits. -/
theorem poll_does (hg : s.Good) (hr : s.Runs t) (hpc : s.pcOf t = .user r) (pds : List Pollfd)
    (timeout : ℕ) : s.Does (s.poll pds timeout) := by
  unfold poll
  rw [hr.this]
  refine interrupted_does hg hr hpc ?_
  -- The `pollq` is the next one, and the thread is put into the heap, without a timeout for one
  -- microsecond.
  obtain ⟨hio, hpollq, hnext⟩ := Ev.register_queue hg.core.ev t pds
  obtain ⟨heap, hadd, hsleep⟩ := @addSleepQ_eq (s.setEv (s.ev.register t pds)) hg.core.sleep t
    (hg.core.off_sleepq hr) (if timeout ≠ ST_UTIME_NO_TIMEOUT then timeout else 1)
  dsimp only
  rw [hadd, Option.bind_eq_bind, Option.bind_some]
  generalize hs₁ : (((s.setEv (s.ev.register t pds)).setSleepQ t true heap).setState t .IO_WAIT).setPc
    (.poll t s.ev.next) = s₁
  have ha : Acts s s₁ t { s.thread t with
      state := .IO_WAIT, flags := { (s.thread t).flags with on_sleepq := true } }
      (.poll t s.ev.next) := by
    rw [← hs₁]
    refine .of_links ?_ rfl rfl rfl rfl rfl
    simp [setEv, setSleepQ, setFlags, setState, setThread, setPc]
  have hev : s₁.ev = s.ev.register t pds := by rw [← hs₁]; rfl
  have hself : (s₁.ev.pollq s.ev.next) = ⟨t, pds, true⟩ := by
    rw [hev, hpollq, Function.update_self]
  have hmutex : s₁.mutex = s.mutex := by rw [← hs₁]; rfl
  have hlinks := Links.poll hg.core hpc pds (by rw [← hs₁]; rfl) hmutex hev
  have hmem : s.ev.next ∈ s₁.ev.io_q := by
    rw [hev, hio]
    exact List.mem_append_right _ (List.mem_singleton_self _)
  have hc : s₁.Core [] := by
    refine hg.core.act hr ha hlinks (fun h => by cases h) (fun _ => Or.inr (Or.inl rfl)) ?_ ?_ ?_
    · -- The place, the state and the heap agree on the new `pollq`.
      refine ⟨rfl, by rw [hself], ?_, fun _ => hmem⟩
      rw [hev, hnext]
      exact Nat.lt_succ_self _
    · refine ⟨by rw [ha.thread_self], s.ev.next, ha.pcOf_self hr, Or.inl ?_⟩
      rw [hself]
    · -- The heap of `s₁` and its flags are those of the insertion.
      refine hsleep.congr (by rw [← hs₁]; rfl) fun u => ?_
      rw [← hs₁]
      by_cases hu : u = t
      · subst hu
        simp [setSleepQ, setFlags, setState, setThread, setPc]
      · simp [setSleepQ, setFlags, setState, setThread, setPc, hu]
  exact ha.does_switch hg hr hpc hc (fun h => by cases h) (fun h => by cases h) hmutex
    (by rw [← hs₁]; rfl) fun _ => id

/-- `st_usleep` waits. -/
theorem usleep_does (hg : s.Good) (hr : s.Runs t) (hpc : s.pcOf t = .user r) (usecs : ℕ) :
    s.Does (s.usleep usecs) := by
  unfold usleep
  rw [hr.this]
  dsimp only
  rw [if_neg (by rw [hr.state]; decide)]
  refine interrupted_does hg hr hpc ?_
  split_ifs with hno hst
  · -- A thread that runs is not asleep.
    rw [hr.state] at hst
    cases hst
  · -- Timed sleep.
    obtain ⟨heap, hadd, hsleep⟩ := @addSleepQ_eq (s.setState t .SLEEPING) (hg.core.sleep.congr rfl
      fun u => by by_cases hu : u = t <;> simp [setState, setThread, hu]) t
      (by simpa [setState, setThread] using hg.core.off_sleepq hr) usecs
    rw [hadd, Option.map_some]
    generalize hs₁ : ((s.setState t .SLEEPING).setSleepQ t true heap).ret (.ok 0) = s₁
    have ha : Acts s s₁ t { s.thread t with
        state := .SLEEPING, flags := { (s.thread t).flags with on_sleepq := true } }
        (.user (.ok 0)) := by
      rw [← hs₁]
      refine .of_links ?_ rfl rfl rfl rfl rfl
      simp [setSleepQ, setFlags, setState, setThread, ret, setPc]
    have hc : s₁.Core [] := by
      refine hg.core.act hr ha (Links.user hg.core hpc ?_ ?_ ?_) (fun h => by cases h)
        (fun _ => Or.inl rfl) trivial ?_ ?_
      · rw [← hs₁]; rfl
      · rw [← hs₁]; exact fun _ => rfl
      · rw [← hs₁]; rfl
      · exact ⟨by rw [ha.thread_self], _, ha.pcOf_self hr⟩
      · exact hsleep.congr (by rw [← hs₁]; rfl) fun u => by rw [← hs₁]; rfl
    exact ha.does_switch hg hr hpc hc (fun h => by cases h) (fun h => by cases h)
      (by rw [← hs₁]; rfl) (by rw [← hs₁]; rfl) fun _ => id
  · -- Suspended, until an interrupt.
    generalize hs₁ : (s.setState t .SUSPENDED).ret (.ok 0) = s₁
    have ha : Acts s s₁ t { s.thread t with state := .SUSPENDED } (.user (.ok 0)) := by
      rw [← hs₁]
      exact .of_links rfl rfl rfl rfl rfl rfl
    have hc : s₁.Core [] := by
      refine hg.core.act hr ha (Links.user hg.core hpc ?_ ?_ ?_) (fun h => by cases h) ?_ trivial ?_
        (ha.sleepOk hg.core.sleep (by rw [← hs₁]; rfl) rfl)
      · rw [← hs₁]; rfl
      · rw [← hs₁]; exact fun _ => rfl
      · rw [← hs₁]; rfl
      · intro hon
        rw [hg.core.off_sleepq hr] at hon
        cases hon
      · exact ⟨_, ha.pcOf_self hr⟩
    exact ha.does_switch hg hr hpc hc (fun h => by cases h) (fun h => by cases h)
      (by rw [← hs₁]; rfl) (by rw [← hs₁]; rfl) fun _ => id

/-- The links of a thread that begins to wait on `c`. -/
theorem Links.cond {s' : St} {c : Cond} {pc : Pc} (h : s.Core []) (hpc : s.pcOf t = .user r)
    (hwaits : ∀ c', pc.waitsOn c' ↔ c' = c) (hfor : ∀ m, ¬pc.waitsFor m)
    (hc : s'.cond_q = Function.update s.cond_q c (s.cond_q c ++ [t]))
    (hw : s'.mutex = s.mutex) (he : s'.ev = s.ev) : Links s s' t pc := by
  obtain ⟨h1, h2, h3⟩ := h.unlinked hpc
  refine ⟨fun c' u => ?_, fun c' => ?_, fun m u => ?_, by rw [hw]; exact h.wait_nodup,
    by rw [he]; exact EvFrame.refl _ _, ?_, by rw [he]; exact h.ev⟩
  · rw [hc, hwaits]
    by_cases hcc : c' = c
    · subst hcc
      by_cases hu : u = t
      · subst hu
        simp
      · simp [hu]
    · rw [Function.update_of_ne hcc]
      by_cases hu : u = t
      · subst hu
        simp [h1 c', hcc]
      · simp [hu]
  · rw [hc]
    by_cases hcc : c' = c
    · subst hcc
      rw [Function.update_self]
      exact (h.cond_nodup c').append (List.nodup_singleton t) (by simpa using h1 c')
    · rw [Function.update_of_ne hcc]
      exact h.cond_nodup c'
  · rw [hw]
    by_cases hu : u = t
    · subst hu
      simp [h2 m, hfor m]
    · simp [hu]
  · rw [he]
    exact fun q hq howner => absurd howner (h3 q hq)

/-- `st_cond_timedwait` waits, called by the program or by `st_thread_join`. -/
theorem condBlock_does (hg : s.Good) (hr : s.Runs t) (hpc : s.pcOf t = .user r) (c : Cond)
    (timeout : ℕ) {pc : Pc} (hwaits : ∀ c', pc.waitsOn c' ↔ c' = c) (hfor : ∀ m, ¬pc.waitsFor m)
    (hfits : ∀ s', SameLives s s' → s'.PcFits t pc) : s.Does (s.condBlock t c timeout pc) := by
  unfold condBlock
  dsimp only
  -- The state before the switch, with the thread on the sleep queue or not.
  obtain ⟨s₁, on, hrun, ha, hcond, hmutex, hev, hlog, hsleep⟩ : ∃ s₁ on,
      (if timeout ≠ ST_UTIME_NO_TIMEOUT then
        ((s.setState t .COND_WAIT).setCondQ c ((s.setState t .COND_WAIT).cond_q c ++ [t])).addSleepQ t
          timeout
        else some ((s.setState t .COND_WAIT).setCondQ c
          ((s.setState t .COND_WAIT).cond_q c ++ [t]))) = some s₁ ∧
      Acts s (s₁.setPc pc) t { s.thread t with
        state := .COND_WAIT, flags := { (s.thread t).flags with on_sleepq := on } } pc ∧
      s₁.cond_q = Function.update s.cond_q c (s.cond_q c ++ [t]) ∧ s₁.mutex = s.mutex ∧
      s₁.ev = s.ev ∧ s₁.log = s.log ∧ s₁.SleepOk := by
    have hoff := hg.core.off_sleepq hr
    have hsleep₀ : ((s.setState t .COND_WAIT).setCondQ c
        ((s.setState t .COND_WAIT).cond_q c ++ [t])).SleepOk := by
      refine hg.core.sleep.congr rfl fun u => ?_
      by_cases hu : u = t <;> simp [setState, setThread, setCondQ, hu]
    split_ifs
    · obtain ⟨heap, hadd, hsleep⟩ := addSleepQ_eq hsleep₀ (t := t)
        (by simpa [setState, setThread, setCondQ] using hoff) timeout
      refine ⟨_, true, hadd, .of_links ?_ rfl rfl rfl rfl rfl, rfl, rfl, rfl, rfl, hsleep⟩
      simp [setSleepQ, setFlags, setState, setThread, setCondQ, setPc]
    · have hfl : { (s.thread t).flags with on_sleepq := false } = (s.thread t).flags := by
        rw [← hoff]
      refine ⟨_, false, rfl, .of_links ?_ rfl rfl rfl rfl rfl, rfl, rfl, rfl, rfl, hsleep₀⟩
      rw [hfl]
      rfl
  rw [hrun, Option.map_some]
  have hc : (s₁.setPc pc).Core [] := by
    refine hg.core.act hr ha (Links.cond hg.core hpc hwaits hfor hcond hmutex hev)
      (fun h => by cases h) (fun _ => Or.inr (Or.inr rfl)) (hfits _ (ha.sameLives hr.live)) ?_
      (hsleep.congr rfl fun _ => rfl)
    exact ⟨c, by rw [ha.pcOf_self hr, hwaits]⟩
  exact ha.does_switch hg hr hpc hc (fun h => by cases h) (fun h => by cases h) hmutex hlog hfor

/-- `st_cond_timedwait` returns at once, or waits. -/
theorem condTimedwait_does (hg : s.Good) (hr : s.Runs t) (hpc : s.pcOf t = .user r) (c : Cond)
    (timeout : ℕ) : s.Does (s.condTimedwait c timeout) := by
  unfold condTimedwait
  rw [hr.this]
  refine interrupted_does hg hr hpc ?_
  exact condBlock_does hg hr hpc c timeout (fun _ => eq_comm) (fun _ => id) fun _ _ => rfl

end wait

/-! ## Waking others -/

section others

variable {s : St} {t : ℕ} {r : Res}

/-- A change of other threads by the running fiber. -/
structure Pokes (s s' : St) : Prop where
  lives : SameLives s s'
  fiber : s'.fiber = s.fiber
  running : s'.running = s.running
  this_thread : s'.this_thread = s.this_thread
  state : ∀ t, (s.thread t).state = .RUNNING → (s'.thread t).state = .RUNNING

/-- To wake threads changes other threads only. -/
theorem Wakes.pokes {s' : St} {l : List ℕ} (h : Wakes s s' l) : Pokes s s' := by
  refine ⟨h.lives, h.fiber, h.running, h.this_thread, fun u hst => ?_⟩
  have hu : u ∉ l := by
    intro hmem
    have := (h.state u hmem).2.2
    rw [hst] at this
    simp at this
  rw [h.same u hu]
  exact hst

namespace Pokes

variable {s' : St} (h : Pokes s s')
include h

/-- The running thread goes on running. -/
theorem runs (hr : s.Runs t) : s'.Runs t := by
  refine ⟨(h.lives.live t).mpr hr.live, ?_, h.state t hr.state, ?_⟩
  · rw [h.running, h.lives.id]
    exact hr.running
  · rw [h.this_thread]
    exact hr.this

/-- Each stack keeps its owner. -/
theorem ownership (ho : s.Ownership)
    (hdead : s.running ∈ s.threads → (s.life s.running).exits = 0) : s'.Ownership :=
  h.lives.ownership ho (ho.placeOk h.fiber) hdead

/-- Each thread stays where it is. -/
theorem pcOf (u : ℕ) : s'.pcOf u = s.pcOf u := by
  unfold St.pcOf
  rw [h.lives.id, h.fiber]

/-- The call then returns. -/
theorem fine_ret (hg : s.Good) (hr : s.Runs t) (hpc : s.pcOf t = .user r) (hc : s'.Core [])
    (r' : Res) : Fine s (s'.ret r') ∧ LockFrame s' (s'.ret r') := by
  have hr' := h.runs hr
  have hg' : s'.Good := ⟨hc, h.ownership hg.own hr.not_dead,
    Turn.thread t hr'.live hr'.running hr'.state hr'.this⟩
  obtain ⟨hfine, hlock⟩ := ret_does hg' hr' (by rw [h.pcOf]; exact hpc) r'
  have h2 := hr'.two_le hg'.own
  refine ⟨⟨hfine.good, h.lives.trans hfine.lives h.running, fun _ => hfine.idle fun h0 => ?_,
    fun h0 => ?_⟩, hlock⟩
  · omega
  · have h0 : s'.running = 0 := h0
    omega

end Pokes

/-- `st_cond_signal` and `st_cond_broadcast`. -/
theorem condSignal_does (hg : s.Good) (hr : s.Runs t) (hpc : s.pcOf t = .user r) (c : Cond)
    (broadcast : Bool) (r' : Res) : s.Does ((s.condSignal c broadcast).map (·.ret r')) := by
  obtain ⟨s', l, hrun, hc, hw⟩ := condSignal_core hg.core c broadcast
  rw [hrun]
  obtain ⟨hfine, hlock⟩ := hw.pokes.fine_ret hg hr hpc hc r'
  exact ⟨_, rfl, hfine, hw.lockFrame.trans hlock⟩

/-- Only a live thread waits: the others are zombies, on the free list, or the idle thread. -/
theorem Ownership.live_of_waits (ho : s.Ownership) {u : ℕ} (hu : u < s.segments)
    (hz : (s.thread u).state ≠ .ZOMBIE) (hrunning : (s.thread u).state ≠ .RUNNING)
    (hrunnable : (s.thread u).state ≠ .RUNNABLE) : s.Live u := by
  rcases ho.cover u hu with hfree | hl | h0 | hleave
  · rcases (ho.free u hfree).2.2.2.2 with h | h
    · exact absurd h hz
    · exact absurd h hrunning
  · exact hl
  · rw [h0] at hrunning hrunnable
    rcases ho.idle_state with h | h
    · exact absurd h hrunning
    · exact absurd h hrunnable
  · exact absurd hleave.state hz

/-- The flag of an interrupt is set. -/
theorem interrupt_flag_core (hc : s.Core []) (u : ℕ) :
    let s' := s.setFlags u fun fl => { fl with interrupt := true }
    s'.Core [] ∧ Pokes s s' ∧ LockFrame s s' := by
  have hf := flagsOk_interrupt true
  have hst : ∀ v, ((s.setFlags u fun fl => { fl with interrupt := true }).thread v).state =
      (s.thread v).state := by
    intro v
    rw [setFlags_thread]
    split_ifs with hv
    · rw [hv]
    · rfl
  refine ⟨setFlags_core hc hf, ⟨setFlags_sameLives hf, rfl, rfl, rfl, fun v h => (hst v).trans h⟩,
    LockFrame.of_thread rfl rfl (setFlags_sameLives hf) rfl (fun v => by rw [hst]; exact id)
      (fun v => by rw [hst]; exact Or.inl) fun v hi => ?_⟩
  rw [setFlags_thread]
  split_ifs
  · rfl
  · exact hi

/-- A thread that waits is woken, with the flag of the interrupt set. -/
theorem interrupt_wake_core (hc : s.Core []) {u : ℕ} (hl : s.Live u)
    (hrunning : (s.thread u).state ≠ .RUNNING) (hrunnable : (s.thread u).state ≠ .RUNNABLE) :
    ∃ s', (s.setFlags u fun fl => { fl with interrupt := true }).wake u = some s' ∧ s'.Core [] ∧
      Pokes s s' ∧ LockFrame s s' := by
  -- The flag is written before the thread is woken, so the wake finds it set.
  generalize hs₁ : s.setFlags u (fun fl => { fl with interrupt := true }) = s₁
  have hth₁ : ∀ v, s₁.thread v = if v = u then
      { s.thread u with flags := { (s.thread u).flags with interrupt := true } }
      else s.thread v := by
    intro v
    rw [← hs₁, setFlags_thread]
  have hlives₁ : SameLives s s₁ := by
    rw [← hs₁]
    exact setFlags_sameLives (flagsOk_interrupt true)
  have hc₁ : s₁.Core [] := by
    rw [← hs₁]
    exact setFlags_core hc (flagsOk_interrupt true)
  obtain ⟨heap, hwake, hsleep⟩ := wake_eq hc₁.sleep u
  have hl₁ := (hlives₁.live u).mpr hl
  have hlives : SameLives s (s₁.woken u heap) :=
    hlives₁.trans (woken_sameLives hl₁) (by rw [← hs₁]; rfl)
  have hother : ∀ v, v ≠ u → (s₁.woken u heap).thread v = s.thread v := by
    intro v hv
    rw [woken_frame.thread v hv, hth₁, if_neg hv]
  have hself : ((s₁.woken u heap).thread u).state = .RUNNABLE ∧
      ((s₁.woken u heap).thread u).flags.interrupt = true := by
    simp [woken, hth₁]
  -- One goal for each thing that the caller is told: the others are untouched, and `u` has the
  -- flag.
  refine ⟨_, hwake, woken_core hc₁ hl₁ ?_ (fun _ h _ => h) hsleep,
    ⟨hlives, by rw [← hs₁]; rfl, by rw [← hs₁]; rfl, by rw [← hs₁]; rfl, fun v hst => ?_⟩,
    LockFrame.of_thread (by rw [← hs₁]; rfl) (by rw [← hs₁]; rfl) hlives (by rw [← hs₁]; rfl)
      (fun v => ?_) (fun v => ?_) fun v => ?_⟩
  · rw [hth₁, if_pos rfl]
    exact hrunnable
  · have hv : v ≠ u := by
      rintro rfl
      exact hrunning hst
    rw [hother v hv]
    exact hst
  · by_cases hv : v = u
    · subst hv
      rw [hself.1]
      exact fun h => by cases h
    · rw [hother v hv]
      exact id
  · by_cases hv : v = u
    · subst hv
      exact fun _ => Or.inr hself.2
    · rw [hother v hv]
      exact Or.inl
  · by_cases hv : v = u
    · subst hv
      exact fun _ => hself.2
    · rw [hother v hv]
      exact id

/-- `st_thread_interrupt` of any thread. -/
theorem threadInterrupt_core (hc : s.Core []) (ho : s.Ownership) {u : ℕ} (hu : u < s.segments) :
    ∃ s', s.threadInterrupt u = some s' ∧ s'.Core [] ∧ Pokes s s' ∧ LockFrame s s' := by
  unfold threadInterrupt
  dsimp only
  split_ifs with hz hrun
  · -- A zombie is left alone.
    exact ⟨s, rfl, hc, ⟨SameLives.refl s, rfl, rfl, rfl, fun _ h => h⟩, LockFrame.refl s⟩
  · -- The thread runs or is runnable: only the flag.
    exact ⟨_, rfl, interrupt_flag_core hc u⟩
  · rw [setFlags_thread, if_pos rfl] at hrun
    dsimp only at hrun
    rw [not_or] at hrun
    exact interrupt_wake_core hc (ho.live_of_waits hu hz hrun.1 hrun.2) hrun.1 hrun.2

/-- `st_thread_interrupt` returns. -/
theorem threadInterrupt_does (hg : s.Good) (hr : s.Runs t) (hpc : s.pcOf t = .user r) {u : ℕ}
    (hu : u < s.segments) (r' : Res) : s.Does ((s.threadInterrupt u).map (·.ret r')) := by
  obtain ⟨s', hrun, hc, hp, hlock⟩ := threadInterrupt_core hg.core hg.own hu
  rw [hrun]
  obtain ⟨hfine, hlock'⟩ := hp.fine_ret hg hr hpc hc r'
  exact ⟨_, rfl, hfine, hlock.trans hlock'⟩

end others

end StWin.St
