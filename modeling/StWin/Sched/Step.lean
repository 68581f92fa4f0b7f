import StWin.Sched.Aside
import StWin.Sched.Join

/-!
# Steps of a well-used scheduler

`Ok` says which steps of a run are as the library expects them: nobody calls `st_thread_exit` from a
start function, `st_thread_create` gets its fiber whenever it gets its stack, a start function returns
only when nobody waits for the thread in `st_thread_join`, the idle loop does not run out, `main` does
not wait in the name of a thread (it may call `st_usleep` when the last thread has terminated), and no
`select` reports to a thread that is runnable already. `step_outcome` lists what such a step can come to
in a good state. Each of the outcomes keeps the invariant.
-/

namespace StWin.St

/-- What a call is allowed in. `main` may not wait in the name of `_st_this_thread`. -/
def Allowed (s : St) : Call → Prop
  | .exit _ => s.this_thread = none
  | .create _ _ ok => ok.fiber = true
  | .poll _ _ => s.running = 0 → s.this_thread = none
  | .condTimedwait _ _ => s.running = 0 → s.this_thread = none
  | .mutexLock _ => s.running = 0 → s.this_thread = none
  | .join _ => s.running = 0 → s.this_thread = none
  | .usleep _ => s.running = 0 → s.This fun t => (s.thread t).state = .ZOMBIE
  | _ => True

instance (s : St) : (c : Call) → Decidable (s.Allowed c)
  | .exit _ => inferInstanceAs (Decidable (s.this_thread = none))
  | .create _ _ ok => inferInstanceAs (Decidable (ok.fiber = true))
  | .poll _ _ => inferInstanceAs (Decidable (s.running = 0 → s.this_thread = none))
  | .condTimedwait _ _ => inferInstanceAs (Decidable (s.running = 0 → s.this_thread = none))
  | .mutexLock _ => inferInstanceAs (Decidable (s.running = 0 → s.this_thread = none))
  | .join _ => inferInstanceAs (Decidable (s.running = 0 → s.this_thread = none))
  | .usleep _ => inferInstanceAs (Decidable (s.running = 0 →
      s.This fun t => (s.thread t).state = .ZOMBIE))
  | .condSignal _ => inferInstanceAs (Decidable True)
  | .condBroadcast _ => inferInstanceAs (Decidable True)
  | .mutexTrylock _ => inferInstanceAs (Decidable True)
  | .mutexUnlock _ => inferInstanceAs (Decidable True)
  | .interrupt _ => inferInstanceAs (Decidable True)
  | .idleRun => inferInstanceAs (Decidable True)

/-- What a step is allowed in. -/
def Ok (s : St) : Label → Prop
  | .call c => s.Allowed c
  | .ret _ => s.This s.Unjoined
  | .resume => s.running = 1 → 0 < s.active_count
  | .dispatch outcomes => s.Quiet outcomes
  | .clock _ => True

instance (s : St) : (l : Label) → Decidable (s.Ok l)
  | .call c => inferInstanceAs (Decidable (s.Allowed c))
  | .ret _ => inferInstanceAs (Decidable (s.This s.Unjoined))
  | .resume => inferInstanceAs (Decidable (s.running = 1 → 0 < s.active_count))
  | .dispatch outcomes => inferInstanceAs (Decidable (s.Quiet outcomes))
  | .clock _ => inferInstanceAs (Decidable True)

/-- What a step from a good state comes to. -/
inductive Outcome (s : St) (l : Label) (s' : St) : Prop where
  /-- Nobody is created, terminates, or uses a mutex. -/
  | same (fine : Fine s s') (lock : LockFrame s s')
  | lock (m t : ℕ) (runs : s.Runs t) (label : l = .call (.mutexLock m)) (fine : Fine s s')
      (outcome : LockOutcome s s' m t)
  | lockEnd (m t : ℕ) (runs : s.Runs t) (pc : s.pcOf t = .lock t m) (fine : Fine s s')
      (outcome : LockEnd s s' m t)
  | trylock (m t : ℕ) (runs : s.Runs t) (label : l = .call (.mutexTrylock m)) (fine : Fine s s')
      (outcome : TrylockOutcome s s' m t)
  | unlock (m t : ℕ) (runs : s.Runs t) (label : l = .call (.mutexUnlock m)) (fine : Fine s s')
      (pc : ∃ r, s'.pcOf t = .user r)
      (outcome : ((s.mutex m).owner ≠ some t ∧ LockFrame s s') ∨ ((s.mutex m).owner = some t ∧
        Locks s s' m t ⟨s.firstLockWait m, (s.mutex m).wait_q⟩ [.unlocked m t]))
  /-- `main` uses a mutex. -/
  | mainLock (main : s.running = 0) (m : ℕ)
      (label : l = .call (.mutexTrylock m) ∨ l = .call (.mutexUnlock m)) (fine : Fine s s')
  | creates (joinable : Bool) (stk_size : ℤ) (ok : Acquire)
      (label : l = .call (.create joinable stk_size ok)) (s₁ : St) (t : ℕ) (th : Thread)
      (started : Bool) (makes : Makes s s₁ t th started) (term : joinable = false → th.term = none)
      (r : Res) (eq : s' = s₁.ret r) (good : s'.Good) (lock : LockFrame s s')
  | exits (t : ℕ) (v retval : ℤ) (joinable : Bool) (runs : s.Runs t) (label : l = .ret v)
      (exits : Exits (s.note (.returned s.running v)) s' t retval joinable) (good : s'.Good)
      (lock : LockFrame s s')
  | frees (t : ℕ) (leaving : s.Leaving t) (frees : Frees s s' t) (good : s'.Good)
      (lock : LockFrame s s')
  /-- `main` calls `st_thread_exit` before any thread has run. -/
  | nothing (main : s.running = 0) (retval : ℤ) (label : l = .call (.exit retval)) (f : Life → Life)
      (r : Res) (eq : s' = (s.setLife 0 f).ret r) (good : s'.Good) (lock : LockFrame s s')

/-- Each outcome is a good state. -/
theorem Outcome.good {s s' : St} {l : Label} (h : Outcome s l s') : s'.Good := by
  cases h with
  | same fine _ => exact fine.good
  | lock _ _ _ _ fine _ => exact fine.good
  | lockEnd _ _ _ _ fine _ => exact fine.good
  | trylock _ _ _ _ fine _ => exact fine.good
  | unlock _ _ _ _ fine _ _ => exact fine.good
  | mainLock _ _ _ fine => exact fine.good
  | creates _ _ _ _ _ _ _ _ _ _ _ _ good _ => exact good
  | exits _ _ _ _ _ _ _ good _ => exact good
  | frees _ _ _ good _ => exact good
  | nothing _ _ _ _ _ _ good _ => exact good

/-- What a step does to the threads, whatever it does to the mutexes. -/
inductive Change (s : St) (l : Label) (s' : St) : Prop where
  | fine (fine : Fine s s')
  | creates (joinable : Bool) (stk_size : ℤ) (ok : Acquire)
      (label : l = .call (.create joinable stk_size ok)) (s₁ : St) (t : ℕ) (th : Thread)
      (started : Bool) (makes : Makes s s₁ t th started) (term : joinable = false → th.term = none)
      (r : Res) (eq : s' = s₁.ret r)
  | exits (t : ℕ) (v retval : ℤ) (joinable : Bool) (runs : s.Runs t) (label : l = .ret v)
      (exits : Exits (s.note (.returned s.running v)) s' t retval joinable)
  | frees (t : ℕ) (leaving : s.Leaving t) (frees : Frees s s' t)
  | nothing (main : s.running = 0) (retval : ℤ) (label : l = .call (.exit retval)) (f : Life → Life)
      (r : Res) (eq : s' = (s.setLife 0 f).ret r)

/-- What an outcome does to the threads. -/
theorem Outcome.change {s s' : St} {l : Label} (h : Outcome s l s') : Change s l s' := by
  cases h with
  | same fine _ => exact .fine fine
  | lock _ _ _ _ fine _ => exact .fine fine
  | lockEnd _ _ _ _ fine _ => exact .fine fine
  | trylock _ _ _ _ fine _ => exact .fine fine
  | unlock _ _ _ _ fine _ _ => exact .fine fine
  | mainLock _ _ _ fine => exact .fine fine
  | creates joinable stk_size ok label s₁ t th started makes term r eq _ _ =>
    exact .creates joinable stk_size ok label s₁ t th started makes term r eq
  | exits t v retval joinable runs label exits _ _ =>
    exact .exits t v retval joinable runs label exits
  | frees t leaving frees _ _ => exact .frees t leaving frees
  | nothing main retval label f r eq _ _ => exact .nothing main retval label f r eq

/-- A step that does something fine. -/
theorem Outcome.of_does {s s' : St} {l : Label} {o : Option St} (h : s.Does o) (ho : o = some s') :
    Outcome s l s' := by
  obtain ⟨s₁, hs₁, hfine, hlock⟩ := h
  rw [ho] at hs₁
  cases hs₁
  exact .same hfine hlock

section steps

variable {s s' : St} {t : ℕ} {r : Res}

/-- The place of the running fiber is that of the running thread. -/
theorem Runs.pc_eq (hr : s.Runs t) : (s.fiber s.running).pc = s.pcOf t := by
  unfold pcOf
  rw [hr.running]

/-- `st_thread_create` by a running thread. -/
theorem create_thread (hg : s.Good) (hr : s.Runs t) (hpc : s.pcOf t = .user r) {s₁ : St} {u : ℕ}
    {th : Thread} {started : Bool} (h : Makes s s₁ u th started) (r' : Res) :
    (s₁.ret r').Good ∧ LockFrame s (s₁.ret r') := by
  have hr₁ := h.runs hg.own hr
  have hpc₁ : s₁.pcOf t = .user r := by
    rw [(h.of_live hg.own hr.live).2.2]
    exact hpc
  have hg₁ : s₁.Good := ⟨h.core hg.core hg.own, h.ownership hg.own hr.not_dead,
    Turn.thread t hr₁.live hr₁.running hr₁.state hr₁.this⟩
  obtain ⟨hfine, hlock⟩ := ret_does hg₁ hr₁ hpc₁ r'
  exact ⟨hfine.good, (h.lockFrame hg.own).trans hlock⟩

/-- `st_thread_create` by `main`. -/
theorem create_main (hg : s.Good) (hmain : s.running = 0) {s₁ : St} {u : ℕ}
    {th : Thread} {started : Bool} (h : Makes s s₁ u th started) (r' : Res) :
    (s₁.ret r').Good ∧ LockFrame s (s₁.ret r') := by
  have hmain₁ : s₁.running = 0 := h.running.trans hmain
  have hown := h.ownership hg.own (not_dead_of_lt hg.own (by omega))
  have hg₁ : s₁.Good := ⟨h.core hg.core hg.own, hown, Turn.main hmain₁⟩
  obtain ⟨hfine, hlock⟩ := main_ret hg₁ hmain₁ r'
  exact ⟨hfine.good, (h.lockFrame hg.own).trans hlock⟩

/-- `st_thread_create`, by a running thread or by `main`. -/
theorem create_outcome (hg : s.Good) (hfresh : s.cond_q (.term s.terms) = [])
    (hret : ∀ r', Fine s (s.ret r') ∧ LockFrame s (s.ret r'))
    (hmakes : ∀ {s₁ u th started}, Makes s s₁ u th started → ∀ r',
      (s₁.ret r').Good ∧ LockFrame s (s₁.ret r'))
    (joinable : Bool) (stk_size : ℤ) {ok : Acquire} (hok : ok.fiber = true)
    (h : s.call (.create joinable stk_size ok) = some s') :
    Outcome s (.call (.create joinable stk_size ok)) s' := by
  obtain ⟨r', hs'⟩ := call_create_eq h
  rcases threadCreate_makes hg.own hfresh joinable stk_size hok with
    heq | ⟨u, th, started, hm, hterm⟩
  · rw [hs', heq]
    exact .same (hret r').1 (hret r').2
  · obtain ⟨hgood, hlock⟩ := hmakes hm r'
    rw [← hs'] at hgood hlock
    exact .creates joinable stk_size ok rfl _ u th started hm hterm r' hs' hgood hlock

/-- A call of a running thread. -/
theorem call_thread (hg : s.Good) (hfresh : s.cond_q (.term s.terms) = []) (hr : s.Runs t)
    (hpc : s.pcOf t = .user r) {c : Call} (hok : s.Allowed c) (h : s.call c = some s') :
    Outcome s (.call c) s' := by
  cases c with
  | poll pds timeout => exact .of_does (poll_does hg hr hpc pds timeout) h
  | usleep usecs => exact .of_does (usleep_does hg hr hpc usecs) h
  | condTimedwait n timeout => exact .of_does (condTimedwait_does hg hr hpc (.user n) timeout) h
  | condSignal n => exact .of_does (condSignal_does hg hr hpc (.user n) false (.ok 0)) h
  | condBroadcast n => exact .of_does (condSignal_does hg hr hpc (.user n) true (.ok 0)) h
  | mutexLock m =>
    obtain ⟨s₁, hs₁, hfine, hout⟩ := mutexLock_fine hg hr hpc m
    have heq : s₁ = s' := by
      have h : s.mutexLock m = some s' := h
      rw [hs₁] at h
      cases h
      rfl
    rw [heq] at hfine hout
    exact .lock m t hr rfl hfine hout
  | mutexTrylock m =>
    cases h
    obtain ⟨hfine, hout⟩ := mutexTrylock_fine hg hr hpc m
    exact .trylock m t hr rfl hfine hout
  | mutexUnlock m =>
    cases h
    obtain ⟨hfine, hpc', hout⟩ := mutexUnlock_fine hg hr hpc m
    exact .unlock m t hr rfl hfine hpc' hout
  | interrupt u =>
    simp only [call] at h
    split_ifs at h with hu
    exact .of_does (threadInterrupt_does hg hr hpc hu (.ok 0)) h
  | create joinable stk_size ok =>
    exact create_outcome hg hfresh (ret_does hg hr hpc) (create_thread hg hr hpc) joinable stk_size hok h
  | join u =>
    simp only [call] at h
    split_ifs at h with hu
    exact .of_does (threadJoin_does hg hr hpc hu) h
  -- `st_thread_exit` within a thread is not `Ok`.
  | exit retval =>
    have hnone : s.this_thread = none := hok
    rw [hr.this] at hnone
    cases hnone
  -- Only `main` calls `st_idle_thread_run`.
  | idleRun =>
    have := hr.two_le hg.own
    simp only [call] at h
    split_ifs at h
    omega

/-- `main` calls `st_thread_exit` before any thread has run. -/
theorem main_exit (hg : s.Good) (hmain : s.running = 0) (f : Life → Life) (r : Res) :
    ((s.setLife 0 f).ret r).Good ∧ LockFrame s ((s.setLife 0 f).ret r) := by
  have ho := hg.own
  -- Only the history of `main` is written, and `main` is not a thread of the scheduler.
  have hlife : ∀ g, g ≠ 0 → (s.setLife 0 f).life g = s.life g := by
    intro g hg
    simp [setLife, hg]
  have hmem : ∀ {g}, g ∈ s.threads → g ≠ 0 := by
    intro g hg
    have := (ho.thread g hg).1
    omega
  have hleave : ∀ {u}, ¬s.Leaving u := Leaving.not_of_exits (not_dead_of_lt ho (by omega))
  have hlive : ∀ u, (s.setLife 0 f).Live u ↔ s.Live u := by
    intro u
    refine and_congr_right fun hin => ?_
    rw [hlife _ (hmem hin)]
    exact Iff.rfl
  -- Coherence does not speak of `main`.
  have hc : (s.setLife 0 f).Core [] := by
    obtain ⟨h1, h2, h3, h4, h5⟩ := (hg.core.recs 0).not_live ho.not_live_zero
    have hframe : Frame s (s.setLife 0 f) 0 :=
      ⟨fun _ _ => rfl, fun u _ => hlive u, fun _ _ _ _ hl _ => absurd hl ho.not_live_zero,
        fun _ _ _ => rfl,
        fun _ _ => Iff.rfl, fun _ _ _ => Iff.rfl, fun _ _ _ => Iff.rfl, fun _ _ h => ⟨h, rfl⟩,
        fun _ _ _ => ⟨rfl, rfl, fun h => h⟩, le_rfl, fun _ _ _ h h' _ => ⟨h, h'⟩⟩
    refine hg.core.move hframe ?_ (fun _ h _ => h) hg.core.run_nodup hg.core.cond_nodup
      hg.core.wait_nodup hg.core.sleep hg.core.ev
    exact Rec.of_not_live (fun hl => ho.not_live_zero ((hlive 0).mp hl)) h1 h2 h3 h4 h5
  -- Neither does the ownership of stacks.
  have ho₁ : (s.setLife 0 f).Ownership := by
    refine ⟨ho.idle_thread, ho.idle_id, ho.idle_context, ho.idle_term, ho.idle_state, ho.idle_thd,
      ho.idle_pc, ho.idle_stack, ho.main_pc, ho.nodup, ho.thread, fun g hin hex => ?_,
      fun g hin hex => ?_, ho.ids, ho.created, ho.free_nodup, fun u hu => ?_, fun u hu => ?_,
      fun u hl => ho.primordial u ((hlive u).mp hl)⟩
    · rw [hlife g (hmem hin)] at hex ⊢
      exact ho.live g hin hex
    · rw [hlife g (hmem hin)] at hex ⊢
      exact Or.inl ((ho.dead g hin hex).resolve_right fun hc => hleave hc.2.choose_spec)
    · rw [hlive]
      exact ho.free u hu
    · rw [hlive]
      rcases ho.cover u hu with hfree | hl | hzero | hl
      · exact Or.inl hfree
      · exact Or.inr (Or.inl hl)
      · exact Or.inr (Or.inr (Or.inl hzero))
      · exact absurd hl hleave
  have hg₁ : (s.setLife 0 f).Good := ⟨hc, ho₁, Turn.main hmain⟩
  obtain ⟨hfine, hlock⟩ := main_ret hg₁ hmain r
  refine ⟨hfine.good, LockFrame.trans ?_ hlock⟩
  exact ⟨rfl, ⟨[], rfl, by simp⟩,
    fun u m hl hpc => ⟨(hlive u).mpr hl, hpc, fun h => h, fun h => Or.inl h, fun h => h⟩,
    fun u m hl hpc => ⟨(hlive u).mp hl, hpc⟩⟩

/-- `st_mutex_trylock`, up to its return, by whoever calls it. -/
theorem mutexTrylock_core (hc : s.Core []) (m : ℕ) :
    ∃ s₁ r', s.mutexTrylock m = s₁.ret r' ∧ s₁.Core [] ∧ Pokes s s₁ := by
  unfold mutexTrylock
  split_ifs
  · exact ⟨s, _, rfl, hc, SameLives.refl s, rfl, rfl, rfl, fun _ h => h⟩
  · dsimp only
    refine ⟨_, _, rfl, ?_⟩
    have hwait : ∀ (s₀ : St) owner m', ((s₀.setOwner m owner).mutex m').wait_q =
        (s₀.mutex m').wait_q := by
      intro s₀ owner m'
      by_cases hm : m' = m
      · subst hm
        simp [setOwner]
      · simp [setOwner, hm]
    split
    · exact ⟨hc.congr rfl rfl rfl rfl (hwait (s.note _) _) rfl rfl rfl rfl rfl rfl,
        pokes_of_eq rfl rfl rfl rfl rfl rfl rfl rfl rfl rfl rfl rfl⟩
    · exact ⟨hc.congr rfl rfl rfl rfl (hwait s _) rfl rfl rfl rfl rfl rfl,
        pokes_of_eq rfl rfl rfl rfl rfl rfl rfl rfl rfl rfl rfl rfl⟩

/-- `st_usleep`, when `_st_this_thread` has terminated: only the turn is given away. -/
theorem usleep_of_zombie (h : s.This fun t => (s.thread t).state = .ZOMBIE) (usecs : ℕ) :
    s.usleep usecs = some (s.ret (.ok 0)).vpSchedule := by
  unfold usleep
  cases hthis : s.this_thread with
  | none => rfl
  | some t =>
    dsimp only
    rw [if_pos (h.some hthis)]

/-- A call of `main`. -/
theorem call_main (hg : s.Good) (hfresh : s.cond_q (.term s.terms) = []) (hmain : s.running = 0)
    {c : Call} (hok : s.Allowed c) (h : s.call c = some s') : Outcome s (.call c) s' := by
  have hret : ∀ r', s.ret r' = s' → Outcome s (.call c) s' := by
    intro r' heq
    obtain ⟨hfine, hlock⟩ := main_ret hg hmain r'
    rw [heq] at hfine hlock
    exact .same hfine hlock
  -- Whoever is woken, `main` goes on.
  have hpokes : ∀ {s₁ : St} {r' : Res}, Pokes s s₁ → LockFrame s s₁ → s₁.Core [] → s₁.ret r' = s' →
      Outcome s (.call c) s' := by
    intro s₁ r' hp hlock hc heq
    obtain ⟨hfine, hlock'⟩ := hp.main_setPc hg hmain hc (Or.inl ⟨r', rfl⟩)
    have heq : s₁.setPc (.user r') = s' := heq
    rw [heq] at hfine hlock'
    exact .same hfine (hlock.trans hlock')
  cases c with
  | poll pds timeout =>
    have hnone : s.this_thread = none := hok hmain
    simp only [call, poll, hnone, Option.some_inj] at h
    exact hret _ h
  | usleep usecs =>
    have hdoes : s.Does (s.usleep usecs) := by
      rw [usleep_of_zombie (hok hmain)]
      exact main_vpSchedule hg hmain (Or.inl ⟨_, rfl⟩)
    exact .of_does hdoes h
  | condTimedwait n timeout =>
    have hnone : s.this_thread = none := hok hmain
    simp only [call, condTimedwait, hnone, Option.some_inj] at h
    exact hret _ h
  | condSignal n =>
    obtain ⟨s₁, l, hrun, hc, hw⟩ := condSignal_core hg.core (.user n) false
    simp only [call, hrun, Option.map_some, Option.some_inj] at h
    exact hpokes hw.pokes hw.lockFrame hc h
  | condBroadcast n =>
    obtain ⟨s₁, l, hrun, hc, hw⟩ := condSignal_core hg.core (.user n) true
    simp only [call, hrun, Option.map_some, Option.some_inj] at h
    exact hpokes hw.pokes hw.lockFrame hc h
  | mutexLock m =>
    have hnone : s.this_thread = none := hok hmain
    simp only [call, mutexLock, hnone, Option.some_inj] at h
    exact hret _ h
  | mutexTrylock m =>
    cases h
    refine .mainLock hmain m (Or.inl rfl) ?_
    obtain ⟨s₁, r', heq, hc, hp⟩ := mutexTrylock_core hg.core m
    rw [heq]
    exact (hp.main_setPc hg hmain hc (Or.inl ⟨r', rfl⟩)).1
  | mutexUnlock m =>
    cases h
    refine .mainLock hmain m (Or.inr rfl) ?_
    obtain ⟨s₁, r', heq, hc, hp, -⟩ := mutexUnlock_core hg.core m
    rw [heq]
    exact (hp.main_setPc hg hmain hc (Or.inl ⟨r', rfl⟩)).1
  | interrupt u =>
    simp only [call] at h
    split_ifs at h with hu
    obtain ⟨s₁, hrun, hc, hp, hlock⟩ := threadInterrupt_core hg.core hg.own hu
    simp only [hrun, Option.map_some, Option.some_inj] at h
    exact hpokes hp hlock hc h
  | create joinable stk_size ok =>
    exact create_outcome hg hfresh (main_ret hg hmain) (create_main hg hmain) joinable stk_size hok h
  | join u =>
    have hnone : s.this_thread = none := hok hmain
    simp only [call] at h
    split_ifs at h with hu
    rcases threadJoin_paths h with ⟨r, heq⟩ | ⟨c, hterm, -, h⟩
    · exact hret r heq.symm
    · -- The loop would not end.
      cases joinLoop_paths h with
      | joined state _ => exact absurd state (hg.joinable (not_dead_of_lt hg.own (by omega)) hu hterm).2
      | interrupted me this _ =>
        rw [hnone] at this
        cases this
      | waits me this _ =>
        rw [hnone] at this
        cases this
  | exit retval =>
    have hnone : s.this_thread = none := hok
    simp only [call, threadExit, hnone, exitReturn, hmain, if_true, Option.some_inj] at h
    obtain ⟨hgood, hlock⟩ := main_exit hg hmain (fun l => { l with back := true }) (.ok 0)
    rw [h] at hgood hlock
    exact .nothing hmain retval rfl _ _ h.symm hgood hlock
  | idleRun =>
    simp only [call, hmain, if_true, Option.some_inj] at h
    obtain ⟨hfine, hlock⟩ := main_setPc hg hmain (Or.inr ⟨.dispatch, rfl⟩)
    rw [h] at hfine hlock
    exact .same hfine hlock

/-- A step of `main`. -/
theorem step_main (hg : s.Good) (hfresh : s.cond_q (.term s.terms) = []) (hmain : s.running = 0)
    {l : Label} (hok : s.Ok l) (h : s.step l = some s') : Outcome s l s' := by
  rcases hg.own.main_pc with ⟨r, hpc⟩ | ⟨stage, hpc⟩
  · rw [← hmain] at hpc
    cases step_goes hpc h with
    | call c hcall => exact call_main hg hfresh hmain hok hcall
    | ret v thread _ => exact absurd hmain thread
  · rw [← hmain] at hpc
    cases step_goes hpc h with
    | nativeDispatch outcomes _ s₁ hidle eq =>
      obtain ⟨s₂, hrun, hc, hp, hlock, -⟩ := vpIdle_pokes hg (hg.main_offTurn hmain) hok
      obtain rfl : s₁ = s₂ := Option.some_inj.mp (hidle.symm.trans hrun)
      obtain ⟨hfine, hlock'⟩ := hp.main_setPc hg hmain hc (Or.inr ⟨.clock, rfl⟩)
      rw [← eq] at hfine hlock'
      exact .same hfine (hlock.trans hlock')
    | nativeEnd _ eq =>
      obtain ⟨hfine, hlock⟩ := main_ret hg hmain (.ok 0)
      rw [← eq] at hfine hlock
      exact .same hfine hlock
    | nativeClock now s₁ hclock eq =>
      obtain ⟨s₂, hrun, hc, hp, hlock, -⟩ := vpCheckClock_pokes hg now
      obtain rfl : s₁ = s₂ := Option.some_inj.mp (hclock.symm.trans hrun)
      obtain ⟨hfine, hlock'⟩ := hp.main_setPc hg hmain hc (Or.inr ⟨.sched, rfl⟩)
      rw [← eq] at hfine hlock'
      exact .same hfine (hlock.trans hlock')
    | nativeSched eq =>
      exact .of_does (main_vpSchedule hg hmain (Or.inr ⟨_, rfl⟩)) (congrArg some eq.symm)

/-- A step of the idle thread. -/
theorem step_idle (hg : s.Good) (hidle : s.running = 1) (hthis : s.this_thread = some 0)
    {l : Label} (hok : s.Ok l) (h : s.step l = some s') : Outcome s l s' := by
  have hoff : s.OffTurn := .of_lt hg.own (by omega)
  obtain ⟨stage, hpc⟩ := hg.own.idle_pc
  rw [← hidle] at hpc
  cases step_goes hpc h with
  | idleDispatch outcomes _ s₁ hdisp eq =>
    obtain ⟨s₂, hrun, hc, hp, hlock, -⟩ := vpIdle_pokes hg hoff hok
    obtain rfl : s₁ = s₂ := Option.some_inj.mp (hdisp.symm.trans hrun)
    have hstage : Stage.clock ≠ .dispatch := by decide
    obtain ⟨hfine, hlock'⟩ := hp.idle_setPc hg hidle hthis hc hstage
    rw [← eq] at hfine hlock'
    exact .same hfine (hlock.trans hlock')
  | idleEnd ended _ => exact absurd ended (not_le.mpr (hok hidle))
  | idleClock now s₁ hclock eq =>
    obtain ⟨s₂, hrun, hc, hp, hlock, -⟩ := vpCheckClock_pokes hg now
    obtain rfl : s₁ = s₂ := Option.some_inj.mp (hclock.symm.trans hrun)
    have hstage : Stage.sched ≠ .dispatch := by decide
    obtain ⟨hfine, hlock'⟩ := hp.idle_setPc hg hidle hthis hc hstage
    rw [← eq] at hfine hlock'
    exact .same hfine (hlock.trans hlock')
  | idleSched hsched => exact .of_does (idleSched_does hg hidle hthis (hok hidle)) hsched

/-- Recording an event changes nothing. -/
theorem Runs.note_good (hg : s.Good) (hr : s.Runs t) (n : Note) :
    (s.note n).Good ∧ (s.note n).Runs t := by
  have hp : Pokes s (s.note n) := pokes_of_eq rfl rfl rfl rfl rfl rfl rfl rfl rfl rfl rfl rfl
  have hr' := hp.runs hr
  refine ⟨⟨?_, hp.ownership hg.own hr.not_dead,
    Turn.thread t hr'.live hr'.running hr'.state hr'.this⟩, hr'⟩
  exact hg.core.congr rfl rfl rfl rfl (fun _ => rfl) rfl rfl rfl rfl rfl rfl

/-- The start function of a thread returns, while nobody waits for the thread. -/
theorem ret_thread (hg : s.Good) (hr : s.Runs t) (hpc : s.pcOf t = .user r)
    (hfree : s.Unjoined t) {v : ℤ} (h : s.step (.ret v) = some s') :
    Outcome s (.ret v) s' := by
  cases step_goes (hr.pc_eq.trans hpc) h with
  | ret v _ hexit =>
    obtain ⟨hg₁, hr₁⟩ := hr.note_good hg (.returned s.running v)
    obtain ⟨s₁, hs₁, hex⟩ := threadExit_exits hg₁ hr₁ hfree (s.thread (s.fiber s.running).thd).retval
    obtain rfl : s' = s₁ := Option.some_inj.mp (hexit.symm.trans hs₁)
    have hpc₁ : (s.note (.returned s.running v)).pcOf t = .user r := hpc
    refine .exits t v _ _ hr rfl hex (hex.good hg₁ hr₁ hpc₁ hfree) ?_
    refine LockFrame.trans ?_ (hex.lockFrame hr₁ hpc₁)
    exact ⟨rfl, ⟨[_], rfl, by simp [Note.isMutex]⟩,
      fun u m hl hpc => ⟨hl, hpc, fun h => h, fun h => Or.inl h, fun h => h⟩,
      fun u m hl hpc => ⟨hl, hpc⟩⟩

/-- A step of a live thread. -/
theorem step_thread (hg : s.Good) (hfresh : s.cond_q (.term s.terms) = []) (hr : s.Runs t)
    {l : Label} (hok : s.Ok l) (h : s.step l = some s') : Outcome s l s' := by
  have hfits := (hg.core.recs t).pc hr.live
  have hpc := hr.pc_eq
  cases hp : s.pcOf t with
  | user r =>
    rw [hp] at hpc
    cases step_goes hpc h with
    | call c hcall => exact call_thread hg hfresh hr hp hok hcall
    | ret v _ _ =>
      have hfree : s.This s.Unjoined := hok
      exact ret_thread hg hr hp (hfree.some hr.this) h
  | poll me q =>
    rw [hp] at hpc
    cases step_goes hpc h with
    | poll hend => exact .of_does (pollEnd_does hg hr hp) hend
  | condWait me c =>
    rw [hp] at hpc
    cases step_goes hpc h with
    | condWait hend => exact .of_does (condEnd_does hg hr hp) (congrArg some hend.symm)
  | lock me m =>
    rw [hp] at hpc
    cases step_goes hpc h with
    | lock hend =>
      obtain ⟨rfl, hfine, hout⟩ := mutexLockEnd_fine hg hr hp
      rw [← hend] at hfine hout
      exact .lockEnd m me hr hp hfine hout
  | join me c u =>
    rw [hp] at hpc
    cases step_goes hpc h with
    | join hend => exact .of_does (joinEnd_does hg hr hp) hend
  | _ =>
    -- The other places are those of `main`, of the idle thread and of a thread that exits.
    rw [hp] at hfits
    exact hfits.elim

/-- What a step comes to. -/
theorem step_outcome (hg : s.Good) (hfresh : s.cond_q (.term s.terms) = []) {l : Label}
    (hok : s.Ok l) (h : s.step l = some s') : Outcome s l s' := by
  rcases hg.turn with hmain | ⟨hidle, hthis⟩ | ⟨t, hl, hrun, hst, hthis⟩ | ⟨t, hmem, hex, hpc, hthis, hst⟩ |
    ⟨t, hleave, hthis⟩
  · exact step_main hg hfresh hmain hok h
  · exact step_idle hg hidle hthis hok h
  · exact step_thread hg hfresh ⟨hl, hrun, hst, hthis⟩ hok h
  · -- A thread that has exited swaps out for the last time.
    cases step_goes hpc h with
    | exitEnd hend =>
      obtain ⟨hfine, hlock⟩ := exitReturn_fine hg hmem hex hpc (.of_some hthis hst)
      rw [← hend] at hfine hlock
      exact .same hfine hlock
  · cases step_goes hleave.pc h with
    | exitTerm hend =>
      obtain ⟨s₁, hs₁, hfrees⟩ := exitTermEnd_frees hleave
      obtain rfl : s' = s₁ := Option.some_inj.mp (hend.symm.trans hs₁)
      exact .frees t hleave hfrees (hfrees.good hg hleave hthis) (hfrees.lockFrame hleave)

end steps

end StWin.St
