import StWin.Sched.Calls
import StWin.Sched.Plain

/-!
# The waiting calls after the switch back, and `st_thread_join`

When a thread that waited gets the turn again it takes itself off the queue that it waited on, and
looks at its flags. The loop of `st_thread_join` may then wait again.
-/

namespace StWin.St

section resume

variable {s : St} {t : ℕ}

/-- The end of a waiting call: the thread has unlinked itself, and returns to the program. -/
theorem Acts.does_user {s' : St} {f : Flags → Flags} {r : Res} (hg : s.Good) (hr : s.Runs t)
    (hf : FlagsOk f)
    (ha : Acts s s' t { s.thread t with flags := f (s.thread t).flags } (.user r))
    (hlinks : Links s s' t (.user r)) (hheap : s'.heap = s.heap) : Fine s s' := by
  refine ha.fine hg.own hr ?_ hr.state
  refine hg.core.act hr ha hlinks ?_ ?_ trivial ?_ (ha.sleepOk hg.core.sleep hheap (hf.on_sleepq _))
  · dsimp only
    rw [hr.state]
    decide
  · dsimp only
    rw [hf.on_sleepq, hg.core.off_sleepq hr]
    exact fun h => absurd h (by decide)
  · dsimp only
    rw [hr.state]
    exact ⟨by rw [ha.running, ha.id_eq, hr.running], by rw [ha.this_thread, hr.this]⟩

/-- The links of a thread that was in `st_poll`. -/
theorem Links.of_poll {s' : St} {q : ℕ} {r : Res} (hc : s.Core []) (hl : s.Live t)
    (hpc : s.pcOf t = .poll t q) (hcond : s'.cond_q = s.cond_q) (hmutex : s'.mutex = s.mutex)
    (hev : s'.ev = s.ev.unregister q) : Links s s' t (.user r) := by
  have hfits := (hc.recs t).pc hl
  rw [hpc] at hfits
  obtain ⟨-, howner, -, hio⟩ := hfits
  -- The pollq is off the queue, and it was the only one of this thread.
  obtain ⟨hq, hsub, hin, hpollq, hnext, hcounted⟩ : q ∉ s'.ev.io_q ∧
      (∀ q' ∈ s'.ev.io_q, q' ∈ s.ev.io_q) ∧ (∀ q' ∈ s.ev.io_q, q' ≠ q → q' ∈ s'.ev.io_q) ∧
      s'.ev.pollq = s.ev.pollq ∧ s'.ev.next = s.ev.next ∧ Ev.Counted s'.ev := by
    rw [hev]
    by_cases hon : (s.ev.pollq q).on_ioq = true
    · obtain ⟨h1, h2, h3⟩ := Ev.unregister_queue hc.ev (hio hon)
      have hc' := (Ev.unregister_counted hc.ev (hio hon)).1
      rw [h1, h2, h3]
      exact ⟨hc.ev.nodup.not_mem_erase, fun _ h => List.mem_of_mem_erase h,
        fun q' h hne => (List.mem_erase_of_ne hne).mpr h, rfl, rfl, hc'⟩
    · rw [Ev.unregister_of_off hon]
      exact ⟨fun h => hon (hc.ev.on_ioq q h), fun _ h => h, fun _ h _ => h, rfl, rfl, hc.ev⟩
  refine ⟨fun c u => ?_, by rw [hcond]; exact hc.cond_nodup, fun m u => ?_,
    by rw [hmutex]; exact hc.wait_nodup, ⟨fun q' _ h => ?_, fun q' hne _ => ?_, hnext.ge⟩,
    fun q' h howner' => ?_, hcounted⟩
  · rw [hcond]
    by_cases hu : u = t
    · subst hu
      have : u ∉ s.cond_q c := by
        rw [(hc.recs u).cond_q c, hpc]
        exact fun h => h.2
      simp [this, Pc.waitsOn]
    · simp [hu]
  · rw [hmutex]
    by_cases hu : u = t
    · subst hu
      have : u ∉ (s.mutex m).wait_q := by
        rw [(hc.recs u).wait_q m, hpc]
        exact fun h => h.2
      simp [this, Pc.waitsFor]
    · simp [hu]
  · exact ⟨hsub q' h, by rw [hpollq]⟩
  · rw [hpollq]
    refine ⟨rfl, rfl, fun h => hin q' h ?_⟩
    rintro rfl
    exact hne howner
  · rw [hpollq] at howner'
    have := ((hc.recs t).io_q q' (hsub q' h) howner').2
    rw [hpc, Pc.poll.injEq] at this
    exact absurd (this.2 ▸ h) hq

/-- `st_poll`, after the wait. -/
theorem pollEnd_does {me q : ℕ} (hg : s.Good) (hr : s.Runs t) (hpc : s.pcOf t = .poll me q) :
    s.Does (s.pollEnd me q) := by
  have hfits := (hg.core.recs t).pc hr.live
  rw [hpc] at hfits
  obtain ⟨rfl, -⟩ := hfits
  have hwait : ∀ m, ¬(s.pcOf me).waitsFor m := by
    rw [hpc]
    exact fun _ => id
  unfold pollEnd interrupted
  dsimp only
  split_ifs
  · have ha : Acts s (((s.setEv (s.ev.unregister q)).setFlags me fun fl =>
        { fl with interrupt := false }).ret (.error .EINTR)) me
        { s.thread me with flags := { (s.thread me).flags with interrupt := false } }
        (.user (.error .EINTR)) :=
      .of_links rfl rfl rfl rfl rfl rfl
    exact ⟨_, rfl, ha.does_user hg hr (flagsOk_interrupt false)
      (Links.of_poll hg.core hr.live hpc rfl rfl rfl) rfl, ha.lockFrame hr rfl rfl hwait fun _ => id⟩
  all_goals
    refine ⟨_, rfl, ?_, ?_⟩
    · refine Acts.does_user hg hr flagsOk_id (.of_links ?_ rfl rfl rfl rfl rfl)
        (Links.of_poll hg.core hr.live hpc rfl rfl rfl) rfl
      exact (Function.update_eq_self me s.thread).symm
    · refine @Acts.lockFrame _ _ me (s.thread me) _ (.of_links ?_ rfl rfl rfl rfl rfl) hr rfl rfl
        hwait fun _ => id
      exact (Function.update_eq_self me s.thread).symm

/-- The links of a thread that was in `st_cond_timedwait`. -/
theorem Links.of_cond {s' : St} {c : Cond} {r : Res} (hc : s.Core [])
    (hwaits : ∀ c', (s.pcOf t).waitsOn c' ↔ c' = c) (hfor : ∀ m, ¬(s.pcOf t).waitsFor m)
    (hpoll : ∀ q, s.pcOf t ≠ .poll t q)
    (hcond : s'.cond_q = Function.update s.cond_q c ((s.cond_q c).erase t))
    (hmutex : s'.mutex = s.mutex) (hev : s'.ev = s.ev) : Links s s' t (.user r) := by
  refine ⟨fun c' u => ?_, fun c' => ?_, fun m u => ?_, by rw [hmutex]; exact hc.wait_nodup,
    by rw [hev]; exact EvFrame.refl _ _, ?_, by rw [hev]; exact hc.ev⟩
  · -- It leaves the queue on which it waited, and was on no other one.
    rw [hcond]
    by_cases hcc : c' = c
    · subst hcc
      rw [Function.update_self, (hc.cond_nodup c').mem_erase_iff]
      simp [Pc.waitsOn]
    · rw [Function.update_of_ne hcc]
      by_cases hu : u = t
      · subst hu
        have : u ∉ s.cond_q c' := by
          rw [(hc.recs u).cond_q c', hwaits]
          exact fun h => hcc h.2
        simp [this, Pc.waitsOn]
      · simp [hu]
  · rw [hcond]
    by_cases hcc : c' = c
    · subst hcc
      rw [Function.update_self]
      exact (hc.cond_nodup c').erase t
    · rw [Function.update_of_ne hcc]
      exact hc.cond_nodup c'
  · -- It waits for no mutex.
    rw [hmutex]
    by_cases hu : u = t
    · subst hu
      have : u ∉ (s.mutex m).wait_q := by
        rw [(hc.recs u).wait_q m]
        exact fun h => hfor m h.2
      simp [this, Pc.waitsFor]
    · simp [hu]
  · -- And it has no `pollq`.
    rw [hev]
    exact fun q hq howner => absurd ((hc.recs t).io_q q hq howner).2 (hpoll q)

/-- The flags of a wait may be cleared. -/
theorem flagsOk_clear : FlagsOk fun fl => { fl with timedout := false, interrupt := false } :=
  ⟨fun _ => rfl, fun _ => rfl⟩

/-- `st_cond_timedwait`, after the wait. -/
theorem condUnblock_does {c : Cond} (hg : s.Good) (hr : s.Runs t)
    (hwaits : ∀ c', (s.pcOf t).waitsOn c' ↔ c' = c) (hfor : ∀ m, ¬(s.pcOf t).waitsFor m)
    (hpoll : ∀ q, s.pcOf t ≠ .poll t q) (r : Res) :
    Fine s ((s.condUnblock t c).1.ret r) ∧ LockFrame s ((s.condUnblock t c).1.ret r) := by
  have ha : Acts s ((s.condUnblock t c).1.ret r) t { s.thread t with
      flags := { (s.thread t).flags with timedout := false, interrupt := false } } (.user r) :=
    .of_links rfl rfl rfl rfl rfl rfl
  exact ⟨ha.does_user hg hr flagsOk_clear (Links.of_cond hg.core hwaits hfor hpoll rfl rfl rfl) rfl,
    ha.lockFrame hr rfl rfl hfor fun _ => id⟩

/-- A thread comes back from its wait on a condition variable. -/
theorem condEnd_does {me : ℕ} {c : Cond} (hg : s.Good) (hr : s.Runs t)
    (hpc : s.pcOf t = .condWait me c) :
    s.Does (some ((s.condUnblock me c).1.ret (s.condUnblock me c).2)) := by
  have hfits := (hg.core.recs t).pc hr.live
  rw [hpc] at hfits
  cases hfits
  refine ⟨_, rfl, condUnblock_does hg hr ?_ ?_ ?_ _⟩
  · rw [hpc]
    exact fun _ => eq_comm
  · rw [hpc]
    exact fun _ => id
  · rw [hpc]
    exact fun _ h => by cases h

end resume

/-! ## Join -/

section join

variable {s : St} {t : ℕ} {r : Res}

/-- A thread that can be joined is live, and not a zombie. -/
theorem Good.joinable (hg : s.Good)
    (hdead : s.running ∈ s.threads → (s.life s.running).exits = 0) {u : ℕ} {c : Cond}
    (hu : u < s.segments) (hterm : (s.thread u).term = some c) :
    s.Live u ∧ (s.thread u).state ≠ .ZOMBIE := by
  have hl : s.Live u := by
    rcases hg.own.cover u hu with hfree | hl | h0 | hleave
    · rw [(hg.own.free u hfree).2.2.2.1] at hterm
      cases hterm
    · exact hl
    · rw [h0, hg.own.idle_term] at hterm
      cases hterm
    · exact absurd hleave (Leaving.not_of_exits hdead)
  refine ⟨hl, fun hst => ?_⟩
  have := (hg.core.recs u).state hl
  rw [hst] at this
  exact this

/-- The loop of `st_thread_join` waits. -/
theorem joinLoop_does (hg : s.Good) (hr : s.Runs t) (hpc : s.pcOf t = .user r) {u : ℕ} {c : Cond}
    (hl : s.Live u) (hterm : (s.thread u).term = some c) : s.Does (s.joinLoop c u) := by
  have hst := (hg.joinable hr.not_dead (hg.own.live_lt hl) hterm).2
  unfold joinLoop
  rw [if_neg hst, hr.this]
  refine interrupted_does hg hr hpc ?_
  refine condBlock_does hg hr hpc c _ (fun _ => eq_comm) (fun _ => id) fun s' hsame => ?_
  exact ⟨rfl, (hsame.live u).mpr hl, by rw [hsame.term]; exact hterm⟩

/-- `st_thread_join`. -/
theorem threadJoin_does (hg : s.Good) (hr : s.Runs t) (hpc : s.pcOf t = .user r) {u : ℕ}
    (hu : u < s.segments) : s.Does (s.threadJoin u) := by
  unfold threadJoin
  cases hterm : (s.thread u).term with
  | none => exact ⟨_, rfl, ret_does hg hr hpc _⟩
  | some c =>
    dsimp only
    split_ifs
    · exact ⟨_, rfl, ret_does hg hr hpc _⟩
    · exact ⟨_, rfl, ret_does hg hr hpc _⟩
    · exact joinLoop_does hg hr hpc (hg.joinable hr.not_dead hu hterm).1 hterm

/-- Two fine steps of one fiber that is not `main`. -/
theorem Fine.trans {s' s'' : St} (h : Fine s s') (h' : Fine s' s'') (hrun : s'.running = s.running)
    (hne : s'.running ≠ 0) : Fine s s'' :=
  ⟨h'.good, h.lives.trans h'.lives hrun, fun _ => h'.idle fun h0 => absurd h0 hne,
    fun h0 => (h'.main h0).imp_left fun hc => absurd hc.1 hne⟩

/-- `st_thread_join`, after a wait in its loop. -/
theorem joinEnd_does {me u : ℕ} {c : Cond} (hg : s.Good) (hr : s.Runs t)
    (hpc : s.pcOf t = .join me c u) : s.Does (s.joinEnd me c u) := by
  have hfits := (hg.core.recs t).pc hr.live
  rw [hpc] at hfits
  obtain ⟨rfl, hl, hterm⟩ := hfits
  have hdoes : ∀ r, Fine s ((s.condUnblock me c).1.ret r) ∧
      LockFrame s ((s.condUnblock me c).1.ret r) := by
    intro r
    refine condUnblock_does hg hr ?_ ?_ ?_ r
    · rw [hpc]
      exact fun _ => eq_comm
    · rw [hpc]
      exact fun _ => id
    · rw [hpc]
      exact fun _ h => by cases h
  unfold joinEnd
  split
  · next s₁ e heq =>
    have hs₁ : s₁ = (s.condUnblock me c).1 := by rw [heq]
    rw [hs₁]
    exact ⟨_, rfl, hdoes _⟩
  · next s₁ v heq =>
    have hs₁ : s₁ = (s.condUnblock me c).1 := by rw [heq]
    rw [hs₁]
    -- The thread waits again: as if it had returned and called once more.
    obtain ⟨hfine, hlock⟩ := hdoes (.ok 0)
    generalize hs₂ : (s.condUnblock me c).1 = s₂ at hfine hlock ⊢
    have hr₂ : (s₂.ret (.ok 0)).Runs me := by
      refine ⟨(hfine.lives.live me).mpr hr.live, ?_, ?_, ?_⟩
      · rw [hfine.lives.id, ← hr.running, ← hs₂]
        rfl
      · have : (s₂.ret (.ok 0)).thread me = { s.thread me with
            flags := { (s.thread me).flags with timedout := false, interrupt := false } } := by
          rw [← hs₂]
          exact Function.update_self _ _ _
        rw [this]
        exact hr.state
      · rw [← hr.this, ← hs₂]
        rfl
    have hpc₂ : (s₂.ret (.ok 0)).pcOf me = .user (.ok 0) := by
      unfold pcOf
      rw [← hr₂.running]
      simp [ret, setPc]
    have hagain : (s₂.ret (.ok 0)).Does ((s₂.ret (.ok 0)).joinLoop c u) :=
      joinLoop_does hfine.good hr₂ hpc₂ ((hfine.lives.live u).mpr hl)
        (by rw [hfine.lives.term]; exact hterm)
    rw [joinLoop_ret] at hagain
    obtain ⟨s', hrun, hfine', hlock'⟩ := hagain
    refine ⟨s', hrun, hfine.trans hfine' (by rw [← hs₂]; rfl) fun h0 => ?_, hlock.trans hlock'⟩
    have := hr₂.two_le hfine.good.own
    omega

end join

end StWin.St
