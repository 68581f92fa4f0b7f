import StWin.Sched.Relink

/-!
# The links of a run

One step after another, the accesses of `St.accesses` lead from the lists of a state to those of the
next, as long as no field is linked twice: a live thread is not on the zombie queue, and
`st_thread_create` does not get a stack whose record is on it. With the refinement of the library the
pointers of a run then represent its lists (`run_links`), and its law of queues makes the run queue
first in, first out, over the whole run (`run_fifo`).
-/

namespace StWin.St

open Clist

/-- The records on the zombie queue are those of threads that have terminated. -/
structure Buried (s : St) : Prop where
  inv : s.Inv
  nodup : s.zombie_q.Nodup
  zombie : ∀ t ∈ s.zombie_q, ¬s.Live t ∧ t < s.segments

/-- The stack that `st_thread_create` gets from the free list is not that of a record on the zombie
queue. -/
def Fresh (s : St) : Label → Prop
  | .call (.create _ stk_size _) =>
    ∀ t ∈ s.free_stacks.find? fun t => decide (s.stackSize stk_size ≤ s.stk_size t), t ∉ s.zombie_q
  | _ => True

instance (s : St) : (l : Label) → Decidable (s.Fresh l)
  | .call (.create _ stk_size _) => inferInstanceAs (Decidable (∀ t ∈ s.free_stacks.find? fun t =>
      decide (s.stackSize stk_size ≤ s.stk_size t), t ∉ s.zombie_q))
  | .call (.poll _ _) => .isTrue trivial
  | .call (.usleep _) => .isTrue trivial
  | .call (.condTimedwait _ _) => .isTrue trivial
  | .call (.condSignal _) => .isTrue trivial
  | .call (.condBroadcast _) => .isTrue trivial
  | .call (.mutexLock _) => .isTrue trivial
  | .call (.mutexTrylock _) => .isTrue trivial
  | .call (.mutexUnlock _) => .isTrue trivial
  | .call (.interrupt _) => .isTrue trivial
  | .call (.join _) => .isTrue trivial
  | .call (.exit _) => .isTrue trivial
  | .call .idleRun => .isTrue trivial
  | .ret _ => .isTrue trivial
  | .resume => .isTrue trivial
  | .dispatch _ => .isTrue trivial
  | .clock _ => .isTrue trivial

/-- The step is `Ok`, and no record is used that is on the zombie queue. -/
def Clean (s : St) (l : Label) : Prop := s.Ok l ∧ s.Fresh l

instance (s : St) (l : Label) : Decidable (s.Clean l) := inferInstanceAs (Decidable (_ ∧ _))

/-- The threads of the run queue may be put on it. -/
theorem Buried.sound {s : St} (h : s.Buried) : s.Sound where
  nodup := h.inv.good.core.run_nodup
  zombie t ht hz := (h.zombie t hz).1 ((h.inv.good.core.recs t).run_q.mp ht).1

section steps

variable {s s' : St} {l : Label}

/-- `st_thread_create` writes only to the record that it got. -/
theorem threadCreate_thread {joinable : Bool} {stk_size : ℤ} {ok : Acquire} {start : Pc} {u : ℕ}
    (hu : ∀ t s₁, s.stackNew (s.stackSize stk_size) ok.stack = some (t, s₁) → u ≠ t) :
    (s.threadCreate start joinable stk_size ok).1.thread u = s.thread u := by
  unfold threadCreate
  cases hnew : s.stackNew (s.stackSize stk_size) ok.stack with
  | none => rfl
  | some p =>
    obtain ⟨t, s₁⟩ := p
    have hne := hu t s₁ hnew
    obtain ⟨free, sizes, seg, rfl⟩ := stackNew_eq hnew
    dsimp only
    split_ifs <;>
      simp [startThread, stackFree, addRunq, setState, setThread, initThread, hne]

/-- The record that `st_thread_create` writes to is not on the zombie queue. -/
theorem Buried.not_zombie (h : s.Buried) {joinable : Bool} {stk_size : ℤ} {ok : Acquire}
    (hfresh : s.Fresh (.call (.create joinable stk_size ok))) {t : ℕ} {s₁ : St}
    (hnew : s.stackNew (s.stackSize stk_size) ok.stack = some (t, s₁)) : t ∉ s.zombie_q := by
  unfold stackNew at hnew
  split at hnew
  · next u hfind =>
    cases hnew
    exact hfresh t hfind
  · split_ifs at hnew
    cases hnew
    exact fun hmem => lt_irrefl _ (h.zombie _ hmem).2

/-- A step that uses no record of the zombie queue keeps the invariant. -/
theorem step_buried (h : s.Buried) (hclean : s.Clean l) (hstep : s.step l = some s') : s'.Buried := by
  have hinv := step_inv h.inv hclean.1 hstep
  have hown := h.inv.good.own
  cases h.inv.change hclean.1 hstep with
  | fine fine =>
    refine ⟨hinv, fine.lives.zombie_q ▸ h.nodup, fun t ht => ?_⟩
    rw [fine.lives.zombie_q] at ht
    rw [fine.lives.live, fine.lives.segments]
    exact h.zombie t ht
  | creates joinable stk_size ok label s₁ t th started makes _ r eq =>
    subst eq label
    have hz : (s₁.ret r).zombie_q = s.zombie_q := makes.zombie_q
    have hseg : s.segments ≤ (s₁.ret r).segments := makes.segments.1
    refine ⟨hinv, hz ▸ h.nodup, fun u hu => ?_⟩
    rw [hz] at hu
    obtain ⟨hdead, hlt⟩ := h.zombie u hu
    -- The record with the new number is the one that was written to.
    have hut : u ≠ t := by
      rintro rfl
      obtain ⟨r', heq⟩ := call_create_eq (step_call_user hstep).choose_spec.2
      have hsame : (s.threadCreate (.user (.ok 0)) joinable stk_size ok).1.thread u = s.thread u :=
        threadCreate_thread fun t s₂ hnew ht => h.not_zombie hclean.2 hnew (ht ▸ hu)
      have hself := makes.thread_self
      have hid := makes.id
      have hthread := congrFun (congrArg St.thread heq) u
      change s₁.thread u = (s.threadCreate _ _ _ _).1.thread u at hthread
      rw [hself, hsame] at hthread
      rw [hthread] at hid
      exact absurd (hown.ids u) (by omega)
    have hlive : (s₁.ret r).Live u ↔ s.Live u :=
      ((setPc_sameLives s₁ (.user r)).live u).trans (makes.live_of_ne hown hut)
    exact ⟨mt hlive.mp hdead, hlt.trans_le hseg⟩
  | exits t v retval joinable runs _ exits =>
    have hruns : (s.note (.returned s.running v)).Runs t :=
      ⟨runs.live, runs.running, runs.state, runs.this⟩
    have hz : s'.zombie_q = if joinable then s.zombie_q ++ [t] else s.zombie_q := exits.zombie_q
    have hseg : s'.segments = s.segments := exits.segments
    have htz : t ∉ s.zombie_q := fun hmem => (h.zombie t hmem).1 runs.live
    have hold : ∀ u ∈ s.zombie_q, ¬s'.Live u ∧ u < s'.segments := by
      intro u hu
      have hut : u ≠ t := fun heq => htz (heq ▸ hu)
      rw [hseg, exits.live_of_ne hruns hut]
      exact h.zombie u hu
    cases joinable with
    | true =>
      rw [if_pos rfl] at hz
      refine ⟨hinv, ?_, fun u hu => ?_⟩
      · rw [hz]
        exact h.nodup.append (List.nodup_singleton t) (by simpa using htz)
      · rw [hz, List.mem_append, List.mem_singleton] at hu
        rcases hu with hu | rfl
        · exact hold u hu
        · exact ⟨exits.not_live hruns, hseg ▸ hown.live_lt runs.live⟩
    | false =>
      rw [if_neg (by decide)] at hz
      exact ⟨hinv, hz ▸ h.nodup, fun u hu => hold u (hz ▸ hu)⟩
  | frees t leaving frees =>
    refine ⟨hinv, frees.zombie_q ▸ h.nodup, fun t ht => ?_⟩
    rw [frees.zombie_q] at ht
    rw [frees.live leaving, frees.segments]
    exact h.zombie t ht
  | nothing main retval _ f r eq =>
    subst eq
    refine ⟨hinv, h.nodup, fun t ht => ⟨fun hl => (h.zombie t ht).1 ?_, (h.zombie t ht).2⟩⟩
    obtain ⟨hmem, hex, hthd⟩ := ((setPc_sameLives _ (.user r)).live t).mp hl
    have h2 : 2 ≤ (s.thread t).id := (hown.thread _ hmem).1
    refine ⟨hmem, ?_, hthd⟩
    have hlife : (s.setLife 0 f).life (s.thread t).id = s.life (s.thread t).id :=
      Function.update_of_ne (by omega) _ _
    change ((s.setLife 0 f).life (s.thread t).id).exits = 0 at hex
    rwa [hlife] at hex

/-! ## Calls that wait -/

/-- `_st_vp_schedule`, with the run queue of `s`. -/
theorem Sound.schedule (h : s.Sound) {s₁ : St} (h1 : s₁.run_q = s.run_q) (h2 : s₁.zombie_q = s.zombie_q) :
    Edits s₁.queue s₁.vpScheduleLinks s₁.vpSchedule.queue := by
  refine vpSchedule_edits s₁ (h1 ▸ h.nodup) fun t ht => ?_
  rw [h1] at ht
  rw [h2]
  exact h.zombie t ht

/-- One list becomes another. -/
theorem queue_update {hd : QHead} {xs : List QElem} (hself : s'.queue hd = some xs)
    (hother : ∀ h, h ≠ hd → s'.queue h = s.queue h) :
    s'.queue = Function.update s.queue hd (some xs) := by
  funext h
  by_cases hh : h = hd
  · subst hh
    rw [Function.update_self, hself]
  · rw [Function.update_of_ne hh, hother h hh]

/-- The queues after the event system has changed: the I/O queue is read off it. -/
theorem setEv_queue (s : St) (ev : Ev) :
    (s.setEv ev).queue = Function.update s.queue .ioq (some (ev.io_q.map .pollq)) := by
  refine queue_update rfl fun h hh => ?_
  cases h with
  | ioq => exact absurd rfl hh
  | cond c => cases c <;> rfl
  | _ => rfl

/-- The queues after one condition variable's wait queue has been written. -/
theorem setCondQ_queue {c : Cond} {q : List ℕ} (hc : ∃ xs, s.queue (.cond c) = some xs) :
    (s.setCondQ c q).queue = Function.update s.queue (.cond c) (some (q.map .waitLinks)) := by
  refine queue_update ?_ fun h hh => ?_
  · cases c with
    | user n => simp [queue, setCondQ]
    | term n =>
      obtain ⟨xs, hxs⟩ := hc
      have hn : n < s.terms := by
        by_contra hn
        simp [queue, hn] at hxs
      simp [queue, setCondQ, hn]
  · cases h with
    | cond c' =>
      have hne : c' ≠ c := fun heq => hh (heq ▸ rfl)
      have hsame : (s.setCondQ c q).cond_q c' = s.cond_q c' := Function.update_of_ne hne _ _
      cases c' with
      | user n => simp only [queue, hsame]
      | term n =>
        simp only [queue, hsame]
        rfl
    | _ => rfl

/-- The queues after one mutex's wait queue has been written. -/
theorem setWaitQ_queue (s : St) (m : ℕ) (q : List ℕ) :
    (s.setWaitQ m q).queue = Function.update s.queue (.mutex m) (some (q.map .waitLinks)) := by
  refine queue_update (by simp [queue, setWaitQ]) fun h hh => ?_
  cases h with
  | mutex m' =>
    have hne : m' ≠ m := fun heq => hh (heq ▸ rfl)
    simp [queue, setWaitQ, hne]
  | cond c => cases c <;> rfl
  | _ => rfl

/-- `st_poll`, up to the switch. -/
theorem poll_edits (h : s.Sound) (hc : Ev.Counted s.ev) {pds : List Pollfd} {timeout : ℕ}
    (hpoll : s.poll pds timeout = some s') : Edits s.queue (s.pollLinks pds timeout) s'.queue := by
  unfold pollLinks interruptedLinks
  cases poll_paths hpoll with
  | outside this eq =>
    rw [this, eq]
    exact Edits.nil _
  | interrupted me this flag eq =>
    rw [this, eq]
    dsimp only
    rw [if_pos flag]
    exact Edits.nil _
  | waits me s₁ this flag sleeps eq =>
    rw [this, eq]
    dsimp only
    rw [if_neg (by simp [flag]), sleeps]
    dsimp only
    have hs₁ := addSleepQ_queue sleeps
    generalize hs₂ : (s₁.setState me .IO_WAIT).setPc (.poll me s.ev.next) = s₂
    have hs₂ : Enqueues (s.setEv (s.ev.register me pds)) s₂ [] := by
      rw [← hs₂]
      exact hs₁.congr rfl rfl rfl rfl rfl (fun _ => rfl) rfl
    -- The pollq is a new one.
    have hnot : s.ev.next ∉ s.ev.io_q := fun hmem => lt_irrefl _ (hc.fresh _ hmem)
    have hadd := Edits.add (q := s.queue) (h := .ioq) rfl (off_pollq hnot)
    have hio := (Ev.register_queue hc me pds).1
    have hqueue := hs₂.queue_nil
    rw [setEv_queue, hio, List.map_append, List.map_singleton] at hqueue
    rw [← hqueue] at hadd
    exact hadd.cons (h.schedule (hs₂.run_q.trans (List.append_nil _)) hs₂.zombie_q)

/-- `st_poll`, after the switch. -/
theorem pollEnd_edits (hc : Ev.Counted s.ev) {me pq : ℕ}
    (hpq : (s.ev.pollq pq).on_ioq = true → pq ∈ s.ev.io_q) (hpoll : s.pollEnd me pq = some s') :
    Edits s.queue (s.pollEndLinks pq) s'.queue := by
  have hqueue : s'.queue = (s.setEv (s.ev.unregister pq)).queue := by
    rcases pollEnd_paths hpoll with rfl | ⟨n, rfl⟩ <;>
      exact queue_congr rfl rfl rfl rfl rfl (fun _ => rfl) rfl
  rw [hqueue, setEv_queue]
  unfold pollEndLinks
  by_cases hon : (s.ev.pollq pq).on_ioq = true
  · have hmem := hpq hon
    rw [if_pos hon, (Ev.unregister_queue hc hmem).1]
    have hdrop := Edits.drop (q := s.queue) (h := .ioq) (e := .pollq pq) rfl
      (List.mem_map_of_mem hmem) (by decide)
    rw [← List.map_erase fun _ _ heq => QElem.pollq.inj heq] at hdrop
    exact hdrop
  · rw [if_neg hon, Ev.unregister, if_neg hon]
    have hsame : Function.update s.queue .ioq (some (s.ev.io_q.map .pollq)) = s.queue :=
      Function.update_eq_self_iff.mpr rfl
    rw [hsame]
    exact Edits.nil _

/-- `st_usleep`. -/
theorem usleep_edits (h : s.Sound) {usecs : ℕ} (hsleep : s.usleep usecs = some s') :
    Edits s.queue (s.usleepLinks usecs) s'.queue := by
  -- The lists are the same up to the switch.
  have hsched : ∀ {s₁ : St}, Enqueues s s₁ [] →
      Edits s.queue (s₁.ret (.ok 0)).vpScheduleLinks (s₁.ret (.ok 0)).vpSchedule.queue := by
    intro s₁ hs₁
    have hret : Enqueues s (s₁.ret (.ok 0)) [] := hs₁.congr rfl rfl rfl rfl rfl (fun _ => rfl) rfl
    rw [← hret.queue_nil]
    exact h.schedule (hret.run_q.trans (List.append_nil _)) hret.zombie_q
  have hstate : ∀ me st, Enqueues s (s.setState me st) [] := fun me st =>
    (Enqueues.refl s).congr rfl rfl rfl rfl rfl (fun _ => rfl) rfl
  unfold usleep interrupted at hsleep
  unfold usleepLinks interruptedLinks
  cases hthis : s.this_thread with
  | none =>
    rw [hthis] at hsleep
    cases hsleep
    exact hsched (.refl s)
  | some me =>
    rw [hthis] at hsleep
    dsimp only at hsleep ⊢
    by_cases hz : (s.thread me).state = .ZOMBIE
    · rw [if_pos hz] at hsleep ⊢
      cases hsleep
      exact hsched (.refl s)
    rw [if_neg hz] at hsleep ⊢
    by_cases hflag : (s.thread me).flags.interrupt = true
    · rw [if_pos hflag] at hsleep ⊢
      cases hsleep
      exact Edits.nil _
    rw [if_neg hflag] at hsleep ⊢
    by_cases husecs : usecs ≠ ST_UTIME_NO_TIMEOUT
    · rw [if_pos husecs] at hsleep ⊢
      by_cases hst : (s.thread me).state = .SLEEPING
      · rw [if_pos hst] at hsleep ⊢
        cases hsleep
        exact hsched (.refl s)
      · rw [if_neg hst] at hsleep ⊢
        obtain ⟨s₁, hs₁, rfl⟩ := Option.map_eq_some_iff.mp hsleep
        rw [hs₁]
        exact hsched ((hstate me .SLEEPING).trans (addSleepQ_queue hs₁))
    · rw [if_neg husecs] at hsleep ⊢
      cases hsleep
      exact hsched (hstate me .SUSPENDED)

/-- `st_cond_timedwait`, up to the switch, by a thread that waits for nothing yet. -/
theorem condBlock_edits (h : s.Sound) {me timeout : ℕ} {c : Cond} {pc : Pc}
    (hcond : ∀ c, me ∉ s.cond_q c) (hmutex : ∀ m, me ∉ (s.mutex m).wait_q)
    (hc : ∃ xs, s.queue (.cond c) = some xs) (hblock : s.condBlock me c timeout pc = some s') :
    Edits s.queue (s.condBlockLinks me c timeout pc) s'.queue := by
  unfold condBlock at hblock
  unfold condBlockLinks
  dsimp only at hblock ⊢
  obtain ⟨s₁, hs₁, rfl⟩ := Option.map_eq_some_iff.mp hblock
  rw [hs₁]
  dsimp only
  have hlink : Enqueues (s.linkCond me c) (s₁.setPc pc) [] := by
    split_ifs at hs₁ with htimeout
    · exact (addSleepQ_queue hs₁).congr rfl rfl rfl rfl rfl (fun _ => rfl) rfl
    · cases hs₁
      exact (Enqueues.refl _).congr rfl rfl rfl rfl rfl (fun _ => rfl) rfl
  obtain ⟨xs, hxs⟩ := hc
  have hqueue := hlink.queue_nil
  have hset : (s.linkCond me c).queue =
      Function.update s.queue (.cond c) (some ((s.cond_q c ++ [me]).map .waitLinks)) :=
    setCondQ_queue (s := s.setState me .COND_WAIT) ⟨xs, hxs⟩
  rw [hset, List.map_append, List.map_singleton, ← queue_cond hxs] at hqueue
  have hadd := Edits.add hxs (off_waitLinks hcond hmutex)
  rw [← hqueue] at hadd
  exact hadd.cons (h.schedule (hlink.run_q.trans (List.append_nil _)) hlink.zombie_q)

/-- `st_cond_timedwait`, after the switch. -/
theorem condUnblock_edits {me : ℕ} {c : Cond} (hc : ∃ xs, s.queue (.cond c) = some xs)
    (hme : me ∈ s.cond_q c) :
    Edits s.queue [.remove (.cond c) (.waitLinks me)] (s.condUnblock me c).1.queue := by
  obtain ⟨xs, hxs⟩ := hc
  have hcq := queue_cond hxs
  have hqueue : (s.condUnblock me c).1.queue =
      Function.update s.queue (.cond c) (some (((s.cond_q c).erase me).map .waitLinks)) :=
    setCondQ_queue (s := s) ⟨xs, hxs⟩
  have hdrop := Edits.drop hxs (e := .waitLinks me) (by simp [hcq, hme]) (by simp)
  rw [hcq, ← List.map_erase fun _ _ heq => QElem.waitLinks.inj heq, ← hqueue] at hdrop
  exact hdrop

/-- An assignment to `lock->owner`. -/
theorem setOwner_enqueues (s : St) (m : ℕ) (owner : Option ℕ) : Enqueues s (s.setOwner m owner) [] := by
  refine (Enqueues.refl s).congr rfl rfl rfl rfl rfl (fun m' => ?_) rfl
  by_cases hm : m' = m
  · subst hm
    simp [setOwner]
  · simp [setOwner, hm]

/-- `st_mutex_lock`, up to the switch. -/
theorem mutexLock_edits (h : s.Sound) {m : ℕ}
    (hfree : ∀ me, s.this_thread = some me → (∀ c, me ∉ s.cond_q c) ∧ ∀ m, me ∉ (s.mutex m).wait_q)
    (hlock : s.mutexLock m = some s') : Edits s.queue (s.mutexLockLinks m) s'.queue := by
  unfold mutexLock interrupted at hlock
  unfold mutexLockLinks interruptedLinks
  cases hthis : s.this_thread with
  | none =>
    rw [hthis] at hlock
    cases hlock
    exact Edits.nil _
  | some me =>
    rw [hthis] at hlock
    dsimp only at hlock ⊢
    by_cases hflag : (s.thread me).flags.interrupt = true
    · rw [if_pos hflag] at hlock ⊢
      cases hlock
      exact Edits.nil _
    rw [if_neg hflag] at hlock ⊢
    cases hown : (s.mutex m).owner with
    | none =>
      rw [hown] at hlock
      cases hlock
      -- The lock is free, and no queue changes.
      have hqueue : (((s.setOwner m (some me)).note (.locked m me)).ret (.ok 0)).queue = s.queue :=
        ((setOwner_enqueues s m (some me)).congr rfl rfl rfl rfl rfl (fun _ => rfl) rfl).queue_nil
      rw [hqueue]
      exact Edits.nil _
    | some owner =>
      rw [hown] at hlock
      dsimp only at hlock ⊢
      by_cases hself : owner = me
      · rw [if_pos hself] at hlock ⊢
        cases hlock
        exact Edits.nil _
      rw [if_neg hself] at hlock ⊢
      cases hlock
      obtain ⟨hcond, hmutex⟩ := hfree me hthis
      -- The caller joins the wait queue, and then gives the turn away.
      have hadd := Edits.add (q := s.queue) (h := .mutex m) rfl (off_waitLinks hcond hmutex)
      have hset := setWaitQ_queue (s.setState me .LOCK_WAIT) m ((s.mutex m).wait_q ++ [me])
      rw [List.map_append, List.map_singleton] at hset
      generalize hs₁ : (((s.setState me .LOCK_WAIT).setWaitQ m ((s.mutex m).wait_q ++ [me])).note
        (.lockWait m me)).setPc (.lock me m) = s₁
      have hqueue : s₁.queue =
          ((s.setState me .LOCK_WAIT).setWaitQ m ((s.mutex m).wait_q ++ [me])).queue := by
        rw [← hs₁]
        exact queue_congr rfl rfl rfl rfl rfl (fun _ => rfl) rfl
      rw [hset] at hqueue
      refine hadd.cons (hqueue ▸ h.schedule ?_ ?_) <;> rw [← hs₁] <;> rfl

/-- `st_mutex_lock`, after the switch. -/
theorem mutexLockEnd_edits {me m : ℕ} (hme : me ∈ (s.mutex m).wait_q) :
    Edits s.queue [.remove (.mutex m) (.waitLinks me)] (s.mutexLockEnd me m).queue := by
  have hqueue : (s.mutexLockEnd me m).queue =
      (s.setWaitQ m ((s.mutex m).wait_q.erase me)).queue := by
    unfold mutexLockEnd
    dsimp only
    split_ifs <;> exact queue_congr rfl rfl rfl rfl rfl (fun _ => rfl) rfl
  have hdrop := Edits.drop (q := s.queue) (h := .mutex m) (e := .waitLinks me) rfl
    (List.mem_map_of_mem hme) (by simp)
  rw [← List.map_erase fun _ _ heq => QElem.waitLinks.inj heq] at hdrop
  rw [hqueue, setWaitQ_queue]
  exact hdrop

/-- `st_mutex_trylock`. -/
theorem mutexTrylock_queue (s : St) (m : ℕ) : (s.mutexTrylock m).queue = s.queue := by
  have hown : ∀ {s₁ : St}, Enqueues s s₁ [] → ∀ owner r,
      ((s₁.setOwner m owner).ret r).queue = s.queue := by
    intro s₁ hs₁ owner r
    refine Enqueues.queue_nil (hs₁.trans ?_)
    exact (setOwner_enqueues s₁ m owner).congr rfl rfl rfl rfl rfl (fun _ => rfl) rfl
  unfold mutexTrylock
  split_ifs
  · exact queue_congr rfl rfl rfl rfl rfl (fun _ => rfl) rfl
  · cases s.this_thread with
    | none => exact hown (.refl s) _ _
    | some me =>
      have hnote : Enqueues s (s.note (.locked m me)) [] :=
        (Enqueues.refl s).congr rfl rfl rfl rfl rfl (fun _ => rfl) rfl
      exact hown hnote _ (.ok 0)

/-- `st_thread_interrupt`. -/
theorem threadInterrupt_edits {t : ℕ} (h : s.threadInterrupt t = some s') :
    ∃ l, Enqueues s s' l ∧ (s'.Sound → Edits s.queue (s.threadInterruptLinks t) s'.queue) := by
  have hflag : Enqueues s (s.setFlags t fun fl => { fl with interrupt := true }) [] :=
    (Enqueues.refl s).congr rfl rfl rfl rfl rfl (fun _ => rfl) rfl
  have hst : ((s.setFlags t fun fl => { fl with interrupt := true }).thread t).state =
      (s.thread t).state := by simp [setFlags, setThread]
  unfold threadInterrupt at h
  dsimp only at h
  rw [hst] at h
  unfold threadInterruptLinks
  by_cases hz : (s.thread t).state = .ZOMBIE
  · rw [if_pos hz] at h
    rw [if_pos (Or.inl hz)]
    cases h
    exact ⟨[], .refl s, fun _ => Edits.nil _⟩
  rw [if_neg hz] at h
  by_cases hrun : (s.thread t).state = .RUNNING ∨ (s.thread t).state = .RUNNABLE
  · rw [if_pos hrun] at h
    rw [if_pos (Or.inr hrun)]
    cases h
    exact ⟨[], hflag, fun _ => Edits.nil _⟩
  · rw [if_neg hrun] at h
    rw [if_neg (by tauto)]
    have hone := hflag.trans (wake_enqueues h)
    exact ⟨[t], hone, fun hsound => hone.edits (.refl s') hsound⟩

/-! ## Stacks and creation -/

/-- Another free list. -/
theorem queue_free {q : List ℕ} (h1 : s'.run_q = s.run_q) (h2 : s'.ev.io_q = s.ev.io_q)
    (h3 : s'.zombie_q = s.zombie_q) (h4 : s'.free_stacks = q) (h5 : s'.cond_q = s.cond_q)
    (h6 : ∀ m, (s'.mutex m).wait_q = (s.mutex m).wait_q) (h7 : s'.terms = s.terms) :
    s'.queue = Function.update s.queue .freeStacks (some (q.map .stack)) := by
  refine queue_update (by rw [queue, h4]) fun h hh => ?_
  cases h with
  | freeStacks => exact absurd rfl hh
  | cond c => cases c <;> simp only [queue, h5, h7]
  | _ => simp only [queue, h1, h2, h3, h6]

/-- `_st_stack_free`. -/
theorem stackFree_edits {t : ℕ} (hnodup : s.free_stacks.Nodup) (hfree : t ∉ s.free_stacks) :
    Edits s.queue (s.stackFreeLinks t) (s.stackFree t).queue := by
  have hq : s.queue .freeStacks = some (s.free_stacks.map .stack) := rfl
  have hqueue : (s.stackFree t).queue = Function.update s.queue .freeStacks
      (some ((s.free_stacks.dropLast ++ t :: s.free_stacks.getLast?.toList).map .stack)) :=
    queue_free rfl rfl rfl rfl rfl (fun _ => rfl) rfl
  rw [hqueue]
  unfold stackFreeLinks
  refine (Edits.last hq).cons ?_
  rcases List.eq_nil_or_concat' s.free_stacks with hnil | ⟨xs, u, hxs⟩
  · rw [hnil] at hq ⊢
    exact Edits.add hq (off_stack hfree)
  · have hu : QElem.stack u ∉ xs.map QElem.stack := by
      rw [hxs] at hnodup
      have hdisj := (List.nodup_append.mp hnodup).2.2
      simpa using fun hmem => hdisj u hmem u (List.mem_singleton_self u) rfl
    rw [hxs, List.map_append, List.map_singleton] at hq
    rw [hxs, List.getLast?_concat, List.dropLast_concat, Option.toList_some, List.map_append,
      List.map_cons, List.map_singleton]
    exact Edits.before hq hu (off_stack hfree) (by decide)

/-- The loop of `_st_stack_new`, at the stacks `q` of the free list. -/
theorem stackLoop_edits {size : ℤ} (q : List ℕ) : ∀ {xs : List ℕ}, s.free_stacks = xs ++ q →
    (xs ++ q).Nodup →
    ((q.find? fun t => decide (size ≤ s.stk_size t)) = none →
      Edits s.queue (s.stackLoopLinks size q) s.queue) ∧
    (∀ t, (q.find? fun t => decide (size ≤ s.stk_size t)) = some t →
      Edits s.queue (s.stackLoopLinks size q)
        ({ s with free_stacks := s.free_stacks.erase t } : St).queue) := by
  induction q with
  | nil => exact fun _ _ => ⟨fun _ => Edits.nil _, fun t ht => by cases ht⟩
  | cons t q ih =>
    intro xs hq hnodup
    have hnot : t ∉ xs := fun hmem =>
      (List.nodup_append.mp hnodup).2.2 t hmem t List.mem_cons_self rfl
    have hfree : s.queue .freeStacks = some (xs.map .stack ++ .stack t :: q.map .stack) := by
      rw [queue, hq, List.map_append, List.map_cons]
    have hnotmap : QElem.stack t ∉ xs.map QElem.stack := by simpa using hnot
    rw [List.find?_cons, stackLoopLinks]
    -- The first stack that is large enough is taken.
    by_cases hsize : size ≤ s.stk_size t
    · simp only [hsize, decide_true, if_true]
      refine ⟨fun h => (by cases h), fun u hu => ?_⟩
      cases hu
      have hmem : t ∈ s.free_stacks := by simp [hq]
      have hdrop := Edits.drop (q := s.queue) (h := .freeStacks) (e := .stack t) rfl
        (List.mem_map_of_mem hmem) (by decide)
      rw [← List.map_erase fun _ _ heq => QElem.stack.inj heq] at hdrop
      have hqueue : ({ s with free_stacks := s.free_stacks.erase t } : St).queue =
          Function.update s.queue .freeStacks (some ((s.free_stacks.erase t).map .stack)) :=
        queue_free rfl rfl rfl rfl rfl (fun _ => rfl) rfl
      rw [← hqueue] at hdrop
      refine hdrop.cons (Edits.clear (off_stack ?_))
      have hnodup' : s.free_stacks.Nodup := hq ▸ hnodup
      exact hnodup'.not_mem_erase
    · -- The walk goes on to the next link.
      simp only [hsize, decide_false, if_false]
      have hassoc : xs ++ t :: q = (xs ++ [t]) ++ q := by simp
      rw [hassoc] at hq hnodup
      obtain ⟨hnone, hsome⟩ := ih hq hnodup
      have hnext := Edits.succ hfree hnotmap
      exact ⟨fun h => hnext.cons (hnone h), fun u hu => hnext.cons (hsome u hu)⟩

/-- `_st_stack_new`. -/
theorem stackNew_edits (ho : s.Ownership) (size : ℤ) (ok : Bool) :
    (s.stackNew size ok = none → Edits s.queue (s.stackNewLinks size ok) s.queue) ∧
      ∀ t s₁, s.stackNew size ok = some (t, s₁) → Edits s.queue (s.stackNewLinks size ok) s₁.queue := by
  have hfirst : Edits s.queue [.first .freeStacks (node .freeStacks (s.free_stacks.map .stack))]
      s.queue := Edits.first rfl
  obtain ⟨hnone, hsome⟩ := @stackLoop_edits s size s.free_stacks [] rfl ho.free_nodup
  unfold stackNewLinks stackNew
  cases hfind : s.free_stacks.find? fun t => decide (size ≤ s.stk_size t) with
  | some t =>
    refine ⟨fun h => (by cases h), fun u s₁ h => ?_⟩
    cases h
    simp only [reduceCtorEq, false_and, if_false, List.append_nil]
    exact hfirst.cons (hsome t hfind)
  | none =>
    dsimp only
    cases ok with
    | false =>
      simp only [Bool.false_eq_true, and_false, if_false, List.append_nil]
      exact ⟨fun _ => hfirst.cons (hnone hfind), fun u s₁ h => (by cases h)⟩
    | true =>
      have hnot : s.segments ∉ s.free_stacks := fun hmem => lt_irrefl _ (ho.free _ hmem).1
      have hclear : Edits s.queue [.clear (.stack s.segments)] s.queue := Edits.clear (off_stack hnot)
      simp only [and_self, if_true]
      refine ⟨fun h => (by cases h), fun u s₁ h => ?_⟩
      cases h
      exact hfirst.cons ((hnone hfind).append hclear)

/-- What `st_thread_create` needs of the record that it gets. -/
theorem Buried.record (h : s.Buried) {joinable : Bool} {stk_size : ℤ} {ok : Acquire}
    (hfresh : s.Fresh (.call (.create joinable stk_size ok))) {t : ℕ} {s₁ : St}
    (hnew : s.stackNew (s.stackSize stk_size) ok.stack = some (t, s₁)) :
    t ∉ s.run_q ∧ t ∉ s.zombie_q ∧ (∀ c, t ∉ s.cond_q c) ∧ ∀ m, t ∉ (s.mutex m).wait_q := by
  obtain ⟨-, -, -, -, -, hdead, -⟩ := stackNew_spec h.inv.good.own hnew
  obtain ⟨h1, h2, h3, -, -⟩ := (h.inv.good.core.recs t).not_live hdead
  exact ⟨h1, h.not_zombie hfresh hnew, h2, h3⟩

/-- A new termination condition variable. -/
theorem queue_term (h1 : s'.run_q = s.run_q) (h2 : s'.ev.io_q = s.ev.io_q)
    (h3 : s'.zombie_q = s.zombie_q) (h4 : s'.free_stacks = s.free_stacks)
    (h5 : s'.cond_q = Function.update s.cond_q (.term s.terms) [])
    (h6 : ∀ m, (s'.mutex m).wait_q = (s.mutex m).wait_q) (h7 : s'.terms = s.terms + 1) :
    s'.queue = Function.update s.queue (.cond (.term s.terms)) (some []) := by
  refine queue_update ?_ fun h hh => ?_
  · simp [queue, h5, h7]
  · cases h with
    | cond c =>
      have hne : c ≠ .term s.terms := fun heq => hh (heq ▸ rfl)
      have hsame : s'.cond_q c = s.cond_q c := by rw [h5, Function.update_of_ne hne]
      cases c with
      | user n => simp only [queue, hsame]
      | term n =>
        have hn : n ≠ s.terms := fun heq => hne (heq ▸ rfl)
        have hiff : n < s'.terms ↔ n < s.terms := by omega
        simp only [queue, hsame, hiff]
    | _ => simp only [queue, h1, h2, h3, h4, h6]

/-- The end of `st_thread_create`. -/
theorem startThread_edits {t : ℕ} (hrun : t ∉ s.run_q) (hzombie : t ∉ s.zombie_q) :
    Edits s.queue [.append (.links t) .runq] (s.startThread t).queue := by
  have hqueue : (s.startThread t).queue = (s.addRunq t).queue :=
    queue_congr rfl rfl rfl rfl rfl (fun _ => rfl) rfl
  rw [hqueue]
  exact addRunq_edits s hrun hzombie

/-- `st_thread_create`. -/
theorem threadCreate_edits (h : s.Buried) {joinable : Bool} {stk_size : ℤ} {ok : Acquire} (start : Pc)
    (hfresh : s.Fresh (.call (.create joinable stk_size ok))) :
    Edits s.queue (s.threadCreateLinks start joinable stk_size ok)
      (s.threadCreate start joinable stk_size ok).1.queue := by
  have ho := h.inv.good.own
  obtain ⟨hnone, hsome⟩ := stackNew_edits ho (s.stackSize stk_size) ok.stack
  unfold threadCreateLinks threadCreate
  cases hnew : s.stackNew (s.stackSize stk_size) ok.stack with
  | none =>
    rw [List.append_nil]
    exact hnone hnew
  | some p =>
    obtain ⟨t, s₁⟩ := p
    refine (hsome t s₁ hnew).append ?_
    -- The record is on no list.
    have hlists : t ∉ s₁.run_q ∧ t ∉ s₁.zombie_q ∧ (∀ c, t ∉ s₁.cond_q c) ∧
        ∀ m, t ∉ (s₁.mutex m).wait_q := by
      have hrecord := h.record hfresh hnew
      obtain ⟨free, sizes, seg, rfl⟩ := stackNew_eq hnew
      exact hrecord
    obtain ⟨hrun, hzombie, hcond, hmutex⟩ := hlists
    have hnodup := (stackNew_spec ho hnew).2.1
    have hfree : t ∉ s₁.free_stacks := fun hmem => (((stackNew_spec ho hnew).2.2.1 t).mp hmem).2 rfl
    have hinit : (s₁.initThread t start ok.fiber).queue = s₁.queue :=
      queue_congr rfl rfl rfl rfl rfl (fun _ => rfl) rfl
    refine (Edits.clear (off_links hrun hzombie)).cons
      ((Edits.clear (off_waitLinks hcond hmutex)).cons ?_)
    dsimp only
    by_cases hjoin : joinable = true
    · rw [if_pos hjoin, if_pos hjoin]
      by_cases hok : ok.cond = true
      · rw [if_pos hok, if_pos hok]
        generalize hs₂ : ({ (s₁.initThread t start ok.fiber).setThread t fun th =>
            { th with term := some (.term (s₁.initThread t start ok.fiber).terms) } with
          cond_q := Function.update (s₁.initThread t start ok.fiber).cond_q
            (.term (s₁.initThread t start ok.fiber).terms) []
          terms := (s₁.initThread t start ok.fiber).terms + 1 } : St) = s₂
        have hqueue : s₂.queue = Function.update s₁.queue (.cond (.term s₁.terms)) (some []) := by
          rw [← hs₂]
          exact queue_term rfl rfl rfl rfl rfl (fun _ => rfl) rfl
        have hnew : Edits s₁.queue [.init (.cond (.term s₁.terms))] s₂.queue := by
          rw [hqueue]
          exact Edits.init (by simp [queue]) (by simp)
        refine hnew.cons (startThread_edits ?_ ?_) <;> rw [← hs₂]
        · exact hrun
        · exact hzombie
      · rw [if_neg hok, if_neg hok]
        have hfree := stackFree_edits (s := s₁.initThread t start ok.fiber) hnodup hfree
        rw [hinit] at hfree
        exact hfree
    · rw [if_neg hjoin, if_neg hjoin]
      have hstart := startThread_edits (s := s₁.initThread t start ok.fiber) hrun hzombie
      rw [hinit] at hstart
      exact hstart

/-! ## Termination and joining -/

/-- A switch moves nothing on the queues. -/
theorem switchContext_queue (s : St) (t : ℕ) : (s.switchContext t).queue = s.queue := by
  unfold switchContext
  split <;> exact queue_congr rfl rfl rfl rfl rfl (fun _ => rfl) rfl

/-- The end of `st_thread_exit`. -/
theorem exitFree_edits {t : ℕ} {explicit : Bool} (hnodup : s.free_stacks.Nodup) (hfree : t ∉ s.free_stacks) :
    Edits s.queue (s.exitFreeLinks t) (s.exitFree t explicit).queue := by
  unfold exitFreeLinks exitFree
  dsimp only
  rw [switchContext_queue]
  by_cases hprim : (s.thread t).flags.primordial = true
  · rw [if_pos hprim, if_pos hprim]
    exact Edits.nil _
  · rw [if_neg hprim, if_neg hprim]
    have hqueue : (((s.stackFree t).setLife (s.thread t).id fun l =>
        { l with freed := l.freed + 1 }).setPc (.exitEnd explicit)).queue = (s.stackFree t).queue :=
      queue_congr rfl rfl rfl rfl rfl (fun _ => rfl) rfl
    rw [hqueue]
    exact stackFree_edits hnodup hfree

/-- The accesses of `st_thread_exit` by the thread `t`, up to its first switch. -/
theorem threadExitLinks_eq {t : ℕ} (retval : ℤ) (hthis : s.this_thread = some t) :
    ((s.thread t).term = none → s.threadExitLinks retval = (s.enterExit t retval).exitFreeLinks t) ∧
      ∀ c, (s.thread t).term = some c → s.threadExitLinks retval = .append (.links t) .zombieq ::
        ({ s.enterExit t retval with zombie_q := s.zombie_q ++ [t] } : St).condSignalLinks c false := by
  have hterm : ((s.enterExit t retval).thread t).term = (s.thread t).term := by
    rw [enterExit_thread, Function.update_self]
  unfold threadExitLinks
  rw [hthis]
  dsimp only
  split
  · next hnone =>
    refine ⟨fun _ => rfl, fun c hc => ?_⟩
    rw [← hterm] at hc
    cases hnone.symm.trans hc
  · next c hsome =>
    refine ⟨fun hc => ?_, fun c' hc => ?_⟩
    · rw [← hterm] at hc
      cases hsome.symm.trans hc
    · rw [← hterm] at hc
      cases hsome.symm.trans hc
      rfl

/-- `st_thread_exit` of a live thread for which nobody waits, up to the first switch. -/
theorem threadExit_edits {t : ℕ} {retval : ℤ} (hg : s.Good) (hruns : s.Runs t) (hfree : s.Unjoined t)
    (hzombie : t ∉ s.zombie_q) (hmade : ∀ c, (s.thread t).term = some c → s.Made c)
    (hexit : s.threadExit retval false = some s') :
    Edits s.queue (s.threadExitLinks retval) s'.queue := by
  have henter : Enqueues s (s.enterExit t retval) [] :=
    (Enqueues.refl s).congr rfl rfl rfl rfl rfl (fun _ => rfl) rfl
  have hnotfree : t ∉ s.free_stacks := fun hmem => (hg.own.free t hmem).2.2.1 hruns.live
  have hnotrun : t ∉ s.run_q := by
    intro hmem
    have hst := ((hg.core.recs t).run_q.mp hmem).2
    rw [hruns.state] at hst
    cases hst
  obtain ⟨hnone, hsome⟩ := threadExitLinks_eq retval hruns.this
  rw [← henter.queue_nil]
  cases threadExit_paths hexit with
  | outside this eq =>
    rw [hruns.this] at this
    cases this
  | frees u this term eq =>
    rw [hruns.this] at this
    cases this
    rw [hnone term, eq]
    exact exitFree_edits hg.own.free_nodup hnotfree
  | signals u c s₁ this term signal eq =>
    rw [hruns.this] at this
    cases this
    rw [hsome c term, eq, switchContext_queue]
    -- The record is put on the zombie queue, and nobody waits for it.
    generalize hs₂ : ({ s.enterExit t retval with zombie_q := s.zombie_q ++ [t] } : St) = s₂ at signal ⊢
    have hempty : s₂.cond_q c = [] := by
      rw [← hs₂]
      exact hfree.cond_q term
    have hqueue : s₂.queue = Function.update s.queue .zombieq
        (some (s.zombie_q.map .links ++ [.links t])) := by
      rw [← hs₂]
      refine queue_update ?_ fun hd hh => ?_
      · rw [queue, List.map_append, List.map_singleton]
      · cases hd with
        | zombieq => exact absurd rfl hh
        | cond c => cases c <;> rfl
        | _ => rfl
    have hadd := Edits.add (q := s.queue) (h := .zombieq) rfl (off_links hnotrun hzombie)
    rw [← hqueue, ← henter.queue_nil] at hadd
    obtain ⟨n, hn, rfl⟩ := hmade c term
    have hcond : s₂.queue (.cond (.term n)) = some ((s₂.cond_q (.term n)).map .waitLinks) := by
      have hterms : s₂.terms = s.terms := by rw [← hs₂]; rfl
      simp [queue, hterms, hn]
    have hsame : s₁ = s₂ := by
      rw [condSignal, hempty] at signal
      exact (Option.some_inj.mp signal).symm
    have hpc : (s₁.setPc (.exitTerm t false)).queue = s₂.queue := by
      rw [hsame]
      exact queue_congr rfl rfl rfl rfl rfl (fun _ => rfl) rfl
    rw [hpc, condSignalLinks, hempty]
    rw [hempty] at hcond
    exact hadd.cons ((Edits.first hcond).cons (Edits.nil _))

/-- `cvar->wait_q.next` is read. -/
theorem condTest_edits {n : ℕ} (hn : n < s.terms) :
    Edits s.queue (s.condTestLinks (.term n)) s.queue := by
  refine Edits.first ?_
  simp [queue, hn]

/-- `st_thread_exit`, after its first switch, from the release of the stack on. -/
theorem exitTermEnd_rest {t : ℕ} (h : s.Buried) (hleave : s.Leaving t)
    (hexit : s.exitTermEnd t false = some s') :
    ∃ c, (s.thread t).term = some c ∧
      s' = ((s.condDestroy c).setThread t fun th => { th with term := none }).exitFree t false ∧
      Edits s.queue (s.exitFreeLinks t) s'.queue := by
  have hown := h.inv.good.own
  have hnotfree : t ∉ s.free_stacks := by
    intro hmem
    obtain ⟨c, hc⟩ := hleave.term
    rw [(hown.free t hmem).2.2.2.1] at hc
    cases hc
  obtain ⟨c, hterm⟩ := hleave.term
  unfold exitTermEnd at hexit
  rw [hterm] at hexit
  cases hexit
  refine ⟨c, hterm, rfl, ?_⟩
  generalize hs₂ : ((s.condDestroy c).setThread t fun th => { th with term := none }) = s₂
  have hsame : Enqueues s s₂ [] ∧ s₂.exitFreeLinks t = s.exitFreeLinks t := by
    rw [← hs₂]
    unfold condDestroy
    split_ifs <;>
      exact ⟨(Enqueues.refl s).congr rfl rfl rfl rfl rfl (fun _ => rfl) rfl,
        by simp [exitFreeLinks, stackFreeLinks, setThread, note]⟩
  rw [← hsame.1.queue_nil, ← hsame.2]
  refine exitFree_edits ?_ ?_
  · rw [hsame.1.free_stacks]
    exact hown.free_nodup
  · rw [hsame.1.free_stacks]
    exact hnotfree

/-- `st_thread_exit`, after its first switch. -/
theorem exitTermEnd_edits {t : ℕ} (h : s.Buried) (hleave : s.Leaving t)
    (hexit : s.exitTermEnd t false = some s') : Edits s.queue (s.exitTermEndLinks t) s'.queue := by
  obtain ⟨c, hterm, -, hrest⟩ := exitTermEnd_rest h hleave hexit
  unfold exitTermEndLinks
  rw [hterm]
  dsimp only
  obtain ⟨n, hn, rfl⟩ := (h.inv.linked.term t c hterm).1
  exact (condTest_edits hn).append hrest

/-- The loop of `st_thread_join`, for a thread that has not terminated. -/
theorem joinLoop_edits (h : s.Sound) {c : Cond} {t : ℕ} (hst : (s.thread t).state ≠ .ZOMBIE)
    (hfree : ∀ me, s.this_thread = some me → (∀ c, me ∉ s.cond_q c) ∧ ∀ m, me ∉ (s.mutex m).wait_q)
    (hc : ∃ xs, s.queue (.cond c) = some xs) (hjoin : s.joinLoop c t = some s') :
    Edits s.queue (s.joinLoopLinks c t) s'.queue := by
  unfold joinLoop interrupted at hjoin
  unfold joinLoopLinks interruptedLinks
  rw [if_neg hst] at hjoin ⊢
  cases hthis : s.this_thread with
  | none =>
    rw [hthis] at hjoin
    cases hjoin
  | some me =>
    rw [hthis] at hjoin
    dsimp only at hjoin ⊢
    by_cases hflag : (s.thread me).flags.interrupt = true
    · rw [if_pos hflag] at hjoin ⊢
      cases hjoin
      exact Edits.nil _
    · rw [if_neg hflag] at hjoin ⊢
      obtain ⟨hcond, hmutex⟩ := hfree me hthis
      exact condBlock_edits h hcond hmutex hc hjoin

/-- A termination condition variable that was made has a wait queue. -/
theorem Made.queue {c : Cond} (h : s.Made c) : ∃ xs, s.queue (.cond c) = some xs := by
  obtain ⟨n, hn, rfl⟩ := h
  exact ⟨_, if_pos hn⟩

/-- `st_thread_join`. -/
theorem threadJoin_edits {t : ℕ} (h : s.Buried) (hst : (s.thread t).state ≠ .ZOMBIE)
    (hfree : ∀ me, s.this_thread = some me → (∀ c, me ∉ s.cond_q c) ∧ ∀ m, me ∉ (s.mutex m).wait_q)
    (hjoin : s.threadJoin t = some s') : Edits s.queue (s.threadJoinLinks t) s'.queue := by
  unfold threadJoin at hjoin
  unfold threadJoinLinks
  cases hterm : (s.thread t).term with
  | none =>
    rw [hterm] at hjoin
    cases hjoin
    exact Edits.nil _
  | some c =>
    rw [hterm] at hjoin
    dsimp only at hjoin ⊢
    by_cases hself : s.this_thread = some t
    · rw [if_pos hself] at hjoin ⊢
      cases hjoin
      exact Edits.nil _
    rw [if_neg hself] at hjoin ⊢
    have hmade := (h.inv.linked.term t c hterm).1
    obtain ⟨n, hn, rfl⟩ := hmade
    refine (condTest_edits hn).append ?_
    by_cases hq : s.cond_q (.term n) ≠ []
    · rw [if_pos hq] at hjoin ⊢
      cases hjoin
      exact Edits.nil _
    · rw [if_neg hq] at hjoin ⊢
      exact joinLoop_edits h.sound hst hfree (Made.queue ⟨n, hn, rfl⟩) hjoin

/-- `st_thread_join`, after the wait in its loop. -/
theorem joinEnd_edits {me t : ℕ} {c : Cond} (h : s.Buried) (hruns : s.Runs me)
    (hpc : s.pcOf me = .join me c t) (hjoin : s.joinEnd me c t = some s') :
    Edits s.queue (s.joinEndLinks me c t) s'.queue := by
  have hcore := h.inv.good.core
  have hrec := hcore.recs me
  have hfits := hrec.pc hruns.live
  rw [hpc] at hfits
  obtain ⟨-, hlive, hterm⟩ := hfits
  have hmade := (h.inv.linked.term t c hterm).1
  have hmem : me ∈ s.cond_q c := (hrec.cond_q c).mpr ⟨hruns.live, by rw [hpc]; rfl⟩
  have hun := condUnblock_edits hmade.queue hmem
  unfold joinEnd at hjoin
  unfold joinEndLinks
  obtain ⟨⟨s₁, r⟩, hs₁⟩ : ∃ p, s.condUnblock me c = p := ⟨_, rfl⟩
  rw [hs₁] at hjoin hun ⊢
  dsimp only at hun
  cases r with
  | error e =>
    cases hjoin
    exact hun
  | ok v =>
    have hs₁ := congrArg Prod.fst hs₁
    dsimp only at hs₁ hjoin ⊢
    have hstate : (s₁.thread t).state = (s.thread t).state := by
      rw [← hs₁]
      by_cases ht : t = me <;> simp [condUnblock, setFlags, setThread, setCondQ, ht]
    have hst : (s₁.thread t).state ≠ .ZOMBIE := by
      rw [hstate]
      intro hz
      have hdead := (hcore.recs t).state hlive
      rw [hz] at hdead
      exact hdead
    -- The caller has left the wait queue.
    have hfree : (∀ c', me ∉ s₁.cond_q c') ∧ ∀ m, me ∉ (s₁.mutex m).wait_q := by
      rw [← hs₁]
      refine ⟨fun c' hin => ?_, fun m hin => ?_⟩
      · by_cases hc' : c' = c
        · subst hc'
          simp only [condUnblock, setFlags, setThread, setCondQ, Function.update_self] at hin
          exact (hcore.cond_nodup c').not_mem_erase hin
        · simp only [condUnblock, setFlags, setThread, setCondQ, Function.update_of_ne hc'] at hin
          have hwaits := ((hrec.cond_q c').mp hin).2
          rw [hpc] at hwaits
          exact hc' hwaits.symm
      · have hwaits := ((hrec.wait_q m).mp hin).2
        rw [hpc] at hwaits
        exact hwaits
    have hthis : s₁.this_thread = some me := by
      rw [← hs₁]
      exact hruns.this
    have hsound : s₁.Sound := by
      rw [← hs₁]
      exact ⟨h.sound.nodup, h.sound.zombie⟩
    have hmade₁ : s₁.Made c := by
      rw [← hs₁]
      exact hmade
    refine hun.cons (joinLoop_edits hsound hst (fun u hu => ?_) hmade₁.queue hjoin)
    rw [hthis] at hu
    cases hu
    exact hfree

/-! ## Steps -/

/-- Threads are put on the run queue, and nothing else is done to the lists. -/
theorem edits_ret {s₁ : St} {as : List Access} {r : Res}
    (h : ∃ l, Enqueues s s₁ l ∧ (s₁.Sound → Edits s.queue as s₁.queue)) (hsound : (s₁.ret r).Sound) :
    Edits s.queue as (s₁.ret r).queue := by
  obtain ⟨l, -, hedits⟩ := h
  have hqueue : (s₁.ret r).queue = s₁.queue := queue_congr rfl rfl rfl rfl rfl (fun _ => rfl) rfl
  rw [hqueue]
  exact hedits ⟨hsound.nodup, hsound.zombie⟩

/-- A call. -/
theorem call_edits {c : Call} {r : Res} (h : s.Buried) (hclean : s.Clean (.call c))
    (hpc : (s.fiber s.running).pc = .user r) (hcall : s.call c = some s') (hsound : s'.Sound) :
    Edits s.queue (s.callLinks c) s'.queue := by
  have hg := h.inv.good
  have hcore := hg.core
  -- Whoever calls on behalf of a thread waits for nothing.
  have hfree : (s.running = 0 → s.this_thread = none) → ∀ me, s.this_thread = some me →
      (∀ c, me ∉ s.cond_q c) ∧ ∀ m, me ∉ (s.mutex m).wait_q := by
    intro hmain me hme
    rcases hg.caller hpc with h0 | ⟨t, hruns⟩
    · rw [hmain h0] at hme
      cases hme
    · rw [hruns.this, Option.some_inj] at hme
      subst hme
      obtain ⟨hcond, hmutex, -⟩ := hcore.unlinked (r := r) (hruns.pc_eq.symm.trans hpc)
      exact ⟨hcond, hmutex⟩
  have hdead : s.running ∈ s.threads → (s.life s.running).exits = 0 := by
    rcases hg.caller hpc with h0 | ⟨t, hruns⟩
    · exact not_dead_of_lt hg.own (by omega)
    · exact hruns.not_dead
  cases c with
  | poll pds timeout => exact poll_edits h.sound hcore.ev hcall
  | usleep usecs => exact usleep_edits h.sound hcall
  | condTimedwait n timeout =>
    cases condTimedwait_paths hcall with
    | outside this eq =>
      rw [eq]
      simp only [callLinks, this]
      exact Edits.nil _
    | interrupted me this flag eq =>
      rw [eq]
      simp only [callLinks, this, interruptedLinks, flag, if_true]
      exact Edits.nil _
    | waits me this flag blocks =>
      obtain ⟨hcond, hmutex⟩ := hfree hclean.1 me this
      simp only [callLinks, this, interruptedLinks, flag, Bool.false_eq_true, if_false]
      exact condBlock_edits h.sound hcond hmutex ⟨_, rfl⟩ blocks
  | condSignal n =>
    obtain ⟨s₁, hs₁, rfl⟩ := Option.map_eq_some_iff.mp hcall
    exact edits_ret (condSignal_edits hs₁ rfl (hcore.cond_nodup _)) hsound
  | condBroadcast n =>
    obtain ⟨s₁, hs₁, rfl⟩ := Option.map_eq_some_iff.mp hcall
    exact edits_ret (condSignal_edits hs₁ rfl (hcore.cond_nodup _)) hsound
  | mutexLock m => exact mutexLock_edits h.sound (hfree hclean.1) hcall
  | mutexTrylock m =>
    cases hcall
    rw [mutexTrylock_queue]
    exact Edits.nil _
  | mutexUnlock m =>
    cases hcall
    obtain ⟨l, -, hedits⟩ := mutexUnlock_edits (hcore.wait_nodup m)
    exact hedits hsound
  | interrupt t =>
    simp only [call] at hcall
    split_ifs at hcall
    obtain ⟨s₁, hs₁, rfl⟩ := Option.map_eq_some_iff.mp hcall
    exact edits_ret (threadInterrupt_edits hs₁) hsound
  | create joinable stk_size ok =>
    obtain ⟨r', rfl⟩ := call_create_eq hcall
    have hqueue : ((s.threadCreate (.user (.ok 0)) joinable stk_size ok).1.ret r').queue =
        (s.threadCreate (.user (.ok 0)) joinable stk_size ok).1.queue :=
      queue_congr rfl rfl rfl rfl rfl (fun _ => rfl) rfl
    rw [hqueue]
    exact threadCreate_edits h _ hclean.2
  | join t =>
    simp only [call] at hcall
    split_ifs at hcall with ht
    by_cases hterm : (s.thread t).term = none
    · have hlinks : s.threadJoinLinks t = [] := by
        unfold threadJoinLinks
        rw [hterm]
      rcases threadJoin_paths hcall with ⟨r', rfl⟩ | ⟨c, hc, -⟩
      · rw [callLinks, hlinks]
        exact Edits.nil _
      · rw [hterm] at hc
        cases hc
    · obtain ⟨c, hc⟩ := Option.ne_none_iff_exists'.mp hterm
      exact threadJoin_edits h (hg.joinable hdead ht hc).2 (hfree hclean.1) hcall
  | exit retval =>
    have hnone : s.this_thread = none := hclean.1
    have hlinks : s.threadExitLinks retval = [] := by
      unfold threadExitLinks
      rw [hnone]
    simp only [call, threadExit, hnone] at hcall
    cases hcall
    rw [callLinks, hlinks]
    exact Edits.nil _
  | idleRun =>
    simp only [call] at hcall
    split_ifs at hcall
    cases hcall
    exact Edits.nil _

/-- The last statement of the loop of `_st_idle_thread_start`, while the loop goes on. -/
theorem idleSched_edits (h : s.Sound) (hactive : 0 < s.active_count) (hidle : s.idleSched = some s') :
    Edits s.queue s.idleSchedLinks s'.queue := by
  have hready : Enqueues s s.readyIdle [] ∧ s.readyIdle.active_count = s.active_count := by
    unfold readyIdle
    split_ifs
    · exact ⟨(Enqueues.refl s).congr rfl rfl rfl rfl rfl (fun _ => rfl) rfl, rfl⟩
    · exact ⟨.refl s, rfl⟩
  have hlinks : s.idleSchedLinks = (s.readyIdle.setPc (.idle .dispatch)).vpScheduleLinks := by
    have hnot : ¬s.readyIdle.active_count ≤ 0 := by rw [hready.2]; omega
    exact if_neg hnot
  rcases idleSched_paths hidle with ⟨hended, -⟩ | ⟨-, rfl⟩
  · omega
  · have hpc : Enqueues s (s.readyIdle.setPc (.idle .dispatch)) [] :=
      hready.1.congr rfl rfl rfl rfl rfl (fun _ => rfl) rfl
    rw [hlinks, ← hpc.queue_nil]
    exact h.schedule (hpc.run_q.trans (List.append_nil _)) hpc.zombie_q

/-- A pass of the clock. -/
theorem vpCheckClock_edits {now : ℕ} {pc : Pc} {s₁ : St} (hclock : s.vpCheckClock now = some s₁)
    (hsound : (s₁.setPc pc).Sound) : Edits s.queue
      (checkClockLinks now (s.heap.sleepq_size + 1) { s with last_clock := now }) (s₁.setPc pc).queue := by
  obtain ⟨l, -, hedits⟩ := checkClockLoop_edits now _ hclock
  have hqueue : (s₁.setPc pc).queue = s₁.queue := queue_congr rfl rfl rfl rfl rfl (fun _ => rfl) rfl
  rw [hqueue]
  exact hedits ⟨hsound.nodup, hsound.zombie⟩

/-- `_ST_VP_IDLE` in one of the loops. -/
theorem dispatch_edits {outcomes : ℕ → SelectOutcome} {pc : Pc} {s₁ : St} (hc : s.Core [])
    (hidle : s.vpIdle outcomes = some s₁) (hsound : (s₁.setPc pc).Sound) :
    Edits s.queue (dispatchLinks outcomes s.ev (List.range s.ev.num)) (s₁.setPc pc).queue := by
  have hqueue : (s₁.setPc pc).queue = s₁.queue := queue_congr rfl rfl rfl rfl rfl (fun _ => rfl) rfl
  rw [hqueue]
  exact vpIdle_edits hc hidle ⟨hsound.nodup, hsound.zombie⟩

/-- A step of a live thread. -/
theorem step_edits_thread {t : ℕ} (h : s.Buried) (hclean : s.Clean l) (hruns : s.Runs t)
    (hstep : s.step l = some s') (hsound : s'.Sound) : Edits s.queue (s.accesses l) s'.queue := by
  have hg := h.inv.good
  have hrec := hg.core.recs t
  have hfits := hrec.pc hruns.live
  have hpc := hruns.pc_eq
  unfold accesses
  cases hp : s.pcOf t with
  | user r =>
    rw [hp] at hpc
    cases step_goes hpc hstep with
    | call c hcall =>
      rw [hpc]
      exact call_edits h hclean hpc hcall hsound
    | ret v _ hret =>
      rw [hpc]
      have hfree : s.This s.Unjoined := hclean.1
      obtain ⟨hg₁, hr₁⟩ := hruns.note_good hg (.returned s.running v)
      exact threadExit_edits hg₁ hr₁ (hfree.some hruns.this)
        (fun hmem => (h.zombie t hmem).1 hruns.live) (fun c hc => (h.inv.linked.term t c hc).1) hret
  | poll me q =>
    rw [hp] at hpc hfits
    obtain ⟨rfl, -, -, hio⟩ := hfits
    cases step_goes hpc hstep with
    | poll hend =>
      rw [hpc]
      exact pollEnd_edits hg.core.ev hio hend
  | condWait me c =>
    rw [hp] at hpc hfits
    obtain rfl : me = t := hfits
    cases step_goes hpc hstep with
    | condWait hend =>
      rw [hpc, hend]
      have hmem : me ∈ s.cond_q c := (hrec.cond_q c).mpr ⟨hruns.live, by rw [hp]; rfl⟩
      have huser : ∃ xs, s.queue (.cond c) = some xs := by
        cases c with
        | user n => exact ⟨_, rfl⟩
        | term n => exact absurd hpc (h.inv.linked.wait _ _ _)
      exact condUnblock_edits huser hmem
  | lock me m =>
    rw [hp] at hpc hfits
    obtain rfl : me = t := hfits
    cases step_goes hpc hstep with
    | lock hend =>
      rw [hpc, hend]
      exact mutexLockEnd_edits ((hrec.wait_q m).mpr ⟨hruns.live, by rw [hp]; rfl⟩)
  | join me c u =>
    rw [hp] at hpc hfits
    obtain rfl : me = t := hfits.1
    cases step_goes hpc hstep with
    | join hend =>
      rw [hpc]
      exact joinEnd_edits h hruns hp hend
  | _ =>
    -- The other places are those of `main`, of the idle thread and of a thread that exits.
    rw [hp] at hfits
    exact hfits.elim

/-- A step of a loop that dispatches. -/
theorem step_edits_loop {stage : Stage} (h : s.Buried) (hclean : s.Clean l)
    (hpc : (s.fiber s.running).pc = .idle stage ∨ (s.fiber s.running).pc = .native stage)
    (hstep : s.step l = some s') (hsound : s'.Sound) : Edits s.queue (s.accesses l) s'.queue := by
  have hg := h.inv.good
  unfold accesses
  rcases hpc with hpc | hpc
  · -- The idle thread's loop.
    have hone := hg.running_idle hpc
    cases step_goes hpc hstep with
    | idleDispatch outcomes _ s₁ hidle eq =>
      rw [hpc]
      subst eq
      exact dispatch_edits hg.core hidle hsound
    | idleEnd ended _ =>
      -- An `Ok` step does not end it.
      have hactive : 0 < s.active_count := hclean.1 hone
      omega
    | idleClock now s₁ hclock eq =>
      rw [hpc]
      subst eq
      exact vpCheckClock_edits hclock hsound
    | idleSched hend =>
      rw [hpc]
      exact idleSched_edits h.sound (hclean.1 hone) hend
  · -- The loop of `st_idle_thread_run`.
    cases step_goes hpc hstep with
    | nativeDispatch outcomes _ s₁ hidle eq =>
      rw [hpc]
      subst eq
      exact dispatch_edits hg.core hidle hsound
    | nativeEnd _ eq =>
      rw [hpc, eq]
      exact Edits.nil _
    | nativeClock now s₁ hclock eq =>
      rw [hpc]
      subst eq
      exact vpCheckClock_edits hclock hsound
    | nativeSched eq =>
      rw [hpc, eq]
      -- Its last part is `_st_vp_schedule`, after which it begins again.
      have hqueue : (s.setPc (.native .dispatch)).queue = s.queue :=
        queue_congr rfl rfl rfl rfl rfl (fun _ => rfl) rfl
      dsimp only
      rw [← hqueue]
      exact h.sound.schedule rfl rfl

/-- One step: its accesses lead from the lists to the next ones. -/
theorem step_edits (h : s.Buried) (hclean : s.Clean l) (hstep : s.step l = some s') :
    Edits s.queue (s.accesses l) s'.queue := by
  have hg := h.inv.good
  have hsound := (step_buried h hclean hstep).sound
  rcases hg.turn with hmain | ⟨hidle, -⟩ | ⟨t, hl, hrun, hst, hthis⟩ | ⟨t, -, -, hpc, -, -⟩ |
    ⟨t, hleave, -⟩
  · rcases hg.own.main_pc with ⟨r, hpc⟩ | ⟨stage, hpc⟩
    · rw [← hmain] at hpc
      cases step_goes hpc hstep with
      | call c hcall =>
        unfold accesses
        rw [hpc]
        exact call_edits h hclean hpc hcall hsound
      | ret v thread _ => exact absurd hmain thread
    · rw [← hmain] at hpc
      exact step_edits_loop h hclean (Or.inr hpc) hstep hsound
  · obtain ⟨stage, hpc⟩ := hg.own.idle_pc
    rw [← hidle] at hpc
    exact step_edits_loop h hclean (Or.inl hpc) hstep hsound
  · exact step_edits_thread h hclean ⟨hl, hrun, hst, hthis⟩ hstep hsound
  · cases step_goes hpc hstep with
    | exitEnd hend =>
      unfold accesses
      rw [hpc, hend]
      exact Edits.nil _
  · cases step_goes hleave.pc hstep with
    | exitTerm hend =>
      unfold accesses
      rw [hleave.pc]
      exact exitTermEnd_edits h hleave hend

end steps

/-! ## Runs -/

/-- The accesses of a run. -/
def runAccesses : St → List Label → List Access
  | _, [] => []
  | s, l :: ls =>
    s.accesses l ++
      match s.step l with
      | some s' => runAccesses s' ls
      | none => []

/-- The accesses of a run are the edits between the queues at its ends. The induction is on the steps. -/
theorem run_edits {ls : List Label} : ∀ {s s' : St}, s.Buried → Runs.Meets step Clean s ls →
    Runs.run step s ls = some s' → Edits s.queue (runAccesses s ls) s'.queue := by
  induction ls with
  | nil =>
    intro s s' h _ hrun
    cases hrun
    exact Edits.nil _
  | cons l ls ih =>
    intro s s' h hclean hrun
    obtain ⟨s₁, hstep, hrest⟩ := Runs.run_cons hrun
    have hone := step_edits h hclean.head hstep
    rw [runAccesses, hstep]
    exact hone.append (ih (step_buried h hclean.head hstep) (hclean.tail hstep) hrest)

/-- At first the zombie queue is empty. -/
theorem init_buried (pagesize : ℤ) (last_clock : ℕ) : (init pagesize last_clock).Buried :=
  ⟨init_inv pagesize last_clock, List.nodup_nil, fun _ ht => by cases ht⟩

/-- The pointers of a run refine its lists. In each run of clean steps from `st_init`, on any links that
represent the lists at its start, all accesses of the run can be carried out: no `NULL` link is followed,
and each link that is read leads to where the program goes on. The links at the end represent the
lists at the end. -/
theorem run_links (pagesize : ℤ) (last_clock : ℕ) (ls : List Label) {s : St}
    (hrun : Runs.run step (init pagesize last_clock) ls = some s)
    (hclean : Runs.Meets step Clean (init pagesize last_clock) ls) {m : Clist.Links (QHead ⊕ QElem)}
    {left : QElem → Option (QHead ⊕ QElem)}
    (hrep : Rep m ⟨(init pagesize last_clock).queue, left⟩) :
    ∃ m' left', Runs.run Clist.Links.exec m (runAccesses (init pagesize last_clock) ls) = some m' ∧
      Rep m' ⟨s.queue, left'⟩ := by
  obtain ⟨left', hmeets, hedits⟩ := run_edits (init_buried pagesize last_clock) hclean hrun left
  have hvalid := hmeets.mono fun _ _ h => h.1
  obtain ⟨m', hm', hrep'⟩ := run_exec hrep hvalid hedits
  exact ⟨m', left', hm', hrep'⟩

/-- The run queue is first in, first out. In each run of clean steps from `st_init`, the records that were
taken off the run queue, followed by those that are on it, are those that were put on it, in the
same order. -/
theorem run_fifo (pagesize : ℤ) (last_clock : ℕ) (ls : List Label) {s : St}
    (hrun : Runs.run step (init pagesize last_clock) ls = some s)
    (hclean : Runs.Meets step Clean (init pagesize last_clock) ls) :
    removed .runq (runAccesses (init pagesize last_clock) ls) ++ s.run_q.map .links =
      appended .runq (runAccesses (init pagesize last_clock) ls) := by
  obtain ⟨left', hmeets, hedits⟩ :=
    run_edits (init_buried pagesize last_clock) hclean hrun fun _ => none
  have hqueued := hmeets.mono fun _ _ h => h.2
  obtain ⟨xs, hxs, hlaw⟩ := run_queued hqueued hedits (h := .runq) rfl
  cases hxs
  rw [hlaw]
  rfl

/-- The links at the start: each head leads to itself, and all other links are `NULL`. -/
def emptyLinks : Clist.Links (QHead ⊕ QElem) :=
  ⟨fun n => n.elim (fun h => some (.inl h)) fun _ => none,
    fun n => n.elim (fun h => some (.inl h)) fun _ => none⟩

/-- At first each link says that its queue is empty. -/
theorem emptyLinks_rep (pagesize : ℤ) (last_clock : ℕ) :
    Rep emptyLinks ⟨(init pagesize last_clock).queue, fun _ => none⟩ := by
  have hnil : ∀ h xs, (init pagesize last_clock).queue h = some xs → xs = [] := by
    intro h xs hq
    cases h with
    | cond c =>
      rw [queue_cond hq]
      rfl
    | _ =>
      cases hq
      rfl
  constructor
  · intro h xs hq
    cases hnil h xs hq
    refine (init_isRing emptyLinks (.inl h)).congr (fun x hx => ?_) fun x hx => ?_ <;>
      rw [List.mem_singleton.mp hx] <;> simp [emptyLinks, Clist.Links.init]
  · intro h h' xs xs' e hq _ he _
    cases hnil h xs hq
    cases he
  · intro e n hn
    cases hn

/-- A thread waits on a condition variable, another one signals it and sleeps. The first thread
terminates, and its stack comes off the free list for a joinable thread. -/
def signalsAndReuses : List Label :=
  [.call (.create false 0 ⟨true, true, true⟩), .call (.create false 0 ⟨true, true, true⟩),
    .call (.usleep 1), .call (.condTimedwait 0 100), .call (.condSignal 0), .call (.usleep 1), .resume,
    .ret 0, .resume, .call (.create true 0 ⟨true, true, true⟩)]

/-- The run is possible, and the links that its accesses leave are those of its queues. -/
theorem run_links_signalsAndReuses : ∃ s m' left',
    Runs.run step (init 4096 0) signalsAndReuses = some s ∧ s.run_q = [1] ∧
    Runs.run Clist.Links.exec emptyLinks (runAccesses (init 4096 0) signalsAndReuses) = some m' ∧
    Rep m' ⟨s.queue, left'⟩ := by
  obtain ⟨m', left', hm', hrep⟩ := run_links 4096 0 signalsAndReuses (Option.some_get (by decide)).symm
    (by decide) (emptyLinks_rep 4096 0)
  exact ⟨_, m', left', (Option.some_get _).symm, by decide, hm', hrep⟩

/-- On the run queue come both threads, the first one again after the signal, and then the thread that
has its stack. -/
theorem run_fifo_signalsAndReuses : ∃ s, Runs.run step (init 4096 0) signalsAndReuses = some s ∧
    removed .runq (runAccesses (init 4096 0) signalsAndReuses) ++ s.run_q.map .links =
      appended .runq (runAccesses (init 4096 0) signalsAndReuses) ∧
    appended .runq (runAccesses (init 4096 0) signalsAndReuses) =
      [.links 1, .links 2, .links 1, .links 1] :=
  ⟨_, (Option.some_get (by decide)).symm,
    run_fifo 4096 0 signalsAndReuses (Option.some_get (by decide)).symm (by decide), by decide⟩

end StWin.St
