import StWin.Sched.Passes
import StWin.Sched.Acquire

/-!
# Whose turn it is

If each thread that `st_thread_create` returns has got its fiber, then the scheduler never selects a thread
without one, and the fiber that runs is that of `_st_this_thread`, unless it is `main`. So a thread that
returns from its start function is the one that `st_thread_exit` ends. Its stack is on the free list only
after that, and a stack that `st_thread_create` takes belongs to nobody any more.

A call of `st_thread_create` that cannot get its condition variable writes a record and gives the stack
back. Nobody must select this record: if the library still has a pointer to it, from a thread that had the
stack before, then the thread that was not created runs, and ends, and its stack is released twice.

`Turns` is the invariant. It holds in every run of such steps in which threads end by returning, whatever
else the threads and `main` call: the calls need not be those of a well-used scheduler (`Ok`).
-/

namespace StWin.St

/-- The record has a fiber. -/
def Manned (s : St) (t : ℕ) : Prop := (s.thread t).context ≠ none

/-- The thread has entered `st_thread_exit`. -/
def Ended (s : St) (f : ℕ) : Prop := (s.life f).exits ≠ 0

instance (s : St) (f : ℕ) : Decidable (s.Ended f) := inferInstanceAs (Decidable (_ ≠ _))

/-- The record is that of a thread, or of one that has ended. A record that `st_thread_create` has given
back is neither. -/
def Started (s : St) (t : ℕ) : Prop :=
  s.Manned t ∧ (t ∈ s.free_stacks → s.Ended (s.thread t).id)

/-- Threads, records, and fibers belong together. -/
structure Turns (s : St) : Prop where
  names : s.Names s.Started
  created : 0 < s.created
  record : ∀ t < s.segments, (s.fiber (s.thread t).id).thd = t ∧ (s.thread t).id ≠ 0 ∧
    (s.thread t).id < s.created
  own : ∀ t f, (s.thread t).context = some f → (s.thread t).id = f ∧ t < s.segments
  turn : s.running ≠ 0 → ∃ t, s.this_thread = some t ∧ (s.thread t).context = some s.running
  free_nodup : s.free_stacks.Nodup
  free : ∀ t ∈ s.free_stacks, t < s.segments
  old : ∀ f, s.Ended f → f < s.created
  ended : ∀ f, (s.fiber f).pc.over = true ↔ s.Ended f
  main : (s.fiber 0).pc.idles = false
  term : ∀ f t e, (s.fiber f).pc = .exitTerm t e →
    e = false ∧ (s.thread t).context = some f ∧ t ∉ s.free_stacks
  last : ∀ f e, (s.fiber f).pc = .exitEnd e → e = false

/-- The same records are those of threads. -/
theorem Stays.started {P : ℕ → Prop} {s s' : St} (h : Stays P s s') : s'.Started = s.Started := by
  funext t
  unfold Started Manned Ended
  rw [h.context, h.free_stacks, h.id, h.life]

/-- At most one stack goes to the free list, that of a thread that has ended. -/
def GivesBack (s s' : St) : Prop :=
  s'.free_stacks = s.free_stacks ∨ ∃ t, s'.free_stacks.Perm (t :: s.free_stacks) ∧ t ∉ s.free_stacks ∧
    t < s.segments ∧ s'.Ended (s.thread t).id

namespace Turns

variable {s s' : St}

/-- The fiber of a record is that of its thread. -/
theorem fiber (h : s.Turns) (t f : ℕ) (hf : (s.thread t).context = some f) :
    (s.thread t).id = f ∧ (s.fiber f).thd = t ∧ f ≠ 0 ∧ f < s.created ∧ t < s.segments := by
  obtain ⟨rfl, hseg⟩ := h.own t f hf
  obtain ⟨hthd, h0, hlt⟩ := h.record t hseg
  exact ⟨rfl, hthd, h0, hlt, hseg⟩

/-- A record has no fiber but its own. -/
theorem context_eq (h : s.Turns) {t : ℕ} (ht : s.Manned t) :
    (s.thread t).context = some (s.thread t).id := by
  obtain ⟨f, hf⟩ := Option.ne_none_iff_exists'.mp ht
  rw [hf, (h.fiber t f hf).1]

/-- The rule for steps that create nobody. -/
theorem move (h : s.Turns) (hr : SameRecords s.Started s s')
    (hthis : ∀ t, s'.this_thread = some t → s.Started t)
    (hturn : s'.running ≠ 0 → ∃ t, s'.this_thread = some t ∧ (s.thread t).context = some s'.running)
    (hmono : ∀ f, s.Ended f → s'.Ended f) (hback : GivesBack s s')
    (hold : ∀ f, s'.Ended f → f < s.created)
    (hended : ∀ f, (s'.fiber f).pc.over = true ↔ s'.Ended f) (hmain : (s'.fiber 0).pc.idles = false)
    (hterm : ∀ f t e, (s'.fiber f).pc = .exitTerm t e →
      e = false ∧ (s.thread t).context = some f ∧ t ∉ s'.free_stacks)
    (hlast : ∀ f e, (s'.fiber f).pc = .exitEnd e → e = false) : s'.Turns := by
  -- What is new on the free list belongs to a thread that has ended.
  obtain ⟨hnodup, hfree⟩ : s'.free_stacks.Nodup ∧ ∀ t ∈ s'.free_stacks,
      t ∈ s.free_stacks ∨ (t < s.segments ∧ s'.Ended (s.thread t).id) := by
    rcases hback with heq | ⟨u, hperm, hnot, hseg, hend⟩
    · rw [heq]
      exact ⟨h.free_nodup, fun _ ht => Or.inl ht⟩
    · refine ⟨hperm.nodup_iff.mpr (List.nodup_cons.mpr ⟨hnot, h.free_nodup⟩), fun t ht => ?_⟩
      rcases List.mem_cons.mp (hperm.mem_iff.mp ht) with rfl | ht
      · exact Or.inr ⟨hseg, hend⟩
      · exact Or.inl ht
  -- So a record that is started stays so, whatever points to it.
  have hstarted : ∀ t, s.Started t → s'.Started t := by
    intro t ht
    unfold Started Manned
    rw [hr.context, hr.id]
    refine ⟨ht.1, fun hin => ?_⟩
    rcases hfree t hin with hin | hnew
    · exact hmono _ (ht.2 hin)
    · exact hnew.2
  refine ⟨(hr.names h.names hthis).mono hstarted, by rw [hr.created]; exact h.created,
    fun t ht => ?_, fun t f hf => ?_, ?_, hnodup, fun t ht => ?_, by rw [hr.created]; exact hold,
    hended, hmain, fun f t e hpc => ?_, hlast⟩
  · rw [hr.segments] at ht
    rw [hr.id, hr.thd, hr.created]
    exact h.record t ht
  · rw [hr.context] at hf
    rw [hr.id, hr.segments]
    exact h.own t f hf
  · simp only [hr.context]
    exact hturn
  · rw [hr.segments]
    rcases hfree t ht with hold | hnew
    · exact h.free t hold
    · exact hnew.1
  · rw [hr.context]
    exact hterm f t e hpc

/-- A step within a thread that has not ended. -/
theorem stays (h : s.Turns) (hpc : (s.fiber s.running).pc.over = false) (hs : Stays s.Started s s') :
    s'.Turns := by
  have hsame : ∀ f, s'.Ended f ↔ s.Ended f := fun f => by
    unfold Ended
    rw [hs.life]
  -- A place that is over has not changed.
  have hover : ∀ f, (s'.fiber f).pc.over = true → (s'.fiber f).pc = (s.fiber f).pc := by
    intro f hf
    rcases hs.pc f with heq | ⟨-, hin, -⟩
    · exact heq
    · rw [hin] at hf
      cases hf
  refine h.move hs.toSameRecords (fun t ht => h.names.this t (hs.this_thread ▸ ht)) ?_
    (fun f => (hsame f).mpr) (Or.inl hs.free_stacks) (fun f hf => h.old f ((hsame f).mp hf)) (fun f => ?_)
    ?_ (fun f t e hf => ?_) fun f e hf => ?_
  · rw [hs.running, hs.this_thread]
    exact h.turn
  · rw [hsame]
    rcases hs.pc f with heq | ⟨hf, hin, -⟩
    · rw [heq]
      exact h.ended f
    · rw [hin, ← h.ended f, hf, hpc]
  · rcases hs.pc 0 with heq | ⟨-, -, hidle⟩
    · rw [heq]
      exact h.main
    · by_contra hne
      have hidles := hidle (by simpa using hne)
      rw [h.main] at hidles
      cases hidles
  · rw [hs.free_stacks]
    exact h.term f t e (by rw [← hover f (by rw [hf]; rfl), hf])
  · exact h.last f e (by rw [← hover f (by rw [hf]; rfl), hf])

/-- `_st_vp_schedule` selects a thread with a fiber and switches to it. -/
theorem vpSchedule_eq (h : s.Turns) : ∃ t q f, s.Started t ∧ (s.thread t).context = some f ∧
    s.vpSchedule = { s.setState t .RUNNING with run_q := q, this_thread := some t, running := f } := by
  -- The thread is in `RUNNABLE`, or it is the idle thread.
  have hnext : s.Started s.nextThread.1 := by
    unfold nextThread
    split
    · exact h.names.idle
    · next t q _ =>
      dsimp only
      split_ifs with hst
      · exact h.names.state t (by simp [hst])
      · exact h.names.idle
  have hresumes : ∃ t q, s.Started t ∧ s.vpSchedule =
      ({ { s with run_q := q }.setState t .RUNNING with this_thread := some t } : St).switchContext t := by
    unfold vpSchedule
    dsimp only
    split_ifs
    · exact ⟨_, _, h.names.idle, rfl⟩
    · exact ⟨_, _, hnext, rfl⟩
  obtain ⟨t, q, ht, heq⟩ := hresumes
  obtain ⟨f, hf⟩ := Option.ne_none_iff_exists'.mp ht.1
  refine ⟨t, q, f, ht, hf, ?_⟩
  rw [heq]
  unfold switchContext
  simp [setState, setThread, hf]

/-- `_st_vp_schedule` gives the turn to one of the threads. -/
theorem vpSchedule (h : s.Turns) : s.vpSchedule.Turns ∧ SameRecords s.Started s s.vpSchedule ∧
    ∀ f, s.vpSchedule.Ended f ↔ s.Ended f := by
  obtain ⟨t, q, f, ht, hf, heq⟩ := h.vpSchedule_eq
  rw [heq]
  have hr : SameRecords s.Started s
      { s.setState t .RUNNING with run_q := q, this_thread := some t, running := f } :=
    (Stays.setState s ht .RUNNING).toSameRecords.trans (.of_eq rfl rfl rfl (fun _ => rfl) rfl rfl rfl rfl)
  refine ⟨h.move hr ?_ ?_ (fun _ => id) (Or.inl rfl) h.old h.ended h.main h.term h.last, hr,
    fun _ => Iff.rfl⟩
  · intro u hu
    obtain rfl : t = u := Option.some_inj.mp hu
    exact ht
  · exact fun _ => ⟨t, rfl, hf⟩

/-- Recording an event changes nothing. -/
theorem note (h : s.Turns) (n : Note) : (s.note n).Turns :=
  ⟨⟨h.names.this, h.names.idle, h.names.state, h.names.pollq, h.names.heap⟩, h.created, h.record, h.own,
    h.turn, h.free_nodup, h.free, h.old, h.ended, h.main, h.term, h.last⟩

/-- A step that only passes the turn on. -/
theorem passes (h : s.Turns) (hpc : (s.fiber s.running).pc.over = false) (hp : Passes s.Started s s') :
    s'.Turns ∧ SameRecords s.Started s s' ∧ ∀ f, s'.Ended f ↔ s.Ended f := by
  have hended : ∀ {s₁}, Stays s.Started s s₁ → ∀ f, s₁.Ended f ↔ s.Ended f := by
    intro s₁ hs f
    unfold Ended
    rw [hs.life]
  cases hp with
  | stays hs => exact ⟨h.stays hpc hs, hs.toSameRecords, hended hs⟩
  | switches s₁ hs eq =>
    obtain ⟨hturns, hr, hsame⟩ := (h.stays hpc hs).vpSchedule
    rw [hs.started] at hr
    rw [eq]
    exact ⟨hturns, hs.toSameRecords.trans hr, fun f => (hsame f).trans (hended hs f)⟩

end Turns

/-! ## Termination -/

section exit

variable {P : ℕ → Prop} {s s' : St} {t : ℕ}

/-- An assignment to the history of a thread. -/
theorem setLife_ended (s : St) (id : ℕ) (f : Life → Life) (g : ℕ) : (s.setLife id f).Ended g ↔
    if g = id then (f (s.life id)).exits ≠ 0 else s.Ended g := by
  unfold Ended setLife
  dsimp only
  split_ifs with hg
  · rw [hg, Function.update_self]
  · rw [Function.update_of_ne hg]

/-- The running fiber goes on at another place. -/
theorem setPc_pc (s : St) (pc : Pc) (f : ℕ) :
    ((s.setPc pc).fiber f).pc = if f = s.running then pc else (s.fiber f).pc := by
  split_ifs with hf
  · simp [setPc, hf]
  · simp [setPc, hf]

/-- A thread that enters `st_thread_exit` has ended. -/
theorem enterExit_sameRecords (ht : P t) (retval : ℤ) : SameRecords P s (s.enterExit t retval) := by
  have h₁ : SameRecords P s (s.setThread t fun th => { th with retval := retval }) :=
    .setThread s t (fun _ => rfl) (fun _ => rfl) fun _ => Or.inl rfl
  unfold enterExit
  dsimp only
  refine SameRecords.trans ?_ (Stays.setState _ ht .ZOMBIE).toSameRecords
  exact h₁.trans (.of_eq rfl rfl rfl (fun _ => rfl) rfl rfl rfl rfl)

/-- One more thread has ended. -/
theorem enterExit_ended (s : St) (t : ℕ) (retval : ℤ) (f : ℕ) :
    (s.enterExit t retval).Ended f ↔ f = (s.thread t).id ∨ s.Ended f := by
  have hid : ((s.setThread t fun th => { th with retval := retval }).thread t).id = (s.thread t).id := by
    simp [setThread]
  change (setLife { s.setThread t fun th => { th with retval := retval } with
    active_count := s.active_count - 1 }
      ((s.setThread t fun th => { th with retval := retval }).thread t).id
      fun l => { l with exits := l.exits + 1 }).Ended f ↔ _
  rw [setLife_ended, hid]
  split_ifs with hf
  · simp [hf]
  · simp [hf, Ended, setThread]

/-- The end of `st_thread_exit` releases the stack, or not, and nothing else happens to the thread. -/
structure Released (s s' : St) (t : ℕ) (explicit : Bool) : Prop where
  pc : ∀ f, (s'.fiber f).pc = if f = s.running then .exitEnd explicit else (s.fiber f).pc
  ended : ∀ f, s'.Ended f ↔ s.Ended f
  free_stacks : s'.free_stacks = s.free_stacks ∨ s'.free_stacks.Perm (t :: s.free_stacks)
  this_thread : s'.this_thread = s.this_thread
  running : s'.running = s.running

/-- The end of `st_thread_exit` releases the stack of the thread. -/
theorem exitFree_released (hctx : (s.thread t).context = some s.running) (explicit : Bool) :
    SameRecords P s (s.exitFree t explicit) ∧ Released s (s.exitFree t explicit) t explicit := by
  unfold exitFree
  dsimp only
  generalize hs₁ : (if (s.thread t).flags.primordial = true then s
    else (s.stackFree t).setLife (s.thread t).id fun l => { l with freed := l.freed + 1 }) = s₁
  -- The stack is released unless the thread is primordial.
  have h₁ : s₁.thread = s.thread ∧ s₁.fiber = s.fiber ∧ s₁.running = s.running ∧
      s₁.this_thread = s.this_thread ∧ SameRecords P s s₁ ∧ (∀ f, s₁.Ended f ↔ s.Ended f) ∧
      (s₁.free_stacks = s.free_stacks ∨ s₁.free_stacks.Perm (t :: s.free_stacks)) := by
    rw [← hs₁]
    split_ifs
    · exact ⟨rfl, rfl, rfl, rfl, .refl s, fun _ => Iff.rfl, Or.inl rfl⟩
    · refine ⟨rfl, rfl, rfl, rfl, .of_eq rfl rfl rfl (fun _ => rfl) rfl rfl rfl rfl, fun f => ?_,
        Or.inr (stackFree_perm s t)⟩
      rw [setLife_ended]
      split_ifs with hf
      · rw [hf]
        exact Iff.rfl
      · exact Iff.rfl
  obtain ⟨hthread, hfiber, hrun, hthis, hrec, hended, hfree⟩ := h₁
  have hself : (s₁.setPc (.exitEnd explicit)).switchContext t = s₁.setPc (.exitEnd explicit) := by
    refine switchContext_self ?_
    change (s₁.thread t).context = some s₁.running
    rw [hthread, hrun, hctx]
  rw [hself]
  refine ⟨hrec.trans (.setPc s₁ _), fun f => ?_, hended, hfree, hthis, hrun⟩
  rw [setPc_pc, hrun, hfiber]

end exit

namespace Turns

variable {s s' : St}

/-- After `st_thread_exit` has been entered, or gone on, the running fiber is over. -/
theorem ends (h : s.Turns) {t : ℕ} (hthis : s.this_thread = some t)
    (hctx : (s.thread t).context = some s.running) {pc : Pc} (hr : SameRecords s.Started s s')
    (hpc : ∀ f, (s'.fiber f).pc = if f = s.running then pc else (s.fiber f).pc) (hover : pc.over = true)
    (hended : ∀ f, s'.Ended f ↔ f = s.running ∨ s.Ended f)
    (hfree : (s'.free_stacks = s.free_stacks ∧ pc = .exitTerm t false) ∨
      ((s'.free_stacks = s.free_stacks ∨ s'.free_stacks.Perm (t :: s.free_stacks)) ∧
        pc = .exitEnd false))
    (hnot : t ∉ s.free_stacks) (hthis' : s'.this_thread = s.this_thread)
    (hrun : s'.running = s.running) : s'.Turns := by
  -- The only stack that may have gone to the free list is that of the running fiber.
  have hmem : ∀ u ∈ s'.free_stacks, u ∈ s.free_stacks ∨ (u = t ∧ pc = .exitEnd false) := by
    intro u hu
    rcases hfree with ⟨heq, -⟩ | ⟨heq | hperm, hlast⟩
    · exact Or.inl (heq ▸ hu)
    · exact Or.inl (heq ▸ hu)
    · rcases List.mem_cons.mp (hperm.mem_iff.mp hu) with rfl | hu
      · exact Or.inr ⟨rfl, hlast⟩
      · exact Or.inl hu
  obtain ⟨hid, -, h0, hlt, hseg⟩ := h.fiber t _ hctx
  refine h.move hr (fun u hu => h.names.this u (hthis' ▸ hu)) (fun _ => ?_)
    (fun f hf => (hended f).mpr (Or.inr hf)) ?_ (fun f hf => ?_) (fun f => ?_) ?_ (fun f u e hf => ?_)
    fun f e hf => ?_
  · exact ⟨t, hthis'.trans hthis, by rw [hrun, hctx]⟩
  · rcases hfree with ⟨heq, -⟩ | ⟨heq | hperm, -⟩
    · exact Or.inl heq
    · exact Or.inl heq
    · exact Or.inr ⟨t, hperm, hnot, hseg, (hended _).mpr (Or.inl hid)⟩
  · rcases (hended f).mp hf with rfl | hold
    · exact hlt
    · exact h.old f hold
  · -- A fiber is over exactly when its place says so.
    rw [hpc, hended]
    split_ifs with hf
    · simp [hover, hf]
    · simp [hf, h.ended f]
  · -- `main` is never the fiber that ends.
    rw [hpc, if_neg (Ne.symm h0)]
    exact h.main
  · rw [hpc] at hf
    split_ifs at hf with hrunning
    · -- The thread that waits for its join has not released its stack.
      rcases hfree with ⟨heq, hterm⟩ | ⟨-, hlast⟩
      · rw [hterm] at hf
        cases hf
        exact ⟨rfl, by rw [hctx, hrunning], heq ▸ hnot⟩
      · rw [hlast] at hf
        cases hf
    · obtain ⟨he, hu, hnotin⟩ := h.term f u e hf
      refine ⟨he, hu, fun hin => ?_⟩
      rcases hmem u hin with hold | ⟨rfl, -⟩
      · exact hnotin hold
      · rw [hctx] at hu
        exact hrunning (Option.some_inj.mp hu).symm
  · -- The other threads that are behind their exit are where they were.
    rw [hpc] at hf
    split_ifs at hf
    · rcases hfree with ⟨-, hterm⟩ | ⟨-, hlast⟩
      · rw [hterm] at hf
        cases hf
      · rw [hlast] at hf
        cases hf
        rfl
    · exact h.last f e hf

/-- `st_thread_exit`, entered by a thread, up to its first switch. -/
theorem threadExit (h : s.Turns) {t : ℕ} (hthis : s.this_thread = some t)
    (hctx : (s.thread t).context = some s.running) (hlive : ¬s.Ended s.running) {retval : ℤ}
    (hx : s.threadExit retval false = some s') :
    s'.Turns ∧ SameRecords s.Started s s' ∧ ∀ f, s'.Ended f ↔ f = s.running ∨ s.Ended f := by
  have ht : s.Started t := h.names.this t hthis
  obtain ⟨hid, -⟩ := h.fiber t _ hctx
  have hnot : t ∉ s.free_stacks := by
    intro hmem
    have hend := ht.2 hmem
    rw [hid] at hend
    exact hlive hend
  have henter : SameRecords s.Started s (s.enterExit t retval) := enterExit_sameRecords ht retval
  have hctx' : ((s.enterExit t retval).thread t).context = some s.running := by
    rw [henter.context, hctx]
  have hended : ∀ f, (s.enterExit t retval).Ended f ↔ f = s.running ∨ s.Ended f := by
    intro f
    rw [enterExit_ended, hid]
  cases threadExit_paths hx with
  | outside this _ =>
    rw [hthis] at this
    cases this
  | frees u this _ eq =>
    obtain rfl : t = u := Option.some_inj.mp (hthis.symm.trans this)
    obtain ⟨hr, hrel⟩ := exitFree_released (P := s.Started) (s := s.enterExit t retval) hctx' false
    rw [← eq] at hr hrel
    have hall : ∀ f, s'.Ended f ↔ f = s.running ∨ s.Ended f := fun f => (hrel.ended f).trans (hended f)
    exact ⟨h.ends hthis hctx (henter.trans hr) hrel.pc rfl hall (Or.inr ⟨hrel.free_stacks, rfl⟩) hnot
      hrel.this_thread hrel.running, henter.trans hr, hall⟩
  | signals u c s₁ this _ signal eq =>
    obtain rfl : t = u := Option.some_inj.mp (hthis.symm.trans this)
    have hzombie : SameRecords s.Started s
        { s.enterExit t retval with zombie_q := s.zombie_q ++ [t] } :=
      henter.trans (.of_eq rfl rfl rfl (fun _ => rfl) rfl rfl rfl rfl)
    -- The waiting thread is woken.
    have hs₁ := condSignalLoop_stays false _
      (hzombie.names h.names fun u hu => h.names.this u hu) signal
    have hr : SameRecords s.Started s s₁ := hzombie.trans hs₁.toSameRecords
    have hself : (s₁.setPc (.exitTerm t false)).switchContext t = s₁.setPc (.exitTerm t false) := by
      refine switchContext_self ?_
      change (s₁.thread t).context = some s₁.running
      rw [hr.context, hctx, hs₁.running]
      rfl
    rw [hself] at eq
    have hpcs : ∀ f, (s'.fiber f).pc = if f = s.running then .exitTerm t false else (s.fiber f).pc := by
      intro f
      have hrun : s₁.running = s.running := hs₁.running
      rw [eq, setPc_pc, hrun]
      split_ifs with hf
      · rfl
      · rcases hs₁.pc f with hsame | ⟨hrunning, -⟩
        · exact hsame
        · exact absurd hrunning hf
    have hall : ∀ f, s'.Ended f ↔ f = s.running ∨ s.Ended f := by
      intro f
      rw [← hended f, eq]
      change (s₁.life f).exits ≠ 0 ↔ _
      rw [hs₁.life]
      exact Iff.rfl
    have hr' : SameRecords s.Started s s' := by
      rw [eq]
      exact hr.trans (.setPc s₁ _)
    have hfree : s'.free_stacks = s.free_stacks := by
      rw [eq]
      exact hs₁.free_stacks
    refine ⟨h.ends hthis hctx hr' hpcs rfl hall (Or.inl ⟨hfree, rfl⟩) hnot ?_ ?_, hr', hall⟩
    · rw [eq]
      exact hs₁.this_thread
    · rw [eq]
      exact hs₁.running

/-- `st_thread_exit`, after its first switch. -/
theorem exitTermEnd (h : s.Turns) {t : ℕ} {explicit : Bool}
    (hpc : (s.fiber s.running).pc = .exitTerm t explicit) (hx : s.exitTermEnd t explicit = some s') :
    s'.Turns ∧ SameRecords s.Started s s' ∧ ∀ f, s'.Ended f ↔ s.Ended f := by
  obtain ⟨rfl, hctx, hnot⟩ := h.term _ t explicit hpc
  have hrunning : s.running ≠ 0 := (h.fiber t _ hctx).2.2.1
  have hend : s.Ended s.running := (h.ended _).mp (by rw [hpc]; rfl)
  obtain ⟨u, hthis, hu⟩ := h.turn hrunning
  -- The fiber has one record only.
  obtain rfl : u = t := (h.fiber u _ hu).2.1.symm.trans (h.fiber t _ hctx).2.1
  obtain ⟨c, s₁, -, hs₁, eq⟩ := exitTermEnd_paths hx
  have h₁ : Stays s.Started s s₁ := by
    rcases hs₁ with rfl | ⟨rfl, -⟩
    · exact .refl s₁
    · exact .note s fun _ _ h => by cases h
  have h₂ : Stays s.Started s (s₁.setThread u fun th => { th with term := none }) :=
    h₁.trans (.setThread s₁ u (fun _ => rfl) (fun _ => rfl) fun _ => Or.inl rfl)
  generalize hs₂ : (s₁.setThread u fun th => { th with term := none }) = s₂ at eq h₂
  have hctx' : (s₂.thread u).context = some s₂.running := by
    rw [h₂.context, h₂.running, hctx]
  obtain ⟨hr, hrel⟩ := exitFree_released (P := s.Started) hctx' false
  rw [← eq] at hr hrel
  have hpcs : ∀ f, (s'.fiber f).pc = if f = s.running then .exitEnd false else (s.fiber f).pc := by
    intro f
    rw [hrel.pc, h₂.running]
    split_ifs with hf
    · rfl
    · rcases h₂.pc f with hsame | ⟨hrun, -⟩
      · exact hsame
      · exact absurd hrun hf
  have hended : ∀ f, s'.Ended f ↔ s.Ended f := by
    intro f
    rw [hrel.ended]
    unfold Ended
    rw [h₂.life]
  refine ⟨h.ends hthis hu (h₂.toSameRecords.trans hr) hpcs rfl (fun f => ?_) (Or.inr ⟨?_, rfl⟩) hnot
    (hrel.this_thread.trans h₂.this_thread) (hrel.running.trans h₂.running),
    h₂.toSameRecords.trans hr, hended⟩
  · rw [hended]
    exact ⟨Or.inr, fun hor => hor.elim (fun heq => heq ▸ hend) id⟩
  · rw [← h₂.free_stacks]
    exact hrel.free_stacks

/-- `_st_thread_main` swaps out. -/
theorem exitReturn (h : s.Turns) {explicit : Bool} (hpc : (s.fiber s.running).pc = .exitEnd explicit) :
    (s.exitReturn explicit).Turns ∧ SameRecords s.Started s (s.exitReturn explicit) ∧
      ∀ f, (s.exitReturn explicit).Ended f ↔ s.Ended f := by
  obtain rfl := h.last _ _ hpc
  have heq : s.exitReturn false = { s.setPc .out with running := 0 } := rfl
  have hr : SameRecords s.Started s (s.exitReturn false) :=
    (SameRecords.setPc s .out).trans (.of_eq rfl rfl rfl (fun _ => rfl) rfl rfl rfl rfl)
  have hpcs : ∀ f, ((s.exitReturn false).fiber f).pc =
      if f = s.running then .out else (s.fiber f).pc := s.setPc_pc .out
  refine ⟨h.move hr (fun t ht => h.names.this t ht) (fun hne => absurd rfl hne) (fun _ => id) (Or.inl rfl)
    h.old (fun f => ?_) ?_ (fun f t e hf => ?_) fun f e hf => ?_, hr, fun _ => Iff.rfl⟩
  · rw [hpcs]
    split_ifs with hf
    · have hover := h.ended s.running
      rw [hpc] at hover
      rw [hf]
      exact hover
    · exact h.ended f
  · rw [hpcs]
    split_ifs
    · rfl
    · exact h.main
  · rw [hpcs] at hf
    split_ifs at hf
    exact h.term f t e hf
  · rw [hpcs] at hf
    split_ifs at hf
    exact h.last f e hf

end Turns

/-! ## Creation -/

/-- The library has no pointer to the record. -/
structure Unused (s : St) (t : ℕ) : Prop where
  this : s.this_thread ≠ some t
  idle : s.idle_thread ≠ t
  pollq : ∀ q ∈ s.ev.io_q, (s.ev.pollq q).thread ≠ t
  heap : s.heap.PointsTo (· ≠ t)

/-- A thread that `st_thread_create` returns has got its fiber, and when the stack goes back for want of the
condition variable, nothing points to its record. -/
def Acquired (s : St) : Label → Prop
  | .call (.create joinable stk_size ok) =>
    ∀ t s₁, s.stackNew (s.stackSize stk_size) ok.stack = some (t, s₁) →
      if joinable ∧ ok.cond = false then s.Unused t else ok.fiber = true
  | _ => True

/-- From `s` to `s'` the record `th` was written to the stack `t`. The thread was started, or the stack was
given back. -/
structure Creates (s s' : St) (t : ℕ) (th : Thread) : Prop where
  id : th.id = s.created
  context : ∀ f, th.context = some f → f = s.created
  thread : s'.thread = Function.update s.thread t th
  fiber : ∃ start : Pc, start.over = false ∧
    s'.fiber = Function.update s.fiber s.created ⟨start, t⟩
  life : s'.life = Function.update s.life s.created ⟨0, 0, false⟩
  heap : s'.heap = s.heap.setNode t fun _ => HeapNode.zero
  ev : s'.ev = s.ev
  created : s'.created = s.created + 1
  this_thread : s'.this_thread = s.this_thread
  running : s'.running = s.running
  idle_thread : s'.idle_thread = s.idle_thread
  log : s'.log = s.log
  free_nodup : s'.free_stacks.Nodup
  free : ∀ u, u ≠ t → (u ∈ s'.free_stacks ↔ u ∈ s.free_stacks)
  segments : s.segments ≤ s'.segments ∧ t < s'.segments
  segment : ∀ u < s'.segments, u < s.segments ∨ u = t
  /-- The stack is one of the free list or a new one. -/
  stack : t ∈ s.free_stacks ∨ s.segments ≤ t
  outcome : (th.context ≠ none ∧ t ∉ s'.free_stacks) ∨
    (th.state = .RUNNING ∧ t ∈ s'.free_stacks ∧ s.Unused t)

namespace Creates

variable {s s' : St} {t : ℕ} {th : Thread}

/-- The record that was written. -/
theorem self (hc : Creates s s' t th) : s'.thread t = th := by rw [hc.thread, Function.update_self]

/-- The other records are as they were. -/
theorem other (hc : Creates s s' t th) {u : ℕ} (hu : u ≠ t) : s'.thread u = s.thread u := by
  rw [hc.thread, Function.update_of_ne hu]

/-- The other fibers are as they were. -/
theorem fiber_of_ne (hc : Creates s s' t th) {f : ℕ} (hf : f ≠ s.created) : s'.fiber f = s.fiber f := by
  obtain ⟨start, -, hfiber⟩ := hc.fiber
  rw [hfiber, Function.update_of_ne hf]

/-- The new fiber has not run. -/
theorem fiber_self (hc : Creates s s' t th) :
    (s'.fiber s.created).thd = t ∧ (s'.fiber s.created).pc.over = false := by
  obtain ⟨start, hover, hfiber⟩ := hc.fiber
  rw [hfiber, Function.update_self]
  exact ⟨rfl, hover⟩

/-- The same threads have ended. -/
theorem ended (hc : Creates s s' t th) {f : ℕ} (hf : f ≠ s.created) : s'.Ended f ↔ s.Ended f := by
  unfold Ended
  rw [hc.life, Function.update_of_ne hf]

/-- The new thread has not ended. -/
theorem not_ended (hc : Creates s s' t th) : ¬s'.Ended s.created := by
  unfold Ended
  rw [hc.life, Function.update_self]
  simp

end Creates

/-- `_st_stack_new` takes the stack off the free list, or makes it. -/
theorem stackNew_lists {s s₁ : St} {size : ℤ} {ok : Bool} {t : ℕ} (hnodup : s.free_stacks.Nodup)
    (hseg : ∀ u ∈ s.free_stacks, u < s.segments) (hnew : s.stackNew size ok = some (t, s₁)) :
    (t :: s₁.free_stacks).Nodup ∧ (∀ u, u ≠ t → (u ∈ s₁.free_stacks ↔ u ∈ s.free_stacks)) ∧
      (s.segments ≤ s₁.segments ∧ t < s₁.segments) ∧ (∀ u < s₁.segments, u < s.segments ∨ u = t) ∧
      (t ∈ s.free_stacks ∨ s.segments ≤ t) := by
  unfold stackNew at hnew
  split at hnew
  · next t' hfind =>
    have hmem : t' ∈ s.free_stacks := List.mem_of_find?_eq_some hfind
    cases hnew
    exact ⟨List.nodup_cons.mpr ⟨hnodup.not_mem_erase, hnodup.erase t⟩,
      fun u hu => List.mem_erase_of_ne hu, ⟨le_rfl, hseg t hmem⟩, fun u hu => Or.inl hu, Or.inl hmem⟩
  · split_ifs at hnew
    cases hnew
    refine ⟨List.nodup_cons.mpr ⟨fun hin => lt_irrefl _ (hseg _ hin), hnodup⟩, fun _ _ => Iff.rfl,
      ⟨Nat.le_succ _, Nat.lt_succ_self _⟩, fun u hu => ?_, Or.inr le_rfl⟩
    dsimp only at hu
    omega

/-- `st_thread_create` with a stack and a fiber. -/
theorem threadCreate_creates {s s₁ : St} {t : ℕ} (hnodup : s.free_stacks.Nodup)
    (hseg : ∀ u ∈ s.free_stacks, u < s.segments) {joinable : Bool} {stk_size : ℤ} {ok : Acquire}
    (hok : s.Acquired (.call (.create joinable stk_size ok)))
    (hnew : s.stackNew (s.stackSize stk_size) ok.stack = some (t, s₁)) :
    ∃ th, Creates s (s.threadCreate (.user (.ok 0)) joinable stk_size ok).1 t th := by
  have hok := hok t s₁ hnew
  obtain ⟨hlist, hfree, hsegs, hsegment, hor⟩ := stackNew_lists hnodup hseg hnew
  obtain ⟨hnot, hnodup'⟩ := List.nodup_cons.mp hlist
  obtain ⟨free, sizes, seg, rfl⟩ := stackNew_eq hnew
  dsimp only at hnot hnodup' hfree hsegs hsegment
  unfold threadCreate
  rw [hnew]
  dsimp only
  split_ifs with hj hc
  · -- A joinable thread.
    rw [if_neg (by simp [hc])] at hok
    rw [hok]
    refine ⟨⟨.RUNNABLE, Flags.zero, 0, some (.term s.terms), some s.created, s.created⟩, rfl,
      fun f hf => (Option.some_inj.mp hf).symm, ?_, ⟨.user (.ok 0), rfl, rfl⟩, rfl, rfl, rfl, rfl, rfl, rfl,
      rfl, rfl, hnodup', hfree, hsegs, hsegment, hor, Or.inl ⟨Option.some_ne_none _, hnot⟩⟩
    simp [startThread, addRunq, setState, setThread, initThread, Thread.zero]
  · -- The stack goes back.
    rw [if_pos ⟨hj, by simpa using hc⟩] at hok
    have hperm := stackFree_perm
      (initThread { s with free_stacks := free, stk_size := sizes, segments := seg } t (.user (.ok 0)) ok.fiber) t
    refine ⟨_, rfl, fun f hf => ?_, rfl, ⟨.user (.ok 0), rfl, rfl⟩, rfl, rfl, rfl, rfl, rfl, rfl, rfl, rfl,
      hperm.nodup_iff.mpr hlist, fun u hu => ?_, hsegs, hsegment, hor,
      Or.inr ⟨rfl, hperm.mem_iff.mpr (List.mem_cons_self ..), hok⟩⟩
    · dsimp only at hf
      split_ifs at hf
      exact (Option.some_inj.mp hf).symm
    · rw [hperm.mem_iff, List.mem_cons, ← hfree u hu]
      exact or_iff_right hu
  · -- A thread that is not joinable.
    rw [if_neg (by simp [hj])] at hok
    rw [hok]
    refine ⟨⟨.RUNNABLE, Flags.zero, 0, none, some s.created, s.created⟩, rfl,
      fun f hf => (Option.some_inj.mp hf).symm, ?_, ⟨.user (.ok 0), rfl, rfl⟩, rfl, rfl, rfl, rfl, rfl, rfl,
      rfl, rfl, hnodup', hfree, hsegs, hsegment, hor, Or.inl ⟨Option.some_ne_none _, hnot⟩⟩
    simp [startThread, addRunq, setState, setThread, initThread, Thread.zero]

namespace Turns

variable {s s' : St}

/-- The running thread is not on a stack that is handed out. -/
theorem running_lt (h : s.Turns) : s.running < s.created := by
  by_cases h0 : s.running = 0
  · rw [h0]
    exact h.created
  · obtain ⟨t, -, hctx⟩ := h.turn h0
    exact (h.fiber t _ hctx).2.2.2.1

/-- The library may have pointers to the record that is written only if its thread is started. -/
theorem creates_names (h : s.Turns) {t : ℕ} {th : Thread} (hc : Creates s s' t th)
    (hold : ∀ u, u ≠ t → s.Started u → s'.Started u)
    (hnew : th.context ≠ none ∧ t ∉ s'.free_stacks → s'.Started t) : s'.Names s'.Started := by
  rcases hc.outcome with hstarts | ⟨hstate, -, hunused⟩
  · -- The thread is started, so old pointers to its record do no harm.
    have hall : ∀ u, s.Started u → s'.Started u := fun u hu => by
      by_cases hut : u = t
      · exact hut ▸ hnew hstarts
      · exact hold u hut hu
    refine ⟨fun u hu => hall u (h.names.this u (hc.this_thread ▸ hu)), ?_, fun u hu => ?_,
      fun q hq => ?_, ?_⟩
    · -- The idle thread was started before.
      rw [hc.idle_thread]
      exact hall _ h.names.idle
    · by_cases hut : u = t
      · exact hut ▸ hnew hstarts
      · rw [hc.other hut] at hu
        exact hall u (h.names.state u hu)
    · rw [hc.ev] at hq ⊢
      exact hall _ (h.names.pollq q hq)
    · -- The heap links are zeroed with the record.
      rw [hc.heap]
      exact (h.names.heap.mono hall).setNode ⟨.none, .none⟩
  · -- The stack was given back, and nothing points to the record.
    refine ⟨fun u hu => ?_, ?_, fun u hu => ?_, fun q hq => ?_, ?_⟩
    · rw [hc.this_thread] at hu
      exact hold u (fun heq => hunused.this (heq ▸ hu)) (h.names.this u hu)
    · rw [hc.idle_thread]
      exact hold _ hunused.idle h.names.idle
    · have hut : u ≠ t := by
        rintro rfl
        rw [hc.self] at hu
        exact hu hstate
      rw [hc.other hut] at hu
      exact hold u hut (h.names.state u hu)
    · rw [hc.ev] at hq ⊢
      exact hold _ (hunused.pollq q hq) (h.names.pollq q hq)
    · rw [hc.heap]
      exact ((h.names.heap.and hunused.heap).mono fun u hu => hold u hu.2 hu.1).setNode ⟨.none, .none⟩

/-- A record that is started, and not written, is still started. -/
theorem creates_started (h : s.Turns) {t u : ℕ} {th : Thread} (hc : Creates s s' t th) (hu : u ≠ t)
    (hs : s.Started u) : s'.Started u := by
  -- The number of the new thread has not been used.
  have hlt : (s.thread u).id < s.created := (h.fiber u _ (h.context_eq hs.1)).2.2.2.1
  unfold Started Manned
  rw [hc.other hu]
  refine ⟨hs.1, fun hin => ?_⟩
  rw [hc.ended hlt.ne]
  exact hs.2 ((hc.free u hu).mp hin)

/-- The record of a thread that goes on is not the one that is written. -/
theorem creates_ne (h : s.Turns) {t u : ℕ} {th : Thread} (hc : Creates s s' t th) (hu : s.Manned u)
    (hnot : u ∉ s.free_stacks) : u ≠ t := by
  rintro rfl
  have hseg := (h.fiber u _ (h.context_eq hu)).2.2.2.2
  exact hc.stack.elim hnot (by omega)

/-- Threads, records and fibers still belong together when a thread was created. -/
theorem creates (h : s.Turns) {t : ℕ} {th : Thread} (hpc : (s.fiber s.running).pc.over = false)
    (hc : Creates s s' t th) : s'.Turns := by
  obtain ⟨hthd, hover⟩ := hc.fiber_self
  have hnew : th.context ≠ none ∧ t ∉ s'.free_stacks → s'.Started t := fun hstarts =>
    ⟨by unfold Manned; rw [hc.self]; exact hstarts.1, fun hin => absurd hin hstarts.2⟩
  refine ⟨h.creates_names hc (fun u hu => h.creates_started hc hu) hnew, ?_, fun u hu => ?_, fun u f hu => ?_,
    fun hrun => ?_, hc.free_nodup, fun u hu => ?_, fun f hf => ?_, fun f => ?_, ?_, fun f u e hf => ?_,
    fun f e hf => ?_⟩
  · rw [hc.created]
    exact Nat.succ_pos _
  · rw [hc.created]
    by_cases hut : u = t
    · rw [hut, hc.self, hc.id]
      exact ⟨hthd, h.created.ne', Nat.lt_succ_self _⟩
    · obtain ⟨hthd', h0, hlt⟩ := h.record u ((hc.segment u hu).resolve_right hut)
      rw [hc.other hut, hc.fiber_of_ne hlt.ne]
      exact ⟨hthd', h0, hlt.trans (Nat.lt_succ_self _)⟩
  · by_cases hut : u = t
    · rw [hut, hc.self] at hu ⊢
      exact ⟨hc.id.trans (hc.context f hu).symm, hc.segments.2⟩
    · rw [hc.other hut] at hu ⊢
      exact ⟨(h.own u f hu).1, (h.own u f hu).2.trans_le hc.segments.1⟩
  · rw [hc.running] at hrun ⊢
    obtain ⟨u, hthis, hu⟩ := h.turn hrun
    have hlive : ¬s.Ended s.running := by
      rw [← h.ended, hpc]
      simp
    refine ⟨u, hc.this_thread.trans hthis, ?_⟩
    -- The running thread has not ended, so its stack is not free.
    have hs := h.names.this u hthis
    have hnot : u ∉ s.free_stacks := fun hin => hlive ((h.fiber u _ hu).1 ▸ hs.2 hin)
    rw [hc.other (h.creates_ne hc hs.1 hnot), hu]
  · by_cases hut : u = t
    · exact hut ▸ hc.segments.2
    · exact (h.free u ((hc.free u hut).mp hu)).trans_le hc.segments.1
  · rw [hc.created]
    by_cases hfc : f = s.created
    · rw [hfc]
      exact Nat.lt_succ_self _
    · exact (h.old f ((hc.ended hfc).mp hf)).trans (Nat.lt_succ_self _)
  · by_cases hfc : f = s.created
    · rw [hfc, hover]
      simp [hc.not_ended]
    · rw [hc.fiber_of_ne hfc, hc.ended hfc]
      exact h.ended f
  · rw [hc.fiber_of_ne h.created.ne]
    exact h.main
  · by_cases hfc : f = s.created
    · rw [← hfc, hf] at hover
      cases hover
    · rw [hc.fiber_of_ne hfc] at hf
      obtain ⟨he, hu, hnot⟩ := h.term f u e hf
      have hut : u ≠ t := h.creates_ne hc (by simp [Manned, hu]) hnot
      refine ⟨he, ?_, fun hin => hnot ((hc.free u hut).mp hin)⟩
      rw [hc.other hut, hu]
  · by_cases hfc : f = s.created
    · rw [← hfc, hf] at hover
      cases hover
    · rw [hc.fiber_of_ne hfc] at hf
      exact h.last f e hf

end Turns

/-! ## Steps -/

/-- What a step does to the threads. -/
inductive Deals (s : St) (l : Label) (s' : St) : Prop where
  | same (enters : ¬s.Enters l)
      (makes : ∀ joinable stk_size ok, l = .call (.create joinable stk_size ok) →
        s.stackNew (s.stackSize stk_size) ok.stack = none)
      (records : SameRecords s.Started s s') (ended : ∀ f, s'.Ended f ↔ s.Ended f)
  | creates (joinable : Bool) (stk_size : ℤ) (ok : Acquire) (t : ℕ) (th : Thread) (s₁ s₂ : St) (r : Res)
      (label : l = .call (.create joinable stk_size ok))
      (new : s.stackNew (s.stackSize stk_size) ok.stack = some (t, s₁)) (creates : Creates s s₂ t th)
      (eq : s' = s₂.ret r)
  | ends (t : ℕ) (s₀ : St) (enters : s.Enters l) (this : s.this_thread = some t)
      (context : (s.thread t).context = some s.running) (live : ¬s.Ended s.running)
      (note : s₀ = s ∨ ∃ v, s₀ = s.note (.returned s.running v))
      (records : SameRecords s.Started s₀ s') (ended : ∀ f, s'.Ended f ↔ f = s.running ∨ s.Ended f)

namespace Turns

variable {s s' : St}

/-- A call of `st_thread_create`. -/
theorem createCall (h : s.Turns) {l : Label} {joinable : Bool} {stk_size : ℤ} {ok : Acquire} (hok : s.Acquired l)
    (hl : l = .call (.create joinable stk_size ok)) (hover : (s.fiber s.running).pc.over = false)
    (hcall : s.call (.create joinable stk_size ok) = some s') : s'.Turns ∧ Deals s l s' := by
  subst hl
  cases hnew : s.stackNew (s.stackSize stk_size) ok.stack with
  | none =>
    -- Without a stack nothing has happened.
    have hnull : s.ret (.ok 0) = s' := by
      have hmade : s.threadCreate (.user (.ok 0)) joinable stk_size ok = (s, none) := by
        unfold threadCreate
        rw [hnew]
      simp only [call, hmade] at hcall
      exact Option.some_inj.mp hcall
    have hs : Stays s.Started s s' := hnull ▸ .ret s _
    refine ⟨h.stays hover hs, .same id (fun _ _ _ hl => ?_) hs.toSameRecords fun f => ?_⟩
    · cases hl
      exact hnew
    · unfold Ended
      rw [hs.life]
  | some new =>
    obtain ⟨t, s₁⟩ := new
    obtain ⟨th, hc⟩ := threadCreate_creates h.free_nodup h.free hok hnew
    -- What is returned does not matter here.
    obtain ⟨r, heq⟩ : ∃ r, s' = (s.threadCreate (.user (.ok 0)) joinable stk_size ok).1.ret r := by
      simp only [call] at hcall
      generalize s.threadCreate (.user (.ok 0)) joinable stk_size ok = made at hcall
      obtain ⟨s₂, thread⟩ := made
      cases thread with
      | none => exact ⟨_, (Option.some_inj.mp hcall).symm⟩
      | some u => exact ⟨_, (Option.some_inj.mp hcall).symm⟩
    refine ⟨?_, .creates joinable stk_size ok t th s₁ _ r rfl hnew hc heq⟩
    rw [heq]
    refine (h.creates hover hc).stays ?_ (.ret _ _)
    rw [hc.running, hc.fiber_of_ne h.running_lt.ne]
    exact hover

/-- `st_thread_exit` is entered, perhaps by a start function that returns. -/
theorem entersExit (h : s.Turns) {s₀ s₁ : St} {l : Label} {retval : ℤ} (henters : s.Enters l)
    (hover : (s.fiber s.running).pc.over = false)
    (hfiber : s.running ≠ 0 ∨ (s.fiber s.running).pc.idles = true)
    (hnote : s₀ = s ∨ ∃ v, s₀ = s.note (.returned s.running v)) (hs : Stays s.Started s₀ s₁)
    (hx : s₁.threadExit retval false = some s') : s'.Turns ∧ Deals s l s' := by
  -- `main` neither returns from a start function nor runs the idle loop.
  have hrunning : s.running ≠ 0 := by
    intro h0
    refine hfiber.elim (fun hne => hne h0) fun hidles => ?_
    rw [h0, h.main] at hidles
    cases hidles
  obtain ⟨t, hthis, hctx⟩ := h.turn hrunning
  have hlive : ¬s.Ended s.running := by
    rw [← h.ended, hover]
    simp
  -- The note of the return is all that `s₀` has in addition.
  obtain ⟨h₀, hthread, hfiber₀, hlife, hthis₀, hrun, hstarted⟩ : s₀.Turns ∧ s₀.thread = s.thread ∧
      s₀.fiber = s.fiber ∧ s₀.life = s.life ∧ s₀.this_thread = s.this_thread ∧
        s₀.running = s.running ∧ s₀.Started = s.Started := by
    rcases hnote with rfl | ⟨v, rfl⟩
    · exact ⟨h, rfl, rfl, rfl, rfl, rfl, rfl⟩
    · exact ⟨h.note _, rfl, rfl, rfl, rfl, rfl, rfl⟩
  have hended : ∀ f, s₁.Ended f ↔ s.Ended f := fun f => by
    unfold Ended
    rw [hs.life, hlife]
  have hs₁ : Stays s₀.Started s₀ s₁ := hstarted ▸ hs
  obtain ⟨hturns, hr, hended'⟩ := (h₀.stays (by rw [hfiber₀, hrun, hover]) hs₁).threadExit
    (hs.this_thread.trans (hthis₀.trans hthis)) (by rw [hs.context, hs.running, hthread, hrun, hctx])
    (by rw [hs.running, hrun, hended]; exact hlive) hx
  rw [hs₁.started, hstarted] at hr
  refine ⟨hturns, .ends t s₀ henters hthis hctx hlive hnote (hs.toSameRecords.trans hr) fun f => ?_⟩
  rw [hended', hs.running, hrun, hended]

end Turns

/-- One step keeps the invariant. -/
theorem step_deals {s s' : St} {l : Label} (h : s.Turns) (hok : s.Acquired l)
    (hexit : ∀ retval, l ≠ .call (.exit retval)) (hstep : s.step l = some s') :
    s'.Turns ∧ Deals s l s' := by
  -- A thread that goes on in `st_thread_exit`.
  have hgoes : l = .resume → (∀ stage, (s.fiber s.running).pc ≠ .idle stage) →
      SameRecords s.Started s s' → (∀ f, s'.Ended f ↔ s.Ended f) → Deals s l s' := by
    rintro rfl hne hr hended
    exact .same (fun henters => henters.1.elim (hne _) (hne _)) (fun _ _ _ hl => by cases hl) hr hended
  cases step_kinds h.names hexit hstep with
  | passes pc enters makes hp =>
    obtain ⟨hturns, hr, hended⟩ := h.passes pc hp
    exact ⟨hturns, .same enters (fun _ _ _ hl => absurd hl (makes _ _ _)) hr hended⟩
  | creates joinable stk_size ok r label pc hcall =>
    exact h.createCall hok label (by rw [pc]; rfl) hcall
  | exits s₀ s₁ retval enters pc fiber note hs hx => exact h.entersExit enters pc fiber note hs hx
  | exitTerm t explicit label pc hx =>
    obtain ⟨hturns, hr, hended⟩ := h.exitTermEnd pc hx
    exact ⟨hturns, hgoes label (by rw [pc]; exact fun _ h => by cases h) hr hended⟩
  | exitEnd explicit label pc eq =>
    obtain ⟨hturns, hr, hended⟩ := h.exitReturn pc
    rw [← eq] at hturns hr hended
    exact ⟨hturns, hgoes label (by rw [pc]; exact fun _ h => by cases h) hr hended⟩

/-- Threads, records and fibers belong together at the start. -/
theorem init_turns (pagesize : ℤ) (last_clock : ℕ) : (init pagesize last_clock).Turns := by
  have hthread := init_thread pagesize last_clock
  have hfiber := init_fiber pagesize last_clock
  have hzero : (init pagesize last_clock).thread 0 = idleRecord := by rw [hthread, Function.update_self]
  have hother : ∀ t, t ≠ 0 → (init pagesize last_clock).thread t = Thread.zero := fun t ht => by
    rw [hthread, Function.update_of_ne ht]
  have hmanned : (init pagesize last_clock).Manned 0 := by
    rw [Manned, hzero]
    simp [idleRecord]
  have hstarted : (init pagesize last_clock).Started 0 := ⟨hmanned, fun hin => by cases hin⟩
  have hended : ∀ f, ¬(init pagesize last_clock).Ended f := by
    intro f
    have hlife : (init pagesize last_clock).life =
        Function.update (fun _ => ⟨0, 0, false⟩) 1 ⟨0, 0, false⟩ := rfl
    rw [Ended, hlife, Function.update_apply]
    split_ifs <;> simp
  -- `main` is in its own code, and the idle thread in its loop.
  have hpc : ∀ f, ((init pagesize last_clock).fiber f).pc =
      if f = 1 then .idle .dispatch else .user (.ok 0) := by
    intro f
    rw [hfiber, Function.update_apply]
    split_ifs <;> rfl
  refine ⟨⟨fun t ht => (by cases ht), hstarted, fun t ht => ?_, fun _ hq => (by cases hq), ?_⟩,
    Nat.succ_pos _, fun t ht => ?_, fun t f hf => ?_, fun hne => absurd rfl hne, List.nodup_nil,
    fun t ht => (by cases ht), fun f hf => absurd hf (hended f), fun f => ?_, ?_, fun f t e hf => ?_,
    fun f e hf => ?_⟩
  · by_cases h0 : t = 0
    · exact h0 ▸ hstarted
    · rw [hother t h0] at ht
      exact absurd rfl ht
  · have hheap : (init pagesize last_clock).heap =
        Heap.setNode ⟨fun _ => HeapNode.zero, none, 0⟩ 0 fun _ => HeapNode.zero := rfl
    rw [hheap]
    exact Heap.PointsTo.setNode ⟨.none, fun _ => ⟨.none, .none⟩⟩ ⟨.none, .none⟩
  · have hlt : t < 1 := ht
    obtain rfl : t = 0 := by omega
    have hid : ((init pagesize last_clock).thread 0).id = 1 := by
      rw [hzero]
      rfl
    rw [hid, hfiber, Function.update_self]
    exact ⟨rfl, one_ne_zero, Nat.lt_succ_self _⟩
  · by_cases h0 : t = 0
    · subst h0
      rw [hzero] at hf ⊢
      exact ⟨Option.some_inj.mp hf, Nat.succ_pos _⟩
    · rw [hother t h0] at hf
      cases hf
  · rw [hpc]
    refine iff_of_false ?_ (hended f)
    split_ifs <;> simp [Pc.over]
  · rw [hpc]
    rfl
  · rw [hpc] at hf
    split_ifs at hf
  · rw [hpc] at hf
    split_ifs at hf

end StWin.St
