import StWin.Sched.CondVar
import StWin.Sched.Objects

/-!
# No object is used after it was destroyed

A thread that was signalled, or that has got a mutex, is still on the wait queue of the object until its
fiber runs and unlinks it. So `st_cond_destroy` and `st_mutex_destroy`, which look at the wait queue, refuse
as long as somebody has yet to return from a wait, and a thread that returns from one finds the object.

`Uses` is what the program owes: it passes only pointers to objects that it made and has not destroyed, and
its steps are `Clean`. `Kept` is the invariant: nobody waits on what does not exist, and it has no owner. A
step keeps it, since it changes only the object that it names (`cond_q_nil`, `mutex_unused`). Each access
of a step is to a list of what exists (`accesses_on`), so the accesses that are valid on all lists are valid
on the lists of what exists (`Edits.within`), and `run_objects` follows with the refinement of the library.
-/

namespace StWin

open Clist

namespace St

variable {s s' s'' : St}

/-! ## When a termination condition variable is destroyed -/

/-- No termination condition variable is destroyed from `s` to `s'`. -/
def SameFrees (s s' : St) : Prop := ∀ c, .condFree c ∈ s'.log ↔ .condFree c ∈ s.log

/-- One after the other. -/
theorem SameFrees.trans (h : SameFrees s s') (h' : SameFrees s' s'') : SameFrees s s'' :=
  fun c => (h' c).trans (h c)

/-- Nothing is recorded. -/
theorem SameFrees.of_log (h : s'.log = s.log) : SameFrees s s' := fun c => by rw [h]

/-- What is plain destroys no condition variable. -/
theorem Plain.sameFrees (h : Plain s s') : SameFrees s s' := h.linkFrame.condFree

/-- A wait on a condition variable destroys none. -/
theorem condBlock_sameFrees {me timeout : ℕ} {c : Cond} {pc : Pc}
    (h : s.condBlock me c timeout pc = some s') : SameFrees s s' := by
  obtain ⟨s₁, rfl, ⟨-, hs₁⟩ | ⟨-, rfl⟩⟩ := condBlock_paths h
  · have hlink : SameFrees s (s.linkCond me c) := .of_log rfl
    refine (hlink.trans (addSleepQ_plain hs₁).sameFrees).trans ?_
    exact SameFrees.trans (.of_log rfl) (vpSchedule_plain _).sameFrees
  · exact SameFrees.trans (.of_log rfl) (vpSchedule_plain _).sameFrees

/-- The loop of `st_thread_join` destroys no condition variable. -/
theorem joinLoop_sameFrees {c : Cond} {t : ℕ} (h : s.joinLoop c t = some s') : SameFrees s s' := by
  cases joinLoop_paths h with
  | joined _ eq =>
    subst eq
    intro c'
    simp [ret, setPc, note, addRunq, setState, setThread]
  | interrupted me _ eq => exact eq ▸ (s.eintr_plain me).sameFrees
  | waits me _ blocks => exact condBlock_sameFrees blocks

/-- The return from `st_thread_exit` records nothing. -/
theorem exitReturn_log (s : St) (explicit : Bool) : (s.exitReturn explicit).log = s.log := by
  unfold exitReturn
  split_ifs <;> rfl

/-- A switch of fibers records nothing. -/
theorem switchContext_log (s : St) (t : ℕ) : (s.switchContext t).log = s.log := by
  unfold switchContext
  split <;> rfl

/-- The end of `st_thread_exit` records nothing. -/
theorem exitFree_log (s : St) (t : ℕ) (explicit : Bool) : (s.exitFree t explicit).log = s.log := by
  unfold exitFree
  dsimp only
  rw [switchContext_log]
  split_ifs <;> rfl

/-- Only the end of `st_thread_exit` destroys one. -/
theorem step_sameFrees {l : Label} (hwait : ∀ me n, (s.fiber s.running).pc ≠ .condWait me (.term n))
    (hpc : ∀ t e, (s.fiber s.running).pc ≠ .exitTerm t e) (h : s.step l = some s') :
    SameFrees s s' := by
  cases step_cases hwait h with
  | plain hp _ => exact hp.sameFrees
  | create joinable stk_size ok r r' _ eq =>
    subst eq
    refine SameFrees.trans ?_ (ret_plain _ r').sameFrees
    rcases s.threadCreate_attaches joinable stk_size ok with heq | ⟨t, th, hattach⟩
    · exact .of_log (congrArg St.log heq)
    · exact .of_log hattach.log
  | join t r _ hjoin =>
    rcases threadJoin_paths hjoin with ⟨r', rfl⟩ | ⟨c, -, -, hloop⟩
    · exact (s.ret_plain r').sameFrees
    · exact joinLoop_sameFrees hloop
  | joinEnd me c t _ hjoin =>
    have hun : SameFrees s (s.condUnblock me c).1 := .of_log rfl
    rcases joinEnd_paths hjoin with ⟨e, rfl⟩ | hloop
    · exact hun.trans (ret_plain _ _).sameFrees
    · exact hun.trans (joinLoop_sameFrees hloop)
  | exit s₀ retval explicit _ _ plain _ _ hexit =>
    refine plain.sameFrees.trans ?_
    cases threadExit_paths hexit with
    | outside _ eq => exact .of_log (eq ▸ exitReturn_log s₀ explicit)
    | frees t _ _ eq => exact .of_log (eq ▸ exitFree_log _ t explicit)
    | signals t c s₁ _ _ signal eq =>
      have henter : SameFrees s₀ { s₀.enterExit t retval with zombie_q := s₀.zombie_q ++ [t] } :=
        .of_log rfl
      refine (henter.trans (condSignalLoop_plain _ _ signal).sameFrees).trans (.of_log ?_)
      rw [eq, switchContext_log]
      rfl
  | exitTerm t explicit hpc' _ => exact absurd hpc' (hpc t explicit)
  | exitEnd explicit _ eq => exact .of_log (eq ▸ exitReturn_log s explicit)

/-! ## A call that returns at once -/

/-- The running fiber is in code of the program. -/
theorem inProgram_pc (h : s.inProgram = true) : ∃ r, (s.fiber s.running).pc = .user r := by
  unfold inProgram at h
  split at h
  · next r hr => exact ⟨r, hr⟩
  · cases h

/-- A call that only returns keeps the invariant. -/
theorem Buried.ret (h : s.Buried) (hprog : s.inProgram = true) (r : Res) :
    (s.ret r).Buried ∧ Fine s (s.ret r) := by
  obtain ⟨r', hpc⟩ := inProgram_pc hprog
  have hplain := s.ret_plain r
  have hfine : Fine s (s.ret r) := by
    rcases h.inv.good.caller hpc with hmain | ⟨t, hruns⟩
    · exact (main_ret h.inv.good hmain r).1
    · exact (ret_does h.inv.good hruns (hruns.pc_eq.symm.trans hpc) r).1
  have hzombie : s.NoZombie := h.inv.zombie.none fun t e he => by
    rw [hpc] at he
    cases he
  refine ⟨⟨⟨hfine.good, h.inv.linked.of_frame hplain.linkFrame, (hzombie.plain hplain).runs,
    h.inv.tally.steady hplain.steady⟩, h.nodup, fun t ht => ?_⟩, hfine⟩
  rw [hfine.lives.live]
  exact h.zombie t ht

/-- Who is in the middle of `st_thread_exit`. -/
theorem Good.exitTerm (hg : s.Good) {t : ℕ} {e : Bool} (hpc : (s.fiber s.running).pc = .exitTerm t e) :
    e = false ∧ s.Leaving t := by
  rcases hg.turn with hmain | ⟨hidle, -⟩ | ⟨u, hl, hrun, -, -⟩ | ⟨u, -, -, hend, -, -⟩ | ⟨u, hleave, -⟩
  · rw [hmain] at hpc
    rcases hg.own.main_pc with ⟨r, hr⟩ | ⟨stage, hr⟩ <;>
      · rw [hr] at hpc
        cases hpc
  · obtain ⟨stage, hr⟩ := hg.own.idle_pc
    rw [hidle, hr] at hpc
    cases hpc
  · have hfits := (hg.core.recs u).pc hl
    unfold pcOf at hfits
    rw [← hrun, hpc] at hfits
    exact hfits.elim
  · rw [hend] at hpc
    cases hpc
  · have hpcu := hleave.pc
    rw [hpc] at hpcu
    cases hpcu
    exact ⟨rfl, hleave⟩

/-! ## What a step does to the objects that it does not name -/

/-- The object of the program that a call names. -/
def Label.object : Label → Option QHead
  | .call (.condTimedwait n _) => some (.cond (.user n))
  | .call (.condSignal n) => some (.cond (.user n))
  | .call (.condBroadcast n) => some (.cond (.user n))
  | .call (.mutexLock m) => some (.mutex m)
  | .call (.mutexTrylock m) => some (.mutex m)
  | .call (.mutexUnlock m) => some (.mutex m)
  | _ => none

/-- A condition variable on which nobody waits stays so, unless the step is a wait on it. -/
theorem Inv.cond_q_nil (h : s.Inv) {l : Label} (hok : s.Ok l) (hstep : s.step l = some s') {n : ℕ}
    (hobj : l.object ≠ some (.cond (.user n))) (hq : s.cond_q (.user n) = []) :
    s'.cond_q (.user n) = [] := by
  cases step_condMove h hok hstep with
  | begins n' me timeout _ _ label begins =>
    have hne : n ≠ n' := by
      rintro rfl
      exact hobj (label ▸ rfl)
    rw [begins.cond_q, Function.update_of_ne (by simpa using hne)]
    exact hq
  | ends n' me _ _ _ eq =>
    have hcq : s'.cond_q = Function.update s.cond_q (.user n') ((s.cond_q (.user n')).erase me) := by
      rw [eq]
      rfl
    by_cases hn : n = n'
    · subst hn
      rw [hcq, Function.update_self, hq]
      rfl
    · rw [hcq, Function.update_of_ne (by simpa using hn)]
      exact hq
  | calm calm _ _ => exact (calm.cond_q n).trans hq
  | clock _ _ _ cond_q => exact (congrFun cond_q _).trans hq

/-- A mutex that nobody uses stays so, unless the step names it. -/
theorem Inv.mutex_unused (h : s.Inv) {l : Label} (hok : s.Ok l) (hstep : s.step l = some s') {m : ℕ}
    (hobj : l.object ≠ some (.mutex m)) (hm : s.mutex m = ⟨none, []⟩) : s'.mutex m = ⟨none, []⟩ := by
  rw [← hm]
  have hother : ∀ {m' : ℕ} {mx : Mutex}, m ≠ m' → s'.mutex = Function.update s.mutex m' mx →
      s'.mutex m = s.mutex m := by
    intro m' mx hne hmutex
    rw [hmutex, Function.update_of_ne hne]
  have hlabel : ∀ {m' : ℕ}, l.object = some (.mutex m') → m ≠ m' := by
    rintro m' hl rfl
    exact hobj hl
  cases h.outcome hok hstep with
  | same _ lock => exact congrFun lock.mutex m
  | lock m' t _ label _ outcome =>
    have hne : m ≠ m' := hlabel (label ▸ rfl)
    cases outcome with
    | fails frame _ _ _ => exact congrFun frame.mutex m
    | acquires _ _ locks => exact hother hne locks.mutex
    | waits _ _ _ _ _ locks => exact hother hne locks.mutex
  | lockEnd m' t runs pc _ outcome =>
    -- Nobody is in the wait queue of `m`.
    have hne : m ≠ m' := by
      rintro rfl
      have hmem := ((h.good.core.recs t).wait_q m).mpr ⟨runs.live, by rw [pc]; rfl⟩
      rw [hm] at hmem
      cases hmem
    cases outcome with
    | interrupted _ _ _ locks => exact hother hne locks.mutex
    | acquires _ _ locks => exact hother hne locks.mutex
  | trylock m' t _ label _ outcome =>
    have hne : m ≠ m' := hlabel (label ▸ rfl)
    cases outcome with
    | busy frame _ _ => exact congrFun frame.mutex m
    | acquires _ _ locks => exact hother hne locks.mutex
  | unlock m' t _ label _ _ outcome =>
    have hne : m ≠ m' := hlabel (label ▸ rfl)
    rcases outcome with ⟨-, frame⟩ | ⟨-, locks⟩
    · exact congrFun frame.mutex m
    · exact hother hne locks.mutex
  | mainLock _ m' label _ =>
    have hne : m ≠ m' := hlabel (label.elim (fun hl => hl ▸ rfl) fun hl => hl ▸ rfl)
    rcases label with rfl | rfl
    · obtain ⟨_, _, hcall⟩ := step_call_user hstep
      cases hcall
      unfold mutexTrylock
      split_ifs
      · rfl
      · cases s.this_thread <;> simp [ret, setPc, setOwner, note, hne]
    · obtain ⟨_, _, hcall⟩ := step_call_user hstep
      cases hcall
      unfold mutexUnlock
      split_ifs
      · rfl
      · cases s.this_thread <;> dsimp only <;> split <;>
          simp [ret, setPc, setOwner, addRunq, setState, setThread, note, hne]
  | creates _ _ _ _ _ _ _ _ _ _ _ _ _ lock => exact congrFun lock.mutex m
  | exits _ _ _ _ _ _ _ _ lock => exact congrFun lock.mutex m
  | frees _ _ _ _ lock => exact congrFun lock.mutex m
  | nothing _ _ _ _ _ _ _ lock => exact congrFun lock.mutex m

end St

namespace Objects

/-- The object of the program that a step names. `st_cond_new` and `st_mutex_new` name none. -/
def Label.object : Label → Option QHead
  | .sched l => l.object
  | .condDestroy n => some (.cond (.user n))
  | .mutexDestroy m => some (.mutex m)
  | _ => none

/-- The step of the scheduler is clean. -/
def Cleans (o : Objects) : Label → Prop
  | .sched l => o.st.Clean l
  | _ => True

instance (o : Objects) : (l : Label) → Decidable (o.Cleans l)
  | .sched l => inferInstanceAs (Decidable (o.st.Clean l))
  | .condNew _ => .isTrue trivial
  | .condDestroy _ => .isTrue trivial
  | .mutexNew _ => .isTrue trivial
  | .mutexDestroy _ => .isTrue trivial

/-- What a step of a well-used program is: the step of the scheduler is clean, and the program passes
only pointers to objects that it made and has not destroyed. -/
def Uses (o : Objects) (l : Label) : Prop := o.Cleans l ∧ ∀ h ∈ l.object, o.alive h = true

instance (o : Objects) (l : Label) : Decidable (o.Uses l) := inferInstanceAs (Decidable (_ ∧ _))

/-- Nobody uses what does not exist. -/
structure Kept (o : Objects) : Prop where
  buried : o.st.Buried
  conds : ∀ n, o.conds n = false → o.st.cond_q (.user n) = []
  mutexes : ∀ m, o.mutexes m = false → o.st.mutex m = ⟨none, []⟩

/-- The queues of the library exist always. -/
theorem alive_fixed (o : Objects) : Fixed o.alive := ⟨rfl, rfl, rfl, rfl⟩

namespace Kept

variable {o o' : Objects} (h : o.Kept)
include h

/-- The termination condition variable of a thread exists. -/
theorem alive_term {t : ℕ} {c : Cond} (hc : (o.st.thread t).term = some c) :
    o.alive (.cond c) = true := by
  obtain ⟨⟨n, -, rfl⟩, hfree⟩ := h.buried.inv.linked.term t c hc
  exact decide_eq_true hfree

/-- One that is yet to be made was not destroyed. -/
theorem alive_fresh : o.alive (.cond (.term o.st.terms)) = true := by
  refine decide_eq_true fun hmem => ?_
  obtain ⟨n, hn, heq⟩ := h.buried.inv.linked.free _ hmem
  cases heq
  exact lt_irrefl _ hn

/-- A condition variable of the program on which somebody waits exists. -/
theorem alive_of_cond {t n : ℕ} (ht : t ∈ o.st.cond_q (.user n)) : o.conds n = true := by
  by_contra hn
  rw [h.conds n (by simpa using hn)] at ht
  cases ht

/-- A mutex for which somebody waits exists. -/
theorem alive_of_wait {t m : ℕ} (ht : t ∈ (o.st.mutex m).wait_q) : o.mutexes m = true := by
  by_contra hm
  rw [h.mutexes m (by simpa using hm)] at ht
  cases ht

/-- A call accesses only lists of what exists. -/
theorem call_on {c : St.Call} (hclean : o.st.Clean (.call c))
    (hobj : ∀ hd ∈ (St.Label.call c).object, o.alive hd = true) :
    AllOn o.alive (o.st.callLinks c) := by
  have hf := o.alive_fixed
  cases c with
  | poll pds timeout => exact St.pollLinks_on hf pds timeout
  | usleep usecs => exact St.usleepLinks_on hf usecs
  | condTimedwait n timeout =>
    unfold St.callLinks
    dsimp only
    split
    · exact .nil
    · exact St.interruptedLinks_on (St.condBlockLinks_on hf (hobj _ rfl) _ _ _)
  | condSignal n => exact St.condSignalLinks_on hf (hobj _ rfl) false
  | condBroadcast n => exact St.condSignalLinks_on hf (hobj _ rfl) true
  | mutexLock m => exact St.mutexLockLinks_on hf (hobj _ rfl)
  | mutexTrylock m => exact .nil
  | mutexUnlock m => exact St.mutexUnlockLinks_on hf (hobj _ rfl)
  | interrupt t => exact St.threadInterruptLinks_on hf t
  | create joinable stk_size ok => exact St.threadCreateLinks_on hf h.alive_fresh _ _ _ _
  | join t => exact St.threadJoinLinks_on hf fun _ => h.alive_term
  | exit retval =>
    have hnone : o.st.this_thread = none := hclean.1
    have hlinks : o.st.threadExitLinks retval = [] := by
      unfold St.threadExitLinks
      rw [hnone]
    rw [St.callLinks, hlinks]
    exact .nil
  | idleRun => exact .nil

/-- The same for a step of a live thread. -/
theorem thread_on {l : St.Label} {st : St} (hclean : o.st.Clean l)
    (hobj : ∀ hd ∈ l.object, o.alive hd = true) {t : ℕ} (hruns : o.st.Runs t)
    (hstep : o.st.step l = some st) : AllOn o.alive (o.st.accesses l) := by
  have hf := o.alive_fixed
  have hrec := h.buried.inv.good.core.recs t
  have hfits := hrec.pc hruns.live
  have hpc := hruns.pc_eq
  unfold St.accesses
  cases hp : o.st.pcOf t with
  | user r =>
    rw [hp] at hpc
    cases St.step_goes hpc hstep with
    | call c _ =>
      rw [hpc]
      exact h.call_on hclean hobj
    | ret v _ _ =>
      rw [hpc]
      exact St.threadExitLinks_on (s := o.st.note (.returned o.st.running v)) hf hruns.this
        (fun _ => h.alive_term) _
  | poll me q =>
    rw [hp] at hpc
    cases St.step_goes hpc hstep with
    | poll _ =>
      rw [hpc]
      exact St.pollEndLinks_on hf q
  | condWait me c =>
    rw [hp] at hpc
    have hmem := (hrec.cond_q c).mpr ⟨hruns.live, by rw [hp]; rfl⟩
    cases St.step_goes hpc hstep with
    | condWait _ =>
      rw [hpc]
      cases c with
      | user n => exact .single rfl (h.alive_of_cond hmem)
      | term n => exact absurd hpc (h.buried.inv.linked.wait _ _ _)
  | lock me m =>
    rw [hp] at hpc
    have hmem := (hrec.wait_q m).mpr ⟨hruns.live, by rw [hp]; rfl⟩
    cases St.step_goes hpc hstep with
    | lock _ =>
      rw [hpc]
      exact .single rfl (h.alive_of_wait hmem)
  | join me c u =>
    rw [hp] at hpc hfits
    cases St.step_goes hpc hstep with
    | join _ =>
      rw [hpc]
      exact St.joinEndLinks_on hf (h.alive_term hfits.2.2) me u
  | _ =>
    -- The other places are those of `main`, of the idle thread and of a thread that exits.
    rw [hp] at hfits
    exact hfits.elim

/-- The same for a step of a loop that dispatches. -/
theorem loop_on {l : St.Label} {st : St} {stage : Stage} (hclean : o.st.Clean l)
    (hpc : (o.st.fiber o.st.running).pc = .idle stage ∨ (o.st.fiber o.st.running).pc = .native stage)
    (hstep : o.st.step l = some st) : AllOn o.alive (o.st.accesses l) := by
  have hf := o.alive_fixed
  unfold St.accesses
  rcases hpc with hpc | hpc
  · have hactive : l = .resume → 0 < o.st.active_count := by
      rintro rfl
      exact hclean.1 (h.buried.inv.good.running_idle hpc)
    cases St.step_goes hpc hstep with
    | idleDispatch outcomes _ _ _ _ =>
      rw [hpc]
      exact St.dispatchLinks_on hf outcomes _ _
    | idleEnd ended _ =>
      have := hactive rfl
      omega
    | idleClock now _ _ _ =>
      rw [hpc]
      exact St.checkClockLinks_on hf now _ _
    | idleSched _ =>
      rw [hpc]
      exact St.idleSchedLinks_on hf (hactive rfl)
  · cases St.step_goes hpc hstep with
    | nativeDispatch outcomes _ _ _ _ =>
      rw [hpc]
      exact St.dispatchLinks_on hf outcomes _ _
    | nativeEnd _ _ =>
      rw [hpc]
      exact .nil
    | nativeClock now _ _ _ =>
      rw [hpc]
      exact St.checkClockLinks_on hf now _ _
    | nativeSched _ =>
      rw [hpc]
      exact St.vpScheduleLinks_on hf

/-- The same for each step that is not the end of `st_thread_exit`. -/
theorem accesses_on {l : St.Label} {st : St} (hclean : o.st.Clean l)
    (hobj : ∀ hd ∈ l.object, o.alive hd = true)
    (hpc : ∀ t e, (o.st.fiber o.st.running).pc ≠ .exitTerm t e) (hstep : o.st.step l = some st) :
    AllOn o.alive (o.st.accesses l) := by
  have hg := h.buried.inv.good
  rcases hg.turn with hmain | ⟨hidle, -⟩ | ⟨t, hl, hrun, hst, hthis⟩ | ⟨t, -, -, hend, -, -⟩ |
    ⟨t, hleave, -⟩
  · rcases hg.own.main_pc with ⟨r, hr⟩ | ⟨stage, hr⟩
    · rw [← hmain] at hr
      cases St.step_goes hr hstep with
      | call c _ =>
        unfold St.accesses
        rw [hr]
        exact h.call_on hclean hobj
      | ret v thread _ => exact absurd hmain thread
    · rw [← hmain] at hr
      exact h.loop_on hclean (Or.inr hr) hstep
  · obtain ⟨stage, hr⟩ := hg.own.idle_pc
    rw [← hidle] at hr
    exact h.loop_on hclean (Or.inl hr) hstep
  · exact h.thread_on hclean hobj ⟨hl, hrun, hst, hthis⟩ hstep
  · cases St.step_goes hend hstep with
    | exitEnd _ =>
      unfold St.accesses
      rw [hend]
      exact .nil
  · exact absurd hleave.pc (hpc _ _)

end Kept

end Objects

/-! ## Edits of what exists -/

namespace St

/-- Edits of the lists of some heads. -/
theorem Edits.within {q q' : QHead → Option (List QElem)} {as : List Access} (h : Edits q as q')
    {alive : QHead → Bool} (has : AllOn alive as) :
    Edits (Clist.within alive q) as (Clist.within alive q') := by
  intro left
  obtain ⟨left', hmeets, hrun⟩ := h left
  refine ⟨left', meets_within (fun ha hfits => ⟨ha.valid hfits.1, hfits.2.within ha⟩) has hmeets, ?_⟩
  exact run_within has hrun

/-- The head of an empty list is released. -/
theorem Edits.free {q : QHead → Option (List QElem)} {h : QHead} (hq : q h = some []) (hrun : h ≠ .runq) :
    Edits q [.free h] (Function.update q h none) :=
  single (fun _ => ⟨hq, hrun⟩) fun _ => rfl

end St

namespace Objects

variable {o o' : Objects}

/-- The lists of the scheduler that exist, if none is destroyed. -/
theorem queue_sched {st : St} (hfrees : St.SameFrees o.st st) :
    ({ o with st := st } : Objects).queue = within o.alive st.queue := by
  have halive : ({ o with st := st } : Objects).alive = o.alive := by
    funext h
    cases h with
    | cond c =>
      cases c with
      | user n => rfl
      | term n => simp only [alive, hfrees (.term n)]
    | _ => rfl
  rw [queue, halive]

/-- The end of `st_thread_exit`. -/
theorem Kept.exitTerm (h : o.Kept) {t : ℕ} {st : St} (hleave : o.st.Leaving t)
    (hexit : o.st.exitTermEnd t false = some st) :
    St.Edits o.queue (o.st.exitTermEndFrees t) ({ o with st := st } : Objects).queue := by
  have hf := o.alive_fixed
  obtain ⟨c, hterm, hst, hrest⟩ := St.exitTermEnd_rest h.buried hleave hexit
  have halive := h.alive_term hterm
  obtain ⟨n, hn, rfl⟩ := (h.buried.inv.linked.term t c hterm).1
  have hlog : st.log = (o.st.condDestroy (.term n)).log := by
    rw [hst, St.exitFree_log]
    rfl
  unfold St.exitTermEndFrees
  rw [hterm]
  dsimp only
  refine ((St.condTest_edits hn).within (St.condTestLinks_on halive)).append ?_
  by_cases hq : o.st.cond_q (.term n) = []
  · rw [if_neg (by simp [hq])]
    have hempty : o.queue (.cond (.term n)) = some [] := by
      rw [queue, within_eq halive, St.queue, if_pos hn, hq]
      rfl
    have hcons : st.log = .condFree (.term n) :: o.st.log := by
      rw [hlog, St.condDestroy, if_neg (by simp [hq])]
      rfl
    refine (St.Edits.free hempty (by simp)).cons ?_
    -- What is left without the condition variable are the lists that exist afterwards.
    have hleft : Function.update o.queue (.cond (.term n)) none =
        within ({ o with st := st } : Objects).alive o.st.queue := by
      funext hd
      by_cases hh : hd = .cond (.term n)
      · subst hh
        simp [within, alive, hcons]
      · have hsame : ({ o with st := st } : Objects).alive hd = o.alive hd := by
          cases hd with
          | cond c =>
            cases c with
            | user m => rfl
            | term m =>
              have hm : m ≠ n := fun heq => hh (heq ▸ rfl)
              simp [alive, hcons, hm]
          | _ => rfl
        rw [Function.update_of_ne hh, queue, within, within, hsame]
    rw [hleft]
    exact hrest.within (St.exitFreeLinks_on (alive_fixed _) t)
  · rw [if_pos hq, List.nil_append]
    have hsame : St.SameFrees o.st st := .of_log (by rw [hlog, St.condDestroy, if_pos hq])
    have hedits := hrest.within (St.exitFreeLinks_on hf t)
    rw [queue_sched hsame]
    exact hedits

/-- A step of the scheduler. -/
theorem Kept.sched (h : o.Kept) {l : St.Label} {st : St} (hclean : o.st.Clean l)
    (hobj : ∀ hd ∈ l.object, o.alive hd = true) (hstep : o.st.step l = some st) :
    ({ o with st := st } : Objects).Kept ∧
      St.Edits o.queue (o.st.accessesFrees l) ({ o with st := st } : Objects).queue := by
  have hinv := h.buried.inv
  refine ⟨⟨St.step_buried h.buried hclean hstep, fun n hn => ?_, fun m hm => ?_⟩, ?_⟩
  · refine hinv.cond_q_nil hclean.1 hstep (fun heq => ?_) (h.conds n hn)
    have halive : o.conds n = true := hobj _ heq
    have hn : o.conds n = false := hn
    rw [hn] at halive
    cases halive
  · refine hinv.mutex_unused hclean.1 hstep (fun heq => ?_) (h.mutexes m hm)
    have halive : o.mutexes m = true := hobj _ heq
    have hm : o.mutexes m = false := hm
    rw [hm] at halive
    cases halive
  · by_cases hpc : ∀ t e, (o.st.fiber o.st.running).pc ≠ .exitTerm t e
    · have hlinks : o.st.accessesFrees l = o.st.accesses l := by
        unfold St.accessesFrees
        split
        · next t e hend => exact absurd hend (hpc t e)
        · rfl
      have hfrees := St.step_sameFrees (fun me n => hinv.linked.wait _ me n) hpc hstep
      rw [hlinks, queue_sched hfrees]
      exact (St.step_edits h.buried hclean hstep).within (h.accesses_on hclean hobj hpc hstep)
    · push Not at hpc
      obtain ⟨t, e, hend⟩ := hpc
      obtain ⟨rfl, hleave⟩ := hinv.good.exitTerm hend
      cases St.step_goes hend hstep with
      | exitTerm hexit =>
        unfold St.accessesFrees
        rw [hend]
        exact h.exitTerm hleave hexit

/-! ## Making and destroying -/

/-- A condition variable comes or goes. -/
theorem queue_conds (r : Res) (n : ℕ) (b : Bool) :
    queue ⟨o.st.ret r, Function.update o.conds n b, o.mutexes⟩ = Function.update o.queue (.cond (.user n))
      (if b then some ((o.st.cond_q (.user n)).map .waitLinks) else none) := by
  funext hd
  by_cases hh : hd = .cond (.user n)
  · subst hh
    simp [queue, within, alive, St.queue, St.ret, St.setPc]
  · rw [Function.update_of_ne hh]
    cases hd with
    | cond c =>
      cases c with
      | user n' =>
        have hne : n' ≠ n := fun heq => hh (heq ▸ rfl)
        simp only [queue, within, alive, Function.update_of_ne hne]
        rfl
      | term n' => rfl
    | _ => rfl

/-- A mutex comes or goes. -/
theorem queue_mutexes (r : Res) (m : ℕ) (b : Bool) :
    queue ⟨o.st.ret r, o.conds, Function.update o.mutexes m b⟩ = Function.update o.queue (.mutex m)
      (if b then some ((o.st.mutex m).wait_q.map .waitLinks) else none) := by
  funext hd
  by_cases hh : hd = .mutex m
  · subst hh
    simp [queue, within, alive, St.queue, St.ret, St.setPc]
  · rw [Function.update_of_ne hh]
    cases hd with
    | mutex m' =>
      have hne : m' ≠ m := fun heq => hh (heq ▸ rfl)
      simp only [queue, within, alive, Function.update_of_ne hne]
      rfl
    | cond c => cases c <;> rfl
    | _ => rfl

/-- The return of a call leaves the lists. -/
theorem queue_ret (o : Objects) (r : Res) : queue { o with st := o.st.ret r } = o.queue :=
  queue_sched (St.ret_plain _ _).sameFrees

namespace Kept

/-- A call that returns at once. -/
theorem ret (h : o.Kept) (hprog : o.st.inProgram = true) (r : Res) :
    Kept { o with st := o.st.ret r } :=
  ⟨(h.buried.ret hprog r).1, h.conds, h.mutexes⟩

/-- The same for one after which a condition variable is there, or is not, on which nobody waits. -/
theorem ret_conds (h : o.Kept) (hprog : o.st.inProgram = true) (r : Res) {n : ℕ} (b : Bool)
    (hn : o.st.cond_q (.user n) = []) : Kept ⟨o.st.ret r, Function.update o.conds n b, o.mutexes⟩ := by
  refine ⟨(h.buried.ret hprog r).1, fun n' hn' => ?_, h.mutexes⟩
  by_cases heq : n' = n
  · exact heq ▸ hn
  · have hn' : Function.update o.conds n b n' = false := hn'
    rw [Function.update_of_ne heq] at hn'
    exact h.conds n' hn'

/-- The same for a mutex that nobody uses. -/
theorem ret_mutexes (h : o.Kept) (hprog : o.st.inProgram = true) (r : Res) {m : ℕ} (b : Bool)
    (hm : o.st.mutex m = ⟨none, []⟩) : Kept ⟨o.st.ret r, o.conds, Function.update o.mutexes m b⟩ := by
  refine ⟨(h.buried.ret hprog r).1, h.conds, fun m' hm' => ?_⟩
  by_cases heq : m' = m
  · exact heq ▸ hm
  · have hm' : Function.update o.mutexes m b m' = false := hm'
    rw [Function.update_of_ne heq] at hm'
    exact h.mutexes m' hm'

/-- `st_cond_new`. -/
theorem condNew (h : o.Kept) (hprog : o.st.inProgram = true) {n : Option ℕ}
    (hnew : o.condNew n = some o') :
    o'.Kept ∧ St.Edits o.queue (condNewLinks n) o'.queue := by
  cases n with
  | none =>
    cases hnew
    refine ⟨h.ret hprog _, ?_⟩
    rw [queue_ret]
    exact St.Edits.nil _
  | some n =>
    unfold Objects.condNew at hnew
    dsimp only at hnew
    split_ifs at hnew with hn
    have hn : o.conds n = false := by simpa using hn
    have hempty := h.conds n hn
    -- The wait queue of the memory that `calloc` returns is empty already.
    have hsame : o.st.setCondQ (.user n) [] = o.st := by
      unfold St.setCondQ
      rw [Function.update_eq_self_iff.mpr hempty.symm]
    rw [hsame] at hnew
    cases hnew
    have hq : o.queue (.cond (.user n)) = none := if_neg (by simp [alive, hn])
    refine ⟨h.ret_conds hprog _ true hempty, ?_⟩
    rw [queue_conds, hempty]
    exact St.Edits.init hq (by simp)

/-- `st_cond_destroy`. -/
theorem condDestroy (h : o.Kept) (hprog : o.st.inProgram = true) {n : ℕ} (hn : o.conds n = true) :
    (o.condDestroy n).Kept ∧ St.Edits o.queue (o.condDestroyLinks n) (o.condDestroy n).queue := by
  have halive : o.alive (.cond (.user n)) = true := hn
  have hq : o.queue (.cond (.user n)) = some ((o.st.cond_q (.user n)).map .waitLinks) :=
    within_eq halive
  have htest : St.Edits o.queue (o.st.condTestLinks (.user n)) o.queue := St.Edits.first hq
  unfold Objects.condDestroy condDestroyLinks
  by_cases hempty : o.st.cond_q (.user n) = []
  · rw [if_neg (not_not.mpr hempty), if_neg (not_not.mpr hempty), queue_conds]
    rw [hempty] at hq
    exact ⟨h.ret_conds hprog _ false hempty, htest.append (St.Edits.free hq (by simp))⟩
  · rw [if_pos hempty, if_pos hempty, List.append_nil, queue_ret]
    exact ⟨h.ret hprog _, htest⟩

/-- `st_mutex_new`. -/
theorem mutexNew (h : o.Kept) (hprog : o.st.inProgram = true) {m : Option ℕ}
    (hnew : o.mutexNew m = some o') :
    o'.Kept ∧ St.Edits o.queue (mutexNewLinks m) o'.queue := by
  cases m with
  | none =>
    cases hnew
    refine ⟨h.ret hprog _, ?_⟩
    rw [queue_ret]
    exact St.Edits.nil _
  | some m =>
    unfold Objects.mutexNew at hnew
    dsimp only at hnew
    split_ifs at hnew with hm
    have hm : o.mutexes m = false := by simpa using hm
    have hmx := h.mutexes m hm
    have hsame : (o.st.setWaitQ m []).setOwner m none = o.st := by
      have hupdate : Function.update o.st.mutex m ⟨none, []⟩ = o.st.mutex :=
        Function.update_eq_self_iff.mpr hmx.symm
      simp [St.setWaitQ, St.setOwner, hupdate]
    rw [hsame] at hnew
    cases hnew
    have hq : o.queue (.mutex m) = none := if_neg (by simp [alive, hm])
    refine ⟨h.ret_mutexes hprog _ true hmx, ?_⟩
    rw [queue_mutexes, hmx]
    exact St.Edits.init hq (by simp)

/-- `st_mutex_destroy`. -/
theorem mutexDestroy (h : o.Kept) (hprog : o.st.inProgram = true) {m : ℕ} (hm : o.mutexes m = true) :
    (o.mutexDestroy m).Kept ∧ St.Edits o.queue (o.mutexDestroyLinks m) (o.mutexDestroy m).queue := by
  have halive : o.alive (.mutex m) = true := hm
  have hq : o.queue (.mutex m) = some ((o.st.mutex m).wait_q.map .waitLinks) := within_eq halive
  unfold Objects.mutexDestroy mutexDestroyLinks
  by_cases howner : (o.st.mutex m).owner = none
  · rw [if_neg (not_not.mpr howner)]
    by_cases hempty : (o.st.mutex m).wait_q = []
    · rw [if_neg (by simp [howner, hempty]), if_neg (not_not.mpr hempty), queue_mutexes]
      have hmx : o.st.mutex m = ⟨none, []⟩ := by rw [← howner, ← hempty]
      refine ⟨h.ret_mutexes hprog _ false hmx, (St.Edits.first hq).cons ?_⟩
      rw [hempty] at hq
      exact St.Edits.free hq (by simp)
    · rw [if_pos (Or.inr hempty), if_pos hempty, queue_ret]
      exact ⟨h.ret hprog _, St.Edits.first hq⟩
  · rw [if_pos (Or.inl howner), if_pos howner, queue_ret]
    exact ⟨h.ret hprog _, St.Edits.nil _⟩

/-- One step: its accesses lead from the lists of what exists to the next ones. -/
theorem step (h : o.Kept) {l : Label} (huses : o.Uses l) (hstep : o.step l = some o') :
    o'.Kept ∧ St.Edits o.queue (o.accesses l) o'.queue := by
  obtain ⟨hcleans, hobj⟩ := huses
  cases l with
  | sched l =>
    obtain ⟨st, hst, rfl⟩ := Option.map_eq_some_iff.mp hstep
    exact h.sched hcleans hobj hst
  | condNew n =>
    obtain ⟨hprog, hnew⟩ := Option.ite_none_right_eq_some.mp hstep
    exact h.condNew hprog hnew
  | condDestroy n =>
    obtain ⟨hprog, heq⟩ := Option.ite_none_right_eq_some.mp hstep
    cases heq
    exact h.condDestroy hprog (hobj _ rfl)
  | mutexNew m =>
    obtain ⟨hprog, hnew⟩ := Option.ite_none_right_eq_some.mp hstep
    exact h.mutexNew hprog hnew
  | mutexDestroy m =>
    obtain ⟨hprog, heq⟩ := Option.ite_none_right_eq_some.mp hstep
    cases heq
    exact h.mutexDestroy hprog (hobj _ rfl)

end Kept

/-! ## Runs -/

/-- The invariant holds at the start. -/
theorem init_kept (pagesize : ℤ) (last_clock : ℕ) : (init pagesize last_clock).Kept :=
  ⟨St.init_buried pagesize last_clock, fun _ _ => rfl, fun _ _ => rfl⟩

/-- The invariant holds after each run, and the accesses of the run lead from the lists at its start to
those at its end. -/
theorem run_kept {ls : List Label} : ∀ {o o' : Objects}, o.Kept → Runs.Meets step Uses o ls →
    Runs.run step o ls = some o' → o'.Kept ∧ St.Edits o.queue (runAccesses o ls) o'.queue := by
  induction ls with
  | nil =>
    intro o o' h _ hrun
    cases hrun
    exact ⟨h, St.Edits.nil _⟩
  | cons l ls ih =>
    intro o o' h huses hrun
    obtain ⟨o₁, hstep, hrest⟩ := Runs.run_cons hrun
    obtain ⟨h₁, hone⟩ := h.step huses.head hstep
    obtain ⟨h', hedits⟩ := ih h₁ (huses.tail hstep) hrest
    rw [runAccesses, hstep]
    exact ⟨h', hone.append hedits⟩

/-- No object is used after it was destroyed. In each run of a well-used program, on any links that
represent the lists after `st_init`, all accesses of the run make sense on the lists of what exists at
that time, those to the condition variables and mutexes of the program and to the termination condition
variables of the threads included. All of them can be carried out on the links, of which those of a head
that was released are `NULL`. -/
theorem run_objects (pagesize : ℤ) (last_clock : ℕ) (ls : List Label) {o : Objects}
    (hrun : Runs.run step (init pagesize last_clock) ls = some o)
    (huses : Runs.Meets step Uses (init pagesize last_clock) ls) {m : Clist.Links (QHead ⊕ QElem)}
    {left : QElem → Option (QHead ⊕ QElem)}
    (hrep : Rep m ⟨(init pagesize last_clock).queue, left⟩) :
    Runs.Meets Lists.step Lists.Valid ⟨(init pagesize last_clock).queue, left⟩
        (runAccesses (init pagesize last_clock) ls) ∧
      ∃ m' left', Runs.run Clist.Links.exec m (runAccesses (init pagesize last_clock) ls) = some m' ∧
        Rep m' ⟨o.queue, left'⟩ := by
  obtain ⟨-, hedits⟩ := run_kept (init_kept pagesize last_clock) huses hrun
  obtain ⟨left', hmeets, hlists⟩ := hedits left
  have hvalid := hmeets.mono fun _ _ h => h.1
  obtain ⟨m', hm', hrep'⟩ := run_exec hrep hvalid hlists
  exact ⟨hvalid, m', left', hm', hrep'⟩

/-- A thread waits on a condition variable. Another one signals it, may not destroy it, and sleeps. The
first thread returns from its wait and destroys it, and its memory serves for the next one. -/
def signalsAndDestroys : List Label :=
  [.condNew (some 0), .sched (.call (.create false 0 ⟨true, true, true⟩)),
    .sched (.call (.create false 0 ⟨true, true, true⟩)), .sched (.call (.usleep 1)),
    .sched (.call (.condTimedwait 0 100)), .sched (.call (.condSignal 0)), .condDestroy 0,
    .sched (.call (.usleep 1)), .sched .resume, .condDestroy 0, .condNew (some 0)]

/-- After these steps the second condition variable exists in the memory of the first one. -/
theorem run_objects_signalsAndDestroys : ∃ o m' left',
    Runs.run step (init 4096 0) signalsAndDestroys = some o ∧ o.conds 0 = true ∧
    Runs.Meets Lists.step Lists.Valid ⟨(init 4096 0).queue, fun _ => none⟩
      (runAccesses (init 4096 0) signalsAndDestroys) ∧
    Runs.run Clist.Links.exec St.emptyLinks (runAccesses (init 4096 0) signalsAndDestroys) = some m' ∧
    Rep m' ⟨o.queue, left'⟩ := by
  obtain ⟨hvalid, m', left', hm', hrep⟩ := run_objects 4096 0 signalsAndDestroys
    (Option.some_get (by decide)).symm (by decide) (St.emptyLinks_rep 4096 0).within
  exact ⟨_, m', left', (Option.some_get _).symm, by decide, hvalid, hm', hrep⟩

/-- Who is in a wait, and what it means for the destruction of an object. In each state of such a run, a
thread waits only on objects that exist, and a mutex that has an owner exists. `st_cond_destroy` returns
`-1` with `EBUSY`, and destroys nothing, exactly if a thread has yet to return from a wait on the condition
variable, even if it was signalled; `st_mutex_destroy` does exactly if the mutex has an owner or a thread
has yet to return from a wait for it. -/
theorem run_destroys (pagesize : ℤ) (last_clock : ℕ) (ls : List Label) {o : Objects}
    (hrun : Runs.run step (init pagesize last_clock) ls = some o)
    (huses : Runs.Meets step Uses (init pagesize last_clock) ls) :
    (∀ t n, o.st.Live t → (o.st.pcOf t).waitsOn (.user n) → o.conds n = true) ∧
      (∀ t m, o.st.Live t → (o.st.pcOf t).waitsFor m → o.mutexes m = true) ∧
      (∀ m, (o.st.mutex m).owner ≠ none → o.mutexes m = true) ∧
      (∀ n, ((∃ t, o.st.Live t ∧ (o.st.pcOf t).waitsOn (.user n)) →
          o.condDestroy n = { o with st := o.st.ret (.error .EBUSY) }) ∧
        ((¬∃ t, o.st.Live t ∧ (o.st.pcOf t).waitsOn (.user n)) → o.condDestroy n =
          { o with st := o.st.ret (.ok 0), conds := Function.update o.conds n false })) ∧
      ∀ m, (((o.st.mutex m).owner ≠ none ∨ ∃ t, o.st.Live t ∧ (o.st.pcOf t).waitsFor m) →
          o.mutexDestroy m = { o with st := o.st.ret (.error .EBUSY) }) ∧
        ((¬((o.st.mutex m).owner ≠ none ∨ ∃ t, o.st.Live t ∧ (o.st.pcOf t).waitsFor m)) →
          o.mutexDestroy m =
            { o with st := o.st.ret (.ok 0), mutexes := Function.update o.mutexes m false }) := by
  obtain ⟨h, -⟩ := run_kept (init_kept pagesize last_clock) huses hrun
  have hrec := h.buried.inv.good.core.recs
  -- A queue is empty exactly when nobody waits.
  have hcond : ∀ n, o.st.cond_q (.user n) ≠ [] ↔
      ∃ t, o.st.Live t ∧ (o.st.pcOf t).waitsOn (.user n) := by
    refine fun n => ⟨fun hq => ?_, fun ⟨t, ht⟩ => List.ne_nil_of_mem (((hrec t).cond_q _).mpr ht)⟩
    obtain ⟨t, ht⟩ := List.exists_mem_of_ne_nil _ hq
    exact ⟨t, ((hrec t).cond_q _).mp ht⟩
  have hwait : ∀ m, (o.st.mutex m).wait_q ≠ [] ↔ ∃ t, o.st.Live t ∧ (o.st.pcOf t).waitsFor m := by
    refine fun m => ⟨fun hq => ?_, fun ⟨t, ht⟩ => List.ne_nil_of_mem (((hrec t).wait_q m).mpr ht)⟩
    obtain ⟨t, ht⟩ := List.exists_mem_of_ne_nil _ hq
    exact ⟨t, ((hrec t).wait_q m).mp ht⟩
  refine ⟨fun t n hl hw => ?_, fun t m hl hw => ?_, fun m howner => ?_, fun n => ?_, fun m => ?_⟩
  · exact h.alive_of_cond (((hrec t).cond_q (.user n)).mpr ⟨hl, hw⟩)
  · exact h.alive_of_wait (((hrec t).wait_q m).mpr ⟨hl, hw⟩)
  · -- A mutex that is not alive has no owner.
    by_contra hm
    rw [h.mutexes m (by simpa using hm)] at howner
    exact howner rfl
  · rw [← hcond]
    exact ⟨fun hq => if_pos hq, fun hq => if_neg hq⟩
  · rw [← hwait]
    exact ⟨fun hq => if_pos hq, fun hq => if_neg hq⟩

/-- The thread was signalled and has not run yet, so its condition variable cannot be destroyed. -/
theorem run_destroys_signalsAndDestroys :
    ∃ o, Runs.run step (init 4096 0) (signalsAndDestroys.take 6) = some o ∧
      (o.st.thread 1).state = .RUNNABLE ∧
      o.condDestroy 0 = { o with st := o.st.ret (.error .EBUSY) } := by
  obtain ⟨-, -, -, hcond, -⟩ := run_destroys 4096 0 (signalsAndDestroys.take 6)
    (Option.some_get (by decide)).symm (by decide)
  refine ⟨_, (Option.some_get _).symm, by decide,
    (hcond 0).1 ⟨1, ⟨by decide, by decide, by decide⟩, ?_⟩⟩
  rw [show St.pcOf _ 1 = .condWait 1 (.user 0) by decide]
  rfl

end Objects

end StWin
