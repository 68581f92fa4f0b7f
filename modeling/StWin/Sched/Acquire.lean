import StWin.Sched.Count
import StWin.Sched.Create

/-!
# The acquisitions of `st_thread_create`

`st_thread_create` takes a stack, makes a fiber, and, for a joinable thread, a termination condition
variable. It looks at the first and the last of these, and not at the fiber: without one, the thread is
started with a `NULL` context, and the scheduler that selects it sets `_st_this_thread` and returns to
its caller. If the condition variable is not to be had, the stack goes back, and the fiber stays. So the
call is all or nothing exactly if the fiber can be made when the condition variable can, or neither
(`threadCreate_allOrNothing_iff`).

A thread keeps its fiber as long as its record is not written for another thread (`step_keepsFibers`).
-/

namespace StWin.St

/-! ## The calls that `st_thread_create` makes -/

/-- An acquisition, with what it returned, or a release. -/
inductive Acquires where
  /-- `_st_stack_new`. -/
  | stack (got : Option ℕ)
  /-- `createFiber`. -/
  | fiber (got : Option ℕ)
  /-- `st_cond_new`. -/
  | cond (got : Option ℕ)
  /-- `_st_stack_free`. -/
  | stackFree (t : ℕ)
  /-- `delFiber`. -/
  | delFiber (f : ℕ)
  deriving DecidableEq

/-- The acquisition returned `NULL`. -/
def Acquires.Failed : Acquires → Prop
  | .stack got => got = none
  | .fiber got => got = none
  | .cond got => got = none
  | _ => False

/-- What a call of `st_thread_create` leaves, what it returns, and what it called. -/
structure Creation where
  state : St
  thread : Option ℕ
  log : List Acquires

/-- `st_thread_create`, with the calls that it makes. -/
def traceCreate (s : St) (start : Pc) (joinable : Bool) (stk_size : ℤ) (ok : Acquire) : Creation :=
  match s.stackNew (s.stackSize stk_size) ok.stack with
  | none => ⟨s, none, [.stack none]⟩
  | some (t, s) =>
    let log := [.stack (some t), .fiber (if ok.fiber then some s.created else none)]
    let s := s.initThread t start ok.fiber
    if joinable then
      if ok.cond then
        let log := log ++ [.cond (some s.terms)]
        let s := { s.setThread t fun th => { th with term := some (.term s.terms) } with
          cond_q := Function.update s.cond_q (.term s.terms) []
          terms := s.terms + 1 }
        ⟨s.startThread t, some t, log⟩
      else ⟨s.stackFree t, none, log ++ [.cond none, .stackFree t]⟩
    else ⟨s.startThread t, some t, log⟩

/-- Without the calls, the function is `st_thread_create`. -/
theorem traceCreate_eq (s : St) (start : Pc) (joinable : Bool) (stk_size : ℤ) (ok : Acquire) :
    ((s.traceCreate start joinable stk_size ok).state,
      (s.traceCreate start joinable stk_size ok).thread) =
        s.threadCreate start joinable stk_size ok := by
  unfold traceCreate threadCreate
  cases s.stackNew (s.stackSize stk_size) ok.stack with
  | none => rfl
  | some new =>
    obtain ⟨t, s₁⟩ := new
    dsimp only
    split_ifs <;> rfl

/-- A call of `st_thread_create` is all or nothing. -/
structure AllOrNothing (s : St) (c : Creation) : Prop where
  null : (∃ a ∈ c.log, a.Failed) → c.thread = none
  unchanged : (∃ a ∈ c.log, a.Failed) →
    c.state.run_q = s.run_q ∧ c.state.active_count = s.active_count
  stack_back : (∃ a ∈ c.log, a.Failed) → ∀ t, .stack (some t) ∈ c.log → t ∈ c.state.free_stacks
  fiber_deleted : (∃ a ∈ c.log, a.Failed) → ∀ f, .fiber (some f) ∈ c.log → .delFiber f ∈ c.log
  /-- A thread that is returned has a fiber, to which any later call of `_st_vp_schedule` that selects the
  thread switches, as long as the record is not written for another thread. -/
  switches : ∀ t, c.thread = some t → ∃ f, (c.state.thread t).context = some f ∧
    ∀ r ls s', Runs.run step (c.state.ret r) ls = some s' →
      (s'.thread t).id = (c.state.thread t).id → s'.vpSchedule.this_thread = some t →
        s'.vpSchedule.running = f

/-! ## The fiber of a thread stays -/

/-- From `s` to `s'` a record has kept its thread and its fiber, or was written for a new thread. -/
structure KeepsFibers (s s' : St) : Prop where
  created : s.created ≤ s'.created
  record : ∀ t, ((s'.thread t).id = (s.thread t).id ∧ (s'.thread t).context = (s.thread t).context) ∨
    s.created ≤ (s'.thread t).id

namespace KeepsFibers

/-- Nothing has been done. -/
theorem refl (s : St) : KeepsFibers s s := ⟨le_rfl, fun _ => Or.inl ⟨rfl, rfl⟩⟩

/-- One after the other. -/
theorem trans {s s' s'' : St} (h : KeepsFibers s s') (h' : KeepsFibers s' s'') : KeepsFibers s s'' := by
  refine ⟨h.created.trans h'.created, fun t => ?_⟩
  rcases h'.record t with ⟨hid', hcontext'⟩ | hnew
  · rw [hid', hcontext']
    exact h.record t
  · exact Or.inr (h.created.trans hnew)

/-- The records are as they were. -/
theorem of_eq {s s' : St} (hcreated : s'.created = s.created) (hthread : s'.thread = s.thread) :
    KeepsFibers s s' :=
  ⟨hcreated.ge, fun t => Or.inl (by rw [hthread]; exact ⟨rfl, rfl⟩)⟩

/-- An assignment to other fields of a record. -/
theorem of_update {s s' : St} {t : ℕ} {th : Thread} (hcreated : s'.created = s.created)
    (hthread : s'.thread = Function.update s.thread t th) (hid : th.id = (s.thread t).id)
    (hcontext : th.context = (s.thread t).context) : KeepsFibers s s' := by
  refine ⟨hcreated.ge, fun u => Or.inl ?_⟩
  rw [hthread]
  by_cases hu : u = t
  · rw [hu, Function.update_self]
    exact ⟨hid, hcontext⟩
  · rw [Function.update_of_ne hu]
    exact ⟨rfl, rfl⟩

/-- An assignment to a record that keeps its thread and its fiber. -/
theorem setThread (s : St) (t : ℕ) {f : Thread → Thread} (hid : ∀ th, (f th).id = th.id)
    (hcontext : ∀ th, (f th).context = th.context) : KeepsFibers s (s.setThread t f) :=
  of_update rfl rfl (hid _) (hcontext _)

/-- What is plain keeps the fibers. -/
theorem of_plain {s s' : St} (h : Plain s s') : KeepsFibers s s' :=
  ⟨h.created.ge, fun t => Or.inl ⟨h.id t, h.context t⟩⟩

end KeepsFibers

section keeps

variable {s s' : St}

/-- A wait on a condition variable up to the switch keeps the fibers. -/
theorem condBlock_keepsFibers {me timeout : ℕ} {c : Cond} {pc : Pc}
    (h : s.condBlock me c timeout pc = some s') : KeepsFibers s s' := by
  obtain ⟨s₁, rfl, hs₁⟩ := condBlock_paths h
  have h₀ : KeepsFibers s (s.linkCond me c) := .of_update rfl rfl rfl rfl
  have h₁ : KeepsFibers s s₁ := by
    rcases hs₁ with ⟨-, hs₁⟩ | ⟨-, rfl⟩
    · exact h₀.trans (.of_plain (addSleepQ_plain hs₁))
    · exact h₀
  have h₂ : KeepsFibers s₁ (s₁.setPc pc) := .of_eq rfl rfl
  exact h₁.trans (h₂.trans (.of_plain (vpSchedule_plain _)))

/-- A wait on a condition variable after the switch keeps the fibers. -/
theorem condUnblock_keepsFibers (s : St) (me : ℕ) (c : Cond) : KeepsFibers s (s.condUnblock me c).1 :=
  .of_update rfl rfl rfl rfl

/-- The loop of `st_thread_join` keeps the fibers. -/
theorem joinLoop_keepsFibers {c : Cond} {t : ℕ} (h : s.joinLoop c t = some s') :
    KeepsFibers s s' := by
  cases joinLoop_paths h with
  | joined _ eq => exact eq ▸ .of_update rfl rfl rfl rfl
  | interrupted me _ eq => exact eq ▸ .of_plain (s.eintr_plain me)
  | waits me _ blocks => exact condBlock_keepsFibers blocks

/-- `st_thread_join` up to the switch keeps the fibers. -/
theorem threadJoin_keepsFibers {t : ℕ} (h : s.threadJoin t = some s') : KeepsFibers s s' := by
  rcases threadJoin_paths h with ⟨r, rfl⟩ | ⟨c, -, -, h⟩
  · exact .of_eq rfl rfl
  · exact joinLoop_keepsFibers h

/-- `st_thread_join` after a wait in its loop keeps the fibers. -/
theorem joinEnd_keepsFibers {me t : ℕ} {c : Cond} (h : s.joinEnd me c t = some s') :
    KeepsFibers s s' := by
  have hun := s.condUnblock_keepsFibers me c
  rcases joinEnd_paths h with ⟨e, rfl⟩ | h
  · exact hun.trans (.of_eq rfl rfl)
  · exact hun.trans (joinLoop_keepsFibers h)

/-- The return from `st_thread_exit` keeps the fibers. -/
theorem exitReturn_keepsFibers (s : St) (explicit : Bool) :
    KeepsFibers s (s.exitReturn explicit) := by
  unfold exitReturn
  split_ifs <;> exact .of_eq rfl rfl

/-- The end of `st_thread_exit` keeps the fibers. -/
theorem exitFree_keepsFibers (s : St) (t : ℕ) (explicit : Bool) :
    KeepsFibers s (s.exitFree t explicit) := by
  unfold exitFree
  dsimp only
  refine .trans ?_ (.of_plain (switchContext_plain _ t))
  split_ifs <;> exact .of_eq rfl rfl

/-- `st_thread_exit` up to its first switch keeps the fibers. -/
theorem threadExit_keepsFibers {retval : ℤ} {explicit : Bool}
    (h : s.threadExit retval explicit = some s') : KeepsFibers s s' := by
  have henter (t : ℕ) : KeepsFibers s (s.enterExit t retval) :=
    .of_update rfl (enterExit_thread s t retval) rfl rfl
  cases threadExit_paths h with
  | outside _ eq => exact eq ▸ s.exitReturn_keepsFibers explicit
  | frees t _ _ eq => exact eq ▸ (henter t).trans (exitFree_keepsFibers _ t explicit)
  | signals t c s₁ _ _ signal eq =>
    have h₀ : KeepsFibers s { s.enterExit t retval with zombie_q := s.zombie_q ++ [t] } :=
      (henter t).trans (.of_eq rfl rfl)
    have h₁ : KeepsFibers s s₁ := h₀.trans (.of_plain (condSignalLoop_plain _ _ signal))
    have h₂ : KeepsFibers s₁ (s₁.setPc (.exitTerm t explicit)) := .of_eq rfl rfl
    exact eq ▸ h₁.trans (h₂.trans (.of_plain (switchContext_plain _ t)))

/-- `st_thread_exit` after its first switch keeps the fibers. -/
theorem exitTermEnd_keepsFibers {t : ℕ} {explicit : Bool} (h : s.exitTermEnd t explicit = some s') :
    KeepsFibers s s' := by
  obtain ⟨c, s₁, -, hs₁, rfl⟩ := exitTermEnd_paths h
  have h₁ : KeepsFibers s s₁ := by
    rcases hs₁ with rfl | ⟨rfl, -⟩
    · exact .refl s₁
    · exact .of_eq rfl rfl
  refine (h₁.trans ?_).trans (exitFree_keepsFibers _ t explicit)
  exact .setThread s₁ t (fun _ => rfl) fun _ => rfl

/-- `st_thread_create` writes one record, for the thread with the next number. -/
theorem threadCreate_keepsFibers (s : St) (start : Pc) (joinable : Bool) (stk_size : ℤ) (ok : Acquire) :
    KeepsFibers s (s.threadCreate start joinable stk_size ok).1 := by
  unfold threadCreate
  cases hnew : s.stackNew (s.stackSize stk_size) ok.stack with
  | none => exact .refl s
  | some new =>
    obtain ⟨t, s₁⟩ := new
    obtain ⟨free, sizes, seg, rfl⟩ := stackNew_eq hnew
    dsimp only
    generalize hs₁ : initThread _ t start ok.fiber = s₁
    have h₁ : KeepsFibers s s₁ := by
      rw [← hs₁]
      refine ⟨Nat.le_succ _, fun u => ?_⟩
      by_cases hu : u = t
      · refine Or.inr ?_
        rw [hu]
        simp [initThread]
      · refine Or.inl ?_
        simp [initThread, hu]
    have hstart (s₂ : St) (h₂ : KeepsFibers s s₂) : KeepsFibers s (s₂.startThread t) :=
      h₂.trans (.of_update rfl rfl rfl rfl)
    split_ifs
    · exact hstart _ (h₁.trans (.of_update rfl rfl rfl rfl))
    · exact h₁.trans (.of_eq rfl rfl)
    · exact hstart _ h₁

/-- One step, whatever the state. -/
theorem step_keepsFibers {l : Label} (h : s.step l = some s') : KeepsFibers s s' := by
  by_cases hwait : ∀ me n, (s.fiber s.running).pc ≠ .condWait me (.term n)
  · rcases step_cases hwait h with ⟨hp, -⟩ | ⟨joinable, stk_size, ok, r, r', -, rfl⟩ | ⟨t, r, -, hj⟩ |
      ⟨me, c, t, -, hj⟩ | ⟨s₀, v, e, -, -, hp, -, -, hx⟩ | ⟨t, e, -, hx⟩ | ⟨e, -, rfl⟩
    · exact .of_plain hp
    · exact (s.threadCreate_keepsFibers _ joinable stk_size ok).trans (.of_eq rfl rfl)
    · exact threadJoin_keepsFibers hj
    · exact joinEnd_keepsFibers hj
    · exact (KeepsFibers.of_plain hp).trans (threadExit_keepsFibers hx)
    · exact exitTermEnd_keepsFibers hx
    · exact s.exitReturn_keepsFibers e
  · simp only [not_forall, not_not] at hwait
    obtain ⟨me, n, hpc⟩ := hwait
    cases step_goes hpc h with
    | condWait hgo =>
      rw [hgo]
      exact (s.condUnblock_keepsFibers me _).trans (.of_eq rfl rfl)

/-- All runs keep the fibers. -/
theorem run_keepsFibers {ls : List Label} (h : Runs.run step s ls = some s') : KeepsFibers s s' :=
  Runs.run_invariant (P := fun _ _ => True) (I := KeepsFibers s)
    (fun hI _ hstep => hI.trans (step_keepsFibers hstep)) (.refl s) (Runs.meets_true _ _) h

/-- `_st_vp_schedule` switches to the fiber of the thread that it selects. -/
theorem vpSchedule_switches {t f : ℕ} (hcontext : (s.thread t).context = some f)
    (ht : s.vpSchedule.this_thread = some t) : s.vpSchedule.running = f := by
  obtain ⟨u, q, heq⟩ := s.vpSchedule_resumes
  have hthis : s.vpSchedule.this_thread = some u := by
    rw [heq]
    unfold switchContext
    split <;> rfl
  obtain rfl : u = t := Option.some_inj.mp (hthis.symm.trans ht)
  rw [heq]
  unfold switchContext
  simp [setState, setThread, hcontext]

end keeps

/-! ## All or nothing -/

/-- There is a stack for `st_thread_create`, on the free list or a new one. -/
def StackToHave (s : St) (stk_size : ℤ) (ok : Acquire) : Prop :=
  (∃ t ∈ s.free_stacks, s.stackSize stk_size ≤ s.stk_size t) ∨ ok.stack = true

/-- `_st_stack_new` fails exactly if there is no stack to be had. -/
theorem stackNew_eq_none_iff (s : St) (stk_size : ℤ) (ok : Acquire) :
    s.stackNew (s.stackSize stk_size) ok.stack = none ↔ ¬s.StackToHave stk_size ok := by
  unfold stackNew StackToHave
  split
  · next t hfind =>
    refine iff_of_false (fun h => by cases h) (not_not.mpr (Or.inl ⟨t, ?_, ?_⟩))
    · exact List.mem_of_find?_eq_some hfind
    · simpa using List.find?_some hfind
  · next hfind =>
    have hnone : ¬∃ t ∈ s.free_stacks, s.stackSize stk_size ≤ s.stk_size t := by
      rintro ⟨t, hmem, hsize⟩
      exact absurd (List.find?_eq_none.mp hfind t hmem) (by simpa using hsize)
    rw [or_iff_right hnone]
    cases ok.stack <;> simp

/-- A thread with a fiber is switched to, in any later state. -/
theorem switches_of_context {s : St} {t f : ℕ} (hcontext : (s.thread t).context = some f)
    (hid : (s.thread t).id < s.created) {r : Res} {ls : List Label} {s' : St}
    (hrun : Runs.run step (s.ret r) ls = some s') (hid' : (s'.thread t).id = (s.thread t).id)
    (ht : s'.vpSchedule.this_thread = some t) : s'.vpSchedule.running = f := by
  refine vpSchedule_switches ?_ ht
  rcases (run_keepsFibers hrun).record t with ⟨-, hsame⟩ | hnew
  · exact hsame.trans hcontext
  · have hnew : s.created ≤ (s'.thread t).id := hnew
    omega

section outcomes

variable {s s' : St} {t : ℕ} {log : List Acquires}

/-- A call that returns a thread without a failure. -/
theorem allOrNothing_started {f : ℕ} (hlog : ¬∃ a ∈ log, a.Failed)
    (hcontext : (s'.thread t).context = some f) (hid : (s'.thread t).id < s'.created) :
    AllOrNothing s ⟨s', some t, log⟩ := by
  refine ⟨fun h => absurd h hlog, fun h => absurd h hlog, fun h => absurd h hlog,
    fun h => absurd h hlog, fun u hu => ?_⟩
  cases hu
  exact ⟨f, hcontext, fun r ls s'' => switches_of_context hcontext hid⟩

/-- A thread that is started, with a fiber or not. -/
theorem allOrNothing_startThread_iff {s₁ : St} {fiber : Bool}
    (hcontext : (s₁.thread t).context = if fiber then some s.created else none)
    (hid : (s₁.thread t).id = s.created) (hcreated : s₁.created = s.created + 1)
    (hlog : (∃ a ∈ log, a.Failed) ↔ fiber = false) :
    AllOrNothing s ⟨s₁.startThread t, some t, log⟩ ↔ fiber = true := by
  cases fiber with
  | true =>
    refine iff_of_true (allOrNothing_started (f := s.created) (fun h => ?_) ?_ ?_) rfl
    · cases hlog.mp h
    · simpa [startThread, addRunq, setState, setThread] using hcontext
    · simp [startThread, addRunq, setState, setThread, hid, hcreated]
  | false =>
    -- The call has failed and should have returned `NULL`.
    refine iff_of_false (fun h => ?_) (by decide)
    cases h.null (hlog.mpr rfl)

/-- A call that returns `NULL`. -/
theorem allOrNothing_null_iff (hlog : ∃ a ∈ log, a.Failed)
    (hq : s'.run_q = s.run_q ∧ s'.active_count = s.active_count)
    (hstack : ∀ u, .stack (some u) ∈ log → u ∈ s'.free_stacks) :
    AllOrNothing s ⟨s', none, log⟩ ↔ ∀ f, .fiber (some f) ∈ log → .delFiber f ∈ log := by
  constructor
  · exact fun h => h.fiber_deleted hlog
  · exact fun h => ⟨fun _ => rfl, fun _ => hq, fun _ => hstack, fun _ => h, fun u hu => by cases hu⟩

end outcomes

/-- The calls after there is a stack. -/
theorem traceCreate_allOrNothing_iff {s s₁ : St} {t : ℕ} (start : Pc) (joinable : Bool) (stk_size : ℤ)
    {ok : Acquire} (hnew : s.stackNew (s.stackSize stk_size) ok.stack = some (t, s₁)) :
    AllOrNothing s (s.traceCreate start joinable stk_size ok) ↔
      (ok.fiber = true ↔ (joinable = true → ok.cond = true)) := by
  obtain ⟨free, sizes, seg, rfl⟩ := stackNew_eq hnew
  obtain ⟨stack, fiber, cond⟩ := ok
  unfold traceCreate
  rw [hnew]
  dsimp only
  cases joinable with
  | false =>
    simp only [Bool.false_eq_true, if_false, false_implies, iff_true]
    refine allOrNothing_startThread_iff ?_ ?_ rfl ?_
    · simp [initThread]
    · simp [initThread]
    · cases fiber <;> simp [Acquires.Failed]
  | true =>
    cases cond with
    | true =>
      simp only [if_true, imp_self, iff_true]
      refine allOrNothing_startThread_iff ?_ ?_ rfl ?_
      · simp [initThread, setThread]
      · simp [initThread, setThread]
      · cases fiber <;> simp [Acquires.Failed]
    | false =>
      simp only [if_true, Bool.false_eq_true, if_false, imp_false, not_true_eq_false, iff_false,
        Bool.not_eq_true]
      -- The stack goes back to the free list; what is left is whether there is a fiber.
      refine (allOrNothing_null_iff ?_ ?_ fun u hu => ?_).trans ?_
      · exact ⟨.cond none, by simp, rfl⟩
      · exact ⟨rfl, rfl⟩
      · have hut : u = t := by simpa using hu
        rw [hut]
        exact (stackFree_perm _ t).mem_iff.mpr List.mem_cons_self
      · cases fiber <;> simp

/-- When a call of `st_thread_create` is all or nothing. For every state and every pattern of success
and failure: if an acquisition fails, `NULL` is returned, the run queue and the count of active threads
are as before, the stack is back on the free list, and the fiber has been deleted, and a thread that is
returned has a fiber to which the scheduler switches, exactly if there is no stack to have, or the fiber
is made when the thread is not joinable or has its condition variable, and is not made otherwise. -/
theorem threadCreate_allOrNothing_iff (s : St) (start : Pc) (joinable : Bool) (stk_size : ℤ)
    (ok : Acquire) :
    ((s.traceCreate start joinable stk_size ok).state,
        (s.traceCreate start joinable stk_size ok).thread) =
      s.threadCreate start joinable stk_size ok ∧
    (AllOrNothing s (s.traceCreate start joinable stk_size ok) ↔
      (s.StackToHave stk_size ok → (ok.fiber = true ↔ (joinable = true → ok.cond = true)))) := by
  refine ⟨s.traceCreate_eq start joinable stk_size ok, ?_⟩
  cases hnew : s.stackNew (s.stackSize stk_size) ok.stack with
  | none =>
    have hno := (s.stackNew_eq_none_iff stk_size ok).mp hnew
    refine iff_of_true ?_ fun h => absurd h hno
    unfold traceCreate
    rw [hnew]
    dsimp only
    rw [allOrNothing_null_iff ⟨.stack none, by simp, rfl⟩ ⟨rfl, rfl⟩ fun u hu => by simp at hu]
    simp
  | some new =>
    have hstack : s.StackToHave stk_size ok := by
      by_contra hno
      rw [(s.stackNew_eq_none_iff stk_size ok).mpr hno] at hnew
      cases hnew
    rw [traceCreate_allOrNothing_iff start joinable stk_size hnew]
    exact ⟨fun h _ => h, fun h => h hstack⟩

/-- A thread that is started without a fiber: the scheduler selects it, and does not switch. And a
joinable thread without a condition variable: its fiber stays. -/
theorem threadCreate_not_allOrNothing :
    (∃ s, (init 4096 0).threadCreate (.user (.ok 0)) false 0 ⟨true, false, true⟩ = (s, some 1) ∧
      (s.thread 1).context = none ∧ s.vpSchedule.this_thread = some 1 ∧
        s.vpSchedule.running = s.running) ∧
    ¬AllOrNothing (init 4096 0)
      ((init 4096 0).traceCreate (.user (.ok 0)) false 0 ⟨true, false, true⟩) ∧
    ¬AllOrNothing (init 4096 0)
      ((init 4096 0).traceCreate (.user (.ok 0)) true 0 ⟨true, true, false⟩) := by
  refine ⟨⟨_, rfl, rfl, rfl, rfl⟩, ?_, ?_⟩
  · rw [traceCreate_allOrNothing_iff (t := 1) _ _ _ rfl]
    decide
  · rw [traceCreate_allOrNothing_iff (t := 1) _ _ _ rfl]
    decide

end StWin.St
