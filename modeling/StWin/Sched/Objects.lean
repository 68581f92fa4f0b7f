import StWin.Sched.Links

/-!
# Condition variables and mutexes that come and go

`st_cond_new`, `st_cond_destroy`, `st_mutex_new`, and `st_mutex_destroy` of `src/sync.c`, over the
scheduler. `Objects` has, besides the state of the scheduler, the condition variables and the mutexes of
the program that exist. The numbers of those that do not are free memory: `st_cond_new` may get any of
them again. A termination condition variable exists from the `st_cond_new` of `st_thread_create` to the
`st_cond_destroy` of `st_thread_exit`, and its number is not used again.

`Objects.queue` has the lists of what exists only, and `Objects.accesses` are the accesses of a step to
the fields of the lists, in which `ST_INIT_CLIST` makes a list and `free` releases its head. The lemmas
`_on` say, for each function of the scheduler, to which lists its accesses are.
-/

namespace StWin

open Clist

/-- The scheduler, with the objects of the program. -/
structure Objects where
  st : St
  /-- The condition variables that exist. -/
  conds : ℕ → Bool
  /-- The mutexes that exist. -/
  mutexes : ℕ → Bool

namespace St

/-- The running fiber is in code of the program. -/
def inProgram (s : St) : Bool :=
  match (s.fiber s.running).pc with
  | .user _ => true
  | _ => false

end St

namespace Objects

/-- What the running fiber does next. -/
inductive Label where
  /-- A step of the scheduler. -/
  | sched (l : St.Label)
  /-- `st_cond_new`, with the memory that `calloc` returns. -/
  | condNew (n : Option ℕ)
  | condDestroy (n : ℕ)
  /-- `st_mutex_new`, with the memory that `calloc` returns. -/
  | mutexNew (m : Option ℕ)
  | mutexDestroy (m : ℕ)

/-- `st_cond_new`. -/
def condNew (o : Objects) : Option ℕ → Option Objects
  | none => some { o with st := o.st.ret (.ok 0) }
  | some n =>
    if o.conds n then none
    else some { o with
      st := (o.st.setCondQ (.user n) []).ret (.ok (n + 1))
      conds := Function.update o.conds n true }

/-- `st_cond_destroy`. -/
def condDestroy (o : Objects) (n : ℕ) : Objects :=
  if o.st.cond_q (.user n) ≠ [] then { o with st := o.st.ret (.error .EBUSY) }
  else { o with st := o.st.ret (.ok 0), conds := Function.update o.conds n false }

/-- `st_mutex_new`. -/
def mutexNew (o : Objects) : Option ℕ → Option Objects
  | none => some { o with st := o.st.ret (.ok 0) }
  | some m =>
    if o.mutexes m then none
    else some { o with
      st := ((o.st.setWaitQ m []).setOwner m none).ret (.ok (m + 1))
      mutexes := Function.update o.mutexes m true }

/-- `st_mutex_destroy`. -/
def mutexDestroy (o : Objects) (m : ℕ) : Objects :=
  if (o.st.mutex m).owner ≠ none ∨ (o.st.mutex m).wait_q ≠ [] then
    { o with st := o.st.ret (.error .EBUSY) }
  else { o with st := o.st.ret (.ok 0), mutexes := Function.update o.mutexes m false }

/-- One step of the running fiber. -/
def step (o : Objects) : Label → Option Objects
  | .sched l => (o.st.step l).map fun st => { o with st := st }
  | .condNew n => if o.st.inProgram then o.condNew n else none
  | .condDestroy n => if o.st.inProgram then some (o.condDestroy n) else none
  | .mutexNew m => if o.st.inProgram then o.mutexNew m else none
  | .mutexDestroy m => if o.st.inProgram then some (o.mutexDestroy m) else none

/-- After `st_init`, the program has no objects. -/
def init (pagesize : ℤ) (last_clock : ℕ) : Objects :=
  ⟨St.init pagesize last_clock, fun _ => false, fun _ => false⟩

/-! ## The lists of what exists -/

/-- Whether the head of a list exists. -/
def alive (o : Objects) : QHead → Bool
  | .cond (.user n) => o.conds n
  | .cond (.term n) => decide (.condFree (.term n) ∉ o.st.log)
  | .mutex m => o.mutexes m
  | _ => true

/-- The lists of what exists. -/
def queue (o : Objects) : QHead → Option (List QElem) := within o.alive o.st.queue

end Objects

namespace St

/-- `st_thread_exit`, after its first switch, with the `free` of `st_cond_destroy`. -/
def exitTermEndFrees (s : St) (t : ℕ) : List Access :=
  match (s.thread t).term with
  | none => []
  | some c =>
    s.condTestLinks c ++ ((if s.cond_q c ≠ [] then [] else [.free (.cond c)]) ++ s.exitFreeLinks t)

/-- The accesses of a step of the scheduler, with those of `free`. -/
def accessesFrees (s : St) (l : Label) : List Access :=
  match (s.fiber s.running).pc, l with
  | .exitTerm t _, .resume => s.exitTermEndFrees t
  | _, l => s.accesses l

end St

namespace Objects

/-- The accesses of `st_cond_new`. -/
def condNewLinks : Option ℕ → List Access
  | none => []
  | some n => [.init (.cond (.user n))]

/-- The accesses of `st_cond_destroy`. -/
def condDestroyLinks (o : Objects) (n : ℕ) : List Access :=
  o.st.condTestLinks (.user n) ++
    if o.st.cond_q (.user n) ≠ [] then [] else [.free (.cond (.user n))]

/-- The accesses of `st_mutex_new`. -/
def mutexNewLinks : Option ℕ → List Access
  | none => []
  | some m => [.init (.mutex m)]

/-- The accesses of `st_mutex_destroy`. -/
def mutexDestroyLinks (o : Objects) (m : ℕ) : List Access :=
  if (o.st.mutex m).owner ≠ none then []
  else
    .first (.mutex m) (node (.mutex m) ((o.st.mutex m).wait_q.map .waitLinks)) ::
      if (o.st.mutex m).wait_q ≠ [] then [] else [.free (.mutex m)]

/-- The accesses of one step. -/
def accesses (o : Objects) : Label → List Access
  | .sched l => o.st.accessesFrees l
  | .condNew n => condNewLinks n
  | .condDestroy n => o.condDestroyLinks n
  | .mutexNew m => mutexNewLinks m
  | .mutexDestroy m => o.mutexDestroyLinks m

/-- The accesses of a run. -/
def runAccesses : Objects → List Label → List Access
  | _, [] => []
  | o, l :: ls =>
    o.accesses l ++
      match o.step l with
      | some o' => runAccesses o' ls
      | none => []

end Objects

/-! ## The lists that a function uses -/

/-- All accesses are to lists of these heads. -/
def AllOn (alive : QHead → Bool) (as : List Access) : Prop := ∀ a ∈ as, a.On alive

/-- The lists that are not those of objects exist. -/
structure Fixed (alive : QHead → Bool) : Prop where
  runq : alive .runq = true
  ioq : alive .ioq = true
  zombieq : alive .zombieq = true
  freeStacks : alive .freeStacks = true

namespace AllOn

variable {alive : QHead → Bool} {as bs : List Access} {a : Access} {h : QHead}

/-- No access. -/
theorem nil : AllOn alive [] := fun _ ha => by cases ha

/-- Accesses after accesses. -/
theorem append (h₁ : AllOn alive as) (h₂ : AllOn alive bs) : AllOn alive (as ++ bs) :=
  fun a ha => (List.mem_append.mp ha).elim (h₁ a) (h₂ a)

/-- An access to a list that exists, before others. -/
theorem cons (ha : a.head = some h) (hh : alive h = true) (has : AllOn alive as) :
    AllOn alive (a :: as) := by
  intro b hb
  rcases List.mem_cons.mp hb with rfl | hb
  · intro h' hh'
    rw [ha] at hh'
    cases hh'
    exact hh
  · exact has b hb

/-- One access to a list that exists. -/
theorem single (ha : a.head = some h) (hh : alive h = true) : AllOn alive [a] := cons ha hh nil

/-- A link that is set to `NULL` is on no list. -/
theorem clear {e : QElem} (has : AllOn alive as) : AllOn alive (.clear e :: as) := by
  intro b hb
  rcases List.mem_cons.mp hb with rfl | hb
  · intro h' hh'
    cases hh'
  · exact has b hb

end AllOn

namespace St

variable {alive : QHead → Bool} {s : St}

/-- `_st_vp_schedule` uses the run queue. -/
theorem vpScheduleLinks_on (hf : Fixed alive) : AllOn alive s.vpScheduleLinks := by
  unfold vpScheduleLinks
  refine .cons rfl hf.runq (.append ?_ ?_)
  · split
    · exact .nil
    · exact .cons rfl hf.runq (.single rfl hf.runq)
  · dsimp only
    split_ifs
    · exact .single rfl hf.runq
    · exact .nil

/-- `_st_vp_check_clock` uses the run queue. -/
theorem checkClockLinks_on (hf : Fixed alive) (now fuel : ℕ) :
    ∀ s, AllOn alive (checkClockLinks now fuel s) := by
  induction fuel with
  | zero => exact fun s => .nil
  | succ fuel ih =>
    intro s
    unfold checkClockLinks
    split
    · exact .nil
    · split_ifs
      · exact .nil
      · split
        · exact .nil
        · exact .cons rfl hf.runq (ih _)

/-- A loop over the I/O queue uses that queue and the run queue. -/
theorem ioLoopLinks_on (hf : Fixed alive) (f : Ev × List ℕ → ℕ → Ev × List ℕ) (q : List ℕ) :
    ∀ ev, AllOn alive (ioLoopLinks f ev q) := by
  induction q with
  | nil => exact fun ev => .nil
  | cons pq q ih =>
    intro ev
    unfold ioLoopLinks
    refine .append ?_ (.cons rfl hf.ioq (ih _))
    split_ifs
    · exact .nil
    · exact .cons rfl hf.ioq (.single rfl hf.runq)

/-- A dispatch pass for one group uses the I/O queue and the run queue. -/
theorem dispatchOnceLinks_on (hf : Fixed alive) (ev : Ev) (i : ℕ) (outcome : SelectOutcome) :
    AllOn alive (dispatchOnceLinks ev i outcome) := by
  have hwalk : ∀ f ev, AllOn alive (ioWalkLinks f ev) := fun f ev =>
    .cons rfl hf.ioq (ioLoopLinks_on hf f ev.io_q ev)
  unfold dispatchOnceLinks
  split_ifs
  · exact .nil
  · cases outcome with
    | ready set =>
      dsimp only
      split_ifs
      · exact hwalk _ _
      · exact .nil
    | error ebadf bad =>
      dsimp only
      split_ifs
      · exact hwalk _ _
      · exact .nil

/-- A dispatch pass uses the I/O queue and the run queue. -/
theorem dispatchLinks_on (hf : Fixed alive) (outcomes : ℕ → SelectOutcome) (is : List ℕ) :
    ∀ ev, AllOn alive (dispatchLinks outcomes ev is) := by
  induction is with
  | nil => exact fun ev => .nil
  | cons i is ih => exact fun ev => (dispatchOnceLinks_on hf ev i (outcomes i)).append (ih _)

/-- `st_thread_interrupt` uses the run queue. -/
theorem threadInterruptLinks_on (hf : Fixed alive) (t : ℕ) : AllOn alive (s.threadInterruptLinks t) := by
  unfold threadInterruptLinks
  split_ifs
  · exact .nil
  · exact .single rfl hf.runq

/-- A call that returns with `EINTR` at its start uses no list. -/
theorem interruptedLinks_on {me : ℕ} {k : St → List Access} (hk : AllOn alive (k s)) :
    AllOn alive (s.interruptedLinks me k) := by
  unfold interruptedLinks
  split_ifs
  · exact .nil
  · exact hk

/-- `st_poll` up to the switch uses the I/O queue and the run queue. -/
theorem pollLinks_on (hf : Fixed alive) (pds : List Pollfd) (timeout : ℕ) :
    AllOn alive (s.pollLinks pds timeout) := by
  unfold pollLinks
  split
  · exact .nil
  · refine interruptedLinks_on ?_
    dsimp only
    split
    · exact .nil
    · exact .cons rfl hf.ioq (vpScheduleLinks_on hf)

/-- `st_poll` after the switch uses the I/O queue. -/
theorem pollEndLinks_on (hf : Fixed alive) (pq : ℕ) : AllOn alive (s.pollEndLinks pq) := by
  unfold pollEndLinks
  split_ifs
  · exact .single rfl hf.ioq
  · exact .nil

/-- `st_usleep` uses the run queue. -/
theorem usleepLinks_on (hf : Fixed alive) (usecs : ℕ) : AllOn alive (s.usleepLinks usecs) := by
  unfold usleepLinks
  split
  · exact vpScheduleLinks_on hf
  · split
    · exact vpScheduleLinks_on hf
    · refine interruptedLinks_on ?_
      split_ifs
      · exact vpScheduleLinks_on hf
      · split
        · exact .nil
        · exact vpScheduleLinks_on hf
      · exact vpScheduleLinks_on hf

/-- A wait on a condition variable uses its wait queue and the run queue. -/
theorem condBlockLinks_on (hf : Fixed alive) {c : Cond} (hc : alive (.cond c) = true) (me timeout : ℕ)
    (pc : Pc) : AllOn alive (s.condBlockLinks me c timeout pc) := by
  unfold condBlockLinks
  dsimp only
  split
  · exact .nil
  · exact .cons rfl hc (vpScheduleLinks_on hf)

/-- The loop of `_st_cond_signal` uses the wait queue and the run queue. -/
theorem condLoopLinks_on (hf : Fixed alive) {c : Cond} (hc : alive (.cond c) = true) (broadcast : Bool)
    (q : List ℕ) : ∀ s, AllOn alive (condLoopLinks c broadcast q s) := by
  induction q with
  | nil => exact fun s => .nil
  | cons t q ih =>
    intro s
    unfold condLoopLinks
    split_ifs
    · split
      · exact .nil
      · exact .cons rfl hf.runq (.cons rfl hc (ih _))
    · split
      · exact .nil
      · exact .single rfl hf.runq
    · exact .cons rfl hc (ih s)

/-- `_st_cond_signal` uses the wait queue and the run queue. -/
theorem condSignalLinks_on (hf : Fixed alive) {c : Cond} (hc : alive (.cond c) = true)
    (broadcast : Bool) : AllOn alive (s.condSignalLinks c broadcast) :=
  .cons rfl hc (condLoopLinks_on hf hc broadcast _ s)

/-- The test of `st_cond_destroy` uses the wait queue. -/
theorem condTestLinks_on {c : Cond} (hc : alive (.cond c) = true) : AllOn alive (s.condTestLinks c) :=
  .single rfl hc

/-- `st_mutex_lock` up to the switch uses the wait queue of the mutex and the run queue. -/
theorem mutexLockLinks_on (hf : Fixed alive) {m : ℕ} (hm : alive (.mutex m) = true) :
    AllOn alive (s.mutexLockLinks m) := by
  unfold mutexLockLinks
  split
  · exact .nil
  · refine interruptedLinks_on ?_
    split
    · exact .nil
    · split_ifs
      · exact .nil
      · exact .cons rfl hm (vpScheduleLinks_on hf)

/-- `st_mutex_unlock` uses the wait queue of the mutex and the run queue. -/
theorem mutexUnlockLinks_on (hf : Fixed alive) {m : ℕ} (hm : alive (.mutex m) = true) :
    AllOn alive (s.mutexUnlockLinks m) := by
  have hloop : ∀ q, AllOn alive (s.unlockLoopLinks m q) := by
    intro q
    induction q with
    | nil => exact .nil
    | cons t q ih =>
      unfold unlockLoopLinks
      split_ifs
      · exact .single rfl hf.runq
      · exact .cons rfl hm ih
  unfold mutexUnlockLinks
  split_ifs
  · exact .nil
  · exact .cons rfl hm (hloop _)

/-- `_st_stack_free` uses the free list. -/
theorem stackFreeLinks_on (hf : Fixed alive) (t : ℕ) : AllOn alive (s.stackFreeLinks t) := by
  refine .cons rfl hf.freeStacks ?_
  split
  · exact .single rfl hf.freeStacks
  · exact .single rfl hf.freeStacks

/-- `_st_stack_new` uses the free list. -/
theorem stackNewLinks_on (hf : Fixed alive) (stack_size : ℤ) (ok : Bool) :
    AllOn alive (s.stackNewLinks stack_size ok) := by
  have hloop : ∀ q, AllOn alive (s.stackLoopLinks stack_size q) := by
    intro q
    induction q with
    | nil => exact .nil
    | cons t q ih =>
      unfold stackLoopLinks
      split_ifs
      · exact .cons rfl hf.freeStacks (.clear .nil)
      · exact .cons rfl hf.freeStacks ih
  refine .cons rfl hf.freeStacks ((hloop _).append ?_)
  split_ifs
  · exact .clear .nil
  · exact .nil

/-- `st_thread_create` makes a termination condition variable. -/
theorem threadCreateLinks_on (hf : Fixed alive) (hterm : alive (.cond (.term s.terms)) = true)
    (start : Pc) (joinable : Bool) (stk_size : ℤ) (ok : Acquire) :
    AllOn alive (s.threadCreateLinks start joinable stk_size ok) := by
  unfold threadCreateLinks
  refine (stackNewLinks_on hf _ _).append ?_
  split
  · exact .nil
  · next t s₁ hnew =>
    have hterms : s₁.terms = s.terms := by
      obtain ⟨free, sizes, seg, rfl⟩ := stackNew_eq hnew
      rfl
    refine .clear (.clear ?_)
    split_ifs
    · rw [hterms]
      exact .cons rfl hterm (.single rfl hf.runq)
    · exact stackFreeLinks_on hf t
    · exact .single rfl hf.runq

/-- The end of `st_thread_exit` uses the free list. -/
theorem exitFreeLinks_on (hf : Fixed alive) (t : ℕ) : AllOn alive (s.exitFreeLinks t) := by
  unfold exitFreeLinks
  split_ifs
  · exact .nil
  · exact stackFreeLinks_on hf t

/-- `st_thread_exit` uses the zombie queue, the free list, and the wait queue of the thread's condition
variable. -/
theorem threadExitLinks_on (hf : Fixed alive) {t : ℕ} (hthis : s.this_thread = some t)
    (hterm : ∀ c, (s.thread t).term = some c → alive (.cond c) = true) (retval : ℤ) :
    AllOn alive (s.threadExitLinks retval) := by
  obtain ⟨hnone, hsome⟩ := threadExitLinks_eq retval hthis
  cases hc : (s.thread t).term with
  | none =>
    rw [hnone hc]
    exact exitFreeLinks_on hf t
  | some c =>
    rw [hsome c hc]
    exact .cons rfl hf.zombieq (condSignalLinks_on hf (hterm c hc) false)

/-- The loop of `st_thread_join` uses the wait queue, the zombie queue and the run queue. -/
theorem joinLoopLinks_on (hf : Fixed alive) {c : Cond} (hc : alive (.cond c) = true) (t : ℕ) :
    AllOn alive (s.joinLoopLinks c t) := by
  unfold joinLoopLinks
  split_ifs
  · exact .cons rfl hf.zombieq (.single rfl hf.runq)
  · split
    · exact .nil
    · exact interruptedLinks_on (condBlockLinks_on hf hc _ _ _)

/-- `st_thread_join` uses the wait queue of the condition variable of the thread. -/
theorem threadJoinLinks_on (hf : Fixed alive) {t : ℕ}
    (hterm : ∀ c, (s.thread t).term = some c → alive (.cond c) = true) :
    AllOn alive (s.threadJoinLinks t) := by
  unfold threadJoinLinks
  split
  · exact .nil
  · next c hc =>
    split_ifs
    · exact .nil
    · exact (condTestLinks_on (hterm c hc)).append .nil
    · exact (condTestLinks_on (hterm c hc)).append (joinLoopLinks_on hf (hterm c hc) t)

/-- `st_thread_join` after a wait in its loop uses the same lists. -/
theorem joinEndLinks_on (hf : Fixed alive) {c : Cond} (hc : alive (.cond c) = true) (me t : ℕ) :
    AllOn alive (s.joinEndLinks me c t) := by
  refine .cons rfl hc ?_
  split
  · exact .nil
  · exact joinLoopLinks_on hf hc t

/-- The last statement of the loop of `_st_idle_thread_start`, while the loop goes on. -/
theorem idleSchedLinks_on (hf : Fixed alive) (hactive : 0 < s.active_count) :
    AllOn alive s.idleSchedLinks := by
  have hsame : ∀ st, (s.setState s.idle_thread st).active_count = s.active_count := fun _ => rfl
  unfold idleSchedLinks
  dsimp only
  split_ifs with hready hended hended
  · rw [hsame] at hended
    omega
  · exact vpScheduleLinks_on hf
  · omega
  · exact vpScheduleLinks_on hf

end St

end StWin
