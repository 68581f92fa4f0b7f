import StWin.Heap.Model
import StWin.Event.Model

/-!
# The scheduler

`src/sched.c`, `src/sync.c`, and `src/stk.c` on one explicit state. A thread record lives inside its
stack segment, so a record and a stack are one number here: `st_thread_create` on a stack of the
free list overwrites the record that was there. The heap fields of the records are in `heap`, and
the event system in `ev`. The circular lists are lists, in order from the head: a record that is
linked a second time, which breaks the ring, appears in the list twice.

The fibers are the control flow. `createFiber` makes a fiber that will run `_st_thread_main` on a
record, `swapFiber` continues another fiber where it stopped, and `swapOutFiber` continues the
native `main`, which is fiber 0. Only the fiber `running` takes steps. The place where a fiber is,
or will continue, is its `Pc`: inside a call that has switched away, or in code of the program's own
(`Pc.user`), which may then make any call. Between two switches nothing else runs, so a call up to
its switch is one step, and the rest of it, after the switch back, another. A swap to the fiber that
is running already returns at once: it only sets `pc`.

A step that is not possible, or that follows a `NULL` pointer, is `none`. The record of what has
happened (`Life`, `threads`, and `log`) is not read by any step.
-/

namespace StWin

/-- `ST_UTIME_NO_TIMEOUT`. -/
def ST_UTIME_NO_TIMEOUT : ℕ := utimeMod - 1

/-- `ST_DEFAULT_STACK_SIZE`. -/
def ST_DEFAULT_STACK_SIZE : ℤ := 64 * 1024

/-- The states of a thread. -/
inductive TState where
  | RUNNING | RUNNABLE | IO_WAIT | LOCK_WAIT | COND_WAIT | SLEEPING | ZOMBIE | SUSPENDED
  deriving DecidableEq, Repr

/-- The flags of a thread. -/
structure Flags where
  primordial : Bool
  idle_thread : Bool
  on_sleepq : Bool
  interrupt : Bool
  timedout : Bool
  deriving DecidableEq, Repr

/-- `flags = 0`. -/
def Flags.zero : Flags := ⟨false, false, false, false, false⟩

/-- A condition variable: one of the program's own, or the termination condition variable of a
joinable thread. -/
inductive Cond where
  | user (n : ℕ)
  | term (n : ℕ)
  deriving DecidableEq, Repr

/-- The fields of `struct _st_thread` that the scheduler reads, the heap's apart. -/
structure Thread where
  state : TState
  flags : Flags
  retval : ℤ
  /-- Termination condition variable for join. -/
  term : Option Cond
  /-- The fiber. -/
  context : Option ℕ
  /-- Which call of `st_thread_create` made the thread. -/
  id : ℕ
  deriving DecidableEq, Repr

/-- The record after the `memset` of `st_thread_create`. -/
def Thread.zero : Thread := ⟨.RUNNING, Flags.zero, 0, none, none, 0⟩

/-- `struct _st_mutex`. -/
structure Mutex where
  owner : Option ℕ
  wait_q : List ℕ
  deriving DecidableEq, Repr

/-- What a call returns: `-1` with `errno`, or a number. A pointer to record `t` is `t + 1`. -/
abbrev Res := Except Errno ℤ

/-- The three statements of the idle loops. -/
inductive Stage where
  | dispatch | clock | sched
  deriving DecidableEq, Repr

/-- Where a fiber is, or continues. -/
inductive Pc where
  /-- In code of the program. The last call returned `r`. -/
  | user (r : Res)
  /-- In `st_poll`, after the wait. -/
  | poll (me pq : ℕ)
  /-- In `st_cond_timedwait`, after the wait. -/
  | condWait (me : ℕ) (c : Cond)
  /-- In `st_mutex_lock`, after the wait. -/
  | lock (me m : ℕ)
  /-- In `st_cond_timedwait`, called by `st_thread_join` of `thread`, after the wait. -/
  | join (me : ℕ) (c : Cond) (thread : ℕ)
  /-- In `st_thread_exit`, after the first `_ST_SWITCH_CONTEXT`. -/
  | exitTerm (me : ℕ) (explicit : Bool)
  /-- In `st_thread_exit`, after the last `_ST_SWITCH_CONTEXT`. -/
  | exitEnd (explicit : Bool)
  /-- In `_st_thread_main`, after `swapOutFiber`. -/
  | out
  /-- In the loop of `_st_idle_thread_start`. -/
  | idle (stage : Stage)
  /-- In the loop of `_st_idle_thread_run`, which `main` runs. -/
  | native (stage : Stage)
  deriving DecidableEq

/-- A fiber. -/
structure Fiber where
  pc : Pc
  /-- The argument of `_st_thread_main`. -/
  thd : ℕ

/-- What has happened to a thread. -/
structure Life where
  /-- How often `st_thread_exit` was entered for it. -/
  exits : ℕ
  /-- How often `st_thread_exit` released its stack. -/
  freed : ℕ
  /-- `st_thread_exit` has returned to its start function. -/
  back : Bool
  deriving DecidableEq, Repr

/-- An event worth recording. -/
inductive Note where
  /-- `st_mutex_lock` put the thread on the wait queue. -/
  | lockWait (m thread : ℕ)
  /-- `st_mutex_lock` or `st_mutex_trylock` returned `0`. -/
  | locked (m thread : ℕ)
  /-- `st_mutex_unlock` returned `0`. -/
  | unlocked (m thread : ℕ)
  /-- A start function returned `v`. -/
  | returned (fiber : ℕ) (v : ℤ)
  /-- `st_thread_join` of `thread` returned `0`, with the value `r`. -/
  | joined (fiber thread : ℕ) (c : Cond) (r : ℤ)
  /-- `st_cond_destroy` freed the condition variable. -/
  | condFree (c : Cond)
  deriving DecidableEq, Repr

/-- The state of the program. -/
structure St where
  thread : ℕ → Thread
  heap : Heap
  ev : Ev
  /-- `_st_this_vp.run_q`. -/
  run_q : List ℕ
  /-- `_st_this_vp.zombie_q`. -/
  zombie_q : List ℕ
  /-- `_st_this_vp.idle_thread`. -/
  idle_thread : ℕ
  /-- `_st_this_vp.last_clock`. -/
  last_clock : ℕ
  /-- `_st_this_vp.pagesize`. -/
  pagesize : ℤ
  /-- `_st_this_thread`. -/
  this_thread : Option ℕ
  /-- `_st_active_count`. -/
  active_count : ℤ
  /-- `_st_free_stacks`. -/
  free_stacks : List ℕ
  stk_size : ℕ → ℤ
  /-- The number of stack segments that were made. -/
  segments : ℕ
  cond_q : Cond → List ℕ
  /-- The number of termination condition variables that were made. -/
  terms : ℕ
  mutex : ℕ → Mutex
  fiber : ℕ → Fiber
  running : ℕ
  /-- The number of calls of `st_thread_create` that got a stack, plus one for `main`. -/
  created : ℕ
  life : ℕ → Life
  /-- The threads that `st_thread_create` has returned, the idle thread apart. -/
  threads : List ℕ
  log : List Note

namespace St

/-! ## Assignments -/

/-- Assign to fields of the record `t`. -/
def setThread (s : St) (t : ℕ) (f : Thread → Thread) : St :=
  { s with thread := Function.update s.thread t (f (s.thread t)) }

/-- `thread->state = state`. -/
def setState (s : St) (t : ℕ) (state : TState) : St :=
  s.setThread t fun th => { th with state := state }

/-- Assign to the flags of `t`. -/
def setFlags (s : St) (t : ℕ) (f : Flags → Flags) : St :=
  s.setThread t fun th => { th with flags := f th.flags }

/-- The running fiber will continue at `pc`. -/
def setPc (s : St) (pc : Pc) : St :=
  { s with fiber := Function.update s.fiber s.running { s.fiber s.running with pc := pc } }

/-- `swapFiber(thread->context)`, if the context is not `NULL`. -/
def switchContext (s : St) (t : ℕ) : St :=
  match (s.thread t).context with
  | some f => { s with running := f }
  | none => s

/-- `_ST_ADD_RUNQ`. -/
def addRunq (s : St) (t : ℕ) : St := { s with run_q := s.run_q ++ [t] }

/-- Record an event. -/
def note (s : St) (n : Note) : St := { s with log := n :: s.log }

/-- Assign to the history of the thread `id`. -/
def setLife (s : St) (id : ℕ) (f : Life → Life) : St :=
  { s with life := Function.update s.life id (f (s.life id)) }

/-- Assign the state of the event system. -/
def setEv (s : St) (ev : Ev) : St := { s with ev := ev }

/-- Assign the wait queue of a condition variable. -/
def setCondQ (s : St) (c : Cond) (wait_q : List ℕ) : St :=
  { s with cond_q := Function.update s.cond_q c wait_q }

/-- The flag `_ST_FL_ON_SLEEPQ` of `t`, together with the timeout heap. -/
def setSleepQ (s : St) (t : ℕ) (on_sleepq : Bool) (heap : Heap) : St :=
  { s.setFlags t fun fl => { fl with on_sleepq := on_sleepq } with heap := heap }

/-- A call returns `r` to the program. -/
def ret (s : St) (r : Res) : St := s.setPc (.user r)

/-! ## The sleep queue -/

/-- `_st_add_sleep_q`. -/
def addSleepQ (s : St) (t timeout : ℕ) : Option St :=
  (s.heap.addSleepQ s.last_clock t timeout).map (s.setSleepQ t true)

/-- `_st_del_sleep_q`. -/
def delSleepQ (s : St) (t : ℕ) : Option St :=
  (s.heap.delSleepQ t).map (s.setSleepQ t false)

/-- `if (thread->flags & _ST_FL_ON_SLEEPQ) { _ST_DEL_SLEEPQ(thread); }`. -/
def leaveSleepQ (s : St) (t : ℕ) : Option St :=
  if (s.thread t).flags.on_sleepq then s.delSleepQ t else some s

/-- Make `t` runnable: take it off the sleep queue if it is there, and put it on the run queue. -/
def wake (s : St) (t : ℕ) : Option St :=
  (s.leaveSleepQ t).map fun s => (s.setState t .RUNNABLE).addRunq t

/-! ## The scheduler -/

/-- The thread that `_st_vp_schedule` takes off the run queue, if it is one to run. -/
def nextThread (s : St) : ℕ × List ℕ :=
  match s.run_q with
  | [] => (s.idle_thread, [])
  | t :: q => (if (s.thread t).state = .RUNNABLE then t else s.idle_thread, q)

/-- `_st_vp_schedule`. -/
def vpSchedule (s : St) : St :=
  let (thread, run_q) := s.nextThread
  let s := { s with run_q := run_q }
  let (thread, s) :=
    if s.this_thread = some thread ∧ thread ≠ s.idle_thread then
      (s.idle_thread, s.addRunq thread)
    else (thread, s)
  -- Resume the thread.
  let s := s.setState thread .RUNNING
  let s := { s with this_thread := some thread }
  s.switchContext thread

/-- The loop of `_st_vp_check_clock`. -/
def checkClockLoop (now : ℕ) : ℕ → St → Option St
  | 0, _ => none
  | fuel + 1, s =>
    match s.heap.sleep_q with
    | none => some s
    | some t =>
      if now < (s.heap.node t).due then some s
      else do
        let s ← s.delSleepQ t
        -- If the thread is waiting on a condition variable, set the time out flag.
        let s :=
          if (s.thread t).state = .COND_WAIT then s.setFlags t fun fl => { fl with timedout := true }
          else s
        checkClockLoop now fuel ((s.setState t .RUNNABLE).addRunq t)

/-- `_st_vp_check_clock`, when `st_utime` returns `now`. -/
def vpCheckClock (s : St) (now : ℕ) : Option St :=
  checkClockLoop now (s.heap.sleepq_size + 1) { s with last_clock := now }

/-- `_ST_VP_IDLE`: a dispatch pass, and the threads that it notifies. -/
def vpIdle (s : St) (outcomes : ℕ → SelectOutcome) : Option St :=
  let (ev, woken) := s.ev.dispatch outcomes
  woken.foldlM (fun s pq => s.wake (s.ev.pollq pq).thread) (s.setEv ev)

/-- `st_thread_interrupt`. -/
def threadInterrupt (s : St) (t : ℕ) : Option St :=
  if (s.thread t).state = .ZOMBIE then some s
  else
    let s := s.setFlags t fun fl => { fl with interrupt := true }
    if (s.thread t).state = .RUNNING ∨ (s.thread t).state = .RUNNABLE then some s else s.wake t

/-! ## Waiting calls -/

/-- `if (me->flags & _ST_FL_INTERRUPT) { me->flags &= ~_ST_FL_INTERRUPT; errno = EINTR; return -1; }`,
or else `k`. -/
def interrupted (s : St) (me : ℕ) (k : St → Option St) : Option St :=
  if (s.thread me).flags.interrupt then
    some ((s.setFlags me fun fl => { fl with interrupt := false }).ret (.error .EINTR))
  else k s

/-- `st_poll`, up to the switch. -/
def poll (s : St) (pds : List Pollfd) (timeout : ℕ) : Option St :=
  match s.this_thread with
  | none => some (s.ret (.ok 0))
  | some me =>
    s.interrupted me fun s => do
      let pq := s.ev.next
      let s := s.setEv (s.ev.register me pds)
      let s ← s.addSleepQ me (if timeout ≠ ST_UTIME_NO_TIMEOUT then timeout else 1)
      some ((s.setState me .IO_WAIT).setPc (.poll me pq)).vpSchedule

/-- `st_poll`, after the switch. -/
def pollEnd (s : St) (me pq : ℕ) : Option St :=
  let n := if (s.ev.pollq pq).on_ioq then 0
    else ((s.ev.pollq pq).pds.countP fun pd => pd.revents ≠ Events.none : ℤ)
  let s := s.setEv (s.ev.unregister pq)
  s.interrupted me fun s => some (s.ret (.ok n))

/-- `st_usleep`. Nothing follows the switch. -/
def usleep (s : St) (usecs : ℕ) : Option St :=
  match s.this_thread with
  | none => some (s.ret (.ok 0)).vpSchedule
  | some me =>
    if (s.thread me).state = .ZOMBIE then some (s.ret (.ok 0)).vpSchedule
    else
      s.interrupted me fun s =>
        if usecs ≠ ST_UTIME_NO_TIMEOUT then
          if (s.thread me).state = .SLEEPING then some (s.ret (.ok 0)).vpSchedule
          else ((s.setState me .SLEEPING).addSleepQ me usecs).map fun s =>
            (s.ret (.ok 0)).vpSchedule
        else some ((s.setState me .SUSPENDED).ret (.ok 0)).vpSchedule

/-- The part of `st_cond_timedwait` up to the switch, for a caller `me` that is not interrupted. -/
def condBlock (s : St) (me : ℕ) (c : Cond) (timeout : ℕ) (pc : Pc) : Option St :=
  let s := s.setState me .COND_WAIT
  let s := s.setCondQ c (s.cond_q c ++ [me])
  (if timeout ≠ ST_UTIME_NO_TIMEOUT then s.addSleepQ me timeout else some s).map fun s =>
    (s.setPc pc).vpSchedule

/-- `st_cond_timedwait`, up to the switch. -/
def condTimedwait (s : St) (c : Cond) (timeout : ℕ) : Option St :=
  match s.this_thread with
  | none => some (s.ret (.ok 0))
  | some me => s.interrupted me fun s => s.condBlock me c timeout (.condWait me c)

/-- `st_cond_timedwait`, after the switch: the state, and the result. -/
def condUnblock (s : St) (me : ℕ) (c : Cond) : St × Res :=
  let s := s.setCondQ c ((s.cond_q c).erase me)
  let fl := (s.thread me).flags
  let rv : Res := if fl.timedout then .error .ETIME else .ok 0
  let rv : Res := if fl.interrupt then .error .EINTR else rv
  (s.setFlags me fun fl => { fl with timedout := false, interrupt := false }, rv)

/-- The loop of `_st_cond_signal`, over the links that remain. -/
def condSignalLoop (broadcast : Bool) : List ℕ → St → Option St
  | [], s => some s
  | t :: q, s =>
    if (s.thread t).state = .COND_WAIT then do
      let s ← s.wake t
      if broadcast then condSignalLoop broadcast q s else some s
    else condSignalLoop broadcast q s

/-- `_st_cond_signal`. -/
def condSignal (s : St) (c : Cond) (broadcast : Bool) : Option St :=
  condSignalLoop broadcast (s.cond_q c) s

/-- `st_cond_destroy` of a termination condition variable. -/
def condDestroy (s : St) (c : Cond) : St :=
  if s.cond_q c ≠ [] then s else s.note (.condFree c)

/-! ## Mutexes -/

/-- `lock->owner = owner`. -/
def setOwner (s : St) (m : ℕ) (owner : Option ℕ) : St :=
  { s with mutex := Function.update s.mutex m { s.mutex m with owner := owner } }

/-- Assign the wait queue of a mutex. -/
def setWaitQ (s : St) (m : ℕ) (wait_q : List ℕ) : St :=
  { s with mutex := Function.update s.mutex m { s.mutex m with wait_q := wait_q } }

/-- `st_mutex_lock`, up to the switch. -/
def mutexLock (s : St) (m : ℕ) : Option St :=
  match s.this_thread with
  | none => some (s.ret (.ok 0))
  | some me =>
    s.interrupted me fun s =>
      match (s.mutex m).owner with
      | none => some (((s.setOwner m (some me)).note (.locked m me)).ret (.ok 0))
      | some owner =>
        if owner = me then some (s.ret (.error .EDEADLK))
        else
          -- Put the caller on the mutex's wait queue.
          let s := (s.setState me .LOCK_WAIT).setWaitQ m ((s.mutex m).wait_q ++ [me])
          some ((s.note (.lockWait m me)).setPc (.lock me m)).vpSchedule

/-- `st_mutex_lock`, after the switch. -/
def mutexLockEnd (s : St) (me m : ℕ) : St :=
  let s := s.setWaitQ m ((s.mutex m).wait_q.erase me)
  if (s.thread me).flags.interrupt ∧ (s.mutex m).owner ≠ some me then
    (s.setFlags me fun fl => { fl with interrupt := false }).ret (.error .EINTR)
  else (s.note (.locked m me)).ret (.ok 0)

/-- The first thread in `LOCK_WAIT` among the links of a wait queue. -/
def firstLockWait (s : St) (m : ℕ) : Option ℕ :=
  (s.mutex m).wait_q.find? fun t => (s.thread t).state = .LOCK_WAIT

/-- `st_mutex_unlock`. -/
def mutexUnlock (s : St) (m : ℕ) : St :=
  if (s.mutex m).owner ≠ s.this_thread then s.ret (.error .EPERM)
  else
    let s := match s.this_thread with
      | some me => s.note (.unlocked m me)
      | none => s
    match s.firstLockWait m with
    | some t => (((s.setOwner m (some t)).setState t .RUNNABLE).addRunq t).ret (.ok 0)
    | none => (s.setOwner m none).ret (.ok 0)

/-- `st_mutex_trylock`. -/
def mutexTrylock (s : St) (m : ℕ) : St :=
  if (s.mutex m).owner ≠ none then s.ret (.error .EBUSY)
  else
    let s := match s.this_thread with
      | some me => s.note (.locked m me)
      | none => s
    (s.setOwner m s.this_thread).ret (.ok 0)

/-! ## Stacks, creation, and termination -/

/-- `_st_stack_free`: the free list's last link comes after the new one. -/
def stackFree (s : St) (t : ℕ) : St :=
  { s with free_stacks := s.free_stacks.dropLast ++ t :: s.free_stacks.getLast?.toList }

/-- `_st_stack_new`: the first stack of the free list that is big enough, or a new one. -/
def stackNew (s : St) (stack_size : ℤ) (ok : Bool) : Option (ℕ × St) :=
  match s.free_stacks.find? fun t => decide (stack_size ≤ s.stk_size t) with
  | some t => some (t, { s with free_stacks := s.free_stacks.erase t })
  | none =>
    if ok then
      some (s.segments, { s with
        stk_size := Function.update s.stk_size s.segments stack_size
        segments := s.segments + 1 })
    else none

/-- Which of the acquisitions of `st_thread_create` succeed: a new stack, if one is needed, the
fiber, and the termination condition variable. -/
structure Acquire where
  stack : Bool
  fiber : Bool
  cond : Bool
  deriving DecidableEq, Repr

/-- The adjusted stack size. -/
def stackSize (s : St) (stk_size : ℤ) : ℤ :=
  let stk_size := if stk_size = 0 then ST_DEFAULT_STACK_SIZE else stk_size
  (stk_size + s.pagesize - 1).tdiv s.pagesize * s.pagesize

/-- The part of `st_thread_create` that initializes the record on the stack `t`. -/
def initThread (s : St) (t : ℕ) (start : Pc) (ok : Bool) : St :=
  { s with
    thread := Function.update s.thread t
      { Thread.zero with context := if ok then some s.created else none, id := s.created }
    heap := s.heap.setNode t fun _ => HeapNode.zero
    fiber := Function.update s.fiber s.created ⟨start, t⟩
    life := Function.update s.life s.created ⟨0, 0, false⟩
    created := s.created + 1 }

/-- The end of `st_thread_create`: make the thread runnable. -/
def startThread (s : St) (t : ℕ) : St :=
  let s := s.setState t .RUNNABLE
  let s := { s with active_count := s.active_count + 1, threads := s.threads ++ [(s.thread t).id] }
  s.addRunq t

/-- `st_thread_create`, and the pointer that it returns. -/
def threadCreate (s : St) (start : Pc) (joinable : Bool) (stk_size : ℤ) (ok : Acquire) :
    St × Option ℕ :=
  match s.stackNew (s.stackSize stk_size) ok.stack with
  | none => (s, none)
  | some (t, s) =>
    let s := s.initThread t start ok.fiber
    if joinable then
      -- If the thread is joinable, allocate a termination condition variable.
      if ok.cond then
        let s := { s.setThread t fun th => { th with term := some (.term s.terms) } with
          cond_q := Function.update s.cond_q (.term s.terms) []
          terms := s.terms + 1 }
        (s.startThread t, some t)
      else (s.stackFree t, none)
    else (s.startThread t, some t)

/-- Where `st_thread_exit` returns: to the start function that called it, or to `_st_thread_main`,
which swaps out. -/
def exitReturn (s : St) (explicit : Bool) : St :=
  if explicit then (s.setLife s.running fun l => { l with back := true }).ret (.ok 0)
  else { s.setPc .out with running := 0 }

/-- The end of `st_thread_exit`: release the stack, and the last `_ST_SWITCH_CONTEXT`. -/
def exitFree (s : St) (t : ℕ) (explicit : Bool) : St :=
  let s :=
    if (s.thread t).flags.primordial then s
    else (s.stackFree t).setLife (s.thread t).id fun l => { l with freed := l.freed + 1 }
  (s.setPc (.exitEnd explicit)).switchContext t

/-- `st_thread_exit`, up to its first switch. `_st_thread_cleanup` changes nothing here. -/
def threadExit (s : St) (retval : ℤ) (explicit : Bool) : Option St :=
  match s.this_thread with
  | none => some (s.exitReturn explicit)
  | some t =>
    let s := s.setThread t fun th => { th with retval := retval }
    let s := { s with active_count := s.active_count - 1 }
    let s := s.setLife (s.thread t).id fun l => { l with exits := l.exits + 1 }
    let s := s.setState t .ZOMBIE
    match (s.thread t).term with
    | none => some (s.exitFree t explicit)
    | some c => do
      -- Put the thread on the zombie queue, and notify on its termination condition variable.
      let s := { s with zombie_q := s.zombie_q ++ [t] }
      let s ← s.condSignal c false
      some ((s.setPc (.exitTerm t explicit)).switchContext t)

/-- `st_thread_exit`, after its first switch. -/
def exitTermEnd (s : St) (t : ℕ) (explicit : Bool) : Option St :=
  match (s.thread t).term with
  | none => none
  | some c =>
    let s := s.condDestroy c
    let s := s.setThread t fun th => { th with term := none }
    some (s.exitFree t explicit)

/-- The loop of `st_thread_join` on the condition variable `c` of `thread`. For a caller that is not
a thread the wait returns at once, and the loop does not end unless `thread` is a zombie. -/
def joinLoop (s : St) (c : Cond) (thread : ℕ) : Option St :=
  if (s.thread thread).state = .ZOMBIE then
    let r := (s.thread thread).retval
    -- Remove the thread from the zombie queue and make it runnable.
    let s := s.setState thread .RUNNABLE
    let s := { s with zombie_q := s.zombie_q.erase thread }
    some (((s.addRunq thread).note (.joined s.running thread c r)).ret (.ok 0))
  else
    match s.this_thread with
    | none => none
    | some me =>
      s.interrupted me fun s => s.condBlock me c ST_UTIME_NO_TIMEOUT (.join me c thread)

/-- `st_thread_join`. -/
def threadJoin (s : St) (thread : ℕ) : Option St :=
  match (s.thread thread).term with
  | none => some (s.ret (.error .EINVAL))
  | some c =>
    if s.this_thread = some thread then some (s.ret (.error .EDEADLK))
    else if s.cond_q c ≠ [] then some (s.ret (.error .EINVAL))
    else s.joinLoop c thread

/-- `st_thread_join`, after the wait in its loop. -/
def joinEnd (s : St) (me : ℕ) (c : Cond) (thread : ℕ) : Option St :=
  match s.condUnblock me c with
  | (s, .error e) => some (s.ret (.error e))
  | (s, .ok _) => s.joinLoop c thread

/-! ## The idle thread -/

/-- The last statement of the loop of `_st_idle_thread_start`. -/
def idleSched (s : St) : Option St :=
  let me := s.idle_thread
  let s :=
    if (s.thread me).state ≠ .ZOMBIE ∧ (s.thread me).state ≠ .RUNNABLE then s.setState me .RUNNABLE
    else s
  if s.active_count ≤ 0 then s.threadExit (s.thread (s.fiber s.running).thd).retval false
  else some (s.setPc (.idle .dispatch)).vpSchedule

/-! ## Steps -/

/-- The calls of the library. -/
inductive Call where
  | poll (pds : List Pollfd) (timeout : ℕ)
  | usleep (usecs : ℕ)
  | condTimedwait (n : ℕ) (timeout : ℕ)
  | condSignal (n : ℕ)
  | condBroadcast (n : ℕ)
  | mutexLock (m : ℕ)
  | mutexTrylock (m : ℕ)
  | mutexUnlock (m : ℕ)
  | interrupt (t : ℕ)
  | create (joinable : Bool) (stk_size : ℤ) (ok : Acquire)
  | join (t : ℕ)
  | exit (retval : ℤ)
  /-- `st_idle_thread_run`, which only `main` may call. -/
  | idleRun

/-- What the running fiber does next. -/
inductive Label where
  /-- The program makes a call. -/
  | call (c : Call)
  /-- The start function returns. -/
  | ret (v : ℤ)
  /-- Go on, after a switch or at a statement of a loop. -/
  | resume
  /-- A dispatch pass, with what `select` returns for each group. -/
  | dispatch (outcomes : ℕ → SelectOutcome)
  /-- `_st_vp_check_clock`, with what `st_utime` returns. -/
  | clock (now : ℕ)

/-- A call, up to its return or its switch. -/
def call (s : St) : Call → Option St
  | .poll pds timeout => s.poll pds timeout
  | .usleep usecs => s.usleep usecs
  | .condTimedwait n timeout => s.condTimedwait (.user n) timeout
  | .condSignal n => (s.condSignal (.user n) false).map (·.ret (.ok 0))
  | .condBroadcast n => (s.condSignal (.user n) true).map (·.ret (.ok 0))
  | .mutexLock m => s.mutexLock m
  | .mutexTrylock m => some (s.mutexTrylock m)
  | .mutexUnlock m => some (s.mutexUnlock m)
  | .interrupt t => if t < s.segments then (s.threadInterrupt t).map (·.ret (.ok 0)) else none
  | .create joinable stk_size ok =>
    match s.threadCreate (.user (.ok 0)) joinable stk_size ok with
    | (s, none) => some (s.ret (.ok 0))
    | (s, some t) => some (s.ret (.ok (t + 1)))
  | .join t => if t < s.segments then s.threadJoin t else none
  | .exit retval => s.threadExit retval true
  | .idleRun => if s.running = 0 then some (s.setPc (.native .dispatch)) else none

/-- One step of the running fiber. -/
def step (s : St) (l : Label) : Option St :=
  match (s.fiber s.running).pc, l with
  | .user _, .call c => s.call c
  | .user _, .ret v =>
    -- `_st_thread_main` drops the value that the start function returns.
    if s.running = 0 then none
    else (s.note (.returned s.running v)).threadExit (s.thread (s.fiber s.running).thd).retval false
  | .poll me pq, .resume => s.pollEnd me pq
  | .condWait me c, .resume =>
    let (s, r) := s.condUnblock me c
    some (s.ret r)
  | .lock me m, .resume => some (s.mutexLockEnd me m)
  | .join me c thread, .resume => s.joinEnd me c thread
  | .exitTerm t explicit, .resume => s.exitTermEnd t explicit
  | .exitEnd explicit, .resume => some (s.exitReturn explicit)
  | .idle .dispatch, .dispatch outcomes =>
    if s.active_count ≤ 0 then none
    else (s.vpIdle outcomes).map (·.setPc (.idle .clock))
  | .idle .dispatch, .resume =>
    -- The loop ends, and the idle thread returns.
    if s.active_count ≤ 0 then s.threadExit (s.thread (s.fiber s.running).thd).retval false
    else none
  | .idle .clock, .clock now => (s.vpCheckClock now).map (·.setPc (.idle .sched))
  | .idle .sched, .resume => s.idleSched
  | .native .dispatch, .dispatch outcomes =>
    if s.active_count ≤ 0 then none
    else (s.vpIdle outcomes).map (·.setPc (.native .clock))
  | .native .dispatch, .resume => if s.active_count ≤ 0 then some (s.ret (.ok 0)) else none
  | .native .clock, .clock now => (s.vpCheckClock now).map (·.setPc (.native .sched))
  | .native .sched, .resume => some (s.setPc (.native .dispatch)).vpSchedule
  | _, _ => none

/-- The inversion of `step`: what the running fiber does, by the place that it is at. -/
inductive Goes (s s' : St) : Pc → Label → Prop where
  | call {r : Res} (c : Call) (h : s.call c = some s') : Goes s s' (.user r) (.call c)
  | ret {r : Res} (v : ℤ) (thread : s.running ≠ 0)
      (h : (s.note (.returned s.running v)).threadExit (s.thread (s.fiber s.running).thd).retval false =
        some s') : Goes s s' (.user r) (.ret v)
  | poll {me pq : ℕ} (h : s.pollEnd me pq = some s') : Goes s s' (.poll me pq) .resume
  | condWait {me : ℕ} {c : Cond} (h : s' = (s.condUnblock me c).1.ret (s.condUnblock me c).2) :
      Goes s s' (.condWait me c) .resume
  | lock {me m : ℕ} (h : s' = s.mutexLockEnd me m) : Goes s s' (.lock me m) .resume
  | join {me thread : ℕ} {c : Cond} (h : s.joinEnd me c thread = some s') :
      Goes s s' (.join me c thread) .resume
  | exitTerm {t : ℕ} {explicit : Bool} (h : s.exitTermEnd t explicit = some s') :
      Goes s s' (.exitTerm t explicit) .resume
  | exitEnd {explicit : Bool} (h : s' = s.exitReturn explicit) : Goes s s' (.exitEnd explicit) .resume
  | idleDispatch (outcomes : ℕ → SelectOutcome) (active : 0 < s.active_count) (s₁ : St)
      (h : s.vpIdle outcomes = some s₁) (eq : s' = s₁.setPc (.idle .clock)) :
      Goes s s' (.idle .dispatch) (.dispatch outcomes)
  | idleEnd (ended : s.active_count ≤ 0)
      (h : s.threadExit (s.thread (s.fiber s.running).thd).retval false = some s') :
      Goes s s' (.idle .dispatch) .resume
  | idleClock (now : ℕ) (s₁ : St) (h : s.vpCheckClock now = some s₁)
      (eq : s' = s₁.setPc (.idle .sched)) : Goes s s' (.idle .clock) (.clock now)
  | idleSched (h : s.idleSched = some s') : Goes s s' (.idle .sched) .resume
  | nativeDispatch (outcomes : ℕ → SelectOutcome) (active : 0 < s.active_count) (s₁ : St)
      (h : s.vpIdle outcomes = some s₁) (eq : s' = s₁.setPc (.native .clock)) :
      Goes s s' (.native .dispatch) (.dispatch outcomes)
  | nativeEnd (ended : s.active_count ≤ 0) (eq : s' = s.ret (.ok 0)) :
      Goes s s' (.native .dispatch) .resume
  | nativeClock (now : ℕ) (s₁ : St) (h : s.vpCheckClock now = some s₁)
      (eq : s' = s₁.setPc (.native .sched)) : Goes s s' (.native .clock) (.clock now)
  | nativeSched (eq : s' = (s.setPc (.native .dispatch)).vpSchedule) :
      Goes s s' (.native .sched) .resume

/-- Each step is one of those that its place allows. -/
theorem step_goes {s s' : St} {l : Label} {pc : Pc} (hpc : (s.fiber s.running).pc = pc)
    (h : s.step l = some s') : Goes s s' pc l := by
  subst hpc
  unfold step at h
  split at h
  · next hpc => exact hpc ▸ .call _ h
  · next hpc =>
    split_ifs at h with hmain
    exact hpc ▸ .ret _ hmain h
  · next hpc => exact hpc ▸ .poll h
  · next hpc => exact hpc ▸ .condWait (Option.some_inj.mp h).symm
  · next hpc => exact hpc ▸ .lock (Option.some_inj.mp h).symm
  · next hpc => exact hpc ▸ .join h
  · next hpc => exact hpc ▸ .exitTerm h
  · next hpc => exact hpc ▸ .exitEnd (Option.some_inj.mp h).symm
  · next hpc =>
    split_ifs at h with hactive
    obtain ⟨s₁, hs₁, hs'⟩ := Option.map_eq_some_iff.mp h
    exact hpc ▸ .idleDispatch _ (not_le.mp hactive) s₁ hs₁ hs'.symm
  · next hpc =>
    split_ifs at h with hended
    exact hpc ▸ .idleEnd hended h
  · next hpc =>
    obtain ⟨s₁, hs₁, hs'⟩ := Option.map_eq_some_iff.mp h
    exact hpc ▸ .idleClock _ s₁ hs₁ hs'.symm
  · next hpc => exact hpc ▸ .idleSched h
  · next hpc =>
    split_ifs at h with hactive
    obtain ⟨s₁, hs₁, hs'⟩ := Option.map_eq_some_iff.mp h
    exact hpc ▸ .nativeDispatch _ (not_le.mp hactive) s₁ hs₁ hs'.symm
  · next hpc =>
    split_ifs at h with hended
    exact hpc ▸ .nativeEnd hended (Option.some_inj.mp h).symm
  · next hpc =>
    obtain ⟨s₁, hs₁, hs'⟩ := Option.map_eq_some_iff.mp h
    exact hpc ▸ .nativeClock _ s₁ hs₁ hs'.symm
  · next hpc => exact hpc ▸ .nativeSched (Option.some_inj.mp h).symm
  · cases h

/-! ## The start -/

/-- Before `st_init`. -/
def blank (pagesize : ℤ) (last_clock : ℕ) : St where
  thread := fun _ => Thread.zero
  heap := ⟨fun _ => HeapNode.zero, none, 0⟩
  ev := Ev.init
  run_q := []
  zombie_q := []
  idle_thread := 0
  last_clock := last_clock
  pagesize := pagesize
  this_thread := none
  active_count := 0
  free_stacks := []
  stk_size := fun _ => 0
  segments := 0
  cond_q := fun _ => []
  terms := 0
  mutex := fun _ => ⟨none, []⟩
  fiber := fun _ => ⟨.user (.ok 0), 0⟩
  running := 0
  created := 1
  life := fun _ => ⟨0, 0, false⟩
  threads := []
  log := []

/-- The state in which `st_init` returns to `main`. -/
def init (pagesize : ℤ) (last_clock : ℕ) : St :=
  -- Create the idle thread.
  let s := ((blank pagesize last_clock).threadCreate (.idle .dispatch) false 0 ⟨true, true, true⟩).1
  let s := s.setFlags 0 fun _ => { Flags.zero with idle_thread := true }
  { s with active_count := s.active_count - 1, run_q := s.run_q.erase 0, threads := [] }

end St

end StWin
