import StWin.Lib.Clist
import StWin.Sched.Reach

/-!
# The circular lists of the scheduler

In `src/common.h` a queue is a circular list through `_st_clist_t` fields: the `links` of a thread are
for the run queue and the zombie queue, its `wait_links` for the wait queues, a pollq has links for the
I/O queue, and a stack for the free list. The state `St` has lists in their place. Here the accesses
that the functions of the library make to these fields are written down: for each function of the
model there is a list of accesses, in the order of the source, with the state in which it is called,
and `St.accesses` is what one step does. Links that are read are given with the nodes to which they
lead on the lists of `St`, since the program goes on according to what it reads.
-/

namespace StWin

open Clist

/-- The heads of the lists. -/
inductive QHead where
  | runq | ioq | zombieq | freeStacks
  /-- `cvar->wait_q`. -/
  | cond (c : Cond)
  /-- `lock->wait_q`. -/
  | mutex (m : ℕ)
  deriving DecidableEq, Repr

/-- The fields that are linked. -/
inductive QElem where
  /-- `thread->links`. -/
  | links (t : ℕ)
  /-- `thread->wait_links`. -/
  | waitLinks (t : ℕ)
  /-- `pq.links`. -/
  | pollq (pq : ℕ)
  /-- `stack->links`. -/
  | stack (t : ℕ)
  deriving DecidableEq, Repr

/-- An access to a field of a list. -/
abbrev Access := Acc QHead QElem

namespace St

/-- The lists of a state, with their fields. A termination condition variable exists from its
`st_cond_new` on. -/
def queue (s : St) : QHead → Option (List QElem)
  | .runq => some (s.run_q.map .links)
  | .ioq => some (s.ev.io_q.map .pollq)
  | .zombieq => some (s.zombie_q.map .links)
  | .freeStacks => some (s.free_stacks.map .stack)
  | .cond (.user n) => some ((s.cond_q (.user n)).map .waitLinks)
  | .cond (.term n) => if n < s.terms then some ((s.cond_q (.term n)).map .waitLinks) else none
  | .mutex m => some ((s.mutex m).wait_q.map .waitLinks)

/-! ## The queues of the scheduler -/

/-- `_st_vp_schedule`. -/
def vpScheduleLinks (s : St) : List Access :=
  .first .runq (node .runq (s.run_q.map .links)) ::
    ((match s.run_q with
      | [] => []
      | t :: _ => [.first .runq (.inr (.links t)), .remove .runq (.links t)]) ++
      (let (thread, _) := s.nextThread
        if s.this_thread = some thread ∧ thread ≠ s.idle_thread then [.append (.links thread) .runq]
        else []))

/-- The loop of `_st_vp_check_clock`. -/
def checkClockLinks (now : ℕ) : ℕ → St → List Access
  | 0, _ => []
  | fuel + 1, s =>
    match s.heap.sleep_q with
    | none => []
    | some t =>
      if now < (s.heap.node t).due then []
      else
        match s.delSleepQ t with
        | none => []
        | some s =>
          let s :=
            if (s.thread t).state = .COND_WAIT then
              s.setFlags t fun fl => { fl with timedout := true }
            else s
          .append (.links t) .runq :: checkClockLinks now fuel ((s.setState t .RUNNABLE).addRunq t)

/-- A loop over the I/O queue, at the nodes that remain, with the loop body `f`: `q->next` is read after
the body, which may have taken the pollq off and made its thread runnable. -/
def ioLoopLinks (f : Ev × List ℕ → ℕ → Ev × List ℕ) : Ev → List ℕ → List Access
  | _, [] => []
  | ev, pq :: q =>
    let (ev', woken) := f (ev, []) pq
    (if woken = [] then []
      else [.remove .ioq (.pollq pq), .append (.links (ev.pollq pq).thread) .runq]) ++
      .succ .ioq (.pollq pq) (node .ioq (q.map .pollq)) :: ioLoopLinks f ev' q

/-- A loop over the I/O queue. -/
def ioWalkLinks (f : Ev × List ℕ → ℕ → Ev × List ℕ) (ev : Ev) : List Access :=
  .first .ioq (node .ioq (ev.io_q.map .pollq)) :: ioLoopLinks f ev ev.io_q

/-- `_st_select_dispatch_once` of group `i`. -/
def dispatchOnceLinks (ev : Ev) (i : ℕ) (outcome : SelectOutcome) : List Access :=
  if (ev.data i).size ≤ 0 ∨ (ev.data i).maxfd ≤ 0 then []
  else
    match outcome with
    | .ready set =>
      let ev := ev.overwrite i set
      if 0 < ev.nfd i then ioWalkLinks (Ev.notifyPq i) ev else []
    | .error ebadf bad =>
      if ebadf then
        ioWalkLinks (Ev.badPq bad) { ev with
          data := fun i => if i < ev.num then { ev.data i with maxfd := 0 } else ev.data i }
      else []

/-- The loop of `_st_select_dispatch`, over the groups that remain. -/
def dispatchLinks (outcomes : ℕ → SelectOutcome) : Ev → List ℕ → List Access
  | _, [] => []
  | ev, i :: is =>
    dispatchOnceLinks ev i (outcomes i) ++
      dispatchLinks outcomes (ev.dispatchOnce i (outcomes i)).1 is

/-- `st_thread_interrupt`. -/
def threadInterruptLinks (s : St) (t : ℕ) : List Access :=
  if (s.thread t).state = .ZOMBIE ∨ (s.thread t).state = .RUNNING ∨ (s.thread t).state = .RUNNABLE then
    []
  else [.append (.links t) .runq]

/-! ## Waiting calls -/

/-- What a call does that returns at once if the caller is interrupted. -/
def interruptedLinks (s : St) (me : ℕ) (k : St → List Access) : List Access :=
  if (s.thread me).flags.interrupt then [] else k s

/-- `st_poll`, up to the switch. -/
def pollLinks (s : St) (pds : List Pollfd) (timeout : ℕ) : List Access :=
  match s.this_thread with
  | none => []
  | some me =>
    s.interruptedLinks me fun s =>
      let pq := s.ev.next
      let s := s.setEv (s.ev.register me pds)
      match s.addSleepQ me (if timeout ≠ ST_UTIME_NO_TIMEOUT then timeout else 1) with
      | none => []
      | some s => .append (.pollq pq) .ioq :: ((s.setState me .IO_WAIT).setPc (.poll me pq)).vpScheduleLinks

/-- `st_poll`, after the switch. -/
def pollEndLinks (s : St) (pq : ℕ) : List Access :=
  if (s.ev.pollq pq).on_ioq then [.remove .ioq (.pollq pq)] else []

/-- `st_usleep`. -/
def usleepLinks (s : St) (usecs : ℕ) : List Access :=
  match s.this_thread with
  | none => (s.ret (.ok 0)).vpScheduleLinks
  | some me =>
    if (s.thread me).state = .ZOMBIE then (s.ret (.ok 0)).vpScheduleLinks
    else
      s.interruptedLinks me fun s =>
        if usecs ≠ ST_UTIME_NO_TIMEOUT then
          if (s.thread me).state = .SLEEPING then (s.ret (.ok 0)).vpScheduleLinks
          else
            match (s.setState me .SLEEPING).addSleepQ me usecs with
            | none => []
            | some s => (s.ret (.ok 0)).vpScheduleLinks
        else ((s.setState me .SUSPENDED).ret (.ok 0)).vpScheduleLinks

/-- `st_cond_timedwait`, up to the switch. -/
def condBlockLinks (s : St) (me : ℕ) (c : Cond) (timeout : ℕ) (pc : Pc) : List Access :=
  let s := s.setState me .COND_WAIT
  let s := s.setCondQ c (s.cond_q c ++ [me])
  match if timeout ≠ ST_UTIME_NO_TIMEOUT then s.addSleepQ me timeout else some s with
  | none => []
  | some s => .append (.waitLinks me) (.cond c) :: (s.setPc pc).vpScheduleLinks

/-- The loop of `_st_cond_signal`, over the links that remain. -/
def condLoopLinks (c : Cond) (broadcast : Bool) : List ℕ → St → List Access
  | [], _ => []
  | t :: q, s =>
    if (s.thread t).state = .COND_WAIT then
      match s.wake t with
      | none => []
      | some s =>
        .append (.links t) .runq ::
          (if broadcast then
            .succ (.cond c) (.waitLinks t) (node (.cond c) (q.map .waitLinks)) ::
              condLoopLinks c broadcast q s
          else [])
    else
      .succ (.cond c) (.waitLinks t) (node (.cond c) (q.map .waitLinks)) :: condLoopLinks c broadcast q s

/-- `_st_cond_signal`. -/
def condSignalLinks (s : St) (c : Cond) (broadcast : Bool) : List Access :=
  .first (.cond c) (node (.cond c) ((s.cond_q c).map .waitLinks)) ::
    condLoopLinks c broadcast (s.cond_q c) s

/-- `cvar->wait_q.next != &cvar->wait_q`. -/
def condTestLinks (s : St) (c : Cond) : List Access :=
  [.first (.cond c) (node (.cond c) ((s.cond_q c).map .waitLinks))]

/-- `st_mutex_lock`, up to the switch. -/
def mutexLockLinks (s : St) (m : ℕ) : List Access :=
  match s.this_thread with
  | none => []
  | some me =>
    s.interruptedLinks me fun s =>
      match (s.mutex m).owner with
      | none => []
      | some owner =>
        if owner = me then []
        else
          let s := (s.setState me .LOCK_WAIT).setWaitQ m ((s.mutex m).wait_q ++ [me])
          .append (.waitLinks me) (.mutex m) ::
            ((s.note (.lockWait m me)).setPc (.lock me m)).vpScheduleLinks

/-- The loop of `st_mutex_unlock`, over the links that remain. -/
def unlockLoopLinks (s : St) (m : ℕ) : List ℕ → List Access
  | [] => []
  | t :: q =>
    if (s.thread t).state = .LOCK_WAIT then [.append (.links t) .runq]
    else .succ (.mutex m) (.waitLinks t) (node (.mutex m) (q.map .waitLinks)) :: s.unlockLoopLinks m q

/-- `st_mutex_unlock`. -/
def mutexUnlockLinks (s : St) (m : ℕ) : List Access :=
  if (s.mutex m).owner ≠ s.this_thread then []
  else
    .first (.mutex m) (node (.mutex m) ((s.mutex m).wait_q.map .waitLinks)) ::
      s.unlockLoopLinks m (s.mutex m).wait_q

/-! ## Stacks, creation, and termination -/

/-- `_st_stack_free`. -/
def stackFreeLinks (s : St) (t : ℕ) : List Access :=
  .last .freeStacks (lastNode .freeStacks (s.free_stacks.map .stack)) ::
    match s.free_stacks.getLast? with
    | none => [.append (.stack t) .freeStacks]
    | some u => [.before (.stack t) .freeStacks (.stack u)]

/-- The loop of `_st_stack_new`, over the links that remain. -/
def stackLoopLinks (s : St) (stack_size : ℤ) : List ℕ → List Access
  | [] => []
  | t :: q =>
    if stack_size ≤ s.stk_size t then [.remove .freeStacks (.stack t), .clear (.stack t)]
    else .succ .freeStacks (.stack t) (node .freeStacks (q.map .stack)) :: s.stackLoopLinks stack_size q

/-- `_st_stack_new`. The links of a new stack are those that `calloc` leaves. -/
def stackNewLinks (s : St) (stack_size : ℤ) (ok : Bool) : List Access :=
  .first .freeStacks (node .freeStacks (s.free_stacks.map .stack)) ::
    (s.stackLoopLinks stack_size s.free_stacks ++
      if (s.free_stacks.find? fun t => decide (stack_size ≤ s.stk_size t)) = none ∧ ok = true then
        [.clear (.stack s.segments)]
      else [])

/-- `st_thread_create`. -/
def threadCreateLinks (s : St) (start : Pc) (joinable : Bool) (stk_size : ℤ) (ok : Acquire) :
    List Access :=
  s.stackNewLinks (s.stackSize stk_size) ok.stack ++
    match s.stackNew (s.stackSize stk_size) ok.stack with
    | none => []
    | some (t, s) =>
      -- `memset(thread, 0, sizeof(_st_thread_t))`.
      .clear (.links t) :: .clear (.waitLinks t) ::
        if joinable then
          if ok.cond then [.init (.cond (.term s.terms)), .append (.links t) .runq]
          else (s.initThread t start ok.fiber).stackFreeLinks t
        else [.append (.links t) .runq]

/-- The end of `st_thread_exit`. -/
def exitFreeLinks (s : St) (t : ℕ) : List Access :=
  if (s.thread t).flags.primordial then [] else s.stackFreeLinks t

/-- `st_thread_exit`, up to its first switch. -/
def threadExitLinks (s : St) (retval : ℤ) : List Access :=
  match s.this_thread with
  | none => []
  | some t =>
    let s := s.setThread t fun th => { th with retval := retval }
    let s := { s with active_count := s.active_count - 1 }
    let s := s.setLife (s.thread t).id fun l => { l with exits := l.exits + 1 }
    let s := s.setState t .ZOMBIE
    match (s.thread t).term with
    | none => s.exitFreeLinks t
    | some c =>
      let s := { s with zombie_q := s.zombie_q ++ [t] }
      .append (.links t) .zombieq :: s.condSignalLinks c false

/-- `st_thread_exit`, after its first switch. -/
def exitTermEndLinks (s : St) (t : ℕ) : List Access :=
  match (s.thread t).term with
  | none => []
  | some c => s.condTestLinks c ++ s.exitFreeLinks t

/-- The loop of `st_thread_join`. -/
def joinLoopLinks (s : St) (c : Cond) (thread : ℕ) : List Access :=
  if (s.thread thread).state = .ZOMBIE then
    [.remove .zombieq (.links thread), .append (.links thread) .runq]
  else
    match s.this_thread with
    | none => []
    | some me =>
      s.interruptedLinks me fun s => s.condBlockLinks me c ST_UTIME_NO_TIMEOUT (.join me c thread)

/-- `st_thread_join`. -/
def threadJoinLinks (s : St) (thread : ℕ) : List Access :=
  match (s.thread thread).term with
  | none => []
  | some c =>
    if s.this_thread = some thread then []
    else s.condTestLinks c ++ if s.cond_q c ≠ [] then [] else s.joinLoopLinks c thread

/-- `st_thread_join`, after the wait in its loop. -/
def joinEndLinks (s : St) (me : ℕ) (c : Cond) (thread : ℕ) : List Access :=
  .remove (.cond c) (.waitLinks me) ::
    match s.condUnblock me c with
    | (_, .error _) => []
    | (s, .ok _) => s.joinLoopLinks c thread

/-! ## Steps -/

/-- The last statement of the loop of `_st_idle_thread_start`. -/
def idleSchedLinks (s : St) : List Access :=
  let me := s.idle_thread
  let s :=
    if (s.thread me).state ≠ .ZOMBIE ∧ (s.thread me).state ≠ .RUNNABLE then s.setState me .RUNNABLE
    else s
  if s.active_count ≤ 0 then s.threadExitLinks (s.thread (s.fiber s.running).thd).retval
  else (s.setPc (.idle .dispatch)).vpScheduleLinks

/-- A call, up to its return or its switch. -/
def callLinks (s : St) : Call → List Access
  | .poll pds timeout => s.pollLinks pds timeout
  | .usleep usecs => s.usleepLinks usecs
  | .condTimedwait n timeout =>
    match s.this_thread with
    | none => []
    | some me =>
      s.interruptedLinks me fun s => s.condBlockLinks me (.user n) timeout (.condWait me (.user n))
  | .condSignal n => s.condSignalLinks (.user n) false
  | .condBroadcast n => s.condSignalLinks (.user n) true
  | .mutexLock m => s.mutexLockLinks m
  | .mutexTrylock _ => []
  | .mutexUnlock m => s.mutexUnlockLinks m
  | .interrupt t => s.threadInterruptLinks t
  | .create joinable stk_size ok => s.threadCreateLinks (.user (.ok 0)) joinable stk_size ok
  | .join t => s.threadJoinLinks t
  | .exit retval => s.threadExitLinks retval
  | .idleRun => []

/-- The accesses of one step. -/
def accesses (s : St) (l : Label) : List Access :=
  match (s.fiber s.running).pc, l with
  | .user _, .call c => s.callLinks c
  | .user _, .ret v =>
    (s.note (.returned s.running v)).threadExitLinks (s.thread (s.fiber s.running).thd).retval
  | .poll _ pq, .resume => s.pollEndLinks pq
  | .condWait me c, .resume => [.remove (.cond c) (.waitLinks me)]
  | .lock me m, .resume => [.remove (.mutex m) (.waitLinks me)]
  | .join me c thread, .resume => s.joinEndLinks me c thread
  | .exitTerm t _, .resume => s.exitTermEndLinks t
  | .idle .dispatch, .dispatch outcomes => dispatchLinks outcomes s.ev (List.range s.ev.num)
  | .idle .dispatch, .resume => s.threadExitLinks (s.thread (s.fiber s.running).thd).retval
  | .idle .clock, .clock now =>
    checkClockLinks now (s.heap.sleepq_size + 1) { s with last_clock := now }
  | .idle .sched, .resume => s.idleSchedLinks
  | .native .dispatch, .dispatch outcomes => dispatchLinks outcomes s.ev (List.range s.ev.num)
  | .native .clock, .clock now =>
    checkClockLinks now (s.heap.sleepq_size + 1) { s with last_clock := now }
  | .native .sched, .resume => (s.setPc (.native .dispatch)).vpScheduleLinks
  | _, _ => []

end St

end StWin
