import Mathlib.Data.Finset.Basic
import Mathlib.Data.Finset.Card
import Mathlib.Data.Int.Interval
import Mathlib.Logic.Function.Basic

/-!
# The `select` event system

`src/event.c` keeps, for each descriptor and each of the three events, a count of the `pollfd`
entries that wait for it, and groups the descriptors, `FD_SETSIZE` to a group, with three `fd_set`s
for each group. `Ev` is that state together with the I/O queue, whose elements are the `_st_pollq_t`
locals of the `st_poll` calls that are waiting; a `pollq` is named by a number that stands for its
address.

The blocks of code for `POLLIN`, `POLLOUT`, and `POLLPRI` differ only in the map and the set that
they use, and are one definition here, over `Kind`. An `fd_set` is a set of descriptors, and the
`libcstl` maps are finite maps from descriptors to counts. The part of a notification that concerns
the thread (`_ST_DEL_SLEEPQ`, the state, and `_ST_ADD_RUNQ`) reads nothing of this state: the loops
collect the pollqs that they notify, in order, and the scheduler's model wakes their threads.

A group index outside the table is recorded in `oob`. What the C code does through such a pointer
is not modelled.
-/

namespace StWin

/-- The values of `errno` that the library sets itself. -/
inductive Errno where
  | EINTR | ETIME | EBUSY | EINVAL | EPERM | EDEADLK
  deriving DecidableEq, Repr

/-- `FD_SETSIZE`, as `md.h` sets it. -/
def FD_SETSIZE : ℤ := 200

/-- The three events that `st_poll` waits for: `POLLIN`, `POLLOUT`, and `POLLPRI`. -/
inductive Kind where
  | read | write | excep
  deriving DecidableEq, Repr

/-- The bits of an `events` or `revents` field. -/
structure Events where
  pollin : Bool
  pollout : Bool
  pollpri : Bool
  /-- Any other bit, `POLLNVAL` among them. -/
  other : Bool
  deriving DecidableEq, Repr

namespace Events

/-- No bit is set. -/
def none : Events := ⟨false, false, false, false⟩

/-- `events & POLLIN`, and so on. -/
def has (e : Events) : Kind → Bool
  | .read => e.pollin
  | .write => e.pollout
  | .excep => e.pollpri

end Events

/-- `struct pollfd`. -/
structure Pollfd where
  fd : ℤ
  events : Events
  revents : Events
  deriving DecidableEq, Repr

/-- `_st_pollq_t`, without its links. -/
structure Pollq where
  /-- Polling thread. -/
  thread : ℕ
  /-- Array of poll descriptors. -/
  pds : List Pollfd
  /-- Is it on ioq? -/
  on_ioq : Bool
  deriving DecidableEq, Repr

/-- `struct _st_seldata`: one group of descriptors. -/
structure Seldata where
  index : ℕ
  maxfd : ℤ
  size : ℤ
  /-- `fd_read_set`, `fd_write_set`, and `fd_exception_set`. -/
  set : Kind → Finset ℤ

/-- `_st_seldata_new`, with its index. -/
def Seldata.new (index : ℕ) : Seldata := ⟨index, 0, 0, fun _ => ∅⟩

/-- The state of the event system. -/
structure Ev where
  /-- `_st_select_data`, of which the first `num` entries are allocated. -/
  data : ℕ → Seldata
  /-- `_st_select_num`. -/
  num : ℕ
  /-- `_st_select_fd_rmp`, `_st_select_fd_wmp`, and `_st_select_fd_emp`. -/
  cnt : Kind → ℤ → Option ℤ
  /-- `_ST_IOQ`. -/
  io_q : List ℕ
  pollq : ℕ → Pollq
  /-- The next pollq. -/
  next : ℕ
  /-- Some index into `_st_select_data` was outside the table. -/
  oob : Bool

/-- What `select` does to the sets of a group: overwrite them with their ready parts, or fail and
leave them. The failure carries whether `errno` is `EBADF`, and which descriptors `fcntl` then finds
bad (none, in a `WIN32` build, which does not call it). -/
inductive SelectOutcome where
  | ready (set : Kind → Finset ℤ)
  | error (ebadf : Bool) (bad : ℤ → Bool)

namespace Ev

/-- The state after `_st_select_init`. -/
def init : Ev where
  data := Seldata.new
  num := 0
  cnt := fun _ _ => none
  io_q := []
  pollq := fun _ => ⟨0, [], false⟩
  next := 0
  oob := false

/-! ## Counts and sets -/

/-- `_st_select_get_cnt`. -/
def getCnt (ev : Ev) (k : Kind) (fd : ℤ) : ℤ := (ev.cnt k fd).getD 0

/-- Store a count. -/
def setCnt (ev : Ev) (k : Kind) (fd c : ℤ) : Ev :=
  { ev with cnt := Function.update ev.cnt k (Function.update (ev.cnt k) fd (some c)) }

/-- `_ST_SELECT_ADD_CNT` with `val = 1`. -/
def addCnt (ev : Ev) (k : Kind) (fd : ℤ) : Ev :=
  match ev.cnt k fd with
  | none => ev.setCnt k fd 1
  | some c => ev.setCnt k fd (c + 1)

/-- `_st_select_del_cnt` with `val = 1`, and the value that it returns. -/
def delCnt (ev : Ev) (k : Kind) (fd : ℤ) : Ev × ℤ :=
  match ev.cnt k fd with
  -- A descriptor without a count is reported as unused.
  | none => (ev, 0)
  | some c => (ev.setCnt k fd (c - 1), c - 1)

/-- `_st_select_get_gfd`: C's division, which rounds towards zero. -/
def getGfd (fd : ℤ) : ℤ := (fd - 1).tdiv FD_SETSIZE

/-- Assign to the fields of group `gfd`. -/
def setData (ev : Ev) (gfd : ℤ) (f : Seldata → Seldata) : Ev :=
  if 0 ≤ gfd ∧ gfd < ev.num then
    { ev with data := Function.update ev.data gfd.toNat (f (ev.data gfd.toNat)) }
  else { ev with oob := true }

/-- `FD_SET` and `FD_CLR` on a set of group `gfd`. -/
def editSet (ev : Ev) (gfd : ℤ) (k : Kind) (f : Finset ℤ → Finset ℤ) : Ev :=
  ev.setData gfd fun d => { d with set := Function.update d.set k (f (d.set k)) }

/-- `_st_select_check_seldata`: grow the table to hold group `gfd`. -/
def checkSeldata (ev : Ev) (gfd : ℤ) : Ev :=
  if gfd < ev.num then ev
  else { ev with
    data := fun i => if i < ev.num then ev.data i else Seldata.new i
    num := gfd.toNat + 1 }

/-! ## Registration -/

/-- `if (pd->events & POLLIN) { FD_SET(..); _ST_SELECT_ADD_READ_CNT(..); }`, and its siblings. -/
def addKind (gfd : ℤ) (pd : Pollfd) (ev : Ev) (k : Kind) : Ev :=
  if pd.events.has k then (ev.editSet gfd k (insert pd.fd)).addCnt k pd.fd else ev

/-- The loop body of `_st_select_pollset_add`. -/
def addPd (ev : Ev) (pd : Pollfd) : Ev :=
  -- `continue`, for descriptor `0` as well.
  if pd.fd ≤ 0 ∨ pd.events = Events.none then ev
  else
    let gfd := getGfd pd.fd
    let ev := ev.checkSeldata gfd
    let ev := [Kind.read, .write, .excep].foldl (addKind gfd pd) ev
    ev.setData gfd fun d =>
      { d with maxfd := if d.maxfd < pd.fd then pd.fd else d.maxfd, size := d.size + 1 }

/-- `_st_select_pollset_add`. -/
def pollsetAdd (ev : Ev) (pds : List Pollfd) : Ev := pds.foldl addPd ev

/-- `if (events & POLLIN) { if (_ST_SELECT_CUT_READ_CNT(..) == 0) FD_CLR(..); }`, and its
siblings. -/
def cutKind (gfd : ℤ) (pd : Pollfd) (ev : Ev) (k : Kind) : Ev :=
  if pd.events.has k then
    let (ev, c) := ev.delCnt k pd.fd
    if c = 0 then ev.editSet gfd k (·.erase pd.fd) else ev
  else ev

/-- The three decrements for one entry. -/
def cutPd (ev : Ev) (gfd : ℤ) (pd : Pollfd) : Ev :=
  [Kind.read, .write, .excep].foldl (cutKind gfd pd) ev

/-- The loop body of `_st_select_pollset_del`. -/
def delPd (ev : Ev) (pd : Pollfd) : Ev :=
  let gfd := getGfd pd.fd
  if pd.fd ≤ 0 ∨ pd.events = Events.none ∨ (ev.num : ℤ) ≤ gfd then ev
  else (ev.cutPd gfd pd).setData gfd fun d => { d with size := d.size - 1 }

/-- `_st_select_pollset_del`. -/
def pollsetDel (ev : Ev) (pds : List Pollfd) : Ev := pds.foldl delPd ev

/-- The part of `st_poll` before the thread waits: `pollset_add`, then the pollq on the queue. -/
def register (ev : Ev) (thread : ℕ) (pds : List Pollfd) : Ev :=
  let ev := ev.pollsetAdd pds
  { ev with
    io_q := ev.io_q ++ [ev.next]
    pollq := Function.update ev.pollq ev.next ⟨thread, pds, true⟩
    next := ev.next + 1 }

/-- The part of `st_poll` after the wait: if the pollq is still on the queue, remove it. -/
def unregister (ev : Ev) (pq : ℕ) : Ev :=
  if (ev.pollq pq).on_ioq then
    ({ ev with io_q := ev.io_q.erase pq }).pollsetDel (ev.pollq pq).pds
  else ev

/-! ## Dispatch -/

/-- Take a pollq off the I/O queue, with the `revents` that were found. -/
def takeOff (ev : Ev) (pq : ℕ) (pds : List Pollfd) : Ev :=
  { ev with
    io_q := ev.io_q.erase pq
    pollq := Function.update ev.pollq pq { ev.pollq pq with pds := pds, on_ioq := false } }

/-- Only the `revents` that were found. -/
def setRevents (ev : Ev) (pq : ℕ) (pds : List Pollfd) : Ev :=
  { ev with pollq := Function.update ev.pollq pq { ev.pollq pq with pds := pds } }

/-- The `revents` of one entry after a successful `select` on the sets `set`. -/
def readyPd (set : Kind → Finset ℤ) (pd : Pollfd) : Pollfd :=
  -- `continue`: the `revents` of the caller stay.
  if pd.fd ∉ set .read ∧ pd.fd ∉ set .write ∧ pd.fd ∉ set .excep then pd
  else
    { pd with revents :=
      ⟨pd.events.pollin && decide (pd.fd ∈ set .read), pd.events.pollout && decide (pd.fd ∈ set .write),
        pd.events.pollpri && decide (pd.fd ∈ set .excep), false⟩ }

/-- An entry for which the loop of `_st_select_dispatch_once` sets `notify`. -/
def isReady (set : Kind → Finset ℤ) (pd : Pollfd) : Bool :=
  (pd.events.pollin && decide (pd.fd ∈ set .read)) ||
    (pd.events.pollout && decide (pd.fd ∈ set .write)) ||
    (pd.events.pollpri && decide (pd.fd ∈ set .excep))

/-- The decrements for one entry of a pollq that is notified. -/
def notifyPd (ev : Ev) (pd : Pollfd) : Ev :=
  let gfd := getGfd pd.fd
  -- Unlike in `_st_select_pollset_del`, `size` stays.
  if (ev.num : ℤ) ≤ gfd then ev else ev.cutPd gfd pd

/-- The loop body of the notification in `_st_select_dispatch_once` of group `i`, with the pollqs
notified so far. -/
def notifyPq (i : ℕ) (acc : Ev × List ℕ) (pq : ℕ) : Ev × List ℕ :=
  let (ev, woken) := acc
  let pds := (ev.pollq pq).pds
  let set := (ev.data i).set
  let pds' := pds.map (readyPd set)
  if pds.any (isReady set) then ((pds'.foldl notifyPd (ev.takeOff pq pds')), woken ++ [pq])
  else (ev.setRevents pq pds', woken)

/-- The `revents` of one entry in `_st_select_find_bad_fd`. -/
def badPd (bad : ℤ → Bool) (pd : Pollfd) : Pollfd :=
  if pd.events ≠ Events.none ∧ bad pd.fd then
    { pd with revents := { Events.none with other := true } }
  else { pd with revents := Events.none }

/-- The decrements for one entry of a pollq with a bad descriptor. -/
def badCutPd (ev : Ev) (pd : Pollfd) : Ev :=
  let gfd := getGfd pd.fd
  -- This copy grows the table, and counts the descriptors that are removed into `maxfd`.
  let ev := ev.checkSeldata gfd
  let ev := ev.setData gfd fun d => { d with maxfd := if d.maxfd < pd.fd then pd.fd else d.maxfd }
  ev.cutPd gfd pd

/-- The loop body of `_st_select_find_bad_fd`, with the pollqs notified so far. -/
def badPq (bad : ℤ → Bool) (acc : Ev × List ℕ) (pq : ℕ) : Ev × List ℕ :=
  let (ev, woken) := acc
  let pds := (ev.pollq pq).pds
  let pds' := pds.map (badPd bad)
  if pds.any fun pd => decide (pd.events ≠ Events.none) && bad pd.fd then
    ((pds'.foldl badCutPd (ev.takeOff pq pds')), woken ++ [pq])
  else (ev.setRevents pq pds', woken)

/-- `_st_select_find_bad_fd`. -/
def findBadFd (ev : Ev) (bad : ℤ → Bool) : Ev × List ℕ :=
  -- `_ST_SELECT_MAX_OSFD` of each group.
  let ev := { ev with
    data := fun i => if i < ev.num then { ev.data i with maxfd := 0 } else ev.data i }
  ev.io_q.foldl (badPq bad) (ev, [])

/-- `select` on the sets of group `i`: the sets are overwritten. -/
def overwrite (ev : Ev) (i : ℕ) (ready : Kind → Finset ℤ) : Ev :=
  { ev with
    data := Function.update ev.data i
      { ev.data i with set := fun k => (ev.data i).set k ∩ ready k } }

/-- The number of descriptors in the sets of group `i`: the result of `select`. -/
def nfd (ev : Ev) (i : ℕ) : ℕ :=
  ((ev.data i).set .read).card + ((ev.data i).set .write).card + ((ev.data i).set .excep).card

/-- `_st_select_dispatch_once` of group `i`, with the pollqs that it notifies. -/
def dispatchOnce (ev : Ev) (i : ℕ) (outcome : SelectOutcome) : Ev × List ℕ :=
  if (ev.data i).size ≤ 0 ∨ (ev.data i).maxfd ≤ 0 then (ev, [])
  else
    match outcome with
    | .ready set =>
      -- `select` is given the sets themselves: what it takes out is not put back.
      let ev := ev.overwrite i set
      if 0 < ev.nfd i then ev.io_q.foldl (notifyPq i) (ev, []) else (ev, [])
    | .error ebadf bad => if ebadf then ev.findBadFd bad else (ev, [])

/-- The loop body of `_st_select_dispatch`, with the pollqs notified so far. -/
def dispatchGroup (outcomes : ℕ → SelectOutcome) (acc : Ev × List ℕ) (i : ℕ) : Ev × List ℕ :=
  let (ev, woken) := acc.1.dispatchOnce i (outcomes i)
  (ev, acc.2 ++ woken)

/-- `_st_select_dispatch`, with the pollqs that it notifies. The groups that the pass itself adds
are empty and `_st_select_dispatch_once` skips them. -/
def dispatch (ev : Ev) (outcomes : ℕ → SelectOutcome) : Ev × List ℕ :=
  (List.range ev.num).foldl (dispatchGroup outcomes) (ev, [])

/-- `_st_select_fd_close`. -/
def fdClose (ev : Ev) (fd : ℤ) : Except Errno Unit :=
  if (ev.num : ℤ) ≤ getGfd fd then .ok ()
  else if 0 < ev.getCnt .read fd ∨ 0 < ev.getCnt .write fd ∨ 0 < ev.getCnt .excep fd then
    .error .EBUSY
  else .ok ()

end Ev

end StWin
