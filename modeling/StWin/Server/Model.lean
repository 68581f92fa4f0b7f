import StWin.Lib.Runs
import Mathlib.Algebra.Order.Group.Unbundled.Int
import Mathlib.Data.List.Perm.Basic

/-!
# The threads of the example server

`src/examples/server.c` keeps a pool of threads for each of its listening sockets. A thread waits in
`st_accept`, handles a session, and waits again. The thread that has got a connection starts a spare
thread if too few are left, and terminates after its session if there are too many.

One virtual processor is a state `Vp`: the counters of `srv_socket`, and the place of each thread.
Only one thread runs at a time, and another one may run wherever a thread is in a call for input or
output, so a step is one thread's code from the return of such a call to the next one. What the calls
return comes with the label: a step is possible for each of the results, in any order of the threads.

The parameters are those of `set_thread_throttling`. Its products are of the C type `int`, and `none`
is an overflow. `st_getfdlimit` is not part of the sources, so its value is an argument.
-/

namespace StWin.Server

/-- `MAX_WAIT_THREADS_DEFAULT`. -/
def MAX_WAIT_THREADS_DEFAULT : ℤ := 8

/-- `FD_PER_THREAD`. -/
def FD_PER_THREAD : ℤ := 2

/-- The thread throttling parameters, for one listening socket. -/
structure Throttle where
  max_threads : ℤ
  max_wait_threads : ℤ
  min_wait_threads : ℤ
  deriving DecidableEq, Repr

/-- A product of two values of type `int`. -/
def mulInt (a b : ℤ) : Option ℤ :=
  if -2 ^ 31 ≤ a * b ∧ a * b < 2 ^ 31 then some (a * b) else none

/-- The part of `n` for each of `vp_count` processes, rounded up. -/
def perProcess (n vp_count : ℤ) : ℤ :=
  if n.tmod vp_count ≠ 0 then n.tdiv vp_count + 1 else n.tdiv vp_count

/-- `max_wait_threads` for all processes, before it is compared with `max_threads`. -/
def maxWaitThreads (th : Throttle) (vp_count : ℤ) : Option ℤ :=
  if th.max_wait_threads = 0 then mulInt MAX_WAIT_THREADS_DEFAULT vp_count
  else some th.max_wait_threads

/-- `max_threads` for all processes. -/
def maxThreads (th : Throttle) (fdlimit vp_count sk_count : ℤ) : Option ℤ :=
  if th.max_threads = 0 then
    (mulInt fdlimit vp_count).map fun fds => (fds.tdiv FD_PER_THREAD).tdiv sk_count
  else some th.max_threads

/-- `set_thread_throttling`. -/
def setThreadThrottling (th : Throttle) (fdlimit vp_count sk_count : ℤ) : Option Throttle := do
  -- The total values across all processes.
  let max_wait_threads ← maxWaitThreads th vp_count
  let max_threads ← maxThreads th fdlimit vp_count sk_count
  let max_wait_threads :=
    if max_wait_threads > max_threads then max_threads else max_wait_threads
  -- The values of one process.
  let max_wait_threads := perProcess max_wait_threads vp_count
  let max_threads := perProcess max_threads vp_count
  let min_wait_threads :=
    if th.min_wait_threads > max_wait_threads then max_wait_threads else th.min_wait_threads
  some ⟨max_threads, max_wait_threads, min_wait_threads⟩

/-- The counters of `struct socket_info`. -/
structure SocketInfo where
  wait_threads : ℤ
  busy_threads : ℤ
  rqst_count : ℤ
  deriving DecidableEq, Repr

/-- Where a thread of `handle_connections` is. -/
inductive Place where
  /-- It was created, and has not run yet. -/
  | start
  /-- In `st_accept`. -/
  | accept
  /-- In `handle_session` of the descriptor, in `st_read`. -/
  | read (cli_nfd : ℕ)
  /-- In `handle_session` of the descriptor, in `st_write`. -/
  | write (cli_nfd : ℕ)
  /-- It has returned. -/
  | done
  deriving DecidableEq, Repr

/-- A thread of `handle_connections`, with its argument. -/
structure Conn where
  i : ℕ
  place : Place
  deriving DecidableEq, Repr

/-- The state of a virtual processor. -/
structure Vp where
  throttle : Throttle
  srv_socket : ℕ → SocketInfo
  threads : List Conn
  /-- The client descriptors that are open. -/
  open_nfds : List ℕ
  /-- How often a spare thread could not be created. No step reads it. -/
  failed : ℕ → ℕ

namespace Vp

/-- `TOTAL_THREADS(i)`. -/
def totalThreads (s : Vp) (i : ℕ) : ℤ := (s.srv_socket i).wait_threads + (s.srv_socket i).busy_threads

/-- Assign to the counters of socket `i`. -/
def setSocket (s : Vp) (i : ℕ) (f : SocketInfo → SocketInfo) : Vp :=
  { s with srv_socket := Function.update s.srv_socket i (f (s.srv_socket i)) }

/-- `WAIT_THREADS(i) += d`. -/
def addWait (s : Vp) (i : ℕ) (d : ℤ) : Vp :=
  s.setSocket i fun sk => { sk with wait_threads := sk.wait_threads + d }

/-- `BUSY_THREADS(i) += d`. -/
def addBusy (s : Vp) (i : ℕ) (d : ℤ) : Vp :=
  s.setSocket i fun sk => { sk with busy_threads := sk.busy_threads + d }

/-- `RQST_COUNT(i)++`. -/
def addRqst (s : Vp) (i : ℕ) : Vp :=
  s.setSocket i fun sk => { sk with rqst_count := sk.rqst_count + 1 }

/-- The thread `t` goes to a place. -/
def setPlace (s : Vp) (t i : ℕ) (place : Place) : Vp := { s with threads := s.threads.set t ⟨i, place⟩ }

/-- `st_thread_create(handle_connections, (void*)i, 0, 0)`, and `WAIT_THREADS(i)++` if it succeeds. -/
def create (s : Vp) (i : ℕ) (ok : Bool) : Vp :=
  if ok then { s with threads := s.threads ++ [⟨i, .start⟩] : Vp }.addWait i 1
  else { s with failed := Function.update s.failed i (s.failed i + 1) }

/-- The test of the loop of `handle_connections`, and what follows the loop. -/
def whileTest (s : Vp) (t i : ℕ) : Vp :=
  if (s.srv_socket i).wait_threads ≤ s.throttle.max_wait_threads then s.setPlace t i .accept
  else (s.addWait i (-1)).setPlace t i .done

/-- `st_accept` returns a new descriptor, or `NULL`. The last argument is for `st_thread_create`. -/
def acceptReturns (s : Vp) (t i : ℕ) (cli_nfd : Option ℕ) (created : Bool) : Option Vp :=
  match cli_nfd with
  | none => some (s.whileTest t i)
  | some nfd =>
    if nfd ∈ s.open_nfds then none
    else
      let s := { s with open_nfds := nfd :: s.open_nfds }
      let s := (s.addWait i (-1)).addBusy i 1
      let s :=
        if (s.srv_socket i).wait_threads < s.throttle.min_wait_threads ∧
            s.totalThreads i < s.throttle.max_threads then
          -- Create another spare thread.
          s.create i created
        else s
      some (s.setPlace t i (.read nfd))

/-- `handle_session` returns. -/
def sessionReturns (s : Vp) (t i nfd : ℕ) : Vp :=
  -- `st_netfd_close`.
  let s := { s with open_nfds := s.open_nfds.erase nfd }
  ((s.addWait i 1).addBusy i (-1)).whileTest t i

end Vp

/-- What happens next on a virtual processor. -/
inductive Label where
  /-- A new thread runs. -/
  | run (t : ℕ)
  /-- `st_accept` returns in thread `t`. -/
  | accept (t : ℕ) (cli_nfd : Option ℕ) (created : Bool)
  /-- `st_read` returns in thread `t`, without an error or with one. -/
  | read (t : ℕ) (ok : Bool)
  /-- `st_write` returns in thread `t`, with the length of the response or not. -/
  | write (t : ℕ) (ok : Bool)
  deriving DecidableEq, Repr

/-- One step of one thread. -/
def Vp.step (s : Vp) : Label → Option Vp
  | .run t =>
    match s.threads[t]? with
    | some ⟨i, .start⟩ => some (s.whileTest t i)
    | _ => none
  | .accept t cli_nfd created =>
    match s.threads[t]? with
    | some ⟨i, .accept⟩ => s.acceptReturns t i cli_nfd created
    | _ => none
  | .read t ok =>
    match s.threads[t]? with
    | some ⟨i, .read nfd⟩ => if ok then some (s.setPlace t i (.write nfd)) else some (s.sessionReturns t i nfd)
    | _ => none
  | .write t ok =>
    match s.threads[t]? with
    | some ⟨i, .write nfd⟩ =>
      if ok then some ((s.addRqst i).sessionReturns t i nfd) else some (s.sessionReturns t i nfd)
    | _ => none

/-! ## The start -/

/-- The inner loop of `start_threads`: `n` threads for socket `i`, of which those are created that `ok`
says. -/
def startSocket (ok : ℕ → Bool) (i : ℕ) : ℕ → Vp → Vp
  | 0, s => s
  | n + 1, s => (startSocket ok i n s).create i (ok n)

/-- `start_threads`, for the first `sk_count` sockets. With no thread for a socket the process exits. -/
def startThreads (th : Throttle) (ok : ℕ → ℕ → Bool) : ℕ → Option Vp
  | 0 => some ⟨th, fun _ => ⟨0, 0, 0⟩, [], [], fun _ => 0⟩
  | i + 1 => do
    let s ← startThreads th ok i
    let s := s.setSocket i fun _ => ⟨0, 0, 0⟩
    let s := startSocket (ok i) i th.max_wait_threads.toNat s
    if (s.srv_socket i).wait_threads = 0 then none else some s

end StWin.Server
