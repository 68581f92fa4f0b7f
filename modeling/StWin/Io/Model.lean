import StWin.Lib.Runs
import Mathlib.Algebra.Group.Nat.Defs
import Mathlib.Data.Int.Notation
import Mathlib.Data.Nat.Notation
import Mathlib.Logic.Function.Basic

/-!
# The transfer functions

`st_read`, `st_read_fully`, `st_write`, `st_recvfrom`, and `st_sendto` of `src/io_win.c`: each calls
the socket until the call succeeds or fails for good, and waits for the descriptor in between, in
`st_netfd_poll`. The five loops differ in what they do with a call that has moved octets, and are one
definition here otherwise.

What the socket and `st_poll` return are the labels of the steps. `errno` holds the numbers of the
Microsoft runtime, since `_st_GetError` passes error codes of the system on as they are.
-/

namespace StWin.Io

/-! ## Error codes -/

/-- The call was interrupted. -/
def EINTR : ℤ := 4

/-- The descriptor is not open. -/
def EBADF : ℤ := 9

/-- The resource is not available now. -/
def EAGAIN : ℤ := 11

/-- Permission was denied. -/
def EACCES : ℤ := 13

/-- The address is bad. -/
def EFAULT : ℤ := 14

/-- An argument is not valid. -/
def EINVAL : ℤ := 22

/-- The process has too many descriptors. -/
def EMFILE : ℤ := 24

/-- The address is in use. -/
def EADDRINUSE : ℤ := 100

/-- The address is not available. -/
def EADDRNOTAVAIL : ℤ := 101

/-- The connection was aborted. -/
def ECONNABORTED : ℤ := 106

/-- The connection was refused. -/
def ECONNREFUSED : ℤ := 107

/-- The connection was reset. -/
def ECONNRESET : ℤ := 108

/-- A destination address is required. -/
def EDESTADDRREQ : ℤ := 109

/-- The host is unreachable. -/
def EHOSTUNREACH : ℤ := 110

/-- The socket is connected already. -/
def EISCONN : ℤ := 113

/-- The message is too long. -/
def EMSGSIZE : ℤ := 115

/-- The protocol is not available. -/
def ENOPROTOOPT : ℤ := 123

/-- The socket is not connected. -/
def ENOTCONN : ℤ := 126

/-- The descriptor is not that of a socket. -/
def ENOTSOCK : ℤ := 128

/-- The operation is not supported. -/
def EOPNOTSUPP : ℤ := 130

/-- The protocol does not fit the socket. -/
def EPROTOTYPE : ℤ := 136

/-- The timeout of a call of the library has expired. -/
def ETIME : ℤ := 137

/-- The connection has timed out. -/
def ETIMEDOUT : ℤ := 138

/-- The call would block. -/
def EWOULDBLOCK : ℤ := 140

/-- The first error code of Winsock. -/
def WSABASEERR : ℤ := 10000

/-- The error codes of Winsock that `_st_GetError` translates, and what to. -/
def wsaErrors : List (ℤ × ℤ) :=
  [(10004, EINTR), (10009, EBADF), (10013, EACCES), (10014, EFAULT), (10022, EINVAL),
   (10024, EMFILE),
   -- `WSAEWOULDBLOCK`, `WSAEINPROGRESS`, and `WSAEALREADY`.
   (10035, EAGAIN), (10036, EINTR), (10037, EINTR),
   (10038, ENOTSOCK), (10039, EDESTADDRREQ), (10040, EMSGSIZE), (10041, EPROTOTYPE),
   (10042, ENOPROTOOPT), (10045, EOPNOTSUPP), (10048, EADDRINUSE), (10049, EADDRNOTAVAIL),
   (10053, ECONNABORTED), (10054, ECONNRESET), (10056, EISCONN), (10057, ENOTCONN),
   (10060, ETIMEDOUT), (10061, ECONNREFUSED), (10065, EHOSTUNREACH)]

/-- `WSAEWOULDBLOCK`. -/
def WSAEWOULDBLOCK : ℤ := 10035

/-- `_st_GetError(0)`, where `GetLastError` returns `syserr`. -/
def getError (syserr : ℤ) : ℤ :=
  if syserr < WSABASEERR then syserr else (wsaErrors.lookup syserr).getD syserr

/-- `_IO_NOT_READY_ERROR`. -/
def NotReady (errno : ℤ) : Prop := errno = EAGAIN ∨ errno = EWOULDBLOCK

instance (errno : ℤ) : Decidable (NotReady errno) := inferInstanceAs (Decidable (_ ∨ _))

/-! ## The wait -/

/-- How a call of `st_poll` on one descriptor ends. -/
inductive Polled where
  /-- It returns `-1`. -/
  | failed (errno : ℤ)
  /-- There is no current thread, and it returns `0` at once. -/
  | noThread
  /-- The timeout expired while the descriptor was not ready, and it returns `0`. -/
  | expired
  /-- The descriptor is ready. `POLLNVAL` may be set in its `revents`. -/
  | ready (nval : Bool)
  deriving DecidableEq

/-- The value that `st_poll` returns. -/
def Polled.value : Polled → ℤ
  | .failed _ => -1
  | .noThread => 0
  | .expired => 0
  | .ready _ => 1

/-- `errno` after `st_poll`. -/
def Polled.errno (errno : ℤ) : Polled → ℤ
  | .failed e => e
  | _ => errno

/-- `pd.revents & POLLNVAL` after `st_poll`. -/
def Polled.nval : Polled → Bool
  | .ready nval => nval
  | _ => false

/-- `st_netfd_poll` on a descriptor: its value, and `errno` after it. -/
def netfdPoll (errno : ℤ) (p : Polled) : ℤ × ℤ :=
  if p.value < 0 then (-1, p.errno errno)
  else if p.value = 0 then (0, p.errno errno)
  else if p.nval then (-1, EBADF)
  else (0, p.errno errno)

/-! ## The calls -/

/-- The functions. -/
inductive Fn where
  | read | read_fully | write | recvfrom | sendto
  deriving DecidableEq

/-- Whether the function hands octets of the caller's buffer to the socket. -/
def Fn.sends : Fn → Bool
  | .write | .sendto => true
  | _ => false

/-- Whether the function repeats the call until `nbyte` octets have been moved. -/
def Fn.repeats : Fn → Bool
  | .read_fully | .write => true
  | _ => false

/-- The arguments and locals of a call. -/
structure Xfer where
  fn : Fn
  /-- `nbyte`, a `size_t`, or `len`, an `int`. -/
  nbyte : ℤ
  /-- The caller's buffer. -/
  mem : ℕ → UInt8
  /-- How far `buf` has been advanced. -/
  off : ℕ
  nleft : ℤ
  /-- The octets that the socket has accepted or delivered. It is not read by any step. -/
  moved : List UInt8

/-- The length that the socket is given: the cast to `int`. -/
def Xfer.request (x : Xfer) : ℤ := Int.bmod x.nleft (2^32)

/-- The `n` octets from `buf` on. -/
def Xfer.octets (x : Xfer) (n : ℕ) : List UInt8 := (List.range n).map fun i => x.mem (x.off + i)

/-- What a call of the socket returns. For the functions that send, `data` are the octets that were
accepted. -/
inductive Sock where
  | ok (data : List UInt8)
  | error (syserr : ℤ)
  deriving DecidableEq

/-- The socket moves at most as many octets as it was given room for, and accepts the octets at
`buf`. -/
def Xfer.Allows (x : Xfer) : Sock → Prop
  | .ok data => (data.length : ℤ) ≤ x.request ∧ (x.fn.sends → data = x.octets data.length)
  | .error _ => True

instance (x : Xfer) : (o : Sock) → Decidable (x.Allows o)
  | .ok data => inferInstanceAs
      (Decidable ((data.length : ℤ) ≤ x.request ∧ (x.fn.sends → data = x.octets data.length)))
  | .error _ => inferInstanceAs (Decidable True)

/-- The buffer and the record after the socket has moved `data`. -/
def Xfer.store (x : Xfer) (data : List UInt8) : Xfer :=
  { x with
    mem := if x.fn.sends then x.mem else fun i =>
      if x.off ≤ i then data.getD (i - x.off) (x.mem i) else x.mem i
    moved := x.moved ++ data }

/-- Where a call is. -/
inductive Pos where
  /-- At the head of the loop, about to call the socket. -/
  | sock (x : Xfer)
  /-- In `st_netfd_poll`. -/
  | wait (x : Xfer)
  /-- It has returned. -/
  | done (x : Xfer) (r : ℤ)

/-- A call, and `errno`. -/
structure State where
  pos : Pos
  errno : ℤ

/-- `while (nleft > 0)`, or `while (1)`. -/
def Xfer.loop (x : Xfer) : Pos :=
  if x.fn.repeats ∧ x.nleft ≤ 0 then
    .done x (if x.fn.sends then x.nbyte else x.nbyte - x.nleft)
  else .sock x

/-- The socket has moved `n` octets. -/
def Xfer.progress (x : Xfer) (n : ℕ) : Pos :=
  match x.fn with
  | .read_fully =>
    let x := { x with nleft := x.nleft - n }
    -- After a part of the octets it waits, even where it could read more at once.
    if x.nleft = 0 ∨ n = 0 then .done x (x.nbyte - x.nleft)
    else .wait { x with off := x.off + n }
  | .write =>
    if (n : ℤ) = x.nleft then .done x x.nbyte
    else .wait { x with nleft := x.nleft - n, off := x.off + n }
  | .read | .recvfrom | .sendto => .done x n

/-- The socket has failed, and `errno` is the translation. -/
def Xfer.fail (x : Xfer) (errno : ℤ) : Pos :=
  -- `continue`.
  if errno = EINTR then x.loop
  else if ¬NotReady errno then .done x (-1)
  else .wait x

/-- What a step is told. -/
inductive Label where
  | sock (o : Sock)
  | poll (p : Polled)
  deriving DecidableEq

/-- One call of the socket, or one wait. -/
def step (s : State) (l : Label) : Option State :=
  match s.pos, l with
  | .sock x, .sock o =>
    if x.Allows o then
      match o with
      | .ok data => some ⟨(x.store data).progress data.length, s.errno⟩
      | .error syserr => some ⟨x.fail (getError syserr), getError syserr⟩
    else none
  | .wait x, .poll p =>
    let (rv, errno) := netfdPoll s.errno p
    some ⟨if rv < 0 then .done x (-1) else x.loop, errno⟩
  | _, _ => none

/-- A call. -/
structure Call where
  fn : Fn
  /-- `fd` is not `NULL`. -/
  fd : Bool
  nbyte : ℤ
  mem : ℕ → UInt8

/-- A call begins. -/
def start (c : Call) (errno : ℤ) : State :=
  let x : Xfer := ⟨c.fn, c.nbyte, c.mem, 0, c.nbyte, []⟩
  ⟨if c.fd then x.loop else .done x 0, errno⟩

end StWin.Io
