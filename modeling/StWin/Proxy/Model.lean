import StWin.Io.Connect

/-!
# The example proxy

A thread of `handle_request` in `src/examples/proxy.c` connects to the remote host, and then pumps data
between the client and the host: `st_poll` says which descriptors have data, and `pass` reads a buffer from
the one and writes it to the other. The reads, the writes, and the connect are the calls of the transfer
functions, step by step; what the other functions return comes with the labels.

This is `pass` without `DEBUG`. The buffer of a call of `pass` is not initialized: its contents are an
argument, for each call.
-/

namespace StWin.Proxy

open Io (Xfer Connect)

/-- `IOBUFSIZE`. -/
def IOBUFSIZE : ℤ := 16 * 1024

/-- The directions in which data is passed. -/
inductive Dir where
  /-- `pass(cli_nfd, rmt_nfd)`. -/
  | out
  /-- `pass(rmt_nfd, cli_nfd)`. -/
  | back
  deriving DecidableEq, Repr

/-- Where a thread of `handle_request` is. `next` is `pds[1].revents & POLLIN`, while the first test of
the loop body is under way. -/
inductive Pos where
  /-- About to call `socket`. -/
  | socket
  /-- In `st_connect`. -/
  | connect (call : Connect)
  /-- In `st_poll`. -/
  | poll
  /-- In `pass`, in `st_read`. -/
  | read (d : Dir) (next : Bool) (call : Io.Pos)
  /-- In `pass`, in `st_write` of `nr` octets. -/
  | write (d : Dir) (next : Bool) (nr : ℤ) (call : Io.Pos)
  /-- It has returned. -/
  | done

/-- A thread of `handle_request`, and `errno`. -/
structure Request where
  pos : Pos
  errno : ℤ
  /-- The descriptor of the client is open. -/
  cli_open : Bool
  /-- The socket for the remote host is open. -/
  sock_open : Bool
  /-- The number of calls of `pass`. -/
  passes : ℕ
  /-- The octets that were received from where `d` begins, and those that were sent to where it ends. No
  step reads them, nor the next field. -/
  received : Dir → List UInt8
  sent : Dir → List UInt8
  /-- `st_write` did not write all that was read, in this direction. -/
  broken : Option Dir

/-- What a thread is told. -/
inductive Label where
  /-- `socket` and `st_netfd_open_socket` have succeeded or failed. -/
  | socket (ok opened : Bool)
  | connect (l : Io.CLabel)
  /-- `st_poll` returns `n`, and `POLLIN` is set or not in each of the two `revents`. -/
  | poll (n : ℤ) (in₀ in₁ : Bool)
  | io (l : Io.Label)
  deriving DecidableEq

/-- The octets that a call of the socket has moved. -/
def data : Io.Label → List UInt8
  | .sock (.ok data) => data
  | _ => []

namespace Request

/-- The thread begins. -/
def begin (errno : ℤ) : Request :=
  ⟨.socket, errno, true, false, 0, fun _ => [], fun _ => [], none⟩

/-- Close both descriptors, and return. -/
def close (s : Request) : Request := { s with pos := .done, cli_open := false, sock_open := false }

/-- `pass` begins, with `buf` for its buffer. -/
def pass (s : Request) (buf : ℕ → UInt8) (d : Dir) (next : Bool) : Request :=
  { s with
    pos := .read d next (Io.start ⟨.read, true, IOBUFSIZE, buf⟩ s.errno).pos
    passes := s.passes + 1 }

/-- `st_poll` returns. -/
def pollReturns (s : Request) (buf : ℕ → UInt8) (n : ℤ) (in₀ in₁ : Bool) : Request :=
  if n ≤ 0 then s.close
  else if in₀ then s.pass buf .out in₁
  else if in₁ then s.pass buf .back false
  else s

/-- `st_write` returns `nw`, and with it `pass`. -/
def writeReturns (s : Request) (buf : ℕ → UInt8) (d : Dir) (next : Bool) (nr nw : ℤ) : Request :=
  if nw ≠ nr then { s with broken := some d : Request }.close
  else if d = .out ∧ next then s.pass buf .back false
  else { s with pos := .poll }

/-- Where `st_write` of `nr` octets is after a step of it. -/
def writeGoes (s : Request) (buf : ℕ → UInt8) (d : Dir) (next : Bool) (nr : ℤ) : Io.Pos → Request
  | .done _ nw => s.writeReturns buf d next nr nw
  | call => { s with pos := .write d next nr call }

/-- `st_read` returns `nr`. -/
def readReturns (s : Request) (buf : ℕ → UInt8) (d : Dir) (next : Bool) (mem : ℕ → UInt8) (nr : ℤ) :
    Request :=
  if nr ≤ 0 then s.close
  else s.writeGoes buf d next nr (Io.start ⟨.write, true, nr, mem⟩ s.errno).pos

/-- Where `st_read` is after a step of it. -/
def readGoes (s : Request) (buf : ℕ → UInt8) (d : Dir) (next : Bool) : Io.Pos → Request
  | .done x nr => s.readReturns buf d next x.mem nr
  | call => { s with pos := .read d next call }

/-- One step of the thread. The buffers of `pass` are those of `stack`, one after the other. -/
def step (stack : ℕ → ℕ → UInt8) (s : Request) (l : Label) : Option Request :=
  let buf := stack s.passes
  match s.pos, l with
  | .socket, .socket ok opened =>
    if ok ∧ opened then
      some { s with pos := .connect (Connect.begin true s.errno), sock_open := true }
    else
      -- `close(sock)` if there is one.
      some s.close
  | .connect call, .connect l =>
    (Connect.step { call with errno := s.errno } l).map fun call =>
      let s := { s with errno := call.errno }
      match call.pos with
      | .done r => if r < 0 then s.close else { s with pos := .poll }
      | _ => { s with pos := .connect call }
  | .poll, .poll n in₀ in₁ => some (s.pollReturns buf n in₀ in₁)
  | .read d next call, .io l =>
    (Io.step ⟨call, s.errno⟩ l).map fun st =>
      let s := { s with
        errno := st.errno
        received := Function.update s.received d (s.received d ++ data l) }
      s.readGoes buf d next st.pos
  | .write d next nr call, .io l =>
    (Io.step ⟨call, s.errno⟩ l).map fun st =>
      let s := { s with errno := st.errno, sent := Function.update s.sent d (s.sent d ++ data l) }
      s.writeGoes buf d next nr st.pos
  | _, _ => none

end Request

end StWin.Proxy
