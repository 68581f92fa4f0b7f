import Mathlib.Data.Int.Notation
import Mathlib.Data.List.Basic
import Mathlib.Data.Nat.Notation
import Mathlib.Tactic.Linarith

/-!
# Reading files through a child process

`src/extensions/stx_fileio.c`. A thread that reads from a file with `stx_file_read` leaves the reading to a
child process, which is forked by the first call. The parent sends the offset and the length through a
pipe, and the child sends the number of bytes that it has read, and the bytes, through another one. The
child inherits the open file, so the position of the descriptor is the one that the parent has left.

Parent and child take small steps, and the kernel chooses how many bytes each of them moves. A pipe is the
list of the bytes that are in it. Words have eight bytes, and the lowest one comes first. A step that is
not possible is `none`: a process that waits for bytes takes no step.
-/

namespace StWin.FileIo

/-! ## Words -/

/-- The `n` lowest bytes of a number. -/
def le : ℕ → ℕ → List UInt8
  | 0, _ => []
  | n + 1, x => UInt8.ofNat x :: le n (x / 256)

/-- The number that is made of some bytes. -/
def ofLe : List UInt8 → ℕ
  | [] => 0
  | b :: bs => b.toNat + 256 * ofLe bs

/-- The value of eight bytes as a signed number (`off_t` and `ssize_t`). -/
def signed (bytes : List UInt8) : ℤ := Int.bmod (ofLe bytes) (2^64)

/-! ## Calls -/

/-- `FILEREADER_MAX_READ`. -/
def FILEREADER_MAX_READ : ℕ := 1024

/-- A call of `stx_file_read`. -/
structure Call where
  offset : ℕ
  nbytes : ℕ
  /-- An `off_t` that is not negative. -/
  offset_lt : offset < 2^63
  /-- A `size_t`. -/
  nbytes_lt : nbytes < 2^64

/-- `sizeof(file_reader_cb_t)`. -/
def CB_SIZE : ℕ := 16

/-- The bytes of the `file_reader_cb_t` of a call. -/
def Call.cb (c : Call) : List UInt8 := le 8 c.offset ++ le 8 c.nbytes

/-- What a call has returned, and the bytes that it has stored in the caller's buffer. -/
structure Returned where
  call : Call
  ret : ℤ
  buf : List UInt8

/-! ## Processes -/

/-- Where the thread of the parent is. -/
inductive Pos where
  /-- Not in a call. -/
  | user (r : Option Returned)
  /-- In `st_write`, with the bytes that have not been sent. -/
  | sending (c : Call) (rest : List UInt8)
  /-- In the first `st_read`. -/
  | header (c : Call)
  /-- In the second `st_read`, for `ret` bytes. -/
  | body (c : Call) (ret : ℕ)

/-- The child process. It waits for a command if there is nothing to write. -/
structure Reader where
  pos : ℕ
  /-- The bytes of its calls of `write` that are not in the pipe yet. -/
  pending : List UInt8
  exited : Bool
  /-- It has read more bytes than there are in `buf`. -/
  overrun : Bool

/-- The two processes, the pipes, and the position of the descriptor. -/
structure Sys where
  filepos : ℕ
  /-- `NULL` before the first call. -/
  reader : Option Reader
  control : List UInt8
  data : List UInt8
  parent : Pos

/-- What a process does. The kernel chooses the number of bytes. -/
inductive Act where
  /-- The program calls. The flag says whether `file_reader` succeeds, if it is called. -/
  | call (c : Call) (forked : Bool)
  /-- `send` in `st_write`. -/
  | send (n : ℕ)
  /-- The other end of the pipe is closed. -/
  | sendFails
  /-- `recv` in `st_read`. -/
  | recv (n : ℕ)
  /-- The child reads a command. -/
  | command (n : ℕ)
  /-- The child writes. -/
  | write (n : ℕ)

/-- `close` and `_exit`. -/
def Reader.exit (r : Reader) : Reader := { r with exited := true }

/-- A pipe from which all bytes were read, and to which none will be written. -/
def Sys.AtEnd (s : Sys) : Prop := s.data = [] ∧ ∀ r ∈ s.reader, r.exited = true ∧ r.pending = []

instance (s : Sys) : Decidable s.AtEnd := inferInstanceAs (Decidable (_ ∧ ∀ r ∈ s.reader, _))

section step

variable (file : List UInt8)

/-- One round of the loop of the child, with the command `cb`: the child and the position of the descriptor
after it. -/
def Reader.serve (r : Reader) (filepos : ℕ) (cb : List UInt8) : Reader × ℕ :=
  let offset := signed (cb.take 8)
  let nbytes := signed (cb.drop 8)
  if nbytes ≤ 0 then (r.exit, filepos)
  else if r.pos ≠ offset ∧ offset < 0 then (r.exit, filepos)
  else
    -- `lseek`, if the child does not think that it is there already.
    let pos := if r.pos ≠ offset then offset.toNat else r.pos
    let filepos := if r.pos ≠ offset then offset.toNat else filepos
    let bytes := (file.drop filepos).take nbytes.toNat
    let nb := bytes.length
    ({ r with
        pos := pos + nb
        pending := le 8 nb ++ bytes
        overrun := r.overrun || decide (FILEREADER_MAX_READ < nb) },
      filepos + nb)

/-- `stx_file_read` behind the first `st_read`, which has returned `bytes`. The bytes of `ret` that were not
received are those of `-1`. -/
def Call.received (c : Call) (bytes : List UInt8) : Pos :=
  let ret := signed (bytes ++ List.replicate (8 - bytes.length) 0xff)
  if bytes.length = 8 ∧ 0 < ret ∧ ret ≤ c.nbytes then .body c ret.toNat
  else .user (some ⟨c, ret, []⟩)

/-- A step of one of the processes. -/
def Sys.step (s : Sys) : Act → Option Sys
  | .call c forked =>
    match s.parent with
    | .user _ =>
      match s.reader with
      | some _ => some { s with parent := .sending c c.cb }
      | none =>
        if forked then some { s with reader := some ⟨0, [], false, false⟩, parent := .sending c c.cb }
        else some { s with parent := .user (some ⟨c, -1, []⟩) }
    | _ => none
  | .send n =>
    match s.parent with
    | .sending c rest =>
      if 1 ≤ n ∧ n ≤ rest.length ∧ ∀ r ∈ s.reader, r.exited = false then
        some { s with
          control := s.control ++ rest.take n
          parent := if n = rest.length then .header c else .sending c (rest.drop n) }
      else none
    | _ => none
  | .sendFails =>
    match s.parent with
    -- The return value of `st_write` is not looked at.
    | .sending c _ => if ∀ r ∈ s.reader, r.exited = true then some { s with parent := .header c } else none
    | _ => none
  | .recv n =>
    match s.parent with
    | .header c =>
      if 1 ≤ n ∧ n ≤ 8 ∧ n ≤ s.data.length ∨ n = 0 ∧ s.AtEnd then
        some { s with data := s.data.drop n, parent := c.received (s.data.take n) }
      else none
    | .body c ret =>
      if 1 ≤ n ∧ n ≤ ret ∧ n ≤ s.data.length ∨ n = 0 ∧ s.AtEnd then
        some { s with data := s.data.drop n, parent := .user (some ⟨c, n, s.data.take n⟩) }
      else none
    | _ => none
  | .command n =>
    match s.reader with
    | none => none
    | some r =>
      if r.exited = false ∧ r.pending = [] ∧ 1 ≤ n ∧ n ≤ CB_SIZE ∧ n ≤ s.control.length then
        if n = CB_SIZE then
          let served := r.serve file s.filepos (s.control.take n)
          some { s with reader := some served.1, filepos := served.2, control := s.control.drop n }
        else some { s with reader := some r.exit, control := s.control.drop n }
      else none
  | .write n =>
    match s.reader with
    | none => none
    | some r =>
      if 1 ≤ n ∧ n ≤ r.pending.length then
        some { s with
          reader := some { r with pending := r.pending.drop n }
          data := s.data ++ r.pending.take n }
      else none

end step

/-- No call was made. The descriptor is at `filepos`. -/
def Sys.init (filepos : ℕ) : Sys := ⟨filepos, none, [], [], .user none⟩

end StWin.FileIo
