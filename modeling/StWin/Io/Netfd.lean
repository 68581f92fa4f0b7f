import StWin.Lib.Runs
import StWin.Lib.Slot
import Mathlib.Data.Int.Notation
import Mathlib.Logic.Function.Basic
import Mathlib.Tactic.Simps.Basic

/-!
# Descriptor objects

`st_netfd_open`, `st_netfd_open_socket`, `st_accept`, `st_open`, `st_netfd_free`, `st_netfd_close`, and
`st_netfd_setspecific` of `src/io_win.c`, on the objects and the free list. An object is a number, in the
order of the calls of `calloc`; objects are never given back to the system.

`st_netfd_free` and `st_netfd_setspecific` call the destructor of an object's private data, and this may
call the functions again, for other objects. So a call that has called a destructor is a `Frame`, and
goes on when the destructor returns. Frames may return in any order here, as they may if the destructors
block and threads take turns.

The history of each object's private data is in `hist`, the last event first. No function reads it. The
mode and the fate of the system's descriptors, that is, the calls of `ioctlsocket` and `closesocket`, are
outside of the model.
-/

namespace StWin.Io

/-- `struct _st_netfd`. -/
structure Netfd where
  osfd : ℤ
  inuse : Bool
  private_data : Option ℕ
  destructor : Option ℕ
  aux_data : Option ℕ
  next : Option ℕ
  deriving DecidableEq

/-- What `calloc` returns. -/
def Netfd.zero : Netfd := ⟨0, false, none, none, none, none⟩

/-- The object has private data with a destructor. -/
def Netfd.Owns (o : Netfd) : Prop := o.private_data.isSome ∧ o.destructor.isSome

instance (o : Netfd) : Decidable o.Owns := inferInstanceAs (Decidable (_ ∧ _))

/-- A call that waits for a destructor to return. -/
inductive Frame where
  | free (fd : ℕ)
  | setspecific (fd : ℕ) (value destructor : Option ℕ)
  deriving DecidableEq

/-- The object whose data is being destroyed. -/
def Frame.fd : Frame → ℕ
  | .free fd => fd
  | .setspecific fd _ _ => fd

/-- The objects, the free list, and the calls in progress. -/
structure Netfds where
  obj : ℕ → Netfd
  freelist : Option ℕ
  /-- The number of calls of `calloc` that succeeded. -/
  created : ℕ
  pending : List Frame
  hist : ℕ → List (Slot.Event ℕ)

namespace Netfds

/-- Assign to fields of an object. -/
@[simps] def setObj (s : Netfds) (fd : ℕ) (f : Netfd → Netfd) : Netfds :=
  { s with obj := Function.update s.obj fd (f (s.obj fd)) }

/-- Add to the history of an object's private data. -/
@[simps] def note (s : Netfds) (fd : ℕ) (events : List (Slot.Event ℕ)) : Netfds :=
  { s with hist := Function.update s.hist fd (events ++ s.hist fd) }

/-- The event at which the private data of `fd` leaves. -/
def leaves (s : Netfds) (fd : ℕ) : List (Slot.Event ℕ) :=
  match (s.obj fd).private_data with
  | some data => if (s.obj fd).destructor.isSome then [.destroy data] else [.drop data]
  | none => []

/-- The end of `st_netfd_free`, after the call of the destructor. -/
def freeEnd (s : Netfds) (fd : ℕ) : Netfds :=
  { s.setObj fd fun o => { o with private_data := none, destructor := none, next := s.freelist } with
    freelist := some fd }

/-- The beginning of `st_netfd_free`, before the call of the destructor. -/
def unuse (s : Netfds) (fd : ℕ) : Netfds :=
  (s.setObj fd fun o => { o with inuse := false, aux_data := none }).note fd (s.leaves fd)

/-- `st_netfd_free` of an object. -/
def netfdFree (s : Netfds) (fd : ℕ) : Netfds :=
  if (s.obj fd).inuse = false then s
  else if (s.obj fd).Owns then { s.unuse fd with pending := .free fd :: s.pending }
  else (s.unuse fd).freeEnd fd

/-- The initialization in `_st_netfd_new`. -/
def start (s : Netfds) (fd : ℕ) (osfd : ℤ) : Netfds :=
  (s.setObj fd fun o => { o with osfd := osfd, inuse := true, next := none }).note fd [.start]

/-- Take the object `fd` off the front of the free list. -/
def pop (s : Netfds) (fd : ℕ) : Netfds := { s with freelist := (s.obj fd).next }

/-- The call of `calloc`. -/
def alloc (s : Netfds) : Netfds := { s with created := s.created + 1 }.setObj s.created fun _ => .zero

/-- `_st_netfd_new`, where `_st_eventsys->fd_new` returns `fd_new`, and `calloc` has memory or not. -/
def netfdNew (s : Netfds) (osfd : ℤ) (fd_new : ℤ) (calloc : Bool) : Netfds × Option ℕ :=
  if fd_new < 0 then (s, none)
  else
    match s.freelist with
    | some fd => ((s.pop fd).start fd osfd, some fd)
    | none => if calloc then (s.alloc.start s.created osfd, some s.created) else (s, none)

/-- `st_netfd_open`. -/
def netfdOpen (s : Netfds) (osfd : ℤ) (fd_new : ℤ) (calloc : Bool) : Netfds × Option ℕ :=
  if osfd ≤ 0 then (s, none) else s.netfdNew osfd fd_new calloc

/-- `st_netfd_open_socket`. -/
def netfdOpenSocket (s : Netfds) (osfd : ℤ) (fd_new : ℤ) (calloc : Bool) : Netfds × Option ℕ :=
  if osfd ≤ 0 then (s, none) else s.netfdNew osfd fd_new calloc

/-- `st_accept`, where `accept` has returned `osfd`. -/
def accept (s : Netfds) (osfd : ℕ) (fd_new : ℤ) (calloc : Bool) : Netfds × Option ℕ :=
  s.netfdNew osfd fd_new calloc

/-- `st_open`, where `_open` has returned `osfd`. -/
def openFile (s : Netfds) (osfd : ℕ) (fd_new : ℤ) (calloc : Bool) : Netfds × Option ℕ :=
  s.netfdNew osfd fd_new calloc

/-- `st_netfd_close`, where `_st_eventsys->fd_close` returns `fd_close`. -/
def netfdClose (s : Netfds) (fd : ℕ) (fd_close : ℤ) : Netfds :=
  if fd_close < 0 then s else s.netfdFree fd

/-- The end of `st_netfd_setspecific`, after the call of the destructor. -/
def setspecificEnd (s : Netfds) (fd : ℕ) (value destructor : Option ℕ) : Netfds :=
  s.setObj fd fun o => { o with private_data := value, destructor := destructor }

/-- The event at which a value comes. -/
def comes : Option ℕ → List (Slot.Event ℕ)
  | some value => [.put value]
  | none => []

/-- `st_netfd_setspecific` on an object. -/
def netfdSetspecific (s : Netfds) (fd : ℕ) (value destructor : Option ℕ) : Netfds :=
  if value ≠ (s.obj fd).private_data then
    -- Free up previously set non-NULL data value.
    if (s.obj fd).Owns then
      { s.note fd (s.leaves fd) with pending := .setspecific fd value destructor :: s.pending }
    else (s.note fd (comes value ++ s.leaves fd)).setspecificEnd fd value destructor
  else s.setspecificEnd fd value destructor

/-- The destructor that a call waits for returns. -/
def ret (s : Netfds) (f : Frame) : Netfds :=
  let s := { s with pending := s.pending.erase f }
  match f with
  | .free fd => s.freeEnd fd
  | .setspecific fd value destructor =>
    (s.note fd (comes value)).setspecificEnd fd value destructor

/-! ## Calls -/

/-- The functions that return a new object. -/
inductive Opening where
  | netfdOpen (osfd : ℤ)
  | netfdOpenSocket (osfd : ℤ)
  | accept (osfd : ℕ)
  | openFile (osfd : ℕ)
  deriving DecidableEq

/-- The state after the call, and what it returns. -/
def opened (s : Netfds) (how : Opening) (fd_new : ℤ) (calloc : Bool) : Netfds × Option ℕ :=
  match how with
  | .netfdOpen osfd => s.netfdOpen osfd fd_new calloc
  | .netfdOpenSocket osfd => s.netfdOpenSocket osfd fd_new calloc
  | .accept osfd => s.accept osfd fd_new calloc
  | .openFile osfd => s.openFile osfd fd_new calloc

/-- A call, with what the system does in it, or the return of a destructor. -/
inductive Call where
  | new (how : Opening) (fd_new : ℤ) (calloc : Bool)
  | free (fd : Option ℕ)
  | close (fd : Option ℕ) (fd_close : ℤ)
  | setspecific (fd : Option ℕ) (value destructor : Option ℕ)
  | ret (f : Frame)
  deriving DecidableEq

/-- One step. -/
def step (s : Netfds) : Call → Option Netfds
  | .new how fd_new calloc => some (s.opened how fd_new calloc).1
  | .free fd => some (fd.elim s s.netfdFree)
  | .close fd fd_close => some (fd.elim s fun fd => s.netfdClose fd fd_close)
  | .setspecific fd value destructor =>
    some (fd.elim s fun fd => s.netfdSetspecific fd value destructor)
  | .ret f => if f ∈ s.pending then some (s.ret f) else none

/-- `st_netfd_setspecific` waits for the destructor of the object's data. -/
def Replacing (s : Netfds) (fd : ℕ) : Prop := ∃ f ∈ s.pending, f.fd = fd ∧ f ≠ .free fd

instance (s : Netfds) (fd : ℕ) : Decidable (s.Replacing fd) :=
  inferInstanceAs (Decidable (∃ f ∈ s.pending, _))

/-- Any object may be freed or closed, also again, and private data may be stored in an object that is
in use. But nobody uses an object whose private data is being replaced. -/
def Allowed (s : Netfds) : Call → Prop
  | .free (some fd) => fd < s.created ∧ ¬s.Replacing fd
  | .close (some fd) _ => fd < s.created ∧ ¬s.Replacing fd
  | .setspecific (some fd) _ _ => fd < s.created ∧ (s.obj fd).inuse = true ∧ ¬s.Replacing fd
  | _ => True

instance (s : Netfds) : (c : Call) → Decidable (s.Allowed c)
  | .new _ _ _ => inferInstanceAs (Decidable True)
  | .free none => inferInstanceAs (Decidable True)
  | .free (some fd) => inferInstanceAs (Decidable (fd < s.created ∧ ¬s.Replacing fd))
  | .close none _ => inferInstanceAs (Decidable True)
  | .close (some fd) _ => inferInstanceAs (Decidable (fd < s.created ∧ ¬s.Replacing fd))
  | .setspecific none _ _ => inferInstanceAs (Decidable True)
  | .setspecific (some fd) _ _ =>
    inferInstanceAs (Decidable (fd < s.created ∧ (s.obj fd).inuse = true ∧ ¬s.Replacing fd))
  | .ret _ => inferInstanceAs (Decidable True)

/-- The start of the program. `x` stands for memory that is not allocated. -/
def init (x : ℕ → Netfd) : Netfds := ⟨x, none, 0, [], fun _ => []⟩

end Netfds

end StWin.Io
