import StWin.Lib.Slot
import StWin.Lib.Runs
import StWin.Sched.Interrupt

/-!
# Thread-specific data

`st_key_create`, `st_thread_setspecific`, and `_st_thread_cleanup` of `src/key.c`, over the scheduler. The
slots of a thread lie in its stack segment, beside its record, so there is a row of slots for each record.
`st_thread_create` clears the row of the stack that it has got, and `st_thread_exit` begins with
`_st_thread_cleanup`; these are the places where a step of the scheduler touches the slots.

Values and destructors are numbers, and `NULL` is `none`. A destructor does not call the library, so a call
of it is one event in the history of the slot. The histories are kept for each thread and not for each
stack, and no function reads them.
-/

namespace StWin

/-- `ST_KEYS_MAX`. -/
def ST_KEYS_MAX : ℕ := 16

/-- `errno` after a call that failed. -/
inductive KeyErrno where
  | EAGAIN | EINVAL
  deriving DecidableEq, Repr

/-- The scheduler with the thread-specific data. -/
structure Keyed where
  sched : St
  key_max : ℕ
  /-- `_st_destructors`. -/
  destructors : ℕ → Option ℕ
  /-- `thread->private_data[key]`. -/
  private_data : ℕ → ℕ → Option ℕ
  /-- What has happened to the values that a thread had for a key, the last event first. -/
  hist : ℕ → ℕ → List (Slot.Event ℕ)

namespace Keyed

/-! ## Assignments -/

/-- `thread->private_data[key] = value`. -/
def store (k : Keyed) (t key : ℕ) (value : Option ℕ) : Keyed :=
  let row := Function.update (k.private_data t) key value
  { k with private_data := Function.update k.private_data t row }

/-- Record an event of the slot `key` of the thread on record `t`. -/
def note (k : Keyed) (t key : ℕ) (e : Slot.Event ℕ) : Keyed :=
  let id := (k.sched.thread t).id
  { k with hist := Function.update k.hist id (Function.update (k.hist id) key (e :: k.hist id key)) }

/-- Free up a previously set non-`NULL` value. Without a destructor it is only about to be overwritten. -/
def freeUp (k : Keyed) (t key : ℕ) : Keyed :=
  match k.private_data t key with
  | some old => k.note t key (if (k.destructors key).isSome then .destroy old else .drop old)
  | none => k

/-- Store a value other than the one in place. -/
def install (k : Keyed) (t key : ℕ) (value : Option ℕ) : Keyed :=
  match value with
  | some v => (k.store t key value).note t key (.put v)
  | none => k.store t key value

/-- `memset(ptds, 0, ST_KEYS_MAX * sizeof(void*))`. -/
def clear (k : Keyed) (t : ℕ) : Keyed :=
  { k with private_data := Function.update k.private_data t fun _ => none }

/-! ## The functions -/

/-- `st_key_create`, and the key. -/
def keyCreate (k : Keyed) (destructor : Option ℕ) : Keyed × Except KeyErrno ℕ :=
  if ST_KEYS_MAX ≤ k.key_max then (k, .error .EAGAIN)
  else
    ({ k with
        key_max := k.key_max + 1
        destructors := Function.update k.destructors k.key_max destructor }, .ok k.key_max)

/-- `st_thread_setspecific`. -/
def setspecific (k : Keyed) (thread : Option ℕ) (key : ℤ) (value : Option ℕ) :
    Keyed × Except KeyErrno Unit :=
  match thread with
  | none => (k, .error .EINVAL)
  | some t =>
    if key < 0 ∨ (k.key_max : ℤ) ≤ key then (k, .error .EINVAL)
    else
      let key := key.toNat
      if value ≠ k.private_data t key then ((k.freeUp t key).install t key value, .ok ())
      else (k, .ok ())

/-- The loop body of `_st_thread_cleanup`. -/
def cleanupKey (t : ℕ) (k : Keyed) (key : ℕ) : Keyed :=
  match k.private_data t key, k.destructors key with
  | some v, some _ => (k.note t key (.destroy v)).store t key none
  | _, _ => k

/-- `_st_thread_cleanup`. -/
def cleanup (k : Keyed) (thread : Option ℕ) : Keyed :=
  match thread with
  | none => k
  | some t => (List.range k.key_max).foldl (cleanupKey t) k

/-! ## Steps -/

/-- What the running fiber does next. -/
inductive Does where
  /-- A step of the scheduler. -/
  | sched (l : St.Label)
  | keyCreate (destructor : Option ℕ)
  | setspecific (thread : Option ℕ) (key : ℤ) (value : Option ℕ)

/-- What a step of the scheduler does to the slots: `st_thread_create` clears those of the stack that it
gets, and `st_thread_exit` cleans up. -/
def touch (k : Keyed) (l : St.Label) : Keyed :=
  match l with
  | .call (.create _ stk_size ok) =>
    match k.sched.stackNew (k.sched.stackSize stk_size) ok.stack with
    | some (t, _) => k.clear t
    | none => k
  | l => if k.sched.Enters l then k.cleanup k.sched.this_thread else k

/-- One step of the running fiber. -/
def step (k : Keyed) : Does → Option Keyed
  | .sched l => (k.sched.step l).map fun s => { k.touch l with sched := s }
  | .keyCreate destructor =>
    if (k.sched.fiber k.sched.running).pc.isUser then some (k.keyCreate destructor).1 else none
  | .setspecific thread key value =>
    if (k.sched.fiber k.sched.running).pc.isUser then some (k.setspecific thread key value).1 else none

/-- The state in which `st_init` returns to `main`. The memory of the stacks that are yet to be made is as
it was. -/
def init (pagesize : ℤ) (last_clock : ℕ) (private_data : ℕ → ℕ → Option ℕ) : Keyed where
  sched := St.init pagesize last_clock
  key_max := 0
  destructors := fun _ => none
  private_data := Function.update private_data 0 fun _ => none
  hist := fun _ _ => []

end Keyed

end StWin
