import Mathlib.Data.Nat.Bitwise
import Mathlib.Logic.Function.Basic

/-!
# The timeout heap

`heap_insert` and `heap_delete` of `src/sched.c` on the pointer structure that they work on: the
`left`, `right`, `due`, and `heap_index` fields of the thread records, the root pointer
`_st_this_vp.sleep_q`, and `_st_this_vp.sleepq_size`. A thread is the number of its record. The C
code walks the tree with a pointer to a pointer, `_st_thread_t **p`; here that is a `Slot`, which
names the place that holds the pointer. A result `none` is a `NULL` dereference, or a sift-down
loop that does not end within its fuel.
-/

namespace StWin

/-- One more than the largest `st_utime_t`, an unsigned 64-bit count of microseconds. -/
def utimeMod : ℕ := 2 ^ 64

/-- The timeout heap fields of `struct _st_thread`. -/
structure HeapNode where
  /-- Wakeup time when thread is sleeping. -/
  due : ℕ
  left : Option ℕ
  right : Option ℕ
  heap_index : ℕ
  deriving DecidableEq, Repr

/-- The fields of a record after the `memset` of `st_thread_create`. -/
def HeapNode.zero : HeapNode := ⟨0, none, none, 0⟩

/-- The heap's part of the state: the records' heap fields, and the two fields of
`struct _st_vp`. -/
structure Heap where
  node : ℕ → HeapNode
  sleep_q : Option ℕ
  sleepq_size : ℕ

/-- A place that holds a node pointer: what `_st_thread_t **p` points to. -/
inductive Slot where
  | root
  | left (t : ℕ)
  | right (t : ℕ)
  deriving DecidableEq, Repr

namespace Heap

/-- `*p`. -/
def read (h : Heap) : Slot → Option ℕ
  | .root => h.sleep_q
  | .left t => (h.node t).left
  | .right t => (h.node t).right

/-- Assign to fields of one record. -/
def setNode (h : Heap) (t : ℕ) (f : HeapNode → HeapNode) : Heap :=
  { h with node := Function.update h.node t (f (h.node t)) }

/-- `*p = v`. -/
def write (h : Heap) (p : Slot) (v : Option ℕ) : Heap :=
  match p with
  | .root => { h with sleep_q := v }
  | .left t => h.setNode t fun n => { n with left := v }
  | .right t => h.setNode t fun n => { n with right := v }

/-- What `while (s) { s >>= 1; bits++; }` leaves in `bits`. -/
def bitLength (s : ℕ) : ℕ := if s = 0 then 0 else s.log2 + 1

/-- `&t->right` or `&t->left`. -/
def childSlot (right : Bool) (t : ℕ) : Slot := if right then .right t else .left t

/-- The swap of `heap_insert`: `thread` takes the place of `t`, the node at `p`. -/
def takePlace (h : Heap) (p : Slot) (index thread t : ℕ) : Heap :=
  let h := h.setNode thread fun n =>
    { n with left := (h.node t).left, right := (h.node t).right }
  let h := h.write p (some thread)
  h.setNode thread fun n => { n with heap_index := index }

/-- The `for` loop of `heap_insert`, with `bit` iterations left. The result is the heap, the
thread in hand, the slot, and the index that the walk has reached. -/
def heapInsertLoop (target : ℕ) : ℕ → Heap → ℕ → Slot → ℕ → Option (Heap × ℕ × Slot × ℕ)
  | 0, h, thread, p, index => some (h, thread, p, index)
  | bit + 1, h, thread, p, index => do
    let t ← h.read p
    let (h, thread) :=
      if (h.node thread).due < (h.node t).due then (h.takePlace p index thread t, t)
      else (h, thread)
    let q ← h.read p
    let p := childSlot (target.testBit bit) q
    let index := 2 * index + (target.testBit bit).toNat
    if h.read p = none then some (h, thread, p, index)
    else heapInsertLoop target bit h thread p index

/-- The end of `heap_insert`: `*p = thread; thread->left = thread->right = NULL;`. -/
def linkLeaf (h : Heap) (p : Slot) (thread : ℕ) : Heap :=
  (h.write p (some thread)).setNode thread fun n => { n with left := none, right := none }

/-- Insert `thread` into the timeout heap, in the position specified by its `heap_index`. The
result is the heap and the slot that was written last. -/
def heapInsert (h : Heap) (thread : ℕ) : Option (Heap × Slot) :=
  if h.read .root = none then
    some (h.linkLeaf .root thread, .root)
  else do
    let target := (h.node thread).heap_index
    let (h, thread, p, index) ← heapInsertLoop target (bitLength target - 1) h thread .root 1
    let h := h.setNode thread fun n => { n with heap_index := index }
    some (h.linkLeaf p thread, p)

/-- The walk of `heap_delete` to the last heap element, with `bit` iterations left. -/
def lastSlot (size : ℕ) (h : Heap) : ℕ → Slot → Option Slot
  | 0, p => some p
  | bit + 1, p => do
    let t ← h.read p
    if size.testBit bit then
      if (h.node t).right = none then some p else lastSlot size h bit (.right t)
    else
      if (h.node t).left = none then some p else lastSlot size h bit (.left t)

/-- The younger child of a node with children `l` and, if it is not `NULL`, `r`. -/
def youngerChild (h : Heap) (l : ℕ) : Option ℕ → ℕ
  | none => l
  | some r => if (h.node l).due < (h.node r).due then l else r

/-- One exchange of the sift-down: `y`, a child of the node `t` at `p`, takes its place. The
result is the heap and the slot that then holds `t`. -/
def exchange (h : Heap) (t y : ℕ) (p : Slot) : Heap × Slot :=
  let tl := (h.node y).left
  let tr := (h.node y).right
  let h := h.write p (some y)
  let (h, p) :=
    if some y = (h.node t).left then
      (h.setNode y fun n => { n with left := some t, right := (h.node t).right }, Slot.left y)
    else
      (h.setNode y fun n => { n with left := (h.node t).left, right := some t }, Slot.right y)
  let h := h.setNode t fun n => { n with left := tl, right := tr }
  let index_tmp := (h.node t).heap_index
  let h := h.setNode t fun n => { n with heap_index := (h.node y).heap_index }
  (h.setNode y fun n => { n with heap_index := index_tmp }, p)

/-- The loop of `heap_delete` that reestablishes the heap invariant: `t` is the node at `p`. -/
def siftDown : ℕ → Heap → ℕ → Slot → Option Heap
  | 0, _, _, _ => none
  | fuel + 1, h, t, p =>
    match (h.node t).left with
    | none => some h
    | some l =>
      let y := h.youngerChild l (h.node t).right
      if (h.node y).due < (h.node t).due then
        let (h, p) := h.exchange t y p
        siftDown fuel h t p
      else some h

/-- The part of `heap_delete` after the last element `t` is unlinked and found not to be
`thread`: insert it in place of `thread`, then sift it down. -/
def replace (h : Heap) (thread : ℕ) (t : Option ℕ) : Option Heap :=
  match t with
  | none => some h
  | some t => do
    let h := h.setNode t fun n => { n with heap_index := (h.node thread).heap_index }
    let (h, p) ← heapInsert h t
    match h.read p with
    | none => some h
    | some t => do
      let h := h.setNode t fun n =>
        { n with left := (h.node thread).left, right := (h.node thread).right }
      let h ← siftDown (h.sleepq_size + 1) h t p
      some (h.setNode thread fun n => { n with left := none, right := none })

/-- Delete `thread` from the timeout heap. -/
def heapDelete (h : Heap) (thread : ℕ) : Option Heap := do
  -- First find and unlink the last heap element.
  let p ← lastSlot h.sleepq_size h (bitLength h.sleepq_size - 1) .root
  let t := h.read p
  let h := h.write p none
  let h := { h with sleepq_size := h.sleepq_size - 1 }
  if t ≠ some thread then
    -- Insert the unlinked last element in place of the element we are deleting.
    replace h thread t
  else
    some (h.setNode thread fun n => { n with left := none, right := none })

/-- The heap part of `_st_add_sleep_q`, at `_ST_LAST_CLOCK = last_clock`. -/
def addSleepQ (h : Heap) (last_clock : ℕ) (thread timeout : ℕ) : Option Heap := do
  let h := h.setNode thread fun n => { n with due := (last_clock + timeout) % utimeMod }
  let h := { h with sleepq_size := h.sleepq_size + 1 }
  let h := h.setNode thread fun n => { n with heap_index := h.sleepq_size }
  let (h, _) ← heapInsert h thread
  some h

/-- The heap part of `_st_del_sleep_q`. -/
def delSleepQ (h : Heap) (thread : ℕ) : Option Heap := heapDelete h thread

end Heap

end StWin
