import StWin.Heap.Model
import Mathlib.Tactic.Common

/-!
# The walks along the bits of an index

The two walks of `src/sched.c` with one iteration as a function of its own, and without the tests for
`NULL` that end them early: `Walk.descend` is the `for` loop of `heap_insert`, and `descendLast` the
loop of `heap_delete` to the last element. Both can stop after any of their iterations, which gives
the states in which the tests are made. A walk with the tests is the walk without them if no test
before the last one finds a `NULL` (`heapInsertLoop_eq`, `lastSlot_eq`).

`walkInsert` and `walkDelete` are the two functions without any of the tests. Here `none` is a
`NULL` dereference, too.
-/

namespace StWin.Heap

/-- The variables of the loop of `heap_insert`. -/
structure Walk where
  heap : Heap
  thread : ℕ
  p : Slot
  index : ℕ

/-- One iteration of the loop of `heap_insert` before its test, to the right or to the left. -/
def Walk.down (w : Walk) (right : Bool) : Option Walk := do
  let t ← w.heap.read w.p
  let (h, thread) :=
    if (w.heap.node w.thread).due < (w.heap.node t).due then
      (w.heap.takePlace w.p w.index w.thread t, t)
    else (w.heap, w.thread)
  let q ← h.read w.p
  some ⟨h, thread, childSlot right q, 2 * w.index + right.toNat⟩

/-- The `k` iterations for the bits of `target` from `stop + k - 1` to `stop`. -/
def Walk.descend (target stop : ℕ) : ℕ → Walk → Option Walk
  | 0, w => some w
  | k + 1, w => (w.down (target.testBit (stop + k))).bind (descend target stop k)

/-- The `k` iterations of the walk of `heap_delete` for the bits of `size` from `stop + k - 1` to
`stop`. -/
def descendLast (size stop : ℕ) (h : Heap) : ℕ → Slot → Option Slot
  | 0, p => some p
  | k + 1, p => (h.read p).bind fun t =>
      descendLast size stop h k (childSlot (size.testBit (stop + k)) t)

/-- `heap_insert` without its tests. -/
def walkInsert (h : Heap) (thread : ℕ) : Option (Heap × Slot) := do
  let target := (h.node thread).heap_index
  let w ← Walk.descend target 0 (bitLength target - 1) ⟨h, thread, .root, 1⟩
  let h := w.heap.setNode w.thread fun n => { n with heap_index := w.index }
  some (h.linkLeaf w.p w.thread, w.p)

/-- The heap without the last element, which was at `p`. -/
def unlinkLast (h : Heap) (p : Slot) : Heap :=
  let h := h.write p none
  { h with sleepq_size := h.sleepq_size - 1 }

/-- The heap in which `heap_delete` of `thread` inserts the last element `t`, which was at `p`. -/
def unlinked (h : Heap) (thread : ℕ) (p : Slot) (t : ℕ) : Heap :=
  (h.unlinkLast p).setNode t fun n =>
    { n with heap_index := ((h.unlinkLast p).node thread).heap_index }

/-- `heap_delete` without its tests. The sift-down may take `fuel` rounds. -/
def walkDelete (fuel : ℕ) (h : Heap) (thread : ℕ) : Option Heap := do
  let p ← descendLast h.sleepq_size 0 h (bitLength h.sleepq_size - 1) .root
  let t ← h.read p
  if t ≠ thread then
    let (h, p) ← walkInsert (h.unlinked thread p t) t
    let t ← h.read p
    let h := h.setNode t fun n =>
      { n with left := (h.node thread).left, right := (h.node thread).right }
    let h ← siftDown fuel h t p
    some (h.setNode thread fun n => { n with left := none, right := none })
  else
    some ((h.unlinkLast p).setNode thread fun n => { n with left := none, right := none })

/-! ## The tests -/

/-- A walk that stops early is a walk to the target that has only the upper bits. -/
theorem Walk.descend_div (target stop k : ℕ) (w : Walk) :
    descend target stop k w = descend (target / 2 ^ stop) 0 k w := by
  induction k generalizing w with
  | zero => rfl
  | succ k ih =>
    rw [descend, descend, Nat.testBit_div_two_pow, Nat.zero_add, Nat.add_comm k stop, funext ih]

/-- A walk that stops early is the whole walk to an ancestor. -/
theorem descendLast_div (size stop : ℕ) (h : Heap) (k : ℕ) (p : Slot) :
    descendLast size stop h k p = descendLast (size / 2 ^ stop) 0 h k p := by
  induction k generalizing p with
  | zero => rfl
  | succ k ih =>
    rw [descendLast, descendLast, Nat.testBit_div_two_pow, Nat.zero_add, Nat.add_comm k stop]
    congr 1
    exact funext fun t => ih _

/-- The loop of `heap_insert` is one iteration, the test, and the rest of the loop. -/
theorem heapInsertLoop_succ (target b : ℕ) (w : Walk) :
    heapInsertLoop target (b + 1) w.heap w.thread w.p w.index =
      (w.down (target.testBit b)).bind fun w' =>
        if w'.heap.read w'.p = none then some (w'.heap, w'.thread, w'.p, w'.index)
        else heapInsertLoop target b w'.heap w'.thread w'.p w'.index := by
  rw [heapInsertLoop, Walk.down]
  simp only [Option.bind_eq_bind, Option.bind_assoc, Option.bind_some]

/-- If no test finds a `NULL` before the last bit, then the loop of `heap_insert` walks to the end. -/
theorem heapInsertLoop_eq {target : ℕ} (b : ℕ) : ∀ {w : Walk},
    (∀ bit, 0 < bit → bit < b → ∀ w', Walk.descend target bit (b - bit) w = some w' →
      w'.heap.read w'.p ≠ none) →
    heapInsertLoop target b w.heap w.thread w.p w.index =
      (Walk.descend target 0 b w).map fun w' => (w'.heap, w'.thread, w'.p, w'.index) := by
  induction b with
  | zero => exact fun _ => rfl
  | succ b ih =>
    intro w hnull
    rw [heapInsertLoop_succ, Walk.descend, Nat.zero_add]
    cases hdown : w.down (target.testBit b) with
    | none => rfl
    | some w₁ =>
      rw [Option.bind_some, Option.bind_some]
      -- The walk from the child meets the tests that are left.
      have hrest : heapInsertLoop target b w₁.heap w₁.thread w₁.p w₁.index =
          (Walk.descend target 0 b w₁).map fun w' => (w'.heap, w'.thread, w'.p, w'.index) := by
        refine ih fun bit hpos hlt w' hw' => hnull bit hpos (by omega) w' ?_
        rw [show b + 1 - bit = (b - bit) + 1 by omega, Walk.descend,
          show bit + (b - bit) = b by omega, hdown]
        exact hw'
      split_ifs with hread
      · have hb : b = 0 := by
          by_contra hb
          refine hnull b (Nat.pos_of_ne_zero hb) (Nat.lt_succ_self b) w₁ ?_ hread
          rw [show b + 1 - b = 0 + 1 by omega, Walk.descend, Nat.add_zero, hdown]
          rfl
        subst hb
        rfl
      · exact hrest

/-- If no test finds a `NULL`, then the walk to the last element is not cut short. -/
theorem lastSlot_eq {size : ℕ} {h : Heap} (b : ℕ) : ∀ {p : Slot},
    (∀ bit < b, ∀ q, descendLast size bit h (b - bit) p = some q → h.read q ≠ none) →
    lastSlot size h b p = descendLast size 0 h b p := by
  induction b with
  | zero => exact fun _ => rfl
  | succ b ih =>
    intro p hnull
    rw [lastSlot, descendLast, Nat.zero_add, Option.bind_eq_bind]
    cases hread : h.read p with
    | none => rfl
    | some t =>
      rw [Option.bind_some, Option.bind_some]
      have hchild : h.read (childSlot (size.testBit b) t) ≠ none := by
        refine hnull b (Nat.lt_succ_self b) _ ?_
        rw [show b + 1 - b = 0 + 1 by omega, descendLast, hread]
        rfl
      have hrest := @ih (childSlot (size.testBit b) t) fun bit hlt q hq => by
        refine hnull bit (by omega) q ?_
        rw [show b + 1 - bit = (b - bit) + 1 by omega, descendLast, hread,
          show bit + (b - bit) = b by omega]
        exact hq
      cases hbit : size.testBit b with
      | true =>
        rw [hbit] at hchild hrest
        change (h.node t).right ≠ none at hchild
        rw [if_pos rfl, if_neg hchild]
        exact hrest
      | false =>
        rw [hbit] at hchild hrest
        change (h.node t).left ≠ none at hchild
        rw [if_neg (by simp), if_neg hchild]
        exact hrest

end StWin.Heap
