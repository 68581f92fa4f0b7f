import StWin.Heap.Model
import Mathlib.Data.Nat.Log
import Mathlib.Data.Finset.Image
import Mathlib.Tactic.Ring

/-!
# The shape of the timeout heap

A complete binary tree with `n` nodes is an array of `n` entries: the root is position 1, and the
children of position `i` are `2 i` and `2 i + 1`. `Shape h a` says that the pointers of `h` are
those of the array `a`, with `sleepq_size` positions, and `Ordered` that no node is due before its
parent. The walks of `heap_insert` and `heap_delete` follow the bits of a position below its
leading one, and so pass through the positions `target / 2^b`.

Every pointer assignment of the two functions is one of three edits of the array: `Shape.place`
puts a thread into a position in place of the one there, `Shape.append` adds a position after the
last, and `Shape.swap` exchanges a node with one of its children.
-/

namespace StWin.Heap

/-! ## Positions -/

/-- The walk's next position: one more bit of the target. -/
theorem div_two_pow_succ (target b : ℕ) :
    target / 2 ^ b = 2 * (target / 2 ^ (b + 1)) + (target.testBit b).toNat := by
  have h1 : target / 2 ^ (b + 1) = target / 2 ^ b / 2 := by rw [pow_succ, Nat.div_div_eq_div_mul]
  rw [h1, Nat.toNat_testBit]
  omega

/-- The walk takes as many steps as there are bits below the leading one. -/
theorem bitLength_sub_one (s : ℕ) : bitLength s - 1 = s.log2 := by
  unfold bitLength
  split_ifs with h
  · subst h; rfl
  · rfl

/-- The walk starts at the root. -/
theorem div_two_pow_log2 {s : ℕ} (h : s ≠ 0) : s / 2 ^ s.log2 = 1 := by
  have h1 := Nat.log2_self_le h
  have h2 := @Nat.lt_log2_self s
  rw [pow_succ] at h2
  exact Nat.div_eq_of_lt_le (by omega) (by omega)

/-- The pointer to position `i`, in a heap of `n` positions. -/
def ptr (a : ℕ → ℕ) (n i : ℕ) : Option ℕ := if 1 ≤ i ∧ i ≤ n then some (a i) else none

/-- The slot that holds the pointer to position `i`. -/
def slotOf (a : ℕ → ℕ) (i : ℕ) : Slot :=
  if i ≤ 1 then .root else if i % 2 = 0 then .left (a (i / 2)) else .right (a (i / 2))

/-- A position of the heap has a node. -/
theorem ptr_of_le {a : ℕ → ℕ} {n i : ℕ} (h1 : 1 ≤ i) (h : i ≤ n) : ptr a n i = some (a i) :=
  if_pos ⟨h1, h⟩

/-- Behind the last position there is no node. -/
theorem ptr_of_gt {a : ℕ → ℕ} {n i : ℕ} (h : n < i) : ptr a n i = none := if_neg (by omega)

/-- The pointer to a position is NULL exactly when the position is behind the last one. -/
theorem ptr_eq_none_iff {a : ℕ → ℕ} {n i : ℕ} (h1 : 1 ≤ i) : ptr a n i = none ↔ n < i := by
  unfold ptr
  split_ifs with h
  · simp; omega
  · simp; omega

/-- The root is held in `sleep_q`. -/
theorem slotOf_one (a : ℕ → ℕ) : slotOf a 1 = .root := rfl

/-- An even position is a left child. -/
theorem slotOf_left {a : ℕ → ℕ} {i : ℕ} (h : 1 ≤ i) : slotOf a (2 * i) = .left (a i) := by
  unfold slotOf
  rw [if_neg (by omega), if_pos (by omega), show 2 * i / 2 = i by omega]

/-- An odd position, apart from the root, is a right child. -/
theorem slotOf_right {a : ℕ → ℕ} {i : ℕ} (h : 1 ≤ i) : slotOf a (2 * i + 1) = .right (a i) := by
  unfold slotOf
  rw [if_neg (by omega), if_neg (by omega), show (2 * i + 1) / 2 = i by omega]

/-- The walk's next slot is the one of the next position. -/
theorem slotOf_child {a : ℕ → ℕ} {i : ℕ} (h : 1 ≤ i) (right : Bool) :
    slotOf a (2 * i + right.toNat) = childSlot right (a i) := by
  cases right
  · exact slotOf_left h
  · exact slotOf_right h

/-- The slot of a position is in the record of its parent. -/
theorem slotOf_update {a : ℕ → ℕ} {i x : ℕ} (h : 1 ≤ i) :
    slotOf (Function.update a i x) i = slotOf a i := by
  unfold slotOf
  rw [Function.update_of_ne (show i / 2 ≠ i by omega)]

/-! ## Shape and order -/

/-- The pointers of `h` are those of the array `a`: each node of positions `1` to `n` points to
the nodes of its children's positions and knows its own, and no thread has two positions. -/
structure Shape (h : Heap) (a : ℕ → ℕ) (n : ℕ) : Prop where
  root : h.sleep_q = ptr a n 1
  left : ∀ i, 1 ≤ i → i ≤ n → (h.node (a i)).left = ptr a n (2 * i)
  right : ∀ i, 1 ≤ i → i ≤ n → (h.node (a i)).right = ptr a n (2 * i + 1)
  index : ∀ i, 1 ≤ i → i ≤ n → (h.node (a i)).heap_index = i
  inj : ∀ i j, 1 ≤ i → i ≤ n → 1 ≤ j → j ≤ n → a i = a j → i = j

/-- No node's due time is smaller than its parent's. -/
def Ordered (due : ℕ → ℕ) (a : ℕ → ℕ) (n : ℕ) : Prop :=
  ∀ i, 2 ≤ i → i ≤ n → due (a (i / 2)) ≤ due (a i)

/-- The thread is at none of the positions `1` to `n`. -/
def Fresh (a : ℕ → ℕ) (n x : ℕ) : Prop := ∀ i, 1 ≤ i → i ≤ n → a i ≠ x

section setNode

variable (h : Heap) (t u : ℕ) (f : HeapNode → HeapNode)

/-- The node that is written. -/
@[simp] theorem setNode_node_self : (h.setNode t f).node t = f (h.node t) := by simp [setNode]

/-- A write to a node leaves `sleep_q` as it is. -/
@[simp] theorem setNode_sleep_q : (h.setNode t f).sleep_q = h.sleep_q := rfl

/-- A write to a node leaves `sleepq_size` as it is. -/
@[simp] theorem setNode_sleepq_size : (h.setNode t f).sleepq_size = h.sleepq_size := rfl

/-- The nodes after a write to one of them. -/
theorem setNode_node : (h.setNode t f).node u = if u = t then f (h.node t) else h.node u := by
  by_cases hu : u = t
  · subst hu; simp
  · simp [setNode, hu]

variable {t u}

/-- A write to a node leaves the other nodes as they are. -/
theorem setNode_node_of_ne (hne : u ≠ t) : (h.setNode t f).node u = h.node u := by
  simp [setNode, hne]

end setNode

/-- A write to a slot leaves `sleepq_size` as it is. -/
@[simp] theorem write_sleepq_size (h : Heap) (p : Slot) (v : Option ℕ) :
    (h.write p v).sleepq_size = h.sleepq_size := by
  cases p <;> rfl

/-- Writing through a slot changes no due time and no index. -/
theorem write_node (h : Heap) (p : Slot) (v : Option ℕ) (u : ℕ) :
    ((h.write p v).node u).due = (h.node u).due ∧
      ((h.write p v).node u).heap_index = (h.node u).heap_index := by
  cases p with
  | root => exact ⟨rfl, rfl⟩
  | left t =>
    by_cases hu : u = t
    · subst hu; simp [write]
    · simp [write, setNode_node_of_ne _ _ hu]
  | right t =>
    by_cases hu : u = t
    · subst hu; simp [write]
    · simp [write, setNode_node_of_ne _ _ hu]

/-- Assigning to the fields of another record first does not change what a write leaves. -/
theorem setNode_write_of_ne (h : Heap) (f : HeapNode → HeapNode) (p : Slot) (v : Option ℕ)
    {x u : ℕ} (hu : u ≠ x) : ((h.setNode x f).write p v).node u = (h.write p v).node u := by
  cases p with
  | root => exact setNode_node_of_ne h f hu
  | left t =>
    by_cases hut : u = t
    · subst hut; simp [write, setNode_node_of_ne _ _ hu]
    · simp [write, setNode_node_of_ne _ _ hu, setNode_node_of_ne _ _ hut]
  | right t =>
    by_cases hut : u = t
    · subst hut; simp [write, setNode_node_of_ne _ _ hu]
    · simp [write, setNode_node_of_ne _ _ hu, setNode_node_of_ne _ _ hut]

/-- Assigning to the fields of a record first does not change the root that a write leaves. -/
theorem setNode_write_sleep_q (h : Heap) (f : HeapNode → HeapNode) (p : Slot) (v : Option ℕ)
    (x : ℕ) : ((h.setNode x f).write p v).sleep_q = (h.write p v).sleep_q := by
  cases p <;> rfl

/-- The slot of a position whose parent is in the heap holds the pointer to it. -/
theorem Shape.read_slotOf {h : Heap} {a : ℕ → ℕ} {n i : ℕ} (hs : Shape h a n) (h1 : 1 ≤ i)
    (hp : i / 2 ≤ n) : h.read (slotOf a i) = ptr a n i := by
  unfold slotOf
  split_ifs with hi he
  · rw [show i = 1 by omega]
    exact hs.root
  · have := hs.left (i / 2) (by omega) hp
    rwa [show 2 * (i / 2) = i by omega] at this
  · have := hs.right (i / 2) (by omega) hp
    rwa [show 2 * (i / 2) + 1 = i by omega] at this

/-! ## Writing through the slot of a position -/

section write

variable {h : Heap} {a : ℕ → ℕ} {n i j : ℕ} (v : Option ℕ)

/-- A record that is not the parent of position `i` keeps its fields. -/
theorem write_slotOf_of_ne {u : ℕ} (hu : 2 ≤ i → a (i / 2) ≠ u) :
    (h.write (slotOf a i) v).node u = h.node u := by
  unfold slotOf
  split_ifs with hi he
  · rfl
  · simp [write, setNode_node_of_ne h _ (hu (by omega)).symm]
  · simp [write, setNode_node_of_ne h _ (hu (by omega)).symm]

/-- Only the slot of the root is `sleep_q`. -/
theorem write_slotOf_sleep_q (h1 : 1 ≤ i) :
    (h.write (slotOf a i) v).sleep_q = if i = 1 then v else h.sleep_q := by
  unfold slotOf
  split_ifs with hi he hi' hi' <;> first | rfl | omega

/-- The left pointers after a write to the slot of position `i`: the parent's only changes where `i` is
even. -/
theorem Shape.write_left (hs : Shape h a n) (hp : i / 2 ≤ n) (hj : 1 ≤ j)
    (hjn : j ≤ n) : ((h.write (slotOf a i) v).node (a j)).left =
      if 2 * j = i then v else (h.node (a j)).left := by
  split_ifs with h2
  · subst h2
    rw [slotOf_left hj]
    simp [write]
  · by_cases hi : i / 2 = j ∧ 2 ≤ i
    · -- The slot is the right one of the same record.
      obtain ⟨rfl, hi⟩ := hi
      rw [show i = 2 * (i / 2) + 1 by omega, slotOf_right (by omega),
        show (2 * (i / 2) + 1) / 2 = i / 2 by omega]
      simp [write]
    · rw [write_slotOf_of_ne]
      intro hi2 heq
      exact hi ⟨hs.inj _ _ (by omega) hp hj hjn heq, hi2⟩

/-- The right pointers after a write to the slot of position `i`: the parent's only changes where `i` is
odd. -/
theorem Shape.write_right (hs : Shape h a n) (hp : i / 2 ≤ n) (hj : 1 ≤ j)
    (hjn : j ≤ n) : ((h.write (slotOf a i) v).node (a j)).right =
      if 2 * j + 1 = i then v else (h.node (a j)).right := by
  split_ifs with h2
  · subst h2
    rw [slotOf_right hj]
    simp [write]
  · by_cases hi : i / 2 = j ∧ 2 ≤ i
    · -- The slot is the left one of the same record.
      obtain ⟨rfl, hi⟩ := hi
      rw [show i = 2 * (i / 2) by omega, slotOf_left (by omega),
        show (2 * (i / 2)) / 2 = i / 2 by omega]
      simp [write]
    · rw [write_slotOf_of_ne]
      intro hi2 heq
      exact hi ⟨hs.inj _ _ (by omega) hp hj hjn heq, hi2⟩

end write

/-! ## The edits of the array -/

/-- The pointer to a position of an array with one entry replaced. -/
theorem ptr_update (a : ℕ → ℕ) (n i j x : ℕ) :
    ptr (Function.update a i x) n j = if j = i ∧ 1 ≤ i ∧ i ≤ n then some x else ptr a n j := by
  unfold ptr
  by_cases hj : j = i
  · subst hj
    by_cases hn : 1 ≤ j ∧ j ≤ n
    · simp [hn]
    · simp [hn]
  · simp [hj]

/-- Put the thread `x` into position `i` in place of the one there, whatever the heap fields of
`x` were: the assignments of the swap in `heap_insert`, and, with the children of the deleted
thread, those of `heap_delete`. The rest of the heap keeps its fields. -/
theorem Shape.place {h h' : Heap} {a : ℕ → ℕ} {n i x : ℕ} (hs : Shape h a n) (hx : Fresh a n x)
    (h1 : 1 ≤ i) (hn : i ≤ n)
    (hroot : h'.sleep_q = (h.write (slotOf a i) (some x)).sleep_q)
    (hother : ∀ u, u ≠ x → h'.node u = (h.write (slotOf a i) (some x)).node u)
    (hl : (h'.node x).left = ptr a n (2 * i)) (hr : (h'.node x).right = ptr a n (2 * i + 1))
    (hidx : (h'.node x).heap_index = i) : Shape h' (Function.update a i x) n := by
  have hp : i / 2 ≤ n := by omega
  have hne : ∀ j, j ≠ i → Function.update a i x j = a j := fun j hj => Function.update_of_ne hj _ _
  -- Each pointer to position `i` now holds `x`, and what `x` points to was given.
  constructor
  · rw [hroot, write_slotOf_sleep_q _ h1, ptr_update, hs.root]
    by_cases hi : i = 1
    · subst hi; simp [hn]
    · simp [hi, Ne.symm hi]
  · intro j hj hjn
    by_cases hji : j = i
    · subst hji
      rw [Function.update_self, hl, ptr_update, if_neg (by omega)]
    · rw [hne j hji, hother _ (hx j hj hjn), hs.write_left _ hp hj hjn, hs.left j hj hjn, ptr_update]
      simp [h1, hn]
  · intro j hj hjn
    by_cases hji : j = i
    · subst hji
      rw [Function.update_self, hr, ptr_update, if_neg (by omega)]
    · rw [hne j hji, hother _ (hx j hj hjn), hs.write_right _ hp hj hjn, hs.right j hj hjn,
        ptr_update]
      simp [h1, hn]
  · intro j hj hjn
    by_cases hji : j = i
    · subst hji
      rw [Function.update_self, hidx]
    · rw [hne j hji, hother _ (hx j hj hjn), (write_node _ _ _ _).2, hs.index j hj hjn]
  · -- The thread `x` was at no position before.
    intro j k hj hjn hk hkn heq
    by_cases hji : j = i <;> by_cases hki : k = i
    · rw [hji, hki]
    · subst hji
      rw [Function.update_self, hne k hki] at heq
      exact absurd heq.symm (hx k hk hkn)
    · subst hki
      rw [Function.update_self, hne j hji] at heq
      exact absurd heq (hx j hj hjn)
    · rw [hne j hji, hne k hki] at heq
      exact hs.inj j k hj hjn hk hkn heq

/-- Add the thread `x` as position `n + 1`: the end of `heap_insert` for a thread that is new to
the heap. -/
theorem Shape.append {h h' : Heap} {a : ℕ → ℕ} {n x : ℕ} (hs : Shape h a n) (hx : Fresh a n x)
    (hroot : h'.sleep_q = (h.write (slotOf a (n + 1)) (some x)).sleep_q)
    (hother : ∀ u, u ≠ x → h'.node u = (h.write (slotOf a (n + 1)) (some x)).node u)
    (hl : (h'.node x).left = none) (hr : (h'.node x).right = none)
    (hidx : (h'.node x).heap_index = n + 1) :
    Shape h' (Function.update a (n + 1) x) (n + 1) := by
  have hp : (n + 1) / 2 ≤ n := by omega
  have hne : ∀ j, j ≠ n + 1 → Function.update a (n + 1) x j = a j :=
    fun j hj => Function.update_of_ne hj _ _
  -- The pointers to the old positions, and to the new one.
  have hptr : ∀ j, ptr (Function.update a (n + 1) x) (n + 1) j =
      if j = n + 1 then some x else ptr a n j := by
    intro j
    unfold ptr
    by_cases hj : j = n + 1
    · subst hj; simp
    · have hiff : (1 ≤ j ∧ j ≤ n + 1) ↔ (1 ≤ j ∧ j ≤ n) := by omega
      simp [hj, hiff]
  constructor
  · rw [hroot, write_slotOf_sleep_q _ (by omega), hptr, hs.root]
    by_cases hn : n = 0
    · subst hn; simp
    · simp [hn]
  · intro j hj hjn
    by_cases hji : j = n + 1
    · subst hji
      rw [Function.update_self, hl, hptr, if_neg (by omega), ptr_of_gt (by omega)]
    · rw [hne j hji, hother _ (hx j hj (by omega)), hs.write_left _ hp hj (by omega),
        hs.left j hj (by omega), hptr]
  · intro j hj hjn
    by_cases hji : j = n + 1
    · subst hji
      rw [Function.update_self, hr, hptr, if_neg (by omega), ptr_of_gt (by omega)]
    · rw [hne j hji, hother _ (hx j hj (by omega)), hs.write_right _ hp hj (by omega),
        hs.right j hj (by omega), hptr]
  · intro j hj hjn
    by_cases hji : j = n + 1
    · subst hji
      rw [Function.update_self, hidx]
    · rw [hne j hji, hother _ (hx j hj (by omega)), (write_node _ _ _ _).2,
        hs.index j hj (by omega)]
  · intro j k hj hjn hk hkn heq
    by_cases hji : j = n + 1 <;> by_cases hki : k = n + 1
    · rw [hji, hki]
    · subst hji
      rw [Function.update_self, hne k hki] at heq
      exact absurd heq.symm (hx k hk (by omega))
    · subst hki
      rw [Function.update_self, hne j hji] at heq
      exact absurd heq (hx j hj (by omega))
    · rw [hne j hji, hne k hki] at heq
      exact hs.inj j k hj (by omega) hk (by omega) heq

/-- Unlink the last position: the first half of `heap_delete`. -/
theorem Shape.unlink {h : Heap} {a : ℕ → ℕ} {n : ℕ} (hs : Shape h a (n + 1)) :
    Shape (h.write (slotOf a (n + 1)) none) a n := by
  have hp : (n + 1) / 2 ≤ n + 1 := by omega
  have hptr : ∀ j, ptr a n j = if j = n + 1 then none else ptr a (n + 1) j := by
    intro j
    unfold ptr
    by_cases hj : j = n + 1
    · subst hj; simp
    · have hiff : (1 ≤ j ∧ j ≤ n + 1) ↔ (1 ≤ j ∧ j ≤ n) := by omega
      simp [hj, hiff]
  constructor
  · rw [write_slotOf_sleep_q _ (by omega), hptr, hs.root]
    by_cases hn : n = 0
    · subst hn; simp
    · simp [hn]
  · intro j hj hjn
    rw [hs.write_left _ hp hj (by omega), hs.left j hj (by omega), hptr]
  · intro j hj hjn
    rw [hs.write_right _ hp hj (by omega), hs.right j hj (by omega), hptr]
  · intro j hj hjn
    rw [(write_node _ _ _ _).2, hs.index j hj (by omega)]
  · intro j k hj hjn hk hkn heq
    exact hs.inj j k hj (by omega) hk (by omega) heq

/-- The last position's thread is not among the others. -/
theorem Shape.fresh_last {h : Heap} {a : ℕ → ℕ} {n : ℕ} (hs : Shape h a (n + 1)) :
    Fresh a n (a (n + 1)) := by
  intro i h1 hn heq
  have := hs.inj i (n + 1) h1 (by omega) (by omega) le_rfl heq
  omega

/-- A shape reads only the pointers, the indices, and the root. -/
theorem Shape.congr {h h' : Heap} {a : ℕ → ℕ} {n : ℕ} (hs : Shape h a n)
    (hroot : h'.sleep_q = h.sleep_q)
    (hnode : ∀ i, 1 ≤ i → i ≤ n → (h'.node (a i)).left = (h.node (a i)).left ∧
      (h'.node (a i)).right = (h.node (a i)).right ∧
      (h'.node (a i)).heap_index = (h.node (a i)).heap_index) : Shape h' a n := by
  constructor
  · rw [hroot, hs.root]
  · intro i h1 hn
    rw [(hnode i h1 hn).1, hs.left i h1 hn]
  · intro i h1 hn
    rw [(hnode i h1 hn).2.1, hs.right i h1 hn]
  · intro i h1 hn
    rw [(hnode i h1 hn).2.2, hs.index i h1 hn]
  · exact hs.inj

/-- Exchange the node at position `k` with its child at position `j`: the assignments of one
round of the sift-down. -/
theorem Shape.swap {h h' : Heap} {a : ℕ → ℕ} {n k j : ℕ} (hs : Shape h a n) (h1 : 1 ≤ k)
    (hj : j = 2 * k ∨ j = 2 * k + 1) (hn : j ≤ n)
    (hroot : h'.sleep_q = (h.write (slotOf a k) (some (a j))).sleep_q)
    (hother : ∀ u, u ≠ a k → u ≠ a j →
      h'.node u = (h.write (slotOf a k) (some (a j))).node u)
    (hyl : (h'.node (a j)).left = if j = 2 * k then some (a k) else ptr a n (2 * k))
    (hyr : (h'.node (a j)).right = if j = 2 * k then ptr a n (2 * k + 1) else some (a k))
    (htl : (h'.node (a k)).left = ptr a n (2 * j)) (htr : (h'.node (a k)).right = ptr a n (2 * j + 1))
    (hyi : (h'.node (a j)).heap_index = k) (hti : (h'.node (a k)).heap_index = j) :
    Shape h' (Function.update (Function.update a k (a j)) j (a k)) n := by
  -- The new array at `k`, at `j`, and elsewhere.
  have hkj : k ≠ j := by omega
  have hkn : k ≤ n := by omega
  have hp : k / 2 ≤ n := by omega
  have hak : Function.update (Function.update a k (a j)) j (a k) k = a j := by
    rw [Function.update_of_ne hkj, Function.update_self]
  have haj : Function.update (Function.update a k (a j)) j (a k) j = a k := Function.update_self _ _ _
  have hne : ∀ i, i ≠ k → i ≠ j → Function.update (Function.update a k (a j)) j (a k) i = a i := by
    intro i hik hij
    rw [Function.update_of_ne hij, Function.update_of_ne hik]
  have hptr : ∀ i, ptr (Function.update (Function.update a k (a j)) j (a k)) n i =
      if i = j then some (a k) else if i = k then some (a j) else ptr a n i := by
    intro i
    rw [ptr_update, ptr_update]
    simp [h1, hkn, hn, show 1 ≤ j by omega]
  -- The other positions hold neither of the two nodes, so that only the slot of `k` has changed there.
  have hak_ne : ∀ i, 1 ≤ i → i ≤ n → i ≠ k → a i ≠ a k :=
    fun i hi hin hik heq => hik (hs.inj i k hi hin h1 hkn heq)
  have haj_ne : ∀ i, 1 ≤ i → i ≤ n → i ≠ j → a i ≠ a j :=
    fun i hi hin hij heq => hij (hs.inj i j hi hin (by omega) hn heq)
  constructor
  · rw [hroot, write_slotOf_sleep_q _ h1, hptr, hs.root]
    by_cases hk : k = 1
    · rw [if_pos hk, if_neg (by omega), if_pos hk.symm]
    · rw [if_neg hk, if_neg (by omega), if_neg (Ne.symm hk)]
  · intro i hi hin
    by_cases hik : i = k
    · subst hik
      rw [hak, hyl, hptr]
      by_cases hj2 : j = 2 * i
      · rw [if_pos hj2, if_pos hj2.symm]
      · rw [if_neg hj2, if_neg (Ne.symm hj2), if_neg (by omega)]
    · by_cases hij : i = j
      · subst hij
        rw [haj, htl, hptr, if_neg (by omega), if_neg (by omega)]
      · rw [hne i hik hij, hother _ (hak_ne i hi hin hik) (haj_ne i hi hin hij),
          hs.write_left _ hp hi hin, hs.left i hi hin, hptr, if_neg (show 2 * i ≠ j by omega)]
  · intro i hi hin
    by_cases hik : i = k
    · subst hik
      rw [hak, hyr, hptr]
      by_cases hj2 : j = 2 * i
      · rw [if_pos hj2, if_neg (by omega), if_neg (by omega)]
      · rw [if_neg hj2, if_pos (by omega)]
    · by_cases hij : i = j
      · subst hij
        rw [haj, htr, hptr, if_neg (by omega), if_neg (by omega)]
      · rw [hne i hik hij, hother _ (hak_ne i hi hin hik) (haj_ne i hi hin hij),
          hs.write_right _ hp hi hin, hs.right i hi hin, hptr, if_neg (show 2 * i + 1 ≠ j by omega)]
  · intro i hi hin
    by_cases hik : i = k
    · subst hik
      rw [hak, hyi]
    · by_cases hij : i = j
      · subst hij
        rw [haj, hti]
      · rw [hne i hik hij, hother _ (hak_ne i hi hin hik) (haj_ne i hi hin hij),
          (write_node _ _ _ _).2, hs.index i hi hin]
  · intro i i' hi hin hi' hin' heq
    by_cases hik : i = k <;> by_cases hij : i = j <;> by_cases hik' : i' = k <;>
      by_cases hij' : i' = j <;> grind [hs.inj]

end StWin.Heap
