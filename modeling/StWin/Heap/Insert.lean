import StWin.Heap.Rep
import StWin.Heap.Walk
import Mathlib.Order.Interval.Finset.Nat

/-!
# `heap_insert` keeps the heap

`heap_insert` walks from the root to the target position with a thread in hand. Where the thread in
hand is due before the node it meets, it takes that node's place and the node is in hand from
there on. `Walked` is what holds when the walk ends: the array has changed only on the path, it is
ordered, and the thread in hand is due no earlier than the target's parent.

The walk is used at two targets. For `_st_add_sleep_q` the target is one past the last position
(`heapInsert_append`), and for `heap_delete` it is the position of the thread to delete
(`heapInsert_replace`).
-/

namespace StWin.Heap

/-- The threads at positions `1` to `n`. -/
def members (a : ℕ → ℕ) (n : ℕ) : Finset ℕ := (Finset.Icc 1 n).image a

/-- A thread is in the heap exactly when it is at one of the positions. -/
theorem mem_members {a : ℕ → ℕ} {n u : ℕ} :
    u ∈ members a n ↔ ∃ i, 1 ≤ i ∧ i ≤ n ∧ a i = u := by
  simp [members, and_assoc]

/-- A thread is at none of the positions exactly when it is not in the heap. -/
theorem fresh_iff {a : ℕ → ℕ} {n x : ℕ} : Fresh a n x ↔ x ∉ members a n := by
  rw [mem_members]
  constructor
  · rintro hf ⟨i, h1, hn, heq⟩
    exact hf i h1 hn heq
  · intro hx i h1 hn heq
    exact hx ⟨i, h1, hn, heq⟩

/-- Replacing the entry at a position exchanges the old entry for the new one. -/
theorem members_update {h : Heap} {a : ℕ → ℕ} {n i x : ℕ} (hs : Shape h a n) (h1 : 1 ≤ i)
    (hn : i ≤ n) : members (Function.update a i x) n = insert x ((members a n).erase (a i)) := by
  ext u
  rw [Finset.mem_insert, Finset.mem_erase, mem_members, mem_members]
  constructor
  · rintro ⟨j, hj, hjn, rfl⟩
    by_cases hji : j = i
    · subst hji
      left; simp
    · right
      rw [Function.update_of_ne hji]
      exact ⟨fun heq => hji (hs.inj j i hj hjn h1 hn heq), j, hj, hjn, rfl⟩
  · rintro (rfl | ⟨hne, j, hj, hjn, rfl⟩)
    · exact ⟨i, h1, hn, by simp⟩
    · have hji : j ≠ i := fun heq => hne (by rw [heq])
      exact ⟨j, hj, hjn, by rw [Function.update_of_ne hji]⟩

/-- What holds when `heap_insert` has walked the last `b` bits of `target`, from the heap `h` with
array `a` and the thread `x` in hand, to `h'`, `a'`, and `x'`. -/
structure Walked (target b : ℕ) (h : Heap) (a : ℕ → ℕ) (n x : ℕ) (h' : Heap) (a' : ℕ → ℕ)
    (x' : ℕ) : Prop where
  shape : Shape h' a' n
  fresh : Fresh a' n x'
  ordered : Ordered (fun u => (h'.node u).due) a' n
  above : 2 ≤ target → (h'.node (a' (target / 2))).due ≤ (h'.node x').due
  due : ∀ u, (h'.node u).due = (h.node u).due
  size : h'.sleepq_size = h.sleepq_size
  off_path : ∀ j, (∀ c, 1 ≤ c → c ≤ b → j ≠ target / 2 ^ c) → a' j = a j
  members_eq : insert x' (members a' n) = insert x (members a n)
  moved : x' = x ∨ ∃ c, 1 ≤ c ∧ c ≤ b ∧ a' (target / 2 ^ c) = x

/-- The positions of a path to the root get strictly smaller. -/
theorem div_two_pow_lt {target b c : ℕ} (hpos : 1 ≤ target / 2 ^ b) (hcb : c < b) :
    target / 2 ^ b < target / 2 ^ c := by
  have h1 : target / 2 ^ b ≤ target / 2 ^ (c + 1) :=
    Nat.div_le_div_left (Nat.pow_le_pow_right (by norm_num) (by omega)) (Nat.two_pow_pos _)
  have h2 := div_two_pow_succ target c
  omega

/-- A thread whose place another one has taken is in the heap no longer. -/
theorem Shape.fresh_update {h : Heap} {a : ℕ → ℕ} {n i x : ℕ} (hs : Shape h a n) (hx : Fresh a n x)
    (h1 : 1 ≤ i) (hn : i ≤ n) : Fresh (Function.update a i x) n (a i) := by
  intro j hj hjn heq
  by_cases hji : j = i
  · subst hji
    rw [Function.update_self] at heq
    exact hx j hj hjn heq.symm
  · rw [Function.update_of_ne hji] at heq
    exact hji (hs.inj j i hj hjn h1 hn heq)

/-- The swap of `heap_insert` at position `i`: the thread in hand takes the node's place. -/
theorem takePlace_shape {h : Heap} {a : ℕ → ℕ} {n i x : ℕ} (hs : Shape h a n) (hx : Fresh a n x)
    (h1 : 1 ≤ i) (hn : i ≤ n) :
    Shape (h.takePlace (slotOf a i) i x (a i)) (Function.update a i x) n := by
  have hpx : 2 ≤ i → a (i / 2) ≠ x := fun hi => hx (i / 2) (by omega) (by omega)
  unfold takePlace
  refine hs.place hx h1 hn ?_ ?_ ?_ ?_ ?_
  · rw [setNode_sleep_q, setNode_write_sleep_q]
  · intro u hu
    rw [setNode_node_of_ne _ _ hu, setNode_write_of_ne _ _ _ _ hu]
  · rw [setNode_node_self, write_slotOf_of_ne _ hpx, setNode_node_self]
    exact hs.left i h1 hn
  · rw [setNode_node_self, write_slotOf_of_ne _ hpx, setNode_node_self]
    exact hs.right i h1 hn
  · rw [setNode_node_self]

/-- The swap of `heap_insert` changes no due time. -/
theorem takePlace_due (h : Heap) (p : Slot) (i x t u : ℕ) :
    ((h.takePlace p i x t).node u).due = (h.node u).due := by
  unfold takePlace
  by_cases hu : u = x
  · subst hu
    rw [setNode_node_self]
    simp [(write_node _ _ _ _).1]
  · rw [setNode_node_of_ne _ _ hu, (write_node _ _ _ _).1, setNode_node_of_ne _ _ hu]

/-- Replacing a node by a thread due earlier, but not before the parent, keeps the order. -/
theorem Ordered.place {due a : ℕ → ℕ} {n i x : ℕ} (ho : Ordered due a n)
    (habove : 2 ≤ i → due (a (i / 2)) ≤ due x) (hx : due x ≤ due (a i)) :
    Ordered due (Function.update a i x) n := by
  intro j hj hjn
  by_cases hji : j = i
  · subst hji
    rw [Function.update_self, Function.update_of_ne (by omega)]
    exact habove hj
  · rw [Function.update_of_ne hji]
    by_cases hpi : j / 2 = i
    · rw [hpi, Function.update_self]
      have := ho j hj hjn
      rw [hpi] at this
      exact le_trans hx this
    · rw [Function.update_of_ne hpi]
      exact ho j hj hjn

/-- A swap at the head of a walk, before the walk of the remaining bits. -/
theorem Walked.cons_swap {target b n i x x' : ℕ} {h h₁ h' : Heap} {a a' : ℕ → ℕ}
    (hi : i = target / 2 ^ (b + 1)) (h1 : 1 ≤ i) (hn : i ≤ n) (hs : Shape h a n)
    (hdue : ∀ u, (h₁.node u).due = (h.node u).due)
    (hsize : h₁.sleepq_size = h.sleepq_size)
    (hw : Walked target b h₁ (Function.update a i x) n (a i) h' a' x') :
    Walked target (b + 1) h a n x h' a' x' := by
  have hoff : a' i = x := by
    rw [hw.off_path i, Function.update_self]
    intro c _ hcb heq
    have := @div_two_pow_lt target (b + 1) c (by omega) (by omega)
    omega
  refine ⟨hw.shape, hw.fresh, hw.ordered, hw.above, ?_, ?_, ?_, ?_, ?_⟩
  · intro u
    rw [hw.due, hdue]
  · rw [hw.size, hsize]
  · intro j hj
    rw [hw.off_path j fun c hc hcb => hj c hc (by omega), Function.update_of_ne]
    rw [hi]
    exact hj (b + 1) (by omega) le_rfl
  · have hmem : a i ∈ members a n := mem_members.mpr ⟨i, h1, hn, rfl⟩
    rw [hw.members_eq, members_update hs h1 hn, Finset.insert_comm, Finset.insert_erase hmem]
  · right
    exact ⟨b + 1, by omega, le_rfl, by rw [← hi, hoff]⟩

/-- A position that the walk passes without a swap. -/
theorem Walked.cons_keep {target b n x x' : ℕ} {h h' : Heap} {a a' : ℕ → ℕ}
    (hw : Walked target b h a n x h' a' x') : Walked target (b + 1) h a n x h' a' x' := by
  refine ⟨hw.shape, hw.fresh, hw.ordered, hw.above, hw.due, hw.size, ?_, hw.members_eq, ?_⟩
  · intro j hj
    exact hw.off_path j fun c hc hcb => hj c hc (by omega)
  · rcases hw.moved with hm | ⟨c, hc, hcb, heq⟩
    · exact Or.inl hm
    · exact Or.inr ⟨c, hc, by omega, heq⟩

/-- One iteration from position `target / 2^(b + 1)` to the next one, and what the walk of the
remaining bits then amounts to. -/
theorem down_spec {target b n i x : ℕ} {h : Heap} {a : ℕ → ℕ} (hi : i = target / 2 ^ (b + 1)) (h1 : 1 ≤ i)
    (hn : i ≤ n) (hs : Shape h a n) (hx : Fresh a n x) (ho : Ordered (fun u => (h.node u).due) a n)
    (habove : 2 ≤ i → (h.node (a (i / 2))).due ≤ (h.node x).due) :
    ∃ h₁ a₁ x₁, Walk.down ⟨h, x, slotOf a i, i⟩ (target.testBit b) =
        some ⟨h₁, x₁, slotOf a₁ (target / 2 ^ b), target / 2 ^ b⟩ ∧
      Shape h₁ a₁ n ∧ Fresh a₁ n x₁ ∧ Ordered (fun u => (h₁.node u).due) a₁ n ∧
      (h₁.node (a₁ i)).due ≤ (h₁.node x₁).due ∧
      ∀ {h' a' x'}, Walked target b h₁ a₁ n x₁ h' a' x' → Walked target (b + 1) h a n x h' a' x' := by
  have hnext : target / 2 ^ b = 2 * i + (target.testBit b).toNat := by
    rw [hi]; exact div_two_pow_succ target b
  have hread : ∀ {h₁ : Heap} {a₁ : ℕ → ℕ}, Shape h₁ a₁ n → h₁.read (slotOf a₁ i) = some (a₁ i) := by
    intro h₁ a₁ hs₁
    rw [hs₁.read_slotOf h1 (by omega), ptr_of_le h1 hn]
  rw [Walk.down, hread hs, Option.bind_eq_bind, Option.bind_some]
  by_cases hlt : (h.node x).due < (h.node (a i)).due
  · -- The thread in hand takes the node's place, and the node is in hand from here on.
    rw [if_pos hlt]
    have hs₁ := takePlace_shape hs hx h1 hn
    have hdue := takePlace_due h (slotOf a i) i x (a i)
    have hslot : slotOf (Function.update a i x) i = slotOf a i := slotOf_update h1
    have hread₁ := hread hs₁
    rw [hslot] at hread₁
    refine ⟨h.takePlace (slotOf a i) i x (a i), Function.update a i x, a i, ?_, hs₁,
      hs.fresh_update hx h1 hn, ?_, ?_, fun hw => hw.cons_swap hi h1 hn hs hdue ?_⟩
    · rw [hnext, slotOf_child h1]
      simp only [hread₁, Option.bind_some]
    · simp only [hdue]
      exact ho.place habove hlt.le
    · rw [hdue, hdue, Function.update_self]
      exact hlt.le
    · simp [takePlace]
  · rw [if_neg hlt]
    refine ⟨h, a, x, ?_, hs, hx, ho, not_lt.mp hlt, fun hw => hw.cons_keep⟩
    rw [hnext, slotOf_child h1]
    simp only [hread hs, Option.bind_some]

/-- The walk of `heap_insert` without its tests, from position `target / 2^b` on: it dereferences no
`NULL`, and ends at the slot of `target`. -/
theorem descend_spec {target n : ℕ} (htn : target / 2 ≤ n) (b : ℕ) :
    ∀ {h : Heap} {a : ℕ → ℕ} {x i : ℕ}, i = target / 2 ^ b → 1 ≤ i → Shape h a n → Fresh a n x →
      Ordered (fun u => (h.node u).due) a n →
      (2 ≤ i → (h.node (a (i / 2))).due ≤ (h.node x).due) →
      ∃ h' a' x', Walk.descend target 0 b ⟨h, x, slotOf a i, i⟩ =
          some ⟨h', x', slotOf a' target, target⟩ ∧ Walked target b h a n x h' a' x' := by
  induction b with
  | zero =>
    intro h a x i hi h1 hs hx ho habove
    simp only [pow_zero, Nat.div_one] at hi
    subst hi
    exact ⟨h, a, x, rfl, hs, hx, ho, habove, fun _ => rfl, rfl, fun _ _ => rfl, rfl, Or.inl rfl⟩
  | succ b ih =>
    intro h a x i hi h1 hs hx ho habove
    have hhalf : target / 2 ^ (b + 1) ≤ target / 2 :=
      Nat.div_le_div_left (Nat.le_self_pow (by omega) 2) (by norm_num)
    have hdiv : target / 2 ^ b / 2 = i := by rw [hi, pow_succ, Nat.div_div_eq_div_mul]
    obtain ⟨h₁, a₁, x₁, hdown, hs₁, hx₁, ho₁, hab₁, hcons⟩ :=
      down_spec hi h1 (by omega) hs hx ho habove
    obtain ⟨h', a', x', hrun, hw⟩ := @ih h₁ a₁ x₁ _ rfl (by omega) hs₁ hx₁ ho₁
      (by intro _; rw [hdiv]; exact hab₁)
    refine ⟨h', a', x', ?_, hcons hw⟩
    rw [Walk.descend, Nat.zero_add, hdown]
    exact hrun

/-- The states in which the tests are made: the walk is at the slot of the position that it has
reached. -/
theorem descend_stop {target n b stop : ℕ} (htn : target / 2 ≤ n) (hstop : stop ≤ b) {h : Heap}
    {a : ℕ → ℕ} {x i : ℕ} (hi : i = target / 2 ^ b) (h1 : 1 ≤ i) (hs : Shape h a n) (hx : Fresh a n x)
    (ho : Ordered (fun u => (h.node u).due) a n)
    (habove : 2 ≤ i → (h.node (a (i / 2))).due ≤ (h.node x).due) :
    ∃ h' a' x', Walk.descend target stop (b - stop) ⟨h, x, slotOf a i, i⟩ =
      some ⟨h', x', slotOf a' (target / 2 ^ stop), target / 2 ^ stop⟩ ∧ Shape h' a' n := by
  have hhalf : target / 2 ^ stop / 2 ≤ n := by
    have := Nat.div_le_div_right (c := 2) (Nat.div_le_self target (2 ^ stop))
    omega
  have hi' : i = target / 2 ^ stop / 2 ^ (b - stop) := by
    rw [hi, Nat.div_div_eq_div_mul, ← pow_add, Nat.add_sub_cancel' hstop]
  obtain ⟨h', a', x', hrun, hw⟩ := descend_spec hhalf (b - stop) hi' h1 hs hx ho habove
  exact ⟨h', a', x', by rw [Walk.descend_div]; exact hrun, hw.shape⟩

/-- The tests of `heap_insert` change nothing: one can find a `NULL` only when no bits are left, since
every proper ancestor of the target is in the heap. -/
theorem heapInsertLoop_descend {target n b : ℕ} (htn : target / 2 ≤ n) {h : Heap} {a : ℕ → ℕ}
    {x i : ℕ} (hi : i = target / 2 ^ b) (h1 : 1 ≤ i) (hs : Shape h a n) (hx : Fresh a n x)
    (ho : Ordered (fun u => (h.node u).due) a n)
    (habove : 2 ≤ i → (h.node (a (i / 2))).due ≤ (h.node x).due) :
    heapInsertLoop target b h x (slotOf a i) i =
      (Walk.descend target 0 b ⟨h, x, slotOf a i, i⟩).map fun w =>
        (w.heap, w.thread, w.p, w.index) := by
  refine @heapInsertLoop_eq target b ⟨h, x, slotOf a i, i⟩ fun bit hpos hlt w hw => ?_
  obtain ⟨h', a', x', hrun, hs'⟩ := descend_stop htn hlt.le hi h1 hs hx ho habove
  rw [hrun, Option.some_inj] at hw
  subst hw
  have hle : target / 2 ^ bit ≤ target / 2 :=
    Nat.div_le_div_left (Nat.le_self_pow (by omega) 2) (by norm_num)
  have hge : target / 2 ^ b ≤ target / 2 ^ bit :=
    Nat.div_le_div_left (Nat.pow_le_pow_right (by norm_num) hlt.le) (Nat.two_pow_pos _)
  rw [hs'.read_slotOf (by omega) (by omega), ptr_of_le (by omega) (by omega)]
  simp

/-! ## The two uses of the walk -/

section linkLeaf

variable (h : Heap) (p : Slot) (x u : ℕ)

/-- The link to a new leaf leaves `sleepq_size` as it is. -/
theorem linkLeaf_sleepq_size : (h.linkLeaf p x).sleepq_size = h.sleepq_size := by
  simp [linkLeaf]

/-- The link to a new leaf leaves the due times as they are. -/
theorem linkLeaf_due : ((h.linkLeaf p x).node u).due = (h.node u).due := by
  unfold linkLeaf
  by_cases hu : u = x
  · subst hu
    rw [setNode_node_self]
    simp [(write_node _ _ _ _).1]
  · rw [setNode_node_of_ne _ _ hu, (write_node _ _ _ _).1]

variable {u x}

/-- The other nodes only change where the link is written. -/
theorem linkLeaf_of_ne (hu : u ≠ x) : (h.linkLeaf p x).node u = (h.write p (some x)).node u :=
  setNode_node_of_ne _ _ hu

/-- A new leaf has no children, and its `heap_index` is the one that it had. -/
theorem linkLeaf_self : ((h.linkLeaf p x).node x).left = none ∧
    ((h.linkLeaf p x).node x).right = none ∧
    ((h.linkLeaf p x).node x).heap_index = (h.node x).heap_index := by
  refine ⟨?_, ?_, ?_⟩
  · rw [linkLeaf, setNode_node_self]
  · rw [linkLeaf, setNode_node_self]
  · rw [linkLeaf, setNode_node_self]
    exact (write_node _ _ _ _).2

end linkLeaf

/-- Assigning to a record that is in no position keeps the shape. -/
theorem Shape.setNode {h : Heap} {a : ℕ → ℕ} {n x : ℕ} (hs : Shape h a n) (hx : Fresh a n x)
    (f : HeapNode → HeapNode) : Shape (h.setNode x f) a n := by
  refine hs.congr rfl fun i h1 hn => ?_
  rw [setNode_node_of_ne _ _ (hx i h1 hn)]
  exact ⟨rfl, rfl, rfl⟩

/-- Assigning an index changes no due time. -/
theorem setIndex_due (h : Heap) (x i u : ℕ) :
    ((h.setNode x fun n => { n with heap_index := i }).node u).due = (h.node u).due := by
  by_cases hu : u = x
  · subst hu; rw [setNode_node_self]
  · rw [setNode_node_of_ne _ _ hu]

/-- `heap_insert` on a heap that is not empty: the walk to the position in the thread's
`heap_index`, whose proper ancestors are all in the heap. -/
theorem heapInsert_walk {h : Heap} {a : ℕ → ℕ} {n x k : ℕ} (hn : 1 ≤ n) (hs : Shape h a n)
    (ho : Ordered (fun u => (h.node u).due) a n) (hx : Fresh a n x)
    (hk : (h.node x).heap_index = k) (h1 : 1 ≤ k) (hhalf : k / 2 ≤ n) :
    ∃ h₁ a₁ x₁, heapInsert h x = some (h₁.linkLeaf (slotOf a₁ k) x₁, slotOf a₁ k) ∧
      (h₁.node x₁).heap_index = k ∧ Walked k k.log2 h a n x h₁ a₁ x₁ := by
  have hstart := div_two_pow_log2 (show k ≠ 0 by omega)
  obtain ⟨h₁, a₁, x₁, hdescend, hw⟩ := descend_spec hhalf k.log2 hstart.symm le_rfl hs hx ho (by omega)
  have hrun := heapInsertLoop_descend hhalf hstart.symm le_rfl hs hx ho (by omega)
  rw [hdescend, Option.map_some] at hrun
  have hroot : h.read .root ≠ none := by
    rw [← slotOf_one a, hs.read_slotOf le_rfl (by omega), ptr_of_le le_rfl hn]
    simp
  refine ⟨h₁.setNode x₁ fun n => { n with heap_index := k }, a₁, x₁, ?_, by simp, ?_⟩
  · rw [slotOf_one] at hrun
    rw [heapInsert, if_neg hroot]
    simp only [bitLength_sub_one, hk, hrun, Option.bind_eq_bind, Option.bind_some]
  · refine ⟨hw.shape.setNode hw.fresh _, hw.fresh, ?_, ?_, ?_, hw.size, hw.off_path,
      hw.members_eq, hw.moved⟩
    · simp only [setIndex_due]; exact hw.ordered
    · simp only [setIndex_due]; exact hw.above
    · simp only [setIndex_due]; exact hw.due

/-- `heap_insert` computes what it would compute without its tests. -/
theorem heapInsert_eq_walkInsert {h : Heap} {a : ℕ → ℕ} {n x k : ℕ} (hs : Shape h a n)
    (ho : Ordered (fun u => (h.node u).due) a n) (hx : Fresh a n x)
    (hk : (h.node x).heap_index = k) (h1 : 1 ≤ k) (hhalf : k / 2 ≤ n) : h.heapInsert x = h.walkInsert x := by
  have hloop := heapInsertLoop_descend hhalf (div_two_pow_log2 (show k ≠ 0 by omega)).symm le_rfl hs hx
    ho (by omega)
  rw [slotOf_one] at hloop
  rw [heapInsert, walkInsert, hk, bitLength_sub_one]
  split_ifs with hroot
  · -- In an empty heap the only target is the root, and its index is there already.
    rw [← slotOf_one a, hs.read_slotOf le_rfl (by omega), ptr_eq_none_iff le_rfl] at hroot
    obtain rfl : k = 1 := by omega
    have hsame : (h.setNode x fun n => { n with heap_index := 1 }) = h := by
      unfold setNode
      rw [← hk, Function.update_eq_self]
    show _ = some ((h.setNode x fun n => { n with heap_index := 1 }).linkLeaf .root x, Slot.root)
    rw [hsame]
  · dsimp only
    rw [bitLength_sub_one, hloop]
    cases Walk.descend k 0 k.log2 ⟨h, x, .root, 1⟩ with
    | none => rfl
    | some w => rfl

/-- `heap_insert` of a thread that is not in the heap, at the position after the last: the heap
gains the thread. -/
theorem heapInsert_append {h : Heap} {a : ℕ → ℕ} {n x : ℕ} (hs : Shape h a n)
    (ho : Ordered (fun u => (h.node u).due) a n) (hx : Fresh a n x)
    (hidx : (h.node x).heap_index = n + 1) :
    ∃ h' a', heapInsert h x = some (h', slotOf a' (n + 1)) ∧ Shape h' a' (n + 1) ∧
      Ordered (fun u => (h'.node u).due) a' (n + 1) ∧
      members a' (n + 1) = insert x (members a n) ∧
      (∀ u, (h'.node u).due = (h.node u).due) ∧ h'.sleepq_size = h.sleepq_size := by
  -- The heap after the walk, of `n` positions, with `x₁` in hand.
  obtain ⟨h₁, a₁, x₁, hrun, hidx₁, hs₁, hx₁, ho₁, hab₁, hdue₁, hsize₁, hmem₁⟩ :
      ∃ h₁ a₁ x₁, heapInsert h x = some (h₁.linkLeaf (slotOf a₁ (n + 1)) x₁, slotOf a₁ (n + 1)) ∧
        (h₁.node x₁).heap_index = n + 1 ∧ Shape h₁ a₁ n ∧ Fresh a₁ n x₁ ∧
        Ordered (fun u => (h₁.node u).due) a₁ n ∧
        (2 ≤ n + 1 → (h₁.node (a₁ ((n + 1) / 2))).due ≤ (h₁.node x₁).due) ∧
        (∀ u, (h₁.node u).due = (h.node u).due) ∧ h₁.sleepq_size = h.sleepq_size ∧
        insert x₁ (members a₁ n) = insert x (members a n) := by
    rcases Nat.eq_zero_or_pos n with hn | hn
    · -- The first thread: no walk.
      subst hn
      refine ⟨h, a, x, ?_, hidx, hs, hx, ho, by omega, fun _ => rfl, rfl, rfl⟩
      have hroot : h.read .root = none := by
        rw [← slotOf_one a, hs.read_slotOf le_rfl (by omega), ptr_of_gt (by omega)]
      rw [heapInsert, if_pos hroot]
      rfl
    · obtain ⟨h₁, a₁, x₁, hrun, hidx₁, hw⟩ :=
        heapInsert_walk hn hs ho hx hidx (by omega) (by omega)
      exact ⟨h₁, a₁, x₁, hrun, hidx₁, hw.shape, hw.fresh, hw.ordered, hw.above, hw.due, hw.size,
        hw.members_eq⟩
  obtain ⟨hl, hr, hi⟩ := @linkLeaf_self h₁ (slotOf a₁ (n + 1)) x₁
  refine ⟨h₁.linkLeaf (slotOf a₁ (n + 1)) x₁, Function.update a₁ (n + 1) x₁, ?_, ?_, ?_, ?_, ?_, ?_⟩
  · rw [slotOf_update (by omega)]
    exact hrun
  · exact hs₁.append hx₁ rfl (fun u hu => linkLeaf_of_ne _ _ hu) hl hr (hi.trans hidx₁)
  · simp only [linkLeaf_due]
    intro j hj hjn
    rw [Function.update_of_ne (show j / 2 ≠ n + 1 by omega)]
    by_cases hj' : j = n + 1
    · subst hj'
      rw [Function.update_self]
      exact hab₁ hj
    · rw [Function.update_of_ne hj']
      exact ho₁ j hj (by omega)
  · rw [← hmem₁]
    ext u
    rw [Finset.mem_insert, mem_members, mem_members]
    constructor
    · rintro ⟨j, hj, hjn, rfl⟩
      by_cases hj' : j = n + 1
      · subst hj'
        left; simp
      · right
        exact ⟨j, hj, by omega, by rw [Function.update_of_ne hj']⟩
    · rintro (rfl | ⟨j, hj, hjn, rfl⟩)
      · exact ⟨n + 1, by omega, le_rfl, by simp⟩
      · exact ⟨j, hj, by omega, by rw [Function.update_of_ne (by omega)]⟩
  · intro u
    rw [linkLeaf_due, hdue₁]
  · rw [linkLeaf_sleepq_size, hsize₁]

end StWin.Heap
