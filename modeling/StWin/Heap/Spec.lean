import StWin.Heap.Delete

/-!
# The representation invariant of the timeout heap

`nodeAt h i` follows the pointers from `sleep_q` to position `i`: the root is position 1, and the
children of position `i` are `2 i` and `2 i + 1`. `Wf h S` is the heap's representation invariant,
in terms of those pointers: the tree is the complete binary tree with `sleepq_size` nodes, each node
knows its position, no node is due before its parent, and the nodes are the threads of `S`.

`addSleepQ_wf` and `delSleepQ_wf` say what `_st_add_sleep_q` and `_st_del_sleep_q` do to a heap with
the invariant, and `sleepOps_wf` what every sequence of them leaves.
-/

namespace StWin.Heap

/-! ## Positions by pointers -/

/-- Follow the low `b` bits of `i` from the slot `p`. -/
def walk (h : Heap) (i : ℕ) : ℕ → Slot → Option ℕ
  | 0, p => h.read p
  | b + 1, p => (h.read p).bind fun t => walk h i b (childSlot (i.testBit b) t)

/-- The node at position `i`, by the pointers from `sleep_q`. -/
def nodeAt (h : Heap) (i : ℕ) : Option ℕ := if i = 0 then none else h.walk i i.log2 .root

/-- In a heap of the shape of `a`, the pointers lead to the array's entries. -/
theorem Shape.walk_eq {h : Heap} {a : ℕ → ℕ} {n i : ℕ} (hs : Shape h a n) (b : ℕ) :
    ∀ {j : ℕ}, j = i / 2 ^ b → 1 ≤ j → j / 2 ≤ n → h.walk i b (slotOf a j) = ptr a n i := by
  induction b with
  | zero =>
    intro j hj h1 hhalf
    simp only [pow_zero, Nat.div_one] at hj
    subst hj
    exact hs.read_slotOf h1 hhalf
  | succ b ih =>
    intro j hj h1 hhalf
    have hnext := div_two_pow_succ i b
    rw [← hj] at hnext
    rw [walk, hs.read_slotOf h1 hhalf]
    by_cases hjn : j ≤ n
    · have hbit := Bool.toNat_le (i.testBit b)
      rw [ptr_of_le h1 hjn, Option.bind_some, ← slotOf_child h1]
      exact ih hnext.symm (by omega) (by omega)
    · have hle : j ≤ i := by rw [hj]; exact Nat.div_le_self _ _
      rw [ptr_of_gt (by omega), ptr_of_gt (by omega), Option.bind_none]

/-- The node at a position of the tree is the one in the array. -/
theorem Shape.nodeAt_eq {h : Heap} {a : ℕ → ℕ} {n : ℕ} (hs : Shape h a n) (i : ℕ) :
    h.nodeAt i = ptr a n i := by
  unfold nodeAt
  split_ifs with hi
  · subst hi
    rfl
  · rw [← slotOf_one a]
    exact hs.walk_eq _ (div_two_pow_log2 hi).symm le_rfl (by omega)

/-- The walk to a child is the walk to the parent and one step more. -/
theorem walk_child (h : Heap) (i : ℕ) (right : Bool) (b : ℕ) (p : Slot) :
    h.walk (2 * i + right.toNat) (b + 1) p =
      (h.walk i b p).bind fun t => h.read (childSlot right t) := by
  induction b generalizing p with
  | zero =>
    have hbit : (2 * i + right.toNat).testBit 0 = right := by
      cases right <;> simp [Nat.testBit_zero]
    simp only [walk, hbit]
  | succ b ih =>
    have hbit : (2 * i + right.toNat).testBit (b + 1) = i.testBit b := by
      rw [Nat.testBit_succ]
      congr 1
      have := Bool.toNat_le right
      omega
    rw [walk, walk, hbit]
    simp only [ih]
    rw [Option.bind_assoc]

/-- A child's position is reached through the node at its parent's. -/
theorem nodeAt_child (h : Heap) {i : ℕ} (h1 : 1 ≤ i) (right : Bool) :
    h.nodeAt (2 * i + right.toNat) = (h.nodeAt i).bind fun t => h.read (childSlot right t) := by
  have hbit := Bool.toNat_le right
  have hlog : (2 * i + right.toNat).log2 = i.log2 + 1 := by
    have hself := Nat.log2_self_le (show i ≠ 0 by omega)
    have hlt := @Nat.lt_log2_self i
    rw [Nat.log2_eq_iff (by omega), pow_succ, pow_succ]
    rw [pow_succ] at hlt
    omega
  unfold nodeAt
  rw [if_neg (by omega), if_neg (by omega), hlog]
  exact walk_child h i right _ _

/-! ## The invariant -/

/-- The representation invariant: the tree rooted at `sleep_q` is the complete binary tree with
`sleepq_size` nodes, which are the threads of `S`. -/
structure Wf (h : Heap) (S : Finset ℕ) : Prop where
  /-- Exactly the positions `1` to `sleepq_size` have a node. -/
  complete : ∀ i, (∃ t, h.nodeAt i = some t) ↔ 1 ≤ i ∧ i ≤ h.sleepq_size
  /-- The node at position `i` has `heap_index` `i`. -/
  index : ∀ i t, h.nodeAt i = some t → (h.node t).heap_index = i
  /-- No node's due time is smaller than its parent's. -/
  order : ∀ i t u, h.nodeAt i = some t → h.nodeAt (i / 2) = some u →
    (h.node u).due ≤ (h.node t).due
  /-- The nodes are the threads of `S`, each at one position. -/
  mem : ∀ t, t ∈ S ↔ ∃! i, h.nodeAt i = some t

/-- An ordered array of the heap's size is a well-formed heap. -/
theorem Shape.wf {h : Heap} {a : ℕ → ℕ} {n : ℕ} (hs : Shape h a n)
    (ho : Ordered (fun u => (h.node u).due) a n) (hn : h.sleepq_size = n) :
    Wf h (members a n) := by
  -- The walk from the root reaches the positions of the array and no others.
  have hat : ∀ {i t}, h.nodeAt i = some t ↔ 1 ≤ i ∧ i ≤ n ∧ a i = t := by
    intro i t
    rw [hs.nodeAt_eq]
    unfold ptr
    split_ifs with hi
    · simp [hi]
    · simp only [false_iff, ← and_assoc]
      exact fun hc => hi hc.1
  refine ⟨?_, ?_, ?_, ?_⟩
  · intro i
    rw [hn]
    constructor
    · rintro ⟨t, ht⟩
      obtain ⟨h1, hin, -⟩ := hat.mp ht
      exact ⟨h1, hin⟩
    · rintro ⟨h1, hin⟩
      exact ⟨a i, hat.mpr ⟨h1, hin, rfl⟩⟩
  · intro i t ht
    obtain ⟨h1, hin, rfl⟩ := hat.mp ht
    exact hs.index i h1 hin
  · intro i t u ht hu
    obtain ⟨h1, hin, rfl⟩ := hat.mp ht
    obtain ⟨h1', -, rfl⟩ := hat.mp hu
    exact ho i (by omega) hin
  · intro t
    rw [mem_members]
    constructor
    · rintro ⟨i, h1, hin, rfl⟩
      -- A thread is at one position only.
      refine ⟨i, hat.mpr ⟨h1, hin, rfl⟩, ?_⟩
      intro j hj
      obtain ⟨hj1, hjn, heq⟩ := hat.mp hj
      exact hs.inj j i hj1 hjn h1 hin heq
    · rintro ⟨i, hi, -⟩
      obtain ⟨h1, hin, heq⟩ := hat.mp hi
      exact ⟨i, h1, hin, heq⟩

/-- The invariant gives an array back. -/
theorem Wf.exists_shape {h : Heap} {S : Finset ℕ} (hw : Wf h S) :
    ∃ a, Shape h a h.sleepq_size ∧ Ordered (fun u => (h.node u).due) a h.sleepq_size ∧
      members a h.sleepq_size = S := by
  -- The array holds what the walks find.
  have hat : ∀ i, h.nodeAt i = ptr (fun i => (h.nodeAt i).getD 0) h.sleepq_size i := by
    intro i
    unfold ptr
    split_ifs with hi
    · obtain ⟨t, ht⟩ := (hw.complete i).mpr hi
      simp [ht]
    · rw [Option.eq_none_iff_forall_not_mem]
      intro t ht
      exact hi ((hw.complete i).mp ⟨t, ht⟩)
  have hsome : ∀ i, 1 ≤ i → i ≤ h.sleepq_size → h.nodeAt i = some ((h.nodeAt i).getD 0) := by
    intro i h1 hin
    obtain ⟨t, ht⟩ := (hw.complete i).mpr ⟨h1, hin⟩
    simp [ht]
  refine ⟨fun i => (h.nodeAt i).getD 0, ?_, ?_, ?_⟩
  · constructor
    · rw [← hat]
      rfl
    · intro i h1 hin
      have := nodeAt_child h h1 false
      rw [hsome i h1 hin] at this
      rw [← hat]
      exact this.symm
    · intro i h1 hin
      have := nodeAt_child h h1 true
      rw [hsome i h1 hin] at this
      rw [← hat]
      exact this.symm
    · intro i h1 hin
      exact hw.index i _ (hsome i h1 hin)
    · intro i j hi hin hj hjn heq
      have h1 := hw.index i _ (hsome i hi hin)
      have h2 := hw.index j _ (hsome j hj hjn)
      rw [← h1, ← h2, heq]
  · intro i hi hin
    exact hw.order i _ _ (hsome i (by omega) hin) (hsome (i / 2) (by omega) (by omega))
  · ext t
    rw [mem_members, hw.mem]
    constructor
    · -- A second position of the node would have its `heap_index` as well.
      rintro ⟨i, h1, hin, rfl⟩
      refine ⟨i, hsome i h1 hin, fun j hj => ?_⟩
      rw [← hw.index j _ hj, hw.index i _ (hsome i h1 hin)]
    · rintro ⟨i, hi, -⟩
      obtain ⟨h1, hin⟩ := (hw.complete i).mp ⟨t, hi⟩
      exact ⟨i, h1, hin, by simp [hi]⟩

/-- The empty heap. -/
theorem wf_empty {h : Heap} (hroot : h.sleep_q = none) (hsize : h.sleepq_size = 0) : Wf h ∅ := by
  have hs : Shape h (fun i => i) 0 := by
    constructor
    · rw [hroot, ptr_of_gt (by omega)]
    · intro i h1 hin; omega
    · intro i h1 hin; omega
    · intro i h1 hin; omega
    · intro i j h1 hin; omega
  exact hs.wf (fun i hi hin => by omega) hsize

/-- Assigning to the record of a thread that is not in the heap. -/
theorem Wf.setNode {h : Heap} {S : Finset ℕ} (hw : Wf h S) {t : ℕ} (ht : t ∉ S)
    (f : HeapNode → HeapNode) : Wf (h.setNode t f) S := by
  obtain ⟨a, hs, ho, rfl⟩ := hw.exists_shape
  have hfresh := fresh_iff.mpr ht
  refine (hs.setNode hfresh f).wf ?_ rfl
  intro i hi hin
  dsimp only
  rw [setNode_node_of_ne _ _ (hfresh i (by omega) hin),
    setNode_node_of_ne _ _ (hfresh (i / 2) (by omega) (by omega))]
  exact ho i hi hin

/-- A heap has no more threads than `sleepq_size`. -/
theorem Wf.card_le {h : Heap} {S : Finset ℕ} (hw : Wf h S) : S.card ≤ h.sleepq_size := by
  obtain ⟨a, -, -, rfl⟩ := hw.exists_shape
  exact Finset.card_image_le.trans (by simp)

/-- The root is a thread of the heap, due no later than any other. -/
theorem Wf.root {h : Heap} {S : Finset ℕ} (hw : Wf h S) :
    (h.sleep_q = none ↔ S = ∅) ∧
      ∀ t, h.sleep_q = some t → t ∈ S ∧ ∀ u ∈ S, (h.node t).due ≤ (h.node u).due := by
  obtain ⟨a, hs, ho, rfl⟩ := hw.exists_shape
  -- By induction on the position, along the parents.
  have hmin : ∀ i, 1 ≤ i → i ≤ h.sleepq_size → (h.node (a 1)).due ≤ (h.node (a i)).due := by
    intro i
    induction i using Nat.strongRecOn with
    | ind i ih =>
      intro h1 hin
      rcases Nat.lt_or_eq_of_le h1 with hlt | heq
      · exact le_trans (ih (i / 2) (by omega) (by omega) (by omega)) (ho i (by omega) hin)
      · rw [heq]
  rw [hs.root]
  constructor
  · rw [ptr_eq_none_iff le_rfl]
    constructor
    · intro hlt
      rw [show h.sleepq_size = 0 by omega]
      rfl
    · intro hempty
      by_contra hge
      have : a 1 ∈ members a h.sleepq_size := mem_members.mpr ⟨1, le_rfl, by omega, rfl⟩
      rw [hempty] at this
      simp at this
  · intro t ht
    unfold ptr at ht
    split_ifs at ht with hi
    rw [Option.some_inj] at ht
    subst ht
    refine ⟨mem_members.mpr ⟨1, le_rfl, hi.2, rfl⟩, ?_⟩
    intro u hu
    obtain ⟨i, h1, hin, rfl⟩ := mem_members.mp hu
    exact hmin i h1 hin

/-! ## The two operations -/

/-- `_st_add_sleep_q` of a thread that is not in the heap. -/
theorem addSleepQ_wf {h : Heap} {S : Finset ℕ} (hw : Wf h S) {t : ℕ} (ht : t ∉ S)
    (last_clock timeout : ℕ) :
    ∃ h', h.addSleepQ last_clock t timeout = some h' ∧ Wf h' (insert t S) ∧
      (h'.node t).due = (last_clock + timeout) % utimeMod ∧
      ∀ u, u ≠ t → (h'.node u).due = (h.node u).due := by
  obtain ⟨a, hs, ho, rfl⟩ := hw.exists_shape
  have hfresh := fresh_iff.mpr ht
  unfold addSleepQ
  dsimp only [setNode_sleepq_size]
  -- The record with its new `due` and `heap_index`, before it is in the heap.
  generalize hn : h.sleepq_size = n at hs ho hfresh ⊢
  generalize hh₁ : Heap.setNode { h.setNode t (fun m => { m with
      due := (last_clock + timeout) % utimeMod }) with sleepq_size := n + 1 } t
      (fun m => { m with heap_index := n + 1 }) = h₁
  have hnode : ∀ u, u ≠ t → h₁.node u = h.node u := by
    intro u hu
    rw [← hh₁]
    simp [setNode_node, hu]
  have hself : (h₁.node t).due = (last_clock + timeout) % utimeMod ∧
      (h₁.node t).heap_index = n + 1 := by
    rw [← hh₁, setNode_node_self]
    simp
  have hs₁ : Shape h₁ a n := by
    refine hs.congr (by rw [← hh₁]; rfl) fun i h1 hin => ?_
    rw [hnode _ (hfresh i h1 hin)]
    exact ⟨rfl, rfl, rfl⟩
  have ho₁ : Ordered (fun u => (h₁.node u).due) a n := by
    intro i hi hin
    dsimp only
    rw [hnode _ (hfresh i (by omega) hin), hnode _ (hfresh (i / 2) (by omega) (by omega))]
    exact ho i hi hin
  obtain ⟨h', a', hrun, hs', ho', hmem, hdue, hsize⟩ := heapInsert_append hs₁ ho₁ hfresh hself.2
  refine ⟨h', by rw [hrun]; rfl, ?_, ?_, ?_⟩
  · rw [← hmem]
    refine hs'.wf ho' ?_
    rw [hsize, ← hh₁]
    rfl
  · rw [hdue, hself.1]
  · intro u hu
    rw [hdue, hnode u hu]

/-- `_st_del_sleep_q` of a thread in the heap: the other threads stay, the deleted one has no
children any more, and the thread that was last is then on the path to the deleted position, or
below it. -/
theorem delSleepQ_wf {h : Heap} {S : Finset ℕ} (hw : Wf h S) {t : ℕ} (ht : t ∈ S) :
    ∃ h', h.delSleepQ t = some h' ∧ Wf h' (S.erase t) ∧
      (∀ u, (h'.node u).due = (h.node u).due) ∧
      (h'.node t).left = none ∧ (h'.node t).right = none ∧
      ∀ last, h.nodeAt h.sleepq_size = some last → last ≠ t → ∃ j c, h'.nodeAt j = some last ∧
        (j / 2 ^ c = (h.node t).heap_index ∨ j = (h.node t).heap_index / 2 ^ c) := by
  obtain ⟨a, hs, ho, rfl⟩ := hw.exists_shape
  obtain ⟨k, h1, hkn, rfl⟩ := mem_members.mp ht
  generalize hn : h.sleepq_size = n at *
  obtain ⟨n, rfl⟩ : ∃ m, n = m + 1 := ⟨n - 1, by omega⟩
  obtain ⟨h', a', hrun, hd⟩ := heapDelete_spec hs ho hn h1 hkn
  refine ⟨h', hrun, ?_, hd.due, hd.left, hd.right, ?_⟩
  · rw [← hd.members_eq]
    exact hd.shape.wf hd.ordered hd.size
  · intro last hlast hne
    rw [hs.nodeAt_eq, ptr_of_le (by omega) le_rfl, Option.some_inj] at hlast
    subst hlast
    -- The deleted node is not the last one, so that the last one has moved.
    have hk : k ≤ n := by
      by_contra hk
      exact hne (by rw [show k = n + 1 by omega])
    obtain ⟨j, c, hj1, hjn, hj, hpath⟩ := hd.moved hk
    refine ⟨j, c, ?_, ?_⟩
    · rw [hd.shape.nodeAt_eq, ptr_of_le hj1 hjn, hj]
    · rw [hs.index k h1 hkn]
      exact hpath

/-! ## Sequences of operations -/

/-- A call of `_st_add_sleep_q`, with the value of `_ST_LAST_CLOCK` at the call, or of
`_st_del_sleep_q`. -/
inductive SleepOp where
  | add (thread last_clock timeout : ℕ)
  | del (thread : ℕ)
  deriving DecidableEq, Repr

/-- The operation on the heap. -/
def SleepOp.run (h : Heap) : SleepOp → Option Heap
  | .add t last_clock timeout => h.addSleepQ last_clock t timeout
  | .del t => h.delSleepQ t

/-- The threads added and not since deleted. -/
def SleepOp.track (S : Finset ℕ) : SleepOp → Finset ℕ
  | .add t _ _ => insert t S
  | .del t => S.erase t

/-- The due time that the last `_st_add_sleep_q` of each thread computed. -/
def SleepOp.trackDue (due : ℕ → ℕ) : SleepOp → ℕ → ℕ
  | .add t last_clock timeout => Function.update due t ((last_clock + timeout) % utimeMod)
  | .del _ => due

/-- A thread is added when it is not in the heap, and deleted when it is. -/
def Allowed (S : Finset ℕ) : List SleepOp → Prop
  | [] => True
  | op :: ops =>
    (match op with
      | .add t _ _ => t ∉ S
      | .del t => t ∈ S) ∧ Allowed (op.track S) ops

instance decidableAllowed : ∀ (S : Finset ℕ) (ops : List SleepOp), Decidable (Allowed S ops)
  | _, [] => isTrue trivial
  | S, .add t _ _ :: ops =>
    have := decidableAllowed (insert t S) ops
    inferInstanceAs (Decidable (t ∉ S ∧ Allowed (insert t S) ops))
  | S, .del t :: ops =>
    have := decidableAllowed (S.erase t) ops
    inferInstanceAs (Decidable (t ∈ S ∧ Allowed (S.erase t) ops))

/-- Every allowed sequence of operations runs without a fault, keeps the invariant, and leaves
each thread its due time. -/
theorem run_wf (ops : List SleepOp) :
    ∀ {h : Heap} {S : Finset ℕ} {due : ℕ → ℕ}, Wf h S → (∀ t ∈ S, (h.node t).due = due t) →
      Allowed S ops →
      ∃ h', ops.foldlM SleepOp.run h = some h' ∧ Wf h' (ops.foldl SleepOp.track S) ∧
        ∀ t ∈ ops.foldl SleepOp.track S, (h'.node t).due = ops.foldl SleepOp.trackDue due t := by
  induction ops with
  | nil =>
    intro h S due hw hdue _
    exact ⟨h, rfl, hw, hdue⟩
  | cons op ops ih =>
    intro h S due hw hdue hallowed
    obtain ⟨hop, hrest⟩ := hallowed
    -- One operation, then the rest from the heap that it leaves.
    obtain ⟨h₁, hrun₁, hw₁, hdue₁⟩ : ∃ h₁, op.run h = some h₁ ∧ Wf h₁ (op.track S) ∧
        ∀ t ∈ op.track S, (h₁.node t).due = op.trackDue due t := by
      cases op with
      | add t last_clock timeout =>
        obtain ⟨h₁, hrun₁, hw₁, hself, hother⟩ := addSleepQ_wf hw hop last_clock timeout
        refine ⟨h₁, hrun₁, hw₁, fun u hu => ?_⟩
        by_cases hut : u = t
        · subst hut
          simpa [SleepOp.trackDue] using hself
        · have huS : u ∈ S := by simpa [SleepOp.track, hut] using hu
          rw [hother u hut, hdue u huS]
          simp [SleepOp.trackDue, hut]
      | del t =>
        obtain ⟨h₁, hrun₁, hw₁, hsame, -⟩ := delSleepQ_wf hw hop
        refine ⟨h₁, hrun₁, hw₁, fun u hu => ?_⟩
        rw [hsame u, hdue u (Finset.mem_of_mem_erase hu)]
        rfl
    obtain ⟨h', hrun', hw', hdue'⟩ := ih hw₁ hdue₁ hrest
    exact ⟨h', by rw [List.foldlM_cons, hrun₁]; exact hrun', hw', hdue'⟩

/-- The timeout heap's representation. For every sequence of `_st_add_sleep_q` on threads not in
the heap and `_st_del_sleep_q` on threads in it, from the empty heap, whatever the records hold: the
representation invariant holds, for the threads added and not since deleted, each with the due time
that it was added with. A further deletion of any thread in the heap keeps it, moves the last node
into the path to the deleted position or below it, and leaves the deleted thread without
children. -/
theorem sleepOps_wf (h₀ : Heap) (ops : List SleepOp) (hroot : h₀.sleep_q = none)
    (hsize : h₀.sleepq_size = 0) (hops : Allowed ∅ ops) :
    ∃ h, ops.foldlM SleepOp.run h₀ = some h ∧ Wf h (ops.foldl SleepOp.track ∅) ∧
      (∀ t ∈ ops.foldl SleepOp.track ∅,
        (h.node t).due = ops.foldl SleepOp.trackDue (fun _ => 0) t) ∧
      ∀ t ∈ ops.foldl SleepOp.track ∅, ∃ h', h.delSleepQ t = some h' ∧
        Wf h' ((ops.foldl SleepOp.track ∅).erase t) ∧
        (h'.node t).left = none ∧ (h'.node t).right = none ∧
        ∀ last, h.nodeAt h.sleepq_size = some last → last ≠ t → ∃ j c, h'.nodeAt j = some last ∧
          (j / 2 ^ c = (h.node t).heap_index ∨ j = (h.node t).heap_index / 2 ^ c) := by
  obtain ⟨h, hrun, hw, hdue⟩ := run_wf ops (wf_empty hroot hsize) (by simp) hops
  refine ⟨h, hrun, hw, hdue, fun t ht => ?_⟩
  obtain ⟨h', hdel, hw', -, hleft, hright, hmoved⟩ := delSleepQ_wf hw ht
  exact ⟨h', hdel, hw', hleft, hright, hmoved⟩

/-- The heap before any thread sleeps. -/
def empty : Heap := ⟨fun _ => HeapNode.zero, none, 0⟩

/-- A run with a tie, a sum that wraps, and the deletion of an inner node. -/
theorem sleepOps_wf_five :
    Allowed ∅ [.add 3 10 5, .add 7 10 5, .add 1 (2 ^ 64 - 1) 3, .add 4 0 9, .add 9 1 1, .del 7] ∧
      ∃ h, [SleepOp.add 3 10 5, .add 7 10 5, .add 1 (2 ^ 64 - 1) 3, .add 4 0 9, .add 9 1 1,
        .del 7].foldlM SleepOp.run empty = some h ∧ Wf h {3, 1, 4, 9} := by
  have hops : Allowed ∅
      [.add 3 10 5, .add 7 10 5, .add 1 (2 ^ 64 - 1) 3, .add 4 0 9, .add 9 1 1, .del 7] := by decide
  refine ⟨hops, ?_⟩
  obtain ⟨h, hrun, hw, -⟩ := sleepOps_wf empty _ rfl rfl hops
  have hset : [SleepOp.add 3 10 5, .add 7 10 5, .add 1 (2 ^ 64 - 1) 3, .add 4 0 9, .add 9 1 1,
      .del 7].foldl SleepOp.track ∅ = {3, 1, 4, 9} := by decide
  rw [hset] at hw
  exact ⟨h, hrun, hw⟩

end StWin.Heap
