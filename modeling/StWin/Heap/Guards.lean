import StWin.Heap.Spec

/-!
# The tests for `NULL`

`heap_insert` and `heap_delete` test the pointers that they follow, and leave their loops, or return,
where one is `NULL`. In a heap with the representation invariant none of these exits is taken before
the walk is at its end: the last node that a walk visits is a node of the heap, except for the one
that `heap_insert` is about to add (`walks_follow_nodes`). So the functions compute what they would
compute without the tests.
-/

namespace StWin.Heap

/-- The slot of position `i`, by the pointers from `sleep_q`. -/
def slotAt (h : Heap) (i : ℕ) : Option Slot :=
  if i ≤ 1 then some .root else (h.nodeAt (i / 2)).map (childSlot (i.testBit 0))

/-- The slot of a position of the tree is the one of the array. -/
theorem Shape.slotAt_eq {h : Heap} {a : ℕ → ℕ} {n i : ℕ} (hs : Shape h a n) (hp : i / 2 ≤ n) :
    h.slotAt i = some (slotOf a i) := by
  unfold slotAt
  split_ifs with hi
  · rw [slotOf, if_pos hi]
  · have hbit : 2 * (i / 2) + (i.testBit 0).toNat = i := by
      have := div_two_pow_succ i 0
      simp only [pow_zero, Nat.div_one, zero_add, pow_one] at this
      exact this.symm
    rw [hs.nodeAt_eq, ptr_of_le (by omega) hp, Option.map_some, ← slotOf_child (by omega), hbit]

/-- Where the walk of `heap_insert` to `target` is after the iteration for `bit`, or, if `bit` is the
leading one, before its first iteration. The walk makes none of its tests. -/
structure Reaches (g : Heap) (x target bit : ℕ) (w : Walk) : Prop where
  walk : Walk.descend target bit (bitLength target - 1 - bit) ⟨g, x, .root, 1⟩ = some w
  /-- It is at the position that the bits so far say. -/
  index : w.index = target / 2 ^ bit
  slot : w.heap.slotAt (target / 2 ^ bit) = some w.p

/-- `heap_insert` of the thread `x` that is new to the heap. -/
structure InsertsAt (g : Heap) (x : ℕ) (g' : Heap) (p : Slot) : Prop where
  guarded : g.heapInsert x = some (g', p)
  unguarded : g.walkInsert x = some (g', p)
  /-- The walk meets a `NULL` only at the last bit. -/
  path : ∀ bit < bitLength g.sleepq_size, ∃ w, Reaches g x g.sleepq_size bit w ∧
    (w.heap.read w.p = none ↔ bit = 0)
  /-- It ends at the slot of the target, which is the slot of that position afterwards, too. -/
  ends : ∀ w, Reaches g x g.sleepq_size 0 w → w.p = p
  slot : g'.slotAt g.sleepq_size = some p

/-- `heap_delete` of the thread `t`. -/
structure DeletesAt (h : Heap) (t : ℕ) (h' : Heap) : Prop where
  guarded : h.heapDelete t = some h'
  /-- The sift-down ends after less than `sleepq_size` rounds. -/
  unguarded : ∀ fuel, h.sleepq_size ≤ fuel → h.walkDelete fuel t = some h'
  /-- The walk to the last element meets no `NULL`. -/
  lastPath : ∀ bit < bitLength h.sleepq_size, ∃ q u,
    descendLast h.sleepq_size bit h (bitLength h.sleepq_size - 1 - bit) .root = some q ∧
      h.slotAt (h.sleepq_size / 2 ^ bit) = some q ∧ h.read q = some u
  /-- Nor does the walk of `heap_insert` to the position of `t`, with the last element in hand. It
  returns the slot of that position, and the slot holds a thread. -/
  path : ∀ p last, h.slotAt h.sleepq_size = some p → h.read p = some last → last ≠ t →
    (∀ bit < bitLength (h.node t).heap_index, ∃ w,
      Reaches (h.unlinked t p last) last (h.node t).heap_index bit w ∧ w.heap.read w.p ≠ none) ∧
    ∃ g' q x, (h.unlinked t p last).heapInsert last = some (g', q) ∧ g'.read q = some x ∧
      ∀ w, Reaches (h.unlinked t p last) last (h.node t).heap_index 0 w → w.p = q

/-! ## The walk of `heap_insert` -/

/-- The bits of a positive number, by its logarithm. -/
theorem lt_bitLength_iff {k bit : ℕ} (h1 : 1 ≤ k) : bit < bitLength k ↔ bit ≤ k.log2 := by
  unfold bitLength
  rw [if_neg (by omega)]
  omega

/-- The states of the walk to `k`. -/
theorem Shape.reaches {h : Heap} {a : ℕ → ℕ} {n x k bit : ℕ} (hs : Shape h a n)
    (ho : Ordered (fun u => (h.node u).due) a n) (hx : Fresh a n x) (h1 : 1 ≤ k) (hhalf : k / 2 ≤ n)
    (hbit : bit < bitLength k) :
    ∃ w, Reaches h x k bit w ∧ (w.heap.read w.p = none ↔ n < k / 2 ^ bit) := by
  rw [lt_bitLength_iff h1] at hbit
  have hpos : 1 ≤ k / 2 ^ bit := by
    have hlog := Nat.log2_self_le (show k ≠ 0 by omega)
    exact (Nat.one_le_div_iff (Nat.two_pow_pos bit)).mpr
      ((Nat.pow_le_pow_right (by norm_num) hbit).trans hlog)
  have hp : k / 2 ^ bit / 2 ≤ n := by
    have := Nat.div_le_div_right (c := 2) (Nat.div_le_self k (2 ^ bit))
    omega
  obtain ⟨h', a', x', hrun, hs'⟩ := descend_stop hhalf hbit (div_two_pow_log2 (by omega)).symm le_rfl hs
    hx ho (by omega)
  rw [← bitLength_sub_one, slotOf_one] at hrun
  refine ⟨_, ⟨hrun, rfl, hs'.slotAt_eq hp⟩, ?_⟩
  dsimp only
  rw [hs'.read_slotOf hpos hp, ptr_eq_none_iff hpos]

/-- The walk ends at the slot that `heap_insert` returns. -/
theorem reaches_end {h h' : Heap} {x k : ℕ} {p : Slot} (hk : (h.node x).heap_index = k)
    (hrun : h.walkInsert x = some (h', p)) {w : Walk} (hw : Reaches h x k 0 w) : w.p = p := by
  have hwalk := hw.walk
  rw [Nat.sub_zero] at hwalk
  rw [walkInsert, hk, hwalk] at hrun
  cases hrun
  rfl

/-- Position `n + 1` is the only one on the path to it that is not in a heap of `n` nodes. -/
theorem lt_div_two_pow_iff {n bit : ℕ} (hbit : bit < bitLength (n + 1)) :
    n < (n + 1) / 2 ^ bit ↔ bit = 0 := by
  constructor
  · intro hlt
    by_contra hne
    have hle : (n + 1) / 2 ^ bit ≤ (n + 1) / 2 :=
      Nat.div_le_div_left (Nat.le_self_pow hne 2) (by norm_num)
    have hlog := (lt_bitLength_iff (by omega)).mp hbit
    -- A heap with one position has a path of one bit.
    rcases Nat.eq_zero_or_pos n with rfl | hn
    · exact hne (Nat.le_zero.mp hlog)
    · omega
  · rintro rfl
    simp

/-- `heap_insert` of a new thread, whose record is already in the state that `_st_add_sleep_q` leaves. -/
theorem Wf.insertsAt {h : Heap} {S : Finset ℕ} (hw : Wf h S) {x : ℕ} (hx : x ∉ S) {r : HeapNode}
    (hr : r.heap_index = h.sleepq_size + 1) :
    ∃ g' p, InsertsAt { h.setNode x (fun _ => r) with sleepq_size := h.sleepq_size + 1 } x g' p ∧
      Wf g' (insert x S) := by
  obtain ⟨a, hs, ho, rfl⟩ := (hw.setNode hx fun _ => r).exists_shape
  change Shape _ a h.sleepq_size at hs
  change Ordered _ a h.sleepq_size at ho
  change x ∉ members a h.sleepq_size at hx
  change ∃ g' p, _ ∧ Wf g' (insert x (members a h.sleepq_size))
  generalize hg : ({ h.setNode x (fun _ => r) with sleepq_size := h.sleepq_size + 1 } : Heap) = g
  have hfresh := fresh_iff.mpr hx
  have hs' : Shape g a h.sleepq_size := by
    rw [← hg]
    exact hs.congr rfl fun _ _ _ => ⟨rfl, rfl, rfl⟩
  have ho' : Ordered (fun u => (g.node u).due) a h.sleepq_size := by
    rw [← hg]
    exact ho
  have hidx : (g.node x).heap_index = h.sleepq_size + 1 := by
    rw [← hg]
    show ((h.setNode x fun _ => r).node x).heap_index = _
    rw [setNode_node_self]
    exact hr
  have hsize : g.sleepq_size = h.sleepq_size + 1 := by rw [← hg]
  have heq := heapInsert_eq_walkInsert hs' ho' hfresh hidx (by omega) (by omega)
  obtain ⟨g', a', hrun, hs₁, ho₁, hmem, -, hsize₁⟩ := heapInsert_append hs' ho' hfresh hidx
  refine ⟨g', slotOf a' (h.sleepq_size + 1), ⟨hrun, heq ▸ hrun, fun bit hbit => ?_, fun w hw' => ?_, ?_⟩, ?_⟩
  · rw [hsize] at hbit ⊢
    obtain ⟨w, hreach, hnull⟩ := hs'.reaches ho' hfresh (by omega) (by omega) hbit
    exact ⟨w, hreach, hnull.trans (lt_div_two_pow_iff hbit)⟩
  · rw [hsize] at hw'
    exact reaches_end hidx (heq ▸ hrun) hw'
  · rw [hsize]
    exact hs₁.slotAt_eq (by omega)
  · rw [← hmem]
    exact hs₁.wf ho₁ (by rw [hsize₁, hsize])

/-! ## The walks of `heap_delete` -/

/-- The heap without its last element has the due times that it had. -/
theorem unlinked_due (h : Heap) (thread : ℕ) (p : Slot) (t u : ℕ) :
    ((h.unlinked thread p t).node u).due = (h.node u).due := by
  rw [unlinked, setIndex_due]
  exact (write_node h p none u).1

/-- The heap in which `heap_delete` inserts the last element again, in place of the one at `k`. -/
theorem Shape.unlinked {h : Heap} {a : ℕ → ℕ} {n k : ℕ} (hs : Shape h a (n + 1))
    (ho : Ordered (fun u => (h.node u).due) a (n + 1)) (h1 : 1 ≤ k) (hkn : k ≤ n) :
    Shape (h.unlinked (a k) (slotOf a (n + 1)) (a (n + 1))) a n ∧
      Ordered (fun u => ((h.unlinked (a k) (slotOf a (n + 1)) (a (n + 1))).node u).due) a n ∧
      ((h.unlinked (a k) (slotOf a (n + 1)) (a (n + 1))).node (a (n + 1))).heap_index = k := by
  have hs₁ : Shape (h.unlinkLast (slotOf a (n + 1))) a n :=
    hs.unlink.congr rfl fun _ _ _ => ⟨rfl, rfl, rfl⟩
  refine ⟨hs₁.setNode hs.fresh_last _, ?_, ?_⟩
  · simp only [unlinked_due]
    exact fun i hi hin => ho i hi (by omega)
  · rw [Heap.unlinked, setNode_node_self]
    exact hs₁.index k h1 hkn

/-- `heap_delete` computes what it would compute without its tests. -/
theorem heapDelete_eq_walkDelete {h : Heap} {a : ℕ → ℕ} {n k fuel : ℕ} (hs : Shape h a (n + 1))
    (ho : Ordered (fun u => (h.node u).due) a (n + 1)) (hsize : h.sleepq_size = n + 1)
    (h1 : 1 ≤ k) (hkn : k ≤ n + 1) (hfuel : n + 1 ≤ fuel) {h' : Heap}
    (hrun : h.heapDelete (a k) = some h') : h.walkDelete fuel (a k) = some h' := by
  have hstart := div_two_pow_log2 (show n + 1 ≠ 0 by omega)
  have hread : h.read (slotOf a (n + 1)) = some (a (n + 1)) := by
    rw [hs.read_slotOf (by omega) (by omega), ptr_of_le (by omega) le_rfl]
  rw [heapDelete, hsize, bitLength_sub_one, ← slotOf_one a, lastSlot_spec hs hstart.symm le_rfl,
    Option.bind_eq_bind, Option.bind_some] at hrun
  rw [walkDelete, hsize, bitLength_sub_one, ← slotOf_one a,
    descendLast_spec hs le_rfl _ hstart.symm le_rfl, Option.bind_eq_bind, Option.bind_some, hread,
    Option.bind_eq_bind, Option.bind_some]
  dsimp only at hrun
  rw [hread] at hrun
  by_cases hlast : a (n + 1) = a k
  · rw [if_neg (by simpa using hlast)] at hrun
    rw [if_neg (by simpa using hlast)]
    exact hrun
  · rw [if_pos (by simpa using hlast)] at hrun
    rw [if_pos hlast]
    have hne : k ≠ n + 1 := fun heq => hlast (by rw [heq])
    obtain ⟨hs₁, ho₁, hidx₁⟩ := hs.unlinked ho h1 (by omega)
    obtain ⟨h₂, a₂, x₂, hins, hread₂, -, -, -, hsize₂, -⟩ :=
      heapInsert_replace hs₁ ho₁ hs.fresh_last hidx₁ h1 (by omega)
    have hn : h₂.sleepq_size = n := by
      rw [hsize₂]
      show (h.write _ none).sleepq_size - 1 = n
      rw [write_sleepq_size, hsize, Nat.add_sub_cancel]
    -- Both insert the last element by the same walk.
    change (heapInsert (h.unlinked (a k) (slotOf a (n + 1)) (a (n + 1))) (a (n + 1))).bind _ = some h'
      at hrun
    rw [hins, Option.bind_some] at hrun
    rw [← heapInsert_eq_walkInsert hs₁ ho₁ hs.fresh_last hidx₁ h1 (by omega), hins,
      Option.bind_eq_bind, Option.bind_some]
    dsimp only at hrun ⊢
    rw [hread₂] at hrun ⊢
    dsimp only at hrun ⊢
    -- The sift-down of `heap_delete` may take `n + 1` rounds here, which is enough.
    obtain ⟨h₃, hsift, hlast⟩ := Option.bind_eq_some_iff.mp hrun
    rw [setNode_sleepq_size, hn] at hsift
    rw [Option.bind_eq_bind, Option.bind_some, siftDown_mono hfuel hsift]
    exact hlast

/-- A deletion from a well-formed heap. -/
theorem Wf.deletesAt {h : Heap} {S : Finset ℕ} (hw : Wf h S) {t : ℕ} (ht : t ∈ S) :
    ∃ h', DeletesAt h t h' ∧ Wf h' (S.erase t) := by
  obtain ⟨a, hs, ho, rfl⟩ := hw.exists_shape
  obtain ⟨k, h1, hkn, rfl⟩ := mem_members.mp ht
  generalize hn : h.sleepq_size = n at *
  obtain ⟨n, rfl⟩ : ∃ m, n = m + 1 := ⟨n - 1, by omega⟩
  obtain ⟨h', a', hrun, hd⟩ := heapDelete_spec hs ho hn h1 hkn
  have hidx := hs.index k h1 hkn
  -- The run itself, the bits of the walk to the last node, and the walk that puts it elsewhere.
  refine ⟨h', ⟨hrun, fun fuel hfuel => ?_, fun bit hbit => ?_, fun p last hp hlast hne => ?_⟩, ?_⟩
  · rw [hn] at hfuel
    exact heapDelete_eq_walkDelete hs ho hn h1 hkn hfuel hrun
  · rw [hn] at hbit ⊢
    rw [lt_bitLength_iff (by omega)] at hbit
    have hpos : 1 ≤ (n + 1) / 2 ^ bit := by
      have hlog := Nat.log2_self_le (show n + 1 ≠ 0 by omega)
      exact (Nat.one_le_div_iff (Nat.two_pow_pos bit)).mpr
        ((Nat.pow_le_pow_right (by norm_num) hbit).trans hlog)
    have hle : (n + 1) / 2 ^ bit ≤ n + 1 := Nat.div_le_self _ _
    refine ⟨slotOf a ((n + 1) / 2 ^ bit), a ((n + 1) / 2 ^ bit), ?_, hs.slotAt_eq (by omega), ?_⟩
    · rw [bitLength_sub_one, ← slotOf_one a]
      exact descendLast_stop hs hbit (div_two_pow_log2 (by omega)).symm le_rfl
    · rw [hs.read_slotOf hpos (by omega), ptr_of_le hpos hle]
  · rw [hn, hs.slotAt_eq (by omega), Option.some_inj] at hp
    subst hp
    rw [hs.read_slotOf (by omega) (by omega), ptr_of_le (by omega) le_rfl, Option.some_inj] at hlast
    subst hlast
    rw [hidx]
    -- The last node is not the one that is deleted.
    have hk : k ≤ n := by
      by_contra hk
      exact hne (by rw [show k = n + 1 by omega])
    obtain ⟨hs₁, ho₁, hidx₁⟩ := hs.unlinked ho h1 hk
    refine ⟨fun bit hbit => ?_, ?_⟩
    · -- The position of the deleted thread, and all above it, are positions of the heap.
      obtain ⟨w, hreach, hnull⟩ := hs₁.reaches ho₁ hs.fresh_last h1 (by omega) hbit
      refine ⟨w, hreach, fun hnone => ?_⟩
      have hle := Nat.div_le_self k (2 ^ bit)
      have hlt := hnull.mp hnone
      omega
    · obtain ⟨h₂, a₂, x₂, hins, hread₂, -⟩ := heapInsert_replace hs₁ ho₁ hs.fresh_last hidx₁ h1 hk
      have hwalk := heapInsert_eq_walkInsert hs₁ ho₁ hs.fresh_last hidx₁ h1 (by omega)
      exact ⟨h₂, _, x₂, hins, hread₂, fun w hreach => reaches_end hidx₁ (hwalk ▸ hins) hreach⟩
  · rw [← hd.members_eq]
    exact hd.shape.wf hd.ordered hd.size

/-- The walks of the timeout heap follow existing nodes only. In every heap with the representation
invariant, whatever it holds: `heap_insert` of any new thread at the index `sleepq_size`, which is
already incremented, and `heap_delete` of any thread in the heap dereference no `NULL`, find one only
where the new thread is to be, reach the slot of the position that they walk to, and compute the same
heap as without their tests. -/
theorem walks_follow_nodes {h : Heap} {S : Finset ℕ} (hw : Wf h S) :
    (∀ x ∉ S, ∀ r : HeapNode, r.heap_index = h.sleepq_size + 1 →
      ∃ g' p, InsertsAt { h.setNode x (fun _ => r) with sleepq_size := h.sleepq_size + 1 } x g' p ∧
        Wf g' (insert x S)) ∧
    ∀ t ∈ S, ∃ h', DeletesAt h t h' ∧ Wf h' (S.erase t) :=
  ⟨fun _ hx _ hr => hw.insertsAt hx hr, fun _ ht => hw.deletesAt ht⟩

/-- A heap of three threads: the deletion of its root inserts the last one in its place. -/
theorem walks_follow_nodes_three :
    ∃ h, [SleepOp.add 3 10 5, .add 7 10 4, .add 1 0 20].foldlM SleepOp.run empty = some h ∧
      (∃ h', DeletesAt h 7 h' ∧ Wf h' {3, 1}) ∧
      ∃ g' p, InsertsAt { h.setNode 4 (fun _ => ⟨2, none, some 9, 4⟩) with sleepq_size := 4 } 4 g' p := by
  obtain ⟨h, hrun, hw, -⟩ := @run_wf [.add 3 10 5, .add 7 10 4, .add 1 0 20] empty ∅ (fun _ => 0)
    (wf_empty rfl rfl) (by simp) (by decide)
  have hset : [SleepOp.add 3 10 5, .add 7 10 4, .add 1 0 20].foldl SleepOp.track ∅ = {3, 7, 1} := by
    decide
  have hsize : ([SleepOp.add 3 10 5, .add 7 10 4, .add 1 0 20].foldlM SleepOp.run empty).map
      Heap.sleepq_size = some 3 := by decide +kernel
  have herase : ({3, 7, 1} : Finset ℕ).erase 7 = {3, 1} := by decide
  rw [hrun, Option.map_some, Option.some_inj] at hsize
  rw [hset] at hw
  obtain ⟨hinsert, hdelete⟩ := walks_follow_nodes hw
  obtain ⟨h', hdel, hw'⟩ := hdelete 7 (by decide)
  obtain ⟨g', p, hins, -⟩ := hinsert 4 (by decide) ⟨2, none, some 9, 4⟩ (by rw [hsize])
  rw [hsize] at hins
  exact ⟨h, hrun, ⟨h', hdel, herase ▸ hw'⟩, g', p, hins⟩

end StWin.Heap
