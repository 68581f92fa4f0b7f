import StWin.Heap.Insert

/-!
# `heap_delete` keeps the heap

`heap_delete` unlinks the last node, inserts it in place of the deleted one with `heap_insert`, and
sifts the node that is then at the deleted position down. `DownOrder` is what the sift-down starts
from: the heap is ordered except below one position, and what is below that position is due no
earlier than its parent.
-/

namespace StWin.Heap

/-! ## The last position -/

/-- The walk to the last heap element without its tests. -/
theorem descendLast_spec {h : Heap} {a : ℕ → ℕ} {n m : ℕ} (hs : Shape h a n) (hm : m ≤ n) (b : ℕ) :
    ∀ {i : ℕ}, i = m / 2 ^ b → 1 ≤ i → descendLast m 0 h b (slotOf a i) = some (slotOf a m) := by
  induction b with
  | zero =>
    intro i hi _
    simp only [pow_zero, Nat.div_one] at hi
    subst hi
    rfl
  | succ b ih =>
    intro i hi h1
    have hnext := div_two_pow_succ m b
    rw [← hi] at hnext
    have hle : m / 2 ^ b ≤ m := Nat.div_le_self _ _
    rw [descendLast, hs.read_slotOf h1 (by omega), ptr_of_le h1 (by omega), Option.bind_some,
      Nat.zero_add, ← slotOf_child h1, ← hnext]
    exact ih rfl (by omega)

/-- The same walk, stopped after the iteration for a bit. -/
theorem descendLast_stop {h : Heap} {a : ℕ → ℕ} {n b stop : ℕ} (hs : Shape h a n) (hstop : stop ≤ b)
    {i : ℕ} (hi : i = n / 2 ^ b) (h1 : 1 ≤ i) :
    descendLast n stop h (b - stop) (slotOf a i) = some (slotOf a (n / 2 ^ stop)) := by
  rw [descendLast_div]
  refine descendLast_spec hs (Nat.div_le_self _ _) _ ?_ h1
  rw [hi, Nat.div_div_eq_div_mul, ← pow_add, Nat.add_sub_cancel' hstop]

/-- The walk to the last heap element takes none of its exits and ends at the last slot. -/
theorem lastSlot_spec {h : Heap} {a : ℕ → ℕ} {n b i : ℕ} (hs : Shape h a n) (hi : i = n / 2 ^ b)
    (h1 : 1 ≤ i) : lastSlot n h b (slotOf a i) = some (slotOf a n) := by
  rw [lastSlot_eq, descendLast_spec hs le_rfl b hi h1]
  intro bit hlt q hq
  have hge : n / 2 ^ b ≤ n / 2 ^ bit :=
    Nat.div_le_div_left (Nat.pow_le_pow_right (by norm_num) hlt.le) (Nat.two_pow_pos _)
  have hle : n / 2 ^ bit ≤ n := Nat.div_le_self _ _
  rw [descendLast_stop hs hlt.le hi h1, Option.some_inj] at hq
  rw [← hq, hs.read_slotOf (by omega) (by omega), ptr_of_le (by omega) hle]
  simp

/-! ## The sift-down -/

/-- The heap is ordered except below position `k`, where it is ordered with respect to the parent
of `k`. -/
structure DownOrder (due a : ℕ → ℕ) (n k : ℕ) : Prop where
  except : ∀ i, 2 ≤ i → i ≤ n → i / 2 ≠ k → due (a (i / 2)) ≤ due (a i)
  grand : 2 ≤ k → ∀ i, 2 ≤ i → i ≤ n → i / 2 = k → due (a (k / 2)) ≤ due (a i)

/-- The younger child, by position. -/
theorem youngerChild_spec {h : Heap} {a : ℕ → ℕ} {n k : ℕ} (hn : 2 * k ≤ n) (h1 : 1 ≤ k) :
    ∃ j, (j = 2 * k ∨ j = 2 * k + 1) ∧ j ≤ n ∧
      h.youngerChild (a (2 * k)) (ptr a n (2 * k + 1)) = a j ∧
      ∀ i, 2 ≤ i → i ≤ n → i / 2 = k → (h.node (a j)).due ≤ (h.node (a i)).due := by
  by_cases hr : 2 * k + 1 ≤ n
  · rw [ptr_of_le (by omega) hr]
    unfold youngerChild
    by_cases hlt : (h.node (a (2 * k))).due < (h.node (a (2 * k + 1))).due
    · refine ⟨2 * k, Or.inl rfl, hn, if_pos hlt, fun i _ _ hik => ?_⟩
      rcases (by omega : i = 2 * k ∨ i = 2 * k + 1) with rfl | rfl
      · exact le_rfl
      · exact hlt.le
    · refine ⟨2 * k + 1, Or.inr rfl, hr, if_neg hlt, fun i _ _ hik => ?_⟩
      rcases (by omega : i = 2 * k ∨ i = 2 * k + 1) with rfl | rfl
      · exact not_lt.mp hlt
      · exact le_rfl
  · rw [ptr_of_gt (by omega)]
    refine ⟨2 * k, Or.inl rfl, hn, rfl, fun i _ _ hik => ?_⟩
    rw [show i = 2 * k by omega]

/-- The array after the exchange of positions `k` and `j`. -/
def swapAt (a : ℕ → ℕ) (k j : ℕ) : ℕ → ℕ := Function.update (Function.update a k (a j)) j (a k)

/-- The first position gets what was at the second. -/
theorem swapAt_left (a : ℕ → ℕ) {k j : ℕ} (hkj : k ≠ j) : swapAt a k j k = a j := by
  rw [swapAt, Function.update_of_ne hkj, Function.update_self]

/-- The second position gets what was at the first. -/
theorem swapAt_right (a : ℕ → ℕ) (k j : ℕ) : swapAt a k j j = a k := Function.update_self _ _ _

/-- The other positions stay as they are. -/
theorem swapAt_of_ne (a : ℕ → ℕ) {k j i : ℕ} (hik : i ≠ k) (hij : i ≠ j) :
    swapAt a k j i = a i := by
  rw [swapAt, Function.update_of_ne hij, Function.update_of_ne hik]

/-- An exchange keeps the set of threads. -/
theorem members_swapAt (a : ℕ → ℕ) {n k j : ℕ} (hk : 1 ≤ k) (hkn : k ≤ n) (hj : 1 ≤ j)
    (hjn : j ≤ n) : members (swapAt a k j) n = members a n := by
  ext u
  rw [mem_members, mem_members]
  by_cases hkj : k = j
  · have : swapAt a k j = a := by
      subst hkj
      simp [swapAt]
    rw [this]
  · constructor
    · rintro ⟨i, hi, hin, rfl⟩
      by_cases hik : i = k
      · rw [hik, swapAt_left a hkj]
        exact ⟨j, hj, hjn, rfl⟩
      · by_cases hij : i = j
        · rw [hij, swapAt_right]
          exact ⟨k, hk, hkn, rfl⟩
        · exact ⟨i, hi, hin, (swapAt_of_ne a hik hij).symm⟩
    · rintro ⟨i, hi, hin, rfl⟩
      by_cases hik : i = k
      · rw [hik]
        exact ⟨j, hj, hjn, swapAt_right a k j⟩
      · by_cases hij : i = j
        · rw [hij]
          exact ⟨k, hk, hkn, swapAt_left a hkj⟩
        · exact ⟨i, hi, hin, swapAt_of_ne a hik hij⟩

/-- What an exchange assigns, when the slot belongs to neither of the two nodes. -/
theorem exchange_fields {h : Heap} {t y : ℕ} {p : Slot} (hty : t ≠ y)
    (ht : (h.write p (some y)).node t = h.node t) (hy : (h.write p (some y)).node y = h.node y) :
    ((h.exchange t y p).1).sleep_q = (h.write p (some y)).sleep_q ∧
      (∀ u, u ≠ t → u ≠ y →
        ((h.exchange t y p).1).node u = (h.write p (some y)).node u) ∧
      ((h.exchange t y p).1).node t = { h.node t with
        left := (h.node y).left, right := (h.node y).right, heap_index := (h.node y).heap_index } ∧
      ((h.exchange t y p).1).node y = { h.node y with
        left := if some y = (h.node t).left then some t else (h.node t).left
        right := if some y = (h.node t).left then (h.node t).right else some t
        heap_index := (h.node t).heap_index } ∧
      (h.exchange t y p).2 = childSlot (decide (some y ≠ (h.node t).left)) y := by
  unfold exchange
  dsimp only
  rw [ht]
  by_cases hc : some y = (h.node t).left
  · simp only [if_pos hc]
    refine ⟨by simp, ?_, ?_, ?_, ?_⟩
    · intro u hut huy
      simp [setNode_node, hut, huy]
    · simp [setNode_node, hty, hty.symm, ht, hy]
    · simp [setNode_node, hty, hty.symm, ht, hy]
    · simp [childSlot, hc]
  · simp only [if_neg hc]
    refine ⟨by simp, ?_, ?_, ?_, ?_⟩
    · intro u hut huy
      simp [setNode_node, hut, huy]
    · simp [setNode_node, hty, hty.symm, ht, hy]
    · simp [setNode_node, hty, hty.symm, ht, hy]
    · simp [childSlot, hc]

/-- An exchange leaves `sleepq_size` as it is. -/
theorem exchange_sleepq_size (h : Heap) (t y : ℕ) (p : Slot) :
    ((h.exchange t y p).1).sleepq_size = h.sleepq_size := by
  unfold exchange
  dsimp only
  split_ifs <;> simp

/-- An exchange of the sift-down exchanges two entries of the array, and changes no due time. -/
theorem exchange_spec {h : Heap} {a : ℕ → ℕ} {n k j : ℕ} (hs : Shape h a n) (h1 : 1 ≤ k)
    (hj : j = 2 * k ∨ j = 2 * k + 1) (hn : j ≤ n) :
    Shape (h.exchange (a k) (a j) (slotOf a k)).1 (swapAt a k j) n ∧
      (h.exchange (a k) (a j) (slotOf a k)).2 = slotOf (swapAt a k j) j ∧
      ∀ u, (((h.exchange (a k) (a j) (slotOf a k)).1).node u).due = (h.node u).due := by
  have hkj : a k ≠ a j := fun heq => by
    have := hs.inj k j h1 (by omega) (by omega) hn heq
    omega
  have hpk : 2 ≤ k → a (k / 2) ≠ a k := fun _ heq => by
    have := hs.inj (k / 2) k (by omega) (by omega) h1 (by omega) heq
    omega
  have hpj : 2 ≤ k → a (k / 2) ≠ a j := fun _ heq => by
    have := hs.inj (k / 2) j (by omega) (by omega) (by omega) hn heq
    omega
  obtain ⟨hroot, hother, ht, hy, hslot⟩ := exchange_fields hkj
    (write_slotOf_of_ne (h := h) (some (a j)) hpk) (write_slotOf_of_ne (h := h) (some (a j)) hpj)
  have hleft := hs.left k h1 (by omega)
  have hright := hs.right k h1 (by omega)
  -- `y` is the left child exactly when its position is `2 k`.
  have hcond : (some (a j) = (h.node (a k)).left) ↔ j = 2 * k := by
    rw [hleft, ptr_of_le (by omega) (by omega), Option.some_inj]
    exact ⟨fun heq => hs.inj j (2 * k) (by omega) hn (by omega) (by omega) heq, fun heq => by rw [heq]⟩
  refine ⟨?_, ?_, ?_⟩
  · refine hs.swap h1 hj hn hroot hother ?_ ?_ ?_ ?_ ?_ ?_
    · rw [hy]; simp only [hcond]; rw [hleft]
    · rw [hy]; simp only [hcond]; rw [hright]
    · rw [ht]; exact hs.left j (by omega) hn
    · rw [ht]; exact hs.right j (by omega) hn
    · rw [hy]; exact hs.index k h1 (by omega)
    · rw [ht]; exact hs.index j (by omega) hn
  · rw [hslot]
    have hk : swapAt a k j k = a j := swapAt_left a (by omega)
    rcases hj with rfl | rfl
    · rw [slotOf_left h1, hk]
      simp [hcond, childSlot]
    · rw [slotOf_right h1, hk]
      simp [hcond, childSlot]
  · intro u
    by_cases huk : u = a k
    · rw [huk, ht]
    · by_cases huj : u = a j
      · rw [huj, hy]
      · rw [hother u huk huj, (write_node _ _ _ _).1]

/-- The exchange moves the only place where the order can fail down to the child's position. -/
theorem DownOrder.swap {due a : ℕ → ℕ} {n k j : ℕ} (hd : DownOrder due a n k) (h1 : 1 ≤ k)
    (hj : j = 2 * k ∨ j = 2 * k + 1) (hn : j ≤ n)
    (hy : ∀ i, 2 ≤ i → i ≤ n → i / 2 = k → due (a j) ≤ due (a i)) (hlt : due (a j) < due (a k)) :
    DownOrder due (swapAt a k j) n j := by
  have hk : swapAt a k j k = a j := swapAt_left a (by omega)
  constructor
  · intro i hi hin hij
    by_cases hik : i = k
    · subst hik
      rw [hk, swapAt_of_ne a (by omega) (by omega)]
      exact hd.grand hi j (by omega) hn (by omega)
    · by_cases hpk : i / 2 = k
      · rw [hpk, hk]
        by_cases hij' : i = j
        · rw [hij', swapAt_right]
          exact hlt.le
        · rw [swapAt_of_ne a hik hij']
          exact hy i hi hin hpk
      · rw [swapAt_of_ne a hpk hij, swapAt_of_ne a hik (by omega)]
        exact hd.except i hi hin hpk
  · intro _ i hi hin hij
    rw [show j / 2 = k by omega, hk, swapAt_of_ne a (by omega) (by omega)]
    have := hd.except i hi hin (by omega)
    rwa [hij] at this

/-- What the sift-down from position `k` leaves, from the heap `h` with array `a` to `h'` and
`a'`. -/
structure Sifted (h : Heap) (a : ℕ → ℕ) (n k : ℕ) (h' : Heap) (a' : ℕ → ℕ) : Prop where
  shape : Shape h' a' n
  ordered : Ordered (fun u => (h'.node u).due) a' n
  due : ∀ u, (h'.node u).due = (h.node u).due
  size : h'.sleepq_size = h.sleepq_size
  members_eq : members a' n = members a n
  off_path : ∀ j, (∀ c, j / 2 ^ c ≠ k) → a' j = a j
  moved : ∃ j c, j ≤ n ∧ j / 2 ^ c = k ∧ a' j = a k

/-- The sift-down ends, and leaves an ordered heap of the same threads. -/
theorem siftDown_spec {n : ℕ} (fuel : ℕ) :
    ∀ {h : Heap} {a : ℕ → ℕ} {k : ℕ}, 1 ≤ k → k ≤ n → n < k + fuel → Shape h a n →
      DownOrder (fun u => (h.node u).due) a n k →
      ∃ h' a', siftDown fuel h (a k) (slotOf a k) = some h' ∧ Sifted h a n k h' a' := by
  induction fuel with
  | zero =>
    intro h a k _ hkn hfuel
    omega
  | succ fuel ih =>
    intro h a k h1 hkn hfuel hs hd
    -- The loop stops where the node is due no later than its children.
    have hstop : (∀ i, 2 ≤ i → i ≤ n → i / 2 = k → (h.node (a k)).due ≤ (h.node (a i)).due) →
        Sifted h a n k h a := by
      intro hle
      refine ⟨hs, ?_, fun _ => rfl, rfl, rfl, fun _ _ => rfl, k, 0, hkn, by simp, rfl⟩
      intro i hi hin
      by_cases hik : i / 2 = k
      · rw [hik]
        exact hle i hi hin hik
      · exact hd.except i hi hin hik
    rw [siftDown, hs.left k h1 hkn, hs.right k h1 hkn]
    by_cases hleaf : 2 * k ≤ n
    · rw [ptr_of_le (by omega) hleaf]
      obtain ⟨j, hj, hjn, hyc, hy⟩ := @youngerChild_spec h a n k hleaf h1
      simp only [hyc]
      by_cases hlt : (h.node (a j)).due < (h.node (a k)).due
      · rw [if_pos hlt]
        obtain ⟨hs', hslot, hdue⟩ := exchange_spec hs h1 hj hjn
        have hsize := exchange_sleepq_size h (a k) (a j) (slotOf a k)
        rw [hslot]
        generalize (h.exchange (a k) (a j) (slotOf a k)).1 = h₁ at hs' hdue hsize ⊢
        have hd' : DownOrder (fun u => (h₁.node u).due) (swapAt a k j) n j := by
          simp only [hdue]
          exact hd.swap h1 hj hjn hy hlt
        obtain ⟨h', a', hrun, hsift⟩ := ih (by omega) hjn (by omega) hs' hd'
        rw [swapAt_right] at hrun
        refine ⟨h', a', hrun, hsift.shape, hsift.ordered, ?_, ?_, ?_, ?_, ?_⟩
        · intro u
          rw [hsift.due, hdue]
        · rw [hsift.size, hsize]
        · rw [hsift.members_eq, members_swapAt a h1 hkn (by omega) hjn]
        · intro i hi
          rw [hsift.off_path i, swapAt_of_ne a]
          · simpa using hi 0
          · rintro rfl
            exact hi 1 (by omega)
          · intro c hc
            apply hi (c + 1)
            rw [pow_succ, ← Nat.div_div_eq_div_mul, hc]
            omega
        · obtain ⟨i, c, hin, hic, hai⟩ := hsift.moved
          rw [swapAt_right] at hai
          refine ⟨i, c + 1, hin, ?_, hai⟩
          rw [pow_succ, ← Nat.div_div_eq_div_mul, hic]
          omega
      · rw [if_neg hlt]
        refine ⟨h, a, rfl, hstop fun i hi hin hik => ?_⟩
        exact le_trans (not_lt.mp hlt) (hy i hi hin hik)
    · rw [ptr_of_gt (by omega)]
      exact ⟨h, a, rfl, hstop fun i hi hin hik => by omega⟩

/-- More rounds than the loop needs change nothing. -/
theorem siftDown_mono {fuel : ℕ} : ∀ {fuel' : ℕ} {h h' : Heap} {t : ℕ} {p : Slot}, fuel ≤ fuel' →
    siftDown fuel h t p = some h' → siftDown fuel' h t p = some h' := by
  induction fuel with
  | zero => exact fun _ hrun => nomatch hrun
  | succ fuel ih =>
    intro fuel' h h' t p hle hrun
    obtain ⟨fuel', rfl⟩ : ∃ m, fuel' = m + 1 := ⟨fuel' - 1, by omega⟩
    rw [siftDown] at hrun ⊢
    cases hleft : (h.node t).left with
    | none =>
      rw [hleft] at hrun
      exact hrun
    | some l =>
      rw [hleft] at hrun
      dsimp only at hrun ⊢
      split_ifs at hrun ⊢ with hlt
      · exact ih (Nat.le_of_succ_le_succ hle) hrun
      · exact hrun

/-! ## Deletion -/

/-- One position more has one thread more. -/
theorem members_succ (a : ℕ → ℕ) (n : ℕ) :
    members a (n + 1) = insert (a (n + 1)) (members a n) := by
  ext u
  rw [Finset.mem_insert, mem_members, mem_members]
  constructor
  · rintro ⟨i, hi, hin, rfl⟩
    rcases Nat.lt_or_eq_of_le hin with hlt | heq
    · exact Or.inr ⟨i, hi, by omega, rfl⟩
    · exact Or.inl (by rw [heq])
  · rintro (rfl | ⟨i, hi, hin, rfl⟩)
    · exact ⟨n + 1, by omega, le_rfl, rfl⟩
    · exact ⟨i, hi, by omega, rfl⟩

/-- What `heap_delete` of the thread at position `k` leaves, from the heap `h` with array `a` and
`n + 1` positions to `h'` and `a'`. The thread that was last ends at a position on the path to `k`,
or below `k`. -/
structure Deleted (h : Heap) (a : ℕ → ℕ) (n k : ℕ) (h' : Heap) (a' : ℕ → ℕ) : Prop where
  shape : Shape h' a' n
  ordered : Ordered (fun u => (h'.node u).due) a' n
  due : ∀ u, (h'.node u).due = (h.node u).due
  size : h'.sleepq_size = n
  members_eq : members a' n = (members a (n + 1)).erase (a k)
  left : (h'.node (a k)).left = none
  right : (h'.node (a k)).right = none
  moved : k ≤ n → ∃ j c, 1 ≤ j ∧ j ≤ n ∧ a' j = a (n + 1) ∧ (j / 2 ^ c = k ∨ j = k / 2 ^ c)

/-- Clearing the pointers of a deleted thread changes nothing that the heap reads. -/
theorem clear_due (h : Heap) (x u : ℕ) :
    ((h.setNode x fun n => { n with left := none, right := none }).node u).due =
      (h.node u).due := by
  by_cases hu : u = x
  · subst hu; rw [setNode_node_self]
  · rw [setNode_node_of_ne _ _ hu]

/-- The heap after `heap_insert` has put a thread in place of the deleted one and the thread has
taken over the deleted one's children: ordered except below that position. -/
theorem heapInsert_replace {h : Heap} {a : ℕ → ℕ} {n k x : ℕ} (hs : Shape h a n)
    (ho : Ordered (fun u => (h.node u).due) a n) (hx : Fresh a n x)
    (hidx : (h.node x).heap_index = k) (h1 : 1 ≤ k) (hkn : k ≤ n) :
    ∃ h₁ a₁ x₁, heapInsert h x = some (h₁, slotOf a₁ k) ∧ h₁.read (slotOf a₁ k) = some x₁ ∧
      Shape (h₁.setNode x₁ fun m =>
        { m with left := (h₁.node (a k)).left, right := (h₁.node (a k)).right })
        (Function.update a₁ k x₁) n ∧
      DownOrder (fun u => (h.node u).due) (Function.update a₁ k x₁) n k ∧
      (∀ u, (h₁.node u).due = (h.node u).due) ∧ h₁.sleepq_size = h.sleepq_size ∧
      members (Function.update a₁ k x₁) n = (insert x (members a n)).erase (a k) ∧
      (x₁ = x ∨ ∃ c, 1 ≤ c ∧ 1 ≤ k / 2 ^ c ∧ a₁ (k / 2 ^ c) = x) := by
  obtain ⟨h₁, a₁, x₁, hrun, hidx₁, hw⟩ := heapInsert_walk (by omega) hs ho hx hidx h1 (by omega)
  have hak : a₁ k = a k := by
    apply hw.off_path
    intro c hc _ heq
    have := @div_two_pow_lt k c 0 (by omega) (by omega)
    simp at this
    omega
  have hxk : a k ≠ x₁ := by
    rw [← hak]
    exact hw.fresh k h1 hkn
  have hpx : 2 ≤ k → a₁ (k / 2) ≠ x₁ := fun _ => hw.fresh _ (by omega) (by omega)
  have hpk : 2 ≤ k → a₁ (k / 2) ≠ a k := fun _ heq => by
    rw [← hak] at heq
    have := hw.shape.inj _ _ (by omega) (by omega) h1 hkn heq
    omega
  -- The deleted thread still has its children.
  have hdel : (h₁.linkLeaf (slotOf a₁ k) x₁).node (a k) = h₁.node (a k) := by
    rw [linkLeaf_of_ne _ _ hxk, write_slotOf_of_ne _ hpk]
  have hleft := hw.shape.left k h1 hkn
  have hright := hw.shape.right k h1 hkn
  rw [hak] at hleft hright
  refine ⟨_, a₁, x₁, hrun, ?_, ?_, ?_, ?_, ?_, ?_, ?_⟩
  · unfold linkLeaf slotOf
    split_ifs with hk1 he
    · simp [read, write]
    · simp [read, write, setNode_node_of_ne _ _ (hpx (by omega))]
    · simp [read, write, setNode_node_of_ne _ _ (hpx (by omega))]
  · refine hw.shape.place hw.fresh h1 hkn ?_ ?_ ?_ ?_ ?_
    · rfl
    · intro u hu
      rw [setNode_node_of_ne _ _ hu, linkLeaf_of_ne _ _ hu]
    · rw [setNode_node_self, hdel, hleft]
    · rw [setNode_node_self, hdel, hright]
    · rw [setNode_node_self]
      exact (linkLeaf_self h₁ (slotOf a₁ k)).2.2.trans hidx₁
  · have hord : Ordered (fun u => (h.node u).due) a₁ n := by
      have := hw.ordered
      simpa only [hw.due] using this
    constructor
    · intro i hi hin hik
      rw [Function.update_of_ne hik]
      by_cases hi' : i = k
      · subst hi'
        rw [Function.update_self]
        have := hw.above hi
        simpa only [hw.due] using this
      · rw [Function.update_of_ne hi']
        exact hord i hi hin
    · intro hk i hi hin hik
      rw [Function.update_of_ne (show k / 2 ≠ k by omega),
        Function.update_of_ne (show i ≠ k by omega)]
      have hup := hord k hk hkn
      have hdown := hord i hi hin
      rw [hik] at hdown
      exact le_trans hup hdown
  · intro u
    rw [linkLeaf_due, hw.due]
  · rw [linkLeaf_sleepq_size, hw.size]
  · rw [members_update hw.shape h1 hkn, hak, ← Finset.erase_insert_of_ne hxk.symm, hw.members_eq]
  · rcases hw.moved with hm | ⟨c, hc, hcb, heq⟩
    · exact Or.inl hm
    · refine Or.inr ⟨c, hc, ?_, heq⟩
      have := Nat.log2_self_le (show k ≠ 0 by omega)
      exact (Nat.one_le_div_iff (Nat.two_pow_pos c)).mpr
        (le_trans (Nat.pow_le_pow_right (by norm_num) hcb) this)

/-- Where the thread `x` is, after it was put in place of the one at `k` and sifted down. -/
theorem Sifted.moved_last {h h' : Heap} {a₁ a' : ℕ → ℕ} {n k x x₁ : ℕ}
    (hw : Sifted h (Function.update a₁ k x₁) n k h' a') (h1 : 1 ≤ k) (hkn : k ≤ n)
    (hmoved : x₁ = x ∨ ∃ c, 1 ≤ c ∧ 1 ≤ k / 2 ^ c ∧ a₁ (k / 2 ^ c) = x) :
    ∃ j c, 1 ≤ j ∧ j ≤ n ∧ a' j = x ∧ (j / 2 ^ c = k ∨ j = k / 2 ^ c) := by
  rcases hmoved with rfl | ⟨c, hc, hpos, heq⟩
  · -- Nothing on the path was due later: the last node was put at `k` and sifted down.
    obtain ⟨j, c, hjn, hjc, hj⟩ := hw.moved
    rw [Function.update_self] at hj
    have hj1 : 1 ≤ j := by
      have := Nat.div_le_self j (2 ^ c)
      omega
    exact ⟨j, c, hj1, hjn, hj, Or.inl hjc⟩
  · -- It took a place above `k`, which the sift-down does not reach.
    have hlt' : k / 2 ^ c < k := by
      have := @div_two_pow_lt k c 0 hpos (by omega)
      simpa using this
    refine ⟨k / 2 ^ c, c, hpos, by omega, ?_, Or.inr rfl⟩
    rw [hw.off_path, Function.update_of_ne (by omega), heq]
    intro c' hc'
    have := Nat.div_le_self (k / 2 ^ c) (2 ^ c')
    omega

/-- The last thread, which has been unlinked, takes the place of the one at position `k`. -/
theorem replace_spec {h : Heap} {a : ℕ → ℕ} {n k : ℕ} (hs : Shape h a n)
    (ho : Ordered (fun u => (h.node u).due) a n) (hsize : h.sleepq_size = n)
    (hfresh : Fresh a n (a (n + 1))) (hidx : (h.node (a k)).heap_index = k) (h1 : 1 ≤ k) (hkn : k ≤ n) :
    ∃ h' a', replace h (a k) (some (a (n + 1))) = some h' ∧ Deleted h a n k h' a' := by
  rw [replace]
  dsimp only
  rw [hidx]
  -- The last node, with the position of the deleted one in its index.
  generalize hh₁ : h.setNode (a (n + 1)) (fun m => { m with heap_index := k }) = h₁
  have hs₁ : Shape h₁ a n := by rw [← hh₁]; exact hs.setNode hfresh _
  have hdue₁ : ∀ u, (h₁.node u).due = (h.node u).due := by
    intro u
    rw [← hh₁, setIndex_due]
  have hidx₁ : (h₁.node (a (n + 1))).heap_index = k := by rw [← hh₁, setNode_node_self]
  have hsize₁ : h₁.sleepq_size = n := by rw [← hh₁]; exact hsize
  have ho₁ : Ordered (fun u => (h₁.node u).due) a n := by simp only [hdue₁]; exact ho
  obtain ⟨h₂, a₂, x₂, hrun, hread₂, hs₂, hd₂, hdue₂, hsize₂, hmem₂, hmoved₂⟩ :=
    heapInsert_replace hs₁ ho₁ hfresh hidx₁ h1 hkn
  rw [hrun, Option.bind_eq_bind, Option.bind_some]
  dsimp only
  rw [hread₂]
  dsimp only
  -- The node at `k` is sifted down from there.
  generalize hh₃ : (h₂.setNode x₂ fun m => { m with
      left := (h₂.node (a k)).left, right := (h₂.node (a k)).right }) = h₃ at hs₂ ⊢
  have hdue₃ : ∀ u, (h₃.node u).due = (h₂.node u).due := by
    intro u
    rw [← hh₃]
    by_cases hu : u = x₂
    · subst hu; rw [setNode_node_self]
    · rw [setNode_node_of_ne _ _ hu]
  have hsize₃ : h₃.sleepq_size = n := by rw [← hh₃, setNode_sleepq_size, hsize₂, hsize₁]
  have hd₃ : DownOrder (fun u => (h₃.node u).due) (Function.update a₂ k x₂) n k := by
    simp only [hdue₃, hdue₂]
    exact hd₂
  have hslot : slotOf (Function.update a₂ k x₂) k = slotOf a₂ k := slotOf_update h1
  obtain ⟨h', a', hsift, hw⟩ := siftDown_spec (h₃.sleepq_size + 1) h1 hkn (by omega) hs₂ hd₃
  rw [hslot, Function.update_self] at hsift
  rw [hsift, Option.bind_eq_bind, Option.bind_some]
  have hmem : members a' n = (members a (n + 1)).erase (a k) := by
    rw [hw.members_eq, hmem₂, members_succ]
  have hfresh' : Fresh a' n (a k) := by
    rw [fresh_iff, hmem]
    simp
  refine ⟨_, a', rfl, hw.shape.setNode hfresh' _, ?_, ?_, ?_, hmem, ?_, ?_, ?_⟩
  · simp only [clear_due]; exact hw.ordered
  · intro u
    rw [clear_due, hw.due, hdue₃, hdue₂, hdue₁]
  · rw [setNode_sleepq_size, hw.size, hsize₃]
  · rw [setNode_node_self]
  · rw [setNode_node_self]
  · exact fun _ => hw.moved_last h1 hkn hmoved₂

/-- `heap_delete` of the thread at position `k`. -/
theorem heapDelete_spec {h : Heap} {a : ℕ → ℕ} {n k : ℕ} (hs : Shape h a (n + 1))
    (ho : Ordered (fun u => (h.node u).due) a (n + 1)) (hsize : h.sleepq_size = n + 1)
    (h1 : 1 ≤ k) (hkn : k ≤ n + 1) :
    ∃ h' a', heapDelete h (a k) = some h' ∧ Deleted h a n k h' a' := by
  have hlast : lastSlot (n + 1) h (n + 1).log2 .root = some (slotOf a (n + 1)) :=
    lastSlot_spec hs (div_two_pow_log2 (by omega)).symm le_rfl
  have hread : h.read (slotOf a (n + 1)) = some (a (n + 1)) := by
    rw [hs.read_slotOf (by omega) (by omega), ptr_of_le (by omega) le_rfl]
  rw [heapDelete, hsize, bitLength_sub_one, hlast]
  simp only [Option.bind_eq_bind, Option.bind_some, hread, write_sleepq_size, hsize,
    Nat.add_sub_cancel]
  -- The heap without its last node.
  have hs₁ := hs.unlink
  have hdue₁ := fun u => (write_node h (slotOf a (n + 1)) none u).1
  have hidx₁ := fun u => (write_node h (slotOf a (n + 1)) none u).2
  generalize h.write (slotOf a (n + 1)) none = h₁ at hs₁ hdue₁ hidx₁ ⊢
  have hs₂ : Shape { h₁ with sleepq_size := n } a n := hs₁.congr rfl fun _ _ _ => ⟨rfl, rfl, rfl⟩
  have ho₂ : Ordered (fun u => (h₁.node u).due) a n := by
    intro i hi hin
    simp only [hdue₁]
    exact ho i hi (by omega)
  have hfresh : Fresh a n (a (n + 1)) := hs.fresh_last
  rcases Nat.lt_or_eq_of_le hkn with hlt | heq
  · -- The deleted node is not the last one.
    have hne : a (n + 1) ≠ a k := fun heq => by
      have := hs.inj _ _ (by omega) le_rfl h1 hkn heq
      omega
    have hk : (h₁.node (a k)).heap_index = k := by rw [hidx₁, hs.index k h1 hkn]
    rw [if_pos (by simpa using hne)]
    obtain ⟨h', a', hrun, hd⟩ := replace_spec hs₂ ho₂ rfl hfresh hk h1 (by omega)
    exact ⟨h', a', hrun, { hd with due := fun u => (hd.due u).trans (hdue₁ u) }⟩
  · -- The deleted node is the last one.
    subst heq
    rw [if_neg (by simp)]
    refine ⟨_, a, rfl, hs₂.setNode hfresh _, ?_, ?_, rfl, ?_, ?_, ?_, by omega⟩
    · simp only [clear_due]; exact ho₂
    · intro u
      rw [clear_due]
      exact hdue₁ u
    · rw [members_succ, Finset.erase_insert (fresh_iff.mp hfresh)]
    · rw [setNode_node_self]
    · rw [setNode_node_self]

end StWin.Heap
