import StWin.Heap.Due

/-!
# The records that the heap points to

The operations of the timeout heap copy pointers, and the only new one is to the thread that
`_st_add_sleep_q` adds. So what holds of every record that the heap points to is kept, whether the heap
is well formed or not.
-/

namespace StWin.Heap

variable {P : ℕ → Prop}

/-- The pointer is `NULL`, or to a record with the property. -/
def PtrTo (P : ℕ → Prop) (p : Option ℕ) : Prop := ∀ u, p = some u → P u

/-- `NULL` is a pointer to any records. -/
theorem PtrTo.none : PtrTo P none := fun _ h => by cases h

/-- A pointer to a record with the property. -/
theorem PtrTo.some {t : ℕ} (h : P t) : PtrTo P (some t) := fun _ hu => Option.some_inj.mp hu ▸ h

/-- The pointers of a record are to records with the property. -/
def NodeTo (P : ℕ → Prop) (n : HeapNode) : Prop := PtrTo P n.left ∧ PtrTo P n.right

/-- The heap's pointers are to records with the property. -/
def PointsTo (P : ℕ → Prop) (h : Heap) : Prop :=
  PtrTo P h.sleep_q ∧ ∀ u, NodeTo P (h.node u)

/-- The property may be replaced by one that follows from it. -/
theorem PointsTo.mono {Q : ℕ → Prop} (hPQ : ∀ u, P u → Q u) {h : Heap} (hp : h.PointsTo P) :
    h.PointsTo Q :=
  ⟨fun u hu => hPQ u (hp.1 u hu), fun u => ⟨fun v hv => hPQ v ((hp.2 u).1 v hv),
    fun v hv => hPQ v ((hp.2 u).2 v hv)⟩⟩

/-- Two properties hold together. -/
theorem PointsTo.and {Q : ℕ → Prop} {h : Heap} (hp : h.PointsTo P) (hq : h.PointsTo Q) :
    h.PointsTo fun u => P u ∧ Q u :=
  ⟨fun u hu => ⟨hp.1 u hu, hq.1 u hu⟩, fun u => ⟨fun v hv => ⟨(hp.2 u).1 v hv, (hq.2 u).1 v hv⟩,
    fun v hv => ⟨(hp.2 u).2 v hv, (hq.2 u).2 v hv⟩⟩⟩

/-- A pointer that is read from the heap. -/
theorem PointsTo.read {h : Heap} (hp : h.PointsTo P) (p : Slot) : PtrTo P (h.read p) := by
  cases p with
  | root => exact hp.1
  | left t => exact (hp.2 t).1
  | right t => exact (hp.2 t).2

/-- The heap after a write to one node. -/
theorem PointsTo.setNode {h : Heap} (hp : h.PointsTo P) {t : ℕ} {f : HeapNode → HeapNode}
    (hf : NodeTo P (f (h.node t))) : (h.setNode t f).PointsTo P := by
  refine ⟨hp.1, fun u => ?_⟩
  rw [setNode_node]
  split_ifs
  · exact hf
  · exact hp.2 u

/-- An assignment to `due` or `heap_index`. -/
theorem PointsTo.setNode_same {h : Heap} (hp : h.PointsTo P) {t : ℕ} {f : HeapNode → HeapNode}
    (hf : ∀ n, (f n).left = n.left ∧ (f n).right = n.right) : (h.setNode t f).PointsTo P := by
  refine hp.setNode ⟨?_, ?_⟩
  · rw [(hf _).1]
    exact (hp.2 t).1
  · rw [(hf _).2]
    exact (hp.2 t).2

/-- The heap after a write through a pointer to a link. -/
theorem PointsTo.write {h : Heap} (hp : h.PointsTo P) {p : Slot} {v : Option ℕ} (hv : PtrTo P v) :
    (h.write p v).PointsTo P := by
  cases p with
  | root => exact ⟨hv, hp.2⟩
  | left t => exact hp.setNode ⟨hv, (hp.2 t).2⟩
  | right t => exact hp.setNode ⟨(hp.2 t).1, hv⟩

/-- The heap after the insertion has put `x` in the place of a node. -/
theorem PointsTo.takePlace {h : Heap} (hp : h.PointsTo P) (p : Slot) (i : ℕ) {x : ℕ} (hx : P x) (t : ℕ) :
    (h.takePlace p i x t).PointsTo P := by
  have h₁ := hp.setNode (t := x) (f := fun n =>
    { n with left := (h.node t).left, right := (h.node t).right }) (hp.2 t)
  refine PointsTo.setNode_same (h₁.write (.some hx)) ?_
  exact fun _ => ⟨rfl, rfl⟩

/-- The heap after the insertion has linked `x` as a leaf. -/
theorem PointsTo.linkLeaf {h : Heap} (hp : h.PointsTo P) (p : Slot) {x : ℕ} (hx : P x) :
    (h.linkLeaf p x).PointsTo P :=
  (hp.write (.some hx)).setNode ⟨.none, .none⟩

/-- The walk of `heap_insert`, by induction on the bits that are left. -/
theorem heapInsertLoop_pointsTo (target b : ℕ) : ∀ {h : Heap} {x : ℕ} {p : Slot} {i : ℕ}
    {r : Heap × ℕ × Slot × ℕ}, h.PointsTo P → P x → heapInsertLoop target b h x p i = some r →
      r.1.PointsTo P ∧ P r.2.1 := by
  induction b with
  | zero =>
    intro h x p i r hp hx hr
    cases hr
    exact ⟨hp, hx⟩
  | succ b ih =>
    intro h x p i r hp hx hr
    rw [heapInsertLoop] at hr
    obtain ⟨t, ht, hr⟩ := Option.bind_eq_some_iff.mp hr
    -- The thread that is in hand after the swap is `x`, or the one that was at `p`.
    generalize hs : (if (h.node x).due < (h.node t).due then (h.takePlace p i x t, t) else (h, x)) = s
      at hr
    have hswap : s.1.PointsTo P ∧ P s.2 := by
      rw [← hs]
      split_ifs
      · exact ⟨hp.takePlace p i hx t, hp.read p t ht⟩
      · exact ⟨hp, hx⟩
    obtain ⟨h₁, x₁⟩ := s
    obtain ⟨q, -, hr⟩ := Option.bind_eq_some_iff.mp hr
    dsimp only at hr
    split_ifs at hr
    · cases hr
      exact hswap
    · exact ih hswap.1 hswap.2 hr

/-- `heap_insert` writes pointers to `x` and to records that the heap had. -/
theorem heapInsert_pointsTo {h : Heap} {x : ℕ} {r : Heap × Slot} (hp : h.PointsTo P) (hx : P x)
    (hr : h.heapInsert x = some r) : r.1.PointsTo P := by
  unfold heapInsert at hr
  split_ifs at hr
  · cases hr
    exact hp.linkLeaf .root hx
  · obtain ⟨⟨h₁, x₁, p, i⟩, hloop, hr⟩ := Option.bind_eq_some_iff.mp hr
    cases hr
    obtain ⟨h₁p, hx₁⟩ := heapInsertLoop_pointsTo _ _ hp hx hloop
    refine PointsTo.linkLeaf (PointsTo.setNode_same h₁p ?_) p hx₁
    exact fun _ => ⟨rfl, rfl⟩

/-- An exchange of `heap_delete` writes pointers to the two nodes and to what they pointed to. -/
theorem exchange_pointsTo {h : Heap} (hp : h.PointsTo P) {t y : ℕ} (ht : P t) (hy : P y) (p : Slot) :
    (h.exchange t y p).1.PointsTo P := by
  have h₁ := hp.write (p := p) (PtrTo.some hy)
  unfold exchange
  dsimp only
  -- On either side `t` gets the children that `y` had, and `y` gets `t` for one of its own.
  split_ifs
  all_goals
    dsimp only
    refine PointsTo.setNode_same (PointsTo.setNode_same (PointsTo.setNode (PointsTo.setNode h₁ ?_) ?_) ?_) ?_
  · exact ⟨.some ht, (h₁.2 t).2⟩
  · exact hp.2 y
  · exact fun _ => ⟨rfl, rfl⟩
  · exact fun _ => ⟨rfl, rfl⟩
  · exact ⟨(h₁.2 t).1, .some ht⟩
  · exact hp.2 y
  · exact fun _ => ⟨rfl, rfl⟩
  · exact fun _ => ⟨rfl, rfl⟩

/-- The child that the sift-down chooses is one of the two. -/
theorem youngerChild_pointsTo (h : Heap) {l : ℕ} {r : Option ℕ} (hl : P l) (hr : PtrTo P r) :
    P (h.youngerChild l r) := by
  cases r with
  | none => exact hl
  | some r =>
    unfold youngerChild
    dsimp only
    split_ifs
    · exact hl
    · exact hr r rfl

/-- The sift-down, by induction on its steps. -/
theorem siftDown_pointsTo (fuel : ℕ) : ∀ {h h' : Heap} {t : ℕ} {p : Slot},
    h.PointsTo P → P t → siftDown fuel h t p = some h' → h'.PointsTo P := by
  induction fuel with
  | zero =>
    intro h h' t p _ _ hr
    cases hr
  | succ fuel ih =>
    intro h h' t p hp ht hr
    rw [siftDown] at hr
    split at hr
    · cases hr
      exact hp
    · next l hl =>
      have hy : P (h.youngerChild l (h.node t).right) :=
        h.youngerChild_pointsTo ((hp.2 t).1 l hl) (hp.2 t).2
      dsimp only at hr
      split_ifs at hr
      · exact ih (exchange_pointsTo hp ht hy p) ht hr
      · cases hr
        exact hp

/-- The last node takes the place of the one that is deleted. -/
theorem replace_pointsTo {h h' : Heap} {x : ℕ} {t : Option ℕ} (hp : h.PointsTo P) (ht : PtrTo P t)
    (hr : h.replace x t = some h') : h'.PointsTo P := by
  unfold replace at hr
  split at hr
  · cases hr
    exact hp
  · next t =>
    obtain ⟨⟨h₁, p⟩, hins, hr⟩ := Option.bind_eq_some_iff.mp hr
    have h₁p : h₁.PointsTo P := by
      refine heapInsert_pointsTo (PointsTo.setNode_same hp ?_) (ht t rfl) hins
      exact fun _ => ⟨rfl, rfl⟩
    dsimp only at hr
    split at hr
    · cases hr
      exact h₁p
    · next u hu =>
      obtain ⟨h₂, hsift, hr⟩ := Option.bind_eq_some_iff.mp hr
      cases hr
      refine (siftDown_pointsTo _ ?_ (h₁p.read p u hu) hsift).setNode ⟨.none, .none⟩
      exact h₁p.setNode (h₁p.2 x)

/-- `_st_del_sleep_q` puts no pointer into the heap that was not there. -/
theorem delSleepQ_pointsTo {h h' : Heap} {x : ℕ} (hp : h.PointsTo P) (hr : h.delSleepQ x = some h') :
    h'.PointsTo P := by
  unfold delSleepQ heapDelete at hr
  obtain ⟨p, -, hr⟩ := Option.bind_eq_some_iff.mp hr
  have hw : PointsTo P { h.write p none with sleepq_size := (h.write p none).sleepq_size - 1 } :=
    hp.write .none
  dsimp only at hr
  split_ifs at hr
  · exact replace_pointsTo hw (hp.read p) hr
  · cases hr
    exact hw.setNode ⟨.none, .none⟩

/-- `_st_add_sleep_q` puts pointers to the thread into the heap. -/
theorem addSleepQ_pointsTo {h h' : Heap} {last_clock x timeout : ℕ} (hp : h.PointsTo P) (hx : P x)
    (hr : h.addSleepQ last_clock x timeout = some h') : h'.PointsTo P := by
  unfold addSleepQ at hr
  obtain ⟨⟨h₁, p⟩, hins, hr⟩ := Option.bind_eq_some_iff.mp hr
  cases hr
  have hdue : (h.setNode x fun n => { n with due := (last_clock + timeout) % utimeMod }).PointsTo P := by
    refine hp.setNode_same ?_
    exact fun _ => ⟨rfl, rfl⟩
  refine heapInsert_pointsTo (PointsTo.setNode_same ?_ ?_) hx hins
  · exact hdue
  · exact fun _ => ⟨rfl, rfl⟩

end StWin.Heap
