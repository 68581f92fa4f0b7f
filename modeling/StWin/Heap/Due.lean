import StWin.Heap.Insert
import StWin.Heap.Delete

/-!
# Due times

The operations of the timeout heap move pointers and indices. The only assignment to a due time is
that of `_st_add_sleep_q` to the thread that it adds. This holds of every heap, well-formed or not.
-/

namespace StWin.Heap

/-- No due time has changed. -/
def SameDue (h h' : Heap) : Prop := ∀ u, (h'.node u).due = (h.node u).due

/-- Nothing has changed. -/
theorem SameDue.refl (h : Heap) : SameDue h h := fun _ => rfl

/-- Two steps that leave the due times as they are. -/
theorem SameDue.trans {h h' h'' : Heap} (h₁ : SameDue h h') (h₂ : SameDue h' h'') : SameDue h h'' :=
  fun u => (h₂ u).trans (h₁ u)

/-- A write to a node, but not to its due time. -/
theorem setNode_sameDue (h : Heap) (t : ℕ) {f : HeapNode → HeapNode} (hf : ∀ n, (f n).due = n.due) :
    SameDue h (h.setNode t f) := by
  intro u
  rw [setNode_node]
  split_ifs with hu
  · rw [hu, hf]
  · rfl

/-- A write to a node, but not to its due time, after such a step. -/
theorem SameDue.setNode {h h' : Heap} (hd : SameDue h h') {t : ℕ} {f : HeapNode → HeapNode}
    (hf : ∀ n, (f n).due = n.due) : SameDue h (h'.setNode t f) :=
  hd.trans (setNode_sameDue h' t hf)

/-- A write to a pointer. -/
theorem write_sameDue (h : Heap) (p : Slot) (v : Option ℕ) : SameDue h (h.write p v) :=
  fun u => (write_node h p v u).1

/-- `x` takes the place of a node. -/
theorem takePlace_sameDue (h : Heap) (p : Slot) (i x t : ℕ) : SameDue h (h.takePlace p i x t) :=
  fun u => takePlace_due h p i x t u

/-- `x` is linked as a leaf. -/
theorem linkLeaf_sameDue (h : Heap) (p : Slot) (x : ℕ) : SameDue h (h.linkLeaf p x) :=
  fun u => linkLeaf_due h p x u

/-- The walk of `heap_insert`, by induction on the bits that are left. -/
theorem heapInsertLoop_sameDue (target : ℕ) (b : ℕ) : ∀ {h : Heap} {x : ℕ} {p : Slot} {i : ℕ}
    {r : Heap × ℕ × Slot × ℕ}, heapInsertLoop target b h x p i = some r → SameDue h r.1 := by
  induction b with
  | zero =>
    intro h x p i r hr
    cases hr
    exact .refl h
  | succ b ih =>
    intro h x p i r hr
    rw [heapInsertLoop] at hr
    obtain ⟨t, -, hr⟩ := Option.bind_eq_some_iff.mp hr
    -- The swap, or nothing.
    generalize hs : (if (h.node x).due < (h.node t).due then (h.takePlace p i x t, t) else (h, x)) = s
      at hr
    have hsame : SameDue h s.1 := by
      rw [← hs]
      split_ifs
      · exact takePlace_sameDue h p i x t
      · exact .refl h
    obtain ⟨h₁, x₁⟩ := s
    obtain ⟨q, -, hr⟩ := Option.bind_eq_some_iff.mp hr
    dsimp only at hr
    split_ifs at hr
    · cases hr
      exact hsame
    · exact hsame.trans (ih hr)

/-- `heap_insert` leaves the due times as they are. -/
theorem heapInsert_sameDue {h : Heap} {x : ℕ} {r : Heap × Slot} (hr : h.heapInsert x = some r) :
    SameDue h r.1 := by
  unfold heapInsert at hr
  split_ifs at hr
  · cases hr
    exact linkLeaf_sameDue h .root x
  · obtain ⟨⟨h₁, x₁, p, i⟩, hloop, hr⟩ := Option.bind_eq_some_iff.mp hr
    cases hr
    refine SameDue.trans ?_ (linkLeaf_sameDue _ p x₁)
    exact (heapInsertLoop_sameDue _ _ hloop).setNode fun _ => rfl

/-- An exchange of two nodes. -/
theorem exchange_sameDue (h : Heap) (t y : ℕ) (p : Slot) : SameDue h (h.exchange t y p).1 := by
  unfold exchange
  dsimp only
  split_ifs
  all_goals
    dsimp only
    refine SameDue.setNode (SameDue.setNode (SameDue.setNode (SameDue.setNode ?_ ?_) ?_) ?_) ?_
    · exact write_sameDue h p (some y)
    all_goals exact fun _ => rfl

/-- The sift-down, by induction on its steps. -/
theorem siftDown_sameDue (fuel : ℕ) : ∀ {h h' : Heap} {t : ℕ} {p : Slot},
    siftDown fuel h t p = some h' → SameDue h h' := by
  induction fuel with
  | zero =>
    intro h h' t p hr
    cases hr
  | succ fuel ih =>
    intro h h' t p hr
    rw [siftDown] at hr
    split at hr
    · cases hr
      exact .refl h
    · dsimp only at hr
      split_ifs at hr
      · exact (exchange_sameDue h t _ p).trans (ih hr)
      · cases hr
        exact .refl h

/-- The last node takes the place of the one that is deleted. -/
theorem replace_sameDue {h h' : Heap} {x : ℕ} {t : Option ℕ} (hr : h.replace x t = some h') :
    SameDue h h' := by
  unfold replace at hr
  split at hr
  · cases hr
    exact .refl h
  · next t =>
    obtain ⟨⟨h₁, p⟩, hins, hr⟩ := Option.bind_eq_some_iff.mp hr
    have h₁' : SameDue h h₁ := by
      refine SameDue.trans ?_ (heapInsert_sameDue hins)
      exact (SameDue.refl h).setNode fun _ => rfl
    dsimp only at hr
    split at hr
    · cases hr
      exact h₁'
    · obtain ⟨h₂, hsift, hr⟩ := Option.bind_eq_some_iff.mp hr
      cases hr
      refine SameDue.setNode (SameDue.trans ?_ (siftDown_sameDue _ hsift)) fun _ => rfl
      exact h₁'.setNode fun _ => rfl

/-- `_st_del_sleep_q` changes no due time. -/
theorem delSleepQ_sameDue {h h' : Heap} {x : ℕ} (hr : h.delSleepQ x = some h') : SameDue h h' := by
  unfold delSleepQ heapDelete at hr
  obtain ⟨p, -, hr⟩ := Option.bind_eq_some_iff.mp hr
  have hw : SameDue h { h.write p none with sleepq_size := (h.write p none).sleepq_size - 1 } :=
    write_sameDue h p none
  dsimp only at hr
  split_ifs at hr
  · exact hw.trans (replace_sameDue hr)
  · cases hr
    exact hw.setNode fun _ => rfl

/-- `_st_add_sleep_q` assigns the due time of the thread that it adds. -/
theorem addSleepQ_due {h h' : Heap} {last_clock x timeout : ℕ}
    (hr : h.addSleepQ last_clock x timeout = some h') (u : ℕ) :
    (h'.node u).due = if u = x then (last_clock + timeout) % utimeMod else (h.node u).due := by
  unfold addSleepQ at hr
  obtain ⟨⟨h₁, p⟩, hins, hr⟩ := Option.bind_eq_some_iff.mp hr
  cases hr
  rw [heapInsert_sameDue hins u, setIndex_due]
  change ((h.setNode x fun n => { n with due := (last_clock + timeout) % utimeMod }).node u).due = _
  rw [setNode_node]
  split_ifs <;> rfl

end StWin.Heap
