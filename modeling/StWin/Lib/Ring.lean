import Mathlib.Data.List.Nodup
import Mathlib.Logic.Function.Basic

/-!
# Circular doubly linked lists

A node has a link to the next node and one to the previous node. A list is a ring of nodes through a
node of its own, its head, and `IsRing` says which other nodes are on it, in order. Nodes that are
not on a ring may have any links, and those of a removed node are left as they were.

The insertion at the end and the removal are sequences of four and of two assignments. Both proofs
cut the ring into segments, of which only the last link of the first one changes.
-/

namespace Ring

variable {N : Type*}

/-- The links of all nodes. -/
structure Links (N : Type*) where
  next : N → N
  prev : N → N

/-- The links lead from `a` over the nodes of a list to `b`, and back. -/
def Seg (m : Links N) : N → List N → N → Prop
  | a, [], b => m.next a = b ∧ m.prev b = a
  | a, x :: xs, b => m.next a = x ∧ m.prev x = a ∧ Seg m x xs b

/-- The ring through the head `l` has the nodes `xs`. -/
def IsRing (m : Links N) (l : N) (xs : List N) : Prop := (l :: xs).Nodup ∧ Seg m l xs l

/-! ## Segments -/

/-- A segment through `x` is one up to `x` and one from `x` on. -/
theorem seg_append {m : Links N} {a b x : N} {xs ys : List N} :
    Seg m a (xs ++ x :: ys) b ↔ Seg m a xs x ∧ Seg m x ys b := by
  induction xs generalizing a with
  | nil => simp [Seg, and_assoc]
  | cons y xs ih => simp [Seg, ih, and_assoc]

/-- The end of a segment leads back to its last node. -/
theorem Seg.prev_last {m : Links N} {a b : N} {xs : List N} (h : Seg m a xs b) :
    m.prev b = xs.getLastD a := by
  induction xs generalizing a with
  | nil => exact h.2
  | cons x xs ih =>
    rw [List.getLastD_cons]
    exact ih h.2.2

/-- The start of a segment leads on to its first node. -/
theorem Seg.next_first {m : Links N} {a b : N} {xs : List N} (h : Seg m a xs b) :
    m.next a = xs.headD b := by
  cases xs with
  | nil => exact h.1
  | cons x xs => exact h.1

/-- The last node, or the default. -/
theorem getLastD_mem (xs : List N) (a : N) : xs.getLastD a ∈ a :: xs := by
  induction xs generalizing a with
  | nil => exact List.mem_singleton_self a
  | cons x xs ih =>
    rw [List.getLastD_cons]
    exact List.mem_cons_of_mem a (ih x)

/-- A segment depends on the links of its nodes only. -/
theorem Seg.congr {m m' : Links N} {a b : N} {xs : List N} (h : Seg m a xs b)
    (hnext : ∀ x ∈ a :: xs, m'.next x = m.next x) (hprev : ∀ x ∈ b :: xs, m'.prev x = m.prev x) :
    Seg m' a xs b := by
  induction xs generalizing a with
  | nil => exact ⟨(hnext a (by simp)).trans h.1, (hprev b (by simp)).trans h.2⟩
  | cons x xs ih =>
    obtain ⟨hx, hpx, hrest⟩ := h
    refine ⟨(hnext a (by simp)).trans hx, (hprev x (by simp)).trans hpx, ih hrest ?_ ?_⟩
    · intro y hy
      exact hnext y (List.mem_cons_of_mem a hy)
    · intro y hy
      refine hprev y ?_
      rcases List.mem_cons.mp hy with rfl | hy
      · exact List.mem_cons_self
      · exact List.mem_cons_of_mem _ (List.mem_cons_of_mem _ hy)

/-- The last link of a segment is turned to another node. -/
theorem Seg.redirect {m m' : Links N} {a b c : N} {xs : List N} (h : Seg m a xs b)
    (hnodup : (a :: xs).Nodup)
    (hnext : ∀ x ∈ a :: xs, x ≠ xs.getLastD a → m'.next x = m.next x)
    (hprev : ∀ x ∈ xs, m'.prev x = m.prev x)
    (hlast : m'.next (xs.getLastD a) = c) (hc : m'.prev c = xs.getLastD a) : Seg m' a xs c := by
  induction xs generalizing a with
  | nil => exact ⟨hlast, hc⟩
  | cons x xs ih =>
    obtain ⟨hx, hpx, hrest⟩ := h
    rw [List.getLastD_cons] at hlast hc hnext
    have hne : a ≠ xs.getLastD x := by
      intro heq
      have hmem := getLastD_mem xs x
      rw [← heq] at hmem
      exact (List.nodup_cons.mp hnodup).1 hmem
    refine ⟨(hnext a (by simp) hne).trans hx, (hprev x (by simp)).trans hpx,
      ih hrest (List.nodup_cons.mp hnodup).2 ?_ ?_ hlast hc⟩
    · intro y hy hyne
      exact hnext y (List.mem_cons_of_mem a hy) hyne
    · intro y hy
      exact hprev y (List.mem_cons_of_mem x hy)

/-! ## Rings -/

/-- A list is empty if its head is linked to itself. -/
theorem IsRing.next_eq_iff {m : Links N} {l : N} {xs : List N} (h : IsRing m l xs) :
    m.next l = l ↔ xs = [] := by
  rw [h.2.next_first]
  cases xs with
  | nil => simp
  | cons x xs =>
    have hne : x ≠ l := by
      rintro rfl
      exact (List.nodup_cons.mp h.1).1 List.mem_cons_self
    simp [hne]

/-- The head of a ring leads on to its first node. -/
theorem IsRing.next_head {m : Links N} {l x : N} {xs : List N} (h : IsRing m l (x :: xs)) :
    m.next l = x := h.2.1

/-- Any node of a ring may be taken as its head. -/
theorem IsRing.rotate {m : Links N} {l y : N} {xs ys : List N} (h : IsRing m l (xs ++ y :: ys)) :
    IsRing m y (ys ++ l :: xs) := by
  obtain ⟨hfirst, hsecond⟩ := seg_append.mp h.2
  refine ⟨?_, seg_append.mpr ⟨hsecond, hfirst⟩⟩
  have hperm : (l :: (xs ++ y :: ys)).Perm (y :: (ys ++ l :: xs)) := by
    rw [← List.cons_append, ← List.cons_append]
    exact List.perm_append_comm
  exact hperm.nodup_iff.mp h.1

/-- The links in the other direction. -/
def flip (m : Links N) : Links N := ⟨m.prev, m.next⟩

/-- Read backwards, a segment leads from its end to its start. -/
theorem Seg.flip {m : Links N} {a b : N} {xs : List N} (h : Seg m a xs b) :
    Seg (flip m) b xs.reverse a := by
  induction xs generalizing a with
  | nil => exact ⟨h.2, h.1⟩
  | cons x xs ih =>
    obtain ⟨hx, hpx, hrest⟩ := h
    rw [List.reverse_cons]
    exact seg_append.mpr ⟨ih hrest, hpx, hx⟩

/-- A list may be walked in the other direction. -/
theorem IsRing.flip {m : Links N} {l : N} {xs : List N} (h : IsRing m l xs) :
    IsRing (flip m) l xs.reverse := by
  refine ⟨?_, h.2.flip⟩
  have hperm : (l :: xs).Perm (l :: xs.reverse) := (List.reverse_perm xs).symm.cons l
  exact hperm.nodup_iff.mp h.1

variable [DecidableEq N]

/-- The ring of a list that has only its head. -/
def init (m : Links N) (l : N) : Links N :=
  ⟨Function.update m.next l l, Function.update m.prev l l⟩

/-- A head that leads to itself is an empty ring. -/
theorem init_isRing (m : Links N) (l : N) : IsRing (init m l) l [] := by
  refine ⟨List.nodup_singleton l, ?_, ?_⟩
  · exact Function.update_self l l m.next
  · exact Function.update_self l l m.prev

/-- Insert `e` before `l`, that is, at the end of the list with the head `l`. -/
def insertBefore (m : Links N) (e l : N) : Links N :=
  let m := { m with next := Function.update m.next e l }
  let m := { m with prev := Function.update m.prev e (m.prev l) }
  let m := { m with next := Function.update m.next (m.prev l) e }
  { m with prev := Function.update m.prev l e }

/-- An insertion before the head appends to the ring. -/
theorem insertBefore_isRing {m : Links N} {e l : N} {xs : List N} (h : IsRing m l xs)
    (he : e ∉ l :: xs) : IsRing (insertBefore m e l) l (xs ++ [e]) := by
  obtain ⟨hnodup, hseg⟩ := h
  have hel : e ≠ l := fun heq => he (heq ▸ List.mem_cons_self)
  have hle := hel.symm
  have hlast := hseg.prev_last
  have hmem := getLastD_mem xs l
  have hlaste : xs.getLastD l ≠ e := fun heq => he (heq ▸ hmem)
  -- The four assignments, each read through the others.
  have hnext : (insertBefore m e l).next =
      Function.update (Function.update m.next e l) (xs.getLastD l) e := by
    simp [insertBefore, Function.update_of_ne hle, hlast]
  have hprev : (insertBefore m e l).prev =
      Function.update (Function.update m.prev e (xs.getLastD l)) l e := by
    simp [insertBefore, hlast]
  refine ⟨?_, seg_append.mpr ⟨hseg.redirect hnodup ?_ ?_ ?_ ?_, ?_, ?_⟩⟩
  · rw [← List.cons_append]
    exact List.nodup_append.mpr ⟨hnodup, List.nodup_singleton e,
      fun x hx y hy hxy => he (by rw [List.mem_singleton.mp hy] at hxy; exact hxy ▸ hx)⟩
  · intro x hx hne
    have hxe : x ≠ e := fun heq => he (heq ▸ hx)
    rw [hnext, Function.update_of_ne hne, Function.update_of_ne hxe]
  · intro x hx
    have hxe : x ≠ e := fun heq => he (heq ▸ List.mem_cons_of_mem l hx)
    have hxl : x ≠ l := fun heq => (List.nodup_cons.mp hnodup).1 (heq ▸ hx)
    rw [hprev, Function.update_of_ne hxl, Function.update_of_ne hxe]
  · rw [hnext, Function.update_self]
  · rw [hprev, Function.update_of_ne hel, Function.update_self]
  · rw [hnext, Function.update_of_ne hlaste.symm, Function.update_self]
  · rw [hprev, Function.update_self]

/-- Remove `e` from its list. -/
def removeLink (m : Links N) (e : N) : Links N :=
  let m := { m with next := Function.update m.next (m.prev e) (m.next e) }
  { m with prev := Function.update m.prev (m.next e) (m.prev e) }

/-- A node that is unlinked leaves the ring in the order that it had. -/
theorem removeLink_isRing {m : Links N} {e l : N} {xs ys : List N}
    (h : IsRing m l (xs ++ e :: ys)) : IsRing (removeLink m e) l (xs ++ ys) := by
  obtain ⟨hnodup, hseg⟩ := h
  obtain ⟨hfirst, hsecond⟩ := seg_append.mp hseg
  rw [← List.cons_append] at hnodup
  obtain ⟨hnodup₁, hnodup₂, hdisj⟩ := List.nodup_append.mp hnodup
  have hlast := hfirst.prev_last
  have hhead := hsecond.next_first
  have hmem := getLastD_mem xs l
  have hlaste : xs.getLastD l ≠ e := hdisj _ hmem e List.mem_cons_self
  -- The two assignments link the neighbours of `e` to each other.
  have hnext : (removeLink m e).next = Function.update m.next (xs.getLastD l) (ys.headD l) := by
    simp [removeLink, hlast, hhead]
  have hprev : (removeLink m e).prev = Function.update m.prev (ys.headD l) (xs.getLastD l) := by
    simp only [removeLink, hlast]
    rw [Function.update_of_ne hlaste.symm, hhead]
  have hturn : ∀ c, ys.headD l = c → Seg (removeLink m e) l xs c := by
    intro c hc
    refine hfirst.redirect hnodup₁ ?_ ?_ ?_ ?_
    · intro x hx hne
      rw [hnext, Function.update_of_ne hne]
    · intro x hx
      have hne : x ≠ ys.headD l := by
        cases ys with
        | nil =>
          rintro rfl
          exact (List.nodup_cons.mp hnodup₁).1 hx
        | cons y ys => exact hdisj x (List.mem_cons_of_mem l hx) y (by simp)
      rw [hprev, Function.update_of_ne hne]
    · rw [hnext, Function.update_self, hc]
    · rw [hprev, hc, Function.update_self]
  refine ⟨?_, ?_⟩
  · rw [← List.cons_append]
    exact List.nodup_append.mpr ⟨hnodup₁, (List.nodup_cons.mp hnodup₂).2,
      fun x hx y hy => hdisj x hx y (List.mem_cons_of_mem e hy)⟩
  · cases ys with
    | nil =>
      rw [List.append_nil]
      exact hturn l rfl
    | cons y ys =>
      refine seg_append.mpr ⟨hturn y rfl, hsecond.2.2.congr ?_ ?_⟩
      · intro x hx
        have hne : x ≠ xs.getLastD l := (hdisj _ hmem x (List.mem_cons_of_mem e hx)).symm
        rw [hnext, Function.update_of_ne hne]
      · intro x hx
        have hne : x ≠ y := by
          have hy := List.nodup_cons.mp (List.nodup_cons.mp hnodup₂).2
          rcases List.mem_cons.mp hx with rfl | hx
          · exact hdisj x List.mem_cons_self y (by simp)
          · exact fun heq => hy.1 (heq ▸ hx)
        rw [hprev, List.headD_cons, Function.update_of_ne hne]

end Ring
