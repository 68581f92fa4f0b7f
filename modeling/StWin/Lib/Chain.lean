import Mathlib.Data.List.Nodup
import Mathlib.Logic.Function.Basic

/-!
# Hash chains with back pointers

The buckets of a hash table are singly linked lists. Beside the link to the next one, each node has a
pointer to the link that points to it, which is the head of its bucket or the link of the node before
it. So a node is taken off its chain without a walk.

`Rep` says which nodes are chained in which bucket, in order. Of a table it describes, pushing a node
onto a bucket and unlinking a node give tables that it describes again.
-/

namespace Chain

/-- A link: the head of a bucket, or the link of a node. -/
inductive Link (B E : Type*) where
  | head (b : B)
  | next (e : E)
  deriving DecidableEq

/-- The heads of the buckets, and of each node the link and the pointer back. -/
structure Table (B E : Type*) where
  head : B → Option E
  next : E → Option E
  pthis : E → Option (Link B E)

variable {B E : Type*}

/-- What a link points to. -/
def Table.get (m : Table B E) : Link B E → Option E
  | .head b => m.head b
  | .next e => m.next e

/-- The nodes of a list are chained at a link, and point back. -/
def Linked (m : Table B E) : Link B E → List E → Prop
  | l, [] => m.get l = none
  | l, e :: es => m.get l = some e ∧ m.pthis e = some l ∧ Linked m (.next e) es

/-- The nodes of the buckets. -/
structure Rep (m : Table B E) (buckets : B → List E) : Prop where
  linked : ∀ b, Linked m (.head b) (buckets b)
  nodup : ∀ b, (buckets b).Nodup
  disjoint : ∀ {b b' e}, e ∈ buckets b → e ∈ buckets b' → b = b'

/-! ## Chains -/

/-- The link that leads into a chain holds its first element. -/
theorem Linked.get_eq {m : Table B E} {l : Link B E} {es : List E} (h : Linked m l es) :
    m.get l = es.head? := by
  cases es with
  | nil => exact h
  | cons e es => exact h.1

/-- A chain depends on its links and on the pointers of its nodes only. -/
theorem Linked.congr {m m' : Table B E} {l : Link B E} {es : List E} (h : Linked m l es)
    (hget : m'.get l = m.get l) (hnext : ∀ e ∈ es, m'.next e = m.next e)
    (hpthis : ∀ e ∈ es, m'.pthis e = m.pthis e) : Linked m' l es := by
  induction es generalizing l with
  | nil => exact hget.trans h
  | cons e es ih =>
    refine ⟨hget.trans h.1, (hpthis e (by simp)).trans h.2.1, ih h.2.2 (hnext e (by simp)) ?_ ?_⟩
    · exact fun x hx => hnext x (List.mem_cons_of_mem e hx)
    · exact fun x hx => hpthis x (List.mem_cons_of_mem e hx)

/-- The link after the nodes of a list that are chained at a link. -/
def lastLink : Link B E → List E → Link B E
  | l, [] => l
  | _, e :: es => lastLink (.next e) es

/-- The last link is the one that leads in, or the `next` of an element. -/
theorem lastLink_eq (l : Link B E) (es : List E) :
    lastLink l es = l ∨ ∃ x ∈ es, lastLink l es = .next x := by
  induction es generalizing l with
  | nil => exact Or.inl rfl
  | cons e es ih =>
    rcases ih (.next e) with h | ⟨x, hx, h⟩
    · exact Or.inr ⟨e, List.mem_cons_self, h⟩
    · exact Or.inr ⟨x, List.mem_cons_of_mem e hx, h⟩

/-- The `pthis` of an element is the link that holds it. -/
theorem Linked.pthis_eq {m : Table B E} {l : Link B E} {xs ys : List E} {e : E}
    (h : Linked m l (xs ++ e :: ys)) : m.pthis e = some (lastLink l xs) := by
  induction xs generalizing l with
  | nil => exact h.2.1
  | cons x xs ih => exact ih h.2.2

/-- The `next` of an element holds the one after it. -/
theorem Linked.next_eq {m : Table B E} {l : Link B E} {xs ys : List E} {e : E}
    (h : Linked m l (xs ++ e :: ys)) : m.next e = ys.head? := by
  induction xs generalizing l with
  | nil => exact h.2.2.get_eq
  | cons x xs ih => exact ih h.2.2

/-- An element of a chain has a `pthis`. -/
theorem Linked.pthis_ne_none {m : Table B E} {l : Link B E} {es : List E} {e : E}
    (h : Linked m l es) (he : e ∈ es) : m.pthis e ≠ none := by
  obtain ⟨xs, ys, rfl⟩ := List.append_of_mem he
  rw [h.pthis_eq]
  simp

variable [DecidableEq E]

/-- Assign the pointer back of a node. -/
def Table.setPthis (m : Table B E) (e : E) (l : Option (Link B E)) : Table B E :=
  { m with pthis := Function.update m.pthis e l }

/-- A node that is not chained gets another pointer. -/
theorem Rep.setPthis {m : Table B E} {buckets : B → List E} (h : Rep m buckets) {e : E}
    (he : ∀ b, e ∉ buckets b) (l : Option (Link B E)) : Rep (m.setPthis e l) buckets := by
  refine ⟨fun b => (h.linked b).congr rfl (fun _ _ => rfl) fun x hx => ?_, h.nodup, h.disjoint⟩
  have hne : x ≠ e := fun heq => he b (heq ▸ hx)
  exact Function.update_of_ne hne _ _

variable [DecidableEq B]

/-- Assign a link. -/
def Table.set (m : Table B E) : Link B E → Option E → Table B E
  | .head b, v => { m with head := Function.update m.head b v }
  | .next e, v => { m with next := Function.update m.next e v }

/-! ## Unlinking -/

/-- The link that points to `e` is turned to the node after it, which is told so. -/
def Table.unlink (m : Table B E) (e : E) : Table B E :=
  match m.pthis e with
  | none => m
  | some l =>
    let m := m.set l (m.next e)
    match m.next e with
    | some n => m.setPthis n (m.pthis e)
    | none => m

/-- The links after the removal of an element: the one that held it holds its successor. -/
theorem unlink_get {m : Table B E} {e : E} {k : Link B E} (hk : m.pthis e = some k)
    (j : Link B E) : (m.unlink e).get j = if j = k then m.next e else m.get j := by
  -- The pointer back is in another field.
  have hget : (m.unlink e).get j = (m.set k (m.next e)).get j := by
    simp only [Table.unlink, hk]
    cases (m.set k (m.next e)).next e with
    | none => rfl
    | some n => cases j <;> rfl
  rw [hget]
  cases k with
  | head b =>
    cases j with
    | head b' => simp [Table.set, Table.get, Function.update_apply]
    | next x => simp [Table.set, Table.get]
  | next x =>
    cases j with
    | head b' => simp [Table.set, Table.get]
    | next x' => simp [Table.set, Table.get, Function.update_apply]

/-- The back links after the removal of an element: its successor has its back link. -/
theorem unlink_pthis {m : Table B E} {e : E} {k : Link B E} (hk : m.pthis e = some k) (x : E) :
    (m.unlink e).pthis x = if m.next e = some x then some k else m.pthis x := by
  have hpthis : (m.set k (m.next e)).pthis = m.pthis := by cases k <;> rfl
  -- If the link is that of `e` itself, its value is the one it had.
  have hnext : (m.set k (m.next e)).next e = m.next e := by
    cases k with
    | head b => rfl
    | next y =>
      by_cases hy : e = y
      · rw [hy]
        exact Function.update_self y _ _
      · exact Function.update_of_ne hy _ _
  simp only [Table.unlink, hk, hnext]
  cases hn : m.next e with
  | none =>
    rw [hn] at hpthis
    simp [hpthis]
  | some n =>
    rw [hn] at hpthis
    simp only [Table.setPthis, hpthis, hk, Function.update_apply, Option.some_inj, eq_comm]

/-- The chain after the removal of an element. The induction is on the elements before it. -/
theorem unlink_linked {m : Table B E} {l : Link B E} {xs ys : List E} {e : E}
    (h : Linked m l (xs ++ e :: ys)) (hnodup : (xs ++ e :: ys).Nodup)
    (hl : ∀ x, l = .next x → x ∉ xs ++ e :: ys) : Linked (m.unlink e) l (xs ++ ys) := by
  have hk := h.pthis_eq
  have hnext := h.next_eq
  -- Where the changed pointer is, if there is one.
  have hhead : ∀ {x}, m.next e = some x → x ∈ ys := by
    intro x hx
    rw [hnext] at hx
    exact List.mem_of_mem_head? hx
  induction xs generalizing l with
  | nil =>
    have hget : (m.unlink e).get l = ys.head? := by
      exact (unlink_get hk l).trans ((if_pos rfl).trans hnext)
    have hnl : ∀ x ∈ ys, (m.unlink e).next x = m.next x := by
      intro x hx
      have hne : Link.next x ≠ lastLink l [] :=
        fun heq => hl x heq.symm (List.mem_cons_of_mem e hx)
      exact (unlink_get hk (.next x)).trans (if_neg hne)
    cases ys with
    | nil => exact hget
    | cons n ys =>
      refine ⟨hget, ?_, h.2.2.2.2.congr (hnl n List.mem_cons_self) ?_ ?_⟩
      · exact (unlink_pthis hk n).trans (if_pos hnext)
      · exact fun x hx => hnl x (List.mem_cons_of_mem n hx)
      · intro x hx
        have hne : m.next e ≠ some x := by
          rw [hnext]
          rintro ⟨⟩
          exact (List.nodup_cons.mp (List.nodup_cons.mp hnodup).2).1 hx
        rw [unlink_pthis hk, if_neg hne]
  | cons y xs ih =>
    have hnodup' := List.nodup_cons.mp hnodup
    have hne : l ≠ lastLink l (y :: xs) := by
      intro heq
      rcases lastLink_eq (.next y) xs with h' | ⟨x, hx, h'⟩
      · exact hl y (heq.trans h') List.mem_cons_self
      · exact hl x (heq.trans h') (List.mem_cons_of_mem y (List.mem_append_left _ hx))
    have hney : m.next e ≠ some y := by
      intro heq
      exact hnodup'.1 (List.mem_append_right _ (List.mem_cons_of_mem e (hhead heq)))
    refine ⟨?_, ?_, ih h.2.2 hnodup'.2 ?_ hk⟩
    · rw [unlink_get hk, if_neg hne]
      exact h.1
    · rw [unlink_pthis hk, if_neg hney]
      exact h.2.1
    · rintro x ⟨⟩
      exact hnodup'.1

/-- The removal of an element takes it out of its bucket and leaves the other buckets as they are. -/
theorem unlink_rep {m : Table B E} {buckets : B → List E} (h : Rep m buckets) {b : B} {e : E}
    {xs ys : List E} (hb : buckets b = xs ++ e :: ys) :
    Rep (m.unlink e) (Function.update buckets b (xs ++ ys)) := by
  have hlinked := h.linked b
  have hnodup := h.nodup b
  rw [hb] at hlinked hnodup
  have hk := hlinked.pthis_eq
  have hsub : ∀ {b' x}, x ∈ Function.update buckets b (xs ++ ys) b' → x ∈ buckets b' := by
    intro b' x hx
    by_cases hb' : b' = b
    · subst hb'
      rw [Function.update_self] at hx
      rw [hb]
      rcases List.mem_append.mp hx with hx | hx
      · exact List.mem_append_left _ hx
      · exact List.mem_append_right _ (List.mem_cons_of_mem e hx)
    · rwa [Function.update_of_ne hb'] at hx
  refine ⟨fun b' => ?_, fun b' => ?_, fun hx hx' => h.disjoint (hsub hx) (hsub hx')⟩
  · by_cases hb' : b' = b
    · subst hb'
      rw [Function.update_self]
      exact unlink_linked hlinked hnodup (fun x hx => by cases hx)
    · rw [Function.update_of_ne hb']
      -- The nodes of another bucket are not touched.
      have hout : ∀ x ∈ buckets b', x ∉ buckets b := fun x hx hx' => hb' (h.disjoint hx hx')
      refine (h.linked b').congr ?_ ?_ ?_
      · have hne : Link.head b' ≠ lastLink (.head b) xs := by
          rcases lastLink_eq (.head b : Link B E) xs with h' | ⟨x, -, h'⟩
          · rw [h']
            exact fun heq => hb' (Link.head.inj heq)
          · rw [h']
            exact fun heq => (by cases heq)
        rw [unlink_get hk, if_neg hne]
      · intro x hx
        have hne : Link.next x ≠ lastLink (.head b) xs := by
          rcases lastLink_eq (.head b : Link B E) xs with h' | ⟨y, hy, h'⟩
          · rw [h']
            exact fun heq => (by cases heq)
          · rw [h']
            rintro ⟨⟩
            exact hout x hx (hb ▸ List.mem_append_left _ hy)
        exact (unlink_get hk (.next x)).trans (if_neg hne)
      · intro x hx
        have hne : m.next e ≠ some x := by
          rw [hlinked.next_eq]
          intro heq
          exact hout x hx (hb ▸ List.mem_append_right _
            (List.mem_cons_of_mem e (List.mem_of_mem_head? heq)))
        rw [unlink_pthis hk, if_neg hne]
  · by_cases hb' : b' = b
    · subst hb'
      rw [Function.update_self]
      exact hnodup.sublist ((List.sublist_cons_self e ys).append_left xs)
    · rw [Function.update_of_ne hb']
      exact h.nodup b'

/-! ## Pushing -/

/-- `e` becomes the first node of the bucket `b`. -/
def Table.push (m : Table B E) (b : B) (e : E) : Table B E :=
  let m := { m with next := Function.update m.next e (m.head b) }
  let m := { m with head := Function.update m.head b (some e) }
  let m := m.setPthis e (some (.head b))
  match m.next e with
  | some n => m.setPthis n (some (.next e))
  | none => m

/-- The links after an insertion at the head of a bucket. -/
theorem push_get (m : Table B E) (b : B) (e : E) (j : Link B E) :
    (m.push b e).get j =
      if j = .head b then some e else if j = .next e then m.head b else m.get j := by
  have hget : (m.push b e).get j = Table.get { m with
      next := Function.update m.next e (m.head b)
      head := Function.update m.head b (some e) } j := by
    simp only [Table.push, Table.setPthis]
    split
    · cases j <;> rfl
    · cases j <;> rfl
  rw [hget]
  cases j with
  | head b' => simp [Table.get, Function.update_apply]
  | next x => simp [Table.get, Function.update_apply]

/-- The back links after an insertion at the head of a bucket. -/
theorem push_pthis (m : Table B E) (b : B) (e x : E) :
    (m.push b e).pthis x = if m.head b = some x then some (.next e)
      else if x = e then some (.head b) else m.pthis x := by
  simp only [Table.push, Table.setPthis, Function.update_self]
  cases hn : m.head b with
  | none => simp [Function.update_apply]
  | some n => simp [Function.update_apply, eq_comm]

/-- An insertion at the head of a bucket leaves the other buckets as they are. -/
theorem push_rep {m : Table B E} {buckets : B → List E} (h : Rep m buckets) (b : B) {e : E}
    (he : ∀ b', e ∉ buckets b') :
    Rep (m.push b e) (Function.update buckets b (e :: buckets b)) := by
  have hhead : m.head b = (buckets b).head? := (h.linked b).get_eq
  have hnext : ∀ {x b'}, x ∈ buckets b' → (m.push b e).next x = m.next x := by
    intro x b' hx
    have hne : x ≠ e := fun heq => he b' (heq ▸ hx)
    rw [← Table.get, push_get, if_neg (by simp), if_neg (by simpa using hne)]
    rfl
  have hpthis : ∀ {x}, x ≠ e → m.head b ≠ some x → (m.push b e).pthis x = m.pthis x := by
    intro x hne hx
    rw [push_pthis, if_neg hx, if_neg hne]
  have hget : (m.push b e).get (.next e) = (buckets b).head? := by
    rw [push_get, if_neg (by simp), if_pos rfl, hhead]
  refine ⟨fun b' => ?_, fun b' => ?_, fun {b₁ b₂ x} hx hx' => ?_⟩
  · by_cases hb' : b' = b
    · subst hb'
      rw [Function.update_self]
      have hne : m.head b' ≠ some e := by
        rw [hhead]
        exact fun heq => he b' (List.mem_of_mem_head? heq)
      refine ⟨?_, ?_, ?_⟩
      · rw [push_get, if_pos rfl]
      · rw [push_pthis, if_neg hne, if_pos rfl]
      -- The node that was the first one points to the link of `e`.
      · have hlinked := h.linked b'
        have hnodup := h.nodup b'
        cases hbs : buckets b' with
        | nil =>
          rw [hbs] at hget
          exact hget
        | cons n ns =>
          rw [hbs] at hget hlinked hnodup hhead
          have hmem : ∀ x ∈ n :: ns, x ∈ buckets b' := fun x hx => hbs ▸ hx
          refine ⟨hget, ?_, hlinked.2.2.congr (hnext (hmem n List.mem_cons_self)) ?_ ?_⟩
          · exact (push_pthis m b' e n).trans (if_pos hhead)
          · exact fun x hx => hnext (hmem x (List.mem_cons_of_mem n hx))
          · intro x hx
            refine hpthis (fun heq => he b' (heq ▸ hmem x (List.mem_cons_of_mem n hx))) ?_
            rw [hhead]
            rintro ⟨⟩
            exact (List.nodup_cons.mp hnodup).1 hx
    · rw [Function.update_of_ne hb']
      refine (h.linked b').congr ?_ (fun x hx => hnext hx) (fun x hx => hpthis ?_ ?_)
      · rw [push_get, if_neg (by simpa using hb'), if_neg (by simp)]
      · exact fun heq => he b' (heq ▸ hx)
      · rw [hhead]
        exact fun heq => hb' (h.disjoint hx (List.mem_of_mem_head? heq))
  · by_cases hb' : b' = b
    · subst hb'
      rw [Function.update_self]
      exact List.nodup_cons.mpr ⟨he b', h.nodup b'⟩
    · rw [Function.update_of_ne hb']
      exact h.nodup b'
  · by_cases h₁ : b₁ = b
    · by_cases h₂ : b₂ = b
      · rw [h₁, h₂]
      · subst h₁
        rw [Function.update_self] at hx
        rw [Function.update_of_ne h₂] at hx'
        rcases List.mem_cons.mp hx with rfl | hx
        · exact absurd hx' (he b₂)
        · exact h.disjoint hx hx'
    · rw [Function.update_of_ne h₁] at hx
      by_cases h₂ : b₂ = b
      · subst h₂
        rw [Function.update_self] at hx'
        rcases List.mem_cons.mp hx' with rfl | hx'
        · exact absurd hx (he b₁)
        · exact h.disjoint hx hx'
      · rw [Function.update_of_ne h₂] at hx'
        exact h.disjoint hx hx'

end Chain
