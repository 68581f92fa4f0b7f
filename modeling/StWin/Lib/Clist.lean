import StWin.Lib.Ring
import StWin.Lib.Runs
import Mathlib.Data.List.Nodup

/-!
# Queues as circular lists with null links

A program that keeps elements on queues through links in the elements themselves does two kinds of
accesses: it edits links, by macros that look whether a neighbour's link is null, and it reads the
link from one node to the next. `Links.exec` is an access at this level. For the abstract level,
`Lists` has a list for each head that exists, and, for an element that was taken off its list, the
link that it still has: a loop over a list that takes off the element that it is at goes on from
there. `Lists.apply` is an access at that level, and `Lists.Valid` says when it makes sense: an
element that is linked is on no list, one that is removed is on the list it is removed from, and a
link that is read leads where the list says.

`run_exec` is the refinement: accesses that are valid on the lists can be carried out on links that
represent them, no null link is found, and the links represent the new lists. A head that is released has
null links from then on, so an access to it is stuck. `run_queued` is a law of the lists alone, for a list
that is a queue: what was taken off it, followed by what it has, is what it had, followed by what was
appended.
-/

namespace Clist

/-! ## Links that may be null -/

/-- The links of all nodes. -/
structure Links (N : Type*) where
  next : N → Option N
  prev : N → Option N

section links

variable {N : Type*}

/-- The same links, of which a null one leads to the node itself. -/
def Links.total (m : Links N) : Ring.Links N where
  next x := (m.next x).getD x
  prev x := (m.prev x).getD x

/-- The ring through the head `l` has the nodes `xs`, and none of their links is null. -/
structure IsRing (m : Links N) (l : N) (xs : List N) : Prop where
  ring : Ring.IsRing m.total l xs
  next : ∀ x ∈ l :: xs, m.next x ≠ none
  prev : ∀ x ∈ l :: xs, m.prev x ≠ none

/-- A link that is not null. -/
theorem eq_some_getD {x : N} {o : Option N} (h : o ≠ none) : o = some (o.getD x) := by
  cases o with
  | none => exact absurd rfl h
  | some y => rfl

namespace IsRing

variable {m : Links N} {l e : N} {xs ys : List N}

/-- The link of the head. -/
theorem first (h : IsRing m l xs) : m.next l = some (xs.headD l) := by
  rw [eq_some_getD (x := l) (h.next l List.mem_cons_self)]
  exact congrArg some h.ring.2.next_first

/-- The link of the head to the end. -/
theorem last (h : IsRing m l xs) : m.prev l = some (xs.getLastD l) := by
  rw [eq_some_getD (x := l) (h.prev l List.mem_cons_self)]
  exact congrArg some h.ring.2.prev_last

/-- The link of a node. -/
theorem succ (h : IsRing m l (xs ++ e :: ys)) : m.next e = some (ys.headD l) := by
  rw [eq_some_getD (x := e) (h.next e (by simp))]
  exact congrArg some (Ring.seg_append.mp h.ring.2).2.next_first

/-- The link from a node back to the one before it. -/
theorem pred (h : IsRing m l (xs ++ e :: ys)) : m.prev e = some (xs.getLastD l) := by
  rw [eq_some_getD (x := e) (h.prev e (by simp))]
  exact congrArg some (Ring.seg_append.mp h.ring.2).1.prev_last

/-- A ring depends on the links of its nodes only. -/
theorem congr {m' : Links N} (h : IsRing m l xs) (hnext : ∀ x ∈ l :: xs, m'.next x = m.next x)
    (hprev : ∀ x ∈ l :: xs, m'.prev x = m.prev x) : IsRing m' l xs := by
  refine ⟨⟨h.ring.1, h.ring.2.congr ?_ ?_⟩, ?_, ?_⟩
  · intro x hx
    exact congrArg (Option.getD · x) (hnext x hx)
  · intro x hx
    exact congrArg (Option.getD · x) (hprev x hx)
  · intro x hx
    rw [hnext x hx]
    exact h.next x hx
  · intro x hx
    rw [hprev x hx]
    exact h.prev x hx

/-- Any node of a ring may be taken as its head. -/
theorem rotate (h : IsRing m l (xs ++ e :: ys)) : IsRing m e (ys ++ l :: xs) := by
  have hmem : ∀ x, x ∈ e :: (ys ++ l :: xs) → x ∈ l :: (xs ++ e :: ys) := by
    intro x hx
    simp only [List.mem_cons, List.mem_append] at hx ⊢
    tauto
  exact ⟨Ring.IsRing.rotate h.ring, fun x hx => h.next x (hmem x hx), fun x hx => h.prev x (hmem x hx)⟩

end IsRing

variable [DecidableEq N]

/-- Store a link, seen through `total`. -/
theorem update_getD (f : N → Option N) (a b : N) :
    (fun x => (Function.update f a (some b) x).getD x) =
      Function.update (fun x => (f x).getD x) a b := by
  funext x
  by_cases hx : x = a
  · subst hx
    rw [Function.update_self, Function.update_self]
    rfl
  · rw [Function.update_of_ne hx, Function.update_of_ne hx]

/-- Links that are not null stay so if one is set to a node. -/
theorem update_some_ne {f : N → Option N} {a b x : N} (h : x ≠ a → f x ≠ none) :
    Function.update f a (some b) x ≠ none := by
  by_cases hx : x = a
  · rw [hx, Function.update_self]
    exact Option.some_ne_none b
  · rw [Function.update_of_ne hx]
    exact h hx

/-- The ring of a list that has only its head. -/
def Links.init (m : Links N) (l : N) : Links N :=
  ⟨Function.update m.next l (some l), Function.update m.prev l (some l)⟩

/-- Both links are set to null. -/
def Links.clear (m : Links N) (e : N) : Links N :=
  ⟨Function.update m.next e none, Function.update m.prev e none⟩

/-- Insert `e` before `l`. -/
def Links.insertBefore (m : Links N) (e l : N) : Links N :=
  let m := { m with next := Function.update m.next e (some l) }
  let m := { m with prev := Function.update m.prev e (m.prev l) }
  let m :=
    match m.prev l with
    | some p => { m with next := Function.update m.next p (some e) }
    | none => m
  { m with prev := Function.update m.prev l (some e) }

/-- Remove `e` from its list. -/
def Links.removeLink (m : Links N) (e : N) : Links N :=
  let m :=
    match m.prev e with
    | some p => { m with next := Function.update m.next p (m.next e) }
    | none => m
  match m.next e with
  | some n => { m with prev := Function.update m.prev n (m.prev e) }
  | none => m

/-- A list that has only its head is a ring. -/
theorem init_isRing (m : Links N) (l : N) : IsRing (m.init l) l [] := by
  refine ⟨?_, ?_, ?_⟩
  · have htotal : (m.init l).total = Ring.init m.total l := by
      unfold Links.total Links.init Ring.init
      dsimp only
      rw [update_getD, update_getD]
    rw [htotal]
    exact Ring.init_isRing m.total l
  · intro x hx
    rw [List.mem_singleton.mp hx]
    simp [Links.init]
  · intro x hx
    rw [List.mem_singleton.mp hx]
    simp [Links.init]

/-- The insertion, when the node `l` is linked. -/
theorem insertBefore_eq {m : Links N} {e l p : N} (hp : m.prev l = some p) (hel : e ≠ l) :
    m.insertBefore e l =
      ⟨Function.update (Function.update m.next e (some l)) p (some e),
        Function.update (Function.update m.prev e (some p)) l (some e)⟩ := by
  unfold Links.insertBefore
  simp only [Function.update_of_ne hel.symm, hp]

/-- The removal, when `e` is linked. -/
theorem removeLink_eq {m : Links N} {e p n : N} (hp : m.prev e = some p) (hn : m.next e = some n) :
    m.removeLink e =
      ⟨Function.update m.next p (some n), Function.update m.prev n (some p)⟩ := by
  have hnext : Function.update m.next p (some n) e = some n := by
    by_cases hep : e = p
    · rw [hep, Function.update_self]
    · rw [Function.update_of_ne hep, hn]
  unfold Links.removeLink
  simp only [hp, hn, hnext]

/-- Insert at the end of a list. -/
theorem insertBefore_isRing {m : Links N} {e l : N} {xs : List N} (h : IsRing m l xs)
    (he : e ∉ l :: xs) : IsRing (m.insertBefore e l) l (xs ++ [e]) := by
  have hel : e ≠ l := fun heq => he (heq ▸ List.mem_cons_self)
  have heq := insertBefore_eq h.last hel
  have htotal : (m.insertBefore e l).total = Ring.insertBefore m.total e l := by
    have hlast : (m.prev l).getD l = xs.getLastD l := by rw [h.last]; rfl
    rw [heq]
    unfold Links.total Ring.insertBefore
    simp only [update_getD, Function.update_of_ne hel.symm, hlast]
  have hold : ∀ x ∈ l :: (xs ++ [e]), x ≠ e → x ∈ l :: xs := by
    intro x hx hxe
    rw [← List.cons_append] at hx
    exact (List.mem_append.mp hx).resolve_right fun h => hxe (List.mem_singleton.mp h)
  refine ⟨?_, fun x hx => ?_, fun x hx => ?_⟩
  · rw [htotal]
    exact Ring.insertBefore_isRing h.ring he
  · rw [heq]
    exact update_some_ne fun _ => update_some_ne fun hxe => h.next x (hold x hx hxe)
  · rw [heq]
    exact update_some_ne fun _ => update_some_ne fun hxe => h.prev x (hold x hx hxe)

/-- Insert before a node of a list. -/
theorem insertBefore_isRing_mem {m : Links N} {e l y : N} {xs ys : List N}
    (h : IsRing m l (xs ++ y :: ys)) (he : e ∉ l :: (xs ++ y :: ys)) :
    IsRing (m.insertBefore e y) l (xs ++ e :: y :: ys) := by
  -- With `y` as the head, `e` is inserted at the end.
  have hrot := insertBefore_isRing h.rotate (e := e) (by
    simp only [List.mem_cons, List.mem_append] at he ⊢
    tauto)
  have hassoc : ys ++ l :: xs ++ [e] = ys ++ l :: (xs ++ [e]) := by simp
  have hback : xs ++ [e] ++ y :: ys = xs ++ e :: y :: ys := by simp
  rw [hassoc] at hrot
  rw [← hback]
  exact hrot.rotate

/-- A node is removed from a ring. -/
theorem removeLink_isRing {m : Links N} {e l : N} {xs ys : List N}
    (h : IsRing m l (xs ++ e :: ys)) : IsRing (m.removeLink e) l (xs ++ ys) := by
  have heq := removeLink_eq h.pred h.succ
  have htotal : (m.removeLink e).total = Ring.removeLink m.total e := by
    have hpred : (m.prev e).getD e = xs.getLastD l := by rw [h.pred]; rfl
    have hsucc : (m.next e).getD e = ys.headD l := by rw [h.succ]; rfl
    have hnext : Function.update (fun x => (m.next x).getD x) (xs.getLastD l) (ys.headD l) e =
        ys.headD l := by
      by_cases hep : e = xs.getLastD l
      · rw [← hep, Function.update_self]
      · rw [Function.update_of_ne hep]
        exact hsucc
    rw [heq]
    unfold Links.total Ring.removeLink
    simp only [update_getD, hpred, hsucc, hnext]
  have hold : ∀ x ∈ l :: (xs ++ ys), x ∈ l :: (xs ++ e :: ys) := by
    intro x hx
    simp only [List.mem_cons, List.mem_append] at hx ⊢
    tauto
  refine ⟨?_, fun x hx => ?_, fun x hx => ?_⟩
  · rw [htotal]
    exact Ring.removeLink_isRing h.ring
  · rw [heq]
    exact update_some_ne fun _ => h.next x (hold x hx)
  · rw [heq]
    exact update_some_ne fun _ => h.prev x (hold x hx)

/-- The removal leaves the removed node its own links. -/
theorem IsRing.next_removeLink {m : Links N} {e l : N} {xs ys : List N}
    (h : IsRing m l (xs ++ e :: ys)) : (m.removeLink e).next e = some (ys.headD l) := by
  have hne : e ≠ xs.getLastD l := by
    have hnodup := h.ring.1
    rw [← List.cons_append] at hnodup
    exact ((List.nodup_append.mp hnodup).2.2 _ (Ring.getLastD_mem xs l) e List.mem_cons_self).symm
  rw [removeLink_eq h.pred h.succ]
  dsimp only
  rw [Function.update_of_ne hne]
  exact h.succ

end links

/-! ## Accesses -/

/-- An access. The heads `H` and the elements `E` are the nodes. -/
inductive Acc (H E : Type*) where
  /-- Read the link of the head `h`, which leads to `n`. -/
  | first (h : H) (n : H ⊕ E)
  /-- Read the link of `e`, which is on the list `h` or was taken off it. -/
  | succ (h : H) (e : E) (n : H ⊕ E)
  /-- Read the link of the head `h` to its last node. -/
  | last (h : H) (n : H ⊕ E)
  /-- Insert `e` before the head `h`. -/
  | append (e : E) (h : H)
  /-- Insert `e` before `x`, which is on the list `h`. -/
  | before (e : E) (h : H) (x : E)
  /-- Remove `e`, which is on the list `h`. -/
  | remove (h : H) (e : E)
  /-- Set the links of `e` to null. -/
  | clear (e : E)
  /-- Make the head `h` an empty list. -/
  | init (h : H)
  /-- Release the memory of the head `h`. -/
  | free (h : H)
  deriving DecidableEq, Repr

variable {H E : Type*}

/-- The head of the list that is accessed. -/
@[simp]
def Acc.head : Acc H E → Option H
  | .first h _ => some h
  | .succ h _ _ => some h
  | .last h _ => some h
  | .append _ h => some h
  | .before _ h _ => some h
  | .remove h _ => some h
  | .clear _ => none
  | .init h => some h
  | .free h => some h

section exec

variable [DecidableEq H] [DecidableEq E]

/-- An access to the links. It is stuck if it reads another link than that of the access, or if a macro
finds a null link. -/
def Links.exec (m : Links (H ⊕ E)) : Acc H E → Option (Links (H ⊕ E))
  | .first h n => if m.next (.inl h) = some n then some m else none
  | .succ _ e n => if m.next (.inr e) = some n then some m else none
  | .last h n => if m.prev (.inl h) = some n then some m else none
  | .append e h => (m.prev (.inl h)).map fun _ => m.insertBefore (.inr e) (.inl h)
  | .before e _ x => (m.prev (.inr x)).map fun _ => m.insertBefore (.inr e) (.inr x)
  | .remove _ e =>
    if (m.prev (.inr e)).isSome ∧ (m.next (.inr e)).isSome then some (m.removeLink (.inr e)) else none
  | .clear e => some (m.clear (.inr e))
  | .init h => some (m.init (.inl h))
  | .free h => some (m.clear (.inl h))

end exec

/-! ## Lists -/

/-- The first node of a list: its first element, or the head again. -/
def node (h : H) : List E → H ⊕ E
  | [] => .inl h
  | x :: _ => .inr x

/-- The last node of a list. -/
def lastNode (h : H) (xs : List E) : H ⊕ E := (xs.getLast?).elim (.inl h) .inr

/-- The lists of the heads that exist, and the links of elements that were taken off. -/
structure Lists (H E : Type*) where
  q : H → Option (List E)
  left : E → Option (H ⊕ E)

namespace Lists

/-- `e` is on no list. -/
def Off (ls : Lists H E) (e : E) : Prop := ∀ h xs, ls.q h = some xs → e ∉ xs

variable [DecidableEq H] [DecidableEq E]

/-- The node after `e`. -/
def after (h : H) (e : E) : List E → H ⊕ E
  | [] => .inl h
  | x :: xs => if x = e then node h xs else after h e xs

/-- Insert `e` before `x`. -/
def splice (e x : E) : List E → List E
  | [] => []
  | y :: ys => if y = x then e :: y :: ys else y :: splice e x ys

/-- An access to the lists. -/
def apply (ls : Lists H E) : Acc H E → Lists H E
  | .first _ _ => ls
  | .succ _ _ _ => ls
  | .last _ _ => ls
  | .append e h =>
    ⟨Function.update ls.q h ((ls.q h).map (· ++ [e])), Function.update ls.left e none⟩
  | .before e h x =>
    ⟨Function.update ls.q h ((ls.q h).map (splice e x)), Function.update ls.left e none⟩
  | .remove h e =>
    ⟨Function.update ls.q h ((ls.q h).map (·.erase e)),
      Function.update ls.left e ((ls.q h).map (after h e))⟩
  | .clear e => { ls with left := Function.update ls.left e none }
  | .init h => { ls with q := Function.update ls.q h (some []) }
  | .free h => { ls with q := Function.update ls.q h none }

/-- The access makes sense. -/
def Valid (ls : Lists H E) : Acc H E → Prop
  | .first h n => ∃ xs, ls.q h = some xs ∧ n = node h xs
  | .succ h e n => (∃ xs, ls.q h = some xs ∧ e ∈ xs ∧ n = after h e xs) ∨ ls.left e = some n
  | .last h n => ∃ xs, ls.q h = some xs ∧ n = lastNode h xs
  | .append e h => (∃ xs, ls.q h = some xs) ∧ ls.Off e
  | .before e h x => (∃ xs, ls.q h = some xs ∧ x ∈ xs) ∧ ls.Off e
  | .remove h e => ∃ xs, ls.q h = some xs ∧ e ∈ xs
  | .clear e => ls.Off e
  | .init h => ls.q h = none
  | .free h => ls.q h = some []

/-- A step of the lists. -/
def step (ls : Lists H E) (a : Acc H E) : Option (Lists H E) := some (ls.apply a)

end Lists

/-! ## The refinement -/

/-- The links represent the lists. -/
structure Rep (m : Links (H ⊕ E)) (ls : Lists H E) : Prop where
  ring : ∀ h xs, ls.q h = some xs → IsRing m (.inl h) (xs.map .inr)
  disjoint : ∀ h h' xs xs' e, ls.q h = some xs → ls.q h' = some xs' → e ∈ xs → e ∈ xs' → h = h'
  left : ∀ e n, ls.left e = some n → m.next (.inr e) = some n ∧ ls.Off e

/-- The first node of a list, as a node of the ring. -/
theorem headD_map (h : H) (xs : List E) : (xs.map Sum.inr).headD (.inl h) = node h xs := by
  cases xs <;> rfl

/-- The last node of a list, as a node of the ring. -/
theorem getLastD_map (h : H) (xs : List E) : (xs.map Sum.inr).getLastD (.inl h) = lastNode h xs := by
  unfold lastNode
  rw [List.getLastD_eq_getLast?, List.getLast?_map]
  cases xs.getLast? <;> rfl

section splits

variable [DecidableEq E]

/-- The node after an element. -/
theorem after_append {h : H} {e : E} {xs ys : List E} (he : e ∉ xs) :
    Lists.after h e (xs ++ e :: ys) = node h ys := by
  induction xs with
  | nil => rw [List.nil_append, Lists.after, if_pos rfl]
  | cons x xs ih =>
    rw [List.mem_cons, not_or] at he
    rw [List.cons_append, Lists.after, if_neg (Ne.symm he.1), ih he.2]

/-- An element is inserted before another one. -/
theorem splice_append {e x : E} {xs ys : List E} (hx : x ∉ xs) :
    Lists.splice e x (xs ++ x :: ys) = xs ++ e :: x :: ys := by
  induction xs with
  | nil => rw [List.nil_append, Lists.splice, if_pos rfl, List.nil_append]
  | cons y xs ih =>
    rw [List.mem_cons, not_or] at hx
    rw [List.cons_append, Lists.splice, if_neg (Ne.symm hx.1), ih hx.2, List.cons_append]

/-- The link of an element of a list. -/
theorem Rep.succ {m : Links (H ⊕ E)} {ls : Lists H E} (hrep : Rep m ls) {h : H} {e : E} {xs : List E} (hq : ls.q h = some xs)
    (he : e ∈ xs) : m.next (.inr e) = some (Lists.after h e xs) := by
  obtain ⟨ys, zs, rfl, hnot⟩ := List.eq_append_cons_of_mem he
  have hring := hrep.ring h _ hq
  rw [List.map_append, List.map_cons] at hring
  rw [hring.succ, headD_map, after_append hnot]

end splits

section refinement

variable [DecidableEq H] [DecidableEq E] {m m' : Links (H ⊕ E)} {ls : Lists H E}

/-- The rule for an edit of one list: only links of its nodes and of the element `e` change. -/
theorem Rep.edit (hrep : Rep m ls) {h : H} {e : E} {xs xs' : List E} {left : E → Option (H ⊕ E)}
    (hq : ls.q h = some xs) (hring : IsRing m' (.inl h) (xs'.map .inr))
    (hsub : ∀ x ∈ xs', x ∈ xs ∨ x = e) (hoff : ∀ h' ys, h' ≠ h → ls.q h' = some ys → e ∉ ys)
    (hnext : ∀ x, x ∉ Sum.inl h :: xs.map .inr → x ≠ .inr e → m'.next x = m.next x)
    (hprev : ∀ x, x ∉ Sum.inl h :: xs.map .inr → x ≠ .inr e → m'.prev x = m.prev x)
    (hleft : ∀ x, x ≠ e → left x = ls.left x)
    (he : ∀ n, left e = some n → m'.next (.inr e) = some n ∧ e ∉ xs') :
    Rep m' ⟨Function.update ls.q h (some xs'), left⟩ := by
  -- The elements of the other lists are on neither list.
  have hother : ∀ h' ys x, h' ≠ h → ls.q h' = some ys → x ∈ ys → x ∉ xs ∧ x ≠ e := by
    intro h' ys x hne hys hx
    refine ⟨fun hxs => hne (hrep.disjoint h' h ys xs x hys hq hx hxs), ?_⟩
    rintro rfl
    exact hoff h' ys hne hys hx
  constructor
  · intro h' ys hys
    dsimp only at hys
    by_cases hh : h' = h
    · subst hh
      rw [Function.update_self] at hys
      cases hys
      exact hring
    · rw [Function.update_of_ne hh] at hys
      have hnode : ∀ x ∈ Sum.inl h' :: ys.map Sum.inr,
          x ∉ Sum.inl h :: xs.map Sum.inr ∧ x ≠ Sum.inr e := by
        intro x hx
        rcases List.mem_cons.mp hx with rfl | hx
        · simp [hh]
        · obtain ⟨y, hy, rfl⟩ := List.mem_map.mp hx
          obtain ⟨hnot, hne⟩ := hother h' ys y hh hys hy
          simp [hnot, hne]
      refine (hrep.ring h' ys hys).congr ?_ ?_
      · intro x hx
        exact hnext x (hnode x hx).1 (hnode x hx).2
      · intro x hx
        exact hprev x (hnode x hx).1 (hnode x hx).2
  · intro h₁ h₂ ys₁ ys₂ x hy₁ hy₂ hx₁ hx₂
    dsimp only at hy₁ hy₂
    by_cases h1 : h₁ = h
    · by_cases h2 : h₂ = h
      · rw [h1, h2]
      · subst h1
        rw [Function.update_self] at hy₁
        rw [Function.update_of_ne h2] at hy₂
        cases hy₁
        obtain ⟨hnot, hne⟩ := hother h₂ ys₂ x h2 hy₂ hx₂
        exact ((hsub x hx₁).elim hnot hne).elim
    · by_cases h2 : h₂ = h
      · subst h2
        rw [Function.update_self] at hy₂
        rw [Function.update_of_ne h1] at hy₁
        cases hy₂
        obtain ⟨hnot, hne⟩ := hother h₁ ys₁ x h1 hy₁ hx₁
        exact ((hsub x hx₂).elim hnot hne).elim
      · rw [Function.update_of_ne h1] at hy₁
        rw [Function.update_of_ne h2] at hy₂
        exact hrep.disjoint h₁ h₂ ys₁ ys₂ x hy₁ hy₂ hx₁ hx₂
  · intro x n hn
    dsimp only at hn
    by_cases hx : x = e
    · subst hx
      obtain ⟨hlink, hnot⟩ := he n hn
      refine ⟨hlink, fun h' ys hys => ?_⟩
      dsimp only at hys
      by_cases hh : h' = h
      · subst hh
        rw [Function.update_self] at hys
        cases hys
        exact hnot
      · rw [Function.update_of_ne hh] at hys
        exact hoff h' ys hh hys
    · rw [hleft x hx] at hn
      obtain ⟨hlink, hoffx⟩ := hrep.left x n hn
      have hxs := hoffx h xs hq
      refine ⟨?_, fun h' ys hys => ?_⟩
      · rw [hnext (.inr x) (by simp [hxs]) (by simp [hx])]
        exact hlink
      · dsimp only at hys
        by_cases hh : h' = h
        · subst hh
          rw [Function.update_self] at hys
          cases hys
          exact fun hmem => (hsub x hmem).elim hxs hx
        · rw [Function.update_of_ne hh] at hys
          exact hoffx h' ys hys

/-- An element is appended, in the links and in the lists. -/
theorem Rep.append (hrep : Rep m ls) {h : H} {e : E} (hvalid : ls.Valid (.append e h)) :
    ∃ m', m.exec (.append e h) = some m' ∧ Rep m' (ls.apply (.append e h)) := by
  obtain ⟨⟨xs, hq⟩, hoff⟩ := hvalid
  have hring := hrep.ring h xs hq
  have hnot : Sum.inr e ∉ Sum.inl h :: xs.map (Sum.inr (α := H)) := by simp [hoff h xs hq]
  refine ⟨_, by rw [Links.exec, hring.last, Option.map_some], ?_⟩
  have heq := insertBefore_eq (e := Sum.inr e) hring.last (by simp)
  rw [Lists.apply, hq, Option.map_some]
  refine hrep.edit (e := e) hq ?_ ?_ (fun h' ys _ hys => hoff h' ys hys) ?_ ?_ ?_ ?_
  · rw [List.map_append]
    exact insertBefore_isRing hring hnot
  · intro x hx
    rw [List.mem_append, List.mem_singleton] at hx
    exact hx
  · intro x hx hxe
    have hlast : x ≠ (xs.map Sum.inr).getLastD (.inl h) := fun heq =>
      hx (heq ▸ Ring.getLastD_mem _ _)
    rw [heq]
    dsimp only
    rw [Function.update_of_ne hlast, Function.update_of_ne hxe]
  · intro x hx hxe
    have hhead : x ≠ Sum.inl h := fun heq => hx (heq ▸ List.mem_cons_self)
    rw [heq]
    dsimp only
    rw [Function.update_of_ne hhead, Function.update_of_ne hxe]
  · exact fun x hx => Function.update_of_ne hx _ _
  · intro n hn
    rw [Function.update_self] at hn
    cases hn

/-- An element is inserted before another one, in the links and in the lists. -/
theorem Rep.before (hrep : Rep m ls) {h : H} {e y : E} (hvalid : ls.Valid (.before e h y)) :
    ∃ m', m.exec (.before e h y) = some m' ∧ Rep m' (ls.apply (.before e h y)) := by
  obtain ⟨⟨xs, hq, hy⟩, hoff⟩ := hvalid
  obtain ⟨ys, zs, rfl, hnoty⟩ := List.eq_append_cons_of_mem hy
  have hring := hrep.ring h _ hq
  -- The new element is on no list, so the ring does not go through it.
  have hnot : Sum.inr e ∉ Sum.inl h :: (ys ++ y :: zs).map (Sum.inr (α := H)) := by
    simpa using hoff h _ hq
  rw [List.map_append, List.map_cons] at hring hnot
  refine ⟨_, by rw [Links.exec, hring.pred, Option.map_some], ?_⟩
  have hey : Sum.inr (α := H) e ≠ Sum.inr y := fun heq => hnot (by simp [heq])
  have heq := insertBefore_eq hring.pred hey
  rw [Lists.apply, hq, Option.map_some, splice_append hnoty]
  refine hrep.edit (e := e) hq ?_ ?_ (fun h' ys _ hys => hoff h' ys hys) ?_ ?_ ?_ ?_
  · rw [List.map_append, List.map_cons, List.map_cons]
    exact insertBefore_isRing_mem hring hnot
  · intro x hx
    simp only [List.mem_append, List.mem_cons] at hx ⊢
    tauto
  · -- Only the predecessor's `next` changes.
    intro x hx hxe
    have hpred : x ≠ (ys.map Sum.inr).getLastD (.inl h) := by
      rintro rfl
      have hmem := Ring.getLastD_mem (ys.map Sum.inr) (Sum.inl (β := E) h)
      rw [List.map_append, ← List.cons_append, List.mem_append] at hx
      exact hx (Or.inl hmem)
    rw [heq]
    dsimp only
    rw [Function.update_of_ne hpred, Function.update_of_ne hxe]
  · -- And only the `prev` of `y`.
    intro x hx hxe
    have hxy : x ≠ Sum.inr y := by
      rintro rfl
      exact hx (by simp)
    rw [heq]
    dsimp only
    rw [Function.update_of_ne hxy, Function.update_of_ne hxe]
  · exact fun x hx => Function.update_of_ne hx _ _
  · intro n hn
    rw [Function.update_self] at hn
    cases hn

/-- An element is removed, in the links and in the lists. -/
theorem Rep.remove (hrep : Rep m ls) {h : H} {e : E} (hvalid : ls.Valid (.remove h e)) :
    ∃ m', m.exec (.remove h e) = some m' ∧ Rep m' (ls.apply (.remove h e)) := by
  obtain ⟨xs, hq, he⟩ := hvalid
  obtain ⟨ys, zs, hnot, rfl, herase⟩ := List.exists_erase_eq he
  have hring := hrep.ring h _ hq
  rw [List.map_append, List.map_cons] at hring
  have heq := removeLink_eq hring.pred hring.succ
  refine ⟨_, by rw [Links.exec, hring.pred, hring.succ]; exact if_pos ⟨rfl, rfl⟩, ?_⟩
  rw [Lists.apply, hq, Option.map_some, Option.map_some, herase, after_append hnot]
  -- The nodes whose links change.
  have hpred := Ring.getLastD_mem (ys.map Sum.inr) (Sum.inl (β := E) h)
  have hsucc : (zs.map Sum.inr).headD (.inl h) ∈ Sum.inl h :: (zs.map Sum.inr) := by
    cases zs <;> simp
  refine hrep.edit (e := e) hq ?_ ?_ ?_ ?_ ?_ ?_ ?_
  · rw [List.map_append]
    exact removeLink_isRing hring
  · intro x hx
    simp only [List.mem_append, List.mem_cons] at hx ⊢
    tauto
  · intro h' ws hne hws hmem
    exact hne (hrep.disjoint h' h ws _ e hws hq hmem he)
  · intro x hx _
    rw [heq]
    dsimp only
    refine Function.update_of_ne ?_ _ _
    rintro rfl
    rw [List.map_append, ← List.cons_append, List.mem_append] at hx
    exact hx (Or.inl hpred)
  · intro x hx _
    rw [heq]
    dsimp only
    refine Function.update_of_ne ?_ _ _
    rintro rfl
    rw [List.map_append, List.map_cons] at hx
    simp only [List.mem_cons, List.mem_append] at hx hsucc
    tauto
  · exact fun x hx => Function.update_of_ne hx _ _
  · intro n hn
    rw [Function.update_self] at hn
    cases hn
    refine ⟨?_, ?_⟩
    · rw [hring.next_removeLink, headD_map]
    · have hnodup := (hrep.ring h _ hq).ring.1
      have hxs := List.Nodup.of_map _ (List.nodup_cons.mp hnodup).2
      rw [← herase]
      exact List.Nodup.not_mem_erase hxs

/-- An element on no list: its links may be set to null. -/
theorem Rep.clear (hrep : Rep m ls) {e : E} (hoff : ls.Off e) :
    Rep (m.clear (.inr e)) (ls.apply (.clear e)) := by
  constructor
  · intro h xs hq
    refine (hrep.ring h xs hq).congr ?_ ?_
    · intro x hx
      exact Function.update_of_ne (fun heq => hoff h xs hq (by simpa [heq] using hx)) _ _
    · intro x hx
      exact Function.update_of_ne (fun heq => hoff h xs hq (by simpa [heq] using hx)) _ _
  · exact hrep.disjoint
  · intro x n hn
    rw [Lists.apply] at hn
    dsimp only at hn
    by_cases hx : x = e
    · rw [hx, Function.update_self] at hn
      cases hn
    · rw [Function.update_of_ne hx] at hn
      obtain ⟨hlink, hoffx⟩ := hrep.left x n hn
      refine ⟨?_, hoffx⟩
      rw [Links.clear]
      dsimp only
      rw [Function.update_of_ne (by simpa using hx)]
      exact hlink

/-- A new head. -/
theorem Rep.init (hrep : Rep m ls) {h : H} (hq : ls.q h = none) :
    Rep (m.init (.inl h)) (ls.apply (.init h)) := by
  constructor
  · intro h' xs hq'
    rw [Lists.apply] at hq'
    dsimp only at hq'
    by_cases hh : h' = h
    · subst hh
      rw [Function.update_self] at hq'
      cases hq'
      exact init_isRing m (.inl h')
    · -- The rings of the other lists do not go through the new head.
      rw [Function.update_of_ne hh] at hq'
      have hne : ∀ x ∈ Sum.inl h' :: xs.map Sum.inr, x ≠ Sum.inl h := by
        rintro x hx rfl
        simp [Ne.symm hh] at hx
      refine (hrep.ring h' xs hq').congr ?_ ?_
      · exact fun x hx => Function.update_of_ne (hne x hx) _ _
      · exact fun x hx => Function.update_of_ne (hne x hx) _ _
  · intro h₁ h₂ xs₁ xs₂ e hq₁ hq₂ he₁ he₂
    rw [Lists.apply] at hq₁ hq₂
    dsimp only at hq₁ hq₂
    -- The new list is empty, so an element is on an old list.
    have hold : ∀ h' xs, Function.update ls.q h (some []) h' = some xs → e ∈ xs →
        ls.q h' = some xs := by
      intro h' xs hq' he
      by_cases hh : h' = h
      · subst hh
        rw [Function.update_self] at hq'
        cases hq'
        cases he
      · rw [Function.update_of_ne hh] at hq'
        exact hq'
    exact hrep.disjoint h₁ h₂ xs₁ xs₂ e (hold h₁ xs₁ hq₁ he₁) (hold h₂ xs₂ hq₂ he₂) he₁ he₂
  · intro x n hn
    obtain ⟨hlink, hoffx⟩ := hrep.left x n hn
    refine ⟨?_, fun h' xs hq' => ?_⟩
    · rw [Links.init]
      dsimp only
      rw [Function.update_of_ne (by simp)]
      exact hlink
    · rw [Lists.apply] at hq'
      dsimp only at hq'
      by_cases hh : h' = h
      · subst hh
        rw [Function.update_self] at hq'
        cases hq'
        exact List.not_mem_nil
      · rw [Function.update_of_ne hh] at hq'
        exact hoffx h' xs hq'

/-- A head that is released. -/
theorem Rep.free (hrep : Rep m ls) {h : H} : Rep (m.clear (.inl h)) (ls.apply (.free h)) := by
  have hold : ∀ h' xs, Function.update ls.q h none h' = some xs → h' ≠ h ∧ ls.q h' = some xs := by
    intro h' xs hq'
    by_cases hh : h' = h
    · rw [hh, Function.update_self] at hq'
      cases hq'
    · rw [Function.update_of_ne hh] at hq'
      exact ⟨hh, hq'⟩
  constructor
  · intro h' xs hq'
    obtain ⟨hh, hq'⟩ := hold h' xs hq'
    have hne : ∀ x ∈ Sum.inl h' :: xs.map Sum.inr, x ≠ Sum.inl h := by
      rintro x hx rfl
      simp [Ne.symm hh] at hx
    refine (hrep.ring h' xs hq').congr ?_ ?_
    · exact fun x hx => Function.update_of_ne (hne x hx) _ _
    · exact fun x hx => Function.update_of_ne (hne x hx) _ _
  · intro h₁ h₂ xs₁ xs₂ e hq₁ hq₂ he₁ he₂
    exact hrep.disjoint h₁ h₂ xs₁ xs₂ e (hold h₁ xs₁ hq₁).2 (hold h₂ xs₂ hq₂).2 he₁ he₂
  · intro x n hn
    obtain ⟨hlink, hoffx⟩ := hrep.left x n hn
    refine ⟨?_, fun h' xs hq' => hoffx h' xs (hold h' xs hq').2⟩
    rw [Links.clear]
    dsimp only
    rw [Function.update_of_ne (by simp)]
    exact hlink

/-- A valid access can be carried out on links that represent the lists. -/
theorem exec_apply (hrep : Rep m ls) {a : Acc H E} (hvalid : ls.Valid a) :
    ∃ m', m.exec a = some m' ∧ Rep m' (ls.apply a) := by
  cases a with
  | first h n =>
    obtain ⟨xs, hq, rfl⟩ := hvalid
    refine ⟨m, if_pos ?_, hrep⟩
    rw [(hrep.ring h xs hq).first, headD_map]
  | succ h e n =>
    refine ⟨m, if_pos ?_, hrep⟩
    rcases hvalid with ⟨xs, hq, he, rfl⟩ | hleft
    · exact hrep.succ hq he
    · exact (hrep.left e n hleft).1
  | last h n =>
    obtain ⟨xs, hq, rfl⟩ := hvalid
    refine ⟨m, if_pos ?_, hrep⟩
    rw [(hrep.ring h xs hq).last, getLastD_map]
  | append e h => exact hrep.append hvalid
  | before e h x => exact hrep.before hvalid
  | remove h e => exact hrep.remove hvalid
  | clear e => exact ⟨_, rfl, hrep.clear hvalid⟩
  | init h => exact ⟨_, rfl, hrep.init hvalid⟩
  | free h => exact ⟨_, rfl, hrep.free⟩

/-- The refinement: accesses that are valid on the lists can be carried out on links that represent
them, and the links then represent the new lists. -/
theorem run_exec (hrep : Rep m ls) {as : List (Acc H E)} (hvalid : Runs.Meets Lists.step Lists.Valid ls as)
    {ls' : Lists H E} (hrun : Runs.run Lists.step ls as = some ls') :
    ∃ m', Runs.run Links.exec m as = some m' ∧ Rep m' ls' := by
  refine Runs.run_simulates (P := Lists.Valid) (R := fun ls m => Rep m ls) ?_ hrep hvalid hrun
  intro ls a ls' m hrep hvalid hstep
  cases hstep
  exact exec_apply hrep hvalid

end refinement

/-! ## Some of the lists

A program may use only some of the heads, those that exist for it. What it does to the lists, it does to
these lists alone. -/

section within

/-- The lists of the heads that `alive` has. -/
def within (alive : H → Bool) (q : H → Option (List E)) : H → Option (List E) :=
  fun h => if alive h then q h else none

/-- The access is to a list of these heads. -/
def Acc.On (alive : H → Bool) (a : Acc H E) : Prop := ∀ h ∈ a.head, alive h = true

variable {alive : H → Bool} {q q' : H → Option (List E)} {left left' : E → Option (H ⊕ E)}

/-- A list that `alive` has. -/
theorem within_eq {h : H} (hh : alive h = true) : within alive q h = q h := if_pos hh

/-- A list that is there is one that `alive` has. -/
theorem within_some {h : H} {xs : List E} (hq : within alive q h = some xs) :
    alive h = true ∧ q h = some xs := by
  unfold within at hq
  split_ifs at hq with hh
  exact ⟨hh, hq⟩

/-- An element on no list is on none of these. -/
theorem Lists.Off.within {e : E} (h : Lists.Off ⟨q, left⟩ e) :
    Lists.Off ⟨Clist.within alive q, left⟩ e :=
  fun h' xs hq => h h' xs (within_some hq).2

/-- One of the lists is assigned to. -/
theorem within_update [DecidableEq H] {h : H} (hh : alive h = true) (xs : Option (List E)) :
    within alive (Function.update q h xs) = Function.update (within alive q) h xs := by
  funext h'
  by_cases heq : h' = h
  · rw [heq, Function.update_self, within_eq hh, Function.update_self]
  · rw [Function.update_of_ne heq, within, within, Function.update_of_ne heq]

/-- Links that represent all lists represent these. -/
theorem Rep.within {m : Links (H ⊕ E)} (h : Rep m ⟨q, left⟩) :
    Rep m ⟨Clist.within alive q, left⟩ where
  ring h' xs hq := h.ring h' xs (within_some hq).2
  disjoint h₁ h₂ xs₁ xs₂ e hq₁ hq₂ := h.disjoint h₁ h₂ xs₁ xs₂ e (within_some hq₁).2 (within_some hq₂).2
  left e n hn := ⟨(h.left e n hn).1, (h.left e n hn).2.within⟩

variable [DecidableEq E] {a : Acc H E} {as : List (Acc H E)}

/-- It makes sense. -/
theorem Acc.On.valid (ha : a.On alive) (hvalid : Lists.Valid ⟨q, left⟩ a) :
    Lists.Valid ⟨within alive q, left⟩ a := by
  have hq : ∀ h ∈ a.head, within alive q h = q h := fun h hh => within_eq (ha h hh)
  cases a with
  | append e h =>
    obtain ⟨hxs, hoff⟩ := hvalid
    refine ⟨?_, hoff.within⟩
    simpa only [hq h rfl] using hxs
  | before e h x =>
    obtain ⟨hxs, hoff⟩ := hvalid
    refine ⟨?_, hoff.within⟩
    simpa only [hq h rfl] using hxs
  | clear e => exact Lists.Off.within hvalid
  | _ =>
    simp only [Lists.Valid, hq _ rfl] at hvalid ⊢
    exact hvalid

variable [DecidableEq H]

/-- What the access does. -/
theorem Acc.On.apply (ha : a.On alive) : Lists.apply ⟨within alive q, left⟩ a =
    ⟨within alive (Lists.apply ⟨q, left⟩ a).q, (Lists.apply ⟨q, left⟩ a).left⟩ := by
  cases a with
  | append e h =>
    have hh := ha h rfl
    simp only [Lists.apply, within_update hh, within_eq hh]
  | before e h x =>
    have hh := ha h rfl
    simp only [Lists.apply, within_update hh, within_eq hh]
  | remove h e =>
    have hh := ha h rfl
    simp only [Lists.apply, within_update hh, within_eq hh]
  | init h => simp only [Lists.apply, within_update (ha h rfl)]
  | free h => simp only [Lists.apply, within_update (ha h rfl)]
  | _ => rfl

/-- Accesses to these lists, one after another. -/
theorem run_within (has : ∀ a ∈ as, a.On alive) :
    ∀ {q left}, Runs.run Lists.step ⟨q, left⟩ as = some ⟨q', left'⟩ →
      Runs.run Lists.step ⟨within alive q, left⟩ as = some ⟨within alive q', left'⟩ := by
  induction as with
  | nil =>
    intro q left hrun
    cases hrun
    rfl
  | cons a as ih =>
    intro q left hrun
    obtain ⟨ls, hs, hrest⟩ := Runs.run_cons hrun
    cases hs
    rw [Runs.run, Lists.step, (has a List.mem_cons_self).apply]
    exact ih (fun b hb => has b (List.mem_cons_of_mem a hb)) hrest

/-- What each of them meets among all lists, it meets among these. -/
theorem meets_within {P : Lists H E → Acc H E → Prop}
    (hP : ∀ {q left a}, Acc.On alive a → P ⟨q, left⟩ a → P ⟨within alive q, left⟩ a)
    (has : ∀ a ∈ as, a.On alive) : ∀ {q left}, Runs.Meets Lists.step P ⟨q, left⟩ as →
      Runs.Meets Lists.step P ⟨within alive q, left⟩ as := by
  induction as with
  | nil => exact fun _ => trivial
  | cons a as ih =>
    intro q left hmeets
    have ha := has a List.mem_cons_self
    refine ⟨hP ha hmeets.head, ?_⟩
    rw [Lists.step, ha.apply]
    exact ih (fun b hb => has b (List.mem_cons_of_mem a hb)) (hmeets.tail rfl)

end within

/-! ## Queues -/

section queues

/-- The access uses the list `h` as a queue: elements come at the end and leave from the front. -/
def Lists.Queued (h : H) (ls : Lists H E) : Acc H E → Prop
  | .before _ h' _ => h' ≠ h
  | .remove h' e => h' = h → ∃ xs, ls.q h = some (e :: xs)
  | .init h' => h' ≠ h
  | .free h' => h' ≠ h
  | _ => True

/-- The list of `h` is used as a queue among the lists of some heads, if it is among all lists. -/
theorem Lists.Queued.within {h : H} {alive : H → Bool} {q : H → Option (List E)}
    {left : E → Option (H ⊕ E)} {a : Acc H E} (ha : a.On alive)
    (hqueued : Lists.Queued h ⟨q, left⟩ a) : Lists.Queued h ⟨Clist.within alive q, left⟩ a := by
  cases a with
  | remove h' e =>
    intro heq
    obtain ⟨xs, hxs⟩ := hqueued heq
    refine ⟨xs, ?_⟩
    rw [← hxs]
    exact within_eq (ha h (congrArg some heq))
  | _ => exact hqueued

variable [DecidableEq H]

/-- The elements that were appended to the list `h`, in order. -/
def appended (h : H) : List (Acc H E) → List E
  | [] => []
  | .append e h' :: as => if h' = h then e :: appended h as else appended h as
  | _ :: as => appended h as

/-- The elements that were removed from the list `h`, in order. -/
def removed (h : H) : List (Acc H E) → List E
  | [] => []
  | .remove h' e :: as => if h' = h then e :: removed h as else removed h as
  | _ :: as => removed h as

/-- What was appended in two parts. -/
theorem appended_append (h : H) (as bs : List (Acc H E)) :
    appended h (as ++ bs) = appended h as ++ appended h bs := by
  induction as with
  | nil => rfl
  | cons a as ih =>
    cases a with
    | append e h' =>
      simp only [List.cons_append, appended, ih]
      split_ifs <;> rfl
    | _ => simpa only [List.cons_append, appended] using ih

/-- What was removed in two parts. -/
theorem removed_append (h : H) (as bs : List (Acc H E)) :
    removed h (as ++ bs) = removed h as ++ removed h bs := by
  induction as with
  | nil => rfl
  | cons a as ih =>
    cases a with
    | remove h' e =>
      simp only [List.cons_append, removed, ih]
      split_ifs <;> rfl
    | _ => simpa only [List.cons_append, removed] using ih

variable [DecidableEq E]

/-- What one access does to a queue. -/
theorem Lists.Queued.apply {h : H} {ls : Lists H E} {a : Acc H E} (hqueued : ls.Queued h a)
    {xs : List E} (hq : ls.q h = some xs) :
    ∃ xs', (ls.apply a).q h = some xs' ∧ removed h [a] ++ xs' = xs ++ appended h [a] := by
  cases a with
  | append e h' =>
    by_cases hh : h' = h
    · subst hh
      refine ⟨xs ++ [e], ?_, ?_⟩
      · simp [Lists.apply, hq]
      · simp [removed, appended]
    · refine ⟨xs, ?_, ?_⟩
      · simp [Lists.apply, hq, Function.update_of_ne (Ne.symm hh)]
      · simp [removed, appended, hh]
  | remove h' e =>
    by_cases hh : h' = h
    · subst hh
      obtain ⟨ys, hys⟩ := hqueued rfl
      rw [hq] at hys
      cases hys
      refine ⟨ys, ?_, ?_⟩
      · simp [Lists.apply, hq]
      · simp [removed, appended]
    · refine ⟨xs, ?_, ?_⟩
      · simp [Lists.apply, hq, Function.update_of_ne (Ne.symm hh)]
      · simp [removed, appended, hh]
  | before e h' x =>
    refine ⟨xs, ?_, by simp [removed, appended]⟩
    simp [Lists.apply, hq, Function.update_of_ne (Ne.symm hqueued)]
  | init h' =>
    refine ⟨xs, ?_, by simp [removed, appended]⟩
    simp [Lists.apply, hq, Function.update_of_ne (Ne.symm hqueued)]
  | free h' =>
    refine ⟨xs, ?_, by simp [removed, appended]⟩
    simp [Lists.apply, hq, Function.update_of_ne (Ne.symm hqueued)]
  | _ => exact ⟨xs, hq, by simp [removed, appended]⟩

/-- The law of a queue: what was taken off it, followed by what it has, is what it had, followed by what
was appended. -/
theorem run_queued {h : H} {ls ls' : Lists H E} {as : List (Acc H E)}
    (hqueued : Runs.Meets Lists.step (Lists.Queued h) ls as)
    (hrun : Runs.run Lists.step ls as = some ls') {xs : List E} (hq : ls.q h = some xs) :
    ∃ xs', ls'.q h = some xs' ∧ removed h as ++ xs' = xs ++ appended h as := by
  induction as generalizing ls xs with
  | nil =>
    cases hrun
    exact ⟨xs, hq, by simp [removed, appended]⟩
  | cons a as ih =>
    obtain ⟨ls₁, hs, hrest⟩ := Runs.run_cons hrun
    have htail := hqueued.tail hs
    cases hs
    obtain ⟨ys, hys, hlaw⟩ := hqueued.head.apply hq
    obtain ⟨xs', hxs', hlaw'⟩ := ih htail hrest hys
    refine ⟨xs', hxs', ?_⟩
    have hr : removed h (a :: as) = removed h [a] ++ removed h as := removed_append h [a] as
    have ha : appended h (a :: as) = appended h [a] ++ appended h as := appended_append h [a] as
    rw [hr, ha, List.append_assoc, hlaw', ← List.append_assoc, hlaw, List.append_assoc]

end queues

end Clist
