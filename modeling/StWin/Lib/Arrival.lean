import Mathlib.Data.List.Basic
import Mathlib.Data.List.Nodup

/-!
# Queues in order of arrival

A log of events, the newest first, and a queue. The arrival of an element of the queue is an event of
the log, and its place in the log is that of its latest arrival: the deeper, the earlier. `InOrder`
says that the queue is in order of arrival. It is kept when events are recorded that are not
arrivals, when elements leave the queue from anywhere, and when an element arrives and is appended.
Then whoever is found first in the queue arrived first.
-/

namespace Arrival

variable {α β : Type*} [DecidableEq α]

/-- The elements of `q` are in order of their arrivals, which the log has recorded. -/
structure InOrder (arrival : β → α) (log : List α) (q : List β) : Prop where
  mem : ∀ x ∈ q, arrival x ∈ log
  order : q.Pairwise fun x y => log.idxOf (arrival y) < log.idxOf (arrival x)

namespace InOrder

variable {arrival : β → α} {log : List α} {q : List β}

/-- The empty queue. -/
theorem nil : InOrder arrival log [] := ⟨by simp, List.Pairwise.nil⟩

/-- The elements of a queue that stay are in order. -/
theorem sublist {q' : List β} (h : InOrder arrival log q) (hq : q'.Sublist q) :
    InOrder arrival log q' :=
  ⟨fun x hx => h.mem x (hq.subset hx), h.order.sublist hq⟩

/-- Events that are not arrivals leave the order as it is. -/
theorem append {l : List α} (h : InOrder arrival log q) (hl : ∀ x ∈ q, arrival x ∉ l) :
    InOrder arrival (l ++ log) q := by
  refine ⟨fun x hx => List.mem_append_right l (h.mem x hx), h.order.imp_of_mem fun hx hy hlt => ?_⟩
  rw [List.idxOf_append_of_notMem (hl _ hx), List.idxOf_append_of_notMem (hl _ hy)]
  omega

/-- An element arrives. -/
theorem arrive (h : InOrder arrival log q) {x : β} (hx : ∀ y ∈ q, arrival y ≠ arrival x) :
    InOrder arrival (arrival x :: log) (q ++ [x]) := by
  have hold : InOrder arrival ([arrival x] ++ log) q := by
    refine h.append fun y hy hin => ?_
    exact hx y hy (List.mem_singleton.mp hin)
  refine ⟨fun y hy => ?_, List.pairwise_append.mpr ⟨hold.order, List.pairwise_singleton _ _, ?_⟩⟩
  · rcases List.mem_append.mp hy with hy | hy
    · exact hold.mem y hy
    · rw [List.mem_singleton.mp hy]
      exact List.mem_cons_self
  · intro y hy z hz
    rw [List.mem_singleton.mp hz, List.idxOf_cons_self, List.idxOf_cons_ne _ (Ne.symm (hx y hy))]
    exact Nat.succ_pos _

/-- Whoever is found first arrived before the others that could have been found. -/
theorem find_first {p : β → Bool} {x y : β} (h : InOrder arrival log q) (hx : q.find? p = some x)
    (hy : y ∈ q) (hp : p y = true) (hne : y ≠ x) : log.idxOf (arrival y) < log.idxOf (arrival x) := by
  obtain ⟨-, front, back, rfl, hfront⟩ := List.find?_eq_some_iff_append.mp hx
  have hback : y ∈ back := by
    rcases List.mem_append.mp hy with hy | hy
    · have := hfront y hy
      rw [hp] at this
      cases this
    · exact (List.mem_cons.mp hy).resolve_left hne
  have horder := (List.pairwise_append.mp h.order).2.1
  exact (List.pairwise_cons.mp horder).1 y hback

end InOrder

end Arrival
