import Mathlib.Data.List.Count
import Mathlib.Logic.Basic

/-!
# Slots whose values are destroyed

A slot holds at most one value at a time. A value that is put into the slot is destroyed when it
leaves, by a call of a destructor, or is dropped if there is no destructor. From time to time the slot
gets a new owner. `Holds` is what a history of such events says: only an empty slot gets a value or a
new owner, and only the value in place is destroyed or dropped. So each value that was put is destroyed
at most once before the next one is put (`Holds.count`), and the value in place, if there is one, was put
by the last event of the history (`Holds.last`).
-/

namespace Slot

/-- An event in the history of a slot. -/
inductive Event (α : Type*) where
  /-- A new owner. -/
  | start
  | put (v : α)
  | destroy (v : α)
  /-- The value leaves and is not destroyed. -/
  | drop (v : α)
  deriving DecidableEq

variable {α : Type*}

/-- A history, the last event first, and the value in place after it. -/
inductive Holds : List (Event α) → Option α → Prop
  | nil : Holds [] none
  | start {es : List (Event α)} (h : Holds es none) : Holds (.start :: es) none
  | put {es : List (Event α)} (v : α) (h : Holds es none) : Holds (.put v :: es) (some v)
  | destroy {es : List (Event α)} {v : α} (h : Holds es (some v)) : Holds (.destroy v :: es) none
  | drop {es : List (Event α)} {v : α} (h : Holds es (some v)) : Holds (.drop v :: es) none

/-- The value in place was put by the last event. -/
theorem Holds.last {es : List (Event α)} {v : α} (h : Holds es (some v)) :
    ∃ es', es = .put v :: es' ∧ Holds es' none := by
  cases h with
  | put _ h => exact ⟨_, rfl, h⟩

/-- A value leaves the slot as often as it was put, except if it is in place. -/
theorem Holds.count [DecidableEq α] {es : List (Event α)} {x : Option α} (h : Holds es x) (v : α) :
    es.count (.put v) =
      es.count (.destroy v) + es.count (.drop v) + if x = some v then 1 else 0 := by
  induction h with
  | nil => rfl
  | start _ ih => simpa [List.count_cons] using ih
  | put w _ ih =>
    rw [if_neg (by simp)] at ih
    by_cases hw : w = v
    · simp [hw, ih]
    · simp [hw, ih]
  | @destroy es w _ ih =>
    by_cases hw : w = v
    · simp only [hw, if_true] at ih
      simp only [List.count_cons, hw, ih]
      simp [Nat.add_right_comm]
    · simpa [List.count_cons, hw] using ih
  | @drop es w _ ih =>
    by_cases hw : w = v
    · simp only [hw, if_true] at ih
      simp only [List.count_cons, hw, ih]
      simp [Nat.add_assoc]
    · simpa [List.count_cons, hw] using ih

/-- A value is destroyed at most as often as it was put. -/
theorem Holds.count_destroy_le [DecidableEq α] {es : List (Event α)} {x : Option α} (h : Holds es x)
    (v : α) : es.count (.destroy v) ≤ es.count (.put v) := by
  have hcount := h.count v
  omega

end Slot
