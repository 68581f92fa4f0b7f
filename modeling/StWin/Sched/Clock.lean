import StWin.Sched.Model
import StWin.Heap.Spec

/-!
# The clock

`_st_vp_check_clock` pops the root of the timeout heap for as long as the root is due. `Expires`
says what that comes to for the heap as a whole: exactly the threads that are due leave it, earliest
first, and each of them is made runnable behind the threads that were runnable before.

One iteration is `popped`. The heap order is what turns a test of the root alone into a statement
about every thread of the heap: the root is due no later than any other (`Heap.Wf.root`), and
`_st_del_sleep_q` leaves a heap with the invariant, to which the next test applies.
-/

namespace StWin.St

/-- The record of a thread whose time has come. The flag `_ST_FL_TIMEDOUT` is for the waits on
condition variables. -/
def expired (th : Thread) : Thread :=
  { th with
    state := .RUNNABLE
    flags := { th.flags with
      on_sleepq := false
      timedout := th.flags.timedout || decide (th.state = .COND_WAIT) } }

/-- The state after one iteration, for the thread `t` and the heap without it. -/
def popped (s : St) (t : ℕ) (heap : Heap) : St :=
  { s with
    heap := heap
    thread := Function.update s.thread t (expired (s.thread t))
    run_q := s.run_q ++ [t] }

/-- One iteration of the loop of `_st_vp_check_clock`. -/
theorem checkClockLoop_pop {s : St} {now fuel t : ℕ} {heap : Heap}
    (hroot : s.heap.sleep_q = some t) (hdue : (s.heap.node t).due ≤ now)
    (hdel : s.heap.delSleepQ t = some heap) :
    checkClockLoop now (fuel + 1) s = checkClockLoop now fuel (s.popped t heap) := by
  have hbody : (((if ((s.setSleepQ t false heap).thread t).state = .COND_WAIT then
      (s.setSleepQ t false heap).setFlags t fun fl => { fl with timedout := true }
      else s.setSleepQ t false heap)).setState t .RUNNABLE).addRunq t = s.popped t heap := by
    by_cases hst : (s.thread t).state = .COND_WAIT
    · simp [setSleepQ, setFlags, setState, setThread, addRunq, popped, expired, hst]
    · simp [setSleepQ, setFlags, setState, setThread, addRunq, popped, expired, hst]
  rw [checkClockLoop, hroot]
  dsimp only
  rw [if_neg (Nat.not_lt.mpr hdue), delSleepQ, hdel, Option.map_some, Option.bind_eq_bind,
    Option.bind_some, hbody]

/-- What `_st_vp_check_clock` does at the time `now`, from a state `s` with the threads `S` in its
heap: `l` is the list of the threads that it wakes. -/
structure Expires (s : St) (S : Finset ℕ) (now : ℕ) (s' : St) (l : List ℕ) : Prop where
  /-- They are the threads of the heap that are due. -/
  mem : ∀ t, t ∈ l ↔ t ∈ S ∧ (s.heap.node t).due ≤ now
  /-- Each of them once. -/
  nodup : l.Nodup
  /-- In the order of their due times. -/
  sorted : l.Pairwise fun t u => (s.heap.node t).due ≤ (s.heap.node u).due
  /-- Behind the threads on the run queue. -/
  run_q : s'.run_q = s.run_q ++ l
  /-- Each of them is runnable, off the sleep queue, and marked if it waited on a condition
  variable. -/
  woken : ∀ t ∈ l, s'.thread t = expired (s.thread t)
  /-- The others are as they were. -/
  others : ∀ t, t ∉ l → s'.thread t = s.thread t
  /-- The heap keeps its invariant and the threads that are not due. -/
  heap : Heap.Wf s'.heap (S.filter fun t => now < (s.heap.node t).due)
  /-- No due time changes. -/
  due : ∀ t, (s'.heap.node t).due = (s.heap.node t).due
  /-- Nothing else changes. -/
  rest : s' = { s with thread := s'.thread, heap := s'.heap, run_q := s'.run_q }

/-- Nothing is due. -/
theorem Expires.refl {s : St} {S : Finset ℕ} {now : ℕ} (hw : Heap.Wf s.heap S)
    (hlate : ∀ t ∈ S, now < (s.heap.node t).due) : Expires s S now s [] where
  mem t := by
    constructor
    · intro h
      cases h
    · rintro ⟨ht, hdue⟩
      exact absurd (hlate t ht) (Nat.not_lt.mpr hdue)
  nodup := List.nodup_nil
  sorted := List.Pairwise.nil
  run_q := (List.append_nil _).symm
  woken t h := by cases h
  others _ _ := rfl
  heap := by rwa [Finset.filter_true_of_mem hlate]
  due _ := rfl
  rest := rfl

/-- The root is popped, and then the others that are due. -/
theorem Expires.cons {s s' : St} {S : Finset ℕ} {now t : ℕ} {l : List ℕ} {heap : Heap}
    (ht : t ∈ S) (hmin : ∀ u ∈ S, (s.heap.node t).due ≤ (s.heap.node u).due)
    (hdue : (s.heap.node t).due ≤ now) (hsame : ∀ u, (heap.node u).due = (s.heap.node u).due)
    (h : Expires (s.popped t heap) (S.erase t) now s' l) : Expires s S now s' (t :: l) := by
  have hother : ∀ u, u ∈ l ↔ (u ≠ t ∧ u ∈ S) ∧ (s.heap.node u).due ≤ now := by
    intro u
    rw [h.mem u, Finset.mem_erase]
    exact Iff.and Iff.rfl (by rw [← hsame u]; rfl)
  have hnot : t ∉ l := fun htl => ((hother t).mp htl).1.1 rfl
  -- The loop goes on with `t` popped, and the facts about it are carried back to `s`.
  refine ⟨?_, ?_, ?_, ?_, ?_, ?_, ?_, ?_, h.rest⟩
  · intro u
    rw [List.mem_cons, hother u]
    constructor
    · rintro (rfl | ⟨⟨-, huS⟩, hu⟩)
      · exact ⟨ht, hdue⟩
      · exact ⟨huS, hu⟩
    · rintro ⟨huS, hu⟩
      by_cases hut : u = t
      · exact Or.inl hut
      · exact Or.inr ⟨⟨hut, huS⟩, hu⟩
  · exact List.nodup_cons.mpr ⟨hnot, h.nodup⟩
  · -- The root is the earliest, so that it comes first.
    refine List.pairwise_cons.mpr ⟨?_, ?_⟩
    · intro u hu
      exact hmin u ((hother u).mp hu).1.2
    · refine h.sorted.imp ?_
      intro u v huv
      rw [← hsame u, ← hsame v]
      exact huv
  · rw [h.run_q]
    exact List.append_assoc _ [t] l
  · intro u hu
    rcases List.mem_cons.mp hu with rfl | hu
    · rw [h.others u hnot]
      exact Function.update_self _ _ _
    · have hut : u ≠ t := fun hut => hnot (hut ▸ hu)
      rw [h.woken u hu]
      exact congrArg expired (Function.update_of_ne hut _ _)
  · intro u hu
    rw [List.mem_cons, not_or] at hu
    rw [h.others u hu.2]
    exact Function.update_of_ne hu.1 _ _
  · -- The popped thread is due, so that it is not among those that stay.
    have hset : (S.filter fun u => now < (s.heap.node u).due) =
        (S.erase t).filter fun u => now < ((s.popped t heap).heap.node u).due := by
      ext u
      rw [Finset.mem_filter, Finset.mem_filter, Finset.mem_erase]
      have hu : ((s.popped t heap).heap.node u).due = (s.heap.node u).due := hsame u
      rw [hu]
      constructor
      · rintro ⟨huS, hlate⟩
        refine ⟨⟨?_, huS⟩, hlate⟩
        rintro rfl
        exact absurd hlate (Nat.not_lt.mpr hdue)
      · rintro ⟨⟨-, huS⟩, hlate⟩
        exact ⟨huS, hlate⟩
    rw [hset]
    exact h.heap
  · intro u
    exact (h.due u).trans (hsame u)

/-- The loop of `_st_vp_check_clock`. -/
theorem checkClockLoop_expires (now fuel : ℕ) : ∀ {s : St} {S : Finset ℕ}, Heap.Wf s.heap S →
    S.card < fuel → ∃ s' l, checkClockLoop now fuel s = some s' ∧ Expires s S now s' l := by
  induction fuel with
  | zero =>
    intro s S _ hfuel
    exact absurd hfuel (Nat.not_lt_zero _)
  | succ fuel ih =>
    intro s S hw hfuel
    cases hroot : s.heap.sleep_q with
    | none =>
      refine ⟨s, [], by rw [checkClockLoop, hroot], Expires.refl hw ?_⟩
      rw [hw.root.1.mp hroot]
      intro t ht
      cases ht
    | some t =>
      obtain ⟨ht, hmin⟩ := hw.root.2 t hroot
      by_cases hdue : now < (s.heap.node t).due
      · -- The loop ends, and by the order of the heap no other thread is due either.
        refine ⟨s, [], ?_, Expires.refl hw ?_⟩
        · rw [checkClockLoop, hroot]
          exact if_pos hdue
        · intro u hu
          calc now < (s.heap.node t).due := hdue
            _ ≤ (s.heap.node u).due := hmin u hu
      · have hdue := Nat.not_lt.mp hdue
        obtain ⟨heap, hdel, hw', hsame, -⟩ := Heap.delSleepQ_wf hw ht
        have hcard := Finset.card_erase_lt_of_mem ht
        obtain ⟨s', l, hrun, hl⟩ :=
          @ih (s.popped t heap) (S.erase t) hw' (Nat.lt_of_lt_of_le hcard (Nat.le_of_lt_succ hfuel))
        refine ⟨s', t :: l, ?_, Expires.cons ht hmin hdue hsame hl⟩
        rw [checkClockLoop_pop hroot hdue hdel]
        exact hrun

/-- The clock wakes exactly the threads that are due. For every state whose timeout heap has the
representation invariant, for the threads `S`, and every time `now`: `_st_vp_check_clock` returns,
and `Expires` says what it has done. It has taken over the new time besides. -/
theorem vpCheckClock_expires (s : St) (S : Finset ℕ) (now : ℕ) (hw : Heap.Wf s.heap S) :
    ∃ s' l, s.vpCheckClock now = some s' ∧ Expires { s with last_clock := now } S now s' l :=
  checkClockLoop_expires now _ hw (Nat.lt_succ_of_le hw.card_le)

/-- Three threads in the timeout heap; the earliest was the last to come. -/
def threeAsleep : Heap :=
  ([Heap.SleepOp.add 1 0 20, .add 2 0 10, .add 3 0 5].foldlM Heap.SleepOp.run Heap.empty).get
    (by decide)

/-- The heap of the three threads is well-formed. -/
theorem threeAsleep_wf : Heap.Wf threeAsleep {1, 2, 3} := by
  have hops : Heap.Allowed ∅ [.add 1 0 20, .add 2 0 10, .add 3 0 5] := by decide
  obtain ⟨h, hrun, hw, -⟩ := @Heap.run_wf [.add 1 0 20, .add 2 0 10, .add 3 0 5] Heap.empty ∅
    (fun _ => 0) (Heap.wf_empty rfl rfl) (by simp) hops
  have hset : [Heap.SleepOp.add 1 0 20, .add 2 0 10, .add 3 0 5].foldl Heap.SleepOp.track ∅ =
      {1, 2, 3} := by decide
  have hheap : threeAsleep = h := by simp [threeAsleep, hrun]
  rw [hset, ← hheap] at hw
  exact hw

/-- A check of the clock that wakes two of three threads. -/
theorem vpCheckClock_expires_three :
    Heap.Wf threeAsleep {1, 2, 3} ∧
      ∃ s' l, { init 4096 0 with heap := threeAsleep }.vpCheckClock 10 = some s' ∧
        Expires { init 4096 0 with heap := threeAsleep, last_clock := 10 } {1, 2, 3} 10 s' l :=
  ⟨threeAsleep_wf,
    vpCheckClock_expires { init 4096 0 with heap := threeAsleep } {1, 2, 3} 10 threeAsleep_wf⟩

end StWin.St
