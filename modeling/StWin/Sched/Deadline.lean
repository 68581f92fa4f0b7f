import StWin.Sched.Dispatch
import Mathlib.Tactic.Linarith

/-!
# How long a dispatch pass waits

`_st_select_dispatch_once` gives `select` the time that is left until the earliest due time in the timeout
heap. The subtraction is in 64 bits and is guarded, so that it does not wrap; the seconds are cast to
`int`. A pass calls `select` for every group that is not skipped, and reads `last_clock` each time as the
last check of the clock has left it: if nothing becomes ready, each call waits for the whole time again.

So a pass keeps the deadline exactly if it calls `select` for one group at most, or need not wait at all,
and the seconds fit (`dispatch_punctual_iff`).
-/

namespace StWin

/-- `struct timeval`. -/
structure Timeval where
  tv_sec : ℤ
  tv_usec : ℤ
  deriving DecidableEq, Repr

/-- The time that it stands for, in microseconds. -/
def Timeval.value (tv : Timeval) : ℤ := tv.tv_sec * 1000000 + tv.tv_usec

/-- The casts to `int`. -/
def Timeval.ofMicroseconds (min_timeout : ℕ) : Timeval :=
  ⟨Int.bmod (min_timeout / 1000000 : ℕ) (2^32), Int.bmod (min_timeout % 1000000 : ℕ) (2^32)⟩

namespace St

/-! ## The calls of `select` -/

/-- The time until `due`, or zero if it has passed. -/
def minTimeout (s : St) (due : ℕ) : ℕ := if due ≤ s.last_clock then 0 else due - s.last_clock

/-- The timeout that `select` is given: `NULL` if the heap is empty. -/
def selectTimeout (s : St) : Option Timeval :=
  s.heap.sleep_q.map fun t => Timeval.ofMicroseconds (s.minTimeout (s.heap.node t).due)

/-- `_st_select_dispatch_once` returns at once. -/
def Skips (s : St) (i : ℕ) : Prop := (s.ev.data i).size ≤ 0 ∨ (s.ev.data i).maxfd ≤ 0

instance (s : St) (i : ℕ) : Decidable (s.Skips i) := inferInstanceAs (Decidable (_ ∨ _))

/-- One group of a pass, with the timeouts of the calls of `select` so far. -/
def timedGroup (outcomes : ℕ → SelectOutcome) (acc : St × List (Option Timeval)) (i : ℕ) :
    Option (St × List (Option Timeval)) :=
  (acc.1.dispatchOnce i (outcomes i)).map fun s' =>
    (s', if acc.1.Skips i then acc.2 else acc.2 ++ [acc.1.selectTimeout])

/-- A dispatch pass with the timeouts of its calls of `select`. -/
def timedPass (s : St) (outcomes : ℕ → SelectOutcome) : Option (St × List (Option Timeval)) :=
  (List.range s.ev.num).foldlM (timedGroup outcomes) (s, [])

/-- Apart from the timeouts it is the dispatch pass. -/
theorem timedPass_fst {s : St} (hc : Ev.Counted s.ev) (outcomes : ℕ → SelectOutcome) :
    (s.timedPass outcomes).map Prod.fst = s.vpIdle outcomes := by
  rw [vpIdle_eq_foldlM hc]
  have hgroups : ∀ (l : List ℕ) (s : St) (calls : List (Option Timeval)),
      (l.foldlM (timedGroup outcomes) (s, calls)).map Prod.fst =
        l.foldlM (fun (s : St) i => s.dispatchOnce i (outcomes i)) s := by
    intro l
    induction l with
    | nil => exact fun _ _ => rfl
    | cons i l ih =>
      intro s calls
      rw [List.foldlM_cons, List.foldlM_cons, timedGroup]
      cases s.dispatchOnce i (outcomes i) with
      | none => rfl
      | some s' => exact ih s' _
  exact hgroups _ _ _

/-! ## A pass in which nothing becomes ready -/

/-- `select` returns `0`. -/
def noneReady : SelectOutcome := .ready fun _ => ∅

/-- Such a call of `select` changes the sets of its group only. -/
theorem dispatchOnce_noneReady (s : St) (i : ℕ) : ∃ ev : Ev,
    s.dispatchOnce i noneReady = some (s.setEv ev) ∧
      ∀ j, (ev.data j).size = (s.ev.data j).size ∧ (ev.data j).maxfd = (s.ev.data j).maxfd := by
  by_cases hskip : (s.ev.data i).size ≤ 0 ∨ (s.ev.data i).maxfd ≤ 0
  · refine ⟨s.ev, ?_, fun _ => ⟨rfl, rfl⟩⟩
    rw [dispatchOnce_eq]
    unfold Ev.dispatchOnce
    rw [if_pos hskip]
    rfl
  · refine ⟨s.ev.overwrite i fun _ => ∅, ?_, fun j => ?_⟩
    · have hnfd : ¬0 < (s.ev.overwrite i fun _ => ∅).nfd i := by
        simp [Ev.nfd, Ev.overwrite]
      rw [dispatchOnce_eq]
      unfold Ev.dispatchOnce noneReady
      rw [if_neg hskip]
      dsimp only
      rw [if_neg hnfd]
      rfl
    · unfold Ev.overwrite
      dsimp only
      by_cases hj : j = i
      · rw [hj, Function.update_self]
        exact ⟨rfl, rfl⟩
      · rw [Function.update_of_ne hj]
        exact ⟨rfl, rfl⟩

/-- Each group that is not skipped is given the same timeout. -/
theorem timedGroups_noneReady (l : List ℕ) : ∀ (s : St) (calls : List (Option Timeval)),
    ∃ s', l.foldlM (timedGroup fun _ => noneReady) (s, calls) =
      some (s', calls ++ List.replicate (l.countP fun i => ¬s.Skips i) s.selectTimeout) := by
  induction l with
  | nil =>
    intro s calls
    exact ⟨s, by simp⟩
  | cons i l ih =>
    intro s calls
    obtain ⟨ev, hrun, hfields⟩ := dispatchOnce_noneReady s i
    -- The heap, the clock, and the guards are as they were.
    have hskips : ∀ j, (s.setEv ev).Skips j ↔ s.Skips j := by
      intro j
      unfold Skips
      rw [setEv_ev, (hfields j).1, (hfields j).2]
    have hcount : (l.countP fun j => ¬(s.setEv ev).Skips j) = l.countP fun j => ¬s.Skips j := by
      congr 1
      funext j
      exact decide_eq_decide.mpr (not_congr (hskips j))
    have htimeout : (s.setEv ev).selectTimeout = s.selectTimeout := rfl
    rw [List.foldlM_cons, timedGroup, hrun, Option.map_some, Option.bind_eq_bind, Option.bind_some]
    obtain ⟨s', hrest⟩ := ih (s.setEv ev)
      (if s.Skips i then calls else calls ++ [s.selectTimeout])
    refine ⟨s', hrest.trans ?_⟩
    rw [hcount, htimeout, List.countP_cons]
    by_cases hskip : s.Skips i
    · simp [hskip]
    · simp [hskip, List.replicate_succ]

/-! ## The deadline -/

/-- What is asked of the calls of `select` in a pass, where `left` is the time until the earliest due
time: each timeout is a proper `timeval` of exactly that value, and they do not add up to more. -/
structure Punctual (left : ℕ) (calls : List (Option Timeval)) : Prop where
  each : ∀ call ∈ calls, ∃ tv, call = some tv ∧ 0 ≤ tv.tv_sec ∧ 0 ≤ tv.tv_usec ∧
    tv.tv_usec < 1000000 ∧ tv.value = left
  total : ((calls.filterMap id).map Timeval.value).sum ≤ left

/-- The casts keep the value exactly if the seconds fit. -/
theorem ofMicroseconds_spec (n : ℕ) :
    (0 ≤ (Timeval.ofMicroseconds n).tv_usec ∧ (Timeval.ofMicroseconds n).tv_usec < 1000000) ∧
      (0 ≤ (Timeval.ofMicroseconds n).tv_sec ∧ (Timeval.ofMicroseconds n).value = n ↔
        n < 2^31 * 1000000) := by
  have husec : Int.bmod (n % 1000000 : ℕ) (2^32) = (n % 1000000 : ℕ) := by
    apply Int.bmod_eq_of_le
    · omega
    · omega
  have hsplit : (n : ℤ) = (n / 1000000 : ℕ) * 1000000 + (n % 1000000 : ℕ) := by omega
  unfold Timeval.value Timeval.ofMicroseconds
  dsimp only
  rw [husec]
  refine ⟨by omega, ?_⟩
  generalize hsec : n / 1000000 = sec at hsplit ⊢
  constructor
  · rintro ⟨-, hvalue⟩
    have hlt : Int.bmod (sec : ℤ) (2^32) < 2^31 := by
      have := @Int.bmod_lt (sec : ℤ) (2^32) (by norm_num)
      norm_num at this ⊢
      omega
    omega
  · intro hlt
    have hfits : Int.bmod (sec : ℤ) (2^32) = sec := by
      apply Int.bmod_eq_of_le
      · omega
      · omega
    rw [hfits]
    omega

/-- Some calls of `select`, each with the timeout that is computed from `left`. -/
theorem punctual_replicate_iff (left n : ℕ) :
    Punctual left (List.replicate n (some (Timeval.ofMicroseconds left))) ↔
      n = 0 ∨ (left < 2^31 * 1000000 ∧ (n = 1 ∨ left = 0)) := by
  obtain ⟨husec, hfits⟩ := ofMicroseconds_spec left
  have hsum : (((List.replicate n (some (Timeval.ofMicroseconds left))).filterMap id).map
      Timeval.value).sum = n * (Timeval.ofMicroseconds left).value := by
    induction n with
    | zero => simp
    | succ n ih =>
      have hcons : ∀ (tv : Timeval) (l : List (Option Timeval)),
          (some tv :: l).filterMap id = tv :: l.filterMap id := fun _ _ => rfl
      rw [List.replicate_succ, hcons, List.map_cons, List.sum_cons, ih]
      push_cast
      ring
  constructor
  · intro h
    rcases Nat.eq_zero_or_pos n with hn | hn
    · exact Or.inl hn
    · right
      -- Any call shows that the seconds fit, and then the sum is over so many equal values.
      obtain ⟨tv, htv, hsec, -, -, hvalue⟩ :=
        h.each _ (List.mem_replicate.mpr ⟨Nat.pos_iff_ne_zero.mp hn, rfl⟩)
      rw [Option.some_inj] at htv
      rw [← htv] at hsec hvalue
      refine ⟨hfits.mp ⟨hsec, hvalue⟩, ?_⟩
      have htotal := h.total
      rw [hsum, hvalue] at htotal
      by_contra hcon
      push Not at hcon
      have htwo : (2 : ℤ) * left ≤ n * left := by
        apply mul_le_mul_of_nonneg_right
        · omega
        · exact Int.natCast_nonneg left
      omega
  · rintro (rfl | ⟨hlt, hone⟩)
    · refine ⟨?_, by simp⟩
      intro call hcall
      cases hcall
    · obtain ⟨hsec, hvalue⟩ := hfits.mpr hlt
      refine ⟨?_, ?_⟩
      · intro call hcall
        exact ⟨_, (List.mem_replicate.mp hcall).2, hsec, husec.1, husec.2, hvalue⟩
      · rw [hsum, hvalue]
        rcases hone with rfl | hzero
        · simp
        · simp [hzero]

/-- Whether a pass keeps the earliest deadline. For every state whose timeout heap has the root `t`, and a
pass in which nothing becomes ready: every `timeval` that `select` is given is proper and stands for
exactly the time until the root is due, and they do not add up to more, if and only if `select` is not
called, or the seconds fit into an `int` and either one group is not skipped or the root is due
already. -/
theorem dispatch_punctual_iff (s : St) (t : ℕ) (hroot : s.heap.sleep_q = some t) :
    ∃ s' calls, s.timedPass (fun _ => noneReady) = some (s', calls) ∧
      (Punctual ((s.heap.node t).due - s.last_clock) calls ↔
        (List.range s.ev.num).countP (fun i => ¬s.Skips i) = 0 ∨
          ((s.heap.node t).due - s.last_clock < 2^31 * 1000000 ∧
            ((List.range s.ev.num).countP (fun i => ¬s.Skips i) = 1 ∨
              (s.heap.node t).due - s.last_clock = 0))) := by
  obtain ⟨s', hrun⟩ := timedGroups_noneReady (List.range s.ev.num) s []
  have hmin : s.minTimeout (s.heap.node t).due = (s.heap.node t).due - s.last_clock := by
    unfold minTimeout
    split_ifs with hle
    · omega
    · rfl
  have htimeout : s.selectTimeout =
      some (Timeval.ofMicroseconds ((s.heap.node t).due - s.last_clock)) := by
    unfold selectTimeout
    rw [hroot, Option.map_some, hmin]
  refine ⟨s', _, hrun, ?_⟩
  rw [List.nil_append, htimeout]
  exact punctual_replicate_iff _ _

/-- The descriptors `fds` are waited for, one call each. -/
def waitsOn (fds : List ℤ) : List Ev.Polls.Op :=
  fds.map fun fd => .register 1 [⟨fd, ⟨true, false, false, false⟩, Events.none⟩]

/-- Somebody waits for input on each of the descriptors, while the threads of the heap sleep. -/
def waits (fds : List ℤ) (heap : Heap) : St :=
  { blank 4096 0 with
    ev := (((Runs.run Ev.Polls.step Ev.Polls.init (waitsOn fds)).map (·.ev)).getD Ev.init)
    heap := heap }

/-- The pass is possible. Both descriptors are in one group, whose call of `select` gets the time until
the first thread is due. -/
theorem dispatch_punctual_iff_one :
    ∃ s' calls, (waits [5, 7] threeAsleep).timedPass (fun _ => noneReady) = some (s', calls) ∧
      Punctual 5 calls := by
  obtain ⟨s', calls, hrun, hiff⟩ := dispatch_punctual_iff (waits [5, 7] threeAsleep) 3 (by decide)
  refine ⟨s', calls, hrun, ?_⟩
  have hleft : ((waits [5, 7] threeAsleep).heap.node 3).due - (waits [5, 7] threeAsleep).last_clock =
      5 := by decide
  rw [hleft] at hiff
  exact hiff.mpr (Or.inr ⟨by decide, Or.inl (by decide)⟩)

/-- A thread that is due in `2^31` seconds. -/
def longAsleep : Heap := (Heap.empty.addSleepQ 0 1 (2^31 * 1000000)).get (by decide)

/-- With descriptors in two groups a pass waits twice, and with a very long sleep the seconds are
negative. -/
theorem dispatch_late :
    (∃ s' calls, (waits [5, 300] threeAsleep).timedPass (fun _ => noneReady) = some (s', calls) ∧
      calls = [some ⟨0, 5⟩, some ⟨0, 5⟩] ∧ ¬Punctual 5 calls) ∧
      ∃ s' calls, (waits [5] longAsleep).timedPass (fun _ => noneReady) = some (s', calls) ∧
        calls = [some ⟨-2147483648, 0⟩] ∧ ¬Punctual (2^31 * 1000000) calls := by
  refine ⟨⟨_, _, rfl, by decide, fun h => ?_⟩, ⟨_, _, rfl, by decide, fun h => ?_⟩⟩
  · exact absurd h.total (by decide)
  · obtain ⟨tv, htv, hsec, -⟩ := h.each (some ⟨-2147483648, 0⟩) (by decide)
    cases htv
    exact absurd hsec (by decide)

end St

end StWin
