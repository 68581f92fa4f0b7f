import StWin.Event.Revents
import StWin.Sched.Clock
import StWin.Sched.Others

/-!
# One group of a dispatch pass

`_st_select_dispatch_once` takes the pollqs that it notifies off the I/O queue and their interest off
the counts, and wakes their threads. `dispatchOnce` is both parts for one group, and a dispatch pass is
the groups one after another (`vpIdle_eq_foldlM`): the event system does not look at the threads, and
`wake` does not look at the event system.

`dispatchOnce_exact` says what a group does for which `select` succeeds, whatever it reports: exactly
the pollqs leave that asked for something that is ready, in their order, and nobody else is touched.
-/

namespace StWin.St

/-- `_st_select_dispatch_once` of group `i`, with the threads that it wakes. -/
def dispatchOnce (s : St) (i : ℕ) (outcome : SelectOutcome) : Option St :=
  let (ev, woken) := s.ev.dispatchOnce i outcome
  woken.foldlM (fun s pq => s.wake (s.ev.pollq pq).thread) (s.setEv ev)

/-- A group's turn in a pass wakes the threads whose pollqs it has notified, in order. -/
theorem dispatchOnce_eq (s : St) (i : ℕ) (outcome : SelectOutcome) :
    s.dispatchOnce i outcome = (s.ev.dispatchOnce i outcome).2.foldlM
      (fun (s : St) pq => s.wake (s.ev.pollq pq).thread) (s.setEv (s.ev.dispatchOnce i outcome).1) :=
  rfl

/-! ## Waking and the event system -/

/-- `wake` does not look at the event system. -/
theorem wake_setEv (s : St) (ev : Ev) (t : ℕ) : (s.setEv ev).wake t = (s.wake t).map (·.setEv ev) := by
  unfold wake leaveSleepQ
  by_cases hon : (s.thread t).flags.on_sleepq = true
  · have hon' : ((s.setEv ev).thread t).flags.on_sleepq = true := hon
    rw [if_pos hon, if_pos hon', delSleepQ, delSleepQ, Option.map_map, Option.map_map, Option.map_map]
    rfl
  · have hon' : ¬((s.setEv ev).thread t).flags.on_sleepq = true := hon
    rw [if_neg hon, if_neg hon']
    rfl

/-- The threads of some pollqs, in two states of the event system in which the pollqs belong to the
same threads. -/
theorem wakeAll_setEv (w : List ℕ) : ∀ {s : St} {ev : Ev},
    (∀ q, (ev.pollq q).thread = (s.ev.pollq q).thread) →
    w.foldlM (fun (s : St) pq => s.wake (s.ev.pollq pq).thread) (s.setEv ev) =
      (w.foldlM (fun (s : St) pq => s.wake (s.ev.pollq pq).thread) s).map (·.setEv ev) := by
  induction w with
  | nil => exact fun _ => rfl
  | cons q w ih =>
    intro s ev hthread
    rw [List.foldlM_cons, List.foldlM_cons, setEv_ev, hthread q, wake_setEv]
    cases hs₁ : s.wake (s.ev.pollq q).thread with
    | none => rfl
    | some s₁ =>
      have hev := (wake_ev hs₁).1
      rw [Option.map_some, Option.bind_eq_bind, Option.bind_some, Option.bind_some]
      exact ih fun q' => by rw [hev]; exact hthread q'

/-- What the groups of a pass notify is appended to what was notified before. -/
theorem dispatchFold_append (outcomes : ℕ → SelectOutcome) (l : List ℕ) : ∀ (ev : Ev) (w : List ℕ),
    l.foldl (Ev.dispatchGroup outcomes) (ev, w) =
      ((l.foldl (Ev.dispatchGroup outcomes) (ev, [])).1,
        w ++ (l.foldl (Ev.dispatchGroup outcomes) (ev, [])).2) := by
  induction l with
  | nil => exact fun ev w => by simp
  | cons i l ih =>
    intro ev w
    rw [List.foldl_cons, List.foldl_cons, Ev.dispatchGroup, Ev.dispatchGroup]
    dsimp only
    rw [ih _ (w ++ _), ih _ ([] ++ _), List.nil_append, List.append_assoc]

/-- A dispatch pass is the groups one after another. -/
theorem dispatchGroups_eq (outcomes : ℕ → SelectOutcome) (l : List ℕ) : ∀ {s : St},
    Ev.Counted s.ev →
    l.foldlM (fun s i => s.dispatchOnce i (outcomes i)) s =
      (l.foldl (Ev.dispatchGroup outcomes) (s.ev, [])).2.foldlM
        (fun s pq => s.wake (s.ev.pollq pq).thread)
        (s.setEv (l.foldl (Ev.dispatchGroup outcomes) (s.ev, [])).1) := by
  induction l with
  | nil => exact fun _ => rfl
  | cons i l ih =>
    intro s hc
    obtain ⟨-, hc₁⟩ := Ev.dispatchOnce_counted hc i (outcomes i)
    obtain ⟨w, hw, hnot, -⟩ := Ev.dispatchFold_counted outcomes l hc₁ []
    rw [List.foldlM_cons, dispatchOnce_eq, List.foldl_cons, Ev.dispatchGroup]
    dsimp only
    rw [List.nil_append, dispatchFold_append, List.foldlM_append]
    generalize (s.ev.dispatchOnce i (outcomes i)).2 = w₁
    generalize (s.ev.dispatchOnce i (outcomes i)).1 = ev₁ at hc₁ hw hnot ⊢
    -- The later groups leave the pollqs to their threads.
    have hset : s.setEv (l.foldl (Ev.dispatchGroup outcomes) (ev₁, [])).1 =
        (s.setEv ev₁).setEv (l.foldl (Ev.dispatchGroup outcomes) (ev₁, [])).1 := rfl
    rw [hset, @wakeAll_setEv w₁ (s.setEv ev₁) _ fun q => hnot.same.thread q]
    cases hs₁ : w₁.foldlM (fun s pq => s.wake (s.ev.pollq pq).thread) (s.setEv ev₁) with
    | none => rfl
    | some s₁ =>
      have hev : s₁.ev = ev₁ :=
        wakeAll_induct (R := fun s s' => s'.ev = s.ev) (fun _ => rfl) (fun h h' => h'.trans h)
          (fun h => (wake_ev h).1) w₁ hs₁
      rw [Option.bind_eq_bind, Option.bind_some, Option.map_some, Option.bind_some,
        ih (hev ▸ hc₁), hev]

/-- `_ST_VP_IDLE` is the groups of the table, one after another. -/
theorem vpIdle_eq_foldlM {s : St} (hc : Ev.Counted s.ev) (outcomes : ℕ → SelectOutcome) :
    s.vpIdle outcomes =
      (List.range s.ev.num).foldlM (fun s i => s.dispatchOnce i (outcomes i)) s := by
  rw [dispatchGroups_eq outcomes _ hc]
  rfl

/-- The value that `st_poll` returns is what the event system has for the call. -/
theorem pollEnd_polled (s : St) (me pq : ℕ) : s.pollEnd me pq =
    (s.setEv (s.ev.unregister pq)).interrupted me fun s' => some (s'.ret (.ok (s.ev.polled pq))) := by
  unfold pollEnd Ev.polled
  dsimp only
  split_ifs <;> rfl

/-! ## The threads that are woken -/

/-- From `s` to `s'` the threads of `l` were made runnable, in that order. -/
structure Awakened (s s' : St) (l : List ℕ) : Prop where
  run_q : s'.run_q = s.run_q ++ l
  woken : ∀ t ∈ l, s'.thread t = (s.thread t).woken
  others : ∀ t, t ∉ l → s'.thread t = s.thread t
  due : ∀ t, (s'.heap.node t).due = (s.heap.node t).due
  /-- Nothing else changes. -/
  rest : s' = { s with thread := s'.thread, heap := s'.heap, run_q := s'.run_q }

/-- A thread that is woken twice is as if it were woken once. -/
theorem woken_woken (th : Thread) : th.woken.woken = th.woken := rfl

/-- The threads of some pollqs are woken. -/
theorem wakeAll_awakened (w : List ℕ) : ∀ {s : St}, s.SleepOk →
    ∃ s', w.foldlM (fun (s : St) pq => s.wake (s.ev.pollq pq).thread) s = some s' ∧ s'.SleepOk ∧
      Awakened s s' (w.map fun q => (s.ev.pollq q).thread) := by
  induction w with
  | nil =>
    intro s h
    exact ⟨s, rfl, h, (List.append_nil _).symm, by simp, fun _ _ => rfl, fun _ => rfl, rfl⟩
  | cons q w ih =>
    intro s h
    generalize ht : (s.ev.pollq q).thread = t
    -- The thread of the first pollq, and then the others.
    obtain ⟨heap, hrun, hsleep⟩ := wake_eq h t
    obtain ⟨s', hrun', hsleep', ha⟩ := ih hsleep
    have hthread := fun u => (@wake_thread s (s.woken t heap) u t hrun).1
    have hdue := fun u => (@wake_thread s (s.woken t heap) u t hrun).2
    have hev : (s.woken t heap).ev = s.ev := rfl
    rw [hev] at ha
    refine ⟨s', ?_, hsleep', ?_⟩
    · rw [List.foldlM_cons, ht, hrun, Option.bind_eq_bind, Option.bind_some]
      exact hrun'
    · rw [List.map_cons, ht]
      refine ⟨?_, ?_, ?_, ?_, ha.rest⟩
      · rw [ha.run_q]
        exact List.append_assoc s.run_q [t] _
      · intro u hu
        by_cases hin : u ∈ w.map fun q => (s.ev.pollq q).thread
        · -- A thread may have several of the pollqs.
          rw [ha.woken u hin, hthread u]
          split_ifs
          · exact woken_woken _
          · rfl
        · have hut : u = t := (List.mem_cons.mp hu).resolve_right hin
          rw [ha.others u hin, hthread u, if_pos hut]
      · intro u hu
        rw [List.mem_cons, not_or] at hu
        rw [ha.others u hu.2, hthread u, if_neg hu.1]
      · intro u
        exact (ha.due u).trans (hdue u)

/-- The heap of the threads that are left. -/
theorem Awakened.heap {s s' : St} {l : List ℕ} {S : Finset ℕ} (h : Awakened s s' l)
    (hS : ∀ t, t ∈ S ↔ (s.thread t).flags.on_sleepq = true) (hsleep : s'.SleepOk) :
    Heap.Wf s'.heap (S.filter (· ∉ l)) := by
  obtain ⟨S', hw, hS'⟩ := hsleep
  have hset : S' = S.filter (· ∉ l) := by
    ext t
    rw [hS', Finset.mem_filter, hS]
    by_cases ht : t ∈ l
    · rw [h.woken t ht]
      simp [Thread.woken, ht]
    · rw [h.others t ht]
      simp [ht]
  rw [← hset]
  exact hw

/-! ## A group for which `select` succeeds -/

/-- What `_st_select_dispatch_once` of a group does when `select` leaves `ready` in the group's sets,
with the threads `S` in the timeout heap. -/
structure Dispatched (s : St) (S : Finset ℕ) (ready : Kind → Finset ℤ) (s' : St) : Prop where
  /-- The pollqs without a request that is ready stay, in their order. -/
  io_q : s'.ev.io_q = s.ev.io_q.filter fun q => !s.ev.anyReady ready q
  /-- The others leave. -/
  off : ∀ q ∈ s.ev.io_q, s.ev.anyReady ready q = true → (s'.ev.pollq q).on_ioq = false
  /-- The pollqs keep their threads and their requests. -/
  same : Ev.SameRequests s.ev s'.ev
  /-- The counts fall by the interest of the pollqs that leave. -/
  cnt : ∀ k fd, 0 < fd → s'.ev.getCnt k fd = s.ev.getCnt k fd -
    ((s.ev.io_q.filter (s.ev.anyReady ready)).map fun q => interest (s.ev.pollq q).pds k fd).sum
  /-- The threads of the pollqs that leave are made runnable, in the order of the queue. -/
  woken : Awakened (s.setEv s'.ev) s'
    ((s.ev.io_q.filter (s.ev.anyReady ready)).map fun q => (s.ev.pollq q).thread)
  /-- The timeout heap keeps the other threads. -/
  heap : Heap.Wf s'.heap (S.filter fun t =>
    t ∉ (s.ev.io_q.filter (s.ev.anyReady ready)).map fun q => (s.ev.pollq q).thread)
  /-- The invariant of the event system holds again. -/
  counted : Ev.Counted s'.ev

/-- A dispatch of one group notifies exactly the ready requests. For every state with exact counts and
a timeout heap of the threads that have `_ST_FL_ON_SLEEPQ` set, every group that is not skipped, and
every result of `select` that consists of parts of the group's sets: `_st_select_dispatch_once`
returns, and `Dispatched` says what it has done. -/
theorem dispatchOnce_exact (s : St) (S : Finset ℕ) (i : ℕ) (ready : Kind → Finset ℤ)
    (hc : Ev.Counted s.ev) (hw : Heap.Wf s.heap S)
    (hS : ∀ t, t ∈ S ↔ (s.thread t).flags.on_sleepq = true)
    (hcalled : 0 < (s.ev.data i).size ∧ 0 < (s.ev.data i).maxfd)
    (hready : ∀ k, ready k ⊆ (s.ev.data i).set k) :
    ∃ s', s.dispatchOnce i (.ready ready) = some s' ∧ Dispatched s S ready s' := by
  -- What the event system does: the pollqs with a ready request are notified.
  have hguard : ¬((s.ev.data i).size ≤ 0 ∨ (s.ev.data i).maxfd ≤ 0) := by omega
  have hset : (fun k => (s.ev.data i).set k ∩ ready k) = ready :=
    funext fun k => Finset.inter_eq_right.mpr (hready k)
  obtain ⟨hnot, hc'⟩ := Ev.dispatchOnce_counted hc i (.ready ready)
  have hwoken := Ev.dispatchOnce_ready hc hguard ready
  rw [hset] at hwoken
  rw [hwoken] at hnot
  rw [dispatchOnce_eq, hwoken]
  generalize (s.ev.dispatchOnce i (.ready ready)).1 = ev at hnot hc'
  -- Then their threads are woken.
  obtain ⟨s', hrun, hsleep, ha⟩ :=
    @wakeAll_awakened (s.ev.io_q.filter (s.ev.anyReady ready)) (s.setEv ev) ⟨S, hw, hS⟩
  have hthreads : (fun q => ((s.setEv ev).ev.pollq q).thread) = fun q => (s.ev.pollq q).thread :=
    funext hnot.same.thread
  rw [hthreads] at ha
  have hev : s'.ev = ev := by rw [ha.rest]; rfl
  have hstay : ev.io_q = s.ev.io_q.filter fun q => !s.ev.anyReady ready q := by
    rw [hnot.io_q]
    refine List.filter_congr fun q hq => ?_
    cases hany : s.ev.anyReady ready q <;> simp [hany, hq]
  refine ⟨s', hrun, ?_, ?_, hev ▸ hnot.same, ?_, hev ▸ ha, ha.heap hS hsleep, hev ▸ hc'⟩
  · rw [hev]
    exact hstay
  · intro q hq hany
    rw [hev]
    exact hnot.off q (List.mem_filter.mpr ⟨hq, hany⟩)
  · -- Both counts are exact, so that they differ by the interest of the pollqs that have left.
    intro k fd hfd
    rw [hev, hc'.exact k fd hfd, hc.exact k fd hfd]
    have hinterest : ev.total k fd =
        ((s.ev.io_q.filter fun q => !s.ev.anyReady ready q).map fun q =>
          interest (s.ev.pollq q).pds k fd).sum := by
      unfold Ev.total
      rw [hstay]
      congr 1
      exact List.map_congr_left fun q _ => hnot.same.interest q k fd
    have hsum := Ev.sum_filter_add s.ev.io_q (s.ev.anyReady ready) fun q =>
      interest (s.ev.pollq q).pds k fd
    rw [hinterest]
    unfold Ev.total
    rw [← hsum]
    push_cast
    ring

/-- Three threads wait for input, two of them on the same descriptor. -/
def threePolls : List Ev.Polls.Op :=
  [.register 1 [⟨5, ⟨true, false, false, false⟩, Events.none⟩],
    .register 2 [⟨7, ⟨true, false, false, false⟩, Events.none⟩],
    .register 3 [⟨5, ⟨true, false, false, false⟩, Events.none⟩,
      ⟨300, ⟨true, false, false, false⟩, Events.none⟩]]

/-- They have timeouts. -/
def threePolling : St :=
  { blank 4096 0 with
    ev := ((Runs.run Ev.Polls.step Ev.Polls.init threePolls).get (by decide)).ev
    heap := threeAsleep
    thread := fun t => { Thread.zero with
      state := .IO_WAIT
      flags := { Flags.zero with on_sleepq := decide (t ∈ ({1, 2, 3} : Finset ℕ)) } } }

/-- The shared descriptor becomes ready. -/
theorem dispatchOnce_exact_shared : ∃ s',
    threePolling.dispatchOnce 0 (.ready fun k => if k = .read then {5} else ∅) = some s' ∧
      Dispatched threePolling {1, 2, 3} (fun k => if k = .read then {5} else ∅) s' := by
  have hrun : Runs.run Ev.Polls.step Ev.Polls.init threePolls =
      some ((Runs.run Ev.Polls.step Ev.Polls.init threePolls).get (by decide)) :=
    (Option.some_get _).symm
  refine dispatchOnce_exact threePolling {1, 2, 3} 0 _ (Ev.Polls.run_inv hrun).counted
    threeAsleep_wf ?_ (by decide) ?_
  · intro t
    simp [threePolling]
  · intro k
    cases k <;> decide

end StWin.St
