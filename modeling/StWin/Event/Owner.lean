import StWin.Event.Report

/-!
# The thread of a pollq

Only `st_poll` says whose pollq it is, when it registers it. This holds in every state of the event
system, whatever its counts are.
-/

namespace StWin.Ev

/-- The pollqs belong to the threads that they belonged to, and none was put on the I/O queue. -/
structure SameOwners (ev ev' : Ev) : Prop where
  thread : ∀ q, (ev'.pollq q).thread = (ev.pollq q).thread
  io_q : ∀ q ∈ ev'.io_q, q ∈ ev.io_q

/-- Nothing has changed. -/
theorem SameOwners.refl (ev : Ev) : SameOwners ev ev := ⟨fun _ => rfl, fun _ h => h⟩

/-- Two steps that leave the owners as they are. -/
theorem SameOwners.trans {ev₁ ev₂ ev₃ : Ev} (h : SameOwners ev₁ ev₂) (h' : SameOwners ev₂ ev₃) :
    SameOwners ev₁ ev₃ :=
  ⟨fun q => (h'.thread q).trans (h.thread q), fun q hq => h.io_q q (h'.io_q q hq)⟩

/-- A step that leaves the pollqs and the queue as they are. -/
theorem SameQueue.sameOwners {ev ev' : Ev} (h : SameQueue ev ev') : SameOwners ev ev' :=
  ⟨fun q => by rw [h.pollq], fun q hq => h.io_q ▸ hq⟩

/-- Other fields of one pollq are assigned to. -/
theorem SameOwners.update {ev ev' : Ev} {q : ℕ} {pq : Pollq}
    (hpollq : ev'.pollq = Function.update ev.pollq q pq) (hthread : pq.thread = (ev.pollq q).thread)
    (hio : ∀ q ∈ ev'.io_q, q ∈ ev.io_q) : SameOwners ev ev' := by
  refine ⟨fun q' => ?_, hio⟩
  rw [hpollq]
  by_cases hq : q' = q
  · rw [hq, Function.update_self, hthread]
  · rw [Function.update_of_ne hq]

/-- A state in a loop that began at `ev`, with the pollqs that it has notified. -/
structure Notifies (ev : Ev) (acc : Ev × List ℕ) : Prop where
  same : SameOwners ev acc.1
  woken : ∀ q ∈ acc.2, q ∈ ev.io_q

/-! ## Registration -/

/-- One event of an entry that is registered. -/
theorem addKind_sameQueue (gfd : ℤ) (pd : Pollfd) (ev : Ev) (k : Kind) :
    SameQueue ev (addKind gfd pd ev k) := by
  unfold addKind
  split_ifs
  · exact (setData_sameQueue _ _ _).trans (addCnt_frame _ k pd.fd).1
  · exact .refl ev

/-- One entry that is registered. -/
theorem addPd_sameQueue (ev : Ev) (pd : Pollfd) : SameQueue ev (ev.addPd pd) := by
  unfold addPd
  split_ifs
  · exact .refl ev
  · refine .trans ?_ (setData_sameQueue _ _ _)
    have hkinds : ∀ (ks : List Kind) (ev : Ev), SameQueue ev (ks.foldl (addKind (getGfd pd.fd) pd) ev) := by
      intro ks
      induction ks with
      | nil => exact SameQueue.refl
      | cons k ks ih => exact fun ev => (addKind_sameQueue _ pd ev k).trans (ih _)
    exact (ev.checkSeldata_frame _).1.trans (hkinds _ _)

/-- `_st_select_pollset_add` writes counts and sets only. -/
theorem pollsetAdd_sameQueue (pds : List Pollfd) : ∀ ev : Ev, SameQueue ev (ev.pollsetAdd pds) := by
  induction pds with
  | nil => exact SameQueue.refl
  | cons pd pds ih => exact fun ev => (ev.addPd_sameQueue pd).trans (ih _)

/-- The pollq that is registered belongs to the caller. -/
theorem register_owner (ev : Ev) (thread : ℕ) (pds : List Pollfd) {q : ℕ}
    (hq : q ∈ (ev.register thread pds).io_q) :
    (q ∈ ev.io_q ∧ ((ev.register thread pds).pollq q).thread = (ev.pollq q).thread) ∨
      ((ev.register thread pds).pollq q).thread = thread := by
  have hsame := pollsetAdd_sameQueue pds ev
  unfold register at hq ⊢
  dsimp only at hq ⊢
  rw [hsame.pollq]
  by_cases hnew : q = (ev.pollsetAdd pds).next
  · rw [hnew, Function.update_self]
    exact Or.inr rfl
  · rw [Function.update_of_ne hnew]
    rw [hsame.io_q] at hq
    exact Or.inl ⟨by simpa [hnew] using hq, rfl⟩

/-- Removal takes a pollq off the queue only. -/
theorem unregister_sameOwners (ev : Ev) (q : ℕ) : SameOwners ev (ev.unregister q) := by
  unfold unregister
  split_ifs
  · have hcut := (cuts_delPd.foldl_queue (ev.pollq q).pds { ev with io_q := ev.io_q.erase q }).sameOwners
    exact ⟨hcut.thread, fun p hp => List.mem_of_mem_erase (hcut.io_q p hp)⟩
  · exact .refl ev

/-! ## Dispatch -/

/-- The loop body of the notification loops. -/
theorem Notifies.pqStep {test : Ev → Pollfd → Bool} {g : Ev → Pollfd → Pollfd}
    {f : Ev → Pollfd → Ev} (hf : Cuts f) {ev : Ev} {acc : Ev × List ℕ} (h : Notifies ev acc) {q : ℕ}
    (hq : q ∈ ev.io_q) : Notifies ev (Ev.pqStep test g f acc q) := by
  unfold Ev.pqStep
  dsimp only
  split_ifs
  · refine ⟨(h.same.trans ?_).trans (hf.foldl_queue _ _).sameOwners, fun p hp => ?_⟩
    · exact .update rfl rfl fun p => List.mem_of_mem_erase
    · rcases List.mem_append.mp hp with hold | hnew
      · exact h.woken p hold
      · obtain rfl : p = q := by simpa using hnew
        exact hq
  · exact ⟨h.same.trans (.update rfl rfl fun _ hp => hp), h.woken⟩

/-- The loop goes over the I/O queue. -/
theorem Notifies.loop {test : Ev → Pollfd → Bool} {g : Ev → Pollfd → Pollfd} {f : Ev → Pollfd → Ev}
    (hf : Cuts f) {ev ev' : Ev} (h : SameOwners ev ev') :
    Notifies ev (ev'.io_q.foldl (Ev.pqStep test g f) (ev', [])) :=
  List.foldlRecOn ev'.io_q _ ⟨h, by simp⟩ fun _ hacc q hq => hacc.pqStep hf (h.io_q q hq)

/-- A group's turn in a pass notifies pollqs of the I/O queue only. -/
theorem dispatchOnce_notifies (ev : Ev) (i : ℕ) (outcome : SelectOutcome) :
    Notifies ev (ev.dispatchOnce i outcome) := by
  have hnobody : ∀ {ev' : Ev}, SameOwners ev ev' → Notifies ev (ev', []) := fun h => ⟨h, by simp⟩
  -- Both loops begin after assignments to the descriptor sets.
  have hdata : ∀ ev' : Ev, ev'.io_q = ev.io_q → ev'.pollq = ev.pollq → SameOwners ev ev' :=
    fun ev' hio hpollq => ⟨fun q => by rw [hpollq], fun q hq => hio ▸ hq⟩
  unfold dispatchOnce
  split_ifs
  · exact hnobody (.refl ev)
  · cases outcome with
    | ready set =>
      dsimp only
      split_ifs
      · rw [notifyPq_eq]
        exact .loop cuts_notifyPd (hdata (ev.overwrite i set) rfl rfl)
      · exact hnobody (hdata _ rfl rfl)
    | error ebadf bad =>
      dsimp only
      split_ifs
      · unfold findBadFd
        rw [badPq_eq]
        exact .loop cuts_badCutPd (hdata _ rfl rfl)
      · exact hnobody (.refl ev)

/-- A dispatch pass gives no pollq to another thread, and notifies those on the I/O queue. -/
theorem dispatch_notifies (ev : Ev) (outcomes : ℕ → SelectOutcome) :
    Notifies ev (ev.dispatch outcomes) := by
  refine List.foldlRecOn (List.range ev.num) _ ⟨.refl ev, by simp⟩ fun acc hacc i _ => ?_
  have honce := acc.1.dispatchOnce_notifies i (outcomes i)
  refine ⟨hacc.same.trans honce.same, fun q hq => ?_⟩
  rcases List.mem_append.mp hq with hold | hnew
  · exact hacc.woken q hold
  · exact hacc.same.io_q q (honce.woken q hnew)

end StWin.Ev
