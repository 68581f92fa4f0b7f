import StWin.Event.Runs

/-!
# Who is notified

A dispatch pass notifies a pollq only if `select` has reported one of its events, or if the pass has
looked for bad descriptors and one of its own is bad. The pollq is then off the I/O queue with an entry
whose `revents` are not zero, and nothing in the event system writes to it any more, so that is what
the rest of `st_poll` finds.
-/

namespace StWin.Ev

/-- The outcome of `select` concerns the pollq: an event that it asks for is ready, or the call
failed with `EBADF` and a descriptor of the pollq is bad. -/
def Reported (ev : Ev) (q : ℕ) (outcome : SelectOutcome) : Prop :=
  ∃ pd ∈ (ev.pollq q).pds,
    match outcome with
    | .ready set => isReady set pd = true
    | .error ebadf bad => ebadf = true ∧ pd.events ≠ Events.none ∧ bad pd.fd = true

instance (ev : Ev) (q : ℕ) (outcome : SelectOutcome) : Decidable (Reported ev q outcome) :=
  match outcome with
  | .ready set => inferInstanceAs (Decidable (∃ pd ∈ (ev.pollq q).pds, isReady set pd = true))
  | .error ebadf bad => inferInstanceAs (Decidable (∃ pd ∈ (ev.pollq q).pds,
      ebadf = true ∧ pd.events ≠ Events.none ∧ bad pd.fd = true))

/-- Only the requests count. -/
theorem Reported.of_same {ev e : Ev} (h : SameRequests ev e) {q : ℕ} {outcome : SelectOutcome}
    (hr : e.Reported q outcome) : ev.Reported q outcome := by
  obtain ⟨pd, hpd, hcase⟩ := hr
  obtain ⟨pd', hpd', hfd, hev⟩ := h.symm.exists_pd hpd
  refine ⟨pd', hpd', ?_⟩
  cases outcome with
  | ready set =>
    obtain ⟨k, hhas, hmem⟩ := isReady_iff.mp hcase
    exact isReady_iff.mpr ⟨k, by rw [hev]; exact hhas, by rw [hfd]; exact hmem⟩
  | error ebadf bad =>
    dsimp only at hcase ⊢
    rw [hfd, hev]
    exact hcase

/-- One group. -/
theorem dispatchOnce_reported {ev : Ev} (h : Counted ev) (i : ℕ) (outcome : SelectOutcome) {q : ℕ}
    (hq : q ∈ (ev.dispatchOnce i outcome).2) : ev.Reported q outcome := by
  unfold dispatchOnce at hq
  split_ifs at hq with hguard
  · cases hq
  · rw [not_or] at hguard
    cases outcome with
    | ready set =>
      have hc := overwrite_counted h (lt_num_of_size h.table hguard.1) set
      dsimp only at hq
      split_ifs at hq
      · obtain ⟨w, hw, -, -, -, hsub, hmid⟩ := @pqFold_counted (fun ev => isReady (ev.data i).set)
          (fun ev => readyPd (ev.data i).set) notifyPd cuts_notifyPd
          (fun e pd => readyPd_fd (e.data i).set pd) (fun e pd => readyPd_events (e.data i).set pd)
          (ev.overwrite i set).io_q (ev.overwrite i set) hc hc.nodup (fun _ hq => hq) []
        rw [notifyPq_eq, hw, List.nil_append] at hq
        obtain ⟨e, he, hiff⟩ := hmid q (hsub q hq)
        obtain ⟨pd, hpd, htest⟩ := List.any_eq_true.mp (hiff.mp hq)
        obtain ⟨k, hhas, hmem⟩ := isReady_iff.mp htest
        -- The sets have not grown since `select` overwrote them.
        have hin : pd.fd ∈ set k := by
          have := he.sub i k hmem
          simp only [overwrite, Function.update_self, Finset.mem_inter] at this
          exact this.2
        have hsame : SameRequests ev e := ⟨he.same.requests, he.same.thread, he.same.next⟩
        exact Reported.of_same hsame ⟨pd, hpd, isReady_iff.mpr ⟨k, hhas, hin⟩⟩
      · cases hq
    | error ebadf bad =>
      dsimp only at hq
      split_ifs at hq with hebadf
      · obtain ⟨e, hsame, pd, hpd, hbad⟩ := (findBadFd_counted h bad).2.2.2 q hq
        exact Reported.of_same hsame ⟨pd, hpd, hebadf, hbad⟩
      · cases hq

/-- The groups of a pass, one after another. -/
theorem dispatchFold_reported (outcomes : ℕ → SelectOutcome) (l : List ℕ) : ∀ {ev : Ev}, Counted ev →
    ∀ (woken : List ℕ) {q : ℕ}, q ∈ (l.foldl (dispatchGroup outcomes) (ev, woken)).2 →
      q ∈ woken ∨ ∃ i ∈ l, ev.Reported q (outcomes i) := by
  induction l with
  | nil => exact fun _ _ _ hq => Or.inl hq
  | cons i l ih =>
    intro ev h woken q hq
    obtain ⟨hnot, hc⟩ := dispatchOnce_counted h i (outcomes i)
    rcases ih hc _ hq with hq | ⟨j, hj, hr⟩
    · rcases List.mem_append.mp hq with hq | hq
      · exact Or.inl hq
      · exact Or.inr ⟨i, List.mem_cons_self, dispatchOnce_reported h i _ hq⟩
    · exact Or.inr ⟨j, List.mem_cons_of_mem i hj, hr.of_same hnot.same⟩

/-- A dispatch pass notifies only those to whom something is reported. -/
theorem dispatch_reported {ev : Ev} (h : Counted ev) {outcomes : ℕ → SelectOutcome} {q : ℕ}
    (hq : q ∈ (ev.dispatch outcomes).2) : ∃ i < ev.num, ev.Reported q (outcomes i) := by
  rcases dispatchFold_reported outcomes _ h [] hq with hq | ⟨i, hi, hr⟩
  · cases hq
  · exact ⟨i, List.mem_range.mp hi, hr⟩

/-! ## What a notified thread finds -/

/-- The pollq is off the I/O queue, with an entry whose `revents` are not zero. -/
structure Found (ev : Ev) (q : ℕ) : Prop where
  off : (ev.pollq q).on_ioq = false
  revents : ∃ pd ∈ (ev.pollq q).pds, pd.revents ≠ Events.none

/-- What a thread finds depends on its pollq only. -/
theorem Found.congr {ev ev' : Ev} {q : ℕ} (h : ev.Found q) (heq : ev'.pollq q = ev.pollq q) :
    ev'.Found q := by
  obtain ⟨hoff, hrev⟩ := h
  rw [← heq] at hoff hrev
  exact ⟨hoff, hrev⟩

/-- The decrements leave the pollqs alone. -/
theorem Cuts.foldl_queue {f : Ev → Pollfd → Ev} (hf : Cuts f) (pds : List Pollfd) :
    ∀ ev : Ev, SameQueue ev (pds.foldl f ev) := by
  induction pds with
  | nil => exact SameQueue.refl
  | cons pd pds ih => exact fun ev => (hf.queue ev pd).trans (ih (f ev pd))

section pqStep

variable {test : Ev → Pollfd → Bool} {g : Ev → Pollfd → Pollfd} {f : Ev → Pollfd → Ev}
  (hf : Cuts f) (hg : ∀ ev pd, test ev pd = true → (g ev pd).revents ≠ Events.none)

include hf in
/-- Another pollq. -/
theorem pqStep_of_ne (acc : Ev × List ℕ) {q q' : ℕ} (hne : q ≠ q') :
    (pqStep test g f acc q').1.pollq q = acc.1.pollq q ∧
      (q ∈ (pqStep test g f acc q').2 ↔ q ∈ acc.2) := by
  unfold pqStep
  dsimp only
  split_ifs
  · refine ⟨?_, by simp [hne]⟩
    rw [(hf.foldl_queue _ _).pollq]
    exact Function.update_of_ne hne _ _
  · exact ⟨Function.update_of_ne hne _ _, Iff.rfl⟩

include hf hg in
/-- The pollq itself. -/
theorem pqStep_found (acc : Ev × List ℕ) {q : ℕ} (hnot : q ∉ acc.2)
    (hq : q ∈ (pqStep test g f acc q).2) : (pqStep test g f acc q).1.Found q := by
  unfold pqStep at hq ⊢
  dsimp only at hq ⊢
  split_ifs at hq ⊢ with hany
  · obtain ⟨pd, hpd, htest⟩ := List.any_eq_true.mp hany
    refine ⟨?_, g acc.1 pd, ?_, hg acc.1 pd htest⟩
    · rw [(hf.foldl_queue _ _).pollq]
      simp [takeOff]
    · rw [(hf.foldl_queue _ _).pollq]
      simp only [takeOff, Function.update_self]
      exact List.mem_map_of_mem hpd
  · exact absurd hq hnot

include hf in
/-- Pollqs that a notification loop does not come to. -/
theorem pqFold_of_notMem (l : List ℕ) : ∀ (acc : Ev × List ℕ) {q : ℕ}, q ∉ l →
    (l.foldl (pqStep test g f) acc).1.pollq q = acc.1.pollq q ∧
      (q ∈ (l.foldl (pqStep test g f) acc).2 ↔ q ∈ acc.2) := by
  induction l with
  | nil => exact fun _ _ _ => ⟨rfl, Iff.rfl⟩
  | cons q' l ih =>
    intro acc q hq
    obtain ⟨hne, hq⟩ := List.ne_and_not_mem_of_not_mem_cons hq
    obtain ⟨hpq, hmem⟩ := ih (pqStep test g f acc q') hq
    obtain ⟨hpq', hmem'⟩ := @pqStep_of_ne test g f hf acc q q' hne
    exact ⟨hpq.trans hpq', hmem.trans hmem'⟩

include hf hg in
/-- Pollqs that a notification loop notifies. -/
theorem pqFold_found (l : List ℕ) : ∀ (acc : Ev × List ℕ) {q : ℕ}, l.Nodup → q ∉ acc.2 →
    q ∈ (l.foldl (pqStep test g f) acc).2 → (l.foldl (pqStep test g f) acc).1.Found q := by
  induction l with
  | nil => exact fun _ _ _ hnot hq => absurd hq hnot
  | cons q' l ih =>
    intro acc q hnodup hnot hq
    obtain ⟨hq', hnodup⟩ := List.nodup_cons.mp hnodup
    rw [List.foldl_cons] at hq ⊢
    by_cases hne : q = q'
    · subst hne
      -- Once the loop has passed it, the pollq stays as it is.
      obtain ⟨hpq, hmem⟩ := @pqFold_of_notMem test g f hf l (pqStep test g f acc q) q hq'
      exact (pqStep_found hf hg acc hnot (hmem.mp hq)).congr hpq
    · refine ih _ hnodup ?_ hq
      rw [(pqStep_of_ne hf acc hne).2]
      exact hnot

end pqStep

/-- An entry that asks to notify gets an event. -/
theorem readyPd_revents {set : Kind → Finset ℤ} {pd : Pollfd} (h : isReady set pd = true) :
    (readyPd set pd).revents ≠ Events.none := by
  obtain ⟨k, hhas, hmem⟩ := isReady_iff.mp h
  rw [readyPd, if_neg]
  · intro heq
    cases k <;> simp_all [Events.none, Events.has]
  · rintro ⟨hr, hw, he⟩
    cases k <;> simp_all

/-- An entry with a bad descriptor gets `POLLNVAL`. -/
theorem badPd_revents {bad : ℤ → Bool} {pd : Pollfd}
    (h : (decide (pd.events ≠ Events.none) && bad pd.fd) = true) :
    (badPd bad pd).revents ≠ Events.none := by
  rw [Bool.and_eq_true, decide_eq_true_iff] at h
  rw [badPd, if_pos h]
  simp [Events.none]

/-- One group: who is notified finds something, and who is not on the queue is left alone. -/
theorem dispatchOnce_found {ev : Ev} (h : Counted ev) (i : ℕ) (outcome : SelectOutcome) (q : ℕ) :
    (q ∈ (ev.dispatchOnce i outcome).2 → (ev.dispatchOnce i outcome).1.Found q) ∧
      (q ∉ ev.io_q → (ev.dispatchOnce i outcome).1.pollq q = ev.pollq q) := by
  unfold dispatchOnce
  split_ifs
  · exact ⟨fun hq => (by cases hq), fun _ => rfl⟩
  · cases outcome with
    | ready set =>
      dsimp only
      split_ifs
      · rw [notifyPq_eq]
        refine ⟨pqFold_found cuts_notifyPd (fun e pd => readyPd_revents) _ _ h.nodup (by simp), ?_⟩
        exact fun hq => (pqFold_of_notMem cuts_notifyPd _ _ hq).1
      · exact ⟨fun hq => (by cases hq), fun _ => rfl⟩
    | error ebadf bad =>
      dsimp only
      split_ifs
      · unfold findBadFd
        dsimp only
        rw [badPq_eq]
        refine ⟨pqFold_found cuts_badCutPd (fun e pd => badPd_revents) _ _ h.nodup (by simp), ?_⟩
        exact fun hq => (pqFold_of_notMem cuts_badCutPd _ _ hq).1
      · exact ⟨fun hq => (by cases hq), fun _ => rfl⟩

/-- Whom the groups of a pass notify finds an entry with `revents`, and a pollq that is off the queue
already stays as it is. The induction is on the groups. -/
theorem dispatchFold_found (outcomes : ℕ → SelectOutcome) (l : List ℕ) : ∀ {ev : Ev}, Counted ev →
    ∀ (woken : List ℕ) {q : ℕ},
      ((q ∈ woken → ev.Found q ∧ q ∉ ev.io_q) →
        q ∈ (l.foldl (dispatchGroup outcomes) (ev, woken)).2 →
        (l.foldl (dispatchGroup outcomes) (ev, woken)).1.Found q) ∧
      (q ∉ ev.io_q → (l.foldl (dispatchGroup outcomes) (ev, woken)).1.pollq q = ev.pollq q) := by
  induction l with
  | nil => exact fun _ _ _ => ⟨fun hold hq => (hold hq).1, fun _ => rfl⟩
  | cons i l ih =>
    intro ev h woken q
    obtain ⟨hnot, hc⟩ := dispatchOnce_counted h i (outcomes i)
    obtain ⟨hfound, hkeep⟩ := dispatchOnce_found h i (outcomes i) q
    obtain ⟨ihfound, ihkeep⟩ := @ih _ hc (woken ++ (ev.dispatchOnce i (outcomes i)).2) q
    -- Whoever is off the queue stays off it.
    have hoff : q ∉ ev.io_q → q ∉ (ev.dispatchOnce i (outcomes i)).1.io_q := by
      intro hq hmem
      rw [hnot.io_q] at hmem
      exact hq (List.mem_of_mem_filter hmem)
    rw [List.foldl_cons]
    refine ⟨fun hold => ihfound fun hq => ?_, fun hq => (ihkeep (hoff hq)).trans (hkeep hq)⟩
    rcases List.mem_append.mp hq with hq | hq
    · obtain ⟨hf, hio⟩ := hold hq
      exact ⟨hf.congr (hkeep hio), hoff hio⟩
    · refine ⟨hfound hq, fun hmem => ?_⟩
      rw [hnot.io_q] at hmem
      simp [hq] at hmem

/-- A dispatch pass: who is notified finds something. -/
theorem dispatch_found {ev : Ev} (h : Counted ev) {outcomes : ℕ → SelectOutcome} {q : ℕ}
    (hq : q ∈ (ev.dispatch outcomes).2) : (ev.dispatch outcomes).1.Found q :=
  (dispatchFold_found outcomes _ h []).1 (fun hq => by cases hq) hq

/-- A dispatch pass leaves the pollqs alone that are not on the queue. -/
theorem dispatch_pollq {ev : Ev} (h : Counted ev) (outcomes : ℕ → SelectOutcome) {q : ℕ}
    (hq : q ∉ ev.io_q) : (ev.dispatch outcomes).1.pollq q = ev.pollq q :=
  (dispatchFold_found outcomes _ h []).2 hq

/-! ## Pollqs that are off the queue -/

/-- From `ev` to `ev'` the pollqs that are off the I/O queue have stayed off it, as they were. -/
structure Kept (ev ev' : Ev) : Prop where
  next : ev.next ≤ ev'.next
  pollq : ∀ q < ev.next, q ∉ ev.io_q → ev'.pollq q = ev.pollq q ∧ q ∉ ev'.io_q

/-- Nothing has changed. -/
theorem Kept.refl (ev : Ev) : Kept ev ev := ⟨le_rfl, fun _ _ hq => ⟨rfl, hq⟩⟩

/-- Two steps that leave alone the pollqs that are off the queue. -/
theorem Kept.trans {ev₁ ev₂ ev₃ : Ev} (h : Kept ev₁ ev₂) (h' : Kept ev₂ ev₃) : Kept ev₁ ev₃ := by
  refine ⟨h.next.trans h'.next, fun q hlt hq => ?_⟩
  obtain ⟨hpq, hq'⟩ := h.pollq q hlt hq
  obtain ⟨hpq', hq''⟩ := h'.pollq q (hlt.trans_le h.next) hq'
  exact ⟨hpq'.trans hpq, hq''⟩

/-- Registration makes a new pollq only. -/
theorem register_kept {ev : Ev} (h : Counted ev) (thread : ℕ) (pds : List Pollfd) :
    Kept ev (ev.register thread pds) := by
  obtain ⟨hio, hpq, hnext⟩ := register_queue h thread pds
  refine ⟨by omega, fun q hlt hq => ⟨?_, ?_⟩⟩
  · rw [hpq, Function.update_of_ne (by omega)]
  · rw [hio]
    simp only [List.mem_append, List.mem_singleton, not_or]
    exact ⟨hq, by omega⟩

/-- Removal takes a pollq off the queue only. -/
theorem unregister_kept (ev : Ev) (q : ℕ) : Kept ev (ev.unregister q) := by
  unfold unregister
  split_ifs
  · obtain ⟨hio, hpq, hnext⟩ := cuts_delPd.foldl_queue (ev.pollq q).pds
      { ev with io_q := ev.io_q.erase q }
    refine ⟨le_of_eq hnext.symm, fun q' _ hq' => ⟨congrFun hpq q', fun hmem => ?_⟩⟩
    unfold pollsetDel at hmem
    rw [hio] at hmem
    exact hq' (List.mem_of_mem_erase hmem)
  · exact Kept.refl ev

/-- A dispatch pass goes through the pollqs on the queue only. -/
theorem dispatch_kept {ev : Ev} (h : Counted ev) (outcomes : ℕ → SelectOutcome) :
    Kept ev (ev.dispatch outcomes).1 := by
  obtain ⟨hnot, -⟩ := dispatch_counted h outcomes
  refine ⟨le_of_eq hnot.same.next.symm, fun q _ hq => ⟨dispatch_pollq h outcomes hq, fun hmem => ?_⟩⟩
  rw [hnot.io_q] at hmem
  exact hq (List.mem_of_mem_filter hmem)

end StWin.Ev
