import StWin.Event.Report

/-!
# Exactly who is notified

The notification loop of `_st_select_dispatch_once` tests readiness in the very sets that it clears
descriptors from, as counts fall to zero. `Spares` is why this hides nothing: a descriptor leaves a
set only with its last count, and a pollq that is still on the queue holds a count for each of its
requests. So a pollq is notified exactly if `select` has reported one of its requests, whoever is
served before it (`dispatchOnce_ready`). The scan for bad descriptors reads no sets, and is simpler
(`findBadFd_woken`).

`pqFold_woken` is the rule for both loops: where the test of a pollq does not depend on what the loop
has done before, the pollqs that are notified are those that pass the test, in the order of the queue.
-/

namespace StWin.Ev

/-! ## The rule for the loops -/

section rule

variable {test : Ev → Pollfd → Bool} {g : Ev → Pollfd → Pollfd} {f : Ev → Pollfd → Ev}
  (hf : Cuts f) (hfd : ∀ ev pd, (g ev pd).fd = pd.fd) (hev : ∀ ev pd, (g ev pd).events = pd.events)

include hf hfd hev in
/-- If each iteration keeps `K`, and under `K` the pollq `q` passes the test exactly if `P q`, the loop
notifies the pollqs for which `P` holds. -/
theorem pqFold_woken {K : Ev → Prop} {P : ℕ → Bool}
    (hK : ∀ ev woken q, Counted ev → q ∈ ev.io_q → K ev → K (pqStep test g f (ev, woken) q).1)
    (hP : ∀ ev q, Counted ev → q ∈ ev.io_q → K ev → (ev.pollq q).pds.any (test ev) = P q)
    (l : List ℕ) : ∀ {ev : Ev} (woken : List ℕ), Counted ev → K ev → l.Nodup →
      (∀ q ∈ l, q ∈ ev.io_q) →
      (l.foldl (pqStep test g f) (ev, woken)).2 = woken ++ l.filter P ∧
        K (l.foldl (pqStep test g f) (ev, woken)).1 := by
  induction l with
  | nil =>
    intro ev woken _ hk _ _
    exact ⟨by simp, hk⟩
  | cons q l ih =>
    intro ev woken hc hk hnodup hmem
    obtain ⟨hql, hnodup⟩ := List.nodup_cons.mp hnodup
    have hq := hmem q List.mem_cons_self
    obtain ⟨w, hw, hwoken, -, hc', -⟩ := @pqStep_counted test g f hf hfd hev ev hc q hq woken
    have hk' := hK ev woken q hc hq hk
    rw [hP ev q hc hq hk] at hw
    have hmem' : ∀ q' ∈ l, q' ∈ (pqStep test g f (ev, woken) q).1.io_q := fun q' hq' =>
      mem_pqStep_of_ne hf hfd hev hc hq woken (fun heq => hql (heq ▸ hq'))
        (hmem q' (List.mem_cons_of_mem _ hq'))
    obtain ⟨hrest, hk''⟩ :=
      @ih (pqStep test g f (ev, woken) q).1 (pqStep test g f (ev, woken) q).2 hc' hk' hnodup hmem'
    rw [List.foldl_cons]
    refine ⟨?_, hk''⟩
    calc (l.foldl (pqStep test g f) (pqStep test g f (ev, woken) q)).2
        = (woken ++ w) ++ l.filter P := by rw [← hwoken]; exact hrest
      _ = woken ++ (q :: l).filter P := by
        rw [List.filter_cons, hw, List.append_assoc]
        split_ifs <;> rfl

end rule

/-! ## Descriptors that stay in the sets -/

/-- From `ev` to `e`, a descriptor that still has a count is in every set that it was in. -/
def Spares (ev e : Ev) : Prop :=
  ∀ k fd, 0 < e.getCnt k fd →
    0 < ev.getCnt k fd ∧ ∀ i, fd ∈ (ev.data i).set k → fd ∈ (e.data i).set k

/-- Nothing has changed. -/
theorem Spares.refl (ev : Ev) : Spares ev ev := fun _ _ hpos => ⟨hpos, fun _ hmem => hmem⟩

/-- Two steps that leave descriptors with a count in their sets. -/
theorem Spares.trans {ev₁ ev₂ ev₃ : Ev} (h : Spares ev₁ ev₂) (h' : Spares ev₂ ev₃) :
    Spares ev₁ ev₃ := by
  intro k fd hpos
  obtain ⟨hpos₂, hkeep₂⟩ := h' k fd hpos
  obtain ⟨hpos₁, hkeep₁⟩ := h k fd hpos₂
  exact ⟨hpos₁, fun i hmem => hkeep₂ i (hkeep₁ i hmem)⟩

/-- The value that `_st_select_del_cnt` returns is the count afterwards. -/
theorem delCnt_snd (ev : Ev) (k : Kind) (fd : ℤ) :
    (ev.delCnt k fd).2 = (ev.delCnt k fd).1.getCnt k fd ∧
      (ev.delCnt k fd).1.getCnt k fd ≤ ev.getCnt k fd := by
  unfold delCnt
  cases hc : ev.cnt k fd with
  | none =>
    have hzero : ev.getCnt k fd = 0 := by rw [getCnt, hc]; rfl
    exact ⟨hzero.symm, le_rfl⟩
  | some c =>
    have hcnt : ev.getCnt k fd = c := by rw [getCnt, hc]; rfl
    dsimp only
    rw [getCnt_setCnt, if_pos ⟨rfl, rfl⟩, hcnt]
    exact ⟨rfl, by omega⟩

/-- A counter that is one less. -/
theorem delCnt_spares (ev : Ev) (k : Kind) (fd : ℤ) : Spares ev (ev.delCnt k fd).1 := by
  intro k' fd' hpos
  obtain ⟨-, -, hdata⟩ := delCnt_frame ev k fd
  refine ⟨?_, fun i hmem => by rw [hdata]; exact hmem⟩
  by_cases hsame : k' = k ∧ fd' = fd
  · obtain ⟨rfl, rfl⟩ := hsame
    exact lt_of_lt_of_le hpos (delCnt_snd ev k' fd').2
  · rwa [getCnt_delCnt_of_ne hsame] at hpos

/-- A descriptor leaves the set with its last count. -/
theorem cutKind_spares (gfd : ℤ) (pd : Pollfd) (ev : Ev) (k' : Kind) :
    Spares ev (cutKind gfd pd ev k') := by
  unfold cutKind
  split_ifs
  · dsimp only
    split_ifs with hzero
    · refine (delCnt_spares ev k' pd.fd).trans ?_
      intro k fd hpos
      rw [editSet, setData_getCnt] at hpos
      refine ⟨hpos, fun i hmem => ?_⟩
      -- What has a count is not the descriptor that is cleared.
      have hother : ¬(k = k' ∧ fd = pd.fd) := by
        rintro ⟨rfl, rfl⟩
        rw [(delCnt_snd ev k pd.fd).1] at hzero
        omega
      rw [editSet, setData_set]
      split_ifs
      · by_cases hk : k = k'
        · subst hk
          have hne : fd ≠ pd.fd := fun heq => hother ⟨rfl, heq⟩
          simp [hne, hmem]
        · simpa [hk] using hmem
      · exact hmem
    · exact delCnt_spares ev k' pd.fd
  · exact Spares.refl ev

/-- The body of the inner loop takes a descriptor out of a set only when its count is zero. -/
theorem notifyPd_spares (ev : Ev) (pd : Pollfd) : Spares ev (notifyPd ev pd) := by
  unfold notifyPd
  dsimp only
  split_ifs
  · exact Spares.refl ev
  · refine cutPd_induct (P := fun e => Spares ev e) _ pd ?_ (Spares.refl ev)
    intro e k h
    exact h.trans (cutKind_spares _ pd e k)

/-- The inner loop, by induction on the entries. -/
theorem notifyPds_spares (pds : List Pollfd) : ∀ ev : Ev, Spares ev (pds.foldl notifyPd ev) := by
  induction pds with
  | nil => exact Spares.refl
  | cons pd pds ih => exact fun ev => (notifyPd_spares ev pd).trans (ih _)

/-- The body of the outer loop. -/
theorem notifyPq_spares (i : ℕ) (ev : Ev) (woken : List ℕ) (q : ℕ) :
    Spares ev (notifyPq i (ev, woken) q).1 := by
  unfold notifyPq
  dsimp only
  split_ifs
  · have htake : Spares ev (ev.takeOff q ((ev.pollq q).pds.map (readyPd (ev.data i).set))) :=
      fun _ _ hpos => ⟨hpos, fun _ hmem => hmem⟩
    exact htake.trans (notifyPds_spares _ _)
  · exact fun _ _ hpos => ⟨hpos, fun _ hmem => hmem⟩

/-! ## The notification loop -/

/-- Whether one of the pollq's requests is in the sets. -/
def anyReady (ev : Ev) (set : Kind → Finset ℤ) (q : ℕ) : Bool := (ev.pollq q).pds.any (isReady set)

/-- A pollq is ready exactly when one of its entries has an event in the sets. -/
theorem anyReady_iff {ev : Ev} {set : Kind → Finset ℤ} {q : ℕ} : ev.anyReady set q = true ↔
    ∃ pd ∈ (ev.pollq q).pds, ∃ k, pd.events.has k = true ∧ pd.fd ∈ set k := by
  unfold anyReady
  rw [List.any_eq_true]
  simp only [isReady_iff]

/-- The states of the notification loop of group `i` that began at `ev`. -/
structure Serving (ev : Ev) (i : ℕ) (e : Ev) : Prop where
  table : TableOk ev
  same : SameRequests ev e
  spares : Spares ev e
  sub : ∀ k, (e.data i).set k ⊆ (ev.data i).set k

/-- The loop begins. -/
theorem Serving.refl {ev : Ev} (ht : TableOk ev) (i : ℕ) : Serving ev i ev :=
  ⟨ht, SameRequests.refl ev, Spares.refl ev, fun _ => subset_rfl⟩

/-- The loop goes on with the next pollq. -/
theorem notifyPq_serving {ev e : Ev} {i q : ℕ} (woken : List ℕ) (hc : Counted e) (hq : q ∈ e.io_q)
    (h : Serving ev i e) : Serving ev i (notifyPq i (e, woken) q).1 := by
  obtain ⟨w, -, -, hnot, -⟩ := @pqStep_counted (fun ev => isReady (ev.data i).set)
    (fun ev => readyPd (ev.data i).set) notifyPd cuts_notifyPd
    (fun e pd => readyPd_fd (e.data i).set pd) (fun e pd => readyPd_events (e.data i).set pd)
    e hc q hq woken
  refine ⟨h.table, h.same.trans hnot.same, h.spares.trans (notifyPq_spares i e woken q), ?_⟩
  intro k
  rw [notifyPq_eq]
  exact (pqStep_sub cuts_notifyPd e woken q i k).trans (h.sub k)

/-- While a pollq is on the queue, its requests are where they were. -/
theorem Serving.anyReady {ev e : Ev} {i q : ℕ} (hc : Counted e) (hq : q ∈ e.io_q)
    (h : Serving ev i e) : e.anyReady (e.data i).set q = ev.anyReady (ev.data i).set q := by
  rw [Bool.eq_iff_iff, anyReady_iff, anyReady_iff]
  constructor
  · rintro ⟨pd, hpd, k, hhas, hmem⟩
    obtain ⟨pd', hpd', hfd, hev⟩ := h.same.symm.exists_pd hpd
    exact ⟨pd', hpd', k, by rw [hev]; exact hhas, by rw [hfd]; exact h.sub k hmem⟩
  · rintro ⟨pd, hpd, k, hhas, hmem⟩
    obtain ⟨pd', hpd', hfd, hev⟩ := h.same.exists_pd hpd
    have hhas' : pd'.events.has k = true := by rw [hev]; exact hhas
    have hpos : 0 < e.getCnt k pd.fd := by
      rw [hc.exact k _ (h.table.sets i k _ hmem).1, Int.natCast_pos]
      exact total_pos.mpr ⟨q, hq, pd', hpd', hfd, hhas'⟩
    exact ⟨pd', hpd', k, hhas', by rw [hfd]; exact (h.spares k _ hpos).2 i hmem⟩

/-- The notification loop over pollqs on the queue. -/
theorem notifyFold_woken {ev : Ev} (hc : Counted ev) (i : ℕ) {l : List ℕ} (hl : l.Nodup)
    (hmem : ∀ q ∈ l, q ∈ ev.io_q) :
    (l.foldl (notifyPq i) (ev, [])).2 = l.filter (ev.anyReady (ev.data i).set) ∧
      Serving ev i (l.foldl (notifyPq i) (ev, [])).1 := by
  have hfold := @pqFold_woken (fun ev => isReady (ev.data i).set) (fun ev => readyPd (ev.data i).set)
    notifyPd cuts_notifyPd (fun e pd => readyPd_fd (e.data i).set pd)
    (fun e pd => readyPd_events (e.data i).set pd) (Serving ev i) (ev.anyReady (ev.data i).set)
    (fun _ woken _ hc hq h => notifyPq_serving woken hc hq h)
    (fun _ _ hc hq h => h.anyReady hc hq) l ev [] hc (Serving.refl hc.table i) hl hmem
  rw [List.nil_append] at hfold
  exact hfold

/-- If no set has a ready descriptor, no pollq has. -/
theorem anyReady_of_nfd {ev : Ev} {i : ℕ} (h : ¬0 < ev.nfd i) (q : ℕ) :
    ev.anyReady (ev.data i).set q = false := by
  by_contra hc
  rw [Bool.not_eq_false, anyReady_iff] at hc
  obtain ⟨pd, -, k, -, hmem⟩ := hc
  have hcard : 0 < ((ev.data i).set k).card := Finset.card_pos.mpr ⟨_, hmem⟩
  apply h
  unfold nfd
  cases k <;> omega

/-- The sets of group `i` after `select`. -/
theorem overwrite_set (ev : Ev) (i : ℕ) (ready : Kind → Finset ℤ) :
    ((ev.overwrite i ready).data i).set = fun k => (ev.data i).set k ∩ ready k := by
  simp [overwrite]

/-- `_st_select_dispatch_once` of a group for which `select` is called and succeeds: who is notified. -/
theorem dispatchOnce_ready {ev : Ev} (hc : Counted ev) {i : ℕ}
    (hcalled : ¬((ev.data i).size ≤ 0 ∨ (ev.data i).maxfd ≤ 0)) (ready : Kind → Finset ℤ) :
    (ev.dispatchOnce i (.ready ready)).2 =
      ev.io_q.filter (ev.anyReady fun k => (ev.data i).set k ∩ ready k) := by
  have hc' := overwrite_counted hc (lt_num_of_size hc.table (not_or.mp hcalled).1) ready
  unfold dispatchOnce
  rw [if_neg hcalled]
  dsimp only
  split_ifs with hnfd
  · rw [(notifyFold_woken hc' i hc'.nodup fun _ hq => hq).1, overwrite_set]
    rfl
  · have hnone := fun q => anyReady_of_nfd hnfd q
    rw [overwrite_set] at hnone
    exact (List.filter_eq_nil_iff.mpr fun q _ => by rw [← Bool.not_eq_false, not_not]; exact hnone q).symm

/-- The interest of a pollq is in its requests. -/
theorem SameRequests.interest {ev e : Ev} (h : SameRequests ev e) (q : ℕ) (k : Kind) (fd : ℤ) :
    interest (e.pollq q).pds k fd = interest (ev.pollq q).pds k fd := by
  have hcount : ∀ pds : List Pollfd, StWin.interest pds k fd =
      (pds.map fun pd => (pd.fd, pd.events)).countP fun r => decide (r.1 = fd) && r.2.has k := by
    intro pds
    rw [List.countP_map]
    rfl
  have hreq := h.requests q
  unfold Ev.requests at hreq
  rw [hcount, hcount, hreq]

/-- A sum over the queue, parted by a test. -/
theorem sum_filter_add (l : List ℕ) (P : ℕ → Bool) (f : ℕ → ℕ) :
    ((l.filter P).map f).sum + ((l.filter fun q => !P q).map f).sum = (l.map f).sum := by
  rw [← List.sum_append, ← List.map_append]
  exact ((List.filter_append_perm P l).map f).sum_eq

/-! ## The scan for bad descriptors -/

/-- Whether one of the pollq's descriptors is bad. -/
def anyBad (ev : Ev) (bad : ℤ → Bool) (q : ℕ) : Bool :=
  (ev.pollq q).pds.any fun pd => decide (pd.events ≠ Events.none) && bad pd.fd

/-- Only the requests count. -/
theorem SameRequests.anyBad {ev e : Ev} (h : SameRequests ev e) (bad : ℤ → Bool) (q : ℕ) :
    e.anyBad bad q = ev.anyBad bad q := by
  have hany : ∀ ev : Ev, ev.anyBad bad q =
      (Ev.requests (ev.pollq q)).any fun r => decide (r.2 ≠ Events.none) && bad r.1 := by
    intro ev
    simp [Ev.anyBad, Ev.requests, Function.comp_def]
  rw [hany, hany, h.requests q]

/-- `_st_select_find_bad_fd` notifies the pollqs with a bad descriptor. -/
theorem findBadFd_woken {ev : Ev} (hc : Counted ev) (bad : ℤ → Bool) :
    (ev.findBadFd bad).2 = ev.io_q.filter (ev.anyBad bad) := by
  obtain ⟨hc', -⟩ := @setData_counted ev hc
    (fun i => if i < ev.num then { ev.data i with maxfd := 0 } else ev.data i)
    (fun i => by split_ifs <;> rfl) (fun i hi => if_neg (by omega))
  have hfold := @pqFold_woken (fun _ pd => decide (pd.events ≠ Events.none) && bad pd.fd)
    (fun _ => badPd bad) badCutPd cuts_badCutPd (fun _ => badPd_fd bad) (fun _ => badPd_events bad)
    (SameRequests ev) (ev.anyBad bad) ?_ (fun _ q _ _ h => h.anyBad bad q) ev.io_q _ [] hc'
    ⟨fun _ => rfl, fun _ => rfl, rfl⟩ hc.nodup (fun _ hq => hq)
  · rw [List.nil_append] at hfold
    exact hfold.1
  · intro e woken q hce hq h
    obtain ⟨w, -, -, hnot, -⟩ := @pqStep_counted
      (fun _ pd => decide (pd.events ≠ Events.none) && bad pd.fd) (fun _ => badPd bad) badCutPd
      cuts_badCutPd (fun _ => badPd_fd bad) (fun _ => badPd_events bad) e hce q hq woken
    exact h.trans hnot.same

end StWin.Ev
