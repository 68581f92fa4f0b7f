import StWin.Event.Groups

/-!
# The indices into the table of groups

Four loops over `pollfd` entries use the entry's group: those of `_st_select_pollset_add`,
`_st_select_pollset_del`, `_st_select_dispatch_once`, and `_st_select_find_bad_fd`. The first two skip
descriptors up to zero and entries without events. The others do not. For a descriptor that is not above
`1 - FD_SETSIZE` the group is negative, and these loops use it; and the scan for bad descriptors grows the
table and raises `maxfd` for an entry without events.

`Access` is a use of the table, with the state at the time, and `run_indices_safe` says that in every run
whose passes notify no such entry, every use is in order.
-/

namespace StWin.Ev

/-! ## The loops -/

/-- The body of a loop over `pollfd` entries. -/
structure Body where
  run : Ev → Pollfd → Ev
  /-- The state after the call of `_st_select_check_seldata`, if there is one. -/
  grown : Ev → Pollfd → Ev
  /-- The index into `_st_select_data`, unless the entry is skipped. -/
  index : Ev → Pollfd → Option ℤ

/-- The loop body of `_st_select_pollset_add`. -/
def addBody : Body where
  run := addPd
  grown ev pd := if pd.fd ≤ 0 ∨ pd.events = Events.none then ev else ev.checkSeldata (getGfd pd.fd)
  index _ pd := if pd.fd ≤ 0 ∨ pd.events = Events.none then none else some (getGfd pd.fd)

/-- The loop body of `_st_select_pollset_del`. -/
def delBody : Body where
  run := delPd
  grown ev _ := ev
  index ev pd :=
    if pd.fd ≤ 0 ∨ pd.events = Events.none ∨ (ev.num : ℤ) ≤ getGfd pd.fd then none
    else some (getGfd pd.fd)

/-- The decrements of `_st_select_dispatch_once`. -/
def notifyBody : Body where
  run := notifyPd
  grown ev _ := ev
  index ev pd := if (ev.num : ℤ) ≤ getGfd pd.fd then none else some (getGfd pd.fd)

/-- The decrements of `_st_select_find_bad_fd`. -/
def badBody : Body where
  run := badCutPd
  grown ev pd := ev.checkSeldata (getGfd pd.fd)
  index _ pd := some (getGfd pd.fd)

/-- A use of the table. -/
inductive Access where
  /-- A loop over the groups uses `_st_select_data[i]`. -/
  | group (i : ℕ) (ev : Ev)
  /-- A loop over entries comes to the entry `pd`. -/
  | entry (b : Body) (pd : Pollfd) (ev : Ev)

/-- The groups are allocated, and have their positions as indices. -/
def Indexed (ev : Ev) : Prop := ∀ i < ev.num, (ev.data i).index = i

/-- From `ev` to `e` the groups of the table stay as they are. -/
def SameGroups (ev e : Ev) : Prop := ∀ i < ev.num, e.data i = ev.data i

/-- A use of the group of an entry is in order. -/
structure Body.Ok (b : Body) (ev : Ev) (pd : Pollfd) : Prop where
  inside : ∀ gfd, b.index ev pd = some gfd → 0 ≤ gfd ∧ gfd < (b.grown ev pd).num
  indexed : Indexed (b.grown ev pd)
  /-- Growth preserves the groups. -/
  grows : ev.num ≤ (b.grown ev pd).num ∧ SameGroups ev (b.grown ev pd)
  /-- Entries with nothing to wait for change no group. -/
  skipped : pd.fd ≤ 0 ∨ pd.events = Events.none →
    (b.run ev pd).num = ev.num ∧ SameGroups ev (b.run ev pd)

/-- The indices of a use are within the tables that it reads and writes. -/
def Access.Ok : Access → Prop
  | .group i ev => i < ev.num ∧ Indexed ev
  | .entry b pd ev => b.Ok ev pd

/-! ## The uses of a step -/

/-- The uses of a loop over entries. -/
def Body.accesses (b : Body) : Ev → List Pollfd → List Access
  | _, [] => []
  | ev, pd :: pds => .entry b pd ev :: b.accesses (b.run ev pd) pds

/-- The uses of a notification loop over pollqs. -/
def queueAccesses (test : Ev → Pollfd → Bool) (g : Ev → Pollfd → Pollfd) (b : Body) :
    List ℕ → Ev × List ℕ → List Access
  | [], _ => []
  | q :: qs, acc =>
    let pds := (acc.1.pollq q).pds
    (if pds.any (test acc.1) then
      b.accesses (acc.1.takeOff q (pds.map (g acc.1))) (pds.map (g acc.1)) else []) ++
      queueAccesses test g b qs (pqStep test g b.run acc q)

/-- The uses of `_st_select_find_bad_fd`. -/
def findBadAccesses (ev : Ev) (bad : ℤ → Bool) : List Access :=
  let ev' := { ev with
    data := fun i => if i < ev.num then { ev.data i with maxfd := 0 } else ev.data i }
  (List.range ev.num).map (fun i => .group i ev) ++
    queueAccesses (fun _ pd => decide (pd.events ≠ Events.none) && bad pd.fd) (fun _ => badPd bad)
      badBody ev'.io_q (ev', [])

/-- The uses of `_st_select_dispatch_once` of group `i`, which `_st_select_dispatch` looks up. -/
def onceAccesses (ev : Ev) (i : ℕ) (outcome : SelectOutcome) : List Access :=
  .group i ev ::
    if (ev.data i).size ≤ 0 ∨ (ev.data i).maxfd ≤ 0 then []
    else
      match outcome with
      | .ready set =>
        let ev := ev.overwrite i set
        if 0 < ev.nfd i then
          queueAccesses (fun ev => isReady (ev.data i).set) (fun ev => readyPd (ev.data i).set)
            notifyBody ev.io_q (ev, [])
        else []
      | .error ebadf bad => if ebadf then ev.findBadAccesses bad else []

/-- The uses of the groups of a dispatch pass, one after another. -/
def passAccesses (outcomes : ℕ → SelectOutcome) : List ℕ → Ev → List Access
  | [], _ => []
  | i :: l, ev =>
    ev.onceAccesses i (outcomes i) ++ passAccesses outcomes l (ev.dispatchOnce i (outcomes i)).1

/-- The uses of a step. -/
def Polls.accesses (p : Polls) : Polls.Op → List Access
  | .register _ pds => addBody.accesses p.ev pds
  | .resume pq =>
    if (p.ev.pollq pq).on_ioq then
      delBody.accesses { p.ev with io_q := p.ev.io_q.erase pq } (p.ev.pollq pq).pds
    else []
  | .dispatch outcomes => passAccesses outcomes (List.range p.ev.num) p.ev

/-- The uses of a run, in order. -/
def Polls.allAccesses (ops : List Polls.Op) : List Access :=
  Runs.record Polls.step (fun w p op _ => w ++ p.accesses op) [] Polls.init ops

/-! ## The table -/

/-- The invariant of the table: the groups have their positions as indices, and no `maxfd` is negative. -/
structure Table (ev : Ev) : Prop extends TableOk ev where
  index : ∀ i, (ev.data i).index = i
  maxfd : ∀ i, 0 ≤ (ev.data i).maxfd

/-- The groups that are allocated have their positions as indices. -/
theorem Table.indexed {ev : Ev} (h : Table ev) : Indexed ev := fun i _ => h.index i

section table

variable {ev : Ev} {gfd : ℤ} {f : Seldata → Seldata}

/-- An assignment to a group that keeps its index, and does not make `maxfd` negative. -/
theorem Table.setData (h : Table ev) (ht : TableOk (ev.setData gfd f)) (hindex : ∀ d, (f d).index = d.index)
    (hmaxfd : ∀ d, 0 ≤ d.maxfd → 0 ≤ (f d).maxfd) : Table (ev.setData gfd f) := by
  refine ⟨ht, fun i => ?_, fun i => ?_⟩
  · rw [setData_data]
    split_ifs
    · rw [hindex]
      exact h.index i
    · exact h.index i
  · rw [setData_data]
    split_ifs
    · exact hmaxfd _ (h.maxfd i)
    · exact h.maxfd i

/-- The same groups in another state. -/
theorem Table.congr {e : Ev} (h : Table ev) (hdata : e.data = ev.data) (hnum : e.num = ev.num) :
    Table e := by
  obtain ⟨⟨hsets, hpast⟩, hindex, hmaxfd⟩ := h
  rw [← hdata] at hsets hpast hindex hmaxfd
  rw [← hnum] at hpast
  exact ⟨⟨hsets, hpast⟩, hindex, hmaxfd⟩

/-- The table may grow. -/
theorem Table.checkSeldata (h : Table ev) (gfd : ℤ) : Table (ev.checkSeldata gfd) := by
  refine ⟨(checkSeldata_spec h.toTableOk gfd).1, fun i => ?_, fun i => ?_⟩
  · rw [checkSeldata_data h.toTableOk]
    exact h.index i
  · rw [checkSeldata_data h.toTableOk]
    exact h.maxfd i

/-- Removal of descriptors changes sets only. -/
theorem Table.cutKind (h : Table ev) (gfd : ℤ) (pd : Pollfd) (k : Kind) :
    Table (cutKind gfd pd ev k) := by
  have ht : TableOk (Ev.cutKind gfd pd ev k) := cutKind_table h.toTableOk
  obtain ⟨-, hnum, hdata⟩ := delCnt_frame ev k pd.fd
  have hdel : Table (ev.delCnt k pd.fd).1 := h.congr hdata hnum
  unfold Ev.cutKind at ht ⊢
  split_ifs at ht ⊢
  · dsimp only at ht ⊢
    split_ifs at ht ⊢
    · exact hdel.setData ht (fun _ => rfl) fun _ hd => hd
    · exact hdel
  · exact h

/-- The removal of an entry keeps the table in order. -/
theorem Table.cutPd (h : Table ev) (gfd : ℤ) (pd : Pollfd) : Table (ev.cutPd gfd pd) :=
  cutPd_induct gfd pd (fun _ k h => h.cutKind gfd pd k) h

/-- A `maxfd` that is raised stays above `-1`. -/
theorem raise_nonneg (fd : ℤ) (d : Seldata) (h : 0 ≤ d.maxfd) :
    0 ≤ (if d.maxfd < fd then fd else d.maxfd) := by
  split_ifs <;> omega

/-- The registration of an entry keeps the table in order. -/
theorem Table.addPd (h : Table ev) (pd : Pollfd) : Table (ev.addPd pd) := by
  have ht := (addPd_spec h.toTableOk pd).2.2.1
  unfold Ev.addPd at ht ⊢
  split_ifs at ht ⊢ with hskip
  · exact h
  · refine Table.setData ?_ ht (fun _ => rfl) fun d hd => raise_nonneg pd.fd d hd
    rw [not_or, not_le] at hskip
    -- The three events, one after another: each inserts the descriptor in a set of its own group.
    have hadd (e : Ev) (k : Kind) (he : Table e) (hlt : getGfd pd.fd < e.num) :
        Table (addKind (getGfd pd.fd) pd e k) ∧
          getGfd pd.fd < (addKind (getGfd pd.fd) pd e k).num := by
      obtain ⟨-, hnum, hte, -⟩ := @addKind_spec e pd k he.toTableOk hskip.1 hlt
      refine ⟨?_, by rw [hnum]; exact hlt⟩
      unfold addKind at hte ⊢
      split_ifs at hte ⊢
      · obtain ⟨-, hn, hd⟩ := addCnt_frame (e.editSet (getGfd pd.fd) k (insert pd.fd)) k pd.fd
        have hte' : TableOk (e.editSet (getGfd pd.fd) k (insert pd.fd)) := by
          refine ⟨?_, ?_⟩
          · rw [← hd]
            exact hte.sets
          · rw [← hd, ← hn]
            exact hte.past
        exact (he.setData hte' (fun _ => rfl) fun _ h => h).congr hd hn
      · exact he
    have h₀ := h.checkSeldata (getGfd pd.fd)
    have hlt₀ := (checkSeldata_spec h.toTableOk (getGfd pd.fd)).2.2
    obtain ⟨h₁, hlt₁⟩ := hadd _ .read h₀ hlt₀
    obtain ⟨h₂, hlt₂⟩ := hadd _ .write h₁ hlt₁
    exact (hadd _ .excep h₂ hlt₂).1

/-- The removal of an entry from its group keeps the table in order. -/
theorem Table.delPd (h : Table ev) (pd : Pollfd) : Table (ev.delPd pd) := by
  have ht := cuts_delPd.table ev pd h.toTableOk
  unfold Ev.delPd at ht ⊢
  dsimp only at ht ⊢
  split_ifs at ht ⊢
  · exact h
  · exact (h.cutPd _ pd).setData ht (fun _ => rfl) fun _ hd => hd

/-- The notification of an entry keeps the table in order. -/
theorem Table.notifyPd (h : Table ev) (pd : Pollfd) : Table (ev.notifyPd pd) := by
  unfold Ev.notifyPd
  dsimp only
  split_ifs
  · exact h
  · exact h.cutPd _ pd

/-- The search for bad descriptors keeps the table in order. -/
theorem Table.badCutPd (h : Table ev) (pd : Pollfd) : Table (ev.badCutPd pd) := by
  have hgrown := h.checkSeldata (getGfd pd.fd)
  have hraised : Table ((ev.checkSeldata (getGfd pd.fd)).setData (getGfd pd.fd) fun d =>
      { d with maxfd := if d.maxfd < pd.fd then pd.fd else d.maxfd }) :=
    hgrown.setData (setData_table (fun _ => rfl) hgrown.toTableOk) (fun _ => rfl)
      fun d hd => raise_nonneg pd.fd d hd
  exact hraised.cutPd _ pd

end table

/-! ## One entry -/

/-- The division rounds towards zero. -/
theorem getGfd_of_nonpos {fd : ℤ} (h : fd ≤ 0) : getGfd fd = -((1 - fd) / FD_SETSIZE) := by
  have hneg : fd - 1 = -(1 - fd) := by omega
  rw [getGfd, hneg, Int.neg_tdiv, Int.tdiv_eq_ediv_of_nonneg (by omega)]

/-- The group of a descriptor is not negative, if the descriptor is above `1 - FD_SETSIZE`. -/
theorem getGfd_nonneg_iff (fd : ℤ) : 0 ≤ getGfd fd ↔ 1 - FD_SETSIZE < fd := by
  rcases lt_or_ge 0 fd with hpos | hle
  · refine iff_of_true (getGfd_nonneg hpos) ?_
    unfold FD_SETSIZE
    omega
  · rw [getGfd_of_nonpos hle]
    unfold FD_SETSIZE
    omega

section entry

variable {ev : Ev} {pd : Pollfd}

/-- Removal of a descriptor that was never registered changes no group. -/
theorem cutPd_skipped (ht : TableOk ev) (hskip : pd.fd ≤ 0 ∨ pd.events = Events.none) (gfd : ℤ) :
    (ev.cutPd gfd pd).data = ev.data := by
  refine cutPd_induct (P := fun e => e.data = ev.data) gfd pd ?_ rfl
  intro e k he
  obtain ⟨-, -, hdata⟩ := delCnt_frame e k pd.fd
  unfold cutKind
  split_ifs with hhas
  swap
  · exact he
  dsimp only
  split_ifs
  swap
  · exact hdata.trans he
  have hfd : pd.fd ≤ 0 := hskip.resolve_right (Pollfd.events_ne_none hhas)
  funext i
  unfold editSet
  rw [setData_data, hdata, he]
  split_ifs
  · have hnot : pd.fd ∉ (ev.data i).set k := fun hmem => absurd (ht.sets i k _ hmem).1 (not_lt.mpr hfd)
    dsimp only
    rw [Finset.erase_eq_of_notMem hnot, Function.update_eq_self]
  · rfl

/-- A registration uses groups of the table only, since it lets the table grow first. -/
theorem addBody_ok (h : Table ev) (pd : Pollfd) : addBody.Ok ev pd := by
  have hgrown : Table (addBody.grown ev pd) ∧ ev.num ≤ (addBody.grown ev pd).num ∧
      SameGroups ev (addBody.grown ev pd) := by
    dsimp only [addBody]
    split_ifs
    · exact ⟨h, le_rfl, fun _ _ => rfl⟩
    · exact ⟨h.checkSeldata _, (checkSeldata_frame ev _).2.1,
        fun i _ => checkSeldata_data h.toTableOk _ i⟩
  refine ⟨fun gfd hgfd => ?_, hgrown.1.indexed, hgrown.2, fun hskip => ?_⟩
  · dsimp only [addBody] at hgfd ⊢
    split_ifs at hgfd ⊢ with hskip
    cases hgfd
    rw [not_or, not_le] at hskip
    exact ⟨getGfd_nonneg hskip.1, (checkSeldata_spec h.toTableOk _).2.2⟩
  · have hsame : addBody.run ev pd = ev := if_pos hskip
    rw [hsame]
    exact ⟨rfl, fun _ _ => rfl⟩

/-- A removal uses groups of the table only. -/
theorem delBody_ok (h : Table ev) (pd : Pollfd) : delBody.Ok ev pd := by
  refine ⟨fun gfd hgfd => ?_, h.indexed, ⟨le_rfl, fun _ _ => rfl⟩, fun hskip => ?_⟩
  · dsimp only [delBody] at hgfd ⊢
    split_ifs at hgfd with hskip
    cases hgfd
    rw [not_or, not_or, not_le, not_le] at hskip
    exact ⟨getGfd_nonneg hskip.1, hskip.2.2⟩
  · have hsame : delBody.run ev pd = ev :=
      if_pos (hskip.elim Or.inl fun hev => Or.inr (Or.inl hev))
    rw [hsame]
    exact ⟨rfl, fun _ _ => rfl⟩

/-- A notification uses the group of an entry in order, if the group is not negative. -/
theorem notifyBody_ok (h : Table ev) (hfd : 1 - FD_SETSIZE < pd.fd) : notifyBody.Ok ev pd := by
  refine ⟨fun gfd hgfd => ?_, h.indexed, ⟨le_rfl, fun _ _ => rfl⟩, fun hskip => ?_⟩
  · dsimp only [notifyBody] at hgfd ⊢
    split_ifs at hgfd with hout
    cases hgfd
    exact ⟨(getGfd_nonneg_iff _).mpr hfd, not_le.mp hout⟩
  · dsimp only [notifyBody, notifyPd]
    split_ifs
    · exact ⟨rfl, fun _ _ => rfl⟩
    · exact ⟨(cutPd_frame ev _ pd).2, fun i _ => by rw [cutPd_skipped h.toTableOk hskip]⟩

/-- The scan uses the group of an entry in order, if the group is not negative, and an entry without
events has no descriptor above zero. -/
theorem badBody_ok (h : Table ev) (hnum : 0 < ev.num) (hfd : 1 - FD_SETSIZE < pd.fd)
    (hev : pd.events = Events.none → pd.fd ≤ 0) : badBody.Ok ev pd := by
  have hgrown := h.checkSeldata (getGfd pd.fd)
  refine ⟨fun gfd hgfd => ?_, hgrown.indexed, ⟨(checkSeldata_frame ev _).2.1,
    fun i _ => checkSeldata_data h.toTableOk _ i⟩, fun hskip => ?_⟩
  · cases hgfd
    exact ⟨(getGfd_nonneg_iff _).mpr hfd, (checkSeldata_spec h.toTableOk _).2.2⟩
  · -- The descriptor is not above zero: its group is the first one, and it raises no bound.
    have hle : pd.fd ≤ 0 := hskip.elim id hev
    have hzero : getGfd pd.fd = 0 := by
      rw [getGfd_of_nonpos hle]
      unfold FD_SETSIZE at hfd ⊢
      omega
    have hsame : ev.checkSeldata (getGfd pd.fd) = ev := by
      rw [hzero]
      exact if_pos (by exact_mod_cast hnum)
    have hraised : (ev.setData (getGfd pd.fd) fun d =>
        { d with maxfd := if d.maxfd < pd.fd then pd.fd else d.maxfd }).data = ev.data := by
      funext i
      rw [setData_data]
      split_ifs with hi hlt
      · have := h.maxfd i
        omega
      · rfl
      · rfl
    have hrun : badBody.run ev pd = (ev.setData (getGfd pd.fd) fun d =>
        { d with maxfd := if d.maxfd < pd.fd then pd.fd else d.maxfd }).cutPd (getGfd pd.fd) pd := by
      dsimp only [badBody, badCutPd]
      rw [hsame]
    have ht : TableOk (ev.setData (getGfd pd.fd) fun d =>
        { d with maxfd := if d.maxfd < pd.fd then pd.fd else d.maxfd }) :=
      setData_table (fun _ => rfl) h.toTableOk
    rw [hrun]
    refine ⟨?_, fun i _ => ?_⟩
    · rw [(cutPd_frame _ _ pd).2, setData_num]
    · rw [cutPd_skipped ht hskip, hraised]

end entry

/-! ## Loops over entries -/

/-- A loop over entries, each of which meets `C`. -/
theorem Body.accesses_ok {b : Body} {K : Ev → Prop} {C : Pollfd → Prop}
    (hok : ∀ ev pd, K ev → C pd → b.Ok ev pd) (hkeep : ∀ ev pd, K ev → K (b.run ev pd))
    (pds : List Pollfd) : ∀ ev, K ev → (∀ pd ∈ pds, C pd) → ∀ a ∈ b.accesses ev pds, a.Ok := by
  induction pds with
  | nil =>
    intro ev _ _ a ha
    cases ha
  | cons pd pds ih =>
    intro ev hk hpds a ha
    rcases List.mem_cons.mp ha with rfl | ha
    · exact hok ev pd hk (hpds pd List.mem_cons_self)
    · exact ih _ (hkeep ev pd hk) (fun pd' hpd' => hpds pd' (List.mem_cons_of_mem _ hpd')) a ha

/-- What the body of a loop keeps, the loop keeps. -/
theorem foldl_keep {K : Ev → Prop} {f : Ev → Pollfd → Ev} (hkeep : ∀ ev pd, K ev → K (f ev pd))
    (pds : List Pollfd) : ∀ ev, K ev → K (pds.foldl f ev) := by
  induction pds with
  | nil => exact fun _ h => h
  | cons pd pds ih => exact fun ev h => ih _ (hkeep ev pd h)

/-! ## Loops over pollqs -/

/-- The table during a dispatch pass that began with `n` groups. -/
structure Passing (n : ℕ) (ev : Ev) : Prop extends Table ev where
  num : n ≤ ev.num

/-- The table is as it was. -/
theorem Passing.congr {n : ℕ} {ev e : Ev} (h : Passing n ev) (hdata : e.data = ev.data)
    (hnum : e.num = ev.num) : Passing n e :=
  ⟨h.toTable.congr hdata hnum, hnum ▸ h.num⟩

/-- The descriptors' sets and bounds of the groups are written, and nothing else of the table. -/
theorem Passing.writes {n : ℕ} {ev e : Ev} (h : Passing n ev) (ht : TableOk e) (hnum : e.num = ev.num)
    (hdata : ∀ i, (e.data i).index = (ev.data i).index ∧ 0 ≤ (e.data i).maxfd) : Passing n e :=
  ⟨⟨ht, fun i => (hdata i).1.trans (h.index i), fun i => (hdata i).2⟩, hnum ▸ h.num⟩

section queue

variable {test : Ev → Pollfd → Bool} {g : Ev → Pollfd → Pollfd} {b : Body}
  (hf : Cuts b.run) (hfd : ∀ ev pd, (g ev pd).fd = pd.fd) (hev : ∀ ev pd, (g ev pd).events = pd.events)
  (hkeep : ∀ ev pd, Table ev → Table (b.run ev pd)) {n : ℕ}

include hf hkeep in
/-- The body of a loop keeps the table in order. -/
theorem Passing.run {ev : Ev} (h : Passing n ev) (pd : Pollfd) : Passing n (b.run ev pd) :=
  ⟨hkeep ev pd h.toTable, h.num.trans (hf.num ev pd)⟩

include hf hkeep in
/-- The notification of a pollq keeps the table in order. -/
theorem Passing.pqStep {ev : Ev} (h : Passing n ev) (woken : List ℕ) (q : ℕ) :
    Passing n (pqStep test g b.run (ev, woken) q).1 := by
  unfold Ev.pqStep
  dsimp only
  split_ifs
  · have htake : Passing n (ev.takeOff q ((ev.pollq q).pds.map (g ev))) := h.congr rfl rfl
    exact foldl_keep (K := Passing n) (fun e pd he => Passing.run hf hkeep he pd) _ _ htake
  · exact h.congr rfl rfl

include hf hfd hev hkeep in
/-- A notification loop over pollqs on the queue. The entries of each pollq that is notified meet `C`,
under an invariant `J` of the loop. -/
theorem queueAccesses_ok {J : Ev → Prop} {C : Pollfd → Prop}
    (hok : ∀ ev pd, Passing n ev → C pd → b.Ok ev pd) (hC : ∀ ev pd, C pd → C (g ev pd))
    (hJ : ∀ ev woken q, Counted ev → q ∈ ev.io_q → J ev → J (pqStep test g b.run (ev, woken) q).1)
    (hnote : ∀ ev q, Counted ev → q ∈ ev.io_q → J ev → (ev.pollq q).pds.any (test ev) = true →
      ∀ pd ∈ (ev.pollq q).pds, C pd)
    (l : List ℕ) : ∀ {ev : Ev} (woken : List ℕ), Counted ev → Passing n ev → J ev → l.Nodup →
      (∀ q ∈ l, q ∈ ev.io_q) →
      (∀ a ∈ queueAccesses test g b l (ev, woken), a.Ok) ∧
        Passing n (l.foldl (pqStep test g b.run) (ev, woken)).1 := by
  induction l with
  | nil =>
    intro ev woken _ hp _ _ _
    refine ⟨fun a ha => ?_, hp⟩
    cases ha
  | cons q l ih =>
    intro ev woken hc hp hj hnodup hmem
    obtain ⟨hql, hnodup⟩ := List.nodup_cons.mp hnodup
    have hq := hmem q List.mem_cons_self
    obtain ⟨-, -, -, -, hc', -⟩ := @pqStep_counted test g b.run hf hfd hev ev hc q hq woken
    have hmem' : ∀ q' ∈ l, q' ∈ (pqStep test g b.run (ev, woken) q).1.io_q := fun q' hq' =>
      mem_pqStep_of_ne hf hfd hev hc hq woken (fun heq => hql (heq ▸ hq'))
        (hmem q' (List.mem_cons_of_mem _ hq'))
    obtain ⟨hrest, hp'⟩ := @ih (pqStep test g b.run (ev, woken) q).1
      (pqStep test g b.run (ev, woken) q).2 hc' (hp.pqStep hf hkeep woken q) (hJ ev woken q hc hq hj)
      hnodup hmem'
    refine ⟨fun a ha => ?_, hp'⟩
    -- A use of this round, or of a later one.
    rw [queueAccesses] at ha
    rcases List.mem_append.mp ha with ha | ha
    · dsimp only at ha
      split_ifs at ha with htest
      · have htake : Passing n (ev.takeOff q ((ev.pollq q).pds.map (g ev))) := hp.congr rfl rfl
        refine Body.accesses_ok (K := Passing n) hok (fun e pd he => Passing.run hf hkeep he pd) _ _
          htake (fun pd hpd => ?_) a ha
        obtain ⟨pd', hpd', rfl⟩ := List.mem_map.mp hpd
        exact hC ev pd' (hnote ev q hc hq hj htest pd' hpd')
      · cases ha
    · exact hrest a ha

end queue

/-! ## Passes -/

/-- The condition on one group of a dispatch pass: `select` is not called for the group, or it notifies no
pollq that has an entry with a descriptor up to `1 - FD_SETSIZE`, or, if it fails with `EBADF`, the scan
notifies no pollq that has such an entry or one without events and with a descriptor above zero. -/
def GroupSafe (ev : Ev) (i : ℕ) (outcome : SelectOutcome) : Prop :=
  (ev.data i).size ≤ 0 ∨ (ev.data i).maxfd ≤ 0 ∨
    match outcome with
    | .ready set => ∀ q ∈ ev.io_q, ev.anyReady (fun k => (ev.data i).set k ∩ set k) q = true →
        ∀ pd ∈ (ev.pollq q).pds, 1 - FD_SETSIZE < pd.fd
    | .error ebadf bad => ebadf = true → ∀ q ∈ ev.io_q, ev.anyBad bad q = true →
        ∀ pd ∈ (ev.pollq q).pds, 1 - FD_SETSIZE < pd.fd ∧ (pd.events = Events.none → pd.fd ≤ 0)

instance (ev : Ev) (i : ℕ) (outcome : SelectOutcome) : Decidable (GroupSafe ev i outcome) :=
  match outcome with
  | .ready _ => inferInstanceAs (Decidable (_ ∨ _ ∨ ∀ q ∈ ev.io_q, _ → ∀ pd ∈ (ev.pollq q).pds, _))
  | .error _ _ =>
    inferInstanceAs (Decidable (_ ∨ _ ∨ (_ → ∀ q ∈ ev.io_q, _ → ∀ pd ∈ (ev.pollq q).pds, _)))

section group

variable {ev : Ev} {n i : ℕ}

/-- The notification loop of a group for which `select` has succeeded. -/
theorem readyAccesses_ok (hc : Counted ev) (hp : Passing n ev)
    (hok : ∀ q ∈ ev.io_q, ev.anyReady (ev.data i).set q = true →
      ∀ pd ∈ (ev.pollq q).pds, 1 - FD_SETSIZE < pd.fd) :
    (∀ a ∈ queueAccesses (fun ev => isReady (ev.data i).set) (fun ev => readyPd (ev.data i).set)
        notifyBody ev.io_q (ev, []), a.Ok) ∧
      Passing n (ev.io_q.foldl (notifyPq i) (ev, [])).1 := by
  rw [notifyPq_eq]
  refine queueAccesses_ok (b := notifyBody) (J := fun e => Serving ev i e ∧ ∀ q ∈ e.io_q, q ∈ ev.io_q)
    (C := fun pd => 1 - FD_SETSIZE < pd.fd) cuts_notifyPd (fun e pd => readyPd_fd (e.data i).set pd)
    (fun e pd => readyPd_events (e.data i).set pd) (fun e pd h => h.notifyPd pd)
    (fun e pd he hfd => notifyBody_ok he.toTable hfd) (fun e pd h => by rw [readyPd_fd]; exact h)
    ?_ ?_ ev.io_q [] hc hp ⟨Serving.refl hc.table i, fun _ hq => hq⟩ hc.nodup fun _ hq => hq
  · rintro e woken q hce hq ⟨hs, hsub⟩
    refine ⟨notifyPq_serving woken hce hq hs, fun q' hq' => hsub q' ?_⟩
    exact mem_of_mem_pqStep cuts_notifyPd (fun e pd => readyPd_fd (e.data i).set pd)
      (fun e pd => readyPd_events (e.data i).set pd) hce hq woken hq'
  · rintro e q hce hq ⟨hs, hsub⟩ htest pd hpd
    -- A pollq that the loop notifies is one that `select` has reported before the loop.
    have hready : ev.anyReady (ev.data i).set q = true := by
      rw [← hs.anyReady hce hq]
      exact htest
    obtain ⟨pd', hpd', hfd, -⟩ := hs.same.symm.exists_pd hpd
    rw [← hfd]
    exact hok q (hsub q hq) hready pd' hpd'

/-- The notification loop of `_st_select_find_bad_fd`. -/
theorem badAccesses_ok (hc : Counted ev) (hp : Passing n ev) (hn : 0 < n) (bad : ℤ → Bool)
    (hok : ∀ q ∈ ev.io_q, ev.anyBad bad q = true →
      ∀ pd ∈ (ev.pollq q).pds, 1 - FD_SETSIZE < pd.fd ∧ (pd.events = Events.none → pd.fd ≤ 0)) :
    (∀ a ∈ queueAccesses (fun _ pd => decide (pd.events ≠ Events.none) && bad pd.fd)
        (fun _ => badPd bad) badBody ev.io_q (ev, []), a.Ok) ∧
      Passing n (ev.io_q.foldl (badPq bad) (ev, [])).1 := by
  refine queueAccesses_ok (b := badBody) (J := fun e => SameRequests ev e ∧ ∀ q ∈ e.io_q, q ∈ ev.io_q)
    (C := fun pd => 1 - FD_SETSIZE < pd.fd ∧ (pd.events = Events.none → pd.fd ≤ 0))
    cuts_badCutPd (fun _ => badPd_fd bad) (fun _ => badPd_events bad) (fun e pd h => h.badCutPd pd)
    (fun e pd he h => badBody_ok he.toTable (hn.trans_le he.num) h.1 h.2)
    (fun e pd h => by rw [badPd_fd, badPd_events]; exact h)
    ?_ ?_ ev.io_q [] hc hp ⟨.refl ev, fun _ hq => hq⟩ hc.nodup fun _ hq => hq
  · rintro e woken q hce hq ⟨hs, hsub⟩
    obtain ⟨w, -, -, hnot, -⟩ := @pqStep_counted
      (fun _ pd => decide (pd.events ≠ Events.none) && bad pd.fd) (fun _ => badPd bad) badCutPd
      cuts_badCutPd (fun _ => badPd_fd bad) (fun _ => badPd_events bad) e hce q hq woken
    refine ⟨hs.trans hnot.same, fun q' hq' => hsub q' ?_⟩
    exact mem_of_mem_pqStep cuts_badCutPd (fun _ => badPd_fd bad) (fun _ => badPd_events bad) hce hq
      woken hq'
  · rintro e q _ hq ⟨hs, hsub⟩ htest pd hpd
    have hbad : ev.anyBad bad q = true := by
      rw [← hs.anyBad]
      exact htest
    obtain ⟨pd', hpd', hfd, hev⟩ := hs.symm.exists_pd hpd
    rw [← hfd, ← hev]
    exact hok q (hsub q hq) hbad pd' hpd'

/-- `_st_select_find_bad_fd`. -/
theorem findBadAccesses_ok (hc : Counted ev) (hp : Passing n ev) (hn : 0 < n) (bad : ℤ → Bool)
    (hok : ∀ q ∈ ev.io_q, ev.anyBad bad q = true →
      ∀ pd ∈ (ev.pollq q).pds, 1 - FD_SETSIZE < pd.fd ∧ (pd.events = Events.none → pd.fd ≤ 0)) :
    (∀ a ∈ ev.findBadAccesses bad, a.Ok) ∧ Passing n (ev.findBadFd bad).1 := by
  -- The loop that resets the bounds.
  obtain ⟨hc₀, -⟩ := @setData_counted ev hc
    (fun i => if i < ev.num then { ev.data i with maxfd := 0 } else ev.data i)
    (fun i => by split_ifs <;> rfl) (fun i hi => if_neg (by omega))
  unfold findBadFd findBadAccesses
  dsimp only
  generalize hev₀ : ({ ev with data := fun i =>
    if i < ev.num then { ev.data i with maxfd := 0 } else ev.data i } : Ev) = ev₀ at hc₀
  have hp₀ : Passing n ev₀ := by
    refine hp.writes hc₀.table (by rw [← hev₀]) fun i => ?_
    rw [← hev₀]
    dsimp only
    split_ifs
    · exact ⟨rfl, le_rfl⟩
    · exact ⟨rfl, hp.maxfd i⟩
  have hio₀ : ev₀.io_q = ev.io_q := by rw [← hev₀]
  have hok₀ : ∀ q ∈ ev₀.io_q, ev₀.anyBad bad q = true →
      ∀ pd ∈ (ev₀.pollq q).pds, 1 - FD_SETSIZE < pd.fd ∧ (pd.events = Events.none → pd.fd ≤ 0) := by
    rw [← hev₀]
    exact hok
  obtain ⟨haccesses, hpassing⟩ := badAccesses_ok hc₀ hp₀ hn bad hok₀
  rw [hio₀] at haccesses hpassing
  refine ⟨fun a ha => ?_, hpassing⟩
  rcases List.mem_append.mp ha with ha | ha
  · obtain ⟨i, hi, rfl⟩ := List.mem_map.mp ha
    exact ⟨List.mem_range.mp hi, hp.indexed⟩
  · exact haccesses a ha

/-- One group of a dispatch pass. -/
theorem onceAccesses_ok (hc : Counted ev) (hp : Passing n ev) (hi : i < n) {outcome : SelectOutcome}
    (hok : GroupSafe ev i outcome) :
    (∀ a ∈ ev.onceAccesses i outcome, a.Ok) ∧ Passing n (ev.dispatchOnce i outcome).1 := by
  have hgroup : (Access.group i ev).Ok := ⟨hi.trans_le hp.num, hp.indexed⟩
  unfold dispatchOnce onceAccesses
  split_ifs with hguard
  · exact ⟨fun a ha => by rw [List.mem_singleton.mp ha]; exact hgroup, hp⟩
  have hok := hok.resolve_left (not_or.mp hguard).1 |>.resolve_left (not_or.mp hguard).2
  -- The first use is that of the group itself.
  suffices h : ∀ l : List Access, ∀ e : Ev, (∀ a ∈ l, a.Ok) ∧ Passing n e →
      (∀ a ∈ Access.group i ev :: l, a.Ok) ∧ Passing n e by
    cases outcome with
    | ready set =>
      have hc' := overwrite_counted hc (hi.trans_le hp.num) set
      have hp' : Passing n (ev.overwrite i set) := by
        -- `select` writes to the sets only.
        refine hp.writes hc'.table rfl fun j => ?_
        by_cases hj : j = i
        · rw [hj]
          simpa [overwrite] using hp.maxfd i
        · simpa [overwrite, hj] using hp.maxfd j
      dsimp only
      split_ifs
      · refine h _ _ (readyAccesses_ok hc' hp' fun q hq hready => ?_)
        rw [overwrite_set] at hready
        exact hok q hq hready
      · exact h _ _ ⟨fun a ha => (by cases ha), hp'⟩
    | error ebadf bad =>
      dsimp only
      split_ifs with hebadf
      · exact h _ _ (findBadAccesses_ok hc hp (by omega) bad (hok hebadf))
      · exact h _ _ ⟨fun a ha => (by cases ha), hp⟩
  rintro l e ⟨hl, he⟩
  refine ⟨fun a ha => ?_, he⟩
  rcases List.mem_cons.mp ha with rfl | ha
  · exact hgroup
  · exact hl a ha

end group

/-- The condition on a pass: each group meets its condition when the pass reaches it. -/
def PassSafe (ev : Ev) (outcomes : ℕ → SelectOutcome) : Prop :=
  Runs.Meets (groupStep outcomes) (fun ev i => GroupSafe ev i (outcomes i)) ev (List.range ev.num)

instance (ev : Ev) (outcomes : ℕ → SelectOutcome) : Decidable (PassSafe ev outcomes) :=
  inferInstanceAs (Decidable (Runs.Meets _ _ _ _))

/-- The groups of a pass, one after another. -/
theorem passAccesses_ok {outcomes : ℕ → SelectOutcome} {n : ℕ} (l : List ℕ) : ∀ {ev : Ev},
    Counted ev → Passing n ev → (∀ i ∈ l, i < n) →
    Runs.Meets (groupStep outcomes) (fun ev i => GroupSafe ev i (outcomes i)) ev l →
    ∀ woken, (∀ a ∈ passAccesses outcomes l ev, a.Ok) ∧
      Passing n (l.foldl (dispatchGroup outcomes) (ev, woken)).1 := by
  induction l with
  | nil =>
    intro ev _ hp _ _ woken
    exact ⟨fun a ha => (by cases ha), hp⟩
  | cons i l ih =>
    intro ev hc hp hl hmeets woken
    obtain ⟨hfirst, hp'⟩ := onceAccesses_ok hc hp (hl i List.mem_cons_self) hmeets.head
    obtain ⟨hrest, hp''⟩ := @ih (ev.dispatchOnce i (outcomes i)).1
      (dispatchOnce_counted hc i (outcomes i)).2 hp' (fun j hj => hl j (List.mem_cons_of_mem _ hj))
      (hmeets.tail rfl) (woken ++ (ev.dispatchOnce i (outcomes i)).2)
    refine ⟨fun a ha => ?_, hp''⟩
    rcases List.mem_append.mp ha with ha | ha
    · exact hfirst a ha
    · exact hrest a ha

/-! ## Runs -/

/-- The condition on a step of the event system. -/
def Polls.StepSafe (p : Polls) : Polls.Op → Prop
  | .dispatch outcomes => PassSafe p.ev outcomes
  | _ => True

instance (p : Polls) (op : Polls.Op) : Decidable (p.StepSafe op) :=
  match op with
  | .register _ _ => inferInstanceAs (Decidable True)
  | .resume _ => inferInstanceAs (Decidable True)
  | .dispatch outcomes => inferInstanceAs (Decidable (PassSafe p.ev outcomes))

/-- One step: its uses of the table are in order, and so is the table. -/
theorem Polls.step_accesses {p p' : Polls} {op : Polls.Op} (hinv : Polls.Inv p) (ht : Table p.ev)
    (hok : p.StepSafe op) (hstep : p.step op = some p') :
    (∀ a ∈ p.accesses op, a.Ok) ∧ Table p'.ev := by
  cases op with
  | register thread pds =>
    cases hstep
    refine ⟨Body.accesses_ok (K := Table) (C := fun _ => True) (fun e pd he _ => addBody_ok he pd)
      (fun e pd he => he.addPd pd) pds _ ht fun _ _ => trivial, ?_⟩
    exact (foldl_keep (K := Table) (fun e pd he => he.addPd pd) pds _ ht).congr rfl rfl
  | resume pq =>
    rw [Polls.step] at hstep
    split_ifs at hstep
    cases hstep
    dsimp only [Polls.accesses, unregister]
    have ht' : Table { p.ev with io_q := p.ev.io_q.erase pq } := ht.congr rfl rfl
    split_ifs
    · exact ⟨Body.accesses_ok (K := Table) (C := fun _ => True) (fun e pd he _ => delBody_ok he pd)
        (fun e pd he => he.delPd pd) _ _ ht' fun _ _ => trivial,
        foldl_keep (K := Table) (fun e pd he => he.delPd pd) _ _ ht'⟩
    · exact ⟨fun a ha => (by cases ha), ht⟩
  | dispatch outcomes =>
    cases hstep
    obtain ⟨hall, hp⟩ := passAccesses_ok (List.range p.ev.num) hinv.counted ⟨ht, le_rfl⟩
      (fun i hi => List.mem_range.mp hi) hok []
    exact ⟨hall, hp.toTable⟩

/-- The table is empty at the start. -/
theorem init_table : Table Ev.init :=
  ⟨init_counted.table, fun _ => rfl, fun _ => le_rfl⟩

/-- The groups are used in order. In every run of registrations, returns, and dispatch passes, with any
descriptors and any outcomes of `select`, whose passes meet the condition: every index into the table is
one of a group in the table, the groups have their positions as indices, growth of the table preserves
them, and entries with a descriptor up to zero or without events change no group. -/
theorem run_indices_safe (ops : List Polls.Op) {p : Polls}
    (hrun : Runs.run Polls.step Polls.init ops = some p)
    (hsafe : Runs.Meets Polls.step Polls.StepSafe Polls.init ops) :
    (∀ a ∈ Polls.allAccesses ops, a.Ok) ∧ ∀ i < p.ev.num, (p.ev.data i).index = i := by
  have hall : (Polls.Inv p ∧ Table p.ev) ∧ ∀ a ∈ Polls.allAccesses ops, a.Ok := by
    refine Runs.record_invariant
      (I := fun p (w : List Access) => (Polls.Inv p ∧ Table p.ev) ∧ ∀ a ∈ w, a.Ok) ?_ ⟨⟨Polls.init_inv, init_table⟩, fun a ha => (by cases ha)⟩ hsafe hrun
    rintro p op p' w ⟨⟨hinv, ht⟩, hw⟩ hok hstep
    obtain ⟨hnew, ht'⟩ := Polls.step_accesses hinv ht hok hstep
    refine ⟨⟨Polls.step_inv hinv hstep, ht'⟩, fun a ha => ?_⟩
    rcases List.mem_append.mp ha with ha | ha
    · exact hw a ha
    · exact hnew a ha
  exact ⟨hall.2, hall.1.2.indexed⟩

/-- A call waits for `POLLIN` on descriptor `5`, with a second entry, and the pass has the outcome
`outcome`. -/
def withSecond (pd : Pollfd) (outcome : SelectOutcome) : List Polls.Op :=
  [.register 1 [⟨5, ⟨true, false, false, false⟩, Events.none⟩, pd], .dispatch fun _ => outcome]

/-- `select` reports descriptor `5`. -/
def fiveReady : SelectOutcome := .ready fun k => if k = .read then {5} else ∅

/-- The descriptor `5` is bad. -/
def fiveBad : SelectOutcome := .error true fun fd => decide (fd = 5)

/-- A descriptor below the first group does no harm if its entry is not notified. -/
theorem run_indices_safe_ignored : ∃ p,
    Runs.run Polls.step Polls.init
      (withSecond ⟨-198, ⟨true, false, false, false⟩, Events.none⟩ fiveReady) = some p ∧
    p.ev.io_q = [] ∧ ∀ a ∈ Polls.allAccesses
      (withSecond ⟨-198, ⟨true, false, false, false⟩, Events.none⟩ fiveReady), a.Ok :=
  ⟨_, rfl, by decide +kernel, (run_indices_safe _ rfl (by decide +kernel)).1⟩

/-- The descriptor `-199` gives the index `-1` in a notification, and an entry without events makes the scan
for bad descriptors grow the table. -/
theorem run_indices_unsafe :
    (∃ a ∈ Polls.allAccesses
        (withSecond ⟨-199, ⟨true, false, false, false⟩, Events.none⟩ fiveReady), ¬a.Ok) ∧
      ∃ a ∈ Polls.allAccesses (withSecond ⟨300, Events.none, Events.none⟩ fiveBad), ¬a.Ok := by
  have hindex : (Polls.allAccesses
      (withSecond ⟨-199, ⟨true, false, false, false⟩, Events.none⟩ fiveReady)).any (fun
        | .entry b pd ev => decide (b.index ev pd = some (-1))
        | .group _ _ => false) = true := by decide +kernel
  have hgrows : (Polls.allAccesses (withSecond ⟨300, Events.none, Events.none⟩ fiveBad)).any (fun
        | .entry b pd ev => decide (pd.events = Events.none ∧ (b.run ev pd).num ≠ ev.num)
        | .group _ _ => false) = true := by decide +kernel
  obtain ⟨a, ha, hneg⟩ := List.any_eq_true.mp hindex
  obtain ⟨a', ha', hnum⟩ := List.any_eq_true.mp hgrows
  refine ⟨⟨a, ha, fun hok => ?_⟩, ⟨a', ha', fun hok => ?_⟩⟩
  · cases a with
    | group i ev => cases hneg
    | entry b pd ev => exact absurd (hok.inside _ (of_decide_eq_true hneg)).1 (by decide)
  · cases a' with
    | group i ev => cases hnum
    | entry b pd ev =>
      obtain ⟨hev, hne⟩ := of_decide_eq_true hnum
      exact hne (hok.skipped (Or.inr hev)).1

end StWin.Ev
