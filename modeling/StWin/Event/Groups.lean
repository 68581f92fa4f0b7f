import StWin.Event.Revents

/-!
# The size of a group

A group's `size` is the number of entries that `_st_select_pollset_add` has put into it, less those that
`_st_select_pollset_del` has taken out. It guards the call of `select`: a group with `size <= 0` is
skipped.

The two loops that notify take the entries of a pollq off the I/O queue and not off the sizes. So a size
only ever exceeds the number of entries that are registered (`drift`), and the sizes are exact exactly in
the runs in which no pass notifies a registered entry (`run_size_exact`).
-/

namespace StWin

/-- The entry is one that `_st_select_pollset_add` puts into group `i`. -/
def Pollfd.isIn (pd : Pollfd) (i : ℕ) : Bool :=
  decide (0 < pd.fd) && decide (pd.events ≠ Events.none) && decide (Ev.getGfd pd.fd = i)

/-- The entries of group `i` are those with a positive descriptor in it that ask for something. -/
theorem Pollfd.isIn_iff {pd : Pollfd} {i : ℕ} : pd.isIn i = true ↔
    0 < pd.fd ∧ pd.events ≠ Events.none ∧ Ev.getGfd pd.fd = i := by
  simp [Pollfd.isIn, and_assoc]

/-- An entry that is skipped is in no group. -/
theorem Pollfd.isIn_of_skipped {pd : Pollfd} (h : pd.fd ≤ 0 ∨ pd.events = Events.none) (i : ℕ) :
    pd.isIn i = false := by
  rw [← Bool.not_eq_true, Pollfd.isIn_iff]
  rintro ⟨hfd, hev, -⟩
  rcases h with h | h
  · omega
  · exact hev h

/-- An entry of another group is not in this one. -/
theorem Pollfd.isIn_of_ne {pd : Pollfd} {i : ℕ} (h : Ev.getGfd pd.fd ≠ i) : pd.isIn i = false := by
  rw [← Bool.not_eq_true, Pollfd.isIn_iff]
  exact fun hc => h hc.2.2

/-- The number of entries of an array in group `i`. -/
def entriesIn (pds : List Pollfd) (i : ℕ) : ℕ := pds.countP fun pd => pd.isIn i

/-- An entry is in the group, or not. -/
theorem entriesIn_cons (pd : Pollfd) (pds : List Pollfd) (i : ℕ) :
    entriesIn (pd :: pds) i = entriesIn pds i + (pd.isIn i).toNat := by
  unfold entriesIn
  rw [List.countP_cons]
  cases pd.isIn i <;> rfl

namespace Ev

/-- The number of entries of the pollqs on the I/O queue that are in group `i`. -/
def registered (ev : Ev) (i : ℕ) : ℕ := (ev.io_q.map fun q => entriesIn (ev.pollq q).pds i).sum

/-! ## The fields under single assignments -/

/-- The groups after an assignment to one of them. -/
theorem setData_data (ev : Ev) (gfd : ℤ) (f : Seldata → Seldata) (i : ℕ) :
    (ev.setData gfd f).data i =
      if 0 ≤ gfd ∧ gfd < ev.num ∧ gfd = i then f (ev.data i) else ev.data i := by
  unfold setData
  by_cases hr : 0 ≤ gfd ∧ gfd < ev.num
  · rw [if_pos hr]
    by_cases hi : gfd = i
    · subst hi
      simp [hr]
    · have hne : i ≠ gfd.toNat := by omega
      simp [hne, hi]
  · rw [if_neg hr, if_neg (by omega)]

/-- Growing the table changes no group. -/
theorem checkSeldata_data {ev : Ev} (ht : TableOk ev) (gfd : ℤ) (i : ℕ) :
    (ev.checkSeldata gfd).data i = ev.data i := by
  unfold checkSeldata
  split_ifs
  · rfl
  · dsimp only
    split_ifs with hi
    · rfl
    · exact (ht.past i (by omega)).symm

/-- From `ev` to `ev'` no group has another `size` or another `maxfd`. -/
def SameFields (ev ev' : Ev) : Prop :=
  ∀ i, (ev'.data i).size = (ev.data i).size ∧ (ev'.data i).maxfd = (ev.data i).maxfd

/-- Nothing has been done. -/
theorem SameFields.refl (ev : Ev) : SameFields ev ev := fun _ => ⟨rfl, rfl⟩

/-- One after the other. -/
theorem SameFields.trans {ev₁ ev₂ ev₃ : Ev} (h : SameFields ev₁ ev₂) (h' : SameFields ev₂ ev₃) :
    SameFields ev₁ ev₃ :=
  fun i => ⟨(h' i).1.trans (h i).1, (h' i).2.trans (h i).2⟩

/-- `FD_SET` and `FD_CLR` change sets only. -/
theorem editSet_fields (ev : Ev) (gfd : ℤ) (k : Kind) (f : Finset ℤ → Finset ℤ) :
    SameFields ev (ev.editSet gfd k f) := by
  intro i
  unfold editSet
  rw [setData_data]
  split_ifs <;> exact ⟨rfl, rfl⟩

/-- The groups are as they were. -/
theorem SameFields.of_data {ev ev' : Ev} (h : ev'.data = ev.data) : SameFields ev ev' :=
  fun i => by rw [h]; exact ⟨rfl, rfl⟩

/-- The removal of one kind of interest leaves `size` and `maxfd`. -/
theorem cutKind_fields (gfd : ℤ) (pd : Pollfd) (ev : Ev) (k : Kind) :
    SameFields ev (cutKind gfd pd ev k) := by
  have hdel := SameFields.of_data (delCnt_frame ev k pd.fd).2.2
  unfold cutKind
  split_ifs
  · dsimp only
    split_ifs
    · exact hdel.trans (editSet_fields _ _ _ _)
    · exact hdel
  · exact SameFields.refl ev

/-- The removal of an entry leaves `size` and `maxfd`. -/
theorem cutPd_fields (ev : Ev) (gfd : ℤ) (pd : Pollfd) : SameFields ev (ev.cutPd gfd pd) := by
  refine cutPd_induct (P := SameFields ev) gfd pd ?_ (SameFields.refl ev)
  exact fun e k h => h.trans (cutKind_fields gfd pd e k)

/-- The notification of an entry leaves `size` and `maxfd`. -/
theorem notifyPd_fields (ev : Ev) (pd : Pollfd) : SameFields ev (notifyPd ev pd) := by
  unfold notifyPd
  dsimp only
  split_ifs
  · exact SameFields.refl ev
  · exact cutPd_fields ev _ pd

/-- The removal on timeout or interrupt takes a registered entry off the size of its group. -/
theorem delPd_fields {ev : Ev} {pd : Pollfd} (hg : Grouped ev.num pd) (i : ℕ) :
    ((delPd ev pd).data i).size = (ev.data i).size - (pd.isIn i).toNat ∧
      ((delPd ev pd).data i).maxfd = (ev.data i).maxfd := by
  unfold delPd
  dsimp only
  split_ifs with hskip
  · -- What is skipped is not registered.
    rw [Pollfd.isIn_of_skipped (hg.skipped hskip)]
    simp
  · push Not at hskip
    obtain ⟨hfd, hev, hnum⟩ := hskip
    have hnn := getGfd_nonneg hfd
    have hcut := cutPd_fields ev (getGfd pd.fd) pd i
    rw [setData_data, (cutPd_frame ev _ pd).2]
    by_cases hi : getGfd pd.fd = i
    · have hin : pd.isIn i = true := Pollfd.isIn_iff.mpr ⟨hfd, hev, hi⟩
      rw [if_pos ⟨hnn, hnum, hi⟩, hin]
      dsimp only
      rw [hcut.1]
      exact ⟨rfl, hcut.2⟩
    · rw [if_neg (fun hc => hi hc.2.2), Pollfd.isIn_of_ne hi, hcut.1]
      simp [hcut.2]

/-- `if (maxfd < fd) maxfd = fd`. -/
theorem raise_eq_max (maxfd fd : ℤ) : (if maxfd < fd then fd else maxfd) = max maxfd fd := by
  split_ifs with h
  · exact (max_eq_right h.le).symm
  · exact (max_eq_left (not_lt.mp h)).symm

/-- The scan raises `maxfd` of the entry's group, whether the entry is registered or not. -/
theorem badCutPd_fields {ev : Ev} (ht : TableOk ev) (pd : Pollfd) (i : ℕ) :
    ((badCutPd ev pd).data i).size = (ev.data i).size ∧
      ((badCutPd ev pd).data i).maxfd =
        if getGfd pd.fd = i then max (ev.data i).maxfd pd.fd else (ev.data i).maxfd := by
  obtain ⟨-, -, hlt⟩ := checkSeldata_spec ht (getGfd pd.fd)
  unfold badCutPd
  dsimp only
  rw [(cutPd_fields _ _ pd i).1, (cutPd_fields _ _ pd i).2, setData_data,
    checkSeldata_data ht]
  by_cases hi : getGfd pd.fd = i
  · rw [if_pos ⟨by omega, hlt, hi⟩, if_pos hi]
    dsimp only
    exact ⟨rfl, raise_eq_max _ _⟩
  · rw [if_neg (fun hc => hi hc.2.2), if_neg hi]
    exact ⟨rfl, rfl⟩

/-- The registration of one kind of interest leaves `size` and `maxfd`. -/
theorem addKind_fields (gfd : ℤ) (pd : Pollfd) (ev : Ev) (k : Kind) :
    SameFields ev (addKind gfd pd ev k) := by
  unfold addKind
  split_ifs
  · exact (editSet_fields ev gfd k _).trans (SameFields.of_data (addCnt_frame _ k pd.fd).2.2)
  · exact SameFields.refl ev

/-- The three events of an entry that is registered. -/
theorem addKinds_fields {ev : Ev} (ht : TableOk ev) {pd : Pollfd} (hfd : 0 < pd.fd)
    (hgfd : getGfd pd.fd < ev.num) :
    SameFields ev ([Kind.read, .write, .excep].foldl (addKind (getGfd pd.fd) pd) ev) ∧
      ([Kind.read, .write, .excep].foldl (addKind (getGfd pd.fd) pd) ev).num = ev.num := by
  dsimp only [List.foldl_cons, List.foldl_nil]
  obtain ⟨-, hn₁, ht₁, -⟩ := @addKind_spec _ pd .read ht hfd hgfd
  obtain ⟨-, hn₂, ht₂, -⟩ := @addKind_spec _ pd .write ht₁ hfd (by omega)
  obtain ⟨-, hn₃, -, -⟩ := @addKind_spec _ pd .excep ht₂ hfd (by omega)
  refine ⟨?_, by rw [hn₃, hn₂, hn₁]⟩
  exact ((addKind_fields _ pd _ _).trans (addKind_fields _ pd _ _)).trans (addKind_fields _ pd _ _)

/-- Registration counts the entry, and raises `maxfd` to its descriptor. -/
theorem addPd_fields {ev : Ev} (ht : TableOk ev) (pd : Pollfd) (i : ℕ) :
    ((ev.addPd pd).data i).size = (ev.data i).size + (pd.isIn i).toNat ∧
      ((ev.addPd pd).data i).maxfd =
        if pd.isIn i then max (ev.data i).maxfd pd.fd else (ev.data i).maxfd := by
  by_cases hskip : pd.fd ≤ 0 ∨ pd.events = Events.none
  · rw [addPd, if_pos hskip, Pollfd.isIn_of_skipped hskip]
    simp
  · rw [addPd, if_neg hskip]
    push Not at hskip
    obtain ⟨hfd, hev⟩ := hskip
    obtain ⟨ht₀, -, hlt⟩ := checkSeldata_spec ht (getGfd pd.fd)
    obtain ⟨hfields, hnum⟩ := addKinds_fields ht₀ hfd hlt
    have hf := hfields i
    rw [checkSeldata_data ht] at hf
    dsimp only
    rw [setData_data, hnum]
    generalize [Kind.read, .write, .excep].foldl (addKind (getGfd pd.fd) pd)
      (ev.checkSeldata (getGfd pd.fd)) = ev₁ at hf
    by_cases hi : getGfd pd.fd = i
    · have hin : pd.isIn i = true := Pollfd.isIn_iff.mpr ⟨hfd, hev, hi⟩
      rw [if_pos ⟨getGfd_nonneg hfd, hlt, hi⟩, hin]
      dsimp only
      rw [hf.1, hf.2, if_pos rfl]
      exact ⟨rfl, raise_eq_max _ _⟩
    · rw [if_neg (fun hc => hi hc.2.2), Pollfd.isIn_of_ne hi, hf.1, hf.2]
      simp

/-! ## The fields and whole arrays -/

/-- `_st_select_pollset_add` adds the entries to `size`, and `maxfd` covers them. -/
theorem pollsetAdd_fields (pds : List Pollfd) (i : ℕ) : ∀ {ev : Ev}, TableOk ev →
    ((ev.pollsetAdd pds).data i).size = (ev.data i).size + entriesIn pds i ∧
      ∀ fd, fd ≤ ((ev.pollsetAdd pds).data i).maxfd ↔
        fd ≤ (ev.data i).maxfd ∨ ∃ pd ∈ pds, pd.isIn i = true ∧ fd ≤ pd.fd := by
  induction pds with
  | nil =>
    intro ev _
    simp [pollsetAdd, entriesIn]
  | cons pd pds ih =>
    intro ev ht
    obtain ⟨-, -, ht₁, -⟩ := addPd_spec ht pd
    obtain ⟨hsize, hmax⟩ := addPd_fields ht pd i
    obtain ⟨hsize', hmax'⟩ := ih ht₁
    have hfold : ev.pollsetAdd (pd :: pds) = (ev.addPd pd).pollsetAdd pds := rfl
    rw [hfold]
    refine ⟨?_, fun fd => ?_⟩
    · rw [hsize', hsize, entriesIn_cons]
      push_cast
      ring
    · have hone : fd ≤ ((ev.addPd pd).data i).maxfd ↔
          fd ≤ (ev.data i).maxfd ∨ (pd.isIn i = true ∧ fd ≤ pd.fd) := by
        rw [hmax]
        split_ifs with hin
        · simp [hin]
        · simp [hin]
      rw [hmax', hone]
      simp only [List.mem_cons, exists_eq_or_imp, or_assoc]

/-- `_st_select_pollset_del` takes the entries off `size`, and leaves `maxfd`. -/
theorem pollsetDel_fields (pds : List Pollfd) (i : ℕ) : ∀ {ev : Ev},
    (∀ pd ∈ pds, Grouped ev.num pd) →
    ((ev.pollsetDel pds).data i).size = (ev.data i).size - entriesIn pds i ∧
      ((ev.pollsetDel pds).data i).maxfd = (ev.data i).maxfd := by
  induction pds with
  | nil =>
    intro ev _
    simp [pollsetDel, entriesIn]
  | cons pd pds ih =>
    intro ev hg
    obtain ⟨hsize, hmax⟩ := delPd_fields (hg pd List.mem_cons_self) i
    have hnum := cuts_delPd.num ev pd
    have hg' : ∀ pd' ∈ pds, Grouped (delPd ev pd).num pd' := by
      intro pd' hpd' h1 h2
      have := hg pd' (List.mem_cons_of_mem _ hpd') h1 h2
      omega
    obtain ⟨hsize', hmax'⟩ := ih hg'
    have hfold : ev.pollsetDel (pd :: pds) = (delPd ev pd).pollsetDel pds := rfl
    rw [hfold, hsize', hmax', hsize, hmax, entriesIn_cons]
    push_cast
    exact ⟨by ring, rfl⟩

/-- The notification of a pollq leaves `size` and `maxfd`. -/
theorem notifyPds_fields (pds : List Pollfd) : ∀ ev : Ev, SameFields ev (pds.foldl notifyPd ev) := by
  induction pds with
  | nil => exact SameFields.refl
  | cons pd pds ih => exact fun ev => (notifyPd_fields ev pd).trans (ih _)

/-- In the search for bad descriptors `size` stays, and `maxfd` covers the entries that are looked at. -/
theorem badCutPds_fields (pds : List Pollfd) (i : ℕ) : ∀ {ev : Ev}, TableOk ev →
    ((pds.foldl badCutPd ev).data i).size = (ev.data i).size ∧
      ∀ fd, fd ≤ ((pds.foldl badCutPd ev).data i).maxfd ↔
        fd ≤ (ev.data i).maxfd ∨ ∃ pd ∈ pds, getGfd pd.fd = i ∧ fd ≤ pd.fd := by
  induction pds with
  | nil =>
    intro ev _
    simp
  | cons pd pds ih =>
    intro ev ht
    obtain ⟨hsize, hmax⟩ := badCutPd_fields ht pd i
    obtain ⟨hsize', hmax'⟩ := ih (cuts_badCutPd.table ev pd ht)
    rw [List.foldl_cons]
    refine ⟨hsize'.trans hsize, fun fd => ?_⟩
    have hone : fd ≤ ((badCutPd ev pd).data i).maxfd ↔
        fd ≤ (ev.data i).maxfd ∨ (getGfd pd.fd = i ∧ fd ≤ pd.fd) := by
      rw [hmax]
      split_ifs with hin
      · simp [hin]
      · simp [hin]
    rw [hmax', hone]
    simp only [List.mem_cons, exists_eq_or_imp, or_assoc]

/-- The notification loop leaves both fields alone. -/
theorem notifyFold_fields (i : ℕ) (l : List ℕ) : ∀ acc : Ev × List ℕ,
    SameFields acc.1 (l.foldl (notifyPq i) acc).1 := by
  induction l with
  | nil => exact fun acc => SameFields.refl acc.1
  | cons q l ih =>
    intro acc
    refine SameFields.trans ?_ (ih _)
    unfold notifyPq
    dsimp only
    split_ifs
    · exact SameFields.trans (SameFields.of_data rfl) (notifyPds_fields _ _)
    · exact SameFields.of_data rfl

/-! ## The number of registered entries -/

/-- The entries in a group depend on what they ask for only. -/
theorem SameRequests.entriesIn {ev e : Ev} (h : SameRequests ev e) (q i : ℕ) :
    entriesIn (e.pollq q).pds i = entriesIn (ev.pollq q).pds i := by
  have hcount : ∀ pds : List Pollfd, StWin.entriesIn pds i =
      (pds.map fun pd => (pd.fd, pd.events)).countP fun r =>
        decide (0 < r.1) && decide (r.2 ≠ Events.none) && decide (getGfd r.1 = i) := by
    intro pds
    rw [List.countP_map]
    rfl
  have hreq := h.requests q
  unfold Ev.requests at hreq
  rw [hcount, hcount, hreq]

/-- The entries of the pollqs of `w`. -/
def entriesOf (ev : Ev) (w : List ℕ) (i : ℕ) : ℕ :=
  ((ev.io_q.filter (· ∈ w)).map fun q => entriesIn (ev.pollq q).pds i).sum

/-- What is notified is no longer registered. -/
theorem Notified.registered {ev ev' : Ev} {w : List ℕ} (h : Notified ev ev' w) (i : ℕ) :
    ev.registered i = ev'.registered i + ev.entriesOf w i := by
  have hsum := sum_filter_add ev.io_q (· ∈ w) fun q => entriesIn (ev.pollq q).pds i
  have hrest : ev'.registered i =
      ((ev.io_q.filter fun q => !decide (q ∈ w)).map fun q => entriesIn (ev.pollq q).pds i).sum := by
    unfold Ev.registered
    rw [h.io_q]
    have hfilter : (ev.io_q.filter (· ∉ w)) = ev.io_q.filter fun q => !decide (q ∈ w) :=
      List.filter_congr fun q _ => by simp
    rw [hfilter]
    exact congrArg List.sum (List.map_congr_left fun q _ => h.same.entriesIn q i)
  rw [hrest, entriesOf, Nat.add_comm]
  exact hsum.symm

/-- No pollq of `w` has a registered entry. -/
theorem entriesOf_eq_zero_iff {ev : Ev} {w : List ℕ} (hw : ∀ q ∈ w, q ∈ ev.io_q) :
    (∀ i, ev.entriesOf w i = 0) ↔
      ∀ q ∈ w, ∀ pd ∈ (ev.pollq q).pds, 0 < pd.fd → pd.events = Events.none := by
  unfold entriesOf
  simp only [List.sum_eq_zero_iff_forall_eq_nat, List.mem_map, List.mem_filter, decide_eq_true_iff]
  constructor
  · intro h q hq pd hpd hfd
    by_contra hev
    have hnn := getGfd_nonneg hfd
    have hzero := h (getGfd pd.fd).toNat _ ⟨q, ⟨hw q hq, hq⟩, rfl⟩
    unfold entriesIn at hzero
    rw [List.countP_eq_zero] at hzero
    exact hzero pd hpd (Pollfd.isIn_iff.mpr ⟨hfd, hev, by omega⟩)
  · rintro h i n ⟨q, ⟨-, hq⟩, rfl⟩
    unfold entriesIn
    rw [List.countP_eq_zero]
    intro pd hpd hin
    obtain ⟨hfd, hev, -⟩ := Pollfd.isIn_iff.mp hin
    exact hev (h q hq pd hpd hfd)

/-! ## The size -/

/-- By how much the size of a group exceeds the number of its registered entries. -/
def drift (ev : Ev) (i : ℕ) : ℤ := (ev.data i).size - ev.registered i

/-- Every group's size is the number of its registered entries. -/
def SizesExact (ev : Ev) : Prop := ∀ i, (ev.data i).size = ev.registered i

/-- The sizes are exact if no group has drifted. -/
theorem sizesExact_iff {ev : Ev} : SizesExact ev ↔ ∀ i, ev.drift i = 0 :=
  forall_congr' fun _ => sub_eq_zero.symm

/-- A registration does not make a size drift. -/
theorem register_drift {ev : Ev} (hc : Counted ev) (thread : ℕ) (pds : List Pollfd) (i : ℕ) :
    (ev.register thread pds).drift i = ev.drift i := by
  obtain ⟨hio, hpollq, -⟩ := register_queue hc thread pds
  have hsize : ((ev.register thread pds).data i).size = (ev.data i).size + entriesIn pds i :=
    (pollsetAdd_fields pds i hc.table).1
  have hreg : (ev.register thread pds).registered i = ev.registered i + entriesIn pds i := by
    unfold registered
    rw [hio, hpollq, List.map_append, List.sum_append]
    congr 1
    · refine congrArg List.sum (List.map_congr_left fun q hq => ?_)
      have hlt := hc.fresh q hq
      rw [Function.update_of_ne (by omega)]
    · simp
  unfold drift
  rw [hsize, hreg]
  push_cast
  ring

/-- The removal of a registered pollq does not make a size drift. -/
theorem unregister_drift {ev : Ev} (hc : Counted ev) {q : ℕ} (hq : q ∈ ev.io_q) (i : ℕ) :
    (ev.unregister q).drift i = ev.drift i := by
  obtain ⟨hio, hpollq, -⟩ := unregister_queue hc hq
  have hsize : ((ev.unregister q).data i).size =
      (ev.data i).size - entriesIn (ev.pollq q).pds i := by
    unfold unregister
    rw [if_pos (hc.on_ioq q hq)]
    exact (@pollsetDel_fields (ev.pollq q).pds i { ev with io_q := ev.io_q.erase q }
      (hc.grouped q hq)).1
  have hreg : ev.registered i =
      entriesIn (ev.pollq q).pds i + (ev.unregister q).registered i := by
    unfold registered
    rw [hio, hpollq]
    exact (List.sum_map_erase (fun q => entriesIn (ev.pollq q).pds i) hq).symm
  unfold drift
  rw [hsize, hreg]
  push_cast
  ring

/-- The scan for bad descriptors leaves the sizes alone. -/
theorem badFold_size (bad : ℤ → Bool) (i : ℕ) (l : List ℕ) : ∀ {acc : Ev × List ℕ}, TableOk acc.1 →
    ((l.foldl (badPq bad) acc).1.data i).size = (acc.1.data i).size := by
  induction l with
  | nil => exact fun _ => rfl
  | cons q l ih =>
    intro acc ht
    have hstep : TableOk (badPq bad acc q).1 ∧
        ((badPq bad acc q).1.data i).size = (acc.1.data i).size := by
      unfold badPq
      dsimp only
      split_ifs
      · have ht' : TableOk (acc.1.takeOff q ((acc.1.pollq q).pds.map (badPd bad))) :=
          ⟨ht.sets, ht.past⟩
        refine ⟨?_, (badCutPds_fields _ i ht').1⟩
        refine List.foldlRecOn _ _ ht' ?_
        exact fun e he pd _ => cuts_badCutPd.table e pd he
      · exact ⟨⟨ht.sets, ht.past⟩, rfl⟩
    rw [List.foldl_cons, ih hstep.1]
    exact hstep.2

/-- A dispatch pass for one group leaves all sizes. -/
theorem dispatchOnce_size {ev : Ev} (hc : Counted ev) (i : ℕ) (outcome : SelectOutcome) (j : ℕ) :
    ((ev.dispatchOnce i outcome).1.data j).size = (ev.data j).size := by
  unfold dispatchOnce
  split_ifs
  · rfl
  · cases outcome with
    | ready ready =>
      have hover : ((ev.overwrite i ready).data j).size = (ev.data j).size := by
        unfold overwrite
        dsimp only
        by_cases hj : j = i
        · rw [hj, Function.update_self]
        · rw [Function.update_of_ne hj]
      dsimp only
      split_ifs
      · rw [(notifyFold_fields i _ _ j).1]
        exact hover
      · exact hover
    | error ebadf bad =>
      dsimp only
      split_ifs
      · unfold findBadFd
        dsimp only
        rw [badFold_size bad j]
        · dsimp only
          split_ifs <;> rfl
        · refine ⟨fun j' k fd hfd => hc.table.sets j' k fd ?_, fun j' hj' => ?_⟩
          · dsimp only at hfd
            split_ifs at hfd <;> exact hfd
          · dsimp only at hj' ⊢
            rw [if_neg (by omega)]
            exact hc.table.past j' hj'
      · rfl

/-- A group of a pass takes entries off the queue and not off the sizes. -/
theorem dispatchOnce_drift {ev : Ev} (hc : Counted ev) (i : ℕ) (outcome : SelectOutcome) (j : ℕ) :
    (ev.dispatchOnce i outcome).1.drift j =
      ev.drift j + ev.entriesOf (ev.dispatchOnce i outcome).2 j := by
  have hreg := (dispatchOnce_counted hc i outcome).1.registered j
  unfold drift
  rw [dispatchOnce_size hc, hreg]
  push_cast
  ring

/-- The condition on one group of a pass: `select` is not called for it, or reports nothing that a pollq
asks for, or fails while no pollq with a registered entry has a bad descriptor. -/
def GroupQuiet (ev : Ev) (i : ℕ) (outcome : SelectOutcome) : Prop :=
  (ev.data i).size ≤ 0 ∨ (ev.data i).maxfd ≤ 0 ∨
    match outcome with
    | .ready ready => ∀ q ∈ ev.io_q, ev.anyReady (fun k => (ev.data i).set k ∩ ready k) q = false
    | .error ebadf bad => ebadf = true → ∀ q ∈ ev.io_q, ev.anyBad bad q = true →
        ∀ pd ∈ (ev.pollq q).pds, 0 < pd.fd → pd.events = Events.none

/-- Under the condition, and only then, nobody with a registered entry is notified. -/
theorem groupQuiet_iff {ev : Ev} (hc : Counted ev) (i : ℕ) (outcome : SelectOutcome) :
    GroupQuiet ev i outcome ↔ ∀ q ∈ (ev.dispatchOnce i outcome).2, ∀ pd ∈ (ev.pollq q).pds,
      0 < pd.fd → pd.events = Events.none := by
  unfold GroupQuiet
  by_cases hguard : (ev.data i).size ≤ 0 ∨ (ev.data i).maxfd ≤ 0
  · have hnone : (ev.dispatchOnce i outcome).2 = [] := by
      unfold dispatchOnce
      rw [if_pos hguard]
    rw [hnone, ← or_assoc]
    exact iff_of_true (Or.inl hguard) (by simp)
  · rw [← or_assoc, or_iff_right hguard]
    cases outcome with
    | ready ready =>
      rw [dispatchOnce_ready hc hguard]
      dsimp only
      constructor
      · intro h q hq
        obtain ⟨hio, hany⟩ := List.mem_filter.mp hq
        rw [h q hio] at hany
        cases hany
      · intro h q hio
        by_contra hany
        rw [Bool.not_eq_false] at hany
        obtain ⟨pd, hpd, k, hhas, hmem⟩ := anyReady_iff.mp hany
        -- What is ready is in a set of the group, so that it is registered.
        have hfd := (hc.table.sets i k pd.fd (Finset.mem_inter.mp hmem).1).1
        exact Pollfd.events_ne_none hhas (h q (List.mem_filter.mpr ⟨hio, hany⟩) pd hpd hfd)
    | error ebadf bad =>
      have hwoken : (ev.dispatchOnce i (.error ebadf bad)).2 =
          if ebadf then ev.io_q.filter (ev.anyBad bad) else [] := by
        unfold dispatchOnce
        rw [if_neg hguard]
        cases ebadf with
        | false => rfl
        | true => exact findBadFd_woken hc bad
      rw [hwoken]
      cases ebadf with
      | false => simp
      | true => simp [and_imp]

/-- One group: the sizes are exact afterwards if and only if they were before and the condition holds. -/
theorem dispatchOnce_sizes {ev : Ev} (hc : Counted ev) (hpos : ∀ j, 0 ≤ ev.drift j) (i : ℕ)
    (outcome : SelectOutcome) :
    SizesExact (ev.dispatchOnce i outcome).1 ↔ SizesExact ev ∧ GroupQuiet ev i outcome := by
  have hmem := (dispatchOnce_counted hc i outcome).1.mem
  rw [groupQuiet_iff hc, ← entriesOf_eq_zero_iff hmem, sizesExact_iff, sizesExact_iff,
    ← forall_and]
  refine forall_congr' fun j => ?_
  rw [dispatchOnce_drift hc]
  have := hpos j
  omega

/-! ## Passes and runs -/

/-- The groups of a pass as a run of their own. -/
def groupStep (outcomes : ℕ → SelectOutcome) (ev : Ev) (i : ℕ) : Option Ev :=
  some (ev.dispatchOnce i (outcomes i)).1

/-- The groups of a pass, one after the other, are a run. -/
theorem run_groupStep (outcomes : ℕ → SelectOutcome) (l : List ℕ) : ∀ (ev : Ev) (woken : List ℕ),
    Runs.run (groupStep outcomes) ev l =
      some (l.foldl (dispatchGroup outcomes) (ev, woken)).1 := by
  induction l with
  | nil => exact fun _ _ => rfl
  | cons i l ih => exact fun ev woken => ih _ _

/-- The condition on a pass: each group meets its condition when the pass reaches it. -/
def PassQuiet (ev : Ev) (outcomes : ℕ → SelectOutcome) : Prop :=
  Runs.Meets (groupStep outcomes) (fun ev i => GroupQuiet ev i (outcomes i)) ev (List.range ev.num)

/-- The invariant under which the sizes are compared: they are never too small. -/
structure Sized (ev : Ev) : Prop where
  counted : Counted ev
  drift : ∀ i, 0 ≤ ev.drift i

/-- A dispatch pass for one group keeps the sizes at least as large as they have to be. -/
theorem dispatchOnce_sized {ev : Ev} (h : Sized ev) (i : ℕ) (outcome : SelectOutcome) :
    Sized (ev.dispatchOnce i outcome).1 := by
  refine ⟨(dispatchOnce_counted h.counted i outcome).2, fun j => ?_⟩
  rw [dispatchOnce_drift h.counted]
  have := h.drift j
  omega

/-- One pass. -/
theorem dispatch_sizes {ev : Ev} (h : Sized ev) (outcomes : ℕ → SelectOutcome) :
    Sized (ev.dispatch outcomes).1 ∧
      (SizesExact (ev.dispatch outcomes).1 ↔ SizesExact ev ∧ PassQuiet ev outcomes) := by
  have hrun := run_groupStep outcomes (List.range ev.num) ev []
  refine ⟨?_, ?_⟩
  · refine Runs.run_invariant_of_step (I := Sized) ?_ h hrun
    intro e i e' he hstep
    cases hstep
    exact dispatchOnce_sized he i _
  · refine Runs.run_iff (J := Sized) ?_ ?_ h hrun
    · intro e i e' he hstep
      cases hstep
      exact dispatchOnce_sized he i _
    · intro e i e' he hstep
      cases hstep
      exact dispatchOnce_sizes he.counted he.drift i _

/-- The condition on a step of the event system: a pass is quiet. -/
def Polls.StepQuiet (p : Polls) : Polls.Op → Prop
  | .dispatch outcomes => PassQuiet p.ev outcomes
  | _ => True

/-- One step of the event system. -/
theorem Polls.step_sizes {p p' : Polls} {op : Polls.Op} (hinv : Polls.Inv p) (h : Sized p.ev)
    (hstep : p.step op = some p') :
    Sized p'.ev ∧ (SizesExact p'.ev ↔ SizesExact p.ev ∧ p.StepQuiet op) := by
  have hinv' := Polls.step_inv hinv hstep
  -- A step that keeps the drift keeps everything.
  have hkeep : (∀ i, p'.ev.drift i = p.ev.drift i) →
      Sized p'.ev ∧ (SizesExact p'.ev ↔ SizesExact p.ev ∧ True) := by
    intro hdrift
    refine ⟨⟨hinv'.counted, fun i => hdrift i ▸ h.drift i⟩, ?_⟩
    rw [sizesExact_iff, sizesExact_iff, and_true]
    exact forall_congr' fun i => by rw [hdrift i]
  cases op with
  | register thread pds =>
    cases hstep
    exact hkeep fun i => register_drift hinv.counted thread pds i
  | resume q =>
    rw [Polls.step] at hstep
    split_ifs at hstep with hq
    cases hstep
    refine hkeep fun i => ?_
    by_cases hon : (p.ev.pollq q).on_ioq = true
    · exact unregister_drift hinv.counted (hinv.on_ioq q hq hon) i
    · dsimp only
      rw [unregister_of_off hon]
  | dispatch outcomes =>
    cases hstep
    exact dispatch_sizes h outcomes

/-- A group's size counts its registered entries. In every run, the size of every group is the number of
entries with a descriptor above zero in the group and `events != 0` of the pollqs on the I/O queue, if and
only if every pass of the run is quiet. Then a group is skipped for its size exactly if nothing is
registered in it. -/
theorem run_size_exact (ops : List Polls.Op) {p : Polls}
    (hrun : Runs.run Polls.step Polls.init ops = some p) :
    ((∀ i, (p.ev.data i).size = p.ev.registered i) ↔
        Runs.Meets Polls.step Polls.StepQuiet Polls.init ops) ∧
      (Runs.Meets Polls.step Polls.StepQuiet Polls.init ops →
        ∀ i, (p.ev.data i).size ≤ 0 ↔ p.ev.registered i = 0) := by
  have hinit : SizesExact Polls.init.ev := fun _ => rfl
  have hsized : Sized Polls.init.ev :=
    ⟨init_counted, fun i => le_of_eq (sizesExact_iff.mp hinit i).symm⟩
  have hiff : SizesExact p.ev ↔
      SizesExact Polls.init.ev ∧ Runs.Meets Polls.step Polls.StepQuiet Polls.init ops := by
    refine Runs.run_iff (J := fun p => Polls.Inv p ∧ Sized p.ev) (I := fun p => SizesExact p.ev)
      ?_ ?_ ⟨Polls.init_inv, hsized⟩ hrun
    · rintro p op p' ⟨hinv, h⟩ hstep
      exact ⟨Polls.step_inv hinv hstep, (Polls.step_sizes hinv h hstep).1⟩
    · rintro p op p' ⟨hinv, h⟩ hstep
      exact (Polls.step_sizes hinv h hstep).2
  rw [and_iff_right hinit] at hiff
  refine ⟨hiff, fun hquiet i => ?_⟩
  rw [hiff.mpr hquiet i]
  omega

/-- A request that times out is taken off, and the sizes are exact. -/
theorem run_size_exact_timedOut : ∃ p, Runs.run Polls.step Polls.init timedOutOps = some p ∧
    ((∀ i, (p.ev.data i).size = p.ev.registered i) ↔
      Runs.Meets Polls.step Polls.StepQuiet Polls.init timedOutOps) :=
  ⟨_, rfl, (run_size_exact timedOutOps rfl).1⟩

/-- A call that is notified leaves its entry in the size. -/
theorem run_size_drifts : ∃ p,
    Runs.run Polls.step Polls.init [twoEntries Events.none, .dispatch fun _ => firstReady] = some p ∧
      p.ev.io_q = [] ∧ p.ev.registered 0 = 0 ∧ (p.ev.data 0).size = 2 :=
  ⟨_, rfl, by decide, by decide, by decide⟩

end Ev

end StWin
