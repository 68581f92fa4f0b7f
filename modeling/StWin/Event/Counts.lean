import StWin.Event.Model
import Mathlib.Algebra.BigOperators.Group.List.Basic
import Mathlib.Data.List.Count
import Mathlib.Tactic.Ring

/-!
# Interest counts

For a descriptor above zero and an event, the interest of a `pollfd` array is the number of its
entries that ask for it, and `total` is the interest of the pollqs on the I/O queue. `Counted` is
the invariant of the counts: they are the totals.

The three copies of the decrement code (`delPd` for a timeout, `notifyPd` for a notification, and
`badCutPd` for a bad descriptor) differ in what they skip. `Cuts` says what they share, for the
entries of a registered array: each undoes what `addPd` did to the counts, and each takes a
descriptor out of a set exactly when its count falls to zero. `Tracked M` describes the sets in that
light: a descriptor is in the set of its group when its count is positive and `M` holds of it.
-/

namespace StWin

/-- An entry that asks for event `k` on `fd`. -/
def Pollfd.asks (pd : Pollfd) (k : Kind) (fd : ℤ) : Bool := decide (pd.fd = fd) && pd.events.has k

/-- The number of entries that ask for event `k` on `fd`. -/
def interest (pds : List Pollfd) (k : Kind) (fd : ℤ) : ℕ := pds.countP fun pd => pd.asks k fd

/-- No entry asks for anything. -/
@[simp] theorem interest_nil (k : Kind) (fd : ℤ) : interest [] k fd = 0 := rfl

/-- An entry asks for something once, or not at all. -/
theorem interest_cons (pd : Pollfd) (pds : List Pollfd) (k : Kind) (fd : ℤ) :
    interest (pd :: pds) k fd = interest pds k fd + (pd.asks k fd).toNat := by
  unfold interest
  rw [List.countP_cons]
  cases pd.asks k fd <;> rfl

/-- Somebody asks for an event of a descriptor exactly if there is an entry for it. -/
theorem interest_pos {pds : List Pollfd} {k : Kind} {fd : ℤ} :
    0 < interest pds k fd ↔ ∃ pd ∈ pds, pd.fd = fd ∧ pd.events.has k = true := by
  unfold interest
  rw [List.countP_pos_iff]
  simp [Pollfd.asks]

/-- Interest reads only the descriptors and the requested events. -/
theorem interest_map {f : Pollfd → Pollfd} (hfd : ∀ pd, (f pd).fd = pd.fd)
    (hev : ∀ pd, (f pd).events = pd.events) (pds : List Pollfd) (k : Kind) (fd : ℤ) :
    interest (pds.map f) k fd = interest pds k fd := by
  unfold interest
  rw [List.countP_map]
  congr 1
  funext pd
  simp [Pollfd.asks, hfd, hev]

/-- An entry that asks for an event requests something. -/
theorem Pollfd.events_ne_none {pd : Pollfd} {k : Kind} (h : pd.events.has k = true) :
    pd.events ≠ Events.none := by
  intro heq
  rw [heq] at h
  cases k <;> simp [Events.has, Events.none] at h

namespace Ev

/-- The number of entries of the pollqs on the I/O queue that ask for event `k` on `fd`. -/
def total (ev : Ev) (k : Kind) (fd : ℤ) : ℕ :=
  (ev.io_q.map fun q => interest (ev.pollq q).pds k fd).sum

/-- `fd` is in the set for event `k` of its group. -/
def watched (ev : Ev) (k : Kind) (fd : ℤ) : Prop := fd ∈ (ev.data (getGfd fd).toNat).set k

/-- The entry's group is in the table, if the entry is one that `pollset_add` registers. -/
def Grouped (num : ℕ) (pd : Pollfd) : Prop :=
  0 < pd.fd → pd.events ≠ Events.none → getGfd pd.fd < num

/-- The table of groups: a set of a group holds descriptors of that group only, and the entries
past the table are as they will be allocated. -/
structure TableOk (ev : Ev) : Prop where
  sets : ∀ i k fd, fd ∈ (ev.data i).set k → 0 < fd ∧ getGfd fd = i
  past : ∀ i, ev.num ≤ i → ev.data i = Seldata.new i

/-- Where `M` holds, the sets and the counts agree; elsewhere the sets are empty. -/
def Tracked (M : Kind → ℤ → Prop) (ev : Ev) : Prop :=
  ∀ k fd, 0 < fd → (ev.watched k fd ↔ M k fd ∧ 0 < ev.getCnt k fd)

/-- The parts of the state that registration and removal of entries leave alone. -/
structure SameQueue (ev ev' : Ev) : Prop where
  io_q : ev'.io_q = ev.io_q
  pollq : ev'.pollq = ev.pollq
  next : ev'.next = ev.next

/-- Nothing has been done. -/
theorem SameQueue.refl (ev : Ev) : SameQueue ev ev := ⟨rfl, rfl, rfl⟩

/-- One after the other. -/
theorem SameQueue.trans {ev₁ ev₂ ev₃ : Ev} (h : SameQueue ev₁ ev₂) (h' : SameQueue ev₂ ev₃) :
    SameQueue ev₁ ev₃ :=
  ⟨h'.io_q.trans h.io_q, h'.pollq.trans h.pollq, h'.next.trans h.next⟩

/-- The group of a positive descriptor has an index. -/
theorem getGfd_nonneg {fd : ℤ} (h : 0 < fd) : 0 ≤ getGfd fd :=
  Int.tdiv_nonneg (by omega) (by decide)

/-! ## The counts and the sets under single assignments -/

/-- One counter is assigned to. -/
theorem getCnt_setCnt (ev : Ev) (k k' : Kind) (fd fd' c : ℤ) :
    (ev.setCnt k' fd' c).getCnt k fd = if k = k' ∧ fd = fd' then c else ev.getCnt k fd := by
  unfold getCnt setCnt
  by_cases hk : k = k'
  · subst hk
    by_cases hfd : fd = fd'
    · subst hfd; simp
    · simp [hfd]
  · simp [hk]

/-- One counter is one more. -/
theorem getCnt_addCnt (ev : Ev) (k k' : Kind) (fd fd' : ℤ) :
    (ev.addCnt k' fd').getCnt k fd =
      ev.getCnt k fd + if k = k' ∧ fd = fd' then 1 else 0 := by
  have hcnt : ev.getCnt k' fd' = (ev.cnt k' fd').getD 0 := rfl
  unfold addCnt
  cases hc : ev.cnt k' fd' with
  | none =>
    rw [hc] at hcnt
    dsimp only
    rw [getCnt_setCnt]
    split_ifs with h
    · obtain ⟨rfl, rfl⟩ := h
      rw [hcnt]; rfl
    · rw [add_zero]
  | some c =>
    rw [hc] at hcnt
    dsimp only
    rw [getCnt_setCnt]
    split_ifs with h
    · obtain ⟨rfl, rfl⟩ := h
      rw [hcnt]; rfl
    · rw [add_zero]

/-- A count that is positive is decremented, and the new value returned. -/
theorem delCnt_of_pos {ev : Ev} {k : Kind} {fd : ℤ} (h : 0 < ev.getCnt k fd) :
    ev.delCnt k fd = (ev.setCnt k fd (ev.getCnt k fd - 1), ev.getCnt k fd - 1) := by
  unfold delCnt
  unfold getCnt at h ⊢
  cases hc : ev.cnt k fd with
  | none => rw [hc] at h; simp at h
  | some c => rfl

/-- The other counters are as they were. -/
theorem getCnt_delCnt_of_ne {ev : Ev} {k k' : Kind} {fd fd' : ℤ} (h : ¬(k = k' ∧ fd = fd')) :
    (ev.delCnt k' fd').1.getCnt k fd = ev.getCnt k fd := by
  unfold delCnt
  cases hc : ev.cnt k' fd' with
  | none => rfl
  | some c =>
    dsimp only
    rw [getCnt_setCnt, if_neg h]

section setData

variable (ev : Ev) (gfd : ℤ) (f : Seldata → Seldata) (k : Kind) (fd : ℤ)

/-- An assignment to a group leaves the counters. -/
@[simp] theorem setData_getCnt : (ev.setData gfd f).getCnt k fd = ev.getCnt k fd := by
  unfold setData; split_ifs <;> rfl

/-- An assignment to a group leaves the number of groups. -/
@[simp] theorem setData_num : (ev.setData gfd f).num = ev.num := by
  unfold setData; split_ifs <;> rfl

/-- An assignment to a group leaves the I/O queue. -/
theorem setData_sameQueue : SameQueue ev (ev.setData gfd f) := by
  unfold setData; split_ifs <;> exact ⟨rfl, rfl, rfl⟩

/-- The sets after an assignment to a group. -/
theorem setData_set (i : ℕ) : ((ev.setData gfd f).data i).set =
    if 0 ≤ gfd ∧ gfd < ev.num ∧ gfd = i then (f (ev.data i)).set else (ev.data i).set := by
  unfold setData
  by_cases hr : 0 ≤ gfd ∧ gfd < ev.num
  · rw [if_pos hr]
    by_cases hi : gfd = i
    · subst hi
      simp [hr]
    · have hne : i ≠ gfd.toNat := by omega
      simp [hne, hi]
  · rw [if_neg hr, if_neg (by omega)]

end setData

/-- `fdset_del_cnt` leaves the I/O queue and the groups. -/
theorem delCnt_frame (ev : Ev) (k : Kind) (fd : ℤ) :
    SameQueue ev (ev.delCnt k fd).1 ∧ (ev.delCnt k fd).1.num = ev.num ∧
      (ev.delCnt k fd).1.data = ev.data := by
  unfold delCnt
  cases ev.cnt k fd <;> exact ⟨⟨rfl, rfl, rfl⟩, rfl, rfl⟩

/-- `fdset_add_cnt` leaves the I/O queue and the groups. -/
theorem addCnt_frame (ev : Ev) (k : Kind) (fd : ℤ) :
    SameQueue ev (ev.addCnt k fd) ∧ (ev.addCnt k fd).num = ev.num ∧
      (ev.addCnt k fd).data = ev.data := by
  unfold addCnt
  cases ev.cnt k fd <;> exact ⟨⟨rfl, rfl, rfl⟩, rfl, rfl⟩

/-! ## The decrements for one entry -/

/-- Each event that the entry asks for, on a descriptor above zero, has a positive count. -/
def Held (ev : Ev) (pd : Pollfd) : Prop :=
  ∀ k, 0 < pd.fd → pd.events.has k = true → 0 < ev.getCnt k pd.fd

/-- What a copy of the decrement code does to one entry. -/
structure Cuts (f : Ev → Pollfd → Ev) : Prop where
  queue : ∀ ev pd, SameQueue ev (f ev pd)
  num : ∀ ev pd, ev.num ≤ (f ev pd).num
  table : ∀ ev pd, TableOk ev → TableOk (f ev pd)
  cnt : ∀ ev pd, Grouped ev.num pd → Held ev pd → ∀ k fd, 0 < fd →
    (f ev pd).getCnt k fd = ev.getCnt k fd - (pd.asks k fd).toNat
  tracked : ∀ M ev pd, TableOk ev → Grouped ev.num pd → Held ev pd → Tracked M ev →
    Tracked M (f ev pd)
  sub : ∀ ev pd i k, ((f ev pd).data i).set k ⊆ (ev.data i).set k

section cutKind

variable {gfd : ℤ} {pd : Pollfd} {ev : Ev} {k' : Kind}

/-- The removal of one kind of interest leaves the I/O queue and the number of groups. -/
theorem cutKind_frame : SameQueue ev (cutKind gfd pd ev k') ∧ (cutKind gfd pd ev k').num = ev.num := by
  obtain ⟨hq, hn, -⟩ := delCnt_frame ev k' pd.fd
  unfold cutKind
  split_ifs
  · dsimp only
    split_ifs
    · exact ⟨hq.trans (setData_sameQueue _ _ _), by rw [editSet, setData_num, hn]⟩
    · exact ⟨hq, hn⟩
  · exact ⟨SameQueue.refl ev, rfl⟩

/-- The groups after one decrement: at most one descriptor leaves one set. -/
theorem cutKind_data (i : ℕ) (k : Kind) : ((cutKind gfd pd ev k').data i).set k = (ev.data i).set k ∨
    ((cutKind gfd pd ev k').data i).set k = ((ev.data i).set k).erase pd.fd := by
  obtain ⟨-, -, hd⟩ := delCnt_frame ev k' pd.fd
  unfold cutKind
  split_ifs
  · dsimp only
    split_ifs
    · unfold editSet
      rw [setData_set, hd]
      split_ifs
      · by_cases hk : k = k'
        · subst hk; simp
        · simp [hk]
      · exact Or.inl rfl
    · rw [hd]; exact Or.inl rfl
  · exact Or.inl rfl

/-- The removal of one kind of interest keeps the groups in order. -/
theorem cutKind_table (ht : TableOk ev) : TableOk (cutKind gfd pd ev k') := by
  constructor
  · intro i k fd hfd
    rcases @cutKind_data gfd pd ev k' i k with h | h
    · rw [h] at hfd; exact ht.sets i k fd hfd
    · rw [h] at hfd; exact ht.sets i k fd (Finset.mem_of_mem_erase hfd)
  · intro i hi
    rw [cutKind_frame.2] at hi
    obtain ⟨-, hn, hd⟩ := delCnt_frame ev k' pd.fd
    unfold cutKind
    split_ifs
    · dsimp only
      split_ifs
      · unfold editSet setData
        rw [hn, hd]
        split_ifs with hr
        · have hne : i ≠ gfd.toNat := by omega
          dsimp only
          rw [Function.update_of_ne hne]
          exact ht.past i hi
        · exact ht.past i hi
      · rw [hd]; exact ht.past i hi
    · exact ht.past i hi

/-- The removal of one kind of interest takes off what the entry asked for. -/
theorem cutKind_cnt (hheld : 0 < pd.fd → pd.events.has k' = true → 0 < ev.getCnt k' pd.fd)
    (k : Kind) {fd : ℤ} (hfd : 0 < fd) : (cutKind gfd pd ev k').getCnt k fd =
      ev.getCnt k fd - if k = k' ∧ pd.asks k fd = true then 1 else 0 := by
  unfold cutKind
  by_cases hhas : pd.events.has k' = true
  · rw [if_pos hhas]
    have hset : ∀ (e : Ev) (c : ℤ), (if c = 0 then e.editSet gfd k' (·.erase pd.fd) else e).getCnt k fd =
        e.getCnt k fd := by
      intro e c
      split_ifs
      · rw [editSet, setData_getCnt]
      · rfl
    dsimp only
    rw [hset]
    by_cases hsame : k = k' ∧ fd = pd.fd
    · obtain ⟨rfl, rfl⟩ := hsame
      rw [delCnt_of_pos (hheld hfd hhas)]
      dsimp only
      rw [getCnt_setCnt, if_pos ⟨rfl, rfl⟩, if_pos ⟨rfl, by simp [Pollfd.asks, hhas]⟩]
    · rw [getCnt_delCnt_of_ne hsame, if_neg, sub_zero]
      rintro ⟨rfl, hasks⟩
      simp only [Pollfd.asks, Bool.and_eq_true, decide_eq_true_eq] at hasks
      exact hsame ⟨rfl, hasks.1.symm⟩
  · rw [if_neg hhas, if_neg, sub_zero]
    rintro ⟨rfl, hasks⟩
    simp only [Pollfd.asks, Bool.and_eq_true, decide_eq_true_eq] at hasks
    exact hhas hasks.2

/-- The descriptor leaves the set of its group when the count falls to zero. -/
theorem cutKind_watched (hgfd : 0 < pd.fd → pd.events.has k' = true →
      gfd = getGfd pd.fd ∧ gfd < ev.num)
    (hheld : 0 < pd.fd → pd.events.has k' = true → 0 < ev.getCnt k' pd.fd) (k : Kind) {fd : ℤ}
    (hfd : 0 < fd) : (cutKind gfd pd ev k').watched k fd ↔ ev.watched k fd ∧
      ¬(k = k' ∧ pd.asks k fd = true ∧ ev.getCnt k fd = 1) := by
  obtain ⟨-, hn, hd⟩ := delCnt_frame ev k' pd.fd
  unfold cutKind
  by_cases hhas : pd.events.has k' = true
  · rw [if_pos hhas]
    by_cases hsame : k = k' ∧ fd = pd.fd
    · obtain ⟨rfl, rfl⟩ := hsame
      obtain ⟨hg, hgn⟩ := hgfd hfd hhas
      have hasks : pd.asks k pd.fd = true := by simp [Pollfd.asks, hhas]
      -- The counter of this very event and descriptor.
      rw [delCnt_of_pos (hheld hfd hhas)]
      dsimp only
      split_ifs with hzero
      · have hone : ev.getCnt k pd.fd = 1 := by omega
        have hnn := getGfd_nonneg hfd
        simp only [watched, editSet, setData_set]
        rw [if_pos ⟨by omega, hgn, by omega⟩]
        simp [hasks, hone]
      · have hone : ev.getCnt k pd.fd ≠ 1 := by omega
        simp only [hone, and_false, not_false_eq_true, and_true]
        rfl
    · -- Another descriptor or another event.
      have hrhs : ¬(k = k' ∧ pd.asks k fd = true ∧ ev.getCnt k fd = 1) := by
        rintro ⟨rfl, hasks, -⟩
        simp only [Pollfd.asks, Bool.and_eq_true, decide_eq_true_eq] at hasks
        exact hsame ⟨rfl, hasks.1.symm⟩
      simp only [hrhs, not_false_eq_true, and_true]
      split_ifs with hzero
      · simp only [watched, editSet, setData_set, hd]
        split_ifs with hr
        · by_cases hk : k = k'
          · subst hk
            have hne : fd ≠ pd.fd := fun heq => hsame ⟨rfl, heq⟩
            simp [hne]
          · simp [hk]
        · rfl
      · simp only [watched, hd]
  · -- The entry does not ask for the event, so nothing is done.
    rw [if_neg hhas]
    have hrhs : ¬(k = k' ∧ pd.asks k fd = true ∧ ev.getCnt k fd = 1) := by
      rintro ⟨rfl, hasks, -⟩
      simp only [Pollfd.asks, Bool.and_eq_true, decide_eq_true_eq] at hasks
      exact hhas hasks.2
    simp only [hrhs, not_false_eq_true, and_true]

/-- A bit is cleared only when its counter has become zero. -/
theorem cutKind_tracked {M : Kind → ℤ → Prop} (hgfd : 0 < pd.fd → pd.events.has k' = true →
      gfd = getGfd pd.fd ∧ gfd < ev.num)
    (hheld : 0 < pd.fd → pd.events.has k' = true → 0 < ev.getCnt k' pd.fd)
    (htr : Tracked M ev) : Tracked M (cutKind gfd pd ev k') := by
  intro k fd hfd
  rw [cutKind_watched hgfd hheld k hfd, cutKind_cnt hheld k hfd, htr k fd hfd]
  by_cases h : k = k' ∧ pd.asks k fd = true
  · obtain ⟨rfl, hasks⟩ := h
    have hpos : 0 < ev.getCnt k fd := by
      simp only [Pollfd.asks, Bool.and_eq_true, decide_eq_true_eq] at hasks
      obtain ⟨rfl, hhas⟩ := hasks
      exact hheld hfd hhas
    simp only [hasks, true_and, and_self, if_true]
    constructor
    · rintro ⟨⟨hM, -⟩, hne⟩
      exact ⟨hM, by omega⟩
    · rintro ⟨hM, hlt⟩
      exact ⟨⟨hM, hpos⟩, by omega⟩
  · have hno : ¬(k = k' ∧ pd.asks k fd = true ∧ ev.getCnt k fd = 1) := fun hc => h ⟨hc.1, hc.2.1⟩
    simp only [if_neg h, hno, not_false_eq_true, and_true, sub_zero]

end cutKind

/-- The decrements for some events of one entry. -/
theorem cutKinds_spec {gfd : ℤ} {pd : Pollfd} (ks : List Kind) :
    ∀ {ev : Ev}, ks.Nodup →
      (∀ k ∈ ks, 0 < pd.fd → pd.events.has k = true → 0 < ev.getCnt k pd.fd) →
      (∀ k ∈ ks, 0 < pd.fd → pd.events.has k = true → gfd = getGfd pd.fd ∧ gfd < ev.num) →
      (∀ k fd, 0 < fd → (ks.foldl (cutKind gfd pd) ev).getCnt k fd =
        ev.getCnt k fd - if k ∈ ks ∧ pd.asks k fd = true then 1 else 0) ∧
      ∀ M, Tracked M ev → Tracked M (ks.foldl (cutKind gfd pd) ev) := by
  induction ks with
  | nil =>
    intro ev _ _ _
    simp
  | cons k' ks ih =>
    intro ev hnd hheld hgfd
    obtain ⟨hk', hnd'⟩ := List.nodup_cons.mp hnd
    have hheld' := hheld k' List.mem_cons_self
    have hgfd' := hgfd k' List.mem_cons_self
    have hcnt := fun k fd (hfd : 0 < fd) => @cutKind_cnt gfd pd ev k' hheld' k fd hfd
    have hn := (@cutKind_frame gfd pd ev k').2
    have hrest := @ih (cutKind gfd pd ev k') hnd' ?_ ?_
    · refine ⟨fun k fd hfd => ?_, fun M htr => hrest.2 M (cutKind_tracked hgfd' hheld' htr)⟩
      rw [List.foldl_cons, hrest.1 k fd hfd, hcnt k fd hfd]
      by_cases hkk : k = k'
      · subst hkk
        simp [hk']
      · simp [hkk]
    · intro k hk hfd hhas
      have hne : k ≠ k' := fun heq => hk' (heq ▸ hk)
      rw [hcnt k _ hfd, if_neg (fun hc => hne hc.1), sub_zero]
      exact hheld k (List.mem_cons_of_mem _ hk) hfd hhas
    · intro k hk hfd hhas
      rw [hn]
      exact hgfd k (List.mem_cons_of_mem _ hk) hfd hhas

/-- A property that each decrement keeps is kept by the three together. -/
theorem cutPd_induct {P : Ev → Prop} (gfd : ℤ) (pd : Pollfd)
    (hstep : ∀ ev k, P ev → P (cutKind gfd pd ev k)) {ev : Ev} (h : P ev) : P (ev.cutPd gfd pd) :=
  hstep _ _ (hstep _ _ (hstep _ _ h))

/-- The three decrements for one entry, at its own group. -/
theorem cutPd_spec {ev : Ev} {gfd : ℤ} {pd : Pollfd} (hheld : Held ev pd)
    (hgfd : 0 < pd.fd → pd.events ≠ Events.none → gfd = getGfd pd.fd ∧ gfd < ev.num) :
    (∀ k fd, 0 < fd →
      (ev.cutPd gfd pd).getCnt k fd = ev.getCnt k fd - (pd.asks k fd).toNat) ∧
      ∀ M, Tracked M ev → Tracked M (ev.cutPd gfd pd) := by
  obtain ⟨hcnt, htr⟩ := @cutKinds_spec gfd pd [.read, .write, .excep] ev (by decide)
    (fun k _ => hheld k) (fun k _ hfd hhas => hgfd hfd (Pollfd.events_ne_none hhas))
  refine ⟨fun k fd hfd => ?_, htr⟩
  rw [cutPd, hcnt k fd hfd]
  have hmem : k ∈ [Kind.read, .write, .excep] := by cases k <;> simp
  cases hasks : pd.asks k fd <;> simp [hmem]

/-! ## The three copies of the decrement code -/

section keep

variable {ev : Ev} {gfd : ℤ} {f : Seldata → Seldata}

/-- An assignment to a group that leaves its sets. -/
theorem setData_set_keep (hf : ∀ d, (f d).set = d.set) (i : ℕ) :
    ((ev.setData gfd f).data i).set = (ev.data i).set := by
  rw [setData_set]
  split_ifs
  · exact hf _
  · rfl

/-- An assignment to a group that leaves its sets keeps the groups in order. -/
theorem setData_table (hf : ∀ d, (f d).set = d.set) (ht : TableOk ev) :
    TableOk (ev.setData gfd f) := by
  constructor
  · intro i k fd hfd
    rw [setData_set_keep hf] at hfd
    exact ht.sets i k fd hfd
  · intro i hi
    rw [setData_num] at hi
    unfold setData
    split_ifs with hr
    · have hne : i ≠ gfd.toNat := by omega
      dsimp only
      rw [Function.update_of_ne hne]
      exact ht.past i hi
    · exact ht.past i hi

/-- An assignment to a group that leaves its sets keeps them tracked. -/
theorem setData_tracked (hf : ∀ d, (f d).set = d.set) {M : Kind → ℤ → Prop} (htr : Tracked M ev) :
    Tracked M (ev.setData gfd f) := by
  intro k fd hfd
  unfold watched
  rw [setData_set_keep hf, setData_getCnt]
  exact htr k fd hfd

end keep

/-- Growing the table changes no group and no count. -/
theorem checkSeldata_spec {ev : Ev} (ht : TableOk ev) (gfd : ℤ) :
    TableOk (ev.checkSeldata gfd) ∧ (∀ M, Tracked M ev → Tracked M (ev.checkSeldata gfd)) ∧
      gfd < (ev.checkSeldata gfd).num := by
  unfold checkSeldata
  split_ifs with hlt
  · exact ⟨ht, fun _ h => h, hlt⟩
  · have hdata : (fun i => if i < ev.num then ev.data i else Seldata.new i) = ev.data := by
      funext i
      split_ifs with hi
      · rfl
      · exact (ht.past i (by omega)).symm
    rw [hdata]
    refine ⟨⟨ht.sets, fun i hi => ht.past i ?_⟩, fun _ h => h, ?_⟩
    · dsimp only at hi
      omega
    · dsimp only
      omega

/-- The table of groups may grow, and nothing else happens. -/
theorem checkSeldata_frame (ev : Ev) (gfd : ℤ) :
    SameQueue ev (ev.checkSeldata gfd) ∧ ev.num ≤ (ev.checkSeldata gfd).num ∧
      ∀ k fd, (ev.checkSeldata gfd).getCnt k fd = ev.getCnt k fd := by
  unfold checkSeldata
  split_ifs with hlt
  · exact ⟨SameQueue.refl ev, le_rfl, fun _ _ => rfl⟩
  · refine ⟨⟨rfl, rfl, rfl⟩, ?_, fun _ _ => rfl⟩
    dsimp only
    omega

/-- The removal of an entry leaves the I/O queue and the number of groups. -/
theorem cutPd_frame (ev : Ev) (gfd : ℤ) (pd : Pollfd) :
    SameQueue ev (ev.cutPd gfd pd) ∧ (ev.cutPd gfd pd).num = ev.num := by
  refine cutPd_induct (P := fun e => SameQueue ev e ∧ e.num = ev.num) gfd pd ?_ ⟨SameQueue.refl ev, rfl⟩
  rintro e k ⟨hq, hn⟩
  obtain ⟨hq', hn'⟩ := @cutKind_frame gfd pd e k
  exact ⟨hq.trans hq', hn'.trans hn⟩

/-- The removal of an entry keeps the groups in order. -/
theorem cutPd_table {ev : Ev} (ht : TableOk ev) (gfd : ℤ) (pd : Pollfd) :
    TableOk (ev.cutPd gfd pd) :=
  cutPd_induct gfd pd (fun _ _ h => cutKind_table h) ht

/-- The removal of an entry sets no bit. -/
theorem cutPd_sub (ev : Ev) (gfd : ℤ) (pd : Pollfd) (i : ℕ) (k : Kind) :
    ((ev.cutPd gfd pd).data i).set k ⊆ (ev.data i).set k := by
  refine cutPd_induct (P := fun e => (e.data i).set k ⊆ (ev.data i).set k) gfd pd ?_ subset_rfl
  intro e k' h
  rcases @cutKind_data gfd pd e k' i k with heq | heq
  · rw [heq]
    exact h
  · rw [heq]
    exact (Finset.erase_subset _ _).trans h

/-- An entry that `pollset_add` does not register asks for nothing on a descriptor above zero. -/
theorem asks_eq_false {pd : Pollfd} (h : pd.fd ≤ 0 ∨ pd.events = Events.none) (k : Kind) {fd : ℤ}
    (hfd : 0 < fd) : pd.asks k fd = false := by
  rcases h with h | h
  · have hne : pd.fd ≠ fd := by omega
    simp [Pollfd.asks, hne]
  · have hhas : pd.events.has k = false := by rw [h]; cases k <;> rfl
    simp [Pollfd.asks, hhas]

/-- In `_st_select_pollset_del` the test of the group only skips what the other two tests skip. -/
theorem Grouped.skipped {num : ℕ} {pd : Pollfd} (hg : Grouped num pd)
    (h : pd.fd ≤ 0 ∨ pd.events = Events.none ∨ (num : ℤ) ≤ getGfd pd.fd) :
    pd.fd ≤ 0 ∨ pd.events = Events.none := by
  by_contra hc
  push Not at hc
  have hlt := hg hc.1 hc.2
  rcases h with h | h | h
  · omega
  · exact hc.2 h
  · omega

/-- The removal on timeout or interrupt. -/
theorem cuts_delPd : Cuts delPd := by
  constructor
  · intro ev pd
    unfold delPd
    dsimp only
    split_ifs
    · exact SameQueue.refl ev
    · exact (cutPd_frame ev _ pd).1.trans (setData_sameQueue _ _ _)
  · intro ev pd
    unfold delPd
    dsimp only
    split_ifs
    · exact le_rfl
    · rw [setData_num, (cutPd_frame ev _ pd).2]
  · intro ev pd ht
    unfold delPd
    dsimp only
    split_ifs
    · exact ht
    · exact setData_table (fun _ => rfl) (cutPd_table ht _ _)
  · intro ev pd hg hheld k fd hfd
    unfold delPd
    dsimp only
    split_ifs with h
    · rw [asks_eq_false (hg.skipped h) k hfd]
      simp
    · rw [setData_getCnt]
      exact (cutPd_spec hheld fun h1 h2 => ⟨rfl, hg h1 h2⟩).1 k fd hfd
  · intro M ev pd _ hg hheld htr
    unfold delPd
    dsimp only
    split_ifs with h
    · exact htr
    · refine setData_tracked ?_ ((cutPd_spec hheld fun h1 h2 => ⟨rfl, hg h1 h2⟩).2 M htr)
      exact fun _ => rfl
  · intro ev pd i k
    unfold delPd
    dsimp only
    split_ifs
    · exact subset_rfl
    · rw [setData_set_keep (by exact fun _ => rfl)]
      exact cutPd_sub ev _ pd i k

/-- The removal on notification. -/
theorem cuts_notifyPd : Cuts notifyPd := by
  constructor
  · -- A group outside of the table is skipped, and then nothing changes.
    intro ev pd
    unfold notifyPd
    dsimp only
    split_ifs
    · exact SameQueue.refl ev
    · exact (cutPd_frame ev _ pd).1
  · intro ev pd
    unfold notifyPd
    dsimp only
    split_ifs
    · exact le_rfl
    · rw [(cutPd_frame ev _ pd).2]
  · intro ev pd ht
    unfold notifyPd
    dsimp only
    split_ifs
    · exact ht
    · exact cutPd_table ht _ _
  · intro ev pd hg hheld k fd hfd
    unfold notifyPd
    dsimp only
    split_ifs with h
    · -- An entry that is skipped so asks for nothing.
      have hno : pd.fd ≤ 0 ∨ pd.events = Events.none := by
        by_contra hc
        push Not at hc
        have := hg hc.1 hc.2
        omega
      rw [asks_eq_false hno k hfd]
      simp
    · exact (cutPd_spec hheld fun h1 h2 => ⟨rfl, hg h1 h2⟩).1 k fd hfd
  · intro M ev pd _ hg hheld htr
    unfold notifyPd
    dsimp only
    split_ifs with h
    · exact htr
    · exact (cutPd_spec hheld fun h1 h2 => ⟨rfl, hg h1 h2⟩).2 M htr
  · intro ev pd i k
    unfold notifyPd
    dsimp only
    split_ifs
    · exact subset_rfl
    · exact cutPd_sub ev _ pd i k

/-- The removal of a pollq with a bad descriptor. -/
theorem cuts_badCutPd : Cuts badCutPd := by
  -- The state before the decrements: a larger table and another `maxfd`.
  have hpre : ∀ (ev : Ev) (pd : Pollfd), ∃ e, badCutPd ev pd = e.cutPd (getGfd pd.fd) pd ∧
      SameQueue ev e ∧ ev.num ≤ e.num ∧ (∀ k fd, e.getCnt k fd = ev.getCnt k fd) ∧
      (TableOk ev → TableOk e ∧ ∀ M, Tracked M ev → Tracked M e) := by
    intro ev pd
    obtain ⟨hq, hn, hcnt⟩ := checkSeldata_frame ev (getGfd pd.fd)
    refine ⟨_, rfl, hq.trans (setData_sameQueue _ _ _), ?_, ?_, ?_⟩
    · rw [setData_num]
      exact hn
    · intro k fd
      rw [setData_getCnt, hcnt]
    · intro ht
      obtain ⟨ht', htr', -⟩ := checkSeldata_spec ht (getGfd pd.fd)
      refine ⟨setData_table ?_ ht', fun M htr => setData_tracked ?_ (htr' M htr)⟩
      · exact fun _ => rfl
      · exact fun _ => rfl
  have hspec : ∀ {ev e : Ev} {pd : Pollfd}, Grouped ev.num pd → Held ev pd → ev.num ≤ e.num →
      (∀ k fd, e.getCnt k fd = ev.getCnt k fd) → Held e pd ∧
        (0 < pd.fd → pd.events ≠ Events.none → getGfd pd.fd = getGfd pd.fd ∧ getGfd pd.fd < e.num) := by
    intro ev e pd hg hheld hn hcnt
    refine ⟨fun k h1 h2 => ?_, fun h1 h2 => ⟨rfl, ?_⟩⟩
    · rw [hcnt]
      exact hheld k h1 h2
    · have := hg h1 h2
      omega
  constructor
  · intro ev pd
    obtain ⟨e, heq, hq, -⟩ := hpre ev pd
    rw [heq]
    exact hq.trans (cutPd_frame _ _ _).1
  · intro ev pd
    obtain ⟨e, heq, -, hn, -⟩ := hpre ev pd
    rw [heq, (cutPd_frame _ _ _).2]
    exact hn
  · intro ev pd ht
    obtain ⟨e, heq, -, -, -, ht'⟩ := hpre ev pd
    rw [heq]
    exact cutPd_table (ht' ht).1 _ _
  · intro ev pd hg hheld k fd hfd
    obtain ⟨e, heq, -, hn, hcnt, -⟩ := hpre ev pd
    obtain ⟨hheld', hg'⟩ := hspec hg hheld hn hcnt
    rw [heq, (cutPd_spec hheld' hg').1 k fd hfd, hcnt]
  · intro M ev pd ht hg hheld htr
    obtain ⟨e, heq, -, hn, hcnt, ht'⟩ := hpre ev pd
    obtain ⟨hheld', hg'⟩ := hspec hg hheld hn hcnt
    rw [heq]
    exact (cutPd_spec hheld' hg').2 M ((ht' ht).2 M htr)
  · intro ev pd i k
    unfold badCutPd
    dsimp only
    refine (cutPd_sub _ _ pd i k).trans ?_
    rw [setData_set_keep (by exact fun _ => rfl)]
    unfold checkSeldata
    split_ifs
    · exact subset_rfl
    · dsimp only
      split_ifs
      · exact subset_rfl
      · exact Finset.empty_subset _

/-- A copy of the decrement code over a whole registered array takes its interest off the
counts. -/
theorem Cuts.foldl {f : Ev → Pollfd → Ev} (hf : Cuts f) (pds : List Pollfd) :
    ∀ {ev : Ev}, TableOk ev → (∀ pd ∈ pds, Grouped ev.num pd) →
      (∀ k fd, 0 < fd → (interest pds k fd : ℤ) ≤ ev.getCnt k fd) →
      SameQueue ev (pds.foldl f ev) ∧ ev.num ≤ (pds.foldl f ev).num ∧
        TableOk (pds.foldl f ev) ∧
        (∀ k fd, 0 < fd → (pds.foldl f ev).getCnt k fd = ev.getCnt k fd - interest pds k fd) ∧
        ∀ M, Tracked M ev → Tracked M (pds.foldl f ev) := by
  induction pds with
  | nil =>
    intro ev ht _ _
    exact ⟨SameQueue.refl ev, le_rfl, ht, by simp, fun _ h => h⟩
  | cons pd pds ih =>
    intro ev ht hg hle
    have hgpd := hg pd List.mem_cons_self
    have hheld : Held ev pd := by
      intro k hfd hhas
      have hasks : pd.asks k pd.fd = true := by simp [Pollfd.asks, hhas]
      have := hle k pd.fd hfd
      rw [interest_cons, hasks, Bool.toNat_true] at this
      omega
    have hcnt := hf.cnt ev pd hgpd hheld
    have hnum := hf.num ev pd
    obtain ⟨hq', hn', ht', hcnt', htr'⟩ := @ih (f ev pd) (hf.table ev pd ht)
      (fun pd' hpd' h1 h2 => by
        have := hg pd' (List.mem_cons_of_mem _ hpd') h1 h2
        omega)
      (fun k fd hfd => by
        have := hle k fd hfd
        rw [interest_cons] at this
        rw [hcnt k fd hfd]
        omega)
    refine ⟨(hf.queue ev pd).trans hq', hnum.trans hn', ht', fun k fd hfd => ?_,
      fun M htr => htr' M (hf.tracked M ev pd ht hgpd hheld htr)⟩
    rw [List.foldl_cons, hcnt' k fd hfd, hcnt k fd hfd, interest_cons]
    push_cast
    ring

end Ev

end StWin
