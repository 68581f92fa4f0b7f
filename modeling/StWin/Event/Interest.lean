import StWin.Event.Counts

/-!
# The counts of the event system are exact

`Counted` is the invariant of the event system's state: the I/O queue holds each waiting pollq once,
the groups of its entries are in the table, and the counts are the totals of interest. Every step
of the event system keeps it: the registration of an array by `st_poll`, its removal after a timeout
or an interrupt, and every pass of `_st_select_dispatch`, whatever `select` returns.

The notification loop of `_st_select_dispatch_once` and the loop of `_st_select_find_bad_fd` are
both instances of `pqStep`: they decide from the entries whether a pollq is notified, write its
`revents`, and, if it is, take it off the queue and its interest off the counts.
-/

namespace StWin.Ev

/-- The event system's invariant. -/
structure Counted (ev : Ev) : Prop where
  table : TableOk ev
  nodup : ev.io_q.Nodup
  fresh : ∀ q ∈ ev.io_q, q < ev.next
  on_ioq : ∀ q ∈ ev.io_q, (ev.pollq q).on_ioq = true
  grouped : ∀ q ∈ ev.io_q, ∀ pd ∈ (ev.pollq q).pds, Grouped ev.num pd
  /-- The counts are the numbers of entries that ask. -/
  exact : ∀ k fd, 0 < fd → ev.getCnt k fd = ev.total k fd

/-- The sets of the groups agree with the counts. -/
def Watching (ev : Ev) : Prop := Tracked (fun _ _ => True) ev

/-- A descriptor is in a set exactly when its count is positive. -/
theorem Watching.iff {ev : Ev} (h : Watching ev) (k : Kind) {fd : ℤ} (hfd : 0 < fd) :
    ev.watched k fd ↔ 0 < ev.getCnt k fd := by
  rw [h k fd hfd]
  simp

/-- Interest of pollqs on the queue is positive exactly when one of them asks. -/
theorem total_pos {ev : Ev} {k : Kind} {fd : ℤ} : 0 < ev.total k fd ↔
    ∃ q ∈ ev.io_q, ∃ pd ∈ (ev.pollq q).pds, pd.fd = fd ∧ pd.events.has k = true := by
  unfold total
  rw [List.sum_pos_iff_exists_pos_nat]
  constructor
  · rintro ⟨n, hn, hpos⟩
    obtain ⟨q, hq, rfl⟩ := List.mem_map.mp hn
    exact ⟨q, hq, interest_pos.mp hpos⟩
  · rintro ⟨q, hq, hpd⟩
    exact ⟨_, List.mem_map.mpr ⟨q, hq, rfl⟩, interest_pos.mpr hpd⟩

/-- A pollq on the queue contributes its interest to the total. -/
theorem total_erase {ev : Ev} {q : ℕ} (hq : q ∈ ev.io_q) (k : Kind) (fd : ℤ) :
    ev.total k fd = interest (ev.pollq q).pds k fd +
      ((ev.io_q.erase q).map fun q => interest (ev.pollq q).pds k fd).sum :=
  (List.sum_map_erase (fun q => interest (ev.pollq q).pds k fd) hq).symm

/-! ## Registration -/

/-- One event of an entry that is registered. -/
theorem addKind_spec {ev : Ev} {pd : Pollfd} {k' : Kind} (ht : TableOk ev) (hfd : 0 < pd.fd)
    (hgfd : getGfd pd.fd < ev.num) :
    SameQueue ev (addKind (getGfd pd.fd) pd ev k') ∧
      (addKind (getGfd pd.fd) pd ev k').num = ev.num ∧
      TableOk (addKind (getGfd pd.fd) pd ev k') ∧
      (∀ k fd, (addKind (getGfd pd.fd) pd ev k').getCnt k fd =
        ev.getCnt k fd + if k = k' ∧ pd.asks k fd = true then 1 else 0) ∧
      ∀ k fd, 0 < fd → ((addKind (getGfd pd.fd) pd ev k').watched k fd ↔
        ev.watched k fd ∨ (k = k' ∧ pd.asks k fd = true)) := by
  have hnn := getGfd_nonneg hfd
  unfold addKind
  by_cases hhas : pd.events.has k' = true
  · rw [if_pos hhas]
    -- The state between `FD_SET` and the increment.
    have hq₁ := setData_sameQueue ev (getGfd pd.fd)
      fun d => { d with set := Function.update d.set k' (insert pd.fd (d.set k')) }
    have hset₁ : ∀ i, ((ev.editSet (getGfd pd.fd) k' (insert pd.fd)).data i).set =
        if getGfd pd.fd = i then Function.update (ev.data i).set k' (insert pd.fd ((ev.data i).set k'))
        else (ev.data i).set := by
      intro i
      rw [editSet, setData_set]
      simp only [hnn, hgfd, true_and]
    obtain ⟨hq₂, hn₂, hd₂⟩ := addCnt_frame (ev.editSet (getGfd pd.fd) k' (insert pd.fd)) k' pd.fd
    have hasks : ∀ k fd, (k = k' ∧ pd.asks k fd = true) ↔ (k = k' ∧ fd = pd.fd) := by
      intro k fd
      constructor
      · rintro ⟨rfl, hasks⟩
        simp only [Pollfd.asks, Bool.and_eq_true, decide_eq_true_eq] at hasks
        exact ⟨rfl, hasks.1.symm⟩
      · rintro ⟨rfl, rfl⟩
        exact ⟨rfl, by simp [Pollfd.asks, hhas]⟩
    refine ⟨hq₁.trans hq₂, ?_, ⟨?_, ?_⟩, ?_, ?_⟩
    · rw [hn₂, editSet, setData_num]
    · intro i k fd hmem
      rw [hd₂, hset₁] at hmem
      split_ifs at hmem with hi
      · by_cases hk : k = k'
        · subst hk
          rw [Function.update_self, Finset.mem_insert] at hmem
          rcases hmem with rfl | hmem
          · exact ⟨hfd, hi⟩
          · exact ht.sets i k fd hmem
        · rw [Function.update_of_ne hk] at hmem
          exact ht.sets i k fd hmem
      · exact ht.sets i k fd hmem
    · intro i hi
      rw [hn₂, editSet, setData_num] at hi
      rw [hd₂, editSet, setData, if_pos ⟨hnn, hgfd⟩]
      dsimp only
      rw [Function.update_of_ne (by omega)]
      exact ht.past i hi
    · intro k fd
      rw [getCnt_addCnt, editSet, setData_getCnt]
      simp only [hasks]
    · intro k fd hfd'
      simp only [hasks]
      unfold watched
      rw [hd₂, hset₁]
      have hnn' := getGfd_nonneg hfd'
      split_ifs with hi
      · by_cases hk : k = k'
        · subst hk
          simp [or_comm]
        · simp [hk]
      · have hne : fd ≠ pd.fd := by
          rintro rfl
          omega
        simp [hne]
  · rw [if_neg hhas]
    have hno : ∀ k fd, ¬(k = k' ∧ pd.asks k fd = true) := by
      rintro k fd ⟨rfl, hasks⟩
      simp only [Pollfd.asks, Bool.and_eq_true, decide_eq_true_eq] at hasks
      exact hhas hasks.2
    refine ⟨SameQueue.refl ev, rfl, ht, fun k fd => ?_, fun k fd _ => ?_⟩
    · rw [if_neg (hno k fd), add_zero]
    · simp [hno k fd]

/-- The loop body of `_st_select_pollset_add`: the entry's interest joins the counts, and its
descriptor the sets. -/
theorem addPd_spec {ev : Ev} (ht : TableOk ev) (pd : Pollfd) :
    SameQueue ev (ev.addPd pd) ∧ ev.num ≤ (ev.addPd pd).num ∧ TableOk (ev.addPd pd) ∧
      Grouped (ev.addPd pd).num pd ∧
      (∀ k fd, 0 < fd → (ev.addPd pd).getCnt k fd = ev.getCnt k fd + (pd.asks k fd).toNat) ∧
      ∀ k fd, 0 < fd →
        ((ev.addPd pd).watched k fd ↔ ev.watched k fd ∨ pd.asks k fd = true) := by
  unfold addPd
  split_ifs with hskip
  · refine ⟨SameQueue.refl ev, le_rfl, ht, ?_, fun k fd hfd => ?_, fun k fd hfd => ?_⟩
    · intro h1 h2
      rcases hskip with h | h
      · omega
      · exact absurd h h2
    · rw [asks_eq_false hskip k hfd]
      simp
    · rw [asks_eq_false hskip k hfd]
      simp
  · push Not at hskip
    obtain ⟨hfd, -⟩ := hskip
    dsimp only [List.foldl_cons, List.foldl_nil]
    -- The table holds the entry's group; then the three events, one after another.
    obtain ⟨ht₀, -, hg₀⟩ := checkSeldata_spec ht (getGfd pd.fd)
    obtain ⟨hq₀, hn₀, hc₀⟩ := checkSeldata_frame ev (getGfd pd.fd)
    have hw₀ : ∀ k fd, (ev.checkSeldata (getGfd pd.fd)).watched k fd ↔ ev.watched k fd := by
      intro k fd
      unfold watched checkSeldata
      split_ifs with hlt
      · rfl
      · dsimp only
        split_ifs with hi
        · rfl
        · rw [ht.past _ (by omega)]
    generalize ev.checkSeldata (getGfd pd.fd) = ev₀ at ht₀ hg₀ hq₀ hn₀ hc₀ hw₀ ⊢
    obtain ⟨hq₁, hn₁, ht₁, hc₁, hw₁⟩ := @addKind_spec ev₀ pd .read ht₀ hfd hg₀
    generalize addKind (getGfd pd.fd) pd ev₀ .read = ev₁ at hq₁ hn₁ ht₁ hc₁ hw₁ ⊢
    obtain ⟨hq₂, hn₂, ht₂, hc₂, hw₂⟩ := @addKind_spec ev₁ pd .write ht₁ hfd (by omega)
    generalize addKind (getGfd pd.fd) pd ev₁ .write = ev₂ at hq₂ hn₂ ht₂ hc₂ hw₂ ⊢
    obtain ⟨hq₃, hn₃, ht₃, hc₃, hw₃⟩ := @addKind_spec ev₂ pd .excep ht₂ hfd (by omega)
    generalize addKind (getGfd pd.fd) pd ev₂ .excep = ev₃ at hq₃ hn₃ ht₃ hc₃ hw₃ ⊢
    refine ⟨(((hq₀.trans hq₁).trans hq₂).trans hq₃).trans (setData_sameQueue _ _ _), ?_,
      setData_table (fun _ => rfl) ht₃, ?_, fun k fd hfd' => ?_, fun k fd hfd' => ?_⟩
    · rw [setData_num]
      omega
    · intro _ _
      rw [setData_num]
      omega
    · rw [setData_getCnt, hc₃, hc₂, hc₁, hc₀]
      cases hasks : pd.asks k fd <;> cases k <;> simp
    · unfold watched
      rw [setData_set_keep]
      swap
      · exact fun _ => rfl
      change ev₃.watched k fd ↔ _
      rw [hw₃ k fd hfd', hw₂ k fd hfd', hw₁ k fd hfd', hw₀]
      cases k <;> simp [watched]

/-- `_st_select_pollset_add` of a whole array. -/
theorem pollsetAdd_spec (pds : List Pollfd) : ∀ {ev : Ev}, TableOk ev →
    SameQueue ev (ev.pollsetAdd pds) ∧ ev.num ≤ (ev.pollsetAdd pds).num ∧
      TableOk (ev.pollsetAdd pds) ∧ (∀ pd ∈ pds, Grouped (ev.pollsetAdd pds).num pd) ∧
      (∀ k fd, 0 < fd →
        (ev.pollsetAdd pds).getCnt k fd = ev.getCnt k fd + interest pds k fd) ∧
      ∀ k fd, 0 < fd →
        ((ev.pollsetAdd pds).watched k fd ↔ ev.watched k fd ∨ 0 < interest pds k fd) := by
  induction pds with
  | nil =>
    intro ev ht
    exact ⟨SameQueue.refl ev, le_rfl, ht, by simp, by simp [pollsetAdd], by simp [pollsetAdd]⟩
  | cons pd pds ih =>
    intro ev ht
    obtain ⟨hq₁, hn₁, ht₁, hg₁, hc₁, hw₁⟩ := addPd_spec ht pd
    obtain ⟨hq₂, hn₂, ht₂, hg₂, hc₂, hw₂⟩ := ih ht₁
    have hfold : ev.pollsetAdd (pd :: pds) = (ev.addPd pd).pollsetAdd pds := rfl
    rw [hfold]
    refine ⟨hq₁.trans hq₂, hn₁.trans hn₂, ht₂, ?_, fun k fd hfd => ?_, fun k fd hfd => ?_⟩
    · intro pd' hpd' h1 h2
      rcases List.mem_cons.mp hpd' with rfl | hpd'
      · have := hg₁ h1 h2
        omega
      · exact hg₂ pd' hpd' h1 h2
    · rw [hc₂ k fd hfd, hc₁ k fd hfd, interest_cons]
      push_cast
      ring
    · rw [hw₂ k fd hfd, hw₁ k fd hfd, interest_cons, or_assoc]
      cases pd.asks k fd <;> simp

/-- What registration does to the queue. -/
theorem register_queue {ev : Ev} (h : Counted ev) (thread : ℕ) (pds : List Pollfd) :
    (ev.register thread pds).io_q = ev.io_q ++ [ev.next] ∧
      (ev.register thread pds).pollq = Function.update ev.pollq ev.next ⟨thread, pds, true⟩ ∧
      (ev.register thread pds).next = ev.next + 1 := by
  obtain ⟨hq, -⟩ := pollsetAdd_spec pds h.table
  unfold register
  dsimp only
  rw [hq.io_q, hq.pollq, hq.next]
  exact ⟨rfl, rfl, rfl⟩

/-- The registration of an array by `st_poll`. -/
theorem register_counted {ev : Ev} (h : Counted ev) (thread : ℕ) (pds : List Pollfd) :
    Counted (ev.register thread pds) ∧ (Watching ev → Watching (ev.register thread pds)) := by
  obtain ⟨-, hn, ht, hg, hc, hw⟩ := pollsetAdd_spec pds h.table
  obtain ⟨hio, hpollq, hnext⟩ := register_queue h thread pds
  have hnot : ev.next ∉ ev.io_q := fun hmem => lt_irrefl _ (h.fresh _ hmem)
  have hold : ∀ q ∈ ev.io_q, (ev.register thread pds).pollq q = ev.pollq q := by
    intro q hqm
    have hne : q ≠ ev.next := fun heq => hnot (heq ▸ hqm)
    rw [hpollq, Function.update_of_ne hne]
  have hnew : (ev.register thread pds).pollq ev.next = ⟨thread, pds, true⟩ := by
    rw [hpollq, Function.update_self]
  -- The new pollq is the last on the queue, and adds its own interest to the total.
  have htotal : ∀ k fd, (ev.register thread pds).total k fd =
      ev.total k fd + interest pds k fd := by
    intro k fd
    unfold total
    rw [hio, List.map_append, List.sum_append]
    congr 1
    · congr 1
      exact List.map_congr_left fun q hqm => by rw [hold q hqm]
    · simp [hnew]
  have hcnt : ∀ k fd, (ev.register thread pds).getCnt k fd = (ev.pollsetAdd pds).getCnt k fd :=
    fun _ _ => rfl
  refine ⟨⟨⟨ht.sets, ht.past⟩, ?_, ?_, ?_, ?_, ?_⟩, ?_⟩
  · rw [hio]
    exact List.Nodup.append h.nodup (by simp) (by simpa using hnot)
  · intro q hqm
    rw [hio, List.mem_append, List.mem_singleton] at hqm
    rw [hnext]
    rcases hqm with hqm | rfl
    · exact Nat.lt_succ_of_lt (h.fresh q hqm)
    · exact Nat.lt_succ_self _
  · intro q hqm
    rw [hio, List.mem_append, List.mem_singleton] at hqm
    rcases hqm with hqm | rfl
    · rw [hold q hqm]
      exact h.on_ioq q hqm
    · rw [hnew]
  · intro q hqm pd hpd
    rw [hio, List.mem_append, List.mem_singleton] at hqm
    rcases hqm with hqm | rfl
    · -- The table of groups only grows.
      rw [hold q hqm] at hpd
      exact fun h1 h2 => (h.grouped q hqm pd hpd h1 h2).trans_le (by exact_mod_cast hn)
    · rw [hnew] at hpd
      exact hg pd hpd
  · intro k fd hfd
    rw [hcnt, hc k fd hfd, h.exact k fd hfd, htotal]
    push_cast
    rfl
  · intro hwatch k fd hfd
    have hw' : (ev.register thread pds).watched k fd ↔ (ev.pollsetAdd pds).watched k fd := Iff.rfl
    rw [hw', hw k fd hfd, hwatch.iff k hfd, hcnt, hc k fd hfd, h.exact k fd hfd]
    simp only [true_and]
    omega

/-! ## Removal -/

/-- What is left when a pollq on the queue is taken off it and its interest off the counts, by any
of the copies of the decrement code. `e` is the state with the pollq off the queue. -/
theorem cut_counted {ev e : Ev} (h : Counted ev) {q : ℕ} (hq : q ∈ ev.io_q)
    {f : Ev → Pollfd → Ev} (hf : Cuts f) {pds : List Pollfd}
    (hpds : ∀ k fd, interest pds k fd = interest (ev.pollq q).pds k fd)
    (hreq : ∀ pd ∈ pds, Grouped ev.num pd) (hdata : e.data = ev.data) (hnum : e.num = ev.num)
    (hcnt : e.cnt = ev.cnt) (hio : e.io_q = ev.io_q.erase q) (hnext : e.next = ev.next)
    (hpollq : ∀ q', q' ≠ q → e.pollq q' = ev.pollq q') :
    Counted (pds.foldl f e) ∧ SameQueue e (pds.foldl f e) ∧
      ∀ M, Tracked M ev → Tracked M (pds.foldl f e) := by
  -- `e` has the tables of `ev`, and each entry of the pollq is still counted there.
  have ht : TableOk e := by
    constructor
    · rw [hdata]; exact h.table.sets
    · rw [hdata, hnum]; exact h.table.past
  have hget : ∀ k fd, e.getCnt k fd = ev.getCnt k fd := by
    intro k fd
    unfold getCnt
    rw [hcnt]
  obtain ⟨hq', hn', ht', hc', htr'⟩ := @Cuts.foldl f hf pds e ht
    (fun pd hpd => by rw [hnum]; exact hreq pd hpd)
    (fun k fd hfd => by
      have := total_erase hq k fd
      rw [hget, h.exact k fd hfd, hpds]
      omega)
  -- The pollqs that stay are the others, as they were.
  have hsub : ∀ q' ∈ e.io_q, q' ∈ ev.io_q ∧ q' ≠ q := by
    intro q' hmem
    rw [hio] at hmem
    exact ⟨List.mem_of_mem_erase hmem, fun heq => by
      rw [heq] at hmem
      exact h.nodup.not_mem_erase hmem⟩
  refine ⟨⟨ht', ?_, ?_, ?_, ?_, ?_⟩, hq', fun M htr => htr' M ?_⟩
  · rw [hq'.io_q, hio]
    exact h.nodup.erase q
  · intro q' hmem
    rw [hq'.io_q] at hmem
    rw [hq'.next, hnext]
    exact h.fresh q' (hsub q' hmem).1
  · intro q' hmem
    rw [hq'.io_q] at hmem
    rw [hq'.pollq, hpollq q' (hsub q' hmem).2]
    exact h.on_ioq q' (hsub q' hmem).1
  · intro q' hmem pd hpd h1 h2
    rw [hq'.io_q] at hmem
    rw [hq'.pollq, hpollq q' (hsub q' hmem).2] at hpd
    have := h.grouped q' (hsub q' hmem).1 pd hpd h1 h2
    omega
  · intro k fd hfd
    have hsum : (pds.foldl f e).total k fd =
        ((ev.io_q.erase q).map fun q => interest (ev.pollq q).pds k fd).sum := by
      unfold total
      rw [hq'.io_q, hio]
      congr 1
      refine List.map_congr_left fun q' hmem => ?_
      rw [hq'.pollq, hpollq q' (hsub q' (hio ▸ hmem)).2]
    have := total_erase hq k fd
    rw [hc' k fd hfd, hget, h.exact k fd hfd, hpds, hsum]
    omega
  · intro k fd hfd
    unfold watched
    rw [hdata, hget]
    exact htr k fd hfd

/-- The removal of a pollq after a timeout or an interrupt. -/
theorem unregister_counted {ev : Ev} (h : Counted ev) {q : ℕ} (hq : q ∈ ev.io_q) :
    Counted (ev.unregister q) ∧ (Watching ev → Watching (ev.unregister q)) := by
  unfold unregister
  rw [if_pos (h.on_ioq q hq)]
  obtain ⟨hc, -, htr⟩ := @cut_counted ev { ev with io_q := ev.io_q.erase q } h q hq _ cuts_delPd
    (ev.pollq q).pds (fun _ _ => rfl) (h.grouped q hq) rfl rfl rfl rfl rfl (fun _ _ => rfl)
  exact ⟨hc, htr _⟩

/-! ## Dispatch -/

/-- The body of the two notification loops: `test` decides whether an entry asks to notify, `g`
writes its `revents`, and `f` is the copy of the decrement code. -/
def pqStep (test : Ev → Pollfd → Bool) (g : Ev → Pollfd → Pollfd) (f : Ev → Pollfd → Ev)
    (acc : Ev × List ℕ) (pq : ℕ) : Ev × List ℕ :=
  let (ev, woken) := acc
  let pds := (ev.pollq pq).pds
  if pds.any (test ev) then
    ((pds.map (g ev)).foldl f (ev.takeOff pq (pds.map (g ev))), woken ++ [pq])
  else (ev.setRevents pq (pds.map (g ev)), woken)

/-- The loop body of the notification is an instance of `pqStep`. -/
theorem notifyPq_eq (i : ℕ) : notifyPq i =
    pqStep (fun ev => isReady (ev.data i).set) (fun ev => readyPd (ev.data i).set) notifyPd := rfl

/-- The loop body of the scan for bad descriptors is an instance of `pqStep`. -/
theorem badPq_eq (bad : ℤ → Bool) : badPq bad =
    pqStep (fun _ pd => decide (pd.events ≠ Events.none) && bad pd.fd) (fun _ => badPd bad)
      badCutPd := rfl

/-- The requests of a pollq: what its entries hold besides `revents`. -/
def requests (pq : Pollq) : List (ℤ × Events) := pq.pds.map fun pd => (pd.fd, pd.events)

/-- Only `revents` fields, and `on_ioq`, change in a notification loop. -/
structure SameRequests (ev ev' : Ev) : Prop where
  requests : ∀ q, requests (ev'.pollq q) = requests (ev.pollq q)
  thread : ∀ q, (ev'.pollq q).thread = (ev.pollq q).thread
  next : ev'.next = ev.next

/-- Nothing has changed. -/
theorem SameRequests.refl (ev : Ev) : SameRequests ev ev := ⟨fun _ => rfl, fun _ => rfl, rfl⟩

/-- Two steps that leave the requests as they are. -/
theorem SameRequests.trans {ev₁ ev₂ ev₃ : Ev} (h : SameRequests ev₁ ev₂)
    (h' : SameRequests ev₂ ev₃) : SameRequests ev₁ ev₃ :=
  ⟨fun q => (h'.requests q).trans (h.requests q), fun q => (h'.thread q).trans (h.thread q),
    h'.next.trans h.next⟩

section revents

variable {g : Pollfd → Pollfd} (hfd : ∀ pd, (g pd).fd = pd.fd) (hev : ∀ pd, (g pd).events = pd.events)
include hfd hev

/-- The group of an entry does not depend on its `revents`. -/
theorem Grouped.map {num : ℕ} {pds : List Pollfd} (h : ∀ pd ∈ pds, Grouped num pd) :
    ∀ pd ∈ pds.map g, Grouped num pd := by
  intro pd hpd
  obtain ⟨pd₀, hpd₀, rfl⟩ := List.mem_map.mp hpd
  have := h pd₀ hpd₀
  unfold Grouped at this ⊢
  rw [hfd, hev]
  exact this

/-- The `revents` of one pollq are written. -/
theorem SameRequests.update {ev ev' : Ev} {q : ℕ} {pq : Pollq}
    (hpollq : ev'.pollq = Function.update ev.pollq q pq) (hpds : pq.pds = (ev.pollq q).pds.map g)
    (hthread : pq.thread = (ev.pollq q).thread) (hnext : ev'.next = ev.next) :
    SameRequests ev ev' := by
  refine ⟨fun q' => ?_, fun q' => ?_, hnext⟩
  · rw [hpollq]
    by_cases hq : q' = q
    · rw [hq, Function.update_self]
      simp [Ev.requests, hpds, hfd, hev]
    · rw [Function.update_of_ne hq]
  · rw [hpollq]
    by_cases hq : q' = q
    · rw [hq, Function.update_self, hthread]
    · rw [Function.update_of_ne hq]

/-- Writing the `revents` of a pollq keeps the invariant. -/
theorem setRevents_counted {ev : Ev} (h : Counted ev) (q : ℕ) :
    Counted (ev.setRevents q ((ev.pollq q).pds.map g)) ∧
      SameRequests ev (ev.setRevents q ((ev.pollq q).pds.map g)) ∧
      ∀ M, Tracked M ev → Tracked M (ev.setRevents q ((ev.pollq q).pds.map g)) := by
  generalize hev' : ev.setRevents q ((ev.pollq q).pds.map g) = ev'
  have hself : ev'.pollq q = { ev.pollq q with pds := (ev.pollq q).pds.map g } := by
    rw [← hev']
    exact Function.update_self _ _ _
  have hother : ∀ q', q' ≠ q → ev'.pollq q' = ev.pollq q' := by
    intro q' hne
    rw [← hev']
    exact Function.update_of_ne hne _ _
  have hinterest : ∀ q' k fd, interest (ev'.pollq q').pds k fd = interest (ev.pollq q').pds k fd := by
    intro q' k fd
    by_cases hq : q' = q
    · rw [hq, hself]
      exact interest_map hfd hev _ k fd
    · rw [hother q' hq]
  have hsame : SameRequests ev ev' := by
    rw [← hev']
    exact SameRequests.update hfd hev rfl rfl rfl rfl
  -- The tables and the queue are the old ones.
  subst hev'
  refine ⟨⟨⟨h.table.sets, h.table.past⟩, h.nodup, h.fresh, ?_, ?_, ?_⟩, hsame, fun _ h => h⟩
  · intro q' hmem
    by_cases hq : q' = q
    · rw [hq, hself]
      exact h.on_ioq q (hq ▸ hmem)
    · rw [hother q' hq]
      exact h.on_ioq q' hmem
  · intro q' hmem
    by_cases hq : q' = q
    · rw [hq, hself]
      exact Grouped.map hfd hev (h.grouped q (hq ▸ hmem))
    · rw [hother q' hq]
      exact h.grouped q' hmem
  · intro k fd hfd'
    have hsum : (ev.setRevents q ((ev.pollq q).pds.map g)).total k fd = ev.total k fd := by
      unfold total
      congr 1
      exact List.map_congr_left fun q' _ => hinterest q' k fd
    rw [hsum]
    exact h.exact k fd hfd'

end revents

/-- From `ev` to `ev'`, the pollqs of `w` were notified: taken off the queue, with `on_ioq`
cleared. The others stay as they were, `revents` apart. -/
structure Notified (ev ev' : Ev) (w : List ℕ) : Prop where
  nodup : w.Nodup
  mem : ∀ q ∈ w, q ∈ ev.io_q
  io_q : ev'.io_q = ev.io_q.filter (· ∉ w)
  off : ∀ q ∈ w, (ev'.pollq q).on_ioq = false
  keep : ∀ q, q ∉ w → (ev'.pollq q).on_ioq = (ev.pollq q).on_ioq
  same : SameRequests ev ev'

/-- Nobody was notified. -/
theorem Notified.refl (ev : Ev) : Notified ev ev [] :=
  ⟨List.nodup_nil, by simp, by simp, by simp, fun _ _ => rfl, SameRequests.refl ev⟩

/-- Two notifications, one after the other. -/
theorem Notified.trans {ev₁ ev₂ ev₃ : Ev} {w₁ w₂ : List ℕ} (h : Notified ev₁ ev₂ w₁)
    (h' : Notified ev₂ ev₃ w₂) : Notified ev₁ ev₃ (w₁ ++ w₂) := by
  have hsub : ∀ q ∈ w₂, q ∈ ev₁.io_q ∧ q ∉ w₁ := by
    intro q hq
    have := h'.mem q hq
    rw [h.io_q] at this
    simpa using this
  refine ⟨?_, ?_, ?_, ?_, ?_, h.same.trans h'.same⟩
  · refine h.nodup.append h'.nodup fun q hq₁ hq₂ => ?_
    exact (hsub q hq₂).2 hq₁
  · intro q hq
    rcases List.mem_append.mp hq with hq | hq
    · exact h.mem q hq
    · exact (hsub q hq).1
  · rw [h'.io_q, h.io_q, List.filter_filter]
    refine List.filter_congr fun q _ => ?_
    by_cases h1 : q ∈ w₁ <;> by_cases h2 : q ∈ w₂ <;> simp [h1, h2]
  · intro q hq
    by_cases h2 : q ∈ w₂
    · exact h'.off q h2
    · rw [h'.keep q h2]
      exact h.off q ((List.mem_append.mp hq).resolve_right h2)
  · intro q hq
    rw [List.mem_append, not_or] at hq
    rw [h'.keep q hq.2, h.keep q hq.1]

/-- One pollq in a notification loop. -/
theorem pqStep_counted {test : Ev → Pollfd → Bool} {g : Ev → Pollfd → Pollfd}
    {f : Ev → Pollfd → Ev} (hf : Cuts f) (hfd : ∀ ev pd, (g ev pd).fd = pd.fd)
    (hev : ∀ ev pd, (g ev pd).events = pd.events) {ev : Ev} (h : Counted ev) {q : ℕ}
    (hq : q ∈ ev.io_q) (woken : List ℕ) :
    ∃ w, w = (if (ev.pollq q).pds.any (test ev) then [q] else []) ∧
      (pqStep test g f (ev, woken) q).2 = woken ++ w ∧
      Notified ev (pqStep test g f (ev, woken) q).1 w ∧
      Counted (pqStep test g f (ev, woken) q).1 ∧
      ∀ M, Tracked M ev → Tracked M (pqStep test g f (ev, woken) q).1 := by
  refine ⟨_, rfl, ?_⟩
  unfold pqStep
  dsimp only
  split_ifs with htest
  · -- The pollq is notified.
    obtain ⟨hc, hsame, htr⟩ := @cut_counted ev (ev.takeOff q ((ev.pollq q).pds.map (g ev))) h q hq f hf
      ((ev.pollq q).pds.map (g ev)) (fun k fd => interest_map (hfd ev) (hev ev) _ k fd)
      (Grouped.map (hfd ev) (hev ev) (h.grouped q hq)) rfl rfl rfl rfl rfl
      (fun q' hne => Function.update_of_ne hne _ _)
    refine ⟨rfl, ⟨by simp, by simpa using hq, ?_, ?_, ?_, ?_⟩, hc, htr⟩
    · rw [hsame.io_q]
      have hmem : ∀ q' ∈ ev.io_q, decide (q' ∉ [q]) = (q' != q) := by
        intro q' _
        by_cases hqq : q' = q <;> simp [hqq]
      rw [List.filter_congr hmem]
      exact h.nodup.erase_eq_filter q
    · intro q' hq'
      rw [List.mem_singleton] at hq'
      subst hq'
      rw [hsame.pollq]
      simp [takeOff]
    · -- The other pollqs are as they were.
      intro q' hq'
      rw [List.mem_singleton] at hq'
      rw [hsame.pollq]
      simp [takeOff, hq']
    · refine SameRequests.update (hfd ev) (hev ev) hsame.pollq rfl rfl ?_
      rw [hsame.next]
      rfl
  · -- Only its `revents` are written.
    obtain ⟨hc, hreq, htr⟩ := setRevents_counted (hfd ev) (hev ev) h q
    refine ⟨by simp, ⟨List.nodup_nil, by simp, by simp [setRevents], by simp, ?_, hreq⟩, hc, htr⟩
    intro q' _
    unfold setRevents
    dsimp only
    by_cases hqq : q' = q
    · subst hqq
      rw [Function.update_self]
    · rw [Function.update_of_ne hqq]

section links

variable {test : Ev → Pollfd → Bool} {g : Ev → Pollfd → Pollfd} {f : Ev → Pollfd → Ev} (hf : Cuts f)
  (hfd : ∀ ev pd, (g ev pd).fd = pd.fd) (hev : ∀ ev pd, (g ev pd).events = pd.events) {ev : Ev}
  (h : Counted ev) {q : ℕ} (hq : q ∈ ev.io_q) (woken : List ℕ) {p : ℕ}
include hf hfd hev h hq

/-- A notification puts no pollq on the queue. -/
theorem mem_of_mem_pqStep (hp : p ∈ (pqStep test g f (ev, woken) q).1.io_q) : p ∈ ev.io_q := by
  obtain ⟨w, -, -, hnot, -⟩ := @pqStep_counted test g f hf hfd hev ev h q hq woken
  rw [hnot.io_q] at hp
  exact List.mem_of_mem_filter hp

/-- The other pollqs are still on the queue. -/
theorem mem_pqStep_of_ne (hne : p ≠ q) (hp : p ∈ ev.io_q) :
    p ∈ (pqStep test g f (ev, woken) q).1.io_q := by
  obtain ⟨w, hw, -, hnot, -⟩ := @pqStep_counted test g f hf hfd hev ev h q hq woken
  rw [hnot.io_q, List.mem_filter, hw]
  refine ⟨hp, ?_⟩
  split_ifs <;> simp [hne]

end links

/-- A state in the middle of a notification loop that began at `ev`, when the loop reaches the
pollq `q`. -/
structure Midway (ev : Ev) (q : ℕ) (e : Ev) : Prop where
  counted : Counted e
  mem : q ∈ e.io_q
  same : SameRequests ev e
  tracked : ∀ M, Tracked M ev → Tracked M e
  sub : ∀ i k, (e.data i).set k ⊆ (ev.data i).set k

/-- A notification only takes descriptors out of the sets. -/
theorem pqStep_sub {test : Ev → Pollfd → Bool} {g : Ev → Pollfd → Pollfd} {f : Ev → Pollfd → Ev}
    (hf : Cuts f) (ev : Ev) (woken : List ℕ) (q i : ℕ) (k : Kind) :
    ((pqStep test g f (ev, woken) q).1.data i).set k ⊆ (ev.data i).set k := by
  have hfold : ∀ (pds : List Pollfd) (e : Ev),
      ((pds.foldl f e).data i).set k ⊆ (e.data i).set k := by
    intro pds
    induction pds with
    | nil => exact fun _ => subset_rfl
    | cons pd pds ih => exact fun e => (ih (f e pd)).trans (hf.sub e pd i k)
  unfold pqStep
  dsimp only
  split_ifs
  · exact hfold _ _
  · exact subset_rfl

/-- A notification loop over pollqs on the queue. Whether one of them is notified is decided at the
state in which the loop reaches it. -/
theorem pqFold_counted {test : Ev → Pollfd → Bool} {g : Ev → Pollfd → Pollfd}
    {f : Ev → Pollfd → Ev} (hf : Cuts f) (hfd : ∀ ev pd, (g ev pd).fd = pd.fd)
    (hev : ∀ ev pd, (g ev pd).events = pd.events) (l : List ℕ) :
    ∀ {ev : Ev}, Counted ev → l.Nodup → (∀ q ∈ l, q ∈ ev.io_q) → ∀ woken : List ℕ,
      ∃ w, (l.foldl (pqStep test g f) (ev, woken)).2 = woken ++ w ∧
        Notified ev (l.foldl (pqStep test g f) (ev, woken)).1 w ∧
        Counted (l.foldl (pqStep test g f) (ev, woken)).1 ∧
        (∀ M, Tracked M ev → Tracked M (l.foldl (pqStep test g f) (ev, woken)).1) ∧
        (∀ q ∈ w, q ∈ l) ∧
        ∀ q ∈ l, ∃ e, Midway ev q e ∧ (q ∈ w ↔ (e.pollq q).pds.any (test e) = true) := by
  induction l with
  | nil =>
    intro ev h _ _ woken
    exact ⟨[], by simp, Notified.refl ev, h, fun _ h => h, by simp, by simp⟩
  | cons q l ih =>
    intro ev h hnd hmem woken
    obtain ⟨hql, hnd'⟩ := List.nodup_cons.mp hnd
    -- The pollq at the head first, then the rest of the loop from the state after it.
    obtain ⟨w₁, hw₁, hwoken, hnot, hc, htr⟩ :=
      @pqStep_counted test g f hf hfd hev ev h q (hmem q List.mem_cons_self) woken
    have hmem₁ : ∀ q' ∈ l, q' ∈ (pqStep test g f (ev, woken) q).1.io_q := fun q' hq' =>
      mem_pqStep_of_ne hf hfd hev h (hmem q List.mem_cons_self) woken (fun heq => hql (heq ▸ hq'))
        (hmem q' (List.mem_cons_of_mem _ hq'))
    generalize hacc : pqStep test g f (ev, woken) q = acc at hwoken hnot hc htr hmem₁
    obtain ⟨ev₁, woken₁⟩ := acc
    dsimp only at hwoken hnot hc htr hmem₁
    have hw₁q : ∀ q' ∈ w₁, q' = q := by
      intro q' hq'
      rw [hw₁] at hq'
      split_ifs at hq'
      · exact List.mem_singleton.mp hq'
      · cases hq'
    obtain ⟨w₂, hwoken₂, hnot₂, hc₂, htr₂, hsub₂, hmid₂⟩ := ih hc hnd' hmem₁ woken₁
    rw [List.foldl_cons, hacc]
    refine ⟨w₁ ++ w₂, ?_, hnot.trans hnot₂, hc₂, fun M h => htr₂ M (htr M h), ?_, ?_⟩
    · rw [hwoken₂, hwoken, List.append_assoc]
    · intro q' hq'
      rcases List.mem_append.mp hq' with hq' | hq'
      · rw [hw₁q q' hq']
        exact List.mem_cons_self
      · exact List.mem_cons_of_mem _ (hsub₂ q' hq')
    · intro q' hq'
      rcases List.mem_cons.mp hq' with rfl | hq'
      · -- The loop comes to the head in the state in which it began.
        refine ⟨ev, ⟨h, hmem q' List.mem_cons_self, SameRequests.refl ev, fun _ h => h,
          fun _ _ => subset_rfl⟩, ?_⟩
        have hnot₂ : q' ∉ w₂ := fun hin => hql (hsub₂ q' hin)
        rw [hw₁]
        split_ifs with htest <;> simp [htest, hnot₂]
      · -- To the others it comes after the head has been served, so they are seen from `ev` as
        -- well.
        obtain ⟨e, he, hiff⟩ := hmid₂ q' hq'
        refine ⟨e, ⟨he.counted, he.mem, hnot.same.trans he.same,
          fun M h => he.tracked M (htr M h), fun i k => (he.sub i k).trans ?_⟩, ?_⟩
        · have := @pqStep_sub test g f hf ev woken q i k
          rwa [hacc] at this
        have hnot₁ : q' ∉ w₁ := fun hin => hql (hw₁q q' hin ▸ hq')
        rw [← hiff, List.mem_append]
        simp [hnot₁]

/-- Changing groups without touching their sets keeps the invariant. -/
theorem setData_counted {ev : Ev} (h : Counted ev) {data : ℕ → Seldata}
    (hset : ∀ i, (data i).set = (ev.data i).set) (hpast : ∀ i, ev.num ≤ i → data i = ev.data i) :
    Counted { ev with data := data } ∧ ∀ M, Tracked M ev → Tracked M { ev with data := data } := by
  refine ⟨⟨⟨?_, ?_⟩, h.nodup, h.fresh, h.on_ioq, h.grouped, h.exact⟩, ?_⟩
  · intro i k fd hfd
    dsimp only at hfd
    rw [hset] at hfd
    exact h.table.sets i k fd hfd
  · intro i hi
    dsimp only at hi ⊢
    rw [hpast i hi]
    exact h.table.past i hi
  · intro M htr k fd hfd
    unfold watched
    dsimp only
    rw [hset]
    exact htr k fd hfd

/-- The scan for bad descriptors writes no `fd`. -/
theorem badPd_fd (bad : ℤ → Bool) (pd : Pollfd) : (badPd bad pd).fd = pd.fd := by
  unfold badPd
  split_ifs <;> rfl

/-- The scan for bad descriptors writes no `events`. -/
theorem badPd_events (bad : ℤ → Bool) (pd : Pollfd) : (badPd bad pd).events = pd.events := by
  unfold badPd
  split_ifs <;> rfl

/-- `_st_select_find_bad_fd`. The pollqs that it notifies have a bad descriptor. -/
theorem findBadFd_counted {ev : Ev} (h : Counted ev) (bad : ℤ → Bool) :
    Notified ev (ev.findBadFd bad).1 (ev.findBadFd bad).2 ∧ Counted (ev.findBadFd bad).1 ∧
      (∀ M, Tracked M ev → Tracked M (ev.findBadFd bad).1) ∧
      ∀ q ∈ (ev.findBadFd bad).2, ∃ e, SameRequests ev e ∧
        ∃ pd ∈ (e.pollq q).pds, pd.events ≠ Events.none ∧ bad pd.fd = true := by
  obtain ⟨hc, htr⟩ := @setData_counted ev h
    (fun i => if i < ev.num then { ev.data i with maxfd := 0 } else ev.data i)
    (fun i => by split_ifs <;> rfl) (fun i hi => if_neg (by omega))
  obtain ⟨w, hw, hnot, hc', htr', hsub, hmid⟩ := @pqFold_counted
    (fun _ pd => decide (pd.events ≠ Events.none) && bad pd.fd) (fun _ => badPd bad) badCutPd
    cuts_badCutPd (fun _ => badPd_fd bad) (fun _ => badPd_events bad) ev.io_q _ hc hc.nodup
    (fun _ hq => hq) []
  unfold findBadFd
  dsimp only
  rw [badPq_eq, hw, List.nil_append]
  refine ⟨⟨hnot.nodup, hnot.mem, hnot.io_q, hnot.off, hnot.keep, ?_⟩, hc', fun M h => htr' M (htr M h),
    fun q hq => ?_⟩
  · exact ⟨hnot.same.requests, hnot.same.thread, hnot.same.next⟩
  · obtain ⟨e, he, hiff⟩ := hmid q (hsub q hq)
    obtain ⟨pd, hpd, htest⟩ := List.any_eq_true.mp (hiff.mp hq)
    refine ⟨e, ⟨he.same.requests, he.same.thread, he.same.next⟩, pd, hpd, ?_⟩
    simpa using htest

/-- The loop over the ready descriptors writes no `fd`. -/
theorem readyPd_fd (set : Kind → Finset ℤ) (pd : Pollfd) : (readyPd set pd).fd = pd.fd := by
  unfold readyPd
  split_ifs <;> rfl

/-- The loop over the ready descriptors writes no `events`. -/
theorem readyPd_events (set : Kind → Finset ℤ) (pd : Pollfd) :
    (readyPd set pd).events = pd.events := by
  unfold readyPd
  split_ifs <;> rfl

/-- `select` takes descriptors out of the sets, and changes nothing else. -/
theorem overwrite_counted {ev : Ev} (h : Counted ev) {i : ℕ} (hi : i < ev.num)
    (ready : Kind → Finset ℤ) : Counted (ev.overwrite i ready) := by
  refine ⟨⟨?_, ?_⟩, h.nodup, h.fresh, h.on_ioq, h.grouped, h.exact⟩
  · intro j k fd hfd
    unfold overwrite at hfd
    dsimp only at hfd
    by_cases hj : j = i
    · subst hj
      rw [Function.update_self] at hfd
      exact h.table.sets j k fd (Finset.mem_inter.mp hfd).1
    · rw [Function.update_of_ne hj] at hfd
      exact h.table.sets j k fd hfd
  · intro j hj
    have hne : j ≠ i := by
      have : ev.num ≤ j := hj
      omega
    unfold overwrite
    dsimp only
    rw [Function.update_of_ne hne]
    exact h.table.past j hj

/-- A group that the guard lets through is in the table. -/
theorem lt_num_of_size {ev : Ev} (ht : TableOk ev) {i : ℕ} (h : ¬(ev.data i).size ≤ 0) :
    i < ev.num := by
  by_contra hi
  rw [ht.past i (by omega)] at h
  exact h le_rfl

/-- `_st_select_dispatch_once` of any group, with any outcome of `select`. -/
theorem dispatchOnce_counted {ev : Ev} (h : Counted ev) (i : ℕ) (outcome : SelectOutcome) :
    Notified ev (ev.dispatchOnce i outcome).1 (ev.dispatchOnce i outcome).2 ∧
      Counted (ev.dispatchOnce i outcome).1 := by
  unfold dispatchOnce
  split_ifs with hguard
  · exact ⟨Notified.refl ev, h⟩
  · rw [not_or] at hguard
    cases outcome with
    | ready set =>
      have hc := overwrite_counted h (lt_num_of_size h.table hguard.1) set
      dsimp only
      split_ifs
      · obtain ⟨w, hw, hnot, hc', -⟩ := @pqFold_counted (fun ev => isReady (ev.data i).set)
          (fun ev => readyPd (ev.data i).set) notifyPd cuts_notifyPd
          (fun e pd => readyPd_fd (e.data i).set pd) (fun e pd => readyPd_events (e.data i).set pd)
          (ev.overwrite i set).io_q (ev.overwrite i set) hc hc.nodup (fun _ hq => hq) []
        rw [notifyPq_eq, hw, List.nil_append]
        exact ⟨⟨hnot.nodup, hnot.mem, hnot.io_q, hnot.off, hnot.keep,
          ⟨hnot.same.requests, hnot.same.thread, hnot.same.next⟩⟩, hc'⟩
      · exact ⟨⟨List.nodup_nil, by simp, by simp [overwrite], by simp, fun _ _ => rfl,
          ⟨fun _ => rfl, fun _ => rfl, rfl⟩⟩, hc⟩
    | error ebadf bad =>
      dsimp only
      split_ifs
      · obtain ⟨hnot, hc, -⟩ := findBadFd_counted h bad
        exact ⟨hnot, hc⟩
      · exact ⟨Notified.refl ev, h⟩

/-- The groups of a dispatch pass, one after another. -/
theorem dispatchFold_counted (outcomes : ℕ → SelectOutcome) (l : List ℕ) :
    ∀ {ev : Ev}, Counted ev → ∀ woken : List ℕ,
      ∃ w, (l.foldl (dispatchGroup outcomes) (ev, woken)).2 = woken ++ w ∧
        Notified ev (l.foldl (dispatchGroup outcomes) (ev, woken)).1 w ∧
        Counted (l.foldl (dispatchGroup outcomes) (ev, woken)).1 := by
  induction l with
  | nil =>
    intro ev h woken
    exact ⟨[], by simp, Notified.refl ev, h⟩
  | cons i l ih =>
    intro ev h woken
    obtain ⟨hnot, hc⟩ := dispatchOnce_counted h i (outcomes i)
    obtain ⟨w, hw, hnot', hc'⟩ := ih hc (woken ++ (ev.dispatchOnce i (outcomes i)).2)
    rw [List.foldl_cons]
    refine ⟨(ev.dispatchOnce i (outcomes i)).2 ++ w, ?_, hnot.trans hnot', hc'⟩
    rw [← List.append_assoc]
    exact hw

/-- `_st_select_dispatch`, with any outcomes of `select`. -/
theorem dispatch_counted {ev : Ev} (h : Counted ev) (outcomes : ℕ → SelectOutcome) :
    Notified ev (ev.dispatch outcomes).1 (ev.dispatch outcomes).2 ∧
      Counted (ev.dispatch outcomes).1 := by
  obtain ⟨w, hw, hnot, hc⟩ := dispatchFold_counted outcomes (List.range ev.num) h []
  unfold dispatch
  rw [hw, List.nil_append]
  exact ⟨hnot, hc⟩

end StWin.Ev
