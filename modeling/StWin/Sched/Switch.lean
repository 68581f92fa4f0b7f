import StWin.Sched.Wake

/-!
# Switching to another thread

`_st_vp_schedule` gives the turn to the first thread of the run queue, or to the idle thread if the
queue is empty. When `_st_this_thread` is itself the first of the queue, which happens only when
`main` schedules while `_st_this_thread` names a thread that it has created on a released stack, the
thread goes back to the tail and the idle thread runs.

The caller must not be in the state `RUNNING` any more: `Parked`.
-/

namespace StWin.St

/-- The state in which the thread `t` has the turn, with the run queue `run_q`. -/
def resumed (s : St) (t : ℕ) (run_q : List ℕ) : St :=
  { s with
    run_q := run_q
    thread := Function.update s.thread t { s.thread t with state := .RUNNING }
    this_thread := some t
    running := (s.thread t).id }

/-- `_st_vp_schedule` in closed form. -/
theorem vpSchedule_eq {s : St} (h : s.Core []) (ho : s.Ownership) :
    (∃ t q, s.run_q = t :: q ∧ s.Live t ∧ s.this_thread ≠ some t ∧
        s.vpSchedule = s.resumed t q) ∨
      (∃ t q, s.run_q = t :: q ∧ s.this_thread = some t ∧ s.vpSchedule = s.resumed 0 (q ++ [t])) ∨
      (s.run_q = [] ∧ s.vpSchedule = s.resumed 0 []) := by
  have hidle : ∀ q, ({ s with run_q := q, this_thread := some 0 }.setState 0 .RUNNING).switchContext 0 =
      s.resumed 0 q := by
    intro q
    simp [switchContext, setState, setThread, resumed, ho.idle_context, ho.idle_id]
  cases hq : s.run_q with
  | nil =>
    refine Or.inr (Or.inr ⟨rfl, ?_⟩)
    rw [← hidle]
    simp [vpSchedule, nextThread, hq, ho.idle_thread, setState, setThread]
  | cons t q =>
    obtain ⟨hl, hst⟩ := (h.recs t).run_q.mp (by rw [hq]; exact List.mem_cons_self)
    have hne := ho.live_ne_zero hl
    have hcontext := (h.recs t).context hl
    by_cases hthis : s.this_thread = some t
    · refine Or.inr (Or.inl ⟨t, q, rfl, hthis, ?_⟩)
      rw [← hidle]
      simp [vpSchedule, nextThread, hq, hst, hthis, ho.idle_thread, hne, addRunq, setState, setThread]
    · refine Or.inl ⟨t, q, rfl, hl, hthis, ?_⟩
      simp [vpSchedule, nextThread, hq, hst, hthis, switchContext, setState, setThread, resumed,
        hcontext]

/-- A record without a live thread is on no queue. -/
theorem Rec.not_live {p : List ℕ} {s : St} {t : ℕ} (h : s.Rec p t) (hl : ¬s.Live t) :
    t ∉ s.run_q ∧ (∀ c, t ∉ s.cond_q c) ∧ (∀ m, t ∉ (s.mutex m).wait_q) ∧
      (∀ q ∈ s.ev.io_q, (s.ev.pollq q).thread ≠ t) ∧ (s.thread t).flags.on_sleepq = false :=
  ⟨fun ht => hl (h.run_q.mp ht).1, fun c ht => hl ((h.cond_q c).mp ht).1,
    fun m ht => hl ((h.wait_q m).mp ht).1, fun q hq ht => hl (h.io_q q hq ht).1,
    Bool.eq_false_iff.mpr fun hon => hl (h.sleep_q hon).1⟩

/-- A record that is not that of a live thread is on no queue. -/
theorem Rec.of_not_live {p : List ℕ} {s : St} {t : ℕ} (hl : ¬s.Live t) (h1 : t ∉ s.run_q)
    (h2 : ∀ c, t ∉ s.cond_q c) (h3 : ∀ m, t ∉ (s.mutex m).wait_q)
    (h4 : ∀ q ∈ s.ev.io_q, (s.ev.pollq q).thread ≠ t)
    (h5 : (s.thread t).flags.on_sleepq = false) : s.Rec p t := by
  refine ⟨?_, fun c => ?_, fun m => ?_, fun q hq ht => absurd ht (h4 q hq), fun hon => ?_,
    fun h => absurd h hl, fun h => absurd h hl, fun h => absurd h hl⟩
  · simp [h1, hl]
  · simp [h2 c, hl]
  · simp [h3 m, hl]
  · rw [h5] at hon
    cases hon

section resumed

variable {s : St} {t : ℕ} {run_q : List ℕ}

/-- The same threads are live. -/
theorem resumed_live (u : ℕ) : (s.resumed t run_q).Live u ↔ s.Live u := by
  have hid : ((s.resumed t run_q).thread u).id = (s.thread u).id := by
    unfold resumed
    dsimp only
    by_cases hu : u = t
    · subst hu
      rw [Function.update_self]
    · rw [Function.update_of_ne hu]
  unfold Live
  rw [hid]
  exact Iff.rfl

/-- The condition variables for the joiners stay as they are. -/
theorem resumed_term (u : ℕ) : ((s.resumed t run_q).thread u).term = (s.thread u).term := by
  unfold resumed
  dsimp only
  by_cases hu : u = t
  · subst hu
    rw [Function.update_self]
  · rw [Function.update_of_ne hu]

/-- The other threads keep their places. -/
theorem resumed_frame (hpark : s.Parked) (hq : ∀ u, u ≠ t → (u ∈ run_q ↔ u ∈ s.run_q)) :
    Frame s (s.resumed t run_q) t := by
  have hth : ∀ u, u ≠ t → (s.resumed t run_q).thread u = s.thread u := fun u hu =>
    Function.update_of_ne hu _ _
  refine ⟨hth, fun u _ => resumed_live u,
    fun c _ _ _ hl ht => ⟨(resumed_live t).mpr hl, by rw [resumed_term]; exact ht⟩,
    fun u hu _ => ?_, hq, fun _ _ _ => Iff.rfl,
    fun _ _ _ => Iff.rfl, fun _ _ h => ⟨h, rfl⟩, fun _ _ _ => ⟨rfl, rfl, id⟩, le_rfl,
    fun u _ hl _ _ hst => absurd hst (hpark u hl)⟩
  unfold pcOf
  rw [hth u hu]
  rfl

/-- The sleep queue is as it was. -/
theorem resumed_sleepOk (h : s.SleepOk) : (s.resumed t run_q).SleepOk := by
  obtain ⟨S, hw, hS⟩ := h
  refine ⟨S, hw, fun u => (hS u).trans ?_⟩
  unfold resumed
  dsimp only
  by_cases hu : u = t
  · subst hu
    rw [Function.update_self]
  · rw [Function.update_of_ne hu]

/-- The first thread of the run queue gets the turn. -/
theorem resumed_core (h : s.Core []) (hpark : s.Parked) (hq : s.run_q = t :: run_q) :
    (s.resumed t run_q).Core [] := by
  have hnd := h.run_nodup
  rw [hq, List.nodup_cons] at hnd
  have hrec := h.recs t
  have hth : (s.resumed t run_q).thread t = { s.thread t with state := .RUNNING } :=
    Function.update_self _ _ _
  have hpc : (s.resumed t run_q).pcOf t = s.pcOf t := by
    unfold pcOf
    rw [hth]
    rfl
  have hst : (s.thread t).state = .RUNNABLE :=
    (hrec.run_q.mp (by rw [hq]; exact List.mem_cons_self)).2
  refine h.move (resumed_frame hpark fun u hu => by simp [hq, hu]) ⟨?_, ?_, ?_, ?_, ?_, ?_, ?_, ?_⟩
    (fun _ h _ => h) hnd.2 h.cond_nodup h.wait_nodup (resumed_sleepOk h.sleep) h.ev
  · rw [hth]
    simpa [resumed] using hnd.1
  · intro c
    rw [resumed_live, hpc]
    exact hrec.cond_q c
  · intro m
    rw [resumed_live, hpc]
    exact hrec.wait_q m
  · intro q hmem howner
    rw [resumed_live, hpc]
    exact hrec.io_q q hmem howner
  · rw [hth]
    intro hon
    -- A runnable thread is not on the sleep queue.
    obtain ⟨-, hwas⟩ := hrec.sleep_q hon
    rw [hst] at hwas
    simp at hwas
  · rw [resumed_live, hth]
    exact hrec.context
  · rw [resumed_live, hpc]
    intro hl
    have := hrec.pc hl
    cases hp : s.pcOf t with
    | join me c u =>
      rw [hp] at this
      rw [PcFits, resumed_live, resumed_term]
      exact this
    | _ =>
      rw [hp] at this
      exact this
  · intro _
    rw [hth]
    exact ⟨by rw [hth]; rfl, rfl⟩

/-- The idle thread gets the turn. -/
theorem resumed_idle_core (h : s.Core []) (ho : s.Ownership) (hpark : s.Parked)
    (hq : run_q.Perm s.run_q) : (s.resumed 0 run_q).Core [] := by
  obtain ⟨h1, h2, h3, h4, h5⟩ := (h.recs 0).not_live ho.not_live_zero
  have hmem : ∀ u, u ∈ run_q ↔ u ∈ s.run_q := fun u => hq.mem_iff
  refine h.move (resumed_frame hpark fun u _ => hmem u) ?_ (fun _ h _ => h)
    (hq.nodup_iff.mpr h.run_nodup) h.cond_nodup h.wait_nodup (resumed_sleepOk h.sleep) h.ev
  refine Rec.of_not_live (fun hl => ho.not_live_zero ((resumed_live 0).mp hl)) ?_ h2 h3 h4 ?_
  · rw [← hmem] at h1
    exact h1
  · simpa [resumed] using h5

/-- The same threads are live, with the fibers and stacks that they had. -/
theorem resumed_sameLives (ht : s.Live t ∨ t = 0) : SameLives s (s.resumed t run_q) := by
  refine SameLives.of_update rfl rfl rfl rfl rfl ?_ (fun _ => rfl) (fun _ _ => rfl) rfl rfl rfl rfl rfl
    rfl rfl rfl
  exact ht.imp_right fun h => Or.inr ⟨h, Or.inl rfl⟩

end resumed

/-- Nothing is required of the place of a fiber that has not moved. -/
theorem Ownership.placeOk {s : St} (ho : s.Ownership) {s' : St} (h : s'.fiber = s.fiber) :
    SameLives.PlaceOk s s' := by
  unfold SameLives.PlaceOk
  rw [h]
  exact ⟨fun _ => ho.main_pc, fun _ => ho.idle_pc⟩

/-- `_st_vp_schedule` resumes a live thread, or the idle thread. -/
theorem vpSchedule_resumed {s : St} (h : s.Core []) (ho : s.Ownership) :
    ∃ t q, (s.Live t ∨ t = 0) ∧ s.vpSchedule = s.resumed t q := by
  rcases vpSchedule_eq h ho with ⟨t, q, -, hl, -, heq⟩ | ⟨t, q, -, -, heq⟩ | ⟨-, heq⟩
  · exact ⟨t, q, Or.inl hl, heq⟩
  · exact ⟨0, q ++ [t], Or.inr rfl, heq⟩
  · exact ⟨0, [], Or.inr rfl, heq⟩

/-- `_st_vp_schedule` keeps the invariant, if the caller has parked its thread. -/
theorem vpSchedule_good {s : St} (h : s.Core []) (ho : s.Ownership) (hpark : s.Parked)
    (hdead : s.running ∈ s.threads → (s.life s.running).exits = 0) :
    s.vpSchedule.Good ∧ SameLives s s.vpSchedule := by
  rcases vpSchedule_eq h ho with ⟨t, q, hq, hl, -, heq⟩ | ⟨t, q, hq, hthis, heq⟩ | ⟨hq, heq⟩
  · rw [heq]
    have hsame : SameLives s (s.resumed t q) := resumed_sameLives (Or.inl hl)
    have hth : ((s.resumed t q).thread t) = { s.thread t with state := .RUNNING } :=
      Function.update_self _ _ _
    refine ⟨⟨resumed_core h hpark hq, hsame.ownership ho (ho.placeOk rfl) hdead, ?_⟩, hsame⟩
    exact Turn.thread t (resumed_live t |>.mpr hl) (by rw [hth]; rfl) (by rw [hth]) rfl
  · rw [heq]
    have hsame : SameLives s (s.resumed 0 (q ++ [t])) := resumed_sameLives (Or.inr rfl)
    refine ⟨⟨resumed_idle_core h ho hpark ?_, hsame.ownership ho (ho.placeOk rfl) hdead, ?_⟩, hsame⟩
    · rw [hq]
      exact List.perm_append_singleton t q
    · exact Turn.idle ho.idle_id rfl
  · rw [heq]
    have hsame : SameLives s (s.resumed 0 []) := resumed_sameLives (Or.inr rfl)
    refine ⟨⟨resumed_idle_core h ho hpark ?_, hsame.ownership ho (ho.placeOk rfl) hdead, ?_⟩, hsame⟩
    · rw [hq]
    · exact Turn.idle ho.idle_id rfl

end StWin.St
