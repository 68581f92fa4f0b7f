import StWin.Sched.Rings
import StWin.Sched.Dispatch
import StWin.Sched.Paths

/-!
# The scheduler edits circular lists

The lists of `St` are what the links of the fields represent. `Edits` says of some accesses that they
are valid on the lists, one after another, and what the lists are then. Each function of the scheduler
carries out edits that lead from the lists of the state in which it is called to those of the state to
which it leads, if no field is linked twice: a record on the run queue is not on the zombie queue, and
a stack that is taken off the free list is not that of a record on the zombie queue. The latter is the
condition `Clean` of a step, besides that it is `Ok`.

With the refinement of the library this makes the pointers of a run refine its lists (`run_links`), and
its law of queues makes the run queue first in, first out, over whole runs (`run_fifo`).
-/

namespace StWin.St

open Clist

/-- A valid access that uses the run queue as a queue. -/
def Fits (ls : Lists QHead QElem) (a : Access) : Prop := ls.Valid a ∧ ls.Queued .runq a

/-- The accesses lead from some lists to others. -/
def Edits (q : QHead → Option (List QElem)) (as : List Access) (q' : QHead → Option (List QElem)) :
    Prop :=
  ∀ left, ∃ left', Runs.Meets Lists.step Fits ⟨q, left⟩ as ∧
    Runs.run Lists.step ⟨q, left⟩ as = some ⟨q', left'⟩

namespace Edits

variable {q q₁ q' : QHead → Option (List QElem)} {as bs : List Access} {h : QHead} {e : QElem}
  {xs : List QElem}

/-- No access. -/
theorem nil (q : QHead → Option (List QElem)) : Edits q [] q := fun left => ⟨left, trivial, rfl⟩

/-- Accesses after accesses. -/
theorem append (h₁ : Edits q as q₁) (h₂ : Edits q₁ bs q') : Edits q (as ++ bs) q' := by
  intro left
  obtain ⟨left₁, hmeets₁, hrun₁⟩ := h₁ left
  obtain ⟨left₂, hmeets₂, hrun₂⟩ := h₂ left₁
  refine ⟨left₂, hmeets₁.append hrun₁ hmeets₂, ?_⟩
  rw [Runs.run_append, hrun₁, Option.bind_some, hrun₂]

/-- One access. -/
theorem single {a : Access} (hfits : ∀ left, Fits ⟨q, left⟩ a)
    (hq : ∀ left, (Lists.apply ⟨q, left⟩ a).q = q') : Edits q [a] q' := by
  intro left
  refine ⟨(Lists.apply ⟨q, left⟩ a).left, ⟨hfits left, trivial⟩, ?_⟩
  rw [← hq left]
  rfl

/-- An access before others. -/
theorem cons {a : Access} (h₁ : Edits q [a] q₁) (h₂ : Edits q₁ as q') : Edits q (a :: as) q' :=
  h₁.append h₂

/-- Read the first link of a list. -/
theorem first (hq : q h = some xs) : Edits q [.first h (node h xs)] q :=
  single (fun _ => ⟨⟨xs, hq, rfl⟩, trivial⟩) fun _ => rfl

/-- Read the link of an element of a list. -/
theorem succ {ys : List QElem} (hq : q h = some (xs ++ e :: ys)) (he : e ∉ xs) :
    Edits q [.succ h e (node h ys)] q := by
  refine single (fun _ => ⟨Or.inl ⟨_, hq, ?_, ?_⟩, trivial⟩) fun _ => rfl
  · exact List.mem_append_right _ List.mem_cons_self
  · exact (after_append he).symm

/-- The last node of a list is read. -/
theorem last (hq : q h = some xs) : Edits q [.last h (lastNode h xs)] q :=
  single (fun _ => ⟨⟨xs, hq, rfl⟩, trivial⟩) fun _ => rfl

/-- Append an element. -/
theorem add (hq : q h = some xs) (hoff : ∀ h' ys, q h' = some ys → e ∉ ys) :
    Edits q [.append e h] (Function.update q h (some (xs ++ [e]))) := by
  refine single (fun _ => ⟨⟨⟨xs, hq⟩, hoff⟩, trivial⟩) fun _ => ?_
  rw [Lists.apply]
  dsimp only
  rw [hq, Option.map_some]

/-- Insert an element before another. -/
theorem before {e' : QElem} {ys : List QElem} (hq : q h = some (xs ++ e' :: ys)) (he' : e' ∉ xs)
    (hoff : ∀ h' zs, q h' = some zs → e ∉ zs) (hrun : h ≠ .runq) :
    Edits q [.before e h e'] (Function.update q h (some (xs ++ e :: e' :: ys))) := by
  refine single (fun _ => ⟨⟨⟨_, hq, by simp⟩, hoff⟩, hrun⟩) fun _ => ?_
  rw [Lists.apply]
  dsimp only
  rw [hq, Option.map_some, splice_append he']

/-- Remove an element. -/
theorem drop (hq : q h = some xs) (he : e ∈ xs) (hrun : h ≠ .runq) :
    Edits q [.remove h e] (Function.update q h (some (xs.erase e))) := by
  refine single (fun _ => ⟨⟨xs, hq, he⟩, fun hh => absurd hh hrun⟩) fun _ => ?_
  rw [Lists.apply]
  dsimp only
  rw [hq, Option.map_some]

/-- Remove the first element. -/
theorem pop (hq : q h = some (e :: xs)) :
    Edits q [.remove h e] (Function.update q h (some xs)) := by
  refine single (fun _ => ⟨⟨_, hq, List.mem_cons_self⟩, ?_⟩) fun _ => ?_
  · rintro rfl
    exact ⟨xs, hq⟩
  · rw [Lists.apply]
    dsimp only
    rw [hq, Option.map_some, List.erase_cons_head]

/-- Set the links of an element to `NULL`. -/
theorem clear (hoff : ∀ h' ys, q h' = some ys → e ∉ ys) : Edits q [.clear e] q :=
  single (fun _ => ⟨hoff, trivial⟩) fun _ => rfl

/-- A new list. -/
theorem init (hq : q h = none) (hrun : h ≠ .runq) :
    Edits q [.init h] (Function.update q h (some [])) :=
  single (fun _ => ⟨hq, hrun⟩) fun _ => rfl

end Edits

/-! ## The fields that are linked -/

section queue

variable {s s' : St} {t : ℕ}

/-- The list of a condition variable that exists is its wait queue. -/
theorem queue_cond {c : Cond} {xs : List QElem} (h : s.queue (.cond c) = some xs) :
    xs = (s.cond_q c).map .waitLinks := by
  cases c with
  | user n => exact (Option.some_inj.mp h).symm
  | term n =>
    simp only [queue] at h
    split_ifs at h
    exact (Option.some_inj.mp h).symm

/-- The state has lists that are the same. -/
theorem queue_congr (h1 : s'.run_q = s.run_q) (h2 : s'.ev.io_q = s.ev.io_q)
    (h3 : s'.zombie_q = s.zombie_q) (h4 : s'.free_stacks = s.free_stacks) (h5 : s'.cond_q = s.cond_q)
    (h6 : ∀ m, (s'.mutex m).wait_q = (s.mutex m).wait_q) (h7 : s'.terms = s.terms) :
    s'.queue = s.queue := by
  funext h
  cases h with
  | cond c => cases c <;> simp only [queue, h5, h7]
  | _ => simp only [queue, h1, h2, h3, h4, h6]

/-- A record that is neither runnable nor a zombie is on no list by its `links`. -/
theorem off_links (hrun : t ∉ s.run_q) (hzombie : t ∉ s.zombie_q) :
    ∀ h ys, s.queue h = some ys → QElem.links t ∉ ys := by
  intro h ys hq hmem
  cases h with
  | runq =>
    cases hq
    simp [hrun] at hmem
  | zombieq =>
    cases hq
    simp [hzombie] at hmem
  | cond c =>
    rw [queue_cond hq] at hmem
    simp at hmem
  | _ =>
    cases hq
    simp at hmem

/-- A record that waits for nothing is on no list by its `wait_links`. -/
theorem off_waitLinks (hcond : ∀ c, t ∉ s.cond_q c) (hmutex : ∀ m, t ∉ (s.mutex m).wait_q) :
    ∀ h ys, s.queue h = some ys → QElem.waitLinks t ∉ ys := by
  intro h ys hq hmem
  cases h with
  | cond c =>
    rw [queue_cond hq] at hmem
    simp [hcond c] at hmem
  | mutex m =>
    cases hq
    simp [hmutex m] at hmem
  | _ =>
    cases hq
    simp at hmem

/-- A pollq that is off the I/O queue is on no list. -/
theorem off_pollq (hio : t ∉ s.ev.io_q) : ∀ h ys, s.queue h = some ys → QElem.pollq t ∉ ys := by
  intro h ys hq hmem
  cases h with
  | ioq =>
    cases hq
    simp [hio] at hmem
  | cond c =>
    rw [queue_cond hq] at hmem
    simp at hmem
  | _ =>
    cases hq
    simp at hmem

/-- A stack that is not free is on no list. -/
theorem off_stack (hfree : t ∉ s.free_stacks) :
    ∀ h ys, s.queue h = some ys → QElem.stack t ∉ ys := by
  intro h ys hq hmem
  cases h with
  | freeStacks =>
    cases hq
    simp [hfree] at hmem
  | cond c =>
    rw [queue_cond hq] at hmem
    simp at hmem
  | _ =>
    cases hq
    simp at hmem

/-- Another run queue. -/
theorem queue_runq {q : List ℕ} (h1 : s'.run_q = q) (h2 : s'.ev.io_q = s.ev.io_q)
    (h3 : s'.zombie_q = s.zombie_q) (h4 : s'.free_stacks = s.free_stacks) (h5 : s'.cond_q = s.cond_q)
    (h6 : ∀ m, (s'.mutex m).wait_q = (s.mutex m).wait_q) (h7 : s'.terms = s.terms) :
    s'.queue = Function.update s.queue .runq (some (q.map .links)) := by
  funext h
  by_cases hh : h = .runq
  · subst hh
    rw [Function.update_self, queue, h1]
  · rw [Function.update_of_ne hh]
    cases h with
    | runq => exact absurd rfl hh
    | cond c => cases c <;> simp only [queue, h5, h7]
    | _ => simp only [queue, h2, h3, h4, h6]

end queue

/-! ## The run queue -/

/-- `_ST_ADD_RUNQ`. -/
theorem addRunq_edits (s : St) {t : ℕ} (hrun : t ∉ s.run_q) (hzombie : t ∉ s.zombie_q) :
    Edits s.queue [.append (.links t) .runq] (s.addRunq t).queue := by
  have hadd := Edits.add (q := s.queue) (h := .runq) (e := .links t) rfl (off_links hrun hzombie)
  have heq : (s.addRunq t).queue =
      Function.update s.queue .runq (some ((s.run_q ++ [t]).map .links)) :=
    queue_runq rfl rfl rfl rfl rfl (fun _ => rfl) rfl
  rw [List.map_append, List.map_singleton] at heq
  rw [heq]
  exact hadd

/-- A switch of fibers leaves the run queue. -/
theorem switchContext_run_q (s : St) (t : ℕ) : (s.switchContext t).run_q = s.run_q := by
  unfold switchContext
  split <;> rfl

/-- The run queue after `_st_vp_schedule`: without its first thread, which comes last if it is the one
that runs already. -/
theorem vpSchedule_run_q (s : St) : s.vpSchedule.run_q = s.nextThread.2 ++
    if s.this_thread = some s.nextThread.1 ∧ s.nextThread.1 ≠ s.idle_thread then [s.nextThread.1]
    else [] := by
  unfold vpSchedule
  dsimp only
  split_ifs
  · rw [switchContext_run_q]
    rfl
  · rw [switchContext_run_q, List.append_nil]
    rfl

/-- `_st_vp_schedule` leaves the other lists. -/
theorem vpSchedule_queue (s : St) : s.vpSchedule.queue =
    Function.update s.queue .runq (some (s.vpSchedule.run_q.map .links)) := by
  obtain ⟨t, q, f, heq⟩ := s.vpSchedule_turns
  rw [heq]
  exact queue_runq rfl rfl rfl rfl rfl (fun _ => rfl) rfl

/-- `_st_vp_schedule`. -/
theorem vpSchedule_edits (s : St) (hnodup : s.run_q.Nodup) (hzombie : ∀ t ∈ s.run_q, t ∉ s.zombie_q) :
    Edits s.queue s.vpScheduleLinks s.vpSchedule.queue := by
  have hq : s.queue .runq = some (s.run_q.map .links) := rfl
  rw [vpSchedule_queue, vpSchedule_run_q]
  unfold vpScheduleLinks
  refine (Edits.first hq).cons ?_
  obtain ⟨⟨u, rest⟩, hnext⟩ : ∃ next, s.nextThread = next := ⟨_, rfl⟩
  rw [hnext]
  cases hrun : s.run_q with
  | nil =>
    simp only [nextThread, hrun, Prod.mk.injEq] at hnext
    obtain ⟨rfl, rfl⟩ := hnext
    -- The idle thread is not put on the queue.
    simp only [ne_eq, not_true_eq_false, and_false, if_false, List.append_nil, List.map_nil]
    have heq : s.queue = Function.update s.queue .runq (some []) := by
      refine (Function.update_eq_self_iff.mpr ?_).symm
      rw [hq, hrun]
      rfl
    rw [← heq]
    exact Edits.nil _
  | cons t q =>
    simp only [nextThread, hrun, Prod.mk.injEq] at hnext
    obtain ⟨hu, rfl⟩ := hnext
    rw [hrun] at hq hnodup
    have hpop : Edits s.queue [.first .runq (.inr (.links t)), .remove .runq (.links t)]
        (Function.update s.queue .runq (some (q.map .links))) :=
      (Edits.first hq).cons (Edits.pop hq)
    refine hpop.append ?_
    dsimp only
    split_ifs with hself
    · -- The thread that runs already is the one that was taken off.
      have ht : u = t := by
        split_ifs at hu with hst
        · exact hu.symm
        · exact absurd hu.symm hself.2
      rw [ht, List.map_append]
      have hoff : ∀ h ys, Function.update s.queue .runq (some (q.map .links)) h = some ys →
          QElem.links t ∉ ys := by
        intro h ys hys
        have hqueue : ({ s with run_q := q } : St).queue =
            Function.update s.queue .runq (some (q.map .links)) :=
          queue_runq rfl rfl rfl rfl rfl (fun _ => rfl) rfl
        rw [← hqueue] at hys
        refine off_links (s := { s with run_q := q }) (List.nodup_cons.mp hnodup).1 ?_ h ys hys
        exact hzombie t (hrun ▸ List.mem_cons_self)
      have hadd := Edits.add (Function.update_self _ _ _) hoff
      rw [Function.update_idem] at hadd
      exact hadd
    · rw [List.append_nil]
      exact Edits.nil _

/-- From `s` to `s'` the threads of `l` were put on the run queue, and no other list changed. -/
structure Enqueues (s s' : St) (l : List ℕ) : Prop where
  run_q : s'.run_q = s.run_q ++ l
  io_q : s'.ev.io_q = s.ev.io_q
  zombie_q : s'.zombie_q = s.zombie_q
  free_stacks : s'.free_stacks = s.free_stacks
  cond_q : s'.cond_q = s.cond_q
  wait_q : ∀ m, (s'.mutex m).wait_q = (s.mutex m).wait_q
  terms : s'.terms = s.terms

namespace Enqueues

variable {s s' s'' : St} {l l' : List ℕ}

/-- Nobody is put on the run queue. -/
theorem refl (s : St) : Enqueues s s [] :=
  ⟨(List.append_nil _).symm, rfl, rfl, rfl, rfl, fun _ => rfl, rfl⟩

/-- One after the other. -/
theorem trans (h : Enqueues s s' l) (h' : Enqueues s' s'' l') : Enqueues s s'' (l ++ l') where
  run_q := by rw [h'.run_q, h.run_q, List.append_assoc]
  io_q := h'.io_q.trans h.io_q
  zombie_q := h'.zombie_q.trans h.zombie_q
  free_stacks := h'.free_stacks.trans h.free_stacks
  cond_q := h'.cond_q.trans h.cond_q
  wait_q m := (h'.wait_q m).trans (h.wait_q m)
  terms := h'.terms.trans h.terms

/-- The lists are the same in another state. -/
theorem congr (h : Enqueues s s' l) (h1 : s''.run_q = s'.run_q) (h2 : s''.ev.io_q = s'.ev.io_q)
    (h3 : s''.zombie_q = s'.zombie_q) (h4 : s''.free_stacks = s'.free_stacks)
    (h5 : s''.cond_q = s'.cond_q) (h6 : ∀ m, (s''.mutex m).wait_q = (s'.mutex m).wait_q)
    (h7 : s''.terms = s'.terms) : Enqueues s s'' l :=
  ⟨h1.trans h.run_q, h2.trans h.io_q, h3.trans h.zombie_q, h4.trans h.free_stacks,
    h5.trans h.cond_q, fun m => (h6 m).trans (h.wait_q m), h7.trans h.terms⟩

end Enqueues

/-- `_ST_DEL_SLEEPQ` leaves the lists. -/
theorem delSleepQ_queue {s s' : St} {t : ℕ} (h : s.delSleepQ t = some s') : Enqueues s s' [] := by
  obtain ⟨heap, -, rfl⟩ := Option.map_eq_some_iff.mp h
  exact .congr (.refl s) rfl rfl rfl rfl rfl (fun _ => rfl) rfl

/-- `_ST_ADD_SLEEPQ` leaves the lists. -/
theorem addSleepQ_queue {s s' : St} {t timeout : ℕ} (h : s.addSleepQ t timeout = some s') :
    Enqueues s s' [] := by
  obtain ⟨heap, -, rfl⟩ := Option.map_eq_some_iff.mp h
  exact .congr (.refl s) rfl rfl rfl rfl rfl (fun _ => rfl) rfl

/-- A thread that is made runnable comes last. -/
theorem wake_enqueues {s s' : St} {t : ℕ} (h : s.wake t = some s') : Enqueues s s' [t] := by
  unfold wake leaveSleepQ at h
  obtain ⟨s₁, hs₁, rfl⟩ := Option.map_eq_some_iff.mp h
  have hleave : Enqueues s s₁ [] := by
    split_ifs at hs₁
    · exact delSleepQ_queue hs₁
    · cases hs₁
      exact .refl s
  exact hleave.trans ⟨rfl, rfl, rfl, rfl, rfl, fun _ => rfl, rfl⟩

/-- Threads that may be put on the run queue, seen from the state in which they are on it. -/
structure Sound (s : St) : Prop where
  nodup : s.run_q.Nodup
  zombie : ∀ t ∈ s.run_q, t ∉ s.zombie_q

/-- One thread is put on the run queue. -/
theorem Enqueues.edits {s s' : St} {t : ℕ} (h : Enqueues s s' [t]) {l : List ℕ} {s'' : St}
    (hrest : Enqueues s' s'' l) (hsound : s''.Sound) :
    Edits s.queue [.append (.links t) .runq] s'.queue := by
  have hmem : t ∈ s''.run_q := by
    rw [hrest.run_q, h.run_q]
    simp
  have hnot : t ∉ s.run_q := by
    have hnodup := hsound.nodup
    rw [hrest.run_q, h.run_q] at hnodup
    intro hmem
    have hdisj := (List.nodup_append.mp (List.nodup_append.mp hnodup).1).2.2
    exact hdisj t hmem t (List.mem_singleton_self t) rfl
  have hzombie : t ∉ s.zombie_q := by
    have hz := hsound.zombie t hmem
    rwa [hrest.zombie_q, h.zombie_q] at hz
  have heq : s'.queue = (s.addRunq t).queue :=
    queue_congr h.run_q h.io_q h.zombie_q h.free_stacks h.cond_q h.wait_q h.terms
  rw [heq]
  exact addRunq_edits s hnot hzombie

/-- The other lists stay. -/
theorem Enqueues.queue {s s' : St} {l : List ℕ} (h : Enqueues s s' l) :
    s'.queue = Function.update s.queue .runq (some ((s.run_q ++ l).map .links)) :=
  queue_runq h.run_q h.io_q h.zombie_q h.free_stacks h.cond_q h.wait_q h.terms

/-- All lists stay if nobody is put on the run queue. -/
theorem Enqueues.queue_nil {s s' : St} (h : Enqueues s s' []) : s'.queue = s.queue :=
  queue_congr (h.run_q.trans (List.append_nil _)) h.io_q h.zombie_q h.free_stacks h.cond_q h.wait_q h.terms

/-- The other lists stay. -/
theorem Enqueues.queue_of_ne {s s' : St} {l : List ℕ} (h : Enqueues s s' l) {hd : QHead}
    (hne : hd ≠ .runq) : s'.queue hd = s.queue hd := by
  rw [h.queue, Function.update_of_ne hne]

/-! ## The clock -/

/-- The loop of `_st_vp_check_clock`. -/
theorem checkClockLoop_edits (now fuel : ℕ) : ∀ {s s' : St}, checkClockLoop now fuel s = some s' →
    ∃ l, Enqueues s s' l ∧ (s'.Sound → Edits s.queue (checkClockLinks now fuel s) s'.queue) := by
  induction fuel with
  | zero => exact fun h => by cases h
  | succ fuel ih =>
    intro s s' h
    rw [checkClockLoop] at h
    rw [checkClockLinks]
    cases hroot : s.heap.sleep_q with
    | none =>
      rw [hroot] at h
      cases h
      exact ⟨[], .refl s, fun _ => Edits.nil _⟩
    | some t =>
      rw [hroot] at h
      dsimp only at h ⊢
      by_cases hdue : now < (s.heap.node t).due
      · rw [if_pos hdue] at h ⊢
        cases h
        exact ⟨[], .refl s, fun _ => Edits.nil _⟩
      · rw [if_neg hdue] at h ⊢
        obtain ⟨s₁, hs₁, hrest⟩ := Option.bind_eq_some_iff.mp h
        rw [hs₁]
        dsimp only
        -- The thread that has expired, and then the others.
        generalize hs₂ : (if (s₁.thread t).state = .COND_WAIT then
          s₁.setFlags t fun fl => { fl with timedout := true } else s₁) = s₂ at hrest ⊢
        have hflag : Enqueues s₁ s₂ [] := by
          rw [← hs₂]
          split_ifs
          · exact ⟨(List.append_nil _).symm, rfl, rfl, rfl, rfl, fun _ => rfl, rfl⟩
          · exact .refl s₁
        have hone : Enqueues s ((s₂.setState t .RUNNABLE).addRunq t) [t] :=
          ((delSleepQ_queue hs₁).trans hflag).trans ⟨rfl, rfl, rfl, rfl, rfl, fun _ => rfl, rfl⟩
        obtain ⟨l, hl, hedits⟩ := ih hrest
        exact ⟨[t] ++ l, hone.trans hl, fun hsound => (hone.edits hl hsound).cons (hedits hsound)⟩

/-! ## Signals -/

/-- The loop of `_st_cond_signal`, at the links `q` of the wait queue. -/
theorem condSignalLoop_edits (c : Cond) (broadcast : Bool) (q : List ℕ) : ∀ {s s' : St} {before : List ℕ},
    condSignalLoop broadcast q s = some s' →
    s.queue (.cond c) = some ((before ++ q).map .waitLinks) → (before ++ q).Nodup →
    ∃ l, Enqueues s s' l ∧ (s'.Sound → Edits s.queue (condLoopLinks c broadcast q s) s'.queue) := by
  induction q with
  | nil =>
    intro s s' before h _ _
    cases h
    exact ⟨[], .refl s, fun _ => Edits.nil _⟩
  | cons t q ih =>
    intro s s' before h hq hnodup
    have hassoc : before ++ t :: q = (before ++ [t]) ++ q := by simp
    have hnot : t ∉ before := fun hmem =>
      (List.nodup_append.mp hnodup).2.2 t hmem t List.mem_cons_self rfl
    -- The link to the next waiter, in a state with this wait queue.
    have hnext : ∀ {s₁ : St}, s₁.queue (.cond c) = s.queue (.cond c) →
        Edits s₁.queue [.succ (.cond c) (.waitLinks t) (node (.cond c) (q.map .waitLinks))]
          s₁.queue := by
      intro s₁ hs₁
      rw [hq, List.map_append, List.map_cons] at hs₁
      exact Edits.succ hs₁ (by simpa using hnot)
    rw [condSignalLoop] at h
    rw [condLoopLinks]
    by_cases hst : (s.thread t).state = .COND_WAIT
    · rw [if_pos hst] at h ⊢
      obtain ⟨s₁, hs₁, hrest⟩ := Option.bind_eq_some_iff.mp h
      have hone := wake_enqueues hs₁
      have hcond : s₁.queue (.cond c) = s.queue (.cond c) := hone.queue_of_ne (by simp)
      rw [hs₁]
      dsimp only
      cases broadcast with
      | false =>
        cases hrest
        refine ⟨[t], hone, fun hsound => ?_⟩
        exact hone.edits (.refl _) hsound
      | true =>
        rw [if_pos rfl] at hrest ⊢
        rw [hassoc] at hq hnodup
        obtain ⟨l, hl, hedits⟩ := ih hrest (hcond.trans hq) hnodup
        refine ⟨[t] ++ l, hone.trans hl, fun hsound => ?_⟩
        exact (hone.edits hl hsound).cons ((hnext hcond).cons (hedits hsound))
    · rw [if_neg hst] at h ⊢
      have hhere := @hnext s rfl
      rw [hassoc] at hq hnodup
      obtain ⟨l, hl, hedits⟩ := ih h hq hnodup
      exact ⟨l, hl, fun hsound => hhere.cons (hedits hsound)⟩

/-- `_st_cond_signal`. -/
theorem condSignal_edits {s s' : St} {c : Cond} {broadcast : Bool}
    (h : s.condSignal c broadcast = some s')
    (hq : s.queue (.cond c) = some ((s.cond_q c).map .waitLinks)) (hnodup : (s.cond_q c).Nodup) :
    ∃ l, Enqueues s s' l ∧ (s'.Sound → Edits s.queue (s.condSignalLinks c broadcast) s'.queue) := by
  obtain ⟨l, hl, hedits⟩ := @condSignalLoop_edits c broadcast (s.cond_q c) s s' [] h hq hnodup
  exact ⟨l, hl, fun hsound => (Edits.first hq).cons (hedits hsound)⟩

/-! ## Mutexes -/

/-- The loop of `st_mutex_unlock`, at the links `q` of the wait queue. -/
theorem unlockLoop_edits {s s' : St} {m : ℕ} (q : List ℕ) : ∀ {before : List ℕ},
    (s.mutex m).wait_q = before ++ q → (before ++ q).Nodup →
    ((q.find? fun t => (s.thread t).state = .LOCK_WAIT) = none →
      Edits s.queue (s.unlockLoopLinks m q) s.queue) ∧
    (∀ t, (q.find? fun t => (s.thread t).state = .LOCK_WAIT) = some t → Enqueues s s' [t] →
      s'.Sound → Edits s.queue (s.unlockLoopLinks m q) s'.queue) := by
  induction q with
  | nil => exact fun _ _ => ⟨fun _ => Edits.nil _, fun t ht => by cases ht⟩
  | cons t q ih =>
    intro before hq hnodup
    rw [List.find?_cons, unlockLoopLinks]
    by_cases hst : (s.thread t).state = .LOCK_WAIT
    · simp only [hst, decide_true, if_true]
      refine ⟨fun h => (by cases h), fun u hu hone hsound => ?_⟩
      cases hu
      exact hone.edits (.refl s') hsound
    · have hnot : t ∉ before := fun hmem =>
        (List.nodup_append.mp hnodup).2.2 t hmem t List.mem_cons_self rfl
      have hwait : s.queue (.mutex m) =
          some (before.map .waitLinks ++ .waitLinks t :: q.map .waitLinks) := by
        rw [queue, hq, List.map_append, List.map_cons]
      have hnext := Edits.succ hwait (by simpa using hnot)
      have hassoc : before ++ t :: q = (before ++ [t]) ++ q := by simp
      rw [hassoc] at hq hnodup
      obtain ⟨hnone, hsome⟩ := ih hq hnodup
      simp only [hst, decide_false, if_false]
      exact ⟨fun h => hnext.cons (hnone h), fun u hu hone hsound => hnext.cons (hsome u hu hone hsound)⟩

/-- The paths through `st_mutex_unlock` by the owner. Only the record of the event comes before the loop,
and it changes no list. -/
theorem mutexUnlock_paths {s : St} {m : ℕ} (howner : (s.mutex m).owner = s.this_thread) :
    ∃ s₁, Enqueues s s₁ [] ∧
      (∀ t, s.firstLockWait m = some t →
        s.mutexUnlock m = (((s₁.setOwner m (some t)).setState t .RUNNABLE).addRunq t).ret (.ok 0)) ∧
      (s.firstLockWait m = none → s.mutexUnlock m = (s₁.setOwner m none).ret (.ok 0)) := by
  unfold mutexUnlock
  rw [if_neg (not_not.mpr howner)]
  cases hthis : s.this_thread with
  | none =>
    refine ⟨s, .refl s, fun t ht => ?_, fun ht => ?_⟩
    · simp only [ht]
    · simp only [ht]
  | some me =>
    have hfind : (s.note (.unlocked m me)).firstLockWait m = s.firstLockWait m := rfl
    refine ⟨s.note (.unlocked m me), ⟨(List.append_nil _).symm, rfl, rfl, rfl, rfl, fun _ => rfl, rfl⟩,
      fun t ht => ?_, fun ht => ?_⟩
    · simp only [hfind, ht]
    · simp only [hfind, ht]

/-- `st_mutex_unlock`. -/
theorem mutexUnlock_edits {s : St} {m : ℕ} (hnodup : (s.mutex m).wait_q.Nodup) :
    ∃ l, Enqueues s (s.mutexUnlock m) l ∧
      ((s.mutexUnlock m).Sound → Edits s.queue (s.mutexUnlockLinks m) (s.mutexUnlock m).queue) := by
  by_cases howner : (s.mutex m).owner = s.this_thread
  · -- The owner is not part of the queues.
    have hwait : ∀ (s₀ : St) owner m', ((s₀.setOwner m owner).mutex m').wait_q =
        (s₀.mutex m').wait_q := by
      intro s₀ owner m'
      by_cases hm : m' = m
      · subst hm
        simp [setOwner]
      · simp [setOwner, hm]
    -- The loop looks at the waiters in order, up to the first one in `LOCK_WAIT`.
    have hloop := fun s' => @unlockLoop_edits s s' m (s.mutex m).wait_q [] rfl hnodup
    have hfirst : Edits s.queue _ s.queue :=
      @Edits.first s.queue (.mutex m) ((s.mutex m).wait_q.map .waitLinks) rfl
    obtain ⟨s₁, h1, hsome, hnone⟩ := mutexUnlock_paths howner
    unfold mutexUnlockLinks
    rw [if_neg (not_not.mpr howner)]
    cases hfind : s.firstLockWait m with
    | none =>
      rw [hnone hfind]
      unfold firstLockWait at hfind
      have hends : Enqueues s ((s₁.setOwner m none).ret (.ok 0)) [] :=
        h1.trans ⟨(List.append_nil _).symm, rfl, rfl, rfl, rfl, fun m' => hwait s₁ _ m', rfl⟩
      refine ⟨[], hends, fun _ => ?_⟩
      rw [hends.queue_nil]
      exact hfirst.cons ((hloop s).1 hfind)
    | some t =>
      rw [hsome t hfind]
      unfold firstLockWait at hfind
      generalize hs' : (((s₁.setOwner m (some t)).setState t .RUNNABLE).addRunq t).ret (.ok 0) = s'
      have hone : Enqueues s s' [t] := by
        rw [← hs']
        exact h1.trans ⟨rfl, rfl, rfl, rfl, rfl, fun m' => hwait s₁ _ m', rfl⟩
      exact ⟨[t], hone, fun hsound => hfirst.cons ((hloop s').2 t hfind hone hsound)⟩
  · -- The caller is not the owner.
    unfold mutexUnlock mutexUnlockLinks
    rw [if_pos howner, if_pos howner]
    exact ⟨[], ⟨(List.append_nil _).symm, rfl, rfl, rfl, rfl, fun _ => rfl, rfl⟩, fun _ => Edits.nil _⟩

/-! ## A dispatch pass -/

/-- A pollq is taken off in a loop, its thread is put on the run queue, and the loop goes on from the
pollq. -/
theorem Edits.popNext {q : QHead → Option (List QElem)} {h : QHead} {e e' : QElem}
    {xs ys zs : List QElem} (hq : q h = some (xs ++ e :: ys)) (he : e ∉ xs) (hh : h ≠ .runq)
    (hrun : q .runq = some zs) (hoff : ∀ h' us, q h' = some us → e' ∉ us) (hne : e ≠ e') :
    Edits q [.remove h e, .append e' .runq, .succ h e (node h ys)]
      (Function.update (Function.update q h (some (xs ++ ys))) .runq (some (zs ++ [e']))) := by
  have herase : (xs ++ e :: ys).erase e = xs ++ ys := by
    rw [List.erase_append_right _ he, List.erase_cons_head]
  have hdrop : Edits q [.remove h e] (Function.update q h (some (xs ++ ys))) := by
    rw [← herase]
    exact Edits.drop hq (by simp) hh
  intro left
  -- The element that was taken off still has its link.
  refine ⟨Function.update (Function.update left e (some (node h ys))) e' none, ?_, ?_⟩
  · have h1 : Lists.step ⟨q, left⟩ (.remove h e) =
        some ⟨Function.update q h (some (xs ++ ys)), Function.update left e (some (node h ys))⟩ := by
      rw [Lists.step, Lists.apply]
      dsimp only
      rw [hq, Option.map_some, Option.map_some, herase, after_append he]
    refine ⟨⟨⟨_, hq, by simp⟩, fun heq => absurd heq hh⟩, ?_⟩
    rw [h1]
    refine ⟨⟨⟨⟨zs, ?_⟩, ?_⟩, trivial⟩, ⟨Or.inr ?_, trivial⟩, trivial⟩
    · dsimp only
      rw [Function.update_of_ne hh.symm, hrun]
    · intro h' us hus
      dsimp only at hus
      by_cases hhh : h' = h
      · subst hhh
        rw [Function.update_self] at hus
        cases hus
        have hnot := hoff h' _ hq
        simp only [List.mem_append, List.mem_cons, not_or] at hnot ⊢
        exact ⟨hnot.1, hnot.2.2⟩
      · rw [Function.update_of_ne hhh] at hus
        exact hoff h' us hus
    · dsimp only [Lists.apply]
      rw [Function.update_of_ne hne, Function.update_self]
  · simp only [Runs.run, Lists.step, Lists.apply, hq, Option.map_some, herase, after_append he,
      Function.update_of_ne hh.symm, hrun]

/-- What a body of a notification loop does to the I/O queue. -/
structure TakesOff (ev : Ev) (q : ℕ) (ev' : Ev) (w : List ℕ) : Prop where
  cases : w = [] ∧ ev'.io_q = ev.io_q ∨ w = [q] ∧ ev'.io_q = ev.io_q.erase q
  thread : ∀ p, (ev'.pollq p).thread = (ev.pollq p).thread

/-- A loop body that takes off the pollq that it is at, or leaves it. -/
def LoopBody (f : Ev × List ℕ → ℕ → Ev × List ℕ) : Prop :=
  ∀ ev q, ∃ ev' w, (∀ woken, f (ev, woken) q = (ev', woken ++ w)) ∧ TakesOff ev q ev' w

/-- A loop that notifies pollqs takes the pollq off, or leaves it. -/
theorem pqStep_loopBody {test : Ev → Pollfd → Bool} {g : Ev → Pollfd → Pollfd} {f : Ev → Pollfd → Ev}
    (hf : Ev.Cuts f) : LoopBody (Ev.pqStep test g f) := by
  intro ev q
  unfold Ev.pqStep
  by_cases htest : (ev.pollq q).pds.any (test ev) = true
  · have hsame := hf.foldl_queue ((ev.pollq q).pds.map (g ev)) (ev.takeOff q ((ev.pollq q).pds.map (g ev)))
    refine ⟨_, [q], fun woken => if_pos htest, Or.inr ⟨rfl, hsame.io_q⟩, fun p => ?_⟩
    rw [hsame.pollq]
    by_cases hp : p = q
    · subst hp
      simp [Ev.takeOff]
    · simp [Ev.takeOff, hp]
  · refine ⟨ev.setRevents q ((ev.pollq q).pds.map (g ev)), [], fun woken => ?_, Or.inl ⟨rfl, rfl⟩,
      fun p => ?_⟩
    · rw [List.append_nil]
      exact if_neg htest
    · by_cases hp : p = q
      · subst hp
        simp [Ev.setRevents]
      · simp [Ev.setRevents, hp]

/-- The pollqs that a loop has notified before do not matter. -/
theorem LoopBody.foldl {f : Ev × List ℕ → ℕ → Ev × List ℕ} (hf : LoopBody f) (l : List ℕ) :
    ∀ (ev : Ev) (woken : List ℕ),
      l.foldl f (ev, woken) = ((l.foldl f (ev, [])).1, woken ++ (l.foldl f (ev, [])).2) := by
  induction l with
  | nil => exact fun ev woken => by simp
  | cons q l ih =>
    intro ev woken
    obtain ⟨ev', w, hbody, -⟩ := hf ev q
    rw [List.foldl_cons, List.foldl_cons, hbody, hbody, ih ev' (woken ++ w), ih ev' ([] ++ w)]
    simp

/-- The state after the pollqs of `w` were notified, with `ev` for the event system. -/
def notified (s : St) (ev : Ev) (w : List ℕ) : St :=
  { s with ev := ev, run_q := s.run_q ++ w.map fun q => (ev.pollq q).thread }

/-- No pollq was notified. -/
theorem notified_nil {s : St} {ev : Ev} (hio : ev.io_q = s.ev.io_q) :
    (s.notified ev []).queue = s.queue :=
  queue_congr (List.append_nil _) hio rfl rfl rfl (fun _ => rfl) rfl

/-- Pollqs that are notified in two parts. -/
theorem notified_notified {s : St} {ev ev' : Ev} {w w' : List ℕ}
    (hthread : ∀ p, (ev'.pollq p).thread = (ev.pollq p).thread) :
    (s.notified ev w).notified ev' w' = s.notified ev' (w ++ w') := by
  unfold notified
  simp only [List.map_append, ← List.append_assoc, hthread]

/-- A loop over the I/O queue, at the pollqs `l`. -/
theorem ioLoop_edits {f : Ev × List ℕ → ℕ → Ev × List ℕ} (hf : LoopBody f) (l : List ℕ) :
    ∀ {s : St} {before : List ℕ}, s.ev.io_q = before ++ l → (before ++ l).Nodup →
      (∀ p, ((l.foldl f (s.ev, [])).1.pollq p).thread = (s.ev.pollq p).thread) ∧
      ((s.notified (l.foldl f (s.ev, [])).1 (l.foldl f (s.ev, [])).2).Sound →
        Edits s.queue (ioLoopLinks f s.ev l)
          (s.notified (l.foldl f (s.ev, [])).1 (l.foldl f (s.ev, [])).2).queue) := by
  induction l with
  | nil =>
    intro s before _ _
    refine ⟨fun _ => rfl, fun _ => ?_⟩
    rw [List.foldl_nil, notified_nil rfl]
    exact Edits.nil _
  | cons q l ih =>
    intro s before hio hnodup
    obtain ⟨ev₁, w, hbody, htakes⟩ := hf s.ev q
    have hnot : q ∉ before := fun hmem =>
      (List.nodup_append.mp hnodup).2.2 q hmem q List.mem_cons_self rfl
    have hassoc : before ++ q :: l = (before ++ [q]) ++ l := by simp
    -- The queue that the rest of the loop is over.
    obtain ⟨before₁, hio₁, hnodup₁⟩ : ∃ before₁, (s.notified ev₁ w).ev.io_q = before₁ ++ l ∧
        (before₁ ++ l).Nodup := by
      rcases htakes.cases with ⟨-, heq⟩ | ⟨-, heq⟩
      · rw [hio, hassoc] at heq
        rw [hassoc] at hnodup
        exact ⟨before ++ [q], heq, hnodup⟩
      · rw [hio, List.erase_append_right _ hnot, List.erase_cons_head] at heq
        refine ⟨before, heq, hnodup.sublist ?_⟩
        exact (List.sublist_cons_self q l).append_left before
    obtain ⟨hthread, hrest⟩ := ih hio₁ hnodup₁
    have hfold : (q :: l).foldl f (s.ev, []) =
        ((l.foldl f (ev₁, [])).1, w ++ (l.foldl f (ev₁, [])).2) := by
      rw [List.foldl_cons, hbody, hf.foldl l ev₁ ([] ++ w), List.nil_append]
    have hev₁ : (s.notified ev₁ w).ev = ev₁ := rfl
    rw [hev₁] at hthread hrest
    rw [notified_notified hthread] at hrest
    rw [hfold]
    refine ⟨fun p => (hthread p).trans (htakes.thread p), fun hsound => ?_⟩
    have hqueue : s.queue .ioq = some (before.map .pollq ++ .pollq q :: l.map .pollq) := by
      rw [queue, hio, List.map_append, List.map_cons]
    have hnotmap : QElem.pollq q ∉ before.map QElem.pollq := by simpa using hnot
    rw [ioLoopLinks, hbody, List.nil_append]
    dsimp only
    rcases htakes.cases with ⟨rfl, heq⟩ | ⟨rfl, heq⟩
    · rw [if_pos rfl, List.nil_append]
      have hhere : Edits s.queue [.succ .ioq (.pollq q) (node .ioq (l.map .pollq))]
          (s.notified ev₁ []).queue := by
        rw [notified_nil heq]
        exact Edits.succ hqueue hnotmap
      exact hhere.cons (hrest hsound)
    · rw [if_neg (by simp), List.cons_append, List.cons_append, List.nil_append]
      -- The thread of the pollq is on neither queue yet.
      have hmem : (s.ev.pollq q).thread ∈ (s.notified (l.foldl f (ev₁, [])).1
          ([q] ++ (l.foldl f (ev₁, [])).2)).run_q := by
        refine List.mem_append_right _ ?_
        rw [List.map_append, List.map_singleton, hthread, htakes.thread]
        exact List.mem_append_left _ (List.mem_singleton_self _)
      have hrun : (s.ev.pollq q).thread ∉ s.run_q := by
        intro hin
        have hdisj := (List.nodup_append.mp hsound.nodup).2.2 _ hin
        refine hdisj (s.ev.pollq q).thread ?_ rfl
        rw [List.map_append, List.map_singleton, hthread, htakes.thread]
        exact List.mem_append_left _ (List.mem_singleton_self _)
      have hoff := off_links hrun (hsound.zombie _ hmem)
      have hpop := Edits.popNext hqueue hnotmap (by decide) rfl hoff (by simp)
      have heq' : (s.notified ev₁ [q]).queue =
          Function.update (Function.update s.queue .ioq (some (before.map .pollq ++ l.map .pollq)))
            .runq (some (s.run_q.map .links ++ [.links (s.ev.pollq q).thread])) := by
        have hone : (s.notified ev₁ [q]).queue = Function.update ({ s with ev := ev₁ } : St).queue
            .runq (some ((s.run_q ++ [(ev₁.pollq q).thread]).map .links)) :=
          queue_runq rfl rfl rfl rfl rfl (fun _ => rfl) rfl
        rw [hone, List.map_append, List.map_singleton, htakes.thread]
        congr 1
        funext h
        by_cases hh : h = .ioq
        · subst hh
          rw [Function.update_self, ← List.map_append]
          have hq₁ : ev₁.io_q = before ++ l := by
            rw [heq, hio, List.erase_append_right _ hnot, List.erase_cons_head]
          rw [← hq₁]
          rfl
        · rw [Function.update_of_ne hh]
          cases h with
          | ioq => exact absurd rfl hh
          | cond c => cases c <;> rfl
          | _ => rfl
      rw [← heq'] at hpop
      exact hpop.append (hrest hsound)

/-- A prefix of the run queue. -/
theorem Sound.of_prefix {s s' : St} (h : s'.Sound) {l : List ℕ} (hrun : s'.run_q = s.run_q ++ l)
    (hzombie : s'.zombie_q = s.zombie_q) : s.Sound := by
  constructor
  · have hnodup := h.nodup
    rw [hrun] at hnodup
    exact (List.nodup_append.mp hnodup).1
  · intro t ht
    rw [← hzombie]
    exact h.zombie t (by rw [hrun]; exact List.mem_append_left _ ht)

/-- A loop over the I/O queue of `ev`. -/
theorem ioWalk_edits {f : Ev × List ℕ → ℕ → Ev × List ℕ} (hf : LoopBody f) {s : St} {ev : Ev}
    (hio : ev.io_q = s.ev.io_q) (hnodup : s.ev.io_q.Nodup)
    (hsound : (s.notified (ev.io_q.foldl f (ev, [])).1 (ev.io_q.foldl f (ev, [])).2).Sound) :
    Edits s.queue (ioWalkLinks f ev)
      (s.notified (ev.io_q.foldl f (ev, [])).1 (ev.io_q.foldl f (ev, [])).2).queue := by
  have hqueue : (s.setEv ev).queue = s.queue :=
    queue_congr rfl hio rfl rfl rfl (fun _ => rfl) rfl
  have hloop := (@ioLoop_edits f hf ev.io_q (s.setEv ev) [] rfl (hio ▸ hnodup)).2 hsound
  rw [hqueue] at hloop
  have hfirst : Edits s.queue [.first .ioq (node .ioq (ev.io_q.map .pollq))] s.queue := by
    rw [hio]
    exact Edits.first rfl
  exact hfirst.cons hloop

/-- `_st_select_dispatch_once`. -/
theorem dispatchOnce_edits {s : St} (hc : Ev.Counted s.ev) (i : ℕ) (outcome : SelectOutcome)
    (hsound : (s.notified (s.ev.dispatchOnce i outcome).1 (s.ev.dispatchOnce i outcome).2).Sound) :
    Edits s.queue (dispatchOnceLinks s.ev i outcome)
      (s.notified (s.ev.dispatchOnce i outcome).1 (s.ev.dispatchOnce i outcome).2).queue := by
  -- Without a notification the I/O queue stays, and so do the links.
  have hnil : ∀ {ev : Ev}, ev.io_q = s.ev.io_q → Edits s.queue [] (s.notified ev []).queue := by
    intro ev hio
    rw [notified_nil hio]
    exact Edits.nil _
  unfold Ev.dispatchOnce at hsound ⊢
  unfold dispatchOnceLinks
  by_cases hguard : (s.ev.data i).size ≤ 0 ∨ (s.ev.data i).maxfd ≤ 0
  · rw [if_pos hguard, if_pos hguard]
    exact hnil rfl
  · rw [if_neg hguard] at hsound
    rw [if_neg hguard, if_neg hguard]
    cases outcome with
    | ready set =>
      dsimp only at hsound ⊢
      by_cases hnfd : 0 < (s.ev.overwrite i set).nfd i
      · rw [if_pos hnfd] at hsound
        rw [if_pos hnfd, if_pos hnfd]
        -- Both loops take pollqs off the I/O queue while they walk along it.
        have hbody : LoopBody (Ev.notifyPq i) := by
          rw [Ev.notifyPq_eq]
          exact pqStep_loopBody Ev.cuts_notifyPd
        exact ioWalk_edits hbody rfl hc.nodup hsound
      · rw [if_neg hnfd, if_neg hnfd]
        exact hnil rfl
    | error ebadf bad =>
      dsimp only at hsound ⊢
      cases ebadf with
      | true =>
        rw [if_pos rfl] at hsound
        rw [if_pos rfl, if_pos rfl]
        have hbody : LoopBody (Ev.badPq bad) := by
          rw [Ev.badPq_eq]
          exact pqStep_loopBody Ev.cuts_badCutPd
        unfold Ev.findBadFd at hsound ⊢
        exact ioWalk_edits hbody rfl hc.nodup hsound
      | false => exact hnil rfl

/-- The loop of `_st_select_dispatch`. -/
theorem dispatchLinks_edits (outcomes : ℕ → SelectOutcome) (l : List ℕ) : ∀ {s : St}, Ev.Counted s.ev →
    (s.notified (l.foldl (Ev.dispatchGroup outcomes) (s.ev, [])).1
      (l.foldl (Ev.dispatchGroup outcomes) (s.ev, [])).2).Sound →
    Edits s.queue (dispatchLinks outcomes s.ev l)
      (s.notified (l.foldl (Ev.dispatchGroup outcomes) (s.ev, [])).1
        (l.foldl (Ev.dispatchGroup outcomes) (s.ev, [])).2).queue := by
  induction l with
  | nil =>
    intro s _ _
    rw [List.foldl_nil, notified_nil rfl]
    exact Edits.nil _
  | cons i l ih =>
    intro s hc hsound
    obtain ⟨hnot, hc₁⟩ := Ev.dispatchOnce_counted hc i (outcomes i)
    have hone := @dispatchOnce_edits s hc i (outcomes i)
    rw [List.foldl_cons, Ev.dispatchGroup] at hsound ⊢
    dsimp only at hsound ⊢
    rw [List.nil_append, dispatchFold_append] at hsound ⊢
    dsimp only at hsound ⊢
    rw [dispatchLinks]
    generalize (s.ev.dispatchOnce i (outcomes i)).2 = w₁ at hone hnot hsound ⊢
    generalize (s.ev.dispatchOnce i (outcomes i)).1 = ev₁ at hone hnot hc₁ hsound ⊢
    -- The later groups leave the pollqs to their threads.
    obtain ⟨w₂, hw₂, hlater, -⟩ := Ev.dispatchFold_counted outcomes l hc₁ []
    have htwo := @notified_notified s ev₁ _ w₁ w₂ hlater.same.thread
    rw [List.nil_append] at hw₂
    have hrest := @ih (s.notified ev₁ w₁) hc₁
    have hev : (s.notified ev₁ w₁).ev = ev₁ := rfl
    rw [hev, hw₂, htwo] at hrest
    rw [hw₂] at hsound ⊢
    have hfirst : (s.notified ev₁ w₁).Sound := by
      refine hsound.of_prefix (l := w₂.map fun q => (ev₁.pollq q).thread) ?_ rfl
      rw [← htwo]
      unfold notified
      simp only [hlater.same.thread]
    exact (hone hfirst).append (hrest hsound)

/-- `_ST_VP_IDLE`. -/
theorem vpIdle_edits {s s' : St} (hc : s.Core []) {outcomes : ℕ → SelectOutcome}
    (h : s.vpIdle outcomes = some s') (hsound : s'.Sound) :
    Edits s.queue (dispatchLinks outcomes s.ev (List.range s.ev.num)) s'.queue := by
  have hdisp := @dispatchLinks_edits outcomes (List.range s.ev.num) s hc.ev
  have hvp : (s.ev.dispatch outcomes).2.foldlM (fun (s : St) pq => s.wake (s.ev.pollq pq).thread)
      (s.setEv (s.ev.dispatch outcomes).1) = some s' := h
  have hrange : (List.range s.ev.num).foldl (Ev.dispatchGroup outcomes) (s.ev, []) =
      s.ev.dispatch outcomes := rfl
  rw [hrange] at hdisp
  -- The threads that are woken are those of the pollqs that were taken off.
  obtain ⟨s₁, hs₁, -, ha⟩ := @wakeAll_awakened (s.ev.dispatch outcomes).2
    (s.setEv (s.ev.dispatch outcomes).1) hc.sleep
  have heq : s₁ = s' := Option.some_inj.mp (hs₁.symm.trans hvp)
  rw [heq] at ha
  generalize (s.ev.dispatch outcomes).1 = ev at hdisp ha
  generalize (s.ev.dispatch outcomes).2 = w at hdisp ha
  have hrun : s'.run_q = (s.notified ev w).run_q := ha.run_q
  have hzombie : s'.zombie_q = (s.notified ev w).zombie_q := by
    rw [ha.rest]
    rfl
  have hqueue : s'.queue = (s.notified ev w).queue := by
    refine queue_congr hrun ?_ hzombie ?_ ?_ (fun m => ?_) ?_ <;> rw [ha.rest] <;> rfl
  rw [hqueue]
  refine hdisp (hsound.of_prefix (l := []) ?_ hzombie)
  rw [List.append_nil, hrun]

end StWin.St
