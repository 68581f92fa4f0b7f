import StWin.Sched.Model
import StWin.Heap.Spec
import StWin.Event.Interest

/-!
# Coherence of threads, queues, and program counters

For each record, `Rec` relates the thread's state and flags, the place where its fiber continues,
and the queues that hold it. A thread that was made runnable while it waited is still linked on the
queue that it waited on, until its own fiber runs and unlinks it, so the wait queues follow the
program counters and only the run queue and the timeout heap follow the states. `Core` is `Rec` of
all records, with the representation invariants of the heap and of the event system.

A pollq that a dispatch pass has taken off the I/O queue wakes its thread only afterwards. `Core p`
allows for that: the threads of the pollqs `p` are still in `IO_WAIT`.

The operations of the scheduler change one thread at a time. `Frame s s' t` says that from `s` to
`s'` nothing changed for the threads other than `t`, and `Core.move` is the rule for such a move:
what remains to show is `Rec` of `t` itself.
-/

namespace StWin

/-- The fiber waits on the condition variable `c`. -/
def Pc.waitsOn (c : Cond) : Pc → Prop
  | .condWait _ c' => c' = c
  | .join _ c' _ => c' = c
  | _ => False

/-- The fiber waits for the mutex `m`. -/
def Pc.waitsFor (m : ℕ) : Pc → Prop
  | .lock _ m' => m' = m
  | _ => False

namespace St

/-- The event system that was written. -/
@[simp] theorem setEv_ev (s : St) (ev : Ev) : (s.setEv ev).ev = ev := rfl

/-- The thread with the record `t` was created and has not terminated. The idle thread is not one
of these. -/
def Live (s : St) (t : ℕ) : Prop :=
  (s.thread t).id ∈ s.threads ∧ (s.life (s.thread t).id).exits = 0 ∧
    (s.fiber (s.thread t).id).thd = t

/-- Where the fiber of the thread with the record `t` continues. -/
def pcOf (s : St) (t : ℕ) : Pc := (s.fiber (s.thread t).id).pc

/-- What the place where a live thread continues says about it. -/
def PcFits (s : St) (t : ℕ) : Pc → Prop
  | .user _ => True
  | .poll me q => me = t ∧ (s.ev.pollq q).thread = t ∧ q < s.ev.next ∧
      ((s.ev.pollq q).on_ioq = true → q ∈ s.ev.io_q)
  | .condWait me _ => me = t
  | .join me c u => me = t ∧ s.Live u ∧ (s.thread u).term = some c
  | .lock me _ => me = t
  | _ => False

/-- What the state of a live thread says about it. -/
def StateFits (p : List ℕ) (s : St) (t : ℕ) : TState → Prop
  | .RUNNING => s.running = (s.thread t).id ∧ s.this_thread = some t
  | .RUNNABLE => True
  | .IO_WAIT => (s.thread t).flags.on_sleepq = true ∧
      ∃ q, s.pcOf t = .poll t q ∧ ((s.ev.pollq q).on_ioq = true ∨ q ∈ p)
  | .COND_WAIT => ∃ c, (s.pcOf t).waitsOn c
  | .LOCK_WAIT => ∃ m, (s.pcOf t).waitsFor m
  | .SLEEPING => (s.thread t).flags.on_sleepq = true ∧ ∃ r, s.pcOf t = .user r
  | .SUSPENDED => ∃ r, s.pcOf t = .user r
  | .ZOMBIE => False

/-- The record `t` is coherent. -/
structure Rec (p : List ℕ) (s : St) (t : ℕ) : Prop where
  run_q : t ∈ s.run_q ↔ s.Live t ∧ (s.thread t).state = .RUNNABLE
  cond_q : ∀ c, t ∈ s.cond_q c ↔ s.Live t ∧ (s.pcOf t).waitsOn c
  wait_q : ∀ m, t ∈ (s.mutex m).wait_q ↔ s.Live t ∧ (s.pcOf t).waitsFor m
  io_q : ∀ q ∈ s.ev.io_q, (s.ev.pollq q).thread = t → s.Live t ∧ s.pcOf t = .poll t q
  sleep_q : (s.thread t).flags.on_sleepq = true → s.Live t ∧
    ((s.thread t).state = .SLEEPING ∨ (s.thread t).state = .IO_WAIT ∨
      (s.thread t).state = .COND_WAIT)
  context : s.Live t → (s.thread t).context = some (s.thread t).id
  pc : s.Live t → s.PcFits t (s.pcOf t)
  state : s.Live t → s.StateFits p t (s.thread t).state

/-- The timeout heap holds the threads with the flag `ON_SLEEPQ`. -/
def SleepOk (s : St) : Prop :=
  ∃ S, Heap.Wf s.heap S ∧ ∀ t, t ∈ S ↔ (s.thread t).flags.on_sleepq = true

/-- The records, the queues, the heap, and the event system are coherent, with the threads of the
pollqs `p` yet to be woken. -/
structure Core (p : List ℕ) (s : St) : Prop where
  recs : ∀ t, s.Rec p t
  run_nodup : s.run_q.Nodup
  cond_nodup : ∀ c, (s.cond_q c).Nodup
  wait_nodup : ∀ m, (s.mutex m).wait_q.Nodup
  sleep : s.SleepOk
  ev : Ev.Counted s.ev

/-- From `s` to `s'` nothing changed for the threads other than `t`. -/
structure Frame (s s' : St) (t : ℕ) : Prop where
  thread : ∀ u, u ≠ t → s'.thread u = s.thread u
  live : ∀ u, u ≠ t → (s'.Live u ↔ s.Live u)
  /-- If somebody joins `t`, it can still be joined. -/
  join : ∀ c u, u ≠ t → u ∈ s.cond_q c → s.Live t → (s.thread t).term = some c →
    s'.Live t ∧ (s'.thread t).term = some c
  pc : ∀ u, u ≠ t → s.Live u → s'.pcOf u = s.pcOf u
  run_q : ∀ u, u ≠ t → (u ∈ s'.run_q ↔ u ∈ s.run_q)
  cond_q : ∀ c u, u ≠ t → (u ∈ s'.cond_q c ↔ u ∈ s.cond_q c)
  wait_q : ∀ m u, u ≠ t → (u ∈ (s'.mutex m).wait_q ↔ u ∈ (s.mutex m).wait_q)
  io_q : ∀ q, (s'.ev.pollq q).thread ≠ t → q ∈ s'.ev.io_q →
    q ∈ s.ev.io_q ∧ (s.ev.pollq q).thread = (s'.ev.pollq q).thread
  pollq : ∀ q, (s.ev.pollq q).thread ≠ t → q < s.ev.next →
    (s'.ev.pollq q).thread = (s.ev.pollq q).thread ∧
      (s'.ev.pollq q).on_ioq = (s.ev.pollq q).on_ioq ∧ (q ∈ s.ev.io_q → q ∈ s'.ev.io_q)
  next : s.ev.next ≤ s'.ev.next
  turn : ∀ u, u ≠ t → s.Live u → s.running = (s.thread u).id → s.this_thread = some u →
    (s.thread u).state = .RUNNING → s'.running = (s.thread u).id ∧ s'.this_thread = some u

/-- Two steps that leave the other threads' places as they are. -/
theorem Frame.trans {s s' s'' : St} {t : ℕ} (h : Frame s s' t) (h' : Frame s' s'' t) :
    Frame s s'' t where
  thread u hu := (h'.thread u hu).trans (h.thread u hu)
  live u hu := (h'.live u hu).trans (h.live u hu)
  join c u hu hq hl ht := by
    obtain ⟨hl', ht'⟩ := h.join c u hu hq hl ht
    exact h'.join c u hu ((h.cond_q c u hu).mpr hq) hl' ht'
  pc u hu hl := (h'.pc u hu ((h.live u hu).mpr hl)).trans (h.pc u hu hl)
  run_q u hu := (h'.run_q u hu).trans (h.run_q u hu)
  cond_q c u hu := (h'.cond_q c u hu).trans (h.cond_q c u hu)
  wait_q m u hu := (h'.wait_q m u hu).trans (h.wait_q m u hu)
  io_q q hne hq := by
    obtain ⟨hq', heq'⟩ := h'.io_q q hne hq
    obtain ⟨hq'', heq''⟩ := h.io_q q (by rw [heq']; exact hne) hq'
    exact ⟨hq'', heq''.trans heq'⟩
  pollq q hne hlt := by
    obtain ⟨ht, hon, hin⟩ := h.pollq q hne hlt
    obtain ⟨ht', hon', hin'⟩ := h'.pollq q (by rw [ht]; exact hne) (hlt.trans_le h.next)
    exact ⟨ht'.trans ht, hon'.trans hon, fun hq => hin' (hin hq)⟩
  next := h.next.trans h'.next
  turn u hu hl hr ht hst := by
    have hth := h.thread u hu
    obtain ⟨hr', ht'⟩ := h.turn u hu hl hr ht hst
    have := h'.turn u hu ((h.live u hu).mpr hl) (by rw [hth]; exact hr') ht' (by rw [hth]; exact hst)
    rw [hth] at this
    exact this

/-- The place of another thread still fits. -/
theorem Rec.pcFits_of_frame {p : List ℕ} {s s' : St} {t u : ℕ} (h : s.Rec p u) (fr : Frame s s' t)
    (hu : u ≠ t) (hl : s.Live u) : s'.PcFits u (s.pcOf u) := by
  have hfits := h.pc hl
  cases hpc : s.pcOf u with
  | poll me q =>
    rw [hpc] at hfits
    obtain ⟨rfl, howner, hlt, hio⟩ := hfits
    obtain ⟨hth', hon', hin'⟩ := fr.pollq q (by rw [howner]; exact hu) hlt
    refine ⟨rfl, hth'.trans howner, hlt.trans_le fr.next, fun hon => ?_⟩
    rw [hon'] at hon
    exact hin' (hio hon)
  | join me c v =>
    rw [hpc] at hfits
    obtain ⟨hme, hv, hterm⟩ := hfits
    refine ⟨hme, ?_⟩
    by_cases hvt : v = t
    · -- It joins `t` itself.
      subst hvt
      refine fr.join c u hu ?_ hv hterm
      rw [h.cond_q c, hpc]
      exact ⟨hl, rfl⟩
    · rw [fr.live v hvt, fr.thread v hvt]
      exact ⟨hv, hterm⟩
  | _ =>
    rw [hpc] at hfits
    exact hfits

/-- The state of another thread still fits. -/
theorem Rec.stateFits_of_frame {p p' : List ℕ} {s s' : St} {t u : ℕ} (h : s.Rec p u) (fr : Frame s s' t)
    (hu : u ≠ t) (hp : ∀ q ∈ p, (s.ev.pollq q).thread ≠ t → q ∈ p') (hl : s.Live u) :
    s'.StateFits p' u (s.thread u).state := by
  have hth := fr.thread u hu
  have hfits := h.state hl
  have hpc := fr.pc u hu hl
  cases hst : (s.thread u).state with
  | RUNNING =>
    rw [hst] at hfits
    have hturn := fr.turn u hu hl hfits.1 hfits.2 hst
    rw [StateFits, hth]
    exact hturn
  | IO_WAIT =>
    rw [hst] at hfits
    obtain ⟨hon, q, hq, hio⟩ := hfits
    -- The pollq of a thread that polls is not one of the pollqs of `t`.
    have hplace := h.pc hl
    rw [hq] at hplace
    obtain ⟨-, howner, hlt, -⟩ := hplace
    have hne : (s.ev.pollq q).thread ≠ t := by
      rw [howner]
      exact hu
    obtain ⟨-, hon', -⟩ := fr.pollq q hne hlt
    rw [StateFits, hth, hpc]
    exact ⟨hon, q, hq, hio.imp (fun h => hon'.trans h) (fun h => hp q h hne)⟩
  | RUNNABLE => trivial
  | ZOMBIE =>
    rw [hst] at hfits
    exact hfits
  | _ =>
    rw [hst] at hfits
    simp only [StateFits, hpc, hth] at hfits ⊢
    exact hfits

/-- The other records stay coherent. -/
theorem Rec.of_frame {p p' : List ℕ} {s s' : St} {t u : ℕ} (h : s.Rec p u) (fr : Frame s s' t)
    (hu : u ≠ t) (hp : ∀ q ∈ p, (s.ev.pollq q).thread ≠ t → q ∈ p') : s'.Rec p' u := by
  have hth := fr.thread u hu
  have hlive := fr.live u hu
  constructor
  · rw [fr.run_q u hu, hlive, hth]
    exact h.run_q
  · intro c
    rw [fr.cond_q c u hu, hlive, h.cond_q c]
    exact and_congr_right fun hl => by rw [fr.pc u hu hl]
  · intro m
    rw [fr.wait_q m u hu, hlive, h.wait_q m]
    exact and_congr_right fun hl => by rw [fr.pc u hu hl]
  · intro q hq howner
    obtain ⟨hq', heq⟩ := fr.io_q q (by rw [howner]; exact hu) hq
    obtain ⟨hl, hpc⟩ := h.io_q q hq' (heq.trans howner)
    exact ⟨hlive.mpr hl, (fr.pc u hu hl).trans hpc⟩
  · intro hon
    rw [hth] at hon ⊢
    obtain ⟨hl, hst⟩ := h.sleep_q hon
    exact ⟨hlive.mpr hl, hst⟩
  · intro hl
    rw [hth]
    exact h.context (hlive.mp hl)
  · intro hl
    rw [fr.pc u hu (hlive.mp hl)]
    exact h.pcFits_of_frame fr hu (hlive.mp hl)
  · intro hl
    rw [hth]
    exact h.stateFits_of_frame fr hu hp (hlive.mp hl)

/-- The rule for a move of one thread. -/
theorem Core.move {p p' : List ℕ} {s s' : St} {t : ℕ} (h : s.Core p) (fr : Frame s s' t)
    (hrec : s'.Rec p' t) (hp : ∀ q ∈ p, (s.ev.pollq q).thread ≠ t → q ∈ p')
    (hrun : s'.run_q.Nodup) (hcond : ∀ c, (s'.cond_q c).Nodup)
    (hwait : ∀ m, (s'.mutex m).wait_q.Nodup) (hsleep : s'.SleepOk) (hev : Ev.Counted s'.ev) :
    s'.Core p' := by
  refine ⟨fun u => ?_, hrun, hcond, hwait, hsleep, hev⟩
  by_cases hu : u = t
  · subst hu
    exact hrec
  · exact (h.recs u).of_frame fr hu hp

/-- Coherence reads only these parts of the state. -/
theorem Core.congr {p : List ℕ} {s s' : St} (h : s.Core p) (h1 : s'.thread = s.thread)
    (h2 : s'.fiber = s.fiber) (h3 : s'.run_q = s.run_q) (h4 : s'.cond_q = s.cond_q)
    (h5 : ∀ m, (s'.mutex m).wait_q = (s.mutex m).wait_q) (h6 : s'.ev = s.ev)
    (h7 : s'.running = s.running) (h8 : s'.this_thread = s.this_thread)
    (h9 : s'.threads = s.threads) (h10 : s'.life = s.life) (h11 : s'.heap = s.heap) : s'.Core p := by
  -- What the clauses read, through the definitions between.
  have hlive : ∀ t, s'.Live t ↔ s.Live t := by
    intro t
    unfold Live
    rw [h1, h2, h9, h10]
  have hpc : ∀ t, s'.pcOf t = s.pcOf t := by
    intro t
    unfold pcOf
    rw [h1, h2]
  have hpcFits : ∀ t pc, s'.PcFits t pc ↔ s.PcFits t pc := by
    intro t pc
    cases pc <;> simp only [PcFits, h1, h6, hlive]
  have hstate : ∀ t st, s'.StateFits p t st ↔ s.StateFits p t st := by
    intro t st
    cases st <;> simp only [StateFits, h1, h6, h7, h8, hpc]
  -- Clause by clause.
  refine ⟨fun t => ?_, by rw [h3]; exact h.run_nodup, by rw [h4]; exact h.cond_nodup,
    fun m => by rw [h5]; exact h.wait_nodup m, ?_, by rw [h6]; exact h.ev⟩
  · have hrec := h.recs t
    constructor
    · rw [h3, hlive, h1]
      exact hrec.run_q
    · intro c
      rw [h4, hlive, hpc]
      exact hrec.cond_q c
    · intro m
      rw [h5, hlive, hpc]
      exact hrec.wait_q m
    · intro q hq howner
      rw [h6] at hq howner
      rw [hlive, hpc]
      exact hrec.io_q q hq howner
    · rw [h1, hlive]
      exact hrec.sleep_q
    · rw [h1, hlive]
      exact hrec.context
    · rw [hlive, hpc, hpcFits]
      exact hrec.pc
    · rw [hlive, h1, hstate]
      exact hrec.state
  · obtain ⟨S, hw, hS⟩ := h.sleep
    exact ⟨S, by rw [h11]; exact hw, by rw [h1]; exact hS⟩

/-! ## Frames of single assignments -/

/-- A live thread is the one that its fiber works for. -/
theorem Live.inj {s : St} {t u : ℕ} (ht : s.Live t) (hu : s.Live u)
    (h : (s.thread u).id = (s.thread t).id) : u = t := by
  rw [← hu.2.2, h, ht.2.2]

/-- A write to a thread's own record. -/
theorem setThread_frame (s : St) (t : ℕ) {f : Thread → Thread}
    (hid : (f (s.thread t)).id = (s.thread t).id) (hterm : (f (s.thread t)).term = (s.thread t).term) :
    Frame s (s.setThread t f) t := by
  have hth : ∀ u, u ≠ t → (s.setThread t f).thread u = s.thread u := fun u hu =>
    Function.update_of_ne hu _ _
  have hlive : ∀ u, u ≠ t → ((s.setThread t f).Live u ↔ s.Live u) := by
    intro u hu
    unfold Live
    rw [hth u hu]
    exact Iff.rfl
  have hself : (s.setThread t f).thread t = f (s.thread t) := Function.update_self _ _ _
  refine ⟨hth, hlive, fun c _ _ _ hl ht => ⟨?_, ?_⟩, fun u hu _ => ?_, fun _ _ => Iff.rfl,
    fun _ _ _ => Iff.rfl, fun _ _ _ => Iff.rfl, fun _ _ h => ⟨h, rfl⟩, fun _ _ _ => ⟨rfl, rfl, id⟩,
    le_rfl, fun _ _ _ h h' _ => ⟨h, h'⟩⟩
  · unfold Live
    rw [hself, hid]
    exact hl
  · rw [hself, hterm]
    exact ht
  · unfold pcOf
    rw [hth u hu]
    rfl

/-- A write to the timeout heap. -/
theorem setHeap_frame (s : St) (heap : Heap) (t : ℕ) : Frame s { s with heap := heap } t :=
  ⟨fun _ _ => rfl, fun _ _ => Iff.rfl, fun _ _ _ _ hl ht => ⟨hl, ht⟩, fun _ _ _ => rfl,
    fun _ _ => Iff.rfl, fun _ _ _ => Iff.rfl, fun _ _ _ => Iff.rfl, fun _ _ h => ⟨h, rfl⟩,
    fun _ _ _ => ⟨rfl, rfl, id⟩, le_rfl, fun _ _ _ h h' _ => ⟨h, h'⟩⟩

/-- A thread is put on the run queue. -/
theorem addRunq_frame (s : St) (t : ℕ) : Frame s (s.addRunq t) t := by
  refine ⟨fun _ _ => rfl, fun _ _ => Iff.rfl, fun _ _ _ _ hl ht => ⟨hl, ht⟩,
    fun _ _ _ => rfl, fun u hu => ?_,
    fun _ _ _ => Iff.rfl, fun _ _ _ => Iff.rfl, fun _ _ h => ⟨h, rfl⟩, fun _ _ _ => ⟨rfl, rfl, id⟩,
    le_rfl, fun _ _ _ h h' _ => ⟨h, h'⟩⟩
  simp [addRunq, hu]

end St

end StWin
