import StWin.Lib.Runs
import Mathlib.Data.Int.Notation
import Mathlib.Data.List.Nodup
import Mathlib.Data.List.Perm.Basic
import Mathlib.Data.List.Range
import Mathlib.Data.Nat.Notation
import Mathlib.Logic.Function.Basic

/-!
# The watchdog

`start_processes` of `src/examples/server.c` forks the virtual processors, and its process becomes the
watchdog: it waits for one of them to terminate, forks another one in its place, and
forwards the signals that it catches to all of them. The array `vp_pids` is what it knows about them.

The model is the process with its children. A step is a call of `fork` or `wait`, or a signal that is
caught between two calls; the handler is one step. `wait` returns any of the children that were not waited
for yet, and `fork` a number that none of them has.

The array stands for the children all the time (`Table`), but for the child that has terminated, until
the next one is forked. So the search for its index always succeeds, and the indices of the children are
those from `0` to `vp_count - 1`, each of them once, without those for which `fork` has failed
(`run_watchdog`). These are not forked again.
-/

namespace StWin.Server

/-- The signals for which handlers are installed. -/
inductive Sig where
  | SIGTERM | SIGHUP | SIGUSR1
  deriving DecidableEq, Repr

/-- A child that was not waited for yet: its number, and the index with which it returned to `main`. -/
structure Child where
  pid : ℕ
  my_index : ℕ
  deriving DecidableEq, Repr

/-- Where the process is. -/
inductive WPos where
  /-- In the first loop of `start_processes`, about to fork the process `i`. -/
  | fork (i : ℕ)
  /-- In `wait`. -/
  | wait
  /-- `wait` has returned `pid`, and the signals are not blocked yet. -/
  | reaped (pid : ℕ)
  /-- The signals are blocked, and the process `i` is forked. -/
  | blocked (i : ℕ)
  /-- It has terminated. -/
  | exited
  /-- It writes behind the end of `vp_pids`. -/
  | fault
  deriving DecidableEq, Repr

/-- The process, and its children. -/
structure Watchdog where
  pos : WPos
  vp_count : ℕ
  vp_pids : ℕ → ℤ
  /-- The number of elements of `vp_pids`. -/
  size : ℕ
  children : List Child
  /-- The signals that were raised while they are blocked. -/
  pending : List Sig
  /-- The indices for which the watchdog could not fork. No step reads it. -/
  failed : List ℕ

/-- What happens next. -/
inductive WLabel where
  /-- `fork` returns the number of the child, or `-1`. -/
  | fork (pid : Option ℕ)
  /-- `wait` returns a child. -/
  | wait (c : Child)
  /-- `wait` fails, as there are no children. -/
  | noChild
  /-- The search for the index, and the first `sigprocmask`. -/
  | block
  /-- A signal. `opened` is for the error log. -/
  | signal (signo : Sig) (opened : Bool)
  deriving DecidableEq, Repr

namespace Watchdog

/-- The head of the first loop. -/
def forkNext (s : Watchdog) (i : ℕ) : Watchdog :=
  { s with pos := if i < s.vp_count then .fork i else .wait }

/-- `start_processes` begins. -/
def begin (vp_count : ℕ) : Watchdog :=
  { pos := .wait, vp_count, vp_pids := fun _ => 0, size := vp_count, children := [], pending := [],
    failed := [] : Watchdog }.forkNext 0

/-- `vp_pids[i] = pid`. -/
def store (s : Watchdog) (i : ℕ) (pid : ℤ) : Watchdog :=
  if i < s.size then { s with vp_pids := Function.update s.vp_pids i pid } else { s with pos := .fault }

/-- The first loop of the watchdog: the index of a child. -/
def index (s : Watchdog) (pid : ℤ) : ℕ :=
  (List.range s.vp_count).findIdx fun i => decide (s.vp_pids i = pid)

/-- The processes to which `wdog_sighandler` forwards a signal. -/
def kills (s : Watchdog) : List ℤ :=
  ((List.range s.vp_count).map s.vp_pids).filter fun pid => decide (0 < pid)

/-- `wdog_sighandler`, but for `kill`. -/
def handle (s : Watchdog) (signo : Sig) (opened : Bool) : Watchdog :=
  match signo with
  | .SIGHUP => if opened then s else { s with pos := .exited }
  | .SIGTERM => { s with pos := .exited }
  | .SIGUSR1 => s

/-- A new child. -/
def addChild (s : Watchdog) (pid i : ℕ) : Watchdog := { s with children := ⟨pid, i⟩ :: s.children }

/-- The number of a new child is not that of another one. -/
def Fresh (s : Watchdog) (pid : ℕ) : Prop := 0 < pid ∧ ∀ c ∈ s.children, c.pid ≠ pid

instance (s : Watchdog) (pid : ℕ) : Decidable (s.Fresh pid) := inferInstanceAs (Decidable (_ ∧ _))

/-- One step. -/
def step (s : Watchdog) (l : WLabel) : Option Watchdog :=
  match s.pos, l with
  | .fork i, .fork none =>
    if i = 0 then some { s with pos := .exited } else some { s with vp_count := i, pos := .wait }
  | .fork i, .fork (some pid) =>
    if s.Fresh pid then some (((s.addChild pid i).forkNext (i + 1)).store i pid) else none
  -- The handlers are not installed yet.
  | .fork _, .signal _ _ => some { s with pos := .exited }
  | .wait, .wait c =>
    if c ∈ s.children ∧ s.pending = [] then
      some { s with pos := .reaped c.pid, children := s.children.erase c }
    else none
  | .wait, .noChild => if s.children = [] then some { s with pos := .exited } else none
  -- First those that are pending.
  | .wait, .signal signo opened =>
    if s.pending = [] ∨ signo ∈ s.pending then
      some ({ s with pending := s.pending.erase signo : Watchdog }.handle signo opened)
    else none
  | .reaped _, .signal signo opened => some (s.handle signo opened)
  | .reaped pid, .block => some { s with pos := .blocked (s.index pid) }
  | .blocked _, .signal signo _ => some { s with pending := s.pending.insert signo }
  | .blocked i, .fork none => some ({ s with pos := .wait, failed := i :: s.failed : Watchdog }.store i (-1))
  | .blocked i, .fork (some pid) =>
    if s.Fresh pid then some ({ s.addChild pid i with pos := .wait }.store i pid) else none
  | _, _ => none

/-! ## The array and the children -/

/-- The elements below `n` stand for the children `cs`. -/
structure Table (s : Watchdog) (n : ℕ) (cs : List Child) : Prop where
  le : n ≤ s.size
  pid : ∀ c ∈ cs, s.vp_pids c.my_index = c.pid
  pos : ∀ c ∈ cs, 0 < c.pid
  nodup : (cs.map Child.pid).Nodup
  indices : (cs.map Child.my_index ++ s.failed).Perm (List.range n)
  failed : ∀ i ∈ s.failed, s.vp_pids i = -1

variable {s s' : Watchdog} {n : ℕ} {cs cs' : List Child} {c : Child} {pid i : ℕ}

/-- A child has an index of the array. -/
theorem Table.lt (h : s.Table n cs) (hc : c ∈ cs) : c.my_index < n := by
  have hmem : c.my_index ∈ List.range n :=
    h.indices.subset (List.mem_append_left _ (List.mem_map_of_mem hc))
  exact List.mem_range.mp hmem

/-- No two processes, started or failed, share an index. -/
theorem Table.nodup_indices (h : s.Table n cs) : (cs.map Child.my_index ++ s.failed).Nodup :=
  h.indices.nodup_iff.mpr List.nodup_range

/-- The order of the children does not matter. -/
theorem Table.perm (h : s.Table n cs) (hperm : cs.Perm cs') : s.Table n cs' where
  le := h.le
  pid c hc := h.pid c (hperm.mem_iff.mpr hc)
  pos c hc := h.pos c (hperm.mem_iff.mpr hc)
  nodup := (hperm.map Child.pid).nodup_iff.mp h.nodup
  indices := ((hperm.map Child.my_index).append_right s.failed).symm.trans h.indices
  failed := h.failed

/-- The search finds the child that has terminated. -/
theorem Table.index_eq (h : s.Table s.vp_count cs) (hc : c ∈ cs) : s.index c.pid = c.my_index := by
  have hlt := h.lt hc
  unfold index
  rw [List.findIdx_eq (by simpa using hlt)]
  constructor
  · simpa using h.pid c hc
  · intro j hj
    simp only [List.getElem_range, decide_eq_false_iff_not]
    intro heq
    -- An element before it is that of another child, or there is none.
    have hmem : j ∈ cs.map Child.my_index ++ s.failed :=
      h.indices.mem_iff.mpr (List.mem_range.mpr (hj.trans hlt))
    rcases List.mem_append.mp hmem with hmem | hmem
    · obtain ⟨c', hc', rfl⟩ := List.mem_map.mp hmem
      rw [h.pid c' hc'] at heq
      have hsame := List.inj_on_of_nodup_map h.nodup hc' hc (Int.ofNat_inj.mp heq)
      rw [hsame] at hj
      exact lt_irrefl _ hj
    · rw [h.failed j hmem] at heq
      omega

/-- The signals go to all children. -/
theorem Table.kills_perm (h : s.Table s.vp_count cs) :
    s.kills.Perm (cs.map fun c => (c.pid : ℤ)) := by
  have hperm := (h.indices.map s.vp_pids).filter fun pid => decide (0 < pid)
  refine hperm.symm.trans (List.Perm.of_eq ?_)
  have hfailed : ∀ i ∈ s.failed, s.vp_pids i = -1 := h.failed
  have hmap : cs.map (s.vp_pids ∘ Child.my_index) = cs.map fun c => (c.pid : ℤ) :=
    List.map_congr_left h.pid
  rw [List.map_append, List.filter_append, List.map_map, hmap, List.filter_eq_self.mpr, List.filter_eq_nil_iff.mpr,
    List.append_nil]
  · intro pid hpid
    obtain ⟨i, hi, rfl⟩ := List.mem_map.mp hpid
    rw [hfailed i hi]
    decide
  · intro pid hpid
    obtain ⟨c, hc, rfl⟩ := List.mem_map.mp hpid
    have hpos := h.pos c hc
    simpa using hpos

/-- A store into the array at an index of it. -/
theorem store_eq (h : i < s.size) (pid : ℤ) :
    s.store i pid = { s with vp_pids := Function.update s.vp_pids i pid } := if_pos h

/-- The elements of the other children stay. -/
theorem Table.others (h : s.Table n (c :: cs)) {pid : ℤ}
    (hpids : s'.vp_pids = Function.update s.vp_pids c.my_index pid) :
    (∀ c' ∈ cs, s'.vp_pids c'.my_index = c'.pid) ∧ ∀ i ∈ s.failed, s'.vp_pids i = -1 := by
  have hnodup := List.nodup_cons.mp h.nodup_indices
  constructor
  · intro c' hc'
    have hne : c'.my_index ≠ c.my_index := by
      intro heq
      exact hnodup.1 (List.mem_append_left _ (heq ▸ List.mem_map_of_mem hc'))
    rw [hpids, Function.update_of_ne hne]
    exact h.pid c' (List.mem_cons_of_mem c hc')
  · intro i hi
    have hne : i ≠ c.my_index := by
      intro heq
      exact hnodup.1 (List.mem_append_right _ (heq ▸ hi))
    rw [hpids, Function.update_of_ne hne]
    exact h.failed i hi

/-- A child is replaced. -/
theorem Table.replace (h : s.Table n (c :: cs)) (hpid : 0 < pid) (hfresh : ∀ c' ∈ cs, c'.pid ≠ pid)
    (hpids : s'.vp_pids = Function.update s.vp_pids c.my_index pid) (hsize : s'.size = s.size)
    (hfailed : s'.failed = s.failed) : s'.Table n (⟨pid, c.my_index⟩ :: cs) := by
  obtain ⟨hothers, hnone⟩ := h.others hpids
  refine ⟨hsize ▸ h.le, ?_, ?_, ?_, ?_, hfailed ▸ hnone⟩
  · refine List.forall_mem_cons.mpr ⟨?_, hothers⟩
    rw [hpids, Function.update_self]
  · exact List.forall_mem_cons.mpr ⟨hpid, fun c' hc' => h.pos c' (List.mem_cons_of_mem c hc')⟩
  · refine List.nodup_cons.mpr ⟨?_, (List.nodup_cons.mp h.nodup).2⟩
    intro hmem
    obtain ⟨c', hc', heq⟩ := List.mem_map.mp hmem
    exact hfresh c' hc' heq
  · rw [hfailed]
    exact h.indices

/-- A child is not replaced. -/
theorem Table.fail (h : s.Table n (c :: cs))
    (hpids : s'.vp_pids = Function.update s.vp_pids c.my_index (-1)) (hsize : s'.size = s.size)
    (hfailed : s'.failed = c.my_index :: s.failed) : s'.Table n cs := by
  obtain ⟨hothers, hnone⟩ := h.others hpids
  refine ⟨hsize ▸ h.le, hothers, fun c' hc' => h.pos c' (List.mem_cons_of_mem c hc'),
    (List.nodup_cons.mp h.nodup).2, ?_, ?_⟩
  · rw [hfailed]
    exact List.perm_middle.trans h.indices
  · rw [hfailed]
    refine List.forall_mem_cons.mpr ⟨?_, hnone⟩
    rw [hpids, Function.update_self]

/-- A child is added. -/
theorem Table.add (h : s.Table i cs) (hlt : i < s.size) (hpid : 0 < pid)
    (hfresh : ∀ c' ∈ cs, c'.pid ≠ pid) (hpids : s'.vp_pids = Function.update s.vp_pids i pid)
    (hsize : s'.size = s.size) (hfailed : s'.failed = s.failed) :
    s'.Table (i + 1) (⟨pid, i⟩ :: cs) := by
  have hother : ∀ j ∈ cs.map Child.my_index ++ s.failed, s'.vp_pids j = s.vp_pids j := by
    intro j hj
    have hlt := List.mem_range.mp (h.indices.subset hj)
    rw [hpids, Function.update_of_ne hlt.ne]
  refine ⟨by omega, ?_, ?_, ?_, ?_, fun j hj => ?_⟩
  · refine List.forall_mem_cons.mpr ⟨?_, fun c' hc' => ?_⟩
    · rw [hpids, Function.update_self]
    · rw [hother _ (List.mem_append_left _ (List.mem_map_of_mem hc'))]
      exact h.pid c' hc'
  · exact List.forall_mem_cons.mpr ⟨hpid, h.pos⟩
  · refine List.nodup_cons.mpr ⟨?_, h.nodup⟩
    intro hmem
    obtain ⟨c', hc', heq⟩ := List.mem_map.mp hmem
    exact hfresh c' hc' heq
  · rw [hfailed, List.range_succ]
    exact (h.indices.cons i).trans (List.perm_append_singleton i _).symm
  · rw [hfailed] at hj
    rw [hother _ (List.mem_append_right _ hj)]
    exact h.failed j hj

/-! ## Steps -/

/-- The array and the children, by where the process is. -/
inductive Stage (s : Watchdog) : Prop where
  | fork (i : ℕ) (pos : s.pos = .fork i) (lt : i < s.vp_count) (le : s.vp_count ≤ s.size)
      (table : s.Table i s.children)
  | wait (pos : s.pos = .wait) (table : s.Table s.vp_count s.children)
  | reaped (c : Child) (pos : s.pos = .reaped c.pid) (table : s.Table s.vp_count (c :: s.children))
  | blocked (c : Child) (pos : s.pos = .blocked c.my_index) (table : s.Table s.vp_count (c :: s.children))
  | exited (pos : s.pos = .exited)

/-- The loop that forks goes on to its next index, or ends. -/
theorem forkNext_stage (hle : s.vp_count ≤ s.size) (hi : i ≤ s.vp_count) (h : s.Table i s.children) :
    (s.forkNext i).Stage := by
  by_cases hlt : i < s.vp_count
  · exact .fork i (if_pos hlt) hlt hle ⟨h.le, h.pid, h.pos, h.nodup, h.indices, h.failed⟩
  · obtain rfl : i = s.vp_count := by omega
    exact .wait (if_neg hlt) ⟨h.le, h.pid, h.pos, h.nodup, h.indices, h.failed⟩

/-- A signal changes only where the process is. -/
theorem handle_cases (s : Watchdog) (signo : Sig) (opened : Bool) :
    s.handle signo opened = s ∨ (s.handle signo opened).pos = .exited := by
  cases signo with
  | SIGHUP => cases opened <;> simp [handle]
  | SIGTERM => exact Or.inr rfl
  | SIGUSR1 => exact Or.inl rfl

/-- The handling of a signal leaves the array as it is, or ends the process. -/
theorem handle_stage (h : s.Stage) (signo : Sig) (opened : Bool) : (s.handle signo opened).Stage := by
  rcases s.handle_cases signo opened with heq | hexited
  · rw [heq]
    exact h
  · exact .exited hexited

/-- What the array stands for depends on the array and the failed processes only. -/
theorem Table.congr (h : s.Table n cs) (hpids : s'.vp_pids = s.vp_pids) (hsize : s'.size = s.size)
    (hfailed : s'.failed = s.failed) : s'.Table n cs :=
  ⟨hsize ▸ h.le, hpids ▸ h.pid, h.pos, h.nodup, hfailed ▸ h.indices, hpids ▸ hfailed ▸ h.failed⟩

/-- The first loop of `start_processes`. -/
theorem fork_stage {l : WLabel} (hpos : s.pos = .fork i) (hlt : i < s.vp_count)
    (hle : s.vp_count ≤ s.size) (h : s.Table i s.children) (hstep : s.step l = some s') : s'.Stage := by
  simp only [step, hpos] at hstep
  cases l with
  | fork pid =>
    cases pid with
    | none =>
      dsimp only at hstep
      split_ifs at hstep with hzero
      · cases hstep
        exact .exited rfl
      · cases hstep
        exact .wait rfl (h.congr rfl rfl rfl)
    | some pid =>
      dsimp only at hstep
      split_ifs at hstep with hfresh
      cases hstep
      rw [store_eq (show i < ((s.addChild pid i).forkNext (i + 1)).size from hlt.trans_le hle)]
      have hadd : Table { s.addChild pid i with vp_pids := Function.update s.vp_pids i pid } (i + 1)
          (⟨pid, i⟩ :: s.children) :=
        h.add (hlt.trans_le hle) hfresh.1 hfresh.2 rfl rfl rfl
      exact forkNext_stage (s := { s.addChild pid i with vp_pids := Function.update s.vp_pids i pid }) hle
        hlt hadd
  | signal signo opened =>
    cases hstep
    exact .exited rfl
  | _ => cases hstep

/-- The call of `wait`. -/
theorem wait_stage {l : WLabel} (hpos : s.pos = .wait) (h : s.Table s.vp_count s.children)
    (hstep : s.step l = some s') : s'.Stage := by
  simp only [step, hpos] at hstep
  cases l with
  | wait c =>
    dsimp only at hstep
    split_ifs at hstep with hc
    cases hstep
    have hperm := h.perm (List.perm_cons_erase hc.1)
    exact .reaped c rfl (hperm.congr rfl rfl rfl)
  | noChild =>
    dsimp only at hstep
    split_ifs at hstep
    cases hstep
    exact .exited rfl
  | signal signo opened =>
    dsimp only at hstep
    split_ifs at hstep
    cases hstep
    have hpending : Stage { s with pos := .wait, pending := s.pending.erase signo } :=
      .wait rfl (h.congr rfl rfl rfl)
    exact handle_stage hpending signo opened
  | _ => cases hstep

/-- The search for the child. -/
theorem reaped_stage {l : WLabel} (hpos : s.pos = .reaped c.pid)
    (h : s.Table s.vp_count (c :: s.children)) (hstep : s.step l = some s') : s'.Stage := by
  simp only [step, hpos] at hstep
  cases l with
  | block =>
    cases hstep
    have hindex := h.index_eq List.mem_cons_self
    exact .blocked c (congrArg WPos.blocked hindex) (h.congr rfl rfl rfl)
  | signal signo opened =>
    cases hstep
    exact handle_stage (.reaped c hpos h) signo opened
  | _ => cases hstep

/-- The call of `fork`. -/
theorem blocked_stage {l : WLabel} (hpos : s.pos = .blocked c.my_index)
    (h : s.Table s.vp_count (c :: s.children)) (hstep : s.step l = some s') : s'.Stage := by
  have hlt : c.my_index < s.size := (h.lt List.mem_cons_self).trans_le h.le
  simp only [step, hpos] at hstep
  cases l with
  | fork pid =>
    cases pid with
    | none =>
      cases hstep
      have hfail : Table { s with
          pos := .wait
          failed := c.my_index :: s.failed
          vp_pids := Function.update s.vp_pids c.my_index (-1) } s.vp_count s.children :=
        h.fail rfl rfl rfl
      rw [store_eq (by exact hlt)]
      exact .wait rfl hfail
    | some pid =>
      dsimp only at hstep
      split_ifs at hstep with hfresh
      cases hstep
      have hreplace : Table { s.addChild pid c.my_index with
          pos := .wait
          vp_pids := Function.update s.vp_pids c.my_index pid } s.vp_count
          (⟨pid, c.my_index⟩ :: s.children) :=
        h.replace hfresh.1 hfresh.2 rfl rfl rfl
      rw [store_eq (by exact hlt)]
      exact .wait rfl hreplace
  | signal signo opened =>
    cases hstep
    exact .blocked c rfl (h.congr rfl rfl rfl)
  | _ => cases hstep

/-- Each step leads from one stage to another. -/
theorem step_stage {l : WLabel} (h : s.Stage) (hstep : s.step l = some s') : s'.Stage := by
  cases h with
  | fork i pos lt le table => exact fork_stage pos lt le table hstep
  | wait pos table => exact wait_stage pos table hstep
  | reaped c pos table => exact reaped_stage pos table hstep
  | blocked c pos table => exact blocked_stage pos table hstep
  | exited pos =>
    simp only [step, pos] at hstep
    cases hstep

/-! ## Runs -/

/-- What holds of the watchdog between any two of its steps. -/
structure Spec (s : Watchdog) : Prop where
  /-- Nothing is written behind the end of the array. -/
  fault : s.pos ≠ .fault
  /-- Each element is the number of the child with its index. -/
  pids : s.pos ≠ .exited → ∀ c ∈ s.children, s.vp_pids c.my_index = c.pid
  /-- In `wait`, there is one child for each index for which `fork` has not failed. -/
  waits : s.pos = .wait →
    (s.children.map Child.my_index ++ s.failed).Perm (List.range s.vp_count)
  /-- The index that is forked next is the one that is missing. -/
  replaces : ∀ i, s.pos = .blocked i →
    (i :: s.children.map Child.my_index ++ s.failed).Perm (List.range s.vp_count)
  /-- A signal that is caught in `wait` goes to all children and to no other process. -/
  forwards : s.pos = .wait → s.kills.Perm (s.children.map fun c => (c.pid : ℤ))
  /-- A signal that is caught right after it also goes to the process that has terminated. -/
  late : ∀ pid, s.pos = .reaped pid → s.kills.Perm (pid :: s.children.map fun c => (c.pid : ℤ))

/-- What holds in each stage, in the terms of the statement. -/
theorem Stage.spec (h : s.Stage) : s.Spec := by
  cases h with
  | fork i pos lt le table =>
    exact ⟨by simp [pos], fun _ => table.pid, by simp [pos], by simp [pos], by simp [pos], by simp [pos]⟩
  | wait pos table =>
    exact ⟨by simp [pos], fun _ => table.pid, fun _ => table.indices, by simp [pos],
      fun _ => table.kills_perm, by simp [pos]⟩
  | reaped c pos table =>
    refine ⟨by simp [pos], fun _ => (List.forall_mem_cons.mp table.pid).2, by simp [pos], by simp [pos],
      by simp [pos], fun pid hpid => ?_⟩
    cases pos.symm.trans hpid
    exact table.kills_perm
  | blocked c pos table =>
    refine ⟨by simp [pos], fun _ => (List.forall_mem_cons.mp table.pid).2, by simp [pos], fun i hi => ?_,
      by simp [pos], by simp [pos]⟩
    cases pos.symm.trans hi
    exact table.indices
  | exited pos =>
    exact ⟨by simp [pos], fun hne => absurd pos hne, by simp [pos], by simp [pos], by simp [pos],
      by simp [pos]⟩

/-- The watchdog keeps its processes: whatever `fork` and `wait` return, and whenever signals are caught. But
an index for which `fork` has failed once stays without a process. -/
theorem run_watchdog (vp_count : ℕ) {ls : List WLabel}
    (hrun : Runs.run step (begin vp_count) ls = some s) : s.Spec := by
  have hstage : s.Stage := by
    refine Runs.run_invariant_of_step (I := Stage) ?_ ?_ hrun
    · intro s l s' h hstep
      exact step_stage h hstep
    · refine forkNext_stage le_rfl (Nat.zero_le _) ⟨Nat.zero_le _, ?_, ?_, List.nodup_nil, List.Perm.refl _, ?_⟩
      · exact fun c hc => (by cases hc)
      · exact fun c hc => (by cases hc)
      · exact fun i hi => (by cases hi)
  exact hstage.spec

/-- The first of three processes terminates, and is replaced after a signal; the second one terminates,
and is not replaced; and then the first one terminates again. -/
def replacesOne : List WLabel :=
  [.fork (some 5), .fork (some 6), .fork (some 7), .wait ⟨5, 0⟩, .block, .signal .SIGHUP true,
    .fork (some 8), .signal .SIGHUP true, .wait ⟨6, 1⟩, .signal .SIGUSR1 true, .block, .fork none,
    .wait ⟨8, 0⟩, .block, .fork (some 6)]

/-- The run is possible. Two processes are left, the index 1 has failed, and the signal went to the
two. -/
theorem run_watchdog_replacesOne : ∃ s, Runs.run step (begin 3) replacesOne = some s ∧
    s.children = [⟨6, 0⟩, ⟨7, 2⟩] ∧ s.failed = [1] ∧ s.kills = [6, 7] ∧ s.Spec :=
  ⟨_, (Option.some_get (by decide)).symm, by decide, by decide, by decide,
    run_watchdog 3 (Option.some_get (by decide)).symm⟩

end Watchdog

end StWin.Server
