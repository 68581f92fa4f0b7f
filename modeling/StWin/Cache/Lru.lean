import StWin.Cache.Model
import Mathlib.Data.Finset.Card
import Mathlib.Algebra.BigOperators.Group.Finset.Basic

/-!
# The LRU map

What the cache is for, without hash table and links: a set of entries, and the order in which those
that nobody holds became idle. An operation on a cache is a sequence of moves of such a map: an entry
is added, taken, put back, comes to rest, or leaves. `WF` relates the state of each entry to what has
happened to it, and each move keeps it.

In particular `ref_count` is the number of handles, an entry is found exactly if it was inserted and
has not been deleted since, and the idle entries are in the order of the times at which they became
idle.
-/

namespace StWin

/-- The entry that an event is about. -/
def CNote.of : CNote → ℕ
  | .inserted e => e
  | .found e => e
  | .released e => e
  | .idle e => e
  | .gone e _ => e
  | .freed e => e

/-- A map with an order of its idle entries. -/
structure Lru (K D : Type*) where
  entry : ℕ → CEntry K D
  created : ℕ
  log : List CNote
  table : Finset ℕ
  idle : List ℕ

namespace Lru

variable {K D : Type*}

/-- The time at which `e` became idle last. -/
def time (log : List CNote) (e : ℕ) : ℕ := (log.dropWhile fun n => n ≠ .idle e).length

/-- An event that is not of `e` becoming idle leaves the time at which it did. -/
theorem time_cons_of_ne {n : CNote} {e : ℕ} (h : n ≠ .idle e) (log : List CNote) :
    time (n :: log) e = time log e := by
  simp [time, h]

/-- An entry becomes idle now. -/
theorem time_cons_self (log : List CNote) (e : ℕ) : time (.idle e :: log) e = log.length + 1 := by
  simp [time]

/-- The time is not later than now. -/
theorem time_le (log : List CNote) (e : ℕ) : time log e ≤ log.length :=
  (List.dropWhile_suffix _).length_le

/-- The state of an entry and what has happened to it. -/
structure EntryOk (a : Lru K D) (e : ℕ) : Prop where
  live : e ∈ a.table → e < a.created ∧ (a.entry e).live = true
  idle : e ∈ a.idle ↔ e ∈ a.table ∧ (a.entry e).ref_count = 0
  pending : e ∈ a.table → (a.entry e).delete_pending = true → 0 < (a.entry e).ref_count
  /-- An entry that was not inserted yet. -/
  fresh : a.created ≤ e ∨ (a.entry e).live = true ∧ e ∉ a.table →
    (e < a.created → (a.entry e).ref_count = 0 ∧ (a.entry e).delete_pending = false) ∧
      .inserted e ∉ a.log ∧ ∀ why, .gone e why ∉ a.log
  refs : a.log.count (.released e) + (if e ∈ a.table then (a.entry e).ref_count else 0) =
    a.log.count (.inserted e) + a.log.count (.found e)
  freed : a.log.count (.freed e) = if e < a.created ∧ (a.entry e).live = false then 1 else 0
  current : e ∈ a.table ∧ (a.entry e).delete_pending = false ↔
    .inserted e ∈ a.log ∧ ∀ why, .gone e why ∉ a.log
  inserted : e ∈ a.table → .inserted e ∈ a.log

/-- No entry was freed when somebody held it. -/
def FreedIdle (log : List CNote) : Prop :=
  ∀ e before, .freed e :: before <:+ log → Cache.handles before e = 0

/-- An event is recorded, and if it is that an entry is freed, nobody holds that entry. -/
theorem FreedIdle.cons {log : List CNote} (h : FreedIdle log) {n : CNote}
    (hn : ∀ e, n = .freed e → Cache.handles log e = 0) : FreedIdle (n :: log) := by
  intro e before hsuff
  rcases List.suffix_cons_iff.mp hsuff with heq | hsuff
  · obtain ⟨rfl, rfl⟩ := List.cons.inj heq
    exact hn e rfl
  · exact h e before hsuff

/-- What holds between operations. -/
structure WF (a : Lru K D) : Prop where
  ok : ∀ e, a.EntryOk e
  nodup : a.idle.Nodup
  noted : ∀ e ∈ a.idle, .idle e ∈ a.log
  order : a.idle.Pairwise fun x y => time a.log x < time a.log y
  freedIdle : FreedIdle a.log

/-- What `EntryOk` reads, unchanged. -/
theorem EntryOk.frame {a a' : Lru K D} {e : ℕ} (h : a.EntryOk e)
    (htable : e ∈ a'.table ↔ e ∈ a.table) (hidle : e ∈ a'.idle ↔ e ∈ a.idle)
    (hentry : a'.entry e = a.entry e) (hcreated : a'.created = a.created)
    (hlog : ∀ n : CNote, n.of = e → a'.log.count n = a.log.count n) : a'.EntryOk e := by
  have hmem : ∀ n : CNote, n.of = e → (n ∈ a'.log ↔ n ∈ a.log) := by
    intro n hn
    rw [← List.count_pos_iff, hlog n hn, List.count_pos_iff]
  have hgone : (∀ why, .gone e why ∉ a'.log) ↔ ∀ why, .gone e why ∉ a.log :=
    forall_congr' fun why => not_congr (hmem _ rfl)
  refine ⟨?_, ?_, ?_, ?_, ?_, ?_, ?_, ?_⟩
  · rw [htable, hentry, hcreated]
    exact h.live
  · rw [hidle, htable, hentry]
    exact h.idle
  · rw [htable, hentry]
    exact h.pending
  · rw [htable, hentry, hcreated, hmem _ rfl, hgone]
    exact h.fresh
  · rw [hlog _ rfl, hlog _ rfl, hlog _ rfl, hentry, if_congr htable rfl rfl]
    exact h.refs
  · rw [hlog _ rfl, hentry, hcreated]
    exact h.freed
  · rw [htable, hentry, hmem _ rfl, hgone]
    exact h.current
  · rw [htable, hmem _ rfl]
    exact h.inserted

namespace WF

variable {a : Lru K D} (h : a.WF)
include h

/-- The reference count of an entry of the map is the number of its handles. -/
theorem ref_eq_handles {e : ℕ} (he : e ∈ a.table) :
    (a.entry e).ref_count = Cache.handles a.log e := by
  have hrefs := (h.ok e).refs
  rw [if_pos he] at hrefs
  rw [Cache.handles]
  omega

/-- Nobody holds an entry that is not in the map. -/
theorem handles_eq_zero {e : ℕ} (he : e ∉ a.table) : Cache.handles a.log e = 0 := by
  have hrefs := (h.ok e).refs
  rw [if_neg he] at hrefs
  rw [Cache.handles]
  omega

/-- An entry that somebody holds is in the table. -/
theorem mem_of_handles {e : ℕ} (he : 0 < Cache.handles a.log e) : e ∈ a.table := by
  by_contra hnot
  rw [h.handles_eq_zero hnot] at he
  exact absurd he (lt_irrefl 0)

/-- A client's entry is live. -/
theorem live_of_not_freed {e : ℕ} (he : e < a.created) (hfreed : .freed e ∉ a.log) :
    (a.entry e).live = true := by
  have hcount := (h.ok e).freed
  rw [List.count_eq_zero.mpr hfreed] at hcount
  by_contra hdead
  rw [if_pos ⟨he, by simpa using hdead⟩] at hcount
  exact absurd hcount (by decide)

/-- An entry is freed at most once. -/
theorem count_freed_le (e : ℕ) : a.log.count (.freed e) ≤ 1 := by
  rw [(h.ok e).freed]
  split_ifs <;> omega

end WF

/-! ## Moves -/

/-- Assign to fields of an entry. -/
@[simps] def setEntry (a : Lru K D) (e : ℕ) (f : CEntry K D → CEntry K D) : Lru K D :=
  { a with entry := Function.update a.entry e (f (a.entry e)) }

/-- Two assignments to one entry. -/
theorem setEntry_setEntry (a : Lru K D) (e : ℕ) (f g : CEntry K D → CEntry K D) :
    (a.setEntry e f).setEntry e g = a.setEntry e fun x => g (f x) := by
  simp only [setEntry, Function.update_idem, Function.update_self]

/-- A new entry. -/
@[simps] def make (a : Lru K D) (key : K) (data : D) (weight : ℕ) : Lru K D :=
  { a with
    entry := Function.update a.entry a.created ⟨key, data, weight, 0, false, true⟩
    created := a.created + 1 }

/-- An entry that is held is marked. -/
@[simps] def defer (a : Lru K D) (e : ℕ) (why : Why) : Lru K D :=
  { a.setEntry e fun x => { x with delete_pending := true } with log := .gone e why :: a.log }

/-- An entry that nobody holds is deleted. -/
@[simps] def discard (a : Lru K D) (e : ℕ) (why : Why) : Lru K D :=
  { a.setEntry e fun x => { x with delete_pending := true, live := false } with
    table := a.table.erase e
    idle := a.idle.erase e
    log := .freed e :: .gone e why :: a.log }

/-- An entry is found. -/
@[simps] def take (a : Lru K D) (e : ℕ) : Lru K D :=
  { a.setEntry e fun x => { x with ref_count := x.ref_count + 1 } with
    idle := a.idle.erase e
    log := .found e :: a.log }

/-- A handle is released, and there are others. -/
@[simps] def put (a : Lru K D) (e : ℕ) : Lru K D :=
  { a.setEntry e fun x => { x with ref_count := x.ref_count - 1 } with log := .released e :: a.log }

/-- The last handle on an entry is released. -/
@[simps] def rest (a : Lru K D) (e : ℕ) : Lru K D :=
  { a.setEntry e fun x => { x with ref_count := x.ref_count - 1 } with
    idle := a.idle ++ [e]
    log := .idle e :: .released e :: a.log }

/-- The last handle on an entry that is marked is released. -/
@[simps] def leave (a : Lru K D) (e : ℕ) : Lru K D :=
  { a.setEntry e fun x =>
      { x with ref_count := x.ref_count - 1, delete_pending := true, live := false } with
    table := a.table.erase e
    log := .freed e :: .idle e :: .released e :: a.log }

/-- An entry is inserted. -/
@[simps] def add (a : Lru K D) (e : ℕ) : Lru K D :=
  { a.setEntry e fun x => { x with ref_count := x.ref_count + 1 } with
    table := insert e a.table
    log := .inserted e :: a.log }

/-! ## Each move keeps `WF` -/

section Moves

variable {a : Lru K D} {e : ℕ} (h : a.WF)
include h

/-- The events of a move are about one entry, and say that it is idle only if it comes to rest. -/
theorem WF.of_ok {a' : Lru K D} (hok : ∀ x, a'.EntryOk x) (new : List CNote)
    (hlog : a'.log = new ++ a.log) (hfreed : FreedIdle a'.log) (hsub : a'.idle.Sublist a.idle)
    (hnew : ∀ x ∈ a'.idle, .idle x ∉ new) : a'.WF := by
  have htime : ∀ x ∈ a'.idle, time a'.log x = time a.log x := by
    intro x hx
    rw [hlog]
    clear hlog
    induction new with
    | nil => rfl
    | cons n new ih =>
      have hnot := hnew x hx
      rw [List.mem_cons, not_or] at hnot
      rw [List.cons_append, time_cons_of_ne (Ne.symm hnot.1)]
      exact ih fun y hy hmem => hnew y hy (List.mem_cons_of_mem n hmem)
  constructor
  · exact hok
  · exact h.nodup.sublist hsub
  · intro x hx
    rw [hlog]
    exact List.mem_append_right new (h.noted x (hsub.subset hx))
  · refine (h.order.sublist hsub).imp_of_mem fun {x y} hx hy hlt => ?_
    rw [htime x hx, htime y hy]
    exact hlt
  · exact hfreed

omit h in
/-- An event of another entry does not count. -/
theorem count_cons_of_ne {n m : CNote} (hne : n.of ≠ m.of) (log : List CNote) :
    (m :: log).count n = log.count n :=
  List.count_cons_of_ne fun heq => hne (by rw [heq])

/-- `stx_cache_entry_create` keeps the map in order. -/
theorem make_wf (key : K) (data : D) (weight : ℕ) : (a.make key data weight).WF := by
  refine h.of_ok (fun x => ?_) [] rfl h.freedIdle (List.Sublist.refl _) (by simp)
  have hx := h.ok x
  by_cases hxe : x = a.created
  · subst hxe
    -- Nothing has happened to the new entry.
    obtain ⟨-, hins, hgone⟩ := hx.fresh (Or.inl le_rfl)
    have hnot : a.created ∉ a.table := fun hmem => absurd (hx.live hmem).1 (lt_irrefl _)
    have hfreed := hx.freed
    have hrefs := hx.refs
    rw [if_neg (by simp)] at hfreed
    rw [if_neg hnot] at hrefs
    constructor
    · exact fun hmem => absurd hmem hnot
    · simp [make, hx.idle, hnot]
    · exact fun hmem => absurd hmem hnot
    · exact fun _ => ⟨by simp [make], hins, hgone⟩
    · simpa [make, hnot] using hrefs
    · simpa [make] using hfreed
    · simp [make, hnot, hins]
    · exact fun hmem => absurd hmem hnot
  · have hentry : (a.make key data weight).entry x = a.entry x := Function.update_of_ne hxe _ _
    have hlt : x < a.created + 1 ↔ x < a.created := by omega
    have hle : a.created + 1 ≤ x ↔ a.created ≤ x := by omega
    constructor
    · rw [hentry]
      exact fun hmem => ⟨hlt.mpr (hx.live hmem).1, (hx.live hmem).2⟩
    · rw [hentry]
      exact hx.idle
    · rw [hentry]
      exact hx.pending
    · rw [hentry]
      simp only [make, hlt, hle]
      exact hx.fresh
    · rw [hentry]
      exact hx.refs
    · rw [hentry]
      simp only [make, hlt]
      exact hx.freed
    · rw [hentry]
      exact hx.current
    · exact hx.inserted

/-- An entry that somebody holds may be marked for deletion. -/
theorem defer_wf (he : e ∈ a.table) (href : 0 < (a.entry e).ref_count) (why : Why) :
    (a.defer e why).WF := by
  refine h.of_ok (fun x => ?_) [.gone e why] rfl (h.freedIdle.cons (by simp)) (List.Sublist.refl _)
    (by simp)
  have hx := h.ok x
  by_cases hxe : x = e
  · subst hxe
    have hlive := hx.live he
    have hrefs := hx.refs
    have hfreed := hx.freed
    rw [if_pos he] at hrefs
    constructor
    · simpa [defer, setEntry] using hx.live
    · simpa [defer, setEntry] using hx.idle
    · simpa [defer, setEntry] using fun _ => href
    · rintro (hle | ⟨-, hmem⟩)
      · exact absurd hlive.1 (by simpa [defer, setEntry] using hle)
      · exact absurd he hmem
    · simpa [defer, setEntry, he] using hrefs
    · simpa [defer, setEntry] using hfreed
    · simp only [defer, setEntry, Function.update_self, List.mem_cons]
      exact ⟨fun hmem => absurd hmem.2 (by simp), fun hmem => absurd (Or.inl rfl) (hmem.2 why)⟩
    · simpa [defer, setEntry] using hx.inserted
  · refine hx.frame Iff.rfl Iff.rfl (Function.update_of_ne hxe _ _) rfl fun n hn => ?_
    exact count_cons_of_ne (by rw [hn]; exact hxe) _

/-- An entry that nobody holds may be freed. -/
theorem discard_wf (hlive : e < a.created ∧ (a.entry e).live = true)
    (href : (a.entry e).ref_count = 0) (why : Why) : (a.discard e why).WF := by
  -- Nobody holds it.
  have hhandles : Cache.handles (.gone e why :: a.log) e = 0 := by
    have hrefs := (h.ok e).refs
    simp only [href, ite_self] at hrefs
    simp only [Cache.handles, List.count_cons]
    simp
    omega
  refine h.of_ok (fun x => ?_) [.freed e, .gone e why] rfl
    ((h.freedIdle.cons (by simp)).cons (by rintro x ⟨⟩; exact hhandles)) List.erase_sublist (by simp)
  have hx := h.ok x
  by_cases hxe : x = e
  · subst hxe
    have hrefs := hx.refs
    have hfreed := hx.freed
    rw [if_neg (by simp [hlive.2])] at hfreed
    have hidle : x ∉ a.idle.erase x := h.nodup.not_mem_erase
    constructor
    · simp [discard, setEntry]
    · simpa [discard, setEntry] using hidle
    · simp [discard, setEntry]
    · rintro (hle | ⟨hdead, -⟩)
      · exact absurd hlive.1 (by simpa [discard, setEntry] using hle)
      · simp [discard, setEntry] at hdead
    · simp only [href, ite_self] at hrefs
      simpa [discard, setEntry] using hrefs
    · simpa [discard, setEntry, hlive.1] using hfreed
    · simp only [discard, setEntry, Function.update_self, List.mem_cons]
      exact ⟨fun hmem => absurd hmem.2 (by simp),
        fun hmem => absurd (Or.inr (Or.inl rfl)) (hmem.2 why)⟩
    · simp [discard, setEntry]
  · refine hx.frame ?_ ?_ (Function.update_of_ne hxe _ _) rfl fun n hn => ?_
    · simp [discard, setEntry, hxe]
    · simp [discard, setEntry, List.mem_erase_of_ne hxe]
    · have hne : n.of ≠ e := by rw [hn]; exact hxe
      exact (count_cons_of_ne hne _).trans (count_cons_of_ne hne _)

/-- A handle may be given out. -/
theorem take_wf (he : e ∈ a.table) : (a.take e).WF := by
  refine h.of_ok (fun x => ?_) [.found e] rfl (h.freedIdle.cons (by simp)) List.erase_sublist
    (by simp)
  have hx := h.ok x
  by_cases hxe : x = e
  · subst hxe
    have hlive := hx.live he
    have hrefs := hx.refs
    rw [if_pos he] at hrefs
    have hidle : x ∉ a.idle.erase x := h.nodup.not_mem_erase
    constructor
    · simpa [take, setEntry] using hx.live
    · simpa [take, setEntry] using hidle
    · simp [take, setEntry]
    · rintro (hle | ⟨-, hmem⟩)
      · exact absurd hlive.1 (by simpa [take, setEntry] using hle)
      · exact absurd he hmem
    · simp [take, setEntry, he]
      omega
    · simpa [take, setEntry] using hx.freed
    · simpa [take, setEntry] using hx.current
    · simpa [take, setEntry] using hx.inserted
  · refine hx.frame Iff.rfl ?_ (Function.update_of_ne hxe _ _) rfl fun n hn => ?_
    · simp [take, setEntry, List.mem_erase_of_ne hxe]
    · exact count_cons_of_ne (by rw [hn]; exact hxe) _

/-- A handle that is not the last one may be given back. -/
theorem put_wf (he : e ∈ a.table) (href : 1 < (a.entry e).ref_count) : (a.put e).WF := by
  refine h.of_ok (fun x => ?_) [.released e] rfl (h.freedIdle.cons (by simp)) (List.Sublist.refl _)
    (by simp)
  have hx := h.ok x
  by_cases hxe : x = e
  · subst hxe
    have hlive := hx.live he
    have hrefs := hx.refs
    rw [if_pos he] at hrefs
    have hidle := hx.idle
    have hne : (a.entry x).ref_count ≠ 0 := by omega
    constructor
    · simpa [put, setEntry] using hx.live
    · simp only [put, setEntry, Function.update_self]
      rw [hidle]
      constructor
      · exact fun hmem => absurd hmem.2 hne
      · exact fun hmem => absurd hmem.2 (by omega)
    · simp only [put, setEntry, Function.update_self]
      intro _ _
      omega
    · rintro (hle | ⟨-, hmem⟩)
      · exact absurd hlive.1 (by simpa [put, setEntry] using hle)
      · exact absurd he hmem
    · simp [put, setEntry, he]
      omega
    · simpa [put, setEntry] using hx.freed
    · simpa [put, setEntry] using hx.current
    · simpa [put, setEntry] using hx.inserted
  · refine hx.frame Iff.rfl Iff.rfl (Function.update_of_ne hxe _ _) rfl fun n hn => ?_
    exact count_cons_of_ne (by rw [hn]; exact hxe) _

/-- With its last handle given back, an entry is idle from now on. -/
theorem rest_wf (he : e ∈ a.table) (href : (a.entry e).ref_count = 1)
    (hp : (a.entry e).delete_pending = false) : (a.rest e).WF := by
  have hnot : e ∉ a.idle := fun hmem => by
    have hzero := ((h.ok e).idle.mp hmem).2
    omega
  have htime : ∀ {x}, x ∈ a.idle → time (.idle e :: .released e :: a.log) x = time a.log x := by
    intro x hx
    have hne : x ≠ e := fun heq => hnot (heq ▸ hx)
    rw [time_cons_of_ne (by simpa using hne.symm), time_cons_of_ne (by simp)]
  constructor
  · intro x
    have hx := h.ok x
    by_cases hxe : x = e
    · subst hxe
      have hlive := hx.live he
      have hrefs := hx.refs
      rw [if_pos he] at hrefs
      constructor
      · simpa [rest, setEntry] using hx.live
      · simp [rest, setEntry, he, href]
      · simp [rest, setEntry, hp]
      · rintro (hle | ⟨-, hmem⟩)
        · exact absurd hlive.1 (by simpa [rest, setEntry] using hle)
        · exact absurd he hmem
      · simp [rest, setEntry, he]
        omega
      · simpa [rest, setEntry] using hx.freed
      · simpa [rest, setEntry] using hx.current
      · simpa [rest, setEntry] using hx.inserted
    · refine hx.frame Iff.rfl ?_ (Function.update_of_ne hxe _ _) rfl fun n hn => ?_
      · simp [rest, setEntry, hxe]
      · have hne : n.of ≠ e := by rw [hn]; exact hxe
        exact (count_cons_of_ne hne _).trans (count_cons_of_ne hne _)
  · exact List.nodup_append.mpr ⟨h.nodup, List.nodup_singleton e,
      fun x hx y hy heq => hnot (by rw [List.mem_singleton.mp hy] at heq; exact heq ▸ hx)⟩
  · intro x hx
    rcases List.mem_append.mp hx with hx | hx
    · exact List.mem_cons_of_mem _ (List.mem_cons_of_mem _ (h.noted x hx))
    · rw [List.mem_singleton.mp hx]
      exact List.mem_cons_self
  -- The entry is the last one to become idle.
  · refine List.pairwise_append.mpr ⟨?_, List.pairwise_singleton _ e, fun x hx y hy => ?_⟩
    · refine h.order.imp_of_mem fun {x y} hx hy hlt => ?_
      change time (.idle e :: .released e :: a.log) x < time (.idle e :: .released e :: a.log) y
      rw [htime hx, htime hy]
      exact hlt
    · rw [List.mem_singleton.mp hy]
      change time (.idle e :: .released e :: a.log) x < time (.idle e :: .released e :: a.log) e
      rw [htime hx, time_cons_self]
      calc time a.log x ≤ a.log.length := time_le a.log x
        _ < (CNote.released e :: a.log).length + 1 := by simp only [List.length_cons]; omega
  · exact (h.freedIdle.cons (by simp)).cons (by simp)

/-- With its last handle given back, an entry that is marked for deletion is freed. -/
theorem leave_wf (he : e ∈ a.table) (href : (a.entry e).ref_count = 1)
    (hp : (a.entry e).delete_pending = true) : (a.leave e).WF := by
  have hnot : e ∉ a.idle := fun hmem => by
    have hzero := ((h.ok e).idle.mp hmem).2
    omega
  -- The handle was the last one.
  have hhandles : Cache.handles (.idle e :: .released e :: a.log) e = 0 := by
    have hrefs := (h.ok e).refs
    rw [if_pos he] at hrefs
    simp only [Cache.handles, List.count_cons]
    simp
    omega
  refine h.of_ok (fun x => ?_) [.freed e, .idle e, .released e] rfl
    (((h.freedIdle.cons (by simp)).cons (by simp)).cons (by rintro x ⟨⟩; exact hhandles))
    (List.Sublist.refl _) fun x hx hmem => ?_
  · have hx := h.ok x
    by_cases hxe : x = e
    · subst hxe
      have hlive := hx.live he
      have hrefs := hx.refs
      have hfreed := hx.freed
      have hcur := hx.current
      rw [if_pos he] at hrefs
      rw [if_neg (by simp [hlive.2])] at hfreed
      constructor
      · simp [leave, setEntry]
      · simpa [leave, setEntry] using hnot
      · simp [leave, setEntry]
      · rintro (hle | ⟨hdead, -⟩)
        · exact absurd hlive.1 (by simpa [leave, setEntry] using hle)
        · simp [leave, setEntry] at hdead
      · simp [leave, setEntry]
        omega
      · simpa [leave, setEntry, hlive.1] using hfreed
      · -- It was marked when somebody deleted it.
        have hgone := mt hcur.mpr (by simp [hp])
        simpa [leave, setEntry] using hgone
      · simp [leave, setEntry]
    · refine hx.frame ?_ Iff.rfl (Function.update_of_ne hxe _ _) rfl fun n hn => ?_
      · simp [leave, setEntry, hxe]
      · have hne : n.of ≠ e := by rw [hn]; exact hxe
        exact (count_cons_of_ne hne _).trans
          ((count_cons_of_ne hne _).trans (count_cons_of_ne hne _))
  · have hne : x ≠ e := fun heq => hnot (heq ▸ hx)
    simp [hne] at hmem

/-- A new entry may be inserted, with a handle of the client. -/
theorem add_wf (he : e < a.created) (hlive : (a.entry e).live = true) (hnot : e ∉ a.table) :
    (a.add e).WF := by
  refine h.of_ok (fun x => ?_) [.inserted e] rfl (h.freedIdle.cons (by simp)) (List.Sublist.refl _)
    (by simp)
  have hx := h.ok x
  by_cases hxe : x = e
  · subst hxe
    obtain ⟨hzero, hins, hgone⟩ := hx.fresh (Or.inr ⟨hlive, hnot⟩)
    obtain ⟨href, hp⟩ := hzero he
    have hrefs := hx.refs
    have hidle : x ∉ a.idle := fun hmem => hnot (hx.idle.mp hmem).1
    rw [if_neg hnot] at hrefs
    constructor
    · simp [add, setEntry, he, hlive]
    · simpa [add, setEntry] using hidle
    · simp [add, setEntry]
    · rintro (hle | ⟨-, hmem⟩)
      · exact absurd he (by simpa [add, setEntry] using hle)
      · simp [add, setEntry] at hmem
    · simp [add, setEntry, href]
      omega
    · simpa [add, setEntry] using hx.freed
    · simpa [add, setEntry, hp] using hgone
    · simp [add, setEntry]
  · refine hx.frame ?_ Iff.rfl (Function.update_of_ne hxe _ _) rfl fun n hn => ?_
    · simp [add, setEntry, hxe]
    · exact count_cons_of_ne (by rw [hn]; exact hxe) _

/-- A client changes the data of an entry. -/
theorem setData_wf (data : D) : (a.setEntry e fun x => { x with data := data }).WF := by
  refine h.of_ok (fun x => ?_) [] rfl h.freedIdle (List.Sublist.refl _) (by simp)
  have hx := h.ok x
  by_cases hxe : x = e
  · subst hxe
    constructor
    · simpa [setEntry] using hx.live
    · simpa [setEntry] using hx.idle
    · simpa [setEntry] using hx.pending
    · simpa [setEntry] using hx.fresh
    · simpa [setEntry] using hx.refs
    · simpa [setEntry] using hx.freed
    · simpa [setEntry] using hx.current
    · simpa [setEntry] using hx.inserted
  · exact hx.frame Iff.rfl Iff.rfl (Function.update_of_ne hxe _ _) rfl fun _ _ => rfl

end Moves

/-! ## Deleting, releasing, and evicting -/

/-- `stx_cache_entry_delete`. -/
def delete (a : Lru K D) (e : ℕ) (why : Why) : Lru K D :=
  if 0 < (a.entry e).ref_count then a.defer e why else a.discard e why

/-- An entry that somebody holds is in the map. -/
theorem WF.mem_of_ref {a : Lru K D} (h : a.WF) {e : ℕ}
    (hlive : e < a.created ∧ (a.entry e).live = true) (href : 0 < (a.entry e).ref_count) :
    e ∈ a.table := by
  by_contra hnot
  have hzero := (((h.ok e).fresh (Or.inr ⟨hlive.2, hnot⟩)).1 hlive.1).1
  omega

/-- `stx_cache_entry_delete` keeps the map in order. -/
theorem delete_wf {a : Lru K D} (h : a.WF) {e : ℕ}
    (hlive : e < a.created ∧ (a.entry e).live = true) (why : Why) : (a.delete e why).WF := by
  unfold delete
  split_ifs with href
  · exact defer_wf h (h.mem_of_ref hlive href) href why
  · exact discard_wf h hlive (by omega) why

/-- `stx_cache_entry_delete` creates nothing. -/
theorem delete_created (a : Lru K D) (e : ℕ) (why : Why) : (a.delete e why).created = a.created := by
  unfold delete
  split_ifs <;> rfl

/-- `stx_cache_entry_delete` leaves the other entries. -/
theorem delete_entry_of_ne {a : Lru K D} {e x : ℕ} (hne : x ≠ e) (why : Why) :
    (a.delete e why).entry x = a.entry x := by
  unfold delete
  split_ifs <;> exact Function.update_of_ne hne _ _

/-- `stx_cache_entry_delete` puts nothing into the map. -/
theorem delete_table_subset (a : Lru K D) (e : ℕ) (why : Why) : (a.delete e why).table ⊆ a.table := by
  unfold delete
  split_ifs
  · exact Finset.Subset.refl _
  · exact Finset.erase_subset _ _

/-- Afterwards the entry is gone or marked. -/
theorem ne_of_delete {a : Lru K D} {e x : ℕ} {why : Why} (hx : x ∈ (a.delete e why).table)
    (hp : ((a.delete e why).entry x).delete_pending = false) : x ≠ e := by
  rintro rfl
  unfold delete at hx hp
  split_ifs at hx hp
  · simp [setEntry] at hp
  · simp at hx

/-- An entry that a client has not inserted yet. -/
structure Fresh (a : Lru K D) (e : ℕ) : Prop where
  lt : e < a.created
  live : (a.entry e).live = true
  not_mem : e ∉ a.table

/-- An entry of the map is deleted, and the new one is still new. -/
theorem Fresh.delete {a : Lru K D} {e x : ℕ} (h : a.Fresh e) (hx : x ∈ a.table) (why : Why) :
    (a.delete x why).Fresh e := by
  have hne : e ≠ x := fun heq => h.not_mem (heq ▸ hx)
  constructor
  · rw [delete_created]
    exact h.lt
  · rw [delete_entry_of_ne hne]
    exact h.live
  · exact fun hmem => h.not_mem (delete_table_subset a x why hmem)

/-- `stx_cache_entry_release` of a handle. -/
def release (a : Lru K D) (e : ℕ) : Lru K D :=
  if 1 < (a.entry e).ref_count then a.put e
  else if (a.entry e).delete_pending then a.leave e else a.rest e

/-- `stx_cache_entry_release` keeps the map in order. -/
theorem release_wf {a : Lru K D} (h : a.WF) {e : ℕ} (he : e ∈ a.table)
    (href : 0 < (a.entry e).ref_count) : (a.release e).WF := by
  unfold release
  split_ifs with hmore hp
  · exact put_wf h he hmore
  · exact leave_wf h he (by omega) hp
  · exact rest_wf h he (by omega) (by simpa using hp)

/-- The first `n` idle entries are evicted. -/
def evict : ℕ → Lru K D → Lru K D
  | 0, a => a
  | n + 1, a =>
    match a.idle with
    | [] => a
    | e :: _ => evict n (a.discard e .evicted)

/-- The entry that has been idle for the longest time may be evicted, and the next one is the first
then. -/
theorem WF.discard_head {a : Lru K D} (h : a.WF) {e : ℕ} {es : List ℕ} (hidle : a.idle = e :: es) :
    e ∈ a.table ∧ (a.entry e).ref_count = 0 ∧ (a.discard e .evicted).WF ∧
      (a.discard e .evicted).idle = es := by
  have hmem : e ∈ a.idle := hidle ▸ List.mem_cons_self
  obtain ⟨htable, href⟩ := (h.ok e).idle.mp hmem
  refine ⟨htable, href, discard_wf h ((h.ok e).live htable) href .evicted, ?_⟩
  rw [discard, hidle, List.erase_cons_head]

/-- Evictions keep the map in order. -/
theorem evict_wf {a : Lru K D} (h : a.WF) (n : ℕ) : (a.evict n).WF := by
  induction n generalizing a with
  | zero => exact h
  | succ n ih =>
    rw [evict]
    split
    · exact h
    · next e es hidle => exact ih (h.discard_head hidle).2.2.1

/-- With no idle entry there is nothing to evict. -/
theorem evict_nil {a : Lru K D} (hidle : a.idle = []) (n : ℕ) : a.evict n = a := by
  cases n with
  | zero => rfl
  | succ n => simp only [evict, hidle]

/-- Evictions after evictions. -/
theorem evict_evict (a : Lru K D) (n m : ℕ) : (a.evict n).evict m = a.evict (n + m) := by
  induction n generalizing a with
  | zero => rw [evict, Nat.zero_add]
  | succ n ih =>
    rw [Nat.succ_add]
    cases hidle : a.idle with
    | nil => rw [evict_nil hidle, evict_nil hidle, evict_nil hidle]
    | cons e es =>
      simp only [evict, hidle]
      exact ih _

/-- The idle entries after the first `n` stay, and these are gone from the table. -/
theorem evict_spec {a : Lru K D} (h : a.WF) {n : ℕ} (hn : n ≤ a.idle.length) :
    (a.evict n).idle = a.idle.drop n ∧
      (∀ x, x ∈ (a.evict n).table ↔ x ∈ a.table ∧ x ∉ a.idle.take n) ∧
      (a.evict n).created = a.created ∧
      ∀ x, x ∉ a.idle.take n → (a.evict n).entry x = a.entry x := by
  induction n generalizing a with
  | zero => simp [evict]
  | succ n ih =>
    cases hidle : a.idle with
    | nil => simp [hidle] at hn
    | cons e es =>
      obtain ⟨htable, -, hwf, hes⟩ := h.discard_head hidle
      rw [hidle, List.length_cons] at hn
      obtain ⟨hi, ht, hc, he⟩ := ih hwf (by rw [hes]; omega)
      rw [hes] at hi ht he
      simp only [evict, hidle, List.drop_succ_cons, List.take_succ_cons, List.mem_cons, not_or]
      refine ⟨hi, fun x => ?_, hc, fun x hx => ?_⟩
      · rw [ht]
        simp only [discard, Finset.mem_erase]
        tauto
      · rw [he x hx.2]
        exact Function.update_of_ne hx.1 _ _

/-- Evictions leave an entry that is not in the map yet. -/
theorem Fresh.evict {a : Lru K D} {e : ℕ} (h : a.Fresh e) (hwf : a.WF) {n : ℕ}
    (hn : n ≤ a.idle.length) : (a.evict n).Fresh e ∧ (a.evict n).entry e = a.entry e := by
  obtain ⟨-, htable, hcreated, hentry⟩ := evict_spec hwf hn
  have hnot : e ∉ a.idle.take n := fun hmem =>
    h.not_mem ((hwf.ok e).idle.mp (List.mem_of_mem_take hmem)).1
  refine ⟨⟨?_, ?_, ?_⟩, hentry e hnot⟩
  · rw [hcreated]
    exact h.lt
  · rw [hentry e hnot]
    exact h.live
  · exact fun hmem => h.not_mem ((htable e).mp hmem).1

/-! ## Shedding entries -/

/-- Entries that nobody holds are freed, and nothing else happens. -/
structure Sheds (a a' : Lru K D) : Prop where
  created : a'.created = a.created
  table : a'.table ⊆ a.table
  entry : ∀ x ∈ a'.table, a'.entry x = a.entry x
  live : ∀ x, (a'.entry x).live = true → a'.entry x = a.entry x ∧ (x ∈ a.table → x ∈ a'.table)

namespace Sheds

/-- Nothing is freed. -/
theorem refl (a : Lru K D) : a.Sheds a := ⟨rfl, Finset.Subset.refl _, fun _ _ => rfl, fun _ _ => ⟨rfl, id⟩⟩

/-- One after the other. -/
theorem trans {a b c : Lru K D} (h : a.Sheds b) (h' : b.Sheds c) : a.Sheds c where
  created := h'.created.trans h.created
  table := h'.table.trans h.table
  entry := fun x hx => (h'.entry x hx).trans (h.entry x (h'.table hx))
  live := by
    intro x hx
    obtain ⟨heq, hmem⟩ := h'.live x hx
    rw [heq] at hx
    obtain ⟨heq', hmem'⟩ := h.live x hx
    exact ⟨heq.trans heq', fun hin => hmem (hmem' hin)⟩

/-- An entry is freed. -/
theorem discard (a : Lru K D) (e : ℕ) (why : Why) : a.Sheds (a.discard e why) where
  created := rfl
  table := Finset.erase_subset _ _
  entry := fun x hx => Function.update_of_ne (Finset.ne_of_mem_erase hx) _ _
  live := by
    intro x hx
    have hne : x ≠ e := by
      rintro rfl
      simp [setEntry] at hx
    exact ⟨Function.update_of_ne hne _ _, fun hin => Finset.mem_erase.mpr ⟨hne, hin⟩⟩

/-- An entry that nobody holds is deleted. -/
theorem delete {a : Lru K D} {e : ℕ} (href : (a.entry e).ref_count = 0) (why : Why) :
    a.Sheds (a.delete e why) := by
  rw [Lru.delete, if_neg (by omega)]
  exact discard a e why

/-- Idle entries are evicted. -/
theorem evict (n : ℕ) (a : Lru K D) : a.Sheds (a.evict n) := by
  induction n generalizing a with
  | zero => exact refl a
  | succ n ih =>
    rw [Lru.evict]
    split
    · exact refl a
    · next e es hidle => exact (discard a e .evicted).trans (ih _)

end Sheds

end Lru

end StWin
