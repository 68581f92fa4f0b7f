import StWin.Cache.Lru

/-!
# What a lookup finds

Entries with equal keys may be in the table at the same time, since an entry that was replaced while
somebody held it stays until it is released. It is marked then. Of two entries with equal keys that
were inserted, the older one was deleted: this is `Older`, and it needs a comparison of keys that is
an equivalence. So a search that passes over marked entries finds the entry that was inserted last
under the key, if it finds one.
-/

namespace StWin.Lru

variable {K D : Type*}

/-- Of two entries with equal keys that were inserted, the older one was deleted. -/
def Older (p : CacheParams K) (a : Lru K D) : Prop :=
  a.log.Pairwise fun n n' => ∀ e e', n = .inserted e → n' = .inserted e' →
    p.Same (a.entry e).key (a.entry e').key → ∃ why, .gone e' why ∈ a.log

/-- An entry is deleted, or found, and so on. -/
theorem Older.append {p : CacheParams K} {a a' : Lru K D} (h : a.Older p) (new : List CNote)
    (hlog : a'.log = new ++ a.log) (hnew : ∀ e, .inserted e ∉ new)
    (hkey : ∀ e, .inserted e ∈ a.log → (a'.entry e).key = (a.entry e).key) : a'.Older p := by
  unfold Older
  rw [hlog]
  refine List.pairwise_append.mpr ⟨?_, ?_, ?_⟩
  · refine List.pairwise_of_forall_mem_list fun n hn n' _ e e' heq => ?_
    exact absurd (heq ▸ hn) (hnew e)
  · refine h.imp_of_mem fun {n n'} hn hn' hold e e' heq heq' hsame => ?_
    rw [hkey e (heq ▸ hn), hkey e' (heq' ▸ hn')] at hsame
    obtain ⟨why, hgone⟩ := hold e e' heq heq' hsame
    exact ⟨why, List.mem_append_right new hgone⟩
  · intro n hn n' _ e e' heq
    exact absurd (heq ▸ hn) (hnew e)

/-- An update of one entry that keeps its key and its weight. -/
theorem keeps_of_update {a a' : Lru K D} {e : ℕ} {y : CEntry K D}
    (h : a'.entry = Function.update a.entry e y) (hkey : y.key = (a.entry e).key)
    (hweight : y.weight = (a.entry e).weight) (x : ℕ) :
    (a'.entry x).key = (a.entry x).key ∧ (a'.entry x).weight = (a.entry x).weight := by
  rw [h]
  by_cases hx : x = e
  · rw [hx, Function.update_self]
    exact ⟨hkey, hweight⟩
  · rw [Function.update_of_ne hx]
    exact ⟨rfl, rfl⟩

/-- After a deletion, too, the older one of two entries with one key is a deleted one. -/
theorem Older.delete {p : CacheParams K} {a : Lru K D} (h : a.Older p) (e : ℕ) (why : Why) :
    (a.delete e why).Older p := by
  unfold Lru.delete
  split_ifs
  · exact h.append [.gone e why] rfl (by simp) fun x _ => (keeps_of_update rfl (by rfl) (by rfl) x).1
  · exact h.append [.freed e, .gone e why] rfl (by simp)
      fun x _ => (keeps_of_update rfl (by rfl) (by rfl) x).1

/-- The same when an entry is discarded. -/
theorem Older.discard {p : CacheParams K} {a : Lru K D} (h : a.Older p) (e : ℕ) (why : Why) :
    (a.discard e why).Older p :=
  h.append [.freed e, .gone e why] rfl (by simp) fun x _ => (keeps_of_update rfl (by rfl) (by rfl) x).1

/-- The same after evictions. The induction is on their number. -/
theorem Older.evict {p : CacheParams K} {a : Lru K D} (h : a.Older p) (n : ℕ) :
    (a.evict n).Older p := by
  induction n generalizing a with
  | zero => exact h
  | succ n ih =>
    rw [Lru.evict]
    split
    · exact h
    · exact ih (h.discard _ .evicted)

/-- The same after a release. -/
theorem Older.release {p : CacheParams K} {a : Lru K D} (h : a.Older p) (e : ℕ) :
    (a.release e).Older p := by
  unfold Lru.release
  split_ifs
  · exact h.append [.released e] rfl (by simp) fun x _ => (keeps_of_update rfl (by rfl) (by rfl) x).1
  · exact h.append [.freed e, .idle e, .released e] rfl (by simp)
      fun x _ => (keeps_of_update rfl (by rfl) (by rfl) x).1
  · exact h.append [.idle e, .released e] rfl (by simp)
      fun x _ => (keeps_of_update rfl (by rfl) (by rfl) x).1

/-- The same after a lookup. -/
theorem Older.take {p : CacheParams K} {a : Lru K D} (h : a.Older p) (e : ℕ) : (a.take e).Older p :=
  h.append [.found e] rfl (by simp) fun x _ => (keeps_of_update rfl (by rfl) (by rfl) x).1

/-- The new entry was not inserted yet. -/
theorem Older.make {p : CacheParams K} {a : Lru K D} (h : a.Older p) (hwf : a.WF) (key : K) (data : D)
    (weight : ℕ) : (a.make key data weight).Older p := by
  refine h.append [] rfl (by simp) fun x hx => ?_
  have hne : x ≠ a.created := by
    rintro rfl
    exact ((hwf.ok _).fresh (Or.inl le_rfl)).2.1 hx
  show (Function.update a.entry a.created _ x).key = _
  rw [Function.update_of_ne hne]

/-- An entry is inserted when no other one with its key is found. -/
theorem Older.add {p : CacheParams K} {a : Lru K D} (h : a.Older p) (hwf : a.WF) {e : ℕ}
    (hdup : ∀ x ∈ a.table, (a.entry x).delete_pending = false →
      ¬p.Same (a.entry e).key (a.entry x).key) : (a.add e).Older p := by
  have hkey : ∀ x, ((a.add e).entry x).key = (a.entry x).key := by
    intro x
    by_cases hx : x = e
    · rw [hx]
      simp [Lru.add, setEntry]
    · simp [Lru.add, setEntry, hx]
  unfold Older
  simp only [hkey]
  refine List.pairwise_cons.mpr ⟨?_, ?_⟩
  · rintro n hn x x' ⟨⟩ rfl hsame
    -- An entry that was not deleted would have been found.
    by_contra hnot
    push Not at hnot
    have hcur := (hwf.ok x').current.mpr
      ⟨hn, fun why hmem => hnot why (List.mem_cons_of_mem _ hmem)⟩
    exact hdup x' hcur.1 hcur.2 hsame
  · refine h.imp fun {n n'} hold x x' heq heq' hsame => ?_
    obtain ⟨why, hgone⟩ := hold x x' heq heq' hsame
    exact ⟨why, List.mem_cons_of_mem _ hgone⟩

/-- The entry that was inserted last under a key equal to `key`. -/
def lastInserted (p : CacheParams K) (entry : ℕ → CEntry K D) (log : List CNote) (key : K) :
    Option ℕ :=
  log.findSome? fun
    | .inserted e => if p.Same key (entry e).key then some e else none
    | _ => none

/-- The entry was deleted, replaced, evicted, or removed by `stx_cache_empty`. -/
def isGone (log : List CNote) (e : ℕ) : Bool :=
  log.any fun
    | .gone x _ => x = e
    | _ => false

/-- An entry is gone exactly when the log says why. -/
theorem isGone_iff {log : List CNote} {e : ℕ} : isGone log e = true ↔ ∃ why, .gone e why ∈ log := by
  simp only [isGone, List.any_eq_true]
  constructor
  · rintro ⟨n, hn, hgone⟩
    cases n with
    | gone x why =>
      rw [of_decide_eq_true hgone] at hn
      exact ⟨why, hn⟩
    | _ => cases hgone
  · rintro ⟨why, hn⟩
    exact ⟨_, hn, decide_eq_true rfl⟩

/-- The entry that was inserted last under `key`, unless it is gone. -/
def current (p : CacheParams K) (entry : ℕ → CEntry K D) (log : List CNote) (key : K) : Option ℕ :=
  (lastInserted p entry log key).filter fun e => !isGone log e

/-- Whoever looks for an entry in the table that is not marked finds the current one. -/
theorem eq_current {p : CacheParams K} (hp : p.Lawful) {a : Lru K D} (hwf : a.WF) (hold : a.Older p)
    {key : K} {r : Option ℕ}
    (hsome : ∀ e, r = some e → e ∈ a.table ∧ (a.entry e).delete_pending = false ∧
      p.Same key (a.entry e).key)
    (hnone : r = none → ∀ e ∈ a.table, (a.entry e).delete_pending = false →
      ¬p.Same key (a.entry e).key) : r = current p a.entry a.log key := by
  -- What is found was inserted and is not gone.
  have hins : ∀ e, r = some e → .inserted e ∈ a.log ∧ isGone a.log e = false := by
    intro e he
    obtain ⟨htable, hp', -⟩ := hsome e he
    obtain ⟨hmem, hgone⟩ := (hwf.ok e).current.mp ⟨htable, hp'⟩
    refine ⟨hmem, ?_⟩
    rw [← Bool.not_eq_true, isGone_iff]
    exact fun ⟨why, hwhy⟩ => hgone why hwhy
  unfold current
  cases hlast : lastInserted p a.entry a.log key with
  | none =>
    cases hr : r with
    | none => rfl
    | some e =>
      have hno := List.findSome?_eq_none_iff.mp hlast _ (hins e hr).1
      simp [(hsome e hr).2.2] at hno
  | some e₀ =>
    obtain ⟨l₁, n, l₂, hlog, hn, hfirst⟩ := List.findSome?_eq_some_iff.mp hlast
    obtain ⟨rfl, hsame₀⟩ : n = .inserted e₀ ∧ p.Same key (a.entry e₀).key := by
      cases n with
      | inserted x =>
        simp only at hn
        split_ifs at hn with hx
        cases hn
        exact ⟨rfl, hx⟩
      | _ => cases hn
    -- Another entry with the key would be older, and so gone.
    have hself : ∀ e, r = some e → e = e₀ := by
      intro e he
      obtain ⟨hmem, hnot⟩ := hins e he
      have hsame := (hsome e he).2.2
      rw [hlog] at hmem
      rcases List.mem_append.mp hmem with hmem | hmem
      · have hno := hfirst _ hmem
        simp [hsame] at hno
      · rcases List.mem_cons.mp hmem with heq | hmem
        · exact CNote.inserted.inj heq
        · have hpair := hold
          unfold Older at hpair
          rw [hlog] at hpair
          have hgone := (List.pairwise_cons.mp (List.pairwise_append.mp hpair).2.1).1 _ hmem e₀ e rfl
            rfl (hp.trans (hp.symm hsame₀) hsame)
          rw [← hlog, ← isGone_iff, hnot] at hgone
          cases hgone
    cases hgone : isGone a.log e₀ with
    | true =>
      rw [Option.filter_some, if_neg (by simp [hgone])]
      cases hr : r with
      | none => rfl
      | some e =>
        have hnot := (hins e hr).2
        rw [hself e hr, hgone] at hnot
        cases hnot
    | false =>
      rw [Option.filter_some, if_pos (by simp [hgone])]
      have hmem : .inserted e₀ ∈ a.log := by simp [hlog]
      have hcur := (hwf.ok e₀).current.mpr ⟨hmem, fun why hwhy => by
        rw [isGone_iff.mpr ⟨why, hwhy⟩] at hgone
        cases hgone⟩
      cases hr : r with
      | none => exact absurd hsame₀ (hnone hr e₀ hcur.1 hcur.2)
      | some e => rw [hself e hr]

/-- No two entries of the table that are not marked have equal keys. -/
theorem eq_of_same {p : CacheParams K} (hp : p.Lawful) {a : Lru K D} (hwf : a.WF) (hold : a.Older p)
    {x y : ℕ} (hx : x ∈ a.table) (hy : y ∈ a.table) (hpx : (a.entry x).delete_pending = false)
    (hpy : (a.entry y).delete_pending = false) (hsame : p.Same (a.entry x).key (a.entry y).key) :
    x = y := by
  have hone : ∀ z ∈ a.table, (a.entry z).delete_pending = false →
      p.Same (a.entry x).key (a.entry z).key → some z = current p a.entry a.log (a.entry x).key := by
    intro z hz hpz hsz
    refine eq_current hp hwf hold (fun e he => ?_) (fun hnone => by cases hnone)
    cases he
    exact ⟨hz, hpz, hsz⟩
  have heq := (hone x hx hpx (hp.refl _)).trans (hone y hy hpy hsame).symm
  exact Option.some_inj.mp heq

end StWin.Lru
