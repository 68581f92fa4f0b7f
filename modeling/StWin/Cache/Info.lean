import StWin.Cache.Runs

/-!
# The statistics of the cache

`stx_cache_getinfo` copies the counters of the cache. Deletions count nothing but themselves (`Quiet`), so
the counters of hits, lookups and insertions are the numbers of these events, up to the width of their
type; and what was inserted is what was deleted, together with what is in the table (`run_getinfo`).
-/

namespace StWin

/-- `stx_cache_info_t`. -/
structure CacheInfo where
  max_size : ℕ
  max_weight : ℕ
  hash_size : ℕ
  cur_size : ℕ
  cur_weight : ℕ
  hits : ℕ
  lookups : ℕ
  inserts : ℕ
  deletes : ℕ
  deriving DecidableEq, Repr

/-- An entry was found. -/
def CNote.isFound : CNote → Bool
  | .found _ => true
  | _ => false

/-- An entry was inserted. -/
def CNote.isInserted : CNote → Bool
  | .inserted _ => true
  | _ => false

namespace Cache

variable {K D : Type*}

/-- The operation is `stx_cache_entry_lookup`. -/
def Op.isLookup : Op K D → Bool
  | .lookup _ => true
  | _ => false

/-- `stx_cache_getinfo`. -/
def getinfo (p : CacheParams K) (c : Cache K D) : CacheInfo where
  max_size := p.max_size
  max_weight := p.max_weight
  hash_size := p.hash_size
  cur_size := c.cur_size
  cur_weight := c.cur_weight
  hits := c.hits
  lookups := c.lookups
  inserts := c.inserts
  deletes := c.deletes

variable {p : CacheParams K} {c c' c'' : Cache K D}

/-! ## What counts nothing -/

/-- No hit, no lookup, and no insertion is counted or recorded. -/
structure Quiet (c c' : Cache K D) : Prop where
  hits : c'.hits = c.hits
  lookups : c'.lookups = c.lookups
  inserts : c'.inserts = c.inserts
  found : c'.log.countP CNote.isFound = c.log.countP CNote.isFound
  inserted : c'.log.countP CNote.isInserted = c.log.countP CNote.isInserted

/-- Nothing has been done. -/
theorem Quiet.refl (c : Cache K D) : Quiet c c := ⟨rfl, rfl, rfl, rfl, rfl⟩

/-- One after the other. -/
theorem Quiet.trans (h : Quiet c c') (h' : Quiet c' c'') : Quiet c c'' :=
  ⟨h'.hits.trans h.hits, h'.lookups.trans h.lookups, h'.inserts.trans h.inserts, h'.found.trans h.found,
    h'.inserted.trans h.inserted⟩

/-- An event that is neither a hit nor an insertion. -/
theorem quiet_note (c : Cache K D) {n : CNote} (hfound : n.isFound = false)
    (hinserted : n.isInserted = false) : Quiet c (c.note n) :=
  ⟨rfl, rfl, rfl, by simp [hfound], by simp [hinserted]⟩

/-- A deletion is quiet. -/
theorem entryDelete_quiet {e : ℕ} (h : c.entryDelete p e = some c') : Quiet c c' := by
  have hfree : ∀ c : Cache K D, Quiet c (c.freeEntry e) := fun c =>
    ⟨rfl, rfl, rfl, by simp [CNote.isFound], by simp [CNote.isInserted]⟩
  unfold entryDelete at h
  split_ifs at h
  dsimp only at h
  split_ifs at h
  · cases h
    exact ⟨rfl, rfl, rfl, rfl, rfl⟩
  · cases h
    refine Quiet.trans ?_ (hfree _)
    exact ⟨rfl, rfl, rfl, rfl, rfl⟩
  · cases h
    refine Quiet.trans ?_ (hfree _)
    exact ⟨rfl, rfl, rfl, rfl, rfl⟩

/-- An entry is deleted. -/
theorem gone_quiet {e : ℕ} {why : Why} (h : (c.note (.gone e why)).entryDelete p e = some c') :
    Quiet c c' :=
  (quiet_note c rfl rfl).trans (entryDelete_quiet h)

/-- Evictions are quiet. -/
theorem makeRoom_quiet {w fuel : ℕ} {ok : Bool} : ∀ {c : Cache K D},
    makeRoom p w fuel c = some (c', ok) → Quiet c c' := by
  induction fuel with
  | zero => exact fun h => nomatch h
  | succ fuel ih =>
    intro c h
    rw [makeRoom] at h
    split_ifs at h with hover
    · split at h
      · cases h
        exact Quiet.refl _
      · next old _ =>
        obtain ⟨c₁, hc₁, hrest⟩ := Option.bind_eq_some_iff.mp h
        exact (gone_quiet hc₁).trans (ih hrest)
    · cases h
      exact Quiet.refl _

/-- The eviction for the size of the cache is quiet. -/
theorem makeSlot_quiet {ok : Bool} (h : makeSlot p c = some (c', ok)) : Quiet c c' := by
  unfold makeSlot at h
  split_ifs at h
  · split at h
    · cases h
      exact Quiet.refl _
    · obtain ⟨c₁, hc₁, heq⟩ := Option.map_eq_some_iff.mp h
      cases heq
      exact gone_quiet hc₁
  · cases h
    exact Quiet.refl _

/-- The deletion of the entry with the same key is quiet. -/
theorem dropDuplicate_quiet {e : ℕ} (h : c.dropDuplicate p e = some c') : Quiet c c' := by
  obtain ⟨r, -, h⟩ := Option.bind_eq_some_iff.mp h
  cases r with
  | none =>
    cases h
    exact Quiet.refl _
  | some old => exact gone_quiet h

/-- A release is quiet. -/
theorem entryRelease_quiet {e : ℕ} (h : c.entryRelease p e = some c') : Quiet c c' := by
  unfold entryRelease at h
  split_ifs at h with hlive hzero
  · cases h
    exact Quiet.refl _
  · dsimp only at h
    have hreleased : Quiet c ((c.setEntry e fun x => { x with ref_count := x.ref_count - 1 }).note
        (.released e)) := by
      refine Quiet.trans ?_ (quiet_note _ rfl rfl)
      exact ⟨rfl, rfl, rfl, rfl, rfl⟩
    generalize (c.setEntry e fun x => { x with ref_count := x.ref_count - 1 }).note (.released e) = c₁
      at h hreleased
    have hidle : Quiet c₁
        ({ c₁ with lru := Ring.insertBefore c₁.lru (.entry e) .list }.note (.idle e)) := by
      refine Quiet.trans ?_ (quiet_note _ rfl rfl)
      exact ⟨rfl, rfl, rfl, rfl, rfl⟩
    split_ifs at h
    · exact hreleased.trans (hidle.trans (entryDelete_quiet h))
    · cases h
      exact hreleased.trans hidle
    · cases h
      exact hreleased

/-- The loop over a chain of `stx_cache_empty` is quiet. -/
theorem emptyChain_quiet {fuel : ℕ} {e : Option ℕ} : ∀ {c : Cache K D},
    emptyChain p fuel e c = some c' → Quiet c c' := by
  induction fuel generalizing e with
  | zero => exact fun h => nomatch h
  | succ fuel ih =>
    intro c h
    cases e with
    | none =>
      cases h
      exact Quiet.refl _
    | some e =>
      obtain ⟨c₁, hc₁, hrest⟩ := Option.bind_eq_some_iff.mp h
      exact (gone_quiet hc₁).trans (ih hrest)

/-- `stx_cache_empty` is quiet. -/
theorem empty_quiet (h : c.empty p = some c') : Quiet c c' := by
  unfold empty at h
  generalize List.range p.hash_size = bs at h
  induction bs generalizing c with
  | nil =>
    cases h
    exact Quiet.refl _
  | cons b bs ih =>
    rw [List.foldlM_cons] at h
    obtain ⟨c₁, hc₁, hrest⟩ := Option.bind_eq_some_iff.mp h
    exact (emptyChain_quiet hc₁).trans (ih hrest)

/-! ## The counters -/

/-- The counters after `n` lookups. -/
structure Books (p : CacheParams K) (n : ℕ) (c : Cache K D) : Prop where
  hits : c.hits = c.log.countP CNote.isFound % p.ulongMod
  lookups : c.lookups = n % p.ulongMod
  inserts : c.inserts = c.log.countP CNote.isInserted % p.ulongMod
  le : c.log.countP CNote.isFound ≤ n

variable {n : ℕ}

/-- What is quiet leaves the counters right. -/
theorem Books.quiet (h : Books p n c) (hquiet : Quiet c c') : Books p n c' := by
  constructor
  · rw [hquiet.hits, hquiet.found, h.hits]
  · rw [hquiet.lookups, h.lookups]
  · rw [hquiet.inserts, hquiet.inserted, h.inserts]
  · rw [hquiet.found]
    exact h.le

/-- A counter is incremented. -/
theorem count_succ {m k M : ℕ} (h : m = k % M) : (m + 1) % M = (k + 1) % M := by
  rw [h, Nat.mod_add_mod]

/-- One more lookup is counted, and perhaps one more hit. -/
theorem entryLookup_books {key : K} {r : Option ℕ} (h : Books p n c)
    (hlookup : c.entryLookup p key = some (c', r)) : Books p (n + 1) c' := by
  obtain ⟨found, -, hfound⟩ := Option.bind_eq_some_iff.mp hlookup
  cases found with
  | none =>
    cases hfound
    exact ⟨h.hits, count_succ h.lookups, h.inserts, Nat.le_succ_of_le h.le⟩
  | some e =>
    cases hfound
    have hhits : ∀ c : Cache K D, (c.hit p e).hits = (c.hits + 1) % p.ulongMod ∧
        (c.hit p e).lookups = c.lookups ∧ (c.hit p e).inserts = c.inserts ∧
        (c.hit p e).log = .found e :: c.log := by
      intro c
      unfold hit
      dsimp only
      split_ifs <;> exact ⟨rfl, rfl, rfl, rfl⟩
    obtain ⟨hhits, hlookups, hinserts, hlog⟩ := hhits { c with lookups := (c.lookups + 1) % p.ulongMod }
    constructor
    · rw [hhits, hlog, List.countP_cons_of_pos rfl]
      exact count_succ h.hits
    · rw [hlookups]
      exact count_succ h.lookups
    · rw [hinserts, hlog, List.countP_cons_of_neg (by simp [CNote.isInserted])]
      exact h.inserts
    · rw [hlog, List.countP_cons_of_pos rfl]
      exact Nat.succ_le_succ h.le

/-- An insertion is counted if it is not refused. -/
theorem entryInsert_books {e : ℕ} {r : ℤ} (h : Books p n c) (hinsert : c.entryInsert p e = some (c', r)) :
    Books p n c' := by
  unfold entryInsert at hinsert
  split_ifs at hinsert
  obtain ⟨⟨c₁, room⟩, hroom, hinsert⟩ := Option.bind_eq_some_iff.mp hinsert
  have hbooks₁ := h.quiet (makeRoom_quiet hroom)
  dsimp only at hinsert
  split_ifs at hinsert
  · cases hinsert
    exact hbooks₁
  obtain ⟨⟨c₂, slot⟩, hslot, hinsert⟩ := Option.bind_eq_some_iff.mp hinsert
  have hbooks₂ := hbooks₁.quiet (makeSlot_quiet hslot)
  dsimp only at hinsert
  split_ifs at hinsert
  · cases hinsert
    exact hbooks₂
  obtain ⟨c₃, hdrop, hinsert⟩ := Option.bind_eq_some_iff.mp hinsert
  have hbooks₃ := hbooks₂.quiet (dropDuplicate_quiet hdrop)
  cases hinsert
  have hfound : (c₃.link p e).log.countP CNote.isFound = c₃.log.countP CNote.isFound :=
    List.countP_cons_of_neg (by simp [CNote.isFound])
  refine ⟨?_, hbooks₃.lookups, ?_, ?_⟩
  · rw [hfound]
    exact hbooks₃.hits
  · rw [show (c₃.link p e).log = .inserted e :: c₃.log from rfl, List.countP_cons_of_pos rfl]
    exact count_succ hbooks₃.inserts
  · rw [hfound]
    exact hbooks₃.le

/-- An operation leaves the counters right. -/
theorem step_books {op : Op K D} (h : Books p n c) (hstep : c.step p op = some c') :
    Books p (n + if op.isLookup then 1 else 0) c' := by
  cases op with
  | create key data weight =>
    cases hstep
    exact h.quiet ⟨rfl, rfl, rfl, rfl, rfl⟩
  | insert e =>
    obtain ⟨⟨c₁, r⟩, hinsert, rfl⟩ := Option.map_eq_some_iff.mp hstep
    exact entryInsert_books h hinsert
  | lookup key =>
    obtain ⟨⟨c₁, r⟩, hlookup, rfl⟩ := Option.map_eq_some_iff.mp hstep
    exact entryLookup_books h hlookup
  | release e => exact h.quiet (entryRelease_quiet hstep)
  | delete e => exact h.quiet (gone_quiet hstep)
  | empty => exact h.quiet (empty_quiet hstep)

/-- The counters are right after each run. -/
theorem run_books {ops : List (Op K D)} : ∀ {n : ℕ} {c : Cache K D}, Books p n c →
    Runs.run (step p) c ops = some c' → Books p (n + ops.countP Op.isLookup) c' := by
  induction ops with
  | nil =>
    intro n c h hrun
    cases hrun
    exact h
  | cons op ops ih =>
    intro n c h hrun
    obtain ⟨c₁, hc₁, hrest⟩ := Runs.run_cons hrun
    have hbooks := ih (step_books h hc₁) hrest
    rw [List.countP_cons]
    rwa [show n + (ops.countP Op.isLookup + if op.isLookup = true then 1 else 0) =
      (n + if op.isLookup = true then 1 else 0) + ops.countP Op.isLookup by omega]

/-! ## What is reported -/

/-- What `stx_cache_getinfo` reports after operations `ops`. -/
structure Reported (p : CacheParams K) (ops : List (Op K D)) (c : Cache K D) : Prop where
  lookups : (c.getinfo p).lookups = ops.countP Op.isLookup % 2 ^ p.ulong_bits
  /-- The lookups that have found an entry. -/
  hits : (c.getinfo p).hits = c.log.countP CNote.isFound % 2 ^ p.ulong_bits
  hits_le : c.log.countP CNote.isFound ≤ ops.countP Op.isLookup
  /-- The insertions that were not refused. -/
  inserts : (c.getinfo p).inserts = c.log.countP CNote.isInserted % 2 ^ p.ulong_bits
  /-- The entries in the table were inserted, and are not freed. -/
  cur_size : (c.getinfo p).cur_size = ((List.range c.created).filter fun e =>
    decide (CNote.inserted e ∈ c.log ∧ CNote.freed e ∉ c.log)).length
  /-- The others that were inserted are those that were deleted. -/
  deletes : (c.getinfo p).inserts ≡ (c.getinfo p).deletes + (c.getinfo p).cur_size [MOD 2 ^ p.ulong_bits]

/-- An entry is in the table from its insertion on until it is freed. -/
theorem mem_table_iff {a : Lru K D} (hwf : a.WF) (e : ℕ) :
    e ∈ a.table ↔ e < a.created ∧ .inserted e ∈ a.log ∧ .freed e ∉ a.log := by
  have hok := hwf.ok e
  constructor
  · intro htable
    obtain ⟨hlt, hlive⟩ := hok.live htable
    refine ⟨hlt, hok.inserted htable, ?_⟩
    rw [← List.count_eq_zero, hok.freed, if_neg (by simp [hlive])]
  · rintro ⟨hlt, hinserted, hfreed⟩
    by_contra htable
    exact (hok.fresh (Or.inr ⟨hwf.live_of_not_freed hlt hfreed, htable⟩)).2.1 hinserted

/-- The size of a cache is the number of entries that were inserted and not freed. -/
theorem Rep.cur_size_eq {a : Lru K D} {buckets : ℕ → List ℕ} (h : Rep p c a buckets) (hwf : a.WF) :
    c.cur_size = ((List.range c.created).filter fun e =>
      decide (CNote.inserted e ∈ c.log ∧ CNote.freed e ∉ c.log)).length := by
  have htable : a.table = ((List.range c.created).filter fun e =>
      decide (CNote.inserted e ∈ c.log ∧ CNote.freed e ∉ c.log)).toFinset := by
    ext e
    rw [mem_table_iff hwf, List.mem_toFinset, List.mem_filter, List.mem_range, h.created, h.log,
      decide_eq_true_eq]
  rw [h.size, htable, List.toFinset_card_of_nodup (List.nodup_range.filter _)]

/-- The statistics are right, whatever clients have done. -/
theorem run_getinfo (p : CacheParams K) (x : CEntry K D) (n : Ring.Links LruNode) (ops : List (Op K D))
    (hops : Runs.Meets (step p) Client (init x n) ops) :
    ∃ c, Runs.run (step p) (init x n) ops = some c ∧ Reported p ops c := by
  obtain ⟨c, hc, a, ⟨buckets, hrep⟩, hwf, -⟩ := Runs.run_total step_inv (init_inv p x n) hops
  have hbooks : Books p (0 + ops.countP Op.isLookup) c := run_books ⟨rfl, rfl, rfl, le_rfl⟩ hc
  rw [zero_add] at hbooks
  refine ⟨c, hc, hbooks.lookups, hbooks.hits, hbooks.le, hbooks.inserts, hrep.cur_size_eq hwf, ?_⟩
  have hcount := hrep.count.symm
  rw [← hrep.size] at hcount
  exact hcount

/-- A lookup that finds its entry and one that does not, and a replacement. -/
def findsAndReplaces : List (Op ℕ Unit) :=
  [.lookup 1, .create 1 () 1, .insert 0, .lookup 1, .release 0, .release 0, .create 1 () 1, .insert 1]

/-- After these operations two lookups and one hit are reported, two insertions and one deletion. -/
theorem run_getinfo_findsAndReplaces : ∃ c, Runs.run (step twoEntries) newCache findsAndReplaces = some c ∧
    c.getinfo twoEntries = ⟨2, 10, 4, 1, 1, 1, 2, 2, 1⟩ ∧ Reported twoEntries findsAndReplaces c := by
  obtain ⟨c, hc, hreported⟩ := run_getinfo twoEntries _ _ findsAndReplaces
    (show Runs.Meets (step twoEntries) Client newCache findsAndReplaces by decide +kernel)
  have hvalue : (Runs.run (step twoEntries) newCache findsAndReplaces).map (getinfo twoEntries) =
      some ⟨2, 10, 4, 1, 1, 1, 2, 2, 1⟩ := by decide +kernel
  have hc' : Runs.run (step twoEntries) newCache findsAndReplaces = some c := hc
  rw [hc', Option.map_some, Option.some_inj] at hvalue
  exact ⟨c, hc, hvalue, hreported⟩

end Cache

end StWin
