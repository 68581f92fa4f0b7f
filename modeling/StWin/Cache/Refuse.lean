import StWin.Cache.Runs

/-!
# Refused insertions

`stx_cache_entry_insert` removes entries of the LRU list until there is enough room or the list is
empty, and only then knows whether it can insert. Where it returns `-1` there was not enough room, and
the whole list is gone; or there was no slot, which can only be if the list was empty from the start,
since each entry that is removed leaves its slot. So a refused insertion removes the entries that
nobody holds, all of them, and changes nothing else (`run_refused`).
-/

namespace StWin.Cache

variable {K D : Type*} {p : CacheParams K} {c c' : Cache K D} {a a' : Lru K D}

/-- The entries that were cleaned up, in order. -/
def cleanups (log : List CNote) : List ℕ :=
  log.reverse.filterMap fun
    | .freed e => some e
    | _ => none

/-- The chains of the hash table and the LRU list. -/
structure Shape (p : CacheParams K) (c : Cache K D) (buckets : ℕ → List ℕ) (lru : List ℕ) : Prop where
  chained : ∀ b < p.hash_size, Chain.Linked c.chain (.head b) (buckets b)
  nodup : (entries p buckets).Nodup
  ring : Ring.IsRing c.lru .list (lru.map .entry)
  lru_nodup : lru.Nodup
  lru_mem : ∀ x ∈ lru, x ∈ entries p buckets

/-- The cache `c'` is `c` without the entries of its LRU list. -/
structure Drained (p : CacheParams K) (c c' : Cache K D) (buckets buckets' : ℕ → List ℕ)
    (lru : List ℕ) : Prop where
  before : Shape p c buckets lru
  after : Shape p c' buckets' []
  mem : ∀ x, x ∈ entries p buckets' ↔ x ∈ entries p buckets ∧ x ∉ lru
  size : c'.cur_size + lru.length = c.cur_size
  weight : c'.cur_weight + (lru.map fun x => (c.entry x).weight).sum ≡ c.cur_weight [MOD 2^p.size_bits]
  inserts : c'.inserts = c.inserts
  deletes : c'.deletes ≡ c.deletes + lru.length [MOD 2^p.ulong_bits]
  /-- Each of them is cleaned up, in the order of the list. -/
  cleaned : cleanups c'.log = cleanups c.log ++ lru
  kept : ∀ x ∉ lru, c'.entry x = c.entry x
  /-- With nothing to remove, nothing changes. -/
  unchanged : lru = [] → c' = c

/-! ## The operation itself -/

/-- A deletion is not counted as an insertion. -/
theorem entryDelete_inserts {e : ℕ} (h : c.entryDelete p e = some c') : c'.inserts = c.inserts := by
  unfold entryDelete at h
  split_ifs at h
  dsimp only at h
  split_ifs at h <;> cases h <;> rfl

/-- The loop that makes room counts no insertion. The induction is on the fuel. -/
theorem makeRoom_inserts {w fuel : ℕ} {ok : Bool} : ∀ {c : Cache K D},
    makeRoom p w fuel c = some (c', ok) → c'.inserts = c.inserts := by
  induction fuel with
  | zero => exact fun h => nomatch h
  | succ fuel ih =>
    intro c h
    rw [makeRoom] at h
    split_ifs at h with hover
    · split at h
      · cases h
        rfl
      · next old _ =>
        obtain ⟨c₁, hc₁, hrest⟩ := Option.bind_eq_some_iff.mp h
        rw [ih hrest]
        exact entryDelete_inserts (c := c.note (.gone old .evicted)) hc₁
    · cases h
      rfl

/-- A refusal is the end of one of the two attempts. -/
theorem entryInsert_refused {e : ℕ} (h : c.entryInsert p e = some (c', -1)) :
    makeRoom p (c.entry e).weight (c.created + 1) c = some (c', false) ∨
      ∃ c₁, makeRoom p (c.entry e).weight (c.created + 1) c = some (c₁, true) ∧
        makeSlot p c₁ = some (c', false) := by
  unfold entryInsert at h
  split_ifs at h with hlive
  obtain ⟨⟨c₁, room⟩, hc₁, h⟩ := Option.bind_eq_some_iff.mp h
  cases room with
  | false =>
    cases h
    exact Or.inl hc₁
  | true =>
    obtain ⟨⟨c₂, slot⟩, hc₂, h⟩ := Option.bind_eq_some_iff.mp h
    cases slot with
    | false =>
      cases h
      exact Or.inr ⟨c₁, hc₁, hc₂⟩
    | true =>
      obtain ⟨c₃, -, h⟩ := Option.bind_eq_some_iff.mp h
      cases h

/-- A slot that cannot be made leaves the cache as it is. -/
theorem makeSlot_refused (h : makeSlot p c = some (c', false)) : c' = c := by
  unfold makeSlot at h
  split_ifs at h with hfull
  · split at h
    · cases h
      rfl
    · obtain ⟨c₁, -, h⟩ := Option.map_eq_some_iff.mp h
      cases h
  · cases h

/-- With an empty LRU list the loop that makes room leaves the cache as it is. -/
theorem makeRoom_nil {w fuel : ℕ} {ok : Bool} (hlru : c.entryGetlru = none)
    (h : makeRoom p w fuel c = some (c', ok)) : c' = c := by
  cases fuel with
  | zero => cases h
  | succ fuel =>
    rw [makeRoom] at h
    split_ifs at h
    · rw [hlru] at h
      cases h
      rfl
    · cases h
      rfl

/-- A refused insertion is not counted. -/
theorem entryInsert_refused_inserts {e : ℕ} (h : c.entryInsert p e = some (c', -1)) :
    c'.inserts = c.inserts := by
  rcases entryInsert_refused h with h | ⟨c₁, h₁, h⟩
  · exact makeRoom_inserts h
  · rw [makeSlot_refused h, makeRoom_inserts h₁]

/-- With an empty LRU list a refused insertion leaves the cache as it is. -/
theorem entryInsert_refused_nil {e : ℕ} (hlru : c.entryGetlru = none)
    (h : c.entryInsert p e = some (c', -1)) : c' = c := by
  rcases entryInsert_refused h with h | ⟨c₁, h₁, h⟩
  · exact makeRoom_nil hlru h
  · rw [makeSlot_refused h, makeRoom_nil hlru h₁]

/-! ## What is left -/

/-- A refusal means that all idle entries are gone. -/
theorem Inserts.refused {e : ℕ} (h : Inserts p a e (-1) a') (hwf : a.WF)
    (hsize : a.table.card ≤ p.max_size) : a' = a.evict a.idle.length := by
  generalize hr : (-1 : ℤ) = r at h
  cases h with
  | noRoom => rfl
  | noSlot n room full none =>
    -- An entry that had been evicted would have left its slot.
    have hcard := (evict_measure hwf room.le).2
    have hn : n = 0 := by omega
    rw [hn] at none ⊢
    have hidle : a.idle = [] := none
    rw [hidle]
    rfl
  | done n s => cases hr

/-- The chains and the list of a cache that represents a map. -/
theorem Rep.shape {buckets : ℕ → List ℕ} (h : Rep p c a buckets) (hwf : a.WF) :
    Shape p c buckets a.idle where
  chained b _ := h.chain.linked b
  nodup := h.entries_nodup
  ring := h.ring
  lru_nodup := hwf.nodup
  lru_mem x hx := (h.mem_entries x).mpr ((hwf.ok x).idle.mp hx).1

/-- The map without its idle entries. -/
theorem Rep.drained {buckets buckets' : ℕ → List ℕ} (h : Rep p c a buckets) (hwf : a.WF)
    (h' : Rep p c' (a.evict a.idle.length) buckets') (hinserts : c'.inserts = c.inserts)
    (hnil : a.idle = [] → c' = c) : Drained p c c' buckets buckets' a.idle := by
  obtain ⟨hidle, htable, -, hentry⟩ := Lru.evict_spec hwf le_rfl
  obtain ⟨hweight, hcard⟩ := evict_measure hwf le_rfl
  rw [List.take_length] at htable hentry hweight
  rw [List.drop_length] at hidle
  refine ⟨h.shape hwf, ?_, ?_, ?_, ?_, hinserts, ?_, ?_, ?_, hnil⟩
  · rw [← hidle]
    exact h'.shape (Lru.evict_wf hwf _)
  · intro x
    rw [h'.mem_entries, h.mem_entries, htable]
  · rw [h'.size, h.size, hcard]
  · have hsame : (a.idle.map fun x => (c.entry x).weight).sum =
        (a.idle.map fun x => (a.entry x).weight).sum := by rw [h.entry]
    show (c'.cur_weight + _) % p.sizeMod = c.cur_weight % p.sizeMod
    rw [hsame, h'.weight, h.weight, Nat.mod_add_mod, hweight, Nat.mod_mod]
  · -- Insertions and deletions balance before and after.
    have hcount : c'.deletes + (a.evict a.idle.length).table.card ≡
        c.deletes + a.idle.length + (a.evict a.idle.length).table.card [MOD 2^p.ulong_bits] := by
      have hbefore : c.deletes + a.table.card ≡ c.inserts [MOD 2^p.ulong_bits] := h.count
      have hafter : c'.deletes + (a.evict a.idle.length).table.card ≡ c'.inserts
        [MOD 2^p.ulong_bits] := h'.count
      rw [hinserts] at hafter
      rw [← hcard] at hbefore
      refine hafter.trans (hbefore.symm.trans ?_)
      rw [Nat.add_assoc, Nat.add_comm a.idle.length]
    exact Nat.ModEq.add_right_cancel' _ hcount
  · have hclean := filterMap_evict (g := fun | .freed e => some e | _ => none) (fun _ => rfl) hwf le_rfl
    rw [List.take_length] at hclean
    rw [cleanups, cleanups, h'.log, h.log]
    exact hclean
  · intro x hx
    rw [h'.entry, h.entry]
    exact hentry x hx

/-- A refused insertion removes the entries of the LRU list and changes nothing else: after each
sequence of operations of clients, and for every entry that they may insert, of any weight, if
`stx_cache_entry_insert` returns `-1`, then what it leaves is as `Drained` says. -/
theorem run_refused (p : CacheParams K) (x : CEntry K D) (n : Ring.Links LruNode)
    (ops : List (Op K D)) (hops : Runs.Meets (step p) Client (init x n) ops) :
    ∃ c, Runs.run (step p) (init x n) ops = some c ∧
      ∀ e, c.Client (.insert e) → ∀ c', c.entryInsert p e = some (c', -1) →
        ∃ buckets buckets' lru, Drained p c c' buckets buckets' lru := by
  obtain ⟨c, hc, a, ⟨buckets, hrep⟩, hwf, -⟩ := Runs.run_total step_inv (init_inv p x n) hops
  refine ⟨c, hc, fun e hclient c' hc' => ?_⟩
  obtain ⟨hlt, hins, hfreed⟩ := hclient
  rw [hrep.log] at hins hfreed
  rw [hrep.created] at hlt
  have hfresh : a.Fresh e := ⟨hlt, hwf.live_of_not_freed hlt hfreed,
    fun hmem => hins ((hwf.ok e).inserted hmem)⟩
  obtain ⟨c₁, r, a', hc₁, hinserts, buckets', hrep'⟩ := entryInsert_spec ⟨buckets, hrep⟩ hwf hfresh
  rw [hc'] at hc₁
  cases hc₁
  rw [hinserts.refused hwf hrep.size_le] at hrep'
  refine ⟨buckets, buckets', a.idle, hrep.drained hwf hrep' (entryInsert_refused_inserts hc') ?_⟩
  intro hidle
  refine entryInsert_refused_nil ?_ hc'
  rw [entryGetlru_eq ⟨buckets, hrep⟩, hidle]
  rfl

/-- An entry that nobody holds, and a new one that is heavier than the cache. -/
def tooHeavy : List (Op ℕ Unit) := [.create 1 () 4, .insert 0, .release 0, .create 2 () 11]

/-- The run is possible, and the refused insertion drains the cache. -/
theorem run_refused_tooHeavy : ∃ c, Runs.run (step twoEntries) newCache tooHeavy = some c ∧
    ∀ c', c.entryInsert twoEntries 1 = some (c', -1) →
      ∃ buckets buckets' lru, Drained twoEntries c c' buckets buckets' lru := by
  obtain ⟨c, hc, h⟩ := run_refused twoEntries _ _ tooHeavy
    (show Runs.Meets (step twoEntries) Client newCache tooHeavy by decide +kernel)
  have hclient : (Runs.run (step twoEntries) newCache tooHeavy).all
      (fun c => decide (c.Client (.insert 1))) = true := by decide +kernel
  have hc' : Runs.run (step twoEntries) newCache tooHeavy = some c := hc
  rw [hc', Option.all_some, decide_eq_true_eq] at hclient
  exact ⟨c, hc, h 1 hclient⟩

/-- The new entry is refused, and the other one is gone. -/
theorem refused_cleans_up : ∃ c c', Runs.run (step twoEntries) newCache tooHeavy = some c ∧
    c.entryInsert twoEntries 1 = some (c', -1) ∧
    (c.cur_size, c.cur_weight, c.deletes) = (1, 4, 0) ∧ cleanups c.log = [] ∧
    (c'.cur_size, c'.cur_weight, c'.deletes) = (0, 0, 1) ∧ cleanups c'.log = [0] := by
  obtain ⟨c, hc⟩ : ∃ c, Runs.run (step twoEntries) newCache tooHeavy = some c :=
    Option.isSome_iff_exists.mp (by decide +kernel)
  have hbefore : (Runs.run (step twoEntries) newCache tooHeavy).map
      (fun c => ((c.cur_size, c.cur_weight, c.deletes), cleanups c.log)) = some ((1, 4, 0), []) := by
    decide +kernel
  have hafter : ((Runs.run (step twoEntries) newCache tooHeavy).bind (·.entryInsert twoEntries 1)).map
      (fun q => (q.2, (q.1.cur_size, q.1.cur_weight, q.1.deletes), cleanups q.1.log)) =
      some (-1, (0, 0, 1), [0]) := by decide +kernel
  rw [hc, Option.map_some, Option.some_inj, Prod.mk.injEq] at hbefore
  rw [hc, Option.bind_some, Option.map_eq_some_iff] at hafter
  obtain ⟨⟨c', r⟩, hc', hafter⟩ := hafter
  rw [Prod.mk.injEq, Prod.mk.injEq] at hafter
  obtain ⟨rfl, hcounts, hclean⟩ := hafter
  exact ⟨c, c', hc, hc', hbefore.1, hbefore.2, hcounts, hclean⟩

end StWin.Cache
