import StWin.Cache.Ops
import Mathlib.Algebra.Order.BigOperators.Group.Finset
import Mathlib.Data.Nat.ModEq

/-!
# Runs of the cache

Any number of clients insert fresh entries, look up keys, release handles that they hold, and delete
entries. Each operation of theirs succeeds and moves the map that the cache represents, which is
`step_moves`. From this follow the shape of the pointer structures in each state of a run
(`run_represented`), what the cache answers and whom it evicts (`run_refines_lru`), and that no entry
is freed while somebody holds it (`run_freed_once`).
-/

namespace StWin.Cache

variable {K D : Type*} {p : CacheParams K} {c : Cache K D} {a : Lru K D}

/-- A step of the map. -/
inductive Moves (p : CacheParams K) (a : Lru K D) : Op K D → Lru K D → Prop
  | create (key : K) (data : D) (weight : ℕ) :
      Moves p a (.create key data weight) (a.make key data (weight % p.sizeMod))
  | insert {e : ℕ} (fresh : a.Fresh e) {r : ℤ} {a' : Lru K D} (inserts : Inserts p a e r a') :
      Moves p a (.insert e) a'
  | lookup {key : K} {r : Option ℕ} (found : Found p a key r) : Moves p a (.lookup key) (r.elim a a.take)
  | release {e : ℕ} (mem : e ∈ a.table) (held : 0 < (a.entry e).ref_count) :
      Moves p a (.release e) (a.release e)
  | delete {e : ℕ} (live : e < a.created ∧ (a.entry e).live = true) :
      Moves p a (.delete e) (a.delete e .deleted)
  | empty {es : List ℕ} (nodup : es.Nodup) (mem : ∀ e, e ∈ es ↔ e ∈ a.table) (wf : (deleteAll a es).WF) :
      Moves p a .empty (deleteAll a es)

/-- An operation of a client succeeds, and moves the map. -/
theorem step_moves (h : Reps p c a) (hwf : a.WF) {op : Op K D} (hop : c.Client op) :
    ∃ c' a', c.step p op = some c' ∧ Moves p a op a' ∧ Reps p c' a' := by
  have hlog : c.log = a.log := by
    obtain ⟨buckets, h⟩ := h
    exact h.log
  have hcreated : c.created = a.created := by
    obtain ⟨buckets, h⟩ := h
    exact h.created
  cases op with
  | create key data weight =>
    exact ⟨_, _, rfl, .create key data weight, entryCreate_spec h key data weight hwf⟩
  | insert e =>
    -- An entry that was not inserted, nor freed, is a fresh one.
    obtain ⟨hlt, hins, hfreed⟩ := hop
    rw [hlog] at hins hfreed
    rw [hcreated] at hlt
    have hfresh : a.Fresh e := ⟨hlt, hwf.live_of_not_freed hlt hfreed,
      fun hmem => hins ((hwf.ok e).inserted hmem)⟩
    obtain ⟨c', r, a', hc', hinserts, h'⟩ := entryInsert_spec h hwf hfresh
    exact ⟨c', a', by simp [step, hc'], .insert hfresh hinserts, h'⟩
  | lookup key =>
    obtain ⟨c', r, hc', hfound, h'⟩ := entryLookup_spec h hwf key
    exact ⟨c', _, by simp [step, hc'], .lookup hfound, h'⟩
  | release e =>
    -- Who has a handle holds an entry of the map.
    change 0 < handles c.log e at hop
    rw [hlog] at hop
    have hmem := hwf.mem_of_handles hop
    have hheld : 0 < (a.entry e).ref_count := by
      rw [hwf.ref_eq_handles hmem]
      exact hop
    obtain ⟨c', hc', h'⟩ := entryRelease_spec h hwf hmem hheld
    exact ⟨c', _, hc', .release hmem hheld, h'⟩
  | delete e =>
    -- An entry that is not freed may be deleted, in the map or not.
    obtain ⟨hlt, hfreed⟩ := hop
    rw [hlog] at hfreed
    rw [hcreated] at hlt
    have hlive := hwf.live_of_not_freed hlt hfreed
    obtain ⟨c', hc', h'⟩ := entryDelete_spec h hwf ⟨hlt, hlive⟩ .deleted
    exact ⟨c', _, hc', .delete ⟨hlt, hlive⟩, h'⟩
  | empty =>
    obtain ⟨c', es, hc', hnodup, hmem, h', hwf'⟩ := empty_spec h hwf
    exact ⟨c', _, hc', .empty hnodup hmem hwf', h'⟩

/-- An insertion keeps the map in order. -/
theorem Inserts.wf {e : ℕ} {r : ℤ} {a' : Lru K D} (h : Inserts p a e r a') (hwf : a.WF) : a'.WF := by
  cases h with
  | noRoom => exact Lru.evict_wf hwf _
  | noSlot n _ _ _ => exact Lru.evict_wf hwf n
  | done n s _ _ _ dup _ wf fresh _ _ => exact Lru.add_wf wf fresh.lt fresh.live fresh.not_mem

/-- An operation keeps the map in order. -/
theorem Moves.wf {op : Op K D} {a' : Lru K D} (h : Moves p a op a') (hwf : a.WF) : a'.WF := by
  cases h with
  | create key data weight => exact Lru.make_wf hwf key data _
  | insert _ inserts => exact inserts.wf hwf
  | @lookup key r found =>
    cases r with
    | none => exact hwf
    | some e => exact Lru.take_wf hwf (found.hit e rfl).1
  | release mem held => exact Lru.release_wf hwf mem held
  | delete live => exact Lru.delete_wf hwf live .deleted
  | empty _ _ wf => exact wf

/-! ## Equal keys -/

/-- Deletions insert nothing, so the older one of two entries with equal keys is still gone. -/
theorem older_deleteAll (h : a.Older p) (es : List ℕ) : (deleteAll a es).Older p := by
  induction es generalizing a with
  | nil => exact h
  | cons e es ih => exact ih (h.delete e .emptied)

/-- The entry with the same key is deleted before a new one is inserted. -/
theorem Inserts.older {e : ℕ} {r : ℤ} {a' : Lru K D} (h : Inserts p a e r a') (hp : p.Lawful)
    (hwf : a.WF) (hold : a.Older p) : a'.Older p := by
  cases h with
  | noRoom => exact hold.evict _
  | noSlot n _ _ _ => exact hold.evict n
  | done n s _ _ _ dup found wf fresh entry sub =>
    have hevict := hold.evict (n + s)
    cases dup with
    | none =>
      refine hevict.add wf fun x hx hpend hsame => ?_
      change (a.evict (n + s)).entry e = a.entry e at entry
      rw [entry] at hsame
      exact found.lawful hp rfl x hx hpend hsame
    | some y =>
      obtain ⟨hy, hpy, hsy⟩ := found.hit y rfl
      refine (hevict.delete y .replaced).add wf fun x hx hpend hsame => ?_
      -- The duplicate was the only entry with the key, and it is gone or marked.
      have hne := Lru.ne_of_delete hx hpend
      change ((a.evict (n + s)).delete y .replaced).entry e = a.entry e at entry
      rw [entry, Lru.delete_entry_of_ne hne] at hsame
      rw [Lru.delete_entry_of_ne hne] at hpend
      exact hne (Lru.eq_of_same hp (Lru.evict_wf hwf _) hevict (sub hx) hy hpend hpy
        (hp.trans (hp.symm hsame) hsy))

/-- After each operation, the older one of two entries with equal keys is gone. -/
theorem Moves.older {op : Op K D} {a' : Lru K D} (h : Moves p a op a') (hp : p.Lawful) (hwf : a.WF)
    (hold : a.Older p) : a'.Older p := by
  cases h with
  | create key data weight => exact hold.make hwf key data _
  | insert _ inserts => exact inserts.older hp hwf hold
  | @lookup key r found =>
    cases r with
    | none => exact hold
    | some e => exact hold.take e
  | release _ _ => exact hold.release _
  | delete _ => exact hold.delete _ .deleted
  | empty _ _ _ => exact older_deleteAll hold _

/-! ## Weights -/

/-- A table with fewer entries is not heavier. -/
theorem weight_le {a a' : Lru K D} (hsub : a'.table ⊆ a.table)
    (hsame : ∀ e ∈ a'.table, (a'.entry e).weight = (a.entry e).weight) : a'.weight ≤ a.weight :=
  calc a'.weight = ∑ e ∈ a'.table, (a.entry e).weight := Finset.sum_congr rfl hsame
    _ ≤ a.weight := Finset.sum_le_sum_of_subset hsub

/-- A deletion makes the map lighter, if anything. -/
theorem delete_weight_le (a : Lru K D) (e : ℕ) (why : Why) : (a.delete e why).weight ≤ a.weight := by
  refine weight_le (Lru.delete_table_subset a e why) fun x _ => ?_
  unfold Lru.delete
  split_ifs
  · exact (Lru.keeps_of_update rfl (by rfl) (by rfl) x).2
  · exact (Lru.keeps_of_update rfl (by rfl) (by rfl) x).2

/-- Evictions make the map lighter, if anything. -/
theorem evict_weight_le (hwf : a.WF) {n : ℕ} (hn : n ≤ a.idle.length) : (a.evict n).weight ≤ a.weight := by
  obtain ⟨-, htable, -, hentry⟩ := Lru.evict_spec hwf hn
  refine weight_le (fun x hx => ((htable x).mp hx).1) fun x hx => ?_
  rw [hentry x ((htable x).mp hx).2]

/-- Deletions make the map lighter, if anything. -/
theorem deleteAll_weight_le (a : Lru K D) (es : List ℕ) : (deleteAll a es).weight ≤ a.weight := by
  induction es generalizing a with
  | nil => exact le_rfl
  | cons e es ih => exact (ih _).trans (delete_weight_le a e .emptied)

/-- The removal of the entry with the same key makes the map lighter, if anything. -/
theorem replace_weight_le (a : Lru K D) (dup : Option ℕ) : (a.replace dup).weight ≤ a.weight := by
  cases dup with
  | none => exact le_rfl
  | some e => exact delete_weight_le a e .replaced

/-- After the evictions there is room. -/
theorem Inserts.weight_le {e : ℕ} {r : ℤ} {a' : Lru K D} (h : Inserts p a e r a') (hwf : a.WF)
    (hle : a.weight ≤ p.max_weight) (hfits : a.weight + (a.entry e).weight < p.sizeMod) :
    a'.weight ≤ p.max_weight := by
  cases h with
  | noRoom => exact (evict_weight_le hwf le_rfl).trans hle
  | noSlot n room _ _ => exact (evict_weight_le hwf room.le).trans hle
  | done n s room slot le dup _ _ fresh entry _ =>
    have hfirst := evict_weight_le hwf room.le
    have hroom := room.fits
    rw [Lru.Over, Nat.mod_eq_of_lt (by omega), not_lt] at hroom
    have hmore : (a.evict (n + s)).weight ≤ (a.evict n).weight := by
      rw [← Lru.evict_evict]
      refine evict_weight_le (Lru.evict_wf hwf n) ?_
      rw [(Lru.evict_spec hwf room.le).1, List.length_drop]
      omega
    have hdup := replace_weight_le (a.evict (n + s)) dup
    rw [add_weight fresh.not_mem, entry]
    omega

/-- The weight of the table stays within the limit. -/
theorem Moves.weight_le {op : Op K D} {a' : Lru K D} (h : Moves p a op a') (hrep : Reps p c a)
    (hwf : a.WF) (hle : a.weight ≤ p.max_weight) (hfits : c.Fits p op) : a'.weight ≤ p.max_weight := by
  obtain ⟨buckets, hrep⟩ := hrep
  have hlt : a.weight < p.sizeMod := lt_of_le_of_lt hle p.max_weight_lt
  have hcur : c.cur_weight = a.weight := by rw [hrep.weight, Nat.mod_eq_of_lt hlt]
  -- Apart from insertions no entry comes to the table, and no weight changes.
  have hkeep : ∀ {a' : Lru K D}, a'.table ⊆ a.table →
      (∀ e ∈ a'.table, (a'.entry e).weight = (a.entry e).weight) → a'.weight ≤ p.max_weight :=
    fun hsub hsame => (Cache.weight_le hsub hsame).trans hle
  cases h with
  | create key data weight =>
    refine hkeep (Finset.Subset.refl _) fun x hx => ?_
    have hne : x ≠ a.created := by
      rintro rfl
      exact absurd ((hwf.ok _).live hx).1 (lt_irrefl _)
    rw [Lru.make_entry, Function.update_of_ne hne]
  | @insert e _ r a' inserts =>
    refine inserts.weight_le hwf hle ?_
    change c.cur_weight + (c.entry e).weight < p.sizeMod at hfits
    rw [hcur, hrep.entry] at hfits
    exact hfits
  | @lookup key r found =>
    cases r with
    | none => exact hle
    | some e =>
      exact hkeep (Finset.Subset.refl _) fun x _ => (Lru.keeps_of_update rfl (by rfl) (by rfl) x).2
  | @release e _ _ =>
    unfold Lru.release
    split_ifs
    · exact hkeep (Finset.Subset.refl _) fun x _ => (Lru.keeps_of_update rfl (by rfl) (by rfl) x).2
    · exact hkeep (Finset.erase_subset _ _) fun x _ => (Lru.keeps_of_update rfl (by rfl) (by rfl) x).2
    · exact hkeep (Finset.Subset.refl _) fun x _ => (Lru.keeps_of_update rfl (by rfl) (by rfl) x).2
  | delete _ => exact (delete_weight_le a _ .deleted).trans hle
  | empty _ _ _ => exact (deleteAll_weight_le a _).trans hle

/-! ## The start -/

/-- The map of a new cache. -/
def initLru (x : CEntry K D) : Lru K D := ⟨fun _ => { x with live := false }, 0, [], ∅, []⟩

/-- `stx_cache_create` represents the empty map. -/
theorem init_reps (p : CacheParams K) (x : CEntry K D) (n : Ring.Links LruNode) :
    Reps p (init x n) (initLru x) := by
  refine ⟨fun _ => [], ?_⟩
  constructor
  · rfl
  · rfl
  · rfl
  · exact ⟨fun _ => rfl, fun _ => List.nodup_nil, fun hx => absurd hx List.not_mem_nil⟩
  · simp [initLru]
  · exact fun hx => absurd hx List.not_mem_nil
  · exact fun e he => absurd he (Nat.not_lt_zero e)
  · exact Ring.init_isRing n .list
  · rfl
  · exact Nat.zero_le _
  · simp [init, initLru, Lru.weight]
  · exact fun e he => absurd he (Nat.not_lt_zero e)
  · rfl

/-- The empty map is in order. -/
theorem initLru_wf (x : CEntry K D) : (initLru x).WF := by
  constructor
  · intro e
    constructor <;> simp [initLru]
  · exact List.nodup_nil
  · simp [initLru]
  · exact List.Pairwise.nil
  · intro e before hsuff
    exact absurd (List.suffix_nil.mp hsuff) (by simp)

/-- A cache that clients have used. -/
def Inv (p : CacheParams K) (c : Cache K D) : Prop :=
  ∃ a, Reps p c a ∧ a.WF ∧ (p.Lawful → a.Older p)

/-- The invariant holds at the start. -/
theorem init_inv (p : CacheParams K) (x : CEntry K D) (n : Ring.Links LruNode) : Inv p (init x n) :=
  ⟨initLru x, init_reps p x n, initLru_wf x, fun _ => List.Pairwise.nil⟩

/-- An operation of a client goes through, and keeps the invariant. -/
theorem step_inv {op : Op K D} (h : Inv p c) (hop : c.Client op) :
    ∃ c', c.step p op = some c' ∧ Inv p c' := by
  obtain ⟨a, hrep, hwf, hold⟩ := h
  obtain ⟨c', a', hc', hmoves, hrep'⟩ := step_moves hrep hwf hop
  exact ⟨c', hc', a', hrep', hmoves.wf hwf, fun hp => hmoves.older hp hwf (hold hp)⟩

/-- The same for clients whose weights do not overflow. -/
def FitInv (p : CacheParams K) (c : Cache K D) : Prop :=
  ∃ a, Reps p c a ∧ a.WF ∧ (p.Lawful → a.Older p) ∧ a.weight ≤ p.max_weight

/-- An operation of a client whose weights fit goes through, and keeps the invariant with the bound on the
weights. -/
theorem step_fitInv {op : Op K D} (h : FitInv p c) (hop : c.Client op ∧ c.Fits p op) :
    ∃ c', c.step p op = some c' ∧ FitInv p c' := by
  obtain ⟨a, hrep, hwf, hold, hle⟩ := h
  obtain ⟨c', a', hc', hmoves, hrep'⟩ := step_moves hrep hwf hop.1
  exact ⟨c', hc', a', hrep', hmoves.wf hwf, fun hp => hmoves.older hp hwf (hold hp),
    hmoves.weight_le hrep hwf hle hop.2⟩

/-- The invariant with the bound holds at the start. -/
theorem init_fitInv (p : CacheParams K) (x : CEntry K D) (n : Ring.Links LruNode) :
    FitInv p (init x n) :=
  ⟨initLru x, init_reps p x n, initLru_wf x, fun _ => List.Pairwise.nil, by
    simp [initLru, Lru.weight]⟩

/-! ## The representation -/

/-- The pointer structures and the counters of a cache whose chains are `buckets` and whose LRU list
is `lru`. -/
structure Represented (p : CacheParams K) (c : Cache K D) (buckets : ℕ → List ℕ) (lru : List ℕ) :
    Prop where
  /-- Each `pthis` points at the link that points to the entry. -/
  chained : ∀ b < p.hash_size, Chain.Linked c.chain (.head b) (buckets b)
  nodup : (entries p buckets).Nodup
  bucket : ∀ b < p.hash_size, ∀ e ∈ buckets b, b = p.bucket (c.entry e).key
  ring : Ring.IsRing c.lru .list (lru.map .entry)
  lru_nodup : lru.Nodup
  lru_iff : ∀ e, e ∈ lru ↔ e ∈ entries p buckets ∧ (c.entry e).ref_count = 0
  size : c.cur_size = (entries p buckets).length
  weight : c.cur_weight = ((entries p buckets).map fun e => (c.entry e).weight).sum
  count : c.inserts ≡ c.deletes + c.cur_size [MOD 2^p.ulong_bits]
  size_le : c.cur_size ≤ p.max_size
  weight_le : c.cur_weight ≤ p.max_weight
  keys : ∀ e ∈ entries p buckets, ∀ e' ∈ entries p buckets, (c.entry e).delete_pending = false →
    (c.entry e').delete_pending = false → p.Same (c.entry e).key (c.entry e').key → e = e'

/-- The cache is well represented if it represents a map in order. -/
theorem Rep.represented {buckets : ℕ → List ℕ} (h : Rep p c a buckets) (hp : p.Lawful) (hwf : a.WF)
    (hold : a.Older p) (hle : a.weight ≤ p.max_weight) : Represented p c buckets a.idle := by
  have hlt : a.weight < p.sizeMod := lt_of_le_of_lt hle p.max_weight_lt
  have hweight : c.cur_weight = a.weight := by rw [h.weight, Nat.mod_eq_of_lt hlt]
  constructor
  · exact fun b _ => h.chain.linked b
  · exact h.entries_nodup
  · intro b _ e he
    rw [h.entry]
    exact h.hash he
  · exact h.ring
  · exact hwf.nodup
  · intro e
    rw [h.mem_entries, h.entry]
    exact (hwf.ok e).idle
  · rw [h.size, h.table_eq, List.toFinset_card_of_nodup h.entries_nodup]
  · rw [hweight, Lru.weight, h.table_eq, List.sum_toFinset _ h.entries_nodup, h.entry]
  · rw [h.size]
    exact h.count.symm
  · rw [h.size]
    exact h.size_le
  · rw [hweight]
    exact hle
  · intro e he e' he' hpe hpe' hsame
    rw [h.entry] at hpe hpe' hsame
    rw [h.mem_entries] at he he'
    exact Lru.eq_of_same hp hwf hold he he' hpe hpe' hsame

/-- Each sequence of operations of clients succeeds, and leaves chains, LRU list, and counters as
`Represented` says. -/
theorem run_represented (p : CacheParams K) (hp : p.Lawful) (x : CEntry K D)
    (n : Ring.Links LruNode) (ops : List (Op K D))
    (hops : Runs.Meets (step p) (fun c op => c.Client op ∧ c.Fits p op) (init x n) ops) :
    ∃ c, Runs.run (step p) (init x n) ops = some c ∧ ∃ buckets lru, Represented p c buckets lru := by
  obtain ⟨c, hc, a, ⟨buckets, hrep⟩, hwf, hold, hle⟩ :=
    Runs.run_total step_fitInv (init_fitInv p x n) hops
  exact ⟨c, hc, buckets, a.idle, hrep.represented hp hwf (hold hp) hle⟩

/-- Two entries with numbers as keys, and a weight of at most ten. -/
def twoEntries : CacheParams ℕ where
  size_bits := 64
  ulong_bits := 32
  max_size := 2
  max_weight := 10
  hash_size := 4
  key_hash_fn := fun key => key
  key_cmp_fn := fun key key' => key - key'
  max_size_lt := by decide
  max_weight_lt := by decide
  hash_size_pos := by decide

/-- The equality of numbers is a lawful comparison. -/
theorem twoEntries_lawful : twoEntries.Lawful := by
  have hsame : ∀ k k', twoEntries.Same k k' ↔ k = k' := by
    intro k k'
    show (k : ℤ) - k' = 0 ↔ k = k'
    omega
  constructor
  · exact fun k => (hsame k k).mpr rfl
  · exact fun h => (hsame _ _).mpr ((hsame _ _).mp h).symm
  · exact fun h h' => (hsame _ _).mpr (((hsame _ _).mp h).trans ((hsame _ _).mp h'))
  · intro k k' h
    rw [(hsame k k').mp h]

/-- A new cache. -/
def newCache : Cache ℕ Unit := init ⟨0, (), 0, 0, false, false⟩ ⟨fun n => n, fun n => n⟩

/-- An entry is replaced while two handles on it are held, and freed with the second one. The entry
that replaced it is evicted then. -/
def replacesHeld : List (Op ℕ Unit) :=
  [.create 1 () 4, .insert 0, .lookup 1, .create 1 () 5, .insert 1, .release 0, .release 0, .release 1,
    .create 2 () 6, .insert 2]

/-- After these operations the cache has one entry, of weight `6`. -/
theorem run_represented_replacesHeld : ∃ c, Runs.run (step twoEntries) newCache replacesHeld = some c ∧
    (∃ buckets lru, Represented twoEntries c buckets lru) ∧ c.cur_size = 1 ∧ c.cur_weight = 6 := by
  obtain ⟨c, hc, hrep⟩ := run_represented twoEntries twoEntries_lawful _ _ replacesHeld
    (show Runs.Meets (step twoEntries) (fun c op => c.Client op ∧ c.Fits twoEntries op) newCache
      replacesHeld by decide +kernel)
  have hvalue : (Runs.run (step twoEntries) newCache replacesHeld).map
      (fun c => (c.cur_size, c.cur_weight)) = some (1, 6) := by decide +kernel
  have hc' : Runs.run (step twoEntries) newCache replacesHeld = some c := hc
  rw [hc', Option.map_some, Option.some_inj, Prod.mk.injEq] at hvalue
  exact ⟨c, hc, hrep, hvalue⟩

/-! ## The LRU map -/

/-- The entries that were evicted, in order. -/
def evictions (log : List CNote) : List ℕ :=
  log.reverse.filterMap fun
    | .gone e .evicted => some e
    | _ => none

/-- A part of the record that has each eviction once. -/
theorem filterMap_evict {g : CNote → Option ℕ}
    (hg : ∀ e, [CNote.gone e .evicted, .freed e].filterMap g = [e]) (hwf : a.WF) {n : ℕ}
    (hn : n ≤ a.idle.length) :
    (a.evict n).log.reverse.filterMap g = a.log.reverse.filterMap g ++ a.idle.take n := by
  induction n generalizing a with
  | zero => simp [Lru.evict]
  | succ n ih =>
    cases hidle : a.idle with
    | nil => simp [hidle] at hn
    | cons e es =>
      obtain ⟨-, -, hwf', hes⟩ := hwf.discard_head hidle
      rw [hidle, List.length_cons] at hn
      have hrest := ih hwf' (by rw [hes]; omega)
      rw [hes] at hrest
      have hlog : (a.discard e .evicted).log.reverse = a.log.reverse ++ [.gone e .evicted, .freed e] := by
        simp
      simp only [Lru.evict, hidle, List.take_succ_cons]
      rw [hrest, hlog, List.filterMap_append, hg, List.append_assoc]
      rfl

/-- Evictions are recorded in the order of the idle entries. -/
theorem evictions_evict (hwf : a.WF) {n : ℕ} (hn : n ≤ a.idle.length) :
    evictions (a.evict n).log = evictions a.log ++ a.idle.take n :=
  filterMap_evict (fun _ => rfl) hwf hn

/-- A replaced entry is not an evicted one. -/
theorem evictions_replace_add (a : Lru K D) (dup : Option ℕ) (e : ℕ) :
    evictions ((a.replace dup).add e).log = evictions a.log := by
  cases dup with
  | none => simp [Lru.replace, evictions]
  | some x =>
    simp only [Lru.replace, Option.elim_some, Lru.delete]
    split_ifs
    · simp [evictions]
    · simp [evictions]

/-- The weight and the number of the evicted entries are missing afterwards. -/
theorem evict_measure (hwf : a.WF) {n : ℕ} (hn : n ≤ a.idle.length) :
    (a.evict n).weight + ((a.idle.take n).map fun e => (a.entry e).weight).sum = a.weight ∧
      (a.evict n).table.card + n = a.table.card := by
  obtain ⟨-, htable, -, hentry⟩ := Lru.evict_spec hwf hn
  have hnodup : (a.idle.take n).Nodup := hwf.nodup.sublist (List.take_sublist n _)
  have hsub : (a.idle.take n).toFinset ⊆ a.table := by
    intro x hx
    exact ((hwf.ok x).idle.mp (List.mem_of_mem_take (List.mem_toFinset.mp hx))).1
  have heq : (a.evict n).table = a.table \ (a.idle.take n).toFinset := by
    ext x
    rw [htable, Finset.mem_sdiff, List.mem_toFinset]
  constructor
  · calc (a.evict n).weight + ((a.idle.take n).map fun e => (a.entry e).weight).sum
        = ∑ e ∈ a.table \ (a.idle.take n).toFinset, (a.entry e).weight +
            ∑ e ∈ (a.idle.take n).toFinset, (a.entry e).weight := by
          rw [List.sum_toFinset _ hnodup, Lru.weight, heq]
          congr 1
          refine Finset.sum_congr rfl fun x hx => ?_
          rw [hentry x fun hmem => (Finset.mem_sdiff.mp hx).2 (List.mem_toFinset.mpr hmem)]
      _ = a.weight := Finset.sum_sdiff hsub
  · have hcard := Finset.card_sdiff_add_card_eq_card hsub
    rw [List.toFinset_card_of_nodup hnodup, List.length_take, min_eq_left hn, ← heq] at hcard
    exact hcard

/-- The weight that the cache would have with an entry of the weight `w` and without the first `m`
entries of the LRU list is too much. -/
def Heavy (p : CacheParams K) (c : Cache K D) (lru : List ℕ) (w m : ℕ) : Prop :=
  p.max_weight < c.cur_weight - ((lru.take m).map fun e => (c.entry e).weight).sum + w

/-- The answers of a cache with the LRU list `lru`, and its evictions. -/
structure IsLru (p : CacheParams K) (c : Cache K D) (lru : List ℕ) : Prop where
  ring : Ring.IsRing c.lru .list (lru.map .entry)
  /-- A lookup returns the entry that was inserted last under the key, if it was not deleted. -/
  lookup : ∀ key, ∃ c', c.entryLookup p key = some (c', Lru.current p c.entry c.log key)
  /-- The LRU list is ordered by the times of the last releases. -/
  noted : ∀ e ∈ lru, .idle e ∈ c.log
  order : lru.Pairwise fun x y => Lru.time c.log x < Lru.time c.log y
  /-- An insertion evicts the shortest prefix of the LRU list for which the weight fits, and one more
  entry if there is no slot. -/
  evicts : ∀ e, c.Client (.insert e) → c.Fits p (.insert e) → ∀ c',
    c.entryInsert p e = some (c', 0) → ∃ n ≤ lru.length,
      (∀ m < n, Heavy p c lru (c.entry e).weight m) ∧ ¬Heavy p c lru (c.entry e).weight n ∧
      evictions c'.log = evictions c.log ++
        lru.take (n + if p.max_size ≤ c.cur_size - n then 1 else 0)

/-- After `m` evictions the cache is too heavy exactly if the map is. -/
theorem Rep.over_iff {buckets : ℕ → List ℕ} (h : Rep p c a buckets) (hwf : a.WF)
    (hle : a.weight ≤ p.max_weight) {w m : ℕ} (hfits : c.cur_weight + w < p.sizeMod)
    (hm : m ≤ a.idle.length) : (a.evict m).Over p w ↔ Heavy p c a.idle w m := by
  have hlt : a.weight < p.sizeMod := lt_of_le_of_lt hle p.max_weight_lt
  have hcur : c.cur_weight = a.weight := by rw [h.weight, Nat.mod_eq_of_lt hlt]
  have hsum := (evict_measure hwf hm).1
  rw [Lru.Over, Heavy, hcur, h.entry]
  rw [hcur] at hfits
  rw [Nat.mod_eq_of_lt (by omega)]
  have heq : a.weight - ((a.idle.take m).map fun e => (a.entry e).weight).sum = (a.evict m).weight := by
    omega
  rw [heq]

/-- The cache is an LRU map if it represents one in order. -/
theorem Rep.isLru {buckets : ℕ → List ℕ} (h : Rep p c a buckets) (hp : p.Lawful) (hwf : a.WF)
    (hold : a.Older p) (hle : a.weight ≤ p.max_weight) : IsLru p c a.idle := by
  constructor
  · exact h.ring
  · -- A lookup finds the current entry of its key.
    intro key
    obtain ⟨c', r, hc', hfound, -⟩ := entryLookup_spec ⟨buckets, h⟩ hwf key
    refine ⟨c', ?_⟩
    rw [hc', h.entry, h.log, ← Lru.eq_current hp hwf hold hfound.hit (hfound.lawful hp)]
  · rw [h.log]
    exact hwf.noted
  · rw [h.log]
    exact hwf.order
  · -- An insertion that succeeds has evicted no more than it had to.
    intro e hclient hfits c' hc'
    obtain ⟨hlt, hins, hfreed⟩ := hclient
    change c.cur_weight + (c.entry e).weight < p.sizeMod at hfits
    rw [h.log] at hins hfreed
    rw [h.created] at hlt
    have hfresh : a.Fresh e := ⟨hlt, hwf.live_of_not_freed hlt hfreed,
      fun hmem => hins ((hwf.ok e).inserted hmem)⟩
    obtain ⟨c₁, r, a', hc₁, hinserts, h₁⟩ := entryInsert_spec ⟨buckets, h⟩ hwf hfresh
    obtain ⟨rfl, rfl⟩ : c₁ = c' ∧ r = 0 := by
      rw [hc'] at hc₁
      cases hc₁
      exact ⟨rfl, rfl⟩
    have hlog : c₁.log = a'.log := by
      obtain ⟨buckets₁, h₁⟩ := h₁
      exact h₁.log
    generalize hr : (0 : ℤ) = r at hinserts
    cases hinserts with
    -- It has succeeded, so room and a slot were found.
    | noRoom => cases hr
    | noSlot n room full none => cases hr
    | done n s room slot le dup found wf fresh entry sub =>
      have hcard := (evict_measure hwf room.le).2
      rw [h.entry] at hfits
      refine ⟨n, room.le, fun m hm => ?_, fun hheavy => ?_, ?_⟩
      · -- Before the last eviction for its sake the weight was too much, and behind it is not.
        rw [h.entry]
        exact (h.over_iff hwf hle hfits ((Nat.le_of_lt hm).trans room.le)).mp (room.exceeds m hm)
      · rw [h.entry] at hheavy
        exact room.fits ((h.over_iff hwf hle hfits room.le).mpr hheavy)
      · rw [hlog, evictions_replace_add, evictions_evict hwf le, h.log, slot, h.size,
          show a.table.card - n = (a.evict n).table.card by omega]

/-- The cache is an LRU map: after each sequence of operations of clients its answers, the order of
its LRU list, and its evictions are as `IsLru` says. -/
theorem run_refines_lru (p : CacheParams K) (hp : p.Lawful) (x : CEntry K D)
    (n : Ring.Links LruNode) (ops : List (Op K D))
    (hops : Runs.Meets (step p) (fun c op => c.Client op ∧ c.Fits p op) (init x n) ops) :
    ∃ c, Runs.run (step p) (init x n) ops = some c ∧ ∃ lru, IsLru p c lru := by
  obtain ⟨c, hc, a, ⟨buckets, hrep⟩, hwf, hold, hle⟩ :=
    Runs.run_total step_fitInv (init_fitInv p x n) hops
  exact ⟨c, hc, a.idle, hrep.isLru hp hwf (hold hp) hle⟩

/-- The entry with the key `1` was evicted for the one with the key `2`. -/
theorem run_refines_lru_replacesHeld :
    ∃ c, Runs.run (step twoEntries) newCache replacesHeld = some c ∧ (∃ lru, IsLru twoEntries c lru) ∧
      Lru.current twoEntries c.entry c.log 1 = none ∧
      Lru.current twoEntries c.entry c.log 2 = some 2 ∧ evictions c.log = [1] := by
  obtain ⟨c, hc, hlru⟩ := run_refines_lru twoEntries twoEntries_lawful _ _ replacesHeld
    (show Runs.Meets (step twoEntries) (fun c op => c.Client op ∧ c.Fits twoEntries op) newCache
      replacesHeld by decide +kernel)
  have hvalue : (Runs.run (step twoEntries) newCache replacesHeld).map (fun c =>
      (Lru.current twoEntries c.entry c.log 1, Lru.current twoEntries c.entry c.log 2,
        evictions c.log)) = some (none, some 2, [1]) := by decide +kernel
  have hc' : Runs.run (step twoEntries) newCache replacesHeld = some c := hc
  rw [hc', Option.map_some, Option.some_inj, Prod.mk.injEq, Prod.mk.injEq] at hvalue
  exact ⟨c, hc, hlru, hvalue⟩

/-! ## Handles -/

/-- What handles protect. -/
structure Protected (p : CacheParams K) (c : Cache K D) : Prop where
  /-- Whenever an entry was freed, nobody held it. -/
  freedIdle : Lru.FreedIdle c.log
  held : ∀ e, 0 < handles c.log e → .freed e ∉ c.log
  once : ∀ e, c.log.count (.freed e) ≤ 1
  /-- The release of the last handle on an entry that was deleted takes it off the table and the LRU
  list and frees it. -/
  last : ∀ e why, .gone e why ∈ c.log → handles c.log e = 1 →
    ∃ (c' : Cache K D) (buckets : ℕ → List ℕ) (lru : List ℕ), c.entryRelease p e = some c' ∧
      c'.log = .freed e :: .idle e :: .released e :: c.log ∧
      Chain.Rep c'.chain buckets ∧ (∀ b, e ∉ buckets b) ∧
      Ring.IsRing c'.lru .list (lru.map .entry) ∧ e ∉ lru

/-- Held entries are protected if the cache represents a map in order. -/
theorem Rep.isProtected {buckets : ℕ → List ℕ} (h : Rep p c a buckets) (hwf : a.WF) : Protected p c := by
  constructor
  · rw [h.log]
    exact hwf.freedIdle
  · intro e hheld hfreed
    rw [h.log] at hheld hfreed
    have hlive := ((hwf.ok e).live (hwf.mem_of_handles hheld)).2
    have hcount := (hwf.ok e).freed
    rw [if_neg (by simp [hlive])] at hcount
    exact List.count_eq_zero.mp hcount hfreed
  · rw [h.log]
    exact hwf.count_freed_le
  · intro e why hgone hone
    rw [h.log] at hgone hone
    have hmem : e ∈ a.table := hwf.mem_of_handles (by omega)
    have href := hwf.ref_eq_handles hmem
    -- It is marked, since somebody deleted it.
    have hp : (a.entry e).delete_pending = true := by
      by_contra hnot
      exact ((hwf.ok e).current.mp ⟨hmem, by simpa using hnot⟩).2 why hgone
    have hleave : a.release e = a.leave e := by
      rw [Lru.release, if_neg (by omega), if_pos hp]
    obtain ⟨c', hc', buckets', h'⟩ := entryRelease_spec ⟨buckets, h⟩ hwf hmem (by omega)
    rw [hleave] at h'
    refine ⟨c', buckets', a.idle, hc', ?_, h'.chain, fun b hb => ?_, h'.ring, fun hidle => ?_⟩
    · rw [h'.log, h.log]
      rfl
    · have htable := (h'.mem e).mpr ⟨b, hb⟩
      simp at htable
    · have hzero := ((hwf.ok e).idle.mp hidle).2
      omega

/-- Each sequence of operations of clients that release only handles they hold succeeds. No entry is
freed while somebody holds it, and each one at most once. -/
theorem run_freed_once (p : CacheParams K) (x : CEntry K D) (n : Ring.Links LruNode)
    (ops : List (Op K D)) (hops : Runs.Meets (step p) Client (init x n) ops) :
    ∃ c, Runs.run (step p) (init x n) ops = some c ∧ Protected p c := by
  obtain ⟨c, hc, a, ⟨buckets, hrep⟩, hwf, -⟩ := Runs.run_total step_inv (init_inv p x n) hops
  exact ⟨c, hc, hrep.isProtected hwf⟩

/-- The replaced entry and the evicted one are freed, and the last one is not. -/
theorem run_freed_once_replacesHeld : ∃ c, Runs.run (step twoEntries) newCache replacesHeld = some c ∧
    Protected twoEntries c ∧ .freed 0 ∈ c.log ∧ .freed 1 ∈ c.log ∧ .freed 2 ∉ c.log := by
  obtain ⟨c, hc, hprot⟩ := run_freed_once twoEntries _ _ replacesHeld
    (show Runs.Meets (step twoEntries) Client newCache replacesHeld by decide +kernel)
  have hvalue : (Runs.run (step twoEntries) newCache replacesHeld).map (fun c =>
      (decide (CNote.freed 0 ∈ c.log), decide (CNote.freed 1 ∈ c.log),
        decide (CNote.freed 2 ∈ c.log))) = some (true, true, false) := by decide +kernel
  have hc' : Runs.run (step twoEntries) newCache replacesHeld = some c := hc
  rw [hc', Option.map_some, Option.some_inj, Prod.mk.injEq, Prod.mk.injEq] at hvalue
  exact ⟨c, hc, hprot, of_decide_eq_true hvalue.1, of_decide_eq_true hvalue.2.1,
    of_decide_eq_false hvalue.2.2⟩

end StWin.Cache
