import StWin.Cache.Current

/-!
# The cache refines the LRU map

`Rep` relates the pointer structures and the counters of a cache to a map: the chains hold the
entries of the table, each in the bucket of its key, the ring holds the idle entries in order, and the
counters are the sizes of these, up to the width of their types. The operations of the cache then
move the map as `Lru` says, they follow no pointer to an entry that was freed, and their loops end.
-/

namespace StWin

namespace Lru

variable {K D : Type*}

/-- The weight of the table. -/
def weight (a : Lru K D) : ℕ := ∑ e ∈ a.table, (a.entry e).weight

/-- There is no room for an entry with the weight `w`. -/
def Over (p : CacheParams K) (a : Lru K D) (w : ℕ) : Prop :=
  p.max_weight < (a.weight + w) % p.sizeMod

/-- To make room for an entry with the weight `w`, the first `n` idle entries must go. -/
structure Room (p : CacheParams K) (a : Lru K D) (w n : ℕ) : Prop where
  le : n ≤ a.idle.length
  exceeds : ∀ m < n, (a.evict m).Over p w
  fits : ¬(a.evict n).Over p w

/-- The duplicate, if there is one, is deleted. -/
def replace (a : Lru K D) (dup : Option ℕ) : Lru K D := dup.elim a fun e => a.delete e .replaced

end Lru

namespace Cache

variable {K D : Type*} {p : CacheParams K}

/-- The cache represents a map, with the chains `buckets`. -/
structure Rep (p : CacheParams K) (c : Cache K D) (a : Lru K D) (buckets : ℕ → List ℕ) : Prop where
  entry : c.entry = a.entry
  created : c.created = a.created
  log : c.log = a.log
  chain : Chain.Rep c.chain buckets
  mem : ∀ e, e ∈ a.table ↔ ∃ b, e ∈ buckets b
  hash : ∀ {b e}, e ∈ buckets b → b = p.bucket (a.entry e).key
  pthis : ∀ e, e < a.created → c.chain.pthis e ≠ none → e ∈ a.table
  ring : Ring.IsRing c.lru .list (a.idle.map .entry)
  size : c.cur_size = a.table.card
  size_le : a.table.card ≤ p.max_size
  weight : c.cur_weight = a.weight % p.sizeMod
  weight_lt : ∀ e, e < a.created → (a.entry e).weight < p.sizeMod
  count : (c.deletes + a.table.card) % p.ulongMod = c.inserts % p.ulongMod

/-- The cache represents a map. -/
def Reps (p : CacheParams K) (c : Cache K D) (a : Lru K D) : Prop := ∃ buckets, Rep p c a buckets

/-- An entry is in the map exactly when it is on the chain of its key. -/
theorem Rep.mem_bucket {c : Cache K D} {a : Lru K D} {buckets : ℕ → List ℕ}
    (h : Rep p c a buckets) {e : ℕ} :
    e ∈ a.table ↔ e ∈ buckets (p.bucket (a.entry e).key) := by
  rw [h.mem]
  constructor
  · rintro ⟨b, hb⟩
    exact h.hash hb ▸ hb
  · exact fun hb => ⟨_, hb⟩

/-- The entries on the chains of the hash table. -/
def entries (p : CacheParams K) (buckets : ℕ → List ℕ) : List ℕ :=
  (List.range p.hash_size).flatMap buckets

/-- No entry is on the chains twice. -/
theorem Rep.entries_nodup {buckets : ℕ → List ℕ} (h : Rep p c a buckets) : (entries p buckets).Nodup := by
  refine List.nodup_flatMap.mpr ⟨fun b _ => h.chain.nodup b, ?_⟩
  refine List.nodup_range.imp fun hne => ?_
  exact List.disjoint_left.mpr fun e hx hx' => hne (h.chain.disjoint hx hx')

/-- The entries on the chains are those of the map. -/
theorem Rep.mem_entries {buckets : ℕ → List ℕ} (h : Rep p c a buckets) (e : ℕ) :
    e ∈ entries p buckets ↔ e ∈ a.table := by
  rw [entries, List.mem_flatMap, h.mem]
  constructor
  · rintro ⟨b, -, hb⟩
    exact ⟨b, hb⟩
  · rintro ⟨b, hb⟩
    refine ⟨b, List.mem_range.mpr ?_, hb⟩
    rw [h.hash hb]
    exact p.bucket_lt _

/-- The map's entries are read off the chains. -/
theorem Rep.table_eq {buckets : ℕ → List ℕ} (h : Rep p c a buckets) :
    a.table = (entries p buckets).toFinset := by
  ext e
  rw [List.mem_toFinset, h.mem_entries]

/-! ## Assignments -/

/-- Fields of entries that are neither key nor weight change, and events are recorded. -/
theorem Rep.congr {c c' : Cache K D} {a a' : Lru K D} {buckets : ℕ → List ℕ}
    (h : Rep p c a buckets) (hchain : c'.chain = c.chain) (hlru : c'.lru = c.lru)
    (hsize : c'.cur_size = c.cur_size) (hweight : c'.cur_weight = c.cur_weight)
    (hdeletes : c'.deletes = c.deletes) (hinserts : c'.inserts = c.inserts)
    (hcreated : c'.created = c.created) (htable : a'.table = a.table) (hidle : a'.idle = a.idle)
    (hcreated' : a'.created = a.created)
    (hkey : ∀ e, (a'.entry e).key = (a.entry e).key ∧ (a'.entry e).weight = (a.entry e).weight)
    (hentry : c'.entry = a'.entry) (hlog : c'.log = a'.log) : Rep p c' a' buckets where
  entry := hentry
  created := by rw [hcreated, h.created, hcreated']
  log := hlog
  chain := hchain ▸ h.chain
  mem := htable ▸ h.mem
  hash := fun {b e} he => by
    rw [(hkey e).1]
    exact h.hash he
  pthis := by
    rw [hcreated', hchain, htable]
    exact h.pthis
  ring := by
    rw [hlru, hidle]
    exact h.ring
  size := by rw [hsize, htable, h.size]
  size_le := htable ▸ h.size_le
  weight := by
    rw [hweight, h.weight, Lru.weight, Lru.weight, htable]
    congr 1
    exact Finset.sum_congr rfl fun e _ => (hkey e).2.symm
  weight_lt := by
    rw [hcreated']
    exact fun e he => (hkey e).2 ▸ h.weight_lt e he
  count := by
    rw [hdeletes, htable, hinserts]
    exact h.count

/-- An update of one entry that keeps key and weight. -/
theorem update_keeps {entry : ℕ → CEntry K D} {e : ℕ} {x : CEntry K D}
    (hkey : x.key = (entry e).key) (hweight : x.weight = (entry e).weight) (e' : ℕ) :
    (Function.update entry e x e').key = (entry e').key ∧
      (Function.update entry e x e').weight = (entry e').weight := by
  by_cases he : e' = e
  · rw [he, Function.update_self]
    exact ⟨hkey, hweight⟩
  · rw [Function.update_of_ne he]
    exact ⟨rfl, rfl⟩

/-- A client changes the data of an entry. -/
theorem Reps.setData {c : Cache K D} {a : Lru K D} (h : Reps p c a) (e : ℕ) (data : D) :
    Reps p (c.setEntry e fun x => { x with data := data })
      (a.setEntry e fun x => { x with data := data }) := by
  obtain ⟨buckets, h⟩ := h
  refine ⟨buckets, h.congr rfl rfl rfl rfl rfl rfl rfl rfl rfl rfl (update_keeps rfl rfl) ?_ h.log⟩
  show Function.update c.entry e _ = Function.update a.entry e _
  rw [h.entry]

/-- The entries have the same fields. -/
theorem Reps.entry {c : Cache K D} {a : Lru K D} (h : Reps p c a) : c.entry = a.entry := by
  obtain ⟨buckets, h⟩ := h
  exact h.entry

/-- As many entries have been created. -/
theorem Reps.created {c : Cache K D} {a : Lru K D} (h : Reps p c a) : c.created = a.created := by
  obtain ⟨buckets, h⟩ := h
  exact h.created

/-- An entry joins the LRU list at its end. -/
theorem Rep.append_idle {c : Cache K D} {a : Lru K D} {buckets : ℕ → List ℕ}
    (h : Rep p c a buckets) {e : ℕ} (he : e ∉ a.idle) :
    Rep p { c with lru := Ring.insertBefore c.lru (.entry e) .list }
      { a with idle := a.idle ++ [e] } buckets := by
  have hring : Ring.IsRing (Ring.insertBefore c.lru (.entry e) .list) .list
      ((a.idle ++ [e]).map .entry) := by
    rw [List.map_append]
    exact Ring.insertBefore_isRing h.ring (by simpa using he)
  exact { h with ring := hring }

/-- An entry leaves the LRU list. -/
theorem Rep.erase_idle {c : Cache K D} {a : Lru K D} {buckets : ℕ → List ℕ}
    (h : Rep p c a buckets) {e : ℕ} (he : e ∈ a.idle) :
    Rep p { c with lru := Ring.removeLink c.lru (.entry e) } { a with idle := a.idle.erase e }
      buckets := by
  have hring : Ring.IsRing (Ring.removeLink c.lru (.entry e)) .list
      ((a.idle.erase e).map .entry) := by
    obtain ⟨xs, ys, hnot, heq, herase⟩ := List.exists_erase_eq he
    have h' := h.ring
    rw [heq, List.map_append, List.map_cons] at h'
    rw [herase, List.map_append]
    exact Ring.removeLink_isRing h'
  exact { h with ring := hring }

/-- A counter is decremented. -/
theorem sub_one_mod {n m : ℕ} (hpos : 0 < n) (hlt : n < m) : (n + (m - 1)) % m = n - 1 := by
  have hsum : n + (m - 1) = (n - 1) + m := by omega
  rw [hsum, Nat.add_mod_right, Nat.mod_eq_of_lt (by omega)]

/-- A weight is subtracted from a sum of which it is a part. -/
theorem sub_mod_part {n w m : ℕ} (hw : w < m) : ((n + w) % m + (m - w)) % m = n % m := by
  have hsum : n + w + (m - w) = n + m := by omega
  rw [Nat.mod_add_mod, hsum, Nat.add_mod_right]

/-- Only the bucket of an entry holds it. -/
theorem Rep.erase_buckets {c : Cache K D} {a : Lru K D} {buckets : ℕ → List ℕ} (h : Rep p c a buckets)
    {b e : ℕ} {xs ys : List ℕ} (hbs : buckets b = xs ++ e :: ys) :
    (fun b' => (buckets b').erase e) = Function.update buckets b (xs ++ ys) := by
  have hb : e ∈ buckets b := by
    rw [hbs]
    exact List.mem_append_right xs List.mem_cons_self
  have hnodup := h.chain.nodup b
  rw [hbs] at hnodup
  funext b'
  by_cases hb' : b' = b
  · have hxs : e ∉ xs := fun hx => (List.nodup_append.mp hnodup).2.2 e hx e List.mem_cons_self rfl
    rw [hb', Function.update_self, hbs, List.erase_append_right _ hxs, List.erase_cons_head]
  · rw [Function.update_of_ne hb']
    exact List.erase_of_not_mem fun hx => hb' (h.chain.disjoint hx hb)

/-- The `pthis` links that are left are those of the other entries of the table. -/
theorem Rep.unlink_pthis {c : Cache K D} {a : Lru K D} {buckets : ℕ → List ℕ} (h : Rep p c a buckets)
    {b e : ℕ} {xs ys : List ℕ} (hbs : buckets b = xs ++ e :: ys) {x : ℕ} (hx : x < a.created)
    (hne : Function.update (c.chain.unlink e).pthis e none x ≠ none) : x ∈ a.table.erase e := by
  have hxe : x ≠ e := by
    rintro rfl
    rw [Function.update_self] at hne
    exact hne rfl
  rw [Function.update_of_ne hxe] at hne
  refine Finset.mem_erase.mpr ⟨hxe, ?_⟩
  have hlinked := h.chain.linked b
  rw [hbs] at hlinked
  rw [Chain.unlink_pthis hlinked.pthis_eq] at hne
  split_ifs at hne with hnext
  · -- The entry after it is in the table too.
    rw [hlinked.next_eq] at hnext
    refine (h.mem x).mpr ⟨b, ?_⟩
    rw [hbs]
    exact List.mem_append_right _ (List.mem_cons_of_mem e (List.mem_of_mem_head? hnext))
  · exact h.pthis x hx hne

/-- An idle entry leaves the map and is freed. -/
theorem Rep.remove {c : Cache K D} {a : Lru K D} {buckets : ℕ → List ℕ} (h : Rep p c a buckets)
    {e : ℕ} (he : e ∈ a.table) (hidle : e ∈ a.idle) (hlt : e < a.created) :
    Rep p ((c.unlinkEntry p e).freeEntry e)
      { a.setEntry e (fun x => { x with live := false }) with
        table := a.table.erase e
        idle := a.idle.erase e
        log := .freed e :: a.log } (fun b => (buckets b).erase e) := by
  -- The entry is on the chain of its key, between `xs` and `ys`.
  obtain ⟨b, hb⟩ := (h.mem e).mp he
  obtain ⟨xs, ys, hbs⟩ := List.append_of_mem hb
  have hmem : ∀ {b' x}, x ∈ (buckets b').erase e ↔ x ∈ buckets b' ∧ x ≠ e := by
    intro b' x
    rw [(h.chain.nodup b').mem_erase_iff, and_comm]
  have hkeep : ∀ x, (Function.update a.entry e { a.entry e with live := false } x).key =
      (a.entry x).key ∧ (Function.update a.entry e { a.entry e with live := false } x).weight =
      (a.entry x).weight := update_keeps rfl rfl
  have hcard : 0 < a.table.card := Finset.card_pos.mpr ⟨e, he⟩
  -- The neighbours are linked to each other, and `pthis` of the entry is cleared.
  have hchain : Chain.Rep ((c.chain.unlink e).setPthis e none) fun b => (buckets b).erase e := by
    refine Chain.Rep.setPthis ?_ (fun b' hx => (hmem.mp hx).2 rfl) none
    rw [h.erase_buckets hbs]
    exact Chain.unlink_rep h.chain hbs
  constructor
  · show Function.update c.entry e { c.entry e with live := false } =
      Function.update a.entry e { a.entry e with live := false }
    rw [h.entry]
  · show c.created = a.created
    exact h.created
  · show CNote.freed e :: c.log = CNote.freed e :: a.log
    rw [h.log]
  · exact hchain
  · intro x
    simp only [Finset.mem_erase, hmem, h.mem]
    exact ⟨fun ⟨hne, b', hx⟩ => ⟨b', hx, hne⟩, fun ⟨b', hx, hne⟩ => ⟨hne, b', hx⟩⟩
  · intro b' x hx
    exact (h.hash (hmem.mp hx).1).trans (congrArg p.bucket (hkeep x).1.symm)
  · intro x hx hne
    exact h.unlink_pthis hbs hx hne
  · exact (h.erase_idle hidle).ring
  · -- The counters go down modulo the width of `size_t`, but the table is not empty.
    show (c.cur_size + (p.sizeMod - 1)) % p.sizeMod = (a.table.erase e).card
    rw [h.size, Finset.card_erase_of_mem he]
    exact sub_one_mod hcard (lt_of_le_of_lt h.size_le p.max_size_lt)
  · exact (Finset.card_erase_le).trans h.size_le
  · show (c.cur_weight + (p.sizeMod - (c.entry e).weight)) % p.sizeMod = Lru.weight _ % p.sizeMod
    have hsum : a.weight = ∑ x ∈ a.table.erase e, (a.entry x).weight + (a.entry e).weight :=
      (Finset.sum_erase_add _ _ he).symm
    rw [h.weight, h.entry, hsum, sub_mod_part (h.weight_lt e hlt), Lru.weight]
    congr 1
    exact Finset.sum_congr rfl fun x _ => (hkeep x).2.symm
  · intro x hx
    exact (hkeep x).2 ▸ h.weight_lt x hx
  · -- A deletion moves one entry from the table to the count of deletions.
    show ((c.deletes + 1) % p.ulongMod + (a.table.erase e).card) % p.ulongMod = c.inserts % p.ulongMod
    rw [← h.count, Nat.mod_add_mod, Finset.card_erase_of_mem he]
    congr 1
    omega

end Cache

end StWin
