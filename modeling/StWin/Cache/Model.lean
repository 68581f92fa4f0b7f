import StWin.Lib.Chain
import StWin.Lib.Ring
import StWin.Lib.Runs
import Mathlib.Algebra.Group.Nat.Defs
import Mathlib.Data.Int.Notation
import Mathlib.Tactic.Simps.Basic

/-!
# The LRU cache

`src/extensions/lrucache.c`. An entry is on the chain of its bucket in the hash table, and, while
nobody holds it, on the LRU list. The fields `next` and `pthis` of the entries are in `chain` together
with the hash table, and the fields `lru_link` in `lru` together with the list's head. Both are
pointer structures: the operations make the source's assignments.

An entry is a number, in the order of creation: memory that was freed is not used again here. An
operation on an entry that was freed is `none`. `cleanup_fn` is always called together with `free`,
and what it does is outside of the cache. `ref_count` does not overflow here, which would take `2^31`
handles on one entry. The counters wrap around at the width of their type, which depends on the
platform.

The record of what has happened (`log`, the last event first) is not read by any operation.
-/

namespace StWin

/-- The arguments of `stx_cache_create`, and the widths of the types `size_t` and `unsigned long`. -/
structure CacheParams (K : Type*) where
  size_bits : ℕ
  ulong_bits : ℕ
  max_size : ℕ
  max_weight : ℕ
  hash_size : ℕ
  key_hash_fn : K → ℕ
  key_cmp_fn : K → K → ℤ
  max_size_lt : max_size < 2^size_bits
  max_weight_lt : max_weight < 2^size_bits
  hash_size_pos : 0 < hash_size

namespace CacheParams

variable {K : Type*} (p : CacheParams K)

/-- The number of values of `size_t`. -/
def sizeMod : ℕ := 2^p.size_bits

/-- The number of values of `unsigned long`. -/
def ulongMod : ℕ := 2^p.ulong_bits

/-- The counters have values. -/
theorem sizeMod_pos : 0 < p.sizeMod := Nat.two_pow_pos _

/-- The bucket of a key. -/
def bucket (key : K) : ℕ := p.key_hash_fn key % p.hash_size

/-- The comparison says that the keys are equal. -/
def Same (k k' : K) : Prop := p.key_cmp_fn k k' = 0

instance (k k' : K) : Decidable (p.Same k k') := inferInstanceAs (Decidable (_ = _))

/-- Equality of keys is an equivalence, and equal keys have one hash value. -/
structure Lawful : Prop where
  refl : ∀ k, p.Same k k
  symm : ∀ {k k'}, p.Same k k' → p.Same k' k
  trans : ∀ {k k' k''}, p.Same k k' → p.Same k' k'' → p.Same k k''
  hash : ∀ {k k'}, p.Same k k' → p.key_hash_fn k = p.key_hash_fn k'

/-- A key has a bucket of the table. -/
theorem bucket_lt (key : K) : p.bucket key < p.hash_size := Nat.mod_lt _ p.hash_size_pos

/-- Keys that match have one bucket. -/
theorem Lawful.bucket {p : CacheParams K} (h : p.Lawful) {k k' : K} (hk : p.Same k k') :
    p.bucket k = p.bucket k' := by
  rw [CacheParams.bucket, h.hash hk, CacheParams.bucket]

end CacheParams

/-- The fields of `struct _stx_centry`, the links apart. -/
structure CEntry (K D : Type*) where
  key : K
  data : D
  weight : ℕ
  ref_count : ℕ
  delete_pending : Bool
  /-- Not freed. -/
  live : Bool

/-- A node of the LRU list: its head, or the `lru_link` of an entry. -/
inductive LruNode where
  | list
  | entry (e : ℕ)
  deriving DecidableEq

/-- Why an entry is deleted. -/
inductive Why where
  | deleted | evicted | replaced | emptied
  deriving DecidableEq

/-- An event worth recording. -/
inductive CNote where
  /-- `stx_cache_entry_insert` returned `0`. -/
  | inserted (e : ℕ)
  /-- `stx_cache_entry_lookup` returned `e`. -/
  | found (e : ℕ)
  /-- `stx_cache_entry_release` decremented `ref_count`. -/
  | released (e : ℕ)
  /-- It became `0`, and the entry was put on the LRU list. -/
  | idle (e : ℕ)
  /-- `stx_cache_entry_delete` was called. -/
  | gone (e : ℕ) (why : Why)
  /-- `cleanup_fn` and `free` were called. -/
  | freed (e : ℕ)
  deriving DecidableEq

/-- `struct _stx_cache`, with the entries. -/
structure Cache (K D : Type*) where
  cur_size : ℕ
  cur_weight : ℕ
  chain : Chain.Table ℕ ℕ
  lru : Ring.Links LruNode
  hits : ℕ
  lookups : ℕ
  inserts : ℕ
  deletes : ℕ
  entry : ℕ → CEntry K D
  /-- The number of calls of `stx_cache_entry_create`. -/
  created : ℕ
  log : List CNote

namespace Cache

variable {K D : Type*}

/-- Record an event. -/
@[simps] def note (c : Cache K D) (n : CNote) : Cache K D := { c with log := n :: c.log }

/-- Assign to fields of the entry `e`. -/
@[simps] def setEntry (c : Cache K D) (e : ℕ) (f : CEntry K D → CEntry K D) : Cache K D :=
  { c with entry := Function.update c.entry e (f (c.entry e)) }

/-- The entry itself after an assignment. -/
@[simp] theorem setEntry_self (c : Cache K D) (e : ℕ) (f : CEntry K D → CEntry K D) :
    (c.setEntry e f).entry e = f (c.entry e) := Function.update_self e _ _

/-- `stx_cache_entry_create`: the entry is `c.created`. -/
@[simps] def entryCreate (p : CacheParams K) (c : Cache K D) (key : K) (data : D) (weight : ℕ) :
    Cache K D :=
  { c with
    entry := Function.update c.entry c.created ⟨key, data, weight % p.sizeMod, 0, false, true⟩
    chain := c.chain.setPthis c.created none
    created := c.created + 1 }

/-- The end of `stx_cache_entry_delete`: call `cleanup_fn`, clear `pthis`, and free the entry. -/
@[simps] def freeEntry (c : Cache K D) (e : ℕ) : Cache K D :=
  { c.setEntry e fun x => { x with live := false } with
    chain := c.chain.setPthis e none
    log := .freed e :: c.log }

/-- The part of `stx_cache_entry_delete` for an entry in the table. -/
@[simps] def unlinkEntry (p : CacheParams K) (c : Cache K D) (e : ℕ) : Cache K D :=
  { c with
    chain := c.chain.unlink e
    cur_size := (c.cur_size + (p.sizeMod - 1)) % p.sizeMod
    cur_weight := (c.cur_weight + (p.sizeMod - (c.entry e).weight)) % p.sizeMod
    deletes := (c.deletes + 1) % p.ulongMod
    lru := Ring.removeLink c.lru (.entry e) }

/-- `stx_cache_entry_delete`. -/
def entryDelete (p : CacheParams K) (c : Cache K D) (e : ℕ) : Option (Cache K D) :=
  if (c.entry e).live then
    let c := c.setEntry e fun x => { x with delete_pending := true }
    if 0 < (c.entry e).ref_count then some c
    else
      let c := if (c.chain.pthis e).isSome then c.unlinkEntry p e else c
      some (c.freeEntry e)
  else none

/-- The loop that looks for a key, from an entry on. -/
def findKey (p : CacheParams K) (c : Cache K D) (key : K) : ℕ → Option ℕ → Option (Option ℕ)
  | 0, _ => none
  | _ + 1, none => some none
  | fuel + 1, some e =>
    if (c.entry e).live then
      if !(c.entry e).delete_pending ∧ p.key_cmp_fn key (c.entry e).key = 0 then some (some e)
      else findKey p c key fuel (c.chain.next e)
    else none

/-- The part of `stx_cache_entry_lookup` for an entry that was found. -/
def hit (p : CacheParams K) (c : Cache K D) (e : ℕ) : Cache K D :=
  let c := { c with hits := (c.hits + 1) % p.ulongMod }
  let c := if (c.entry e).ref_count = 0 then
      { c with lru := Ring.removeLink c.lru (.entry e) }
    else c
  (c.setEntry e fun x => { x with ref_count := x.ref_count + 1 }).note (.found e)

/-- `stx_cache_entry_lookup`. -/
def entryLookup (p : CacheParams K) (c : Cache K D) (key : K) : Option (Cache K D × Option ℕ) :=
  let c := { c with lookups := (c.lookups + 1) % p.ulongMod }
  (c.findKey p key (c.created + 1) (c.chain.head (p.bucket key))).bind fun
    | some e => some (c.hit p e, some e)
    | none => some (c, none)

/-- `stx_cache_entry_release`. -/
def entryRelease (p : CacheParams K) (c : Cache K D) (e : ℕ) : Option (Cache K D) :=
  if (c.entry e).live then
    if (c.entry e).ref_count = 0 then some c
    else
      let c := c.setEntry e fun x => { x with ref_count := x.ref_count - 1 }
      let c := c.note (.released e)
      if (c.entry e).ref_count = 0 then
        let c := { c with lru := Ring.insertBefore c.lru (.entry e) .list }.note (.idle e)
        if (c.entry e).delete_pending then c.entryDelete p e else some c
      else some c
  else none

/-- `stx_cache_entry_getlru`. -/
def entryGetlru (c : Cache K D) : Option ℕ :=
  match c.lru.next .list with
  | .list => none
  | .entry e => some e

/-- The loop of `stx_cache_entry_insert` that removes LRU entries till there is enough room for
`weight`, and whether there is. -/
def makeRoom (p : CacheParams K) (weight : ℕ) : ℕ → Cache K D → Option (Cache K D × Bool)
  | 0, _ => none
  | fuel + 1, c =>
    if p.max_weight < (c.cur_weight + weight) % p.sizeMod then
      match c.entryGetlru with
      | none => some (c, false)
      | some old => do
        let c ← (c.note (.gone old .evicted)).entryDelete p old
        makeRoom p weight fuel c
    else some (c, true)

/-- If the cache size is exceeded, remove an LRU entry, if there is one. -/
def makeSlot (p : CacheParams K) (c : Cache K D) : Option (Cache K D × Bool) :=
  if p.max_size ≤ c.cur_size then
    match c.entryGetlru with
    | none => some (c, false)
    | some old => ((c.note (.gone old .evicted)).entryDelete p old).map fun c => (c, true)
  else some (c, true)

/-- Remove the entry with the key of `e`, if there is one. -/
def dropDuplicate (p : CacheParams K) (c : Cache K D) (e : ℕ) : Option (Cache K D) :=
  let key := (c.entry e).key
  (c.findKey p key (c.created + 1) (c.chain.head (p.bucket key))).bind fun
    | some old => (c.note (.gone old .replaced)).entryDelete p old
    | none => some c

/-- The end of `stx_cache_entry_insert`: insert in the hash table. -/
@[simps] def link (p : CacheParams K) (c : Cache K D) (e : ℕ) : Cache K D :=
  { (c.setEntry e fun x => { x with ref_count := x.ref_count + 1 }) with
    chain := c.chain.push (p.bucket (c.entry e).key) e
    inserts := (c.inserts + 1) % p.ulongMod
    cur_size := (c.cur_size + 1) % p.sizeMod
    cur_weight := (c.cur_weight + (c.entry e).weight) % p.sizeMod
    log := .inserted e :: c.log }

/-- `stx_cache_entry_insert`. -/
def entryInsert (p : CacheParams K) (c : Cache K D) (e : ℕ) : Option (Cache K D × ℤ) :=
  if (c.entry e).live then do
    let (c, room) ← c.makeRoom p (c.entry e).weight (c.created + 1)
    if !room then some (c, -1)
    else
      let (c, slot) ← c.makeSlot p
      if !slot then some (c, -1)
      else
        -- Don't add duplicate entries in the cache.
        let c ← c.dropDuplicate p e
        some (c.link p e, 0)
  else none

/-- The inner loop of `stx_cache_empty`, from an entry on. -/
def emptyChain (p : CacheParams K) : ℕ → Option ℕ → Cache K D → Option (Cache K D)
  | 0, _, _ => none
  | _ + 1, none, c => some c
  | fuel + 1, some e, c => do
    let next_entry := c.chain.next e
    let c ← (c.note (.gone e .emptied)).entryDelete p e
    emptyChain p fuel next_entry c

/-- `stx_cache_empty`. -/
def empty (p : CacheParams K) (c : Cache K D) : Option (Cache K D) :=
  (List.range p.hash_size).foldlM (fun c b => c.emptyChain p (c.created + 1) (c.chain.head b)) c

/-! ## Clients -/

/-- The operations on a cache. -/
inductive Op (K D : Type*) where
  | create (key : K) (data : D) (weight : ℕ)
  | insert (e : ℕ)
  | lookup (key : K)
  | release (e : ℕ)
  | delete (e : ℕ)
  | empty

/-- One operation. -/
def step (p : CacheParams K) (c : Cache K D) : Op K D → Option (Cache K D)
  | .create key data weight => some (c.entryCreate p key data weight)
  | .insert e => (c.entryInsert p e).map Prod.fst
  | .lookup key => (c.entryLookup p key).map Prod.fst
  | .release e => c.entryRelease p e
  | .delete e => (c.note (.gone e .deleted)).entryDelete p e
  | .empty => c.empty p

/-- The number of handles on `e` that were given out and not released. -/
def handles (log : List CNote) (e : ℕ) : ℕ :=
  log.count (.inserted e) + log.count (.found e) - log.count (.released e)

/-- Clients insert fresh entries, release handles that they hold, and delete entries that exist. -/
def Client (c : Cache K D) : Op K D → Prop
  | .insert e => e < c.created ∧ .inserted e ∉ c.log ∧ .freed e ∉ c.log
  | .release e => 0 < handles c.log e
  | .delete e => e < c.created ∧ .freed e ∉ c.log
  | _ => True

instance (c : Cache K D) : (op : Op K D) → Decidable (c.Client op)
  | .create _ _ _ => inferInstanceAs (Decidable True)
  | .insert e => inferInstanceAs
      (Decidable (e < c.created ∧ CNote.inserted e ∉ c.log ∧ CNote.freed e ∉ c.log))
  | .lookup _ => inferInstanceAs (Decidable True)
  | .release e => inferInstanceAs (Decidable (0 < handles c.log e))
  | .delete e => inferInstanceAs (Decidable (e < c.created ∧ CNote.freed e ∉ c.log))
  | .empty => inferInstanceAs (Decidable True)

/-- The sum of weights that `stx_cache_entry_insert` compares does not overflow. -/
def Fits (p : CacheParams K) (c : Cache K D) : Op K D → Prop
  | .insert e => c.cur_weight + (c.entry e).weight < p.sizeMod
  | _ => True

instance (p : CacheParams K) (c : Cache K D) : (op : Op K D) → Decidable (c.Fits p op)
  | .create _ _ _ => inferInstanceAs (Decidable True)
  | .insert e => inferInstanceAs (Decidable (c.cur_weight + (c.entry e).weight < p.sizeMod))
  | .lookup _ => inferInstanceAs (Decidable True)
  | .release _ => inferInstanceAs (Decidable True)
  | .delete _ => inferInstanceAs (Decidable True)
  | .empty => inferInstanceAs (Decidable True)

/-- The cache that `stx_cache_create` returns. `x` and `n` stand for the memory that is not in use. -/
def init (x : CEntry K D) (n : Ring.Links LruNode) : Cache K D where
  cur_size := 0
  cur_weight := 0
  chain := ⟨fun _ => none, fun _ => none, fun _ => none⟩
  lru := Ring.init n .list
  hits := 0
  lookups := 0
  inserts := 0
  deletes := 0
  entry := fun _ => { x with live := false }
  created := 0
  log := []

end Cache

end StWin
