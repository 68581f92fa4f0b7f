import StWin.Cache.Runs

/-!
# Traversing the cache

The three traversals call a function with the keys and the data of entries. `stx_cache_traverse` walks the
chains of the hash table, and leaves out the entries that are only kept for those who hold them; the other
two walk the LRU list from one of its ends, for `n` entries at most.

Whatever clients have done before, the first one shows the map: exactly the entries that were inserted last
under their keys and are not gone, each of them once. The others show the entries of the map that nobody
holds, in the order in which they were released (`run_traverses`).

The function that is called is assumed to leave the cache alone.
-/

namespace StWin

namespace Cache

variable {K D : Type*}

/-! ## The model -/

/-- The arguments of `callback`. -/
def pair (c : Cache K D) (e : ℕ) : K × D := ((c.entry e).key, (c.entry e).data)

/-- The inner loop of `stx_cache_traverse`, from an entry on. -/
def traverseChain (c : Cache K D) : ℕ → Option ℕ → Option (List (K × D))
  | 0, _ => none
  | _ + 1, none => some []
  | fuel + 1, some e =>
    if (c.entry e).live then do
      let calls ← traverseChain c fuel (c.chain.next e)
      some (if (c.entry e).delete_pending then calls else c.pair e :: calls)
    else none

/-- `stx_cache_traverse`: the calls of `callback`, in order. -/
def traverse (p : CacheParams K) (c : Cache K D) : Option (List (K × D)) :=
  (List.range p.hash_size).foldlM (fun calls b => do
    let next ← c.traverseChain (c.created + 1) (c.chain.head b)
    some (calls ++ next)) []

/-- The loop of the other two, from a node on. -/
def traverseLinks (c : Cache K D) (link : LruNode → LruNode) : ℕ → LruNode → Option (List (K × D))
  | 0, _ => some []
  | _ + 1, .list => some []
  | n + 1, .entry e =>
    if (c.entry e).live then (traverseLinks c link n (link (.entry e))).map (c.pair e :: ·) else none

/-- `stx_cache_traverse_lru`. -/
def traverseLru (c : Cache K D) (n : ℕ) : Option (List (K × D)) :=
  c.traverseLinks c.lru.next n (c.lru.next .list)

/-- `stx_cache_traverse_mru`. -/
def traverseMru (c : Cache K D) (n : ℕ) : Option (List (K × D)) :=
  c.traverseLinks c.lru.prev n (c.lru.prev .list)

/-! ## The walks -/

variable {p : CacheParams K} {c : Cache K D} {a : Lru K D}

/-- The entries that `stx_cache_traverse` does not leave out. -/
def shown (c : Cache K D) (es : List ℕ) : List ℕ := es.filter fun e => !(c.entry e).delete_pending

/-- The traversal of a chain shows its entries in order. The induction is on the chain. -/
theorem traverseChain_eq {l : Chain.Link ℕ ℕ} {es : List ℕ} (h : Chain.Linked c.chain l es)
    (hlive : ∀ e ∈ es, (c.entry e).live = true) {fuel : ℕ} (hfuel : es.length < fuel) :
    c.traverseChain fuel (c.chain.get l) = some ((c.shown es).map c.pair) := by
  induction es generalizing l fuel with
  | nil =>
    obtain ⟨fuel, rfl⟩ := Nat.exists_eq_succ_of_ne_zero (Nat.ne_of_gt hfuel)
    rw [show c.chain.get l = none from h]
    rfl
  | cons e es ih =>
    obtain ⟨fuel, rfl⟩ := Nat.exists_eq_succ_of_ne_zero (Nat.ne_of_gt (Nat.zero_lt_of_lt hfuel))
    have hrest := ih h.2.2 (fun x hx => hlive x (List.mem_cons_of_mem e hx)) (Nat.lt_of_succ_lt_succ hfuel)
    have hnext : c.chain.get (.next e) = c.chain.next e := rfl
    rw [h.1, traverseChain, if_pos (hlive e List.mem_cons_self), ← hnext, hrest]
    cases hp : (c.entry e).delete_pending <;> simp [shown, hp]

/-- The chains come one after the other. -/
theorem traverse_eq {buckets : ℕ → List ℕ}
    (h : ∀ b, c.traverseChain (c.created + 1) (c.chain.head b) = some ((c.shown (buckets b)).map c.pair)) :
    c.traverse p = some ((c.shown (entries p buckets)).map c.pair) := by
  have hfold : ∀ (bs : List ℕ) (calls : List (K × D)),
      bs.foldlM (fun calls b => do
        let next ← c.traverseChain (c.created + 1) (c.chain.head b)
        some (calls ++ next)) calls = some (calls ++ (c.shown (bs.flatMap buckets)).map c.pair) := by
    intro bs
    induction bs with
    | nil => simp [shown]
    | cons b bs ih =>
      intro calls
      rw [List.foldlM_cons, h b]
      refine (ih _).trans ?_
      simp [shown]
  exact (hfold _ []).trans (by rw [List.nil_append]; rfl)

/-- The traversal of the LRU list, in either direction, shows its first `n` entries. -/
theorem traverseLinks_eq {link : LruNode → LruNode} {es : List ℕ} {q : LruNode}
    (hlive : ∀ e ∈ es, (c.entry e).live = true) {prev : LruNode → LruNode}
    (h : Ring.Seg ⟨link, prev⟩ q (es.map .entry) .list) (n : ℕ) :
    c.traverseLinks link n (link q) = some ((es.take n).map c.pair) := by
  induction es generalizing q n with
  | nil =>
    have hq : link q = .list := h.1
    rw [hq]
    cases n <;> rfl
  | cons e es ih =>
    have hq : link q = .entry e := h.1
    rw [hq]
    cases n with
    | zero => rfl
    | succ n =>
      rw [traverseLinks, if_pos (hlive e List.mem_cons_self),
        ih (fun x hx => hlive x (List.mem_cons_of_mem e hx)) h.2.2]
      rfl

/-! ## What they show -/

/-- What the traversals show: the entries `es` of the map, and those of them that are `idle`. -/
structure Traverses (p : CacheParams K) (c : Cache K D) (es idle : List ℕ) : Prop where
  all : c.traverse p = some (es.map c.pair)
  /-- The entries that were inserted last under their keys, and are not gone. -/
  mem_iff : ∀ e, e ∈ es ↔ Lru.current p c.entry c.log (c.entry e).key = some e
  nodup : es.Nodup
  keys : es.Pairwise fun e e' => ¬p.Same (c.entry e).key (c.entry e').key
  lru : ∀ n, c.traverseLru n = some ((idle.take n).map c.pair)
  mru : ∀ n, c.traverseMru n = some ((idle.reverse.take n).map c.pair)
  /-- Nobody holds them. -/
  idle_perm : idle.Perm (es.filter fun e => decide (handles c.log e = 0))
  /-- In the order in which the last handle on them was released. -/
  order : idle.Pairwise fun e e' => Lru.time c.log e < Lru.time c.log e'

/-- The current entry under a key was inserted and is not gone. -/
theorem mem_of_current {entry : ℕ → CEntry K D} {log : List CNote} {key : K} {e : ℕ}
    (h : Lru.current p entry log key = some e) : .inserted e ∈ log ∧ ∀ why, .gone e why ∉ log := by
  obtain ⟨hlast, hgone⟩ := Option.filter_eq_some_iff.mp h
  constructor
  · obtain ⟨n, hn, heq⟩ := List.exists_of_findSome?_eq_some hlast
    cases n with
    | inserted x =>
      simp only at heq
      split_ifs at heq
      cases heq
      exact hn
    | _ => cases heq
  · intro why hwhy
    rw [Lru.isGone_iff.mpr ⟨why, hwhy⟩] at hgone
    cases hgone

/-- The traversals of a cache that represents a map. -/
theorem Rep.traverses {buckets : ℕ → List ℕ} (h : Rep p c a buckets) (hp : p.Lawful) (hwf : a.WF)
    (hold : a.Older p) : Traverses p c (c.shown (entries p buckets)) a.idle := by
  -- What is shown is in the table and not marked for deletion.
  have hmem : ∀ e, e ∈ c.shown (entries p buckets) ↔ e ∈ a.table ∧ (a.entry e).delete_pending = false := by
    intro e
    rw [shown, List.mem_filter, h.mem_entries, h.entry]
    simp
  have hlive : ∀ e ∈ a.table, e < a.created ∧ (c.entry e).live = true := by
    rw [h.entry]
    exact fun e => (hwf.ok e).live
  have hidle : ∀ e ∈ a.idle, (c.entry e).live = true := fun e he =>
    (hlive e ((hwf.ok e).idle.mp he).1).2
  have hnodup : (c.shown (entries p buckets)).Nodup := h.entries_nodup.filter _
  constructor
  · refine traverse_eq fun b => traverseChain_eq (h.chain.linked b) (fun e he => ?_) ?_
    · exact (hlive e ((h.mem e).mpr ⟨b, he⟩)).2
    · -- A chain has no entry twice, so the fuel is enough for it.
      rw [h.created]
      exact Nat.lt_succ_of_le (length_le_of_lt (h.chain.nodup b) fun e he =>
        (hlive e ((h.mem e).mpr ⟨b, he⟩)).1)
  · intro e
    rw [hmem, h.entry, h.log]
    constructor
    · rintro ⟨htable, hpending⟩
      -- The one that is shown for a key is its current entry.
      refine (Lru.eq_current hp hwf hold (fun e' he' => ?_) fun hnone => by cases hnone).symm
      cases he'
      exact ⟨htable, hpending, hp.refl _⟩
    · exact fun hcurrent => (hwf.ok e).current.mpr (mem_of_current hcurrent)
  · exact hnodup
  · refine hnodup.imp_of_mem fun {e e'} he he' hne hsame => hne ?_
    rw [h.entry] at hsame
    obtain ⟨htable, hpending⟩ := (hmem e).mp he
    obtain ⟨htable', hpending'⟩ := (hmem e').mp he'
    exact Lru.eq_of_same hp hwf hold htable htable' hpending hpending' hsame
  · exact traverseLinks_eq hidle h.ring.2
  · -- The other direction is the ring read backwards.
    intro n
    have hring := h.ring.flip.2
    rw [← List.map_reverse] at hring
    exact traverseLinks_eq (fun e he => hidle e (List.mem_reverse.mp he)) hring n
  · refine (List.perm_ext_iff_of_nodup hwf.nodup (hnodup.filter _)).mpr fun e => ?_
    rw [List.mem_filter, hmem, (hwf.ok e).idle, decide_eq_true_eq, h.log]
    constructor
    · rintro ⟨htable, href⟩
      -- A deleted entry without a handle would have been freed.
      refine ⟨⟨htable, ?_⟩, (hwf.ref_eq_handles htable).symm.trans href⟩
      by_contra hpending
      have hpos := (hwf.ok e).pending htable (Bool.not_eq_false _ ▸ hpending)
      omega
    · rintro ⟨⟨htable, -⟩, hhandles⟩
      exact ⟨htable, (hwf.ref_eq_handles htable).trans hhandles⟩
  · rw [h.log]
    exact hwf.order

/-- Whatever clients have done, the traversals show the entries of the map. -/
theorem run_traverses (p : CacheParams K) (hp : p.Lawful) (x : CEntry K D) (n : Ring.Links LruNode)
    (ops : List (Op K D)) (hops : Runs.Meets (step p) Client (init x n) ops) :
    ∃ c, Runs.run (step p) (init x n) ops = some c ∧ ∃ es idle, Traverses p c es idle := by
  obtain ⟨c, hc, a, ⟨buckets, hrep⟩, hwf, hold⟩ := Runs.run_total step_inv (init_inv p x n) hops
  exact ⟨c, hc, _, _, hrep.traverses hp hwf (hold hp)⟩

/-- The same with room for three entries. -/
def threeEntries : CacheParams ℕ := { twoEntries with max_size := 3, max_size_lt := by decide }

/-- The functions of this cache are lawful. -/
theorem threeEntries_lawful : threeEntries.Lawful :=
  ⟨twoEntries_lawful.refl, twoEntries_lawful.symm, twoEntries_lawful.trans, twoEntries_lawful.hash⟩

/-- Two entries on one chain are idle, the older one was released last, and one that is held was deleted. -/
def idleAndDeleted : List (Op ℕ Unit) :=
  [.create 1 () 1, .insert 0, .create 5 () 1, .insert 1, .release 1, .release 0, .create 3 () 1, .insert 2,
    .delete 2]

/-- The run is possible. The deleted entry is not shown, and the most recently used entry is the one
released last. -/
theorem run_traverses_idleAndDeleted :
    ∃ c, Runs.run (step threeEntries) newCache idleAndDeleted = some c ∧
      c.traverse threeEntries = some [(5, ()), (1, ())] ∧ c.traverseMru 1 = some [(1, ())] ∧
        ∃ es idle, Traverses threeEntries c es idle := by
  obtain ⟨c, hc, htraverses⟩ := run_traverses threeEntries threeEntries_lawful _ _ idleAndDeleted
    (show Runs.Meets (step threeEntries) Client newCache idleAndDeleted by decide +kernel)
  have hvalue : (Runs.run (step threeEntries) newCache idleAndDeleted).map
      (fun c => (c.traverse threeEntries, c.traverseMru 1)) =
      some (some [(5, ()), (1, ())], some [(1, ())]) := by decide +kernel
  have hc' : Runs.run (step threeEntries) newCache idleAndDeleted = some c := hc
  rw [hc', Option.map_some, Option.some_inj, Prod.mk.injEq] at hvalue
  exact ⟨c, hc, hvalue.1, hvalue.2, htraverses⟩

end Cache

end StWin
