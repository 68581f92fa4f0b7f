import StWin.Cache.Refine

/-!
# The operations of the cache

One theorem for each function: on a cache that represents a map it succeeds, and the map moves as the
theorem says. The evictions of an insertion take as many idle entries, from the least recently used
one on, as the weight requires, and one more if there is no slot. What they take is `evict n`, and `n`
is the least number for which the weight fits.
-/

namespace StWin.Cache

variable {K D : Type*} {p : CacheParams K} {c : Cache K D} {a : Lru K D}

/-- The map with the entries and the history of a cache. -/
def view (c : Cache K D) (table : Finset ℕ) (idle : List ℕ) : Lru K D :=
  ⟨c.entry, c.created, c.log, table, idle⟩

/-- The map that a cache holds is read off its chains and its idle list. -/
theorem Rep.eq_view {buckets : ℕ → List ℕ} (h : Rep p c a buckets) : a = c.view a.table a.idle := by
  obtain ⟨entry, created, log, table, idle⟩ := a
  rw [view, h.entry, h.created, h.log]

/-! ## Deleting and releasing -/

/-- `stx_cache_entry_delete` of an entry that is held. -/
theorem entryDelete_held {buckets : ℕ → List ℕ} (h : Rep p c a buckets) {e : ℕ} {why : Why}
    (hlive : (a.entry e).live = true) (href : 0 < (a.entry e).ref_count) :
    ∃ c', (c.note (.gone e why)).entryDelete p e = some c' ∧ Rep p c' (a.defer e why) buckets := by
  rw [h.eq_view] at hlive href ⊢
  refine ⟨(c.note (.gone e why)).setEntry e fun x => { x with delete_pending := true }, ?_, ?_⟩
  · simp only [view] at hlive href
    simp [entryDelete, hlive, href]
  · refine h.congr rfl rfl rfl rfl rfl rfl rfl rfl rfl h.created ?_ rfl rfl
    rw [h.eq_view]
    exact update_keeps rfl rfl

/-- A note in the log changes nothing in the cache. -/
theorem Rep.note {buckets : ℕ → List ℕ} (h : Rep p c a buckets) (n : CNote) :
    Rep p (c.note n) { a with log := n :: a.log } buckets := by
  refine h.congr rfl rfl rfl rfl rfl rfl rfl rfl rfl rfl (fun _ => ⟨rfl, rfl⟩) h.entry ?_
  show n :: c.log = n :: a.log
  rw [h.log]

/-- `stx_cache_entry_delete` of an entry that nobody holds. -/
theorem entryDelete_free {buckets : ℕ → List ℕ} (h : Rep p c a buckets) {e : ℕ}
    (hlt : e < a.created) (hlive : (a.entry e).live = true) (href : (a.entry e).ref_count = 0)
    (hidle : e ∈ a.idle ↔ e ∈ a.table) :
    ∃ c', c.entryDelete p e = some c' ∧
      Rep p c' { a.setEntry e (fun x => { x with delete_pending := true, live := false }) with
        table := a.table.erase e
        idle := a.idle.erase e
        log := .freed e :: a.log } (fun b => (buckets b).erase e) := by
  rw [h.eq_view] at hlive href
  simp only [view] at hlive href
  -- The assignment of `delete_pending`.
  have hmark : Rep p (c.setEntry e fun x => { x with delete_pending := true })
      (a.setEntry e fun x => { x with delete_pending := true }) buckets := by
    refine h.congr rfl rfl rfl rfl rfl rfl rfl rfl rfl rfl (update_keeps rfl rfl) ?_ h.log
    show Function.update c.entry e _ = Function.update a.entry e _
    rw [h.entry]
  have hentry := a.setEntry_setEntry e (fun x => { x with delete_pending := true })
    fun x => { x with live := false }
  by_cases he : e ∈ a.table
  · -- It is unlinked from its chain and from the LRU list.
    have hpthis : (c.chain.pthis e).isSome = true := by
      obtain ⟨b, hb⟩ := (h.mem e).mp he
      rw [Option.isSome_iff_ne_none]
      exact (h.chain.linked b).pthis_ne_none hb
    have h' := hmark.remove he (hidle.mpr he) hlt
    refine ⟨((c.setEntry e fun x => { x with delete_pending := true }).unlinkEntry p e).freeEntry e, ?_,
      ?_⟩
    · simp only [entryDelete, hlive, if_true]
      rw [if_neg (by simp [href]), if_pos (by simpa using hpthis)]
    · rw [hentry] at h'
      exact h'
  · -- It is not linked anywhere.
    have hpthis : c.chain.pthis e = none := by
      by_contra hne
      exact he (h.pthis e hlt hne)
    have hbuckets : (fun b => (buckets b).erase e) = buckets :=
      funext fun b => List.erase_of_not_mem fun hb => he ((h.mem e).mpr ⟨b, hb⟩)
    refine ⟨(c.setEntry e fun x => { x with delete_pending := true }).freeEntry e, ?_, ?_⟩
    · simp only [entryDelete, hlive, if_true]
      rw [if_neg (by simp [href]), if_neg (by simp [hpthis])]
    · rw [Finset.erase_eq_of_notMem he, List.erase_of_not_mem (fun hmem => he (hidle.mp hmem)),
        hbuckets]
      have hchain := hmark.chain.setPthis (fun b hb => he ((h.mem e).mpr ⟨b, hb⟩)) none
      have hpthis' : ∀ x, x < a.created → (c.chain.setPthis e none).pthis x ≠ none → x ∈ a.table := by
        intro x hx hne
        refine h.pthis x hx fun hnone => hne ?_
        simp [Chain.Table.setPthis, Function.update_apply, hnone]
      have hfree : Rep p { c.setEntry e (fun x => { x with delete_pending := true }) with
          chain := c.chain.setPthis e none } (a.setEntry e fun x => { x with delete_pending := true })
          buckets :=
        { hmark with
          chain := hchain
          pthis := hpthis' }
      have hlast : Rep p ((c.setEntry e fun x => { x with delete_pending := true }).freeEntry e)
          { (a.setEntry e fun x => { x with delete_pending := true }).setEntry e
            (fun x => { x with live := false }) with log := .freed e :: a.log } buckets := by
        refine hfree.congr rfl rfl rfl rfl rfl rfl rfl rfl rfl rfl (update_keeps rfl rfl) ?_ ?_
        · show Function.update _ e _ = Function.update _ e _
          rw [hmark.entry]
        · show CNote.freed e :: c.log = CNote.freed e :: a.log
          rw [h.log]
      rw [hentry] at hlast
      exact hlast

/-- `stx_cache_entry_delete`. -/
theorem entryDelete_rep {buckets : ℕ → List ℕ} (h : Rep p c a buckets) (hwf : a.WF) {e : ℕ}
    (hlive : e < a.created ∧ (a.entry e).live = true) (why : Why) :
    ∃ c' buckets', (c.note (.gone e why)).entryDelete p e = some c' ∧
      Rep p c' (a.delete e why) buckets' ∧
      (buckets' = buckets ∨ buckets' = fun b => (buckets b).erase e) := by
  unfold Lru.delete
  split_ifs with href
  · obtain ⟨c', hc', h'⟩ := entryDelete_held h hlive.2 href
    exact ⟨c', buckets, hc', h', Or.inl rfl⟩
  · have hzero : (a.entry e).ref_count = 0 := by omega
    have hidle : e ∈ a.idle ↔ e ∈ a.table := by
      rw [(hwf.ok e).idle]
      exact and_iff_left hzero
    obtain ⟨c', hc', h'⟩ := entryDelete_free (h.note (.gone e why)) hlive.1 hlive.2 hzero hidle
    exact ⟨c', _, hc', h', Or.inr rfl⟩

/-- `stx_cache_entry_delete` of a live entry. -/
theorem entryDelete_spec (h : Reps p c a) (hwf : a.WF) {e : ℕ}
    (hlive : e < a.created ∧ (a.entry e).live = true) (why : Why) :
    ∃ c', (c.note (.gone e why)).entryDelete p e = some c' ∧ Reps p c' (a.delete e why) := by
  obtain ⟨buckets, h⟩ := h
  obtain ⟨c', buckets', hc', h', -⟩ := entryDelete_rep h hwf hlive why
  exact ⟨c', hc', buckets', h'⟩

/-- `stx_cache_entry_release` of a handle. -/
theorem entryRelease_spec (h : Reps p c a) (hwf : a.WF) {e : ℕ} (he : e ∈ a.table)
    (href : 0 < (a.entry e).ref_count) :
    ∃ c', c.entryRelease p e = some c' ∧ Reps p c' (a.release e) := by
  obtain ⟨hlt, hlive⟩ := (hwf.ok e).live he
  have hnot : e ∉ a.idle := fun hmem => by
    have hzero := ((hwf.ok e).idle.mp hmem).2
    omega
  obtain ⟨buckets, h⟩ := h
  have hlive' : (c.entry e).live = true := h.entry ▸ hlive
  have hne : (c.entry e).ref_count ≠ 0 := by
    rw [h.entry]
    omega
  -- The decremented `ref_count`.
  have hput : Rep p ((c.setEntry e fun x => { x with ref_count := x.ref_count - 1 }).note (.released e))
      (a.put e) buckets := by
    refine h.congr rfl rfl rfl rfl rfl rfl rfl rfl rfl rfl (update_keeps rfl rfl) ?_ ?_
    · show Function.update c.entry e _ = Function.update a.entry e _
      rw [h.entry]
    · show CNote.released e :: c.log = CNote.released e :: a.log
      rw [h.log]
  -- If it is `0`, the entry is put on the LRU list.
  have hrest : Rep p ({ (c.setEntry e fun x => { x with ref_count := x.ref_count - 1 }).note (.released e)
      with lru := Ring.insertBefore c.lru (.entry e) .list }.note (.idle e)) (a.rest e) buckets :=
    (hput.append_idle hnot).note (.idle e)
  unfold Lru.release
  split_ifs with hmore hp
  · refine ⟨_, ?_, buckets, hput⟩
    simp only [entryRelease, hlive', if_true, if_neg hne]
    refine if_neg ?_
    rw [note_entry, setEntry_self, h.entry]
    show (a.entry e).ref_count - 1 ≠ 0
    omega
  · have hone : (c.entry e).ref_count - 1 = 0 := by
      rw [h.entry]
      omega
    have hp' : (c.entry e).delete_pending = true := h.entry ▸ hp
    have hself : (a.rest e).entry e = { a.entry e with ref_count := (a.entry e).ref_count - 1 } :=
      Function.update_self e _ _
    obtain ⟨c', hc', hleave⟩ := entryDelete_free hrest hlt (by rw [hself]; exact hlive)
      (by rw [hself]; exact h.entry ▸ hone) (by simp [he])
    refine ⟨c', ?_, ?_⟩
    · simp only [entryRelease, hlive', if_true, if_neg hne, note_entry, setEntry_self, hone]
      rw [if_pos (by simpa using hp')]
      exact hc'
    · have hentry := a.setEntry_setEntry e (fun x => { x with ref_count := x.ref_count - 1 })
        fun x => { x with delete_pending := true, live := false }
      have hidle : (a.idle ++ [e]).erase e = a.idle := by
        rw [List.erase_append_right _ hnot, List.erase_cons_head, List.append_nil]
      have heq : { (a.rest e).setEntry e (fun x => { x with delete_pending := true, live := false }) with
          table := (a.rest e).table.erase e
          idle := (a.rest e).idle.erase e
          log := .freed e :: (a.rest e).log } = a.leave e := by
        have hsame := congrArg Lru.entry hentry
        change ((a.rest e).setEntry e fun x => { x with delete_pending := true, live := false }).entry =
          (a.leave e).entry at hsame
        simp only [Lru.rest_idle, hidle, hsame]
        rfl
      rw [heq] at hleave
      exact ⟨_, hleave⟩
  · have hone : (c.entry e).ref_count - 1 = 0 := by
      rw [h.entry]
      omega
    have hp' : ¬(c.entry e).delete_pending = true := h.entry ▸ hp
    refine ⟨_, ?_, buckets, hrest⟩
    simp only [entryRelease, hlive', if_true, if_neg hne, note_entry, setEntry_self, hone]
    rw [if_neg (by simpa using hp')]
    rfl

/-! ## Looking for a key -/

/-- The entry has the key, and is not marked. -/
def matchesKey (p : CacheParams K) (entry : ℕ → CEntry K D) (key : K) (e : ℕ) : Bool :=
  !(entry e).delete_pending ∧ p.key_cmp_fn key (entry e).key = 0

/-- The loop over a chain finds its first entry with the key that is not to be deleted. The induction is
on the chain. -/
theorem findKey_eq {l : Chain.Link ℕ ℕ} {es : List ℕ} (h : Chain.Linked c.chain l es)
    (hlive : ∀ e ∈ es, (c.entry e).live = true) {fuel : ℕ} (hfuel : es.length < fuel) (key : K) :
    c.findKey p key fuel (c.chain.get l) = some (es.find? (matchesKey p c.entry key)) := by
  induction es generalizing l fuel with
  | nil =>
    obtain ⟨fuel, rfl⟩ := Nat.exists_eq_succ_of_ne_zero (Nat.ne_of_gt hfuel)
    rw [show c.chain.get l = none from h]
    rfl
  | cons e es ih =>
    obtain ⟨fuel, rfl⟩ := Nat.exists_eq_succ_of_ne_zero (Nat.ne_of_gt (Nat.zero_lt_of_lt hfuel))
    rw [h.1, findKey, if_pos (hlive e List.mem_cons_self), List.find?_cons]
    by_cases hmatch : matchesKey p c.entry key e = true
    · rw [if_pos (of_decide_eq_true hmatch), hmatch]
    · rw [if_neg fun hyes => hmatch (decide_eq_true hyes), Bool.not_eq_true _ |>.mp hmatch]
      refine ih h.2.2 (fun x hx => hlive x (List.mem_cons_of_mem e hx)) ?_
      exact Nat.lt_of_succ_lt_succ hfuel

/-- What a search for a key in the table gives. -/
structure Found (p : CacheParams K) (a : Lru K D) (key : K) (r : Option ℕ) : Prop where
  hit : ∀ e, r = some e → e ∈ a.table ∧ (a.entry e).delete_pending = false ∧
    p.Same key (a.entry e).key
  miss : r = none → ∀ e ∈ a.table, p.bucket (a.entry e).key = p.bucket key →
    (a.entry e).delete_pending = false → ¬p.Same key (a.entry e).key

/-- A list of different entries is not longer than the number of entries. -/
theorem length_le_of_lt {es : List ℕ} {n : ℕ} (hnodup : es.Nodup) (hlt : ∀ e ∈ es, e < n) :
    es.length ≤ n := by
  have hsub : es.Subperm (List.range n) :=
    List.subperm_of_subset hnodup fun e he => List.mem_range.mpr (hlt e he)
  simpa using hsub.length_le

/-- The search in the bucket of a key, with enough fuel for its chain. -/
theorem findKey_spec (h : Reps p c a) (hwf : a.WF) (key : K) :
    ∃ r, c.findKey p key (c.created + 1) (c.chain.head (p.bucket key)) = some r ∧ Found p a key r := by
  obtain ⟨buckets, h⟩ := h
  have hlive : ∀ e ∈ buckets (p.bucket key), e < a.created ∧ (a.entry e).live = true :=
    fun e he => (hwf.ok e).live ((h.mem e).mpr ⟨_, he⟩)
  have hfuel : (buckets (p.bucket key)).length < c.created + 1 := by
    rw [h.created]
    exact Nat.lt_succ_of_le (length_le_of_lt (h.chain.nodup _) fun e he => (hlive e he).1)
  refine ⟨_, findKey_eq (h.chain.linked (p.bucket key))
    (fun e he => by rw [h.entry]; exact (hlive e he).2) hfuel key, ?_⟩
  rw [h.entry]
  constructor
  · intro e he
    have hmatch := List.find?_some he
    have hmem := List.mem_of_find?_eq_some he
    simp only [matchesKey, decide_eq_true_eq, Bool.not_eq_true'] at hmatch
    exact ⟨(h.mem e).mpr ⟨_, hmem⟩, hmatch.1, hmatch.2⟩
  · intro hnone e he hbucket hp hsame
    have hmem := h.mem_bucket.mp he
    rw [hbucket] at hmem
    have hno := List.find?_eq_none.mp hnone e hmem
    have hzero : p.key_cmp_fn key (a.entry e).key = 0 := hsame
    exact hno (by simp [matchesKey, hp, hzero])

/-- With a lawful `match_fn`, a search that finds nothing says that no entry has the key. -/
theorem Found.lawful {key : K} {r : Option ℕ} (h : Found p a key r) (hp : p.Lawful) :
    r = none → ∀ e ∈ a.table, (a.entry e).delete_pending = false → ¬p.Same key (a.entry e).key :=
  fun hr e he hpend hsame => h.miss hr e he (hp.bucket hsame).symm hpend hsame

/-- `stx_cache_entry_lookup`. -/
theorem entryLookup_spec (h : Reps p c a) (hwf : a.WF) (key : K) :
    ∃ c' r, c.entryLookup p key = some (c', r) ∧ Found p a key r ∧ Reps p c' (r.elim a a.take) := by
  -- The counter of lookups is not represented.
  have hcount : Reps p { c with lookups := (c.lookups + 1) % p.ulongMod } a := by
    obtain ⟨buckets, h⟩ := h
    exact ⟨buckets, h.congr rfl rfl rfl rfl rfl rfl rfl rfl rfl rfl (fun _ => ⟨rfl, rfl⟩) h.entry h.log⟩
  obtain ⟨r, hr, hfound⟩ := findKey_spec hcount hwf key
  cases r with
  | none =>
    refine ⟨_, none, ?_, hfound, hcount⟩
    simp only [entryLookup, hr]
    rfl
  | some e =>
    refine ⟨{ c with lookups := (c.lookups + 1) % p.ulongMod }.hit p e, some e, ?_, hfound, ?_⟩
    · simp only [entryLookup, hr]
      rfl
    · obtain ⟨buckets, h⟩ := hcount
      refine ⟨buckets, ?_⟩
      have hidle := (hwf.ok e).idle
      by_cases href : (a.entry e).ref_count = 0
      · -- It leaves the LRU list.
        have hmem : e ∈ a.idle := hidle.mpr ⟨(hfound.hit e rfl).1, href⟩
        have href' : (c.entry e).ref_count = 0 := by
          rw [show c.entry = a.entry from h.entry]
          exact href
        simp only [hit, href', if_true]
        refine (h.erase_idle hmem).congr rfl rfl rfl rfl rfl rfl rfl rfl rfl rfl (update_keeps rfl rfl)
          ?_ ?_
        · show Function.update c.entry e _ = Function.update a.entry e _
          rw [show c.entry = a.entry from h.entry]
        · show CNote.found e :: c.log = CNote.found e :: a.log
          rw [show c.log = a.log from h.log]
      · have hmem : e ∉ a.idle := fun hmem => href (hidle.mp hmem).2
        have href' : ¬(c.entry e).ref_count = 0 := by
          rw [show c.entry = a.entry from h.entry]
          exact href
        simp only [hit, href', if_false]
        refine h.congr rfl rfl rfl rfl rfl rfl rfl rfl (List.erase_of_not_mem hmem) rfl
          (update_keeps rfl rfl) ?_ ?_
        · show Function.update c.entry e _ = Function.update a.entry e _
          rw [show c.entry = a.entry from h.entry]
        · show CNote.found e :: c.log = CNote.found e :: a.log
          rw [show c.log = a.log from h.log]

/-! ## Inserting -/

/-- The least recently used entry is the first one of the idle list. -/
theorem entryGetlru_eq (h : Reps p c a) : c.entryGetlru = a.idle.head? := by
  obtain ⟨buckets, h⟩ := h
  have hring := h.ring
  unfold entryGetlru
  cases hidle : a.idle with
  | nil =>
    rw [hidle] at hring
    rw [hring.next_eq_iff.mpr rfl]
    rfl
  | cons e es =>
    rw [hidle] at hring
    rw [hring.next_head]
    rfl

/-- The least recently used entry is evicted. -/
theorem evict_one (h : Reps p c a) (hwf : a.WF) {e : ℕ} {es : List ℕ} (hidle : a.idle = e :: es) :
    ∃ c', (c.note (.gone e .evicted)).entryDelete p e = some c' ∧
      Reps p c' (a.discard e .evicted) := by
  obtain ⟨htable, href, -, -⟩ := hwf.discard_head hidle
  have hdelete := entryDelete_spec h hwf ((hwf.ok e).live htable) .evicted
  rwa [Lru.delete, if_neg (by omega)] at hdelete

/-- The cache's weight and the map's agree modulo the width of the counter. -/
theorem cur_weight_add (h : Reps p c a) (w : ℕ) :
    (c.cur_weight + w) % p.sizeMod = (a.weight + w) % p.sizeMod := by
  obtain ⟨buckets, h⟩ := h
  rw [h.weight, Nat.mod_add_mod]

/-- The loop of `stx_cache_entry_insert`. -/
theorem makeRoom_spec (w : ℕ) {fuel : ℕ} : ∀ {c : Cache K D} {a : Lru K D}, Reps p c a → a.WF →
    a.idle.length < fuel → ∃ c' n, Reps p c' (a.evict n) ∧
      (makeRoom p w fuel c = some (c', true) ∧ a.Room p w n ∨
        makeRoom p w fuel c = some (c', false) ∧ n = a.idle.length) := by
  induction fuel with
  | zero => exact fun _ _ hfuel => absurd hfuel (Nat.not_lt_zero _)
  | succ fuel ih =>
    intro c a h hwf hfuel
    by_cases hover : a.Over p w
    · have htest : p.max_weight < (c.cur_weight + w) % p.sizeMod := by
        rw [cur_weight_add h]
        exact hover
      have hlru := entryGetlru_eq h
      cases hidle : a.idle with
      | nil =>
        rw [hidle] at hlru
        refine ⟨c, 0, h, Or.inr ⟨?_, rfl⟩⟩
        rw [makeRoom, if_pos htest, hlru]
        rfl
      | cons e es =>
        rw [hidle] at hlru
        -- One round of the loop, and the rest of it.
        obtain ⟨c₁, hc₁, h₁⟩ := evict_one h hwf hidle
        obtain ⟨-, -, hwf₁, hes⟩ := hwf.discard_head hidle
        have hfuel₁ : (a.discard e .evicted).idle.length < fuel := by
          rw [hes]
          rw [hidle, List.length_cons] at hfuel
          omega
        obtain ⟨c', n, h', hend⟩ := ih h₁ hwf₁ hfuel₁
        have hround : makeRoom p w (fuel + 1) c = makeRoom p w fuel c₁ := by
          rw [makeRoom, if_pos htest, hlru]
          show ((c.note (.gone e .evicted)).entryDelete p e).bind _ = _
          rw [hc₁]
          rfl
        have hevict : ∀ m, a.evict (m + 1) = (a.discard e .evicted).evict m := by
          intro m
          simp only [Lru.evict, hidle]
        refine ⟨c', n + 1, by rw [hevict]; exact h', ?_⟩
        rw [hround]
        rcases hend with ⟨hc', hroom⟩ | ⟨hc', hn⟩
        · refine Or.inl ⟨hc', ?_, ?_, ?_⟩
          · have hle := hroom.le
            rw [hes] at hle
            rw [hidle, List.length_cons]
            omega
          · intro m hm
            cases m with
            | zero => exact hover
            | succ m =>
              rw [hevict]
              exact hroom.exceeds m (by omega)
          · rw [hevict]
            exact hroom.fits
        · refine Or.inr ⟨hc', ?_⟩
          rw [hn, hes]
          rfl
    · refine ⟨c, 0, h, Or.inl ⟨?_, Nat.zero_le _, fun m hm => absurd hm (Nat.not_lt_zero m), hover⟩⟩
      rw [makeRoom, if_neg]
      rw [cur_weight_add h]
      exact hover

/-- One more entry goes if there is no slot. -/
theorem makeSlot_spec (h : Reps p c a) (hwf : a.WF) :
    ∃ c', makeSlot p c = some (c', true) ∧
        (∃ s, s = (if p.max_size ≤ a.table.card then 1 else 0) ∧ s ≤ a.idle.length ∧
          Reps p c' (a.evict s) ∧ (a.evict s).table.card < p.max_size) ∨
      makeSlot p c = some (c', false) ∧ c' = c ∧ p.max_size ≤ a.table.card ∧ a.idle = [] := by
  have hsize : c.cur_size = a.table.card := by
    obtain ⟨buckets, h⟩ := h
    exact h.size
  have hle : a.table.card ≤ p.max_size := by
    obtain ⟨buckets, h⟩ := h
    exact h.size_le
  -- Without an idle entry the insertion is refused.
  have hlru := entryGetlru_eq h
  by_cases hfull : p.max_size ≤ a.table.card
  · cases hidle : a.idle with
    | nil =>
      rw [hidle] at hlru
      refine ⟨c, Or.inr ⟨?_, rfl, hfull, rfl⟩⟩
      rw [makeSlot, hsize, if_pos hfull, hlru]
      rfl
    | cons e es =>
      rw [hidle] at hlru
      obtain ⟨c', hc', h'⟩ := evict_one h hwf hidle
      have htable := (hwf.discard_head hidle).1
      have hone : a.evict 1 = a.discard e .evicted := by
        simp only [Lru.evict, hidle]
      refine ⟨c', Or.inl ⟨?_, 1, by rw [if_pos hfull], by simp, by rw [hone]; exact h', ?_⟩⟩
      · rw [makeSlot, hsize, if_pos hfull, hlru]
        show Option.map _ ((c.note (.gone e .evicted)).entryDelete p e) = _
        rw [hc']
        rfl
      · rw [hone]
        show (a.table.erase e).card < p.max_size
        -- One eviction is enough, since the table was not over its size.
        have hpos : 0 < a.table.card := Finset.card_pos.mpr ⟨e, htable⟩
        rw [Finset.card_erase_of_mem htable]
        omega
  · refine ⟨c, Or.inl ⟨?_, 0, by rw [if_neg hfull], Nat.zero_le _, h, by show a.table.card < _; omega⟩⟩
    rw [makeSlot, hsize, if_neg hfull]

/-- The duplicate is deleted. -/
theorem dropDuplicate_spec (h : Reps p c a) (hwf : a.WF) {e : ℕ} (hfresh : a.Fresh e) :
    ∃ c' dup, c.dropDuplicate p e = some c' ∧ Found p a (a.entry e).key dup ∧
      Reps p c' (a.replace dup) ∧ (a.replace dup).WF ∧ (a.replace dup).Fresh e ∧
      (a.replace dup).entry e = a.entry e ∧ (a.replace dup).table ⊆ a.table := by
  have hkey : (c.entry e).key = (a.entry e).key := by
    obtain ⟨buckets, h⟩ := h
    rw [h.entry]
  obtain ⟨dup, hdup, hfound⟩ := findKey_spec h hwf (a.entry e).key
  cases dup with
  | none =>
    refine ⟨c, none, ?_, hfound, h, hwf, hfresh, rfl, Finset.Subset.refl _⟩
    simp only [dropDuplicate, hkey, hdup]
    rfl
  | some x =>
    have hmem := (hfound.hit x rfl).1
    have hne : e ≠ x := fun heq => hfresh.not_mem (heq ▸ hmem)
    obtain ⟨c', hc', h'⟩ := entryDelete_spec h hwf ((hwf.ok x).live hmem) .replaced
    refine ⟨c', some x, ?_, hfound, h', Lru.delete_wf hwf ((hwf.ok x).live hmem) .replaced,
      hfresh.delete hmem .replaced, Lru.delete_entry_of_ne hne .replaced,
      Lru.delete_table_subset a x .replaced⟩
    simp only [dropDuplicate, hkey, hdup]
    exact hc'

/-- An entry adds its own weight to the map's. -/
theorem add_weight {e : ℕ} (he : e ∉ a.table) : (a.add e).weight = (a.entry e).weight + a.weight := by
  have hkeep : ∀ x, ((a.add e).entry x).weight = (a.entry x).weight :=
    fun x => (Lru.keeps_of_update rfl (by rfl) (by rfl) x).2
  calc (a.add e).weight = ∑ x ∈ insert e a.table, ((a.add e).entry x).weight := rfl
    _ = ∑ x ∈ insert e a.table, (a.entry x).weight := Finset.sum_congr rfl fun x _ => hkeep x
    _ = (a.entry e).weight + a.weight := Finset.sum_insert he

/-- The entry is linked into the table. -/
theorem link_spec (h : Reps p c a) {e : ℕ} (hfresh : a.Fresh e) (hcard : a.table.card < p.max_size) :
    Reps p (c.link p e) (a.add e) := by
  obtain ⟨buckets, h⟩ := h
  have hout : ∀ b, e ∉ buckets b := fun b hb => hfresh.not_mem ((h.mem e).mpr ⟨b, hb⟩)
  have hkeep : ∀ x, ((a.add e).entry x).key = (a.entry x).key ∧
      ((a.add e).entry x).weight = (a.entry x).weight := update_keeps rfl rfl
  have hkey : (c.entry e).key = (a.entry e).key := by rw [h.entry]
  have hmem : ∀ {b x}, x ∈ Function.update buckets (p.bucket (a.entry e).key)
      (e :: buckets (p.bucket (a.entry e).key)) b ↔
      x ∈ buckets b ∨ x = e ∧ b = p.bucket (a.entry e).key := by
    intro b x
    by_cases hb : b = p.bucket (a.entry e).key
    · rw [hb, Function.update_self, List.mem_cons]
      tauto
    · rw [Function.update_of_ne hb]
      tauto
  have hsum := add_weight hfresh.not_mem
  refine ⟨Function.update buckets (p.bucket (a.entry e).key)
    (e :: buckets (p.bucket (a.entry e).key)), ?_⟩
  constructor
  · show Function.update c.entry e _ = Function.update a.entry e _
    rw [h.entry]
  · exact h.created
  · show CNote.inserted e :: c.log = CNote.inserted e :: a.log
    rw [h.log]
  · show Chain.Rep (c.chain.push (p.bucket (c.entry e).key) e) _
    rw [hkey]
    exact Chain.push_rep h.chain _ hout
  · intro x
    simp only [Lru.add_table, Finset.mem_insert, hmem, h.mem]
    constructor
    · rintro (rfl | ⟨b, hb⟩)
      · exact ⟨_, Or.inr ⟨rfl, rfl⟩⟩
      · exact ⟨b, Or.inl hb⟩
    · rintro ⟨b, hb | ⟨rfl, -⟩⟩
      · exact Or.inr ⟨b, hb⟩
      · exact Or.inl rfl
  · intro b x hx
    rw [(hkeep x).1]
    rcases hmem.mp hx with hx | ⟨rfl, hb⟩
    · exact h.hash hx
    · exact hb
  · intro x hx hne
    refine Finset.mem_insert.mpr ?_
    change (c.chain.push (p.bucket (c.entry e).key) e).pthis x ≠ none at hne
    rw [Chain.push_pthis] at hne
    split_ifs at hne with hhead hxe
    -- The entry that was the first one of the bucket.
    · right
      have hlinked : c.chain.head _ = _ := (h.chain.linked (p.bucket (c.entry e).key)).get_eq
      rw [hlinked] at hhead
      exact (h.mem x).mpr ⟨_, List.mem_of_mem_head? hhead⟩
    · exact Or.inl hxe
    · exact Or.inr (h.pthis x hx hne)
  · exact h.ring
  · show (c.cur_size + 1) % p.sizeMod = (insert e a.table).card
    have hlt : a.table.card + 1 < p.sizeMod := lt_of_le_of_lt hcard p.max_size_lt
    rw [h.size, Finset.card_insert_of_notMem hfresh.not_mem, Nat.mod_eq_of_lt hlt]
  · show (insert e a.table).card ≤ p.max_size
    rw [Finset.card_insert_of_notMem hfresh.not_mem]
    exact hcard
  · show (c.cur_weight + (c.entry e).weight) % p.sizeMod = _
    rw [cur_weight_add ⟨buckets, h⟩, h.entry, hsum, Nat.add_comm]
  · intro x hx
    rw [(hkeep x).2]
    exact h.weight_lt x hx
  · show (c.deletes + (insert e a.table).card) % p.ulongMod = (c.inserts + 1) % p.ulongMod % p.ulongMod
    rw [Finset.card_insert_of_notMem hfresh.not_mem]
    calc (c.deletes + (a.table.card + 1)) % p.ulongMod
        = ((c.deletes + a.table.card) % p.ulongMod + 1) % p.ulongMod := by
          rw [Nat.mod_add_mod, Nat.add_assoc]
      _ = (c.inserts + 1) % p.ulongMod := by rw [h.count, Nat.mod_add_mod]
      _ = (c.inserts + 1) % p.ulongMod % p.ulongMod := (Nat.mod_mod _ _).symm

/-- What `stx_cache_entry_insert` of `e` returns and does. -/
inductive Inserts (p : CacheParams K) (a : Lru K D) (e : ℕ) : ℤ → Lru K D → Prop
  /-- All idle entries are evicted, and there is no room. -/
  | noRoom : Inserts p a e (-1) (a.evict a.idle.length)
  /-- There is room, but no slot, and no idle entry is left. -/
  | noSlot (n : ℕ) (room : a.Room p (a.entry e).weight n) (full : p.max_size ≤ (a.evict n).table.card)
      (none : (a.evict n).idle = []) : Inserts p a e (-1) (a.evict n)
  | done (n s : ℕ) (room : a.Room p (a.entry e).weight n)
      (slot : s = if p.max_size ≤ (a.evict n).table.card then 1 else 0) (le : n + s ≤ a.idle.length)
      (dup : Option ℕ) (found : Found p (a.evict (n + s)) (a.entry e).key dup)
      (wf : ((a.evict (n + s)).replace dup).WF) (fresh : ((a.evict (n + s)).replace dup).Fresh e)
      (entry : ((a.evict (n + s)).replace dup).entry e = a.entry e)
      (sub : ((a.evict (n + s)).replace dup).table ⊆ (a.evict (n + s)).table) :
      Inserts p a e 0 (((a.evict (n + s)).replace dup).add e)

/-- `stx_cache_entry_insert`. -/
theorem entryInsert_spec (h : Reps p c a) (hwf : a.WF) {e : ℕ} (hfresh : a.Fresh e) :
    ∃ c' r a', c.entryInsert p e = some (c', r) ∧ Inserts p a e r a' ∧ Reps p c' a' := by
  have hentry : c.entry = a.entry := by
    obtain ⟨buckets, h⟩ := h
    exact h.entry
  have hlive : (c.entry e).live = true := hentry ▸ hfresh.live
  -- Each round of the loop takes an idle entry, so there are fewer rounds than entries.
  have hfuel : a.idle.length < c.created + 1 := by
    obtain ⟨buckets, h⟩ := h
    rw [h.created]
    exact Nat.lt_succ_of_le (length_le_of_lt hwf.nodup fun x hx =>
      ((hwf.ok x).live ((hwf.ok x).idle.mp hx).1).1)
  -- The source's order: room for the weight, a slot, the entry with the same key, the links.
  obtain ⟨c₁, n, h₁, hroom⟩ := makeRoom_spec (a.entry e).weight h hwf hfuel
  rcases hroom with ⟨hc₁, hroom⟩ | ⟨hc₁, rfl⟩
  · have hwf₁ := Lru.evict_wf hwf n
    obtain ⟨c₂, hslot⟩ := makeSlot_spec h₁ hwf₁
    rcases hslot with ⟨hc₂, s, hs, hle, h₂, hcard⟩ | ⟨hc₂, rfl, hfull, hnone⟩
    · -- The evictions for the slot come after those for the weight.
      have hle' : n + s ≤ a.idle.length := by
        rw [(Lru.evict_spec hwf hroom.le).1, List.length_drop] at hle
        have hn := hroom.le
        omega
      rw [Lru.evict_evict] at h₂ hcard
      obtain ⟨hfresh₂, hsame⟩ := hfresh.evict hwf hle'
      obtain ⟨c₃, dup, hc₃, hfound, h₃, hwf₃, hfresh₃, hentry₃, hsub⟩ :=
        dropDuplicate_spec h₂ (Lru.evict_wf hwf (n + s)) hfresh₂
      rw [hsame] at hfound hentry₃
      refine ⟨c₃.link p e, 0, _, ?_, .done n s hroom hs hle' dup hfound hwf₃ hfresh₃ hentry₃ hsub,
        link_spec h₃ hfresh₃ (lt_of_le_of_lt (Finset.card_le_card hsub) hcard)⟩
      rw [entryInsert, if_pos hlive, hentry]
      show (makeRoom p (a.entry e).weight (c.created + 1) c).bind _ = _
      rw [hc₁]
      show (makeSlot p c₁).bind _ = _
      rw [hc₂]
      show (dropDuplicate p c₂ e).bind _ = _
      rw [hc₃]
      rfl
    · -- No slot, although the entries that went are gone.
      refine ⟨c₂, -1, _, ?_, .noSlot n hroom hfull hnone, h₁⟩
      rw [entryInsert, if_pos hlive, hentry]
      show (makeRoom p (a.entry e).weight (c.created + 1) c).bind _ = _
      rw [hc₁]
      show (makeSlot p c₂).bind _ = _
      rw [hc₂]
      rfl
  · -- No room, and every idle entry is gone.
    refine ⟨c₁, -1, _, ?_, .noRoom, h₁⟩
    rw [entryInsert, if_pos hlive, hentry]
    show (makeRoom p (a.entry e).weight (c.created + 1) c).bind _ = _
    rw [hc₁]
    rfl

/-! ## Creating and emptying -/

/-- `stx_cache_entry_create` makes an entry that is not yet in the map. -/
theorem entryCreate_spec (h : Reps p c a) (key : K) (data : D) (weight : ℕ) (hwf : a.WF) :
    Reps p (c.entryCreate p key data weight) (a.make key data (weight % p.sizeMod)) := by
  obtain ⟨buckets, h⟩ := h
  -- The new number is not in the map, so no field of an entry there changes.
  have hout : a.created ∉ a.table := fun hmem => absurd ((hwf.ok _).live hmem).1 (lt_irrefl _)
  have hne : ∀ {x}, x ∈ a.table → x ≠ a.created := fun hx heq => hout (heq ▸ hx)
  have hkeep : ∀ x ∈ a.table,
      (a.make key data (weight % p.sizeMod)).entry x = a.entry x :=
    fun x hx => Function.update_of_ne (hne hx) _ _
  have hout' : ∀ b, c.created ∉ buckets b := by
    intro b hb
    rw [h.created] at hb
    exact hout ((h.mem _).mpr ⟨b, hb⟩)
  refine ⟨buckets, ?_⟩
  constructor
  · show Function.update c.entry c.created _ = Function.update a.entry a.created _
    rw [h.entry, h.created]
  · show c.created + 1 = a.created + 1
    rw [h.created]
  · exact h.log
  · exact h.chain.setPthis hout' none
  · exact h.mem
  · intro b x hx
    rw [hkeep x ((h.mem x).mpr ⟨b, hx⟩)]
    exact h.hash hx
  · -- A new entry has no `pthis`.
    intro x hx hpthis
    change x < a.created + 1 at hx
    change Function.update c.chain.pthis c.created none x ≠ none at hpthis
    have hxe : x ≠ c.created := by
      rintro rfl
      rw [Function.update_self] at hpthis
      exact hpthis rfl
    rw [Function.update_of_ne hxe] at hpthis
    rw [h.created] at hxe
    exact h.pthis x (by omega) hpthis
  · exact h.ring
  · exact h.size
  · exact h.size_le
  · show c.cur_weight = _
    rw [h.weight, Lru.weight, Lru.weight]
    congr 1
    exact Finset.sum_congr rfl fun x hx => by rw [hkeep x hx]
  · -- The weight is cut to the width of `size_t`.
    intro x hx
    change x < a.created + 1 at hx
    by_cases hxe : x = a.created
    · rw [hxe]
      simp only [Lru.make, Function.update_self]
      exact Nat.mod_lt _ p.sizeMod_pos
    · simp only [Lru.make, Function.update_of_ne hxe]
      exact h.weight_lt x (by omega)
  · exact h.count

/-- Entries are deleted one after the other. -/
def deleteAll (a : Lru K D) (es : List ℕ) : Lru K D := es.foldl (fun a e => a.delete e .emptied) a

/-- The inner loop of `stx_cache_empty` deletes the entries of one chain. -/
theorem emptyChain_spec {b : ℕ} {es : List ℕ} : ∀ (kept : List ℕ) {c : Cache K D} {a : Lru K D}
    {buckets : ℕ → List ℕ} {fuel : ℕ}, Rep p c a buckets → a.WF →
    buckets b = kept ++ es → es.length < fuel →
    ∃ c' buckets', emptyChain p fuel es.head? c = some c' ∧ Rep p c' (deleteAll a es) buckets' ∧
      (deleteAll a es).WF ∧ ∀ b', b' ≠ b → buckets' b' = buckets b' := by
  induction es with
  | nil =>
    intro kept c a buckets fuel h hwf _ hfuel
    obtain ⟨fuel, rfl⟩ := Nat.exists_eq_succ_of_ne_zero (Nat.ne_of_gt hfuel)
    exact ⟨c, buckets, rfl, h, hwf, fun _ _ => rfl⟩
  | cons e es ih =>
    intro kept c a buckets fuel h hwf hb hfuel
    obtain ⟨fuel, rfl⟩ := Nat.exists_eq_succ_of_ne_zero (Nat.ne_of_gt (Nat.zero_lt_of_lt hfuel))
    have hmem : e ∈ buckets b := by simp [hb]
    have hlive := (hwf.ok e).live ((h.mem e).mpr ⟨b, hmem⟩)
    have hlinked := h.chain.linked b
    have hnodup := h.chain.nodup b
    rw [hb] at hlinked hnodup
    have hkept : e ∉ kept := fun hx => (List.nodup_append.mp hnodup).2.2 e hx e List.mem_cons_self rfl
    obtain ⟨c₁, buckets₁, hc₁, h₁, hsame⟩ := entryDelete_rep h hwf hlive .emptied
    -- The entry stays on its chain if it is held.
    have hrest : ∃ kept₁, buckets₁ b = kept₁ ++ es := by
      rcases hsame with rfl | rfl
      · exact ⟨kept ++ [e], by rw [hb, List.append_assoc]; rfl⟩
      · exact ⟨kept, by
          show (buckets b).erase e = _
          rw [hb, List.erase_append_right _ hkept, List.erase_cons_head]⟩
    have hothers : ∀ b', b' ≠ b → buckets₁ b' = buckets b' := by
      intro b' hb'
      rcases hsame with rfl | rfl
      · rfl
      · exact List.erase_of_not_mem fun hx => hb' (h.chain.disjoint hx hmem)
    obtain ⟨kept₁, hkept₁⟩ := hrest
    obtain ⟨c', buckets', hc', h', hwf', hothers'⟩ :=
      ih kept₁ h₁ (Lru.delete_wf hwf hlive .emptied) hkept₁ (Nat.lt_of_succ_lt_succ hfuel)
    refine ⟨c', buckets', ?_, h', hwf', fun b' hb' => (hothers' b' hb').trans (hothers b' hb')⟩
    rw [List.head?_cons, emptyChain, hlinked.next_eq]
    show ((c.note (.gone e .emptied)).entryDelete p e).bind _ = _
    rw [hc₁]
    exact hc'

/-- `stx_cache_empty` deletes the entries of the table, each once. -/
theorem empty_spec (h : Reps p c a) (hwf : a.WF) :
    ∃ c' es, c.empty p = some c' ∧ es.Nodup ∧ (∀ e, e ∈ es ↔ e ∈ a.table) ∧
      Reps p c' (deleteAll a es) ∧ (deleteAll a es).WF := by
  obtain ⟨buckets, h⟩ := h
  -- The chains that were not emptied yet are as they were.
  have hloop : ∀ (bs : List ℕ) {c : Cache K D} {a : Lru K D} {buckets : ℕ → List ℕ}, bs.Nodup →
      Rep p c a buckets → a.WF → ∃ c' buckets',
        bs.foldlM (fun c b => emptyChain p (c.created + 1) (c.chain.head b) c) c = some c' ∧
        Rep p c' (deleteAll a (bs.flatMap buckets)) buckets' ∧
        (deleteAll a (bs.flatMap buckets)).WF := by
    intro bs
    induction bs with
    | nil => exact fun _ h hwf => ⟨_, _, rfl, h, hwf⟩
    | cons b bs ih =>
      intro c a buckets hnodup h hwf
      obtain ⟨hb, hbs⟩ := List.nodup_cons.mp hnodup
      have hfuel : (buckets b).length < c.created + 1 := by
        rw [h.created]
        exact Nat.lt_succ_of_le (length_le_of_lt (h.chain.nodup b) fun e he =>
          ((hwf.ok e).live ((h.mem e).mpr ⟨b, he⟩)).1)
      obtain ⟨c₁, buckets₁, hc₁, h₁, hwf₁, hothers⟩ :=
        emptyChain_spec [] h hwf rfl hfuel
      obtain ⟨c', buckets', hc', h', hwf'⟩ := ih hbs h₁ hwf₁
      have hsame : bs.flatMap buckets₁ = bs.flatMap buckets :=
        List.flatMap_congr fun b' hb' => hothers b' fun heq => hb (heq ▸ hb')
      rw [hsame] at h' hwf'
      have hhead : c.chain.head b = (buckets b).head? := (h.chain.linked b).get_eq
      refine ⟨c', buckets', ?_, ?_, ?_⟩
      · rw [List.foldlM_cons, hhead]
        show (emptyChain p (c.created + 1) (buckets b).head? c).bind _ = _
        rw [hc₁]
        exact hc'
      · rw [List.flatMap_cons, deleteAll, List.foldl_append]
        exact h'
      · rw [List.flatMap_cons, deleteAll, List.foldl_append]
        exact hwf'
  obtain ⟨c', buckets', hc', h', hwf'⟩ := hloop (List.range p.hash_size) List.nodup_range h hwf
  exact ⟨c', entries p buckets, hc', h.entries_nodup, h.mem_entries, ⟨buckets', h'⟩, hwf'⟩

end StWin.Cache
