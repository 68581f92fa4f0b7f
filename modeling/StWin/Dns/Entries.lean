import StWin.Cache.Ops
import StWin.Dns.Model

/-!
# The entries of the address cache

`lookup_entry` and `insert_entry` give back each entry that they hold, so between them nobody holds an
entry and none is marked (`Quiet`). On such a cache both always succeed: `lookupEntry_spec` and
`insertEntry_spec` say which entries stay, and how a new one looks.
-/

namespace StWin

namespace Lru

variable {K D : Type*}

/-- An entry is taken and put back. -/
theorem take_rest_entry (a : Lru K D) (e : ℕ) : ((a.take e).rest e).entry = a.entry := by
  simp [take, rest, setEntry]

/-- An entry is taken, its data is changed, and it is put back. -/
theorem take_setData_rest_entry (a : Lru K D) (e : ℕ) (data : D) :
    (((a.take e).setEntry e fun x => { x with data := data }).rest e).entry =
      Function.update a.entry e { a.entry e with data := data } := by
  simp [take, rest, setEntry]

/-- An entry is inserted and put back. -/
theorem add_rest_entry (a : Lru K D) (e : ℕ) : ((a.add e).rest e).entry = a.entry := by
  simp [add, rest, setEntry]

/-- A handle on an entry that is not marked and that nobody else holds. -/
theorem release_eq_rest {a : Lru K D} {e : ℕ} (href : (a.entry e).ref_count = 1)
    (hp : (a.entry e).delete_pending = false) : a.release e = a.rest e := by
  rw [release, if_neg (by omega), if_neg (by simp [hp])]

/-- The entry that was taken has this handle and no other one. -/
theorem take_one {a : Lru K D} {e : ℕ} (href : (a.entry e).ref_count = 0) :
    ((a.take e).entry e).ref_count = 1 ∧
      ((a.take e).entry e).delete_pending = (a.entry e).delete_pending := by
  have hself : (a.take e).entry e = { a.entry e with ref_count := (a.entry e).ref_count + 1 } :=
    Function.update_self e _ _
  rw [hself, href]
  exact ⟨rfl, rfl⟩

end Lru

/-- The only handle on an entry is given back. -/
theorem Cache.entryRelease_only {K D : Type*} {p : CacheParams K} {c : Cache K D} {a : Lru K D} {e : ℕ}
    (h : Reps p c a) (hwf : a.WF) (hmem : e ∈ a.table) (hone : (a.entry e).ref_count = 1)
    (hnot : (a.entry e).delete_pending = false) :
    ∃ c', c.entryRelease p e = some c' ∧ Reps p c' (a.rest e) ∧ (a.rest e).WF := by
  have hpos : 0 < (a.entry e).ref_count := by omega
  obtain ⟨c', hc', h'⟩ := Cache.entryRelease_spec h hwf hmem hpos
  have hwf' := Lru.release_wf hwf hmem hpos
  rw [Lru.release_eq_rest hone hnot] at h' hwf'
  exact ⟨c', hc', h', hwf'⟩

namespace Dns

open Cache (Reps)

/-! ## The data -/

/-- `strcmp` finds equal strings only. -/
theorem strcmp_eq_zero {a b : Name} : strcmp a b = 0 → a = b := by
  induction a generalizing b with
  | nil =>
    cases b with
    | nil => exact fun _ => rfl
    | cons => exact fun h => absurd h (by simp [strcmp])
  | cons x a ih =>
    cases b with
    | nil => exact fun h => absurd h (by simp [strcmp])
    | cons y b =>
      intro h
      rw [strcmp] at h
      by_cases hxy : x = y
      · rw [if_pos hxy] at h
        rw [hxy, ih h]
      · rw [if_neg hxy] at h
        have heq : x.toNat = y.toNat := by omega
        exact absurd (UInt8.toNat_inj.mp heq) hxy

/-- Only a key with the same name is found. -/
theorem key_of_same {l : Limits} {host : Name} {key : Option Name}
    (h : l.params.Same (some host) key) : key = some host := by
  cases key with
  | none => exact absurd h (by simp [CacheParams.Same, Limits.params])
  | some k => rw [strcmp_eq_zero h]

/-- The data of an entry of the cache. -/
structure Data.Ok (d : Data) : Prop where
  addrs : ∃ addrs, d.addrs = some addrs ∧ addrs.length = d.num_addrs
  pos : 1 ≤ d.num_addrs
  cur : d.cur < d.num_addrs

/-- The addresses are served from inside of the array, and `cur` stays inside of it. -/
theorem Data.Ok.serve {d : Data} (h : d.Ok) (num_addrs : ℕ) (rotate : Bool) :
    ∃ served cur, d.serve num_addrs rotate = some (served, { d with cur := cur }) ∧
      cur < d.num_addrs ∧ ∀ x ∈ served, x ∈ d.addrs.getD [] := by
  obtain ⟨addrs?, num, cur, expires⟩ := d
  obtain ⟨⟨addrs, haddrs, hlen⟩, hpos, hcur⟩ := h
  dsimp only at haddrs hlen hpos hcur ⊢
  subst haddrs
  have hget : ∀ i < num, ∃ addr, addrs[i]? = some addr ∧ addr ∈ addrs := by
    intro i hi
    have hlt : i < addrs.length := by omega
    exact ⟨addrs[i], List.getElem?_eq_getElem hlt, List.getElem_mem hlt⟩
  unfold Data.serve
  dsimp only [Option.bind_eq_bind, Option.bind_some]
  by_cases hone : num_addrs = 1
  · rw [if_pos hone]
    cases rotate with
    | true =>
      obtain ⟨addr, haddr, hmem⟩ := hget cur hcur
      refine ⟨[addr], if num ≤ cur + 1 then 0 else cur + 1, ?_, ?_, ?_⟩
      · rw [if_pos rfl, haddr]
        rfl
      · split_ifs <;> omega
      · simpa using hmem
    | false =>
      obtain ⟨addr, haddr, hmem⟩ := hget 0 hpos
      refine ⟨[addr], cur, ?_, hcur, by simpa using hmem⟩
      rw [if_neg (by simp), haddr]
      rfl
  · rw [if_neg hone, if_pos (by omega)]
    exact ⟨_, cur, rfl, hcur, fun x hx => List.mem_of_mem_take hx⟩

/-! ## Between the operations -/

/-- Nobody holds an entry, and each entry has addresses. -/
structure Quiet (a : Lru (Option Name) (Option Data)) : Prop where
  wf : a.WF
  mem : ∀ e, e < a.created → (a.entry e).live = true → e ∈ a.table
  ref : ∀ e ∈ a.table, (a.entry e).ref_count = 0
  data : ∀ e ∈ a.table, ∃ d, (a.entry e).data = some d ∧ d.Ok

variable {l : Limits} {c : DnsCache} {a a' : Lru (Option Name) (Option Data)}

/-- A quiet cache is quiet when entries go. -/
theorem Quiet.sheds (h : Quiet a) (hs : a.Sheds a') (hwf : a'.WF) : Quiet a' where
  wf := hwf
  mem := by
    intro e he hlive
    obtain ⟨heq, hmem⟩ := hs.live e hlive
    rw [heq] at hlive
    rw [hs.created] at he
    exact hmem (h.mem e he hlive)
  ref := fun e he => by rw [hs.entry e he]; exact h.ref e (hs.table he)
  data := fun e he => by rw [hs.entry e he]; exact h.data e (hs.table he)

/-- What a lookup changes: entries go, and `cur` moves. -/
structure Looks (a a' : Lru (Option Name) (Option Data)) : Prop where
  created : a'.created = a.created
  table : a'.table ⊆ a.table
  entry : ∀ e ∈ a'.table, a'.entry e = a.entry e ∨ ∃ d cur, (a.entry e).data = some d ∧
    cur < d.num_addrs ∧ a'.entry e = { a.entry e with data := some { d with cur := cur } }

/-- Nothing has changed. -/
theorem Looks.refl (a : Lru (Option Name) (Option Data)) : Looks a a :=
  ⟨rfl, Finset.Subset.refl _, fun _ _ => Or.inl rfl⟩

/-- The value of `cur` in one entry changes. -/
theorem Quiet.moves (h : Quiet a) {e : ℕ} {d : Data} {cur : ℕ} (hd : (a.entry e).data = some d)
    (hok : d.Ok) (hcur : cur < d.num_addrs) (hwf : a'.WF) (hcreated : a'.created = a.created)
    (htable : a'.table = a.table) (hentry : a'.entry = Function.update a.entry e
      { a.entry e with data := some { d with cur := cur } }) : Quiet a' ∧ Looks a a' := by
  have hself : a'.entry e = { a.entry e with data := some { d with cur := cur } } := by
    rw [hentry, Function.update_self]
  have hother : ∀ x, x ≠ e → a'.entry x = a.entry x := by
    intro x hx
    rw [hentry, Function.update_of_ne hx]
  refine ⟨⟨hwf, fun x hx hlive => ?_, fun x hx => ?_, fun x hx => ?_⟩, hcreated, htable.subset,
    fun x hx => ?_⟩
  · rw [hcreated] at hx
    rw [htable]
    refine h.mem x hx ?_
    by_cases hxe : x = e
    · subst hxe
      rwa [hself] at hlive
    · rwa [hother x hxe] at hlive
  all_goals
    rw [htable] at hx
    by_cases hxe : x = e
  · subst hxe
    rw [hself]
    exact h.ref x hx
  · rw [hother x hxe]
    exact h.ref x hx
  · subst hxe
    rw [hself]
    exact ⟨_, rfl, hok.addrs, hok.pos, hcur⟩
  · rw [hother x hxe]
    exact h.data x hx
  · subst hxe
    exact Or.inr ⟨d, cur, hd, hcur, hself⟩
  · exact Or.inl (hother x hxe)

/-- Whether a cache is quiet depends on its entries only. -/
theorem Quiet.congr (h : Quiet a) (hwf : a'.WF) (hcreated : a'.created = a.created)
    (htable : a'.table = a.table) (hentry : a'.entry = a.entry) : Quiet a' where
  wf := hwf
  mem := by
    rw [hcreated, htable, hentry]
    exact h.mem
  ref := by
    rw [htable, hentry]
    exact h.ref
  data := by
    rw [htable, hentry]
    exact h.data

/-- An entry for `host` that has not expired at the time `now`, and addresses of it. -/
structure Serves (a : Lru (Option Name) (Option Data)) (host : Name) (now : Int64)
    (served : List InAddr) (e : ℕ) (d : Data) : Prop where
  mem : e ∈ a.table
  data : (a.entry e).data = some d
  key : (a.entry e).key = some host
  fresh : now ≤ d.expires
  addrs : ∀ x ∈ served, x ∈ d.addrs.getD []

/-- The entry is served, and put back as the only handle on it. -/
theorem Quiet.serves (hq : Quiet a) {e : ℕ} (h : Reps l.params c (a.take e)) (hmem : e ∈ a.table)
    (hpend : (a.entry e).delete_pending = false) {d : Data} (hd : (a.entry e).data = some d) (hok : d.Ok)
    {cur : ℕ} (hcur : cur < d.num_addrs) :
    ∃ c' a', (c.setEntry e fun x => { x with data := some { d with cur := cur } }).entryRelease l.params e =
      some c' ∧ Reps l.params c' a' ∧ Quiet a' ∧ Looks a a' := by
  obtain ⟨d', hd'⟩ : ∃ d', d' = { d with cur := cur } := ⟨_, rfl⟩
  obtain ⟨hone, hsame⟩ := Lru.take_one (hq.ref e hmem)
  rw [← hd']
  have hself : ((a.take e).setEntry e fun x => { x with data := some d' }).entry e =
      { (a.take e).entry e with data := some d' } := Function.update_self e _ _
  obtain ⟨c', hc', h', hwf⟩ := Cache.entryRelease_only (h.setData e (some d'))
    (Lru.setData_wf (e := e) (Lru.take_wf hq.wf hmem) (some d')) hmem (by rw [hself]; exact hone)
    (by rw [hself]; exact hsame.trans hpend)
  have hentry := Lru.take_setData_rest_entry a e (some d')
  rw [hd'] at hentry hwf h'
  obtain ⟨hq', hlooks⟩ := hq.moves hd hok hcur hwf rfl rfl hentry
  exact ⟨c', _, hc', h', hq', hlooks⟩

/-- The entry is put back and deleted. -/
theorem Quiet.purges (hq : Quiet a) {e : ℕ} (h : Reps l.params c (a.take e)) (hmem : e ∈ a.table)
    (hpend : (a.entry e).delete_pending = false) :
    ∃ c' c'' a', c.entryRelease l.params e = some c' ∧
      (c'.note (.gone e .deleted)).entryDelete l.params e = some c'' ∧ Reps l.params c'' a' ∧
        Quiet a' ∧ Looks a a' := by
  obtain ⟨hone, hsame⟩ := Lru.take_one (hq.ref e hmem)
  obtain ⟨c', hc', h', hwf⟩ := Cache.entryRelease_only h (Lru.take_wf hq.wf hmem) hmem hone
    (hsame.trans hpend)
  have hq' : Quiet ((a.take e).rest e) := hq.congr hwf rfl rfl (Lru.take_rest_entry a e)
  have hlive := (hwf.ok e).live hmem
  obtain ⟨c'', hc'', h''⟩ := Cache.entryDelete_spec h' hwf hlive .deleted
  have hsheds : ((a.take e).rest e).Sheds (((a.take e).rest e).delete e .deleted) :=
    Lru.Sheds.delete (hq'.ref e hmem) .deleted
  refine ⟨c', c'', _, hc', hc'', h'', hq'.sheds hsheds (Lru.delete_wf hwf hlive .deleted), hsheds.created,
    hsheds.table, fun x hx => Or.inl ?_⟩
  rw [hsheds.entry x hx, Lru.take_rest_entry]

/-- `lookup_entry`. -/
theorem lookupEntry_spec (h : Reps l.params c a) (hq : Quiet a) (host : Name) (num_addrs : ℕ)
    (rotate : Bool) (now : Int64) :
    ∃ c' r a', lookupEntry l c host num_addrs rotate now = some (c', r) ∧ Reps l.params c' a' ∧
      Quiet a' ∧ Looks a a' ∧ ∀ served, r = some served → ∃ e d, Serves a host now served e d := by
  obtain ⟨c₁, r, hc₁, hfound, h₁⟩ := Cache.entryLookup_spec h hq.wf (some host)
  unfold lookupEntry
  rw [hc₁]
  dsimp only [Option.bind_eq_bind, Option.bind_some]
  cases r with
  | none =>
    -- A miss.
    exact ⟨c₁, none, a, rfl, h₁, hq, Looks.refl a, fun _ hc => by cases hc⟩
  | some e =>
    -- A hit: the look-up has taken a handle on `e`, which nobody else has.
    obtain ⟨hmem, hpend, hsame⟩ := hfound.hit e rfl
    obtain ⟨d, hd, hok⟩ := hq.data e hmem
    change Reps l.params c₁ (a.take e) at h₁
    have hself : (a.take e).entry e = { a.entry e with ref_count := (a.entry e).ref_count + 1 } :=
      Function.update_self e _ _
    have hdata : (c₁.entry e).data = some d := by rw [h₁.entry, hself, hd]
    dsimp only
    rw [hdata]
    dsimp only [Option.bind_some]
    by_cases hfresh : now ≤ d.expires
    · rw [if_pos hfresh]
      obtain ⟨served, cur, hserve, hcur, hserved⟩ := hok.serve num_addrs rotate
      obtain ⟨c₂, a₂, hc₂, h₂, hq₂, hlooks⟩ := hq.serves h₁ hmem hpend hd hok hcur
      rw [hserve]
      dsimp only [Option.bind_some]
      refine ⟨c₂, some served, a₂, ?_, h₂, hq₂, hlooks, fun served' hs => ?_⟩
      · rw [hc₂]
        rfl
      · cases hs
        exact ⟨e, d, hmem, hd, key_of_same hsame, hfresh, hserved⟩
    · rw [if_neg hfresh]
      obtain ⟨c₂, c₃, a₃, hc₂, hc₃, h₃, hq₃, hlooks⟩ := hq.purges h₁ hmem hpend
      refine ⟨c₃, none, a₃, ?_, h₃, hq₃, hlooks, fun _ hc => by cases hc⟩
      rw [hc₂]
      dsimp only [Option.bind_some]
      rw [hc₃]
      rfl

/-! ## Inserting -/

/-- The data of an entry that is made at the time `now`. -/
def newData (addrs : List InAddr) (ttl : Int32) (now : Int64) : Data :=
  ⟨some addrs, addrs.length, 0, now + ttl.toInt64⟩

/-- What an insertion changes: entries go, and at most one entry is new. -/
structure Enters (a a' : Lru (Option Name) (Option Data)) (host : Name) (addrs : List InAddr) (ttl : Int32)
    (now : Int64) : Prop where
  wf : a'.WF
  created : a.created ≤ a'.created
  mem : ∀ e, e < a'.created → (a'.entry e).live = true → e ∈ a'.table
  entry : ∀ e ∈ a'.table, e ∈ a.table ∧ a'.entry e = a.entry e ∨
    e = a.created ∧ 0 < ttl ∧ (a'.entry e).ref_count = 0 ∧ (a'.entry e).key = some host ∧
      (a'.entry e).data = some (newData addrs ttl now)

/-- An entry that could not be allocated changes nothing. -/
theorem Quiet.enters (h : Quiet a) (host : Name) (addrs : List InAddr) (ttl : Int32) (now : Int64) :
    Enters a a host addrs ttl now :=
  ⟨h.wf, le_rfl, h.mem, fun _ he => Or.inl ⟨he, rfl⟩⟩

variable {host : Name} {addrs : List InAddr} {ttl : Int32} {now : Int64} {key : Option Name}
  {data : Option Data} {weight : ℕ} {b : Lru (Option Name) (Option Data)}

/-- The new entry, before it is inserted. -/
theorem make_fresh (hq : Quiet a) : (a.make key data weight).Fresh a.created where
  lt := Nat.lt_succ_self _
  live := by rw [Lru.make_entry, Function.update_self]
  not_mem := fun hmem => absurd ((hq.wf.ok _).live hmem).1 (lt_irrefl _)

/-- An entry that stays was there before the new one. -/
theorem make_sheds (hq : Quiet a) (hs : (a.make key data weight).Sheds b) {e : ℕ} (he : e ∈ b.table) :
    e ∈ a.table ∧ b.entry e = a.entry e := by
  have hmem : e ∈ a.table := hs.table he
  have hne : e ≠ a.created := fun heq => absurd ((hq.wf.ok e).live hmem).1 (by omega)
  refine ⟨hmem, ?_⟩
  rw [hs.entry e he]
  exact Function.update_of_ne hne _ _

/-- An entry that is live and not the new one is in the table. -/
theorem make_live (hq : Quiet a) (hs : (a.make key data weight).Sheds b) {e : ℕ} (he : e < b.created)
    (hlive : (b.entry e).live = true) (hne : e ≠ a.created) : e ∈ b.table := by
  obtain ⟨heq, hmem⟩ := hs.live e hlive
  rw [heq, Lru.make_entry, Function.update_of_ne hne] at hlive
  rw [hs.created] at he
  have hlt : e < a.created := by
    change e < a.created + 1 at he
    omega
  exact hmem (hq.mem e hlt hlive)

/-- The new entry is deleted. -/
theorem enters_delete (hq : Quiet a) (hs : (a.make key data weight).Sheds b) (hwf : b.WF)
    (hfresh : b.Fresh a.created) (href : (b.entry a.created).ref_count = 0) :
    Enters a (b.delete a.created .deleted) host addrs ttl now := by
  have hs' := hs.trans (Lru.Sheds.delete href .deleted)
  refine ⟨Lru.delete_wf hwf ⟨hfresh.lt, hfresh.live⟩ .deleted, ?_, fun e he hlive => ?_,
    fun e he => Or.inl (make_sheds hq hs' he)⟩
  · rw [hs'.created]
    exact Nat.le_succ _
  · refine make_live hq hs' he hlive ?_
    rintro rfl
    rw [Lru.delete, if_neg (by omega)] at hlive
    simp [Lru.setEntry] at hlive

/-- The new entry is inserted and put back. -/
theorem enters_add (hq : Quiet a)
    (hs : (a.make (some host) (some (newData addrs ttl now)) weight).Sheds b)
    (hentry : b.entry a.created =
      (a.make (some host) (some (newData addrs ttl now)) weight).entry a.created) (hpos : 0 < ttl)
    (hwf : ((b.add a.created).rest a.created).WF) :
    Enters a ((b.add a.created).rest a.created) host addrs ttl now := by
  have hsame := Lru.add_rest_entry b a.created
  refine ⟨hwf, ?_, fun e he hlive => ?_, fun e he => ?_⟩
  · show a.created ≤ b.created
    rw [hs.created]
    exact Nat.le_succ _
  · rw [hsame] at hlive
    by_cases hne : e = a.created
    · exact Finset.mem_insert.mpr (Or.inl hne)
    · exact Finset.mem_insert.mpr (Or.inr (make_live hq hs he hlive hne))
  · rw [hsame]
    rcases Finset.mem_insert.mp he with rfl | he
    · right
      rw [hentry, Lru.make_entry, Function.update_self]
      exact ⟨rfl, hpos, rfl, rfl, rfl⟩
    · exact Or.inl (make_sheds hq hs he)

/-- `stx_cache_entry_insert` of the new entry, and what `insert_entry` does behind it. -/
theorem insert_spec (hq : Quiet a)
    (h : Reps l.params c (a.make (some host) (some (newData addrs ttl now)) weight)) (hpos : 0 < ttl) :
    ∃ c' a', (do
        let (c, rv) ← c.entryInsert l.params a.created
        if rv = 0 then c.entryRelease l.params a.created
        else (c.note (.gone a.created .deleted)).entryDelete l.params a.created) = some c' ∧
      Reps l.params c' a' ∧ Enters a a' host addrs ttl now := by
  have hwf := Lru.make_wf hq.wf (some host) (some (newData addrs ttl now)) weight
  have hfresh : (a.make (some host) (some (newData addrs ttl now)) weight).Fresh a.created :=
    make_fresh hq
  have hold : ∀ e ∈ a.table,
      ((a.make (some host) (some (newData addrs ttl now)) weight).entry e).ref_count = 0 := by
    intro e he
    have hne : e ≠ a.created := fun heq => absurd ((hq.wf.ok e).live he).1 (by omega)
    rw [Lru.make_entry, Function.update_of_ne hne]
    exact hq.ref e he
  have hnew : ((a.make (some host) (some (newData addrs ttl now)) weight).entry a.created).ref_count =
      0 := by
    rw [Lru.make_entry, Function.update_self]
  have hnot : ((a.make (some host) (some (newData addrs ttl now)) weight).entry
      a.created).delete_pending = false := by
    rw [Lru.make_entry, Function.update_self]
  generalize hm : a.make (some host) (some (newData addrs ttl now)) weight = m at *
  obtain ⟨c₁, rv, a₁, hc₁, hins, h₁⟩ := Cache.entryInsert_spec h hwf hfresh
  rw [hc₁]
  dsimp only [Option.bind_eq_bind, Option.bind_some]
  -- If the entry was not inserted, some others have been evicted.
  have hfails : ∀ n, n ≤ m.idle.length → Reps l.params c₁ (m.evict n) → ∃ c' a',
      (c₁.note (.gone a.created .deleted)).entryDelete l.params a.created = some c' ∧
        Reps l.params c' a' ∧ Enters a a' host addrs ttl now := by
    intro n hn h₁
    obtain ⟨hfresh₁, hsame⟩ := hfresh.evict hwf hn
    have hwf₁ := Lru.evict_wf hwf n
    have hsheds := Lru.Sheds.evict n m
    obtain ⟨c₂, hc₂, h₂⟩ := Cache.entryDelete_spec h₁ hwf₁ ⟨hfresh₁.lt, hfresh₁.live⟩ .deleted
    rw [← hm] at hsheds
    rw [← hm] at hwf₁ hfresh₁ hsame h₂
    refine ⟨c₂, _, hc₂, h₂, enters_delete hq hsheds hwf₁ hfresh₁ ?_⟩
    rw [hsame, hm]
    exact hnew
  cases hins with
  | noRoom =>
    rw [if_neg (by decide)]
    exact hfails _ le_rfl h₁
  | noSlot n room =>
    rw [if_neg (by decide)]
    exact hfails n room.le h₁
  | done n s room slot le dup found wf fresh entry sub =>
    rw [if_pos rfl]
    have hsheds : m.Sheds ((m.evict (n + s)).replace dup) := by
      refine (Lru.Sheds.evict (n + s) m).trans ?_
      cases dup with
      | none => exact Lru.Sheds.refl _
      | some old =>
        refine Lru.Sheds.delete ?_ .replaced
        have hmem := (found.hit old rfl).1
        rw [(Lru.Sheds.evict (n + s) m).entry old hmem]
        refine hold old ?_
        have hin := (Lru.Sheds.evict (n + s) m).table hmem
        rwa [← hm] at hin
    generalize (m.evict (n + s)).replace dup = b at *
    have hself : (b.add a.created).entry a.created =
        { b.entry a.created with ref_count := (b.entry a.created).ref_count + 1 } :=
      Function.update_self _ _ _
    have hone : ((b.add a.created).entry a.created).ref_count = 1 := by
      rw [hself, entry]
      show (m.entry a.created).ref_count + 1 = 1
      rw [hnew]
    have hmem : a.created ∈ (b.add a.created).table := Finset.mem_insert_self _ _
    have hwf₁ := Lru.add_wf wf fresh.lt fresh.live fresh.not_mem
    obtain ⟨c₂, hc₂, h₂, hwf₂⟩ := Cache.entryRelease_only h₁ hwf₁ hmem hone
      (by rw [hself, entry]; exact hnot)
    refine ⟨c₂, _, hc₂, h₂, ?_⟩
    rw [← hm] at hsheds entry
    exact enters_add hq hsheds entry hpos hwf₂

/-- `insert_entry`. -/
theorem insertEntry_spec (h : Reps l.params c a) (hq : Quiet a) (host : Name) (addrs : List InAddr)
    (ttl : Int32) (now : Int64) (alloc : Alloc) :
    ∃ c' a', insertEntry l c host addrs ttl now alloc = some c' ∧ Reps l.params c' a' ∧
      Enters a a' host addrs ttl now := by
  unfold insertEntry
  by_cases hpos : 0 < ttl
  swap
  · rw [if_neg hpos]
    exact ⟨c, a, rfl, h, hq.enters host addrs ttl now⟩
  rw [if_pos hpos]
  dsimp only
  by_cases hentry : alloc.entry = true
  swap
  · rw [if_neg hentry]
    exact ⟨c, a, rfl, h, hq.enters host addrs ttl now⟩
  rw [if_pos hentry, h.created]
  generalize host.length + 1 + l.data_size + addrs.length * 4 + l.entry_size = weight
  by_cases hall : alloc.key = true ∧ alloc.data = true ∧ alloc.addrs = true
  · rw [if_pos hall, if_pos hall.1, if_pos hall.2.1, if_pos hall.2.2]
    exact insert_spec hq (Cache.entryCreate_spec h (some host) (some (newData addrs ttl now)) weight
      hq.wf) hpos
  · rw [if_neg hall]
    generalize (if alloc.key = true then some host else none) = key
    generalize (if alloc.data = true then some _ else none : Option Data) = data
    have h₁ := Cache.entryCreate_spec h key data weight hq.wf
    have hwf₁ := Lru.make_wf hq.wf key data (weight % l.params.sizeMod)
    have hfresh : (a.make key data (weight % l.params.sizeMod)).Fresh a.created := make_fresh hq
    obtain ⟨c₂, hc₂, h₂⟩ := Cache.entryDelete_spec h₁ hwf₁ ⟨hfresh.lt, hfresh.live⟩ .deleted
    refine ⟨c₂, _, hc₂, h₂, enters_delete hq (Lru.Sheds.refl _) hwf₁ hfresh ?_⟩
    rw [Lru.make_entry, Function.update_self]

end Dns

end StWin
