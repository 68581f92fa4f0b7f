import StWin.Cache.Runs
import StWin.Dns.Entries
import StWin.Dns.Step

/-!
# The address cache is quiet and fresh

Between the steps of the threads, nobody holds an entry of the cache, so an entry that has expired is
still there when it is released and deleted. The data of each entry has addresses, and `cur` is the
index of one. This needs the parser: a TTL is positive only if there was a record to take it from. What
is served from the cache is not older than its TTL.

An observer writes down when each entry was made, and with which TTL.
-/

namespace StWin.Dns

open Cache (Reps)

/-! ## The parser and the TTL -/

/-- A reply without addresses has no positive TTL. -/
theorem parseAnswer_pos {r : Resolver} {eoa : ℤ} {buf : Buf} {addrs : ℕ → InAddr} {num_addrs : ℕ}
    {a : Parsed} (h : parseAnswer r eoa buf addrs num_addrs = some (0, a)) (hpos : 0 < a.ttl) :
    1 ≤ a.i := by
  obtain ⟨rv, a', heq, hspec⟩ := @parseAnswer_spec r eoa num_addrs buf addrs
  rw [h] at heq
  cases heq
  rcases hspec with ⟨-, ha⟩ | hc
  · obtain ⟨hi, httl, -⟩ := foldl_push addrs _ ha
    rw [hi]
    by_contra hzero
    -- Without an address the TTL is what it was before the first record.
    have hnil : (addressRecords r eoa buf).take num_addrs = [] := by
      rw [← List.length_eq_zero_iff]
      omega
    rw [httl, hnil] at hpos
    exact absurd hpos (by decide)
  · cases hc

/-! ## Time -/

/-- The sum may overflow, and is earlier then. -/
theorem toInt_add_le (time : Int64) {ttl : Int32} (hpos : 0 < ttl) :
    (time + ttl.toInt64).toInt ≤ time.toInt + ttl.toInt := by
  have hlow := time.le_toInt
  have httl : 0 < ttl.toInt := Int32.lt_iff_toInt_lt.mp hpos
  rw [Int64.toInt_add, Int32.toInt_toInt64, Int.bmod]
  split <;> omega

/-! ## The invariant -/

/-- When an entry was made, and with which TTL. -/
abbrev Stamps := ℕ → Option (Int64 × Int32)

/-- The observer. -/
def stamp (w : Stamps) (s : Sys) (l : ℕ × Act) (_ : Sys) : Stamps :=
  match l.2 with
  | .store now _ => Function.update w s.shared.cache.created (some (now, s.shared.ttl))
  | _ => w

/-- The entries expire as the observer has written down. -/
def Stamped (w : Stamps) (a : Lru (Option Name) (Option Data)) : Prop :=
  ∀ e ∈ a.table, ∃ d time ttl, (a.entry e).data = some d ∧ w e = some (time, ttl) ∧ 0 < ttl ∧
    d.expires = time + ttl.toInt64

/-- An entry that stays. The value of `cur` may have moved. -/
def Rotated (x x' : CEntry (Option Name) (Option Data)) : Prop :=
  x' = x ∨ ∃ d cur, x.data = some d ∧ cur < d.num_addrs ∧
    x' = { x with data := some { d with cur := cur } }

/-- An entry that stays has the key that it had. -/
theorem Rotated.key {x x' : CEntry (Option Name) (Option Data)} (h : Rotated x x') : x'.key = x.key := by
  rcases h with rfl | ⟨d, cur, -, -, rfl⟩
  · rfl
  · rfl

/-- An entry that stays has the data that it had, up to `cur`. -/
theorem Rotated.data {x x' : CEntry (Option Name) (Option Data)} (h : Rotated x x') {d : Data}
    (hd : x.data = some d) : ∃ cur, x'.data = some { d with cur := cur } := by
  rcases h with rfl | ⟨d', cur, hd', -, rfl⟩
  · exact ⟨d.cur, hd⟩
  · rw [hd] at hd'
    cases hd'
    exact ⟨cur, rfl⟩

section enters

variable {a a' : Lru (Option Name) (Option Data)} {host : Name} {addrs : List InAddr} {ttl : Int32}
  {now : Int64}

/-- The cache is quiet again when an entry with addresses has been entered. -/
theorem Enters.quiet (h : Enters a a' host addrs ttl now) (hq : Quiet a)
    (haddrs : 0 < ttl → 1 ≤ addrs.length) : Quiet a' := by
  refine ⟨h.wf, h.mem, fun e he => ?_, fun e he => ?_⟩
  · rcases h.entry e he with ⟨hmem, heq⟩ | ⟨-, -, href, -⟩
    · rw [heq]
      exact hq.ref e hmem
    · exact href
  · rcases h.entry e he with ⟨hmem, heq⟩ | ⟨-, hpos, -, -, hdata⟩
    · rw [heq]
      exact hq.data e hmem
    · exact ⟨_, hdata, ⟨addrs, rfl, rfl⟩, haddrs hpos, haddrs hpos⟩

end enters

/-- What holds between the steps. -/
structure FreshInv (l : Limits) (s : Sys) (w : Stamps) : Prop where
  cache : ∃ a, Reps l.params s.shared.cache a ∧ Quiet a ∧ Stamped w a
  resolved : ∀ t f count, s.thread t = .resolved f count →
    s.turn = some t ∧ (0 < s.shared.ttl → 1 ≤ count)

section step

variable {cfg : Config} {l : Limits} {s s' : Sys} {w : Stamps} {t : ℕ} {act : Act}

/-- What a step does with the entries: those of the table stay as they are, apart from `cur`, and the one
that a thread inserts has the addresses in `addr_list`, under the name that the thread has resolved. -/
theorem step_entries {a : Lru (Option Name) (Option Data)} (hl : cfg.cache = some l)
    (hrep : Reps l.params s.shared.cache a) (hq : Quiet a)
    (hcount : ∀ f count, s.thread t = .resolved f count → 0 < s.shared.ttl → 1 ≤ count)
    (hstep : s.step cfg (t, act) = some s') :
    ∃ a', Reps l.params s'.shared.cache a' ∧ Quiet a' ∧ ∀ e ∈ a'.table,
      e ∈ a.table ∧ Rotated (a.entry e) (a'.entry e) ∨
      e = a.created ∧ ∃ f count now alloc, s.thread t = .resolved f count ∧ act = .store now alloc ∧
        0 < s.shared.ttl ∧ (a'.entry e).key = some f.host ∧ (a'.entry e).data =
          some (newData ((List.range count).map s.shared.addr_list) s.shared.ttl now) := by
  obtain ⟨-, -, -, hdoes⟩ := Sys.step_does hstep
  rcases hdoes.cache with hsame | ⟨l', c, addrs, now, r, conf, -, rfl, looked⟩ |
    ⟨l', f, count, now, alloc, conf, hpos, rfl, stored⟩
  · rw [hsame]
    exact ⟨a, hrep, hq, fun e he => Or.inl ⟨he, Or.inl rfl⟩⟩
  · -- A lookup.
    rw [hl] at conf
    cases conf
    obtain ⟨c', r', a', heq, hrep', hq', hlooks, -⟩ :=
      lookupEntry_spec hrep hq c.host c.num_addrs c.rotate now
    rw [looked] at heq
    cases heq
    exact ⟨a', hrep', hq', fun e he => Or.inl ⟨hlooks.table he, hlooks.entry e he⟩⟩
  · -- An insertion.
    rw [hl] at conf
    cases conf
    obtain ⟨c', a', heq, hrep', henters⟩ := insertEntry_spec hrep hq f.host
      ((List.range count).map s.shared.addr_list) s.shared.ttl now alloc
    rw [stored] at heq
    cases heq
    refine ⟨a', hrep', henters.quiet hq ?_, fun e he => ?_⟩
    · rw [List.length_map, List.length_range]
      exact hcount f count hpos
    · rcases henters.entry e he with ⟨hmem, heq⟩ | ⟨hnew, httl, -, hkey, hdata⟩
      · exact Or.inl ⟨hmem, Or.inl heq⟩
      · exact Or.inr ⟨hnew, f, count, now, alloc, hpos, rfl, httl, hkey, hdata⟩

/-- The number of the next entry is written down, and no entry of the table has it. -/
theorem stamp_mem {a : Lru (Option Name) (Option Data)} (hrep : Reps l.params s.shared.cache a)
    (hwf : a.WF) {e : ℕ} (he : e ∈ a.table) : stamp w s (t, act) s' e = w e := by
  have hne : e ≠ s.shared.cache.created := by
    rw [hrep.created]
    exact fun hc => absurd ((hwf.ok e).live he).1 (by omega)
  cases act with
  | store => exact Function.update_of_ne hne _ _
  | _ => rfl

/-- Each step keeps the notes true. -/
theorem FreshInv.step (hl : cfg.cache = some l) (h : FreshInv l s w)
    (hstep : s.step cfg (t, act) = some s') : FreshInv l s' (stamp w s (t, act) s') := by
  obtain ⟨-, -, -, hdoes⟩ := Sys.step_does hstep
  obtain ⟨a, hrep, hq, hw⟩ := h.cache
  refine ⟨?_, fun u f count hu => ?_⟩
  · obtain ⟨a', hrep', hq', hentries⟩ := step_entries hl hrep hq
      (fun f count hpos => (h.resolved t f count hpos).2) hstep
    refine ⟨a', hrep', hq', fun e he => ?_⟩
    rcases hentries e he with ⟨hmem, hrot⟩ | ⟨rfl, f, count, now, alloc, -, rfl, httl, -, hdata⟩
    · obtain ⟨d, time, ttl, hd, hstamp, hpos, hexp⟩ := hw e hmem
      obtain ⟨cur, hd'⟩ := hrot.data hd
      rw [stamp_mem hrep hq.wf hmem]
      exact ⟨_, time, ttl, hd', hstamp, hpos, hexp⟩
    · refine ⟨_, now, s.shared.ttl, hdata, ?_, httl, rfl⟩
      rw [← hrep.created]
      exact Function.update_self _ _ _
  · -- Only the thread that has parsed a reply gets there, and a positive TTL is that of an address.
    obtain ⟨rfl, hturn⟩ := Sys.step_resolved (fun u f n hu => (h.resolved u f n hu).1) hstep hu
    refine ⟨hturn, fun hpos => ?_⟩
    rw [hu] at hdoes
    obtain ⟨f₀, len, b, -, -, -, -, rfl, -, hparsed⟩ := hdoes.resolved
    obtain ⟨hparse, -, httl⟩ := hparsed (by rw [hl]; rfl)
    rw [httl] at hpos
    exact parseAnswer_pos hparse hpos

end step

/-! ## Every run -/

/-- The entry is in the hash table. -/
def InTable (c : DnsCache) (e : ℕ) : Prop := (c.chain.pthis e).isSome

/-- The cache between two steps. -/
structure FreshSpec (l : Limits) (c : DnsCache) (w : Stamps) : Prop where
  /-- An entry that is in the table, or not freed, is not freed and not held, and its data has
  addresses. -/
  quiet : ∀ e < c.created, InTable c e ∨ (c.entry e).live = true →
    (c.entry e).live = true ∧ (c.entry e).ref_count = 0 ∧ (c.entry e).delete_pending = false ∧
      ∃ d, (c.entry e).data = some d ∧ 1 ≤ d.num_addrs ∧ d.cur < d.num_addrs
  /-- A lookup neither uses an entry that was freed nor an index outside of the addresses, and what it
  serves has not expired. -/
  lookup : ∀ host num_addrs rotate (now : Int64),
    ∃ c' r, lookupEntry l c host num_addrs rotate now = some (c', r) ∧
      ∀ served, r = some served → ∃ e d time ttl, InTable c e ∧ (c.entry e).key = some host ∧
        (c.entry e).data = some d ∧ (∀ x ∈ served, x ∈ d.addrs.getD []) ∧ w e = some (time, ttl) ∧
        now.toInt ≤ time.toInt + ttl.toInt
  /-- Nor does an insertion use an entry that was freed. -/
  insert : ∀ host addrs ttl now alloc, ∃ c', insertEntry l c host addrs ttl now alloc = some c'

/-- What the notes say of the cache, in the terms of the statement. -/
theorem FreshInv.spec {l : Limits} {s : Sys} {w : Stamps} (h : FreshInv l s w) :
    FreshSpec l s.shared.cache w := by
  obtain ⟨a, hrep, hq, hw⟩ := h.cache
  refine ⟨fun e he hin => ?_, fun host num_addrs rotate now => ?_, fun host addrs ttl now alloc => ?_⟩
  · have hmem : e ∈ a.table := by
      rw [hrep.created] at he
      rcases hin with hin | hlive
      · obtain ⟨buckets, hrep⟩ := hrep
        exact hrep.pthis e he (Option.isSome_iff_ne_none.mp hin)
      · rw [hrep.entry] at hlive
        exact hq.mem e he hlive
    have href := hq.ref e hmem
    obtain ⟨d, hd, hok⟩ := hq.data e hmem
    rw [hrep.entry]
    refine ⟨((hq.wf.ok e).live hmem).2, href, ?_, d, hd, hok.pos, hok.cur⟩
    -- An entry that is to be deleted is held.
    by_contra hp
    have hheld := (hq.wf.ok e).pending hmem (by simpa using hp)
    omega
  · obtain ⟨c', r, a', hlook, -, -, -, hserved⟩ := lookupEntry_spec hrep hq host num_addrs rotate now
    refine ⟨c', r, hlook, fun served hr => ?_⟩
    obtain ⟨e, d, hserves⟩ := hserved served hr
    obtain ⟨d', time, ttl, hd', hstamp, hpos, hexp⟩ := hw e hserves.mem
    rw [hserves.data] at hd'
    cases hd'
    rw [hrep.entry]
    refine ⟨e, d, time, ttl, ?_, hserves.key, hserves.data, hserves.addrs, hstamp, ?_⟩
    · obtain ⟨buckets, hrep⟩ := hrep
      obtain ⟨b, hb⟩ := (hrep.mem e).mp hserves.mem
      exact Option.isSome_iff_ne_none.mpr ((hrep.chain.linked b).pthis_ne_none hb)
    · -- If the sum of the time and the TTL has wrapped, the entry expires before it is due to.
      have hle : now.toInt ≤ d.expires.toInt := Int64.le_iff_toInt_le.mp hserves.fresh
      rw [hexp] at hle
      exact hle.trans (toInt_add_le time hpos)
  · obtain ⟨c', -, hins, -⟩ := insertEntry_spec hrep hq host addrs ttl now alloc
    exact ⟨c', hins⟩

/-- An empty cache is quiet. -/
theorem init_quiet (x : CEntry (Option Name) (Option Data)) : Quiet (Cache.initLru x) := by
  refine ⟨Cache.initLru_wf x, fun e he => ?_, fun e he => ?_, fun e he => ?_⟩
  · exact absurd he (Nat.not_lt_zero e)
  · exact absurd he (by simp [Cache.initLru])
  · exact absurd he (by simp [Cache.initLru])

/-- Each state of a run satisfies the invariant. -/
theorem run_freshInv {cfg : Config} {l : Limits} {addr_list : ℕ → InAddr}
    {x : CEntry (Option Name) (Option Data)} {n : Ring.Links LruNode} {ls : List (ℕ × Act)} {s : Sys}
    (hl : cfg.cache = some l) (hrun : Runs.run (Sys.step cfg) (.init addr_list x n) ls = some s) :
    FreshInv l s (Runs.record (Sys.step cfg) stamp (fun _ => none) (.init addr_list x n) ls) := by
  have hinit : FreshInv l (.init addr_list x n) fun _ => none := by
    refine ⟨⟨_, Cache.init_reps l.params x n, init_quiet x, ?_⟩, ?_⟩
    · exact fun e he => absurd he (by simp [Cache.initLru])
    · intro t f count hc
      cases hc
  refine Runs.record_invariant_of_step (I := FreshInv l) ?_ hinit hrun
  rintro s ⟨t, act⟩ s' w h hstep
  exact h.step hl hstep

/-- Any threads resolve names, with any replies, times, and limits of the cache: between any two steps
the cache is quiet and fresh. -/
theorem run_cache_fresh (cfg : Config) (l : Limits) (addr_list : ℕ → InAddr)
    (x : CEntry (Option Name) (Option Data)) (n : Ring.Links LruNode) (ls : List (ℕ × Act)) {s : Sys}
    (hl : cfg.cache = some l) (hrun : Runs.run (Sys.step cfg) (.init addr_list x n) ls = some s) :
    FreshSpec l s.shared.cache
      (Runs.record (Sys.step cfg) stamp (fun _ => none) (.init addr_list x n) ls) :=
  (run_freshInv hl hrun).spec

/-- Four entries in two buckets. -/
def fourEntries : Limits where
  size_bits := 64
  ulong_bits := 32
  max_size := 4
  max_bytes := 1000
  hash_size := 2
  max_size_lt := by decide
  max_bytes_lt := by decide
  hash_size_pos := by decide
  data_size := 32
  entry_size := 96

/-- A name server whose replies are about the root of the name space, and compressed. -/
def oneServer : Config where
  resolver := ⟨fun _ _ _ => 1, fun _ _ _ => 2, fun _ _ _ => by decide⟩
  usevc := false
  defnames := true
  dnsrch := true
  ndots := 1
  nscount := 1
  domains := []
  cache := some fourEntries

/-- The query of a call. -/
def rootQuery (id : UInt8) : List UInt8 := [0, id, 1, 0, 0, 1, 0, 0, 0, 0, 0, 0, 0, 0, 1, 0, 1]

/-- A reply with one address and a TTL of one minute. -/
def rootReply (id addr : UInt8) : List UInt8 :=
  [0, id, 129, 128, 0, 1, 0, 1, 0, 0, 0, 0, 0, 0, 1, 0, 1,
   192, 12, 0, 1, 0, 1, 0, 0, 0, 60, 0, 4, 10, 0, 0, addr]

/-- A call that sends a query. -/
def asks (t : ℕ) (c : Call) (now : Int64) : List (ℕ × Act) :=
  [(t, .call c fun _ _ => 0), (t, .lookup now), (t, .opened .ok), (t, .go),
   (t, .mkquery (rootQuery t.toUInt8)), (t, .sent 17 0)]

/-- A call that gets a reply. -/
def hearsReply (t : ℕ) (addr : UInt8) (now : Int64) : List (ℕ × Act) :=
  [(t, .datagram (rootReply t.toUInt8 addr)), (t, .go), (t, .store now ⟨true, true, true, true⟩)]

/-- One thread resolves a name, and a minute later another one is served from the cache. -/
def servedFromCache : List (ℕ × Act) :=
  asks 0 (getaddr [65]) 100 ++ hearsReply 0 1 100 ++
    [(1, .call (getaddr [97]) fun _ _ => 0), (1, .lookup 160)]

/-- The start. -/
def noThreads : Sys := .init (fun _ _ => 0) ⟨none, none, 0, 0, false, false⟩ ⟨fun n => n, fun n => n⟩

/-- The run is possible, and the second call is answered from the cache. -/
theorem run_cache_fresh_servedFromCache :
    ∃ s, Runs.run (Sys.step oneServer) noThreads servedFromCache = some s ∧
      (s.thread 1).ret.map (fun r => (r.rv, r.addrs.map List.ofFn)) = some (0, [[10, 0, 0, 1]]) ∧
      FreshSpec fourEntries s.shared.cache
        (Runs.record (Sys.step oneServer) stamp (fun _ => none) noThreads servedFromCache) := by
  refine ⟨(Runs.run (Sys.step oneServer) noThreads servedFromCache).get (by decide +kernel), by simp,
    by decide +kernel, ?_⟩
  exact run_cache_fresh oneServer fourEntries _ _ _ servedFromCache rfl (Option.some_get _).symm

end StWin.Dns
