import StWin.Dns.Resolve
import Mathlib.Data.List.Forall2

/-!
# Where the answers come from

An observer keeps the notes about the threads, and writes down for each entry of the cache the notes about
the thread that has made it. Whatever the replies are, an entry has the name that this thread has looked
up, and its addresses are copies of the records of type A of the reply that this thread has accepted
(`OriginInv`).

Without a cache, the parser writes to the array of the caller, and else to the shared one. The invariant is
about the array of the call in both cases.
-/

namespace StWin.Dns

open Cache (Reps)

/-! ## The call -/

/-- The argument of `_stx_dns_getaddrlist`. -/
def Config.asked (cfg : Config) (c : Call) : Name := if cfg.cache.isSome then c.host else c.hostname

/-- The number of addresses that the parser has room for. -/
def Config.room (cfg : Config) (c : Call) : ℕ := if cfg.cache.isSome then MAX_HOST_ADDRS else c.num_addrs

/-- The array that the parser writes to. -/
def Shared.array (cfg : Config) (s : Shared) (f : Frame) : ℕ → InAddr :=
  if cfg.cache.isSome then s.addr_list else f.addrs

/-- A reply that `query_domain` takes for an answer. -/
structure Reply.Accepted (cfg : Config) (x : Reply) (room : ℕ) : Prop where
  long : HFIXEDSZ ≤ (x.len : ℤ)
  max : x.len ≤ MAXPACKET
  rcode : x.buf.toHost.rcode = 0
  ancount : x.buf.toHost.count ANCOUNT ≠ 0
  parsed : ∃ addrs a, parseAnswer cfg.resolver x.len x.buf.toHost addrs room = some (0, a)

/-! ## The inversion of the last steps of a call -/

namespace Shared

variable {cfg : Config} {s s' : Shared} {f f' : Frame}

/-- A reply that ends the resolution has no error and an answer, and the parser has read its records into
the caller's array. -/
theorem reply_resolved {len : ℤ} {count : ℕ} (h : s.reply cfg f len = some (s', .resolved f' count)) :
    f.qbuf.toHost.rcode = 0 ∧ f.qbuf.toHost.count ANCOUNT ≠ 0 ∧ f'.call = f.call ∧
      ∃ a, parseAnswer cfg.resolver len f.qbuf.toHost (s.array cfg f) (cfg.room f.call) = some (0, a) ∧
        count = a.i ∧ s'.array cfg f' = a.addrs ∧ s'.ttl = a.ttl := by
  unfold reply at h
  by_cases hlen : len < HFIXEDSZ
  · rw [if_pos hlen] at h
    dsimp only at h
    split_ifs at h
    all_goals cases h
  rw [if_neg hlen] at h
  dsimp only at h
  by_cases hrcode : f.qbuf.toHost.rcode ≠ 0 ∨ f.qbuf.toHost.count ANCOUNT = 0
  · rw [if_pos hrcode] at h
    cases h
  rw [if_neg hrcode] at h
  obtain ⟨hzero, hcount⟩ := not_or.mp hrcode
  refine ⟨not_not.mp hzero, hcount, ?_⟩
  unfold array Config.room
  -- In both cases the parser returns `0`, or the next name server is asked.
  by_cases hcache : cfg.cache.isSome = true
  · rw [if_pos hcache] at h
    rw [if_pos hcache, if_pos hcache, if_pos hcache]
    obtain ⟨⟨rv, a⟩, hparse, h⟩ := Option.bind_eq_some_iff.mp h
    dsimp only at h
    split_ifs at h with hrv
    · cases h
      subst hrv
      exact ⟨rfl, a, hparse, rfl, rfl, rfl⟩
    · cases h
  · rw [if_neg hcache] at h
    rw [if_neg hcache, if_neg hcache, if_neg hcache]
    obtain ⟨⟨rv, a⟩, hparse, h⟩ := Option.bind_eq_some_iff.mp h
    dsimp only at h
    split_ifs at h with hrv
    · cases h
      subst hrv
      exact ⟨rfl, a, hparse, rfl, rfl, rfl⟩
    · cases h

/-- A call returns the first addresses of its array. -/
theorem finish_ret {count : ℕ} {now : Int64} {alloc : Alloc} {pos : Pos}
    (h : s.finish cfg f count now alloc = some (s', pos)) :
    ∃ r, pos = .user (some r) ∧ r.rv = 0 ∧ r.addrs = (List.range
      (if cfg.cache.isSome then min f.call.num_addrs count else count)).map (s.array cfg f) := by
  unfold finish at h
  unfold array
  cases hconf : cfg.cache with
  | none =>
    rw [hconf] at h
    cases h
    exact ⟨_, rfl, rfl, rfl⟩
  | some l =>
    rw [hconf] at h
    obtain ⟨cache, hcache, h⟩ := Option.bind_eq_some_iff.mp h
    cases h
    exact ⟨_, rfl, rfl, rfl⟩

end Shared

/-- A step is one of the thread that has the turn, on the shared state. -/
theorem Sys.step_act {cfg : Config} {s s' : Sys} {t : ℕ} {act : Act}
    (h : s.step cfg (t, act) = some s') :
    s.shared.act cfg (s.thread t) act = some (s'.shared, s'.thread t) := by
  unfold step at h
  dsimp only at h
  split_ifs at h with hturn
  obtain ⟨⟨shared, pos⟩, hact, rfl⟩ := Option.map_eq_some_iff.mp h
  simp only [Function.update_self]
  exact hact

/-! ## The observer -/

/-- What is written down about the threads, and about the entries. -/
structure Notes where
  thread : ℕ → Note
  entry : ℕ → Option Note

/-- The observer. -/
def origin (w : Notes) (s : Sys) (l : ℕ × Act) (s' : Sys) : Notes where
  thread := note w.thread s l s'
  entry :=
    match l with
    | (t, .store _ _) => Function.update w.entry s.shared.cache.created (some (w.thread t))
    | _ => w.entry

/-- Nothing is written down yet. -/
def noOrigins : Notes := ⟨noNotes, fun _ => none⟩

/-- The entry `e` was made by a call that has accepted the reply `x`. -/
structure MadeBy (cfg : Config) (entry : CEntry (Option Name) (Option Data)) (o : Note) (x : Reply)
    (d : Data) : Prop where
  key : entry.key = some o.call.host
  data : entry.data = some d
  reply : o.reply = some x
  accepted : x.Accepted cfg MAX_HOST_ADDRS
  addrs : ∃ addrs, d.addrs = some addrs ∧ List.Forall₂ Copies (x.records cfg) addrs

/-- What holds between the steps. -/
structure OriginInv (cfg : Config) (s : Sys) (w : Notes) : Prop where
  notes : NoteInv cfg (fun _ => True) s w.thread
  asked : ∀ t f, (s.thread t).frame = some f → f.host = cfg.asked f.call
  resolved : ∀ t f count, s.thread t = .resolved f count → s.turn = some t ∧
    ((0 < s.shared.ttl → 1 ≤ count) ∧ ∃ x, (w.thread t).reply = some x ∧
      x.Accepted cfg (cfg.room f.call) ∧ List.Forall₂ Copies ((x.records cfg).take (cfg.room f.call))
        ((List.range count).map (s.shared.array cfg f)))
  entries : ∀ l, cfg.cache = some l → ∃ a, Reps l.params s.shared.cache a ∧ Quiet a ∧
    ∀ e ∈ a.table, ∃ o x d, w.entry e = some o ∧ MadeBy cfg (a.entry e) o x d

/-- With a cache, there is room for all records of a reply. -/
theorem Reply.Accepted.take_records {cfg : Config} {x : Reply} {room : ℕ} (h : x.Accepted cfg room) :
    (x.records cfg).take MAX_HOST_ADDRS = x.records cfg := by
  apply List.take_of_length_le
  calc (x.records cfg).length
      ≤ 102 := addressRecords_length (by exact_mod_cast h.max) _
    _ ≤ MAX_HOST_ADDRS := by decide

section step

variable {cfg : Config} {s s' : Sys} {w : Notes} {t : ℕ} {act : Act}

/-- After a step, too, a thread asks for the name of its own call. -/
theorem OriginInv.asked_step (h : OriginInv cfg s w) (hstep : s.step cfg (t, act) = some s') {u : ℕ}
    {f : Frame} (hf : (s'.thread u).frame = some f) : f.host = cfg.asked f.call := by
  obtain ⟨-, -, hother, hdoes⟩ := Sys.step_does hstep
  by_cases hu : u = t
  swap
  · rw [hother u hu] at hf
    exact h.asked u f hf
  subst hu
  rcases hdoes.frame hf with ⟨c, addrs, -, hnone, rfl⟩ | ⟨c, addrs, now, -, -, -, hsome, rfl⟩ |
    ⟨f₀, hf₀, -, hcall, hhost⟩
  · simp [Config.asked, hnone, Shared.newFrame]
  · simp [Config.asked, hsome, Shared.newFrame]
  · rw [hcall, hhost]
    exact h.asked u f₀ hf₀

/-- After a step, too, a thread that has its addresses has the turn and has got them from its reply. -/
theorem OriginInv.resolved_step (h : OriginInv cfg s w) (hstep : s.step cfg (t, act) = some s')
    {u : ℕ} {f : Frame} {count : ℕ} (hu : s'.thread u = .resolved f count) : s'.turn = some u ∧
      ((0 < s'.shared.ttl → 1 ≤ count) ∧ ∃ x, ((origin w s (t, act) s').thread u).reply = some x ∧
        x.Accepted cfg (cfg.room f.call) ∧ List.Forall₂ Copies ((x.records cfg).take (cfg.room f.call))
          ((List.range count).map (s'.shared.array cfg f))) := by
  obtain ⟨-, -, -, hdoes⟩ := Sys.step_does hstep
  obtain ⟨rfl, hturn⟩ := Sys.step_resolved (fun u f n hu => (h.resolved u f n hu).1) hstep hu
  rw [hu] at hdoes
  obtain ⟨f₀, len, -, hpos, hlong, -, -, -, rfl, -⟩ := hdoes.resolved
  have hact := Sys.step_act hstep
  rw [hpos, hu] at hact
  obtain ⟨hrcode, hancount, hcall, a, hparse, rfl, harray, httl⟩ := Shared.reply_resolved hact
  obtain ⟨x, hx, hbuf, rfl, hmax, -⟩ := h.notes.received u f₀ len hpos hlong
  rw [← hbuf] at hrcode hancount hparse
  refine ⟨hturn, fun hpos => ?_, x, hx, ?_, ?_⟩
  · rw [httl] at hpos
    exact parseAnswer_pos hparse hpos
  · rw [hcall]
    exact ⟨hlong, hmax, hrcode, hancount, _, a, hparse⟩
  · -- What the parser has stored.
    obtain ⟨rv, a', heq, hspec⟩ := @parseAnswer_spec cfg.resolver x.len (cfg.room f₀.call) x.buf.toHost
      (s.shared.array cfg f₀)
    rw [hparse] at heq
    cases heq
    rcases hspec with ⟨-, ha⟩ | hc
    · obtain ⟨hi, -, hcopies⟩ := foldl_push _ _ ha
      rw [harray, hcall, hi]
      exact hcopies
    · cases hc

/-- After a step, too, each entry was made by a call from its reply. -/
theorem OriginInv.entries_step {l : Limits} (h : OriginInv cfg s w) (hl : cfg.cache = some l)
    (hstep : s.step cfg (t, act) = some s') :
    ∃ a, Reps l.params s'.shared.cache a ∧ Quiet a ∧
      ∀ e ∈ a.table, ∃ o x d, (origin w s (t, act) s').entry e = some o ∧
        MadeBy cfg (a.entry e) o x d := by
  obtain ⟨a, hrep, hq, hmade⟩ := h.entries l hl
  have hsome : cfg.cache.isSome = true := by
    rw [hl]
    rfl
  obtain ⟨a', hrep', hq', hentries⟩ := step_entries hl hrep hq
    (fun f count hpos => (h.resolved t f count hpos).2.1) hstep
  refine ⟨a', hrep', hq', fun e he => ?_⟩
  rcases hentries e he with ⟨hmem, hrot⟩ | ⟨rfl, f, count, now, alloc, hpos, rfl, -, hkey, hdata⟩
  · -- An entry that is there already keeps its name and its addresses.
    obtain ⟨o, x, d, ho, hby⟩ := hmade e hmem
    obtain ⟨cur, hd⟩ := hrot.data hby.data
    have hne : e ≠ s.shared.cache.created := by
      rw [hrep.created]
      exact fun hc => absurd ((hq.wf.ok e).live hmem).1 (by omega)
    have hsame : (origin w s (t, act) s').entry e = w.entry e := by
      cases act with
      | store => exact Function.update_of_ne hne _ _
      | _ => rfl
    rw [hsame]
    exact ⟨o, x, _, ho, hrot.key.trans hby.key, hd, hby.reply, hby.accepted, hby.addrs⟩
  · obtain ⟨-, -, x, hx, hacc, hcopies⟩ := h.resolved t f count hpos
    obtain ⟨hcall, -, hhost⟩ := h.notes.frame t f (by rw [hpos]; rfl)
    unfold Config.room at hacc hcopies
    unfold Shared.array at hcopies
    rw [if_pos hsome] at hacc hcopies
    rw [if_pos hsome, hacc.take_records] at hcopies
    refine ⟨w.thread t, x, _, ?_, ?_, hdata, hx, hacc, _, rfl, hcopies⟩
    · rw [← hrep.created]
      exact Function.update_self _ _ _
    · rw [hkey, hhost hsome, hcall]

/-- Each step keeps the notes true. -/
theorem OriginInv.step (h : OriginInv cfg s w) (hstep : s.step cfg (t, act) = some s') :
    OriginInv cfg s' (origin w s (t, act) s') where
  notes := h.notes.step (fun _ _ => trivial) hstep
  asked := fun _ _ hf => h.asked_step hstep hf
  resolved := fun _ _ _ hu => h.resolved_step hstep hu
  entries := fun _ hl => h.entries_step hl hstep

end step

/-- Each state of a run satisfies the invariant. -/
theorem run_originInv {cfg : Config} {addr_list : ℕ → InAddr} {x : CEntry (Option Name) (Option Data)}
    {n : Ring.Links LruNode} {ls : List (ℕ × Act)} {s : Sys}
    (hrun : Runs.run (Sys.step cfg) (.init addr_list x n) ls = some s) :
    OriginInv cfg s (Runs.record (Sys.step cfg) origin noOrigins (.init addr_list x n) ls) := by
  have hinit : OriginInv cfg (.init addr_list x n) noOrigins := by
    refine ⟨init_noteInv cfg _ addr_list x n, fun t f hc => ?_, fun t f count hc => ?_, fun l hl => ?_⟩
    · cases hc
    · cases hc
    · refine ⟨_, Cache.init_reps l.params x n, init_quiet x, fun e he => ?_⟩
      exact absurd he (by simp [Cache.initLru])
  refine Runs.record_invariant_of_step (I := OriginInv cfg) ?_ hinit hrun
  rintro s ⟨t, act⟩ s' w h hstep
  exact h.step hstep

/-! ## What a lookup finds -/

/-- The entry that `lookup_entry` finds. -/
def finds (l : Limits) (c : DnsCache) (host : Name) : Option ℕ :=
  (c.entryLookup l.params (some host)).bind Prod.snd

section finds

variable {l : Limits} {c c' : DnsCache} {a : Lru (Option Name) (Option Data)} {host : Name}

/-- The entry that a lookup finds has the key that was asked for. -/
theorem finds_spec (hrep : Reps l.params c a) (hq : Quiet a) {e : ℕ} (h : finds l c host = some e) :
    e ∈ a.table ∧ (a.entry e).key = some host := by
  obtain ⟨c₁, r, hc₁, hfound, -⟩ := Cache.entryLookup_spec hrep hq.wf (some host)
  rw [finds, hc₁] at h
  obtain ⟨hmem, -, hsame⟩ := hfound.hit e h
  exact ⟨hmem, key_of_same hsame⟩

/-- What is served is from the entry that is found. -/
theorem lookupEntry_served (hrep : Reps l.params c a) (hq : Quiet a) {num_addrs : ℕ} {rotate : Bool}
    {now : Int64} {served : List InAddr}
    (h : lookupEntry l c host num_addrs rotate now = some (c', some served)) :
    ∃ e d d', finds l c host = some e ∧ (a.entry e).data = some d ∧ now ≤ d.expires ∧
      d.serve num_addrs rotate = some (served, d') := by
  obtain ⟨c₁, r, hc₁, -, hrep₁⟩ := Cache.entryLookup_spec hrep hq.wf (some host)
  have hfinds : finds l c host = r := by rw [finds, hc₁, Option.bind_some]
  rw [lookupEntry, hc₁] at h
  dsimp only [Option.bind_eq_bind, Option.bind_some] at h
  cases r with
  | none => cases h
  | some e =>
    obtain ⟨d, hd, h⟩ := Option.bind_eq_some_iff.mp h
    have hentry : (c₁.entry e).data = (a.entry e).data := by
      change Reps l.params c₁ (a.take e) at hrep₁
      rw [hrep₁.entry]
      simp [Lru.take, Lru.setEntry]
    rw [hentry] at hd
    refine ⟨e, d, ?_⟩
    split_ifs at h with hfresh
    · obtain ⟨⟨addrs, d'⟩, hserve, h⟩ := Option.bind_eq_some_iff.mp h
      obtain ⟨c₂, -, h⟩ := Option.bind_eq_some_iff.mp h
      cases h
      exact ⟨d', hfinds, hd, hfresh, hserve⟩
    · -- An entry that has expired is not served.
      obtain ⟨c₂, -, h⟩ := Option.bind_eq_some_iff.mp h
      obtain ⟨c₃, -, h⟩ := Option.bind_eq_some_iff.mp h
      cases h

end finds

end StWin.Dns
