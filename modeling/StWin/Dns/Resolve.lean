import StWin.Dns.Fresh

/-!
# Concurrent resolutions do not mix

The threads share `addr_list` and `_stx_dns_ttl` without a lock. The parser assigns to them, and the
cache layer reads them after `query_domain` and `_stx_dns_getaddrlist` have returned. In between there
is no place at which the thread is switched away, so a thread that has resolved a name still has the
turn (`ResolveInv.resolved`): what it copies, and what it puts into the cache, are the addresses and the
TTL of its own reply.

An observer writes down for each thread the call, whether it has missed the cache, and the last reply
that it has received.
-/

namespace StWin.Dns

open Cache (Reps)

/-! ## Replies -/

/-- A reply: the buffer of the call that has received it, and the length. -/
structure Reply where
  buf : Buf
  len : ℕ

namespace Reply

/-- The records of type A. -/
def records (cfg : Config) (x : Reply) : List Rec := addressRecords cfg.resolver x.len x.buf.toHost

/-- The address list. -/
def addresses (cfg : Config) (x : Reply) : List InAddr := (x.records cfg).map Rec.addr

/-- The records of type A have four octets of data. -/
def Inet (cfg : Config) (x : Reply) : Prop := ∀ r ∈ x.records cfg, r.rdata.length = 4

instance (cfg : Config) (x : Reply) : Decidable (x.Inet cfg) :=
  inferInstanceAs (Decidable (∀ r ∈ x.records cfg, _))

end Reply

/-- The reply that a thread has when it receives a datagram. -/
def Pos.hears (pos : Pos) (data : List UInt8) : Option Reply :=
  match pos with
  | .receiving f => some ⟨f.qbuf.write data, data.length⟩
  | _ => none

/-- The reply that a step receives. -/
def Sys.heard (s : Sys) : ℕ × Act → Option Reply
  | (t, .datagram data) => (s.thread t).hears data
  | _ => none

/-- The reply that is received has four octets in its records of type A. -/
def GetsInet (cfg : Config) (s : Sys) (l : ℕ × Act) : Prop := ∀ x ∈ s.heard l, x.Inet cfg

instance (cfg : Config) (s : Sys) (l : ℕ × Act) : Decidable (GetsInet cfg s l) :=
  inferInstanceAs (Decidable (∀ x ∈ s.heard l, x.Inet cfg))

/-! ## The observer -/

/-- What is written down about a thread. -/
structure Note where
  call : Call
  missed : Bool
  reply : Option Reply

/-- The observer. -/
def note (w : ℕ → Note) (s : Sys) (l : ℕ × Act) (s' : Sys) : ℕ → Note :=
  match l with
  | (t, .call c _) => Function.update w t ⟨c, false, none⟩
  | (t, .lookup _) => Function.update w t { w t with missed := (s'.thread t).ret.isNone }
  | (t, .datagram data) => Function.update w t { w t with reply := (s.thread t).hears data }
  | _ => w

/-- Nothing is written down yet. -/
def noNotes : ℕ → Note := fun _ => ⟨⟨[], 0, false⟩, false, none⟩

section note

variable {w : ℕ → Note} {s s' : Sys} {t : ℕ} {act : Act}

/-- Nothing is written down about the other threads. -/
theorem note_other {u : ℕ} (hu : u ≠ t) : note w s (t, act) s' u = w u := by
  cases act with
  | call => exact Function.update_of_ne hu _ _
  | lookup => exact Function.update_of_ne hu _ _
  | datagram => exact Function.update_of_ne hu _ _
  | _ => rfl

/-- In the middle of a call nothing is written down but a reply. -/
theorem note_inner (h : act.Inner = true) :
    (note w s (t, act) s' t).call = (w t).call ∧ (note w s (t, act) s' t).missed = (w t).missed := by
  cases act with
  | call => cases h
  | lookup => cases h
  | store => cases h
  | datagram => simp [note]
  | _ => exact ⟨rfl, rfl⟩

end note

/-! ## The invariant -/

/-- The shared variables hold what was parsed from the reply `x`. -/
structure Stored (cfg : Config) (s : Shared) (x : Reply) (count : ℕ) : Prop where
  addresses : (List.range count).map s.addr_list = x.addresses cfg
  ttl : s.ttl = ((x.records cfg).map Rec.ttl).getLastD (-1)

/-- The addresses of records of four octets. -/
theorem addrs_of_copies {xs : List Rec} {addrs : List InAddr} (h : List.Forall₂ Copies xs addrs)
    (h4 : ∀ x ∈ xs, x.rdata.length = 4) : addrs = xs.map Rec.addr := by
  induction h with
  | nil => rfl
  | cons hcopy _ ih =>
    rw [List.map_cons, hcopy.eq_addr (h4 _ List.mem_cons_self),
      ih fun x hx => h4 x (List.mem_cons_of_mem _ hx)]

/-- A reply was parsed. -/
theorem stored_of_parse {cfg : Config} {s s' : Shared} {x : Reply} {a : Parsed}
    (hlen : x.len ≤ MAXPACKET) (hinet : x.Inet cfg)
    (hparse : parseAnswer cfg.resolver x.len x.buf.toHost s.addr_list MAX_HOST_ADDRS = some (0, a))
    (haddrs : s'.addr_list = a.addrs) (httl : s'.ttl = a.ttl) : Stored cfg s' x a.i := by
  obtain ⟨rv, a', heq, hspec⟩ := @parseAnswer_spec cfg.resolver x.len MAX_HOST_ADDRS x.buf.toHost
    s.addr_list
  rw [hparse] at heq
  cases heq
  rcases hspec with ⟨-, ha⟩ | hc
  · -- The array has room for all of them.
    have hroom : (x.records cfg).length ≤ MAX_HOST_ADDRS := by
      refine (addressRecords_length (by exact_mod_cast hlen) _).trans ?_
      decide
    change a = ((x.records cfg).take MAX_HOST_ADDRS).foldl Parsed.push _ at ha
    rw [List.take_of_length_le hroom] at ha
    obtain ⟨hi, httl', haddrs'⟩ := foldl_push _ _ ha
    constructor
    · rw [haddrs, hi]
      exact addrs_of_copies haddrs' hinet
    · rw [httl, httl']
  · cases hc

/-- The notes about the threads are those of their calls. `P` holds of the replies that are received. -/
structure NoteInv (cfg : Config) (P : Reply → Prop) (s : Sys) (w : ℕ → Note) : Prop where
  frame : ∀ t f, (s.thread t).frame = some f → (w t).call = f.call ∧
    (w t).missed = cfg.cache.isSome ∧ (cfg.cache.isSome → f.host = f.call.host)
  lookup : ∀ t c addrs, s.thread t = .lookup c addrs → (w t).call = c ∧ (w t).missed = false
  received : ∀ t f len, s.thread t = .received f len → HFIXEDSZ ≤ len →
    ∃ x, (w t).reply = some x ∧ x.buf = f.qbuf ∧ (x.len : ℤ) = len ∧ x.len ≤ MAXPACKET ∧ P x

/-- Each step in which the replies have the property keeps the notes true. -/
theorem NoteInv.step {cfg : Config} {P : Reply → Prop} {s s' : Sys} {w : ℕ → Note} {t : ℕ} {act : Act}
    (h : NoteInv cfg P s w) (hP : ∀ x ∈ s.heard (t, act), P x)
    (hstep : s.step cfg (t, act) = some s') : NoteInv cfg P s' (note w s (t, act) s') := by
  obtain ⟨-, -, hother, hdoes⟩ := Sys.step_does hstep
  constructor
  · -- The calls that are under way.
    intro u f hf
    by_cases hu : u = t
    swap
    · rw [hother u hu] at hf
      rw [note_other hu]
      exact h.frame u f hf
    subst hu
    rcases hdoes.frame hf with ⟨c, addrs, rfl, hnone, rfl⟩ |
      ⟨c, addrs, now, hpos, rfl, hpos', hsome, rfl⟩ | ⟨f₀, hf₀, hinner, hcall, hhost⟩
    · -- A call begins, without a cache or behind a lookup that found nothing, or goes on.
      simp [note, hnone, Shared.newFrame]
    · obtain ⟨hc, -⟩ := h.lookup u c addrs hpos
      simp [note, hc, hpos', hsome, Pos.ret, Shared.newFrame]
    · obtain ⟨hc, hm⟩ := @note_inner w s s' u act hinner
      rw [hc, hm, hcall, hhost]
      exact h.frame u f₀ hf₀
  · intro u c addrs hc
    by_cases hu : u = t
    swap
    · rw [hother u hu] at hc
      rw [note_other hu]
      exact h.lookup u c addrs hc
    subst hu
    rw [hc] at hdoes
    obtain rfl := hdoes.lookup
    simp [note]
  · -- The replies that were received. One that is too short for a header counts for nothing.
    intro u f len hc hlen
    by_cases hu : u = t
    swap
    · rw [hother u hu] at hc
      rw [note_other hu]
      exact h.received u f len hc hlen
    subst hu
    rw [hc] at hdoes
    rcases hdoes.received with rfl | ⟨f₀, data, hpos, rfl, hmax, rfl, rfl⟩
    · exact absurd hlen (by decide)
    · have hhears : (s.thread u).hears data = some ⟨f₀.qbuf.write data, data.length⟩ := by
        rw [hpos]
        rfl
      refine ⟨_, ?_, rfl, rfl, hmax, hP _ hhears⟩
      simp [note, hhears]

/-- At first no thread is in a call. -/
theorem init_noteInv (cfg : Config) (P : Reply → Prop) (addr_list : ℕ → InAddr)
    (x : CEntry (Option Name) (Option Data)) (n : Ring.Links LruNode) :
    NoteInv cfg P (.init addr_list x n) noNotes := by
  refine ⟨fun t f hc => ?_, fun t c addrs hc => ?_, fun t f len hc => ?_⟩
  all_goals cases hc

/-- What holds between the steps. A thread that has parsed its reply still has the turn, and what it
has stored is from the reply. -/
structure ResolveInv (cfg : Config) (s : Sys) (w : ℕ → Note) : Prop
    extends NoteInv cfg (Reply.Inet cfg) s w where
  resolved : ∀ t f count, s.thread t = .resolved f count → s.turn = some t ∧
    (cfg.cache.isSome → ∃ x, (w t).reply = some x ∧ Stored cfg s.shared x count)

/-- A step keeps the invariant, if a reply that it receives has four octets in its records of type A. -/
theorem ResolveInv.step {cfg : Config} {s s' : Sys} {w : ℕ → Note} {t : ℕ} {act : Act}
    (h : ResolveInv cfg s w) (hinet : GetsInet cfg s (t, act))
    (hstep : s.step cfg (t, act) = some s') : ResolveInv cfg s' (note w s (t, act) s') := by
  obtain ⟨-, -, -, hdoes⟩ := Sys.step_does hstep
  refine ⟨h.toNoteInv.step hinet hstep, fun u f count hc => ?_⟩
  obtain ⟨rfl, hturn⟩ := Sys.step_resolved (fun u f n hu => (h.resolved u f n hu).1) hstep hc
  refine ⟨hturn, fun hsome => ?_⟩
  rw [hc] at hdoes
  obtain ⟨f₀, len, a, hpos, hlong, -, -, rfl, rfl, hparsed⟩ := hdoes.resolved
  obtain ⟨hparse, haddrs, httl⟩ := hparsed hsome
  obtain ⟨x, hx, hbuf, rfl, hmax, hx4⟩ := h.received u f₀ len hpos hlong
  rw [← hbuf] at hparse
  exact ⟨x, hx, stored_of_parse hmax hx4 hparse haddrs httl⟩

/-! ## Every run -/

/-- What the next step may return and insert. -/
structure ResolveSpec (cfg : Config) (s : Sys) (w : ℕ → Note) : Prop where
  /-- A call that has missed the cache and returns `0` returns the first addresses of the reply that it
  has received. -/
  returns : ∀ t act s' r, s.step cfg (t, act) = some s' → (∀ r', s.thread t ≠ .user r') →
    (w t).missed = true → s'.thread t = .user (some r) → r.rv = 0 →
    ∃ x, (w t).reply = some x ∧ r.addrs = (x.addresses cfg).take (w t).call.num_addrs
  /-- An entry that a call has inserted holds the address list of that reply, under the name that the
  call has looked up, and expires after a TTL of that reply. -/
  inserts : ∀ t act s' e, s.step cfg (t, act) = some s' → s.shared.cache.created ≤ e →
    e < s'.shared.cache.created → InTable s'.shared.cache e →
    ∃ x now alloc d ttl, act = .store now alloc ∧ (w t).reply = some x ∧
      (s'.shared.cache.entry e).key = some (w t).call.host ∧
      (s'.shared.cache.entry e).data = some d ∧ d.addrs = some (x.addresses cfg) ∧
      d.num_addrs = (x.addresses cfg).length ∧ ttl ∈ (x.records cfg).map Rec.ttl ∧
      d.expires = now + ttl.toInt64

/-- The last element of a list that is not empty. -/
theorem getLastD_mem {xs : List Int32} (h : 0 < xs.getLastD (-1)) : xs.getLastD (-1) ∈ xs := by
  cases xs using List.reverseRecOn with
  | nil => exact absurd h (by decide)
  | append_singleton xs x => simp

section spec

variable {cfg : Config} {s s' : Sys} {w : ℕ → Note} {t : ℕ} {act : Act}

/-- A call that resolved its name returns the addresses of the reply to its own query. -/
theorem ResolveInv.returns (h : ResolveInv cfg s w) (hstep : s.step cfg (t, act) = some s') {r : Ret}
    (hin : ∀ r', s.thread t ≠ .user r') (hmissed : (w t).missed = true)
    (hr : s'.thread t = .user (some r)) (hrv : r.rv = 0) :
    ∃ x, (w t).reply = some x ∧ r.addrs = (x.addresses cfg).take (w t).call.num_addrs := by
  obtain ⟨-, -, -, hdoes⟩ := Sys.step_does hstep
  rw [hr] at hdoes
  generalize hpos : s.thread t = pos at hdoes hin
  generalize hpos' : Pos.user (some r) = pos' at hdoes
  cases hdoes with
  | enters r' => exact absurd rfl (hin r')
  | looks _ c addrs =>
    rw [(h.lookup t c addrs hpos).2] at hmissed
    cases hmissed
  | gives_up =>
    cases hpos'
    cases hrv
  | goes _ _ _ _ _ _ _ _ _ early =>
    subst hpos'
    cases early
  | hears => cases hpos'
  | hears_nothing => cases hpos'
  | parses =>
    split_ifs at hpos'
    cases hpos'
  | returns f _ _ _ conf =>
    have hframe := (h.frame t f (by rw [hpos]; rfl)).2.1
    rw [hmissed, conf] at hframe
    cases hframe
  | stores f count now alloc l conf =>
    cases hpos'
    have hsome : cfg.cache.isSome := by
      rw [conf]
      rfl
    obtain ⟨x, hx, hstored⟩ := (h.resolved t f count hpos).2 hsome
    refine ⟨x, hx, ?_⟩
    rw [(h.frame t f (by rw [hpos]; rfl)).1, ← hstored.addresses, ← List.map_take, List.take_range]

/-- A new entry holds what the reply to its call's own query says. -/
theorem ResolveInv.inserts (h : ResolveInv cfg s w)
    (hfresh : ∀ l, cfg.cache = some l → ∃ stamps, FreshInv l s stamps)
    (hstep : s.step cfg (t, act) = some s') {e : ℕ} (hle : s.shared.cache.created ≤ e)
    (hlt : e < s'.shared.cache.created) (hin : InTable s'.shared.cache e) :
    ∃ x now alloc d ttl, act = .store now alloc ∧ (w t).reply = some x ∧
      (s'.shared.cache.entry e).key = some (w t).call.host ∧
      (s'.shared.cache.entry e).data = some d ∧ d.addrs = some (x.addresses cfg) ∧
      d.num_addrs = (x.addresses cfg).length ∧ ttl ∈ (x.records cfg).map Rec.ttl ∧
      d.expires = now + ttl.toInt64 := by
  cases hcache : cfg.cache with
  | none =>
    -- Without a cache, no entry is made.
    obtain ⟨-, -, -, hdoes⟩ := Sys.step_does hstep
    rcases hdoes.cache with hsame | ⟨l, -, -, -, -, conf, -⟩ | ⟨l, -, -, -, -, conf, -⟩
    · rw [hsame] at hlt
      exact absurd hlt (not_lt.mpr hle)
    · rw [hcache] at conf
      cases conf
    · rw [hcache] at conf
      cases conf
  | some l =>
    have hsome : cfg.cache.isSome := by
      rw [hcache]
      rfl
    obtain ⟨stamps, hfresh⟩ := hfresh l hcache
    obtain ⟨a, hrep, hq, -⟩ := hfresh.cache
    obtain ⟨a', hrep', -, hentries⟩ := step_entries hcache hrep hq
      (fun f count hpos => (hfresh.resolved t f count hpos).2) hstep
    have hmem : e ∈ a'.table := by
      rw [hrep'.created] at hlt
      obtain ⟨buckets, hrep'⟩ := hrep'
      exact hrep'.pthis e hlt (Option.isSome_iff_ne_none.mp hin)
    rcases hentries e hmem with ⟨hold, -⟩ | ⟨rfl, f, count, now, alloc, hpos, rfl, httl, hkey, hdata⟩
    · rw [hrep.created] at hle
      exact absurd ((hq.wf.ok e).live hold).1 (not_lt.mpr hle)
    · obtain ⟨x, hx, hstored⟩ := (h.resolved t f count hpos).2 hsome
      obtain ⟨hcall, -, hhost⟩ := h.frame t f (by rw [hpos]; rfl)
      rw [hrep'.entry, hkey, hdata, hcall, ← hhost hsome, hstored.addresses]
      refine ⟨x, now, alloc, _, s.shared.ttl, rfl, hx, rfl, rfl, rfl, rfl, ?_, rfl⟩
      rw [hstored.ttl] at httl ⊢
      exact getLastD_mem httl

end spec

/-- Any number of threads resolve any names at the same time, and are switched away only inside of
`st_sendto` and `st_recvfrom`. If the records of type A of the replies have four octets of data, what a
call returns after a miss, and what it inserts, is from the reply that it has received itself. -/
theorem run_resolutions_separate (cfg : Config) (addr_list : ℕ → InAddr)
    (x : CEntry (Option Name) (Option Data)) (n : Ring.Links LruNode) (ls : List (ℕ × Act)) {s : Sys}
    (hrun : Runs.run (Sys.step cfg) (.init addr_list x n) ls = some s)
    (hinet : Runs.Meets (Sys.step cfg) (GetsInet cfg) (.init addr_list x n) ls) :
    ResolveSpec cfg s (Runs.record (Sys.step cfg) note noNotes (.init addr_list x n) ls) := by
  have hinit : ResolveInv cfg (.init addr_list x n) noNotes :=
    ⟨init_noteInv cfg (Reply.Inet cfg) addr_list x n, fun t f count hc => by cases hc⟩
  have hstep : ∀ {s l s' w}, ResolveInv cfg s w → GetsInet cfg s l → s.step cfg l = some s' →
      ResolveInv cfg s' (note w s l s') := by
    rintro s ⟨t, act⟩ s' w h hinet hstep
    exact h.step hinet hstep
  have h := Runs.record_invariant (I := ResolveInv cfg) hstep hinit hinet hrun
  constructor
  · intro t act s' r hstep hin hmissed hr hrv
    exact h.returns hstep hin hmissed hr hrv
  · intro t act s' e hstep hle hlt hin
    exact h.inserts (fun l hl => ⟨_, run_freshInv hl hrun⟩) hstep hle hlt hin

/-- Two threads ask at the same time, and the reply to the second one comes first. -/
def bothAsk : List (ℕ × Act) :=
  asks 0 (getaddrlist [65] 5) 100 ++ asks 1 (getaddr [66]) 100 ++
    [(1, .datagram (rootReply 1 7)), (1, .go)]

/-- The second thread is about to copy its addresses. -/
def bothAsked : Sys := (Runs.run (Sys.step oneServer) noThreads bothAsk).get (by decide +kernel)

/-- Both calls return. -/
def bothReturn : List (ℕ × Act) := (1, .store 100 ⟨true, true, true, true⟩) :: hearsReply 0 8 101

/-- The run is possible. Each of the two threads gets the address of its own reply. -/
theorem run_resolutions_separate_bothAsk :
    ∃ s, Runs.run (Sys.step oneServer) bothAsked bothReturn = some s ∧
      ResolveSpec oneServer bothAsked
        (Runs.record (Sys.step oneServer) note noNotes noThreads bothAsk) ∧
      (s.thread 1).ret.map (fun r => (r.rv, r.addrs.map List.ofFn)) = some (0, [[10, 0, 0, 7]]) ∧
      (s.thread 0).ret.map (fun r => (r.rv, r.addrs.map List.ofFn)) = some (0, [[10, 0, 0, 8]]) := by
  refine ⟨(Runs.run (Sys.step oneServer) bothAsked bothReturn).get (by decide +kernel), by simp, ?_,
    by decide +kernel, by decide +kernel⟩
  have hrun : Runs.run (Sys.step oneServer) noThreads bothAsk = some bothAsked := by
    simp [bothAsked]
  exact run_resolutions_separate oneServer _ _ _ bothAsk hrun (by decide +kernel)

end StWin.Dns
