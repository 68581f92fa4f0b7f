import StWin.Dns.Names

/-!
# What a successful lookup has stored

A lookup that returns `0` has copied the data of records of type A: of the reply that it has accepted
itself, or, from the cache, of the reply that the call that has made the entry has accepted (`Source`). The
parser does not look at the number of the records at the end, nor for data that is shorter than an address.
So the lookup has stored addresses exactly if there are records of type A in that reply, and those that
were copied have four octets.
-/

namespace StWin.Dns

/-! ## Addresses and records -/

/-- There are addresses, and they are the data of the records. -/
def Answers (recs : List Rec) (addrs : List InAddr) : Prop :=
  addrs ≠ [] ∧ addrs.map List.ofFn = recs.map Rec.rdata

/-- The copied addresses are the data of the records exactly when there is a record and each one has four
octets of data. -/
theorem answers_iff {recs : List Rec} {addrs : List InAddr} (h : List.Forall₂ Copies recs addrs) :
    Answers recs addrs ↔ recs ≠ [] ∧ ∀ x ∈ recs, x.rdata.length = 4 := by
  have hnil : addrs ≠ [] ↔ recs ≠ [] := by
    rw [← List.length_pos_iff, ← List.length_pos_iff, h.length_eq]
  rw [Answers, hnil, map_ofFn_eq_iff h]

/-! ## What a lookup copies -/

/-- The elements that a lookup takes of a list with one for each address of the entry. -/
def Data.picks {α : Type*} (d : Data) (num_addrs : ℕ) (rotate : Bool) (xs : List α) : List α :=
  if num_addrs = 1 then (xs.drop (if rotate then d.cur else 0)).take 1
  else xs.take (min num_addrs d.num_addrs)

/-- What a lookup copies to the caller's array. -/
theorem Data.serve_eq_picks {d d' : Data} {num_addrs : ℕ} {rotate : Bool} {addrs served : List InAddr}
    (haddrs : d.addrs = some addrs) (h : d.serve num_addrs rotate = some (served, d')) :
    served = d.picks num_addrs rotate addrs := by
  have hone : ∀ {i : ℕ} {addr : InAddr}, addrs[i]? = some addr → (addrs.drop i).take 1 = [addr] := by
    intro i addr hi
    obtain ⟨hlt, rfl⟩ := List.getElem?_eq_some_iff.mp hi
    rw [List.drop_eq_getElem_cons hlt, List.take_succ_cons, List.take_zero]
  -- One address from the middle, or a prefix: the branches of the source.
  unfold Data.serve at h
  unfold Data.picks
  rw [haddrs] at h
  dsimp only [Option.bind_eq_bind, Option.bind_some] at h
  by_cases hnum : num_addrs = 1
  · rw [if_pos hnum] at h ⊢
    cases rotate with
    | true =>
      obtain ⟨addr, haddr, h⟩ := Option.bind_eq_some_iff.mp h
      cases h
      exact (hone haddr).symm
    | false =>
      obtain ⟨addr, haddr, h⟩ := Option.bind_eq_some_iff.mp h
      cases h
      exact (hone haddr).symm
  · rw [if_neg hnum] at h ⊢
    split_ifs at h
    cases h
    rfl

/-- A lookup takes the same positions of two lists. -/
theorem Data.picks_rel {α β : Type*} {R : α → β → Prop} {xs : List α} {ys : List β} (d : Data)
    (num_addrs : ℕ) (rotate : Bool) (h : List.Forall₂ R xs ys) :
    List.Forall₂ R (d.picks num_addrs rotate xs) (d.picks num_addrs rotate ys) := by
  unfold Data.picks
  split_ifs
  · exact List.forall₂_take _ (List.forall₂_drop _ h)
  · exact List.forall₂_take _ (List.forall₂_drop _ h)
  · exact List.forall₂_take _ h

/-- An entry serves at least one address. -/
theorem Data.Ok.picks_ne_nil {α : Type*} {d : Data} (h : d.Ok) {num_addrs : ℕ} (hnum : 1 ≤ num_addrs)
    (rotate : Bool) {xs : List α} (hlen : xs.length = d.num_addrs) : d.picks num_addrs rotate xs ≠ [] := by
  have hpos := h.pos
  have hcur := h.cur
  rw [← List.length_pos_iff]
  unfold Data.picks
  split_ifs
  all_goals
    simp only [List.length_take, List.length_drop]
    omega

/-! ## Every run -/

/-- The reply, and the records of it, that a thread that is about to return copies. -/
inductive Source (cfg : Config) (s : Sys) (w : Notes) (t : ℕ) : Reply → List Rec → Prop
  /-- Those of the reply that it has accepted. -/
  | own (f : Frame) (count : ℕ) (x : Reply) (pos : s.thread t = .resolved f count)
      (reply : (w.thread t).reply = some x) (accepted : x.Accepted cfg (cfg.room f.call)) :
      Source cfg s w t x ((x.records cfg).take (w.thread t).call.num_addrs)
  /-- Those that are in the entry with the same key, which were in a reply that another call has
  accepted. -/
  | cached (l : Limits) (c : Call) (addrs : ℕ → InAddr) (e : ℕ) (o : Note) (x : Reply) (d : Data)
      (pos : s.thread t = .lookup c addrs) (conf : cfg.cache = some l)
      (found : finds l s.shared.cache c.host = some e) (made : w.entry e = some o)
      (host : o.call.host = c.host) (reply : o.reply = some x) (accepted : x.Accepted cfg MAX_HOST_ADDRS)
      (data : (s.shared.cache.entry e).data = some d) :
      Source cfg s w t x (d.picks (w.thread t).call.num_addrs (w.thread t).call.rotate (x.records cfg))

/-- What the next step may return. -/
structure AnswersSpec (cfg : Config) (s : Sys) (w : Notes) : Prop where
  /-- A call for at least one address that returns `0` has stored the data of records of type A, and at
  least one, exactly if there is such a record in the reply, and those that are stored have four octets. -/
  returns : ∀ t act s' r, s.step cfg (t, act) = some s' → (∀ r', s.thread t ≠ .user r') →
    s'.thread t = .user (some r) → r.rv = 0 → 1 ≤ (w.thread t).call.num_addrs →
    ∃ x recs, Source cfg s w t x recs ∧
      (Answers recs r.addrs ↔ x.records cfg ≠ [] ∧ ∀ rec ∈ recs, rec.rdata.length = 4)
  /-- The name that such a reply is about is the one of the call, exactly if it fits. -/
  host : ∀ c : Call, SameName (cfg.asked c) c.hostname ↔ cfg.Fits c.hostname

/-- The name that is asked for is the caller's up to case exactly when everything fits into the
buffers. -/
theorem sameName_asked_iff (cfg : Config) (c : Call) :
    SameName (cfg.asked c) c.hostname ↔ cfg.Fits c.hostname := by
  rw [← asked_eq_whole_iff]
  constructor
  · intro hsame
    have hlen := congrArg List.length hsame
    rw [List.length_map, List.length_map] at hlen
    rw [asked_eq_whole_iff]
    intro hcache
    rw [Config.asked, if_pos hcache, Call.host, List.length_map, List.length_take] at hlen
    omega
  · intro heq
    rw [heq]
    exact sameName_whole cfg _

section spec

variable {cfg : Config} {s s' : Sys} {w : Notes} {t : ℕ} {act : Act}

/-- A thread that has resolved a name returns. -/
theorem Sys.step_finish {f : Frame} {count : ℕ} (hpos : s.thread t = .resolved f count)
    (hstep : s.step cfg (t, act) = some s') :
    ∃ now alloc, s.shared.finish cfg f count now alloc = some (s'.shared, s'.thread t) := by
  have hact := Sys.step_act hstep
  rw [hpos] at hact
  cases act with
  | store now alloc => exact ⟨now, alloc, hact⟩
  | _ => cases hact

/-- A call that resolved its name copies the records of its own reply. -/
theorem OriginInv.returns_own (h : OriginInv cfg s w) {f : Frame} {count : ℕ}
    (hpos : s.thread t = .resolved f count) (hstep : s.step cfg (t, act) = some s') {r : Ret}
    (hr : s'.thread t = .user (some r)) :
    ∃ x recs, Source cfg s w t x recs ∧ List.Forall₂ Copies recs r.addrs ∧
      (1 ≤ (w.thread t).call.num_addrs → (recs ≠ [] ↔ x.records cfg ≠ [])) := by
  obtain ⟨-, -, x, hx, hacc, hcopies⟩ := h.resolved t f count hpos
  obtain ⟨hcall, -, -⟩ := h.notes.frame t f (by rw [hpos]; rfl)
  -- What is returned are the first addresses of an array, the shared one or the caller's.
  obtain ⟨now, alloc, hfinish⟩ := Sys.step_finish hpos hstep
  obtain ⟨r', hr', -, haddrs⟩ := Shared.finish_ret hfinish
  rw [hr] at hr'
  cases hr'
  refine ⟨x, _, .own f count x hpos hx hacc, ?_, fun hnum => ?_⟩
  · rw [haddrs, hcall]
    unfold Config.room at hcopies
    by_cases hcache : cfg.cache.isSome = true
    · -- All addresses of the reply are in the shared array, and the first ones are copied.
      rw [if_pos hcache] at hcopies ⊢
      rw [hacc.take_records] at hcopies
      rw [← List.take_range, List.map_take]
      exact List.forall₂_take _ hcopies
    · rw [if_neg hcache] at hcopies ⊢
      exact hcopies
  · rw [Ne, Ne, List.take_eq_nil_iff]
    simp only [not_or]
    exact ⟨fun hboth => hboth.2, fun hne => ⟨by omega, hne⟩⟩

/-- A call that was served from the cache copies the records of the entry's reply. -/
theorem OriginInv.returns_cached (h : OriginInv cfg s w) {c : Call} {addrs : ℕ → InAddr} {now : Int64}
    (hpos : s.thread t = .lookup c addrs) (hstep : s.step cfg (t, .lookup now) = some s') {r : Ret}
    (hr : s'.thread t = .user (some r)) :
    ∃ x recs, Source cfg s w t x recs ∧ List.Forall₂ Copies recs r.addrs ∧
      (1 ≤ (w.thread t).call.num_addrs → (recs ≠ [] ↔ x.records cfg ≠ [])) := by
  -- The entry, the call that has made it, and the reply that this call has accepted.
  obtain ⟨hcall, -⟩ := h.notes.lookup t c addrs hpos
  obtain ⟨l, e, d, d', hl, hfinds, hd, hserve⟩ := h.served hpos hstep hr
  obtain ⟨o, x, d₁, ho, hhost, hd₁, hby⟩ := h.finds_origin hl hfinds
  rw [hd] at hd₁
  cases hd₁
  obtain ⟨all, hall, hcopies⟩ := hby.addrs
  refine ⟨x, _, .cached l c addrs e o x d hpos hl hfinds ho hhost hby.reply hby.accepted hd, ?_,
    fun hnum => ?_⟩
  · rw [Data.serve_eq_picks hall hserve, hcall]
    exact d.picks_rel _ _ hcopies
  · -- An entry has at least one address, and as many as the reply has records.
    have hok : d.Ok := by
      obtain ⟨a, hrep, hq, -⟩ := h.entries l hl
      obtain ⟨d₂, hd₂, hok⟩ := hq.data e (finds_spec hrep hq hfinds).1
      rw [← hrep.entry, hd] at hd₂
      cases hd₂
      exact hok
    have hlen : (x.records cfg).length = d.num_addrs := by
      obtain ⟨all', hall', hnum'⟩ := hok.addrs
      rw [hall] at hall'
      cases hall'
      rw [hcopies.length_eq, hnum']
    have hpos := hok.pos
    refine ⟨fun _ => ?_, fun _ => hok.picks_ne_nil hnum _ hlen⟩
    rw [← List.length_pos_iff]
    omega

/-- A call that returns 0 copies the records of its own reply, or of an entry's. -/
theorem OriginInv.returns (h : OriginInv cfg s w) (hstep : s.step cfg (t, act) = some s') {r : Ret}
    (hin : ∀ r', s.thread t ≠ .user r') (hr : s'.thread t = .user (some r)) (hrv : r.rv = 0) :
    ∃ x recs, Source cfg s w t x recs ∧ List.Forall₂ Copies recs r.addrs ∧
      (1 ≤ (w.thread t).call.num_addrs → (recs ≠ [] ↔ x.records cfg ≠ [])) := by
  -- The steps that return `0` are a hit in the cache and the end of a call that has an answer.
  obtain ⟨-, -, -, hdoes⟩ := Sys.step_does hstep
  rw [hr] at hdoes
  generalize hpos : s.thread t = pos at hdoes hin
  generalize hpos' : Pos.user (some r) = pos' at hdoes
  cases hdoes with
  | enters r' => exact absurd rfl (hin r')
  | looks => exact h.returns_cached hpos hstep hr
  | gives_up =>
    cases hpos'
    cases hrv
  | goes _ _ _ _ _ _ _ _ _ early =>
    subst hpos'
    cases early
  | hears => cases hpos'
  | hears_nothing => cases hpos'
  | parses =>
    split_ifs at hpos'
    cases hpos'
  | returns => exact h.returns_own hpos hstep hr
  | stores => exact h.returns_own hpos hstep hr

end spec

/-- Any threads resolve any names, with any replies. -/
theorem run_answers (cfg : Config) (addr_list : ℕ → InAddr)
    (x : CEntry (Option Name) (Option Data)) (n : Ring.Links LruNode) (ls : List (ℕ × Act)) {s : Sys}
    (hrun : Runs.run (Sys.step cfg) (.init addr_list x n) ls = some s) :
    AnswersSpec cfg s (Runs.record (Sys.step cfg) origin noOrigins (.init addr_list x n) ls) := by
  refine ⟨?_, sameName_asked_iff cfg⟩
  intro t act s' r hstep hin hr hrv hnum
  obtain ⟨x, recs, hsource, hcopies, hne⟩ := (run_originInv hrun).returns hstep hin hr hrv
  refine ⟨x, recs, hsource, ?_⟩
  rw [answers_iff hcopies, hne hnum]

/-- A name was resolved, and another thread is about to look it up. -/
def looksAgain : List (ℕ × Act) := servedFromCache.dropLast

/-- The state then. -/
def lookingAgain : Sys := (Runs.run (Sys.step oneServer) noThreads looksAgain).get (by decide +kernel)

/-- The second call returns an address from the cache. -/
theorem run_answers_looksAgain :
    AnswersSpec oneServer lookingAgain
        (Runs.record (Sys.step oneServer) origin noOrigins noThreads looksAgain) ∧
      ((lookingAgain.step oneServer (1, .lookup 160)).bind fun s => (s.thread 1).ret).map
        (fun r => (r.rv, r.addrs.map List.ofFn)) = some (0, [[10, 0, 0, 1]]) := by
  have hrun : Runs.run (Sys.step oneServer) noThreads looksAgain = some lookingAgain := by
    simp [lookingAgain]
  exact ⟨run_answers oneServer _ _ _ looksAgain hrun, by decide +kernel⟩

/-- A reply whose answer is an alias. -/
def aliasReply : List UInt8 :=
  [0, 0, 129, 128, 0, 1, 0, 1, 0, 0, 0, 0, 0, 0, 1, 0, 1,
   192, 12, 0, 5, 0, 1, 0, 0, 0, 60, 0, 2, 192, 12]

/-- An alias is the answer to a call for one address. -/
def hearsAlias : List (ℕ × Act) :=
  asks 0 (getaddr [65]) 100 ++
    [(0, .datagram aliasReply), (0, .go), (0, .store 100 ⟨true, true, true, true⟩)]

/-- The call returns `0`, and nothing was stored. -/
theorem run_answers_none :
    ((Runs.run (Sys.step oneServer) noThreads hearsAlias).bind fun s => (s.thread 0).ret) =
      some ⟨0, []⟩ := by
  decide +kernel

end StWin.Dns
