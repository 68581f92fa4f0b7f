import StWin.Dns.Origin

/-!
# The names of the cached resolver

With a cache, a host name goes through the buffer `host` of 128 octets before it is looked up and before it
is resolved. A name of at most 127 characters is only changed to lower case there, and is then looked up and
resolved as it would be without a cache. Of a longer name, the rest is lost: what is resolved is another
name, and two names that have the first 127 characters in common share an entry.
-/

namespace StWin.Dns

/-- The names are equal up to the case of their letters. -/
def SameName (h h' : Name) : Prop := h.map tolower = h'.map tolower

instance (h h' : Name) : Decidable (SameName h h') := inferInstanceAs (Decidable (_ = _))

/-- The name that a call is to resolve. -/
def Config.whole (cfg : Config) (hostname : Name) : Name :=
  if cfg.cache.isSome then hostname.map tolower else hostname

/-- The name fits into the buffer `host`, if there is one. -/
def Config.Fits (cfg : Config) (hostname : Name) : Prop := cfg.cache.isSome → hostname.length ≤ 127

/-! ## Lower case -/

/-- `tolower` moves the capital letters of ASCII by 32. -/
theorem toNat_tolower (c : UInt8) :
    (tolower c).toNat = if 65 ≤ c.toNat ∧ c.toNat ≤ 90 then c.toNat + 32 else c.toNat := by
  -- The test on octets, as one on numbers. The sum of an upper case letter and 32 does not wrap.
  have hupper : (65 ≤ c ∧ c ≤ 90) ↔ (65 ≤ c.toNat ∧ c.toNat ≤ 90) := by
    rw [UInt8.le_iff_toNat_le, UInt8.le_iff_toNat_le]
    rfl
  unfold tolower
  split_ifs with hc hn hn
  · have hsum : (c + 32).toNat = (c.toNat + 32) % 2^8 := UInt8.toNat_add c 32
    omega
  · exact absurd (hupper.mp hc) hn
  · exact absurd (hupper.mpr hn) hc
  · rfl

/-- Only a dot becomes a dot. -/
theorem tolower_eq_dot {c : UInt8} : tolower c = dot ↔ c = dot := by
  have hdot : dot.toNat = 46 := rfl
  rw [← UInt8.toNat_inj, ← UInt8.toNat_inj, toNat_tolower, hdot]
  split_ifs <;> omega

/-- `tolower` leaves its own results as they are. -/
theorem tolower_tolower (c : UInt8) : tolower (tolower c) = tolower c := by
  rw [← UInt8.toNat_inj, toNat_tolower (tolower c), toNat_tolower c]
  split_ifs <;> omega

/-- The names that are tried do not depend on the case of the letters. -/
theorem tries_map_tolower (cfg : Config) (h : Name) : cfg.tries (h.map tolower) = cfg.tries h := by
  -- What is read of a name to decide that are its dots.
  have hcount : ∀ xs : Name, (xs.map tolower).count dot = xs.count dot := by
    intro xs
    rw [List.count, List.countP_map]
    refine List.countP_congr fun c _ => ?_
    simp [tolower_eq_dot]
  have hlast : ∀ xs : Name, (xs.map tolower).getLast? = some dot ↔ xs.getLast? = some dot := by
    intro xs
    rw [List.getLast?_map, Option.map_eq_some_iff]
    constructor
    · rintro ⟨c, hc, hdot⟩
      rw [hc, tolower_eq_dot.mp hdot]
    · exact fun hc => ⟨dot, hc, rfl⟩
  unfold Config.tries
  simp only [← List.map_take, hcount, hlast]

/-! ## Long names -/

/-- The buffer holds the whole name exactly when the name has at most 127 characters. -/
theorem Call.host_eq_iff (c : Call) : c.host = c.hostname.map tolower ↔ c.hostname.length ≤ 127 := by
  constructor
  · -- The copy has at most 127 characters.
    intro heq
    have hlen := congrArg List.length heq
    rw [Call.host, List.length_map, List.length_map, List.length_take] at hlen
    omega
  · intro hle
    rw [Call.host, List.take_of_length_le hle]

/-- The name that is asked for is the whole one exactly when everything fits into the buffers. -/
theorem asked_eq_whole_iff (cfg : Config) (c : Call) :
    cfg.asked c = cfg.whole c.hostname ↔ cfg.Fits c.hostname := by
  unfold Config.asked Config.whole Config.Fits
  by_cases hcache : cfg.cache.isSome = true
  · rw [if_pos hcache, if_pos hcache, c.host_eq_iff]
    exact ⟨fun hle _ => hle, fun hle => hle hcache⟩
  · rw [if_neg hcache, if_neg hcache]
    exact ⟨fun _ hc => absurd hc hcache, fun _ => rfl⟩

/-- The name to resolve is the given one up to case. -/
theorem sameName_whole (cfg : Config) (hostname : Name) : SameName (cfg.whole hostname) hostname := by
  unfold SameName Config.whole
  split_ifs
  · rw [List.map_map]
    exact List.map_congr_left fun c _ => tolower_tolower c
  · rfl

/-- How many names are tried depends on the name up to case only. -/
theorem tries_whole (cfg : Config) (hostname : Name) :
    cfg.tries (cfg.whole hostname) = cfg.tries hostname := by
  unfold Config.whole
  split_ifs
  · exact tries_map_tolower cfg hostname
  · rfl

/-- Two names with the same key differ behind the first 127 characters, if at all. -/
theorem sameName_iff_of_host {c c' : Call} (h : c.host = c'.host) :
    SameName c.hostname c'.hostname ↔ SameName (c.hostname.drop 127) (c'.hostname.drop 127) := by
  have hsplit : ∀ x : Call, x.hostname.map tolower = x.host ++ (x.hostname.drop 127).map tolower := by
    intro x
    rw [Call.host, ← List.map_append, List.take_append_drop]
  unfold SameName
  rw [hsplit c, hsplit c', h, List.append_cancel_left_eq]

/-! ## Every run -/

/-- Which names are resolved, and from whose entries names are answered. -/
structure NamesSpec (cfg : Config) (s : Sys) (w : Notes) : Prop where
  /-- A call resolves its whole name, in lower case if there is a cache, exactly if it fits. -/
  resolves : ∀ t f, (s.thread t).frame = some f →
    (f.host = cfg.whole f.call.hostname ↔ cfg.Fits f.call.hostname)
  /-- Then it is the same name as without a cache, and the domains that are tried are the same. -/
  tries : ∀ t f, (s.thread t).frame = some f → cfg.Fits f.call.hostname →
    SameName f.host f.call.hostname ∧ cfg.tries f.host = cfg.tries f.call.hostname
  /-- The entry that the lookup of a name finds was made by a call. That call has resolved the same name
  exactly if there is no difference between the names behind their first 127 characters. -/
  finds : ∀ l (c : Call) e, cfg.cache = some l → finds l s.shared.cache c.host = some e →
    ∃ o, w.entry e = some o ∧ (SameName o.call.hostname c.hostname ↔
      SameName (o.call.hostname.drop 127) (c.hostname.drop 127))
  /-- A call that is answered from the cache is answered from the entry that its lookup finds. -/
  served : ∀ t c addrs now s' r, s.thread t = .lookup c addrs →
    s.step cfg (t, .lookup now) = some s' → s'.thread t = .user (some r) →
    ∃ l e d d', cfg.cache = some l ∧ Dns.finds l s.shared.cache c.host = some e ∧
      (s.shared.cache.entry e).data = some d ∧ d.serve c.num_addrs c.rotate = some (r.addrs, d')

section spec

variable {cfg : Config} {s s' : Sys} {w : Notes}

/-- A lookup that returns to the caller has been served. -/
theorem OriginInv.served (h : OriginInv cfg s w) {t : ℕ} {c : Call} {addrs : ℕ → InAddr} {now : Int64}
    {r : Ret} (hpos : s.thread t = .lookup c addrs) (hstep : s.step cfg (t, .lookup now) = some s')
    (hr : s'.thread t = .user (some r)) :
    ∃ l e d d', cfg.cache = some l ∧ finds l s.shared.cache c.host = some e ∧
      (s.shared.cache.entry e).data = some d ∧ d.serve c.num_addrs c.rotate = some (r.addrs, d') := by
  -- Of the steps at the lookup, only a hit returns.
  obtain ⟨-, -, -, hdoes⟩ := Sys.step_does hstep
  rw [hpos, hr] at hdoes
  generalize hpos' : Pos.user (some r) = pos' at hdoes
  cases hdoes with
  | looks l _ _ _ found conf looked =>
    cases found with
    | none => cases hpos'
    | some served =>
      cases hpos'
      obtain ⟨a, hrep, hq, -⟩ := h.entries l conf
      obtain ⟨e, d, d', hfinds, hd, -, hserve⟩ := lookupEntry_served hrep hq looked
      refine ⟨l, e, d, d', conf, hfinds, ?_, hserve⟩
      rw [hrep.entry, hd]
  | gives_up _ _ _ was => cases was
  | goes _ _ _ _ _ was => cases was

/-- The entry that is found has the key of the call that has made it. -/
theorem OriginInv.finds_origin (h : OriginInv cfg s w) {l : Limits} (hl : cfg.cache = some l) {c : Call}
    {e : ℕ} (hfinds : finds l s.shared.cache c.host = some e) :
    ∃ o x d, w.entry e = some o ∧ o.call.host = c.host ∧ (s.shared.cache.entry e).data = some d ∧
      MadeBy cfg (s.shared.cache.entry e) o x d := by
  obtain ⟨a, hrep, hq, hmade⟩ := h.entries l hl
  obtain ⟨hmem, hkey⟩ := finds_spec hrep hq hfinds
  obtain ⟨o, x, d, ho, hby⟩ := hmade e hmem
  have hhost : o.call.host = c.host := by
    rw [hby.key] at hkey
    exact Option.some_inj.mp hkey
  rw [hrep.entry]
  exact ⟨o, x, d, ho, hhost, hby.data, hby⟩

end spec

/-- Any threads resolve any names, with or without a cache: a call resolves its whole name, and is answered
from entries of the same name only, if the names have at most 127 characters. -/
theorem run_names_transparent (cfg : Config) (addr_list : ℕ → InAddr)
    (x : CEntry (Option Name) (Option Data)) (n : Ring.Links LruNode) (ls : List (ℕ × Act)) {s : Sys}
    (hrun : Runs.run (Sys.step cfg) (.init addr_list x n) ls = some s) :
    NamesSpec cfg s (Runs.record (Sys.step cfg) origin noOrigins (.init addr_list x n) ls) := by
  have h := run_originInv hrun
  constructor
  · intro t f hf
    rw [h.asked t f hf]
    exact asked_eq_whole_iff cfg f.call
  · intro t f hf hfits
    rw [h.asked t f hf, (asked_eq_whole_iff cfg f.call).mpr hfits]
    exact ⟨sameName_whole cfg _, tries_whole cfg _⟩
  · intro l c e hl hfinds
    obtain ⟨o, -, -, ho, hhost, -⟩ := h.finds_origin hl hfinds
    exact ⟨o, ho, sameName_iff_of_host hhost⟩
  · intro t c addrs now s' r hpos hstep hr
    exact h.served hpos hstep hr

/-- The run is possible, and the second call finds the entry of the first. -/
theorem run_names_transparent_servedFromCache :
    ∃ s, Runs.run (Sys.step oneServer) noThreads servedFromCache = some s ∧
      NamesSpec oneServer s (Runs.record (Sys.step oneServer) origin noOrigins noThreads servedFromCache) ∧
      finds fourEntries s.shared.cache (getaddr [97]).host = some 0 := by
  refine ⟨(Runs.run (Sys.step oneServer) noThreads servedFromCache).get (by decide +kernel), by simp, ?_,
    by decide +kernel⟩
  exact run_names_transparent oneServer _ _ _ servedFromCache (Option.some_get _).symm

/-- A name of 128 characters. -/
def longName (last : UInt8) : Name := List.replicate 127 97 ++ [last]

/-- A long name is resolved, and then a name that differs in the last character is about to be looked up. -/
def longNames : List (ℕ × Act) :=
  asks 0 (getaddr (longName 97)) 100 ++ hearsReply 0 1 100 ++
    [(1, .call (getaddr (longName 98)) fun _ _ => 0)]

/-- The state then. -/
def longNamed : Sys := (Runs.run (Sys.step oneServer) noThreads longNames).get (by decide +kernel)

/-- The second name is answered with the address of the first one, from its entry. -/
theorem run_names_truncated :
    Runs.run (Sys.step oneServer) noThreads longNames = some longNamed ∧
      ¬SameName (longName 97) (longName 98) ∧
      finds fourEntries longNamed.shared.cache (getaddr (longName 98)).host = some 0 ∧
      ((Runs.record (Sys.step oneServer) origin noOrigins noThreads longNames).entry 0).map
        (fun o => o.call.hostname) = some (longName 97) ∧
      ((longNamed.step oneServer (1, .lookup 101)).bind fun s => (s.thread 1).ret).map
        (fun r => (r.rv, r.addrs.map List.ofFn)) = some (0, [[10, 0, 0, 1]]) := by
  refine ⟨by simp [longNamed], by decide +kernel, by decide +kernel, by decide +kernel, by decide +kernel⟩

end StWin.Dns
