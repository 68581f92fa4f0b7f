import StWin.Dns.Model

/-!
# What a step can do

`act_does` says once what a thread that takes a step does with the shared variables: only a lookup and
an insertion touch the cache, and only the parser assigns to `addr_list` and `_stx_dns_ttl`. The thread
goes from frame to frame with the same arguments.
-/

namespace StWin.Dns

/-- The locals of a call that resolves. -/
def Pos.frame : Pos → Option Frame
  | .user _ | .lookup _ _ => none
  | .opening f | .name f | .server f | .sending f _ | .receiving f | .received f _ | .failed f
  | .resolved f _ => some f

/-- A place before the reply of a name server. -/
def Pos.Early : Pos → Bool
  | .opening _ | .name _ | .server _ | .sending _ _ | .receiving _ | .failed _ => true
  | _ => false

/-- What the last call has returned. -/
def Pos.ret : Pos → Option Ret
  | .user r => r
  | _ => none

/-- Neither the beginning of a call, nor an access to the cache. -/
def Act.Inner : Act → Bool
  | .call _ _ | .lookup _ | .store _ _ => false
  | _ => true

namespace Shared

/-- The variables that the results of a call depend on stay. -/
structure Same (s s' : Shared) : Prop where
  addr_list : s'.addr_list = s.addr_list
  ttl : s'.ttl = s.ttl
  cache : s'.cache = s.cache

/-- The first frame of a call. -/
def newFrame (c : Call) (host : Name) (addrs : ℕ → InAddr) : Frame :=
  ⟨c, host, addrs, [], 0, (0, 0), fun _ => 0⟩

/-- What a step of a thread from one place to another does. -/
inductive Does (cfg : Config) (s s' : Shared) : Pos → Pos → Act → Prop
  | enters (r : Option Ret) (c : Call) (addrs : ℕ → InAddr) (same : Same s s') :
      Does cfg s s' (.user r) (if cfg.cache.isSome then .lookup c addrs
        else .opening (newFrame c c.hostname addrs)) (.call c addrs)
  | looks (l : Limits) (c : Call) (addrs : ℕ → InAddr) (now : Int64) (r : Option (List InAddr))
      (conf : cfg.cache = some l)
      (looked : lookupEntry l s.cache c.host c.num_addrs c.rotate now = some (s'.cache, r))
      (addr_list : s'.addr_list = s.addr_list) (ttl : s'.ttl = s.ttl) :
      Does cfg s s' (.lookup c addrs)
        (r.elim (.opening (newFrame c c.host addrs)) fun x => .user (some ⟨0, x⟩)) (.lookup now)
  | gives_up (pos : Pos) (f : Frame) (act : Act) (was : pos.frame = some f) (inner : act.Inner = true)
      (same : Same s s') : Does cfg s s' pos .fails act
  | goes (pos pos' : Pos) (f f' : Frame) (act : Act) (was : pos.frame = some f)
      (now : pos'.frame = some f') (call : f'.call = f.call) (host : f'.host = f.host)
      (early : pos'.Early = true) (inner : act.Inner = true) (same : Same s s') :
      Does cfg s s' pos pos' act
  | hears (f : Frame) (data : List UInt8) (len : data.length ≤ MAXPACKET) (same : Same s s') :
      Does cfg s s' (.receiving f) (.received { f with qbuf := f.qbuf.write data } data.length)
        (.datagram data)
  | hears_nothing (f : Frame) (errno : ℤ) (same : Same s s') :
      Does cfg s s' (.receiving f) (.received f (-1)) (.noDatagram errno)
  | parses (f f' : Frame) (len rv : ℤ) (a : Parsed) (long : HFIXEDSZ ≤ len) (call : f'.call = f.call)
      (host : f'.host = f.host)
      (parsed : cfg.cache.isSome → parseAnswer cfg.resolver len f.qbuf.toHost s.addr_list MAX_HOST_ADDRS =
        some (rv, a) ∧ s'.addr_list = a.addrs ∧ s'.ttl = a.ttl) (cache : s'.cache = s.cache) :
      Does cfg s s' (.received f len) (if rv = 0 then .resolved f' a.i else f'.nextServer) .go
  | stores (f : Frame) (count : ℕ) (now : Int64) (alloc : Alloc) (l : Limits)
      (conf : cfg.cache = some l)
      (stored : insertEntry l s.cache f.host ((List.range count).map s.addr_list) s.ttl now alloc =
        some s'.cache)
      (addr_list : s'.addr_list = s.addr_list) (ttl : s'.ttl = s.ttl) :
      Does cfg s s' (.resolved f count)
        (.user (some ⟨0, (List.range (min f.call.num_addrs count)).map s.addr_list⟩)) (.store now alloc)
  | returns (f : Frame) (count : ℕ) (r : Ret) (act : Act) (conf : cfg.cache = none)
      (same : Same s s') : Does cfg s s' (.resolved f count) (.user (some r)) act

variable {cfg : Config} {s s' : Shared} {pos' : Pos}

/-- A reply is looked at. -/
theorem reply_does {f : Frame} {len : ℤ} (h : s.reply cfg f len = some (s', pos')) :
    Does cfg s s' (.received f len) pos' .go := by
  unfold reply at h
  by_cases hlen : len < HFIXEDSZ
  · -- No reply, or too short a one.
    rw [if_pos hlen] at h
    dsimp only at h
    split_ifs at h
    all_goals
      cases h
      exact .goes _ _ f _ _ rfl rfl rfl rfl rfl rfl ⟨rfl, rfl, rfl⟩
  rw [if_neg hlen] at h
  dsimp only at h
  by_cases hrcode : f.qbuf.toHost.rcode ≠ 0 ∨ f.qbuf.toHost.count ANCOUNT = 0
  · rw [if_pos hrcode] at h
    cases h
    exact .goes _ _ f _ _ rfl rfl rfl rfl rfl rfl ⟨rfl, rfl, rfl⟩
  rw [if_neg hrcode] at h
  -- With a cache the addresses go into the shared array, otherwise into the caller's.
  by_cases hcache : cfg.cache.isSome = true
  · rw [if_pos hcache] at h
    obtain ⟨⟨rv, a⟩, hparse, h⟩ := Option.bind_eq_some_iff.mp h
    cases h
    exact .parses f _ len rv a (not_lt.mp hlen) rfl rfl (fun _ => ⟨hparse, rfl, rfl⟩) rfl
  · rw [if_neg hcache] at h
    obtain ⟨⟨rv, a⟩, hparse, h⟩ := Option.bind_eq_some_iff.mp h
    cases h
    exact .parses f _ len rv a (not_lt.mp hlen) rfl rfl (fun hc => absurd hc hcache) rfl

/-- A resolution comes to its end. -/
theorem finish_does {f : Frame} {count : ℕ} {now : Int64} {alloc : Alloc}
    (h : s.finish cfg f count now alloc = some (s', pos')) :
    Does cfg s s' (.resolved f count) pos' (.store now alloc) := by
  unfold finish at h
  cases hconf : cfg.cache with
  | none =>
    rw [hconf] at h
    cases h
    exact .returns f count _ _ hconf ⟨rfl, rfl, rfl⟩
  | some l =>
    rw [hconf] at h
    obtain ⟨cache, hcache, h⟩ := Option.bind_eq_some_iff.mp h
    cases h
    exact .stores f count now alloc l hconf hcache rfl rfl

/-- The inversion of a step. -/
theorem act_does {pos : Pos} {act : Act} (h : s.act cfg pos act = some (s', pos')) :
    Does cfg s s' pos pos' act := by
  unfold Shared.act at h
  split at h
  · next r c addrs =>
    -- A call begins, with the cache or at once with a socket.
    have hnow : pos' = if cfg.cache.isSome then .lookup c addrs
        else .opening (newFrame c c.hostname addrs) := by
      split_ifs at h ⊢ <;> cases h <;> rfl
    have hsame : s' = s := by
      split_ifs at h <;> cases h <;> rfl
    subst hnow hsame
    exact .enters r c addrs ⟨rfl, rfl, rfl⟩
  · next c addrs now =>
    -- The lookup in the cache.
    obtain ⟨l, hl, h⟩ := Option.bind_eq_some_iff.mp h
    obtain ⟨⟨cache, r⟩, hlook, h⟩ := Option.bind_eq_some_iff.mp h
    dsimp only at h
    cases r with
    | none =>
      cases h
      exact .looks l c addrs now none hl hlook rfl rfl
    | some found =>
      cases h
      exact .looks l c addrs now (some found) hl hlook rfl rfl
  · next f o =>
    -- The socket. A failure ends the call.
    split_ifs at h
    · cases h
      exact .gives_up _ f _ rfl rfl ⟨rfl, rfl, rfl⟩
    · cases h
      exact .gives_up _ f _ rfl rfl ⟨rfl, rfl, rfl⟩
    · cases h
      exact .gives_up _ f _ rfl rfl ⟨rfl, rfl, rfl⟩
    · split at h
      · cases h
        exact .gives_up _ f _ rfl rfl ⟨rfl, rfl, rfl⟩
      · cases h
        exact .goes _ _ f _ _ rfl rfl rfl rfl rfl rfl ⟨rfl, rfl, rfl⟩
  · next f =>
    -- The next name to try, if there is one.
    split at h
    · cases h
      exact .gives_up _ f _ rfl rfl ⟨rfl, rfl, rfl⟩
    · cases h
      exact .goes _ _ f _ _ rfl rfl rfl rfl rfl rfl ⟨rfl, rfl, rfl⟩
  · next f query =>
    -- The query to one server. Without one the name is given up.
    split_ifs at h
    all_goals
      cases h
      exact .goes _ _ f _ _ rfl rfl rfl rfl rfl rfl ⟨rfl, rfl, rfl⟩
  · next f =>
    split_ifs at h
    cases h
    exact .goes _ _ f _ _ rfl rfl rfl rfl rfl rfl ⟨rfl, rfl, rfl⟩
  · next f len n errno =>
    -- `st_sendto` returns.
    dsimp only at h
    split_ifs at h
    all_goals
      cases h
      exact .goes _ _ f _ _ rfl rfl rfl rfl rfl rfl ⟨rfl, rfl, rfl⟩
  · next f data =>
    -- `st_recvfrom` returns. A datagram with another id is dropped.
    dsimp only at h
    split_ifs at h with hlen
    · cases h
      exact .hears f data hlen ⟨rfl, rfl, rfl⟩
    · cases h
      exact .goes _ _ f _ _ rfl rfl rfl rfl rfl rfl ⟨rfl, rfl, rfl⟩
  · next f errno =>
    cases h
    exact .hears_nothing f errno ⟨rfl, rfl, rfl⟩
  · exact reply_does h
  · next f =>
    split_ifs at h
    · cases h
      exact .gives_up _ f _ rfl rfl ⟨rfl, rfl, rfl⟩
    · cases h
      exact .goes _ _ f _ _ rfl rfl rfl rfl rfl rfl ⟨rfl, rfl, rfl⟩
  · exact finish_does h
  · cases h

/-- A name is resolved by a reply that was parsed. -/
theorem Does.resolved {pos : Pos} {f : Frame} {n : ℕ} {act : Act}
    (h : Does cfg s s' pos (.resolved f n) act) :
    ∃ f₀ len a, pos = .received f₀ len ∧ HFIXEDSZ ≤ len ∧ f.call = f₀.call ∧ f.host = f₀.host ∧
      n = a.i ∧ act = .go ∧
      (cfg.cache.isSome → parseAnswer cfg.resolver len f₀.qbuf.toHost s.addr_list MAX_HOST_ADDRS =
        some (0, a) ∧ s'.addr_list = a.addrs ∧ s'.ttl = a.ttl) := by
  generalize hpos : Pos.resolved f n = pos' at h
  cases h with
  | enters =>
    split_ifs at hpos
  | looks l c addrs now r =>
    cases r <;> cases hpos
  | gives_up => cases hpos
  | goes _ _ _ _ _ _ _ _ _ early =>
    subst hpos
    cases early
  | hears => cases hpos
  | hears_nothing => cases hpos
  | parses f₀ f' len rv a long call host parsed cache =>
    split_ifs at hpos with hrv
    · cases hpos
      subst hrv
      exact ⟨f₀, len, a, rfl, long, call, host, rfl, rfl, parsed⟩
    · cases hpos
  | stores => cases hpos
  | returns => cases hpos

/-- Only a lookup and an insertion touch the cache. -/
theorem Does.cache {pos : Pos} {act : Act} (h : Does cfg s s' pos pos' act) :
    s'.cache = s.cache ∨
      (∃ l c addrs now r, cfg.cache = some l ∧ pos = .lookup c addrs ∧ act = .lookup now ∧
        lookupEntry l s.cache c.host c.num_addrs c.rotate now = some (s'.cache, r)) ∨
      ∃ l f count now alloc, cfg.cache = some l ∧ pos = .resolved f count ∧ act = .store now alloc ∧
        insertEntry l s.cache f.host ((List.range count).map s.addr_list) s.ttl now alloc =
          some s'.cache := by
  cases h with
  | enters _ _ _ same => exact Or.inl same.cache
  | gives_up _ _ _ _ _ same => exact Or.inl same.cache
  | goes _ _ _ _ _ _ _ _ _ _ _ same => exact Or.inl same.cache
  | hears _ _ _ same => exact Or.inl same.cache
  | hears_nothing _ _ same => exact Or.inl same.cache
  | parses _ _ _ _ _ _ _ _ _ cache => exact Or.inl cache
  | returns _ _ _ _ _ same => exact Or.inl same.cache
  | looks l c addrs now r conf looked =>
    exact Or.inr (Or.inl ⟨l, c, addrs, now, r, conf, rfl, rfl, looked⟩)
  | stores f count now alloc l conf stored =>
    exact Or.inr (Or.inr ⟨l, f, count, now, alloc, conf, rfl, rfl, stored⟩)

/-- Where the frame of a thread comes from. -/
theorem Does.frame {pos pos' : Pos} {f' : Frame} {act : Act} (h : Does cfg s s' pos pos' act)
    (hf : pos'.frame = some f') :
    (∃ c addrs, act = .call c addrs ∧ cfg.cache = none ∧ f' = newFrame c c.hostname addrs) ∨
      (∃ c addrs now, pos = .lookup c addrs ∧ act = .lookup now ∧ pos' = .opening f' ∧
        cfg.cache.isSome ∧ f' = newFrame c c.host addrs) ∨
      ∃ f, pos.frame = some f ∧ act.Inner = true ∧ f'.call = f.call ∧ f'.host = f.host := by
  cases h with
  | enters r c addrs =>
    split_ifs at hf with hcache
    · cases hf
    · cases hf
      exact Or.inl ⟨c, addrs, rfl, by simpa using hcache, rfl⟩
  | looks l c addrs now r conf =>
    cases r with
    | none =>
      cases hf
      exact Or.inr (Or.inl ⟨c, addrs, now, rfl, rfl, rfl, by rw [conf]; rfl, rfl⟩)
    | some => cases hf
  | gives_up => cases hf
  | goes _ _ f f₁ _ was now call host _ inner =>
    rw [now] at hf
    cases hf
    exact Or.inr (Or.inr ⟨f, was, inner, call, host⟩)
  | hears f data =>
    cases hf
    exact Or.inr (Or.inr ⟨f, rfl, rfl, rfl, rfl⟩)
  | hears_nothing =>
    cases hf
    exact Or.inr (Or.inr ⟨_, rfl, rfl, rfl, rfl⟩)
  | parses f f₁ _ rv _ _ call host =>
    split_ifs at hf
    all_goals
      cases hf
      exact Or.inr (Or.inr ⟨f, rfl, rfl, call, host⟩)
  | stores => cases hf
  | returns => cases hf

/-- A thread is behind the loop that waits for a reply with the datagram it has got, or with none. -/
theorem Does.received {pos : Pos} {f : Frame} {len : ℤ} {act : Act}
    (h : Does cfg s s' pos (.received f len) act) :
    len = -1 ∨ ∃ f₀ data, pos = .receiving f₀ ∧ act = .datagram data ∧ data.length ≤ MAXPACKET ∧
      f = { f₀ with qbuf := f₀.qbuf.write data } ∧ len = data.length := by
  generalize hpos : Pos.received f len = pos' at h
  cases h with
  | enters =>
    split_ifs at hpos
  | looks l c addrs now r =>
    cases r <;> cases hpos
  | gives_up => cases hpos
  | goes _ _ _ _ _ _ _ _ _ early =>
    subst hpos
    cases early
  | hears f₀ data hlen =>
    cases hpos
    exact Or.inr ⟨f₀, data, rfl, rfl, hlen, rfl, rfl⟩
  | hears_nothing =>
    cases hpos
    exact Or.inl rfl
  | parses _ _ _ rv =>
    split_ifs at hpos
    cases hpos
  | stores => cases hpos
  | returns => cases hpos

/-- A thread that is about to look up a name has just made the call. -/
theorem Does.lookup {pos : Pos} {c : Call} {addrs : ℕ → InAddr} {act : Act}
    (h : Does cfg s s' pos (.lookup c addrs) act) : act = .call c addrs := by
  generalize hpos : Pos.lookup c addrs = pos' at h
  cases h with
  | enters =>
    split_ifs at hpos
    cases hpos
    rfl
  | looks l c addrs now r =>
    cases r <;> cases hpos
  | gives_up => cases hpos
  | goes _ _ _ _ _ _ _ _ _ early =>
    subst hpos
    cases early
  | hears => cases hpos
  | hears_nothing => cases hpos
  | parses _ _ _ rv =>
    split_ifs at hpos
    cases hpos
  | stores => cases hpos
  | returns => cases hpos

end Shared

namespace Sys

variable {cfg : Config} {s s' : Sys} {t : ℕ} {act : Act}

/-- A step changes the shared variables and the place of the thread that has the turn. -/
theorem step_does (h : s.step cfg (t, act) = some s') :
    (s.turn = none ∨ s.turn = some t) ∧
      (s'.turn = if (s'.thread t).Switches then none else some t) ∧
      (∀ u, u ≠ t → s'.thread u = s.thread u) ∧
      Shared.Does cfg s.shared s'.shared (s.thread t) (s'.thread t) act := by
  unfold step at h
  dsimp only at h
  split_ifs at h with hturn
  obtain ⟨⟨shared, pos⟩, hact, rfl⟩ := Option.map_eq_some_iff.mp h
  refine ⟨hturn, ?_, fun u hu => Function.update_of_ne hu _ _, ?_⟩
  · simp only [Function.update_self]
  · simp only [Function.update_self]
    exact Shared.act_does hact

/-- If a thread that has resolved a name always has the turn, it is the one that takes the step. -/
theorem step_resolved (hall : ∀ u f n, s.thread u = .resolved f n → s.turn = some u)
    (h : s.step cfg (t, act) = some s') {u n : ℕ} {f : Frame} (hu : s'.thread u = .resolved f n) :
    u = t ∧ s'.turn = some t := by
  obtain ⟨hturn, hturn', hother, -⟩ := step_does h
  have hut : u = t := by
    by_contra hne
    rw [hother u hne] at hu
    have hhas := hall u f n hu
    rcases hturn with hturn | hturn
    · rw [hhas] at hturn
      cases hturn
    · rw [hhas] at hturn
      exact hne (Option.some_inj.mp hturn)
  subst hut
  refine ⟨rfl, ?_⟩
  rw [hturn', hu]
  rfl

end Sys

end StWin.Dns
