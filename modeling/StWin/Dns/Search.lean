import Mathlib.Data.List.GetD
import StWin.Dns.Access
import StWin.Dns.Model

/-!
# The names of the search loop

`_stx_dns_getaddrlist` builds the names that it searches for in the array `name`: it copies the host
name, appends a dot, and for each search domain in turn copies the domain behind the dot with `strncpy`.
The octet `name[maxlen]` is not written when the host name is shorter than `maxlen`, so a name that
reaches it ends there only if the octet, which nothing has initialised, happens to be zero. A host name
of `maxlen` octets or more leaves no place for the dot: the dot goes to `name[maxlen]`, and the length
for `strncpy` is `-1`. These are the only cases in which a name is not right
(`stxDnsGetaddrlist_names_iff`).
-/

namespace StWin.Dns

/-! ## The program -/

/-- `maxlen`. -/
def maxlen : ℕ := MAXDNAME - 1

/-- The conversion of an `int` to `size_t`. -/
def sizeT (len : ℤ) : ℕ := (len % 2^64).toNat

/-- What the program writes into `name`. -/
inductive Store where
  /-- An assignment to `name[i]`. -/
  | octet (i : ℕ)
  /-- A `strncpy` to `name + i`, with its length before the conversion to `size_t`. -/
  | strncpy (i : ℕ) (len : ℤ)
  deriving DecidableEq

/-- The octet `name[j]` is written. The function `strncpy` fills up with zeros. -/
def Store.Covers : Store → ℕ → Prop
  | .octet i, j => j = i
  | .strncpy i len, j => i ≤ j ∧ j < i + sizeT len

/-- How a call of `query_domain` ends: it returns `0`, or `-1` with `EINTR`, or `-1`. -/
inductive Query where
  | found
  | interrupted
  | failed
  deriving DecidableEq

/-- The variables of `_stx_dns_getaddrlist`, and what it has done. -/
structure Search where
  /-- The array `name`, and the memory behind it. -/
  name : ℕ → UInt8
  n : ℕ
  dots : ℕ
  stores : List Store
  /-- The calls of `query_domain`, each with the contents of `name`. -/
  calls : List (Try × (ℕ → UInt8))

/-- `name[n++] = c`. -/
def Search.put (st : Search) (c : UInt8) : Search :=
  { st with
    name := Function.update st.name st.n c
    n := st.n + 1
    stores := st.stores ++ [.octet st.n] }

/-- The loop that copies the host name. -/
def copyHost : Name → Search → Search
  | [], st => st
  | c :: cp, st =>
    if st.n < maxlen then
      copyHost cp ({ st with dots := st.dots + if c = dot then 1 else 0 }.put c)
    else st

/-- `strncpy(name + n, src, maxlen - n)`. -/
def Search.strncpy (st : Search) (src : Name) : Search :=
  let len : ℤ := maxlen - st.n
  { st with
    name := fun j =>
      if st.n ≤ j ∧ j < st.n + sizeT len then src.getD (j - st.n) 0 else st.name j
    stores := st.stores ++ [.strncpy st.n len] }

/-- A call of `query_domain`, and what `_stx_dns_getaddrlist` returns after it, if it does. The calls end
as `q` says. -/
def Search.query (q : ℕ → Query) (t : Try) (st : Search) : Option ℤ × Search :=
  let st' := { st with calls := st.calls ++ [(t, st.name)] }
  match q st.calls.length with
  | .found => (some 0, st')
  | .interrupted => (some (-1), st')
  | .failed => (none, st')

/-- Goes on if the function has not returned. -/
def andThen (x : Option ℤ × Search) (f : Search → Option ℤ × Search) : Option ℤ × Search :=
  match x.1 with
  | some rv => (some rv, x.2)
  | none => f x.2

/-- The search loop. -/
def searchDomains (dnsrch : Bool) (q : ℕ → Query) : List Name → Search → Option ℤ × Search
  | [], st => (none, st)
  | domain :: domains, st =>
    andThen ((st.strncpy domain).query q (.search domain)) fun st =>
      if dnsrch then searchDomains dnsrch q domains st else (none, st)

/-- `_stx_dns_getaddrlist` from the place on where it has a socket, for a host name that is not empty.
The array has the contents `name`. -/
def stxDnsGetaddrlist (cfg : Config) (q : ℕ → Query) (host : Name) (name : ℕ → UInt8) : ℤ × Search :=
  let st := copyHost host ⟨name, 0, 0, [], []⟩
  let trailing_dot := st.name (st.n - 1) = dot
  let tried_as_is := cfg.ndots ≤ st.dots
  let searches := (st.dots = 0 ∧ cfg.defnames) ∨ (st.dots ≠ 0 ∧ ¬trailing_dot ∧ cfg.dnsrch)
  let out := if tried_as_is then st.query q .asIs else (none, st)
  let out := andThen out fun st =>
    if searches then searchDomains cfg.dnsrch q cfg.domains (st.put dot) else (none, st)
  let out := andThen out fun st => if tried_as_is then (none, st) else st.query q .asIs
  (out.1.getD (-1), out.2)

/-! ## What a search is to do -/

/-- The octets at `name` are the string `s`, with its `NUL`. -/
def IsString (name : ℕ → UInt8) (s : Name) : Prop := ∀ i ≤ s.length, name i = s.getD i 0

/-- The writes of a search stay in the array, and the names that are searched for are built in it. -/
structure Search.Ok (host : Name) (st : Search) : Prop where
  inside : ∀ w ∈ st.stores, ∀ i, w.Covers i → i < MAXDNAME
  lengths : ∀ i len, .strncpy i len ∈ st.stores → 0 ≤ len
  terminated : ∀ d name, (.search d, name) ∈ st.calls → ∃ i < MAXDNAME, name i = 0
  built : ∀ d name, (.search d, name) ∈ st.calls → host.length + 1 + d.length < MAXDNAME →
    IsString name (host ++ dot :: d)

/-- Of the names `ts`, those that are tried if the calls of `query_domain` end as `q` says, from the
`k`-th call on: a call that succeeds or is interrupted is the last one. -/
def tried (q : ℕ → Query) : ℕ → List Try → List Try
  | _, [] => []
  | k, t :: ts => t :: if q k = .failed then tried q (k + 1) ts else []

/-! ## The calls -/

section calls

variable {q : ℕ → Query} {ts us : List Try} {st : Search} {k : ℕ}

/-- The calls from the `k`-th one on, as many as there are names, all fail. -/
def AllFail (q : ℕ → Query) (k : ℕ) (ts : List Try) : Prop := ∀ j < ts.length, q (k + j) = .failed

/-- The first call fails, and so do the others. -/
theorem allFail_cons {t : Try} : AllFail q k (t :: ts) ↔ q k = .failed ∧ AllFail q (k + 1) ts := by
  unfold AllFail
  rw [List.length_cons]
  constructor
  · intro h
    refine ⟨h 0 (by omega), fun j hj => ?_⟩
    rw [Nat.add_assoc, Nat.add_comm 1 j]
    exact h (j + 1) (by omega)
  · rintro ⟨h0, h⟩ j hj
    cases j with
    | zero => exact h0
    | succ j =>
      rw [← Nat.add_assoc, Nat.add_right_comm]
      exact h j (by omega)

/-- The calls for some names fail, and so do those for the names after them. -/
theorem allFail_append : AllFail q k (ts ++ us) ↔ AllFail q k ts ∧ AllFail q (k + ts.length) us := by
  unfold AllFail
  rw [List.length_append]
  constructor
  · intro h
    refine ⟨fun j hj => h j (by omega), fun j hj => ?_⟩
    rw [Nat.add_assoc]
    exact h _ (by omega)
  · rintro ⟨hts, hus⟩ j hj
    rcases lt_or_ge j ts.length with hlt | hge
    · exact hts j hlt
    · have hj' := hus (j - ts.length) (by omega)
      rwa [Nat.add_assoc, Nat.add_sub_cancel' hge] at hj'

/-- If all of the first names fail, the others are tried. -/
theorem tried_append_of_allFail (ts : List Try) : ∀ k, AllFail q k ts →
    tried q k (ts ++ us) = ts ++ tried q (k + ts.length) us := by
  induction ts with
  | nil => exact fun k _ => rfl
  | cons t ts ih =>
    intro k h
    obtain ⟨h0, hrest⟩ := allFail_cons.mp h
    rw [List.cons_append, tried, if_pos h0, ih (k + 1) hrest, List.length_cons, Nat.add_assoc,
      Nat.add_comm 1]
    rfl

/-- All names are tried if all calls fail. -/
theorem tried_of_allFail (h : AllFail q k ts) : tried q k ts = ts := by
  have happ : tried q k (ts ++ []) = ts ++ tried q _ [] := tried_append_of_allFail ts _ h
  rwa [List.append_nil, tried, List.append_nil] at happ

/-- If one of the first names does not fail, the others are not tried. -/
theorem tried_append_of_not_allFail (ts : List Try) : ∀ k, ¬AllFail q k ts →
    tried q k (ts ++ us) = tried q k ts := by
  induction ts with
  | nil => exact fun k h => absurd (fun j hj => absurd hj (Nat.not_lt_zero j)) h
  | cons t ts ih =>
    intro k h
    rw [List.cons_append, tried, tried]
    split_ifs with h0
    · rw [ih (k + 1) fun hrest => h (allFail_cons.mpr ⟨h0, hrest⟩)]
    · rfl

/-- A part of the function tries the names `ts`, one after the other. -/
structure Tries (q : ℕ → Query) (ts : List Try) (st : Search) (out : Option ℤ × Search) : Prop where
  calls : out.2.calls.map Prod.fst = st.calls.map Prod.fst ++ tried q st.calls.length ts
  goes_on : out.1 = none ↔ AllFail q st.calls.length ts

/-- No name is tried. -/
theorem Tries.nil (st : Search) : Tries q [] st (none, st) where
  calls := (List.append_nil _).symm
  goes_on := iff_of_true rfl fun j hj => absurd hj (Nat.not_lt_zero j)

/-- One name is tried. -/
theorem Tries.query (t : Try) (st : Search) : Tries q [t] st (st.query q t) := by
  have hall : AllFail q st.calls.length [t] ↔ q st.calls.length = .failed := by
    rw [allFail_cons]
    exact and_iff_left fun j hj => absurd hj (Nat.not_lt_zero j)
  have htried : tried q st.calls.length [t] = [t] := by simp [tried]
  have hcalls : (st.query q t).2.calls = st.calls ++ [(t, st.name)] := by
    unfold Search.query
    cases q st.calls.length <;> rfl
  refine ⟨?_, ?_⟩
  · rw [htried, hcalls, List.map_append]
    rfl
  · rw [hall]
    unfold Search.query
    cases q st.calls.length <;> simp

/-- Some names are tried, and then others if the function has not returned. -/
theorem Tries.andThen {x : Option ℤ × Search} {f : Search → Option ℤ × Search} (h : Tries q ts st x)
    (hf : Tries q us x.2 (f x.2)) : Tries q (ts ++ us) st (andThen x f) := by
  obtain ⟨rv, st'⟩ := x
  cases rv with
  | some rv =>
    -- The function has returned, and `f` is not run.
    have hstop : ¬AllFail q st.calls.length ts := fun hall => by cases h.goes_on.mpr hall
    refine ⟨?_, ?_⟩
    · rw [tried_append_of_not_allFail ts _ hstop]
      exact h.calls
    · exact iff_of_false (fun hrv => by cases hrv) fun hall => hstop (allFail_append.mp hall).1
  | none =>
    have hall : AllFail q st.calls.length ts := h.goes_on.mp rfl
    have hcalls := h.calls
    rw [tried_of_allFail hall] at hcalls
    have hlen : st'.calls.length = st.calls.length + ts.length := by
      simpa using congrArg List.length hcalls
    have hcalls' := hf.calls
    have hgoes := hf.goes_on
    dsimp only at hcalls' hgoes hcalls
    rw [hlen] at hcalls' hgoes
    refine ⟨?_, ?_⟩
    · rw [tried_append_of_allFail ts _ hall, ← List.append_assoc, ← hcalls]
      exact hcalls'
    · rw [allFail_append, and_iff_right hall]
      exact hgoes

/-- The names depend on a condition. -/
theorem Tries.ite {c : Prop} [Decidable c] {x y : Option ℤ × Search} (hx : Tries q ts st x)
    (hy : Tries q us st y) : Tries q (if c then ts else us) st (if c then x else y) := by
  split_ifs
  · exact hx
  · exact hy

/-- From the start on, the calls are those for the names that are tried. -/
theorem Tries.calls_of_nil {out : Option ℤ × Search} (hst : st.calls = []) (h : Tries q ts st out) :
    out.2.calls.map Prod.fst = tried q 0 ts := by
  rw [h.calls, hst]
  rfl

/-- The search loop tries the domains, and only the first one without `RES_DNSRCH`. -/
theorem Tries.searchDomains (dnsrch : Bool) (domains : List Name) : ∀ st, Tries q
    ((if dnsrch then domains else domains.take 1).map .search) st
    (searchDomains dnsrch q domains st) := by
  induction domains with
  | nil =>
    intro st
    rw [List.take_nil, ite_self]
    exact Tries.nil st
  | cons d domains ih =>
    intro st
    have hquery : Tries q [.search d] st ((st.strncpy d).query q (.search d)) :=
      ⟨(Tries.query (.search d) (st.strncpy d)).calls, (Tries.query (.search d) (st.strncpy d)).goes_on⟩
    cases dnsrch with
    | false => exact hquery.andThen (Tries.nil _)
    | true => exact hquery.andThen (ih _)

end calls

/-! ## The copy of the host name -/

section copy

variable {host : Name} {name₀ : ℕ → UInt8}

/-- What the loop leaves when it has copied the octets `s`. -/
structure Copied (s : Name) (st st' : Search) : Prop where
  n : st'.n = st.n + s.length
  dots : st'.dots = st.dots + s.count dot
  name : ∀ j, st'.name j = if st.n ≤ j ∧ j < st.n + s.length then s.getD (j - st.n) 0 else st.name j
  stores : ∀ w ∈ st'.stores, w ∈ st.stores ∨ ∃ i < st.n + s.length, w = .octet i
  calls : st'.calls = st.calls

/-- Nothing is copied. -/
theorem Copied.nil (st : Search) : Copied [] st st := by
  refine ⟨rfl, rfl, fun j => ?_, fun w hw => Or.inl hw, rfl⟩
  rw [if_neg (by rw [List.length_nil]; omega)]

/-- One octet is copied, and then others. -/
theorem Copied.cons {c : UInt8} {s : Name} {st st' : Search}
    (h : Copied s ({ st with dots := st.dots + if c = dot then 1 else 0 }.put c) st') :
    Copied (c :: s) st st' := by
  obtain ⟨hn, hdots, hname, hstores, hcalls⟩ := h
  dsimp only [Search.put] at hn hdots hstores
  replace hname : ∀ j, st'.name j = if st.n + 1 ≤ j ∧ j < st.n + 1 + s.length then
      s.getD (j - (st.n + 1)) 0 else Function.update st.name st.n c j := hname
  refine ⟨?_, ?_, fun j => ?_, fun w hw => ?_, hcalls⟩
  · rw [hn, List.length_cons]
    omega
  · rw [hdots, List.count_cons]
    have hbeq : (c == dot) = decide (c = dot) := rfl
    simp only [hbeq, decide_eq_true_eq]
    omega
  · -- Before the new octet, at it, and behind it.
    rw [hname, List.length_cons]
    rcases lt_trichotomy j st.n with hj | rfl | hj
    · rw [if_neg (by omega), if_neg (by omega), Function.update_of_ne (by omega)]
    · rw [if_neg (by omega), if_pos (by omega), Function.update_self, Nat.sub_self]
      rfl
    · obtain ⟨i, rfl⟩ : ∃ i, j = st.n + 1 + i := ⟨j - (st.n + 1), by omega⟩
      rw [show st.n + 1 + i - (st.n + 1) = i by omega, show st.n + 1 + i - st.n = i + 1 by omega,
        List.getD_cons_succ, Function.update_of_ne (by omega)]
      exact if_congr (by omega) rfl rfl
  · rw [List.length_cons]
    rcases hstores w hw with hold | ⟨i, hi, rfl⟩
    · rcases List.mem_append.mp hold with hold | hnew
      · exact Or.inl hold
      · rw [List.mem_singleton] at hnew
        exact Or.inr ⟨st.n, by omega, hnew⟩
    · exact Or.inr ⟨i, by omega, rfl⟩

/-- The loop copies the host name, or as much of it as there is place for. -/
theorem copyHost_copied (host : Name) : ∀ st : Search, st.n ≤ maxlen →
    Copied (host.take (maxlen - st.n)) st (copyHost host st) := by
  induction host with
  | nil =>
    intro st _
    rw [List.take_nil]
    exact Copied.nil st
  | cons c cp ih =>
    intro st hst
    rw [copyHost]
    by_cases hlt : st.n < maxlen
    · obtain ⟨m, hm⟩ : ∃ m, maxlen - st.n = m + 1 := ⟨maxlen - st.n - 1, by omega⟩
      have hrest := ih ({ st with dots := st.dots + if c = dot then 1 else 0 }.put c)
        (Nat.succ_le_of_lt hlt)
      have hm' : maxlen - ({ st with dots := st.dots + if c = dot then 1 else 0 }.put c).n = m := by
        change maxlen - (st.n + 1) = m
        omega
      rw [hm'] at hrest
      rw [if_pos hlt, hm, List.take_succ_cons]
      exact hrest.cons
    · rw [if_neg hlt, Nat.sub_eq_zero_of_le (not_lt.mp hlt), List.take_zero]
      exact Copied.nil st

/-- The variables after the loop. -/
theorem copyHost_spec (host : Name) (name₀ : ℕ → UInt8) :
    Copied (host.take maxlen) ⟨name₀, 0, 0, [], []⟩ (copyHost host ⟨name₀, 0, 0, [], []⟩) :=
  copyHost_copied host ⟨name₀, 0, 0, [], []⟩ (Nat.zero_le _)

/-- The test for a trailing dot looks at the last octet that has been copied. -/
theorem Copied.trailing_dot {s : Name} {st : Search} (h : Copied s ⟨name₀, 0, 0, [], []⟩ st)
    (hs : s ≠ []) : st.name (st.n - 1) = dot ↔ s.getLast? = some dot := by
  have hlen : 0 < s.length := List.length_pos_of_ne_nil hs
  have hn : st.n = s.length := h.n.trans (Nat.zero_add _)
  rw [h.name, hn]
  dsimp only
  rw [if_pos (by omega), Nat.sub_zero, List.getLast?_eq_getElem?, List.getD_eq_getElem?_getD,
    List.getElem?_eq_getElem (by omega)]
  simp

end copy

/-! ## The names that are built -/

section built

variable {cfg : Config} {q : ℕ → Query} {host d : Name} {name name₀ : ℕ → UInt8} {st : Search}

/-- The offset of the domains, behind the dot. -/
def domainAt (host : Name) : ℕ := (host.take maxlen).length + 1

/-- What is in the array when `query_domain` is called for a domain: the name as far as `maxlen`, and
there what has been in the array before. -/
structure Holds (host : Name) (name₀ : ℕ → UInt8) (d : Name) (name : ℕ → UInt8) : Prop where
  front : ∀ i < maxlen, name i = (host ++ dot :: d).getD i 0
  last : name maxlen = name₀ maxlen

/-- What has been written, and what the names were. -/
structure Built (host : Name) (name₀ : ℕ → UInt8) (st : Search) : Prop where
  stores : ∀ w ∈ st.stores, (∃ i ≤ maxlen, w = .octet i) ∨
    w = .strncpy (domainAt host) (maxlen - domainAt host) ∧ ∃ d name, (.search d, name) ∈ st.calls
  copied : ∀ d name, (.search d, name) ∈ st.calls →
    .strncpy (domainAt host) (maxlen - domainAt host) ∈ st.stores ∧
      (host.length < maxlen → Holds host name₀ d name)

/-- The invariant of the search loop. -/
structure Looping (host : Name) (name₀ : ℕ → UInt8) (st : Search) : Prop extends
    Built host name₀ st where
  n : st.n = domainAt host
  front : host.length < maxlen → ∀ i < domainAt host, st.name i = (host ++ [dot]).getD i 0
  last : host.length < maxlen → st.name maxlen = name₀ maxlen

/-- The domains come behind the whole host name if there is place for it. -/
theorem domainAt_eq (h : host.length < maxlen) : domainAt host = host.length + 1 := by
  rw [domainAt, List.take_of_length_le h.le]

/-- A call of `query_domain` is recorded, and changes nothing else. -/
theorem query_snd (t : Try) (st : Search) :
    (st.query q t).2 = { st with calls := st.calls ++ [(t, st.name)] } := by
  unfold Search.query
  cases q st.calls.length <;> rfl

/-- What goes on after a part of the function keeps the names in order. -/
theorem Built.andThen {x : Option ℤ × Search} {f : Search → Option ℤ × Search}
    (hx : Built host name₀ x.2) (hf : Built host name₀ (f x.2).2) :
    Built host name₀ (andThen x f).2 := by
  unfold Dns.andThen
  split
  · exact hx
  · exact hf

/-- The host name as it is, is not built in the array. -/
theorem Built.query_asIs (h : Built host name₀ st) : Built host name₀ (st.query q .asIs).2 := by
  rw [query_snd]
  refine ⟨fun w hw => ?_, fun d name hmem => ?_⟩
  · rcases h.stores w hw with hoctet | ⟨hw, d, name, hmem⟩
    · exact Or.inl hoctet
    · exact Or.inr ⟨hw, d, name, List.mem_append_left _ hmem⟩
  · rcases List.mem_append.mp hmem with hold | hnew
    · exact h.copied d name hold
    · simp at hnew

/-- The copy of a domain completes the name, as far as `maxlen`. -/
theorem Looping.holds (h : Looping host name₀ st) (hlen : host.length < maxlen) (d : Name) :
    Holds host name₀ d (st.strncpy d).name := by
  have hm := domainAt_eq hlen
  have hn : st.n = host.length + 1 := h.n.trans hm
  have hsize : st.n + sizeT (maxlen - st.n) = maxlen := by
    unfold sizeT
    have hmax : maxlen = 1024 := rfl
    omega
  refine ⟨fun i hi => ?_, ?_⟩
  · dsimp only [Search.strncpy]
    rw [hsize]
    split_ifs with hin
    · obtain ⟨j, rfl⟩ : ∃ j, i = host.length + (j + 1) := ⟨i - host.length - 1, by omega⟩
      rw [List.getD_append_right _ _ _ _ (by omega), Nat.add_sub_cancel_left, List.getD_cons_succ,
        show host.length + (j + 1) - st.n = j by omega]
    · rw [h.front hlen i (by omega), List.append_cons host dot d]
      exact (List.getD_append _ _ _ _ (by rw [List.length_append, List.length_singleton]; omega)).symm
  · dsimp only [Search.strncpy]
    rw [hsize, if_neg (by omega)]
    exact h.last hlen

/-- One round of the search loop. -/
theorem Looping.query_search (h : Looping host name₀ st) (d : Name) :
    Looping host name₀ ((st.strncpy d).query q (.search d)).2 := by
  rw [query_snd]
  have hstore : Store.strncpy st.n (maxlen - st.n) =
      .strncpy (domainAt host) (maxlen - domainAt host) := by rw [h.n]
  refine ⟨⟨fun w hw => ?_, fun d' name hmem => ?_⟩, h.n, fun hlen i hi => ?_, fun hlen => ?_⟩
  · rcases List.mem_append.mp hw with hold | hnew
    · rcases h.stores w hold with hoctet | ⟨hw, d', name, hmem⟩
      · exact Or.inl hoctet
      · exact Or.inr ⟨hw, d', name, List.mem_append_left _ hmem⟩
    · rw [List.mem_singleton] at hnew
      exact Or.inr ⟨hnew.trans hstore, d, _, List.mem_append_right _ List.mem_cons_self⟩
  · refine ⟨List.mem_append_right _ (List.mem_singleton.mpr hstore.symm), fun hlen => ?_⟩
    rcases List.mem_append.mp hmem with hold | hnew
    · exact (h.copied d' name hold).2 hlen
    · rw [List.mem_singleton, Prod.mk.injEq, Try.search.injEq] at hnew
      obtain ⟨rfl, rfl⟩ := hnew
      exact h.holds hlen d'
  · -- `strncpy` does not write to the host name.
    have hin : ¬st.n ≤ i := by rw [h.n]; omega
    dsimp only [Search.strncpy]
    rw [if_neg fun h => hin h.1]
    exact h.front hlen i hi
  · exact (h.holds hlen d).last

/-- The search loop keeps its invariant. -/
theorem Looping.searchDomains (dnsrch : Bool) (domains : List Name) : ∀ st, Looping host name₀ st →
    Looping host name₀ (searchDomains dnsrch q domains st).2 := by
  induction domains with
  | nil => exact fun st h => h
  | cons d domains ih =>
    intro st h
    have hround := h.query_search (q := q) d
    rw [Dns.searchDomains, Dns.andThen]
    split
    · exact hround
    · split_ifs
      · exact ih _ hround
      · exact hround

/-- The dot behind the host name begins the search. -/
theorem Copied.looping {st₀ : Search} (h : Copied (host.take maxlen) ⟨name₀, 0, 0, [], []⟩ st₀)
    (hname : st.name = st₀.name) (hn : st.n = st₀.n) (hb : Built host name₀ st) :
    Looping host name₀ (st.put dot) := by
  have hlen : st.n = (host.take maxlen).length := hn.trans (h.n.trans (Nat.zero_add _))
  have hle : (host.take maxlen).length ≤ maxlen := List.length_take_le _ _
  refine ⟨⟨fun w hw => ?_, fun d name hmem => ?_⟩, congrArg (· + 1) hlen, fun hlt i hi => ?_,
    fun hlt => ?_⟩
  · rcases List.mem_append.mp hw with hold | hnew
    · exact hb.stores w hold
    · exact Or.inl ⟨st.n, hlen ▸ hle, List.mem_singleton.mp hnew⟩
  · obtain ⟨hstore, hholds⟩ := hb.copied d name hmem
    exact ⟨List.mem_append_left _ hstore, hholds⟩
  · have htake : host.take maxlen = host := List.take_of_length_le hlt.le
    rw [domainAt_eq hlt] at hi
    rw [htake] at hlen
    change Function.update st.name st.n dot i = _
    rcases Nat.lt_or_eq_of_le (Nat.le_of_lt_succ hi) with hbefore | rfl
    · rw [Function.update_of_ne (by omega), hname, h.name, htake, if_pos ⟨Nat.zero_le _, by simpa⟩,
        List.getD_append _ _ _ _ hbefore]
      rfl
    · rw [← hlen, Function.update_self, hlen, List.getD_append_right _ _ _ _ le_rfl, Nat.sub_self]
      rfl
  · have htake : host.take maxlen = host := List.take_of_length_le hlt.le
    rw [htake] at hlen
    change Function.update st.name st.n dot maxlen = _
    rw [Function.update_of_ne (by omega), hname, h.name, htake, if_neg fun h => ?_]
    have hlt' : maxlen < 0 + host.length := h.2
    omega

/-- The names are in order once the host name is copied. -/
theorem Copied.built (h : Copied (host.take maxlen) ⟨name₀, 0, 0, [], []⟩ st) :
    Built host name₀ st := by
  have hle : (host.take maxlen).length ≤ maxlen := List.length_take_le _ _
  refine ⟨fun w hw => ?_, fun d name hmem => ?_⟩
  · rcases h.stores w hw with hold | ⟨i, hi, rfl⟩
    · cases hold
    · dsimp only at hi
      exact Or.inl ⟨i, by omega, rfl⟩
  · rw [h.calls] at hmem
    cases hmem

/-- The invariant at the end of the function. -/
theorem stxDnsGetaddrlist_built (cfg : Config) (q : ℕ → Query) (host : Name) (name₀ : ℕ → UInt8) :
    Built host name₀ (stxDnsGetaddrlist cfg q host name₀).2 := by
  have hcopied := copyHost_spec host name₀
  unfold stxDnsGetaddrlist
  dsimp only
  generalize copyHost host ⟨name₀, 0, 0, [], []⟩ = st at hcopied
  -- The first call leaves the array as it is.
  obtain ⟨out, hout⟩ : ∃ out, out = if cfg.ndots ≤ st.dots then st.query q .asIs else (none, st) :=
    ⟨_, rfl⟩
  rw [← hout]
  have hfirst : Built host name₀ out.2 ∧ out.2.name = st.name ∧ out.2.n = st.n := by
    rw [hout]
    split_ifs
    · refine ⟨hcopied.built.query_asIs, ?_, ?_⟩
      · rw [query_snd]
      · rw [query_snd]
    · exact ⟨hcopied.built, rfl, rfl⟩
  obtain ⟨hbuilt, hname, hn⟩ := hfirst
  have hlast (st' : Search) (h : Built host name₀ st') :
      Built host name₀ (if cfg.ndots ≤ st.dots then (none, st') else st'.query q .asIs).2 := by
    split_ifs
    · exact h
    · exact h.query_asIs
  refine Built.andThen ?search (hlast _ ?search)
  refine hbuilt.andThen ?_
  split_ifs
  · exact ((hcopied.looping hname hn hbuilt).searchDomains _ _ _).toBuilt
  · exact hbuilt

/-- A name is right exactly if it ends before `maxlen`, or there is a zero at `maxlen`. -/
theorem Holds.ok_iff (h : Holds host name₀ d name) (hhost : 0 ∉ host) (hd : 0 ∉ d) :
    ((∃ i < MAXDNAME, name i = 0) ∧
        (host.length + 1 + d.length < MAXDNAME → IsString name (host ++ dot :: d))) ↔
      host.length + 1 + d.length < maxlen ∨ name₀ maxlen = 0 := by
  have hsize : MAXDNAME = maxlen + 1 := rfl
  have hlen : (host ++ dot :: d).length = host.length + 1 + d.length := by
    rw [List.length_append, List.length_cons]
    omega
  have hnz : 0 ∉ host ++ dot :: d := by
    rw [List.mem_append, List.mem_cons]
    rintro (h | h | h)
    · exact hhost h
    · cases h
    · exact hd h
  have hend : (host ++ dot :: d).getD (host ++ dot :: d).length 0 = 0 := List.getD_eq_default _ _ le_rfl
  constructor
  · rintro ⟨⟨i, hi, hzero⟩, -⟩
    by_contra hc
    rw [not_or, not_lt] at hc
    -- No octet of the name is zero, so the one that was found is the last of the array.
    rcases Nat.lt_or_eq_of_le (show i ≤ maxlen by omega) with hlt | rfl
    · have hin : i < (host ++ dot :: d).length := by omega
      rw [h.front i hlt, List.getD_eq_getElem _ _ hin] at hzero
      exact hnz (hzero ▸ List.getElem_mem hin)
    · exact hc.2 (h.last.symm.trans hzero)
  · rintro (hshort | hzero)
    · refine ⟨⟨(host ++ dot :: d).length, by omega, ?_⟩, fun _ i hi => h.front i (by omega)⟩
      rw [h.front _ (by omega), hend]
    · refine ⟨⟨maxlen, by omega, h.last.trans hzero⟩, fun hfits i hi => ?_⟩
      rcases Nat.lt_or_eq_of_le (show i ≤ maxlen by omega) with hlt | rfl
      · exact h.front i hlt
      · have hi' : (host ++ dot :: d).length = maxlen := by omega
        rw [h.last, hzero, ← hi', hend]

/-- When what a search has done is right. -/
theorem Built.ok_iff (h : Built host name₀ st) (hhost : 0 ∉ host)
    (hd : ∀ d name, (.search d, name) ∈ st.calls → 0 ∉ d) :
    st.Ok host ↔ ∀ d name, (.search d, name) ∈ st.calls →
      host.length < maxlen ∧ (host.length + 1 + d.length < maxlen ∨ name₀ maxlen = 0) := by
  have hsize : MAXDNAME = maxlen + 1 := rfl
  have hmax : maxlen = 1024 := rfl
  have hat : domainAt host = min maxlen host.length + 1 := by rw [domainAt, List.length_take]
  constructor
  · intro hok d name hmem
    obtain ⟨hstore, hholds⟩ := h.copied d name hmem
    -- With a longer host name there is no room for `strncpy`, and its length wraps around.
    have hlength := hok.lengths _ _ hstore
    have hlt : host.length < maxlen := by omega
    exact ⟨hlt, ((hholds hlt).ok_iff hhost (hd d name hmem)).mp
      ⟨hok.terminated d name hmem, hok.built d name hmem⟩⟩
  · intro hcond
    have hnames (d : Name) (name : ℕ → UInt8) (hmem : (Try.search d, name) ∈ st.calls) :=
      (((h.copied d name hmem).2 (hcond d name hmem).1).ok_iff hhost (hd d name hmem)).mpr
        (hcond d name hmem).2
    refine ⟨fun w hw i hi => ?_, fun i len hw => ?_, fun d name hmem => (hnames d name hmem).1,
      fun d name hmem => (hnames d name hmem).2⟩
    · rcases h.stores w hw with ⟨j, hj, rfl⟩ | ⟨rfl, d, name, hmem⟩
      · have hij : i = j := hi
        omega
      · have hlt := (hcond d name hmem).1
        have hin : i < domainAt host + sizeT (maxlen - domainAt host) := hi.2
        unfold sizeT at hin
        omega
    · rcases h.stores _ hw with ⟨j, hj, hoctet⟩ | ⟨hcopy, d, name, hmem⟩
      · cases hoctet
      · have hlt := (hcond d name hmem).1
        rw [Store.strncpy.injEq] at hcopy
        omega

end built

/-! ## The names that are tried -/

section spec

variable {q : ℕ → Query} {host : Name}

/-- Which names the function tries. -/
theorem stxDnsGetaddrlist_calls (cfg : Config) (q : ℕ → Query) (name₀ : ℕ → UInt8)
    (hhost : host ≠ []) :
    (stxDnsGetaddrlist cfg q host name₀).2.calls.map Prod.fst = tried q 0 (cfg.tries host) := by
  have hcopied := copyHost_spec host name₀
  have htake : host.take maxlen ≠ [] := by
    rw [Ne, List.take_eq_nil_iff]
    exact not_or.mpr ⟨by decide, hhost⟩
  have htrail := hcopied.trailing_dot htake
  have hdots : (copyHost host ⟨name₀, 0, 0, [], []⟩).dots = (host.take maxlen).count dot :=
    hcopied.dots.trans (Nat.zero_add _)
  have hcalls := hcopied.calls
  unfold stxDnsGetaddrlist Config.tries
  dsimp only
  rw [show MAXDNAME - 1 = maxlen from rfl]
  generalize copyHost host ⟨name₀, 0, 0, [], []⟩ = st at htrail hdots hcalls
  rw [hdots]
  simp only [htrail]
  refine Tries.calls_of_nil hcalls (Tries.andThen (Tries.andThen ?_ ?_) ?_)
  · exact Tries.ite (Tries.query _ _) (Tries.nil _)
  · have hsearch := Tries.searchDomains (q := q) cfg.dnsrch cfg.domains
    exact Tries.ite ⟨(hsearch _).calls, (hsearch _).goes_on⟩ (Tries.nil _)
  · exact Tries.ite (Tries.nil _) (Tries.query _ _)

/-- Only these names are tried. -/
theorem mem_of_mem_tried {t : Try} (ts : List Try) : ∀ k, t ∈ tried q k ts → t ∈ ts := by
  induction ts with
  | nil => exact fun _ h => h
  | cons t' ts ih =>
    intro k h
    rw [tried, List.mem_cons] at h
    rcases h with rfl | h
    · exact List.mem_cons_self
    · split_ifs at h
      · exact List.mem_cons_of_mem _ (ih _ h)
      · cases h

/-- The domains that are searched are those of the configuration. -/
theorem mem_domains_of_mem_tries {cfg : Config} {d : Name} (h : .search d ∈ cfg.tries host) :
    d ∈ cfg.domains := by
  unfold Config.tries at h
  simp only [List.mem_append] at h
  rcases h with (h | h) | h
  · split_ifs at h <;> simp at h
  · split_ifs at h
    · simpa using h
    · rw [List.mem_map] at h
      obtain ⟨d', hd', heq⟩ := h
      cases heq
      exact List.mem_of_mem_take hd'
    · cases h
  · split_ifs at h <;> simp at h

end spec

/-- When the names of the search loop are built within the array. For every host name that is not empty,
every list of search domains, whatever the options of the resolver and the outcomes of the queries are,
and whatever has been in the array before: the writes have an index in the array, no length is negative,
and each name is terminated and is the host name, a dot, and the domain, if that fits, exactly if for
each domain that is searched for the host name is shorter than `maxlen`, and the whole name is shorter
than `maxlen` or there has been a zero at `maxlen` before. -/
theorem stxDnsGetaddrlist_names_iff (cfg : Config) (q : ℕ → Query) (host : Name) (name : ℕ → UInt8)
    (hne : host ≠ []) (hhost : 0 ∉ host) (hdomains : ∀ d ∈ cfg.domains, 0 ∉ d) :
    (stxDnsGetaddrlist cfg q host name).2.Ok host ↔ ∀ d, .search d ∈ tried q 0 (cfg.tries host) →
      host.length < maxlen ∧ (host.length + 1 + d.length < maxlen ∨ name maxlen = 0) := by
  have hmem (d : Name) : .search d ∈ tried q 0 (cfg.tries host) ↔
      ∃ contents, (.search d, contents) ∈ (stxDnsGetaddrlist cfg q host name).2.calls := by
    rw [← stxDnsGetaddrlist_calls cfg q name hne, List.mem_map]
    constructor
    · rintro ⟨⟨t, contents⟩, hcall, rfl⟩
      exact ⟨contents, hcall⟩
    · rintro ⟨contents, hcall⟩
      exact ⟨_, hcall, rfl⟩
  rw [(stxDnsGetaddrlist_built cfg q host name).ok_iff hhost fun d contents hcall =>
    hdomains d (mem_domains_of_mem_tries (mem_of_mem_tried _ _ ((hmem d).mpr ⟨contents, hcall⟩)))]
  constructor
  · intro h d hd
    obtain ⟨contents, hcall⟩ := (hmem d).mp hd
    exact h d contents hcall
  · exact fun h d contents hcall => h d ((hmem d).mpr ⟨contents, hcall⟩)

/-- One search domain, `b`. -/
def oneDomain : Config where
  resolver := shortNames
  usevc := false
  defnames := true
  dnsrch := true
  ndots := 1
  nscount := 1
  domains := [[98]]
  cache := none

/-- For `a` with the search domain `b`, the names `a.b` and `a` are built. -/
theorem stxDnsGetaddrlist_names_iff_short :
    tried (fun _ => .failed) 0 (oneDomain.tries [97]) = [.search [98], .asIs] ∧
      (stxDnsGetaddrlist oneDomain (fun _ => .failed) [97] fun _ => 255).2.Ok [97] := by
  have htried : tried (fun _ => .failed) 0 (oneDomain.tries [97]) = [.search [98], .asIs] := by decide
  refine ⟨htried, (stxDnsGetaddrlist_names_iff oneDomain (fun _ => .failed) [97] (fun _ => 255)
    (by decide) (by decide) (by decide)).mpr fun d hd => ?_⟩
  rw [htried] at hd
  simp only [List.mem_cons, Try.search.injEq, reduceCtorEq, List.not_mem_nil, or_false] at hd
  subst hd
  decide

/-- With a host name of `maxlen` octets, `strncpy` is called with the length `-1`, and writes behind the
array. -/
theorem stxDnsGetaddrlist_long :
    ∃ w ∈ (stxDnsGetaddrlist oneDomain (fun _ => .failed) (List.replicate maxlen 97)
        fun _ => 255).2.stores, w = .strncpy MAXDNAME (-1) ∧ w.Covers MAXDNAME ∧
      ¬(stxDnsGetaddrlist oneDomain (fun _ => .failed) (List.replicate maxlen 97)
        fun _ => 255).2.Ok (List.replicate maxlen 97) := by
  have htried : .search [98] ∈ tried (fun _ => .failed) 0
      (oneDomain.tries (List.replicate maxlen 97)) := by decide +kernel
  rw [← stxDnsGetaddrlist_calls _ _ (fun _ => 255) (by decide), List.mem_map] at htried
  obtain ⟨⟨t, name⟩, hcall, rfl⟩ := htried
  obtain ⟨hstore, -⟩ := (stxDnsGetaddrlist_built _ _ _ _).copied [98] name hcall
  have hat : domainAt (List.replicate maxlen 97) = MAXDNAME := by
    rw [domainAt, List.take_replicate, List.length_replicate, Nat.min_self]
    rfl
  rw [hat] at hstore
  refine ⟨_, hstore, rfl, ⟨le_rfl, by decide⟩, fun hok => ?_⟩
  exact absurd (hok.lengths _ _ hstore) (by decide)

end StWin.Dns
