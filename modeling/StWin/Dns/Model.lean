import StWin.Cache.Model
import StWin.Dns.Parse
import StWin.Io.Model

/-!
# Resolving host names

`src/extensions/dnsres.c` and `src/extensions/dnscache.c`. Any number of threads call
`_stx_dns_cache_getaddrlist`, directly or as `stx_dns_getaddr` or `stx_dns_getaddrlist`. They share the
array `addr_list`, the variable `_stx_dns_ttl`, the error variables, and the cache.

A thread takes small steps, from one place of the code to the next (`Pos`). It may be switched away
only inside of `st_sendto` and `st_recvfrom`, and between calls: at any other place it has the `turn`,
and only the thread that has the turn takes steps. What the environment answers (the clock, the memory
allocator, the sockets, and `res_mkquery`) are the labels of the steps. A step that is not possible, or
that follows a pointer outside of its object, is `none`.
-/

namespace StWin.Dns

open StWin.Io (EINTR EMSGSIZE)

/-- A host name or domain name, without the terminating `NUL`. -/
abbrev Name := List UInt8

/-! ## The cache of addresses -/

/-- `stx_dns_data_t`. -/
structure Data where
  /-- `NULL` if there was no memory. -/
  addrs : Option (List InAddr)
  num_addrs : ℕ
  cur : ℕ
  expires : Int64

/-- `hash_hostname`, where `unsigned long` has `bits` bits. A `char` is signed. -/
def hashHostname (bits : ℕ) (name : Name) : ℕ :=
  name.foldl (fun hash c => ((hash * 15 + Int.bmod c.toNat (2^8)) % (2^bits : ℤ)).toNat) 0

/-- `strcmp`. -/
def strcmp : Name → Name → ℤ
  | [], [] => 0
  | [], _ :: _ => -1
  | _ :: _, [] => 1
  | a :: as, b :: bs => if a = b then strcmp as bs else (a.toNat : ℤ) - b.toNat

/-- The limits of the cache (`stx_dns_cache_init`), and the sizes of the types on the platform. -/
structure Limits where
  size_bits : ℕ
  ulong_bits : ℕ
  max_size : ℕ
  max_bytes : ℕ
  hash_size : ℕ
  max_size_lt : max_size < 2^size_bits
  max_bytes_lt : max_bytes < 2^size_bits
  hash_size_pos : 0 < hash_size
  /-- `sizeof(stx_dns_data_t)`. -/
  data_size : ℕ
  /-- `stx_cache_entry_sizeof()`. -/
  entry_size : ℕ

/-- The cache that `stx_dns_cache_init` creates. A key is a pointer to a name. Entries with a `NULL` key
are never inserted. -/
def Limits.params (l : Limits) : CacheParams (Option Name) where
  size_bits := l.size_bits
  ulong_bits := l.ulong_bits
  max_size := l.max_size
  max_weight := l.max_bytes
  hash_size := l.hash_size
  key_hash_fn := fun key => key.elim 0 (hashHostname l.ulong_bits)
  key_cmp_fn
    | some a, some b => strcmp a b
    | _, _ => 1
  max_size_lt := l.max_size_lt
  max_weight_lt := l.max_bytes_lt
  hash_size_pos := l.hash_size_pos

/-- `_stx_dns_cache`. -/
abbrev DnsCache := Cache (Option Name) (Option Data)

/-- The addresses that a lookup copies to the caller's array, and the data after it. -/
def Data.serve (d : Data) (num_addrs : ℕ) (rotate : Bool) : Option (List InAddr × Data) := do
  let addrs ← d.addrs
  if num_addrs = 1 then
    if rotate then
      let addr ← addrs[d.cur]?
      let cur := d.cur + 1
      some ([addr], { d with cur := if d.num_addrs ≤ cur then 0 else cur })
    else
      let addr ← addrs[0]?
      some ([addr], d)
  else
    let n := min num_addrs d.num_addrs
    if n ≤ addrs.length then some (addrs.take n, d) else none

/-- `lookup_entry`, at the time `now`: the addresses, if there is an entry that has not expired. -/
def lookupEntry (l : Limits) (c : DnsCache) (host : Name) (num_addrs : ℕ) (rotate : Bool)
    (now : Int64) : Option (DnsCache × Option (List InAddr)) := do
  let (c, entry) ← c.entryLookup l.params (some host)
  match entry with
  | none => some (c, none)
  | some e =>
    let data ← (c.entry e).data
    if now ≤ data.expires then
      let (addrs, data) ← data.serve num_addrs rotate
      let c := c.setEntry e fun x => { x with data := some data }
      let c ← c.entryRelease l.params e
      some (c, some addrs)
    else
      -- Cache entry expired: decrement its refcount and purge it from cache.
      let c ← c.entryRelease l.params e
      let c ← (c.note (.gone e .deleted)).entryDelete l.params e
      some (c, none)

/-- Which of the allocations of `insert_entry` succeed. -/
structure Alloc where
  key : Bool
  data : Bool
  addrs : Bool
  entry : Bool
  deriving DecidableEq

/-- `insert_entry`, at the time `now`. -/
def insertEntry (l : Limits) (c : DnsCache) (host : Name) (addrs : List InAddr) (ttl : Int32)
    (now : Int64) (alloc : Alloc) : Option DnsCache :=
  if 0 < ttl then
    let n := addrs.length * 4
    let key := if alloc.key then some host else none
    let data : Option Data :=
      if alloc.data then
        some ⟨if alloc.addrs then some addrs else none, addrs.length, 0, now + ttl.toInt64⟩
      else none
    if alloc.entry then
      let e := c.created
      let c := c.entryCreate l.params key data (host.length + 1 + l.data_size + n + l.entry_size)
      if alloc.key ∧ alloc.data ∧ alloc.addrs then do
        let (c, rv) ← c.entryInsert l.params e
        if rv = 0 then c.entryRelease l.params e
        else (c.note (.gone e .deleted)).entryDelete l.params e
      else (c.note (.gone e .deleted)).entryDelete l.params e
    else some c
  else some c

/-! ## The names that are tried -/

/-- A name that `query_domain` is called with: the host name as it is, or followed by a domain. -/
inductive Try where
  | asIs
  | search (domain : Name)
  deriving DecidableEq

/-- `sizeof(name)`. -/
def MAXDNAME : ℕ := 1025

/-- `'.'`. -/
def dot : UInt8 := 46

/-- The resolver library and its state `_res`, and the limits of the cache, if there is one. -/
structure Config where
  resolver : Resolver
  /-- `_res.options & RES_USEVC`. -/
  usevc : Bool
  /-- `_res.options & RES_DEFNAMES`. -/
  defnames : Bool
  /-- `_res.options & RES_DNSRCH`. -/
  dnsrch : Bool
  ndots : ℕ
  nscount : ℕ
  /-- `_res.dnsrch`. -/
  domains : List Name
  cache : Option Limits

/-- The names that `_stx_dns_getaddrlist` tries, one after the other. -/
def Config.tries (cfg : Config) (host : Name) : List Try :=
  let name := host.take (MAXDNAME - 1)
  let dots := name.count dot
  let trailing_dot := name.getLast? = some dot
  let tried_as_is := cfg.ndots ≤ dots
  let searches := (dots = 0 ∧ cfg.defnames) ∨ (dots ≠ 0 ∧ ¬trailing_dot ∧ cfg.dnsrch)
  (if tried_as_is then [.asIs] else []) ++
    -- Without `RES_DNSRCH`, the loop over the domains ends after the first one.
    (if searches then (if cfg.dnsrch then cfg.domains else cfg.domains.take 1).map .search else []) ++
    (if tried_as_is then [] else [.asIs])

/-! ## A call -/

/-- A call of `_stx_dns_cache_getaddrlist`. -/
structure Call where
  hostname : Name
  /-- `*num_addrs`, the number of elements of the caller's array. -/
  num_addrs : ℕ
  rotate : Bool

/-- `stx_dns_getaddrlist`. -/
def getaddrlist (hostname : Name) (num_addrs : ℕ) : Call := ⟨hostname, num_addrs, false⟩

/-- `stx_dns_getaddr`. -/
def getaddr (hostname : Name) : Call := ⟨hostname, 1, true⟩

/-- `tolower`. -/
def tolower (c : UInt8) : UInt8 := if 65 ≤ c ∧ c ≤ 90 then c + 32 else c

/-- The name that a call looks up in the cache, in the buffer `host` of 128 octets. -/
def Call.host (c : Call) : Name := (c.hostname.take 127).map tolower

/-- The locals of a call that resolves. -/
structure Frame where
  call : Call
  /-- The argument of `_stx_dns_getaddrlist`. -/
  host : Name
  /-- The caller's array. -/
  addrs : ℕ → InAddr
  /-- The names that have not failed yet. The first one is being tried. -/
  names : List Try
  i : ℕ
  id : UInt8 × UInt8
  qbuf : Buf

/-- What a call has returned. -/
structure Ret where
  rv : ℤ
  /-- The first `*num_addrs` elements of the caller's array. -/
  addrs : List InAddr
  deriving DecidableEq

/-- Where a thread is. -/
inductive Pos where
  /-- Not in a call. -/
  | user (r : Option Ret)
  /-- About to look up the name. -/
  | lookup (c : Call) (addrs : ℕ → InAddr)
  /-- At the beginning of `_stx_dns_getaddrlist`. -/
  | opening (f : Frame)
  /-- About to try the next name. -/
  | name (f : Frame)
  /-- In `query_domain`, at the head of the loop over the name servers. -/
  | server (f : Frame)
  /-- In `st_sendto`. -/
  | sending (f : Frame) (len : ℕ)
  /-- In `st_recvfrom`. -/
  | receiving (f : Frame)
  /-- Behind the loop that waits for a reply. -/
  | received (f : Frame) (len : ℤ)
  /-- `query_domain` has returned `-1`. -/
  | failed (f : Frame)
  /-- `_stx_dns_getaddrlist` has returned `0`. -/
  | resolved (f : Frame) (count : ℕ)

/-- A thread may be switched away here. -/
def Pos.Switches : Pos → Bool
  | .user _ | .sending _ _ | .receiving _ => true
  | _ => false

/-- The values of `h_errno`. -/
inductive HErrno where
  | NETDB_SUCCESS | HOST_NOT_FOUND | TRY_AGAIN | NO_RECOVERY | NO_DATA | NETDB_INTERNAL
  deriving DecidableEq

/-- `h_errno` for the `rcode` of a reply without an answer. -/
def HErrno.ofRcode : ℕ → HErrno
  | 0 => .NO_DATA
  | 2 => .TRY_AGAIN
  | 3 => .HOST_NOT_FOUND
  | _ => .NO_RECOVERY

/-- What the threads share. -/
structure Shared where
  addr_list : ℕ → InAddr
  /-- `_stx_dns_ttl`. -/
  ttl : Int32
  h_errno : HErrno
  errno : ℤ
  cache : DnsCache

/-- The threads. -/
structure Sys where
  shared : Shared
  turn : Option ℕ
  thread : ℕ → Pos

/-- `MAX_HOST_ADDRS`. -/
def MAX_HOST_ADDRS : ℕ := 1024

/-- What happens before the names are tried. -/
inductive Opened where
  | resInitFails
  | socketFails (errno : ℤ)
  | ok
  deriving DecidableEq

/-- What a thread does, and what it is told. -/
inductive Act where
  /-- The program calls. -/
  | call (c : Call) (addrs : ℕ → InAddr)
  | lookup (now : Int64)
  | opened (o : Opened)
  /-- `res_mkquery` has written `query`, which is empty if it has failed. -/
  | mkquery (query : List UInt8)
  /-- `st_sendto` returns `n`, and `errno` then is as given. -/
  | sent (n errno : ℤ)
  /-- `st_recvfrom` returns a datagram. -/
  | datagram (data : List UInt8)
  /-- `st_recvfrom` returns `-1`. -/
  | noDatagram (errno : ℤ)
  /-- Copy the addresses, and insert an entry. -/
  | store (now : Int64) (alloc : Alloc)
  /-- Nothing is asked. -/
  | go

/-- Octets are written at the start of a buffer. -/
def Buf.write (buf : Buf) (data : List UInt8) : Buf := fun i => data.getD i (buf i)

/-- `ENOSYS`. -/
def ENOSYS : ℤ := 40

/-- The call returns `-1`. -/
def Pos.fails : Pos := .user (some ⟨-1, []⟩)

/-- `continue`, in the loop over the name servers. -/
def Frame.nextServer (f : Frame) : Pos := .server { f with i := f.i + 1 }

namespace Shared

/-- The part of `query_domain` behind the loop that waits for a reply. -/
def reply (cfg : Config) (s : Shared) (f : Frame) (len : ℤ) : Option (Shared × Pos) :=
  if len < HFIXEDSZ then
    let s := { s with h_errno := .NETDB_INTERNAL }
    if 0 ≤ len then some ({ s with errno := EMSGSIZE }, f.nextServer)
    else if s.errno = EINTR then some (s, .failed f)
    else some (s, f.nextServer)
  else
    let f := { f with qbuf := f.qbuf.toHost }
    if f.qbuf.rcode ≠ 0 ∨ f.qbuf.count ANCOUNT = 0 then
      some ({ s with h_errno := .ofRcode f.qbuf.rcode }, f.nextServer)
    else
      let s := { s with h_errno := .TRY_AGAIN }
      -- Without a cache, the addresses go to the caller's array at once.
      if cfg.cache.isSome then do
        let (rv, a) ← parseAnswer cfg.resolver len f.qbuf s.addr_list MAX_HOST_ADDRS
        let s := { s with addr_list := a.addrs, ttl := a.ttl }
        some (s, if rv = 0 then .resolved f a.i else f.nextServer)
      else do
        let (rv, a) ← parseAnswer cfg.resolver len f.qbuf f.addrs f.call.num_addrs
        let s := { s with ttl := a.ttl }
        let f := { f with addrs := a.addrs }
        some (s, if rv = 0 then .resolved f a.i else f.nextServer)

/-- The end of `_stx_dns_cache_getaddrlist`. -/
def finish (cfg : Config) (s : Shared) (f : Frame) (count : ℕ) (now : Int64) (alloc : Alloc) :
    Option (Shared × Pos) :=
  match cfg.cache with
  | none => some (s, .user (some ⟨0, (List.range count).map f.addrs⟩))
  | some l => do
    let n := min f.call.num_addrs count
    let addrs := (List.range n).map s.addr_list
    let cache ← insertEntry l s.cache f.host ((List.range count).map s.addr_list) s.ttl now alloc
    some ({ s with cache := cache }, .user (some ⟨0, addrs⟩))

/-- A step of a thread. -/
def act (cfg : Config) (s : Shared) : Pos → Act → Option (Shared × Pos)
  | .user _, .call c addrs =>
    if cfg.cache.isSome then some (s, .lookup c addrs)
    else some (s, .opening ⟨c, c.hostname, addrs, [], 0, (0, 0), fun _ => 0⟩)
  | .lookup c addrs, .lookup now => do
    let l ← cfg.cache
    let (cache, r) ← lookupEntry l s.cache c.host c.num_addrs c.rotate now
    let s := { s with cache := cache }
    match r with
    | some found => some (s, .user (some ⟨0, found⟩))
    | none => some (s, .opening ⟨c, c.host, addrs, [], 0, (0, 0), fun _ => 0⟩)
  | .opening f, .opened o =>
    if o = .resInitFails then some ({ s with h_errno := .NETDB_INTERNAL }, .fails)
    else if cfg.usevc then some ({ s with h_errno := .NETDB_INTERNAL, errno := ENOSYS }, .fails)
    else if f.host = [] then some ({ s with h_errno := .HOST_NOT_FOUND }, .fails)
    else
      match o with
      | .socketFails e => some ({ s with h_errno := .NETDB_INTERNAL, errno := e }, .fails)
      | _ => some (s, .name { f with names := cfg.tries f.host })
  | .name f, .go =>
    match f.names with
    | [] => some (s, .fails)
    | _ :: _ => some (s, .server { f with i := 0 })
  | .server f, .mkquery query =>
    if f.i < cfg.nscount then
      if query = [] then some ({ s with h_errno := .NO_RECOVERY }, .failed f)
      else if query.length ≤ MAXPACKET then
        let qbuf := f.qbuf.write query
        some (s, .sending { f with qbuf := qbuf, id := qbuf.id } query.length)
      else none
    else none
  | .server f, .go => if cfg.nscount ≤ f.i then some (s, .failed f) else none
  | .sending f len, .sent n errno =>
    let s := { s with errno := errno }
    if n ≠ len then
      let s := { s with h_errno := .NETDB_INTERNAL }
      if s.errno = EINTR then some (s, .failed f) else some (s, f.nextServer)
    else some (s, .receiving f)
  | .receiving f, .datagram data =>
    if data.length ≤ MAXPACKET then
      let f := { f with qbuf := f.qbuf.write data }
      if data.length = 0 ∨ f.id = f.qbuf.id then some (s, .received f data.length)
      else some (s, .receiving f)
    else none
  | .receiving f, .noDatagram errno => some ({ s with errno := errno }, .received f (-1))
  | .received f len, .go => s.reply cfg f len
  | .failed f, .go =>
    if s.h_errno = .NETDB_INTERNAL ∧ s.errno = EINTR then some (s, .fails)
    else some (s, .name { f with names := f.names.tail })
  | .resolved f count, .store now alloc => s.finish cfg f count now alloc
  | _, _ => none

end Shared

namespace Sys

/-- A step of the thread `t`. It keeps the turn, unless it may be switched away where it is then. -/
def step (cfg : Config) (s : Sys) : ℕ × Act → Option Sys
  | (t, act) =>
    if s.turn = none ∨ s.turn = some t then
      (s.shared.act cfg (s.thread t) act).map fun (shared, pos) =>
        ⟨shared, if pos.Switches then none else some t, Function.update s.thread t pos⟩
    else none

/-- No thread is in a call. The cache is a new one. -/
def init (addr_list : ℕ → InAddr) (x : CEntry (Option Name) (Option Data))
    (n : Ring.Links LruNode) : Sys :=
  ⟨⟨addr_list, 0, .NETDB_SUCCESS, 0, Cache.init x n⟩, none, fun _ => .user none⟩

end Sys

end StWin.Dns
