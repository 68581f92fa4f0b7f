import Mathlib.Data.Fintype.Basic
import Mathlib.Data.Int.Notation
import Mathlib.Data.List.Induction
import Mathlib.Data.Nat.Notation
import Mathlib.Logic.Function.Basic
import Mathlib.Tactic.Linarith

/-!
# Parsing a reply of a name server

`parse_answer` of `src/extensions/dnsres.c`. It walks over the answer section of a reply and stores the
address of each record of type A, and the record's TTL, the last one staying. `parseAnswer_spec` says
what it leaves behind in terms of the records of the reply (`answers`), which are a function of the
reply alone: on success the stored addresses are those of the records of type A, in order, on top of
what was stored before.

The functions `dn_skipname` and `dn_expand` of the resolver library are parameters. A read by the parser
itself at a place that is not in the reply is `none`, and there is none.
-/

namespace StWin.Dns

/-- `MAXPACKET`. -/
def MAXPACKET : ℕ := 1024

/-- `HFIXEDSZ`, which is also `sizeof(HEADER)`. -/
def HFIXEDSZ : ℕ := 12

/-- `QFIXEDSZ`. -/
def QFIXEDSZ : ℕ := 4

/-- `T_A`. -/
def T_A : ℕ := 1

/-- `struct in_addr`. -/
abbrev InAddr := Fin 4 → UInt8

/-- The octets of a `querybuf_t`. -/
abbrev Buf := ℕ → UInt8

/-- What the resolver library is asked for. The arguments `cp` and `eoa` are offsets into the buffer. -/
structure Resolver where
  /-- `dn_skipname(cp, eoa)`. -/
  dn_skipname : Buf → ℤ → ℤ → ℤ
  /-- `dn_expand(buf, eoa, cp, ..)`: the number of octets that the name takes at `cp`. -/
  dn_expand : Buf → ℤ → ℤ → ℤ
  /-- It returns `-1`, or the number of octets to skip. -/
  dn_skipname_ge : ∀ buf cp eoa, -1 ≤ dn_skipname buf cp eoa

/-! ## The octets of a buffer -/

section octets

variable (buf : Buf) (eoa cp : ℤ)

/-- A read at the offset `cp`. -/
def octet : Option UInt8 := if 0 ≤ cp ∧ cp < eoa then some (buf cp.toNat) else none

/-- `_getshort(cp)`. -/
def getshort : Option ℕ := do
  let hi ← octet buf eoa cp
  let lo ← octet buf eoa (cp + 1)
  some (hi.toNat * 256 + lo.toNat)

/-- `_getlong(cp)`. -/
def getlong : Option ℕ := do
  let hi ← getshort buf eoa cp
  let lo ← getshort buf eoa (cp + 2)
  some (hi * 65536 + lo)

/-- Two octets in network byte order. -/
def short (cp : ℕ) : ℕ := (buf cp).toNat * 256 + (buf (cp + 1)).toNat

/-- Four octets in network byte order. -/
def long (cp : ℕ) : ℕ := short buf cp * 65536 + short buf (cp + 2)

/-- The octets that a `memcpy` of `n` octets from `cp` reads. -/
def octets : ℕ → ℤ → Option (List UInt8)
  | 0, _ => some []
  | n + 1, cp => do
    let x ← octet buf eoa cp
    let xs ← octets n (cp + 1)
    some (x :: xs)

/-- The `n` octets from `cp` on. -/
def slice : ℕ → ℕ → List UInt8
  | 0, _ => []
  | n + 1, cp => buf cp :: slice n (cp + 1)

variable {buf eoa cp}

/-- A slice has the length asked for. -/
@[simp] theorem slice_length (n cp : ℕ) : (slice buf n cp).length = n := by
  induction n generalizing cp with
  | zero => rfl
  | succ n ih => rw [slice, List.length_cons, ih]

/-- An octet within the packet is read. -/
theorem octet_eq (h0 : 0 ≤ cp) (h : cp < eoa) : octet buf eoa cp = some (buf cp.toNat) :=
  if_pos ⟨h0, h⟩

/-- Two octets within the packet are read. -/
theorem getshort_eq (h0 : 0 ≤ cp) (h : cp + 1 < eoa) :
    getshort buf eoa cp = some (short buf cp.toNat) := by
  have hnext : (cp + 1).toNat = cp.toNat + 1 := by omega
  rw [getshort, octet_eq h0 (by linarith), octet_eq (by linarith) h, hnext]
  rfl

/-- Four octets within the packet are read. -/
theorem getlong_eq (h0 : 0 ≤ cp) (h : cp + 3 < eoa) :
    getlong buf eoa cp = some (long buf cp.toNat) := by
  have hnext : (cp + 2).toNat = cp.toNat + 2 := by omega
  rw [getlong, getshort_eq h0 (by linarith), getshort_eq (by linarith) (by linarith), hnext]
  rfl

/-- A field within the packet is read. -/
theorem octets_eq (h0 : 0 ≤ cp) {n : ℕ} (h : cp + n ≤ eoa) :
    octets buf eoa n cp = some (slice buf n cp.toNat) := by
  induction n generalizing cp with
  | zero => rfl
  | succ n ih =>
    have hnext : (cp + 1).toNat = cp.toNat + 1 := by omega
    push_cast at h
    rw [octets, octet_eq h0 (by linarith), ih (by linarith) (by linarith), hnext]
    rfl

end octets

/-! ## The header -/

/-- `hp->id`. -/
def Buf.id (buf : Buf) : UInt8 × UInt8 := (buf 0, buf 1)

/-- `hp->rcode`. -/
def Buf.rcode (buf : Buf) : ℕ := (buf 3).toNat % 16

/-- A count of the header, as the machine stores it. -/
def Buf.count (buf : Buf) (i : ℕ) : ℕ := (buf i).toNat + 256 * (buf (i + 1)).toNat

/-- An assignment to a count of the header. -/
def Buf.setCount (buf : Buf) (i n : ℕ) : Buf :=
  Function.update (Function.update buf i (UInt8.ofNat n)) (i + 1) (UInt8.ofNat (n / 256))

/-- The offset of `qdcount`. -/
def QDCOUNT : ℕ := 4

/-- The offset of `ancount`. -/
def ANCOUNT : ℕ := 6

/-- `hp->ancount = ntohs(hp->ancount)`, or the same for `qdcount`. -/
def Buf.ntohs (buf : Buf) (i : ℕ) : Buf := buf.setCount i (short buf i)

/-- A reply as it is parsed. -/
def Buf.toHost (buf : Buf) : Buf := (buf.ntohs ANCOUNT).ntohs QDCOUNT

/-! ## `parse_answer` -/

/-- The variables that `parse_answer` assigns to: the array `addrs`, the variable `_stx_dns_ttl`, and
the number of addresses. -/
structure Parsed where
  addrs : ℕ → InAddr
  ttl : Int32
  i : ℕ

/-- `memcpy` of some octets to an address. -/
def copyAddr (data : List UInt8) (addr : InAddr) : InAddr := fun j => data.getD j (addr j)

/-- The next address is stored. -/
def Parsed.store (a : Parsed) (data : List UInt8) : Parsed :=
  { a with addrs := Function.update a.addrs a.i (copyAddr data (a.addrs a.i)), i := a.i + 1 }

section parse

variable (r : Resolver) (eoa : ℤ)

/-- The loop over the question section, which counts down `qdcount`. -/
def skipQuestions : ℕ → Buf → ℤ → Buf × ℤ
  | 0, buf, cp => (buf, cp)
  | n + 1, buf, cp =>
    let buf := buf.setCount QDCOUNT n
    skipQuestions n buf (cp + (r.dn_skipname buf cp eoa + QFIXEDSZ))

/-- The loop over the answer section, which counts down `ancount`. -/
def parseAnswers (num_addrs : ℕ) : ℕ → Buf → ℤ → Parsed → Option (ℤ × Parsed)
  | 0, _, _, a => some (0, a)
  | ancount + 1, buf, cp, a =>
    if cp < eoa ∧ a.i < num_addrs then
      let buf := buf.setCount ANCOUNT ancount
      let n := r.dn_expand buf eoa cp
      if n < 0 then some (-1, a)
      else
        let cp := cp + n
        if eoa ≤ cp + 4 + 4 + 2 then some (-1, a)
        else do
          let type ← getshort buf eoa cp
          let cp := cp + 4
          let ttl ← if type = T_A then (getlong buf eoa cp).map Int32.ofNat else some a.ttl
          let a := { a with ttl := ttl }
          let cp := cp + 4
          let n ← getshort buf eoa cp
          let cp := cp + 2
          if type = T_A then
            if 4 < n ∨ eoa < cp + n then some (-1, a)
            else do
              let data ← octets buf eoa n cp
              parseAnswers num_addrs ancount buf (cp + n) (a.store data)
          else parseAnswers num_addrs ancount buf (cp + n) a
    else some (0, a)

/-- `parse_answer` of a reply of `eoa` octets, for an array of `num_addrs` addresses. -/
def parseAnswer (buf : Buf) (addrs : ℕ → InAddr) (num_addrs : ℕ) : Option (ℤ × Parsed) :=
  let (buf, cp) := skipQuestions r eoa (buf.count QDCOUNT) buf HFIXEDSZ
  parseAnswers r eoa num_addrs (buf.count ANCOUNT) buf cp ⟨addrs, -1, 0⟩

end parse

/-! ## The records of a reply -/

/-- A resource record. -/
structure Rec where
  type : ℕ
  ttl : Int32
  rdata : List UInt8
  deriving DecidableEq

/-- The record is an address. -/
def Rec.IsA (x : Rec) : Prop := x.type = T_A

instance (x : Rec) : Decidable x.IsA := inferInstanceAs (Decidable (_ = _))

/-- The address in a record. -/
def Rec.addr (x : Rec) : InAddr := fun j => x.rdata.getD j 0

/-- The record whose fields, behind its name, are at `cp`. -/
def recordAt (buf : Buf) (cp : ℕ) : Rec where
  type := short buf cp
  ttl := Int32.ofNat (long buf (cp + 4))
  rdata := slice buf (short buf (cp + 8)) (cp + 10)

section records

variable (r : Resolver) (eoa : ℤ)

/-- The records from `cp` on, up to the end or to one that is not in the reply as a whole. The names are
read as the parser reads them, which counts in the header. -/
def records : ℕ → Buf → ℤ → List Rec
  | 0, _, _ => []
  | ancount + 1, buf, cp =>
    let buf := buf.setCount ANCOUNT ancount
    let n := r.dn_expand buf eoa cp
    if cp < eoa ∧ 0 ≤ n ∧ cp + n + 10 < eoa then
      let x := recordAt buf (cp + n).toNat
      x :: records ancount buf (cp + n + 10 + x.rdata.length)
    else []

/-- The answer section of a reply. -/
def answers (buf : Buf) : List Rec :=
  let (buf, cp) := skipQuestions r eoa (buf.count QDCOUNT) buf HFIXEDSZ
  records r eoa (buf.count ANCOUNT) buf cp

/-- The records of type A of a reply. -/
def addressRecords (buf : Buf) : List Rec := (answers r eoa buf).filter (·.IsA)

/-- The address list of a reply. -/
def addresses (buf : Buf) : List InAddr := (addressRecords r eoa buf).map Rec.addr

end records

/-! ## What `parse_answer` leaves behind -/

/-- A record of type A is stored. -/
def Parsed.push (a : Parsed) (x : Rec) : Parsed := { a with ttl := x.ttl }.store x.rdata

section spec

variable {r : Resolver} {eoa : ℤ} {num_addrs : ℕ}

/-- The loop over the answer section ends where the name does not parse, or the fields are not in the
reply. -/
theorem parseAnswers_reject {ancount : ℕ} {buf : Buf} {cp : ℤ} {a : Parsed} (hlt : cp < eoa)
    (hi : a.i < num_addrs) {n : ℤ} (hn : n = r.dn_expand (buf.setCount ANCOUNT ancount) eoa cp)
    (hout : ¬(0 ≤ n ∧ cp + n + 10 < eoa)) :
    parseAnswers r eoa num_addrs (ancount + 1) buf cp a = some (-1, a) := by
  rw [parseAnswers, if_pos ⟨hlt, hi⟩]
  dsimp only
  rw [← hn]
  by_cases hn0 : n < 0
  · rw [if_pos hn0]
  · rw [if_neg hn0, if_pos]
    by_contra hc
    exact hout ⟨not_lt.mp hn0, by linarith⟩

/-- One round of the loop over the answer section, at a record that is in the reply up to its data. -/
theorem parseAnswers_succ {ancount : ℕ} {buf : Buf} {cp : ℤ} {a : Parsed} (hcp : 0 ≤ cp)
    (hlt : cp < eoa) (hi : a.i < num_addrs) {n : ℤ}
    (hn : n = r.dn_expand (buf.setCount ANCOUNT ancount) eoa cp) (hn0 : 0 ≤ n)
    (hin : cp + n + 10 < eoa) {x : Rec}
    (hx : x = recordAt (buf.setCount ANCOUNT ancount) (cp + n).toNat) :
    parseAnswers r eoa num_addrs (ancount + 1) buf cp a =
      if x.IsA then
        if 4 < x.rdata.length ∨ eoa < cp + n + 10 + x.rdata.length then
          some (-1, { a with ttl := x.ttl })
        else parseAnswers r eoa num_addrs ancount (buf.setCount ANCOUNT ancount)
          (cp + n + 10 + x.rdata.length) (a.push x)
      else parseAnswers r eoa num_addrs ancount (buf.setCount ANCOUNT ancount)
        (cp + n + 10 + x.rdata.length) a := by
  rw [parseAnswers, if_pos ⟨hlt, hi⟩]
  dsimp only
  rw [← hn, if_neg (not_lt.mpr hn0), if_neg (by linarith)]
  -- The fields at the offset `o`, all of them in the reply.
  generalize buf.setCount ANCOUNT ancount = buf at hx ⊢
  obtain ⟨o, ho⟩ : ∃ o, o = cp + n := ⟨_, rfl⟩
  rw [← ho] at hx hin ⊢
  have ho0 : 0 ≤ o := by linarith
  have h4 : (o + 4).toNat = o.toNat + 4 := by omega
  have h8 : (o + 4 + 4).toNat = o.toNat + 8 := by omega
  have h10 : (o + 10).toNat = o.toNat + 10 := by omega
  have hsum : o + 4 + 4 + 2 = o + 10 := by omega
  have htype : getshort buf eoa o = some x.type := by
    rw [getshort_eq ho0 (by linarith), hx]
    rfl
  have httl : (getlong buf eoa (o + 4)).map Int32.ofNat = some x.ttl := by
    rw [getlong_eq (by linarith) (by linarith), h4, hx, Option.map_some, recordAt]
  have hlen : getshort buf eoa (o + 4 + 4) = some x.rdata.length := by
    rw [getshort_eq (by linarith) (by linarith), h8, hx, recordAt, slice_length]
  -- Only the data of an address is read, if it is in the reply.
  rw [htype]
  by_cases hA : x.type = T_A
  · have hA' : x.IsA := hA
    simp only [httl, hlen, hsum, hA, hA', Option.bind_eq_bind, Option.bind_some, if_true]
    by_cases hbad : 4 < x.rdata.length ∨ eoa < o + 10 + x.rdata.length
    · rw [if_pos hbad, if_pos hbad]
    · have hdata : octets buf eoa x.rdata.length (o + 10) = some x.rdata := by
        rw [octets_eq (by linarith) (not_lt.mp fun hc => hbad (Or.inr hc)), h10, hx, recordAt,
          slice_length]
      rw [if_neg hbad, if_neg hbad, hdata]
      rfl
  · have hA' : ¬x.IsA := hA
    simp only [hlen, hsum, hA, hA', Option.bind_eq_bind, Option.bind_some, if_false]

/-- The parser fails, or it has stored the records of type A, as many as there is room for. -/
theorem parseAnswers_spec (ancount : ℕ) : ∀ (buf : Buf) (cp : ℤ) (a : Parsed), 0 ≤ cp →
    ∃ rv a', parseAnswers r eoa num_addrs ancount buf cp a = some (rv, a') ∧
      (rv = 0 ∧ a' = (((records r eoa ancount buf cp).filter (·.IsA)).take
        (num_addrs - a.i)).foldl Parsed.push a ∨ rv = -1) := by
  induction ancount with
  | zero =>
    intro buf cp a _
    exact ⟨0, a, rfl, Or.inl ⟨rfl, by simp [records]⟩⟩
  | succ ancount ih =>
    intro buf cp a hcp
    by_cases hi : a.i < num_addrs
    swap
    · -- The array is full.
      refine ⟨0, a, if_neg fun hc => hi hc.2, Or.inl ⟨rfl, ?_⟩⟩
      rw [Nat.sub_eq_zero_of_le (not_lt.mp hi), List.take_zero, List.foldl_nil]
    by_cases hlt : cp < eoa
    swap
    · -- The reply ends before its count of records.
      refine ⟨0, a, if_neg fun hc => hlt hc.1, Or.inl ⟨rfl, ?_⟩⟩
      rw [records, if_neg fun hc => hlt hc.1, List.filter_nil, List.take_nil, List.foldl_nil]
    obtain ⟨n, hn⟩ : ∃ n, n = r.dn_expand (buf.setCount ANCOUNT ancount) eoa cp := ⟨_, rfl⟩
    by_cases hin : 0 ≤ n ∧ cp + n + 10 < eoa
    swap
    · -- The name is bad, or the fixed part of the record does not fit.
      exact ⟨-1, a, parseAnswers_reject hlt hi hn hin, Or.inr rfl⟩
    obtain ⟨x, hx⟩ : ∃ x, x = recordAt (buf.setCount ANCOUNT ancount) (cp + n).toNat := ⟨_, rfl⟩
    have hrecords : records r eoa (ancount + 1) buf cp = x :: records r eoa ancount
        (buf.setCount ANCOUNT ancount) (cp + n + 10 + x.rdata.length) := by
      rw [records, ← hn, if_pos ⟨hlt, hin⟩, ← hx]
    have hnext : 0 ≤ cp + n + 10 + x.rdata.length := by linarith
    rw [parseAnswers_succ hcp hlt hi hn hin.1 hin.2 hx, hrecords]
    by_cases hA : x.IsA
    · rw [if_pos hA, List.filter_cons, if_pos (decide_eq_true hA)]
      -- More than four octets of data, or data behind the end, make the parser fail.
      by_cases hbad : 4 < x.rdata.length ∨ eoa < cp + n + 10 + x.rdata.length
      · exact ⟨-1, _, if_pos hbad, Or.inr rfl⟩
      · have hroom : num_addrs - a.i = (num_addrs - (a.push x).i) + 1 := by
          show num_addrs - a.i = (num_addrs - (a.i + 1)) + 1
          omega
        rw [if_neg hbad, hroom, List.take_succ_cons, List.foldl_cons]
        exact ih _ _ _ hnext
    · -- A record of another type is passed over.
      rw [if_neg hA, List.filter_cons, if_neg (by simpa using hA)]
      exact ih _ _ _ hnext

/-- The place where the answer section begins. -/
theorem skipQuestions_le (n : ℕ) : ∀ (buf : Buf) (cp : ℤ), cp ≤ (skipQuestions r eoa n buf cp).2 := by
  induction n with
  | zero => exact fun _ cp => le_refl cp
  | succ n ih =>
    intro buf cp
    have hskip := r.dn_skipname_ge (buf.setCount QDCOUNT n) cp eoa
    rw [skipQuestions]
    refine le_trans ?_ (ih _ _)
    rw [QFIXEDSZ]
    push_cast
    linarith

/-- The parser of an answer returns 0 with the first address records that there is room for, or fails. -/
theorem parseAnswer_spec (buf : Buf) (addrs : ℕ → InAddr) :
    ∃ rv a', parseAnswer r eoa buf addrs num_addrs = some (rv, a') ∧
      (rv = 0 ∧ a' = ((addressRecords r eoa buf).take num_addrs).foldl Parsed.push ⟨addrs, -1, 0⟩ ∨
        rv = -1) := by
  have hcp : (0 : ℤ) ≤ HFIXEDSZ := Int.natCast_nonneg _
  exact parseAnswers_spec _ _ _ _ (hcp.trans (skipQuestions_le _ _ _))

/-- A record takes ten octets and its name. -/
theorem records_length (ancount : ℕ) : ∀ (buf : Buf) (cp : ℤ),
    cp + 10 * (records r eoa ancount buf cp).length ≤ max cp eoa := by
  induction ancount with
  | zero => exact fun _ cp => by simp [records]
  | succ ancount ih =>
    intro buf cp
    rw [records]
    generalize buf.setCount ANCOUNT ancount = buf
    generalize r.dn_expand buf eoa cp = n
    dsimp only
    split_ifs with hin
    · have hrest := ih buf (cp + n + 10 + (recordAt buf (cp + n).toNat).rdata.length)
      rw [List.length_cons]
      push_cast
      omega
    · simp

/-- A packet has room for at most 102 address records. -/
theorem addressRecords_length (heoa : eoa ≤ MAXPACKET) (buf : Buf) :
    (addressRecords r eoa buf).length ≤ 102 := by
  have hle : (addressRecords r eoa buf).length ≤ (answers r eoa buf).length :=
    List.length_filter_le _ _
  have hcp := @skipQuestions_le r eoa (buf.count QDCOUNT) buf HFIXEDSZ
  have hlen := @records_length r eoa
    ((skipQuestions r eoa (buf.count QDCOUNT) buf HFIXEDSZ).1.count ANCOUNT)
    (skipQuestions r eoa (buf.count QDCOUNT) buf HFIXEDSZ).1
    (skipQuestions r eoa (buf.count QDCOUNT) buf HFIXEDSZ).2
  change _ + 10 * ((answers r eoa buf).length : ℤ) ≤ _ at hlen
  rw [HFIXEDSZ] at hcp hlen
  rw [MAXPACKET] at heoa
  push_cast at hcp hlen heoa
  omega

/-- The data of a record was copied to an address. -/
def Copies (x : Rec) (addr : InAddr) : Prop := ∃ old, addr = copyAddr x.rdata old

/-- Four octets are the whole address. -/
theorem Copies.eq_addr {x : Rec} {addr : InAddr} (h : Copies x addr) (h4 : x.rdata.length = 4) :
    addr = x.addr := by
  obtain ⟨old, rfl⟩ := h
  funext j
  have hj : j.val < x.rdata.length := by omega
  simp only [copyAddr, Rec.addr, List.getD, List.getElem?_eq_getElem hj, Option.getD_some]

/-- Four octets are copied as they are. Of fewer octets no address can be made. -/
theorem Copies.ofFn_eq_iff {x : Rec} {addr : InAddr} (h : Copies x addr) :
    List.ofFn addr = x.rdata ↔ x.rdata.length = 4 := by
  constructor
  · intro heq
    rw [← heq, List.length_ofFn]
  · intro h4
    rw [h.eq_addr h4]
    apply List.ext_getElem
    · rw [List.length_ofFn, h4]
    · intro j hj hj'
      rw [List.getElem_ofFn]
      simp only [Rec.addr, List.getD, List.getElem?_eq_getElem hj', Option.getD_some]

/-- The addresses are the records' data exactly when each record has four octets of it. -/
theorem map_ofFn_eq_iff {recs : List Rec} {addrs : List InAddr} (h : List.Forall₂ Copies recs addrs) :
    addrs.map List.ofFn = recs.map Rec.rdata ↔ ∀ x ∈ recs, x.rdata.length = 4 := by
  induction h with
  | nil => simp
  | cons hcopy _ ih =>
    rw [List.map_cons, List.map_cons, List.cons.injEq, hcopy.ofFn_eq_iff, ih, List.forall_mem_cons]

/-- The records of type A, one after the other from the start of the array. -/
theorem foldl_push (addrs : ℕ → InAddr) (xs : List Rec) {a : Parsed}
    (ha : a = xs.foldl Parsed.push ⟨addrs, -1, 0⟩) :
    a.i = xs.length ∧ a.ttl = (xs.map Rec.ttl).getLastD (-1) ∧
      List.Forall₂ Copies xs ((List.range xs.length).map a.addrs) := by
  induction xs using List.reverseRecOn generalizing a with
  | nil =>
    rw [ha]
    exact ⟨rfl, rfl, .nil⟩
  | append_singleton xs x ih =>
    rw [List.foldl_append] at ha
    obtain ⟨hi, -, hcopies⟩ := ih rfl
    generalize List.foldl Parsed.push ⟨addrs, -1, 0⟩ xs = b at ha hi hcopies
    change a = b.push x at ha
    refine ⟨?_, ?_, ?_⟩
    · rw [ha, List.length_append, ← hi]
      rfl
    · rw [ha, List.map_append]
      simp [Parsed.push, Parsed.store]
    · have hold : (List.range xs.length).map a.addrs = (List.range xs.length).map b.addrs := by
        refine List.map_congr_left fun j hj => ?_
        have hne : j ≠ b.i := by
          rw [hi]
          exact (List.mem_range.mp hj).ne
        rw [ha]
        exact Function.update_of_ne hne _ _
      have hnew : Copies x (a.addrs xs.length) := by
        refine ⟨b.addrs b.i, ?_⟩
        rw [ha, ← hi]
        exact Function.update_self _ _ _
      rw [List.length_append, List.length_singleton, List.range_succ, List.map_append, hold]
      exact List.rel_append hcopies (.cons hnew .nil)

end spec

end StWin.Dns
