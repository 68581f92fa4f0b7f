import StWin.Dns.Parse

/-!
# What `parse_answer` reads and writes

`parse_answer` once more, as the machine runs it: a read takes what is in memory, wherever it is, the
loops test the counts in the header of the buffer, and each read of the reply and each address that is
stored is written down. The loops end because the counts go down. `traceAnswer_eq` says that this is
`parseAnswer`, where a read outside of the reply would have no result; and the list of the reads and
writes has no read outside of the reply, and no address out of its turn (`traceAnswer_inside`).
-/

namespace StWin.Dns

/-! ## The model -/

/-- A read of the octet at an offset of the reply, or a write to an element of the array. -/
inductive Access where
  | read (cp : ℤ)
  | store (i : ℕ)
  deriving DecidableEq

/-- What the function has done when it returns. -/
structure Trace where
  rv : ℤ
  parsed : Parsed
  /-- `*num_addrs`. -/
  num_addrs : ℕ
  log : List Access

/-- The octets that `n` reads from `cp` on take. -/
def span (n : ℕ) (cp : ℤ) : List Access := (List.range n).map fun j : ℕ => .read (cp + j)

/-- `ahp->qdcount` or `ahp->ancount` is read. -/
def readsCount (i : ℕ) : List Access := span 2 i

/-- A count of the header has 16 bits. -/
theorem Buf.count_lt (buf : Buf) (i : ℕ) : buf.count i < 65536 := by
  have hlo := (buf i).toNat_lt
  have hhi := (buf (i + 1)).toNat_lt
  unfold Buf.count
  omega

/-- A count of the header is read as it was written. -/
theorem Buf.count_setCount (buf : Buf) (i : ℕ) {n : ℕ} (hn : n < 65536) :
    (buf.setCount i n).count i = n := by
  have hlo : (buf.setCount i n) i = UInt8.ofNat n := by
    simp [Buf.setCount]
  have hhi : (buf.setCount i n) (i + 1) = UInt8.ofNat (n / 256) := by
    simp [Buf.setCount]
  rw [Buf.count, hlo, hhi, UInt8.toNat_ofNat', UInt8.toNat_ofNat']
  omega

/-- A count that is positive goes down. -/
theorem Buf.count_pred (buf : Buf) (i : ℕ) (h : 0 < buf.count i) :
    (buf.setCount i (buf.count i - 1)).count i < buf.count i := by
  have hlt := buf.count_lt i
  rw [buf.count_setCount i (by omega)]
  omega

section trace

variable (r : Resolver) (eoa : ℤ)

/-- `while (ahp->qdcount > 0)`. -/
def traceQuestions (buf : Buf) (cp : ℤ) : (Buf × ℤ) × List Access :=
  if 0 < buf.count QDCOUNT then
    let buf' := buf.setCount QDCOUNT (buf.count QDCOUNT - 1)
    let (res, log) := traceQuestions buf' (cp + (r.dn_skipname buf' cp eoa + QFIXEDSZ))
    (res, readsCount QDCOUNT ++ readsCount QDCOUNT ++ log)
  else ((buf, cp), readsCount QDCOUNT)
termination_by buf.count QDCOUNT
decreasing_by exact buf.count_pred QDCOUNT ‹_›

/-- `while (ahp->ancount > 0 && cp < eoa && i < *num_addrs)`. -/
def traceAnswers (num_addrs : ℕ) (buf : Buf) (cp : ℤ) (a : Parsed) (log : List Access) : Trace :=
  let log := log ++ readsCount ANCOUNT
  if h : 0 < buf.count ANCOUNT ∧ cp < eoa ∧ a.i < num_addrs then
    let buf' := buf.setCount ANCOUNT (buf.count ANCOUNT - 1)
    let log := log ++ readsCount ANCOUNT
    let n := r.dn_expand buf' eoa cp
    if n < 0 then ⟨-1, a, num_addrs, log⟩
    else
      let cp := cp + n
      if eoa ≤ cp + 4 + 4 + 2 then ⟨-1, a, num_addrs, log⟩
      else
        let type := short buf' cp.toNat
        let log := log ++ span 2 cp
        let cp := cp + 4
        let ttl := if type = T_A then Int32.ofNat (long buf' cp.toNat) else a.ttl
        let log := if type = T_A then log ++ span 4 cp else log
        let a := { a with ttl := ttl }
        let cp := cp + 4
        let n := short buf' cp.toNat
        let log := log ++ span 2 cp
        let cp := cp + 2
        if type = T_A then
          if 4 < n ∨ eoa < cp + n then ⟨-1, a, num_addrs, log⟩
          else
            traceAnswers num_addrs buf' (cp + n) (a.store (slice buf' n cp.toNat))
              (log ++ span n cp ++ [.store a.i])
        else traceAnswers num_addrs buf' (cp + n) a log
  else ⟨0, a, a.i, log⟩
termination_by buf.count ANCOUNT
decreasing_by all_goals exact buf.count_pred ANCOUNT h.1

/-- `parse_answer`. -/
def traceAnswer (buf : Buf) (addrs : ℕ → InAddr) (num_addrs : ℕ) : Trace :=
  let ((buf, cp), log) := traceQuestions r eoa buf HFIXEDSZ
  traceAnswers r eoa num_addrs buf cp ⟨addrs, -1, 0⟩ log

end trace

/-! ## Inside of the reply -/

/-- The element that is written. -/
def Access.index : Access → Option ℕ
  | .read _ => none
  | .store i => some i

/-- No octet was read outside of the reply, and the elements of the array before `a.i` were written, in
order. -/
structure Inside (eoa : ℤ) (num_addrs : ℕ) (addrs : ℕ → InAddr) (a : Parsed) (log : List Access) :
    Prop where
  reads : ∀ cp, .read cp ∈ log → 0 ≤ cp ∧ cp < eoa
  stores : log.filterMap Access.index = List.range a.i
  le : a.i ≤ num_addrs
  kept : ∀ j, a.i ≤ j → a.addrs j = addrs j

/-- What is known when the function returns. -/
structure Traced (eoa : ℤ) (num_addrs : ℕ) (addrs : ℕ → InAddr) (t : Trace) : Prop where
  inside : Inside eoa num_addrs addrs t.parsed t.log
  ends : (t.rv = 0 ∧ t.num_addrs = t.parsed.i) ∨ (t.rv = -1 ∧ t.num_addrs = num_addrs)

section spec

variable {r : Resolver} {eoa : ℤ} {num_addrs : ℕ} {addrs : ℕ → InAddr} {a : Parsed} {log : List Access}

/-- Reads of the packet store no address. -/
theorem span_index (n : ℕ) (cp : ℤ) : (span n cp).filterMap Access.index = [] := by
  simp [span, Access.index, List.filterMap_map]

/-- More octets of the reply are read. -/
theorem Inside.append (h : Inside eoa num_addrs addrs a log) (n : ℕ) (cp : ℤ) (h0 : 0 ≤ cp)
    (hle : cp + n ≤ eoa) : Inside eoa num_addrs addrs a (log ++ span n cp) where
  reads x hx := by
    rcases List.mem_append.mp hx with hx | hx
    · exact h.reads x hx
    · obtain ⟨j, hj, hread⟩ := List.mem_map.mp hx
      cases hread
      have hlt := List.mem_range.mp hj
      omega
  stores := by rw [List.filterMap_append, span_index, List.append_nil, h.stores]
  le := h.le
  kept := h.kept

/-- A count of the header is read. -/
theorem Inside.count (h : Inside eoa num_addrs addrs a log) (heoa : HFIXEDSZ ≤ eoa) {j : ℕ}
    (hj : j ≤ ANCOUNT) : Inside eoa num_addrs addrs a (log ++ readsCount j) := by
  refine h.append _ _ (Int.natCast_nonneg j) ?_
  unfold HFIXEDSZ at heoa
  unfold ANCOUNT at hj
  push_cast at heoa ⊢
  omega

/-- The TTL is stored. -/
theorem Inside.ttl (h : Inside eoa num_addrs addrs a log) (ttl : Int32) :
    Inside eoa num_addrs addrs { a with ttl := ttl } log :=
  ⟨h.reads, h.stores, h.le, h.kept⟩

/-- The next element is written. -/
theorem Inside.store (h : Inside eoa num_addrs addrs a log) (hi : a.i < num_addrs) (data : List UInt8) :
    Inside eoa num_addrs addrs (a.store data) (log ++ [.store a.i]) where
  reads x hx := by
    rcases List.mem_append.mp hx with hx | hx
    · exact h.reads x hx
    · simp at hx
  stores := by
    rw [List.filterMap_append, h.stores]
    exact List.range_succ.symm
  le := hi
  kept j hj := by
    have hlt : a.i < j := hj
    rw [← h.kept j hlt.le]
    exact Function.update_of_ne hlt.ne' _ _

/-- The loop over the question section. -/
theorem traceQuestions_spec (heoa : HFIXEDSZ ≤ eoa) (n : ℕ) : ∀ (buf : Buf) (cp : ℤ),
    buf.count QDCOUNT = n → (traceQuestions r eoa buf cp).1 = skipQuestions r eoa n buf cp ∧
      Inside eoa num_addrs addrs ⟨addrs, -1, 0⟩ (traceQuestions r eoa buf cp).2 := by
  have hnil : Inside eoa num_addrs addrs ⟨addrs, -1, 0⟩ [] :=
    ⟨fun _ h => (nomatch h), rfl, Nat.zero_le _, fun _ _ => rfl⟩
  have hcount := hnil.count heoa (j := QDCOUNT) (by decide)
  induction n with
  | zero =>
    intro buf cp hn
    rw [traceQuestions, if_neg (by omega), skipQuestions]
    exact ⟨rfl, hcount⟩
  | succ n ih =>
    intro buf cp hn
    have hlt := buf.count_lt QDCOUNT
    have hpred : buf.count QDCOUNT - 1 = n := by omega
    rw [traceQuestions, if_pos (by omega), skipQuestions, hpred]
    dsimp only
    obtain ⟨hres, hlog⟩ := ih (buf.setCount QDCOUNT n)
      (cp + (r.dn_skipname (buf.setCount QDCOUNT n) cp eoa + QFIXEDSZ))
      (buf.count_setCount QDCOUNT (by omega))
    refine ⟨hres, ?_, ?_, Nat.zero_le _, fun _ _ => rfl⟩
    · intro x hx
      rcases List.mem_append.mp hx with hx | hx
      · exact (hcount.count heoa (j := QDCOUNT) (by decide)).reads x hx
      · exact hlog.reads x hx
    · rw [List.filterMap_append, List.filterMap_append, hlog.stores, readsCount, span_index]
      rfl

section round

variable {n : ℕ} {buf : Buf} {cp k : ℤ} (hn : buf.count ANCOUNT = n + 1) (hlt : cp < eoa)
  (hi : a.i < num_addrs) (hk : k = r.dn_expand (buf.setCount ANCOUNT n) eoa cp)
include hn hlt hi hk

/-- A round that ends the loop over the answer section, at a record that is not in the reply. -/
theorem traceAnswers_reject (hout : ¬(0 ≤ k ∧ cp + k + 10 < eoa)) :
    traceAnswers r eoa num_addrs buf cp a log =
      ⟨-1, a, num_addrs, log ++ readsCount ANCOUNT ++ readsCount ANCOUNT⟩ := by
  have hpred : buf.count ANCOUNT - 1 = n := by omega
  rw [traceAnswers, dif_pos ⟨by omega, hlt, hi⟩]
  dsimp only
  rw [hpred, ← hk]
  by_cases hneg : k < 0
  · rw [if_pos hneg]
  · rw [if_neg hneg, if_pos (by omega)]

/-- A round at a record that is in the reply up to its data. -/
theorem traceAnswers_succ (hcp : 0 ≤ cp) (hk0 : 0 ≤ k) (hin : cp + k + 10 < eoa) {x : Rec}
    (hx : x = recordAt (buf.setCount ANCOUNT n) (cp + k).toNat) {log' : List Access}
    (hlog : log' = log ++ readsCount ANCOUNT ++ readsCount ANCOUNT ++ span 2 (cp + k)) :
    traceAnswers r eoa num_addrs buf cp a log =
      if x.IsA then
        if 4 < x.rdata.length ∨ eoa < cp + k + 10 + x.rdata.length then
          ⟨-1, { a with ttl := x.ttl }, num_addrs,
            log' ++ span 4 (cp + k + 4) ++ span 2 (cp + k + 4 + 4)⟩
        else traceAnswers r eoa num_addrs (buf.setCount ANCOUNT n) (cp + k + 10 + x.rdata.length)
          (a.push x) (log' ++ span 4 (cp + k + 4) ++ span 2 (cp + k + 4 + 4) ++
            span x.rdata.length (cp + k + 10) ++ [.store a.i])
      else traceAnswers r eoa num_addrs (buf.setCount ANCOUNT n) (cp + k + 10 + x.rdata.length) a
        (log' ++ span 2 (cp + k + 4 + 4)) := by
  have hpred : buf.count ANCOUNT - 1 = n := by omega
  rw [traceAnswers, dif_pos ⟨by omega, hlt, hi⟩]
  dsimp only
  rw [hpred, ← hk, if_neg (not_lt.mpr hk0), if_neg (by omega), hlog]
  -- The fields at the offset `o`, all of them in the reply.
  obtain ⟨o, ho⟩ : ∃ o, o = cp + k := ⟨_, rfl⟩
  rw [← ho] at hx ⊢
  have h4 : (o + 4).toNat = o.toNat + 4 := by omega
  have h8 : (o + 4 + 4).toNat = o.toNat + 8 := by omega
  have h10 : (o + 10).toNat = o.toNat + 10 := by omega
  have hsum : o + 4 + 4 + 2 = o + 10 := by omega
  have hlen : short (buf.setCount ANCOUNT n) (o + 4 + 4).toNat = x.rdata.length := by
    rw [h8, hx, recordAt, slice_length]
  have httl : Int32.ofNat (long (buf.setCount ANCOUNT n) (o + 4).toNat) = x.ttl := by
    rw [h4, hx, recordAt]
  have hdata : slice (buf.setCount ANCOUNT n) x.rdata.length (o + 10).toNat = x.rdata := by
    rw [h10, hx, recordAt, slice_length]
  rw [hlen, hsum]
  by_cases hA : short (buf.setCount ANCOUNT n) o.toNat = T_A
  · have hIsA : x.IsA := by
      rw [hx]
      exact hA
    simp only [if_pos hA, if_pos hIsA, httl, hdata]
    rfl
  · have hIsA : ¬x.IsA := by
      rw [hx]
      exact hA
    simp only [if_neg hA, if_neg hIsA]

end round

/-- The loop over the answer section. -/
theorem traceAnswers_spec (heoa : HFIXEDSZ ≤ eoa) (n : ℕ) :
    ∀ (buf : Buf) (cp : ℤ) (a : Parsed) (log : List Access), buf.count ANCOUNT = n → 0 ≤ cp →
      Inside eoa num_addrs addrs a log →
      Traced eoa num_addrs addrs (traceAnswers r eoa num_addrs buf cp a log) ∧
      parseAnswers r eoa num_addrs n buf cp a =
        some ((traceAnswers r eoa num_addrs buf cp a log).rv,
          (traceAnswers r eoa num_addrs buf cp a log).parsed) := by
  induction n with
  | zero =>
    intro buf cp a log hn _ hlog
    rw [traceAnswers, dif_neg (by omega), parseAnswers]
    exact ⟨⟨hlog.count heoa le_rfl, Or.inl ⟨rfl, rfl⟩⟩, rfl⟩
  | succ n ih =>
    intro buf cp a log hn hcp hlog
    have hlog₁ := hlog.count heoa (j := ANCOUNT) le_rfl
    have hlog₂ := hlog₁.count heoa (j := ANCOUNT) le_rfl
    by_cases hgo : cp < eoa ∧ a.i < num_addrs
    swap
    · -- The reply ends, or the array is full, before the count of the header is used up.
      rw [traceAnswers, dif_neg (fun h => hgo h.2), parseAnswers, if_neg hgo]
      exact ⟨⟨hlog₁, Or.inl ⟨rfl, rfl⟩⟩, rfl⟩
    obtain ⟨k, hk⟩ : ∃ k, k = r.dn_expand (buf.setCount ANCOUNT n) eoa cp := ⟨_, rfl⟩
    by_cases hin : 0 ≤ k ∧ cp + k + 10 < eoa
    swap
    · rw [traceAnswers_reject hn hgo.1 hgo.2 hk hin, parseAnswers_reject hgo.1 hgo.2 hk hin]
      exact ⟨⟨hlog₂, Or.inr ⟨rfl, rfl⟩⟩, rfl⟩
    obtain ⟨hk0, hin⟩ := hin
    obtain ⟨x, hx⟩ : ∃ x, x = recordAt (buf.setCount ANCOUNT n) (cp + k).toNat := ⟨_, rfl⟩
    have hlog₃ := hlog₂.append 2 (cp + k) (by omega) (by push_cast; omega)
    rw [traceAnswers_succ hn hgo.1 hgo.2 hk hcp hk0 hin hx rfl,
      parseAnswers_succ hcp hgo.1 hgo.2 hk hk0 hin hx]
    -- The count that the next round reads is the one that this round has written.
    have hlt := buf.count_lt ANCOUNT
    have hnext : (buf.setCount ANCOUNT n).count ANCOUNT = n := buf.count_setCount ANCOUNT (by omega)
    have hcp' : 0 ≤ cp + k + 10 + x.rdata.length := by omega
    by_cases hA : x.IsA
    · have hlog₄ := hlog₃.append 4 (cp + k + 4) (by omega) (by push_cast; omega)
      have hlog₅ := hlog₄.append 2 (cp + k + 4 + 4) (by omega) (by push_cast; omega)
      rw [if_pos hA, if_pos hA]
      by_cases hbad : 4 < x.rdata.length ∨ eoa < cp + k + 10 + x.rdata.length
      · rw [if_pos hbad, if_pos hbad]
        exact ⟨⟨hlog₅.ttl _, Or.inr ⟨rfl, rfl⟩⟩, rfl⟩
      · -- The guard has checked the data before it is read.
        rw [if_neg hbad, if_neg hbad]
        refine ih _ _ (a.push x) _ hnext hcp' ?_
        exact ((hlog₅.ttl x.ttl).append _ (cp + k + 10) (by omega) (by omega)).store hgo.2 x.rdata
    · rw [if_neg hA, if_neg hA]
      exact ih _ _ a _ hnext hcp' (hlog₃.append 2 (cp + k + 4 + 4) (by omega) (by push_cast; omega))

/-- As the machine runs it, `parse_answer` does what the parser does. -/
theorem traceAnswer_spec (heoa : HFIXEDSZ ≤ eoa) (buf : Buf) (addrs : ℕ → InAddr) :
    Traced eoa num_addrs addrs (traceAnswer r eoa buf addrs num_addrs) ∧
      parseAnswer r eoa buf addrs num_addrs =
        some ((traceAnswer r eoa buf addrs num_addrs).rv,
          (traceAnswer r eoa buf addrs num_addrs).parsed) := by
  have hskip := @skipQuestions_le r eoa (buf.count QDCOUNT) buf HFIXEDSZ
  obtain ⟨hres, hlog⟩ := @traceQuestions_spec r eoa num_addrs addrs heoa _ buf HFIXEDSZ rfl
  rw [← hres] at hskip
  unfold traceAnswer parseAnswer
  rw [← hres]
  have hcp : (0 : ℤ) ≤ HFIXEDSZ := Int.natCast_nonneg _
  exact traceAnswers_spec heoa _ _ _ ⟨addrs, -1, 0⟩ _ rfl (hcp.trans hskip) hlog

end spec

/-- `parse_answer` stays inside of the reply. For every buffer of at least a header, with any counts in
it, and every array: it returns, each octet that it reads itself is one of the reply, it writes the
elements `0`, `1`, and so on of the array, not more than there are, and if it returns `0`, their number
is stored in `*num_addrs`. What it leaves is what the parser leaves. -/
theorem traceAnswer_inside (r : Resolver) (len : ℤ) (hlen : HFIXEDSZ ≤ len) (buf : Buf)
    (addrs : ℕ → InAddr) (num_addrs : ℕ) :
    let t := traceAnswer r len buf addrs num_addrs
    (∀ cp, .read cp ∈ t.log → 0 ≤ cp ∧ cp < len) ∧
      (∃ k ≤ num_addrs, t.log.filterMap Access.index = List.range k ∧
        (∀ j, k ≤ j → t.parsed.addrs j = addrs j) ∧ (t.rv = 0 → t.num_addrs = k)) ∧
      parseAnswer r len buf addrs num_addrs = some (t.rv, t.parsed) := by
  obtain ⟨htraced, hparse⟩ := @traceAnswer_spec r len num_addrs hlen buf addrs
  refine ⟨htraced.inside.reads, ⟨_, htraced.inside.le, htraced.inside.stores, htraced.inside.kept, ?_⟩,
    hparse⟩
  intro hrv
  rcases htraced.ends with ⟨-, hnum⟩ | ⟨hfail, -⟩
  · exact hnum
  · rw [hrv] at hfail
    cases hfail

/-- A name of one octet can be skipped. -/
theorem oneOctet_ge (_ : Buf) (_ _ : ℤ) : (-1 : ℤ) ≤ 1 := by decide

/-- Names of one octet in questions, and of two octets in answers. -/
def shortNames : Resolver := ⟨fun _ _ _ => 1, fun _ _ _ => 2, oneOctet_ge⟩

/-- A reply with a question, an answer with an address of four octets, and a second one of two octets,
with the counts as they are parsed. -/
def twoAnswers : Buf := fun i => ([0, 7, 129, 128, 1, 0, 2, 0, 0, 0, 0, 0, 0, 0, 1, 0, 1,
   192, 12, 0, 1, 0, 1, 0, 0, 0, 60, 0, 4, 10, 0, 0, 1,
   192, 12, 0, 1, 0, 1, 0, 0, 0, 60, 0, 2, 10, 9] : List UInt8).getD i 0

/-- The reply is accepted with two addresses, and all reads are within its 47 octets. -/
theorem traceAnswer_inside_twoAnswers :
    ∃ t, t = traceAnswer shortNames 47 twoAnswers (fun _ _ => 255) 8 ∧ t.rv = 0 ∧ t.num_addrs = 2 ∧
      ∀ cp, .read cp ∈ t.log → 0 ≤ cp ∧ cp < 47 := by
  obtain ⟨hreads, ⟨k, -, hstores, -, hnum⟩, hparse⟩ :=
    traceAnswer_inside shortNames 47 (by decide) twoAnswers (fun _ _ => 255) 8
  have hvalue : (parseAnswer shortNames 47 twoAnswers (fun _ _ => 255) 8).map
      (fun q => (q.1, q.2.i)) = some (0, 2) := by decide +kernel
  obtain ⟨htraced, -⟩ := @traceAnswer_spec shortNames 47 8 (by decide) twoAnswers fun _ _ => 255
  rw [hparse, Option.map_some, Option.some_inj, Prod.mk.injEq] at hvalue
  refine ⟨_, rfl, hvalue.1, ?_, hreads⟩
  have hk : List.range k = List.range 2 := by
    rw [← hstores, ← hvalue.2]
    exact htraced.inside.stores
  rw [hnum hvalue.1]
  simpa using congrArg List.length hk

end StWin.Dns
