import StWin.Dns.Access

/-!
# Replies that are malformed

`parse_answer` looks at a part of what can be wrong with a reply. It rejects an answer whose name does
not parse, or whose fields reach the end of the reply, and a record of type A with more data than an
address or with data that is not in the reply (`Rejects`). It takes no notice of a name in the question
section that does not parse, of other records that are not in the reply as a whole, of a reply that
ends before its count of records, and of a record of type A with fewer than four octets, of which it
copies what there is on top of the previous contents of the array. So what it returns is right exactly
if the reply is well formed, or is rejected for another reason (`parseAnswer_sound_iff`).
-/

namespace StWin.Dns

section formed

variable (r : Resolver) (eoa : ℤ)

/-! ## Well formed replies -/

/-- The names of the questions from `cp` on parse, and the questions are in the reply. -/
def QuestionsOk : ℕ → Buf → ℤ → Prop
  | 0, _, _ => True
  | qdcount + 1, buf, cp =>
    let buf := buf.setCount QDCOUNT qdcount
    let n := r.dn_skipname buf cp eoa
    0 ≤ n ∧ cp + (n + QFIXEDSZ) ≤ eoa ∧ QuestionsOk qdcount buf (cp + (n + QFIXEDSZ))

/-- The offset of the fields of a record, behind its name. -/
def fields (buf : Buf) (cp : ℤ) : ℤ := cp + r.dn_expand buf eoa cp

/-- The record at `cp`. -/
def record (buf : Buf) (cp : ℤ) : Rec := recordAt buf (fields r eoa buf cp).toNat

/-- The offset behind the record at `cp`. -/
def behind (buf : Buf) (cp : ℤ) : ℤ := fields r eoa buf cp + 10 + (record r eoa buf cp).rdata.length

/-- The name of the record at `cp` parses, the record is in the reply, and an address has four octets. -/
structure RecordOk (buf : Buf) (cp : ℤ) : Prop where
  name : 0 ≤ r.dn_expand buf eoa cp
  inside : behind r eoa buf cp ≤ eoa
  address : (record r eoa buf cp).IsA → (record r eoa buf cp).rdata.length = 4

/-- The records from `cp` on, as many as the header says, are well formed. -/
def AnswersOk : ℕ → Buf → ℤ → Prop
  | 0, _, _ => True
  | ancount + 1, buf, cp =>
    let buf := buf.setCount ANCOUNT ancount
    RecordOk r eoa buf cp ∧ AnswersOk ancount buf (behind r eoa buf cp)

/-- The number of addresses for which there is room after the record at `cp`. -/
def roomAfter (buf : Buf) (cp : ℤ) (room : ℕ) : ℕ :=
  if (record r eoa buf cp).IsA then room - 1 else room

/-- The records from `cp` on that the parser looks at, with room for `room` addresses, are well
formed. -/
def ConsumedOk : ℕ → ℕ → Buf → ℤ → Prop
  | _, 0, _, _ => True
  | room, ancount + 1, buf, cp =>
    cp < eoa ∧ 0 < room →
      let buf := buf.setCount ANCOUNT ancount
      RecordOk r eoa buf cp ∧ ConsumedOk (roomAfter r eoa buf cp room) ancount buf (behind r eoa buf cp)

/-- The parser comes to a record that it rejects. -/
def Rejects : ℕ → ℕ → Buf → ℤ → Prop
  | _, 0, _, _ => False
  | room, ancount + 1, buf, cp =>
    (cp < eoa ∧ 0 < room) ∧
      let buf := buf.setCount ANCOUNT ancount
      (¬(0 ≤ r.dn_expand buf eoa cp ∧ fields r eoa buf cp + 10 < eoa) ∨
        (record r eoa buf cp).IsA ∧
          (4 < (record r eoa buf cp).rdata.length ∨ eoa < behind r eoa buf cp) ∨
        Rejects (roomAfter r eoa buf cp room) ancount buf (behind r eoa buf cp))

/-- A condition on the answer section of a reply, at the place where the parser begins with it. -/
def atAnswers (P : ℕ → Buf → ℤ → Prop) (buf : Buf) : Prop :=
  let (buf, cp) := skipQuestions r eoa (buf.count QDCOUNT) buf HFIXEDSZ
  P (buf.count ANCOUNT) buf cp

/-- The question section of a reply is well formed. -/
def Asked (buf : Buf) : Prop := QuestionsOk r eoa (buf.count QDCOUNT) buf HFIXEDSZ

/-- A reply is well formed. -/
def WellFormed (buf : Buf) : Prop := Asked r eoa buf ∧ atAnswers r eoa (AnswersOk r eoa) buf

/-- What `parse_answer` has stored, when it returns `rv`, is what a reply of which the consumed part is
well formed has of addresses. -/
structure Sound (buf : Buf) (num_addrs : ℕ) (rv : ℤ) (a : Parsed) : Prop where
  questions : rv = 0 → Asked r eoa buf
  consumed : rv = 0 → atAnswers r eoa (ConsumedOk r eoa num_addrs) buf
  /-- The octets of the addresses are those of the records of type A, in order. -/
  octets : rv = 0 → ((List.range a.i).map a.addrs).map List.ofFn =
    ((addressRecords r eoa buf).take num_addrs).map Rec.rdata

end formed

/-! ## What is rejected -/

section spec

variable {r : Resolver} {eoa : ℤ} {num_addrs : ℕ}

/-- The parser fails exactly if it comes to a record that it rejects. -/
theorem parseAnswers_rejects (ancount : ℕ) : ∀ (buf : Buf) (cp : ℤ) (a : Parsed), 0 ≤ cp →
    ∃ rv a', parseAnswers r eoa num_addrs ancount buf cp a = some (rv, a') ∧
      (rv = -1 ∧ Rejects r eoa (num_addrs - a.i) ancount buf cp ∨
        rv = 0 ∧ ¬Rejects r eoa (num_addrs - a.i) ancount buf cp) := by
  induction ancount with
  | zero =>
    intro buf cp a _
    exact ⟨0, a, rfl, Or.inr ⟨rfl, id⟩⟩
  | succ ancount ih =>
    intro buf cp a hcp
    by_cases hgo : cp < eoa ∧ a.i < num_addrs
    swap
    · -- The loop ends, and what is behind is not looked at.
      refine ⟨0, a, if_neg hgo, Or.inr ⟨rfl, fun h => hgo ⟨h.1.1, ?_⟩⟩⟩
      have hroom := h.1.2
      omega
    have hroom : cp < eoa ∧ 0 < num_addrs - a.i := ⟨hgo.1, by omega⟩
    rw [Rejects]
    dsimp only
    by_cases hin : 0 ≤ r.dn_expand (buf.setCount ANCOUNT ancount) eoa cp ∧
        fields r eoa (buf.setCount ANCOUNT ancount) cp + 10 < eoa
    swap
    · exact ⟨-1, a, parseAnswers_reject hgo.1 hgo.2 rfl hin, Or.inl ⟨rfl, hroom, Or.inl hin⟩⟩
    have hnext : 0 ≤ behind r eoa (buf.setCount ANCOUNT ancount) cp := by
      have h0 := hin.1
      unfold behind fields
      omega
    rw [parseAnswers_succ hcp hgo.1 hgo.2 rfl hin.1 hin.2 rfl]
    change ∃ rv a', (if (record r eoa (buf.setCount ANCOUNT ancount) cp).IsA then _ else _) = _ ∧ _
    by_cases hA : (record r eoa (buf.setCount ANCOUNT ancount) cp).IsA
    · rw [if_pos hA]
      by_cases hbad : 4 < (record r eoa (buf.setCount ANCOUNT ancount) cp).rdata.length ∨
          eoa < behind r eoa (buf.setCount ANCOUNT ancount) cp
      · exact ⟨-1, _, if_pos hbad, Or.inl ⟨rfl, hroom, Or.inr (Or.inl ⟨hA, hbad⟩)⟩⟩
      · obtain ⟨rv, a', hparse, hrv⟩ := ih (buf.setCount ANCOUNT ancount) _
          (a.push (record r eoa (buf.setCount ANCOUNT ancount) cp)) hnext
        refine ⟨rv, a', (if_neg hbad).trans hparse, ?_⟩
        -- The address takes one element of the array.
        have hafter : roomAfter r eoa (buf.setCount ANCOUNT ancount) cp (num_addrs - a.i) =
            num_addrs - (a.push (record r eoa (buf.setCount ANCOUNT ancount) cp)).i := by
          rw [roomAfter, if_pos hA]
          exact Nat.sub_sub _ _ _
        rw [hafter]
        tauto
    · rw [if_neg hA]
      obtain ⟨rv, a', hparse, hrv⟩ := ih (buf.setCount ANCOUNT ancount) _ a hnext
      refine ⟨rv, a', hparse, ?_⟩
      rw [roomAfter, if_neg hA]
      tauto

/-- The parser of an answer fails exactly when one of the conditions is met that it tests. -/
theorem parseAnswer_rejects (buf : Buf) (addrs : ℕ → InAddr) {rv : ℤ} {a : Parsed}
    (h : parseAnswer r eoa buf addrs num_addrs = some (rv, a)) :
    rv = -1 ∧ atAnswers r eoa (Rejects r eoa num_addrs) buf ∨
      rv = 0 ∧ ¬atAnswers r eoa (Rejects r eoa num_addrs) buf := by
  have hcp : (0 : ℤ) ≤ HFIXEDSZ := Int.natCast_nonneg _
  have hskip := @skipQuestions_le r eoa (buf.count QDCOUNT) buf HFIXEDSZ
  obtain ⟨rv', a', hparse, hrv⟩ := @parseAnswers_rejects r eoa num_addrs _ _ _ ⟨addrs, -1, 0⟩ (hcp.trans hskip)
  have heq : some (rv, a) = some (rv', a') := h.symm.trans hparse
  cases heq
  exact hrv

/-! ## What is accepted -/

/-- The parser looks at a part of the answer section. -/
theorem AnswersOk.consumed (ancount : ℕ) : ∀ (room : ℕ) (buf : Buf) (cp : ℤ),
    AnswersOk r eoa ancount buf cp → ConsumedOk r eoa room ancount buf cp := by
  induction ancount with
  | zero => exact fun _ _ _ _ => trivial
  | succ ancount ih => exact fun room buf cp h _ => ⟨h.1, ih _ _ _ h.2⟩

/-- The records of type A that the parser stores have four octets. -/
theorem ConsumedOk.addresses (ancount : ℕ) : ∀ (room : ℕ) (buf : Buf) (cp : ℤ),
    ConsumedOk r eoa room ancount buf cp →
    ∀ x ∈ ((records r eoa ancount buf cp).filter (·.IsA)).take room, x.rdata.length = 4 := by
  induction ancount with
  | zero =>
    intro room buf cp _ x hx
    simp [records] at hx
  | succ ancount ih =>
    intro room buf cp h x hx
    rw [records] at hx
    dsimp only at hx
    split_ifs at hx with hin
    swap
    · simp at hx
    -- Without room for another address, nothing is taken.
    cases room with
    | zero => simp at hx
    | succ room =>
      obtain ⟨hok, hrest⟩ := h ⟨hin.1, Nat.succ_pos room⟩
      have hrest := ih _ _ _ hrest
      change x ∈ ((record r eoa (buf.setCount ANCOUNT ancount) cp ::
        records r eoa ancount (buf.setCount ANCOUNT ancount)
          (behind r eoa (buf.setCount ANCOUNT ancount) cp)).filter (·.IsA)).take (room + 1) at hx
      rw [roomAfter] at hrest
      by_cases hA : (record r eoa (buf.setCount ANCOUNT ancount) cp).IsA
      · rw [List.filter_cons, if_pos (decide_eq_true hA), List.take_succ_cons, List.mem_cons] at hx
        rw [if_pos hA] at hrest
        rcases hx with rfl | hx
        · exact hok.address hA
        · exact hrest x hx
      · rw [List.filter_cons, if_neg (by simpa using hA)] at hx
        rw [if_neg hA] at hrest
        exact hrest x hx

/-- The octets that are stored for a reply whose consumed part is well formed. -/
theorem parseAnswer_octets (buf : Buf) (addrs : ℕ → InAddr) {a : Parsed}
    (h : parseAnswer r eoa buf addrs num_addrs = some (0, a))
    (hok : atAnswers r eoa (ConsumedOk r eoa num_addrs) buf) :
    ((List.range a.i).map a.addrs).map List.ofFn =
      ((addressRecords r eoa buf).take num_addrs).map Rec.rdata := by
  obtain ⟨rv, a', hparse, hends⟩ := @parseAnswer_spec r eoa num_addrs buf addrs
  rw [h] at hparse
  cases hparse
  rcases hends with ⟨-, ha⟩ | hfail
  · obtain ⟨hi, -, hcopies⟩ := foldl_push addrs _ ha
    rw [hi, map_ofFn_eq_iff hcopies]
    exact ConsumedOk.addresses _ _ _ _ hok
  · cases hfail

end spec

/-- `parse_answer` is right about replies that are well formed, or that it rejects. For every reply, every
resolver library, and every previous contents of the array: it returns `0` only if the question section
and the records consumed are well formed, and then has stored the octets of the records of type A, as
many as there is room for, exactly if the reply is rejected or these parts are well formed; and it
returns `-1` for a reply that is malformed anywhere exactly if the reply is rejected or well formed. -/
theorem parseAnswer_sound_iff (r : Resolver) (len : ℤ) (buf : Buf) (addrs : ℕ → InAddr)
    (num_addrs : ℕ) :
    ∃ rv a, parseAnswer r len buf addrs num_addrs = some (rv, a) ∧
      (Sound r len buf num_addrs rv a ↔ atAnswers r len (Rejects r len num_addrs) buf ∨
        Asked r len buf ∧ atAnswers r len (ConsumedOk r len num_addrs) buf) ∧
      ((¬WellFormed r len buf → rv = -1) ↔
        atAnswers r len (Rejects r len num_addrs) buf ∨ WellFormed r len buf) := by
  obtain ⟨rv, a, hparse, -⟩ := @parseAnswer_spec r len num_addrs buf addrs
  refine ⟨rv, a, hparse, ?_⟩
  rcases parseAnswer_rejects buf addrs hparse with ⟨rfl, hrejects⟩ | ⟨rfl, hnot⟩
  · -- A reply that is rejected breaks neither promise.
    have hne : (-1 : ℤ) ≠ 0 := by decide
    exact ⟨iff_of_true ⟨fun h => absurd h hne, fun h => absurd h hne, fun h => absurd h hne⟩
      (Or.inl hrejects), iff_of_true (fun _ => rfl) (Or.inl hrejects)⟩
  · refine ⟨⟨fun h => Or.inr ⟨h.questions rfl, h.consumed rfl⟩, ?_⟩, ⟨fun h => ?_, ?_⟩⟩
    · rintro (h | ⟨hasked, hconsumed⟩)
      · exact absurd h hnot
      · exact ⟨fun _ => hasked, fun _ => hconsumed,
          fun _ => parseAnswer_octets buf addrs hparse hconsumed⟩
    · by_contra hc
      have hformed : ¬WellFormed r len buf := fun hw => hc (Or.inr hw)
      exact absurd (h hformed) (by decide)
    · rintro (h | h)
      · exact absurd h hnot
      · exact fun hc => absurd h hc

/-- A record of type A of two octets is accepted, and the other two octets of the address are those
that were in the array before. -/
theorem parseAnswer_stale :
    ∃ a, parseAnswer shortNames 47 twoAnswers (fun _ _ => 255) 8 = some (0, a) ∧
      ((List.range a.i).map a.addrs).map List.ofFn = [[10, 0, 0, 1], [10, 9, 255, 255]] ∧
      ¬Sound shortNames 47 twoAnswers 8 0 a ∧ ¬WellFormed shortNames 47 twoAnswers := by
  have hvalue : (parseAnswer shortNames 47 twoAnswers (fun _ _ => 255) 8).map (fun q =>
      (q.1, ((List.range q.2.i).map q.2.addrs).map List.ofFn)) =
        some (0, [[10, 0, 0, 1], [10, 9, 255, 255]]) := by
    decide +kernel
  have hdata : ((addressRecords shortNames 47 twoAnswers).take 8).map Rec.rdata =
      [[10, 0, 0, 1], [10, 9]] := by
    decide +kernel
  obtain ⟨⟨rv, a⟩, hparse, hq⟩ := Option.map_eq_some_iff.mp hvalue
  rw [Prod.mk.injEq] at hq
  obtain ⟨rfl, hoctets⟩ := hq
  have hne : ((List.range a.i).map a.addrs).map List.ofFn ≠
      ((addressRecords shortNames 47 twoAnswers).take 8).map Rec.rdata := by
    rw [hoctets, hdata]
    decide
  refine ⟨a, hparse, hoctets, fun h => hne (h.octets rfl), fun h => hne ?_⟩
  exact parseAnswer_octets twoAnswers _ hparse (AnswersOk.consumed _ _ _ _ h.2)

end StWin.Dns
