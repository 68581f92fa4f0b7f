import StWin.Cache.Runs

/-!
# The loop of evictions

`stx_cache_entry_delete` returns without unlinking an entry that somebody holds, and the loop of
`stx_cache_entry_insert` would try it again forever. It does not meet one: an entry on the LRU list
has no handles, so each round takes the head of the list off the list and off the hash table (`Round`).
The length of the list is what decreases, and the loop ends with enough room or with an empty list
(`run_makeRoom_terminates`).
-/

namespace StWin.Cache

variable {K D : Type*} {p : CacheParams K} {c c' : Cache K D} {a : Lru K D}

/-- The condition of the loop: there is not enough room for the weight `w`. -/
def Exceeds (p : CacheParams K) (c : Cache K D) (w : ℕ) : Prop :=
  p.max_weight < (c.cur_weight + w) % p.sizeMod

/-- One round of the loop, in a cache whose LRU list is `e` and then `es`. -/
structure Round (p : CacheParams K) (c : Cache K D) (e : ℕ) (es : List ℕ) (c' : Cache K D) : Prop where
  before : Ring.IsRing c.lru .list ((e :: es).map .entry)
  head : c.entryGetlru = some e
  idle : (c.entry e).ref_count = 0
  delete : (c.note (.gone e .evicted)).entryDelete p e = some c'
  /-- The list is shorter. -/
  after : Ring.IsRing c'.lru .list (es.map .entry)
  /-- The entry was on a chain of the hash table, and it is on none. -/
  chains : ∃ buckets buckets' b, Chain.Rep c.chain buckets ∧ e ∈ buckets b ∧
    Chain.Rep c'.chain buckets' ∧ ∀ b', e ∉ buckets' b'
  freed : c'.log = .freed e :: .gone e .evicted :: c.log

/-- The loop from a cache to a cache: the entries that it removes, and whether there is enough room at
its end. A loop that goes on forever is not of this kind. -/
inductive Loop (p : CacheParams K) (w : ℕ) : Cache K D → List ℕ → Cache K D → Bool → Prop
  | room {c : Cache K D} (fits : ¬Exceeds p c w) : Loop p w c [] c true
  | empty {c : Cache K D} (exceeds : Exceeds p c w) (nobody : c.entryGetlru = none) : Loop p w c [] c false
  | round {c c₁ c' : Cache K D} {e : ℕ} {es ds : List ℕ} {ok : Bool} (exceeds : Exceeds p c w)
      (one : Round p c e es c₁) (rest : Loop p w c₁ ds c' ok) : Loop p w c (e :: ds) c' ok

/-- The function takes the loop's rounds, if there are not more than it is allowed. -/
theorem Loop.makeRoom {w fuel : ℕ} {ds : List ℕ} {ok : Bool} (h : Loop p w c ds c' ok)
    (hfuel : ds.length < fuel) : c.makeRoom p w fuel = some (c', ok) := by
  induction h generalizing fuel with
  | room fits =>
    obtain ⟨fuel, rfl⟩ := Nat.exists_eq_succ_of_ne_zero (Nat.ne_of_gt hfuel)
    unfold Exceeds at fits
    rw [Cache.makeRoom, if_neg fits]
  | empty exceeds nobody =>
    obtain ⟨fuel, rfl⟩ := Nat.exists_eq_succ_of_ne_zero (Nat.ne_of_gt hfuel)
    unfold Exceeds at exceeds
    rw [Cache.makeRoom, if_pos exceeds, nobody]
  | @round c c₁ c' e es ds ok exceeds one rest ih =>
    obtain ⟨fuel, rfl⟩ := Nat.exists_eq_succ_of_ne_zero (Nat.ne_of_gt (Nat.zero_lt_of_lt hfuel))
    unfold Exceeds at exceeds
    rw [Cache.makeRoom, if_pos exceeds, one.head]
    show ((c.note (.gone e .evicted)).entryDelete p e).bind _ = _
    rw [one.delete]
    exact ih (Nat.lt_of_succ_lt_succ hfuel)

/-- The head of the LRU list is really unlinked. -/
theorem Rep.round {buckets : ℕ → List ℕ} (h : Rep p c a buckets) (hwf : a.WF) {e : ℕ} {es : List ℕ}
    (hidle : a.idle = e :: es) :
    ∃ c', Round p c e es c' ∧ Reps p c' (a.discard e .evicted) := by
  obtain ⟨htable, href, -, hes⟩ := hwf.discard_head hidle
  obtain ⟨hlt, hlive⟩ := (hwf.ok e).live htable
  -- Nobody holds it, so that `stx_cache_entry_delete` does not return early.
  obtain ⟨c', hc', h'⟩ := entryDelete_free (h.note (.gone e .evicted)) hlt hlive href
    ⟨fun _ => htable, fun _ => by rw [hidle]; exact List.mem_cons_self⟩
  obtain ⟨b, hb⟩ := (h.mem e).mp htable
  refine ⟨c', ?_, _, h'⟩
  constructor
  · rw [← hidle]
    exact h.ring
  · rw [entryGetlru_eq ⟨buckets, h⟩, hidle]
    rfl
  · rw [h.entry]
    exact href
  · exact hc'
  · have hring := h'.ring
    change Ring.IsRing c'.lru .list ((a.idle.erase e).map .entry) at hring
    rw [hidle, List.erase_cons_head] at hring
    exact hring
  · refine ⟨buckets, _, b, h.chain, hb, h'.chain, fun b' hb' => ?_⟩
    exact (h.chain.nodup b').not_mem_erase hb'
  · rw [h'.log, h.log]

/-- The loop ends: it removes the entries of the LRU list one after the other, until there is enough
room or none of them is left. -/
theorem loop_terminates (w : ℕ) {lru : List ℕ} : ∀ {c : Cache K D} {a : Lru K D}, Reps p c a → a.WF →
    a.idle = lru → ∃ ds es c' ok, lru = ds ++ es ∧ Loop p w c ds c' ok ∧
      Ring.IsRing c'.lru .list (es.map .entry) ∧ (ok = true ↔ ¬Exceeds p c' w) ∧
      (ok = false → es = []) := by
  -- The induction is on the LRU list, which each round shortens.
  induction lru with
  | nil =>
    intro c a h hwf hidle
    have hlru := entryGetlru_eq h
    obtain ⟨buckets, h⟩ := h
    have hring := h.ring
    rw [hidle] at hlru hring
    by_cases hover : Exceeds p c w
    · exact ⟨[], [], c, false, rfl, .empty hover hlru, hring, by simp [hover], fun _ => rfl⟩
    · exact ⟨[], [], c, true, rfl, .room hover, hring, by simp [hover], fun _ => rfl⟩
  | cons e lru ih =>
    intro c a h hwf hidle
    obtain ⟨buckets, h⟩ := h
    by_cases hover : Exceeds p c w
    · obtain ⟨c₁, hround, h₁⟩ := h.round hwf hidle
      obtain ⟨-, -, hwf₁, hidle₁⟩ := hwf.discard_head hidle
      obtain ⟨ds, es, c', ok, heq, hloop, hring, hroom, hempty⟩ := ih h₁ hwf₁ hidle₁
      exact ⟨e :: ds, es, c', ok, by rw [heq, List.cons_append], .round hover hround hloop, hring,
        hroom, hempty⟩
    · have hring := h.ring
      rw [hidle] at hring
      exact ⟨[], e :: lru, c, true, rfl, .room hover, hring, by simp [hover], by simp⟩

/-! ## Runs -/

/-- Clients may also release an entry that nobody holds. -/
def Lenient (c : Cache K D) : Op K D → Prop
  | .release e => e < c.created ∧ .freed e ∉ c.log
  | op => c.Client op

instance (c : Cache K D) : (op : Op K D) → Decidable (c.Lenient op)
  | .create key data weight => inferInstanceAs (Decidable (c.Client (.create key data weight)))
  | .insert e => inferInstanceAs (Decidable (c.Client (.insert e)))
  | .lookup key => inferInstanceAs (Decidable (c.Client (.lookup key)))
  | .release e => inferInstanceAs (Decidable (e < c.created ∧ CNote.freed e ∉ c.log))
  | .delete e => inferInstanceAs (Decidable (c.Client (.delete e)))
  | .empty => inferInstanceAs (Decidable (c.Client .empty))

/-- Each operation that clients may do is possible and keeps the invariant. -/
theorem step_lenient {op : Op K D} (h : Inv p c) (hop : c.Lenient op) :
    ∃ c', c.step p op = some c' ∧ Inv p c' := by
  cases op with
  | release e =>
    obtain ⟨hlt, hfreed⟩ := hop
    obtain ⟨a, ⟨buckets, hrep⟩, hwf, hold⟩ := id h
    rw [hrep.log] at hfreed
    rw [hrep.created] at hlt
    have hlive := hwf.live_of_not_freed hlt hfreed
    by_cases href : (a.entry e).ref_count = 0
    · -- The call returns at once.
      rw [← hrep.entry] at hlive href
      refine ⟨c, ?_, h⟩
      rw [step, entryRelease, if_pos hlive, if_pos href]
    · refine step_inv h ?_
      have hmem := hwf.mem_of_ref ⟨hlt, hlive⟩ (Nat.pos_of_ne_zero href)
      show 0 < handles c.log e
      rw [hrep.log, ← hwf.ref_eq_handles hmem]
      exact Nat.pos_of_ne_zero href
  | create key data weight => exact step_inv h hop
  | insert e => exact step_inv h hop
  | lookup key => exact step_inv h hop
  | delete e => exact step_inv h hop
  | empty => exact step_inv h hop

/-- The loop of `stx_cache_entry_insert` for the weight `w`, in a cache whose LRU list is `lru`. -/
structure LoopEnds (p : CacheParams K) (c : Cache K D) (lru : List ℕ) (w : ℕ) (ds es : List ℕ)
    (c' : Cache K D) (ok : Bool) : Prop where
  /-- It removes the first entries of the list. -/
  split : lru = ds ++ es
  loop : Loop p w c ds c' ok
  ring : Ring.IsRing c'.lru .list (es.map .entry)
  /-- It ends with enough room or with an empty list. -/
  room : ok = true ↔ ¬Exceeds p c' w
  empty : ok = false → es = []
  makeRoom : ∀ fuel, ds.length < fuel → c.makeRoom p w fuel = some (c', ok)

/-- Evictions end: after each sequence of operations of clients, whatever handles they hold, nobody
holds an entry of the LRU list, and the loop of `stx_cache_entry_insert` ends for every weight. So does
each insertion. -/
theorem run_makeRoom_terminates (p : CacheParams K) (x : CEntry K D) (n : Ring.Links LruNode)
    (ops : List (Op K D)) (hops : Runs.Meets (step p) Lenient (init x n) ops) :
    ∃ c, Runs.run (step p) (init x n) ops = some c ∧
      (∃ lru, Ring.IsRing c.lru .list (lru.map .entry) ∧ lru.Nodup ∧ lru.length ≤ c.created ∧
        (∀ e ∈ lru, (c.entry e).ref_count = 0) ∧
        ∀ w, ∃ ds es c' ok, LoopEnds p c lru w ds es c' ok) ∧
      ∀ e, c.Client (.insert e) → ∃ c' r, c.entryInsert p e = some (c', r) := by
  obtain ⟨c, hc, hinv⟩ := Runs.run_total step_lenient (init_inv p x n) hops
  refine ⟨c, hc, ?_, fun e hclient => ?_⟩
  · obtain ⟨a, ⟨buckets, hrep⟩, hwf, -⟩ := hinv
    refine ⟨a.idle, hrep.ring, hwf.nodup, ?_, fun e he => ?_, fun w => ?_⟩
    · rw [hrep.created]
      exact length_le_of_lt hwf.nodup fun e he => ((hwf.ok e).live ((hwf.ok e).idle.mp he).1).1
    · rw [hrep.entry]
      exact ((hwf.ok e).idle.mp he).2
    · obtain ⟨ds, es, c', ok, hsplit, hloop, hring, hroom, hempty⟩ :=
        loop_terminates w ⟨buckets, hrep⟩ hwf rfl
      exact ⟨ds, es, c', ok, hsplit, hloop, hring, hroom, hempty, fun _ hfuel => hloop.makeRoom hfuel⟩
  · obtain ⟨c₁, hc₁, -⟩ := step_inv hinv hclient
    obtain ⟨⟨c', r⟩, hc', -⟩ := Option.map_eq_some_iff.mp hc₁
    exact ⟨c', r, hc'⟩

/-- An entry that nobody holds, released once too often, and an entry that is held and deleted. -/
def idleAndHeld : List (Op ℕ Unit) :=
  [.create 1 () 4, .insert 0, .create 2 () 3, .insert 1, .release 1, .release 1, .delete 0]

/-- The run is possible. The loop then makes room for 5, and finds no room for 9, with fuel for three
iterations. -/
theorem run_makeRoom_terminates_idleAndHeld :
    ∃ c, Runs.run (step twoEntries) newCache idleAndHeld = some c ∧
      (c.cur_weight = 7 ∧ (c.entry 0).ref_count = 1) ∧
      (∃ c', c.makeRoom twoEntries 5 3 = some (c', true) ∧ c'.cur_weight = 4) ∧
      ∃ c', c.makeRoom twoEntries 9 3 = some (c', false) ∧ c'.cur_weight = 4 := by
  obtain ⟨c, hc, ⟨lru, -, -, hlen, -, hends⟩, -⟩ := run_makeRoom_terminates twoEntries _ _ idleAndHeld
    (show Runs.Meets (step twoEntries) Lenient newCache idleAndHeld by decide +kernel)
  have hvalue : (Runs.run (step twoEntries) newCache idleAndHeld).map (fun c =>
      ((c.cur_weight, (c.entry 0).ref_count, c.created),
        (c.makeRoom twoEntries 5 3).map (fun q => (q.1.cur_weight, q.2)),
        (c.makeRoom twoEntries 9 3).map (fun q => (q.1.cur_weight, q.2)))) =
      some ((7, 1, 2), some (4, true), some (4, false)) := by decide +kernel
  have hc' : Runs.run (step twoEntries) newCache idleAndHeld = some c := hc
  rw [hc', Option.map_some, Option.some_inj, Prod.mk.injEq, Prod.mk.injEq, Prod.mk.injEq,
    Prod.mk.injEq] at hvalue
  obtain ⟨⟨hweight, href, hcreated⟩, hfive, hnine⟩ := hvalue
  have hfuel : ∀ {w ds es c' ok}, LoopEnds twoEntries c lru w ds es c' ok → ds.length < 3 := by
    intro w ds es c' ok h
    have hsplit := congrArg List.length h.split
    rw [List.length_append] at hsplit
    omega
  -- The loop gives what the run computes.
  obtain ⟨ds, es, c₅, ok₅, h₅⟩ := hends 5
  obtain ⟨ds', es', c₉, ok₉, h₉⟩ := hends 9
  have hroom := h₅.makeRoom 3 (hfuel h₅)
  have hroom' := h₉.makeRoom 3 (hfuel h₉)
  rw [hroom, Option.map_some, Option.some_inj, Prod.mk.injEq] at hfive
  rw [hroom', Option.map_some, Option.some_inj, Prod.mk.injEq] at hnine
  obtain ⟨hfive, rfl⟩ : c₅.cur_weight = 4 ∧ ok₅ = true := hfive
  obtain ⟨hnine, rfl⟩ : c₉.cur_weight = 4 ∧ ok₉ = false := hnine
  exact ⟨c, hc, ⟨hweight, href⟩, ⟨c₅, hroom, hfive⟩, ⟨c₉, hroom', hnine⟩⟩

end StWin.Cache
