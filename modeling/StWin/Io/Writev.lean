import StWin.Io.Exact
import Mathlib.Data.Int.ModEq
import Mathlib.Data.List.Infix
import Mathlib.Algebra.BigOperators.Group.List.Basic
import Mathlib.Tactic.Ring

/-!
# Vectors

`st_writev` of `src/io_win.c` calls `st_write` for one vector after the other, and adds up what the
calls return. It does not look at the results: behind a vector that has failed it goes on with the
next one, and the `-1` of the failure is one of the terms of the sum.

An observer notes the octets that the socket accepts, as a vector and an offset into it. What the
socket and `st_netfd_poll` have answered is summed up in a `Tally`, which is a function of the labels
alone. `Account` is what the two have in common with the sum so far: up to the first failure, the
octets are those of the vectors in order (`Whole`); from then on, there is a gap behind them
(`Broken`). From it follows when `st_writev` does what `st_write` does with the vectors put together
(`run_writev_iff`).
-/

namespace StWin.Io

/-! ## The model -/

/-- `struct iovec`. -/
structure Iovec where
  iov_base : ℕ → UInt8
  iov_len : ℕ

/-- The value of a `ssize_t` expression, which has 64 bits. -/
def ssize (z : ℤ) : ℤ := Int.bmod z (2 ^ 64)

/-- Where a call of `st_writev` is. -/
inductive VPos where
  /-- In `st_write` of the vector `i`. The vectors `rest` come after it. -/
  | write (i : ℕ) (rest : List Iovec) (rv : ℤ) (pos : Pos)
  /-- It has returned. -/
  | done (rv : ℤ)

/-- A call of `st_writev`, and `errno`. -/
structure Writev where
  pos : VPos
  errno : ℤ

namespace Writev

/-- The call of `st_write` for a vector. -/
def writes (v : Iovec) : Call := ⟨.write, true, v.iov_len, v.iov_base⟩

/-- The head of the loop, at the vector `i`. A vector without octets makes no call of the socket. -/
def loop (errno : ℤ) : ℕ → ℤ → List Iovec → Writev
  | _, rv, [] => ⟨.done rv, errno⟩
  | i, rv, v :: rest =>
    match start (writes v) errno with
    | ⟨.done _ r, errno⟩ => loop errno (i + 1) (ssize (rv + ssize r)) rest
    | ⟨pos, errno⟩ => ⟨.write i rest rv pos, errno⟩

/-- `st_writev` begins. -/
def begin (fd : Bool) (iov : List Iovec) (errno : ℤ) : Writev :=
  if fd then loop errno 0 0 iov else ⟨.done 0, errno⟩

/-- One call of the socket, or one wait. -/
def step (s : Writev) (l : Label) : Option Writev :=
  match s.pos with
  | .write i rest rv pos =>
    (Io.step ⟨pos, s.errno⟩ l).map fun
      | ⟨.done _ r, errno⟩ => loop errno (i + 1) (ssize (rv + ssize r)) rest
      | ⟨pos, errno⟩ => ⟨.write i rest rv pos, errno⟩
  | .done _ => none

end Writev

/-! ## What is sent, and what was answered -/

/-- The octets of the vectors, in order: each one is the number of its vector and an offset. -/
def positions (iov : List Iovec) : List (ℕ × ℕ) :=
  iov.zipIdx.flatMap fun (v, i) => (List.range v.iov_len).map (Prod.mk i)

/-- The number of octets in the vectors. -/
def total (iov : List Iovec) : ℕ := (iov.map Iovec.iov_len).sum

/-- The number of octets that the socket has accepted. -/
def Label.octets : Label → ℕ
  | .sock (.ok data) => data.length
  | _ => 0

/-- A call of the socket has failed for good, or a wait has. -/
def Label.fails : Label → Bool
  | .sock (.ok _) => false
  | .sock (.error syserr) => decide (getError syserr ≠ EINTR ∧ ¬NotReady (getError syserr))
  | .poll p => decide ((netfdPoll 0 p).1 < 0)

/-- The answers so far. -/
structure Tally where
  /-- The octets that were accepted before the first failure. -/
  before : ℕ
  /-- The octets that were accepted after it. -/
  after : ℕ
  failures : ℕ
  deriving DecidableEq

/-- One more answer. -/
def Tally.add (t : Tally) (l : Label) : Tally where
  before := if t.failures = 0 then t.before + l.octets else t.before
  after := if t.failures = 0 then t.after else t.after + l.octets
  failures := if l.fails then t.failures + 1 else t.failures

/-- The answers of a run. -/
def tally (ls : List Label) : Tally := ls.foldl Tally.add ⟨0, 0, 0⟩

/-- What the observer has noted. -/
structure Notes where
  sent : List (ℕ × ℕ)
  tally : Tally

/-- The observer. -/
def Writev.track (w : Notes) (s : Writev) (l : Label) (_ : Writev) : Notes where
  sent :=
    match s.pos with
    | .write i _ _ (.sock x) => w.sent ++ (List.range' x.off l.octets).map (Prod.mk i)
    | _ => w.sent
  tally := w.tally.add l

/-- The octets that the socket has accepted in a run. -/
def Writev.sent (s : Writev) (ls : List Label) : List (ℕ × ℕ) :=
  (Runs.record step track ⟨[], ⟨0, 0, 0⟩⟩ s ls).sent

/-! ## One step of `st_write` -/

/-- `st_write` of `len` octets has sent a part of them. -/
structure Going (len : ℕ) (x : Xfer) : Prop where
  fn : x.fn = .write
  nbyte : x.nbyte = len
  rest : x.off + x.nleft = len
  left : 0 < x.nleft

/-- How a step of `st_write` ends. -/
inductive Goes (len : ℕ) (x : Xfer) (l : Label) : Pos → Prop where
  | sock (x' : Xfer) (going : Going len x') (off : x'.off = x.off + l.octets) (fails : l.fails = false) :
      Goes len x l (.sock x')
  | wait (x' : Xfer) (going : Going len x') (off : x'.off = x.off + l.octets) (fails : l.fails = false) :
      Goes len x l (.wait x')
  | all (y : Xfer) (off : x.off + l.octets = len) (fails : l.fails = false) :
      Goes len x l (.done y len)
  | failed (y : Xfer) (octets : l.octets = 0) (fails : l.fails = true) : Goes len x l (.done y (-1))

/-- What a wait returns does not depend on `errno`. -/
theorem netfdPoll_value (errno : ℤ) (p : Polled) : (netfdPoll errno p).1 = (netfdPoll 0 p).1 := by
  unfold netfdPoll
  split_ifs <;> rfl

/-- With octets left, the loop goes on. -/
theorem Going.loop {len : ℕ} {x : Xfer} (h : Going len x) : x.loop = .sock x :=
  Xfer.Left.loop_eq fun _ => h.left

/-- The socket accepts a part of the octets that are left, or all of them. -/
theorem Going.progress {len : ℕ} {x : Xfer} (h : Going len x) {data : List UInt8}
    (hle : (data.length : ℤ) ≤ x.nleft) :
    Goes len x (.sock (.ok data)) ((x.store data).progress data.length) := by
  have hfn : (x.store data).fn = .write := h.fn
  have hnleft : (x.store data).nleft = x.nleft := rfl
  have hoff : (x.store data).off = x.off := rfl
  have hrest := h.rest
  simp only [Xfer.progress, hfn, hnleft, hoff]
  by_cases hall : (data.length : ℤ) = x.nleft
  · rw [if_pos hall, show (x.store data).nbyte = len from h.nbyte]
    refine .all _ ?_ rfl
    show x.off + data.length = len
    omega
  · rw [if_neg hall]
    refine .wait _ ⟨rfl, h.nbyte, ?_, ?_⟩ rfl rfl
    · push_cast
      linarith
    · dsimp only
      omega

/-- The socket fails. `EINTR` repeats the call, a socket that is not ready is waited for, and every other
error ends `st_write`. -/
theorem Going.fail {len : ℕ} {x : Xfer} (h : Going len x) (syserr : ℤ) :
    Goes len x (.sock (.error syserr)) (x.fail (getError syserr)) := by
  unfold Xfer.fail
  by_cases hintr : getError syserr = EINTR
  · rw [if_pos hintr, h.loop]
    exact .sock x h rfl (by simp [Label.fails, hintr])
  · rw [if_neg hintr]
    by_cases hready : NotReady (getError syserr)
    · rw [if_neg (not_not.mpr hready)]
      exact .wait x h rfl (by simp [Label.fails, hready])
    · rw [if_pos hready]
      exact .failed x rfl (by simp [Label.fails, hintr, hready])

/-- A step of `st_write`, by the answer to it. -/
theorem Going.step {len : ℕ} {x : Xfer} (h : Going len x) {pos : Pos}
    (hpos : pos = .sock x ∨ pos = .wait x) {errno : ℤ} {l : Label} {s' : State}
    (hstep : Io.step ⟨pos, errno⟩ l = some s') : Goes len x l s'.pos := by
  rcases hpos with rfl | rfl
  · cases l with
    | poll p => cases hstep
    | sock o =>
      simp only [Io.step] at hstep
      split_ifs at hstep with hallows
      cases o with
      | ok data =>
        cases hstep
        -- The socket does not accept more than it is given.
        exact h.progress (hallows.1.trans (bmod_le h.left.le _))
      | error syserr =>
        cases hstep
        exact h.fail syserr
  · cases l with
    | sock o => cases hstep
    | poll p =>
      simp only [Io.step, Option.some.injEq] at hstep
      rw [← hstep]
      dsimp only
      -- What the wait returns does not depend on `errno`.
      rw [netfdPoll_value]
      by_cases hfail : (netfdPoll 0 p).1 < 0
      · rw [if_pos hfail]
        exact .failed x rfl (by simp [Label.fails, hfail])
      · rw [if_neg hfail, h.loop]
        exact .sock x h rfl (by simp [Label.fails, hfail])

/-! ## The account of a call -/

/-- A sum that overflows twice is the sum that overflows once. -/
@[simp] theorem ssize_add_ssize (a b : ℤ) : ssize (a + ssize b) = ssize (a + b) :=
  Int.add_bmod_bmod

/-- A sum that overflows twice is the sum that overflows once. -/
@[simp] theorem ssize_ssize_add (a b : ℤ) : ssize (ssize a + b) = ssize (a + b) :=
  Int.bmod_add_bmod

/-- One more vector. -/
theorem total_take_succ {iov : List Iovec} {i : ℕ} {v : Iovec} (hv : iov[i]? = some v) :
    total (iov.take (i + 1)) = total (iov.take i) + v.iov_len := by
  simp [total, List.take_add_one, hv]

/-- The octets of one more vector come last. -/
theorem positions_take_succ {iov : List Iovec} {i : ℕ} {v : Iovec} (hv : iov[i]? = some v) :
    positions (iov.take (i + 1)) =
      positions (iov.take i) ++ (List.range v.iov_len).map (Prod.mk i) := by
  have hi : i ≤ iov.length := (List.getElem?_eq_some_iff.mp hv).1.le
  simp [positions, List.take_add_one, hv, List.zipIdx_append, hi]

/-- There are as many octets as the vectors have. -/
theorem positions_length (iov : List Iovec) : (positions iov).length = total iov := by
  have hlen : iov.map Iovec.iov_len = iov.zipIdx.map fun q => q.1.iov_len := by
    conv_lhs => rw [← List.zipIdx_map_fst 0 iov, List.map_map]
    rfl
  simp [positions, List.length_flatMap, total, hlen]

/-- Nothing has failed. The octets of the first `i` vectors are sent, and `off` of the next one. -/
structure Whole (iov : List Iovec) (i off : ℕ) (rv : ℤ) (w : Notes) : Prop where
  failures : w.tally.failures = 0
  after : w.tally.after = 0
  before : w.tally.before = total (iov.take i) + off
  sent : w.sent = positions (iov.take i) ++ (List.range off).map (Prod.mk i)
  rv : rv = ssize (total (iov.take i))

/-- The vector `f` was the first one to fail, behind `k` octets. Of the vectors after it, up to the
vector `i`, those that did not fail have `g` octets, and `tail` was sent of all of them. -/
structure Broken (iov : List Iovec) (i off : ℕ) (rv : ℤ) (w : Notes) (f k g : ℕ)
    (tail : List (ℕ × ℕ)) : Prop where
  lt : f < i
  gap : ∃ v, iov[f]? = some v ∧ k < v.iov_len
  before : w.tally.before = total (iov.take f) + k
  sent : w.sent = positions (iov.take f) ++ (List.range k).map (Prod.mk f) ++ tail
  behind : ∀ q ∈ tail, f < q.1
  after : w.tally.after = tail.length
  later : g + off ≤ w.tally.after
  pos : 0 < w.tally.failures
  le : w.tally.failures ≤ i
  rv : rv = ssize (total (iov.take f) + g - w.tally.failures)

/-- What the notes have to do with the sum, at an offset into the vector `i`. -/
def Account (iov : List Iovec) (i off : ℕ) (rv : ℤ) (w : Notes) : Prop :=
  Whole iov i off rv w ∨ ∃ f k g tail, Broken iov i off rv w f k g tail

variable {iov : List Iovec} {i off : ℕ} {rv : ℤ} {w : Notes}

/-- The socket has accepted octets of the vector `i`, or none. -/
theorem Account.accepts (h : Account iov i off rv w) {l : Label} (hl : l.fails = false) :
    Account iov i (off + l.octets) rv
      ⟨w.sent ++ (List.range' off l.octets).map (Prod.mk i), w.tally.add l⟩ := by
  rcases h with h | ⟨f, k, g, tail, h⟩
  · -- Before a failure the octets go on where the last ones ended.
    refine Or.inl ⟨?_, ?_, ?_, ?_, h.rv⟩
    · simp [Tally.add, hl, h.failures]
    · simp [Tally.add, h.failures, h.after]
    · simp [Tally.add, h.failures, h.before, Nat.add_assoc]
    · simp [h.sent, ← range_append_range']
  · -- Behind a failure they go to the tail, all of vectors behind the gap.
    refine Or.inr ⟨f, k, g, tail ++ (List.range' off l.octets).map (Prod.mk i), h.lt, h.gap, ?_, ?_,
      ?_, ?_, ?_, ?_, ?_, ?_⟩
    · simp [Tally.add, h.pos.ne', h.before]
    · simp [h.sent]
    · intro q hq
      rcases List.mem_append.mp hq with hq | hq
      · exact h.behind q hq
      · obtain ⟨j, -, rfl⟩ := List.mem_map.mp hq
        exact h.lt
    · simp [Tally.add, h.pos.ne', h.after]
    · have hlater := h.later
      simp only [Tally.add, h.pos.ne', if_false]
      omega
    · simp [Tally.add, hl, h.pos]
    · simp [Tally.add, hl, h.le]
    · simp [Tally.add, hl, h.rv]

/-- The vector `i` is sent. -/
theorem Account.next {v : Iovec} (hv : iov[i]? = some v) (h : Account iov i v.iov_len rv w) :
    Account iov (i + 1) 0 (ssize (rv + ssize v.iov_len)) w := by
  rcases h with h | ⟨f, k, g, tail, h⟩
  · refine Or.inl ⟨h.failures, h.after, ?_, ?_, ?_⟩
    · rw [total_take_succ hv, add_zero, h.before]
    · rw [positions_take_succ hv, h.sent]
      simp
    · rw [h.rv, total_take_succ hv]
      simp
  · refine Or.inr ⟨f, k, g + v.iov_len, tail, h.lt.trans (Nat.lt_succ_self i), h.gap, h.before, h.sent,
      h.behind, h.after, h.later, h.pos, h.le.trans (Nat.le_succ i), ?_⟩
    rw [h.rv, ssize_add_ssize, ssize_ssize_add]
    push_cast
    congr 1
    ring

/-- The vector `i` fails. -/
theorem Account.fail {v : Iovec} (hv : iov[i]? = some v) (h : Account iov i off rv w)
    (hoff : off < v.iov_len) {l : Label} (hl : l.fails = true) (hoctets : l.octets = 0) :
    Account iov (i + 1) 0 (ssize (rv + ssize (-1))) ⟨w.sent, w.tally.add l⟩ := by
  rcases h with h | ⟨f, k, g, tail, h⟩
  · -- This is the first failure.
    refine Or.inr ⟨i, off, 0, [], Nat.lt_succ_self i, ⟨v, hv, hoff⟩, ?_, ?_, ?_, ?_, ?_, ?_, ?_, ?_⟩
    · simp [Tally.add, h.failures, h.before, hoctets]
    · simp [h.sent]
    · simp
    · simp [Tally.add, h.failures, h.after]
    · simp
    · simp [Tally.add, hl]
    · simp [Tally.add, hl, h.failures]
    · rw [h.rv, ssize_add_ssize, ssize_ssize_add]
      simp [Tally.add, hl, h.failures, sub_eq_add_neg]
  · -- The gap is that of the first failure, and this one takes one more off the sum.
    refine Or.inr ⟨f, k, g, tail, h.lt.trans (Nat.lt_succ_self i), h.gap, ?_, h.sent, h.behind, ?_, ?_, ?_,
      ?_, ?_⟩
    · simp [Tally.add, h.pos.ne', h.before]
    · simp [Tally.add, h.pos.ne', h.after, hoctets]
    · have hlater := h.later
      simp only [Tally.add, h.pos.ne', if_false, hoctets]
      omega
    · simp [Tally.add, hl]
    · simp [Tally.add, hl, h.le]
    · rw [h.rv, ssize_add_ssize, ssize_ssize_add]
      simp only [Tally.add, hl, if_true]
      push_cast
      congr 1
      ring

/-! ## Runs -/

/-- Where a call is, with what the observer has noted. -/
def VPos.Accounted (iov : List Iovec) (w : Notes) : VPos → Prop
  | .write i rest rv pos => ∃ v x, iov.drop i = v :: rest ∧ (pos = .sock x ∨ pos = .wait x) ∧
      Going v.iov_len x ∧ Account iov i x.off rv w
  | .done rv => Account iov iov.length 0 rv w

/-- The vector at the head of the loop is the `i`-th one. -/
theorem getElem?_of_drop {v : Iovec} {rest : List Iovec} (h : iov.drop i = v :: rest) :
    iov[i]? = some v := by
  have hhead := @List.head?_drop _ iov i
  rw [h] at hhead
  exact hhead.symm

/-- The vectors after the one at the head of the loop. -/
theorem drop_succ {v : Iovec} {rest : List Iovec} (h : iov.drop i = v :: rest) :
    iov.drop (i + 1) = rest := by
  rw [← List.drop_drop, h]
  rfl

/-- `st_write` of a vector begins, unless the vector is empty. -/
theorem start_writes (v : Iovec) (errno : ℤ) :
    (v.iov_len = 0 ∧ ∃ x, start (Writev.writes v) errno = ⟨.done x 0, errno⟩) ∨
      ∃ x, start (Writev.writes v) errno = ⟨.sock x, errno⟩ ∧ Going v.iov_len x ∧ x.off = 0 := by
  by_cases hlen : v.iov_len = 0
  · refine Or.inl ⟨hlen, ?_⟩
    simp [start, Writev.writes, Xfer.loop, Fn.repeats, Fn.sends, hlen]
  · refine Or.inr ?_
    have hpos : 0 < v.iov_len := Nat.pos_of_ne_zero hlen
    simp only [start, Writev.writes, Xfer.loop, Fn.repeats, if_true]
    rw [if_neg (by simp [hlen])]
    exact ⟨_, rfl, ⟨rfl, rfl, by simp, by simpa using hpos⟩, rfl⟩

/-- The loop goes on to the next vector that has octets, or to its end, with the same account. The
induction is on the vectors that are left. -/
theorem loop_accounted (errno : ℤ) (rest : List Iovec) : ∀ {i : ℕ} {rv : ℤ}, iov.drop i = rest →
    Account iov i 0 rv w → i ≤ iov.length → (Writev.loop errno i rv rest).pos.Accounted iov w := by
  induction rest with
  | nil =>
    intro i rv hrest h hi
    have hend : i = iov.length := le_antisymm hi (List.drop_eq_nil_iff.mp hrest)
    rw [Writev.loop]
    show Account iov iov.length 0 rv w
    rwa [← hend]
  | cons v rest ih =>
    intro i rv hrest h hi
    have hv := getElem?_of_drop hrest
    rw [Writev.loop]
    rcases start_writes v errno with ⟨hlen, x, hx⟩ | ⟨x, hx, hgoing, hoff⟩
    · -- An empty vector.
      rw [hx]
      have hnext : Account iov (i + 1) 0 (ssize (rv + ssize v.iov_len)) w := by
        refine Account.next hv ?_
        rwa [hlen]
      rw [hlen] at hnext
      exact ih (drop_succ hrest) hnext (List.getElem?_eq_some_iff.mp hv).1
    · rw [hx]
      refine ⟨v, x, hrest, Or.inl rfl, hgoing, ?_⟩
      rwa [hoff]

/-- At the start nothing was sent. -/
theorem begin_accounted (iov : List Iovec) (errno : ℤ) :
    (Writev.begin true iov errno).pos.Accounted iov ⟨[], ⟨0, 0, 0⟩⟩ := by
  refine loop_accounted errno iov rfl ?_ (Nat.zero_le _)
  exact Or.inl ⟨rfl, rfl, rfl, rfl, by simp [total, ssize]⟩

/-- In `st_write` of a vector, only a call of the socket sends octets. -/
theorem track_sent {s : Writev} {rest : List Iovec} {pos : Pos} {x : Xfer} {l : Label} {s₁ : State}
    (hs : s.pos = .write i rest rv pos) (hpos : pos = .sock x ∨ pos = .wait x)
    (hstep : Io.step ⟨pos, s.errno⟩ l = some s₁) (s' : Writev) :
    Writev.track w s l s' =
      ⟨w.sent ++ (List.range' x.off l.octets).map (Prod.mk i), w.tally.add l⟩ := by
  rcases hpos with rfl | rfl
  · simp [Writev.track, hs]
  · cases l with
    | sock o => cases hstep
    | poll p => simp [Writev.track, hs, Label.octets]

/-- A step keeps the account. -/
theorem step_accounted {s s' : Writev} {l : Label} (h : s.pos.Accounted iov w)
    (hstep : s.step l = some s') : s'.pos.Accounted iov (Writev.track w s l s') := by
  unfold Writev.step at hstep
  split at hstep
  · next i rest rv pos hs =>
    rw [hs] at h
    obtain ⟨v, x, hrest, hpos, hgoing, hacc⟩ := h
    obtain ⟨s₁, hs₁, rfl⟩ := Option.map_eq_some_iff.mp hstep
    have hv := getElem?_of_drop hrest
    have hlt : i < iov.length := (List.getElem?_eq_some_iff.mp hv).1
    have hgoes := hgoing.step hpos hs₁
    rw [track_sent hs hpos hs₁]
    obtain ⟨pos₁, errno₁⟩ := s₁
    dsimp only at hgoes
    cases hgoes with
    | sock x' going off fails =>
      refine ⟨v, x', hrest, Or.inl rfl, going, ?_⟩
      rw [off]
      exact hacc.accepts fails
    | wait x' going off fails =>
      refine ⟨v, x', hrest, Or.inr rfl, going, ?_⟩
      rw [off]
      exact hacc.accepts fails
    | all y off fails =>
      -- The loop of `st_writev` goes to the next vector, with or without a failure.
      refine loop_accounted _ _ (drop_succ hrest) (Account.next hv ?_) hlt
      rw [← off]
      exact hacc.accepts fails
    | failed y octets fails =>
      refine loop_accounted _ _ (drop_succ hrest) ?_ hlt
      have hoff : x.off < v.iov_len := by
        have hleft := hgoing.left
        have hsum := hgoing.rest
        omega
      rw [octets, List.range'_zero, List.map_nil, List.append_nil]
      exact hacc.fail hv hoff fails octets
  · cases hstep

/-- The account holds after each run. -/
theorem run_accounted {errno : ℤ} {ls : List Label} {s : Writev}
    (hrun : Runs.run Writev.step (Writev.begin true iov errno) ls = some s) :
    s.pos.Accounted iov ⟨Writev.sent (Writev.begin true iov errno) ls, tally ls⟩ := by
  have h := Runs.record_invariant_of_step (I := fun s w => VPos.Accounted iov w s.pos)
    (fun h hstep => step_accounted h hstep) (begin_accounted iov errno) hrun
  have htally : (Runs.record Writev.step Writev.track ⟨[], ⟨0, 0, 0⟩⟩ (Writev.begin true iov errno)
      ls).tally = tally ls := Runs.record_foldl Notes.tally Tally.add (fun _ _ _ _ => rfl) hrun
  rwa [← htally]

/-! ## The vectors put together -/

/-- `SSIZE_MAX`. -/
def SSIZE_MAX : ℕ := 2 ^ 63 - 1

/-- What `st_write` does with the vectors put together: it returns their length and has sent all
octets in order, or it returns `-1` and has sent a part that does not reach their end. -/
def Concatenates (iov : List Iovec) (sent : List (ℕ × ℕ)) (r : ℤ) : Prop :=
  (r = total iov ∧ sent = positions iov) ∨ (r = -1 ∧ sent <+: positions iov ∧ sent ≠ positions iov)

/-- The length of the vectors that the first `n` octets fill. -/
def filled : List Iovec → ℕ → ℕ
  | [], _ => 0
  | v :: rest, n => if v.iov_len ≤ n then v.iov_len + filled rest (n - v.iov_len) else 0

/-- Nothing fails, and the length is a `ssize_t`. Or no octet is accepted after the first failure, and
there are as many failures as the vectors that were filled before it have octets, and one more. -/
def Undisturbed (iov : List Iovec) (t : Tally) : Prop :=
  (t.failures = 0 ∧ total iov ≤ SSIZE_MAX) ∨
    (t.failures ≠ 0 ∧ t.after = 0 ∧ (t.failures : ℤ) ≡ filled iov t.before + 1 [ZMOD 2 ^ 64])

/-- Octets within a vector fill only those before it. -/
theorem filled_eq {v : Iovec} {f k : ℕ} (hv : iov[f]? = some v) (hk : k < v.iov_len) :
    filled iov (total (iov.take f) + k) = total (iov.take f) := by
  induction f generalizing iov with
  | zero =>
    cases iov with
    | nil => cases hv
    | cons u rest =>
      cases hv
      simp [filled, total, Nat.not_le.mpr hk]
  | succ f ih =>
    cases iov with
    | nil => cases hv
    | cons u rest =>
      have hrest := @ih rest hv
      have htotal : total ((u :: rest).take (f + 1)) = u.iov_len + total (rest.take f) := by
        simp [total]
      rw [htotal, filled, if_pos (by omega), ← hrest]
      congr 2
      omega

/-- A length is its own value if it is a `ssize_t`. -/
theorem ssize_eq_iff {n : ℕ} : ssize n = n ↔ n ≤ SSIZE_MAX := by
  rw [ssize, SSIZE_MAX, Int.bmod_eq_iff (by norm_num), sub_self]
  norm_num
  omega

/-- A sum has the value `-1` if it is `-1` up to multiples of `2^64`. -/
theorem ssize_eq_neg_one {z : ℤ} : ssize z = -1 ↔ z ≡ -1 [ZMOD 2 ^ 64] := by
  rw [ssize, Int.bmod_eq_iff (by norm_num), Int.modEq_iff_dvd]
  norm_num

/-- An octet that is missing in the vector `f` is missing in what was sent. -/
theorem Broken.sent_ne {f k g : ℕ} {tail : List (ℕ × ℕ)} (h : Broken iov i off rv w f k g tail) :
    (f, k) ∉ w.sent := by
  rw [h.sent]
  simp only [List.mem_append, not_or]
  refine ⟨⟨?_, ?_⟩, ?_⟩
  · simp only [positions, List.mem_flatMap, List.mem_map, not_exists, not_and]
    rintro ⟨v, j⟩ hj n - heq
    cases heq
    have hlt := (List.mem_zipIdx hj).2.1
    rw [List.length_take] at hlt
    omega
  · simp
  · intro hmem
    exact lt_irrefl _ (h.behind _ hmem)

/-- The octets of the first vectors come first. -/
theorem positions_take_isPrefix (iov : List Iovec) (i : ℕ) :
    positions (iov.take i) <+: positions iov := by
  have hsplit : iov.zipIdx = (iov.take i).zipIdx ++ (iov.drop i).zipIdx (iov.take i).length := by
    conv_lhs => rw [← List.take_append_drop i iov, List.zipIdx_append]
    simp
  rw [positions, positions, hsplit, List.flatMap_append]
  exact List.prefix_append _ _

/-- The first offsets of a vector come first. -/
theorem range_isPrefix {k n : ℕ} (h : k ≤ n) : List.range k <+: List.range n := by
  obtain ⟨m, rfl⟩ := Nat.exists_eq_add_of_le h
  rw [List.range_add]
  exact List.prefix_append _ _

/-- The octets before the gap, and the first one in it. -/
theorem gap_isPrefix {v : Iovec} {f k : ℕ} (hv : iov[f]? = some v) (hk : k < v.iov_len) :
    positions (iov.take f) ++ (List.range k).map (Prod.mk f) ++ [(f, k)] <+: positions iov := by
  refine List.IsPrefix.trans ?_ (positions_take_isPrefix iov (f + 1))
  have hrange : (List.range k).map (Prod.mk f) ++ [(f, k)] = (List.range (k + 1)).map (Prod.mk f) := by
    simp [List.range_succ]
  rw [positions_take_succ hv, List.append_assoc, hrange]
  exact (List.prefix_append_right_inj _).mpr ((range_isPrefix hk).map _)

/-- Behind a gap, no octet may follow. -/
theorem Broken.prefix_iff {f k g : ℕ} {tail : List (ℕ × ℕ)} (h : Broken iov i off rv w f k g tail) :
    w.sent <+: positions iov ↔ w.tally.after = 0 := by
  obtain ⟨v, hv, hk⟩ := h.gap
  have hgap := gap_isPrefix hv hk
  rw [h.after, List.length_eq_zero_iff]
  constructor
  · intro hsent
    -- Two prefixes of one list are comparable, and the missing octet is in only one of them.
    rcases List.prefix_or_prefix_of_prefix hgap hsent with hle | hle
    · exact absurd (hle.subset (by simp)) h.sent_ne
    · rcases List.prefix_concat_iff.mp hle with heq | hle
      · exact absurd (by rw [heq]; simp) h.sent_ne
      · rw [h.sent] at hle
        have hlen := hle.length_le
        rw [List.length_append] at hlen
        exact List.length_eq_zero_iff.mp (by omega)
  · intro htail
    rw [h.sent, htail, List.append_nil]
    exact (List.prefix_append _ _).trans hgap

/-- After a failure the call is one of `st_write` exactly if the condition holds. -/
theorem Broken.concatenates_iff {f k g : ℕ} {tail : List (ℕ × ℕ)}
    (h : Broken iov i off rv w f k g tail) :
    Concatenates iov w.sent rv ↔ Undisturbed iov w.tally := by
  obtain ⟨v, hv, hk⟩ := h.gap
  have hne : w.sent ≠ positions iov := by
    intro heq
    refine h.sent_ne ?_
    rw [heq]
    exact (gap_isPrefix hv hk).subset (by simp)
  have hfilled : filled iov w.tally.before = total (iov.take f) := by
    rw [h.before, filled_eq hv hk]
  -- Without octets behind the gap, no later vector adds to the sum.
  have hrv : w.tally.after = 0 → (rv = -1 ↔
      (w.tally.failures : ℤ) ≡ filled iov w.tally.before + 1 [ZMOD 2 ^ 64]) := by
    intro hafter
    have hg : g = 0 := by
      have hlater := h.later
      omega
    rw [h.rv, hg, ssize_eq_neg_one, hfilled, Int.modEq_iff_dvd, Int.modEq_iff_dvd]
    push_cast
    rw [show (-1 : ℤ) - (total (iov.take f) + 0 - w.tally.failures) =
      -((total (iov.take f) + 1) - w.tally.failures) by ring, Int.dvd_neg]
  unfold Concatenates Undisturbed
  rw [h.prefix_iff]
  constructor
  · rintro (⟨-, heq⟩ | ⟨hr, hafter, -⟩)
    · exact absurd heq hne
    · exact Or.inr ⟨h.pos.ne', hafter, (hrv hafter).mp hr⟩
  · rintro (⟨hzero, -⟩ | ⟨-, hafter, hmod⟩)
    · exact absurd hzero h.pos.ne'
    · exact Or.inr ⟨(hrv hafter).mpr hmod, hafter, hne⟩

/-- Without a failure the call is one of `st_write` exactly if its length is a `ssize_t`. -/
theorem Whole.concatenates_iff (h : Whole iov iov.length 0 rv w) :
    Concatenates iov w.sent rv ↔ Undisturbed iov w.tally := by
  have hsent : w.sent = positions iov := by
    rw [h.sent]
    simp
  have hrv : rv = ssize (total iov) := by
    rw [h.rv, List.take_length]
  unfold Concatenates Undisturbed
  rw [hsent, hrv, ssize_eq_iff, h.failures]
  simp

/-- As long as nothing has failed, the octets that were sent are the first ones. -/
theorem Whole.isPrefix (h : Whole iov i off rv w) {v : Iovec} (hv : iov[i]? = some v)
    (hoff : off ≤ v.iov_len) : w.sent <+: positions iov := by
  refine List.IsPrefix.trans ?_ (positions_take_isPrefix iov (i + 1))
  rw [h.sent, positions_take_succ hv]
  exact (List.prefix_append_right_inj _).mpr ((range_isPrefix hoff).map _)

/-- The octets that were sent are those at the beginning of the vectors, unless some were accepted
behind a failure. -/
theorem VPos.Accounted.prefix_iff {pos : VPos} (h : pos.Accounted iov w) :
    w.sent <+: positions iov ↔ w.tally.after = 0 := by
  cases pos with
  | write i rest rv pos =>
    obtain ⟨v, x, hrest, -, hgoing, hwhole | ⟨f, k, g, tail, hbroken⟩⟩ := h
    · have hle : x.off ≤ v.iov_len := by
        have hleft := hgoing.left
        have hsum := hgoing.rest
        omega
      exact iff_of_true (hwhole.isPrefix (getElem?_of_drop hrest) hle) hwhole.after
    · exact hbroken.prefix_iff
  | done rv =>
    rcases h with hwhole | ⟨f, k, g, tail, hbroken⟩
    · refine iff_of_true ?_ hwhole.after
      rw [hwhole.sent]
      simp
    · exact hbroken.prefix_iff

/-- `st_writev` is `st_write` of the vectors put together, as far as it is. For all vectors and every
sequence of results of the socket and of `st_netfd_poll`: the octets sent are in order and without a
gap exactly if none is accepted after a failure; and when `st_writev` returns, it has sent all octets
and returns their number, or has sent a part and returns `-1`, exactly if the results are
`Undisturbed`. With `NULL` for the descriptor it returns `0`, which is right for no octets only. -/
theorem run_writev_iff (fd : Bool) (iov : List Iovec) (errno : ℤ) (ls : List Label) (s : Writev)
    (hrun : Runs.run Writev.step (Writev.begin fd iov errno) ls = some s) :
    let sent := Writev.sent (Writev.begin fd iov errno) ls
    (sent <+: positions iov ↔ (tally ls).after = 0) ∧
      ∀ r, s.pos = .done r →
        (Concatenates iov sent r ↔ if fd then Undisturbed iov (tally ls) else total iov = 0) := by
  cases fd with
  | true =>
    have h := run_accounted hrun
    refine ⟨h.prefix_iff, fun r hr => ?_⟩
    rw [hr] at h
    rcases h with hwhole | ⟨f, k, g, tail, hbroken⟩
    · exact hwhole.concatenates_iff
    · exact hbroken.concatenates_iff
  | false =>
    -- The call has returned when it begins.
    cases ls with
    | cons l ls => cases hrun
    | nil =>
      cases hrun
      refine ⟨iff_of_true List.nil_prefix rfl, fun r hr => ?_⟩
      cases hr
      have hsent : Writev.sent (Writev.begin false iov errno) [] = [] := rfl
      simp only [Concatenates, hsent, Bool.false_eq_true, if_false]
      constructor
      · rintro (⟨htotal, -⟩ | ⟨hneg, -⟩)
        · exact_mod_cast htotal.symm
        · cases hneg
      · intro htotal
        refine Or.inl ⟨by exact_mod_cast htotal.symm, (List.length_eq_zero_iff.mp ?_).symm⟩
        rw [positions_length, htotal]

/-- Three octets and two. -/
def fiveOctets : List Iovec := [⟨fun i => UInt8.ofNat i, 3⟩, ⟨fun i => UInt8.ofNat (10 + i), 2⟩]

/-- The socket takes the first vector in two parts, and the second one after it was interrupted. -/
def takesFive : List Label :=
  [.sock (.ok [0, 1]), .poll (.ready false), .sock (.ok [2]), .sock (.error 10004),
    .sock (.ok [10, 11])]

/-- All five octets are sent, and the call returns their number. -/
theorem run_writev_iff_takesFive : ∃ s, Runs.run Writev.step (Writev.begin true fiveOctets 0) takesFive =
      some s ∧ s.pos = .done 5 ∧
    Concatenates fiveOctets (Writev.sent (Writev.begin true fiveOctets 0) takesFive) 5 := by
  refine ⟨(Runs.run Writev.step (Writev.begin true fiveOctets 0) takesFive).get (by decide), by simp,
    rfl, ?_⟩
  exact ((run_writev_iff true fiveOctets 0 takesFive _ (Option.some_get (by decide)).symm).2 5 rfl).mpr
    (Or.inl ⟨by decide, by decide⟩)

/-- The connection is reset within the first vector, and the socket takes the second one. -/
def skipsFirst : List Label := [.sock (.ok [0]), .poll (.ready false), .sock (.error 10054),
  .sock (.ok [10, 11])]

/-- Then `st_writev` returns `1`, which is neither the number of octets nor `-1`. -/
theorem run_writev_skips : ∃ s, Runs.run Writev.step (Writev.begin true fiveOctets 0) skipsFirst =
      some s ∧ s.pos = .done 1 ∧
    ¬Concatenates fiveOctets (Writev.sent (Writev.begin true fiveOctets 0) skipsFirst) 1 := by
  refine ⟨_, rfl, rfl, ?_⟩
  rintro (⟨h, -⟩ | ⟨h, -⟩)
  · revert h
    decide
  · revert h
    decide

end StWin.Io
