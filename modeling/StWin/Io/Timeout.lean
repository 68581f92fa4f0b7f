import StWin.Io.Model
import Mathlib.Tactic.Linarith

/-!
# Timeouts of the transfer functions

An expired wait is a `0` from `st_poll`, and `st_netfd_poll` passes it on as a `0`: to the loops this
is the same as a descriptor that is ready, and they call the socket again. So a call honours its
timeout exactly if none of its waits expires (`run_honoured_iff`).
-/

namespace StWin.Io

/-- The label of a wait that has expired. -/
def expiry : Label := .poll .expired

/-- The first wait of the call that expires makes the call return `-1` with `ETIME`, so there is no
other. -/
structure Honoured (c : Call) (errno : ℤ) (ls : List Label) : Prop where
  returns : ∀ ls₁ ls₂, ls = ls₁ ++ expiry :: ls₂ → expiry ∉ ls₁ →
    ∃ x, Runs.run step (start c errno) (ls₁ ++ [expiry]) = some ⟨.done x (-1), ETIME⟩
  once : ls.count expiry ≤ 1

/-! ## A call that waits has octets left -/

/-- The cast to a signed type never makes a number larger. -/
theorem bmod_le {x : ℤ} (hx : 0 ≤ x) (m : ℕ) : Int.bmod x m ≤ x := by
  have hm : (0 : ℤ) ≤ m := Int.natCast_nonneg m
  have hdiv : 0 ≤ m * (x / m) := mul_nonneg hm (Int.ediv_nonneg hx hm)
  have heq := Int.mul_ediv_add_emod x m
  rw [Int.bmod]
  split
  · linarith
  · linarith

/-- A function that repeats its call has octets left. -/
def Xfer.Left (x : Xfer) : Prop := x.fn.repeats = true → 0 < x.nleft

/-- A call that has not returned has octets left. -/
def Pos.Left : Pos → Prop
  | .sock x => x.Left
  | .wait x => x.Left
  | .done _ _ => True

variable {x : Xfer} {s s' : State} {l : Label}

/-- Where the loop goes on, octets are left. -/
theorem Xfer.loop_left (x : Xfer) : x.loop.Left := by
  unfold Xfer.loop
  by_cases h : x.fn.repeats = true ∧ x.nleft ≤ 0
  · rw [if_pos h]
    trivial
  · rw [if_neg h]
    intro hrep
    by_contra hc
    exact h ⟨hrep, not_lt.mp hc⟩

/-- With octets left, the loop goes on. -/
theorem Xfer.Left.loop_eq (h : x.Left) : x.loop = .sock x := by
  refine if_neg ?_
  rintro ⟨hrep, hle⟩
  exact absurd (h hrep) (not_lt.mpr hle)

/-- A part of what was asked for leaves a rest. -/
theorem Xfer.Left.progress (h : x.Left) {n : ℕ} (hn : (n : ℤ) ≤ x.request) : (x.progress n).Left := by
  have hrest : x.fn.repeats = true → (n : ℤ) ≠ x.nleft → 0 < x.nleft - n := by
    intro hrep hne
    have hle : x.request ≤ x.nleft := bmod_le (h hrep).le _
    have hlt : (n : ℤ) < x.nleft := lt_of_le_of_ne (hn.trans hle) hne
    linarith
  unfold Xfer.progress
  split
  · next hfn =>
    dsimp only
    split_ifs with hend
    · trivial
    · intro hrep
      refine hrest hrep ?_
      intro heq
      exact hend (Or.inl (by rw [heq, sub_self]))
  · next hfn =>
    split_ifs with hend
    · trivial
    · exact fun hrep => hrest hrep hend
  all_goals trivial

/-- An error that lets the call go on leaves as many octets as before. -/
theorem Xfer.Left.fail (h : x.Left) (errno : ℤ) : (x.fail errno).Left := by
  unfold Xfer.fail
  split
  · exact x.loop_left
  · split
    · trivial
    · exact h

/-- A call begins with octets left, or returns. -/
theorem start_left (c : Call) (errno : ℤ) : (start c errno).pos.Left := by
  unfold start
  dsimp only
  split_ifs
  · exact Xfer.loop_left _
  · trivial

/-- Each step leaves octets, or the call returns. -/
theorem step_left (h : s.pos.Left) (hstep : step s l = some s') : s'.pos.Left := by
  unfold step at hstep
  split at hstep
  · next _ x o hpos =>
    rw [hpos] at h
    split_ifs at hstep with hallows
    cases o with
    | ok data =>
      cases hstep
      have hstore : (x.store data).Left := h
      exact hstore.progress hallows.1
    | error syserr =>
      cases hstep
      exact Xfer.Left.fail h _
  · next _ x p hpos =>
    dsimp only at hstep
    cases hstep
    dsimp only
    split_ifs
    · trivial
    · exact x.loop_left
  · cases hstep

/-- Throughout a run octets are left, until the call returns. -/
theorem run_left {c : Call} {errno : ℤ} {ls : List Label}
    (hrun : Runs.run step (start c errno) ls = some s) : s.pos.Left :=
  Runs.run_invariant_of_step (I := fun s => s.pos.Left) (fun h hstep => step_left h hstep)
    (start_left c errno) hrun

/-! ## An expired wait -/

/-- `st_netfd_poll` does not report it. -/
theorem netfdPoll_expired (errno : ℤ) : netfdPoll errno .expired = (0, errno) := rfl

/-- The call goes on to call the socket again, and `errno` stays what it was. -/
theorem step_expiry (h : s.pos.Left) (hstep : step s expiry = some s') :
    ∃ x, s.pos = .wait x ∧ s' = ⟨.sock x, s.errno⟩ := by
  unfold step expiry at hstep
  split at hstep
  · next hl => cases hl
  · next x p hpos hl =>
    cases hl
    rw [hpos] at h
    have hloop : x.loop = .sock x := Xfer.Left.loop_eq h
    rw [netfdPoll_expired, hloop] at hstep
    cases hstep
    exact ⟨x, hpos, rfl⟩
  · cases hstep

/-- A call honours its timeout if and only if none of its waits expires. -/
theorem run_honoured_iff (c : Call) (errno : ℤ) (ls : List Label)
    (hrun : Runs.run step (start c errno) ls = some s) :
    Honoured c errno ls ↔ expiry ∉ ls := by
  constructor
  · -- Behind the first wait that expires, the socket is called again.
    intro h hmem
    obtain ⟨ls₁, ls₂, rfl, hnot⟩ := List.eq_append_cons_of_mem hmem
    obtain ⟨x, hx⟩ := h.returns ls₁ ls₂ rfl hnot
    rw [Runs.run_append, Option.bind_eq_some_iff] at hx
    obtain ⟨s₁, hs₁, hx⟩ := hx
    obtain ⟨s₂, hs₂, hx⟩ := Runs.run_cons hx
    cases hx
    obtain ⟨y, -, heq⟩ := step_expiry (run_left hs₁) hs₂
    cases heq
  · intro hnot
    refine ⟨fun ls₁ ls₂ heq _ => absurd ?_ hnot, ?_⟩
    · rw [heq]
      simp
    · rw [List.count_eq_zero_of_not_mem hnot]
      exact zero_le_one

/-- A name server's reply is awaited. -/
def awaitsReply : Call := ⟨.recvfrom, true, 1024, fun _ => 0⟩

/-- The reply comes before the timeout. -/
def answers : List Label :=
  [.sock (.error WSAEWOULDBLOCK), .poll (.ready false), .sock (.ok [1, 2])]

/-- The run is possible, and no wait expires in it. -/
theorem run_honoured_iff_answers : ∃ s, Runs.run step (start awaitsReply 0) answers = some s ∧
    Honoured awaitsReply 0 answers := by
  refine ⟨(Runs.run step (start awaitsReply 0) answers).get (by decide), by simp, ?_⟩
  exact (run_honoured_iff awaitsReply 0 answers (Option.some_get (by decide)).symm).mpr (by decide)

/-- No reply comes, and two waits expire. -/
def silence : List Label :=
  [.sock (.error WSAEWOULDBLOCK), expiry, .sock (.error WSAEWOULDBLOCK), expiry]

/-- Then the call has not returned. -/
theorem run_silence_retries : ∃ s x, Runs.run step (start awaitsReply 0) silence = some s ∧
    s.pos = .sock x ∧ ¬Honoured awaitsReply 0 silence := by
  refine ⟨_, _, rfl, rfl, fun h => ?_⟩
  exact absurd h.once (by decide)

end StWin.Io
