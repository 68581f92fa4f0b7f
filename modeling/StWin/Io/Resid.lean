import StWin.Io.Writev

/-!
# Residual counts

`st_writev_resid` and `st_write_resid` of `src/io_win.c` are to leave behind how many octets were not
sent: in the lengths of the vectors, and in `*resid`. They leave it to `st_writev`, which takes the
vectors as `const`: the lengths after the call are those before it. So the count is right exactly if
nothing was sent (`run_resid_iff`).

The declared types of `st_writev_resid` have one level of pointers more than those of `st_writev`. The
vectors and their number are read here as what the pointers point to.
-/

namespace StWin.Io

/-! ## The model -/

/-- A call of `st_writev_resid`: the caller's vectors, and the call of `st_writev`. -/
structure Resid where
  iov : List Iovec
  call : Writev

namespace Resid

/-- `st_writev_resid` begins. -/
def begin (fd : Bool) (iov : List Iovec) (errno : ℤ) : Resid := ⟨iov, .begin fd iov errno⟩

/-- One call of the socket, or one wait. `st_writev` does not assign to the vectors. -/
def step (s : Resid) (l : Label) : Option Resid := (s.call.step l).map fun call => ⟨s.iov, call⟩

/-- What `st_writev_resid` returns. -/
def value (s : Resid) : Option ℤ :=
  match s.call.pos with
  | .done rv => some (if 0 < rv then 0 else -1)
  | .write _ _ _ _ => none

end Resid

/-- `st_write_resid` begins. Its local `iov` is the one vector. -/
def writeResid (fd : Bool) (buf : ℕ → UInt8) (resid : ℕ) (errno : ℤ) : Resid :=
  .begin fd [⟨buf, resid⟩] errno

/-- What `st_write_resid` returns, and `*resid` then, where it was `resid` before. -/
def Resid.ends (fd : Bool) (resid : ℕ) (s : Resid) : Option (ℤ × ℕ) :=
  if fd then do
    let rv ← s.value
    let iov ← s.iov.head?
    some (rv, iov.iov_len)
  else some (0, resid)

/-! ## What is left -/

/-- The number of octets that the socket has accepted. -/
def accepted (ls : List Label) : ℕ := (ls.map Label.octets).sum

/-- The octets accepted and those left are what there was at first, and the call returns `0` exactly if
none is left. -/
def Truthful (resid : ℕ) (ls : List Label) (rv : ℤ) (left : ℕ) : Prop :=
  accepted ls + left = resid ∧ (rv = 0 ↔ left = 0)

/-- Nothing was accepted exactly when no answer accepts an octet. -/
theorem accepted_eq_zero_iff {ls : List Label} : accepted ls = 0 ↔ ∀ l ∈ ls, l.octets = 0 := by
  simp [accepted, List.sum_eq_zero_iff_forall_eq_nat]

/-- The octets before and after a failure are all that were accepted. -/
theorem tally_accepted (ls : List Label) : (tally ls).before + (tally ls).after = accepted ls := by
  have hadd : ∀ t : Tally, (ls.foldl Tally.add t).before + (ls.foldl Tally.add t).after =
      t.before + t.after + accepted ls := by
    induction ls with
    | nil => exact fun _ => rfl
    | cons l ls ih =>
      intro t
      rw [List.foldl_cons, ih]
      simp only [Tally.add, accepted, List.map_cons, List.sum_cons]
      split_ifs <;> omega
  rw [tally, hadd, Nat.zero_add, Nat.zero_add]

/-- A run of `st_writev_resid` is one of `st_writev`, with the vectors as they were. -/
theorem run_resid {ls : List Label} : ∀ {s s' : Resid}, Runs.run Resid.step s ls = some s' →
    s'.iov = s.iov ∧ Runs.run Writev.step s.call ls = some s'.call := by
  induction ls with
  | nil =>
    intro s s' hrun
    cases hrun
    exact ⟨rfl, rfl⟩
  | cons l ls ih =>
    intro s s' hrun
    obtain ⟨s₁, hs₁, hrest⟩ := Runs.run_cons hrun
    obtain ⟨call, hcall, rfl⟩ := Option.map_eq_some_iff.mp hs₁
    obtain ⟨hiov, hrun'⟩ := ih hrest
    refine ⟨hiov, ?_⟩
    rw [Runs.run, hcall]
    exact hrun'

/-- What `st_writev` returns for one vector, when none of its octets was accepted. -/
theorem Account.one {v : Iovec} {rv : ℤ} {w : Notes} (h : Account [v] 1 0 rv w)
    (hnone : w.tally.before + w.tally.after = 0) :
    rv = if v.iov_len = 0 then 0 else -1 := by
  rcases h with h | ⟨f, k, g, tail, h⟩
  · have hbefore := h.before
    have htotal : total ([v].take 1) = v.iov_len := by simp [total]
    rw [htotal] at hbefore
    rw [if_pos (by omega), h.rv, htotal, show v.iov_len = 0 by omega]
    decide
  · obtain ⟨u, hu, hk⟩ := h.gap
    have hf : f = 0 := Nat.lt_one_iff.mp h.lt
    rw [hf] at hu
    cases hu
    have hlater := h.later
    have hpos := h.pos
    have hle := h.le
    have htotal : total ([v].take f) = 0 := by simp [total, hf]
    rw [if_neg (by omega), h.rv, htotal, show g = 0 by omega, show w.tally.failures = 1 by omega]
    decide

/-- Residual counts tell the truth if nothing was sent. For every buffer, every initial `*resid`, all
vectors, and every sequence of results of the socket and of `st_netfd_poll`: what `st_write_resid`
returns and leaves in `*resid` is right exactly if there are octets to send and none is accepted (with
`NULL` for the descriptor, if there are none); and the lengths that `st_writev_resid` leaves in the
vectors are right exactly if no octet is accepted. -/
theorem run_resid_iff (fd : Bool) (errno : ℤ) (ls : List Label) (s : Resid) :
    (∀ buf resid rv left, Runs.run Resid.step (writeResid fd buf resid errno) ls = some s →
      s.ends fd resid = some (rv, left) →
      (Truthful resid ls rv left ↔
        if fd then 0 < resid ∧ ∀ l ∈ ls, l.octets = 0 else resid = 0)) ∧
    ∀ iov rv, Runs.run Resid.step (.begin fd iov errno) ls = some s → s.value = some rv →
      (accepted ls + total s.iov = total iov ↔ ∀ l ∈ ls, l.octets = 0) := by
  constructor
  · intro buf resid rv left hrun hends
    obtain ⟨hiov, hcall⟩ := run_resid hrun
    have hvec : s.iov = [⟨buf, resid⟩] := hiov
    cases fd with
    | false =>
      cases ls with
      | cons l ls => cases hcall
      | nil =>
        cases hends
        simp [Truthful, accepted]
    | true =>
      obtain ⟨hvalue, rfl⟩ : s.value = some rv ∧ resid = left := by
        simpa [Resid.ends, hvec, Option.bind_eq_some_iff] using hends
      rw [if_pos rfl]
      unfold Truthful
      have hsame : accepted ls + resid = resid ↔ ∀ l ∈ ls, l.octets = 0 := by
        rw [← accepted_eq_zero_iff]
        omega
      rw [hsame, and_comm]
      refine and_congr_left fun hnone => ?_
      -- None is accepted, so the value is that of an empty vector, or of one that has failed.
      have hacc := run_accounted hcall
      unfold Resid.value at hvalue
      split at hvalue
      · next r hdone =>
        rw [hdone] at hacc
        have hr := Account.one hacc (by rw [tally_accepted, accepted_eq_zero_iff.mpr hnone])
        cases hvalue
        rw [hr]
        by_cases hzero : resid = 0
        · simp [hzero]
        · simp [hzero, Nat.pos_of_ne_zero hzero]
      · cases hvalue
  · intro iov rv hrun _
    have hiov : s.iov = iov := (run_resid hrun).1
    rw [hiov, ← accepted_eq_zero_iff]
    omega

/-- Four octets. -/
def fourOctets : ℕ → UInt8 := fun i => UInt8.ofNat i

/-- The connection is reset at once. -/
def resets : List Label := [.sock (.error 10054)]

/-- The run is possible, and the call returns `-1` with all four octets left, as it is. -/
theorem run_resid_iff_resets : ∃ s, Runs.run Resid.step (writeResid true fourOctets 4 0) resets = some s ∧
    s.ends true 4 = some (-1, 4) ∧ Truthful 4 resets (-1) 4 := by
  refine ⟨(Runs.run Resid.step (writeResid true fourOctets 4 0) resets).get (by decide), by simp, rfl, ?_⟩
  exact ((run_resid_iff true 0 resets _).1 fourOctets 4 (-1) 4 (Option.some_get (by decide)).symm
    rfl).mpr ⟨by decide, by decide⟩

/-- The socket takes all octets. -/
def takesAll : List Label := [.sock (.ok [0, 1, 2, 3])]

/-- Then `st_write_resid` returns `0` and leaves `4`; and it returns `-1` for no octets at all. -/
theorem run_resid_stale :
    (∃ s, Runs.run Resid.step (writeResid true fourOctets 4 0) takesAll = some s ∧
      s.ends true 4 = some (0, 4) ∧ ¬Truthful 4 takesAll 0 4) ∧
    ∃ s, Runs.run Resid.step (writeResid true fourOctets 0 0) [] = some s ∧
      s.ends true 0 = some (-1, 0) ∧ ¬Truthful 0 [] (-1) 0 := by
  refine ⟨⟨_, rfl, rfl, ?_⟩, ⟨_, rfl, rfl, ?_⟩⟩
  · rintro ⟨h, -⟩
    revert h
    decide
  · rintro ⟨-, h⟩
    revert h
    decide

end StWin.Io
