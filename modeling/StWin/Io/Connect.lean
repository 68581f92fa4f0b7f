import StWin.Io.Model

/-!
# Connecting

`st_connect` of `src/io_win.c`. A connection that is pending is to be waited for in `st_netfd_poll`, and
then the status of the socket tells whether it was set up. But the test for `EAGAIN` at the head of the
loop, which is what a call that would block is translated to, goes back to `connect` at once. The wait
stands behind two further tests of the error code, and no code passes both: it is never reached
(`Connect.step_connect`). So `st_connect` does what it should exactly if no call would block, and two
borderline cases are left out (`run_connect_iff`).
-/

namespace StWin.Io

/-- `WSAEISCONN`. -/
def WSAEISCONN : ℤ := 10056

/-! ## The model -/

/-- What `connect` returns. -/
inductive Connected where
  | ok
  | error (syserr : ℤ)
  deriving DecidableEq

/-- What `getsockopt` returns for `SO_ERROR`. -/
inductive SoError where
  | error (syserr : ℤ)
  /-- The status `err`. The translation of `err` reads a local that is not initialized, and `syserr` is
  the value of it. -/
  | status (err syserr : ℤ)
  deriving DecidableEq

/-- Where a call of `st_connect` is. -/
inductive CPos where
  /-- About to call `connect`. -/
  | connect
  /-- In `st_netfd_poll`. -/
  | poll
  /-- About to ask for the status of the socket. -/
  | sockopt
  /-- It has returned. -/
  | done (r : ℤ)
  deriving DecidableEq

/-- A call of `st_connect`, its local `err`, and `errno`. -/
structure Connect where
  pos : CPos
  err : ℤ
  errno : ℤ
  deriving DecidableEq

/-- What a step is told. -/
inductive CLabel where
  | connect (r : Connected)
  | poll (p : Polled)
  | sockopt (o : SoError)
  deriving DecidableEq

namespace Connect

/-- `st_connect` begins. -/
def begin (fd : Bool) (errno : ℤ) : Connect := ⟨if fd then .connect else .done 0, 0, errno⟩

/-- `connect` has failed, and `ecode` is the translation. -/
def fail (s : Connect) (ecode : ℤ) : Connect :=
  let s := { s with errno := ecode }
  -- `continue`.
  if ecode = EAGAIN then s
  else if ecode = EISCONN then { s with pos := .done 0 }
  else if ecode ≠ EINTR then
    if ecode ≠ EAGAIN ∧ ecode ≠ EINTR then { s with pos := .done (-1) }
    -- Wait until the socket becomes writable.
    else { s with pos := .poll }
  else { s with err := 1 }

/-- One call. -/
def step (s : Connect) (l : CLabel) : Option Connect :=
  match s.pos, l with
  | .connect, .connect .ok => some { s with pos := .done 0 }
  | .connect, .connect (.error syserr) => some (s.fail (getError syserr))
  | .poll, .poll p =>
    let (rv, errno) := netfdPoll s.errno p
    some { s with pos := if rv < 0 then .done (-1) else .sockopt, errno := errno }
  -- Here the error of the system is not translated.
  | .sockopt, .sockopt (.error _) => some { s with pos := .done (-1) }
  | .sockopt, .sockopt (.status err syserr) =>
    if err ≠ 0 then some { s with pos := .done (-1), err := err, errno := getError syserr }
    else some { s with pos := .done 0, err := err }
  | _, _ => none

end Connect

/-! ## What a call should do -/

/-- The wait or the check of the status has failed, with this error. -/
def CLabel.failure : CLabel → Option ℤ
  | .connect _ => none
  | .poll (.failed errno) => some errno
  | .poll (.ready true) => some EBADF
  | .poll _ => none
  | .sockopt (.error syserr) => some (getError syserr)
  | .sockopt (.status err _) => if err ≠ 0 then some (getError err) else none

/-- The connection was reported established. -/
def CLabel.Established (l : CLabel) : Prop :=
  l = .connect .ok ∨ l = .connect (.error WSAEISCONN) ∨ ∃ syserr, l = .sockopt (.status 0 syserr)

/-- A step that is right: `connect` would block, and the call waits; the wait or the status is an
error, and the call returns `-1` with the translation; or it returns `0`, and the connection was
reported established. -/
structure Right (l : CLabel) (s : Connect) : Prop where
  waits : l = .connect (.error WSAEWOULDBLOCK) → s.pos = .poll
  fails : ∀ e, l.failure = some e → s.pos = .done (-1) ∧ s.errno = e
  established : s.pos = .done 0 → l.Established

/-- All steps of a call are right, and it does not return `0` without one. -/
def Connects (fd : Bool) (errno : ℤ) (ls : List CLabel) : Prop :=
  (Connect.begin fd errno).pos ≠ .done 0 ∧
    Runs.Meets Connect.step (fun s l => ∀ s', s.step l = some s' → Right l s')
      (Connect.begin fd errno) ls

/-- `connect` does not block, and does not fail with the error code of the system that is spelt as
`EISCONN`. -/
def CLabel.Plain (l : CLabel) : Prop :=
  l ≠ .connect (.error WSAEWOULDBLOCK) ∧ l ≠ .connect (.error EISCONN)

instance (l : CLabel) : Decidable l.Plain := inferInstanceAs (Decidable (_ ∧ _))

/-! ## The translation -/

/-- What the table translates is in the table. -/
theorem mem_wsaErrors {syserr e : ℤ} (h : wsaErrors.lookup syserr = some e) : (syserr, e) ∈ wsaErrors := by
  obtain ⟨l₁, l₂, heq, -⟩ := List.lookup_eq_some_iff.mp h
  rw [heq]
  simp

/-- A code is its own translation, or it is in the table. -/
theorem getError_eq {syserr e : ℤ} (h : getError syserr = e) :
    syserr = e ∨ (syserr, e) ∈ wsaErrors := by
  unfold getError at h
  by_cases hlt : syserr < WSABASEERR
  · rw [if_pos hlt] at h
    exact Or.inl h
  · rw [if_neg hlt] at h
    cases hlookup : wsaErrors.lookup syserr with
    | none =>
      rw [hlookup, Option.getD_none] at h
      exact Or.inl h
    | some e' =>
      rw [hlookup, Option.getD_some] at h
      exact Or.inr (h ▸ mem_wsaErrors hlookup)

/-- Only two errors are translated to `EISCONN`. -/
theorem getError_eq_EISCONN {syserr : ℤ} (h : getError syserr = EISCONN) :
    syserr = EISCONN ∨ syserr = WSAEISCONN := by
  rcases getError_eq h with heq | hmem
  · exact Or.inl heq
  · have hall : ∀ q ∈ wsaErrors, q.2 = EISCONN → q.1 = WSAEISCONN := by decide
    exact Or.inr (hall _ hmem rfl)

/-! ## Runs -/

namespace Connect

/-- Where the call is after `connect` has failed: the wait is not reached. -/
theorem fail_pos {s : Connect} (hpos : s.pos = .connect) (ecode : ℤ) : (s.fail ecode).pos =
    if ecode = EISCONN then .done 0
    else if ecode = EAGAIN ∨ ecode = EINTR then .connect
    else .done (-1) := by
  unfold fail
  dsimp only
  by_cases hagain : ecode = EAGAIN
  · have hconn : ¬ecode = EISCONN := by
      rw [hagain]
      decide
    rw [if_pos hagain, if_neg hconn, if_pos (Or.inl hagain)]
    exact hpos
  · rw [if_neg hagain]
    by_cases hconn : ecode = EISCONN
    · rw [if_pos hconn, if_pos hconn]
    · rw [if_neg hconn, if_neg hconn]
      by_cases hintr : ecode = EINTR
      · rw [if_neg (not_not.mpr hintr), if_pos (Or.inr hintr)]
        exact hpos
      · rw [if_pos hintr, if_pos ⟨hagain, hintr⟩, if_neg (not_or.mpr ⟨hagain, hintr⟩)]

/-- The step after a failure of `connect` is right if the call need not wait, and if an `EISCONN` is the
translation of the system's own code for it. -/
theorem right_fail_iff {s : Connect} (hpos : s.pos = .connect) (syserr : ℤ) :
    Right (.connect (.error syserr)) (s.fail (getError syserr)) ↔
      syserr ≠ WSAEWOULDBLOCK ∧ (getError syserr = EISCONN → syserr = WSAEISCONN) := by
  have hfail := fail_pos hpos (getError syserr)
  constructor
  · intro h
    refine ⟨?_, fun hconn => ?_⟩
    · rintro rfl
      have hwaits := h.waits rfl
      rw [hfail] at hwaits
      revert hwaits
      decide
    · rw [if_pos hconn] at hfail
      rcases h.established hfail with heq | heq | ⟨_, heq⟩
      · cases heq
      · cases heq
        rfl
      · cases heq
  · rintro ⟨hblock, hconn⟩
    refine ⟨fun heq => ?_, fun e he => (nomatch he), fun hdone => Or.inr (Or.inl ?_)⟩
    · cases heq
      exact absurd rfl hblock
    · -- Only `EISCONN` returns `0`.
      rw [hfail] at hdone
      by_cases heq : getError syserr = EISCONN
      · rw [hconn heq]
      · rw [if_neg heq] at hdone
        split at hdone <;> cases hdone

/-- What `connect` reports decides whether the loop goes on or the call returns. The wait is not
reached, and the step is right exactly if the report is plain. -/
theorem step_connect {s s' : Connect} {l : CLabel} (hpos : s.pos = .connect)
    (hstep : s.step l = some s') :
    (s'.pos = .connect ∨ ∃ r, s'.pos = .done r) ∧ (Right l s' ↔ l.Plain) := by
  unfold step at hstep
  rw [hpos] at hstep
  cases l with
  | poll p => cases hstep
  | sockopt o => cases hstep
  | connect r =>
    cases r with
    | ok =>
      cases hstep
      refine ⟨Or.inr ⟨0, rfl⟩, iff_of_true ⟨?_, ?_, ?_⟩ ⟨?_, ?_⟩⟩
      · exact fun h => nomatch h
      · exact fun e h => nomatch h
      · exact fun _ => Or.inl rfl
      · exact fun h => nomatch h
      · exact fun h => nomatch h
    | error syserr =>
      cases hstep
      constructor
      · rw [fail_pos hpos]
        split
        · exact Or.inr ⟨0, rfl⟩
        · split
          · exact Or.inl rfl
          · exact Or.inr ⟨-1, rfl⟩
      · rw [right_fail_iff hpos, CLabel.Plain, ne_eq, ne_eq, ne_eq, CLabel.connect.injEq,
          Connected.error.injEq, CLabel.connect.injEq, Connected.error.injEq]
        refine and_congr_right fun _ => ⟨fun hconn heq => ?_, fun hne hconn => ?_⟩
        · rw [heq] at hconn
          exact absurd (hconn (by decide)) (by decide)
        · exact (getError_eq_EISCONN hconn).resolve_left hne

/-- After it has returned, there is no step. -/
theorem run_done {s s' : Connect} {ls : List CLabel} {r : ℤ} (hpos : s.pos = .done r)
    (hrun : Runs.run step s ls = some s') : ls = [] := by
  cases ls with
  | nil => rfl
  | cons l ls =>
    obtain ⟨s₁, hs₁, -⟩ := Runs.run_cons hrun
    unfold step at hs₁
    rw [hpos] at hs₁
    cases hs₁

/-- All steps of a call at `connect` are right exactly when all of its answers are plain. The induction is
on the answers. -/
theorem meets_iff {s' : Connect} (ls : List CLabel) : ∀ {s : Connect}, s.pos = .connect →
    Runs.run step s ls = some s' →
    (Runs.Meets step (fun s l => ∀ s', s.step l = some s' → Right l s') s ls ↔ ∀ l ∈ ls, l.Plain) := by
  induction ls with
  | nil => exact fun _ _ => by simp [Runs.Meets]
  | cons l ls ih =>
    intro s hpos hrun
    obtain ⟨s₁, hs₁, hrest⟩ := Runs.run_cons hrun
    obtain ⟨hnext, hright⟩ := step_connect hpos hs₁
    have hone : (∀ s', s.step l = some s' → Right l s') ↔ l.Plain := by
      rw [← hright]
      refine ⟨fun h => h s₁ hs₁, fun h s' hs' => ?_⟩
      rw [hs₁] at hs'
      cases hs'
      exact h
    rw [Runs.Meets, hone, hs₁, List.forall_mem_cons]
    refine and_congr_right fun _ => ?_
    rcases hnext with hnext | ⟨r, hnext⟩
    · exact ih hnext hrest
    · rw [run_done hnext hrest]
      simp [Runs.Meets]

end Connect

/-- A pending connection is waited for, as far as none is pending. For every sequence of results of
`connect`, of `st_netfd_poll`, and of the check of the status: the call waits whenever `connect` would
block, returns `-1` with the translated error if the wait or the check fails, and returns `0` only if
the connection was reported established, exactly if there is a descriptor and each report of `connect`
is plain. -/
theorem run_connect_iff (fd : Bool) (errno : ℤ) (ls : List CLabel) (s : Connect)
    (hrun : Runs.run Connect.step (Connect.begin fd errno) ls = some s) :
    Connects fd errno ls ↔ fd = true ∧ ∀ l ∈ ls, l.Plain := by
  unfold Connects
  cases fd with
  | false =>
    refine iff_of_false ?_ ?_
    · rintro ⟨h, -⟩
      exact h rfl
    · rintro ⟨h, -⟩
      cases h
  | true =>
    have hpos : (Connect.begin true errno).pos = .connect := rfl
    rw [Connect.meets_iff ls hpos hrun, hpos]
    simp

/-- The call is interrupted, and then succeeds. -/
def interruptedOnce : List CLabel := [.connect (.error 10004), .connect .ok]

/-- The run is possible, and the call returns 0 with a connection. -/
theorem run_connect_iff_interruptedOnce :
    ∃ s, Runs.run Connect.step (Connect.begin true 0) interruptedOnce = some s ∧ s.pos = .done 0 ∧
      Connects true 0 interruptedOnce := by
  refine ⟨(Runs.run Connect.step (Connect.begin true 0) interruptedOnce).get (by decide), by simp, rfl, ?_⟩
  exact (run_connect_iff true 0 interruptedOnce _ (Option.some_get (by decide)).symm).mpr
    ⟨rfl, by decide⟩

/-- The connection is pending for two calls. -/
def pendingTwice : List CLabel :=
  [.connect (.error WSAEWOULDBLOCK), .connect (.error WSAEWOULDBLOCK)]

/-- Then `st_connect` has called `connect` twice and is about to call it again, without a wait. -/
theorem run_connect_spins :
    ∃ s, Runs.run Connect.step (Connect.begin true 0) pendingTwice = some s ∧ s.pos = .connect ∧
      ¬Connects true 0 pendingTwice := by
  refine ⟨_, rfl, rfl, ?_⟩
  rintro ⟨-, h⟩
  have hpoll : CPos.connect = .poll := (h.head _ rfl).waits rfl
  cases hpoll

end StWin.Io
