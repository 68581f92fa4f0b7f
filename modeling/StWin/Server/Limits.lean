import StWin.Server.Pool
import Mathlib.Tactic.Linarith
import Mathlib.Tactic.Ring
import Mathlib.Algebra.BigOperators.Ring.Finset
import Mathlib.Algebra.Order.BigOperators.Group.Finset

/-!
# The limits of the pool

`set_thread_throttling` rounds the numbers of threads up to whole numbers for each process, so that the
limits of one process are in order (`setThreadThrottling_fits`), but those of all processes together may
exceed what was asked for. With the default for `max_threads`, the sessions of one process need less
than the limit of descriptors and `FD_PER_THREAD` more for each socket (`run_descriptors`).
-/

namespace StWin.Server

/-! ## Rounding -/

/-- The part of one process, as a quotient that is rounded up. -/
theorem perProcess_eq {n vp_count : ℤ} (hn : 0 ≤ n) (hvp : 1 ≤ vp_count) :
    perProcess n vp_count = (n + vp_count - 1) / vp_count := by
  unfold perProcess
  rw [Int.tmod_eq_emod_of_nonneg hn, Int.tdiv_eq_ediv_of_nonneg hn]
  have hdiv := Int.mul_ediv_add_emod n vp_count
  have hmod := Int.emod_nonneg n (by omega : vp_count ≠ 0)
  have hlt := Int.emod_lt_of_pos n (by omega : 0 < vp_count)
  generalize n / vp_count = q at hdiv ⊢
  generalize n % vp_count = r at hdiv hmod hlt ⊢
  subst hdiv
  split_ifs with hr
  · have heq : vp_count * q + r + vp_count - 1 = (r - 1) + vp_count * (q + 1) := by ring
    rw [heq, Int.add_mul_ediv_left _ _ (by omega), Int.ediv_eq_zero_of_lt (by omega) (by omega), zero_add]
  · have heq : vp_count * q + r + vp_count - 1 = (vp_count - 1) + vp_count * q := by
      rw [not_not.mp hr]
      ring
    rw [heq, Int.add_mul_ediv_left _ _ (by omega), Int.ediv_eq_zero_of_lt (by omega) (by omega), zero_add]

/-- A larger total has no smaller part for each process. -/
theorem perProcess_mono {n n' vp_count : ℤ} (hn : 0 ≤ n) (hle : n ≤ n') (hvp : 1 ≤ vp_count) :
    perProcess n vp_count ≤ perProcess n' vp_count := by
  rw [perProcess_eq hn hvp, perProcess_eq (hn.trans hle) hvp]
  exact Int.ediv_le_ediv (by omega) (by omega)

/-- Rounding adds less than one thread for each process. -/
theorem mul_perProcess_lt {n vp_count : ℤ} (hn : 0 ≤ n) (hvp : 1 ≤ vp_count) :
    vp_count * perProcess n vp_count < n + vp_count := by
  rw [perProcess_eq hn hvp]
  have hle := Int.mul_ediv_self_le (x := n + vp_count - 1) (k := vp_count) (by omega)
  omega

/-! ## The parameters -/

/-- The parameters that `set_thread_throttling` leaves, from the totals for all processes. -/
structure Throttled (args th : Throttle) (fdlimit vp_count sk_count waits total : ℤ) : Prop where
  wait_nonneg : 0 ≤ waits
  wait_le : waits ≤ total
  total_eq : total = if args.max_threads = 0 then
    ((fdlimit * vp_count).tdiv FD_PER_THREAD).tdiv sk_count else args.max_threads
  max_threads : th.max_threads = perProcess total vp_count
  max_wait_threads : th.max_wait_threads = perProcess waits vp_count
  min_wait_threads : th.min_wait_threads ≤ th.max_wait_threads

/-- A product that does not overflow is the product. -/
theorem mulInt_eq {a b n : ℤ} (h : mulInt a b = some n) : n = a * b := by
  unfold mulInt at h
  split_ifs at h
  exact (Option.some_inj.mp h).symm

section throttling

variable {args th : Throttle} {fdlimit vp_count sk_count : ℤ}

/-- What `set_thread_throttling` leaves, when it does not fail. -/
theorem setThreadThrottling_throttled (hfd : 0 ≤ fdlimit) (hvp : 1 ≤ vp_count) (hsk : 1 ≤ sk_count)
    (hwait : 0 ≤ args.max_wait_threads) (hmax : 0 ≤ args.max_threads)
    (h : setThreadThrottling args fdlimit vp_count sk_count = some th) :
    ∃ waits total, Throttled args th fdlimit vp_count sk_count waits total := by
  obtain ⟨waits, hwaits, h⟩ := Option.bind_eq_some_iff.mp h
  obtain ⟨total, htotal, h⟩ := Option.bind_eq_some_iff.mp h
  -- The number of spare threads, given or by default.
  have hwaits₀ : 0 ≤ waits := by
    unfold maxWaitThreads at hwaits
    split_ifs at hwaits
    · rw [mulInt_eq hwaits]
      exact mul_nonneg (by decide) (by omega)
    · cases hwaits
      exact hwait
  -- The number of threads, given or from the limit of descriptors.
  have htotal₁ : total = if args.max_threads = 0 then
      ((fdlimit * vp_count).tdiv FD_PER_THREAD).tdiv sk_count else args.max_threads := by
    unfold maxThreads at htotal
    split_ifs at htotal ⊢
    · obtain ⟨fds, hfds, rfl⟩ := Option.map_eq_some_iff.mp htotal
      rw [mulInt_eq hfds]
    · cases htotal
      rfl
  have htotal₀ : 0 ≤ total := by
    rw [htotal₁]
    split_ifs
    · have hfds : 0 ≤ fdlimit * vp_count := mul_nonneg hfd (by omega)
      exact Int.tdiv_nonneg (Int.tdiv_nonneg hfds (by decide)) (by omega)
    · exact hmax
  cases h
  -- The source compares the totals first, and divides by the number of processes afterwards.
  refine ⟨if waits > total then total else waits, total, ?_, ?_, htotal₁, rfl, rfl, ?_⟩
  · split_ifs <;> assumption
  · split_ifs with hgt
    · exact le_rfl
    · omega
  · dsimp only
    generalize perProcess (if waits > total then total else waits) vp_count = max_wait_threads
    split_ifs with hgt
    · exact le_rfl
    · exact not_lt.mp hgt

/-- The parameters of one process are in order. -/
theorem Throttled.fits {waits total : ℤ} (h : Throttled args th fdlimit vp_count sk_count waits total)
    (hvp : 1 ≤ vp_count) (hpos : 1 ≤ th.max_wait_threads) : th.Fits := by
  refine ⟨hpos, h.min_wait_threads, ?_⟩
  rw [h.max_wait_threads, h.max_threads]
  exact perProcess_mono h.wait_nonneg h.wait_le hvp

/-- With the default for `max_threads`, the threads of all sockets of one process need less than the limit
of descriptors and one thread's descriptors for each socket. -/
theorem Throttled.descriptors {waits total : ℤ}
    (h : Throttled args th fdlimit vp_count sk_count waits total) (hfd : 0 ≤ fdlimit)
    (hvp : 1 ≤ vp_count) (hsk : 1 ≤ sk_count) (hdefault : args.max_threads = 0) :
    FD_PER_THREAD * (sk_count * th.max_threads) < fdlimit + FD_PER_THREAD * sk_count := by
  have htotal := h.total_eq
  rw [if_pos hdefault] at htotal
  have hfds : 0 ≤ fdlimit * vp_count := mul_nonneg hfd (by omega)
  have htotal₀ : 0 ≤ total := h.wait_nonneg.trans h.wait_le
  -- What is left of the descriptors after the two divisions.
  have hle : FD_PER_THREAD * (sk_count * total) ≤ fdlimit * vp_count := by
    rw [htotal, Int.tdiv_eq_ediv_of_nonneg hfds,
      Int.tdiv_eq_ediv_of_nonneg (Int.ediv_nonneg hfds (by decide))]
    have h1 := Int.mul_ediv_self_le (x := fdlimit * vp_count / FD_PER_THREAD) (k := sk_count) (by omega)
    have h2 := Int.mul_ediv_self_le (x := fdlimit * vp_count) (k := FD_PER_THREAD) (by decide)
    exact (mul_le_mul_of_nonneg_left h1 (by decide)).trans h2
  -- And the rounding up.
  have hround := mul_perProcess_lt htotal₀ hvp
  rw [← h.max_threads] at hround
  have hscale : vp_count * (FD_PER_THREAD * (sk_count * th.max_threads)) <
      vp_count * (fdlimit + FD_PER_THREAD * sk_count) := by
    have hpos : 0 < FD_PER_THREAD * sk_count := mul_pos (by decide) (by omega)
    calc vp_count * (FD_PER_THREAD * (sk_count * th.max_threads))
        = FD_PER_THREAD * sk_count * (vp_count * th.max_threads) := by ring
      _ < FD_PER_THREAD * sk_count * (total + vp_count) := mul_lt_mul_of_pos_left hround hpos
      _ = FD_PER_THREAD * (sk_count * total) + FD_PER_THREAD * sk_count * vp_count := by ring
      _ ≤ fdlimit * vp_count + FD_PER_THREAD * sk_count * vp_count := by linarith
      _ = vp_count * (fdlimit + FD_PER_THREAD * sk_count) := by ring
  exact lt_of_mul_lt_mul_left hscale (by omega)

end throttling

/-! ## Runs -/

namespace Vp

section runs

variable {args th : Throttle} {fdlimit vp_count : ℤ} {sk_count : ℕ} {ok : ℕ → ℕ → Bool} {s₀ s : Vp}
  {ls : List Label}

/-- What holds of a virtual processor between any two steps. -/
structure Spec (th : Throttle) (sk_count : ℕ) (s : Vp) : Prop where
  /-- The counters are the numbers of threads. -/
  wait : ∀ i, (s.srv_socket i).wait_threads = s.waiting i
  busy : ∀ i, (s.srv_socket i).busy_threads = s.busy i
  /-- There are never too many spare threads, and never too many threads. -/
  wait_le : ∀ i < sk_count, (s.srv_socket i).wait_threads ≤ th.max_wait_threads
  total_le : ∀ i < sk_count, s.totalThreads i ≤ th.max_threads
  /-- Each socket keeps a thread. -/
  alive : ∀ i < sk_count, 1 ≤ s.totalThreads i
  /-- Spare threads are missing only because of the limit, or because they could not be created. -/
  spare : ∀ i < sk_count,
    th.min_wait_threads ≤ (s.srv_socket i).wait_threads + s.failed i ∨ s.totalThreads i = th.max_threads
  /-- The client descriptors that are open are those of the sessions, each of them once. -/
  held : s.open_nfds.Perm s.sessions
  nodup : s.sessions.Nodup

/-- What the counts say, in the terms of the statement. -/
theorem Pool.spec (h : s.Pool sk_count) : Spec s.throttle sk_count s where
  wait i := by simpa using (h.tally.exact i).wait i
  busy i := by simpa using (h.tally.exact i).busy i
  wait_le i hi := (h.limits i hi).wait_le
  total_le i hi := (h.limits i hi).total_le
  alive i hi := (h.limits i hi).alive
  spare i hi := (h.limits i hi).spare
  held := h.held
  nodup := h.held.nodup_iff.mp h.nodup

/-- The pool of threads is within its limits after each run: whatever the arguments of the server, the
results of the calls, and the order of the threads. -/
theorem run_threads (hfd : 0 ≤ fdlimit) (hvp : 1 ≤ vp_count) (hsk : 1 ≤ sk_count)
    (hwait : 0 ≤ args.max_wait_threads) (hmax : 0 ≤ args.max_threads)
    (hth : setThreadThrottling args fdlimit vp_count sk_count = some th)
    (hstart : startThreads th ok sk_count = some s₀) (hrun : Runs.run step s₀ ls = some s) :
    Spec th sk_count s := by
  obtain ⟨waits, total, hthrottled⟩ := setThreadThrottling_throttled hfd hvp (by omega) hwait hmax hth
  obtain ⟨n, rfl⟩ : ∃ n, sk_count = n + 1 := ⟨sk_count - 1, by omega⟩
  obtain ⟨hpool, hthrottle⟩ := run_pool (hthrottled.fits hvp (startThreads_pos hstart)) hstart hrun
  exact hthrottle ▸ hpool.spec

/-- Two connections come in. The thread of the first one starts a spare thread, but there may be no third
thread; the thread whose session ends first has one spare thread too many, and terminates. -/
def startsAndRetires : List Label :=
  [.run 0, .accept 0 (some 7) true, .run 1, .accept 1 none false, .accept 1 (some 8) true, .read 0 true,
    .write 0 true, .read 1 false]

/-- The run is possible. Of the two threads at its end, one accepts connections, and the other one has
terminated. -/
theorem run_threads_startsAndRetires : ∃ s₀ s,
    startThreads ⟨2, 1, 1⟩ (fun _ _ => true) 1 = some s₀ ∧ Runs.run step s₀ startsAndRetires = some s ∧
      s.threads = [⟨0, .accept⟩, ⟨0, .done⟩] ∧ Spec ⟨2, 1, 1⟩ 1 s := by
  have hth : setThreadThrottling ⟨2, 1, 2⟩ 64 1 1 = some ⟨2, 1, 1⟩ := by decide
  refine ⟨_, _, (Option.some_get (by decide)).symm, (Option.some_get (by decide)).symm, by decide, ?_⟩
  exact run_threads (by decide) (by decide) (by decide) (by decide) (by decide) hth
    (Option.some_get _).symm (Option.some_get (by decide)).symm

/-- The sessions are counted socket by socket. -/
theorem length_sessions (hsocket : ∀ c ∈ s.threads, c.i < sk_count) :
    s.sessions.length = ∑ i ∈ Finset.range sk_count, s.busy i := by
  unfold sessions Vp.busy
  generalize s.threads = threads at hsocket
  induction threads with
  | nil => simp
  | cons c threads ih =>
    have hrest := ih fun c' hc' => hsocket c' (List.mem_cons_of_mem c hc')
    have hc : c.i ∈ Finset.range sk_count := Finset.mem_range.mpr (hsocket c List.mem_cons_self)
    simp only [List.countP_cons, Finset.sum_add_distrib, ← hrest, List.filterMap_cons]
    -- A session is one of one socket.
    have hone : ∑ i ∈ Finset.range sk_count, (if Conn.busy i c = true then 1 else 0) =
        if c.place.session.isSome = true then 1 else 0 := by
      rw [Finset.sum_eq_single_of_mem c.i hc]
      · simp [Conn.busy]
      · intro i _ hi
        simp [Conn.busy, Ne.symm hi]
    rw [hone]
    cases c.place.session <;> simp

/-- The descriptors that a process needs. If the number of threads is not given, its sessions at any time need
less than `st_getfdlimit()` descriptors and `FD_PER_THREAD` more for each socket. -/
theorem run_descriptors (hfd : 0 ≤ fdlimit) (hvp : 1 ≤ vp_count) (hsk : 1 ≤ sk_count)
    (hwait : 0 ≤ args.max_wait_threads) (hdefault : args.max_threads = 0)
    (hth : setThreadThrottling args fdlimit vp_count sk_count = some th)
    (hstart : startThreads th ok sk_count = some s₀) (hrun : Runs.run step s₀ ls = some s) :
    FD_PER_THREAD * s.open_nfds.length < fdlimit + FD_PER_THREAD * sk_count := by
  obtain ⟨waits, total, hthrottled⟩ :=
    setThreadThrottling_throttled hfd hvp (by omega) hwait hdefault.ge hth
  have hspec := run_threads hfd hvp hsk hwait hdefault.ge hth hstart hrun
  obtain ⟨n, rfl⟩ : ∃ n, sk_count = n + 1 := ⟨sk_count - 1, by omega⟩
  obtain ⟨hpool, -⟩ := run_pool (hthrottled.fits hvp (startThreads_pos hstart)) hstart hrun
  have hlimit := hthrottled.descriptors hfd hvp (by omega) hdefault
  have hbusy : ∀ i ∈ Finset.range (n + 1), (s.busy i : ℤ) ≤ th.max_threads := by
    intro i hi
    have hi := Finset.mem_range.mp hi
    have htotal := hspec.total_le i hi
    have hnonneg : 0 ≤ (s.srv_socket i).wait_threads := by
      rw [hspec.wait i]
      exact Int.natCast_nonneg _
    rw [totalThreads, hspec.busy i] at htotal
    omega
  have hlength : (s.open_nfds.length : ℤ) ≤ (n + 1 : ℕ) * th.max_threads := by
    rw [hspec.held.length_eq, length_sessions hpool.socket, Nat.cast_sum]
    have hsum := Finset.sum_le_card_nsmul _ _ _ hbusy
    rwa [Finset.card_range, nsmul_eq_mul] at hsum
  exact (mul_le_mul_of_nonneg_left hlength (by decide)).trans_lt hlimit

/-- The sessions of two of the eight threads. -/
theorem run_descriptors_default : ∃ s₀ s,
    startThreads ⟨8, 8, 2⟩ (fun _ _ => true) 1 = some s₀ ∧
      Runs.run step s₀ [.run 0, .run 1, .accept 0 (some 7) true, .accept 1 (some 8) true] = some s ∧
      s.open_nfds = [8, 7] ∧ FD_PER_THREAD * s.open_nfds.length < 16 + FD_PER_THREAD * 1 := by
  have hth : setThreadThrottling ⟨0, 0, 2⟩ 16 1 1 = some ⟨8, 8, 2⟩ := by decide
  refine ⟨_, _, (Option.some_get (by decide)).symm, (Option.some_get (by decide)).symm, by decide, ?_⟩
  exact run_descriptors (by decide) (by decide) (by decide) (by decide) (by decide) hth
    (Option.some_get _).symm (Option.some_get (by decide)).symm

end runs

end Vp

end StWin.Server
