import StWin.Server.Model

/-!
# The pool of threads

The counters of a socket are numbers of threads: `wait_threads` of those that are on the way to
`st_accept` or in it, and `busy_threads` of those with a session. In the middle of a step the counters
are ahead of the threads, or behind them; `Tally` is the difference, and each assignment changes it by
what it says.

From the counters follow the limits. They hold of every state between two steps, in whatever order the
threads run and whatever their calls return: `Pool` is the invariant, and `run_pool` what it says about the
runs from `start_threads`.
-/

namespace StWin.Server

/-- The parameters are in order. -/
structure Throttle.Fits (th : Throttle) : Prop where
  wait_pos : 1 ≤ th.max_wait_threads
  min_le : th.min_wait_threads ≤ th.max_wait_threads
  wait_le : th.max_wait_threads ≤ th.max_threads

/-- The thread is counted as waiting. -/
def Place.waits : Place → Bool
  | .start => true
  | .accept => true
  | _ => false

/-- The descriptor of the thread's session. -/
def Place.session : Place → Option ℕ
  | .read nfd => some nfd
  | .write nfd => some nfd
  | _ => none

/-- The thread waits for a connection of socket `i`. -/
def Conn.waits (i : ℕ) (c : Conn) : Bool := decide (c.i = i) && c.place.waits

/-- The thread has a session of socket `i`. -/
def Conn.busy (i : ℕ) (c : Conn) : Bool := decide (c.i = i) && c.place.session.isSome

namespace Vp

section fields

variable (s : Vp) (t i j : ℕ) (d : ℤ) (ok : Bool) (place : Place)

/-- `WAIT_THREADS(i) += d` is an assignment to that counter. -/
@[simp] theorem addWait_wait : ((s.addWait i d).srv_socket j).wait_threads =
    (s.srv_socket j).wait_threads + if j = i then d else 0 := by
  by_cases hj : j = i
  · subst hj
    simp [addWait, setSocket]
  · simp [addWait, setSocket, hj]

/-- `WAIT_THREADS(i) += d` leaves the other counter. -/
@[simp] theorem addWait_busy :
    ((s.addWait i d).srv_socket j).busy_threads = (s.srv_socket j).busy_threads := by
  by_cases hj : j = i
  · subst hj
    simp [addWait, setSocket]
  · simp [addWait, setSocket, hj]

/-- `BUSY_THREADS(i) += d` is an assignment to that counter. -/
@[simp] theorem addBusy_busy : ((s.addBusy i d).srv_socket j).busy_threads =
    (s.srv_socket j).busy_threads + if j = i then d else 0 := by
  by_cases hj : j = i
  · subst hj
    simp [addBusy, setSocket]
  · simp [addBusy, setSocket, hj]

/-- `BUSY_THREADS(i) += d` leaves the other counter. -/
@[simp] theorem addBusy_wait :
    ((s.addBusy i d).srv_socket j).wait_threads = (s.srv_socket j).wait_threads := by
  by_cases hj : j = i
  · subst hj
    simp [addBusy, setSocket]
  · simp [addBusy, setSocket, hj]

/-- `RQST_COUNT(i)++` leaves the waiting threads. -/
@[simp] theorem addRqst_wait :
    ((s.addRqst i).srv_socket j).wait_threads = (s.srv_socket j).wait_threads := by
  by_cases hj : j = i
  · subst hj
    simp [addRqst, setSocket]
  · simp [addRqst, setSocket, hj]

/-- `RQST_COUNT(i)++` leaves the busy threads. -/
@[simp] theorem addRqst_busy :
    ((s.addRqst i).srv_socket j).busy_threads = (s.srv_socket j).busy_threads := by
  by_cases hj : j = i
  · subst hj
    simp [addRqst, setSocket]
  · simp [addRqst, setSocket, hj]

/-! An assignment to one part of the state leaves the others as they are. -/

@[simp] theorem addWait_threads : (s.addWait i d).threads = s.threads := rfl
@[simp] theorem addWait_open : (s.addWait i d).open_nfds = s.open_nfds := rfl
@[simp] theorem addWait_failed : (s.addWait i d).failed = s.failed := rfl
@[simp] theorem addWait_throttle : (s.addWait i d).throttle = s.throttle := rfl
@[simp] theorem addBusy_threads : (s.addBusy i d).threads = s.threads := rfl
@[simp] theorem addBusy_open : (s.addBusy i d).open_nfds = s.open_nfds := rfl
@[simp] theorem addBusy_failed : (s.addBusy i d).failed = s.failed := rfl
@[simp] theorem addBusy_throttle : (s.addBusy i d).throttle = s.throttle := rfl
@[simp] theorem addRqst_threads : (s.addRqst i).threads = s.threads := rfl
@[simp] theorem addRqst_open : (s.addRqst i).open_nfds = s.open_nfds := rfl
@[simp] theorem addRqst_failed : (s.addRqst i).failed = s.failed := rfl
@[simp] theorem addRqst_throttle : (s.addRqst i).throttle = s.throttle := rfl
@[simp] theorem setPlace_srv_socket : (s.setPlace t i place).srv_socket = s.srv_socket := rfl
@[simp] theorem setPlace_threads : (s.setPlace t i place).threads = s.threads.set t ⟨i, place⟩ := rfl
@[simp] theorem setPlace_open : (s.setPlace t i place).open_nfds = s.open_nfds := rfl
@[simp] theorem setPlace_failed : (s.setPlace t i place).failed = s.failed := rfl
@[simp] theorem setPlace_throttle : (s.setPlace t i place).throttle = s.throttle := rfl

/-- A thread that is created is a waiting one. -/
@[simp] theorem create_wait : ((s.create i ok).srv_socket j).wait_threads =
    (s.srv_socket j).wait_threads + if j = i ∧ ok = true then 1 else 0 := by
  cases ok <;> simp [create]

/-- A thread that is created is not a busy one. -/
@[simp] theorem create_busy :
    ((s.create i ok).srv_socket j).busy_threads = (s.srv_socket j).busy_threads := by
  cases ok <;> simp [create]

/-- No descriptor is opened for a thread that is created. -/
@[simp] theorem create_open : (s.create i ok).open_nfds = s.open_nfds := by cases ok <;> rfl

/-- The parameters stay. -/
@[simp] theorem create_throttle : (s.create i ok).throttle = s.throttle := by cases ok <;> rfl

/-- A thread that is created comes last, at its start. -/
@[simp] theorem create_threads :
    (s.create i ok).threads = s.threads ++ if ok = true then [⟨i, .start⟩] else [] := by
  cases ok <;> simp [create]

/-- A thread that could not be created is written down. -/
@[simp] theorem create_failed :
    (s.create i ok).failed j = s.failed j + if j = i ∧ ok = false then 1 else 0 := by
  by_cases hj : j = i
  · subst hj
    cases ok <;> simp [create]
  · cases ok <;> simp [create, hj]

end fields

/-- What happens next, by the place of the thread. -/
inductive Goes (s s' : Vp) : Prop where
  /-- A thread without a session tests the condition of its loop. -/
  | tests (t i : ℕ) (place : Place) (thread : s.threads[t]? = some ⟨i, place⟩)
      (waits : place.waits = true) (eq : s' = s.whileTest t i)
  /-- A thread has got a connection. -/
  | accepts (t i nfd : ℕ) (created : Bool) (thread : s.threads[t]? = some ⟨i, .accept⟩)
      (accepts : s.acceptReturns t i (some nfd) created = some s')
  | reads (t i nfd : ℕ) (thread : s.threads[t]? = some ⟨i, .read nfd⟩)
      (eq : s' = s.setPlace t i (.write nfd))
  /-- A session ends. -/
  | returns (t i nfd : ℕ) (place : Place) (thread : s.threads[t]? = some ⟨i, place⟩)
      (session : place.session = some nfd)
      (eq : s' = s.sessionReturns t i nfd ∨ s' = (s.addRqst i).sessionReturns t i nfd)

/-- There are no other steps. -/
theorem step_goes {s s' : Vp} {l : Label} (h : s.step l = some s') : Goes s s' := by
  cases l with
  | run t =>
    simp only [step] at h
    split at h
    · next i hthread =>
      cases h
      exact .tests t i .start hthread rfl rfl
    · cases h
  | accept t cli_nfd created =>
    simp only [step] at h
    split at h
    · next i hthread =>
      cases cli_nfd with
      | none =>
        cases h
        exact .tests t i .accept hthread rfl rfl
      | some nfd => exact .accepts t i nfd created hthread h
    · cases h
  | read t ok =>
    simp only [step] at h
    split at h
    · next i nfd hthread =>
      split_ifs at h
      · cases h
        exact .reads t i nfd hthread rfl
      · cases h
        exact .returns t i nfd _ hthread rfl (Or.inl rfl)
    · cases h
  | write t ok =>
    simp only [step] at h
    split at h
    · next i nfd hthread =>
      split_ifs at h
      · cases h
        exact .returns t i nfd _ hthread rfl (Or.inr rfl)
      · cases h
        exact .returns t i nfd _ hthread rfl (Or.inl rfl)
    · cases h

/-! ## The counters and the threads -/

/-- The number of threads that wait for a connection of socket `i`. -/
def waiting (s : Vp) (i : ℕ) : ℕ := s.threads.countP (Conn.waits i)

/-- The number of threads that have a session of socket `i`. -/
def busy (s : Vp) (i : ℕ) : ℕ := s.threads.countP (Conn.busy i)

/-- The counters of socket `i` are ahead of the threads by `w` and `b`, and those of the others are
exact. -/
structure Tally (s : Vp) (i : ℕ) (w b : ℤ) : Prop where
  wait : ∀ j, (s.srv_socket j).wait_threads = s.waiting j + if j = i then w else 0
  busy : ∀ j, (s.srv_socket j).busy_threads = s.busy j + if j = i then b else 0

/-- `1` if the condition holds. -/
def one (p : Bool) : ℤ := if p then 1 else 0

/-- A thread goes to another place. -/
theorem countP_set_place {p : Conn → Bool} {threads : List Conn} {t : ℕ} {c c' : Conn}
    (h : threads[t]? = some c) :
    ((threads.set t c').countP p : ℤ) = threads.countP p - one (p c) + one (p c') := by
  obtain ⟨hlt, hc⟩ := List.getElem?_eq_some_iff.mp h
  have hle : (if p threads[t] = true then 1 else 0) ≤ threads.countP p := by
    split_ifs with hp
    · exact List.countP_pos_iff.mpr ⟨_, List.getElem_mem hlt, hp⟩
    · exact Nat.zero_le _
  rw [List.countP_set hlt]
  rw [hc] at hle ⊢
  unfold one
  split_ifs at hle ⊢ <;> omega

namespace Tally

variable {s : Vp} {t i : ℕ} {w b d : ℤ}

/-- The counter of waiting threads is assigned to, and nobody goes anywhere. -/
theorem addWait (h : s.Tally i w b) : (s.addWait i d).Tally i (w + d) b := by
  constructor
  · intro j
    have hj := h.wait j
    simp only [addWait_wait, waiting, addWait_threads] at hj ⊢
    split_ifs at hj ⊢ <;> omega
  · intro j
    have hj := h.busy j
    simp only [addWait_busy, Vp.busy, addWait_threads] at hj ⊢
    exact hj

/-- The counter of busy threads is assigned to, and nobody goes anywhere. -/
theorem addBusy (h : s.Tally i w b) : (s.addBusy i d).Tally i w (b + d) := by
  constructor
  · intro j
    have hj := h.wait j
    simp only [addBusy_wait, waiting, addBusy_threads] at hj ⊢
    exact hj
  · intro j
    have hj := h.busy j
    simp only [addBusy_busy, Vp.busy, addBusy_threads] at hj ⊢
    split_ifs at hj ⊢ <;> omega

/-- A thread goes from a place to another one, and no counter is assigned to. -/
theorem setPlace (h : s.Tally i w b) {place place' : Place}
    (hthread : s.threads[t]? = some ⟨i, place⟩) : (s.setPlace t i place').Tally i
      (w + one place.waits - one place'.waits)
      (b + one place.session.isSome - one place'.session.isSome) := by
  constructor
  · intro j
    have hj := h.wait j
    have hcount := @countP_set_place (Conn.waits j) _ t _ ⟨i, place'⟩ hthread
    simp only [waiting, setPlace_srv_socket, setPlace_threads] at hj ⊢
    rw [hcount, hj]
    by_cases hij : i = j
    · subst hij
      simp [Conn.waits]
    · simp [Conn.waits, hij, Ne.symm hij, one]
  · intro j
    have hj := h.busy j
    have hcount := @countP_set_place (Conn.busy j) _ t _ ⟨i, place'⟩ hthread
    simp only [Vp.busy, setPlace_srv_socket, setPlace_threads] at hj ⊢
    rw [hcount, hj]
    by_cases hij : i = j
    · subst hij
      simp [Conn.busy]
    · simp [Conn.busy, hij, Ne.symm hij, one]

/-- `create_thread` counts the thread that it has created. -/
theorem create (h : s.Tally i w b) (ok : Bool) : (s.create i ok).Tally i w b := by
  constructor
  · intro j
    have hj := h.wait j
    simp only [create_wait, waiting, create_threads, List.countP_append] at hj ⊢
    rw [hj]
    by_cases hji : j = i
    · subst hji
      cases ok <;> simp [Conn.waits, Place.waits]
      omega
    · cases ok <;> simp [Conn.waits, hji, Ne.symm hji]
  · intro j
    have hj := h.busy j
    simp only [create_busy, Vp.busy, create_threads, List.countP_append] at hj ⊢
    rw [hj]
    cases ok <;> simp [Conn.busy, Place.session]

/-- Exact counters are exact for every socket. -/
theorem exact (h : s.Tally i 0 0) (j : ℕ) : s.Tally j 0 0 :=
  ⟨fun k => by have hk := h.wait k; split_ifs at hk ⊢ <;> exact hk,
    fun k => by have hk := h.busy k; split_ifs at hk ⊢ <;> exact hk⟩

end Tally

/-! ## The descriptors and the threads -/

/-- The descriptors of the sessions, in the order of the threads. -/
def sessions (s : Vp) : List ℕ := s.threads.filterMap fun c => c.place.session

/-- A member of a list is replaced, with what a function gives for the old one and the new one. -/
theorem filterMap_set {f : Conn → Option ℕ} {threads : List Conn} {t : ℕ} {c c' : Conn}
    (h : threads[t]? = some c) : ((threads.set t c').filterMap f ++ (f c).toList).Perm
      (threads.filterMap f ++ (f c').toList) := by
  induction threads generalizing t with
  | nil => cases h
  | cons a threads ih =>
    cases t with
    | zero =>
      cases h
      refine List.perm_iff_count.mpr fun n => ?_
      cases hc : f c <;> cases hc' : f c' <;> simp [hc, hc', List.count_cons]
      omega
    | succ t =>
      have hrest := ih h
      simp only [List.set_cons_succ, List.filterMap_cons]
      cases f a with
      | none => exact hrest
      | some n => exact hrest.cons n

/-! ## The limits -/

/-- The limits of a socket's counters `w` and `b`, after `f` failures to create a thread. -/
structure Limits (th : Throttle) (w b : ℤ) (f : ℕ) : Prop where
  busy_nonneg : 0 ≤ b
  wait_le : w ≤ th.max_wait_threads
  total_le : w + b ≤ th.max_threads
  /-- Some thread is there. -/
  alive : 1 ≤ w + b
  /-- Spare threads are missing only because of the limit, or because they could not be created. -/
  spare : th.min_wait_threads ≤ w + f ∨ w + b = th.max_threads

/-- The invariant of a virtual processor with `sk_count` sockets. -/
structure Pool (sk_count : ℕ) (s : Vp) : Prop where
  tally : s.Tally 0 0 0
  socket : ∀ c ∈ s.threads, c.i < sk_count
  limits : ∀ i < sk_count,
    Limits s.throttle (s.srv_socket i).wait_threads (s.srv_socket i).busy_threads (s.failed i)
  /-- The open client descriptors are those of the sessions. -/
  held : s.open_nfds.Perm s.sessions
  nodup : s.open_nfds.Nodup

section steps

variable {s s' : Vp} {t i nfd sk_count : ℕ} {place place' : Place}

/-- A thread of the list is one of a socket of the process. -/
theorem Pool.lt (h : s.Pool sk_count) (hthread : s.threads[t]? = some ⟨i, place⟩) : i < sk_count :=
  h.socket _ (List.mem_of_getElem? hthread)

/-- The sessions after a thread has gone to another place. -/
theorem sessions_setPlace (hthread : s.threads[t]? = some ⟨i, place⟩) :
    ((s.setPlace t i place').sessions ++ place.session.toList).Perm
      (s.sessions ++ place'.session.toList) :=
  filterMap_set hthread

/-- A thread that goes to another place stays with its socket. -/
theorem socket_setPlace (h : ∀ c ∈ s.threads, c.i < sk_count) (hi : i < sk_count) :
    ∀ c ∈ (s.setPlace t i place').threads, c.i < sk_count := by
  intro c hc
  rcases List.mem_or_eq_of_mem_set hc with hc | rfl
  · exact h c hc
  · exact hi

/-- A thread without a session waits again. -/
theorem Pool.tests (h : s.Pool sk_count) (hthread : s.threads[t]? = some ⟨i, place⟩)
    (hwaits : place.waits = true) : (s.whileTest t i).Pool sk_count := by
  have hi := h.lt hthread
  have hsession : place.session = none := by cases place <;> simp [Place.waits] at hwaits <;> rfl
  unfold whileTest
  rw [if_pos (h.limits i hi).wait_le]
  refine ⟨?_, socket_setPlace h.socket hi, h.limits, ?_, h.nodup⟩
  · have htally : (s.setPlace t i .accept).Tally i _ _ := (h.tally.exact i).setPlace hthread
    simp only [hwaits, hsession, one] at htally
    exact htally.exact 0
  · have hperm := @sessions_setPlace s t i place .accept hthread
    rw [hsession] at hperm
    simp only [Option.toList_none, Place.session, List.append_nil] at hperm
    exact h.held.trans hperm.symm

/-- `st_read` returns, and `st_write` is called. -/
theorem Pool.reads (h : s.Pool sk_count) (hthread : s.threads[t]? = some ⟨i, .read nfd⟩) :
    (s.setPlace t i (.write nfd)).Pool sk_count := by
  have hi := h.lt hthread
  refine ⟨?_, socket_setPlace h.socket hi, h.limits, ?_, h.nodup⟩
  · have htally : (s.setPlace t i (.write nfd)).Tally i _ _ := (h.tally.exact i).setPlace hthread
    simp only [Place.waits, Place.session, one] at htally
    exact htally.exact 0
  · have hperm := @sessions_setPlace s t i (.read nfd) (.write nfd) hthread
    simp only [Place.session, List.perm_append_right_iff] at hperm
    exact h.held.trans hperm.symm

/-- The state in which a thread begins its session, but for the place of the thread itself. -/
structure Accepted (s s₂ : Vp) (i nfd : ℕ) : Prop where
  tally : s₂.Tally i (-1) 1
  threads : s₂.threads = s.threads ∨ s₂.threads = s.threads ++ [⟨i, .start⟩]
  open_nfds : s₂.open_nfds = nfd :: s.open_nfds
  throttle : s₂.throttle = s.throttle
  limits : ∀ j, Limits s.throttle (s.srv_socket j).wait_threads (s.srv_socket j).busy_threads (s.failed j) →
    Limits s.throttle (s₂.srv_socket j).wait_threads (s₂.srv_socket j).busy_threads (s₂.failed j)

/-- What a thread does when it has got a connection: it creates a spare thread, if that is called for. -/
theorem acceptReturns_accepted {created : Bool} (htally : s.Tally 0 0 0)
    (haccept : s.acceptReturns t i (some nfd) created = some s') :
    nfd ∉ s.open_nfds ∧ ∃ s₂, Accepted s s₂ i nfd ∧ s' = s₂.setPlace t i (.read nfd) := by
  unfold acceptReturns at haccept
  dsimp only at haccept
  -- The counters when the session begins.
  generalize hs₁ : (({ s with open_nfds := nfd :: s.open_nfds } : Vp).addWait i (-1)).addBusy i 1 = s₁
    at haccept
  have htally₁ : s₁.Tally i (-1) 1 := by
    have htally₀ : Tally { s with open_nfds := nfd :: s.open_nfds } i 0 0 :=
      ⟨(htally.exact i).wait, (htally.exact i).busy⟩
    rw [← hs₁]
    exact htally₀.addWait.addBusy
  have hwait : ∀ j, (s₁.srv_socket j).wait_threads =
      (s.srv_socket j).wait_threads + if j = i then -1 else 0 := by
    intro j
    rw [← hs₁]
    simp
  have hbusy : ∀ j, (s₁.srv_socket j).busy_threads =
      (s.srv_socket j).busy_threads + if j = i then 1 else 0 := by
    intro j
    rw [← hs₁]
    simp
  have hthrottle : s₁.throttle = s.throttle := by rw [← hs₁]; rfl
  have hfailed : s₁.failed = s.failed := by rw [← hs₁]; rfl
  have hthreads : s₁.threads = s.threads := by rw [← hs₁]; rfl
  have hopen : s₁.open_nfds = nfd :: s.open_nfds := by rw [← hs₁]; rfl
  split_ifs at haccept with hnew hspare
  · refine ⟨hnew, s₁.create i created, ⟨htally₁.create created, ?_, ?_, ?_, fun j hlim => ?_⟩,
      (Option.some_inj.mp haccept).symm⟩
    · rw [create_threads, hthreads]
      cases created with
      | true => exact Or.inr rfl
      | false => exact Or.inl (List.append_nil _)
    · rw [create_open, hopen]
    · rw [create_throttle, hthrottle]
    · obtain ⟨hbusy0, hwaitle, htotal, halive, hmin⟩ := hlim
      rw [create_wait, create_busy, create_failed, hwait, hbusy, hfailed]
      unfold totalThreads at hspare
      rw [hwait, hbusy, hthrottle, if_pos rfl, if_pos rfl] at hspare
      by_cases hj : j = i
      · subst hj
        cases created <;> simp <;> constructor <;> omega
      · simp only [hj, if_false, false_and, add_zero]
        exact ⟨hbusy0, hwaitle, htotal, halive, hmin⟩
  · refine ⟨hnew, s₁, ⟨htally₁, Or.inl hthreads, hopen, hthrottle, fun j hlim => ?_⟩,
      (Option.some_inj.mp haccept).symm⟩
    obtain ⟨hbusy0, hwaitle, htotal, halive, hmin⟩ := hlim
    rw [hwait, hbusy, hfailed]
    unfold totalThreads at hspare
    rw [hwait, hbusy, hthrottle, if_pos rfl, if_pos rfl] at hspare
    by_cases hj : j = i
    · subst hj
      simp only [if_true]
      constructor <;> omega
    · simp only [hj, if_false, add_zero]
      exact ⟨hbusy0, hwaitle, htotal, halive, hmin⟩

/-- A thread has got a connection, and perhaps created a spare thread. -/
theorem Pool.accepts {created : Bool} (h : s.Pool sk_count)
    (hthread : s.threads[t]? = some ⟨i, .accept⟩)
    (haccept : s.acceptReturns t i (some nfd) created = some s') : s'.Pool sk_count := by
  have hi := h.lt hthread
  obtain ⟨hnew, s₂, hacc, rfl⟩ := acceptReturns_accepted h.tally haccept
  have hthread₂ : s₂.threads[t]? = some ⟨i, .accept⟩ := by
    rcases hacc.threads with heq | heq <;> rw [heq]
    · exact hthread
    · rw [List.getElem?_append_left (List.getElem?_eq_some_iff.mp hthread).1]
      exact hthread
  have hsocket : ∀ c ∈ s₂.threads, c.i < sk_count := by
    intro c hc
    rcases hacc.threads with heq | heq <;> rw [heq] at hc
    · exact h.socket c hc
    · rcases List.mem_append.mp hc with hc | hc
      · exact h.socket c hc
      · rw [List.mem_singleton.mp hc]
        exact hi
  have hsessions : s₂.sessions = s.sessions := by
    unfold sessions
    rcases hacc.threads with heq | heq <;> rw [heq]
    rw [List.filterMap_append]
    exact List.append_nil _
  refine ⟨?_, socket_setPlace hsocket hi, fun j hj => ?_, ?_, ?_⟩
  · have htally : (s₂.setPlace t i (.read nfd)).Tally i _ _ := hacc.tally.setPlace hthread₂
    simp only [Place.waits, Place.session, one] at htally
    exact htally.exact 0
  · rw [setPlace_throttle, hacc.throttle]
    exact hacc.limits j (h.limits j hj)
  · have hperm := @sessions_setPlace s₂ t i .accept (.read nfd) hthread₂
    simp only [Place.session, Option.toList_none, Option.toList_some, List.append_nil, hsessions] at hperm
    rw [setPlace_open, hacc.open_nfds]
    exact ((h.held.cons nfd).trans (List.perm_append_singleton nfd _).symm).trans hperm.symm
  · rw [setPlace_open, hacc.open_nfds]
    exact List.nodup_cons.mpr ⟨hnew, h.nodup⟩

/-- The state after a session, but for the place of the thread itself. -/
structure Returned (s s₂ : Vp) (i nfd sk_count : ℕ) (place' : Place) : Prop where
  tally : s₂.Tally i (one place'.waits) (-1)
  session : place'.session = none
  threads : s₂.threads = s.threads
  open_nfds : s₂.open_nfds = s.open_nfds.erase nfd
  throttle : s₂.throttle = s.throttle
  limits : ∀ j < sk_count,
    Limits s.throttle (s₂.srv_socket j).wait_threads (s₂.srv_socket j).busy_threads (s₂.failed j)

/-- A thread whose session ends waits again, or terminates if there are enough spare threads. -/
theorem sessionReturns_returned (h : s.Pool sk_count) (hfits : s.throttle.Fits)
    (hbusy : 1 ≤ s.busy i) : ∃ s₂ place', Returned s s₂ i nfd sk_count place' ∧
      s.sessionReturns t i nfd = s₂.setPlace t i place' := by
  unfold sessionReturns
  dsimp only
  -- After the session the thread counts as waiting again, before the loop's condition is tested.
  generalize hs₁ : (({ s with open_nfds := s.open_nfds.erase nfd } : Vp).addWait i 1).addBusy i (-1) = s₁
  have htally₁ : s₁.Tally i 1 (-1) := by
    have htally₀ : Tally { s with open_nfds := s.open_nfds.erase nfd } i 0 0 :=
      ⟨(h.tally.exact i).wait, (h.tally.exact i).busy⟩
    rw [← hs₁]
    exact htally₀.addWait.addBusy
  have hwait : ∀ j, (s₁.srv_socket j).wait_threads =
      (s.srv_socket j).wait_threads + if j = i then 1 else 0 := by
    intro j
    rw [← hs₁]
    simp
  have hbusy₁ : ∀ j, (s₁.srv_socket j).busy_threads =
      (s.srv_socket j).busy_threads + if j = i then -1 else 0 := by
    intro j
    rw [← hs₁]
    simp
  have hthrottle : s₁.throttle = s.throttle := by rw [← hs₁]; rfl
  have hfailed : s₁.failed = s.failed := by rw [← hs₁]; rfl
  have hopen : s₁.open_nfds = s.open_nfds.erase nfd := by rw [← hs₁]; rfl
  have hthreads : s₁.threads = s.threads := by rw [← hs₁]; rfl
  have hb : (s.srv_socket i).busy_threads = s.busy i := by
    have hexact := (h.tally.exact i).busy i
    simpa using hexact
  obtain ⟨hwait1, hmin, hmax⟩ := hfits
  unfold whileTest
  split_ifs with htest
  -- The test compares the number of waiting threads with `max_wait_threads`.
  all_goals rw [hwait, if_pos rfl, hthrottle] at htest
  · refine ⟨s₁, .accept, ⟨htally₁, rfl, hthreads, hopen, hthrottle, fun j hj => ?_⟩, rfl⟩
    obtain ⟨hbusy0, hwaitle, htotal, halive, hspare⟩ := h.limits j hj
    rw [hwait, hbusy₁, hfailed]
    by_cases hji : j = i
    · subst hji
      simp only [if_true]
      constructor <;> omega
    · simp only [hji, if_false, add_zero]
      exact ⟨hbusy0, hwaitle, htotal, halive, hspare⟩
  · -- The last thread stays, since the limit of spare threads is not zero.
    refine ⟨s₁.addWait i (-1), .done, ⟨htally₁.addWait, rfl, hthreads, hopen, hthrottle,
      fun j hj => ?_⟩, rfl⟩
    obtain ⟨hbusy0, hwaitle, htotal, halive, hspare⟩ := h.limits j hj
    rw [addWait_wait, addWait_busy, addWait_failed, hwait, hbusy₁, hfailed]
    by_cases hji : j = i
    · subst hji
      simp only [if_true]
      constructor <;> omega
    · simp only [hji, if_false, add_zero]
      exact ⟨hbusy0, hwaitle, htotal, halive, hspare⟩

/-- A session ends. -/
theorem Pool.returns (h : s.Pool sk_count) (hfits : s.throttle.Fits)
    (hthread : s.threads[t]? = some ⟨i, place⟩) (hsession : place.session = some nfd) :
    (s.sessionReturns t i nfd).Pool sk_count := by
  have hi := h.lt hthread
  have hwaits : place.waits = false := by cases place <;> simp [Place.session] at hsession <;> rfl
  have hbusy : 1 ≤ s.busy i :=
    List.countP_pos_iff.mpr ⟨_, List.mem_of_getElem? hthread, by simp [Conn.busy, hsession]⟩
  obtain ⟨s₂, place', hret, heq⟩ := @sessionReturns_returned s t i nfd sk_count h hfits hbusy
  have hthread₂ : s₂.threads[t]? = some ⟨i, place⟩ := by rw [hret.threads, hthread]
  have hsame : s₂.sessions = s.sessions := by unfold sessions; rw [hret.threads]
  rw [heq]
  refine ⟨?_, socket_setPlace (hret.threads ▸ h.socket) hi, fun j hj => ?_, ?_, ?_⟩
  · have htally : (s₂.setPlace t i place').Tally i _ _ := hret.tally.setPlace hthread₂
    rw [hwaits, hsession, hret.session] at htally
    simp only [one, Bool.false_eq_true, if_false, add_zero, sub_self, Option.isSome_some, if_true,
      Option.isSome_none] at htally
    exact htally.exact 0
  · rw [setPlace_throttle, hret.throttle]
    exact hret.limits j hj
  · have hperm := @sessions_setPlace s₂ t i place place' hthread₂
    rw [hsession, hret.session, hsame] at hperm
    simp only [Option.toList_none, Option.toList_some, List.append_nil] at hperm
    have hcons := h.held.trans (hperm.symm.trans (List.perm_append_singleton nfd _))
    rw [setPlace_open, hret.open_nfds]
    simpa using hcons.erase nfd
  · rw [setPlace_open, hret.open_nfds]
    exact h.nodup.erase nfd

/-- The count of requests is of no concern to the invariant. -/
theorem Pool.addRqst (h : s.Pool sk_count) (i : ℕ) : (s.addRqst i).Pool sk_count := by
  refine ⟨⟨fun j => ?_, fun j => ?_⟩, h.socket, fun j hj => ?_, h.held, h.nodup⟩
  · rw [addRqst_wait]
    exact h.tally.wait j
  · rw [addRqst_busy]
    exact h.tally.busy j
  · rw [addRqst_wait, addRqst_busy]
    exact h.limits j hj

/-- The test of the loop of `handle_connections` leaves the parameters. -/
theorem whileTest_throttle : (s.whileTest t i).throttle = s.throttle := by
  unfold whileTest
  split_ifs <;> rfl

/-- No step changes the parameters. -/
theorem step_throttle {l : Label} (htally : s.Tally 0 0 0) (hstep : s.step l = some s') :
    s'.throttle = s.throttle := by
  cases step_goes hstep with
  | tests t i place _ _ eq => rw [eq, whileTest_throttle]
  | accepts t i nfd created _ haccept =>
    obtain ⟨-, s₂, hacc, rfl⟩ := acceptReturns_accepted htally haccept
    exact hacc.throttle
  | reads t i nfd _ eq => rw [eq, setPlace_throttle]
  | returns t i nfd place _ _ eq =>
    rcases eq with eq | eq <;> rw [eq, sessionReturns, whileTest_throttle] <;> rfl

/-- A step keeps the invariant. -/
theorem step_pool {l : Label} (h : s.Pool sk_count ∧ s.throttle.Fits) (hstep : s.step l = some s') :
    s'.Pool sk_count ∧ s'.throttle.Fits := by
  obtain ⟨hpool, hfits⟩ := h
  rw [step_throttle hpool.tally hstep]
  refine ⟨?_, hfits⟩
  cases step_goes hstep with
  | tests t i place thread waits eq => exact eq ▸ hpool.tests thread waits
  | accepts t i nfd created thread haccept => exact hpool.accepts thread haccept
  | reads t i nfd thread eq => exact eq ▸ hpool.reads thread
  | returns t i nfd place thread session eq =>
    rcases eq with rfl | rfl
    · exact hpool.returns hfits thread session
    · exact (hpool.addRqst i).returns hfits thread session

end steps

/-! ## The start -/

/-- The sockets below `i` have their threads, none of which has run. -/
structure Starting (th : Throttle) (i : ℕ) (s : Vp) : Prop where
  throttle : s.throttle = th
  pool : s.Pool i
  sessions : s.sessions = []
  failed : ∀ j, i ≤ j → s.failed j = 0

/-- The inner loop of `start_threads`. -/
structure Creates (s s' : Vp) (i n : ℕ) : Prop where
  throttle : s'.throttle = s.throttle
  tally : s'.Tally 0 0 0
  threads : ∀ c ∈ s'.threads, c ∈ s.threads ∨ c = ⟨i, .start⟩
  sessions : s'.sessions = s.sessions
  open_nfds : s'.open_nfds = s.open_nfds
  created : (s'.srv_socket i).wait_threads + s'.failed i = (s.srv_socket i).wait_threads + s.failed i + n
  busy : (s'.srv_socket i).busy_threads = (s.srv_socket i).busy_threads
  others : ∀ j, j ≠ i → s'.srv_socket j = s.srv_socket j ∧ s'.failed j = s.failed j

/-- By induction on the threads that are asked for. -/
theorem startSocket_creates {s : Vp} (ok : ℕ → Bool) (i n : ℕ) (htally : s.Tally 0 0 0) :
    Creates s (startSocket ok i n s) i n := by
  induction n with
  | zero => exact ⟨rfl, htally, fun c hc => Or.inl hc, rfl, rfl, by simp [startSocket], rfl, fun _ _ => ⟨rfl, rfl⟩⟩
  | succ n ih =>
    rw [startSocket]
    generalize startSocket ok i n s = s₁ at ih
    refine ⟨?_, ?_, fun c hc => ?_, ?_, ?_, ?_, ?_, fun j hj => ?_⟩
    · rw [create_throttle, ih.throttle]
    · exact ((ih.tally.exact i).create (ok n)).exact 0
    · rw [create_threads, List.mem_append] at hc
      rcases hc with hc | hc
      · exact ih.threads c hc
      · split_ifs at hc
        · exact Or.inr (List.mem_singleton.mp hc)
        · cases hc
    · have hsessions := ih.sessions
      unfold sessions at hsessions ⊢
      rw [create_threads, List.filterMap_append, hsessions]
      split_ifs <;> exact List.append_nil _
    · rw [create_open, ih.open_nfds]
    · have hcreated := ih.created
      rw [create_wait, create_failed]
      cases ok n <;> simp <;> omega
    · rw [create_busy, ih.busy]
    · obtain ⟨hsocket, hfailed⟩ := ih.others j hj
      rw [← hsocket, create_failed, ← hfailed, if_neg (by tauto)]
      refine ⟨?_, rfl⟩
      cases ok n <;> simp [create, addWait, setSocket, hj]

section starting

variable {th : Throttle} {i : ℕ} {s s' : Vp}

/-- No thread is there for socket `i` yet. -/
theorem Starting.none (h : Starting th i s) : s.waiting i = 0 ∧ s.busy i = 0 := by
  have hne : ∀ c ∈ s.threads, c.i ≠ i := fun c hc => (h.pool.socket c hc).ne
  constructor <;> refine List.countP_eq_zero.mpr fun c hc => ?_
  · simp [Conn.waits, hne c hc]
  · simp [Conn.busy, hne c hc]

/-- The counters of a socket without threads are set to `0`, which they are already. -/
theorem Starting.reset (h : Starting th i s) : Starting th i (s.setSocket i fun _ => ⟨0, 0, 0⟩) := by
  obtain ⟨hwaiting, hbusy⟩ := h.none
  have hother : ∀ j, j ≠ i → (s.setSocket i fun _ => ⟨0, 0, 0⟩).srv_socket j = s.srv_socket j :=
    fun j hj => Function.update_of_ne hj _ _
  have hself : (s.setSocket i fun _ => ⟨0, 0, 0⟩).srv_socket i = ⟨0, 0, 0⟩ := Function.update_self _ _ _
  refine ⟨h.throttle, ⟨⟨fun j => ?_, fun j => ?_⟩, h.pool.socket, fun j hj => ?_, h.pool.held,
    h.pool.nodup⟩, h.sessions, h.failed⟩
  · by_cases hj : j = i
    · subst hj
      rw [hself]
      change (0 : ℤ) = s.waiting j + _
      simp [hwaiting]
    · rw [hother j hj]
      exact h.pool.tally.wait j
  · by_cases hj : j = i
    · subst hj
      rw [hself]
      change (0 : ℤ) = s.busy j + _
      simp [hbusy]
    · rw [hother j hj]
      exact h.pool.tally.busy j
  · rw [hother j (by omega)]
    exact h.pool.limits j hj

/-- Socket `i` gets its threads. With those that could not be created they are the most that may be
spare. -/
theorem Starting.next (h : Starting th i s) (hfits : th.Fits) (hwait : (s.srv_socket i).wait_threads = 0)
    (hbusy : (s.srv_socket i).busy_threads = 0) (hcreates : Creates s s' i th.max_wait_threads.toNat)
    (hstarted : (s'.srv_socket i).wait_threads ≠ 0) : Starting th (i + 1) s' := by
  have hcreated := hcreates.created
  rw [hwait, h.failed i le_rfl] at hcreated
  have hbusy' : (s'.srv_socket i).busy_threads = 0 := hcreates.busy.trans hbusy
  have hwait' : 0 ≤ (s'.srv_socket i).wait_threads := by
    have hexact := (hcreates.tally.exact i).wait i
    rw [if_pos rfl] at hexact
    omega
  have hthrottle : s'.throttle = th := hcreates.throttle.trans h.throttle
  have hsessions : s'.sessions = [] := hcreates.sessions.trans h.sessions
  refine ⟨hthrottle, ⟨hcreates.tally, fun c hc => ?_, fun j hj => ?_, ?_, ?_⟩, hsessions, fun j hj => ?_⟩
  · rcases hcreates.threads c hc with hc | rfl
    · exact (h.pool.socket c hc).trans (Nat.lt_succ_self i)
    · exact Nat.lt_succ_self i
  · by_cases hji : j = i
    · subst hji
      obtain ⟨hpos, hmin, hmax⟩ := hfits
      rw [hthrottle, hbusy']
      constructor <;> omega
    · obtain ⟨hsocket, hfail⟩ := hcreates.others j hji
      rw [hthrottle, ← h.throttle, hsocket, hfail]
      exact h.pool.limits j (by omega)
  · rw [hcreates.open_nfds, hcreates.sessions]
    exact h.pool.held
  · rw [hcreates.open_nfds]
    exact h.pool.nodup
  · rw [(hcreates.others j (by omega)).2]
    exact h.failed j (by omega)

end starting

/-- `start_threads` gives the sockets their threads, one after the other. -/
theorem startThreads_starting {th : Throttle} (hfits : th.Fits) (ok : ℕ → ℕ → Bool) (sk_count : ℕ) :
    ∀ {s : Vp}, startThreads th ok sk_count = some s → Starting th sk_count s := by
  induction sk_count with
  | zero =>
    intro s h
    cases h
    have htally : Tally ⟨th, fun _ => ⟨0, 0, 0⟩, [], [], fun _ => 0⟩ 0 0 0 :=
      ⟨fun j => by simp [waiting], fun j => by simp [busy]⟩
    exact ⟨rfl, ⟨htally, fun c hc => (by cases hc), fun i hi => (by omega), List.Perm.refl _,
      List.nodup_nil⟩, rfl, fun _ _ => rfl⟩
  | succ i ih =>
    intro s h
    obtain ⟨s₀, hs₀, h⟩ := Option.bind_eq_some_iff.mp h
    dsimp only at h
    split_ifs at h with hstarted
    cases h
    have hreset := (ih hs₀).reset
    have hzero : (s₀.setSocket i fun _ => ⟨0, 0, 0⟩).srv_socket i = ⟨0, 0, 0⟩ := Function.update_self _ _ _
    have hcreates := startSocket_creates (ok i) i th.max_wait_threads.toNat hreset.pool.tally
    exact hreset.next hfits (congrArg SocketInfo.wait_threads hzero)
      (congrArg SocketInfo.busy_threads hzero) hcreates hstarted

/-- `start_threads` does not come back if no spare thread is allowed. -/
theorem startThreads_pos {th : Throttle} {ok : ℕ → ℕ → Bool} {i : ℕ} {s : Vp}
    (h : startThreads th ok (i + 1) = some s) : 1 ≤ th.max_wait_threads := by
  obtain ⟨s₀, -, h⟩ := Option.bind_eq_some_iff.mp h
  by_contra hpos
  have hzero : th.max_wait_threads.toNat = 0 := by omega
  dsimp only at h
  rw [hzero, startSocket, if_pos (by simp [setSocket])] at h
  cases h

/-! ## Runs -/

/-- The invariant holds after each run from `start_threads`. -/
theorem run_pool {th : Throttle} (hfits : th.Fits) {ok : ℕ → ℕ → Bool} {sk_count : ℕ} {s₀ s : Vp}
    (hstart : startThreads th ok sk_count = some s₀) {ls : List Label}
    (hrun : Runs.run step s₀ ls = some s) : s.Pool sk_count ∧ s.throttle = th := by
  have hstarting := startThreads_starting hfits ok sk_count hstart
  have hinv : (s.Pool sk_count ∧ s.throttle.Fits) ∧ s.throttle = th := by
    refine Runs.run_invariant_of_step (I := fun s : Vp =>
      (s.Pool sk_count ∧ s.throttle.Fits) ∧ s.throttle = th) ?_ ?_ hrun
    · intro s l s' hI hstep
      exact ⟨step_pool hI.1 hstep, (step_throttle hI.1.1.tally hstep).trans hI.2⟩
    · exact ⟨⟨hstarting.pool, hstarting.throttle ▸ hfits⟩, hstarting.throttle⟩
  exact ⟨hinv.1.1, hinv.2⟩

end Vp

end StWin.Server
