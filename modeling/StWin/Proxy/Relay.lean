import StWin.Proxy.Model
import StWin.Io.Writev

/-!
# Relaying

"It connects to the remote host and then just pumps the data through without any modification." A call
of `st_read` keeps its arguments until it returns (`step_reads`), and a call of `st_write` has a rest
that is not sent yet (`step_writes`). Between two steps of a thread what was received in a direction is
what was sent in it, followed by the rest of the buffer of the `pass` that is under way: `Between` is this
invariant, and `run_relays` what it says about whole runs.
-/

namespace StWin.Proxy

open Io (Xfer Connect Going NotReady getError EINTR netfdPoll)

/-! ## One step of `st_read` -/

/-- The locals of `st_read` into the buffer `buf`, until it returns. -/
def reader (buf : ℕ → UInt8) : Xfer := ⟨.read, IOBUFSIZE, buf, 0, IOBUFSIZE, []⟩

/-- How a step of `st_read` ends. -/
inductive Reads (buf : ℕ → UInt8) (l : Io.Label) : Io.Pos → Prop where
  | sock (none : data l = []) : Reads buf l (.sock (reader buf))
  | wait (none : data l = []) : Reads buf l (.wait (reader buf))
  /-- The octets are at the front of the buffer. -/
  | ends (x : Xfer) (nr : ℕ) (le : nr ≤ IOBUFSIZE) (octets : (List.range nr).map x.mem = data l) :
      Reads buf l (.done x nr)
  | failed (x : Xfer) (none : data l = []) : Reads buf l (.done x (-1))

/-- `st_read` fails. -/
theorem reader_fail (buf : ℕ → UInt8) (syserr : ℤ) :
    Reads buf (.sock (.error syserr)) ((reader buf).fail (getError syserr)) := by
  unfold Xfer.fail
  split
  · exact .sock rfl
  · split
    · exact .failed _ rfl
    · exact .wait rfl

/-- `recv` is given the whole buffer. -/
theorem reader_request (buf : ℕ → UInt8) : (reader buf).request = IOBUFSIZE := rfl

/-- `st_read` returns what it has received. -/
theorem reader_stores (buf : ℕ → UInt8) (o : List UInt8) (hle : (o.length : ℤ) ≤ IOBUFSIZE) :
    Reads buf (.sock (.ok o)) (((reader buf).store o).progress o.length) := by
  refine .ends _ o.length hle ?_
  have hrange := Io.store_range (reader buf) o rfl
  rw [show (reader buf).off = 0 from rfl, zero_add] at hrange
  exact hrange

/-- A step of `st_read`, by the answer to it. -/
theorem step_reads {buf : ℕ → UInt8} {pos : Io.Pos} (hpos : pos = .sock (reader buf) ∨ pos = .wait (reader buf))
    {errno : ℤ} {l : Io.Label} {st : Io.State} (hstep : Io.step ⟨pos, errno⟩ l = some st) :
    Reads buf l st.pos := by
  rcases hpos with rfl | rfl
  · cases l with
    | poll p => cases hstep
    | sock o =>
      simp only [Io.step] at hstep
      split_ifs at hstep with hallows
      cases o with
      | ok o =>
        cases hstep
        exact reader_stores buf o (hallows.1.trans_eq (reader_request buf))
      | error syserr =>
        cases hstep
        exact reader_fail buf syserr
  · cases l with
    | sock o => cases hstep
    | poll p =>
      simp only [Io.step, Option.some.injEq] at hstep
      rw [← hstep]
      dsimp only
      split
      · exact .failed _ rfl
      · exact .sock rfl

/-! ## One step of `st_write` -/

/-- The octets of the buffer that are not written yet. -/
def rest (x : Xfer) : List UInt8 := x.octets x.nleft.toNat

/-- How a step of `st_write` of `nr` octets ends. -/
inductive Writes (nr : ℕ) (x : Xfer) (l : Io.Label) : Io.Pos → Prop where
  | sock (x' : Xfer) (going : Going nr x') (octets : data l ++ rest x' = rest x) : Writes nr x l (.sock x')
  | wait (x' : Xfer) (going : Going nr x') (octets : data l ++ rest x' = rest x) : Writes nr x l (.wait x')
  | all (y : Xfer) (octets : data l = rest x) : Writes nr x l (.done y nr)
  | failed (y : Xfer) (none : data l = []) : Writes nr x l (.done y (-1))

/-- Not more octets are left than there were. -/
theorem length_rest {nr : ℕ} {x : Xfer} (h : Going nr x) : (rest x).length ≤ nr := by
  have hrest := h.rest
  simp only [rest, Xfer.octets, List.length_map, List.length_range]
  omega

/-- The octets of a buffer in two parts. -/
theorem octets_append (x : Xfer) (m n : ℕ) :
    x.octets m ++ { x with off := x.off + m }.octets n = x.octets (m + n) := by
  unfold Xfer.octets
  rw [List.range_add, List.map_append, List.map_map]
  simp only [Function.comp_def, Nat.add_assoc]

/-- The socket accepts the octets that come next. -/
theorem rest_eq {nr : ℕ} {x : Xfer} (h : Going nr x) {o : List UInt8} (hle : (o.length : ℤ) ≤ x.nleft)
    (ho : o = x.octets o.length) :
    o ++ rest { x.store o with nleft := x.nleft - o.length, off := x.off + o.length } = rest x := by
  have hmem : (x.store o).mem = x.mem := by simp [Xfer.store, h.fn, Io.Fn.sends]
  have hrest : rest { x.store o with nleft := x.nleft - o.length, off := x.off + o.length } =
      { x with off := x.off + o.length }.octets (x.nleft - o.length).toNat := by
    simp only [rest, Xfer.octets, hmem]
  rw [hrest]
  nth_rewrite 1 [ho]
  rw [octets_append, rest]
  congr 1
  omega

/-- `st_write` has sent some octets. -/
theorem writer_progress {nr : ℕ} {x : Xfer} (h : Going nr x) {o : List UInt8}
    (hle : (o.length : ℤ) ≤ x.nleft) (ho : o = x.octets o.length) :
    Writes nr x (.sock (.ok o)) ((x.store o).progress o.length) := by
  have hgoes := h.progress hle
  have hoctets := rest_eq h hle ho
  have hfn : (x.store o).fn = .write := h.fn
  have hnleft : (x.store o).nleft = x.nleft := rfl
  have hoff : (x.store o).off = x.off := rfl
  simp only [Xfer.progress, hfn, hnleft, hoff] at hgoes ⊢
  by_cases hall : (o.length : ℤ) = x.nleft
  · rw [if_pos hall, show (x.store o).nbyte = nr from h.nbyte]
    refine .all _ ?_
    have hnone : (x.nleft - o.length).toNat = 0 := by omega
    rw [← hoctets]
    simp [rest, Xfer.octets, hnone, data]
  · rw [if_neg hall] at hgoes ⊢
    cases hgoes with
    | wait _ going _ _ => exact .wait _ going hoctets

/-- `st_write` fails. -/
theorem writer_fail {nr : ℕ} {x : Xfer} (h : Going nr x) (syserr : ℤ) :
    Writes nr x (.sock (.error syserr)) (x.fail (getError syserr)) := by
  unfold Xfer.fail
  rw [h.loop]
  split
  · exact .sock x h rfl
  · split
    · exact .failed x rfl
    · exact .wait x h rfl

/-- A step of `st_write`, by the answer to it. -/
theorem step_writes {nr : ℕ} {x : Xfer} (h : Going nr x) {pos : Io.Pos}
    (hpos : pos = .sock x ∨ pos = .wait x) {errno : ℤ} {l : Io.Label} {st : Io.State}
    (hstep : Io.step ⟨pos, errno⟩ l = some st) : Writes nr x l st.pos := by
  rcases hpos with rfl | rfl
  · cases l with
    | poll p => cases hstep
    | sock o =>
      simp only [Io.step] at hstep
      split_ifs at hstep with hallows
      cases o with
      | ok o =>
        cases hstep
        have hsends : x.fn.sends = true := by rw [h.fn]; rfl
        exact writer_progress h (hallows.1.trans (Io.bmod_le h.left.le _)) (hallows.2 hsends)
      | error syserr =>
        cases hstep
        exact writer_fail h syserr
  · cases l with
    | sock o => cases hstep
    | poll p =>
      simp only [Io.step, Option.some.injEq] at hstep
      rw [← hstep]
      dsimp only
      rw [h.loop]
      split
      · exact .failed x rfl
      · exact .sock x h rfl

/-- `st_write` begins with all octets unsent. -/
theorem start_write (mem : ℕ → UInt8) {nr : ℕ} (hnr : 0 < nr) (errno : ℤ) :
    ∃ x, (Io.start ⟨.write, true, nr, mem⟩ errno).pos = .sock x ∧ Going nr x ∧
      rest x = (List.range nr).map mem := by
  have hgoing : Going nr ⟨.write, nr, mem, 0, nr, []⟩ := ⟨rfl, rfl, by simp, by simpa using hnr⟩
  refine ⟨_, ?_, hgoing, ?_⟩
  · exact hgoing.loop
  · simp [rest, Xfer.octets]

/-! ## Between two steps -/

namespace Request

/-- Everything that was received was sent. -/
def Level (s : Request) : Prop := ∀ d, s.sent d = s.received d

/-- Both descriptors are open. -/
structure Connected (s : Request) : Prop where
  cli : s.cli_open = true
  sock : s.sock_open = true

/-- What a thread has passed on, by where it is. -/
inductive Between (s : Request) : Prop where
  | socket (pos : s.pos = .socket) (cli : s.cli_open = true) (sock : s.sock_open = false)
      (level : s.Level)
  | connect (call : Connect) (pos : s.pos = .connect call) (connected : s.Connected) (level : s.Level)
  | poll (pos : s.pos = .poll) (connected : s.Connected) (level : s.Level)
  | read (d : Dir) (next : Bool) (buf : ℕ → UInt8) (call : Io.Pos) (pos : s.pos = .read d next call)
      (reads : call = .sock (reader buf) ∨ call = .wait (reader buf)) (connected : s.Connected)
      (level : s.Level)
  /-- Only the rest of the buffer is missing. -/
  | write (d : Dir) (next : Bool) (nr : ℕ) (x : Xfer) (call : Io.Pos) (pos : s.pos = .write d next nr call)
      (writes : call = .sock x ∨ call = .wait x) (going : Going nr x) (le : nr ≤ IOBUFSIZE)
      (connected : s.Connected) (octets : s.received d = s.sent d ++ rest x)
      (others : ∀ d', d' ≠ d → s.sent d' = s.received d')
  | done (pos : s.pos = .done) (cli : s.cli_open = false) (sock : s.sock_open = false) (level : s.Level)
  /-- `st_write` has failed. -/
  | broken (d : Dir) (lost : List UInt8) (pos : s.pos = .done) (cli : s.cli_open = false)
      (sock : s.sock_open = false) (broken : s.broken = some d) (le : lost.length ≤ IOBUFSIZE)
      (octets : s.received d = s.sent d ++ lost) (others : ∀ d', d' ≠ d → s.sent d' = s.received d')

variable {s s' : Request} {buf : ℕ → UInt8} {d : Dir} {next : Bool}

/-- Both directions are level. -/
theorem level_of_others (hothers : ∀ d', d' ≠ d → s.sent d' = s.received d')
    (hd : s.sent d = s.received d) : s.Level := by
  intro d'
  by_cases hd' : d' = d
  · rw [hd', hd]
  · exact hothers d' hd'

/-- The thread returns from a level state. -/
theorem close_between (h : s.Level) : s.close.Between := .done rfl rfl rfl h

/-- A level thread passes on what it reads next. -/
theorem pass_between (h : s.Connected) (hlevel : s.Level) (buf : ℕ → UInt8) (d : Dir) (next : Bool) :
    (s.pass buf d next).Between :=
  .read d next buf _ rfl (Or.inl rfl) ⟨h.cli, h.sock⟩ hlevel

/-- `st_poll` returns to a level thread. -/
theorem pollReturns_between (h : s.Connected) (hlevel : s.Level) (hpos : s.pos = .poll) (n : ℤ)
    (in₀ in₁ : Bool) : (s.pollReturns buf n in₀ in₁).Between := by
  unfold pollReturns
  split_ifs
  · exact close_between hlevel
  · exact pass_between h hlevel buf .out in₁
  · exact pass_between h hlevel buf .back false
  · exact .poll hpos h hlevel

/-- All octets of the buffer were written. -/
theorem writeReturns_between (h : s.Connected) (hlevel : s.Level) (nr : ℤ) :
    (s.writeReturns buf d next nr nr).Between := by
  unfold writeReturns
  rw [if_neg (not_not.mpr rfl)]
  split_ifs
  · exact pass_between h hlevel buf .back false
  · exact .poll rfl ⟨h.cli, h.sock⟩ hlevel

/-- What was read is written next. -/
theorem readReturns_between {mem : ℕ → UInt8} {nr : ℕ} (h : s.Connected) (hle : nr ≤ IOBUFSIZE)
    (hoctets : s.received d = s.sent d ++ (List.range nr).map mem)
    (hothers : ∀ d', d' ≠ d → s.sent d' = s.received d') :
    (s.readReturns buf d next mem nr).Between := by
  unfold readReturns
  split_ifs with hnone
  · -- The end of the stream.
    have hzero : nr = 0 := by omega
    refine close_between (level_of_others hothers ?_)
    rw [hoctets, hzero]
    simp
  · obtain ⟨x, hstart, hgoing, hrest⟩ := start_write mem (by omega : 0 < nr) s.errno
    rw [hstart]
    refine .write d next nr x _ rfl (Or.inl rfl) hgoing hle ⟨h.cli, h.sock⟩ ?_ hothers
    rw [hrest]
    exact hoctets

/-- A step of `st_read` has received `o`. -/
theorem readGoes_between {mem : ℕ → UInt8} {l : Io.Label} {p : Io.Pos} (h : s.Connected)
    (hreads : Reads mem l p) (hoctets : s.received d = s.sent d ++ data l)
    (hothers : ∀ d', d' ≠ d → s.sent d' = s.received d') : (s.readGoes buf d next p).Between := by
  have hlevel : data l = [] → s.Level := by
    intro hnone
    refine level_of_others hothers ?_
    rw [hoctets, hnone, List.append_nil]
  cases hreads with
  | sock none => exact .read d next mem _ rfl (Or.inl rfl) ⟨h.cli, h.sock⟩ (hlevel none)
  | wait none => exact .read d next mem _ rfl (Or.inr rfl) ⟨h.cli, h.sock⟩ (hlevel none)
  | ends x nr le octets => exact readReturns_between h le (octets ▸ hoctets) hothers
  | failed x none => exact close_between (hlevel none)

/-- A step of `st_write` has sent the octets that were next. -/
theorem writeGoes_between {nr : ℕ} {x : Xfer} {l : Io.Label} {p : Io.Pos} (h : s.Connected)
    (hwrites : Writes nr x l p) (hgoing : Going nr x) (hle : nr ≤ IOBUFSIZE) {sent : List UInt8}
    (hreceived : s.received d = sent ++ rest x) (hsent : s.sent d = sent ++ data l)
    (hothers : ∀ d', d' ≠ d → s.sent d' = s.received d') : (s.writeGoes buf d next nr p).Between := by
  have hoctets : ∀ {x' : Xfer}, data l ++ rest x' = rest x → s.received d = s.sent d ++ rest x' := by
    intro x' hrest
    rw [hreceived, hsent, ← hrest, List.append_assoc]
  cases hwrites with
  | sock x' going octets =>
    exact .write d next nr x' _ rfl (Or.inl rfl) going hle ⟨h.cli, h.sock⟩ (hoctets octets) hothers
  | wait x' going octets =>
    exact .write d next nr x' _ rfl (Or.inr rfl) going hle ⟨h.cli, h.sock⟩ (hoctets octets) hothers
  | all y octets =>
    refine writeReturns_between h (level_of_others hothers ?_) nr
    rw [hreceived, hsent, octets]
  | failed y none =>
    have hne : (-1 : ℤ) ≠ nr := by omega
    simp only [writeGoes, writeReturns]
    rw [if_pos hne]
    refine .broken d (rest x) rfl rfl rfl rfl ?_ ?_ hothers
    · have hrest := length_rest hgoing
      omega
    · rw [none, List.append_nil] at hsent
      exact hreceived.trans (congrArg (· ++ rest x) hsent.symm)

variable {stack : ℕ → ℕ → UInt8} {l : Label}

/-- A step keeps what a thread has passed on. -/
theorem step_between (h : s.Between) (hstep : step stack s l = some s') : s'.Between := by
  unfold step at hstep
  cases h with
  | socket pos cli sock level =>
    rw [pos] at hstep
    cases l with
    | socket ok opened =>
      dsimp only at hstep
      -- Without a socket the descriptor of the client is closed, and nothing was passed on.
      split_ifs at hstep
      · cases hstep
        exact .connect _ rfl ⟨cli, rfl⟩ level
      · cases hstep
        exact close_between level
    | _ => cases hstep
  | connect call pos connected level =>
    rw [pos] at hstep
    cases l with
    | connect l =>
      obtain ⟨call', -, rfl⟩ := Option.map_eq_some_iff.mp hstep
      dsimp only
      split
      · split_ifs
        · exact close_between level
        · exact .poll rfl ⟨connected.cli, connected.sock⟩ level
      · exact .connect _ rfl ⟨connected.cli, connected.sock⟩ level
    | _ => cases hstep
  | poll pos connected level =>
    rw [pos] at hstep
    cases l with
    | poll n in₀ in₁ =>
      cases hstep
      exact pollReturns_between connected level pos n in₀ in₁
    | _ => cases hstep
  | read d next buf call pos reads connected level =>
    rw [pos] at hstep
    cases l with
    | io l =>
      obtain ⟨st, hst, rfl⟩ := Option.map_eq_some_iff.mp hstep
      -- What was read counts as received, and is in the buffer that is to be written.
      refine readGoes_between ⟨connected.cli, connected.sock⟩ (step_reads reads hst) ?_ fun d' hd => ?_
      · dsimp only
        rw [Function.update_self, level d]
      · dsimp only
        rw [Function.update_of_ne hd, level d']
    | _ => cases hstep
  | write d next nr x call pos writes going le connected octets others =>
    rw [pos] at hstep
    cases l with
    | io l =>
      obtain ⟨st, hst, rfl⟩ := Option.map_eq_some_iff.mp hstep
      -- What is sent counts for this direction only.
      refine writeGoes_between ⟨connected.cli, connected.sock⟩ (step_writes going writes hst) going le octets
        ?_ fun d' hd => ?_
      · exact Function.update_self _ _ _
      · dsimp only
        rw [Function.update_of_ne hd, others d' hd]
    | _ => cases hstep
  | done pos _ _ _ =>
    rw [pos] at hstep
    cases hstep
  | broken _ _ pos _ _ _ _ _ _ =>
    rw [pos] at hstep
    cases hstep

/-! ## Runs -/

/-- What holds of a thread between any two steps. -/
structure Spec (s : Request) : Prop where
  /-- What was sent is what was received, without any modification, as far as it was sent. -/
  relayed : ∀ d, s.sent d <+: s.received d
  /-- No more than one buffer is on the way. -/
  buffered : ∀ d, (s.received d).length ≤ (s.sent d).length + IOBUFSIZE
  /-- Octets are on the way only while they are written, and are lost only if that fails. -/
  pending : ∀ d, s.sent d ≠ s.received d →
    (∃ next nr call, s.pos = .write d next nr call) ∨ s.pos = .done ∧ s.broken = some d
  /-- A thread that has returned has closed both descriptors, and no other one has. -/
  closed : s.pos = .done → s.cli_open = false ∧ s.sock_open = false
  connected : s.pos ≠ .done → s.cli_open = true ∧ (s.sock_open = true ↔ s.pos ≠ .socket)

/-- A part of a buffer is on the way. -/
structure Short (s : Request) (d : Dir) (lost : List UInt8) : Prop where
  le : lost.length ≤ IOBUFSIZE
  octets : s.received d = s.sent d ++ lost
  others : ∀ d', d' ≠ d → s.sent d' = s.received d'

/-- In a level state nothing is on the way. -/
theorem Level.short (h : s.Level) (d : Dir) : s.Short d [] :=
  ⟨by decide, by rw [h d, List.append_nil], fun d' _ => h d'⟩

/-- What was sent is the first part of what was received. -/
theorem Short.relayed {lost : List UInt8} (h : s.Short d lost) (d' : Dir) :
    s.sent d' <+: s.received d' := by
  by_cases hd : d' = d
  · rw [hd, h.octets]
    exact List.prefix_append _ _
  · rw [h.others d' hd]

/-- What is on the way fits into the buffer. -/
theorem Short.buffered {lost : List UInt8} (h : s.Short d lost) (d' : Dir) :
    (s.received d').length ≤ (s.sent d').length + IOBUFSIZE := by
  by_cases hd : d' = d
  · have hle := h.le
    rw [hd, h.octets, List.length_append]
    omega
  · rw [h.others d' hd]
    exact le_add_of_nonneg_right (by decide)

/-- Only the direction with the buffer can be behind. -/
theorem Short.eq {lost : List UInt8} (h : s.Short d lost) {d' : Dir} (hne : s.sent d' ≠ s.received d') :
    d' = d :=
  not_not.mp fun hd => hne (h.others d' hd)

/-- A level state is as it has to be. -/
theorem Level.spec (h : s.Level) (hpos : s.pos ≠ .done) (hcli : s.cli_open = true)
    (hsock : s.sock_open = true ↔ s.pos ≠ .socket) : s.Spec where
  relayed := (h.short .out).relayed
  buffered := (h.short .out).buffered
  pending d hd := absurd (h d) hd
  closed hdone := absurd hdone hpos
  connected _ := ⟨hcli, hsock⟩

/-- The thread is as it has to be, wherever it is. -/
theorem Between.spec (h : s.Between) : s.Spec := by
  cases h with
  | socket pos cli sock level => exact level.spec (by simp [pos]) cli (by simp [pos, sock])
  | connect call pos connected level =>
    exact level.spec (by simp [pos]) connected.cli (by simp [pos, connected.sock])
  | poll pos connected level => exact level.spec (by simp [pos]) connected.cli (by simp [pos, connected.sock])
  | read d next buf call pos reads connected level =>
    exact level.spec (by simp [pos]) connected.cli (by simp [pos, connected.sock])
  | write d next nr x call pos writes going le connected octets others =>
    have hrest := length_rest going
    have hshort : s.Short d (rest x) := ⟨by omega, octets, others⟩
    refine ⟨hshort.relayed, hshort.buffered, fun d' hd => Or.inl ?_, ?_, ?_⟩
    · exact ⟨next, nr, call, (hshort.eq hd) ▸ pos⟩
    · rw [pos]
      intro h
      cases h
    · simp [pos, connected.cli, connected.sock]
  | done pos cli sock level =>
    exact ⟨(level.short .out).relayed, (level.short .out).buffered, fun d hd => absurd (level d) hd,
      fun _ => ⟨cli, sock⟩, fun h => absurd pos h⟩
  | broken d lost pos cli sock broken le octets others =>
    have hshort : s.Short d lost := ⟨le, octets, others⟩
    refine ⟨hshort.relayed, hshort.buffered, fun d' hd => Or.inr ⟨pos, ?_⟩, fun _ => ⟨cli, sock⟩,
      fun h => absurd pos h⟩
    rw [broken, hshort.eq hd]

/-- What a thread relays. Whatever the sockets and the other calls return, and whatever is in the buffers
before: after each run of `handle_request`, the octets that were sent in a direction are those that were
received in it, except for a part of the last buffer that is still to be written, or that was lost since
`st_write` failed. -/
theorem run_relays (stack : ℕ → ℕ → UInt8) (errno : ℤ) {ls : List Label}
    (hrun : Runs.run (step stack) (begin errno) ls = some s) : s.Spec := by
  have hbetween : s.Between := by
    refine Runs.run_invariant_of_step (I := Between) ?_ ?_ hrun
    · intro s l s' h hstep
      exact step_between h hstep
    · exact .socket rfl rfl rfl fun _ => rfl
  exact hbetween.spec

/-- The client sends two octets, of which the host takes one at first. The answer gets lost, as the client
has closed the connection. -/
def losesAnswer : List Label :=
  [.socket true true, .connect (.connect .ok), .poll 1 true true, .io (.sock (.ok [71, 13])),
    .io (.sock (.ok [71])), .io (.poll (.ready false)), .io (.sock (.ok [13])), .io (.sock (.ok [72])),
    .io (.sock (.error 10054))]

/-- The octets of the client are relayed, and the one of the host is lost. -/
theorem run_relays_losesAnswer : ∃ s, Runs.run (step fun _ _ => 0) (begin 0) losesAnswer = some s ∧
    s.sent .out = [71, 13] ∧ s.received .back = [72] ∧ s.sent .back = [] ∧ s.broken = some .back ∧ s.Spec :=
  ⟨_, (Option.some_get (by decide)).symm, by decide, by decide, by decide, by decide,
    run_relays (fun _ _ => 0) 0 (Option.some_get (by decide)).symm⟩

end Request

end StWin.Proxy
