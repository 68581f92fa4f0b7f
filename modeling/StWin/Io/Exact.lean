import StWin.Io.Timeout
import Mathlib.Data.List.Range

/-!
# Exact transfer

`st_write` and `st_read_fully` move `buf` forward by what each call of the socket has moved, and take
it off `nleft`. An observer notes the range of `buf` that each call is given, and the range that it
fills or empties. `Along` is what the notes and the locals have in common while a call is under way:
the ranges so far are the octets before `buf`, in order, and the rest is `nleft`. From it follows what
a call has moved when it returns (`run_exact`).

Up to `INT_MAX` the cast of `nleft` to `int` changes nothing; beyond it, the socket would be given a
negative length.
-/

namespace StWin.Io

/-- `INT_MAX`. -/
def INT_MAX : ℤ := 2 ^ 31 - 1

/-! ## What an observer notes -/

/-- The calls of the socket. A range is an offset into the caller's buffer and a length. -/
structure Traffic where
  /-- The ranges that the calls were given. -/
  given : List (ℕ × ℤ)
  /-- The ranges that the calls that succeeded have moved. -/
  moved : List (ℕ × ℕ)
  /-- What `recv` has delivered. -/
  received : List UInt8
  /-- A call has moved nothing; for `recv` this is the end of the stream. -/
  ended : Bool

/-- Nothing yet. -/
def Traffic.none : Traffic := ⟨[], [], [], false⟩

/-- A call of the socket for `x` ends with `o`. -/
def Traffic.note (w : Traffic) (x : Xfer) (o : Sock) : Traffic :=
  let w := { w with given := w.given ++ [(x.off, x.request)] }
  match o with
  | .ok data =>
    { w with
      moved := w.moved ++ [(x.off, data.length)]
      received := w.received ++ data
      ended := w.ended || data.isEmpty }
  | .error _ => w

/-- The observer. -/
def track (w : Traffic) (s : State) (l : Label) (_ : State) : Traffic :=
  match s.pos, l with
  | .sock x, .sock o => w.note x o
  | _, _ => w

/-- The offsets of the octets that were moved, in the order in which they were. -/
def Traffic.offsets (w : Traffic) : List ℕ := w.moved.flatMap fun r => List.range' r.1 r.2

/-- The socket was given ranges inside of the buffer only. -/
def Traffic.Inside (w : Traffic) (nbyte : ℤ) : Prop :=
  ∀ r ∈ w.given, 0 ≤ r.2 ∧ r.1 + r.2 ≤ nbyte

/-- What `st_write` has sent when it returns `r`: the whole buffer, or, with `-1`, a part that does
not reach its end. -/
def Sent (w : Traffic) (nbyte r : ℤ) : Prop :=
  (r = nbyte ∧ w.offsets = List.range nbyte.toNat) ∨
    (r = -1 ∧ ∃ k : ℕ, (k : ℤ) < nbyte ∧ w.offsets = List.range k)

/-- What `st_read_fully` has stored in `mem` when it returns `r`. -/
def Filled (w : Traffic) (nbyte : ℤ) (mem : ℕ → UInt8) (r : ℤ) : Prop :=
  0 ≤ r → r ≤ nbyte ∧ (List.range r.toNat).map mem = w.received ∧ (r < nbyte → w.ended = true)

/-! ## While a call is under way -/

/-- The locals of a call and the notes. -/
structure Along (c : Call) (w : Traffic) (x : Xfer) : Prop where
  fn : x.fn = c.fn
  nbyte : x.nbyte = c.nbyte
  rest : x.off + x.nleft = c.nbyte
  left : 0 ≤ x.nleft
  offsets : w.offsets = List.range x.off
  received : x.fn.sends = false → (List.range x.off).map x.mem = w.received

/-- A call returns. -/
structure Ends (c : Call) (w : Traffic) (x : Xfer) (r : ℤ) : Prop where
  write : c.fn = .write → Sent w c.nbyte r
  read_fully : c.fn = .read_fully → Filled w c.nbyte x.mem r

/-- Where a call is, with what it has moved. -/
def Pos.Exact (c : Call) (w : Traffic) : Pos → Prop
  | .sock x => Along c w x
  | .wait x => Along c w x
  | .done x r => Ends c w x r

variable {c : Call} {w : Traffic} {x : Xfer} {s s' : State} {l : Label}

/-- The cast to `int` does not change a length up to `INT_MAX`. -/
theorem Along.request_eq (h : Along c w x) (hmax : c.nbyte ≤ INT_MAX) : x.request = x.nleft := by
  have hoff : (0 : ℤ) ≤ x.off := Int.natCast_nonneg _
  have hrest := h.rest
  have hleft := h.left
  unfold INT_MAX at hmax
  unfold Xfer.request
  rw [Int.bmod_eq_of_le]
  · omega
  · omega

/-- A call that fails has not moved the whole buffer. -/
theorem Along.ends_failed (h : Along c w x) (hleft : 0 < x.nleft) : Ends c w x (-1) where
  write _ := by
    refine Or.inr ⟨rfl, x.off, ?_, h.offsets⟩
    rw [← h.rest]
    linarith
  read_fully _ := fun hr => absurd hr (by decide)

/-- The head of the loop. -/
theorem Along.loop (h : Along c w x) : x.loop.Exact c w := by
  unfold Xfer.loop
  split_ifs with hend hsends
  · -- `st_write` with nothing left.
    have hzero : x.nleft = 0 := le_antisymm hend.2 h.left
    have hoff : (x.off : ℤ) = c.nbyte := by rw [← h.rest, hzero, add_zero]
    refine ⟨fun _ => Or.inl ⟨h.nbyte, ?_⟩, fun hfn => ?_⟩
    · rw [h.offsets, ← hoff, Int.toNat_natCast]
    · rw [h.fn, hfn] at hsends
      cases hsends
  · -- `st_read_fully` with nothing left.
    have hzero : x.nleft = 0 := le_antisymm hend.2 h.left
    have hoff : (x.off : ℤ) = c.nbyte := by rw [← h.rest, hzero, add_zero]
    refine ⟨fun hfn => ?_, fun _ _ => ?_⟩
    · rw [h.fn, hfn] at hsends
      exact absurd rfl hsends
    · rw [h.nbyte, hzero, sub_zero]
      refine ⟨le_rfl, ?_, fun hlt => absurd hlt (lt_irrefl _)⟩
      rw [← hoff, Int.toNat_natCast]
      exact h.received (Bool.eq_false_iff.mpr hsends)
  · exact h

/-- An error returns, or lets the call go on with the same range. -/
theorem Along.fail (h : Along c w x) (hleft : 0 < x.nleft) (errno : ℤ) :
    (x.fail errno).Exact c w := by
  unfold Xfer.fail
  split_ifs
  · exact h.loop
  · exact h
  · exact h.ends_failed hleft

/-! ## A call of the socket that succeeds -/

/-- The ranges so far and the next one. -/
theorem range_append_range' (k n : ℕ) : List.range k ++ List.range' k n = List.range (k + n) := by
  rw [List.range_eq_range', List.range_eq_range']
  have h := @List.range'_append 0 k n 1
  rwa [one_mul, zero_add] at h

/-- The octets that a call of the socket has moved are added to those before. -/
theorem note_offsets (w : Traffic) (x : Xfer) (data : List UInt8) :
    (w.note x (.ok data)).offsets = w.offsets ++ List.range' x.off data.length := by
  simp [Traffic.note, Traffic.offsets]

/-- What is stored at `buf` stands behind what was stored before. -/
theorem store_range (x : Xfer) (data : List UInt8) (hfn : x.fn.sends = false) :
    (List.range (x.off + data.length)).map (x.store data).mem =
      (List.range x.off).map x.mem ++ data := by
  have hmem : (x.store data).mem =
      fun i => if x.off ≤ i then data.getD (i - x.off) (x.mem i) else x.mem i := by
    simp [Xfer.store, hfn]
  rw [List.range_add, List.map_append, List.map_map, hmem]
  congr 1
  · apply List.map_congr_left
    intro i hi
    exact if_neg (Nat.not_le.mpr (List.mem_range.mp hi))
  · apply List.ext_getElem
    · simp
    · intro i hi hi'
      simp [hi']

/-- The octets that `data` stands for are behind those before. -/
theorem Along.note (h : Along c w x) {data : List UInt8} (hle : (data.length : ℤ) ≤ x.nleft) :
    Along c (w.note x (.ok data))
      { x.store data with nleft := x.nleft - data.length, off := x.off + data.length } where
  fn := h.fn
  nbyte := h.nbyte
  rest := by
    have hrest := h.rest
    push_cast
    linarith
  left := by
    dsimp only
    linarith
  offsets := by rw [note_offsets, h.offsets, range_append_range']
  received hfn := by
    refine (store_range x data hfn).trans ?_
    rw [h.received hfn]
    rfl

/-- What a call of the socket has moved is taken off the range. -/
theorem Along.progress (h : Along c w x) (hrep : c.fn.repeats = true) {data : List UInt8}
    (hle : (data.length : ℤ) ≤ x.nleft) :
    ((x.store data).progress data.length).Exact c (w.note x (.ok data)) := by
  have hnext := h.note hle
  have hrest := h.rest
  have hfn : (x.store data).fn = c.fn := h.fn
  have hnbyte : (x.store data).nbyte = c.nbyte := h.nbyte
  unfold Xfer.progress
  split
  · next hread =>
    have hcfn : c.fn = .read_fully := by rw [← hfn, hread]
    dsimp only
    split_ifs with hend
    · -- The buffer is full, or this is the end of the stream.
      refine ⟨fun hw => absurd (hcfn.symm.trans hw) (by decide), fun _ _ => ?_⟩
      have hr : (x.store data).nbyte - ((x.store data).nleft - data.length) =
          ((x.off + data.length : ℕ) : ℤ) := by
        have hnleft : (x.store data).nleft = x.nleft := rfl
        rw [hnbyte, hnleft]
        push_cast
        linarith
      rw [hr]
      refine ⟨?_, ?_, ?_⟩
      · push_cast
        linarith
      · rw [Int.toNat_natCast]
        exact hnext.received (by rw [show Xfer.fn _ = c.fn from hfn, hcfn]; rfl)
      · intro hlt
        rcases hend with hzero | hzero
        · have hzero : x.nleft - data.length = 0 := hzero
          push_cast at hlt
          linarith
        · rw [List.length_eq_zero_iff] at hzero
          simp [Traffic.note, hzero]
    · -- There is room left, and the loop goes on behind what was read.
      exact hnext
  · next hwrite =>
    have hcfn : c.fn = .write := by rw [← hfn, hwrite]
    split_ifs with hend
    · -- `st_write` has nothing left to send.
      refine ⟨fun _ => Or.inl ⟨hnbyte, ?_⟩, fun hr => absurd (hcfn.symm.trans hr) (by decide)⟩
      have hend : (data.length : ℤ) = x.nleft := hend
      have hall : c.nbyte = ((x.off + data.length : ℕ) : ℤ) := by
        push_cast
        linarith
      rw [hnext.offsets, hall, Int.toNat_natCast]
    · exact hnext
  -- The other functions do not repeat their calls.
  all_goals
    next hother =>
      rw [hother] at hfn
      rw [← hfn] at hrep
      cases hrep

/-! ## Runs -/

/-- What the octets that a call has moved have to do with where the call is. -/
structure ExactInv (c : Call) (s : State) (w : Traffic) : Prop where
  pos : s.pos.Exact c w
  inside : w.Inside c.nbyte
  left : s.pos.Left

/-- A call begins with nothing moved. -/
theorem start_exact (errno : ℤ) (hn : 0 ≤ c.nbyte) (hfd : c.fd = true) :
    ExactInv c (start c errno) Traffic.none where
  pos := by
    have h : Along c Traffic.none ⟨c.fn, c.nbyte, c.mem, 0, c.nbyte, []⟩ :=
      ⟨rfl, rfl, zero_add _, hn, rfl, fun _ => rfl⟩
    unfold start
    dsimp only
    rw [if_pos hfd]
    exact h.loop
  inside r hr := by cases hr
  left := start_left c errno

/-- The range that the socket is given. -/
theorem Along.inside (h : Along c w x) (hmax : c.nbyte ≤ INT_MAX) (hw : w.Inside c.nbyte) (o : Sock) :
    (w.note x o).Inside c.nbyte := by
  have hgiven : (w.note x o).given = w.given ++ [(x.off, x.request)] := by
    cases o <;> rfl
  intro r hr
  rw [hgiven, List.mem_append, List.mem_singleton] at hr
  rcases hr with hr | rfl
  · exact hw r hr
  · dsimp only
    rw [h.request_eq hmax]
    exact ⟨h.left, h.rest.le⟩

/-- Each step moves what the notes say. -/
theorem step_exact (hmax : c.nbyte ≤ INT_MAX) (hrep : c.fn.repeats = true) (h : ExactInv c s w)
    (hstep : step s l = some s') : ExactInv c s' (track w s l s') := by
  have hleft := step_left h.left hstep
  have hpos := h.pos
  have hgoes := h.left
  unfold step at hstep
  split at hstep
  · next _ x o hsock =>
    rw [hsock] at hpos hgoes
    have halong : Along c w x := hpos
    have hpositive : 0 < x.nleft := hgoes (by rw [halong.fn, hrep])
    have htrack : track w s (.sock o) s' = w.note x o := by simp [track, hsock]
    rw [htrack]
    refine ⟨?_, halong.inside hmax h.inside o, hleft⟩
    split_ifs at hstep with hallows
    cases o with
    | ok data =>
      cases hstep
      refine halong.progress hrep ?_
      rw [← halong.request_eq hmax]
      exact hallows.1
    | error syserr =>
      cases hstep
      -- The notes on what was moved stay as they are.
      have hsame : Along c (w.note x (.error syserr)) x :=
        ⟨halong.fn, halong.nbyte, halong.rest, halong.left, halong.offsets, halong.received⟩
      exact hsame.fail hpositive _
  · next _ x p hwait =>
    rw [hwait] at hpos hgoes
    have halong : Along c w x := hpos
    have hpositive : 0 < x.nleft := hgoes (by rw [halong.fn, hrep])
    have htrack : track w s (.poll p) s' = w := by simp [track, hwait]
    rw [htrack]
    refine ⟨?_, h.inside, hleft⟩
    dsimp only at hstep
    cases hstep
    dsimp only
    split_ifs
    · exact halong.ends_failed hpositive
    · exact halong.loop
  · cases hstep

/-- Stream transfer is exact. For every call of `st_write` or `st_read_fully` with at most `INT_MAX`
octets, and every sequence of results of the socket and of `st_netfd_poll`: the socket is given no
range outside of the buffer; when `st_write` returns, the ranges that were accepted are the whole
buffer, or it returns `-1` and they are a proper prefix of it; and when `st_read_fully` returns a
count, the buffer holds that many octets, those that were received in order, fewer than asked for only
at the end of the stream. -/
theorem run_exact (c : Call) (errno : ℤ) (ls : List Label) (s : State) (hn : 0 ≤ c.nbyte)
    (hmax : c.nbyte ≤ INT_MAX) (hfd : c.fd = true) (hfn : c.fn = .write ∨ c.fn = .read_fully)
    (hrun : Runs.run step (start c errno) ls = some s) :
    let w := Runs.record step track Traffic.none (start c errno) ls
    w.Inside c.nbyte ∧
      ∀ x r, s.pos = .done x r →
        (c.fn = .write → Sent w c.nbyte r) ∧ (c.fn = .read_fully → Filled w c.nbyte x.mem r) := by
  have hrep : c.fn.repeats = true := by
    rcases hfn with hfn | hfn <;> rw [hfn] <;> rfl
  have h : ExactInv c s (Runs.record step track Traffic.none (start c errno) ls) := by
    refine Runs.record_invariant_of_step (I := ExactInv c) ?_ (start_exact errno hn hfd) hrun
    intro s l s' w h hstep
    exact step_exact hmax hrep h hstep
  refine ⟨h.inside, fun x r hdone => ?_⟩
  have hends := h.pos
  rw [hdone] at hends
  have hends : Ends c _ x r := hends
  exact ⟨hends.write, hends.read_fully⟩

/-- Four octets to write. -/
def writesFour : Call := ⟨.write, true, 4, fun i => UInt8.ofNat (10 + i)⟩

/-- The socket takes one of them, then blocks, and takes the others. -/
def takesFour : List Label :=
  [.sock (.ok [10]), .poll (.ready false), .sock (.error WSAEWOULDBLOCK), .poll .expired,
    .sock (.error 10004), .sock (.ok [11, 12, 13])]

/-- The run is possible, and the four octets are sent in order. -/
theorem run_exact_four : ∃ s x, Runs.run step (start writesFour 0) takesFour = some s ∧
    s.pos = .done x 4 ∧
    Sent (Runs.record step track Traffic.none (start writesFour 0) takesFour) 4 4 := by
  refine ⟨(Runs.run step (start writesFour 0) takesFour).get (by decide), _, by simp, rfl, ?_⟩
  exact ((run_exact writesFour 0 takesFour _ (by decide) (by decide) rfl (Or.inl rfl)
    (Option.some_get (by decide)).symm).2 _ 4 rfl).1 rfl

end StWin.Io
