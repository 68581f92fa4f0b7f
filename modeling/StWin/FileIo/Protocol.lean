import StWin.FileIo.Model
import StWin.Lib.Runs

/-!
# Parent and child stay in step

The messages of the two processes have no frame but their length, and neither side looks for the rest of a
message of which it has got a part. If the kernel delivers each message as a whole (`Whole`), there is at
most one of them under way, and it belongs to the call that the thread of the parent is in (`InStep`): at
the end of a call, both pipes are empty. Then the position that the child keeps is the one of the
descriptor, as long as this was so at the first command: the child begins with position 0 and does not seek
to an offset at which it believes to be.
-/

namespace StWin.FileIo

/-! ## Words -/

/-- The encoding of a word has as many bytes as asked for. -/
@[simp]
theorem length_le (n x : ℕ) : (le n x).length = n := by
  induction n generalizing x with
  | zero => rfl
  | succ n ih => rw [le, List.length_cons, ih]

/-- A word is read as it was written, up to its width. -/
theorem ofLe_le (n x : ℕ) : ofLe (le n x) = x % 256^n := by
  induction n generalizing x with
  | zero => rw [le, ofLe, pow_zero, Nat.mod_one]
  | succ n ih =>
    have hbyte : (UInt8.ofNat x).toNat = x % 256 := UInt8.toNat_ofNat'
    calc ofLe (le (n + 1) x)
        = x % 256 + 256 * (x / 256 % 256^n) := by rw [le, ofLe, hbyte, ih]
      _ = x % 256^(n + 1) := by rw [pow_succ', Nat.mod_mul]

/-- A number that is not too large is read as it was written. -/
theorem signed_le {x : ℕ} (h : x < 2^63) : signed (le 8 x) = x := by
  have hvalue : ofLe (le 8 x) = x :=
    (ofLe_le 8 x).trans (Nat.mod_eq_of_lt (h.trans_le (by norm_num)))
  calc signed (le 8 x)
      = Int.bmod (ofLe (le 8 x)) (2^64) := rfl
    _ = Int.bmod x (2^64) := by rw [hvalue]
    _ = x := by
      apply Int.bmod_eq_of_le
      · omega
      · omega

/-! ## The messages of a call -/

/-- A command has the length that the child reads. -/
theorem Call.length_cb (c : Call) : c.cb.length = CB_SIZE := by
  rw [cb, List.length_append, length_le, length_le, CB_SIZE]

/-- The bytes of the file that a call is to read. -/
def Call.bytes (file : List UInt8) (c : Call) : List UInt8 := (file.drop c.offset).take c.nbytes

/-- The messages that the child sends for it. -/
def Call.reply (file : List UInt8) (c : Call) : List UInt8 :=
  le 8 (c.bytes file).length ++ c.bytes file

/-- The length is positive as a signed number, and there is room for the bytes in the buffer of the
child. -/
structure Call.Proper (file : List UInt8) (c : Call) : Prop where
  pos : 1 ≤ c.nbytes
  signed : c.nbytes < 2^63
  fits : min c.nbytes (file.length - c.offset) ≤ FILEREADER_MAX_READ

instance (file : List UInt8) (c : Call) : Decidable (c.Proper file) :=
  decidable_of_iff (1 ≤ c.nbytes ∧ c.nbytes < 2^63 ∧
      min c.nbytes (file.length - c.offset) ≤ FILEREADER_MAX_READ)
    ⟨fun h => ⟨h.1, h.2.1, h.2.2⟩, fun h => ⟨h.pos, h.signed, h.fits⟩⟩

/-- The child reads what is left of the file, and no more than was asked for. -/
theorem Call.length_bytes (file : List UInt8) (c : Call) :
    (c.bytes file).length = min c.nbytes (file.length - c.offset) := by
  rw [bytes, List.length_take, List.length_drop]

section messages

variable {file : List UInt8} {c : Call}

/-- The child has seeked, or is where it believes to be: it reads what the call is to read. -/
theorem Reader.serve_spec (h : c.Proper file) {pos filepos : ℕ} (hpos : c.offset ≠ pos ∨ filepos = pos) :
    Reader.serve file ⟨pos, [], false, false⟩ filepos c.cb =
      (⟨c.offset + (c.bytes file).length, c.reply file, false, false⟩,
        c.offset + (c.bytes file).length) := by
  have hoffset : signed (c.cb.take 8) = c.offset := by
    rw [Call.cb, List.take_left' (length_le 8 _), signed_le c.offset_lt]
  have hnbytes : signed (c.cb.drop 8) = c.nbytes := by
    rw [Call.cb, List.drop_left' (length_le 8 _), signed_le h.signed]
  have hseek : (if (pos : ℤ) ≠ c.offset then c.offset else pos) = c.offset := by
    split_ifs with hne
    · rfl
    · omega
  have hseek' : (if (pos : ℤ) ≠ c.offset then c.offset else filepos) = c.offset := by
    split_ifs with hne
    · rfl
    · omega
  have hroom : ¬FILEREADER_MAX_READ < (c.bytes file).length := by
    rw [c.length_bytes]
    exact not_lt.mpr h.fits
  have hpositive := h.pos
  unfold Reader.serve
  rw [hoffset, hnbytes, if_neg (by omega), if_neg (by omega)]
  simp only [Int.toNat_natCast, hseek, hseek']
  change (Reader.mk _ _ _ (false || decide (FILEREADER_MAX_READ < (c.bytes file).length)), _) = _
  rw [decide_eq_false hroom]
  rfl

/-- The number that comes first is the length of the rest. -/
theorem Call.received_spec (h : c.Proper file) : c.received (le 8 (c.bytes file).length) =
    if 0 < (c.bytes file).length then .body c (c.bytes file).length
    else .user (some ⟨c, 0, []⟩) := by
  have hle := c.length_bytes file
  have hsigned : signed (le 8 (c.bytes file).length) = (c.bytes file).length := by
    have hlt := h.signed
    exact signed_le (by omega)
  unfold Call.received
  rw [length_le, Nat.sub_self, List.replicate_zero, List.append_nil, hsigned]
  by_cases hpos : 0 < (c.bytes file).length
  · rw [if_pos hpos, if_pos ⟨rfl, by omega, by omega⟩, Int.toNat_natCast]
  · rw [if_neg hpos, if_neg (by omega), Nat.eq_zero_of_not_pos hpos]
    rfl

end messages

/-! ## The steps -/

/-- A step at which nothing goes wrong: the child can be forked, the first command makes it seek if the
descriptor is not at the beginning of the file, and the messages are not split. -/
def Whole (file : List UInt8) (s : Sys) : Act → Prop
  | .call c forked =>
    forked = true ∧ c.Proper file ∧ (s.reader = none → c.offset ≠ 0 ∨ s.filepos = 0)
  | .recv n =>
    match s.parent with
    | .header _ => n = 8
    | .body _ ret => n = ret
    | _ => True
  | .command n => n = CB_SIZE
  | _ => True

instance (file : List UInt8) : (s : Sys) → (act : Act) → Decidable (Whole file s act)
  | _, .call _ _ => inferInstanceAs (Decidable (_ ∧ _ ∧ (_ → _)))
  | ⟨_, _, _, _, .header _⟩, .recv n => inferInstanceAs (Decidable (n = 8))
  | ⟨_, _, _, _, .body _ ret⟩, .recv n => inferInstanceAs (Decidable (n = ret))
  | ⟨_, _, _, _, .user _⟩, .recv _ => .isTrue trivial
  | ⟨_, _, _, _, .sending _ _⟩, .recv _ => .isTrue trivial
  | _, .command n => inferInstanceAs (Decidable (n = CB_SIZE))
  | _, .send _ => .isTrue trivial
  | _, .sendFails => .isTrue trivial
  | _, .write _ => .isTrue trivial

/-- What a call is to return. -/
structure ReadOk (file : List UInt8) (r : Returned) : Prop where
  count : 0 ≤ r.ret ∧ r.ret ≤ r.call.nbytes
  length : (r.buf.length : ℤ) = r.ret
  bytes : r.buf = (file.drop r.call.offset).take r.ret.toNat
  eof : r.ret = 0 → file.length ≤ r.call.offset ∨ r.call.nbytes = 0

/-- The states in which there is at most one message under way, of the call that the parent is in. -/
inductive InStep (file : List UInt8) : Sys → Prop
  | fresh (filepos : ℕ) : InStep file (.init filepos)
  | user (r : Returned) (pos : ℕ) (ok : ReadOk file r) :
      InStep file ⟨pos, some ⟨pos, [], false, false⟩, [], [], .user (some r)⟩
  | sending (c : Call) (sent rest : List UInt8) (filepos pos : ℕ) (proper : c.Proper file)
      (near : c.offset ≠ pos ∨ filepos = pos) (more : rest ≠ []) (split : sent ++ rest = c.cb) :
      InStep file ⟨filepos, some ⟨pos, [], false, false⟩, sent, [], .sending c rest⟩
  | asked (c : Call) (filepos pos : ℕ) (proper : c.Proper file)
      (near : c.offset ≠ pos ∨ filepos = pos) :
      InStep file ⟨filepos, some ⟨pos, [], false, false⟩, c.cb, [], .header c⟩
  | answered (c : Call) (sent pending : List UInt8) (pos : ℕ) (proper : c.Proper file)
      (split : sent ++ pending = c.reply file) :
      InStep file ⟨pos, some ⟨pos, pending, false, false⟩, [], sent, .header c⟩
  | reading (c : Call) (sent pending : List UInt8) (pos : ℕ) (proper : c.Proper file)
      (some_bytes : 0 < (c.bytes file).length) (split : sent ++ pending = c.bytes file) :
      InStep file ⟨pos, some ⟨pos, pending, false, false⟩, [], sent, .body c (c.bytes file).length⟩

section step

variable {file : List UInt8} {c : Call}

/-- All bytes were read. -/
theorem readOk_bytes (file : List UInt8) (c : Call) :
    ReadOk file ⟨c, (c.bytes file).length, c.bytes file⟩ := by
  have hlen := c.length_bytes file
  refine ⟨⟨Int.natCast_nonneg _, ?_⟩, rfl, ?_, fun hzero => ?_⟩
  · show ((c.bytes file).length : ℤ) ≤ c.nbytes
    omega
  · -- The length is that of the bytes that there are.
    show c.bytes file = (file.drop c.offset).take ((c.bytes file).length : ℤ).toNat
    rw [Int.toNat_natCast, hlen, Call.bytes, ← List.length_drop, ← List.take_eq_take_min]
  · have hnil : (c.bytes file).length = 0 := Int.natCast_eq_zero.mp hzero
    show file.length ≤ c.offset ∨ c.nbytes = 0
    omega

/-- The parent is in a call. -/
def Sys.InCall (s : Sys) : Prop := ∀ r, s.parent ≠ .user r

/-- The number of bytes that the parent has not sent. -/
def Pos.unsent : Pos → ℕ
  | .sending _ rest => rest.length
  | _ => 0

/-- A bound of the number of steps until the end of the call. A byte of a command counts for those of the
reply. -/
def Sys.work (s : Sys) : ℕ :=
  131 * s.parent.unsent + 130 * s.control.length +
    2 * s.reader.elim 0 (fun r => r.pending.length) + s.data.length

/-- One that is smaller. -/
theorem Sys.work_lt {s s' : Sys} {r r' : Reader} (hr : s.reader = some r) (hr' : s'.reader = some r')
    (h : 131 * s'.parent.unsent + 130 * s'.control.length + 2 * r'.pending.length + s'.data.length <
      131 * s.parent.unsent + 130 * s.control.length + 2 * r.pending.length + s.data.length) :
    s'.work < s.work := by
  unfold Sys.work
  rw [hr, hr']
  exact h

variable {s s' : Sys} {act : Act} {filepos pos : ℕ} {sent rest pending : List UInt8}

/-- The child does not write if it has nothing to write. -/
theorem step_write_nil {n : ℕ} {r : Reader} (hr : s.reader = some r) (hp : r.pending = []) :
    s.step file (.write n) = none := by
  simp only [Sys.step, hr, hp, List.length_nil]
  exact if_neg (by omega)

/-- The child does not read a command that is not there as a whole. -/
theorem step_command_short {n : ℕ} {r : Reader} (hr : s.reader = some r) (hn : n = CB_SIZE)
    (hlt : s.control.length < CB_SIZE) : s.step file (.command n) = none := by
  have hno : ¬(r.exited = false ∧ r.pending = [] ∧ 1 ≤ n ∧ n ≤ CB_SIZE ∧ n ≤ s.control.length) := by
    rintro ⟨-, -, -, -, hle⟩
    omega
  unfold Sys.step
  simp only [hr, if_neg hno]

/-- The parent sends a part of the command. -/
theorem step_sending (proper : c.Proper file) (near : c.offset ≠ pos ∨ filepos = pos)
    (more : rest ≠ []) (split : sent ++ rest = c.cb)
    (hs : s = ⟨filepos, some ⟨pos, [], false, false⟩, sent, [], .sending c rest⟩)
    (hwhole : Whole file s act) (hstep : s.step file act = some s') :
    InStep file s' ∧ s'.work < s.work := by
  have hlen : sent.length + rest.length = CB_SIZE := by rw [← List.length_append, split, c.length_cb]
  have hmore := List.length_pos_iff.mpr more
  subst hs
  cases act with
  | call => cases hstep
  | send n =>
    simp only [Sys.step] at hstep
    split_ifs at hstep with hn hall
    · -- This was the last part.
      cases hstep
      subst hall
      rw [List.take_length, split]
      refine ⟨.asked c filepos pos proper near, Sys.work_lt rfl rfl ?_⟩
      rw [← split, List.length_append]
      simp only [Pos.unsent]
      omega
    · cases hstep
      refine ⟨.sending c _ _ filepos pos proper near ?_ ?_, Sys.work_lt rfl rfl ?_⟩
      · rw [Ne, List.drop_eq_nil_iff]
        omega
      · rw [List.append_assoc, List.take_append_drop, split]
      · simp only [Pos.unsent, List.length_append, List.length_take, List.length_drop]
        omega
  | sendFails => simp [Sys.step] at hstep
  | recv => cases hstep
  | command n =>
    rw [step_command_short rfl hwhole (by show sent.length < CB_SIZE; omega)] at hstep
    cases hstep
  | write n =>
    rw [step_write_nil rfl rfl] at hstep
    cases hstep

/-- The child reads the command and the file. -/
theorem step_asked (proper : c.Proper file) (near : c.offset ≠ pos ∨ filepos = pos)
    (hs : s = ⟨filepos, some ⟨pos, [], false, false⟩, c.cb, [], .header c⟩)
    (hwhole : Whole file s act) (hstep : s.step file act = some s') :
    InStep file s' ∧ s'.work < s.work := by
  have hlen := c.length_cb
  have hbytes := c.length_bytes file
  have hfits := proper.fits
  subst hs
  cases act with
  | call => cases hstep
  | send => cases hstep
  | sendFails => cases hstep
  | recv n =>
    have hn : n = 8 := hwhole
    simp only [Sys.step] at hstep
    rw [if_neg (by simp [hn])] at hstep
    cases hstep
  | command n =>
    have hn : n = c.cb.length := Eq.trans hwhole hlen.symm
    have hread : 1 ≤ n ∧ n ≤ CB_SIZE ∧ n ≤ c.cb.length := by
      rw [hn, hlen]
      decide
    unfold Sys.step at hstep
    simp only [true_and, if_pos hread, if_pos (hn.trans hlen)] at hstep
    rw [hn, List.take_length, List.drop_length, Reader.serve_spec proper near] at hstep
    cases hstep
    refine ⟨.answered c [] _ _ proper rfl, Sys.work_lt rfl rfl ?_⟩
    simp only [Pos.unsent, Call.reply, List.length_append, length_le, hlen, List.length_nil]
    rw [FILEREADER_MAX_READ] at hfits
    rw [CB_SIZE]
    omega
  | write n =>
    rw [step_write_nil rfl rfl] at hstep
    cases hstep

/-- The child writes, or the parent reads the length. -/
theorem step_answered (proper : c.Proper file) (split : sent ++ pending = c.reply file)
    (hs : s = ⟨pos, some ⟨pos, pending, false, false⟩, [], sent, .header c⟩)
    (hwhole : Whole file s act) (hstep : s.step file act = some s') :
    InStep file s' ∧ s'.work < s.work := by
  subst hs
  cases act with
  | call => cases hstep
  | send => cases hstep
  | sendFails => cases hstep
  | recv n =>
    have hn : n = 8 := hwhole
    subst hn
    unfold Sys.step at hstep
    dsimp only at hstep
    have hle : 8 ≤ sent.length := by
      by_contra hlt
      rw [if_neg (by omega)] at hstep
      cases hstep
    rw [if_pos (Or.inl ⟨by omega, le_rfl, hle⟩)] at hstep
    cases hstep
    -- The first eight bytes of the reply are in the pipe.
    have hhead : sent.take 8 = le 8 (c.bytes file).length := by
      have htake := congrArg (List.take 8) split
      rw [List.take_append_of_le_length hle, Call.reply, List.take_left' (length_le 8 _)] at htake
      exact htake
    have hrest : sent.drop 8 ++ pending = c.bytes file := by
      have hdrop := congrArg (List.drop 8) split
      rw [List.drop_append_of_le_length hle, Call.reply, List.drop_left' (length_le 8 _)] at hdrop
      exact hdrop
    rw [hhead, Call.received_spec proper]
    split_ifs with hpos
    · refine ⟨.reading c _ pending pos proper hpos hrest, Sys.work_lt rfl rfl ?_⟩
      simp only [Pos.unsent, List.length_drop]
      omega
    · have hnil : c.bytes file = [] := List.length_eq_zero_iff.mp (by omega)
      have hok := readOk_bytes file c
      rw [hnil] at hrest hok
      obtain ⟨hdata, hpending⟩ := List.append_eq_nil_iff.mp hrest
      subst hpending
      rw [hdata]
      refine ⟨.user _ pos hok, Sys.work_lt rfl rfl ?_⟩
      simp only [Pos.unsent, List.length_nil]
      omega
  | command n =>
    rw [step_command_short rfl hwhole (by show 0 < CB_SIZE; decide)] at hstep
    cases hstep
  | write n =>
    simp only [Sys.step] at hstep
    split_ifs at hstep with hn
    cases hstep
    refine ⟨.answered c _ _ pos proper ?_, Sys.work_lt rfl rfl ?_⟩
    · rw [List.append_assoc, List.take_append_drop, split]
    · simp only [Pos.unsent, List.length_append, List.length_take, List.length_drop]
      omega

/-- The child writes, or the parent reads the bytes. -/
theorem step_reading (proper : c.Proper file) (some_bytes : 0 < (c.bytes file).length)
    (split : sent ++ pending = c.bytes file)
    (hs : s = ⟨pos, some ⟨pos, pending, false, false⟩, [], sent, .body c (c.bytes file).length⟩)
    (hwhole : Whole file s act) (hstep : s.step file act = some s') :
    InStep file s' ∧ s'.work < s.work := by
  have hlen : sent.length + pending.length = (c.bytes file).length := by
    rw [← List.length_append, split]
  subst hs
  cases act with
  | call => cases hstep
  | send => cases hstep
  | sendFails => cases hstep
  | recv n =>
    have hn : n = (c.bytes file).length := hwhole
    subst hn
    simp only [Sys.step] at hstep
    split_ifs at hstep with hread
    cases hstep
    -- All bytes are in the pipe.
    have hpending : pending = [] := List.length_eq_zero_iff.mp (by omega)
    subst hpending
    rw [List.append_nil] at split
    rw [← split, List.drop_length, List.take_length]
    have hok := readOk_bytes file c
    rw [← split] at hok some_bytes
    refine ⟨.user _ pos hok, Sys.work_lt rfl rfl ?_⟩
    simp only [Pos.unsent, List.length_nil]
    omega
  | command n =>
    rw [step_command_short rfl hwhole (by show 0 < CB_SIZE; decide)] at hstep
    cases hstep
  | write n =>
    simp only [Sys.step] at hstep
    split_ifs at hstep with hn
    cases hstep
    refine ⟨.reading c _ _ pos proper some_bytes ?_, Sys.work_lt rfl rfl ?_⟩
    · rw [List.append_assoc, List.take_append_drop, split]
    · simp only [Pos.unsent, List.length_append, List.length_take, List.length_drop]
      omega

/-- The thread calls. -/
theorem step_user (h : InStep file s) (huser : ¬s.InCall) (hwhole : Whole file s act)
    (hstep : s.step file act = some s') : InStep file s' := by
  cases h with
  | fresh filepos =>
    cases act with
    | call c forked =>
      obtain ⟨hforked, hproper, hfirst⟩ := hwhole
      subst hforked
      cases hstep
      refine .sending c [] c.cb filepos 0 hproper (hfirst rfl) ?_ (List.nil_append _)
      exact List.ne_nil_of_length_eq_add_one c.length_cb
    | _ => cases hstep
  | user r pos ok =>
    cases act with
    | call c forked =>
      cases hstep
      refine .sending c [] c.cb pos pos hwhole.2.1 (Or.inr rfl) ?_ (List.nil_append _)
      exact List.ne_nil_of_length_eq_add_one c.length_cb
    | command n =>
      rw [step_command_short rfl hwhole (by show 0 < CB_SIZE; decide)] at hstep
      cases hstep
    | write n =>
      rw [step_write_nil rfl rfl] at hstep
      cases hstep
    | _ => cases hstep
  | sending => exact absurd (fun r hr => by cases hr) huser
  | asked => exact absurd (fun r hr => by cases hr) huser
  | answered => exact absurd (fun r hr => by cases hr) huser
  | reading => exact absurd (fun r hr => by cases hr) huser

/-- A step of a call. -/
theorem step_inCall (h : InStep file s) (hcall : s.InCall) (hwhole : Whole file s act)
    (hstep : s.step file act = some s') : InStep file s' ∧ s'.work < s.work := by
  cases h with
  | fresh => exact absurd rfl (hcall _)
  | user => exact absurd rfl (hcall _)
  | sending c sent rest filepos pos proper near more split =>
    exact step_sending proper near more split rfl hwhole hstep
  | asked c filepos pos proper near => exact step_asked proper near rfl hwhole hstep
  | answered c sent pending pos proper split => exact step_answered proper split rfl hwhole hstep
  | reading c sent pending pos proper some_bytes split =>
    exact step_reading proper some_bytes split rfl hwhole hstep

/-- Each step in which messages are delivered as a whole keeps the two processes in step. -/
theorem InStep.step (h : InStep file s) (hwhole : Whole file s act)
    (hstep : s.step file act = some s') : InStep file s' := by
  by_cases hcall : s.InCall
  · exact (step_inCall h hcall hwhole hstep).1
  · exact step_user h hcall hwhole hstep

/-- The child can write all that is left. -/
theorem exists_write {r : Reader} (hr : s.reader = some r) (hp : r.pending ≠ []) :
    ∃ act s', s.step file act = some s' ∧ Whole file s act := by
  obtain ⟨filepos, reader, control, data, parent⟩ := s
  cases hr
  exact ⟨.write r.pending.length, _, if_pos ⟨List.length_pos_iff.mpr hp, le_rfl⟩, trivial⟩

/-- In a call, one of the processes can take a step. -/
theorem InStep.exists_step (h : InStep file s) (hcall : s.InCall) :
    ∃ act s', s.step file act = some s' ∧ Whole file s act := by
  cases h with
  | fresh => exact absurd rfl (hcall _)
  | user => exact absurd rfl (hcall _)
  | sending c sent rest filepos pos proper near more split =>
    refine ⟨.send rest.length, _, if_pos ⟨List.length_pos_iff.mpr more, le_rfl, ?_⟩, trivial⟩
    intro r hr
    cases hr
    rfl
  | asked c filepos pos proper near =>
    have hread : 1 ≤ CB_SIZE ∧ CB_SIZE ≤ CB_SIZE ∧ CB_SIZE ≤ c.cb.length :=
      ⟨by decide, le_rfl, c.length_cb.ge⟩
    have hsome : (Sys.step file ⟨filepos, some ⟨pos, [], false, false⟩, c.cb, [], .header c⟩
        (.command CB_SIZE)).isSome := by
      unfold Sys.step
      simp only [true_and, if_pos hread, if_true, Option.isSome_some]
    obtain ⟨s', hs'⟩ := Option.isSome_iff_exists.mp hsome
    exact ⟨.command CB_SIZE, s', hs', rfl⟩
  | answered c sent pending pos proper split =>
    by_cases hp : pending = []
    · subst hp
      refine ⟨.recv 8, _, if_pos (Or.inl ⟨by omega, le_rfl, ?_⟩), rfl⟩
      rw [List.append_nil] at split
      rw [split, Call.reply, List.length_append, length_le]
      exact Nat.le_add_right _ _
    · exact exists_write rfl hp
  | reading c sent pending pos proper some_bytes split =>
    by_cases hp : pending = []
    · subst hp
      rw [List.append_nil] at split
      refine ⟨.recv (c.bytes file).length, _, if_pos (Or.inl ⟨some_bytes, le_rfl, ?_⟩), rfl⟩
      rw [split]
    · exact exists_write rfl hp

end step

/-! ## Every run -/

/-- The protocol is in step. -/
structure ProtocolSpec (file : List UInt8) (s : Sys) : Prop where
  /-- A call that has returned has got the bytes of the file at its offset, and nothing of its reply is
  left. The child waits for the next command. -/
  returned : ∀ r, s.parent = .user (some r) → ReadOk file r ∧ s.data = [] ∧ s.control = [] ∧
    ∃ x, s.reader = some x ∧ x.pending = [] ∧ x.exited = false
  /-- The child has not read more than there is room for. -/
  room : ∀ x ∈ s.reader, x.overrun = false
  /-- A call goes on until it returns: there is a step, -/
  progress : s.InCall → ∃ act s', s.step file act = some s' ∧ Whole file s act
  /-- and each step leaves less to do. -/
  bounded : s.InCall → ∀ act s', s.step file act = some s' → Whole file s act → s'.work < s.work

/-- What holds of processes in step, in the terms of the statement. -/
theorem InStep.spec {file : List UInt8} {s : Sys} (h : InStep file s) : ProtocolSpec file s where
  returned := by
    intro r hr
    cases h with
    | user r pos ok =>
      cases hr
      exact ⟨ok, rfl, rfl, _, rfl, rfl, rfl⟩
    | _ => cases hr
  room := by
    intro x hx
    cases h with
    | fresh => cases hx
    | _ =>
      cases hx
      rfl
  progress := h.exists_step
  bounded := fun hcall _ _ hstep hwhole => (step_inCall h hcall hwhole hstep).2

/-- A thread reads from a file, wherever the descriptor is at the beginning, at any offsets and in any
order of the steps of the two processes. If all steps are whole, the protocol stays in step. -/
theorem run_protocol (file : List UInt8) (filepos : ℕ) (ls : List Act) {s : Sys}
    (hrun : Runs.run (Sys.step file) (.init filepos) ls = some s)
    (hwhole : Runs.Meets (Sys.step file) (Whole file) (.init filepos) ls) : ProtocolSpec file s := by
  refine InStep.spec (Runs.run_invariant (I := InStep file) ?_ (.fresh filepos) hwhole hrun)
  intro s act s' h hwhole hstep
  exact h.step hwhole hstep

/-- The first two bytes of a file. -/
def firstTwo : Call := ⟨0, 2, by norm_num, by norm_num⟩

/-- The bytes from the second one on. -/
def fromSecond : Call := ⟨1, 2, by norm_num, by norm_num⟩

/-- A call whose messages are not split by the parent and the child. -/
def wholeCall (c : Call) (n : ℕ) : List Act :=
  [.call c true, .send 16, .command 16, .write (8 + n), .recv 8, .recv n]

/-- What the last call has returned, and stored. -/
def Sys.result (s : Sys) : Option (ℤ × List UInt8) :=
  match s.parent with
  | .user (some r) => some (r.ret, r.buf)
  | _ => none

/-- Two calls on a descriptor that is not at the beginning of the file. -/
def twoReads : List Act := wholeCall fromSecond 2 ++ wholeCall firstTwo 2

/-- The run is possible, and the second read has got the first two bytes of the file. -/
theorem run_protocol_twoReads :
    ∃ s, Runs.run (Sys.step [5, 6, 7]) (.init 2) twoReads = some s ∧ s.result = some (2, [5, 6]) ∧
      ProtocolSpec [5, 6, 7] s := by
  refine ⟨(Runs.run (Sys.step [5, 6, 7]) (.init 2) twoReads).get (by decide +kernel), by simp,
    by decide +kernel, ?_⟩
  exact run_protocol [5, 6, 7] 2 twoReads (Option.some_get _).symm (by decide +kernel)

/-- A call for no bytes. -/
def noBytes : Call := ⟨0, 0, by norm_num, by norm_num⟩

/-- A call for one byte more than the buffer of the child has. -/
def oneMore : Call := ⟨0, 1025, by norm_num, by norm_num⟩

/-- A descriptor that is not at the beginning of the file is not moved there by the first call. A call for
no bytes ends the child, and fails. A reply of which only a part is read stays in the pipe. A call for more
bytes than there is room for writes behind the buffer of the child. -/
theorem run_protocol_fails :
    ((Runs.run (Sys.step [5, 6, 7]) (.init 1) (wholeCall firstTwo 2)).bind Sys.result =
      some (2, [6, 7])) ∧
    ((Runs.run (Sys.step [5, 6, 7]) (.init 0) [.call noBytes true, .send 16, .command 16,
      .recv 0]).bind Sys.result = some (-1, [])) ∧
    ((Runs.run (Sys.step [5, 6, 7]) (.init 0) [.call firstTwo true, .send 16, .command 16, .write 10,
      .recv 8, .recv 1]).map fun s => (s.result, s.data)) = some (some (1, [5]), [6]) ∧
    ((Runs.run (Sys.step (List.replicate 1025 5)) (.init 0) [.call oneMore true, .send 16,
      .command 16]).bind Sys.reader).map Reader.overrun = some true := by
  refine ⟨by decide +kernel, by decide +kernel, by decide +kernel, by decide +kernel⟩

end StWin.FileIo
