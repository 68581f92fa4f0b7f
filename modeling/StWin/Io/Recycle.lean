import StWin.Io.Netfd
import Mathlib.Data.List.Nodup

/-!
# The life of a descriptor object

An object is on the free list, or in use, or a call waits for the destructor of its private data: then
it is neither, if `st_netfd_free` waits, and it is in use, if `st_netfd_setspecific` waits. `Life` has
one constructor for each of these stages, with what the object's fields and its history say there. Each
call moves the stage of one object (`Frames`), and `Ok.step` is that every object has one after any call.
Since the destructors' own calls are steps like all others, it does not matter how deep they nest.
-/

namespace StWin.Io.Netfds

/-- A list by the links of the free list. -/
def Listed (obj : ℕ → Netfd) : Option ℕ → List ℕ → Prop
  | p, [] => p = none
  | p, fd :: l => p = some fd ∧ Listed obj (obj fd).next l

/-- A list depends on the `next` pointers of its objects only. -/
theorem Listed.congr {obj obj' : ℕ → Netfd} {p : Option ℕ} {l : List ℕ} (h : Listed obj p l)
    (hnext : ∀ fd ∈ l, (obj' fd).next = (obj fd).next) : Listed obj' p l := by
  induction l generalizing p with
  | nil => exact h
  | cons fd l ih =>
    refine ⟨h.1, ?_⟩
    rw [hnext fd List.mem_cons_self]
    exact ih h.2 fun x hx => hnext x (List.mem_cons_of_mem fd hx)

/-- The calls that wait for a destructor of the private data of `fd`. -/
def waiting (s : Netfds) (fd : ℕ) : List Frame := s.pending.filter fun f => f.fd = fd

/-- Nothing of the last owner is left. -/
structure Clean (o : Netfd) : Prop where
  inuse : o.inuse = false
  private_data : o.private_data = none
  destructor : o.destructor = none

/-- The stages of an object's life, where the free list is `l`. -/
inductive Life (s : Netfds) (l : List ℕ) (fd : ℕ) : Prop
  | absent (lt : s.created ≤ fd) (out : fd ∉ l) (wait : s.waiting fd = [])
      (hist : Slot.Holds (s.hist fd) none)
  | free (lt : fd < s.created) (mem : fd ∈ l) (wait : s.waiting fd = []) (clean : Clean (s.obj fd))
      (hist : Slot.Holds (s.hist fd) none)
  | inuse (lt : fd < s.created) (out : fd ∉ l) (wait : s.waiting fd = [])
      (inuse : (s.obj fd).inuse = true) (hist : Slot.Holds (s.hist fd) (s.obj fd).private_data)
  | freeing (lt : fd < s.created) (out : fd ∉ l) (wait : s.waiting fd = [.free fd])
      (inuse : (s.obj fd).inuse = false) (hist : Slot.Holds (s.hist fd) none)
  | replacing (lt : fd < s.created) (out : fd ∉ l) (value destructor : Option ℕ)
      (wait : s.waiting fd = [.setspecific fd value destructor])
      (inuse : (s.obj fd).inuse = true) (hist : Slot.Holds (s.hist fd) none)

/-- The free list is `l`, and each object is in a stage of its life. -/
structure Ok (s : Netfds) (l : List ℕ) : Prop where
  listed : Listed s.obj s.freelist l
  nodup : l.Nodup
  life : ∀ fd, Life s l fd

/-- Nothing changes but the object `fd`. -/
structure Frames (s s' : Netfds) (l l' : List ℕ) (fd : ℕ) : Prop where
  obj : ∀ x ≠ fd, s'.obj x = s.obj x
  hist : ∀ x ≠ fd, s'.hist x = s.hist x
  wait : ∀ x ≠ fd, s'.waiting x = s.waiting x
  created : ∀ x ≠ fd, x < s'.created ↔ x < s.created
  mem : ∀ x ≠ fd, x ∈ l' ↔ x ∈ l

/-- Nothing has changed. -/
theorem Frames.refl (s : Netfds) (l : List ℕ) (fd : ℕ) : Frames s s l l fd :=
  ⟨fun _ _ => rfl, fun _ _ => rfl, fun _ _ => rfl, fun _ _ => Iff.rfl, fun _ _ => Iff.rfl⟩

variable {s s' : Netfds} {l l' : List ℕ} {fd : ℕ}

/-- Two steps that change no object but `fd`. -/
theorem Frames.trans {s₁ : Netfds} (h : Frames s s₁ l l fd) (h' : Frames s₁ s' l l' fd) :
    Frames s s' l l' fd where
  obj x hx := (h'.obj x hx).trans (h.obj x hx)
  hist x hx := (h'.hist x hx).trans (h.hist x hx)
  wait x hx := (h'.wait x hx).trans (h.wait x hx)
  created x hx := (h'.created x hx).trans (h.created x hx)
  mem x hx := (h'.mem x hx).trans (h.mem x hx)

/-- The other objects stay in their stages. -/
theorem Ok.frame (h : Ok s l) (hframe : Frames s s' l l' fd) (hlisted : Listed s'.obj s'.freelist l')
    (hnodup : l'.Nodup) (hlife : Life s' l' fd) : Ok s' l' := by
  refine ⟨hlisted, hnodup, fun x => ?_⟩
  by_cases hx : x = fd
  · exact hx ▸ hlife
  · have hobj := hframe.obj x hx
    have hhist := hframe.hist x hx
    have hwait := hframe.wait x hx
    have hlt := hframe.created x hx
    have hmem := hframe.mem x hx
    cases h.life x with
    | absent lt out wait hist =>
      exact .absent (by omega) (hmem.not.mpr out) (hwait.trans wait) (hhist ▸ hist)
    | free lt mem wait clean hist =>
      exact .free (hlt.mpr lt) (hmem.mpr mem) (hwait.trans wait) (hobj ▸ clean) (hhist ▸ hist)
    | inuse lt out wait inuse hist =>
      exact .inuse (hlt.mpr lt) (hmem.not.mpr out) (hwait.trans wait) (hobj ▸ inuse)
        (hobj ▸ hhist ▸ hist)
    | freeing lt out wait inuse hist =>
      exact .freeing (hlt.mpr lt) (hmem.not.mpr out) (hwait.trans wait) (hobj ▸ inuse) (hhist ▸ hist)
    | replacing lt out value destructor wait inuse hist =>
      exact .replacing (hlt.mpr lt) (hmem.not.mpr out) value destructor (hwait.trans wait)
        (hobj ▸ inuse) (hhist ▸ hist)

/-! ## Steps -/

/-- The last value leaves an object when its destructor has been called on it. -/
theorem holds_leaves (h : Slot.Holds (s.hist fd) (s.obj fd).private_data) :
    Slot.Holds (s.leaves fd ++ s.hist fd) none := by
  unfold leaves
  cases hdata : (s.obj fd).private_data with
  | none =>
    rw [hdata] at h
    exact h
  | some data =>
    rw [hdata] at h
    dsimp only
    split_ifs
    · exact .destroy h
    · exact .drop h

/-- A value that is put into an object without one. -/
theorem holds_comes {es : List (Slot.Event ℕ)} (h : Slot.Holds es none) (value : Option ℕ) :
    Slot.Holds (comes value ++ es) value := by
  cases value with
  | none => exact h
  | some value => exact .put value h

/-- A destructor returns. -/
theorem waiting_erase {f : Frame} (hp : s'.pending = s.pending.erase f) (fd : ℕ) :
    s'.waiting fd = (s.waiting fd).erase f := by
  rw [waiting, hp, waiting, List.erase_filter]

/-- A call that goes on waited for its own object. -/
theorem waiting_erase_of_ne {f : Frame} (hp : s'.pending = s.pending.erase f) (hne : fd ≠ f.fd) :
    s'.waiting fd = s.waiting fd := by
  rw [waiting_erase hp, List.erase_of_not_mem]
  simp [waiting, hne.symm]

/-- A destructor is called. -/
theorem waiting_push {f : Frame} (hp : s'.pending = f :: s.pending) :
    s'.waiting f.fd = f :: s.waiting f.fd := by
  rw [waiting, hp, List.filter_cons_of_pos (by simp)]
  rfl

/-- A call that begins to wait does so for its own object. -/
theorem waiting_push_of_ne {f : Frame} (hp : s'.pending = f :: s.pending) (hne : fd ≠ f.fd) :
    s'.waiting fd = s.waiting fd := by
  rw [waiting, hp, List.filter_cons_of_neg (by simpa using hne.symm)]
  rfl

/-- A call waits among those for its object. -/
theorem mem_waiting {f : Frame} : f ∈ s.pending ↔ f ∈ s.waiting f.fd := by simp [waiting]

/-- An object that is in use, and whose private data is not being replaced. -/
theorem Ok.settled (h : Ok s l) (hinuse : (s.obj fd).inuse = true) (hlt : fd < s.created)
    (hrep : ¬s.Replacing fd) :
    fd ∉ l ∧ s.waiting fd = [] ∧ Slot.Holds (s.hist fd) (s.obj fd).private_data := by
  cases h.life fd with
  | absent lt => omega
  | free _ _ _ clean => simp [clean.inuse] at hinuse
  | inuse _ out wait _ hist => exact ⟨out, wait, hist⟩
  | freeing _ _ _ inuse => simp [inuse] at hinuse
  | replacing _ _ value destructor wait =>
    have hmem : Frame.setspecific fd value destructor ∈ s.pending := by
      rw [mem_waiting]
      exact wait ▸ List.mem_singleton_self _
    exact absurd ⟨_, hmem, rfl, by simp⟩ hrep

/-- The object is put on the free list. -/
theorem Ok.freeEnd (h : Ok s l) {s₁ : Netfds} (hframe : Frames s s₁ l l fd)
    (hfreelist : s₁.freelist = s.freelist) (hlt : fd < s₁.created) (hout : fd ∉ l)
    (hwait : s₁.waiting fd = []) (hinuse : (s₁.obj fd).inuse = false)
    (hhist : Slot.Holds (s₁.hist fd) none) : Ok (s₁.freeEnd fd) (fd :: l) := by
  have hself : (s₁.freeEnd fd).obj fd =
      { s₁.obj fd with private_data := none, destructor := none, next := s₁.freelist } :=
    Function.update_self fd _ _
  have hother : ∀ x ≠ fd, (s₁.freeEnd fd).obj x = s.obj x := by
    intro x hx
    rw [← hframe.obj x hx]
    exact Function.update_of_ne hx _ _
  refine h.frame ⟨hother, hframe.hist, hframe.wait, hframe.created, fun x hx => by simp [hx]⟩
    ⟨rfl, ?_⟩ (List.nodup_cons.mpr ⟨hout, h.nodup⟩) ?_
  · rw [hself]
    dsimp only
    rw [hfreelist]
    exact h.listed.congr fun x hx => by rw [hother x fun heq => hout (heq ▸ hx)]
  · refine .free hlt List.mem_cons_self hwait ⟨?_, ?_, ?_⟩ hhist
    · rw [hself]
      exact hinuse
    · rw [hself]
    · rw [hself]

/-- To mark `fd` as unused changes no other object. -/
theorem unuse_frames (s : Netfds) (l : List ℕ) (fd : ℕ) : Frames s (s.unuse fd) l l fd where
  obj _ hx := Function.update_of_ne hx _ _
  hist _ hx := Function.update_of_ne hx _ _
  wait _ _ := rfl
  created _ _ := Iff.rfl
  mem _ _ := Iff.rfl

/-- `st_netfd_free` of any object. -/
theorem Ok.netfdFree (h : Ok s l) (hlt : fd < s.created) (hrep : ¬s.Replacing fd) :
    ∃ l', Ok (s.netfdFree fd) l' := by
  have hobj : (s.unuse fd).obj fd = { s.obj fd with inuse := false, aux_data := none } :=
    Function.update_self fd _ _
  have hhist : (s.unuse fd).hist fd = s.leaves fd ++ s.hist fd := Function.update_self fd _ _
  have hframe := unuse_frames s l fd
  unfold Netfds.netfdFree
  split_ifs with hunused hcalls
  · exact ⟨l, h⟩
  · -- The destructor is called, and the object is not on the free list yet.
    have hinuse : (s.obj fd).inuse = true := by simpa using hunused
    obtain ⟨hout, hwait, hholds⟩ := h.settled hinuse hlt hrep
    refine ⟨l, h.frame { hframe with wait := fun x hx => ?_ } ?_ h.nodup (.freeing hlt hout ?_ ?_ ?_)⟩
    · exact @waiting_push_of_ne s _ x (.free fd) rfl hx
    · exact h.listed.congr fun x hx => by rw [hframe.obj x fun heq => hout (heq ▸ hx)]
    · exact (@waiting_push s _ (.free fd) rfl).trans (congrArg _ hwait)
    · exact congrArg Netfd.inuse hobj
    · exact hhist ▸ holds_leaves hholds
  · have hinuse : (s.obj fd).inuse = true := by simpa using hunused
    obtain ⟨hout, hwait, hholds⟩ := h.settled hinuse hlt hrep
    exact ⟨fd :: l, h.freeEnd hframe rfl hlt hout hwait (congrArg Netfd.inuse hobj)
      (hhist ▸ holds_leaves hholds)⟩

/-- The end of `st_netfd_setspecific`, which has the value `value` in the history already. -/
theorem Ok.setspecificEnd (h : Ok s l) {s₁ : Netfds} (hframe : Frames s s₁ l l fd)
    (hfreelist : s₁.freelist = s.freelist) (hlt : fd < s₁.created) (hout : fd ∉ l)
    (hwait : s₁.waiting fd = []) (hinuse : (s₁.obj fd).inuse = true) {value : Option ℕ}
    (hhist : Slot.Holds (s₁.hist fd) value) (destructor : Option ℕ) :
    Ok (s₁.setspecificEnd fd value destructor) l := by
  have hself : (s₁.setspecificEnd fd value destructor).obj fd =
      { s₁.obj fd with private_data := value, destructor := destructor } := Function.update_self fd _ _
  have hother : ∀ x ≠ fd, (s₁.setspecificEnd fd value destructor).obj x = s.obj x := by
    intro x hx
    rw [← hframe.obj x hx]
    exact Function.update_of_ne hx _ _
  refine h.frame { hframe with obj := hother } ?_ h.nodup (.inuse hlt hout hwait ?_ ?_)
  · show Listed _ s₁.freelist l
    rw [hfreelist]
    exact h.listed.congr fun x hx => by rw [hother x fun heq => hout (heq ▸ hx)]
  · rw [hself]
    exact hinuse
  · rw [hself]
    exact hhist

/-- An event in the history of an object. -/
theorem note_frames (s : Netfds) (l : List ℕ) (fd : ℕ) (events : List (Slot.Event ℕ)) :
    Frames s (s.note fd events) l l fd where
  obj _ _ := rfl
  hist _ hx := Function.update_of_ne hx _ _
  wait _ _ := rfl
  created _ _ := Iff.rfl
  mem _ _ := Iff.rfl

/-- `st_netfd_setspecific` on an object in use. -/
theorem Ok.netfdSetspecific (h : Ok s l) (hlt : fd < s.created) (hinuse : (s.obj fd).inuse = true)
    (hrep : ¬s.Replacing fd) (value destructor : Option ℕ) :
    Ok (s.netfdSetspecific fd value destructor) l := by
  obtain ⟨hout, hwait, hholds⟩ := h.settled hinuse hlt hrep
  have hnote : ∀ events, (s.note fd events).hist fd = events ++ s.hist fd :=
    fun events => Function.update_self fd _ _
  unfold Netfds.netfdSetspecific
  split_ifs with hnew hcalls
  · -- The destructor is called, and the object keeps the data until it returns.
    have hframe := note_frames s l fd (s.leaves fd)
    refine h.frame { hframe with wait := fun x hx => ?_ } h.listed h.nodup
      (.replacing hlt hout value destructor ?_ hinuse ?_)
    · exact @waiting_push_of_ne s _ x (.setspecific fd value destructor) rfl hx
    · exact (@waiting_push s _ (.setspecific fd value destructor) rfl).trans (congrArg _ hwait)
    · exact (hnote _).symm ▸ holds_leaves hholds
  · refine h.setspecificEnd (note_frames s l fd _) rfl hlt hout hwait hinuse ?_ destructor
    rw [hnote, List.append_assoc]
    exact holds_comes (holds_leaves hholds) value
  · -- The value is there already.
    refine h.setspecificEnd (.refl s l fd) rfl hlt hout hwait hinuse ?_ destructor
    rw [not_not.mp hnew]
    exact hholds

/-- An object whose `st_netfd_free` waits for a destructor. -/
theorem Ok.of_free (h : Ok s l) (hf : .free fd ∈ s.pending) :
    fd < s.created ∧ fd ∉ l ∧ s.waiting fd = [.free fd] ∧ (s.obj fd).inuse = false ∧
      Slot.Holds (s.hist fd) none := by
  have hmem : .free fd ∈ s.waiting fd := mem_waiting.mp hf
  cases h.life fd with
  | absent _ _ wait => simp [wait] at hmem
  | free _ _ wait => simp [wait] at hmem
  | inuse _ _ wait => simp [wait] at hmem
  | freeing lt out wait inuse hist => exact ⟨lt, out, wait, inuse, hist⟩
  | replacing _ _ _ _ wait => simp [wait] at hmem

/-- An object whose `st_netfd_setspecific` waits for a destructor. -/
theorem Ok.of_setspecific {value destructor : Option ℕ} (h : Ok s l)
    (hf : .setspecific fd value destructor ∈ s.pending) :
    fd < s.created ∧ fd ∉ l ∧ s.waiting fd = [.setspecific fd value destructor] ∧
      (s.obj fd).inuse = true ∧ Slot.Holds (s.hist fd) none := by
  have hmem : .setspecific fd value destructor ∈ s.waiting fd := mem_waiting.mp hf
  cases h.life fd with
  | absent _ _ wait => simp [wait] at hmem
  | free _ _ wait => simp [wait] at hmem
  | inuse _ _ wait => simp [wait] at hmem
  | freeing _ _ wait => simp [wait] at hmem
  | replacing lt out value' destructor' wait inuse hist =>
    have heq : value = value' ∧ destructor = destructor' := by simpa [wait] using hmem
    obtain ⟨rfl, rfl⟩ := heq
    exact ⟨lt, out, wait, inuse, hist⟩

/-- A call that goes on changes nothing for other objects. -/
theorem erase_frames (s : Netfds) (l : List ℕ) (f : Frame) :
    Frames s { s with pending := s.pending.erase f } l l f.fd where
  obj _ _ := rfl
  hist _ _ := rfl
  wait _ hx := waiting_erase_of_ne rfl hx
  created _ _ := Iff.rfl
  mem _ _ := Iff.rfl

/-- A destructor returns, and the call that has waited for it goes on. -/
theorem Ok.ret (h : Ok s l) {f : Frame} (hf : f ∈ s.pending) : ∃ l', Ok (s.ret f) l' := by
  have hframe := erase_frames s l f
  have hnone : s.waiting f.fd = [f] →
      ({ s with pending := s.pending.erase f } : Netfds).waiting f.fd = [] := by
    intro hwait
    rw [@waiting_erase s _ f rfl, hwait, List.erase_cons_head]
  cases f with
  | free fd =>
    obtain ⟨hlt, hout, hwait, hinuse, hholds⟩ := h.of_free hf
    exact ⟨fd :: l, h.freeEnd hframe rfl hlt hout (hnone hwait) hinuse hholds⟩
  | setspecific fd value destructor =>
    obtain ⟨hlt, hout, hwait, hinuse, hholds⟩ := h.of_setspecific hf
    refine ⟨l, h.setspecificEnd (hframe.trans (note_frames _ l fd (comes value))) rfl hlt hout
      (hnone hwait) hinuse ?_ destructor⟩
    have hhist : (note { s with pending := s.pending.erase (.setspecific fd value destructor) } fd
        (comes value)).hist fd = comes value ++ s.hist fd := Function.update_self fd _ _
    exact hhist ▸ holds_comes hholds value

/-! ## Opening -/

/-- What an opening that returns `fd` does. -/
structure Opens (s s' : Netfds) (fd : ℕ) : Prop where
  /-- It is none of the objects in use. -/
  unused : ∀ x < s.created, (s.obj x).inuse = true → x ≠ fd
  lt : fd < s'.created
  inuse : (s'.obj fd).inuse = true
  /-- Nothing of its last owner is left. -/
  private_data : (s'.obj fd).private_data = none
  destructor : (s'.obj fd).destructor = none
  started : s'.hist fd = .start :: s.hist fd
  others : ∀ x ≠ fd, s'.obj x = s.obj x ∧ s'.hist x = s.hist x

/-- The initialization of the object `fd` that nobody uses. -/
theorem Ok.start (h : Ok s l) {s₁ : Netfds} (hframe : Frames s s₁ l l' fd)
    (hlisted : Listed s₁.obj s₁.freelist l') (hnodup : l'.Nodup) (hlt : fd < s₁.created) (hout : fd ∉ l')
    (hunused : ∀ x < s.created, (s.obj x).inuse = true → x ≠ fd) (hclean : Clean (s₁.obj fd))
    (hsame : s₁.hist fd = s.hist fd) (hwait : s₁.waiting fd = []) (hholds : Slot.Holds (s.hist fd) none)
    (osfd : ℤ) : Ok (s₁.start fd osfd) l' ∧ Opens s (s₁.start fd osfd) fd := by
  have hself : (s₁.start fd osfd).obj fd =
      { s₁.obj fd with osfd := osfd, inuse := true, next := none } := Function.update_self fd _ _
  have hhist : (s₁.start fd osfd).hist fd = .start :: s.hist fd :=
    (Function.update_self fd _ _).trans (congrArg (List.cons _) hsame)
  have hother : ∀ x ≠ fd, (s₁.start fd osfd).obj x = s.obj x :=
    fun x hx => (Function.update_of_ne hx _ _).trans (hframe.obj x hx)
  have hother' : ∀ x ≠ fd, (s₁.start fd osfd).hist x = s.hist x :=
    fun x hx => (Function.update_of_ne hx _ _).trans (hframe.hist x hx)
  have hdata : ((s₁.start fd osfd).obj fd).private_data = none := by rw [hself, hclean.private_data]
  have hinuse : ((s₁.start fd osfd).obj fd).inuse = true := by rw [hself]
  constructor
  · refine h.frame ⟨hother, hother', hframe.wait, hframe.created, hframe.mem⟩ ?_ hnodup
      (.inuse hlt hout hwait hinuse ?_)
    · refine hlisted.congr fun x hx => ?_
      have hne : x ≠ fd := fun heq => hout (heq ▸ hx)
      rw [hother x hne, hframe.obj x hne]
    · rw [hdata, hhist]
      exact .start hholds
  · exact ⟨hunused, hlt, hinuse, hdata, by rw [hself, hclean.destructor], hhist,
      fun x hx => ⟨hother x hx, hother' x hx⟩⟩

/-- `_st_netfd_new`: it takes an object off the free list, or a new one, or fails. -/
theorem Ok.netfdNew (h : Ok s l) (osfd fd_new : ℤ) (calloc : Bool) :
    ∃ l', Ok (s.netfdNew osfd fd_new calloc).1 l' ∧
      ∀ fd, (s.netfdNew osfd fd_new calloc).2 = some fd →
        fd ∉ l' ∧ Opens s (s.netfdNew osfd fd_new calloc).1 fd := by
  unfold Netfds.netfdNew
  -- The event system may refuse the descriptor.
  by_cases hnew : fd_new < 0
  · rw [if_pos hnew]
    exact ⟨l, h, by simp⟩
  rw [if_neg hnew]
  have hlisted := h.listed
  cases l with
  | cons fd l =>
    obtain ⟨hfreelist, hrest⟩ := hlisted
    obtain ⟨hout, hnodup⟩ := List.nodup_cons.mp h.nodup
    rw [hfreelist]
    -- An object of the free list is in the stage that has nothing left of the last owner.
    cases h.life fd with
    | free lt mem wait clean hist =>
      have hframe : Frames s (s.pop fd) (fd :: l) l fd :=
        { Frames.refl s l fd with mem := fun x hx => by simp [hx] }
      obtain ⟨hok, hopens⟩ := h.start hframe hrest hnodup lt hout
        (fun x _ hx heq => by rw [heq, clean.inuse] at hx; cases hx) clean rfl wait hist osfd
      refine ⟨l, hok, fun x hx => ?_⟩
      obtain rfl := Option.some_inj.mp hx
      exact ⟨hout, hopens⟩
    | absent _ out => simp at out
    | inuse _ out => simp at out
    | freeing _ out => simp at out
    | replacing _ out => simp at out
  -- The free list is empty: a new object, or none.
  | nil =>
    rw [show s.freelist = none from hlisted]
    cases calloc with
    | false => exact ⟨[], h, by simp⟩
    | true =>
      cases h.life s.created with
      | absent lt out wait hist =>
        have hframe : Frames s s.alloc [] [] s.created :=
          { Frames.refl s [] s.created with
            obj := fun x hx => Function.update_of_ne hx _ _
            created := fun x hx => by show x < s.created + 1 ↔ _; omega }
        have hzero : s.alloc.obj s.created = .zero := Function.update_self s.created _ _
        obtain ⟨hok, hopens⟩ := h.start hframe hlisted List.nodup_nil (Nat.lt_succ_self _) out
          (fun x hlt _ heq => absurd heq (Nat.ne_of_lt hlt)) (by rw [hzero]; exact ⟨rfl, rfl, rfl⟩) rfl
          wait hist osfd
        refine ⟨[], hok, fun x hx => ?_⟩
        obtain rfl := Option.some_inj.mp hx
        exact ⟨out, hopens⟩
      | free lt => omega
      | inuse lt => omega
      | freeing lt => omega
      | replacing lt => omega

/-- `st_netfd_open`. -/
theorem Ok.netfdOpen (h : Ok s l) (osfd fd_new : ℤ) (calloc : Bool) :
    ∃ l', Ok (s.netfdOpen osfd fd_new calloc).1 l' ∧
      ∀ fd, (s.netfdOpen osfd fd_new calloc).2 = some fd →
        fd ∉ l' ∧ Opens s (s.netfdOpen osfd fd_new calloc).1 fd := by
  unfold Netfds.netfdOpen
  split_ifs
  · exact ⟨l, h, by simp⟩
  · exact h.netfdNew osfd fd_new calloc

/-- Any of the functions that return a new object. -/
theorem Ok.opened (h : Ok s l) (how : Opening) (fd_new : ℤ) (calloc : Bool) :
    ∃ l', Ok (s.opened how fd_new calloc).1 l' ∧
      ∀ fd, (s.opened how fd_new calloc).2 = some fd →
        fd ∉ l' ∧ Opens s (s.opened how fd_new calloc).1 fd := by
  cases how with
  | netfdOpen osfd => exact h.netfdOpen osfd fd_new calloc
  | netfdOpenSocket osfd => exact h.netfdOpen osfd fd_new calloc
  | accept osfd => exact h.netfdNew osfd fd_new calloc
  | openFile osfd => exact h.netfdNew osfd fd_new calloc

/-! ## Runs -/

/-- Each call keeps the free list and the stages of the objects in order. -/
theorem Ok.step (h : Ok s l) {c : Call} (hc : s.Allowed c) (hstep : s.step c = some s') :
    ∃ l', Ok s' l' := by
  cases c with
  | new how fd_new calloc =>
    cases hstep
    obtain ⟨l', hok, -⟩ := h.opened how fd_new calloc
    exact ⟨l', hok⟩
  | free fd =>
    cases hstep
    cases fd with
    | none => exact ⟨l, h⟩
    | some fd => exact h.netfdFree hc.1 hc.2
  | close fd fd_close =>
    cases hstep
    cases fd with
    | none => exact ⟨l, h⟩
    | some fd =>
      show ∃ l', Ok (s.netfdClose fd fd_close) l'
      unfold netfdClose
      split_ifs
      · exact ⟨l, h⟩
      · exact h.netfdFree hc.1 hc.2
  | setspecific fd value destructor =>
    cases hstep
    cases fd with
    | none => exact ⟨l, h⟩
    | some fd => exact ⟨l, h.netfdSetspecific hc.1 hc.2.1 hc.2.2 value destructor⟩
  | ret f =>
    rw [Netfds.step] at hstep
    split_ifs at hstep with hf
    cases hstep
    exact h.ret hf

/-- At first there is no object, and the free list is empty. -/
theorem init_ok (x : ℕ → Netfd) : Ok (init x) [] :=
  ⟨rfl, List.nodup_nil, fun _ => .absent (Nat.zero_le _) List.not_mem_nil rfl .nil⟩

/-- The objects are recycled cleanly. -/
structure Recycled (s : Netfds) : Prop where
  /-- The free list is finite and without repetition, and holds nothing of the last owners. -/
  freelist : ∃ l, Listed s.obj s.freelist l ∧ l.Nodup ∧ ∀ fd ∈ l, Clean (s.obj fd)
  /-- An opening returns an object that nobody uses, and that is not on the free list then. -/
  opens : ∀ how fd_new calloc s' fd, s.opened how fd_new calloc = (s', some fd) →
    Opens s s' fd ∧ ∃ l, Listed s'.obj s'.freelist l ∧ fd ∉ l
  /-- Between two installations of private data the first one is destroyed at most once. -/
  once : ∀ fd, ∃ x, Slot.Holds (s.hist fd) x
  count : ∀ fd data, (s.hist fd).count (.destroy data) ≤ (s.hist fd).count (.put data)
  /-- Nothing has happened to the object since the private data that it shows was installed. It has
  not got a new owner, either. -/
  own : ∀ fd < s.created, (s.obj fd).inuse = true → ¬s.Replacing fd →
    ∀ data, (s.obj fd).private_data = some data → ∃ before, s.hist fd = .put data :: before

/-- What holds of the objects in their stages, in the terms of the statement. -/
theorem Ok.recycled (h : Ok s l) : Recycled s := by
  have hholds : ∀ fd, ∃ x, Slot.Holds (s.hist fd) x := by
    intro fd
    cases h.life fd with
    | absent _ _ _ hist => exact ⟨_, hist⟩
    | free _ _ _ _ hist => exact ⟨_, hist⟩
    | inuse _ _ _ _ hist => exact ⟨_, hist⟩
    | freeing _ _ _ _ hist => exact ⟨_, hist⟩
    | replacing _ _ _ _ _ _ hist => exact ⟨_, hist⟩
  refine ⟨⟨l, h.listed, h.nodup, fun fd hfd => ?_⟩, ?_, hholds, fun fd data => ?_, ?_⟩
  · cases h.life fd with
    | free _ _ _ clean => exact clean
    | absent _ out => exact absurd hfd out
    | inuse _ out => exact absurd hfd out
    | freeing _ out => exact absurd hfd out
    | replacing _ out => exact absurd hfd out
  · intro how fd_new calloc s' fd hopened
    obtain ⟨l', hok, hfd⟩ := h.opened how fd_new calloc
    rw [hopened] at hok hfd
    obtain ⟨hout, hopens⟩ := hfd fd rfl
    exact ⟨hopens, l', hok.listed, hout⟩
  · obtain ⟨x, hx⟩ := hholds fd
    exact hx.count_destroy_le data
  · intro fd hlt hinuse hrep data hdata
    obtain ⟨-, -, hhist⟩ := h.settled hinuse hlt hrep
    rw [hdata] at hhist
    obtain ⟨before, hbefore, -⟩ := hhist.last
    exact ⟨before, hbefore⟩

/-- Descriptor objects are recycled cleanly: in each state that calls lead to, whatever is freed or
closed again, and whatever other objects the destructors of private data free, close, or open. -/
theorem run_recycled (x : ℕ → Netfd) (calls : List Call) (hcalls : Runs.Meets step Allowed (init x) calls)
    {s : Netfds} (hrun : Runs.run step (init x) calls = some s) : Recycled s := by
  obtain ⟨l, h⟩ := Runs.run_invariant (I := fun s => ∃ l, Ok s l)
    (fun ⟨_, h⟩ hc hstep => h.step hc hstep) ⟨[], init_ok x⟩ hcalls hrun
  exact h.recycled

/-- A descriptor with a destructor that closes two further descriptors and opens one, as the
descriptors of `stx_fileio.c` have it. It is closed again while its destructor runs, and afterwards. -/
def closesTwo : List Call :=
  [.new (.netfdOpen 3) 0 true, .new (.accept 4) 0 true, .new (.netfdOpenSocket 5) 0 true,
    .setspecific (some 0) (some 100) (some 7), .close (some 0) 0, .close (some 1) 0, .close (some 2) 0,
    .close (some 0) 0, .new (.netfdOpen 6) 0 true, .ret (.free 0), .close (some 0) 0]

/-- The run is possible. The two closed descriptors are on the free list, and the history of the reused
object begins again. -/
theorem run_recycled_closesTwo :
    ∃ s, Runs.run step (init fun _ => .zero) closesTwo = some s ∧ Recycled s ∧
      (s.freelist, (s.obj 0).next, (s.obj 1).next, (s.obj 2).inuse) = (some 0, some 1, none, true) ∧
      s.hist 0 = [.destroy 100, .put 100, .start] := by
  have hvalue : (Runs.run step (init fun _ => .zero) closesTwo).map (fun s =>
      ((s.freelist, (s.obj 0).next, (s.obj 1).next, (s.obj 2).inuse), s.hist 0)) =
      some ((some 0, some 1, none, true), [.destroy 100, .put 100, .start]) := by decide +kernel
  obtain ⟨s, hs, hvalue⟩ := Option.map_eq_some_iff.mp hvalue
  rw [Prod.mk.injEq] at hvalue
  exact ⟨s, hs, run_recycled _ closesTwo (by decide +kernel) hs, hvalue.1, hvalue.2⟩

end StWin.Io.Netfds
