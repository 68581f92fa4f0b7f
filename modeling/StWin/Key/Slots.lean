import StWin.Key.Model
import StWin.Sched.Turns

/-!
# The slots of a thread

What the functions do to one slot and its history, as functions of the slot alone: `Entry.put` is
`st_thread_setspecific`, and `Entry.clean` the loop body of `_st_thread_cleanup`. Both keep what the
history says (`Slot.Holds`), and the other slots stay as they are.
-/

namespace StWin.Keyed

/-! ## One slot -/

/-- A slot, with its history. -/
structure Entry where
  value : Option ℕ
  hist : List (Slot.Event ℕ)

namespace Entry

/-- The value leaves the slot. -/
def leave (e : Entry) (destructor : Option ℕ) : Entry :=
  match e.value with
  | some v => ⟨none, (if destructor.isSome then .destroy v else .drop v) :: e.hist⟩
  | none => e

/-- `st_thread_setspecific`. -/
def put (e : Entry) (destructor value : Option ℕ) : Entry :=
  if value ≠ e.value then
    match value with
    | some v => ⟨some v, .put v :: (e.leave destructor).hist⟩
    | none => e.leave destructor
  else e

/-- `_st_thread_cleanup`. -/
def clean (e : Entry) (destructor : Option ℕ) : Entry :=
  if destructor.isSome then e.leave destructor else e

/-- The history says what the slot holds. -/
def Ok (e : Entry) : Prop := Slot.Holds e.hist e.value

variable {e : Entry} {destructor : Option ℕ}

/-- The slot is empty then. -/
@[simp] theorem leave_value (e : Entry) (destructor : Option ℕ) : (e.leave destructor).value = none := by
  unfold leave
  split
  · rfl
  · assumption

/-- The history says so when a value leaves the slot. -/
theorem Ok.leave (h : e.Ok) (destructor : Option ℕ) : (e.leave destructor).Ok := by
  unfold Ok at h ⊢
  unfold Entry.leave
  split
  · next v hv =>
    rw [hv] at h
    dsimp only
    split_ifs
    · exact .destroy h
    · exact .drop h
  · exact h

/-- The history says so when a value is put into the slot. -/
theorem Ok.put (h : e.Ok) (destructor value : Option ℕ) : (e.put destructor value).Ok := by
  unfold Entry.put
  split_ifs
  · cases value with
    | none => exact h.leave destructor
    | some v =>
      have hempty := h.leave destructor
      unfold Ok at hempty
      rw [leave_value] at hempty
      exact Slot.Holds.put v hempty
  · exact h

/-- The slot holds the new value then. -/
theorem put_value (e : Entry) (destructor value : Option ℕ) : (e.put destructor value).value = value := by
  unfold put
  split_ifs with h
  · cases value with
    | none => exact e.leave_value destructor
    | some v => rfl
  · exact (not_not.mp h).symm

/-- The history says so when the thread ends. -/
theorem Ok.clean (h : e.Ok) (destructor : Option ℕ) : (e.clean destructor).Ok := by
  unfold Entry.clean
  split_ifs
  · exact h.leave destructor
  · exact h

/-- With a destructor, the slot is empty when the thread has ended. -/
theorem clean_value {d : ℕ} (e : Entry) : (e.clean (some d)).value = none := e.leave_value _

/-- A value with a destructor is never only overwritten. -/
theorem mem_leave {d v : ℕ} (h : .drop v ∈ (e.leave (some d)).hist) : .drop v ∈ e.hist := by
  unfold leave at h
  split at h
  · simpa using h
  · exact h

/-- With a destructor, a value that is replaced is not dropped. -/
theorem mem_put {d v : ℕ} {value : Option ℕ} (h : .drop v ∈ (e.put (some d) value).hist) :
    .drop v ∈ e.hist := by
  unfold put at h
  split_ifs at h
  · cases value with
    | none => exact mem_leave h
    | some w => exact mem_leave (by simpa using h)
  · exact h

/-- With a destructor, a value that is left at the end is not dropped. -/
theorem mem_clean {d v : ℕ} (h : .drop v ∈ (e.clean (some d)).hist) : .drop v ∈ e.hist := mem_leave h

/-- Cleaning up once more changes nothing. -/
theorem clean_clean (e : Entry) (destructor : Option ℕ) :
    (e.clean destructor).clean destructor = e.clean destructor := by
  unfold clean
  split_ifs
  · have hvalue := e.leave_value destructor
    generalize e.leave destructor = e' at hvalue
    unfold leave
    rw [hvalue]
  · rfl

end Entry

/-! ## The slots of a record -/

/-- The slot `key` of the thread on record `t`. -/
def entry (k : Keyed) (t key : ℕ) : Entry := ⟨k.private_data t key, k.hist (k.sched.thread t).id key⟩

/-- From `k` to `k'` only slots of the record `t` have changed, for the keys in `ks`. -/
structure Only (k k' : Keyed) (t : ℕ) (ks : List ℕ) : Prop where
  sched : k'.sched = k.sched
  key_max : k'.key_max = k.key_max
  destructors : k'.destructors = k.destructors
  private_data : ∀ u key, u ≠ t ∨ key ∉ ks → k'.private_data u key = k.private_data u key
  hist : ∀ f key, f ≠ (k.sched.thread t).id ∨ key ∉ ks → k'.hist f key = k.hist f key

namespace Only

variable {k k' k'' : Keyed} {t : ℕ} {ks : List ℕ}

/-- No slot has changed. -/
theorem refl (k : Keyed) (t : ℕ) (ks : List ℕ) : Only k k t ks :=
  ⟨rfl, rfl, rfl, fun _ _ _ => rfl, fun _ _ _ => rfl⟩

/-- One after the other. -/
theorem trans (h : Only k k' t ks) (h' : Only k' k'' t ks) : Only k k'' t ks := by
  refine ⟨h'.sched.trans h.sched, h'.key_max.trans h.key_max, h'.destructors.trans h.destructors,
    fun u key hne => (h'.private_data u key hne).trans (h.private_data u key hne), fun f key hne => ?_⟩
  have hrest := h'.hist f key
  rw [h.sched] at hrest
  exact (hrest hne).trans (h.hist f key hne)

/-- No slot has changed but those for these keys and others. -/
theorem mono {ks' : List ℕ} (h : Only k k' t ks) (hsub : ∀ key ∈ ks, key ∈ ks') : Only k k' t ks' :=
  ⟨h.sched, h.key_max, h.destructors,
    fun u key hne => h.private_data u key (hne.imp_right fun hnot hmem => hnot (hsub key hmem)),
    fun f key hne => h.hist f key (hne.imp_right fun hnot hmem => hnot (hsub key hmem))⟩

/-- One slot is assigned to. -/
theorem store (k : Keyed) (t key : ℕ) (value : Option ℕ) : Only k (k.store t key value) t [key] := by
  refine ⟨rfl, rfl, rfl, fun u key' hne => ?_, fun _ _ _ => rfl⟩
  unfold Keyed.store
  dsimp only
  by_cases hu : u = t
  · have hkey : key' ≠ key := fun heq => hne.elim (fun h => h hu) fun h => h (by simp [heq])
    rw [hu, Function.update_self, Function.update_of_ne hkey]
  · rw [Function.update_of_ne hu]

/-- Something is recorded for one slot. -/
theorem note (k : Keyed) (t key : ℕ) (e : Slot.Event ℕ) : Only k (k.note t key e) t [key] := by
  refine ⟨rfl, rfl, rfl, fun _ _ _ => rfl, fun f key' hne => ?_⟩
  unfold Keyed.note
  dsimp only
  by_cases hf : f = (k.sched.thread t).id
  · have hkey : key' ≠ key := fun heq => hne.elim (fun h => h hf) fun h => h (by simp [heq])
    rw [hf, Function.update_self, Function.update_of_ne hkey]
  · rw [Function.update_of_ne hf]

/-- The other slots of the record. -/
theorem entry (h : Only k k' t ks) {key : ℕ} (hkey : key ∉ ks) : k'.entry t key = k.entry t key := by
  unfold Keyed.entry
  rw [h.private_data t key (Or.inr hkey), h.sched, h.hist _ key (Or.inr hkey)]

end Only

/-- The slot holds the value then. -/
theorem store_entry (k : Keyed) (t key : ℕ) (value : Option ℕ) :
    (k.store t key value).entry t key = { k.entry t key with value := value } := by
  simp [entry, store]

/-- The history of the slot has the event. -/
theorem note_entry (k : Keyed) (t key : ℕ) (e : Slot.Event ℕ) :
    (k.note t key e).entry t key = { k.entry t key with hist := e :: (k.entry t key).hist } := by
  simp [entry, note]

/-! ## The functions -/

/-- The old value leaves its slot. -/
theorem freeUp_entry (k : Keyed) (t key : ℕ) : Only k (k.freeUp t key) t [key] ∧
    ((k.freeUp t key).entry t key).hist = ((k.entry t key).leave (k.destructors key)).hist := by
  have hvalue : (k.entry t key).value = k.private_data t key := rfl
  unfold freeUp Entry.leave
  rw [hvalue]
  cases k.private_data t key with
  | none => exact ⟨.refl k t [key], rfl⟩
  | some old => exact ⟨.note k t key _, by rw [note_entry]⟩

/-- The new value is put into its slot. -/
theorem install_entry (k : Keyed) (t key : ℕ) (value : Option ℕ) :
    Only k (k.install t key value) t [key] ∧ (k.install t key value).entry t key =
      ⟨value, match value with
        | some v => .put v :: (k.entry t key).hist
        | none => (k.entry t key).hist⟩ := by
  unfold install
  cases value with
  | none => exact ⟨.store k t key none, k.store_entry t key none⟩
  | some v =>
    refine ⟨(Only.store k t key _).trans (.note _ t key _), ?_⟩
    rw [note_entry, store_entry]

/-- `st_thread_setspecific` with a key that exists. -/
theorem setspecific_entry (k : Keyed) (t : ℕ) {key : ℕ} (hkey : key < k.key_max) (value : Option ℕ) :
    Only k (k.setspecific (some t) key value).1 t [key] ∧
      (k.setspecific (some t) key value).1.entry t key =
        (k.entry t key).put (k.destructors key) value := by
  have hvalid : ¬((key : ℤ) < 0 ∨ (k.key_max : ℤ) ≤ key) := by omega
  unfold setspecific
  dsimp only
  rw [if_neg hvalid, Int.toNat_natCast]
  by_cases hsame : value = k.private_data t key
  · rw [if_neg (not_not.mpr hsame)]
    exact ⟨.refl k t [key], (if_neg (not_not.mpr hsame)).symm⟩
  · rw [if_pos hsame]
    have hput : (k.entry t key).put (k.destructors key) value = _ := if_pos hsame
    rw [hput]
    obtain ⟨hfree, hleave⟩ := k.freeUp_entry t key
    obtain ⟨hinstall, hnew⟩ := (k.freeUp t key).install_entry t key value
    refine ⟨hfree.trans hinstall, ?_⟩
    -- The old value leaves first, with its event, and then the new one comes.
    rw [hnew, hleave]
    cases value with
    | none =>
      have hvalue := (k.entry t key).leave_value (k.destructors key)
      exact congrArg (Entry.mk · ((k.entry t key).leave (k.destructors key)).hist) hvalue.symm
    | some v => rfl

/-- A call of `st_thread_setspecific` that is refused. -/
theorem setspecific_invalid (k : Keyed) {thread : Option ℕ} {key : ℤ} (value : Option ℕ)
    (h : thread = none ∨ key < 0 ∨ (k.key_max : ℤ) ≤ key) :
    k.setspecific thread key value = (k, .error .EINVAL) := by
  unfold setspecific
  cases thread with
  | none => rfl
  | some t =>
    dsimp only
    rw [if_pos (h.resolve_left fun h => by cases h)]

/-- The loop of `_st_thread_cleanup`. -/
theorem cleanupKey_entry (k : Keyed) (t key : ℕ) : Only k (cleanupKey t k key) t [key] ∧
    (cleanupKey t k key).entry t key = (k.entry t key).clean (k.destructors key) := by
  have hvalue : (k.entry t key).value = k.private_data t key := rfl
  unfold cleanupKey Entry.clean Entry.leave
  rw [hvalue]
  cases hdata : k.private_data t key with
  | none =>
    refine ⟨.refl k t [key], ?_⟩
    dsimp only
    split_ifs <;> rfl
  | some v =>
    cases k.destructors key with
    | none => exact ⟨.refl k t [key], rfl⟩
    | some d =>
      refine ⟨(Only.note k t key _).trans (.store _ t key none), ?_⟩
      dsimp only
      rw [store_entry, note_entry]
      rfl

/-- The loop of `_st_thread_cleanup` cleans the slots of these keys. The induction is on the keys. -/
theorem cleanup_entry (t : ℕ) (ks : List ℕ) : ∀ k : Keyed, Only k (ks.foldl (cleanupKey t) k) t ks ∧
    ∀ key ∈ ks, (ks.foldl (cleanupKey t) k).entry t key = (k.entry t key).clean (k.destructors key) := by
  -- The induction is on the keys that are left; each round changes the slot of its own key only.
  induction ks with
  | nil => exact fun k => ⟨.refl k t [], by simp⟩
  | cons key ks ih =>
    intro k
    obtain ⟨honly, hentry⟩ := k.cleanupKey_entry t key
    obtain ⟨honly', hentry'⟩ := ih (cleanupKey t k key)
    rw [List.foldl_cons]
    refine ⟨(honly.mono (by simp)).trans (honly'.mono (by simp +contextual)), fun key' hmem => ?_⟩
    -- A key that comes up twice is cleaned up twice.
    by_cases hin : key' ∈ ks
    · rw [hentry' key' hin, honly.destructors]
      by_cases heq : key' = key
      · rw [heq, hentry, Entry.clean_clean]
      · rw [honly.entry (by simpa using heq)]
    · obtain rfl : key' = key := by simpa [hin] using hmem
      rw [honly'.entry hin, hentry]

end StWin.Keyed
