import StWin.Key.Slots

/-!
# Values are destroyed once

Each non-`NULL` value that is installed for a key with a destructor leads to one call of the destructor,
when another value replaces it or when the thread ends, and a new thread finds `NULL` in all its slots,
whatever the stack has held before. This is so if `st_thread_create` gets the fiber of each thread that it
returns, and gives no stack back while the library has a pointer to the record (`run_destroyed`). What it
rests on is `St.Turns`: the row that `st_thread_exit` cleans up is that of the thread that returns, and no
other live thread has it.

Each of the two conditions is needed (`run_not_destroyed`). If a thread without a fiber is selected, the
thread that yielded goes on in its name, and if it then returns, the other one's row is cleaned up instead
of its own. If a thread that was not created is selected, its stack is released twice, and two threads
share it.
-/

namespace StWin.Keyed

/-! ## The invariant -/

/-- The record is that of a thread that has not ended. -/
def Living (k : Keyed) (t : ℕ) : Prop :=
  t < k.sched.segments ∧ ¬k.sched.Ended (k.sched.thread t).id

instance (k : Keyed) (t : ℕ) : Decidable (k.Living t) := inferInstanceAs (Decidable (_ ∧ _))

/-- The histories say what the slots of the live threads hold, and that nothing is left of the values of
the others. -/
structure Inv (k : Keyed) : Prop where
  turns : k.sched.Turns
  returned : ∀ f v, .returned f v ∈ k.sched.log → k.sched.Ended f
  limit : k.key_max ≤ ST_KEYS_MAX
  table : ∀ key, k.key_max ≤ key → k.destructors key = none
  unused : ∀ f key, k.key_max ≤ key → k.hist f key = []
  fresh : ∀ f key, k.sched.created ≤ f → k.hist f key = []
  live : ∀ t key, k.Living t → (k.entry t key).Ok
  ended : ∀ f key d, k.sched.Ended f → k.destructors key = some d → Slot.Holds (k.hist f key) none
  kept : ∀ f key d v, k.destructors key = some d → .drop v ∉ k.hist f key

namespace Inv

variable {k k' : Keyed} {t : ℕ}

/-- Each record has a thread of its own. -/
theorem id_inj (h : k.Inv) {u : ℕ} (ht : t < k.sched.segments) (hu : u < k.sched.segments)
    (heq : (k.sched.thread u).id = (k.sched.thread t).id) : u = t := by
  rw [← (h.turns.record u hu).1, heq, (h.turns.record t ht).1]

/-- The slots of one live thread change. -/
theorem only (h : k.Inv) (ht : k.Living t) {ks : List ℕ} (ho : Only k k' t ks)
    (hks : ∀ key ∈ ks, key < k.key_max) (hok : ∀ key ∈ ks, (k'.entry t key).Ok)
    (hdrop : ∀ key ∈ ks, ∀ d v, k.destructors key = some d → .drop v ∈ (k'.entry t key).hist →
      .drop v ∈ (k.entry t key).hist) : k'.Inv := by
  have hlt : (k.sched.thread t).id < k.sched.created := (h.turns.record t ht.1).2.2
  refine ⟨by rw [ho.sched]; exact h.turns, by rw [ho.sched]; exact h.returned,
    by rw [ho.key_max]; exact h.limit, by rw [ho.key_max, ho.destructors]; exact h.table,
    fun f key hkey => ?_, fun f key hf => ?_, fun u key hu => ?_, fun f key d hend hd => ?_,
    fun f key d v hd hmem => ?_⟩
  · -- The keys are in use, so the unused slots stay empty.
    rw [ho.key_max] at hkey
    rw [ho.hist f key (Or.inr fun hmem => absurd (hks key hmem) (not_lt.mpr hkey))]
    exact h.unused f key hkey
  · -- The thread has been created, so it is none of the future.
    rw [ho.sched] at hf
    rw [ho.hist f key (Or.inl (hlt.trans_le hf).ne')]
    exact h.fresh f key hf
  · unfold Living at hu
    rw [ho.sched] at hu
    by_cases hmem : u = t ∧ key ∈ ks
    · rw [hmem.1]
      exact hok key hmem.2
    · -- A slot of another record is one of another thread.
      have hother : (k.sched.thread u).id ≠ (k.sched.thread t).id ∨ key ∉ ks :=
        (not_and_or.mp hmem).imp_left fun hne heq => hne (h.id_inj ht.1 hu.1 heq)
      have hsame : k'.entry u key = k.entry u key := by
        unfold Keyed.entry
        rw [ho.sched, ho.private_data u key (not_and_or.mp hmem), ho.hist _ key hother]
      rw [hsame]
      exact h.live u key hu
  · -- A living thread is not an ended one.
    rw [ho.sched] at hend
    rw [ho.destructors] at hd
    rw [ho.hist f key (Or.inl fun heq => ht.2 (heq ▸ hend))]
    exact h.ended f key d hend hd
  · -- Nothing is dropped in the slots that change, and the others keep their histories.
    rw [ho.destructors] at hd
    by_cases hin : f = (k.sched.thread t).id ∧ key ∈ ks
    · refine h.kept _ key d v hd (hdrop key hin.2 d v hd ?_)
      unfold Keyed.entry
      rw [ho.sched, ← hin.1]
      exact hmem
    · rw [ho.hist f key (not_and_or.mp hin)] at hmem
      exact h.kept f key d v hd hmem

/-! ## The functions -/

/-- `st_key_create` keeps the histories in order. -/
theorem keyCreate (h : k.Inv) (destructor : Option ℕ) : (k.keyCreate destructor).1.Inv := by
  unfold Keyed.keyCreate
  split_ifs with hfull
  · exact h
  · have hnew : ∀ key d, Function.update k.destructors k.key_max destructor key = some d →
        (key = k.key_max ∧ ∀ f, k.hist f key = []) ∨ k.destructors key = some d := by
      intro key d hd
      by_cases hkey : key = k.key_max
      · exact Or.inl ⟨hkey, fun f => h.unused f key hkey.ge⟩
      · rw [Function.update_of_ne hkey] at hd
        exact Or.inr hd
    -- A key that was not in use has no history yet, so the new destructor has missed nothing.
    refine ⟨h.turns, h.returned, not_le.mp hfull, fun key hkey => ?_, fun f key hkey => ?_, h.fresh, h.live,
      fun f key d hend hd => ?_, fun f key d v hd => ?_⟩
    · have hne : key ≠ k.key_max := (Nat.lt_of_succ_le hkey).ne'
      dsimp only
      rw [Function.update_of_ne hne]
      exact h.table key (Nat.le_of_succ_le hkey)
    · exact h.unused f key (Nat.le_of_succ_le hkey)
    · rcases hnew key d hd with ⟨-, hempty⟩ | hold
      · dsimp only
        rw [hempty]
        exact .nil
      · exact h.ended f key d hend hold
    · rcases hnew key d hd with ⟨-, hempty⟩ | hold
      · dsimp only
        rw [hempty]
        simp
      · exact h.kept f key d v hold

/-- `st_thread_setspecific` by a living thread keeps the histories in order. -/
theorem setspecific (h : k.Inv) {thread : Option ℕ} (ht : ∀ t, thread = some t → k.Living t) (key : ℤ)
    (value : Option ℕ) : (k.setspecific thread key value).1.Inv := by
  by_cases hvalid : thread = none ∨ key < 0 ∨ (k.key_max : ℤ) ≤ key
  · rw [k.setspecific_invalid value hvalid]
    exact h
  · push Not at hvalid
    obtain ⟨hne, hpos, hmax⟩ := hvalid
    obtain ⟨t, rfl⟩ := Option.ne_none_iff_exists'.mp hne
    lift key to ℕ using hpos
    have hkey : key < k.key_max := by omega
    obtain ⟨honly, hentry⟩ := k.setspecific_entry t hkey value
    have hliving := ht t rfl
    refine h.only hliving honly (by simpa using hkey) (fun key' hmem => ?_) fun key' hmem d v hd hdrop => ?_
    · obtain rfl : key' = key := by simpa using hmem
      rw [hentry]
      exact (h.live t key' hliving).put _ _
    · obtain rfl : key' = key := by simpa using hmem
      rw [hentry, hd] at hdrop
      exact Entry.mem_put hdrop

/-- After `_st_thread_cleanup` no value with a destructor is left. -/
theorem cleanup (h : k.Inv) (ht : k.Living t) : (k.cleanup (some t)).Inv ∧
    (k.cleanup (some t)).sched = k.sched ∧ (k.cleanup (some t)).destructors = k.destructors ∧
      ∀ key d, k.destructors key = some d → (k.cleanup (some t)).private_data t key = none := by
  obtain ⟨honly, hentry⟩ := cleanup_entry t (List.range k.key_max) k
  refine ⟨h.only ht honly (by simp) (fun key hmem => ?_) (fun key hmem d v hd hdrop => ?_), honly.sched,
    honly.destructors, fun key d hd => ?_⟩
  · have hnew := hentry key hmem
    unfold Keyed.cleanup
    dsimp only
    rw [hnew]
    exact (h.live t key ht).clean _
  · have hnew := hentry key hmem
    unfold Keyed.cleanup at hdrop
    dsimp only at hdrop
    rw [hnew, hd] at hdrop
    exact Entry.mem_clean hdrop
  · -- The loop comes to each key with a destructor.
    have hlt : key < k.key_max := by
      by_contra hge
      rw [h.table key (not_lt.mp hge)] at hd
      cases hd
    have hnew := hentry key (List.mem_range.mpr hlt)
    rw [hd] at hnew
    have hvalue := (k.entry t key).clean_value (d := d)
    rw [← hnew] at hvalue
    exact hvalue

/-! ## Steps of the scheduler -/

variable {P : ℕ → Prop} {s' : St}

/-- A step that ends no thread and touches no private data. -/
theorem same (h : k.Inv) (hturns : s'.Turns) (hr : St.SameRecords P k.sched s')
    (hended : ∀ f, s'.Ended f ↔ k.sched.Ended f) : Inv { k with sched := s' } := by
  refine ⟨hturns, fun f v hmem => (hended f).mpr (h.returned f v (hr.returned f v hmem)), h.limit, h.table,
    h.unused, fun f key hf => h.fresh f key (hr.created ▸ hf), fun t key ht => ?_,
    fun f key d hend hd => h.ended f key d ((hended f).mp hend) hd, h.kept⟩
  unfold Living at ht
  unfold Keyed.entry
  dsimp only at ht ⊢
  rw [hr.segments, hr.id, hended] at ht
  rw [hr.id]
  exact h.live t key ht

/-- The running thread ends, with clean slots. -/
theorem ends (h : k.Inv) {s₀ : St} (hturns : s'.Turns)
    (hnote : s₀ = k.sched ∨ ∃ v, s₀ = k.sched.note (.returned k.sched.running v))
    (hr : St.SameRecords P s₀ s') (hended : ∀ f, s'.Ended f ↔ f = k.sched.running ∨ k.sched.Ended f)
    (hclean : ∀ key d, k.destructors key = some d → Slot.Holds (k.hist k.sched.running key) none) :
    Inv { k with sched := s' } := by
  -- The note of the return is all that `s₀` has in addition.
  obtain ⟨hcreated, hsegments, hthread⟩ : s₀.created = k.sched.created ∧
      s₀.segments = k.sched.segments ∧ s₀.thread = k.sched.thread := by
    rcases hnote with rfl | ⟨v, rfl⟩ <;> exact ⟨rfl, rfl, rfl⟩
  refine ⟨hturns, fun f v hmem => (hended f).mpr ?_, h.limit, h.table, h.unused,
    fun f key hf => h.fresh f key (by rw [← hcreated, ← hr.created]; exact hf), fun t key ht => ?_,
    fun f key d hend hd => ?_, h.kept⟩
  · have hold := hr.returned f v hmem
    rcases hnote with rfl | ⟨w, rfl⟩
    · exact Or.inr (h.returned f v hold)
    · rcases List.mem_cons.mp hold with heq | hold
      · cases heq
        exact Or.inl rfl
      · exact Or.inr (h.returned f v hold)
  · unfold Living at ht
    unfold Keyed.entry
    dsimp only at ht ⊢
    rw [hr.segments, hr.id, hended, hsegments, hthread, not_or] at ht
    rw [hr.id, hthread]
    exact h.live t key ⟨ht.1, ht.2.2⟩
  · rcases (hended f).mp hend with rfl | hold
    · exact hclean key d hd
    · exact h.ended f key d hold hd

/-- A record is written to the stack `t`. -/
theorem creates (h : k.Inv) {th : Thread} {s₂ : St} (hturns : s'.Turns) (hc : St.Creates k.sched s₂ t th)
    (hr : St.SameRecords P s₂ s') (hlife : s'.life = s₂.life) :
    Inv { k.clear t with sched := s' } := by
  have hended : ∀ f, f ≠ k.sched.created → (s'.Ended f ↔ k.sched.Ended f) := by
    intro f hf
    rw [← hc.ended hf]
    unfold St.Ended
    rw [hlife]
  have hlt : ∀ f, k.sched.Ended f → f ≠ k.sched.created := fun f hf => (h.turns.old f hf).ne
  refine ⟨hturns, fun f v hmem => ?_, h.limit, h.table, h.unused, fun f key hf => ?_,
    fun u key hu => ?_, fun f key d hend hd => ?_, h.kept⟩
  · have hold := h.returned f v (hc.log ▸ hr.returned f v hmem)
    exact (hended f (hlt f hold)).mpr hold
  · refine h.fresh f key ?_
    have hcreated : s'.created = k.sched.created + 1 := hr.created.trans hc.created
    dsimp only at hf
    omega
  · unfold Living at hu
    unfold Keyed.entry clear
    dsimp only at hu ⊢
    rw [hr.segments, hr.id] at hu
    rw [hr.id]
    by_cases hut : u = t
    · -- The row of the new thread was cleared.
      rw [hut, Function.update_self, hc.self, hc.id, h.fresh _ key le_rfl]
      exact .nil
    · rw [hc.other hut] at hu
      rw [Function.update_of_ne hut, hc.other hut]
      have hseg : u < k.sched.segments := (hc.segment u hu.1).resolve_right hut
      rw [hended _ (h.turns.record u hseg).2.2.ne] at hu
      exact h.live u key ⟨hseg, hu.2⟩
  · by_cases hnew : f = k.sched.created
    · change Slot.Holds (k.hist f key) none
      rw [hnew, h.fresh _ key le_rfl]
      exact .nil
    · exact h.ended f key d ((hended f hnew).mp hend) hd

end Inv

/-! ## Steps -/

/-- A call of `st_thread_exit`. -/
def isExit : St.Label → Bool
  | .call (.exit _) => true
  | _ => false

/-- The steps in question: threads end by returning, and `st_thread_setspecific` gets live threads. -/
def InQuestion (k : Keyed) : Does → Prop
  | .sched l => isExit l = false
  | .keyCreate _ => True
  | .setspecific none _ _ => True
  | .setspecific (some t) _ _ => k.Living t

instance (k : Keyed) : (l : Does) → Decidable (k.InQuestion l)
  | .sched l => inferInstanceAs (Decidable (isExit l = false))
  | .keyCreate _ => inferInstanceAs (Decidable True)
  | .setspecific none _ _ => inferInstanceAs (Decidable True)
  | .setspecific (some t) _ _ => inferInstanceAs (Decidable (k.Living t))

/-- `st_thread_create` gets what it relies on. -/
def Granted (k : Keyed) : Does → Prop
  | .sched l => k.sched.Acquired l
  | .keyCreate _ => True
  | .setspecific _ _ _ => True

/-- A step in question, in which `st_thread_create` gets what it asks for. -/
def Ok (k : Keyed) (l : Does) : Prop := k.InQuestion l ∧ k.Granted l

/-- `st_thread_create` zeroes the private data of the record that it writes. -/
theorem touch_create (k : Keyed) {joinable : Bool} {stk_size : ℤ} {ok : St.Acquire} {t : ℕ} {s₁ : St}
    (h : k.sched.stackNew (k.sched.stackSize stk_size) ok.stack = some (t, s₁)) :
    k.touch (.call (.create joinable stk_size ok)) = k.clear t := by
  unfold touch
  dsimp only
  rw [h]

/-- A thread that enters `st_thread_exit` runs the destructors of its private data. -/
theorem touch_enters (k : Keyed) {l : St.Label} (h : k.sched.Enters l) :
    k.touch l = k.cleanup k.sched.this_thread := by
  unfold touch
  split
  · exact h.elim
  · exact if_pos h

/-- The other steps do not touch private data. -/
theorem touch_same (k : Keyed) {l : St.Label} (henters : ¬k.sched.Enters l)
    (hmakes : ∀ joinable stk_size ok, l = .call (.create joinable stk_size ok) →
      k.sched.stackNew (k.sched.stackSize stk_size) ok.stack = none) : k.touch l = k := by
  unfold touch
  split
  · rw [hmakes _ _ _ rfl]
  · exact if_neg henters

/-- One step keeps the invariant. -/
theorem step_inv {k k' : Keyed} {l : Does} (h : k.Inv) (hok : k.Ok l) (hstep : k.step l = some k') :
    k'.Inv := by
  obtain ⟨hquestion, hgranted⟩ := hok
  cases l with
  | sched l =>
    obtain ⟨s', hs', rfl⟩ := Option.map_eq_some_iff.mp hstep
    have hexit : ∀ retval, l ≠ .call (.exit retval) := by
      rintro retval rfl
      cases hquestion
    obtain ⟨hturns, hdeals⟩ := St.step_deals h.turns hgranted hexit hs'
    cases hdeals with
    | same enters makes records ended =>
      rw [k.touch_same enters makes]
      exact h.same hturns records ended
    | creates joinable stk_size ok t th s₁ s₂ r label new creates eq =>
      rw [label, k.touch_create new]
      have hret : St.Stays k.sched.Started s₂ s' := eq ▸ .ret s₂ r
      exact h.creates hturns creates hret.toSameRecords hret.life
    | ends t s₀ enters this context live note records ended =>
      rw [k.touch_enters enters, this]
      obtain ⟨hid, hseg⟩ := h.turns.own t _ context
      -- The row that is cleaned up is that of the thread that runs, which has not ended yet.
      have hliving : k.Living t := ⟨hseg, by rw [hid]; exact live⟩
      obtain ⟨hinv, hsched, hdestructors, hclean⟩ := h.cleanup hliving
      generalize k.cleanup (some t) = k₁ at hinv hsched hdestructors hclean
      unfold Living at hliving
      rw [← hsched] at note records ended hid hliving
      refine hinv.ends hturns note records ended fun key d hd => ?_
      -- The slots that the thread leaves are empty.
      have hholds := hinv.live t key hliving
      unfold Entry.Ok entry at hholds
      rw [hid, hclean key d (hdestructors ▸ hd)] at hholds
      exact hholds
  | keyCreate destructor =>
    unfold step at hstep
    split_ifs at hstep
    cases hstep
    exact h.keyCreate destructor
  | setspecific thread key value =>
    unfold step at hstep
    split_ifs at hstep
    cases hstep
    refine h.setspecific (fun t ht => ?_) key value
    subst ht
    exact hquestion

/-- At first there is no thread, whatever the memory holds. -/
theorem init_inv (pagesize : ℤ) (last_clock : ℕ) (private_data : ℕ → ℕ → Option ℕ) :
    (init pagesize last_clock private_data).Inv := by
  refine ⟨St.init_turns pagesize last_clock, fun f v hmem => (by cases hmem), Nat.zero_le _, fun _ _ => rfl,
    fun _ _ _ => rfl, fun _ _ _ => rfl, fun t key ht => ?_, fun f key d _ _ => .nil,
    fun f key d v hd => (by cases hd)⟩
  -- The idle thread is the only one.
  have hlt : t < 1 := ht.1
  obtain rfl : t = 0 := by omega
  exact .nil

/-! ## The result -/

/-- Thread-specific values are destroyed exactly once. -/
structure Destroyed (k : Keyed) : Prop where
  /-- What was installed in a slot of a live thread and is not in place any more was destroyed once. -/
  live : ∀ t key d, k.Living t → k.destructors key = some d →
    Slot.Holds (k.hist (k.sched.thread t).id key) (k.private_data t key)
  /-- All that was installed for a thread that has ended was destroyed once. -/
  ended : ∀ f key d, (k.sched.Ended f ∨ ∃ v, .returned f v ∈ k.sched.log) → k.destructors key = some d →
    Slot.Holds (k.hist f key) none ∧
      ∀ v, (k.hist f key).count (.destroy v) = (k.hist f key).count (.put v)
  kept : ∀ f key d v, k.destructors key = some d → .drop v ∉ k.hist f key
  /-- After `st_thread_setspecific` the slot holds the new value. -/
  replaced : ∀ t (key : ℕ) value k', key < k.key_max →
    k.step (.setspecific (some t) key value) = some k' → k'.private_data t key = value
  /-- Storing the value in place destroys nothing. -/
  restored : ∀ t (key : ℕ) k',
    k.step (.setspecific (some t) key (k.private_data t key)) = some k' → k' = k
  /-- A new thread finds `NULL` in every slot. -/
  new : ∀ joinable stk_size ok k' (t : ℕ),
    k.step (.sched (.call (.create joinable stk_size ok))) = some k' →
    (k'.sched.fiber k'.sched.running).pc = .user (.ok (t + 1)) →
      ∀ key, k'.private_data t key = none ∧ k'.hist (k'.sched.thread t).id key = []

/-- A thread that `st_thread_create` returns is on the stack that it got, under a new number. -/
theorem threadCreate_some {s s' : St} {start : Pc} {joinable : Bool} {stk_size : ℤ} {ok : St.Acquire} {t : ℕ}
    (h : s.threadCreate start joinable stk_size ok = (s', some t)) :
    (∃ s₁, s.stackNew (s.stackSize stk_size) ok.stack = some (t, s₁)) ∧ (s'.thread t).id = s.created := by
  unfold St.threadCreate at h
  cases hnew : s.stackNew (s.stackSize stk_size) ok.stack with
  | none =>
    rw [hnew] at h
    cases h
  | some new =>
    obtain ⟨u, s₁⟩ := new
    obtain ⟨free, sizes, seg, rfl⟩ := St.stackNew_eq hnew
    rw [hnew] at h
    dsimp only at h
    split_ifs at h
    · cases h
      exact ⟨⟨_, rfl⟩, by simp [St.startThread, St.addRunq, St.setState, St.setThread, St.initThread]⟩
    · cases h
    · cases h
      exact ⟨⟨_, rfl⟩, by simp [St.startThread, St.addRunq, St.setState, St.setThread, St.initThread]⟩

/-- A thread that is created, on whatever stack. -/
theorem Inv.new {k k' : Keyed} (h : k.Inv) {joinable : Bool} {stk_size : ℤ} {ok : St.Acquire} {t : ℕ}
    (hstep : k.step (.sched (.call (.create joinable stk_size ok))) = some k')
    (hpc : (k'.sched.fiber k'.sched.running).pc = .user (.ok (t + 1))) (key : ℕ) :
    k'.private_data t key = none ∧ k'.hist (k'.sched.thread t).id key = [] := by
  obtain ⟨s', hs', rfl⟩ := Option.map_eq_some_iff.mp hstep
  dsimp only at hpc ⊢
  have hret : ∀ (s : St) r, ((s.ret r).fiber (s.ret r).running).pc = .user r := by
    intro s r
    simp [St.ret, St.setPc]
  obtain ⟨pc, hat⟩ : ∃ pc, (k.sched.fiber k.sched.running).pc = pc := ⟨_, rfl⟩
  cases St.step_goes hat hs' with
  | call c hcall =>
    simp only [St.call] at hcall
    split at hcall
    · -- `NULL` was returned.
      cases hcall
      rw [hret] at hpc
      simp only [Pc.user.injEq, Except.ok.injEq] at hpc
      omega
    · next s₁ u hmade =>
      cases hcall
      rw [hret] at hpc
      simp only [Pc.user.injEq, Except.ok.injEq] at hpc
      obtain rfl : u = t := by omega
      obtain ⟨⟨s₂, hnew⟩, hid⟩ := threadCreate_some hmade
      have hthread : (s₁.ret (.ok (u + 1))).thread = s₁.thread := rfl
      rw [k.touch_create hnew, hthread, hid]
      refine ⟨?_, h.fresh _ key le_rfl⟩
      unfold clear
      dsimp only
      rw [Function.update_self]

/-- What the histories say, in the terms of the statement. -/
theorem Inv.destroyed {k : Keyed} (h : k.Inv) : k.Destroyed where
  live t key d ht _ := h.live t key ht
  ended f key d hend hd := by
    have hholds := h.ended f key d (hend.elim id fun ⟨v, hv⟩ => h.returned f v hv) hd
    refine ⟨hholds, fun v => ?_⟩
    -- What was put was destroyed or dropped, and nothing was dropped.
    have hcount := hholds.count v
    rw [List.count_eq_zero.mpr (h.kept f key d v hd)] at hcount
    simpa using hcount.symm
  kept := h.kept
  replaced t key value k' hkey hstep := by
    unfold step at hstep
    split_ifs at hstep
    cases hstep
    have hvalue := (k.entry t key).put_value (k.destructors key) value
    rw [← (k.setspecific_entry t hkey value).2] at hvalue
    exact hvalue
  restored t key k' hstep := by
    unfold step at hstep
    split_ifs at hstep
    cases hstep
    unfold Keyed.setspecific
    dsimp only
    split_ifs with _ hne
    · rfl
    · exact absurd rfl hne
    · rfl
  new joinable stk_size ok k' t hstep hpc := h.new hstep hpc

/-- In each run in which threads end by returning, values are set for live threads, and `st_thread_create`
gets what it relies on, each value that is installed in a slot of a thread is destroyed once: when it is
replaced or, if it is still in place, when the thread ends. And a new thread has no values, whoever has used
its stack. -/
theorem run_destroyed (pagesize : ℤ) (last_clock : ℕ) (private_data : ℕ → ℕ → Option ℕ) (ls : List Does)
    {k : Keyed} (hrun : Runs.run step (init pagesize last_clock private_data) ls = some k)
    (hok : Runs.Meets step Ok (init pagesize last_clock private_data) ls) : k.Destroyed :=
  (Runs.run_invariant step_inv (init_inv pagesize last_clock private_data) hok hrun).destroyed

/-- A thread sets a value, stores it again, replaces it, and returns. Its stack is used once more. -/
def reuses : List Does :=
  [.keyCreate (some 7), .sched (.call (.create false 0 ⟨true, true, true⟩)), .sched (.call (.usleep 1)),
    .setspecific (some 1) 0 (some 9), .setspecific (some 1) 0 (some 9), .setspecific (some 1) 0 (some 8),
    .sched (.ret 0), .sched .resume, .sched (.call (.create true 0 ⟨false, true, true⟩))]

/-- All that `st_thread_create` asks for is to be had. -/
def Made : Does → Bool
  | .sched (.call (.create _ _ ok)) => ok.fiber && ok.cond
  | _ => true

/-- Where all that is asked for is to be had, nothing fails. -/
theorem granted_of_made (k : Keyed) {l : Does} (h : Made l) : k.Granted l := by
  unfold Granted
  split
  · next l =>
    unfold St.Acquired
    split
    · next joinable stk_size ok =>
      obtain ⟨hfiber, hcond⟩ : ok.fiber = true ∧ ok.cond = true := by simpa [Made] using h
      intro t s₁ _
      simp [hfiber, hcond]
    · trivial
  · trivial
  · trivial

/-- The run is possible. The second thread on the stack begins without private data, and each value is
destroyed once. -/
theorem run_destroyed_reuses : ∃ k, Runs.run step (init 4096 0 fun _ _ => some 5) reuses = some k ∧
    k.Destroyed ∧ k.hist 2 0 = [.destroy 8, .put 8, .destroy 9, .put 9] ∧
      (k.sched.thread 1).id = 3 ∧ k.private_data 1 0 = none := by
  refine ⟨(Runs.run step (init 4096 0 fun _ _ => some 5) reuses).get (by decide), by simp, ?_, by decide,
    by decide, by decide⟩
  have hok : Runs.Meets step (fun k l => k.InQuestion l ∧ Made l) (init 4096 0 fun _ _ => some 5) reuses := by
    decide
  exact run_destroyed 4096 0 (fun _ _ => some 5) reuses (by simp)
    (.mono (fun k _ h => ⟨h.1, k.granted_of_made h.2⟩) hok)

/-- The thread on stack 1 sets a value and sleeps. The thread on stack 2 has no fiber, so the first one goes
on in its name, and returns. -/
def misnames : List Does :=
  [.keyCreate (some 7), .sched (.call (.create false 0 ⟨true, true, true⟩)),
    .sched (.call (.create false 0 ⟨true, false, true⟩)), .sched (.call (.usleep 1)),
    .setspecific (some 1) 0 (some 9), .sched (.call (.usleep 5)), .sched (.ret 0)]

/-- A call of `st_thread_create` for a joinable thread fails on the stack 2 of a thread that has returned to
`main`. Then `main` sleeps in its name, and the thread that was not created is selected, and returns. Two
threads get its stack, and the row of the first one is cleared for the second. -/
def haunts : List Does :=
  let idles (now : ℕ) : List Does :=
    [.sched (.dispatch fun _ => .ready fun _ => ∅), .sched (.clock now), .sched .resume]
  [.keyCreate (some 7), .sched (.call (.create false 0 ⟨true, true, true⟩)),
    .sched (.call (.create false 0 ⟨true, true, true⟩)), .sched (.call (.usleep 1)),
    .sched (.call (.usleep 1000)), .sched (.ret 0), .sched .resume,
    .sched (.call (.create true 0 ⟨true, true, false⟩)), .sched (.call (.usleep 1))] ++ idles 5 ++
  [.sched (.ret 0), .sched .resume, .sched (.call (.create false 0 ⟨true, true, true⟩)),
    .sched (.call (.usleep 1))] ++ idles 10 ++
  [.setspecific (some 2) 0 (some 9), .sched (.call (.create false 0 ⟨true, true, true⟩)), .sched (.ret 0)]

/-- In the run, values are set for live threads and threads end by returning, and the thread `f` has left the
value 9 when it has returned. -/
structure Leaves (ls : List Does) (f : ℕ) (k : Keyed) : Prop where
  run : Runs.run step (init 4096 0 fun _ _ => none) ls = some k
  question : Runs.Meets step InQuestion (init 4096 0 fun _ _ => none) ls
  returned : .returned f 0 ∈ k.sched.log
  destructor : k.destructors 0 = some 7
  hist : k.hist f 0 = [.put 9]

/-- A run that leaves a value in an ended thread. -/
theorem Leaves.not_destroyed {ls : List Does} {f : ℕ} {k : Keyed} (h : Leaves ls f k) : ¬k.Destroyed := by
  intro hd
  have hcount := (hd.ended f 0 7 (Or.inr ⟨0, h.returned⟩) h.destructor).2 9
  rw [h.hist] at hcount
  simp at hcount

/-- The value is never destroyed. -/
theorem run_not_destroyed : (∃ k, Leaves misnames 2 k ∧ ¬k.Destroyed) ∧
    ∃ k, Leaves haunts 5 k ∧ ¬k.Destroyed := by
  have hmisnames : Leaves misnames 2
      ((Runs.run step (init 4096 0 fun _ _ => none) misnames).get (by decide)) :=
    ⟨by simp, by decide, by decide, by decide, by decide⟩
  have hhaunts : Leaves haunts 5
      ((Runs.run step (init 4096 0 fun _ _ => none) haunts).get (by decide +kernel)) :=
    ⟨by simp, by decide +kernel, by decide +kernel, by decide +kernel, by decide +kernel⟩
  exact ⟨⟨_, hmisnames, hmisnames.not_destroyed⟩, ⟨_, hhaunts, hhaunts.not_destroyed⟩⟩

end StWin.Keyed
