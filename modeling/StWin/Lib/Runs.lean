import Mathlib.Data.List.Basic
import Mathlib.Logic.Basic

/-!
# Runs of a labelled step function

A system is a function that takes a state and a label to the next state, or to nothing if the label
is not possible in that state. Its runs are lists of labels. A condition on single steps, on the
state before a step and its label, is lifted to runs by `Meets`, and `run_invariant` is the
induction rule: what each step that meets the condition keeps, each run that meets it keeps. The rule
`record_invariant` is the same for a state together with the notes of an observer, who sees every step
and does not take part in the run.

A queue that each step serves at the head, if at all, and lengthens at the tail, if at all, is served in
order in a run: `run_served` and `place_served`.
-/

namespace Runs

variable {σ ℓ : Type*} (step : σ → ℓ → Option σ)

/-- The state after the labels of a list, in order. -/
def run : σ → List ℓ → Option σ
  | s, [] => some s
  | s, l :: ls =>
    match step s l with
    | some s' => run s' ls
    | none => none

/-- Every label of the run meets `P`, at the state in which it is taken. -/
def Meets (P : σ → ℓ → Prop) : σ → List ℓ → Prop
  | _, [] => True
  | s, l :: ls =>
    P s l ∧
      match step s l with
      | some s' => Meets P s' ls
      | none => True

instance Meets.decidable (P : σ → ℓ → Prop) [∀ s l, Decidable (P s l)] :
    (s : σ) → (ls : List ℓ) → Decidable (Meets step P s ls)
  | _, [] => .isTrue trivial
  | s, l :: ls =>
    match h : step s l with
    | some s' =>
      have := Meets.decidable P s' ls
      decidable_of_iff (P s l ∧ Meets step P s' ls) (by rw [Meets, h])
    | none => decidable_of_iff (P s l) (by rw [Meets, h, and_true])

/-- What an observer who sees each step has written down after a run. -/
def record {ω : Type*} (track : ω → σ → ℓ → σ → ω) : ω → σ → List ℓ → ω
  | w, _, [] => w
  | w, s, l :: ls =>
    match step s l with
    | some s' => record track (track w s l s') s' ls
    | none => w

variable {step}

/-- A run that is not empty has a first step. -/
theorem run_cons {s s' : σ} {l : ℓ} {ls : List ℓ} (h : run step s (l :: ls) = some s') :
    ∃ s₁, step s l = some s₁ ∧ run step s₁ ls = some s' := by
  rw [run] at h
  split at h
  · next s₁ hs₁ => exact ⟨s₁, hs₁, h⟩
  · cases h

/-- The first step meets the condition. -/
theorem Meets.head {P : σ → ℓ → Prop} {s : σ} {l : ℓ} {ls : List ℓ}
    (h : Meets step P s (l :: ls)) : P s l := h.1

/-- The steps after the first one meet the condition. -/
theorem Meets.tail {P : σ → ℓ → Prop} {s s₁ : σ} {l : ℓ} {ls : List ℓ}
    (h : Meets step P s (l :: ls)) (hs : step s l = some s₁) : Meets step P s₁ ls := by
  have htail := h.2
  rw [hs] at htail
  exact htail

/-- A condition may be replaced by one that follows from it. -/
theorem Meets.mono {P Q : σ → ℓ → Prop} (hPQ : ∀ s l, P s l → Q s l) {ls : List ℓ} :
    ∀ {s : σ}, Meets step P s ls → Meets step Q s ls := by
  induction ls with
  | nil => exact fun _ => trivial
  | cons l ls ih =>
    intro s h
    rw [Meets]
    refine ⟨hPQ s l h.head, ?_⟩
    split
    · next s₁ hs₁ => exact ih (h.tail hs₁)
    · trivial

/-- Two runs, one after the other, that both meet the condition. -/
theorem Meets.append {P : σ → ℓ → Prop} {ls ls' : List ℓ} : ∀ {s s₁ : σ}, Meets step P s ls →
    run step s ls = some s₁ → Meets step P s₁ ls' → Meets step P s (ls ++ ls') := by
  induction ls with
  | nil =>
    intro s s₁ _ hrun h'
    cases hrun
    exact h'
  | cons l ls ih =>
    intro s s₁ h hrun h'
    obtain ⟨s₂, hs₂, hrest⟩ := run_cons hrun
    rw [List.cons_append, Meets, hs₂]
    exact ⟨h.head, ih (h.tail hs₂) hrest h'⟩

/-- A run of two parts. -/
theorem run_append (s : σ) (ls ls' : List ℓ) :
    run step s (ls ++ ls') = (run step s ls).bind fun s₁ => run step s₁ ls' := by
  induction ls generalizing s with
  | nil => rfl
  | cons l ls ih =>
    rw [List.cons_append, run, run]
    cases step s l with
    | none => rfl
    | some s₁ => exact ih s₁

/-- The induction over a run: an invariant of the steps that meet `P` is an invariant of the runs
that do. -/
theorem run_invariant {P : σ → ℓ → Prop} {I : σ → Prop}
    (hstep : ∀ {s l s'}, I s → P s l → step s l = some s' → I s') {ls : List ℓ} :
    ∀ {s s' : σ}, I s → Meets step P s ls → run step s ls = some s' → I s' := by
  induction ls with
  | nil =>
    intro s s' hI _ hrun
    cases hrun
    exact hI
  | cons l ls ih =>
    intro s s' hI hP hrun
    obtain ⟨s₁, hs₁, hrest⟩ := run_cons hrun
    exact ih (hstep hI hP.head hs₁) (hP.tail hs₁) hrest

/-- The rule for a property that a step keeps exactly if it meets `P`, under an invariant `J` of all steps:
the runs that keep it are those that meet `P`. -/
theorem run_iff {P : σ → ℓ → Prop} {I J : σ → Prop}
    (hJ : ∀ {s l s'}, J s → step s l = some s' → J s')
    (hstep : ∀ {s l s'}, J s → step s l = some s' → (I s' ↔ I s ∧ P s l)) {ls : List ℓ} :
    ∀ {s s' : σ}, J s → run step s ls = some s' → (I s' ↔ I s ∧ Meets step P s ls) := by
  induction ls with
  | nil =>
    intro s s' _ hrun
    cases hrun
    exact (and_iff_left trivial).symm
  | cons l ls ih =>
    intro s s' hj hrun
    obtain ⟨s₁, hs₁, hrest⟩ := run_cons hrun
    have hmeets : Meets step P s (l :: ls) ↔ P s l ∧ Meets step P s₁ ls := by rw [Meets, hs₁]
    rw [ih (hJ hj hs₁) hrest, hstep hj hs₁, hmeets, and_assoc]

/-- The same induction for a state together with what an observer has written down. -/
theorem record_invariant {ω : Type*} {track : ω → σ → ℓ → σ → ω} {P : σ → ℓ → Prop}
    {I : σ → ω → Prop}
    (hstep : ∀ {s l s' w}, I s w → P s l → step s l = some s' → I s' (track w s l s')) {ls : List ℓ} :
    ∀ {s s' : σ} {w : ω}, I s w → Meets step P s ls → run step s ls = some s' →
      I s' (record step track w s ls) := by
  induction ls with
  | nil =>
    intro s s' w hI _ hrun
    cases hrun
    exact hI
  | cons l ls ih =>
    intro s s' w hI hP hrun
    obtain ⟨s₁, hs₁, hrest⟩ := run_cons hrun
    rw [record, hs₁]
    exact ih (hstep hI hP.head hs₁) (hP.tail hs₁) hrest

/-- The rule for steps that are always possible: then the runs are, too. -/
theorem run_total {P : σ → ℓ → Prop} {I : σ → Prop}
    (hstep : ∀ {s l}, I s → P s l → ∃ s', step s l = some s' ∧ I s') {ls : List ℓ} :
    ∀ {s : σ}, I s → Meets step P s ls → ∃ s', run step s ls = some s' ∧ I s' := by
  induction ls with
  | nil => exact fun hI _ => ⟨_, rfl, hI⟩
  | cons l ls ih =>
    intro s hI hP
    obtain ⟨s₁, hs₁, hI₁⟩ := hstep hI hP.head
    obtain ⟨s', hs', hI'⟩ := ih hI₁ (hP.tail hs₁)
    refine ⟨s', ?_, hI'⟩
    rw [run, hs₁]
    exact hs'

/-- The rule of forward simulation: what one system can do, another one that takes the same labels can
do as well, and the relation between them is kept. -/
theorem run_simulates {τ : Type*} {step' : τ → ℓ → Option τ} {P : σ → ℓ → Prop} {R : σ → τ → Prop}
    (hstep : ∀ {s l s' t}, R s t → P s l → step s l = some s' → ∃ t', step' t l = some t' ∧ R s' t')
    {ls : List ℓ} : ∀ {s s' : σ} {t : τ}, R s t → Meets step P s ls → run step s ls = some s' →
      ∃ t', run step' t ls = some t' ∧ R s' t' := by
  induction ls with
  | nil =>
    intro s s' t hR _ hrun
    cases hrun
    exact ⟨t, rfl, hR⟩
  | cons l ls ih =>
    intro s s' t hR hP hrun
    obtain ⟨s₁, hs₁, hrest⟩ := run_cons hrun
    obtain ⟨t₁, ht₁, hR₁⟩ := hstep hR hP.head hs₁
    obtain ⟨t', ht', hR'⟩ := ih hR₁ (hP.tail hs₁) hrest
    refine ⟨t', ?_, hR'⟩
    rw [run, ht₁]
    exact ht'

/-- The condition that is always true. -/
theorem meets_true (ls : List ℓ) : ∀ s : σ, Meets step (fun _ _ => True) s ls := by
  induction ls with
  | nil => exact fun _ => trivial
  | cons l ls ih =>
    intro s
    rw [Meets]
    refine ⟨trivial, ?_⟩
    split
    · exact ih _
    · trivial

/-- The first rule without a condition on the steps. -/
theorem run_invariant_of_step {I : σ → Prop} (hstep : ∀ {s l s'}, I s → step s l = some s' → I s')
    {ls : List ℓ} {s s' : σ} (hI : I s) (hrun : run step s ls = some s') : I s' :=
  run_invariant (fun hI _ hs => hstep hI hs) hI (meets_true ls s) hrun

/-- The rule for an observer without a condition on the steps. -/
theorem record_invariant_of_step {ω : Type*} {track : ω → σ → ℓ → σ → ω} {I : σ → ω → Prop}
    (hstep : ∀ {s l s' w}, I s w → step s l = some s' → I s' (track w s l s')) {ls : List ℓ}
    {s s' : σ} {w : ω} (hI : I s w) (hrun : run step s ls = some s') :
    I s' (record step track w s ls) := by
  refine record_invariant (P := fun _ _ => True) ?_ hI (meets_true ls s) hrun
  intro s l s' w hI _ hs
  exact hstep hI hs

/-- A part of the notes that takes in the labels alone is a fold over them. -/
theorem record_foldl {ω τ : Type*} {track : ω → σ → ℓ → σ → ω} (part : ω → τ) (add : τ → ℓ → τ)
    (htrack : ∀ w s l s', part (track w s l s') = add (part w) l) {ls : List ℓ} :
    ∀ {s s' : σ} {w : ω}, run step s ls = some s' →
      part (record step track w s ls) = ls.foldl add (part w) := by
  induction ls with
  | nil => exact fun _ => rfl
  | cons l ls ih =>
    intro s s' w hrun
    obtain ⟨s₁, hs₁, hrest⟩ := run_cons hrun
    rw [record, hs₁, List.foldl_cons, ← htrack w s l s₁]
    exact ih hrest

section served

variable {α : Type*} (serves : σ → σ → Option α)

variable (step) in
/-- Those who are served in a run, in order. -/
def served : σ → List ℓ → List α := record step (fun w s _ s' => w ++ (serves s s').toList) []

/-- Those who are served, followed by those who are left, are those who were in the queue first,
followed by others. -/
theorem run_served {queue : σ → List α} {P : σ → ℓ → Prop} {I : σ → Prop}
    (hI : ∀ {s l s'}, I s → P s l → step s l = some s' → I s')
    (hserves : ∀ {s l s'}, I s → P s l → step s l = some s' →
      ∃ more, (serves s s').toList ++ queue s' = queue s ++ more)
    {ls : List ℓ} {s s' : σ} (hs : I s) (hP : Meets step P s ls) (hrun : run step s ls = some s') :
    ∃ more, served step serves s ls ++ queue s' = queue s ++ more := by
  refine (record_invariant (P := P) (I := fun s' w => I s' ∧ ∃ more, w ++ queue s' = queue s ++ more)
    ?_ ⟨hs, [], (List.append_nil _).symm⟩ hP hrun).2
  rintro s₁ l s₂ w ⟨h₁, more, hw⟩ hp hstep
  obtain ⟨more', hmore⟩ := hserves h₁ hp hstep
  refine ⟨hI h₁ hp hstep, more ++ more', ?_⟩
  rw [List.append_assoc, hmore, ← List.append_assoc, hw, List.append_assoc]

end served

/-- Whoever has `k` before it in the queue is the next to be served after `k` were, and until then it
only moves up. -/
theorem place_served {α : Type*} {xs q q' more : List α} (h : xs ++ q' = q ++ more) {k : ℕ} {x : α}
    (hk : q[k]? = some x) : xs[k]? = some x ∨ xs.length ≤ k ∧ q'[k - xs.length]? = some x := by
  obtain ⟨hlt, -⟩ := List.getElem?_eq_some_iff.mp hk
  have hx : (xs ++ q')[k]? = some x := by rw [h, List.getElem?_append_left hlt, hk]
  by_cases hserved : k < xs.length
  · left
    rwa [List.getElem?_append_left hserved] at hx
  · right
    have hle := Nat.not_lt.mp hserved
    exact ⟨hle, by rwa [List.getElem?_append_right hle] at hx⟩

end Runs
