import Mathlib.Data.List.Basic

/-!
# Runs of a labelled transition system

A system is an initial condition and a partial step function. `Run step init tr s` says that the
system can reach `s` from an initial state; the trace `tr` lists, for each step taken, the state
before the step and its label, so that a condition on the steps of a run and a property of the
states it passes through are both statements about `tr`.
-/

namespace BeastLounge.Theory

variable {S L : Type*}

/-- The runs of `step` from the states satisfying `init`. -/
inductive Run (step : S → L → Option S) (init : S → Prop) : List (S × L) → S → Prop
  | nil {s : S} (h : init s) : Run step init [] s
  | snoc {tr : List (S × L)} {s t : S} {l : L} (h : Run step init tr s) (hstep : step s l = some t) :
      Run step init (tr ++ [(s, l)]) t

/-- Every step of the trace meets `P`. -/
def AllSteps (P : S → L → Prop) (tr : List (S × L)) : Prop :=
  ∀ x ∈ tr, P x.1 x.2

instance (P : S → L → Prop) [∀ s l, Decidable (P s l)] (tr : List (S × L)) :
    Decidable (AllSteps P tr) :=
  inferInstanceAs (Decidable (∀ x ∈ tr, P x.1 x.2))

/-- Every state of a run with trace `tr` that ends in `s` satisfies `Q`. -/
def AllStates (Q : S → Prop) (tr : List (S × L)) (s : S) : Prop :=
  (∀ x ∈ tr, Q x.1) ∧ Q s

/-- A step of the trace met `P`, and none after it has met `Q`. -/
def Since (P Q : S → L → Prop) (tr : List (S × L)) : Prop :=
  ∃ tr₁ s l tr₂, tr = tr₁ ++ (s, l) :: tr₂ ∧ P s l ∧ AllSteps (fun s l => ¬Q s l) tr₂

/-- The states some run reaches. -/
def Reachable (step : S → L → Option S) (init : S → Prop) (s : S) : Prop :=
  ∃ tr, Run step init tr s

section steps
variable {P : S → L → Prop} {Q : S → Prop} {tr : List (S × L)} {s t : S} {l : L}

@[simp] theorem allSteps_nil : AllSteps P [] := by simp [AllSteps]

@[simp] theorem allSteps_snoc : AllSteps P (tr ++ [(s, l)]) ↔ AllSteps P tr ∧ P s l := by
  simp only [AllSteps, List.forall_mem_append, List.forall_mem_singleton]

@[simp] theorem allStates_nil : AllStates Q ([] : List (S × L)) s ↔ Q s := by simp [AllStates]

theorem allStates_snoc : AllStates Q (tr ++ [(s, l)]) t ↔ AllStates Q tr s ∧ Q t := by
  simp only [AllStates, List.forall_mem_append, List.forall_mem_singleton]

theorem AllSteps.mono {P' : S → L → Prop} (h : AllSteps P tr) (hP : ∀ s l, P s l → P' s l) :
    AllSteps P' tr :=
  fun x hx => hP _ _ (h x hx)

theorem not_since_nil {Q : S → L → Prop} : ¬Since P Q [] := by
  rintro ⟨tr₁, s, l, tr₂, htr, -⟩
  simp at htr

theorem since_snoc {Q : S → L → Prop} :
    Since P Q (tr ++ [(s, l)]) ↔ P s l ∨ Since P Q tr ∧ ¬Q s l := by
  constructor
  · rintro ⟨tr₁, s', l', tr₂, htr, hp, hq⟩
    rcases List.eq_nil_or_concat tr₂ with rfl | ⟨tr₂, x, rfl⟩
    · obtain ⟨-, hlast⟩ := List.append_inj' htr rfl
      cases hlast
      exact .inl hp
    · rw [List.concat_eq_append, ← List.cons_append, ← List.append_assoc] at htr
      obtain ⟨rfl, hlast⟩ := List.append_inj' htr rfl
      cases hlast
      rw [List.concat_eq_append] at hq
      obtain ⟨hq, hlast⟩ := allSteps_snoc.mp hq
      exact .inr ⟨⟨tr₁, s', l', tr₂, rfl, hp, hq⟩, hlast⟩
  · rintro (hp | ⟨⟨tr₁, s', l', tr₂, rfl, hp, hq⟩, hlast⟩)
    · exact ⟨tr, s, l, [], rfl, hp, allSteps_nil⟩
    · refine ⟨tr₁, s', l', tr₂ ++ [(s, l)], ?_, hp, allSteps_snoc.mpr ⟨hq, hlast⟩⟩
      rw [List.append_assoc, List.cons_append]

theorem AllStates.mono {Q' : S → Prop} (h : AllStates Q tr s) (hQ : ∀ s, Q s → Q' s) :
    AllStates Q' tr s :=
  ⟨fun x hx => hQ _ (h.1 x hx), hQ _ h.2⟩

end steps

section induction
variable {step : S → L → Option S} {init : S → Prop} {P : S → L → Prop} {I : S → Prop}
  {tr : List (S × L)} {s : S}

/-- An invariant that every step meeting `P` preserves holds in every state of a run whose steps
all meet `P`. -/
theorem Run.invariant (hinit : ∀ s, init s → I s)
    (hstep : ∀ s l t, I s → P s l → step s l = some t → I t)
    (h : Run step init tr s) (hP : AllSteps P tr) : AllStates I tr s := by
  induction h with
  | nil h0 => exact allStates_nil.mpr (hinit _ h0)
  | snoc hrun hs ih =>
    obtain ⟨hP, hl⟩ := allSteps_snoc.mp hP
    have hall := ih hP
    exact allStates_snoc.mpr ⟨hall, hstep _ _ _ hall.2 hl hs⟩

/-- The unconditional form: a preserved invariant holds in every reachable state. -/
theorem Reachable.invariant (hinit : ∀ s, init s → I s)
    (hstep : ∀ s l t, I s → step s l = some t → I t) (h : Reachable step init s) : I s := by
  obtain ⟨tr, hrun⟩ := h
  exact (hrun.invariant (P := fun _ _ => True) hinit (fun s l t hs _ => hstep s l t hs)
    (fun _ _ => trivial)).2

theorem Reachable.of_init (h : init s) : Reachable step init s := ⟨[], .nil h⟩

theorem Reachable.after_step {t : S} {l : L} (h : Reachable step init s) (hs : step s l = some t) :
    Reachable step init t := by
  obtain ⟨tr, hrun⟩ := h
  exact ⟨_, hrun.snoc hs⟩

/-- Every state a run passes through is reachable. -/
theorem Run.reachable (h : Run step init tr s) : AllStates (Reachable step init) tr s := by
  induction h with
  | nil h0 => exact allStates_nil.mpr (.of_init h0)
  | snoc hrun hs ih => exact allStates_snoc.mpr ⟨ih, ih.2.after_step hs⟩

/-- A run from the states in `init` is one from any larger set of them. -/
theorem Run.weaken {init' : S → Prop} (h : Run step init tr s) (hinit : ∀ s, init s → init' s) :
    Run step init' tr s := by
  induction h with
  | nil h0 => exact .nil (hinit _ h0)
  | snoc hrun hs ih => exact ih.snoc hs

/-- A run goes through the state at which its trace is cut. -/
theorem Run.split {tr₁ tr₂ : List (S × L)} (h : Run step init tr s) (heq : tr = tr₁ ++ tr₂) :
    ∃ m, Run step init tr₁ m ∧ Run step (· = m) tr₂ s := by
  induction h generalizing tr₂ with
  | @nil s h0 =>
    obtain ⟨rfl, rfl⟩ := List.append_eq_nil_iff.mp heq.symm
    exact ⟨s, .nil h0, .nil rfl⟩
  | @snoc tr s t l hrun hs ih =>
    rcases List.eq_nil_or_concat tr₂ with rfl | ⟨tr₂, x, rfl⟩
    · rw [List.append_nil] at heq
      exact ⟨t, heq ▸ hrun.snoc hs, .nil rfl⟩
    · rw [List.concat_eq_append, ← List.append_assoc] at heq
      obtain ⟨rfl, hx⟩ := List.append_inj' heq rfl
      obtain rfl := List.singleton_inj.mp hx
      obtain ⟨m, hfirst, hrest⟩ := ih rfl
      exact ⟨m, hfirst, List.concat_eq_append ▸ hrest.snoc hs⟩

/-- The states of a run begin with an initial one. -/
theorem Run.states_eq (h : Run step init tr s) :
    ∃ s₀ rest, tr.map Prod.fst ++ [s] = s₀ :: rest ∧ init s₀ := by
  induction h with
  | @nil s h0 => exact ⟨s, [], rfl, h0⟩
  | @snoc tr s t l hrun hs ih =>
    obtain ⟨s₀, rest, heq, h0⟩ := ih
    exact ⟨s₀, rest ++ [t], by rw [List.map_append, List.map_singleton, heq]; rfl, h0⟩

/-- What comes before a step of a run is a run to the state before the step. -/
theorem Run.before {tr₁ tr₂ : List (S × L)} {s' : S} {l : L}
    (h : Run step init (tr₁ ++ (s', l) :: tr₂) s) : Run step init tr₁ s' := by
  obtain ⟨m, hfirst, hrest⟩ := h.split rfl
  obtain ⟨s₀, rest, heq, h0⟩ := hrest.states_eq
  obtain ⟨hs, -⟩ := List.cons.inj heq
  obtain rfl : s' = m := hs.trans h0
  exact hfirst

/-- A system that contains another one: `f` is the state of the part, and `g` the step it takes in a
step of the whole. The runs of the whole are then runs of the part. -/
theorem Run.project {S' L' : Type*} {step' : S' → L' → Option S'} {init' : S' → Prop} (f : S → S')
    (g : L → Option L') (hinit : ∀ s, init s → init' (f s))
    (hsome : ∀ s l l' t, step s l = some t → g l = some l' → step' (f s) l' = some (f t))
    (hnone : ∀ s l t, step s l = some t → g l = none → f t = f s) (h : Run step init tr s) :
    Run step' init' (tr.filterMap fun x => (g x.2).map (f x.1, ·)) (f s) := by
  induction h with
  | nil h0 => exact .nil (hinit _ h0)
  | @snoc tr s t l hrun hs ih =>
    rw [List.filterMap_append]
    cases hl : g l with
    | none =>
      rw [hnone _ _ _ hs hl, List.filterMap_cons_none (by rw [hl]; rfl), List.filterMap_nil,
        List.append_nil]
      exact ih
    | some l' =>
      rw [List.filterMap_cons_some (by rw [hl]; rfl), List.filterMap_nil]
      exact ih.snoc (hsome _ _ _ _ hs hl)

/-- Every step of a run is one the system can take. -/
theorem Run.enabled (h : Run step init tr s) :
    AllSteps (fun s l => ∃ t, step s l = some t) tr := by
  induction h with
  | nil h0 => exact allSteps_nil
  | snoc hrun hs ih => exact allSteps_snoc.mpr ⟨ih, _, hs⟩

/-- What follows from a property holding before and after a step holds of the steps of a run that
has the property everywhere. -/
theorem Run.allSteps_of_allStates {Q : S → Prop} (h : Run step init tr s) (hQ : AllStates Q tr s)
    (hP : ∀ s l t, Q s → step s l = some t → Q t → P s l) : AllSteps P tr := by
  induction h with
  | nil h0 => exact allSteps_nil
  | snoc hrun hs ih =>
    obtain ⟨hall, hlast⟩ := allStates_snoc.mp hQ
    exact allSteps_snoc.mpr ⟨ih hall, hP _ _ _ hall.2 hs hlast⟩

end induction

/-! ### Endless runs -/

section endless
variable {step : S → L → Option S} {σ : Nat → S} {ls : Nat → L} {l : L} {P : S → Prop}

/-- `σ` lists the states and `ls` the labels of a run that does not end. -/
def Endless (step : S → L → Option S) (σ : Nat → S) (ls : Nat → L) : Prop :=
  ∀ i, step (σ i) (ls i) = some (σ (i + 1))

theorem Endless.reachable {init : S → Prop} (h : Endless step σ ls)
    (h0 : Reachable step init (σ 0)) (i : Nat) : Reachable step init (σ i) := by
  induction i with
  | zero => exact h0
  | succ i ih => exact ih.after_step (h i)

/-- While only steps labelled `l` can end `P`, it still holds when `l` is next taken. -/
theorem Endless.holds_until (h : Endless step σ ls)
    (hP : ∀ s l' t, P s → l' ≠ l → step s l' = some t → P t) {i j : Nat} (hi : P (σ i)) (hij : i ≤ j)
    (hj : ls j = l) : ∃ k, i ≤ k ∧ ls k = l ∧ P (σ k) := by
  obtain ⟨d, rfl⟩ := Nat.exists_eq_add_of_le hij
  induction d generalizing i with
  | zero => exact ⟨i, Nat.le_refl i, hj, hi⟩
  | succ d ih =>
    by_cases hl : ls i = l
    · exact ⟨i, Nat.le_refl i, hl, hi⟩
    · have hj' : ls (i + 1 + d) = l := by rw [Nat.add_assoc, Nat.add_comm 1 d]; exact hj
      obtain ⟨k, hik, hk⟩ := ih (hP _ _ _ hi hl (h i)) (by omega) hj'
      exact ⟨k, by omega, hk⟩

end endless

/-! ### Executing a list of labels -/

/-- Take the steps with the given labels, recording the trace. -/
def execute (step : S → L → Option S) : List L → List (S × L) → S → Option (List (S × L) × S)
  | [], tr, s => some (tr, s)
  | l :: ls, tr, s =>
    match step s l with
    | none => none
    | some t => execute step ls (tr ++ [(s, l)]) t

theorem Run.execute {step : S → L → Option S} {init : S → Prop} (ls : List L)
    {tr tr' : List (S × L)} {s t : S} (h : Run step init tr s)
    (he : Theory.execute step ls tr s = some (tr', t)) : Run step init tr' t := by
  induction ls generalizing tr s with
  | nil =>
    simp only [Theory.execute, Option.some.injEq, Prod.mk.injEq] at he
    obtain ⟨rfl, rfl⟩ := he
    exact h
  | cons l ls ih =>
    simp only [Theory.execute] at he
    split at he
    · contradiction
    · rename_i u hu
      exact ih (h.snoc hu) he

/-- Execution stays among the reachable states, whatever trace it began with. -/
theorem Reachable.execute {step : S → L → Option S} {init : S → Prop} (ls : List L)
    {tr tr' : List (S × L)} {s t : S} (h : Reachable step init s)
    (he : Theory.execute step ls tr s = some (tr', t)) : Reachable step init t := by
  induction ls generalizing tr s with
  | nil =>
    simp only [Theory.execute, Option.some.injEq, Prod.mk.injEq] at he
    exact he.2 ▸ h
  | cons l ls ih =>
    simp only [Theory.execute] at he
    split at he
    · contradiction
    · rename_i u hu
      exact ih (h.after_step hu) he

/-- The trace has the labels that were executed. -/
theorem labels_execute {step : S → L → Option S} (ls : List L) {tr tr' : List (S × L)} {s t : S}
    (he : Theory.execute step ls tr s = some (tr', t)) :
    tr'.map Prod.snd = tr.map Prod.snd ++ ls := by
  induction ls generalizing tr s with
  | nil =>
    simp only [Theory.execute, Option.some.injEq, Prod.mk.injEq] at he
    obtain ⟨rfl, rfl⟩ := he
    exact (List.append_nil _).symm
  | cons l ls ih =>
    simp only [Theory.execute] at he
    split at he
    · contradiction
    · rw [ih he, List.map_append, List.append_assoc]
      rfl

/-- A list of labels that can be executed from an initial state gives a run. -/
theorem Run.ofIsSome {step : S → L → Option S} (init : S → Prop) {ls : List L} {s : S}
    (h0 : init s) (h : (Theory.execute step ls [] s).isSome) :
    Run step init ((Theory.execute step ls [] s).get h).1 ((Theory.execute step ls [] s).get h).2 :=
  Run.execute ls (.nil h0) (Option.some_get h).symm

end BeastLounge.Theory
