import Mathlib.Logic.Hydra
import Mathlib.Algebra.BigOperators.Group.Finset.Basic
import BeastLounge.Theory.Runs

/-!
# Systems that come to rest

Some labels of a system are its own, the others are input. Left alone it comes to rest if it cannot
take steps of its own for ever, and it is at rest when it can take none.

A system of threads comes to rest by a count of what is left to do: a multiset of tasks, of which each step
replaces one by finitely many that come before it in a well-founded order. So threads may start
others, as long as what they start is of a lower kind.
-/

namespace BeastLounge.Theory

variable {S L : Type*} {step : S → L → Option S} {own : L → Prop}

/-- No run from `s` takes steps of its own for ever. -/
def ComesToRest (step : S → L → Option S) (own : L → Prop) (s : S) : Prop :=
  Acc (fun t s => ∃ l, own l ∧ step s l = some t) s

/-- No step of its own is possible. -/
def AtRest (step : S → L → Option S) (own : L → Prop) (s : S) : Prop := ∀ l, own l → step s l = none

section rest
variable {init : S → Prop} {tr : List (S × L)} {s t : S} {l : L}

theorem ComesToRest.after (h : ComesToRest step own s) (hl : own l) (hs : step s l = some t) :
    ComesToRest step own t :=
  h.inv ⟨l, hl, hs⟩

theorem ComesToRest.not_endless (h : ComesToRest step own s) :
    ¬∃ σ ls, σ 0 = s ∧ Endless step σ ls ∧ ∀ i, own (ls i) := by
  induction h with
  | intro s _ ih =>
    rintro ⟨σ, ls, rfl, hrun, hown⟩
    apply ih _ ⟨ls 0, hown 0, hrun 0⟩
    exact ⟨fun i => σ (i + 1), fun i => ls (i + 1), rfl, fun i => hrun (i + 1), fun i => hown (i + 1)⟩

/-- A run can then be continued by steps of its own until the system is at rest. -/
theorem ComesToRest.exists_rest (h : ComesToRest step own s) (hrun : Run step init tr s) :
    ∃ tr' t, Run step init (tr ++ tr') t ∧ AllSteps (fun _ l => own l) tr' ∧ AtRest step own t := by
  induction h generalizing tr with
  | intro s _ ih =>
    by_cases hrest : AtRest step own s
    · exact ⟨[], s, by rwa [List.append_nil], allSteps_nil, hrest⟩
    · simp only [AtRest, not_forall] at hrest
      obtain ⟨l, hl, hne⟩ := hrest
      obtain ⟨t, ht⟩ := Option.ne_none_iff_exists'.mp hne
      obtain ⟨tr', t', hrun', hown, hrest⟩ := ih t ⟨l, hl, ht⟩ (hrun.snoc ht)
      refine ⟨(s, l) :: tr', t', by rwa [List.append_assoc] at hrun', ?_, hrest⟩
      intro x hx
      rcases List.mem_cons.mp hx with rfl | hx
      · exact hl
      · exact hown x hx

/-- A system that contains another one which comes to rest: each of its own steps is one of the
part's own, or leaves the part as it is and makes a count smaller. The count may be another for each
state of the part. -/
theorem ComesToRest.of_part {S' L' : Type*} {step' : S' → L' → Option S'} {own' : L' → Prop}
    (part : S → S') (inv : S → Prop) (hstep : ∀ s l t, inv s → own l → step s l = some t → inv t)
    (hcount : ∀ s, inv s → ∃ count : S → Nat, ∀ s' l t, inv s' → part s' = part s → own l →
      step s' l = some t → (∃ l', own' l' ∧ step' (part s') l' = some (part t)) ∨
        part t = part s' ∧ count t < count s')
    {p : S'} (hrest : ComesToRest step' own' p) (hs : inv s) (hp : part s = p) :
    ComesToRest step own s := by
  induction hrest generalizing s with
  | intro p _ ih =>
    obtain ⟨count, hcount⟩ := hcount s hs
    have hall : ∀ n s', count s' = n → inv s' → part s' = part s → ComesToRest step own s' := by
      intro n
      induction n using Nat.strong_induction_on with
      | _ n ihn =>
        intro s' hn hs' hp'
        constructor
        rintro t ⟨l, hl, ht⟩
        have hinv := hstep _ _ _ hs' hl ht
        rcases hcount s' l t hs' hp' hl ht with ⟨l', hl', ht'⟩ | ⟨hpart, hless⟩
        · exact ih (part t) ⟨l', hl', by rw [← hp, ← hp', ht']⟩ hinv rfl
        · exact ihn (count t) (hn ▸ hless) t rfl hinv (hpart.trans hp')
    exact hall _ s rfl hs rfl

end rest

/-! ### Tasks -/

section tasks
variable {T U : Type*} {less : T → T → Prop}

open Relation (CutExpand)

/-- A system comes to rest if each step of its own replaces a task by smaller ones. -/
theorem rest_of_tasks (inv : S → Prop) (tasks : S → Multiset T) (hwf : WellFounded less)
    (hstep : ∀ s l t, inv s → own l → step s l = some t →
      inv t ∧ CutExpand less (tasks t) (tasks s)) {s : S} (hs : inv s) : ComesToRest step own s := by
  have hacc : Acc (InvImage (CutExpand less) tasks) s :=
    InvImage.accessible tasks (hwf.cutExpand.apply (tasks s))
  induction hacc with
  | intro s _ ih =>
    constructor
    rintro t ⟨l, hl, ht⟩
    obtain ⟨hinv, hcut⟩ := hstep s l t hs hl ht
    exact ih t hcut hinv

/-- What one thread does to its own tasks, with `more` that it starts, it does to those of all. -/
theorem cutExpand_sum [DecidableEq U] {A : Finset U} {f g : U → Multiset T} {u : U}
    (more : Multiset T) (hu : u ∈ A) (hne : ∀ v, v ≠ u → g v = f v)
    (hcut : CutExpand less (g u + more) (f u)) :
    CutExpand less (A.sum g + more) (A.sum f) := by
  have hrest : (A.erase u).sum g = (A.erase u).sum f :=
    Finset.sum_congr rfl fun v hv => hne v (Finset.ne_of_mem_erase hv)
  rw [← Finset.sum_erase_add A g hu, ← Finset.sum_erase_add A f hu, hrest, add_assoc]
  exact (Relation.cutExpand_add_left _).mpr hcut

end tasks

end BeastLounge.Theory
