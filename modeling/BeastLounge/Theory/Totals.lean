import Mathlib.Algebra.BigOperators.Group.List.Basic
import Mathlib.Data.List.Forall2
import Mathlib.Order.Bounds.Defs
import Mathlib.Tactic.Linarith
import Mathlib.Tactic.Ring

/-!
# Totals of items that can have several values

A `Total` of a list of items adds up one value of each of them, chosen among those it can have.
Where an item is either worth a fixed value or, being soft, a fixed value or `step` more, the totals
are the least one and up to as many steps above it as there are soft items. To find the largest total
within a limit it is then enough to begin with the largest of all and to take steps off while the
limit is exceeded (`reduce`).
-/

namespace BeastLounge.Theory

variable {α : Type}

/-- `t` is the sum of one value of each item. -/
def Total (values : α → List Int) (items : List α) (t : Int) : Prop :=
  ∃ xs : List Int, List.Forall₂ (fun c x => x ∈ values c) items xs ∧ xs.sum = t

section total
variable {values : α → List Int} {c : α} {items items' : List α} {t : Int}

@[simp] theorem total_nil : Total values [] t ↔ t = 0 := by
  constructor
  · rintro ⟨xs, hxs, rfl⟩
    cases hxs
    rfl
  · rintro rfl
    exact ⟨[], .nil, rfl⟩

theorem total_cons : Total values (c :: items) t ↔ ∃ x ∈ values c, Total values items (t - x) := by
  constructor
  · rintro ⟨xs, hxs, rfl⟩
    obtain ⟨x, ys, hx, hys, rfl⟩ := List.forall₂_cons_left_iff.mp hxs
    refine ⟨x, hx, ys, hys, ?_⟩
    rw [List.sum_cons]
    omega
  · rintro ⟨x, hx, ys, hys, hsum⟩
    refine ⟨x :: ys, .cons hx hys, ?_⟩
    rw [List.sum_cons]
    omega

/-- The order of the items does not matter. -/
theorem total_perm (h : items.Perm items') : Total values items t ↔ Total values items' t := by
  induction h generalizing t with
  | nil => rfl
  | cons c h ih =>
    rw [total_cons, total_cons]
    exact exists_congr fun x => and_congr_right fun _ => ih
  | swap c d items =>
    simp only [total_cons]
    constructor
    · rintro ⟨x, hx, y, hy, h⟩
      exact ⟨y, hy, x, hx, by rwa [sub_right_comm]⟩
    · rintro ⟨x, hx, y, hy, h⟩
      exact ⟨y, hy, x, hx, by rwa [sub_right_comm]⟩
  | trans h h' ih ih' => exact ih.trans ih'

end total

/-! ### Soft items -/

/-- The values of items of which the soft ones may count `step` more. -/
def softValues (low : α → Int) (soft : α → Bool) (step : Int) (c : α) : List Int :=
  if soft c then [low c, low c + step] else [low c]

/-- Take steps off a total while it exceeds the limit, at most `a` of them. -/
def reduce (limit step : Int) : Nat → Int → Int
  | 0, total => total
  | a + 1, total => if total > limit then reduce limit step a (total - step) else total

section soft
variable {low : α → Int} {soft : α → Bool} {step limit base x : Int} {items : List α}

theorem total_softValues {t : Int} :
    Total (softValues low soft step) items t ↔
      ∃ k : Nat, k ≤ items.countP soft ∧ t = (items.map low).sum + step * k := by
  induction items generalizing t with
  | nil => simp
  | cons c items ih =>
    rw [total_cons, List.map_cons, List.sum_cons, List.countP_cons]
    by_cases hc : soft c
    · have hvalues : softValues low soft step c = [low c, low c + step] := if_pos hc
      simp only [hvalues, hc, if_true, List.mem_cons, List.not_mem_nil, or_false, exists_eq_or_imp,
        exists_eq_left]
      constructor
      · rintro (h | h)
        · obtain ⟨k, hk, ht⟩ := ih.mp h
          exact ⟨k, by omega, by omega⟩
        · obtain ⟨k, hk, ht⟩ := ih.mp h
          refine ⟨k + 1, by omega, ?_⟩
          push_cast
          linarith
      · rintro ⟨k, hk, rfl⟩
        cases k with
        | zero => exact .inl (ih.mpr ⟨0, by omega, by push_cast; ring⟩)
        | succ k => exact .inr (ih.mpr ⟨k, by omega, by push_cast; ring⟩)
    · have hvalues : softValues low soft step c = [low c] := if_neg hc
      simp only [hvalues, hc, Bool.false_eq_true, if_false, List.mem_singleton, exists_eq_left,
        Nat.add_zero]
      rw [ih]
      exact exists_congr fun k => and_congr_right fun _ => by omega

/-- What `reduce` makes of the largest total of `base` and `a` steps: it leaves as many as the limit
allows. -/
theorem reduce_spec (limit base step : Int) (a : Nat) :
    ∃ k : Nat, k ≤ a ∧ reduce limit step a (base + step * a) = base + step * k ∧
      (k = 0 ∨ base + step * k ≤ limit) ∧ ∀ j : Nat, k < j → j ≤ a → limit < base + step * j := by
  induction a with
  | zero => exact ⟨0, Nat.le_refl 0, rfl, .inl rfl, fun j hj hle => by omega⟩
  | succ a ih =>
    unfold reduce
    by_cases h : base + step * ((a + 1 : Nat) : Int) > limit
    · rw [if_pos h, show base + step * ((a + 1 : Nat) : Int) - step = base + step * a by
        push_cast; ring]
      obtain ⟨k, hk, heq, hlimit, habove⟩ := ih
      refine ⟨k, by omega, heq, hlimit, fun j hj hle => ?_⟩
      by_cases hlast : j = a + 1
      · subst hlast
        exact h
      · exact habove j hj (by omega)
    · rw [if_neg h]
      exact ⟨a + 1, Nat.le_refl _, rfl, .inr (Int.not_lt.mp h), fun j hj hle => by omega⟩

variable (hstep : 0 < step)

include hstep

/-- The reduced total exceeds the limit exactly when all totals do, the least among them. -/
theorem limit_lt_reduce {a : Nat} : limit < reduce limit step a (base + step * a) ↔ limit < base := by
  obtain ⟨k, hk, heq, hlimit, habove⟩ := reduce_spec limit base step a
  rw [heq]
  constructor
  · intro h
    obtain rfl : k = 0 := hlimit.resolve_right (by omega)
    simpa using h
  · intro h
    have : 0 ≤ step * (k : Int) := Int.mul_nonneg (Int.le_of_lt hstep) (Int.natCast_nonneg k)
    omega

/-- Otherwise it is the largest total within the limit. -/
theorem isGreatest_reduce :
    IsGreatest {t | Total (softValues low soft step) items t ∧ t ≤ limit} x ↔
      reduce limit step (items.countP soft) ((items.map low).sum + step * items.countP soft) = x ∧
        x ≤ limit := by
  obtain ⟨k, hk, heq, hlimit, habove⟩ :=
    reduce_spec limit (items.map low).sum step (items.countP soft)
  rw [heq]
  -- no total within the limit is larger than the reduced one
  have hgreatest : ∀ t, Total (softValues low soft step) items t → t ≤ limit →
      t ≤ (items.map low).sum + step * k := by
    intro t ht hle
    obtain ⟨j, hj, rfl⟩ := total_softValues.mp ht
    have hjk : j ≤ k := by
      by_contra hlt
      have := habove j (by omega) hj
      omega
    have : step * (j : Int) ≤ step * (k : Int) :=
      Int.mul_le_mul_of_nonneg_left (by omega) (Int.le_of_lt hstep)
    omega
  constructor
  · rintro ⟨⟨htotal, hle⟩, hupper⟩
    refine ⟨Int.le_antisymm ?_ (hgreatest x htotal hle), hle⟩
    rcases hlimit with rfl | hlimit
    · obtain ⟨j, hj, rfl⟩ := total_softValues.mp htotal
      have : 0 ≤ step * (j : Int) := Int.mul_nonneg (Int.le_of_lt hstep) (Int.natCast_nonneg j)
      push_cast
      omega
    · exact hupper ⟨total_softValues.mpr ⟨k, hk, rfl⟩, hlimit⟩
  · rintro ⟨rfl, hle⟩
    exact ⟨⟨total_softValues.mpr ⟨k, hk, rfl⟩, hle⟩, fun t ht => hgreatest t ht.1 ht.2⟩

end soft

end BeastLounge.Theory
