import Mathlib.Algebra.BigOperators.Field
import Mathlib.Data.Fintype.BigOperators
import Mathlib.Data.Fintype.Perm
import Mathlib.Data.List.NodupEquivFin
import Mathlib.Data.Nat.Factorial.BigOperators
import Mathlib.Data.Rat.Defs
import Mathlib.Tactic.FieldSimp
import BeastLounge.Theory.Containers

/-!
# Shuffling in place

The loop that exchanges each element but the last with one chosen among itself and those behind it.
Run on the positions `0, 1, ..., n - 1` it makes a permutation of them (`arrangement`), and on any
vector it moves the elements accordingly (`shuffleBy_eq_ofFn`).

Step `i` settles what stands at position `i`: no later step touches it. So on distinct elements the
choice at step `i` can be read off the result, then the vector after this step, and so on; there are
as many sequences of choices as permutations, so every permutation comes from exactly one
(`arrangement_bijective`).
-/

namespace BeastLounge.Theory

open Finset

variable {α β : Type}

/-- Step `i`: the element at `i` is exchanged with the one `r i` places behind it. -/
def exchange (r : Nat → Nat) (v : List α) (i : Nat) : List α := swap v i (i + r i)

/-- The loop over all positions but the last. -/
def shuffleBy (r : Nat → Nat) (v : List α) : List α :=
  (List.range (v.length - 1)).foldl (exchange r) v

/-- What the loop may choose: at step `i` one of the `n - i` positions from `i` on. -/
abbrev Choices (n : Nat) : Type := (i : Fin (n - 1)) → Fin (n - i)

/-- The offsets of the loop that makes these choices. -/
def Choices.offset {n : Nat} (r : Choices n) (i : Nat) : Nat :=
  if h : i < n - 1 then r ⟨i, h⟩ else 0

/-! ### Swaps -/

theorem map_swap (f : α → β) (v : List α) (i j : Nat) : (swap v i j).map f = swap (v.map f) i j := by
  unfold swap
  rw [List.getElem?_map, List.getElem?_map]
  cases v[i]? with
  | none => rfl
  | some a =>
    cases v[j]? with
    | none => rfl
    | some b =>
      show ((v.set i b).set j a).map f = ((v.map f).set i (f b)).set j (f a)
      rw [List.map_set, List.map_set]

theorem getElem?_swap_of_ne (v : List α) {i j k : Nat} (hi : k ≠ i) (hj : k ≠ j) :
    (swap v i j)[k]? = v[k]? := by
  unfold swap
  split
  · rw [List.getElem?_set_ne (Ne.symm hj), List.getElem?_set_ne (Ne.symm hi)]
  · rfl

theorem getElem?_swap_left {v : List α} {i j : Nat} (hi : i < v.length) (hj : j < v.length) :
    (swap v i j)[i]? = v[j]? := by
  unfold swap
  rw [List.getElem?_eq_getElem hi, List.getElem?_eq_getElem hj]
  show ((v.set i v[j]).set j v[i])[i]? = some v[j]
  by_cases hij : j = i
  · subst hij
    rw [List.getElem?_set_self (by rwa [List.length_set])]
  · rw [List.getElem?_set_ne hij, List.getElem?_set_self hi]

/-! ### The loop -/

section loop
variable {r r' : Nat → Nat}

theorem shuffleBy_perm (v : List α) : (shuffleBy r v).Perm v :=
  foldl_perm (fun v i => swap_perm v i (i + r i)) _ v

@[simp] theorem length_shuffleBy (v : List α) : (shuffleBy r v).length = v.length :=
  (shuffleBy_perm v).length_eq

theorem foldl_exchange_map (f : α → β) (is : List Nat) (v : List α) :
    (is.foldl (exchange r) v).map f = is.foldl (exchange r) (v.map f) := by
  induction is generalizing v with
  | nil => rfl
  | cons i is ih => rw [List.foldl_cons, List.foldl_cons, ih, exchange, map_swap]; rfl

/-- The loop moves elements without looking at them. -/
theorem shuffleBy_map (f : α → β) (v : List α) : (shuffleBy r v).map f = shuffleBy r (v.map f) := by
  unfold shuffleBy
  rw [foldl_exchange_map, List.length_map]

/-- The steps from `i` on leave what is before `i` alone. -/
theorem foldl_exchange_before {i p : Nat} (hp : p < i) (k : Nat) (v : List α) :
    ((List.range' i k).foldl (exchange r) v)[p]? = v[p]? := by
  induction k generalizing i v with
  | zero => rfl
  | succ k ih =>
    rw [List.range'_succ, List.foldl_cons, ih (by omega)]
    exact getElem?_swap_of_ne v (by omega) (by omega)

/-- On distinct elements the choices can be read off the result, first to last. -/
theorem choices_eq_of_foldl_eq {i k : Nat} {v : List α} (hv : v.Nodup)
    (hr : ∀ j, i ≤ j → j < i + k → j + r j < v.length)
    (hr' : ∀ j, i ≤ j → j < i + k → j + r' j < v.length)
    (heq : (List.range' i k).foldl (exchange r) v = (List.range' i k).foldl (exchange r') v) :
    ∀ j, i ≤ j → j < i + k → r j = r' j := by
  induction k generalizing i v with
  | zero => intro j hj hlt; omega
  | succ k ih =>
    have hi := hr i (Nat.le_refl i) (by omega)
    have hi' := hr' i (Nat.le_refl i) (by omega)
    rw [List.range'_succ, List.foldl_cons, List.foldl_cons] at heq
    -- what stands at `i` in the end came there in step `i`
    have hat : v[i + r i]? = v[i + r' i]? := by
      have h := congrArg (fun u : List α => u[i]?) heq
      simp only [foldl_exchange_before (Nat.lt_succ_self i)] at h
      rwa [exchange, exchange, getElem?_swap_left (by omega) hi,
        getElem?_swap_left (by omega) hi'] at h
    have hsame : r i = r' i := by
      have := (List.getElem?_inj hi hv).mp hat
      omega
    have hnext : exchange r v i = exchange r' v i := by rw [exchange, exchange, hsame]
    rw [← hnext] at heq
    have hperm : (exchange r v i).Perm v := swap_perm ..
    have hrest := ih (hperm.nodup_iff.mpr hv)
      (fun j hj hlt => by rw [hperm.length_eq]; exact hr j (by omega) (by omega))
      (fun j hj hlt => by rw [hperm.length_eq]; exact hr' j (by omega) (by omega)) heq
    intro j hj hlt
    by_cases hji : j = i
    · subst hji
      exact hsame
    · exact hrest j (by omega) (by omega)

end loop

/-! ### Permutations of the positions -/

section positions
variable {n : Nat}

theorem Choices.offset_lt (r : Choices n) {i : Nat} (hi : i < n - 1) : i + r.offset i < n := by
  have hlt : (r ⟨i, hi⟩ : Nat) < n - i := (r ⟨i, hi⟩).isLt
  simp only [Choices.offset, hi, dite_true]
  omega

/-- The positions, each where the loop has moved it. -/
def positions (r : Choices n) : List (Fin n) := shuffleBy r.offset (List.finRange n)

@[simp] theorem length_positions (r : Choices n) : (positions r).length = n := by simp [positions]

theorem nodup_positions (r : Choices n) : (positions r).Nodup :=
  (shuffleBy_perm _).nodup_iff.mpr (List.nodup_finRange n)

theorem mem_positions (r : Choices n) (k : Fin n) : k ∈ positions r :=
  (shuffleBy_perm _).mem_iff.mpr (List.mem_finRange k)

/-- The permutation of the positions that a sequence of choices makes: after the loop, the element at
`k` is the one that was at `arrangement r k`. -/
def arrangement (r : Choices n) : Equiv.Perm (Fin n) :=
  (finCongr (length_positions r).symm).trans
    (List.Nodup.getEquivOfForallMemList (positions r) (nodup_positions r) (mem_positions r))

theorem ofFn_arrangement (r : Choices n) : List.ofFn (arrangement r) = positions r := by
  apply List.ext_getElem
  · simp
  · intro k hk hk'
    rw [List.getElem_ofFn]
    rfl

/-- What the loop does to a vector of `n` elements. -/
theorem shuffleBy_eq_ofFn (r : Choices n) {v : List α} (hv : v.length = n) :
    shuffleBy r.offset v = List.ofFn fun k => v[arrangement r k] := by
  subst hv
  have hfin : (List.finRange v.length).map (fun k => v[k]) = v := by
    apply List.ext_getElem
    · simp
    · intro k hk hk'
      simp
  calc shuffleBy r.offset v
      = (positions r).map fun k => v[k] := by rw [positions, shuffleBy_map, hfin]
    _ = List.ofFn fun k => v[arrangement r k] := by rw [← ofFn_arrangement, List.map_ofFn]; rfl

theorem arrangement_injective : Function.Injective (arrangement : Choices n → Equiv.Perm (Fin n)) := by
  intro r r' h
  have hfold : positions r = positions r' := by rw [← ofFn_arrangement, h, ofFn_arrangement]
  simp only [positions, shuffleBy, List.length_finRange, List.range_eq_range'] at hfold
  have hall := choices_eq_of_foldl_eq (List.nodup_finRange n)
    (fun j _ hj => by rw [List.length_finRange]; exact r.offset_lt (by omega))
    (fun j _ hj => by rw [List.length_finRange]; exact r'.offset_lt (by omega)) hfold
  funext i
  have hi := hall i (Nat.zero_le _) (by omega)
  simp only [Choices.offset, i.isLt, dite_true] at hi
  exact Fin.ext hi

/-- There are as many sequences of choices as permutations. -/
theorem prod_choices (n : Nat) : ∏ i : Fin (n - 1), (n - i) = n.factorial := by
  rw [Fin.prod_univ_eq_prod_range (fun i => n - i) (n - 1), ← Nat.descFactorial_eq_prod_range]
  cases n with
  | zero => rfl
  | succ m =>
    have h := Nat.factorial_mul_descFactorial (Nat.sub_le (m + 1) 1)
    rwa [show m + 1 - (m + 1 - 1) = 1 by omega, Nat.factorial_one, Nat.one_mul] at h

theorem arrangement_bijective :
    Function.Bijective (arrangement : Choices n → Equiv.Perm (Fin n)) := by
  rw [Fintype.bijective_iff_injective_and_card]
  refine ⟨arrangement_injective, ?_⟩
  rw [Fintype.card_perm, Fintype.card_fin, Fintype.card_pi]
  simp only [Fintype.card_fin]
  exact prod_choices n

/-- When each choice is made with equal probabilities and independently of the others, every
permutation has the probability `1 / n!`. -/
theorem sum_weights_arrangement (σ : Equiv.Perm (Fin n)) :
    ∑ r : Choices n with arrangement r = σ, ∏ i : Fin (n - 1), (1 / (n - i : Nat) : Rat) =
      1 / n.factorial := by
  obtain ⟨r, rfl⟩ := arrangement_bijective.2 σ
  have hone : (univ.filter fun r' : Choices n => arrangement r' = arrangement r) = {r} := by
    ext r'
    simp [arrangement_injective.eq_iff]
  rw [hone, sum_singleton, prod_div_distrib, prod_const_one, ← Nat.cast_prod, prod_choices]

end positions

end BeastLounge.Theory
