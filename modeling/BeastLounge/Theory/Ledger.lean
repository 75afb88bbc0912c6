import Mathlib.Data.List.Nodup
import Mathlib.Logic.Function.Basic

/-!
# Objects with one owner

Objects get their numbers as they are made. `Ledger` says that each object made so far is in exactly
one place or has gone exactly once; it survives the making of an object exactly when the place for
it is empty.
-/

namespace BeastLounge.Theory

variable {K : Type*} {hold : K → Option Nat} {next : Nat} {gone : List Nat} {k : K} {id : Nat}

/-- `hold` says which object is in a place, `next` are made, and those in `gone` are no more. -/
structure Ledger (hold : K → Option Nat) (next : Nat) (gone : List Nat) : Prop where
  made : ∀ k id, hold k = some id → id < next
  single : ∀ j k id, hold j = some id → hold k = some id → j = k
  kept : ∀ k id, hold k = some id → id ∉ gone
  once : gone.Nodup
  gone_made : ∀ id ∈ gone, id < next
  covered : ∀ id < next, id ∈ gone ∨ ∃ k, hold k = some id

theorem ledger_empty : Ledger (fun _ : K => none) 0 [] := by
  refine ⟨fun _ _ h => ?_, fun _ _ _ h => ?_, fun _ _ h => ?_, List.nodup_nil, fun _ h => ?_,
    fun _ h => ?_⟩ <;> contradiction

section places
variable [DecidableEq K]

/-- What is in a place after it is filled or emptied. -/
theorem update_hold_cases {j : K} {x : Option Nat} (h : Function.update hold k x j = some id) :
    j = k ∧ x = some id ∨ j ≠ k ∧ hold j = some id := by
  by_cases hj : j = k
  · rw [hj, Function.update_self] at h
    exact .inl ⟨hj, h⟩
  · rw [Function.update_of_ne hj] at h
    exact .inr ⟨hj, h⟩

/-- An object may be made exactly in an empty place: one that is there would be lost. -/
theorem Ledger.make_iff (h : Ledger hold next gone) :
    Ledger (Function.update hold k (some next)) (next + 1) gone ↔ hold k = none := by
  constructor
  · intro hnew
    cases hk : hold k with
    | none => rfl
    | some id =>
      have hlt := h.made k id hk
      rcases hnew.covered id (by omega) with hgone | ⟨j, hj⟩
      · exact absurd hgone (h.kept k id hk)
      · rcases update_hold_cases hj with ⟨-, heq⟩ | ⟨hne, hold⟩
        · have hid := Option.some.inj heq
          omega
        · exact absurd (h.single j k id hold hk) hne
  · intro hk
    have hother : ∀ j id, hold j = some id → j ≠ k := by
      rintro j id hj rfl
      rw [hk] at hj
      contradiction
    refine ⟨fun j id hj => ?_, fun i j id hi hj => ?_, fun j id hj => ?_, h.once,
      fun id hid => Nat.lt_succ_of_lt (h.gone_made id hid), fun id hid => ?_⟩
    · rcases update_hold_cases hj with ⟨-, heq⟩ | ⟨-, hj⟩
      · exact (Option.some.inj heq) ▸ next.lt_succ_self
      · exact Nat.lt_succ_of_lt (h.made j id hj)
    · rcases update_hold_cases hi with ⟨hik, heq⟩ | ⟨-, hi'⟩ <;>
        rcases update_hold_cases hj with ⟨hjk, heq'⟩ | ⟨-, hj'⟩
      · exact hik.trans hjk.symm
      · have hlt := h.made j id hj'
        have hid := Option.some.inj heq
        omega
      · have hlt := h.made i id hi'
        have hid := Option.some.inj heq'
        omega
      · exact h.single i j id hi' hj'
    · rcases update_hold_cases hj with ⟨-, heq⟩ | ⟨-, hj⟩
      · intro hmem
        have hlt := h.gone_made id hmem
        have hid := Option.some.inj heq
        omega
      · exact h.kept j id hj
    · rcases Nat.lt_succ_iff_lt_or_eq.mp hid with hlt | rfl
      · rcases h.covered id hlt with hgone | ⟨j, hj⟩
        · exact .inl hgone
        · exact .inr ⟨j, by rw [Function.update_of_ne (hother j id hj)]; exact hj⟩
      · exact .inr ⟨k, Function.update_self ..⟩

/-- The object in a place goes. -/
theorem Ledger.remove (h : Ledger hold next gone) (hk : hold k = some id) :
    Ledger (Function.update hold k none) next (gone ++ [id]) := by
  have hmem : ∀ i, i ∈ gone ++ [id] ↔ i ∈ gone ∨ i = id := by
    intro i
    rw [List.mem_append, List.mem_singleton]
  have hback : ∀ {j i}, Function.update hold k none j = some i → j ≠ k ∧ hold j = some i := by
    intro j i hj
    rcases update_hold_cases hj with ⟨-, heq⟩ | hj
    · contradiction
    · exact hj
  refine ⟨fun j i hj => h.made j i (hback hj).2,
    fun j j' i hj hj' => h.single j j' i (hback hj).2 (hback hj').2, fun j i hj => ?_, ?_, ?_, ?_⟩
  · obtain ⟨hne, hj⟩ := hback hj
    rw [hmem]
    rintro (hgone | rfl)
    · exact h.kept j i hj hgone
    · exact hne (h.single j k i hj hk)
  · rw [← List.concat_eq_append, List.nodup_concat]
    exact ⟨h.kept k id hk, h.once⟩
  · intro i hi
    rcases (hmem i).mp hi with hgone | rfl
    · exact h.gone_made i hgone
    · exact h.made k i hk
  · intro i hi
    rcases h.covered i hi with hgone | ⟨j, hj⟩
    · exact .inl ((hmem i).mpr (.inl hgone))
    · by_cases hjk : j = k
      · subst hjk
        exact .inl ((hmem i).mpr (.inr (Option.some.inj (hj.symm.trans hk))))
      · exact .inr ⟨j, by rw [Function.update_of_ne hjk]; exact hj⟩

end places

end BeastLounge.Theory
