import Mathlib.Data.Finset.Card
import Mathlib.Logic.Equiv.Basic
import Mathlib.Algebra.Order.Ring.Nat

/-!
# Shared objects and those that hold them

Each of finitely many holders points to one object, or to none. `holders` counts those of an object,
and the lemmas say what becomes of the count as holders come and go and change what they point to.
-/

namespace BeastLounge.Theory

variable {K B : Type*} [DecidableEq B] {live : Finset K} {ptr : K → Option B}
  {k j : K} {b : B}

/-- How many of the holders point to `b`. -/
def holders (live : Finset K) (ptr : K → Option B) (b : B) : Nat :=
  (live.filter fun k => ptr k = some b).card

/-- One pointer's share of the count. -/
def share (x : Option B) (b : B) : Nat := if x = some b then 1 else 0

@[simp] theorem share_none (b : B) : share none b = 0 := rfl

@[simp] theorem share_self (b : B) : share (some b) b = 1 := if_pos rfl

theorem share_of_ne {a : B} (h : a ≠ b) : share (some a) b = 0 :=
  if_neg fun heq => h (Option.some.inj heq)

theorem holders_congr {ptr' : K → Option B} (h : ∀ k ∈ live, ptr' k = ptr k) :
    holders live ptr' b = holders live ptr b := by
  unfold holders
  rw [Finset.filter_congr fun k hk => by rw [h k hk]]

theorem holders_pos (hk : k ∈ live) (hptr : ptr k = some b) : 0 < holders live ptr b :=
  Finset.card_pos.mpr ⟨k, Finset.mem_filter.mpr ⟨hk, hptr⟩⟩

section updates
variable [DecidableEq K] (ptr : K → Option B) (b : B)

theorem holders_insert (hk : k ∉ live) :
    holders (insert k live) ptr b = holders live ptr b + share (ptr k) b := by
  unfold holders share
  rw [Finset.filter_insert]
  split
  · rw [Finset.card_insert_of_notMem fun hmem => hk (Finset.mem_of_mem_filter k hmem)]
  · rfl

theorem holders_erase (hk : k ∈ live) :
    holders (live.erase k) ptr b + share (ptr k) b = holders live ptr b := by
  rw [← holders_insert ptr b (Finset.notMem_erase k live), Finset.insert_erase hk]

/-- A new holder. -/
theorem holders_insert_update (hk : k ∉ live) (x : Option B) :
    holders (insert k live) (Function.update ptr k x) b = holders live ptr b + share x b := by
  rw [holders_insert _ b hk, Function.update_self]
  congr 1
  exact holders_congr fun j hj => Function.update_of_ne (ne_of_mem_of_not_mem hj hk) _ _

/-- A holder that goes. -/
theorem holders_erase_update (hk : k ∈ live) (x : Option B) :
    holders (live.erase k) (Function.update ptr k x) b + share (ptr k) b = holders live ptr b := by
  rw [← holders_erase ptr b hk]
  congr 1
  exact holders_congr fun j hj => Function.update_of_ne (Finset.ne_of_mem_erase hj) _ _

/-- A holder that lets go of what it points to for something else. -/
theorem holders_update (hk : k ∈ live) (x : Option B) :
    holders live (Function.update ptr k x) b + share (ptr k) b = holders live ptr b + share x b := by
  have hnew := holders_erase (Function.update ptr k x) b hk
  have hold := holders_erase_update ptr b hk x
  rw [Function.update_self] at hnew
  omega

/-- Two holders that exchange what they point to. -/
theorem holders_swap (hk : k ∈ live) (hj : j ∈ live) :
    holders live (ptr ∘ Equiv.swap k j) b = holders live ptr b := by
  have hfirst := holders_update ptr b hj (ptr k)
  have hsecond := holders_update (Function.update ptr j (ptr k)) b hk (ptr j)
  have hself : Function.update ptr j (ptr k) k = ptr k := by
    rw [Function.update_apply]
    split <;> rfl
  rw [Equiv.comp_swap_eq_update]
  rw [hself] at hsecond
  omega

end updates

end BeastLounge.Theory
