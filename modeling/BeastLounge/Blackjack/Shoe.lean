import Mathlib.Data.List.Nodup
import BeastLounge.Theory.Containers

/-!
# The shoe

`shoe` of the server's blackjack: a vector of cards, of which those before `pos_` have been dealt.
The results of `rand()` still to come are a field of the state, so that a run of the game is a
function of them.
-/

namespace BeastLounge.Blackjack

open Theory

structure Shoe where
  cards : List Nat
  pos : Nat
  rand : Nat → Nat

namespace Shoe

/-- The cards in the order the first loop of `shuffle` leaves them in. -/
def sorted (size : Nat) : List Nat := (List.range size).map fun i => 1 + i % 52

/-- One iteration of the second loop: `rand()` picks the position to swap with. -/
def shuffleStep (rand : Nat → Nat) (cards : List Nat) (i : Nat) : List Nat :=
  swap cards i (i + rand i % (cards.length - i))

/-- The second loop of `shuffle`, on any cards. (A shoe is not empty: there `size() - 1` wraps.) -/
def shuffleLoop (rand : Nat → Nat) (cards : List Nat) : List Nat :=
  (List.range (cards.length - 1)).foldl (shuffleStep rand) cards

/-- `shuffle`, which calls `rand()` once for each card but the last. -/
def shuffle (s : Shoe) : Shoe where
  cards := shuffleLoop s.rand (sorted s.cards.length)
  pos := 0
  rand k := s.rand (k + (s.cards.length - 1))

/-- The constructor: `decks * 52` characters, zero until they are shuffled. -/
def new (decks : Nat) (rand : Nat → Nat) : Shoe :=
  shuffle { cards := List.replicate (decks * 52) 0, pos := 0, rand }

def deal (s : Shoe) : Nat × Shoe :=
  let s := if s.pos = s.cards.length then s.shuffle else s
  (s.cards.getD s.pos 0, { s with pos := s.pos + 1 })

/-! ### The cards of a shoe -/

/-- The cards are `1..52`, and the position is inside the shoe. -/
structure Valid (s : Shoe) : Prop where
  card : ∀ c ∈ s.cards, 1 ≤ c ∧ c ≤ 52
  pos_le : s.pos ≤ s.cards.length
  nonempty : s.cards ≠ []

@[simp] theorem length_sorted (size : Nat) : (sorted size).length = size := by simp [sorted]

theorem mem_sorted {size c : Nat} (h : c ∈ sorted size) : 1 ≤ c ∧ c ≤ 52 := by
  simp only [sorted, List.mem_map] at h
  obtain ⟨i, -, rfl⟩ := h
  omega

/-- Whatever `rand()` returns, shuffling rearranges whole decks. -/
theorem shuffle_perm (s : Shoe) : s.shuffle.cards.Perm (sorted s.cards.length) :=
  foldl_perm (fun cards i => swap_perm cards i (i + s.rand i % (cards.length - i))) _ _

theorem new_perm (decks : Nat) (rand : Nat → Nat) :
    (new decks rand).cards.Perm (sorted (decks * 52)) := by
  have hperm := shuffle_perm { cards := List.replicate (decks * 52) 0, pos := 0, rand }
  rwa [List.length_replicate] at hperm

@[simp] theorem length_shuffle (s : Shoe) : s.shuffle.cards.length = s.cards.length :=
  s.shuffle_perm.length_eq.trans (length_sorted _)

/-- A shoe of whole decks contains every card once for each of them. -/
theorem count_sorted (decks : Nat) {c : Nat} (hlow : 1 ≤ c) (hhigh : c ≤ 52) :
    (sorted (decks * 52)).count c = decks := by
  induction decks with
  | zero => rfl
  | succ n ih =>
    have hdeck : ((List.range 52).map fun i => 1 + i).count c = 1 := by
      apply List.count_eq_one_of_mem
      · exact List.nodup_range.map fun a b h => by omega
      · exact List.mem_map.mpr ⟨c - 1, List.mem_range.mpr (by omega), by omega⟩
    have hlast : ((List.range 52).map fun i => 1 + (n * 52 + i) % 52) =
        (List.range 52).map fun i => 1 + i := by
      apply List.map_congr_left
      intro i hi
      have := List.mem_range.mp hi
      omega
    unfold sorted at ih ⊢
    rw [Nat.succ_mul, List.range_add, List.map_append, List.count_append, ih, List.map_map]
    show n + ((List.range 52).map fun i => 1 + (n * 52 + i) % 52).count c = n + 1
    rw [hlast, hdeck]

theorem valid_shuffle {s : Shoe} (h : s.cards ≠ []) : s.shuffle.Valid where
  card c hc := mem_sorted (s.shuffle_perm.mem_iff.mp hc)
  pos_le := Nat.zero_le _
  nonempty := by
    rw [← List.length_pos_iff, length_shuffle, List.length_pos_iff]
    exact h

theorem valid_new {decks : Nat} (hdecks : 1 ≤ decks) (rand : Nat → Nat) : (new decks rand).Valid := by
  refine valid_shuffle fun h => ?_
  have := congrArg List.length h
  simp at this
  omega

theorem deal_valid {s : Shoe} (h : s.Valid) :
    (1 ≤ s.deal.1 ∧ s.deal.1 ≤ 52) ∧ s.deal.2.Valid := by
  have key : ∀ t : Shoe, t.Valid → t.pos < t.cards.length →
      (1 ≤ t.cards.getD t.pos 0 ∧ t.cards.getD t.pos 0 ≤ 52) ∧
        ({ t with pos := t.pos + 1 } : Shoe).Valid := by
    intro t ht hlt
    have hget : t.cards.getD t.pos 0 = t.cards[t.pos] := by simp [List.getD, hlt]
    rw [hget]
    exact ⟨ht.card _ (List.getElem_mem hlt), ht.card, hlt, ht.nonempty⟩
  unfold deal
  split
  · exact key _ (valid_shuffle h.nonempty) (List.length_pos_iff.mpr (valid_shuffle h.nonempty).nonempty)
  · rename_i hne
    exact key s h (Nat.lt_of_le_of_ne h.pos_le hne)

end Shoe

end BeastLounge.Blackjack
