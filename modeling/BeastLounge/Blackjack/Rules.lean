import BeastLounge.Theory.Totals

/-!
# The rules of blackjack

What a hand is worth, as a player would say it: a face card counts 10, an ace 1 or 11 as its holder
likes, every other card its number, and the hole card nothing. The cards are numbered suit by suit,
from the ace to the king, starting with 1; the hole card is 0.
-/

namespace BeastLounge.Blackjack

open Theory

/-- The values a card can count. -/
def points (c : Nat) : List Int :=
  if c = 0 then [0]
  else if (c - 1) % 13 = 0 then [1, 11]
  else if (c - 1) % 13 < 9 then [(((c - 1) % 13 + 1 : Nat) : Int)]
  else [10]

/-- However the aces count, the hand exceeds 21. -/
def Busts (cards : List Nat) : Prop := ¬∃ t, Total points cards t ∧ t ≤ 21

/-- The best the hand can count is 21. -/
def TwentyOne (cards : List Nat) : Prop := IsGreatest {t | Total points cards t ∧ t ≤ 21} 21

/-- The hand takes no more cards. -/
def Finished (cards : List Nat) : Prop := Busts cards ∨ TwentyOne cards

/-- These flags say of the cards what the rules do. -/
structure Judged (cards : List Nat) (busted twentyOne blackjack : Bool) : Prop where
  busted : busted = true ↔ Busts cards
  twentyOne : twentyOne = true ↔ TwentyOne cards
  blackjack : blackjack = true ↔ TwentyOne cards ∧ cards.length = 2

section rules
variable {cards cards' : List Nat} {b b' t t' n n' : Bool}

theorem busts_perm (h : cards.Perm cards') : Busts cards ↔ Busts cards' := by
  unfold Busts
  simp only [total_perm h]

theorem twentyOne_perm (h : cards.Perm cards') : TwentyOne cards ↔ TwentyOne cards' := by
  unfold TwentyOne
  simp only [total_perm h]

theorem not_busts_and_twentyOne : ¬(Busts cards ∧ TwentyOne cards) := by
  rintro ⟨hbusts, hbest⟩
  exact hbusts ⟨21, hbest.1⟩

/-- The rules determine the flags, whatever the order of the cards. -/
theorem Judged.unique (h : Judged cards b t n) (h' : Judged cards' b' t' n')
    (hperm : cards.Perm cards') : b = b' ∧ t = t' ∧ n = n' := by
  refine ⟨?_, ?_, ?_⟩
  · rw [Bool.eq_iff_iff, h.busted, h'.busted]
    exact busts_perm hperm
  · rw [Bool.eq_iff_iff, h.twentyOne, h'.twentyOne]
    exact twentyOne_perm hperm
  · rw [Bool.eq_iff_iff, h.blackjack, h'.blackjack, twentyOne_perm hperm, hperm.length_eq]

end rules

end BeastLounge.Blackjack
