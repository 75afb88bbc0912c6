import BeastLounge.Blackjack.Game

/-!
# The values in a game

Every card is one of `1..52`, there are six seats, and chips and wagers are 32-bit numbers; the
operations of the game keep it so. What a snapshot of the game can contain follows from this.
-/

namespace BeastLounge.Blackjack

open Theory

theorem natAbs_toInt_le (x : Int) : (toInt x).natAbs ≤ 2 ^ 31 := by
  have hlow := Int.le_bmod (x := x) (m := 2 ^ 32) (by decide)
  have hhigh := Int.bmod_lt (x := x) (m := 2 ^ 32) (by decide)
  unfold toInt
  omega

structure Seat.Bounded (s : Seat) : Prop where
  card : ∀ c ∈ s.hand.cards.chars, c ≤ 52
  chips : s.chips.natAbs ≤ 2 ^ 31
  wager : s.wager.natAbs ≤ 2 ^ 31

theorem Seat.Bounded.setState {s : Seat} (h : s.Bounded) (state : SeatState) :
    ({ s with state } : Seat).Bounded := ⟨h.card, h.chips, h.wager⟩

theorem Seat.bounded_clear (s : Seat) : s.clear.Bounded where
  card c hc := by cases hc
  chips := by simp [Seat.clear]
  wager := by simp [Seat.clear]

namespace Game

structure Bounded (g : Game) : Prop where
  shoe : g.shoe.Valid
  length_eq : g.seats.length = 6
  seat : ∀ s ∈ g.seats, s.Bounded

theorem bounded_new {decks : Nat} (hdecks : 1 ≤ decks) (rand : Nat → Nat) (chips : Nat → Int) :
    (new decks rand chips).Bounded where
  shoe := Shoe.valid_new hdecks rand
  length_eq := by simp [new]
  seat s hs := by
    obtain ⟨i, -, rfl⟩ := List.mem_map.mp hs
    exact ⟨fun c hc => (by cases hc), natAbs_toInt_le _, Nat.zero_le _⟩

section operations
variable {g : Game} {u : Player}

theorem Bounded.modifySeat (h : g.Bounded) (i : Nat) {f : Seat → Seat}
    (hf : ∀ s, s.Bounded → (f s).Bounded) : (g.modifySeat i f).Bounded := by
  refine ⟨h.shoe, (List.length_modify ..).trans h.length_eq, fun s hs => ?_⟩
  obtain ⟨j, hj⟩ := List.mem_iff_getElem?.mp hs
  rw [Game.modifySeat, List.getElem?_modify] at hj
  obtain ⟨s', hs', rfl⟩ := Option.map_eq_some_iff.mp hj
  have hbounded := h.seat s' (List.mem_of_getElem? hs')
  split
  · exact hf s' hbounded
  · exact hbounded

theorem bounded_join (h : g.Bounded) : (g.join u).1.Bounded := by
  unfold join
  split
  · exact h
  · split
    · exact h.modifySeat _ fun s hs => hs.setState _
    · exact h

theorem bounded_leave (h : g.Bounded) : (g.leave u).1.Bounded := by
  unfold leave
  simp only
  split
  · exact h
  · split
    · exact h.modifySeat _ fun s hs => hs.setState _
    · exact h.modifySeat _ fun s _ => Seat.bounded_clear _
    · exact h

theorem bounded_surrender (h : g.Bounded) : (g.surrender u).1.Bounded := by
  unfold surrender
  simp only
  split
  · exact h
  · exact h.modifySeat _ fun s hs => hs.setState _

theorem bounded_bet (h : g.Bounded) : (g.bet u).1.Bounded := by
  have hraise : ∀ s : Seat, s.Bounded →
      ({ s with wager := toInt (s.wager + 5), chips := toInt (s.chips - 5) } : Seat).Bounded :=
    fun s hs => ⟨hs.card, natAbs_toInt_le _, natAbs_toInt_le _⟩
  unfold bet
  simp only
  split
  · exact h
  · split
    · exact h.modifySeat _ hraise
    · exact h.modifySeat _ hraise
    · exact h

theorem bounded_dealOne (h : g.Bounded) : g.dealOne.1.Bounded := by
  obtain ⟨hcard, hshoe⟩ := Shoe.deal_valid h.shoe
  rcases g.dealOne_cases with ⟨-, heq⟩ | ⟨seat, hseat, ⟨-, heq⟩ | ⟨hand, hdeal, heq⟩⟩
  · rw [heq]
    exact h
  · rw [heq]
    exact ⟨hshoe, h.length_eq, h.seat⟩
  · rw [heq]
    refine ⟨hshoe, (List.length_set ..).trans h.length_eq, fun s hs => ?_⟩
    rcases List.mem_or_eq_of_mem_set hs with hs | rfl
    · exact h.seat s hs
    · have hbounded := h.seat seat (List.mem_of_getElem? hseat)
      refine ⟨fun c hc => ?_, hbounded.chips, hbounded.wager⟩
      rw [(Hand.deal_some hdeal).1] at hc
      rcases List.mem_append.mp hc with hc | hc
      · exact hbounded.card c hc
      · rw [List.mem_singleton.mp hc]
        exact hcard.2

end operations

end Game

end BeastLounge.Blackjack
