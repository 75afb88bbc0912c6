import BeastLounge.Blackjack.Game

/-!
# How many cards the hands hold

The deals go round the six seats, and no operation clears the dealer's hand: after `n` deals it
holds every sixth of them, and no other hand holds more than its share. So there is room for the
next card up to the deal number 132, and none in the dealer's hand for the one after it.
-/

namespace BeastLounge.Blackjack

open Theory

namespace Game

/-- The number of cards in the hand at seat `i`. -/
def handSize (g : Game) (i : Nat) : Nat :=
  ((g.seats[i]?).map fun s => s.hand.cards.chars.length).getD 0

/-- The hand that `deal_one` deals to has room for another card. -/
def targetFits (g : Game) : Bool :=
  match g.seats[g.turn]? with
  | some s => s.hand.cards.chars.length < 22
  | none => false

/-- What holds after `n` deals. -/
structure Dealt (n : Nat) (g : Game) : Prop where
  length_eq : g.seats.length = 6
  turn_eq : g.turn = n % 6
  dealer : g.handSize 0 = (n + 5) / 6
  share : ∀ i < 6, g.handSize i ≤ (n + 5 - i) / 6

theorem dealt_new (decks : Nat) (rand : Nat → Nat) (chips : Nat → Int) :
    Dealt 0 (.new decks rand chips) := by
  refine ⟨by simp [new], rfl, rfl, ?_⟩
  intro i hi
  have h : ∀ i < 6, (new decks rand chips).handSize i = 0 := by
    intro i hi
    match i, hi with
    | 0, _ => rfl
    | 1, _ => rfl
    | 2, _ => rfl
    | 3, _ => rfl
    | 4, _ => rfl
    | 5, _ => rfl
  rw [h i hi]
  exact Nat.zero_le _

section operations
variable {n : Nat} {g : Game} {u : Player}

theorem handSize_modifySeat (g : Game) (i : Nat) (f : Seat → Seat) (j : Nat) :
    (g.modifySeat i f).handSize j =
      ((g.seats[j]?).map fun s => (if i = j then f s else s).hand.cards.chars.length).getD 0 := by
  unfold handSize modifySeat
  rw [List.getElem?_modify]
  cases g.seats[j]? <;> rfl

/-- A change of seats that leaves the hands alone. -/
theorem Dealt.modifySeat (h : Dealt n g) (i : Nat) {f : Seat → Seat}
    (hf : ∀ s, (f s).hand = s.hand) : Dealt n (g.modifySeat i f) := by
  have hsize : ∀ j, (g.modifySeat i f).handSize j = g.handSize j := by
    intro j
    rw [handSize_modifySeat, handSize]
    congr 2
    funext s
    split
    · rw [hf]
    · rfl
  refine ⟨(List.length_modify ..).trans h.length_eq, h.turn_eq, ?_, fun j hj => ?_⟩
  · rw [hsize]
    exact h.dealer
  · rw [hsize]
    exact h.share j hj

/-- Clearing a hand other than the dealer's. -/
theorem Dealt.clearSeat (h : Dealt n g) {i : Nat} (hi : i ≠ 0) {f : Seat → Seat}
    (hf : ∀ s, (f s).hand = {}) : Dealt n (g.modifySeat i f) := by
  have hsize : ∀ j, (g.modifySeat i f).handSize j ≤ g.handSize j := by
    intro j
    rw [handSize_modifySeat, handSize]
    cases g.seats[j]? with
    | none => exact Nat.le_refl _
    | some s =>
      simp only [Option.map_some, Option.getD_some]
      split
      · rw [hf]
        exact Nat.zero_le _
      · exact Nat.le_refl _
  refine ⟨(List.length_modify ..).trans h.length_eq, h.turn_eq, ?_, fun j hj => ?_⟩
  · rw [handSize_modifySeat]
    simp only [hi, if_false]
    exact h.dealer
  · exact Nat.le_trans (hsize j) (h.share j hj)

theorem dealt_join (h : Dealt n g) : Dealt n (g.join u).1 := by
  unfold join
  split
  · exact h
  · split
    · exact h.modifySeat _ fun _ => rfl
    · exact h

theorem dealt_leave (h : Dealt n g) : Dealt n (g.leave u).1 := by
  unfold leave
  by_cases hi : g.find u = 0
  · simp only [hi, if_true]
    exact h
  · simp only [hi, if_false]
    split
    · exact h.modifySeat _ fun _ => rfl
    · exact h.clearSeat hi fun _ => rfl
    · exact h

theorem dealt_surrender (h : Dealt n g) : Dealt n (g.surrender u).1 := by
  unfold surrender
  by_cases hi : g.find u = 0
  · simp only [hi, if_true]
    exact h
  · simp only [hi, if_false]
    exact h.modifySeat _ fun _ => rfl

theorem dealt_bet (h : Dealt n g) : Dealt n (g.bet u).1 := by
  unfold bet
  by_cases hi : g.find u = 0
  · simp only [hi, if_true]
    exact h
  · simp only [hi, if_false]
    split
    · exact h.modifySeat _ fun _ => rfl
    · exact h.modifySeat _ fun _ => rfl
    · exact h

/-! ### The deal -/

theorem Dealt.target (h : Dealt n g) :
    ∃ s, g.seats[g.turn]? = some s ∧ g.handSize g.turn = s.hand.cards.chars.length := by
  have hlt : g.turn < g.seats.length := by
    rw [h.length_eq, h.turn_eq]
    omega
  refine ⟨g.seats[g.turn], List.getElem?_eq_getElem hlt, ?_⟩
  rw [handSize, List.getElem?_eq_getElem hlt]
  rfl

theorem Dealt.turn_lt (h : Dealt n g) : g.turn < g.seats.length := by
  rw [h.length_eq, h.turn_eq]
  omega

/-- The target has room exactly during the first 132 deals. -/
theorem Dealt.targetFits_iff (h : Dealt n g) (hn : n ≤ 132) : g.targetFits = true ↔ n < 132 := by
  obtain ⟨s, hs, hsize⟩ := h.target
  have hfits : g.targetFits = true ↔ s.hand.cards.chars.length < 22 := by
    unfold targetFits
    rw [hs]
    exact decide_eq_true_iff
  rw [hfits, ← hsize, h.turn_eq]
  constructor
  · intro hlt
    by_contra hge
    obtain rfl : n = 132 := by omega
    have hdealer := h.dealer
    rw [show 132 % 6 = 0 by decide, hdealer] at hlt
    omega
  · intro hlt
    have hshare := h.share (n % 6) (by omega)
    omega

theorem hand_deal_room {h : Hand} (s : Shoe) (hroom : h.cards.chars.length < 22) :
    ∃ h', (h.deal s).1 = some h' ∧ h'.cards.chars.length = h.cards.chars.length + 1 := by
  have hne : (h.deal s).1 ≠ none := by
    rw [ne_eq, Hand.deal_none]
    omega
  obtain ⟨h', hdeal⟩ := Option.ne_none_iff_exists'.mp hne
  refine ⟨h', hdeal, ?_⟩
  rw [(Hand.deal_some hdeal).1, List.length_append, List.length_singleton]

theorem dealt_dealOne (h : Dealt n g) (hn : n < 132) :
    g.dealOne.2 = .ok () ∧ Dealt (n + 1) g.dealOne.1 := by
  obtain ⟨s, hs, hsize⟩ := h.target
  have hroom : s.hand.cards.chars.length < 22 := by
    have hfits := (h.targetFits_iff (by omega)).mpr hn
    unfold targetFits at hfits
    rw [hs] at hfits
    exact decide_eq_true_iff.mp hfits
  obtain ⟨hand, hdeal, hlen⟩ := hand_deal_room g.shoe hroom
  have heq := dealOne_dealt hs hdeal
  have hlt := h.turn_lt
  have hsizes : ∀ i, g.dealOne.1.handSize i =
      if g.turn = i then g.handSize i + 1 else g.handSize i := by
    intro i
    rw [heq]
    show (((g.seats.set g.turn { s with hand })[i]?).map _).getD 0 = _
    rw [List.getElem?_set]
    by_cases hi : g.turn = i
    · subst hi
      rw [if_pos rfl, if_pos rfl, if_pos hlt, hsize]
      exact hlen
    · rw [if_neg hi, if_neg hi]
      rfl
  have hturn := h.turn_eq
  have hdealer := h.dealer
  refine ⟨by rw [heq], ?_, ?_, ?_, fun i hi => ?_⟩
  · rw [heq]
    exact (List.length_set ..).trans h.length_eq
  · rw [heq]
    show (if g.turn + 1 ≥ g.seats.length then 0 else g.turn + 1) = (n + 1) % 6
    rw [h.length_eq]
    split <;> omega
  · rw [hsizes, hdealer]
    split <;> omega
  · have hshare := h.share i hi
    rw [hsizes]
    split <;> omega

/-- The deal after those: the dealer's hand is full. -/
theorem dealOne_full (h : Dealt 132 g) :
    g.dealOne.2 = .error .lengthError ∧ g.dealOne.1.turn < g.dealOne.1.seats.length := by
  obtain ⟨s, hs, hsize⟩ := h.target
  have hturn : g.turn = 0 := h.turn_eq
  have hfull : 22 ≤ s.hand.cards.chars.length := by
    have hdealer := h.dealer
    rw [hturn] at hsize
    omega
  have hdeal : (s.hand.deal g.shoe).1 = none := Hand.deal_none.mpr hfull
  have heq := dealOne_thrown hs hdeal
  refine ⟨by rw [heq], ?_⟩
  rw [heq]
  show g.turn + 1 < g.seats.length
  rw [h.length_eq, hturn]
  decide

end operations

end Game

end BeastLounge.Blackjack
