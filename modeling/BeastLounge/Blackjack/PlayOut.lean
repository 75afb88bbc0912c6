import BeastLounge.Blackjack.Decks
import BeastLounge.Blackjack.Evaluate

/-!
# Playing a hand out

The loop of the test of `game.hpp`, which deals to an empty hand until it is done. It has no counter;
what ends it is the sum of the cards with all aces counting 1, which grows with every card. A hand of
`n` cards that is not done adds up to at least `n`, and to more once it has eleven: were the first
eleven all aces, the hand would have stopped at 21. And one that adds up to more than 20 is done. So
the loop has dealt at most 19 cards to a hand that is not done.
-/

namespace BeastLounge.Blackjack

open Theory

namespace Header

/-- `while(! h.is_done()) h.deal(sh)`; `none` when the fuel, one unit a deal, is spent, and no hand when
a deal throws. -/
def playOut : Nat → Hand → Shoe → Option (Option Hand × Shoe)
  | fuel, h, s =>
    if h.isDone then some (some h, s)
    else
      match fuel with
      | 0 => none
      | fuel + 1 =>
        match h.deal s with
        | (none, s) => some (none, s)
        | (some h, s) => playOut fuel h s

/-- The sum of the cards, aces counting 1. -/
def hardTotal (h : Hand) : Int := (h.cards.chars.map Blackjack.Hand.value).sum

section deal
variable {h h' : Hand} {s : Shoe}

/-- The spec of a deal that does not throw. -/
theorem deal_some (hdeal : (h.deal s).1 = some h') :
    h'.cards.chars = h.cards.chars ++ [s.deal.1] ∧
      Judged h'.cards.chars h'.busted h'.twentyOne h'.blackjack := by
  obtain ⟨cards, hpush, rfl⟩ := Option.map_eq_some_iff.mp hdeal
  exact ⟨(StaticString.pushBack_eq_some.mp hpush).2, judged_evalBy { h with cards }⟩

theorem deal_room (s : Shoe) (hroom : h.cards.chars.length < 22) :
    ∃ h', h.deal s = (some h', s.deal.2) := by
  have hne : h.cards.pushBack s.deal.1 ≠ none := by
    rw [ne_eq, StaticString.pushBack_eq_none]
    omega
  obtain ⟨cards, hcards⟩ := Option.ne_none_iff_exists'.mp hne
  exact ⟨Hand.eval { h with cards }, by simp [Hand.deal, hcards]⟩

end deal

/-! ### Hands that are not done -/

/-- A hand in the course of the loop. -/
structure InPlay (h : Hand) : Prop where
  judged : Judged h.cards.chars h.busted h.twentyOne h.blackjack
  card : ∀ c ∈ h.cards.chars, 1 ≤ c

/-- Before it is done, a hand adds up to as much as it has cards, and later to more. -/
structure Ahead (h : Hand) : Prop where
  length_le : (h.cards.chars.length : Int) ≤ hardTotal h
  length_lt : 11 ≤ h.cards.chars.length → (h.cards.chars.length : Int) < hardTotal h

section open_hand
variable {h h' : Hand} {s : Shoe}

/-- What it means that a hand takes another card. -/
theorem InPlay.not_done (h0 : InPlay h) (hdone : h.isDone = false) :
    hardTotal h ≤ 20 ∧ ¬(hardTotal h = 11 ∧ ∃ c ∈ h.cards.chars, Blackjack.Hand.value c = 1) := by
  obtain ⟨hbusted, htwentyOne⟩ := Bool.or_eq_false_iff.mp hdone
  have hbusts : ¬Busts h.cards.chars := fun hb => by
    rw [h0.judged.busted.mpr hb] at hbusted
    cases hbusted
  have hbest : ¬TwentyOne h.cards.chars := fun ht => by
    rw [h0.judged.twentyOne.mpr ht] at htwentyOne
    cases htwentyOne
  have hpos : ∀ c ∈ h.cards.chars, 0 ≤ Blackjack.Hand.value c := fun c hc =>
    Int.le_trans (by decide) (value_bounds (h0.card c hc)).1
  rw [busts_iff] at hbusts
  rw [twentyOne_iff, finalTotal_eq_twentyOne hpos] at hbest
  have hne : hardTotal h ≠ 21 := fun hsum => hbest (.inl hsum)
  have hle : hardTotal h ≤ 21 := Int.not_lt.mp hbusts
  exact ⟨by omega, fun hsoft => hbest (.inr hsoft)⟩

/-- At most 19 cards. -/
theorem Ahead.length_lt_twenty (ha : Ahead h) (h0 : InPlay h) (hdone : h.isDone = false) :
    h.cards.chars.length < 20 := by
  have hle := (h0.not_done hdone).1
  have hlt := ha.length_lt
  by_contra hge
  have := hlt (by omega)
  omega

/-- A card that leaves the hand open keeps it ahead of its length. -/
theorem Ahead.deal (ha : Ahead h) (h0 : InPlay h) (hs : s.Valid) (hdeal : (h.deal s).1 = some h') :
    InPlay h' ∧ (h'.isDone = false → Ahead h') := by
  obtain ⟨hcards, hjudged⟩ := deal_some hdeal
  have hcard := (Shoe.deal_valid hs).1
  have hone := (value_bounds hcard.1).1
  have hplay : InPlay h' := by
    refine ⟨hjudged, fun c hc => ?_⟩
    rw [hcards] at hc
    rcases List.mem_append.mp hc with hc | hc
    · exact h0.card c hc
    · rw [List.mem_singleton.mp hc]
      exact hcard.1
  have hsum : hardTotal h' = hardTotal h + Blackjack.Hand.value s.deal.1 := by
    unfold hardTotal
    rw [hcards, List.map_append, List.sum_append, List.map_singleton, List.sum_singleton]
  have hlen : h'.cards.chars.length = h.cards.chars.length + 1 := by
    rw [hcards, List.length_append, List.length_singleton]
  refine ⟨hplay, fun hdone => ?_⟩
  have hle := ha.length_le
  have hlt := ha.length_lt
  constructor
  · omega
  · intro heleven
    by_cases hten : h.cards.chars.length = 10
    · -- eleven cards that add up to 11 would be aces, and the hand done
      by_contra hge
      have hace : Blackjack.Hand.value s.deal.1 = 1 := by omega
      refine (hplay.not_done hdone).2 ⟨by omega, s.deal.1, ?_, hace⟩
      rw [hcards]
      exact List.mem_append_right _ (List.mem_singleton.mpr rfl)
    · have := hlt (by omega)
      omega

/-- From a hand that is ahead, the loop ends before the twenty-first card. -/
theorem playOut_of_ahead {left fuel : Nat} (h0 : InPlay h) (ha : h.isDone = false → Ahead h)
    (hs : s.Valid) (hleft : h.cards.chars.length + left = 20) (hfuel : left ≤ fuel) :
    ∃ n h', n ≤ left ∧ playOut fuel h s = some (some h', s.after n) ∧ h'.isDone = true ∧
      InPlay h' ∧ h'.cards.chars = h.cards.chars ++ s.results n := by
  induction left generalizing fuel h s with
  | zero =>
    have hdone : h.isDone = true := by
      by_contra hopen
      have hfalse := Bool.eq_false_of_not_eq_true hopen
      have := (ha hfalse).length_lt_twenty h0 hfalse
      omega
    refine ⟨0, h, Nat.le_refl 0, ?_, hdone, h0, (List.append_nil _).symm⟩
    unfold playOut
    exact if_pos hdone
  | succ left ih =>
    by_cases hdone : h.isDone = true
    · refine ⟨0, h, Nat.zero_le _, ?_, hdone, h0, (List.append_nil _).symm⟩
      unfold playOut
      exact if_pos hdone
    · obtain ⟨fuel, rfl⟩ : ∃ f, fuel = f + 1 := ⟨fuel - 1, by omega⟩
      obtain ⟨h₁, hdeal⟩ := deal_room (h := h) s (by omega)
      have hsome : (h.deal s).1 = some h₁ := by rw [hdeal]
      obtain ⟨h1, ha1⟩ := (ha (Bool.eq_false_of_not_eq_true hdone)).deal h0 hs hsome
      have hcards := (deal_some hsome).1
      have hlen : h₁.cards.chars.length + left = 20 := by
        rw [hcards, List.length_append, List.length_singleton]
        omega
      obtain ⟨n, h', hn, hplay, hdone', h0', hcards'⟩ :=
        ih h1 ha1 (Shoe.deal_valid hs).2 hlen (Nat.le_of_succ_le_succ hfuel)
      refine ⟨n + 1, h', Nat.succ_le_succ hn, ?_, hdone', h0', ?_⟩
      · unfold playOut
        rw [if_neg hdone]
        simp only [hdeal]
        exact hplay
      · rw [hcards', hcards, List.append_assoc]
        rfl

end open_hand

/-- A hand that is dealt from any shoe, at any point of it, is played out after 20 deals at most, none
of which throws; it is then over 21, or worth 21, but not both. -/
theorem playOut_ends {decks : Nat} (hdecks : 1 ≤ decks) (rand : Nat → Nat) (k : Nat) {fuel : Nat}
    (hfuel : 20 ≤ fuel) :
    ∃ n h, n ≤ 20 ∧
      playOut fuel {} ((Shoe.new decks rand).after k) =
        some (some h, (Shoe.new decks rand).after (k + n)) ∧
      h.cards.chars = ((Shoe.new decks rand).after k).results n ∧
      (h.busted = true ↔ Busts h.cards.chars) ∧ (h.twentyOne = true ↔ TwentyOne h.cards.chars) ∧
      (h.busted = true ∧ h.twentyOne = false ∨ h.busted = false ∧ h.twentyOne = true) := by
  have hvalid := Shoe.valid_after (Shoe.valid_new hdecks rand) k
  have hempty : InPlay {} := by
    refine ⟨⟨?_, ?_, ?_⟩, fun c hc => by cases hc⟩
    · rw [busts_iff]
      decide
    · rw [twentyOne_iff]
      decide
    · rw [twentyOne_iff]
      decide
  have hahead : Ahead {} := ⟨by decide, by decide⟩
  obtain ⟨n, h, hn, hplay, hdone, h0, hcards⟩ :=
    playOut_of_ahead hempty (fun _ => hahead) hvalid rfl hfuel
  refine ⟨n, h, hn, ?_, hcards, h0.judged.busted, h0.judged.twentyOne, ?_⟩
  · rw [hplay, Shoe.after_add]
  · have hnot : ¬(h.busted = true ∧ h.twentyOne = true) := fun hboth =>
      not_busts_and_twentyOne ⟨h0.judged.busted.mp hboth.1, h0.judged.twentyOne.mp hboth.2⟩
    unfold Hand.isDone at hdone
    revert hdone hnot
    cases h.busted <;> cases h.twentyOne <;> simp

/-- The first hand from a shoe in order: ace, deuce, and so on to the six. -/
theorem playOut_ends_first : ∃ n h, n ≤ 20 ∧
    playOut 20 {} ((Shoe.new 1 fun _ => 0).after 0) =
      some (some h, (Shoe.new 1 fun _ => 0).after (0 + n)) := by
  obtain ⟨n, h, hn, hplay, -⟩ :=
    playOut_ends (Nat.le_refl 1) (fun _ => 0) 0 (Nat.le_refl 20)
  exact ⟨n, h, hn, hplay⟩

end Header

end BeastLounge.Blackjack
