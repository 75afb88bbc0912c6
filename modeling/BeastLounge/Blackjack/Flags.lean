import BeastLounge.Blackjack.Evaluate
import BeastLounge.Blackjack.Play

/-!
# The flags of the hands at the table

`hand::deal` of the server adds a card and does not call `eval`, as that of `game.hpp` does, and
nothing else calls it either. So the flags of every hand are false for ever, which is what the rules
say just as long as no hand reaches 21.
-/

namespace BeastLounge.Blackjack

open Theory

/-- The flags are those the rules give for the cards, and tell whether the hand is finished. -/
structure Hand.Right (h : Hand) : Prop where
  judged : Judged h.cards.chars h.busted h.twentyOne h.blackjack
  finished : h.isFinished = true ↔ Finished h.cards.chars

/-- No flag is set. -/
structure Hand.Unflagged (h : Hand) : Prop where
  busted : h.busted = false
  twentyOne : h.twentyOne = false
  blackjack : h.blackjack = false

section hand
variable {h : Hand}

theorem unflagged_empty : Hand.Unflagged {} := ⟨rfl, rfl, rfl⟩

theorem Hand.Unflagged.with_cards (hh : h.Unflagged) (cards : StaticString 22 Nat) :
    Hand.Unflagged { h with cards } := ⟨hh.busted, hh.twentyOne, hh.blackjack⟩

theorem not_finished_nil : ¬Finished [] := by
  rintro (hbusts | hbest)
  · exact hbusts ⟨0, total_nil.mpr rfl, by decide⟩
  · have := total_nil.mp hbest.1.1
    omega

/-- Unset flags are right for the hands that still take cards. -/
theorem Hand.Unflagged.right_iff (hh : h.Unflagged) : h.Right ↔ ¬Finished h.cards.chars := by
  constructor
  · intro hright hfinished
    have := hright.finished.mpr hfinished
    rw [Hand.isFinished, hh.busted, hh.twentyOne] at this
    cases this
  · intro hopen
    have hbusts : ¬Busts h.cards.chars := fun hb => hopen (.inl hb)
    have hbest : ¬TwentyOne h.cards.chars := fun ht => hopen (.inr ht)
    refine ⟨⟨?_, ?_, ?_⟩, ?_⟩
    · simp [hh.busted, hbusts]
    · simp [hh.twentyOne, hbest]
    · simp [hh.blackjack, hbest]
    · simp [Hand.isFinished, hh.busted, hh.twentyOne, hopen]

end hand

namespace Game

/-- No flag at the table is stale. -/
def FlagsRight (g : Game) : Prop := ∀ s ∈ g.seats, s.hand.Right

def Unflagged (g : Game) : Prop := ∀ s ∈ g.seats, s.hand.Unflagged

/-- The hand that is dealt a card does not reach 21 with it. -/
def StaysOpen (g : Game) (op : Op) : Prop :=
  ∀ i s, g.dealsTo i op = true → g.seats[i]? = some s →
    ¬Finished (s.hand.cards.chars ++ [g.shoe.deal.1])

instance : DecidablePred Finished := fun cards =>
  decidable_of_iff (21 < (cards.map Hand.value).sum ∨ finalTotal Hand.value cards = 21)
    (or_congr busts_iff.symm twentyOne_iff.symm)

instance (g : Game) (op : Op) : Decidable (g.StaysOpen op) :=
  decidable_of_iff
    (∀ i : Fin g.seats.length, g.dealsTo i op = true →
      ¬Finished (g.seats[i].hand.cards.chars ++ [g.shoe.deal.1]))
    ⟨fun h i s hdeals hs => by
        obtain ⟨hlt, rfl⟩ := List.getElem?_eq_some_iff.mp hs
        exact h ⟨i, hlt⟩ hdeals,
      fun h i hdeals => h i _ hdeals (List.getElem?_eq_getElem i.isLt)⟩

section step
variable {g g' : Game} {op : Op} {decks : Nat}

/-- Every seat after a step is one of those before it, changed as `seat_step` says. -/
theorem forall_seats_step {P : Seat → Prop} (h : g.step op = some g')
    (hP : ∀ i s s', g.seats[i]? = some s → SeatChange g i op s s' → P s') :
    ∀ s' ∈ g'.seats, P s' := by
  intro s' hs'
  obtain ⟨i, hi⟩ := List.getElem?_of_mem hs'
  have hlt : i < g.seats.length := by
    rw [← length_step h]
    exact (List.getElem?_eq_some_iff.mp hi).1
  obtain ⟨t, ht, hchange⟩ := seat_step h (List.getElem?_eq_getElem hlt)
  obtain rfl : t = s' := Option.some.inj (ht.symm.trans hi)
  exact hP i _ _ (List.getElem?_eq_getElem hlt) hchange

theorem hand_new (h : New decks g) : ∀ s ∈ g.seats, s.hand = {} := by
  obtain ⟨rand, chips, rfl⟩ := h
  intro s hs
  simp only [new, List.mem_map] at hs
  obtain ⟨i, -, rfl⟩ := hs
  rfl

theorem unflagged_new (h : New decks g) : g.Unflagged := by
  intro s hs
  rw [hand_new h s hs]
  exact unflagged_empty

/-- No operation sets a flag. -/
theorem unflagged_step (hg : g.Unflagged) (h : g.step op = some g') : g'.Unflagged := by
  refine forall_seats_step h fun i s s' hs hchange => ?_
  have hold := hg s (List.mem_of_getElem? hs)
  cases hchange with
  | kept _ _ _ _ _ hhand => rwa [hhand]
  | cleared _ _ _ hhand =>
    rw [hhand]
    exact unflagged_empty
  | raised _ _ _ hhand => rwa [hhand]
  | dealt _ _ _ hhand =>
    rw [(Hand.deal_some hhand).2]
    exact hold.with_cards _

theorem unflagged_run {tr : List (Game × Op)} (hrun : Run step (New decks) tr g) :
    AllStates Unflagged tr g :=
  hrun.invariant (P := fun _ _ => True) (fun _ => unflagged_new)
    (fun _ _ _ hg _ h => unflagged_step hg h) fun _ _ => trivial

/-- While no card brings a hand to 21, the flags stay right. -/
theorem flagsRight_step (hflags : g.Unflagged) (hright : g.FlagsRight) (hop : g.StaysOpen op)
    (h : g.step op = some g') : g'.FlagsRight := by
  have hflags' := unflagged_step hflags h
  intro s' hs'
  rw [(hflags' s' hs').right_iff]
  refine forall_seats_step (P := fun s => ¬Finished s.hand.cards.chars) h
    (fun i s s' hs hchange => ?_) s' hs'
  have hmem := List.mem_of_getElem? hs
  have hold := (hflags s hmem).right_iff.mp (hright s hmem)
  cases hchange with
  | kept _ _ _ _ _ hhand => rwa [hhand]
  | cleared _ _ _ hhand =>
    rw [hhand]
    exact not_finished_nil
  | raised _ _ _ hhand => rwa [hhand]
  | dealt hdeals _ _ hhand =>
    rw [(Hand.deal_some hhand).1]
    exact hop i s hdeals hs

/-- A step that leaves the flags right brought no hand to 21. -/
theorem staysOpen_of_flagsRight (hflags : g.Unflagged) (h : g.step op = some g')
    (hright : g'.FlagsRight) : g.StaysOpen op := by
  intro i s hdeals hs
  obtain ⟨s', hs', hchange⟩ := seat_step h hs
  have hmem := List.mem_of_getElem? hs'
  have hopen := (unflagged_step hflags h s' hmem).right_iff.mp (hright s' hmem)
  obtain ⟨-, -, hnot⟩ := SeatChange.not_both g i op
  cases hchange with
  | kept _ _ hno => rw [hno] at hdeals; cases hdeals
  | cleared hclears => rw [(hnot hdeals).1] at hclears; cases hclears
  | raised hraises => rw [(hnot hdeals).2] at hraises; cases hraises
  | dealt _ _ _ hhand =>
    rwa [← (Hand.deal_some hhand).1]

end step

/-- The flags of all hands are right throughout a run exactly when no card that is dealt in it brings
its hand to 21 or beyond. -/
theorem flags_right_iff {decks : Nat} {tr : List (Game × Op)} {g : Game}
    (hrun : Run step (New decks) tr g) : AllStates FlagsRight tr g ↔ AllSteps StaysOpen tr := by
  constructor
  · intro hright
    have hboth : AllStates (fun g => g.Unflagged ∧ g.FlagsRight) tr g :=
      ⟨fun x hx => ⟨(unflagged_run hrun).1 x hx, hright.1 x hx⟩, (unflagged_run hrun).2, hright.2⟩
    exact hrun.allSteps_of_allStates hboth fun g op g' hg h hg' =>
      staysOpen_of_flagsRight hg.1 h hg'.2
  · intro hopen
    have hboth : AllStates (fun g => g.Unflagged ∧ g.FlagsRight) tr g := by
      refine hrun.invariant (fun g hnew => ⟨unflagged_new hnew, fun s hs => ?_⟩)
        (fun g op g' hg hop h => ⟨unflagged_step hg.1 h, flagsRight_step hg.1 hg.2 hop h⟩) hopen
      rw [(unflagged_new hnew s hs).right_iff, hand_new hnew s hs]
      exact not_finished_nil
    exact hboth.mono fun g hg => hg.2

/-- Fourteen deals in a row from a shoe in order: the second seat gets the deuce and the eight of
clubs and the ace of hearts. -/
def fourteenStarts : List Op := List.replicate 14 .start

theorem fourteenStarts_runs : (execute step fourteenStarts [] newZero).isSome := by decide +kernel

/-- Nobody notices that the second seat has 21. -/
theorem twentyOne_unnoticed :
    ∃ tr g, Run step (New 1) tr g ∧ ¬AllStates FlagsRight tr g := by
  have hrun := Run.ofIsSome _ new_newZero fourteenStarts_runs
  refine ⟨_, _, hrun, fun hright => ?_⟩
  have hseat : ∃ s ∈ ((execute step fourteenStarts [] newZero).get fourteenStarts_runs).2.seats,
      s.hand.cards.chars = [2, 8, 14] ∧ s.hand.twentyOne = false := by decide +kernel
  obtain ⟨s, hs, hcards, hflag⟩ := hseat
  have hbest := (hright.2 s hs).judged.twentyOne.mpr (by rw [hcards, twentyOne_iff]; decide)
  rw [hflag] at hbest
  cases hbest

/-- One deal less: every hand has two cards, and that of the dealer three, an ace among them. -/
def thirteenStarts : List Op := List.replicate 13 .start

theorem thirteenStarts_runs : (execute step thirteenStarts [] newZero).isSome := by decide +kernel

theorem flags_right_thirteen : ∃ tr g, Run step (New 1) tr g ∧
    (g.seats.map fun s => s.hand.cards.chars) = [[1, 7, 13], [2, 8], [3, 9], [4, 10], [5, 11], [6, 12]] ∧
    AllStates FlagsRight tr g := by
  have hrun := Run.ofIsSome _ new_newZero thirteenStarts_runs
  have hopen : AllSteps StaysOpen ((execute step thirteenStarts [] newZero).get thirteenStarts_runs).1 := by
    decide +kernel
  exact ⟨_, _, hrun, by decide +kernel, (flags_right_iff hrun).mpr hopen⟩

end Game

end BeastLounge.Blackjack
