import BeastLounge.Theory.Runs
import BeastLounge.Blackjack.Game

/-!
# Sequences of operations on the game

A run of the game is a sequence of the calls its table can make. A deal that throws leaves the game
as `deal_one` left it; one that indexes `seat_` out of range is undefined and ends the run.

What an operation does to the chips, the wager and the hand of one seat is said once
(`seat_step`): it clears the seat, raises its wager, deals a card to it, or leaves them alone. A
`Record` counts the raises and the deals since the seat was cleared, and determines the three
(`tally_run`).
-/

namespace BeastLounge.Blackjack

open Theory

inductive Op
  | join (u : Player)
  | leave (u : Player)
  | surrender (u : Player)
  | bet (u : Player)
  | start
deriving DecidableEq

namespace Game

def step (g : Game) : Op → Option Game
  | .join u => some (g.join u).1
  | .leave u => some (g.leave u).1
  | .surrender u => some (g.surrender u).1
  | .bet u => some (g.bet u).1
  | .start =>
    match g.dealOne with
    | (_, .error .outOfRange) => none
    | (g, _) => some g

/-- A newly constructed game. -/
def New (decks : Nat) (g : Game) : Prop := ∃ rand chips, g = .new decks rand chips

/-- A game in which `rand()` and the uninitialized chips are zero. -/
def newZero : Game := .new 1 (fun _ => 0) fun _ => 0

theorem new_newZero : New 1 newZero := ⟨_, _, rfl⟩

/-! ### What an operation does to a seat -/

/-- `leave` finds its user playing at seat `i`. -/
def clears (g : Game) (i : Nat) : Op → Bool
  | .leave u =>
    g.find u = i && i ≠ 0 &&
      match g.seatState i with
      | some (.playing _) => true
      | _ => false
  | _ => false

/-- `bet` finds its user playing at seat `i`, or leaving it. -/
def raises (g : Game) (i : Nat) : Op → Bool
  | .bet u =>
    g.find u = i && i ≠ 0 &&
      match g.seatState i with
      | some (.playing _) => true
      | some (.leaving _) => true
      | _ => false
  | _ => false

/-- The deal is for seat `i`, and there is room in its hand. -/
def dealsTo (g : Game) (i : Nat) : Op → Bool
  | .start =>
    g.turn = i &&
      match g.dealOne.2 with
      | .ok () => true
      | .error _ => false
  | _ => false

/-- What becomes of the chips, the wager and the hand of seat `i`. -/
inductive SeatChange (g : Game) (i : Nat) (op : Op) (s s' : Seat) : Prop
  | kept (hclears : g.clears i op = false) (hraises : g.raises i op = false)
      (hdeals : g.dealsTo i op = false) (hchips : s'.chips = s.chips) (hwager : s'.wager = s.wager)
      (hhand : s'.hand = s.hand)
  | cleared (hclears : g.clears i op = true) (hchips : s'.chips = 1000) (hwager : s'.wager = 0)
      (hhand : s'.hand = {})
  | raised (hraises : g.raises i op = true) (hchips : s'.chips = toInt (s.chips - 5))
      (hwager : s'.wager = toInt (s.wager + 5)) (hhand : s'.hand = s.hand)
  | dealt (hdeals : g.dealsTo i op = true) (hchips : s'.chips = s.chips) (hwager : s'.wager = s.wager)
      (hhand : (s.hand.deal g.shoe).1 = some s'.hand)

section change
variable {g g' : Game} {op : Op} {i : Nat} {s : Seat}

theorem getElem?_modifySeat (g : Game) (j : Nat) (f : Seat → Seat) (i : Nat) :
    (g.modifySeat j f).seats[i]? = (g.seats[i]?).map fun s => if j = i then f s else s := by
  unfold modifySeat
  rw [List.getElem?_modify]
  rfl

theorem seat_join (u : Player) (hs : g.seats[i]? = some s) :
    ∃ s', (g.join u).1.seats[i]? = some s' ∧ SeatChange g i (.join u) s s' := by
  unfold join
  split
  · exact ⟨s, hs, .kept rfl rfl rfl rfl rfl rfl⟩
  · split
    · rw [getElem?_modifySeat, hs]
      refine ⟨_, rfl, ?_⟩
      split <;> exact .kept rfl rfl rfl rfl rfl rfl
    · exact ⟨s, hs, .kept rfl rfl rfl rfl rfl rfl⟩

theorem seat_surrender (u : Player) (hs : g.seats[i]? = some s) :
    ∃ s', (g.surrender u).1.seats[i]? = some s' ∧ SeatChange g i (.surrender u) s s' := by
  unfold surrender
  by_cases hu : g.find u = 0
  · simp only [hu, if_true]
    exact ⟨s, hs, .kept rfl rfl rfl rfl rfl rfl⟩
  · simp only [hu, if_false]
    rw [getElem?_modifySeat, hs]
    refine ⟨_, rfl, ?_⟩
    split <;> exact .kept rfl rfl rfl rfl rfl rfl

theorem clears_of_ne {u : Player} (h : g.find u ≠ i) : g.clears i (.leave u) = false := by
  simp [clears, h]

theorem raises_of_ne {u : Player} (h : g.find u ≠ i) : g.raises i (.bet u) = false := by
  simp [raises, h]

theorem seat_leave (u : Player) (hs : g.seats[i]? = some s) :
    ∃ s', (g.leave u).1.seats[i]? = some s' ∧ SeatChange g i (.leave u) s s' := by
  unfold leave
  by_cases hu : g.find u = 0
  · simp only [hu, if_true]
    exact ⟨s, hs, .kept (by simp [clears, hu]; omega) rfl rfl rfl rfl rfl⟩
  · simp only [hu, if_false]
    by_cases hi : g.find u = i
    · subst hi
      split
      · rename_i v hstate
        rw [getElem?_modifySeat, hs]
        exact ⟨_, rfl, .kept (by simp [clears, hstate]) rfl rfl (by simp) (by simp) (by simp)⟩
      · rename_i v hstate
        rw [getElem?_modifySeat, hs]
        exact ⟨_, rfl, .cleared (by simp [clears, hstate, hu]) (by simp [Seat.clear])
          (by simp [Seat.clear]) (by simp [Seat.clear, Hand.clear])⟩
      · rename_i hplaying
        refine ⟨s, hs, .kept ?_ rfl rfl rfl rfl rfl⟩
        cases hstate : g.seatState (g.find u) with
        | none => simp [clears, hstate]
        | some st =>
          cases st with
          | playing v => exact absurd hstate (hplaying v)
          | _ => simp [clears, hstate]
    · have hkept := clears_of_ne hi
      split
      · rw [getElem?_modifySeat, hs]
        exact ⟨s, by simp [hi], .kept hkept rfl rfl rfl rfl rfl⟩
      · rw [getElem?_modifySeat, hs]
        exact ⟨s, by simp [hi], .kept hkept rfl rfl rfl rfl rfl⟩
      · exact ⟨s, hs, .kept hkept rfl rfl rfl rfl rfl⟩

theorem seat_bet (u : Player) (hs : g.seats[i]? = some s) :
    ∃ s', (g.bet u).1.seats[i]? = some s' ∧ SeatChange g i (.bet u) s s' := by
  unfold bet
  by_cases hu : g.find u = 0
  · simp only [hu, if_true]
    exact ⟨s, hs, .kept rfl (by simp [raises, hu]; omega) rfl rfl rfl rfl⟩
  · simp only [hu, if_false]
    by_cases hi : g.find u = i
    · subst hi
      split
      · rename_i v hstate
        rw [getElem?_modifySeat, hs]
        exact ⟨_, rfl, .raised (by simp [raises, hstate, hu]) (by simp) (by simp) (by simp)⟩
      · rename_i v hstate
        rw [getElem?_modifySeat, hs]
        exact ⟨_, rfl, .raised (by simp [raises, hstate, hu]) (by simp) (by simp) (by simp)⟩
      · rename_i hplaying hleaving
        refine ⟨s, hs, .kept rfl ?_ rfl rfl rfl rfl⟩
        cases hstate : g.seatState (g.find u) with
        | none => simp [raises, hstate]
        | some st =>
          cases st with
          | playing v => exact absurd hstate (hplaying v)
          | leaving v => exact absurd hstate (hleaving v)
          | _ => simp [raises, hstate]
    · have hkept := raises_of_ne hi
      split
      · rw [getElem?_modifySeat, hs]
        exact ⟨s, by simp [hi], .kept rfl hkept rfl rfl rfl rfl⟩
      · rw [getElem?_modifySeat, hs]
        exact ⟨s, by simp [hi], .kept rfl hkept rfl rfl rfl rfl⟩
      · exact ⟨s, hs, .kept rfl hkept rfl rfl rfl rfl⟩

theorem seat_dealOne (hs : g.seats[i]? = some s) :
    ∃ s', g.dealOne.1.seats[i]? = some s' ∧ SeatChange g i .start s s' := by
  rcases g.dealOne_cases with ⟨hnone, heq⟩ | ⟨seat, hseat, ⟨hfull, heq⟩ | ⟨hand, hdeal, heq⟩⟩
  · exact ⟨s, by rw [heq]; exact hs, .kept rfl rfl (by simp [dealsTo, heq]) rfl rfl rfl⟩
  · exact ⟨s, by rw [heq]; exact hs, .kept rfl rfl (by simp [dealsTo, heq]) rfl rfl rfl⟩
  · by_cases hi : g.turn = i
    · subst hi
      obtain rfl : seat = s := Option.some.inj (hseat.symm.trans hs)
      have hlt := (List.getElem?_eq_some_iff.mp hs).1
      refine ⟨{ seat with hand }, ?_, .dealt (by simp [dealsTo, heq]) rfl rfl hdeal⟩
      rw [heq]
      exact List.getElem?_set_self hlt
    · refine ⟨s, ?_, .kept rfl rfl (by simp [dealsTo, hi]) rfl rfl rfl⟩
      rw [heq]
      exact (List.getElem?_set_ne hi).trans hs

theorem step_start (h : g.step .start = some g') : g' = g.dealOne.1 := by
  simp only [step] at h
  split at h
  · contradiction
  · rename_i heq
    rw [heq]
    exact (Option.some.inj h).symm

/-- The spec of a step, seat by seat. -/
theorem seat_step (h : g.step op = some g') (hs : g.seats[i]? = some s) :
    ∃ s', g'.seats[i]? = some s' ∧ SeatChange g i op s s' := by
  cases op with
  | join u => exact Option.some.inj h ▸ seat_join u hs
  | leave u => exact Option.some.inj h ▸ seat_leave u hs
  | surrender u => exact Option.some.inj h ▸ seat_surrender u hs
  | bet u => exact Option.some.inj h ▸ seat_bet u hs
  | start => exact step_start h ▸ seat_dealOne hs

/-- Besides a deal, an operation changes one seat at most. -/
theorem step_modifies (hop : op ≠ .start) (h : g.step op = some g') :
    g' = g ∨ ∃ j f, g' = g.modifySeat j f := by
  cases op with
  | join u =>
    obtain rfl := Option.some.inj h
    unfold join
    split
    · exact .inl rfl
    · split
      · exact .inr ⟨_, _, rfl⟩
      · exact .inl rfl
  | leave u =>
    obtain rfl := Option.some.inj h
    unfold leave
    simp only
    split
    · exact .inl rfl
    · split
      · exact .inr ⟨_, _, rfl⟩
      · exact .inr ⟨_, _, rfl⟩
      · exact .inl rfl
  | surrender u =>
    obtain rfl := Option.some.inj h
    unfold surrender
    simp only
    split
    · exact .inl rfl
    · exact .inr ⟨_, _, rfl⟩
  | bet u =>
    obtain rfl := Option.some.inj h
    unfold bet
    simp only
    split
    · exact .inl rfl
    · split
      · exact .inr ⟨_, _, rfl⟩
      · exact .inr ⟨_, _, rfl⟩
      · exact .inl rfl
  | start => exact absurd rfl hop

/-- Cards leave the shoe by deals only, in rotation. -/
theorem shoe_turn_step (hop : op ≠ .start) (h : g.step op = some g') :
    g'.shoe = g.shoe ∧ g'.turn = g.turn := by
  rcases step_modifies hop h with rfl | ⟨j, f, rfl⟩
  · exact ⟨rfl, rfl⟩
  · exact ⟨rfl, rfl⟩

/-- No operation adds a seat or takes one away. -/
theorem length_step (h : g.step op = some g') : g'.seats.length = g.seats.length := by
  by_cases hop : op = .start
  · subst hop
    obtain rfl := step_start h
    rcases g.dealOne_cases with ⟨hnone, heq⟩ | ⟨seat, hseat, ⟨hfull, heq⟩ | ⟨hand, hdeal, heq⟩⟩
    · rw [heq]
    · rw [heq]
    · rw [heq]
      exact List.length_set ..
  · rcases step_modifies hop h with rfl | ⟨j, f, rfl⟩
    · rfl
    · exact List.length_modify ..

theorem length_run {decks : Nat} (h : Reachable step (New decks) g) : g.seats.length = 6 := by
  apply h.invariant (I := fun g => g.seats.length = 6)
  · rintro g ⟨rand, chips, rfl⟩
    simp [new]
  · exact fun g op g' hlen hs => (length_step hs).trans hlen

end change

/-! ### The record of a seat -/

/-- What has happened at a seat: whether it was ever cleared, and how often its wager was raised and a
card was dealt to it since, or since the beginning. -/
structure Record where
  cleared : Bool := false
  raises : Nat := 0
  deals : Nat := 0
deriving DecidableEq

def Record.after (r : Record) (g : Game) (i : Nat) (op : Op) : Record :=
  if g.clears i op then { cleared := true }
  else if g.raises i op then { r with raises := r.raises + 1 }
  else if g.dealsTo i op then { r with deals := r.deals + 1 }
  else r

/-- The record of seat `i` along a run. -/
def record (i : Nat) (tr : List (Game × Op)) : Record :=
  tr.foldl (fun r x => r.after x.1 i x.2) {}

@[simp] theorem record_nil (i : Nat) : record i [] = {} := rfl

theorem record_snoc (i : Nat) (tr : List (Game × Op)) (g : Game) (op : Op) :
    record i (tr ++ [(g, op)]) = (record i tr).after g i op := by
  unfold record
  rw [List.foldl_append]
  rfl

theorem toInt_add (x y : Int) : toInt (toInt x + y) = toInt (x + y) := Int.bmod_add_bmod ..

theorem toInt_sub (x y : Int) : toInt (toInt x - y) = toInt (x - y) := Int.bmod_sub_bmod ..

/-- The values of the seat `s` that the record `r` leads to from those of `s₀`. -/
structure Tally (s₀ : Seat) (r : Record) (s : Seat) : Prop where
  chips : s.chips = toInt ((if r.cleared then 1000 else s₀.chips) - 5 * r.raises)
  wager : s.wager = toInt ((if r.cleared then 0 else s₀.wager) + 5 * r.raises)
  hand : s.hand = { (if r.cleared then {} else s₀.hand) with cards := s.hand.cards }
  cards : s.hand.cards.chars.length =
    (if r.cleared then 0 else s₀.hand.cards.chars.length) + r.deals

theorem SeatChange.not_both (g : Game) (i : Nat) (op : Op) :
    (g.clears i op = true → g.raises i op = false ∧ g.dealsTo i op = false) ∧
      (g.raises i op = true → g.clears i op = false ∧ g.dealsTo i op = false) ∧
      (g.dealsTo i op = true → g.clears i op = false ∧ g.raises i op = false) := by
  cases op <;> simp [clears, raises, dealsTo]

theorem tally_step {g : Game} {i : Nat} {op : Op} {s₀ s s' : Seat} {r : Record} (h : Tally s₀ r s)
    (hchange : SeatChange g i op s s') : Tally s₀ (r.after g i op) s' := by
  obtain ⟨hc, hr, hd⟩ := SeatChange.not_both g i op
  cases hchange with
  | kept hclears hraises hdeals hchips hwager hhand =>
    simp only [Record.after, hclears, hraises, hdeals, Bool.false_eq_true, if_false]
    exact ⟨hchips.trans h.chips, hwager.trans h.wager, hhand ▸ h.hand, hhand ▸ h.cards⟩
  | cleared hclears hchips hwager hhand =>
    simp only [Record.after, hclears, if_true]
    exact ⟨by rw [hchips]; rfl, by rw [hwager]; rfl, by rw [hhand]; rfl, by rw [hhand]; rfl⟩
  | raised hraises hchips hwager hhand =>
    simp only [Record.after, (hr hraises).1, hraises, Bool.false_eq_true, if_false, if_true]
    refine ⟨?_, ?_, hhand ▸ h.hand, hhand ▸ h.cards⟩
    · rw [hchips, h.chips, toInt_sub]
      congr 1
      push_cast
      omega
    · rw [hwager, h.wager, toInt_add]
      congr 1
      push_cast
      omega
  | dealt hdeals hchips hwager hhand =>
    simp only [Record.after, (hd hdeals).1, (hd hdeals).2, hdeals, Bool.false_eq_true, if_false,
      if_true]
    obtain ⟨hcards, hnew⟩ := Hand.deal_some hhand
    have hlen := congrArg List.length hcards
    rw [List.length_append, List.length_singleton, h.cards] at hlen
    refine ⟨hchips.trans h.chips, hwager.trans h.wager, ?_, by omega⟩
    rw [h.hand] at hnew
    exact hnew

/-- Along a run, the record of a seat determines its chips and its wager and counts its cards. -/
theorem tally_run {init : Game → Prop} {tr : List (Game × Op)} {g : Game} {i : Nat}
    (hrun : Run step init tr g) :
    ∃ g₀, init g₀ ∧ ∀ s₀, g₀.seats[i]? = some s₀ → toInt s₀.chips = s₀.chips →
      toInt s₀.wager = s₀.wager → ∃ s, g.seats[i]? = some s ∧ Tally s₀ (record i tr) s := by
  induction hrun with
  | @nil g₀ h =>
    refine ⟨g₀, h, fun s₀ hs₀ hchips hwager => ⟨s₀, hs₀, ?_, ?_, rfl, rfl⟩⟩
    · simp [hchips]
    · simp [hwager]
  | snoc hrun hs ih =>
    obtain ⟨g₀, hg₀, hall⟩ := ih
    refine ⟨g₀, hg₀, fun s₀ hs₀ hchips hwager => ?_⟩
    obtain ⟨s, hseat, htally⟩ := hall s₀ hs₀ hchips hwager
    obtain ⟨s', hseat', hchange⟩ := seat_step hs hseat
    exact ⟨s', hseat', by rw [record_snoc]; exact tally_step htally hchange⟩

end Game

end BeastLounge.Blackjack
