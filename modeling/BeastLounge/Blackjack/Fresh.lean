import BeastLounge.Blackjack.Play

/-!
# What a new player finds

`join` changes the state of the seat it takes and nothing else: the chips, the wager and the cards
are those the seat was left with. Only `leave` clears a seat, when its user was playing; `surrender`
reopens a seat as it is, deals go to seats in rotation whether they are taken or not, and until a
seat is cleared for the first time its chips are what the constructor found in memory. So a new
player starts fresh exactly when the record of the seat says that it was cleared and that nothing
has happened to it since (`starts_fresh_iff`).

That chips are not an uninitialized value is said by letting the values found in memory vary: the
operations never look at them, so the same calls can be replayed with others (`alike_runs`).
-/

namespace BeastLounge.Blackjack

open Theory

namespace Game

/-- Seat `i` is as `seat::clear` leaves it. -/
def Fresh (i : Nat) (g : Game) : Prop :=
  ∃ s, g.seats[i]? = some s ∧ s.chips = 1000 ∧ s.wager = 0 ∧ s.hand = {}

/-- The seat was cleared; since then no card was dealt to it, and the bets made from it, 5 chips
each, come to nothing in an `int`. -/
structure Record.Renewed (r : Record) : Prop where
  cleared : r.cleared = true
  deals : r.deals = 0
  raises : toInt (5 * r.raises) = 0

/-! ### Operations do not look at chips -/

def forgetChips (g : Game) : Game := { g with seats := g.seats.map fun s => { s with chips := 0 } }

section forget
variable (g : Game) {g' : Game} {i : Nat} {op : Op}

@[simp] theorem find_forgetChips (u : Player) : g.forgetChips.find u = g.find u := by
  unfold find forgetChips
  rw [List.findIdx?_map]
  rfl

@[simp] theorem seatState_forgetChips : g.forgetChips.seatState i = g.seatState i := by
  unfold seatState forgetChips
  rw [List.getElem?_map, Option.map_map]
  rfl

theorem forgetChips_modifySeat {f f' : Seat → Seat}
    (hf : ∀ s : Seat, ({ f s with chips := 0 } : Seat) = { f' { s with chips := 0 } with chips := 0 }) :
    (g.modifySeat i f).forgetChips = (g.forgetChips.modifySeat i f').forgetChips := by
  simp only [forgetChips, modifySeat, Game.mk.injEq, true_and, and_true]
  apply List.ext_getElem?
  intro j
  simp only [List.getElem?_map, List.getElem?_modify]
  cases g.seats[j]? with
  | none => rfl
  | some s =>
    by_cases hj : i = j
    · simp [hj, hf s]
    · simp [hj]

theorem findIdx?_forgetChips :
    (g.forgetChips.seats.findIdx? fun s => s.state = .opened) =
      g.seats.findIdx? fun s => s.state = .opened := by
  unfold forgetChips
  rw [List.findIdx?_map]
  rfl

theorem join_forgetChips (u : Player) : (g.forgetChips.join u).2 = (g.join u).2 ∧
    (g.join u).1.forgetChips = (g.forgetChips.join u).1.forgetChips := by
  unfold join
  rw [find_forgetChips, findIdx?_forgetChips]
  split
  · exact ⟨rfl, by simp [forgetChips]⟩
  · split
    · exact ⟨rfl, forgetChips_modifySeat g fun _ => rfl⟩
    · exact ⟨rfl, by simp [forgetChips]⟩

theorem leave_forgetChips (u : Player) :
    (g.leave u).1.forgetChips = (g.forgetChips.leave u).1.forgetChips := by
  unfold leave
  simp only [find_forgetChips, seatState_forgetChips]
  split
  · simp [forgetChips]
  · split
    · exact forgetChips_modifySeat g fun _ => rfl
    · exact forgetChips_modifySeat g fun _ => rfl
    · simp [forgetChips]

theorem surrender_forgetChips (u : Player) :
    (g.surrender u).1.forgetChips = (g.forgetChips.surrender u).1.forgetChips := by
  unfold surrender
  simp only [find_forgetChips]
  split
  · simp [forgetChips]
  · exact forgetChips_modifySeat g fun _ => rfl

theorem bet_forgetChips (u : Player) :
    (g.bet u).1.forgetChips = (g.forgetChips.bet u).1.forgetChips := by
  unfold bet
  simp only [find_forgetChips, seatState_forgetChips]
  split
  · simp [forgetChips]
  · split
    · exact forgetChips_modifySeat g fun _ => rfl
    · exact forgetChips_modifySeat g fun _ => rfl
    · simp [forgetChips]

theorem dealOne_forgetChips : g.forgetChips.dealOne.2 = g.dealOne.2 ∧
    g.dealOne.1.forgetChips = g.forgetChips.dealOne.1.forgetChips := by
  have hseat : g.forgetChips.seats[g.turn]? =
      (g.seats[g.turn]?).map fun s => { s with chips := 0 } := List.getElem?_map ..
  have hlen : g.forgetChips.seats.length = g.seats.length := List.length_map ..
  unfold dealOne
  rw [show g.forgetChips.turn = g.turn from rfl, show g.forgetChips.shoe = g.shoe from rfl, hseat]
  cases g.seats[g.turn]? with
  | none => exact ⟨rfl, by simp [forgetChips]⟩
  | some s =>
    simp only [Option.map_some]
    split
    · exact ⟨rfl, by simp [forgetChips]⟩
    · refine ⟨rfl, ?_⟩
      rw [hlen]
      simp only [forgetChips, List.map_set, List.map_map]
      rfl

end forget

/-- The games differ at most in their chips. -/
def Alike (g g' : Game) : Prop := g.forgetChips = g'.forgetChips

section alike
variable {g g' t : Game} {op : Op} {u : Player}

theorem Alike.find (h : Alike g g') (u : Player) : g.find u = g'.find u := by
  rw [← find_forgetChips g, ← find_forgetChips g', h]

theorem Alike.seatState (h : Alike g g') (i : Nat) : g.seatState i = g'.seatState i := by
  rw [← seatState_forgetChips g, ← seatState_forgetChips g', h]

theorem Alike.dealOne (h : Alike g g') : g.dealOne.2 = g'.dealOne.2 := by
  rw [← (dealOne_forgetChips g).1, ← (dealOne_forgetChips g').1, h]

theorem Alike.join (h : Alike g g') (u : Player) : (g.join u).2 = (g'.join u).2 := by
  rw [← (join_forgetChips g u).1, ← (join_forgetChips g' u).1, h]

theorem Alike.after (h : Alike g g') (r : Record) (i : Nat) (op : Op) :
    r.after g i op = r.after g' i op := by
  have hturn : g.forgetChips.turn = g'.forgetChips.turn := congrArg Game.turn h
  have hclears : g.clears i op = g'.clears i op := by
    cases op <;> simp [clears, h.find, h.seatState]
  have hraises : g.raises i op = g'.raises i op := by
    cases op <;> simp [raises, h.find, h.seatState]
  have hdeals : g.dealsTo i op = g'.dealsTo i op := by
    cases op <;> simp [dealsTo, show g.turn = g'.turn from hturn, h.dealOne]
  unfold Record.after
  rw [hclears, hraises, hdeals]

theorem step_start_eq (hdeal : g.dealOne.2 ≠ .error .outOfRange) :
    g.step .start = some g.dealOne.1 := by
  rcases heq : g.dealOne with ⟨g', r⟩
  rw [heq] at hdeal
  cases r with
  | ok a => simp [Game.step, heq]
  | error f =>
    cases f with
    | lengthError => simp [Game.step, heq]
    | outOfRange => exact absurd rfl hdeal

theorem dealOne_of_step (h : g.step .start = some t) : g.dealOne.2 ≠ .error .outOfRange := by
  rcases hdeal : g.dealOne with ⟨g', r⟩
  rintro rfl
  simp [Game.step, hdeal] at h

/-- What one game can do, the other can do, and they stay alike. -/
theorem Alike.step (h : Alike g g') (hs : g.step op = some t) :
    ∃ t', g'.step op = some t' ∧ Alike t t' := by
  cases op with
  | join u =>
    obtain rfl := Option.some.inj hs
    refine ⟨_, rfl, ?_⟩
    unfold Alike
    rw [(join_forgetChips g u).2, (join_forgetChips g' u).2, h]
  | leave u =>
    obtain rfl := Option.some.inj hs
    refine ⟨_, rfl, ?_⟩
    unfold Alike
    rw [leave_forgetChips g u, leave_forgetChips g' u, h]
  | surrender u =>
    obtain rfl := Option.some.inj hs
    refine ⟨_, rfl, ?_⟩
    unfold Alike
    rw [surrender_forgetChips g u, surrender_forgetChips g' u, h]
  | bet u =>
    obtain rfl := Option.some.inj hs
    refine ⟨_, rfl, ?_⟩
    unfold Alike
    rw [bet_forgetChips g u, bet_forgetChips g' u, h]
  | start =>
    have hdeal := dealOne_of_step hs
    obtain rfl := step_start hs
    refine ⟨_, step_start_eq (h.dealOne ▸ hdeal), ?_⟩
    unfold Alike
    rw [(dealOne_forgetChips g).2, (dealOne_forgetChips g').2, h]

end alike

/-! ### The same calls from other chips -/

section replay
variable {decks : Nat} {rand : Nat → Nat} {chips chips' : Nat → Int} {tr tr' : List (Game × Op)}
  {g g' : Game}

theorem alike_new : Alike (.new decks rand chips) (.new decks rand chips') := by
  simp [Alike, forgetChips, new]

/-- Two runs that make the same calls stay alike, and the records of their seats agree. -/
theorem alike_runs (hrun : Run step (· = .new decks rand chips) tr g)
    (hrun' : Run step (· = .new decks rand chips') tr' g')
    (hops : tr'.map Prod.snd = tr.map Prod.snd) :
    Alike g g' ∧ ∀ i, record i tr = record i tr' := by
  induction hrun generalizing tr' g' with
  | nil h =>
    subst h
    cases hrun' with
    | nil h' =>
      subst h'
      exact ⟨alike_new, fun _ => rfl⟩
    | snoc hrun' hs' => simp at hops
  | @snoc tr g t op hrun hs ih =>
    cases hrun' with
    | nil h' => simp at hops
    | @snoc tr' g' _ op' hrun' hs' =>
      rw [List.map_append, List.map_append] at hops
      obtain ⟨hops', hop⟩ := List.append_inj' hops rfl
      obtain rfl : op' = op := by simpa using hop
      obtain ⟨halike, hrecord⟩ := ih hrun' hops'
      obtain ⟨u'', ht, halike'⟩ := halike.step hs
      cases hs'.symm.trans ht
      exact ⟨halike', fun i => by rw [record_snoc, record_snoc, hrecord, halike.after]⟩

/-- The calls of a run can be made whatever the uninitialized chips are. -/
theorem replay (hrun : Run step (· = .new decks rand chips) tr g) (chips' : Nat → Int) :
    ∃ tr' g', Run step (· = .new decks rand chips') tr' g' ∧
      tr'.map Prod.snd = tr.map Prod.snd := by
  induction hrun with
  | nil h => exact ⟨[], _, .nil rfl, rfl⟩
  | @snoc tr g t op hrun hs ih =>
    obtain ⟨tr', g', hrun', hops⟩ := ih
    obtain ⟨t', ht, -⟩ := (alike_runs hrun hrun' hops).1.step hs
    exact ⟨_, t', hrun'.snoc ht, by rw [List.map_append, List.map_append, hops]; rfl⟩

end replay

/-! ### The seat that is taken -/

section join
variable {g : Game} {u : Player} {i : Nat}

theorem lt_of_join (hjoin : (g.join u).2 = .ok i) : i < g.seats.length := by
  unfold join at hjoin
  split at hjoin
  · cases hjoin
  · split at hjoin
    · rename_i j hj
      cases hjoin
      exact (List.findIdx?_eq_some_iff_getElem.mp hj).1
    · cases hjoin

/-- `join` leaves the chips, the wager and the hand of the seat it takes. -/
theorem fresh_join (hjoin : (g.join u).2 = .ok i) : Fresh i (g.join u).1 ↔ Fresh i g := by
  obtain ⟨s', hs', hchange⟩ := seat_join u (List.getElem?_eq_getElem (lt_of_join hjoin))
  cases hchange with
  | kept hclears hraises hdeals hchips hwager hhand =>
    unfold Fresh
    rw [hs', List.getElem?_eq_getElem (lt_of_join hjoin)]
    simp only [Option.some.injEq, exists_eq_left', hchips, hwager, hhand]
  | cleared h => cases h
  | raised h => cases h
  | dealt h => cases h

end join

section tally
variable {decks : Nat} {rand : Nat → Nat} {chips : Nat → Int} {tr : List (Game × Op)} {g : Game}
  {i : Nat} {s : Seat} {r : Record} {state : SeatState} {c : Int}

/-- The hand of a seat that began with an empty one is empty when it was dealt no card. -/
theorem Tally.hand_eq_iff (h : Tally { state, chips := c } r s) : s.hand = {} ↔ r.deals = 0 := by
  have hhand := h.hand
  have hcards := h.cards
  rw [ite_self] at hhand
  rw [show (if r.cleared = true then 0 else
    ({ state, chips := c } : Seat).hand.cards.chars.length) = 0 from ite_self _, Nat.zero_add] at hcards
  constructor
  · intro hempty
    rw [← hcards, hempty]
    rfl
  · intro hdeals
    have hnil : s.hand.cards = .clear := by
      rcases hc : s.hand.cards with ⟨chars, hle⟩
      rw [hc, hdeals] at hcards
      obtain rfl : chars = [] := List.length_eq_zero_iff.mp hcards
      rfl
    rw [hhand, hnil]

theorem toInt_sub_of_zero {x : Int} (y : Int) (h : toInt x = 0) : toInt (y - x) = toInt y := by
  have hsub : toInt (y - toInt x) = toInt (y - x) := Int.sub_bmod_bmod ..
  rw [← hsub, h, Int.sub_zero]

theorem Tally.fresh (h : Tally { state, chips := c } r s) (hr : r.Renewed) :
    s.chips = 1000 ∧ s.wager = 0 ∧ s.hand = {} := by
  refine ⟨?_, ?_, h.hand_eq_iff.mpr hr.deals⟩
  · rw [h.chips, hr.cleared, if_pos rfl, toInt_sub_of_zero _ hr.raises]
    rfl
  · rw [h.wager, ite_self, Int.zero_add]
    exact hr.raises

/-- With chips other than 1000 in the beginning, a fresh seat is one that was cleared. -/
theorem Tally.renewed (h : Tally { state, chips := 0 } r s) (hchips : s.chips = 1000)
    (hwager : s.wager = 0) (hhand : s.hand = {}) : r.Renewed := by
  have hraises : toInt (5 * r.raises) = 0 := by
    rw [← hwager, h.wager, ite_self, Int.zero_add]
  refine ⟨?_, h.hand_eq_iff.mp hhand, hraises⟩
  by_contra hcleared
  have hzero := h.chips
  rw [if_neg hcleared, toInt_sub_of_zero _ hraises, hchips] at hzero
  cases hzero

theorem tally_new (hi : i < 6) (hrun : Run step (· = .new decks rand chips) tr g) :
    ∃ s state, g.seats[i]? = some s ∧ Tally { state, chips := toInt (chips i) } (record i tr) s := by
  obtain ⟨g₀, rfl, hall⟩ := tally_run (i := i) hrun
  have hnew : (new decks rand chips).seats[i]? =
      some { state := if i = 0 then .dealer else .opened, chips := toInt (chips i) } := by
    simp [new, hi]
  obtain ⟨s, hs, htally⟩ := hall _ hnew (Int.bmod_bmod ..) rfl
  exact ⟨s, _, hs, htally⟩

end tally

/-- When a player is seated, whatever values the chips had when the game was constructed, the seat has
1000 chips, no wager and an empty hand, exactly when it has been cleared and since then no card was
dealt to it and no bet made from it (or bets that add up to nothing). -/
theorem starts_fresh_iff {decks : Nat} {rand : Nat → Nat} {chips : Nat → Int} {tr : List (Game × Op)}
    {g : Game} {u : Player} {i : Nat} (hrun : Run step (· = .new decks rand chips) tr g)
    (hjoin : (g.join u).2 = .ok i) :
    (∀ chips' tr' g', Run step (· = .new decks rand chips') tr' g' →
        tr'.map Prod.snd = tr.map Prod.snd → Fresh i (g'.join u).1) ↔
      (record i tr).Renewed := by
  have hreach : Reachable step (New decks) g := by
    exact ⟨tr, hrun.weaken fun _ h => ⟨rand, chips, h⟩⟩
  have hi : i < 6 := length_run hreach ▸ lt_of_join hjoin
  constructor
  · intro hall
    -- replay the calls with no chips found in memory
    obtain ⟨tr', g', hrun', hops⟩ := replay hrun fun _ => 0
    obtain ⟨halike, hrecord⟩ := alike_runs hrun hrun' hops
    obtain ⟨s, state, hs, htally⟩ := tally_new hi hrun'
    obtain ⟨s', hs', hchips, hwager, hhand⟩ :=
      (fresh_join (halike.join u ▸ hjoin)).mp (hall _ _ _ hrun' hops)
    obtain rfl : s = s' := Option.some.inj (hs.symm.trans hs')
    rw [hrecord]
    exact htally.renewed hchips hwager hhand
  · intro hrenewed chips' tr' g' hrun' hops
    obtain ⟨halike, hrecord⟩ := alike_runs hrun hrun' hops
    obtain ⟨s, state, hs, htally⟩ := tally_new hi hrun'
    rw [fresh_join (halike.join u ▸ hjoin)]
    exact ⟨s, hs, htally.fresh (hrecord i ▸ hrenewed)⟩

/-- User 1 joins, leaves and gives up seat 1. -/
def seatRenewed : List Op := [.join 1, .leave 1, .surrender 1]

theorem seatRenewed_runs : (execute step seatRenewed [] newZero).isSome := by decide +kernel

/-- User 2 takes the seat that user 1 has left. -/
theorem starts_fresh_second : ∃ tr g, Run step (· = newZero) tr g ∧ (g.join 2).2 = .ok 1 ∧
    Fresh 1 (g.join 2).1 := by
  have hrun := Run.ofIsSome (· = newZero) rfl seatRenewed_runs
  have hjoin : (((execute step seatRenewed [] newZero).get seatRenewed_runs).2.join 2).2 = .ok 1 := by
    decide +kernel
  have hrecord : record 1 ((execute step seatRenewed [] newZero).get seatRenewed_runs).1 =
      { cleared := true } := by decide +kernel
  have hfresh := (starts_fresh_iff hrun hjoin).mpr (hrecord ▸ ⟨rfl, rfl, rfl⟩)
  exact ⟨_, _, hrun, hjoin, hfresh _ _ _ hrun rfl⟩

/-- The first player at a table finds the chips that were in memory. -/
theorem first_player_not_fresh : ¬∀ (rand : Nat → Nat) (chips : Nat → Int) (tr : List (Game × Op))
    (g : Game) (u : Player) (i : Nat), Run step (· = .new 1 rand chips) tr g →
      (g.join u).2 = .ok i → Fresh i (g.join u).1 := by
  intro h
  have hjoin : (newZero.join 1).2 = .ok 1 := by decide +kernel
  obtain ⟨s, hs, hchips, -⟩ := h _ _ [] newZero 1 1 (.nil rfl) hjoin
  have hzero : ((newZero.join 1).1.seats[1]?).map Seat.chips = some 0 := by decide +kernel
  rw [hs] at hzero
  have hnone : s.chips = 0 := Option.some.inj hzero
  omega

end Game

end BeastLounge.Blackjack
