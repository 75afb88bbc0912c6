import Mathlib.Algebra.Ring.Int.Defs
import BeastLounge.Blackjack.Play

/-!
# Chips and wagers

A bet moves 5 chips from the stack of a seat to its wager without looking at the stack. So a seat
that starts with 1000 chips is in order for as long as at most 200 bets are made from it before it
is cleared again: the bet number 201 is accepted with no chips left (`solvent_iff`).
-/

namespace BeastLounge.Blackjack

open Theory

namespace Game

/-! ### The property -/

/-- The chips and the wager of seat `i` make up the 1000 chips it started with. -/
def Solvent (i : Nat) (g : Game) : Prop :=
  ∃ s, g.seats[i]? = some s ∧ s.chips + s.wager = 1000 ∧ 0 ≤ s.chips

/-- A value of an `int`. -/
def FitsInt (x : Int) : Prop := -2 ^ 31 ≤ x ∧ x < 2 ^ 31

/-- An operation computes no chips and no wager for seat `i` that an `int` cannot hold, and refuses a
bet of its user that the chips cannot cover. -/
structure BetChecked (i : Nat) (g : Game) (op : Op) : Prop where
  fits : g.raises i op → ∀ s, g.seats[i]? = some s → FitsInt (s.wager + 5) ∧ FitsInt (s.chips - 5)
  refused : ∀ u s, op = .bet u → g.find u = i → i ≠ 0 → g.seats[i]? = some s → s.chips < 5 →
    (∃ e, (g.bet u).2 = .error e) ∧ (g.bet u).1.seats[i]? = some s

/-- At most 200 bets are made from seat `i` before it is cleared. -/
def FewBets (i : Nat) (tr : List (Game × Op)) : Prop :=
  ∀ tr', tr' <+: tr → (record i tr').raises ≤ 200

theorem fewBets_nil (i : Nat) : FewBets i [] := by
  intro tr' h
  rw [List.prefix_nil.mp h]
  exact Nat.zero_le _

theorem fewBets_snoc {i : Nat} {tr : List (Game × Op)} {g : Game} {op : Op} :
    FewBets i (tr ++ [(g, op)]) ↔ FewBets i tr ∧ ((record i tr).after g i op).raises ≤ 200 := by
  unfold FewBets
  constructor
  · intro h
    exact ⟨fun tr' h' => h tr' (h'.trans (List.prefix_append _ _)),
      record_snoc i tr g op ▸ h _ List.prefix_rfl⟩
  · rintro ⟨hall, hlast⟩ tr' h
    rcases List.prefix_concat_iff.mp h with rfl | h
    · rw [record_snoc]
      exact hlast
    · exact hall tr' h

/-! ### The values of a seat that starts with 1000 chips -/

theorem toInt_eq_self {x : Int} (h : FitsInt x) : toInt x = x := by
  unfold FitsInt at h
  apply Int.bmod_eq_of_le <;> omega

/-- The seat `s` after `n` bets since it had 1000 chips. -/
structure Staked (n : Nat) (s : Seat) : Prop where
  chips : s.chips = toInt (1000 - 5 * n)
  wager : s.wager = toInt (5 * n)

section stakes
variable {g₀ g : Game} {tr : List (Game × Op)} {i n : Nat} {s₀ s : Seat}

theorem staked_run (hrun : Run step (· = g₀) tr g) (hs₀ : g₀.seats[i]? = some s₀)
    (hchips : s₀.chips = 1000) (hwager : s₀.wager = 0) :
    ∃ s, g.seats[i]? = some s ∧ Staked (record i tr).raises s := by
  obtain ⟨g₁, rfl, hall⟩ := tally_run (i := i) hrun
  obtain ⟨s, hs, htally⟩ := hall s₀ hs₀ (by rw [hchips]; rfl) (by rw [hwager]; rfl)
  refine ⟨s, hs, ?_, ?_⟩
  · rw [htally.chips, hchips, ite_self]
  · rw [htally.wager, hwager, ite_self, Int.zero_add]

theorem Staked.values (h : Staked n s) (hn : n ≤ 200) : s.chips = 1000 - 5 * n ∧ s.wager = 5 * n := by
  have hchips : FitsInt (1000 - 5 * (n : Int)) := by unfold FitsInt; omega
  have hwager : FitsInt (5 * (n : Int)) := by unfold FitsInt; omega
  exact ⟨h.chips.trans (toInt_eq_self hchips), h.wager.trans (toInt_eq_self hwager)⟩

/-- A bet that does not raise the wager is refused. -/
theorem bet_refused {u : Player} (hu : g.find u = i) (hi : i ≠ 0) (h : g.raises i (.bet u) = false) :
    (∃ e, (g.bet u).2 = .error e) ∧ (g.bet u).1 = g := by
  subst hu
  unfold bet
  simp only [hi, if_false]
  split
  · rename_i v hstate
    simp [raises, hstate, hi] at h
  · rename_i v hstate
    simp [raises, hstate, hi] at h
  · exact ⟨⟨_, rfl⟩, rfl⟩

theorem betChecked_of_few {op : Op} (hs : g.seats[i]? = some s) (hstaked : Staked n s) (hn : n ≤ 200)
    (hnext : g.raises i op → n + 1 ≤ 200) : BetChecked i g op := by
  obtain ⟨hchips, hwager⟩ := hstaked.values hn
  constructor
  · intro hraises s' hs'
    obtain rfl : s = s' := Option.some.inj (hs.symm.trans hs')
    have := hnext hraises
    unfold FitsInt
    omega
  · rintro u s' rfl hu hi hs' hpoor
    obtain rfl : s = s' := Option.some.inj (hs.symm.trans hs')
    have hnot : g.raises i (.bet u) = false := by
      rw [← Bool.not_eq_true]
      intro hraises
      have := hnext hraises
      omega
    obtain ⟨herror, hsame⟩ := bet_refused hu hi hnot
    exact ⟨herror, by rw [hsame]; exact hs⟩

theorem solvent_of_few (hs : g.seats[i]? = some s) (hstaked : Staked n s) (hn : n ≤ 200) :
    Solvent i g := by
  obtain ⟨hchips, hwager⟩ := hstaked.values hn
  exact ⟨s, hs, by omega, by omega⟩

/-- From a seat in order, the next bet may be the last one that leaves it so. -/
theorem few_of_solvent (hs : g.seats[i]? = some s) (hstaked : Staked n s) (hn : n ≤ 201)
    (hsolvent : Solvent i g) : n ≤ 200 := by
  obtain ⟨s', hs', -, hnonneg⟩ := hsolvent
  obtain rfl : s = s' := Option.some.inj (hs.symm.trans hs')
  by_contra hlt
  obtain rfl : n = 201 := by omega
  have hneg : s.chips = -5 := hstaked.chips
  omega

theorem raises_after (r : Record) (g : Game) (i : Nat) (op : Op) :
    (r.after g i op).raises ≤ r.raises + 1 ∧
      (g.raises i op → (r.after g i op).raises = r.raises + 1) := by
  have hnot := (SeatChange.not_both g i op).2.1
  unfold Record.after
  split
  · rename_i hclears
    refine ⟨Nat.zero_le _, fun hraises => ?_⟩
    rw [(hnot hraises).1] at hclears
    cases hclears
  · split
    · exact ⟨Nat.le_refl _, fun _ => rfl⟩
    · rename_i hraises
      split <;> exact ⟨Nat.le_succ _, fun h => absurd h hraises⟩

end stakes

/-- From a seat with 1000 chips and no wager, throughout a run the chips and the wager stay 1000
together, the chips are not negative, no `int` overflows and the bets that the chips cannot cover are
refused, exactly when at most 200 bets are made from the seat before it is cleared. -/
theorem solvent_iff {g₀ g : Game} {tr : List (Game × Op)} {i : Nat} {s₀ : Seat}
    (hs₀ : g₀.seats[i]? = some s₀) (hchips : s₀.chips = 1000) (hwager : s₀.wager = 0)
    (hrun : Run step (· = g₀) tr g) :
    AllStates (Solvent i) tr g ∧ AllSteps (BetChecked i) tr ↔ FewBets i tr := by
  induction hrun with
  | nil h =>
    subst h
    refine ⟨fun _ => fewBets_nil i, fun _ => ⟨allStates_nil.mpr ?_, allSteps_nil⟩⟩
    exact ⟨s₀, hs₀, by omega, by omega⟩
  | @snoc tr g g' op hrun hstep ih =>
    obtain ⟨s, hs, hstaked⟩ := staked_run hrun hs₀ hchips hwager
    obtain ⟨s', hs', hstaked'⟩ := staked_run (hrun.snoc hstep) hs₀ hchips hwager
    rw [record_snoc] at hstaked'
    obtain ⟨hle, hraises⟩ := raises_after (record i tr) g i op
    rw [allStates_snoc, allSteps_snoc, fewBets_snoc]
    constructor
    · rintro ⟨⟨hall, hlast⟩, hchecked, -⟩
      have hfew := ih.mp ⟨hall, hchecked⟩
      have hn := hfew tr List.prefix_rfl
      exact ⟨hfew, few_of_solvent hs' hstaked' (by omega) hlast⟩
    · rintro ⟨hfew, hlast⟩
      have hn := hfew tr List.prefix_rfl
      obtain ⟨hall, hchecked⟩ := ih.mpr hfew
      refine ⟨⟨hall, solvent_of_few hs' hstaked' hlast⟩, hchecked, ?_⟩
      exact betChecked_of_few hs hstaked hn fun h => by rw [← hraises h]; exact hlast

/-! ### Runs on fixed inputs -/

/-- User 1 has joined and left: seat 1 was cleared, and user 1 still holds it. -/
def cleared : Game := ((newZero.join 1).1.leave 1).1

theorem cleared_reachable : Reachable step (New 1) cleared := by
  have hnew : Reachable step (New 1) newZero := .of_init new_newZero
  have hjoin : step newZero (.join 1) = some (newZero.join 1).1 := rfl
  have hleave : step (newZero.join 1).1 (.leave 1) = some cleared := rfl
  exact (hnew.after_step hjoin).after_step hleave

theorem seat_cleared : cleared.seats[1]? = some { state := .leaving 1, chips := 1000 } := by
  decide +kernel

/-- Two bets are fine. -/
theorem solvent_two : ∃ tr g, Run step (· = cleared) tr g ∧
    g.seats[1]? = some { state := .leaving 1, chips := 990, wager := 10 } ∧
    AllStates (Solvent 1) tr g ∧ AllSteps (BetChecked 1) tr := by
  obtain ⟨tr, g, hrun, hseat, hfew⟩ : ∃ tr g, Run step (· = cleared) tr g ∧
      g.seats[1]? = some { state := .leaving 1, chips := 990, wager := 10 } ∧ FewBets 1 tr := by
    refine ⟨_, _, Run.execute [.bet 1, .bet 1] (.nil rfl) rfl, rfl, ?_⟩
    exact fewBets_snoc.mpr ⟨fewBets_snoc.mpr ⟨fewBets_nil 1, by decide⟩, by decide⟩
  exact ⟨tr, g, hrun, hseat, (solvent_iff seat_cleared rfl rfl hrun).mpr hfew⟩

def manyBets : List Op := List.replicate 201 (.bet 1)

theorem manyBets_runs : (execute step manyBets [] cleared).isSome := by decide +kernel

/-- After 201 bets of the user who holds the seat its chips are negative. -/
theorem bets_without_chips : ¬∀ (g₀ g : Game) (tr : List (Game × Op)) (i : Nat) (s₀ : Seat)
    (u : Player), Reachable step (New 1) g₀ → g₀.seats[i]? = some s₀ → s₀.chips = 1000 →
      s₀.wager = 0 → Run step (· = g₀) tr g →
      AllStates (fun g => (g.seats[i]?).bind Seat.user = some u) tr g →
      AllStates (Solvent i) tr g ∧ AllSteps (BetChecked i) tr := by
  intro h
  have hrun := Run.ofIsSome (· = cleared) rfl manyBets_runs
  have hheld : (((execute step manyBets [] cleared).get manyBets_runs).1.all fun x =>
      decide ((x.1.seats[1]?).bind Seat.user = some 1)) = true := by decide +kernel
  have hlast : (((execute step manyBets [] cleared).get manyBets_runs).2.seats[1]?).bind Seat.user =
      some 1 := by decide +kernel
  have hpoor : (((execute step manyBets [] cleared).get manyBets_runs).2.seats[1]?).map Seat.chips =
      some (-5) := by decide +kernel
  have hall := h _ _ _ 1 _ 1 cleared_reachable seat_cleared rfl rfl hrun
    ⟨fun x hx => of_decide_eq_true (List.all_eq_true.mp hheld x hx), hlast⟩
  obtain ⟨s, hs, -, hnonneg⟩ := hall.1.2
  rw [hs] at hpoor
  have hchips : s.chips = -5 := Option.some.inj hpoor
  omega

end Game

end BeastLounge.Blackjack
