import BeastLounge.Blackjack.Decks

/-!
# Who gets which card

`start` deals one card to the seat whose turn it is, and the turn goes round all six seats, those of
the dealer and the open ones included, whoever sits there. So card number `n` of the shoe belongs to
seat `n % 6`, and a hand consists of the cards that have been dealt to its seat since this was last
cleared, as far as there is room for them (`hands_by_turn`).
-/

namespace BeastLounge.Blackjack

open Theory

/-- Card number `n` of those the shoe deals. -/
def Shoe.nth (s : Shoe) (n : Nat) : Nat := (s.after n).deal.1

theorem Shoe.after_succ (s : Shoe) (n : Nat) : s.after (n + 1) = (s.after n).deal.2 := after_add n 1 s

namespace Game

/-- The number of cards dealt when seat `i` was last cleared. The fold counts the cards as it goes. -/
def clearedAt (i : Nat) (tr : List (Game × Op)) : Nat :=
  (tr.foldl (fun c x => (if x.1.clears i x.2 then c.2 else c.1, if x.2 = .start then c.2 + 1 else c.2))
    (0, 0)).1

/-- The numbers of the cards dealt to seat `i` since it was last cleared. -/
def turns (i : Nat) (tr : List (Game × Op)) : List Nat :=
  (List.range (starts tr)).filter fun n => clearedAt i tr ≤ n ∧ n % 6 = i

section fold
variable {i : Nat} {tr : List (Game × Op)} {g : Game} {op : Op}

theorem clearedAt_snoc : clearedAt i (tr ++ [(g, op)]) =
    if g.clears i op then starts tr else clearedAt i tr := by
  have hcount : ∀ tr : List (Game × Op), (tr.foldl (fun (c : Nat × Nat) x =>
      (if x.1.clears i x.2 then c.2 else c.1, if x.2 = .start then c.2 + 1 else c.2))
      (0, 0)).2 = starts tr := by
    intro tr
    induction tr using List.reverseRecOn with
    | nil => rfl
    | append_singleton tr x ih =>
      rw [List.foldl_append, starts_snoc, List.foldl_cons, List.foldl_nil, ih]
      exact (apply_ite (starts tr + ·) (x.2 = .start) 1 0).symm
  unfold clearedAt
  rw [List.foldl_append, List.foldl_cons, List.foldl_nil, hcount]

theorem clearedAt_le (i : Nat) (tr : List (Game × Op)) : clearedAt i tr ≤ starts tr := by
  induction tr using List.reverseRecOn with
  | nil => exact Nat.le_refl 0
  | append_singleton tr x ih =>
    rw [clearedAt_snoc, starts_snoc]
    split <;> omega

/-- Nothing is dealt, and the seat is not cleared. -/
theorem turns_idle (hop : op ≠ .start) (hclears : g.clears i op = false) :
    turns i (tr ++ [(g, op)]) = turns i tr := by
  unfold turns
  rw [clearedAt_snoc, starts_snoc, if_neg hop, hclears, Nat.add_zero]
  rfl

theorem turns_cleared (hop : op ≠ .start) (hclears : g.clears i op = true) :
    turns i (tr ++ [(g, op)]) = [] := by
  unfold turns
  rw [clearedAt_snoc, starts_snoc, if_neg hop, hclears, Nat.add_zero]
  refine List.filter_eq_nil_iff.mpr fun n hn => ?_
  have hlt := List.mem_range.mp hn
  simp
  omega

theorem turns_start : turns i (tr ++ [(g, .start)]) =
    turns i tr ++ if starts tr % 6 = i then [starts tr] else [] := by
  have hle := clearedAt_le i tr
  unfold turns
  rw [clearedAt_snoc, starts_snoc, if_pos rfl, show g.clears i .start = false from rfl,
    List.range_succ, List.filter_append]
  congr 1
  simp [List.filter_cons, hle]

end fold

/-- Whose turn it is and what the hands hold, when the cards come from `s₀`. -/
structure InTurn (s₀ : Shoe) (tr : List (Game × Op)) (g : Game) : Prop where
  shoe : g.shoe = s₀.after (starts tr)
  turn : g.turn % 6 = starts tr % 6
  hands : ∀ i s, g.seats[i]? = some s → s.hand.cards.chars = ((turns i tr).take 22).map s₀.nth

section step
variable {s₀ : Shoe} {tr : List (Game × Op)} {g g' : Game} {op : Op} {i : Nat} {s s' : Seat}

theorem take_snoc (l : List Nat) (n k : Nat) :
    (l ++ [n]).take k = if l.length < k then l.take k ++ [n] else l.take k := by
  split
  · rename_i hlt
    rw [List.take_of_length_le (by rw [List.length_append, List.length_singleton]; omega),
      List.take_of_length_le (by omega)]
  · exact List.take_append_of_le_length (by omega)

/-- The card goes to its seat, or is lost because the hand is full. -/
theorem hand_start (h : InTurn s₀ tr g) (hsix : g.seats.length = 6) (hs : g.seats[i]? = some s)
    (hstep : g.step .start = some g') (hchange : SeatChange g i .start s s') :
    s'.hand.cards.chars = ((turns i (tr ++ [(g, .start)])).take 22).map s₀.nth := by
  have hlen := congrArg List.length (h.hands i s hs)
  rw [List.length_map, List.length_take] at hlen
  have hlt := (List.getElem?_eq_some_iff.mp hs).1
  have hturn := h.turn
  rw [turns_start]
  rcases g.dealOne_cases with ⟨hnone, heq⟩ | ⟨seat, hseat, hcases⟩
  · simp [step, heq] at hstep
  have hin := (List.getElem?_eq_some_iff.mp hseat).1
  cases hchange with
  | kept hclears hraises hdeals _ _ hhand =>
    rw [hhand, h.hands i s hs]
    split
    · rename_i hmine
      obtain rfl : g.turn = i := by omega
      obtain rfl : seat = s := Option.some.inj (hseat.symm.trans hs)
      -- it is the seat's turn, so its hand is full
      rcases hcases with ⟨hfull, -⟩ | ⟨hand, -, heq⟩
      · have hroom := Hand.deal_none.mp hfull
        rw [take_snoc, if_neg (by omega)]
      · simp [dealsTo, heq] at hdeals
    · rw [List.append_nil]
  | cleared hclears => cases hclears
  | raised hraises => cases hraises
  | dealt hdeals _ _ hhand =>
    obtain ⟨hcards, -⟩ := Hand.deal_some hhand
    have hmine : g.turn = i := by
      simp only [dealsTo, Bool.and_eq_true, decide_eq_true_eq] at hdeals
      exact hdeals.1
    have hroom : s.hand.cards.chars.length < 22 := by
      by_contra hfull
      rw [Hand.deal_none.mpr (by omega)] at hhand
      cases hhand
    rw [if_pos (by omega), take_snoc, if_pos (by omega), List.map_append, ← h.hands i s hs, hcards,
      h.shoe]
    rfl

theorem inTurn_step (h : InTurn s₀ tr g) (hsix : g.seats.length = 6) (hstep : g.step op = some g') :
    InTurn s₀ (tr ++ [(g, op)]) g' := by
  have hseats : ∀ i s', g'.seats[i]? = some s' → ∃ s, g.seats[i]? = some s ∧ SeatChange g i op s s' := by
    intro i s' hs'
    have hlt := (List.getElem?_eq_some_iff.mp hs').1
    rw [length_step hstep] at hlt
    obtain ⟨t, ht, hchange⟩ := seat_step hstep (List.getElem?_eq_getElem hlt)
    obtain rfl := Option.some.inj (hs'.symm.trans ht)
    exact ⟨_, List.getElem?_eq_getElem hlt, hchange⟩
  by_cases hop : op = .start
  · subst hop
    have hturn := h.turn
    refine ⟨?_, ?_, fun i s' hs' => ?_⟩
    · rw [(deal_cases hstep).1, h.shoe, starts_snoc, if_pos rfl, Shoe.after_succ]
    · have hg' := step_start hstep
      rw [starts_snoc, if_pos rfl]
      rcases g.dealOne_cases with ⟨hnone, heq⟩ | ⟨seat, hseat, ⟨hfull, heq⟩ | ⟨hand, hdeal, heq⟩⟩
      · simp [step, heq] at hstep
      · rw [hg', heq]
        show (g.turn + 1) % 6 = _
        omega
      · have hin := (List.getElem?_eq_some_iff.mp hseat).1
        rw [hg', heq]
        show (if g.turn + 1 ≥ g.seats.length then 0 else g.turn + 1) % 6 = _
        split <;> omega
    · obtain ⟨s, hs, hchange⟩ := hseats i s' hs'
      exact hand_start h hsix hs hstep hchange
  · obtain ⟨hshoe, hturn⟩ := shoe_turn_step hop hstep
    refine ⟨?_, ?_, fun i s' hs' => ?_⟩
    · rw [hshoe, h.shoe, starts_snoc, if_neg hop, Nat.add_zero]
    · rw [hturn, h.turn, starts_snoc, if_neg hop, Nat.add_zero]
    · obtain ⟨s, hs, hchange⟩ := hseats i s' hs'
      cases hchange with
      | kept hclears _ _ _ _ hhand => rw [turns_idle hop hclears, hhand, h.hands i s hs]
      | cleared hclears _ _ hhand =>
        rw [turns_cleared hop hclears, hhand]
        rfl
      | raised hraises _ _ hhand =>
        rw [turns_idle hop ((SeatChange.not_both g i op).2.1 hraises).1, hhand, h.hands i s hs]
      | dealt hdeals =>
        cases op with
        | start => exact absurd rfl hop
        | _ => cases hdeals

end step

/-- In every run of the game, the shoe has dealt one card for each `start`; the turn goes round the
six seats with these cards; and the hand at each seat, whoever has played there, holds the first 22
of the cards that have come up in its turns since the seat was last cleared, in order. -/
theorem hands_by_turn {decks : Nat} {rand : Nat → Nat} {chips : Nat → Int} {tr : List (Game × Op)}
    {g : Game} (hrun : Run step (· = new decks rand chips) tr g) :
    g.shoe = (Shoe.new decks rand).after (starts tr) ∧ g.turn % 6 = starts tr % 6 ∧
      ∀ i s, g.seats[i]? = some s →
        s.hand.cards.chars = ((turns i tr).take 22).map (Shoe.new decks rand).nth := by
  have hall : InTurn (Shoe.new decks rand) tr g := by
    induction hrun with
    | nil h =>
      subst h
      refine ⟨rfl, rfl, fun i s hs => ?_⟩
      obtain ⟨j, -, rfl⟩ := List.mem_map.mp (List.mem_of_getElem? hs)
      rfl
    | snoc hrun hs ih =>
      have hnew : Reachable step (New decks) _ := ⟨_, hrun.weaken fun g hg => ⟨rand, chips, hg⟩⟩
      exact inTurn_step ih (length_run hnew) hs
  exact ⟨hall.shoe, hall.turn, hall.hands⟩

/-- Player 7 joins and gets card 1, leaves, and then cards 7 and 13 go to the seat. -/
def twoRounds : List Op :=
  .join 7 :: List.replicate 4 .start ++ .leave 7 :: List.replicate 10 .start

theorem twoRounds_run : (execute step twoRounds [] newZero).isSome := by decide +kernel

theorem hands_by_turn_two : ∃ tr g s, Run step (New 1) tr g ∧ g.seats[1]? = some s ∧
    s.hand.cards.chars = [8, 14] := by
  have hrun := Run.ofIsSome (· = newZero) rfl twoRounds_run
  obtain ⟨s, hs⟩ := Option.isSome_iff_exists.mp
    (show (((execute step twoRounds [] newZero).get twoRounds_run).2.seats[1]?).isSome by decide +kernel)
  refine ⟨_, _, s, hrun.weaken fun g hg => hg ▸ new_newZero, hs, ?_⟩
  rw [(hands_by_turn hrun).2.2 1 s hs]
  decide +kernel

end Game

end BeastLounge.Blackjack
