import BeastLounge.Blackjack.Play

/-!
# The cards in play

The cards in the hands and those still in the shoe. Until the shoe is shuffled again they are the
cards of its decks, less those that `leave` discards. A deal from a shoe that has run out shuffles
all of its cards, whatever is still on the table, and the cards of the dealer always are: so every
reshuffle puts another copy of the decks into play (`inPlay_le`), and the first one already makes
some card occur more often than the decks contain it (`one_shoe_iff`).
-/

namespace BeastLounge.Blackjack

open Theory

/-- The cards that have not been dealt. -/
def Shoe.undealt (s : Shoe) : List Nat := s.cards.drop s.pos

/-- The shoe from which `deal` takes the next card. -/
def Shoe.refill (s : Shoe) : Shoe := if s.pos = s.cards.length then s.shuffle else s

namespace Game

/-- The cards in the hands of all seats. -/
def tableCards (g : Game) : List Nat := g.seats.flatMap fun s => s.hand.cards.chars

def inPlay (g : Game) : List Nat := g.tableCards ++ g.shoe.undealt

/-- No card is in play more often than the decks contain it. -/
def OneShoe (decks : Nat) (g : Game) : Prop := ∀ c, 1 ≤ c → c ≤ 52 → g.inPlay.count c ≤ decks

/-- The next deal shuffles. -/
def ranOut (g : Game) : Bool := g.shoe.pos = g.shoe.cards.length

/-- The number of deals in a run. -/
def starts (tr : List (Game × Op)) : Nat := tr.countP fun x => x.2 = .start

/-- The number of deals that found the shoe empty and shuffled it. -/
def reshuffles (tr : List (Game × Op)) : Nat := tr.countP fun x => x.2 = .start ∧ x.1.ranOut

/-! ### Cards on the table -/

section table
variable {g g' : Game} {op : Op} {i : Nat} {s : Seat}

theorem hand_sublist (hs : g.seats[i]? = some s) : s.hand.cards.chars.Sublist g.tableCards :=
  List.sublist_flatten_of_mem (List.mem_map.mpr ⟨s, List.mem_of_getElem? hs, rfl⟩)

/-- Only a deal brings cards to the table. -/
theorem tableCards_step (hop : op ≠ .start) (h : g.step op = some g') :
    g'.tableCards.Sublist g.tableCards := by
  apply flatMap_sublist _ (length_step h)
  intro i s hs
  obtain ⟨s', hs', hchange⟩ := seat_step h hs
  refine ⟨s', hs', ?_⟩
  cases hchange with
  | kept _ _ _ _ _ hhand => rw [hhand]
  | cleared _ _ _ hhand => rw [hhand]; exact List.nil_sublist _
  | raised _ _ _ hhand => rw [hhand]
  | dealt hdeals =>
    cases op with
    | start => exact absurd rfl hop
    | _ => cases hdeals

/-- A deal takes a card from the shoe and puts it into the hand at `turn_`, or loses it when this is
full. -/
theorem deal_cases (h : g.step .start = some g') :
    g'.shoe = g.shoe.deal.2 ∧
      (g'.tableCards.Perm (g.shoe.deal.1 :: g.tableCards) ∨
        g'.tableCards = g.tableCards ∧
          ∃ s, g.seats[g.turn]? = some s ∧ 22 ≤ s.hand.cards.chars.length) := by
  have hg' := step_start h
  rcases g.dealOne_cases with ⟨hnone, heq⟩ | ⟨seat, hseat, ⟨hfull, heq⟩ | ⟨hand, hdeal, heq⟩⟩
  · simp [step, heq] at h
  · rw [heq] at hg'
    subst hg'
    exact ⟨rfl, .inr ⟨rfl, seat, hseat, Hand.deal_none.mp hfull⟩⟩
  · rw [heq] at hg'
    subst hg'
    refine ⟨rfl, .inl (flatMap_set_perm _ hseat ?_)⟩
    show hand.cards.chars.Perm _
    rw [(Hand.deal_some hdeal).1]
    exact List.perm_append_singleton ..

/-- After a deal the seat whose turn it was has a card. -/
theorem hand_of_deal (h : g.step .start = some g') :
    ∃ s, g'.seats[g.turn]? = some s ∧ s.hand.cards.chars ≠ [] := by
  rcases g.dealOne_cases with ⟨hnone, heq⟩ | ⟨seat, hseat, ⟨hfull, heq⟩ | ⟨hand, hdeal, heq⟩⟩
  · simp [step, heq] at h
  · obtain rfl := step_start h
    have hroom := Hand.deal_none.mp hfull
    refine ⟨seat, by rw [heq]; exact hseat, fun hnil => ?_⟩
    rw [hnil] at hroom
    cases hroom
  · obtain rfl := step_start h
    refine ⟨{ seat with hand }, ?_, ?_⟩
    · rw [heq]
      exact List.getElem?_set_self (List.getElem?_eq_some_iff.mp hseat).1
    · rw [(Hand.deal_some hdeal).1]
      simp

/-- The dealer keeps its cards. -/
theorem dealer_step (h : g.step op = some g') (hs : g.seats[0]? = some s)
    (hcards : s.hand.cards.chars ≠ []) :
    ∃ s', g'.seats[0]? = some s' ∧ s'.hand.cards.chars ≠ [] := by
  obtain ⟨s', hs', hchange⟩ := seat_step h hs
  refine ⟨s', hs', ?_⟩
  cases hchange with
  | kept _ _ _ _ _ hhand => rwa [hhand]
  | cleared hclears => cases op <;> simp [clears] at hclears
  | raised _ _ _ hhand => rwa [hhand]
  | dealt _ _ _ hhand =>
    rw [(Hand.deal_some hhand).1]
    simp

end table

/-! ### How often a card is in play -/

/-- The game after `n` deals, `k` of which shuffled a shoe of `decks` decks that had run out. -/
structure FromShoe (decks n k : Nat) (g : Game) : Prop where
  perm : g.shoe.cards.Perm (Shoe.sorted (decks * 52))
  pos : n = g.shoe.pos + k * (decks * 52)
  pos_le : g.shoe.pos ≤ decks * 52
  again : 1 ≤ k → 1 ≤ g.shoe.pos
  table : ∀ c, g.tableCards.count c ≤ k * decks + (g.shoe.cards.take g.shoe.pos).count c
  first : n = 0 → g.turn = 0
  dealer : n ≠ 0 → ∃ s, g.seats[0]? = some s ∧ s.hand.cards.chars ≠ []

section shoe
variable {decks n k c : Nat} {g g' : Game} {op : Op}

theorem fromShoe_new (rand : Nat → Nat) (chips : Nat → Int) :
    FromShoe decks 0 0 (new decks rand chips) where
  perm := Shoe.new_perm decks rand
  pos := by simp [new, Shoe.new, Shoe.shuffle]
  pos_le := Nat.zero_le _
  again h := absurd h (by omega)
  table c := by simp [tableCards, new, List.range_succ, StaticString.clear]
  first _ := rfl
  dealer h := absurd rfl h

theorem FromShoe.length_cards (h : FromShoe decks n k g) : g.shoe.cards.length = decks * 52 := by
  rw [h.perm.length_eq, Shoe.length_sorted]

theorem FromShoe.count_cards (h : FromShoe decks n k g) (hlow : 1 ≤ c) (hhigh : c ≤ 52) :
    g.shoe.cards.count c = decks := by
  rw [h.perm.count_eq, Shoe.count_sorted decks hlow hhigh]

theorem FromShoe.count_cards_le (h : FromShoe decks n k g) (c : Nat) :
    g.shoe.cards.count c ≤ decks := by
  by_cases hc : 1 ≤ c ∧ c ≤ 52
  · exact Nat.le_of_eq (h.count_cards hc.1 hc.2)
  · have hnot : c ∉ g.shoe.cards := fun hmem => hc (Shoe.mem_sorted (h.perm.mem_iff.mp hmem))
    rw [List.count_eq_zero.mpr hnot]
    exact Nat.zero_le _

/-- Each filling of the shoe has brought a copy of the decks into play. -/
theorem FromShoe.inPlay_le (h : FromShoe decks n k g) (c : Nat) :
    g.inPlay.count c ≤ (k + 1) * decks := by
  have hall : (g.shoe.cards.take g.shoe.pos ++ g.shoe.cards.drop g.shoe.pos).count c ≤ decks := by
    rw [List.take_append_drop]
    exact h.count_cards_le c
  rw [List.count_append] at hall
  have htable := h.table c
  rw [inPlay, List.count_append, Nat.succ_mul]
  unfold Shoe.undealt
  omega

theorem FromShoe.step (h : FromShoe decks n k g) (hop : op ≠ .start) (hs : g.step op = some g') :
    FromShoe decks n k g' := by
  obtain ⟨hshoe, hturn⟩ := shoe_turn_step hop hs
  constructor
  · exact hshoe ▸ h.perm
  · exact hshoe ▸ h.pos
  · exact hshoe ▸ h.pos_le
  · exact hshoe ▸ h.again
  · intro c
    rw [hshoe]
    exact Nat.le_trans ((tableCards_step hop hs).count_le c) (h.table c)
  · exact hturn ▸ h.first
  · intro hn
    obtain ⟨s, hseat, hcards⟩ := h.dealer hn
    exact dealer_step hs hseat hcards

/-- What the shoe of a game is like when the next card is drawn from it. -/
theorem FromShoe.refill (h : FromShoe decks n k g) (hdecks : 1 ≤ decks) :
    let k' := if g.ranOut then k + 1 else k
    g.shoe.refill.cards.Perm (Shoe.sorted (decks * 52)) ∧
      n = g.shoe.refill.pos + k' * (decks * 52) ∧
      g.shoe.refill.pos < decks * 52 ∧
      ∀ c, g.tableCards.count c ≤ k' * decks + (g.shoe.refill.cards.take g.shoe.refill.pos).count c := by
  have hlen := h.length_cards
  have hpos := h.pos
  unfold Shoe.refill ranOut
  by_cases hout : g.shoe.pos = g.shoe.cards.length
  · simp only [hout, decide_true, if_true]
    refine ⟨hlen ▸ g.shoe.shuffle_perm, ?_, ?_, ?_⟩
    · show n = 0 + (k + 1) * (decks * 52)
      rw [Nat.succ_mul]
      omega
    · show 0 < decks * 52
      omega
    · intro c
      have htable := h.table c
      rw [hout, List.take_length] at htable
      have := h.count_cards_le c
      rw [Nat.succ_mul]
      omega
  · simp only [hout, decide_false, Bool.false_eq_true, if_false]
    have := h.pos_le
    exact ⟨h.perm, h.pos, by omega, h.table⟩

theorem FromShoe.deal (h : FromShoe decks n k g) (hdecks : 1 ≤ decks)
    (hs : g.step .start = some g') : FromShoe decks (n + 1) (if g.ranOut then k + 1 else k) g' := by
  obtain ⟨hperm, hpos, hlt, htable⟩ := h.refill hdecks
  obtain ⟨hshoe, hcards⟩ := deal_cases hs
  have hlt' : g.shoe.refill.pos < g.shoe.refill.cards.length := by
    rw [hperm.length_eq, Shoe.length_sorted]
    exact hlt
  have hcard : g.shoe.deal.1 = g.shoe.refill.cards[g.shoe.refill.pos] := by
    show g.shoe.refill.cards.getD _ 0 = _
    exact (List.getElem_eq_getD 0).symm
  have hcards' : g'.shoe.cards = g.shoe.refill.cards := by rw [hshoe]; rfl
  have hpos' : g'.shoe.pos = g.shoe.refill.pos + 1 := by rw [hshoe]; rfl
  constructor
  · rw [hcards']
    exact hperm
  · rw [hpos']
    omega
  · rw [hpos']
    exact hlt
  · intro _
    rw [hpos']
    omega
  · intro c
    have hc := htable c
    rw [hcards', hpos', List.take_succ_eq_append_getElem hlt', List.count_append, ← hcard]
    rcases hcards with hmore | ⟨hsame, -⟩
    · rw [hmore.count_eq, List.count_cons, List.count_singleton]
      omega
    · rw [hsame]
      omega
  · intro hn
    omega
  · intro _
    by_cases hn : n = 0
    · obtain ⟨s, hseat, hcards⟩ := hand_of_deal hs
      rw [h.first hn] at hseat
      exact ⟨s, hseat, hcards⟩
    · obtain ⟨s, hseat, hcards⟩ := h.dealer hn
      exact dealer_step hs hseat hcards

end shoe

/-! ### The shoe that has run out -/

section out
variable {decks n : Nat} {g g' : Game}

/-- The deal that shuffles brings the whole decks into play, with cards on the table. -/
theorem FromShoe.not_oneShoe (h : FromShoe decks n 0 g) (hdecks : 1 ≤ decks) (hout : g.ranOut = true)
    (hs : g.step .start = some g') : ¬OneShoe decks g' := by
  intro hone
  have hlen := h.length_cards
  have hempty : g.shoe.pos = g.shoe.cards.length := of_decide_eq_true hout
  have hrefill : g.shoe.refill = g.shoe.shuffle := if_pos hempty
  -- a card on the table is one of the decks, so it is in play once more
  have hmore : ∀ c ∈ g.tableCards, decks < g.tableCards.count c + g.shoe.shuffle.cards.count c ∧
      1 ≤ c ∧ c ≤ 52 := by
    intro c hc
    have hcount := List.count_pos_iff.mpr hc
    have htable := h.table c
    have hmem : c ∈ g.shoe.cards := by
      rw [← List.count_pos_iff]
      rw [hempty, List.take_length] at htable
      omega
    obtain ⟨hlow, hhigh⟩ := Shoe.mem_sorted (h.perm.mem_iff.mp hmem)
    have hshuffle := g.shoe.shuffle_perm.count_eq c
    rw [hlen, Shoe.count_sorted decks hlow hhigh] at hshuffle
    omega
  obtain ⟨hshoe, hcards⟩ := deal_cases hs
  have hdrawn : g.shoe.shuffle.cards = g.shoe.deal.1 :: g'.shoe.undealt := by
    have hpos : 0 < g.shoe.shuffle.cards.length := by
      rw [Shoe.length_shuffle]
      omega
    have hcard : g.shoe.deal.1 = g.shoe.shuffle.cards[0] := by
      show g.shoe.refill.cards.getD g.shoe.refill.pos 0 = _
      rw [hrefill]
      exact (List.getElem_eq_getD 0).symm
    have hrest : g'.shoe.undealt = g.shoe.shuffle.cards.drop 1 := by
      rw [hshoe]
      show g.shoe.refill.cards.drop (g.shoe.refill.pos + 1) = _
      rw [hrefill]
      rfl
    rw [hcard, hrest]
    exact (List.getElem_cons_drop hpos).symm.trans rfl
  rcases hcards with hdealt | ⟨hsame, s, hs, hfull⟩
  · obtain ⟨s, hseat, hne⟩ := h.dealer (by have := h.pos; omega)
    obtain ⟨c, hc⟩ := List.exists_mem_of_ne_nil _ hne
    obtain ⟨hlt, hlow, hhigh⟩ := hmore c ((hand_sublist hseat).subset hc)
    have hle := hone c hlow hhigh
    rw [inPlay, List.count_append, hdealt.count_eq, List.count_cons] at hle
    rw [hdrawn, List.count_cons] at hlt
    omega
  · -- the card drawn is lost: but a full hand has 21 more cards to show
    by_cases hother : ∃ c ∈ s.hand.cards.chars, c ≠ g.shoe.deal.1
    · obtain ⟨c, hc, hne⟩ := hother
      obtain ⟨hlt, hlow, hhigh⟩ := hmore c ((hand_sublist hs).subset hc)
      have hle := hone c hlow hhigh
      rw [inPlay, List.count_append, hsame] at hle
      rw [hdrawn, List.count_cons_of_ne (Ne.symm hne)] at hlt
      omega
    · have hsame' : ∀ c ∈ s.hand.cards.chars, g.shoe.deal.1 = c := by
        intro c hc
        by_contra hne
        exact hother ⟨c, hc, Ne.symm hne⟩
      have hcount := (hand_sublist hs).count_le g.shoe.deal.1
      rw [List.count_eq_length.mpr hsame'] at hcount
      obtain ⟨-, hlow, hhigh⟩ := hmore g.shoe.deal.1 (List.count_pos_iff.mp (by omega))
      have hle := hone _ hlow hhigh
      have hshuffle := g.shoe.shuffle_perm.count_eq g.shoe.deal.1
      rw [hlen, Shoe.count_sorted decks hlow hhigh, hdrawn, List.count_cons_self] at hshuffle
      rw [inPlay, List.count_append, hsame] at hle
      omega

end out

/-! ### Whole runs -/

section runs
variable {decks : Nat} {tr : List (Game × Op)} {g g' : Game} {op : Op}

theorem starts_snoc : starts (tr ++ [(g, op)]) = starts tr + if op = .start then 1 else 0 := by
  simp [starts, List.countP_append, List.countP_cons]

theorem reshuffles_snoc :
    reshuffles (tr ++ [(g, op)]) = reshuffles tr + if op = .start ∧ g.ranOut = true then 1 else 0 := by
  simp [reshuffles, List.countP_append, List.countP_cons]

theorem fromShoe_run (hdecks : 1 ≤ decks) (hrun : Run step (New decks) tr g) :
    FromShoe decks (starts tr) (reshuffles tr) g := by
  induction hrun with
  | nil h =>
    obtain ⟨rand, chips, rfl⟩ := h
    exact fromShoe_new rand chips
  | @snoc tr g g' op hrun hs ih =>
    rw [starts_snoc, reshuffles_snoc]
    by_cases hop : op = .start
    · subst hop
      have hdeal := ih.deal hdecks hs
      by_cases hout : g.ranOut = true
      · rw [if_pos hout] at hdeal
        rwa [if_pos rfl, if_pos ⟨rfl, hout⟩]
      · rw [if_neg hout] at hdeal
        rwa [if_pos rfl, if_neg fun h => hout h.2]
    · rw [if_neg hop, if_neg fun h => hop h.1]
      exact ih.step hop hs

theorem FromShoe.reshuffles_eq_zero {n k : Nat} (h : FromShoe decks n k g) :
    k = 0 ↔ n ≤ 52 * decks := by
  have hpos := h.pos
  have hle := h.pos_le
  constructor
  · rintro rfl
    omega
  · intro hn
    by_contra hk
    have hone := h.again (by omega)
    have := Nat.le_mul_of_pos_left (decks * 52) (Nat.pos_of_ne_zero hk)
    omega

theorem oneShoe_run (hdecks : 1 ≤ decks) (hrun : Run step (New decks) tr g) :
    AllStates (OneShoe decks) tr g ↔ reshuffles tr = 0 := by
  induction hrun with
  | nil h =>
    obtain ⟨rand, chips, rfl⟩ := h
    refine ⟨fun _ => rfl, fun _ => allStates_nil.mpr fun c _ _ => ?_⟩
    have hnew : FromShoe decks 0 0 (new decks rand chips) := fromShoe_new rand chips
    have := hnew.inPlay_le c
    omega
  | @snoc tr g g' op hrun hs ih =>
    rw [allStates_snoc, ih]
    have hfrom := fromShoe_run hdecks hrun
    have hfrom' := fromShoe_run hdecks (hrun.snoc hs)
    constructor
    · rintro ⟨hzero, hone⟩
      rw [reshuffles_snoc, hzero]
      rw [hzero] at hfrom
      by_cases hout : op = .start ∧ g.ranOut = true
      · obtain ⟨rfl, hout⟩ := hout
        exact absurd hone (hfrom.not_oneShoe hdecks hout hs)
      · rw [if_neg hout]
    · intro hzero
      rw [hzero] at hfrom'
      rw [reshuffles_snoc] at hzero
      refine ⟨by omega, fun c _ _ => ?_⟩
      have := hfrom'.inPlay_le c
      omega

end runs

/-- A card value is in play at most `decks` times for each filling of the shoe: in every state of a run
at most `decks` times exactly as long as the shoe has not been reshuffled, that is for the first
`52 * decks` deals. -/
theorem one_shoe_iff {decks : Nat} {tr : List (Game × Op)} {g : Game} (hdecks : 1 ≤ decks)
    (hrun : Run step (New decks) tr g) :
    (∀ c, g.inPlay.count c ≤ (reshuffles tr + 1) * decks) ∧
      (AllStates (OneShoe decks) tr g ↔ starts tr ≤ 52 * decks) := by
  have hfrom := fromShoe_run hdecks hrun
  refine ⟨hfrom.inPlay_le, ?_⟩
  rw [oneShoe_run hdecks hrun]
  exact hfrom.reshuffles_eq_zero

theorem twoDeals_run : (execute step [.start, .start] [] newZero).isSome := by decide +kernel

/-- Two deals from one deck. -/
theorem one_shoe_two : ∃ tr g, Run step (New 1) tr g ∧ g.tableCards = [1, 2] ∧
    AllStates (OneShoe 1) tr g := by
  have hrun := Run.ofIsSome (New 1) new_newZero twoDeals_run
  refine ⟨_, _, hrun, by decide +kernel, ((one_shoe_iff (by decide) hrun).2).mpr ?_⟩
  decide +kernel

def deals (n : Nat) : List Op := List.replicate n .start

theorem deals_run : (execute step (deals 53) [] newZero).isSome := by decide +kernel

/-- After 53 deals from one deck, the ace dealt first is in play twice. -/
theorem reshuffle_duplicates : ¬∀ (decks : Nat) (g : Game), 1 ≤ decks → decks ≤ 6 →
    Reachable step (New decks) g → OneShoe decks g := by
  intro h
  have hrun := Run.ofIsSome (New 1) new_newZero deals_run
  have htwice : ((execute step (deals 53) [] newZero).get deals_run).2.inPlay.count 1 = 2 := by
    decide +kernel
  have hone := h 1 _ (by decide) (by decide) ⟨_, hrun⟩ 1 (by decide) (by decide)
  omega

end Game

end BeastLounge.Blackjack
