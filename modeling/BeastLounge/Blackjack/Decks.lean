import BeastLounge.Theory.Shuffle
import BeastLounge.Blackjack.Cards

/-!
# What the shoe deals

The loop of `shuffle` is the in-place shuffle whose choices are the results of `rand()`, so it makes
every order of the cards in exactly one way. And a shoe that has run out is filled again with the
same decks, so that between two shuffles it deals each of its cards once: the results of `deal` come
in blocks of whole decks.

The `shoe` of `game.hpp` keeps its cards in a `std::string`; its functions are those of the server's,
line for line, and it is the same `Shoe` here.
-/

namespace BeastLounge.Blackjack

open Theory Finset

namespace Shoe

/-! ### The choices of a shuffle -/

/-- `rand() % (cards_.size() - i)`, for each step of the loop. -/
def choices (rand : Nat → Nat) (n : Nat) : Choices n := fun i =>
  ⟨rand i % (n - i), Nat.mod_lt _ (by omega)⟩

theorem offset_choices (rand : Nat → Nat) {n i : Nat} (hi : i < n - 1) :
    (choices rand n).offset i = rand i % (n - i) := by
  rw [Choices.offset, dif_pos hi]
  rfl

theorem choices_offset {n : Nat} (r : Choices n) : choices r.offset n = r := by
  funext i
  apply Fin.ext
  show r.offset i % (n - i) = r i
  rw [Choices.offset, dif_pos i.isLt]
  exact Nat.mod_eq_of_lt (r i).isLt

theorem shuffleLoop_eq (rand : Nat → Nat) (cards : List Nat) :
    shuffleLoop rand cards = shuffleBy (choices rand cards.length).offset cards := by
  have hstep : ∀ (is v : List Nat), (∀ i ∈ is, i < cards.length - 1) → v.length = cards.length →
      is.foldl (shuffleStep rand) v = is.foldl (exchange (choices rand cards.length).offset) v := by
    intro is
    induction is with
    | nil => exact fun _ _ _ => rfl
    | cons i is ih =>
      intro v his hv
      have hsame : shuffleStep rand v i = exchange (choices rand cards.length).offset v i := by
        rw [shuffleStep, exchange, offset_choices rand (his i (by simp)), hv]
      rw [List.foldl_cons, List.foldl_cons, ← hsame]
      exact ih _ (fun j hj => his j (by simp [hj])) ((length_swap ..).trans hv)
  exact hstep _ cards (fun i hi => List.mem_range.mp hi) rfl

theorem shuffleLoop_eq_ofFn (rand : Nat → Nat) (cards : List Nat) :
    shuffleLoop rand cards = List.ofFn fun k => cards[arrangement (choices rand cards.length) k] := by
  rw [shuffleLoop_eq]
  exact shuffleBy_eq_ofFn _ rfl

/-- The card at a position of a shuffled shoe is the one that the permutation takes from the decks in
order. -/
theorem shuffle_cards (s : Shoe) : s.shuffle.cards =
    List.ofFn fun k => 1 + (arrangement (choices s.rand s.cards.length) k : Nat) % 52 := by
  have hsorted : s.shuffle.cards =
      shuffleBy (choices s.rand (sorted s.cards.length).length).offset (sorted s.cards.length) :=
    shuffleLoop_eq _ _
  rw [length_sorted] at hsorted
  rw [hsorted, shuffleBy_eq_ofFn _ (length_sorted _)]
  congr 1
  funext k
  simp [sorted]

/-- The loop makes every order of the cards in exactly one way, so that independent uniform choices
give each of them the same weight; it swaps positions of the vector only; and `shuffle` orders the
cards of the shoe in this way. -/
theorem shuffle_uniform (cards : List Nat) :
    (∀ rand, shuffleLoop rand cards =
      List.ofFn fun k => cards[arrangement (choices rand cards.length) k]) ∧
    (∀ r : Choices cards.length, ∃ rand, choices rand cards.length = r) ∧
    Function.Bijective
      (arrangement : Choices cards.length → Equiv.Perm (Fin cards.length)) ∧
    (∀ σ, ∑ r : Choices cards.length with arrangement r = σ,
      ∏ i : Fin (cards.length - 1), (1 / (cards.length - i : Nat) : Rat) =
        1 / cards.length.factorial) ∧
    (∀ rand (i : Fin (cards.length - 1)),
      i < cards.length ∧ (i : Nat) + (choices rand cards.length i : Nat) < cards.length) ∧
    ∀ s : Shoe, s.shuffle.cards =
      List.ofFn fun k => 1 + (arrangement (choices s.rand s.cards.length) k : Nat) % 52 := by
  refine ⟨fun rand => shuffleLoop_eq_ofFn rand cards, fun r => ⟨r.offset, choices_offset r⟩,
    arrangement_bijective, sum_weights_arrangement, fun rand i => ⟨by omega, ?_⟩, shuffle_cards⟩
  have hlt : (choices rand cards.length i : Nat) < cards.length - i := Fin.isLt _
  omega

/-! ### Dealing -/

/-- The results of `k` deals. -/
def results : Nat → Shoe → List Nat
  | 0, _ => []
  | k + 1, s => s.deal.1 :: results k s.deal.2

/-- The shoe they leave. -/
def after : Nat → Shoe → Shoe
  | 0, s => s
  | k + 1, s => after k s.deal.2

theorem deal_eq (s : Shoe) :
    s.deal = (s.refill.cards.getD s.refill.pos 0, { s.refill with pos := s.refill.pos + 1 }) := rfl

@[simp] theorem length_results (k : Nat) (s : Shoe) : (results k s).length = k := by
  induction k generalizing s with
  | zero => rfl
  | succ k ih => simp [results, ih]

theorem results_add (j k : Nat) (s : Shoe) :
    results (j + k) s = results j s ++ results k (after j s) := by
  induction j generalizing s with
  | zero => rw [Nat.zero_add]; rfl
  | succ j ih => rw [Nat.succ_add, results, ih]; rfl

theorem after_add (j k : Nat) (s : Shoe) : after (j + k) s = after k (after j s) := by
  induction j generalizing s with
  | zero => rw [Nat.zero_add]; rfl
  | succ j ih => rw [Nat.succ_add, after, ih]; rfl

/-- Until the end is reached, the cards come in the order in which they lie. -/
theorem deals_from {s : Shoe} {k : Nat} (h : s.pos + k ≤ s.cards.length) :
    results k s = (s.cards.drop s.pos).take k ∧ after k s = { s with pos := s.pos + k } := by
  induction k generalizing s with
  | zero => exact ⟨rfl, rfl⟩
  | succ k ih =>
    have hrefill : s.refill = s := if_neg (by omega)
    have hdeal : s.deal = (s.cards[s.pos], { s with pos := s.pos + 1 }) := by
      rw [deal_eq, hrefill, ← List.getElem_eq_getD (h := by omega) 0]
    obtain ⟨hresults, hafter⟩ :=
      ih (s := { s with pos := s.pos + 1 }) (show s.pos + 1 + k ≤ s.cards.length by omega)
    have hdrop : s.cards.drop s.pos = s.cards[s.pos] :: s.cards.drop (s.pos + 1) :=
      List.drop_eq_getElem_cons (by omega)
    constructor
    · rw [results, hdeal, hresults, hdrop, List.take_succ_cons]
    · rw [after, hdeal, hafter]
      simp only [Shoe.mk.injEq, true_and, and_true]
      omega

/-- The shoe of `decks` decks before its first card is dealt, or with its last card gone. -/
structure Whole (decks : Nat) (s : Shoe) : Prop where
  perm : s.cards.Perm (sorted (decks * 52))
  edge : s.pos = 0 ∨ s.pos = s.cards.length

section whole
variable {decks : Nat} {s : Shoe}

theorem whole_new (decks : Nat) (rand : Nat → Nat) : (new decks rand).Whole decks where
  perm := new_perm decks rand
  edge := .inl rfl

theorem Whole.length_cards (h : s.Whole decks) : s.cards.length = decks * 52 := by
  rw [h.perm.length_eq, length_sorted]

theorem Whole.nonempty (h : s.Whole decks) (hdecks : 1 ≤ decks) : s.cards ≠ [] := by
  rw [← List.length_pos_iff, h.length_cards]
  omega

/-- The next card is the first of its shuffle. -/
theorem Whole.refill (h : s.Whole decks) :
    s.refill.cards.Perm (sorted (decks * 52)) ∧ s.refill.pos = 0 := by
  unfold Shoe.refill
  split
  · exact ⟨h.length_cards ▸ s.shuffle_perm, rfl⟩
  · rename_i hend
    exact ⟨h.perm, h.edge.resolve_right hend⟩

theorem Whole.length_refill (h : s.Whole decks) : s.refill.cards.length = decks * 52 := by
  rw [h.refill.1.length_eq, length_sorted]

theorem results_refill (k : Nat) (s : Shoe) (h : s.cards ≠ []) :
    results k s.refill = results k s ∧ (1 ≤ k → after k s.refill = after k s) := by
  have hrefill : s.refill.refill = s.refill := by
    refine if_neg fun hend => ?_
    unfold Shoe.refill at hend
    split at hend
    · have hlen : 0 = s.shuffle.cards.length := hend
      rw [length_shuffle] at hlen
      exact h (List.length_eq_zero_iff.mp hlen.symm)
    · rename_i hne
      exact hne hend
  have hdeal : s.refill.deal = s.deal := by rw [deal_eq, deal_eq, hrefill]
  cases k with
  | zero => exact ⟨rfl, fun hk => absurd hk (by omega)⟩
  | succ k =>
    refine ⟨?_, fun _ => ?_⟩
    · rw [results, results, hdeal]
    · rw [after, after, hdeal]

/-- A block of deals takes the cards of one shuffle. -/
theorem Whole.results (h : s.Whole decks) (hdecks : 1 ≤ decks) {k : Nat} (hk : k ≤ decks * 52) :
    Shoe.results k s = s.refill.cards.take k := by
  have hlen := h.length_refill
  have hpos := h.refill.2
  rw [← (results_refill k s (h.nonempty hdecks)).1, (deals_from (by omega)).1, hpos, List.drop_zero]

theorem Whole.after (h : s.Whole decks) (hdecks : 1 ≤ decks) : (s.after (decks * 52)).Whole decks := by
  have hlen := h.length_refill
  obtain ⟨hperm, hpos⟩ := h.refill
  rw [← (results_refill _ s (h.nonempty hdecks)).2 (by omega), (deals_from (by omega)).2]
  exact ⟨hperm, .inr (by simp only; omega)⟩

theorem Whole.after_blocks (h : s.Whole decks) (hdecks : 1 ≤ decks) (b : Nat) :
    (s.after (b * (decks * 52))).Whole decks := by
  induction b with
  | zero => rwa [Nat.zero_mul]
  | succ b ih =>
    rw [Nat.succ_mul, after_add]
    exact ih.after hdecks

/-- Block `b` of the first `k` deals. -/
theorem Whole.block (h : s.Whole decks) (hdecks : 1 ≤ decks) (k b : Nat) :
    ∃ cards : List Nat, cards.Perm (sorted (decks * 52)) ∧
      ((Shoe.results k s).drop (b * (decks * 52))).take (decks * 52) =
        cards.take (k - b * (decks * 52)) := by
  have hwhole := h.after_blocks hdecks b
  refine ⟨_, hwhole.refill.1, ?_⟩
  have hcards := hwhole.length_refill
  by_cases hk : k ≤ b * (decks * 52)
  · rw [List.drop_eq_nil_of_le (by rw [length_results]; exact hk), Nat.sub_eq_zero_of_le hk,
      List.take_nil, List.take_zero]
  · obtain ⟨m, rfl⟩ := Nat.exists_eq_add_of_le (Nat.le_of_not_le hk)
    have hsplit := results_add (b * (decks * 52)) m s
    rw [hsplit, List.drop_left' (length_results _ _), Nat.add_sub_cancel_left]
    by_cases hm : m ≤ decks * 52
    · rw [hwhole.results hdecks hm, List.take_take, Nat.min_eq_right hm]
    · -- the block is complete, and more cards follow
      obtain ⟨e, rfl⟩ := Nat.exists_eq_add_of_le (Nat.le_of_not_le hm)
      rw [results_add, List.take_left' (length_results _ _),
        hwhole.results hdecks (Nat.le_refl _), List.take_of_length_le (by omega),
        List.take_of_length_le (by omega)]

end whole

theorem valid_after {s : Shoe} (h : s.Valid) (k : Nat) : (s.after k).Valid := by
  induction k generalizing s with
  | zero => exact h
  | succ k ih => exact ih (deal_valid h).2

theorem results_valid {s : Shoe} (h : s.Valid) {k c : Nat} (hc : c ∈ results k s) :
    1 ≤ c ∧ c ≤ 52 := by
  induction k generalizing s with
  | zero => cases hc
  | succ k ih =>
    rcases List.mem_cons.mp hc with rfl | hc
    · exact (deal_valid h).1
    · exact ih (deal_valid h).2 hc

theorem refill_pos_lt {s : Shoe} (h : s.Valid) : s.refill.pos < s.refill.cards.length := by
  unfold Shoe.refill
  split
  · exact List.length_pos_iff.mpr (valid_shuffle h.nonempty).nonempty
  · rename_i hne
    exact Nat.lt_of_le_of_ne h.pos_le hne

/-- However many cards are dealt and whatever `rand()` returns, the results come in blocks of whole
decks, the last of which may be incomplete; every deal reads a card of the shoe. -/
theorem deals_whole_decks {decks : Nat} (hdecks : 1 ≤ decks) (rand : Nat → Nat) (k : Nat) :
    (∀ b c, 1 ≤ c → c ≤ 52 →
      let block := ((results k (new decks rand)).drop (b * (decks * 52))).take (decks * 52)
      block.count c ≤ decks ∧ ((b + 1) * (decks * 52) ≤ k → block.count c = decks)) ∧
    (∀ c ∈ results k (new decks rand), 1 ≤ c ∧ c ≤ 52) ∧
    ∀ j, ((new decks rand).after j).refill.pos < ((new decks rand).after j).refill.cards.length := by
  have hvalid := valid_new hdecks rand
  refine ⟨fun b c hlow hhigh => ?_, fun c hc => results_valid hvalid hc,
    fun j => refill_pos_lt (valid_after hvalid j)⟩
  obtain ⟨cards, hperm, hblock⟩ := (whole_new decks rand).block hdecks k b
  have hcount : cards.count c = decks := by rw [hperm.count_eq, count_sorted decks hlow hhigh]
  simp only [hblock]
  refine ⟨?_, fun hk => ?_⟩
  · exact Nat.le_trans ((List.take_sublist _ _).count_le c) (Nat.le_of_eq hcount)
  · have hlen : cards.length = decks * 52 := by rw [hperm.length_eq, length_sorted]
    rw [Nat.succ_mul] at hk
    rw [List.take_of_length_le (by omega), hcount]

/-- Of 60 cards from a shoe that `rand()` leaves in order, the first 52 have one ace of clubs among
them, and the 8 that follow have at most one. -/
theorem deals_whole_decks_sixty :
    (((results 60 (new 1 fun _ => 0)).drop 0).take 52).count 1 = 1 ∧
      (((results 60 (new 1 fun _ => 0)).drop 52).take 52).count 1 ≤ 1 := by
  have h := (deals_whole_decks (Nat.le_refl 1) (fun _ => 0) 60).1
  exact ⟨(h 0 1 (by decide) (by decide)).2 (by decide), (h 1 1 (by decide) (by decide)).1⟩

end Shoe

end BeastLounge.Blackjack
