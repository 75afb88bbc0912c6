import Mathlib.Algebra.BigOperators.Ring.Finset
import Mathlib.Algebra.Order.BigOperators.Group.List
import BeastLounge.Blackjack.Game
import BeastLounge.Blackjack.Rules

/-!
# Evaluating a hand

Both copies of `hand` have an `eval`, that of the server and that of `game.hpp`. The loops are the
same; what differs is the number a card adds: `game.hpp` asks `value`, the server adds the number of
the card itself. For any such numbers the loops find the best total (`finalTotal_spec`), so
`game.hpp` evaluates by the rules, and the server by rules in which a king of diamonds counts 52.
-/

namespace BeastLounge.Blackjack

open Theory

/-- `hand::value`, the same in both copies. -/
def Hand.value (c : Nat) : Int :=
  let v := 1 + Int.tmod ((c : Int) - 1) 13
  if v > 10 then 10 else v

/-- The loop over the cards, which counts the aces and adds 11 for each of them; any other card adds
its `v`. -/
def tally (v : Nat → Int) (cards : List Nat) : Nat × Int :=
  cards.foldl (fun (aces, total) c => if v c ≠ 1 then (aces, total + v c) else (aces + 1, total + 11))
    (0, 0)

/-- `total` after the second loop, `while(total > 21 && aces--)`. -/
def finalTotal (v : Nat → Int) (cards : List Nat) : Int :=
  reduce 21 10 (tally v cards).1 (tally v cards).2

def Hand.evalBy (v : Nat → Int) (h : Hand) : Hand :=
  let total := finalTotal v h.cards.chars
  { h with
    busted := total > 21
    twentyOne := total = 21
    blackjack := total = 21 && h.cards.chars.length = 2 }

/-- `hand::eval` of the server -/
def Hand.eval (h : Hand) : Hand := h.evalBy fun c => c

def Hand.isFinished (h : Hand) : Bool := h.busted || h.twentyOne

/-- The flags `eval` sets. -/
def Hand.flags (h : Hand) : Bool × Bool × Bool := (h.busted, h.twentyOne, h.blackjack)

namespace Header

/-- The `hand` of `game.hpp`, which has the same members as the server's. -/
abbrev Hand : Type := Blackjack.Hand

/-- `hand::eval` -/
def Hand.eval (h : Hand) : Hand := h.evalBy Blackjack.Hand.value

/-- `hand::deal`; `none` when `push_back` throws. -/
def Hand.deal (h : Hand) (s : Shoe) : Option Hand × Shoe :=
  let (card, s) := s.deal
  ((h.cards.pushBack card).map fun cards => Hand.eval { h with cards }, s)

def Hand.isDone (h : Hand) : Bool := h.busted || h.twentyOne

end Header

/-! ### The loops -/

section loops
variable (v : Nat → Int) (cards : List Nat)

theorem tally_eq :
    tally v cards = (cards.countP fun c => v c = 1,
      (cards.map v).sum + 10 * ((cards.countP fun c => v c = 1 : Nat) : Int)) := by
  have hfrom : ∀ (cards : List Nat) (aces : Nat) (total : Int),
      cards.foldl (fun (p : Nat × Int) c =>
          if v c ≠ 1 then (p.1, p.2 + v c) else (p.1 + 1, p.2 + 11)) (aces, total) =
        (aces + cards.countP fun c => v c = 1,
          total + (cards.map v).sum + 10 * ((cards.countP fun c => v c = 1 : Nat) : Int)) := by
    intro cards
    induction cards with
    | nil => intro aces total; simp
    | cons c cards ih =>
      intro aces total
      rw [List.foldl_cons, List.map_cons, List.sum_cons, List.countP_cons]
      by_cases hc : v c = 1
      · simp only [hc, ne_eq, not_true_eq_false, if_false, decide_true, if_true]
        rw [ih, Prod.mk.injEq]
        exact ⟨by omega, by push_cast; omega⟩
      · simp only [hc, ne_eq, not_false_eq_true, if_true, decide_false, Bool.false_eq_true, if_false]
        rw [ih, Prod.mk.injEq]
        exact ⟨by omega, by push_cast; omega⟩
  have := hfrom cards 0 0
  rw [Nat.zero_add, Int.zero_add] at this
  exact this

theorem finalTotal_eq :
    finalTotal v cards = reduce 21 10 (cards.countP fun c => v c = 1)
      ((cards.map v).sum + 10 * ((cards.countP fun c => v c = 1 : Nat) : Int)) := by
  rw [finalTotal, tally_eq]

/-- The best total in which a card with the number 1 may count 11. -/
theorem finalTotal_spec {x : Int} :
    IsGreatest {t | Total (softValues v (fun c => v c = 1) 10) cards t ∧ t ≤ 21} x ↔
      finalTotal v cards = x ∧ x ≤ 21 := by
  rw [finalTotal_eq]
  exact isGreatest_reduce (by decide)

theorem finalTotal_congr {v v' : Nat → Int} {cards : List Nat} (h : ∀ c ∈ cards, v c = v' c) :
    finalTotal v cards = finalTotal v' cards := by
  have haces : (cards.countP fun c => v c = 1) = cards.countP fun c => v' c = 1 :=
    List.countP_congr fun c hc => by rw [h c hc]
  rw [finalTotal_eq, finalTotal_eq, haces, List.map_congr_left h]

theorem finalTotal_perm {cards' : List Nat} (h : cards.Perm cards') :
    finalTotal v cards = finalTotal v cards' := by
  rw [finalTotal_eq, finalTotal_eq, (h.map v).sum_eq, h.countP_eq]

theorem lt_finalTotal : 21 < finalTotal v cards ↔ 21 < (cards.map v).sum := by
  rw [finalTotal_eq]
  exact limit_lt_reduce (by decide)

end loops

/-! ### The rules -/

theorem value_eq (c : Nat) :
    Hand.value c = if c = 0 then 0 else if (c - 1) % 13 < 9 then (((c - 1) % 13 + 1 : Nat) : Int)
      else 10 := by
  cases c with
  | zero => rfl
  | succ n =>
    have hmod : Int.tmod (((n + 1 : Nat) : Int) - 1) 13 = ((n % 13 : Nat) : Int) := by
      rw [show ((n + 1 : Nat) : Int) - 1 = (n : Int) by omega]
      rfl
    unfold Hand.value
    simp only [hmod, Nat.add_sub_cancel, Nat.succ_ne_zero, if_false]
    split <;> split <;> omega

/-- `value` gives the least a card can count, and 1 for aces only. -/
theorem points_eq : points = softValues Hand.value (fun c => Hand.value c = 1) 10 := by
  funext c
  unfold points softValues
  simp only [value_eq]
  by_cases hc : c = 0
  · subst hc
    rfl
  · simp only [hc, if_false]
    by_cases hace : (c - 1) % 13 = 0
    · simp [hace]
    · by_cases hlow : (c - 1) % 13 < 9
      · have hne : (((c - 1) % 13 + 1 : Nat) : Int) ≠ 1 := by omega
        simp only [hace, hlow, hne, if_true, if_false, decide_false, Bool.false_eq_true]
      · simp [hlow, hace]

section header
variable {cards : List Nat}

theorem busts_iff : Busts cards ↔ 21 < (cards.map Hand.value).sum := by
  rw [← lt_finalTotal]
  unfold Busts
  rw [points_eq]
  constructor
  · intro hnone
    by_contra hle
    exact hnone ⟨_, ((finalTotal_spec _ _).mpr ⟨rfl, Int.not_lt.mp hle⟩).1⟩
  · rintro hlt ⟨t, ht, hle⟩
    obtain ⟨k, hk, rfl⟩ := total_softValues.mp ht
    have hsum := (lt_finalTotal _ _).mp hlt
    omega

theorem twentyOne_iff : TwentyOne cards ↔ finalTotal Hand.value cards = 21 := by
  unfold TwentyOne
  rw [points_eq, finalTotal_spec]
  exact and_iff_left (Int.le_refl 21)

theorem judged_evalBy (h : Hand) :
    Judged h.cards.chars (h.evalBy Hand.value).busted (h.evalBy Hand.value).twentyOne
      (h.evalBy Hand.value).blackjack where
  busted := by
    rw [busts_iff, ← lt_finalTotal]
    exact decide_eq_true_iff
  twentyOne := by
    rw [twentyOne_iff]
    exact decide_eq_true_iff
  blackjack := by
    rw [twentyOne_iff]
    show (decide _ && decide _) = true ↔ _
    rw [Bool.and_eq_true, decide_eq_true_iff, decide_eq_true_iff]

/-- The hand of `game.hpp` is evaluated by the rules, and so in the same way in whatever order its
cards come. -/
theorem header_eval_rules (h : Header.Hand) :
    (h.eval.busted = true ↔ ¬∃ t, Total points h.cards.chars t ∧ t ≤ 21) ∧
    (h.eval.twentyOne = true ↔ IsGreatest {t | Total points h.cards.chars t ∧ t ≤ 21} 21) ∧
    (h.eval.blackjack = true ↔ h.eval.twentyOne = true ∧ h.cards.chars.length = 2) ∧
    ∀ h' : Header.Hand, h'.cards.chars.Perm h.cards.chars → h'.eval.flags = h.eval.flags := by
  have hrules := judged_evalBy h
  refine ⟨hrules.busted, hrules.twentyOne, ?_, fun h' hperm => ?_⟩
  · exact hrules.blackjack.trans (and_congr_left' hrules.twentyOne.symm)
  · obtain ⟨hb, ht, hn⟩ := (judged_evalBy h').unique hrules hperm
    exact Prod.ext hb (Prod.ext ht hn)

end header

/-! ### The two evaluations -/

section compare
variable {v : Nat → Int} {c : Nat} {cards rest : List Nat}

theorem countP_le_sum (h : ∀ c ∈ cards, 0 ≤ v c) :
    ((cards.countP fun c => v c = 1 : Nat) : Int) ≤ (cards.map v).sum := by
  induction cards with
  | nil => simp
  | cons c cards ih =>
    have hc := h c (by simp)
    have hrest := ih fun d hd => h d (by simp [hd])
    rw [List.countP_cons, List.map_cons, List.sum_cons]
    by_cases hone : v c = 1
    · simp only [hone, decide_true, if_true]
      push_cast
      omega
    · simp only [hone, decide_false, Bool.false_eq_true, if_false]
      push_cast
      omega

/-- At most one ace of a hand worth 21 counts 11. -/
theorem finalTotal_eq_twentyOne (h : ∀ c ∈ cards, 0 ≤ v c) :
    finalTotal v cards = 21 ↔
      (cards.map v).sum = 21 ∨ (cards.map v).sum = 11 ∧ ∃ c ∈ cards, v c = 1 := by
  have haces : (∃ c ∈ cards, v c = 1) ↔ 0 < cards.countP fun c => v c = 1 := by
    simp [List.countP_pos_iff]
  have hle := countP_le_sum h
  obtain ⟨k, hk, heq, hlimit, habove⟩ :=
    reduce_spec 21 (cards.map v).sum 10 (cards.countP fun c => v c = 1)
  rw [finalTotal_eq, heq, haces]
  constructor
  · intro htotal
    omega
  · rintro (hsum | ⟨hsum, hpos⟩)
    · omega
    · have hk1 : 1 ≤ k := by
        by_contra hzero
        have := habove 1 (by omega) (by omega)
        omega
      omega

theorem flags_eq_iff {v' : Nat → Int} {h h' : Hand} (hcards : h'.cards = h.cards) :
    (h.evalBy v).flags = (h'.evalBy v').flags ↔
      (21 < finalTotal v h.cards.chars ↔ 21 < finalTotal v' h.cards.chars) ∧
        (finalTotal v h.cards.chars = 21 ↔ finalTotal v' h.cards.chars = 21) := by
  simp only [Hand.flags, Hand.evalBy, hcards, Prod.mk.injEq, gt_iff_lt, decide_eq_decide]
  constructor
  · exact fun hflags => ⟨hflags.1, hflags.2.1⟩
  · exact fun hsame => ⟨hsame.1, hsame.2, by rw [decide_eq_decide.mpr hsame.2]⟩

theorem value_low (hlow : 1 ≤ c) (hhigh : c ≤ 10) : Hand.value c = c := by
  rw [value_eq, if_neg (by omega)]
  split <;> omega

theorem value_clubs (hlow : 10 < c) (hhigh : c ≤ 13) : Hand.value c = 10 := by
  rw [value_eq, if_neg (by omega), if_neg (by omega)]

theorem value_hearts (hlow : 13 < c) (hhigh : c ≤ 21) : Hand.value c = c - 13 := by
  rw [value_eq, if_neg (by omega), if_pos (by omega)]
  omega

theorem value_bounds (hlow : 1 ≤ c) : 1 ≤ Hand.value c ∧ Hand.value c ≤ c := by
  rw [value_eq, if_neg (by omega)]
  split <;> omega

theorem map_value_low (h : ∀ c ∈ cards, 1 ≤ c ∧ c ≤ 10) :
    cards.map Hand.value = cards.map fun c : Nat => (c : Int) :=
  List.map_congr_left fun c hc => value_low (h c hc).1 (h c hc).2

theorem sum_map_value_le (h : ∀ c ∈ cards, 1 ≤ c) : (cards.map Hand.value).sum ≤ (cards.sum : Int) := by
  rw [Nat.cast_list_sum]
  exact List.sum_le_sum fun c hc => (value_bounds (h c hc)).2

/-- A hand with a card above 10 whose numbers add up to 21 at most: the server finds a 21 when they
add up to 21, the rules when the card is a face card of clubs next to their ace. -/
theorem twentyOne_above_ten (hc : 10 < c) (hrest : ∀ d ∈ rest, 1 ≤ d) (hsum : c + rest.sum ≤ 21) :
    (finalTotal (fun c => c) (c :: rest) = 21 ↔ c + rest.sum = 21) ∧
      (finalTotal Hand.value (c :: rest) = 21 ↔ c ≤ 13 ∧ rest = [1]) := by
  have hlow : ∀ d ∈ rest, 1 ≤ d ∧ d ≤ 10 := fun d hd =>
    ⟨hrest d hd, by have := List.single_le_sum (fun _ _ => Nat.zero_le _) d hd; omega⟩
  have hvalues : (rest.map Hand.value).sum = (rest.sum : Int) := by
    rw [map_value_low hlow, Nat.cast_list_sum]
  have hnumbers : ((c :: rest).map fun c : Nat => (c : Int)).sum = ((c + rest.sum : Nat) : Int) := by
    rw [← Nat.cast_list_sum, List.sum_cons]
  constructor
  · rw [finalTotal_eq_twentyOne (fun d _ => Int.natCast_nonneg d), hnumbers]
    constructor
    · rintro (htotal | ⟨htotal, d, hd, hone⟩)
      · omega
      · rcases List.mem_cons.mp hd with rfl | hd
        · omega
        · have := List.single_le_sum (fun _ _ => Nat.zero_le _) d hd
          omega
    · exact fun htotal => .inl (by omega)
  · have hpos : ∀ d ∈ c :: rest, 0 ≤ Hand.value d := by
      intro d hd
      have hone : 1 ≤ d := by
        rcases List.mem_cons.mp hd with rfl | hd
        · omega
        · exact hrest d hd
      exact Int.le_trans (by decide) (value_bounds hone).1
    rw [finalTotal_eq_twentyOne hpos, List.map_cons, List.sum_cons, hvalues]
    by_cases hclubs : c ≤ 13
    · rw [value_clubs hc hclubs]
      constructor
      · rintro (htotal | ⟨htotal, -⟩)
        · omega
        · refine ⟨hclubs, ?_⟩
          cases rest with
          | nil => simp at htotal
          | cons d rest =>
            have hd := hrest d (by simp)
            cases rest with
            | nil =>
              rw [List.sum_singleton] at htotal
              rw [show d = 1 by omega]
            | cons e rest =>
              have he := hrest e (by simp)
              rw [List.sum_cons, List.sum_cons] at htotal
              omega
      · rintro ⟨-, rfl⟩
        exact .inr ⟨rfl, 1, by simp, rfl⟩
    · rw [value_hearts (by omega) (by omega)]
      constructor
      · rintro (htotal | ⟨htotal, -⟩)
        · omega
        · omega
      · exact fun h => absurd h.1 hclubs

/-- The face card of clubs next to their ace. -/
theorem perm_face_iff (hc : 10 < c) (hperm : cards.Perm (c :: rest)) :
    (∃ d, 11 ≤ d ∧ d ≤ 13 ∧ cards.Perm [1, d]) ↔ c ≤ 13 ∧ rest = [1] := by
  constructor
  · rintro ⟨d, hlow, hhigh, hface⟩
    have hboth : (c :: rest).Perm [1, d] := hperm.symm.trans hface
    have hmem : c = 1 ∨ c = d := by simpa using hboth.mem_iff.mp (by simp : c ∈ c :: rest)
    obtain rfl : c = d := hmem.resolve_left (by omega)
    have hrest : rest.Perm [1] := (hboth.trans (List.Perm.swap ..)).cons_inv
    exact ⟨hhigh, List.perm_singleton.mp hrest⟩
  · rintro ⟨hhigh, rfl⟩
    exact ⟨c, hc, hhigh, hperm.trans (List.Perm.swap ..)⟩

/-- The two evaluations agree on hands of low clubs, on hands that exceed 21 by the rules, and, when
the numbers of the cards add up to less than 21, on all but a face card of clubs with their ace. -/
theorem evaluators_agree_iff {h : Hand} {h' : Header.Hand} (hsame : h'.cards = h.cards)
    (hone : ∀ c ∈ h.cards.chars, 1 ≤ c) :
    h.eval.flags = h'.eval.flags ↔
      (∀ c ∈ h.cards.chars, c ≤ 10) ∨ 21 < (h.cards.chars.map Hand.value).sum ∨
        h.cards.chars.sum < 21 ∧ ¬∃ c, 11 ≤ c ∧ c ≤ 13 ∧ h.cards.chars.Perm [1, c] := by
  unfold Hand.eval Header.Hand.eval
  rw [flags_eq_iff hsame, lt_finalTotal, lt_finalTotal, ← Nat.cast_list_sum]
  generalize h.cards.chars = cards at hone
  have hle := sum_map_value_le hone
  by_cases hlow : ∀ c ∈ cards, c ≤ 10
  · -- every card counts its number
    have hvalue := map_value_low fun c hc => ⟨hone c hc, hlow c hc⟩
    have hfinal : finalTotal Hand.value cards = finalTotal (fun c : Nat => (c : Int)) cards :=
      finalTotal_congr fun c hc => value_low (hone c hc) (hlow c hc)
    rw [hfinal, hvalue, ← Nat.cast_list_sum]
    exact ⟨fun _ => .inl hlow, fun _ => ⟨.rfl, .rfl⟩⟩
  · have hhigh : ∃ c ∈ cards, 10 < c := by
      by_contra hnone
      exact hlow fun c hc => Nat.le_of_not_lt fun hlt => hnone ⟨c, hc, hlt⟩
    obtain ⟨c, hc, hten⟩ := hhigh
    have hperm := List.perm_cons_erase hc
    have hsum : cards.sum = c + (cards.erase c).sum := by rw [hperm.sum_eq, List.sum_cons]
    have hbest : ∀ v, finalTotal v cards = finalTotal v (c :: cards.erase c) := fun v =>
      finalTotal_perm v _ hperm
    rw [hbest, hbest, perm_face_iff hten hperm]
    by_cases hbust : 21 < (cards.map Hand.value).sum
    · -- both bust
      have hserver : finalTotal (fun c : Nat => (c : Int)) cards ≠ 21 := by
        have := (lt_finalTotal (fun c : Nat => (c : Int)) cards).mpr
          (by rw [← Nat.cast_list_sum]; omega)
        omega
      have hheader : finalTotal Hand.value cards ≠ 21 := by
        have := (lt_finalTotal Hand.value cards).mpr hbust
        omega
      rw [hbest] at hserver hheader
      exact ⟨fun _ => .inr (.inl hbust),
        fun _ => ⟨iff_of_true (by omega) hbust, iff_of_false hserver hheader⟩⟩
    · simp only [hlow, hbust, false_or, iff_false]
      by_cases hfits : cards.sum ≤ 21
      · obtain ⟨hserver, hheader⟩ := twentyOne_above_ten hten
          (fun d hd => hone d (List.mem_of_mem_erase hd)) (by omega : c + (cards.erase c).sum ≤ 21)
        rw [hserver, hheader]
        constructor
        · rintro ⟨-, hagree⟩
          have hface : ¬(c ≤ 13 ∧ cards.erase c = [1]) := by
            rintro ⟨hclubs, hace⟩
            have := hagree.mpr ⟨hclubs, hace⟩
            rw [hace, List.sum_singleton] at this
            omega
          have := mt hagree.mp hface
          exact ⟨by omega, hface⟩
        · rintro ⟨hless, hface⟩
          exact ⟨by omega, iff_of_false (by omega) hface⟩
      · constructor
        · intro hagree
          omega
        · intro hless
          omega

/-- Three kings exceed 21 for both. -/
theorem evaluators_agree_kings :
    ({ cards := ⟨[13, 26, 39], by decide⟩ } : Hand).eval.flags =
      ({ cards := ⟨[13, 26, 39], by decide⟩ } : Header.Hand).eval.flags :=
  (evaluators_agree_iff (h := { cards := ⟨[13, 26, 39], by decide⟩ }) rfl (by decide)).mpr
    (.inr (.inl (by decide)))

/-- The king and the eight of clubs are a blackjack for the server, and worth 18 by the rules. -/
theorem king_counts_thirteen :
    ¬∀ (h : Hand) (h' : Header.Hand), h'.cards = h.cards →
      (∀ c ∈ h.cards.chars, 1 ≤ c ∧ c ≤ 52) → h.eval.flags = h'.eval.flags := by
  intro hall
  have h := hall { cards := ⟨[13, 8], by decide⟩ } { cards := ⟨[13, 8], by decide⟩ } rfl (by decide)
  exact absurd h (by decide)

end compare

end BeastLounge.Blackjack
