import BeastLounge.Blackjack.Play
import BeastLounge.Blackjack.Seating

/-!
# Seats as they are in memory

`seat` has a pointer `u` and a state side by side. A seat that is opened keeps the pointer to the
user who had it, `find` passes over seats by their state, and the 0 it returns for a user without a
seat is also the index of the dealer. `Game` of this module has that layout.

It refines the game whose seats name a user in the states that have one (`refines_run`): in every
state reached the dealer's pointer is null and the pointer of a taken seat is not, so `find` of the
two games agree. Who may sit where follows from the arrangement of the seats of that game.
-/

namespace BeastLounge.Blackjack.Layout

open Theory

/-- `seat::state_t` -/
inductive StateT
  | dealer
  | waiting
  | playing
  | leaving
  | opened
deriving DecidableEq

structure Seat where
  u : Option Player := none
  state : StateT := .opened
  /-- `hands[0]` -/
  hand : Hand := {}
  chips : Int
  wager : Int := 0
deriving DecidableEq

def Seat.clear (s : Seat) : Seat := { s with hand := s.hand.clear, wager := 0, chips := 1000 }

structure Game where
  s : GameState := .wait
  shoe : Shoe
  seats : List Seat
  turn : Nat := 0

namespace Game

def new (decks : Nat) (rand : Nat → Nat) (chips : Nat → Int) : Game where
  shoe := .new decks rand
  seats := (List.range 6).map fun i =>
    { state := if i = 0 then .dealer else .opened, chips := toInt (chips i) }

def find (g : Game) (u : Player) : Nat :=
  (g.seats.findIdx? fun s => s.state ≠ .opened ∧ s.u = some u).getD 0

def modifySeat (g : Game) (i : Nat) (f : Seat → Seat) : Game :=
  { g with seats := g.seats.modify i f }

def seatState (g : Game) (i : Nat) : Option StateT := (g.seats[i]?).map (·.state)

def join (g : Game) (u : Player) : Game × Except Error Nat :=
  if g.find u ≠ 0 then (g, .error .alreadyPlaying)
  else
    match g.seats.findIdx? fun s => s.state = .opened with
    | some i => (g.modifySeat i fun s => { s with u := some u, state := .playing }, .ok i)
    | none => (g, .error .noOpenSeat)

def leave (g : Game) (u : Player) : Game × Except Error Nat :=
  let i := g.find u
  if i = 0 then (g, .error .notPlaying)
  else
    match g.seatState i with
    | some .waiting => (g.modifySeat i fun s => { s with state := .opened }, .ok 2)
    | some .playing => (g.modifySeat i fun s => { s with state := .leaving }.clear, .ok 1)
    | _ => (g, .error .alreadyLeaving)

def surrender (g : Game) (u : Player) : Game × Int :=
  let i := g.find u
  if i = 0 then (g, -1)
  else (g.modifySeat i fun s => { s with state := .opened }, 1)

def bet (g : Game) (u : Player) : Game × Except Error Unit :=
  let i := g.find u
  if i = 0 then (g, .error .notPlaying)
  else
    let size := 5
    let raise := g.modifySeat i fun s =>
      { s with wager := toInt (s.wager + size), chips := toInt (s.chips - size) }
    match g.seatState i with
    | some .playing => (raise, .ok ())
    | some .leaving => (raise, .ok ())
    | _ => (g, .error .noMoreBets)

def dealOne (g : Game) : Game × Except Fault Unit :=
  match g.seats[g.turn]? with
  | none => (g, .error .outOfRange)
  | some seat =>
    let turn := g.turn + 1
    match seat.hand.deal g.shoe with
    | (none, shoe) => ({ g with shoe, turn }, .error .lengthError)
    | (some hand, shoe) =>
      ({ g with
          shoe
          seats := g.seats.set g.turn { seat with hand }
          turn := if turn ≥ g.seats.length then 0 else turn },
        .ok ())

def step (g : Game) : Op → Option Game
  | .join u => some (g.join u).1
  | .leave u => some (g.leave u).1
  | .surrender u => some (g.surrender u).1
  | .bet u => some (g.bet u).1
  | .start =>
    match g.dealOne with
    | (_, .error .outOfRange) => none
    | (g, _) => some g

def New (decks : Nat) (g : Game) : Prop := ∃ rand chips, g = .new decks rand chips

end Game

/-! ### The seats without stale pointers -/

/-- The state with its user. -/
def Seat.seatState (s : Seat) : SeatState :=
  match s.state, s.u with
  | .dealer, _ => .dealer
  | .waiting, some u => .waiting u
  | .playing, some u => .playing u
  | .leaving, some u => .leaving u
  | _, _ => .opened

def Seat.abs (s : Seat) : Blackjack.Seat where
  state := s.seatState
  hand := s.hand
  chips := s.chips
  wager := s.wager

def Game.abs (g : Game) : Blackjack.Game where
  s := g.s
  shoe := g.shoe
  seats := g.seats.map Seat.abs
  turn := g.turn

/-- The pointer is null in the dealer's seat, and not in a seat that is taken. -/
structure Seat.Pointed (s : Seat) : Prop where
  dealer : s.state = .dealer → s.u = none
  taken : s.state ≠ .dealer → s.state ≠ .opened → ∃ u, s.u = some u

namespace Seat

variable {s : Seat}

theorem user_abs (h : s.Pointed) : s.abs.user = if s.state = .opened then none else s.u := by
  obtain ⟨u, state, hand, chips, wager⟩ := s
  have hdealer := h.dealer
  have htaken := h.taken
  cases state with
  | dealer =>
    obtain rfl := hdealer rfl
    rfl
  | opened => rfl
  | _ =>
    obtain ⟨v, rfl⟩ := htaken nofun nofun
    rfl

theorem opened_abs (h : s.Pointed) : s.abs.state = .opened ↔ s.state = .opened := by
  obtain ⟨u, state, hand, chips, wager⟩ := s
  have htaken := h.taken
  cases state with
  | dealer => exact ⟨nofun, nofun⟩
  | opened => exact ⟨fun _ => rfl, fun _ => rfl⟩
  | _ =>
    obtain ⟨v, rfl⟩ := htaken nofun nofun
    exact ⟨nofun, nofun⟩

end Seat

namespace Game

def Pointed (g : Game) : Prop := ∀ s ∈ g.seats, s.Pointed

section abs
variable {g g' : Game} {u : Player} {op : Op} {i : Nat}

theorem getElem?_abs (g : Game) (i : Nat) : g.abs.seats[i]? = (g.seats[i]?).map Seat.abs :=
  List.getElem?_map ..

theorem find_abs (h : g.Pointed) (u : Player) : g.abs.find u = g.find u := by
  unfold Blackjack.Game.find find abs
  rw [List.findIdx?_map]
  congr 1
  apply findIdx?_congr
  intro s hs
  simp only [Function.comp_apply, Seat.user_abs (h s hs)]
  by_cases hopen : s.state = .opened <;> simp [hopen]

theorem findIdx?_opened_abs (h : g.Pointed) :
    (g.abs.seats.findIdx? fun s => s.state = .opened) =
      g.seats.findIdx? fun s => s.state = .opened := by
  unfold abs
  rw [List.findIdx?_map]
  apply findIdx?_congr
  intro s hs
  simp only [Function.comp_apply, Seat.opened_abs (h s hs)]

/-- Changing a seat in memory is changing the seat it stands for. -/
theorem abs_modifySeat {f : Seat → Seat} {f' : Blackjack.Seat → Blackjack.Seat}
    (hf : ∀ s, g.seats[i]? = some s → (f s).abs = f' s.abs) :
    (g.modifySeat i f).abs = g.abs.modifySeat i f' := by
  simp only [abs, modifySeat, Blackjack.Game.modifySeat, Blackjack.Game.mk.injEq, true_and, and_true]
  apply List.ext_getElem?
  intro j
  simp only [List.getElem?_map, List.getElem?_modify]
  cases hs : g.seats[j]? with
  | none => rfl
  | some s =>
    by_cases hj : i = j
    · subst hj
      simp [hf s hs]
    · simp [hj]

theorem pointed_modifySeat {f : Seat → Seat} (h : g.Pointed)
    (hf : ∀ s, g.seats[i]? = some s → (f s).Pointed) : (g.modifySeat i f).Pointed := by
  intro s hs
  obtain ⟨j, hj⟩ := List.mem_iff_getElem?.mp hs
  rw [modifySeat, List.getElem?_modify] at hj
  obtain ⟨t, ht, rfl⟩ := Option.map_eq_some_iff.mp hj
  split
  · rename_i hij
    exact hf t (hij ▸ ht)
  · exact h t (List.mem_of_getElem? ht)

theorem find_spec (h : g.find u ≠ 0) :
    ∃ s, g.seats[g.find u]? = some s ∧ s.state ≠ .opened ∧ s.u = some u := by
  unfold find at h ⊢
  cases hi : g.seats.findIdx? (fun s => s.state ≠ .opened ∧ s.u = some u) with
  | none =>
    rw [hi] at h
    exact absurd rfl h
  | some i =>
    obtain ⟨hlt, hu, -⟩ := List.findIdx?_eq_some_iff_getElem.mp hi
    exact ⟨g.seats[i], List.getElem?_eq_getElem hlt, of_decide_eq_true hu⟩

/-- The seat `find` returns is not the dealer's. -/
theorem find_state (hg : g.Pointed) (h : g.find u ≠ 0) :
    ∃ s, g.seats[g.find u]? = some s ∧ s.u = some u ∧
      (s.state = .waiting ∧ s.abs.state = .waiting u ∨ s.state = .playing ∧ s.abs.state = .playing u ∨
        s.state = .leaving ∧ s.abs.state = .leaving u) := by
  obtain ⟨s, hs, hopen, hu⟩ := find_spec h
  have hpointed := hg s (List.mem_of_getElem? hs)
  refine ⟨s, hs, hu, ?_⟩
  obtain ⟨v, state, hand, chips, wager⟩ := s
  obtain rfl : v = some u := hu
  cases state with
  | dealer => cases hpointed.dealer rfl
  | waiting => exact .inl ⟨rfl, rfl⟩
  | playing => exact .inr (.inl ⟨rfl, rfl⟩)
  | leaving => exact .inr (.inr ⟨rfl, rfl⟩)
  | opened => exact absurd rfl hopen

/-! ### Each operation is that of the seats without stale pointers -/

theorem join_abs (h : g.Pointed) :
    (g.join u).1.abs = (g.abs.join u).1 ∧ (g.join u).2 = (g.abs.join u).2 ∧
      (g.join u).1.Pointed := by
  unfold join Blackjack.Game.join
  rw [find_abs h, findIdx?_opened_abs h]
  by_cases hu : g.find u ≠ 0
  · rw [if_pos hu, if_pos hu]
    exact ⟨rfl, rfl, h⟩
  · rw [if_neg hu, if_neg hu]
    cases hi : g.seats.findIdx? (fun s => s.state = .opened) with
    | none => exact ⟨rfl, rfl, h⟩
    | some i =>
      exact ⟨abs_modifySeat fun s hs => rfl, rfl,
        pointed_modifySeat h fun s hs => ⟨nofun, fun _ _ => ⟨u, rfl⟩⟩⟩

theorem leave_abs (h : g.Pointed) :
    (g.leave u).1.abs = (g.abs.leave u).1 ∧ (g.leave u).1.Pointed := by
  unfold leave Blackjack.Game.leave
  simp only [find_abs h]
  by_cases hu : g.find u = 0
  · simp only [hu, if_true]
    exact ⟨trivial, h⟩
  · simp only [hu, if_false]
    obtain ⟨s, hs, hsu, hstate⟩ := find_state h hu
    have hraw : g.seatState (g.find u) = some s.state := by rw [seatState, hs]; rfl
    have habs : g.abs.seatState (g.find u) = some s.abs.state := by
      rw [Blackjack.Game.seatState, getElem?_abs, hs]
      rfl
    rcases hstate with ⟨hstate, hstate'⟩ | ⟨hstate, hstate'⟩ | ⟨hstate, hstate'⟩
    · simp only [hraw, habs, hstate, hstate']
      refine ⟨abs_modifySeat fun _ _ => rfl, pointed_modifySeat h fun _ _ => ⟨fun hd => ?_, ?_⟩⟩
      · cases hd
      · exact fun _ ho => absurd rfl ho
    · simp only [hraw, habs, hstate, hstate']
      refine ⟨abs_modifySeat fun t ht => ?_, pointed_modifySeat h fun t ht => ?_⟩
      · obtain rfl : s = t := Option.some.inj (hs.symm.trans ht)
        simp only [Seat.abs, Seat.seatState, Seat.clear, hsu]
        rfl
      · obtain rfl : s = t := Option.some.inj (hs.symm.trans ht)
        exact ⟨fun hd => (by cases hd), fun _ _ => ⟨u, hsu⟩⟩
    · simp only [hraw, habs, hstate, hstate']
      exact ⟨trivial, h⟩

theorem surrender_abs (h : g.Pointed) :
    (g.surrender u).1.abs = (g.abs.surrender u).1 ∧ (g.surrender u).1.Pointed := by
  unfold surrender Blackjack.Game.surrender
  simp only [find_abs h]
  by_cases hu : g.find u = 0
  · simp only [hu, if_true]
    exact ⟨trivial, h⟩
  · simp only [hu, if_false]
    exact ⟨abs_modifySeat fun _ _ => rfl, pointed_modifySeat h fun _ _ => ⟨nofun, nofun⟩⟩

theorem bet_abs (h : g.Pointed) :
    (g.bet u).1.abs = (g.abs.bet u).1 ∧ (g.bet u).1.Pointed := by
  unfold bet Blackjack.Game.bet
  simp only [find_abs h]
  by_cases hu : g.find u = 0
  · simp only [hu, if_true]
    exact ⟨trivial, h⟩
  · simp only [hu, if_false]
    obtain ⟨s, hs, hsu, hstate⟩ := find_state h hu
    have hraw : g.seatState (g.find u) = some s.state := by rw [seatState, hs]; rfl
    have habs : g.abs.seatState (g.find u) = some s.abs.state := by
      rw [Blackjack.Game.seatState, getElem?_abs, hs]
      rfl
    have hpointed : ∀ t, g.seats[g.find u]? = some t → t.Pointed :=
      fun t ht => h t (List.mem_of_getElem? ht)
    rcases hstate with ⟨hstate, hstate'⟩ | ⟨hstate, hstate'⟩ | ⟨hstate, hstate'⟩
    · simp only [hraw, habs, hstate, hstate']
      exact ⟨trivial, h⟩
    · simp only [hraw, habs, hstate, hstate']
      exact ⟨abs_modifySeat fun _ _ => rfl,
        pointed_modifySeat h fun t ht => ⟨(hpointed t ht).dealer, (hpointed t ht).taken⟩⟩
    · simp only [hraw, habs, hstate, hstate']
      exact ⟨abs_modifySeat fun _ _ => rfl,
        pointed_modifySeat h fun t ht => ⟨(hpointed t ht).dealer, (hpointed t ht).taken⟩⟩

theorem dealOne_abs (h : g.Pointed) :
    g.dealOne.1.abs = g.abs.dealOne.1 ∧ g.dealOne.2 = g.abs.dealOne.2 ∧ g.dealOne.1.Pointed := by
  have habs : g.abs.seats[g.abs.turn]? = (g.seats[g.turn]?).map Seat.abs := getElem?_abs ..
  unfold dealOne Blackjack.Game.dealOne
  rw [habs]
  cases hs : g.seats[g.turn]? with
  | none => exact ⟨rfl, rfl, h⟩
  | some s =>
    have hshoe : (s.abs.hand.deal g.abs.shoe) = s.hand.deal g.shoe := rfl
    have hlen : g.abs.seats.length = g.seats.length := List.length_map ..
    simp only [Option.map_some, hshoe, hlen]
    rcases s.hand.deal g.shoe with ⟨hand | hand, shoe⟩
    · exact ⟨rfl, rfl, h⟩
    · refine ⟨?_, rfl, ?_⟩
      · simp only [abs, List.map_set]
        rfl
      · intro t ht
        rcases List.mem_or_eq_of_mem_set ht with ht | rfl
        · exact h t ht
        · have hpointed := h s (List.mem_of_getElem? hs)
          exact ⟨hpointed.dealer, hpointed.taken⟩

theorem step_abs (h : g.Pointed) (hs : g.step op = some g') :
    g.abs.step op = some g'.abs ∧ g'.Pointed := by
  cases op with
  | join u =>
    obtain rfl := Option.some.inj hs
    exact ⟨congrArg some (join_abs h).1.symm, (join_abs h).2.2⟩
  | leave u =>
    obtain rfl := Option.some.inj hs
    exact ⟨congrArg some (leave_abs h).1.symm, (leave_abs h).2⟩
  | surrender u =>
    obtain rfl := Option.some.inj hs
    exact ⟨congrArg some (surrender_abs h).1.symm, (surrender_abs h).2⟩
  | bet u =>
    obtain rfl := Option.some.inj hs
    exact ⟨congrArg some (bet_abs h).1.symm, (bet_abs h).2⟩
  | start =>
    obtain ⟨hgame, hresult, hpointed⟩ := dealOne_abs h
    simp only [step] at hs
    simp only [Blackjack.Game.step]
    rcases hdeal : g.dealOne with ⟨t, r⟩
    rcases hdeal' : g.abs.dealOne with ⟨t', r'⟩
    rw [hdeal, hdeal'] at hgame hresult
    rw [hdeal] at hs hpointed
    obtain rfl : r = r' := hresult
    obtain rfl : t.abs = t' := hgame
    rcases r with (_ | _) | _
    · obtain rfl := Option.some.inj hs
      exact ⟨rfl, hpointed⟩
    · cases hs
    · obtain rfl := Option.some.inj hs
      exact ⟨rfl, hpointed⟩

theorem pointed_new (decks : Nat) (rand : Nat → Nat) (chips : Nat → Int) :
    (new decks rand chips).Pointed := by
  intro s hs
  obtain ⟨i, -, rfl⟩ := List.mem_map.mp hs
  refine ⟨fun _ => rfl, fun hdealer hopen => ?_⟩
  by_cases hi : i = 0
  · exact absurd (if_pos hi) hdealer
  · exact absurd (if_neg hi) hopen

/-- Every run of the game in memory is one of the game whose seats name their users. -/
theorem refines_run {decks : Nat} {tr : List (Game × Op)} (hrun : Run step (New decks) tr g) :
    Run Blackjack.Game.step (Blackjack.Game.New decks) (tr.map fun x => (x.1.abs, x.2)) g.abs ∧
      g.Pointed := by
  induction hrun with
  | nil h =>
    obtain ⟨rand, chips, rfl⟩ := h
    exact ⟨.nil ⟨rand, chips, rfl⟩, pointed_new decks rand chips⟩
  | snoc hrun hs ih =>
    obtain ⟨hrun', hpointed⟩ := ih
    obtain ⟨hs', hpointed'⟩ := step_abs hpointed hs
    rw [List.map_append]
    exact ⟨hrun'.snoc hs', hpointed'⟩

end abs

/-! ### The arrangement of the seats -/

/-- Seat `i` is taken by user `u`. -/
def Holds (g : Game) (i : Nat) (u : Player) : Prop :=
  ∃ s, g.seats[i]? = some s ∧ s.state ≠ .opened ∧ s.u = some u

def Opened (g : Game) (i : Nat) : Prop := ∃ s, g.seats[i]? = some s ∧ s.state = .opened

structure Arranged (g : Game) : Prop where
  length_eq : g.seats.length = 6
  dealer : ∃ s, g.seats[0]? = some s ∧ s.state = .dealer ∧ s.u = none
  unique : ∀ i j u, g.Holds i u → g.Holds j u → i = j

/-- Who is given a seat by `join`, and which. -/
structure JoinRule (g : Game) (u : Player) : Prop where
  ok_iff : (∃ i, (g.join u).2 = .ok i) ↔ (∀ i, ¬g.Holds i u) ∧ ∃ i, g.Opened i
  lowest : ∀ i, (g.join u).2 = .ok i →
    g.Opened i ∧ (∀ j < i, ¬g.Opened j) ∧ (g.join u).1.Holds i u

/-- The user who calls the operation. -/
def caller : Op → Option Player
  | .join u => some u
  | .leave u => some u
  | .surrender u => some u
  | .bet u => some u
  | .start => none

/-- The operation changes no seat but one its caller holds before or after it. -/
def OwnSeat (g : Game) (op : Op) : Prop :=
  ∀ u g', caller op = some u → g.step op = some g' →
    ∀ i : Nat, g'.seats[i]? ≠ g.seats[i]? → g.Holds i u ∨ g'.Holds i u

/-- The deal does not throw. -/
def DealFits (g : Game) (op : Op) : Prop := op = .start → g.dealOne.2 ≠ .error .lengthError

instance (g : Game) (op : Op) : Decidable (DealFits g op) := inferInstanceAs (Decidable (_ → _))

section arrangement
variable {decks : Nat} {tr : List (Game × Op)} {g g' : Game} {u : Player} {op : Op} {i : Nat}

theorem holds_iff_abs (h : g.Pointed) : g.Holds i u ↔ g.abs.users[i]? = some (some u) := by
  rw [Blackjack.Game.users_getElem?, getElem?_abs, Option.map_map]
  unfold Holds
  cases hs : g.seats[i]? with
  | none => simp
  | some s =>
    have huser := Seat.user_abs (h s (List.mem_of_getElem? hs))
    by_cases hopen : s.state = .opened <;> simp [huser, hopen]

theorem arranged_of_abs (h : g.Pointed) (hg : g.abs.Seating) : g.Arranged where
  length_eq := (List.length_map ..).symm.trans hg.length_eq
  dealer := by
    have hdealer := hg.dealer
    rw [Blackjack.Game.seatState, getElem?_abs, Option.map_map] at hdealer
    obtain ⟨s, hs, hstate⟩ := Option.map_eq_some_iff.mp hdealer
    have hpointed := h s (List.mem_of_getElem? hs)
    obtain ⟨v, state, hand, chips, wager⟩ := s
    cases state with
    | dealer => exact ⟨_, hs, rfl, hpointed.dealer rfl⟩
    | _ => cases v <;> cases hstate
  unique i j u hi hj := hg.distinct i j u ((holds_iff_abs h).mp hi) ((holds_iff_abs h).mp hj)

/-- As the dealer's seat has no user, 0 always means that the user has no seat. -/
theorem Arranged.find_eq_zero (hg : g.Arranged) : g.find u = 0 ↔ ∀ i, ¬g.Holds i u := by
  constructor
  · rintro hzero i ⟨s, hs, hopen, hu⟩
    unfold find at hzero
    cases hi : g.seats.findIdx? (fun s => s.state ≠ .opened ∧ s.u = some u) with
    | none =>
      have := List.findIdx?_eq_none_iff.mp hi s (List.mem_of_getElem? hs)
      exact of_decide_eq_false this ⟨hopen, hu⟩
    | some j =>
      rw [hi, Option.getD_some] at hzero
      subst hzero
      obtain ⟨hlt, hu0, -⟩ := List.findIdx?_eq_some_iff_getElem.mp hi
      obtain ⟨d, hd, -, hnull⟩ := hg.dealer
      rw [List.getElem?_eq_getElem hlt, Option.some.injEq] at hd
      have := (of_decide_eq_true hu0).2
      rw [hd, hnull] at this
      cases this
  · intro hnone
    by_contra hzero
    exact hnone _ (find_spec hzero)

theorem opened_of_findIdx? (h : g.seats.findIdx? (fun s => s.state = .opened) = some i) :
    g.Opened i ∧ ∀ j < i, ¬g.Opened j := by
  obtain ⟨hlt, hopen, hlow⟩ := List.findIdx?_eq_some_iff_getElem.mp h
  refine ⟨⟨_, List.getElem?_eq_getElem hlt, of_decide_eq_true hopen⟩, ?_⟩
  rintro j hj ⟨s, hs, hstate⟩
  obtain ⟨hlt', rfl⟩ := List.getElem?_eq_some_iff.mp hs
  exact hlow j hj (decide_eq_true hstate)

/-- `join` is refused, or its user takes the first open seat. -/
theorem join_cases (g : Game) (u : Player) :
    (g.find u ≠ 0 ∧ g.join u = (g, .error .alreadyPlaying)) ∨
    (g.find u = 0 ∧ (∀ i, ¬g.Opened i) ∧ g.join u = (g, .error .noOpenSeat)) ∨
    ∃ i, g.find u = 0 ∧ g.Opened i ∧ (∀ j < i, ¬g.Opened j) ∧
      g.join u = (g.modifySeat i fun s => { s with u := some u, state := .playing }, .ok i) := by
  by_cases hu : g.find u ≠ 0
  · exact .inl ⟨hu, if_pos hu⟩
  · cases hi : g.seats.findIdx? (fun s => s.state = .opened) with
    | none =>
      refine .inr (.inl ⟨not_not.mp hu, ?_, by rw [join, if_neg hu, hi]⟩)
      rintro i ⟨s, hs, hopen⟩
      have := List.findIdx?_eq_none_iff.mp hi s (List.mem_of_getElem? hs)
      exact of_decide_eq_false this hopen
    | some i =>
      obtain ⟨hopen, hlow⟩ := opened_of_findIdx? hi
      exact .inr (.inr ⟨i, not_not.mp hu, hopen, hlow, by rw [join, if_neg hu, hi]⟩)

theorem holds_join (hopen : g.Opened i) :
    (g.modifySeat i fun s => { s with u := some u, state := .playing }).Holds i u := by
  obtain ⟨s, hs, -⟩ := hopen
  have hget : (g.modifySeat i fun s => { s with u := some u, state := .playing }).seats[i]? =
      some { s with u := some u, state := .playing } := by
    rw [modifySeat, List.getElem?_modify, hs]
    simp
  exact ⟨_, hget, nofun, rfl⟩

theorem Arranged.joinRule (hg : g.Arranged) (u : Player) : g.JoinRule u := by
  rcases g.join_cases u with ⟨hu, heq⟩ | ⟨hu, hfull, heq⟩ | ⟨i, hu, hopen, hlow, heq⟩
  · refine ⟨⟨?_, ?_⟩, ?_⟩
    · rintro ⟨i, hi⟩
      rw [heq] at hi
      cases hi
    · rintro ⟨hnone, -⟩
      exact absurd (hg.find_eq_zero.mpr hnone) hu
    · intro i hi
      rw [heq] at hi
      cases hi
  · refine ⟨⟨?_, ?_⟩, ?_⟩
    · rintro ⟨i, hi⟩
      rw [heq] at hi
      cases hi
    · rintro ⟨-, i, hi⟩
      exact absurd hi (hfull i)
    · intro i hi
      rw [heq] at hi
      cases hi
  · refine ⟨⟨fun _ => ⟨hg.find_eq_zero.mp hu, i, hopen⟩, fun _ => ⟨i, by rw [heq]⟩⟩, ?_⟩
    intro j hj
    rw [heq] at hj
    obtain rfl : i = j := Except.ok.inj hj
    rw [heq]
    exact ⟨hopen, hlow, holds_join hopen⟩

theorem ne_modifySeat {f : Seat → Seat} {j : Nat}
    (h : (g.modifySeat j f).seats[i]? ≠ g.seats[i]?) : i = j := by
  by_contra hij
  exact h (List.getElem?_modify_ne _ _ (Ne.symm hij))

theorem ownSeat (g : Game) (op : Op) : g.OwnSeat op := by
  intro u g' hu hs i hi
  have hfind : g.find u ≠ 0 → i = g.find u → g.Holds i u := by
    rintro hne rfl
    exact find_spec hne
  cases op with
  | join v =>
    obtain rfl : v = u := Option.some.inj hu
    obtain rfl := Option.some.inj hs
    rcases g.join_cases v with ⟨-, heq⟩ | ⟨-, -, heq⟩ | ⟨j, -, hopen, -, heq⟩
    · rw [heq] at hi
      exact absurd rfl hi
    · rw [heq] at hi
      exact absurd rfl hi
    · rw [heq] at hi ⊢
      obtain rfl := ne_modifySeat hi
      exact .inr (holds_join hopen)
  | leave v =>
    obtain rfl : v = u := Option.some.inj hu
    obtain rfl := Option.some.inj hs
    unfold leave at hi
    simp only at hi
    split at hi
    · exact absurd rfl hi
    · rename_i hne
      split at hi
      · exact .inl (hfind hne (ne_modifySeat hi))
      · exact .inl (hfind hne (ne_modifySeat hi))
      · exact absurd rfl hi
  | surrender v =>
    obtain rfl : v = u := Option.some.inj hu
    obtain rfl := Option.some.inj hs
    unfold surrender at hi
    simp only at hi
    split at hi
    · exact absurd rfl hi
    · rename_i hne
      exact .inl (hfind hne (ne_modifySeat hi))
  | bet v =>
    obtain rfl : v = u := Option.some.inj hu
    obtain rfl := Option.some.inj hs
    unfold bet at hi
    simp only at hi
    split at hi
    · exact absurd rfl hi
    · rename_i hne
      split at hi
      · exact .inl (hfind hne (ne_modifySeat hi))
      · exact .inl (hfind hne (ne_modifySeat hi))
      · exact absurd rfl hi
  | start => cases hu

theorem turn_step (hg : g.Pointed) (hlen : g.seats.length = 6) (hturn : g.turn < 6)
    (hfits : DealFits g op) (hs : g.step op = some g') : g'.turn < 6 := by
  obtain ⟨hs', -⟩ := step_abs hg hs
  by_cases hop : op = .start
  · subst hop
    have hresult : g.abs.dealOne.2 ≠ .error .lengthError := (dealOne_abs hg).2.1 ▸ hfits rfl
    have hgame : g'.turn = g.abs.dealOne.1.turn :=
      congrArg Blackjack.Game.turn (Blackjack.Game.step_start hs')
    rcases g.abs.dealOne_cases with ⟨-, heq⟩ | ⟨seat, -, ⟨-, heq⟩ | ⟨hand, -, heq⟩⟩
    · rw [hgame, heq]
      exact hturn
    · exact absurd (by rw [heq]) hresult
    · have habs : g.abs.seats.length = 6 := (List.length_map ..).trans hlen
      rw [hgame, heq, habs]
      show (if g.turn + 1 ≥ 6 then 0 else g.turn + 1) < 6
      split <;> omega
  · have hkept : g'.turn = g.turn := (Blackjack.Game.shoe_turn_step hop hs').2
    rw [hkept]
    exact hturn

theorem seating_step {g g' : Blackjack.Game} (hg : g.Seating) (hs : g.step op = some g') :
    g'.Seating := by
  cases op with
  | join u => exact Option.some.inj hs ▸ (Blackjack.Game.join_seating hg).1
  | leave u => exact Option.some.inj hs ▸ (Blackjack.Game.leave_releases hg).2
  | surrender u => exact Option.some.inj hs ▸ (Blackjack.Game.surrender_releases hg).2.1
  | bet u => exact Option.some.inj hs ▸ (Blackjack.Game.bet_releases hg).2
  | start => exact Blackjack.Game.step_start hs ▸ (Blackjack.Game.dealOne_releases (u := 0) hg).2

theorem arranged_run (hrun : Run step (New decks) tr g) : g.Pointed ∧ g.Arranged := by
  obtain ⟨hrun', hpointed⟩ := refines_run hrun
  refine ⟨hpointed, arranged_of_abs hpointed ?_⟩
  have hreach : Reachable Blackjack.Game.step (Blackjack.Game.New decks) g.abs := ⟨_, hrun'⟩
  apply hreach.invariant (I := Blackjack.Game.Seating)
  · rintro g ⟨rand, chips, rfl⟩
    exact Blackjack.Game.seating_new decks rand chips
  · exact fun g op g' hg hs => seating_step hg hs

theorem turn_run (hrun : Run step (New decks) tr g) (hfits : AllSteps DealFits tr) : g.turn < 6 := by
  induction hrun with
  | nil h =>
    obtain ⟨rand, chips, rfl⟩ := h
    exact Nat.zero_lt_succ 5
  | snoc hrun hs ih =>
    obtain ⟨hfits, hlast⟩ := allSteps_snoc.mp hfits
    obtain ⟨hpointed, harranged⟩ := arranged_run hrun
    exact turn_step hpointed harranged.length_eq (ih hfits) hlast hs

/-- With `turn_` in range, every call is defined. -/
theorem step_defined (hlen : g.seats.length = 6) (hturn : g.turn < 6) (op : Op) :
    ∃ g', g.step op = some g' := by
  cases op with
  | start =>
    simp only [step, dealOne, List.getElem?_eq_getElem (hlen ▸ hturn)]
    rcases (g.seats[g.turn]).hand.deal g.shoe with ⟨hand | hand, shoe⟩
    · exact ⟨_, rfl⟩
    · exact ⟨_, rfl⟩
  | _ => exact ⟨_, rfl⟩

end arrangement

/-- Whatever calls are made on a new game, by whichever users: the first of its six seats is the
dealer's and has no user, `turn_` is in range while no deal throws (so that every call is defined), no
user has two seats, `join` gives a seat to the users without one while there are open ones, the first
of these, and the calls of a user change no seat but the user's own. -/
theorem seats_arranged {decks : Nat} {tr : List (Game × Op)} {g : Game}
    (hrun : Run step (New decks) tr g) :
    g.Arranged ∧ (AllSteps DealFits tr → g.turn < 6 ∧ ∀ op, ∃ g', g.step op = some g') ∧
      (∀ u, g.JoinRule u) ∧ ∀ op, g.OwnSeat op := by
  obtain ⟨-, harranged⟩ := arranged_run hrun
  refine ⟨harranged, fun hfits => ?_, harranged.joinRule, g.ownSeat⟩
  have hturn := turn_run hrun hfits
  exact ⟨hturn, step_defined harranged.length_eq hturn⟩

def newZero : Game := .new 1 (fun _ => 0) fun _ => 0

def changeSeats : List Op := [.join 1, .start, .surrender 1, .join 2]

theorem changeSeats_runs : (execute step changeSeats [] newZero).isSome := by decide +kernel

/-- User 2 takes the seat that user 1 gave up. -/
theorem seats_arranged_two : ∃ tr g, Run step (New 1) tr g ∧ g.Holds 1 2 ∧ g.Arranged ∧ g.turn < 6 := by
  have hrun := Run.ofIsSome (New 1) ⟨_, _, rfl⟩ changeSeats_runs
  have hseat : ((execute step changeSeats [] newZero).get changeSeats_runs).2.seats[1]? =
      some { u := some 2, state := .playing, chips := 0 } := by decide +kernel
  have hfits : AllSteps DealFits ((execute step changeSeats [] newZero).get changeSeats_runs).1 := by
    decide +kernel
  obtain ⟨harranged, hturn, -⟩ := seats_arranged hrun
  have hturn := hturn hfits
  exact ⟨_, _, hrun, ⟨_, hseat, nofun, rfl⟩, harranged, hturn.1⟩

end Game

end BeastLounge.Blackjack.Layout
