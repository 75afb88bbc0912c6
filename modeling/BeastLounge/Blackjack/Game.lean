import Mathlib.Algebra.Ring.Nat
import BeastLounge.Blackjack.Shoe

/-!
# The game at the table

`hand`, `seat` and `game` of the server's blackjack. The operations of `game` are pure functions on
the game; the callbacks that `bet` and `start` invoke after their last change are made by the
table's handlers, which run these functions. `Player` stands for a `user` object. The pointer `u` of
a seat is read in the states `waiting`, `playing` and `leaving` only, so these states carry it.

A seat's vector of hands holds the one element its constructor puts there, so the seat has a single
hand. An `int` is a 32-bit number; `chips` is not initialized by the constructor of a seat, so a
new game takes the value it finds in each seat as a parameter.
-/

namespace BeastLounge.Blackjack

open Theory

abbrev Player := Nat

/-- A value stored in a 32-bit `int`. -/
def toInt (x : Int) : Int := x.bmod (2 ^ 32)

inductive Error
  | notPlaying
  | alreadyPlaying
  | alreadyLeaving
  | noOpenSeat
  | noMoreBets
deriving DecidableEq

/-- `error_codes::message` -/
def Error.message : Error → String
  | .notPlaying => "Not playing"
  | .alreadyPlaying => "Already playing"
  | .alreadyLeaving => "Already playing"
  | .noOpenSeat => "No open seat"
  | .noMoreBets => "No more bets"

structure Hand where
  cards : StaticString 22 Nat := .clear
  wager : Int := 0
  busted : Bool := false
  twentyOne : Bool := false
  blackjack : Bool := false
deriving DecidableEq

/-- `hand::clear`, which resets every member. -/
def Hand.clear (_ : Hand) : Hand := {}

/-- `hand::deal`; `none` when `push_back` throws. The card has left the shoe in either case. -/
def Hand.deal (h : Hand) (s : Shoe) : Option Hand × Shoe :=
  let (card, s) := s.deal
  ((h.cards.pushBack card).map fun cards => { h with cards }, s)

theorem Hand.deal_some {h h' : Hand} {s : Shoe} (hdeal : (h.deal s).1 = some h') :
    h'.cards.chars = h.cards.chars ++ [s.deal.1] ∧ h' = { h with cards := h'.cards } := by
  obtain ⟨cards, hpush, rfl⟩ := Option.map_eq_some_iff.mp hdeal
  exact ⟨(StaticString.pushBack_eq_some.mp hpush).2, rfl⟩

theorem Hand.deal_none {h : Hand} {s : Shoe} :
    (h.deal s).1 = none ↔ 22 ≤ h.cards.chars.length :=
  Option.map_eq_none_iff.trans StaticString.pushBack_eq_none

inductive SeatState
  | dealer
  | waiting (u : Player)
  | playing (u : Player)
  | leaving (u : Player)
  | opened
deriving DecidableEq

def SeatState.user : SeatState → Option Player
  | dealer => none
  | waiting u => some u
  | playing u => some u
  | leaving u => some u
  | opened => none

structure Seat where
  state : SeatState := .opened
  /-- `hands[0]` -/
  hand : Hand := {}
  chips : Int
  wager : Int := 0
deriving DecidableEq

/-- The pointer `u` -/
def Seat.user (s : Seat) : Option Player := s.state.user

def Seat.clear (s : Seat) : Seat := { s with hand := s.hand.clear, wager := 0, chips := 1000 }

inductive GameState
  | wait
  | play
deriving DecidableEq

structure Game where
  s : GameState := .wait
  shoe : Shoe
  /-- Seat 0 is the dealer's. -/
  seats : List Seat
  turn : Nat := 0

/-- Why a deal throws, or is undefined. -/
inductive Fault
  /-- `std::length_error` from `static_string::push_back` -/
  | lengthError
  /-- `seat_[turn_]` is out of range. -/
  | outOfRange
deriving DecidableEq

namespace Game

/-- The constructor; `chips i` is what the uninitialized `chips` of seat `i` holds. -/
def new (decks : Nat) (rand : Nat → Nat) (chips : Nat → Int) : Game where
  shoe := .new decks rand
  seats := (List.range 6).map fun i =>
    { state := if i = 0 then .dealer else .opened, chips := toInt (chips i) }

/-- The seat a player occupies; 0 when there is none. -/
def find (g : Game) (u : Player) : Nat :=
  (g.seats.findIdx? fun s => s.user = some u).getD 0

def modifySeat (g : Game) (i : Nat) (f : Seat → Seat) : Game :=
  { g with seats := g.seats.modify i f }

def seatState (g : Game) (i : Nat) : Option SeatState := (g.seats[i]?).map (·.state)

def join (g : Game) (u : Player) : Game × Except Error Nat :=
  if g.find u ≠ 0 then (g, .error .alreadyPlaying)
  else
    match g.seats.findIdx? fun s => s.state = .opened with
    | some i => (g.modifySeat i fun s => { s with state := .playing u }, .ok i)
    | none => (g, .error .noOpenSeat)

/-- `leave`: 1 when the player was playing, 2 when waiting. -/
def leave (g : Game) (u : Player) : Game × Except Error Nat :=
  let i := g.find u
  if i = 0 then (g, .error .notPlaying)
  else
    match g.seatState i with
    | some (.waiting _) => (g.modifySeat i fun s => { s with state := .opened }, .ok 2)
    | some (.playing u) => (g.modifySeat i fun s => { s with state := .leaving u }.clear, .ok 1)
    | _ => (g, .error .alreadyLeaving)

/-- `surrender`: 1 on success, -1 when the player has no seat. -/
def surrender (g : Game) (u : Player) : Game × Int :=
  let i := g.find u
  if i = 0 then (g, -1)
  else (g.modifySeat i fun s => { s with state := .opened }, 1)

/-- `bet`, up to the callback `on_game_bet` that ends it when there is no error. -/
def bet (g : Game) (u : Player) : Game × Except Error Unit :=
  let i := g.find u
  if i = 0 then (g, .error .notPlaying)
  else
    let size := 5
    let raise := g.modifySeat i fun s =>
      { s with wager := toInt (s.wager + size), chips := toInt (s.chips - size) }
    match g.seatState i with
    | some (.playing _) => (raise, .ok ())
    | some (.leaving _) => (raise, .ok ())
    | _ => (g, .error .noMoreBets)

/-- `deal_one`, up to the callback `on_game_deal_card` that ends it. -/
def dealOne (g : Game) : Game × Except Fault Unit :=
  match g.seats[g.turn]? with
  | none => (g, .error .outOfRange)
  | some seat =>
    let turn := g.turn + 1
    match seat.hand.deal g.shoe with
    | (none, shoe) => ({ g with shoe, turn }, .error .lengthError)
    | (some hand, shoe) =>
      ({ g with
          shoe
          seats := g.seats.set g.turn { seat with hand }
          turn := if turn ≥ g.seats.length then 0 else turn },
        .ok ())

/-! ### A deal -/

section deal
variable {g : Game} {seat : Seat}

/-- A card leaves the shoe and goes to the hand at `turn_`. -/
theorem dealOne_dealt {hand : Hand} (hseat : g.seats[g.turn]? = some seat)
    (hdeal : (seat.hand.deal g.shoe).1 = some hand) :
    g.dealOne = ({ g with
      shoe := g.shoe.deal.2
      seats := g.seats.set g.turn { seat with hand }
      turn := if g.turn + 1 ≥ g.seats.length then 0 else g.turn + 1 }, .ok ()) := by
  have hboth : seat.hand.deal g.shoe = (some hand, g.shoe.deal.2) := Prod.ext hdeal rfl
  simp only [dealOne, hseat, hboth]

/-- The hand is full, and the card is lost. -/
theorem dealOne_thrown (hseat : g.seats[g.turn]? = some seat)
    (hdeal : (seat.hand.deal g.shoe).1 = none) :
    g.dealOne = ({ g with shoe := g.shoe.deal.2, turn := g.turn + 1 }, .error .lengthError) := by
  have hboth : seat.hand.deal g.shoe = (none, g.shoe.deal.2) := Prod.ext hdeal rfl
  simp only [dealOne, hseat, hboth]

/-- What `deal_one` does to the game: nothing when `turn_` is out of range; otherwise a card leaves
the shoe, and it goes to the hand at `turn_` unless this is full. -/
theorem dealOne_cases (g : Game) :
    (g.seats[g.turn]? = none ∧ g.dealOne = (g, .error .outOfRange)) ∨
    ∃ seat, g.seats[g.turn]? = some seat ∧
      (((seat.hand.deal g.shoe).1 = none ∧
          g.dealOne = ({ g with shoe := g.shoe.deal.2, turn := g.turn + 1 }, .error .lengthError)) ∨
        ∃ hand, (seat.hand.deal g.shoe).1 = some hand ∧
          g.dealOne = ({ g with
            shoe := g.shoe.deal.2
            seats := g.seats.set g.turn { seat with hand }
            turn := if g.turn + 1 ≥ g.seats.length then 0 else g.turn + 1 }, .ok ())) := by
  cases hseat : g.seats[g.turn]? with
  | none => exact .inl ⟨rfl, by simp [dealOne, hseat]⟩
  | some seat =>
    refine .inr ⟨seat, rfl, ?_⟩
    cases hdeal : (seat.hand.deal g.shoe).1 with
    | none => exact .inl ⟨rfl, dealOne_thrown hseat hdeal⟩
    | some hand => exact .inr ⟨hand, rfl, dealOne_dealt hseat hdeal⟩

end deal

end Game

end BeastLounge.Blackjack
