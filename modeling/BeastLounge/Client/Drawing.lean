import BeastLounge.Client.Page
import BeastLounge.Lounge.Updates
import BeastLounge.Server.Shutdown

/-!
# The server's messages on the page

A notice or a reply adds to the log. An update draws the table anew: the line above the seats shows
the state of the game, and the line of each seat its holder, the bet and the cards.
-/

namespace BeastLounge.Client

open Theory Json Rpc Lounge

variable (num : Number → String)

/-! ### Seats -/

/-- The cards of a hand, each after a blank. -/
def cardLine (cards : List Nat) : String :=
  cards.foldl (fun (t : String) (c : Nat) => t ++ (" " ++ cardText c)) ""

/-- The line of a seat whose user has this name. -/
def seatLine (i : Nat) (s : Blackjack.Seat) (name : String) : String :=
  let bet := " Bet $" ++ num (.int s.wager)
  let holder :=
    match s.state with
    | .dealer => "(Dealer)"
    | .opened => "(Open)"
    | .waiting _ => name ++ " (Waiting)"
    | .playing _ => name ++ bet
    | .leaving _ => name ++ " (Leaving)" ++ bet
  "[" ++ toString i ++ "] " ++ holder ++ cardLine s.hand.cards.chars

theorem cardsText_handJson (cards : List Nat) :
    cardsText (cards.map fun c : Nat => .number (.int c)) = cardLine cards := by
  rw [cardsText, List.foldl_map]
  rfl

/-- What `UpdateSeat` shows of a seat with one hand. -/
theorem UpdateSeat_object (i : Nat) (cards : List Value) (word : String)
    (rest : List (String × Value)) :
    UpdateSeat num (some (.object
        (("hands", .array [.array cards]) :: ("state", .string word) :: rest))) i =
      .ok ("[" ++ toString i ++ "] " ++ holder num (some (.string word)) (rest.lookup "user") ++
        betText num (rest.lookup "wager") ++ cardsText cards) := rfl

theorem UpdateSeat_seatJson (i : Nat) (s : Blackjack.Seat) (name : String) :
    UpdateSeat num (some (seatJson s name)) i = .ok (seatLine num i s name) := by
  unfold seatLine seatJson handJson
  rw [← cardsText_handJson]
  cases s.state with
  | dealer =>
    refine (UpdateSeat_object num i _ _ _).trans ?_
    simp [holder, equals, betText]
  | opened =>
    refine (UpdateSeat_object num i _ _ _).trans ?_
    simp [holder, equals, betText]
  | waiting u =>
    refine (UpdateSeat_object num i _ _ _).trans ?_
    simp [holder, equals, betText, List.lookup_cons, print, Value.print]
  | playing u =>
    refine (UpdateSeat_object num i _ _ _).trans ?_
    simp [holder, equals, betText, List.lookup_cons, print, Value.print, String.append_assoc]
  | leaving u =>
    refine (UpdateSeat_object num i _ _ _).trans ?_
    simp [holder, equals, betText, List.lookup_cons, print, Value.print, String.append_assoc]

/-! ### The table -/

/-- `g` is the snapshot with a name for every user in it that `K` accepts for that user. -/
def Pictures (K : UserId → String → Prop) (snap : Snapshot) (g : Value) : Prop :=
  ∃ vs, List.Forall₂ (fun s j => ∃ name, (∀ u, s.user = some u → K u name) ∧ j = seatJson s name)
      snap.2 vs ∧ g = .object [("message", .string (stateMessage snap.1)), ("seats", .array vs)]

/-- The page shows the snapshot. -/
structure Shown (K : UserId → String → Prop) (snap : Snapshot) (p : Page) : Prop where
  message : p.message = stateMessage snap.1
  length : p.seats.length = 6
  line : ∀ i s, snap.2[i]? = some s → ∃ name, (∀ u, s.user = some u → K u name) ∧
    p.seats[i]? = some (seatLine num i s name)

/-- The loop of `UpdateTable` sets the lines of its indices. -/
theorem updateSeats_ok {game : Js} {elems : List Value} {lines : Nat → String} {is : List Nat}
    (hgame : get game "seats" = .ok (some (.array elems)))
    (h : ∀ i ∈ is, UpdateSeat num elems[i]? i = .ok (lines i)) (p : Page) :
    updateSeats num game is p =
      .ok () { p with seats := is.foldl (fun l i => l.set i (lines i)) p.seats } := by
  induction is generalizing p with
  | nil => rfl
  | cons i rest ih =>
    have hi := h i (by simp)
    have hrest := ih (fun j hj => h j (by simp [hj])) { p with seats := p.seats.set i (lines i) }
    rw [List.foldl_cons, ← hrest]
    simp only [updateSeats, bind, EStateM.bind, attempt, hgame, index, hi]
    rfl

theorem getElem?_foldl_set (lines : Nat → String) (is : List Nat) (l : List String) (j : Nat) :
    (is.foldl (fun l i => l.set i (lines i)) l)[j]? =
      if j ∈ is ∧ j < l.length then some (lines j) else l[j]? := by
  induction is generalizing l with
  | nil => simp
  | cons i rest ih =>
    rw [List.foldl_cons, ih]
    by_cases hj : j = i
    · subst hj
      by_cases hl : j < l.length
      · simp [hl]
      · simp [hl]
    · simp [hj, List.getElem?_set_ne (Ne.symm hj)]

theorem length_foldl_set (lines : Nat → String) (is : List Nat) (l : List String) :
    (is.foldl (fun l i => l.set i (lines i)) l).length = l.length := by
  induction is generalizing l with
  | nil => rfl
  | cons i rest ih => rw [List.foldl_cons, ih, List.length_set]

section update
variable {K : UserId → String → Prop} {snap : Snapshot} {g : Value}

theorem UpdateTable_shows (hg : Pictures K snap g) (hsix : snap.2.length = 6) {p : Page}
    (hp : p.seats.length = 6) : ∃ p', UpdateTable num (some g) p = .ok () p' ∧ Shown num K snap p' ∧
      p'.messages = p.messages := by
  obtain ⟨vs, hvs, rfl⟩ := hg
  have hlen : vs.length = 6 := hvs.length_eq ▸ hsix
  have hseat : ∀ i, i < 6 → ∃ s v name, snap.2[i]? = some s ∧ vs[i]? = some v ∧
      (∀ u, s.user = some u → K u name) ∧ v = seatJson s name := by
    intro i hi
    obtain ⟨name, hname, hj⟩ := hvs.get (i := i) (by omega) (by omega)
    exact ⟨_, _, name, List.getElem?_eq_getElem _, List.getElem?_eq_getElem _, hname, hj⟩
  -- the line of each seat
  have hline : ∀ i, ∃ line, i < 6 → UpdateSeat num vs[i]? i = .ok line ∧
      ∃ s name, snap.2[i]? = some s ∧ (∀ u, s.user = some u → K u name) ∧
        line = seatLine num i s name := by
    intro i
    by_cases hi : i < 6
    · obtain ⟨s, v, name, hs, hv, hname, rfl⟩ := hseat i hi
      exact ⟨_, fun _ => ⟨hv ▸ UpdateSeat_seatJson num i s name, s, name, hs, hname, rfl⟩⟩
    · exact ⟨"", fun h => absurd h hi⟩
  choose lines hlines using hline
  have hindex : ∀ i ∈ [0, 1, 2, 3, 4, 5], i < 6 := by decide
  have hgame : get (some (.object [("message", .string (stateMessage snap.1)), ("seats", .array vs)]))
      "seats" = .ok (some (.array vs)) := rfl
  have hloop := updateSeats_ok num hgame (fun i hi => (hlines i (hindex i hi)).1)
    { p with message := stateMessage snap.1 }
  refine ⟨_, hloop, ⟨rfl, (length_foldl_set ..).trans hp, fun i s hs => ?_⟩, rfl⟩
  have hi : i < 6 := hsix ▸ (List.getElem?_eq_some_iff.mp hs).1
  obtain ⟨-, s', name, hs', hname, hl⟩ := hlines i hi
  rw [hs] at hs'
  obtain rfl := Option.some.inj hs'
  refine ⟨name, hname, ?_⟩
  have hmem : i ∈ [0, 1, 2, 3, 4, 5] := by simp; omega
  rw [getElem?_foldl_set, if_pos ⟨hmem, hp ▸ hi⟩, hl]

/-- An update draws its snapshot. -/
theorem onMessage_update (a : String) (hg : Pictures K snap g) (hsix : snap.2.length = 6) {p : Page}
    (hp : p.seats.length = 6) : ∃ p', onMessage num (updateJson a g) p = .ok () p' ∧
      Shown num K snap p' ∧ p'.messages = p.messages := by
  obtain ⟨p', hupdate, hshown, hlog⟩ := UpdateTable_shows num hg hsix hp
  exact ⟨p', hupdate, hshown, hlog⟩

end update

/-! ### The log -/

/-- The message adds to the log, and changes nothing else. -/
def Logs (jv : Value) : Prop :=
  ∀ p, ∃ s, onMessage num jv p = .ok () { p with messages := p.messages ++ s }

theorem logs_notice (c : Channel) {verb : String} (hverb : verb ≠ "update") (name : String) :
    Logs num (c.notice verb name) := by
  intro p
  have hlogs : ∀ head, ∃ s, onVerb num (c.notice verb name) head verb p =
      .ok () { p with messages := p.messages ++ s } := by
    intro head
    unfold onVerb
    split
    · exact ⟨_, rfl⟩
    · exact ⟨_, rfl⟩
    · exact ⟨_, rfl⟩
    · exact absurd rfl hverb
    · exact ⟨"", by rw [String.append_empty]; rfl⟩
  exact hlogs _

theorem logs_sayNotice (c : Channel) (name text : String) : Logs num (sayNotice c name text) :=
  fun _ => ⟨_, rfl⟩

theorem logs_shutdownNotice (remain : Int) : Logs num (Server.shutdownNotice remain) :=
  fun _ => ⟨_, rfl⟩

theorem logs_reply {id jv : Value} (h : IsReply id jv) : Logs num jv := by
  intro p
  rcases h with ⟨result, rfl⟩ | ⟨e, rfl⟩
  · exact ⟨"", by rw [String.append_empty]; rfl⟩
  · exact ⟨_, rfl⟩

end BeastLounge.Client
