import BeastLounge.Json.Value

/-!
# The page

What the page in the browser does with a message: a line of the log, or the table drawn anew. A
script reads properties of JSON values; reading one of `null` or of `undefined` throws, and what had
been drawn until then stays. How the browser prints a number is left to it (`num`).
-/

namespace BeastLounge.Client

open Json

/-! ### Values of the script -/

/-- A JSON value, or `undefined`. -/
abbrev Js := Option Value

/-- A property of `null` or of `undefined` was read. -/
structure TypeError

/-- `v[key]` -/
def get (v : Js) (key : String) : Except TypeError Js :=
  match v with
  | none => .error ⟨⟩
  | some .null => .error ⟨⟩
  | some v => .ok (v.member key)

/-- `v[i]` -/
def index (v : Js) (i : Nat) : Except TypeError Js :=
  match v with
  | none => .error ⟨⟩
  | some .null => .error ⟨⟩
  | some (.array elems) => .ok elems[i]?
  | some (.string s) => .ok (s.toList[i]?.map fun c => .string (String.singleton c))
  | some v => .ok (v.member (toString i))

/-- What a loop from 0 below `v.length` finds at its indices. -/
def items (v : Js) : Except TypeError (List Value) :=
  match v with
  | none => .error ⟨⟩
  | some .null => .error ⟨⟩
  | some (.array elems) => .ok elems
  | some (.string s) => .ok (s.toList.map fun c => .string (String.singleton c))
  | some _ => .ok []

/-- Whether `if(v)` takes the branch. -/
def truthy : Js → Bool
  | none => false
  | some .null => false
  | some (.bool b) => b
  | some (.number n) => n.exact ≠ some 0
  | some (.string s) => s ≠ ""
  | some (.array _) => true
  | some (.object _) => true

section text
variable (num : Number → String)

mutual

/-- What `+` appends to a string. -/
def Value.print : Value → String
  | .null => "null"
  | .bool b => if b then "true" else "false"
  | .number n => num n
  | .string s => s
  | .array elems => joined elems
  | .object _ => "[object Object]"

/-- `elems.join()`, which leaves out `null`. -/
def joined : List Value → String
  | [] => ""
  | [.null] => ""
  | [v] => Value.print v
  | .null :: w :: vs => "," ++ joined (w :: vs)
  | v :: w :: vs => Value.print v ++ "," ++ joined (w :: vs)

end

def print : Js → String
  | none => "undefined"
  | some v => Value.print num v

/-- `v == word`, where `word` is no numeral. -/
def equals (v : Js) (word : String) : Bool :=
  match v with
  | some (.string s) => s = word
  | some (.array elems) => joined num elems = word
  | some (.object _) => "[object Object]" = word
  | _ => false

/-- What assigning `v` to `textContent` shows. -/
def textContent : Js → String
  | none => ""
  | some .null => ""
  | some v => Value.print num v

end text

/-! ### The table -/

/-- `s.substring(a, b)` -/
def substring (s : String) (a b : Int) : String :=
  let n := s.toList.length
  let a := min a.toNat n
  let b := min b.toNat n
  String.ofList ((s.toList.take (max a b)).drop (min a b))

def cardTexts : String :=
  "AC2C3C4C5C6C7C8C9CTCJCQCKCAH2H3H4H5H6H7H8H9HTHJHQHKH" ++
    "AS2S3S4S5S6S7S8S9STSJSQSKSAD2D3D4D5D6D7D8D9DTDJDQDKD"

/-- `CardText` of an integer. -/
def cardText (card : Int) : String := substring cardTexts (2 * (card - 1)) (2 * card)

/-- `CardText`; what is not a number counts as one that is not, and selects nothing. -/
def CardText : Value → String
  | .number n =>
    match n.exact with
    | some card => cardText card
    | none => ""
  | .bool b => cardText (if b then 1 else 0)
  | _ => ""

section draw
variable (num : Number → String)

/-- What `UpdateSeat` puts between the number of the seat and the bet. -/
def holder (state user : Js) : String :=
  if equals num state "dealer" then "(Dealer)"
  else if equals num state "open" then "(Open)"
  else if equals num state "waiting" then print num user ++ " (Waiting)"
  else if equals num state "playing" then print num user
  else if equals num state "leaving" then print num user ++ " (Leaving)"
  else ""

def betText (wager : Js) : String :=
  match wager with
  | none => ""
  | some .null => ""
  | some v => " Bet $" ++ Value.print num v

def cardsText (cards : List Value) : String := cards.foldl (fun s card => s ++ (" " ++ CardText card)) ""

/-- The text `UpdateSeat` shows for a seat. -/
def UpdateSeat (seat : Js) (i : Nat) : Except TypeError String := do
  let state ← get seat "state"
  let user ← get seat "user"
  let wager ← get seat "wager"
  let hands ← get seat "hands"
  let h ← index hands 0
  let cards ← items h
  pure ("[" ++ toString i ++ "] " ++ holder num state user ++ betText num wager ++ cardsText cards)

end draw

/-! ### The page -/

structure Page where
  /-- The log. -/
  messages : String := ""
  /-- The line above the seats. -/
  message : String := ""
  /-- The lines of the six seats. -/
  seats : List String := List.replicate 6 "x"

/-- A script that may throw. -/
abbrev Script (α : Type) := EStateM TypeError Page α

def attempt {α : Type} (r : Except TypeError α) : Script α := fun p =>
  match r with
  | .ok a => .ok a p
  | .error e => .error e p

/-- `messages.innerText += s` -/
def log (s : String) : Script Unit := modify fun p => { p with messages := p.messages ++ s }

section script
variable (num : Number → String)

/-- The loop of `UpdateTable`, from seat `i` on. -/
def updateSeats (game : Js) : List Nat → Script Unit
  | [] => pure ()
  | i :: rest => do
    let seats ← attempt (get game "seats")
    let seat ← attempt (index seats i)
    let s ← attempt (UpdateSeat num seat i)
    modify fun p => { p with seats := p.seats.set i s }
    updateSeats game rest

def UpdateTable (game : Js) : Script Unit := do
  let message ← attempt (get game "message")
  modify fun p => { p with message := textContent num message }
  updateSeats num game [0, 1, 2, 3, 4, 5]

/-- The cases of the `switch` of `ws.on_message`. -/
def onVerb (jv : Value) (head : String) (verb : String) : Script Unit :=
  match verb with
  | "join" => log (head ++ "joins\n")
  | "leave" => log (head ++ "leaves\n")
  | "say" => do
    let message ← attempt (get (some jv) "message")
    log (head ++ print num message ++ "\n")
  | "update" => do
    let game ← attempt (get (some jv) "game")
    UpdateTable num game
  | _ => pure ()

/-- The branch of `ws.on_message` for what is not an error. -/
def onNotice (jv : Value) : Script Unit := do
  let cid ← attempt (get (some jv) "cid")
  let name ← attempt (get (some jv) "name")
  let user ← attempt (get (some jv) "user")
  let verb ← attempt (get (some jv) "verb")
  let head := "[" ++ print num cid ++ ". " ++ print num name ++ "] "
  let head := if truthy user then head ++ (print num user ++ " ") else head
  match verb with
  | some (.string verb) => onVerb num jv head verb
  | _ => pure ()

/-- `ws.on_message` -/
def onMessage (jv : Value) : Script Unit := do
  let error ← attempt (get (some jv) "error")
  match error with
  | none => onNotice num jv
  | some .null => onNotice num jv
  | some error =>
    let message ← attempt (get (some error) "message")
    let code ← attempt (get (some error) "code")
    log ("Error: " ++ print num message ++ "(" ++ print num code ++ ")\n")

/-- The listener of the socket's messages: what `on_message` throws is reported in the log. -/
def receive (p : Page) (jv : Value) : Page :=
  match onMessage num jv p with
  | .ok _ p => p
  | .error _ p => { p with messages := p.messages ++ "[error]\n" }

/-- The page once it has received these messages, in order. -/
def received (jvs : List Value) : Page := jvs.foldl (receive num) {}

end script

end BeastLounge.Client
