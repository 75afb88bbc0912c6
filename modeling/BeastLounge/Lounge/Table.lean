import BeastLounge.Lounge.Dispatch

/-!
# The table

The handlers that run on the table's strand, one at a time, and the serialization of the game, which
reads the name of every seated user.
-/

namespace BeastLounge.Lounge

open Theory Json Rpc

/-! ### The game as JSON -/

def handJson (h : Blackjack.Hand) : Value :=
  .array (h.cards.chars.map fun c : Nat => .number (.int c))

/-- `seat::to_json`, given the name of its user. -/
def seatJson (s : Blackjack.Seat) (name : String) : Value :=
  let hands : String × Value := ("hands", .array [handJson s.hand])
  let user : String × Value := ("user", .string name)
  let chips : String × Value := ("chips", .number (.int s.chips))
  let wager : String × Value := ("wager", .number (.int s.wager))
  match s.state with
  | .dealer => .object [hands, ("state", .string "dealer")]
  | .waiting _ => .object [hands, ("state", .string "waiting"), user, chips]
  | .playing _ => .object [hands, ("state", .string "playing"), user, chips, wager]
  | .leaving _ => .object [hands, ("state", .string "leaving"), user, chips, wager]
  | .opened => .object [hands, ("state", .string "open")]

/-- `seat::to_json`, which reads `u->name` of an occupied seat. -/
def seatToJson (s : Blackjack.Seat) : Act Value :=
  match s.user with
  | none => pure (seatJson s "")
  | some u => do
    let name ← op (.readName u)
    pure (seatJson s name)

def seatsToJson : List Blackjack.Seat → Act (List Value)
  | [] => pure []
  | s :: ss => do
    let v ← seatToJson s
    let vs ← seatsToJson ss
    pure (v :: vs)

def stateMessage : Blackjack.GameState → String
  | .wait => "Waiting for players"
  | .play => "Playing"

/-- `game::to_json` -/
def gameToJson : Act Value := do
  let (state, seats) ← op .seats
  let vs ← seatsToJson seats
  pure (.object [("message", .string (stateMessage state)), ("seats", .array vs)])

/-- What `do_insert` and `update` send. -/
def updateJson (action : String) (game : Value) : Value :=
  .object
    [("cid", .number (.int table.cid)), ("verb", .string "update"), ("action", .string action),
      ("game", game)]

/-- `table::update` -/
def update (action : String) : Act Unit := do
  let game ← gameToJson
  table.send (updateJson action game)

/-! ### The handlers -/

def doInsert (u : UserId) : Act Unit := do
  let game ← gameToJson
  op (.send u (updateJson "init" game))

def doErase (u : UserId) : Act Unit := do
  let result ← op (.surrender u)
  if result = 1 then update "surrender" else pure ()

/-- The part of a handler that follows an operation of the game: a failure is reported. -/
def orFail {α : Type} (r : Except Blackjack.Error α) : Act Unit :=
  match r with
  | .ok _ => pure ()
  | .error ec => fail (.ofMsg ec.message)

/-- `game::bet`, whose last act is the callback `on_game_bet`. -/
def gameBet (u : UserId) : Act (Except Blackjack.Error Unit) := do
  let r ← op (.bet u)
  match r with
  | .error ec => pure (.error ec)
  | .ok () =>
    update "bet"
    pure (.ok ())

/-- `game::start`, whose last act is the callback `on_game_deal_card`. -/
def gameStart : Act Unit := do
  let r ← op .dealOne
  match r with
  | .error f => .throw (.deal f)
  | .ok () => update "deal"

/-- What a handler does, short of the `catch` that the handlers of requests have. -/
def handlerBody : Handler → Act Unit
  | .doInsert u => doInsert u
  | .doErase u => doErase u
  | .doPlay rpc => do
    let r ← op (.join rpc.u)
    orFail r
    update "play"
    complete rpc
  | .doWatch rpc => do
    let r ← op (.leave rpc.u)
    orFail r
    update "watch"
    complete rpc
  | .doBet rpc => do
    let r ← gameBet rpc.u
    orFail r
    complete rpc
  | .doStart rpc => do
    gameStart
    complete rpc
  | .doHit rpc => complete rpc
  | .doStand rpc => complete rpc

def doPlay (rpc : RpcCall) : Act Unit := catchRpc (handlerBody (.doPlay rpc)) (completeError rpc)

def doWatch (rpc : RpcCall) : Act Unit := catchRpc (handlerBody (.doWatch rpc)) (completeError rpc)

def doBet (rpc : RpcCall) : Act Unit := catchRpc (handlerBody (.doBet rpc)) (completeError rpc)

def doStart (rpc : RpcCall) : Act Unit := catchRpc (handlerBody (.doStart rpc)) (completeError rpc)

def doHit (rpc : RpcCall) : Act Unit := catchRpc (handlerBody (.doHit rpc)) (completeError rpc)

def doStand (rpc : RpcCall) : Act Unit := catchRpc (handlerBody (.doStand rpc)) (completeError rpc)

def serve : Handler → Act Unit
  | .doInsert u => doInsert u
  | .doErase u => doErase u
  | .doPlay rpc => doPlay rpc
  | .doWatch rpc => doWatch rpc
  | .doBet rpc => doBet rpc
  | .doStart rpc => doStart rpc
  | .doHit rpc => doHit rpc
  | .doStand rpc => doStand rpc

end BeastLounge.Lounge
