import BeastLounge.Lounge.Ops

/-!
# Channels

The member functions of `channel`, with the virtual functions `on_insert` and `on_erase` of its
three subclasses, and those of `user` that change its record of channels.
-/

namespace BeastLounge.Lounge

open Theory Json Rpc

/-! ### Replies -/

/-- `rpc_call::complete()` -/
def complete (rpc : RpcCall) : Act Unit :=
  match rpc.response with
  | none => pure ()
  | some res => op (.send rpc.u res)

/-- `rpc_call::complete(e)` -/
def completeError (rpc : RpcCall) (e : RpcError) : Act Unit :=
  match rpc.errorResponse e with
  | none => pure ()
  | some res => op (.send rpc.u res)

/-! ### The user's side -/

/-- `user::on_insert` -/
def userOnInsert (u : UserId) (c : Channel) : Act Unit := do
  let inserted ← op (.channelsInsert u c)
  op (.verify inserted)

/-- `user::on_erase` -/
def userOnErase (u : UserId) (c : Channel) : Act Unit := do
  let erased ← op (.channelsErase u c)
  op (.verify erased)

namespace Channel

/-- The notice of a user joining or leaving. -/
def notice (c : Channel) (verb name : String) : Value :=
  .object
    [("cid", .number (.int c.cid)), ("verb", .string verb), ("name", .string c.name),
      ("user", .string name)]

def send (c : Channel) (jv : Value) : Act Unit := do
  let v ← op (.broadcast c jv)
  Prog.each (fun u => op (.trySend u jv)) v

/-- `on_insert`; only the table's does something. -/
def onInsert (c : Channel) (u : UserId) : Act Unit :=
  match c.kind with
  | .system => pure ()
  | .room => pure ()
  | .table => op (.post (.doInsert u))

def onErase (c : Channel) (u : UserId) : Act Unit :=
  match c.kind with
  | .system => pure ()
  | .room => pure ()
  | .table => op (.post (.doErase u))

def insert (c : Channel) (u : UserId) : Act Bool := do
  let inserted ← op (.usersInsert c u)
  match inserted with
  | false => pure false
  | true =>
    let name ← op (.readName u)
    c.send (c.notice "join" name)
    userOnInsert u c
    c.onInsert u
    pure true

def erase (c : Channel) (u : UserId) : Act Bool := do
  let erased ← op (.usersErase c u)
  match erased with
  | false => pure false
  | true =>
    let name ← op (.readName u)
    c.send (c.notice "leave" name)
    op (.trySend u (c.notice "leave" name))
    userOnErase u c
    c.onErase u
    pure true

/-- `checked_user` -/
def checkedUser (rpc : RpcCall) : Act Unit := do
  let name ← op (.readName rpc.u)
  match name.isEmpty with
  | true => fail (.ofMsg "No identity set")
  | false => pure ()

def doJoin (c : Channel) (rpc : RpcCall) : Act Unit := do
  checkedUser rpc
  let inserted ← c.insert rpc.u
  match inserted with
  | false => fail (.ofMsg "Already in channel")
  | true => complete rpc

def doLeave (c : Channel) (rpc : RpcCall) : Act Unit := do
  let erased ← c.erase rpc.u
  match erased with
  | false => fail (.ofMsg "Not in channel")
  | true => complete rpc

end Channel

end BeastLounge.Lounge
