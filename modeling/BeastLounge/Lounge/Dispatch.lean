import BeastLounge.Lounge.Channel

/-!
# From a frame to the handler of its method

The `on_dispatch` functions of the room, the system channel and the table with the handlers that run
on the session's strand, `channel_list_impl::dispatch`, and the part of
`ws_session_base::operator()` that processes one frame once it is parsed.
-/

namespace BeastLounge.Lounge

open Theory Json Rpc

/-! ### Rooms -/

/-- The broadcast of something said. -/
def sayNotice (c : Channel) (name text : String) : Value :=
  .object
    [("verb", .string "say"), ("cid", .number (.int c.cid)), ("name", .string c.name),
      ("user", .string name), ("message", .string text)]

def doSay (c : Channel) (rpc : RpcCall) : Act Unit := do
  Channel.checkedUser rpc
  let joined ← op (.isJoined c rpc.u)
  match joined with
  | false => fail (.ofMsg "not in channel")
  | true =>
    let text ← checked (checkedStringAt rpc.params "message")
    let name ← op (.readName rpc.u)
    c.send (sayNotice c name text)
    complete rpc

/-- `room_impl::on_dispatch`, which routes both methods to `do_say`. -/
def roomOnDispatch (c : Channel) (rpc : RpcCall) : Act Unit :=
  match rpc.method with
  | "say" => doSay c rpc
  | "slash" => doSay c rpc
  | _ => fail (.ofCode .methodNotFound)

/-! ### The system channel -/

def doIdentify (c : Channel) (rpc : RpcCall) : Act Unit := do
  let name ← checked (checkedStringAt rpc.params "name")
  if name.utf8ByteSize > 20 then fail (.ofMsg "Invalid \"name\": too long")
  else
    let current ← op (.readName rpc.u)
    match current.isEmpty with
    | false => fail (.ofMsg "Identity is already set")
    | true =>
      op (.writeName rpc.u name)
      let _ ← c.insert rpc.u
      complete rpc

def doShutdown (rpc : RpcCall) : Act Unit := do
  op (.server (.shutdown 30))
  complete rpc

def doStop (rpc : RpcCall) : Act Unit := do
  op (.server .stop)
  complete rpc

/-- `system_channel::on_dispatch` -/
def systemOnDispatch (c : Channel) (rpc : RpcCall) : Act Unit :=
  match rpc.method with
  | "identify" => doIdentify c rpc
  | "shutdown" => doShutdown rpc
  | "stop" => doStop rpc
  | _ => fail (.ofCode .methodNotFound)

/-! ### The table -/

/-- The handler `table::on_dispatch` posts for a method. -/
def tableHandler (rpc : RpcCall) : Option Handler :=
  match rpc.method with
  | "play" => some (.doPlay rpc)
  | "watch" => some (.doWatch rpc)
  | "bet" => some (.doBet rpc)
  | "start" => some (.doStart rpc)
  | "hit" => some (.doHit rpc)
  | "stand" => some (.doStand rpc)
  | _ => none

/-- `table::on_dispatch` -/
def tableOnDispatch (rpc : RpcCall) : Act Unit :=
  match tableHandler rpc with
  | some h => op (.post h)
  | none => fail (.ofCode .methodNotFound)

/-! ### Dispatch -/

def onDispatch (c : Channel) (rpc : RpcCall) : Act Unit :=
  match c.kind with
  | .system => systemOnDispatch c rpc
  | .room => roomOnDispatch c rpc
  | .table => tableOnDispatch rpc

/-- `channel::dispatch` -/
def Channel.dispatch (c : Channel) (rpc : RpcCall) : Act Unit :=
  match rpc.method with
  | "join" => c.doJoin rpc
  | "leave" => c.doLeave rpc
  | _ => onDispatch c rpc

/-- `channel_list_impl::dispatch` -/
def dispatch (rpc : RpcCall) : Act Unit := do
  let v ← checked (checkedValue rpc.params "cid")
  match v.toSize with
  | none => .throw .system
  | some cid =>
    let c ← op (.at cid)
    match c with
    | none => fail (.ofCodeMsg .invalidParams "Unknown cid")
    | some c => c.dispatch rpc

/-- What the read loop does with a frame, short of the `catch`. -/
def frameBody (u : UserId) (jv : Value) : Act Unit :=
  match (RpcCall.extract { u } jv).2 with
  | some ec => fail (.ofCodeMsg .invalidRequest ec.message)
  | none => dispatch (RpcCall.extract { u } jv).1

/-- One turn of the loop of `ws_session_base::operator()`, for a frame that parses as `jv`. -/
def readFrame (u : UserId) (jv : Value) : Act Unit :=
  catchRpc (frameBody u jv) (completeError (RpcCall.extract { u } jv).1)

end BeastLounge.Lounge
