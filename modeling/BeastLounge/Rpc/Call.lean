import BeastLounge.Json.Value

/-!
# JSON-RPC requests

`rpc_code`, `rpc_error`, `rpc_call` and the `checked_` helpers. `extract` is cut into the four
checks its comments name; it returns the call with the members it has set, and the code of the
check that failed.
-/

namespace BeastLounge.Rpc

open Json

/-- A `user` object. -/
abbrev UserId := Nat

inductive RpcCode
  | parseError
  | invalidRequest
  | methodNotFound
  | invalidParams
  | internalError
  | expectedObject
  | expectedStringVersion
  | unknownVersion
  | invalidNullId
  | expectedStrnumId
  | expectedId
  | missingMethod
  | expectedStringMethod
  | expectedStructuredParams
  | missingParams
  | expectedArrayParams
deriving DecidableEq

namespace RpcCode

def value : RpcCode → Int
  | parseError => -32700
  | invalidRequest => -32600
  | methodNotFound => -32601
  | invalidParams => -32602
  | internalError => -32603
  | expectedObject => 1
  | expectedStringVersion => 2
  | unknownVersion => 3
  | invalidNullId => 4
  | expectedStrnumId => 5
  | expectedId => 6
  | missingMethod => 7
  | expectedStringMethod => 8
  | expectedStructuredParams => 9
  | missingParams => 10
  | expectedArrayParams => 11

/-- `rpc_error_codes::message` -/
def message : RpcCode → String
  | parseError => "An error occurred on the server while parsing the JSON text."
  | invalidRequest => "The JSON sent is not a valid Request object"
  | methodNotFound => "The method does not exist or is not available"
  | invalidParams => "Invalid method parameters"
  | internalError => "Internal JSON-RPC error"
  | expectedObject => "Expected object in JSON-RPC request"
  | expectedStringVersion => "Expected string version in JSON-RPC request"
  | unknownVersion => "Uknown version in JSON-RPC request"
  | invalidNullId => "Invalid null id in JSON-RPC request"
  | expectedStrnumId => "Expected string or number id in JSON-RPC request"
  | expectedId => "Missing id in JSON-RPC request version 1"
  | missingMethod => "Missing method in JSON-RPC request"
  | expectedStringMethod => "Expected string method in JSON-RPC request"
  | expectedStructuredParams => "Expected structured params in JSON-RPC request version 2"
  | missingParams => "Missing params in JSON-RPC request version 1"
  | expectedArrayParams => "Expected array params in JSON-RPC request version 1"

end RpcCode

structure RpcError where
  code : Int
  msg : String
deriving DecidableEq

namespace RpcError

/-- `rpc_error(rpc_code, string_view)` -/
def ofCodeMsg (ev : RpcCode) (msg : String) : RpcError := ⟨ev.value, msg⟩

/-- `rpc_error(rpc_code)` -/
def ofCode (ev : RpcCode) : RpcError := ofCodeMsg ev ev.message

/-- `rpc_error(string_view)` -/
def ofMsg (msg : String) : RpcError := ofCodeMsg .invalidParams msg

def toJson (e : RpcError) (id : Option Value) : Value :=
  .object
    ([("jsonrpc", .string "2.0"),
      ("error", .object [("code", .number (.int e.code)), ("message", .string e.msg)])] ++
    id.toList.map fun id => ("id", id))

end RpcError

structure RpcCall where
  id : Option Value := none
  u : UserId
  version : Nat := 2
  method : String := ""
  params : Value := .null
  result : Value := .null

namespace RpcCall

/-- "now check the version" -/
def checkVersion (jv : Value) : Except RpcCode Nat :=
  match jv.member "jsonrpc" with
  | some (.string s) => if s ≠ "2.0" then .error .unknownVersion else .ok 2
  | some _ => .error .expectedStringVersion
  | none => .ok 1

/-- "validate the extracted id" -/
def checkId (version : Nat) (id : Option Value) : Except RpcCode Unit :=
  if version = 2 then
    match id with
    | some id =>
      if id.isNull then .error .invalidNullId
      else if !id.isNumber && !id.isString then .error .expectedStrnumId
      else .ok ()
    | none => .ok ()
  else if id.isNone then .error .expectedId
  else .ok ()

def extractMethod (jv : Value) : Except RpcCode String :=
  match jv.member "method" with
  | none => .error .missingMethod
  | some (.string s) => .ok s
  | some _ => .error .expectedStringMethod

/-- The parameters of a request; `none` when version 2 leaves them out. -/
def extractParams (version : Nat) (jv : Value) : Except RpcCode (Option Value) :=
  if version = 2 then
    match jv.member "params" with
    | some v => if !v.isObject && !v.isArray then .error .expectedStructuredParams else .ok (some v)
    | none => .ok none
  else
    match jv.member "params" with
    | none => .error .missingParams
    | some v => if !v.isArray then .error .expectedArrayParams else .ok (some v)

def extract (rpc : RpcCall) (jv : Value) : RpcCall × Option RpcCode :=
  if !jv.isObject then (rpc, some .expectedObject)
  else
    -- the id comes first, so that the response to an error can include it
    let rpc := { rpc with id := (jv.member "id").or rpc.id }
    match checkVersion jv with
    | .error ec => (rpc, some ec)
    | .ok version =>
      let rpc := { rpc with version }
      match checkId version rpc.id with
      | .error ec => (rpc, some ec)
      | .ok () =>
        match extractMethod jv with
        | .error ec => (rpc, some ec)
        | .ok method =>
          let rpc := { rpc with method }
          match extractParams version jv with
          | .error ec => (rpc, some ec)
          | .ok params => ({ rpc with params := params.getD rpc.params }, none)

/-- The response `complete()` sends; none when the request has no id. -/
def response (rpc : RpcCall) : Option Value :=
  rpc.id.map fun id => .object [("id", id), ("result", rpc.result)]

/-- The response `complete(e)` sends. -/
def errorResponse (rpc : RpcCall) (e : RpcError) : Option Value :=
  rpc.id.map fun id => e.toJson (some id)

end RpcCall

/-! ### Validation of parameters -/

def checkedString : Value → Except RpcError String
  | .string s => .ok s
  | _ => .error (.ofMsg "expected string")

/-- `checked_value(jv, key)`, which first checks that `jv` is an object. -/
def checkedValue (jv : Value) (key : String) : Except RpcError Value :=
  if !jv.isObject then .error (.ofMsg "expected object")
  else
    match jv.member key with
    | none => .error (.ofMsg ("key '" ++ key ++ "' not found"))
    | some v => .ok v

/-- `checked_string(jv, key)` -/
def checkedStringAt (jv : Value) (key : String) : Except RpcError String :=
  (checkedValue jv key).bind checkedString

theorem checkedValue_eq_ok {jv v : Value} {key : String} :
    checkedValue jv key = .ok v ↔ jv.member key = some v := by
  unfold checkedValue
  by_cases hobj : jv.isObject
  · rw [hobj]
    cases jv.member key with
    | none => simp
    | some v' => simp
  · cases jv with
    | object ms => exact absurd rfl hobj
    | _ => simp [Value.isObject, Value.member]

theorem checkedStringAt_eq_ok {jv : Value} {key s : String} :
    checkedStringAt jv key = .ok s ↔ jv.member key = some (.string s) := by
  rw [← checkedValue_eq_ok]
  unfold checkedStringAt
  cases checkedValue jv key with
  | error e => simp [Except.bind]
  | ok v => cases v <;> simp [Except.bind, checkedString]

/-- A version 2 request with the id 1. -/
def request (method : String) (params : List (String × Value)) : Value :=
  .object
    [("jsonrpc", .string "2.0"), ("id", .number (.int 1)), ("method", .string method),
      ("params", .object params)]

/-! ### What extraction reads -/

namespace RpcCall

/-- Whether or not the request is accepted, the call takes its id from the object, so that every
response carries it, and keeps its user and its result. -/
theorem extract_keeps (rpc : RpcCall) (jv : Value) :
    (rpc.extract jv).1.id = (if jv.isObject then (jv.member "id").or rpc.id else rpc.id) ∧
      (rpc.extract jv).1.u = rpc.u ∧ (rpc.extract jv).1.result = rpc.result := by
  unfold extract
  by_cases hobj : jv.isObject
  · simp only [hobj, Bool.not_true, Bool.false_eq_true, if_false, if_true]
    split
    · exact ⟨rfl, rfl, rfl⟩
    · split
      · exact ⟨rfl, rfl, rfl⟩
      · split
        · exact ⟨rfl, rfl, rfl⟩
        · split <;> exact ⟨rfl, rfl, rfl⟩
  · simp [hobj]

end RpcCall

end BeastLounge.Rpc
