import BeastLounge.Rpc.Call

/-!
# Requests and responses as the protocol writes them

`Denotes` is the grammar of requests, version 2 and version 1 side by side; `extract` accepts what it
describes and returns the request it denotes. `IsResponse` is the object JSON-RPC 2.0 asks for in
reply: `to_json` makes one for every error, `complete()` for no result.
-/

namespace BeastLounge.Rpc

open Json

/-! ### Requests -/

structure Request where
  version : Nat
  id : Option Value
  method : String
  params : Value

/-- The JSON value is a request, and says this. -/
inductive Denotes (jv : Value) : Request → Prop
  | v2 {method : String} (hobject : jv.isObject) (hversion : jv.member "jsonrpc" = some (.string "2.0"))
      (hid : ∀ id, jv.member "id" = some id → id.isNumber ∨ id.isString)
      (hmethod : jv.member "method" = some (.string method))
      (hparams : ∀ params, jv.member "params" = some params → params.isObject ∨ params.isArray) :
      Denotes jv ⟨2, jv.member "id", method, (jv.member "params").getD .null⟩
  | v1 {id params : Value} {method : String} (hobject : jv.isObject)
      (hversion : jv.member "jsonrpc" = none) (hid : jv.member "id" = some id)
      (hmethod : jv.member "method" = some (.string method))
      (hparams : jv.member "params" = some params) (harray : params.isArray) :
      Denotes jv ⟨1, some id, method, params⟩

theorem Denotes.params {jv : Value} {r : Request} (h : Denotes jv r) :
    r.params.isObject ∨ r.params.isArray ∨ r.params.isNull := by
  cases h with
  | v2 _ _ _ _ hparams =>
    cases hp : jv.member "params" with
    | none => exact .inr (.inr rfl)
    | some params => exact (hparams params hp).imp_right .inl
  | v1 _ _ _ _ _ harray => exact .inr (.inl harray)

namespace RpcCall

/-- What the call says once its request is accepted. -/
def request (rpc : RpcCall) : Request := ⟨rpc.version, rpc.id, rpc.method, rpc.params⟩

/-! ### The four checks -/

section checks
variable {jv : Value} {version : Nat}

theorem checkVersion_eq_ok :
    checkVersion jv = .ok version ↔
      jv.member "jsonrpc" = some (.string "2.0") ∧ version = 2 ∨
        jv.member "jsonrpc" = none ∧ version = 1 := by
  unfold checkVersion
  split
  · rename_i s hs
    by_cases h : s = "2.0"
    · simp [hs, h, eq_comm]
    · simp [hs, h]
  · rename_i v hnot hv
    have hne : v ≠ .string "2.0" := fun h => hnot "2.0" h
    simp [hv, hne]
  · rename_i hnone
    simp [hnone, eq_comm]

theorem checkId_two {id : Option Value} :
    checkId 2 id = .ok () ↔ ∀ v, id = some v → v.isNumber ∨ v.isString := by
  unfold checkId
  cases id with
  | none => simp
  | some v => cases v <;> simp [Value.isNull, Value.isNumber, Value.isString]

theorem checkId_one {id : Option Value} : checkId 1 id = .ok () ↔ ∃ v, id = some v := by
  unfold checkId
  cases id <;> simp

theorem extractMethod_eq_ok {method : String} :
    extractMethod jv = .ok method ↔ jv.member "method" = some (.string method) := by
  unfold extractMethod
  split
  · rename_i hnone
    simp [hnone]
  · rename_i s hs
    simp [hs]
  · rename_i v hnot hv
    have hne : v ≠ .string method := fun h => hnot method h
    simp [hv, hne]

theorem extractParams_two {params : Option Value} :
    extractParams 2 jv = .ok params ↔
      jv.member "params" = params ∧
        ∀ v, jv.member "params" = some v → v.isObject ∨ v.isArray := by
  unfold extractParams
  cases jv.member "params" with
  | none => simp
  | some v => cases v <;> simp [Value.isObject, Value.isArray]

theorem extractParams_one {params : Option Value} :
    extractParams 1 jv = .ok params ↔
      ∃ v, jv.member "params" = some v ∧ some v = params ∧ v.isArray := by
  unfold extractParams
  cases jv.member "params" with
  | none => simp
  | some v => cases v <;> simp [Value.isArray]

end checks

/-! ### Extraction -/

section extract
variable {u : UserId} {jv : Value} {rpc rpc' : RpcCall}

/-- A call is accepted when it passes the four checks, one after the other. -/
theorem extract_eq_none (h : rpc.id = none) :
    rpc.extract jv = (rpc', none) ↔
      jv.isObject ∧ ∃ version method params,
        checkVersion jv = .ok version ∧ checkId version (jv.member "id") = .ok () ∧
          extractMethod jv = .ok method ∧ extractParams version jv = .ok params ∧
            rpc' = { rpc with
              id := jv.member "id", version, method, params := params.getD rpc.params } := by
  unfold extract
  cases hobj : jv.isObject with
  | false => simp
  | true =>
    simp only [h, Option.or_none, Bool.not_true, Bool.false_eq_true, if_false, true_and]
    cases hversion : checkVersion jv with
    | error ec => simp
    | ok version =>
      cases hid : checkId version (jv.member "id") with
      | error ec => simp [hid]
      | ok _ =>
        cases hmethod : extractMethod jv with
        | error ec => simp [hid]
        | ok method =>
          cases hparams : extractParams version jv with
          | error ec => simp [hid, hparams]
          | ok params => simp [hid, hparams, eq_comm]

/-- What a newly constructed call is after it has accepted a value. -/
theorem extract_eq_none_iff :
    extract { u } jv = (rpc', none) ↔
      rpc'.u = u ∧ rpc'.result = .null ∧ Denotes jv rpc'.request := by
  rw [extract_eq_none rfl]
  constructor
  · rintro ⟨hobject, version, method, params, hversion, hid, hmethod, hparams, rfl⟩
    refine ⟨rfl, rfl, ?_⟩
    have hmethod := extractMethod_eq_ok.mp hmethod
    rcases checkVersion_eq_ok.mp hversion with ⟨htwo, rfl⟩ | ⟨hnone, rfl⟩
    · obtain ⟨rfl, hstructured⟩ := extractParams_two.mp hparams
      exact .v2 hobject htwo (checkId_two.mp hid) hmethod hstructured
    · obtain ⟨v, hv, rfl, harray⟩ := extractParams_one.mp hparams
      obtain ⟨id, hid⟩ := checkId_one.mp hid
      have := Denotes.v1 hobject hnone hid hmethod hv harray
      rw [← hid] at this
      exact this
  · obtain ⟨id, u', version, method, params, result⟩ := rpc'
    rintro ⟨rfl, rfl, hdenotes⟩
    have hreq : ∃ r, r = request ⟨id, u', version, method, params, .null⟩ ∧ Denotes jv r :=
      ⟨_, rfl, hdenotes⟩
    obtain ⟨r, hr, hdenotes⟩ := hreq
    cases hdenotes with
    | @v2 m hobject hversion hid hmethod hparams =>
      simp only [request, Request.mk.injEq] at hr
      obtain ⟨rfl, rfl, rfl, rfl⟩ := hr
      exact ⟨hobject, 2, m, _, checkVersion_eq_ok.mpr (.inl ⟨hversion, rfl⟩), checkId_two.mpr hid,
        extractMethod_eq_ok.mpr hmethod, extractParams_two.mpr ⟨rfl, hparams⟩, rfl⟩
    | @v1 id' p m hobject hversion hid hmethod hparams harray =>
      simp only [request, Request.mk.injEq] at hr
      obtain ⟨rfl, rfl, rfl, rfl⟩ := hr
      refine ⟨hobject, 1, m, some p, checkVersion_eq_ok.mpr (.inr ⟨hversion, rfl⟩),
        checkId_one.mpr ⟨id', hid⟩, extractMethod_eq_ok.mpr hmethod,
        extractParams_one.mpr ⟨p, hparams, rfl, harray⟩, ?_⟩
      rw [hid]
      rfl

/-- `extract` accepts the requests of the grammar and nothing else, and returns what they denote; from
an object that it rejects it still has the id. -/
theorem extract_grammar (u : UserId) (jv : Value) :
    ((extract { u } jv).2 = none ↔ ∃ r, Denotes jv r) ∧
    (∀ r, Denotes jv r → (extract { u } jv).1.request = r) ∧
    ((extract { u } jv).2 ≠ none → jv.isObject → (extract { u } jv).1.id = jv.member "id") := by
  have hboth : ∀ r, Denotes jv r →
      extract { u } jv = (⟨r.id, u, r.version, r.method, r.params, .null⟩, none) := fun r hr =>
    extract_eq_none_iff.mpr ⟨rfl, rfl, hr⟩
  refine ⟨⟨fun hnone => ?_, ?_⟩, fun r hr => ?_, fun _ hobject => ?_⟩
  · exact ⟨_, (extract_eq_none_iff.mp (Prod.ext rfl hnone)).2.2⟩
  · rintro ⟨r, hr⟩
    rw [hboth r hr]
  · rw [hboth r hr]
    rfl
  · rw [(extract_keeps { u } jv).1, if_pos hobject, Option.or_none]

/-! ### What a call may hold -/

/-- A string, a number or null. -/
def IdKind (id : Value) : Prop := id.isString ∨ id.isNumber ∨ id.isNull

/-- The members as their comments describe them. -/
structure Documented (rpc : RpcCall) : Prop where
  id : ∀ id, rpc.id = some id → IdKind id
  params : rpc.params.isObject ∨ rpc.params.isArray ∨ rpc.params.isNull

/-- What is sent back: a result, or an error. -/
def reply (rpc : RpcCall) : Except RpcError Value → Option Value
  | .ok result => RpcCall.response { rpc with result }
  | .error e => rpc.errorResponse e

theorem reply_eq (rpc : RpcCall) (outcome : Except RpcError Value) :
    rpc.reply outcome = rpc.id.map fun id =>
      match outcome with
      | .ok result => .object [("id", id), ("result", result)]
      | .error e => e.toJson (some id) := by
  cases outcome <;> rfl

/-- Every reply carries the id of its call. -/
theorem member_id_reply {outcome : Except RpcError Value} {obj : Value}
    (h : rpc.reply outcome = some obj) : obj.member "id" = rpc.id := by
  rw [reply_eq] at h
  obtain ⟨id, hid, rfl⟩ := Option.map_eq_some_iff.mp h
  rw [hid]
  cases outcome <;> rfl

/-- The parameters are taken last, once nothing can fail. -/
theorem params_of_rejected (h : (rpc.extract jv).2 ≠ none) : (rpc.extract jv).1.params = rpc.params := by
  unfold extract at h ⊢
  cases hobj : jv.isObject with
  | false => rfl
  | true =>
    simp only [hobj, Bool.not_true, Bool.false_eq_true, if_false] at h ⊢
    cases hversion : checkVersion jv with
    | error ec => rfl
    | ok version =>
      cases hid : checkId version ((jv.member "id").or rpc.id) with
      | error ec => simp only [hid]
      | ok _ =>
        cases hmethod : extractMethod jv with
        | error ec => simp only [hid]
        | ok method =>
          cases hparams : extractParams version jv with
          | error ec => simp only [hid, hparams]
          | ok params =>
            simp only [hversion, hid, hmethod, hparams] at h
            exact absurd rfl h

/-- Accepted or not, a value leaves parameters of a documented kind. -/
theorem params_extract (u : UserId) (jv : Value) :
    (extract { u } jv).1.params.isObject ∨ (extract { u } jv).1.params.isArray ∨
      (extract { u } jv).1.params.isNull := by
  by_cases hec : (extract { u } jv).2 = none
  · exact (extract_eq_none_iff.mp (Prod.ext rfl hec)).2.2.params
  · rw [params_of_rejected hec]
    exact .inr (.inr rfl)

/-- The call keeps the shape its comments promise, and so do the ids of the replies made from it,
exactly when the value is not an object with an id of another kind. -/
theorem documented_iff (u : UserId) (jv : Value) :
    Documented (extract { u } jv).1 ∧
        (∀ outcome obj id, (extract { u } jv).1.reply outcome = some obj →
          obj.member "id" = some id → IdKind id) ↔
      ∀ id, jv.isObject → jv.member "id" = some id → id.isString ∨ id.isNumber ∨ id.isNull := by
  have hid : (extract { u } jv).1.id = if jv.isObject then jv.member "id" else none := by
    rw [(extract_keeps { u } jv).1]
    split
    · exact Option.or_none
    · rfl
  constructor
  · rintro ⟨hdocumented, -⟩ id hobject hmember
    refine hdocumented.id id ?_
    rw [hid, if_pos hobject, hmember]
  · intro hkind
    have hown : ∀ id, (extract { u } jv).1.id = some id → IdKind id := by
      intro id hsome
      rw [hid] at hsome
      by_cases hobject : jv.isObject
      · rw [if_pos hobject] at hsome
        exact hkind id hobject hsome
      · rw [if_neg hobject] at hsome
        cases hsome
    refine ⟨⟨hown, params_extract u jv⟩, fun outcome obj id hreply hmember => hown id ?_⟩
    rw [← member_id_reply hreply, hmember]

/-- A request of version 1 may bring any id. -/
theorem array_id_kept :
    ∃ jv, (extract { u := 0 } jv).2 = none ∧ ¬Documented (extract { u := 0 } jv).1 := by
  refine ⟨.object [("id", .array []), ("method", .string "x"), ("params", .array [])], rfl, ?_⟩
  intro hdocumented
  have hkind := hdocumented.id (.array []) rfl
  simp [IdKind, Value.isString, Value.isNumber, Value.isNull] at hkind

end extract

end RpcCall

/-! ### Responses -/

/-- A Response object of JSON-RPC 2.0 to a request with this id. -/
structure IsResponse (id obj : Value) : Prop where
  version : obj.member "jsonrpc" = some (.string "2.0")
  outcome : ((obj.member "result").isSome ∧ obj.member "error" = none) ∨
    (obj.member "result" = none ∧ ∃ err code msg, obj.member "error" = some err ∧
      err.member "code" = some (.number (.int code)) ∧ err.member "message" = some (.string msg))
  id : obj.member "id" = some id

theorem isResponse_toJson (e : RpcError) (id : Value) : IsResponse id (e.toJson (some id)) where
  version := rfl
  outcome := .inr ⟨rfl, _, e.code, e.msg, rfl, rfl, rfl⟩
  id := rfl

/-- `complete()` leaves the version out. -/
theorem not_isResponse_result (id result : Value) :
    ¬IsResponse id (.object [("id", id), ("result", result)]) := by
  intro h
  cases h.version

namespace RpcCall

/-- The object sent back for a request of version 2 with an id is a Response object exactly when the
request fails. -/
theorem reply_isResponse_iff {u : UserId} {jv id : Value} {rpc : RpcCall}
    (haccepted : extract { u } jv = (rpc, none)) (hversion : rpc.version = 2)
    (hid : jv.member "id" = some id) (outcome : Except RpcError Value) :
    ∃ obj, rpc.reply outcome = some obj ∧ (IsResponse id obj ↔ ∃ e, outcome = .error e) := by
  have hrpc : rpc.id = some id := by
    obtain ⟨-, _, _, _, -, -, -, -, rfl⟩ := (extract_eq_none rfl).mp haccepted
    exact hid
  rw [reply_eq, hrpc]
  refine ⟨_, rfl, ?_⟩
  cases outcome with
  | ok result => exact iff_of_false (not_isResponse_result id result) (by rintro ⟨e, h⟩; cases h)
  | error e => exact iff_of_true (isResponse_toJson e id) ⟨e, rfl⟩

/-- A request that fails is answered as the protocol asks. -/
theorem reply_isResponse_failed : ∃ obj,
    (extract { u := 0 } (Rpc.request "x" [])).1.reply (.error (.ofCode .methodNotFound)) = some obj ∧
      IsResponse (.number (.int 1)) obj := by
  have haccepted : extract { u := 0 } (Rpc.request "x" []) =
      ((extract { u := 0 } (Rpc.request "x" [])).1, none) := rfl
  have hid : (Rpc.request "x" []).member "id" = some (.number (.int 1)) := rfl
  obtain ⟨obj, hobj, hiff⟩ :=
    reply_isResponse_iff haccepted rfl hid (.error (.ofCode .methodNotFound))
  exact ⟨obj, hobj, hiff.mpr ⟨_, rfl⟩⟩

/-- A request that succeeds is answered with an object that has no version. -/
theorem result_without_version : ∃ obj,
    (extract { u := 0 } (Rpc.request "x" [])).2 = none ∧
      (extract { u := 0 } (Rpc.request "x" [])).1.version = 2 ∧
      (extract { u := 0 } (Rpc.request "x" [])).1.reply (.ok .null) = some obj ∧
      obj.member "jsonrpc" = none ∧ ¬IsResponse (.number (.int 1)) obj :=
  ⟨_, rfl, rfl, rfl, rfl, not_isResponse_result _ _⟩

end RpcCall

end BeastLounge.Rpc
