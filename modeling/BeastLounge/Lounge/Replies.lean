import Mathlib.Data.List.Perm.Basic
import BeastLounge.Lounge.Rules
import BeastLounge.Lounge.World

/-!
# One reply per request

A request is answered by the read loop, by a handler on the session's strand, or by the handler that
the table runs for it later. The ghost value collects the ids of the responses passed to the user's
`send`, and, where a request is handed to the table, the ids its handler owes. Everything up to the
answer leaves the ghost value empty and may only fail with an exception; `complete` then adds the
id, and after a failure the `catch` around it does (`Settles`).
-/

namespace BeastLounge.Lounge

open Theory Json Rpc

open Prog (Spec wp Trace Event Keeps)

/-- The value carries `result` or `error`. -/
def isResponse (jv : Value) : Bool := (jv.member "result").isSome || (jv.member "error").isSome

/-- The response to a request of this outcome. -/
def reply (rpc : RpcCall) : Except RpcError Unit → Option Value
  | .ok _ => rpc.response
  | .error e => rpc.errorResponse e

/-- The ids of the responses that an operation passes to the `send` of `u`. -/
def Cmd.responses (u : UserId) : Cmd → List (Option Value)
  | .send u' jv => if u' = u ∧ isResponse jv then [jv.member "id"] else []
  | .trySend u' jv => if u' = u ∧ isResponse jv then [jv.member "id"] else []
  | _ => []

def Cmd.posts : Cmd → List Handler
  | .post h => [h]
  | _ => []

def responses (u : UserId) (tr : List (Event Res)) : List (Option Value) :=
  tr.flatMap fun e => e.1.responses u

def posted (tr : List (Event Res)) : List Handler := tr.flatMap fun e => e.1.posts

/-- The responses to `u` that a handler of the table has to send. -/
def Handler.owes (u : UserId) (h : Handler) : List (Option Value) :=
  match h.rpc with
  | none => []
  | some rpc => if rpc.u = u then rpc.id.toList.map some else []

/-- The ghost value collects the responses to `u`, and what the posted handlers owe. -/
def replySpec (u : UserId) (owes : Handler → List (Option Value)) :
    Spec Res (List (Option Value)) where
  may _ _ _ := True
  allow _ _ := True
  next v c _ := v ++ (c.responses u ++ c.posts.flatMap owes)

theorem ghost_replySpec (u : UserId) (owes : Handler → List (Option Value))
    (v : List (Option Value)) (tr : List (Event Res)) :
    Prog.ghost (replySpec u owes) v tr =
      v ++ tr.flatMap fun e => e.1.responses u ++ e.1.posts.flatMap owes := by
  induction tr generalizing v with
  | nil => exact (List.append_nil v).symm
  | cons e tr ih =>
    rw [List.flatMap_cons, ← List.append_assoc]
    exact ih _

/-! ### The values that are passed on -/

theorem isResponse_of_isReply {id jv : Value} (h : IsReply id jv) :
    isResponse jv ∧ jv.member "id" = some id := by
  rcases h with ⟨result, rfl⟩ | ⟨e, rfl⟩
  · exact ⟨rfl, rfl⟩
  · exact ⟨rfl, rfl⟩

theorem isResponse_updateJson (a : String) (g : Value) : isResponse (updateJson a g) = false := rfl

theorem isResponse_notice (c : Channel) (verb name : String) :
    isResponse (c.notice verb name) = false := rfl

theorem isResponse_sayNotice (c : Channel) (name text : String) :
    isResponse (sayNotice c name text) = false := rfl

section settles
variable {u : UserId} {owes : Handler → List (Option Value)} {α : Type} {T : Exn → Prop}

/-- No response has been sent, and none is owed by a posted handler. -/
abbrev Open (v : List (Option Value)) : Prop := v = []

theorem safe_of_silent {c : Cmd} (hr : c.responses u = []) (hp : c.posts.flatMap owes = []) :
    (replySpec u owes).Safe Open c := by
  rintro v rfl
  refine ⟨trivial, fun r _ => ?_⟩
  show [] ++ (c.responses u ++ c.posts.flatMap owes) = []
  rw [hr, hp]
  rfl

theorem safe_trySend {v : UserId} {jv : Value} (h : isResponse jv = false) :
    (replySpec u owes).Safe Open (.trySend v jv) :=
  safe_of_silent (if_neg fun hc => by rw [h] at hc; cases hc.2) rfl

theorem keeps_update_open (a : String) : Keeps (replySpec u owes) Open T (update a) :=
  keeps_update (wp_gameToJson_any (safe_of_silent rfl rfl) fun _ => safe_of_silent rfl rfl)
    (fun _ _ => safe_of_silent rfl rfl) fun g _ _ => safe_trySend (isResponse_updateJson a g)

/-- Once nothing has been answered, `p` answers a request with this id when it succeeds, and leaves
that to the handler of the `rpc_error` it throws otherwise. -/
def Settles (u : UserId) (owes : Handler → List (Option Value)) (id : Option Value)
    (p : Act Unit) : Prop :=
  wp (replySpec u owes)
    (fun o w => match o with
      | .ok _ => w = id.toList.map some
      | .error (.rpc _) => Open w
      | .error _ => True) p []

theorem settles_bind {p : Act α} {f : α → Act Unit} {id : Option Value}
    (hp : Keeps (replySpec u owes) Open (fun _ => True) p) (hf : ∀ a, Settles u owes id (f a)) :
    Settles u owes id (p >>= f) := by
  apply Prog.wp_bind.mpr
  apply Prog.wp_mono _ (hp.wp rfl)
  rintro o w rfl
  cases o with
  | ok a => exact hf a
  | error e =>
    cases e with
    | rpc e => exact rfl
    | system => trivial
    | deal f => trivial

theorem settles_throw {id : Option Value} (e : Exn) : Settles u owes id (.throw e) := by
  cases e with
  | rpc e => exact rfl
  | system => trivial
  | deal f => trivial

theorem wp_reply {id jv : Value} (h : IsReply id jv)
    {post : Except Exn Unit → List (Option Value) → Prop} (hpost : post (.ok ()) [some id]) :
    wp (replySpec u owes) post (op (.send u jv)) [] := by
  obtain ⟨hresp, hid⟩ := isResponse_of_isReply h
  refine Prog.wp_op.mpr ⟨trivial, fun _ _ => ?_⟩
  show post (.ok ()) ([] ++ ((if u = u ∧ isResponse jv then [jv.member "id"] else []) ++ []))
  rw [if_pos ⟨rfl, hresp⟩, hid]
  exact hpost

theorem settles_complete {rpc : RpcCall} (hu : rpc.u = u) : Settles u owes rpc.id (complete rpc) := by
  unfold complete
  split
  · rename_i hnone
    have hid : rpc.id = none := Option.map_eq_none_iff.mp hnone
    rw [hid]
    exact rfl
  · rename_i jv hjv
    obtain ⟨id, hid, hreply⟩ := isReply_response hjv
    rw [hid, hu]
    exact wp_reply hreply rfl

theorem wp_completeError {rpc : RpcCall} (hu : rpc.u = u) (e : RpcError)
    {post : Except Exn Unit → List (Option Value) → Prop}
    (hpost : post (.ok ()) (rpc.id.toList.map some)) :
    wp (replySpec u owes) post (completeError rpc e) [] := by
  unfold completeError
  split
  · rename_i hnone
    have hid : rpc.id = none := Option.map_eq_none_iff.mp hnone
    rw [hid] at hpost
    exact hpost
  · rename_i jv hjv
    obtain ⟨id, hid, hreply⟩ := isReply_errorResponse hjv
    rw [hid] at hpost
    rw [hu]
    exact wp_reply hreply hpost

/-- The answer of the `catch` clause makes up for every `rpc_error`. -/
theorem wp_catchRpc {rpc : RpcCall} {p : Act Unit} (hu : rpc.u = u)
    (hp : Settles u owes rpc.id p) :
    wp (replySpec u owes) (fun o w => o = .ok () → w = rpc.id.toList.map some)
      (catchRpc p (completeError rpc)) [] := by
  apply Prog.wp_tryCatch.mpr
  apply Prog.wp_mono _ hp
  intro o w hw
  cases o with
  | ok a => exact fun _ => hw
  | error e =>
    cases e with
    | rpc e =>
      obtain rfl : w = [] := hw
      exact wp_completeError hu e fun _ => rfl
    | system => exact fun h => by cases h
    | deal f => exact fun h => by cases h

/-! ### Frames -/

section session
variable {rpc : RpcCall} (hu : rpc.u = u)

theorem safe_memberCmd {c : Channel} (cmd : Cmd) (h : MemberCmd (fun _ => True) c u cmd) :
    (replySpec u (Handler.owes u)).Safe Open cmd := by
  cases h with
  | @noticeTo verb name hverb hname v => exact safe_trySend (isResponse_notice c verb name)
  | _ => exact safe_of_silent rfl rfl

theorem keeps_checkedUser_open :
    Keeps (replySpec u owes) Open (fun _ => True) (Channel.checkedUser rpc) :=
  keeps_checkedUser (safe_of_silent rfl rfl) fun _ => trivial

include hu

theorem settles_doJoin (c : Channel) : Settles u (Handler.owes u) rpc.id (c.doJoin rpc) := by
  apply settles_bind keeps_checkedUser_open
  intro _
  apply settles_bind (hu ▸ keeps_insert_of_safe (fun _ _ _ _ => trivial) safe_memberCmd)
  intro inserted
  cases inserted with
  | false => exact settles_throw _
  | true => exact settles_complete hu

theorem settles_doLeave (c : Channel) : Settles u (Handler.owes u) rpc.id (c.doLeave rpc) := by
  apply settles_bind (hu ▸ keeps_erase_of_safe (fun _ _ _ _ => trivial) fun cmd h _ => safe_memberCmd cmd h)
  intro erased
  cases erased with
  | false => exact settles_throw _
  | true => exact settles_complete hu

theorem settles_doSay (c : Channel) : Settles u owes rpc.id (doSay c rpc) := by
  apply settles_bind keeps_checkedUser_open
  intro _
  apply settles_bind (Prog.keeps_op (safe_of_silent rfl rfl))
  intro joined
  cases joined with
  | false => exact settles_throw _
  | true =>
    apply settles_bind (keeps_checked (fun _ => trivial) _)
    intro text
    apply settles_bind (Prog.keeps_op (safe_of_silent rfl rfl))
    intro name
    apply settles_bind _ fun _ => settles_complete hu
    exact keeps_channelSend (safe_of_silent rfl rfl)
      fun v => safe_trySend (isResponse_sayNotice c name text)

theorem settles_doIdentify (c : Channel) :
    Settles u (Handler.owes u) rpc.id (doIdentify c rpc) := by
  apply settles_bind (keeps_checked (fun _ => trivial) _)
  intro name
  split
  · exact settles_throw _
  · apply settles_bind (Prog.keeps_op (safe_of_silent rfl rfl))
    intro current
    split
    · exact settles_throw _
    · apply settles_bind (Prog.keeps_op (safe_of_silent rfl rfl))
      intro _
      apply settles_bind (hu ▸ keeps_insert_of_safe (fun _ _ _ _ => trivial) safe_memberCmd)
      intro _
      exact settles_complete hu

/-- The handler that is posted owes the reply. -/
theorem settles_tableOnDispatch : Settles u (Handler.owes u) rpc.id (tableOnDispatch rpc) := by
  unfold tableOnDispatch
  split
  · rename_i h hh
    have hrpc : h.rpc = some rpc := by
      unfold tableHandler at hh
      split at hh <;> cases hh <;> rfl
    refine Prog.wp_op.mpr ⟨trivial, fun _ _ => ?_⟩
    show [] ++ ([] ++ (Handler.owes u h ++ [])) = rpc.id.toList.map some
    simp [Handler.owes, hrpc, hu]
  · exact settles_throw _

theorem settles_onDispatch (c : Channel) :
    Settles u (Handler.owes u) rpc.id (onDispatch c rpc) := by
  have hserver : ∀ r : ServerRequest,
      Settles u (Handler.owes u) rpc.id (op (.server r) >>= fun _ => complete rpc) := fun r =>
    settles_bind (Prog.keeps_op (safe_of_silent rfl rfl)) fun _ => settles_complete hu
  unfold onDispatch
  split
  · unfold systemOnDispatch
    split
    · exact settles_doIdentify hu c
    · exact hserver _
    · exact hserver _
    · exact settles_throw _
  · unfold roomOnDispatch
    split
    · exact settles_doSay hu c
    · exact settles_doSay hu c
    · exact settles_throw _
  · exact settles_tableOnDispatch hu

theorem settles_dispatch : Settles u (Handler.owes u) rpc.id (dispatch rpc) := by
  apply settles_bind (keeps_checked (fun _ => trivial) _)
  intro v
  split
  · exact settles_throw _
  · apply settles_bind (Prog.keeps_op (safe_of_silent rfl rfl))
    intro c
    split
    · exact settles_throw _
    · rename_i c
      unfold Channel.dispatch
      split
      · exact settles_doJoin hu c
      · exact settles_doLeave hu c
      · exact settles_onDispatch hu c

end session

theorem wp_readFrame (jv : Value) :
    wp (replySpec u (Handler.owes u))
      (fun o w => o = .ok () → w = (jv.member "id").toList.map some) (readFrame u jv) [] := by
  have hkeeps := RpcCall.extract_keeps { u } jv
  have hid : (RpcCall.extract { u } jv).1.id = jv.member "id" := by
    rw [hkeeps.1]
    cases jv with
    | object ms => simp [Value.isObject]
    | _ => rfl
  rw [← hid]
  unfold readFrame frameBody
  apply wp_catchRpc hkeeps.2.1
  split
  · exact settles_throw _
  · exact settles_dispatch hkeeps.2.1

/-! ### Handlers of the table -/

/-- A handler with no request, or with the request of another user, sends `u` no response. -/
theorem serve_silent {h : Handler} (hother : ∀ rpc, h.rpc = some rpc → rpc.u ≠ u) :
    Keeps (replySpec u owes) Open (fun _ => True) (serve h) := by
  apply keeps_serve (G := fun _ => True)
  · intro c hc
    cases hc with
    | update ha hg => exact safe_of_silent rfl rfl
    | updateTo ha hg v => exact safe_trySend (isResponse_updateJson _ _)
    | init hh hg => exact safe_of_silent (if_neg fun h => by cases h.2) rfl
    | @reply rpc id jv hh hjv => exact safe_of_silent (if_neg fun h => hother rpc hh h.1) rfl
    | _ => exact safe_of_silent rfl rfl
  · exact wp_gameToJson_any (safe_of_silent rfl rfl) fun _ => safe_of_silent rfl rfl
  · exact fun _ _ _ => trivial

theorem settles_serve {h : Handler} {rpc : RpcCall} (hh : h.rpc = some rpc) (hu : rpc.u = u) :
    wp (replySpec u owes) (fun o w => o = .ok () → w = rpc.id.toList.map some) (serve h) [] := by
  have hop : ∀ c : Cmd, c.responses u = [] → c.posts.flatMap owes = [] →
      Keeps (replySpec u owes) Open (fun _ => True) (op c) := fun c hr hp =>
    Prog.keeps_op (safe_of_silent hr hp)
  cases h with
  | doInsert u' => cases hh
  | doErase u' => cases hh
  | doPlay rpc' =>
    cases hh
    apply wp_catchRpc hu
    apply settles_bind (hop _ rfl rfl)
    intro r
    apply settles_bind (keeps_orFail (fun _ => trivial) r)
    intro _
    exact settles_bind (keeps_update_open "play") fun _ => settles_complete hu
  | doWatch rpc' =>
    cases hh
    apply wp_catchRpc hu
    apply settles_bind (hop _ rfl rfl)
    intro r
    apply settles_bind (keeps_orFail (fun _ => trivial) r)
    intro _
    exact settles_bind (keeps_update_open "watch") fun _ => settles_complete hu
  | doBet rpc' =>
    cases hh
    apply wp_catchRpc hu
    apply settles_bind
    · apply Prog.keeps_bind (hop _ rfl rfl)
      intro r
      cases r with
      | error ec => exact Prog.keeps_pure _
      | ok _ => exact Prog.keeps_bind (keeps_update_open "bet") fun _ => Prog.keeps_pure _
    · intro r
      exact settles_bind (keeps_orFail (fun _ => trivial) r) fun _ => settles_complete hu
  | doStart rpc' =>
    cases hh
    apply wp_catchRpc hu
    apply settles_bind _ fun _ => settles_complete hu
    apply Prog.keeps_bind (hop _ rfl rfl)
    intro r
    cases r with
    | error f => exact Prog.keeps_throw trivial
    | ok _ => exact keeps_update_open "deal"
  | doHit rpc' =>
    cases hh
    exact wp_catchRpc hu (settles_complete hu)
  | doStand rpc' =>
    cases hh
    exact wp_catchRpc hu (settles_complete hu)

/-- What the handlers send is what they owe. -/
theorem serve_responses {h : Handler} {t : List (Event Res)} (ht : Trace (serve h) t (.ok ())) :
    responses u t = h.owes u := by
  have hghost := ghost_replySpec u (fun _ => []) [] t
  have hfollows := Prog.follows_of_may (S := replySpec u fun _ => []) (fun _ _ _ => trivial) [] t
  have hflat : (t.flatMap fun e => e.1.responses u ++ e.1.posts.flatMap fun _ => []) =
      responses u t := by
    unfold responses
    congr 1
    funext e
    simp
  rw [hflat, List.nil_append] at hghost
  rw [← hghost]
  by_cases hown : ∃ rpc, h.rpc = some rpc ∧ rpc.u = u
  · obtain ⟨rpc, hh, hu⟩ := hown
    rw [Prog.wp_trace (settles_serve hh hu) ht hfollows rfl]
    simp [Handler.owes, hh, hu]
  · have hother : ∀ rpc, h.rpc = some rpc → rpc.u ≠ u := fun rpc hh hu => hown ⟨rpc, hh, hu⟩
    rw [Prog.wp_trace ((serve_silent hother).wp rfl) ht hfollows]
    unfold Handler.owes
    split
    · rfl
    · rename_i rpc hh
      rw [if_neg (hother rpc hh)]

end settles

/-- A list of at most one element has no other arrangement. -/
theorem eq_of_perm_toList {α : Type} {l : List α} {o : Option α} (h : l.Perm o.toList) :
    l = o.toList := by
  cases o with
  | none => exact List.Perm.eq_nil h
  | some a => exact List.perm_singleton.mp h

/-- Whatever the state of the server and the other threads do: if the processing of a frame and of
the handlers it posts ends without an exception, the user is sent one response with the id of the
request, or none if the request has no id. -/
theorem one_reply_per_request {u : UserId} {jv : Value} {tr : List (Event Res)}
    {ts : List (List (Event Res))} (hframe : Trace (readFrame u jv) tr (.ok ()))
    (hserve : List.Forall₂ (fun h t => Trace (serve h) t (.ok ())) (posted tr) ts) :
    responses u tr ++ ts.flatMap (responses u) = ((jv.member "id").map some).toList := by
  have hhandlers : ts.flatMap (responses u) = (posted tr).flatMap (Handler.owes u) := by
    clear hframe
    generalize posted tr = hs at hserve
    induction hserve with
    | nil => rfl
    | cons ht _ ih => rw [List.flatMap_cons, List.flatMap_cons, ih, serve_responses ht]
  have hall := Prog.wp_trace (wp_readFrame jv) hframe
    (Prog.follows_of_may (fun _ _ _ => trivial) _ _) rfl
  rw [ghost_replySpec, List.nil_append] at hall
  have hperm := List.flatMap_append_perm tr (fun e => e.1.responses u)
    fun e => e.1.posts.flatMap (Handler.owes u)
  have hids : (jv.member "id").toList.map some = ((jv.member "id").map some).toList := by
    cases jv.member "id" <;> rfl
  rw [hall, hids] at hperm
  apply eq_of_perm_toList
  rw [hhandlers, posted, List.flatMap_assoc]
  exact hperm

/-- The request to play at the table. -/
def playRequest : Value := request "play" [("cid", .number (.int 3))]

/-- The call that user 1's request to play becomes. -/
def playCall : RpcCall := (RpcCall.extract { u := 1 } playRequest).1

/-- A `play` request is answered by the handler it posts. -/
theorem one_reply_per_request_play :
    ∃ tr t, posted tr = [.doPlay playCall] ∧
      responses 1 tr ++ responses 1 t = [some (.number (.int 1))] := by
  have hframe := Prog.trace_events act (readFrame 1 playRequest) bootZero.sh
  have hserve := Prog.trace_events act (serve (.doPlay playCall)) bootZero.sh
  have hposted : posted ((readFrame 1 playRequest).events act bootZero.sh) = [.doPlay playCall] :=
    rfl
  have hall : List.Forall₂ (fun h t => Trace (serve h) t (.ok ()))
      (posted ((readFrame 1 playRequest).events act bootZero.sh))
      [(serve (.doPlay playCall)).events act bootZero.sh] := hposted ▸ .cons hserve .nil
  have hreply := one_reply_per_request hframe hall
  rw [List.flatMap_singleton] at hreply
  exact ⟨_, _, hposted, hreply⟩

end BeastLounge.Lounge
