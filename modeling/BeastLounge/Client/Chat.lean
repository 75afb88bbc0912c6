import BeastLounge.Lounge.Alone
import BeastLounge.Lounge.Answers

/-!
# The chat client

The object with which the page speaks to the server. It numbers its requests from 1; once the socket
is open it identifies, and joins the channel it will chat in. What the page lets its user do after that
is to say something, and to press one of the buttons of the table. A text that begins with a slash is
sent as a command under a key of its own, which the server does not look up.
-/

namespace BeastLounge.Client

open Theory Json Rpc Lounge

/-! ### The client -/

structure LoungeChat where
  id : Nat := 1
  /-- What has been passed to the socket. -/
  sent : List Value := []

namespace LoungeChat

def sendMessage (ws : LoungeChat) (method : String) (params : List (String × Value)) : LoungeChat where
  id := ws.id + 1
  sent := ws.sent ++
    [.object
      [("jsonrpc", .string "2.0"), ("method", .string method), ("id", .number (.int ws.id)),
        ("params", .object params)]]

/-- The listener of the socket's `open`. -/
def onOpen (ws : LoungeChat) (userName : String) : LoungeChat :=
  (ws.sendMessage "identify" [("cid", .number (.int 1)), ("name", .string userName)]).sendMessage "join"
    [("cid", .number (.int 2))]

/-- The button that sends what was written. -/
def onSend (ws : LoungeChat) (text : String) : LoungeChat :=
  if text.toList.head? ≠ some '/' then
    ws.sendMessage "say" [("cid", .number (.int 2)), ("message", .string text)]
  else ws.sendMessage "slash" [("cid", .number (.int 2)), ("command", .string text)]

end LoungeChat

/-- The buttons below the table. -/
inductive Button
  | join | leave | play | watch | bet | start | hit | stand
deriving DecidableEq

def Button.method : Button → String
  | .join => "join"
  | .leave => "leave"
  | .play => "play"
  | .watch => "watch"
  | .bet => "bet"
  | .start => "start"
  | .hit => "hit"
  | .stand => "stand"

/-- What the user of the page does. -/
inductive Action
  | send (text : String)
  | press (b : Button)

def LoungeChat.act (ws : LoungeChat) : Action → LoungeChat
  | .send text => ws.onSend text
  | .press b => ws.sendMessage b.method [("cid", .number (.int 3))]

/-- The client of a page whose user has done this since the socket was opened. -/
def chat (userName : String) (actions : List Action) : LoungeChat :=
  actions.foldl LoungeChat.act (LoungeChat.onOpen {} userName)

/-! ### What its requests do -/

/-- The request as it is extracted. -/
def call (u : UserId) (method : String) (id : Nat) (params : List (String × Value)) : RpcCall :=
  { id := some (.number (.int id)), u, version := 2, method, params := .object params }

def result (id : Nat) : Value := .object [("id", .number (.int id)), ("result", .null)]

def refusal (id : Nat) (msg : String) : Value := (RpcError.ofMsg msg).toJson (some (.number (.int id)))

/-- The user has a name, and is in the system channel, in the chat, and at the table or not. -/
def chatting (userName : String) (seated : Bool) : Own where
  name := userName
  joined := fun c => c = systemChannel || c = general || (c = table && seated)

namespace Action

/-- Whether the user is at the table afterwards. -/
def seats (seated : Bool) : Action → Bool
  | .press .join => true
  | .press .leave => false
  | _ => seated

/-- What the session answers at once. The table answers the requests of its other buttons. -/
def answer (seated : Bool) (id : Nat) : Action → List Value
  | .send text =>
    if text.toList.head? ≠ some '/' then [result id] else [refusal id "key 'message' not found"]
  | .press .join => if seated then [refusal id "Already in channel"] else [result id]
  | .press .leave => if seated then [result id] else [refusal id "Not in channel"]
  | .press _ => []

end Action

/-- What the session answers to the requests from the one with this id on. -/
def answers (seated : Bool) (id : Nat) : List Action → List Value
  | [] => []
  | a :: rest => a.answer seated id ++ answers (a.seats seated) (id + 1) rest

section account
variable {u : UserId} {method userName : String} {id : Nat} {params : List (String × Value)}
  {seated : Bool} {replies : List Value}

/-- Every message of the client is a request the server accepts. -/
theorem request_message (a : Account) : a.request u (.object
      [("jsonrpc", .string "2.0"), ("method", .string method), ("id", .number (.int id)),
        ("params", .object params)]) =
    a.settle (call u method id params) (a.own.request (call u method id params) none) := rfl

theorem named_chatting (hname : userName ≠ "") : (chatting userName seated).named = .ok () :=
  if_neg hname

theorem joined_table : (chatting userName seated).joined table = seated := by
  simp [chatting, table, systemChannel, general]

theorem add_table : (chatting userName seated).add table = chatting userName true := by
  simp only [Own.add, chatting, Own.mk.injEq, true_and]
  funext c
  by_cases hc : c = table
  · subst hc
    simp
  · simp [hc]

theorem remove_table : (chatting userName seated).remove table = chatting userName false := by
  simp only [Own.remove, chatting, Own.mk.injEq, true_and]
  funext c
  by_cases hc : c = table
  · subst hc
    simp [table, systemChannel, general]
  · simp [hc]

/-- What an action does to the account of a user that is chatting. -/
theorem request_act (u : UserId) (seated : Bool) (replies : List Value) (hname : userName ≠ "")
    (ws : LoungeChat) (act : Action) :
    ∃ jv, ws.act act = ⟨ws.id + 1, ws.sent ++ [jv]⟩ ∧
      Account.request u ⟨chatting userName seated, replies⟩ jv =
        ⟨chatting userName (act.seats seated), replies ++ act.answer seated ws.id⟩ := by
  cases act with
  | send text =>
    by_cases hplain : text.toList.head? ≠ some '/'
    · have hanswer : (Action.send text).answer seated ws.id = [result ws.id] := if_pos hplain
      refine ⟨_, if_pos hplain, ?_⟩
      have hsay : (chatting userName seated).request (call u "say" ws.id
          [("cid", .number (.int 2)), ("message", .string text)]) none =
          (chatting userName seated).named >>= fun _ => .ok (chatting userName seated, true) := rfl
      rw [request_message, hsay, named_chatting hname, hanswer]
      rfl
    · have hanswer : (Action.send text).answer seated ws.id =
          [refusal ws.id "key 'message' not found"] := if_neg hplain
      refine ⟨_, if_neg hplain, ?_⟩
      have hslash : (chatting userName seated).request (call u "slash" ws.id
          [("cid", .number (.int 2)), ("command", .string text)]) none =
          (chatting userName seated).named >>= fun _ =>
            .error (.ofMsg "key 'message' not found") := rfl
      rw [request_message, hslash, named_chatting hname, hanswer]
      rfl
  | press b =>
    refine ⟨_, rfl, ?_⟩
    rw [request_message]
    cases b with
    | join =>
      have hjoin : (chatting userName seated).request
          (call u "join" ws.id [("cid", .number (.int 3))]) none =
          ((chatting userName seated).named >>= fun _ => if (chatting userName seated).joined table then
            .error (.ofMsg "Already in channel") else .ok ((chatting userName seated).add table, true)) :=
        rfl
      rw [show Button.join.method = "join" from rfl, hjoin, named_chatting hname, joined_table, add_table]
      cases seated with
      | true => rfl
      | false => rfl
    | leave =>
      have hleave : (chatting userName seated).request
          (call u "leave" ws.id [("cid", .number (.int 3))]) none =
          (if (chatting userName seated).joined table then
            .ok ((chatting userName seated).remove table, true) else .error (.ofMsg "Not in channel")) :=
        rfl
      rw [show Button.leave.method = "leave" from rfl, hleave, joined_table, remove_table]
      cases seated with
      | true => rfl
      | false => rfl
    | _ => exact congrArg (Account.mk _) (List.append_nil _).symm

/-- The two requests of `open` are granted, when the name is one the server takes. -/
theorem request_open (hname : userName ≠ "") (hsize : userName.utf8ByteSize ≤ 20) :
    (LoungeChat.onOpen {} userName).sent.foldl (Account.request u) {} =
      ⟨chatting userName false, [result 1, result 2]⟩ := by
  have hidentify : ({} : Own).request (call u "identify" 1
      [("cid", .number (.int 1)), ("name", .string userName)]) none =
      if userName.utf8ByteSize > 20 then .error (.ofMsg "Invalid \"name\": too long")
      else .ok (Own.add { name := userName } systemChannel, true) := rfl
  rw [if_neg (Nat.not_lt.mpr hsize)] at hidentify
  have hjoin : (Own.add { name := userName } systemChannel).request (call u "join" 2
      [("cid", .number (.int 2))]) none =
      ((Own.add { name := userName } systemChannel).named >>= fun _ =>
        .ok ((Own.add { name := userName } systemChannel).add general, true)) := rfl
  have hnamed : (Own.add { name := userName } systemChannel).named = .ok () := if_neg hname
  rw [hnamed] at hjoin
  have hfirst : Account.request u {} (.object [("jsonrpc", .string "2.0"),
      ("method", .string "identify"), ("id", .number (.int (1 : Nat))),
      ("params", .object [("cid", .number (.int 1)), ("name", .string userName)])]) =
      ⟨Own.add { name := userName } systemChannel, [result 1]⟩ := by
    rw [request_message, hidentify]
    rfl
  have hsecond : Account.request u ⟨Own.add { name := userName } systemChannel, [result 1]⟩
      (.object [("jsonrpc", .string "2.0"), ("method", .string "join"),
        ("id", .number (.int (2 : Nat))), ("params", .object [("cid", .number (.int 2))])]) =
      ⟨(Own.add { name := userName } systemChannel).add general, [result 1, result 2]⟩ := by
    rw [request_message, hjoin]
    rfl
  have hown : (Own.add { name := userName } systemChannel).add general = chatting userName false := by
    simp only [Own.add, chatting, Own.mk.injEq, true_and]
    funext c
    by_cases hgeneral : c = general
    · simp [hgeneral]
    · by_cases hsystem : c = systemChannel
      · subst hsystem
        have hne : systemChannel ≠ general := by decide
        simp [Function.update_of_ne hne]
      · simp [hgeneral, hsystem]
  rw [← hown, ← hsecond, ← hfirst]
  rfl

/-- What the client's requests make of the account. -/
theorem request_actions (hname : userName ≠ "") (actions : List Action) (ws : LoungeChat)
    (h : ws.sent.foldl (Account.request u) {} = ⟨chatting userName seated, replies⟩) :
    (actions.foldl LoungeChat.act ws).sent.foldl (Account.request u) {} =
      ⟨chatting userName (actions.foldl Action.seats seated),
        replies ++ answers seated ws.id actions⟩ := by
  induction actions generalizing ws seated replies with
  | nil => exact h.trans (congrArg (Account.mk _) (List.append_nil _).symm)
  | cons act rest ih =>
    obtain ⟨jv, hact, hrequest⟩ := request_act u seated replies hname ws act
    have hnext : (ws.act act).sent.foldl (Account.request u) {} =
        ⟨chatting userName (act.seats seated), replies ++ act.answer seated ws.id⟩ := by
      rw [hact, List.foldl_append, h]
      exact hrequest
    have hrest := ih (ws.act act) hnext
    rw [hact, List.append_assoc] at hrest
    rw [List.foldl_cons, List.foldl_cons, hact]
    exact hrest

end account

/-! ### Runs -/

section run
variable {u : UserId} {userName : String} {actions : List Action} {tr : List (World × Label)}
  {w : World}

/-- In every run in which the frames of a user are those of a page whose user gave a name the server
takes: whenever its session processes none, the user is in the chat under that name, is at the table
if the page says so, and has been answered by its session in order, with the ids 1 and 2 first. -/
theorem chat_answered (hrun : Run step Booted tr w) (hrest : (w.phase u).quiet = true)
    (hname : userName ≠ "") (hsize : userName.utf8ByteSize ≤ 20)
    (hframes : frames u tr = (chat userName actions).sent) :
    account u tr w.sh = ⟨chatting userName (actions.foldl Action.seats false),
      result 1 :: result 2 :: answers false 3 actions⟩ := by
  rw [(alone hrun).quiet hrest, hframes]
  exact request_actions hname actions _ (request_open hname hsize)

end run

/-- What user 1 does on its page. -/
def annActs : List Action := [.press .join, .send "hi", .press .play]

/-- The steps in which the server reads the requests of user 1, each once the last is processed. -/
def annChats : List Label :=
  .connect 1 :: (List.zipWith (fun jv n => .frame 1 jv :: List.replicate n (.session 1))
    (chat "ann" annActs).sent [11, 10, 11, 8, 3]).flatten

theorem annChats_runs : (execute step annChats [] bootZero).isSome := by decide +kernel

theorem frames_annChats : frames 1 (traceOf annChats annChats_runs) = (chat "ann" annActs).sent := by
  have hlabels : (traceOf annChats annChats_runs).map Prod.snd = [] ++ annChats :=
    labels_execute annChats (Option.some_get annChats_runs).symm
  rw [frames_labels bootZero, hlabels]
  rfl

/-- User 1 is in the chat and at the table; its request to play is the strand's to answer. -/
theorem chat_answered_ann : ∃ tr w, Run step Booted tr w ∧ account 1 tr w.sh =
    ⟨chatting "ann" true, [result 1, result 2, result 3, result 4]⟩ := by
  have hrest : ((after annChats annChats_runs).phase 1).quiet = true := by decide +kernel
  have hrun := run_after annChats annChats_runs
  have hanswered := chat_answered hrun hrest (by decide) (by decide) frames_annChats
  exact ⟨_, _, hrun, hanswered⟩

section ids
variable {u : UserId} {userName : String} {actions : List Action} {tr : List (World × Label)}
  {w : World}

theorem asked_eq (u : UserId) (tr : List (World × Label)) :
    asked u tr = (frames u tr).flatMap fun jv => (jv.member "id").toList.map some := by
  induction tr with
  | nil => rfl
  | cons e tr ih =>
    have hasked : asked u (e :: tr) = e.2.asks u ++ asked u tr := List.flatMap_cons ..
    rw [hasked, ih]
    obtain ⟨s, l⟩ := e
    cases l with
    | frame v jv =>
      by_cases hv : v = u
      · simp [Label.asks, frames, hv]
      · simp [Label.asks, frames, hv]
    | _ => rfl

/-- The ids of a client's messages count from 1. -/
theorem ids_chat (userName : String) (actions : List Action) :
    ((chat userName actions).sent.flatMap fun jv => (jv.member "id").toList.map some) =
      (List.range' 1 (actions.length + 2)).map fun i : Nat => some (Value.number (.int i)) := by
  have hids : ∀ (actions : List Action) (ws : LoungeChat),
      ((actions.foldl LoungeChat.act ws).sent.flatMap fun jv => (jv.member "id").toList.map some) =
        (ws.sent.flatMap fun jv => (jv.member "id").toList.map some) ++
          (List.range' ws.id actions.length).map fun i : Nat => some (Value.number (.int i)) := by
    intro actions
    induction actions with
    | nil => exact fun ws => (List.append_nil _).symm
    | cons act rest ih =>
      intro ws
      have hsent : ∃ jv, (ws.act act) = ⟨ws.id + 1, ws.sent ++ [jv]⟩ ∧
          jv.member "id" = some (.number (.int ws.id)) := by
        cases act with
        | press b => exact ⟨_, rfl, rfl⟩
        | send text =>
          by_cases hplain : text.toList.head? ≠ some '/'
          · exact ⟨_, if_pos hplain, rfl⟩
          · exact ⟨_, if_neg hplain, rfl⟩
      obtain ⟨jv, hact, hid⟩ := hsent
      rw [List.foldl_cons, ih, hact, List.flatMap_append, List.length_cons, List.range'_succ]
      simp [hid]
  have hopen := hids actions (LoungeChat.onOpen {} userName)
  have hrange : List.range' 1 (actions.length + 2) = [1, 2] ++ List.range' 3 actions.length := by
    rw [Nat.add_comm, ← List.range'_append_1]
    rfl
  rw [hrange, List.map_append]
  exact hopen

/-- In every run in which the frames of a user are those of a page: while neither its session nor the
strand is at a request of it, the ids it has been answered are, with those of the requests that wait
for the table, those from 1 to the number of its requests, so no request is answered twice. -/
theorem chat_answers_once (hrun : Run step Booted tr w) (hsession : ∀ p, w.phase u ≠ .busy p)
    (hstrand : ∀ h p, w.running = some (h, p) → ¬h.concerns u)
    (hframes : frames u tr = (chat userName actions).sent) :
    (answered u tr ++ awaiting u w).Perm
        ((List.range' 1 (actions.length + 2)).map fun i : Nat => some (Value.number (.int i))) ∧
      (answered u tr ++ awaiting u w).Nodup := by
  obtain ⟨frame, given, owed, done, hw⟩ := balanced_run hrun u
  have hbalance := hw.perm hsession hstrand
  rw [asked_eq, hframes, ids_chat] at hbalance
  refine ⟨hbalance, hbalance.nodup_iff.mpr ?_⟩
  apply List.Nodup.map _ List.nodup_range'
  intro i j hij
  have hint : (i : Int) = j := by simpa using hij
  omega

end ids

theorem chat_answers_once_ann : ∃ tr w, Run step Booted tr w ∧ (awaiting 1 w).length = 1 ∧
    (answered 1 tr ++ awaiting 1 w).Perm
      ([1, 2, 3, 4, 5].map fun i : Nat => some (Value.number (.int i))) := by
  have hidle : (after annChats annChats_runs).running = none :=
    Option.isNone_iff_eq_none.mp (by decide +kernel)
  have hrest : ((after annChats annChats_runs).phase 1).quiet = true := by decide +kernel
  have hrun := run_after annChats annChats_runs
  obtain ⟨hperm, -⟩ := chat_answers_once hrun (fun p hp => by rw [hp] at hrest; cases hrest)
    (fun h p hp => by rw [hidle] at hp; cases hp) frames_annChats
  exact ⟨_, _, hrun, by decide +kernel, hperm⟩

end BeastLounge.Client
