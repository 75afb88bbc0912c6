import BeastLounge.Lounge.Identity
import BeastLounge.Lounge.Replies
import BeastLounge.Lounge.SeatHolders
import BeastLounge.Lounge.Standing

/-!
# A session on its own

What a user has of its own is its name and the channels it is in; its session reads nothing else of
the lounge that others can change, apart from those it tells. So the session answers its requests, one
after the other, as it would with nobody else there: `Account.request` says what a request does to the
name, to the channels and to the responses sent so far, and in every interleaving the session does
just that (`sessions_alone`).

The argument: with answers that fit the account of its user (`accountSpec`) each function of the
session does to the account what the request does, and only the session changes it.
-/

namespace BeastLounge.Lounge

open Theory Json Rpc

open Prog (Spec wp)

/-! ### What a request does -/

/-- The name of a user, and the channels that contain it. -/
structure Own where
  name : String := ""
  joined : Channel → Bool := fun _ => false

namespace Own

def add (s : Own) (c : Channel) : Own := { s with joined := Function.update s.joined c true }

def remove (s : Own) (c : Channel) : Own := { s with joined := Function.update s.joined c false }

/-- The requests that need a name. -/
def named (s : Own) : Except RpcError Unit :=
  if s.name = "" then .error (.ofMsg "No identity set") else .ok ()

/-- What becomes of it, and whether the request is answered at once: a request to the table is handed
to its strand. -/
abbrev Verdict := Except RpcError (Own × Bool)

def join (s : Own) (c : Channel) : Verdict := do
  s.named
  if s.joined c then .error (.ofMsg "Already in channel") else .ok (s.add c, true)

def leave (s : Own) (c : Channel) : Verdict :=
  if s.joined c then .ok (s.remove c, true) else .error (.ofMsg "Not in channel")

def identify (s : Own) (c : Channel) (params : Value) : Verdict := do
  let name ← checkedStringAt params "name"
  if name.utf8ByteSize > 20 then .error (.ofMsg "Invalid \"name\": too long")
  else if s.name = "" then .ok (add { s with name } c, true)
  else .error (.ofMsg "Identity is already set")

def say (s : Own) (c : Channel) (params : Value) : Verdict := do
  s.named
  if s.joined c then
    let _ ← checkedStringAt params "message"
    .ok (s, true)
  else .error (.ofMsg "not in channel")

def unknown : Verdict := .error (.ofCode .methodNotFound)

def system (s : Own) (c : Channel) (rpc : RpcCall) : Verdict :=
  if rpc.method = "identify" then s.identify c rpc.params
  else if rpc.method = "shutdown" ∨ rpc.method = "stop" then .ok (s, true)
  else unknown

def room (s : Own) (c : Channel) (rpc : RpcCall) : Verdict :=
  if rpc.method = "say" ∨ rpc.method = "slash" then s.say c rpc.params else unknown

def table (s : Own) (rpc : RpcCall) : Verdict :=
  if (tableHandler rpc).isSome then .ok (s, false) else unknown

/-- A request to a channel. -/
def perform (s : Own) (c : Channel) (rpc : RpcCall) : Verdict :=
  if rpc.method = "join" then s.join c
  else if rpc.method = "leave" then s.leave c
  else
    match c.kind with
    | .system => s.system c rpc
    | .room => s.room c rpc
    | .table => s.table rpc

/-- A request to what was found for its channel's id. -/
def find (s : Own) (rpc : RpcCall) : Option Channel → Verdict
  | some c => s.perform c rpc
  | none => .error (.ofCodeMsg .invalidParams "Unknown cid")

/-- A request as it was extracted. One whose channel's id cannot be converted ends the program. -/
def request (s : Own) (rpc : RpcCall) (ec : Option RpcCode) : Verdict :=
  match ec with
  | some ec => .error (.ofCodeMsg .invalidRequest ec.message)
  | none => do
    let v ← checkedValue rpc.params "cid"
    s.find rpc (v.toSize.bind fun cid => serverChannels.getD cid none)

end Own

/-! ### What is sent for a request -/

/-- The request fails where its channel's id is converted, which ends the program. -/
def escapes (rpc : RpcCall) (ec : Option RpcCode) : Bool :=
  ec.isNone && (rpc.params.member "cid").any fun v => v.toSize.isNone

/-- How the session answers the request; `none` if it does not. -/
def Own.outcome (s : Own) (rpc : RpcCall) (ec : Option RpcCode) : Option (Except RpcError Unit) :=
  match s.request rpc ec with
  | .ok (_, true) => some (.ok ())
  | .ok (_, false) => none
  | .error e => if escapes rpc ec then none else some (.error e)

/-- The channel a request is for. -/
def target (rpc : RpcCall) : Option Channel :=
  (rpc.params.member "cid").bind fun v => v.toSize.bind fun cid => serverChannels.getD cid none

/-- The request says something in this room. -/
def Own.saysIn (s : Own) (c : Channel) (rpc : RpcCall) : Prop :=
  c.kind = .room ∧ (rpc.method = "say" ∨ rpc.method = "slash") ∧ s.name ≠ "" ∧ s.joined c = true
deriving Decidable

/-- What the request says, and where. -/
def Own.says (s : Own) (rpc : RpcCall) (ec : Option RpcCode) : Option (Channel × String) :=
  match ec, target rpc, checkedStringAt rpc.params "message" with
  | none, some c, .ok text => if s.saysIn c rpc then some (c, text) else none
  | _, _, _ => none

theorem Own.says_eq_some {s : Own} {c : Channel} {rpc : RpcCall} {text : String}
    (htarget : target rpc = some c) (hin : s.saysIn c rpc)
    (htext : checkedStringAt rpc.params "message" = .ok text) : s.says rpc none = some (c, text) := by
  unfold Own.says
  rw [htarget, htext]
  exact if_pos hin

/-- What the session sends for the request, apart from notices of joins and leaves, meets `V`. -/
structure Own.Admits (V : Value → Prop) (s : Own) (rpc : RpcCall) (ec : Option RpcCode) : Prop where
  reply : ∀ o ∈ s.outcome rpc ec, ∀ jv ∈ reply rpc o, V jv
  say : ∀ x ∈ s.says rpc ec, V (sayNotice x.1 s.name x.2)

/-- What a user has, and the responses its session has sent it. -/
structure Account where
  own : Own := {}
  replies : List Value := []

namespace Account

/-- The account once the request has met with this verdict. -/
def settle (a : Account) (rpc : RpcCall) : Own.Verdict → Account
  | .ok (own, true) => ⟨own, a.replies ++ rpc.response.toList⟩
  | .ok (own, false) => ⟨own, a.replies⟩
  | .error e => ⟨a.own, a.replies ++ (rpc.errorResponse e).toList⟩

/-- What a frame of `u` does to its account. -/
def request (u : UserId) (a : Account) (jv : Value) : Account :=
  let (rpc, ec) := RpcCall.extract { u } jv
  a.settle rpc (a.own.request rpc ec)

end Account

/-! ### What a run has done -/

/-- The frames that have arrived from `u`, in order. -/
def frames (u : UserId) (tr : List (World × Label)) : List Value :=
  tr.filterMap fun e =>
    match e.2 with
    | .frame u' jv => if u' = u then some jv else none
    | _ => none

/-- The frames of a run are those of its labels, whatever worlds they are paired with. -/
theorem frames_labels {u : UserId} (w : World) (tr : List (World × Label)) :
    frames u tr = frames u ((tr.map Prod.snd).map (Prod.mk w)) := by
  unfold frames
  rw [List.filterMap_map, List.filterMap_map]
  rfl

/-- The response that an operation passes to the `send` of `u`. -/
def Cmd.ownReply (u : UserId) : Cmd → List Value
  | .send u' jv => if u' = u ∧ isResponse jv then [jv] else []
  | _ => []

/-- The response that the session of `u` sends it in this step. -/
def ownReplied (u : UserId) (w : World) (l : Label) : List Value :=
  match l with
  | .session u' => if u' = u then (operation w l).elim [] (Cmd.ownReply u) else []
  | _ => []

/-- The responses the session of `u` has sent it, in order. -/
def sessionReplies (u : UserId) (tr : List (World × Label)) : List Value :=
  tr.flatMap fun e => ownReplied u e.1 e.2

/-- What a user has in this state. -/
def Shared.own (w : Shared) (u : UserId) : Own := ⟨w.name u, fun c => decide (u ∈ w.users c)⟩

def account (u : UserId) (tr : List (World × Label)) (w : Shared) : Account :=
  ⟨w.own u, sessionReplies u tr⟩

/-! ### Programs -/

/-- The ghost value is the account of `u`. The responses and say notices that are sent meet `V`. -/
def accountSpec (V : Value → Prop) (u : UserId) : Spec Res Account where
  may
    | _, .at cid, r => r = serverChannels.getD cid none
    | a, .readName u', r => u' = u → r = a.own.name
    | a, .isJoined c u', r => u' = u → r = a.own.joined c
    | a, .usersInsert c u', r => u' = u → r = !a.own.joined c
    | a, .usersErase c u', r => u' = u → r = a.own.joined c
    | _, _, _ => True
  allow
    | _, .usersInsert _ u' => u' = u
    | _, .usersErase _ u' => u' = u
    | _, .writeName u' _ => u' = u
    | _, .send u' jv => u' = u ∧ isResponse jv ∧ V jv
    | _, .broadcast _ jv => ∀ c name text, jv = sayNotice c name text → V jv
    | _, .trySend _ jv => ∀ c name text, jv = sayNotice c name text → V jv
    | _, _ => True
  next
    | a, .usersInsert c _, r => if r then { a with own := a.own.add c } else a
    | a, .usersErase c _, r => if r then { a with own := a.own.remove c } else a
    | a, .writeName _ name, _ => { a with own := { a.own with name } }
    | a, .send _ jv, _ => { a with replies := a.replies ++ [jv] }
    | a, _, _ => a

theorem notice_ne_sayNotice (c c' : Channel) (verb name name' text : String) :
    c.notice verb name ≠ sayNotice c' name' text := by
  simp [Channel.notice, sayNotice]

theorem quiet_accountSpec (V : Value → Prop) (u : UserId) : Quiet (accountSpec V u) where
  readName _ _ := ⟨trivial, fun _ => rfl⟩
  broadcast _ _ _ _ := ⟨fun _ _ _ h => (notice_ne_sayNotice _ _ _ _ _ _ h).elim, fun _ => rfl⟩
  trySend _ _ _ _ _ := ⟨fun _ _ _ h => (notice_ne_sayNotice _ _ _ _ _ _ h).elim, fun _ => rfl⟩

/-- The account is as the verdict has it; after a failure it is as it was. -/
def Meets (rpc : RpcCall) (a : Account) (v : Own.Verdict) : Except Exn Unit → Account → Prop
  | .ok _, a' => (∃ r, v = .ok r) ∧ a' = a.settle rpc v
  | .error (.rpc e), a' => v = .error e ∧ a' = a
  | .error _, _ => True

/-- The program does to the account what this verdict says, if `V` admits the result of a success. -/
def Follows (V : Value → Prop) (u : UserId) (rpc : RpcCall) (a : Account) (v : Own.Verdict)
    (p : Act Unit) : Prop :=
  (∀ own, v = .ok (own, true) → ∀ jv, rpc.response = some jv → V jv) →
    wp (accountSpec V u) (Meets rpc a v) p a

section programs
variable {V : Value → Prop} {u : UserId} {rpc : RpcCall} {a : Account} {c : Channel}

theorem wp_complete_account (hu : rpc.u = u) (hV : ∀ jv, rpc.response = some jv → V jv)
    {post : Except Exn Unit → Account → Prop}
    (h : post (.ok ()) { a with replies := a.replies ++ rpc.response.toList }) :
    wp (accountSpec V u) post (complete rpc) a := by
  unfold complete
  split
  · rename_i hnone
    rw [hnone] at h
    simpa using h
  · rename_i jv hjv
    obtain ⟨id, -, hreply⟩ := isReply_response hjv
    rw [hjv] at h
    exact ⟨⟨hu, (isResponse_of_isReply hreply).1, hV jv hjv⟩, fun _ _ => h⟩

theorem wp_completeError_account (hu : rpc.u = u) {e : RpcError}
    (hV : ∀ jv, rpc.errorResponse e = some jv → V jv) {post : Except Exn Unit → Account → Prop}
    (h : post (.ok ()) { a with replies := a.replies ++ (rpc.errorResponse e).toList }) :
    wp (accountSpec V u) post (completeError rpc e) a := by
  unfold completeError
  split
  · rename_i hnone
    rw [hnone] at h
    simpa using h
  · rename_i jv hjv
    obtain ⟨id, -, hreply⟩ := isReply_errorResponse hjv
    rw [hjv] at h
    exact ⟨⟨hu, (isResponse_of_isReply hreply).1, hV jv hjv⟩, fun _ _ => h⟩

/-- `complete` is the last that a successful request does. -/
theorem wp_complete_meets (hu : rpc.u = u) {own : Own} (hV : ∀ jv, rpc.response = some jv → V jv) :
    wp (accountSpec V u) (Meets rpc a (.ok (own, true))) (complete rpc) ⟨own, a.replies⟩ :=
  wp_complete_account hu hV ⟨⟨_, rfl⟩, rfl⟩

/-- `insert` adds the channel unless it is there. -/
theorem wp_insert_account {post : Except Exn Bool → Account → Prop}
    (hin : a.own.joined c = true → post (.ok false) a)
    (hout : a.own.joined c = false → post (.ok true) { a with own := a.own.add c }) :
    wp (accountSpec V u) post (c.insert u) a := by
  refine wp_insert (quiet_accountSpec V u) rfl (fun hr => ?_) fun hr => ?_
  · have hjoined : false = !a.own.joined c := hr rfl
    exact hin (by simpa using hjoined.symm)
  · have hjoined : true = !a.own.joined c := hr rfl
    apply Prog.wp_bind.mpr
    refine Prog.wp_bind.mpr (Prog.wp_op.mpr ⟨trivial, fun inserted _ => ?_⟩)
    refine Prog.wp_op.mpr ⟨trivial, fun _ _ => ?_⟩
    apply Prog.wp_bind.mpr
    have hpost := hout (by simpa using hjoined.symm)
    unfold Channel.onInsert
    split
    · exact hpost
    · exact hpost
    · exact ⟨trivial, fun _ _ => hpost⟩

theorem wp_erase_account {post : Except Exn Bool → Account → Prop}
    (hout : a.own.joined c = false → post (.ok false) a)
    (hin : a.own.joined c = true → post (.ok true) { a with own := a.own.remove c }) :
    wp (accountSpec V u) post (c.erase u) a := by
  refine wp_erase (quiet_accountSpec V u) rfl (fun hr => ?_) fun hr => ?_
  · exact hout (hr rfl).symm
  · apply Prog.wp_bind.mpr
    refine Prog.wp_bind.mpr (Prog.wp_op.mpr ⟨trivial, fun erased _ => ?_⟩)
    refine Prog.wp_op.mpr ⟨trivial, fun _ _ => ?_⟩
    apply Prog.wp_bind.mpr
    have hpost := hin (hr rfl).symm
    unfold Channel.onErase
    split
    · exact hpost
    · exact hpost
    · exact ⟨trivial, fun _ _ => hpost⟩

theorem wp_checkedUser (hu : rpc.u = u) {post : Except Exn Unit → Account → Prop}
    (hno : a.own.name = "" → post (.error (.rpc (.ofMsg "No identity set"))) a)
    (hyes : a.own.name ≠ "" → post (.ok ()) a) :
    wp (accountSpec V u) post (Channel.checkedUser rpc) a := by
  refine Prog.wp_bind.mpr (Prog.wp_op.mpr ⟨trivial, fun name hname => ?_⟩)
  obtain rfl : name = a.own.name := hname hu
  dsimp only
  cases hempty : a.own.name.isEmpty with
  | true => exact hno (String.isEmpty_iff.mp hempty)
  | false => exact hyes fun h => by rw [h] at hempty; cases hempty

/-- Whatever needs a name begins with `checked_user`. -/
theorem follows_checkedUser (hu : rpc.u = u) {p : Act Unit} {v : Own.Verdict}
    (h : a.own.name ≠ "" → Follows V u rpc a v p) :
    Follows V u rpc a (a.own.named >>= fun _ => v) (Channel.checkedUser rpc >>= fun _ => p) := by
  unfold Own.named
  intro hV
  apply Prog.wp_bind.mpr
  apply wp_checkedUser hu
  · intro hempty
    rw [if_pos hempty]
    exact ⟨rfl, rfl⟩
  · intro hname
    rw [if_neg hname] at hV ⊢
    exact h hname hV

theorem follows_doJoin (hu : rpc.u = u) : Follows V u rpc a (a.own.join c) (c.doJoin rpc) := by
  apply follows_checkedUser hu
  intro _ hV
  apply Prog.wp_bind.mpr
  rw [hu]
  apply wp_insert_account
  · intro hin
    rw [hin]
    exact ⟨rfl, rfl⟩
  · intro hout
    rw [hout] at hV ⊢
    exact wp_complete_meets hu (hV _ rfl)

theorem follows_doLeave (hu : rpc.u = u) : Follows V u rpc a (a.own.leave c) (c.doLeave rpc) := by
  unfold Own.leave
  intro hV
  apply Prog.wp_bind.mpr
  rw [hu]
  apply wp_erase_account
  · intro hout
    rw [hout]
    exact ⟨rfl, rfl⟩
  · intro hin
    rw [hin] at hV ⊢
    exact wp_complete_meets hu (hV _ rfl)

/-- A check of the parameters comes before anything is done. -/
theorem follows_checked {α : Type} (r : Except RpcError α) {f : α → Own.Verdict} {p : α → Act Unit}
    (h : ∀ x, r = .ok x → Follows V u rpc a (f x) (p x)) :
    Follows V u rpc a (r >>= f) (checked r >>= p) := by
  cases r with
  | error e => exact fun _ => ⟨rfl, rfl⟩
  | ok x => exact h x rfl

theorem follows_doIdentify (hu : rpc.u = u) :
    Follows V u rpc a (a.own.identify c rpc.params) (doIdentify c rpc) := by
  apply follows_checked
  intro name _ hV
  by_cases hlong : name.utf8ByteSize > 20
  · rw [if_pos hlong, if_pos hlong]
    exact ⟨rfl, rfl⟩
  · rw [if_neg hlong] at hV
    rw [if_neg hlong, if_neg hlong]
    refine Prog.wp_bind.mpr (Prog.wp_op.mpr ⟨trivial, fun current hcurrent => ?_⟩)
    obtain rfl : current = a.own.name := hcurrent hu
    dsimp only
    cases hempty : a.own.name.isEmpty with
    | false =>
      rw [if_neg fun h => by rw [h] at hempty; cases hempty]
      exact ⟨rfl, rfl⟩
    | true =>
      rw [if_pos (String.isEmpty_iff.mp hempty)] at hV ⊢
      refine Prog.wp_bind.mpr (Prog.wp_op.mpr ⟨hu, fun _ _ => ?_⟩)
      apply Prog.wp_bind.mpr
      rw [hu]
      apply wp_insert_account
      · -- a user that has identified with the empty name is in the channel already
        intro hin
        have hadd : Own.add { a.own with name } c = { a.own with name } := by
          have hsame : Function.update a.own.joined c true = a.own.joined := by
            rw [← show a.own.joined c = true from hin, Function.update_eq_self]
          simp [Own.add, hsame]
        rw [hadd] at hV ⊢
        exact wp_complete_meets hu (hV _ rfl)
      · exact fun _ => wp_complete_meets hu (hV _ rfl)

theorem follows_doSay (hu : rpc.u = u)
    (hsay : ∀ text, a.own.name ≠ "" → a.own.joined c = true →
      checkedStringAt rpc.params "message" = .ok text → V (sayNotice c a.own.name text)) :
    Follows V u rpc a (a.own.say c rpc.params) (doSay c rpc) := by
  apply follows_checkedUser hu
  intro hname hV
  refine Prog.wp_bind.mpr (Prog.wp_op.mpr ⟨trivial, fun joined hjoined => ?_⟩)
  obtain rfl : joined = a.own.joined c := hjoined hu
  cases hin : a.own.joined c with
  | false => exact ⟨rfl, rfl⟩
  | true =>
    rw [hin] at hV
    refine follows_checked _ (fun text htext hV => ?_) hV
    refine Prog.wp_bind.mpr (Prog.wp_op.mpr ⟨trivial, fun name hread => ?_⟩)
    obtain rfl : name = a.own.name := hread hu
    have hnotice := hsay text hname hin htext
    apply Prog.wp_bind.mpr
    apply wp_channelSend
    · exact fun _ => ⟨fun _ _ _ _ => hnotice, fun _ => rfl⟩
    · exact fun _ _ => ⟨fun _ _ _ _ => hnotice, fun _ => rfl⟩
    · exact wp_complete_meets hu (hV _ rfl)

theorem follows_systemOnDispatch (hu : rpc.u = u) :
    Follows V u rpc a (a.own.system c rpc) (systemOnDispatch c rpc) := by
  unfold systemOnDispatch
  split
  · rename_i hm
    unfold Own.system
    rw [if_pos hm]
    exact follows_doIdentify hu
  · rename_i hm
    unfold Own.system
    rw [hm, if_neg (by decide), if_pos (.inl rfl)]
    intro hV
    exact Prog.wp_bind.mpr (Prog.wp_op.mpr ⟨trivial, fun _ _ => wp_complete_meets hu (hV _ rfl)⟩)
  · rename_i hm
    unfold Own.system
    rw [hm, if_neg (by decide), if_pos (.inr rfl)]
    intro hV
    exact Prog.wp_bind.mpr (Prog.wp_op.mpr ⟨trivial, fun _ _ => wp_complete_meets hu (hV _ rfl)⟩)
  · rename_i hidentify hshutdown hstop
    unfold Own.system
    rw [if_neg hidentify, if_neg fun h => h.elim hshutdown hstop]
    exact fun _ => ⟨rfl, rfl⟩

theorem follows_roomOnDispatch (hu : rpc.u = u) (hroom : c.kind = .room)
    (hsay : a.own.saysIn c rpc → ∀ text, checkedStringAt rpc.params "message" = .ok text →
      V (sayNotice c a.own.name text)) :
    Follows V u rpc a (a.own.room c rpc) (roomOnDispatch c rpc) := by
  unfold roomOnDispatch
  split
  · rename_i hm
    unfold Own.room
    rw [if_pos (.inl hm)]
    exact follows_doSay hu fun text hname hin => hsay ⟨hroom, .inl hm, hname, hin⟩ text
  · rename_i hm
    unfold Own.room
    rw [if_pos (.inr hm)]
    exact follows_doSay hu fun text hname hin => hsay ⟨hroom, .inr hm, hname, hin⟩ text
  · rename_i hsay hslash
    unfold Own.room
    rw [if_neg fun h => h.elim hsay hslash]
    exact fun _ => ⟨rfl, rfl⟩

theorem follows_tableOnDispatch : Follows V u rpc a (a.own.table rpc) (tableOnDispatch rpc) := by
  unfold Own.table tableOnDispatch
  cases htable : tableHandler rpc with
  | some h => exact fun _ => ⟨trivial, fun _ _ => ⟨⟨_, rfl⟩, rfl⟩⟩
  | none => exact fun _ => ⟨rfl, rfl⟩

theorem follows_onDispatch (hu : rpc.u = u) (hjoin : rpc.method ≠ "join")
    (hleave : rpc.method ≠ "leave")
    (hsay : a.own.saysIn c rpc → ∀ text, checkedStringAt rpc.params "message" = .ok text →
      V (sayNotice c a.own.name text)) :
    Follows V u rpc a (a.own.perform c rpc) (onDispatch c rpc) := by
  unfold Own.perform onDispatch
  rw [if_neg hjoin, if_neg hleave]
  cases hkind : c.kind with
  | system => exact follows_systemOnDispatch hu
  | room => exact follows_roomOnDispatch hu hkind hsay
  | table => exact follows_tableOnDispatch

theorem follows_channelDispatch (hu : rpc.u = u)
    (hsay : a.own.saysIn c rpc → ∀ text, checkedStringAt rpc.params "message" = .ok text →
      V (sayNotice c a.own.name text)) :
    Follows V u rpc a (a.own.perform c rpc) (c.dispatch rpc) := by
  unfold Channel.dispatch
  split
  · rename_i hm
    unfold Own.perform
    rw [if_pos hm]
    exact follows_doJoin hu
  · rename_i hm
    unfold Own.perform
    rw [hm, if_neg (by decide), if_pos rfl]
    exact follows_doLeave hu
  · rename_i hjoin hleave
    exact follows_onDispatch hu hjoin hleave hsay

theorem follows_dispatch (hu : rpc.u = u)
    (hsay : ∀ x ∈ a.own.says rpc none, V (sayNotice x.1 a.own.name x.2)) :
    Follows V u rpc a (a.own.request rpc none) (dispatch rpc) := by
  apply follows_checked
  intro v hv hV
  cases hsize : v.toSize with
  | none => trivial
  | some cid =>
    have htarget : target rpc = serverChannels.getD cid none := by
      simp [target, checkedValue_eq_ok.mp hv, hsize]
    rw [hsize] at hV
    refine Prog.wp_bind.mpr (Prog.wp_op.mpr ⟨trivial, fun r hr => ?_⟩)
    have hfind : serverChannels.getD cid none = r := hr.symm
    show wp _ (Meets rpc a (a.own.find rpc (serverChannels.getD cid none))) _ a
    replace hV : ∀ own, a.own.find rpc (serverChannels.getD cid none) = .ok (own, true) →
        ∀ jv, rpc.response = some jv → V jv := hV
    rw [hfind] at hV ⊢
    cases r with
    | none => exact ⟨rfl, rfl⟩
    | some c =>
      refine follows_channelDispatch hu (fun hin text htext => ?_) hV
      exact hsay (c, text) (Own.says_eq_some (htarget.trans hfind) hin htext)

theorem follows_frame (hu : rpc.u = u) (ec : Option RpcCode) :
    (∀ x ∈ a.own.says rpc ec, V (sayNotice x.1 a.own.name x.2)) →
    Follows V u rpc a (a.own.request rpc ec) (match ec with
      | some ec => fail (.ofCodeMsg .invalidRequest ec.message)
      | none => dispatch rpc) := by
  intro hsay
  cases ec with
  | some ec => exact fun _ => ⟨rfl, rfl⟩
  | none => exact follows_dispatch hu hsay

/-- Where the channel's id cannot be converted, nothing is caught. -/
theorem dispatch_escapes (h : escapes rpc none = true) : dispatch rpc = .throw .system := by
  obtain ⟨v, hv, hsize⟩ : ∃ v, rpc.params.member "cid" = some v ∧ v.toSize = none := by
    simpa [escapes, Option.any_eq_true] using h
  have hcid : checkedValue rpc.params "cid" = .ok v := checkedValue_eq_ok.mpr hv
  simp only [dispatch, hcid, checked, bind, pure, Prog.bind, hsize]

/-- What a frame does to the account of its user. -/
theorem wp_readFrame_account (jv : Value)
    (hV : a.own.Admits V (RpcCall.extract { u } jv).1 (RpcCall.extract { u } jv).2) :
    wp (accountSpec V u) (fun o a' => o = .ok () → a' = a.request u jv) (readFrame u jv) a := by
  have hu : (RpcCall.extract { u } jv).1.u = u := (RpcCall.extract_keeps { u } jv).2.1
  unfold readFrame frameBody Account.request
  generalize RpcCall.extract { u } jv = x at hu hV ⊢
  obtain ⟨rpc, ec⟩ := x
  replace hu : rpc.u = u := hu
  replace hV : a.own.Admits V rpc ec := hV
  have houtcome : ∀ own, a.own.request rpc ec = .ok (own, true) → a.own.outcome rpc ec = some (.ok ()) := by
    intro own hown
    rw [Own.outcome, hown]
  have hbody := follows_frame hu ec hV.say fun own hown => hV.reply (.ok ()) (houtcome own hown)
  apply Prog.wp_tryCatch.mpr
  by_cases hesc : escapes rpc ec = true
  · obtain rfl : ec = none := by
      cases ec with
      | none => rfl
      | some ec => cases hesc
    rw [dispatch_escapes hesc]
    exact nofun
  have herror : ∀ e, a.own.request rpc ec = .error e → a.own.outcome rpc ec = some (.error e) := by
    intro e he
    rw [Own.outcome, he]
    exact if_neg hesc
  apply Prog.wp_mono _ hbody
  intro o a' hmeets
  cases o with
  | ok r => exact fun _ => hmeets.2
  | error e =>
    cases e with
    | rpc e =>
      obtain ⟨hverdict, rfl⟩ := hmeets
      apply wp_completeError_account hu (hV.reply _ (herror e hverdict))
      intro _
      show _ = a'.settle rpc (a'.own.request rpc ec)
      rw [hverdict]
      rfl
    | system => exact fun h => by cases h
    | deal f => exact fun h => by cases h

end programs

/-! ### Runs -/

section snoc
variable {u : UserId} {tr : List (World × Label)} {w : World} {l : Label}

/-- What the frames of `u` have made of its account. -/
def requested (u : UserId) (tr : List (World × Label)) : Account :=
  (frames u tr).foldl (Account.request u) {}

theorem requested_frame (jv : Value) :
    requested u (tr ++ [(w, .frame u jv)]) = (requested u tr).request u jv := by
  simp [requested, frames, List.filterMap_append]

theorem requested_other (h : ∀ jv, l ≠ .frame u jv) :
    requested u (tr ++ [(w, l)]) = requested u tr := by
  have hnone : frames u [(w, l)] = [] := by
    cases l with
    | frame u' jv =>
      have hne : u' ≠ u := fun hu => h jv (hu ▸ rfl)
      simp [frames, hne]
    | _ => rfl
  have happ : frames u (tr ++ [(w, l)]) = frames u tr ++ frames u [(w, l)] := by
    simp [frames, List.filterMap_append]
  rw [requested, happ, hnone, List.append_nil]
  rfl

theorem sessionReplies_snoc :
    sessionReplies u (tr ++ [(w, l)]) = sessionReplies u tr ++ ownReplied u w l := by
  simp [sessionReplies]

theorem ownReplied_other (h : l ≠ .session u) : ownReplied u w l = [] := by
  cases l with
  | session v =>
    have hv : v ≠ u := fun hv => h (congrArg Label.session hv)
    exact if_neg hv
  | _ => rfl

theorem ownReplied_idle (h : operation w l = none) : ownReplied u w l = [] := by
  cases l with
  | session v =>
    unfold ownReplied
    rw [h]
    exact ite_self _
  | _ => rfl

end snoc

/-- No frame of the user is being processed, and its destructor has not begun. -/
def Phase.quiet : Phase → Bool
  | .absent => true
  | .idle => true
  | .closed => true
  | _ => false

/-- The session will have done to the account what was requested. -/
def PhaseFollows (V : Value → Prop) (u : UserId) (now req : Account) : Phase → Prop
  | .busy p => wp (accountSpec V u) (fun o a' => o = .ok () → a' = req) p now
  | .absent => now = req
  | .idle => now = req
  | .closed => now = req
  | _ => True

structure Alone (V : Value → Prop) (u : UserId) (tr : List (World × Label)) (w : World) : Prop where
  minding : Minding w
  channels : w.sh.channels = serverChannels
  phase : PhaseFollows V u (account u tr w.sh) (requested u tr) (w.phase u)

section step
variable {V : Value → Prop} {u : UserId} {tr : List (World × Label)} {w t : World} {l : Label}

theorem alone_boot (h : Booted w) : Alone V u [] w := by
  refine ⟨minding_boot h, ?_, ?_⟩
  · obtain ⟨rand, chips, before, rfl⟩ := h
    rfl
  · obtain ⟨rand, chips, before, rfl⟩ := h
    rfl

theorem account_standing (h : standing t.sh u = standing w.sh u) (tr : List (World × Label)) :
    account u tr t.sh = account u tr w.sh := by
  obtain ⟨hname, hmemb⟩ := Prod.mk.inj h
  have hjoined : ∀ c, (u ∈ t.sh.users c) = (u ∈ w.sh.users c) := fun c => congrFun hmemb c
  simp only [account, Shared.own, hname, hjoined]

/-- A step that does not concern `u`. -/
theorem Alone.other (hw : Alone V u tr w) (hminding : Minding t) (hchannels : t.sh.channels = w.sh.channels)
    (hl : ownReplied u w l = []) (hframe : ∀ jv, l ≠ .frame u jv) (hst : standing t.sh u = standing w.sh u)
    (hphase : t.phase u = w.phase u) : Alone V u (tr ++ [(w, l)]) t := by
  refine ⟨hminding, hchannels.trans hw.channels, ?_⟩
  rw [hphase, account_standing hst, requested_other hframe, account, sessionReplies_snoc, hl,
    List.append_nil]
  exact hw.phase

theorem account_usersInsert (tr : List (World × Label)) (c : Channel) :
    (w.sh.usersInsert c u).1 = !(account u tr w.sh).own.joined c ∧
      account u tr (w.sh.usersInsert c u).2 = if (w.sh.usersInsert c u).1 then
        { account u tr w.sh with own := (account u tr w.sh).own.add c } else account u tr w.sh := by
  unfold Shared.usersInsert
  split
  · rename_i hin
    exact ⟨by simp [account, Shared.own, hin], rfl⟩
  · rename_i hout
    refine ⟨by simp [account, Shared.own, hout], ?_⟩
    simp only [if_true, account, Shared.own, Own.add, Account.mk.injEq, Own.mk.injEq, true_and]
    refine ⟨funext fun c' => ?_, trivial⟩
    by_cases hc : c' = c
    · subst hc
      simp
    · simp [Function.update_of_ne hc]

theorem account_usersErase (tr : List (World × Label)) (c : Channel) :
    (w.sh.usersErase c u).1 = (account u tr w.sh).own.joined c ∧
      account u tr (w.sh.usersErase c u).2 = if (w.sh.usersErase c u).1 then
        { account u tr w.sh with own := (account u tr w.sh).own.remove c } else account u tr w.sh := by
  unfold Shared.usersErase
  split
  · rename_i hin
    refine ⟨by simp [account, Shared.own, hin], ?_⟩
    simp only [if_true, account, Shared.own, Own.remove, Account.mk.injEq, Own.mk.injEq, true_and]
    refine ⟨funext fun c' => ?_, trivial⟩
    by_cases hc : c' = c
    · subst hc
      simp
    · simp [Function.update_of_ne hc]
  · rename_i hout
    exact ⟨by simp [account, Shared.own, hout], rfl⟩

/-- The answers an operation of `u` gets fit its account, which follows them. -/
theorem act_account {c : Cmd} (hchannels : w.sh.channels = serverChannels)
    (hallow : (accountSpec V u).allow (account u tr w.sh) c) :
    (accountSpec V u).may (account u tr w.sh) c (act c w.sh).1 ∧
      (accountSpec V u).next (account u tr w.sh) c (act c w.sh).1 =
        ⟨(account u tr (act c w.sh).2).own, sessionReplies u tr ++ c.ownReply u⟩ := by
  have hother : ∀ {c : Cmd}, c.subject = none → c.ownReply u = [] →
      (accountSpec V u).next (account u tr w.sh) c (act c w.sh).1 = account u tr w.sh →
      (accountSpec V u).next (account u tr w.sh) c (act c w.sh).1 =
        ⟨(account u tr (act c w.sh).2).own, sessionReplies u tr ++ c.ownReply u⟩ := by
    intro c hsubject hreplies hnext
    have hst : standing (act c w.sh).2 u = standing w.sh u :=
      act_standing (by rw [hsubject]; exact nofun)
    have hown : (account u tr (act c w.sh).2) = account u tr w.sh :=
      account_standing (t := { w with sh := (act c w.sh).2 }) hst tr
    rw [hnext, hown, hreplies, List.append_nil]
    rfl
  cases c with
  | usersInsert ch u' =>
    obtain rfl : u' = u := hallow
    have hinsert := account_usersInsert (u := u') (w := w) tr ch
    refine ⟨fun _ => hinsert.1, ?_⟩
    show (if (w.sh.usersInsert ch u').1 then _ else _) = Account.mk _ (_ ++ [])
    rw [List.append_nil]
    exact hinsert.2.symm
  | usersErase ch u' =>
    obtain rfl : u' = u := hallow
    have herase := account_usersErase (u := u') (w := w) tr ch
    refine ⟨fun _ => herase.1, ?_⟩
    show (if (w.sh.usersErase ch u').1 then _ else _) = Account.mk _ (_ ++ [])
    rw [List.append_nil]
    exact herase.2.symm
  | writeName u' name =>
    obtain rfl : u' = u := hallow
    refine ⟨trivial, ?_⟩
    have hname : (act (.writeName u' name) w.sh).2.name u' = name := Function.update_self ..
    show _ = Account.mk ⟨_, _⟩ _
    rw [hname]
    exact congrArg _ (List.append_nil _).symm
  | send u' jv =>
    obtain ⟨rfl, hresponse, -⟩ := hallow
    refine ⟨trivial, ?_⟩
    have hreplies : (Cmd.send u' jv).ownReply u' = [jv] := if_pos ⟨rfl, hresponse⟩
    rw [hreplies]
    rfl
  | «at» cid =>
    have hat : w.sh.channels.getD cid none = serverChannels.getD cid none := by rw [hchannels]
    exact ⟨hat, hother rfl rfl rfl⟩
  | readName u' =>
    refine ⟨?_, hother rfl rfl rfl⟩
    rintro rfl
    rfl
  | isJoined ch u' =>
    refine ⟨?_, hother rfl rfl rfl⟩
    rintro rfl
    rfl
  | _ => exact ⟨trivial, hother rfl rfl rfl⟩

theorem Alone.busy (hw : Alone V u tr w) {p : Act Unit} (h : w.phase u = .busy p) :
    wp (accountSpec V u) (fun o a' => o = .ok () → a' = requested u tr) p (account u tr w.sh) := by
  have hphase := hw.phase
  rwa [h] at hphase

/-- A step of the thread of `u` that is no operation. -/
theorem Alone.own (hw : Alone V u tr w) {p : Phase} {sh : Shared}
    (hminding : Minding ({ w with sh := sh }.setPhase u p)) (hop : operation w l = none)
    (hframe : ∀ jv, l ≠ .frame u jv) (hchannels : sh.channels = w.sh.channels)
    (hst : standing sh u = standing w.sh u)
    (hp : PhaseFollows V u (account u tr w.sh) (requested u tr) p) :
    Alone V u (tr ++ [(w, l)]) ({ w with sh := sh }.setPhase u p) := by
  refine ⟨hminding, hchannels.trans hw.channels, ?_⟩
  have hacc : account u tr sh = account u tr w.sh :=
    account_standing (t := { w with sh := sh }) hst tr
  have hsame : account u (tr ++ [(w, l)]) sh = account u tr sh := by
    rw [account, sessionReplies_snoc, ownReplied_idle hop, List.append_nil]
    rfl
  show PhaseFollows V u (account u (tr ++ [(w, l)]) sh) _ _
  rw [setPhase_self, hsame, hacc, requested_other hframe]
  exact hp

theorem Alone.ofOp (hw : Alone V u tr w) {c : Cmd} {k : Res c → Act Unit}
    (h : w.phase u = .busy (.call c k))
    (hminding : Minding ({ w with sh := (act c w.sh).2 }.setPhase u (.busy (k (act c w.sh).1)))) :
    Alone V u (tr ++ [(w, .session u)])
      ({ w with sh := (act c w.sh).2 }.setPhase u (.busy (k (act c w.sh).1))) := by
  obtain ⟨hallow, hk⟩ := hw.busy h
  obtain ⟨hmay, hnext⟩ := act_account hw.channels hallow
  have hop : operation w (.session u) = some c := by simp [operation, h]
  have hreplied : ownReplied u w (.session u) = c.ownReply u := by
    unfold ownReplied
    rw [hop]
    exact if_pos rfl
  refine ⟨hminding, act_fixed.1.trans hw.channels, ?_⟩
  have hacc : account u (tr ++ [(w, .session u)]) (act c w.sh).2 =
      ⟨(account u tr (act c w.sh).2).own, sessionReplies u tr ++ c.ownReply u⟩ := by
    rw [account, sessionReplies_snoc, hreplied]
    rfl
  show PhaseFollows V u (account u (tr ++ [(w, .session u)]) (act c w.sh).2) _ _
  rw [setPhase_self, hacc, ← hnext, requested_other fun _ => Label.noConfusion]
  exact hk _ hmay

/-- The destructor has begun: what becomes of the account is up to it. -/
theorem Alone.gone (hw : Alone V u tr w) {p : Phase} {sh : Shared}
    (hminding : Minding ({ w with sh := sh }.setPhase u p)) (hchannels : sh.channels = w.sh.channels)
    (hp : ∀ now req, PhaseFollows V u now req p) :
    Alone V u (tr ++ [(w, l)]) ({ w with sh := sh }.setPhase u p) := by
  refine ⟨hminding, hchannels.trans hw.channels, ?_⟩
  rw [setPhase_self]
  exact hp _ _

/-- What the session of `u` sends for the request that arrives in this step meets `V`. -/
def FrameAdmits (V : Value → Prop) (u : UserId) (w : World) (l : Label) : Prop :=
  ∀ jv, l = .frame u jv →
    (w.sh.own u).Admits V (RpcCall.extract { u } jv).1 (RpcCall.extract { u } jv).2

theorem alone_step (hw : Alone V u tr w) (hadmits : FrameAdmits V u w l) (hs : step w l = some t) :
    Alone V u (tr ++ [(w, l)]) t := by
  have hminding := minding_step hw.minding hs
  -- the thread of another user takes a step
  have hother : ∀ {v : UserId} {p : Phase} {l : Label} (sh : Shared),
      Minding ({ w with sh := sh }.setPhase v p) → v ≠ u → l ≠ .session u → (∀ jv, l ≠ .frame u jv) →
      sh.channels = w.sh.channels → standing sh u = standing w.sh u →
      Alone V u (tr ++ [(w, l)]) ({ w with sh := sh }.setPhase v p) :=
    fun sh hm hv hl hframe hch hst =>
      hw.other hm hch (ownReplied_other hl) hframe hst (setPhase_ne _ _ (Ne.symm hv))
  have hlabel : ∀ {v : UserId}, v ≠ u → Label.session v ≠ .session u :=
    fun hv h => hv (Label.session.inj h)
  have hphase : ∀ {p : Phase}, w.phase u = p → PhaseFollows V u (account u tr w.sh) (requested u tr) p :=
    fun h => h ▸ hw.phase
  cases step_moves hs with
  | @connect v h =>
    by_cases hv : v = u
    · subst hv
      have hp : account v tr w.sh = requested v tr := hphase h
      exact hw.own hminding rfl (fun _ => Label.noConfusion) rfl rfl hp
    · exact hother w.sh hminding hv nofun nofun rfl rfl
  | @frame v jv h =>
    by_cases hv : v = u
    · subst hv
      have hp : account v tr w.sh = requested v tr := hphase h
      refine ⟨hminding, hw.channels, ?_⟩
      have hreplied : ownReplied v w (.frame v jv) = [] := rfl
      show PhaseFollows V v (account v (tr ++ [(w, .frame v jv)]) w.sh) _ _
      rw [setPhase_self, account, sessionReplies_snoc, hreplied, List.append_nil,
        requested_frame, ← hp]
      exact wp_readFrame_account jv (hadmits jv rfl)
    · refine hother w.sh hminding hv nofun (fun jv' h' => ?_) rfl rfl
      exact hv (Label.frame.inj h').1
  | @sessionOp v c k h =>
    by_cases hv : v = u
    · subst hv
      exact hw.ofOp h hminding
    · refine hother _ hminding hv (hlabel hv) nofun act_fixed.1 (act_standing fun hc => ?_)
      exact hv ((hw.minding.busy h).1 u hc).symm
  | @sessionDone v a h =>
    by_cases hv : v = u
    · subst hv
      exact hw.own hminding (by simp [operation, h]) nofun rfl rfl (hw.busy h rfl)
    · exact hother w.sh hminding hv (hlabel hv) nofun rfl rfl
  | @sessionThrow v e h =>
    exact hw.other hminding rfl (ownReplied_idle (by simp [operation, h])) nofun rfl rfl
  | @eraseLast v n k c h =>
    by_cases hv : v = u
    · subst hv
      exact hw.gone hminding rfl fun _ _ => trivial
    · exact hother w.sh hminding hv (hlabel hv) nofun rfl rfl
  | @ended v n k h =>
    by_cases hv : v = u
    · subst hv
      exact hw.gone hminding rfl fun _ _ => trivial
    · exact hother w.sh hminding hv (hlabel hv) nofun rfl rfl
  | @eraseOp v n k c k' h =>
    by_cases hv : v = u
    · subst hv
      exact hw.gone hminding act_fixed.1 fun _ _ => trivial
    · refine hother _ hminding hv (hlabel hv) nofun act_fixed.1 (act_standing fun hc => ?_)
      exact hv ((hw.minding.erasing h).1 u hc).symm
  | @eraseDone v n k a h =>
    by_cases hv : v = u
    · subst hv
      exact hw.gone hminding rfl fun _ _ => trivial
    · exact hother w.sh hminding hv (hlabel hv) nofun rfl rfl
  | @eraseThrow v n k e h =>
    exact hw.other hminding rfl (ownReplied_idle (by simp [operation, h])) nofun rfl rfl
  | @close v h =>
    by_cases hv : v = u
    · subst hv
      have hp : account v tr w.sh = requested v tr := hphase h
      exact hw.own hminding rfl (fun _ => Label.noConfusion) rfl rfl hp
    · exact hother w.sh hminding hv nofun nofun rfl rfl
  | @destroy v h =>
    by_cases hv : v = u
    · subst hv
      exact hw.gone hminding rfl fun _ _ => trivial
    · exact hother (w.expire v).sh hminding hv nofun nofun rfl rfl
  | serve => exact hw.other hminding rfl rfl nofun rfl rfl
  | tableOp hrun =>
    exact hw.other hminding act_fixed.1 rfl nofun
      (act_standing fun hc => (hw.minding.strand _ _ hrun).1 u hc) rfl
  | tableDone => exact hw.other hminding rfl rfl nofun rfl rfl
  | tableThrow => exact hw.other hminding rfl rfl nofun rfl rfl
  | announce => exact hw.other hminding rfl rfl nofun rfl rfl
  | notify => exact hw.other hminding act_fixed.1 rfl nofun (act_standing nofun) rfl
  | announced => exact hw.other hminding rfl rfl nofun rfl rfl

theorem alone_of_admits (hrun : Run step Booted tr w) (hadmits : AllSteps (FrameAdmits V u) tr) :
    Alone V u tr w := by
  induction hrun with
  | nil h => exact alone_boot h
  | snoc hrun hs ih =>
    obtain ⟨hbefore, hlast⟩ := allSteps_snoc.mp hadmits
    exact alone_step (ih hbefore) hlast hs

theorem alone (hrun : Run step Booted tr w) : Alone (fun _ => True) u tr w :=
  alone_of_admits hrun fun _ _ _ _ => ⟨fun _ _ _ _ => trivial, fun _ _ => trivial⟩

theorem Alone.quiet (hw : Alone V u tr w) (hrest : (w.phase u).quiet = true) :
    account u tr w.sh = (frames u tr).foldl (Account.request u) {} := by
  have hphase := hw.phase
  cases h : w.phase u with
  | absent => rwa [h] at hphase
  | idle => rwa [h] at hphase
  | closed => rwa [h] at hphase
  | busy p => rw [h] at hrest; cases hrest
  | ending n k => rw [h] at hrest; cases hrest
  | erasing n k p => rw [h] at hrest; cases hrest
  | dead => rw [h] at hrest; cases hrest

/-- In every run, whenever no frame of a user is being processed and its destructor has not begun, the
name of the user, the channels that contain it and the responses its session has sent it are those
that its frames make of the account of a user who is alone. -/
theorem sessions_alone (hrun : Run step Booted tr w) (hrest : (w.phase u).quiet = true) :
    account u tr w.sh = (frames u tr).foldl (Account.request u) {} :=
  (alone hrun).quiet hrest

end step

/-- User 1 has identified and joined the table; its request to play is with the strand. -/
theorem sessions_alone_ann : ∃ tr w, Run step Booted tr w ∧ (frames 1 tr).length = 3 ∧
    w.sh.name 1 = "ann" ∧ account 1 tr w.sh = (frames 1 tr).foldl (Account.request 1) {} := by
  have hrest : ((after annPlays annPlays_runs).phase 1).quiet = true := by decide +kernel
  have hrun := run_after annPlays annPlays_runs
  exact ⟨_, _, hrun, by decide +kernel, by decide +kernel, sessions_alone hrun hrest⟩

end BeastLounge.Lounge
