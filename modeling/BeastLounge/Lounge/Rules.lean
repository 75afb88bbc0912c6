import BeastLounge.Lounge.Table

/-!
# Rules for the programs of the lounge

What a session does while it processes a frame is an insertion into a channel, an erasure from one,
and operations that concern neither (`SessionCmd`). So a property of a ghost value is kept by every
frame once it is kept by these three (`keeps_readFrame`); likewise for a handler of the table
(`TableCmd`, `keeps_serve`).
-/

namespace BeastLounge.Lounge

open Theory Json Rpc

open Prog (Spec wp Keeps keeps_pure keeps_throw keeps_op keeps_op_bind keeps_bind keeps_tryCatch
  keeps_each)

variable {V α : Type} {S : Spec Res V} {I : V → Prop} {T : Exn → Prop}

/-- A response to a request with this id. -/
def IsReply (id jv : Value) : Prop :=
  (∃ result, jv = .object [("id", id), ("result", result)]) ∨
    ∃ e : RpcError, jv = e.toJson (some id)

theorem isReply_response {rpc : RpcCall} {jv : Value} (h : rpc.response = some jv) :
    ∃ id, rpc.id = some id ∧ IsReply id jv := by
  obtain ⟨id, hid, rfl⟩ := Option.map_eq_some_iff.mp h
  exact ⟨id, hid, .inl ⟨_, rfl⟩⟩

theorem isReply_errorResponse {rpc : RpcCall} {e : RpcError} {jv : Value}
    (h : rpc.errorResponse e = some jv) : ∃ id, rpc.id = some id ∧ IsReply id jv := by
  obtain ⟨id, hid, rfl⟩ := Option.map_eq_some_iff.mp h
  exact ⟨id, hid, .inr ⟨_, rfl⟩⟩

/-! ### Insertion and erasure

Between the two records of membership, `insert` and `erase` read a name and pass a notice on. -/

/-- The specification neither restricts nor follows what only passes notices on. -/
structure Quiet (S : Spec Res V) : Prop where
  readName : ∀ u, S.Idle (.readName u)
  broadcast : ∀ (c : Channel) verb name, S.Idle (.broadcast c (c.notice verb name))
  trySend : ∀ u (c : Channel) verb name, S.Idle (.trySend u (c.notice verb name))

theorem wp_channelSend {c : Channel} {jv : Value} (hbroadcast : S.Idle (.broadcast c jv))
    (htrySend : ∀ u, S.Idle (.trySend u jv)) {post : Except Exn Unit → V → Prop} {v : V}
    (h : post (.ok ()) v) : wp S post (c.send jv) v := by
  apply Prog.wp_bind.mpr
  apply Prog.wp_op_idle hbroadcast
  intro us _
  apply Prog.wp_each (I := (· = v)) rfl
  · rintro u - w rfl
    exact Prog.wp_op_idle (htrySend u) fun _ _ => ⟨rfl, rfl⟩
  · rintro w rfl
    exact h

theorem wp_insert (hq : Quiet S) {c : Channel} {u : UserId} {post : Except Exn Bool → V → Prop}
    {v : V} (hallow : S.allow v (.usersInsert c u))
    (hno : S.may v (.usersInsert c u) false → post (.ok false) (S.next v (.usersInsert c u) false))
    (hyes : S.may v (.usersInsert c u) true →
      wp S post (userOnInsert u c >>= fun _ => c.onInsert u >>= fun _ => pure true)
        (S.next v (.usersInsert c u) true)) :
    wp S post (c.insert u) v := by
  refine Prog.wp_bind.mpr (Prog.wp_op.mpr ⟨hallow, fun inserted hr => ?_⟩)
  cases inserted with
  | false => exact hno hr
  | true =>
    apply Prog.wp_bind.mpr
    apply Prog.wp_op_idle (hq.readName u)
    intro name _
    apply Prog.wp_bind.mpr
    apply wp_channelSend (hq.broadcast c _ _) fun v => hq.trySend v c _ _
    exact hyes hr

theorem wp_erase (hq : Quiet S) {c : Channel} {u : UserId} {post : Except Exn Bool → V → Prop}
    {v : V} (hallow : S.allow v (.usersErase c u))
    (hno : S.may v (.usersErase c u) false → post (.ok false) (S.next v (.usersErase c u) false))
    (hyes : S.may v (.usersErase c u) true →
      wp S post (userOnErase u c >>= fun _ => c.onErase u >>= fun _ => pure true)
        (S.next v (.usersErase c u) true)) :
    wp S post (c.erase u) v := by
  refine Prog.wp_bind.mpr (Prog.wp_op.mpr ⟨hallow, fun erased hr => ?_⟩)
  cases erased with
  | false => exact hno hr
  | true =>
    apply Prog.wp_bind.mpr
    apply Prog.wp_op_idle (hq.readName u)
    intro name _
    apply Prog.wp_bind.mpr
    apply wp_channelSend (hq.broadcast c _ _) fun v => hq.trySend v c _ _
    apply Prog.wp_bind.mpr
    apply Prog.wp_op_idle (hq.trySend u c _ _)
    intro _ _
    exact hyes hr

/-- The operations of `channel::insert` and `channel::erase`; `N` describes the names that the
notices mention. -/
inductive MemberCmd (N : String → Prop) (c : Channel) (u : UserId) : Cmd → Prop
  | usersInsert : MemberCmd N c u (.usersInsert c u)
  | usersErase : MemberCmd N c u (.usersErase c u)
  | readName : MemberCmd N c u (.readName u)
  | notice {verb name : String} (hverb : verb.utf8ByteSize ≤ 5) (hname : N name) :
      MemberCmd N c u (.broadcast c (c.notice verb name))
  | noticeTo {verb name : String} (hverb : verb.utf8ByteSize ≤ 5) (hname : N name) (v : UserId) :
      MemberCmd N c u (.trySend v (c.notice verb name))
  | channelsInsert : MemberCmd N c u (.channelsInsert u c)
  | channelsErase : MemberCmd N c u (.channelsErase u c)
  | verify (b : Bool) : MemberCmd N c u (.verify b)
  | doInsert : MemberCmd N c u (.post (.doInsert u))
  | doErase : MemberCmd N c u (.post (.doErase u))

theorem keeps_channelSend {c : Channel} {jv : Value} (hb : S.Safe I (.broadcast c jv))
    (ht : ∀ v, S.Safe I (.trySend v jv)) : Keeps S I T (c.send jv) :=
  keeps_bind (keeps_op hb) fun _ => keeps_each fun v _ => keeps_op (ht v)

section callbacks
variable {c : Channel} {u : UserId} (hverify : ∀ b, S.Safe I (.verify b))

include hverify in
theorem keeps_userOnInsert (h : S.Safe I (.channelsInsert u c)) : Keeps S I T (userOnInsert u c) :=
  keeps_bind (keeps_op h) fun b => keeps_op (hverify b)

include hverify in
theorem keeps_userOnErase (h : S.Safe I (.channelsErase u c)) : Keeps S I T (userOnErase u c) :=
  keeps_bind (keeps_op h) fun b => keeps_op (hverify b)

theorem keeps_onInsert (h : S.Safe I (.post (.doInsert u))) : Keeps S I T (c.onInsert u) := by
  unfold Channel.onInsert
  split
  · exact keeps_pure ()
  · exact keeps_pure ()
  · exact keeps_op h

theorem keeps_onErase (h : S.Safe I (.post (.doErase u))) : Keeps S I T (c.onErase u) := by
  unfold Channel.onErase
  split
  · exact keeps_pure ()
  · exact keeps_pure ()
  · exact keeps_op h

end callbacks

section member
variable {N : String → Prop} {c : Channel} {u : UserId}
  (hname : ∀ v name, I v → S.may v (.readName u) name → N name)

theorem keeps_sendNotice {verb name : String}
    (hops : ∀ cmd, MemberCmd N c u cmd → (∀ c' u', cmd ≠ .usersInsert c' u') → S.Safe I cmd)
    (hverb : verb.utf8ByteSize ≤ 5) (hN : N name) : Keeps S I T (c.send (c.notice verb name)) :=
  keeps_channelSend (hops _ (.notice hverb hN) nofun) fun v => hops _ (.noticeTo hverb hN v) nofun

include hname

theorem keeps_insert_of_safe (hops : ∀ cmd, MemberCmd N c u cmd → S.Safe I cmd) :
    Keeps S I T (c.insert u) := by
  apply keeps_bind (keeps_op (hops _ .usersInsert))
  intro inserted
  cases inserted with
  | false => exact keeps_pure _
  | true =>
    apply keeps_op_bind (hops _ .readName) hname
    intro name hN
    apply keeps_bind (keeps_sendNotice (fun cmd h _ => hops cmd h) (by decide) hN)
    intro _
    apply keeps_bind (keeps_userOnInsert (fun b => hops _ (.verify b)) (hops _ .channelsInsert))
    intro _
    exact keeps_bind (keeps_onInsert (hops _ .doInsert)) fun _ => keeps_pure _

theorem keeps_erase_of_safe
    (hops : ∀ cmd, MemberCmd N c u cmd → (∀ c' u', cmd ≠ .usersInsert c' u') → S.Safe I cmd) :
    Keeps S I T (c.erase u) := by
  apply keeps_bind (keeps_op (hops _ .usersErase nofun))
  intro erased
  cases erased with
  | false => exact keeps_pure _
  | true =>
    apply keeps_op_bind (hops _ .readName nofun) hname
    intro name hN
    apply keeps_bind (keeps_sendNotice hops (by decide) hN)
    intro _
    apply keeps_bind (keeps_op (hops _ (.noticeTo (by decide) hN u) nofun))
    intro _
    apply keeps_bind
      (keeps_userOnErase (fun b => hops _ (.verify b) nofun) (hops _ .channelsErase nofun))
    intro _
    exact keeps_bind (keeps_onErase (hops _ .doErase nofun)) fun _ => keeps_pure _

end member

/-! ### Sessions -/

/-- The operations of a session of `u` other than those of `channel::insert` and `channel::erase`. -/
inductive SessionCmd (u : UserId) : Cmd → Prop
  | at (cid : Nat) : SessionCmd u (.at cid)
  | isJoined (c : Channel) : SessionCmd u (.isJoined c u)
  | readName : SessionCmd u (.readName u)
  | writeName {name : String} (h : name.utf8ByteSize ≤ 20) : SessionCmd u (.writeName u name)
  | say (c : Channel) (name text : String) : SessionCmd u (.broadcast c (sayNotice c name text))
  | sayTo (c : Channel) (name text : String) (v : UserId) :
      SessionCmd u (.trySend v (sayNotice c name text))
  | reply {id jv : Value} (h : IsReply id jv) : SessionCmd u (.send u jv)
  | post {rpc : RpcCall} {h : Handler} (hu : rpc.u = u) (hh : tableHandler rpc = some h) :
      SessionCmd u (.post h)
  | server (r : ServerRequest) : SessionCmd u (.server r)

/-- `T`, or an `rpc_error`. -/
def OrRpc (T : Exn → Prop) (e : Exn) : Prop := (∃ e', e = .rpc e') ∨ T e

theorem keeps_checked (hrpc : ∀ e, T (.rpc e)) (r : Except RpcError α) : Keeps S I T (checked r) := by
  cases r with
  | ok a => exact keeps_pure a
  | error e => exact keeps_throw (hrpc e)

theorem keeps_catchRpc {p : Act Unit} {handler : RpcError → Act Unit}
    (hp : Keeps S I (OrRpc T) p) (hh : ∀ e, Keeps S I T (handler e)) :
    Keeps S I T (catchRpc p handler) := by
  apply keeps_tryCatch hp
  rintro e (⟨e, rfl⟩ | he)
  · exact hh e
  · cases e with
    | rpc e => exact hh e
    | system => exact keeps_throw he
    | deal f => exact keeps_throw he

section reply
variable {rpc : RpcCall} (hreply : ∀ id jv, IsReply id jv → S.Safe I (.send rpc.u jv))

include hreply

theorem keeps_complete : Keeps S I T (complete rpc) := by
  unfold complete
  split
  · exact keeps_pure ()
  · rename_i jv hjv
    obtain ⟨id, -, hjv⟩ := isReply_response hjv
    exact keeps_op (hreply id jv hjv)

theorem keeps_completeError (e : RpcError) : Keeps S I T (completeError rpc e) := by
  unfold completeError
  split
  · exact keeps_pure ()
  · rename_i jv hjv
    obtain ⟨id, -, hjv⟩ := isReply_errorResponse hjv
    exact keeps_op (hreply id jv hjv)

end reply

theorem keeps_checkedUser {rpc : RpcCall} (hname : S.Safe I (.readName rpc.u))
    (hrpc : ∀ e, T (.rpc e)) : Keeps S I T (Channel.checkedUser rpc) := by
  apply keeps_bind (keeps_op hname)
  intro name
  split
  · exact keeps_throw (hrpc _)
  · exact keeps_pure ()

section session
variable {u : UserId} {rpc : RpcCall}
  (hops : ∀ c, SessionCmd u c → c.writesName = false → S.Safe I c)
  (hrpc : ∀ e, T (.rpc e)) (hu : rpc.u = u)
  (c : Channel) (hinsert : Keeps S I T (c.insert u)) (herase : Keeps S I T (c.erase u))
  (hidentify : rpc.method = "identify" → Keeps S I T (doIdentify c rpc))

include hops hu

theorem session_reply : ∀ id jv, IsReply id jv → S.Safe I (.send rpc.u jv) :=
  fun _ _ h => hu ▸ hops _ (.reply h) rfl

include hrpc

theorem keeps_doSay : Keeps S I T (doSay c rpc) := by
  apply keeps_bind (keeps_checkedUser (hu ▸ hops _ .readName rfl) hrpc)
  intro _
  apply keeps_bind (keeps_op (hu ▸ hops _ (.isJoined c) rfl))
  intro joined
  cases joined with
  | false => exact keeps_throw (hrpc _)
  | true =>
    apply keeps_bind (keeps_checked hrpc _)
    intro text
    apply keeps_bind (keeps_op (hu ▸ hops _ .readName rfl))
    intro name
    apply keeps_bind _ fun _ => keeps_complete (session_reply hops hu)
    exact keeps_channelSend (hops _ (.say c name text) rfl) fun v => hops _ (.sayTo c name text v) rfl

theorem keeps_roomOnDispatch : Keeps S I T (roomOnDispatch c rpc) := by
  unfold roomOnDispatch
  split
  · exact keeps_doSay hops hrpc hu c
  · exact keeps_doSay hops hrpc hu c
  · exact keeps_throw (hrpc _)

theorem keeps_tableOnDispatch : Keeps S I T (tableOnDispatch rpc) := by
  unfold tableOnDispatch
  split
  · rename_i h hh
    exact keeps_op (hops _ (.post hu hh) rfl)
  · exact keeps_throw (hrpc _)

include hinsert in
theorem keeps_doJoin : Keeps S I T (c.doJoin rpc) := by
  apply keeps_bind (keeps_checkedUser (hu ▸ hops _ .readName rfl) hrpc)
  intro _
  apply keeps_bind (hu ▸ hinsert)
  intro inserted
  cases inserted with
  | false => exact keeps_throw (hrpc _)
  | true => exact keeps_complete (session_reply hops hu)

include herase in
theorem keeps_doLeave : Keeps S I T (c.doLeave rpc) := by
  apply keeps_bind (hu ▸ herase)
  intro erased
  cases erased with
  | false => exact keeps_throw (hrpc _)
  | true => exact keeps_complete (session_reply hops hu)

include hidentify

theorem keeps_systemOnDispatch : Keeps S I T (systemOnDispatch c rpc) := by
  have hserver : ∀ r : ServerRequest, Keeps S I T (op (.server r) >>= fun _ => complete rpc) :=
    fun r => keeps_bind (keeps_op (hops _ (.server r) rfl)) fun _ =>
      keeps_complete (session_reply hops hu)
  unfold systemOnDispatch
  split
  · rename_i hm
    exact hidentify hm
  · exact hserver _
  · exact hserver _
  · exact keeps_throw (hrpc _)

/-- Only `identify` sets a name. -/
theorem keeps_onDispatch : Keeps S I T (onDispatch c rpc) := by
  unfold onDispatch
  split
  · exact keeps_systemOnDispatch hops hrpc hu c hidentify
  · exact keeps_roomOnDispatch hops hrpc hu c
  · exact keeps_tableOnDispatch hops hrpc hu

end session

section session
variable {u : UserId} {rpc : RpcCall} (hops : ∀ c, SessionCmd u c → S.Safe I c)
  (hrpc : ∀ e, T (.rpc e)) (hu : rpc.u = u)
  (c : Channel) (hinsert : Keeps S I T (c.insert u)) (herase : Keeps S I T (c.erase u))

include hops hrpc hu hinsert

theorem keeps_doIdentify : Keeps S I T (doIdentify c rpc) := by
  apply keeps_bind (keeps_checked hrpc _)
  intro name
  split
  · exact keeps_throw (hrpc _)
  · rename_i hlong
    apply keeps_bind (keeps_op (hu ▸ hops _ .readName))
    intro current
    split
    · exact keeps_throw (hrpc _)
    · apply keeps_bind (keeps_op (hu ▸ hops _ (.writeName (Nat.le_of_not_lt hlong))))
      intro _
      apply keeps_bind (hu ▸ hinsert)
      intro _
      exact keeps_complete (session_reply (fun c hc _ => hops c hc) hu)

include herase

theorem keeps_channelDispatch : Keeps S I T (c.dispatch rpc) := by
  have hops' : ∀ c, SessionCmd u c → c.writesName = false → S.Safe I c := fun c hc _ => hops c hc
  unfold Channel.dispatch
  split
  · exact keeps_doJoin hops' hrpc hu c hinsert
  · exact keeps_doLeave hops' hrpc hu c herase
  · exact keeps_onDispatch hops' hrpc hu c fun _ => keeps_doIdentify hops hrpc hu c hinsert

omit hinsert herase in
/-- `K` describes the channels that `at` can find. -/
theorem keeps_dispatch {K : Channel → Prop}
    (hat : ∀ v cid c, I v → S.may v (.at cid) (some c) → K c)
    (hinsert : ∀ c, K c → Keeps S I T (c.insert u)) (herase : ∀ c, K c → Keeps S I T (c.erase u))
    (hcid : ∀ v, checkedValue rpc.params "cid" = .ok v → v.toSize = none → T .system) :
    Keeps S I T (dispatch rpc) := by
  unfold dispatch
  cases hv : checkedValue rpc.params "cid" with
  | error e => exact keeps_throw (hrpc e)
  | ok v =>
    rw [checked_ok_bind]
    split
    · rename_i hsize
      exact keeps_throw (hcid v hv hsize)
    · apply keeps_op_bind (A := fun r => ∀ c, r = some c → K c) (hops _ (.at _))
      · rintro v r hv hr c rfl
        exact hat v _ c hv hr
      · intro r hr
        split
        · exact keeps_throw (hrpc _)
        · exact keeps_channelDispatch hops hrpc hu _ (hinsert _ (hr _ rfl)) (herase _ (hr _ rfl))

end session

/-- What a frame does to the ghost value; the exceptions that leave it are those of the conversion
of the channel's id. -/
theorem keeps_readFrame {K : Channel → Prop} {u : UserId} (jv : Value)
    (hops : ∀ c, SessionCmd u c → S.Safe I c)
    (hat : ∀ v cid c, I v → S.may v (.at cid) (some c) → K c)
    (hinsert : ∀ c, K c → Keeps S I (OrRpc T) (c.insert u))
    (herase : ∀ c, K c → Keeps S I (OrRpc T) (c.erase u))
    (hcid : (RpcCall.extract { u } jv).2 = none →
      ∀ v, checkedValue (RpcCall.extract { u } jv).1.params "cid" = .ok v →
        v.toSize = none → T .system) :
    Keeps S I T (readFrame u jv) := by
  have hu : (RpcCall.extract { u } jv).1.u = u := (RpcCall.extract_keeps { u } jv).2.1
  unfold readFrame frameBody
  apply keeps_catchRpc
  · split
    · exact keeps_throw (.inl ⟨_, rfl⟩)
    · rename_i hnone
      exact keeps_dispatch hops (fun e => .inl ⟨e, rfl⟩) hu hat hinsert herase
        fun v hv hsize => .inr (hcid hnone v hv hsize)
  · intro e
    exact keeps_completeError (session_reply (fun c hc _ => hops c hc) hu) e

/-! ### The table's strand -/

/-- The request a handler of the table carries. -/
def Handler.rpc : Handler → Option RpcCall
  | .doInsert _ => none
  | .doErase _ => none
  | .doPlay rpc => some rpc
  | .doWatch rpc => some rpc
  | .doBet rpc => some rpc
  | .doStart rpc => some rpc
  | .doHit rpc => some rpc
  | .doStand rpc => some rpc

/-- The operations of the handler `h` other than those that serialize the game; `G` describes the
games they send. -/
inductive TableCmd (G : Value → Prop) (h : Handler) : Cmd → Prop
  | update {a : String} {g : Value} (ha : a.utf8ByteSize ≤ 9) (hg : G g) :
      TableCmd G h (.broadcast table (updateJson a g))
  | updateTo {a : String} {g : Value} (ha : a.utf8ByteSize ≤ 9) (hg : G g) (v : UserId) :
      TableCmd G h (.trySend v (updateJson a g))
  | init {u : UserId} {g : Value} (hh : h = .doInsert u) (hg : G g) :
      TableCmd G h (.send u (updateJson "init" g))
  | reply {rpc : RpcCall} {id jv : Value} (hh : h.rpc = some rpc) (hjv : IsReply id jv) :
      TableCmd G h (.send rpc.u jv)
  | join {rpc : RpcCall} (hh : h = .doPlay rpc) : TableCmd G h (.join rpc.u)
  | leave {rpc : RpcCall} (hh : h = .doWatch rpc) : TableCmd G h (.leave rpc.u)
  | surrender {u : UserId} (hh : h = .doErase u) : TableCmd G h (.surrender u)
  | bet {rpc : RpcCall} (hh : h = .doBet rpc) : TableCmd G h (.bet rpc.u)
  | dealOne {rpc : RpcCall} (hh : h = .doStart rpc) : TableCmd G h .dealOne

/-- The values `game::to_json` can produce from seats satisfying `P` and names satisfying `N`. -/
def GameShape (P : List Blackjack.Seat → Prop) (N : String → Prop) (g : Value) : Prop :=
  ∃ state seats vs, P seats ∧
    List.Forall₂ (fun s j => ∃ name, (s.user ≠ none → N name) ∧ j = seatJson s name) seats vs ∧
    g = .object [("message", .string (stateMessage state)), ("seats", .array vs)]

section game
variable {P : List Blackjack.Seat → Prop} {N : String → Prop}
  (hname : ∀ u, S.Safe I (.readName u))
  (hN : ∀ v u name, I v → S.may v (.readName u) name → N name)

include hname hN

theorem wp_seatsToJson (seats : List Blackjack.Seat) {v : V} (hv : I v) :
    wp S (fun o w => (∃ vs, o = .ok vs ∧
        List.Forall₂ (fun s j => ∃ name, (s.user ≠ none → N name) ∧ j = seatJson s name) seats vs) ∧
      I w) (seatsToJson seats) v := by
  induction seats generalizing v with
  | nil => exact ⟨⟨[], rfl, .nil⟩, hv⟩
  | cons s ss ih =>
    have hrest : ∀ j w, (∃ name, (s.user ≠ none → N name) ∧ j = seatJson s name) → I w →
        wp S (fun o w => (∃ vs, o = .ok vs ∧
            List.Forall₂ (fun s j => ∃ name, (s.user ≠ none → N name) ∧ j = seatJson s name)
              (s :: ss) vs) ∧ I w)
          (seatsToJson ss >>= fun vs => pure (j :: vs)) w := by
      intro j w hj hw
      apply Prog.wp_bind.mpr
      apply Prog.wp_mono _ (ih hw)
      rintro o w ⟨⟨vs, rfl, hvs⟩, hw⟩
      exact ⟨⟨j :: vs, rfl, .cons hj hvs⟩, hw⟩
    apply Prog.wp_bind.mpr
    unfold seatToJson
    split
    · rename_i hnone
      exact hrest _ v ⟨"", fun h => absurd hnone h, rfl⟩ hv
    · rename_i u hsome
      refine Prog.wp_bind.mpr (Prog.wp_op.mpr ⟨(hname u v hv).1, fun name hr => ?_⟩)
      exact hrest _ _ ⟨name, fun _ => hN v u name hv hr, rfl⟩ ((hname u v hv).2 name hr)

theorem wp_gameToJson (hseats : S.Safe I .seats)
    (hP : ∀ v r, I v → S.may v .seats r → P r.2) {v : V} (hv : I v) :
    wp S (fun o w => (∃ g, o = .ok g ∧ GameShape P N g) ∧ I w) gameToJson v := by
  refine Prog.wp_bind.mpr (Prog.wp_op.mpr ⟨(hseats v hv).1, fun r hr => ?_⟩)
  apply Prog.wp_bind.mpr
  apply Prog.wp_mono _ (wp_seatsToJson hname hN r.2 ((hseats v hv).2 r hr))
  rintro o w ⟨⟨vs, rfl, hvs⟩, hw⟩
  exact ⟨⟨_, rfl, r.1, r.2, vs, hP v r hv hr, hvs, rfl⟩, hw⟩

omit hname hN in
/-- The form for specifications that do not look at the values. -/
theorem wp_gameToJson_any (hseats : S.Safe I .seats) (hname : ∀ u, S.Safe I (.readName u)) (v : V)
    (hv : I v) : wp S (fun o w => (∃ g, o = .ok g ∧ True) ∧ I w) gameToJson v := by
  apply Prog.wp_mono _ (wp_gameToJson (P := fun _ => True) (N := fun _ => True) hname
    (fun _ _ _ _ _ => trivial) hseats (fun _ _ _ _ => trivial) hv)
  rintro o w ⟨⟨g, rfl, -⟩, hw⟩
  exact ⟨⟨g, rfl, trivial⟩, hw⟩

end game

section table
variable {G : Value → Prop} {h : Handler} (hops : ∀ c, TableCmd G h c → S.Safe I c)
  (hgame : ∀ v, I v → wp S (fun o w => (∃ g, o = .ok g ∧ G g) ∧ I w) gameToJson v)

include hgame

omit hops in
theorem keeps_update {a : String} (hb : ∀ g, G g → S.Safe I (.broadcast table (updateJson a g)))
    (ht : ∀ g v, G g → S.Safe I (.trySend v (updateJson a g))) : Keeps S I T (update a) := by
  intro v hv
  apply Prog.wp_bind.mpr
  apply Prog.wp_mono _ (hgame v hv)
  rintro o w ⟨⟨g, rfl, hg⟩, hw⟩
  exact keeps_channelSend (hb g hg) (ht g · hg) w hw

include hops

theorem keeps_handlerUpdate {a : String} (ha : a.utf8ByteSize ≤ 9) : Keeps S I T (update a) :=
  keeps_update hgame (fun _ hg => hops _ (.update ha hg)) fun _ v hg => hops _ (.updateTo ha hg v)

omit hgame in
theorem handler_reply {rpc : RpcCall} (hh : h.rpc = some rpc) :
    ∀ id jv, IsReply id jv → S.Safe I (.send rpc.u jv) := fun _ _ hjv => hops _ (.reply hh hjv)

omit hops hgame in
theorem keeps_orFail (hrpc : ∀ e, T (.rpc e)) (r : Except Blackjack.Error α) :
    Keeps S I T (orFail r) := by
  cases r with
  | ok a => exact keeps_pure ()
  | error ec => exact keeps_throw (hrpc _)

omit hops hgame in
/-- A handler keeps what its operations, an update and the greeting of a newcomer keep. -/
theorem keeps_serve_of (hops : ∀ c, TableCmd (fun _ => False) h c → S.Safe I c)
    (hupdate : ∀ (T' : Exn → Prop) (a : String), a.utf8ByteSize ≤ 9 → Keeps S I T' (update a))
    (hinsert : ∀ u, h = .doInsert u → Keeps S I T (doInsert u))
    (hdeal : ∀ rpc f, h = .doStart rpc → T (.deal f)) : Keeps S I T (serve h) := by
  cases h with
  | doInsert u => exact hinsert u rfl
  | doErase u =>
    apply keeps_bind (keeps_op (hops _ (.surrender rfl)))
    intro result
    split
    · exact hupdate _ _ (by decide)
    · exact keeps_pure ()
  | doPlay rpc =>
    apply keeps_catchRpc _ (keeps_completeError (handler_reply hops rfl))
    apply keeps_bind (keeps_op (hops _ (.join rfl)))
    intro r
    apply keeps_bind (keeps_orFail (fun e => .inl ⟨e, rfl⟩) r)
    intro _
    exact keeps_bind (hupdate _ _ (by decide)) fun _ => keeps_complete (handler_reply hops rfl)
  | doWatch rpc =>
    apply keeps_catchRpc _ (keeps_completeError (handler_reply hops rfl))
    apply keeps_bind (keeps_op (hops _ (.leave rfl)))
    intro r
    apply keeps_bind (keeps_orFail (fun e => .inl ⟨e, rfl⟩) r)
    intro _
    exact keeps_bind (hupdate _ _ (by decide)) fun _ => keeps_complete (handler_reply hops rfl)
  | doBet rpc =>
    apply keeps_catchRpc _ (keeps_completeError (handler_reply hops rfl))
    apply keeps_bind
    · apply keeps_bind (keeps_op (hops _ (.bet rfl)))
      intro r
      cases r with
      | error ec => exact keeps_pure _
      | ok _ => exact keeps_bind (hupdate _ _ (by decide)) fun _ => keeps_pure _
    · intro r
      apply keeps_bind (keeps_orFail (fun e => .inl ⟨e, rfl⟩) r)
      exact fun _ => keeps_complete (handler_reply hops rfl)
  | doStart rpc =>
    apply keeps_catchRpc _ (keeps_completeError (handler_reply hops rfl))
    apply keeps_bind _ fun _ => keeps_complete (handler_reply hops rfl)
    apply keeps_bind (keeps_op (hops _ (.dealOne rfl)))
    intro r
    cases r with
    | error f => exact keeps_throw (.inr (hdeal rpc f rfl))
    | ok _ => exact hupdate _ _ (by decide)
  | doHit rpc =>
    apply keeps_catchRpc _ (keeps_completeError (handler_reply hops rfl))
    exact keeps_complete (handler_reply hops rfl)
  | doStand rpc =>
    apply keeps_catchRpc _ (keeps_completeError (handler_reply hops rfl))
    exact keeps_complete (handler_reply hops rfl)

theorem keeps_serve (hdeal : ∀ rpc f, h = .doStart rpc → T (.deal f)) : Keeps S I T (serve h) := by
  apply keeps_serve_of
  · intro c hc
    apply hops
    cases hc with
    | update ha hg => exact hg.elim
    | updateTo ha hg v => exact hg.elim
    | init hh hg => exact hg.elim
    | reply hh hjv => exact .reply hh hjv
    | join hh => exact .join hh
    | leave hh => exact .leave hh
    | surrender hh => exact .surrender hh
    | bet hh => exact .bet hh
    | dealOne hh => exact .dealOne hh
  · exact fun T' a ha => keeps_handlerUpdate hops hgame ha
  · rintro u rfl v hv
    apply Prog.wp_bind.mpr
    apply Prog.wp_mono _ (hgame v hv)
    rintro o w ⟨⟨g, rfl, hg⟩, hw⟩
    exact keeps_op (hops _ (.init rfl hg)) w hw
  · exact hdeal

end table

end BeastLounge.Lounge
