import BeastLounge.Lounge.Notices
import BeastLounge.Lounge.Standing

/-!
# What is said in a room

`do_say` is known up to the answers (`trace_doSay`), and the answers it goes by are about the
standing of the caller, which stays while the request is processed. So what a request to a room does
is settled by the state in which it reaches the room.

`on_dispatch` hands both "say" and "slash" to it. A slash command is answered as `do_slash` would
only where the two fail alike, or where nobody is answered.
-/

namespace BeastLounge.Lounge

open Theory Json Rpc

open Prog (Trace Event trace_op_bind trace_bind)

/-- `do_slash`, which is not called. -/
def doSlash (rpc : RpcCall) : Act Unit := do
  Channel.checkedUser rpc
  fail (.ofMsg "Unimplemented")

/-- The operation passes something on to the members of a channel. -/
def Cmd.isChat : Cmd → Bool
  | .broadcast _ _ => true
  | .trySend _ _ => true
  | _ => false

def Cmd.isBroadcast : Cmd → Bool
  | .broadcast _ _ => true
  | _ => false

/-! ### The property -/

/-- The request says `text` in the room. -/
structure Says (w : Shared) (c : Channel) (rpc : RpcCall) (text : String) : Prop where
  method : rpc.method = "say"
  named : w.name rpc.u ≠ ""
  joined : rpc.u ∈ w.users c
  message : rpc.params.member "message" = some (.string text)

/-- The operations of a request that reaches the room `c` in the state `w`. -/
structure SpeaksOnlyForSay (w : Shared) (c : Channel) (rpc : RpcCall) (ops : List Performed) : Prop where
  spoken_iff : (∃ x ∈ ops, x.2.1.isBroadcast) ↔ ∃ text, Says w c rpc text
  /-- It is said once, to those who are in the room when it is broadcast. -/
  said : ∀ text, Says w c rpc text → ∃ x ∈ ops, ∃ jv, jv = sayNotice c (w.name rpc.u) text ∧
    x.2.1 = .broadcast c jv ∧
    (ops.map Prod.snd).filter (fun e => e.1.isChat) =
      ⟨.broadcast c jv, x.1.users c⟩ :: (x.1.users c).map fun v => ⟨.trySend v jv, ()⟩
  /-- What is sent for a slash command is what `do_slash` would send. -/
  slash : rpc.method = "slash" → (ops.map Prod.snd).filter (fun e => e.1.isMessage) =
    ((catchRpc (doSlash rpc) (completeError rpc)).events act w).filter fun e => e.1.isMessage

/-- A slash command of someone with a name is one that nobody answers and that is not said. -/
def SlashUnheard (w : Shared) (c : Channel) (rpc : RpcCall) : Prop :=
  rpc.method = "slash" → w.name rpc.u = "" ∨
    rpc.id = none ∧ (rpc.u ∈ w.users c → ∀ text, rpc.params.member "message" ≠ some (.string text))

/-! ### The handlers up to their answers -/

section trace
variable {c : Channel} {rpc : RpcCall} {tr : List (Event Res)} {o : Except Exn Unit} {u : UserId}

/-- A reply that is sent unless the request has no id. -/
def replied (u : UserId) (res : Option Value) : List (Event Res) :=
  res.toList.map fun jv => ⟨.send u jv, ()⟩

theorem mem_replied {res : Option Value} {e : Event Res} (h : e ∈ replied u res) :
    ∃ jv, e = ⟨.send u jv, ()⟩ := by
  obtain ⟨jv, -, rfl⟩ := List.mem_map.mp h
  exact ⟨jv, rfl⟩

theorem trace_reply {res : Option Value}
    (h : Trace (match res with | none => pure () | some jv => op (.send u jv)) tr o) :
    o = .ok () ∧ tr = replied u res := by
  cases res with
  | none =>
    cases h
    exact ⟨rfl, rfl⟩
  | some jv =>
    obtain ⟨_, rfl, rfl⟩ := Prog.trace_op h
    exact ⟨rfl, rfl⟩

theorem trace_checkedUser (h : Trace (Channel.checkedUser rpc) tr o) : ∃ name,
    tr = [⟨.readName rpc.u, name⟩] ∧
      (name = "" ∧ o = .error (.rpc (.ofMsg "No identity set")) ∨ name ≠ "" ∧ o = .ok ()) := by
  obtain ⟨name, rest, rfl, hrest⟩ := trace_op_bind h
  refine ⟨name, ?_⟩
  cases hempty : String.isEmpty name with
  | true =>
    rw [hempty] at hrest
    cases hrest
    exact ⟨rfl, .inl ⟨String.isEmpty_iff.mp hempty, rfl⟩⟩
  | false =>
    rw [hempty] at hrest
    cases hrest
    have hname : name ≠ "" := fun heq => by
      rw [heq] at hempty
      contradiction
    exact ⟨rfl, .inr ⟨hname, rfl⟩⟩

/-- What `do_say` can do. -/
inductive SayTrace (c : Channel) (rpc : RpcCall) : List (Event Res) → Except Exn Unit → Prop
  | nameless :
      SayTrace c rpc [⟨.readName rpc.u, ""⟩] (.error (.rpc (.ofMsg "No identity set")))
  | absent {name : String} (hname : name ≠ "") :
      SayTrace c rpc [⟨.readName rpc.u, name⟩, ⟨.isJoined c rpc.u, false⟩]
        (.error (.rpc (.ofMsg "not in channel")))
  | unreadable {name : String} {e : RpcError} (hname : name ≠ "")
      (he : checkedStringAt rpc.params "message" = .error e) :
      SayTrace c rpc [⟨.readName rpc.u, name⟩, ⟨.isJoined c rpc.u, true⟩] (.error (.rpc e))
  | said {name name' text : String} {us : List UserId} (hname : name ≠ "")
      (htext : checkedStringAt rpc.params "message" = .ok text) :
      SayTrace c rpc
        ([⟨.readName rpc.u, name⟩, ⟨.isJoined c rpc.u, true⟩, ⟨.readName rpc.u, name'⟩,
          ⟨.broadcast c (sayNotice c name' text), us⟩] ++
          (us.map fun v => ⟨.trySend v (sayNotice c name' text), ()⟩) ++
          replied rpc.u rpc.response)
        (.ok ())

theorem trace_doSay (h : Trace (doSay c rpc) tr o) : SayTrace c rpc tr o := by
  rcases trace_bind h with ⟨_, pre, rest, rfl, hchecked, h₁⟩ | ⟨e, rfl, hchecked⟩
  · obtain ⟨name, rfl, ⟨-, ho⟩ | ⟨hname, -⟩⟩ := trace_checkedUser hchecked
    · contradiction
    obtain ⟨joined, rest, rfl, h₂⟩ := trace_op_bind h₁
    cases joined with
    | false =>
      cases h₂
      exact .absent hname
    | true =>
      cases htext : checkedStringAt rpc.params "message" with
      | error e =>
        dsimp only at h₂
        rw [htext] at h₂
        cases h₂
        exact .unreadable hname htext
      | ok text =>
        dsimp only at h₂
        rw [htext] at h₂
        obtain ⟨name', rest, rfl, h₃⟩ := trace_op_bind h₂
        rcases trace_bind h₃ with ⟨_, pre, rest, rfl, hsend, h₄⟩ | ⟨e, rfl, hsend⟩
        · obtain ⟨-, us, rfl⟩ := trace_channelSend hsend
          obtain ⟨rfl, rfl⟩ := trace_reply h₄
          exact .said hname htext
        · cases (trace_channelSend hsend).1
  · obtain ⟨name, rfl, ⟨rfl, ho⟩ | ⟨-, ho⟩⟩ := trace_checkedUser hchecked
    · obtain rfl := Except.error.inj ho
      exact .nameless
    · contradiction

/-- What the read loop does for `do_say`. -/
theorem trace_answerSay (h : Trace (catchRpc (doSay c rpc) (completeError rpc)) tr o) :
    SayTrace c rpc tr (.ok ()) ∨ ∃ e pre, SayTrace c rpc pre (.error (.rpc e)) ∧
      tr = pre ++ replied rpc.u (rpc.errorResponse e) := by
  rcases Prog.trace_tryCatch h with ⟨hsay, ⟨_, rfl⟩⟩ | ⟨x, pre, rest, rfl, hsay, hrest⟩
  · exact .inl (trace_doSay hsay)
  · have htrace := trace_doSay hsay
    obtain ⟨e, rfl⟩ : ∃ e, x = .rpc e := by cases htrace <;> exact ⟨_, rfl⟩
    exact .inr ⟨e, pre, htrace, congrArg (pre ++ ·) (trace_reply hrest).2⟩

theorem subject_replied {res : Option Value} : ∀ e ∈ replied u res, e.1.subject = none := by
  intro e he
  obtain ⟨jv, rfl⟩ := mem_replied he
  rfl

theorem SayTrace.subject (h : SayTrace c rpc tr o) : ∀ e ∈ tr, e.1.subject = none := by
  cases h with
  | nameless => exact List.forall_mem_singleton.mpr rfl
  | absent => simp [Cmd.subject]
  | unreadable => simp [Cmd.subject]
  | said =>
    refine List.forall_mem_append.mpr ⟨List.forall_mem_append.mpr ⟨by simp [Cmd.subject], ?_⟩,
      subject_replied⟩
    intro e he
    obtain ⟨v, -, rfl⟩ := List.mem_map.mp he
    rfl

theorem filter_replied {res : Option Value} :
    (replied u res).filter (fun e => e.1.isMessage) = replied u res := by
  rw [List.filter_eq_self]
  intro e he
  obtain ⟨jv, rfl⟩ := mem_replied he
  rfl

/-- Two errors are answered alike only where there is no answer. -/
theorem replied_errorResponse_iff {e e' : RpcError} :
    replied u (rpc.errorResponse e) = replied u (rpc.errorResponse e') ↔ rpc.id = none ∨ e = e' := by
  unfold replied RpcCall.errorResponse
  cases rpc.id with
  | none => simp
  | some id =>
    obtain ⟨code, msg⟩ := e
    obtain ⟨code', msg'⟩ := e'
    simp [RpcError.toJson]

theorem trace_answerSlash (h : Trace (catchRpc (doSlash rpc) (completeError rpc)) tr o) : ∃ name,
    tr = ⟨.readName rpc.u, name⟩ :: replied rpc.u (rpc.errorResponse
      (.ofMsg (if name = "" then "No identity set" else "Unimplemented"))) := by
  rcases Prog.trace_tryCatch h with ⟨hslash, ⟨_, rfl⟩⟩ | ⟨x, pre, rest, rfl, hslash, hrest⟩
  · rcases trace_bind hslash with ⟨_, _, _, -, -, hfail⟩ | ⟨e, he, -⟩
    · cases hfail
    · contradiction
  · rcases trace_bind hslash with ⟨_, pre, _, rfl, hchecked, hfail⟩ | ⟨e, he, hchecked⟩
    · obtain ⟨name, rfl, ⟨-, ho⟩ | ⟨hname, -⟩⟩ := trace_checkedUser hchecked
      · contradiction
      cases hfail
      exact ⟨name, by rw [(trace_reply hrest).2, if_neg hname]; rfl⟩
    · obtain ⟨name, rfl, ⟨hname, ho⟩ | ⟨-, ho⟩⟩ := trace_checkedUser hchecked
      · obtain rfl := Except.error.inj (he.trans ho)
        exact ⟨name, by rw [(trace_reply hrest).2, if_pos hname]; rfl⟩
      · contradiction

/-- What `do_slash` would send. -/
theorem messages_doSlash (w : Shared) :
    ((catchRpc (doSlash rpc) (completeError rpc)).events act w).filter (fun e => e.1.isMessage) =
      replied rpc.u (rpc.errorResponse
        (.ofMsg (if w.name rpc.u = "" then "No identity set" else "Unimplemented"))) := by
  obtain ⟨name, htrace⟩ := trace_answerSlash
    (Prog.trace_events act (catchRpc (doSlash rpc) (completeError rpc)) w)
  have hname : name = w.name rpc.u := by
    have hhead := congrArg List.head? htrace
    have hread := (Sigma.mk.inj (Option.some.inj hhead)).2
    exact (eq_of_heq hread).symm
  rw [htrace, ← hname, List.filter_cons_of_neg (by simp [Cmd.isMessage]), filter_replied]

end trace

/-! ### One request -/

section request
variable {w : Shared} {c : Channel} {rpc : RpcCall} {ops : List Performed} {tr : List (Event Res)}
  {o : Except Exn Unit} {cid : Nat}

/-- The answers about the caller are those of the state `w`. -/
structure Answered (w : Shared) (c : Channel) (rpc : RpcCall) (ops : List Performed) : Prop where
  actual : Actual ops
  standing : ∀ x ∈ ops, standing x.1 rpc.u = standing w rpc.u

theorem Answered.event (h : Answered w c rpc ops) {e : Event Res} (he : e ∈ ops.map Prod.snd) :
    ∃ w', (w', e) ∈ ops ∧ e.2 = (act e.1 w').1 ∧ Lounge.standing w' rpc.u = Lounge.standing w rpc.u := by
  obtain ⟨⟨w', e'⟩, hx, rfl⟩ := List.mem_map.mp he
  exact ⟨w', hx, h.actual _ hx, h.standing _ hx⟩

theorem Answered.name (h : Answered w c rpc ops) {name : String}
    (he : ⟨.readName rpc.u, name⟩ ∈ ops.map Prod.snd) : name = w.name rpc.u := by
  obtain ⟨w', -, hanswer, hstanding⟩ := h.event he
  exact hanswer.trans (congrArg Prod.fst hstanding)

theorem Answered.joined (h : Answered w c rpc ops) {joined : Bool}
    (he : ⟨.isJoined c rpc.u, joined⟩ ∈ ops.map Prod.snd) : joined ↔ rpc.u ∈ w.users c := by
  obtain ⟨w', -, hanswer, hstanding⟩ := h.event he
  have hmemb : (rpc.u ∈ w'.users c) = (rpc.u ∈ w.users c) := congrFun (congrArg Prod.snd hstanding) c
  rw [← hmemb, show joined = decide (rpc.u ∈ w'.users c) from hanswer, decide_eq_true_iff]

/-- A request that is answered with an error says nothing, and a slash command is answered as
`do_slash` would when it is the same error or nobody is answered. -/
theorem speaks_iff_of_error {e : RpcError}
    (hchat : ∀ x ∈ ops, x.2.1.isBroadcast = false) (hspoken : ∀ text, ¬Says w c rpc text)
    (hmessages : (ops.map Prod.snd).filter (fun e => e.1.isMessage) =
      replied rpc.u (rpc.errorResponse e)) :
    SpeaksOnlyForSay w c rpc ops ↔ (rpc.method = "slash" → rpc.id = none ∨
      e = .ofMsg (if w.name rpc.u = "" then "No identity set" else "Unimplemented")) := by
  have hslash : (ops.map Prod.snd).filter (fun e => e.1.isMessage) =
      ((catchRpc (doSlash rpc) (completeError rpc)).events act w).filter (fun e => e.1.isMessage) ↔
      rpc.id = none ∨
        e = .ofMsg (if w.name rpc.u = "" then "No identity set" else "Unimplemented") := by
    rw [hmessages, messages_doSlash, replied_errorResponse_iff]
  refine ⟨fun h hmethod => hslash.mp (h.slash hmethod), fun h => ⟨iff_of_false ?_ ?_, ?_, ?_⟩⟩
  · rintro ⟨x, hx, hbroadcast⟩
    rw [hchat x hx] at hbroadcast
    contradiction
  · rintro ⟨text, hsay⟩
    exact hspoken text hsay
  · exact fun text hsay => absurd hsay (hspoken text)
  · exact fun hmethod => hslash.mpr (h hmethod)

theorem unimplemented_ne_checked {key : String} {params : Value} {e : RpcError}
    (h : checkedStringAt params key = .error e) (hkey : key = "message") :
    e ≠ .ofMsg "Unimplemented" := by
  subst hkey
  unfold checkedStringAt checkedValue at h
  split at h
  · obtain rfl := Except.error.inj h
    decide
  · split at h
    · obtain rfl := Except.error.inj h
      decide
    · rename_i v _
      cases v with
      | string s => contradiction
      | _ =>
        obtain rfl := Except.error.inj h
        decide

/-- The operations before the answer that `do_say` gives. -/
theorem quiet_of_error {e : RpcError} {pre : List (Event Res)}
    (h : SayTrace c rpc pre (.error (.rpc e))) :
    pre.filter (fun e => e.1.isMessage) = [] ∧ ∀ e ∈ pre, e.1.isBroadcast = false := by
  cases h with
  | nameless => simp [Cmd.isMessage, Cmd.isBroadcast]
  | absent => simp [Cmd.isMessage, Cmd.isBroadcast]
  | unreadable => simp [Cmd.isMessage, Cmd.isBroadcast]

theorem isBroadcast_replied {u : UserId} {res : Option Value} :
    ∀ e ∈ replied u res, e.1.isBroadcast = false := by
  intro e he
  obtain ⟨jv, rfl⟩ := mem_replied he
  rfl

theorem chat_replied {u : UserId} {res : Option Value} :
    (replied u res).filter (fun e => e.1.isChat) = [] := by
  refine List.filter_eq_nil_iff.mpr fun e he => ?_
  obtain ⟨jv, rfl⟩ := mem_replied he
  exact Bool.false_ne_true

theorem chat_trySend {us : List UserId} {jv : Value} :
    (us.map fun v => (⟨.trySend v jv, ()⟩ : Event Res)).filter (fun e => e.1.isChat) =
      us.map fun v => ⟨.trySend v jv, ()⟩ := by
  refine List.filter_eq_self.mpr fun e he => ?_
  obtain ⟨v, -, rfl⟩ := List.mem_map.mp he
  rfl

/-- The message of someone in the room is said. -/
theorem speaks_iff_of_said {name name' text : String} {us : List UserId} (h : Answered w c rpc ops)
    (hops : ops.map Prod.snd = ⟨.at cid, some c⟩ ::
      ([⟨.readName rpc.u, name⟩, ⟨.isJoined c rpc.u, true⟩, ⟨.readName rpc.u, name'⟩,
        ⟨.broadcast c (sayNotice c name' text), us⟩] ++
        (us.map fun v => ⟨.trySend v (sayNotice c name' text), ()⟩) ++
        replied rpc.u rpc.response))
    (hname : name ≠ "") (htext : checkedStringAt rpc.params "message" = .ok text)
    (hmethod : rpc.method = "say" ∨ rpc.method = "slash") :
    SpeaksOnlyForSay w c rpc ops ↔ SlashUnheard w c rpc := by
  have hcaller : name = w.name rpc.u := h.name (by rw [hops]; simp)
  obtain rfl : name' = w.name rpc.u := h.name (by rw [hops]; simp)
  have hanswer : (⟨.isJoined c rpc.u, true⟩ : Event Res) ∈ ops.map Prod.snd := by rw [hops]; simp
  have hjoined : rpc.u ∈ w.users c := (h.joined hanswer).mp rfl
  have hmember := checkedStringAt_eq_ok.mp htext
  obtain ⟨w', hx, hus, -⟩ := h.event (e := ⟨.broadcast c (sayNotice c (w.name rpc.u) text), us⟩)
    (by rw [hops]; simp)
  obtain rfl : us = w'.users c := hus
  rcases hmethod with hsay | hslash
  · have hspoken : Says w c rpc text := ⟨hsay, hcaller ▸ hname, hjoined, hmember⟩
    refine iff_of_true ⟨iff_of_true ⟨_, hx, rfl⟩ ⟨text, hspoken⟩, fun text' hspoken' => ?_, ?_⟩ ?_
    · obtain rfl : text = text' := by
        have heq := hspoken'.message.symm.trans hmember
        injection Option.some.inj heq with heq
        exact heq.symm
      refine ⟨_, hx, _, rfl, rfl, ?_⟩
      rw [hops, List.filter_cons_of_neg (by simp [Cmd.isChat]), List.filter_append,
        List.filter_append, chat_replied, chat_trySend, List.append_nil]
      rfl
    · intro hslash
      rw [hsay] at hslash
      exact absurd hslash (by decide)
    · intro hslash
      rw [hsay] at hslash
      exact absurd hslash (by decide)
  · refine iff_of_false (fun hspeaks => ?_) fun hunheard => ?_
    · obtain ⟨text', hspoken⟩ := hspeaks.spoken_iff.mp ⟨_, hx, rfl⟩
      rw [hspoken.method] at hslash
      exact absurd hslash (by decide)
    · rcases hunheard hslash with hempty | ⟨-, hno⟩
      · exact hname (hcaller.trans hempty)
      · exact hno hjoined text hmember

/-- Nothing but a reply is sent. -/
theorem answer_only {pre : List (Event Res)} {res : Option Value}
    (hops : ops.map Prod.snd = ⟨.at cid, some c⟩ :: (pre ++ replied rpc.u res))
    (hquiet : pre.filter (fun e => e.1.isMessage) = [])
    (hsilent : ∀ e ∈ pre, e.1.isBroadcast = false) :
    (∀ x ∈ ops, x.2.1.isBroadcast = false) ∧
      (ops.map Prod.snd).filter (fun e => e.1.isMessage) = replied rpc.u res := by
  constructor
  · intro x hx
    have hmem : x.2 ∈ ops.map Prod.snd := List.mem_map_of_mem hx
    rw [hops] at hmem
    rcases List.mem_cons.mp hmem with heq | hmem
    · rw [heq]
      rfl
    · rcases List.mem_append.mp hmem with hmem | hmem
      · exact hsilent _ hmem
      · exact isBroadcast_replied _ hmem
  · rw [hops, List.filter_cons_of_neg (by simp [Cmd.isMessage]), List.filter_append, hquiet,
      filter_replied, List.nil_append]

/-- `do_say` does what is asked of it where it is not used for a slash command that is heard. -/
theorem speaks_iff_of_doSay (h : Answered w c rpc ops)
    (hops : ops.map Prod.snd = ⟨.at cid, some c⟩ :: tr)
    (htr : Trace (catchRpc (doSay c rpc) (completeError rpc)) tr o)
    (hmethod : rpc.method = "say" ∨ rpc.method = "slash") :
    SpeaksOnlyForSay w c rpc ops ↔ SlashUnheard w c rpc := by
  rcases trace_answerSay htr with hsay | ⟨e, pre, hsay, rfl⟩
  · cases hsay with
    | said hname htext => exact speaks_iff_of_said h hops hname htext hmethod
  obtain ⟨hquiet, hsilent⟩ := quiet_of_error hsay
  obtain ⟨hchat, hmessages⟩ := answer_only hops hquiet hsilent
  cases hsay with
  | nameless =>
    have hcaller : "" = w.name rpc.u := h.name (by rw [hops]; simp)
    rw [speaks_iff_of_error hchat (fun _ hspoken => hspoken.named hcaller.symm) hmessages]
    exact iff_of_true (fun _ => .inr (by rw [if_pos hcaller.symm])) fun _ => .inl hcaller.symm
  | @absent name hname =>
    have hcaller : name = w.name rpc.u := h.name (by rw [hops]; simp)
    have hanswer : (⟨.isJoined c rpc.u, false⟩ : Event Res) ∈ ops.map Prod.snd := by
      rw [hops]
      simp
    have hjoined : rpc.u ∉ w.users c := fun hmem =>
      Bool.false_ne_true ((h.joined hanswer).mpr hmem)
    rw [speaks_iff_of_error hchat (fun _ hspoken => hjoined hspoken.joined) hmessages,
      if_neg (hcaller ▸ hname)]
    refine forall_congr' fun _ => ?_
    rw [or_iff_left (by decide), or_iff_right (hcaller ▸ hname),
      and_iff_left fun hmem => absurd hmem hjoined]
  | @unreadable name e hname he =>
    have hcaller : name = w.name rpc.u := h.name (by rw [hops]; simp)
    have hmember : ∀ text, rpc.params.member "message" ≠ some (.string text) := by
      intro text hmem
      rw [checkedStringAt_eq_ok.mpr hmem] at he
      contradiction
    rw [speaks_iff_of_error hchat (fun _ hspoken => hmember _ hspoken.message) hmessages,
      if_neg (hcaller ▸ hname)]
    refine forall_congr' fun _ => ?_
    rw [or_iff_left (unimplemented_ne_checked he rfl), or_iff_right (hcaller ▸ hname),
      and_iff_left fun _ => hmember]

/-- Every other method is not found. -/
theorem speaks_of_unknown (hops : ops.map Prod.snd = ⟨.at cid, some c⟩ :: tr)
    (htr : Trace (catchRpc (fail (.ofCode .methodNotFound)) (completeError rpc)) tr o)
    (hsay : rpc.method ≠ "say") (hslash : rpc.method ≠ "slash") :
    SpeaksOnlyForSay w c rpc ops ↔ SlashUnheard w c rpc := by
  obtain ⟨-, htr⟩ := trace_reply htr
  subst htr
  have hops' : ops.map Prod.snd = ⟨.at cid, some c⟩ ::
      ([] ++ replied rpc.u (rpc.errorResponse (.ofCode .methodNotFound))) := hops
  obtain ⟨hchat, hmessages⟩ := answer_only hops' rfl nofun
  rw [speaks_iff_of_error hchat (fun _ hspoken => hsay hspoken.method) hmessages]
  exact iff_of_true (fun h => absurd h hslash) fun h => absurd h hslash

theorem dispatch_room (hkind : c.kind = .room) (hjoin : rpc.method ≠ "join")
    (hleave : rpc.method ≠ "leave") : c.dispatch rpc = roomOnDispatch c rpc := by
  unfold Channel.dispatch onDispatch
  rw [hkind]
  split
  · contradiction
  · contradiction
  · rfl

theorem roomOnDispatch_cases (c : Channel) (rpc : RpcCall) :
    (rpc.method = "say" ∨ rpc.method = "slash") ∧ roomOnDispatch c rpc = doSay c rpc ∨
      rpc.method ≠ "say" ∧ rpc.method ≠ "slash" ∧
        roomOnDispatch c rpc = fail (.ofCode .methodNotFound) := by
  unfold roomOnDispatch
  split
  · rename_i hsay
    exact .inl ⟨.inl hsay, rfl⟩
  · rename_i hslash
    exact .inl ⟨.inr hslash, rfl⟩
  · rename_i hsay hslash
    exact .inr ⟨hsay, hslash, rfl⟩

/-- A request that is refused looks no channel up. -/
theorem not_trace_refused {e : RpcError}
    (h : Trace (catchRpc (fail e) (completeError rpc)) (⟨.at cid, some c⟩ :: tr) o) : False := by
  have heq := (trace_reply h).2
  have hmem : (⟨.at cid, some c⟩ : Event Res) ∈ replied rpc.u (rpc.errorResponse e) := by
    rw [← heq]
    exact List.mem_cons_self
  obtain ⟨jv, hsend⟩ := mem_replied hmem
  cases congrArg Sigma.fst hsend

/-- The frame that looks up the channel `c` is dispatched to it. -/
theorem trace_readFrame_at {u : UserId} {jv : Value}
    (h : Trace (readFrame u jv) (⟨.at cid, some c⟩ :: tr) o) :
    Trace (catchRpc (c.dispatch (RpcCall.extract { u } jv).1)
      (completeError (RpcCall.extract { u } jv).1)) tr o := by
  rw [readFrame] at h
  unfold frameBody at h
  generalize (RpcCall.extract { u } jv).1 = rpc at h ⊢
  split at h
  · exact (not_trace_refused h).elim
  · unfold dispatch at h
    cases hcid : checkedValue rpc.params "cid" with
    | error e =>
      rw [hcid] at h
      exact (not_trace_refused h).elim
    | ok v =>
      rw [hcid, checked_ok_bind] at h
      split at h
      · cases h
      · obtain ⟨found, rest, heq, hrest⟩ := Prog.trace_op_bind_tryCatch h
        injection heq with hhead htail
        subst htail
        cases hhead
        exact hrest

end request

/-! ### Runs -/

section runs
variable {tr : List (World × Label)} {w : World} {u : UserId} {jv : Value} {s : Shared} {c : Channel}
  {cid : Nat} {rest : List Performed} {o : Except Exn Unit}

/-- The operations in the log of a session that has nothing left to do are those of the whole frame. -/
theorem trace_of_done {ops : List Performed} (hrun : Run step Booted tr w)
    (hlog : requestLog u tr = some (jv, ops)) (hdone : w.phase u = .busy (.pure ())) :
    Trace (readFrame u jv) (ops.map Prod.snd) (.ok ()) := by
  obtain ⟨jv', ops', heq, hleaves⟩ := (requestLogged_run hrun).busy _ hdone
  rw [hlog] at heq
  cases heq
  rw [← List.append_nil (ops.map Prod.snd)]
  exact hleaves.trace (.pure ())

/-- A request to a room changes nobody's standing. -/
theorem subject_room {rpc : RpcCall} {tr : List (Event Res)}
    (h : Trace (catchRpc (roomOnDispatch c rpc) (completeError rpc)) tr o) :
    ∀ e ∈ tr, e.1.subject = none := by
  rcases roomOnDispatch_cases c rpc with ⟨-, heq⟩ | ⟨-, -, heq⟩
  · rw [heq] at h
    rcases trace_answerSay h with hsay | ⟨e, pre, hsay, rfl⟩
    · exact hsay.subject
    · exact List.forall_mem_append.mpr ⟨hsay.subject, subject_replied⟩
  · rw [heq] at h
    exact (trace_reply h).2 ▸ subject_replied

/-- A request that is dispatched to a room, other than one to join or to leave, makes it speak exactly
as it should when it is no slash command that someone hears of. -/
theorem room_speaks_iff (hrun : Run step Booted tr w)
    (hlog : requestLog u tr = some (jv, (s, ⟨.at cid, some c⟩) :: rest)) (hkind : c.kind = .room)
    (hdone : Trace (readFrame u jv) (⟨.at cid, some c⟩ :: rest.map Prod.snd) o)
    (hjoin : (RpcCall.extract { u } jv).1.method ≠ "join")
    (hleave : (RpcCall.extract { u } jv).1.method ≠ "leave") :
    SpeaksOnlyForSay s c (RpcCall.extract { u } jv).1 ((s, ⟨.at cid, some c⟩) :: rest) ↔
      SlashUnheard s c (RpcCall.extract { u } jv).1 := by
  have hu : (RpcCall.extract { u } jv).1.u = u := (RpcCall.extract_keeps { u } jv).2.1
  have htrace := trace_readFrame_at hdone
  rw [dispatch_room hkind hjoin hleave] at htrace
  have hsubject : ∀ x ∈ (s, (⟨.at cid, some c⟩ : Event Res)) :: rest, x.2.1.subject = none := by
    refine List.forall_mem_cons.mpr ⟨rfl, fun x hx => ?_⟩
    exact subject_room htrace x.2 (List.mem_map_of_mem hx)
  obtain ⟨st, hst, -⟩ := steady_run hrun jv _ hlog hsubject
  have hanswered : Answered s c (RpcCall.extract { u } jv).1 ((s, ⟨.at cid, some c⟩) :: rest) := by
    refine ⟨((requestLogged_run hrun).ops jv _ hlog).1, fun x hx => ?_⟩
    rw [hu, hst x hx]
    exact (hst _ List.mem_cons_self).symm
  have hops : (((s, ⟨.at cid, some c⟩) :: rest : List Performed)).map Prod.snd =
      ⟨.at cid, some c⟩ :: rest.map Prod.snd := rfl
  rcases roomOnDispatch_cases c (RpcCall.extract { u } jv).1 with
    ⟨hmethod, heq⟩ | ⟨hsay, hslash, heq⟩
  · rw [heq] at htrace
    exact speaks_iff_of_doSay hanswered hops htrace hmethod
  · rw [heq] at htrace
    exact speaks_of_unknown hops htrace hsay hslash

end runs

/-- Ann sends the room General a request with the message "hi" as soon as she is in it. -/
def annSends (method : String) : List Label :=
  [.connect 1, .frame 1 (request "identify" [("cid", .number (.int 1)), ("name", .string "ann")])] ++
    List.replicate 11 (.session 1) ++ [.frame 1 (request "join" [("cid", .number (.int 2))])] ++
    List.replicate 10 (.session 1) ++
    [.frame 1 (request method [("cid", .number (.int 2)), ("message", .string "hi")])] ++
    List.replicate 7 (.session 1)

theorem annSays_runs : (execute step (annSends "say") [] bootZero).isSome := by decide +kernel

theorem annSlashes_runs : (execute step (annSends "slash") [] bootZero).isSome := by decide +kernel

/-- What Ann says is said. -/
theorem room_speaks_iff_annSays : ∃ tr w jv s c cid rest, Run step Booted tr w ∧
    requestLog 1 tr = some (jv, (s, ⟨.at cid, some c⟩) :: rest) ∧
    SpeaksOnlyForSay s c (RpcCall.extract { u := 1 } jv).1 ((s, ⟨.at cid, some c⟩) :: rest) := by
  have hrun := run_after (annSends "say") annSays_runs
  obtain ⟨s, c, rest, hlog, hkind⟩ : ∃ s c rest, requestLog 1 (traceOf (annSends "say") annSays_runs) =
      some (request "say" [("cid", .number (.int 2)), ("message", .string "hi")],
        (s, ⟨.at 2, some c⟩) :: rest) ∧ c.kind = .room := ⟨_, _, _, rfl, rfl⟩
  have hdone := trace_of_done hrun hlog rfl
  exact ⟨_, _, _, s, c, 2, rest, hrun, hlog, (room_speaks_iff hrun hlog hkind hdone (by decide)
    (by decide)).mpr fun hslash => absurd hslash (by decide)⟩

/-- Her slash command is said too. -/
theorem slash_is_broadcast : ¬∀ tr w u jv s c cid rest o, Run step Booted tr w →
    requestLog u tr = some (jv, (s, ⟨.at cid, some c⟩) :: rest) → c.kind = .room →
    Trace (readFrame u jv) (⟨.at cid, some c⟩ :: rest.map Prod.snd) o →
    (RpcCall.extract { u } jv).1.method ≠ "join" → (RpcCall.extract { u } jv).1.method ≠ "leave" →
    SpeaksOnlyForSay s c (RpcCall.extract { u } jv).1 ((s, ⟨.at cid, some c⟩) :: rest) := by
  intro h
  have hrun := run_after (annSends "slash") annSlashes_runs
  obtain ⟨s, c, rest, hlog, hkind, hsaid⟩ : ∃ s c rest,
      requestLog 1 (traceOf (annSends "slash") annSlashes_runs) =
        some (request "slash" [("cid", .number (.int 2)), ("message", .string "hi")],
          (s, ⟨.at 2, some c⟩) :: rest) ∧ c.kind = .room ∧
      rest.any (fun x => x.2.1.isBroadcast) := ⟨_, _, _, rfl, rfl, rfl⟩
  have hdone := trace_of_done hrun hlog rfl
  have hspeaks := h _ _ _ _ _ _ _ _ _ hrun hlog hkind hdone (by decide) (by decide)
  obtain ⟨x, hx, hbroadcast⟩ := List.any_eq_true.mp hsaid
  obtain ⟨text, hsay⟩ := hspeaks.spoken_iff.mp ⟨x, List.mem_cons_of_mem _ hx, hbroadcast⟩
  exact absurd hsay.method (by decide)

end BeastLounge.Lounge
