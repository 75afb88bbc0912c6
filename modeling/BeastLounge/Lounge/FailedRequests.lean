import BeastLounge.Blackjack.Seating
import BeastLounge.Lounge.Rules
import BeastLounge.Lounge.World

/-!
# Requests that fail

A handler that fails with `rpc_error` does so before it has changed anything or told anyone: it
throws on its own checks, or on the answer of an operation that leaves everything as it was
(`FailsFirst`). The operations of a request are performed one by one among those of other threads,
so this is a statement about each of them, in the state in which it is performed: `requestLog` and
`handlerLog` collect them along a run.
-/

namespace BeastLounge.Lounge

open Theory Json Rpc

open Prog (Spec wp Trace Event Leaves Keeps keeps_bind keeps_op)

/-- What a failed request may not change. -/
structure Unaltered (w t : Shared) : Prop where
  channels : t.channels = w.channels
  users : t.users = w.users
  mine : t.mine = w.mine
  name : t.name = w.name
  game : t.game = w.game

theorem unaltered_refl (w : Shared) : Unaltered w w := ⟨rfl, rfl, rfl, rfl, rfl⟩

/-- With this answer the operation may have changed something, or tells someone. A request that is
handed to the table's strand is still to be handled. -/
def loud : (c : Cmd) → Res c → Bool
  | .at _, _ => false
  | .isJoined _ _, _ => false
  | .readName _, _ => false
  | .seats, _ => false
  | .usersInsert _ _, inserted => inserted
  | .usersErase _ _, erased => erased
  | .post h, _ => h.rpc.isNone
  | .join _, r => r.isOk
  | .leave _, r => r.isOk
  | .bet _, r => r.isOk
  | _, _ => true

/-- An operation that is not loud leaves the state as it was. -/
theorem quiet_of_not_loud {c : Cmd} {w : Shared} (h : loud c (act c w).1 = false) :
    Unaltered w (act c w).2 ∧ c.isMessage = false := by
  cases c with
  | usersInsert c u =>
    refine ⟨?_, rfl⟩
    simp only [act, Shared.usersInsert] at h ⊢
    split at h
    · rename_i hmem
      rw [if_pos hmem]
      exact unaltered_refl w
    · cases h
  | usersErase c u =>
    refine ⟨?_, rfl⟩
    simp only [act, Shared.usersErase] at h ⊢
    split at h
    · cases h
    · rename_i hmem
      rw [if_neg hmem]
      exact unaltered_refl w
  | join u =>
    cases hr : (w.game.join u).2 with
    | ok i => simp [loud, act, hr, Except.isOk, Except.toBool] at h
    | error e => exact ⟨⟨rfl, rfl, rfl, rfl, Blackjack.Game.join_error hr⟩, rfl⟩
  | leave u =>
    cases hr : (w.game.leave u).2 with
    | ok i => simp [loud, act, hr, Except.isOk, Except.toBool] at h
    | error e => exact ⟨⟨rfl, rfl, rfl, rfl, Blackjack.Game.leave_error hr⟩, rfl⟩
  | bet u =>
    cases hr : (w.game.bet u).2 with
    | ok i => simp [loud, act, hr, Except.isOk, Except.toBool] at h
    | error e => exact ⟨⟨rfl, rfl, rfl, rfl, Blackjack.Game.bet_error hr⟩, rfl⟩
  | post h => exact ⟨⟨rfl, rfl, rfl, rfl, rfl⟩, rfl⟩
  | «at» cid => exact ⟨unaltered_refl w, rfl⟩
  | isJoined c u => exact ⟨unaltered_refl w, rfl⟩
  | readName u => exact ⟨unaltered_refl w, rfl⟩
  | seats => exact ⟨unaltered_refl w, rfl⟩
  | _ => cases h

/-! ### Failing first

The ghost value records whether an operation so far was loud, and whether the request was handed to
the table's strand. -/

structure Conduct where
  loud : Bool := false
  handedOver : Bool := false
deriving DecidableEq

def Cmd.handsOver : Cmd → Bool
  | .post h => h.rpc.isSome
  | _ => false

def conductSpec : Spec Res Conduct where
  may _ _ _ := True
  allow _ _ := True
  next v c r := { loud := v.loud || loud c r, handedOver := v.handedOver || c.handsOver }

/-- A request fails before anything loud, and is not heard of before it is handed over. -/
structure Behaves (o : Except Exn Unit) (v : Conduct) : Prop where
  failed : ∀ e, o = .error (.rpc e) → v.loud = false
  handedOver : v.handedOver = true → v.loud = false ∧ o = .ok ()

def FailsFirst (p : Act Unit) : Prop := wp conductSpec Behaves p {}

/-- Nothing in `p` is loud, and it does not hand the request over. -/
def Checks {α : Type} (p : Act α) : Prop := wp conductSpec (fun _ v => v = {}) p {}

def NotHanded (v : Conduct) : Prop := v.handedOver = false

/-- Once it is loud, a request may end in an exception other than `rpc_error`. -/
def Unfailing {α : Type} (p : Act α) : Prop := Keeps conductSpec NotHanded (fun x => ∀ e, x ≠ .rpc e) p

section first
variable {α : Type}

theorem safe_of_handsOver {c : Cmd} (hc : c.handsOver = false) : conductSpec.Safe NotHanded c := by
  intro v hv
  refine ⟨trivial, fun r _ => ?_⟩
  show (v.handedOver || c.handsOver) = false
  rw [show v.handedOver = false from hv, hc]
  rfl

theorem behaves_of_notHanded {o : Except Exn Unit} {v : Conduct} (hv : NotHanded v)
    (ho : ∀ x, o = .error x → ∀ e, x ≠ .rpc e) : Behaves o v := by
  refine ⟨fun e he => absurd rfl (ho _ he e), fun h => ?_⟩
  rw [show v.handedOver = false from hv] at h
  cases h

theorem Unfailing.wp {p : Act Unit} (h : Unfailing p) {v : Conduct} (hv : NotHanded v) :
    Prog.wp conductSpec Behaves p v :=
  Prog.wp_mono (fun _ _ ho => behaves_of_notHanded ho.1 ho.2) (h v hv)

theorem failsFirst_throw (x : Exn) : FailsFirst (.throw x) := ⟨fun _ _ => rfl, nofun⟩

theorem failsFirst_bind {p : Act α} {f : α → Act Unit} (hp : Checks p)
    (hf : ∀ a, FailsFirst (f a)) : FailsFirst (p >>= f) := by
  apply Prog.wp_bind.mpr
  apply Prog.wp_mono _ hp
  rintro o v rfl
  cases o with
  | ok a => exact hf a
  | error x => exact failsFirst_throw x

theorem checks_op {c : Cmd} (hc : c.handsOver = false) (hquiet : ∀ r, loud c r = false) :
    Checks (op c) := by
  refine Prog.wp_op.mpr ⟨trivial, fun r _ => ?_⟩
  simp [conductSpec, hc, hquiet r]

theorem checks_checked (r : Except RpcError α) : Checks (checked r) := by
  cases r <;> exact rfl

theorem checks_checkedUser (rpc : RpcCall) : Checks (Channel.checkedUser rpc) := by
  refine Prog.wp_bind.mpr (Prog.wp_op.mpr ⟨trivial, fun name _ => ?_⟩)
  show Prog.wp conductSpec _ _ ({} : Conduct)
  split <;> exact rfl

theorem unfailing_complete (rpc : RpcCall) : Unfailing (complete rpc) :=
  keeps_complete fun _ _ _ => safe_of_handsOver rfl

theorem keeps_send_notHanded {T : Exn → Prop} (c : Channel) (jv : Value) :
    Keeps conductSpec NotHanded T (c.send jv) :=
  keeps_channelSend (safe_of_handsOver rfl) fun _ => safe_of_handsOver rfl

theorem keeps_update_notHanded {T : Exn → Prop} (a : String) :
    Keeps conductSpec NotHanded T (update a) :=
  keeps_update (wp_gameToJson_any (safe_of_handsOver rfl) fun _ => safe_of_handsOver rfl)
    (fun _ _ => safe_of_handsOver rfl) fun _ _ _ => safe_of_handsOver rfl

/-! ### Frames -/

/-- `insert` and `erase` do nothing when they return false. -/
def NothingIfFalse (o : Except Exn Bool) (v : Conduct) : Prop :=
  (o = .ok false ∧ v = {}) ∨ (o = .ok true ∧ NotHanded v)

theorem wp_insert_conduct (c : Channel) (u : UserId) :
    wp conductSpec NothingIfFalse (c.insert u) {} := by
  refine Prog.wp_bind.mpr (Prog.wp_op.mpr ⟨trivial, fun inserted _ => ?_⟩)
  cases inserted with
  | false => exact .inl ⟨rfl, rfl⟩
  | true =>
    have hstart : NotHanded (conductSpec.next {} (.usersInsert c u) true) := rfl
    apply (keeps_op (safe_of_handsOver rfl)).wp_bind hstart
    intro name v hv
    apply (keeps_send_notHanded c _).wp_bind hv
    intro _ v hv
    apply (keeps_userOnInsert (fun _ => safe_of_handsOver rfl) (safe_of_handsOver rfl)).wp_bind hv
    intro _ v hv
    apply (keeps_onInsert (safe_of_handsOver rfl)).wp_bind hv
    exact fun _ v hv => .inr ⟨rfl, hv⟩

theorem wp_erase_conduct (c : Channel) (u : UserId) :
    wp conductSpec NothingIfFalse (c.erase u) {} := by
  refine Prog.wp_bind.mpr (Prog.wp_op.mpr ⟨trivial, fun erased _ => ?_⟩)
  cases erased with
  | false => exact .inl ⟨rfl, rfl⟩
  | true =>
    have hstart : NotHanded (conductSpec.next {} (.usersErase c u) true) := rfl
    apply (keeps_op (safe_of_handsOver rfl)).wp_bind hstart
    intro name v hv
    apply (keeps_send_notHanded c _).wp_bind hv
    intro _ v hv
    apply (keeps_op (safe_of_handsOver rfl)).wp_bind hv
    intro _ v hv
    apply (keeps_userOnErase (fun _ => safe_of_handsOver rfl) (safe_of_handsOver rfl)).wp_bind hv
    intro _ v hv
    apply (keeps_onErase (safe_of_handsOver rfl)).wp_bind hv
    exact fun _ v hv => .inr ⟨rfl, hv⟩

section dispatch
variable {rpc : RpcCall} (c : Channel)

theorem failsFirst_of_nothingIfFalse {p : Act Bool} {f : Bool → Act Unit}
    (hp : wp conductSpec NothingIfFalse p {}) (hfalse : FailsFirst (f false))
    (htrue : Unfailing (f true)) : FailsFirst (p >>= f) := by
  apply Prog.wp_bind.mpr
  apply Prog.wp_mono _ hp
  rintro o v (⟨rfl, rfl⟩ | ⟨rfl, hv⟩)
  · exact hfalse
  · exact htrue.wp hv

theorem failsFirst_doJoin : FailsFirst (c.doJoin rpc) :=
  failsFirst_bind (checks_checkedUser rpc) fun _ =>
    failsFirst_of_nothingIfFalse (wp_insert_conduct c rpc.u) (failsFirst_throw _)
      (unfailing_complete rpc)

theorem failsFirst_doLeave : FailsFirst (c.doLeave rpc) :=
  failsFirst_of_nothingIfFalse (wp_erase_conduct c rpc.u) (failsFirst_throw _) (unfailing_complete rpc)

theorem Unfailing.failsFirst {p : Act Unit} (h : Unfailing p) : FailsFirst p := h.wp rfl

theorem failsFirst_doSay : FailsFirst (doSay c rpc) := by
  apply failsFirst_bind (checks_checkedUser rpc)
  intro _
  apply failsFirst_bind (checks_op rfl fun _ => rfl)
  intro joined
  cases joined with
  | false => exact failsFirst_throw _
  | true =>
    apply failsFirst_bind (checks_checked _)
    intro text
    apply failsFirst_bind (checks_op rfl fun _ => rfl)
    intro name
    apply Unfailing.failsFirst
    exact keeps_bind (keeps_send_notHanded c _) fun _ => unfailing_complete rpc

/-- The name is written when nothing can fail any more: whether the insertion succeeds is ignored. -/
theorem failsFirst_doIdentify : FailsFirst (doIdentify c rpc) := by
  apply failsFirst_bind (checks_checked _)
  intro name
  split
  · exact failsFirst_throw _
  · apply failsFirst_bind (checks_op rfl fun _ => rfl)
    intro current
    split
    · exact failsFirst_throw _
    · apply Unfailing.failsFirst
      apply keeps_bind (keeps_op (safe_of_handsOver rfl))
      intro _
      apply keeps_bind _ fun _ => unfailing_complete rpc
      apply keeps_insert_of_safe (N := fun _ => True) fun _ _ _ _ => trivial
      intro cmd hcmd
      cases hcmd <;> exact safe_of_handsOver rfl

theorem failsFirst_tableOnDispatch : FailsFirst (tableOnDispatch rpc) := by
  unfold tableOnDispatch
  split
  · rename_i h hh
    have hrpc : h.rpc = some rpc := by
      unfold tableHandler at hh
      split at hh <;> cases hh <;> rfl
    refine Prog.wp_op.mpr ⟨trivial, fun _ _ => ⟨nofun, fun _ => ⟨?_, rfl⟩⟩⟩
    show (false || h.rpc.isNone) = false
    rw [hrpc]
    rfl
  · exact failsFirst_throw _

theorem failsFirst_onDispatch : FailsFirst (onDispatch c rpc) := by
  have hserver : ∀ r : ServerRequest, Unfailing (op (.server r) >>= fun _ => complete rpc) :=
    fun r => keeps_bind (keeps_op (safe_of_handsOver rfl)) fun _ => unfailing_complete rpc
  unfold onDispatch
  split
  · unfold systemOnDispatch
    split
    · exact failsFirst_doIdentify c
    · exact (hserver _).failsFirst
    · exact (hserver _).failsFirst
    · exact failsFirst_throw _
  · unfold roomOnDispatch
    split
    · exact failsFirst_doSay c
    · exact failsFirst_doSay c
    · exact failsFirst_throw _
  · exact failsFirst_tableOnDispatch

omit c in
theorem failsFirst_dispatch : FailsFirst (dispatch rpc) := by
  apply failsFirst_bind (checks_checked _)
  intro v
  split
  · exact failsFirst_throw _
  · apply failsFirst_bind (checks_op rfl fun _ => rfl)
    intro c
    split
    · exact failsFirst_throw _
    · rename_i c
      unfold Channel.dispatch
      split
      · exact failsFirst_doJoin c
      · exact failsFirst_doLeave c
      · exact failsFirst_onDispatch c

end dispatch

theorem failsFirst_frameBody (u : UserId) (jv : Value) : FailsFirst (frameBody u jv) := by
  unfold frameBody
  split
  · exact failsFirst_throw _
  · exact failsFirst_dispatch

/-! ### Handlers of the table -/

theorem serve_eq {h : Handler} {rpc : RpcCall} (hrpc : h.rpc = some rpc) :
    serve h = catchRpc (handlerBody h) (completeError rpc) := by
  cases h <;> cases hrpc <;> rfl

/-- A handler that has changed the game tells the members and answers. -/
theorem unfailing_updated (a : String) (rpc : RpcCall) :
    Unfailing (update a >>= fun _ => complete rpc) :=
  keeps_bind (keeps_update_notHanded a) fun _ => unfailing_complete rpc

theorem failsFirst_handlerBody {h : Handler} {rpc : RpcCall} (hrpc : h.rpc = some rpc) :
    FailsFirst (handlerBody h) := by
  cases h with
  | doInsert u => cases hrpc
  | doErase u => cases hrpc
  | doPlay rpc =>
    refine Prog.wp_bind.mpr (Prog.wp_op.mpr ⟨trivial, fun r _ => ?_⟩)
    cases r with
    | ok i => exact (unfailing_updated "play" rpc).wp rfl
    | error ec => exact failsFirst_throw _
  | doWatch rpc =>
    refine Prog.wp_bind.mpr (Prog.wp_op.mpr ⟨trivial, fun r _ => ?_⟩)
    cases r with
    | ok i => exact (unfailing_updated "watch" rpc).wp rfl
    | error ec => exact failsFirst_throw _
  | doBet rpc =>
    refine Prog.wp_bind.mpr (Prog.wp_bind.mpr (Prog.wp_op.mpr ⟨trivial, fun r _ => ?_⟩))
    cases r with
    | ok i =>
      refine (keeps_update_notHanded "bet").wp_bind ?_ fun _ v hv => (unfailing_complete rpc).wp hv
      exact rfl
    | error ec => exact failsFirst_throw _
  | doStart rpc =>
    apply Unfailing.failsFirst
    apply keeps_bind _ fun _ => unfailing_complete rpc
    apply keeps_bind (keeps_op (safe_of_handsOver rfl))
    intro r
    cases r with
    | error f => exact Prog.keeps_throw nofun
    | ok _ => exact keeps_update_notHanded "deal"
  | doHit rpc => exact (unfailing_complete rpc).failsFirst
  | doStand rpc => exact (unfailing_complete rpc).failsFirst

end first

/-! ### The operations of one request -/

/-- The operation changes nothing that a failed request may not change, and sends nothing. -/
def NoEffect (x : Performed) : Prop :=
  Unaltered x.1 (act x.2.1 x.1).2 ∧ x.2.1.isMessage = false

/-- What is done after the failure: the error reply is sent to the requester, unless the request is a
notification. -/
def OnlyReplies (rpc : RpcCall) (e : RpcError) (ops : List Performed) : Prop :=
  ops = [] ∨ ∃ w jv, rpc.errorResponse e = some jv ∧ ops = [(w, ⟨.send rpc.u jv, ()⟩)]

/-- Wherever `body` throws an `rpc_error`, the operations before that had no effect, and at most the
reply follows. -/
def FailsQuietly (body : Act Unit) (rpc : RpcCall) (ops : List Performed) : Prop :=
  ∀ pre rest e, ops = pre ++ rest → Trace body (pre.map Prod.snd) (.error (.rpc e)) →
    (∀ x ∈ pre, NoEffect x) ∧ OnlyReplies rpc e rest

/-- A request is handed over to the table's strand without any other effect. -/
def HandsOverQuietly (ops : List Performed) : Prop :=
  (∃ x ∈ ops, x.2.1.handsOver = true) → ∀ x ∈ ops, NoEffect x

section ops
variable {body : Act Unit} {rpc : RpcCall} {ops : List Performed} {p : Act Unit}

theorem ghost_conduct (v : Conduct) (tr : List (Event Res)) :
    Prog.ghost conductSpec v tr =
      { loud := v.loud || tr.any fun e => loud e.1 e.2
        handedOver := v.handedOver || tr.any fun e => e.1.handsOver } := by
  induction tr generalizing v with
  | nil => simp [Prog.ghost]
  | cons e tr ih =>
    have hcons : Prog.ghost conductSpec v (e :: tr) =
        Prog.ghost conductSpec (conductSpec.next v e.1 e.2) tr := rfl
    rw [hcons, ih]
    simp [conductSpec, Bool.or_assoc]

theorem behaves_trace (hbody : FailsFirst body) {tr : List (Event Res)} {o : Except Exn Unit}
    (h : Trace body tr o) :
    ((∃ e, o = .error (.rpc e)) → ∀ x ∈ tr, loud x.1 x.2 = false) ∧
      ((∃ x ∈ tr, x.1.handsOver = true) → (∀ x ∈ tr, loud x.1 x.2 = false) ∧ o = .ok ()) := by
  have hbehaves := Prog.wp_trace hbody h (Prog.follows_of_may (fun _ _ _ => trivial) _ _)
  rw [ghost_conduct] at hbehaves
  have hquiet : (false || tr.any fun e => loud e.1 e.2) = false → ∀ x ∈ tr, loud x.1 x.2 = false := by
    intro hfalse x hx
    rw [Bool.false_or, List.any_eq_false] at hfalse
    exact Bool.eq_false_iff.mpr (hfalse x hx)
  constructor
  · rintro ⟨e, he⟩
    exact hquiet (hbehaves.failed e he)
  · intro hhands
    obtain ⟨hloud, ho⟩ := hbehaves.handedOver (List.any_eq_true.mpr hhands)
    exact ⟨hquiet hloud, ho⟩

theorem noEffect_of_quiet (hactual : Actual ops)
    (h : ∀ e ∈ ops.map Prod.snd, loud e.1 e.2 = false) : ∀ x ∈ ops, NoEffect x := by
  intro x hx
  apply quiet_of_not_loud
  rw [← hactual x hx]
  exact h x.2 (List.mem_map.mpr ⟨x, hx, rfl⟩)

/-- After the failure the `catch` clause is left. -/
theorem onlyReplies (e : RpcError) (h : Leaves (completeError rpc e) (ops.map Prod.snd) p) :
    OnlyReplies rpc e ops := by
  unfold completeError at h
  cases hres : rpc.errorResponse e with
  | none =>
    rw [hres] at h
    cases ops with
    | nil => exact .inl rfl
    | cons x ops => cases h
  | some jv =>
    rw [hres] at h
    rcases ops with _ | ⟨⟨w, x⟩, _ | ⟨y, ops⟩⟩
    · exact .inl rfl
    · cases h
      exact .inr ⟨w, jv, hres, rfl⟩
    · cases h with
      | call h => cases h

theorem failsQuietly (hbody : FailsFirst body) (hactual : Actual ops)
    (h : Leaves (catchRpc body (completeError rpc)) (ops.map Prod.snd) p) :
    FailsQuietly body rpc ops := by
  rintro pre rest e rfl htrace
  refine ⟨noEffect_of_quiet (fun x hx => hactual x (List.mem_append_left _ hx))
    ((behaves_trace hbody htrace).1 ⟨e, rfl⟩), ?_⟩
  rw [List.map_append] at h
  obtain ⟨m, hm, hrest⟩ := h.split
  -- what is left there is the handler of the exception
  obtain rfl := hm.unique ((Prog.leaves_throw htrace).tryCatch _)
  exact onlyReplies e hrest

/-- A reply is no handing over. -/
theorem not_handsOver_of_notHanded {q : Act Unit} {o : Except Exn Unit} {tr : List (Event Res)}
    (hq : Keeps conductSpec NotHanded (fun _ => True) q) (h : Trace q tr o) :
    ∀ x ∈ tr, x.1.handsOver = false := by
  have hnot := (Prog.wp_trace (hq {} rfl) h (Prog.follows_of_may (fun _ _ _ => trivial) _ _)).1
  rw [ghost_conduct] at hnot
  intro x hx
  exact Bool.eq_false_iff.mpr (List.any_eq_false.mp hnot x hx)

theorem handsOverQuietly (hbody : FailsFirst body) (hactual : Actual ops)
    (h : Leaves (catchRpc body (completeError rpc)) (ops.map Prod.snd) p) :
    HandsOverQuietly ops := by
  rintro ⟨x, hx, hhands⟩
  apply noEffect_of_quiet hactual
  -- let the request be completed against any state
  have htrace := h.trace (Prog.trace_events act p bootZero.sh)
  have hmem : x.2 ∈ ops.map Prod.snd := List.mem_map.mpr ⟨x, hx, rfl⟩
  rcases Prog.trace_tryCatch htrace with ⟨htrace, -⟩ | ⟨x', pre, rest, hsplit, hpre, hrest⟩
  · have hquiet := ((behaves_trace hbody htrace).2 ⟨x.2, List.mem_append_left _ hmem, hhands⟩).1
    exact fun e he => hquiet e (List.mem_append_left _ he)
  · exfalso
    have hmem' : x.2 ∈ pre ++ rest := hsplit ▸ List.mem_append_left _ hmem
    rcases List.mem_append.mp hmem' with hpre' | hrest'
    · cases ((behaves_trace hbody hpre).2 ⟨x.2, hpre', hhands⟩).2
    · have hno : ∀ {q : Act Unit} {o : Except Exn Unit},
          Keeps conductSpec NotHanded (fun _ => True) q → Trace q rest o → False := by
        intro q o hq hr
        rw [not_handsOver_of_notHanded hq hr x.2 hrest'] at hhands
        cases hhands
      cases x' with
      | rpc e => exact hno (keeps_completeError (fun _ _ _ => safe_of_handsOver rfl) e) hrest
      | system => exact hno (Prog.keeps_throw trivial) hrest
      | deal f => exact hno (Prog.keeps_throw trivial) hrest

end ops

/-! ### Runs -/

def nextRequestLog (u : UserId) (log : Option (Value × List Performed)) (w : World) :
    Label → Option (Value × List Performed)
  | .frame v jv => if v = u then some (jv, []) else log
  | .session v =>
    if v = u then
      match w.phase u with
      | .busy (.call c _) => log.map fun x => (x.1, x.2 ++ [w.sh.perform c])
      | _ => log
    else log
  | _ => log

/-- The last frame of `u` in a run, with what has been done for it in the read loop. -/
def requestLog (u : UserId) (tr : List (World × Label)) : Option (Value × List Performed) :=
  tr.foldl (fun log x => nextRequestLog u log x.1 x.2) none

def nextHandlerLog (log : Option (Handler × List Performed)) (w : World) :
    Label → Option (Handler × List Performed)
  | .table =>
    match w.running, w.sh.queue with
    | none, h :: _ => some (h, [])
    | some (_, .call c _), _ => log.map fun x => (x.1, x.2 ++ [w.sh.perform c])
    | _, _ => log
  | _ => log

/-- The last handler that the table's strand has begun, with what it has done. -/
def handlerLog (tr : List (World × Label)) : Option (Handler × List Performed) :=
  tr.foldl (fun log x => nextHandlerLog log x.1 x.2) none

/-- The log is one of the program of the frame. -/
structure RequestLogged (u : UserId) (log : Option (Value × List Performed)) (w : World) : Prop where
  busy : ∀ p, w.phase u = .busy p →
    ∃ jv ops, log = some (jv, ops) ∧ Leaves (readFrame u jv) (ops.map Prod.snd) p
  ops : ∀ jv ops, log = some (jv, ops) →
    Actual ops ∧ ∃ p, Leaves (readFrame u jv) (ops.map Prod.snd) p

structure HandlerLogged (log : Option (Handler × List Performed)) (w : World) : Prop where
  running : ∀ h p, w.running = some (h, p) →
    ∃ ops, log = some (h, ops) ∧ Leaves (serve h) (ops.map Prod.snd) p
  ops : ∀ h ops, log = some (h, ops) → Actual ops ∧ ∃ p, Leaves (serve h) (ops.map Prod.snd) p

section logs
variable {u : UserId} {w t : World} {l : Label} {log : Option (Value × List Performed)}
  {hlog : Option (Handler × List Performed)}

/-- The log stays while the phase of `u` does, or ends. -/
theorem RequestLogged.congr (h : RequestLogged u log w)
    (hphase : ∀ p, t.phase u = .busy p → w.phase u = .busy p) : RequestLogged u log t :=
  ⟨fun p hp => h.busy p (hphase p hp), h.ops⟩

theorem RequestLogged.setPhase (h : RequestLogged u log w) {sh : Shared} {v : UserId} {p : Phase}
    (hp : v = u → ∀ q, p ≠ .busy q) :
    RequestLogged u log ({ w with sh := sh }.setPhase v p) := by
  apply h.congr
  intro q hq
  by_cases hv : u = v
  · subst hv
    rw [setPhase_self] at hq
    exact absurd hq (hp rfl q)
  · rwa [setPhase_ne _ _ hv] at hq

/-- Between its operations a session logs nothing. -/
theorem nextRequestLog_session {v : UserId} {p : Phase} (hp : w.phase v = p) (h : p.calls = false) :
    nextRequestLog u log w (.session v) = log := by
  by_cases hv : v = u
  · subst hv
    simp only [nextRequestLog, if_true]
    split
    · rename_i c k hcall
      rw [← hp, hcall] at h
      cases h
    · rfl
  · exact if_neg hv

theorem requestLogged_step (h : RequestLogged u log w) (hstep : step w l = some t) :
    RequestLogged u (nextRequestLog u log w l) t := by
  cases step_moves hstep with
  | connect => exact h.setPhase fun _ => nofun
  | @frame v jv hidle =>
    by_cases hv : v = u
    · subst hv
      simp only [nextRequestLog, if_true]
      refine ⟨fun p hp => ⟨jv, [], rfl, ?_⟩, ?_⟩
      · rw [setPhase_self] at hp
        obtain rfl := Phase.busy.inj hp
        exact .nil _
      · intro jv' ops hlog
        cases hlog
        exact ⟨nofun, _, .nil _⟩
    · simp only [nextRequestLog, if_neg hv]
      exact h.setPhase fun hv' => absurd hv' hv
  | @sessionOp v c k hbusy =>
    by_cases hv : v = u
    · subst hv
      obtain ⟨jv, ops, rfl, hleaves⟩ := h.busy _ hbusy
      simp only [nextRequestLog, if_true, hbusy, Option.map_some]
      have hsnoc := hleaves.snoc (act c w.sh).1
      refine ⟨fun p hp => ⟨jv, _, rfl, ?_⟩, ?_⟩
      · rw [setPhase_self] at hp
        obtain rfl := Phase.busy.inj hp
        rw [List.map_append]
        exact hsnoc
      · intro jv' ops' hlog
        cases hlog
        rw [List.map_append]
        exact ⟨actual_snoc (h.ops _ _ rfl).1 w.sh c, _, hsnoc⟩
    · simp only [nextRequestLog, if_neg hv]
      exact h.setPhase fun hv' => absurd hv' hv
  | sessionDone hbusy =>
    rw [nextRequestLog_session hbusy rfl]
    exact h.setPhase fun _ => nofun
  | sessionThrow hbusy =>
    rw [nextRequestLog_session hbusy rfl]
    exact h.congr fun _ hp => hp
  | eraseLast hending =>
    rw [nextRequestLog_session hending rfl]
    exact h.setPhase fun _ => nofun
  | ended hending =>
    rw [nextRequestLog_session hending rfl]
    exact h.setPhase fun _ => nofun
  | eraseOp herasing =>
    rw [nextRequestLog_session herasing rfl]
    exact h.setPhase fun _ => nofun
  | eraseDone herasing =>
    rw [nextRequestLog_session herasing rfl]
    exact h.setPhase fun _ => nofun
  | eraseThrow herasing =>
    rw [nextRequestLog_session herasing rfl]
    exact h.congr fun _ hp => hp
  | close => exact h.setPhase fun _ => nofun
  | destroy => exact h.setPhase fun _ => nofun
  | serve => exact h.congr fun _ hp => hp
  | tableOp => exact h.congr fun _ hp => hp
  | tableDone => exact h.congr fun _ hp => hp
  | tableThrow => exact h.congr fun _ hp => hp
  | announce => exact h.congr fun _ hp => hp
  | notify => exact h.congr fun _ hp => hp
  | announced => exact h.congr fun _ hp => hp

theorem handlerLogged_step (h : HandlerLogged hlog w) (hstep : step w l = some t) :
    HandlerLogged (nextHandlerLog hlog w l) t := by
  cases step_moves hstep with
  | @serve h' q hrun hq =>
    simp only [nextHandlerLog, hrun, hq]
    refine ⟨fun h'' p hp => ?_, ?_⟩
    · obtain ⟨rfl, rfl⟩ := Prod.mk.inj (Option.some.inj hp)
      exact ⟨[], rfl, .nil _⟩
    · intro h'' ops hlog
      cases hlog
      exact ⟨nofun, _, .nil _⟩
  | @tableOp h' c k hrun =>
    obtain ⟨ops, rfl, hleaves⟩ := h.running _ _ hrun
    simp only [nextHandlerLog, hrun, Option.map_some]
    have hsnoc := hleaves.snoc (act c w.sh).1
    refine ⟨fun h'' p hp => ?_, ?_⟩
    · obtain ⟨rfl, rfl⟩ := Prod.mk.inj (Option.some.inj hp)
      refine ⟨_, rfl, ?_⟩
      rw [List.map_append]
      exact hsnoc
    · intro h'' ops' hlog
      cases hlog
      rw [List.map_append]
      exact ⟨actual_snoc (h.ops _ _ rfl).1 w.sh c, _, hsnoc⟩
  | tableDone hrun =>
    simp only [nextHandlerLog, hrun]
    exact ⟨nofun, h.ops⟩
  | tableThrow hrun =>
    simp only [nextHandlerLog, hrun]
    exact ⟨fun h' p hp => h.running h' p (hrun ▸ hp), h.ops⟩
  | _ => exact ⟨h.running, h.ops⟩

theorem requestLog_snoc (tr : List (World × Label)) (w : World) (l : Label) :
    requestLog u (tr ++ [(w, l)]) = nextRequestLog u (requestLog u tr) w l := by
  simp [requestLog, List.foldl_append]

theorem handlerLog_snoc (tr : List (World × Label)) (w : World) (l : Label) :
    handlerLog (tr ++ [(w, l)]) = nextHandlerLog (handlerLog tr) w l := by
  simp [handlerLog, List.foldl_append]

theorem requestLogged_run {tr : List (World × Label)} (hrun : Run step Booted tr w) :
    RequestLogged u (requestLog u tr) w := by
  induction hrun with
  | nil h =>
    obtain ⟨rand, chips, before, rfl⟩ := h
    exact ⟨nofun, nofun⟩
  | snoc hrun hs ih =>
    rw [requestLog_snoc]
    exact requestLogged_step ih hs

theorem handlerLogged_run {tr : List (World × Label)} (hrun : Run step Booted tr w) :
    HandlerLogged (handlerLog tr) w := by
  induction hrun with
  | nil h =>
    obtain ⟨rand, chips, before, rfl⟩ := h
    exact ⟨nofun, nofun⟩
  | snoc hrun hs ih =>
    rw [handlerLog_snoc]
    exact handlerLogged_step ih hs

end logs

/-- In every run, a request that fails, in the read loop or in the handler that the table runs for it,
has changed no channel, no user and not the game, and has sent nothing but the error reply to its user;
and when a request is handed over to the table, the read loop has done nothing else for it. -/
theorem failed_request_no_effect {tr : List (World × Label)} {w : World}
    (hrun : Run step Booted tr w) :
    (∀ u jv ops, requestLog u tr = some (jv, ops) →
      FailsQuietly (frameBody u jv) (RpcCall.extract { u } jv).1 ops ∧ HandsOverQuietly ops) ∧
    (∀ h rpc ops, handlerLog tr = some (h, ops) → h.rpc = some rpc →
      FailsQuietly (handlerBody h) rpc ops) := by
  constructor
  · intro u jv ops hlog
    obtain ⟨hactual, p, hleaves⟩ := (requestLogged_run hrun).ops jv ops hlog
    rw [readFrame] at hleaves
    have hfirst := failsFirst_frameBody u jv
    exact ⟨failsQuietly hfirst hactual hleaves, handsOverQuietly hfirst hactual hleaves⟩
  · intro h rpc ops hlog hrpc
    obtain ⟨hactual, p, hleaves⟩ := (handlerLogged_run hrun).ops h ops hlog
    rw [serve_eq hrpc] at hleaves
    exact failsQuietly (failsFirst_handlerBody hrpc) hactual hleaves

/-- User 1, who has no seat, asks to leave the table. -/
def watches : List Label :=
  [.connect 1, .frame 1 (request "watch" [("cid", .number (.int 3))])] ++
    List.replicate 3 (.session 1) ++ List.replicate 4 .table

theorem watches_runs : (execute step watches [] bootZero).isSome := by decide +kernel

/-- The game refuses, and the user is told. -/
theorem failed_request_watch : ∃ tr w rpc x y, Run step Booted tr w ∧
    handlerLog tr = some (.doWatch rpc, [x, y]) ∧ NoEffect x ∧
    OnlyReplies rpc (.ofMsg "Not playing") [y] := by
  have hrun := run_after watches watches_runs
  obtain ⟨rpc, s, y, hlog⟩ : ∃ rpc s y, handlerLog (traceOf watches watches_runs) =
      some (.doWatch rpc, [(s, ⟨.leave rpc.u, .error .notPlaying⟩), y]) := ⟨_, _, _, rfl⟩
  have htrace : Trace (handlerBody (.doWatch rpc)) [⟨.leave rpc.u, .error .notPlaying⟩]
      (.error (.rpc (.ofMsg "Not playing"))) := .call (.throw _)
  obtain ⟨hquiet, hreply⟩ :=
    (failed_request_no_effect hrun).2 _ rpc _ hlog rfl [(s, _)] [y] _ rfl htrace
  exact ⟨_, _, rpc, _, y, hrun, hlog, hquiet _ (List.mem_singleton.mpr rfl), hreply⟩

end BeastLounge.Lounge
