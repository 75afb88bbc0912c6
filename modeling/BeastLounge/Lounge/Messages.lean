import BeastLounge.Lounge.Alone
import BeastLounge.Lounge.Serial
import BeastLounge.Lounge.Sizes
import BeastLounge.Session.Message

/-!
# Every message is complete

The notices of joins and leaves are made of names of at most 20 bytes and the channels' own names, and
the updates of such names and a game in order, so they fit the buffer of `make_message`; and so does
the notice of a shutdown. A say notice and a response carry a string of the client's choice, and
nothing compares its length to the buffer. `RequestFits` says of a request, when it arrives and when
the table's strand takes it up, that there will be room for what is made of it.

The argument: `Sized` bounds what the operations read, so that a program in progress sends what fits,
apart from say notices and responses (`sizeSpec`). A session sends those that the requests of its user
admit (`Alone`), and the strand answers as the table's machine does (`Conforms`).
-/

namespace BeastLounge.Lounge

open Theory Json Rpc

open Prog (Spec wp Keeps)

open Session (Serializer Complete WsSession makeMessage utf8)

/-! ### The property -/

/-- The value an operation passes to `channel::send` or `user::send`. -/
def Cmd.value : Cmd → Option Value
  | .broadcast _ jv => some jv
  | .trySend _ jv => some jv
  | .send _ jv => some jv
  | _ => none

/-- The value the step passes to `channel::send` or `user::send`. -/
def sending (w : World) (l : Label) : Option Value := (operation w l).bind Cmd.value

/-- What the step sends makes a complete message. -/
def SendsComplete {σ : Type} (S : Serializer σ) (text : Value → String) (w : World) (l : Label) : Prop :=
  ∀ jv, sending w l = some jv → Complete S text jv

section property
variable (text : Value → String)

/-- The id of the request leaves room for the rest of the response. -/
def ReplyFits (rpc : RpcCall) : Except RpcError Unit → Prop
  | .ok _ => ∀ id ∈ rpc.id, (text id).utf8ByteSize + (text rpc.result).utf8ByteSize ≤ 16384 - 17
  | .error e => ∀ id ∈ rpc.id, (text id).utf8ByteSize + (text (.number (.int e.code))).utf8ByteSize +
      (text (.string e.msg)).utf8ByteSize ≤ 16384 - 52

/-- What is said leaves room for the names of the user and of the room. -/
def SayFits (name : String) (c : Channel) (said : String) : Prop :=
  (text (.string said)).utf8ByteSize + (text (.string name)).utf8ByteSize +
    (text (.string c.name)).utf8ByteSize + (text (.number (.int c.cid))).utf8ByteSize ≤ 16384 - 48

/-- A request of a user who has this fits, as far as its session deals with it. -/
def FrameFits (s : Own) (rpc : RpcCall) (ec : Option RpcCode) : Prop :=
  (∀ o ∈ s.outcome rpc ec, ReplyFits text rpc o) ∧ ∀ x ∈ s.says rpc ec, SayFits text s.name x.1 x.2

/-- A request that the table's strand takes up with this game fits. -/
def HandlerFits (g : Blackjack.Game) (h : Handler) : Prop :=
  ∀ rpc ∈ h.rpc, ∀ o ∈ h.outcome g, ReplyFits text rpc o

/-- The request that the step is about fits: it arrives, or the table's strand takes it up. -/
def RequestFits (w : World) : Label → Prop
  | .frame u jv => FrameFits text (w.sh.own u) (RpcCall.extract { u } jv).1 (RpcCall.extract { u } jv).2
  | .table => ∀ h ∈ takes w .table, HandlerFits text w.sh.game h
  | _ => True

end property

/-! ### What the operations read -/

/-- Names have at most 20 bytes, only the server's channels are known, and the game is in order. -/
structure Orderly (w : Shared) : Prop where
  name : ∀ u, (w.name u).utf8ByteSize ≤ 20
  channel : ∀ cid c, w.channels.getD cid none = some c → Known c
  mine : ∀ u, ∀ c ∈ w.mine u, Known c
  game : w.game.Bounded

/-- What is told to others fits or is in `T`, and what is sent in reply fits or is in `R`. -/
def sizeSpec (text : Value → String) (T R : Value → Prop) : Spec Res Unit where
  may
    | _, .at _, r => ∀ c, r = some c → Known c
    | _, .readName _, r => r.utf8ByteSize ≤ 20
    | _, .seats, r => r.2.length = 6 ∧ ∀ s ∈ r.2, s.Bounded
    | _, _, _ => True
  allow
    | _, .broadcast _ jv => (text jv).utf8ByteSize ≤ 16384 ∨ T jv
    | _, .trySend _ jv => (text jv).utf8ByteSize ≤ 16384 ∨ T jv
    | _, .send _ jv => (text jv).utf8ByteSize ≤ 16384 ∨ R jv
    | _, .channelsInsert _ c => Known c
    | _, .writeName _ name => name.utf8ByteSize ≤ 20
    | _, _ => True
  next _ _ _ := ()

/-- Whatever comes of it, the program sends what fits, but for `T` and `R`. -/
def Decent {α : Type} (text : Value → String) (T R : Value → Prop) (p : Act α) : Prop :=
  wp (sizeSpec text T R) (fun _ _ => True) p ()

def IsSay (jv : Value) : Prop := ∃ c name said, jv = sayNotice c name said

/-- The spec has no ghost value to keep. -/
theorem safe_of_allow {text : Value → String} {T R : Value → Prop} {c : Cmd}
    (h : (sizeSpec text T R).allow () c) : (sizeSpec text T R).Safe (fun _ => True) c :=
  fun _ _ => ⟨h, fun _ _ => trivial⟩

section programs
variable {text : Value → String} (htext : Compact text) {T R : Value → Prop} {u : UserId} {c : Channel}
  {E : Exn → Prop}

include htext

theorem safe_memberCmd_size (hc : Known c) (cmd : Cmd)
    (h : MemberCmd (·.utf8ByteSize ≤ 20) c u cmd) : (sizeSpec text T R).Safe (fun _ => True) cmd := by
  have hnotice : ∀ {verb name : String}, verb.utf8ByteSize ≤ 5 → name.utf8ByteSize ≤ 20 →
      (text (c.notice verb name)).utf8ByteSize ≤ 16384 :=
    fun hverb hname => le_trans (size_notice_le htext hc hverb hname) (by decide)
  apply safe_of_allow
  cases h with
  | notice hverb hname => exact .inl (hnotice hverb hname)
  | noticeTo hverb hname v => exact .inl (hnotice hverb hname)
  | channelsInsert => exact hc
  | _ => trivial

theorem insert_decent (hc : Known c) : Keeps (sizeSpec text T R) (fun _ => True) E (c.insert u) :=
  keeps_insert_of_safe (fun _ _ _ h => h) (safe_memberCmd_size htext hc)

theorem erase_decent (hc : Known c) : Keeps (sizeSpec text T R) (fun _ => True) E (c.erase u) :=
  keeps_erase_of_safe (fun _ _ _ h => h) fun cmd h _ => safe_memberCmd_size htext hc cmd h

theorem decent_readFrame (jv : Value) :
    Decent text IsSay (fun jv => ∃ id, IsReply id jv) (readFrame u jv) := by
  have hkeeps : Keeps (sizeSpec text IsSay fun jv => ∃ id, IsReply id jv) (fun _ => True)
      (fun _ => True) (readFrame u jv) := by
    refine keeps_readFrame (K := Known) jv ?_ (fun _ _ c _ h => h c rfl)
      (fun c hc => insert_decent htext hc) (fun c hc => erase_decent htext hc) fun _ _ _ _ => trivial
    intro cmd hcmd
    apply safe_of_allow
    cases hcmd with
    | writeName h => exact h
    | say c name said => exact .inr ⟨_, _, _, rfl⟩
    | sayTo c name said v => exact .inr ⟨_, _, _, rfl⟩
    | reply h => exact .inr ⟨_, h⟩
    | _ => trivial
  exact hkeeps.wp trivial

theorem decent_serve (h : Handler) :
    Decent text (fun _ => False) (fun jv => ∃ id, IsReply id jv) (serve h) := by
  have hupdate : ∀ {action : String} {g : Value}, action.utf8ByteSize ≤ 9 → SentGame g →
      (text (updateJson action g)).utf8ByteSize ≤ 16384 :=
    fun haction hg => le_trans (size_updateJson_le htext haction hg) (by decide)
  have hkeeps : Keeps (sizeSpec text (fun _ => False) fun jv => ∃ id, IsReply id jv) (fun _ => True)
      (fun _ => True) (serve h) := by
    refine keeps_serve (G := SentGame) ?_ ?_ fun _ _ _ => trivial
    · intro cmd hcmd
      apply safe_of_allow
      cases hcmd with
      | update ha hg => exact .inl (hupdate ha hg)
      | updateTo ha hg v => exact .inl (hupdate ha hg)
      | init hh hg => exact .inl (hupdate (by decide) hg)
      | reply hh hjv => exact .inr ⟨_, hjv⟩
      | _ => trivial
    · have hname : ∀ u, (sizeSpec text (fun _ => False) fun jv => ∃ id, IsReply id jv).Safe
          (fun _ => True) (.readName u) := fun u => safe_of_allow trivial
      have hseats : (sizeSpec text (fun _ => False) fun jv => ∃ id, IsReply id jv).Safe
          (fun _ => True) .seats := safe_of_allow trivial
      exact fun v hv => wp_gameToJson (N := (·.utf8ByteSize ≤ 20)) hname (fun _ _ _ _ h => h) hseats
        (P := fun seats => seats.length = 6 ∧ ∀ s ∈ seats, s.Bounded) (fun _ _ _ h => h) hv
  exact hkeeps.wp trivial

end programs

/-! ### One step -/

section act
variable {text : Value → String} {T R : Value → Prop} {w : Shared} {c : Cmd}

theorem act_may_size (hw : Orderly w) : (sizeSpec text T R).may () c (act c w).1 := by
  cases c with
  | «at» cid => exact fun c h => hw.channel cid c h
  | readName u => exact hw.name u
  | seats => exact ⟨hw.game.length_eq, hw.game.seat⟩
  | _ => trivial

theorem orderly_act (hw : Orderly w) (hc : (sizeSpec text T R).allow () c) : Orderly (act c w).2 := by
  cases c with
  | usersInsert c u =>
    rw [act_usersInsert]
    exact ⟨hw.name, hw.channel, hw.mine, hw.game⟩
  | usersErase c u =>
    rw [act_usersErase]
    exact ⟨hw.name, hw.channel, hw.mine, hw.game⟩
  | channelsInsert u c =>
    show Orderly (w.channelsInsert u c).2
    unfold Shared.channelsInsert
    split
    · exact hw
    · refine ⟨hw.name, hw.channel, fun v ch hch => ?_, hw.game⟩
      by_cases hv : v = u
      · subst hv
        simp only [Function.update_self, List.mem_orderedInsert] at hch
        rcases hch with rfl | hch
        · exact hc
        · exact hw.mine v ch hch
      · simp only [Function.update_of_ne hv] at hch
        exact hw.mine v ch hch
  | channelsErase u c =>
    show Orderly (w.channelsErase u c).2
    unfold Shared.channelsErase
    split
    · refine ⟨hw.name, hw.channel, fun v ch hch => ?_, hw.game⟩
      by_cases hv : v = u
      · subst hv
        simp only [Function.update_self] at hch
        exact hw.mine v ch (List.mem_of_mem_erase hch)
      · simp only [Function.update_of_ne hv] at hch
        exact hw.mine v ch hch
    · exact hw
  | trySend u jv =>
    rw [act_trySend]
    exact ⟨hw.name, hw.channel, hw.mine, hw.game⟩
  | writeName u name =>
    refine ⟨fun v => ?_, hw.channel, hw.mine, hw.game⟩
    show (Function.update w.name u name v).utf8ByteSize ≤ 20
    by_cases hv : v = u
    · subst hv
      rw [Function.update_self]
      exact hc
    · rw [Function.update_of_ne hv]
      exact hw.name v
  | join u => exact ⟨hw.name, hw.channel, hw.mine, Blackjack.Game.bounded_join hw.game⟩
  | leave u => exact ⟨hw.name, hw.channel, hw.mine, Blackjack.Game.bounded_leave hw.game⟩
  | surrender u => exact ⟨hw.name, hw.channel, hw.mine, Blackjack.Game.bounded_surrender hw.game⟩
  | bet u => exact ⟨hw.name, hw.channel, hw.mine, Blackjack.Game.bounded_bet hw.game⟩
  | dealOne => exact ⟨hw.name, hw.channel, hw.mine, Blackjack.Game.bounded_dealOne hw.game⟩
  | _ => exact ⟨hw.name, hw.channel, hw.mine, hw.game⟩

/-- What is in the mail afterwards was there before, or is what the operation sends. -/
theorem act_mail {u : UserId} {jv : Value} (h : jv ∈ (act c w).2.mail u) :
    jv ∈ w.mail u ∨ c.value = some jv := by
  have hsend : ∀ v jv', jv ∈ (w.send v jv').mail u → jv ∈ w.mail u ∨ some jv' = some jv := by
    intro v jv' hmem
    unfold Shared.send at hmem
    by_cases hv : u = v
    · subst hv
      simp only [Function.update_self, List.mem_append, List.mem_singleton] at hmem
      exact hmem.imp id fun heq => by rw [heq]
    · simp only [Function.update_of_ne hv] at hmem
      exact .inl hmem
  cases c with
  | send v jv' => exact hsend v jv' h
  | trySend v jv' =>
    by_cases hv : w.expired v
    · have hact : (act (.trySend v jv') w).2 = w := if_pos hv
      rw [hact] at h
      exact .inl h
    · have hact : (act (.trySend v jv') w).2 = w.send v jv' := if_neg hv
      rw [hact] at h
      exact hsend v jv' h
  | usersInsert c v =>
    rw [act_usersInsert] at h
    exact .inl h
  | usersErase c v =>
    rw [act_usersErase] at h
    exact .inl h
  | channelsInsert v c =>
    rw [act_channelsInsert] at h
    exact .inl h
  | channelsErase v c =>
    rw [act_channelsErase] at h
    exact .inl h
  | _ => exact .inl h

end act

def SessionDecent (text : Value → String) : Phase → Prop
  | .busy p => Decent text IsSay (fun jv => ∃ id, IsReply id jv) p
  | .erasing _ _ p => Decent text (fun _ => False) (fun _ => False) p
  | _ => True

/-- The operations read what is in order, and every program in progress is decent. -/
structure Sized (text : Value → String) (w : World) : Prop where
  orderly : Orderly w.sh
  session : ∀ u, SessionDecent text (w.phase u)
  strand : ∀ h p, w.running = some (h, p) →
    Decent text (fun _ => False) (fun jv => ∃ id, IsReply id jv) p

section step
variable {text : Value → String} {w t : World} {l : Label} {u : UserId}

theorem sized_boot (h : Booted w) : Sized text w := by
  obtain ⟨rand, chips, before, rfl⟩ := h
  refine ⟨⟨fun u => Nat.zero_le _, fun cid c hc => known_at rfl hc, fun u c hc => (by cases hc),
    Blackjack.Game.bounded_new (by decide) rand chips⟩, fun u => trivial, fun h p hp => by cases hp⟩

theorem Sized.ofSession {sh : Shared} {p : Phase} (hw : Sized text w) (hsh : Orderly sh)
    (hp : SessionDecent text p) : Sized text ({ w with sh := sh }.setPhase u p) := by
  refine ⟨hsh, fun v => ?_, hw.strand⟩
  by_cases hv : v = u
  · subst hv
    rw [setPhase_self]
    exact hp
  · rw [setPhase_ne _ _ hv]
    exact hw.session v

/-- A program in progress performs its next operation. -/
theorem Decent.step {α : Type} {T R : Value → Prop} {c : Cmd} {k : Res c → Act α} {sh : Shared}
    (hsh : Orderly sh) (h : Decent text T R (.call c k)) :
    Orderly (act c sh).2 ∧ Decent text T R (k (act c sh).1) :=
  ⟨orderly_act hsh h.1, h.2 _ (act_may_size hsh)⟩

theorem SessionDecent.perform {p : Phase} {c : Cmd} {next : Res c → Phase} {sh : Shared}
    (hsh : Orderly sh) (h : SessionDecent text p) (hp : Performs p c next) :
    Orderly (act c sh).2 ∧ SessionDecent text (next (act c sh).1) := by
  cases hp with
  | busy => exact Decent.step hsh h
  | erasing => exact Decent.step hsh h

theorem sized_step (htext : Compact text) (hw : Sized text w) (hs : step w l = some t) :
    Sized text t := by
  have hop : ∀ u c next, Performs (w.phase u) c next →
      Sized text ({ w with sh := (act c w.sh).2 }.setPhase u (next (act c w.sh).1)) := by
    intro u c next hp
    obtain ⟨hsh, hnext⟩ := (hw.session u).perform hw.orderly hp
    exact hw.ofSession hsh hnext
  have hsame : ∀ sh : Shared, sh.name = w.sh.name → sh.channels = w.sh.channels →
      sh.mine = w.sh.mine → sh.game = w.sh.game → Orderly sh := by
    rintro sh hname hchannels hmine hgame
    exact ⟨hname ▸ hw.orderly.name, hchannels ▸ hw.orderly.channel, hmine ▸ hw.orderly.mine,
      hgame ▸ hw.orderly.game⟩
  cases step_moves hs with
  | connect h => exact hw.ofSession hw.orderly trivial
  | @frame u jv h => exact hw.ofSession hw.orderly (decent_readFrame htext jv)
  | @sessionOp u c k h => exact hop u c (fun r => .busy (k r)) (h ▸ .busy)
  | sessionDone h => exact hw.ofSession hw.orderly trivial
  | sessionThrow h => exact ⟨hw.orderly, hw.session, hw.strand⟩
  | @eraseLast u n k c h hlast =>
    have hknown := hw.orderly.mine u c (List.mem_of_getLast? hlast)
    exact hw.ofSession hw.orderly ((erase_decent (E := fun _ => True) htext hknown).wp trivial)
  | ended h hmine => exact hw.ofSession hw.orderly trivial
  | @eraseOp u n k c k' h => exact hop u c (fun r => .erasing n k (k' r)) (h ▸ .erasing)
  | eraseDone h => exact hw.ofSession hw.orderly trivial
  | eraseThrow h => exact ⟨hw.orderly, hw.session, hw.strand⟩
  | close h => exact hw.ofSession hw.orderly trivial
  | destroy h hheld => exact hw.ofSession (hsame _ rfl rfl rfl rfl) trivial
  | @serve h q hrun hq =>
    refine ⟨hsame _ rfl rfl rfl rfl, hw.session, fun h' p hp => ?_⟩
    cases hp
    exact decent_serve htext h
  | @tableOp h c k hrun =>
    obtain ⟨hsh, hk⟩ := Decent.step hw.orderly (hw.strand h _ hrun)
    refine ⟨hsh, hw.session, fun h' p hp => ?_⟩
    cases hp
    exact hk
  | tableDone hrun => exact ⟨hw.orderly, hw.session, fun h p hp => by cases hp⟩
  | tableThrow hrun => exact ⟨hw.orderly, hw.session, hw.strand⟩
  | announce h => exact ⟨hw.orderly, hw.session, hw.strand⟩
  | notify h =>
    rw [act_trySend]
    exact ⟨hsame _ rfl rfl rfl rfl, hw.session, hw.strand⟩
  | announced h => exact ⟨hw.orderly, hw.session, hw.strand⟩

theorem sized (htext : Compact text) (h : Reachable step Booted w) : Sized text w :=
  h.invariant (fun _ => sized_boot) fun _ _ _ => sized_step htext

/-! ### The answers of the strand -/

/-- The strand is answering a request that fits. -/
def Answering (text : Value → String) (w : World) : Prop :=
  ∀ h p, w.running = some (h, p) → ∃ g rep, HandlerFits text g h ∧ Conforms h g p (w.sh.game, rep)

theorem answering_step (ht : Tracked w) (hw : Answering text w) (hfits : RequestFits text w l)
    (hs : step w l = some t) : Answering text t := by
  by_cases hl : l = .table
  · subst hl
    cases step_moves hs with
    | @serve h q hrun hq =>
      rintro h' p hp
      cases hp
      exact ⟨w.sh.game, [], hfits h (by simp [takes, hrun, hq]), conforms_serve h w.sh.game⟩
    | @tableOp h c k hrun =>
      obtain ⟨g, rep, hh, -, hk⟩ := hw h _ hrun
      rintro h' p hp
      cases hp
      refine ⟨g, rep ++ c.replies, hh, ?_⟩
      show Conforms _ _ _ ((act c w.sh).2.game, _)
      rw [act_game]
      exact hk _ ⟨w.sh, rfl, rfl⟩
    | tableDone hrun =>
      rintro h p hp
      cases hp
    | tableThrow hrun => exact hw
  · obtain ⟨hgame, hrun⟩ := strand_frame ht hs hl
    intro h p hp
    rw [hgame]
    exact hw h p (hrun ▸ hp)

theorem answering_run {tr : List (World × Label)} (hrun : Run step Booted tr w)
    (hfits : AllSteps (RequestFits text) tr) : Answering text w := by
  induction hrun with
  | nil h =>
    obtain ⟨rand, chips, before, rfl⟩ := h
    intro h p hp
    cases hp
  | snoc hrun hs ih =>
    obtain ⟨hbefore, hlast⟩ := allSteps_snoc.mp hfits
    exact answering_step (tracked hrun.reachable.2) (ih hbefore) hlast hs

end step

/-! ### What is sent -/

section complete
variable {σ : Type} {S : Serializer σ} {text : Value → String} (hS : S.Writes text)
  (htext : Compact text) {w t : World} {l : Label} {u : UserId} {tr : List (World × Label)}

include hS htext

theorem complete_reply {rpc : RpcCall} {o : Except RpcError Unit} (h : ReplyFits text rpc o) :
    ∀ jv ∈ reply rpc o, Complete S text jv := by
  intro jv hjv
  rw [Session.complete_iff hS]
  cases o with
  | ok _ =>
    obtain ⟨id, hid, rfl⟩ := Option.map_eq_some_iff.mp hjv
    have hsize := h id hid
    rw [size_result htext]
    omega
  | error e =>
    obtain ⟨id, hid, rfl⟩ := Option.map_eq_some_iff.mp hjv
    have hsize := h id hid
    rw [size_error htext]
    omega

/-- The session of a user makes complete messages for a request that fits. -/
theorem admits_complete {s : Own} {rpc : RpcCall} {ec : Option RpcCode}
    (h : FrameFits text s rpc ec) : s.Admits (Complete S text) rpc ec := by
  refine ⟨fun o ho => complete_reply hS htext (h.1 o ho), fun x hx => ?_⟩
  have hsize := h.2 x hx
  unfold SayFits at hsize
  rw [Session.complete_iff hS, size_sayNotice htext]
  omega

theorem frameAdmits (h : RequestFits text w l) : FrameAdmits (Complete S text) u w l := by
  rintro jv rfl
  exact admits_complete hS htext h

theorem complete_notice (r : Remaining) : Complete S text r.notice := by
  rw [Session.complete_iff hS]
  obtain ⟨-, hlt⟩ := r.property
  exact le_trans (size_shutdownNotice_le htext (by omega)) (by decide)

omit htext in
/-- What a session sends while it is processing a request. -/
theorem complete_session {a : Account} {c : Cmd} {jv : Value}
    (hsize : (sizeSpec text IsSay fun jv => ∃ id, IsReply id jv).allow () c)
    (hadmits : (accountSpec (Complete S text) u).allow a c) (hjv : c.value = some jv) :
    Complete S text jv := by
  have hfits : ∀ {jv : Value}, (text jv).utf8ByteSize ≤ 16384 → Complete S text jv :=
    (Session.complete_iff hS).mpr
  cases c with
  | broadcast c jv' =>
    obtain rfl := Option.some.inj hjv
    rcases hsize with hsmall | ⟨c, name, said, hsay⟩
    · exact hfits hsmall
    · exact hadmits c name said hsay
  | trySend v jv' =>
    obtain rfl := Option.some.inj hjv
    rcases hsize with hsmall | ⟨c, name, said, hsay⟩
    · exact hfits hsmall
    · exact hadmits c name said hsay
  | send v jv' =>
    obtain rfl := Option.some.inj hjv
    exact hadmits.2.2
  | _ => cases hjv

/-- What the strand sends. -/
theorem complete_strand {h : Handler} {g : Blackjack.Game} {v : Blackjack.Game × List Reply} {c : Cmd}
    {jv : Value} (hsize : (sizeSpec text (fun _ => False) fun jv => ∃ id, IsReply id jv).allow () c)
    (hanswers : (serialSpec h g).allow v c) (hfits : HandlerFits text g h) (hjv : c.value = some jv) :
    Complete S text jv := by
  have hsmall : ∀ {jv : Value}, (text jv).utf8ByteSize ≤ 16384 → Complete S text jv :=
    (Session.complete_iff hS).mpr
  cases c with
  | broadcast c jv' =>
    obtain rfl := Option.some.inj hjv
    exact hsmall (hsize.resolve_right id)
  | trySend v jv' =>
    obtain rfl := Option.some.inj hjv
    exact hsmall (hsize.resolve_right id)
  | send v jv' =>
    obtain rfl := Option.some.inj hjv
    rcases hsize with hsize | ⟨id, hreply⟩
    · exact hsmall hsize
    · have hmem : (v, jv') ∈ h.replies g :=
        hanswers.2 (by simp [Cmd.replies, (isResponse_of_isReply hreply).1])
      unfold Handler.replies at hmem
      split at hmem
      · rename_i rpc o hrpc ho
        simp only [List.mem_map, Option.mem_toList, Prod.mk.injEq] at hmem
        obtain ⟨jv', hjv', -, rfl⟩ := hmem
        exact complete_reply hS htext (hfits rpc hrpc o ho) jv' hjv'
      · cases hmem
  | _ => cases hjv

/-- What a step of a run whose requests fit sends makes a complete message. -/
theorem sendsComplete (hrun : Run step Booted tr w) (hfits : AllSteps (RequestFits text) tr) :
    SendsComplete S text w l := by
  have hsized : Sized text w := sized htext hrun.reachable.2
  intro jv hsend
  obtain ⟨c, hc, hjv⟩ := Option.bind_eq_some_iff.mp hsend
  unfold operation at hc
  split at hc
  · rename_i u
    have hsize := hsized.session u
    split at hc
    · rename_i c' k hphase
      cases hc
      rw [hphase] at hsize
      have halone : Alone (Complete S text) u tr w :=
        alone_of_admits hrun (hfits.mono fun _ _ => frameAdmits hS htext)
      exact complete_session hS hsize.1 (halone.busy hphase).1 hjv
    · rename_i n k c' k' hphase
      cases hc
      rw [hphase] at hsize
      obtain ⟨hallow, -⟩ := hsize
      rw [Session.complete_iff hS]
      cases c with
      | broadcast c jv' => cases hjv; exact hallow.resolve_right id
      | trySend v jv' => cases hjv; exact hallow.resolve_right id
      | send v jv' => cases hjv; exact hallow.resolve_right id
      | _ => cases hjv
    · cases hc
  · split at hc
    · rename_i h c' k hrunning
      cases hc
      obtain ⟨g, rep, hh, hanswers, -⟩ := answering_run hrun hfits h _ hrunning
      exact complete_strand hS htext (hsized.strand h _ hrunning).1 hanswers hh hjv
    · cases hc
  · cases hc
    cases hjv
    exact complete_notice hS htext _
  · split at hc
    · cases hc
      cases hjv
      exact complete_notice hS htext _
    · cases hc
  · cases hc

theorem allSteps_complete (hrun : Run step Booted tr w) (hfits : AllSteps (RequestFits text) tr) :
    AllSteps (SendsComplete S text) tr := by
  induction hrun with
  | nil h => exact allSteps_nil
  | snoc hrun hs ih =>
    obtain ⟨hbefore, -⟩ := allSteps_snoc.mp hfits
    exact allSteps_snoc.mpr ⟨ih hbefore, sendsComplete hS htext hrun hbefore⟩

end complete

/-! ### Runs -/

section runs
variable {σ : Type} {S : Serializer σ} {text : Value → String} {tr : List (World × Label)} {w t : World}
  {l : Label} {u : UserId}

/-- What is in the mail after a step was there before, or is what the step sends. -/
theorem step_mail (hs : step w l = some t) {jv : Value} (h : jv ∈ t.sh.mail u) :
    jv ∈ w.sh.mail u ∨ sending w l = some jv := by
  cases step_moves hs with
  | sessionOp hphase => exact (act_mail h).imp id fun hc => by simpa [sending, operation, hphase]
  | eraseOp hphase => exact (act_mail h).imp id fun hc => by simpa [sending, operation, hphase]
  | tableOp hrun => exact (act_mail h).imp id fun hc => by simpa [sending, operation, hrun]
  | notify hann => exact (act_mail h).imp id fun hc => by simpa [sending, operation, hann]
  | _ => exact .inl h

/-- When everything that is sent is complete, so is everything that was handed to a session. -/
theorem mail_complete (hrun : Run step Booted tr w) (h : AllSteps (SendsComplete S text) tr) :
    ∀ u, ∀ jv ∈ w.sh.mail u, Complete S text jv := by
  refine (hrun.invariant (I := fun s => ∀ u, ∀ jv ∈ s.sh.mail u, Complete S text jv) ?_ ?_ h).2
  · rintro s ⟨rand, chips, before, rfl⟩ u jv hjv
    cases hjv
  · intro s l t hs hl hst u jv hjv
    rcases step_mail hst hjv with hold | hnew
    · exact hs u jv hold
    · exact hl jv hnew

/-- In every run whose requests fit, each value passed to `channel::send` or `user::send` makes a
complete message; and a session that is sent the messages made of its user's mail writes complete
texts only, and no null message. -/
theorem messages_complete (hS : S.Writes text) (htext : Compact text) (hrun : Run step Booted tr w)
    (hfits : AllSteps (RequestFits text) tr) :
    AllSteps (SendsComplete S text) tr ∧
      ∀ u tr' (s : WsSession Session.Message), Run WsSession.step WsSession.Fresh tr' s →
        AllSteps (fun _ l => ∀ m, l = .send m → ∃ jv ∈ w.sh.mail u, m = makeMessage S jv) tr' →
          ∀ m ∈ s.started, ∃ jv ∈ w.sh.mail u, m.begin = some (utf8 (text jv)) := by
  have hall := allSteps_complete hS htext hrun hfits
  refine ⟨hall, fun u tr' s hsession hsend m hm => ?_⟩
  obtain ⟨jv, hjv, rfl⟩ := Session.sent_of_started hsession hsend m hm
  have hcomplete : makeMessage S jv = ⟨some (utf8 (text jv))⟩ := mail_complete hrun hall u jv hjv
  exact ⟨jv, hjv, congrArg Session.Message.begin hcomplete⟩

end runs

/-! ### Examples -/

section examples
variable (text : Value → String)

instance (rpc : RpcCall) : DecidablePred (ReplyFits text rpc)
  | .ok _ => inferInstanceAs (Decidable (∀ id ∈ rpc.id, _))
  | .error _ => inferInstanceAs (Decidable (∀ id ∈ rpc.id, _))

instance (s : Own) (rpc : RpcCall) (ec : Option RpcCode) : Decidable (FrameFits text s rpc ec) :=
  inferInstanceAs (Decidable ((∀ o ∈ s.outcome rpc ec, ReplyFits text rpc o) ∧
    ∀ x ∈ s.says rpc ec, _ ≤ _))

instance (g : Blackjack.Game) : DecidablePred (HandlerFits text g) := fun h =>
  inferInstanceAs (Decidable (∀ rpc ∈ h.rpc, ∀ o ∈ h.outcome g, ReplyFits text rpc o))

instance (w : World) : DecidablePred (RequestFits text w)
  | .frame u _ => inferInstanceAs (Decidable (FrameFits text (w.sh.own u) _ _))
  | .table => inferInstanceAs (Decidable (∀ h ∈ takes w .table, HandlerFits text w.sh.game h))
  | .connect _ => isTrue trivial
  | .session _ => isTrue trivial
  | .close _ => isTrue trivial
  | .destroy _ => isTrue trivial
  | .announce _ => isTrue trivial
  | .server => isTrue trivial

end examples

/-- Prints the mantissa only; no double is sent in the runs below. -/
def mantissaOnly : NumberFormat := fun m _ => toString m

/-- User 1 sets its identity, joins the table and plays. What is sent is complete, and so is what its
session writes of it. -/
theorem messages_complete_ann :
    ∃ text tr w, Compact text ∧ Run step Booted tr w ∧ AllSteps (RequestFits text) tr ∧
      (∃ x ∈ tr, (sending x.1 x.2).isSome) ∧
      AllSteps (SendsComplete (Session.writer text) text) tr ∧ ∃ jv ∈ w.sh.mail 1, ∃ tr' s,
        Run WsSession.step WsSession.Fresh tr' s ∧ s.started = [makeMessage (Session.writer text) jv] ∧
          (makeMessage (Session.writer text) jv).begin ≠ none := by
  have hrun := run_after annPlays annPlays_runs
  have hwrites := Session.writer_writes (Value.text mantissaOnly)
  have hfits : AllSteps (RequestFits (Value.text mantissaOnly)) (traceOf annPlays annPlays_runs) := by
    decide +kernel
  have hsent : ∃ x ∈ traceOf annPlays annPlays_runs, (sending x.1 x.2).isSome := by
    have hany : ((traceOf annPlays annPlays_runs).any fun x => (sending x.1 x.2).isSome) = true := by
      decide +kernel
    exact List.any_eq_true.mp hany
  obtain ⟨hcomplete, hwritten⟩ := messages_complete hwrites (compact_text mantissaOnly) hrun hfits
  have hmail : (after annPlays annPlays_runs).sh.mail 1 ≠ [] := by
    rw [← List.isEmpty_eq_false_iff]
    decide +kernel
  obtain ⟨jv, hjv⟩ := List.exists_mem_of_ne_nil _ hmail
  let m := makeMessage (Session.writer (Value.text mantissaOnly)) jv
  have hsession : Run WsSession.step WsSession.Fresh _ _ := Run.execute [.send m] (.nil rfl) rfl
  have hsend : ∀ m', WsSession.Label.send m = .send m' → ∃ jv' ∈ (after annPlays annPlays_runs).sh.mail 1,
      m' = makeMessage (Session.writer (Value.text mantissaOnly)) jv' := by
    rintro m' hm
    cases hm
    exact ⟨jv, hjv, rfl⟩
  obtain ⟨jv', -, hbegin⟩ := hwritten 1 _ _ hsession (by simpa [AllSteps] using hsend) _
    (List.mem_singleton_self _)
  have hbegin : m.begin = some (utf8 (Value.text mantissaOnly jv')) := hbegin
  exact ⟨_, _, _, compact_text mantissaOnly, hrun, hfits, hsent, hcomplete, jv, hjv, _, _, hsession, rfl,
    fun hnone => Option.some_ne_none _ (hbegin.symm.trans hnone)⟩

theorem size_replicate {text : Value → String} (htext : Compact text) (n : Nat) :
    (text (.string (String.ofList (List.replicate n 'a')))).utf8ByteSize = n + 2 := by
  have hplain : ∀ c ∈ List.replicate n 'a', (c.isAlphanum || c = ' ' || c = '.') = true := by
    intro c hc
    rw [List.eq_of_mem_replicate hc]
    decide
  refine size_plain htext ⟨?_, ?_⟩
  · rw [isPlain, String.toList_ofList]
    exact List.all_eq_true.mpr hplain
  · have hbyte : ('a' : Char).utf8Size = 1 := by decide
    rw [utf8ByteSize_eq_sum, String.toList_ofList, List.map_replicate, List.sum_replicate_nat, hbyte,
      Nat.mul_one]

/-- An id of 16384 characters. -/
def longId : String := String.ofList (List.replicate 16384 'a')

def longRequest : Value :=
  .object [("jsonrpc", .string "2.0"), ("id", .string longId), ("method", .string "x")]

theorem longReply_runs :
    (execute step [.connect 1, .frame 1 longRequest, .session 1] [] bootZero).isSome := by
  decide +kernel

theorem size_longRequest {text : Value → String} (htext : Compact text) :
    (text longRequest).utf8ByteSize ≤ 64 * 1024 := by
  have hmethodKey : (text (.string "method")).utf8ByteSize = 8 := size_plain htext (by decide)
  have hmethod : (text (.string "x")).utf8ByteSize = 3 := size_plain htext (by decide)
  have hid : (text (.string longId)).utf8ByteSize = 16386 := size_replicate htext 16384
  simp only [longRequest, size_object htext, size_members_cons, size_members_single, size_words htext]
  omega

/-- The request is within the read limit; the reply, which repeats its id, makes a null message. -/
theorem long_id_null_reply :
    ¬∀ (σ : Type) (S : Serializer σ) (text : Value → String), S.Writes text → Compact text →
      ∀ tr w, Run step Booted tr w →
        AllSteps (fun _ l => ∀ u jv, l = .frame u jv → (text jv).utf8ByteSize ≤ 64 * 1024) tr →
          AllSteps (SendsComplete S text) tr := by
  intro hall
  have htext := compact_text mantissaOnly
  have hwrites := Session.writer_writes (Value.text mantissaOnly)
  have htrace : traceOf _ longReply_runs =
      [(bootZero, .connect 1), (bootZero.setPhase 1 .idle, .frame 1 longRequest),
        ((bootZero.setPhase 1 .idle).setPhase 1 (.busy (readFrame 1 longRequest)), .session 1)] := rfl
  have hcomplete := hall _ _ _ hwrites htext _ _ (run_after _ longReply_runs) (by
    rw [htrace]
    intro x hx u jv hl
    simp only [List.mem_cons, List.not_mem_nil, or_false] at hx
    rcases hx with rfl | rfl | rfl
    · cases hl
    · cases hl
      exact size_longRequest htext
    · cases hl)
  rw [htrace] at hcomplete
  have hsending : sending ((bootZero.setPhase 1 .idle).setPhase 1 (.busy (readFrame 1 longRequest)))
      (.session 1) = some ((RpcError.ofMsg "expected object").toJson (some (.string longId))) := rfl
  have hlast := hcomplete _ (List.mem_cons_of_mem _ (List.mem_cons_of_mem _ List.mem_cons_self)) _ hsending
  have hid : (Value.text mantissaOnly (.string longId)).utf8ByteSize = 16386 :=
    size_replicate htext 16384
  have hlong : 16384 < (Value.text mantissaOnly
      ((RpcError.ofMsg "expected object").toJson (some (.string longId)))).utf8ByteSize := by
    rw [size_error htext]
    omega
  rw [Complete, Session.null_of_long hwrites hlong] at hlast
  cases hlast

end BeastLounge.Lounge
