import BeastLounge.Client.Delivery
import BeastLounge.Lounge.Rest

/-!
# When everything has been delivered

The lounge with its write queues comes to rest when nothing arrives from outside and no socket is
closed: the lounge does, and once it has, each step takes a message further towards its page. At
rest the pages of the users who stay connected have received everything, and those of the members
for whom the write queue kept the order show the game as it is.
-/

namespace BeastLounge.Client

open Theory Json Rpc Lounge Session

namespace Wired

/-- The steps that are taken without anything from outside. -/
def Label.own : Label → Prop
  | .lounge l => l.own
  | .close _ => False
  | _ => True

/-! ### The messages under way -/

section queue
variable {M : Type} {x x' : WsSession M}

theorem lengths_doSend (hacc : Accounted x) (m : M) :
    (x.doSend m).mq.length + (x.doSend m).writes.length ≤ x.mq.length + x.writes.length + 2 := by
  unfold WsSession.doSend
  split
  · omega
  · simp only
    split
    · rename_i hone
      rw [List.length_append, List.length_singleton] at hone
      have hnil : x.mq = [] := List.length_eq_zero_iff.mp (by omega)
      have hwrites := writes_doWrite (s := { x with mq := x.mq ++ [m], accepted := x.accepted ++ [m] })
        (hacc.idle hnil) (List.append_ne_nil_of_right_ne_nil _ (List.cons_ne_nil m []))
      rw [hwrites, WsSession.doWrite_mq]
      show (x.mq ++ [m]).length + 1 ≤ _
      rw [List.length_append, List.length_singleton]
      omega
    · show (x.mq ++ [m]).length + x.writes.length ≤ _
      rw [List.length_append, List.length_singleton]
      omega

theorem lengths_complete (hacc : Accounted x) {i : Nat} {failed : Bool}
    (h : x.step (.complete i failed) = some x') :
    x'.mq.length + x'.writes.length < x.mq.length + x.writes.length := by
  have hwrites : 0 < x.writes.length := by
    rcases hacc.writes_cases with hnil | ⟨idx, m, hone, -⟩
    · simp [WsSession.step, hnil] at h
    · simp [hone]
  rcases complete_cases hacc h with ⟨-, -, rfl⟩ | ⟨front, m, more, -, hmq, rfl⟩
  · show x.mq.length + 0 < _
    omega
  · have hlen : (refill front more).length + 1 = x.mq.length := by
      rw [(refill_perm front more).length_eq, hmq]
      simp only [List.length_append, List.length_cons]
      omega
    split
    · rename_i hmore
      rw [WsSession.doWrite_mq, writes_doWrite rfl (by simpa using hmore)]
      show (refill front more).length + 1 < _
      omega
    · show (refill front more).length + 0 < _
      omega

end queue

/-- The user to whose session the operation sends. -/
def recipient : Cmd → Option UserId
  | .trySend u _ => some u
  | .send u _ => some u
  | _ => none

theorem act_mail_of_ne {c : Cmd} {w : Shared} {y : UserId} (h : recipient c ≠ some y) :
    (act c w).2.mail y = w.mail y := by
  have hsend : ∀ {u : UserId} {jv : Value}, recipient c = some u → (w.send u jv).mail y = w.mail y := by
    intro u jv hu
    rw [mail_send, if_neg]
    rintro rfl
    exact h hu
  cases c with
  | trySend u jv =>
    show (if w.expired u then w else w.send u jv).mail y = w.mail y
    split
    · rfl
    · exact hsend rfl
  | send u jv => exact hsend rfl
  | usersInsert c u => rw [act_usersInsert]
  | usersErase c u => rw [act_usersErase]
  | channelsInsert u c => rw [act_channelsInsert]
  | channelsErase u c => rw [act_channelsErase]
  | _ => rfl

/-- Only users in `A` have been sent anything. -/
def MailedIn (A : Finset UserId) (w : Shared) : Prop := ∀ y ∉ A, w.mail y = []

theorem mailed_run {A : Finset UserId} {tr : List (World × Lounge.Label)} {w : World}
    (hrun : Run Lounge.step Booted tr w)
    (hA : ∀ x ∈ tr, ∀ u, (operation x.1 x.2).bind recipient = some u → u ∈ A) : MailedIn A w.sh := by
  have hop : ∀ (c : Cmd) (w : Shared), MailedIn A w → (∀ u, recipient c = some u → u ∈ A) →
      MailedIn A (act c w).2 := by
    intro c w hw hc y hy
    rw [act_mail_of_ne fun hto => hy (hc y hto)]
    exact hw y hy
  induction hrun with
  | nil h =>
    obtain ⟨rand, chips, before, rfl⟩ := h
    exact fun _ _ => rfl
  | @snoc tr s t l hrun hs ih =>
    have hbefore := ih fun x hx => hA x (List.mem_append_left _ hx)
    have hlast := hA (s, l) (List.mem_append_right _ (List.mem_singleton_self _))
    cases Lounge.step_moves hs with
    | @sessionOp u c k hp => exact hop c s.sh hbefore (by simpa [operation, hp] using hlast)
    | @eraseOp u n k c k' hp => exact hop c s.sh hbefore (by simpa [operation, hp] using hlast)
    | @tableOp h c k hr => exact hop c s.sh hbefore (by simpa [operation, hr] using hlast)
    | @notify r u us h =>
      exact hop (.trySend u r.notice) s.sh hbefore (by simpa [operation, h] using hlast)
    | _ => exact hbefore

theorem mailed_finite {w : World} (h : Reachable Lounge.step Booted w) : ∃ A, MailedIn A w.sh := by
  obtain ⟨tr, hrun⟩ := h
  refine ⟨(tr.filterMap fun x => (operation x.1 x.2).bind recipient).toFinset,
    mailed_run hrun fun x hx u hu => ?_⟩
  exact List.mem_toFinset.mpr (List.mem_filterMap.mpr ⟨x, hx, hu⟩)

/-- How far the messages to `y` have still to go. -/
def remaining (s : Wired) (y : UserId) : Nat :=
  3 * (s.posted y).length + ((s.session y).mq.length + (s.session y).writes.length)

section run
variable {tr : List (Wired × Label)} {s t : Wired} {l : Label} {y : UserId}

theorem remaining_of_not_mem {A : Finset UserId} (hrun : Run step Started tr s)
    (hA : MailedIn A s.world.sh) (hy : y ∉ A) : s.remaining y = 0 := by
  have hacc := accounted (session_reachable hrun y)
  have hsent : s.sent y = [] := by
    have hsub := sent_subperm hrun y
    rw [hA y hy] at hsub
    exact List.subperm_nil.mp hsub
  obtain ⟨haccepted, hposted⟩ := List.append_eq_nil_iff.mp hsent
  have hmq : (s.session y).mq = [] := by
    have hperm := hacc.perm
    rw [haccepted] at hperm
    exact (List.append_eq_nil_iff.mp hperm.symm.eq_nil).2
  rw [remaining, hposted, hmq, hacc.idle hmq]
  rfl

/-- A step that is not one of the lounge takes a message of one user further. -/
theorem remaining_step (hrun : Run step Started tr s) (hs : s.step l = some t) (hl : l.own)
    (hmessage : l.inLounge = none) : t.world = s.world ∧
      ∃ u, t.remaining u < s.remaining u ∧ ∀ y, y ≠ u → t.remaining y = s.remaining y := by
  have hone : ∀ u, l.strand = some u → ∀ y, y ≠ u → t.remaining y = s.remaining y := by
    intro u hu y hy
    cases step_moves hs y with
    | lounge => cases hmessage
    | send => exact absurd (Option.some.inj hu) hy
    | write => exact absurd (Option.some.inj hu) hy
    | close => exact absurd (Option.some.inj hu) hy
    | other hposted hsession => rw [remaining, remaining, hposted, hsession]
  cases l with
  | lounge l => cases hmessage
  | close u => exact hl.elim
  | doSend u =>
    cases step_moves hs u with
    | @send _ jv hposted hsession hworld =>
      refine ⟨hworld, u, ?_, hone u rfl⟩
      have hlengths := lengths_doSend (accounted (session_reachable hrun u)) jv
      rw [remaining, remaining, hposted, hsession, List.length_cons]
      omega
    | other _ _ _ _ hne => exact absurd rfl hne
  | onWrite u i failed =>
    cases step_moves hs u with
    | write hposted hsession hworld =>
      refine ⟨hworld, u, ?_, hone u rfl⟩
      have hlengths := lengths_complete (accounted (session_reachable hrun u)) hsession
      rw [remaining, remaining, hposted]
      omega
    | other _ _ _ _ hne => exact absurd rfl hne

/-! ### Coming to rest -/

theorem inLounge_own {l' : Lounge.Label} (hl : l.own) (h : l.inLounge = some l') : l'.own := by
  cases l with
  | lounge l =>
    obtain rfl := Option.some.inj h
    exact hl
  | _ => cases h

theorem comesToRest (h : Reachable step Started s) : ComesToRest step Label.own s := by
  obtain ⟨tr, hrun⟩ := h
  have hlounge := Lounge.comesToRest ⟨_, lounge_run hrun⟩
  refine ComesToRest.of_part Wired.world (Reachable step Started) (fun s l t hs _ hst => hs.after_step hst)
    (fun s hs => ?_) hlounge ⟨tr, hrun⟩ rfl
  obtain ⟨tr, hrun⟩ := hs
  obtain ⟨A, hA⟩ := mailed_finite ⟨_, lounge_run hrun⟩
  refine ⟨fun s => A.sum s.remaining, fun s' l t ⟨tr', hrun'⟩ hworld hl hst => ?_⟩
  cases hin : l.inLounge with
  | some l' =>
    refine .inl ⟨l', inLounge_own hl hin, ?_⟩
    cases step_moves hst 0 with
    | lounge h =>
      obtain rfl := Option.some.inj hin
      exact h
    | other _ _ _ hnone _ => rw [hnone] at hin; cases hin
    | _ => cases hin
  | none =>
    obtain ⟨ht, u, hless, hne⟩ := remaining_step hrun' hst hl hin
    have hmem : u ∈ A := by
      by_contra hu
      rw [remaining_of_not_mem hrun' (hworld ▸ hA) hu] at hless
      exact Nat.not_lt_zero _ hless
    refine .inr ⟨ht, Finset.sum_lt_sum (fun y _ => ?_) ⟨u, hmem, hless⟩⟩
    by_cases hy : y = u
    · exact hy ▸ hless.le
    · exact (hne y hy).le

/-! ### At rest -/

theorem busy_steps {w : World} {p : Act Unit} (hlive : w.terminated = false)
    (hp : w.phase y = .busy p) : Lounge.step w (.session y) ≠ none := by
  simp only [Lounge.step, hlive, Bool.false_eq_true, if_false, sessionStep, hp]
  cases p with
  | _ => exact Option.some_ne_none _

/-- No message is under way, and the lounge is at rest. -/
theorem delivered_at_rest (hrest : AtRest step Label.own s) (hlive : s.world.terminated = false) :
    (∀ y, s.posted y = [] ∧ (s.session y).writes = []) ∧ AtRest Lounge.step Lounge.Label.own s.world := by
  have hidle : ∀ y, s.strandBusy y = false := by
    intro y
    have hsession : (Lounge.step s.world (.session y)).map (s.dispatch (.session y)) = none :=
      hrest (.lounge (.session y)) trivial
    unfold strandBusy
    split
    · rename_i p hp
      exact absurd (Option.map_eq_none_iff.mp hsession) (busy_steps hlive hp)
    · rfl
  have hmessages : ∀ y, s.posted y = [] ∧ (s.session y).writes = [] := by
    intro y
    have hsend := hrest (.doSend y) trivial
    have hwrite := hrest (.onWrite y 0 false) trivial
    simp only [step, hidle y, Bool.false_eq_true, if_false] at hsend hwrite
    constructor
    · split at hsend
      · assumption
      · cases hsend
    · have hnone := Option.map_eq_none_iff.mp hwrite
      simp only [WsSession.step] at hnone
      split at hnone
      · rename_i hwrites
        exact List.length_eq_zero_iff.mp (Nat.le_zero.mp (List.getElem?_eq_none_iff.mp hwrites))
      · cases hnone
  refine ⟨hmessages, fun l hl => ?_⟩
  have htake : s.mayTake l = true := by
    cases l with
    | destroy y => simp [mayTake, holds, hmessages y]
    | _ => rfl
  have hlounge := hrest (.lounge l) hl
  rw [step, htake, if_pos rfl] at hlounge
  exact Option.map_eq_none_iff.mp hlounge

/-- What has been handed to `async_write` has been written or is being written. -/
def Flows (x : WsSession Value) : Prop := x.started = x.written ++ x.writes.map Prod.snd

theorem flows_doWrite {x : WsSession Value} (h : Flows x) : Flows x.doWrite := by
  unfold WsSession.doWrite
  split
  · exact h
  · show x.started ++ _ = x.written ++ List.map _ (_ ++ _)
    rw [h, List.map_append, List.append_assoc]
    rfl

theorem flows_doSend {x : WsSession Value} (h : Flows x) (jv : Value) : Flows (x.doSend jv) := by
  unfold WsSession.doSend
  split
  · exact h
  · simp only
    split
    · exact flows_doWrite h
    · exact h

theorem flows_complete {x x' : WsSession Value} (hacc : Accounted x) (h : Flows x) {i : Nat}
    (hs : x.step (.complete i false) = some x') : Flows x' := by
  rcases hacc.writes_cases with hnil | ⟨idx, m, hone, -⟩
  · simp [WsSession.step, hnil] at hs
  cases i with
  | succ i => simp [WsSession.step, hone] at hs
  | zero =>
    simp only [WsSession.step, hone, List.getElem?_cons_zero, List.eraseIdx_zero, List.tail_cons,
      Bool.false_eq_true, if_false, Option.some.injEq] at hs
    have hflows : ∀ mq, Flows { x with writes := [], written := x.written ++ [m], mq := mq } := by
      intro mq
      show x.started = x.written ++ [m] ++ []
      rw [h, hone, List.append_nil]
      rfl
    have hnext : ∀ mq, Flows (if !mq.isEmpty then WsSession.doWrite
        { x with writes := [], written := x.written ++ [m], mq := mq } else
        { x with writes := [], written := x.written ++ [m], mq := mq }) := by
      intro mq
      split
      · exact flows_doWrite (hflows mq)
      · exact hflows mq
    exact hs ▸ hnext _

/-! ### The sessions of connected users -/

/-- What `do_send` and the successful completions that meet `K` keep holds of the session of a
connected user. -/
theorem session_invariant {I : WsSession Value → Prop} {K : WsSession Value → Nat → Prop} (h0 : I {})
    (hsend : ∀ x jv, Accounted x → I x → I (x.doSend jv))
    (hwrite : ∀ x x' i, Accounted x → I x → K x i → x.step (.complete i false) = some x' → I x')
    (hrun : Run step Started tr s) (hconn : AllSteps (Connected y) tr)
    (hK : AllSteps (fun s l => ∀ i failed, l = .onWrite y i failed → K (s.session y) i) tr) :
    I (s.session y) := by
  have hsends : ∀ (new : List Value) x, Accounted x → I x → I (new.foldl WsSession.doSend x) := by
    intro new
    induction new with
    | nil => exact fun x _ hx => hx
    | cons jv new ih => exact fun x hacc hx => ih _ (accounted_doSend hacc jv) (hsend x jv hacc hx)
  induction hrun with
  | nil h =>
    obtain ⟨w, -, rfl⟩ := h
    exact h0
  | @snoc tr s t l hrun hs ih =>
    obtain ⟨hconn, hl⟩ := allSteps_snoc.mp hconn
    obtain ⟨hK, hkeep⟩ := allSteps_snoc.mp hK
    have hbefore := ih hconn hK
    have hacc := accounted (session_reachable hrun y)
    cases step_moves hs y with
    | @lounge l v h =>
      show I (if inline y l then _ else _)
      split
      · exact hsends _ _ hacc hbefore
      · exact hbefore
    | @send _ jv hposted hsession =>
      rw [hsession]
      exact hsend _ jv hacc hbefore
    | @write _ i failed hposted hsession =>
      obtain rfl : failed = false := hl rfl
      exact hwrite _ _ i hacc hbefore (hkeep i false rfl) hsession
    | close => exact absurd rfl hl
    | other hposted hsession =>
      rw [hsession]
      exact hbefore

/-- The queue of a connected user is being written whenever it is not empty. -/
theorem attended_run (hrun : Run step Started tr s) (hconn : AllSteps (Connected y) tr) :
    Attended (s.session y) := by
  refine session_invariant (K := fun _ _ => True) (fun _ hmq => absurd rfl hmq) ?_ ?_ hrun hconn
    fun _ _ _ _ _ => trivial
  · exact fun x jv hacc hx => attended_doSend hacc hx jv
  · intro x x' i hacc hx _ hs
    exact attended_step (l := .complete i false) hacc hx (fun h => absurd h Bool.false_ne_true) hs

/-- Where the write queue kept the order, and nothing is left in it, all that was accepted has been
written in that order. -/
theorem written_in_order (hrun : Run step Started tr s) (hconn : AllSteps (Connected y) tr)
    (horder : AllSteps (InOrder y) tr) (hidle : (s.session y).writes = []) :
    (s.session y).written = (s.session y).accepted := by
  have hall : Ordered (s.session y) ∧ Flows (s.session y) := by
    refine session_invariant (I := fun x => Ordered x ∧ Flows x)
      (K := fun x i => KeepsOrder x (.complete i false)) ⟨ordered_fresh rfl, rfl⟩ ?_ ?_ hrun hconn ?_
    · exact fun x jv _ hx => ⟨ordered_doSend hx.1 jv, flows_doSend hx.2 jv⟩
    · exact fun x x' i hacc hx hkeep hs =>
        ⟨ordered_step (l := .complete i false) hx.1 rfl hkeep hs, flows_complete hacc hx.2 hs⟩
    · intro x hx i failed hl
      have hkeep := horder x hx
      rw [hl] at hkeep
      exact hkeep rfl
  obtain ⟨⟨-, -, haccepted⟩ | ⟨front, m, more, hflight⟩, hflows⟩ := hall
  · rw [haccepted, hflows, hidle, List.map_nil, List.append_nil]
  · rw [hflight.writes] at hidle
    cases hidle

end run

section runs
variable (num : Number → String) {tr : List (Wired × Label)} {s : Wired}

/-- If nothing arrives and no socket is closed, the lounge and its write queues come to rest: they
cannot go on for ever, and they can go on until the program has ended, or the table's strand has
served all handlers, a shutdown that was being announced has been, everyone is either being waited for
or gone, and no message is posted or being written. -/
theorem delivery_comes_to_rest (hrun : Run step Started tr s) :
    (¬∃ σ ls, σ 0 = s ∧ Endless step σ ls ∧ ∀ i, (ls i).own) ∧
      ∃ tr' t, Run step Started (tr ++ tr') t ∧ AllSteps (fun _ l => l.own) tr' ∧
        (t.world.terminated = true ∨
          (t.world.sh.queue = [] ∧ t.world.running = none ∧ t.world.announcing = none ∧
            ∀ u, (t.world.phase u).still) ∧ ∀ y, t.posted y = [] ∧ (t.session y).writes = []) := by
  have hrest := comesToRest ⟨tr, hrun⟩
  obtain ⟨tr', t, hrun', hown, ht⟩ := hrest.exists_rest hrun
  refine ⟨hrest.not_endless, tr', t, hrun', hown, ?_⟩
  by_cases hdone : t.world.terminated = true
  · exact .inl hdone
  · obtain ⟨hmessages, hlounge⟩ := delivered_at_rest ht (by simpa using hdone)
    exact .inr ⟨(atRest_iff.mp hlounge).resolve_left hdone, hmessages⟩

/-- At rest, unless the program has ended: the page of a user whose socket stayed open, and whose
writes succeeded, has received all messages sent to it, each as often as it was sent. If it is a
member of the table for whom the write queue kept the order, it shows the game as it is, with the
names that the users have. -/
theorem pages_at_rest (hrun : Run step Started tr s) (hrest : AtRest step Label.own s)
    (hlive : s.world.terminated = false) {y : UserId} (hconn : AllSteps (Connected y) tr) :
    (s.session y).written.Perm (s.world.sh.mail y) ∧
      (AllSteps NamesGiven (loungeSteps tr) →
        AllSteps (fun s l => playByMember s l) (loungeSteps tr) →
        y ∈ s.world.sh.users table → AllSteps (InOrder y) tr →
          (received num (s.session y).written).message = stateMessage s.world.sh.game.s ∧
          (received num (s.session y).written).seats = s.world.sh.game.seats.mapIdx fun i s' =>
            seatLine num i s' (s'.user.elim "" s.world.sh.name)) := by
  obtain ⟨hmessages, hlounge⟩ := delivered_at_rest hrest hlive
  obtain ⟨hposted, hidle⟩ := hmessages y
  have hpassed := passed hrun hconn
  have hmq : (s.session y).mq = [] := by
    by_contra hne
    have hwrites := attended_run hrun hconn hpassed.isOpen hne
    rw [hidle] at hwrites
    cases hwrites
  have hperm : (s.session y).written.Perm (s.world.sh.mail y) := by
    have hacc := (accounted (session_reachable hrun y)).perm
    rw [hmq, List.append_nil] at hacc
    have hsent := hpassed.perm
    rw [sent, hposted, List.append_nil] at hsent
    exact hacc.symm.trans hsent
  refine ⟨hperm, fun hgiven hplay hy horder => ?_⟩
  obtain ⟨hq, hrunning, -, hstill⟩ := (atRest_iff.mp hlounge).resolve_left (by simp [hlive])
  have hrun' := lounge_run hrun
  have hnewest : lastUpdate (s.session y).written = lastUpdate (s.world.sh.mail y) := by
    have hupdates := hpassed.updates
    rw [sent, hposted, List.append_nil] at hupdates
    rw [lastUpdate, lastUpdate, written_in_order hrun hconn horder hidle, hupdates]
  exact shows_game num hrun' hgiven hplay (sees_at_rest hrun' hq hrunning hstill hy)
    (fun jv hjv => hperm.subset hjv) hnewest

end runs

/-! ### An example -/

/-- User 1 has asked to play, and the strand has begun to. -/
def annWaits : List Label := annAsks.map .lounge

theorem annWaits_runs : (execute step annWaits [] { world := bootZero }).isSome := by decide +kernel

theorem delivery_comes_to_rest_ann : ∃ tr s, Run step Started tr s ∧ s.world.running.isSome ∧
    ∃ tr' t, Run step Started (tr ++ tr') t ∧ AllSteps (fun _ l => l.own) tr' ∧
      (t.world.terminated = true ∨
        (t.world.sh.queue = [] ∧ t.world.running = none ∧ t.world.announcing = none ∧
          ∀ u, (t.world.phase u).still) ∧ ∀ y, t.posted y = [] ∧ (t.session y).writes = []) := by
  have hrun := Run.ofIsSome Started ⟨_, booted_bootZero, rfl⟩ annWaits_runs
  exact ⟨_, _, hrun, by decide +kernel, (delivery_comes_to_rest hrun).2⟩

theorem annReads_plays {x : World × Lounge.Label} (hx : x ∈ loungeSteps annTrace) : x.2 ∈ annPlays := by
  obtain ⟨⟨s, l⟩, hmem, heq⟩ := List.mem_filterMap.mp hx
  obtain ⟨l', hl', rfl⟩ := Option.map_eq_some_iff.mp heq
  have hl := annReads_mem hmem
  cases l with
  | lounge l =>
    obtain rfl := Option.some.inj hl'
    simp only [annReads, List.mem_append, List.mem_map, List.mem_cons, List.not_mem_nil, or_false,
      Label.lounge.injEq, exists_eq_right, reduceCtorEq] at hl
    rcases hl with (h | h) | h
    · exact List.mem_of_mem_take h
    · exact List.mem_of_mem_drop (List.mem_of_mem_take h)
    · exact List.mem_of_mem_drop h
  | _ => cases hl'

theorem annRead_at_rest : AtRest step Label.own annRead := by
  have hrun := lounge_run annReads_run
  have hstill : ∀ u, (annRead.world.phase u).still := by
    intro u
    by_cases hu : u = 1
    · subst hu
      exact still_of_idle (by decide +kernel)
    · have hw := bounded_run hrun fun x hx v hv =>
        annPlays_connect (hv ▸ annReads_plays hx)
      rw [hw.absent u (by simpa using hu)]
      trivial
  have hlounge : AtRest Lounge.step Lounge.Label.own annRead.world :=
    atRest_iff.mpr (.inr ⟨List.isEmpty_iff.mp (by decide +kernel),
      Option.isNone_iff_eq_none.mp (by decide +kernel), Option.isNone_iff_eq_none.mp (by decide +kernel),
      hstill⟩)
  have hmailed : MailedIn {1} annRead.world.sh := by
    have hall : ((loungeSteps annTrace).all fun x =>
        ((operation x.1 x.2).bind recipient).all (· = 1)) = true := by decide +kernel
    refine mailed_run hrun fun x hx u hu => ?_
    have hx := List.all_eq_true.mp hall x hx
    rw [hu] at hx
    simpa using hx
  have hnone : ∀ y, annRead.remaining y = 0 := by
    intro y
    by_cases hy : y = 1
    · subst hy
      decide +kernel
    · exact remaining_of_not_mem annReads_run hmailed (by simpa using hy)
  have hempty : ∀ y, annRead.posted y = [] ∧ (annRead.session y).writes = [] := by
    intro y
    have hy := hnone y
    unfold remaining at hy
    exact ⟨List.length_eq_zero_iff.mp (by omega), List.length_eq_zero_iff.mp (by omega)⟩
  intro l hl
  cases l with
  | lounge l => simp only [step, hlounge l hl, Option.map_none, ite_self]
  | doSend y => simp only [step, (hempty y).1, ite_self]
  | onWrite y i failed => simp [step, WsSession.step, (hempty y).2]
  | close y => exact hl.elim

/-- User 1 has read everything, and its page shows it at the table. -/
theorem pages_at_rest_ann : ∃ tr s, Run step Started tr s ∧
    (s.session 1).written.Perm (s.world.sh.mail 1) ∧
    (received decimal (s.session 1).written).message = "Waiting for players" ∧
    (received decimal (s.session 1).written).seats = ["[0] (Dealer)", "[1] ann Bet $0", "[2] (Open)",
      "[3] (Open)", "[4] (Open)", "[5] (Open)"] := by
  have hlive : annRead.world.terminated = false := by decide +kernel
  have hmember : 1 ∈ annRead.world.sh.users table := by decide +kernel
  have hgiven : AllSteps NamesGiven (loungeSteps annTrace) :=
    fun x hx => annPlays_given (annReads_plays hx) x.1
  have hplay : AllSteps (fun s l => playByMember s l) (loungeSteps annTrace) := by decide +kernel
  have horder : AllSteps (InOrder 1) annTrace := by
    have hall : (annTrace.all fun x => (x.1.session 1).mq.length ≤ 3 ∧
        (x.1.session 1).writes.all (·.1 = 0)) = true := by decide +kernel
    intro x hx
    have hx : (x.1.session 1).mq.length ≤ 3 ∧ (x.1.session 1).writes.all (·.1 = 0) = true := by
      simpa using List.all_eq_true.mp hall x hx
    unfold InOrder
    split
    · rintro rfl w hw
      exact .inr ⟨by simpa using List.all_eq_true.mp hx.2 w (List.mem_of_getElem? hw), hx.1⟩
    · trivial
  have hmessage : stateMessage annRead.world.sh.game.s = "Waiting for players" := by decide +kernel
  have hlines : (annRead.world.sh.game.seats.mapIdx fun i s =>
      seatLine decimal i s (s.user.elim "" annRead.world.sh.name)) =
      ["[0] (Dealer)", "[1] ann Bet $0", "[2] (Open)", "[3] (Open)", "[4] (Open)", "[5] (Open)"] := by
    decide +kernel
  obtain ⟨hperm, hpage⟩ := pages_at_rest decimal annReads_run annRead_at_rest hlive annReads_connected
  obtain ⟨hmsg, hseats⟩ := hpage hgiven hplay hmember horder
  exact ⟨_, _, annReads_run, hperm, hmsg.trans hmessage, hseats.trans hlines⟩

end Wired

end BeastLounge.Client
