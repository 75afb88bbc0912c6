import BeastLounge.Client.Screens
import BeastLounge.Session.Drain
import BeastLounge.Session.Fifo

/-!
# From the server to the page

`user::send` dispatches `do_send` to the strand of the session: what a session sends to its own user
is queued at once, and what the table, the server and other sessions send is posted and runs when the
strand is free. The write queue then hands the messages to the page, in its own order.

Here the lounge runs together with the strands and the write queues of its users. A connected user
receives all it is sent, each message once. A session's own messages may overtake those posted to
it, but these are no updates: so where the write queue keeps the order, the page ends with the last
update.
-/

namespace BeastLounge.Client

open Theory Json Rpc Lounge Session

/-- The lounge with the way of the messages to the pages. -/
structure Wired where
  world : World
  /-- The calls of `do_send` that are posted to the strand of a session. -/
  posted : UserId → List Value := fun _ => []
  session : UserId → WsSession Value := fun _ => {}

namespace Wired

inductive Label
  | lounge (l : Lounge.Label)
  /-- The next call of `do_send` posted to the strand of `y` runs. -/
  | doSend (y : UserId)
  /-- The outstanding write of the session of `y` completes. -/
  | onWrite (y : UserId) (i : Nat) (failed : Bool)
  /-- The socket of `y` is closed. -/
  | close (y : UserId)

/-- The step is one of the session's own, on its strand. -/
def inline (y : UserId) : Lounge.Label → Bool
  | .session u => u = y
  | _ => false

/-- The strand of the session is in the middle of a handler. -/
def strandBusy (s : Wired) (y : UserId) : Bool :=
  match s.world.phase y with
  | .busy _ => true
  | _ => false

/-- The handlers that are posted or wait for a write hold a `shared_ptr` to the session. -/
def holds (s : Wired) (y : UserId) : Bool := !(s.posted y).isEmpty || !(s.session y).writes.isEmpty

def mayTake (s : Wired) : Lounge.Label → Bool
  | .destroy y => !s.holds y
  | _ => true

/-- What a step of the lounge has passed to the session of `y`. -/
def arrivals (w t : World) (y : UserId) : List Value := (t.sh.mail y).drop (w.sh.mail y).length

/-- The lounge has gone on to `t`, and what it sends is dispatched. -/
def dispatch (s : Wired) (l : Lounge.Label) (t : World) : Wired where
  world := t
  posted y := if inline y l then s.posted y else s.posted y ++ arrivals s.world t y
  session y :=
    if inline y l then (arrivals s.world t y).foldl WsSession.doSend (s.session y) else s.session y

def setSession (s : Wired) (y : UserId) (x : WsSession Value) : Wired :=
  { s with session := Function.update s.session y x }

def step (s : Wired) : Label → Option Wired
  | .lounge l => if s.mayTake l then (Lounge.step s.world l).map (s.dispatch l) else none
  | .doSend y =>
    if s.strandBusy y then none
    else
      match s.posted y with
      | [] => none
      | jv :: rest =>
        some ({ s with posted := Function.update s.posted y rest }.setSession y
          ((s.session y).doSend jv))
  | .onWrite y i failed =>
    if s.strandBusy y then none
    else ((s.session y).step (.complete i failed)).map (s.setSession y)
  | .close y => ((s.session y).step .close).map (s.setSession y)

def Started (s : Wired) : Prop := ∃ w, Booted w ∧ s = { world := w }

/-- The step of the lounge. -/
def Label.inLounge : Label → Option Lounge.Label
  | .lounge l => some l
  | _ => none

/-- The session whose strand or socket the step is about. -/
def Label.strand : Label → Option UserId
  | .lounge _ => none
  | .doSend y => some y
  | .onWrite y _ _ => some y
  | .close y => some y

/-- The run of the lounge in a run of the system. -/
def loungeSteps (tr : List (Wired × Label)) : List (World × Lounge.Label) :=
  tr.filterMap fun x => x.2.inLounge.map (x.1.world, ·)

/-- The socket of `y` stays open, and its writes succeed. -/
def Connected (y : UserId) (_ : Wired) : Label → Prop
  | .onWrite u _ failed => u = y → failed = false
  | .close u => u ≠ y
  | _ => True

/-- The writes of `y` complete while the write queue keeps the order. -/
def InOrder (y : UserId) (s : Wired) : Label → Prop
  | .onWrite u i failed => u = y → KeepsOrder (s.session y) (.complete i failed)
  | _ => True

/-- What `do_send` has accepted from the session and what is posted to it, in this order. -/
def sent (s : Wired) (y : UserId) : List Value := (s.session y).accepted ++ s.posted y

/-! ### One step -/

/-- The steps of the system, as the session of `y` sees them. -/
inductive Moves (s : Wired) (y : UserId) : Label → Wired → Prop
  | lounge {l : Lounge.Label} {t : World} (h : Lounge.step s.world l = some t) :
      Moves s y (.lounge l) (s.dispatch l t)
  | send {t : Wired} {jv : Value} (hposted : s.posted y = jv :: t.posted y)
      (hsession : t.session y = (s.session y).doSend jv) (hworld : t.world = s.world) :
      Moves s y (.doSend y) t
  | write {t : Wired} {i : Nat} {failed : Bool} (hposted : t.posted y = s.posted y)
      (hsession : (s.session y).step (.complete i failed) = some (t.session y))
      (hworld : t.world = s.world) : Moves s y (.onWrite y i failed) t
  | close {t : Wired} (hposted : t.posted y = s.posted y)
      (hsession : t.session y = { s.session y with isOpen := false }) (hworld : t.world = s.world) :
      Moves s y (.close y) t
  | other {l : Label} {t : Wired} (hposted : t.posted y = s.posted y)
      (hsession : t.session y = s.session y) (hworld : t.world = s.world) (hl : l.inLounge = none)
      (hne : l.strand ≠ some y) : Moves s y l t

section step
variable {s t : Wired} {l : Label} {y u : UserId}

theorem setSession_self (x : WsSession Value) : (s.setSession y x).session y = x :=
  Function.update_self ..

theorem setSession_ne (x : WsSession Value) (hy : y ≠ u) :
    (s.setSession u x).session y = s.session y :=
  Function.update_of_ne hy ..

theorem step_moves (h : s.step l = some t) (y : UserId) : Moves s y l t := by
  have hne : ∀ {u}, y ≠ u → some u ≠ some y := fun hy hu => hy (Option.some.inj hu).symm
  cases l with
  | lounge l =>
    simp only [step, Option.ite_none_right_eq_some, Option.map_eq_some_iff] at h
    obtain ⟨-, w, hw, rfl⟩ := h
    exact .lounge hw
  | doSend u =>
    simp only [step, Option.ite_none_left_eq_some] at h
    obtain ⟨-, h⟩ := h
    split at h
    · contradiction
    · rename_i jv rest hposted
      obtain rfl := Option.some.inj h
      by_cases hy : y = u
      · subst hy
        have hsplit : s.posted y = jv :: Function.update s.posted y rest y := by
          rw [hposted, Function.update_self]
        exact .send hsplit (setSession_self _) rfl
      · exact .other (Function.update_of_ne hy ..) (setSession_ne _ hy) rfl rfl (hne hy)
  | onWrite u i failed =>
    simp only [step, Option.ite_none_left_eq_some, Option.map_eq_some_iff] at h
    obtain ⟨-, x, hx, rfl⟩ := h
    by_cases hy : y = u
    · subst hy
      exact .write rfl (by rw [hx, setSession_self]) rfl
    · exact .other rfl (setSession_ne _ hy) rfl rfl (hne hy)
  | close u =>
    simp only [step, Option.map_eq_some_iff] at h
    obtain ⟨x, hx, rfl⟩ := h
    by_cases hy : y = u
    · subst hy
      obtain rfl := Option.some.inj hx
      exact .close rfl (setSession_self _) rfl
    · exact .other rfl (setSession_ne _ hy) rfl rfl (hne hy)

/-- An operation sends at most one message, which is the one it is called with. -/
theorem act_mail_grows (c : Cmd) (w : Shared) (y : UserId) :
    ∃ new, (act c w).2.mail y = w.mail y ++ new ∧ (speakSpec.allow () c → ∀ jv ∈ new, Spoken jv) := by
  have hsend : ∀ u jv, ∃ new, (w.send u jv).mail y = w.mail y ++ new ∧
      (Spoken jv → ∀ jv' ∈ new, Spoken jv') := by
    intro u jv
    rw [mail_send]
    split
    · refine ⟨[jv], rfl, fun hjv jv' hmem => ?_⟩
      rwa [List.mem_singleton.mp hmem]
    · exact ⟨[], (List.append_nil _).symm, fun _ _ hmem => absurd hmem List.not_mem_nil⟩
  have hsame : ∀ {t : Shared}, t.mail = w.mail → ∃ new, t.mail y = w.mail y ++ new ∧
      (speakSpec.allow () c → ∀ jv ∈ new, Spoken jv) :=
    fun ht => ⟨[], by rw [ht, List.append_nil], fun _ _ hmem => absurd hmem List.not_mem_nil⟩
  cases c with
  | trySend u jv =>
    show ∃ new, (if w.expired u then w else w.send u jv).mail y = _ ∧ _
    split
    · exact hsame rfl
    · exact hsend u jv
  | send u jv => exact hsend u jv
  | usersInsert c u => exact hsame (by rw [act_usersInsert])
  | usersErase c u => exact hsame (by rw [act_usersErase])
  | channelsInsert u c => exact hsame (by rw [act_channelsInsert])
  | channelsErase u c => exact hsame (by rw [act_channelsErase])
  | _ => exact hsame rfl

/-- A step of the lounge adds to the mail, and no update while a session runs. -/
theorem step_mail_grows {w v : World} {l : Lounge.Label} (hw : ∀ u, SessionSpeaks (w.phase u))
    (hs : Lounge.step w l = some v) (y : UserId) : ∃ new, v.sh.mail y = w.sh.mail y ++ new ∧
      (inline y l = true → ∀ jv ∈ new, Spoken jv) := by
  have hnone : w.sh.mail y = v.sh.mail y → ∃ new, v.sh.mail y = w.sh.mail y ++ new ∧
      (inline y l = true → ∀ jv ∈ new, Spoken jv) :=
    fun h => ⟨[], by rw [h, List.append_nil], fun _ _ hmem => absurd hmem List.not_mem_nil⟩
  cases Lounge.step_moves hs with
  | @sessionOp u c k hp =>
    obtain ⟨new, hnew, hspoken⟩ := act_mail_grows c w.sh y
    have hperf : Performs (w.phase u) c fun r => .busy (k r) := hp ▸ .busy
    exact ⟨new, hnew, fun _ => hspoken ((hw u).perform hperf).1⟩
  | @eraseOp u n k c k' hp =>
    obtain ⟨new, hnew, hspoken⟩ := act_mail_grows c w.sh y
    have hperf : Performs (w.phase u) c fun r => .erasing n k (k' r) := hp ▸ .erasing
    exact ⟨new, hnew, fun _ => hspoken ((hw u).perform hperf).1⟩
  | @tableOp h c k hrun =>
    obtain ⟨new, hnew, -⟩ := act_mail_grows c w.sh y
    exact ⟨new, hnew, fun hinline => Bool.noConfusion hinline⟩
  | @notify r u us h =>
    obtain ⟨new, hnew, -⟩ := act_mail_grows (.trySend u r.notice) w.sh y
    exact ⟨new, hnew, fun hinline => Bool.noConfusion hinline⟩
  | _ => exact hnone rfl

theorem arrivals_eq {w v : World} {new : List Value} (h : v.sh.mail y = w.sh.mail y ++ new) :
    arrivals w v y = new := by
  rw [arrivals, h, List.drop_left]

/-! ### The calls of `do_send` -/

theorem doWrite_isOpen (x : WsSession Value) : x.doWrite.isOpen = x.isOpen := by
  unfold WsSession.doWrite
  split <;> rfl

theorem doSend_isOpen (x : WsSession Value) (jv : Value) : (x.doSend jv).isOpen = x.isOpen := by
  unfold WsSession.doSend
  split
  · rfl
  · simp only
    split
    · exact doWrite_isOpen _
    · rfl

theorem onWrite_frame {x x' : WsSession Value} {i : Nat} {failed : Bool}
    (h : x.step (.complete i failed) = some x') : x'.isOpen = x.isOpen ∧ x'.accepted = x.accepted := by
  simp only [WsSession.step] at h
  split at h
  · contradiction
  · rw [← Option.some.inj h]
    refine ⟨?_, WsSession.onWrite_accepted ..⟩
    unfold WsSession.onWrite
    simp only
    split_ifs
    · rfl
    all_goals first | rfl | exact doWrite_isOpen _

theorem foldl_doSend_open (new : List Value) (x : WsSession Value) :
    (new.foldl WsSession.doSend x).isOpen = x.isOpen ∧ (new.foldl WsSession.doSend x).accepted =
      if x.isOpen then x.accepted ++ new else x.accepted := by
  induction new generalizing x with
  | nil => simp
  | cons jv new ih =>
    rw [List.foldl_cons, (ih _).1, (ih _).2, doSend_isOpen, WsSession.doSend_accepted]
    refine ⟨rfl, ?_⟩
    split
    · rw [List.append_assoc]
      rfl
    · rfl

/-! ### What a session has been sent -/

/-- What a step adds to the mail of `y` is sent to its session. While the socket is open all of it
arrives, and the updates arrive in their order. -/
theorem sent_step (hw : ∀ u, SessionSpeaks (s.world.phase u)) (hs : s.step l = some t) (y : UserId) :
    ∃ new, t.world.sh.mail y = s.world.sh.mail y ++ new ∧ (t.sent y).Subperm (s.sent y ++ new) ∧
      ((s.session y).isOpen = true → (t.sent y).Perm (s.sent y ++ new) ∧
        (t.sent y).filter isUpdate = (s.sent y ++ new).filter isUpdate) := by
  have hquiet : t.world = s.world → t.sent y = s.sent y →
      ∃ new, t.world.sh.mail y = s.world.sh.mail y ++ new ∧ (t.sent y).Subperm (s.sent y ++ new) ∧
      ((s.session y).isOpen = true → (t.sent y).Perm (s.sent y ++ new) ∧
        (t.sent y).filter isUpdate = (s.sent y ++ new).filter isUpdate) := by
    intro hworld hsent
    refine ⟨[], by rw [hworld, List.append_nil], ?_⟩
    rw [hsent, List.append_nil]
    exact ⟨List.Subperm.refl _, fun _ => ⟨.refl _, rfl⟩⟩
  cases step_moves hs y with
  | @lounge l v h =>
    obtain ⟨new, hnew, hspoken⟩ := step_mail_grows hw h y
    refine ⟨new, hnew, ?_⟩
    have hsent : (s.dispatch l v).sent y = if inline y l then
        (new.foldl WsSession.doSend (s.session y)).accepted ++ s.posted y
        else (s.session y).accepted ++ (s.posted y ++ new) := by
      simp only [sent, dispatch, arrivals_eq hnew]
      split <;> rfl
    rw [hsent, sent, List.append_assoc]
    split
    · rename_i hinline
      rw [(foldl_doSend_open new _).2]
      split
      · -- they overtake what is posted
        have hperm : ((s.session y).accepted ++ new ++ s.posted y).Perm
            ((s.session y).accepted ++ (s.posted y ++ new)) := by
          rw [List.append_assoc]
          exact List.perm_append_comm.append_left _
        refine ⟨hperm.subperm, fun _ => ⟨hperm, ?_⟩⟩
        have hnone : new.filter isUpdate = [] :=
          List.filter_eq_nil_iff.mpr fun jv hjv => by rw [(hspoken hinline jv hjv).isUpdate]; simp
        simp only [List.filter_append, hnone, List.append_nil]
      · rename_i hclosed
        refine ⟨List.Sublist.subperm ?_, fun hopen => absurd hopen hclosed⟩
        rw [← List.append_assoc]
        exact List.sublist_append_left ..
    · exact ⟨.refl _, fun _ => ⟨.refl _, rfl⟩⟩
  | @send _ jv hposted hsession hworld =>
    refine ⟨[], by rw [hworld, List.append_nil], ?_⟩
    rw [List.append_nil, sent, sent, hsession, hposted, WsSession.doSend_accepted]
    split
    · rw [List.append_assoc]
      exact ⟨.refl _, fun _ => ⟨.refl _, rfl⟩⟩
    · rename_i hclosed
      refine ⟨List.Sublist.subperm ?_, fun hopen => absurd hopen hclosed⟩
      exact (List.sublist_cons_self ..).append_left _
  | write hposted hsession hworld =>
    exact hquiet hworld (by rw [sent, sent, hposted, (onWrite_frame hsession).2])
  | close hposted hsession hworld => exact hquiet hworld (by rw [sent, sent, hposted, hsession])
  | other hposted hsession hworld => exact hquiet hworld (by rw [sent, sent, hposted, hsession])

/-- All that the server has sent to `y` has been accepted by its session or is posted to it. -/
structure Passed (y : UserId) (s : Wired) : Prop where
  isOpen : (s.session y).isOpen = true
  perm : (s.sent y).Perm (s.world.sh.mail y)
  updates : (s.sent y).filter isUpdate = (s.world.sh.mail y).filter isUpdate

theorem connected_isOpen (hs : s.step l = some t) (hl : Connected y s l)
    (hopen : (s.session y).isOpen = true) : (t.session y).isOpen = true := by
  cases step_moves hs y with
  | @lounge l v h =>
    show (if inline y l then (arrivals s.world v y).foldl WsSession.doSend (s.session y)
      else s.session y).isOpen = true
    split
    · rw [(foldl_doSend_open _ _).1, hopen]
    · exact hopen
  | send hposted hsession => rw [hsession, doSend_isOpen, hopen]
  | write hposted hsession => rw [(onWrite_frame hsession).1, hopen]
  | close => exact absurd rfl hl
  | other hposted hsession => rw [hsession, hopen]

theorem passed_step (hw : ∀ u, SessionSpeaks (s.world.phase u)) (h : Passed y s)
    (hl : Connected y s l) (hs : s.step l = some t) : Passed y t := by
  obtain ⟨new, hnew, -, hsent⟩ := sent_step hw hs y
  obtain ⟨hperm, hupdates⟩ := hsent h.isOpen
  refine ⟨connected_isOpen hs hl h.isOpen, ?_, ?_⟩
  · rw [hnew]
    exact hperm.trans (h.perm.append_right new)
  · rw [hnew, hupdates, List.filter_append, List.filter_append, h.updates]

end step

/-! ### Runs -/

section run
variable {tr : List (Wired × Label)} {s : Wired} {y : UserId}

theorem lounge_run (hrun : Run step Started tr s) :
    Run Lounge.step Booted (loungeSteps tr) s.world := by
  refine hrun.project Wired.world Label.inLounge (fun s hs => ?_) (fun s l l' t hs hl => ?_)
    fun s l t hs hl => ?_
  · obtain ⟨w, hw, rfl⟩ := hs
    exact hw
  · cases step_moves hs 0 with
    | lounge h =>
      obtain rfl := Option.some.inj hl
      exact h
    | send => cases hl
    | write => cases hl
    | close => cases hl
    | other _ _ _ hnone _ => rw [hnone] at hl; cases hl
  · cases step_moves hs 0 with
    | lounge h => cases hl
    | send _ _ hworld => exact hworld
    | write _ _ hworld => exact hworld
    | close _ _ hworld => exact hworld
    | other _ _ hworld => exact hworld

theorem speaks_run (hrun : Run step Started tr s) (u : UserId) : SessionSpeaks (s.world.phase u) := by
  have hdraws : Draws (fun _ _ => True) (showing (loungeSteps tr)) s.world :=
    draws (lounge_run hrun) ⟨fun _ _ _ _ => trivial, fun _ _ => trivial⟩ fun _ _ _ _ _ _ => trivial
  exact hdraws.session u

theorem reachable_doSends {x : WsSession Value} (new : List Value)
    (hx : Reachable WsSession.step WsSession.Fresh x) :
    Reachable WsSession.step WsSession.Fresh (new.foldl WsSession.doSend x) := by
  induction new generalizing x with
  | nil => exact hx
  | cons jv new ih => exact ih (hx.after_step (l := .send jv) rfl)

/-- The session of a user runs as the write queue does alone. -/
theorem session_reachable (hrun : Run step Started tr s) (y : UserId) :
    Reachable WsSession.step WsSession.Fresh (s.session y) := by
  induction hrun with
  | nil h =>
    obtain ⟨w, -, rfl⟩ := h
    exact .of_init rfl
  | @snoc tr s t l hrun hs ih =>
    cases step_moves hs y with
    | @lounge l v h =>
      show Reachable _ _ (if inline y l then _ else _)
      split
      · exact reachable_doSends _ ih
      · exact ih
    | @send _ jv hposted hsession =>
      rw [hsession]
      exact ih.after_step (l := .send jv) rfl
    | write hposted hsession => exact ih.after_step hsession
    | close hposted hsession =>
      rw [hsession]
      exact ih.after_step (l := .close) rfl
    | other hposted hsession =>
      rw [hsession]
      exact ih

theorem sent_subperm (hrun : Run step Started tr s) (y : UserId) :
    (s.sent y).Subperm (s.world.sh.mail y) := by
  induction hrun with
  | nil h =>
    obtain ⟨w, -, rfl⟩ := h
    exact List.nil_subperm
  | @snoc tr s t l hrun hs ih =>
    obtain ⟨new, hnew, hsub, -⟩ := sent_step (speaks_run hrun) hs y
    rw [hnew]
    exact hsub.trans ((List.subperm_append_right new).mpr ih)

theorem passed (hrun : Run step Started tr s) (hconn : AllSteps (Connected y) tr) : Passed y s := by
  induction hrun with
  | nil h =>
    obtain ⟨w, hw, rfl⟩ := h
    obtain ⟨rand, chips, before, rfl⟩ := hw
    exact ⟨rfl, .nil, rfl⟩
  | snoc hrun hs ih =>
    obtain ⟨hconn, hl⟩ := allSteps_snoc.mp hconn
    exact passed_step (speaks_run hrun) (ih hconn) hl hs

/-- In every run, the page of a user has received no message that the server did not send to it, and
none more often than it was sent: what is written, what is queued and what is posted are among the
messages sent. While the socket stays open and its writes succeed, they are all of them. -/
theorem messages_delivered (hrun : Run step Started tr s) (y : UserId) :
    ((s.session y).written ++ (s.session y).mq ++ s.posted y).Subperm (s.world.sh.mail y) ∧
      (AllSteps (Connected y) tr →
        ((s.session y).written ++ (s.session y).mq ++ s.posted y).Perm (s.world.sh.mail y)) := by
  have hperm : (s.sent y).Perm ((s.session y).written ++ (s.session y).mq ++ s.posted y) :=
    (accounted (session_reachable hrun y)).perm.append_right _
  exact ⟨hperm.symm.subperm.trans (sent_subperm hrun y),
    fun hconn => hperm.symm.trans (passed hrun hconn).perm⟩

end run

/-- User 1 plays, and reads every message before it asks for more. -/
def annReads : List Label :=
  (annPlays.take 13).map .lounge ++ [.onWrite 1 0 false, .onWrite 1 0 false] ++
    ((annPlays.drop 13).take 12).map .lounge ++ [.onWrite 1 0 false, .onWrite 1 0 false] ++
    (annPlays.drop 25).map .lounge ++ [.doSend 1, .onWrite 1 0 false, .doSend 1, .onWrite 1 0 false,
      .doSend 1, .onWrite 1 0 false]

theorem annReads_runs : (execute step annReads [] { world := bootZero }).isSome := by decide +kernel

def annTrace : List (Wired × Label) := ((execute step annReads [] { world := bootZero }).get annReads_runs).1

def annRead : Wired := ((execute step annReads [] { world := bootZero }).get annReads_runs).2

theorem annReads_run : Run step Started annTrace annRead :=
  Run.ofIsSome _ ⟨_, booted_bootZero, rfl⟩ annReads_runs

theorem annReads_mem {x : Wired × Label} (hx : x ∈ annTrace) : x.2 ∈ annReads := by
  have hlabels : annTrace.map Prod.snd = [] ++ annReads :=
    labels_execute annReads (Option.some_get annReads_runs).symm
  rw [List.nil_append] at hlabels
  exact hlabels ▸ List.mem_map_of_mem hx

theorem annReads_connected : AllSteps (Connected 1) annTrace := by
  rintro ⟨s, l⟩ hx
  have hl := annReads_mem hx
  simp only [annReads, List.mem_append, List.mem_map, List.mem_cons, List.not_mem_nil, or_false] at hl
  cases l with
  | onWrite u i failed =>
    have hlast : u = 1 ∧ i = 0 ∧ failed = false := by simpa using hl
    exact fun _ => hlast.2.2
  | close u => simp at hl
  | _ => trivial

theorem messages_delivered_ann : ∃ tr s, Run step Started tr s ∧ (s.session 1).written.length = 7 ∧
    ((s.session 1).written ++ (s.session 1).mq ++ s.posted 1).Perm (s.world.sh.mail 1) :=
  ⟨_, _, annReads_run, by decide +kernel, (messages_delivered annReads_run 1).2 annReads_connected⟩

end Wired

end BeastLounge.Client
