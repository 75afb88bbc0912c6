import BeastLounge.Blackjack.Fresh
import BeastLounge.Lounge.Deals
import BeastLounge.Lounge.Replies
import BeastLounge.Lounge.Views

/-!
# The table as a sequential machine

Requests for the table come from many sessions and wait in the queue of its strand, and a handler
takes many operations, between which every other thread may run. To the players the table is a
machine nevertheless that processes one request after the other, in the order in which they were
posted: each changes the game and is answered as `Handler.perform` says of the game its predecessors
left (`table_serial`). What the strand relies on is that no other thread touches the game.
-/

namespace BeastLounge.Lounge

open Theory Json Rpc

open Blackjack (Game)

open Prog (Spec wp Keeps)

/-! ### The machine -/

/-- Who is answered, and what. -/
abbrev Reply := UserId × Value

/-- The answer to a request, by the result of the operation of the game it asks for. -/
def answer {α : Type} (rpc : RpcCall) (r : Except Blackjack.Error α) : List Reply :=
  let res :=
    match r with
    | .ok _ => rpc.response
    | .error ec => rpc.errorResponse (.ofMsg ec.message)
  res.toList.map fun jv => (rpc.u, jv)

/-- The outcome of a request, by the result of that operation. -/
def refusal {α : Type} : Except Blackjack.Error α → Except RpcError Unit
  | .ok _ => .ok ()
  | .error ec => .error (.ofMsg ec.message)

/-- A handler in one step: the game it leaves, and its answer. -/
def Handler.perform (g : Game) : Handler → Game × List Reply
  | .doInsert _ => (g, [])
  | .doErase u => ((g.surrender u).1, [])
  | .doPlay rpc => ((g.join rpc.u).1, answer rpc (g.join rpc.u).2)
  | .doWatch rpc => ((g.leave rpc.u).1, answer rpc (g.leave rpc.u).2)
  | .doBet rpc => ((g.bet rpc.u).1, answer rpc (g.bet rpc.u).2)
  | .doStart rpc => (g.dealOne.1, answer rpc (.ok ()))
  | .doHit rpc => (g, answer rpc (.ok ()))
  | .doStand rpc => (g, answer rpc (.ok ()))

/-- How the handler answers its request; `none` if it does not. A deal that fails ends the program. -/
def Handler.outcome (g : Game) : Handler → Option (Except RpcError Unit)
  | .doInsert _ => none
  | .doErase _ => none
  | .doPlay rpc => some (refusal (g.join rpc.u).2)
  | .doWatch rpc => some (refusal (g.leave rpc.u).2)
  | .doBet rpc => some (refusal (g.bet rpc.u).2)
  | .doStart _ => if g.dealOne.2.isOk then some (.ok ()) else none
  | .doHit _ => some (.ok ())
  | .doStand _ => some (.ok ())

/-- Whom the handler answers, and what. -/
def Handler.replies (g : Game) (h : Handler) : List Reply :=
  match h.rpc, h.outcome g with
  | some rpc, some o => (reply rpc o).toList.map fun jv => (rpc.u, jv)
  | _, _ => []

/-- One handler after the other, from the game `g`. -/
def serial (g : Game) (hs : List Handler) : Game × List Reply :=
  hs.foldl (fun s h => ((h.perform s.1).1, s.2 ++ (h.perform s.1).2)) (g, [])

theorem replies_eq {g : Game} {h : Handler} (hdeal : ∀ rpc, h = .doStart rpc → g.dealOne.2.isOk) :
    h.replies g = (h.perform g).2 := by
  have hanswer : ∀ {α : Type} {rpc : RpcCall} (r : Except Blackjack.Error α),
      ((reply rpc (refusal r)).toList.map fun jv => (rpc.u, jv)) = answer rpc r := by
    intro α rpc r
    cases r with
    | _ => rfl
  cases h with
  | doInsert u => rfl
  | doErase u => rfl
  | doPlay rpc => exact hanswer _
  | doWatch rpc => exact hanswer _
  | doBet rpc => exact hanswer _
  | doStart rpc =>
    have houtcome : (Handler.doStart rpc).outcome g = some (.ok ()) := if_pos (hdeal rpc rfl)
    simp only [Handler.replies, houtcome]
    rfl
  | doHit rpc => rfl
  | doStand rpc => rfl

theorem serial_snoc (g : Game) (hs : List Handler) (h : Handler) :
    serial g (hs ++ [h]) =
      ((h.perform (serial g hs).1).1, (serial g hs).2 ++ (h.perform (serial g hs).1).2) := by
  simp [serial, List.foldl_append]

/-! ### What a run has posted, served and answered -/

/-- The handlers that were posted, in order. -/
def enqueued (tr : List (World × Label)) : List Handler :=
  tr.flatMap fun e => (operation e.1 e.2).elim [] Cmd.posts

/-- The handler the strand takes from its queue. -/
def takes (w : World) : Label → List Handler
  | .table =>
    match w.running with
    | none => w.sh.queue.head?.toList
    | some _ => []
  | _ => []

/-- The handlers the strand has begun, in order. -/
def served (tr : List (World × Label)) : List Handler := tr.flatMap fun e => takes e.1 e.2

/-- The response the operation passes to a user. -/
def Cmd.replies : Cmd → List Reply
  | .send u jv => if isResponse jv then [(u, jv)] else []
  | .trySend u jv => if isResponse jv then [(u, jv)] else []
  | _ => []

/-- The responses the strand has passed to users, in order. -/
def tableReplies (tr : List (World × Label)) : List Reply :=
  tr.flatMap fun e => (tableOperation e.1 e.2).elim [] Cmd.replies

section snoc
variable (tr : List (World × Label)) (w : World) (l : Label)

theorem enqueued_snoc :
    enqueued (tr ++ [(w, l)]) = enqueued tr ++ (operation w l).elim [] Cmd.posts := by
  simp [enqueued]

theorem served_snoc : served (tr ++ [(w, l)]) = served tr ++ takes w l := by simp [served]

theorem tableReplies_snoc :
    tableReplies (tr ++ [(w, l)]) = tableReplies tr ++ (tableOperation w l).elim [] Cmd.replies := by
  simp [tableReplies]

end snoc

/-! ### A handler does what the machine does -/

/-- What the operation makes of the game. -/
def Cmd.game (g : Game) : Cmd → Game
  | .join u => (g.join u).1
  | .leave u => (g.leave u).1
  | .surrender u => (g.surrender u).1
  | .bet u => (g.bet u).1
  | .dealOne => g.dealOne.1
  | _ => g

theorem act_game (c : Cmd) (w : Shared) : (act c w).2.game = c.game w.game := by
  cases c with
  | usersInsert c u => rw [act_usersInsert]; rfl
  | usersErase c u => rw [act_usersErase]; rfl
  | channelsInsert u c => rw [act_channelsInsert]; rfl
  | channelsErase u c => rw [act_channelsErase]; rfl
  | trySend u jv => rw [act_trySend]; rfl
  | _ => rfl

/-- The ghost value follows the game and the answers. The game is never seen between the one the
handler `h` finds, `g`, and the one it leaves, and nobody is answered anything else. -/
def serialSpec (h : Handler) (g : Game) : Spec Res (Game × List Reply) where
  may v c r := ∃ w : Shared, w.game = v.1 ∧ r = (act c w).1
  allow v c := (c.game v.1 = g ∨ c.game v.1 = (h.perform g).1) ∧ c.replies ⊆ h.replies g
  next v c _ := (c.game v.1, v.2 ++ c.replies)

/-- The handler has changed the game and has yet to answer. -/
def Done (h : Handler) (g : Game) (v : Game × List Reply) : Prop := v = ((h.perform g).1, [])

/-- The handler leaves what the machine leaves. -/
def Conforms (h : Handler) (g : Game) (p : Act Unit) (v : Game × List Reply) : Prop :=
  wp (serialSpec h g) (fun o v => o = .ok () → v = h.perform g) p v

section handler
variable {h : Handler} {g : Game}

/-- An operation that neither concerns the game nor answers. -/
theorem done_safe {c : Cmd} (hgame : ∀ g, c.game g = g) (hreplies : c.replies = []) :
    (serialSpec h g).Safe (Done h g) c := by
  rintro v rfl
  refine ⟨⟨.inr (hgame _), hreplies ▸ List.nil_subset _⟩, fun r _ => ?_⟩
  show (c.game (h.perform g).1, [] ++ c.replies) = _
  rw [hgame, hreplies]
  rfl

theorem wp_gameToJson_done (v : Game × List Reply) (hv : Done h g v) :
    wp (serialSpec h g) (fun o v => (∃ j, o = .ok j ∧ True) ∧ Done h g v) gameToJson v :=
  wp_gameToJson_any (done_safe (fun _ => rfl) rfl) (fun _ => done_safe (fun _ => rfl) rfl) v hv

theorem keeps_update_done {T : Exn → Prop} (a : String) :
    Keeps (serialSpec h g) (Done h g) T (update a) := by
  apply keeps_update wp_gameToJson_done
  · exact fun j _ => done_safe (fun _ => rfl) rfl
  · exact fun j u _ => done_safe (fun _ => rfl) rfl

/-- The operation of the game that a handler begins with. -/
theorem wp_game_op {c : Cmd} {k : Res c → Act Unit} (hgame : c.game g = (h.perform g).1)
    (hreplies : c.replies = [])
    (hk : ∀ w : Shared, w.game = g → Conforms h g (k (act c w).1) ((h.perform g).1, [])) :
    Conforms h g (op c >>= k) (g, []) := by
  refine Prog.wp_bind.mpr (Prog.wp_op.mpr ⟨⟨.inr hgame, hreplies ▸ List.nil_subset _⟩, ?_⟩)
  rintro r ⟨w, hw, rfl⟩
  show wp _ _ _ (c.game g, [] ++ c.replies)
  rw [hgame, hreplies]
  exact hk w hw

section reply
variable {post : Except Exn Unit → Game × List Reply → Prop} (hsame : h.replies g = (h.perform g).2)
  (hpost : post (.ok ()) (h.perform g))

include hsame hpost

theorem wp_sendReply {u : UserId} {id jv : Value} (hjv : IsReply id jv)
    (h' : (h.perform g).2 = [(u, jv)]) :
    wp (serialSpec h g) post (op (.send u jv)) ((h.perform g).1, []) := by
  have hreplies : (Cmd.send u jv).replies = (h.perform g).2 := by
    rw [h']
    exact if_pos (isResponse_of_isReply hjv).1
  refine Prog.wp_op.mpr ⟨⟨.inr rfl, hsame ▸ hreplies ▸ List.Subset.refl _⟩, fun _ _ => ?_⟩
  show post (.ok ()) ((h.perform g).1, [] ++ (Cmd.send u jv).replies)
  rw [hreplies, List.nil_append]
  exact hpost

theorem wp_complete {rpc : RpcCall} (h' : (h.perform g).2 = answer rpc (.ok ())) :
    wp (serialSpec h g) post (complete rpc) ((h.perform g).1, []) := by
  unfold complete
  split
  · rename_i hnone
    have hnothing : (h.perform g).2 = [] := by rw [h', answer, hnone]; rfl
    rw [← hnothing]
    exact hpost
  · rename_i jv hjv
    obtain ⟨id, -, hreply⟩ := isReply_response hjv
    exact wp_sendReply hsame hpost hreply (by rw [h', answer, hjv]; rfl)

theorem wp_completeRefused {α : Type} {rpc : RpcCall} {ec : Blackjack.Error}
    (h' : (h.perform g).2 = answer rpc (.error ec : Except Blackjack.Error α)) :
    wp (serialSpec h g) post (completeError rpc (.ofMsg ec.message)) ((h.perform g).1, []) := by
  unfold completeError
  split
  · rename_i hnone
    have hnothing : (h.perform g).2 = [] := by rw [h', answer, hnone]; rfl
    rw [← hnothing]
    exact hpost
  · rename_i jv hjv
    obtain ⟨id, -, hreply⟩ := isReply_errorResponse hjv
    exact wp_sendReply hsame hpost hreply (by rw [h', answer, hjv]; rfl)

end reply

/-- After the game has changed, the members are told and the request is answered. -/
theorem conforms_updated {a : String} {rpc : RpcCall} (hsame : h.replies g = (h.perform g).2)
    (h' : (h.perform g).2 = answer rpc (.ok ())) :
    Conforms h g (catchRpc (update a >>= fun _ => complete rpc) (completeError rpc))
      ((h.perform g).1, []) := by
  apply Prog.wp_tryCatch.mpr
  apply (keeps_update_done a).wp_bind rfl
  rintro _ v rfl
  exact wp_complete hsame (fun _ => rfl) h'

/-- What follows an operation of the game that may be refused. -/
theorem conforms_ofResult {α : Type} {a : String} {rpc : RpcCall} {r : Except Blackjack.Error α}
    (hsame : h.replies g = (h.perform g).2) (h' : (h.perform g).2 = answer rpc r) :
    Conforms h g (catchRpc (orFail r >>= fun _ => update a >>= fun _ => complete rpc)
      (completeError rpc)) ((h.perform g).1, []) := by
  cases r with
  | ok _ => exact conforms_updated hsame h'
  | error ec => exact wp_completeRefused hsame (fun _ => rfl) h'

theorem conforms_catch_complete {rpc : RpcCall} (hsame : h.replies g = (h.perform g).2)
    (h' : (h.perform g).2 = answer rpc (.ok ())) :
    Conforms h g (catchRpc (complete rpc) (completeError rpc)) ((h.perform g).1, []) :=
  Prog.wp_tryCatch.mpr (wp_complete hsame (fun _ => rfl) h')

theorem conforms_serve (h : Handler) (g : Game) : Conforms h g (serve h) (g, []) := by
  cases h with
  | doInsert u =>
    apply Prog.wp_bind.mpr
    apply Prog.wp_mono _ (wp_gameToJson_done _ rfl)
    rintro _ v ⟨⟨j, rfl, -⟩, rfl⟩
    exact Prog.wp_op.mpr ⟨⟨.inr rfl, List.nil_subset _⟩, fun _ _ _ => rfl⟩
  | doErase u =>
    refine wp_game_op (c := .surrender u) rfl rfl fun w hw => ?_
    show Conforms _ _ (if (act (.surrender u) w).1 = 1 then update "surrender" else pure ()) _
    split
    · apply Prog.wp_mono _ (keeps_update_done (T := fun _ => True) "surrender" _ rfl)
      rintro o v ⟨rfl, -⟩ -
      rfl
    · exact fun _ => rfl
  | doPlay rpc =>
    refine wp_game_op (c := .join rpc.u) rfl rfl
      (k := fun r => catchRpc (orFail r >>= fun _ => update "play" >>= fun _ => complete rpc)
        (completeError rpc)) ?_
    rintro w rfl
    exact conforms_ofResult (replies_eq nofun) rfl
  | doWatch rpc =>
    refine wp_game_op (c := .leave rpc.u) rfl rfl
      (k := fun r => catchRpc (orFail r >>= fun _ => update "watch" >>= fun _ => complete rpc)
        (completeError rpc)) ?_
    rintro w rfl
    exact conforms_ofResult (replies_eq nofun) rfl
  | doBet rpc =>
    apply Prog.wp_tryCatch.mpr
    apply Prog.wp_bind.mpr
    apply Prog.wp_bind.mpr
    refine Prog.wp_op.mpr ⟨⟨.inr rfl, List.nil_subset _⟩, ?_⟩
    rintro r ⟨w, rfl, rfl⟩
    have hanswer : (Handler.perform w.game (.doBet rpc)).2 = answer rpc (act (.bet rpc.u) w).1 := rfl
    have hsame : (Handler.doBet rpc).replies w.game = _ := replies_eq nofun
    generalize (act (.bet rpc.u) w).1 = r at hanswer
    cases r with
    | ok i =>
      apply (keeps_update_done "bet").wp_bind rfl
      rintro _ v rfl
      exact wp_complete hsame (fun _ => rfl) hanswer
    | error ec => exact wp_completeRefused hsame (fun _ => rfl) hanswer
  | doStart rpc =>
    apply Prog.wp_tryCatch.mpr
    apply Prog.wp_bind.mpr
    apply Prog.wp_bind.mpr
    refine Prog.wp_op.mpr ⟨⟨.inr rfl, List.nil_subset _⟩, fun r hr => ?_⟩
    obtain ⟨w, rfl, hdeal⟩ := hr
    replace hdeal : r = w.game.dealOne.2 := hdeal
    cases r with
    | ok i =>
      apply Prog.wp_mono _ (keeps_update_done (T := fun _ => False) "deal" _ rfl)
      rintro o v ⟨rfl, hno⟩
      cases o with
      | ok _ => exact wp_complete (replies_eq fun _ _ => hdeal ▸ rfl) (fun _ => rfl) rfl
      | error e => exact (hno e rfl).elim
    | error f => exact fun ho => by cases ho
  | doHit rpc => exact conforms_catch_complete (replies_eq nofun) rfl
  | doStand rpc => exact conforms_catch_complete (replies_eq nofun) rfl

end handler

/-! ### Runs -/

/-- Where the strand stands: between handlers the game and the answers are those of the machine, and
in a handler those before it with what it has done so far. -/
structure Serial (g₀ : Game) (tr : List (World × Label)) (w : World) : Prop where
  queue : enqueued tr = served tr ++ w.sh.queue
  idle : w.running = none → serial g₀ (served tr) = (w.sh.game, tableReplies tr)
  strand : ∀ h p, w.running = some (h, p) → ∃ hs rep, served tr = hs ++ [h] ∧
    tableReplies tr = (serial g₀ hs).2 ++ rep ∧
    (w.sh.game = (serial g₀ hs).1 ∨ w.sh.game = (h.perform (serial g₀ hs).1).1) ∧
    Conforms h (serial g₀ hs).1 p (w.sh.game, rep)

section step
variable {g₀ : Game} {tr : List (World × Label)} {w t : World} {l : Label}

theorem serial_boot (rand : Nat → Nat) (chips : Nat → Int) (before : Channel → Channel → Bool) :
    Serial (.new 1 rand chips) [] (boot rand chips before) :=
  ⟨rfl, fun _ => rfl, fun h p hp => (by cases hp)⟩

theorem queue_act (c : Cmd) (w : Shared) : (act c w).2.queue = w.queue ++ c.posts := by
  cases c with
  | post h => rfl
  | _ => rw [act_queue_eq (by simp)]; exact (List.append_nil _).symm

/-- Away from the strand, the queue grows by what the step posts. -/
theorem queue_step (hs : step w l = some t) (hl : l ≠ .table) :
    t.sh.queue = w.sh.queue ++ (operation w l).elim [] Cmd.posts := by
  have hop : ∀ {c : Cmd}, operation w l = some c →
      (act c w.sh).2.queue = w.sh.queue ++ (operation w l).elim [] Cmd.posts := by
    intro c hc
    rw [hc]
    exact queue_act c w.sh
  have hnone : operation w l = none → w.sh.queue = w.sh.queue ++ (operation w l).elim [] Cmd.posts := by
    intro hc
    rw [hc]
    exact (List.append_nil _).symm
  cases step_moves hs with
  | sessionOp h => exact hop (by simp [operation, h])
  | eraseOp h => exact hop (by simp [operation, h])
  | serve hrun hq => exact absurd rfl hl
  | tableOp hrun => exact absurd rfl hl
  | tableDone hrun => exact absurd rfl hl
  | tableThrow hrun => exact absurd rfl hl
  | connect h => exact hnone rfl
  | frame h => exact hnone rfl
  | close h => exact hnone rfl
  | destroy h hheld => exact hnone rfl
  | sessionDone h => exact hnone (by simp [operation, h])
  | sessionThrow h => exact hnone (by simp [operation, h])
  | eraseLast h hlast => exact hnone (by simp [operation, h])
  | ended h hmine => exact hnone (by simp [operation, h])
  | eraseDone h => exact hnone (by simp [operation, h])
  | eraseThrow h => exact hnone (by simp [operation, h])
  | @announce r h => exact hop (c := .broadcast systemChannel r.notice) rfl
  | notify h => exact hop (by simp [operation, h])
  | announced h => exact hnone (by simp [operation, h])

/-- A step of another thread: it may post a handler. -/
theorem Serial.ofSession (hw : Serial g₀ tr w) (hserved : takes w l = [])
    (hreplies : tableOperation w l = none)
    (hqueue : t.sh.queue = w.sh.queue ++ (operation w l).elim [] Cmd.posts)
    (hgame : t.sh.game = w.sh.game) (hrun : t.running = w.running) :
    Serial g₀ (tr ++ [(w, l)]) t := by
  have hserved' : served (tr ++ [(w, l)]) = served tr := by
    rw [served_snoc, hserved, List.append_nil]
  have hreplies' : tableReplies (tr ++ [(w, l)]) = tableReplies tr := by
    rw [tableReplies_snoc, hreplies]
    exact List.append_nil _
  refine ⟨?_, ?_, ?_⟩
  · rw [enqueued_snoc, hserved', hw.queue, hqueue, List.append_assoc]
  · rw [hrun, hserved', hreplies', hgame]
    exact hw.idle
  · rw [hrun, hserved', hreplies', hgame]
    exact hw.strand

/-- The strand performs an operation of its handler. -/
theorem Serial.ofTable (hw : Serial g₀ tr w) {h : Handler} {c : Cmd} {k : Res c → Act Unit}
    (hrun : w.running = some (h, .call c k)) :
    Serial g₀ (tr ++ [(w, .table)])
      { w with sh := (act c w.sh).2, running := some (h, k (act c w.sh).1) } := by
  have htakes : takes w .table = [] := by simp [takes, hrun]
  have hop : operation w .table = some c := by simp [operation, hrun]
  have htable : tableOperation w .table = some c := by simp [tableOperation, hrun]
  obtain ⟨hs, rep, hserved, hreplies, hgame, ⟨hallow, -⟩, hk⟩ := hw.strand h _ hrun
  refine ⟨?_, fun hno => (by cases hno), fun h' p hp => ?_⟩
  · rw [enqueued_snoc, served_snoc, htakes, hop, hw.queue, List.append_nil, List.append_assoc]
    exact congrArg _ (queue_act c w.sh).symm
  · cases hp
    refine ⟨hs, rep ++ c.replies, ?_, ?_, ?_, ?_⟩
    · rw [served_snoc, htakes, List.append_nil, hserved]
    · rw [tableReplies_snoc, htable, hreplies, List.append_assoc]
      rfl
    · show (act c w.sh).2.game = _ ∨ (act c w.sh).2.game = _
      rw [act_game]
      exact hallow
    · show Conforms _ _ _ ((act c w.sh).2.game, _)
      rw [act_game]
      exact hk _ ⟨w.sh, rfl, rfl⟩

theorem serial_step (hw : Serial g₀ tr w) (ht : Tracked w) (hs : step w l = some t) :
    Serial g₀ (tr ++ [(w, l)]) t := by
  by_cases hl : l = .table
  · subst hl
    cases step_moves hs with
    | @serve h q hrun hq =>
      have htakes : takes w .table = [h] := by simp [takes, hrun, hq]
      have hop : operation w .table = none := by simp [operation, hrun]
      have htable : tableOperation w .table = none := hop
      have hidle := hw.idle hrun
      refine ⟨?_, fun hno => (by cases hno), fun h' p hp => ?_⟩
      · rw [enqueued_snoc, served_snoc, htakes, hop, hw.queue, hq]
        simp
      · cases hp
        refine ⟨served tr, [], ?_, ?_, ?_, ?_⟩
        · rw [served_snoc, htakes]
        · rw [tableReplies_snoc, htable, hidle]
          rfl
        · rw [hidle]
          exact .inl rfl
        · rw [hidle]
          exact conforms_serve h w.sh.game
    | tableOp hrun => exact hw.ofTable hrun
    | @tableDone h a hrun =>
      obtain ⟨hs, rep, hserved, hreplies, -, hdone⟩ := hw.strand h _ hrun
      have htakes : takes w .table = [] := by simp [takes, hrun]
      have hop : operation w .table = none := by simp [operation, hrun]
      have htable : tableOperation w .table = none := hop
      refine ⟨?_, fun _ => ?_, fun h' p hp => (by cases hp)⟩
      · rw [enqueued_snoc, served_snoc, htakes, hop, hw.queue]
        simp
      · rw [served_snoc, tableReplies_snoc, htakes, htable, List.append_nil, hserved, serial_snoc,
          hreplies, ← hdone rfl]
        simp
    | @tableThrow h e hrun =>
      have htakes : takes w .table = [] := by simp [takes, hrun]
      have hop : operation w .table = none := by simp [operation, hrun]
      exact hw.ofSession htakes hop (by rw [hop]; exact (List.append_nil _).symm) rfl rfl
  · obtain ⟨hgame, hrun⟩ := strand_frame ht hs hl
    have htakes : takes w l = [] := by
      cases l with
      | table => exact absurd rfl hl
      | _ => rfl
    have htable : tableOperation w l = none := by
      cases l with
      | table => exact absurd rfl hl
      | _ => rfl
    exact hw.ofSession htakes htable (queue_step hs hl) hgame hrun

theorem serial_run {rand : Nat → Nat} {chips : Nat → Int} {before : Channel → Channel → Bool}
    (hrun : Run step (· = boot rand chips before) tr w) :
    Serial (.new 1 rand chips) tr w := by
  induction hrun with
  | nil h => exact h ▸ serial_boot rand chips before
  | snoc hrun hs ih =>
    have hbooted : Run step Booted _ _ := hrun.weaken fun s hs => ⟨rand, chips, before, hs⟩
    exact serial_step ih (tracked hbooted.reachable.2) hs

end step

section runs
variable {rand : Nat → Nat} {chips : Nat → Int} {before : Channel → Channel → Bool}
  {tr : List (World × Label)} {w : World}

/-- The game is the machine's after all handlers served, or all but the running one. -/
theorem served_game (hrun : Run step (· = boot rand chips before) tr w) :
    ∃ hs rest, served tr = hs ++ rest ∧ rest.length ≤ 1 ∧
      w.sh.game = (serial (.new 1 rand chips) hs).1 := by
  have hserial := serial_run hrun
  cases hr : w.running with
  | none =>
    refine ⟨served tr, [], (List.append_nil _).symm, by simp, ?_⟩
    rw [hserial.idle hr]
  | some hp =>
    obtain ⟨hs, rep, hserved, -, hgame, -⟩ := hserial.strand hp.1 hp.2 hr
    rcases hgame with hgame | hgame
    · exact ⟨hs, [hp.1], hserved, by simp, hgame⟩
    · refine ⟨hs ++ [hp.1], [], by rw [hserved, List.append_nil], by simp, ?_⟩
      rw [serial_snoc]
      exact hgame

/-- The table is a sequential machine: its strand serves the handlers in the order in which they were
posted. Between handlers, the served ones have made of the new game what the machine makes of it, and
have given the machine's answers in that order. In every state the game is one the machine passes
through, and all but the running handler are accounted for in it. -/
theorem table_serial (hrun : Run step (· = boot rand chips before) tr w) :
    enqueued tr = served tr ++ w.sh.queue ∧
      (w.running = none → serial (.new 1 rand chips) (served tr) = (w.sh.game, tableReplies tr)) ∧
      ∃ hs rest, served tr = hs ++ rest ∧ rest.length ≤ 1 ∧
        w.sh.game = (serial (.new 1 rand chips) hs).1 :=
  ⟨(serial_run hrun).queue, (serial_run hrun).idle, served_game hrun⟩

/-! ### Calls of the game -/

/-- The operation of the game that the handler asks for. -/
def Handler.op : Handler → Option Blackjack.Op
  | .doErase u => some (.surrender u)
  | .doPlay rpc => some (.join rpc.u)
  | .doWatch rpc => some (.leave rpc.u)
  | .doBet rpc => some (.bet rpc.u)
  | .doStart _ => some .start
  | _ => none

theorem step_perform {g : Game} {h : Handler} {op : Blackjack.Op} (hop : h.op = some op)
    (hturn : g.turn < g.seats.length) : g.step op = some (h.perform g).1 := by
  cases h with
  | doStart rpc =>
    cases hop
    apply Game.step_start_eq
    rcases g.dealOne_cases with ⟨hnone, -⟩ | ⟨seat, -, ⟨-, heq⟩ | ⟨hand, -, heq⟩⟩
    · rw [List.getElem?_eq_getElem hturn] at hnone
      cases hnone
    · simp [heq]
    · simp [heq]
  | doInsert u => cases hop
  | doHit rpc => cases hop
  | doStand rpc => cases hop
  | _ => cases hop; rfl

theorem perform_none {g : Game} {h : Handler} (hop : h.op = none) : (h.perform g).1 = g := by
  cases h with
  | doInsert u => rfl
  | doHit rpc => rfl
  | doStand rpc => rfl
  | _ => cases hop

/-- The game of the machine after these handlers is what the calls they ask for make of the new
game. -/
def PlayedOut (g₀ : Game) (hs : List Handler) : Prop :=
  ∃ gtr, Run Game.step (· = g₀) gtr (serial g₀ hs).1 ∧ gtr.map Prod.snd = hs.filterMap Handler.op

theorem PlayedOut.snoc {g₀ : Game} {hs : List Handler} {h : Handler} (hplayed : PlayedOut g₀ hs)
    (hturn : (serial g₀ hs).1.turn < (serial g₀ hs).1.seats.length) : PlayedOut g₀ (hs ++ [h]) := by
  obtain ⟨gtr, hgtr, hops⟩ := hplayed
  unfold PlayedOut
  rw [serial_snoc, List.filterMap_append]
  cases hop : h.op with
  | none =>
    rw [perform_none hop]
    exact ⟨gtr, hgtr, by simp [hops, hop]⟩
  | some op => exact ⟨_, hgtr.snoc (step_perform hop hturn), by simp [hops, hop]⟩

theorem takes_cases (w : World) (l : Label) :
    takes w l = [] ∨ w.running = none ∧ ∃ h, takes w l = [h] := by
  cases l with
  | table =>
    cases hrun : w.running with
    | none =>
      cases hq : w.sh.queue with
      | nil => exact .inl (by simp [takes, hrun, hq])
      | cons h q => exact .inr ⟨rfl, h, by simp [takes, hrun, hq]⟩
    | some hp => exact .inl (by simp [takes, hrun])
  | _ => exact .inl rfl

/-- A handler is begun only when the calls of those before it are through. -/
theorem played_run (hrun : Run step (· = boot rand chips before) tr w) {hs rest : List Handler}
    (hserved : served tr = hs ++ rest) : PlayedOut (.new 1 rand chips) hs := by
  induction hrun generalizing hs rest with
  | nil h =>
    obtain ⟨rfl, -⟩ := List.append_eq_nil_iff.mp hserved.symm
    exact ⟨[], .nil rfl, rfl⟩
  | @snoc tr s t l hrun hstep ih =>
    rw [served_snoc] at hserved
    rcases takes_cases s l with htakes | ⟨hidle, h, htakes⟩
    · rw [htakes, List.append_nil] at hserved
      exact ih hserved
    · rw [htakes] at hserved
      rcases List.eq_nil_or_concat rest with rfl | ⟨rest, h', rfl⟩
      · rw [List.append_nil] at hserved
        rw [← hserved]
        apply (ih (List.append_nil _).symm).snoc
        have hbooted : Run step Booted _ _ := hrun.weaken fun _ h0 => ⟨rand, chips, before, h0⟩
        rw [(serial_run hrun).idle hidle]
        exact (dealing_run hbooted).turn_lt
      · rw [List.concat_eq_append, ← List.append_assoc] at hserved
        exact ih (List.append_inj' hserved rfl).1

/-- Whatever the sessions do, the game of the table is one that calls of the game make of a new one:
those that the served handlers ask for, in the order in which they were posted. -/
theorem table_refines_game (hrun : Run step (· = boot rand chips before) tr w) :
    ∃ hs rest gtr, enqueued tr = hs ++ rest ++ w.sh.queue ∧ rest.length ≤ 1 ∧
      Run Game.step (· = .new 1 rand chips) gtr w.sh.game ∧
      gtr.map Prod.snd = hs.filterMap Handler.op := by
  have hqueue := (serial_run hrun).queue
  obtain ⟨hs, rest, hserved, hrest, hgame⟩ := served_game hrun
  obtain ⟨gtr, hgtr, hops⟩ := played_run hrun hserved
  exact ⟨hs, rest, gtr, hserved ▸ hqueue, hrest, hgame ▸ hgtr, hops⟩

end runs

/-- User 1 asks to play. Its handler has changed the game and not yet answered when user 2 asks for
the same; user 1 then asks again. -/
def playsCross : List Label :=
  [.connect 1, .connect 2, .frame 1 (tableRequest "play")] ++ List.replicate 3 (.session 1) ++
    [.table, .table, .frame 2 (tableRequest "play")] ++ List.replicate 3 (.session 2) ++
    [.frame 1 (tableRequest "play")] ++ List.replicate 3 (.session 1) ++ List.replicate 17 .table

theorem playsCross_runs : (execute step playsCross [] bootZero).isSome := by decide +kernel

theorem run_playsCross :
    Run step (· = bootZero) (traceOf playsCross playsCross_runs) (after playsCross playsCross_runs) :=
  Run.ofIsSome (· = bootZero) rfl playsCross_runs

/-- The calls are made one after the other, and the third is refused. -/
theorem table_serial_cross : ∃ tr w, Run step (· = bootZero) tr w ∧
    (tableReplies tr).map (fun x => (x.1, x.2.member "error" |>.isSome)) =
      [(1, false), (2, false), (1, true)] ∧
    serial (.new 1 (fun _ => 0) fun _ => 0) (served tr) = (w.sh.game, tableReplies tr) := by
  have hidle : (after playsCross playsCross_runs).running = none :=
    Option.isNone_iff_eq_none.mp (by decide +kernel)
  exact ⟨_, _, run_playsCross, by decide +kernel, (table_serial run_playsCross).2.1 hidle⟩

theorem table_refines_game_cross : ∃ w gtr, Reachable step Booted w ∧
    w.sh.game.users = [none, some 1, some 2, none, none, none] ∧
    Run Game.step (· = .new 1 (fun _ => 0) fun _ => 0) gtr w.sh.game := by
  obtain ⟨hs, rest, gtr, -, -, hgtr, -⟩ := table_refines_game run_playsCross
  exact ⟨_, gtr, ⟨_, run_after playsCross playsCross_runs⟩, by decide +kernel, hgtr⟩

end BeastLounge.Lounge
