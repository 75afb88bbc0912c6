import BeastLounge.Lounge.Rules

/-!
# What the table owes its members

The strand owes the members an update once it has changed the game: it reads the game, copies the
users and passes the update to each of them. A newcomer is owed an init, which the `do_insert` posted
at the end of `channel::insert` sends.

The argument: the ghost value of `dutySpec` says what of this the running handler still has to do, and
every handler that returns has nothing left (`serve_duty`). The ghost value of `postSpec` says
whether a thread of a user has to post `do_insert`, which every program of a session does before it
ends.
-/

namespace BeastLounge.Lounge

open Theory Json Rpc

open Prog (Spec wp Keeps)

/-! ### Snapshots of the game -/

/-- What `game::to_json` reads. -/
abbrev Snapshot := Blackjack.GameState × List Blackjack.Seat

def Shared.snapshot (w : Shared) : Snapshot := (w.game.s, w.game.seats)

/-- `g` is what `game::to_json` makes of the snapshot and some names. -/
def Shows (snap : Snapshot) (g : Value) : Prop :=
  ∃ vs, List.Forall₂ (fun s j => ∃ name, j = seatJson s name) snap.2 vs ∧
    g = .object [("message", .string (stateMessage snap.1)), ("seats", .array vs)]

/-- The init or update `jv` was made of the snapshot. -/
def Carries (snap : Snapshot) (jv : Value) : Prop :=
  ∃ action g, jv = updateJson action g ∧ Shows snap g

/-- The verb of an init and of an update. -/
def isUpdate : Value → Bool
  | .object (_ :: ("verb", .string "update") :: _) => true
  | _ => false

theorem Carries.isUpdate {snap : Snapshot} {jv : Value} (h : Carries snap jv) : isUpdate jv = true := by
  obtain ⟨action, g, rfl, -⟩ := h
  rfl

theorem IsReply.isUpdate {id jv : Value} (h : IsReply id jv) : isUpdate jv = false := by
  rcases h with ⟨result, rfl⟩ | ⟨e, rfl⟩
  · unfold Lounge.isUpdate
    split
    · rename_i heq
      simp at heq
    · rfl
  · rfl

/-! ### The strand -/

inductive Duty
  | rest
  /-- The game has changed. -/
  | changed
  /-- The game has been read for an update. -/
  | read (snap : Snapshot)
  /-- The update has still to be passed to these users. -/
  | tell (snap : Snapshot) (jv : Value) (us : List UserId)
  /-- The user has still to be sent an init. -/
  | greet (u : UserId)
  /-- The game has been read for the init. -/
  | greetRead (u : UserId) (snap : Snapshot)

namespace Duty

def telling (snap : Snapshot) (jv : Value) (us : List UserId) : Duty :=
  match us with
  | [] => rest
  | _ :: _ => tell snap jv us

def ofChange (b : Bool) : Duty := if b then changed else rest

end Duty

/-- What the handler owes when it starts. -/
def Handler.duty : Handler → Duty
  | .doInsert u => .greet u
  | _ => .rest

/-- What a handler may do in view of what it owes. -/
def dutySpec : Spec Res Duty where
  may _ _ _ := True
  allow
    | d, .seats => d = .changed ∨ ∃ u, d = .greet u
    | _, .readName _ => True
    | d, .broadcast c jv => c = table ∧ ∃ snap, d = .read snap ∧ Carries snap jv
    | d, .trySend u jv => ∃ snap us, d = .tell snap jv (u :: us)
    | d, .send u jv =>
      (∃ snap, d = .greetRead u snap ∧ Carries snap jv) ∨ d = .rest ∧ isUpdate jv = false
    | d, .join _ => d = .rest
    | d, .leave _ => d = .rest
    | d, .surrender _ => d = .rest
    | d, .bet _ => d = .rest
    | d, .dealOne => d = .rest
    | _, _ => False
  next
    | _, .join _, r => .ofChange r.isOk
    | _, .leave _, r => .ofChange r.isOk
    | _, .surrender _, r => .ofChange (decide (r = 1))
    | _, .bet _, r => .ofChange r.isOk
    | _, .dealOne, r => .ofChange r.isOk
    | .changed, .seats, r => .read r
    | .greet u, .seats, r => .greetRead u r
    | .read snap, .broadcast _ jv, us => .telling snap jv us
    | .tell snap jv (_ :: us), .trySend _ _, _ => .telling snap jv us
    | _, .send _ _, _ => .rest
    | d, _, _ => d

section strand
variable {d : Duty} {post : Except Exn Unit → Duty → Prop} {rpc : RpcCall}

theorem idle_readName (u : UserId) : dutySpec.Idle (.readName u) :=
  fun d => ⟨trivial, fun _ => by cases d <;> rfl⟩

/-- The game is serialized once, after a change or for a newcomer. -/
theorem wp_gameToJson_duty {post : Except Exn Value → Duty → Prop}
    (hallow : dutySpec.allow d .seats)
    (h : ∀ r g, Shows r g → post (.ok g) (dutySpec.next d .seats r)) :
    wp dutySpec post gameToJson d := by
  refine Prog.wp_bind.mpr (Prog.wp_op.mpr ⟨hallow, fun r _ => ?_⟩)
  apply Prog.wp_bind.mpr
  have hname : ∀ u, dutySpec.Safe (· = dutySpec.next d .seats r) (.readName u) := by
    rintro u d' rfl
    exact ⟨(idle_readName u _).1, fun name _ => (idle_readName u _).2 name⟩
  apply Prog.wp_mono _
    (wp_seatsToJson (N := fun _ => True) hname (fun _ _ _ _ _ => trivial) r.2 rfl)
  rintro o d' ⟨⟨vs, rfl, hvs⟩, rfl⟩
  exact h r _ ⟨vs, hvs.imp fun _ _ ⟨name, _, hj⟩ => ⟨name, hj⟩, rfl⟩

/-- Everyone on the list is told. -/
theorem wp_tell {snap : Snapshot} {jv : Value} {us : List UserId} (h : post (.ok ()) .rest) :
    wp dutySpec post (Prog.each (fun u => op (.trySend u jv)) us) (.telling snap jv us) := by
  induction us with
  | nil => exact h
  | cons u us ih =>
    refine Prog.wp_bind.mpr (Prog.wp_op.mpr ⟨⟨snap, us, rfl⟩, fun _ _ => ?_⟩)
    exact ih

/-- `update` does what is owed after a change. -/
theorem wp_update {action : String} (h : post (.ok ()) .rest) :
    wp dutySpec post (update action) .changed := by
  apply Prog.wp_bind.mpr
  apply wp_gameToJson_duty (.inl rfl)
  intro r g hg
  refine Prog.wp_bind.mpr (Prog.wp_op.mpr ⟨⟨rfl, r, rfl, action, g, rfl, hg⟩, fun us _ => ?_⟩)
  exact wp_tell h

theorem wp_complete_duty (h : post (.ok ()) .rest) : wp dutySpec post (complete rpc) .rest := by
  unfold complete
  split
  · exact h
  · rename_i jv hjv
    obtain ⟨id, -, hjv⟩ := isReply_response hjv
    exact ⟨.inr ⟨rfl, hjv.isUpdate⟩, fun _ _ => h⟩

theorem wp_completeError_duty {e : RpcError} (h : post (.ok ()) .rest) :
    wp dutySpec post (completeError rpc e) .rest := by
  unfold completeError
  split
  · exact h
  · rename_i jv hjv
    obtain ⟨id, -, hjv⟩ := isReply_errorResponse hjv
    exact ⟨.inr ⟨rfl, hjv.isUpdate⟩, fun _ _ => h⟩

/-- A handler that returns owes nothing. -/
def Paid (o : Except Exn Unit) (d : Duty) : Prop := o = .ok () → d = .rest

/-- Nothing is owed where the handler returns or replies with an error. -/
def PaidOrFailed (o : Except Exn Unit) (d : Duty) : Prop := (∀ f, o ≠ .error (.deal f)) → d = .rest

theorem paid_catchRpc {p : Act Unit} (h : wp dutySpec PaidOrFailed p .rest) :
    wp dutySpec Paid (catchRpc p (completeError rpc)) .rest := by
  apply Prog.wp_tryCatch.mpr
  apply Prog.wp_mono _ h
  intro o d hd
  cases o with
  | ok a => exact fun _ => hd (by simp)
  | error e =>
    cases e with
    | rpc e =>
      obtain rfl := hd (by simp)
      exact wp_completeError_duty fun _ => rfl
    | system => exact fun h => by cases h
    | deal f => exact fun h => by cases h

/-- What follows an operation of the game in `do_play` and `do_watch`. -/
theorem wp_orFail_update {α : Type} (r : Except Blackjack.Error α) (action : String) :
    wp dutySpec PaidOrFailed
      (orFail r >>= fun _ => update action >>= fun _ => complete rpc) (.ofChange r.isOk) := by
  cases r with
  | error e => exact fun _ => rfl
  | ok a =>
    apply Prog.wp_bind.mpr
    apply Prog.wp_bind.mpr
    apply wp_update
    exact wp_complete_duty fun _ => rfl

theorem serve_duty (h : Handler) : wp dutySpec Paid (serve h) h.duty := by
  cases h with
  | doInsert u =>
    apply Prog.wp_bind.mpr
    apply wp_gameToJson_duty (.inr ⟨u, rfl⟩)
    intro r g hg
    exact ⟨.inl ⟨r, rfl, _, g, rfl, hg⟩, fun _ _ _ => rfl⟩
  | doErase u =>
    refine Prog.wp_bind.mpr (Prog.wp_op.mpr ⟨rfl, fun result _ => ?_⟩)
    show wp dutySpec Paid (if result = 1 then update "surrender" else pure ())
      (.ofChange (decide (result = 1)))
    split
    · rename_i hone
      rw [hone]
      exact wp_update fun _ => rfl
    · rename_i hno
      rw [decide_eq_false hno]
      exact fun _ => rfl
  | doPlay rpc =>
    apply paid_catchRpc
    exact Prog.wp_bind.mpr (Prog.wp_op.mpr ⟨rfl, fun r _ => wp_orFail_update r "play"⟩)
  | doWatch rpc =>
    apply paid_catchRpc
    exact Prog.wp_bind.mpr (Prog.wp_op.mpr ⟨rfl, fun r _ => wp_orFail_update r "watch"⟩)
  | doBet rpc =>
    apply paid_catchRpc
    refine Prog.wp_bind.mpr (Prog.wp_bind.mpr (Prog.wp_op.mpr ⟨rfl, fun r _ => ?_⟩))
    cases r with
    | error e => exact fun _ => rfl
    | ok a =>
      apply Prog.wp_bind.mpr
      apply wp_update
      exact wp_complete_duty fun _ => rfl
  | doStart rpc =>
    apply paid_catchRpc
    refine Prog.wp_bind.mpr (Prog.wp_bind.mpr (Prog.wp_op.mpr ⟨rfl, fun r _ => ?_⟩))
    cases r with
    | error f => exact fun h => absurd rfl (h f)
    | ok a =>
      apply wp_update
      exact wp_complete_duty fun _ => rfl
  | doHit rpc =>
    apply paid_catchRpc
    exact wp_complete_duty fun _ => rfl
  | doStand rpc =>
    apply paid_catchRpc
    exact wp_complete_duty fun _ => rfl

end strand

/-! ### Sessions -/

/-- A thread of `u` posts `do_insert` for `u` alone, and only once it has added it to the table; the
ghost value says whether it has to. -/
def postSpec (u : UserId) : Spec Res Bool where
  may
    | _, .at _, r => ∀ c, r = some c → Known c
    | _, _, _ => True
  allow
    | v, .usersInsert _ u' => u' = u ∧ v = false
    | v, .post (.doInsert u') => u' = u ∧ v = true
    | _, _ => True
  next
    | _, .usersInsert c _, r => r && decide (c = table)
    | _, .post (.doInsert _), _ => false
    | v, _, _ => v

section session
variable {u : UserId} {c : Channel} {T : Exn → Prop}

theorem quiet_postSpec : Quiet (postSpec u) where
  readName _ _ := ⟨trivial, fun _ => rfl⟩
  broadcast _ _ _ _ := ⟨trivial, fun _ => rfl⟩
  trySend _ _ _ _ _ := ⟨trivial, fun _ => rfl⟩

/-- `insert` posts what it owes when it adds the user to the table. -/
theorem insert_postSpec (hc : Known c) : Keeps (postSpec u) (· = false) T (c.insert u) := by
  rintro v rfl
  refine wp_insert quiet_postSpec ⟨rfl, rfl⟩ (fun _ => Prog.keeps_ok rfl) (fun _ => ?_)
  apply Prog.wp_bind.mpr
  refine Prog.wp_bind.mpr (Prog.wp_op.mpr ⟨trivial, fun inserted _ => ?_⟩)
  refine Prog.wp_op.mpr ⟨trivial, fun _ _ => ?_⟩
  apply Prog.wp_bind.mpr
  rcases hc with rfl | rfl | rfl
  · exact Prog.keeps_ok rfl
  · exact Prog.keeps_ok rfl
  · exact ⟨⟨rfl, rfl⟩, fun _ _ => Prog.keeps_ok rfl⟩

theorem erase_postSpec : Keeps (postSpec u) (· = false) T (c.erase u) := by
  rintro v rfl
  refine wp_erase quiet_postSpec trivial (fun _ => Prog.keeps_ok rfl) (fun _ => ?_)
  apply Prog.wp_bind.mpr
  refine Prog.wp_bind.mpr (Prog.wp_op.mpr ⟨trivial, fun erased _ => ?_⟩)
  refine Prog.wp_op.mpr ⟨trivial, fun _ _ => ?_⟩
  apply Prog.wp_bind.mpr
  unfold Channel.onErase
  split
  · exact Prog.keeps_ok rfl
  · exact Prog.keeps_ok rfl
  · exact ⟨trivial, fun _ _ => Prog.keeps_ok rfl⟩

/-- The program has posted what it owes when it ends. -/
def Posts {α : Type} (u : UserId) (p : Act α) (v : Bool) : Prop :=
  wp (postSpec u) (fun _ v => v = false) p v

theorem posts_readFrame (jv : Value) : Posts u (readFrame u jv) false := by
  have hkeeps : Keeps (postSpec u) (· = false) (fun _ => True) (readFrame u jv) := by
    refine keeps_readFrame (K := Known) jv ?_ (fun _ _ c _ h => h c rfl)
      (fun _ hc => insert_postSpec hc) (fun _ _ => erase_postSpec) fun _ _ _ _ => trivial
    rintro c hc v rfl
    cases hc with
    | @post rpc h hu hh =>
      unfold tableHandler at hh
      split at hh <;> cases hh <;> exact ⟨trivial, fun _ _ => rfl⟩
    | _ => exact ⟨trivial, fun _ _ => rfl⟩
  exact hkeeps.wp rfl

theorem posts_erase (c : Channel) : Posts u (c.erase u) false :=
  (erase_postSpec (T := fun _ => True)).wp rfl

end session

end BeastLounge.Lounge
