import BeastLounge.Lounge.SeatHolders
import BeastLounge.Lounge.Updates

/-!
# Views of the table

Each member of the table sees the game as of the last snapshot that was passed to it. The strand
changes the game and passes updates on; users join and leave while it does, and a newcomer gets an
init of its own from the `do_insert` of its join.

The argument: `Tracks` says, of every user, how many of its joins have yet to be answered by an init,
and where that is, and, of every member who waits for none, that it has been passed the current
snapshot or is among those whom the running handler still owes it. Between handlers nothing is owed.
A user whose destructor has begun is passed nothing, and its view stays behind.
-/

namespace BeastLounge.Lounge

open Theory Json Rpc

open Prog (Spec wp)

/-! ### What a run has shown -/

/-- The operation the table's strand performs. -/
def tableOperation (w : World) : Label → Option Cmd
  | .table =>
    match w.running with
    | some (_, .call c _) => some c
    | _ => none
  | _ => none

/-- The snapshot the strand has read last, and the last one each user was passed, with the value made
of it. -/
structure Showing where
  read : Option Snapshot := none
  view : UserId → Option (Snapshot × Value) := fun _ => none

namespace Showing

/-- `user::send` -/
def pass (v : Showing) (u : UserId) (jv : Value) : Showing :=
  if isUpdate jv then
    { v with view := Function.update v.view u (v.read.map fun snap => (snap, jv)) }
  else v

/-- What an operation of the strand shows. -/
def perform (v : Showing) (w : Shared) : Cmd → Showing
  | .seats => { v with read := some w.snapshot }
  | .trySend u jv => if w.expired u then v else v.pass u jv
  | .send u jv => v.pass u jv
  | _ => v

def after (v : Showing) (w : World) (l : Label) : Showing :=
  match tableOperation w l with
  | some c => v.perform w.sh c
  | none => v

/-- The last snapshot passed to `y` is this one, and the value passed was made of it. -/
def Sees (v : Showing) (y : UserId) (snap : Snapshot) : Prop :=
  ∃ jv, v.view y = some (snap, jv) ∧ Carries snap jv

end Showing

def showing (tr : List (World × Label)) : Showing := tr.foldl (fun v e => v.after e.1 e.2) {}

/-- The operation adds `y` to the table. -/
def Cmd.joins (y : UserId) (w : Shared) : Cmd → Bool
  | .usersInsert c u => decide (c = table ∧ u = y ∧ y ∉ w.users table)
  | _ => false

def joinsTable (y : UserId) (w : World) (l : Label) : Bool := (operation w l).any (Cmd.joins y w.sh)

/-- The operation is the one with which a `do_insert` for `y` sends the init. -/
def Cmd.greets (y : UserId) : Cmd → Bool
  | .send u jv => decide (u = y) && isUpdate jv
  | _ => false

def greets (y : UserId) (w : World) (l : Label) : Bool := (tableOperation w l).any (Cmd.greets y)

/-- How often `y` has joined the table. -/
def joinCount (y : UserId) (tr : List (World × Label)) : Nat := tr.countP fun e => joinsTable y e.1 e.2

/-- How many of the `do_insert`s posted for `y`, one for each join and in their order, have run. -/
def greetCount (y : UserId) (tr : List (World × Label)) : Nat := tr.countP fun e => greets y e.1 e.2

/-- The operation broadcasts an update. -/
def Cmd.announces : Cmd → Bool
  | .broadcast c jv => decide (c = table) && isUpdate jv
  | _ => false

def announces (w : World) (l : Label) : Bool := (tableOperation w l).any Cmd.announces

/-- The operation changes what `game::to_json` reads. -/
def Cmd.changes (w : Shared) (c : Cmd) : Bool := decide ((act c w).2.snapshot ≠ w.snapshot)

def changesGame (w : World) (l : Label) : Bool := (operation w l).any (Cmd.changes w.sh)

/-- The game has changed since the last update was broadcast. -/
def unannounced (tr : List (World × Label)) : Bool :=
  tr.foldl (fun b e => changesGame e.1 e.2 || (b && !announces e.1 e.2)) false

section snoc
variable {tr : List (World × Label)} {w : World} {l : Label} {y : UserId}

theorem showing_snoc : showing (tr ++ [(w, l)]) = (showing tr).after w l := by simp [showing]

theorem joinCount_snoc :
    joinCount y (tr ++ [(w, l)]) = joinCount y tr + (joinsTable y w l).toNat := by
  simp only [joinCount, List.countP_append, List.countP_singleton]
  cases joinsTable y w l <;> rfl

theorem greetCount_snoc : greetCount y (tr ++ [(w, l)]) = greetCount y tr + (greets y w l).toNat := by
  simp only [greetCount, List.countP_append, List.countP_singleton]
  cases greets y w l <;> rfl

theorem unannounced_snoc : unannounced (tr ++ [(w, l)]) =
    (changesGame w l || (unannounced tr && !announces w l)) := by
  simp [unannounced]

theorem joinCount_aloof (h : joinsTable y w l = false) :
    joinCount y (tr ++ [(w, l)]) = joinCount y tr := by
  rw [joinCount_snoc, h]
  rfl

theorem joinCount_idle (h : operation w l = none) : joinCount y (tr ++ [(w, l)]) = joinCount y tr :=
  joinCount_aloof (by rw [joinsTable, h]; rfl)

/-- A step the strand has no part in shows nothing. -/
theorem showing_idle (h : tableOperation w l = none) : showing (tr ++ [(w, l)]) = showing tr := by
  rw [showing_snoc, Showing.after, h]

theorem greetCount_idle (h : tableOperation w l = none) :
    greetCount y (tr ++ [(w, l)]) = greetCount y tr := by
  rw [greetCount_snoc, greets, h]
  rfl

theorem unannounced_idle (h : tableOperation w l = none) (hgame : changesGame w l = false) :
    unannounced (tr ++ [(w, l)]) = unannounced tr := by
  rw [unannounced_snoc, hgame, announces, h]
  simp

end snoc

/-! ### What is owed in a state of the run -/

/-- The handler is a `do_insert` for `y`. -/
def Handler.inserts (y : UserId) : Handler → Bool
  | .doInsert u => decide (u = y)
  | _ => false

namespace Duty

/-- The init of the handler is still to be sent to `y`. -/
def unsent (y : UserId) : Duty → Nat
  | .greet u => if u = y then 1 else 0
  | .greetRead u _ => if u = y then 1 else 0
  | _ => 0

/-- The handler will pass an update of the current game to `y`, if it is a member then. -/
def Owes (y : UserId) : Duty → Prop
  | .changed => True
  | .read _ => True
  | .tell _ _ us => y ∈ us
  | _ => False

/-- The game has changed and has not been broadcast. -/
def Late : Duty → Prop
  | .changed => True
  | .read _ => True
  | _ => False

/-- What the handler has read is current. -/
def Fits (read : Option Snapshot) (now : Snapshot) : Duty → Prop
  | .read snap => read = some snap ∧ snap = now
  | .tell snap jv _ => read = some snap ∧ snap = now ∧ Carries snap jv
  | .greetRead _ snap => read = some snap ∧ snap = now
  | _ => True

end Duty

/-- Where a thread of `u` is in posting `do_insert`. -/
def PhasePosts (u : UserId) : Phase → Bool → Prop
  | .busy p, v => Posts u p v
  | .erasing _ _ p, v => Posts u p v
  | _, v => v = false

structure Tracks (d : Duty) (owed : UserId → Bool) (tr : List (World × Label)) (w : World) : Prop where
  channels : w.sh.channels = [none, some systemChannel, some general, some table]
  session : ∀ u, PhasePosts u (w.phase u) (owed u)
  idle : w.running = none → d = .rest
  strand : ∀ h p, w.running = some (h, p) → wp dutySpec Paid p d
  /-- Each join has been answered by an init, or its `do_insert` is running, queued or still to be
  posted. -/
  account : ∀ y, joinCount y tr =
    greetCount y tr + w.sh.queue.countP (Handler.inserts y) + d.unsent y + (owed y).toNat
  fits : d.Fits (showing tr).read w.sh.snapshot
  late : unannounced tr = true → d.Late
  view : ∀ y ∈ w.sh.users table, w.sh.expired y = false → greetCount y tr = joinCount y tr →
    d.Owes y ∨ (showing tr).Sees y w.sh.snapshot

theorem tracks_boot {w : World} (h : Booted w) : Tracks .rest (fun _ => false) [] w := by
  obtain ⟨rand, chips, before, rfl⟩ := h
  refine ⟨rfl, fun _ => rfl, fun _ => rfl, fun h p hp => (by cases hp), fun y => rfl, trivial,
    fun h => (by cases h), fun y hy => (by cases hy)⟩

/-! ### The operations -/

section act
variable {w : Shared} {c : Cmd} {y : UserId}

theorem may_postSpec {u : UserId} {v : Bool}
    (h : w.channels = [none, some systemChannel, some general, some table]) :
    (postSpec u).may v c (act c w).1 := by
  cases c with
  | «at» cid => exact fun c hc => known_at h hc
  | _ => trivial

/-- An operation of a thread of `u` keeps the account of what is queued and still to be posted. -/
theorem account_act {u : UserId} {v : Bool} (hallow : (postSpec u).allow v c) (y : UserId) :
    (c.joins y w).toNat + w.queue.countP (Handler.inserts y) + (if y = u then v.toNat else 0) =
      (act c w).2.queue.countP (Handler.inserts y) +
        if y = u then ((postSpec u).next v c (act c w).1).toNat else 0 := by
  cases c with
  | usersInsert c u' =>
    obtain ⟨rfl, rfl⟩ := hallow
    rw [act_queue_eq (by simp)]
    by_cases hy : y = u'
    · subst hy
      rw [if_pos rfl, if_pos rfl]
      have hnext : (postSpec y).next false (.usersInsert c y) (act (.usersInsert c y) w).1 =
          ((w.usersInsert c y).1 && decide (c = table)) := rfl
      rw [hnext, Shared.usersInsert, Cmd.joins]
      by_cases hc : c = table
      · subst hc
        by_cases hm : y ∈ w.users table <;> simp [hm, Nat.add_comm]
      · simp [hc]
    · simp [hy, Cmd.joins, Ne.symm hy]
  | post h =>
    have hqueue : (act (.post h) w).2.queue.countP (Handler.inserts y) =
        w.queue.countP (Handler.inserts y) + (h.inserts y).toNat := by
      show (w.queue ++ [h]).countP (Handler.inserts y) = _
      rw [List.countP_append, List.countP_singleton]
      cases h.inserts y <;> rfl
    rw [hqueue]
    cases h with
    | doInsert u' =>
      obtain ⟨rfl, rfl⟩ := hallow
      by_cases hy : y = u'
      · subst hy
        simp [Handler.inserts, Cmd.joins, postSpec]
      · simp [hy, Ne.symm hy, Handler.inserts, Cmd.joins]
    | _ => simp [Handler.inserts, Cmd.joins, postSpec]
  | _ =>
    rw [act_queue_eq (by simp)]
    simp [Cmd.joins, postSpec]

end act

/-! ### Operations of the strand -/

section advance
variable {d : Duty} {v : Showing} {w : Shared} {c : Cmd} {y : UserId}

@[simp] theorem unsent_telling (snap : Snapshot) (jv : Value) (us : List UserId) :
    (Duty.telling snap jv us).unsent y = 0 := by cases us <;> rfl

@[simp] theorem owes_telling (snap : Snapshot) (jv : Value) (us : List UserId) :
    (Duty.telling snap jv us).Owes y ↔ y ∈ us := by
  cases us with
  | nil => simp [Duty.telling, Duty.Owes]
  | cons u us => rfl

theorem fits_telling {snap : Snapshot} {jv : Value} (us : List UserId) {read : Option Snapshot}
    {now : Snapshot} (h : read = some snap ∧ snap = now ∧ Carries snap jv) :
    (Duty.telling snap jv us).Fits read now := by
  cases us with
  | nil => trivial
  | cons u us => exact h

theorem sees_pass_self {snap : Snapshot} {jv : Value} (hread : v.read = some snap)
    (hc : Carries snap jv) : (v.pass y jv).Sees y snap := by
  refine ⟨jv, ?_, hc⟩
  rw [Showing.pass, if_pos hc.isUpdate]
  show Function.update v.view y _ y = _
  rw [Function.update_self, hread]
  rfl

theorem sees_pass_ne {u : UserId} {snap : Snapshot} {jv : Value} (h : v.Sees y snap) (hy : y ≠ u) :
    (v.pass u jv).Sees y snap := by
  obtain ⟨jv', hview, hc⟩ := h
  refine ⟨jv', ?_, hc⟩
  unfold Showing.pass
  split
  · exact (Function.update_of_ne hy ..).trans hview
  · exact hview

@[simp] theorem read_pass (u : UserId) (jv : Value) : (v.pass u jv).read = v.read := by
  unfold Showing.pass
  split <;> rfl

/-- What an operation of the strand makes of what is owed and shown. -/
structure Advances (d d' : Duty) (v : Showing) (w : Shared) (c : Cmd) : Prop where
  unsent : ∀ y, (c.greets y).toNat + d'.unsent y = d.unsent y
  fits : d'.Fits (v.perform w c).read (act c w).2.snapshot
  late : c.changes w = true ∨ d.Late ∧ c.announces = false → d'.Late
  view : ∀ y ∈ w.users table, w.expired y = false →
    c.greets y = true ∨ d.Owes y ∨ v.Sees y w.snapshot →
    d'.Owes y ∨ (v.perform w c).Sees y (act c w).2.snapshot

/-- An operation of the game, which is followed by an update if it changes anything. -/
theorem advances_game {b : Bool} (hgreets : ∀ y, c.greets y = false)
    (hshow : v.perform w c = v) (hsame : b = false → (act c w).2.snapshot = w.snapshot) :
    Advances .rest (.ofChange b) v w c := by
  cases b with
  | true =>
    exact ⟨fun y => by rw [hgreets y]; rfl, trivial, fun _ => trivial, fun _ _ _ _ => .inl trivial⟩
  | false =>
    refine ⟨fun y => by rw [hgreets y]; rfl, trivial, fun h => ?_, fun y _ _ h => .inr ?_⟩
    · rcases h with h | ⟨h, -⟩
      · simp [Cmd.changes, hsame rfl] at h
      · exact h.elim
    · rw [hshow, hsame rfl]
      rcases h with h | h | h
      · rw [hgreets y] at h
        cases h
      · exact h.elim
      · exact h

/-- The other operations leave the game alone. -/
theorem not_changes (h : (act c w).2.game = w.game) : c.changes w = false := by
  simp [Cmd.changes, Shared.snapshot, h]

theorem late_of_not_changes {d' : Duty} (h : (act c w).2.game = w.game)
    (hlate : d.Late → c.announces = false → d'.Late) :
    c.changes w = true ∨ d.Late ∧ c.announces = false → d'.Late := by
  rintro (hchanges | ⟨hd, ha⟩)
  · rw [not_changes h] at hchanges
    cases hchanges
  · exact hlate hd ha

theorem advances_seats (hallow : dutySpec.allow d .seats) :
    Advances d (dutySpec.next d .seats (act .seats w).1) v w .seats := by
  rcases hallow with rfl | ⟨u, rfl⟩
  · exact ⟨fun _ => rfl, ⟨rfl, rfl⟩, fun _ => trivial, fun _ _ _ _ => .inl trivial⟩
  · refine ⟨fun y => Nat.zero_add _, ⟨rfl, rfl⟩, late_of_not_changes rfl fun h _ => h.elim,
      fun y _ _ h => .inr ?_⟩
    rcases h with h | h | h
    · cases h
    · exact h.elim
    · exact h

theorem advances_broadcast {ch : Channel} {jv : Value} (hallow : dutySpec.allow d (.broadcast ch jv))
    (hfits : d.Fits v.read w.snapshot) :
    Advances d (dutySpec.next d (.broadcast ch jv) (act (.broadcast ch jv) w).1) v w
      (.broadcast ch jv) := by
  obtain ⟨rfl, snap, rfl, hc⟩ := hallow
  show Advances _ (Duty.telling snap jv (w.users table)) v w _
  refine ⟨fun y => by rw [unsent_telling]; rfl, fits_telling _ ⟨hfits.1, hfits.2, hc⟩,
    late_of_not_changes rfl fun _ h => ?_, fun y hy _ _ => .inl ((owes_telling ..).mpr hy)⟩
  simp [Cmd.announces, hc.isUpdate] at h

theorem advances_trySend {u : UserId} {jv : Value} (hallow : dutySpec.allow d (.trySend u jv))
    (hfits : d.Fits v.read w.snapshot) :
    Advances d (dutySpec.next d (.trySend u jv) (act (.trySend u jv) w).1) v w (.trySend u jv) := by
  obtain ⟨snap, us, rfl⟩ := hallow
  obtain ⟨hread, rfl, hc⟩ := hfits
  have hgame : (act (.trySend u jv) w).2.game = w.game := by rw [act_trySend]
  have hsnap : (act (.trySend u jv) w).2.snapshot = w.snapshot := by
    rw [Shared.snapshot, hgame]
    rfl
  show Advances _ (Duty.telling w.snapshot jv us) v w _
  have hread' : (v.perform w (.trySend u jv)).read = some w.snapshot := by
    show (if w.expired u then v else v.pass u jv).read = _
    split
    · exact hread
    · rw [read_pass, hread]
  refine ⟨fun y => by rw [unsent_telling]; rfl, fits_telling _ ⟨hread', hsnap.symm, hc⟩,
    late_of_not_changes hgame fun h _ => h.elim, fun y _ halive h => ?_⟩
  rw [owes_telling, hsnap]
  show y ∈ us ∨ (if w.expired u then v else v.pass u jv).Sees y w.snapshot
  by_cases hy : y = u
  · subst hy
    rw [if_neg (by simp [halive])]
    exact .inr (sees_pass_self hread hc)
  · rcases h with h | h | h
    · cases h
    · exact .inl ((List.mem_cons.mp h).resolve_left hy)
    · right
      split
      · exact h
      · exact sees_pass_ne h hy

theorem advances_send {u : UserId} {jv : Value} (hallow : dutySpec.allow d (.send u jv))
    (hfits : d.Fits v.read w.snapshot) :
    Advances d (dutySpec.next d (.send u jv) (act (.send u jv) w).1) v w (.send u jv) := by
  rcases hallow with ⟨snap, rfl, hc⟩ | ⟨rfl, hjv⟩
  · obtain ⟨hread, rfl⟩ := hfits
    refine ⟨fun y => ?_, trivial, late_of_not_changes rfl fun h _ => h.elim, fun y _ _ h => .inr ?_⟩
    · show (decide (u = y) && isUpdate jv).toNat + 0 = if u = y then 1 else 0
      rw [hc.isUpdate]
      by_cases hy : u = y <;> simp [hy]
    · show (v.pass u jv).Sees y w.snapshot
      by_cases hy : y = u
      · subst hy
        exact sees_pass_self hread hc
      · rcases h with h | h | h
        · simp [Cmd.greets, Ne.symm hy] at h
        · exact h.elim
        · exact sees_pass_ne h hy
  · have hgreets : ∀ y, Cmd.greets y (.send u jv) = false := by simp [Cmd.greets, hjv]
    refine advances_game (b := false) hgreets ?_ fun _ => rfl
    show v.pass u jv = v
    rw [Showing.pass, hjv]
    rfl

theorem advances_readName {u : UserId} (hfits : d.Fits v.read w.snapshot) :
    Advances d d v w (.readName u) := by
  refine ⟨fun y => Nat.zero_add _, hfits, late_of_not_changes rfl fun h _ => h, fun y _ _ h => ?_⟩
  rcases h with h | h
  · cases h
  · exact h

theorem advances (hallow : dutySpec.allow d c) (hfits : d.Fits v.read w.snapshot) :
    Advances d (dutySpec.next d c (act c w).1) v w c := by
  have herror : ∀ {α : Type} {r : Except Blackjack.Error α}, r.isOk = false → ∃ e, r = .error e := by
    intro α r h
    cases r with
    | ok a => cases h
    | error e => exact ⟨e, rfl⟩
  cases c with
  | seats => exact advances_seats hallow
  | readName u =>
    rw [(idle_readName u d).2]
    exact advances_readName hfits
  | broadcast ch jv => exact advances_broadcast hallow hfits
  | trySend u jv => exact advances_trySend hallow hfits
  | send u jv => exact advances_send hallow hfits
  | join u =>
    obtain rfl : d = .rest := hallow
    refine advances_game (fun _ => rfl) rfl fun h => ?_
    obtain ⟨e, he⟩ := herror h
    show Shared.snapshot { w with game := (w.game.join u).1 } = _
    rw [Blackjack.Game.join_error he]
  | leave u =>
    obtain rfl : d = .rest := hallow
    refine advances_game (fun _ => rfl) rfl fun h => ?_
    obtain ⟨e, he⟩ := herror h
    show Shared.snapshot { w with game := (w.game.leave u).1 } = _
    rw [Blackjack.Game.leave_error he]
  | surrender u =>
    obtain rfl : d = .rest := hallow
    refine advances_game (fun _ => rfl) rfl fun h => ?_
    show Shared.snapshot { w with game := (w.game.surrender u).1 } = _
    rw [Blackjack.Game.surrender_failed (of_decide_eq_false h)]
  | bet u =>
    obtain rfl : d = .rest := hallow
    refine advances_game (fun _ => rfl) rfl fun h => ?_
    obtain ⟨e, he⟩ := herror h
    show Shared.snapshot { w with game := (w.game.bet u).1 } = _
    rw [Blackjack.Game.bet_error he]
  | dealOne =>
    obtain rfl : d = .rest := hallow
    refine advances_game (fun _ => rfl) rfl fun h => ?_
    obtain ⟨hs, hseats⟩ := Blackjack.Game.dealOne_failed h
    exact Prod.ext hs hseats
  | _ => exact hallow.elim

end advance

/-! ### Steps of sessions -/

section step
variable {d : Duty} {owed : UserId → Bool} {tr : List (World × Label)} {w t : World} {l : Label}

theorem Tracks.posts (hw : Tracks d owed tr w) {u : UserId} {p : Phase} (hp : w.phase u = p) :
    PhasePosts u p (owed u) := hp ▸ hw.session u

/-- A session that has nothing to do with the account moves on to another phase. -/
theorem Tracks.ofPhase (hw : Tracks d owed tr w) {u : UserId} {p : Phase} (sh : Shared)
    (hop : operation w l = none) (hl : tableOperation w l = none) (hp : PhasePosts u p (owed u))
    (hsh : sh = { w.sh with expired := sh.expired })
    (hexpired : ∀ y, sh.expired y = false → w.sh.expired y = false) :
    Tracks d owed (tr ++ [(w, l)]) ({ w with sh := sh }.setPhase u p) := by
  have hlate : unannounced (tr ++ [(w, l)]) = unannounced tr :=
    unannounced_idle hl (by rw [changesGame, hop]; rfl)
  rw [hsh]
  refine ⟨hw.channels, fun v => ?_, hw.idle, hw.strand, fun y => ?_, ?_, fun h => hw.late (hlate ▸ h),
    fun y hy halive hset => ?_⟩
  · by_cases hv : v = u
    · subst hv
      rw [setPhase_self]
      exact hp
    · rw [setPhase_ne _ _ hv]
      exact hw.session v
  · rw [joinCount_idle hop, greetCount_idle hl]
    exact hw.account y
  · rw [showing_idle hl]
    exact hw.fits
  · rw [joinCount_idle hop, greetCount_idle hl] at hset
    rw [showing_idle hl]
    exact hw.view y hy (hexpired y halive) hset

/-- A step of the server's strand, which does nothing but send. -/
theorem Tracks.ofServer (hw : Tracks d owed tr w) {sh : Shared} {a : Option (Remaining × List UserId)}
    (hl : tableOperation w l = none) (hjoins : ∀ y, joinsTable y w l = false)
    (hchanges : changesGame w l = false) (hsh : sh = { w.sh with mail := sh.mail }) :
    Tracks d owed (tr ++ [(w, l)]) { w with sh := sh, announcing := a } := by
  have hlate : unannounced (tr ++ [(w, l)]) = unannounced tr := unannounced_idle hl hchanges
  rw [hsh]
  refine ⟨hw.channels, hw.session, hw.idle, hw.strand, fun y => ?_, ?_, fun h => hw.late (hlate ▸ h),
    fun y hy halive hset => ?_⟩
  · rw [joinCount_aloof (hjoins y), greetCount_idle hl]
    exact hw.account y
  · rw [showing_idle hl]
    exact hw.fits
  · rw [joinCount_aloof (hjoins y), greetCount_idle hl] at hset
    rw [showing_idle hl]
    exact hw.view y hy halive hset

/-- A thread of a user performs an operation. -/
theorem Tracks.ofOp (hw : Tracks d owed tr w) {u : UserId} {v : Bool} {p : Phase} {c : Cmd}
    (hop : operation w l = some c) (hl : tableOperation w l = none)
    (hgame : (act c w.sh).2.game = w.sh.game) (hallow : (postSpec u).allow (owed u) c)
    (hv : v = (postSpec u).next (owed u) c (act c w.sh).1) (hp : PhasePosts u p v) :
    Tracks d (Function.update owed u v) (tr ++ [(w, l)])
      ({ w with sh := (act c w.sh).2 }.setPhase u p) := by
  have hsnap : (act c w.sh).2.snapshot = w.sh.snapshot := by rw [Shared.snapshot, hgame]; rfl
  have hjoin : ∀ y, joinCount y (tr ++ [(w, l)]) = joinCount y tr + (c.joins y w.sh).toNat := by
    intro y
    rw [joinCount_snoc, joinsTable, hop]
    rfl
  have hlate : unannounced (tr ++ [(w, l)]) = unannounced tr :=
    unannounced_idle hl (by rw [changesGame, hop]; exact not_changes hgame)
  refine ⟨act_fixed.1.trans hw.channels, fun y => ?_, hw.idle, hw.strand, fun y => ?_, ?_,
    fun h => hw.late (hlate ▸ h), fun y hy halive hset => ?_⟩
  · by_cases hy : y = u
    · subst hy
      rw [setPhase_self, Function.update_self]
      exact hp
    · rw [setPhase_ne _ _ hy, Function.update_of_ne hy]
      exact hw.session y
  · have hacc := account_act (w := w.sh) hallow y
    have hold := hw.account y
    rw [hjoin, greetCount_idle hl]
    show _ = greetCount y tr + (act c w.sh).2.queue.countP (Handler.inserts y) + d.unsent y +
      (Function.update owed u v y).toNat
    by_cases hy : y = u
    · subst hy
      rw [Function.update_self, hv]
      rw [if_pos rfl, if_pos rfl] at hacc
      omega
    · rw [Function.update_of_ne hy]
      rw [if_neg hy, if_neg hy] at hacc
      omega
  · show d.Fits (showing (tr ++ [(w, l)])).read (act c w.sh).2.snapshot
    rw [showing_idle hl, hsnap]
    exact hw.fits
  · have hle := hw.account y
    rw [hjoin, greetCount_idle hl] at hset
    have hno : c.joins y w.sh = false := by
      cases hj : c.joins y w.sh with
      | false => rfl
      | true =>
        rw [hj] at hset
        simp only [Bool.toNat_true] at hset
        omega
    rw [hno] at hset
    have hmem : y ∈ w.sh.users table := by
      rcases mem_users_act hy with hmem | rfl
      · exact hmem
      · by_contra hm
        simp [Cmd.joins, hm] at hno
    show d.Owes y ∨ (showing (tr ++ [(w, l)])).Sees y (act c w.sh).2.snapshot
    rw [showing_idle hl, hsnap]
    exact hw.view y hmem ((congrFun act_fixed.2 y).symm.trans halive) hset

/-! ### Steps of the strand -/

theorem dutySpec_frame {c : Cmd} (hallow : dutySpec.allow d c) :
    (∀ h, c ≠ .post h) ∧ (∀ y, c.joins y w.sh = false) ∧ ∀ ch y, c ≠ .usersInsert ch y := by
  cases c with
  | post h => exact hallow.elim
  | usersInsert c u => exact hallow.elim
  | _ => simp [Cmd.joins]

theorem Tracks.ofTable (hw : Tracks d owed tr w) {h : Handler} {c : Cmd} {k : Res c → Act Unit}
    (hrun : w.running = some (h, .call c k)) :
    Tracks (dutySpec.next d c (act c w.sh).1) owed (tr ++ [(w, .table)])
      { w with sh := (act c w.sh).2, running := some (h, k (act c w.sh).1) } := by
  obtain ⟨hallow, hk⟩ := hw.strand h _ hrun
  obtain ⟨hpost, hjoins, hinsert⟩ := dutySpec_frame (w := w) hallow
  have hop : operation w .table = some c := by simp [operation, hrun]
  have htable : tableOperation w .table = some c := by simp [tableOperation, hrun]
  have hadv := advances hallow hw.fits
  have hjoin : ∀ y, joinCount y (tr ++ [(w, .table)]) = joinCount y tr := by
    intro y
    have hno : joinsTable y w .table = false := by rw [joinsTable, hop]; exact hjoins y
    rw [joinCount_snoc, hno]
    rfl
  have hgreet : ∀ y, greetCount y (tr ++ [(w, .table)]) = greetCount y tr + (c.greets y).toNat := by
    intro y
    rw [greetCount_snoc, greets, htable]
    rfl
  have hshow : showing (tr ++ [(w, .table)]) = (showing tr).perform w.sh c := by
    rw [showing_snoc, Showing.after, htable]
  refine ⟨act_fixed.1.trans hw.channels, hw.session, fun hno => (by cases hno), fun h' p hp => ?_,
    fun y => ?_, ?_, fun hlate => ?_, fun y hy halive hset => ?_⟩
  · cases hp
    exact hk _ trivial
  · have hold := hw.account y
    have hunsent := hadv.unsent y
    rw [hjoin, hgreet]
    show _ = _ + (act c w.sh).2.queue.countP _ + _ + _
    rw [act_queue_eq hpost]
    omega
  · rw [hshow]
    exact hadv.fits
  · rw [unannounced_snoc, changesGame, hop, announces, htable, Bool.or_eq_true] at hlate
    refine hadv.late (hlate.imp id fun hb => ?_)
    rw [Bool.and_eq_true, Bool.not_eq_true'] at hb
    exact ⟨hw.late hb.1, hb.2⟩
  · have hmem : y ∈ w.sh.users table := (mem_users_act hy).resolve_right (hinsert _ _)
    have halive' : w.sh.expired y = false := (congrFun act_fixed.2 y).symm.trans halive
    rw [hshow]
    refine hadv.view y hmem halive' ?_
    rw [hjoin, hgreet] at hset
    cases hg : c.greets y with
    | true => exact .inl rfl
    | false =>
      rw [hg] at hset
      exact .inr (hw.view y hmem halive' hset)

/-- A step that changes neither what is shown nor what is counted. -/
theorem Tracks.ofStrand (hw : Tracks d owed tr w) (d' : Duty) (q : List Handler)
    (run : Option (Handler × Act Unit)) (hop : operation w .table = none)
    (hidle : run = none → d' = .rest) (hstrand : ∀ h p, run = some (h, p) → wp dutySpec Paid p d')
    (hqueue : ∀ y, q.countP (Handler.inserts y) + d'.unsent y =
      w.sh.queue.countP (Handler.inserts y) + d.unsent y)
    (hfits : d'.Fits (showing tr).read w.sh.snapshot) (hlate : d.Late → d'.Late)
    (hview : ∀ y, d.Owes y → d'.Owes y) :
    Tracks d' owed (tr ++ [(w, .table)])
      { w with sh := { w.sh with queue := q }, running := run } := by
  have htable : tableOperation w .table = none := hop
  have hun : unannounced (tr ++ [(w, .table)]) = unannounced tr :=
    unannounced_idle htable (by rw [changesGame, hop]; rfl)
  refine ⟨hw.channels, hw.session, hidle, hstrand, fun y => ?_, ?_, fun h => hlate (hw.late (hun ▸ h)),
    fun y hy halive hset => ?_⟩
  · have hold := hw.account y
    have hq := hqueue y
    rw [joinCount_idle hop, greetCount_idle htable]
    show _ = _ + q.countP _ + _ + _
    omega
  · rw [showing_idle htable]
    exact hfits
  · rw [joinCount_idle hop, greetCount_idle htable] at hset
    rw [showing_idle htable]
    exact (hw.view y hy halive hset).imp_left (hview y)

/-! ### Runs -/

theorem unsent_duty (h : Handler) (y : UserId) : h.duty.unsent y = (h.inserts y).toNat := by
  cases h with
  | doInsert u => by_cases hu : u = y <;> simp [Handler.duty, Duty.unsent, Handler.inserts, hu]
  | _ => rfl

theorem fits_duty (h : Handler) (read : Option Snapshot) (now : Snapshot) : h.duty.Fits read now := by
  cases h <;> trivial

theorem Tracks.terminate (hw : Tracks d owed tr w) : Tracks d owed tr { w with terminated := true } :=
  ⟨hw.channels, hw.session, hw.idle, hw.strand, hw.account, hw.fits, hw.late, hw.view⟩

theorem PhasePosts.perform {u : UserId} {v : Bool} {p : Phase} {c : Cmd} {next : Res c → Phase}
    (h : PhasePosts u p v) (hp : Performs p c next) : (postSpec u).allow v c ∧
      ∀ r, (postSpec u).may v c r → PhasePosts u (next r) ((postSpec u).next v c r) := by
  cases hp <;> exact h

theorem tracks_step (hw : Tracks d owed tr w) (ht : Tracked w) (hs : step w l = some t) :
    ∃ d' owed', Tracks d' owed' (tr ++ [(w, l)]) t := by
  have hop : ∀ u c next, Performs (w.phase u) c next → operation w (.session u) = some c →
      ∃ d' owed', Tracks d' owed' (tr ++ [(w, .session u)])
        ({ w with sh := (act c w.sh).2 }.setPhase u (next (act c w.sh).1)) := by
    intro u c next hp hop
    have hgame := ((ht.session u).perform hp w.sh).1
    obtain ⟨hallow, hk⟩ := (hw.session u).perform hp
    exact ⟨_, _, hw.ofOp hop rfl hgame hallow rfl (hk _ (may_postSpec hw.channels))⟩
  have hthrow : ∀ u, operation w (.session u) = none →
      ∃ d' owed', Tracks d' owed' (tr ++ [(w, .session u)]) { w with terminated := true } := by
    intro u ho
    have hstay : Tracks d owed (tr ++ [(w, .session u)]) (w.setPhase u (w.phase u)) :=
      hw.ofPhase w.sh ho rfl (hw.session u) rfl fun _ h => h
    rw [World.setPhase, Function.update_eq_self] at hstay
    exact ⟨_, _, hstay.terminate⟩
  have hphase : ∀ {u l p}, operation w l = none → tableOperation w l = none →
      PhasePosts u p (owed u) → ∃ d' owed', Tracks d' owed' (tr ++ [(w, l)]) (w.setPhase u p) :=
    fun ho htab hp => ⟨_, _, hw.ofPhase w.sh ho htab hp rfl fun _ h => h⟩
  cases step_moves hs with
  | @connect u h =>
    have hno := hw.posts h
    exact hphase rfl rfl hno
  | @frame u jv h =>
    have hno : owed u = false := hw.posts h
    exact hphase rfl rfl (hno ▸ posts_readFrame jv)
  | @sessionOp u c k h => exact hop u c (fun r => .busy (k r)) (h ▸ .busy) (by simp [operation, h])
  | @sessionDone u a h =>
    have hno := hw.posts h
    exact hphase (by simp [operation, h]) rfl hno
  | @sessionThrow u e h => exact hthrow u (by simp [operation, h])
  | @eraseLast u n k c h hlast =>
    have hno : owed u = false := hw.posts h
    exact hphase (by simp [operation, h]) rfl (hno ▸ posts_erase c)
  | @ended u n k h hmine =>
    have hno := hw.posts h
    exact hphase (by simp [operation, h]) rfl hno
  | @eraseOp u n k c k' h =>
    exact hop u c (fun r => .erasing n k (k' r)) (h ▸ .erasing) (by simp [operation, h])
  | @eraseDone u n k a h =>
    have hno := hw.posts h
    exact hphase (by simp [operation, h]) rfl hno
  | @eraseThrow u n k e h => exact hthrow u (by simp [operation, h])
  | @close u h =>
    have hno := hw.posts h
    exact hphase rfl rfl hno
  | @destroy u h hheld =>
    have hno := hw.posts h
    refine ⟨_, _, hw.ofPhase (w.expire u).sh rfl rfl hno rfl fun y hy => ?_⟩
    by_cases hyu : y = u
    · subst hyu
      have htrue : (w.expire y).sh.expired y = true := Function.update_self ..
      rw [htrue] at hy
      cases hy
    · exact (Function.update_of_ne hyu ..).symm.trans hy
  | @serve h q hrun hq =>
    obtain rfl := hw.idle hrun
    refine ⟨_, _, hw.ofStrand h.duty q _ (by simp [operation, hrun]) (fun hno => by cases hno) ?_ ?_
      (fits_duty ..) (fun hl => hl.elim) fun y hy => hy.elim⟩
    · intro h' p hp
      cases hp
      exact serve_duty h
    · intro y
      rw [hq, List.countP_cons, unsent_duty]
      cases h.inserts y <;> rfl
  | @tableOp h c k hrun => exact ⟨_, _, hw.ofTable hrun⟩
  | @tableDone h a hrun =>
    obtain rfl : d = .rest := hw.strand h _ hrun rfl
    exact ⟨_, _, hw.ofStrand .rest w.sh.queue none (by simp [operation, hrun]) (fun _ => rfl)
      (fun h' p hp => by cases hp) (fun _ => rfl) trivial id fun _ hy => hy⟩
  | @tableThrow h e hrun =>
    have hstay := hw.ofStrand d w.sh.queue w.running
      (by simp [operation, hrun]) hw.idle hw.strand (fun _ => rfl) hw.fits id fun _ hy => hy
    exact ⟨_, _, hstay.terminate⟩
  | announce h => exact ⟨_, _, hw.ofServer rfl (fun _ => rfl) (not_changes rfl) rfl⟩
  | notify h =>
    refine ⟨_, _, hw.ofServer rfl (fun y => ?_) ?_ (act_trySend ..)⟩
    · simp [joinsTable, operation, h, Cmd.joins]
    · simp only [changesGame, operation, h, Option.any_some]
      exact not_changes (by rw [act_trySend])
  | announced h =>
    exact ⟨_, _, hw.ofServer rfl (fun y => by simp [joinsTable, operation, h])
      (by simp [changesGame, operation, h]) rfl⟩

theorem tracks (hrun : Run step Booted tr w) : ∃ d owed, Tracks d owed tr w := by
  induction hrun with
  | nil h => exact ⟨_, _, tracks_boot h⟩
  | snoc hrun hs ih =>
    obtain ⟨d, owed, hw⟩ := ih
    exact tracks_step hw (tracked hrun.reachable.2) hs

/-- Between handlers, every change of the game has been broadcast, and every member of the table
whose destructor has not begun and whose `do_insert`s have all run has last been passed the current
game. -/
theorem views_converge (hrun : Run step Booted tr w) (hidle : w.running = none) :
    unannounced tr = false ∧ ∀ y ∈ w.sh.users table, w.sh.expired y = false →
      greetCount y tr = joinCount y tr → (showing tr).Sees y w.sh.snapshot := by
  obtain ⟨d, owed, hw⟩ := tracks hrun
  obtain rfl := hw.idle hidle
  constructor
  · cases hlate : unannounced tr with
    | false => rfl
    | true => exact (hw.late hlate).elim
  · intro y hy halive hset
    exact (hw.view y hy halive hset).resolve_left fun hno => hno

end step

/-- The view of user 1, who has joined the table and plays. -/
theorem views_converge_ann : ∃ tr w, Run step Booted tr w ∧ w.sh.game.users[1]? = some (some 1) ∧
    unannounced tr = false ∧ (showing tr).Sees 1 w.sh.snapshot := by
  have hidle : (after annPlays annPlays_runs).running = none :=
    Option.isNone_iff_eq_none.mp (by decide +kernel)
  have hmember : 1 ∈ (after annPlays annPlays_runs).sh.users table := by decide +kernel
  have halive : (after annPlays annPlays_runs).sh.expired 1 = false := by decide +kernel
  have hgreeted : greetCount 1 (traceOf annPlays annPlays_runs) =
      joinCount 1 (traceOf annPlays annPlays_runs) := by decide +kernel
  have hseat : (after annPlays annPlays_runs).sh.game.users[1]? = some (some 1) := by decide +kernel
  have hrun := run_after annPlays annPlays_runs
  obtain ⟨hnone, hsees⟩ := views_converge hrun hidle
  exact ⟨_, _, hrun, hseat, hnone, hsees 1 hmember halive hgreeted⟩

/-- User 1 has a seat. User 2 asks to start, the destructor of user 1 begins, and then the strand
runs the handler of user 2. -/
def annExpires : List Label :=
  annPlays ++ [.connect 2, .frame 2 (tableRequest "start")] ++ List.replicate 3 (.session 2) ++
    [.close 1, .destroy 1] ++ List.replicate 8 .table

theorem annExpires_runs : (execute step annExpires [] bootZero).isSome := by decide +kernel

/-- User 1 is still in `users_`, and is not passed the update of the deal. -/
theorem expired_left_behind : ¬∀ tr w, Run step Booted tr w → w.running = none →
    unannounced tr = false ∧ ∀ y ∈ w.sh.users table, greetCount y tr = joinCount y tr →
      (showing tr).Sees y w.sh.snapshot := by
  intro hall
  have hidle : (after annExpires annExpires_runs).running = none :=
    Option.isNone_iff_eq_none.mp (by decide +kernel)
  have hmember : 1 ∈ (after annExpires annExpires_runs).sh.users table := by decide +kernel
  have hgreeted : greetCount 1 (traceOf annExpires annExpires_runs) =
      joinCount 1 (traceOf annExpires annExpires_runs) := by decide +kernel
  have hbehind : ((showing (traceOf annExpires annExpires_runs)).view 1).map Prod.fst ≠
      some (after annExpires annExpires_runs).sh.snapshot := by decide +kernel
  obtain ⟨jv, hview, -⟩ :=
    (hall _ _ (run_after annExpires annExpires_runs) hidle).2 1 hmember hgreeted
  exact hbehind (by rw [hview]; rfl)

end BeastLounge.Lounge
