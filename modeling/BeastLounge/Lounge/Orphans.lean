import BeastLounge.Lounge.SeatHolders

/-!
# Seats of destroyed users

Once the destructor of a user has begun, no handler of the table holds the user, since only its
session posts such handlers, and the destructor begins when there are none. So nobody but a
`do_erase` touches the seat it may still have: if the destructor completes while the user has a
seat, the seat keeps the pointer until the strand takes up a `do_erase` for the user, and a destroyed
user who has a seat is one to whom this has happened (`orphaned_iff`).
-/

namespace BeastLounge.Lounge

open Theory Json Rpc

open Prog (Spec wp Keeps)

/-- The destructor has begun. -/
def Phase.gone : Phase → Prop
  | .ending _ _ => True
  | .erasing _ _ _ => True
  | .dead => True
  | _ => False

theorem gone_of_dead {p : Phase} (h : p.isDead) : p.gone := by
  cases p with
  | dead => trivial
  | _ => cases h

/-! ### Handlers and their users -/

/-- The thread posts only handlers that satisfy `P`. -/
def posterSpec (P : Handler → Prop) : Spec Res Unit where
  may _ _ _ := True
  allow
    | _, .post h => P h
    | _, _ => True
  next _ _ _ := ()

/-- What a session of `u` posts holds nobody else. -/
def HeldBy (u : UserId) (h : Handler) : Prop := ∀ v, h.holds v → v = u

def Unheld (h : Handler) : Prop := ∀ v, h.holds v = false

section posts
variable {u : UserId} {T : Exn → Prop}

theorem quiet_posterSpec (P : Handler → Prop) : Quiet (posterSpec P) where
  readName _ _ := ⟨trivial, fun _ => rfl⟩
  broadcast _ _ _ _ := ⟨trivial, fun _ => rfl⟩
  trySend _ _ _ _ _ := ⟨trivial, fun _ => rfl⟩

theorem heldBy_tableHandler {rpc : RpcCall} {h : Handler} (hu : rpc.u = u)
    (hh : tableHandler rpc = some h) : HeldBy u h := by
  intro v hv
  unfold tableHandler at hh
  split at hh <;> cases hh <;> exact (of_decide_eq_true hv).symm.trans hu

theorem readFrame_posts (jv : Value) :
    Keeps (posterSpec (HeldBy u)) (fun _ => True) (fun _ => True) (readFrame u jv) := by
  have hmember : ∀ c cmd, MemberCmd (fun _ => True) c u cmd →
      (posterSpec (HeldBy u)).Safe (fun _ => True) cmd := by
    intro c cmd hcmd v _
    cases hcmd with
    | doInsert => exact ⟨fun v hv => (of_decide_eq_true hv).symm, fun _ _ => trivial⟩
    | doErase => exact ⟨fun v hv => (by cases hv), fun _ _ => trivial⟩
    | _ => exact ⟨trivial, fun _ _ => trivial⟩
  refine keeps_readFrame (K := fun _ => True) jv ?_ (fun _ _ _ _ _ => trivial)
    (fun c _ => keeps_insert_of_safe (fun _ _ _ _ => trivial) (hmember c))
    (fun c _ => keeps_erase_of_safe (fun _ _ _ _ => trivial) fun cmd h _ => hmember c cmd h)
    fun _ _ _ _ => trivial
  intro cmd hcmd v _
  cases hcmd with
  | post hu hh => exact ⟨heldBy_tableHandler hu hh, fun _ _ => trivial⟩
  | _ => exact ⟨trivial, fun _ _ => trivial⟩

theorem erase_posts (c : Channel) : Keeps (posterSpec Unheld) (fun _ => True) T (c.erase u) := by
  rintro v -
  refine wp_erase (quiet_posterSpec _) trivial (fun _ => Prog.keeps_ok trivial) (fun _ => ?_)
  apply Prog.wp_bind.mpr
  refine Prog.wp_bind.mpr (Prog.wp_op.mpr ⟨trivial, fun erased _ => ?_⟩)
  refine Prog.wp_op.mpr ⟨trivial, fun _ _ => ?_⟩
  apply Prog.wp_bind.mpr
  unfold Channel.onErase
  split
  · exact Prog.keeps_ok trivial
  · exact Prog.keeps_ok trivial
  · exact ⟨fun v => rfl, fun _ _ => Prog.keeps_ok trivial⟩

end posts

/-- The handler `h` posts nothing, and changes the seats of users it holds only, except that
`do_erase` gives up the seat of its own. -/
def seatSpec (h : Handler) : Spec Res Unit where
  may _ _ _ := True
  allow
    | _, .join u => h.holds u
    | _, .leave u => h.holds u
    | _, .bet u => h.holds u
    | _, .surrender u => h = .doErase u
    | _, .post _ => False
    | _, _ => True
  next _ _ _ := ()

theorem serve_seats (h : Handler) :
    Keeps (seatSpec h) (fun _ => True) (fun _ => True) (serve h) := by
  have hops : ∀ c, TableCmd (fun _ => True) h c → (seatSpec h).Safe (fun _ => True) c := by
    intro c hc v _
    cases hc with
    | join hh => exact ⟨by subst hh; exact decide_eq_true rfl, fun _ _ => trivial⟩
    | leave hh => exact ⟨by subst hh; exact decide_eq_true rfl, fun _ _ => trivial⟩
    | bet hh => exact ⟨by subst hh; exact decide_eq_true rfl, fun _ _ => trivial⟩
    | surrender hh => exact ⟨hh, fun _ _ => trivial⟩
    | _ => exact ⟨trivial, fun _ _ => trivial⟩
  refine keeps_serve hops (wp_gameToJson_any ?_ fun _ => ?_) fun _ _ _ => trivial
  · exact fun v _ => ⟨trivial, fun _ _ => trivial⟩
  · exact fun v _ => ⟨trivial, fun _ _ => trivial⟩

/-- The handler leaves alone the seat of a user it neither holds nor erases. -/
theorem act_seated_iff {w : Shared} {c : Cmd} {h : Handler} {u : UserId} (hg : w.game.Seating)
    (hallow : (seatSpec h).allow () c) (hheld : h.holds u = false) (herase : h ≠ .doErase u) :
    (act c w).2.game.Seated u ↔ w.game.Seated u := by
  have hother : ∀ {v}, h.holds v → u ≠ v := by
    rintro v hv rfl
    rw [hheld] at hv
    cases hv
  cases c with
  | join v =>
    rcases (Blackjack.Game.join_seating (u := v) hg).2 with ⟨hsame, -⟩ | ⟨htakes, -⟩
    · exact iff_of_eq (congrArg (Blackjack.Game.Seated · u) hsame)
    · exact htakes.seated_iff (hother hallow)
  | leave v => exact (Blackjack.Game.leave_releases hg).1.seated_iff (hother hallow)
  | bet v => exact (Blackjack.Game.bet_releases hg).1.seated_iff (hother hallow)
  | surrender v =>
    have hne : u ≠ v := fun heq => herase (heq ▸ hallow)
    exact (Blackjack.Game.surrender_releases hg).1.seated_iff hne
  | dealOne =>
    exact (Blackjack.Game.dealOne_releases (u := u + 1) hg).1.seated_iff (Nat.ne_of_lt (Nat.lt_succ_self u))
  | usersInsert c v => rw [act_usersInsert]
  | usersErase c v => rw [act_usersErase]
  | channelsInsert v c => rw [act_channelsInsert]
  | channelsErase v c => rw [act_channelsErase]
  | trySend v jv => rw [act_trySend]
  | _ => exact Iff.rfl

/-! ### Who is held -/

def SessionPosts (u : UserId) : Phase → Prop
  | .busy p => wp (posterSpec (HeldBy u)) (fun _ _ => True) p ()
  | .erasing _ _ p => wp (posterSpec Unheld) (fun _ _ => True) p ()
  | _ => True

structure Owned (w : World) : Prop where
  session : ∀ u, SessionPosts u (w.phase u)
  strand : ∀ h p, w.running = some (h, p) → wp (seatSpec h) (fun _ _ => True) p ()
  unheld : ∀ u, (w.phase u).gone → w.held u = false

theorem owned_boot {w : World} (h : Booted w) : Owned w := by
  obtain ⟨rand, chips, before, rfl⟩ := h
  exact ⟨fun _ => trivial, fun h p hrun => (by cases hrun), fun _ hgone => hgone.elim⟩

section step
variable {w t : World} {l : Label} {u v : UserId}

theorem held_eq_false_iff : w.held u = false ↔
    (∀ h ∈ w.sh.queue, h.holds u = false) ∧ ∀ h p, w.running = some (h, p) → h.holds u = false := by
  unfold World.held
  rw [Bool.or_eq_false_iff, List.any_eq_false]
  refine and_congr (forall₂_congr fun h _ => iff_of_eq (Bool.not_eq_true _)) ?_
  cases hrun : w.running with
  | none => exact iff_of_true rfl fun h p heq => by cases heq
  | some r =>
    obtain ⟨h, p⟩ := r
    refine ⟨fun hh h' p' heq => ?_, fun hall => hall h p rfl⟩
    cases heq
    exact hh

/-- A thread that moves on without posting anything. -/
theorem Owned.ofPhase (hw : Owned w) {sh : Shared} {p : Phase} (hqueue : sh.queue = w.sh.queue)
    (hp : SessionPosts u p) (hgone : p.gone → w.held u = false) :
    Owned ({ w with sh := sh }.setPhase u p) := by
  refine ⟨fun v => ?_, hw.strand, fun v hv => ?_⟩
  · by_cases hvu : v = u
    · subst hvu
      rwa [setPhase_self]
    · rw [setPhase_ne _ _ hvu]
      exact hw.session v
  · have hheld : w.held v = false := by
      by_cases hvu : v = u
      · subst hvu
        rw [setPhase_self] at hv
        exact hgone hv
      · rw [setPhase_ne _ _ hvu] at hv
        exact hw.unheld v hv
    unfold World.held at hheld ⊢
    rwa [setPhase_sh, setPhase_running, show ({ w with sh := sh } : World).sh.queue = _ from hqueue]

/-- Nor does a destroyed user get held by what a thread posts. -/
theorem Owned.ofOp (hw : Owned w) {c : Cmd} {P : Handler → Prop} {p : Phase}
    (hallow : (posterSpec P).allow () c) (hp : SessionPosts u p) (hgone : p.gone → (w.phase u).gone)
    (hP : ∀ h, P h → ∀ v, (({ w with sh := (act c w.sh).2 } : World).setPhase u p).phase v |>.gone →
      h.holds v = false) : Owned ({ w with sh := (act c w.sh).2 }.setPhase u p) := by
  by_cases hpost : ∃ h, c = .post h
  · obtain ⟨h, rfl⟩ := hpost
    refine ⟨fun v => ?_, hw.strand, fun v hv => ?_⟩
    · by_cases hvu : v = u
      · subst hvu
        rwa [setPhase_self]
      · rw [setPhase_ne _ _ hvu]
        exact hw.session v
    · have hnew := hP h hallow v hv
      have hold : w.held v = false := by
        refine hw.unheld v ?_
        by_cases hvu : v = u
        · subst hvu
          rw [setPhase_self] at hv
          exact hgone hv
        · rwa [setPhase_ne _ _ hvu] at hv
      obtain ⟨hqueue, hrun⟩ := held_eq_false_iff.mp hold
      refine held_eq_false_iff.mpr ⟨fun h' (hh' : h' ∈ w.sh.queue ++ [h]) => ?_, hrun⟩
      rcases List.mem_append.mp hh' with hh' | hh'
      · exact hqueue h' hh'
      · exact List.mem_singleton.mp hh' ▸ hnew
  · exact hw.ofPhase (act_queue_eq fun h heq => hpost ⟨h, heq⟩) hp
      fun hp' => hw.unheld u (hgone hp')

theorem owned_step (hw : Owned w) (hs : step w l = some t) : Owned t := by
  have hphase : ∀ {u : UserId} {p : Phase}, SessionPosts u p → (p.gone → (w.phase u).gone) →
      Owned (w.setPhase u p) := fun hp hgone => hw.ofPhase rfl hp fun h => hw.unheld _ (hgone h)
  cases step_moves hs with
  | @connect u h => exact hphase trivial False.elim
  | @frame u jv h => exact hphase ((readFrame_posts jv).wp trivial) False.elim
  | @sessionOp u c k h =>
    have hu := hw.session u
    rw [h] at hu
    obtain ⟨hallow, hk⟩ := hu
    refine hw.ofOp hallow (hk _ trivial) False.elim fun h' hh' v hv => ?_
    -- the session is not over, so it is none of those that are gone
    have hvu : v ≠ u := by
      rintro rfl
      rw [setPhase_self] at hv
      exact hv
    exact Bool.eq_false_iff.mpr fun hheld => hvu (hh' v hheld)
  | @sessionDone u a h => exact hphase trivial False.elim
  | sessionThrow h => exact ⟨hw.session, hw.strand, hw.unheld⟩
  | @eraseLast u n k c h hlast =>
    exact hphase ((erase_posts (T := fun _ => True) c).wp trivial) fun _ => h ▸ trivial
  | @ended u n k h hmine => exact hphase trivial fun _ => h ▸ trivial
  | @eraseOp u n k c k' h =>
    have hu := hw.session u
    rw [h] at hu
    obtain ⟨hallow, hk⟩ := hu
    exact hw.ofOp hallow (hk _ trivial) (fun _ => h ▸ trivial) fun h' hh' v _ => hh' v
  | @eraseDone u n k a h => exact hphase trivial fun _ => h ▸ trivial
  | eraseThrow h => exact ⟨hw.session, hw.strand, hw.unheld⟩
  | @close u h => exact hphase trivial False.elim
  | @destroy u h hheld => exact hw.ofPhase rfl trivial fun _ => hheld
  | @serve h q hrun hq =>
    refine ⟨hw.session, fun h' p hp => ?_, fun v hv => ?_⟩
    · cases hp
      exact (serve_seats h).wp trivial
    · obtain ⟨hqueue, -⟩ := held_eq_false_iff.mp (hw.unheld v hv)
      rw [hq] at hqueue
      refine held_eq_false_iff.mpr ⟨fun h' hh' => hqueue h' (List.mem_cons_of_mem _ hh'), ?_⟩
      intro h' p hp
      cases hp
      exact hqueue _ List.mem_cons_self
  | @tableOp h c k hrun =>
    obtain ⟨hallow, hk⟩ := hw.strand h _ hrun
    refine ⟨hw.session, fun h' p hp => ?_, fun v hv => ?_⟩
    · cases hp
      exact hk _ trivial
    · obtain ⟨hqueue, hrunning⟩ := held_eq_false_iff.mp (hw.unheld v hv)
      have hsame : (act c w.sh).2.queue = w.sh.queue :=
        act_queue_eq fun h' heq => by subst heq; exact hallow
      refine held_eq_false_iff.mpr ⟨fun h' hh' => hqueue h' (hsame ▸ hh'), fun h' p hp => ?_⟩
      cases hp
      exact hrunning h _ hrun
  | tableDone hrun =>
    refine ⟨hw.session, fun h' p hp => (by cases hp), fun v hv => ?_⟩
    obtain ⟨hqueue, -⟩ := held_eq_false_iff.mp (hw.unheld v hv)
    exact held_eq_false_iff.mpr ⟨hqueue, fun h' p hp => by cases hp⟩
  | tableThrow hrun => exact ⟨hw.session, hw.strand, hw.unheld⟩
  | announce h => exact ⟨hw.session, hw.strand, hw.unheld⟩
  | notify h =>
    rw [act_trySend]
    exact ⟨hw.session, hw.strand, hw.unheld⟩
  | announced h => exact ⟨hw.session, hw.strand, hw.unheld⟩

theorem owned (h : Reachable step Booted w) : Owned w :=
  h.invariant (fun _ => owned_boot) fun _ _ _ => owned_step

/-! ### The seat that is left -/

/-- The strand is running a `do_erase` for the user. -/
def ErasingSeat (u : UserId) (w : World) : Prop := ∃ p, w.running = some (.doErase u, p)

/-- The user whose destructor the step completes. -/
def completing (w : World) : Label → Option UserId
  | .session u =>
    match w.phase u with
    | .ending _ _ => if w.sh.mine u = [] then some u else none
    | _ => none
  | _ => none

/-- The handler that the strand takes up. -/
def taking (w : World) : Label → Option Handler
  | .table => if w.running.isNone then w.sh.queue.head? else none
  | _ => none

/-- The destructor completes, and the user has a seat that the strand is not about to give up. -/
def Vanishes (u : UserId) (w : World) (l : Label) : Prop :=
  completing w l = some u ∧ w.sh.game.Seated u ∧ ¬ErasingSeat u w

def TakesErase (u : UserId) (w : World) (l : Label) : Prop := taking w l = some (.doErase u)

/-- The user was destroyed while it had a seat, and its `do_erase` is overdue. -/
def Overdue (u : UserId) : List (World × Label) → Prop := Since (Vanishes u) (TakesErase u)

/-- A destroyed user has a seat that the strand is not about to give up. -/
def Orphaned (u : UserId) (w : World) : Prop :=
  (w.phase u).isDead ∧ w.sh.game.Seated u ∧ ¬ErasingSeat u w

theorem completing_eq_some : completing w l = some u ↔
    l = .session u ∧ w.sh.mine u = [] ∧ ∃ n k, w.phase u = .ending n k := by
  constructor
  · intro h
    unfold completing at h
    split at h
    · split at h
      · rename_i n k hp
        split at h
        · rename_i hmine
          cases h
          exact ⟨rfl, hmine, n, k, hp⟩
        · cases h
      · cases h
    · cases h
  · rintro ⟨rfl, hmine, n, k, hp⟩
    simp only [completing, hp, hmine, if_true]

theorem erasingSeat_iff {h : Handler} {p : Act Unit} (hrun : w.running = some (h, p)) :
    ErasingSeat u w ↔ h = .doErase u := by
  constructor
  · rintro ⟨p', hp⟩
    exact (Prod.mk.inj (Option.some.inj (hrun.symm.trans hp))).1
  · rintro rfl
    exact ⟨p, hrun⟩

theorem not_erasingSeat (hrun : w.running = none) : ¬ErasingSeat u w := by
  rintro ⟨p, hp⟩
  rw [hrun] at hp
  cases hp

theorem not_takesErase (hrun : w.running.isSome) : ¬TakesErase u w l := by
  intro h
  unfold TakesErase taking at h
  split at h
  · rw [if_neg (by simpa using Option.isSome_iff_ne_none.mp hrun)] at h
    cases h
  · cases h

/-- Only the last step of the destructor makes a user a destroyed one. -/
theorem dead_step (hs : step w l = some t) (u : UserId) :
    (t.phase u).isDead ↔ completing w l = some u ∨ (w.phase u).isDead := by
  have hset : ∀ {v : UserId} {p : Phase} {sh : Shared}, (∀ u, completing w l ≠ some u) →
      (w.phase v).isDead = false → p.isDead = false →
      (((({ w with sh := sh } : World).setPhase v p).phase u).isDead ↔
        completing w l = some u ∨ (w.phase u).isDead) := by
    intro v p sh hl hv hp
    rw [or_iff_right (hl u)]
    by_cases huv : u = v
    · subst huv
      rw [setPhase_self, hp, hv]
    · rw [setPhase_ne _ _ huv]
  have hother : (∀ u, l ≠ .session u) → ∀ u, completing w l ≠ some u := fun hl u h =>
    hl u (completing_eq_some.mp h).1
  have hthread : ∀ {v p'}, l = .session v → w.phase v = p' → (∀ n k, p' ≠ .ending n k) →
      ∀ u, completing w l ≠ some u := by
    intro v p' hv hp hne u hu
    obtain ⟨rfl, -, n, k, hk⟩ := completing_eq_some.mp hu
    obtain rfl := Label.session.inj hv
    exact hne n k (hp.symm.trans hk)
  cases step_moves hs with
  | @connect v h => exact hset (hother nofun) (by rw [h]; rfl) rfl
  | @frame v jv h => exact hset (hother nofun) (by rw [h]; rfl) rfl
  | @sessionOp v c k h => exact hset (hthread rfl h nofun) (by rw [h]; rfl) rfl
  | @sessionDone v a h => exact hset (hthread rfl h nofun) (by rw [h]; rfl) rfl
  | @sessionThrow v e h => exact (or_iff_right (hthread rfl h nofun u)).symm
  | @eraseLast v n k c h hlast =>
    refine hset (fun u hu => ?_) (by rw [h]; rfl) rfl
    obtain ⟨hl, hnil, -⟩ := completing_eq_some.mp hu
    obtain rfl := Label.session.inj hl
    rw [hnil] at hlast
    cases hlast
  | @ended v n k h hmine =>
    by_cases huv : u = v
    · subst huv
      rw [setPhase_self]
      exact iff_of_true rfl (.inl (completing_eq_some.mpr ⟨rfl, hmine, n, k, h⟩))
    · rw [setPhase_ne _ _ huv]
      exact (or_iff_right fun hu => huv (Label.session.inj (completing_eq_some.mp hu).1).symm).symm
  | @eraseOp v n k c k' h => exact hset (hthread rfl h nofun) (by rw [h]; rfl) rfl
  | @eraseDone v n k a h => exact hset (hthread rfl h nofun) (by rw [h]; rfl) rfl
  | @eraseThrow v n k e h => exact (or_iff_right (hthread rfl h nofun u)).symm
  | @close v h => exact hset (hother nofun) (by rw [h]; rfl) rfl
  | @destroy v h hheld => exact hset (hother nofun) (by rw [h]; rfl) rfl
  | serve hrun hq => exact (or_iff_right (hother nofun u)).symm
  | tableOp hrun => exact (or_iff_right (hother nofun u)).symm
  | tableDone hrun => exact (or_iff_right (hother nofun u)).symm
  | tableThrow hrun => exact (or_iff_right (hother nofun u)).symm
  | announce h => exact (or_iff_right (hother nofun u)).symm
  | notify h => exact (or_iff_right (hother nofun u)).symm
  | announced h => exact (or_iff_right (hother nofun u)).symm

/-- A step keeps the seat of a destroyed user for it, unless the strand takes up its `do_erase`. -/
theorem orphaned_step (ht : Tracked w) (hw : Owned w) (hs : step w l = some t) (u : UserId) :
    Orphaned u t ↔ Vanishes u w l ∨ Orphaned u w ∧ ¬TakesErase u w l := by
  have hdead := dead_step hs u
  by_cases hl : l = .table
  · subst hl
    have hends : completing w .table ≠ some u := nofun
    have hvanishes : ¬Vanishes u w .table := fun h => hends h.1
    rw [or_iff_right hends] at hdead
    rw [or_iff_right hvanishes]
    cases step_moves hs with
    | @serve h q hrun hq =>
      have htakes : TakesErase u w .table ↔ h = .doErase u := by
        simp [TakesErase, taking, hrun, hq]
      unfold Orphaned
      rw [erasingSeat_iff rfl, htakes, hdead]
      simp only [not_erasingSeat hrun, not_false_eq_true, and_true, and_assoc]
    | @tableOp h c k hrun =>
      have htakes : ¬TakesErase u w .table := not_takesErase (hrun ▸ rfl)
      obtain ⟨hallow, -⟩ := hw.strand h _ hrun
      by_cases herase : h = .doErase u
      · exact iff_of_false (fun horphan => horphan.2.2 ((erasingSeat_iff rfl).mpr herase))
          fun horphan => horphan.1.2.2 ((erasingSeat_iff hrun).mpr herase)
      · rw [and_iff_left htakes]
        refine and_congr_right fun hd => and_congr ?_ (not_congr ?_)
        · have hheld := (held_eq_false_iff.mp (hw.unheld u (gone_of_dead hd))).2 h _ hrun
          exact act_seated_iff ht.seating hallow hheld herase
        · rw [erasingSeat_iff rfl, erasingSeat_iff hrun]
    | @tableDone h a hrun =>
      have htakes : ¬TakesErase u w .table := not_takesErase (hrun ▸ rfl)
      rw [and_iff_left htakes]
      by_cases herase : h = .doErase u
      · -- the seat has been given up when the `do_erase` ends
        subst herase
        obtain ⟨b, hsettled, hb⟩ := ht.strand _ _ hrun
        have hgone := hb (hsettled (by simp [Handler.erased])) u rfl
        exact iff_of_false (fun horphan => hgone horphan.2.1) fun horphan => hgone horphan.2.1
      · have herasing : ¬ErasingSeat u w := fun h => herase ((erasingSeat_iff hrun).mp h)
        refine and_congr_right fun _ => and_congr_right fun _ => not_congr ?_
        exact iff_of_false (not_erasingSeat rfl) herasing
    | @tableThrow h e hrun =>
      have htakes : ¬TakesErase u w .table := not_takesErase (hrun ▸ rfl)
      exact (and_iff_left htakes).symm
  · obtain ⟨hgame, hrunning⟩ := strand_frame ht hs hl
    have htakes : ¬TakesErase u w l := by
      intro h
      unfold TakesErase taking at h
      split at h
      · exact hl rfl
      · cases h
    unfold Orphaned Vanishes ErasingSeat
    rw [hdead, hgame, hrunning, and_iff_left htakes, or_and_right]

end step

/-- The users who are destroyed and have a seat are those whose `do_erase` is overdue. -/
theorem orphaned_iff {tr : List (World × Label)} {w : World} (hrun : Run step Booted tr w)
    (u : UserId) : Orphaned u w ↔ Overdue u tr := by
  induction hrun with
  | nil h =>
    refine iff_of_false ?_ not_since_nil
    rintro ⟨hdead, -⟩
    obtain ⟨rand, chips, before, rfl⟩ := h
    cases hdead
  | snoc hrun hs ih =>
    have hreach : Reachable step Booted _ := ⟨_, hrun⟩
    rw [orphaned_step (tracked hreach) (owned hreach) hs u, ih]
    exact since_snoc.symm

end BeastLounge.Lounge
