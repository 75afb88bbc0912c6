import BeastLounge.Lounge.Seats

/-!
# Seat holders over whole runs

`Tracked` says that each thread is somewhere in a program whose ghost value accounts for what it
still has to do, and that the game's seats are in order. It holds in every reachable state. Under
it, a step keeps every seat held, except for the step that takes a seat; so the seats are held
throughout a run exactly when each seat is taken by a user who holds it (`seats_held_iff`).
-/

namespace BeastLounge.Lounge

open Theory Json Rpc

open Prog (Spec wp Trace Event Keeps)

def SessionTracked (u : UserId) : Phase → Prop
  | .busy p => ∃ v, Settled u p v
  | .erasing _ _ p => ∃ v, Settled u p v
  | _ => True

structure Tracked (w : World) : Prop where
  session : ∀ u, SessionTracked u (w.phase u)
  strand : ∀ h p, w.running = some (h, p) → ∃ v, StrandSettled h p v ∧
    (v = true → ∀ u, h.erased = some u → ¬w.sh.game.Seated u)
  seating : w.sh.game.Seating

theorem tracked_boot {w : World} (h : Booted w) : Tracked w := by
  obtain ⟨rand, chips, before, rfl⟩ := h
  exact ⟨fun _ => trivial, fun h p hrun => (by cases hrun), Blackjack.Game.seating_new 1 rand chips⟩

/-! ### The game under the strand's operations -/

section strand
variable {w : Shared} {c : Cmd} {h : Handler} {b : Bool}

theorem act_game_strand (hg : w.game.Seating) :
    (act c w).2.game.Seating ∧ ∀ v, (act c w).2.game.Seated v → w.game.Seated v ∨
      c = .join v ∧ ∃ i, (w.game.join v).2 = .ok i := by
  have hsession : ∀ u, (eraseSpec u).allow false c → (act c w).2.game.Seating ∧
      ∀ v, (act c w).2.game.Seated v → w.game.Seated v ∨
        c = .join v ∧ ∃ i, (w.game.join v).2 = .ok i := by
    intro u hallow
    rw [act_game_session hallow]
    exact ⟨hg, fun v hv => .inl hv⟩
  cases c with
  | join u =>
    obtain ⟨hseating, hjoin⟩ := Blackjack.Game.join_seating (u := u) hg
    refine ⟨hseating, fun v hv => ?_⟩
    rcases hjoin with ⟨hsame, -⟩ | ⟨htakes, hok⟩
    · have hv' : (w.game.join u).1.Seated v := hv
      rw [hsame] at hv'
      exact .inl hv'
    · rcases htakes.seated hv with hv | rfl
      · exact .inl hv
      · exact .inr ⟨rfl, hok⟩
  | leave u =>
    obtain ⟨hreleases, hseating⟩ := Blackjack.Game.leave_releases (u := u) hg
    exact ⟨hseating, fun v hv => .inl (hreleases.seated hv)⟩
  | surrender u =>
    obtain ⟨hreleases, hseating, -⟩ := Blackjack.Game.surrender_releases (u := u) hg
    exact ⟨hseating, fun v hv => .inl (hreleases.seated hv)⟩
  | bet u =>
    obtain ⟨hreleases, hseating⟩ := Blackjack.Game.bet_releases (u := u) hg
    exact ⟨hseating, fun v hv => .inl (hreleases.seated hv)⟩
  | dealOne =>
    obtain ⟨hreleases, hseating⟩ := Blackjack.Game.dealOne_releases (u := 0) hg
    exact ⟨hseating, fun v hv => .inl (hreleases.seated hv)⟩
  | usersErase c u => exact hsession u rfl
  | _ => exact hsession 0 trivial

/-- Once `do_erase` has given up the seat, its user does not get another one from it. -/
theorem act_erased (hg : w.game.Seating) (hallow : (strandSpec h).allow b c)
    (hb : b = true → ∀ u, h.erased = some u → ¬w.game.Seated u)
    (hnext : (strandSpec h).next b c (act c w).1 = true) (u : UserId) (hu : h.erased = some u) :
    ¬(act c w).2.game.Seated u := by
  intro hseated
  rcases (act_game_strand hg).2 u hseated with hold | ⟨rfl, -⟩
  · by_cases hc : c = .surrender u
    · subst hc
      exact (Blackjack.Game.surrender_releases hg).2.2 hseated
    · have htrue : b = true := by
        cases c with
        | surrender u' =>
          have hne : h.erased ≠ some u' := fun h' => hc (by rw [hu] at h'; cases h'; rfl)
          have hnext' : (b || decide (h.erased = some u')) = true := hnext
          simpa [hne] using hnext'
        | _ => exact hnext
      exact hb htrue u hu hold
  · obtain ⟨rpc, rfl, -⟩ := hallow
    cases hu

end strand

/-! ### One step -/

theorem Tracked.ofSession {w : World} {sh : Shared} {u : UserId} {p : Phase} (hw : Tracked w)
    (hgame : sh.game = w.sh.game) (hp : SessionTracked u p) :
    Tracked ({ w with sh := sh }.setPhase u p) := by
  refine ⟨fun u' => ?_, fun h q hrun => ?_, ?_⟩
  · by_cases hu : u' = u
    · subst hu
      rw [setPhase_self]
      exact hp
    · rw [setPhase_ne _ _ hu]
      exact hw.session u'
  · show ∃ v, _ ∧ (v = true → ∀ u, h.erased = some u → ¬sh.game.Seated u)
    rw [hgame]
    exact hw.strand h q hrun
  · show sh.game.Seating
    rw [hgame]
    exact hw.seating

/-- An operation of a thread of `u` leaves the game alone. -/
theorem SessionTracked.perform {u : UserId} {p : Phase} {c : Cmd} {next : Res c → Phase}
    (h : SessionTracked u p) (hp : Performs p c next) (sh : Shared) :
    (act c sh).2.game = sh.game ∧ ∀ r, SessionTracked u (next r) := by
  cases hp with
  | busy =>
    obtain ⟨v, hallow, hk⟩ := h
    exact ⟨act_game_session hallow, fun r => ⟨_, hk r trivial⟩⟩
  | erasing =>
    obtain ⟨v, hallow, hk⟩ := h
    exact ⟨act_game_session hallow, fun r => ⟨_, hk r trivial⟩⟩

theorem tracked_step {w t : World} {l : Label} (hw : Tracked w) (hs : step w l = some t) :
    Tracked t := by
  have hop : ∀ u c next, Performs (w.phase u) c next →
      Tracked ({ w with sh := (act c w.sh).2 }.setPhase u (next (act c w.sh).1)) := by
    intro u c next hp
    obtain ⟨hgame, hnext⟩ := (hw.session u).perform hp w.sh
    exact hw.ofSession hgame (hnext _)
  cases step_moves hs with
  | connect h => exact hw.ofSession rfl trivial
  | @frame u jv h => exact hw.ofSession rfl ⟨false, settled_readFrame jv⟩
  | @sessionOp u c k h => exact hop u c (fun r => .busy (k r)) (h ▸ .busy)
  | sessionDone h => exact hw.ofSession rfl trivial
  | sessionThrow h => exact ⟨hw.session, hw.strand, hw.seating⟩
  | @eraseLast u n k c h hlast => exact hw.ofSession rfl ⟨false, settled_erase c⟩
  | ended h hmine => exact hw.ofSession rfl trivial
  | @eraseOp u n k c k' h => exact hop u c (fun r => .erasing n k (k' r)) (h ▸ .erasing)
  | eraseDone h => exact hw.ofSession rfl trivial
  | eraseThrow h => exact ⟨hw.session, hw.strand, hw.seating⟩
  | close h => exact hw.ofSession rfl trivial
  | destroy h hheld => exact hw.ofSession rfl trivial
  | @serve h q hrun hq =>
    refine ⟨hw.session, fun h' p hp => ?_, hw.seating⟩
    cases hp
    exact ⟨false, settled_serve h, fun hv => by cases hv⟩
  | @tableOp h c k hrun =>
    obtain ⟨v, ⟨hallow, hk⟩, hv⟩ := hw.strand h _ hrun
    refine ⟨hw.session, fun h' p hp => ?_, (act_game_strand hw.seating).1⟩
    cases hp
    exact ⟨_, hk _ trivial, act_erased hw.seating hallow hv⟩
  | tableDone hrun => exact ⟨hw.session, fun h p hp => (by cases hp), hw.seating⟩
  | tableThrow hrun => exact ⟨hw.session, hw.strand, hw.seating⟩
  | announce h => exact ⟨hw.session, hw.strand, hw.seating⟩
  | notify h =>
    rw [act_trySend]
    exact ⟨hw.session, hw.strand, hw.seating⟩
  | announced h => exact ⟨hw.session, hw.strand, hw.seating⟩

theorem tracked {w : World} (h : Reachable step Booted w) : Tracked w :=
  h.invariant (fun _ => tracked_boot) fun _ _ _ => tracked_step

/-- Only the strand's own steps change the game and the handler that is running. -/
theorem strand_frame {w t : World} {l : Label} (hw : Tracked w) (hs : step w l = some t)
    (hl : l ≠ .table) : t.sh.game = w.sh.game ∧ t.running = w.running := by
  have hop : ∀ u c next, Performs (w.phase u) c next → (act c w.sh).2.game = w.sh.game :=
    fun u c next hp => ((hw.session u).perform hp w.sh).1
  cases step_moves hs with
  | @sessionOp u c k h => exact ⟨hop u c (fun r => .busy (k r)) (h ▸ .busy), rfl⟩
  | @eraseOp u n k c k' h => exact ⟨hop u c (fun r => .erasing n k (k' r)) (h ▸ .erasing), rfl⟩
  | serve hrun hq => exact absurd rfl hl
  | tableOp hrun => exact absurd rfl hl
  | tableDone hrun => exact absurd rfl hl
  | tableThrow hrun => exact absurd rfl hl
  | notify h =>
    rw [act_trySend]
    exact ⟨rfl, rfl⟩
  | _ => exact ⟨rfl, rfl⟩

theorem not_leaving {w : World} {u : UserId} (hrest : (w.phase u).atRest) : ¬Leaving w u := by
  unfold Leaving
  intro h
  cases hp : w.phase u with
  | busy p => rw [hp] at hrest; cases hrest
  | erasing n k p => rw [hp] at hrest; cases hrest
  | _ => rw [hp] at h; exact h

theorem leaving_busy {w : World} {u : UserId} {p : Act Unit} (h : w.phase u = .busy p) :
    Leaving w u ↔ WillErase u p := by
  unfold Leaving
  rw [h]

theorem leaving_erasing {w : World} {u : UserId} {n k : Nat} {p : Act Bool}
    (h : w.phase u = .erasing n k p) : Leaving w u ↔ WillErase u p := by
  unfold Leaving
  rw [h]

/-- A hold survives a change of the phase of a session that is not in the middle of leaving. -/
theorem Held.ofPhase {w : World} {u v : UserId} {p : Phase} (hv : Held w v)
    (hu : ¬Leaving w u) : Held (w.setPhase u p) v := by
  rcases hv with hv | hv | hv
  · exact .inl hv
  · exact .inr (.inl hv)
  · right; right
    by_cases huv : v = u
    · exact absurd (huv ▸ hv) hu
    · unfold Leaving
      rw [setPhase_ne _ _ huv]
      exact hv

section operation
variable {w : World} {u : UserId} {c : Cmd} {b : Bool} {α : Type} {k : Res c → Act α}

/-- A hold survives an operation of a thread of `u`: the program that is left has taken note. -/
theorem Held.ofOp {v : UserId} {p : Phase} (hv : Held w v) (hallow : (eraseSpec u).allow b c)
    (hk : Settled u (k (act c w.sh).1) ((eraseSpec u).next b c (act c w.sh).1))
    (hbefore : Leaving w u → WillErase u (.call c k))
    (hafter : ∀ sh, WillErase u (k (act c w.sh).1) →
      Leaving ({ w with sh := sh }.setPhase u p) u) :
    Held ({ w with sh := (act c w.sh).2 }.setPhase u p) v := by
  rcases hv with hv | hv | hv
  · rcases act_users_erase hallow hv with hv | ⟨rfl, hnext⟩
    · exact .inl hv
    · rw [hnext] at hk
      exact .inr (.inr (hafter _ (willErase_of_settled hk)))
  · rcases hv with hv | hv
    · exact .inr (.inl (.inl (act_queue hv)))
    · exact .inr (.inl (.inr hv))
  · by_cases huv : v = u
    · subst huv
      have hwill := hbefore hv
      by_cases hc : c = .post (.doErase v)
      · subst hc
        exact .inr (.inl (.inl (List.mem_append_right _ (List.mem_singleton_self _))))
      · refine .inr (.inr (hafter _ fun tr o ht => ?_))
        rcases List.mem_cons.mp (hwill _ _ (.call ht)) with hhead | htail
        · exact absurd (congrArg Sigma.fst hhead).symm hc
        · exact htail
    · right; right
      unfold Leaving
      rw [setPhase_ne _ _ huv]
      exact hv

end operation

theorem held_step {w t : World} {l : Label} (hw : Tracked w) (hseats : SeatsHeld w)
    (hplay : PlayHeld w l) (hs : step w l = some t) : SeatsHeld t := by
  have hphase : ∀ (u : UserId) (p : Phase), ¬Leaving w u → SeatsHeld (w.setPhase u p) :=
    fun u p hu v hv => (hseats v hv).ofPhase hu
  have hnot : ∀ {u : UserId} {p : Phase}, w.phase u = p → p.atRest → ¬Leaving w u :=
    fun hp hrest => not_leaving (hp ▸ hrest)
  intro v hv
  cases step_moves hs with
  | @connect u h => exact hphase u _ (hnot h rfl) v hv
  | @frame u jv h => exact hphase u _ (hnot h rfl) v hv
  | @sessionOp u c k h =>
    have hu := hw.session u
    rw [h] at hu
    obtain ⟨b, hallow, hk⟩ := hu
    have hseated : w.sh.game.Seated v := act_game_session (w := w.sh) hallow ▸ hv
    exact (hseats v hseated).ofOp hallow (hk _ trivial) (leaving_busy h).mp
      fun sh => (leaving_busy (setPhase_self ..)).mpr
  | @sessionDone u a h =>
    exact hphase u _ (fun hl => not_willErase_pure a ((leaving_busy h).mp hl)) v hv
  | sessionThrow h => exact hseats v hv
  | @eraseLast u n k c h hlast => exact hphase u _ (hnot h rfl) v hv
  | @ended u n k h hmine => exact hphase u _ (hnot h rfl) v hv
  | @eraseOp u n k c k' h =>
    have hu := hw.session u
    rw [h] at hu
    obtain ⟨b, hallow, hk⟩ := hu
    have hseated : w.sh.game.Seated v := act_game_session (w := w.sh) hallow ▸ hv
    exact (hseats v hseated).ofOp hallow (hk _ trivial) (leaving_erasing h).mp
      fun sh => (leaving_erasing (setPhase_self ..)).mpr
  | @eraseDone u n k a h =>
    exact hphase u _ (fun hl => not_willErase_pure a ((leaving_erasing h).mp hl)) v hv
  | eraseThrow h => exact hseats v hv
  | @close u h => exact hphase u _ (hnot h rfl) v hv
  | @destroy u h hheld =>
    have hexpire : Held (w.expire u) v := hseats v hv
    exact hexpire.ofPhase (hnot h rfl)
  | @serve h q hrun hq =>
    rcases hseats v hv with hmem | hpending | hleaving
    · exact .inl hmem
    · rcases hpending with hqueue | ⟨p, hp⟩
      · rw [hq] at hqueue
        rcases List.mem_cons.mp hqueue with rfl | hqueue
        · exact .inr (.inl (.inr ⟨_, rfl⟩))
        · exact .inr (.inl (.inl hqueue))
      · rw [hrun] at hp
        cases hp
    · exact .inr (.inr hleaving)
  | @tableOp h c k hrun =>
    obtain ⟨b, ⟨hallow, hk⟩, hb⟩ := hw.strand h _ hrun
    have hheld : Held w v := by
      rcases (act_game_strand hw.seating).2 v hv with hold | ⟨rfl, hok⟩
      · exact hseats v hold
      · exact hplay v (by simp [joining, hrun]) hok
    rcases hheld with hmem | hpending | hleaving
    · refine .inl (act_users ?_ hmem)
      rintro c' rfl
      exact hallow
    · rcases hpending with hqueue | ⟨p, hp⟩
      · exact .inr (.inl (.inl (act_queue hqueue)))
      · rw [hrun] at hp
        cases hp
        exact .inr (.inl (.inr ⟨_, rfl⟩))
    · exact .inr (.inr hleaving)
  | @tableDone h a hrun =>
    rcases hseats v hv with hmem | hpending | hleaving
    · exact .inl hmem
    · rcases hpending with hqueue | ⟨p, hp⟩
      · exact .inr (.inl (.inl hqueue))
      · -- the strand was done with the `do_erase`: the seat is given up
        obtain ⟨b, hsettled, hb⟩ := hw.strand h _ hrun
        rw [hrun] at hp
        cases hp
        exact absurd hv (hb (hsettled (by simp [Handler.erased])) v rfl)
    · exact .inr (.inr hleaving)
  | tableThrow hrun => exact hseats v hv
  | announce h => exact hseats v hv
  | notify h =>
    rw [act_trySend] at hv ⊢
    exact hseats v hv
  | announced h => exact hseats v hv

/-- A seat that is not held when it is taken is not held afterwards. -/
theorem playHeld_of_held {w t : World} {l : Label} (hw : Tracked w) (ht : SeatsHeld t)
    (hs : step w l = some t) : PlayHeld w l := by
  intro u hjoin ⟨i, hok⟩
  cases step_moves hs with
  | @tableOp h c k hrun =>
    cases c with
    | join u' =>
      simp only [joining, hrun, Option.some.injEq] at hjoin
      subst hjoin
      have hheld := ht u' (Blackjack.Game.seated_of_join hw.seating hok)
      rcases hheld with hmem | (hqueue | ⟨p, hp⟩) | hleaving
      · exact .inl hmem
      · exact .inr (.inl (.inl hqueue))
      · cases hp
        exact .inr (.inl (.inr ⟨_, hrun⟩))
      · exact .inr (.inr hleaving)
    | _ => simp [joining, hrun] at hjoin
  | serve hrun hq => simp [joining, hrun] at hjoin
  | tableDone hrun => simp [joining, hrun] at hjoin
  | tableThrow hrun => simp [joining, hrun] at hjoin
  | _ => cases hjoin

/-! ### Runs -/

theorem seatsHeld_boot {w : World} (h : Booted w) : SeatsHeld w := by
  obtain ⟨rand, chips, before, rfl⟩ := h
  intro u hu
  have husers : (boot rand chips before).sh.game.users = [none, none, none, none, none, none] := rfl
  unfold Blackjack.Game.Seated at hu
  rw [husers] at hu
  simp at hu

/-- The seats are held throughout a run in which they are held when they are taken. -/
theorem seatsHeld_of_playHeld {tr : List (World × Label)} {w : World}
    (hrun : Run step Booted tr w) (hplay : AllSteps PlayHeld tr) : AllStates SeatsHeld tr w := by
  have hinv := hrun.invariant (I := fun s => Tracked s ∧ SeatsHeld s) (P := PlayHeld)
    (fun s hs => ⟨tracked_boot hs, seatsHeld_boot hs⟩)
    (fun s l t hs hl hst => ⟨tracked_step hs.1 hst, held_step hs.1 hs.2 hl hst⟩) hplay
  exact hinv.mono fun _ h => h.2

/-- Every seated user is a member of the table or about to lose the seat, throughout a run, exactly
when that is so whenever a seat is taken. In such a run a seated user whose session is at rest is a
member or has a `do_erase` pending; so one who is no member has no seat when the strand has run
everything posted to it. -/
theorem seats_held_iff {tr : List (World × Label)} {w : World} (hrun : Run step Booted tr w) :
    (AllSteps PlayHeld tr ↔ AllStates SeatsHeld tr w) ∧
      (AllSteps PlayHeld tr → AllStates (fun s => ∀ u, (s.phase u).atRest →
        (s.sh.game.Seated u → u ∈ s.sh.users table ∨ ErasePending s u) ∧
          (u ∉ s.sh.users table → s.sh.queue = [] → s.running = none → ¬s.sh.game.Seated u))
        tr w) := by
  have hrest : ∀ s, SeatsHeld s → ∀ u, (s.phase u).atRest →
      s.sh.game.Seated u → u ∈ s.sh.users table ∨ ErasePending s u := by
    intro s hs u hu hseated
    rcases hs u hseated with hmem | hpending | hleaving
    · exact .inl hmem
    · exact .inr hpending
    · exact absurd hleaving (not_leaving hu)
  refine ⟨⟨seatsHeld_of_playHeld hrun, fun hseats => ?_⟩, fun hplay =>
    (seatsHeld_of_playHeld hrun hplay).mono fun s hs u hu =>
    ⟨hrest s hs u hu, fun hmem hqueue hidle hseated => ?_⟩⟩
  · have hall : AllStates (fun s => Tracked s ∧ SeatsHeld s) tr w :=
      ⟨fun x hx => ⟨tracked (hrun.reachable.1 x hx), hseats.1 x hx⟩,
        tracked hrun.reachable.2, hseats.2⟩
    exact hrun.allSteps_of_allStates hall fun s l t hs hst ht => playHeld_of_held hs.1 ht.2 hst
  · rcases hrest s hs u hu hseated with hm | hq | ⟨p, hp⟩
    · exact hmem hm
    · rw [hqueue] at hq
      cases hq
    · rw [hidle] at hp
      cases hp

/-- The user whom the step seats is a member of the table. -/
def playByMember (w : World) (l : Label) : Bool :=
  (joining w l).all fun u => decide (u ∈ w.sh.users table)

theorem playHeld_of_member {w : World} {l : Label} (h : playByMember w l) : PlayHeld w l := by
  intro u hu _
  unfold playByMember at h
  rw [hu] at h
  exact .inl (by simpa using h)

/-- A request to the table with no further parameters. -/
def tableRequest (method : String) : Value := request method [("cid", .number (.int 3))]

/-- User 1 sets its identity, joins the table and plays. -/
def annPlays : List Label :=
  [.connect 1, .frame 1 (request "identify" [("cid", .number (.int 1)), ("name", .string "ann")])] ++
    List.replicate 11 (.session 1) ++ [.frame 1 (tableRequest "join")] ++
    List.replicate 11 (.session 1) ++ [.frame 1 (tableRequest "play")] ++
    List.replicate 3 (.session 1) ++ List.replicate 12 .table

theorem annPlays_runs : (execute step annPlays [] bootZero).isSome := by decide +kernel

theorem seats_held_ann :
    ∃ tr w, Run step Booted tr w ∧ w.sh.game.users[1]? = some (some 1) ∧ AllStates SeatsHeld tr w := by
  have hmember : AllSteps (fun s l => playByMember s l) (traceOf annPlays annPlays_runs) := by
    decide +kernel
  have hseat : (after annPlays annPlays_runs).sh.game.users[1]? = some (some 1) := by decide +kernel
  have hplay : AllSteps PlayHeld (traceOf annPlays annPlays_runs) :=
    fun x hx => playHeld_of_member (hmember x hx)
  have hrun := run_after annPlays annPlays_runs
  exact ⟨_, _, hrun, hseat, (seats_held_iff hrun).1.mp hplay⟩

/-- User 1 asks to play at the table without having joined it. -/
def strangerPlays : List Label :=
  [.connect 1, .frame 1 (tableRequest "play")] ++ List.replicate 3 (.session 1) ++
    List.replicate 2 .table

theorem strangerPlays_runs : (execute step strangerPlays [] bootZero).isSome := by decide +kernel

theorem not_held {w : World} {u : UserId} (hrest : (w.phase u).atRest)
    (husers : w.sh.users table = []) (hqueue : w.sh.queue.length = 0)
    (hidle : w.running.bind (fun r => r.1.erased) = none) : ¬Held w u := by
  rintro (hmem | (hq | ⟨p, hp⟩) | hleaving)
  · rw [husers] at hmem
    cases hmem
  · rw [List.length_eq_zero_iff.mp hqueue] at hq
    cases hq
  · rw [hp] at hidle
    cases hidle
  · exact not_leaving hrest hleaving

/-- The stranger has a seat, is no member of the table, and no `do_erase` is pending. -/
theorem stranger_seated : ¬∀ tr w, Run step Booted tr w → AllStates SeatsHeld tr w := by
  intro hall
  have hseat : some 1 ∈ (after strangerPlays strangerPlays_runs).sh.game.users := by decide +kernel
  have hheld := (hall _ _ (run_after strangerPlays strangerPlays_runs)).2 1 hseat
  exact not_held (by decide +kernel) (by decide +kernel) (by decide +kernel) (by decide +kernel) hheld

end BeastLounge.Lounge
