import BeastLounge.Lounge.Orphans

/-!
# Snapshots and the life of users

`game::to_json` reads the name of every seated user through the pointer in the seat, and a `do_erase`
gives up the seat before it serializes the game. What is left is a user whose `do_erase` is still
queued: the destructor has posted it and may have completed before the handlers ahead of it have run.
So a snapshot mentions existing users only exactly when none is made between the end of such a
destructor and the moment the strand takes up the `do_erase` (`names_exist_iff`).
-/

namespace BeastLounge.Lounge

open Theory Json Rpc

/-- The step is one of an evaluation of `game::to_json`: it reads the seats, or a name. -/
def evaluating (w : World) : Label → Bool
  | .table =>
    match w.running with
    | some (_, .call .seats _) => true
    | some (_, .call (.readName _) _) => true
    | _ => false
  | _ => false

/-- When the game is serialized, no destructor of a seated user has completed. -/
def NamesExist (w : World) (l : Label) : Prop :=
  evaluating w l → ∀ u, w.sh.game.Seated u → (w.phase u).isDead = false

instance (w : World) (l : Label) : Decidable (NamesExist w l) :=
  decidable_of_iff (evaluating w l → ∀ o ∈ w.sh.game.users, ∀ u ∈ o, (w.phase u).isDead = false)
    ⟨fun h heval u hu => h heval (some u) hu u rfl,
      fun h heval _ ho u hu => by
        cases Option.mem_def.mp hu
        exact h heval u ho⟩

/-- When the game is serialized, no user is waiting for its `do_erase` who was destroyed while it had
a seat. -/
def ErasedInTime (tr : List (World × Label)) : Prop :=
  ∀ pre w l post, tr = pre ++ (w, l) :: post → evaluating w l → ∀ u, ¬Overdue u pre

/-- The strand serializes the game in a `do_erase` only after the seat is given up. -/
theorem not_seated_of_evaluating {w : World} {l : Label} {u : UserId} {p : Act Unit}
    (hw : Tracked w) (heval : evaluating w l) (hrun : w.running = some (.doErase u, p)) :
    ¬w.sh.game.Seated u := by
  obtain ⟨v, hsettled, hv⟩ := hw.strand _ _ hrun
  have herased : (Handler.doErase u).erased ≠ none := by simp [Handler.erased]
  apply hv _ u rfl
  cases l with
  | table =>
    simp only [evaluating, hrun] at heval
    split at heval
    · rename_i k heq
      cases heq
      exact hsettled.1 herased
    · rename_i u' k heq
      cases heq
      exact hsettled.1 herased
    · cases heval
  | _ => cases heval

/-- The names of a snapshot are those of existing users exactly when no destroyed user has a seat
that the strand is not about to give up. -/
theorem namesExist_iff {w : World} {l : Label} (hw : Tracked w) :
    NamesExist w l ↔ (evaluating w l → ∀ u, ¬Orphaned u w) := by
  refine forall_congr' fun heval => forall_congr' fun u => ?_
  constructor
  · rintro h ⟨hdead, hseated, -⟩
    rw [h hseated] at hdead
    cases hdead
  · intro h hseated
    refine Bool.eq_false_iff.mpr fun hdead => h ⟨hdead, hseated, ?_⟩
    rintro ⟨p, hrun⟩
    exact not_seated_of_evaluating hw heval hrun hseated

theorem erasedInTime_iff {tr : List (World × Label)} {w : World} (hrun : Run step Booted tr w) :
    ErasedInTime tr ↔ AllSteps (fun s l => evaluating s l → ∀ u, ¬Orphaned u s) tr := by
  constructor
  · rintro h ⟨s, l⟩ hx heval u
    obtain ⟨pre, post, rfl⟩ := List.append_of_mem hx
    rw [orphaned_iff hrun.before u]
    exact h pre s l post rfl heval u
  · rintro h pre s l post rfl heval u
    rw [← orphaned_iff hrun.before u]
    exact h (s, l) (List.mem_append_right _ List.mem_cons_self) heval u

/-- Every snapshot of the game mentions existing users only, exactly when none is made after the
destructor of a user who has a seat has completed and before the strand takes up a `do_erase` for
the user. -/
theorem names_exist_iff {tr : List (World × Label)} {w : World} (hrun : Run step Booted tr w) :
    AllSteps NamesExist tr ↔ ErasedInTime tr := by
  rw [erasedInTime_iff hrun]
  exact forall₂_congr fun x hx => namesExist_iff (tracked (hrun.reachable.1 x hx))

/-- User 1 joins the table, plays and disconnects; it is destroyed, and the strand gives up its
seat. -/
def annErased : List Label :=
  annPlays ++ [.close 1, .destroy 1] ++ List.replicate 18 (.session 1) ++ List.replicate 4 .table

theorem annErased_runs : (execute step annErased [] bootZero).isSome := by decide +kernel

/-- The snapshot for the last update is made when the seat has been given up. -/
theorem names_exist_ann : ∃ tr w, Run step Booted tr w ∧ (w.phase 1).isDead ∧
    (tr.any fun x => evaluating x.1 x.2 && (x.1.phase 1).isDead) ∧ AllSteps NamesExist tr := by
  have hrun := run_after annErased annErased_runs
  have halive : AllSteps (fun s l => evaluating s l → ∀ o ∈ s.sh.game.users, ∀ u ∈ o,
      (s.phase u).isDead = false) (traceOf annErased annErased_runs) := by decide +kernel
  have htime : ErasedInTime (traceOf annErased annErased_runs) := by
    refine (erasedInTime_iff hrun).mpr fun x hx heval u => ?_
    rintro ⟨hdead, hseated, -⟩
    have hu := halive x hx heval (some u) hseated u rfl
    rw [hdead] at hu
    cases hu
  exact ⟨_, _, hrun, by decide +kernel, by decide +kernel, (names_exist_iff hrun).mpr htime⟩

/-- User 1 has a seat. User 2 asks to start, user 1 disconnects and is destroyed, and then the strand
runs the handler of user 2. -/
def annVanishes : List Label :=
  annPlays ++ [.connect 2, .frame 2 (tableRequest "start")] ++ List.replicate 3 (.session 2) ++
    [.close 1, .destroy 1] ++ List.replicate 18 (.session 1) ++ List.replicate 3 .table

theorem annVanishes_runs : (execute step annVanishes [] bootZero).isSome := by decide +kernel

/-- The snapshot taken for user 2 mentions the destroyed user. -/
theorem snapshot_of_destroyed :
    ¬∀ tr w, Run step Booted tr w → AllSteps (fun s l => playByMember s l) tr →
      AllSteps NamesExist tr := by
  intro hall
  have hmember : AllSteps (fun s l => playByMember s l) (traceOf annVanishes annVanishes_runs) := by
    decide +kernel
  have hbad : ((traceOf annVanishes annVanishes_runs).any fun x =>
      evaluating x.1 x.2 && decide (some 1 ∈ x.1.sh.game.users) && (x.1.phase 1).isDead) = true := by
    decide +kernel
  obtain ⟨x, hx, hxbad⟩ := List.any_eq_true.mp hbad
  simp only [Bool.and_eq_true, decide_eq_true_eq] at hxbad
  obtain ⟨⟨heval, hseat⟩, hdead⟩ := hxbad
  have halive := hall _ _ (run_after annVanishes annVanishes_runs) hmember x hx
    heval 1 hseat
  rw [hdead] at halive
  cases halive

end BeastLounge.Lounge
