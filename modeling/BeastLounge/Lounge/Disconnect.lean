import BeastLounge.Lounge.Membership

/-!
# Membership over whole runs

Every session's program, and every iteration of a destructor, started from a symmetric view and will
leave one, and since only the thread of a user changes the view of that user, this can be said of
the programs that are still running (`SessionOk`). The invariant of all threads (`Consistent`) holds
in every reachable state. At the head of the destructor's loop it counts the iterations: those done
and the channels left are as many as there were channels; so the loop runs once for each of them,
and it ends when the destructor keeps being scheduled.
-/

namespace BeastLounge.Lounge

open Theory Json Rpc

open Prog (Spec wp Keeps)

/-- What holds of the view of `u` when its session is in this phase. -/
def SessionOk (u : UserId) (v : View) : Phase → Prop
  | .absent => v.Symmetric ∧ v.mine = []
  | .idle => v.Symmetric
  | .busy p => wp (memberSpec u) (fun _ v => v.Symmetric) p v
  | .closed => v.Symmetric
  | .ending n k => v.Symmetric ∧ k + v.mine.length = n
  | .erasing n k p =>
    wp (memberSpec u) (fun o v => o = .ok true ∧ v.Symmetric ∧ k + 1 + v.mine.length = n) p v
  | .dead => v.Symmetric ∧ v.mine = []

structure Consistent (w : World) : Prop where
  session : ∀ u, SessionOk u (view w.sh u) (w.phase u)
  strand : ∀ h p, w.running = some (h, p) → wp tableSpec (fun _ _ => True) p ()
  verified : w.sh.verifyFailed = false

theorem consistent_boot {w : World} (h : Booted w) : Consistent w := by
  obtain ⟨rand, chips, before, rfl⟩ := h
  refine ⟨fun u => ⟨⟨List.nodup_nil, fun c => ?_⟩, rfl⟩, fun h p hrun => ?_, rfl⟩
  · show u ∈ [] ↔ c ∈ []
    simp
  · cases hrun

/-! ### One step -/

/-- A step of the thread of `u` that leaves the other views alone. -/
theorem Consistent.ofSession {w : World} {sh : Shared} {u : UserId} {p : Phase}
    (hw : Consistent w) (hne : ∀ u', u' ≠ u → view sh u' = view w.sh u')
    (hverified : sh.verifyFailed = false) (hp : SessionOk u (view sh u) p) :
    Consistent ({ w with sh := sh }.setPhase u p) := by
  refine ⟨fun u' => ?_, hw.strand, hverified⟩
  by_cases hu : u' = u
  · subst hu
    rw [setPhase_self]
    exact hp
  · rw [setPhase_ne _ _ hu]
    show SessionOk u' (view sh u') (w.phase u')
    rw [hne u' hu]
    exact hw.session u'

theorem Consistent.ofPhase {w : World} {u : UserId} {p : Phase} (hw : Consistent w)
    (hp : SessionOk u (view w.sh u) p) : Consistent (w.setPhase u p) :=
  hw.ofSession (fun _ _ => rfl) hw.verified hp

theorem SessionOk.perform {u : UserId} {v : View} {p : Phase} {c : Cmd} {next : Res c → Phase}
    (h : SessionOk u v p) (hp : Performs p c next) : (memberSpec u).allow v c ∧
      ∀ r, (memberSpec u).may v c r → SessionOk u ((memberSpec u).next v c r) (next r) := by
  cases hp <;> exact h

theorem consistent_step {w t : World} {l : Label} (hw : Consistent w) (hs : step w l = some t) :
    Consistent t := by
  have hop : ∀ u c next, Performs (w.phase u) c next →
      Consistent ({ w with sh := (act c w.sh).2 }.setPhase u (next (act c w.sh).1)) := by
    intro u c next hp
    obtain ⟨hallow, hk⟩ := (hw.session u).perform hp
    obtain ⟨hmay, hnext⟩ := act_memberSpec w.sh u hallow
    apply hw.ofSession (fun u' hne => act_view_ne w.sh u hallow hne)
    · rw [act_verifyFailed w.sh u hallow]
      exact hw.verified
    · rw [hnext]
      exact hk _ hmay
  cases step_moves hs with
  | @connect u h =>
    have hu := hw.session u
    rw [h] at hu
    exact hw.ofPhase hu.1
  | @frame u jv h =>
    have hu := hw.session u
    rw [h] at hu
    exact hw.ofPhase ((readFrame_symmetric jv).wp hu)
  | @sessionOp u c k h => exact hop u c (fun r => .busy (k r)) (h ▸ .busy)
  | @sessionDone u a h =>
    have hu := hw.session u
    rw [h] at hu
    exact hw.ofPhase hu
  | sessionThrow h => exact ⟨hw.session, hw.strand, hw.verified⟩
  | @eraseLast u n k c h hlast =>
    have hu := hw.session u
    rw [h] at hu
    obtain ⟨hsym, hn⟩ := hu
    have hc : c ∈ w.sh.mine u := List.mem_of_getLast? hlast
    apply hw.ofPhase
    refine wp_erase_memb hsym hc ⟨rfl, hsym.erase, ?_⟩
    show k + 1 + ((w.sh.mine u).erase c).length = n
    have hlen := List.length_erase_of_mem hc
    have hpos := List.length_pos_of_mem hc
    have hn' : k + (w.sh.mine u).length = n := hn
    omega
  | @ended u n k h hmine =>
    have hu := hw.session u
    rw [h] at hu
    exact hw.ofPhase ⟨hu.1, hmine⟩
  | @eraseOp u n k c k' h => exact hop u c (fun r => .erasing n k (k' r)) (h ▸ .erasing)
  | @eraseDone u n k a h =>
    have hu := hw.session u
    rw [h] at hu
    exact hw.ofPhase hu.2
  | eraseThrow h => exact ⟨hw.session, hw.strand, hw.verified⟩
  | @close u h =>
    have hu := hw.session u
    rw [h] at hu
    exact hw.ofPhase hu
  | @destroy u h hheld =>
    have hu := hw.session u
    rw [h] at hu
    exact hw.ofSession (fun _ _ => rfl) hw.verified ⟨hu, Nat.zero_add _⟩
  | @serve h q hrun hq =>
    refine ⟨hw.session, fun h' p hp => ?_, hw.verified⟩
    cases hp
    exact (serve_tableSpec h).wp trivial
  | @tableOp h c k hrun =>
    obtain ⟨hallow, hk⟩ := hw.strand h _ hrun
    refine ⟨fun u => ?_, fun h' p hp => ?_, ?_⟩
    · obtain ⟨-, hnext⟩ := act_memberSpec w.sh u (hallow u _)
      have hother : view (act c w.sh).2 u = view w.sh u :=
        act_view_ne w.sh (u + 1) (hallow (u + 1) (view w.sh u)) (Nat.ne_of_lt (Nat.lt_succ_self u))
      show SessionOk u (view (act c w.sh).2 u) (w.phase u)
      rw [hother]
      exact hw.session u
    · cases hp
      exact hk _ trivial
    · show (act c w.sh).2.verifyFailed = false
      rw [act_verifyFailed w.sh 0 (hallow 0 (view w.sh 0))]
      exact hw.verified
  | tableDone hrun => exact ⟨hw.session, fun h p hp => (by cases hp), hw.verified⟩
  | tableThrow hrun => exact ⟨hw.session, hw.strand, hw.verified⟩
  | announce h => exact ⟨hw.session, hw.strand, hw.verified⟩
  | notify h =>
    rw [act_trySend]
    exact ⟨hw.session, hw.strand, hw.verified⟩
  | announced h => exact ⟨hw.session, hw.strand, hw.verified⟩

theorem consistent {w : World} (h : Reachable step Booted w) : Consistent w :=
  h.invariant (fun _ => consistent_boot) fun _ _ _ => consistent_step

/-! ### What the invariant says at rest -/

theorem Consistent.symmetric {w : World} (hw : Consistent w) {u : UserId}
    (hrest : (w.phase u).atRest) : (view w.sh u).Symmetric := by
  have hu := hw.session u
  cases hp : w.phase u with
  | absent => rw [hp] at hu; exact hu.1
  | idle => rw [hp] at hu; exact hu
  | busy p => rw [hp] at hrest; cases hrest
  | closed => rw [hp] at hu; exact hu
  | ending n k => rw [hp] at hu; exact hu.1
  | erasing n k p => rw [hp] at hrest; cases hrest
  | dead => rw [hp] at hu; exact hu.1

theorem Consistent.dead {w : World} (hw : Consistent w) {u : UserId} (hp : w.phase u = .dead)
    (c : Channel) : u ∉ w.sh.users c := by
  have hu := hw.session u
  rw [hp] at hu
  intro hc
  have hmine : c ∈ w.sh.mine u := (hu.1.memb_iff c).mp hc
  have hnil : w.sh.mine u = [] := hu.2
  rw [hnil] at hmine
  cases hmine

theorem Consistent.count {w : World} (hw : Consistent w) {u : UserId} {n k : Nat}
    (hp : w.phase u = .ending n k) : k + (w.sh.mine u).length = n := by
  have hu := hw.session u
  rw [hp] at hu
  exact hu.2

/-! ### The destructor's loop ends -/

/-- The destructor is in its loop, which began with `n` channels. -/
def Phase.Looping (n : Nat) : Phase → Prop
  | .ending n' _ => n' = n
  | .erasing n' _ _ => n' = n
  | _ => False

/-- Only the destructor's own steps move it. -/
theorem looping_phase {w t : World} {l : Label} {u : UserId} {n : Nat}
    (hloop : (w.phase u).Looping n) (hl : l ≠ .session u) (hs : step w l = some t) :
    t.phase u = w.phase u := by
  have hset : ∀ (sh : Shared) (u' : UserId) (p : Phase), u' ≠ u →
      ({ w with sh := sh }.setPhase u' p).phase u = w.phase u := fun sh u' p hne =>
    setPhase_ne _ _ hne.symm
  have hsession : ∀ u' : UserId, l = .session u' → u' ≠ u := fun u' h hu => hl (hu ▸ h)
  have hnot : ∀ (u' : UserId) (p : Phase), w.phase u' = p → ¬p.Looping n → u' ≠ u :=
    fun u' p hp hnl hu => hnl (hp ▸ hu ▸ hloop)
  cases step_moves hs with
  | @connect u' h => exact hset w.sh u' _ (hnot u' _ h fun h => h)
  | @frame u' jv h => exact hset w.sh u' _ (hnot u' _ h fun h => h)
  | @sessionOp u' c k h => exact hset _ u' _ (hsession u' rfl)
  | @sessionDone u' a h => exact hset w.sh u' _ (hsession u' rfl)
  | sessionThrow h => rfl
  | @eraseLast u' n k c h hlast => exact hset w.sh u' _ (hsession u' rfl)
  | @ended u' n k h hmine => exact hset w.sh u' _ (hsession u' rfl)
  | @eraseOp u' n k c k' h => exact hset _ u' _ (hsession u' rfl)
  | @eraseDone u' n k a h => exact hset w.sh u' _ (hsession u' rfl)
  | eraseThrow h => rfl
  | @close u' h => exact hset w.sh u' _ (hnot u' _ h fun h => h)
  | @destroy u' h hheld => exact hset _ u' _ (hnot u' _ h fun h => h)
  | serve hrun hq => rfl
  | tableOp hrun => rfl
  | tableDone hrun => rfl
  | tableThrow hrun => rfl
  | announce h => rfl
  | notify h => rfl
  | announced h => rfl

/-- A destructor in its loop is never stuck. -/
theorem looping_enabled {w : World} {u : UserId} {n : Nat} (hloop : (w.phase u).Looping n)
    (hterm : w.terminated = false) : (step w (.session u)).isSome := by
  have hstep : step w (.session u) = sessionStep w u := if_neg (by rw [hterm]; decide)
  rw [hstep]
  unfold sessionStep
  cases hp : w.phase u with
  | ending n' k =>
    simp only
    split <;> rfl
  | erasing n' k p => cases p <;> rfl
  | _ => rw [hp] at hloop; exact hloop.elim

section fair
variable {σ : Nat → World} {ls : Nat → Label} {u : UserId} {n : Nat}
  (hrun : Endless step σ ls) (h0 : Reachable step Booted (σ 0))
  (hfair : ∀ i, ((σ i).phase u).Looping n → ∃ j, i ≤ j ∧ ls j = .session u)

include hrun hfair

/-- A destructor in its loop takes its next step in the phase it is in. -/
theorem next_own_step {i : Nat} {p : Phase} (hi : (σ i).phase u = p) (hp : p.Looping n) :
    ∃ j, ls j = .session u ∧ (σ j).phase u = p := by
  obtain ⟨j, hij, hj⟩ := hfair i (hi ▸ hp)
  obtain ⟨k, -, hk, hkp⟩ := hrun.holds_until (P := fun s => s.phase u = p)
    (fun s l t hsp hl hst => (looping_phase (hsp ▸ hp) hl hst).trans hsp) hi hij hj
  exact ⟨k, hk, hkp⟩

include h0

/-- By induction on the body's program: the body comes to its end. -/
theorem erasing_ends {k : Nat} (p : Act Bool) {i : Nat} (hi : (σ i).phase u = .erasing n k p) :
    ∃ j, (σ j).phase u = .ending n (k + 1) := by
  induction p generalizing i with
  | pure a =>
    obtain ⟨j, hj, hjp⟩ := next_own_step hrun hfair hi rfl
    have hs := hrun j
    rw [hj] at hs
    refine ⟨j + 1, ?_⟩
    simp only [step, sessionStep, hjp] at hs
    split at hs
    · contradiction
    · rw [← Option.some.inj hs, setPhase_self]
  | throw e =>
    have hu := (consistent (hrun.reachable h0 i)).session u
    rw [hi] at hu
    cases hu.1
  | call c k' ih =>
    obtain ⟨j, hj, hjp⟩ := next_own_step hrun hfair hi rfl
    have hs := hrun j
    rw [hj] at hs
    simp only [step, sessionStep, hjp] at hs
    split at hs
    · contradiction
    · exact ih _ (show (σ (j + 1)).phase u = _ by rw [← Option.some.inj hs, setPhase_self])

/-- By induction on the number of channels left: the loop ends after `n` iterations. -/
theorem loop_ends (r : Nat) {k i : Nat} (hr : k + r = n) (hi : (σ i).phase u = .ending n k) :
    ∃ j, (σ j).phase u = .ending n n ∧ (σ (j + 1)).phase u = .dead := by
  induction r generalizing k i with
  | zero =>
    obtain rfl : k = n := by omega
    obtain ⟨j, hj, hjp⟩ := next_own_step hrun hfair hi rfl
    have hcount := (consistent (hrun.reachable h0 j)).count hjp
    have hmine : (σ j).sh.mine u = [] := List.eq_nil_of_length_eq_zero (by omega)
    have hs := hrun j
    rw [hj] at hs
    refine ⟨j, hjp, ?_⟩
    simp only [step, sessionStep, hjp, hmine, List.getLast?_nil] at hs
    split at hs
    · contradiction
    · rw [← Option.some.inj hs, setPhase_self]
  | succ r ih =>
    obtain ⟨j, hj, hjp⟩ := next_own_step hrun hfair hi rfl
    have hcount := (consistent (hrun.reachable h0 j)).count hjp
    obtain ⟨c, hc⟩ : ∃ c, ((σ j).sh.mine u).getLast? = some c := by
      cases hl : ((σ j).sh.mine u).getLast? with
      | some c => exact ⟨c, rfl⟩
      | none =>
        have hnil := List.getLast?_eq_none_iff.mp hl
        rw [hnil, List.length_nil] at hcount
        omega
    have hs := hrun j
    rw [hj] at hs
    simp only [step, sessionStep, hjp, hc] at hs
    split at hs
    · contradiction
    · have hbody : (σ (j + 1)).phase u = .erasing n k (c.erase u) := by
        rw [← Option.some.inj hs, setPhase_self]
      obtain ⟨j', hj'⟩ := erasing_ends hrun h0 hfair _ hbody
      exact ih (by omega) hj'

theorem destructor_ends {i : Nat} (hi : ((σ i).phase u).Looping n) :
    ∃ j, (σ j).phase u = .ending n n ∧ (σ (j + 1)).phase u = .dead := by
  have hhead : ∀ i k, (σ i).phase u = .ending n k →
      ∃ j, (σ j).phase u = .ending n n ∧ (σ (j + 1)).phase u = .dead := by
    intro i k hk
    have hcount := (consistent (hrun.reachable h0 i)).count hk
    exact loop_ends hrun h0 hfair _ hcount hk
  cases hp : (σ i).phase u with
  | ending n' k =>
    rw [hp] at hi
    obtain rfl : n' = n := hi
    exact hhead i k hp
  | erasing n' k p =>
    rw [hp] at hi
    obtain rfl : n' = n := hi
    obtain ⟨j, hj⟩ := erasing_ends hrun h0 hfair p hp
    exact hhead j _ hj
  | _ => rw [hp] at hi; exact hi.elim

end fair

/-! ### The property of every reachable state -/

/-- The records of membership agree whenever no operation of the user is in progress, no
`BOOST_VERIFY` has failed, and a user whose destructor has completed is in no channel. A destructor
counts one iteration for each channel its user had; it can always go on, and it completes after that
many iterations in every run that keeps scheduling it. -/
theorem membership_symmetric_and_undone {w : World} (hw : Reachable step Booted w) :
    (∀ u c, (w.phase u).atRest → (u ∈ w.sh.users c ↔ c ∈ w.sh.mine u)) ∧
    w.sh.verifyFailed = false ∧
    (∀ u c, w.phase u = .dead → u ∉ w.sh.users c) ∧
    (∀ u t, step w (.destroy u) = some t → t.phase u = .ending (w.sh.mine u).length 0) ∧
    (∀ u n k, w.phase u = .ending n k → k + (w.sh.mine u).length = n) ∧
    (∀ u n, (w.phase u).Looping n → w.terminated = false → (step w (.session u)).isSome) ∧
    ∀ u n σ ls, (w.phase u).Looping n → σ 0 = w → Endless step σ ls →
      (∀ i, ((σ i).phase u).Looping n → ∃ j, i ≤ j ∧ ls j = .session u) →
      ∃ i, (σ i).phase u = .ending n n ∧ (σ (i + 1)).phase u = .dead := by
  have hc := consistent hw
  refine ⟨fun u c hrest => (hc.symmetric hrest).memb_iff c, hc.verified,
    fun u c hp => hc.dead hp c, fun u t hs => ?_, fun u n k hp => hc.count hp,
    fun u n hloop hterm => looping_enabled hloop hterm, ?_⟩
  · cases step_moves hs with
    | destroy h hheld => exact setPhase_self _ _ _
  · intro u n σ ls hloop hσ hrun hfair
    subst hσ
    exact destructor_ends hrun hw hfair hloop

/-- The request `identify` with the name "ann". -/
def identifyAnn : Value := request "identify" [("cid", .number (.int 1)), ("name", .string "ann")]

/-- User 1 connects, sets its identity and disconnects; its destructor has begun. -/
def annLeaves : List Label :=
  [.connect 1, .frame 1 identifyAnn] ++ List.replicate 11 (.session 1) ++ [.close 1, .destroy 1]

theorem annLeaves_runs : (execute step annLeaves [] bootZero).isSome := by decide +kernel

/-- When the destructor of a user who has identified begins, the user is in the system channel on
both sides. -/
theorem membership_symmetric_and_undone_ann :
    ∃ w, Reachable step Booted w ∧ (w.phase 1).atRest ∧ w.sh.users systemChannel = [1] ∧
      systemChannel ∈ w.sh.mine 1 := by
  have hw : Reachable step Booted (after annLeaves annLeaves_runs) := ⟨_, run_after _ _⟩
  have hrest : ((after annLeaves annLeaves_runs).phase 1).atRest := by decide +kernel
  have husers : (after annLeaves annLeaves_runs).sh.users systemChannel = [1] := by decide +kernel
  refine ⟨_, hw, hrest, husers, ?_⟩
  apply ((membership_symmetric_and_undone hw).1 1 systemChannel hrest).mp
  rw [husers]
  exact List.mem_singleton_self 1

end BeastLounge.Lounge
