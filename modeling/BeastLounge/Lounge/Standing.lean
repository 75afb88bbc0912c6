import BeastLounge.Lounge.FailedRequests
import BeastLounge.Lounge.Membership

/-!
# The standing of a user during a request

The name of a user and the channels it is in are changed by its own thread only: by the session as
long as there is one, and then by the destructor. So while a request is processed that changes
neither, what it reads of them in different states is the same.
-/

namespace BeastLounge.Lounge

open Theory Json Rpc

open Prog (Spec wp Keeps)

/-- The user whose name or membership the operation changes. -/
def Cmd.subject : Cmd → Option UserId
  | .usersInsert _ u => some u
  | .usersErase _ u => some u
  | .writeName u _ => some u
  | _ => none

/-- The name of a user, and the channels that contain it. -/
def standing (w : Shared) (u : UserId) : String × (Channel → Prop) := (w.name u, (view w u).memb)

/-- Only the users in `A` are changed. -/
def subjectSpec (A : UserId → Prop) : Spec Res Unit where
  may _ _ _ := True
  allow _ c := ∀ u, c.subject = some u → A u
  next _ _ _ := ()

section act
variable {w : Shared} {c : Cmd} {u : UserId}

theorem act_standing (h : c.subject ≠ some u) : standing (act c w).2 u = standing w u := by
  have hne : ∀ {u'}, c.subject = some u' → u ≠ u' := fun hc heq => h (heq ▸ hc)
  unfold standing
  cases c with
  | usersInsert ch u' =>
    have hview : view (act (.usersInsert ch u') w).2 u = view w u :=
      act_view_ne w u' (v := view w u) (show (memberSpec u').allow _ _ from rfl) (hne rfl)
    rw [hview, act_name_eq rfl]
  | usersErase ch u' =>
    have hview : view (act (.usersErase ch u') w).2 u = view w u :=
      act_view_ne w u' (v := view w u) (show (memberSpec u').allow _ _ from rfl) (hne rfl)
    rw [hview, act_name_eq rfl]
  | writeName u' name =>
    show (Function.update w.name u' name u, _) = _
    rw [Function.update_of_ne (hne rfl)]
    rfl
  | _ =>
    unfold view
    rw [act_name_eq rfl, act_users_eq rfl]

end act

/-! ### The programs -/

section programs
variable {A : UserId → Prop} {u : UserId} {c : Channel} {T : Exn → Prop}

theorem safe_subject {cmd : Cmd} (h : ∀ u, cmd.subject = some u → A u) :
    (subjectSpec A).Safe (fun _ => True) cmd :=
  fun _ _ => ⟨h, fun _ _ => trivial⟩

theorem safe_subject_memberCmd {cmd : Cmd} {N : String → Prop} (h : MemberCmd N c u cmd) :
    (subjectSpec (· = u)).Safe (fun _ => True) cmd := by
  apply safe_subject
  intro u' hu
  cases h with
  | usersInsert => exact (Option.some.inj hu).symm
  | usersErase => exact (Option.some.inj hu).symm
  | _ => contradiction

theorem erase_subject : Keeps (subjectSpec (· = u)) (fun _ => True) T (c.erase u) :=
  keeps_erase_of_safe (N := fun _ => True) (fun _ _ _ _ => trivial) fun _ h _ => safe_subject_memberCmd h

theorem readFrame_subject (jv : Value) :
    Keeps (subjectSpec (· = u)) (fun _ => True) (fun _ => True) (readFrame u jv) := by
  refine keeps_readFrame (K := fun _ => True) jv (fun cmd h => safe_subject fun u' hu => ?_)
    (fun _ _ _ _ _ => trivial) (fun c _ => ?_) (fun c _ => erase_subject) fun _ _ _ _ => trivial
  · cases h with
    | writeName => exact (Option.some.inj hu).symm
    | _ => contradiction
  · exact keeps_insert_of_safe (N := fun _ => True) (fun _ _ _ _ => trivial) fun _ h =>
      safe_subject_memberCmd h

/-- The table changes no user. -/
theorem serve_subject (h : Handler) :
    Keeps (subjectSpec fun _ => False) (fun _ => True) (fun _ => True) (serve h) := by
  have hops : ∀ cmd, TableCmd (fun _ => True) h cmd →
      (subjectSpec fun _ => False).Safe (fun _ => True) cmd := by
    intro cmd hcmd
    cases hcmd with
    | _ => exact safe_subject nofun
  exact keeps_serve hops (wp_gameToJson_any (safe_subject nofun) fun _ => safe_subject nofun)
    fun _ _ _ => trivial

end programs

/-! ### Runs -/

/-- The thread of `u` will change the standing of nobody else. -/
def Phase.Minds (u : UserId) : Phase → Prop
  | .busy p => wp (subjectSpec (· = u)) (fun _ _ => True) p ()
  | .erasing _ _ p => wp (subjectSpec (· = u)) (fun _ _ => True) p ()
  | _ => True

structure Minding (w : World) : Prop where
  session : ∀ u, (w.phase u).Minds u
  strand : ∀ h p, w.running = some (h, p) → wp (subjectSpec fun _ => False) (fun _ _ => True) p ()

section runs
variable {w t : World} {l : Label} {u v : UserId}

theorem Minding.setPhase (hw : Minding w) {sh : Shared} {p : Phase} (hp : p.Minds u) :
    Minding ({ w with sh := sh }.setPhase u p) := by
  refine ⟨fun u' => ?_, hw.strand⟩
  by_cases hu : u' = u
  · subst hu
    rw [setPhase_self]
    exact hp
  · rw [setPhase_ne _ _ hu]
    exact hw.session u'

theorem Minding.busy (hw : Minding w) {p : Act Unit} (h : w.phase u = .busy p) :
    wp (subjectSpec (· = u)) (fun _ _ => True) p () := by
  have hu := hw.session u
  rwa [h] at hu

theorem Minding.erasing (hw : Minding w) {n k : Nat} {p : Act Bool}
    (h : w.phase u = .erasing n k p) : wp (subjectSpec (· = u)) (fun _ _ => True) p () := by
  have hu := hw.session u
  rwa [h] at hu

theorem minding_boot (h : Booted w) : Minding w := by
  obtain ⟨rand, chips, before, rfl⟩ := h
  exact ⟨fun _ => trivial, fun h p hp => by cases hp⟩

theorem minding_step (hw : Minding w) (hs : step w l = some t) : Minding t := by
  cases step_moves hs with
  | connect => exact hw.setPhase trivial
  | frame => exact hw.setPhase ((readFrame_subject _).wp trivial)
  | sessionOp h => exact hw.setPhase ((hw.busy h).2 _ trivial)
  | sessionDone => exact hw.setPhase trivial
  | sessionThrow => exact ⟨hw.session, hw.strand⟩
  | @eraseLast u n k c =>
    have herase : Keeps (subjectSpec (· = u)) (fun _ => True) (fun _ => True) (c.erase u) :=
      erase_subject
    exact hw.setPhase (herase.wp trivial)
  | ended => exact hw.setPhase trivial
  | eraseOp h => exact hw.setPhase ((hw.erasing h).2 _ trivial)
  | eraseDone => exact hw.setPhase trivial
  | eraseThrow => exact ⟨hw.session, hw.strand⟩
  | close => exact hw.setPhase trivial
  | destroy => exact hw.setPhase trivial
  | @serve h =>
    refine ⟨hw.session, fun h' p hp => ?_⟩
    cases hp
    exact (serve_subject h).wp trivial
  | tableOp hrun =>
    refine ⟨hw.session, fun h' p hp => ?_⟩
    cases hp
    exact (hw.strand _ _ hrun).2 _ trivial
  | tableDone => exact ⟨hw.session, fun h p hp => by cases hp⟩
  | tableThrow => exact ⟨hw.session, hw.strand⟩
  | announce => exact ⟨hw.session, hw.strand⟩
  | notify => exact ⟨hw.session, hw.strand⟩
  | announced => exact ⟨hw.session, hw.strand⟩

/-- In the states in which a request was processed that has changed nobody, its user had one standing,
which it still has as long as the request is being processed. -/
def Steady (u : UserId) (log : Option (Value × List Performed)) (w : World) : Prop :=
  ∀ jv ops, log = some (jv, ops) → (∀ x ∈ ops, x.2.1.subject = none) → ∃ st,
    (∀ x ∈ ops, standing x.1 u = st) ∧ ∀ p, w.phase u = .busy p → standing w.sh u = st

variable {log : Option (Value × List Performed)}

/-- A step of another thread, or one after which no request of `u` is processed. -/
theorem Steady.congr (h : Steady u log w)
    (hkept : ∀ p, t.phase u = .busy p → w.phase u = .busy p ∧ standing t.sh u = standing w.sh u) :
    Steady u log t := by
  intro jv ops hlog hnone
  obtain ⟨st, hops, hnow⟩ := h jv ops hlog hnone
  refine ⟨st, hops, fun p hp => ?_⟩
  obtain ⟨hold, hst⟩ := hkept p hp
  rw [hst]
  exact hnow p hold

/-- The thread of another user goes on. -/
theorem Steady.other (h : Steady u log w) {sh : Shared} {p : Phase}
    (hst : v ≠ u → standing sh u = standing w.sh u) (hp : v = u → ∀ q, p ≠ .busy q) :
    Steady u log ({ w with sh := sh }.setPhase v p) := by
  apply h.congr
  intro q hq
  by_cases hv : u = v
  · subst hv
    rw [setPhase_self] at hq
    exact absurd hq (hp rfl q)
  · rw [setPhase_ne _ _ hv] at hq
    exact ⟨hq, hst (Ne.symm hv)⟩

/-- The session performs an operation of the request. -/
theorem Steady.perform (h : Steady u log w) {c : Cmd} {k : Res c → Act Unit} {p : Phase}
    (hbusy : w.phase u = .busy (.call c k)) :
    Steady u (log.map fun x => (x.1, x.2 ++ [w.sh.perform c]))
      ({ w with sh := (act c w.sh).2 }.setPhase u p) := by
  intro jv ops hlog hnone
  obtain ⟨⟨jv', ops'⟩, hlog', heq⟩ := Option.map_eq_some_iff.mp hlog
  obtain ⟨rfl, rfl⟩ := Prod.mk.inj heq
  obtain ⟨hnone', hlast⟩ := List.forall_mem_append.mp hnone
  have hc : c.subject = none := hlast _ (List.mem_singleton_self _)
  obtain ⟨st, hops, hnow⟩ := h _ _ hlog' hnone'
  refine ⟨st, fun x hx => ?_, fun _ _ => ?_⟩
  · rcases List.mem_append.mp hx with hx | hx
    · exact hops x hx
    · rw [List.mem_singleton.mp hx]
      exact hnow _ hbusy
  · exact (act_standing (by rw [hc]; exact nofun)).trans (hnow _ hbusy)

theorem steady_step (hw : Minding w) (h : Steady u log w) (hs : step w l = some t) :
    Steady u (nextRequestLog u log w l) t := by
  cases step_moves hs with
  | connect => exact h.other (fun _ => rfl) fun _ _ => Phase.noConfusion
  | @frame v jv hidle =>
    by_cases hv : v = u
    · subst hv
      simp only [nextRequestLog, if_true]
      intro jv' ops hlog _
      obtain ⟨rfl, rfl⟩ := Prod.mk.inj (Option.some.inj hlog)
      exact ⟨standing w.sh v, List.forall_mem_nil _, fun _ _ => rfl⟩
    · simp only [nextRequestLog, if_neg hv]
      exact h.other (fun _ => rfl) fun hv' => absurd hv' hv
  | @sessionOp v c k hbusy =>
    by_cases hv : v = u
    · subst hv
      simp only [nextRequestLog, if_true, hbusy]
      exact h.perform hbusy
    · simp only [nextRequestLog, if_neg hv]
      refine h.other (fun _ => act_standing fun hc => ?_) fun hv' => absurd hv' hv
      exact hv ((hw.busy hbusy).1 u hc).symm
  | sessionDone hbusy =>
    rw [nextRequestLog_session hbusy rfl]
    exact h.other (fun _ => rfl) fun _ _ => Phase.noConfusion
  | sessionThrow hbusy =>
    rw [nextRequestLog_session hbusy rfl]
    exact h.congr fun _ hp => ⟨hp, rfl⟩
  | eraseLast hending =>
    rw [nextRequestLog_session hending rfl]
    exact h.other (fun _ => rfl) fun _ _ => Phase.noConfusion
  | ended hending =>
    rw [nextRequestLog_session hending rfl]
    exact h.other (fun _ => rfl) fun _ _ => Phase.noConfusion
  | @eraseOp v n k c k' herasing =>
    rw [nextRequestLog_session herasing rfl]
    refine h.other (fun hv => act_standing fun hc => ?_) fun _ _ => Phase.noConfusion
    exact hv ((hw.erasing herasing).1 u hc).symm
  | eraseDone herasing =>
    rw [nextRequestLog_session herasing rfl]
    exact h.other (fun _ => rfl) fun _ _ => Phase.noConfusion
  | eraseThrow herasing =>
    rw [nextRequestLog_session herasing rfl]
    exact h.congr fun _ hp => ⟨hp, rfl⟩
  | close => exact h.other (fun _ => rfl) fun _ _ => Phase.noConfusion
  | destroy => exact h.other (fun _ => rfl) fun _ _ => Phase.noConfusion
  | serve => exact h.congr fun _ hp => ⟨hp, rfl⟩
  | tableOp hrun =>
    exact h.congr fun _ hp => ⟨hp, act_standing fun hc => (hw.strand _ _ hrun).1 u hc⟩
  | tableDone => exact h.congr fun _ hp => ⟨hp, rfl⟩
  | tableThrow => exact h.congr fun _ hp => ⟨hp, rfl⟩
  | announce => exact h.congr fun _ hp => ⟨hp, rfl⟩
  | notify => exact h.congr fun _ hp => ⟨hp, act_standing fun hc => by cases hc⟩
  | announced => exact h.congr fun _ hp => ⟨hp, rfl⟩

theorem steady_run {tr : List (World × Label)} (hrun : Run step Booted tr w) :
    Steady u (requestLog u tr) w := by
  induction hrun with
  | nil h => exact fun _ _ => nofun
  | snoc hrun hs ih =>
    rw [requestLog_snoc]
    have hminding : Minding _ :=
      Reachable.invariant (fun _ => minding_boot) (fun _ _ _ => minding_step) ⟨_, hrun⟩
    exact steady_step hminding ih hs

end runs

end BeastLounge.Lounge
