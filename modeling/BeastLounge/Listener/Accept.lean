import BeastLounge.Listener.Stop

/-!
# Accepting goes on

`on_start` begins the first accept, and the accept loop begins the next one whenever it has handed a
connection over. A completion with an error makes the loop return before that, whether or not the
acceptor has been closed: then nothing begins an accept again. As long as no error finds the acceptor
open, exactly one accept is outstanding until `do_stop`, and none is begun after it.
-/

namespace BeastLounge.Listener

open Theory

variable {s t : ListenerImpl} {l : ListenerImpl.Label}
  {tr : List (ListenerImpl × ListenerImpl.Label)}

/-! ### The property -/

/-- The handler of an accept runs, and begins another one. -/
def reArms (s : ListenerImpl) : ListenerImpl.Label → Bool
  | .onAccept => (s.step .onAccept).any (·.accept.isSome)
  | _ => false

def isOnAccept : ListenerImpl.Label → Bool
  | .onAccept => true
  | _ => false

/-- The accepts begun, by `on_start` and by the loop, whose handlers have not run. -/
def outstanding (tr : List (ListenerImpl × ListenerImpl.Label)) : Int :=
  1 + tr.countP (fun x => reArms x.1 x.2) - tr.countP fun x => isOnAccept x.2

/-- While the acceptor is open, one accept is outstanding. -/
def Accepting (s : ListenerImpl) : Prop := s.isOpen = true → s.accept.isSome = true

/-- Once the acceptor is closed, no accept is begun. -/
def NoneAfterStop (s : ListenerImpl) (l : ListenerImpl.Label) : Prop :=
  s.isOpen = false → reArms s l = false

/-- No accept ends with an error while the acceptor is open. -/
def NoAcceptError (s : ListenerImpl) : ListenerImpl.Label → Prop
  | .onAccept => s.isOpen = true → s.accept ≠ some (.queued false)
  | _ => True

/-! ### One step -/

theorem accept_onAccept (s : ListenerImpl) (ok : Bool) :
    (s.onAccept ok).accept = if ok ∧ s.isOpen then some .pending else none := by
  unfold ListenerImpl.onAccept
  cases ok with
  | false => rfl
  | true =>
    cases s.isOpen with
    | false => rfl
    | true => rfl

theorem isOpen_onAccept (s : ListenerImpl) (ok : Bool) : (s.onAccept ok).isOpen = s.isOpen := by
  unfold ListenerImpl.onAccept
  split_ifs
  · rfl
  · rfl
  · dsimp only
    split <;> rfl

/-- A session's coroutine has no part in accepting. -/
theorem resume_frame {id : Nat} {x : Session} {ok : Bool} {next : ListenerImpl.Next}
    (h : s.resume id x ok next = some t) : t.accept = s.accept ∧ t.isOpen = s.isOpen := by
  unfold ListenerImpl.resume at h
  split at h
  · obtain rfl := Option.some.inj h
    exact ⟨rfl, rfl⟩
  · split at h
    · obtain ⟨k, -, rfl⟩ := Option.map_eq_some_iff.mp h
      exact ⟨rfl, rfl⟩
    · split at h
      · contradiction
      · obtain rfl := Option.some.inj h
        exact ⟨rfl, rfl⟩
    · split at h
      · contradiction
      · obtain rfl := Option.some.inj h
        exact ⟨rfl, rfl⟩

theorem onStop_frame (s : ListenerImpl) (id : Nat) :
    (s.onStop id).accept = s.accept ∧ (s.onStop id).isOpen = s.isOpen := by
  unfold ListenerImpl.onStop
  split <;> exact ⟨rfl, rfl⟩

/-- A step handles an accept, or leaves it outstanding or not as it was, and opens nothing. -/
theorem accept_step (hs : s.step l = some t) :
    (∃ ok, l = .onAccept ∧ s.accept = some (.queued ok) ∧ t = s.onAccept ok) ∨
      (isOnAccept l = false ∧ t.accept.isSome = s.accept.isSome ∧
        (t.isOpen = true → s.isOpen = true)) := by
  cases ListenerImpl.step_moves hs with
  | acceptDone haccept => exact .inr ⟨rfl, by rw [haccept]; rfl, id⟩
  | @onAccept ok haccept => exact .inl ⟨ok, rfl, haccept, rfl⟩
  | ioDone => exact .inr ⟨rfl, rfl, id⟩
  | resume _ _ ht =>
    obtain ⟨haccept, hopen⟩ := resume_frame ht
    exact .inr ⟨rfl, by rw [haccept], fun h => hopen ▸ h⟩
  | runStop => exact .inr ⟨rfl, rfl, id⟩
  | destroy => exact .inr ⟨rfl, rfl, id⟩
  | closeAcceptor =>
    refine .inr ⟨rfl, ?_, fun h => by cases h⟩
    dsimp only
    split
    · rename_i haccept
      rw [haccept]
      rfl
    · rfl
  | snapshot => exact .inr ⟨rfl, rfl, id⟩
  | @notify id v =>
    obtain ⟨haccept, hopen⟩ := onStop_frame s id
    refine .inr ⟨rfl, ?_, fun h => hopen ▸ h⟩
    show (s.onStop id).accept.isSome = s.accept.isSome
    rw [haccept]
  | finish => exact .inr ⟨rfl, rfl, id⟩

/-- What the condition says of a step that is not the handler of an accept: nothing. -/
theorem noAcceptError_of_not_onAccept (h : isOnAccept l = false) : NoAcceptError s l := by
  cases l with
  | onAccept => cases h
  | _ => trivial

theorem reArms_of_not_onAccept (h : isOnAccept l = false) : reArms s l = false := by
  cases l with
  | onAccept => cases h
  | _ => rfl

theorem accepting_step_iff (h : Accepting s) (hs : s.step l = some t) :
    Accepting t ↔ NoAcceptError s l := by
  rcases accept_step hs with ⟨ok, rfl, haccept, rfl⟩ | ⟨hother, hsome, hopen⟩
  · unfold Accepting NoAcceptError
    rw [isOpen_onAccept, accept_onAccept]
    refine imp_congr_right fun hopen => ?_
    rw [hopen, haccept]
    cases ok <;> simp
  · refine iff_of_true (fun ht => ?_) (noAcceptError_of_not_onAccept hother)
    rw [hsome]
    exact h (hopen ht)

/-- After a step the handler of an accept has, or has not, begun another. -/
theorem reArms_step (hs : s.step .onAccept = some t) : reArms s .onAccept = t.accept.isSome := by
  simp only [reArms, hs, Option.any_some]

theorem noneAfterStop_step (hs : s.step l = some t) : NoneAfterStop s l := by
  intro hclosed
  rcases accept_step hs with ⟨ok, rfl, -, rfl⟩ | ⟨hother, -, -⟩
  · rw [reArms_step hs, accept_onAccept, hclosed]
    simp
  · exact reArms_of_not_onAccept hother

/-! ### Runs -/

theorem outstanding_run (hrun : Run ListenerImpl.step ListenerImpl.Started tr s) :
    outstanding tr = if s.accept.isSome then 1 else 0 := by
  induction hrun with
  | nil h =>
    obtain ⟨kind, rfl⟩ := h
    rfl
  | @snoc tr s t l hrun hs ih =>
    unfold outstanding at ih ⊢
    rw [List.countP_append, List.countP_append, List.countP_singleton, List.countP_singleton]
    rcases accept_step hs with ⟨ok, rfl, haccept, rfl⟩ | ⟨hother, hsome, -⟩
    · -- the one that was outstanding has been handled
      rw [haccept, Option.isSome_some, if_pos rfl] at ih
      have hhandled : isOnAccept ListenerImpl.Label.onAccept = true := rfl
      rw [reArms_step hs, if_pos hhandled]
      push_cast
      split <;> omega
    · rw [hother, reArms_of_not_onAccept hother, hsome]
      simpa using ih

/-- One accept is outstanding in every state with an open acceptor exactly when no accept ends with
an error while it is open. After `do_stop` no accept is begun, and there is never more than one. -/
theorem keeps_accepting_iff (hrun : Run ListenerImpl.step ListenerImpl.Started tr s) :
    (AllStates Accepting tr s ↔ AllSteps NoAcceptError tr) ∧ AllSteps NoneAfterStop tr ∧
      outstanding tr = if s.accept.isSome then 1 else 0 := by
  refine ⟨⟨fun hall => ?_, fun hl => ?_⟩, ?_, outstanding_run hrun⟩
  · exact hrun.allSteps_of_allStates hall fun s l t h hs ht => (accepting_step_iff h hs).mp ht
  · refine hrun.invariant ?_ (fun s l t h hl hs => (accepting_step_iff h hs).mpr hl) hl
    rintro s ⟨kind, rfl⟩ -
    rfl
  · intro x hx
    obtain ⟨t, ht⟩ := hrun.enabled x hx
    exact noneAfterStop_step ht

/-- One connection, and then the listener is stopped: the accept that this cancels is the last. -/
theorem keeps_accepting_stopped : ∃ (tr : List (ListenerImpl × ListenerImpl.Label)) (s : ListenerImpl),
    tr.length = 7 ∧ s.accept = none ∧ AllStates Accepting tr s := by
  obtain ⟨tr, s, hrun, hl, hlen, haccept⟩ : ∃ tr s,
      Run ListenerImpl.step ListenerImpl.Started tr s ∧ AllSteps NoAcceptError tr ∧
        tr.length = 7 ∧ s.accept = none := by
    refine ⟨_, _, Run.execute [.acceptDone true, .onAccept, .closeAcceptor, .snapshot, .notify,
      .finish, .onAccept] (.nil ⟨.allowTls, rfl⟩) rfl, ?_, ?_, ?_⟩
    · simp [AllSteps, NoAcceptError, ListenerImpl.onAccept, ListenerImpl.onStop, ListenerImpl.create,
        ListenerImpl.setSession]
    · rfl
    · rfl
  exact ⟨tr, s, hlen, haccept, (keeps_accepting_iff hrun).1.mpr hl⟩

/-- An accept fails, say for want of a file descriptor, and the listener accepts no more. -/
theorem accept_error_ends :
    ¬∀ tr s, Run ListenerImpl.step ListenerImpl.Started tr s → AllStates Accepting tr s := by
  intro h
  have hall := h _ _ (Run.execute [.acceptDone false, .onAccept] (.nil ⟨.allowTls, rfl⟩) rfl)
  exact absurd (hall.2 rfl) (by decide)

end BeastLounge.Listener
