import BeastLounge.Listener.Sessions

/-!
# Which sessions a stop reaches

`do_stop` works from one list of the registered sessions. `Inv` says where every live session stands
while it runs: before the list is taken every session is registered; while the sessions are being
stopped, those of the list are still to be stopped and the others have been, unless they were
created after the list was taken; in the end exactly the latter have not been stopped.
-/

namespace BeastLounge.Listener

open Theory

variable {s t : ListenerImpl} {tr : List (ListenerImpl × ListenerImpl.Label)}

/-- After `do_stop` every live session has had `on_stop` called exactly once. -/
def AllStopped (s : ListenerImpl) : Prop :=
  s.phase = .finished → ∀ id x, s.live id = some x → x.stops = 1

/-- `on_stop` has been called at most once on every live session. -/
def StoppedOnce (s : ListenerImpl) : Prop := ∀ id x, s.live id = some x → x.stops ≤ 1

/-- The handler of the session's operation creates the next session. -/
def HandsOff (s : ListenerImpl) (id : Nat) (next : ListenerImpl.Next) : Prop :=
  next = .handOff ∧ ∃ x, s.live id = some x ∧ x.io = .queued true

/-- No session created after the list was taken is alive when `do_stop` returns, and none is
created afterwards. -/
def NoLateHandOff (s : ListenerImpl) : ListenerImpl.Label → Prop
  | .finish => ∀ id x, s.live id = some x → x.late = false
  | .resume id next => s.phase = .finished → ¬HandsOff s id next
  | _ => True

/-! ### The invariant -/

/-- Where a live session stands, by the phase of `do_stop`. -/
def Standing (s : ListenerImpl) (id : Nat) (x : Session) : Prop :=
  match s.phase with
  | .running => x.late = false ∧ x.stops = 0 ∧ id ∈ s.sessions
  | .closed => x.late = false ∧ x.stops = 0 ∧ id ∈ s.sessions
  | .stopping v => if x.late then x.stops = 0 ∧ id ∉ v else x.stops = if id ∈ v then 0 else 1
  | .finished => x.stops = if x.late then 0 else 1

structure Inv (s : ListenerImpl) : Prop where
  standing : ∀ id x, s.live id = some x → Standing s id x
  live_lt : ∀ id x, s.live id = some x → id < s.next
  sessions_lt : ∀ id ∈ s.sessions, id < s.next
  nodup : s.sessions.Nodup
  stopping : ∀ v, s.phase = .stopping v → v.Nodup ∧ ∀ id ∈ v, id < s.next
  /-- No accept succeeds once the acceptor is closed. -/
  closed : s.isOpen = false ↔ s.phase ≠ .running

theorem inv_started (h : s.Started) : Inv s := by
  obtain ⟨kind, rfl⟩ := h
  constructor <;> simp

theorem Standing.stops_le {id : Nat} {x : Session} (h : Standing s id x) : x.stops ≤ 1 := by
  unfold Standing at h
  split at h
  · omega
  · omega
  · split at h
    · omega
    · split at h <;> omega
  · split at h <;> omega

/-- A session whose stop count and lateness are unchanged stands where it stood. -/
theorem Standing.congr {id : Nat} {x y : Session} (h : Standing s id x)
    (hphase : t.phase = s.phase) (hmem : id ∈ s.sessions → id ∈ t.sessions)
    (hlate : y.late = x.late) (hstops : y.stops = x.stops) : Standing t id y := by
  unfold Standing at h ⊢
  rw [hphase, hlate, hstops]
  split at h
  · exact ⟨h.1, h.2.1, hmem h.2.2⟩
  · exact ⟨h.1, h.2.1, hmem h.2.2⟩
  · exact h
  · exact h

theorem inv_setSession {id : Nat} {x y : Session} (h : Inv s) (hx : s.live id = some x)
    (hlate : y.late = x.late) (hstops : y.stops = x.stops) : Inv (s.setSession id y) := by
  refine ⟨fun i z hz => ?_, fun i z hz => ?_, h.sessions_lt, h.nodup, h.stopping, h.closed⟩
  · simp only [ListenerImpl.setSession, Function.update_apply] at hz
    split at hz
    · rename_i hi
      subst hi
      obtain rfl : y = z := Option.some.inj hz
      exact (h.standing i x hx).congr rfl (fun hm => hm) hlate hstops
    · exact (h.standing i z hz).congr rfl (fun hm => hm) rfl rfl
  · simp only [ListenerImpl.setSession, Function.update_apply] at hz
    split at hz
    · rename_i hi
      exact hi ▸ h.live_lt id x hx
    · exact h.live_lt i z hz

theorem inv_create {kind : Kind} (h : Inv s) : Inv (s.create kind) := by
  have hnew : Standing (s.create kind) s.next { kind, late := s.snapshotTaken } := by
    unfold Standing
    have hphase : (s.create kind).phase = s.phase := rfl
    rw [hphase]
    split
    · rename_i hp
      simp [ListenerImpl.snapshotTaken, hp, ListenerImpl.create]
    · rename_i hp
      simp [ListenerImpl.snapshotTaken, hp, ListenerImpl.create]
    · rename_i v hp
      have hv : s.next ∉ v := fun hmem => absurd ((h.stopping v hp).2 _ hmem) (Nat.lt_irrefl _)
      simp [ListenerImpl.snapshotTaken, hp, hv]
    · rename_i hp
      simp [ListenerImpl.snapshotTaken, hp]
  have hfresh : s.next ∉ s.sessions := fun hmem => absurd (h.sessions_lt _ hmem) (Nat.lt_irrefl _)
  refine ⟨fun i z hz => ?_, fun i z hz => ?_, fun i hi => ?_, ?_, fun v hv => ?_, h.closed⟩
  · simp only [ListenerImpl.create, ListenerImpl.setSession, Function.update_apply] at hz
    split at hz
    · rename_i hi
      obtain rfl := Option.some.inj hz
      exact hi ▸ hnew
    · exact (h.standing i z hz).congr rfl (fun hm => List.mem_cons_of_mem _ hm) rfl rfl
  · simp only [ListenerImpl.create, ListenerImpl.setSession, Function.update_apply] at hz ⊢
    split at hz
    · omega
    · have := h.live_lt i z hz
      omega
  · simp only [ListenerImpl.create, List.mem_cons] at hi ⊢
    rcases hi with rfl | hi
    · omega
    · have := h.sessions_lt i hi
      omega
  · exact List.nodup_cons.mpr ⟨hfresh, h.nodup⟩
  · obtain ⟨hnd, hlt⟩ := h.stopping v hv
    refine ⟨hnd, fun i hi => ?_⟩
    have := hlt i hi
    simp only [ListenerImpl.create]
    omega

theorem inv_destroy {id : Nat} (h : Inv s) : Inv (s.destroy id) := by
  refine ⟨fun i z hz => ?_, fun i z hz => ?_, fun i hi => ?_, h.nodup.filter _, h.stopping,
    h.closed⟩
  · simp only [ListenerImpl.destroy, Function.update_apply] at hz
    split at hz
    · contradiction
    · rename_i hi
      refine (h.standing i z hz).congr rfl (fun hm => ?_) rfl rfl
      simp only [ListenerImpl.destroy, List.mem_filter]
      exact ⟨hm, by simpa using hi⟩
  · simp only [ListenerImpl.destroy, Function.update_apply] at hz
    split at hz
    · contradiction
    · exact h.live_lt i z hz
  · exact h.sessions_lt i (List.mem_filter.mp hi).1

theorem inv_accept {a : Option Io} (h : Inv s) : Inv { s with accept := a } :=
  ⟨h.standing, h.live_lt, h.sessions_lt, h.nodup, h.stopping, h.closed⟩

theorem inv_onAccept {ok : Bool} (h : Inv s) : Inv (s.onAccept ok) := by
  unfold ListenerImpl.onAccept
  split
  · exact inv_accept h
  · split
    · exact inv_accept h
    · dsimp only
      refine inv_accept ?_
      split <;> exact inv_create h

theorem inv_resume {id : Nat} {x : Session} {ok : Bool} {next : ListenerImpl.Next} (h : Inv s)
    (hx : s.live id = some x) (hr : s.resume id x ok next = some t) : Inv t := by
  unfold ListenerImpl.resume at hr
  split at hr
  · obtain rfl := Option.some.inj hr
    exact inv_setSession h hx rfl rfl
  · split at hr
    · obtain ⟨k, -, rfl⟩ := Option.map_eq_some_iff.mp hr
      have hne : id ≠ s.next := Nat.ne_of_lt (h.live_lt id x hx)
      have hx' : (s.create k).live id = some x := by
        simpa [ListenerImpl.create, ListenerImpl.setSession, Function.update_apply, hne] using hx
      exact inv_setSession (inv_create h) hx' rfl rfl
    · split at hr
      · contradiction
      · obtain rfl := Option.some.inj hr
        exact inv_setSession h hx rfl rfl
    · split at hr
      · contradiction
      · obtain rfl := Option.some.inj hr
        exact inv_setSession h hx rfl rfl

/-- The head of the list is stopped, once; the others of the list are still to be stopped. -/
theorem inv_notify {id : Nat} {v : List Nat} (h : Inv s) (hphase : s.phase = .stopping (id :: v)) :
    Inv { s.onStop id with phase := .stopping v } := by
  obtain ⟨hnd, hlt⟩ := h.stopping _ hphase
  obtain ⟨hid, hnd⟩ := List.nodup_cons.mp hnd
  have hclosed : s.isOpen = false := h.closed.mpr (by rw [hphase]; simp)
  have hother : ∀ i z, i ≠ id → s.live i = some z →
      Standing { s with phase := .stopping v } i z := by
    intro i z hi hz
    have hst := h.standing i z hz
    unfold Standing at hst ⊢
    rw [hphase] at hst
    simpa [hi] using hst
  unfold ListenerImpl.onStop
  split
  · rename_i hnone
    refine ⟨fun i z hz => ?_, h.live_lt, h.sessions_lt, h.nodup, fun w hw => ?_, ?_⟩
    · refine hother i z (fun hi => ?_) hz
      subst hi
      rw [hnone] at hz
      contradiction
    · obtain rfl : v = w := by simpa using hw
      exact ⟨hnd, fun i hi => hlt i (List.mem_cons_of_mem _ hi)⟩
    · simpa using hclosed
  · rename_i x hx
    have hst := h.standing id x hx
    refine ⟨fun i z hz => ?_, fun i z hz => ?_, h.sessions_lt, h.nodup, fun w hw => ?_, ?_⟩
    · simp only [ListenerImpl.setSession, Function.update_apply] at hz
      split at hz
      · rename_i hi
        subst hi
        obtain rfl := Option.some.inj hz
        unfold Standing at hst ⊢
        rw [hphase] at hst
        simp only [List.mem_cons, true_or, not_true_eq_false, and_false, if_true] at hst
        split at hst
        · contradiction
        · rename_i hl
          simp [hl, hst, hid]
      · rename_i hi
        exact hother i z hi hz
    · simp only [ListenerImpl.setSession, Function.update_apply] at hz
      split at hz
      · rename_i hi
        exact hi ▸ h.live_lt id x hx
      · exact h.live_lt i z hz
    · obtain rfl : v = w := by simpa using hw
      exact ⟨hnd, fun i hi => hlt i (List.mem_cons_of_mem _ hi)⟩
    · simpa [ListenerImpl.setSession] using hclosed

theorem inv_step {l : ListenerImpl.Label} (h : Inv s) (hstep : s.step l = some t) : Inv t := by
  cases ListenerImpl.step_moves hstep with
  | acceptDone => exact inv_accept h
  | onAccept => exact inv_onAccept h
  | ioDone hx => exact inv_setSession h hx rfl rfl
  | resume hx _ ht => exact inv_resume h hx ht
  | runStop hx => exact inv_setSession h hx rfl rfl
  | destroy => exact inv_destroy h
  | closeAcceptor hphase =>
    refine ⟨fun i z hz => ?_, h.live_lt, h.sessions_lt, h.nodup, by simp, by simp⟩
    have hst := h.standing i z hz
    unfold Standing at hst ⊢
    rwa [hphase] at hst
  | snapshot hphase =>
    have hclosed : s.isOpen = false := h.closed.mpr (by rw [hphase]; simp)
    refine ⟨fun i z hz => ?_, h.live_lt, by simp, by simp, fun v hv => ?_, by simpa using hclosed⟩
    · have hst := h.standing i z hz
      unfold Standing at hst ⊢
      rw [hphase] at hst
      simp [hst.1, hst.2.1, hst.2.2]
    · obtain rfl : s.sessions = v := by simpa using hv
      exact ⟨h.nodup, h.sessions_lt⟩
  | notify hphase => exact inv_notify h hphase
  | finish hphase =>
    have hclosed : s.isOpen = false := h.closed.mpr (by rw [hphase]; simp)
    refine ⟨fun i z hz => ?_, h.live_lt, h.sessions_lt, h.nodup, by simp, by simpa using hclosed⟩
    have hst := h.standing i z hz
    unfold Standing at hst ⊢
    rw [hphase] at hst
    by_cases hl : z.late = true
    · simpa [hl] using hst
    · simpa [hl] using hst

/-! ### Sessions created too late -/

/-- After `do_stop` no session created since the list was taken is alive. -/
def NoneLate (s : ListenerImpl) : Prop :=
  s.phase = .finished → ∀ id x, s.live id = some x → x.late = false

theorem allStopped_iff (h : Inv s) : AllStopped s ↔ NoneLate s := by
  refine imp_congr_right fun hphase => forall₂_congr fun id x => imp_congr_right fun hx => ?_
  have hst := h.standing id x hx
  unfold Standing at hst
  rw [hphase] at hst
  cases hl : x.late <;> simp [hst, hl]

theorem noneLate_setSession {id : Nat} {x y : Session} (h : NoneLate s) (hx : s.live id = some x)
    (hlate : y.late = x.late) : NoneLate (s.setSession id y) := by
  intro hphase i z hz
  simp only [ListenerImpl.setSession, Function.update_apply] at hz
  split at hz
  · obtain rfl := Option.some.inj hz
    exact hlate.trans (h hphase id x hx)
  · exact h hphase i z hz

theorem noneLate_of_phase (h : s.phase ≠ .finished) : NoneLate s := fun hphase => (h hphase).elim

/-- A step that meets the condition leaves no late session behind. -/
theorem noneLate_step {l : ListenerImpl.Label} (hinv : Inv s) (h : NoneLate s)
    (hlate : NoLateHandOff s l) (hstep : s.step l = some t) : NoneLate t := by
  cases ListenerImpl.step_moves hstep with
  | acceptDone => exact h
  | onAccept =>
    by_cases hphase : s.phase = .finished
    · -- the acceptor is closed, so nothing is created
      have hclosed : s.isOpen = false := hinv.closed.mpr (by rw [hphase]; simp)
      unfold ListenerImpl.onAccept
      split
      · exact h
      · rw [if_pos (by simp [hclosed])]
        exact h
    · refine noneLate_of_phase ?_
      unfold ListenerImpl.onAccept
      split_ifs <;> try exact hphase
      dsimp only
      split <;> exact hphase
  | ioDone hx => exact noneLate_setSession h hx rfl
  | @resume id ok next x _ hx hio ht =>
    unfold ListenerImpl.resume at ht
    split at ht
    · exact Option.some.inj ht ▸ noneLate_setSession h hx rfl
    · rename_i hok
      split at ht
      · obtain ⟨k, -, rfl⟩ := Option.map_eq_some_iff.mp ht
        refine noneLate_of_phase fun hphase => hlate hphase ⟨rfl, x, hx, ?_⟩
        simpa [hio] using hok
      · split at ht
        · contradiction
        · exact Option.some.inj ht ▸ noneLate_setSession h hx rfl
      · split at ht
        · contradiction
        · exact Option.some.inj ht ▸ noneLate_setSession h hx rfl
  | runStop hx => exact noneLate_setSession h hx rfl
  | destroy =>
    intro hphase i z hz
    simp only [ListenerImpl.destroy, Function.update_apply] at hz
    split at hz
    · contradiction
    · exact h hphase i z hz
  | closeAcceptor => exact noneLate_of_phase (by simp)
  | snapshot => exact noneLate_of_phase (by simp)
  | notify => exact noneLate_of_phase (by simp)
  | finish => exact fun _ => hlate

/-- A step that breaks the condition leaves a late session behind. -/
theorem noLateHandOff_of_noneLate {l : ListenerImpl.Label} (hinv : Inv s)
    (hstep : s.step l = some t) (ht : NoneLate t) : NoLateHandOff s l := by
  cases l with
  | finish =>
    simp only [ListenerImpl.step, Option.ite_none_right_eq_some, Option.some.injEq] at hstep
    obtain ⟨-, rfl⟩ := hstep
    exact ht rfl
  | resume id next =>
    rintro hphase ⟨rfl, x, hx, hio⟩
    simp only [ListenerImpl.step, hx, hio, ListenerImpl.resume, Bool.not_true, Bool.false_eq_true,
      if_false, Option.map_eq_some_iff] at hstep
    obtain ⟨k, -, rfl⟩ := hstep
    have hne : s.next ≠ id := Nat.ne_of_gt (hinv.live_lt id x hx)
    have hl := ht hphase s.next { kind := k, late := s.snapshotTaken }
      (by simp [ListenerImpl.create, ListenerImpl.setSession, hne])
    simp [ListenerImpl.snapshotTaken, hphase] at hl
  | _ => trivial

/-! ### Runs -/

/-- `do_stop` reaches every session that is alive when it returns or created later exactly when
none of them was created after it took its list. It stops no session twice. -/
theorem all_stopped_iff (hrun : Run ListenerImpl.step ListenerImpl.Started tr s) :
    (AllStates AllStopped tr s ↔ AllSteps NoLateHandOff tr) ∧ AllStates StoppedOnce tr s := by
  have hinv : AllStates Inv tr s := hrun.invariant (P := fun _ _ => True)
    (fun _ => inv_started) (fun _ _ _ h _ hs => inv_step h hs) (fun _ _ => trivial)
  refine ⟨⟨fun hall => ?_, fun hlate => ?_⟩,
    hinv.mono fun s h id x hx => (h.standing id x hx).stops_le⟩
  · have hboth : AllStates (fun s => Inv s ∧ NoneLate s) tr s :=
      ⟨fun x hx => ⟨hinv.1 x hx, (allStopped_iff (hinv.1 x hx)).mp (hall.1 x hx)⟩,
        hinv.2, (allStopped_iff hinv.2).mp hall.2⟩
    exact hrun.allSteps_of_allStates hboth fun s l t hs hstep ht =>
      noLateHandOff_of_noneLate hs.1 hstep ht.2
  · have hnone : AllStates (fun s => Inv s ∧ NoneLate s) tr s := by
      refine hrun.invariant (fun s h => ⟨inv_started h, ?_⟩)
        (fun s l t hs hl hstep => ⟨inv_step hs.1 hstep, noneLate_step hs.1 hs.2 hl hstep⟩) hlate
      obtain ⟨kind, rfl⟩ := h
      exact noneLate_of_phase (by simp)
    exact hnone.mono fun s h => (allStopped_iff h.1).mpr h.2

/-- A listener with one detector, stopped before the detection completes. -/
theorem all_stopped_detector :
    ∃ (tr : List (ListenerImpl × ListenerImpl.Label)) (s : ListenerImpl),
      s.phase = .finished ∧ AllStates AllStopped tr s := by
  obtain ⟨tr, s, hrun, hlate, hphase⟩ : ∃ tr s,
      Run ListenerImpl.step ListenerImpl.Started tr s ∧ AllSteps NoLateHandOff tr ∧
        s.phase = .finished := by
    refine ⟨_, _, Run.execute [.acceptDone true, .onAccept, .closeAcceptor, .snapshot, .notify,
      .finish] (.nil ⟨.allowTls, rfl⟩) rfl, ?_, rfl⟩
    simp only [AllSteps, NoLateHandOff, List.nil_append, List.cons_append, List.mem_cons,
      forall_eq_or_imp, List.not_mem_nil, false_implies, implies_true, and_true, true_and]
    intro id x hx
    by_cases hid : id = 0
    · subst hid
      exact (Option.some.inj hx) ▸ rfl
    · simp [ListenerImpl.onStop, ListenerImpl.onAccept, ListenerImpl.create,
        ListenerImpl.setSession, ListenerImpl.snapshotTaken, hid] at hx
  exact ⟨tr, s, hphase, (all_stopped_iff hrun).1.mpr hlate⟩

/-- The detection completes, its handler still being queued, before the listener is stopped; the
HTTP session it then creates is never stopped. -/
theorem queued_hand_off_escapes :
    ¬∀ tr s, Run ListenerImpl.step ListenerImpl.Started tr s → AllStates AllStopped tr s := by
  intro h
  have hall := h _ _ (Run.execute [.acceptDone true, .onAccept, .ioDone 0 true, .closeAcceptor,
    .snapshot, .notify, .finish, .resume 0 .handOff] (.nil ⟨.allowTls, rfl⟩) rfl)
  have hstops := hall.2 rfl 1 _ rfl
  exact absurd hstops (by decide)

end BeastLounge.Listener
