import BeastLounge.Server.Shutdown

/-!
# Nothing is re-armed after stop

`stop` cancels the waits on the timer and on the signals, but a completion that is already queued
runs after it with success, and a posted `shutdown` may run after it too. None of the other three
handlers looks at `stop_`, so what happens then depends on the state they find: `NotLate` is the
condition under which the step starts no wait.
-/

namespace BeastLounge.Server

open Theory

variable {s t : ServerImpl} {tr : List (ServerImpl × ServerImpl.Label)}

/-- Once `stop_` is set, the step starts no wait. -/
def Quiet (s : ServerImpl) (l : ServerImpl.Label) : Prop :=
  s.stop_ = true → ∀ t, s.step l = some t → t.armed = s.armed

/-- Once `stop_` is set, no countdown is begun or continued: a `shutdown` finds the expiry set or
its time over, a timer completion is aborted or finds the time over, and a signal completion is
aborted or finds the expiry set. -/
def NotLate (s : ServerImpl) (l : ServerImpl.Label) : Prop :=
  s.stop_ = true →
    match l with
    | .shutdown cooldown now now' _ => s.expiry ≠ never ∨ now + cooldown * second ≤ now'
    | .onTimer i now _ => s.timerWaits[i]? = some (.done true) ∨ s.shutdownTime ≤ now
    | .onSignal i _ _ _ => s.signalWaits[i]? = some (.done true) ∨ s.expiry ≠ never
    | _ => True

/-- Once `stop_` is set, no wait is pending. -/
def Drained (s : ServerImpl) : Prop :=
  s.stop_ = true → ∀ w ∈ s.timerWaits ++ s.signalWaits, w ≠ .pending

/-! ### How many waits each handler starts -/

section armed
variable (s) (aborted : Bool) (cooldown now now' now'' : Int)

@[simp] theorem stop_armed : s.stop.armed = s.armed := by
  unfold ServerImpl.stop
  split <;> rfl

theorem onTimer_armed :
    (s.onTimer aborted now now').armed =
      if aborted = true ∨ s.shutdownTime ≤ now then s.armed else s.armed + 1 := by
  have hpos := ceil_pos_iff (s.shutdownTime - now)
  unfold ServerImpl.onTimer
  by_cases ha : aborted = true
  · simp [ha]
  · rw [if_neg ha]
    dsimp only
    by_cases hr : ceil (s.shutdownTime - now) ≤ 0
    · have hover : s.shutdownTime ≤ now := by omega
      rw [if_pos hr, stop_armed, if_pos (Or.inr hover)]
    · have hmore : ¬s.shutdownTime ≤ now := by omega
      rw [if_neg hr]
      simp [ha, hmore, ServerImpl.expiresAfter, ServerImpl.asyncWaitTimer]

theorem shutdown_armed :
    (s.shutdown cooldown now now' now'').armed =
      if s.expiry ≠ never ∨ now + cooldown * second ≤ now' then s.armed else s.armed + 1 := by
  unfold ServerImpl.shutdown
  by_cases he : s.expiry ≠ never
  · simp [he]
  · rw [if_neg he]
    dsimp only
    rw [onTimer_armed]
    simp [he]

theorem onSignal_armed :
    (s.onSignal aborted now now' now'').armed = s.armed ↔
      aborted = true ∨ s.expiry ≠ never := by
  unfold ServerImpl.onSignal
  by_cases ha : aborted = true
  · simp [ha]
  · rw [if_neg ha]
    by_cases he : s.expiry = never
    · -- the new wait for a signal is begun in any case
      have hle : s.armed + 1 ≤ (s.asyncWaitSignals.shutdown 30 now now' now'').armed := by
        rw [shutdown_armed]
        split
        · exact le_refl _
        · exact Nat.le_succ _
      rw [if_pos he]
      constructor
      · intro h
        omega
      · rintro (h | h)
        · exact (ha h).elim
        · exact (h he).elim
    · simp [he]

end armed

theorem quiet_iff_notLate {l : ServerImpl.Label} (hstep : s.step l = some t) :
    Quiet s l ↔ NotLate s l := by
  have hquiet : Quiet s l ↔ (s.stop_ = true → t.armed = s.armed) := by
    simp only [Quiet, hstep, Option.some.injEq, forall_eq']
  rw [hquiet]
  unfold NotLate
  refine imp_congr_right fun _ => ?_
  cases ServerImpl.step_moves hstep with
  | shutdown =>
    rw [shutdown_armed]
    simp [-not_or]
  | stop => simp
  | timerExpires => simp
  | signalArrives => simp
  | @onTimer i now now' aborted _ hwait =>
    rw [onTimer_armed]
    cases aborted <;> simp [hwait]
  | onSignal _ hwait =>
    rw [onSignal_armed]
    simp [hwait]

/-! ### After stop nothing is pending -/

theorem not_pending_cancel {waits : List Wait} : ∀ w ∈ cancel waits, w ≠ .pending := by
  intro w hw
  simp only [cancel, List.mem_map] at hw
  obtain ⟨v, -, rfl⟩ := hw
  cases v <;> simp

theorem drained_stop (h : Drained s) : Drained s.stop := by
  unfold ServerImpl.stop
  split
  · exact h
  · intro _ w hw
    rcases List.mem_append.mp hw with hw | hw <;> exact not_pending_cancel w hw

theorem drained_of_running (h : s.stop_ = false) : Drained s := by
  intro hs
  rw [h] at hs
  contradiction

theorem drained_onTimer {aborted : Bool} {now now' : Int} (h : Drained s)
    (hlate : s.stop_ = true → aborted = true ∨ s.shutdownTime ≤ now) :
    Drained (s.onTimer aborted now now') := by
  have hpos := ceil_pos_iff (s.shutdownTime - now)
  unfold ServerImpl.onTimer
  by_cases ha : aborted = true
  · rwa [if_pos ha]
  · rw [if_neg ha]
    dsimp only
    by_cases hr : ceil (s.shutdownTime - now) ≤ 0
    · rw [if_pos hr]
      exact drained_stop h
    · rw [if_neg hr]
      have hrun : s.stop_ = false := by
        by_contra hs
        rcases hlate (by simpa using hs) with hab | hover
        · exact ha hab
        · omega
      exact drained_of_running hrun

theorem drained_shutdown {cooldown now now' now'' : Int} (h : Drained s)
    (hlate : s.stop_ = true → s.expiry ≠ never ∨ now + cooldown * second ≤ now') :
    Drained (s.shutdown cooldown now now' now'') := by
  unfold ServerImpl.shutdown
  by_cases he : s.expiry ≠ never
  · rwa [if_pos he]
  · rw [if_neg he]
    exact drained_onTimer h fun hs => Or.inr ((hlate hs).resolve_left he)

theorem drained_onSignal {aborted : Bool} {now now' now'' : Int} (h : Drained s)
    (hlate : s.stop_ = true → aborted = true ∨ s.expiry ≠ never) :
    Drained (s.onSignal aborted now now' now'') := by
  unfold ServerImpl.onSignal
  by_cases ha : aborted = true
  · rwa [if_pos ha]
  · rw [if_neg ha]
    by_cases he : s.expiry = never
    · rw [if_pos he]
      have hrun : s.stop_ = false := by
        by_contra hs
        rcases hlate (by simpa using hs) with hab | hne
        · exact ha hab
        · exact hne he
      have hrun' : s.asyncWaitSignals.stop_ = false := hrun
      exact drained_shutdown (drained_of_running hrun') fun hs => by
        rw [hrun'] at hs
        contradiction
    · rw [if_neg he]
      exact drained_stop h

theorem drained_step {l : ServerImpl.Label} (h : Drained s) (hlate : NotLate s l)
    (hstep : s.step l = some t) : Drained t := by
  have herase : ∀ {waits : List Wait} {i : Nat} {w : Wait}, w ∈ waits.eraseIdx i → w ∈ waits :=
    fun hw => (List.eraseIdx_sublist _ _).subset hw
  have hset : ∀ {waits : List Wait} {i : Nat} {w : Wait} {b : Bool},
      w ∈ waits.set i (.done b) → w ∈ waits ∨ w = .done b := fun hw =>
    List.mem_or_eq_of_mem_set hw
  cases ServerImpl.step_moves hstep with
  | shutdown => exact drained_shutdown h hlate
  | stop => exact drained_stop h
  | timerExpires =>
    intro hs w hw
    rcases List.mem_append.mp hw with hw | hw
    · rcases hset hw with hw | rfl
      · exact h hs w (List.mem_append_left _ hw)
      · simp
    · exact h hs w (List.mem_append_right _ hw)
  | signalArrives =>
    intro hs w hw
    rcases List.mem_append.mp hw with hw | hw
    · exact h hs w (List.mem_append_left _ hw)
    · rcases hset hw with hw | rfl
      · exact h hs w (List.mem_append_right _ hw)
      · simp
  | onTimer _ hwait =>
    refine drained_onTimer (fun hs w hmem => ?_) fun hs => ?_
    · rcases List.mem_append.mp hmem with hmem | hmem
      · exact h hs w (List.mem_append_left _ (herase hmem))
      · exact h hs w (List.mem_append_right _ hmem)
    · simpa [NotLate, hwait] using hlate hs
  | onSignal _ hwait =>
    refine drained_onSignal (fun hs w hmem => ?_) fun hs => ?_
    · rcases List.mem_append.mp hmem with hmem | hmem
      · exact h hs w (List.mem_append_left _ hmem)
      · exact h hs w (List.mem_append_right _ (herase hmem))
    · simpa [NotLate, hwait] using hlate hs

/-! ### Runs -/

/-- In a run of the server the steps after `stop` start no wait exactly when none of them comes
late; then only the completions of waits begun before remain to be run. -/
theorem quiet_after_stop_iff (hrun : Run ServerImpl.step ServerImpl.Running tr s) :
    (AllSteps Quiet tr ↔ AllSteps NotLate tr) ∧
      (AllSteps NotLate tr → AllStates Drained tr s) := by
  have hiff : ∀ x ∈ tr, Quiet x.1 x.2 ↔ NotLate x.1 x.2 := by
    intro x hx
    obtain ⟨t, ht⟩ := hrun.enabled x hx
    exact quiet_iff_notLate ht
  refine ⟨forall₂_congr hiff, hrun.invariant ?_ fun _ _ _ hs hl hstep => drained_step hs hl hstep⟩
  rintro s ⟨clock, rfl⟩
  exact drained_of_running rfl

/-- A stop, and the aborted completion of the signal wait after it. -/
theorem quiet_after_stop_signal :
    ∃ tr, ∃ s : ServerImpl, s.stop_ = true ∧ tr.length = 2 ∧ AllSteps Quiet tr := by
  obtain ⟨tr, s, hrun, hlate, hstop⟩ : ∃ tr s, Run ServerImpl.step ServerImpl.Running tr s ∧
      AllSteps NotLate tr ∧ s.stop_ = true ∧ tr.length = 2 :=
    ⟨_, _, Run.execute [.stop, .onSignal 0 0 0 0] (.nil ⟨0, rfl⟩) rfl,
      by simp [AllSteps, NotLate, ServerImpl.stop, ServerImpl.asyncWaitSignals, cancel], rfl, rfl⟩
  exact ⟨tr, s, hstop.1, hstop.2, (quiet_after_stop_iff hrun).1.mpr hlate⟩

/-- A `shutdown` posted before `stop` runs, and run after it, begins the countdown. -/
theorem shutdown_after_stop_arms :
    ¬∀ tr s, Run ServerImpl.step ServerImpl.Running tr s → AllSteps Quiet tr := by
  intro h
  have hquiet := h _ _ (Run.execute [.stop, .shutdown 30 0 0 0] (.nil ⟨0, rfl⟩) rfl)
  have harmed := (allSteps_snoc.mp hquiet).2 rfl _ rfl
  exact absurd harmed (by decide)

end BeastLounge.Server
