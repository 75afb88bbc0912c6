import Mathlib.Algebra.Order.Group.Int
import BeastLounge.Server.Shutdown

/-!
# The countdown

Each call of `on_timer` announces the seconds left, rounded up, and waits for as long, but for ten
seconds at most. It waits from a later reading of the clock than the one it announces, so the next
call finds at least as many seconds gone as it waited for: what is announced decreases by ten or
more, or the time is over (`Spaced`). A wait that ends late only makes the steps larger.
-/

namespace BeastLounge.Server

open Theory

variable {s t s₀ s₁ : ServerImpl} {l l₀ : ServerImpl.Label}
  {tr tr₀ tr₁ : List (ServerImpl × ServerImpl.Label)}

/-! ### The property -/

/-- The cooldown and the first reading of the clock of a call of `shutdown` that takes effect. -/
def begins (s : ServerImpl) : ServerImpl.Label → Option (Int × Int)
  | .shutdown cooldown now _ _ => if s.expiry = never then some (cooldown, now) else none
  | .onSignal i now _ _ =>
    if s.signalWaits[i]? = some (.done false) ∧ s.expiry = never then some (30, now) else none
  | _ => none

/-- The readings of the clock of a call of `on_timer` that is not aborted: for the time left, and in
`expires_after`. -/
def timerCall (s : ServerImpl) : ServerImpl.Label → Option (Int × Int)
  | .shutdown _ _ now' now'' => if s.expiry = never then some (now', now'') else none
  | .onTimer i now now' =>
    if s.timerWaits[i]? = some (.done false) then some (now, now') else none
  | .onSignal i _ now' now'' =>
    if s.signalWaits[i]? = some (.done false) ∧ s.expiry = never then some (now', now'') else none
  | _ => none

/-- The calls of `on_timer` in a run. -/
def timerCalls (tr : List (ServerImpl × ServerImpl.Label)) : List (Int × Int) :=
  tr.filterMap fun x => timerCall x.1 x.2

/-- The step calls `stop` otherwise than from `on_timer`. -/
def Stops (s : ServerImpl) : ServerImpl.Label → Prop
  | .stop => True
  | .onSignal i _ _ _ => s.signalWaits[i]? = some (.done false) ∧ s.expiry ≠ never
  | _ => False

instance (s : ServerImpl) (l : ServerImpl.Label) : Decidable (Stops s l) := by
  cases l <;> unfold Stops <;> infer_instance

/-- No countdown begins that has seconds to count. -/
def NoneBegins (s : ServerImpl) (l : ServerImpl.Label) : Prop :=
  ∀ cooldown now, begins s l = some (cooldown, now) → cooldown ≤ 0

/-- No other countdown begins, and nothing but the timer stops the server. -/
def Undisturbed (s : ServerImpl) (l : ServerImpl.Label) : Prop := begins s l = none ∧ ¬Stops s l

/-- In state `s`, after these calls of `on_timer`, the countdown of `cooldown` seconds up to
`deadline` that began in `s₀` has gone as it should. -/
structure CountsDown (cooldown deadline : Int) (calls : List (Int × Int)) (s₀ s : ServerImpl) :
    Prop where
  /-- Each call before the deadline announces the time left, rounded up. -/
  announced : s.announced =
    (calls.filter (·.1 < deadline)).map fun x => ceil (deadline - x.1)
  decreasing : s.announced.Pairwise (· > ·)
  within : ∀ n ∈ s.announced, 0 < n ∧ n ≤ cooldown
  /-- There are at most as many as a tenth of the cooldown, rounded up. -/
  few : (s.announced.length : Int) ≤ (cooldown + 9) / 10
  /-- A call at or after the deadline stops the server, and no other does. -/
  stops : s.stop_ = true ↔ s₀.stop_ = true ∨ ∃ x ∈ calls, deadline ≤ x.1
  /-- No call follows the one that stops. -/
  last : ∀ x ∈ calls.dropLast, x.1 < deadline
  /-- Until then a wait is pending, or has ended in time. -/
  waits : (∀ x ∈ calls, x.1 < deadline) →
    s.timerWaits = [.pending] ∨ s.timerWaits = [.done false] ∧ s.expiry ≤ s.clock

/-- A call that takes no time sets no wait that ends a second or more after the deadline. -/
def WaitsInTime (deadline : Int) (s : ServerImpl) (l : ServerImpl.Label) : Prop :=
  ∀ now, timerCall s l = some (now, now) → ∀ t, s.step l = some t → .pending ∈ t.timerWaits →
    t.expiry < deadline + second

/-! ### What is announced -/

/-- Seconds announced so far, when what is announced next is at most `m`. -/
structure Spaced (cooldown : Int) (announced : List Int) (m : Int) : Prop where
  decreasing : announced.Pairwise (· > ·)
  within : ∀ n ∈ announced, 0 < n ∧ n ≤ cooldown
  above : ∀ n ∈ announced, m < n
  room : m + 10 * announced.length ≤ cooldown
  bound : -9 ≤ m

section spaced
variable {cooldown m n : Int} {announced : List Int}

theorem spaced_nil (h : 0 < cooldown) : Spaced cooldown [] cooldown :=
  ⟨.nil, by simp, by simp, by simp, by omega⟩

theorem Spaced.snoc (h : Spaced cooldown announced m) (hpos : 0 < n) (hle : n ≤ m) :
    Spaced cooldown (announced ++ [n]) (n - 10) := by
  have hroom := h.room
  have habove : ∀ x ∈ announced, n < x := fun x hx => lt_of_le_of_lt hle (h.above x hx)
  refine ⟨?_, ?_, ?_, ?_, by omega⟩
  · exact List.pairwise_append.mpr ⟨h.decreasing, List.pairwise_singleton .., by simpa using habove⟩
  · intro x hx
    rcases List.mem_append.mp hx with hx | hx
    · exact h.within x hx
    · obtain rfl := List.mem_singleton.mp hx
      omega
  · intro x hx
    rcases List.mem_append.mp hx with hx | hx
    · have := habove x hx
      omega
    · obtain rfl := List.mem_singleton.mp hx
      omega
  · rw [List.length_append, List.length_singleton]
    omega

theorem Spaced.few (h : Spaced cooldown announced m) :
    (announced.length : Int) ≤ (cooldown + 9) / 10 := by
  have hroom := h.room
  have hbound := h.bound
  omega

end spaced

/-! ### One call of `on_timer` -/

/-- What `on_timer` finds when it is called: at most `m` seconds are left. -/
structure Called (cooldown deadline m : Int) (calls : List (Int × Int)) (s : ServerImpl)
    (now now' : Int) : Prop where
  time : s.shutdownTime = deadline
  spaced : Spaced cooldown s.announced m
  left : deadline ≤ now + max m 0 * second
  waits : s.timerWaits = []
  clock : now ≤ now'
  fits : deadline ≤ never
  announced : s.announced = calls.map fun x => ceil (deadline - x.1)
  early : ∀ x ∈ calls, x.1 < deadline

/-- The countdown goes on: a wait is pending, or has ended in time, and when it ends at most `m`
seconds are left. -/
structure Armed (cooldown deadline m : Int) (calls : List (Int × Int)) (s : ServerImpl) : Prop where
  time : s.shutdownTime = deadline
  spaced : Spaced cooldown s.announced m
  left : deadline ≤ s.expiry + max m 0 * second
  waits : s.timerWaits = [.pending] ∨ s.timerWaits = [.done false] ∧ s.expiry ≤ s.clock
  fits : deadline ≤ never
  announced : s.announced = calls.map fun x => ceil (deadline - x.1)
  early : ∀ x ∈ calls, x.1 < deadline

/-- The countdown has ended with the call `x`. -/
structure Over (cooldown deadline : Int) (calls : List (Int × Int)) (x : Int × Int) (s : ServerImpl) :
    Prop where
  stopped : s.stop_ = true
  spaced : ∃ m, Spaced cooldown s.announced m
  waits : s.timerWaits = []
  announced : s.announced = calls.map fun x => ceil (deadline - x.1)
  early : ∀ x ∈ calls, x.1 < deadline
  late : deadline ≤ x.1

/-- A countdown after these calls of `on_timer`. -/
inductive Counting (cooldown deadline : Int) (b : Bool) : List (Int × Int) → ServerImpl → Prop
  | armed {calls : List (Int × Int)} {m : Int} {s : ServerImpl} (h : Armed cooldown deadline m calls s)
      (hb : s.stop_ = b) : Counting cooldown deadline b calls s
  | elapsed {calls : List (Int × Int)} {x : Int × Int} {s : ServerImpl}
      (h : Over cooldown deadline calls x s) : Counting cooldown deadline b (calls ++ [x]) s

section call
variable {cooldown deadline m now now' : Int} {calls : List (Int × Int)}

/-- Before the deadline `on_timer` announces the time left, rounded up, and waits. -/
theorem onTimer_early (h : now < s.shutdownTime) (hwaits : s.timerWaits = []) :
    s.onTimer false now now' = { s with
      announced := s.announced ++ [ceil (s.shutdownTime - now)]
      expiry := min never (now' + min (ceil (s.shutdownTime - now)) 10 * second)
      timerWaits := [.pending]
      armed := s.armed + 1 } := by
  have hpos := (ceil_pos_iff (s.shutdownTime - now)).mpr (by omega)
  have hmin : (if ceil (s.shutdownTime - now) > 10 then 10 else ceil (s.shutdownTime - now)) =
      min (ceil (s.shutdownTime - now)) 10 := by
    split <;> omega
  unfold ServerImpl.onTimer
  rw [if_neg (by decide)]
  simp only [if_neg (not_le.mpr hpos), hmin, ServerImpl.expiresAfter, ServerImpl.asyncWaitTimer,
    hwaits]
  rfl

theorem onTimer_late (h : s.shutdownTime ≤ now) : s.onTimer false now now' = s.stop := by
  have hpos := ceil_pos_iff (s.shutdownTime - now)
  unfold ServerImpl.onTimer
  rw [if_neg (by decide)]
  exact if_pos (by omega)

theorem stop_eq (h : s.timerWaits = []) :
    s.stop.stop_ = true ∧ s.stop.timerWaits = [] ∧ s.stop.announced = s.announced := by
  unfold ServerImpl.stop
  split
  · rename_i hstop
    exact ⟨hstop, h, rfl⟩
  · rw [h]
    exact ⟨rfl, rfl, rfl⟩

/-- The call announces at most `m` and waits until at most ten less are left, or it stops. -/
theorem Called.counting (h : Called cooldown deadline m calls s now now') :
    Counting cooldown deadline s.stop_ (calls ++ [(now, now')]) (s.onTimer false now now') := by
  obtain ⟨rfl, hspaced, hleft, hwaits, hclock, hnever, hannounced, hcalls⟩ := h
  by_cases hearly : now < s.shutdownTime
  · have hpos := (ceil_pos_iff (s.shutdownTime - now)).mpr (by omega)
    have hceil := (ceil_bounds (s.shutdownTime - now)).1
    have hle : ceil (s.shutdownTime - now) ≤ max m 0 := (ceil_le_iff _ _).mpr (by omega)
    rw [onTimer_early hearly hwaits]
    refine .armed (m := ceil (s.shutdownTime - now) - 10)
      ⟨rfl, hspaced.snoc hpos (by omega), ?_, .inl rfl, hnever, by simp [hannounced], ?_⟩ rfl
    · generalize ceil (s.shutdownTime - now) = n at hceil ⊢
      show s.shutdownTime ≤ min never (now' + min n 10 * second) + max (n - 10) 0 * second
      simp only [second] at hceil ⊢
      omega
    · intro x hx
      rcases List.mem_append.mp hx with hx | hx
      · exact hcalls x hx
      · obtain rfl := List.mem_singleton.mp hx
        exact hearly
  · rw [onTimer_late (not_lt.mp hearly)]
    obtain ⟨hstop, htimer, hsame⟩ := stop_eq hwaits
    exact .elapsed ⟨hstop, ⟨m, hsame ▸ hspaced⟩, htimer, hsame.trans hannounced, hcalls,
      not_lt.mp hearly⟩

theorem Called.expiry_lt (h : Called cooldown deadline m calls s now now)
    (hpending : .pending ∈ (s.onTimer false now now).timerWaits) :
    (s.onTimer false now now).expiry < deadline + second := by
  obtain ⟨rfl, -, -, hwaits, -, -, -, -⟩ := h
  by_cases hearly : now < s.shutdownTime
  · have hceil := (ceil_bounds (s.shutdownTime - now)).2
    rw [onTimer_early hearly hwaits]
    generalize ceil (s.shutdownTime - now) = n at hceil ⊢
    show min never (now + min n 10 * second) < s.shutdownTime + second
    simp only [second] at hceil ⊢
    omega
  · rw [onTimer_late (not_lt.mp hearly), (stop_eq hwaits).2.1] at hpending
    cases hpending

end call

/-! ### One step -/

/-- Nothing was announced yet, and the timer was never set. -/
structure NotBegun (s : ServerImpl) : Prop where
  expiry : s.expiry = never
  waits : s.timerWaits = []
  announced : s.announced = []

theorem NotBegun.stop (h : NotBegun s) : NotBegun s.stop := by
  obtain ⟨-, hwaits, hsame⟩ := stop_eq h.waits
  refine ⟨?_, hwaits, hsame.trans h.announced⟩
  unfold ServerImpl.stop
  split
  · exact h.expiry
  · exact h.expiry

theorem notBegun_step (h : NotBegun s) (hl : NoneBegins s l) (hs : s.step l = some t) :
    NotBegun t := by
  obtain ⟨hexpiry, hwaits, hannounced⟩ := h
  cases ServerImpl.step_moves hs with
  | @shutdown cooldown now now' now'' hclock =>
    -- the cooldown is over before the time left is computed
    have hc : cooldown ≤ 0 := hl cooldown now (if_pos hexpiry)
    unfold ServerImpl.shutdown
    rw [if_neg (not_not.mpr hexpiry), onTimer_late (by simp only [second]; omega)]
    exact NotBegun.stop ⟨hexpiry, hwaits, hannounced⟩
  | stop => exact NotBegun.stop ⟨hexpiry, hwaits, hannounced⟩
  | timerExpires _ _ hwait =>
    rw [hwaits] at hwait
    cases hwait
  | onTimer _ hwait =>
    rw [hwaits] at hwait
    cases hwait
  | signalArrives => exact ⟨hexpiry, hwaits, hannounced⟩
  | @onSignal i now now' now'' aborted _ hwait =>
    cases aborted with
    | true => exact ⟨hexpiry, hwaits, hannounced⟩
    | false =>
      exact absurd (hl 30 now (if_pos ⟨hwait, hexpiry⟩)) (by decide)

section step
variable {cooldown deadline m now : Int} {b : Bool} {calls : List (Int × Int)}

/-- The first call of the countdown. -/
theorem called_begins (h : NotBegun s) (hbegins : begins s l = some (cooldown, now))
    (hc : 0 < cooldown) (hover : now + cooldown * second ≤ never) (hs : s.step l = some t) :
    ∃ s' now' now'', timerCall s l = some (now', now'') ∧ t = s'.onTimer false now' now'' ∧
      s'.stop_ = s.stop_ ∧
      Called cooldown (now + cooldown * second) cooldown [] s' now' now'' := by
  obtain ⟨hexpiry, hwaits, hannounced⟩ := h
  have hspaced : Spaced cooldown s.announced cooldown := hannounced ▸ spaced_nil hc
  cases ServerImpl.step_moves hs with
  | @shutdown cooldown' now₁ now' now'' hclock =>
    simp only [begins, if_pos hexpiry, Option.some.injEq, Prod.mk.injEq] at hbegins
    obtain ⟨rfl, rfl⟩ := hbegins
    refine ⟨{ s with clock := now'', shutdownTime := now₁ + cooldown' * second }, now', now'',
      if_pos hexpiry, if_neg (not_not.mpr hexpiry), rfl, rfl, hspaced, ?_, hwaits, hclock.2.2, hover,
      hannounced, by simp⟩
    simp only [second]
    omega
  | @onSignal i now₁ now' now'' aborted hclock hwait =>
    simp only [begins] at hbegins
    split at hbegins
    · rename_i hsignal
      simp only [Option.some.injEq, Prod.mk.injEq] at hbegins
      obtain ⟨rfl, rfl⟩ := hbegins
      obtain rfl : aborted = false := by simpa [hsignal.1] using hwait
      refine ⟨{ s with
          clock := now''
          signalWaits := s.signalWaits.eraseIdx i ++ [.pending]
          armed := s.armed + 1
          shutdownTime := now₁ + 30 * second }, now', now'', if_pos hsignal, ?_, rfl, rfl, hspaced, ?_,
        hwaits, hclock.2.2, hover, hannounced, by simp⟩
      · unfold ServerImpl.onSignal
        rw [if_neg (by decide), if_pos hexpiry]
        exact if_neg (not_not.mpr hexpiry)
      · simp only [second]
        omega
    · contradiction
  | _ => contradiction

/-- What only lets time pass, or concerns the signals, leaves the countdown alone. -/
theorem Counting.congr {clock : Int} {signalWaits : List Wait} (h : Counting cooldown deadline b calls s)
    (hclock : s.clock ≤ clock) :
    Counting cooldown deadline b calls { s with clock := clock, signalWaits := signalWaits } := by
  cases h with
  | armed h hb =>
    refine .armed ⟨h.time, h.spaced, h.left, ?_, h.fits, h.announced, h.early⟩ hb
    exact h.waits.imp_right fun hwait => ⟨hwait.1, le_trans hwait.2 hclock⟩
  | elapsed h => exact .elapsed ⟨h.stopped, h.spaced, h.waits, h.announced, h.early, h.late⟩

theorem only_wait {w w' : Wait} {i : Nat} (h : s.timerWaits = [w])
    (hwait : s.timerWaits[i]? = some w') : i = 0 ∧ w' = w := by
  rw [h, List.getElem?_singleton] at hwait
  split at hwait
  · rename_i hi
    exact ⟨hi, (Option.some.inj hwait).symm⟩
  · contradiction

/-- A step calls `on_timer` when a wait has ended, or has no part in the countdown. -/
theorem counting_step (h : Counting cooldown deadline b calls s) (hl : Undisturbed s l)
    (hs : s.step l = some t) :
    (timerCall s l = none ∧ Counting cooldown deadline b calls t) ∨
      ∃ m s' now now', timerCall s l = some (now, now') ∧ t = s'.onTimer false now now' ∧
        s'.stop_ = b ∧ Called cooldown deadline m calls s' now now' := by
  obtain ⟨hbegins, hstops⟩ := hl
  cases ServerImpl.step_moves hs with
  | @shutdown cooldown' now₁ now' now'' hclock =>
    have hexpiry : s.expiry ≠ never := by
      intro hexpiry
      simp only [begins, if_pos hexpiry] at hbegins
      contradiction
    refine .inl ⟨if_neg hexpiry, ?_⟩
    unfold ServerImpl.shutdown
    rw [if_pos hexpiry]
    exact h.congr (by omega)
  | stop => exact absurd trivial hstops
  | @timerExpires i now hclock hexpiry hwait =>
    refine .inl ⟨rfl, ?_⟩
    cases h with
    | armed h hb =>
      rcases h.waits with hpending | ⟨hdone, -⟩
      · obtain ⟨rfl, -⟩ := only_wait hpending hwait
        exact .armed ⟨h.time, h.spaced, h.left, .inr ⟨by rw [hpending]; rfl, hexpiry⟩, h.fits,
          h.announced, h.early⟩ hb
      · cases (only_wait hdone hwait).2
    | elapsed h =>
      rw [h.waits] at hwait
      cases hwait
  | @onTimer i now now' aborted hclock hwait =>
    cases h with
    | @armed _ m _ h hb =>
      rcases h.waits with hpending | ⟨hdone, hexpired⟩
      · cases (only_wait hpending hwait).2
      · obtain ⟨rfl, haborted⟩ := only_wait hdone hwait
        obtain rfl := Wait.done.inj haborted
        refine .inr ⟨m, _, now, now', if_pos hwait, rfl, hb, h.time, h.spaced, ?_, ?_, hclock.2,
          h.fits, h.announced, h.early⟩
        · have hleft := h.left
          omega
        · show s.timerWaits.eraseIdx 0 = []
          rw [hdone]
          rfl
    | elapsed h =>
      rw [h.waits] at hwait
      cases hwait
  | signalArrives => exact .inl ⟨rfl, h.congr (le_refl _)⟩
  | @onSignal i now now' now'' aborted hclock hwait =>
    cases aborted with
    | true =>
      refine .inl ⟨if_neg (by rw [hwait]; simp), h.congr (by omega)⟩
    | false =>
      by_cases hexpiry : s.expiry = never
      · simp only [begins, if_pos (And.intro hwait hexpiry)] at hbegins
        contradiction
      · exact absurd ⟨hwait, hexpiry⟩ hstops

end step

/-! ### Runs -/

section run
variable {cooldown deadline now : Int} {b : Bool} {calls : List (Int × Int)}

theorem counting_run (h : Counting cooldown deadline b calls s₁)
    (hrun : Run ServerImpl.step (· = s₁) tr s) (hl : AllSteps Undisturbed tr) :
    Counting cooldown deadline b (calls ++ timerCalls tr) s ∧ AllSteps (WaitsInTime deadline) tr := by
  induction hrun with
  | nil h0 =>
    obtain rfl := h0
    exact ⟨by simpa [timerCalls] using h, allSteps_nil⟩
  | @snoc tr s t l hrun hs ih =>
    obtain ⟨hall, hlast⟩ := allSteps_snoc.mp hl
    obtain ⟨hcount, hwaits⟩ := ih hall
    have hsnoc : timerCalls (tr ++ [(s, l)]) = timerCalls tr ++ (timerCall s l).toList := by
      simp only [timerCalls, List.filterMap_append, List.filterMap_cons, List.filterMap_nil]
      cases timerCall s l <;> rfl
    rw [hsnoc, ← List.append_assoc]
    rcases counting_step hcount hlast hs with ⟨hnone, ht⟩ | ⟨m, s', now, now', hcall, rfl, hb, hcalled⟩
    · rw [hnone]
      refine ⟨by simpa using ht, allSteps_snoc.mpr ⟨hwaits, fun now hcall => ?_⟩⟩
      rw [hnone] at hcall
      contradiction
    · rw [hcall]
      refine ⟨hb ▸ hcalled.counting, allSteps_snoc.mpr ⟨hwaits, fun now₁ hcall' t' ht' hpending => ?_⟩⟩
      rw [hs] at ht'
      obtain rfl := Option.some.inj ht'
      rw [hcall] at hcall'
      obtain ⟨rfl, rfl⟩ := Prod.mk.inj (Option.some.inj hcall')
      exact hcalled.expiry_lt hpending

/-- What the invariant says of the countdown so far. -/
theorem Counting.countsDown (h : Counting cooldown deadline b calls s) (hb : s₀.stop_ = b) :
    CountsDown cooldown deadline calls s₀ s := by
  subst hb
  have hfilter : ∀ {calls : List (Int × Int)}, (∀ x ∈ calls, x.1 < deadline) →
      calls.filter (·.1 < deadline) = calls :=
    fun hearly => List.filter_eq_self.mpr fun x hx => decide_eq_true (hearly x hx)
  cases h with
  | armed h hb =>
    refine ⟨?_, h.spaced.decreasing, h.spaced.within, h.spaced.few, ?_, ?_, fun _ => h.waits⟩
    · rw [hfilter h.early]
      exact h.announced
    · rw [hb]
      refine ⟨.inl, fun hstop => hstop.resolve_right ?_⟩
      rintro ⟨x, hx, hlate⟩
      exact not_le.mpr (h.early x hx) hlate
    · exact fun x hx => h.early x (List.dropLast_subset _ hx)
  | @elapsed calls x _ h =>
    obtain ⟨m, hspaced⟩ := h.spaced
    refine ⟨?_, hspaced.decreasing, hspaced.within, hspaced.few, ?_, ?_, ?_⟩
    · rw [List.filter_append, hfilter h.early, List.filter_cons_of_neg (by simpa using h.late),
        List.filter_nil, List.append_nil]
      exact h.announced
    · exact iff_of_true h.stopped (.inr ⟨x, by simp, h.late⟩)
    · rw [List.dropLast_concat]
      exact h.early
    · exact fun hall => absurd (hall x (by simp)) (not_lt.mpr h.late)

end run

theorem notBegun_run (hrun : Run ServerImpl.step ServerImpl.Running tr s)
    (hl : AllSteps NoneBegins tr) : NotBegun s := by
  refine (hrun.invariant ?_ (fun _ _ _ h hl hs => notBegun_step h hl hs) hl).2
  rintro s ⟨clock, rfl⟩
  exact ⟨rfl, rfl, rfl⟩

/-- From the call of `shutdown` that takes effect on, the countdown announces ever fewer seconds, at
most one for each ten of them, and stops the server when it first finds the time over. -/
theorem countdown_exact {cooldown now : Int} (h₀ : Run ServerImpl.step ServerImpl.Running tr₀ s₀)
    (hfirst : AllSteps NoneBegins tr₀)
    (hbegins : begins s₀ l₀ = some (cooldown, now)) (hs : s₀.step l₀ = some s₁)
    (h₁ : Run ServerImpl.step (· = s₁) tr₁ s) (hl : AllSteps Undisturbed tr₁) (hc : 0 < cooldown)
    (hover : now + cooldown * second ≤ never) :
    CountsDown cooldown (now + cooldown * second) (timerCalls ((s₀, l₀) :: tr₁)) s₀ s ∧
      AllSteps (WaitsInTime (now + cooldown * second)) ((s₀, l₀) :: tr₁) := by
  obtain ⟨s', now', now'', hcall, rfl, hstop, hcalled⟩ :=
    called_begins (notBegun_run h₀ hfirst) hbegins hc hover hs
  obtain ⟨hcount, hwaits⟩ := counting_run hcalled.counting h₁ hl
  have hcalls : timerCalls ((s₀, l₀) :: tr₁) = (now', now'') :: timerCalls tr₁ :=
    List.filterMap_cons_some hcall
  refine ⟨?_, fun x hx => ?_⟩
  · rw [hcalls]
    exact hcount.countsDown hstop.symm
  · rcases List.mem_cons.mp hx with rfl | hx
    · intro now₁ hcall' t ht hpending
      rw [hs] at ht
      obtain rfl := Option.some.inj ht
      rw [hcall] at hcall'
      obtain ⟨rfl, rfl⟩ := Prod.mk.inj (Option.some.inj hcall')
      exact hcalled.expiry_lt hpending
    · exact hwaits x hx

/-- The server whose clock stands at 0, and the same after `shutdown` with twelve seconds. -/
def started : ServerImpl := ({ : ServerImpl }).asyncWaitSignals

def begun : ServerImpl := started.shutdown 12 0 0 0

/-- The timer is late by half a second. -/
def lateTimer : List ServerImpl.Label :=
  [.timerExpires 0 10500000000, .onTimer 0 10500000000 10500000000,
    .timerExpires 0 12500000000, .onTimer 0 12500000000 12500000000]

theorem lateTimer_runs : (execute ServerImpl.step lateTimer [] begun).isSome := by decide

/-- Twelve and two seconds are announced, then the server stops. -/
theorem countdown_exact_late : ∃ s : ServerImpl, s.announced = [12, 2] ∧ s.stop_ = true ∧
    CountsDown 12 (12 * second) [(0, 0), (10500000000, 10500000000), (12500000000, 12500000000)]
      started s := by
  have hbegins : begins started (.shutdown 12 0 0 0) = some (12, 0) := rfl
  have hs : started.step (.shutdown 12 0 0 0) = some begun := by decide
  have hrun := Run.ofIsSome (· = begun) rfl lateTimer_runs
  have hl : AllSteps Undisturbed ((execute ServerImpl.step lateTimer [] begun).get lateTimer_runs).1 := by
    unfold AllSteps Undisturbed
    decide
  have hexact := (countdown_exact (.nil ⟨0, rfl⟩) allSteps_nil hbegins hs hrun hl (by decide)
    (by decide)).1
  rw [Int.zero_add] at hexact
  exact ⟨_, by decide, by decide, hexact⟩

end BeastLounge.Server
