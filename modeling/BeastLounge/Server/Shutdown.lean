import Mathlib.Data.Int.Basic
import BeastLounge.Theory.Runs
import BeastLounge.Json.Value

/-!
# Shutting the server down

`server_impl` ends through four functions that all run on the strand of `timer_`: `shutdown` starts
a countdown, `on_timer` announces the time left and re-arms the timer, `on_signal` starts the
countdown on the first signal and stops on the second, and `stop` sets `stop_` and cancels what is
outstanding.

Times are ticks of `steady_clock` (nanoseconds); each label carries the clock readings its handler
makes, in order, and `clock` is the last reading made. A wait started with `async_wait` is pending
until it is done, with `operation_aborted` when it was cancelled; its handler runs later. Cancelling
changes pending waits only: a completion that is already queued keeps its error code.
-/

namespace BeastLounge.Server

open Theory

/-- One second in clock ticks. -/
def second : Int := 1000000000

/-- `time_point::max()` -/
def never : Int := 2 ^ 63 - 1

/-- `ceil<std::chrono::seconds>(d)`, on a cast that truncates towards zero. -/
def ceil (d : Int) : Int :=
  let t := d.tdiv second
  if t * second < d then t + 1 else t

/-- It rounds up, whatever the sign. -/
theorem ceil_bounds (d : Int) : d ≤ ceil d * second ∧ ceil d * second < d + second := by
  have hs : (0 : Int) < second := by decide
  have hsum := Int.mul_tdiv_add_tmod d second
  rw [Int.mul_comm] at hsum
  have hlt : d.tmod second < second := Int.tmod_lt_of_pos d hs
  have hgt : -second < d.tmod second := Int.lt_tmod_of_pos d hs
  simp only [ceil]
  split
  · rw [Int.add_mul, Int.one_mul]
    omega
  · omega

theorem ceil_le_iff (d n : Int) : ceil d ≤ n ↔ d ≤ n * second := by
  obtain ⟨hle, hlt⟩ := ceil_bounds d
  simp only [second] at hle hlt ⊢
  omega

theorem ceil_pos_iff (d : Int) : 0 < ceil d ↔ 0 < d := by
  have hle := ceil_le_iff d 0
  rw [Int.zero_mul] at hle
  omega

/-- An asynchronous wait. -/
inductive Wait
  | pending
  /-- The handler is queued, with `operation_aborted` or with success. -/
  | done (aborted : Bool)
deriving DecidableEq

/-- `cancel()` on the object the waits belong to. -/
def cancel (waits : List Wait) : List Wait :=
  waits.map fun
    | .pending => .done true
    | .done aborted => .done aborted

/-- What the countdown tells the members of the system channel. -/
def shutdownNotice (remain : Int) : Json.Value :=
  .object [("verb", .string "say"), ("cid", .number (.int 1)), ("name", .string "System"),
    ("message", .string ("Server is shutting down in " ++ toString remain ++ " seconds"))]

structure ServerImpl where
  stop_ : Bool := false
  /-- `timer_.expiry()` -/
  expiry : Int := never
  shutdownTime : Int := never
  timerWaits : List Wait := []
  signalWaits : List Wait := []
  clock : Int := 0
  /-- The number of waits ever started on `timer_` and `signals_`. -/
  armed : Nat := 0
  /-- The seconds announced by `on_timer`, in order. -/
  announced : List Int := []
deriving DecidableEq

namespace ServerImpl

def asyncWaitTimer (s : ServerImpl) : ServerImpl :=
  { s with timerWaits := s.timerWaits ++ [.pending], armed := s.armed + 1 }

def asyncWaitSignals (s : ServerImpl) : ServerImpl :=
  { s with signalWaits := s.signalWaits ++ [.pending], armed := s.armed + 1 }

/-- `timer_.expires_after(amount)`, which cancels the waits begun before. -/
def expiresAfter (s : ServerImpl) (amount now : Int) : ServerImpl :=
  { s with expiry := min never (now + amount), timerWaits := cancel s.timerWaits }

def stop (s : ServerImpl) : ServerImpl :=
  if s.stop_ then s
  else
    { s with
      stop_ := true
      timerWaits := cancel s.timerWaits
      signalWaits := cancel s.signalWaits }

/-- `on_timer(ec)`, reading the clock for the time left and again in `expires_after`. -/
def onTimer (s : ServerImpl) (aborted : Bool) (now now' : Int) : ServerImpl :=
  if aborted then s
  else
    let remain := ceil (s.shutdownTime - now)
    if remain ≤ 0 then s.stop
    else
      let amount := if remain > 10 then 10 else remain
      let s := { s with announced := s.announced ++ [remain] }
      (s.expiresAfter (amount * second) now').asyncWaitTimer

/-- `shutdown(cooldown)` on the strand; `cooldown` is in seconds. -/
def shutdown (s : ServerImpl) (cooldown now now' now'' : Int) : ServerImpl :=
  if s.expiry ≠ never then s
  else
    let s := { s with shutdownTime := now + cooldown * second }
    s.onTimer false now' now''

def onSignal (s : ServerImpl) (aborted : Bool) (now now' now'' : Int) : ServerImpl :=
  if aborted then s
  else if s.expiry = never then s.asyncWaitSignals.shutdown 30 now now' now''
  else s.stop

/-- What can happen next: a handler runs on the strand, with its clock readings, or a pending wait
completes. -/
inductive Label
  | shutdown (cooldown now now' now'' : Int)
  | stop
  | timerExpires (i : Nat) (now : Int)
  | onTimer (i : Nat) (now now' : Int)
  | signalArrives (i : Nat)
  | onSignal (i : Nat) (now now' now'' : Int)
deriving DecidableEq

def step (s : ServerImpl) : Label → Option ServerImpl
  | .shutdown cooldown now now' now'' =>
    if s.clock ≤ now ∧ now ≤ now' ∧ now' ≤ now'' then
      some ({ s with clock := now'' }.shutdown cooldown now now' now'')
    else none
  | .stop => some s.stop
  | .timerExpires i now =>
    if s.clock ≤ now ∧ s.expiry ≤ now ∧ s.timerWaits[i]? = some .pending then
      some { s with clock := now, timerWaits := s.timerWaits.set i (.done false) }
    else none
  | .onTimer i now now' =>
    match s.timerWaits[i]? with
    | some (.done aborted) =>
      if s.clock ≤ now ∧ now ≤ now' then
        some ({ s with clock := now', timerWaits := s.timerWaits.eraseIdx i }.onTimer aborted now
          now')
      else none
    | _ => none
  | .signalArrives i =>
    if s.signalWaits[i]? = some .pending then
      some { s with signalWaits := s.signalWaits.set i (.done false) }
    else none
  | .onSignal i now now' now'' =>
    match s.signalWaits[i]? with
    | some (.done aborted) =>
      if s.clock ≤ now ∧ now ≤ now' ∧ now' ≤ now'' then
        some ({ s with clock := now'', signalWaits := s.signalWaits.eraseIdx i }.onSignal aborted
          now now' now'')
      else none
    | _ => none

/-- The steps of the server, with the condition under which each is taken. -/
inductive Moves (s : ServerImpl) : Label → ServerImpl → Prop
  | shutdown {cooldown now now' now'' : Int}
      (hclock : s.clock ≤ now ∧ now ≤ now' ∧ now' ≤ now'') :
      Moves s (.shutdown cooldown now now' now'')
        ({ s with clock := now'' }.shutdown cooldown now now' now'')
  | stop : Moves s .stop s.stop
  | timerExpires {i : Nat} {now : Int} (hclock : s.clock ≤ now) (hexpiry : s.expiry ≤ now)
      (hwait : s.timerWaits[i]? = some .pending) :
      Moves s (.timerExpires i now)
        { s with clock := now, timerWaits := s.timerWaits.set i (.done false) }
  | onTimer {i : Nat} {now now' : Int} {aborted : Bool} (hclock : s.clock ≤ now ∧ now ≤ now')
      (hwait : s.timerWaits[i]? = some (.done aborted)) :
      Moves s (.onTimer i now now')
        ({ s with clock := now', timerWaits := s.timerWaits.eraseIdx i }.onTimer aborted now now')
  | signalArrives {i : Nat} (hwait : s.signalWaits[i]? = some .pending) :
      Moves s (.signalArrives i) { s with signalWaits := s.signalWaits.set i (.done false) }
  | onSignal {i : Nat} {now now' now'' : Int} {aborted : Bool}
      (hclock : s.clock ≤ now ∧ now ≤ now' ∧ now' ≤ now'')
      (hwait : s.signalWaits[i]? = some (.done aborted)) :
      Moves s (.onSignal i now now' now'')
        ({ s with clock := now'', signalWaits := s.signalWaits.eraseIdx i }.onSignal aborted now
          now' now'')

theorem step_moves {s t : ServerImpl} {l : Label} (h : s.step l = some t) : Moves s l t := by
  cases l with
  | shutdown cooldown now now' now'' =>
    simp only [step, Option.ite_none_right_eq_some, Option.some.injEq] at h
    obtain ⟨hclock, rfl⟩ := h
    exact .shutdown hclock
  | stop =>
    obtain rfl := Option.some.inj h
    exact .stop
  | timerExpires i now =>
    simp only [step, Option.ite_none_right_eq_some, Option.some.injEq] at h
    obtain ⟨⟨hclock, hexpiry, hwait⟩, rfl⟩ := h
    exact .timerExpires hclock hexpiry hwait
  | onTimer i now now' =>
    simp only [step] at h
    split at h
    · rename_i aborted hwait
      simp only [Option.ite_none_right_eq_some, Option.some.injEq] at h
      obtain ⟨hclock, rfl⟩ := h
      exact .onTimer hclock hwait
    · contradiction
  | signalArrives i =>
    simp only [step, Option.ite_none_right_eq_some, Option.some.injEq] at h
    obtain ⟨hwait, rfl⟩ := h
    exact .signalArrives hwait
  | onSignal i now now' now'' =>
    simp only [step] at h
    split at h
    · rename_i aborted hwait
      simp only [Option.ite_none_right_eq_some, Option.some.injEq] at h
      obtain ⟨hclock, rfl⟩ := h
      exact .onSignal hclock hwait
    · contradiction

/-- The server when `run` has started: the constructor has set the expiry to `never()`, and the
first wait for a signal is pending. -/
def Running (s : ServerImpl) : Prop := ∃ clock, s = { clock := clock : ServerImpl }.asyncWaitSignals

end ServerImpl

end BeastLounge.Server
