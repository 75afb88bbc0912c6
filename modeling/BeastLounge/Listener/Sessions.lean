import Mathlib.Data.List.Nodup
import Mathlib.Logic.Function.Basic
import BeastLounge.Theory.Runs

/-!
# The sessions of a listener

A connection is served by a chain of session objects that share one moved stream: the accept loop
creates a `detector`, which hands the stream over to an HTTP session, which hands it over to a
WebSocket session on an upgrade. Each of them registers itself in `listener_impl::sessions_` from
its constructor and unregisters in its destructor, on its own strand.

The accept loop and `do_stop` run on the strand of the acceptor. `do_stop` closes the acceptor,
takes a list of weak pointers to the registered sessions, and calls `on_stop` on those that are
still alive; the strands of the sessions run in between. `on_stop` posts `do_stop` of the session to
the session's strand, where it cancels the outstanding operation; a completion that is already
queued keeps its result.
-/

namespace BeastLounge.Listener

open Theory

inductive Kind
  | detector
  | http
  | websocket
deriving DecidableEq

/-- The asynchronous operation of a session: outstanding, completed with its handler queued, or
none, when the session's coroutine has ended and its last reference is gone. -/
inductive Io
  | pending
  | queued (ok : Bool)
  | done
deriving DecidableEq

structure Session where
  kind : Kind
  io : Io := .pending
  /-- `do_stop` is queued on the session's strand. -/
  stopPosted : Bool := false
  /-- The number of calls of `on_stop`. -/
  stops : Nat := 0
  /-- The session was created after the listener's `do_stop` took its list. -/
  late : Bool := false
deriving DecidableEq

/-- `listener_config::kind` -/
inductive Tls
  | noTls
  | allowTls
  | requireTls
deriving DecidableEq

/-- How far `listener_impl::do_stop` has got: not called, the acceptor is closed, the sessions of the
list are being stopped, or returned. -/
inductive Phase
  | running
  | closed
  | stopping (v : List Nat)
  | finished
deriving DecidableEq

structure ListenerImpl where
  kind : Tls := .allowTls
  isOpen : Bool := true
  /-- The `async_accept` operation; `none` when none is outstanding. -/
  accept : Option Io := some .pending
  /-- `sessions_`, the registered sessions. -/
  sessions : List Nat := []
  /-- The session objects that have been constructed and not destroyed. -/
  live : Nat → Option Session := fun _ => none
  next : Nat := 0
  phase : Phase := .running

namespace ListenerImpl

/-- `do_stop` has taken its list of sessions. -/
def snapshotTaken (s : ListenerImpl) : Bool :=
  match s.phase with
  | .stopping _ => true
  | .finished => true
  | _ => false

def setSession (s : ListenerImpl) (id : Nat) (x : Session) : ListenerImpl :=
  { s with live := Function.update s.live id (some x) }

/-- A session is constructed; its constructor calls `listener::insert`. -/
def create (s : ListenerImpl) (kind : Kind) : ListenerImpl :=
  { s.setSession s.next { kind, late := s.snapshotTaken } with
    sessions := s.next :: s.sessions
    next := s.next + 1 }

/-- A session is destroyed; its destructor calls `listener::erase`. -/
def destroy (s : ListenerImpl) (id : Nat) : ListenerImpl :=
  { s with sessions := s.sessions.filter (· ≠ id), live := Function.update s.live id none }

/-- `listener_impl::operator()` on the completion of an accept. -/
def onAccept (s : ListenerImpl) (ok : Bool) : ListenerImpl :=
  if !ok then { s with accept := none } -- return fail(ec, ..)
  else if !s.isOpen then { s with accept := none }
  else
    let s := match s.kind with
      | .noTls => s.create .http
      | .allowTls => s.create .detector
      | .requireTls => s.create .http
    { s with accept := some .pending }

/-- What a session's coroutine does on a successful completion. -/
inductive Next
  /-- It creates the next session and ends. -/
  | handOff
  /-- It starts another operation. -/
  | again
  /-- It ends. -/
  | finish
deriving DecidableEq

/-- The session the stream is handed over to. -/
def handOffKind : Kind → Option Kind
  | .detector => some .http
  | .http => some .websocket
  | .websocket => none

/-- The coroutine of a session on the completion of its operation. A detector always hands over. -/
def resume (s : ListenerImpl) (id : Nat) (x : Session) (ok : Bool) (next : Next) : Option ListenerImpl :=
  if !ok then some (s.setSession id { x with io := .done })
  else match next with
    | .handOff =>
      (handOffKind x.kind).map fun k => (s.create k).setSession id { x with io := .done }
    | .again =>
      if x.kind = .detector then none else some (s.setSession id { x with io := .pending })
    | .finish =>
      if x.kind = .detector then none else some (s.setSession id { x with io := .done })

/-- `session::on_stop`, which posts `do_stop`. -/
def onStop (s : ListenerImpl) (id : Nat) : ListenerImpl :=
  match s.live id with
  | none => s -- the weak pointer has expired
  | some x => s.setSession id { x with stopPosted := true, stops := x.stops + 1 }

inductive Label
  /-- The accept completes. -/
  | acceptDone (ok : Bool)
  /-- The accept handler runs. -/
  | onAccept
  /-- The operation of a session completes. -/
  | ioDone (id : Nat) (ok : Bool)
  /-- The handler of a session's operation runs. -/
  | resume (id : Nat) (next : Next)
  /-- The posted `do_stop` of a session runs. -/
  | runStop (id : Nat)
  | destroy (id : Nat)
  /-- `listener_impl::do_stop` begins and closes the acceptor. -/
  | closeAcceptor
  /-- It takes the list of the registered sessions and clears the set. -/
  | snapshot
  /-- It stops the next session of the list. -/
  | notify
  /-- It returns. -/
  | finish
deriving DecidableEq

/-- The accept handler and `do_stop` are on one strand. -/
def strandFree (s : ListenerImpl) : Bool :=
  match s.phase with
  | .running => true
  | .finished => true
  | _ => false

def step (s : ListenerImpl) : Label → Option ListenerImpl
  | .acceptDone ok =>
    if s.accept = some .pending then some { s with accept := some (.queued ok) } else none
  | .onAccept =>
    match s.accept with
    | some (.queued ok) => if s.strandFree then some (s.onAccept ok) else none
    | _ => none
  | .ioDone id ok =>
    match s.live id with
    | some x =>
      if x.io = .pending then some (s.setSession id { x with io := .queued ok }) else none
    | none => none
  | .resume id next =>
    match s.live id with
    | some x =>
      match x.io with
      | .queued ok => s.resume id x ok next
      | _ => none
    | none => none
  | .runStop id =>
    match s.live id with
    | some x =>
      if x.stopPosted then
        some (s.setSession id { x with
          stopPosted := false
          io := if x.io = .pending then .queued false else x.io })
      else none
    | none => none
  | .destroy id =>
    match s.live id with
    | some x =>
      -- the handler posted by `detector::on_stop` holds no reference to the detector
      if x.io = .done ∧ (x.kind = .detector ∨ x.stopPosted = false) then some (s.destroy id)
      else none
    | none => none
  | .closeAcceptor =>
    if s.phase = .running then
      some { s with
        isOpen := false
        accept := if s.accept = some .pending then some (.queued false) else s.accept
        phase := .closed }
    else none
  | .snapshot =>
    if s.phase = .closed then some { s with phase := .stopping s.sessions, sessions := [] } else none
  | .notify =>
    match s.phase with
    | .stopping (id :: v) => some { s.onStop id with phase := .stopping v }
    | _ => none
  | .finish => if s.phase = .stopping [] then some { s with phase := .finished } else none

/-- The steps of the listener, with the condition under which each is taken. -/
inductive Moves (s : ListenerImpl) : Label → ListenerImpl → Prop
  | acceptDone {ok : Bool} (haccept : s.accept = some .pending) :
      Moves s (.acceptDone ok) { s with accept := some (.queued ok) }
  | onAccept {ok : Bool} (haccept : s.accept = some (.queued ok)) (hfree : s.strandFree = true) :
      Moves s .onAccept (s.onAccept ok)
  | ioDone {id : Nat} {ok : Bool} {x : Session} (hx : s.live id = some x) (hio : x.io = .pending) :
      Moves s (.ioDone id ok) (s.setSession id { x with io := .queued ok })
  | resume {id : Nat} {ok : Bool} {next : Next} {x : Session} {t : ListenerImpl}
      (hx : s.live id = some x) (hio : x.io = .queued ok) (ht : s.resume id x ok next = some t) :
      Moves s (.resume id next) t
  | runStop {id : Nat} {x : Session} (hx : s.live id = some x) (hposted : x.stopPosted = true) :
      Moves s (.runStop id) (s.setSession id { x with
        stopPosted := false
        io := if x.io = .pending then .queued false else x.io })
  | destroy {id : Nat} {x : Session} (hx : s.live id = some x) (hdone : x.io = .done) :
      Moves s (.destroy id) (s.destroy id)
  | closeAcceptor (hphase : s.phase = .running) :
      Moves s .closeAcceptor { s with
        isOpen := false
        accept := if s.accept = some .pending then some (.queued false) else s.accept
        phase := .closed }
  | snapshot (hphase : s.phase = .closed) :
      Moves s .snapshot { s with phase := .stopping s.sessions, sessions := [] }
  | notify {id : Nat} {v : List Nat} (hphase : s.phase = .stopping (id :: v)) :
      Moves s .notify { s.onStop id with phase := .stopping v }
  | finish (hphase : s.phase = .stopping []) : Moves s .finish { s with phase := .finished }

theorem step_moves {s t : ListenerImpl} {l : Label} (h : s.step l = some t) : Moves s l t := by
  cases l with
  | acceptDone ok =>
    simp only [step, Option.ite_none_right_eq_some, Option.some.injEq] at h
    obtain ⟨haccept, rfl⟩ := h
    exact .acceptDone haccept
  | onAccept =>
    simp only [step] at h
    split at h
    · rename_i ok haccept
      simp only [Option.ite_none_right_eq_some, Option.some.injEq] at h
      obtain ⟨hfree, rfl⟩ := h
      exact .onAccept haccept hfree
    · contradiction
  | ioDone id ok =>
    simp only [step] at h
    split at h
    · rename_i x hx
      simp only [Option.ite_none_right_eq_some, Option.some.injEq] at h
      obtain ⟨hio, rfl⟩ := h
      exact .ioDone hx hio
    · contradiction
  | resume id next =>
    simp only [step] at h
    split at h
    · rename_i x hx
      split at h
      · rename_i ok hio
        exact .resume hx hio h
      · contradiction
    · contradiction
  | runStop id =>
    simp only [step] at h
    split at h
    · rename_i x hx
      simp only [Option.ite_none_right_eq_some, Option.some.injEq] at h
      obtain ⟨hposted, rfl⟩ := h
      exact .runStop hx hposted
    · contradiction
  | destroy id =>
    simp only [step] at h
    split at h
    · rename_i x hx
      simp only [Option.ite_none_right_eq_some, Option.some.injEq] at h
      obtain ⟨hdone, rfl⟩ := h
      exact .destroy hx hdone.1
    · contradiction
  | closeAcceptor =>
    simp only [step, Option.ite_none_right_eq_some, Option.some.injEq] at h
    obtain ⟨hphase, rfl⟩ := h
    exact .closeAcceptor hphase
  | snapshot =>
    simp only [step, Option.ite_none_right_eq_some, Option.some.injEq] at h
    obtain ⟨hphase, rfl⟩ := h
    exact .snapshot hphase
  | notify =>
    simp only [step] at h
    split at h
    · rename_i id v hphase
      obtain rfl := Option.some.inj h
      exact .notify hphase
    · contradiction
  | finish =>
    simp only [step, Option.ite_none_right_eq_some, Option.some.injEq] at h
    obtain ⟨hphase, rfl⟩ := h
    exact .finish hphase

/-- The listener when `on_start` has begun the first accept. -/
def Started (s : ListenerImpl) : Prop := ∃ kind, s = { kind }

end ListenerImpl

end BeastLounge.Listener
