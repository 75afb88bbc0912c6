import Mathlib.Data.List.Basic
import Mathlib.Data.List.Nodup
import BeastLounge.Theory.Runs
import BeastLounge.Theory.Containers

/-!
# The write queue of a WebSocket session

`ws_session_base` keeps the messages that are not yet written in the vector `mq_` and has at most
one `async_write` in flight, on `mq_.back()`; the position of that message is bound into the
completion handler `on_write`, which swaps the finished message with the last one and shrinks the
vector.

All the functions here run on the session's strand, so a run is a sequence of them: a call of
`do_send`, the completion of an outstanding write with or without an error, or the socket being
closed (by `do_stop` or by the peer). `accepted`, `started` and `written` are ghost fields that
record the messages queued by `do_send`, handed to `async_write` and written successfully, each in
that order.
-/

namespace BeastLounge.Session

open Theory

/-- The writing side of `ws_session_base`, over any type `M` of messages. -/
structure WsSession (M : Type) where
  /-- `beast::get_lowest_layer(ws()).socket().is_open()` -/
  isOpen : Bool := true
  mq : List M := []
  /-- The outstanding `async_write` operations: the index bound into `on_write` and the buffer. -/
  writes : List (Nat × M) := []
  accepted : List M := []
  started : List M := []
  written : List M := []
deriving DecidableEq

variable {M : Type}

namespace WsSession

def doWrite (s : WsSession M) : WsSession M :=
  match s.mq.getLast? with
  | none => s -- BOOST_ASSERT(! mq_.empty())
  | some m =>
    { s with
      writes := s.writes ++ [(s.mq.length - 1, m)]
      started := s.started ++ [m] }

def doSend (s : WsSession M) (m : M) : WsSession M :=
  if !s.isOpen then s
  else
    let s := { s with mq := s.mq ++ [m], accepted := s.accepted ++ [m] }
    if s.mq.length = 1 then s.doWrite else s

/-- `on_write(idx, ec)`; `failed` is the truth value of `ec`. -/
def onWrite (s : WsSession M) (idx : Nat) (failed : Bool) : WsSession M :=
  if failed then s -- fail(ec, "on_write")
  else
    let last := s.mq.length - 1
    let mq := if idx ≠ last then swap s.mq idx last else s.mq
    let s := { s with mq := mq.take last }
    if !s.mq.isEmpty then s.doWrite else s

/-- What can happen next on the session's strand. -/
inductive Label (M : Type)
  /-- `do_send(m)` runs. -/
  | send (m : M)
  /-- The outstanding write number `i` completes. -/
  | complete (i : Nat) (failed : Bool)
  /-- The socket is closed. -/
  | close
deriving DecidableEq

def step (s : WsSession M) : Label M → Option (WsSession M)
  | .send m => some (s.doSend m)
  | .complete i failed =>
    match s.writes[i]? with
    | none => none
    | some (idx, m) =>
      let s := { s with
        writes := s.writes.eraseIdx i
        written := if failed then s.written else s.written ++ [m] }
      some (s.onWrite idx failed)
  | .close => some { s with isOpen := false }

/-- A session starts with an open socket and an empty queue. -/
def Fresh (s : WsSession M) : Prop := s = {}

end WsSession

/-! ### What the handlers leave alone -/

namespace WsSession

variable (s : WsSession M)

@[simp] theorem doWrite_mq : s.doWrite.mq = s.mq := by unfold doWrite; split <;> rfl

@[simp] theorem doWrite_accepted : s.doWrite.accepted = s.accepted := by
  unfold doWrite; split <;> rfl

@[simp] theorem onWrite_accepted (idx : Nat) (failed : Bool) :
    (s.onWrite idx failed).accepted = s.accepted := by
  simp only [onWrite]
  split_ifs <;> simp

theorem doSend_accepted (m : M) :
    (s.doSend m).accepted = if s.isOpen then s.accepted ++ [m] else s.accepted := by
  cases h : s.isOpen
  · simp [doSend, h]
  · simp only [doSend, h, Bool.not_true, Bool.false_eq_true, if_false]
    split_ifs <;> simp

end WsSession

/-! ### The vector after a completed write -/

/-- What is left of `front ++ x :: more` once `x` is written: the last message takes its place. -/
def refill (front more : List M) : List M :=
  match more.getLast? with
  | none => front
  | some z => front ++ z :: more.dropLast

theorem refill_nil (front : List M) : refill front [] = front := rfl

theorem refill_concat (front ms : List M) (z : M) :
    refill front (ms ++ [z]) = front ++ z :: ms := by
  simp [refill]

theorem take_swap_last (front more : List M) (x : M) {mq : List M} (hmq : mq = front ++ x :: more) :
    (if front.length ≠ mq.length - 1 then swap mq front.length (mq.length - 1) else mq).take
      (mq.length - 1) = refill front more := by
  subst hmq
  rcases List.eq_nil_or_concat' more with rfl | ⟨ms, z, rfl⟩
  · simp [refill_nil]
  · have hlen : (front ++ x :: (ms ++ [z])).length - 1 = front.length + ms.length + 1 := by
      simp only [List.length_append, List.length_cons, List.length_nil]; omega
    rw [hlen, if_pos (by omega), swap_last, refill_concat]
    rw [show front ++ z :: (ms ++ [x]) = (front ++ z :: ms) ++ [x] by simp]
    have hfront : (front ++ z :: ms).length = front.length + ms.length + 1 := by
      simp only [List.length_append, List.length_cons, Nat.add_assoc]
    rw [List.take_append_of_le_length (Nat.le_of_eq hfront.symm),
      List.take_of_length_le (Nat.le_of_eq hfront)]

end BeastLounge.Session
