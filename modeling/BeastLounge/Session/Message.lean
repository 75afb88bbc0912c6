import BeastLounge.Json.Text
import BeastLounge.Session.WriteQueue

/-!
# Messages

`make_message` serializes a value into a buffer of 16384 bytes and returns a null message when the
text does not fit. Nothing checks the handle until `async_write` asks the message for its buffers,
and `begin` dereferences it. So no null message is written by a session exactly when none is sent
to it (`sent_of_started`), and a value makes a complete message exactly when its text fits
(`complete_iff`).

The serializer belongs to a library. It is a parameter, and `Writes` says what `make_message` relies
on.
-/

namespace BeastLounge.Session

open Theory Json

/-- `json::serializer`, with states in `σ`. -/
structure Serializer (σ : Type) where
  /-- `serializer sr(jv)` -/
  init : Value → σ
  /-- `read(buf, n)`: the bytes that are written to `buf`. -/
  read : σ → Nat → List UInt8 × σ
  isDone : σ → Bool

/-- The bytes of a text. -/
def utf8 (s : String) : List UInt8 := s.toByteArray.data.toList

/-- The serializer writes the text of the value. -/
structure Serializer.Writes {σ : Type} (S : Serializer σ) (text : Value → String) : Prop where
  /-- `read` writes at most the given number of bytes. -/
  length_read : ∀ jv n, (S.read (S.init jv) n).1.length ≤ n
  /-- `is_done()` is false when the text did not fit. -/
  not_done : ∀ jv n, n < (text jv).utf8ByteSize → S.isDone (S.read (S.init jv) n).2 = false
  /-- `read` fills the buffer, and `is_done()` is true once the whole text is written. -/
  done : ∀ jv n, (text jv).utf8ByteSize ≤ n →
    (S.read (S.init jv) n).1 = utf8 (text jv) ∧ S.isDone (S.read (S.init jv) n).2 = true

/-- A handle on a shared buffer; `none` is the null pointer. -/
structure Message where
  p : Option (List UInt8) := none
deriving DecidableEq

/-- `message::begin`, undefined on a null message. -/
def Message.begin (m : Message) : Option (List UInt8) := m.p

section message
variable {σ : Type} (S : Serializer σ) (text : Value → String)

def makeMessage (jv : Value) : Message :=
  let sr := S.init jv
  let (buf, sr) := S.read sr 16384
  if !S.isDone sr then {} -- buffer overflow!
  else ⟨some buf⟩

/-- The message made of the value is its complete text. -/
def Complete (jv : Value) : Prop := makeMessage S jv = ⟨some (utf8 (text jv))⟩

variable {S text} (hS : S.Writes text) {jv : Value}

theorem length_utf8 (s : String) : (utf8 s).length = s.utf8ByteSize := rfl

include hS

/-- A value whose text does not fit makes a null message. -/
theorem null_of_long (h : 16384 < (text jv).utf8ByteSize) : makeMessage S jv = {} := by
  have hdone := hS.not_done jv 16384 h
  simp [makeMessage, hdone]

theorem complete_iff : Complete S text jv ↔ (text jv).utf8ByteSize ≤ 16384 := by
  constructor
  · intro h
    unfold Complete makeMessage at h
    simp only at h
    split at h
    · cases h
    · have hread : (S.read (S.init jv) 16384).1 = utf8 (text jv) := by simpa using h
      rw [← length_utf8, ← hread]
      exact hS.length_read jv 16384
  · intro h
    obtain ⟨hread, hdone⟩ := hS.done jv 16384 h
    simp [Complete, makeMessage, hread, hdone]

end message

/-! ### A serializer that writes -/

/-- Its state is what it has not written yet. -/
def writer (text : Value → String) : Serializer (List UInt8) where
  init jv := utf8 (text jv)
  read rest n := (rest.take n, rest.drop n)
  isDone rest := rest.isEmpty

theorem writer_writes (text : Value → String) : (writer text).Writes text where
  length_read jv n := List.length_take_le n _
  not_done jv n h := by
    have hrest : (utf8 (text jv)).drop n ≠ [] := by simpa [length_utf8] using h
    exact List.isEmpty_eq_false_iff.mpr hrest
  done jv n h := by
    refine ⟨List.take_of_length_le h, ?_⟩
    exact List.isEmpty_iff.mpr (List.drop_of_length_le h)

/-! ### What a session writes -/

section written
variable {M : Type} {P : M → Prop} {s t : WsSession M}

/-- Every message the session holds, or has handed to `async_write`, satisfies `P`. -/
structure Holds (P : M → Prop) (s : WsSession M) : Prop where
  mq : ∀ m ∈ s.mq, P m
  started : ∀ m ∈ s.started, P m

theorem Holds.doWrite (h : Holds P s) : Holds P s.doWrite := by
  refine ⟨by rw [s.doWrite_mq]; exact h.mq, ?_⟩
  unfold WsSession.doWrite
  split
  · exact h.started
  · rename_i m hlast
    intro x hx
    rcases List.mem_append.mp hx with hx | hx
    · exact h.started x hx
    · rw [List.mem_singleton.mp hx]
      exact h.mq m (List.mem_of_getLast? hlast)

theorem Holds.onWrite (h : Holds P s) (idx : Nat) (failed : Bool) :
    Holds P (s.onWrite idx failed) := by
  have hswapped : ∀ x ∈ (if idx ≠ s.mq.length - 1 then swap s.mq idx (s.mq.length - 1) else s.mq),
      P x := by
    intro x hx
    split at hx
    · exact h.mq x (mem_of_mem_swap hx)
    · exact h.mq x hx
  have hpopped : ∀ (mq : List M) (n : Nat), (∀ x ∈ mq, P x) → Holds P { s with mq := mq.take n } :=
    fun mq n hmq => ⟨fun x hx => hmq x (List.mem_of_mem_take hx), h.started⟩
  cases failed with
  | true => exact h
  | false =>
    simp only [WsSession.onWrite, Bool.false_eq_true, if_false]
    generalize (if idx ≠ s.mq.length - 1 then swap s.mq idx (s.mq.length - 1) else s.mq) = mq
      at hswapped ⊢
    split
    · exact (hpopped mq _ hswapped).doWrite
    · exact hpopped mq _ hswapped

theorem holds_step {l : WsSession.Label M} (h : Holds P s) (hsend : ∀ m, l = .send m → P m)
    (hstep : s.step l = some t) : Holds P t := by
  cases l with
  | send m =>
    obtain rfl := Option.some.inj hstep
    have hnew : Holds P { s with mq := s.mq ++ [m], accepted := s.accepted ++ [m] } := by
      refine ⟨fun x hx => ?_, h.started⟩
      rcases List.mem_append.mp hx with hx | hx
      · exact h.mq x hx
      · rw [List.mem_singleton.mp hx]
        exact hsend m rfl
    unfold WsSession.doSend
    split
    · exact h
    · simp only
      split
      · exact hnew.doWrite
      · exact hnew
  | complete i failed =>
    simp only [WsSession.step] at hstep
    split at hstep
    · contradiction
    · rename_i idx m hw
      obtain rfl := Option.some.inj hstep
      exact Holds.onWrite (s := { s with
        writes := s.writes.eraseIdx i, written := if failed then s.written else s.written ++ [m] })
        ⟨h.mq, h.started⟩ idx failed
  | close =>
    obtain rfl := Option.some.inj hstep
    exact ⟨h.mq, h.started⟩

/-- What a session hands to `async_write` was sent to it. -/
theorem sent_of_started {tr : List (WsSession M × WsSession.Label M)}
    (hrun : Run WsSession.step WsSession.Fresh tr s)
    (hsend : AllSteps (fun _ l => ∀ m, l = .send m → P m) tr) : ∀ m ∈ s.started, P m := by
  have hinv := hrun.invariant (I := Holds P) (P := fun _ l => ∀ m, l = .send m → P m)
    (fun s hs => by obtain rfl := hs; exact ⟨by simp, by simp⟩)
    (fun s l t hs hl hst => holds_step hs hl hst) hsend
  exact hinv.2.started

end written

end BeastLounge.Session
