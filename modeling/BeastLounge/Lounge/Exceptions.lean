import BeastLounge.Lounge.Rules
import BeastLounge.Lounge.World

/-!
# Exceptions that leave the read loop

Processing a frame fails through `rpc_error`, which the read loop answers, except in one place: the
conversion of the channel's id with `number_cast`, which comes before the first access to the state
of the server. So an exception leaves the loop exactly when a request that is accepted carries a
`cid` that is no number representable in `std::size_t`, in whatever state the server is and whatever
other threads do in between.
-/

namespace BeastLounge.Lounge

open Theory Json Rpc

open Prog (Trace Keeps free)

/-- If the request is accepted and has a `cid`, the `cid` is a number that `std::size_t` represents
exactly. -/
def CidConverts (u : UserId) (jv : Value) : Prop :=
  (RpcCall.extract { u } jv).2 = none →
    ∀ v, (RpcCall.extract { u } jv).1.params.member "cid" = some v → v.toSize ≠ none

section throws
variable {u : UserId}

/-- A frame whose `cid` converts is processed without an exception. -/
theorem readFrame_throws {jv : Value} (h : CidConverts u jv) :
    Keeps free (fun _ => True) (fun _ => False) (readFrame u jv) := by
  have hnames : ∀ (v : Unit) (name : String), True → True → True := fun _ _ _ _ => trivial
  apply keeps_readFrame (K := fun _ => True) jv (fun c _ => Prog.free_safe c)
    (fun _ _ _ _ _ => trivial)
    (fun _ _ => keeps_insert_of_safe hnames fun c _ => Prog.free_safe c)
    (fun _ _ => keeps_erase_of_safe hnames fun c _ _ => Prog.free_safe c)
  intro hnone v hv hsize
  exact h hnone v (checkedValue_eq_ok.mp hv) hsize

/-- Otherwise the exception of `number_cast` is all there is. -/
theorem readFrame_eq_throw {jv : Value} (h : ¬CidConverts u jv) : readFrame u jv = .throw .system := by
  unfold CidConverts at h
  push Not at h
  obtain ⟨hnone, v, hv, hsize⟩ := h
  unfold readFrame frameBody
  simp only [hnone]
  unfold dispatch
  rw [checkedValue_eq_ok.mpr hv, checked_ok_bind, hsize]
  rfl

end throws

/-- The processing of a frame ends without an exception exactly when its `cid` converts: in every
state of the server when nothing else runs, and in every interleaving with other threads. -/
theorem no_exception_escapes_iff (u : UserId) (jv : Value) :
    (∀ w : Shared, ((readFrame u jv).exec act w).1 = .ok () ↔ CidConverts u jv) ∧
      ∀ tr o, Trace (readFrame u jv) tr o → (o = .ok () ↔ CidConverts u jv) := by
  have hall : ∀ tr o, Trace (readFrame u jv) tr o → (o = .ok () ↔ CidConverts u jv) := by
    intro tr o ht
    by_cases h : CidConverts u jv
    · refine ⟨fun _ => h, fun _ => ?_⟩
      cases o with
      | ok a => rfl
      | error e => exact ((readFrame_throws h).throws ht).elim
    · refine ⟨fun ho => ?_, fun h' => absurd h' h⟩
      subst ho
      rw [readFrame_eq_throw h] at ht
      cases ht
  exact ⟨fun w => hall _ _ (Prog.trace_events act _ w), hall⟩

/-- A request whose `cid` is a string. -/
def stringCid : Value := request "x" [("cid", .string "abc")]

theorem string_cid_escapes :
    ¬∀ (w : Shared) (u : UserId) (jv : Value), ((readFrame u jv).exec act w).1 = .ok () := by
  intro h
  have hthrow : ((readFrame 1 stringCid).exec act bootZero.sh).1 = .error .system := rfl
  have hok := h bootZero.sh 1 stringCid
  rw [hthrow] at hok
  cases hok

end BeastLounge.Lounge
