import Mathlib.Data.List.Induction
import BeastLounge.Session.Outstanding

/-!
# Draining the write queue

The messages waiting for their turn form a stack: a completed write goes on with the last message of
`mq_`, and of the messages that arrived during the write the newest takes the place of the one that
was written, below the others. So once nothing is sent any more, every message is written, in an
order that the vector determines (`queue_drains`).
-/

namespace BeastLounge.Session

open Theory

variable {M : Type} {s t : WsSession M} {front more : List M} {x : M}

/-- The successful completion of the outstanding write. -/
abbrev succeeds : WsSession.Label M := .complete 0 false

/-- The message `x` is being written, between these two parts of the vector. -/
structure Writing (s : WsSession M) (front : List M) (x : M) (more : List M) : Prop where
  mq : s.mq = front ++ x :: more
  writes : s.writes = [(front.length, x)]

/-- Its write succeeds, and the next one is of the last message that is left. -/
theorem Writing.complete (h : Writing s front x more) : ∃ t, s.step succeeds = some t ∧
    t.written = s.written ++ [x] ∧ t.accepted = s.accepted ∧
    ((refill front more = [] ∧ t.mq = [] ∧ t.writes = []) ∨
      ∃ below y, refill front more = below ++ [y] ∧ Writing t below y []) := by
  have hmq := take_swap_last front more x h.mq
  simp only [WsSession.step, h.writes, List.getElem?_cons_zero, List.eraseIdx_zero, List.tail_cons,
    WsSession.onWrite, Bool.false_eq_true, if_false, hmq]
  refine ⟨_, rfl, ?_⟩
  rcases List.eq_nil_or_concat' (refill front more) with hnil | ⟨below, y, hrefill⟩
  · rw [hnil]
    exact ⟨rfl, rfl, .inl ⟨rfl, rfl, rfl⟩⟩
  · rw [hrefill, if_pos (by simp)]
    simp only [WsSession.doWrite, List.getLast?_concat]
    exact ⟨trivial, trivial, .inr ⟨below, y, rfl, rfl, by simp⟩⟩

/-- After `n` more writes, which succeed, nothing is left, and these messages have been written. -/
def DrainsIn (n : Nat) (ms : List M) (s : WsSession M) : Prop :=
  ∀ tr, ∃ tr' t, execute WsSession.step (List.replicate n succeeds) tr s = some (tr', t) ∧
    t.mq = [] ∧ t.writes = [] ∧ t.accepted = s.accepted ∧ t.written = s.written ++ ms

theorem DrainsIn.after {n : Nat} {ms : List M} (hstep : s.step succeeds = some t)
    (hwritten : t.written = s.written ++ [x]) (haccepted : t.accepted = s.accepted)
    (h : DrainsIn n ms t) : DrainsIn (n + 1) (x :: ms) s := by
  intro tr
  obtain ⟨tr', u, hexec, hmq, hwrites, hacc, hms⟩ := h (tr ++ [(s, succeeds)])
  refine ⟨tr', u, ?_, hmq, hwrites, hacc.trans haccepted, ?_⟩
  · rw [List.replicate_succ, execute, hstep]
    exact hexec
  · rw [hms, hwritten, List.append_assoc]
    rfl

/-- The stack below the last message is written from its top. -/
theorem drains_stack (h : Writing s front x []) : DrainsIn (front.length + 1) (x :: front.reverse) s := by
  induction front using List.reverseRecOn generalizing s x with
  | nil =>
    obtain ⟨t, hstep, hwritten, hacc, ⟨-, hmq, hwrites⟩ | ⟨below, y, hrefill, -⟩⟩ := h.complete
    · exact .after hstep hwritten hacc fun tr => ⟨tr, t, rfl, hmq, hwrites, rfl, by simp⟩
    · simp [refill] at hrefill
  | append_singleton front z ih =>
    obtain ⟨t, hstep, hwritten, hacc, ⟨hnil, -⟩ | ⟨below, y, hrefill, hnext⟩⟩ := h.complete
    · simp [refill] at hnil
    · obtain ⟨rfl, hz⟩ := List.append_inj' hrefill rfl
      obtain rfl := List.singleton_inj.mp hz
      rw [List.reverse_append, List.length_append]
      exact .after hstep hwritten hacc (ih hnext)

theorem accounted (h : Reachable WsSession.step WsSession.Fresh s) : Accounted s :=
  h.invariant (fun _ => accounted_fresh) fun _ _ _ => accounted_step

/-- In every reachable state with a write outstanding, the write is of a message `x` of the vector;
if nothing more is sent and the writes succeed, as many writes as there are messages empty it. What
is written is `x`, and then the stack the others make, from its top; in the end every accepted
message is written once. -/
theorem queue_drains (h : Reachable WsSession.step WsSession.Fresh s) (hwrites : s.writes ≠ []) :
    ∃ front x more, s.mq = front ++ x :: more ∧ s.writes = [(front.length, x)] ∧
      ∃ tr t, execute WsSession.step (List.replicate s.mq.length succeeds) [] s = some (tr, t) ∧
        t.mq = [] ∧ t.writes = [] ∧ t.written = s.written ++ x :: (refill front more).reverse ∧
        t.accepted = s.accepted ∧ t.accepted.Perm t.written := by
  have hacc := accounted h
  obtain ⟨idx, x, hw, hx⟩ := hacc.writes_cases.resolve_left hwrites
  obtain ⟨hlt, hget⟩ := List.getElem?_eq_some_iff.mp hx
  have hsplit : s.mq = s.mq.take idx ++ x :: s.mq.drop (idx + 1) := by
    rw [← hget, ← List.drop_eq_getElem_cons hlt, List.take_append_drop]
  have hidx : (s.mq.take idx).length = idx := List.length_take_of_le (Nat.le_of_lt hlt)
  have hwriting : Writing s (s.mq.take idx) x (s.mq.drop (idx + 1)) := ⟨hsplit, by rw [hidx, hw]⟩
  refine ⟨_, x, _, hsplit, hwriting.writes, ?_⟩
  have hlen : s.mq.length = (refill (s.mq.take idx) (s.mq.drop (idx + 1))).length + 1 := by
    rw [(refill_perm _ _).length_eq]
    conv_lhs => rw [hsplit]
    simp only [List.length_append, List.length_cons]
    omega
  have hdrains : DrainsIn s.mq.length
      (x :: (refill (s.mq.take idx) (s.mq.drop (idx + 1))).reverse) s := by
    rw [hlen]
    obtain ⟨t, hstep, hwritten, haccepted, ⟨hnil, hmq, hidle⟩ | ⟨below, y, hrefill, hnext⟩⟩ :=
      hwriting.complete
    · rw [hnil]
      exact .after hstep hwritten haccepted fun tr => ⟨tr, t, rfl, hmq, hidle, rfl, by simp⟩
    · rw [hrefill, List.reverse_append, List.length_append]
      exact .after hstep hwritten haccepted (drains_stack hnext)
  obtain ⟨tr, t, hexec, hmq, hidle, haccepted, hwritten⟩ := hdrains []
  refine ⟨tr, t, hexec, hmq, hidle, hwritten, haccepted, ?_⟩
  have hperm := (accounted (h.execute _ hexec)).perm
  rwa [hmq, List.append_nil] at hperm

/-- Five messages are sent at once. The last one is written last, and before it those in between,
the newest first. -/
theorem queue_drains_five : ∃ (s t : WsSession Nat) (tr : List (WsSession Nat × WsSession.Label Nat)),
    s.accepted = [1, 2, 3, 4, 5] ∧
      execute WsSession.step (List.replicate 5 succeeds) [] s = some (tr, t) ∧
      t.written = [1, 4, 3, 2, 5] := by
  obtain ⟨s, hs, hmq, hwrites, haccepted, hnone⟩ : ∃ s : WsSession Nat,
      Reachable WsSession.step WsSession.Fresh s ∧ s.mq = [1, 2, 3, 4, 5] ∧ s.writes = [(0, 1)] ∧
        s.accepted = [1, 2, 3, 4, 5] ∧ s.written = [] :=
    ⟨_, ⟨_, Run.execute [.send 1, .send 2, .send 3, .send 4, .send 5] (.nil rfl) rfl⟩, rfl, rfl, rfl, rfl⟩
  obtain ⟨front, x, more, hsplit, hfirst, tr, t, hexec, -, -, hwritten, -⟩ :=
    queue_drains hs (by simp [hwrites])
  rw [hwrites, List.singleton_inj, Prod.mk.injEq] at hfirst
  obtain rfl : front = [] := List.length_eq_zero_iff.mp hfirst.1.symm
  obtain rfl := hfirst.2
  rw [hmq] at hsplit hexec
  obtain rfl : more = [2, 3, 4, 5] := by simpa using hsplit.symm
  exact ⟨s, t, tr, haccepted, hexec, by rw [hwritten, hnone]; rfl⟩

end BeastLounge.Session
