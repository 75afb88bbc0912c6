import Mathlib.Data.List.Infix
import BeastLounge.Session.WriteQueue

/-!
# The order of messages on the wire

`do_write` always takes the last element of `mq_` and a completed write is replaced by the last
element, so the queue is first-in first-out only while few messages pile up behind the one in
flight. `KeepsOrder` says which completions keep the order: those of the last message of the
vector, and those of the first one while at most two messages wait behind it.

The argument is an invariant over the run (`Ordered`): the vector is `front ++ x :: more`, the
message `x` is in flight, and the messages accepted but not started are `front ++ more`, with at
most one of them in `front`. A completion that meets `KeepsOrder` starts the first of them; any
other completion starts a later one.
-/

namespace BeastLounge.Session

open Theory

variable {M : Type} {s t : WsSession M} {tr : List (WsSession M × WsSession.Label M)}

/-- The sends find the socket open and the writes succeed. -/
def Healthy (s : WsSession M) : WsSession.Label M → Prop
  | .send _ => s.isOpen = true
  | .complete _ failed => failed = false
  | .close => False

/-- What has been handed to `async_write` is a prefix of what `do_send` has accepted. -/
def Fifo (s : WsSession M) : Prop := s.started <+: s.accepted

/-- The completed write is the last message of the vector, or the first one of at most three. -/
def KeepsOrder (s : WsSession M) : WsSession.Label M → Prop
  | .complete i _ => ∀ w, s.writes[i]? = some w →
      w.1 + 1 = s.mq.length ∨ w.1 = 0 ∧ s.mq.length ≤ 3
  | _ => True

/-! ### The invariant -/

/-- The message `x` is in flight between `front` and `more`, which are the messages waiting. -/
structure InFlight (s : WsSession M) (front : List M) (x : M) (more : List M) : Prop where
  mq : s.mq = front ++ x :: more
  writes : s.writes = [(front.length, x)]
  accepted : s.accepted = s.started ++ (front ++ more)
  front_le : front.length ≤ 1

/-- Nothing is queued, or one message is in flight and the others are waiting in order. -/
def Ordered (s : WsSession M) : Prop :=
  (s.mq = [] ∧ s.writes = [] ∧ s.accepted = s.started) ∨ ∃ front x more, InFlight s front x more

theorem Ordered.fifo (h : Ordered s) : Fifo s := by
  rcases h with ⟨-, -, h⟩ | ⟨front, x, more, h⟩
  · rw [Fifo, h]
  · rw [Fifo, h.accepted]
    exact List.prefix_append _ _

theorem ordered_fresh (h : s.Fresh) : Ordered s := by
  obtain rfl := h
  exact Or.inl ⟨rfl, rfl, rfl⟩

theorem ordered_doSend (h : Ordered s) (m : M) : Ordered (s.doSend m) := by
  unfold WsSession.doSend
  split
  · exact h
  · rcases h with ⟨hmq, hw, hacc⟩ | ⟨front, x, more, h⟩
    · -- the writer is idle: the message is written at once
      refine Or.inr ⟨[], m, [], ?_⟩
      simp only [hmq, List.nil_append, List.length_singleton, if_true, WsSession.doWrite]
      exact ⟨by simp, by simp [hw], by simp [hacc], by simp⟩
    · have hlen : (s.mq ++ [m]).length ≠ 1 := by simp [h.mq]; omega
      refine Or.inr ⟨front, x, more ++ [m], ?_⟩
      simp only [hlen, if_false]
      exact ⟨by simp [h.mq], h.writes, by simp [h.accepted], h.front_le⟩

/-! ### A completed write -/

/-- The session after the write of `x` succeeds. -/
theorem complete_inFlight {front more : List M} {x : M} {i : Nat} (h : InFlight s front x more)
    (hstep : s.step (.complete i false) = some t) :
    i = 0 ∧ t.accepted = s.accepted ∧
      ((refill front more = [] ∧ t.mq = [] ∧ t.writes = [] ∧ t.started = s.started) ∨
        ∃ r y, refill front more = r ++ [y] ∧ t.mq = r ++ [y] ∧ t.writes = [(r.length, y)] ∧
          t.started = s.started ++ [y]) := by
  cases i with
  | succ i => simp [WsSession.step, h.writes] at hstep
  | zero =>
    have hmq := take_swap_last front more x h.mq
    simp only [WsSession.step, h.writes, List.getElem?_cons_zero, List.eraseIdx_zero,
      List.tail_cons, WsSession.onWrite, Bool.false_eq_true, if_false, Option.some.injEq,
      hmq] at hstep
    rcases List.eq_nil_or_concat' (refill front more) with hnil | ⟨r, y, hr⟩
    · simp only [hnil, List.isEmpty_nil, Bool.not_true, Bool.false_eq_true, if_false] at hstep
      subst hstep
      exact ⟨rfl, rfl, Or.inl ⟨hnil, rfl, rfl, rfl⟩⟩
    · simp only [hr, WsSession.doWrite, List.getLast?_concat] at hstep
      rw [if_pos (by simp)] at hstep
      subst hstep
      exact ⟨rfl, rfl, Or.inr ⟨r, y, hr, rfl, by simp, rfl⟩⟩

/-- The next message written is the oldest one waiting when few of them are queued. -/
theorem refill_oldest {front more r : List M} {y : M}
    (hfew : more = [] ∧ front.length ≤ 1 ∨ front = [] ∧ more.length ≤ 2)
    (hr : refill front more = r ++ [y]) : front ++ more = y :: r ∧ r.length ≤ 1 := by
  rcases hfew with ⟨rfl, hf⟩ | ⟨rfl, hm⟩
  · rw [refill_nil] at hr
    subst hr
    have hnil : r = [] := List.length_eq_zero_iff.mp (by simpa using hf)
    simp [hnil]
  · rcases List.eq_nil_or_concat' more with rfl | ⟨ms, z, rfl⟩
    · simp [refill] at hr
    · rw [refill_concat, List.nil_append] at hr
      have hms : ms.length ≤ 1 := by simpa using hm
      cases ms with
      | nil =>
        obtain ⟨rfl, rfl⟩ : r = [] ∧ y = z := by
          cases r with
          | nil => simpa [eq_comm] using hr
          | cons a r => simp at hr
        simp
      | cons b ms =>
        obtain rfl : ms = [] := List.length_eq_zero_iff.mp (by simpa using hms)
        obtain ⟨rfl, rfl⟩ : r = [z] ∧ y = b := by
          have := congrArg List.reverse hr
          simp only [List.reverse_cons, List.reverse_nil, List.nil_append, List.cons_append,
            List.reverse_append, List.cons.injEq] at this
          exact ⟨by simpa using (congrArg List.reverse this.2).symm, this.1.symm⟩
        simp

/-- When more are queued and the messages differ, a younger message overtakes. -/
theorem refill_overtakes {front more r : List M} {y : M} (hnodup : (front ++ more).Nodup)
    (hmany : ¬(more = [] ∨ front = [] ∧ more.length ≤ 2))
    (hr : refill front more = r ++ [y]) : (front ++ more).head? ≠ some y := by
  intro hhead
  obtain ⟨hne, hcase⟩ := not_or.mp hmany
  obtain ⟨ms, z, rfl⟩ := (List.eq_nil_or_concat' more).resolve_left hne
  rw [refill_concat] at hr
  have hlast : (z :: ms).getLast? = some y := by
    have := congrArg List.getLast? hr
    rwa [List.getLast?_append_of_ne_nil _ (by simp), List.getLast?_concat] at this
  have hy : y ∈ ms ++ [z] := by
    have := List.mem_of_getLast? hlast
    simp only [List.mem_cons] at this
    simpa [or_comm] using this
  cases front with
  | cons c front =>
    obtain rfl : c = y := by simpa using hhead
    simp only [List.cons_append, List.nodup_cons] at hnodup
    exact hnodup.1 (List.mem_append_right _ hy)
  | nil =>
    have hms : 2 ≤ ms.length := by
      by_contra hlt
      exact hcase ⟨rfl, by simp; omega⟩
    obtain ⟨b, c, ms, rfl⟩ : ∃ b c ms', ms = b :: c :: ms' := by
      match ms, hms with
      | b :: c :: ms, _ => exact ⟨b, c, ms, rfl⟩
    obtain rfl : b = y := by simpa using hhead
    have hmem : b ∈ c :: ms := by
      have hl : (c :: ms).getLast? = some b := by
        rwa [List.getLast?_cons_cons, List.getLast?_cons_cons] at hlast
      exact List.mem_of_getLast? hl
    simp only [List.nil_append, List.cons_append, List.nodup_cons] at hnodup
    exact hnodup.1 (by simpa [or_assoc] using Or.inl (List.mem_cons.mp hmem))

theorem keepsOrder_iff {front more : List M} {x : M} {failed : Bool}
    (h : InFlight s front x more) :
    KeepsOrder s (.complete 0 failed) ↔ more = [] ∨ front = [] ∧ more.length ≤ 2 := by
  have hnil : more.length = 0 ↔ more = [] := List.length_eq_zero_iff
  have hfront : front.length = 0 ↔ front = [] := List.length_eq_zero_iff
  simp only [KeepsOrder, h.writes, List.getElem?_cons_zero, Option.some.injEq, forall_eq', h.mq,
    List.length_append, List.length_cons, ← hnil, ← hfront]
  omega

theorem ordered_step {l : WsSession.Label M} (h : Ordered s) (hdom : Healthy s l)
    (hkeep : KeepsOrder s l) (hstep : s.step l = some t) : Ordered t := by
  cases l with
  | send m =>
    simp only [WsSession.step, Option.some.injEq] at hstep
    exact hstep ▸ ordered_doSend h m
  | close => exact hdom.elim
  | complete i failed =>
    obtain rfl : failed = false := hdom
    rcases h with ⟨-, hw, -⟩ | ⟨front, x, more, h⟩
    · simp [WsSession.step, hw] at hstep
    · obtain ⟨rfl, hacc, hcase⟩ := complete_inFlight h hstep
      have hfew := (keepsOrder_iff h).mp hkeep
      rcases hcase with ⟨hr, hmq, hw, hst⟩ | ⟨r, y, hr, hmq, hw, hst⟩
      · have hempty : front = [] ∧ more = [] := by
          rcases List.eq_nil_or_concat' more with rfl | ⟨ms, z, rfl⟩
          · exact ⟨hr, rfl⟩
          · simp [refill_concat] at hr
        exact Or.inl ⟨hmq, hw, by rw [hacc, h.accepted, hst]; simp [hempty]⟩
      · obtain ⟨hnext, hle⟩ := refill_oldest (hfew.imp_left fun hm => ⟨hm, h.front_le⟩) hr
        refine Or.inr ⟨r, y, [], by simpa using hmq, hw, ?_, hle⟩
        rw [hacc, h.accepted, hst, hnext]
        simp

/-- A completion that breaks the condition puts a younger message on the wire first. -/
theorem overtakes_step {l : WsSession.Label M} (h : Ordered s) (hdom : Healthy s l)
    (hbad : ¬KeepsOrder s l) (hnodup : t.accepted.Nodup) (hstep : s.step l = some t) :
    ¬Fifo t := by
  cases l with
  | send m => exact (hbad trivial).elim
  | close => exact hdom.elim
  | complete i failed =>
    obtain rfl : failed = false := hdom
    rcases h with ⟨-, hw, -⟩ | ⟨front, x, more, h⟩
    · simp [WsSession.step, hw] at hstep
    · obtain ⟨rfl, hacc, hcase⟩ := complete_inFlight h hstep
      have hmany := (keepsOrder_iff h).not.mp hbad
      have hsplit : t.accepted = s.started ++ (front ++ more) := hacc.trans h.accepted
      rcases hcase with ⟨hr, -⟩ | ⟨r, y, hr, -, -, hst⟩
      · obtain ⟨hne, -⟩ := not_or.mp hmany
        obtain ⟨ms, z, rfl⟩ := (List.eq_nil_or_concat' more).resolve_left hne
        simp [refill_concat] at hr
      · rw [hsplit] at hnodup
        intro hfifo
        rw [Fifo, hst, hsplit, List.prefix_append_right_inj] at hfifo
        refine refill_overtakes (List.nodup_append.mp hnodup).2.1 hmany hr ?_
        obtain ⟨u, hu⟩ := hfifo
        rw [← hu]
        rfl

theorem accepted_grows {l : WsSession.Label M} (hstep : s.step l = some t) :
    s.accepted <+: t.accepted := by
  cases l with
  | send m =>
    simp only [WsSession.step, Option.some.injEq] at hstep
    rw [← hstep, WsSession.doSend_accepted]
    split
    · exact List.prefix_append _ _
    · exact List.prefix_rfl
  | close =>
    simp only [WsSession.step, Option.some.injEq] at hstep
    subst hstep
    exact List.prefix_rfl
  | complete i failed =>
    simp only [WsSession.step] at hstep
    split at hstep
    · contradiction
    · simp only [Option.some.injEq] at hstep
      rw [← hstep, WsSession.onWrite_accepted]

/-! ### Runs -/

/-- A run of sends on an open socket and successful completions is first-in first-out when every
completion keeps the order and, where the messages are pairwise different, only then. -/
theorem writes_in_order_iff (hrun : Run WsSession.step WsSession.Fresh tr s)
    (hdom : AllSteps Healthy tr) :
    (AllSteps KeepsOrder tr → AllStates Fifo tr s) ∧
      (s.accepted.Nodup → AllStates Fifo tr s → AllSteps KeepsOrder tr) := by
  have hord : ∀ {tr : List (WsSession M × WsSession.Label M)} {s : WsSession M},
      Run WsSession.step WsSession.Fresh tr s → AllSteps Healthy tr → AllSteps KeepsOrder tr →
        AllStates Ordered tr s := fun hrun hdom hkeep =>
    hrun.invariant (P := fun s l => Healthy s l ∧ KeepsOrder s l) (fun _ => ordered_fresh)
      (fun _ _ _ h hP hs => ordered_step h hP.1 hP.2 hs)
      (fun x hx => ⟨hdom x hx, hkeep x hx⟩)
  refine ⟨fun hkeep => (hord hrun hdom hkeep).mono fun _ => Ordered.fifo, ?_⟩
  induction hrun with
  | nil h => exact fun _ _ => allSteps_nil
  | snoc hrun hs ih =>
    intro hnodup hfifo
    obtain ⟨hdom, hl⟩ := allSteps_snoc.mp hdom
    obtain ⟨hall, hlast⟩ := allStates_snoc.mp hfifo
    have hkeep := ih hdom (hnodup.sublist (accepted_grows hs).sublist) hall
    refine allSteps_snoc.mpr ⟨hkeep, ?_⟩
    by_contra hbad
    exact overtakes_step (hord hrun hdom hkeep).2 hl hbad hnodup hs hlast

/-- Two messages written one after the other, with a third one sent in between. -/
theorem writes_in_order_three :
    ∃ tr, ∃ s : WsSession Nat, s.started = [1, 2] ∧ AllStates Fifo tr s ∧ AllSteps KeepsOrder tr := by
  obtain ⟨tr, s, hrun, hdom, hkeep, hstarted⟩ : ∃ tr, ∃ s : WsSession Nat,
      Run WsSession.step WsSession.Fresh tr s ∧ AllSteps Healthy tr ∧ AllSteps KeepsOrder tr ∧
        s.started = [1, 2] :=
    ⟨_, _, Run.execute [.send 1, .send 2, .send 3, .complete 0 false] (.nil rfl) rfl,
      by simp [AllSteps, Healthy, WsSession.doSend, WsSession.doWrite],
      by simp [AllSteps, KeepsOrder, WsSession.doSend, WsSession.doWrite], rfl⟩
  exact ⟨tr, s, hstarted, (writes_in_order_iff hrun hdom).1 hkeep, hkeep⟩

/-- Four messages are sent before the first write completes: the third is written second. -/
theorem third_message_overtakes :
    ¬∀ (tr : List (WsSession Nat × WsSession.Label Nat)) (s : WsSession Nat),
      Run WsSession.step WsSession.Fresh tr s → AllSteps Healthy tr → AllStates Fifo tr s := by
  intro h
  have hfifo := h _ _ (Run.execute [.send 1, .send 2, .send 3, .send 4, .complete 0 false]
    (.nil rfl) rfl) (by simp [AllSteps, Healthy, WsSession.doSend, WsSession.doWrite])
  have hprefix : [1, 3] <+: [1, 2, 3, 4] := hfifo.2
  exact absurd hprefix (by decide)

end BeastLounge.Session
