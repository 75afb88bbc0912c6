import BeastLounge.Session.WriteQueue

/-!
# The outstanding write and the messages it accounts for

The vector `mq_` holds a message until its write has succeeded, and the index bound into `on_write`
is the position of the message being written: new messages are appended behind it, and the swap
moves only the last one. So no message is lost or written twice, whatever the completions are
(`queue_accounted`).

An empty `mq_` also stands for an idle writer: `do_send` starts a write only for the first message
of the vector. A write that fails leaves its message in `mq_` and starts no other, so from then on
the messages sent are queued for no one, unless the socket is closed (`attended_iff`).
-/

namespace BeastLounge.Session

open Theory

variable {M : Type} {s t : WsSession M} {tr : List (WsSession M × WsSession.Label M)}

/-! ### The property -/

/-- One write at most is outstanding, on the message at the index it remembers, and the accepted
messages are those written and those in `mq_`. -/
structure Accounted (s : WsSession M) : Prop where
  writes_le : s.writes.length ≤ 1
  index : ∀ w ∈ s.writes, s.mq[w.1]? = some w.2
  perm : s.accepted.Perm (s.written ++ s.mq)

theorem accounted_fresh (h : s.Fresh) : Accounted s := by
  obtain rfl := h
  exact ⟨Nat.zero_le 1, by simp, .nil⟩

theorem Accounted.writes_cases (h : Accounted s) :
    s.writes = [] ∨ ∃ idx m, s.writes = [(idx, m)] ∧ s.mq[idx]? = some m := by
  have hle := h.writes_le
  have hindex := h.index
  cases hw : s.writes with
  | nil => exact .inl rfl
  | cons w ws =>
    rw [hw, List.length_cons] at hle
    obtain rfl : ws = [] := List.length_eq_zero_iff.mp (by omega)
    exact .inr ⟨w.1, w.2, rfl, hindex w (by rw [hw]; exact List.mem_singleton_self w)⟩

/-- An empty vector has nothing to write. -/
theorem Accounted.idle (h : Accounted s) (hmq : s.mq = []) : s.writes = [] := by
  rcases h.writes_cases with hw | ⟨idx, m, -, hm⟩
  · exact hw
  · rw [hmq] at hm
    cases hm

/-! ### Starting a write -/

/-- A write is started on the last message while none is outstanding. -/
theorem accounted_doWrite (h : Accounted s) (hidle : s.writes = []) : Accounted s.doWrite := by
  unfold WsSession.doWrite
  split
  · exact h
  · rename_i m hlast
    refine ⟨by simp [hidle], fun w hw => ?_, h.perm⟩
    simp only [hidle, List.nil_append, List.mem_singleton] at hw
    subst hw
    show s.mq[s.mq.length - 1]? = some m
    rw [← List.getLast?_eq_getElem?]
    exact hlast

theorem writes_doWrite (hidle : s.writes = []) (hmq : s.mq ≠ []) : s.doWrite.writes.length = 1 := by
  unfold WsSession.doWrite
  split
  · rename_i hlast
    exact absurd (List.getLast?_eq_none_iff.mp hlast) hmq
  · simp [hidle]

theorem accounted_doSend (h : Accounted s) (m : M) : Accounted (s.doSend m) := by
  unfold WsSession.doSend
  split
  · exact h
  · have hsent : Accounted { s with mq := s.mq ++ [m], accepted := s.accepted ++ [m] } := by
      refine ⟨h.writes_le, fun w hw => ?_, ?_⟩
      · have hlt := (List.getElem?_eq_some_iff.mp (h.index w hw)).1
        show (s.mq ++ [m])[w.1]? = some w.2
        rw [List.getElem?_append_left hlt]
        exact h.index w hw
      · show (s.accepted ++ [m]).Perm (s.written ++ (s.mq ++ [m]))
        rw [← List.append_assoc]
        exact h.perm.append_right [m]
    simp only
    split
    · rename_i hone
      apply accounted_doWrite hsent
      have hmq : s.mq = [] := by
        rw [List.length_append, List.length_singleton] at hone
        exact List.length_eq_zero_iff.mp (by omega)
      exact h.idle hmq
    · exact hsent

/-! ### A completed write -/

theorem refill_perm (front more : List M) : (refill front more).Perm (front ++ more) := by
  rcases List.eq_nil_or_concat' more with rfl | ⟨ms, z, rfl⟩
  · rw [refill_nil, List.append_nil]
  · rw [refill_concat]
    exact (List.perm_append_singleton z ms).symm.append_left front

/-- What a completion does: after a failure the message stays and nothing is outstanding; after a
success it is replaced by the last one, and a write is started if any message is left. -/
theorem complete_cases {i : Nat} {failed : Bool} (h : Accounted s)
    (hstep : s.step (.complete i failed) = some t) :
    (failed = true ∧ t.mq ≠ [] ∧ t = { s with writes := [] }) ∨
      ∃ front m more, failed = false ∧ s.mq = front ++ m :: more ∧
        t = (if !(refill front more).isEmpty then WsSession.doWrite else id)
          { s with writes := [], written := s.written ++ [m], mq := refill front more } := by
  rcases h.writes_cases with hw | ⟨idx, m, hw, hm⟩
  · simp [WsSession.step, hw] at hstep
  cases i with
  | succ i => simp [WsSession.step, hw] at hstep
  | zero =>
    simp only [WsSession.step, hw, List.getElem?_cons_zero, List.eraseIdx_zero, List.tail_cons,
      Option.some.injEq] at hstep
    obtain ⟨hlt, hget⟩ := List.getElem?_eq_some_iff.mp hm
    cases failed with
    | true =>
      subst hstep
      exact .inl ⟨rfl, List.ne_nil_of_length_pos (Nat.lt_of_le_of_lt (Nat.zero_le idx) hlt), rfl⟩
    | false =>
      have hsplit : s.mq = s.mq.take idx ++ m :: s.mq.drop (idx + 1) := by
        rw [← hget, ← List.drop_eq_getElem_cons hlt, List.take_append_drop]
      have hmq := take_swap_last _ _ m hsplit
      rw [List.length_take_of_le (Nat.le_of_lt hlt)] at hmq
      refine .inr ⟨_, m, _, rfl, hsplit, ?_⟩
      subst hstep
      simp only [WsSession.onWrite, Bool.false_eq_true, if_false, hmq]
      split <;> rfl

theorem accounted_refill {front more : List M} {m : M} (h : Accounted s)
    (hmq : s.mq = front ++ m :: more) : Accounted
      { s with writes := [], written := s.written ++ [m], mq := refill front more } := by
  refine ⟨by simp, by simp, h.perm.trans ?_⟩
  have hrest : (m :: (front ++ more)).Perm (m :: refill front more) :=
    (refill_perm front more).symm.cons m
  calc (s.written ++ s.mq).Perm (s.written ++ m :: (front ++ more)) :=
        hmq ▸ List.perm_middle.append_left s.written
    _ |>.Perm (s.written ++ m :: refill front more) := hrest.append_left s.written
    _ |>.Perm (s.written ++ [m] ++ refill front more) := by rw [List.append_assoc]; rfl

theorem accounted_step {l : WsSession.Label M} (h : Accounted s) (hstep : s.step l = some t) :
    Accounted t := by
  cases l with
  | send m =>
    obtain rfl := Option.some.inj hstep
    exact accounted_doSend h m
  | close =>
    obtain rfl := Option.some.inj hstep
    exact ⟨h.writes_le, h.index, h.perm⟩
  | complete i failed =>
    rcases complete_cases h hstep with ⟨-, -, rfl⟩ | ⟨front, m, more, -, hmq, rfl⟩
    · exact ⟨by simp, by simp, h.perm⟩
    · have hrefill := accounted_refill h hmq
      split
      · exact accounted_doWrite hrefill rfl
      · exact hrefill

/-- In every reachable state one write at most is outstanding, on the message at its index, and the
messages accepted are those successfully written together with those in `mq_`. -/
theorem queue_accounted (h : Reachable WsSession.step WsSession.Fresh s) : Accounted s :=
  h.invariant (fun _ => accounted_fresh) fun _ _ _ => accounted_step

/-- Four messages are sent, the write of the first one succeeds and the next one fails. -/
theorem queue_accounted_four :
    ∃ s : WsSession Nat, s.written = [1] ∧ s.mq = [4, 2, 3] ∧ Accounted s := by
  obtain ⟨s, hs, hwritten, hmq⟩ : ∃ s : WsSession Nat,
      Reachable WsSession.step WsSession.Fresh s ∧ s.written = [1] ∧ s.mq = [4, 2, 3] :=
    ⟨_, ⟨_, Run.execute [.send 1, .send 2, .send 3, .send 4, .complete 0 false, .complete 0 true]
      (.nil rfl) rfl⟩, rfl, rfl⟩
  exact ⟨s, hwritten, hmq, queue_accounted hs⟩

/-! ### Messages that nobody writes -/

/-- While the socket is open, one write is outstanding whenever messages are queued. -/
def Attended (s : WsSession M) : Prop := s.isOpen = true → s.mq ≠ [] → s.writes.length = 1

/-- A write fails only once the socket is closed. -/
def FailsClosed (s : WsSession M) : WsSession.Label M → Prop
  | .complete _ failed => failed = true → s.isOpen = false
  | _ => True

theorem attended_doSend (hacc : Accounted s) (h : Attended s) (m : M) : Attended (s.doSend m) := by
  unfold WsSession.doSend
  split
  · exact h
  · rename_i hopen
    simp only
    split
    · rename_i hone
      rw [List.length_append, List.length_singleton] at hone
      have hmq : s.mq = [] := List.length_eq_zero_iff.mp (by omega)
      exact fun _ _ => writes_doWrite (hacc.idle hmq) (by simp)
    · rename_i hone
      rw [List.length_append, List.length_singleton] at hone
      refine fun _ _ => h (by simpa using hopen) fun hmq => hone ?_
      rw [hmq, List.length_nil]

theorem attended_step {l : WsSession.Label M} (hacc : Accounted s) (h : Attended s)
    (hl : FailsClosed s l) (hstep : s.step l = some t) : Attended t := by
  cases l with
  | send m =>
    obtain rfl := Option.some.inj hstep
    exact attended_doSend hacc h m
  | close =>
    obtain rfl := Option.some.inj hstep
    exact fun hopen => absurd hopen Bool.false_ne_true
  | complete i failed =>
    rcases complete_cases hacc hstep with ⟨hfailed, -, rfl⟩ | ⟨front, m, more, -, -, rfl⟩
    · intro hopen
      rw [show s.isOpen = false from hl hfailed] at hopen
      cases hopen
    · split
      · rename_i hmore
        exact fun _ _ => writes_doWrite rfl (by simpa using hmore)
      · rename_i hmore
        exact fun _ hmq => absurd hmq (by simpa using hmore)

/-- A write that fails on an open socket leaves its message to nobody. -/
theorem not_attended_of_failed {l : WsSession.Label M} (hacc : Accounted s)
    (hl : ¬FailsClosed s l) (hstep : s.step l = some t) : ¬Attended t := by
  cases l with
  | send m => exact absurd trivial hl
  | close => exact absurd trivial hl
  | complete i failed =>
    obtain ⟨hfailed, hopen⟩ : failed = true ∧ s.isOpen = true := by
      simpa [FailsClosed] using hl
    rcases complete_cases hacc hstep with ⟨-, hmq, rfl⟩ | ⟨front, m, more, hok, -, -⟩
    · exact fun h => absurd (h hopen hmq) (by simp)
    · rw [hfailed] at hok
      cases hok

/-- Throughout a run the queue of an open socket is being written whenever it is not empty, exactly
when no write of the run fails while the socket is open. -/
theorem attended_iff (hrun : Run WsSession.step WsSession.Fresh tr s) :
    AllStates Attended tr s ↔ AllSteps FailsClosed tr := by
  constructor
  · intro h
    have haccounted := hrun.invariant (I := Accounted) (P := fun _ _ => True)
      (fun _ => accounted_fresh) (fun _ _ _ hs _ => accounted_step hs) fun _ _ => trivial
    have hall : AllStates (fun s => Accounted s ∧ Attended s) tr s :=
      ⟨fun x hx => ⟨haccounted.1 x hx, h.1 x hx⟩, haccounted.2, h.2⟩
    refine hrun.allSteps_of_allStates hall fun s l t hs hstep ht => ?_
    by_contra hl
    exact not_attended_of_failed hs.1 hl hstep ht.2
  · intro h
    have hinv := hrun.invariant (I := fun s => Accounted s ∧ Attended s)
      (fun s hs => ⟨accounted_fresh hs, by obtain rfl := hs; exact fun _ hmq => absurd rfl hmq⟩)
      (fun s l t hs hl hst => ⟨accounted_step hs.1 hst, attended_step hs.1 hs.2 hl hst⟩) h
    exact hinv.mono fun _ hs => hs.2

/-- The write fails after the socket was closed. -/
theorem attended_closed : ∃ (tr : List (WsSession Nat × WsSession.Label Nat)) (s : WsSession Nat),
    s.mq = [1] ∧ s.writes = [] ∧ AllStates Attended tr s := by
  obtain ⟨tr, s, hrun, hmq, hwrites, hfails⟩ : ∃ tr, ∃ s : WsSession Nat,
      Run WsSession.step WsSession.Fresh tr s ∧ s.mq = [1] ∧ s.writes = [] ∧
        AllSteps FailsClosed tr :=
    ⟨_, _, Run.execute [.send 1, .close, .complete 0 true] (.nil rfl) rfl, rfl, rfl,
      by simp [AllSteps, FailsClosed]⟩
  exact ⟨tr, s, hmq, hwrites, (attended_iff hrun).mpr hfails⟩

/-- The write of the first message fails while the socket is open: the second one is accepted, and
no write is outstanding. -/
theorem accepted_by_nobody : ¬∀ (tr : List (WsSession Nat × WsSession.Label Nat)) (s : WsSession Nat),
    Run WsSession.step WsSession.Fresh tr s → AllStates Attended tr s := by
  intro h
  have hlast := (h _ _ (Run.execute [.send 1, .complete 0 true, .send 2] (.nil rfl) rfl)).2
  exact absurd (hlast rfl (by decide)) (by decide)

end BeastLounge.Session
