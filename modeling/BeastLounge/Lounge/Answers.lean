import BeastLounge.Lounge.Serial

/-!
# Requests and answers over whole runs

A client matches responses to requests by their ids, so what it relies on is a balance over the whole
session: each id it has sent with a request comes back once, or is owed by a request that is still in
the queue of the table. The session may be processing one frame and the strand one handler at the
time; the balance counts what these have given out so far against what they will have given in the
end (`Balanced`). Threads of other users do not touch it.
-/

namespace BeastLounge.Lounge

open Theory Json Rpc

open Prog (Spec wp Keeps)

/-! ### What a run has asked and answered -/

/-- The id of the request that arrives for `u`. -/
def Label.asks (u : UserId) : Label → List (Option Value)
  | .frame u' jv => if u' = u then (jv.member "id").toList.map some else []
  | _ => []

/-- The ids of the requests of `u`, in order. -/
def asked (u : UserId) (tr : List (World × Label)) : List (Option Value) :=
  tr.flatMap fun e => e.2.asks u

/-- The ids of the responses passed to the `send` of `u`, in order. -/
def answered (u : UserId) (tr : List (World × Label)) : List (Option Value) :=
  tr.flatMap fun e => (operation e.1 e.2).elim [] (Cmd.responses u)

/-- The ids of the requests of `u` that wait in the queue of the table. -/
def awaiting (u : UserId) (w : World) : List (Option Value) := w.sh.queue.flatMap (Handler.owes u)

theorem asked_snoc (u : UserId) (tr : List (World × Label)) (w : World) (l : Label) :
    asked u (tr ++ [(w, l)]) = asked u tr ++ l.asks u := by
  simp [asked]

theorem answered_snoc (u : UserId) (tr : List (World × Label)) (w : World) (l : Label) :
    answered u (tr ++ [(w, l)]) = answered u tr ++ (operation w l).elim [] (Cmd.responses u) := by
  simp [answered]

theorem answered_idle (u : UserId) (tr : List (World × Label)) {w : World} {l : Label}
    (h : operation w l = none) : answered u (tr ++ [(w, l)]) = answered u tr := by
  rw [answered_snoc, h]
  exact List.append_nil _

theorem asked_other (u : UserId) (tr : List (World × Label)) (w : World) {l : Label}
    (h : l.asks u = []) : asked u (tr ++ [(w, l)]) = asked u tr := by
  rw [asked_snoc, h, List.append_nil]

/-! ### Threads that do not answer `u` -/

/-- No operation answers `u`, or posts a handler that will. -/
def silentSpec (u : UserId) : Spec Res Unit where
  may _ _ _ := True
  allow _ c := c.responses u = [] ∧ c.posts.flatMap (Handler.owes u) = []
  next _ _ _ := ()

def Silent {α : Type} (u : UserId) (p : Act α) : Prop := wp (silentSpec u) (fun _ _ => True) p ()

section silent
variable {u v : UserId} {α : Type} {T : Exn → Prop} {I : Unit → Prop}

theorem Silent.of_keeps {p : Act α} (h : Keeps (silentSpec u) (fun _ => True) T p) : Silent u p :=
  h.wp trivial

theorem silent_safe {c : Cmd} (hr : c.responses u = []) (hp : c.posts.flatMap (Handler.owes u) = []) :
    (silentSpec u).Safe (fun _ => True) c :=
  fun _ _ => ⟨⟨hr, hp⟩, fun _ _ => trivial⟩

theorem silent_trySend {y : UserId} {jv : Value} (h : isResponse jv = false) :
    (silentSpec u).Safe (fun _ => True) (.trySend y jv) :=
  silent_safe (if_neg fun hc => by rw [h] at hc; cases hc.2) rfl

theorem silent_memberCmd {c : Channel} (cmd : Cmd) (h : MemberCmd (fun _ => True) c v cmd) :
    (silentSpec u).Safe (fun _ => True) cmd := by
  cases h with
  | @noticeTo verb name hverb hname y => exact silent_trySend (isResponse_notice c verb name)
  | _ => exact silent_safe rfl rfl

theorem keeps_insert_silent (c : Channel) : Keeps (silentSpec u) (fun _ => True) T (c.insert v) :=
  keeps_insert_of_safe (fun _ _ _ _ => trivial) silent_memberCmd

theorem keeps_erase_silent (c : Channel) : Keeps (silentSpec u) (fun _ => True) T (c.erase v) :=
  keeps_erase_of_safe (fun _ _ _ _ => trivial) fun cmd h _ => silent_memberCmd cmd h

theorem silent_readFrame (hv : v ≠ u) (jv : Value) : Silent u (readFrame v jv) := by
  apply Silent.of_keeps (T := fun _ => True)
  apply keeps_readFrame (K := fun _ => True) jv
  · intro c hc
    cases hc with
    | sayTo c name text y => exact silent_trySend (isResponse_sayNotice c name text)
    | reply hjv => exact silent_safe (if_neg fun h => hv h.1) rfl
    | @post rpc h hu hh =>
      refine silent_safe rfl ?_
      have hrpc : h.rpc = some rpc := by
        unfold tableHandler at hh
        split at hh <;> cases hh <;> rfl
      show h.owes u ++ [] = []
      rw [Handler.owes, hrpc, List.append_nil]
      exact if_neg fun h => hv (hu.symm.trans h)
    | _ => exact silent_safe rfl rfl
  · exact fun _ _ _ _ _ => trivial
  · exact fun c _ => keeps_insert_silent c
  · exact fun c _ => keeps_erase_silent c
  · exact fun _ _ _ _ => trivial

theorem silent_serve {h : Handler} (hother : ∀ rpc, h.rpc = some rpc → rpc.u ≠ u) :
    Silent u (serve h) := by
  apply Silent.of_keeps (T := fun _ => True)
  apply keeps_serve (G := fun _ => True)
  · intro c hc
    cases hc with
    | updateTo ha hg y => exact silent_trySend (isResponse_updateJson _ _)
    | init hh hg => exact silent_safe (if_neg fun h => by cases h.2) rfl
    | @reply rpc id jv hh hjv => exact silent_safe (if_neg fun h => hother rpc hh h.1) rfl
    | _ => exact silent_safe rfl rfl
  · exact wp_gameToJson_any (silent_safe rfl rfl) fun _ => silent_safe rfl rfl
  · exact fun _ _ _ => trivial

end silent

/-! ### The balance -/

/-- What the session of `u` has yet to account for: the ids of the frame it is processing, and what
it has given out for them. -/
def SessionOwes (u : UserId) (ids given : List (Option Value)) : Phase → Prop
  | .busy p => wp (replySpec u (Handler.owes u)) (fun o v => o = .ok () → v = ids) p given
  | .erasing _ _ p => Silent u p ∧ ids = [] ∧ given = []
  | _ => ids = [] ∧ given = []

def PhaseSilent (u : UserId) : Phase → Prop
  | .busy p => Silent u p
  | .erasing _ _ p => Silent u p
  | _ => True

/-- The handler is for a request of `u`. -/
def Handler.concerns (u : UserId) (h : Handler) : Prop := ∃ rpc, h.rpc = some rpc ∧ rpc.u = u

/-- Likewise for the strand and its handler. -/
def StrandOwes (u : UserId) (ids given : List (Option Value)) : Option (Handler × Act Unit) → Prop
  | none => ids = [] ∧ given = []
  | some (h, p) =>
    (h.concerns u ∧ wp (replySpec u (Handler.owes u)) (fun o v => o = .ok () → v = ids) p given) ∨
      Silent u p ∧ ids = [] ∧ given = []

structure Balanced (u : UserId) (tr : List (World × Label)) (w : World)
    (frame given owed done : List (Option Value)) : Prop where
  others : ∀ v, v ≠ u → PhaseSilent u (w.phase v)
  session : SessionOwes u frame given (w.phase u)
  strand : StrandOwes u owed done w.running
  count : ∀ P : Option Value → Bool,
    (answered u tr).countP P + (awaiting u w).countP P + frame.countP P + owed.countP P =
      (asked u tr).countP P + given.countP P + done.countP P

section step
variable {u : UserId} {tr : List (World × Label)} {w t : World} {l : Label}
  {frame given owed done : List (Option Value)}

theorem balanced_boot (h : Booted w) : Balanced u [] w [] [] [] [] := by
  obtain ⟨rand, chips, before, rfl⟩ := h
  exact ⟨fun _ _ => trivial, ⟨rfl, rfl⟩, ⟨rfl, rfl⟩, fun _ => rfl⟩

theorem awaiting_act {c : Cmd} (ht : t.sh = (act c w.sh).2) (P : Option Value → Bool) :
    (awaiting u t).countP P =
      (awaiting u w).countP P + (c.posts.flatMap (Handler.owes u)).countP P := by
  simp only [awaiting, ht, queue_act, List.flatMap_append, List.countP_append]

/-- A step that neither answers `u`, nor posts for it, nor brings a request of it. -/
theorem Balanced.ofSilent (hw : Balanced u tr w frame given owed done)
    (hasks : l.asks u = []) (hop : ∀ c, operation w l = some c → c.responses u = [] ∧
      c.posts.flatMap (Handler.owes u) = [])
    (hqueue : t.sh.queue = w.sh.queue ++ (operation w l).elim [] Cmd.posts)
    (hothers : ∀ v, v ≠ u → PhaseSilent u (t.phase v))
    (hsession : SessionOwes u frame given (t.phase u)) (hstrand : StrandOwes u owed done t.running) :
    Balanced u (tr ++ [(w, l)]) t frame given owed done := by
  refine ⟨hothers, hsession, hstrand, fun P => ?_⟩
  have hold := hw.count P
  have hanswered : answered u (tr ++ [(w, l)]) = answered u tr := by
    rw [answered_snoc]
    cases hc : operation w l with
    | none => exact List.append_nil _
    | some c => exact (congrArg _ (hop c hc).1).trans (List.append_nil _)
  have hawaiting : awaiting u t = awaiting u w := by
    rw [awaiting, hqueue, List.flatMap_append]
    cases hc : operation w l with
    | none => exact List.append_nil _
    | some c => exact (congrArg _ (hop c hc).2).trans (List.append_nil _)
  rw [asked_snoc, hasks, List.append_nil, hanswered, hawaiting]
  exact hold

/-- The phases of the others do not change with that of `u`. -/
theorem othersSilent (hw : Balanced u tr w frame given owed done) {v : UserId} {p : Phase}
    (sh : Shared) (hp : v ≠ u → PhaseSilent u p) (y : UserId) (hy : y ≠ u) :
    PhaseSilent u (({ w with sh := sh }.setPhase v p).phase y) := by
  by_cases hv : y = v
  · subst hv
    rw [setPhase_self]
    exact hp hy
  · rw [setPhase_ne _ _ hv]
    exact hw.others y hy

/-- A thread of `v` goes from one phase to another without doing anything that concerns `u`. -/
theorem Balanced.ofPhase (hw : Balanced u tr w frame given owed done) {v : UserId} {p : Phase}
    (sh : Shared) (hasks : l.asks u = []) (hop : ∀ c, operation w l = some c → c.responses u = [] ∧
      c.posts.flatMap (Handler.owes u) = [])
    (hqueue : sh.queue = w.sh.queue ++ (operation w l).elim [] Cmd.posts)
    (hown : v = u → SessionOwes u frame given p) (hother : v ≠ u → PhaseSilent u p) :
    Balanced u (tr ++ [(w, l)]) ({ w with sh := sh }.setPhase v p) frame given owed done := by
  apply hw.ofSilent hasks hop hqueue (othersSilent hw sh hother) _ hw.strand
  by_cases hv : v = u
  · subst hv
    rw [setPhase_self]
    exact hown rfl
  · rw [setPhase_ne _ _ (Ne.symm hv)]
    exact hw.session

/-- An operation that answers `u` or posts for it enters both sides of the balance. -/
theorem Balanced.count_op (hw : Balanced u tr w frame given owed done) {c : Cmd} (hasks : l.asks u = [])
    (hop : operation w l = some c) (ht : t.sh = (act c w.sh).2) (P : Option Value → Bool) :
    (answered u (tr ++ [(w, l)])).countP P + (awaiting u t).countP P + frame.countP P +
        owed.countP P =
      (asked u (tr ++ [(w, l)])).countP P + given.countP P + done.countP P +
        (c.responses u ++ c.posts.flatMap (Handler.owes u)).countP P := by
  have hold := hw.count P
  rw [asked_snoc, hasks, List.append_nil, answered_snoc, hop, awaiting_act ht,
    List.countP_append, List.countP_append]
  show _ + (c.responses u).countP P + _ + _ + _ = _
  omega

theorem Balanced.ofOwnOp (hw : Balanced u tr w frame given owed done) {c : Cmd} {k : Res c → Act Unit}
    (h : w.phase u = .busy (.call c k)) :
    ∃ given', Balanced u (tr ++ [(w, .session u)])
      ({ w with sh := (act c w.sh).2 }.setPhase u (.busy (k (act c w.sh).1))) frame given' owed done := by
  have hsession := hw.session
  rw [h] at hsession
  refine ⟨given ++ (c.responses u ++ c.posts.flatMap (Handler.owes u)),
    othersSilent hw _ fun hu => absurd rfl hu, ?_, hw.strand, fun P => ?_⟩
  · rw [setPhase_self]
    exact hsession.2 _ trivial
  · have hop : operation w (.session u) = some c := by simp [operation, h]
    have hcount := hw.count_op (l := .session u)
      (t := { w with sh := (act c w.sh).2 }.setPhase u (.busy (k (act c w.sh).1))) rfl hop rfl P
    rw [show (given ++ _).countP P = given.countP P + _ from List.countP_append]
    exact hcount.trans (by omega)

theorem Balanced.ofTableOp (hw : Balanced u tr w frame given owed done) {h : Handler} {c : Cmd}
    {k : Res c → Act Unit} (hrun : w.running = some (h, .call c k)) :
    ∃ done', Balanced u (tr ++ [(w, .table)])
      { w with sh := (act c w.sh).2, running := some (h, k (act c w.sh).1) } frame given owed done' := by
  have hstrand := hw.strand
  rw [hrun] at hstrand
  have hop : operation w .table = some c := by simp [operation, hrun]
  rcases hstrand with ⟨hu, -, hk⟩ | ⟨⟨hallow, hk⟩, howed⟩
  · refine ⟨done ++ (c.responses u ++ c.posts.flatMap (Handler.owes u)), hw.others, hw.session,
      .inl ⟨hu, hk _ trivial⟩, fun P => ?_⟩
    have hcount := hw.count_op (l := .table)
      (t := { w with sh := (act c w.sh).2, running := some (h, k (act c w.sh).1) }) rfl hop rfl P
    rw [show (done ++ _).countP P = done.countP P + _ from List.countP_append]
    exact hcount.trans (by omega)
  · refine ⟨done, hw.ofSilent rfl ?_ ?_ hw.others hw.session (.inr ⟨hk _ trivial, howed⟩)⟩
    · intro c' hc
      rw [hop] at hc
      cases hc
      exact hallow
    · rw [hop]
      exact queue_act c w.sh

theorem owes_of_not_concerns {h : Handler} (hh : ¬h.concerns u) : h.owes u = [] := by
  unfold Handler.owes
  split
  · rfl
  · rename_i rpc hrpc
    exact if_neg fun hu => hh ⟨rpc, hrpc, hu⟩

/-- The strand takes a handler: what it owes moves from the queue to the strand. -/
theorem Balanced.ofServe (hw : Balanced u tr w frame given owed done) {h : Handler} {q : List Handler}
    (hrun : w.running = none) (hq : w.sh.queue = h :: q) :
    ∃ owed' done', Balanced u (tr ++ [(w, .table)])
      { w with sh := { w.sh with queue := q }, running := some (h, serve h) } frame given owed' done' := by
  have hstrand := hw.strand
  rw [hrun] at hstrand
  obtain ⟨rfl, rfl⟩ := hstrand
  have hop : operation w .table = none := by simp [operation, hrun]
  refine ⟨h.owes u, [], hw.others, hw.session, ?_, fun P => ?_⟩
  · by_cases hh : h.concerns u
    · obtain ⟨rpc, hrpc, hu⟩ := hh
      refine .inl ⟨⟨rpc, hrpc, hu⟩, ?_⟩
      have howes : h.owes u = rpc.id.toList.map some := by simp [Handler.owes, hrpc, hu]
      rw [howes]
      exact settles_serve hrpc hu
    · exact .inr ⟨silent_serve fun rpc hrpc hu => hh ⟨rpc, hrpc, hu⟩, owes_of_not_concerns hh, rfl⟩
  · have hold := hw.count P
    rw [awaiting, hq, List.flatMap_cons, List.countP_append] at hold
    rw [answered_idle u tr hop, asked_other u tr w rfl]
    show _ + (q.flatMap (Handler.owes u)).countP P + _ + _ = _
    rw [List.countP_nil] at hold ⊢
    omega

/-- An exception ends the program where it is. -/
theorem Balanced.terminate (hw : Balanced u tr w frame given owed done) (hasks : l.asks u = [])
    (hop : operation w l = none) :
    Balanced u (tr ++ [(w, l)]) { w with terminated := true } frame given owed done := by
  refine ⟨hw.others, hw.session, hw.strand, fun P => ?_⟩
  rw [answered_idle u tr hop, asked_other u tr w hasks]
  exact hw.count P

theorem balanced_step (hw : Balanced u tr w frame given owed done) (hs : step w l = some t) :
    ∃ frame' given' owed' done', Balanced u (tr ++ [(w, l)]) t frame' given' owed' done' := by
  have hstay : ∀ {v : UserId} {p : Phase} {l : Label} (sh : Shared), sh.queue = w.sh.queue →
      l.asks u = [] → operation w l = none → (v = u → SessionOwes u frame given p) →
      (v ≠ u → PhaseSilent u p) → ∃ frame' given' owed' done',
        Balanced u (tr ++ [(w, l)]) ({ w with sh := sh }.setPhase v p) frame' given' owed' done' := by
    intro v p l sh hsh hasks hop hown hother
    refine ⟨_, _, _, _, hw.ofPhase sh hasks (fun c hc => ?_) ?_ hown hother⟩
    · rw [hop] at hc
      cases hc
    · rw [hop]
      exact hsh.trans (List.append_nil _).symm
  have hat : ∀ {v : UserId} {p : Phase}, w.phase v = p → v = u → SessionOwes u frame given p := by
    rintro v p h rfl
    exact h ▸ hw.session
  have hsilent : ∀ {v : UserId} {p : Phase}, w.phase v = p → v ≠ u → PhaseSilent u p :=
    fun h hv => h ▸ hw.others _ hv
  cases step_moves hs with
  | @connect v h =>
    exact hstay w.sh rfl rfl rfl (fun hv => show _ ∧ _ from hat h hv) fun _ => trivial
  | @frame v jv h =>
    by_cases hv : v = u
    · subst hv
      obtain ⟨rfl, rfl⟩ : frame = [] ∧ given = [] := hat h rfl
      refine ⟨(jv.member "id").toList.map some, [], owed, done,
        othersSilent hw w.sh fun hv => absurd rfl hv, ?_, hw.strand, fun P => ?_⟩
      · rw [setPhase_self]
        exact wp_readFrame jv
      · have hold := hw.count P
        rw [answered_idle v tr rfl, asked_snoc, List.countP_append, Label.asks, if_pos rfl]
        show _ + (awaiting v w).countP P + _ + _ = _
        rw [List.countP_nil] at hold ⊢
        omega
    · exact hstay w.sh rfl (if_neg hv) rfl (fun hu => absurd hu hv) fun _ => silent_readFrame hv jv
  | @sessionOp v c k h =>
    by_cases hv : v = u
    · subst hv
      obtain ⟨_, hnext⟩ := hw.ofOwnOp h
      exact ⟨_, _, _, _, hnext⟩
    · have hop : operation w (.session v) = some c := by simp [operation, h]
      obtain ⟨hallow, hk⟩ := hsilent h hv
      refine ⟨_, _, _, _, hw.ofPhase _ rfl (fun c' hc => ?_) ?_ (fun hu => absurd hu hv) fun _ => ?_⟩
      · rw [hop] at hc
        cases hc
        exact hallow
      · rw [hop]
        exact queue_act c w.sh
      · exact hk _ trivial
  | @sessionDone v a h =>
    have hop : operation w (.session v) = none := by simp [operation, h]
    by_cases hv : v = u
    · subst hv
      obtain rfl : given = frame := hat h rfl rfl
      refine ⟨[], [], owed, done, othersSilent hw w.sh fun hv => absurd rfl hv, ?_, hw.strand,
        fun P => ?_⟩
      · rw [setPhase_self]
        exact ⟨rfl, rfl⟩
      · have hold := hw.count P
        rw [answered_idle v tr hop, asked_other v tr w rfl]
        show _ + (awaiting v w).countP P + _ + _ = _
        rw [List.countP_nil]
        omega
    · exact hstay w.sh rfl rfl hop (fun hu => absurd hu hv) fun _ => trivial
  | @sessionThrow v e h => exact ⟨_, _, _, _, hw.terminate rfl (by simp [operation, h])⟩
  | @eraseLast v n k c h hlast =>
    exact hstay w.sh rfl rfl (by simp [operation, h])
      (fun hv => ⟨.of_keeps (T := fun _ => True) (keeps_erase_silent c), hat h hv⟩)
      fun _ => .of_keeps (T := fun _ => True) (keeps_erase_silent c)
  | @ended v n k h hmine =>
    exact hstay w.sh rfl rfl (by simp [operation, h]) (fun hv => show _ ∧ _ from hat h hv)
      fun _ => trivial
  | @eraseOp v n k c k' h =>
    have hop : operation w (.session v) = some c := by simp [operation, h]
    have hp : Silent u (.call c k') := by
      by_cases hv : v = u
      · exact (hat h hv).1
      · exact hsilent h hv
    obtain ⟨hallow, hk⟩ := hp
    refine ⟨_, _, _, _, hw.ofPhase _ rfl (fun c' hc => ?_) ?_
      (fun hv => ⟨hk _ trivial, (hat h hv).2⟩) fun _ => hk _ trivial⟩
    · rw [hop] at hc
      cases hc
      exact hallow
    · rw [hop]
      exact queue_act c w.sh
  | @eraseDone v n k a h =>
    exact hstay w.sh rfl rfl (by simp [operation, h]) (fun hv => show _ ∧ _ from (hat h hv).2)
      fun _ => trivial
  | @eraseThrow v n k e h => exact ⟨_, _, _, _, hw.terminate rfl (by simp [operation, h])⟩
  | @close v h => exact hstay w.sh rfl rfl rfl (fun hv => show _ ∧ _ from hat h hv) fun _ => trivial
  | @destroy v h hheld =>
    exact hstay (w.expire v).sh rfl rfl rfl (fun hv => show _ ∧ _ from hat h hv) fun _ => trivial
  | @serve h q hrun hq =>
    obtain ⟨_, _, hnext⟩ := hw.ofServe hrun hq
    exact ⟨_, _, _, _, hnext⟩
  | @tableOp h c k hrun =>
    obtain ⟨_, hnext⟩ := hw.ofTableOp hrun
    exact ⟨_, _, _, _, hnext⟩
  | @tableDone h a hrun =>
    have hop : operation w .table = none := by simp [operation, hrun]
    have hstrand := hw.strand
    rw [hrun] at hstrand
    obtain rfl : done = owed := by
      rcases hstrand with ⟨-, hdone⟩ | ⟨-, rfl, rfl⟩
      · exact hdone rfl
      · rfl
    refine ⟨frame, given, [], [], hw.others, hw.session, ⟨rfl, rfl⟩, fun P => ?_⟩
    have hold := hw.count P
    rw [answered_idle u tr hop, asked_other u tr w rfl]
    show _ + (awaiting u w).countP P + _ + _ = _
    rw [List.countP_nil]
    omega
  | @tableThrow h e hrun => exact ⟨_, _, _, _, hw.terminate rfl (by simp [operation, hrun])⟩
  | @announce r h =>
    refine ⟨_, _, _, _, hw.ofSilent rfl (fun c hc => ?_) ?_ hw.others hw.session hw.strand⟩
    · obtain rfl := Option.some.inj hc
      exact ⟨rfl, rfl⟩
    · exact (List.append_nil _).symm
  | @notify r v us h =>
    have hop : operation w .server = some (.trySend v r.notice) := by simp [operation, h]
    have hsilent : (silentSpec u).Safe (fun _ => True) (.trySend v r.notice) := silent_trySend rfl
    refine ⟨_, _, _, _, hw.ofSilent rfl (fun c hc => ?_) ?_ hw.others hw.session hw.strand⟩
    · rw [hop] at hc
      obtain rfl := Option.some.inj hc
      exact (hsilent () trivial).1
    · rw [hop]
      exact queue_act (.trySend v r.notice) w.sh
  | @announced r h =>
    have hop : operation w .server = none := by simp [operation, h]
    refine ⟨_, _, _, _, hw.ofSilent rfl (fun c hc => ?_) ?_ hw.others hw.session hw.strand⟩
    · rw [hop] at hc
      cases hc
    · rw [hop]
      exact (List.append_nil _).symm

theorem balanced_run (hrun : Run step Booted tr w) (u : UserId) :
    ∃ frame given owed done, Balanced u tr w frame given owed done := by
  induction hrun with
  | nil h => exact ⟨_, _, _, _, balanced_boot h⟩
  | snoc hrun hs ih =>
    obtain ⟨_, _, _, _, hw⟩ := ih
    exact balanced_step hw hs

theorem perm_of_countP {α : Type} {l l' : List α} (h : ∀ P : α → Bool, l.countP P = l'.countP P) :
    l.Perm l' := by
  classical
  exact List.perm_iff_count.mpr fun a => h (· == a)

theorem Balanced.perm (hw : Balanced u tr w frame given owed done)
    (hsession : ∀ p, w.phase u ≠ .busy p)
    (hstrand : ∀ h p, w.running = some (h, p) → ¬h.concerns u) :
    (answered u tr ++ awaiting u w).Perm (asked u tr) := by
  have hown : frame = [] ∧ given = [] := by
    have hown := hw.session
    cases hp : w.phase u with
    | busy p => exact absurd hp (hsession p)
    | erasing n k p => rw [hp] at hown; exact hown.2
    | _ => rw [hp] at hown; exact hown
  have hnone : owed = [] ∧ done = [] := by
    have hnone := hw.strand
    cases hr : w.running with
    | none => rw [hr] at hnone; exact hnone
    | some hp =>
      rw [hr] at hnone
      exact (hnone.resolve_left fun h => hstrand _ _ hr h.1).2
  obtain ⟨⟨rfl, rfl⟩, rfl, rfl⟩ := hown, hnone
  exact perm_of_countP fun P => by
    have hcount := hw.count P
    rw [List.countP_nil] at hcount
    rw [List.countP_append]
    omega

end step

/-- Over a whole run: while the session of `u` is processing no frame and the strand no request of
`u`, the ids of the responses passed to `u` so far are, with those of its requests still in the queue
of the table, the ids of the requests it has sent, each as often as it was sent. -/
theorem answers_balance {u : UserId} {tr : List (World × Label)} {w : World}
    (hrun : Run step Booted tr w) (hsession : ∀ p, w.phase u ≠ .busy p)
    (hstrand : ∀ h p, w.running = some (h, p) → ¬h.concerns u) :
    (answered u tr ++ awaiting u w).Perm (asked u tr) := by
  obtain ⟨frame, given, owed, done, hw⟩ := balanced_run hrun u
  exact hw.perm hsession hstrand

/-- User 1 asks to play and, once that is answered, to give up the seat. -/
def asksTwice : List Label :=
  [.connect 1, .frame 1 (tableRequest "play")] ++ List.replicate 3 (.session 1) ++
    List.replicate 7 .table ++ [.frame 1 (tableRequest "watch")] ++ List.replicate 3 (.session 1)

theorem asksTwice_runs : (execute step asksTwice [] bootZero).isSome := by decide +kernel

/-- The second request is in the queue. -/
theorem answers_balance_twice : ∃ tr w, Run step Booted tr w ∧ (awaiting 1 w).length = 1 ∧
    (answered 1 tr ++ awaiting 1 w).Perm (asked 1 tr) := by
  have hidle : (after asksTwice asksTwice_runs).running = none :=
    Option.isNone_iff_eq_none.mp (by decide +kernel)
  have hrest : ((after asksTwice asksTwice_runs).phase 1).atRest = true := by decide +kernel
  have hbalance := answers_balance (u := 1) (run_after asksTwice asksTwice_runs)
    (fun p hp => by rw [hp] at hrest; cases hrest) (fun h p hp => by rw [hidle] at hp; cases hp)
  exact ⟨_, _, run_after asksTwice asksTwice_runs, by decide +kernel, hbalance⟩

end BeastLounge.Lounge
