import BeastLounge.Lounge.Channel

/-!
# The notices of one operation

The operations that `channel::insert` or `channel::erase` performs are known up to the answers
(`trace_program`): when it succeeds, every user of the copy is notified once, and the leaver once
more. So of what the others do in between it only matters who is in the channel when the copy is
made.

The argument: `Logged` records what the performed operations saw of the channel. The first answer
says whether the membership changes, and the third is the copy; after that, what is sent to a user is
settled by how often it is on the list of those to notify (`Logged.notified`).
-/

namespace BeastLounge.Lounge

open Theory Json Rpc

open Prog (Trace Event Leaves Only only_pure only_op only_bind trace_bind trace_op_bind)

/-- The operation has no part in the notices. -/
def Cmd.Aside (c : Cmd) : Prop := c.isMessage = false ∧ c.changesUsers = false

inductive MemberOp
  | insert
  | erase
deriving DecidableEq

namespace MemberOp

def program (o : MemberOp) (c : Channel) (x : UserId) : Act Bool :=
  match o with
  | insert => c.insert x
  | erase => c.erase x

def verb : MemberOp → String
  | insert => "join"
  | erase => "leave"

/-- The change of the users, with its answer. -/
def change (o : MemberOp) (c : Channel) (x : UserId) (b : Bool) : Event Res :=
  match o with
  | insert => ⟨.usersInsert c x, b⟩
  | erase => ⟨.usersErase c x, b⟩

/-- Whom the operation notifies besides the users of the channel. -/
def besides (o : MemberOp) (x : UserId) : List UserId :=
  match o with
  | insert => []
  | erase => [x]

/-- The operations of a successful `insert` or `erase`, up to the last notice. -/
def notifies (o : MemberOp) (c : Channel) (x : UserId) (name : String) (us : List UserId) :
    List (Event Res) :=
  o.change c x true :: ⟨.readName x, name⟩ :: ⟨.broadcast c (c.notice o.verb name), us⟩ ::
    (us ++ o.besides x).map fun y => ⟨.trySend y (c.notice o.verb name), ()⟩

end MemberOp

/-! ### What the operations do -/

section aside
variable {c : Channel} {x : UserId} {tr : List (Event Res)}

theorem aside_userOnInsert : Only Cmd.Aside (userOnInsert x c) :=
  only_bind (only_op ⟨rfl, rfl⟩) fun _ => only_op ⟨rfl, rfl⟩

theorem aside_userOnErase : Only Cmd.Aside (userOnErase x c) :=
  only_bind (only_op ⟨rfl, rfl⟩) fun _ => only_op ⟨rfl, rfl⟩

theorem aside_onInsert : Only Cmd.Aside (c.onInsert x) := by
  unfold Channel.onInsert
  split
  · exact only_pure ()
  · exact only_pure ()
  · exact only_op ⟨rfl, rfl⟩

theorem aside_onErase : Only Cmd.Aside (c.onErase x) := by
  unfold Channel.onErase
  split
  · exact only_pure ()
  · exact only_pure ()
  · exact only_op ⟨rfl, rfl⟩

/-- Two calls and a result, as at the end of `insert` and of `erase`. -/
theorem trace_tail {p q : Act Unit} {r : Except Exn Bool} (hp : Only Cmd.Aside p)
    (hq : Only Cmd.Aside q) (h : Trace (p >>= fun _ => q >>= fun _ => pure true) tr r) :
    r = .ok true ∧ ∀ e ∈ tr, e.1.Aside := by
  obtain ⟨_, pre, rest, rfl, hpre, h'⟩ := hp.trace_bind h
  obtain ⟨_, mid, rest, rfl, hmid, h''⟩ := hq.trace_bind h'
  cases h''
  refine ⟨rfl, fun e he => ?_⟩
  rcases List.mem_append.mp he with he | he
  · exact hpre e he
  · exact hmid e (by simpa using he)

end aside

section trace
variable {c : Channel} {x y : UserId} {tr : List (Event Res)} {o : MemberOp}

theorem trace_each_trySend {us : List UserId} {jv : Value} {r : Except Exn Unit}
    (h : Trace (Prog.each (fun u => op (.trySend u jv)) us) tr r) :
    r = .ok () ∧ tr = us.map fun u => ⟨.trySend u jv, ()⟩ := by
  induction us generalizing tr with
  | nil =>
    cases h
    exact ⟨rfl, rfl⟩
  | cons u us ih =>
    obtain ⟨_, rest, rfl, hrest⟩ := trace_op_bind h
    obtain ⟨rfl, rfl⟩ := ih hrest
    exact ⟨rfl, rfl⟩

theorem trace_channelSend {jv : Value} {r : Except Exn Unit} (h : Trace (c.send jv) tr r) :
    r = .ok () ∧ ∃ us, tr = ⟨.broadcast c jv, us⟩ :: us.map fun u => ⟨.trySend u jv, ()⟩ := by
  obtain ⟨us, rest, rfl, hrest⟩ := trace_op_bind h
  obtain ⟨rfl, rfl⟩ := trace_each_trySend hrest
  exact ⟨rfl, us, rfl⟩

/-- A failed operation only tries to change the users; a successful one makes all its notices. -/
theorem trace_program {r : Except Exn Bool} (h : Trace (o.program c x) tr r) :
    (r = .ok false ∧ tr = [o.change c x false]) ∨
      (r = .ok true ∧ ∃ name us rest, tr = o.notifies c x name us ++ rest ∧
        ∀ e ∈ rest, e.1.Aside) := by
  cases o with
  | insert =>
    obtain ⟨b, rest, rfl, h₁⟩ := trace_op_bind h
    cases b with
    | false =>
      cases h₁
      exact .inl ⟨rfl, rfl⟩
    | true =>
      obtain ⟨name, rest, rfl, h₂⟩ := trace_op_bind h₁
      rcases trace_bind h₂ with ⟨_, pre, rest, rfl, hsend, h₃⟩ | ⟨e, rfl, hsend⟩
      · obtain ⟨-, us, rfl⟩ := trace_channelSend hsend
        obtain ⟨rfl, hrest⟩ := trace_tail aside_userOnInsert aside_onInsert h₃
        refine .inr ⟨rfl, name, us, rest, ?_, hrest⟩
        simp [MemberOp.notifies, MemberOp.change, MemberOp.besides, MemberOp.verb]
      · cases (trace_channelSend hsend).1
  | erase =>
    obtain ⟨b, rest, rfl, h₁⟩ := trace_op_bind h
    cases b with
    | false =>
      cases h₁
      exact .inl ⟨rfl, rfl⟩
    | true =>
      obtain ⟨name, rest, rfl, h₂⟩ := trace_op_bind h₁
      rcases trace_bind h₂ with ⟨_, pre, rest, rfl, hsend, h₃⟩ | ⟨e, rfl, hsend⟩
      · obtain ⟨-, us, rfl⟩ := trace_channelSend hsend
        obtain ⟨_, rest, rfl, h₄⟩ := trace_op_bind h₃
        obtain ⟨rfl, hrest⟩ := trace_tail aside_userOnErase aside_onErase h₄
        refine .inr ⟨rfl, name, us, rest, ?_, hrest⟩
        simp [MemberOp.notifies, MemberOp.change, MemberOp.besides, MemberOp.verb]
      · cases (trace_channelSend hsend).1

end trace

/-! ### What is sent and what arrives -/

/-- What the operation passes to the session of `y`. -/
def sentTo (y : UserId) (e : Event Res) : List Value :=
  match e.1 with
  | .trySend u jv => if u = y then [jv] else []
  | .send u jv => if u = y then [jv] else []
  | _ => []

def sent (y : UserId) (log : List Performed) : List Value := (log.map Prod.snd).flatMap (sentTo y)

/-- What the operation adds to what `y` has been handed. -/
def arrived (y : UserId) (p : Performed) : List Value :=
  ((act p.2.1 p.1).2.mail y).drop (p.1.mail y).length

section sent
variable {c : Channel} {x y : UserId} {o : MemberOp} {name : String} {us : List UserId}
  {log : List Performed} {v : Value} {rest : List (Event Res)}

theorem sent_append (log log' : List Performed) : sent y (log ++ log') = sent y log ++ sent y log' := by
  simp [sent]

theorem sentTo_quiet {e : Event Res} (h : e.1.isMessage = false) : sentTo y e = [] := by
  obtain ⟨cmd, r⟩ := e
  cases cmd <;> first | rfl | cases h

/-- Whoever is on the list gets the notice as often. -/
theorem sent_notifies (hrest : ∀ e ∈ rest, e.1.Aside) :
    (o.notifies c x name us ++ rest).flatMap (sentTo y) =
      List.replicate ((us ++ o.besides x).count y) (c.notice o.verb name) := by
  have hchange : sentTo y (o.change c x true) = [] := by cases o <;> rfl
  have hquiet : rest.flatMap (sentTo y) = [] :=
    List.flatMap_eq_nil_iff.mpr fun e he => sentTo_quiet (hrest e he).1
  rw [← flatMap_ite_eq_replicate]
  simp only [MemberOp.notifies, List.cons_append, List.flatMap_cons, List.flatMap_append, hchange,
    hquiet, List.append_nil, List.flatMap_map]
  rfl

theorem arrived_trySend (w : Shared) (u : UserId) (r : Unit) (jv : Value) :
    arrived y (w, ⟨.trySend u jv, r⟩) = if w.expired y then [] else sentTo y ⟨.trySend u jv, r⟩ := by
  show ((if w.expired u then w else w.send u jv).mail y).drop (w.mail y).length = _
  by_cases hu : u = y
  · subst hu
    split <;> simp [sentTo, Shared.send]
  · have hsame : (if w.expired u then w else w.send u jv).mail y = w.mail y := by
      split
      · rfl
      · exact Function.update_of_ne (Ne.symm hu) ..
    rw [hsame]
    simp [sentTo, hu]

theorem arrived_quiet {p : Performed} (h : p.2.1.isMessage = false) : arrived y p = [] := by
  obtain ⟨w, cmd, r⟩ := p
  have hmail : (act cmd w).2.mail y = w.mail y := by
    cases cmd with
    | trySend u jv => cases h
    | send u jv => cases h
    | usersInsert c u => rw [act_usersInsert]
    | usersErase c u => rw [act_usersErase]
    | channelsInsert u c => rw [act_channelsInsert]
    | channelsErase u c => rw [act_channelsErase]
    | _ => rfl
  show ((act cmd w).2.mail y).drop (w.mail y).length = []
  rw [hmail]
  exact List.drop_length

/-- `user::send` is not called but through a `weak_ptr`. -/
def Cmd.Weak (c : Cmd) : Prop := ∀ u jv, c ≠ .send u jv

theorem arrived_weak {p : Performed} (h : p.2.1.Weak) :
    arrived y p = if p.1.expired y then [] else sentTo y p.2 := by
  obtain ⟨w, cmd, r⟩ := p
  cases cmd with
  | trySend u jv => exact arrived_trySend w u r jv
  | send u jv => exact absurd rfl (h u jv)
  | broadcast c jv =>
    have hnone : arrived y (w, ⟨.broadcast c jv, r⟩) = [] := List.drop_length
    simp [hnone, sentTo]
  | _ =>
    rw [arrived_quiet rfl, sentTo_quiet rfl]
    simp

/-- What is sent once arrives if its user is alive at that moment. -/
theorem arrived_of_sent (hweak : ∀ p ∈ log, p.2.1.Weak) (h : sent y log = [v]) :
    ∃ p ∈ log, sentTo y p.2 = [v] ∧ log.flatMap (arrived y) = if p.1.expired y then [] else [v] := by
  induction log with
  | nil => cases h
  | cons p log ih =>
    rw [List.forall_mem_cons] at hweak
    have hcons : sent y (p :: log) = sentTo y p.2 ++ sent y log := rfl
    rw [hcons] at h
    rcases List.append_eq_singleton_iff.mp h with ⟨hp, hlog⟩ | ⟨hp, hlog⟩
    · obtain ⟨q, hq, hsent, harr⟩ := ih hweak.2 hlog
      refine ⟨q, List.mem_cons_of_mem _ hq, hsent, ?_⟩
      rw [List.flatMap_cons, arrived_weak hweak.1, hp, harr]
      simp
    · refine ⟨p, List.mem_cons_self .., hp, ?_⟩
      have hnone : log.flatMap (arrived y) = [] := by
        refine List.flatMap_eq_nil_iff.mpr fun q hq => ?_
        rw [arrived_weak (hweak.2 q hq)]
        have := List.flatMap_eq_nil_iff.mp hlog q.2 (List.mem_map_of_mem hq)
        simp [this]
      rw [List.flatMap_cons, hnone, arrived_weak hweak.1, hp, List.append_nil]

end sent

/-! ### One operation -/

namespace MemberOp

/-- What the operation makes of the membership. -/
def joins : MemberOp → Bool
  | insert => true
  | erase => false

/-- Before its `i`-th step, an operation that found the membership `m` sees this one. -/
def sees (o : MemberOp) (m : Bool) (i : Nat) : Bool := if i = 0 then m else o.joins

end MemberOp

def member (c : Channel) (w : Shared) (x : UserId) : Bool := decide (x ∈ w.users c)

/-- What one operation of `x` has performed, whatever the others do in between. -/
structure Logged (c : Channel) (x : UserId) (o : MemberOp) (m : Bool) (log : List Performed) :
    Prop where
  actual : Actual log
  nodup : ∀ p ∈ log, (p.1.users c).Nodup
  member : ∀ i p, log[i]? = some p → member c p.1 x = o.sees m i
  alive : o = .insert → ∀ p ∈ log, p.1.expired x = false

/-- An operation of `x` of which `p` is left. -/
structure InProgress (c : Channel) (x : UserId) (o : MemberOp) (m : Bool) (log : List Performed)
    (p : Act Bool) (w : Shared) : Prop where
  logged : Logged c x o m log
  leaves : Leaves (o.program c x) (log.map Prod.snd) p
  member : Lounge.member c w x = o.sees m log.length
  alive : o = .insert → w.expired x = false

/-- While `x` is a member, and from then on, so is `y`. -/
def Attends (c : Channel) (x y : UserId) (log : List Performed) : Prop :=
  (∀ p ∈ log, x ∈ p.1.users c → y ∈ p.1.users c) ∧
    log.Pairwise fun p q => x ∈ p.1.users c → y ∈ q.1.users c

section oneOperation
variable {c : Channel} {x y : UserId} {o : MemberOp} {m : Bool} {log : List Performed}
  {p : Act Bool} {w : Shared} {evs : List (Event Res)}

theorem logged_nil : Logged c x o m [] :=
  ⟨by simp [Actual], by simp, by simp, by simp⟩

theorem Logged.snoc (h : Logged c x o m log) (hn : (w.users c).Nodup)
    (hm : Lounge.member c w x = o.sees m log.length) (ha : o = .insert → w.expired x = false)
    (cmd : Cmd) : Logged c x o m (log ++ [w.perform cmd]) where
  actual := actual_snoc h.actual w cmd
  nodup := by
    intro q hq
    rcases List.mem_append.mp hq with hq | hq
    · exact h.nodup q hq
    · obtain rfl := List.mem_singleton.mp hq
      exact hn
  member := by
    intro i q hq
    rcases Nat.lt_or_ge i log.length with hi | hi
    · rw [List.getElem?_append_left hi] at hq
      exact h.member i q hq
    · rw [List.getElem?_append_right hi] at hq
      obtain ⟨hlt, rfl⟩ := List.getElem?_eq_some_iff.mp hq
      obtain rfl : i = log.length := by simp at hlt; omega
      simpa [Shared.perform] using hm
  alive := by
    intro ho q hq
    rcases List.mem_append.mp hq with hq | hq
    · exact h.alive ho q hq
    · obtain rfl := List.mem_singleton.mp hq
      exact ha ho

/-- The first answer tells whether the membership changes. -/
theorem Logged.first (h : Logged c x o m log) {b : Bool}
    (hb : (log.map Prod.snd)[0]? = some (o.change c x b)) : o.joins = (m ^^ b) := by
  rw [List.getElem?_map, Option.map_eq_some_iff] at hb
  obtain ⟨q, hq, hqe⟩ := hb
  have hm : Lounge.member c q.1 x = m := h.member 0 q hq
  have hact := h.actual q (List.mem_of_getElem? hq)
  obtain ⟨w, e⟩ := q
  obtain rfl : e = o.change c x b := hqe
  cases o with
  | insert =>
    have hb : b = (w.usersInsert c x).1 := hact
    rw [hb, Shared.usersInsert, ← hm]
    by_cases hx : x ∈ w.users c <;> simp [Lounge.member, hx, MemberOp.joins]
  | erase =>
    have hb : b = (w.usersErase c x).1 := hact
    rw [hb, Shared.usersErase, ← hm]
    by_cases hx : x ∈ w.users c <;> simp [Lounge.member, hx, MemberOp.joins]

/-- The copy of the users is the one of the moment. -/
theorem Logged.copy (h : Logged c x o m log) {jv : Value} {us : List UserId}
    (hb : (log.map Prod.snd)[2]? = some ⟨.broadcast c jv, us⟩) :
    ∃ q, log[2]? = some q ∧ us = q.1.users c ∧ us.Nodup ∧ Lounge.member c q.1 x = o.joins := by
  rw [List.getElem?_map, Option.map_eq_some_iff] at hb
  obtain ⟨⟨w, e⟩, hq, rfl⟩ := hb
  have hmem := List.mem_of_getElem? hq
  have hus : us = w.users c := h.actual _ hmem
  refine ⟨_, hq, hus, ?_, h.member 2 _ hq⟩
  rw [hus]
  exact h.nodup _ hmem

/-- The user itself is notified exactly once. -/
theorem count_self {us : List UserId} (hn : us.Nodup) (hx : decide (x ∈ us) = o.joins) :
    (us ++ o.besides x).count x = 1 := by
  cases o with
  | insert =>
    have hmem : x ∈ us := by simpa [MemberOp.joins] using hx
    simp [MemberOp.besides, List.count_eq_one_of_mem hn hmem]
  | erase =>
    have hmem : x ∉ us := by simpa [MemberOp.joins] using hx
    simp [MemberOp.besides, List.count_eq_zero.mpr hmem]

theorem count_other {us : List UserId} (hn : us.Nodup) (hy : y ∈ us) (hne : y ≠ x) :
    (us ++ o.besides x).count y = 1 := by
  have hb : (o.besides x).count y = 0 := by cases o <;> simp [MemberOp.besides, hne.symm]
  rw [List.count_append, hb, List.count_eq_one_of_mem hn hy]

theorem two_lt_length {name : String} {us : List UserId} {rest : List (Event Res)}
    (he : log.map Prod.snd = o.notifies c x name us ++ rest) : 2 < log.length := by
  have := congrArg List.length he
  simp only [MemberOp.notifies, List.length_map, List.cons_append, List.length_cons] at this
  omega

/-- Once the users are copied, what is sent to `y` is settled. -/
theorem Logged.notified (h : Logged c x o m log) {name : String} {us : List UserId}
    (extra : List (Event Res)) {rest : List (Event Res)} (hrest : ∀ e ∈ rest, e.1.Aside)
    (he : log.map Prod.snd ++ extra = o.notifies c x name us ++ rest) (hlen : 2 < log.length)
    (hy : y = x ∨ ∀ q, log[2]? = some q → y ∈ q.1.users c) :
    sent y log ++ extra.flatMap (sentTo y) = [c.notice o.verb name] := by
  have hcopy : (log.map Prod.snd)[2]? = some ⟨.broadcast c (c.notice o.verb name), us⟩ := by
    have hleft : (log.map Prod.snd ++ extra)[2]? = (log.map Prod.snd)[2]? :=
      List.getElem?_append_left (by simpa using hlen)
    rw [← hleft, he]
    rfl
  obtain ⟨q, hq, rfl, hn, hm⟩ := h.copy hcopy
  have hcount : (q.1.users c ++ o.besides x).count y = 1 := by
    by_cases hyx : y = x
    · subst hyx
      exact count_self hn hm
    · exact count_other hn (hy.resolve_left hyx q hq) hyx
  rw [sent, ← List.flatMap_append, he, sent_notifies hrest, hcount]
  rfl

theorem Logged.failed (ht : Trace (o.program c x) (log.map Prod.snd) (.ok false)) :
    ∀ p ∈ log, p.2.1.isMessage = false := by
  rcases trace_program ht with ⟨-, he⟩ | ⟨ht', -⟩
  · intro p hp
    have hmem : p.2 ∈ [o.change c x false] := he ▸ List.mem_map_of_mem hp
    rw [List.mem_singleton.mp hmem]
    cases o <;> rfl
  · cases ht'

theorem weak_of_trace {b : Bool} (ht : Trace (o.program c x) (log.map Prod.snd) (.ok b)) :
    ∀ p ∈ log, p.2.1.Weak := by
  intro p hp
  have hweak : ∀ {cmd : Cmd}, cmd.isMessage = false → cmd.Weak := by
    rintro _ hcmd u jv rfl
    cases hcmd
  have hmem : p.2 ∈ log.map Prod.snd := List.mem_map_of_mem hp
  rcases trace_program ht with ⟨-, he⟩ | ⟨-, name, us, rest, he, hrest⟩
  · rw [he, List.mem_singleton] at hmem
    rw [hmem]
    cases o <;> exact hweak rfl
  · rw [he, MemberOp.notifies] at hmem
    simp only [List.cons_append, List.mem_cons, List.mem_append, List.mem_map] at hmem
    rcases hmem with hmem | hmem | hmem | ⟨u, -, hmem⟩ | hmem
    · rw [hmem]
      cases o <;> exact hweak rfl
    · rw [hmem]
      exact hweak rfl
    · rw [hmem]
      rintro u jv ⟨⟩
    · rw [← hmem]
      rintro u jv ⟨⟩
    · exact hweak (hrest _ hmem).1

/-- What is sent by a successful operation. -/
structure Notified (c : Channel) (x y : UserId) (o : MemberOp) (name : String)
    (log : List Performed) : Prop where
  /-- Exactly one notice is sent to `y`. -/
  once : sent y log = [c.notice o.verb name]
  /-- It arrives if `y` is alive when it is sent. -/
  arrives : ∃ p ∈ log, sentTo y p.2 = [c.notice o.verb name] ∧
    log.flatMap (arrived y) = if p.1.expired y then [] else [c.notice o.verb name]

theorem Logged.succeeded (h : Logged c x o m log)
    (ht : Trace (o.program c x) (log.map Prod.snd) (.ok true)) :
    ∃ p ∈ log, ∀ y, (y = x ∨ ∀ q ∈ log, y ∈ q.1.users c) →
      Notified c x y o (p.1.name x) log := by
  rcases trace_program ht with ⟨ht', -⟩ | ⟨-, name, us, rest, he, hrest⟩
  · cases ht'
  have hname : (log.map Prod.snd)[1]? = some ⟨.readName x, name⟩ := by
    rw [he]
    rfl
  rw [List.getElem?_map, Option.map_eq_some_iff] at hname
  obtain ⟨p, hp, hpe⟩ := hname
  have hpmem := List.mem_of_getElem? hp
  have hread : name = p.1.name x := by
    have hact := h.actual p hpmem
    rw [hpe] at hact
    exact hact
  subst hread
  refine ⟨p, hpmem, fun y hy => ?_⟩
  have hsent : sent y log = [c.notice o.verb (p.1.name x)] := by
    have := h.notified [] hrest (by simpa using he) (two_lt_length he)
      (hy.imp_right fun hall q hq => hall q (List.mem_of_getElem? hq))
    simpa using this
  exact ⟨hsent, arrived_of_sent (weak_of_trace ht) hsent⟩

/-- The answer of a finished operation. -/
theorem Logged.answer (h : Logged c x o m log) {b : Bool}
    (ht : Trace (o.program c x) (log.map Prod.snd) (.ok b)) : o.joins = (m ^^ b) := by
  rcases trace_program ht with ⟨hb, he⟩ | ⟨hb, name, us, rest, he, -⟩
  · obtain rfl := Except.ok.inj hb
    exact h.first (by rw [he]; rfl)
  · obtain rfl := Except.ok.inj hb
    exact h.first (by rw [he]; rfl)

/-- Whoever is a member while `x` is one sees the copy made. -/
theorem Logged.attends_copy (h : Logged c x o m log) (hm : o.joins = !m) (hatt : Attends c x y log)
    {q : Performed} (hq : log[2]? = some q) : y ∈ q.1.users c := by
  cases o with
  | insert =>
    have hx : Lounge.member c q.1 x = true := h.member 2 q hq
    exact hatt.1 q (List.mem_of_getElem? hq) (by simpa [Lounge.member] using hx)
  | erase =>
    obtain rfl : m = true := by simpa [MemberOp.joins] using hm
    obtain ⟨hlt, rfl⟩ := List.getElem?_eq_some_iff.mp hq
    have hx : Lounge.member c log[0].1 x = true := h.member 0 _ (List.getElem?_eq_getElem (by omega))
    exact (List.pairwise_iff_getElem.mp hatt.2) 0 2 (by omega) hlt (by omega)
      (by simpa [Lounge.member] using hx)

/-- What an operation in progress has sent to `y` is part of what a finished one sends. -/
theorem Logged.sent_partial (h : Logged c x o m log)
    (hl : Leaves (o.program c x) (log.map Prod.snd) p) (hatt : Attends c x y log) (w : Shared) :
    sent y log = [] ∨ (o.joins = !m ∧ ∃ name, sent y log = [c.notice o.verb name]) := by
  have hfew : ∀ evs : List (Event Res), log.map Prod.snd <+: evs →
      evs.flatMap (sentTo y) = [] → sent y log = [] := by
    rintro _ ⟨extra, rfl⟩ hnil
    rw [List.flatMap_append, List.append_eq_nil_iff] at hnil
    exact hnil.1
  rcases trace_program (hl.trace (Prog.trace_events act p w)) with
    ⟨-, he⟩ | ⟨-, name, us, rest, he, hrest⟩
  · refine .inl (hfew _ ⟨p.events act w, he⟩ ?_)
    cases o <;> rfl
  · rcases Nat.lt_or_ge 2 log.length with hlen | hlen
    · have hm : o.joins = !m := by
        rw [← Bool.xor_true]
        refine h.first ?_
        have hleft : (log.map Prod.snd ++ p.events act w)[0]? = (log.map Prod.snd)[0]? :=
          List.getElem?_append_left (by rw [List.length_map]; omega)
        rw [← hleft, he]
        rfl
      have := h.notified _ hrest he hlen (.inr fun q hq => h.attends_copy hm hatt hq)
      rcases List.append_eq_singleton_iff.mp this with ⟨hnil, -⟩ | ⟨hone, -⟩
      · exact .inl hnil
      · exact .inr ⟨hm, name, hone⟩
    · refine .inl (hfew ((o.notifies c x name us).take 2) ?_ ?_)
      · have : log.map Prod.snd = (o.notifies c x name us ++ rest).take log.length := by
          rw [← he, List.take_left' (by simp)]
        rw [this, List.take_append_of_le_length (by simp [MemberOp.notifies]; omega)]
        exact List.take_prefix_take_left hlen
      · cases o <;> rfl

/-- What a finished operation has sent to `y`. -/
theorem Logged.sent_whole (h : Logged c x o m log) {b : Bool}
    (ht : Trace (o.program c x) (log.map Prod.snd) (.ok b)) (hatt : Attends c x y log) :
    (o.joins = m ∧ sent y log = []) ∨
      (o.joins = !m ∧ ∃ name, sent y log = [c.notice o.verb name]) := by
  have hb := h.answer ht
  cases b with
  | false =>
    refine .inl ⟨by simpa using hb, ?_⟩
    exact List.flatMap_eq_nil_iff.mpr fun e he => by
      obtain ⟨q, hq, rfl⟩ := List.mem_map.mp he
      exact sentTo_quiet (Logged.failed ht q hq)
  | true =>
    have hm : o.joins = !m := by simpa using hb
    rcases trace_program ht with ⟨ht', -⟩ | ⟨-, name, us, rest, he, hrest⟩
    · cases ht'
    refine .inr ⟨hm, name, ?_⟩
    have := h.notified [] hrest (by simpa using he) (two_lt_length he)
      (.inr fun q hq => h.attends_copy hm hatt hq)
    simpa using this

end oneOperation

section change
variable {c : Channel} {x y : UserId} {o : MemberOp} {log : List Performed} {w : Shared} {cmd : Cmd}
  {k : Res cmd → Act Bool}

theorem tail_changesUsers {tr : List (Event Res)} {r : Except Exn Bool}
    (h : Trace (o.program c x) tr r) : ∀ e ∈ tr.tail, e.1.changesUsers = false := by
  rcases trace_program h with ⟨-, rfl⟩ | ⟨-, name, us, rest, rfl, hrest⟩
  · simp
  · intro e he
    simp only [MemberOp.notifies, List.cons_append, List.tail_cons, List.mem_cons, List.mem_append,
      List.mem_map] at he
    rcases he with rfl | rfl | ⟨u, -, rfl⟩ | he
    · rfl
    · rfl
    · rfl
    · exact (hrest e he).2

/-- Only the first step changes the users. -/
theorem changes_first (hl : Leaves (o.program c x) (log.map Prod.snd) (.call cmd k)) (w : Shared) :
    (log = [] ∧ (o = .insert ∧ cmd = .usersInsert c x ∨ o = .erase ∧ cmd = .usersErase c x)) ∨
      (log ≠ [] ∧ cmd.changesUsers = false) := by
  cases log with
  | nil =>
    refine .inl ⟨rfl, ?_⟩
    cases o with
    | insert =>
      cases hl
      exact .inl ⟨rfl, rfl⟩
    | erase =>
      cases hl
      exact .inr ⟨rfl, rfl⟩
  | cons q log =>
    refine .inr ⟨by simp, ?_⟩
    have htail := tail_changesUsers (hl.trace (Prog.trace_events act (.call cmd k) w))
    exact htail ⟨cmd, (act cmd w).1⟩ (by simp [Prog.events])

theorem users_usersInsert (hx : x ∉ w.users c) :
    (act (.usersInsert c x) w).2.users c = (w.users c).orderedInsert (· ≤ ·) x := by
  show (w.usersInsert c x).2.users c = _
  rw [Shared.usersInsert, if_neg hx]
  exact Function.update_self ..

theorem users_usersErase :
    (act (.usersErase c x) w).2.users c = (w.users c).filter (· ≠ x) := by
  show (w.usersErase c x).2.users c = _
  unfold Shared.usersErase
  split
  · exact Function.update_self ..
  · rename_i hx
    symm
    exact List.filter_eq_self.mpr fun u hu => by simpa using fun h : u = x => hx (h ▸ hu)

/-- What a step of the operation makes of the users. -/
structure Acted (c : Channel) (x : UserId) (o : MemberOp) (log : List Performed) (w w' : Shared) :
    Prop where
  nodup : (w'.users c).Nodup
  other : ∀ y, y ≠ x → member c w' y = member c w y
  self : member c w' x = if log = [] then o.joins else member c w x
  expired : w'.expired = w.expired

theorem acted (hl : Leaves (o.program c x) (log.map Prod.snd) (.call cmd k))
    (hn : (w.users c).Nodup) : Acted c x o log w (act cmd w).2 := by
  rcases changes_first hl w with ⟨rfl, ⟨rfl, rfl⟩ | ⟨rfl, rfl⟩⟩ | ⟨hlog, hcmd⟩
  · by_cases hx : x ∈ w.users c
    · have hact : act (.usersInsert c x) w = (false, w) := if_pos hx
      rw [hact]
      exact ⟨hn, fun _ _ => rfl, by simp [member, hx, MemberOp.joins], rfl⟩
    · refine ⟨?_, fun y hy => ?_, ?_, act_fixed.2⟩
      · rw [users_usersInsert hx, (List.perm_orderedInsert _ x _).nodup_iff]
        exact List.nodup_cons.mpr ⟨hx, hn⟩
      · simp only [member, users_usersInsert hx, List.mem_orderedInsert, hy, false_or]
      · simp [member, users_usersInsert hx, MemberOp.joins]
  · refine ⟨?_, fun y hy => ?_, ?_, act_fixed.2⟩
    · rw [users_usersErase]
      exact hn.filter _
    · simp [member, users_usersErase, hy]
    · simp [member, users_usersErase, MemberOp.joins]
  · have husers := congrFun (act_users_eq (w := w) hcmd) c
    refine ⟨by rwa [husers], fun y _ => ?_, ?_, act_fixed.2⟩
    · simp only [member, husers]
    · simp only [member, husers, if_neg hlog]

end change

end BeastLounge.Lounge
