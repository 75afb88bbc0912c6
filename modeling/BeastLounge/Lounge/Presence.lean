import BeastLounge.Theory.Runs
import BeastLounge.Lounge.Notices

/-!
# Notices of presence

Any number of users insert themselves into one channel and erase themselves from it; the operations of
each user come one after the other, and among those of the others in any order. Changing the users,
copying them and notifying each of them are separate steps, and a user may expire between its own
operations.

The argument: nobody else changes whether `x` is a member, so what `x` has performed is a sequence of
operations each of which finds the membership the one before has left (`Accounted`). Joins and
leaves therefore take turns, and each notifies its users once (`Logged`).
-/

namespace BeastLounge.Lounge

open Theory Json Rpc

open Prog (Trace Event Leaves)

/-! ### The system -/

structure Presence where
  sh : Shared
  /-- The operation a user is in the middle of, and what is left of it. -/
  thread : UserId → Option (MemberOp × Act Bool) := fun _ => none

namespace Presence

def setThread (s : Presence) (x : UserId) (t : Option (MemberOp × Act Bool)) : Presence :=
  { s with thread := Function.update s.thread x t }

def expire (s : Presence) (x : UserId) : Presence :=
  { s with sh := { s.sh with expired := Function.update s.sh.expired x true } }

inductive Label
  | start (x : UserId) (o : MemberOp)
  /-- The operation of `x` takes its next step. -/
  | go (x : UserId)
  | finish (x : UserId)
  /-- `~user` begins. -/
  | expire (x : UserId)

/-- `~user` only erases. -/
def step (c : Channel) (s : Presence) : Label → Option Presence
  | .start x o =>
    match s.thread x with
    | some _ => none
    | none =>
      if o = .insert ∧ s.sh.expired x = true then none
      else some (s.setThread x (some (o, o.program c x)))
  | .go x =>
    match s.thread x with
    | some (o, .call cmd k) =>
      some ({ s with sh := (act cmd s.sh).2 }.setThread x (some (o, k (act cmd s.sh).1)))
    | _ => none
  | .finish x =>
    match s.thread x with
    | some (_, .pure _) => some (s.setThread x none)
    | _ => none
  | .expire x =>
    match s.thread x with
    | some _ => none
    | none => some (s.expire x)

/-- No operation is in progress, and `users_` is a set. -/
structure Started (c : Channel) (s : Presence) : Prop where
  thread : ∀ x, s.thread x = none
  nodup : (s.sh.users c).Nodup

inductive Moves (c : Channel) (s : Presence) : Label → Presence → Prop
  | start {x : UserId} {o : MemberOp} (h : s.thread x = none)
      (halive : o = .insert → s.sh.expired x = false) :
      Moves c s (.start x o) (s.setThread x (some (o, o.program c x)))
  | go {x : UserId} {o : MemberOp} {cmd : Cmd} {k : Res cmd → Act Bool}
      (h : s.thread x = some (o, .call cmd k)) :
      Moves c s (.go x)
        ({ s with sh := (act cmd s.sh).2 }.setThread x (some (o, k (act cmd s.sh).1)))
  | finish {x : UserId} {o : MemberOp} {b : Bool} (h : s.thread x = some (o, .pure b)) :
      Moves c s (.finish x) (s.setThread x none)
  | expire {x : UserId} (h : s.thread x = none) : Moves c s (.expire x) (s.expire x)

theorem step_moves {c : Channel} {s t : Presence} {l : Label} (h : step c s l = some t) :
    Moves c s l t := by
  cases l with
  | start x o =>
    simp only [step] at h
    split at h
    · contradiction
    · rename_i hidle
      split at h
      · contradiction
      · rename_i halive
        obtain rfl := Option.some.inj h
        exact .start hidle fun ho => by simpa [ho] using halive
  | go x =>
    simp only [step] at h
    split at h
    · rename_i o cmd k hx
      obtain rfl := Option.some.inj h
      exact .go hx
    · contradiction
  | finish x =>
    simp only [step] at h
    split at h
    · rename_i o b hx
      obtain rfl := Option.some.inj h
      exact .finish hx
    · contradiction
  | expire x =>
    simp only [step] at h
    split at h
    · contradiction
    · rename_i hidle
      obtain rfl := Option.some.inj h
      exact .expire hidle

@[simp] theorem setThread_self (s : Presence) (x : UserId) (t : Option (MemberOp × Act Bool)) :
    (s.setThread x t).thread x = t := Function.update_self ..

theorem setThread_ne (s : Presence) {x y : UserId} (t : Option (MemberOp × Act Bool)) (h : y ≠ x) :
    (s.setThread x t).thread y = s.thread y := Function.update_of_ne h ..

/-! ### What a run has done -/

/-- What the step performs for `x`. -/
def performed (x : UserId) (s : Presence) : Label → List Performed
  | .go y =>
    match s.thread y with
    | some (_, .call cmd _) => if y = x then [s.sh.perform cmd] else []
    | _ => []
  | _ => []

/-- Everything performed for `x`. -/
def history (x : UserId) (tr : List (Presence × Label)) : List Performed :=
  tr.flatMap fun e => performed x e.1 e.2

def Label.startsFor (x : UserId) : Label → Bool
  | .start y _ => decide (y = x)
  | _ => false

/-- What has been performed for `x` since its last operation started. -/
def current (x : UserId) (tr : List (Presence × Label)) : List Performed :=
  tr.foldl (fun log e => if e.2.startsFor x then [] else log ++ performed x e.1 e.2) []

end Presence

/-! ### Runs -/

/-- The finished operations of `x`, from the membership `m₀` to the membership `m`. -/
inductive Past (c : Channel) (x : UserId) (m₀ : Bool) : List Performed → Bool → Prop
  | nil : Past c x m₀ [] m₀
  | op {ops log : List Performed} {o : MemberOp} {m b : Bool} (h : Past c x m₀ ops m)
      (hlog : Logged c x o m log) (ht : Trace (o.program c x) (log.map Prod.snd) (.ok b)) :
      Past c x m₀ (ops ++ log) o.joins

/-- The operations of `x` follow one another, and the last one may be in progress. -/
def Presence.Accounted (c : Channel) (x : UserId) (m₀ : Bool) (tr : List (Presence × Presence.Label))
    (s : Presence) : Prop :=
  match s.thread x with
  | none => Past c x m₀ (Presence.history x tr) (member c s.sh x)
  | some (o, p) => ∃ past m, Presence.history x tr = past ++ Presence.current x tr ∧
      Past c x m₀ past m ∧ InProgress c x o m (Presence.current x tr) p s.sh

namespace Presence

section runs
variable {c : Channel} {x y : UserId} {m₀ : Bool} {tr : List (Presence × Label)} {s t s₀ : Presence}
  {l : Label}

theorem history_snoc : history x (tr ++ [(s, l)]) = history x tr ++ performed x s l := by
  simp [history]

theorem current_snoc : current x (tr ++ [(s, l)]) =
    if l.startsFor x then [] else current x tr ++ performed x s l := by
  simp [current]

/-- A step that does not concern `x`. -/
theorem Accounted.frame (h : s.Accounted c x m₀ tr) (hp : performed x s l = [])
    (hl : l.startsFor x = false) (hth : t.thread x = s.thread x)
    (hm : member c t.sh x = member c s.sh x) (he : t.sh.expired x = s.sh.expired x) :
    t.Accounted c x m₀ (tr ++ [(s, l)]) := by
  have hcur : current x (tr ++ [(s, l)]) = current x tr := by
    rw [current_snoc, hl, hp]
    simp
  unfold Accounted at h ⊢
  rw [history_snoc, hp, List.append_nil, hth, hcur]
  split
  · rename_i hx
    rw [hx] at h
    rwa [hm]
  · rename_i o p hx
    rw [hx] at h
    obtain ⟨past, m, hhist, hpast, hprog⟩ := h
    exact ⟨past, m, hhist, hpast,
      ⟨hprog.logged, hprog.leaves, hm.trans hprog.member, fun ho => he.trans (hprog.alive ho)⟩⟩

theorem Accounted.idle (h : s.Accounted c x m₀ tr) (hx : s.thread x = none) :
    Past c x m₀ (history x tr) (member c s.sh x) := by
  unfold Accounted at h
  rwa [hx] at h

theorem Accounted.busy (h : s.Accounted c x m₀ tr) {o : MemberOp} {p : Act Bool}
    (hx : s.thread x = some (o, p)) :
    ∃ past m, history x tr = past ++ current x tr ∧ Past c x m₀ past m ∧
      InProgress c x o m (current x tr) p s.sh := by
  unfold Accounted at h
  rwa [hx] at h

/-- The step of the operation itself. -/
theorem Accounted.go (h : s.Accounted c x m₀ tr) (hn : (s.sh.users c).Nodup) {o : MemberOp}
    {cmd : Cmd} {k : Res cmd → Act Bool} (hx : s.thread x = some (o, .call cmd k)) :
    Accounted c x m₀ (tr ++ [(s, .go x)])
      ({ s with sh := (act cmd s.sh).2 }.setThread x (some (o, k (act cmd s.sh).1))) := by
  obtain ⟨past, m, hhist, hpast, hprog⟩ := h.busy hx
  have hperf : performed x s (.go x) = [s.sh.perform cmd] := by simp [performed, hx]
  have hcur : current x (tr ++ [(s, .go x)]) = current x tr ++ [s.sh.perform cmd] := by
    rw [current_snoc, hperf]
    rfl
  unfold Accounted
  rw [setThread_self]
  refine ⟨past, m, by rw [history_snoc, hperf, hcur, hhist, List.append_assoc], hpast, ?_⟩
  rw [hcur]
  have hact := acted hprog.leaves hn
  refine ⟨hprog.logged.snoc hn hprog.member hprog.alive cmd, ?_, ?_, fun ho => ?_⟩
  · rw [List.map_append]
    exact hprog.leaves.snoc _
  · refine hact.self.trans ?_
    rw [hprog.member, MemberOp.sees, MemberOp.sees]
    by_cases hlog : current x tr = []
    · simp [hlog]
    · simp [hlog]
  · exact (congrFun hact.expired x).trans (hprog.alive ho)

/-- The operations of all users are accounted for. -/
structure Accounts (c : Channel) (m₀ : UserId → Bool) (tr : List (Presence × Label)) (s : Presence) :
    Prop where
  nodup : (s.sh.users c).Nodup
  each : ∀ x, s.Accounted c x (m₀ x) tr

theorem Accounts.step {m₀ : UserId → Bool} (h : Accounts c m₀ tr s) (hs : step c s l = some t) :
    Accounts c m₀ (tr ++ [(s, l)]) t := by
  have hperf : ∀ {x y : UserId}, x ≠ y → performed x s (.go y) = [] := by
    intro x y hxy
    simp only [performed]
    split
    · exact if_neg fun hyx => hxy hyx.symm
    · rfl
  cases step_moves hs with
  | @start y o hidle halive =>
    refine ⟨h.nodup, fun x => ?_⟩
    by_cases hxy : x = y
    · subst hxy
      unfold Accounted
      rw [setThread_self]
      have hcur : current x (tr ++ [(s, .start x o)]) = [] := by
        rw [current_snoc]
        simp [Label.startsFor]
      have hhist : history x (tr ++ [(s, .start x o)]) = history x tr := by simp [history, performed]
      refine ⟨history x tr, member c s.sh x, by rw [hhist, hcur, List.append_nil],
        (h.each x).idle hidle, ?_⟩
      rw [hcur]
      exact ⟨logged_nil, .nil _, rfl, halive⟩
    · exact (h.each x).frame rfl (by simpa [Label.startsFor] using Ne.symm hxy)
        (setThread_ne _ _ hxy) rfl rfl
  | @go y o cmd k hy =>
    obtain ⟨past, m, -, -, hprog⟩ := (h.each y).busy hy
    have hact := acted hprog.leaves h.nodup
    refine ⟨hact.nodup, fun x => ?_⟩
    by_cases hxy : x = y
    · subst hxy
      exact (h.each x).go h.nodup hy
    · exact (h.each x).frame (hperf hxy) rfl (setThread_ne _ _ hxy) (hact.other x hxy)
        (congrFun hact.expired x)
  | @finish y o b hy =>
    refine ⟨h.nodup, fun x => ?_⟩
    by_cases hxy : x = y
    · subst hxy
      obtain ⟨past, m, hhist, hpast, hprog⟩ := (h.each x).busy hy
      unfold Accounted
      rw [setThread_self]
      have hall : history x (tr ++ [(s, .finish x)]) = past ++ current x tr := by
        rw [history_snoc, hhist]
        simp [performed]
      have ht := hprog.leaves.trace (.pure b)
      rw [List.append_nil] at ht
      have hne : current x tr ≠ [] := by
        intro hnil
        rw [hnil] at ht
        rcases trace_program ht with ⟨-, he⟩ | ⟨-, name, us, rest, he, -⟩ <;> cases he
      have hm : member c s.sh x = o.joins := by
        rw [hprog.member, MemberOp.sees, if_neg (by simpa using hne)]
      show Past c x (m₀ x) _ (member c s.sh x)
      rw [hall, hm]
      exact hpast.op hprog.logged ht
    · exact (h.each x).frame rfl rfl (setThread_ne _ _ hxy) rfl rfl
  | @expire y hidle =>
    refine ⟨h.nodup, fun x => ?_⟩
    by_cases hxy : x = y
    · subst hxy
      have hidle' : (s.expire x).thread x = none := hidle
      unfold Accounted
      rw [hidle', history_snoc]
      show Past c x (m₀ x) (history x tr ++ []) (member c s.sh x)
      rw [List.append_nil]
      exact (h.each x).idle hidle
    · exact (h.each x).frame rfl rfl rfl rfl (Function.update_of_ne hxy ..)

theorem accounts (h0 : Started c s₀) (h : Run (step c) (· = s₀) tr s) :
    Accounts c (member c s₀.sh) tr s := by
  induction h with
  | nil h =>
    subst h
    refine ⟨h0.nodup, fun x => ?_⟩
    unfold Accounted
    rw [h0.thread x]
    exact .nil
  | snoc _ hs ih => exact ih.step hs

end runs

end Presence

/-! ### Exactness -/

/-- A finished operation of `x` that answered `b`. Every finished one was at such a state: the step
that takes it on is its return. -/
def Presence.Finished (s : Presence) (x : UserId) (o : MemberOp) (b : Bool) : Prop :=
  s.thread x = some (o, .pure b)

/-- What an operation of `x` has to send: nothing when it fails; when it succeeds, one notice with
the name of `x` to `x` and to everyone who was a member all the while. -/
def Exact (c : Channel) (x : UserId) (o : MemberOp) (log : List Performed) : Bool → Prop
  | false => ∀ p ∈ log, p.2.1.isMessage = false
  | true => (∃ p ∈ log, ∀ y, (y = x ∨ ∀ q ∈ log, y ∈ q.1.users c) →
      Notified c x y o (p.1.name x) log) ∧ (o = .insert → ∀ p ∈ log, p.1.expired x = false)

/-- Joins and leaves in turn, with the names they carry. -/
def alternating (c : Channel) (names : List String) : List Value :=
  names.mapIdx fun i name => c.notice (if i % 2 = 0 then "join" else "leave") name

/-- Up to some point of the run `x` is not a member, and from there on `y` is one. -/
def Observes (c : Channel) (x y : UserId) (tr : List (Presence × Presence.Label)) (s : Presence) :
    Prop :=
  ∃ before after, tr.map Prod.fst ++ [s] = before ++ after ∧ before ≠ [] ∧
    (∀ a ∈ before, x ∉ a.sh.users c) ∧ ∀ a ∈ after, y ∈ a.sh.users c

section exact
variable {c : Channel} {x y : UserId} {m : Bool} {ops log : List Performed}
  {tr : List (Presence × Presence.Label)} {s s₀ : Presence}

theorem alternating_snoc (names : List String) (name : String) :
    alternating c (names ++ [name]) = alternating c names ++
      [c.notice (if names.length % 2 = 0 then "join" else "leave") name] := by
  simp [alternating, List.mapIdx_append]

theorem attends_append (h : Attends c x y (ops ++ log)) : Attends c x y ops ∧ Attends c x y log := by
  obtain ⟨hall, hpair⟩ := h
  rw [List.forall_mem_append] at hall
  obtain ⟨hops, hlog, -⟩ := List.pairwise_append.mp hpair
  exact ⟨⟨hall.1, hops⟩, hall.2, hlog⟩

/-- One more notice continues the alternation. -/
theorem alternating_next {o : MemberOp} {names : List String} (hm : m = decide (names.length % 2 = 1))
    (ho : o.joins = !m) (name : String) :
    alternating c names ++ [c.notice o.verb name] = alternating c (names ++ [name]) ∧
      o.joins = decide ((names ++ [name]).length % 2 = 1) := by
  rw [alternating_snoc, List.length_append, List.length_singleton]
  subst hm
  rcases Nat.mod_two_eq_zero_or_one names.length with h | h
  · have ho : o.joins = true := by simpa [h] using ho
    have hverb : o.verb = "join" := by cases o <;> first | rfl | cases ho
    refine ⟨by rw [hverb, if_pos h], ?_⟩
    rw [ho]
    simp
    omega
  · have ho : o.joins = false := by simpa [h] using ho
    have hverb : o.verb = "leave" := by cases o <;> first | rfl | cases ho
    refine ⟨by rw [hverb, if_neg (by omega)], ?_⟩
    rw [ho]
    simp
    omega

/-- The notices of finished operations, to someone who is a member while `x` is. -/
theorem Past.alternates (h : Past c x false ops m) (hatt : Attends c x y ops) :
    ∃ names, sent y ops = alternating c names ∧ m = decide (names.length % 2 = 1) := by
  induction h with
  | nil => exact ⟨[], rfl, rfl⟩
  | @op ops log o m b h hlog ht ih =>
    obtain ⟨hops, hattlog⟩ := attends_append hatt
    obtain ⟨names, hsent, hm⟩ := ih hops
    rw [sent_append, hsent]
    rcases hlog.sent_whole ht hattlog with ⟨ho, hnil⟩ | ⟨ho, name, hone⟩
    · exact ⟨names, by rw [hnil, List.append_nil], ho.trans hm⟩
    · rw [hone]
      obtain ⟨hnotes, hlen⟩ := alternating_next (c := c) hm ho name
      exact ⟨names ++ [name], hnotes, hlen⟩

/-- What a run performed for `x` was performed in states of the run, in their order. -/
theorem history_states (x : UserId) (tr : List (Presence × Presence.Label)) :
    ((Presence.history x tr).map Prod.fst).Sublist (tr.map fun e => e.1.sh) := by
  induction tr with
  | nil => exact .refl _
  | cons e tr ih =>
    have hone : ((Presence.performed x e.1 e.2).map Prod.fst).Sublist [e.1.sh] := by
      unfold Presence.performed
      split
      · split
        · split
          · exact .refl _
          · exact List.nil_sublist _
        · exact List.nil_sublist _
      · exact List.nil_sublist _
    rw [Presence.history, List.flatMap_cons, List.map_append]
    exact hone.append ih

theorem Observes.attends (h : Observes c x y tr s) : Attends c x y (Presence.history x tr) := by
  obtain ⟨before, after, heq, -, hx, hy⟩ := h
  have hsub : ((Presence.history x tr).map Prod.fst).Sublist
      (before.map Presence.sh ++ after.map Presence.sh) := by
    rw [← List.map_append, ← heq, List.map_append, List.map_map]
    exact (history_states x tr).trans (List.sublist_append_left ..)
  have hall : ∀ w ∈ before.map Presence.sh ++ after.map Presence.sh, x ∈ w.users c → y ∈ w.users c := by
    simp only [List.mem_append, List.mem_map]
    rintro w (⟨a, ha, rfl⟩ | ⟨a, ha, rfl⟩) hw
    · exact absurd hw (hx a ha)
    · exact hy a ha
  have hpair : (before.map Presence.sh ++ after.map Presence.sh).Pairwise
      fun v w => x ∈ v.users c → y ∈ w.users c := by
    refine List.pairwise_append.mpr ⟨?_, ?_, ?_⟩
    · rw [List.pairwise_map]
      exact List.pairwise_of_forall_mem_list fun a ha b _ hv => absurd hv (hx a ha)
    · rw [List.pairwise_map]
      exact List.pairwise_of_forall_mem_list fun a _ b hb _ => hy b hb
    · intro v hv w hw _
      obtain ⟨b, hb, rfl⟩ := List.mem_map.mp hw
      exact hy b hb
  exact ⟨fun p hp => hall _ (hsub.subset (List.mem_map_of_mem hp)),
    List.pairwise_map.mp (hpair.sublist hsub)⟩

/-- The answered operations of a run are exact. -/
theorem exact_of_finished (h0 : s₀.Started c) (hrun : Run (Presence.step c) (· = s₀) tr s)
    {o : MemberOp} {b : Bool} (hfin : s.Finished x o b) :
    Exact c x o (Presence.current x tr) b := by
  obtain ⟨past, m, -, -, hprog⟩ := ((Presence.accounts h0 hrun).each x).busy hfin
  have ht := hprog.leaves.trace (.pure b)
  rw [List.append_nil] at ht
  cases b with
  | false => exact Logged.failed ht
  | true => exact ⟨hprog.logged.succeeded ht, hprog.logged.alive⟩

theorem alternating_of_observes (h0 : s₀.Started c) (hrun : Run (Presence.step c) (· = s₀) tr s)
    (hobs : Observes c x y tr s) : ∃ names, sent y (Presence.history x tr) = alternating c names := by
  have hm₀ : member c s₀.sh x = false := by
    obtain ⟨before, after, heq, hne, hx, -⟩ := hobs
    obtain ⟨_, rest, hfirst, rfl⟩ := hrun.states_eq
    obtain ⟨a, before, rfl⟩ := List.exists_cons_of_ne_nil hne
    rw [hfirst, List.cons_append, List.cons.injEq] at heq
    obtain ⟨rfl, -⟩ := heq
    simpa [member] using hx _ (List.mem_cons_self ..)
  have hatt := hobs.attends
  have hacc := (Presence.accounts h0 hrun).each x
  rw [hm₀] at hacc
  cases hx : s.thread x with
  | none =>
    obtain ⟨names, hsent, -⟩ := (hacc.idle hx).alternates hatt
    exact ⟨names, hsent⟩
  | some op =>
    obtain ⟨past, m, hhist, hpast, hprog⟩ := hacc.busy hx
    rw [hhist] at hatt ⊢
    obtain ⟨hattpast, hattlog⟩ := attends_append hatt
    obtain ⟨names, hsent, hm⟩ := hpast.alternates hattpast
    rw [sent_append, hsent]
    rcases hprog.logged.sent_partial hprog.leaves hattlog s.sh with hnil | ⟨ho, name, hone⟩
    · exact ⟨names, by rw [hnil, List.append_nil]⟩
    · rw [hone]
      exact ⟨_, (alternating_next hm ho name).1⟩

/-- In every interleaving, each operation sends exactly its notices, and what an observer hears of
`x` alternates between joins and leaves. -/
theorem presence_exact (h0 : s₀.Started c) (hrun : Run (Presence.step c) (· = s₀) tr s) :
    (∀ x o b, s.Finished x o b → Exact c x o (Presence.current x tr) b) ∧
      ∀ x y, Observes c x y tr s →
        ∃ names, sent y (Presence.history x tr) = alternating c names :=
  ⟨fun _ _ _ hfin => exact_of_finished h0 hrun hfin,
    fun _ _ hobs => alternating_of_observes h0 hrun hobs⟩

end exact

/-- User 2 joins "General", where users 1 and 3 are, while user 3 leaves it. -/
def crossing : List Presence.Label :=
  [.start 2 .insert, .start 3 .erase, .go 2, .go 3, .go 2, .go 3, .go 3, .go 2, .go 3, .go 2, .go 2,
    .go 3, .go 2, .go 2]

def crossingStart : Presence where
  sh :=
    { channels := [], users := fun _ => [1, 3], before := fun _ _ => true, mine := fun _ => [general]
      game := .new 1 (fun _ => 0) fun _ => 0 }

theorem started_crossingStart : crossingStart.Started general := ⟨fun _ => rfl, by decide⟩

theorem crossing_isSome :
    (execute (Presence.step general) crossing [] crossingStart).isSome := rfl

/-- The steps of `crossing`, and the state they lead to. -/
def crossed : List (Presence × Presence.Label) × Presence :=
  (execute (Presence.step general) crossing [] crossingStart).get crossing_isSome

theorem run_crossed : Run (Presence.step general) (· = crossingStart) crossed.1 crossed.2 :=
  Run.ofIsSome (· = crossingStart) rfl crossing_isSome

theorem presence_exact_crossing :
    Exact general 2 .insert (Presence.current 2 crossed.1) true ∧
      (∃ names, sent 1 (Presence.history 2 crossed.1) = alternating general names) ∧
      sent 1 (Presence.history 2 crossed.1) = [general.notice "join" ""] :=
  have h := presence_exact started_crossingStart run_crossed
  ⟨h.1 2 .insert true rfl,
    h.2 2 1 ⟨[crossingStart], (crossed.1.map Prod.fst ++ [crossed.2]).tail, rfl, by simp,
      by decide, by decide⟩,
    rfl⟩

end BeastLounge.Lounge
