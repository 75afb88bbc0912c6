import BeastLounge.Theory.Rest
import BeastLounge.Lounge.Disconnect
import BeastLounge.Lounge.Orphans
import BeastLounge.Lounge.Serial
import BeastLounge.Lounge.Views
import BeastLounge.Lounge.Answers

/-!
# The lounge at rest

New connections, frames, the loss of a connection and the timer of a shutdown come from outside; all
other steps are the server's own. Left alone it comes to rest: the threads it has are finite programs,
what they post to the strand posts nothing, and a destructor's loop is as long as the list of its
user's channels. At rest every request has been answered, whoever has disconnected is in no channel,
and the last update passed to each member of the table is of the game as it is.
-/

namespace BeastLounge.Lounge

open Theory Json Rpc

open Prog (Spec wp Keeps)

open Relation (CutExpand)

/-- The steps the server takes by itself. -/
def Label.own : Label → Prop
  | .connect _ => False
  | .frame _ _ => False
  | .close _ => False
  | .announce _ => False
  | _ => True

def Label.connects : Label → Option UserId
  | .connect u => some u
  | _ => none

/-- Nothing is left to do for the user. -/
def Phase.still : Phase → Prop
  | .absent => True
  | .idle => True
  | .dead => True
  | _ => False

theorem still_of_idle {p : Phase} (h : (match p with | .idle => true | _ => false) = true) :
    p.still := by
  cases p with
  | idle => trivial
  | _ => cases h

/-! ### Tasks -/

/-- What is left to do: the rest of a program, a handler in the queue, the users who are still to hear
of a shutdown, or the iterations that a destructor has still to make. `alive` stands for the program
itself, which an exception ends. -/
inductive Task
  | alive
  | running (p : Act Unit)
  | queued (h : Handler)
  | telling (left : Nat)
  | busy (p : Act Unit)
  | erasing (left : Nat) (p : Act Bool)
  | ending (left : Nat)
  | closed

namespace Task

/-- What an operation can turn a task into, or start beside it. -/
inductive Less : Task → Task → Prop
  | running {c : Cmd} (k : Res c → Act Unit) (r : Res c) : Less (.running (k r)) (.running (.call c k))
  | serve (h : Handler) : Less (.running (serve h)) (.queued h)
  | told (n : Nat) : Less (.telling n) (.telling (n + 1))
  | busy {c : Cmd} (k : Res c → Act Unit) (r : Res c) : Less (.busy (k r)) (.busy (.call c k))
  | posted (h : Handler) (p : Act Unit) : Less (.queued h) (.busy p)
  | erasing (n : Nat) {c : Cmd} (k : Res c → Act Bool) (r : Res c) :
      Less (.erasing n (k r)) (.erasing n (.call c k))
  | erasePosted (h : Handler) (n : Nat) (p : Act Bool) : Less (.queued h) (.erasing n p)
  | erased (n : Nat) (p : Act Bool) : Less (.ending n) (.erasing (n + 1) p)
  | erase (n : Nat) (p : Act Bool) : Less (.erasing n p) (.ending n)
  | destroy (n : Nat) : Less (.ending n) .closed

theorem acc_running (p : Act Unit) : Acc Less (.running p) := by
  induction p with
  | pure a => exact ⟨_, fun y hy => by cases hy⟩
  | throw e => exact ⟨_, fun y hy => by cases hy⟩
  | call c k ih =>
    constructor
    intro y hy
    cases hy with
    | running k r => exact ih r

theorem acc_queued (h : Handler) : Acc Less (.queued h) := by
  constructor
  intro y hy
  cases hy with
  | serve h => exact acc_running (serve h)

theorem acc_telling (n : Nat) : Acc Less (.telling n) := by
  induction n with
  | zero => exact ⟨_, fun y hy => by cases hy⟩
  | succ n ih =>
    constructor
    intro y hy
    cases hy with
    | told n => exact ih

theorem acc_busy (p : Act Unit) : Acc Less (.busy p) := by
  induction p with
  | call c k ih =>
    constructor
    intro y hy
    cases hy with
    | busy k r => exact ih r
    | posted h p => exact acc_queued h
  | _ =>
    constructor
    intro y hy
    cases hy with
    | posted h p => exact acc_queued h

theorem acc_erasing (n : Nat) (hn : ∀ m, n = m + 1 → Acc Less (.ending m)) (p : Act Bool) :
    Acc Less (.erasing n p) := by
  induction p with
  | call c k ih =>
    constructor
    intro y hy
    cases hy with
    | erasing n k r => exact ih r
    | erasePosted h n p => exact acc_queued h
    | erased m p => exact hn m rfl
  | _ =>
    constructor
    intro y hy
    cases hy with
    | erasePosted h n p => exact acc_queued h
    | erased m p => exact hn m rfl

theorem acc_ending (n : Nat) : Acc Less (.ending n) := by
  induction n with
  | zero =>
    constructor
    intro y hy
    cases hy with
    | erase n p => exact acc_erasing 0 (fun m hm => by cases hm) p
  | succ n ih =>
    constructor
    intro y hy
    cases hy with
    | erase n p => exact acc_erasing (n + 1) (fun m hm => Nat.succ.inj hm ▸ ih) p

theorem less_wf : WellFounded Less := by
  constructor
  intro a
  cases a with
  | alive => exact ⟨_, fun y hy => by cases hy⟩
  | running p => exact acc_running p
  | queued h => exact acc_queued h
  | telling n => exact acc_telling n
  | busy p => exact acc_busy p
  | ending n => exact acc_ending n
  | erasing n p => exact acc_erasing n (fun m _ => acc_ending m) p
  | closed =>
    constructor
    intro y hy
    cases hy with
    | destroy n => exact acc_ending n

end Task

def Phase.tasks : Phase → Multiset Task
  | .busy p => {.busy p}
  | .closed => {.closed}
  | .ending n k => {.ending (n - k)}
  | .erasing n k p => {.erasing (n - k) p}
  | _ => 0

def queueTasks (q : List Handler) : Multiset Task := (q : Multiset Handler).map .queued

def strandTasks : Option (Handler × Act Unit) → Multiset Task
  | some (_, p) => {.running p}
  | none => 0

def serverTasks : Option (Remaining × List UserId) → Multiset Task
  | some (_, us) => {.telling us.length}
  | none => 0

def programTasks (terminated : Bool) : Multiset Task := if terminated then 0 else {.alive}

/-- What is left to do for the users in `A`, on the strands and at all. -/
def World.tasks (A : Finset UserId) (w : World) : Multiset Task :=
  A.sum (fun u => (w.phase u).tasks) +
    (queueTasks w.sh.queue + strandTasks w.running + serverTasks w.announcing +
      programTasks w.terminated)

theorem queueTasks_append (q q' : List Handler) :
    queueTasks (q ++ q') = queueTasks q + queueTasks q' := by
  unfold queueTasks
  rw [← Multiset.coe_add, Multiset.map_add]

theorem mem_queueTasks {q : List Handler} {a : Task} (h : a ∈ queueTasks q) : ∃ h, a = .queued h := by
  obtain ⟨h', -, rfl⟩ := Multiset.mem_map.mp h
  exact ⟨h', rfl⟩

/-! ### The strand posts nothing -/

def postlessSpec : Spec Res Unit where
  may _ _ _ := True
  allow _ c := c.posts = []
  next _ _ _ := ()

theorem serve_postless (h : Handler) :
    Keeps postlessSpec (fun _ => True) (fun _ => True) (serve h) := by
  have hops : ∀ c, TableCmd (fun _ => True) h c → postlessSpec.Safe (fun _ => True) c := by
    intro c hc v _
    cases hc with
    | _ => exact ⟨rfl, fun _ _ => trivial⟩
  refine keeps_serve hops (wp_gameToJson_any ?_ fun _ => ?_) fun _ _ _ => trivial
  · exact fun v _ => ⟨rfl, fun _ _ => trivial⟩
  · exact fun v _ => ⟨rfl, fun _ _ => trivial⟩

/-! ### The server settles -/

/-- The users in `A` are all there are, and the running handler posts nothing. -/
structure Bounded (A : Finset UserId) (w : World) : Prop where
  consistent : Consistent w
  absent : ∀ u, u ∉ A → w.phase u = .absent
  strand : ∀ h p, w.running = some (h, p) → wp postlessSpec (fun _ _ => True) p ()

section step
variable {A : Finset UserId} {w t : World} {l : Label} {u : UserId}

theorem Bounded.mem (hw : Bounded A w) (h : w.phase u ≠ .absent) : u ∈ A := by
  by_contra hu
  exact h (hw.absent u hu)

/-- A step in which the thread of `u` moves on. -/
theorem Bounded.ofSession (hw : Bounded A w) {sh : Shared} {p : Phase} (hu : u ∈ A)
    (hc : Consistent ({ w with sh := sh }.setPhase u p)) : Bounded A ({ w with sh := sh }.setPhase u p) := by
  refine ⟨hc, fun v hv => ?_, hw.strand⟩
  have hne : v ≠ u := fun h => hv (h ▸ hu)
  rw [setPhase_ne _ _ hne]
  exact hw.absent v hv

theorem bounded_boot (h : Booted w) : Bounded A w := by
  have hc := consistent_boot h
  obtain ⟨rand, chips, before, rfl⟩ := h
  exact ⟨hc, fun _ _ => rfl, fun h p hp => by cases hp⟩

/-- Only a connection adds a user. -/
theorem bounded_step (hw : Bounded A w) (hs : step w l = some t)
    (hl : ∀ u, l = .connect u → u ∈ A) : Bounded A t := by
  have hc := consistent_step hw.consistent hs
  cases step_moves hs with
  | @connect u h => exact hw.ofSession (hl u rfl) hc
  | @frame u jv h => exact hw.ofSession (hw.mem (by simp [h])) hc
  | @sessionOp u c k h => exact hw.ofSession (hw.mem (by simp [h])) hc
  | @sessionDone u a h => exact hw.ofSession (hw.mem (by simp [h])) hc
  | sessionThrow h => exact ⟨hc, hw.absent, hw.strand⟩
  | @eraseLast u n k c h hlast => exact hw.ofSession (hw.mem (by simp [h])) hc
  | @ended u n k h hmine => exact hw.ofSession (hw.mem (by simp [h])) hc
  | @eraseOp u n k c k' h => exact hw.ofSession (hw.mem (by simp [h])) hc
  | @eraseDone u n k a h => exact hw.ofSession (hw.mem (by simp [h])) hc
  | eraseThrow h => exact ⟨hc, hw.absent, hw.strand⟩
  | @close u h => exact hw.ofSession (hw.mem (by simp [h])) hc
  | @destroy u h hheld => exact hw.ofSession (hw.mem (by simp [h])) hc
  | @serve h q hrun hq =>
    refine ⟨hc, hw.absent, fun h' p hp => ?_⟩
    cases hp
    exact (serve_postless h).wp trivial
  | @tableOp h c k hrun =>
    obtain ⟨-, hk⟩ := hw.strand h _ hrun
    refine ⟨hc, hw.absent, fun h' p hp => ?_⟩
    cases hp
    exact hk _ trivial
  | tableDone hrun => exact ⟨hc, hw.absent, fun h p hp => by cases hp⟩
  | tableThrow hrun => exact ⟨hc, hw.absent, hw.strand⟩
  | announce h => exact ⟨hc, hw.absent, hw.strand⟩
  | notify h => exact ⟨hc, hw.absent, hw.strand⟩
  | announced h => exact ⟨hc, hw.absent, hw.strand⟩

theorem bounded_run {tr : List (World × Label)} (hrun : Run step Booted tr w)
    (hA : ∀ x ∈ tr, ∀ u, x.2 = .connect u → u ∈ A) : Bounded A w := by
  induction hrun with
  | nil h => exact bounded_boot h
  | snoc hrun hs ih =>
    have hbefore := ih fun x hx => hA x (List.mem_append_left _ hx)
    exact bounded_step hbefore hs (hA _ (List.mem_append_right _ (List.mem_singleton_self _)))

theorem bounded (h : Reachable step Booted w) : ∃ A, Bounded A w := by
  obtain ⟨tr, hrun⟩ := h
  refine ⟨(tr.filterMap fun x => x.2.connects).toFinset, bounded_run hrun fun x hx u hu => ?_⟩
  rw [List.mem_toFinset, List.mem_filterMap]
  exact ⟨x, hx, by rw [hu]; rfl⟩

/-- A thread of `u` goes on to smaller tasks, those that it posts included. -/
theorem cutExpand_thread {sh : Shared} {p p' : Phase} {a : Task} (more : List Handler) (hu : u ∈ A)
    (hq : sh.queue = w.sh.queue ++ more) (hp : w.phase u = p') (ha : p'.tasks = {a})
    (hless : ∀ b ∈ p.tasks + queueTasks more, Task.Less b a) :
    CutExpand Task.Less (({ w with sh := sh }.setPhase u p).tasks A) (w.tasks A) := by
  have hcut : CutExpand Task.Less (p.tasks + queueTasks more) (w.phase u).tasks :=
    hp ▸ ha ▸ Relation.cutExpand_singleton hless
  have hsum := cutExpand_sum (f := fun v => (w.phase v).tasks)
    (g := fun v => (({ w with sh := sh }.setPhase u p).phase v).tasks) (queueTasks more) hu
    (fun v hv => by rw [setPhase_ne _ _ hv]) (by rw [setPhase_self]; exact hcut)
  have hshift := (Relation.cutExpand_add_right
    (queueTasks w.sh.queue + strandTasks w.running + serverTasks w.announcing +
      programTasks w.terminated)).mpr hsum
  unfold World.tasks
  rw [setPhase_sh, setPhase_running, show ({ w with sh := sh } : World).sh.queue = _ from hq,
    queueTasks_append]
  convert hshift using 1
  simp only [add_assoc, add_left_comm (queueTasks more)]
  rfl

theorem less_of_post {p : Phase} {c : Cmd} {a b : Task} (hp : ∀ b ∈ p.tasks, Task.Less b a)
    (hpost : ∀ h, Task.Less (.queued h) a) (hb : b ∈ p.tasks + queueTasks c.posts) :
    Task.Less b a := by
  rcases Multiset.mem_add.mp hb with hb | hb
  · exact hp b hb
  · obtain ⟨h, rfl⟩ := mem_queueTasks hb
    exact hpost h

theorem live_of_step (hs : step w l = some t) : w.terminated = false := by
  unfold step at hs
  split at hs
  · contradiction
  · rename_i hlive
    exact Bool.eq_false_iff.mpr hlive

/-- Each step of its own leaves the server with less to do. -/
theorem cutExpand_step (hw : Bounded A w) (hs : step w l = some t) (hl : l.own) :
    CutExpand Task.Less (t.tasks A) (w.tasks A) := by
  have hquiet : ∀ {u : UserId} {p p' : Phase} {a : Task}, u ∈ A → w.phase u = p' →
      p'.tasks = {a} → (∀ b ∈ p.tasks, Task.Less b a) →
      CutExpand Task.Less ((w.setPhase u p).tasks A) (w.tasks A) := fun hu hp' ha hp =>
    cutExpand_thread [] hu (List.append_nil _).symm hp' ha fun b hb => by
      rcases Multiset.mem_add.mp hb with hb | hb
      · exact hp b hb
      · cases hb
  have hthrow : CutExpand Task.Less (({ w with terminated := true } : World).tasks A) (w.tasks A) := by
    have hlive := live_of_step hs
    unfold World.tasks
    rw [hlive]
    apply (Relation.cutExpand_add_left _).mpr
    apply (Relation.cutExpand_add_left _).mpr
    exact Relation.cutExpand_singleton fun b hb => by cases hb
  cases step_moves hs with
  | connect h => exact hl.elim
  | frame h => exact hl.elim
  | close h => exact hl.elim
  | announce h => exact hl.elim
  | @sessionOp u c k h =>
    refine cutExpand_thread _ (hw.mem (by simp [h])) (queue_act c w.sh) h rfl fun b hb => ?_
    refine less_of_post (fun b hb => ?_) (fun h => .posted h _) hb
    obtain rfl := Multiset.mem_singleton.mp hb
    exact .busy k _
  | @sessionDone u a h =>
    exact hquiet (hw.mem (by simp [h])) h rfl fun b hb => by cases hb
  | sessionThrow h => exact hthrow
  | @eraseLast u n k c h hlast =>
    refine hquiet (hw.mem (by simp [h])) h rfl fun b hb => ?_
    obtain rfl := Multiset.mem_singleton.mp hb
    exact .erase _ _
  | @ended u n k h hmine =>
    exact hquiet (hw.mem (by simp [h])) h rfl fun b hb => by cases hb
  | @eraseOp u n k c k' h =>
    refine cutExpand_thread _ (hw.mem (by simp [h])) (queue_act c w.sh) h rfl fun b hb => ?_
    refine less_of_post (fun b hb => ?_) (fun h => .erasePosted h _ _) hb
    obtain rfl := Multiset.mem_singleton.mp hb
    exact .erasing _ k' _
  | @eraseDone u n k a h =>
    refine hquiet (hw.mem (by simp [h])) h rfl fun b hb => ?_
    obtain rfl := Multiset.mem_singleton.mp hb
    -- the iterations that are done are fewer than there were channels
    have hcount := hw.consistent.session u
    rw [h] at hcount
    obtain ⟨-, -, hcount⟩ := hcount
    rw [show n - k = n - (k + 1) + 1 by omega]
    exact .erased _ _
  | eraseThrow h => exact hthrow
  | @destroy u h hheld =>
    refine cutExpand_thread [] (hw.mem (by simp [h])) (List.append_nil _).symm h rfl
      fun b hb => ?_
    obtain rfl := Multiset.mem_singleton.mp hb
    exact .destroy _
  | @serve h q hrun hq =>
    unfold World.tasks
    rw [hrun, hq]
    apply (Relation.cutExpand_add_left _).mpr
    apply (Relation.cutExpand_add_right _).mpr
    apply (Relation.cutExpand_add_right _).mpr
    rw [show strandTasks none = 0 from rfl, add_zero,
      show queueTasks (h :: q) = queueTasks q + {.queued h} by
        unfold queueTasks; rw [← Multiset.cons_coe, Multiset.map_cons, ← Multiset.singleton_add, add_comm]]
    exact Relation.cutExpand_add_single _ (.serve h)
  | @tableOp h c k hrun =>
    obtain ⟨hposts, -⟩ := hw.strand h _ hrun
    unfold World.tasks
    rw [show (act c w.sh).2.queue = w.sh.queue by
      rw [queue_act, show c.posts = [] from hposts, List.append_nil], hrun]
    apply (Relation.cutExpand_add_left _).mpr
    apply (Relation.cutExpand_add_right _).mpr
    apply (Relation.cutExpand_add_right _).mpr
    exact Relation.cutExpand_add_single _ (.running k _)
  | @tableDone h a hrun =>
    unfold World.tasks
    rw [hrun]
    apply (Relation.cutExpand_add_left _).mpr
    apply (Relation.cutExpand_add_right _).mpr
    apply (Relation.cutExpand_add_right _).mpr
    apply (Relation.cutExpand_add_left _).mpr
    exact Relation.cutExpand_zero
  | tableThrow hrun => exact hthrow
  | @notify r u us h =>
    unfold World.tasks
    rw [act_trySend, h]
    apply (Relation.cutExpand_add_left _).mpr
    apply (Relation.cutExpand_add_right _).mpr
    apply (Relation.cutExpand_add_left _).mpr
    exact Relation.cutExpand_singleton_singleton (.told us.length)
  | @announced r h =>
    unfold World.tasks
    rw [h]
    apply (Relation.cutExpand_add_left _).mpr
    apply (Relation.cutExpand_add_right _).mpr
    apply (Relation.cutExpand_add_left _).mpr
    exact Relation.cutExpand_zero

theorem comesToRest (h : Reachable step Booted w) : ComesToRest step Label.own w := by
  obtain ⟨A, hA⟩ := bounded h
  refine rest_of_tasks (Bounded A) (World.tasks A) Task.less_wf (fun s l t hs hl hst => ?_) hA
  exact ⟨bounded_step hs hst fun u hu => by subst hu; exact hl.elim, cutExpand_step hs hst hl⟩

/-! ### At rest -/

/-- The server is at rest when no session is in the middle of anything, nobody who has disconnected
is still to be destroyed, the table's strand has served all handlers, and nobody is still to hear of a
shutdown. -/
theorem atRest_iff : AtRest step Label.own w ↔ w.terminated = true ∨
    w.sh.queue = [] ∧ w.running = none ∧ w.announcing = none ∧ ∀ u, (w.phase u).still := by
  constructor
  · intro hrest
    by_cases hdone : w.terminated = true
    · exact .inl hdone
    have hstep : ∀ l, l.own → step w l = none := hrest
    simp only [step, if_neg hdone] at hstep
    have htable : tableStep w = none := hstep .table trivial
    have hidle : w.running = none ∧ w.sh.queue = [] := by
      unfold tableStep at htable
      split at htable
      · rename_i hrun
        split at htable
        · rename_i hq
          exact ⟨hrun, hq⟩
        · cases htable
      all_goals cases htable
    have hserver : serverStep w = none := hstep .server trivial
    have hann : w.announcing = none := by
      unfold serverStep at hserver
      split at hserver
      · cases hserver
      · cases hserver
      · assumption
    refine .inr ⟨hidle.2, hidle.1, hann, fun u => ?_⟩
    have hsession : sessionStep w u = none := hstep (.session u) trivial
    have hdestroy := hstep (.destroy u) trivial
    cases hp : w.phase u with
    | closed =>
      have hheld : w.held u = false := by simp [World.held, hidle.1, hidle.2]
      simp [hp, hheld] at hdestroy
    | busy p =>
      unfold sessionStep at hsession
      cases p with
      | _ => simp [hp] at hsession
    | erasing n k p =>
      unfold sessionStep at hsession
      cases p with
      | _ => simp [hp] at hsession
    | ending n k =>
      unfold sessionStep at hsession
      simp only [hp] at hsession
      split at hsession
      · cases hsession
      · cases hsession
    | _ => trivial
  · rintro (hdone | ⟨hq, hrun, hann, hstill⟩) l hl
    · exact if_pos hdone
    · unfold step
      split
      · rfl
      cases l with
      | connect u => exact hl.elim
      | frame u jv => exact hl.elim
      | close u => exact hl.elim
      | session u =>
        show sessionStep w u = none
        have hu := hstill u
        unfold sessionStep
        cases hp : w.phase u with
        | absent => rfl
        | idle => rfl
        | closed => rfl
        | dead => rfl
        | _ => rw [hp] at hu; exact hu.elim
      | destroy u =>
        have hu := hstill u
        cases hp : w.phase u with
        | closed => rw [hp] at hu; exact hu.elim
        | _ => simp only [hp]
      | announce r => exact hl.elim
      | table =>
        show tableStep w = none
        simp [tableStep, hrun, hq]
      | server =>
        show serverStep w = none
        simp [serverStep, hann]

theorem gone_step (hw : ∀ u, w.sh.expired u = true → (w.phase u).gone) (hs : step w l = some t) :
    ∀ u, t.sh.expired u = true → (t.phase u).gone := by
  have hop : ∀ {u : UserId} {sh : Shared} {p : Phase}, sh.expired = w.sh.expired →
      ((w.phase u).gone → p.gone) →
      ∀ v, ({ w with sh := sh }.setPhase u p).sh.expired v = true →
        (({ w with sh := sh }.setPhase u p).phase v).gone := by
    intro u sh p hsh hp v hv
    have hgone := hw v (by rw [← hsh]; exact hv)
    by_cases hvu : v = u
    · subst hvu
      rw [setPhase_self]
      exact hp hgone
    · rwa [setPhase_ne _ _ hvu]
  cases step_moves hs with
  | @connect u h => exact hop rfl (by rw [h]; exact id)
  | @frame u jv h => exact hop rfl (by rw [h]; exact id)
  | @sessionOp u c k h => exact hop act_fixed.2 (by rw [h]; exact id)
  | @sessionDone u a h => exact hop rfl (by rw [h]; exact id)
  | @eraseLast u n k c h hlast => exact hop rfl fun _ => trivial
  | @ended u n k h hmine => exact hop rfl fun _ => trivial
  | @eraseOp u n k c k' h => exact hop act_fixed.2 fun _ => trivial
  | @eraseDone u n k a h => exact hop rfl fun _ => trivial
  | @close u h => exact hop rfl (by rw [h]; exact id)
  | @destroy u h hheld =>
    intro v hv
    by_cases hvu : v = u
    · subst hvu
      rw [setPhase_self]
      trivial
    · rw [setPhase_ne _ _ hvu]
      exact hw v ((Function.update_of_ne hvu ..).symm.trans hv)
  | @tableOp h c k hrun => exact fun v hv => hw v (by rwa [← act_fixed.2])
  | notify h =>
    rw [act_trySend]
    exact hw
  | _ => exact hw

theorem gone (h : Reachable step Booted w) : ∀ u, w.sh.expired u = true → (w.phase u).gone := by
  refine h.invariant (fun s hs u hu => ?_) fun _ _ _ => gone_step
  obtain ⟨rand, chips, before, rfl⟩ := hs
  cases hu

end step

section runs
variable {tr : List (World × Label)} {w : World}

/-- From every state the server comes to rest if nothing arrives: it cannot go on for ever, and it
can go on until it has ended, or the table's strand has served all handlers, a shutdown that was being
announced has been, and everyone is either connected and being waited for or gone. -/
theorem lounge_comes_to_rest (hrun : Run step Booted tr w) :
    (¬∃ σ ls, σ 0 = w ∧ Endless step σ ls ∧ ∀ i, (ls i).own) ∧
      ∃ tr' t, Run step Booted (tr ++ tr') t ∧ AllSteps (fun _ l => l.own) tr' ∧
        (t.terminated = true ∨ t.sh.queue = [] ∧ t.running = none ∧ t.announcing = none ∧
          ∀ u, (t.phase u).still) := by
  have hrest := comesToRest hrun.reachable.2
  obtain ⟨tr', t, hrun', hown, ht⟩ := hrest.exists_rest hrun
  exact ⟨hrest.not_endless, tr', t, hrun', hown, atRest_iff.mp ht⟩

/-- User 1 has asked to play, and the strand has begun to. -/
def annAsks : List Label := annPlays.dropLast

theorem annAsks_runs : (execute step annAsks [] bootZero).isSome := by decide +kernel

theorem lounge_comes_to_rest_ann : ∃ tr w, Run step Booted tr w ∧ w.running.isSome ∧
    ∃ tr' t, Run step Booted (tr ++ tr') t ∧ AllSteps (fun _ l => l.own) tr' ∧
      (t.terminated = true ∨ t.sh.queue = [] ∧ t.running = none ∧ t.announcing = none ∧
        ∀ u, (t.phase u).still) := by
  have hrun := run_after annAsks annAsks_runs
  exact ⟨_, _, hrun, by decide +kernel, (lounge_comes_to_rest hrun).2⟩

theorem idle_of_member (h : Reachable step Booted w) (hstill : ∀ u, (w.phase u).still) {u : UserId}
    {c : Channel} (hu : u ∈ w.sh.users c) : w.phase u = .idle := by
  have hsession := (consistent h).session u
  cases hp : w.phase u with
  | idle => rfl
  | absent =>
    rw [hp] at hsession
    obtain ⟨hsym, hnone⟩ := hsession
    have hc : c ∈ w.sh.mine u := (hsym.memb_iff c).mp hu
    rw [show w.sh.mine u = [] from hnone] at hc
    cases hc
  | dead => exact absurd hu ((consistent h).dead hp c)
  | _ =>
    have hno := hstill u
    rw [hp] at hno
    exact hno.elim

/-- At rest each `do_insert` posted has run. -/
theorem sees_at_rest (hrun : Run step Booted tr w) (hq : w.sh.queue = []) (hidle : w.running = none)
    (hstill : ∀ u, (w.phase u).still) {y : UserId} (hy : y ∈ w.sh.users table) :
    (showing tr).Sees y w.sh.snapshot := by
  have hphase := idle_of_member hrun.reachable.2 hstill hy
  obtain ⟨d, owed, hw⟩ := tracks hrun
  obtain rfl := hw.idle hidle
  have howed : owed y = false := by
    have hposts := hw.session y
    rwa [hphase] at hposts
  have hcount := hw.account y
  rw [hq, howed] at hcount
  have halive : w.sh.expired y = false := by
    by_contra hexp
    have hgone := gone hrun.reachable.2 y (by simpa using hexp)
    rw [hphase] at hgone
    exact hgone
  exact (hw.view y hy halive hcount.symm).resolve_left fun hno => hno

/-- At rest, unless the program has ended, every request of every user has been answered once, the
two records of membership agree, only users who are connected are members, every change of the game
has been broadcast, and every member of the table has last been passed the game as it is. If players
were members when their requests were processed, the seated users are members. -/
theorem settled_at_rest (hrun : Run step Booted tr w) (hrest : AtRest step Label.own w)
    (hlive : w.terminated = false) :
    (∀ u, (answered u tr).Perm (asked u tr)) ∧
      (∀ u c, (u ∈ w.sh.users c ↔ c ∈ w.sh.mine u) ∧ (u ∈ w.sh.users c → w.phase u = .idle)) ∧
      unannounced tr = false ∧ (∀ y ∈ w.sh.users table, (showing tr).Sees y w.sh.snapshot) ∧
      (AllSteps (fun s l => playByMember s l) tr →
        ∀ u, w.sh.game.Seated u → u ∈ w.sh.users table) := by
  obtain ⟨hq, hidle, -, hstill⟩ := (atRest_iff.mp hrest).resolve_left (by simp [hlive])
  have hatRest : ∀ u, (w.phase u).atRest := by
    intro u
    have hu := hstill u
    cases hp : w.phase u with
    | busy p => rw [hp] at hu; exact hu.elim
    | erasing n k p => rw [hp] at hu; exact hu.elim
    | _ => rfl
  refine ⟨fun u => ?_, fun u c => ⟨?_, idle_of_member hrun.reachable.2 hstill⟩, ?_, ?_, ?_⟩
  · obtain ⟨frame, given, owed, done, hw⟩ := balanced_run hrun u
    have hperm := hw.perm (fun p hp => by have hu := hstill u; rw [hp] at hu; exact hu)
      (fun h p hp => by rw [hidle] at hp; cases hp)
    rwa [awaiting, hq, List.flatMap_nil, List.append_nil] at hperm
  · exact ((consistent hrun.reachable.2).symmetric (hatRest u)).memb_iff c
  · obtain ⟨d, owed, hw⟩ := tracks hrun
    obtain rfl := hw.idle hidle
    exact Bool.eq_false_iff.mpr hw.late
  · exact fun y hy => sees_at_rest hrun hq hidle hstill hy
  · intro hplay u hseated
    have hheld := (seatsHeld_of_playHeld hrun (hplay.mono fun s l => playHeld_of_member)).2
    rcases hheld u hseated with hmem | hpending | hleaving
    · exact hmem
    · rcases hpending with hpending | ⟨p, hp⟩
      · rw [hq] at hpending
        cases hpending
      · rw [hidle] at hp
        cases hp
    · exact absurd hleaving (not_leaving (hatRest u))

end runs

theorem annPlays_connect {u : UserId} (h : .connect u ∈ annPlays) : u ∈ ({1} : Finset UserId) := by
  simp [annPlays] at h
  exact Finset.mem_singleton.mpr h

/-- Left alone after its requests, user 1 is at the table, with all of them answered. -/
theorem settled_at_rest_ann : ∃ tr w, Run step Booted tr w ∧ (asked 1 tr).length = 3 ∧
    (answered 1 tr).Perm (asked 1 tr) ∧ (showing tr).Sees 1 w.sh.snapshot := by
  have hrun := run_after annPlays annPlays_runs
  have hq : (after annPlays annPlays_runs).sh.queue = [] :=
    List.isEmpty_iff.mp (by decide +kernel)
  have hidle : (after annPlays annPlays_runs).running = none :=
    Option.isNone_iff_eq_none.mp (by decide +kernel)
  have hann : (after annPlays annPlays_runs).announcing = none :=
    Option.isNone_iff_eq_none.mp (by decide +kernel)
  have hstill : ∀ u, ((after annPlays annPlays_runs).phase u).still := by
    intro u
    by_cases hu : u = 1
    · subst hu
      exact still_of_idle (by decide +kernel)
    · have hw := bounded_run hrun fun x hx v hv => annPlays_connect (hv ▸ label_mem hx)
      rw [hw.absent u (by simpa using hu)]
      trivial
  have hlive : (after annPlays annPlays_runs).terminated = false := by decide +kernel
  have hmember : 1 ∈ (after annPlays annPlays_runs).sh.users table := by decide +kernel
  obtain ⟨hanswers, -, -, hsees, -⟩ :=
    settled_at_rest hrun (atRest_iff.mpr (.inr ⟨hq, hidle, hann, hstill⟩)) hlive
  exact ⟨_, _, hrun, by decide +kernel, hanswers 1, hsees 1 hmember⟩

end BeastLounge.Lounge
