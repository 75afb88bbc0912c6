import BeastLounge.Theory.Runs
import BeastLounge.Lounge.Table
import BeastLounge.Server.Shutdown

/-!
# Runs of the lounge

Each user has a session, which is at one point of its life (`Phase`): it waits for a frame, is in
the middle of processing one, has ended, or its destructor is running. The table's strand is idle or
in the middle of a handler, and so is the server's, which announces a shutdown from time to time. A
step lets one of them perform its next operation, so the operations of different users, of the table
and of the server interleave in any order.

The destructor of a user may begin once its session has ended and no handler, queued or running,
holds a `shared_ptr` to it. Its loop erases the user from the last of its channels until none is
left; the phases count the channels there were at the beginning and the iterations that are done. An
exception that leaves a handler or a session ends the program.
-/

namespace BeastLounge.Lounge

open Theory Json Rpc

inductive Phase
  /-- The user has not connected. -/
  | absent
  /-- `async_read` is outstanding. -/
  | idle
  | busy (p : Act Unit)
  /-- The read loop has ended. -/
  | closed
  /-- `~user` is at the head of its loop: of `n` channels at the start, `k` iterations are done. -/
  | ending (n k : Nat)
  /-- `~user` is in the body of its loop. -/
  | erasing (n k : Nat) (p : Act Bool)
  /-- `~user` has completed. -/
  | dead

/-- No operation of the user is in progress. -/
def Phase.atRest : Phase → Bool
  | .busy _ => false
  | .erasing _ _ _ => false
  | _ => true

/-- The session is about to perform an operation. -/
def Phase.calls : Phase → Bool
  | .busy (.call _ _) => true
  | _ => false

def Phase.isDead : Phase → Bool
  | .dead => true
  | _ => false

/-- The time left before a shutdown, in seconds: `on_timer` announces no other. -/
abbrev Remaining := { remain : Int // 0 < remain ∧ remain < 2 ^ 63 }

/-- What `server_impl::on_timer` sends. -/
def Remaining.notice (r : Remaining) : Value := Server.shutdownNotice r.val

structure World where
  sh : Shared
  phase : UserId → Phase := fun _ => .absent
  /-- The handler that the table's strand is executing, and what is left of it. -/
  running : Option (Handler × Act Unit) := none
  /-- The announcement that the server's strand is making, and who is still to be told. -/
  announcing : Option (Remaining × List UserId) := none
  terminated : Bool := false

/-- The handler owns a `shared_ptr` to the user. -/
def Handler.holds (u : UserId) : Handler → Bool
  | .doInsert u' => u' = u
  | .doErase _ => false
  | .doPlay rpc => rpc.u = u
  | .doWatch rpc => rpc.u = u
  | .doBet rpc => rpc.u = u
  | .doStart rpc => rpc.u = u
  | .doHit rpc => rpc.u = u
  | .doStand rpc => rpc.u = u

namespace World

def setPhase (w : World) (u : UserId) (p : Phase) : World :=
  { w with phase := Function.update w.phase u p }

def expire (w : World) (u : UserId) : World :=
  { w with sh := { w.sh with expired := Function.update w.sh.expired u true } }

/-- Some handler of the table keeps the user alive. -/
def held (w : World) (u : UserId) : Bool :=
  w.sh.queue.any (Handler.holds u) ||
    match w.running with
    | some (h, _) => h.holds u
    | none => false

end World

inductive Label
  | connect (u : UserId)
  /-- A frame arrives that parses as `jv`. -/
  | frame (u : UserId) (jv : Value)
  /-- The user's session, or its destructor, performs its next operation. -/
  | session (u : UserId)
  /-- Reading fails, and with it the session ends. -/
  | close (u : UserId)
  /-- The last `shared_ptr` is released: `~user` begins. -/
  | destroy (u : UserId)
  /-- The table's strand performs its next operation. -/
  | table
  /-- The timer of a shutdown has expired: `on_timer` begins to announce the time left. -/
  | announce (r : Remaining)
  /-- The server's strand performs its next operation. -/
  | server

def sessionStep (w : World) (u : UserId) : Option World :=
  match w.phase u with
  | .busy (.call c k) =>
    some ({ w with sh := (act c w.sh).2 }.setPhase u (.busy (k (act c w.sh).1)))
  | .busy (.pure _) => some (w.setPhase u .idle)
  | .busy (.throw _) => some { w with terminated := true }
  | .ending n k =>
    match (w.sh.mine u).getLast? with
    | none => some (w.setPhase u .dead)
    | some c => some (w.setPhase u (.erasing n k (c.erase u)))
  | .erasing n k (.call c k') =>
    some ({ w with sh := (act c w.sh).2 }.setPhase u (.erasing n k (k' (act c w.sh).1)))
  | .erasing n k (.pure _) => some (w.setPhase u (.ending n (k + 1)))
  | .erasing _ _ (.throw _) => some { w with terminated := true }
  | _ => none

def tableStep (w : World) : Option World :=
  match w.running with
  | none =>
    match w.sh.queue with
    | [] => none
    | h :: q => some { w with sh := { w.sh with queue := q }, running := some (h, serve h) }
  | some (h, .call c k) =>
    some { w with sh := (act c w.sh).2, running := some (h, k (act c w.sh).1) }
  | some (_, .pure _) => some { w with running := none }
  | some (_, .throw _) => some { w with terminated := true }

/-- The loop of `channel::send`, for the users of the system channel. -/
def serverStep (w : World) : Option World :=
  match w.announcing with
  | some (r, u :: us) =>
    some { w with sh := (act (.trySend u r.notice) w.sh).2, announcing := some (r, us) }
  | some (_, []) => some { w with announcing := none }
  | none => none

def step (w : World) (l : Label) : Option World :=
  if w.terminated then none
  else
    match l with
    | .connect u =>
      match w.phase u with
      | .absent => some (w.setPhase u .idle)
      | _ => none
    | .frame u jv =>
      match w.phase u with
      | .idle => some (w.setPhase u (.busy (readFrame u jv)))
      | _ => none
    | .session u => sessionStep w u
    | .close u =>
      match w.phase u with
      | .idle => some (w.setPhase u .closed)
      | _ => none
    | .destroy u =>
      match w.phase u with
      | .closed =>
        if w.held u then none
        else some ((w.expire u).setPhase u (.ending (w.sh.mine u).length 0))
      | _ => none
    | .table => tableStep w
    | .announce r =>
      match w.announcing with
      | none => some { w with announcing := some (r, (act (.broadcast systemChannel r.notice) w.sh).1) }
      | some _ => none
    | .server => serverStep w

/-- The operation the step performs. -/
def operation (w : World) : Label → Option Cmd
  | .session u =>
    match w.phase u with
    | .busy (.call c _) => some c
    | .erasing _ _ (.call c _) => some c
    | _ => none
  | .table =>
    match w.running with
    | some (_, .call c _) => some c
    | _ => none
  | .announce r => some (.broadcast systemChannel r.notice)
  | .server =>
    match w.announcing with
    | some (r, u :: _) => some (.trySend u r.notice)
    | _ => none
  | _ => none

/-- The server once it has started: its three channels are in the list, and element 0 is unused. -/
def boot (rand : Nat → Nat) (chips : Nat → Int) (before : Channel → Channel → Bool) : World where
  sh :=
    { before
      channels := [none, some systemChannel, some general, some table]
      game := .new 1 rand chips }

theorem known_at {w : Shared} {cid : Nat} {c : Channel}
    (h : w.channels = [none, some systemChannel, some general, some table])
    (hc : w.channels.getD cid none = some c) : Known c := by
  have hmem : some c ∈ w.channels := by
    rw [List.getD_eq_getElem?_getD] at hc
    cases hget : w.channels[cid]? with
    | none =>
      rw [hget] at hc
      cases hc
    | some r =>
      rw [hget] at hc
      obtain rfl : r = some c := hc
      exact List.mem_of_getElem? hget
  rw [h] at hmem
  simpa [Known] using hmem

def Booted (w : World) : Prop := ∃ rand chips before, w = boot rand chips before

/-- The boot in which `rand()` and the uninitialized `chips` are all zero, and the channels lie in
memory as they are numbered. -/
def bootZero : World := boot (fun _ => 0) (fun _ => 0) fun a b => a.cid ≤ b.cid

theorem booted_bootZero : Booted bootZero := ⟨_, _, _, rfl⟩

/-- The trace of the steps with the given labels, taken from `bootZero`. -/
def traceOf (ls : List Label) (h : (execute step ls [] bootZero).isSome) : List (World × Label) :=
  ((execute step ls [] bootZero).get h).1

/-- The state these steps lead to. -/
def after (ls : List Label) (h : (execute step ls [] bootZero).isSome) : World :=
  ((execute step ls [] bootZero).get h).2

theorem run_after (ls : List Label) (h : (execute step ls [] bootZero).isSome) :
    Run step Booted (traceOf ls h) (after ls h) :=
  Run.ofIsSome _ booted_bootZero h

theorem label_mem {ls : List Label} {h : (execute step ls [] bootZero).isSome} {x : World × Label}
    (hx : x ∈ traceOf ls h) : x.2 ∈ ls := by
  have hlabels : (traceOf ls h).map Prod.snd = [] ++ ls := labels_execute ls (Option.some_get h).symm
  rw [List.nil_append] at hlabels
  exact hlabels ▸ List.mem_map_of_mem hx

/-! ### What a step does -/

/-- The steps of the lounge, with the condition under which each is taken. -/
inductive Moves (w : World) : Label → World → Prop
  | connect {u : UserId} (h : w.phase u = .absent) : Moves w (.connect u) (w.setPhase u .idle)
  | frame {u : UserId} {jv : Value} (h : w.phase u = .idle) :
      Moves w (.frame u jv) (w.setPhase u (.busy (readFrame u jv)))
  | sessionOp {u : UserId} {c : Cmd} {k : Res c → Act Unit} (h : w.phase u = .busy (.call c k)) :
      Moves w (.session u)
        ({ w with sh := (act c w.sh).2 }.setPhase u (.busy (k (act c w.sh).1)))
  | sessionDone {u : UserId} {a : Unit} (h : w.phase u = .busy (.pure a)) :
      Moves w (.session u) (w.setPhase u .idle)
  | sessionThrow {u : UserId} {e : Exn} (h : w.phase u = .busy (.throw e)) :
      Moves w (.session u) { w with terminated := true }
  | eraseLast {u : UserId} {n k : Nat} {c : Channel} (h : w.phase u = .ending n k)
      (hlast : (w.sh.mine u).getLast? = some c) :
      Moves w (.session u) (w.setPhase u (.erasing n k (c.erase u)))
  | ended {u : UserId} {n k : Nat} (h : w.phase u = .ending n k) (hmine : w.sh.mine u = []) :
      Moves w (.session u) (w.setPhase u .dead)
  | eraseOp {u : UserId} {n k : Nat} {c : Cmd} {k' : Res c → Act Bool}
      (h : w.phase u = .erasing n k (.call c k')) :
      Moves w (.session u)
        ({ w with sh := (act c w.sh).2 }.setPhase u (.erasing n k (k' (act c w.sh).1)))
  | eraseDone {u : UserId} {n k : Nat} {a : Bool} (h : w.phase u = .erasing n k (.pure a)) :
      Moves w (.session u) (w.setPhase u (.ending n (k + 1)))
  | eraseThrow {u : UserId} {n k : Nat} {e : Exn} (h : w.phase u = .erasing n k (.throw e)) :
      Moves w (.session u) { w with terminated := true }
  | close {u : UserId} (h : w.phase u = .idle) : Moves w (.close u) (w.setPhase u .closed)
  | destroy {u : UserId} (h : w.phase u = .closed) (hheld : w.held u = false) :
      Moves w (.destroy u) ((w.expire u).setPhase u (.ending (w.sh.mine u).length 0))
  | serve {h : Handler} {q : List Handler} (hrun : w.running = none) (hq : w.sh.queue = h :: q) :
      Moves w .table
        { w with sh := { w.sh with queue := q }, running := some (h, serve h) }
  | tableOp {h : Handler} {c : Cmd} {k : Res c → Act Unit}
      (hrun : w.running = some (h, .call c k)) :
      Moves w .table { w with sh := (act c w.sh).2, running := some (h, k (act c w.sh).1) }
  | tableDone {h : Handler} {a : Unit} (hrun : w.running = some (h, .pure a)) :
      Moves w .table { w with running := none }
  | tableThrow {h : Handler} {e : Exn} (hrun : w.running = some (h, .throw e)) :
      Moves w .table { w with terminated := true }
  | announce {r : Remaining} (h : w.announcing = none) :
      Moves w (.announce r) { w with announcing := some (r, w.sh.users systemChannel) }
  | notify {r : Remaining} {u : UserId} {us : List UserId} (h : w.announcing = some (r, u :: us)) :
      Moves w .server
        { w with sh := (act (.trySend u r.notice) w.sh).2, announcing := some (r, us) }
  | announced {r : Remaining} (h : w.announcing = some (r, [])) :
      Moves w .server { w with announcing := none }

/-- The thread of a user in this phase is at the operation `c`; the answer decides how it goes on. -/
inductive Performs : Phase → (c : Cmd) → (Res c → Phase) → Prop
  | busy {c : Cmd} {k : Res c → Act Unit} : Performs (.busy (.call c k)) c fun r => .busy (k r)
  | erasing {n k : Nat} {c : Cmd} {k' : Res c → Act Bool} :
      Performs (.erasing n k (.call c k')) c fun r => .erasing n k (k' r)

theorem moves_of_sessionStep {w t : World} {u : UserId} (h : sessionStep w u = some t) :
    Moves w (.session u) t := by
  unfold sessionStep at h
  split at h
  · rename_i c k hp
    obtain rfl := Option.some.inj h
    exact .sessionOp hp
  · rename_i a hp
    obtain rfl := Option.some.inj h
    exact .sessionDone hp
  · rename_i e hp
    obtain rfl := Option.some.inj h
    exact .sessionThrow hp
  · rename_i n k hp
    split at h
    · rename_i hlast
      obtain rfl := Option.some.inj h
      exact .ended hp (List.getLast?_eq_none_iff.mp hlast)
    · rename_i c hlast
      obtain rfl := Option.some.inj h
      exact .eraseLast hp hlast
  · rename_i n k c k' hp
    obtain rfl := Option.some.inj h
    exact .eraseOp hp
  · rename_i n k a hp
    obtain rfl := Option.some.inj h
    exact .eraseDone hp
  · rename_i n k e hp
    obtain rfl := Option.some.inj h
    exact .eraseThrow hp
  · contradiction

theorem moves_of_tableStep {w t : World} (h : tableStep w = some t) : Moves w .table t := by
  unfold tableStep at h
  split at h
  · rename_i hrun
    split at h
    · contradiction
    · rename_i h' q hq
      obtain rfl := Option.some.inj h
      exact .serve hrun hq
  · rename_i h' c k hrun
    obtain rfl := Option.some.inj h
    exact .tableOp hrun
  · rename_i h' a hrun
    obtain rfl := Option.some.inj h
    exact .tableDone hrun
  · rename_i h' e hrun
    obtain rfl := Option.some.inj h
    exact .tableThrow hrun

theorem moves_of_serverStep {w t : World} (h : serverStep w = some t) : Moves w .server t := by
  unfold serverStep at h
  split at h
  · rename_i r u us hann
    obtain rfl := Option.some.inj h
    exact .notify hann
  · rename_i r hann
    obtain rfl := Option.some.inj h
    exact .announced hann
  · contradiction

theorem step_moves {w t : World} {l : Label} (h : step w l = some t) : Moves w l t := by
  unfold step at h
  split at h
  · contradiction
  cases l with
  | connect u =>
    simp only at h
    split at h
    · rename_i hp
      obtain rfl := Option.some.inj h
      exact .connect hp
    · contradiction
  | frame u jv =>
    simp only at h
    split at h
    · rename_i hp
      obtain rfl := Option.some.inj h
      exact .frame hp
    · contradiction
  | session u => exact moves_of_sessionStep h
  | close u =>
    simp only at h
    split at h
    · rename_i hp
      obtain rfl := Option.some.inj h
      exact .close hp
    · contradiction
  | destroy u =>
    simp only at h
    split at h
    · rename_i hp
      split at h
      · contradiction
      · rename_i hheld
        obtain rfl := Option.some.inj h
        exact .destroy hp (by simpa using hheld)
    · contradiction
  | table => exact moves_of_tableStep h
  | announce r =>
    simp only at h
    split at h
    · rename_i hann
      obtain rfl := Option.some.inj h
      exact .announce hann
    · contradiction
  | server => exact moves_of_serverStep h

section frame
variable (w : World) (u v : UserId) (p : Phase)

@[simp] theorem setPhase_sh : (w.setPhase u p).sh = w.sh := rfl

@[simp] theorem setPhase_running : (w.setPhase u p).running = w.running := rfl

@[simp] theorem setPhase_self : (w.setPhase u p).phase u = p := Function.update_self ..

theorem setPhase_ne {u v : UserId} (h : v ≠ u) : (w.setPhase u p).phase v = w.phase v :=
  Function.update_of_ne h ..

end frame

end BeastLounge.Lounge
