import Mathlib.Data.List.Sort
import Mathlib.Logic.Function.Basic
import BeastLounge.Theory.Program
import BeastLounge.Rpc.Call
import BeastLounge.Blackjack.Game

/-!
# The state of the lounge and the operations on it

Sessions run on strands of their own, and so does the table. What they share is the list of
channels, the two records of membership (`channel::users_` and `user::channels_`), the names of the
users, the table's game and the queue of its strand. `Cmd` lists the atomic operations they perform
on it: an access under one lock, a read or a write of a name, a post to a strand, or an operation
of the game, which only the table's strand touches. `act` performs one.

A message is kept as the JSON value it is made of: `mail u` lists those handed to the session of
`u`, in order.
-/

namespace BeastLounge.Lounge

open Theory Json Rpc

inductive Kind
  | system
  | room
  | table
deriving DecidableEq

/-- A `channel` object of one of the three classes the server has. -/
structure Channel where
  cid : Nat
  name : String
  kind : Kind
deriving DecidableEq

def systemChannel : Channel := ⟨1, "System", .system⟩

def general : Channel := ⟨2, "General", .room⟩

def table : Channel := ⟨3, "Blackjack", .table⟩

/-- The channels of the server. -/
def Known (c : Channel) : Prop := c = systemChannel ∨ c = general ∨ c = table

/-- What can be posted to the table's strand. `doErase` holds a bare reference to the user, the
others a `shared_ptr`. -/
inductive Handler
  | doInsert (u : UserId)
  | doErase (u : UserId)
  | doPlay (rpc : RpcCall)
  | doWatch (rpc : RpcCall)
  | doBet (rpc : RpcCall)
  | doStart (rpc : RpcCall)
  | doHit (rpc : RpcCall)
  | doStand (rpc : RpcCall)

/-- What is posted to the server's strand. -/
inductive ServerRequest
  | shutdown (seconds : Nat)
  | stop
deriving DecidableEq

inductive Exn
  | rpc (e : RpcError)
  /-- the `system_error` of `number_cast` -/
  | system
  | deal (f : Blackjack.Fault)
deriving DecidableEq

inductive Cmd
  /-- `channel_list::at` -/
  | at (cid : Nat)
  | isJoined (c : Channel) (u : UserId)
  /-- `users_.insert(&u).second` -/
  | usersInsert (c : Channel) (u : UserId)
  /-- `users_.erase(&u) != 0` -/
  | usersErase (c : Channel) (u : UserId)
  /-- `channel::send`: the message is made, and the users are copied. -/
  | broadcast (c : Channel) (jv : Value)
  /-- `if(auto sp = wp.lock()) sp->send(jv)` -/
  | trySend (u : UserId) (jv : Value)
  /-- `user::send` -/
  | send (u : UserId) (jv : Value)
  /-- `channels_.insert(&c).second` -/
  | channelsInsert (u : UserId) (c : Channel)
  /-- `channels_.erase(&c) == 1` -/
  | channelsErase (u : UserId) (c : Channel)
  /-- `BOOST_VERIFY` -/
  | verify (b : Bool)
  | readName (u : UserId)
  | writeName (u : UserId) (name : String)
  /-- `table::post` -/
  | post (h : Handler)
  /-- `server::shutdown` and `server::stop` -/
  | server (r : ServerRequest)
  | join (u : UserId)
  | leave (u : UserId)
  | surrender (u : UserId)
  | bet (u : UserId)
  | dealOne
  /-- What `game::to_json` reads of the game. -/
  | seats

/-- The answers of the operations. -/
@[reducible] def Res : Cmd → Type
  | .at _ => Option Channel
  | .isJoined _ _ => Bool
  | .usersInsert _ _ => Bool
  | .usersErase _ _ => Bool
  | .broadcast _ _ => List UserId
  | .channelsInsert _ _ => Bool
  | .channelsErase _ _ => Bool
  | .readName _ => String
  | .join _ => Except Blackjack.Error Nat
  | .leave _ => Except Blackjack.Error Nat
  | .surrender _ => Int
  | .bet _ => Except Blackjack.Error Unit
  | .dealOne => Except Blackjack.Fault Unit
  | .seats => Blackjack.GameState × List Blackjack.Seat
  | _ => Unit

/-- A function of the server. -/
abbrev Act (α : Type) := Prog Res Exn α

structure Shared where
  /-- `channel_list_impl::v_` -/
  channels : List (Option Channel)
  /-- `channel::users_`, in the order of the users' addresses -/
  users : Channel → List UserId := fun _ => []
  /-- The order of the channels' addresses. -/
  before : Channel → Channel → Bool
  /-- `user::channels_`, in that order -/
  mine : UserId → List Channel := fun _ => []
  name : UserId → String := fun _ => ""
  mail : UserId → List Value := fun _ => []
  /-- The users whose destructor has begun: a `weak_ptr` to them no longer locks. -/
  expired : UserId → Bool := fun _ => false
  /-- A `BOOST_VERIFY` has failed. -/
  verifyFailed : Bool := false
  requests : List ServerRequest := []
  game : Blackjack.Game
  /-- What the table's strand has still to run, the next first. -/
  queue : List Handler := []

namespace Shared

def usersInsert (w : Shared) (c : Channel) (u : UserId) : Bool × Shared :=
  if u ∈ w.users c then (false, w)
  else (true, { w with users := Function.update w.users c ((w.users c).orderedInsert (· ≤ ·) u) })

def usersErase (w : Shared) (c : Channel) (u : UserId) : Bool × Shared :=
  if u ∈ w.users c then
    (true, { w with users := Function.update w.users c ((w.users c).filter (· ≠ u)) })
  else (false, w)

def channelsInsert (w : Shared) (u : UserId) (c : Channel) : Bool × Shared :=
  if c ∈ w.mine u then (false, w)
  else
    (true, { w with
      mine := Function.update w.mine u ((w.mine u).orderedInsert (fun a b => w.before a b) c) })

def channelsErase (w : Shared) (u : UserId) (c : Channel) : Bool × Shared :=
  if c ∈ w.mine u then
    (true, { w with mine := Function.update w.mine u ((w.mine u).erase c) })
  else (false, w)

def send (w : Shared) (u : UserId) (jv : Value) : Shared :=
  { w with mail := Function.update w.mail u (w.mail u ++ [jv]) }

end Shared

/-- Perform one operation. -/
def act : (c : Cmd) → Shared → Res c × Shared
  | .at cid, w => (w.channels.getD cid none, w)
  | .isJoined c u, w => (decide (u ∈ w.users c), w)
  | .usersInsert c u, w => w.usersInsert c u
  | .usersErase c u, w => w.usersErase c u
  | .broadcast c _, w => (w.users c, w)
  | .trySend u jv, w => ((), if w.expired u then w else w.send u jv)
  | .send u jv, w => ((), w.send u jv)
  | .channelsInsert u c, w => w.channelsInsert u c
  | .channelsErase u c, w => w.channelsErase u c
  | .verify b, w => ((), { w with verifyFailed := w.verifyFailed || !b })
  | .readName u, w => (w.name u, w)
  | .writeName u name, w => ((), { w with name := Function.update w.name u name })
  | .post h, w => ((), { w with queue := w.queue ++ [h] })
  | .server r, w => ((), { w with requests := w.requests ++ [r] })
  | .join u, w => ((w.game.join u).2, { w with game := (w.game.join u).1 })
  | .leave u, w => ((w.game.leave u).2, { w with game := (w.game.leave u).1 })
  | .surrender u, w => ((w.game.surrender u).2, { w with game := (w.game.surrender u).1 })
  | .bet u, w => ((w.game.bet u).2, { w with game := (w.game.bet u).1 })
  | .dealOne, w => (w.game.dealOne.2, { w with game := w.game.dealOne.1 })
  | .seats, w => ((w.game.s, w.game.seats), w)

/-! ### Performed operations -/

/-- The operation sends something. -/
def Cmd.isMessage : Cmd → Bool
  | .broadcast _ _ => true
  | .trySend _ _ => true
  | .send _ _ => true
  | _ => false

/-- The operation changes `users_`. -/
def Cmd.changesUsers : Cmd → Bool
  | .usersInsert _ _ => true
  | .usersErase _ _ => true
  | _ => false

/-- The operation sets a name. -/
def Cmd.writesName : Cmd → Bool
  | .writeName _ _ => true
  | _ => false

/-- An operation that was performed, with the state it was performed in. -/
abbrev Performed := Shared × Prog.Event Res

def Shared.perform (w : Shared) (c : Cmd) : Performed := (w, ⟨c, (act c w).1⟩)

/-- The answers are those of the states. -/
def Actual (ops : List Performed) : Prop := ∀ x ∈ ops, x.2.2 = (act x.2.1 x.1).1

theorem actual_snoc {ops : List Performed} (h : Actual ops) (w : Shared) (c : Cmd) :
    Actual (ops ++ [w.perform c]) := by
  intro x hx
  rcases List.mem_append.mp hx with hx | hx
  · exact h x hx
  · obtain rfl := List.mem_singleton.mp hx
    rfl

/-! ### What the operations leave alone -/

section frame
variable (w : Shared) (c : Channel) (u : UserId)

theorem act_usersInsert :
    (act (.usersInsert c u) w).2 = { w with users := (act (.usersInsert c u) w).2.users } := by
  simp only [act, Shared.usersInsert]
  split <;> rfl

theorem act_usersErase :
    (act (.usersErase c u) w).2 = { w with users := (act (.usersErase c u) w).2.users } := by
  simp only [act, Shared.usersErase]
  split <;> rfl

theorem act_channelsInsert :
    (act (.channelsInsert u c) w).2 = { w with mine := (act (.channelsInsert u c) w).2.mine } := by
  simp only [act, Shared.channelsInsert]
  split <;> rfl

theorem act_channelsErase :
    (act (.channelsErase u c) w).2 = { w with mine := (act (.channelsErase u c) w).2.mine } := by
  simp only [act, Shared.channelsErase]
  split <;> rfl

theorem act_trySend (jv : Value) :
    (act (.trySend u jv) w).2 = { w with mail := (act (.trySend u jv) w).2.mail } := by
  simp only [act]
  split <;> rfl

variable {w} {cmd : Cmd}

theorem act_fixed :
    (act cmd w).2.channels = w.channels ∧ (act cmd w).2.expired = w.expired := by
  cases cmd with
  | usersInsert c u => rw [act_usersInsert]; exact ⟨rfl, rfl⟩
  | usersErase c u => rw [act_usersErase]; exact ⟨rfl, rfl⟩
  | channelsInsert u c => rw [act_channelsInsert]; exact ⟨rfl, rfl⟩
  | channelsErase u c => rw [act_channelsErase]; exact ⟨rfl, rfl⟩
  | trySend u jv => rw [act_trySend]; exact ⟨rfl, rfl⟩
  | _ => exact ⟨rfl, rfl⟩

theorem act_users_eq (h : cmd.changesUsers = false) : (act cmd w).2.users = w.users := by
  cases cmd with
  | usersInsert c u => cases h
  | usersErase c u => cases h
  | channelsInsert u c => rw [act_channelsInsert]
  | channelsErase u c => rw [act_channelsErase]
  | trySend u jv => rw [act_trySend]
  | _ => rfl

theorem act_name_eq (h : cmd.writesName = false) : (act cmd w).2.name = w.name := by
  cases cmd with
  | writeName u name => cases h
  | usersInsert c u => rw [act_usersInsert]
  | usersErase c u => rw [act_usersErase]
  | channelsInsert u c => rw [act_channelsInsert]
  | channelsErase u c => rw [act_channelsErase]
  | trySend u jv => rw [act_trySend]
  | _ => rfl

/-- Only an insertion makes a member. -/
theorem mem_users_act {ch : Channel} {y : UserId} (h : y ∈ (act cmd w).2.users ch) :
    y ∈ w.users ch ∨ cmd = .usersInsert ch y := by
  cases cmd with
  | usersInsert c' u =>
    have h' : y ∈ (w.usersInsert c' u).2.users ch := h
    unfold Shared.usersInsert at h'
    split at h'
    · exact .inl h'
    · by_cases hc : ch = c'
      · subst hc
        simp only [Function.update_self, List.mem_orderedInsert] at h'
        rcases h' with rfl | h'
        · exact .inr rfl
        · exact .inl h'
      · simp only [Function.update_of_ne hc] at h'
        exact .inl h'
  | usersErase c' u =>
    have h' : y ∈ (w.usersErase c' u).2.users ch := h
    unfold Shared.usersErase at h'
    split at h'
    · by_cases hc : ch = c'
      · subst hc
        simp only [Function.update_self] at h'
        exact .inl (List.mem_of_mem_filter h')
      · simp only [Function.update_of_ne hc] at h'
        exact .inl h'
    · exact .inl h'
  | _ => exact .inl (by rwa [act_users_eq rfl] at h)

theorem act_queue_eq (h : ∀ h', cmd ≠ .post h') : (act cmd w).2.queue = w.queue := by
  cases cmd with
  | post h' => exact absurd rfl (h h')
  | usersInsert c u => rw [act_usersInsert]
  | usersErase c u => rw [act_usersErase]
  | channelsInsert u c => rw [act_channelsInsert]
  | channelsErase u c => rw [act_channelsErase]
  | trySend u jv => rw [act_trySend]
  | _ => rfl

end frame

abbrev op (c : Cmd) : Act (Res c) := Prog.op c

/-- `throw`, or go on with the value. -/
def checked {α : Type} : Except RpcError α → Act α
  | .ok a => pure a
  | .error e => .throw (.rpc e)

@[simp] theorem checked_ok_bind {α β : Type} (a : α) (f : α → Act β) :
    checked (.ok a) >>= f = f a := rfl

/-- `rpc_call::fail` -/
def fail {α : Type} (e : RpcError) : Act α := .throw (.rpc e)

/-- `catch(rpc_error const& e)` -/
def catchRpc (p : Act Unit) (handler : RpcError → Act Unit) : Act Unit :=
  p.tryCatch fun
    | .rpc e => handler e
    | e => .throw e

end BeastLounge.Lounge
