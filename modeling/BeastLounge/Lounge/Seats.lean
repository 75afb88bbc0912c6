import BeastLounge.Blackjack.Seating
import BeastLounge.Lounge.Rules
import BeastLounge.Lounge.World

/-!
# Seats and members

The table's members are in `users_`, which sessions change; its seats are in the game, which the
table's strand changes. A user who is erased from the channel loses the seat through the `do_erase`
that `channel::erase` posts as its last act. So a seated user is a member, or has a `do_erase`
pending, or is in the middle of the erasure that will post it, provided that this is so when the seat
is taken; and `do_play` does not look.

The argument: the ghost value of `eraseSpec` says whether a thread of `u` has erased `u` from the
table and has yet to post `do_erase`; every program of a session ends with that settled. The ghost
value of `strandSpec` says whether the running `do_erase` has given up the seat. Steps other than
that of taking a seat then preserve the property.
-/

namespace BeastLounge.Lounge

open Theory Json Rpc

open Prog (Spec wp Trace Event Keeps)

/-! ### The property -/

/-- `do_erase` for `u` is queued on the table's strand, or the strand is running it. -/
def ErasePending (w : World) (u : UserId) : Prop :=
  .doErase u ∈ w.sh.queue ∨ ∃ p, w.running = some (.doErase u, p)

/-- Whatever the answers, the program posts `do_erase` for `u` before it ends. -/
def WillErase {α : Type} (u : UserId) (p : Act α) : Prop :=
  ∀ tr o, Trace p tr o → (⟨.post (.doErase u), ()⟩ : Event Res) ∈ tr

/-- The user's own operation in progress has yet to post `do_erase`. -/
def Leaving (w : World) (u : UserId) : Prop :=
  match w.phase u with
  | .busy p => WillErase u p
  | .erasing _ _ p => WillErase u p
  | _ => False

def Held (w : World) (u : UserId) : Prop :=
  u ∈ w.sh.users table ∨ ErasePending w u ∨ Leaving w u

/-- Every seated user is a member of the table or about to lose the seat. -/
def SeatsHeld (w : World) : Prop := ∀ u, w.sh.game.Seated u → Held w u

/-- The user whom the next step of the table's strand asks the game for a seat for. -/
def joining (w : World) : Label → Option UserId
  | .table =>
    match w.running with
    | some (_, .call (.join u) _) => some u
    | _ => none
  | _ => none

/-- If the step takes a seat, its user is a member or about to lose the seat. -/
def PlayHeld (w : World) (l : Label) : Prop :=
  ∀ u, joining w l = some u → (∃ i, (w.sh.game.join u).2 = .ok i) → Held w u

/-! ### Sessions -/

/-- A thread of `u` erases no other user from a channel and leaves the game alone; the ghost value
says whether it has to post `do_erase`. -/
def eraseSpec (u : UserId) : Spec Res Bool where
  may _ _ _ := True
  allow
    | _, .usersErase _ u' => u' = u
    | _, .join _ => False
    | _, .leave _ => False
    | _, .surrender _ => False
    | _, .bet _ => False
    | _, .dealOne => False
    | _, _ => True
  next
    | v, .usersErase c _, r => v || (r && decide (c = table))
    | v, .post (.doErase u'), _ => v && decide (u' ≠ u)
    | v, _, _ => v

/-- The program is done with the erasure when it ends. -/
def Settled {α : Type} (u : UserId) (p : Act α) (v : Bool) : Prop :=
  wp (eraseSpec u) (fun _ v => v = false) p v

section session
variable {u : UserId} {c : Channel} {T : Exn → Prop} {α : Type}

theorem quiet_eraseSpec : Quiet (eraseSpec u) where
  readName _ _ := ⟨trivial, fun _ => rfl⟩
  broadcast _ _ _ _ := ⟨trivial, fun _ => rfl⟩
  trySend _ _ _ _ _ := ⟨trivial, fun _ => rfl⟩

theorem insert_eraseSpec : Keeps (eraseSpec u) (· = false) T (c.insert u) := by
  rintro v rfl
  refine wp_insert quiet_eraseSpec trivial (fun _ => Prog.keeps_ok rfl) (fun _ => ?_)
  apply Prog.wp_bind.mpr
  refine Prog.wp_bind.mpr (Prog.wp_op.mpr ⟨trivial, fun inserted _ => ?_⟩)
  refine Prog.wp_op.mpr ⟨trivial, fun _ _ => ?_⟩
  apply Prog.wp_bind.mpr
  unfold Channel.onInsert
  split
  · exact Prog.keeps_ok rfl
  · exact Prog.keeps_ok rfl
  · exact ⟨trivial, fun _ _ => Prog.keeps_ok rfl⟩

/-- What `erase` owes when it has removed the user it posts at its end. -/
theorem erase_eraseSpec : Keeps (eraseSpec u) (· = false) T (c.erase u) := by
  rintro v rfl
  refine wp_erase quiet_eraseSpec rfl (fun _ => Prog.keeps_ok rfl) (fun _ => ?_)
  apply Prog.wp_bind.mpr
  refine Prog.wp_bind.mpr (Prog.wp_op.mpr ⟨trivial, fun erased _ => ?_⟩)
  refine Prog.wp_op.mpr ⟨trivial, fun _ _ => ?_⟩
  apply Prog.wp_bind.mpr
  have hother : c.kind ≠ .table → (false || (true && decide (c = table))) = false := by
    intro hk
    simp only [Bool.false_or, Bool.true_and, decide_eq_false_iff_not]
    rintro rfl
    exact hk rfl
  unfold Channel.onErase
  split
  · rename_i hk
    exact Prog.keeps_ok (hother (by rw [hk]; decide))
  · rename_i hk
    exact Prog.keeps_ok (hother (by rw [hk]; decide))
  · refine ⟨trivial, fun _ _ => Prog.keeps_ok ?_⟩
    simp [eraseSpec]

theorem settled_readFrame (jv : Value) : Settled u (readFrame u jv) false := by
  have hkeeps : Keeps (eraseSpec u) (· = false) (fun _ => True) (readFrame u jv) := by
    refine keeps_readFrame (K := fun _ => True) jv ?_ (fun _ _ _ _ _ => trivial)
      (fun _ _ => insert_eraseSpec) (fun _ _ => erase_eraseSpec) fun _ _ _ _ => trivial
    rintro c hc v rfl
    cases hc with
    | @post rpc h hu hh =>
      refine ⟨trivial, fun _ _ => ?_⟩
      unfold tableHandler at hh
      split at hh <;> cases hh <;> rfl
    | _ => exact ⟨trivial, fun _ _ => rfl⟩
  exact hkeeps.wp rfl

theorem settled_erase (c : Channel) : Settled u (c.erase u) false :=
  (erase_eraseSpec (T := fun _ => True)).wp rfl

/-- A program that still has to post `do_erase` does so whatever the answers. -/
theorem willErase_of_settled {p : Act α} (h : Settled u p true) : WillErase u p := by
  intro tr o ht
  induction ht with
  | pure a => cases h
  | throw e => cases h
  | @call c k r tr o ht ih =>
    have hnext := h.2 r trivial
    by_cases hc : c = .post (.doErase u)
    · subst hc
      exact List.mem_cons_self
    · apply List.mem_cons_of_mem
      apply ih
      have htrue : (eraseSpec u).next true c r = true := by
        cases c with
        | usersErase c u' => rfl
        | post h' =>
          cases h' with
          | doErase u' =>
            show (true && decide (u' ≠ u)) = true
            have hu : u' ≠ u := fun hu => hc (hu ▸ rfl)
            simp [hu]
          | _ => rfl
        | _ => rfl
      rw [htrue] at hnext
      exact hnext

theorem not_willErase_pure (a : α) : ¬WillErase u (Prog.pure a : Act α) := by
  intro h
  cases h [] (.ok a) (.pure a)

end session

/-! ### The strand -/

/-- The user whose seat the handler gives up. -/
def Handler.erased : Handler → Option UserId
  | .doErase u => some u
  | _ => none

/-- The handler `h` erases nobody from a channel, and only `do_play` joins the game; the ghost value
says whether `do_erase` has given up the seat, which it does before it serializes the game. -/
def strandSpec (h : Handler) : Spec Res Bool where
  may _ _ _ := True
  allow
    | _, .usersErase _ _ => False
    | _, .join u => ∃ rpc, h = .doPlay rpc ∧ rpc.u = u
    | v, .seats => h.erased ≠ none → v = true
    | v, .readName _ => h.erased ≠ none → v = true
    | _, _ => True
  next
    | v, .surrender u, _ => v || decide (h.erased = some u)
    | v, _, _ => v

/-- `do_erase` has given up the seat when it ends. -/
def StrandSettled (h : Handler) (p : Act Unit) (v : Bool) : Prop :=
  wp (strandSpec h) (fun _ v => h.erased ≠ none → v = true) p v

theorem settled_serve (h : Handler) : StrandSettled h (serve h) false := by
  have hsafe : ∀ (I : Bool → Prop) (c : Cmd), TableCmd (fun _ => True) h c →
      (∀ u, c ≠ .surrender u) → (strandSpec h).Safe I c := by
    intro I c hc hne v hv
    cases hc with
    | join hh => exact ⟨⟨_, hh, rfl⟩, fun _ _ => hv⟩
    | surrender hh => exact absurd rfl (hne _)
    | _ => exact ⟨trivial, fun _ _ => hv⟩
  have hgame : ∀ I : Bool → Prop, (∀ v, I v → h.erased ≠ none → v = true) → ∀ v, I v →
      wp (strandSpec h) (fun o w => (∃ g, o = .ok g ∧ True) ∧ I w) gameToJson v := fun I hI =>
    wp_gameToJson_any (fun v hv => ⟨hI v hv, fun _ _ => hv⟩) fun _ v hv =>
      ⟨hI v hv, fun _ _ => hv⟩
  by_cases he : h.erased = none
  · have hkeeps : Keeps (strandSpec h) (fun _ => True) (fun _ => True) (serve h) := by
      refine keeps_serve (fun c hc => hsafe _ c hc ?_) (hgame _ fun _ _ hne => absurd he hne)
        fun _ _ _ => trivial
      rintro u rfl
      cases hc with
      | surrender hh =>
        subst hh
        cases he
    exact Prog.wp_mono (fun _ _ _ hne => absurd he hne) (hkeeps false trivial)
  · cases h with
    | doErase u =>
      refine Prog.wp_bind.mpr (Prog.wp_op.mpr ⟨trivial, fun result _ => ?_⟩)
      have htrue : (false || decide ((Handler.doErase u).erased = some u)) = true := by
        simp [Handler.erased]
      show wp _ _ _ (false || decide ((Handler.doErase u).erased = some u))
      rw [htrue]
      have hupdate : Keeps (strandSpec (.doErase u)) (· = true) (fun _ => True)
          (update "surrender") :=
        keeps_update (hgame _ fun _ hv _ => hv) (fun _ _ _ hv => ⟨trivial, fun _ _ => hv⟩)
          fun _ _ _ _ hv => ⟨trivial, fun _ _ => hv⟩
      show wp _ _ (if result = 1 then update "surrender" else pure ()) true
      split
      · exact Prog.wp_mono (fun _ _ hw _ => hw) (hupdate.wp rfl)
      · exact fun _ => rfl
    | _ => exact absurd rfl he

/-! ### What the operations do to members, seats and the queue -/

section act
variable {w : Shared} {c : Cmd} {u v : UserId}

theorem act_queue {h : Handler} (hh : h ∈ w.queue) : h ∈ (act c w).2.queue := by
  by_cases hc : ∃ h', c = .post h'
  · obtain ⟨h', rfl⟩ := hc
    exact List.mem_append_left _ hh
  · rwa [act_queue_eq fun h' he => hc ⟨h', he⟩]

/-- Only `users_.erase` takes a user out of a channel, and only the one it names. -/
theorem act_users (hc : ∀ c', c ≠ .usersErase c' v) {ch : Channel} (hv : v ∈ w.users ch) :
    v ∈ (act c w).2.users ch := by
  cases c with
  | usersInsert c' v' =>
    show v ∈ (w.usersInsert c' v').2.users ch
    unfold Shared.usersInsert
    split
    · exact hv
    · show v ∈ Function.update w.users c' _ ch
      by_cases hch : ch = c'
      · subst hch
        rw [Function.update_self, List.mem_orderedInsert]
        exact .inr hv
      · rw [Function.update_of_ne hch]
        exact hv
  | usersErase c' v' =>
    show v ∈ (w.usersErase c' v').2.users ch
    have hne : v ≠ v' := fun h => hc c' (h ▸ rfl)
    unfold Shared.usersErase
    split
    · show v ∈ Function.update w.users c' _ ch
      by_cases hch : ch = c'
      · subst hch
        rw [Function.update_self, List.mem_filter]
        exact ⟨hv, by simpa using hne⟩
      · rw [Function.update_of_ne hch]
        exact hv
    · exact hv
  | _ => rwa [act_users_eq rfl]

/-- An erasure from the table that is not noticed leaves the member where it is. -/
theorem act_users_erase {b : Bool} (hallow : (eraseSpec u).allow b c) (hv : v ∈ w.users table) :
    v ∈ (act c w).2.users table ∨ v = u ∧ (eraseSpec u).next b c (act c w).1 = true := by
  by_cases hc : ∃ c', c = .usersErase c' v
  · obtain ⟨c', rfl⟩ := hc
    obtain rfl : v = u := hallow
    by_cases htable : c' = table
    · subst htable
      right
      refine ⟨rfl, ?_⟩
      have hact : act (.usersErase table v) w = (true, _) := if_pos hv
      rw [hact]
      show (b || (true && decide (table = table))) = true
      simp
    · left
      show v ∈ (w.usersErase c' v).2.users table
      unfold Shared.usersErase
      split
      · show v ∈ Function.update w.users c' _ table
        rw [Function.update_of_ne (Ne.symm htable)]
        exact hv
      · exact hv
  · exact .inl (act_users (fun c' h => hc ⟨c', h⟩) hv)

theorem act_game_session {b : Bool} (hallow : (eraseSpec u).allow b c) :
    (act c w).2.game = w.game := by
  cases c with
  | usersInsert c v => rw [act_usersInsert]
  | usersErase c v => rw [act_usersErase]
  | channelsInsert v c => rw [act_channelsInsert]
  | channelsErase v c => rw [act_channelsErase]
  | trySend v jv => rw [act_trySend]
  | join v => exact hallow.elim
  | leave v => exact hallow.elim
  | surrender v => exact hallow.elim
  | bet v => exact hallow.elim
  | dealOne => exact hallow.elim
  | _ => rfl

end act

end BeastLounge.Lounge
