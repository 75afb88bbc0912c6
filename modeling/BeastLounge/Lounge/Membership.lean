import BeastLounge.Lounge.Rules
import BeastLounge.Lounge.World

/-!
# Membership

Membership is recorded in the channel (`users_`) and in the user (`channels_`). `insert` and `erase`
change the first record, then the second, and only the session of the user itself, or its
destructor, runs them for that user. So what a user's operation finds in the two records is what
the operation itself has left there, whatever the other users do in between.

The argument: `View` is what the two records say about one user. `memberSpec` lets each access
answer as the view says and demands of a program that it touches no other user's membership and
that its `BOOST_VERIFY`s hold. Insertion and erasure lead from a symmetric view to a symmetric view,
so every frame does; an iteration of the destructor takes one channel away. The operations of the
others leave the view alone.
-/

namespace BeastLounge.Lounge

open Theory Json Rpc

open Prog (Spec wp Keeps)

/-- The channels that contain a user, and those the user knows of. -/
structure View where
  memb : Channel → Prop
  mine : List Channel
  /-- The order of `mine`. -/
  before : Channel → Channel → Bool

namespace View

def usersInsert (v : View) (c : Channel) : View := { v with memb := fun c' => c' = c ∨ v.memb c' }

def usersErase (v : View) (c : Channel) : View := { v with memb := fun c' => c' ≠ c ∧ v.memb c' }

def channelsInsert (v : View) (c : Channel) : View :=
  if c ∈ v.mine then v
  else { v with mine := v.mine.orderedInsert (fun a b => v.before a b) c }

def channelsErase (v : View) (c : Channel) : View := { v with mine := v.mine.erase c }

/-- The two records agree. -/
structure Symmetric (v : View) : Prop where
  nodup : v.mine.Nodup
  memb_iff : ∀ c, v.memb c ↔ c ∈ v.mine

end View

def view (w : Shared) (u : UserId) : View := ⟨fun c => u ∈ w.users c, w.mine u, w.before⟩

/-- What a thread of `u` may do to the records of membership, and what it sees of them. -/
def memberSpec (u : UserId) : Spec Res View where
  may
    | v, .usersInsert c _, r => r = true ↔ ¬v.memb c
    | v, .usersErase c _, r => r = true ↔ v.memb c
    | v, .channelsInsert _ c, r => r = true ↔ c ∉ v.mine
    | v, .channelsErase _ c, r => r = true ↔ c ∈ v.mine
    | _, _, _ => True
  allow
    | _, .usersInsert _ u' => u' = u
    | _, .usersErase _ u' => u' = u
    | _, .channelsInsert u' _ => u' = u
    | _, .channelsErase u' _ => u' = u
    | _, .verify b => b = true
    | _, _ => True
  next
    | v, .usersInsert c _, _ => v.usersInsert c
    | v, .usersErase c _, _ => v.usersErase c
    | v, .channelsInsert _ c, _ => v.channelsInsert c
    | v, .channelsErase _ c, _ => v.channelsErase c
    | v, _, _ => v

/-! ### The operations follow the view -/

section act
variable (w : Shared) (u : UserId)

/-- What an allowed operation answers, and what it does to the user's view. -/
theorem act_memberSpec {c : Cmd} (h : (memberSpec u).allow (view w u) c) :
    (memberSpec u).may (view w u) c (act c w).1 ∧
      view (act c w).2 u = (memberSpec u).next (view w u) c (act c w).1 := by
  cases c with
  | usersInsert c u' =>
    obtain rfl : u' = u := h
    by_cases hm : u' ∈ w.users c
    · have hact : act (.usersInsert c u') w = (false, w) := if_pos hm
      rw [hact]
      refine ⟨by simpa [memberSpec, view] using hm, ?_⟩
      show view w u' = (view w u').usersInsert c
      simp only [view, View.usersInsert, View.mk.injEq, and_true]
      funext c'
      exact propext ⟨.inr, fun h => h.elim (fun hc => hc ▸ hm) id⟩
    · have hact : act (.usersInsert c u') w = (true, { w with
          users := Function.update w.users c ((w.users c).orderedInsert (· ≤ ·) u') }) := if_neg hm
      rw [hact]
      refine ⟨by simpa [memberSpec, view] using hm, ?_⟩
      show view { w with users := _ } u' = (view w u').usersInsert c
      simp only [view, View.usersInsert, View.mk.injEq, and_true]
      funext c'
      by_cases hc : c' = c
      · subst hc
        simp
      · simp [hc]
  | usersErase c u' =>
    obtain rfl : u' = u := h
    by_cases hm : u' ∈ w.users c
    · have hact : act (.usersErase c u') w = (true, { w with
          users := Function.update w.users c ((w.users c).filter (· ≠ u')) }) := if_pos hm
      rw [hact]
      refine ⟨by simpa [memberSpec, view] using hm, ?_⟩
      show view { w with users := _ } u' = (view w u').usersErase c
      simp only [view, View.usersErase, View.mk.injEq, and_true]
      funext c'
      by_cases hc : c' = c
      · subst hc
        simp
      · simp [hc]
    · have hact : act (.usersErase c u') w = (false, w) := if_neg hm
      rw [hact]
      refine ⟨by simpa [memberSpec, view] using hm, ?_⟩
      show view w u' = (view w u').usersErase c
      simp only [view, View.usersErase, View.mk.injEq, and_true]
      funext c'
      exact propext ⟨fun h => ⟨fun hc => hm (hc ▸ h), h⟩, fun h => h.2⟩
  | channelsInsert u' c =>
    obtain rfl : u' = u := h
    by_cases hm : c ∈ w.mine u'
    · have hact : act (.channelsInsert u' c) w = (false, w) := if_pos hm
      rw [hact]
      refine ⟨by simpa [memberSpec, view] using hm, ?_⟩
      exact (if_pos hm : (view w u').channelsInsert c = _).symm
    · have hact : act (.channelsInsert u' c) w = (true, { w with
          mine := Function.update w.mine u'
            ((w.mine u').orderedInsert (fun a b => w.before a b) c) }) := if_neg hm
      rw [hact]
      refine ⟨by simpa [memberSpec, view] using hm, ?_⟩
      show view { w with mine := _ } u' = (view w u').channelsInsert c
      rw [View.channelsInsert, if_neg (show c ∉ (view w u').mine from hm)]
      exact congrArg (View.mk _ · _) (Function.update_self ..)
  | channelsErase u' c =>
    obtain rfl : u' = u := h
    by_cases hm : c ∈ w.mine u'
    · have hact : act (.channelsErase u' c) w = (true, { w with
          mine := Function.update w.mine u' ((w.mine u').erase c) }) := if_pos hm
      rw [hact]
      refine ⟨by simpa [memberSpec, view] using hm, ?_⟩
      show view { w with mine := _ } u' = (view w u').channelsErase c
      simp [view, View.channelsErase]
    · have hact : act (.channelsErase u' c) w = (false, w) := if_neg hm
      rw [hact]
      refine ⟨by simpa [memberSpec, view] using hm, ?_⟩
      show view w u' = (view w u').channelsErase c
      simp only [view, View.channelsErase, List.erase_of_not_mem hm]
  | trySend u' jv =>
    refine ⟨trivial, ?_⟩
    show view (if w.expired u' then w else w.send u' jv) u = view w u
    split <;> rfl
  | _ => exact ⟨trivial, rfl⟩

/-- An operation that a thread of `u` may perform leaves the view of every other user alone. -/
theorem act_view_ne {c : Cmd} {v : View} {u' : UserId} (h : (memberSpec u).allow v c)
    (hne : u' ≠ u) : view (act c w).2 u' = view w u' := by
  cases c with
  | usersInsert c v =>
    obtain rfl : v = u := h
    show view (w.usersInsert c v).2 u' = view w u'
    unfold Shared.usersInsert
    split
    · rfl
    · simp only [view, View.mk.injEq, and_true]
      funext c'
      by_cases hc : c' = c
      · subst hc
        simp [hne]
      · simp [hc]
  | usersErase c v =>
    obtain rfl : v = u := h
    show view (w.usersErase c v).2 u' = view w u'
    unfold Shared.usersErase
    split
    · simp only [view, View.mk.injEq, and_true]
      funext c'
      by_cases hc : c' = c
      · subst hc
        simp [hne]
      · simp [hc]
    · rfl
  | channelsInsert v c =>
    obtain rfl : v = u := h
    show view (w.channelsInsert v c).2 u' = view w u'
    unfold Shared.channelsInsert
    split
    · rfl
    · simp [view, hne]
  | channelsErase v c =>
    obtain rfl : v = u := h
    show view (w.channelsErase v c).2 u' = view w u'
    unfold Shared.channelsErase
    split
    · simp [view, hne]
    · rfl
  | trySend v jv =>
    show view (if w.expired v then w else w.send v jv) u' = view w u'
    split <;> rfl
  | _ => rfl

theorem act_verifyFailed {c : Cmd} {v : View} (h : (memberSpec u).allow v c) :
    (act c w).2.verifyFailed = w.verifyFailed := by
  cases c with
  | verify b =>
    obtain rfl : b = true := h
    simp [act]
  | usersInsert c v => rw [act_usersInsert]
  | usersErase c v => rw [act_usersErase]
  | channelsInsert v c => rw [act_channelsInsert]
  | channelsErase v c => rw [act_channelsErase]
  | trySend v jv => rw [act_trySend]
  | _ => rfl

end act

/-! ### Insertion and erasure keep the records symmetric -/

section symmetric
variable {u : UserId} {v : View} {c : Channel} {T : Exn → Prop}

theorem quiet_memberSpec : Quiet (memberSpec u) where
  readName _ _ := ⟨trivial, fun _ => rfl⟩
  broadcast _ _ _ _ := ⟨trivial, fun _ => rfl⟩
  trySend _ _ _ _ _ := ⟨trivial, fun _ => rfl⟩

theorem View.Symmetric.insert (hv : v.Symmetric) (hc : ¬v.memb c) :
    ((v.usersInsert c).channelsInsert c).Symmetric := by
  have hmine : c ∉ v.mine := fun h => hc ((hv.memb_iff c).mpr h)
  rw [View.channelsInsert, if_neg (show c ∉ (v.usersInsert c).mine from hmine)]
  refine ⟨?_, fun c' => ?_⟩
  · show (List.orderedInsert _ c v.mine).Nodup
    rw [(List.perm_orderedInsert _ c v.mine).nodup_iff]
    exact List.nodup_cons.mpr ⟨hmine, hv.nodup⟩
  · show c' = c ∨ v.memb c' ↔ c' ∈ List.orderedInsert _ c v.mine
    rw [List.mem_orderedInsert, hv.memb_iff]

theorem View.Symmetric.erase (hv : v.Symmetric) :
    ((v.usersErase c).channelsErase c).Symmetric := by
  refine ⟨hv.nodup.erase c, fun c' => ?_⟩
  show c' ≠ c ∧ v.memb c' ↔ c' ∈ v.mine.erase c
  rw [hv.nodup.mem_erase_iff, hv.memb_iff]

theorem wp_onInsert {v : View} {post : Except Exn Unit → View → Prop} (h : post (.ok ()) v) :
    wp (memberSpec u) post (c.onInsert u) v := by
  unfold Channel.onInsert
  split
  · exact h
  · exact h
  · exact ⟨trivial, fun _ _ => h⟩

theorem wp_onErase {v : View} {post : Except Exn Unit → View → Prop} (h : post (.ok ()) v) :
    wp (memberSpec u) post (c.onErase u) v := by
  unfold Channel.onErase
  split
  · exact h
  · exact h
  · exact ⟨trivial, fun _ _ => h⟩

theorem keeps_insert (c : Channel) : Keeps (memberSpec u) View.Symmetric T (c.insert u) := by
  intro v hv
  refine wp_insert quiet_memberSpec rfl (fun hno => ?_) (fun hyes => ?_)
  · -- nothing was inserted: the user was in the channel already
    have hm : v.memb c := by
      by_contra hc
      exact Bool.false_ne_true (hno.mpr hc)
    refine Prog.keeps_ok ⟨hv.nodup, fun c' => ?_⟩
    show c' = c ∨ v.memb c' ↔ c' ∈ v.mine
    rw [hv.memb_iff]
    exact ⟨fun h => h.elim (fun hc => hc ▸ (hv.memb_iff c).mp hm) id, .inr⟩
  · have hc : ¬v.memb c := hyes.mp rfl
    apply Prog.wp_bind.mpr
    refine Prog.wp_bind.mpr (Prog.wp_op.mpr ⟨rfl, fun inserted hi => ?_⟩)
    refine Prog.wp_op.mpr ⟨hi.mpr fun h => hc ((hv.memb_iff c).mpr h), fun _ _ => ?_⟩
    apply Prog.wp_bind.mpr
    apply wp_onInsert
    exact Prog.keeps_ok (hv.insert hc)

/-- Erasing a user from one of its channels succeeds and takes this channel away. -/
theorem wp_erase_memb (hv : v.Symmetric) (hc : c ∈ v.mine) {post : Except Exn Bool → View → Prop}
    (h : post (.ok true) ((v.usersErase c).channelsErase c)) :
    wp (memberSpec u) post (c.erase u) v := by
  refine wp_erase quiet_memberSpec rfl (fun hno => ?_) (fun _ => ?_)
  · exact absurd (hno.mpr ((hv.memb_iff c).mpr hc)) Bool.false_ne_true
  · apply Prog.wp_bind.mpr
    refine Prog.wp_bind.mpr (Prog.wp_op.mpr ⟨rfl, fun erased he => ?_⟩)
    refine Prog.wp_op.mpr ⟨he.mpr hc, fun _ _ => ?_⟩
    apply Prog.wp_bind.mpr
    apply wp_onErase
    exact h

theorem keeps_erase (c : Channel) : Keeps (memberSpec u) View.Symmetric T (c.erase u) := by
  intro v hv
  by_cases hc : c ∈ v.mine
  · exact wp_erase_memb hv hc (Prog.keeps_ok hv.erase)
  · have hm : ¬v.memb c := fun h => hc ((hv.memb_iff c).mp h)
    refine wp_erase quiet_memberSpec rfl (fun _ => ?_) (fun hyes => absurd (hyes.mp rfl) hm)
    refine Prog.keeps_ok ⟨hv.nodup, fun c' => ?_⟩
    show c' ≠ c ∧ v.memb c' ↔ c' ∈ v.mine
    rw [← hv.memb_iff c']
    exact ⟨fun h => h.2, fun h => ⟨fun hc' => hm (hc' ▸ h), h⟩⟩

/-- Every frame keeps the two records of its user symmetric, whatever its outcome. -/
theorem readFrame_symmetric (jv : Value) :
    Keeps (memberSpec u) View.Symmetric (fun _ => True) (readFrame u jv) := by
  refine keeps_readFrame (K := fun _ => True) jv (fun c hc v hv => ?_) (fun _ _ _ _ _ => trivial)
    (fun c _ => keeps_insert c) (fun c _ => keeps_erase c) fun _ _ _ _ => trivial
  cases hc with
  | _ => exact ⟨trivial, fun _ _ => hv⟩

end symmetric

/-! ### The table -/

/-- The table's strand touches no record of membership. -/
def tableSpec : Spec Res Unit where
  may _ _ _ := True
  allow _ c := ∀ u v, (memberSpec u).allow v c
  next _ _ _ := ()

theorem serve_tableSpec (h : Handler) : Keeps tableSpec (fun _ => True) (fun _ => True) (serve h) := by
  have hops : ∀ c, TableCmd (fun _ => True) h c → tableSpec.Safe (fun _ => True) c := by
    intro c hc v _
    cases hc with
    | _ => exact ⟨fun _ _ => trivial, fun _ _ => trivial⟩
  exact keeps_serve hops (wp_gameToJson_any
    (fun _ _ => ⟨fun _ _ => trivial, fun _ _ => trivial⟩)
    (fun _ _ _ => ⟨fun _ _ => trivial, fun _ _ => trivial⟩)) fun _ _ _ => trivial

end BeastLounge.Lounge
