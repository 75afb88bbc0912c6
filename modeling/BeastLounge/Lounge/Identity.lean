import BeastLounge.Lounge.FailedRequests

/-!
# Identities

A user is nameless until `identify` sets its name. The empty name stands for none: `do_join` and
`do_identify` compare the name with it, and `do_identify` inserts the user into the system channel
after it has set the name. It does not compare the name it is given: a user that asks to be called by
the empty name becomes a member without a name, and may identify again. Short of such requests every
member has a name, and names are permanent (`identified_of_namesGiven`).

The argument: the thread of a user is the only one that sets its name, and what it does depends on the
name alone (`nameSpec`). It inserts the user only while there is a name, and sets a name only while
there is none.
-/

namespace BeastLounge.Lounge

open Theory Json Rpc

open Prog (Spec wp Trace Follows ghost Keeps)

/-! ### The property -/

/-- The frame is accepted as a request to `identify`. -/
def IsIdentify (u : UserId) (jv : Value) : Prop :=
  (RpcCall.extract { u } jv).2 = none ∧ (RpcCall.extract { u } jv).1.method = "identify"

/-- The last frame of `u` is a request to `identify`, and this is how it ended. -/
def IdentifyEnds (u : UserId) (tr : List (World × Label)) (o : Except Exn Unit) : Prop :=
  ∃ jv ops, requestLog u tr = some (jv, ops) ∧ IsIdentify u jv ∧
    Trace (frameBody u jv) (ops.map Prod.snd) o

/-- The members of every channel have names of at most 20 bytes; once a user has identified, its name
stays, and no later request to identify succeeds. -/
structure Identified (tr : List (World × Label)) (w : World) : Prop where
  members : AllStates (fun s => ∀ c, ∀ u ∈ s.sh.users c,
    s.sh.name u ≠ "" ∧ (s.sh.name u).utf8ByteSize ≤ 20) tr w
  permanent : ∀ u tr₁ tr₂, tr = tr₁ ++ tr₂ → IdentifyEnds u tr₁ (.ok ()) →
    (∃ name, AllStates (fun s => s.sh.name u = name) tr₂ w) ∧
      ∀ tr₃ tr₄ o, tr₂ = tr₃ ++ tr₄ → IdentifyEnds u tr₃ o → ∃ e, o = .error e

/-- A request to the system channel to `identify` with the empty name. -/
structure EmptyIdentify (u : UserId) (jv : Value) : Prop where
  identify : IsIdentify u jv
  cid : ∃ v, (RpcCall.extract { u } jv).1.params.member "cid" = some v ∧
    v.toSize = some systemChannel.cid
  name : (RpcCall.extract { u } jv).1.params.member "name" = some (.string "")

/-- No nameless user asks to be called by the empty name. -/
def NamesGiven (w : World) : Label → Prop
  | .frame u jv => w.sh.name u = "" → ¬EmptyIdentify u jv
  | _ => True

/-! ### What a thread does to the name of its user -/

/-- The channels the server has, at the places of their ids. -/
def serverChannels : List (Option Channel) :=
  [none, some systemChannel, some general, some table]

/-- The ghost value is the name of `u`. -/
def nameSpec (u : UserId) : Spec Res String where
  may
    | _, .at cid, c => c = serverChannels.getD cid none
    | v, .readName u', name => u' = u → name = v
    | _, _, _ => True
  allow
    | v, .usersInsert _ u' => u' = u ∧ v ≠ ""
    | v, .writeName u' name => u' = u ∧ v = "" ∧ name ≠ "" ∧ name.utf8ByteSize ≤ 20
    | _, _ => True
  next
    | _, .writeName _ name, _ => name
    | v, _, _ => v

theorem eq_system_of_getD {cid : Nat} {c : Channel} (h : serverChannels.getD cid none = some c)
    (hkind : c.kind = .system) : cid = systemChannel.cid := by
  have hc : c = systemChannel := by
    rcases known_at (w := bootZero.sh) rfl h with rfl | rfl | rfl
    · rfl
    · cases hkind
    · cases hkind
  subst hc
  match cid with
  | 0 => cases h
  | 1 => rfl
  | 2 => exact absurd h (by decide)
  | 3 => exact absurd h (by decide)
  | _ + 4 => cases h

section programs
variable {u : UserId} {v : String} {rpc : RpcCall} {c : Channel} {T : Exn → Prop}

/-- Other operations are always allowed and leave the name. -/
theorem safe_nameSpec {cmd : Cmd} (hinsert : ∀ c u', cmd ≠ .usersInsert c u')
    (hwrite : cmd.writesName = false) : (nameSpec u).Safe (· = v) cmd := by
  rintro w rfl
  cases cmd with
  | usersInsert c u' => exact absurd rfl (hinsert c u')
  | writeName u' name => cases hwrite
  | _ => exact ⟨trivial, fun _ _ => rfl⟩

theorem safe_sessionCmd {cmd : Cmd} (h : SessionCmd u cmd) (hwrite : cmd.writesName = false) :
    (nameSpec u).Safe (· = v) cmd :=
  safe_nameSpec (by rintro c u' rfl; cases h) hwrite

theorem keeps_complete_name : Keeps (nameSpec u) (· = v) T (complete rpc) :=
  keeps_complete fun _ _ _ => safe_nameSpec nofun rfl

/-- Whoever has a name may be inserted. -/
theorem keeps_insert_name (hv : v ≠ "") : Keeps (nameSpec u) (· = v) T (c.insert u) := by
  apply keeps_insert_of_safe (N := fun _ => True) fun _ _ _ _ => trivial
  intro cmd hcmd
  cases hcmd with
  | usersInsert =>
    rintro w rfl
    exact ⟨⟨rfl, hv⟩, fun _ _ => rfl⟩
  | _ => exact safe_nameSpec nofun rfl

theorem keeps_erase_name : Keeps (nameSpec u) (· = v) T (c.erase u) := by
  apply keeps_erase_of_safe (N := fun _ => True) fun _ _ _ _ => trivial
  intro cmd hcmd hinsert
  exact safe_nameSpec hinsert (by cases hcmd <;> rfl)

/-- `do_join` turns the nameless away. -/
theorem keeps_doJoin_name (hu : rpc.u = u) (hrpc : ∀ e, T (.rpc e)) :
    Keeps (nameSpec u) (· = v) T (c.doJoin rpc) := by
  by_cases hv : v = ""
  · rintro w rfl
    refine Prog.wp_bind.mpr (Prog.wp_bind.mpr (Prog.wp_op.mpr ⟨trivial, fun name hname => ?_⟩))
    obtain rfl : name = "" := (hname hu).trans hv
    exact ⟨rfl, fun e he => by cases he; exact hrpc _⟩
  · exact keeps_doJoin (fun _ => safe_sessionCmd) hrpc hu c (keeps_insert_name hv)

/-- A method other than `identify` leaves the name. -/
theorem keeps_dispatch_name (hu : rpc.u = u) (hrpc : ∀ e, T (.rpc e)) (hm : rpc.method ≠ "identify") :
    Keeps (nameSpec u) (· = v) T (c.dispatch rpc) := by
  unfold Channel.dispatch
  split
  · exact keeps_doJoin_name hu hrpc
  · exact keeps_doLeave (fun _ => safe_sessionCmd) hrpc hu c keeps_erase_name
  · exact keeps_onDispatch (fun _ => safe_sessionCmd) hrpc hu c fun h => absurd h hm

/-- `identify` is a method of the system channel. -/
theorem dispatch_identify (hm : rpc.method = "identify") :
    c.dispatch rpc = if c.kind = .system then doIdentify c rpc else fail (.ofCode .methodNotFound) := by
  unfold Channel.dispatch onDispatch systemOnDispatch roomOnDispatch tableOnDispatch tableHandler
  rw [hm]
  cases c.kind <;> rfl

/-- `identify` succeeds only for the nameless, and they are named then. -/
def Names (v : String) (o : Except Exn Unit) (w : String) : Prop := o = .ok () → v = "" ∧ w ≠ ""

theorem names_error {e : Exn} {w : String} : Names v (.error e) w := nofun

theorem wp_doIdentify (hu : rpc.u = u)
    (hempty : v = "" → rpc.params.member "name" ≠ some (.string "")) :
    wp (nameSpec u) (Names v) (doIdentify c rpc) v := by
  subst hu
  unfold doIdentify
  cases hs : checkedStringAt rpc.params "name" with
  | error e => exact names_error
  | ok name =>
    rw [checked_ok_bind]
    split
    · exact names_error
    · rename_i hlong
      refine Prog.wp_bind.mpr (Prog.wp_op.mpr ⟨trivial, fun current hcurrent => ?_⟩)
      obtain rfl : current = v := hcurrent rfl
      show wp (nameSpec rpc.u) (Names current) _ current
      split
      · exact names_error
      · rename_i hcurrent
        have hv : current = "" := String.isEmpty_iff.mp hcurrent
        have hname : name ≠ "" := by
          rintro rfl
          exact hempty hv (checkedStringAt_eq_ok.mp hs)
        refine Prog.wp_bind.mpr (Prog.wp_op.mpr
          ⟨⟨rfl, hv, hname, Nat.le_of_not_lt hlong⟩, fun _ _ => ?_⟩)
        refine (keeps_insert_name hname).wp_bind rfl fun _ w hw => ?_
        apply Prog.wp_mono _ (keeps_complete_name (T := fun _ => True) w hw)
        rintro o w' ⟨rfl, -⟩ -
        exact ⟨hv, hname⟩

/-- What a frame does to the name of its user. -/
theorem wp_frameBody {jv : Value} (hgiven : v = "" → ¬EmptyIdentify u jv) :
    wp (nameSpec u) (fun o w => IsIdentify u jv → Names v o w) (frameBody u jv) v := by
  have hu : (RpcCall.extract { u } jv).1.u = u := (RpcCall.extract_keeps { u } jv).2.1
  unfold frameBody
  split
  · exact fun _ => names_error
  rename_i haccepted
  unfold dispatch
  cases hcid : checkedValue (RpcCall.extract { u } jv).1.params "cid" with
  | error e => exact fun _ => names_error
  | ok id =>
    rw [checked_ok_bind]
    split
    · exact fun _ => names_error
    rename_i cid hsize
    refine Prog.wp_bind.mpr (Prog.wp_op.mpr ⟨trivial, fun found hfound => ?_⟩)
    show wp (nameSpec u) _ _ v
    split
    · exact fun _ => names_error
    rename_i c
    by_cases hm : (RpcCall.extract { u } jv).1.method = "identify"
    · rw [dispatch_identify hm]
      split
      · rename_i hkind
        have hid : cid = systemChannel.cid := eq_system_of_getD hfound.symm hkind
        apply Prog.wp_mono (fun _ _ h _ => h) (wp_doIdentify hu fun hv hempty => ?_)
        exact hgiven hv ⟨⟨haccepted, hm⟩, ⟨id, checkedValue_eq_ok.mp hcid, hid ▸ hsize⟩, hempty⟩
      · exact fun _ => names_error
    · have hkeeps : Keeps (nameSpec u) (· = v) (fun _ => True)
          (c.dispatch (RpcCall.extract { u } jv).1) :=
        keeps_dispatch_name hu (fun _ => trivial) hm
      exact Prog.wp_mono (fun _ _ _ h => absurd h.2 hm) (hkeeps v rfl)

theorem wp_readFrame_name {jv : Value} (hgiven : v = "" → ¬EmptyIdentify u jv) :
    wp (nameSpec u) (fun _ _ => True) (readFrame u jv) v := by
  rw [readFrame]
  apply Prog.wp_tryCatch.mpr
  apply Prog.wp_mono _ (wp_frameBody hgiven)
  rintro o w -
  cases o with
  | ok a => trivial
  | error e =>
    cases e with
    | rpc e =>
      have hkeeps : Keeps (nameSpec u) (· = w) (fun _ => True)
          (completeError (RpcCall.extract { u } jv).1 e) :=
        keeps_completeError (fun _ _ _ => safe_nameSpec (fun _ _ h => by cases h) rfl) e
      exact Prog.wp_mono (fun _ _ _ => trivial) (hkeeps w rfl)
    | _ => trivial

/-! ### Threads that name nobody -/

/-- What any thread may do to any user. -/
def aloofSpec : Spec Res Unit where
  may _ _ _ := True
  allow _ c := ∀ u v, (nameSpec u).allow v c
  next _ _ _ := ()

theorem safe_aloofSpec {cmd : Cmd} (h : ∀ u v, (nameSpec u).allow v cmd) :
    aloofSpec.Safe (fun _ => True) cmd :=
  fun _ _ => ⟨h, fun _ _ => trivial⟩

theorem erase_aloofSpec : Keeps aloofSpec (fun _ => True) T (c.erase u) := by
  apply keeps_erase_of_safe (N := fun _ => True) fun _ _ _ _ => trivial
  intro cmd hcmd hinsert
  cases hcmd with
  | usersInsert => exact absurd rfl (hinsert c u)
  | _ => exact safe_aloofSpec fun _ _ => trivial

theorem serve_aloofSpec (h : Handler) : Keeps aloofSpec (fun _ => True) (fun _ => True) (serve h) := by
  refine keeps_serve ?_ (wp_gameToJson_any (safe_aloofSpec fun _ _ => trivial)
    fun _ => safe_aloofSpec fun _ _ => trivial) fun _ _ _ => trivial
  intro cmd hcmd
  cases hcmd with
  | _ => exact safe_aloofSpec fun _ _ => trivial

end programs

/-! ### The names -/

section act
variable {w : Shared} {c : Cmd} {u u' : UserId}

/-- Every member has a name. -/
structure Named (w : Shared) : Prop where
  channels : w.channels = serverChannels
  size : ∀ u, (w.name u).utf8ByteSize ≤ 20
  member : ∀ c, ∀ u ∈ w.users c, w.name u ≠ ""

theorem act_nameSpec (hw : Named w) (h : (nameSpec u).allow (w.name u) c) :
    (nameSpec u).may (w.name u) c (act c w).1 ∧
      (act c w).2.name u = (nameSpec u).next (w.name u) c (act c w).1 := by
  cases c with
  | «at» cid =>
    refine ⟨?_, rfl⟩
    show w.channels.getD cid none = serverChannels.getD cid none
    rw [hw.channels]
  | readName u' => exact ⟨fun hu => hu ▸ rfl, rfl⟩
  | writeName u' name =>
    obtain rfl : u' = u := h.1
    exact ⟨trivial, Function.update_self ..⟩
  | _ => exact ⟨trivial, congrFun (act_name_eq rfl) u⟩

/-- All that a thread of `u` may do to the names is to name `u` while it is nameless. -/
theorem act_name (h : (nameSpec u).allow (w.name u) c) :
    (act c w).2.name = w.name ∨ w.name u = "" ∧
      ∃ name, name ≠ "" ∧ name.utf8ByteSize ≤ 20 ∧
        (act c w).2.name = Function.update w.name u name := by
  cases c with
  | writeName u' name =>
    obtain ⟨rfl, hset, hname, hsize⟩ := h
    exact .inr ⟨hset, name, hname, hsize, rfl⟩
  | _ => exact .inl (act_name_eq rfl)

theorem act_name_ne (h : (nameSpec u).allow (w.name u) c) (hne : u' ≠ u) :
    (act c w).2.name u' = w.name u' := by
  rcases act_name h with heq | ⟨-, name, -, -, heq⟩
  · rw [heq]
  · rw [heq, Function.update_of_ne hne]

theorem act_name_aloof (h : ∀ u v, (nameSpec u).allow v c) : (act c w).2.name = w.name := by
  cases c with
  | writeName u' name => exact absurd (h (u' + 1) "").1 (Nat.ne_of_lt (Nat.lt_succ_self u'))
  | _ => exact act_name_eq rfl

/-- A name that is set stays. -/
theorem act_name_kept (h : (nameSpec u).allow (w.name u) c) (hset : w.name u' ≠ "") :
    (act c w).2.name u' = w.name u' := by
  rcases act_name h with heq | ⟨hempty, name, -, -, heq⟩
  · rw [heq]
  · have hne : u' ≠ u := fun hu => hset (hu ▸ hempty)
    rw [heq, Function.update_of_ne hne]

theorem named_act (hw : Named w) (h : (nameSpec u).allow (w.name u) c) : Named (act c w).2 := by
  refine ⟨act_fixed.1.trans hw.channels, fun u' => ?_, fun ch u' hmem => ?_⟩
  · rcases act_name h with heq | ⟨-, name, -, hsize, heq⟩
    · rw [heq]
      exact hw.size u'
    · rw [heq, Function.update_apply]
      split
      · exact hsize
      · exact hw.size u'
  · have hset : w.name u' ≠ "" := by
      rcases mem_users_act hmem with hmem | rfl
      · exact hw.member ch u' hmem
      · obtain ⟨rfl, hset⟩ := h
        exact hset
    rw [act_name_kept h hset]
    exact hset

end act

/-! ### Whole runs -/

/-- A session goes on from the name `v`; a destructor names nobody. -/
def SessionNamed (u : UserId) (v : String) : Phase → Prop
  | .busy p => wp (nameSpec u) (fun _ _ => True) p v
  | .erasing _ _ p => wp aloofSpec (fun _ _ => True) p ()
  | _ => True

structure Identities (w : World) : Prop where
  named : Named w.sh
  session : ∀ u, SessionNamed u (w.sh.name u) (w.phase u)
  strand : ∀ h p, w.running = some (h, p) → wp aloofSpec (fun _ _ => True) p ()

theorem identities_boot {w : World} (h : Booted w) : Identities w := by
  obtain ⟨rand, chips, before, rfl⟩ := h
  exact ⟨⟨rfl, fun _ => Nat.zero_le _, fun c u hu => by cases hu⟩, fun u => trivial,
    fun h p hp => by cases hp⟩

section step
variable {w t : World} {l : Label} {u : UserId}

theorem Identities.busy (hw : Identities w) {p : Act Unit} (h : w.phase u = .busy p) :
    wp (nameSpec u) (fun _ _ => True) p (w.sh.name u) := by
  have hu := hw.session u
  rwa [h] at hu

theorem Identities.erasing (hw : Identities w) {n k : Nat} {p : Act Bool}
    (h : w.phase u = .erasing n k p) : wp aloofSpec (fun _ _ => True) p () := by
  have hu := hw.session u
  rwa [h] at hu

theorem Identities.ofSession {sh : Shared} {p : Phase} (hw : Identities w) (hsh : Named sh)
    (hne : ∀ u', u' ≠ u → sh.name u' = w.sh.name u') (hp : SessionNamed u (sh.name u) p) :
    Identities ({ w with sh := sh }.setPhase u p) := by
  refine ⟨hsh, fun u' => ?_, hw.strand⟩
  by_cases hu : u' = u
  · subst hu
    rw [setPhase_self]
    exact hp
  · rw [setPhase_ne _ _ hu]
    show SessionNamed u' (sh.name u') (w.phase u')
    rw [hne u' hu]
    exact hw.session u'

theorem Identities.ofPhase {p : Phase} (hw : Identities w) (hp : SessionNamed u (w.sh.name u) p) :
    Identities (w.setPhase u p) :=
  hw.ofSession hw.named (fun _ _ => rfl) hp

theorem identities_step (hw : Identities w) (hgiven : NamesGiven w l) (hs : step w l = some t) :
    Identities t := by
  cases step_moves hs with
  | connect => exact hw.ofPhase trivial
  | frame => exact hw.ofPhase (wp_readFrame_name hgiven)
  | @sessionOp u c k h =>
    obtain ⟨hallow, hk⟩ := hw.busy h
    obtain ⟨hmay, hnext⟩ := act_nameSpec hw.named hallow
    exact hw.ofSession (named_act hw.named hallow) (fun _ => act_name_ne hallow) (hnext ▸ hk _ hmay)
  | sessionDone => exact hw.ofPhase trivial
  | sessionThrow => exact ⟨hw.named, hw.session, hw.strand⟩
  | @eraseLast u n k c =>
    have herase : Keeps aloofSpec (fun _ => True) (fun _ => True) (c.erase u) := erase_aloofSpec
    exact hw.ofPhase (herase.wp trivial)
  | ended => exact hw.ofPhase trivial
  | @eraseOp u n k c k' h =>
    obtain ⟨hallow, hk⟩ := hw.erasing h
    exact hw.ofSession (named_act hw.named (hallow u _))
      (fun _ _ => congrFun (act_name_aloof hallow) _) (hk _ trivial)
  | eraseDone => exact hw.ofPhase trivial
  | eraseThrow => exact ⟨hw.named, hw.session, hw.strand⟩
  | close => exact hw.ofPhase trivial
  | destroy =>
    exact hw.ofSession ⟨hw.named.channels, hw.named.size, hw.named.member⟩ (fun _ _ => rfl) trivial
  | @serve h =>
    refine ⟨⟨hw.named.channels, hw.named.size, hw.named.member⟩, hw.session, fun h' p hp => ?_⟩
    cases hp
    exact (serve_aloofSpec h).wp trivial
  | @tableOp h c k hrun =>
    obtain ⟨hallow, hk⟩ := hw.strand h _ hrun
    refine ⟨named_act hw.named (hallow 0 _), fun u => ?_, fun h' p hp => ?_⟩
    · show SessionNamed u ((act c w.sh).2.name u) (w.phase u)
      rw [act_name_aloof hallow]
      exact hw.session u
    · cases hp
      exact hk _ trivial
  | tableDone => exact ⟨hw.named, hw.session, fun h p hp => by cases hp⟩
  | tableThrow => exact ⟨hw.named, hw.session, hw.strand⟩
  | announce => exact ⟨hw.named, hw.session, hw.strand⟩
  | notify =>
    rw [act_trySend]
    exact ⟨⟨hw.named.channels, hw.named.size, hw.named.member⟩, hw.session, hw.strand⟩
  | announced => exact ⟨hw.named, hw.session, hw.strand⟩

/-- No step changes a name that is set. -/
theorem name_step (hw : Identities w) (hs : step w l = some t) (hset : w.sh.name u ≠ "") :
    t.sh.name u = w.sh.name u := by
  cases step_moves hs with
  | sessionOp h => exact act_name_kept (hw.busy h).1 hset
  | eraseOp h => exact congrFun (act_name_aloof (hw.erasing h).1) u
  | tableOp hrun => exact congrFun (act_name_aloof (hw.strand _ _ hrun).1) u
  | notify => exact congrFun (act_name_eq rfl) u
  | _ => rfl

/-! ### The log of a frame -/

/-- The operations of the last frame lead from the name that `u` had when the frame arrived, which is
one in `Q`, to the name it has. -/
def NameLogged (Q : Value → String → Prop) (u : UserId) (log : Option (Value × List Performed))
    (w : World) : Prop :=
  ∀ jv ops, log = some (jv, ops) → ∃ v, Q jv v ∧
    Follows (nameSpec u) v (ops.map Prod.snd) ∧ ghost (nameSpec u) v (ops.map Prod.snd) = w.sh.name u

variable {Q : Value → String → Prop} {log : Option (Value × List Performed)}

theorem NameLogged.congr (h : NameLogged Q u log w) (hname : t.sh.name u = w.sh.name u) :
    NameLogged Q u log t := by
  intro jv ops hlog
  rw [hname]
  exact h jv ops hlog

theorem NameLogged.perform (h : NameLogged Q u log w) (hw : Named w.sh) {c : Cmd}
    (hallow : (nameSpec u).allow (w.sh.name u) c) {p : Phase} :
    NameLogged Q u (log.map fun x => (x.1, x.2 ++ [w.sh.perform c]))
      ({ w with sh := (act c w.sh).2 }.setPhase u p) := by
  obtain ⟨hmay, hnext⟩ := act_nameSpec hw hallow
  intro jv ops hlog
  obtain ⟨⟨jv', ops'⟩, hlog', heq⟩ := Option.map_eq_some_iff.mp hlog
  obtain ⟨rfl, rfl⟩ := Prod.mk.inj heq
  obtain ⟨v, hv, hfollows, hghost⟩ := h _ _ hlog'
  rw [← hghost] at hmay hnext
  rw [List.map_append]
  exact ⟨v, hv, Prog.follows_snoc hfollows hmay, (Prog.ghost_snoc ..).trans hnext.symm⟩

theorem nameLogged_step (hw : Identities w) (h : NameLogged Q u log w)
    (hQ : ∀ jv, l = .frame u jv → Q jv (w.sh.name u)) (hs : step w l = some t) :
    NameLogged Q u (nextRequestLog u log w l) t := by
  cases step_moves hs with
  | @frame v jv =>
    by_cases hv : v = u
    · subst hv
      simp only [nextRequestLog, if_true]
      intro jv' ops hlog
      obtain ⟨rfl, rfl⟩ := Prod.mk.inj (Option.some.inj hlog)
      exact ⟨w.sh.name v, hQ jv rfl, trivial, rfl⟩
    · simp only [nextRequestLog, if_neg hv]
      exact h.congr rfl
  | @sessionOp v c k hbusy =>
    have hallow := (hw.busy hbusy).1
    by_cases hv : v = u
    · subst hv
      simp only [nextRequestLog, if_true, hbusy]
      exact h.perform hw.named hallow
    · simp only [nextRequestLog, if_neg hv]
      exact h.congr (act_name_ne hallow (Ne.symm hv))
  | sessionDone hbusy =>
    rw [nextRequestLog_session hbusy rfl]
    exact h.congr rfl
  | sessionThrow hbusy =>
    rw [nextRequestLog_session hbusy rfl]
    exact h.congr rfl
  | eraseLast hending =>
    rw [nextRequestLog_session hending rfl]
    exact h.congr rfl
  | ended hending =>
    rw [nextRequestLog_session hending rfl]
    exact h.congr rfl
  | eraseOp herasing =>
    rw [nextRequestLog_session herasing rfl]
    exact h.congr (congrFun (act_name_aloof (hw.erasing herasing).1) u)
  | eraseDone herasing =>
    rw [nextRequestLog_session herasing rfl]
    exact h.congr rfl
  | eraseThrow herasing =>
    rw [nextRequestLog_session herasing rfl]
    exact h.congr rfl
  | tableOp hrun => exact h.congr (congrFun (act_name_aloof (hw.strand _ _ hrun).1) u)
  | notify => exact h.congr (congrFun (act_name_eq rfl) u)
  | _ => exact h.congr rfl

end step

section runs
variable {init : World → Prop} {tr : List (World × Label)} {w : World} {u : UserId}
  {Q : Value → String → Prop} {o : Except Exn Unit}

theorem identities_run (h0 : ∀ s, init s → Identities s) (hrun : Run step init tr w)
    (hgiven : AllSteps NamesGiven tr) : AllStates Identities tr w :=
  hrun.invariant h0 (fun _ _ _ => identities_step) hgiven

/-- Once set, a name stays. -/
theorem name_run {m : World} (hm : Identities m) (hset : m.sh.name u ≠ "") (hrun : Run step (· = m) tr w)
    (hgiven : AllSteps NamesGiven tr) : AllStates (fun s => s.sh.name u = m.sh.name u) tr w := by
  have hboth : AllStates (fun s => Identities s ∧ s.sh.name u = m.sh.name u) tr w := by
    refine hrun.invariant ?_ ?_ hgiven
    · rintro s rfl
      exact ⟨hm, rfl⟩
    · rintro s l t ⟨hs, hname⟩ hl hstep
      exact ⟨identities_step hs hl hstep, (name_step hs hstep (hname ▸ hset)).trans hname⟩
  exact hboth.mono fun s h => h.2

/-- A log that begins within a run. -/
theorem nameLogged_run (h0 : ∀ s, init s → Identities s) (hrun : Run step init tr w)
    (hgiven : AllSteps NamesGiven tr)
    (hQ : AllSteps (fun s l => ∀ jv, l = .frame u jv → Q jv (s.sh.name u)) tr) :
    NameLogged Q u (requestLog u tr) w := by
  induction hrun with
  | nil h => exact fun _ _ => nofun
  | snoc hrun hs ih =>
    obtain ⟨hgiven, -⟩ := allSteps_snoc.mp hgiven
    obtain ⟨hQ, hlast⟩ := allSteps_snoc.mp hQ
    rw [requestLog_snoc]
    exact nameLogged_step (identities_run h0 hrun hgiven).2 (ih hgiven hQ) hlast hs

theorem names_of_ends (hlog : NameLogged Q u (requestLog u tr) w)
    (hQ : ∀ jv v, Q jv v → v = "" → ¬EmptyIdentify u jv) (hends : IdentifyEnds u tr o) :
    ∃ jv v, Q jv v ∧ Names v o (w.sh.name u) := by
  obtain ⟨jv, ops, hrequest, hidentify, htrace⟩ := hends
  obtain ⟨v, hv, hfollows, hghost⟩ := hlog jv ops hrequest
  refine ⟨jv, v, hv, ?_⟩
  rw [← hghost]
  exact Prog.wp_trace (wp_frameBody (hQ jv v hv)) htrace hfollows hidentify

/-- In every run in which no nameless user asks to be called by the empty name, members are
identified and identities are permanent. -/
theorem identified_of_namesGiven (hrun : Run step Booted tr w) (hgiven : AllSteps NamesGiven tr) :
    Identified tr w := by
  have h0 : ∀ s, Booted s → Identities s := fun _ => identities_boot
  constructor
  · apply (identities_run h0 hrun hgiven).mono
    intro s hs c u hu
    exact ⟨hs.named.member c u hu, hs.named.size u⟩
  · rintro u tr₁ tr₂ rfl hends
    obtain ⟨hgiven₁, hgiven₂⟩ := List.forall_mem_append.mp hgiven
    obtain ⟨m, hrun₁, hrun₂⟩ := hrun.split rfl
    have hm : Identities m := (identities_run h0 hrun₁ hgiven₁).2
    have hset : m.sh.name u ≠ "" := by
      have hlog : NameLogged (fun jv v => v = "" → ¬EmptyIdentify u jv) u (requestLog u tr₁) m := by
        apply nameLogged_run h0 hrun₁ hgiven₁
        rintro ⟨s, l⟩ hx jv rfl
        exact hgiven₁ _ hx
      obtain ⟨jv, v, -, hnames⟩ := names_of_ends hlog (fun _ _ h => h) hends
      exact (hnames rfl).2
    have hstays := name_run hm hset hrun₂ hgiven₂
    refine ⟨⟨_, hstays⟩, ?_⟩
    rintro tr₃ tr₄ o rfl hends'
    obtain ⟨m', hrun₃, -⟩ := hrun₂.split rfl
    have hlog : NameLogged (fun _ v => v ≠ "") u (requestLog u tr₃) m' := by
      apply nameLogged_run (by rintro s rfl; exact hm) hrun₃ (List.forall_mem_append.mp hgiven₂).1
      intro x hx jv _
      rw [hstays.1 x (List.mem_append_left _ hx)]
      exact hset
    obtain ⟨jv, v, hv, hnames⟩ := names_of_ends hlog (fun _ _ h h' => absurd h' h) hends'
    cases o with
    | ok a => exact absurd (hnames rfl).1 hv
    | error e => exact ⟨e, rfl⟩

end runs

def identifyAs (name : String) : Value :=
  request "identify" [("cid", .number (.int 1)), ("name", .string name)]

theorem not_emptyIdentify {u : UserId} {name : String} (h : name ≠ "") :
    ¬EmptyIdentify u (identifyAs name) := by
  intro hempty
  have hname : some (Value.string name) = some (.string "") := hempty.name
  exact h (Value.string.inj (Option.some.inj hname))

/-- User 1 identifies as "ann", and then asks to be "bob". -/
def annAsksAgain : List Label :=
  [.connect 1, .frame 1 (identifyAs "ann")] ++ List.replicate 11 (.session 1) ++
    [.frame 1 (identifyAs "bob")] ++ List.replicate 4 (.session 1)

theorem annAsksAgain_runs : (execute step annAsksAgain [] bootZero).isSome := by decide +kernel

theorem identified_ann : ∃ tr w, Run step Booted tr w ∧ 1 ∈ w.sh.users systemChannel ∧
    w.sh.name 1 = "ann" ∧ Identified tr w := by
  have hrun := run_after annAsksAgain annAsksAgain_runs
  have hmember : 1 ∈ (after annAsksAgain annAsksAgain_runs).sh.users systemChannel := by
    decide +kernel
  have hname : (after annAsksAgain annAsksAgain_runs).sh.name 1 = "ann" := by decide +kernel
  have hgiven : AllSteps NamesGiven (traceOf annAsksAgain annAsksAgain_runs) := by
    rintro ⟨s, l⟩ hx
    cases l with
    | frame u jv =>
      have hl : .frame u jv ∈ annAsksAgain := label_mem hx
      have hjv : jv = identifyAs "ann" ∨ jv = identifyAs "bob" := by
        simp [annAsksAgain] at hl
        exact hl.imp And.right And.right
      rcases hjv with rfl | rfl
      · exact fun _ => not_emptyIdentify (by decide)
      · exact fun _ => not_emptyIdentify (by decide)
    | _ => trivial
  exact ⟨_, _, hrun, hmember, hname, identified_of_namesGiven hrun hgiven⟩

/-- User 1 identifies with the empty name. -/
def namelessIdentifies : List Label :=
  [.connect 1, .frame 1 (identifyAs "")] ++ List.replicate 11 (.session 1)

theorem namelessIdentifies_runs : (execute step namelessIdentifies [] bootZero).isSome := by
  decide +kernel

/-- The user is a member of the system channel, and has no name. -/
theorem nameless_member : ¬∀ tr w, Run step Booted tr w → Identified tr w := by
  intro hall
  have hmember : 1 ∈ (after namelessIdentifies namelessIdentifies_runs).sh.users systemChannel := by
    decide +kernel
  have hname : (after namelessIdentifies namelessIdentifies_runs).sh.name 1 = "" := by
    decide +kernel
  have hrun := run_after namelessIdentifies namelessIdentifies_runs
  exact ((hall _ _ hrun).members.2 systemChannel 1 hmember).1 hname

end BeastLounge.Lounge
