import Mathlib.Data.List.Induction
import BeastLounge.Client.Drawing
import BeastLounge.Lounge.Identity
import BeastLounge.Lounge.Snapshot
import BeastLounge.Lounge.Views

/-!
# What the players see

The page of a member draws every update it is passed, so between the handlers of the table it shows
the game as it is, with the names the seated users have.

The argument: the strand makes an update of the snapshot it has read and of the names it reads after
that (`drawSpec`). Names of seated users do not change. What a session tells is no update, so the
last update in the mail of a user is the one its view was made of (`Agrees`).
-/

namespace BeastLounge.Client

open Theory Json Rpc Lounge

open Prog (Spec wp Keeps keeps_bind keeps_op)

variable (num : Number → String)

/-! ### Messages -/

/-- What the server tells that is no update. -/
def Spoken (jv : Value) : Prop :=
  (∃ (c : Channel) (verb name : String), verb.utf8ByteSize ≤ 5 ∧ jv = c.notice verb name) ∨
    (∃ c name text, jv = sayNotice c name text) ∨ (∃ r : Remaining, jv = r.notice) ∨
    ∃ id, IsReply id jv

/-- An update made of this snapshot. -/
def Pictured (K : UserId → String → Prop) (snap : Snapshot) (jv : Value) : Prop :=
  snap.2.length = 6 ∧ ∃ a g, jv = updateJson a g ∧ Pictures K snap g

theorem ne_update {verb : String} (h : verb.utf8ByteSize ≤ 5) : verb ≠ "update" := by
  rintro rfl
  exact absurd h (by decide)

theorem Spoken.logs {jv : Value} (h : Spoken jv) : Logs num jv := by
  rcases h with ⟨c, verb, name, hverb, rfl⟩ | ⟨c, name, text, rfl⟩ | ⟨r, rfl⟩ | ⟨id, h⟩
  · exact logs_notice num c (ne_update hverb) name
  · exact logs_sayNotice num c name text
  · exact logs_shutdownNotice num r.val
  · exact logs_reply num h

theorem Spoken.isUpdate {jv : Value} (h : Spoken jv) : isUpdate jv = false := by
  rcases h with ⟨c, verb, name, hverb, rfl⟩ | ⟨c, name, text, rfl⟩ | ⟨r, rfl⟩ | ⟨id, h⟩
  · unfold Lounge.isUpdate
    split
    · rename_i heq
      simp only [Channel.notice, Value.object.injEq, List.cons.injEq, Prod.mk.injEq,
        Value.string.injEq, true_and] at heq
      exact absurd heq.2.1 (ne_update hverb)
    · rfl
  · rfl
  · rfl
  · exact h.isUpdate

theorem Pictured.isUpdate {K : UserId → String → Prop} {snap : Snapshot} {jv : Value}
    (h : Pictured K snap jv) : isUpdate jv = true := by
  obtain ⟨-, a, g, rfl, -⟩ := h
  rfl

def lastUpdate (jvs : List Value) : Option Value := (jvs.filter isUpdate).getLast?

theorem lastUpdate_speak (jvs : List Value) {jv : Value} (h : isUpdate jv = false) :
    lastUpdate (jvs ++ [jv]) = lastUpdate jvs := by
  simp [lastUpdate, List.filter_append, h]

theorem lastUpdate_pass (jvs : List Value) {jv : Value} (h : isUpdate jv = true) :
    lastUpdate (jvs ++ [jv]) = some jv := by
  simp [lastUpdate, List.filter_append, h]

/-! ### Programs -/

/-- The sessions tell no updates. -/
def speakSpec : Spec Res Unit where
  may _ _ _ := True
  allow
    | _, .trySend _ jv => Spoken jv
    | _, .send _ jv => Spoken jv
    | _, _ => True
  next _ _ _ := ()

/-- What may be passed on once `read` is the snapshot read last. -/
def Told (K : UserId → String → Prop) (read : Option Snapshot) (jv : Value) : Prop :=
  Spoken jv ∨ ∃ snap, read = some snap ∧ Pictured K snap jv

/-- The ghost value is the snapshot the strand has read last. It reads the names of users in it. -/
def drawSpec (K : UserId → String → Prop) : Spec Res (Option Snapshot) where
  may
    | _, .seats, r => r.2.length = 6
    | _, .readName u, name => K u name
    | _, _, _ => True
  allow
    | v, .readName u => ∃ snap, v = some snap ∧ ∃ s ∈ snap.2, s.user = some u
    | v, .trySend _ jv => Told K v jv
    | v, .send _ jv => Told K v jv
    | _, .writeName _ _ => False
    | _, _ => True
  next
    | _, .seats, r => some r
    | v, _, _ => v

section session
variable {u : UserId} {c : Channel} {T : Exn → Prop} {α : Type}

/-- Whatever comes of it, the program tells no updates. -/
def Speaks (p : Act α) : Prop := wp speakSpec (fun _ _ => True) p ()

theorem speak_safe {cmd : Cmd} (h : speakSpec.allow () cmd) :
    speakSpec.Safe (fun _ => True) cmd := fun _ _ => ⟨h, fun _ _ => trivial⟩

theorem speak_memberCmd (cmd : Cmd) (h : MemberCmd (fun _ => True) c u cmd) :
    speakSpec.Safe (fun _ => True) cmd := by
  apply speak_safe
  cases h with
  | noticeTo hverb hname v => exact .inl ⟨c, _, _, hverb, rfl⟩
  | _ => trivial

theorem keeps_insert_speak : Keeps speakSpec (fun _ => True) T (c.insert u) :=
  keeps_insert_of_safe (fun _ _ _ _ => trivial) speak_memberCmd

theorem keeps_erase_speak : Keeps speakSpec (fun _ => True) T (c.erase u) :=
  keeps_erase_of_safe (fun _ _ _ _ => trivial) fun cmd h _ => speak_memberCmd cmd h

theorem speaks_erase : Speaks (c.erase u) :=
  (keeps_erase_speak (T := fun _ => True)).wp trivial

theorem speaks_readFrame (jv : Value) : Speaks (readFrame u jv) := by
  have hkeeps : Keeps speakSpec (fun _ => True) (fun _ => True) (readFrame u jv) := by
    refine keeps_readFrame (K := fun _ => True) jv ?_ (fun _ _ _ _ _ => trivial)
      (fun _ _ => keeps_insert_speak) (fun _ _ => keeps_erase_speak) fun _ _ _ _ => trivial
    intro cmd hcmd
    apply speak_safe
    cases hcmd with
    | sayTo c name text v => exact .inr (.inl ⟨c, name, text, rfl⟩)
    | reply h => exact .inr (.inr (.inr ⟨_, h⟩))
    | _ => trivial
  exact hkeeps.wp trivial

end session

section strand
variable {K : UserId → String → Prop} {v : Option Snapshot} {snap : Snapshot} {T : Exn → Prop}

theorem wp_seatsToJson_draw (seats : List Blackjack.Seat) (hmem : ∀ s ∈ seats, s ∈ snap.2) :
    wp (drawSpec K) (fun o w => (∃ vs, o = .ok vs ∧ List.Forall₂
        (fun s j => ∃ name, (∀ u, s.user = some u → K u name) ∧ j = seatJson s name) seats vs) ∧
      w = some snap) (seatsToJson seats) (some snap) := by
  induction seats with
  | nil => exact ⟨⟨[], rfl, .nil⟩, rfl⟩
  | cons s ss ih =>
    have hrest : ∀ j, (∃ name, (∀ u, s.user = some u → K u name) ∧ j = seatJson s name) →
        wp (drawSpec K) (fun o w => (∃ vs, o = .ok vs ∧ List.Forall₂
            (fun s j => ∃ name, (∀ u, s.user = some u → K u name) ∧ j = seatJson s name)
            (s :: ss) vs) ∧ w = some snap)
          (seatsToJson ss >>= fun vs => pure (j :: vs)) (some snap) := by
      intro j hj
      apply Prog.wp_bind.mpr
      apply Prog.wp_mono _ (ih fun s' hs' => hmem s' (by simp [hs']))
      rintro o w ⟨⟨vs, rfl, hvs⟩, rfl⟩
      exact ⟨⟨j :: vs, rfl, .cons hj hvs⟩, rfl⟩
    apply Prog.wp_bind.mpr
    unfold seatToJson
    split
    · rename_i hnone
      exact hrest _ ⟨"", fun u hu => (by rw [hnone] at hu; cases hu), rfl⟩
    · rename_i u hsome
      refine Prog.wp_bind.mpr (Prog.wp_op.mpr ⟨⟨snap, rfl, s, hmem s (by simp), hsome⟩, ?_⟩)
      intro name hname
      refine hrest _ ⟨name, fun u' hu' => ?_, rfl⟩
      rw [hsome] at hu'
      obtain rfl := Option.some.inj hu'
      exact hname

/-- What is made of the game pictures the snapshot that was read. -/
theorem wp_gameToJson_draw {post : Except Exn Value → Option Snapshot → Prop}
    (h : ∀ snap g, snap.2.length = 6 → Pictures K snap g → post (.ok g) (some snap)) :
    wp (drawSpec K) post gameToJson v := by
  refine Prog.wp_bind.mpr (Prog.wp_op.mpr ⟨trivial, fun r hr => ?_⟩)
  apply Prog.wp_bind.mpr
  apply Prog.wp_mono _ (wp_seatsToJson_draw r.2 fun _ hs => hs)
  rintro o w ⟨⟨vs, rfl, hvs⟩, rfl⟩
  exact h r _ hr ⟨vs, hvs, rfl⟩

theorem keeps_update_draw (a : String) : Keeps (drawSpec K) (fun _ => True) T (update a) := by
  intro v _
  apply Prog.wp_bind.mpr
  apply wp_gameToJson_draw
  intro snap g hsix hg
  refine Prog.wp_bind.mpr (Prog.wp_op.mpr ⟨trivial, fun us _ => ?_⟩)
  apply Prog.wp_each (I := (· = some snap)) rfl
  · rintro y - w rfl
    exact ⟨.inr ⟨snap, rfl, hsix, a, g, rfl, hg⟩, fun _ _ => ⟨rfl, rfl⟩⟩
  · exact fun w _ => Prog.keeps_ok trivial

theorem keeps_doInsert_draw (u : UserId) : Keeps (drawSpec K) (fun _ => True) T (doInsert u) := by
  intro v _
  apply Prog.wp_bind.mpr
  apply wp_gameToJson_draw
  intro snap g hsix hg
  exact ⟨.inr ⟨snap, rfl, hsix, _, g, rfl, hg⟩, fun _ _ => Prog.keeps_ok trivial⟩

/-- Whatever comes of it, the program passes on what pictures the snapshot read last. -/
def Paints (K : UserId → String → Prop) (p : Act Unit) (v : Option Snapshot) : Prop :=
  wp (drawSpec K) (fun _ _ => True) p v

theorem paints_serve (h : Handler) : Paints K (serve h) v := by
  have hkeeps : Keeps (drawSpec K) (fun _ => True) (fun _ => True) (serve h) := by
    refine keeps_serve_of ?_ (fun T' a _ => keeps_update_draw a)
      (fun u _ => keeps_doInsert_draw u) fun _ _ _ => trivial
    intro c hc v _
    cases hc with
    | update ha hg => exact hg.elim
    | updateTo ha hg v => exact hg.elim
    | init hh hg => exact hg.elim
    | reply hh hjv => exact ⟨.inl (.inr (.inr (.inr ⟨_, hjv⟩))), fun _ _ => trivial⟩
    | _ => exact ⟨trivial, fun _ _ => trivial⟩
  exact hkeeps.wp trivial

end strand

/-! ### What is in the mail -/

/-- The last update in the mail of a user is the one its view was made of. -/
structure Agrees (K : UserId → String → Prop) (v : Showing) (w : Shared) : Prop where
  last : ∀ y, lastUpdate (w.mail y) = (v.view y).map Prod.snd
  drawn : ∀ y snap jv, v.view y = some (snap, jv) → Pictured K snap jv
  mail : ∀ y, ∀ jv ∈ w.mail y, Spoken jv ∨ ∃ snap, Pictured K snap jv

section mail
variable {K : UserId → String → Prop} {v : Showing} {w : Shared} {u : UserId} {jv : Value} {c : Cmd}

theorem mail_send (w : Shared) (u y : UserId) (jv : Value) :
    (w.send u jv).mail y = if y = u then w.mail y ++ [jv] else w.mail y := by
  show Function.update w.mail u (w.mail u ++ [jv]) y = _
  rw [Function.update_apply]
  split
  · rename_i h
    rw [h]
  · rfl

theorem Agrees.congr {t : Shared} (h : Agrees K v w) (hmail : t.mail = w.mail) : Agrees K v t :=
  ⟨fun y => hmail ▸ h.last y, h.drawn, fun y => hmail ▸ h.mail y⟩

theorem mem_mail_send {y : UserId} {jv' : Value} (h : jv' ∈ (w.send u jv).mail y) :
    jv' ∈ w.mail y ∨ jv' = jv := by
  rw [mail_send] at h
  split at h
  · simpa using h
  · exact .inl h

theorem Agrees.speak (h : Agrees K v w) (hjv : Spoken jv) : Agrees K v (w.send u jv) := by
  refine ⟨fun y => ?_, h.drawn, fun y jv' hmem => ?_⟩
  · rw [mail_send]
    split
    · rw [lastUpdate_speak _ hjv.isUpdate]
      exact h.last y
    · exact h.last y
  · rcases mem_mail_send hmem with hold | rfl
    · exact h.mail y jv' hold
    · exact .inl hjv

theorem Agrees.pass (h : Agrees K v w) (hjv : Told K v.read jv) :
    Agrees K (v.pass u jv) (w.send u jv) := by
  rcases hjv with hjv | ⟨snap, hread, hjv⟩
  · have hsame : v.pass u jv = v := by
      unfold Showing.pass
      rw [hjv.isUpdate]
      rfl
    rw [hsame]
    exact h.speak hjv
  · have hview : ∀ y, (v.pass u jv).view y = if y = u then some (snap, jv) else v.view y := by
      intro y
      unfold Showing.pass
      rw [if_pos hjv.isUpdate, hread]
      exact Function.update_apply ..
    refine ⟨fun y => ?_, fun y snap' jv' hy => ?_, fun y jv' hmem => ?_⟩
    · rw [mail_send, hview]
      split
      · exact lastUpdate_pass _ hjv.isUpdate
      · exact h.last y
    · rw [hview] at hy
      split at hy
      · obtain ⟨rfl, rfl⟩ := Prod.mk.inj (Option.some.inj hy)
        exact hjv
      · exact h.drawn y snap' jv' hy
    · rcases mem_mail_send hmem with hold | rfl
      · exact h.mail y jv' hold
      · exact .inr ⟨snap, hjv⟩

/-- A thread of a user performs an operation. -/
theorem Agrees.session (h : Agrees K v w) (hallow : speakSpec.allow () c) :
    Agrees K v (act c w).2 := by
  cases c with
  | trySend u jv =>
    show Agrees K v (if w.expired u then w else w.send u jv)
    split
    · exact h
    · exact h.speak hallow
  | send u jv => exact h.speak hallow
  | usersInsert c u => exact h.congr (by rw [act_usersInsert])
  | usersErase c u => exact h.congr (by rw [act_usersErase])
  | channelsInsert u c => exact h.congr (by rw [act_channelsInsert])
  | channelsErase u c => exact h.congr (by rw [act_channelsErase])
  | _ => exact h.congr rfl

/-- The strand performs an operation. -/
theorem Agrees.strand (h : Agrees K v w) (hallow : (drawSpec K).allow v.read c) :
    Agrees K (v.perform w c) (act c w).2 := by
  cases c with
  | trySend u jv =>
    show Agrees K (if w.expired u then v else v.pass u jv) (if w.expired u then w else w.send u jv)
    split
    · exact h
    · exact h.pass hallow
  | send u jv => exact h.pass hallow
  | seats => exact ⟨h.last, h.drawn, h.mail⟩
  | usersInsert c u => exact h.congr (by rw [act_usersInsert])
  | usersErase c u => exact h.congr (by rw [act_usersErase])
  | channelsInsert u c => exact h.congr (by rw [act_channelsInsert])
  | channelsErase u c => exact h.congr (by rw [act_channelsErase])
  | _ => exact h.congr rfl

/-- The snapshot read last is the one of the specification. -/
theorem read_perform (v : Showing) (w : Shared) (c : Cmd) :
    (v.perform w c).read = (drawSpec K).next v.read c (act c w).1 := by
  have hpass : ∀ u jv, (v.pass u jv).read = v.read := fun u jv => read_pass u jv
  cases c with
  | trySend u jv =>
    show (if w.expired u then v else v.pass u jv).read = v.read
    split
    · rfl
    · exact hpass u jv
  | send u jv => exact hpass u jv
  | _ => rfl

end mail

/-! ### Runs of the lounge -/

def SessionSpeaks : Phase → Prop
  | .busy p => Speaks p
  | .erasing _ _ p => Speaks p
  | _ => True

/-- `K` accepts the names that the users of the game have. -/
def NamesFit (K : UserId → String → Prop) (w : World) : Prop :=
  ∀ u, w.sh.game.Seated u → K u (w.sh.name u)

structure Draws (K : UserId → String → Prop) (v : Showing) (w : World) : Prop where
  session : ∀ u, SessionSpeaks (w.phase u)
  strand : ∀ h p, w.running = some (h, p) → Paints K p v.read
  agrees : Agrees K v w.sh
  names : ∀ snap, v.read = some snap → ∀ s ∈ snap.2, ∀ u, s.user = some u → K u (w.sh.name u)

section step
variable {K : UserId → String → Prop} {v : Showing} {tr : List (World × Label)} {w t : World}
  {l : Label}

theorem draws_boot (h : Booted w) : Draws K {} w := by
  obtain ⟨rand, chips, before, rfl⟩ := h
  refine ⟨fun _ => trivial, fun h p hp => (by cases hp), ⟨fun _ => rfl, ?_, ?_⟩, ?_⟩
  · exact fun y snap jv h => (by cases h)
  · exact fun y jv h => (by cases h)
  · exact fun snap h => (by cases h)

/-- A thread of a user takes a step, after which it is at `p`. -/
theorem Draws.ofSession (hw : Draws K v w) {u : UserId} {p : Phase} (sh : Shared)
    (hp : SessionSpeaks p) (hagrees : Agrees K v sh)
    (hnames : ∀ u, K u (w.sh.name u) → K u (sh.name u)) :
    Draws K v ({ w with sh := sh }.setPhase u p) := by
  refine ⟨fun u' => ?_, hw.strand, hagrees, fun snap hread s hs u' hu' => ?_⟩
  · by_cases hu : u' = u
    · subst hu
      rw [setPhase_self]
      exact hp
    · rw [setPhase_ne _ _ hu]
      exact hw.session u'
  · exact hnames u' (hw.names snap hread s hs u' hu')

theorem Draws.ofPhase (hw : Draws K v w) {u : UserId} {p : Phase} (hp : SessionSpeaks p) :
    Draws K v (w.setPhase u p) :=
  hw.ofSession w.sh hp hw.agrees fun _ h => h

theorem SessionSpeaks.perform {p : Phase} {c : Cmd} {next : Res c → Phase} (h : SessionSpeaks p)
    (hp : Performs p c next) : speakSpec.allow () c ∧ ∀ r, SessionSpeaks (next r) := by
  cases hp with
  | busy => exact ⟨h.1, fun r => h.2 r trivial⟩
  | erasing => exact ⟨h.1, fun r => h.2 r trivial⟩

/-- The answers the strand gets. -/
theorem may_drawSpec (hw : Draws K v w) (ht : Tracked w) {c : Cmd}
    (hallow : (drawSpec K).allow v.read c) : (drawSpec K).may v.read c (act c w.sh).1 := by
  cases c with
  | seats => exact ht.seating.length_eq
  | readName u =>
    obtain ⟨snap, hread, s, hs, hu⟩ := hallow
    exact hw.names snap hread s hs u hu
  | _ => trivial

theorem seated_of_mem {g : Blackjack.Game} {s : Blackjack.Seat} {u : UserId} (hs : s ∈ g.seats)
    (hu : s.user = some u) : g.Seated u :=
  List.mem_map.mpr ⟨s, hs, hu⟩

theorem Draws.ofTable (hw : Draws K (showing tr) w) (ht : Tracked w) (hfit : NamesFit K w)
    {h : Handler} {c : Cmd} {k : Res c → Act Unit} (hrun : w.running = some (h, .call c k))
    (hnames : ∀ u, K u (w.sh.name u) → K u ((act c w.sh).2.name u)) :
    Draws K (showing (tr ++ [(w, .table)]))
      { w with sh := (act c w.sh).2, running := some (h, k (act c w.sh).1) } := by
  obtain ⟨hallow, hk⟩ := hw.strand h _ hrun
  have htable : tableOperation w .table = some c := by simp [tableOperation, hrun]
  have hshow : showing (tr ++ [(w, .table)]) = (showing tr).perform w.sh c := by
    rw [showing_snoc, Showing.after, htable]
  rw [hshow]
  refine ⟨hw.session, fun h' p hp => ?_, hw.agrees.strand hallow, fun snap hread s hs u hu => ?_⟩
  · cases hp
    rw [read_perform (K := K)]
    exact hk _ (may_drawSpec hw ht hallow)
  · apply hnames
    rw [read_perform (K := K)] at hread
    cases c with
    | seats =>
      -- the snapshot is that of the game
      obtain rfl := Option.some.inj hread
      exact hfit u (seated_of_mem hs hu)
    | _ => exact hw.names snap hread s hs u hu

theorem draws_step (hw : Draws K (showing tr) w) (ht : Tracked w) (hfit : NamesFit K w)
    (hnames : ∀ u, K u (w.sh.name u) → K u (t.sh.name u)) (hs : step w l = some t) :
    Draws K (showing (tr ++ [(w, l)])) t := by
  have hop : ∀ u c next, Performs (w.phase u) c next →
      (∀ v, K v (w.sh.name v) → K v ((act c w.sh).2.name v)) →
      Draws K (showing tr) ({ w with sh := (act c w.sh).2 }.setPhase u (next (act c w.sh).1)) := by
    intro u c next hp hn
    obtain ⟨hallow, hnext⟩ := (hw.session u).perform hp
    exact hw.ofSession _ (hnext _) (hw.agrees.session hallow) hn
  have hidle : ∀ l, tableOperation w l = none → showing (tr ++ [(w, l)]) = showing tr :=
    fun l hl => showing_idle hl
  cases step_moves hs with
  | connect =>
    rw [hidle _ rfl]
    exact hw.ofPhase trivial
  | @frame u jv =>
    rw [hidle _ rfl]
    exact hw.ofPhase (speaks_readFrame jv)
  | @sessionOp u c k h =>
    rw [hidle _ rfl]
    exact hop u c (fun r => .busy (k r)) (h ▸ .busy) hnames
  | sessionDone =>
    rw [hidle _ rfl]
    exact hw.ofPhase trivial
  | sessionThrow =>
    rw [hidle _ rfl]
    exact ⟨hw.session, hw.strand, hw.agrees, hw.names⟩
  | eraseLast =>
    rw [hidle _ rfl]
    exact hw.ofPhase speaks_erase
  | ended =>
    rw [hidle _ rfl]
    exact hw.ofPhase trivial
  | @eraseOp u n k c k' h =>
    rw [hidle _ rfl]
    exact hop u c (fun r => .erasing n k (k' r)) (h ▸ .erasing) hnames
  | eraseDone =>
    rw [hidle _ rfl]
    exact hw.ofPhase trivial
  | eraseThrow =>
    rw [hidle _ rfl]
    exact ⟨hw.session, hw.strand, hw.agrees, hw.names⟩
  | close =>
    rw [hidle _ rfl]
    exact hw.ofPhase trivial
  | @destroy u =>
    rw [hidle _ rfl]
    exact hw.ofSession (w.expire u).sh trivial (hw.agrees.congr rfl) fun _ h => h
  | @serve h q hrun hq =>
    rw [hidle _ (by simp [tableOperation, hrun])]
    refine ⟨hw.session, fun h' p hp => ?_, hw.agrees.congr rfl, hw.names⟩
    cases hp
    exact paints_serve h
  | tableOp hrun => exact hw.ofTable ht hfit hrun hnames
  | tableDone hrun =>
    rw [hidle _ (by simp [tableOperation, hrun])]
    exact ⟨hw.session, fun h p hp => (by cases hp), hw.agrees, hw.names⟩
  | tableThrow hrun =>
    rw [hidle _ (by simp [tableOperation, hrun])]
    exact ⟨hw.session, hw.strand, hw.agrees, hw.names⟩
  | announce =>
    rw [hidle _ rfl]
    exact ⟨hw.session, hw.strand, hw.agrees, hw.names⟩
  | @notify r u us =>
    rw [hidle _ rfl]
    have hagrees := hw.agrees.session (c := .trySend u r.notice) (.inr (.inr (.inl ⟨r, rfl⟩)))
    refine ⟨hw.session, hw.strand, hagrees, ?_⟩
    rw [act_trySend]
    exact hw.names
  | announced =>
    rw [hidle _ rfl]
    exact ⟨hw.session, hw.strand, hw.agrees, hw.names⟩

/-- `K` accepts the names in the game throughout the run, and goes on accepting a name it accepts. -/
theorem draws (hrun : Run step Booted tr w) (hfit : AllStates (NamesFit K) tr w)
    (hnames : AllSteps (fun s l => ∀ t, step s l = some t →
      ∀ u, K u (s.sh.name u) → K u (t.sh.name u)) tr) : Draws K (showing tr) w := by
  induction hrun with
  | nil h => exact draws_boot h
  | snoc hrun hs ih =>
    obtain ⟨hfit, -⟩ := allStates_snoc.mp hfit
    obtain ⟨hnames, hlast⟩ := allSteps_snoc.mp hnames
    exact draws_step (ih hfit hnames) (tracked hrun.reachable.2) hfit.2 (hlast _ hs) hs

end step

/-! ### The page of a user -/

section page
variable {K : UserId → String → Prop} {jvs : List Value} {jv : Value}

theorem received_snoc (jvs : List Value) (jv : Value) :
    received num (jvs ++ [jv]) = receive num (received num jvs) jv := by
  simp [received]

theorem onMessage_ok (h : Spoken jv ∨ ∃ snap, Pictured K snap jv) {p : Page}
    (hp : p.seats.length = 6) : ∃ p', onMessage num jv p = .ok () p' ∧ p'.seats.length = 6 := by
  rcases h with h | ⟨snap, hsix, a, g, rfl, hg⟩
  · obtain ⟨s, hs⟩ := h.logs num p
    exact ⟨_, hs, hp⟩
  · obtain ⟨p', hupdate, hshown, -⟩ := onMessage_update num a hg hsix hp
    exact ⟨p', hupdate, hshown.length⟩

theorem receive_of_ok {p p' : Page} (h : onMessage num jv p = .ok () p') :
    receive num p jv = p' := by
  unfold receive
  rw [h]

theorem length_received (h : ∀ jv ∈ jvs, Spoken jv ∨ ∃ snap, Pictured K snap jv) :
    (received num jvs).seats.length = 6 := by
  induction jvs using List.reverseRecOn with
  | nil => rfl
  | append_singleton jvs jv ih =>
    have hold := ih fun jv' hjv => h jv' (by simp [hjv])
    obtain ⟨p', hok, hlen⟩ := onMessage_ok num (h jv (by simp)) hold
    rw [received_snoc, receive_of_ok num hok]
    exact hlen

/-- The page shows the snapshot that the last update pictures. -/
theorem shown_received (h : ∀ jv ∈ jvs, Spoken jv ∨ ∃ snap, Pictured K snap jv) {snap : Snapshot}
    (hlast : lastUpdate jvs = some jv) (hjv : Pictured K snap jv) :
    Shown num K snap (received num jvs) := by
  induction jvs using List.reverseRecOn with
  | nil => cases hlast
  | append_singleton jvs jv' ih =>
    have hold : ∀ jv ∈ jvs, Spoken jv ∨ ∃ snap, Pictured K snap jv :=
      fun jv hmem => h jv (by simp [hmem])
    rw [received_snoc]
    rcases h jv' (by simp) with hspoken | ⟨snap', hpictured⟩
    · rw [lastUpdate_speak _ hspoken.isUpdate] at hlast
      obtain ⟨s, hs⟩ := hspoken.logs num (received num jvs)
      rw [receive_of_ok num hs]
      have hshown := ih hold hlast
      exact ⟨hshown.message, hshown.length, hshown.line⟩
    · rw [lastUpdate_pass _ hpictured.isUpdate] at hlast
      obtain rfl := Option.some.inj hlast
      obtain ⟨hsix, a, g, rfl, hg⟩ := hjv
      obtain ⟨p', hok, hshown, -⟩ := onMessage_update num a hg hsix (length_received num hold)
      rw [receive_of_ok num hok]
      exact hshown

end page

/-- Integers in decimal. -/
def decimal : Number → String
  | .int i => toString i
  | .double _ _ => ""

section run
variable {tr : List (World × Label)} {w : World}

/-- In every run, the page of every user takes every message the server has passed to its session
without an exception. -/
theorem page_never_throws (hrun : Run step Booted tr w) (y : UserId) (jvs : List Value) (jv : Value)
    (rest : List Value) (hmail : w.sh.mail y = jvs ++ jv :: rest) :
    ∃ p, onMessage num jv (received num jvs) = .ok () p := by
  have hdraws : Draws (fun _ _ => True) (showing tr) w :=
    draws hrun ⟨fun _ _ _ _ => trivial, fun _ _ => trivial⟩ fun _ _ _ _ _ _ => trivial
  have hall := hdraws.agrees.mail y
  rw [hmail] at hall
  have hlen : (received num jvs).seats.length = 6 :=
    length_received num fun jv' hjv' => hall jv' (by simp [hjv'])
  obtain ⟨p, hok, -⟩ := onMessage_ok num (hall jv (by simp)) hlen
  exact ⟨p, hok⟩

def inHalfAMinute : Remaining := ⟨30, by decide⟩

/-- User 1 has joined the table and plays, and is told that the server will shut down. -/
def annTold : List Label := annPlays ++ [.announce inHalfAMinute, .server, .server]

theorem annTold_runs : (execute step annTold [] bootZero).isSome := by decide +kernel

/-- The page of user 1 takes an update, and the notice of the shutdown. -/
theorem page_takes_ann : ∃ tr w, Run step Booted tr w ∧
    (∃ jvs jv rest p, w.sh.mail 1 = jvs ++ jv :: rest ∧ isUpdate jv = true ∧
      onMessage decimal jv (received decimal jvs) = .ok () p) ∧
    ∃ jvs p, w.sh.mail 1 = jvs ++ [inHalfAMinute.notice] ∧
      onMessage decimal inHalfAMinute.notice (received decimal jvs) = .ok () p := by
  have hrun := run_after annTold annTold_runs
  have hany : ((after annTold annTold_runs).sh.mail 1).any isUpdate = true := by decide +kernel
  have hlast : ((after annTold annTold_runs).sh.mail 1).getLast? = some inHalfAMinute.notice :=
    rfl
  obtain ⟨jv, hjv, hupdate⟩ := List.any_eq_true.mp hany
  obtain ⟨jvs, rest, hsplit⟩ := List.append_of_mem hjv
  obtain ⟨jvs', hsplit'⟩ := List.getLast?_eq_some_iff.mp hlast
  obtain ⟨p, hp⟩ := page_never_throws decimal hrun 1 jvs jv rest hsplit
  obtain ⟨p', hp'⟩ := page_never_throws decimal hrun 1 jvs' inHalfAMinute.notice [] hsplit'
  exact ⟨_, _, hrun, ⟨jvs, jv, rest, p, hsplit, hupdate, hp⟩, jvs', p', hsplit', hp'⟩

/-- The users of the game have names, when players are members as their request is processed. -/
theorem seated_named (hrun : Run step Booted tr w) (hgiven : AllSteps NamesGiven tr)
    (hplay : AllSteps (fun s l => playByMember s l) tr) :
    AllStates (fun s => ∀ u, s.sh.game.Seated u → s.sh.name u ≠ "") tr w := by
  have hall : AllStates (fun s => (Identities s ∧ Tracked s) ∧
      ∀ u, s.sh.game.Seated u → s.sh.name u ≠ "") tr w := by
    refine hrun.invariant (P := fun s l => NamesGiven s l ∧ playByMember s l) ?_ ?_
      fun x hx => ⟨hgiven x hx, hplay x hx⟩
    · intro s hs
      refine ⟨⟨identities_boot hs, tracked_boot hs⟩, fun u hu => ?_⟩
      obtain ⟨rand, chips, before, rfl⟩ := hs
      have hmem : some u ∈ [(none : Option UserId), none, none, none, none, none] := hu
      simp at hmem
    · rintro s l t ⟨⟨hid, htracked⟩, hnamed⟩ ⟨hl, hmember⟩ hstep
      refine ⟨⟨identities_step hid hl hstep, tracked_step htracked hstep⟩, fun u hu => ?_⟩
      have hset : s.sh.name u ≠ "" := by
        by_cases htable : l = .table
        · subst htable
          cases step_moves hstep with
          | @tableOp h c k hrun =>
            rcases (act_game_strand htracked.seating).2 u hu with hold | ⟨rfl, -⟩
            · exact hnamed u hold
            · have hin : u ∈ s.sh.users table := by
                simpa [playByMember, joining, hrun] using hmember
              exact hid.named.member table u hin
          | _ => exact hnamed u hu
        · rw [(strand_frame htracked hstep htable).1] at hu
          exact hnamed u hu
      rw [name_step hid hstep hset]
      exact hset
  exact hall.mono fun s h => h.2

/-- Whoever has a name in a state of the run has it at the end. -/
theorem name_final (hrun : Run step Booted tr w) (hgiven : AllSteps NamesGiven tr) :
    AllStates (fun s => Identities s ∧ ∀ u, s.sh.name u ≠ "" → s.sh.name u = w.sh.name u) tr w := by
  induction hrun with
  | nil h => exact allStates_nil.mpr ⟨identities_boot h, fun _ _ => rfl⟩
  | @snoc tr s t l hrun hs ih =>
    obtain ⟨hgiven, hl⟩ := allSteps_snoc.mp hgiven
    have hold := ih hgiven
    refine allStates_snoc.mpr ⟨hold.mono fun m hm => ⟨hm.1, fun u hset => ?_⟩,
      identities_step hold.2.1 hl hs, fun _ _ => rfl⟩
    have hname := hm.2 u hset
    exact hname.trans (name_step hold.2.1 hs (hname ▸ hset)).symm

/-- Where `y` has last been passed the game as it is, a page that receives messages of its mail, and
the last update last, shows it. -/
theorem shows_game (hrun : Run step Booted tr w) (hgiven : AllSteps NamesGiven tr)
    (hplay : AllSteps (fun s l => playByMember s l) tr) {y : UserId}
    (hsees : (showing tr).Sees y w.sh.snapshot) {jvs : List Value}
    (hmail : ∀ jv ∈ jvs, jv ∈ w.sh.mail y) (hnewest : lastUpdate jvs = lastUpdate (w.sh.mail y)) :
    (received num jvs).message = stateMessage w.sh.game.s ∧
      (received num jvs).seats =
        w.sh.game.seats.mapIdx fun i s => seatLine num i s (s.user.elim "" w.sh.name) := by
  have hfinal := name_final hrun hgiven
  have hseated := seated_named hrun hgiven hplay
  have hdraws : Draws (fun u name => name = w.sh.name u) (showing tr) w := by
    apply draws hrun
    · exact ⟨fun x hx u hu => (hfinal.1 x hx).2 u (hseated.1 x hx u hu),
        fun u hu => hfinal.2.2 u (hseated.2 u hu)⟩
    · refine Run.allSteps_of_allStates (P := fun s l => ∀ t, step s l = some t →
        ∀ u, s.sh.name u = w.sh.name u → t.sh.name u = w.sh.name u) hrun hfinal ?_
      rintro s l t ⟨hs, -⟩ hstep ⟨-, ht⟩ t' hstep' u hname
      obtain rfl := Option.some.inj (hstep.symm.trans hstep')
      by_cases hempty : s.sh.name u = ""
      · by_cases hempty' : t.sh.name u = ""
        · rw [hempty', ← hempty]
          exact hname
        · exact ht u hempty'
      · exact (name_step hs hstep hempty).trans hname
  obtain ⟨jv, hview, -⟩ := hsees
  have hlast : lastUpdate jvs = some jv := by rw [hnewest, hdraws.agrees.last y, hview]; rfl
  have hshown := shown_received num (fun jv hjv => hdraws.agrees.mail y jv (hmail jv hjv)) hlast
    (hdraws.agrees.drawn y _ jv hview)
  have hsix : w.sh.game.seats.length = 6 := (tracked hrun.reachable.2).seating.length_eq
  refine ⟨hshown.message, List.ext_getElem? fun i => ?_⟩
  rw [List.getElem?_mapIdx]
  cases hs : w.sh.game.seats[i]? with
  | none =>
    have hlen := List.getElem?_eq_none_iff.mp hs
    exact List.getElem?_eq_none_iff.mpr (by rw [hshown.length, ← hsix]; exact hlen)
  | some s =>
    obtain ⟨name, hname, hline⟩ := hshown.line i s hs
    rw [hline, Option.map_some]
    congr 1
    cases hu : s.user with
    | some u =>
      rw [hname u hu]
      rfl
    | none =>
      unfold seatLine
      unfold Blackjack.Seat.user at hu
      cases hstate : s.state with
      | dealer => rfl
      | opened => rfl
      | _ => rw [hstate] at hu; cases hu

/-- In every run in which no nameless user asks to be called by the empty name, players are members
when their request to play is processed, and no snapshot mentions a destroyed user: between the
handlers of the table, the page of every member whose destructor has not begun and whose `do_insert`s
have all run shows the game as it is, with the names its users have.

Of a destroyed user the source has no name to read. `readName` still gives one, so without
`NamesExist` the statement would speak of runs whose behaviour the source leaves undefined. -/
theorem screens_show_game (hrun : Run step Booted tr w) (hgiven : AllSteps NamesGiven tr)
    (hplay : AllSteps (fun s l => playByMember s l) tr) (_hexist : AllSteps NamesExist tr)
    (hidle : w.running = none) :
    ∀ y ∈ w.sh.users table, w.sh.expired y = false → greetCount y tr = joinCount y tr →
      (received num (w.sh.mail y)).message = stateMessage w.sh.game.s ∧
        (received num (w.sh.mail y)).seats =
          w.sh.game.seats.mapIdx fun i s => seatLine num i s (s.user.elim "" w.sh.name) := by
  intro y hy halive hset
  obtain ⟨d, owed, hw⟩ := tracks hrun
  obtain rfl := hw.idle hidle
  have hsees := (hw.view y hy halive hset).resolve_left fun hno => hno
  exact shows_game num hrun hgiven hplay hsees (fun _ h => h) rfl

end run

theorem annPlays_given {l : Label} (hl : l ∈ annPlays) (w : World) : NamesGiven w l := by
  cases l with
  | frame u jv =>
    have hjv : jv = identifyAs "ann" ∨ jv = tableRequest "join" ∨ jv = tableRequest "play" := by
      simp [annPlays] at hl
      exact hl.imp And.right (Or.imp And.right And.right)
    rcases hjv with rfl | rfl | rfl
    · exact fun _ => not_emptyIdentify (by decide)
    · exact fun _ h => absurd (show "join" = "identify" from h.identify.2) (by decide)
    · exact fun _ h => absurd (show "play" = "identify" from h.identify.2) (by decide)
  | _ => trivial

/-- The page of user 1, who has joined the table and plays. -/
theorem screens_show_ann : ∃ tr w, Run step Booted tr w ∧
    (received decimal (w.sh.mail 1)).message = "Waiting for players" ∧
    (received decimal (w.sh.mail 1)).seats = ["[0] (Dealer)", "[1] ann Bet $0", "[2] (Open)",
      "[3] (Open)", "[4] (Open)", "[5] (Open)"] := by
  have hidle : (after annPlays annPlays_runs).running = none :=
    Option.isNone_iff_eq_none.mp (by decide +kernel)
  have hmember : 1 ∈ (after annPlays annPlays_runs).sh.users table := by decide +kernel
  have halive : (after annPlays annPlays_runs).sh.expired 1 = false := by decide +kernel
  have hgreeted : greetCount 1 (traceOf annPlays annPlays_runs) =
      joinCount 1 (traceOf annPlays annPlays_runs) := by decide +kernel
  have hplay : AllSteps (fun s l => playByMember s l) (traceOf annPlays annPlays_runs) := by
    decide +kernel
  have hgiven : AllSteps NamesGiven (traceOf annPlays annPlays_runs) :=
    fun x hx => annPlays_given (label_mem hx) x.1
  have hexist : AllSteps NamesExist (traceOf annPlays annPlays_runs) := by decide +kernel
  have hmessage : stateMessage (after annPlays annPlays_runs).sh.game.s = "Waiting for players" := by
    decide +kernel
  have hlines : ((after annPlays annPlays_runs).sh.game.seats.mapIdx fun i s =>
      seatLine decimal i s (s.user.elim "" (after annPlays annPlays_runs).sh.name)) =
      ["[0] (Dealer)", "[1] ann Bet $0", "[2] (Open)", "[3] (Open)", "[4] (Open)", "[5] (Open)"] := by
    decide +kernel
  have hrun := run_after annPlays annPlays_runs
  obtain ⟨hmsg, hseats⟩ := screens_show_game decimal hrun hgiven hplay hexist hidle 1 hmember halive hgreeted
  exact ⟨_, _, hrun, hmsg.trans hmessage, hseats.trans hlines⟩

end BeastLounge.Client
