import BeastLounge.Blackjack.Dealing
import BeastLounge.Lounge.SeatHolders

/-!
# Deals over whole runs

A `do_start` deals one card, whatever the state of the game and of its seats, and nothing else deals.
So the number of start requests that the strand has begun is the number of deals, up to the one that
is about to happen (`Dealing`). By the count of the cards in the hands, a run deals into hands with
room exactly as long as there are at most 132 of them (`deals_fit_iff`); the one after those throws
out of `do_start`, which catches only `rpc_error`.
-/

namespace BeastLounge.Lounge

open Theory Json Rpc

open Prog (Spec wp Trace Event Keeps)

open Blackjack.Game (Dealt)

/-! ### The property -/

/-- The next operation of the strand deals a card. -/
def dealing (w : World) : Bool :=
  match w.running with
  | some (_, .call .dealOne _) => true
  | _ => false

/-- A deal finds fewer than 22 cards in the hand it is for, no deal has thrown, and `turn_` is the
index of a seat. -/
structure DealsFit (w : World) : Prop where
  room : dealing w → w.sh.game.targetFits
  noThrow : ∀ h f, w.running ≠ some (h, .throw (.deal f))
  turn : w.sh.game.turn < w.sh.game.seats.length

/-- The step takes a start request from the strand's queue. -/
def beginsStart (w : World) : Label → Bool
  | .table =>
    match w.running, w.sh.queue with
    | none, .doStart _ :: _ => true
    | _, _ => false
  | _ => false

/-- The number of start requests that the strand has begun to process. -/
def starts (tr : List (World × Label)) : Nat := tr.countP fun x => beginsStart x.1 x.2

theorem starts_snoc (tr : List (World × Label)) (w : World) (l : Label) :
    starts (tr ++ [(w, l)]) = starts tr + if beginsStart w l then 1 else 0 := by
  unfold starts
  rw [List.countP_append, List.countP_singleton]

/-! ### The handlers -/

/-- No operation deals a card. -/
def dealSpec : Spec Res Unit where
  may _ _ _ := True
  allow
    | _, .dealOne => False
    | _, _ => True
  next _ _ _ := ()

/-- The program does not deal, and does not throw what a deal throws. -/
def Dealless (p : Act Unit) : Prop := wp dealSpec (fun o _ => ∀ f, o ≠ .error (.deal f)) p ()

def NotDeal (e : Exn) : Prop := ∀ f, e ≠ .deal f

theorem Dealless.of_keeps {p : Act Unit} (h : Keeps dealSpec (fun _ => True) NotDeal p) :
    Dealless p := by
  apply Prog.wp_mono _ (h () trivial)
  rintro o v ⟨-, hnot⟩ f rfl
  exact hnot _ rfl f rfl

theorem dealSpec_safe {c : Cmd} (hc : c ≠ .dealOne) : dealSpec.Safe (fun _ => True) c := by
  intro v _
  refine ⟨?_, fun _ _ => trivial⟩
  cases c with
  | dealOne => exact hc rfl
  | _ => trivial

theorem wp_gameToJson_dealSpec (v : Unit) (hv : True) :
    wp dealSpec (fun o _ => (∃ g, o = .ok g ∧ True) ∧ True) gameToJson v :=
  wp_gameToJson_any (dealSpec_safe (by simp)) (fun _ => dealSpec_safe (by simp)) v hv

theorem dealless_serve {h : Handler} (hh : ∀ rpc, h ≠ .doStart rpc) : Dealless (serve h) := by
  apply Dealless.of_keeps
  refine keeps_serve (fun c hc => dealSpec_safe ?_) wp_gameToJson_dealSpec
    fun rpc f hstart => absurd hstart (hh rpc)
  rintro rfl
  cases hc with
  | dealOne hstart => exact hh _ hstart

/-- `do_start` deals first. What a deal throws leaves the handler; otherwise there is no other
deal. -/
theorem serve_doStart (rpc : RpcCall) : ∃ k, serve (.doStart rpc) = .call .dealOne k ∧
    Dealless (k (.ok ())) ∧ ∀ f, k (.error f) = .throw (.deal f) := by
  refine ⟨_, rfl, Dealless.of_keeps ?_, fun f => rfl⟩
  have hrpc : ∀ e : RpcError, NotDeal (.rpc e) := fun e f h => by cases h
  have hreply : ∀ id jv, IsReply id jv → dealSpec.Safe (fun _ => True) (.send rpc.u jv) :=
    fun _ _ _ => dealSpec_safe (by simp)
  apply keeps_catchRpc (p := update "deal" >>= fun _ => complete rpc) _
    fun e => keeps_completeError hreply e
  apply Prog.keeps_bind
  · exact keeps_update wp_gameToJson_dealSpec (fun _ _ => dealSpec_safe (by simp))
      fun _ _ _ => dealSpec_safe (by simp)
  · exact fun _ => keeps_complete hreply

/-! ### One step -/

/-- Where the strand stands when it has begun `k` start requests. -/
inductive Dealing (k : Nat) (w : World) : Prop
  | between (hk : k ≤ 132) (hg : Dealt k w.sh.game)
      (hrun : ∀ h p, w.running = some (h, p) → Dealless p)
  | about {n : Nat} {rpc : RpcCall} (hk : k = n + 1) (hn : n ≤ 132) (hg : Dealt n w.sh.game)
      (hrun : w.running = some (.doStart rpc, serve (.doStart rpc)))
  | thrown {h : Handler} {f : Blackjack.Fault} (hk : k = 133)
      (hturn : w.sh.game.turn < w.sh.game.seats.length)
      (hrun : w.running = some (h, .throw (.deal f)))

section step
variable {w t : World} {l : Label} {k : Nat}

theorem dealing_boot (h : Booted w) : Dealing 0 w := by
  obtain ⟨rand, chips, before, rfl⟩ := h
  exact .between (by omega) (Blackjack.Game.dealt_new 1 rand chips) fun h p hrun => by cases hrun

theorem Dealing.congr (hw : Dealing k w) (hgame : t.sh.game = w.sh.game)
    (hrun : t.running = w.running) : Dealing k t := by
  cases hw with
  | between hk hg hless => exact .between hk (hgame ▸ hg) (hrun ▸ hless)
  | about hk hn hg habout => exact .about hk hn (hgame ▸ hg) (hrun.trans habout)
  | thrown hk hturn hthrow => exact .thrown hk (hgame ▸ hturn) (hrun.trans hthrow)

/-- No operation but the deal changes the number of cards that were dealt. -/
theorem dealt_act {sh : Shared} {c : Cmd} (hg : Dealt k sh.game) (hc : dealSpec.allow () c) :
    Dealt k (act c sh).2.game := by
  have hsession : ∀ u, (eraseSpec u).allow false c → Dealt k (act c sh).2.game := by
    intro u hallow
    rw [act_game_session hallow]
    exact hg
  cases c with
  | join u => exact Blackjack.Game.dealt_join hg
  | leave u => exact Blackjack.Game.dealt_leave hg
  | surrender u => exact Blackjack.Game.dealt_surrender hg
  | bet u => exact Blackjack.Game.dealt_bet hg
  | dealOne => exact hc.elim
  | usersErase c u => exact hsession u rfl
  | _ => exact hsession 0 trivial

/-- The deal of the start request that the strand is about to process. -/
theorem dealing_deal {n : Nat} {rpc : RpcCall} {c : Cmd} {k : Res c → Act Unit} (hn : n ≤ 132)
    (hg : Dealt n w.sh.game) (hrun : serve (.doStart rpc) = .call c k) :
    Dealing (n + 1)
      { w with sh := (act c w.sh).2, running := some (.doStart rpc, k (act c w.sh).1) } := by
  obtain ⟨k', heq, hless, hthrow⟩ := serve_doStart rpc
  rw [heq] at hrun
  cases hrun
  by_cases hlt : n < 132
  · obtain ⟨hok, hdealt⟩ := Blackjack.Game.dealt_dealOne hg hlt
    refine .between hlt hdealt fun h p hp => ?_
    cases hp
    show Dealless (k' w.sh.game.dealOne.2)
    rw [hok]
    exact hless
  · obtain rfl : n = 132 := by omega
    obtain ⟨herr, hturn⟩ := Blackjack.Game.dealOne_full hg
    refine .thrown rfl hturn (h := .doStart rpc) (f := .lengthError) ?_
    show some (_, k' w.sh.game.dealOne.2) = _
    rw [herr, hthrow]

theorem dealing_step (htracked : Tracked w) (hw : Dealing k w) (hs : step w l = some t) :
    Dealing (k + if beginsStart w l then 1 else 0) t := by
  by_cases hl : l = .table
  · subst hl
    cases step_moves hs with
    | @serve h q hrun hq =>
      cases hw with
      | between hk hg hless =>
        cases h with
        | doStart rpc =>
          have hbegins : beginsStart w .table = true := by simp [beginsStart, hrun, hq]
          rw [hbegins]
          exact .about rfl hk hg rfl
        | _ =>
          have hbegins : beginsStart w .table = false := by simp [beginsStart, hrun, hq]
          rw [hbegins]
          refine .between hk hg fun h' p hp => ?_
          cases hp
          exact dealless_serve fun rpc heq => by cases heq
      | about hk hn hg habout => rw [hrun] at habout; cases habout
      | thrown hk hturn hthrow => rw [hrun] at hthrow; cases hthrow
    | @tableOp h c k' hrun =>
      have hbegins : beginsStart w .table = false := by simp [beginsStart, hrun]
      rw [hbegins]
      cases hw with
      | between hk hg hless =>
        obtain ⟨hallow, hrest⟩ := hless _ _ hrun
        refine .between hk (dealt_act hg hallow) fun h' p hp => ?_
        cases hp
        exact hrest _ trivial
      | about hk hn hg habout =>
        subst hk
        rw [hrun] at habout
        obtain ⟨rfl, hserve⟩ := Prod.mk.inj (Option.some.inj habout)
        exact dealing_deal hn hg hserve.symm
      | thrown hk hturn hthrow => rw [hrun] at hthrow; cases hthrow
    | @tableDone h a hrun =>
      have hbegins : beginsStart w .table = false := by simp [beginsStart, hrun]
      rw [hbegins]
      cases hw with
      | between hk hg hless => exact .between hk hg fun h' p hp => by cases hp
      | about hk hn hg habout =>
        obtain ⟨k', heq, -⟩ := serve_doStart _
        rw [hrun, heq] at habout
        cases habout
      | thrown hk hturn hthrow => rw [hrun] at hthrow; cases hthrow
    | @tableThrow h e hrun =>
      have hbegins : beginsStart w .table = false := by simp [beginsStart, hrun]
      rw [hbegins]
      exact hw.congr rfl rfl
  · have hbegins : beginsStart w l = false := by
      cases l with
      | table => exact absurd rfl hl
      | _ => rfl
    obtain ⟨hgame, hrun⟩ := strand_frame htracked hs hl
    rw [hbegins]
    exact hw.congr hgame hrun

/-- The deals of a state fit exactly when at most 132 start requests have been begun. -/
theorem dealsFit_iff (hw : Dealing k w) : DealsFit w ↔ k ≤ 132 := by
  cases hw with
  | between hk hg hless =>
    refine ⟨fun _ => hk, fun _ => ⟨fun hdeal => ?_, fun h f hrun => ?_, hg.turn_lt⟩⟩
    · unfold dealing at hdeal
      split at hdeal
      · rename_i hrun
        exact (hless _ _ hrun).1.elim
      · cases hdeal
    · exact hless _ _ hrun f rfl
  | @about n rpc hk hn hg hrun =>
    obtain ⟨k', heq, -⟩ := serve_doStart rpc
    rw [heq] at hrun
    have hdealing : dealing w = true := by simp [dealing, hrun]
    constructor
    · intro h
      have := (hg.targetFits_iff hn).mp (h.room hdealing)
      omega
    · intro h
      refine ⟨fun _ => (hg.targetFits_iff hn).mpr (by omega), fun h f hthrow => ?_, hg.turn_lt⟩
      rw [hrun] at hthrow
      cases hthrow
  | thrown hk hturn hrun =>
    exact ⟨fun h => absurd hrun (h.noThrow _ _), fun h => by omega⟩

theorem Dealing.turn_lt (hw : Dealing k w) : w.sh.game.turn < w.sh.game.seats.length := by
  cases hw with
  | between hk hg hless => exact hg.turn_lt
  | about hk hn hg hrun => exact hg.turn_lt
  | thrown hk hturn hrun => exact hturn

end step

/-! ### Runs -/

section runs
variable {tr : List (World × Label)} {w : World}

theorem dealing_run (hrun : Run step Booted tr w) : Dealing (starts tr) w := by
  induction hrun with
  | nil h => exact dealing_boot h
  | snoc hrun hs ih =>
    rw [starts_snoc]
    exact dealing_step (tracked hrun.reachable.2) ih hs

/-- Every deal of a run finds room in the hand it is for, and none throws, exactly when the table
processes at most 132 start requests. In every run `turn_` stays the index of a seat. -/
theorem deals_fit_iff (hrun : Run step Booted tr w) :
    (AllStates DealsFit tr w ↔ starts tr ≤ 132) ∧
      AllStates (fun s => s.sh.game.turn < s.sh.game.seats.length) tr w := by
  induction hrun with
  | nil h =>
    have hdealing := dealing_boot h
    exact ⟨by rw [allStates_nil]; exact dealsFit_iff hdealing, allStates_nil.mpr hdealing.turn_lt⟩
  | @snoc tr s t l hrun hs ih =>
    have hdealing := dealing_run (hrun.snoc hs)
    refine ⟨?_, allStates_snoc.mpr ⟨ih.2, hdealing.turn_lt⟩⟩
    rw [allStates_snoc, ih.1, dealsFit_iff hdealing, starts_snoc]
    omega

end runs

/-- User 1, who is no member of the table, sends a start request, and the table processes it. -/
def startRound : List Label :=
  [.frame 1 (tableRequest "start")] ++ List.replicate 3 (.session 1) ++ List.replicate 6 .table

def twelveStarts : List Label := .connect 1 :: (List.replicate 12 startRound).flatten

theorem twelveStarts_runs : (execute step twelveStarts [] bootZero).isSome := by decide +kernel

/-- After twelve start requests every hand holds two cards. -/
theorem deals_fit_twelve :
    ∃ tr w, Run step Booted tr w ∧ w.sh.game.seats.map (·.hand.cards.chars.length) = [2, 2, 2, 2, 2, 2] ∧
      AllStates DealsFit tr w := by
  have hrun := run_after twelveStarts twelveStarts_runs
  have hstarts : starts (traceOf twelveStarts twelveStarts_runs) ≤ 132 := by decide +kernel
  exact ⟨_, _, hrun, by decide +kernel, (deals_fit_iff hrun).1.mpr hstarts⟩

/-- The strand has processed 132 start requests and begun another one. -/
def tooManyStarts : List Label :=
  .connect 1 :: (List.replicate 132 startRound).flatten ++ startRound.take 5

theorem tooManyStarts_runs : (execute step tooManyStarts [] bootZero).isSome := by decide +kernel

/-- The deal of start request 133 finds 22 cards in the dealer's hand. -/
theorem dealer_hand_overflows : ¬∀ tr w, Run step Booted tr w → AllStates DealsFit tr w := by
  intro hall
  have hfits := (hall _ _ (run_after tooManyStarts tooManyStarts_runs)).2.room (by decide +kernel)
  have hfull : (after tooManyStarts tooManyStarts_runs).sh.game.targetFits = false := by
    decide +kernel
  rw [hfull] at hfits
  cases hfits

end BeastLounge.Lounge
