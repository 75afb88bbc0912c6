import BeastLounge.Blackjack.Game

/-!
# Who sits where

What the operations of the game do to the users of its seats, and what they keep: there are six
seats, the first is the dealer's, and no user has two.
-/

namespace BeastLounge.Blackjack

namespace Game

/-- The users of the seats, in order. -/
def users (g : Game) : List (Option Player) := g.seats.map Seat.user

def Seated (g : Game) (u : Player) : Prop := some u ∈ g.users

structure Seating (g : Game) : Prop where
  length_eq : g.seats.length = 6
  dealer : g.seatState 0 = some .dealer
  distinct : ∀ (i j : Nat) (u : Player), g.users[i]? = some (some u) → g.users[j]? = some (some u) → i = j

theorem seating_new (decks : Nat) (rand : Nat → Nat) (chips : Nat → Int) :
    (new decks rand chips).Seating where
  length_eq := by simp [new]
  dealer := rfl
  distinct := by
    intro i j u hi
    have husers : (new decks rand chips).users =
        [none, none, none, none, none, none] := rfl
    rw [husers] at hi
    have hmem := List.mem_of_getElem? hi
    simp at hmem

section find
variable {g : Game} {u : Player}

theorem users_getElem? (g : Game) (i : Nat) : g.users[i]? = (g.seats[i]?).map Seat.user :=
  List.getElem?_map ..

theorem users_find (h : g.find u ≠ 0) : g.users[g.find u]? = some (some u) := by
  unfold find at h ⊢
  cases hi : g.seats.findIdx? (fun s => s.user = some u) with
  | none => rw [hi] at h; exact absurd rfl h
  | some i =>
    obtain ⟨hlt, hu, -⟩ := List.findIdx?_eq_some_iff_getElem.mp hi
    rw [Option.getD_some, users_getElem?, List.getElem?_eq_getElem hlt]
    simpa using hu

/-- Nobody is seated in the dealer's seat, so `find` returns 0 for those without a seat only. -/
theorem not_seated_of_find (hg : g.Seating) (h : g.find u = 0) : ¬g.Seated u := by
  intro hu
  obtain ⟨s, hs, hsu⟩ := List.mem_map.mp hu
  unfold find at h
  cases hi : g.seats.findIdx? (fun s => s.user = some u) with
  | none =>
    have := List.findIdx?_eq_none_iff.mp hi s hs
    simp [hsu] at this
  | some i =>
    rw [hi, Option.getD_some] at h
    subst h
    obtain ⟨hlt, hu0, -⟩ := List.findIdx?_eq_some_iff_getElem.mp hi
    have hdealer := hg.dealer
    rw [seatState, List.getElem?_eq_getElem hlt, Option.map_some, Option.some.injEq] at hdealer
    have hnone : (g.seats[0]).user = none := by rw [Seat.user, hdealer, SeatState.user]
    rw [hnone] at hu0
    simp at hu0

end find

/-! ### Changing one seat -/

section modify
variable (g : Game) (i : Nat) (f : Seat → Seat)

theorem users_modifySeat {o : Option Player} (hf : ∀ s, g.seats[i]? = some s → (f s).user = o) :
    (g.modifySeat i f).users = g.users.set i o := by
  apply List.ext_getElem?
  intro j
  rw [users_getElem?, modifySeat, List.getElem?_modify, List.getElem?_set]
  by_cases hij : i = j
  · subst hij
    cases hs : g.seats[i]? with
    | none =>
      have hlen : ¬i < g.users.length := by
        rw [users, List.length_map]
        have := List.getElem?_eq_none_iff.mp hs
        omega
      simp [hlen]
    | some s =>
      have hlen : i < g.users.length := by
        rw [users, List.length_map]
        exact (List.getElem?_eq_some_iff.mp hs).1
      simp [hlen, hf s hs]
  · simp [hij, users_getElem?]

theorem users_modifySeat_eq (hf : ∀ s, (f s).user = s.user) :
    (g.modifySeat i f).users = g.users := by
  apply List.ext_getElem?
  intro j
  rw [users_getElem?, modifySeat, List.getElem?_modify, users_getElem?]
  cases g.seats[j]? with
  | none => rfl
  | some s =>
    by_cases hij : i = j
    · simp [hij, hf]
    · simp [hij]

end modify

/-- The users stay where they are, or `u` gives up a seat. -/
inductive Releases (g : Game) (u : Player) (g' : Game) : Prop
  | same (h : g'.users = g.users) : Releases g u g'
  | vacate (i : Nat) (hi : g.users[i]? = some (some u)) (h : g'.users = g.users.set i none) :
      Releases g u g'

/-- `u`, who has no seat, takes one that is free. -/
def Takes (g : Game) (u : Player) (g' : Game) : Prop :=
  ∃ i : Nat, g.users[i]? = some none ∧ ¬g.Seated u ∧ g'.users = g.users.set i (some u)

section reseats
variable {g g' : Game} {u v : Player}

theorem Releases.seated (h : Releases g u g') (hv : g'.Seated v) : g.Seated v := by
  unfold Seated at hv
  cases h with
  | same h =>
    rw [h] at hv
    exact hv
  | vacate i hi h =>
    rw [h] at hv
    rcases List.mem_or_eq_of_mem_set hv with hv | hv
    · exact hv
    · cases hv

theorem Takes.seated (h : Takes g u g') (hv : g'.Seated v) : g.Seated v ∨ v = u := by
  obtain ⟨i, -, -, h⟩ := h
  unfold Seated at hv
  rw [h] at hv
  rcases List.mem_or_eq_of_mem_set hv with hv | hv
  · exact .inl hv
  · exact .inr (Option.some.inj hv)

/-- Nobody else's seat changes. -/
theorem Releases.seated_iff (h : Releases g u g') (hv : v ≠ u) : g'.Seated v ↔ g.Seated v := by
  refine ⟨h.seated, fun hold => ?_⟩
  unfold Seated
  cases h with
  | same h => rwa [h]
  | vacate i hi h =>
    rw [h]
    obtain ⟨j, hj⟩ := List.mem_iff_getElem?.mp hold
    have hij : i ≠ j := by
      rintro rfl
      exact hv (Option.some.inj (Option.some.inj (hj.symm.trans hi)))
    exact List.mem_of_getElem? ((List.getElem?_set_ne hij).trans hj)

theorem Takes.seated_iff (h : Takes g u g') (hv : v ≠ u) : g'.Seated v ↔ g.Seated v := by
  refine ⟨fun hnew => (h.seated hnew).resolve_right hv, fun hold => ?_⟩
  obtain ⟨i, hi, -, h⟩ := h
  unfold Seated
  rw [h]
  obtain ⟨j, hj⟩ := List.mem_iff_getElem?.mp hold
  have hij : i ≠ j := by
    rintro rfl
    cases Option.some.inj (hj.symm.trans hi)
  exact List.mem_of_getElem? ((List.getElem?_set_ne hij).trans hj)

theorem Releases.distinct (h : Releases g u g') (hg : g.Seating) (i j : Nat) (v : Player)
    (hi : g'.users[i]? = some (some v)) (hj : g'.users[j]? = some (some v)) : i = j := by
  cases h with
  | same h =>
    rw [h] at hi hj
    exact hg.distinct i j v hi hj
  | vacate k hk h =>
    rw [h, List.getElem?_set] at hi hj
    have hkeep : ∀ i : Nat, (if k = i then if k < g.users.length then some none else none
        else g.users[i]?) = some (some v) → g.users[i]? = some (some v) := by
      intro i hi
      split at hi
      · split at hi <;> cases hi
      · exact hi
    exact hg.distinct i j v (hkeep i hi) (hkeep j hj)

theorem Takes.distinct (h : Takes g u g') (hg : g.Seating) (i j : Nat) (v : Player)
    (hi : g'.users[i]? = some (some v)) (hj : g'.users[j]? = some (some v)) : i = j := by
  obtain ⟨k, hk, hu, h⟩ := h
  rw [h, List.getElem?_set] at hi hj
  have hother : ∀ i : Nat, g.users[i]? = some (some v) → v ≠ u := fun i hi hvu =>
    hu (hvu ▸ List.mem_of_getElem? hi)
  by_cases hki : k = i
  · by_cases hkj : k = j
    · exact hki.symm.trans hkj
    · rw [if_neg hkj] at hj
      rw [if_pos hki] at hi
      split at hi
      · exact absurd (Option.some.inj (Option.some.inj hi)).symm (hother j hj)
      · cases hi
  · rw [if_neg hki] at hi
    by_cases hkj : k = j
    · rw [if_pos hkj] at hj
      split at hj
      · exact absurd (Option.some.inj (Option.some.inj hj)).symm (hother i hi)
      · cases hj
    · rw [if_neg hkj] at hj
      exact hg.distinct i j v hi hj

/-- Giving up the one seat there is leaves none. -/
theorem not_seated_vacate (hg : g.Seating) {i : Nat} (hi : g.users[i]? = some (some u))
    (h : g'.users = g.users.set i none) : ¬g'.Seated u := by
  intro hu
  unfold Seated at hu
  rw [h] at hu
  obtain ⟨j, hj⟩ := List.mem_iff_getElem?.mp hu
  rw [List.getElem?_set] at hj
  split at hj
  · split at hj <;> cases hj
  · rename_i hij
    exact hij (hg.distinct i j u hi hj)

end reseats

/-! ### The operations -/

section operations
variable {g : Game} {u : Player}

theorem seatState_modifySeat {i : Nat} (hi : i ≠ 0) (f : Seat → Seat) :
    (g.modifySeat i f).seatState 0 = g.seatState 0 := by
  rw [seatState, modifySeat, List.getElem?_modify_ne _ _ hi]
  rfl

/-- Changing seats other than the dealer's keeps the arrangement. -/
theorem Seating.ofReleases {g' : Game} (hg : g.Seating) (h : Releases g u g')
    (hlen : g'.seats.length = g.seats.length) (hdealer : g'.seatState 0 = g.seatState 0) :
    g'.Seating where
  length_eq := hlen.trans hg.length_eq
  dealer := hdealer.trans hg.dealer
  distinct := h.distinct hg

theorem Seating.modifySeat {i : Nat} {f : Seat → Seat} (hg : g.Seating) (hi : i ≠ 0)
    (h : Releases g u (g.modifySeat i f)) : (g.modifySeat i f).Seating :=
  hg.ofReleases h (List.length_modify ..) (seatState_modifySeat hi f)

theorem user_of_seatState {i : Nat} {st : SeatState} (h : g.seatState i = some st) :
    g.users[i]? = some st.user := by
  obtain ⟨s, hs, rfl⟩ := Option.map_eq_some_iff.mp h
  rw [users_getElem?, hs]
  rfl

theorem join_seating (hg : g.Seating) :
    (g.join u).1.Seating ∧
      ((g.join u).1 = g ∧ (∃ e, (g.join u).2 = .error e) ∨
        Takes g u (g.join u).1 ∧ ∃ i, (g.join u).2 = .ok i) := by
  unfold join
  by_cases hu : g.find u ≠ 0
  · rw [if_pos hu]
    exact ⟨hg, .inl ⟨rfl, _, rfl⟩⟩
  · rw [if_neg hu]
    cases hi : g.seats.findIdx? (fun s => s.state = .opened) with
    | none => exact ⟨hg, .inl ⟨rfl, _, rfl⟩⟩
    | some i =>
      obtain ⟨hlt, hopen, -⟩ := List.findIdx?_eq_some_iff_getElem.mp hi
      have hstate : g.seatState i = some .opened := by
        rw [seatState, List.getElem?_eq_getElem hlt]
        simpa using hopen
      have hi0 : i ≠ 0 := by
        rintro rfl
        rw [hg.dealer] at hstate
        cases hstate
      have htakes : Takes g u (g.modifySeat i fun s => { s with state := .playing u }) :=
        ⟨i, user_of_seatState hstate, not_seated_of_find hg (not_not.mp hu),
          users_modifySeat g i _ fun _ _ => rfl⟩
      refine ⟨⟨?_, ?_, htakes.distinct hg⟩, .inr ⟨htakes, i, rfl⟩⟩
      · exact (List.length_modify ..).trans hg.length_eq
      · exact (seatState_modifySeat hi0 _).trans hg.dealer

/-- A user whom `join` gives a seat is seated. -/
theorem seated_of_join {i : Nat} (hg : g.Seating) (h : (g.join u).2 = .ok i) :
    (g.join u).1.Seated u := by
  rcases (join_seating (u := u) hg).2 with ⟨-, e, he⟩ | ⟨⟨j, hj, -, husers⟩, -⟩
  · rw [h] at he
    cases he
  · unfold Seated
    rw [husers]
    apply List.mem_of_getElem?
    exact List.getElem?_set_self (List.getElem?_eq_some_iff.mp hj).1

theorem leave_releases (hg : g.Seating) : Releases g u (g.leave u).1 ∧ (g.leave u).1.Seating := by
  unfold leave
  by_cases hu : g.find u = 0
  · simp only [hu, if_true]
    exact ⟨.same rfl, hg⟩
  · simp only [hu, if_false]
    split
    · have hreleases : Releases g u (g.modifySeat (g.find u) fun s => { s with state := .opened }) :=
        .vacate _ (users_find hu) (users_modifySeat g _ _ fun _ _ => rfl)
      exact ⟨hreleases, hg.modifySeat hu hreleases⟩
    · rename_i u' hstate
      have huser : u' = u := by
        have h := user_of_seatState hstate
        rw [users_find hu] at h
        exact (Option.some.inj (Option.some.inj h)).symm
      subst huser
      have hset : (g.modifySeat (g.find u') fun s => { s with state := .leaving u' }.clear).users =
          g.users := by
        rw [users_modifySeat g _ _ (o := some u') fun _ _ => rfl]
        obtain ⟨hlt, hget⟩ := List.getElem?_eq_some_iff.mp (users_find hu)
        rw [← hget]
        exact List.set_getElem_self hlt
      exact ⟨.same hset, hg.modifySeat hu (u := u') (.same hset)⟩
    · exact ⟨.same rfl, hg⟩

theorem surrender_releases (hg : g.Seating) :
    Releases g u (g.surrender u).1 ∧ (g.surrender u).1.Seating ∧ ¬(g.surrender u).1.Seated u := by
  unfold surrender
  by_cases hu : g.find u = 0
  · simp only [hu, if_true]
    exact ⟨.same rfl, hg, not_seated_of_find hg hu⟩
  · simp only [hu, if_false]
    have hset := users_modifySeat g (g.find u) (fun s => { s with state := .opened })
      (o := none) fun _ _ => rfl
    have hreleases : Releases g u (g.modifySeat (g.find u) fun s => { s with state := .opened }) :=
      .vacate _ (users_find hu) hset
    exact ⟨hreleases, hg.modifySeat hu hreleases, not_seated_vacate hg (users_find hu) hset⟩

theorem bet_releases (hg : g.Seating) : Releases g u (g.bet u).1 ∧ (g.bet u).1.Seating := by
  unfold bet
  by_cases hu : g.find u = 0
  · simp only [hu, if_true]
    exact ⟨.same rfl, hg⟩
  · simp only [hu, if_false]
    have hsame := users_modifySeat_eq g (g.find u)
      (fun s => { s with wager := toInt (s.wager + 5), chips := toInt (s.chips - 5) }) fun _ => rfl
    split
    · exact ⟨.same hsame, hg.modifySeat hu (u := u) (.same hsame)⟩
    · exact ⟨.same hsame, hg.modifySeat hu (u := u) (.same hsame)⟩
    · exact ⟨.same rfl, hg⟩

theorem dealOne_releases (hg : g.Seating) : Releases g u g.dealOne.1 ∧ g.dealOne.1.Seating := by
  rcases g.dealOne_cases with ⟨-, heq⟩ | ⟨seat, hseat, ⟨-, heq⟩ | ⟨hand, -, heq⟩⟩
  · rw [heq]
    exact ⟨.same rfl, hg⟩
  · rw [heq]
    exact ⟨.same rfl, hg.length_eq, hg.dealer, hg.distinct⟩
  · rw [heq]
    have hstate : ∀ i : Nat, ((g.seats.set g.turn { seat with hand })[i]?).map Seat.state =
        (g.seats[i]?).map Seat.state := by
      intro i
      rw [List.getElem?_set]
      by_cases hi : g.turn = i
      · subst hi
        rw [if_pos rfl, if_pos (List.getElem?_eq_some_iff.mp hseat).1, hseat]
        rfl
      · rw [if_neg hi]
    have husers : (g.seats.set g.turn { seat with hand }).map Seat.user = g.users := by
      apply List.ext_getElem?
      intro i
      have h := congrArg (Option.map SeatState.user) (hstate i)
      rw [Option.map_map, Option.map_map] at h
      rw [List.getElem?_map, users_getElem?]
      exact h
    refine ⟨.same husers, ?_⟩
    exact hg.ofReleases (u := u) (.same husers) (List.length_set ..) (hstate 0)

/-! ### Refusals

The game is as it was when an operation reports an error. -/

section refused
variable {e : Error}

theorem join_error (h : (g.join u).2 = .error e) : (g.join u).1 = g := by
  unfold join at h ⊢
  split at h
  · rename_i hu
    rw [if_pos hu]
  · rename_i hu
    rw [if_neg hu]
    split at h
    · cases h
    · rfl

theorem leave_error (h : (g.leave u).2 = .error e) : (g.leave u).1 = g := by
  unfold leave at h ⊢
  simp only at h ⊢
  split at h
  · rename_i hu
    rw [if_pos hu]
  · rename_i hu
    rw [if_neg hu]
    split at h
    · cases h
    · cases h
    · rfl

theorem bet_error (h : (g.bet u).2 = .error e) : (g.bet u).1 = g := by
  unfold bet at h ⊢
  simp only at h ⊢
  split at h
  · rename_i hu
    rw [if_pos hu]
  · rename_i hu
    rw [if_neg hu]
    split at h
    · cases h
    · cases h
    · rfl

theorem surrender_failed (h : (g.surrender u).2 ≠ 1) : (g.surrender u).1 = g := by
  unfold surrender at h ⊢
  simp only at h ⊢
  split at h
  · rename_i hu
    rw [if_pos hu]
  · exact absurd rfl h

/-- A deal that throws has changed the shoe and the turn only. -/
theorem dealOne_failed (h : g.dealOne.2.isOk = false) :
    g.dealOne.1.s = g.s ∧ g.dealOne.1.seats = g.seats := by
  rcases g.dealOne_cases with ⟨-, heq⟩ | ⟨seat, -, ⟨-, heq⟩ | ⟨hand, -, heq⟩⟩
  · rw [heq]
    exact ⟨rfl, rfl⟩
  · rw [heq]
    exact ⟨rfl, rfl⟩
  · rw [heq] at h
    cases h

end refused

end operations

end Game

end BeastLounge.Blackjack
