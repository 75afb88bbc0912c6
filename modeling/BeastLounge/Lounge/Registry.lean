import BeastLounge.Lounge.World

/-!
# The registry of channels

`channel_list_impl` keeps each channel at the place of its id in a vector. The ids come from two
sources: each class with a single object has a reserved one, and the others count from 1001. The
counter is a plain number here: the vector has an element for every id, so there is no memory for a
counter anywhere near 2^64.

Every room takes the id 2. When an `insert` finds a channel in its place, the assignment destroys
that channel while the lock is held, and its destructor calls `erase`, which waits for the lock; so
the registry is blocked.
-/

namespace BeastLounge.Lounge

open Theory

/-- A `channel` as the registry has it. -/
structure Entry where
  uid : Nat
  cid : Nat
  name : String
deriving DecidableEq

structure ChannelList where
  /-- `v_` -/
  v : List (Option Entry) := [none]
  nextUid : Nat := 1000
  nextCid : Nat := 1000
  /-- The channels inserted so far, and what was in the place of each. -/
  inserted : List Entry := []
  found : List (Option Entry) := []
  /-- The lock is held for good. -/
  blocked : Bool := false
deriving DecidableEq

/-- The constructors of the repository's channels; the last is for any class that leaves the id to
`next_cid`. -/
inductive Creation
  | system
  | room (name : String)
  | table
  | unreserved (name : String)
deriving DecidableEq

namespace ChannelList

def «at» (l : ChannelList) (cid : Nat) : Option Entry :=
  if h : cid < l.v.length then l.v[cid] else none

def insert (l : ChannelList) (c : Entry) : ChannelList :=
  -- `resize` appends empty elements
  let v := l.v ++ List.replicate (max (c.cid + 1) l.v.length - l.v.length) none
  { l with
    v := v.set c.cid (some c)
    inserted := l.inserted ++ [c]
    found := l.found ++ [v.getD c.cid none]
    blocked := (v.getD c.cid none).isSome }

/-- `channel(reserved_cid, name, list)`, and the insertion of the channel. -/
def insertReserved (l : ChannelList) (reservedCid : Nat) (name : String) : ChannelList :=
  { l with nextUid := l.nextUid + 1 }.insert ⟨l.nextUid + 1, reservedCid, name⟩

/-- `channel(name, list)`, and the insertion of the channel. -/
def insertNext (l : ChannelList) (name : String) : ChannelList :=
  { l with nextUid := l.nextUid + 1, nextCid := l.nextCid + 1 }.insert
    ⟨l.nextUid + 1, l.nextCid + 1, name⟩

def create (l : ChannelList) : Creation → ChannelList
  | .system => l.insertReserved 1 "System"
  | .room name => l.insertReserved 2 name
  | .table => l.insertReserved 3 "Blackjack"
  | .unreserved name => l.insertNext name

def step (l : ChannelList) (k : Creation) : Option ChannelList :=
  if l.blocked then none else some (l.create k)

/-- The list as its constructor leaves it, which makes the first room. -/
def new : ChannelList := ({ : ChannelList }).create (.room "General")

end ChannelList

/-! ### The property -/

structure Unique (l : ChannelList) : Prop where
  distinct : (l.inserted.map (·.cid)).Nodup
  /-- `BOOST_ASSERT(v_[cid].c == nullptr)` -/
  vacant : ∀ c ∈ l.found, c = none
  at_cid : ∀ c ∈ l.inserted, l.at c.cid = some c
  at_other : ∀ cid, (∀ c ∈ l.inserted, c.cid ≠ cid) → l.at cid = none

/-- The number a class has for its channels. -/
def Creation.reserved : Creation → Option Nat
  | .system => some 1
  | .room _ => some 2
  | .table => some 3
  | .unreserved _ => none

/-- No two of the channels, with the room General among them, have the same reserved number. -/
def ReservedOnce (ks : List Creation) : Prop :=
  ((.room "General" :: ks).filterMap Creation.reserved).Nodup

instance (ks : List Creation) : Decidable (ReservedOnce ks) := List.nodupDecidable _

/-! ### Insertion -/

section insertion
variable {l : ChannelList} {c : Entry} {k : Creation} {ks : List Creation}

theorem at_eq_getD (l : ChannelList) (cid : Nat) : l.at cid = l.v.getD cid none := by
  unfold ChannelList.at
  rw [List.getD_eq_getElem?_getD]
  split
  · rename_i h
    rw [List.getElem?_eq_getElem h, Option.getD_some]
  · rename_i h
    rw [List.getElem?_eq_none (Nat.le_of_not_lt h), Option.getD_none]

/-- Growing the vector changes nothing. -/
theorem getD_resize (v : List (Option Entry)) (n cid : Nat) :
    (v ++ List.replicate n none).getD cid none = v.getD cid none := by
  simp only [List.getD_eq_getElem?_getD, List.getElem?_append, List.getElem?_replicate]
  split
  · rfl
  · rename_i h
    rw [List.getElem?_eq_none (Nat.le_of_not_lt h)]
    split <;> rfl

theorem at_insert (l : ChannelList) (c : Entry) (cid : Nat) :
    (l.insert c).at cid = if cid = c.cid then some c else l.at cid := by
  have hlen : c.cid < (l.v ++ List.replicate (max (c.cid + 1) l.v.length - l.v.length)
      (none : Option Entry)).length := by
    rw [List.length_append, List.length_replicate]
    omega
  rw [at_eq_getD, at_eq_getD]
  unfold ChannelList.insert
  dsimp only
  rw [List.getD_eq_getElem?_getD, List.getElem?_set]
  by_cases hcid : cid = c.cid
  · rw [if_pos hcid.symm, if_pos hcid, if_pos hlen]
    rfl
  · rw [if_neg (Ne.symm hcid), if_neg hcid, ← List.getD_eq_getElem?_getD, getD_resize]

theorem found_insert (l : ChannelList) (c : Entry) :
    (l.insert c).found = l.found ++ [l.at c.cid] ∧ (l.insert c).blocked = (l.at c.cid).isSome := by
  rw [at_eq_getD]
  unfold ChannelList.insert
  dsimp only
  rw [getD_resize]
  exact ⟨rfl, rfl⟩

/-- A channel may be inserted exactly where there is none. -/
theorem unique_insert_iff (h : Unique l) : Unique (l.insert c) ↔ l.at c.cid = none := by
  refine ⟨fun hnew => hnew.vacant _ (by rw [(found_insert l c).1]; simp), fun hvacant => ?_⟩
  have hfresh : ∀ x ∈ l.inserted, x.cid ≠ c.cid := by
    intro x hx hcid
    rw [← hcid, h.at_cid x hx] at hvacant
    contradiction
  refine ⟨?_, ?_, ?_, ?_⟩
  · show ((l.inserted ++ [c]).map (·.cid)).Nodup
    rw [List.map_append, List.map_singleton, ← List.concat_eq_append, List.nodup_concat]
    refine ⟨fun hmem => ?_, h.distinct⟩
    obtain ⟨x, hx, hcid⟩ := List.mem_map.mp hmem
    exact hfresh x hx hcid
  · rw [(found_insert l c).1]
    intro x hx
    rcases List.mem_append.mp hx with hx | hx
    · exact h.vacant x hx
    · rw [List.mem_singleton.mp hx, hvacant]
  · intro x hx
    rw [at_insert]
    rcases List.mem_append.mp hx with hx | hx
    · rw [if_neg (hfresh x hx)]
      exact h.at_cid x hx
    · rw [List.mem_singleton.mp hx, if_pos rfl]
  · intro cid hcid
    rw [at_insert, if_neg fun heq => hcid c (by simp [ChannelList.insert]) heq.symm]
    exact h.at_other cid fun x hx => hcid x (by simp [ChannelList.insert, hx])

/-! ### Which ids are taken -/

/-- The ids taken are the reserved ones in `rs` and those the counter has passed. -/
structure Registered (rs : List Nat) (l : ChannelList) : Prop where
  unique : Unique l
  free : l.blocked = false
  start : 1000 ≤ l.nextCid
  reserved : rs.Nodup ∧ ∀ cid ∈ rs, cid ≤ 3
  taken : ∀ cid, (∃ c ∈ l.inserted, c.cid = cid) ↔ cid ∈ rs ∨ 1000 < cid ∧ cid ≤ l.nextCid

theorem registered_empty : Registered [] {} := by
  refine ⟨⟨by decide, by decide, by decide, fun cid _ => ?_⟩, rfl, le_refl _, by decide, fun cid => ?_⟩
  · rw [at_eq_getD]
    cases cid <;> rfl
  · simp

variable {rs : List Nat}

/-- There is no channel at an id that is not taken. -/
theorem Registered.vacant_iff (h : Registered rs l) (cid : Nat) :
    l.at cid = none ↔ ¬(cid ∈ rs ∨ 1000 < cid ∧ cid ≤ l.nextCid) := by
  rw [← h.taken cid]
  constructor
  · rintro hnone ⟨c, hc, rfl⟩
    rw [h.unique.at_cid c hc] at hnone
    contradiction
  · intro hno
    exact h.unique.at_other cid fun c hc heq => hno ⟨c, hc, heq⟩

theorem mem_inserted_insert (l : ChannelList) (c : Entry) (cid : Nat) :
    (∃ x ∈ (l.insert c).inserted, x.cid = cid) ↔ (∃ x ∈ l.inserted, x.cid = cid) ∨ c.cid = cid := by
  simp [ChannelList.insert, or_and_right, exists_or]

/-- The insertion of a channel whose id is not taken. -/
theorem registered_insert {rs' : List Nat} {uid next : Nat} (h : Registered rs l)
    (hvacant : l.at c.cid = none) (hstart : l.nextCid ≤ next)
    (hreserved : rs'.Nodup ∧ ∀ cid ∈ rs', cid ≤ 3)
    (htaken : ∀ cid, (cid ∈ rs ∨ 1000 < cid ∧ cid ≤ l.nextCid) ∨ c.cid = cid ↔
      cid ∈ rs' ∨ 1000 < cid ∧ cid ≤ next) :
    Registered rs' ({ l with nextUid := uid, nextCid := next }.insert c) := by
  have hunique : Unique { l with nextUid := uid, nextCid := next } :=
    ⟨h.unique.distinct, h.unique.vacant, h.unique.at_cid, h.unique.at_other⟩
  refine ⟨(unique_insert_iff hunique).mpr hvacant, ?_, le_trans h.start hstart, hreserved,
    fun cid => ?_⟩
  · rw [(found_insert _ c).2]
    exact congrArg Option.isSome hvacant
  · refine (mem_inserted_insert _ c cid).trans (Iff.trans ?_ (htaken cid))
    exact or_congr_left (h.taken cid)

theorem nodup_snoc_iff {n : Nat} (h : rs.Nodup) : (rs ++ [n]).Nodup ↔ n ∉ rs := by
  rw [← List.concat_eq_append, List.nodup_concat]
  exact and_iff_left h

theorem registered_insertReserved {cid : Nat} {name : String} (h : Registered rs l) (hcid : cid ≤ 3) :
    (Unique (l.insertReserved cid name) ↔ (rs ++ [cid]).Nodup) ∧
      ((rs ++ [cid]).Nodup → Registered (rs ++ [cid]) (l.insertReserved cid name)) := by
  have hvacant : l.at cid = none ↔ (rs ++ [cid]).Nodup := by
    rw [h.vacant_iff, nodup_snoc_iff h.reserved.1]
    exact not_congr (or_iff_left (by omega))
  have hunique : Unique { l with nextUid := l.nextUid + 1 } :=
    ⟨h.unique.distinct, h.unique.vacant, h.unique.at_cid, h.unique.at_other⟩
  refine ⟨(unique_insert_iff hunique).trans hvacant, fun hnodup => ?_⟩
  refine registered_insert h (hvacant.mpr hnodup) (le_refl _) ⟨hnodup, fun x hx => ?_⟩ fun x => ?_
  · rcases List.mem_append.mp hx with hx | hx
    · exact h.reserved.2 x hx
    · rw [List.mem_singleton.mp hx]
      exact hcid
  · rw [List.mem_append, List.mem_singleton, or_right_comm, eq_comm]

theorem registered_insertNext {name : String} (h : Registered rs l) :
    Registered rs (l.insertNext name) := by
  have hstart := h.start
  refine registered_insert h ?_ (Nat.le_succ _) h.reserved fun cid => ?_
  · rw [h.vacant_iff]
    rintro (hmem | ⟨-, hle⟩)
    · have hsmall := h.reserved.2 _ hmem
      dsimp only at hsmall
      omega
    · exact Nat.not_succ_le_self _ hle
  · rw [or_assoc]
    refine or_congr_right ?_
    dsimp only
    omega

/-- A creation keeps the ids unique exactly when its reserved number is new. -/
theorem registered_create (h : Registered rs l) (k : Creation) :
    (Unique (l.create k) ↔ (rs ++ k.reserved.toList).Nodup) ∧
      ((rs ++ k.reserved.toList).Nodup → Registered (rs ++ k.reserved.toList) (l.create k)) := by
  cases k with
  | system => exact registered_insertReserved h (by decide)
  | room name => exact registered_insertReserved h (by decide)
  | table => exact registered_insertReserved h (by decide)
  | unreserved name =>
    have hnext : Registered rs (l.insertNext name) := registered_insertNext h
    rw [show Creation.reserved (.unreserved name) = none from rfl, Option.toList_none, List.append_nil]
    exact ⟨iff_of_true hnext.unique h.reserved.1, fun _ => hnext⟩

end insertion

/-! ### Runs -/

section run
variable {l : ChannelList} {tr : List (ChannelList × Creation)}

theorem registered_new : Registered [2] .new :=
  (registered_create registered_empty (.room "General")).2 (by decide)

theorem registered_run (hrun : Run ChannelList.step (· = .new) tr l) :
    (AllStates Unique tr l ↔ ReservedOnce (tr.map Prod.snd)) ∧
      (ReservedOnce (tr.map Prod.snd) →
        Registered ((.room "General" :: tr.map Prod.snd).filterMap Creation.reserved) l) := by
  induction hrun with
  | nil h =>
    subst h
    exact ⟨iff_of_true (allStates_nil.mpr registered_new.unique) (by decide), fun _ => registered_new⟩
  | @snoc tr l t k hrun hs ih =>
    have hsnoc : (.room "General" :: (tr ++ [(l, k)]).map Prod.snd).filterMap Creation.reserved =
        (.room "General" :: tr.map Prod.snd).filterMap Creation.reserved ++ k.reserved.toList := by
      rw [List.map_append, ← List.cons_append, List.filterMap_append, List.map_singleton]
      congr 1
    have hearlier : ReservedOnce ((tr ++ [(l, k)]).map Prod.snd) → ReservedOnce (tr.map Prod.snd) := by
      unfold ReservedOnce
      rw [hsnoc]
      exact List.Nodup.of_append_left
    have hcreate : ReservedOnce (tr.map Prod.snd) →
        (Unique t ↔ ReservedOnce ((tr ++ [(l, k)]).map Prod.snd)) ∧
          (ReservedOnce ((tr ++ [(l, k)]).map Prod.snd) → Registered
            ((.room "General" :: (tr ++ [(l, k)]).map Prod.snd).filterMap Creation.reserved) t) := by
      intro honce
      have hreg := ih.2 honce
      have ht : t = l.create k := by
        unfold ChannelList.step at hs
        rw [hreg.free] at hs
        exact (Option.some.inj hs).symm
      unfold ReservedOnce
      rw [hsnoc, ht]
      exact registered_create hreg k
    refine ⟨?_, fun honce => (hcreate (hearlier honce)).2 honce⟩
    rw [allStates_snoc, ih.1]
    constructor
    · rintro ⟨honce, ht⟩
      exact (hcreate honce).1.mp ht
    · intro honce
      exact ⟨hearlier honce, (hcreate (hearlier honce)).1.mpr honce⟩

/-- The registry never replaces a channel exactly when no class with a reserved number makes two. -/
theorem unique_channels_iff (hrun : Run ChannelList.step (· = .new) tr l) :
    AllStates Unique tr l ↔ ReservedOnce (tr.map Prod.snd) :=
  (registered_run hrun).1

end run

/-- The server's own channels and two with ids of the counter. -/
def serverAndTwo : List Creation := [.system, .table, .unreserved "a", .unreserved "b"]

theorem serverAndTwo_runs : (execute ChannelList.step serverAndTwo [] .new).any
    (fun r => r.2.at 1002 = some ⟨1005, 1002, "b"⟩) := by
  decide +kernel

/-- The second of the two keeps its place. -/
theorem unique_channels_serverAndTwo : ∃ (tr : List (ChannelList × Creation)) (l : ChannelList),
    AllStates Unique tr l ∧ tr.map Prod.snd = serverAndTwo ∧
      l.at 1002 = some ⟨1005, 1002, "b"⟩ := by
  obtain ⟨⟨tr, l⟩, hr, hat⟩ := (Option.any_eq_true _ _).mp serverAndTwo_runs
  have hlabels : tr.map Prod.snd = serverAndTwo := labels_execute serverAndTwo hr
  have hrun : Run ChannelList.step (· = .new) tr l := Run.execute serverAndTwo (.nil rfl) hr
  refine ⟨tr, l, (unique_channels_iff hrun).mpr ?_, hlabels, of_decide_eq_true hat⟩
  rw [hlabels]
  decide

/-- A second room takes the place of General, and the registry is blocked. -/
theorem make_room_replaces_general : ¬∀ (tr : List (ChannelList × Creation)) (l : ChannelList),
    Run ChannelList.step (· = .new) tr l → AllStates Unique tr l := by
  intro h
  have hrun : Run ChannelList.step (· = .new) [(.new, .room "Lobby")]
      (ChannelList.new.create (.room "Lobby")) :=
    Run.execute [.room "Lobby"] (.nil rfl) rfl
  have hunique := (h _ _ hrun).2
  exact absurd hunique.distinct (by decide)

end BeastLounge.Lounge
