import BeastLounge.Theory.Runs
import BeastLounge.Theory.Ledger
import BeastLounge.Expected.Members

/-!
# The lifetimes in `expected<T>`

In a program that constructs, assigns and destroys objects of type `expected<T>` each has one
alternative alive, which `v_` names, and each `T` is destroyed once, exactly when no step assigns a
constant `T` to an object with a value, or to an object something in itself that is destroyed by then.
-/

namespace BeastLounge.Expected

open Theory

/-! ### The property -/

section property
variable {K O V : Type*} [DecidableEq K] [DecidableEq O] {moved : V → V}
  {conv : Option (Conversion V)}

/-- Each object has one alternative, and each `T` made is in one storage or was destroyed once. -/
structure Mem.Lives (m : Mem K O V) : Prop where
  tagged : ∀ k, m.Tagged k
  ledger : Ledger m.hold m.next m.destroyed

/-- The program is not undefined, and its memory is in order. -/
def InOrder (s : Option (Mem K O V)) : Prop := ∃ m, s = some m ∧ m.Lives

/-- The source of a copy assignment. -/
def Source.copied (conv : Option (Conversion V)) : Source K O V → Option K
  | .expected k => some k
  | .expectedLvalue k => if conv.isNone then some k else none
  | _ => none

/-- A copy assignment that throws leaves `invalid_argument`. -/
def ThrowLeavesError (moved : V → V) (conv : Option (Conversion V)) (s : Option (Mem K O V))
    (op : Op K O V) : Prop :=
  ∀ m m' self x other, s = some m → op = .assign self x true → x.copied conv = some other →
    m.hasValue other → step moved conv s op = some (some m') →
    m'.cells self = some ⟨.ec invalidArgument, false⟩

/-- The target is not what it is assigned from, unless it holds an error, and a constant `T` is
assigned only to an error. A `T` that is constructed from the target itself does not ask for what is
destroyed. -/
def Source.Careful (conv : Option (Conversion V)) (m : Mem K O V) (self : K) : Source K O V → Prop
  | .lvalue p | .rvalue p | .view p _ => p ≠ .inside self
  | .constLvalue _ => m.hasValue self = false
  | .expected k | .expectedRvalue k => k = self → m.hasValue self = false
  | .expectedLvalue k => k = self →
    match conv with
    | none => m.hasValue self = false
    | some conv => (conv.ofEnded (m.hasValue self)).isSome
  | .other _ | .error _ => True

def Careful (conv : Option (Conversion V)) (s : Option (Mem K O V)) : Op K O V → Prop
  | .assign self x _ => ∀ m, s = some m → x.Careful conv m self
  | _ => True

end property

namespace Mem

section memory
variable {K O V : Type*} [DecidableEq K] {m : Mem K O V} {self k : K} {p : Place K O} {x : V}
  {c : Cell V} {code : ErrorCode}

theorem hold_put : (m.put self c).hold = Function.update m.hold self c.storage.id := by
  funext k
  by_cases hk : k = self
  · subst hk
    rw [hold_eq cells_put_self, Function.update_self]
  · rw [Function.update_of_ne hk]
    exact congrArg (Option.bind · _) (cells_put_of_ne hk)

theorem tagged_put (h : ∀ k, k ≠ self → m.Tagged k) (hc : c.storage.alternative = some c.v) (k : K) :
    (m.put self c).Tagged k := by
  by_cases hk : k = self
  · subst hk
    intro c' hc'
    rw [cells_put_self] at hc'
    obtain rfl := Option.some.inj hc'
    exact hc
  · intro c' hc'
    rw [cells_put_of_ne hk] at hc'
    exact h k hk c' hc'

theorem ledger_without (h : m.Lives) :
    Ledger (Function.update m.hold self none) m.next (m.without self).destroyed := by
  unfold without
  cases hhold : m.hold self with
  | none =>
    rw [← hhold, Function.update_eq_self, hhold, Option.toList_none, List.append_nil]
    exact h.ledger
  | some id => exact h.ledger.remove hhold

/-- A `T` in place of the old one. -/
theorem lives_fill (h : m.Lives) : ((m.without self).fill self x true).Lives := by
  refine ⟨tagged_put (fun k _ => h.tagged k) rfl, ?_⟩
  have hledger : Ledger (Function.update m.hold self none) m.next (m.without self).destroyed :=
    ledger_without h
  have hmake := hledger.make_iff (k := self)
  rw [Function.update_idem, Function.update_self] at hmake
  show Ledger ((m.without self).put self ⟨.t m.next x, true⟩).hold _ _
  rw [hold_put]
  exact hmake.mpr rfl

/-- An error in its place. -/
theorem lives_put (h : m.Lives) : ((m.without self).put self ⟨.ec code, false⟩).Lives := by
  refine ⟨tagged_put (fun k _ => h.tagged k) rfl, ?_⟩
  rw [hold_put]
  exact ledger_without h

/-- A `T` made where one is alive replaces it without its destruction. -/
theorem lives_fill_iff (h : m.Lives) : (m.fill self x true).Lives ↔ m.hold self = none := by
  have hhold : (m.fill self x true).hold = Function.update m.hold self (some m.next) := hold_put
  rw [← h.ledger.make_iff, ← hhold]
  exact ⟨fun hnew => hnew.ledger, fun hledger => ⟨tagged_put (fun k _ => h.tagged k) rfl, hledger⟩⟩

/-- The memory without an object that was destroyed. -/
theorem lives_free (h : m.Lives) : ((m.without self).free self).Lives := by
  refine ⟨fun k c hc => ?_, ?_⟩
  · by_cases hk : k = self
    · rw [hk, cells_free_self] at hc
      contradiction
    · rw [cells_free_of_ne hk] at hc
      exact h.tagged k c hc
  · have hhold : ((m.without self).free self).hold = Function.update m.hold self none := by
      funext k
      unfold hold
      by_cases hk : k = self
      · rw [hk, cells_free_self, Function.update_self]
        rfl
      · rw [cells_free_of_ne hk, Function.update_of_ne hk]
        rfl
    rw [hhold]
    exact ledger_without h

variable [DecidableEq O]

theorem hold_write : (m.write x p).hold = m.hold := by
  cases p with
  | object o => rfl
  | inside k =>
    funext j
    show (Function.update m.cells k _ j).bind _ = (m.cells j).bind _
    by_cases hj : j = k
    · subst hj
      rw [Function.update_self, Option.bind_map]
      cases m.cells j with
      | none => rfl
      | some c =>
        obtain ⟨storage, v⟩ := c
        cases storage <;> rfl
    · rw [Function.update_of_ne hj]

theorem tagged_write (h : m.Tagged k) : (m.write x p).Tagged k := by
  cases p with
  | object o => exact h
  | inside j =>
    intro c hc
    by_cases hk : k = j
    · subst hk
      have hcell : (m.write x (.inside k)).cells k =
          (m.cells k).map fun c => { c with storage := c.storage.become x } := Function.update_self ..
      rw [hcell] at hc
      obtain ⟨⟨storage, v⟩, hold, rfl⟩ := Option.map_eq_some_iff.mp hc
      rw [← h _ hold]
      cases storage <;> rfl
    · rw [cells_write_of_ne fun heq => hk (Place.inside.inj heq).symm] at hc
      exact h c hc

/-- A `T` that is moved from is still alive. -/
theorem lives_write (h : m.Lives) : (m.write x p).Lives := by
  refine ⟨fun k => tagged_write (h.tagged k), ?_⟩
  rw [hold_write]
  cases p <;> exact h.ledger

theorem without_write : (m.without self).write x p = (m.write x p).without self := by
  unfold without
  rw [hold_write]
  cases p <;> rfl

end memory

/-! ### One step -/

section steps
variable {K O V : Type*} {moved : V → V} {conv : Option (Conversion V)} {m : Mem K O V} {self k : K}
  {p : Place K O} {c : Cell V}

theorem inOrder_some : InOrder (some m) ↔ m.Lives :=
  ⟨fun ⟨_, hm, hlives⟩ => Option.some.inj hm ▸ hlives, fun h => ⟨m, rfl, h⟩⟩

theorem not_inOrder_none : ¬InOrder (none : Option (Mem K O V)) := by
  rintro ⟨m, hm, -⟩
  contradiction

variable [DecidableEq K]

theorem lives_destruct (h : m.Lives) (hc : m.cells self = some c) : InOrder (m.destruct self) := by
  obtain ⟨storage, -, -, hdestroy⟩ := destroy_eq (h.tagged self) hc
  unfold destruct
  rw [hdestroy, Option.map_some, free_put, inOrder_some]
  exact lives_free h

variable [DecidableEq O]

/-- `U&&` is assigned from what is not in the target itself. -/
theorem lives_assignFrom_iff {made after : V → V} (h : m.Lives) (hc : m.cells self = some c)
    (hp : (m.read p).isSome) : InOrder (m.assignFrom self p made after) ↔ p ≠ .inside self := by
  by_cases hself : p = .inside self
  · rw [hself, assignFrom_inside_self (h.tagged self) hc]
    exact iff_of_false not_inOrder_none fun hne => hne rfl
  · obtain ⟨x, hx⟩ := Option.isSome_iff_exists.mp hp
    rw [assignFrom_eq (h.tagged self) hc hself hx, without_write]
    exact iff_of_true (inOrder_some.mpr (lives_fill (lives_write h))) hself

/-- A constant is assigned where there is an error. -/
theorem lives_assignConst_iff (h : m.Lives) (hc : m.cells self = some c) (hp : (m.read p).isSome) :
    InOrder (m.assignConst self p) ↔ m.hasValue self = false := by
  by_cases hself : p = .inside self
  · rw [hself, assignConst_inside_self]
    rw [hself] at hp
    refine iff_of_false not_inOrder_none fun hv => ?_
    rcases (h.tagged self).value_or_error hc with ⟨x, hv', -⟩ | ⟨code, -, -, hnone⟩
    · rw [hv] at hv'
      contradiction
    · rw [hnone] at hp
      contradiction
  · obtain ⟨x, hx⟩ := Option.isSome_iff_exists.mp hp
    rw [assignConst_eq hc hself hx, inOrder_some, lives_fill_iff h,
      hold_eq_none_iff (h.tagged self) hc]

theorem lives_assignMove_iff (h : m.Lives) (hc : m.cells self = some c) (hk : (m.cells k).isSome) :
    InOrder (m.assignMove moved self k) ↔ (k = self → m.hasValue self = false) := by
  obtain ⟨c', hc'⟩ := Option.isSome_iff_exists.mp hk
  rcases (h.tagged k).value_or_error hc' with ⟨x, hv, hx⟩ | ⟨code, hv, he, -⟩
  · by_cases hself : k = self
    · subst hself
      rw [assignMove_self (h.tagged k) hc hv, hv]
      exact iff_of_false not_inOrder_none fun hno => Bool.false_ne_true (hno rfl).symm
    · rw [assignMove_value (h.tagged self) hc hself hv hx, without_write]
      exact iff_of_true (inOrder_some.mpr (lives_fill (lives_write h))) fun heq => absurd heq hself
  · rw [assignMove_error (h.tagged self) hc hv he]
    exact iff_of_true (inOrder_some.mpr (lives_put h)) fun heq => heq ▸ hv

theorem lives_assignCopy_iff {throws : Bool} (h : m.Lives) (hc : m.cells self = some c)
    (hk : (m.cells k).isSome) :
    InOrder (m.assignCopy self k throws) ↔ (k = self → m.hasValue self = false) := by
  obtain ⟨c', hc'⟩ := Option.isSome_iff_exists.mp hk
  rcases (h.tagged k).value_or_error hc' with ⟨x, hv, hx⟩ | ⟨code, hv, he, -⟩
  · by_cases hself : k = self
    · subst hself
      rw [assignCopy_self (h.tagged k) hc hv, hv]
      exact iff_of_false not_inOrder_none fun hno => Bool.false_ne_true (hno rfl).symm
    · obtain ⟨hcopies, hthrows⟩ := assignCopy_value (h.tagged self) hc hself hv hx
      refine iff_of_true ?_ fun heq => absurd heq hself
      cases throws with
      | false => exact hcopies ▸ inOrder_some.mpr (lives_fill h)
      | true => exact hthrows ▸ inOrder_some.mpr (lives_put h)
  · rw [assignCopy_error (h.tagged self) hc hv he]
    exact iff_of_true (inOrder_some.mpr (lives_put h)) fun heq => heq ▸ hv

/-- A `T` is constructed from an object that is alive, or from no more than its `v_`. -/
theorem lives_assignConverted_iff {conv : Conversion V} (h : m.Lives) (hc : m.cells self = some c)
    (hk : (m.cells k).isSome) : InOrder (m.assignConverted conv self k) ↔
      (k = self → (conv.ofEnded (m.hasValue self)).isSome) := by
  obtain ⟨c', hc'⟩ := Option.isSome_iff_exists.mp hk
  by_cases hself : k = self
  · subst hself
    rw [assignConverted_self (h.tagged k) hc]
    cases conv.ofEnded (m.hasValue k) with
    | none => exact iff_of_false not_inOrder_none fun hno => Bool.false_ne_true (hno rfl)
    | some x => exact iff_of_true (inOrder_some.mpr (lives_fill h)) fun _ => rfl
  · refine iff_of_true ?_ fun heq => absurd heq hself
    rcases (h.tagged k).value_or_error hc' with ⟨x, hv, hx⟩ | ⟨code, hv, he, -⟩
    · rw [assignConverted_value (h.tagged self) hc hself hv hx, without_write]
      exact inOrder_some.mpr (lives_fill (lives_write h))
    · rw [assignConverted_error (h.tagged self) hc hself hv he]
      exact inOrder_some.mpr (lives_fill h)

theorem lives_assign_iff {throws : Bool} {x : Source K O V} (h : m.Lives)
    (hc : m.cells self = some c) (hx : x.wellFormed m) :
    InOrder (m.assign moved conv self throws x) ↔ x.Careful conv m self := by
  cases x with
  | lvalue p => exact lives_assignFrom_iff h hc hx
  | constLvalue p => exact lives_assignConst_iff h hc hx
  | rvalue p => exact lives_assignFrom_iff h hc hx
  | view p made => exact lives_assignFrom_iff h hc hx
  | other x =>
    rw [Mem.assign, assignOther_eq (h.tagged self) hc]
    exact iff_of_true (inOrder_some.mpr (lives_fill h)) trivial
  | expected k => exact lives_assignCopy_iff h hc hx
  | expectedLvalue k =>
    cases conv with
    | none => exact lives_assignCopy_iff h hc hx
    | some conv => exact lives_assignConverted_iff h hc hx
  | expectedRvalue k => exact lives_assignMove_iff h hc hx
  | error code =>
    rw [Mem.assign, assignError_eq (h.tagged self) hc]
    exact iff_of_true (inOrder_some.mpr (lives_put h)) trivial

theorem lives_ofT {made after : V → V} (h : m.Lives) (hself : m.cells self = none)
    (hp : (m.read p).isSome) :
    InOrder ((m.allocate self true).newT self p made after) := by
  obtain ⟨x, hx⟩ := Option.isSome_iff_exists.mp hp
  have hne : p ≠ .inside self := by
    rintro rfl
    rw [show m.read (.inside self) = (m.cells self).bind _ from rfl, hself] at hx
    contradiction
  have hallocate : m.allocate self true = m.put self ⟨.raw, true⟩ := rfl
  rw [hallocate, newT_put hne hx, inOrder_some]
  refine (lives_fill_iff (lives_write h)).mpr ?_
  rw [hold_write]
  unfold hold
  rw [hself, Option.bind_none]

/-- A constructor that is given an object. -/
theorem lives_construct {other : K} (h : m.Lives) (hself : m.cells self = none)
    (hother : (m.cells other).isSome) :
    InOrder (m.copyConstruct self other) ∧ InOrder ((m.allocate self false).move moved self other) := by
  obtain ⟨c, hc⟩ := Option.isSome_iff_exists.mp hother
  have hne : other ≠ self := by
    rintro rfl
    rw [hself] at hc
    contradiction
  have hallocate : m.allocate self false = m.put self ⟨.raw, false⟩ := rfl
  have hlives : m.without self = m := without_of_none hself
  rcases (h.tagged other).value_or_error hc with ⟨x, hv, hx⟩ | ⟨code, hv, he, -⟩
  · rw [copyConstruct_value hne hv hx, hallocate, move_value hne hv hx, inOrder_some, inOrder_some]
    constructor
    · exact hlives ▸ lives_fill h
    · rw [← hlives, without_write]
      exact lives_fill (lives_write h)
  · rw [copyConstruct_error hne hv he, hallocate,
      move_error ((hasValue_put hne).trans hv) ((error_put hne).trans he), inOrder_some]
    have hput : (m.put self ⟨.ec code, false⟩).Lives := hlives ▸ lives_put h
    exact ⟨hput, hput⟩

/-- A step keeps the memory in order exactly when it is careful. -/
theorem lives_execute_iff {op : Op K O V} (h : m.Lives) (hop : op.wellFormed m) :
    InOrder (m.execute moved conv op) ↔ Careful conv (some m) op := by
  have hassign : ∀ self (x : Source K O V) throws, Careful conv (some m) (.assign self x throws) ↔
      x.Careful conv m self :=
    fun self x throws => ⟨fun h => h m rfl, fun h _ heq => Option.some.inj heq ▸ h⟩
  cases op with
  | ofT self p rvalue =>
    obtain ⟨hself, hp⟩ := Bool.and_eq_true_iff.mp hop
    exact iff_of_true (lives_ofT h (Option.isNone_iff_eq_none.mp hself) hp) trivial
  | inPlace self x =>
    have hself : m.cells self = none := Option.isNone_iff_eq_none.mp hop
    have hfill : (m.fill self x true).Lives := without_of_none hself ▸ lives_fill h
    refine iff_of_true ?_ trivial
    rw [Mem.execute, show m.allocate self true = m.put self ⟨.raw, true⟩ from rfl, makeT_put]
    exact inOrder_some.mpr hfill
  | ofError self code =>
    have hself : m.cells self = none := Option.isNone_iff_eq_none.mp hop
    have hput : (m.put self ⟨.ec code, false⟩).Lives := without_of_none hself ▸ lives_put h
    refine iff_of_true ?_ trivial
    rw [Mem.execute, show m.allocate self false = m.put self ⟨.raw, false⟩ from rfl, newError_put]
    exact inOrder_some.mpr hput
  | copy self other =>
    obtain ⟨hself, hother⟩ := Bool.and_eq_true_iff.mp hop
    have hboth : InOrder (m.copyConstruct self other) ∧
        InOrder ((m.allocate self false).move moved self other) :=
      lives_construct h (Option.isNone_iff_eq_none.mp hself) hother
    exact iff_of_true hboth.1 trivial
  | move self other =>
    obtain ⟨hself, hother⟩ := Bool.and_eq_true_iff.mp hop
    exact iff_of_true (lives_construct h (Option.isNone_iff_eq_none.mp hself) hother).2 trivial
  | assign self x throws =>
    obtain ⟨hself, hx⟩ := Bool.and_eq_true_iff.mp hop
    obtain ⟨c, hc⟩ := Option.isSome_iff_exists.mp hself
    rw [hassign]
    exact lives_assign_iff h hc hx
  | destruct self =>
    obtain ⟨c, hc⟩ := Option.isSome_iff_exists.mp hop
    exact iff_of_true (lives_destruct h hc) trivial

theorem throwLeavesError_of_lives {op : Op K O V} (h : m.Lives) :
    ThrowLeavesError moved conv (some m) op := by
  rintro m₀ m' self x other hm rfl hx hv hstep
  obtain rfl := Option.some.inj hm
  have hwell : (Op.assign self x true : Op K O V).wellFormed m = true := by
    by_contra hno
    rw [step, if_neg hno] at hstep
    contradiction
  obtain ⟨hself, hother⟩ := Bool.and_eq_true_iff.mp hwell
  obtain ⟨c, hc⟩ := Option.isSome_iff_exists.mp hself
  rw [step, if_pos hwell] at hstep
  obtain ⟨hcopy, hother⟩ : m.assignCopy self other true = some m' ∧ (m.cells other).isSome := by
    cases x with
    | expected k =>
      obtain rfl := Option.some.inj hx
      exact ⟨Option.some.inj hstep, hother⟩
    | expectedLvalue k =>
      cases conv with
      | none =>
        obtain rfl := Option.some.inj hx
        exact ⟨Option.some.inj hstep, hother⟩
      | some conv => cases hx
    | _ => cases hx
  obtain ⟨c', hc'⟩ := Option.isSome_iff_exists.mp hother
  have hne : other ≠ self := by
    rintro rfl
    rw [assignCopy_self (h.tagged other) hc hv] at hcopy
    contradiction
  rcases (h.tagged other).value_or_error hc' with ⟨x, -, hx⟩ | ⟨code, hv', -⟩
  · rw [(assignCopy_value (h.tagged self) hc hne hv hx).2] at hcopy
    exact Option.some.inj hcopy ▸ cells_put_self
  · rw [hv] at hv'
    contradiction

end steps

end Mem

/-! ### Runs -/

section run
variable {K O V : Type*} [DecidableEq K] [DecidableEq O] {moved : V → V}
  {conv : Option (Conversion V)} {objects : O → V} {tr : List (Option (Mem K O V) × Op K O V)}
  {s : Option (Mem K O V)}

theorem step_iff {s t : Option (Mem K O V)} {op : Op K O V} (h : InOrder s)
    (hs : step moved conv s op = some t) : InOrder t ↔ Careful conv s op := by
  obtain ⟨m, rfl, hlives⟩ := h
  by_cases hwell : op.wellFormed m = true
  · rw [step, if_pos hwell] at hs
    rw [← Option.some.inj hs]
    exact Mem.lives_execute_iff hlives hwell
  · rw [step, if_neg hwell] at hs
    contradiction

/-- A program keeps its memory in order exactly when all its assignments are careful. -/
theorem expected_in_order_iff (hrun : Run (step moved conv) (· = some { objects }) tr s) :
    AllStates InOrder tr s ∧ AllSteps (ThrowLeavesError moved conv) tr ↔
      AllSteps (Careful conv) tr := by
  constructor
  · rintro ⟨hstates, -⟩
    exact hrun.allSteps_of_allStates hstates fun s op t hs hstep ht => (step_iff hs hstep).mp ht
  · intro hcareful
    have hstates : AllStates InOrder tr s := by
      refine hrun.invariant ?_ (fun s op t hs hop hstep => (step_iff hs hstep).mpr hop) hcareful
      rintro _ rfl
      refine ⟨_, rfl, fun k c hc => ?_, ledger_empty⟩
      contradiction
    refine ⟨hstates, fun x hx => ?_⟩
    obtain ⟨m, hm, hlives⟩ := hstates.1 x hx
    rw [hm]
    exact Mem.throwLeavesError_of_lives hlives

end run

/-- Of two objects with a string one is assigned from the other with an exception. -/
def copyThrows : List (Op Bool Unit String) :=
  [.ofT false (.object ()) false, .inPlace true "y", .assign true (.expected false) true,
    .assign true (.lvalue (.object ())) false, .destruct false, .destruct true]

theorem copyThrows_runs :
    (Theory.execute (step (fun _ => "") none) copyThrows [] (some { objects := fun _ => "x" })).isSome := by
  decide

theorem expected_in_order_copyThrows :
    ∃ (tr : List (Option (Mem Bool Unit String) × Op Bool Unit String))
      (s : Option (Mem Bool Unit String)), tr.map Prod.snd = copyThrows ∧
        AllStates InOrder tr s ∧ AllSteps (ThrowLeavesError (fun _ => "") none) tr := by
  obtain ⟨⟨tr, s⟩, hr⟩ := Option.isSome_iff_exists.mp copyThrows_runs
  have hrun : Run (step (fun _ => "") none) (· = some { objects := fun _ => "x" }) tr s :=
    Run.execute copyThrows (.nil rfl) hr
  have hlabels : tr.map Prod.snd = copyThrows := labels_execute copyThrows hr
  have hcareful : ∀ op ∈ copyThrows, ∀ s, Careful none s op := by
    simp [copyThrows, Careful, Source.Careful]
  exact ⟨tr, s, hlabels, (expected_in_order_iff hrun).mpr fun x hx =>
    hcareful x.2 (hlabels ▸ List.mem_map_of_mem hx) x.1⟩

/-- A constant string is assigned to an object that has a copy of it. -/
def constToValue : List (Op Unit Unit String) :=
  [.ofT () (.object ()) false, .assign () (.constLvalue (.object ())) false]

/-- The copy the object had is not destroyed. -/
theorem assignConst_leaks :
    ¬∀ (tr : List (Option (Mem Unit Unit String) × Op Unit Unit String))
      (s : Option (Mem Unit Unit String)),
      Run (step (fun _ => "") none) (· = some { objects := fun _ => "x" }) tr s →
        AllStates InOrder tr s ∧ AllSteps (ThrowLeavesError (fun _ => "") none) tr := by
  intro h
  have hrun : Run (step (fun _ => "") none) (· = some { objects := fun _ => "x" }) _ _ :=
    Run.execute constToValue (.nil rfl) rfl
  obtain ⟨m, hm, hlives⟩ := (h _ _ hrun).1.2
  obtain rfl := Option.some.inj hm
  rcases hlives.ledger.covered 0 (by decide) with hgone | ⟨k, hk⟩
  · contradiction
  · exact absurd (Option.some.inj hk) (by decide)

end BeastLounge.Expected
