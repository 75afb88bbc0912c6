import BeastLounge.Expected.Assign
import BeastLounge.Expected.Lifetime

/-!
# `expected<T>` as a type of values

To its users an `expected<T>` is a variable that holds a `T` or an error. `Values` is a memory of
such variables, and what each operation should do to it, without storages, lifetimes or `v_`. For a
`T` that cannot be constructed from an `expected<T>`, a program whose assignments are careful
computes just that (`expected_values`), and the observers show what the variables hold.
-/

namespace BeastLounge.Expected

open Theory

/-! ### Variables -/

structure Values (K O V : Type*) where
  held : K → Option (Except ErrorCode V) := fun _ => none
  /-- The objects of type `T` elsewhere. -/
  objects : O → V

namespace Values

variable {K O V : Type*} [DecidableEq K] [DecidableEq O]

def read (a : Values K O V) : Place K O → Option V
  | .object o => some (a.objects o)
  | .inside k =>
    match a.held k with
    | some (.ok x) => some x
    | _ => none

def set (a : Values K O V) (k : K) (r : Option (Except ErrorCode V)) : Values K O V :=
  { a with held := Function.update a.held k r }

/-- The `T` at `p` gets another value. -/
def leave (a : Values K O V) (x : V) : Place K O → Values K O V
  | .object o => { a with objects := Function.update a.objects o x }
  | .inside k => a.set k (some (.ok x))

/-- The variable gets a `T` made from the one at `p`, which gets the value `after` says. -/
def take (a : Values K O V) (self : K) (p : Place K O) (made after : V → V) : Values K O V :=
  match a.read p with
  | some x => (a.leave (after x) p).set self (some (.ok (made x)))
  | none => a

/-- The variable gets what another one holds, from which a `T` is moved. -/
def transfer (moved : V → V) (a : Values K O V) (self other : K) : Values K O V :=
  match a.held other with
  | some (.ok _) => a.take self (.inside other) (fun x => x) moved
  | r => a.set self r

def assign (moved : V → V) (a : Values K O V) (self : K) (throws : Bool) :
    Source K O V → Values K O V
  | .lvalue p | .rvalue p => a.take self p (fun x => x) moved
  | .constLvalue p => a.take self p (fun x => x) fun x => x
  | .view p made => a.take self p made fun x => x
  | .other x => a.set self (some (.ok x))
  | .expected k | .expectedLvalue k =>
    match a.held k with
    | some (.ok x) => a.set self (some (if throws then .error invalidArgument else .ok x))
    | r => a.set self r
  | .expectedRvalue k => a.transfer moved self k
  | .error code => a.set self (some (.error code))

def execute (moved : V → V) (a : Values K O V) : Op K O V → Values K O V
  | .ofT self p rvalue => a.take self p (fun x => x) (if rvalue then moved else fun x => x)
  | .inPlace self x => a.set self (some (.ok x))
  | .ofError self code => a.set self (some (.error code))
  | .copy self other => a.set self (a.held other)
  | .move self other => a.transfer moved self other
  | .assign self x throws => a.assign moved self throws x
  | .destruct self => a.set self none

section transfer
variable {moved : V → V} {a : Values K O V} {self other : K} {x : V} {code : ErrorCode}

theorem transfer_ok (h : a.held other = some (.ok x)) :
    a.transfer moved self other = a.take self (.inside other) (fun x => x) moved := by
  rw [transfer, h]

theorem transfer_error (h : a.held other = some (.error code)) :
    a.transfer moved self other = a.set self (some (.error code)) := by
  rw [transfer, h]

end transfer

end Values

namespace Mem

section observers
variable {K O V : Type*}

/-- What the variables hold. -/
def values (m : Mem K O V) : Values K O V := ⟨m.contents, m.objects⟩

/-- `value()`; `none` is `bad_expected_access`. -/
def value (m : Mem K O V) (k : K) : Option V :=
  if m.hasValue k then (m.cells k).bind fun c => c.storage.value else none

/-- `value_or` of a constant object -/
def valueOr (m : Mem K O V) (k : K) (x : V) : Option V :=
  if m.hasValue k then (m.cells k).bind fun c => c.storage.value else some x

/-- `operator==` -/
def equal [DecidableEq V] (m : Mem K O V) (lhs rhs : K) : Bool :=
  if m.hasValue lhs then
    if !m.hasValue rhs then false
    else decide (((m.cells lhs).bind fun c => c.storage.value) =
      (m.cells rhs).bind fun c => c.storage.value)
  else if m.hasValue rhs then false
  else decide (m.error lhs = m.error rhs)

/-- `operator==` with an error -/
def equalError (m : Mem K O V) (lhs : K) (rhs : ErrorCode) : Bool :=
  if m.hasValue lhs then false else decide (m.error lhs = some rhs)

end observers

section abstraction
variable {K O V : Type*} {m : Mem K O V} {self k : K} {p : Place K O} {x y : V} {c : Cell V}
  {code : ErrorCode}

theorem contents_none (hc : m.cells k = none) : m.contents k = none := by
  unfold contents hasValue error
  rw [hc]
  rfl

theorem contents_cell (hc : m.cells k = some c) : m.contents k =
    if c.v then c.storage.value.map .ok else c.storage.code.map .error := by
  unfold contents
  rw [hasValue_eq hc, read_inside hc, error_eq hc]

theorem contents_congr {m' : Mem K O V} (h : m'.cells k = m.cells k) : m'.contents k = m.contents k := by
  cases hc : m.cells k with
  | none => rw [contents_none hc, contents_none (h.trans hc)]
  | some c => rw [contents_cell hc, contents_cell (h.trans hc)]

/-- A variable with a value or an error. -/
theorem Tagged.contents_cases (h : m.Tagged k) (hc : m.cells k = some c) :
    (∃ x, m.hasValue k = true ∧ m.read (.inside k) = some x ∧ m.contents k = some (.ok x)) ∨
      ∃ code, m.hasValue k = false ∧ m.error k = some code ∧ m.contents k = some (.error code) := by
  rcases h.value_or_error hc with ⟨x, hv, hx⟩ | ⟨code, hv, he, -⟩
  · exact .inl ⟨x, hv, hx, by rw [contents, hv, hx]; rfl⟩
  · exact .inr ⟨code, hv, he, by rw [contents, hv, he]; rfl⟩

theorem values_read (h : ∀ k, m.Tagged k) (p : Place K O) : m.values.read p = m.read p := by
  cases p with
  | object o => rfl
  | inside k =>
    show (match m.contents k with | some (.ok x) => some x | _ => none) = _
    cases hc : m.cells k with
    | none =>
      rw [contents_none hc, Mem.read, hc]
      rfl
    | some c =>
      rcases (h k).value_or_error hc with ⟨x, hv, hx⟩ | ⟨code, hv, he, hx⟩
      · rw [contents, hv, hx]
        rfl
      · rw [contents, hv, he, hx]
        rfl

/-- The target of a careful assignment of a constant is not what is assigned. -/
theorem ne_inside_of_error (h : m.Tagged self) (hc : m.cells self = some c)
    (hv : m.hasValue self = false) (hp : (m.read p).isSome) : p ≠ .inside self := by
  rintro rfl
  rcases h.value_or_error hc with ⟨x, hv', -⟩ | ⟨code, -, -, hnone⟩
  · rw [hv] at hv'
    cases hv'
  · rw [hnone] at hp
    cases hp

variable [DecidableEq K]

theorem values_update {m' : Mem K O V} {r : Option (Except ErrorCode V)}
    (hobjects : m'.objects = m.objects) (hself : m'.contents self = r)
    (hother : ∀ k, k ≠ self → m'.cells k = m.cells k) : m'.values = m.values.set self r := by
  have hheld : m'.contents = Function.update m.contents self r := by
    funext k
    by_cases hk : k = self
    · rw [hk, hself, Function.update_self]
    · rw [Function.update_of_ne hk]
      exact contents_congr (hother k hk)
  show Values.mk _ _ = Values.mk _ _
  rw [hheld, hobjects]
  rfl

theorem values_fill : (m.fill self x true).values = m.values.set self (some (.ok x)) :=
  values_update rfl fill_gives.2 fun _ hk => cells_put_of_ne hk

theorem values_put : (m.put self ⟨.ec code, false⟩).values = m.values.set self (some (.error code)) :=
  values_update rfl put_gives.2 fun _ hk => cells_put_of_ne hk

theorem values_free : (m.free self).values = m.values.set self none :=
  values_update rfl (contents_none cells_free_self) fun _ hk => cells_free_of_ne hk

variable [DecidableEq O]

theorem values_write (h : ∀ k, m.Tagged k) (hx : m.read p = some x) :
    (m.write y p).values = m.values.leave y p := by
  cases p with
  | object o => rfl
  | inside k =>
    refine values_update rfl ?_ fun j hj => cells_write_of_ne fun heq => hj (Place.inside.inj heq).symm
    obtain ⟨c, hc, hvalue⟩ := Option.bind_eq_some_iff.mp hx
    rcases (h k).cases hc with ⟨id, z, rfl⟩ | ⟨code, rfl⟩
    · have hcell : (m.write y (.inside k)).cells k = some ⟨.t id y, true⟩ :=
        (Function.update_self ..).trans (by rw [hc]; rfl)
      exact contents_cell hcell
    · cases hvalue

/-- A target that is given a `T` made from the one at `p`. -/
theorem values_take (made after : V → V) (h : ∀ k, m.Tagged k) (hx : m.read p = some x) :
    ((m.write (after x) p).fill self (made x) true).values = m.values.take self p made after := by
  rw [values_fill, values_write h hx, Values.take, values_read h, hx]

/-- The memory computes `r`. -/
def Gives (r : Option (Mem K O V)) (a : Values K O V) : Prop := ∃ m, r = some m ∧ m.values = a

theorem gives_assignFrom {made after : V → V} (h : ∀ k, m.Tagged k) (hc : m.cells self = some c)
    (hp : p ≠ .inside self) (hx : (m.read p).isSome) :
    Gives (m.assignFrom self p made after) (m.values.take self p made after) := by
  obtain ⟨x, hx⟩ := Option.isSome_iff_exists.mp hx
  refine ⟨_, assignFrom_eq (h self) hc hp hx, ?_⟩
  exact values_take (m := m.without self) made after h hx

/-- A copy leaves what it is made from, and so does an assignment of a constant. -/
theorem gives_assignConst (h : ∀ k, m.Tagged k) (hc : m.cells self = some c)
    (hp : p ≠ .inside self) (hx : (m.read p).isSome) :
    Gives (m.assignConst self p) (m.values.take self p (fun x => x) fun x => x) := by
  obtain ⟨x, hx⟩ := Option.isSome_iff_exists.mp hx
  refine ⟨_, assignConst_eq hc hp hx, ?_⟩
  have htake : _ = m.values.take self p _ _ := values_take (fun x => x) (fun x => x) h hx
  rwa [write_read hx] at htake

theorem gives_assignMove {moved : V → V} (h : ∀ k, m.Tagged k) (hc : m.cells self = some c)
    (hk : (m.cells k).isSome) (hcareful : k = self → m.hasValue self = false) :
    Gives (m.assignMove moved self k) (m.values.transfer moved self k) := by
  obtain ⟨c', hc'⟩ := Option.isSome_iff_exists.mp hk
  rcases (h k).contents_cases hc' with ⟨x, hv, hx, hheld⟩ | ⟨code, hv, he, hheld⟩
  · have hne : k ≠ self := fun heq => by rw [heq, hcareful heq] at hv; cases hv
    refine ⟨_, assignMove_value (h self) hc hne hv hx, ?_⟩
    have hx' : (m.without self).read (.inside k) = some x := hx
    rw [Values.transfer_ok (a := m.values) hheld]
    exact values_take (m := m.without self) (fun x => x) moved h hx'
  · refine ⟨_, assignMove_error (h self) hc hv he, ?_⟩
    rw [Values.transfer_error (a := m.values) hheld]
    exact values_put

theorem gives_assignCopy {moved : V → V} {throws : Bool} (h : ∀ k, m.Tagged k)
    (hc : m.cells self = some c) (hk : (m.cells k).isSome)
    (hcareful : k = self → m.hasValue self = false) :
    Gives (m.assignCopy self k throws) (m.values.assign moved self throws (.expected k)) := by
  obtain ⟨c', hc'⟩ := Option.isSome_iff_exists.mp hk
  rcases (h k).contents_cases hc' with ⟨x, hv, hx, hheld⟩ | ⟨code, hv, he, hheld⟩
  · have hne : k ≠ self := fun heq => by rw [heq, hcareful heq] at hv; cases hv
    obtain ⟨hcopies, hthrows⟩ := assignCopy_value (h self) hc hne hv hx
    rw [Values.assign, show m.values.held k = some (.ok x) from hheld]
    cases throws with
    | false => exact ⟨_, hcopies, values_fill⟩
    | true => exact ⟨_, hthrows, values_put⟩
  · refine ⟨_, assignCopy_error (h self) hc hv he, ?_⟩
    rw [Values.assign, show m.values.held k = some (.error code) from hheld]
    exact values_put

theorem gives_assign {moved : V → V} {throws : Bool} {x : Source K O V} (h : ∀ k, m.Tagged k)
    (hc : m.cells self = some c) (hx : x.wellFormed m) (hcareful : x.Careful none m self) :
    Gives (m.assign moved none self throws x) (m.values.assign moved self throws x) := by
  cases x with
  | lvalue p => exact gives_assignFrom h hc hcareful hx
  | constLvalue p => exact gives_assignConst h hc (ne_inside_of_error (h self) hc hcareful hx) hx
  | rvalue p => exact gives_assignFrom h hc hcareful hx
  | view p made => exact gives_assignFrom h hc hcareful hx
  | other x => exact ⟨_, assignOther_eq (h self) hc, values_fill⟩
  | expected k => exact gives_assignCopy h hc hx hcareful
  | expectedLvalue k =>
    have hcopy : Gives _ (m.values.assign moved self throws (.expected k)) :=
      gives_assignCopy h hc hx hcareful
    exact hcopy
  | expectedRvalue k => exact gives_assignMove h hc hx hcareful
  | error code => exact ⟨_, assignError_eq (h self) hc, values_put⟩

theorem gives_ofT {made after : V → V} (h : ∀ k, m.Tagged k) (hself : m.cells self = none)
    (hp : (m.read p).isSome) :
    Gives ((m.allocate self true).newT self p made after) (m.values.take self p made after) := by
  obtain ⟨x, hx⟩ := Option.isSome_iff_exists.mp hp
  have hne : p ≠ .inside self := by
    rintro rfl
    rw [show m.read (.inside self) = (m.cells self).bind _ from rfl, hself] at hx
    cases hx
  have hallocate : m.allocate self true = m.put self ⟨.raw, true⟩ := rfl
  rw [hallocate, newT_put hne hx]
  exact ⟨_, rfl, values_take made after h hx⟩

theorem gives_construct {moved : V → V} {other : K} (h : ∀ k, m.Tagged k)
    (hself : m.cells self = none) (hother : (m.cells other).isSome) :
    Gives (m.copyConstruct self other) (m.values.set self (m.values.held other)) ∧
      Gives ((m.allocate self false).move moved self other) (m.values.transfer moved self other) := by
  obtain ⟨c, hc⟩ := Option.isSome_iff_exists.mp hother
  have hne : other ≠ self := by
    rintro rfl
    rw [hself] at hc
    cases hc
  have hallocate : m.allocate self false = m.put self ⟨.raw, false⟩ := rfl
  rw [hallocate]
  rcases (h other).contents_cases hc with ⟨x, hv, hx, hheld⟩ | ⟨code, hv, he, hheld⟩
  · rw [Values.transfer_ok (a := m.values) hheld, show m.values.held other = some (.ok x) from hheld]
    exact ⟨⟨_, copyConstruct_value hne hv hx, values_fill⟩, _, move_value hne hv hx,
      values_take (fun x => x) moved h hx⟩
  · rw [Values.transfer_error (a := m.values) hheld,
      show m.values.held other = some (.error code) from hheld]
    exact ⟨⟨_, copyConstruct_error hne hv he, values_put⟩, _,
      move_error ((hasValue_put hne).trans hv) ((error_put hne).trans he), values_put⟩

/-- A careful operation does to the variables what it should. -/
theorem gives_execute {moved : V → V} {op : Op K O V} (h : m.Lives) (hop : op.wellFormed m)
    (hcareful : Careful none (some m) op) :
    Gives (m.execute moved none op) (m.values.execute moved op) := by
  cases op with
  | ofT self p rvalue =>
    obtain ⟨hself, hp⟩ := Bool.and_eq_true_iff.mp hop
    exact gives_ofT h.tagged (Option.isNone_iff_eq_none.mp hself) hp
  | inPlace self x =>
    refine ⟨_, ?_, values_fill⟩
    rw [Mem.execute, show m.allocate self true = m.put self ⟨.raw, true⟩ from rfl, makeT_put]
  | ofError self code =>
    refine ⟨_, ?_, values_put⟩
    rw [Mem.execute, show m.allocate self false = m.put self ⟨.raw, false⟩ from rfl, newError_put]
  | copy self other =>
    obtain ⟨hself, hother⟩ := Bool.and_eq_true_iff.mp hop
    have hboth : Gives (m.copyConstruct self other) _ ∧ Gives (Mem.move moved _ self other) _ :=
      gives_construct h.tagged (Option.isNone_iff_eq_none.mp hself) hother
    exact hboth.1
  | move self other =>
    obtain ⟨hself, hother⟩ := Bool.and_eq_true_iff.mp hop
    exact (gives_construct h.tagged (Option.isNone_iff_eq_none.mp hself) hother).2
  | assign self x throws =>
    obtain ⟨hself, hx⟩ := Bool.and_eq_true_iff.mp hop
    obtain ⟨c, hc⟩ := Option.isSome_iff_exists.mp hself
    exact gives_assign h.tagged hc hx (hcareful m rfl)
  | destruct self =>
    obtain ⟨c, hc⟩ := Option.isSome_iff_exists.mp hop
    obtain ⟨storage, -, -, hdestroy⟩ := destroy_eq (h.tagged self) hc
    refine ⟨(m.without self).free self, ?_, values_free⟩
    rw [Mem.execute, destruct, hdestroy, Option.map_some, free_put]

end abstraction

/-! ### Observers -/

section observers
variable {K O V : Type*} {m : Mem K O V} {j k : K} {x : V} {code : ErrorCode}

/-- What the observers of an object say of what it holds. -/
structure Observed [DecidableEq V] (m : Mem K O V) (k : K) (r : Except ErrorCode V) : Prop where
  hasValue : m.hasValue k = r.isOk
  value : m.value k = r.toOption
  valueOr : ∀ x, m.valueOr k x = some (r.toOption.getD x)
  error : ∀ code, r = .error code → m.error k = some code
  equalError : ∀ code, m.equalError k code = decide (r = .error code)
  equal : ∀ j r', m.values.held j = some r' → m.equal k j = decide (r = r')

/-- The object that a variable is. -/
theorem cells_of_held {r : Except ErrorCode V} (hr : m.values.held k = some r) :
    ∃ c, m.cells k = some c := by
  cases hc : m.cells k with
  | none =>
    rw [show m.values.held k = none from contents_none hc] at hr
    cases hr
  | some c => exact ⟨c, rfl⟩

variable [DecidableEq V]

theorem equal_value (h : m.Tagged j) (hv : m.hasValue k = true) (hx : m.read (.inside k) = some x)
    {r : Except ErrorCode V} (hj : m.values.held j = some r) :
    m.equal k j = decide (.ok x = r) := by
  have hx' : ((m.cells k).bind fun c => c.storage.value) = some x := hx
  obtain ⟨c, hc⟩ := cells_of_held hj
  rcases h.contents_cases hc with ⟨y, hv', hy, hheld⟩ | ⟨code, hv', he, hheld⟩
  · obtain rfl : r = .ok y := Option.some.inj (hj.symm.trans hheld)
    have hy' : ((m.cells j).bind fun c => c.storage.value) = some y := hy
    simp [equal, hv, hv', hx', hy']
  · obtain rfl : r = .error code := Option.some.inj (hj.symm.trans hheld)
    simp [equal, hv, hv']

theorem equal_error (h : m.Tagged j) (hv : m.hasValue k = false) (he : m.error k = some code)
    {r : Except ErrorCode V} (hj : m.values.held j = some r) :
    m.equal k j = decide (.error code = r) := by
  obtain ⟨c, hc⟩ := cells_of_held hj
  rcases h.contents_cases hc with ⟨y, hv', hy, hheld⟩ | ⟨code', hv', he', hheld⟩
  · obtain rfl : r = .ok y := Option.some.inj (hj.symm.trans hheld)
    simp [equal, hv, hv']
  · obtain rfl : r = .error code' := Option.some.inj (hj.symm.trans hheld)
    simp [equal, hv, hv', he, he']

theorem observed_value (h : ∀ k, m.Tagged k) (hv : m.hasValue k = true)
    (hx : m.read (.inside k) = some x) : m.Observed k (.ok x) := by
  have hx' : ((m.cells k).bind fun c => c.storage.value) = some x := hx
  constructor
  case hasValue => exact hv
  case value =>
    rw [value, hv, if_pos rfl, hx']
    rfl
  case valueOr =>
    intro y
    rw [valueOr, hv, if_pos rfl, hx']
    rfl
  case error =>
    intro code hno
    cases hno
  case equalError =>
    intro code
    simp [equalError, hv]
  case equal =>
    intro j r' hj
    exact equal_value (h j) hv hx hj

theorem observed_error (h : ∀ k, m.Tagged k) (hv : m.hasValue k = false)
    (he : m.error k = some code) : m.Observed k (.error code) := by
  constructor
  case hasValue => exact hv
  case value =>
    rw [value, hv]
    rfl
  case valueOr =>
    intro y
    rw [valueOr, hv]
    rfl
  case error =>
    intro code' hcode
    cases hcode
    exact he
  case equalError =>
    intro code'
    simp [equalError, hv, he]
  case equal =>
    intro j r' hj
    exact equal_error (h j) hv he hj

theorem observed (h : ∀ k, m.Tagged k) {r : Except ErrorCode V} (hr : m.values.held k = some r) :
    m.Observed k r := by
  obtain ⟨c, hc⟩ := cells_of_held hr
  rcases (h k).contents_cases hc with ⟨x, hv, hx, hheld⟩ | ⟨code, hv, he, hheld⟩
  · obtain rfl : r = .ok x := Option.some.inj (hr.symm.trans hheld)
    exact observed_value h hv hx
  · obtain rfl : r = .error code := Option.some.inj (hr.symm.trans hheld)
    exact observed_error h hv he

end observers

end Mem

/-! ### Runs -/

section run
variable {K O V : Type*} [DecidableEq K] [DecidableEq O] {moved : V → V} {objects : O → V}
  {tr : List (Option (Mem K O V) × Op K O V)} {s : Option (Mem K O V)}

theorem inOrder_run (hrun : Run (step moved none) (· = some { objects }) tr s)
    (hcareful : AllSteps (Careful none) tr) : InOrder s := by
  refine (hrun.invariant ?_ (fun s op t hs hop hstep => (step_iff hs hstep).mpr hop) hcareful).2
  rintro _ rfl
  refine ⟨_, rfl, fun k c hc => ?_, ledger_empty⟩
  cases hc

/-- In a program whose assignments are careful, with a `T` that cannot be constructed from an
`expected<T>`, each object holds at every time what a variable
holds after these operations, and the observers say so. -/
theorem expected_values [DecidableEq V] (hrun : Run (step moved none) (· = some { objects }) tr s)
    (hcareful : AllSteps (Careful none) tr) :
    ∃ m, s = some m ∧
      m.values = (tr.map Prod.snd).foldl (Values.execute moved) ⟨fun _ => none, objects⟩ ∧
      ∀ k r, m.values.held k = some r → m.Observed k r := by
  have hvalues : ∃ m, s = some m ∧
      m.values = (tr.map Prod.snd).foldl (Values.execute moved) ⟨fun _ => none, objects⟩ := by
    induction hrun with
    | nil h => exact ⟨_, h, rfl⟩
    | @snoc tr s t op hrun hs ih =>
      obtain ⟨hbefore, hop⟩ := allSteps_snoc.mp hcareful
      obtain ⟨m, rfl, hm⟩ := ih hbefore
      obtain ⟨m', hm', hlives⟩ := inOrder_run hrun hbefore
      obtain rfl := Option.some.inj hm'
      by_cases hwell : op.wellFormed m = true
      · rw [step, if_pos hwell] at hs
        obtain ⟨t', ht', hgives⟩ := Mem.gives_execute hlives hwell hop
        refine ⟨t', (Option.some.inj hs).symm.trans ht', ?_⟩
        rw [hgives, hm]
        simp
      · rw [step, if_neg hwell] at hs
        cases hs
  obtain ⟨m, rfl, hm⟩ := hvalues
  obtain ⟨m', hm', hlives⟩ := inOrder_run hrun hcareful
  obtain rfl := Option.some.inj hm'
  exact ⟨m, rfl, hm, fun k r hr => Mem.observed hlives.tagged hr⟩

end run

/-- A string is moved into one object, another one is assigned from it, and then its own error. -/
def moveThenAssign : List (Op Bool Unit String) :=
  [.ofT false (.object ()) true, .ofError true invalidArgument, .assign true (.expectedRvalue false) false,
    .assign false (.error invalidArgument) false]

theorem moveThenAssign_runs :
    (Theory.execute (step (fun _ => "") none) moveThenAssign []
      (some { objects := fun _ => "x" })).isSome := by
  decide

/-- The string is in the second object, and no longer where it came from. -/
theorem expected_values_move :
    ∃ (tr : List (Option (Mem Bool Unit String) × Op Bool Unit String)) (m : Mem Bool Unit String),
      Run (step (fun _ => "") none) (· = some { objects := fun _ => "x" }) tr (some m) ∧
        m.objects () = "" ∧ m.value true = some "x" ∧ m.equalError false invalidArgument = true := by
  obtain ⟨⟨tr, s⟩, hr⟩ := Option.isSome_iff_exists.mp moveThenAssign_runs
  have hrun : Run (step (fun _ => "") none) (· = some { objects := fun _ => "x" }) tr s :=
    Run.execute moveThenAssign (.nil rfl) hr
  have hlabels : tr.map Prod.snd = moveThenAssign := labels_execute moveThenAssign hr
  have hcareful : ∀ op ∈ moveThenAssign, ∀ s, Careful none s op := by
    simp [moveThenAssign, Careful, Source.Careful]
  obtain ⟨m, rfl, hm, hobserved⟩ := expected_values hrun fun x hx =>
    hcareful x.2 (hlabels ▸ List.mem_map_of_mem hx) x.1
  rw [hlabels] at hm
  have htrue : m.values.held true = some (.ok "x") := by rw [hm]; rfl
  have hfalse : m.values.held false = some (.error invalidArgument) := by rw [hm]; rfl
  refine ⟨tr, m, hrun, ?_, (hobserved _ _ htrue).value, ?_⟩
  · show m.values.objects () = ""
    rw [hm]
    rfl
  · rw [(hobserved _ _ hfalse).equalError]
    rfl

end BeastLounge.Expected
