import Mathlib.Logic.Function.Basic

/-!
# The members of `expected<T>`

`expected<T>` keeps a `T` or an `error_code` in a union, and `v_` says which. Here are its
constructors, its assignments and its destructor over a memory of such objects, in which each `T`
made in a storage has a number.

`error_code` is trivial: destroying one leaves its bytes. A `T` that is read or destroyed where none
is alive makes the program undefined, and then nothing is said of the memory. Whether a `T` can be
constructed from an `expected<T>` decides which operator an assignment calls, so it is a parameter
(`Conversion`).
-/

namespace BeastLounge.Expected

structure ErrorCode where
  value : Int
  category : String
deriving DecidableEq

/-- `make_error_code(errc::invalid_argument)` -/
def invalidArgument : ErrorCode := ⟨22, "generic"⟩

/-- The union. -/
inductive Storage (V : Type*)
  | raw
  | t (id : Nat) (value : V)
  | ec (code : ErrorCode)

/-- An `expected<T>`. -/
structure Cell (V : Type*) where
  storage : Storage V
  v : Bool

structure Mem (K O V : Type*) where
  cells : K → Option (Cell V) := fun _ => none
  /-- The objects of type `T` elsewhere. -/
  objects : O → V
  /-- How many are made in the storages, and which of them are destroyed. -/
  next : Nat := 0
  destroyed : List Nat := []

/-- How a `T` is constructed from an `expected<T>&`, where it can be. -/
structure Conversion (V : Type*) where
  /-- From an object with a value, which then has the value `leaves` says. -/
  ofValue : V → V
  leaves : V → V
  ofError : ErrorCode → V
  /-- From an object whose alternative has been destroyed, which still has its `v_`; undefined if
  more than that is asked for. -/
  ofEnded : Bool → Option V

/-- Where a reference to a `T` refers to. -/
inductive Place (K O : Type*)
  | object (o : O)
  | inside (k : K)
deriving DecidableEq

namespace Storage

variable {V : Type*}

/-- The `T` that is alive. -/
def id : Storage V → Option Nat
  | .t id _ => some id
  | _ => none

def value : Storage V → Option V
  | .t _ x => some x
  | _ => none

def code : Storage V → Option ErrorCode
  | .ec code => some code
  | _ => none

/-- The alternative that is alive. -/
def alternative : Storage V → Option Bool
  | .raw => none
  | .t _ _ => some true
  | .ec _ => some false

/-- A `T` that is alive gets another value. -/
def become (x : V) : Storage V → Storage V
  | .t id _ => .t id x
  | s => s

end Storage

namespace Mem

variable {K O V : Type*} [DecidableEq K] [DecidableEq O]

def modify (m : Mem K O V) (k : K) (f : Cell V → Cell V) : Mem K O V :=
  { m with cells := Function.update m.cells k ((m.cells k).map f) }

/-- The value of the `T` that a reference refers to, undefined where none is alive. -/
def read (m : Mem K O V) : Place K O → Option V
  | .object o => some (m.objects o)
  | .inside k => (m.cells k).bind fun c => c.storage.value

def write (m : Mem K O V) (x : V) : Place K O → Mem K O V
  | .object o => { m with objects := Function.update m.objects o x }
  | .inside k => m.modify k fun c => { c with storage := c.storage.become x }

def hasValue (m : Mem K O V) (k : K) : Bool := (m.cells k).any fun c => c.v

def error (m : Mem K O V) (k : K) : Option ErrorCode := (m.cells k).bind fun c => c.storage.code

def setV (m : Mem K O V) (self : K) (v : Bool) : Mem K O V :=
  m.modify self fun c => { c with v }

/-- `::new(&ec_) error_code(code)` -/
def newError (m : Mem K O V) (self : K) (code : ErrorCode) : Mem K O V :=
  m.modify self fun c => { c with storage := .ec code }

/-- `::new(std::addressof(t_)) T(..)` with the value `x`. -/
def makeT (m : Mem K O V) (self : K) (x : V) : Mem K O V :=
  { m.modify self fun c => { c with storage := .t m.next x } with next := m.next + 1 }

/-- The storage is used for something new. -/
def reuse (m : Mem K O V) (self : K) : Mem K O V :=
  m.modify self fun c => { c with storage := .raw }

/-- `::new(std::addressof(t_)) T(..)` from the `T` at `p`, with the values the two have then. -/
def newT (m : Mem K O V) (self : K) (p : Place K O) (made after : V → V) : Option (Mem K O V) :=
  let m := m.reuse self
  (m.read p).map fun x => (m.write (after x) p).makeT self (made x)

def destroy (m : Mem K O V) (self : K) : Option (Mem K O V) :=
  if m.hasValue self then
    ((m.cells self).bind fun c => c.storage.id).map fun id =>
      { m.reuse self with destroyed := m.destroyed ++ [id] }
  else some m

/-! ### The members -/

variable (moved : V → V)

def move (m : Mem K O V) (self other : K) : Option (Mem K O V) :=
  let m := m.setV self (m.hasValue other)
  if m.hasValue self then m.newT self (.inside other) (fun x => x) moved
  else (m.error other).map (m.newError self)

/-- `operator=(expected&&)` -/
def assignMove (m : Mem K O V) (self other : K) : Option (Mem K O V) := do
  let m ← m.destroy self
  m.move moved self other

/-- `operator=(expected const&)`, where the copy constructor of `T` may throw. -/
def assignCopy (m : Mem K O V) (self other : K) (throws : Bool) : Option (Mem K O V) := do
  let m ← m.destroy self
  if m.hasValue other then
    if throws then
      -- `~cleanup` when the copy constructor has read its source
      let m := m.reuse self
      (m.read (.inside other)).map fun _ => (m.setV self false).newError self invalidArgument
    else
      let m ← m.newT self (.inside other) (fun x => x) fun x => x
      some (m.setV self (m.hasValue other))
  else
    (m.error other).map fun code =>
      let m := m.newError self code
      m.setV self (m.hasValue other)

/-- `operator=(T const&)` -/
def assignConst (m : Mem K O V) (self : K) (p : Place K O) : Option (Mem K O V) := do
  let m ← m.newT self p (fun x => x) fun x => x
  some (m.setV self true)

/-- `operator=(U&&)` with a `u` that refers to a `T` or is one; the new object has the value `made`
says, and the old one the value `after` says. -/
def assignFrom (m : Mem K O V) (self : K) (p : Place K O) (made after : V → V) :
    Option (Mem K O V) := do
  let m ← m.destroy self
  let m ← m.newT self p made after
  some (m.setV self true)

/-- `operator=(U&&)` with any other `u`, that makes a `T` of the value `x`. -/
def assignOther (m : Mem K O V) (self : K) (x : V) : Option (Mem K O V) := do
  let m ← m.destroy self
  some ((m.makeT self x).setV self true)

/-- `::new(std::addressof(t_)) T(std::move(u))` from a `u` of type `expected<T>`. -/
def newConverted (m : Mem K O V) (conv : Conversion V) (self other : K) : Option (Mem K O V) :=
  if other = self then (conv.ofEnded (m.hasValue self)).map (m.makeT self)
  else if m.hasValue other then m.newT self (.inside other) conv.ofValue conv.leaves
  else (m.error other).map fun code => m.makeT self (conv.ofError code)

/-- `operator=(U&&)` with a `u` of type `expected<T>`. -/
def assignConverted (m : Mem K O V) (conv : Conversion V) (self other : K) : Option (Mem K O V) := do
  let m ← m.destroy self
  let m ← m.newConverted conv self other
  some (m.setV self true)

/-- `operator=(error_code)` -/
def assignError (m : Mem K O V) (self : K) (code : ErrorCode) : Option (Mem K O V) := do
  let m ← m.destroy self
  some ((m.newError self code).setV self false)

/-- The memory for a new object. -/
def allocate (m : Mem K O V) (self : K) (v : Bool) : Mem K O V :=
  { m with cells := Function.update m.cells self (some ⟨.raw, v⟩) }

/-- `expected(expected const&)` -/
def copyConstruct (m : Mem K O V) (self other : K) : Option (Mem K O V) :=
  let m := m.allocate self (m.hasValue other)
  if m.hasValue self then m.newT self (.inside other) (fun x => x) fun x => x
  else (m.error other).map (m.newError self)

def free (m : Mem K O V) (self : K) : Mem K O V :=
  { m with cells := Function.update m.cells self none }

/-- `~expected` -/
def destruct (m : Mem K O V) (self : K) : Option (Mem K O V) :=
  (m.destroy self).map fun m => m.free self

end Mem

/-- The right side of an assignment. -/
inductive Source (K O V : Type*)
  | lvalue (p : Place K O)
  | constLvalue (p : Place K O)
  | rvalue (p : Place K O)
  /-- A constant rvalue, or an object of another type that refers to a `T` and makes one from it. -/
  | view (p : Place K O) (made : V → V)
  /-- An object of another type that makes a `T` of the value `x`. -/
  | other (x : V)
  /-- A constant lvalue. -/
  | expected (k : K)
  | expectedLvalue (k : K)
  | expectedRvalue (k : K)
  | error (code : ErrorCode)

inductive Op (K O V : Type*)
  /-- `expected(T const&)` and `expected(T&&)` -/
  | ofT (self : K) (p : Place K O) (rvalue : Bool)
  | inPlace (self : K) (x : V)
  | ofError (self : K) (code : ErrorCode)
  | copy (self other : K)
  | move (self other : K)
  | assign (self : K) (x : Source K O V) (throws : Bool)
  | destruct (self : K)

section operations
variable {K O V : Type*} [DecidableEq K] [DecidableEq O] (moved : V → V)
  (conv : Option (Conversion V))

/-- The operator that overload resolution selects: to an lvalue that is not constant the forwarding
reference binds better than `T const&`, and than `expected const&` if it takes an `expected<T>`; to a
constant one a function that is no template is better. -/
def Mem.assign (m : Mem K O V) (self : K) (throws : Bool) : Source K O V → Option (Mem K O V)
  | .lvalue p | .rvalue p => m.assignFrom self p (fun x => x) moved
  | .constLvalue p => m.assignConst self p
  | .view p made => m.assignFrom self p made fun x => x
  | .other x => m.assignOther self x
  | .expected k => m.assignCopy self k throws
  | .expectedLvalue k =>
    match conv with
    | none => m.assignCopy self k throws
    | some conv => m.assignConverted conv self k
  | .expectedRvalue k => m.assignMove moved self k
  | .error code => m.assignError self code

def Mem.execute (m : Mem K O V) : Op K O V → Option (Mem K O V)
  | .ofT self p rvalue =>
    (m.allocate self true).newT self p (fun x => x) (if rvalue then moved else fun x => x)
  | .inPlace self x => some ((m.allocate self true).makeT self x)
  | .ofError self code => some ((m.allocate self false).newError self code)
  | .copy self other => m.copyConstruct self other
  -- `v_` is set by `move`
  | .move self other => (m.allocate self false).move moved self other
  | .assign self x throws => m.assign moved conv self throws x
  | .destruct self => m.destruct self

/-- The source is there. -/
def Source.wellFormed (m : Mem K O V) : Source K O V → Bool
  | .lvalue p | .constLvalue p | .rvalue p | .view p _ => (m.read p).isSome
  | .expected k | .expectedLvalue k | .expectedRvalue k => (m.cells k).isSome
  | .other _ | .error _ => true

def Op.wellFormed (m : Mem K O V) : Op K O V → Bool
  | .ofT self p _ => (m.cells self).isNone && (m.read p).isSome
  | .inPlace self _ | .ofError self _ => (m.cells self).isNone
  | .copy self other | .move self other => (m.cells self).isNone && (m.cells other).isSome
  | .assign self x _ => (m.cells self).isSome && x.wellFormed m
  | .destruct self => (m.cells self).isSome

/-- The next state of the program; `none` is an undefined one. -/
def step : Option (Mem K O V) → Op K O V → Option (Option (Mem K O V))
  | none, _ => none
  | some m, op => if op.wellFormed m then some (m.execute moved conv op) else none

end operations

section state
variable {K O V : Type*}

/-- The `T` in each storage. -/
def Mem.hold (m : Mem K O V) (k : K) : Option Nat := (m.cells k).bind fun c => c.storage.id

/-- One alternative is alive, and `v_` says which. -/
def Mem.Tagged (m : Mem K O V) (k : K) : Prop :=
  ∀ c, m.cells k = some c → c.storage.alternative = some c.v

end state

/-! ### What the members do -/

namespace Mem

section members
variable {K O V : Type*} {m : Mem K O V} {self other k : K} {p : Place K O} {x : V} {c : Cell V}
  {v : Bool} {code : ErrorCode} {made after moved : V → V} {conv : Conversion V}

theorem Tagged.cases (h : m.Tagged self) (hc : m.cells self = some c) :
    (∃ id x, c = ⟨.t id x, true⟩) ∨ ∃ code, c = ⟨.ec code, false⟩ := by
  have htag := h c hc
  obtain ⟨storage, v⟩ := c
  cases storage with
  | raw => contradiction
  | t id x => exact .inl ⟨id, x, by rw [Option.some.inj htag]⟩
  | ec code => exact .inr ⟨code, by rw [Option.some.inj htag]⟩

theorem hasValue_eq (hc : m.cells self = some c) : m.hasValue self = c.v := by
  unfold hasValue
  rw [hc, Option.any_some]

theorem error_eq (hc : m.cells self = some c) : m.error self = c.storage.code := by
  unfold error
  rw [hc, Option.bind_some]

theorem hold_eq (hc : m.cells self = some c) : m.hold self = c.storage.id := by
  unfold hold
  rw [hc, Option.bind_some]

theorem read_inside (hc : m.cells self = some c) : m.read (.inside self) = c.storage.value := by
  show (m.cells self).bind _ = _
  rw [hc, Option.bind_some]

/-- The alternatives of an object, as its members see them. -/
theorem Tagged.value_or_error (h : m.Tagged self) (hc : m.cells self = some c) :
    (∃ x, m.hasValue self = true ∧ m.read (.inside self) = some x) ∨
      ∃ code, m.hasValue self = false ∧ m.error self = some code ∧
        m.read (.inside self) = none := by
  rw [hasValue_eq hc, error_eq hc, read_inside hc]
  rcases h.cases hc with ⟨id, x, rfl⟩ | ⟨code, rfl⟩
  · exact .inl ⟨x, rfl, rfl⟩
  · exact .inr ⟨code, rfl, rfl, rfl⟩

/-- The `T` in the storage, if there is one, counts as destroyed. -/
def without (m : Mem K O V) (self : K) : Mem K O V :=
  { m with destroyed := m.destroyed ++ (m.hold self).toList }

theorem without_of_none (hc : m.cells self = none) : m.without self = m := by
  unfold without hold
  rw [hc, Option.bind_none, Option.toList_none, List.append_nil]

theorem hold_eq_none_iff (h : m.Tagged self) (hc : m.cells self = some c) :
    m.hold self = none ↔ m.hasValue self = false := by
  rw [hold_eq hc, hasValue_eq hc]
  rcases h.cases hc with ⟨id, x, rfl⟩ | ⟨code, rfl⟩
  · exact iff_of_false (Option.some_ne_none id) Bool.false_ne_true.symm
  · exact iff_of_true rfl rfl

variable [DecidableEq K]

/-- The memory with the object `c` at `self`. -/
def put (m : Mem K O V) (self : K) (c : Cell V) : Mem K O V :=
  { m with cells := Function.update m.cells self (some c) }

/-- The memory with a new `T` in the storage of `self`. -/
def fill (m : Mem K O V) (self : K) (x : V) (v : Bool) : Mem K O V :=
  { m.put self ⟨.t m.next x, v⟩ with next := m.next + 1 }

theorem cells_put_self : (m.put self c).cells self = some c := Function.update_self ..

theorem cells_put_of_ne (hk : k ≠ self) : (m.put self c).cells k = m.cells k :=
  Function.update_of_ne hk ..

theorem cells_free_self : (m.free self).cells self = none := Function.update_self ..

theorem cells_free_of_ne (hk : k ≠ self) : (m.free self).cells k = m.cells k :=
  Function.update_of_ne hk ..

theorem free_put : (m.put self c).free self = m.free self := by
  unfold put free
  simp only [Function.update_idem]

theorem put_self (hc : m.cells self = some c) : m.put self c = m := by
  unfold put
  rw [← hc, Function.update_eq_self]

theorem modify_put (f : Cell V → Cell V) : (m.put self c).modify self f = m.put self (f c) := by
  unfold put modify
  simp only [Function.update_self, Function.update_idem, Option.map_some]

theorem setV_put : (m.put self c).setV self v = m.put self ⟨c.storage, v⟩ := modify_put _

theorem newError_put :
    (m.put self c).newError self code = m.put self ⟨.ec code, c.v⟩ := modify_put _

theorem setV_fill {w : Bool} : (m.fill self x w).setV self v = m.fill self x v := by
  unfold setV modify fill put
  simp only [Function.update_self, Function.update_idem, Option.map_some]

theorem makeT_put : (m.put self c).makeT self x = m.fill self x c.v := by
  unfold makeT
  rw [modify_put]
  rfl

theorem read_put (hp : p ≠ .inside self) : (m.put self c).read p = m.read p := by
  cases p with
  | object o => rfl
  | inside k =>
    have hk : k ≠ self := fun heq => hp (heq ▸ rfl)
    exact congrArg (Option.bind · _) (cells_put_of_ne hk)

theorem error_put (hk : k ≠ self) : (m.put self c).error k = m.error k :=
  congrArg (Option.bind · _) (cells_put_of_ne hk)

theorem hasValue_put (hk : k ≠ self) : (m.put self c).hasValue k = m.hasValue k :=
  congrArg (Option.any _) (cells_put_of_ne hk)

/-- `destroy` ends the `T` and leaves an error as it is. -/
theorem destroy_eq (h : m.Tagged self) (hc : m.cells self = some c) :
    ∃ storage, storage.value = none ∧ storage.code = c.storage.code ∧
      m.destroy self = some ((m.without self).put self ⟨storage, c.v⟩) := by
  rcases h.cases hc with ⟨id, x, rfl⟩ | ⟨code, rfl⟩
  · refine ⟨.raw, rfl, rfl, ?_⟩
    simp [destroy, hasValue, without, hold, reuse, modify, put, hc, Storage.id]
  · refine ⟨.ec code, rfl, rfl, ?_⟩
    rw [put_self (m := m.without self) hc]
    simp [destroy, hasValue, without, hold, hc, Storage.id]

theorem assignOther_eq (h : m.Tagged self) (hc : m.cells self = some c) :
    m.assignOther self x = some ((m.without self).fill self x true) := by
  obtain ⟨storage, -, -, hdestroy⟩ := destroy_eq h hc
  unfold assignOther
  rw [hdestroy, Option.bind_eq_bind, Option.bind_some, makeT_put, setV_fill]

theorem assignError_eq (h : m.Tagged self) (hc : m.cells self = some c) :
    m.assignError self code = some ((m.without self).put self ⟨.ec code, false⟩) := by
  obtain ⟨storage, -, -, hdestroy⟩ := destroy_eq h hc
  unfold assignError
  rw [hdestroy, Option.bind_eq_bind, Option.bind_some, newError_put, setV_put]

/-- `destroy` leaves every `v_` and every error. -/
theorem hasValue_destroyed {storage : Storage V} (hc : m.cells self = some c) :
    ((m.without self).put self ⟨storage, c.v⟩).hasValue k = m.hasValue k := by
  by_cases hk : k = self
  · subst hk
    rw [hasValue_eq cells_put_self, hasValue_eq hc]
  · exact hasValue_put hk

theorem error_destroyed {storage : Storage V} (hc : m.cells self = some c)
    (hcode : storage.code = c.storage.code) :
    ((m.without self).put self ⟨storage, c.v⟩).error k = m.error k := by
  by_cases hk : k = self
  · subst hk
    rw [error_eq cells_put_self, hcode, error_eq hc]
  · exact error_put hk

variable [DecidableEq O]

/-- A `T` is not made from what was in its own storage. -/
theorem newT_inside_self (m : Mem K O V) (self : K) (made after : V → V) :
    m.newT self (.inside self) made after = none := by
  have hread : (m.reuse self).read (.inside self) = none := by
    have hcell : (m.reuse self).cells self = (m.cells self).map fun c => { c with storage := .raw } :=
      Function.update_self ..
    unfold read
    dsimp only
    rw [hcell, Option.bind_map]
    cases m.cells self <;> rfl
  unfold newT
  dsimp only
  rw [hread, Option.map_none]

theorem write_put (hp : p ≠ .inside self) : (m.put self c).write x p = (m.write x p).put self c := by
  cases p with
  | object o => rfl
  | inside k =>
    have hk : k ≠ self := fun heq => hp (heq ▸ rfl)
    simp only [write, modify, put, Function.update_of_ne hk, Function.update_comm hk]

theorem cells_write_of_ne (hp : p ≠ .inside k) : (m.write x p).cells k = m.cells k := by
  cases p with
  | object o => rfl
  | inside j =>
    have hk : k ≠ j := fun heq => hp (heq ▸ rfl)
    exact Function.update_of_ne hk ..

/-- A `T` is made in the storage of `self` from another one. -/
theorem newT_put (hp : p ≠ .inside self) (hx : m.read p = some x) :
    (m.put self c).newT self p made after =
      some ((m.write (after x) p).fill self (made x) c.v) := by
  unfold newT reuse
  dsimp only
  rw [modify_put, read_put hp, hx, Option.map_some, write_put hp, makeT_put]

/-- A copy leaves what it is made from. -/
theorem write_read (hx : m.read p = some x) : m.write x p = m := by
  cases p with
  | object o =>
    obtain rfl := Option.some.inj hx
    simp only [write, Function.update_eq_self]
  | inside k =>
    obtain ⟨⟨storage, v⟩, hc, hvalue⟩ := Option.bind_eq_some_iff.mp hx
    cases storage with
    | t id y =>
      obtain rfl := Option.some.inj hvalue
      simp only [write, modify, hc, Option.map_some, Storage.become]
      rw [← hc, Function.update_eq_self]
    | _ => contradiction

theorem assignFrom_eq (h : m.Tagged self) (hc : m.cells self = some c) (hp : p ≠ .inside self)
    (hx : m.read p = some x) : m.assignFrom self p made after =
      some (((m.without self).write (after x) p).fill self (made x) true) := by
  obtain ⟨storage, -, -, hdestroy⟩ := destroy_eq h hc
  have hx' : (m.without self).read p = some x := hx
  unfold assignFrom
  rw [hdestroy, Option.bind_eq_bind, Option.bind_some, newT_put hp hx', Option.bind_some,
    setV_fill]

theorem assignFrom_inside_self (h : m.Tagged self) (hc : m.cells self = some c) :
    m.assignFrom self (.inside self) made after = none := by
  obtain ⟨storage, -, -, hdestroy⟩ := destroy_eq h hc
  unfold assignFrom
  rw [hdestroy, Option.bind_eq_bind, Option.bind_some, newT_inside_self]
  rfl

/-- The assignment of a constant does not end the `T` it replaces. -/
theorem assignConst_eq (hc : m.cells self = some c) (hp : p ≠ .inside self)
    (hx : m.read p = some x) : m.assignConst self p = some (m.fill self x true) := by
  have hnew : (m.put self c).newT self p (fun x => x) (fun x => x) = some (m.fill self x c.v) := by
    rw [newT_put hp hx, write_read hx]
  rw [put_self hc] at hnew
  unfold assignConst
  rw [hnew, Option.bind_eq_bind, Option.bind_some, setV_fill]

theorem assignConst_inside_self : m.assignConst self (.inside self) = none := by
  unfold assignConst
  rw [newT_inside_self]
  rfl

/-- `move` from an object with a value. -/
theorem move_value (hne : other ≠ self) (hv : m.hasValue other = true)
    (hx : m.read (.inside other) = some x) :
    (m.put self c).move moved self other =
      some ((m.write (moved x) (.inside other)).fill self x true) := by
  have hp : (Place.inside other : Place K O) ≠ .inside self := fun heq => hne (Place.inside.inj heq)
  unfold move
  dsimp only
  rw [hasValue_put hne, hv, setV_put, hasValue_eq cells_put_self, if_pos rfl, newT_put hp hx]

/-- `move` from an object with an error, which may be the target. -/
theorem move_error (hv : (m.put self c).hasValue other = false)
    (he : (m.put self c).error other = some code) :
    (m.put self c).move moved self other = some (m.put self ⟨.ec code, false⟩) := by
  have he' : (m.put self ⟨c.storage, false⟩).error other = some code := by
    by_cases hne : other = self
    · subst hne
      rw [← he, error_eq cells_put_self, error_eq cells_put_self]
    · rw [← he, error_put hne, error_put hne]
  unfold move
  dsimp only
  rw [hv, setV_put, hasValue_eq cells_put_self, if_neg Bool.false_ne_true, he', Option.map_some, newError_put]

/-- An error is moved like it is copied. -/
theorem assignMove_error (h : m.Tagged self) (hc : m.cells self = some c)
    (hv : m.hasValue other = false) (he : m.error other = some code) :
    m.assignMove moved self other = some ((m.without self).put self ⟨.ec code, false⟩) := by
  obtain ⟨storage, -, hcode, hdestroy⟩ := destroy_eq h hc
  unfold assignMove
  rw [hdestroy, Option.bind_eq_bind, Option.bind_some]
  exact move_error ((hasValue_destroyed hc).trans hv) ((error_destroyed hc hcode).trans he)

theorem assignMove_value (h : m.Tagged self) (hc : m.cells self = some c) (hne : other ≠ self)
    (hv : m.hasValue other = true) (hx : m.read (.inside other) = some x) :
    m.assignMove moved self other =
      some (((m.without self).write (moved x) (.inside other)).fill self x true) := by
  obtain ⟨storage, -, -, hdestroy⟩ := destroy_eq h hc
  unfold assignMove
  rw [hdestroy, Option.bind_eq_bind, Option.bind_some]
  exact move_value hne hv hx

/-- An object that is moved to itself has ended its `T`. -/
theorem assignMove_self (h : m.Tagged self) (hc : m.cells self = some c)
    (hv : m.hasValue self = true) : m.assignMove moved self self = none := by
  obtain ⟨storage, -, -, hdestroy⟩ := destroy_eq h hc
  unfold assignMove move
  rw [hdestroy, Option.bind_eq_bind, Option.bind_some]
  dsimp only
  rw [setV_put, hasValue_eq cells_put_self, hasValue_destroyed hc, hv, if_pos rfl, newT_inside_self]

theorem assignCopy_error {throws : Bool} (h : m.Tagged self) (hc : m.cells self = some c)
    (hv : m.hasValue other = false) (he : m.error other = some code) :
    m.assignCopy self other throws = some ((m.without self).put self ⟨.ec code, false⟩) := by
  obtain ⟨storage, -, hcode, hdestroy⟩ := destroy_eq h hc
  unfold assignCopy
  rw [hdestroy, Option.bind_eq_bind, Option.bind_some, hasValue_destroyed hc, hv,
    if_neg Bool.false_ne_true, error_destroyed hc hcode, he, Option.map_some]
  dsimp only
  rw [newError_put, hasValue_destroyed hc, hv, setV_put]

theorem assignCopy_value (h : m.Tagged self) (hc : m.cells self = some c) (hne : other ≠ self)
    (hv : m.hasValue other = true) (hx : m.read (.inside other) = some x) :
    m.assignCopy self other false = some ((m.without self).fill self x true) ∧
      m.assignCopy self other true =
        some ((m.without self).put self ⟨.ec invalidArgument, false⟩) := by
  obtain ⟨storage, -, -, hdestroy⟩ := destroy_eq h hc
  have hp : (Place.inside other : Place K O) ≠ .inside self := fun heq => hne (Place.inside.inj heq)
  have hx' : (m.without self).read (.inside other) = some x := hx
  have hvfill : ((m.without self).fill self x c.v).hasValue other = true :=
    (hasValue_put hne).trans hv
  unfold assignCopy
  rw [hdestroy]
  constructor
  · rw [Option.bind_eq_bind, Option.bind_some, hasValue_destroyed hc, hv, if_pos rfl,
      if_neg Bool.false_ne_true, newT_put hp hx', write_read hx', Option.bind_some,
      hvfill, setV_fill]
  · rw [Option.bind_eq_bind, Option.bind_some, hasValue_destroyed hc, hv, if_pos rfl, if_pos rfl]
    dsimp only
    rw [reuse, modify_put, read_put hp, hx', Option.map_some, setV_put, newError_put]

/-- An object that is copied to itself has ended its `T`. -/
theorem assignCopy_self {throws : Bool} (h : m.Tagged self) (hc : m.cells self = some c)
    (hv : m.hasValue self = true) : m.assignCopy self self throws = none := by
  obtain ⟨storage, -, -, hdestroy⟩ := destroy_eq h hc
  unfold assignCopy
  rw [hdestroy, Option.bind_eq_bind, Option.bind_some, hasValue_destroyed hc, hv, if_pos rfl]
  cases throws with
  | false =>
    rw [if_neg Bool.false_ne_true, newT_inside_self]
    rfl
  | true =>
    rw [if_pos rfl]
    dsimp only
    rw [reuse, modify_put, read_inside cells_put_self]
    rfl

theorem assignConverted_self (h : m.Tagged self) (hc : m.cells self = some c) :
    m.assignConverted conv self self =
      (conv.ofEnded (m.hasValue self)).map fun x => (m.without self).fill self x true := by
  obtain ⟨storage, -, -, hdestroy⟩ := destroy_eq h hc
  unfold assignConverted newConverted
  rw [hdestroy, Option.bind_eq_bind, Option.bind_some, if_pos rfl, hasValue_destroyed hc]
  cases conv.ofEnded (m.hasValue self) with
  | none => rfl
  | some x =>
    rw [Option.map_some, Option.bind_some, makeT_put, setV_fill]
    rfl

theorem assignConverted_value (h : m.Tagged self) (hc : m.cells self = some c) (hne : other ≠ self)
    (hv : m.hasValue other = true) (hx : m.read (.inside other) = some x) :
    m.assignConverted conv self other =
      some (((m.without self).write (conv.leaves x) (.inside other)).fill self (conv.ofValue x) true) := by
  obtain ⟨storage, -, -, hdestroy⟩ := destroy_eq h hc
  have hp : (Place.inside other : Place K O) ≠ .inside self := fun heq => hne (Place.inside.inj heq)
  have hx' : (m.without self).read (.inside other) = some x := hx
  unfold assignConverted newConverted
  rw [hdestroy, Option.bind_eq_bind, Option.bind_some, if_neg hne, hasValue_destroyed hc, hv,
    if_pos rfl, newT_put hp hx', Option.bind_some, setV_fill]

theorem assignConverted_error (h : m.Tagged self) (hc : m.cells self = some c) (hne : other ≠ self)
    (hv : m.hasValue other = false) (he : m.error other = some code) :
    m.assignConverted conv self other =
      some ((m.without self).fill self (conv.ofError code) true) := by
  obtain ⟨storage, -, hcode, hdestroy⟩ := destroy_eq h hc
  unfold assignConverted newConverted
  rw [hdestroy, Option.bind_eq_bind, Option.bind_some, if_neg hne, hasValue_destroyed hc, hv,
    if_neg Bool.false_ne_true, error_destroyed hc hcode, he, Option.map_some, Option.bind_some,
    makeT_put, setV_fill]

theorem copyConstruct_value (hne : other ≠ self) (hv : m.hasValue other = true)
    (hx : m.read (.inside other) = some x) :
    m.copyConstruct self other = some (m.fill self x true) := by
  have hp : (Place.inside other : Place K O) ≠ .inside self := fun heq => hne (Place.inside.inj heq)
  have hallocate : m.allocate self true = m.put self ⟨.raw, true⟩ := rfl
  unfold copyConstruct
  dsimp only
  rw [hv, hallocate, hasValue_eq cells_put_self, if_pos rfl, newT_put hp hx, write_read hx]

theorem copyConstruct_error (hne : other ≠ self) (hv : m.hasValue other = false)
    (he : m.error other = some code) :
    m.copyConstruct self other = some (m.put self ⟨.ec code, false⟩) := by
  have hallocate : m.allocate self false = m.put self ⟨.raw, false⟩ := rfl
  unfold copyConstruct
  dsimp only
  rw [hv, hallocate, hasValue_eq cells_put_self, if_neg Bool.false_ne_true, error_put hne, he,
    Option.map_some, newError_put]

end members

end Mem

end BeastLounge.Expected
