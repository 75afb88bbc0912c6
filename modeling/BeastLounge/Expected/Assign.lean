import BeastLounge.Expected.Members

/-!
# Assignment from an lvalue

An `e = x` where `x` is an lvalue should leave `x` and give `e` its value. The forwarding operator
takes every lvalue that is not constant and that a `T` can be constructed from, and moves from it, so
it does so only where a move does not show; from an `expected<T>` it makes a `T` whatever that holds.
An assignment of `e` to itself ends the value before it is copied.
-/

namespace BeastLounge.Expected

section property
variable {K O V : Type*} [DecidableEq K] [DecidableEq O]

/-- What the observers of an object give. -/
def Mem.contents (m : Mem K O V) (k : K) : Option (Except ErrorCode V) :=
  if m.hasValue k then (m.read (.inside k)).map .ok else (m.error k).map .error

/-- The lvalues that are assigned: of type `T`, or objects of type `expected<T>`. -/
def Source.isLvalue : Source K O V → Bool
  | .lvalue _ | .constLvalue _ | .expected _ | .expectedLvalue _ => true
  | _ => false

/-- What an assignment of the lvalue should give. -/
def Source.contents (m : Mem K O V) : Source K O V → Option (Except ErrorCode V)
  | .lvalue p | .constLvalue p => (m.read p).map .ok
  | .expected k | .expectedLvalue k => m.contents k
  | _ => none

/-- The lvalue is as it was, unless it is the target or in it. -/
def Source.Unchanged (m m' : Mem K O V) (self : K) : Source K O V → Prop
  | .lvalue p | .constLvalue p => p ≠ .inside self → m'.read p = m.read p
  | .expected k | .expectedLvalue k => k ≠ self → m'.cells k = m.cells k
  | _ => True

/-- The assignment of `x` that gave `r` copied it. -/
def Copies (m : Mem K O V) (self : K) (x : Source K O V) (r : Option (Mem K O V)) : Prop :=
  ∃ m', r = some m' ∧ m'.Tagged self ∧ m'.contents self = x.contents m ∧ x.Unchanged m m' self

/-- The construction makes the value of the object at `k`, which it leaves. -/
def Conversion.Reproduces (conv : Conversion V) (m : Mem K O V) (self k : K) : Prop :=
  ∃ x, m.contents k = some (.ok x) ∧
    if k = self then conv.ofEnded true = some x else conv.ofValue x = x ∧ conv.leaves x = x

/-- The source is not in the target, unless that holds an error, and a move would not change it if
it is a `T` that is not constant. From an `expected<T>` that is not constant a `T` is constructed, if
it can be. -/
def Source.Copyable (moved : V → V) (conv : Option (Conversion V)) (m : Mem K O V) (self : K) :
    Source K O V → Prop
  | .lvalue p => p ≠ .inside self ∧ ∀ x, m.read p = some x → moved x = x
  | .constLvalue p => p ≠ .inside self
  | .expected k => k = self → m.hasValue self = false
  | .expectedLvalue k =>
    match conv with
    | none => k = self → m.hasValue self = false
    | some conv => conv.Reproduces m self k
  | _ => True

end property

namespace Mem

section given
variable {K O V : Type*} {m m' : Mem K O V} {self : K} {source : Source K O V} {x y : V}
  {code : ErrorCode}

/-- A target that was given a value. -/
theorem copies_value_iff (hm' : m'.contents self = some (.ok y)) (htag : m'.Tagged self)
    (hx : source.contents m = some (.ok x)) :
    Copies m self source (some m') ↔ y = x ∧ source.Unchanged m m' self := by
  constructor
  · rintro ⟨m'', heq, -, hcontents, hsame⟩
    obtain rfl := Option.some.inj heq
    rw [hm', hx] at hcontents
    exact ⟨Except.ok.inj (Option.some.inj hcontents), hsame⟩
  · rintro ⟨rfl, hsame⟩
    exact ⟨m', rfl, htag, hm'.trans hx.symm, hsame⟩

/-- What holds an error is not copied when a `T` is constructed from it. -/
theorem not_copies_error (hm' : m'.contents self = some (.ok y))
    (hx : source.contents m = some (.error code)) : ¬Copies m self source (some m') := by
  rintro ⟨m'', heq, -, hcontents, -⟩
  obtain rfl := Option.some.inj heq
  rw [hm', hx] at hcontents
  cases hcontents

end given


section assign
variable {K O V : Type*} [DecidableEq K] {m : Mem K O V} {self k : K} {p : Place K O} {x y : V}
  {c : Cell V} {code : ErrorCode}

/-- A target that is given a `T`. -/
theorem fill_gives : (m.fill self x true).Tagged self ∧
    (m.fill self x true).contents self = some (.ok x) := by
  have hcell : (m.fill self x true).cells self = some ⟨.t m.next x, true⟩ := cells_put_self
  refine ⟨fun c hc => ?_, ?_⟩
  · rw [hcell] at hc
    exact Option.some.inj hc ▸ rfl
  · unfold contents
    rw [hasValue_eq hcell, read_inside hcell]
    rfl

theorem read_fill (hp : p ≠ .inside self) : (m.fill self x true).read p = m.read p := by
  cases p with
  | object o => rfl
  | inside k =>
    have hk : k ≠ self := fun heq => hp (heq ▸ rfl)
    exact congrArg (Option.bind · _) (cells_put_of_ne hk)

/-- A target that is given an error. -/
theorem put_gives : (m.put self ⟨.ec code, false⟩).Tagged self ∧
    (m.put self ⟨.ec code, false⟩).contents self = some (.error code) := by
  refine ⟨fun c hc => ?_, ?_⟩
  · rw [cells_put_self] at hc
    exact Option.some.inj hc ▸ rfl
  · unfold contents
    rw [hasValue_eq cells_put_self, error_eq cells_put_self]
    rfl

variable [DecidableEq O]

theorem read_write (hx : m.read p = some x) : (m.write y p).read p = some y := by
  cases p with
  | object o => exact congrArg some (Function.update_self ..)
  | inside k =>
    obtain ⟨⟨storage, v⟩, hc, hvalue⟩ := Option.bind_eq_some_iff.mp hx
    have hcell : (m.write y (.inside k)).cells k = some ⟨storage.become y, v⟩ :=
      (Function.update_self ..).trans (by rw [hc]; rfl)
    rw [read_inside hcell]
    cases storage with
    | t id z => rfl
    | _ => contradiction

variable {moved : V → V}

/-- A `T` that is not constant is moved from. -/
theorem copies_lvalue_iff (h : m.Tagged self) (hc : m.cells self = some c) (hx : m.read p = some x) :
    Copies m self (.lvalue p) (m.assignFrom self p (fun x => x) moved) ↔
      p ≠ .inside self ∧ moved x = x := by
  by_cases hself : p = .inside self
  · rw [hself, assignFrom_inside_self h hc]
    refine iff_of_false ?_ fun hno => hno.1 rfl
    rintro ⟨m', hm', -⟩
    contradiction
  · have hafter : (((m.without self).write (moved x) p).fill self x true).read p = some (moved x) :=
      (read_fill hself).trans (read_write (m := m.without self) hx)
    rw [assignFrom_eq h hc hself hx]
    constructor
    · rintro ⟨m', hm', -, -, hsame⟩
      have hread := hsame hself
      rw [← Option.some.inj hm', hafter, hx] at hread
      exact ⟨hself, Option.some.inj hread⟩
    · rintro ⟨-, hmoved⟩
      refine ⟨_, rfl, fill_gives.1, fill_gives.2.trans ?_, fun _ => ?_⟩
      · rw [Source.contents, hx, Option.map_some]
      · rw [hafter, hmoved, hx]

theorem copies_constLvalue_iff (hc : m.cells self = some c) (hx : m.read p = some x) :
    Copies m self (.constLvalue p) (m.assignConst self p) ↔ p ≠ .inside self := by
  by_cases hself : p = .inside self
  · rw [hself, assignConst_inside_self]
    refine iff_of_false ?_ fun hno => hno rfl
    rintro ⟨m', hm', -⟩
    contradiction
  · rw [assignConst_eq hc hself hx]
    refine iff_of_true ⟨_, rfl, fill_gives.1, fill_gives.2.trans ?_, fun _ => read_fill hself⟩ hself
    rw [Source.contents, hx, Option.map_some]

theorem copies_expected_iff {c' : Cell V} (h : m.Tagged self) (hc : m.cells self = some c)
    (hk : m.Tagged k) (hc' : m.cells k = some c') :
    Copies m self (.expected k) (m.assignCopy self k false) ↔
      (k = self → m.hasValue self = false) := by
  rcases hk.value_or_error hc' with ⟨x, hv, hx⟩ | ⟨code, hv, he, -⟩
  · by_cases hself : k = self
    · subst hself
      rw [assignCopy_self h hc hv, hv]
      refine iff_of_false ?_ fun hno => Bool.false_ne_true (hno rfl).symm
      rintro ⟨m', hm', -⟩
      contradiction
    · rw [(assignCopy_value h hc hself hv hx).1]
      refine iff_of_true ⟨_, rfl, fill_gives.1, fill_gives.2.trans ?_, fun _ => cells_put_of_ne hself⟩
        fun heq => absurd heq hself
      rw [Source.contents, contents, hv, hx]
      rfl
  · rw [assignCopy_error h hc hv he]
    refine iff_of_true ⟨_, rfl, put_gives.1, put_gives.2.trans ?_, fun hne => cells_put_of_ne hne⟩
      fun heq => heq ▸ hv
    rw [Source.contents, contents, hv, he]
    rfl

/-- An object with a value is as it was if the value is. -/
theorem cells_write_iff (h : m.Tagged k) (hx : m.read (.inside k) = some x) :
    (m.write y (.inside k)).cells k = m.cells k ↔ y = x := by
  obtain ⟨c, hc, hvalue⟩ := Option.bind_eq_some_iff.mp hx
  rcases h.cases hc with ⟨id, z, rfl⟩ | ⟨code, rfl⟩
  · obtain rfl : z = x := Option.some.inj hvalue
    have hcell : (m.write y (.inside k)).cells k = some ⟨.t id y, true⟩ :=
      (Function.update_self ..).trans (by rw [hc]; rfl)
    rw [hcell, hc]
    simp
  · cases hvalue

theorem copies_expectedLvalue_iff {conv : Conversion V} {c' : Cell V} (h : m.Tagged self)
    (hc : m.cells self = some c) (hk : m.Tagged k) (hc' : m.cells k = some c') :
    Copies m self (.expectedLvalue k) (m.assignConverted conv self k) ↔ conv.Reproduces m self k := by
  unfold Conversion.Reproduces
  rcases hk.value_or_error hc' with ⟨x, hv, hx⟩ | ⟨code, hv, he, -⟩
  · have hcontents : m.contents k = some (.ok x) := by
      rw [contents, hv, hx]
      rfl
    have hsource : (Source.expectedLvalue k : Source K O V).contents m = some (.ok x) := hcontents
    have hheld : ∀ y, m.contents k = some (.ok y) → y = x := fun y hy =>
      Except.ok.inj (Option.some.inj (hy.symm.trans hcontents))
    by_cases hself : k = self
    · subst hself
      simp only [if_true]
      rw [assignConverted_self h hc, hv]
      constructor
      · intro hcopies
        cases hended : conv.ofEnded true with
        | none =>
          rw [hended] at hcopies
          obtain ⟨m', hm', -⟩ := hcopies
          contradiction
        | some y =>
          rw [hended] at hcopies
          obtain ⟨rfl, -⟩ := (copies_value_iff fill_gives.2 fill_gives.1 hsource).mp hcopies
          exact ⟨y, hcontents, rfl⟩
      · rintro ⟨y, hy, hended⟩
        rw [hended]
        exact (copies_value_iff fill_gives.2 fill_gives.1 hsource).mpr
          ⟨hheld y hy, fun hne => absurd rfl hne⟩
    · have hp : (Place.inside k : Place K O) ≠ .inside self := fun heq => hself (Place.inside.inj heq)
      have hx' : (m.without self).read (.inside k) = some x := hx
      have hcell : (((m.without self).write (conv.leaves x) (.inside k)).fill self (conv.ofValue x)
          true).cells k = m.cells k ↔ conv.leaves x = x := by
        rw [← cells_write_iff (m := m.without self) hk hx']
        exact iff_of_eq (congrArg (· = m.cells k) (cells_put_of_ne hself))
      simp only [if_neg hself]
      rw [assignConverted_value h hc hself hv hx, copies_value_iff fill_gives.2 fill_gives.1 hsource]
      constructor
      · rintro ⟨hmade, hsame⟩
        exact ⟨x, hcontents, hmade, hcell.mp (hsame hself)⟩
      · rintro ⟨y, hy, hmade, hleaves⟩
        obtain rfl := hheld y hy
        exact ⟨hmade, fun _ => hcell.mpr hleaves⟩
  · have hcontents : m.contents k = some (.error code) := by
      rw [contents, hv, he]
      rfl
    have hsource : (Source.expectedLvalue k : Source K O V).contents m = some (.error code) :=
      hcontents
    refine iff_of_false ?_ ?_
    · by_cases hself : k = self
      · subst hself
        rw [assignConverted_self h hc]
        cases conv.ofEnded (m.hasValue k) with
        | none =>
          rintro ⟨m', hm', -⟩
          contradiction
        | some y => exact not_copies_error fill_gives.2 hsource
      · rw [assignConverted_error h hc hself hv he]
        exact not_copies_error fill_gives.2 hsource
    · rintro ⟨x, hx, -⟩
      rw [hcontents] at hx
      cases hx

end assign

end Mem

section statement
variable {K O V : Type*} [DecidableEq K] [DecidableEq O] {m : Mem K O V} {self : K}
  {x : Source K O V}

/-- The assignment of an lvalue copies it exactly when it is copyable. -/
theorem assign_copies_iff (moved : V → V) (conv : Option (Conversion V)) (htag : ∀ k, m.Tagged k)
    (hself : (m.cells self).isSome) (hx : x.wellFormed m) (hlvalue : x.isLvalue) :
    Copies m self x (m.assign moved conv self false x) ↔ x.Copyable moved conv m self := by
  obtain ⟨c, hc⟩ := Option.isSome_iff_exists.mp hself
  cases x with
  | lvalue p =>
    obtain ⟨x, hx⟩ := Option.isSome_iff_exists.mp hx
    rw [Mem.assign, Mem.copies_lvalue_iff (htag self) hc hx]
    exact and_congr_right fun _ =>
      ⟨fun h y hy => Option.some.inj (hx.symm.trans hy) ▸ h, fun h => h x hx⟩
  | constLvalue p =>
    obtain ⟨x, hx⟩ := Option.isSome_iff_exists.mp hx
    exact Mem.copies_constLvalue_iff hc hx
  | expected k =>
    obtain ⟨c', hc'⟩ := Option.isSome_iff_exists.mp hx
    exact Mem.copies_expected_iff (htag self) hc (htag k) hc'
  | expectedLvalue k =>
    obtain ⟨c', hc'⟩ := Option.isSome_iff_exists.mp hx
    cases conv with
    | none => exact Mem.copies_expected_iff (htag self) hc (htag k) hc'
    | some conv => exact Mem.copies_expectedLvalue_iff (htag self) hc (htag k) hc'
  | _ => contradiction

end statement

/-- An object with an error, and a string. -/
def errorAndString : Mem Unit Unit String where
  cells := fun _ => some ⟨.ec invalidArgument, false⟩
  objects := fun _ => "x"

theorem tagged_errorAndString : ∀ k, errorAndString.Tagged k := by
  rintro k c hc
  exact Option.some.inj hc ▸ rfl

/-- A constant string is copied. -/
theorem assign_copies_constLvalue : Copies errorAndString () (.constLvalue (.object ()))
    (errorAndString.assign (fun _ => "") none () false (.constLvalue (.object ()))) := by
  refine (assign_copies_iff _ _ tagged_errorAndString rfl rfl rfl).mpr ?_
  show (Place.object () : Place Unit Unit) ≠ .inside ()
  decide

/-- A string that is not constant is empty afterwards. -/
theorem assign_lvalue_moves :
    ¬∀ (m : Mem Unit Unit String) (self : Unit) (x : Source Unit Unit String),
    (∀ k, m.Tagged k) → (m.cells self).isSome → x.wellFormed m → x.isLvalue →
      Copies m self x (m.assign (fun _ => "") none self false x) := by
  intro h
  obtain ⟨m', hm', -, -, hsame⟩ :=
    h errorAndString () (.lvalue (.object ())) tagged_errorAndString rfl rfl rfl
  have hread := hsame (by decide)
  rw [← Option.some.inj hm'] at hread
  exact absurd (Option.some.inj hread) (by decide)

end BeastLounge.Expected
