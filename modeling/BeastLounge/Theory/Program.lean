import Mathlib.Data.List.Basic

/-!
# Programs over atomic operations

A thread of a concurrent server is a tree of atomic operations on the shared state: each operation
`c` is answered by some `R c`, the rest of the program depends on the answer, and the program ends
with a value or with an exception. The same tree has two readings. `exec` runs it to its end
against a state, with nothing in between; a scheduler that interleaves threads takes one operation
of one tree at a time.

What a program does whatever the others do in between is a statement about all answers:
`Trace p tr o` says that `p` can perform the operations of `tr` with the answers recorded there and
end in `o`. It is proved with a weakest precondition over a ghost value (`wp`): a `Spec` says which
answers can occur, what must hold when an operation is issued, and how the ghost follows.
-/

namespace BeastLounge.Theory

/-- Programs whose operations `c` are answered in `R c`, ending in an `α` or an exception `E`. -/
inductive Prog {C : Type} (R : C → Type) (E α : Type) : Type
  | pure (a : α)
  | throw (e : E)
  | call (c : C) (k : R c → Prog R E α)

namespace Prog

variable {C : Type} {R : C → Type} {E α β γ σ V : Type}

/-- Sequencing; an exception skips the continuation. -/
def bind (p : Prog R E α) (f : α → Prog R E β) : Prog R E β :=
  match p with
  | pure a => f a
  | throw e => throw e
  | call c k => call c fun r => (k r).bind f

/-- `handler` takes over where `p` throws. -/
def tryCatch (p : Prog R E α) (handler : E → Prog R E α) : Prog R E α :=
  match p with
  | pure a => pure a
  | throw e => handler e
  | call c k => call c fun r => (k r).tryCatch handler

instance : Monad (Prog R E) where
  pure := .pure
  bind := .bind

/-- A single operation. -/
def op (c : C) : Prog R E (R c) := .call c .pure

/-- Run `f` on each element in turn. -/
def each (f : β → Prog R E Unit) : List β → Prog R E Unit
  | [] => .pure ()
  | x :: xs => (f x).bind fun _ => each f xs

/-! ### Running a program against a state -/

/-- Run `p` to its end, each operation acting on the state at once. -/
def exec (h : (c : C) → σ → R c × σ) : Prog R E α → σ → Except E α × σ
  | .pure a, s => (.ok a, s)
  | .throw e, s => (.error e, s)
  | .call c k, s => exec h (k (h c s).1) (h c s).2

/-! ### What a program can do under any answers -/

/-- One performed operation with the answer it got. -/
abbrev Event (R : C → Type) := (c : C) × R c

/-- `p` can perform the operations `tr`, getting these answers, and end in `o`. -/
inductive Trace : Prog R E α → List (Event R) → Except E α → Prop
  | pure (a : α) : Trace (.pure a) [] (.ok a)
  | throw (e : E) : Trace (.throw e) [] (.error e)
  | call {c : C} {k : R c → Prog R E α} {r : R c} {tr : List (Event R)} {o : Except E α}
      (h : Trace (k r) tr o) : Trace (.call c k) (⟨c, r⟩ :: tr) o

/-- The operations a program performs when run against a state, with the answers. -/
def events (h : (c : C) → σ → R c × σ) : Prog R E α → σ → List (Event R)
  | .pure _, _ => []
  | .throw _, _ => []
  | .call c k, s => ⟨c, (h c s).1⟩ :: events h (k (h c s).1) (h c s).2

/-- Running against a state is one of the behaviours `Trace` allows. -/
theorem trace_events (h : (c : C) → σ → R c × σ) (p : Prog R E α) (s : σ) :
    Trace p (p.events h s) (p.exec h s).1 := by
  induction p generalizing s with
  | pure a => exact .pure a
  | throw e => exact .throw e
  | call c k ih => exact .call (ih _ _)

theorem trace_op {c : C} {tr : List (Event R)} {o : Except E (R c)} (h : Trace (op c) tr o) :
    ∃ r, tr = [⟨c, r⟩] ∧ o = .ok r := by
  cases h with
  | @call _ _ r _ _ h =>
    cases h
    exact ⟨r, rfl, rfl⟩

/-- A sequence does all of its first part, and its second part unless the first one throws. -/
theorem trace_bind {p : Prog R E α} {f : α → Prog R E β} {tr : List (Event R)} {o : Except E β}
    (h : Trace (p >>= f) tr o) :
    (∃ a pre rest, tr = pre ++ rest ∧ Trace p pre (.ok a) ∧ Trace (f a) rest o) ∨
      ∃ e, o = .error e ∧ Trace p tr (.error e) := by
  induction p generalizing tr with
  | pure a => exact .inl ⟨a, [], tr, rfl, .pure a, h⟩
  | throw e =>
    cases h
    exact .inr ⟨e, rfl, .throw e⟩
  | call c k ih =>
    cases h with
    | call h =>
      rcases ih _ h with ⟨a, pre, rest, rfl, hp, hf⟩ | ⟨e, rfl, hp⟩
      · exact .inl ⟨a, _ :: pre, rest, rfl, .call hp, hf⟩
      · exact .inr ⟨e, rfl, .call hp⟩

theorem trace_op_bind {c : C} {f : R c → Prog R E α} {tr : List (Event R)} {o : Except E α}
    (h : Trace (op c >>= f) tr o) : ∃ r rest, tr = ⟨c, r⟩ :: rest ∧ Trace (f r) rest o := by
  cases h with
  | @call _ _ r rest _ h => exact ⟨r, rest, rfl, h⟩

/-- `p` ends with a value, and performs only operations that satisfy `P`. -/
def Only (P : C → Prop) (p : Prog R E α) : Prop :=
  ∀ tr o, Trace p tr o → (∃ a, o = .ok a) ∧ ∀ e ∈ tr, P e.1

section only
variable {P : C → Prop} {p : Prog R E α} {f : α → Prog R E β}

theorem only_pure (a : α) : Only P (Pure.pure a : Prog R E α) := by
  intro tr o h
  cases h
  exact ⟨⟨a, rfl⟩, by simp⟩

theorem only_op {c : C} (hc : P c) : Only P (op c : Prog R E (R c)) := by
  intro tr o h
  obtain ⟨a, rfl, rfl⟩ := trace_op h
  exact ⟨⟨a, rfl⟩, by simpa using hc⟩

theorem Only.trace_bind {tr : List (Event R)} {o : Except E β} (hp : Only P p)
    (h : Trace (p >>= f) tr o) :
    ∃ a pre rest, tr = pre ++ rest ∧ (∀ e ∈ pre, P e.1) ∧ Trace (f a) rest o := by
  rcases Prog.trace_bind h with ⟨a, pre, rest, rfl, hpre, hrest⟩ | ⟨e, rfl, he⟩
  · exact ⟨a, pre, rest, rfl, (hp _ _ hpre).2, hrest⟩
  · obtain ⟨⟨a, ha⟩, -⟩ := hp _ _ he
    cases ha

theorem only_bind (hp : Only P p) (hf : ∀ a, Only P (f a)) : Only P (p >>= f) := by
  intro tr o h
  obtain ⟨a, pre, rest, rfl, hpre, hrest⟩ := hp.trace_bind h
  obtain ⟨ho, hall⟩ := hf a _ _ hrest
  refine ⟨ho, fun e he => ?_⟩
  rcases List.mem_append.mp he with he | he
  · exact hpre e he
  · exact hall e he

end only

/-! ### Programs half done -/

/-- After the operations `tr`, with these answers, `q` is left of `p`. -/
inductive Leaves : Prog R E α → List (Event R) → Prog R E α → Prop
  | nil (p : Prog R E α) : Leaves p [] p
  | call {c : C} {k : R c → Prog R E α} {r : R c} {tr : List (Event R)} {q : Prog R E α}
      (h : Leaves (k r) tr q) : Leaves (.call c k) (⟨c, r⟩ :: tr) q

section leaves
variable {p q q' : Prog R E α} {tr tr' : List (Event R)} {o : Except E α}

theorem Leaves.append (h : Leaves p tr q) (h' : Leaves q tr' q') : Leaves p (tr ++ tr') q' := by
  induction h with
  | nil => exact h'
  | call _ ih => exact .call (ih h')

theorem Leaves.snoc {c : C} {k : R c → Prog R E α} (h : Leaves p tr (.call c k)) (r : R c) :
    Leaves p (tr ++ [⟨c, r⟩]) (k r) :=
  h.append (.call (.nil _))

theorem Leaves.trace (h : Leaves p tr q) (h' : Trace q tr' o) : Trace p (tr ++ tr') o := by
  induction h with
  | nil => exact h'
  | call _ ih => exact .call (ih h')

theorem Leaves.split (h : Leaves p (tr ++ tr') q) : ∃ m, Leaves p tr m ∧ Leaves m tr' q := by
  induction tr generalizing p with
  | nil => exact ⟨p, .nil p, h⟩
  | cons e tr ih =>
    cases h with
    | call h =>
      obtain ⟨m, hm, hq⟩ := ih h
      exact ⟨m, .call hm, hq⟩

/-- The answers determine what is left. -/
theorem Leaves.unique (h : Leaves p tr q) (h' : Leaves p tr q') : q = q' := by
  induction h with
  | nil => cases h'; rfl
  | call _ ih => cases h' with | call h' => exact ih h'

/-- An exception at the end of a trace is what is left there. -/
theorem leaves_throw {e : E} (h : Trace p tr (.error e)) : Leaves p tr (.throw e) := by
  induction tr generalizing p with
  | nil => cases h; exact .nil _
  | cons e tr ih => cases h with | call h => exact .call (ih h)

theorem Leaves.tryCatch (h : Leaves p tr q) (f : E → Prog R E α) :
    Leaves (p.tryCatch f) tr (q.tryCatch f) := by
  induction h with
  | nil => exact .nil _
  | call _ ih => exact .call ih

/-- The handler comes into play where `p` throws. -/
theorem trace_tryCatch {f : E → Prog R E α} (h : Trace (p.tryCatch f) tr o) :
    (Trace p tr o ∧ ∃ a, o = .ok a) ∨
      ∃ e pre rest, tr = pre ++ rest ∧ Trace p pre (.error e) ∧ Trace (f e) rest o := by
  induction p generalizing tr with
  | pure a => cases h; exact .inl ⟨.pure a, a, rfl⟩
  | throw e => exact .inr ⟨e, [], tr, rfl, .throw e, h⟩
  | call c k ih =>
    cases h with
    | call h =>
      rcases ih _ h with ⟨h, ho⟩ | ⟨e, pre, rest, rfl, hp, hf⟩
      · exact .inl ⟨.call h, ho⟩
      · exact .inr ⟨e, _ :: pre, rest, rfl, .call hp, hf⟩

theorem trace_op_bind_tryCatch {c : C} {f : R c → Prog R E α} {g : E → Prog R E α}
    (h : Trace ((op c >>= f).tryCatch g) tr o) :
    ∃ r rest, tr = ⟨c, r⟩ :: rest ∧ Trace ((f r).tryCatch g) rest o :=
  trace_op_bind (f := fun r => (f r).tryCatch g) h

end leaves

/-! ### Weakest preconditions over a ghost value -/

/-- What a proof about a program assumes and demands of its operations, with a ghost value of type
`V` that follows the operations. -/
structure Spec (R : C → Type) (V : Type) where
  /-- The answers the environment can give. -/
  may : V → (c : C) → R c → Prop
  /-- What has to hold when the operation is issued. -/
  allow : V → C → Prop
  /-- The ghost value after the operation. -/
  next : V → (c : C) → R c → V

/-- From the ghost value `v`, every operation of `p` is allowed when it is issued, and `p` ends in
an outcome and a ghost value satisfying `post`. -/
def wp (S : Spec R V) (post : Except E α → V → Prop) : Prog R E α → V → Prop
  | .pure a, v => post (.ok a) v
  | .throw e, v => post (.error e) v
  | .call c k, v => S.allow v c ∧ ∀ r, S.may v c r → wp S post (k r) (S.next v c r)

variable {S : Spec R V}

theorem wp_mono {post post' : Except E α → V → Prop} (himp : ∀ o v, post o v → post' o v)
    {p : Prog R E α} {v : V} (h : wp S post p v) : wp S post' p v := by
  induction p generalizing v with
  | pure a => exact himp _ _ h
  | throw e => exact himp _ _ h
  | call c k ih => exact ⟨h.1, fun r hr => ih r (h.2 r hr)⟩

@[simp] theorem wp_pure {a : α} {post : Except E α → V → Prop} {v : V} :
    wp S post (Pure.pure a) v ↔ post (.ok a) v := Iff.rfl

@[simp] theorem wp_throw {e : E} {post : Except E α → V → Prop} {v : V} :
    wp S post (.throw e) v ↔ post (.error e) v := Iff.rfl

@[simp] theorem wp_op {c : C} {post : Except E (R c) → V → Prop} {v : V} :
    wp S post (op c) v ↔ S.allow v c ∧ ∀ r, S.may v c r → post (.ok r) (S.next v c r) := Iff.rfl

@[simp] theorem wp_bind {p : Prog R E α} {f : α → Prog R E β} {post : Except E β → V → Prop}
    {v : V} :
    wp S post (p >>= f) v ↔
      wp S (fun o w => match o with
        | .ok a => wp S post (f a) w
        | .error e => post (.error e) w) p v := by
  induction p generalizing v with
  | pure a => exact Iff.rfl
  | throw e => exact Iff.rfl
  | call c k ih => exact and_congr_right fun _ => forall₂_congr fun r _ => ih r

@[simp] theorem wp_tryCatch {p : Prog R E α} {f : E → Prog R E α} {post : Except E α → V → Prop}
    {v : V} :
    wp S post (p.tryCatch f) v ↔
      wp S (fun o w => match o with
        | .ok a => post (.ok a) w
        | .error e => wp S post (f e) w) p v := by
  induction p generalizing v with
  | pure a => exact Iff.rfl
  | throw e => exact Iff.rfl
  | call c k ih => exact and_congr_right fun _ => forall₂_congr fun r _ => ih r

/-- A loop keeps what each of its iterations keeps. -/
theorem wp_each {f : β → Prog R E Unit} {I : V → Prop} {post : Except E Unit → V → Prop}
    {xs : List β} {v : V} (hv : I v)
    (h : ∀ x ∈ xs, ∀ w, I w → wp S (fun o w' => o = .ok () ∧ I w') (f x) w)
    (hpost : ∀ w, I w → post (.ok ()) w) : wp S post (each f xs) v := by
  induction xs generalizing v with
  | nil => exact hpost v hv
  | cons x xs ih =>
    apply wp_bind.mpr
    apply wp_mono _ (h x (by simp) v hv)
    rintro o w ⟨rfl, hw⟩
    exact ih hw fun y hy => h y (by simp [hy])

/-- The operation is always allowed, and the ghost value does not follow it. -/
def Spec.Idle (S : Spec R V) (c : C) : Prop := ∀ v, S.allow v c ∧ ∀ r, S.next v c r = v

theorem wp_op_idle {c : C} (hc : S.Idle c) {post : Except E (R c) → V → Prop} {v : V}
    (h : ∀ r, S.may v c r → post (.ok r) v) : wp S post (op c) v := by
  refine wp_op.mpr ⟨(hc v).1, fun r hr => ?_⟩
  rw [(hc v).2 r]
  exact h r hr

/-! ### Invariants of the ghost value -/

/-- From a ghost value in `I`, `p` leaves one in `I`, and what it throws is in `T`. -/
def Keeps (S : Spec R V) (I : V → Prop) (T : E → Prop) (p : Prog R E α) : Prop :=
  ∀ v, I v → wp S (fun o w => I w ∧ ∀ e, o = .error e → T e) p v

/-- The operation is allowed in `I` and stays there. -/
def Spec.Safe (S : Spec R V) (I : V → Prop) (c : C) : Prop :=
  ∀ v, I v → S.allow v c ∧ ∀ r, S.may v c r → I (S.next v c r)

section keeps
variable {I : V → Prop} {T : E → Prop}

theorem keeps_ok {P : Prop} {a : α} (h : P) :
    P ∧ ∀ e, (Except.ok a : Except E α) = .error e → T e :=
  ⟨h, fun _ he => by cases he⟩

theorem Keeps.wp {p : Prog R E α} (h : Keeps S I T p) {v : V} (hv : I v) :
    wp S (fun _ w => I w) p v :=
  wp_mono (fun _ _ h => h.1) (h v hv)

theorem keeps_pure (a : α) : Keeps S I T (Pure.pure a : Prog R E α) :=
  fun _ hv => keeps_ok hv

theorem keeps_throw {e : E} (he : T e) : Keeps S I T (.throw e : Prog R E α) := by
  intro v hv
  refine ⟨hv, fun e' h => ?_⟩
  cases h
  exact he

theorem keeps_op {c : C} (h : S.Safe I c) : Keeps S I T (op c : Prog R E (R c)) :=
  fun v hv => ⟨(h v hv).1, fun r hr => keeps_ok ((h v hv).2 r hr)⟩

theorem keeps_bind {p : Prog R E α} {f : α → Prog R E β} (hp : Keeps S I T p)
    (hf : ∀ a, Keeps S I T (f a)) : Keeps S I T (p >>= f) := by
  intro v hv
  apply wp_bind.mpr
  apply wp_mono _ (hp v hv)
  rintro o w ⟨hw, ht⟩
  cases o with
  | ok a => exact hf a w hw
  | error e => exact ⟨hw, fun e' h => by cases h; exact ht e rfl⟩

/-- After a program that does not throw. -/
theorem Keeps.wp_bind {p : Prog R E α} {f : α → Prog R E β} {post : Except E β → V → Prop} {v : V}
    (hp : Keeps S I (fun _ => False) p) (hv : I v) (hf : ∀ a w, I w → Prog.wp S post (f a) w) :
    Prog.wp S post (p >>= f) v := by
  apply Prog.wp_bind.mpr
  apply wp_mono _ (hp v hv)
  rintro o w ⟨hw, ht⟩
  cases o with
  | ok a => exact hf a w hw
  | error e => exact (ht e rfl).elim

/-- What follows an operation may rely on the answers that can occur. -/
theorem keeps_op_bind {c : C} {A : R c → Prop} {f : R c → Prog R E α} (h : S.Safe I c)
    (hA : ∀ v r, I v → S.may v c r → A r) (hf : ∀ r, A r → Keeps S I T (f r)) :
    Keeps S I T (op c >>= f) :=
  fun v hv => wp_bind.mpr <| wp_op.mpr ⟨(h v hv).1, fun r hr =>
    hf r (hA v r hv hr) _ ((h v hv).2 r hr)⟩

/-- A handler may keep exceptions from leaving. -/
theorem keeps_tryCatch {T' : E → Prop} {p : Prog R E α} {f : E → Prog R E α}
    (hp : Keeps S I T' p) (hf : ∀ e, T' e → Keeps S I T (f e)) : Keeps S I T (p.tryCatch f) := by
  intro v hv
  apply wp_tryCatch.mpr
  apply wp_mono _ (hp v hv)
  rintro o w ⟨hw, ht⟩
  cases o with
  | ok a => exact keeps_ok hw
  | error e => exact hf e (ht e rfl) w hw

theorem keeps_each {f : β → Prog R E Unit} {xs : List β} (hf : ∀ x ∈ xs, Keeps S I T (f x)) :
    Keeps S I T (each f xs) := by
  induction xs with
  | nil => exact keeps_pure ()
  | cons x xs ih =>
    exact keeps_bind (hf x (by simp)) fun _ => ih fun y hy => hf y (by simp [hy])

end keeps

/-! ### Soundness -/

/-- The answers of a trace are ones the specification expects. -/
def Follows (S : Spec R V) : V → List (Event R) → Prop
  | _, [] => True
  | v, ⟨c, r⟩ :: tr => S.may v c r ∧ Follows S (S.next v c r) tr

/-- The ghost value at the end of a trace. -/
def ghost (S : Spec R V) (v : V) (tr : List (Event R)) : V :=
  tr.foldl (fun v e => S.next v e.1 e.2) v

theorem ghost_snoc {c : C} {r : R c} (v : V) (tr : List (Event R)) :
    ghost S v (tr ++ [⟨c, r⟩]) = S.next (ghost S v tr) c r := by
  simp [ghost, List.foldl_append]

theorem follows_snoc {c : C} {r : R c} {v : V} {tr : List (Event R)} (h : Follows S v tr)
    (hr : S.may (ghost S v tr) c r) : Follows S v (tr ++ [⟨c, r⟩]) := by
  induction tr generalizing v with
  | nil => exact ⟨hr, trivial⟩
  | cons e tr ih => exact ⟨h.1, ih h.2 hr⟩

/-- `wp` is sound: every behaviour under expected answers ends as the postcondition says. -/
theorem wp_trace {p : Prog R E α} {post : Except E α → V → Prop} {v : V} {tr : List (Event R)}
    {o : Except E α} (h : wp S post p v) (ht : Trace p tr o) (hf : Follows S v tr) :
    post o (ghost S v tr) := by
  induction ht generalizing v with
  | pure a => exact h
  | throw e => exact h
  | call ht ih => exact ih (h.2 _ hf.1) hf.2

/-- No assumption on the answers, and no demand on the operations. -/
def free : Spec R Unit where
  may _ _ _ := True
  allow _ _ := True
  next _ _ _ := ()

theorem free_safe (c : C) : (free : Spec R Unit).Safe (fun _ => True) c :=
  fun _ _ => ⟨trivial, fun _ _ => trivial⟩

theorem follows_of_may (hmay : ∀ v c r, S.may v c r) (v : V) (tr : List (Event R)) :
    Follows S v tr := by
  induction tr generalizing v with
  | nil => trivial
  | cons e tr ih => exact ⟨hmay _ _ _, ih _⟩

/-- What throws is in `T`, whatever the answers are. -/
theorem Keeps.throws {T : E → Prop} {p : Prog R E α} (h : Keeps free (fun _ => True) T p)
    {tr : List (Event R)} {e : E} (ht : Trace p tr (.error e)) : T e :=
  (wp_trace (h () trivial) ht (follows_of_may (fun _ _ _ => trivial) _ _)).2 e rfl

end Prog

end BeastLounge.Theory
