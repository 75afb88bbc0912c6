import Mathlib.Data.List.Basic

/-!
# Containers

Two containers of the C++ libraries as lists: a vector, with the swap of two elements and the
concatenation of what its elements hold, and a string of bounded capacity, whose bound is part of
the type.
-/

namespace BeastLounge.Theory

variable {α : Type}

/-- `swap(v[i], v[j])` on the elements of a vector. -/
def swap (v : List α) (i j : Nat) : List α :=
  match v[i]?, v[j]? with
  | some a, some b => (v.set i b).set j a
  | _, _ => v

theorem swap_last (front ms : List α) (x z : α) :
    swap (front ++ x :: (ms ++ [z])) front.length (front.length + ms.length + 1) =
      front ++ z :: (ms ++ [x]) := by
  have hx : (front ++ x :: (ms ++ [z]))[front.length]? = some x := by simp
  have hz : (front ++ x :: (ms ++ [z]))[front.length + ms.length + 1]? = some z := by
    rw [List.getElem?_append_right (by omega)]
    simp [show front.length + ms.length + 1 - front.length = ms.length + 1 by omega]
  simp only [swap, hx, hz]
  rw [List.set_append_right _ _ (Nat.le_refl _), Nat.sub_self, List.set_cons_zero,
    List.set_append_right _ _ (by omega),
    show front.length + ms.length + 1 - front.length = ms.length + 1 by omega,
    List.set_cons_succ, List.set_append_right _ _ (Nat.le_refl _), Nat.sub_self, List.set_cons_zero]

/-- Swapping moves elements around. -/
theorem swap_perm (v : List α) (i j : Nat) : (swap v i j).Perm v := by
  unfold swap
  split
  · rename_i x y hx hy
    obtain ⟨hi, rfl⟩ := List.getElem?_eq_some_iff.mp hx
    obtain ⟨hj, rfl⟩ := List.getElem?_eq_some_iff.mp hy
    exact List.set_set_perm hi hj
  · exact .rfl

@[simp] theorem length_swap (v : List α) (i j : Nat) : (swap v i j).length = v.length :=
  (swap_perm v i j).length_eq

theorem mem_of_mem_swap {v : List α} {i j : Nat} {a : α} (h : a ∈ swap v i j) : a ∈ v :=
  (swap_perm v i j).mem_iff.mp h

/-- Steps each of which rearranges the elements. -/
theorem foldl_perm {β : Type} {step : List α → β → List α} (h : ∀ v b, (step v b).Perm v)
    (bs : List β) (v : List α) : (bs.foldl step v).Perm v := by
  induction bs generalizing v with
  | nil => exact .rfl
  | cons b bs ih => exact (ih _).trans (h v b)

/-- Only what a test says of the elements matters. -/
theorem findIdx?_congr {p q : α → Bool} {xs : List α} (h : ∀ x ∈ xs, p x = q x) :
    xs.findIdx? p = xs.findIdx? q := by
  induction xs with
  | nil => rfl
  | cons x xs ih =>
    rw [List.findIdx?_cons, List.findIdx?_cons, h x List.mem_cons_self,
      ih fun y hy => h y (List.mem_cons_of_mem _ hy)]

/-- Shorter chunks in the same places make a sublist. -/
theorem flatMap_sublist {β : Type} (f : α → List β) {xs ys : List α} (hlen : ys.length = xs.length)
    (h : ∀ (i : Nat) x, xs[i]? = some x → ∃ y, ys[i]? = some y ∧ (f y).Sublist (f x)) :
    (ys.flatMap f).Sublist (xs.flatMap f) := by
  induction xs generalizing ys with
  | nil =>
    obtain rfl := List.length_eq_zero_iff.mp hlen
    exact .refl _
  | cons x xs ih =>
    obtain ⟨y, ys, rfl⟩ := List.exists_cons_of_length_eq_add_one hlen
    obtain ⟨y', hy', hhead⟩ := h 0 x rfl
    obtain rfl := Option.some.inj hy'
    rw [List.flatMap_cons, List.flatMap_cons]
    exact hhead.append (ih (Nat.succ.inj hlen) fun i => h (i + 1))

/-- One `v` for each occurrence of `y`. -/
theorem flatMap_ite_eq_replicate {β : Type} [DecidableEq α] (l : List α) (y : α) (v : β) :
    (l.flatMap fun u => if u = y then [v] else []) = List.replicate (l.count y) v := by
  induction l with
  | nil => rfl
  | cons u l ih =>
    by_cases hu : u = y
    · subst hu
      simp [ih, List.replicate_succ]
    · simp [ih, hu]

/-- An element that goes into one chunk is one more element of the whole. -/
theorem flatMap_set_perm {β : Type} (f : α → List β) {xs : List α} {i : Nat} {x x' : α} {b : β}
    (hx : xs[i]? = some x) (hf : (f x').Perm (b :: f x)) :
    ((xs.set i x').flatMap f).Perm (b :: xs.flatMap f) := by
  induction xs generalizing i with
  | nil => cases hx
  | cons y ys ih =>
    cases i with
    | zero =>
      obtain rfl := Option.some.inj hx
      rw [List.set_cons_zero, List.flatMap_cons, List.flatMap_cons]
      exact hf.append_right _
    | succ i =>
      rw [List.set_cons_succ, List.flatMap_cons, List.flatMap_cons]
      exact ((ih hx).append_left _).trans List.perm_middle

/-- `static_string<n>`: a string of at most `n` characters. -/
structure StaticString (n : Nat) (α : Type) where
  chars : List α
  length_le : chars.length ≤ n
deriving DecidableEq

namespace StaticString

variable {n : Nat}

def clear : StaticString n α := ⟨[], Nat.zero_le n⟩

/-- `push_back`; `none` stands for the `std::length_error` thrown on a full string. -/
def pushBack (s : StaticString n α) (a : α) : Option (StaticString n α) :=
  if h : s.chars.length < n then
    some ⟨s.chars ++ [a], by rw [List.length_append]; exact Nat.succ_le_of_lt h⟩
  else none

theorem pushBack_eq_some {s t : StaticString n α} {a : α} :
    s.pushBack a = some t ↔ s.chars.length < n ∧ t.chars = s.chars ++ [a] := by
  unfold pushBack
  split
  · rename_i h
    simp only [Option.some.injEq, h, true_and]
    constructor
    · rintro rfl; rfl
    · intro ht
      cases t
      simpa using ht.symm
  · rename_i h
    simp [h]

theorem pushBack_eq_none {s : StaticString n α} {a : α} :
    s.pushBack a = none ↔ n ≤ s.chars.length := by
  unfold pushBack
  split
  · rename_i h
    simp; omega
  · rename_i h
    simp; omega

end StaticString

end BeastLounge.Theory
