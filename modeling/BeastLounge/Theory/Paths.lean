import Mathlib.Data.List.Infix

/-!
# Paths, resolved by their text

A path is a sequence of components separated by slashes. Its lexical resolution goes through them
from left to right: it passes over empty components and single dots, and two dots remove the
component before them. Above the root there is nothing, so there they have no effect; a relative
path keeps the dots that have nothing to remove.
-/

namespace BeastLounge.Theory

/-- A component of a path. -/
abbrev Part := List Char

/-- The component that leads up. -/
def parent : Part := ['.', '.']

/-- The component leads somewhere. -/
def leads (part : Part) : Bool := decide (part ≠ [] ∧ part ≠ ['.'])

/-- A path without anything left to resolve. -/
structure Location where
  absolute : Bool
  parts : List Part
deriving DecidableEq

namespace Location

/-- Remove the last component. -/
def up (l : Location) : Location :=
  match l.parts.getLast? with
  | none => if l.absolute then l else { l with parts := [parent] }
  | some last =>
    if last = parent then { l with parts := l.parts ++ [parent] }
    else { l with parts := l.parts.dropLast }

def enter (l : Location) (part : Part) : Location :=
  if part = [] ∨ part = ['.'] then l
  else if part = parent then l.up
  else { l with parts := l.parts ++ [part] }

/-- `l` lies in `base`, at the end of components none of which leads up. -/
structure Below (base : Location) (way : List Part) (l : Location) : Prop where
  absolute : l.absolute = base.absolute
  parts : l.parts = base.parts ++ way
  down : parent ∉ way

end Location

open Location (enter)

def resolve (path : List Char) : Location :=
  (path.splitOn '/').foldl enter ⟨path.head? = some '/', []⟩

/-- The components of a path that lead somewhere. -/
def way (path : List Char) : List Part := (path.splitOn '/').filter leads

section
variable {path rest : List Char} {part : Part} {l : Location}

theorem mem_intersperse {α : Type} {x sep : α} {xs : List α} (h : x ∈ xs) :
    x ∈ xs.intersperse sep := by
  obtain ⟨i, hi⟩ := List.mem_iff_getElem?.mp h
  apply List.mem_iff_getElem?.mpr
  exact ⟨2 * i, by rw [List.getElem?_intersperse_two_mul, hi]⟩

/-- A component is a piece of the text. -/
theorem infix_of_mem_splitOn (h : part ∈ path.splitOn '/') : part <:+: path := by
  have hjoin : ((path.splitOn '/').intersperse ['/']).flatten = path := List.intercalate_splitOn '/'
  have hmem : part ∈ (path.splitOn '/').intersperse ['/'] := mem_intersperse h
  rw [← hjoin]
  exact List.infix_of_mem_flatten hmem

theorem parent_notMem_splitOn (h : ¬parent <:+: path) : parent ∉ path.splitOn '/' :=
  fun hmem => h (infix_of_mem_splitOn hmem)

/-- What does not lead up is appended. -/
theorem foldl_enter {parts : List Part} (h : parent ∉ parts) :
    parts.foldl enter l = { l with parts := l.parts ++ parts.filter leads } := by
  induction parts generalizing l with
  | nil => simp
  | cons part parts ih =>
    obtain ⟨hpart, hparts⟩ := List.ne_and_not_mem_of_not_mem_cons h
    rw [List.foldl_cons, ih hparts, enter]
    by_cases hskip : part = [] ∨ part = ['.']
    · have hleads : leads part = false := by
        rcases hskip with rfl | rfl
        · rfl
        · rfl
      rw [if_pos hskip, List.filter_cons_of_neg (by rw [hleads]; decide)]
    · have hleads : leads part = true := decide_eq_true (not_or.mp hskip)
      rw [if_neg hskip, if_neg (Ne.symm hpart), List.filter_cons_of_pos hleads,
        List.append_assoc, List.singleton_append]

/-- What follows a slash is resolved from where the text up to it leads. -/
theorem resolve_append_slash (path rest : List Char) :
    resolve (path ++ '/' :: rest) = (rest.splitOn '/').foldl enter (resolve (path ++ ['/'])) := by
  have hhead : (path ++ '/' :: rest).head? = (path ++ ['/']).head? := by
    cases path with
    | nil => rfl
    | cons c path => rfl
  have hnil : (path ++ ['/']).splitOn '/' = path.splitOn '/' ++ [[]] :=
    List.splitOn_append_cons_self path []
  simp only [resolve, hhead, hnil, List.splitOn_append_cons_self, List.foldl_append]
  rfl

/-- A slash at the end changes nothing. -/
theorem resolve_snoc_slash (h : path ≠ []) : resolve (path ++ ['/']) = resolve path := by
  have hhead : (path ++ ['/']).head? = path.head? := List.head?_append_of_ne_nil _ h
  have hnil : (path ++ ['/']).splitOn '/' = path.splitOn '/' ++ [[]] :=
    List.splitOn_append_cons_self path []
  simp only [resolve, hhead, hnil, List.foldl_append]
  rfl

/-- A path that never leads up stays below the directory it is appended to. -/
theorem below_resolve (path : List Char) (h : parent ∉ rest.splitOn '/') :
    (resolve (path ++ ['/'])).Below (way rest) (resolve (path ++ '/' :: rest)) := by
  rw [resolve_append_slash path rest, foldl_enter h]
  exact ⟨rfl, rfl, fun hmem => h (List.mem_of_mem_filter hmem)⟩

@[simp] theorem way_nil : way [] = [] := rfl

theorem way_append_slash (path rest : List Char) :
    way (path ++ '/' :: rest) = way path ++ way rest := by
  simp only [way, List.splitOn_append_cons_self, List.filter_append]

end

end BeastLounge.Theory
