import BeastLounge.Http.Request
import BeastLounge.Theory.Paths

/-!
# The document root

The guard of `handle_request` looks for ".." in the text of the target, and `path_cat` drops a
separator at the end of the root. Whatever the root is, the path that is opened then resolves to a
place below it: with its separator back in place, the root ends where the target, which begins with
one, goes on.
-/

namespace BeastLounge.Http

open Theory

section
variable (env : Env) (req : Request)

/-- The path `handle_request` opens; none when it answers without a file. -/
def openedPath : Option String :=
  if req.method ≠ .get ∧ req.method ≠ .head then none
  else if !legalTarget req.target then none
  else some (filePath env.docRoot req.target)

/-- Nothing else of the file system has a part in the response. -/
theorem handleRequest_congr {files files' : Files}
    (h : ∀ path, openedPath env req = some path → files path = files' path) :
    handleRequest env req files = handleRequest env req files' := by
  simp only [openedPath] at h
  unfold handleRequest
  split
  · rfl
  · rename_i hmethod
    split
    · rfl
    · rename_i hlegal
      rw [if_neg hmethod, if_neg hlegal] at h
      simp only [h _ rfl]

end

/-- The components a target adds to the document root. -/
def targetParts (target : String) : List Part :=
  way target.toList ++ if target.toList.getLast? = some '/' then ["index.html".toList] else []

/-- The path lies in the document root, at the end of what the target names. -/
def Within (docRoot target path : String) : Prop :=
  (resolve docRoot.toList).Below (targetParts target) (resolve path.toList)

section paths
variable {docRoot target : String}

/-- With its separator, the base of a path ends where an absolute path goes on. -/
theorem toList_pathCat {rest : List Char} (hroot : docRoot ≠ "") (h : target.toList = '/' :: rest) :
    ∃ base, (pathCat docRoot target).toList = base ++ '/' :: rest ∧
      resolve docRoot.toList = resolve (base ++ ['/']) := by
  have hne : docRoot.toList ≠ [] := fun hnil => hroot (String.toList_eq_nil_iff.mp hnil)
  unfold pathCat
  rw [if_neg hroot]
  split
  · rename_i hlast
    refine ⟨docRoot.toList.dropLast, by simp [h], ?_⟩
    rw [List.dropLast_append_getLast? '/' hlast]
  · exact ⟨docRoot.toList, by simp [h], (resolve_snoc_slash hne).symm⟩

/-- What `filePath` appends to the document root. -/
def withIndex (target : String) : List Char :=
  target.toList ++ if target.toList.getLast? = some '/' then "index.html".toList else []

theorem toList_filePath :
    (filePath docRoot target).toList = (pathCat docRoot target).toList ++
      if target.toList.getLast? = some '/' then "index.html".toList else [] := by
  unfold filePath
  split
  · exact String.toList_append
  · exact (List.append_nil _).symm

theorem way_withIndex (target : String) : way (withIndex target) = targetParts target := by
  unfold withIndex targetParts
  split
  · rename_i hlast
    obtain ⟨t, ht⟩ := List.getLast?_eq_some_iff.mp hlast
    rw [ht, List.append_assoc, List.singleton_append, way_append_slash, way_append_slash,
      way_nil, List.append_nil]
    rfl
  · rw [List.append_nil, List.append_nil]

/-- The guard on the text keeps the components from leading up. -/
theorem parent_notMem_withIndex (h : ¬parent <:+: target.toList) :
    parent ∉ (withIndex target).splitOn '/' := by
  unfold withIndex
  split
  · rename_i hlast
    obtain ⟨t, ht⟩ := List.getLast?_eq_some_iff.mp hlast
    rw [ht] at h ⊢
    rw [List.append_assoc, List.singleton_append, List.splitOn_append_cons_self, List.mem_append]
    rintro (hmem | hmem)
    · exact h ((infix_of_mem_splitOn hmem).trans (List.prefix_append t ['/']).isInfix)
    · revert hmem
      decide
  · rw [List.append_nil]
    exact parent_notMem_splitOn h

theorem within_filePath (hroot : docRoot ≠ "") (h : legalTarget target) :
    Within docRoot target (filePath docRoot target) := by
  simp only [legalTarget, Bool.and_eq_true, decide_eq_true_eq, Bool.not_eq_true',
    decide_eq_false_iff_not] at h
  obtain ⟨hhead, hdots⟩ := h
  obtain ⟨rest, hrest⟩ := List.head?_eq_some_iff.mp hhead
  obtain ⟨base, hbase, hresolve⟩ := toList_pathCat hroot hrest
  obtain ⟨rest', hrest'⟩ : ∃ rest', withIndex target = '/' :: rest' := by
    unfold withIndex
    rw [hrest]
    exact ⟨_, rfl⟩
  have hfile : (filePath docRoot target).toList = base ++ '/' :: rest' := by
    rw [toList_filePath, hbase, List.append_assoc, ← hrest', withIndex, hrest]
  have hparts : way rest' = targetParts target := by
    rw [← way_withIndex, hrest']
    exact (way_append_slash [] rest').symm
  have hdown : parent ∉ rest'.splitOn '/' := by
    have hall := parent_notMem_withIndex hdots
    rw [hrest'] at hall
    have hsplit : ('/' :: rest').splitOn '/' = [] :: rest'.splitOn '/' :=
      List.splitOn_append_cons_self [] rest'
    rw [hsplit] at hall
    exact List.not_mem_of_not_mem_cons hall
  unfold Within
  rw [hresolve, hfile, ← hparts]
  exact below_resolve base hdown

end paths

/-- The path that `handle_request` opens lies in the document root, and a response depends on no file
outside of it. -/
theorem opened_within_docRoot (env : Env) (req : Request) (hroot : env.docRoot ≠ "") :
    (∀ path, openedPath env req = some path → Within env.docRoot req.target path) ∧
      ∀ files files' : Files, (∀ path, Within env.docRoot req.target path → files path = files' path) →
        handleRequest env req files = handleRequest env req files' := by
  have hwithin : ∀ path, openedPath env req = some path → Within env.docRoot req.target path := by
    intro path hpath
    simp only [openedPath] at hpath
    split at hpath
    · contradiction
    · split at hpath
      · contradiction
      · rename_i hlegal
        obtain rfl := Option.some.inj hpath
        exact within_filePath hroot (by simpa using hlegal)
  exact ⟨hwithin, fun files files' h => handleRequest_congr env req fun path hpath =>
    h path (hwithin path hpath)⟩

/-- A relative root that leads up itself, and a target with an empty component and a dot. -/
theorem opened_within_docRoot_index :
    Within "../www/" "/a/.//b/" "../www/a/.//b/index.html" ∧
      resolve "../www/a/.//b/index.html".toList =
        ⟨false, ["..".toList, "www".toList, "a".toList, "b".toList, "index.html".toList]⟩ :=
  ⟨(opened_within_docRoot { emptyRoot with docRoot := "../www/" }
    { method := .get, target := "/a/.//b/" } (by decide)).1 _ (by decide +kernel), by decide +kernel⟩

end BeastLounge.Http
