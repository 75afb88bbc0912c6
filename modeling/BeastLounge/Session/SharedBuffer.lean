import BeastLounge.Theory.Runs
import BeastLounge.Theory.Holders

/-!
# The blocks behind the messages

A `message` is a counted handle on a block that holds an `impl` and, after it, a flat copy of the
buffers it was made from. Here are the operations of the handles over all the blocks at once, with
the sizes as the code computes them in `size_t`. A count is a plain number: each handle takes up
memory of its own, so there are never as many as 2^64.

An access to a block after its deallocation, or a payload written past the end of its block, is
undefined, and then there is no step.
-/

namespace BeastLounge.Session

open Theory

/-- A block that was allocated. -/
structure Impl where
  /-- The element counts given to `allocate` and to `deallocate`. -/
  allocated : Nat
  deallocated : List Nat := []
  /-- The bytes after the object, which `cb` refers to. -/
  cb : List UInt8
  count : Nat := 1

structure Handles (H : Type*) where
  live : Finset H := ∅
  /-- `p_` of each handle. -/
  p : H → Option Nat := fun _ => none
  /-- The blocks in the order of their allocation. -/
  blocks : List Impl := []

inductive HandleOp (H : Type*)
  | null (m : H)
  | ofBuffers (m : H) (buffers : List (List UInt8))
  | copy (m other : H)
  | move (m other : H)
  | swap (lhs rhs : H)
  | destroy (m : H)

/-- How many elements hold an object of the size `size` and `n` bytes after it. -/
def elements (size n : Nat) : Nat := (2 * size + n - 1) % 2 ^ 64 / size

def bufferBytes (buffers : List (List UInt8)) : Nat := buffers.flatten.length % 2 ^ 64

namespace Handles

variable {H : Type*} [DecidableEq H]

/-- The object of a block, undefined once the block is deallocated. -/
def access (blocks : List Impl) (b : Nat) : Option Impl :=
  blocks[b]?.filter fun i => i.deallocated.isEmpty

/-- `if(p_) ++p_->count` -/
def retain (blocks : List Impl) : Option Nat → Option (List Impl)
  | none => some blocks
  | some b => (access blocks b).map fun i => blocks.set b { i with count := i.count + 1 }

/-- `~message` -/
def release (size : Nat) (blocks : List Impl) : Option Nat → Option (List Impl)
  | none => some blocks
  | some b => (access blocks b).map fun i =>
    let i := { i with count := i.count - 1 }
    blocks.set b (if i.count = 0 then
      { i with deallocated := i.deallocated ++ [elements size i.cb.length] } else i)

def step (size : Nat) (s : Handles H) : HandleOp H → Option (Handles H)
  | .null m =>
    if m ∈ s.live then none
    else some { s with live := insert m s.live, p := Function.update s.p m none }
  | .ofBuffers m buffers =>
    let n := bufferBytes buffers
    if m ∈ s.live ∨ elements size n * size < size + n then none
    else some {
      live := insert m s.live
      p := Function.update s.p m (some s.blocks.length)
      blocks := s.blocks ++ [{ allocated := elements size n, cb := buffers.flatten.take n }] }
  | .copy m other =>
    if m ∈ s.live ∨ other ∉ s.live then none
    else (retain s.blocks (s.p other)).map fun blocks =>
      { live := insert m s.live, p := Function.update s.p m (s.p other), blocks }
  | .move m other =>
    if m ∈ s.live ∨ other ∉ s.live then none
    else some { s with
      live := insert m s.live
      p := Function.update (Function.update s.p m (s.p other)) other none }
  | .swap lhs rhs =>
    if lhs ∉ s.live ∨ rhs ∉ s.live then none
    else some { s with p := s.p ∘ Equiv.swap lhs rhs }
  | .destroy m =>
    if m ∉ s.live then none
    else (release size s.blocks (s.p m)).map fun blocks =>
      { live := s.live.erase m, p := Function.update s.p m none, blocks }

/-- What `begin` refers to, undefined on a null message. -/
def begin (s : Handles H) (m : H) : Option (List UInt8) :=
  (s.p m).bind fun b => (access s.blocks b).map (·.cb)

end Handles

/-! ### The values of the messages -/

section values
variable {H : Type*} [DecidableEq H]

/-- What a message is for: it has the bytes of some buffers, or is null, and a copy has the same. -/
def HandleOp.apply (value : H → Option (List UInt8)) : HandleOp H → H → Option (List UInt8)
  | .null m => Function.update value m none
  | .ofBuffers m buffers => Function.update value m (some buffers.flatten)
  | .copy m other => Function.update value m (value other)
  | .move m other => Function.update (Function.update value m (value other)) other none
  | .swap lhs rhs => value ∘ Equiv.swap lhs rhs
  | .destroy m => Function.update value m none

/-- The values after some operations. -/
def values (ops : List (HandleOp H)) : H → Option (List UInt8) :=
  ops.foldl HandleOp.apply fun _ => none

end values

/-! ### The property -/

section property
variable {H : Type*} [DecidableEq H]

/-- The handles that an operation is about are there, and a new one takes up no other's place. -/
def HandleOp.WellFormed (live : Finset H) : HandleOp H → Prop
  | .null m | .ofBuffers m _ => m ∉ live
  | .copy m other | .move m other => m ∉ live ∧ other ∈ live
  | .swap lhs rhs => lhs ∈ live ∧ rhs ∈ live
  | .destroy m => m ∈ live

/-- The size of the payload leaves room for the size of the block in `size_t`. -/
def HandleOp.Fits (size : Nat) : HandleOp H → Prop
  | .ofBuffers _ buffers => 2 * size + buffers.flatten.length ≤ 2 ^ 64
  | _ => True

/-- A block with `n` handles. -/
structure Impl.Counted (size n : Nat) (i : Impl) : Prop where
  count : i.count = n
  deallocated : i.deallocated = if n = 0 then [i.allocated] else []
  fits : size + i.cb.length ≤ i.allocated * size

structure Handles.Counted (size : Nat) (s : Handles H) : Prop where
  counted : ∀ (b : Nat) (i : Impl), s.blocks[b]? = some i → i.Counted size (holders s.live s.p b)
  defined : ∀ op : HandleOp H, op.WellFormed s.live → op.Fits size → s.step size op ≠ none

end property

/-! ### The size of a block -/

/-- The bytes after the object fit in its block exactly when the size did not overflow. -/
theorem elements_enough_iff {size n : Nat} (hsize : 0 < size) :
    size + n ≤ elements size n * size ↔ 2 * size + n ≤ 2 ^ 64 := by
  have hdiv := Nat.div_add_mod ((2 * size + n - 1) % 2 ^ 64) size
  have hmod := Nat.mod_lt ((2 * size + n - 1) % 2 ^ 64) hsize
  unfold elements
  rw [Nat.mul_comm]
  by_cases hfits : 2 * size + n ≤ 2 ^ 64
  · rw [Nat.mod_eq_of_lt (show 2 * size + n - 1 < 2 ^ 64 by omega)] at hdiv hmod ⊢
    exact iff_of_true (by omega) hfits
  · have hwrap : (2 * size + n - 1) % 2 ^ 64 ≤ 2 * size + n - 1 - 2 ^ 64 := by
      rw [Nat.mod_eq_sub_mod (by omega)]
      exact Nat.mod_le _ _
    exact iff_of_false (by omega) hfits

/-! ### Blocks and how many handles each has -/

namespace Handles

section blocks
variable {size : Nat} {blocks : List Impl} {n n' : Nat → Nat} {b : Nat} {i i' : Impl} {x : Option Nat}

/-- The block `b` has `n b` handles, and a place without a block has none. -/
structure Tally (size : Nat) (blocks : List Impl) (n : Nat → Nat) : Prop where
  block : ∀ (b : Nat) (i : Impl), blocks[b]? = some i →
    i.Counted size (n b) ∧ i.allocated = elements size i.cb.length
  inside : ∀ b, blocks[b]? = none → n b = 0

/-- A block with a handle is not deallocated. -/
theorem Tally.access (h : Tally size blocks n) (hb : 0 < n b) :
    ∃ i, blocks[b]? = some i ∧ Handles.access blocks b = some i ∧ i.deallocated = [] := by
  cases hi : blocks[b]? with
  | none => exact absurd (h.inside b hi) hb.ne'
  | some i =>
    have hnil : i.deallocated = [] := by
      rw [(h.block b i hi).1.deallocated, if_neg hb.ne']
    refine ⟨i, rfl, ?_, hnil⟩
    unfold Handles.access
    rw [hi, Option.filter_some, hnil]
    rfl

/-- One block is changed together with its count. -/
theorem Tally.set (h : Tally size blocks n) (hb : blocks[b]? = some i)
    (hi : i'.Counted size (n' b) ∧ i'.allocated = elements size i'.cb.length)
    (hother : ∀ c, c ≠ b → n' c = n c) : Tally size (blocks.set b i') n' := by
  obtain ⟨hlt, -⟩ := List.getElem?_eq_some_iff.mp hb
  refine ⟨fun c j hj => ?_, fun c hc => ?_⟩
  · by_cases hcb : c = b
    · subst hcb
      rw [List.getElem?_set_self hlt] at hj
      exact Option.some.inj hj ▸ hi
    · rw [List.getElem?_set_ne (Ne.symm hcb)] at hj
      rw [hother c hcb]
      exact h.block c j hj
  · have hcb : c ≠ b := by
      rintro rfl
      rw [List.getElem?_set_self hlt] at hc
      contradiction
    rw [List.getElem?_set_ne (Ne.symm hcb)] at hc
    rw [hother c hcb]
    exact h.inside c hc

/-- The bytes of a block. -/
def payload (blocks : List Impl) (b : Nat) : Option (List UInt8) := blocks[b]?.map (·.cb)

theorem payload_set (hb : blocks[b]? = some i) (hcb : i'.cb = i.cb) :
    payload (blocks.set b i') = payload blocks := by
  funext c
  obtain ⟨hlt, -⟩ := List.getElem?_eq_some_iff.mp hb
  unfold payload
  by_cases hc : b = c
  · subst hc
    rw [List.getElem?_set_self hlt, hb, Option.map_some, Option.map_some, hcb]
  · rw [List.getElem?_set_ne hc]

theorem Tally.retain (h : Tally size blocks n) (hx : ∀ b, x = some b → 0 < n b)
    (hn : ∀ b, n' b = n b + share x b) :
    ∃ blocks', Handles.retain blocks x = some blocks' ∧ Tally size blocks' n' ∧
      payload blocks' = payload blocks := by
  cases x with
  | none => exact ⟨blocks, rfl, (funext hn : n' = n) ▸ h, rfl⟩
  | some b =>
    obtain ⟨i, hb, haccess, hnil⟩ := h.access (hx b rfl)
    obtain ⟨⟨hcount, hdealloc, hfits⟩, hsize⟩ := h.block b i hb
    refine ⟨blocks.set b { i with count := i.count + 1 },
      by rw [Handles.retain, haccess, Option.map_some], h.set hb ⟨⟨?_, ?_, hfits⟩, hsize⟩ ?_,
      payload_set hb rfl⟩
    · rw [hn, share_self]
      exact congrArg (· + 1) hcount
    · rw [hn, share_self, if_neg (Nat.succ_ne_zero _)]
      exact hnil
    · intro c hc
      rw [hn, share_of_ne (Ne.symm hc), Nat.add_zero]

theorem Tally.release (h : Tally size blocks n) (hn : ∀ b, n' b + share x b = n b) :
    ∃ blocks', Handles.release size blocks x = some blocks' ∧ Tally size blocks' n' ∧
      payload blocks' = payload blocks := by
  cases x with
  | none => exact ⟨blocks, rfl, (funext hn : n' = n) ▸ h, rfl⟩
  | some b =>
    have hb' : n' b + 1 = n b := by rw [← hn b, share_self]
    obtain ⟨i, hb, haccess, hnil⟩ := h.access (b := b) (by omega)
    obtain ⟨⟨hcount, hdealloc, hfits⟩, hsize⟩ := h.block b i hb
    have hpred : i.count - 1 = n' b := by omega
    refine ⟨_, by rw [Handles.release, haccess, Option.map_some], h.set hb ?_ ?_, payload_set hb ?_⟩
    · dsimp only
      rw [hpred]
      split
      · rename_i hzero
        refine ⟨⟨rfl, ?_, hfits⟩, hsize⟩
        rw [if_pos hzero, hnil, hsize]
        rfl
      · rename_i hpos
        refine ⟨⟨rfl, ?_, hfits⟩, hsize⟩
        rw [if_neg hpos]
        exact hnil
    · intro c hc
      have hne := hn c
      rw [share_of_ne (Ne.symm hc)] at hne
      exact hne
    · dsimp only
      split <;> rfl

/-- A new block with the handle it is made for. -/
theorem Tally.append {bytes : List UInt8} (h : Tally size blocks n)
    (hfits : size + bytes.length ≤ elements size bytes.length * size)
    (hn : ∀ b, n' b = n b + share (some blocks.length) b) :
    Tally size (blocks ++ [{ allocated := elements size bytes.length, cb := bytes }]) n' := by
  have hlast : n' blocks.length = 1 := by
    rw [hn, share_self, h.inside _ (List.getElem?_eq_none (le_refl _))]
  have hother : ∀ c, c ≠ blocks.length → n' c = n c := by
    intro c hc
    rw [hn, share_of_ne (Ne.symm hc), Nat.add_zero]
  refine ⟨fun c j hj => ?_, fun c hc => ?_⟩
  · by_cases hc : c = blocks.length
    · subst hc
      rw [List.getElem?_concat_length] at hj
      obtain rfl := Option.some.inj hj
      exact ⟨⟨hlast.symm, by rw [hlast, if_neg one_ne_zero], hfits⟩, rfl⟩
    · have hlt := (List.getElem?_eq_some_iff.mp hj).1
      rw [List.length_append, List.length_singleton] at hlt
      rw [List.getElem?_append_left (by omega)] at hj
      rw [hother c hc]
      exact h.block c j hj
  · have hlt : blocks.length < c := by
      rw [List.getElem?_eq_none_iff, List.length_append, List.length_singleton] at hc
      exact hc
    rw [hother c hlt.ne']
    exact h.inside c (List.getElem?_eq_none hlt.le)

theorem payload_append {bytes : List UInt8} {k : Nat} (hb : b < blocks.length) :
    payload (blocks ++ [{ allocated := k, cb := bytes }]) b = payload blocks b := by
  unfold payload
  rw [List.getElem?_append_left hb]

theorem payload_append_self {bytes : List UInt8} {k : Nat} :
    payload (blocks ++ [{ allocated := k, cb := bytes }]) blocks.length = some bytes := by
  unfold payload
  rw [List.getElem?_concat_length]
  rfl

end blocks

/-! ### One operation -/

section operation
variable {H : Type*} {size : Nat} {s : Handles H} {op : HandleOp H} {m : H}

/-- The counts are those of the handles, and the values of the messages are `value`. -/
structure Shares (size : Nat) (value : H → Option (List UInt8)) (s : Handles H) : Prop where
  tally : Tally size s.blocks (holders s.live s.p)
  value : ∀ m ∈ s.live, value m = (s.p m).bind (payload s.blocks)

variable {value : H → Option (List UInt8)}

theorem Shares.begin_eq (h : Shares size value s) (hm : m ∈ s.live) :
    s.begin m = value m ∧ (s.p m).isSome = (value m).isSome := by
  rw [h.value m hm]
  unfold Handles.begin
  cases hp : s.p m with
  | none => exact ⟨rfl, rfl⟩
  | some b =>
    obtain ⟨i, hb, haccess, -⟩ := h.tally.access (holders_pos hm hp)
    rw [Option.bind_some, Option.bind_some, haccess, payload, hb]
    exact ⟨rfl, rfl⟩

variable [DecidableEq H]

theorem value_update {live : Finset H} {p : H → Option Nat} {f : Nat → Option (List UInt8)}
    {v : Option (List UInt8)} {x : Option Nat} (h : ∀ j ∈ live, value j = (p j).bind f)
    (hv : v = x.bind f) :
    ∀ j ∈ insert m live, Function.update value m v j = (Function.update p m x j).bind f := by
  intro j hj
  by_cases hm : j = m
  · rw [hm, Function.update_self, Function.update_self]
    exact hv
  · rw [Function.update_of_ne hm, Function.update_of_ne hm]
    exact h j (Finset.mem_of_mem_insert_of_ne hj hm)

theorem Shares.ofBuffers {buffers : List (List UInt8)} (h : Shares size value s) (hm : m ∉ s.live)
    (hfits : 2 * size + buffers.flatten.length ≤ 2 ^ 64) (hsize : 0 < size) :
    ∃ t, s.step size (.ofBuffers m buffers) = some t ∧
      Shares size (HandleOp.apply value (.ofBuffers m buffers)) t := by
  have hbytes : bufferBytes buffers = buffers.flatten.length := Nat.mod_eq_of_lt (by omega)
  have htake : buffers.flatten.take (bufferBytes buffers) = buffers.flatten := by
    rw [hbytes, List.take_length]
  have henough : size + buffers.flatten.length ≤ elements size buffers.flatten.length * size :=
    (elements_enough_iff hsize).mpr hfits
  refine ⟨_, if_neg (not_or.mpr ⟨hm, by rw [hbytes]; omega⟩), ?_⟩
  rw [htake, hbytes]
  refine ⟨h.tally.append henough fun b => holders_insert_update s.p b hm _, ?_⟩
  refine value_update (fun j hj => ?_) ?_
  · rw [h.value j hj]
    cases hp : s.p j with
    | none => rfl
    | some b =>
      obtain ⟨i, hb, -⟩ := h.tally.access (holders_pos hj hp)
      exact (payload_append (List.getElem?_eq_some_iff.mp hb).1).symm
  · exact payload_append_self.symm

/-- An operation on handles that are there has a step. -/
theorem Shares.step (h : Shares size value s) (hwell : op.WellFormed s.live) (hfits : op.Fits size)
    (hsize : 0 < size) : ∃ t, s.step size op = some t ∧ Shares size (op.apply value) t := by
  cases op with
  | null m =>
    have hcount : holders (insert m s.live) (Function.update s.p m none) = holders s.live s.p :=
      funext fun b => holders_insert_update s.p b hwell none
    exact ⟨_, if_neg hwell, hcount ▸ h.tally, value_update h.value rfl⟩
  | ofBuffers m buffers => exact h.ofBuffers hwell hfits hsize
  | copy m other =>
    obtain ⟨hm, hother⟩ := hwell
    obtain ⟨blocks, hretain, htally, hpayload⟩ := h.tally.retain
      (fun b hb => holders_pos hother hb) fun b => holders_insert_update s.p b hm (s.p other)
    refine ⟨_, (if_neg (by tauto)).trans (by rw [hretain, Option.map_some]), htally, ?_⟩
    rw [hpayload]
    exact value_update h.value (h.value other hother)
  | move m other =>
    obtain ⟨hm, hother⟩ := hwell
    refine ⟨_, if_neg (by tauto), ?_, ?_⟩
    · have hcount : holders (insert m s.live)
          (Function.update (Function.update s.p m (s.p other)) other none) = holders s.live s.p := by
        funext b
        have hnew := holders_insert_update s.p b hm (s.p other)
        have hold := holders_update (Function.update s.p m (s.p other)) b
          (Finset.mem_insert_of_mem hother : other ∈ insert m s.live) none
        rw [Function.update_of_ne (ne_of_mem_of_not_mem hother hm), hnew, share_none] at hold
        omega
      exact hcount ▸ h.tally
    · have hnew := value_update (m := m) h.value (h.value other hother)
      have hold := value_update (m := other) (x := none) hnew rfl
      exact fun j hj => hold j (Finset.mem_insert_of_mem hj)
  | swap lhs rhs =>
    obtain ⟨hlhs, hrhs⟩ := hwell
    have hcount : holders s.live (s.p ∘ Equiv.swap lhs rhs) = holders s.live s.p :=
      funext fun b => holders_swap s.p b hlhs hrhs
    refine ⟨_, if_neg (by tauto), hcount ▸ h.tally, fun j hj => h.value _ ?_⟩
    rw [Equiv.swap_apply_def]
    split_ifs <;> assumption
  | destroy m =>
    obtain ⟨blocks, hrelease, htally, hpayload⟩ := h.tally.release fun b =>
      holders_erase_update s.p b hwell none
    have hvalue := value_update (m := m) (x := none) h.value rfl
    refine ⟨_, (if_neg (not_not.mpr hwell)).trans (by rw [hrelease, Option.map_some]), htally,
      fun j hj => ?_⟩
    rw [hpayload]
    exact hvalue j (Finset.mem_insert_of_mem (Finset.mem_of_mem_erase hj))

theorem step_eq_none (h : ¬op.WellFormed s.live) : s.step size op = none := by
  cases op with
  | null m => exact if_pos (not_not.mp h)
  | ofBuffers m buffers => exact if_pos (.inl (not_not.mp h))
  | copy m other => exact if_pos (by unfold HandleOp.WellFormed at h; tauto)
  | move m other => exact if_pos (by unfold HandleOp.WellFormed at h; tauto)
  | swap lhs rhs => exact if_pos (not_and_or.mp h)
  | destroy m => exact if_pos h

end operation

end Handles

/-! ### Runs -/

section run
variable {H : Type*} [DecidableEq H] {size : Nat} {tr : List (Handles H × HandleOp H)}
  {s : Handles H}

theorem shares_run (hsize : 0 < size) (hrun : Run (Handles.step size) (· = {}) tr s)
    (hfits : AllSteps (fun _ op => op.Fits size) tr) :
    s.Shares size (values (tr.map Prod.snd)) := by
  induction hrun with
  | nil h =>
    subst h
    refine ⟨⟨fun b i hb => ?_, fun b _ => rfl⟩, fun m hm => ?_⟩
    · exact absurd hb (by simp)
    · exact absurd hm (Finset.notMem_empty m)
  | @snoc tr s t op hrun hs ih =>
    obtain ⟨hbefore, hop⟩ := allSteps_snoc.mp hfits
    have hwell : op.WellFormed s.live := by
      by_contra hno
      rw [Handles.step_eq_none hno] at hs
      contradiction
    obtain ⟨t', ht, hshares⟩ := (ih hbefore).step hwell hop hsize
    obtain rfl : t' = t := Option.some.inj (ht.symm.trans hs)
    rw [List.map_append, List.map_singleton, values, List.foldl_append]
    exact hshares

/-- The count of each block is the number of its handles, the block goes once with the last of them
and with the element count it came with, and each handle has the bytes that its value says. -/
theorem message_counted (hsize : 0 < size) (hrun : Run (Handles.step size) (· = {}) tr s)
    (hfits : AllSteps (fun _ op => op.Fits size) tr) :
    s.Counted size ∧
      (∀ m ∈ s.live, s.begin m = values (tr.map Prod.snd) m ∧
        (s.p m).isSome = (values (tr.map Prod.snd) m).isSome) ∧
      ∀ n, 2 * size + n ≤ 2 ^ 64 → size + n ≤ elements size n * size := by
  have hshares := shares_run hsize hrun hfits
  refine ⟨⟨fun b i hb => (hshares.tally.block b i hb).1, fun op hwell hop => ?_⟩,
    fun m hm => hshares.begin_eq hm, fun n hn => (elements_enough_iff hsize).mpr hn⟩
  obtain ⟨t, ht, -⟩ := hshares.step hwell hop hsize
  rw [ht]
  exact Option.some_ne_none t

end run

/-- A copy that is swapped and moved outlives the message it was made from. -/
def lastCopy : List (HandleOp Nat) :=
  [.ofBuffers 0 [[72], [105]], .copy 1 0, .null 2, .swap 1 2, .destroy 0, .move 3 2]

theorem lastCopy_runs : (execute (Handles.step 24) lastCopy [] {}).any
    (fun r => 3 ∈ r.2.live) := by
  decide

theorem message_counted_lastCopy : ∃ (tr : List (Handles Nat × HandleOp Nat)) (s : Handles Nat),
    tr.map Prod.snd = lastCopy ∧ s.Counted 24 ∧ s.begin 3 = some [72, 105] := by
  obtain ⟨⟨tr, s⟩, hr, hlive⟩ := (Option.any_eq_true _ _).mp lastCopy_runs
  have hlabels : tr.map Prod.snd = lastCopy := labels_execute lastCopy hr
  have hfits : AllSteps (fun _ op => HandleOp.Fits 24 op) tr := by
    have hall : ∀ op ∈ lastCopy, HandleOp.Fits 24 op := by
      simp [lastCopy, HandleOp.Fits]
    exact fun x hx => hall x.2 (hlabels ▸ List.mem_map_of_mem hx)
  obtain ⟨hcounted, hvalue, -⟩ :=
    message_counted (by decide) (Run.execute lastCopy (.nil rfl) hr) hfits
  refine ⟨tr, s, hlabels, hcounted, ?_⟩
  rw [(hvalue 3 (of_decide_eq_true hlive)).1, hlabels]
  decide

end BeastLounge.Session
