import Mathlib
import ContactDiscovery.PathOram.Invariant
import ContactDiscovery.PathOram.Sizing

/-!
# The Path ORAM implements an array

What the ORAM is for, stated as a plain array of blocks (`OramArray`): `get` and `put` of a block
handed out, `putPartial` of a range inside the block (undefined otherwise: `oram_put_partial`
aborts on a range past the block, and `write_accessor` traps on an empty one), `allocateBlock`
and `clear`. `Represents o A` ties an ORAM to the array: the same allocation bound and capacity,
and every block below the capacity reads (`oramBlockData`) as the array holds it.

* `writeAccessor_eq` — `write_accessor` on a range inside the block writes the range and returns
  the previous words: its cyclic source index is the offset from `start`;
* `oramGet_refines`, `oramPut_refines`, `oramPutPartial_refines`, `oramAllocateBlock_refines`,
  `oramClear_refines` — each operation against the array, from `oramAccess_refines`;
* `oramAllocateContiguous_fits` — `oram_allocate_contiguous` of a request that fits without
  wrapping;
* `oramStep_refines`, `oramRun_refines` — a run of operations, by induction on the run;
* `Oram.create_refines`, `oramCreate_refines` — `_create` and `oram_create` build an ORAM that
  keeps the invariant and stands for a fresh array;
* `oramCreate_implements_array` — from `oram_create` on, every run the array defines is answered
  with the array's replies, whatever leaves the accesses draw.

`oram_allocate_contiguous` is not among the operations of a run: its bound is a wrapping sum.
-/

set_option autoImplicit false

namespace ContactDiscovery

/-! ## The words an access writes -/

/-- The words `oram_put` leaves in a block: the first `BLOCK_DATA_SIZE_QWORDS` words of `data`,
and zeros past its end. -/
def putWords (data : List UInt64) : List UInt64 :=
  (List.range BLOCK_DATA_SIZE_QWORDS.toNat).map fun i => data.getD i 0

/-- The words `oram_put_partial` leaves in a block that held `old`: word `start + j`, for
`j < len`, becomes `data[j]` (zero past its end), and the others stay. -/
def partialWords (old : List UInt64) (start len : ℕ) (data : List UInt64) : List UInt64 :=
  (List.range BLOCK_DATA_SIZE_QWORDS.toNat).map fun i =>
    if start ≤ i ∧ i < start + len then data.getD (i - start) 0 else old.getD i 0

section WriteAccessor

variable {start len : UInt64} (hlen : len ≠ 0)
  (hrange : start.toNat + len.toNat ≤ BLOCK_DATA_SIZE_QWORDS.toNat)
include hrange

/-- The range test of `write_accessor` does not wrap around: word `i` is written exactly when
`start ≤ i < start + len`. -/
theorem writeAccessor_cond {i : ℕ} (hi : i < BLOCK_DATA_SIZE_QWORDS.toNat) :
    (decide (UInt64.ofNat i ≥ start) && decide (UInt64.ofNat i < start + len)) =
      decide (start.toNat ≤ i ∧ i < start.toNat + len.toNat) := by
  have hq : BLOCK_DATA_SIZE_QWORDS.toNat = 168 := rfl
  have hi' : (UInt64.ofNat i).toNat = i := UInt64.toNat_ofNat_of_lt' (show i < 2 ^ 64 by omega)
  have hsum : (start + len).toNat = start.toNat + len.toNat := by
    rw [UInt64.toNat_add, Nat.mod_eq_of_lt (by omega)]
  simp only [ge_iff_le, UInt64.le_iff_toNat_le, UInt64.lt_iff_toNat_lt, hi', hsum,
    Bool.decide_and]

include hlen in
/-- **The source index of `write_accessor` is the offset from `start`**: the cyclic index
`(i + len - start % len) % len` is `i - start` for a word the range covers. -/
theorem writeAccessor_sourceIndex {i : ℕ} (hi₁ : start.toNat ≤ i)
    (hi₂ : i < start.toNat + len.toNat) :
    ((UInt64.ofNat i + len - start % len) % len).toNat = i - start.toNat := by
  have hq : BLOCK_DATA_SIZE_QWORDS.toNat = 168 := rfl
  have hl : 0 < len.toNat := by
    rcases Nat.eq_zero_or_pos len.toNat with h | h
    · exact absurd (UInt64.toNat_inj.1 (h.trans UInt64.toNat_zero.symm)) hlen
    · exact h
  have hi' : (UInt64.ofNat i).toNat = i := UInt64.toNat_ofNat_of_lt' (show i < 2 ^ 64 by omega)
  have hmod : (start % len).toNat = start.toNat % len.toNat := UInt64.toNat_mod _ _
  have hmodle : start.toNat % len.toNat ≤ start.toNat := Nat.mod_le _ _
  have hadd : (UInt64.ofNat i + len).toNat = i + len.toNat := by
    rw [UInt64.toNat_add, hi', Nat.mod_eq_of_lt (by omega)]
  have hsub : (UInt64.ofNat i + len - start % len).toNat = i + len.toNat - start.toNat % len.toNat := by
    rw [UInt64.toNat_sub_of_le _ _ (by rw [UInt64.le_iff_toNat_le, hadd, hmod]; omega), hadd, hmod]
  -- `start` is `len * q + start % len`, so the index is `i - start` plus a multiple of `len`
  have hdiv := Nat.div_add_mod start.toNat len.toNat
  have hsplit : i + len.toNat - start.toNat % len.toNat =
      (i - start.toNat) + len.toNat * (start.toNat / len.toNat + 1) := by
    rw [Nat.mul_succ]
    omega
  rw [UInt64.toNat_mod, hsub, hsplit, Nat.add_mul_mod_self_left, Nat.mod_eq_of_lt (by omega)]

include hlen in
/-- **`write_accessor`** on a range that fits the block writes `data` over the range and returns
the previous words when asked. -/
theorem writeAccessor_eq (data : List UInt64) (wantPrev : Bool) {old : List UInt64}
    (hold : old.length = BLOCK_DATA_SIZE_QWORDS.toNat) :
    writeAccessor start len data wantPrev old =
      some (.ok (partialWords old start.toNat len.toNat data, if wantPrev then some old else none)) := by
  have htake : old.take BLOCK_DATA_SIZE_QWORDS.toNat = old := List.take_of_length_le hold.le
  unfold writeAccessor
  rw [if_neg hlen]
  dsimp only
  rw [Fold.foldl_set_range (fun i x => u64Ternary
      (decide (UInt64.ofNat i ≥ start) && decide (UInt64.ofNat i < start + len))
      (data.getD ((UInt64.ofNat i + len - start % len) % len).toNat 0) x) 0 old _ hold.ge,
    List.drop_of_length_le hold.le, List.append_nil, htake]
  congr 3
  refine List.map_congr_left fun i hi => ?_
  have hi' := List.mem_range.1 hi
  rw [u64Ternary_eq, writeAccessor_cond hrange hi']
  by_cases hin : start.toNat ≤ i ∧ i < start.toNat + len.toNat
  · rw [decide_eq_true hin, if_pos rfl, if_pos hin, writeAccessor_sourceIndex hlen hrange hin.1 hin.2]
  · rw [decide_eq_false hin, if_neg Bool.false_ne_true, if_neg hin]

end WriteAccessor

/-! ## The array an ORAM stands for -/

/-- The array of blocks an ORAM implements: `capacityBlocks` blocks of words, of which the first
`allocatedUb` are handed out; `mem` gives each block's words. -/
structure OramArray where
  allocatedUb : UInt64
  capacityBlocks : UInt64
  mem : UInt64 → List UInt64

namespace OramArray

/-- A fresh array: nothing handed out, every block all `0xFF` words. -/
def init (capacityBlocks : UInt64) : OramArray := ⟨0, capacityBlocks, fun _ => Block.empty.data⟩

/-- Read block `b`. -/
def get (A : OramArray) (b : UInt64) : Except ErrorT (List UInt64) :=
  if b < A.allocatedUb then .ok (A.mem b) else .error .ORAM__ACCESS_UNALLOCATED_BLOCK

/-- Overwrite block `b` with `data`. -/
def put (A : OramArray) (b : UInt64) (data : List UInt64) : OramArray × Except ErrorT Unit :=
  if b < A.allocatedUb then ({ A with mem := Function.update A.mem b (putWords data) }, .ok ())
  else (A, .error .ORAM__ACCESS_UNALLOCATED_BLOCK)

/-- Overwrite `len` words of block `b` from `start` on, and return its previous words; an empty
range, or one that does not fit the block, is undefined. -/
def putPartial (A : OramArray) (b start len : UInt64) (data : List UInt64) :
    Option (OramArray × Except ErrorT (List UInt64)) :=
  if b < A.allocatedUb then
    if len ≠ 0 ∧ start.toNat + len.toNat ≤ BLOCK_DATA_SIZE_QWORDS.toNat then
      let words := partialWords (A.mem b) start.toNat len.toNat data
      some ({ A with mem := Function.update A.mem b words }, .ok (A.mem b))
    else none
  else some (A, .error .ORAM__ACCESS_UNALLOCATED_BLOCK)

/-- Hand out the next block, or `UINT64_MAX` when all are handed out. -/
def allocateBlock (A : OramArray) : UInt64 × OramArray :=
  if A.allocatedUb < A.capacityBlocks then (A.allocatedUb, { A with allocatedUb := A.allocatedUb + 1 })
  else (UINT64_MAX, A)

/-- Forget every block. -/
def clear (A : OramArray) : OramArray := { A with allocatedUb := 0, mem := fun _ => Block.empty.data }

end OramArray

/-- The ORAM `o` implements the array `A`: the same allocation and capacity, and every block
below the capacity holds the same words. -/
structure Represents (o : Oram) (A : OramArray) : Prop where
  allocatedUb_eq : o.allocatedUb = A.allocatedUb
  capacityBlocks_eq : o.capacityBlocks = A.capacityBlocks
  mem_eq : ∀ c < A.capacityBlocks, oramBlockData o c = A.mem c

/-! ## Each operation against the array -/

/-- Under the invariant every block reads `BLOCK_DATA_SIZE_QWORDS` words. -/
theorem OramInv.blockData_length {B : ℕ} {o : Oram} (hinv : OramInv B o) {c : UInt64}
    (hc : c ≠ EMPTY_BLOCK_ID) : (oramBlockData o c).length = BLOCK_DATA_SIZE_QWORDS.toNat := by
  rw [oramBlockData_eq_find o hc]
  cases h : (oramLiveBlocks o).find? (fun X => X.id == c) with
  | none => simp [Block.empty]
  | some X => exact hinv.data_length X (List.mem_of_find?_eq_some h)

/-- Writing the whole block is `put`. -/
theorem partialWords_put (old data : List UInt64) :
    partialWords old 0 BLOCK_DATA_SIZE_QWORDS.toNat data = putWords data :=
  List.map_congr_left fun i hi => by
    rw [if_pos ⟨Nat.zero_le i, by simpa using hi⟩, Nat.sub_zero]

/-- An access that leaves the words of `b` as `d'` leaves the ORAM standing for the array with
block `b` set to `d'`. -/
theorem Represents.access {o : Oram} {A : OramArray} (hR : Represents o A) {b : UInt64} {o' : Oram}
    {d' : List UInt64}
    (halloc : o'.allocatedUb = o.allocatedUb) (hcap : o'.capacityBlocks = o.capacityBlocks)
    (hdata : ∀ c ≠ EMPTY_BLOCK_ID, oramBlockData o' c = if c = b then d' else oramBlockData o c) :
    Represents o' { A with mem := Function.update A.mem b d' } := by
  refine ⟨halloc.trans hR.allocatedUb_eq, hcap.trans hR.capacityBlocks_eq, fun c hc => ?_⟩
  change c < A.capacityBlocks at hc
  change _ = Function.update A.mem b d' c
  rw [hdata c (ne_empty_of_lt hc), Function.update_apply]
  split_ifs with hcb
  · rfl
  · exact hR.mem_eq c hc

/-- `block_is_allocated` asks the array. -/
theorem Represents.blockIsAllocated_eq {o : Oram} {A : OramArray} (hR : Represents o A) (b : UInt64) :
    blockIsAllocated o b = decide (b < A.allocatedUb) := by
  rw [blockIsAllocated, hR.allocatedUb_eq]

/-- An ORAM whose buckets and stash hold only empty blocks holds no block. -/
theorem oramLiveBlocks_eq_nil {o : Oram} (hstore : ∀ k, o.bucketStore.blocks k = Block.empty)
    (hstash : ∀ k, o.stash.blocks k = Block.empty) : oramLiveBlocks o = [] := by
  unfold oramLiveBlocks nonEmptyBlocks
  rw [List.filter_eq_nil_iff]
  intro X hX
  rcases List.mem_append.1 hX with hX | hX
  · obtain ⟨k, -, rfl⟩ := List.mem_map.1 hX
    simp [hstore k, Block.empty]
  · obtain ⟨i, -, rfl⟩ := List.mem_map.1 hX
    simp [hstash, Block.empty]

/-- An ORAM that holds no block reads every block as the `0xFF` words of one never written. -/
theorem oramBlockData_of_nil {o : Oram} (h : oramLiveBlocks o = []) {c : UInt64}
    (hc : c ≠ EMPTY_BLOCK_ID) : oramBlockData o c = Block.empty.data := by
  rw [oramBlockData_eq_find o hc, h]
  rfl

section Ops

variable {B : ℕ} {o : Oram} (hinv : OramInv B o) (hB : o.capacityBlocks.toNat + 19 ≤ B)
  (hB' : 3 * 62 + B + STASH_GROWTH_INCREMENT < 2 ^ 64) {A : OramArray} (hR : Represents o A)
include hinv hB hB' hR

/-- **`oram_get`** returns the block the array holds (an error for a block not handed out), keeps
the invariant, and leaves the array as it is. -/
theorem oramGet_refines (b r : UInt64) :
    ∃ o', oramGet o b r = some (o', A.get b) ∧ OramInv B o' ∧ Represents o' A := by
  unfold oramGet oramFunctionAccess OramArray.get
  rw [hR.blockIsAllocated_eq]
  by_cases hb : b < A.allocatedUb
  · have hbo : b < o.allocatedUb := hR.allocatedUb_eq ▸ hb
    have hcap : b < A.capacityBlocks := by
      have h₁ := UInt64.lt_iff_toNat_lt.1 hbo
      have h₂ := UInt64.le_iff_toNat_le.1 hinv.allocated_le
      rw [← hR.capacityBlocks_eq, UInt64.lt_iff_toNat_lt]
      omega
    have hlen := hinv.blockData_length (ne_empty_of_lt hbo)
    -- `read_accessor` leaves the words as they are and copies them out
    have hread : readAccessor (oramBlockData o b) = some (.ok (oramBlockData o b,
        (oramBlockData o b).take BLOCK_DATA_SIZE_QWORDS.toNat)) := rfl
    obtain ⟨o', hacc, hinv', halloc, hcap', hdata⟩ := oramAccess_refines hinv hB hB' hbo readAccessor
      r hread hlen
    have hR' := hR.access halloc hcap' hdata
    rw [hR.mem_eq b hcap, Function.update_eq_self] at hR'
    refine ⟨o', ?_, hinv', hR'⟩
    rw [decide_eq_true hb, if_pos rfl, hacc, if_pos hb, List.take_of_length_le hlen.le,
      hR.mem_eq b hcap]
  · refine ⟨o, ?_, hinv, hR⟩
    rw [decide_eq_false hb, if_neg Bool.false_ne_true, if_neg hb]

omit hB hB' in
/-- A block handed out lies below the capacity. -/
theorem lt_capacity_of_allocated {b : UInt64} (hb : b < A.allocatedUb) : b < A.capacityBlocks := by
  have h₁ := UInt64.lt_iff_toNat_lt.1 (hR.allocatedUb_eq ▸ hb)
  have h₂ := UInt64.le_iff_toNat_le.1 hinv.allocated_le
  rw [← hR.capacityBlocks_eq, UInt64.lt_iff_toNat_lt]
  omega

/-- **`oram_put`** overwrites the block the array holds (an error for a block not handed out) and
keeps the invariant. -/
theorem oramPut_refines (b : UInt64) (data : List UInt64) (r : UInt64) :
    ∃ o', oramPut o b data r = some (o', (A.put b data).2) ∧ OramInv B o' ∧
      Represents o' (A.put b data).1 := by
  unfold oramPut oramFunctionAccess OramArray.put
  rw [hR.blockIsAllocated_eq]
  by_cases hb : b < A.allocatedUb
  · have hbo : b < o.allocatedUb := hR.allocatedUb_eq ▸ hb
    have hlen := hinv.blockData_length (ne_empty_of_lt hbo)
    -- `write_accessor` over the whole block writes `data`
    have hw : writeAccessor 0 BLOCK_DATA_SIZE_QWORDS data false (oramBlockData o b) =
        some (.ok (partialWords (oramBlockData o b) (0 : UInt64).toNat BLOCK_DATA_SIZE_QWORDS.toNat data,
          if false then some (oramBlockData o b) else none)) :=
      writeAccessor_eq (by decide) (by decide) data false hlen
    rw [UInt64.toNat_zero, partialWords_put] at hw
    obtain ⟨o', hacc, hinv', halloc, hcap', hdata⟩ := oramAccess_refines hinv hB hB' hbo _ r hw
      (by simp [putWords])
    refine ⟨o', ?_, hinv', ?_⟩
    · rw [decide_eq_true hb, if_pos rfl, hacc, Option.map_some, if_pos hb]
      rfl
    · rw [if_pos hb]
      exact hR.access halloc hcap' hdata
  · refine ⟨o, ?_, hinv, ?_⟩
    · rw [decide_eq_false hb, if_neg Bool.false_ne_true, if_neg hb]
      rfl
    · rw [if_neg hb]
      exact hR

/-- **`oram_put_partial`**, on a range the array defines, overwrites those words of the block,
returns its previous words, and keeps the invariant. -/
theorem oramPutPartial_refines (b start len : UInt64) (data : List UInt64) (r : UInt64)
    {A' : OramArray} {res : Except ErrorT (List UInt64)}
    (h : A.putPartial b start len data = some (A', res)) :
    ∃ o', oramPutPartial o b start len data r = some (o', res) ∧ OramInv B o' ∧ Represents o' A' := by
  unfold oramPutPartial
  unfold OramArray.putPartial at h
  rw [hR.blockIsAllocated_eq]
  by_cases hb : b < A.allocatedUb
  · rw [if_pos hb] at h
    split at h
    · rename_i hrange
      obtain ⟨hlen0, hrange⟩ := hrange
      cases h
      have hbo : b < o.allocatedUb := hR.allocatedUb_eq ▸ hb
      have hlen := hinv.blockData_length (ne_empty_of_lt hbo)
      have hw := writeAccessor_eq hlen0 hrange data true hlen
      obtain ⟨o', hacc, hinv', halloc, hcap', hdata⟩ := oramAccess_refines hinv hB hB' hbo _ r hw
        (by simp [partialWords])
      -- the check `start + len ≤ BLOCK_DATA_SIZE_QWORDS` does not wrap
      have hcheck : start + len ≤ BLOCK_DATA_SIZE_QWORDS := by
        rw [UInt64.le_iff_toNat_le, UInt64.toNat_add, Nat.mod_eq_of_lt (by
          have : BLOCK_DATA_SIZE_QWORDS.toNat = 168 := rfl
          omega)]
        exact hrange
      refine ⟨o', ?_, hinv', ?_⟩
      · rw [decide_eq_true hb, if_pos rfl, if_pos hcheck, hacc, Option.map_some,
          hR.mem_eq b (lt_capacity_of_allocated hinv hR hb)]
        rfl
      · rw [← hR.mem_eq b (lt_capacity_of_allocated hinv hR hb)]
        exact hR.access halloc hcap' hdata
    · cases h
  · rw [if_neg hb] at h
    cases h
    refine ⟨o, ?_, hinv, hR⟩
    rw [decide_eq_false hb, if_neg Bool.false_ne_true]

omit hB hB' in
/-- **`oram_allocate_block`** hands out the block the array does, and keeps the invariant. -/
theorem oramAllocateBlock_refines :
    (oramAllocateBlock o).1 = A.allocateBlock.1 ∧ OramInv B (oramAllocateBlock o).2 ∧
      Represents (oramAllocateBlock o).2 A.allocateBlock.2 := by
  unfold oramAllocateBlock OramArray.allocateBlock
  rw [← hR.allocatedUb_eq, ← hR.capacityBlocks_eq]
  by_cases hlt : o.allocatedUb < o.capacityBlocks
  · rw [if_pos hlt, if_pos hlt]
    have h₁ := UInt64.lt_iff_toNat_lt.1 hlt
    have h₂ := o.capacityBlocks.toNat_lt
    -- the bound grows by one, without wrapping
    have hsucc : (o.allocatedUb + 1).toNat = o.allocatedUb.toNat + 1 := by
      rw [UInt64.toNat_add, UInt64.toNat_one, Nat.mod_eq_of_lt (by omega)]
    refine ⟨rfl, { hinv with
      allocated_le := by
        show o.allocatedUb + 1 ≤ o.capacityBlocks
        rw [UInt64.le_iff_toNat_le, hsucc]
        omega
      id_lt := fun X hX => by
        show X.id < o.allocatedUb + 1
        have := UInt64.lt_iff_toNat_lt.1 (hinv.id_lt X hX)
        rw [UInt64.lt_iff_toNat_lt, hsucc]
        omega }, ⟨rfl, rfl, fun c hc => hR.mem_eq c (hR.capacityBlocks_eq ▸ hc)⟩⟩
  · rw [if_neg hlt, if_neg hlt]
    exact ⟨rfl, hinv, hR⟩

omit hB hB' in
/-- **`oram_clear`** forgets every block and every allocation, as the array does, and keeps the
invariant: the position map keeps its leaves, which no block needs any more. -/
theorem oramClear_refines : OramInv B (oramClear o) ∧ Represents (oramClear o) A.clear := by
  have hlive : oramLiveBlocks (oramClear o) = [] :=
    oramLiveBlocks_eq_nil (fun _ => rfl) (fun _ => rfl)
  refine ⟨{ hinv with
    stash_wf := ⟨hinv.stash_wf.numBlocks_eq, hinv.stash_wf.numBlocks_lt⟩
    allocated_le := UInt64.zero_le
    ids_nodup := by rw [hlive]; exact List.nodup_nil
    id_lt := by simp [hlive]
    position_eq := by simp [hlive]
    data_length := by simp [hlive]
    placed := fun _ _ hne => absurd rfl hne }, rfl, hR.capacityBlocks_eq, fun c hc => ?_⟩
  exact oramBlockData_of_nil hlive (ne_empty_of_lt hc)

omit hB hB' in
/-- **`oram_allocate_contiguous`** of `n` blocks that fit below the capacity without the sum
wrapping hands out `[allocated_ub, allocated_ub + n)` and keeps the invariant. -/
theorem oramAllocateContiguous_fits {n : UInt64}
    (hfit : A.allocatedUb.toNat + n.toNat ≤ A.capacityBlocks.toNat) :
    (oramAllocateContiguous o n).1 = A.allocatedUb ∧ OramInv B (oramAllocateContiguous o n).2 ∧
      Represents (oramAllocateContiguous o n).2 { A with allocatedUb := A.allocatedUb + n } := by
  rw [← hR.allocatedUb_eq, ← hR.capacityBlocks_eq] at hfit
  have hcap := o.capacityBlocks.toNat_lt
  -- the bound grows by `n`, without wrapping
  have hsum : (o.allocatedUb + n).toNat = o.allocatedUb.toNat + n.toNat := by
    rw [UInt64.toNat_add, Nat.mod_eq_of_lt (by omega)]
  have hle : o.allocatedUb + n ≤ o.capacityBlocks := by
    rw [UInt64.le_iff_toNat_le, hsum]
    exact hfit
  unfold oramAllocateContiguous
  simp only [if_pos hle]
  refine ⟨hR.allocatedUb_eq, { hinv with
    allocated_le := hle
    id_lt := fun X hX => by
      show X.id < o.allocatedUb + n
      have := UInt64.lt_iff_toNat_lt.1 (hinv.id_lt X hX)
      rw [UInt64.lt_iff_toNat_lt, hsum]
      omega }, ⟨by rw [hR.allocatedUb_eq], hR.capacityBlocks_eq, hR.mem_eq⟩⟩

end Ops

/-! ## Runs of operations -/

/-- The operations of the ORAM's interface other than `oram_allocate_contiguous`, whose bound is a
wrapping sum. -/
inductive OramOp where
  | get (blockId : UInt64)
  | put (blockId : UInt64) (data : List UInt64)
  | putPartial (blockId start len : UInt64) (data : List UInt64)
  | allocateBlock
  | clear

/-- What an operation returns to its caller. -/
inductive OramReply where
  | words (res : Except ErrorT (List UInt64))
  | done (res : Except ErrorT Unit)
  | blockId (id : UInt64)
  | cleared

/-- One operation on the ORAM, `r` the entropy word an access draws for the new leaf; `none` when
it aborts. -/
def oramStep (o : Oram) (r : UInt64) : OramOp → Option (Oram × OramReply)
  | .get b => (oramGet o b r).map fun p => (p.1, .words p.2)
  | .put b data => (oramPut o b data r).map fun p => (p.1, .done p.2)
  | .putPartial b start len data =>
    (oramPutPartial o b start len data r).map fun p => (p.1, .words p.2)
  | .allocateBlock => some ((oramAllocateBlock o).2, .blockId (oramAllocateBlock o).1)
  | .clear => some (oramClear o, .cleared)

/-- A run of operations on the ORAM, each with its entropy word: the replies in order, or `none`
when an operation aborts. -/
def oramRun (o : Oram) : List (OramOp × UInt64) → Option (Oram × List OramReply)
  | [] => some (o, [])
  | (op, r) :: ops =>
    (oramStep o r op).bind fun p => (oramRun p.1 ops).map fun q => (q.1, p.2 :: q.2)

namespace OramArray

/-- One operation on the array; `none` where the array leaves it undefined. -/
def step (A : OramArray) : OramOp → Option (OramArray × OramReply)
  | .get b => some (A, .words (A.get b))
  | .put b data => some ((A.put b data).1, .done (A.put b data).2)
  | .putPartial b start len data => (A.putPartial b start len data).map fun p => (p.1, .words p.2)
  | .allocateBlock => some (A.allocateBlock.2, .blockId A.allocateBlock.1)
  | .clear => some (A.clear, .cleared)

/-- A run of operations on the array. -/
def run (A : OramArray) : List OramOp → Option (OramArray × List OramReply)
  | [] => some (A, [])
  | op :: ops => (A.step op).bind fun p => (p.1.run ops).map fun q => (q.1, p.2 :: q.2)

/-- No operation changes the capacity. -/
theorem step_capacityBlocks {A A' : OramArray} {op : OramOp} {rep : OramReply}
    (h : A.step op = some (A', rep)) : A'.capacityBlocks = A.capacityBlocks := by
  cases op with
  | get b => cases h; rfl
  | put b data =>
    cases h
    unfold put
    split_ifs <;> rfl
  | putPartial b start len data =>
    obtain ⟨⟨A'', res⟩, hpp, hA⟩ := Option.map_eq_some_iff.1 h
    cases hA
    unfold putPartial at hpp
    split_ifs at hpp <;> cases hpp <;> rfl
  | allocateBlock =>
    cases h
    unfold allocateBlock
    split_ifs <;> rfl
  | clear => cases h; rfl

end OramArray

section Step

variable {B : ℕ} (hB' : 3 * 62 + B + STASH_GROWTH_INCREMENT < 2 ^ 64)
include hB'

/-- **One operation**: an operation the array defines is answered by the ORAM with the array's
reply, whatever leaf it draws, and the invariant and the representation are kept. -/
theorem oramStep_refines {o : Oram} (hinv : OramInv B o) (hB : o.capacityBlocks.toNat + 19 ≤ B)
    {A : OramArray} (hR : Represents o A) (op : OramOp) (r : UInt64) {A' : OramArray}
    {rep : OramReply} (h : A.step op = some (A', rep)) :
    ∃ o', oramStep o r op = some (o', rep) ∧ OramInv B o' ∧ Represents o' A' := by
  cases op with
  | get b =>
    cases h
    obtain ⟨o', hget, hinv', hR'⟩ := oramGet_refines hinv hB hB' hR b r
    exact ⟨o', by rw [oramStep, hget]; rfl, hinv', hR'⟩
  | put b data =>
    cases h
    obtain ⟨o', hput, hinv', hR'⟩ := oramPut_refines hinv hB hB' hR b data r
    exact ⟨o', by rw [oramStep, hput]; rfl, hinv', hR'⟩
  | putPartial b start len data =>
    obtain ⟨⟨A'', res⟩, hpp, hA⟩ := Option.map_eq_some_iff.1 h
    cases hA
    obtain ⟨o', hpp', hinv', hR'⟩ := oramPutPartial_refines hinv hB hB' hR b start len data r hpp
    exact ⟨o', by rw [oramStep, hpp']; rfl, hinv', hR'⟩
  | allocateBlock =>
    cases h
    obtain ⟨hid, hinv', hR'⟩ := oramAllocateBlock_refines hinv hR
    exact ⟨_, by rw [oramStep, hid], hinv', hR'⟩
  | clear =>
    cases h
    exact ⟨_, rfl, oramClear_refines hinv hR⟩

/-- **Every run**: a run the array defines, from an ORAM that stands for the array, is answered
with the array's replies, whatever leaves the accesses draw, and leaves an ORAM that stands for
the array the run leaves. Induction on the run; the capacity, and with it the bound `B`, is the
same at every step. -/
theorem oramRun_refines : ∀ (ops : List (OramOp × UInt64)) {o : Oram} {A A' : OramArray}
    {replies : List OramReply}, OramInv B o → o.capacityBlocks.toNat + 19 ≤ B → Represents o A →
      A.run (ops.map Prod.fst) = some (A', replies) →
        ∃ o', oramRun o ops = some (o', replies) ∧ OramInv B o' ∧ Represents o' A'
  | [], o, _, _, _, hinv, _, hR, h => by
    cases h
    exact ⟨o, rfl, hinv, hR⟩
  | (op, r) :: ops, o, A, A', replies, hinv, hB, hR, h => by
    rw [List.map_cons, OramArray.run] at h
    obtain ⟨⟨A₁, rep⟩, hstep, hrest⟩ := Option.bind_eq_some_iff.1 h
    obtain ⟨⟨A₂, reps⟩, hrun, hq⟩ := Option.map_eq_some_iff.1 hrest
    cases hq
    obtain ⟨o₁, ho₁, hinv₁, hR₁⟩ := oramStep_refines hB' hinv hB hR op r hstep
    have hB₁ : o₁.capacityBlocks.toNat + 19 ≤ B := by
      rw [hR₁.capacityBlocks_eq, OramArray.step_capacityBlocks hstep, ← hR.capacityBlocks_eq]
      exact hB
    obtain ⟨o₂, ho₂, hinv₂, hR₂⟩ := oramRun_refines ops hinv₁ hB₁ hR₁ hrun
    refine ⟨o₂, ?_, hinv₂, hR₂⟩
    rw [oramRun, ho₁, Option.bind_some, ho₂, Option.map_some]

end Step

/-! ## Creation -/

/-- The root of a tree of `1 ≤ L ≤ 63` levels is at level `L - 1`. -/
theorem level_bucketStoreRoot {L : UInt64} (hL : 1 ≤ L.toNat) (hL' : L.toNat ≤ 63) :
    level (bucketStoreRoot (bucketStoreCreate L)) + 1 = L := by
  have hpow := Nat.one_le_two_pow (n := L.toNat - 1)
  have hbound : 2 ^ (L.toNat - 1) ≤ 2 ^ 62 := Nat.pow_le_pow_right (by norm_num) (by omega)
  have hanc : ancestorAt 0 (L.toNat - 1) = 2 ^ (L.toNat - 1) - 1 := by simp [ancestorAt]
  have hroot : bucketStoreRoot (bucketStoreCreate L) = UInt64.ofNat (ancestorAt 0 (L.toNat - 1)) := by
    apply UInt64.toNat_inj.1
    have hle : (1 : UInt64) ≤ 1 <<< (L - 1) := by
      rw [UInt64.le_iff_toNat_le, numLeaves_toNat hL hL', UInt64.toNat_one]
      exact hpow
    rw [bucketStoreRoot, bucketStoreCreate, UInt64.toNat_sub_of_le _ _ hle, numLeaves_toNat hL hL',
      UInt64.toNat_one, hanc, UInt64.toNat_ofNat_of_lt' (show 2 ^ (L.toNat - 1) - 1 < 2 ^ 64 by omega)]
  rw [hroot, level_ancestorAt (by omega) (by omega), ofNat_succ, Nat.sub_add_cancel hL,
    UInt64.ofNat_toNat]

/-- **`_create`** of a tree of `1 ≤ numLevels ≤ 62` levels that passes its `CHECK`, with an
overflow stash within the bound `B`, builds an ORAM that keeps the invariant and stands for a
fresh array of `numBlocks` blocks. -/
theorem Oram.create_refines {numLevels numBlocks stashOverflowSize : UInt64} (draws : ℕ → UInt64)
    {B : ℕ} (hL : 1 ≤ numLevels.toNat) (hL' : numLevels.toNat ≤ 62)
    (hcheck : 1 <<< (numLevels - 1) ≤ numBlocks) (hovf : stashOverflowSize.toNat ≤ B)
    (hsize : stashOverflowSize.toNat + 3 * 62 < 2 ^ 64) :
    ∃ o, Oram.create numLevels numBlocks stashOverflowSize draws = some o ∧ OramInv B o ∧
      Represents o (OramArray.init numBlocks) := by
  have hq : BLOCKS_PER_BUCKET.toNat = 3 := rfl
  -- the path from leaf `0` to the root has one value per level
  obtain ⟨path, hpath⟩ : ∃ path, treePathCreate 0 (bucketStoreRoot (bucketStoreCreate numLevels)) =
      some path ∧ path.length = numLevels := by
    have hlen := level_bucketStoreRoot hL (by omega)
    refine ⟨_, treePathUpdate_eq_ancestors _ 0 ?_ ?_ rfl (Nat.zero_le _), ?_⟩
    all_goals dsimp only
    all_goals rw [hlen]
    all_goals omega
  let stash : Stash := ⟨fun _ => Block.empty, stashOverflowSize.toNat + 3 * numLevels.toNat,
    numLevels.toNat, stashOverflowSize.toNat, fun _ => 0, fun _ => 0⟩
  have hstash : stashCreate numLevels.toNat stashOverflowSize.toNat = some stash := by
    simp [stashCreate, hq, stash]
  let o : Oram := ⟨bucketStoreCreate numLevels,
    positionMapCreate numBlocks (bucketStoreNumLeaves (bucketStoreCreate numLevels)) draws,
    stash, 0, numBlocks, numLevels, path⟩
  have hlive : oramLiveBlocks o = [] := oramLiveBlocks_eq_nil (fun _ => rfl) (fun _ => rfl)
  refine ⟨o, ?_, ?_, rfl, rfl, fun c hc => oramBlockData_of_nil hlive (ne_empty_of_lt hc)⟩
  · rw [Oram.create, if_pos hcheck]
    simp only [bucketStoreNumLevels, hpath.1, Option.map_some]
    change (stashCreate numLevels.toNat stashOverflowSize.toNat).bind _ = _
    rw [hstash, Option.bind_some]
    rfl
  · exact {
      levels_pos := hL
      levels_le := hL'
      numLevels_toNat := rfl
      store_numLevels := rfl
      path_length := by rw [hpath.2]
      stash_wf := stashCreate_wellFormed hstash (by rw [hq]; omega)
      overflow_le := hovf
      map_size := rfl
      map_lt := fun i _ => by
        show (draws i % (1 <<< (numLevels - 1))).toNat < 2 ^ (numLevels.toNat - 1)
        rw [UInt64.toNat_mod, numLeaves_toNat hL (by omega)]
        exact Nat.mod_lt _ Nat.one_le_two_pow
      allocated_le := UInt64.zero_le
      ids_nodup := by rw [hlive]; exact List.nodup_nil
      id_lt := by simp [hlive]
      position_eq := by simp [hlive]
      data_length := by simp [hlive]
      placed := fun _ _ hne => absurd rfl hne }

/-- `oram_create` sizes the ORAM at most `2^57` blocks: the words fit in 64 bits. -/
theorem oramCreateNumBlocks_le (capacityU64 : UInt64) :
    (oramCreateNumBlocks capacityU64).toNat ≤ 2 ^ 57 := by
  have := capacityU64.toNat_lt
  rw [oramCreateNumBlocks_toNat]
  omega

/-- **`oram_create`** of more words than one block holds, with an overflow stash below `2^63`
blocks, builds an ORAM that keeps the invariant for the bound
`stash_overflow_size + num_blocks + 19` and stands for a fresh array of
`⌈capacity_u64 / BLOCK_DATA_SIZE_QWORDS⌉` blocks. -/
theorem oramCreate_refines {capacityU64 stashOverflowSize : UInt64} (draws : ℕ → UInt64)
    (hcap : BLOCK_DATA_SIZE_QWORDS < capacityU64) (hovf : stashOverflowSize.toNat < 2 ^ 63) :
    ∃ o, oramCreate capacityU64 stashOverflowSize draws = some o ∧
      OramInv (stashOverflowSize.toNat + (oramCreateNumBlocks capacityU64).toNat + 19) o ∧
      Represents o (OramArray.init (oramCreateNumBlocks capacityU64)) := by
  have hq : BLOCK_DATA_SIZE_QWORDS.toNat = 168 := rfl
  have hc := UInt64.lt_iff_toNat_lt.1 hcap
  have hN := oramCreateNumBlocks_toNat capacityU64
  have hN57 := oramCreateNumBlocks_le capacityU64
  set N := oramCreateNumBlocks capacityU64 with hNdef
  -- at least two blocks, and at most `2^57`: the tree has between `1` and `57` levels
  have hN2 : 2 ≤ N.toNat := by rw [hN]; omega
  obtain ⟨hL, hlo, -⟩ := ceilLog2_spec hN2
  have hL' : (ceilLog2 N).toNat ≤ 62 := by
    by_contra hgt
    have : 2 ^ 57 ≤ 2 ^ ((ceilLog2 N).toNat - 1) := Nat.pow_le_pow_right (by norm_num) (by omega)
    omega
  have hcheck : 1 <<< (ceilLog2 N - 1) ≤ N := by
    rw [UInt64.le_iff_toNat_le, numLeaves_toNat hL (by omega)]
    exact hlo.le
  exact Oram.create_refines draws hL hL' hcheck (Nat.le_add_right _ _ |>.trans (Nat.le_add_right _ _))
    (show stashOverflowSize.toNat + 3 * 62 < 2 ^ 64 by omega)

/-- **The Path ORAM implements an array.** `oram_create` of more words than one block holds, with
an overflow stash below `2^63` blocks, builds an ORAM; every run of `oram_get`, `oram_put`,
`oram_put_partial`, `oram_allocate_block` and `oram_clear` on it that a fresh array of
`⌈capacity_u64 / BLOCK_DATA_SIZE_QWORDS⌉` blocks defines is answered with that array's replies,
whatever leaves the accesses draw, and leaves an ORAM that stands for the array the run leaves. -/
theorem oramCreate_implements_array {capacityU64 stashOverflowSize : UInt64} (draws : ℕ → UInt64)
    (hcap : BLOCK_DATA_SIZE_QWORDS < capacityU64) (hovf : stashOverflowSize.toNat < 2 ^ 63) :
    ∃ o, oramCreate capacityU64 stashOverflowSize draws = some o ∧
      ∀ (ops : List (OramOp × UInt64)) {A' : OramArray} {replies : List OramReply},
        (OramArray.init (oramCreateNumBlocks capacityU64)).run (ops.map Prod.fst) =
            some (A', replies) →
          ∃ o', oramRun o ops = some (o', replies) ∧ Represents o' A' := by
  have hinc : STASH_GROWTH_INCREMENT = 20 := rfl
  have hN57 := oramCreateNumBlocks_le capacityU64
  obtain ⟨o, ho, hinv, hR⟩ := oramCreate_refines draws hcap hovf
  refine ⟨o, ho, fun ops A' replies hrun => ?_⟩
  -- the capacity is the array's, so the bound covers it
  have hB : o.capacityBlocks.toNat + 19 ≤
      stashOverflowSize.toNat + (oramCreateNumBlocks capacityU64).toNat + 19 := by
    rw [hR.capacityBlocks_eq]
    exact Nat.add_le_add_right (Nat.le_add_left _ _) _
  obtain ⟨o', ho', -, hR'⟩ := oramRun_refines (by omega) ops hinv hB hR hrun
  exact ⟨o', ho', hR'⟩

theorem oramCreate_implements_array_two_blocks :
    BLOCK_DATA_SIZE_QWORDS < (336 : UInt64) ∧ (0 : UInt64).toNat < 2 ^ 63 ∧
      ∃ o, oramCreate 336 0 (fun _ => 0) = some o ∧
        ∀ (ops : List (OramOp × UInt64)) {A' : OramArray} {replies : List OramReply},
          (OramArray.init (oramCreateNumBlocks 336)).run (ops.map Prod.fst) = some (A', replies) →
            ∃ o', oramRun o ops = some (o', replies) ∧ Represents o' A' :=
  ⟨by decide, by decide, oramCreate_implements_array (fun _ => 0) (by decide) (by decide)⟩

end ContactDiscovery
