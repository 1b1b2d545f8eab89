import Mathlib
import ContactDiscovery.PathOram.Refinement

/-!
# The position map kept in an ORAM (`path_oram/position_map.c`)

A position map of more than `SCAN_THRESHOLD` entries keeps its entries in a smaller ORAM
(`oram_position_map`): entry `i` is word `i % BLOCK_DATA_SIZE_QWORDS` of block
`base_block_id + i / BLOCK_DATA_SIZE_QWORDS`. The ORAM of `PathOram/Oram.lean` keeps its entries
as the array that the linear scans of `scan_position_map` read and write. This module models the
ORAM-backed map and shows that it answers as the scan map does:

* `scanPositionMapGet` — the scan's read, and `scanPositionMapGet_eq`;
* `oramPositionMapGet`, `oramPositionMapSet` — `oram_get` of the entry's block, and a one-word
  `oram_put_partial` whose previous words give the previous entry;
* `oramPositionMapCreate` — `oram_create` of `num_blocks` words, `oram_allocate_contiguous` of
  the blocks it needs, and one `oram_put` of entropy words per block;
* `OramPositionMap.Stores` — the map's ORAM keeps the invariant and holds the entries of an
  array position map;
* `oramPositionMapGet_refines`, `oramPositionMapSet_refines`, `oramPositionMapRun_refines` — an
  operation, and a run, answer as the scan map does;
* `oramPositionMapCreate_stores` — creation holds the entries `positionMapCreate` draws from the
  same words;
* `oramPositionMap_implements_scan` — from creation on, every run the scan map defines is answered
  with the scan map's answers.
-/

set_option autoImplicit false

namespace ContactDiscovery

/-! ## The scan map's read -/

/-- `scan_position_map_get`: `CHECK(block_id < size)`, then a linear scan that copies entry
`block_id` over the caller's word `position`. -/
def scanPositionMapGet (pm : PositionMap) (blockId position : UInt64) : Option UInt64 :=
  if blockId < pm.size then
    some ((List.range pm.size.toNat).foldl
      (fun position i => u64Ternary (UInt64.ofNat i == blockId) (pm.data i) position) position)
  else none

/-- The scan of `scan_position_map_get` over the first `n` entries has copied entry `block_id`
once it has passed it. -/
theorem scanPositionMapGetLoop_eq (pm : PositionMap) (blockId position : UInt64) :
    ∀ n, n ≤ 2 ^ 64 → (List.range n).foldl
      (fun position i => u64Ternary (UInt64.ofNat i == blockId) (pm.data i) position) position =
        if blockId.toNat < n then pm.data blockId.toNat else position
  | 0, _ => by simp
  | n + 1, hn => by
    rw [List.range_succ, List.foldl_append, scanPositionMapGetLoop_eq pm blockId position n (by omega),
      List.foldl_cons, List.foldl_nil, u64Ternary_eq]
    have hcond := ofNat_beq_iff (show n < 2 ^ 64 by omega) blockId
    by_cases heq : blockId.toNat = n
    · rw [if_pos (hcond.2 heq.symm), if_pos (by omega), heq]
    · have hne : (UInt64.ofNat n == blockId) = false := by
        rw [Bool.eq_false_iff]
        exact fun h => heq (hcond.1 h).symm
      rw [hne, if_neg Bool.false_ne_true]
      exact if_congr (by omega) rfl rfl

/-- **`scan_position_map_get`** of a block below the map's size returns its entry, whatever the
caller's word held. -/
theorem scanPositionMapGet_eq (pm : PositionMap) {blockId : UInt64} (h : blockId < pm.size)
    (position : UInt64) : scanPositionMapGet pm blockId position = some (pm.data blockId.toNat) := by
  rw [scanPositionMapGet, if_pos h,
    scanPositionMapGetLoop_eq pm blockId position _ pm.size.toNat_lt.le,
    if_pos (UInt64.lt_iff_toNat_lt.1 h)]

/-! ## The ORAM map -/

/-- `oram_position_map`; its access buffer is scratch, and the model returns what it holds. -/
structure OramPositionMap where
  size : UInt64
  oram : Oram
  baseBlockId : UInt64

/-- `oram_block_size`: `bucket_store_block_data_size`, which is `BLOCK_DATA_SIZE_QWORDS`. -/
def oramBlockSize (_o : Oram) : UInt64 := BLOCK_DATA_SIZE_QWORDS

/-- `block_id_for_index`. -/
def blockIdForIndex (m : OramPositionMap) (index : UInt64) : UInt64 :=
  let entriesPerBlock := oramBlockSize m.oram
  m.baseBlockId + index / entriesPerBlock

/-- `oram_position_map_get`: `oram_get` of the entry's block, then the entry's word. -/
def oramPositionMapGet (m : OramPositionMap) (blockId r : UInt64) :
    Option (OramPositionMap × Except ErrorT UInt64) :=
  let blockSize := oramBlockSize m.oram
  (oramGet m.oram (blockIdForIndex m blockId) r).map fun (o, res) =>
    ({ m with oram := o }, res.map fun buf => buf.getD (blockId % blockSize).toNat 0)

/-- `oram_position_map_set`: a one-word `oram_put_partial` at the entry's word of its block; the
previous entry is that word of the block's previous words. -/
def oramPositionMapSet (m : OramPositionMap) (blockId position r : UInt64) :
    Option (OramPositionMap × Except ErrorT UInt64) :=
  let blockSize := oramBlockSize m.oram
  let idxInBlock := blockId % blockSize
  let lenToPut : UInt64 := 1
  (oramPutPartial m.oram (blockIdForIndex m blockId) idxInBlock lenToPut [position] r).map
    fun (o, res) => ({ m with oram := o }, res.map fun buf => buf.getD idxInBlock.toNat 0)

/-- The words `oram_position_map_create` puts into its `i`-th block: entropy words reduced modulo
`num_positions`; a zero `num_positions` traps on the `%`. -/
def entryWords (wordDraws : ℕ → UInt64) (numPositions : UInt64) (blockSize i : ℕ) :
    Option (List UInt64) :=
  if numPositions = 0 then none
  else some ((List.range blockSize).map fun j => wordDraws (i * blockSize + j) % numPositions)

/-- One iteration of the fill loop of `oram_position_map_create`: `oram_put` of block
`base_block_id + i`, whose error is not checked. -/
def putEntryBlock (wordDraws leafDraws : ℕ → UInt64) (numPositions baseBlockId blockSize : UInt64)
    (o : Oram) (i : ℕ) : Option Oram :=
  (entryWords wordDraws numPositions blockSize.toNat i).bind fun buf =>
    (oramPut o (baseBlockId + UInt64.ofNat i) buf (leafDraws i)).map Prod.fst

/-- `oram_position_map_create(num_blocks, num_positions, overflow_stash_size, getentropy)`:
`CHECK(num_positions <= num_blocks)`, an ORAM of `num_blocks` words, the blocks it needs
allocated at once, and each filled with entropy words. The entropy is three inputs: `draws` for
`oram_create`, `wordDraws k` the `k`-th entry word, and `leafDraws i` the leaf of the `i`-th
`oram_put`. -/
def oramPositionMapCreate (numBlocks numPositions overflowStashSize : UInt64)
    (draws wordDraws leafDraws : ℕ → UInt64) : Option OramPositionMap :=
  if numPositions ≤ numBlocks then
    -- the ORAM's capacity is measured in words
    (oramCreate numBlocks overflowStashSize draws).bind fun o =>
      let blockSize := oramBlockSize o
      let blocksNeeded := numBlocks / blockSize + (if numBlocks % blockSize = 0 then 0 else 1)
      let alloc := oramAllocateContiguous o blocksNeeded
      let baseBlockId := alloc.1
      ((List.range blocksNeeded.toNat).foldlM
          (putEntryBlock wordDraws leafDraws numPositions baseBlockId blockSize) alloc.2).map
        fun o => ⟨numBlocks, o, baseBlockId⟩
  else none

/-! ## What the map stands for -/

/-- The map `m` holds the entries of the array position map `pm`: its ORAM keeps the invariant
with the bound `B` and stands for the array `A`, in which entry `b < size` is word
`b % BLOCK_DATA_SIZE_QWORDS` of the handed-out block `block_id_for_index(b)`. -/
structure OramPositionMap.Stores (B : ℕ) (m : OramPositionMap) (pm : PositionMap) (A : OramArray) :
    Prop where
  inv : OramInv B m.oram
  bound : m.oram.capacityBlocks.toNat + 19 ≤ B
  represents : Represents m.oram A
  size_eq : m.size = pm.size
  allocated : ∀ b < pm.size, blockIdForIndex m b < A.allocatedUb
  entry_eq : ∀ b < pm.size,
    (A.mem (blockIdForIndex m b)).getD (b % BLOCK_DATA_SIZE_QWORDS).toNat 0 = pm.data b.toNat

/-- Two entries in the same word of the same block are one entry. -/
theorem blockIdForIndex_inj (m : OramPositionMap) {b b' : UInt64}
    (h : blockIdForIndex m b' = blockIdForIndex m b)
    (hmod : b' % BLOCK_DATA_SIZE_QWORDS = b % BLOCK_DATA_SIZE_QWORDS) : b' = b := by
  have hdiv : b' / BLOCK_DATA_SIZE_QWORDS = b / BLOCK_DATA_SIZE_QWORDS := add_left_cancel h
  have hd := congrArg UInt64.toNat hdiv
  have hm := congrArg UInt64.toNat hmod
  rw [UInt64.toNat_div, UInt64.toNat_div] at hd
  rw [UInt64.toNat_mod, UInt64.toNat_mod] at hm
  apply UInt64.toNat_inj.1
  rw [← Nat.div_add_mod b'.toNat BLOCK_DATA_SIZE_QWORDS.toNat, hd, hm, Nat.div_add_mod]

/-- A one-word `put_partial` changes that word only. -/
theorem partialWords_getD_one (old : List UInt64) (s : ℕ) (p : UInt64) {k : ℕ}
    (hk : k < BLOCK_DATA_SIZE_QWORDS.toNat) :
    (partialWords old s 1 [p]).getD k 0 = if k = s then p else old.getD k 0 := by
  rw [partialWords, List.getD_eq_getElem?_getD, List.getElem?_map, List.getElem?_range hk,
    Option.map_some, Option.getD_some]
  by_cases h : k = s
  · rw [if_pos (by omega), if_pos h, h, Nat.sub_self]
    rfl
  · rw [if_neg (by omega), if_neg h]

/-- `put` leaves the block's words as `data` has them. -/
theorem putWords_getD (data : List UInt64) {k : ℕ} (hk : k < BLOCK_DATA_SIZE_QWORDS.toNat) :
    (putWords data).getD k 0 = data.getD k 0 := by
  rw [putWords, List.getD_eq_getElem?_getD, List.getElem?_map, List.getElem?_range hk,
    Option.map_some, Option.getD_some]

theorem mod_blockSize_lt (b : UInt64) :
    (b % BLOCK_DATA_SIZE_QWORDS).toNat < BLOCK_DATA_SIZE_QWORDS.toNat := by
  rw [UInt64.toNat_mod]
  exact Nat.mod_lt _ (by decide)

/-! ## Each operation against the scan map -/

section Ops

variable {B : ℕ} (hB' : 3 * 62 + B + STASH_GROWTH_INCREMENT < 2 ^ 64) {m : OramPositionMap}
  {pm : PositionMap} {A : OramArray} (hS : m.Stores B pm A)
include hB' hS

/-- **`oram_position_map_get`** of an entry the scan map reads returns that entry. -/
theorem oramPositionMapGet_refines {blockId position v : UInt64}
    (h : scanPositionMapGet pm blockId position = some v) (r : UInt64) :
    ∃ m', oramPositionMapGet m blockId r = some (m', .ok v) ∧ m'.Stores B pm A := by
  have hb : blockId < pm.size := by
    by_contra hb
    rw [scanPositionMapGet, if_neg hb] at h
    cases h
  rw [scanPositionMapGet_eq pm hb] at h
  cases h
  have halloc := hS.allocated blockId hb
  obtain ⟨o', hget, hinv', hR'⟩ := oramGet_refines hS.inv hS.bound hB' hS.represents
    (blockIdForIndex m blockId) r
  refine ⟨{ m with oram := o' }, ?_, ⟨hinv', ?_, hR', hS.size_eq, hS.allocated, hS.entry_eq⟩⟩
  · rw [oramPositionMapGet, hget, Option.map_some, OramArray.get, if_pos halloc]
    simp only [Except.map, oramBlockSize]
    rw [hS.entry_eq blockId hb]
  · show o'.capacityBlocks.toNat + 19 ≤ B
    rw [hR'.capacityBlocks_eq, ← hS.represents.capacityBlocks_eq]
    exact hS.bound

/-- **`oram_position_map_set`** of an entry the scan map writes returns the previous entry, as
`position_map_read_then_set` does, and holds the scan map's new entries. -/
theorem oramPositionMapSet_refines {blockId position prev : UInt64} {pm' : PositionMap}
    (h : positionMapReadThenSet pm blockId position = some (pm', prev)) (r : UInt64) :
    ∃ m' A', oramPositionMapSet m blockId position r = some (m', .ok prev) ∧ m'.Stores B pm' A' := by
  have hb : blockId < pm.size := by
    by_contra hb
    rw [positionMapReadThenSet, if_neg hb] at h
    cases h
  rw [positionMapReadThenSet_eq pm hb] at h
  cases h
  have hq : BLOCK_DATA_SIZE_QWORDS.toNat = 168 := rfl
  have hidx := mod_blockSize_lt blockId
  have halloc := hS.allocated blockId hb
  -- the one-word write lies inside the block
  have hA : A.putPartial (blockIdForIndex m blockId) (blockId % BLOCK_DATA_SIZE_QWORDS) 1 [position] =
      some ({ A with
        mem := (Function.update A.mem (blockIdForIndex m blockId)
          (partialWords (A.mem (blockIdForIndex m blockId)) (blockId % BLOCK_DATA_SIZE_QWORDS).toNat 1
            [position])) }, .ok (A.mem (blockIdForIndex m blockId))) := by
    rw [OramArray.putPartial, if_pos halloc,
      if_pos ⟨by decide, by rw [UInt64.toNat_one]; omega⟩]
    rfl
  obtain ⟨o', hpp, hinv', hR'⟩ := oramPutPartial_refines hS.inv hS.bound hB' hS.represents _ _ _ _
    r hA
  refine ⟨{ m with oram := o' }, _, ?_, ⟨hinv', ?_, hR', hS.size_eq, hS.allocated, fun b hb' => ?_⟩⟩
  · rw [oramPositionMapSet]
    simp only [oramBlockSize]
    rw [hpp, Option.map_some]
    simp only [Except.map]
    rw [hS.entry_eq blockId hb]
  · show o'.capacityBlocks.toNat + 19 ≤ B
    rw [hR'.capacityBlocks_eq, ← hS.represents.capacityBlocks_eq]
    exact hS.bound
  · -- the written word is entry `blockId`; every other entry keeps its word
    show (Function.update A.mem (blockIdForIndex m blockId) _ (blockIdForIndex m b)).getD _ 0 =
      Function.update pm.data blockId.toNat position b.toNat
    by_cases hbb : b = blockId
    · subst hbb
      rw [Function.update_self, Function.update_self, partialWords_getD_one _ _ _ hidx, if_pos rfl]
    · rw [Function.update_of_ne (fun h => hbb (UInt64.toNat_inj.1 h))]
      by_cases hblk : blockIdForIndex m b = blockIdForIndex m blockId
      · have hmod : (b % BLOCK_DATA_SIZE_QWORDS).toNat ≠ (blockId % BLOCK_DATA_SIZE_QWORDS).toNat :=
          fun h => hbb (blockIdForIndex_inj m hblk (UInt64.toNat_inj.1 h))
        rw [hblk, Function.update_self, partialWords_getD_one _ _ _ (mod_blockSize_lt b), if_neg hmod,
          ← hblk]
        exact hS.entry_eq b hb'
      · rw [Function.update_of_ne hblk]
        exact hS.entry_eq b hb'

end Ops

/-! ## Runs -/

/-- The operations of `position_map`'s interface. -/
inductive PositionMapOp where
  | get (blockId : UInt64)
  | readThenSet (blockId position : UInt64)

/-- One operation on the scan map (`position_map_get` with the caller's word `0`, and
`position_map_read_then_set`); `none` when its `CHECK` aborts. -/
def scanPositionMapStep (pm : PositionMap) : PositionMapOp → Option (PositionMap × UInt64)
  | .get b => (scanPositionMapGet pm b 0).map fun v => (pm, v)
  | .readThenSet b p => positionMapReadThenSet pm b p

/-- One operation on the ORAM map, `r` the leaf its access draws. -/
def oramPositionMapStep (m : OramPositionMap) (r : UInt64) :
    PositionMapOp → Option (OramPositionMap × Except ErrorT UInt64)
  | .get b => oramPositionMapGet m b r
  | .readThenSet b p => oramPositionMapSet m b p r

/-- A run of operations on the scan map. -/
def scanPositionMapRun (pm : PositionMap) : List PositionMapOp → Option (PositionMap × List UInt64)
  | [] => some (pm, [])
  | op :: ops =>
    (scanPositionMapStep pm op).bind fun p => (scanPositionMapRun p.1 ops).map fun q => (q.1, p.2 :: q.2)

/-- A run of operations on the ORAM map, each with the leaf its access draws. -/
def oramPositionMapRun (m : OramPositionMap) :
    List (PositionMapOp × UInt64) → Option (OramPositionMap × List (Except ErrorT UInt64))
  | [] => some (m, [])
  | (op, r) :: ops =>
    (oramPositionMapStep m r op).bind fun p =>
      (oramPositionMapRun p.1 ops).map fun q => (q.1, p.2 :: q.2)

section Run

variable {B : ℕ} (hB' : 3 * 62 + B + STASH_GROWTH_INCREMENT < 2 ^ 64)
include hB'

/-- One operation of the ORAM map answers as the scan map's. -/
theorem oramPositionMapStep_refines {m : OramPositionMap} {pm : PositionMap} {A : OramArray}
    (hS : m.Stores B pm A) (op : PositionMapOp) (r : UInt64) {pm' : PositionMap} {v : UInt64}
    (h : scanPositionMapStep pm op = some (pm', v)) :
    ∃ m' A', oramPositionMapStep m r op = some (m', .ok v) ∧ m'.Stores B pm' A' := by
  cases op with
  | get b =>
    obtain ⟨v', hget, hv⟩ := Option.map_eq_some_iff.1 h
    cases hv
    obtain ⟨m', hm', hS'⟩ := oramPositionMapGet_refines hB' hS hget r
    exact ⟨m', A, hm', hS'⟩
  | readThenSet b p => exact oramPositionMapSet_refines hB' hS h r

/-- **Every run** of the ORAM map answers as the scan map's, by induction on the run. -/
theorem oramPositionMapRun_refines : ∀ (ops : List (PositionMapOp × UInt64)) {m : OramPositionMap}
    {pm pm' : PositionMap} {A : OramArray} {vs : List UInt64}, m.Stores B pm A →
      scanPositionMapRun pm (ops.map Prod.fst) = some (pm', vs) →
        ∃ m' A', oramPositionMapRun m ops = some (m', vs.map .ok) ∧ m'.Stores B pm' A'
  | [], m, _, _, A, _, hS, h => by
    cases h
    exact ⟨m, A, rfl, hS⟩
  | (op, r) :: ops, m, pm, pm', A, vs, hS, h => by
    rw [List.map_cons, scanPositionMapRun] at h
    obtain ⟨⟨pm₁, v⟩, hstep, hrest⟩ := Option.bind_eq_some_iff.1 h
    obtain ⟨⟨pm₂, vs'⟩, hrun, hq⟩ := Option.map_eq_some_iff.1 hrest
    cases hq
    obtain ⟨m₁, A₁, hm₁, hS₁⟩ := oramPositionMapStep_refines hB' hS op r hstep
    obtain ⟨m₂, A₂, hm₂, hS₂⟩ := oramPositionMapRun_refines ops hS₁ hrun
    refine ⟨m₂, A₂, ?_, hS₂⟩
    rw [oramPositionMapRun, hm₁, Option.bind_some, hm₂, Option.map_some, List.map_cons]

end Run

/-! ## Creation -/

/-- Block `base + i`, for `i` below `2^64`, is one block per `i`. -/
theorem add_ofNat_inj {base : UInt64} {i k : ℕ} (hi : i < 2 ^ 64) (hk : k < 2 ^ 64)
    (h : base + UInt64.ofNat i = base + UInt64.ofNat k) : i = k := by
  have h' := congrArg UInt64.toNat (add_left_cancel h)
  rwa [UInt64.toNat_ofNat_of_lt' hi, UInt64.toNat_ofNat_of_lt' hk] at h'

/-- The words drawn for entry `j` of block `i`. -/
theorem entryWords_getD {wordDraws : ℕ → UInt64} {numPositions : UInt64} (i : ℕ) {k : ℕ}
    (hk : k < BLOCK_DATA_SIZE_QWORDS.toNat) :
    (((List.range BLOCK_DATA_SIZE_QWORDS.toNat).map fun j =>
        wordDraws (i * BLOCK_DATA_SIZE_QWORDS.toNat + j) % numPositions)).getD k 0 =
      wordDraws (i * BLOCK_DATA_SIZE_QWORDS.toNat + k) % numPositions := by
  rw [List.getD_eq_getElem?_getD, List.getElem?_map, List.getElem?_range hk, Option.map_some,
    Option.getD_some]

section Create

variable {B : ℕ} (hB' : 3 * 62 + B + STASH_GROWTH_INCREMENT < 2 ^ 64)
  {wordDraws leafDraws : ℕ → UInt64} {numPositions baseBlockId : UInt64} (hpos : numPositions ≠ 0)
include hB' hpos

/-- **The fill loop** of `oram_position_map_create` over blocks `base_block_id + i`, `i < k`, all
handed out: every `oram_put` succeeds, and block `base_block_id + i` then holds the words drawn
for it. Induction on `k`, with the invariant and the array carried. -/
theorem putEntryBlock_loop {o : Oram} {A : OramArray} (hinv : OramInv B o)
    (hB : o.capacityBlocks.toNat + 19 ≤ B) (hR : Represents o A) :
    ∀ k ≤ 2 ^ 64, (∀ i < k, baseBlockId + UInt64.ofNat i < A.allocatedUb) →
      ∃ o' A', (List.range k).foldlM
          (putEntryBlock wordDraws leafDraws numPositions baseBlockId BLOCK_DATA_SIZE_QWORDS) o =
            some o' ∧ OramInv B o' ∧ Represents o' A' ∧ A'.allocatedUb = A.allocatedUb ∧
        A'.capacityBlocks = A.capacityBlocks ∧
        ∀ i < k, A'.mem (baseBlockId + UInt64.ofNat i) = putWords
          ((List.range BLOCK_DATA_SIZE_QWORDS.toNat).map fun j =>
            wordDraws (i * BLOCK_DATA_SIZE_QWORDS.toNat + j) % numPositions)
  | 0, _, _ => ⟨o, A, rfl, hinv, hR, rfl, rfl, fun _ hi => absurd hi (Nat.not_lt_zero _)⟩
  | k + 1, hk, halloc => by
    obtain ⟨o₁, A₁, hfold, hinv₁, hR₁, halloc₁, hcap₁, hmem₁⟩ :=
      putEntryBlock_loop hinv hB hR k (by omega) fun i hi => halloc i (by omega)
    have hB₁ : o₁.capacityBlocks.toNat + 19 ≤ B := by
      rw [hR₁.capacityBlocks_eq, hcap₁, ← hR.capacityBlocks_eq]
      exact hB
    have hk' : baseBlockId + UInt64.ofNat k < A₁.allocatedUb := halloc₁ ▸ halloc k (by omega)
    -- block `k` gets its words
    obtain ⟨o₂, hput, hinv₂, hR₂⟩ := oramPut_refines hinv₁ hB₁ hB' hR₁ (baseBlockId + UInt64.ofNat k)
      ((List.range BLOCK_DATA_SIZE_QWORDS.toNat).map fun j =>
        wordDraws (k * BLOCK_DATA_SIZE_QWORDS.toNat + j) % numPositions) (leafDraws k)
    rw [OramArray.put, if_pos hk'] at hR₂
    refine ⟨o₂, _, ?_, hinv₂, hR₂, halloc₁, hcap₁, fun i hi => ?_⟩
    · rw [List.range_succ, List.foldlM_append, hfold]
      simp [putEntryBlock, entryWords, hpos, hput]
    · show Function.update A₁.mem _ _ _ = _
      rcases Nat.lt_succ_iff_lt_or_eq.1 hi with hi | rfl
      · rw [Function.update_of_ne fun h => absurd (add_ofNat_inj (by omega) (by omega) h) (by omega)]
        exact hmem₁ i hi
      · rw [Function.update_self]

end Create

/-- **`oram_position_map_create`** of more entries than one block holds, over
`1 ≤ num_positions ≤ num_blocks` leaves, with an overflow stash below `2^63` blocks, holds the
entries that `positionMapCreate` draws from the same words. -/
theorem oramPositionMapCreate_stores {numBlocks numPositions overflowStashSize : UInt64}
    (draws wordDraws leafDraws : ℕ → UInt64) (hsize : BLOCK_DATA_SIZE_QWORDS < numBlocks)
    (hpos : numPositions ≠ 0) (hle : numPositions ≤ numBlocks)
    (hovf : overflowStashSize.toNat < 2 ^ 63) :
    ∃ m A, oramPositionMapCreate numBlocks numPositions overflowStashSize draws wordDraws
        leafDraws = some m ∧
      m.Stores (overflowStashSize.toNat + (oramCreateNumBlocks numBlocks).toNat + 19)
        (positionMapCreate numBlocks numPositions wordDraws) A := by
  have hq : BLOCK_DATA_SIZE_QWORDS.toNat = 168 := rfl
  have hinc : STASH_GROWTH_INCREMENT = 20 := rfl
  have hN57 := oramCreateNumBlocks_le numBlocks
  have hN := oramCreateNumBlocks_toNat numBlocks
  obtain ⟨o, ho, hinv, hR⟩ := oramCreate_refines draws hsize hovf
  set N := oramCreateNumBlocks numBlocks with hNdef
  -- the blocks the map needs are all the ORAM has, handed out from `0`
  obtain ⟨hbase, hinv₁, hR₁⟩ := oramAllocateContiguous_fits hinv hR (n := N)
    (by simp [OramArray.init])
  set alloc := oramAllocateContiguous o N with halloc
  have hbase' : alloc.1 = 0 := hbase
  have hB₁ : alloc.2.capacityBlocks.toNat + 19 ≤ overflowStashSize.toNat + N.toNat + 19 := by
    rw [hR₁.capacityBlocks_eq]
    exact Nat.add_le_add_right (Nat.le_add_left _ _) _
  obtain ⟨o₂, A₂, hfold, hinv₂, hR₂, halloc₂, hcap₂, hmem₂⟩ :=
    putEntryBlock_loop (by omega) hpos hinv₁ hB₁ hR₁ N.toNat (by omega) fun i hi => by
      have hi' : (UInt64.ofNat i).toNat = i := UInt64.toNat_ofNat_of_lt' (show i < 2 ^ 64 by omega)
      show alloc.1 + UInt64.ofNat i < 0 + N
      rw [hbase', UInt64.zero_add, UInt64.zero_add, UInt64.lt_iff_toNat_lt, hi']
      exact hi
  refine ⟨⟨numBlocks, o₂, alloc.1⟩, A₂, ?_, ⟨hinv₂, ?_, hR₂, rfl, fun b hb => ?_, fun b hb => ?_⟩⟩
  · rw [oramPositionMapCreate, if_pos hle, ho, Option.bind_some]
    show Option.map (fun o' => (⟨numBlocks, o', alloc.1⟩ : OramPositionMap))
      ((List.range N.toNat).foldlM
        (putEntryBlock wordDraws leafDraws numPositions alloc.1 BLOCK_DATA_SIZE_QWORDS) alloc.2) = _
    rw [hfold, Option.map_some]
  · show o₂.capacityBlocks.toNat + 19 ≤ _
    rw [hR₂.capacityBlocks_eq, hcap₂]
    show N.toNat + 19 ≤ overflowStashSize.toNat + N.toNat + 19
    omega
  · -- entry `b` lies in block `b / BLOCK_DATA_SIZE_QWORDS`, one of the `N` handed out
    have hb' := UInt64.lt_iff_toNat_lt.1 hb
    show alloc.1 + b / BLOCK_DATA_SIZE_QWORDS < A₂.allocatedUb
    rw [halloc₂, hbase']
    show 0 + b / BLOCK_DATA_SIZE_QWORDS < 0 + N
    change b.toNat < numBlocks.toNat at hb'
    rw [UInt64.zero_add, UInt64.zero_add, UInt64.lt_iff_toNat_lt, UInt64.toNat_div, hq, hN]
    omega
  · have hb' : b.toNat < numBlocks.toNat := UInt64.lt_iff_toNat_lt.1 hb
    have hdiv : (b / BLOCK_DATA_SIZE_QWORDS).toNat = b.toNat / 168 := by
      rw [UInt64.toNat_div, hq]
    have hmod : (b % BLOCK_DATA_SIZE_QWORDS).toNat = b.toNat % 168 := by
      rw [UInt64.toNat_mod, hq]
    have hblk : blockIdForIndex ⟨numBlocks, o₂, alloc.1⟩ b =
        alloc.1 + UInt64.ofNat (b.toNat / 168) := by
      rw [← hdiv, UInt64.ofNat_toNat]
      rfl
    rw [hblk, hmem₂ _ (by rw [hN]; omega), putWords_getD _ (mod_blockSize_lt b), hmod,
      entryWords_getD _ (by rw [hq]; omega), hq, Nat.div_add_mod']
    rfl

/-- **The ORAM position map implements the scan map.** `oram_position_map_create` of more entries
than one block holds (`position_map_create` takes it above `SCAN_THRESHOLD`), over
`1 ≤ num_positions ≤ num_blocks` leaves, with an overflow stash below `2^63` blocks, succeeds;
from there, every run of `position_map_get` and `position_map_read_then_set` that the scan map
created from the same entry words defines is answered by `oram_position_map_get` and
`oram_position_map_set` with the scan map's answers, whatever leaves the ORAM's accesses draw. -/
theorem oramPositionMap_implements_scan {numBlocks numPositions overflowStashSize : UInt64}
    (draws wordDraws leafDraws : ℕ → UInt64) (hsize : BLOCK_DATA_SIZE_QWORDS < numBlocks)
    (hpos : numPositions ≠ 0) (hle : numPositions ≤ numBlocks)
    (hovf : overflowStashSize.toNat < 2 ^ 63) :
    ∃ m, oramPositionMapCreate numBlocks numPositions overflowStashSize draws wordDraws
        leafDraws = some m ∧
      ∀ (ops : List (PositionMapOp × UInt64)) {pm' : PositionMap} {vs : List UInt64},
        scanPositionMapRun (positionMapCreate numBlocks numPositions wordDraws) (ops.map Prod.fst) =
            some (pm', vs) →
          ∃ m', oramPositionMapRun m ops = some (m', vs.map .ok) := by
  have hinc : STASH_GROWTH_INCREMENT = 20 := rfl
  have hN57 := oramCreateNumBlocks_le numBlocks
  obtain ⟨m, A, hm, hS⟩ := oramPositionMapCreate_stores draws wordDraws leafDraws hsize hpos hle hovf
  refine ⟨m, hm, fun ops pm' vs hrun => ?_⟩
  obtain ⟨m', -, hm', -⟩ := oramPositionMapRun_refines (by omega) ops hS hrun
  exact ⟨m', hm'⟩

theorem oramPositionMap_implements_scan_two_blocks :
    BLOCK_DATA_SIZE_QWORDS < (200 : UInt64) ∧ (2 : UInt64) ≠ 0 ∧ (2 : UInt64) ≤ 200 ∧
      (0 : UInt64).toNat < 2 ^ 63 ∧
      ∃ m, oramPositionMapCreate 200 2 0 (fun _ => 0) (fun _ => 0) (fun _ => 0) = some m ∧
        ∀ (ops : List (PositionMapOp × UInt64)) {pm' : PositionMap} {vs : List UInt64},
          scanPositionMapRun (positionMapCreate 200 2 fun _ => 0) (ops.map Prod.fst) =
              some (pm', vs) →
            ∃ m', oramPositionMapRun m ops = some (m', vs.map .ok) :=
  ⟨by decide, by decide, by decide, by decide,
    oramPositionMap_implements_scan (fun _ => 0) (fun _ => 0) (fun _ => 0) (by decide) (by decide)
      (by decide) (by decide)⟩

end ContactDiscovery
