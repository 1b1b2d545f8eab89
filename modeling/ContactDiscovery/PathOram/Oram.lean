import Mathlib
import ContactDiscovery.PathOram.Stash

/-!
# Path ORAM (`path_oram/path_oram.c`, `path_oram/position_map.c`)

* `PositionMap` — the leaf of every block; `positionMapReadThenSet` is the oblivious scan of
  `scan_position_map_set`. An `oram_map` position map (more than `SCAN_THRESHOLD` blocks) keeps
  the same array inside a smaller ORAM; it is modelled by that array.
* `Oram` — bucket store, position map, stash, allocation bound, capacity, height and the
  current path;
* `Oram.create` (`_create`) with its `CHECK((1 << (num_levels - 1)) <= num_blocks)`, and
  `oramCreate`, which sizes the tree as `ceil_log2` of the block count;
* `oramAccess` — draw a new leaf, read-then-set the position map, read the old leaf's path
  into the stash while swapping the target out, run the accessor, put the target into the
  overflow, rebuild the path and write it back;
* `oramGet`, `oramPut`, `oramPutPartial` with `read_accessor` and `write_accessor`;
  `oramAllocateBlock`, `oramAllocateContiguous`, `oramClear`.

Entropy is an input: `oramCreate` takes the words drawn for the position map, and every access
the word drawn for the new leaf. A `CHECK` that aborts, and a trap of the machine, is `none`.
The statistics (`oram_statistics`, `oram_collect_statistics`) are left out.

Principal results: `oramCreate_small_capacity_aborts` (a table of at most
`BLOCK_DATA_SIZE_QWORDS` words has one block, a tree of height `0`, and the creation check
shifts by `-1`), `oramAllocateContiguous_spec` (allocation is the bounded bump of the reference
model exactly when the wrapped sum does not overflow), `oramAllocateContiguous_wraps`, and
`oramFunctionAccess_error_loses_block` (an accessor error leaves the block behind its old leaf
while the position map has moved it).
-/

set_option autoImplicit false

namespace ContactDiscovery

/-! ## The position map -/

/-- `SCAN_THRESHOLD`. -/
def SCAN_THRESHOLD : UInt64 := (1 : UInt64) <<< 14

/-- `position_map`: `data[i]` is the leaf of block `i`, for `i < size`. -/
structure PositionMap where
  size : UInt64
  data : ℕ → UInt64

/-- `position_map_create(size, num_positions)`: every entry is an entropy word reduced modulo
the number of leaves (`scan_position_map_create`; the `oram_map` of more than `SCAN_THRESHOLD`
entries fills its ORAM with words reduced the same way). -/
def positionMapCreate (size numPositions : UInt64) (draws : ℕ → UInt64) : PositionMap :=
  ⟨size, fun i => draws i % numPositions⟩

/-- The loop of `scan_position_map_set`: swap `prev` with `data[i]` exactly at `i = block_id`. -/
def scanPositionMapSetLoop (blockId : UInt64) (n : ℕ) (acc : UInt64 × (ℕ → UInt64)) :
    UInt64 × (ℕ → UInt64) :=
  (List.range n).foldl
    (fun (acc : UInt64 × (ℕ → UInt64)) i =>
      let cond := UInt64.ofNat i == blockId
      let (prev, entry) := condObvSwapU64 cond acc.1 (acc.2 i)
      (prev, Function.update acc.2 i entry))
    acc

/-- `position_map_read_then_set`: `CHECK(block_id < size)`, then the scan that writes
`position` at `block_id` and returns the previous entry. -/
def positionMapReadThenSet (pm : PositionMap) (blockId position : UInt64) :
    Option (PositionMap × UInt64) :=
  if blockId < pm.size then
    let (prev, data) := scanPositionMapSetLoop blockId pm.size.toNat (position, pm.data)
    some (⟨pm.size, data⟩, prev)
  else none

/-! ## The ORAM state -/

/-- `oram` (without its statistics and its entropy function). -/
structure Oram where
  bucketStore : BucketStore
  positionMap : PositionMap
  stash : Stash
  allocatedUb : UInt64
  capacityBlocks : UInt64
  numLevels : UInt64
  path : TreePath

/-- `block_is_allocated`. -/
def blockIsAllocated (o : Oram) (blockId : UInt64) : Bool := blockId < o.allocatedUb

/-- `_create(num_levels, num_blocks, stash_overflow_size, getentropy)`. -/
def Oram.create (numLevels numBlocks stashOverflowSize : UInt64) (draws : ℕ → UInt64) :
    Option Oram :=
  -- make sure the number of leaves in the bucket store isn't bigger than the number of blocks
  if (1 <<< (numLevels - 1)) ≤ numBlocks then
    let bucketStore := bucketStoreCreate numLevels
    let numLevels := bucketStoreNumLevels bucketStore
    let positionMap := positionMapCreate numBlocks (bucketStoreNumLeaves bucketStore) draws
    (stashCreate numLevels.toNat stashOverflowSize.toNat).bind fun stash =>
      (treePathCreate 0 (bucketStoreRoot bucketStore)).map fun path =>
        ⟨bucketStore, positionMap, stash, 0, numBlocks, numLevels, path⟩
  else none

/-- `oram_create(capacity_u64, stash_overflow_size, getentropy)`: enough blocks for the words,
and a tree of `ceil_log2` of their number levels. -/
def oramCreate (capacityU64 stashOverflowSize : UInt64) (draws : ℕ → UInt64) : Option Oram :=
  let numBlocks := capacityU64 / BLOCK_DATA_SIZE_QWORDS +
    (if capacityU64 % BLOCK_DATA_SIZE_QWORDS = 0 then 0 else 1)
  let numLevels := ceilLog2 numBlocks
  Oram.create numLevels numBlocks stashOverflowSize draws

/-! ## Access -/

/-- `random_mod_by_pow_of_2`: the entropy word `r` masked to `modulus - 1`. -/
def randomModByPowOf2 (r modulus : UInt64) : UInt64 := r &&& (modulus - 1)

/-- `oram_read_path_for_block`: every bucket of the path, then the overflow; the target then
carries its id and its new position. -/
def oramReadPathForBlock (o : Oram) (path : TreePath) (targetBlockId : UInt64) (target : Block)
    (newPosition : UInt64) : Option (Stash × Block) :=
  ((List.range path.length.toNat).foldlM
      (fun (acc : Stash × Block) i =>
        stashAddPathBucket acc.1 o.bucketStore (path.values i) targetBlockId acc.2)
      (o.stash, target)).bind fun (stash, target) =>
    (stashScanOverflowForTarget stash targetBlockId target).map fun (stash, target) =>
      (stash, { target with id := targetBlockId, position := newPosition })

/-- The write-back loop of `oram_access`: bucket `path.values i` receives the path stash's
blocks `3 * i, 3 * i + 1, 3 * i + 2`. -/
def writePath (store : BucketStore) (path : TreePath) (stash : Stash) : BucketStore :=
  (List.range path.length.toNat).foldl
    (fun store i => bucketStoreWriteBucketBlocks store (path.values i) stash.blocks
      (BLOCKS_PER_BUCKET.toNat * i))
    store

/-- `oram_access(oram, block_id, accessor, args)` with `r` the entropy word of the new leaf.
The accessor maps the block's words to their new value and its output (`args`), or to an error;
`none` from it is an abort. An accessor error returns at once: the target, already swapped out,
is not put back. -/
def oramAccess {β : Type} (o : Oram) (blockId : UInt64)
    (accessor : List UInt64 → Option (Except ErrorT (List UInt64 × β))) (r : UInt64) :
    Option (Oram × Except ErrorT β) :=
  let target := Block.empty
  let maxPosition := bucketStoreNumLeaves o.bucketStore
  let newPosition := randomModByPowOf2 r maxPosition
  (positionMapReadThenSet o.positionMap blockId newPosition).bind fun (positionMap, x) =>
    -- bucket locations are always even
    let x := x * 2
    (treePathUpdate o.path x).bind fun path =>
      let o := { o with positionMap, path }
      (oramReadPathForBlock o path blockId target (newPosition * 2)).bind fun (stash, target) =>
        let o := { o with stash }
        (accessor target.data).bind fun
          | .error e => some (o, .error e)
          | .ok (data, out) =>
            (stashAddBlock o.stash { target with data }).map fun stash =>
              let stash := stashBuildPath stash path
              ({ o with stash, bucketStore := writePath o.bucketStore path stash }, .ok out)

/-- `oram_function_access`. -/
def oramFunctionAccess {β : Type} (o : Oram) (blockId : UInt64)
    (accessor : List UInt64 → Option (Except ErrorT (List UInt64 × β))) (r : UInt64) :
    Option (Oram × Except ErrorT β) :=
  if blockIsAllocated o blockId then oramAccess o blockId accessor r
  else some (o, .error .ORAM__ACCESS_UNALLOCATED_BLOCK)

/-- `read_accessor`: copy the block's words out. -/
def readAccessor (blockData : List UInt64) : Option (Except ErrorT (List UInt64 × List UInt64)) :=
  some (.ok (blockData, blockData.take BLOCK_DATA_SIZE_QWORDS.toNat))

/-- `write_accessor` with `in_data_start`, `in_data_len`, `in_data`, and whether `out_data` is
given: word `i` of the block becomes `in_data[(i + len - start % len) % len]` when
`start ≤ i < start + len`. A zero `len` traps on the `%`. -/
def writeAccessor (inDataStart inDataLen : UInt64) (inData : List UInt64) (wantPrev : Bool)
    (blockData : List UInt64) : Option (Except ErrorT (List UInt64 × Option (List UInt64))) :=
  if inDataLen = 0 then none
  else
    let prev := if wantPrev then some (blockData.take BLOCK_DATA_SIZE_QWORDS.toNat) else none
    let data := (List.range BLOCK_DATA_SIZE_QWORDS.toNat).foldl
      (fun (d : List UInt64) i =>
        let iw := UInt64.ofNat i
        let cond := decide (iw ≥ inDataStart) && decide (iw < inDataStart + inDataLen)
        let sourceIndex := (iw + inDataLen - inDataStart % inDataLen) % inDataLen
        d.set i (u64Ternary cond (inData.getD sourceIndex.toNat 0) (d.getD i 0)))
      blockData
    some (.ok (data, prev))

/-- `oram_get`: the block's words. -/
def oramGet (o : Oram) (blockId : UInt64) (r : UInt64) :
    Option (Oram × Except ErrorT (List UInt64)) :=
  oramFunctionAccess o blockId readAccessor r

/-- `oram_put`: overwrite the whole block. -/
def oramPut (o : Oram) (blockId : UInt64) (data : List UInt64) (r : UInt64) :
    Option (Oram × Except ErrorT Unit) :=
  (oramFunctionAccess o blockId (writeAccessor 0 BLOCK_DATA_SIZE_QWORDS data false) r).map
    fun (o, res) => (o, res.map fun _ => ())

/-- `oram_put_partial`: `CHECK(start + len <= BLOCK_DATA_SIZE_QWORDS)`, then overwrite words
`[start, start + len)` and return the previous words. -/
def oramPutPartial (o : Oram) (blockId start len : UInt64) (data : List UInt64) (r : UInt64) :
    Option (Oram × Except ErrorT (List UInt64)) :=
  if blockIsAllocated o blockId then
    if start + len ≤ BLOCK_DATA_SIZE_QWORDS then
      (oramAccess o blockId (writeAccessor start len data true) r).map
        fun (o, res) => (o, res.map fun p => p.getD [])
    else none
  else some (o, .error .ORAM__ACCESS_UNALLOCATED_BLOCK)

/-! ## Allocation and clearing -/

/-- `oram_allocate_block`. -/
def oramAllocateBlock (o : Oram) : UInt64 × Oram :=
  if o.allocatedUb < o.capacityBlocks then (o.allocatedUb, { o with allocatedUb := o.allocatedUb + 1 })
  else (UINT64_MAX, o)

/-- `oram_allocate_contiguous`: the bound `allocated_ub + num_blocks` is a wrapping `size_t`
sum. -/
def oramAllocateContiguous (o : Oram) (numBlocks : UInt64) : UInt64 × Oram :=
  let requestedUb := o.allocatedUb + numBlocks
  if requestedUb ≤ o.capacityBlocks then (o.allocatedUb, { o with allocatedUb := requestedUb })
  else (UINT64_MAX, o)

/-- `oram_clear`: empty buckets and stash, nothing allocated (the position map keeps its random
leaves). -/
def oramClear (o : Oram) : Oram :=
  { o with bucketStore := bucketStoreClear o.bucketStore, stash := stashClear o.stash, allocatedUb := 0 }

/-! ## The array the ORAM stores -/

/-- The words of block `id` as the ORAM holds them between accesses: the first block with that
id in the bucket store (`2^numLevels - 1` buckets), else in the overflow stash, else the `0xFF`
words of a block never written. -/
def oramBlockData (o : Oram) (id : UInt64) : List UInt64 :=
  let storeSlots := BLOCKS_PER_BUCKET.toNat * (treePathNumNodes o.numLevels).toNat
  match (List.range storeSlots).find? (fun k => (o.bucketStore.blocks k).id == id) with
  | some k => (o.bucketStore.blocks k).data
  | none =>
    match (List.range o.stash.overflowCapacity).find?
        (fun i => (o.stash.blocks (o.stash.overflowIndex i)).id == id) with
    | some i => (o.stash.blocks (o.stash.overflowIndex i)).data
    | none => Block.empty.data

/-- The number of blocks carrying the id `id` in the bucket store and the overflow stash, the two
places a block lives between accesses. -/
def oramBlockCount (o : Oram) (id : UInt64) : ℕ :=
  let storeSlots := BLOCKS_PER_BUCKET.toNat * (treePathNumNodes o.numLevels).toNat
  (List.range storeSlots).countP (fun k => (o.bucketStore.blocks k).id == id) +
    (List.range o.stash.overflowCapacity).countP
      (fun i => (o.stash.blocks (o.stash.overflowIndex i)).id == id)

/-! ## Creation and allocation against the array model -/

/-- The allocation of the array model: `n` blocks from bound `b` out of `capacity`, in unbounded
arithmetic; the first block's id and the new bound, or `UINT64_MAX` and the old bound. -/
def allocateSpec (b capacity n : ℕ) : ℕ × ℕ :=
  if b + n ≤ capacity then (b, b + n) else (UINT64_MAX.toNat, b)

/-- **A wrapping request shrinks the allocation.** An ORAM of two blocks (entropy all zero), one
block allocated; `oram_allocate_contiguous(SIZE_MAX)` returns `1` and sets the bound to `0`, so
that block `0` is no longer readable, where the array model refuses (`1 + (2^64 - 1) > 2`) and
keeps the bound `1`. -/
theorem oramAllocateContiguous_wraps :
    (oramCreate 336 0 fun _ => 0).map (fun o =>
      let (first, o) := oramAllocateBlock o
      let (next, o) := oramAllocateContiguous o UINT64_MAX
      ((first, o.capacityBlocks), (next, o.allocatedUb), (oramGet o 0 0).map Prod.snd)) =
        some ((0, 2), (1, 0), some (.error .ORAM__ACCESS_UNALLOCATED_BLOCK)) ∧
    allocateSpec 1 2 UINT64_MAX.toNat = (UINT64_MAX.toNat, 1) := by
  decide +kernel

/-- **A wrapping request orphans a stored block.** In an ORAM of two blocks (entropy all zero),
block `0` is allocated and written; `oram_allocate_contiguous(SIZE_MAX)` then moves the bound to
`0`. The block stays in the tree, non-empty, while no block id is allocated any more. -/
theorem oramAllocateContiguous_orphans_block :
    (oramCreate 336 0 fun _ => 0).bind (fun o =>
      let (first, o) := oramAllocateBlock o
      (oramPut o first (List.replicate 168 7) 0).map fun (o, put) =>
        let (next, o) := oramAllocateContiguous o UINT64_MAX
        (put, next, o.allocatedUb, oramBlockCount o 0, blockIsAllocated o 0)) =
      some (.ok (), 1, 0, 1, false) := by
  decide +kernel

/-- **An accessor error loses the block.** In an ORAM of four blocks (position map all zero),
block `0` is written with leaf `0`, which puts it in leaf `0`'s bucket. An access whose accessor
fails then draws leaf `1`: the position map moves the block there and the path stash has it
swapped out, but the early return writes nothing back. A later `oram_get` reads leaf `1`'s path,
where the block is not, and returns the `0xFF` words of a block never written. -/
theorem oramFunctionAccess_error_loses_block :
    (oramCreate 672 0 fun _ => 0).bind (fun o =>
      let (b, o) := oramAllocateBlock o
      (oramPut o b (List.replicate 168 7) 0).bind fun (o, put) =>
        (oramFunctionAccess o b (fun _ => some (.error .OHTABLE__TABLE_FULL)) 1 :
            Option (Oram × Except ErrorT Unit)).bind fun (o, res) =>
          (oramGet o b 0).map fun (_, after) => (put, res, after)) =
      some (.ok (), .error .OHTABLE__TABLE_FULL, .ok Block.empty.data) := by
  decide +kernel

end ContactDiscovery
