import Mathlib
import ContactDiscovery.PathOram.TreePath

/-!
# Buckets, blocks and the Path ORAM stash (`path_oram/bucket.c`, `path_oram/stash.c`)

* `Block`, `BucketStore` — a block is its id, its position (twice its leaf) and its
  `BLOCK_DATA_SIZE_QWORDS` data words; the bucket store holds `BLOCKS_PER_BUCKET` blocks per
  bucket, bucket `b`'s slot `i` at `blocks (3 * b + i)`, all `0xFF` bytes (empty) at creation;
* `Stash` — one block array whose first `3 * pathLength` entries are the path stash (bucket of
  level `k` at `3 * k`) and whose rest is the overflow stash, with the two scratch arrays of the
  placement (`bucketOccupancy`, `bucketAssignments`);
* `stashAddPathBucket`, `stashScanOverflowForTarget` — load a bucket (scan the overflow) and
  swap the target block out, with the source's `CHECK`s (`none` is an abort);
* `stashAddBlock` — put a block into the first empty overflow slot, growing the overflow by
  `STASH_GROWTH_INCREMENT` when it is full;
* `stashAssignBuckets` — the greedy placement: every block to the lowest bucket of the path
  that lies above its leaf and has room, then empty blocks to fill the buckets;
* `stashBuildPath` — the placement followed by the bitonic sort on (assignment, position).

Sizes and loop counters of the stash are `ℕ` (they bound arrays of a few hundred blocks);
ids, positions and assignments are the source's `u64` words.
-/

set_option autoImplicit false

namespace ContactDiscovery

/-! ## Blocks and the bucket store -/

/-- `ENCRYPTED_BUCKET_SIZE`: one 4 KiB page per bucket. -/
def ENCRYPTED_BUCKET_SIZE : UInt64 := 4096

/-- `DECRYPTED_BUCKET_SIZE`. -/
def DECRYPTED_BUCKET_SIZE : UInt64 := ENCRYPTED_BUCKET_SIZE

/-- `BLOCKS_PER_BUCKET`. -/
def BLOCKS_PER_BUCKET : UInt64 := 3

/-- `DECRYPTED_BLOCK_SIZE`. -/
def DECRYPTED_BLOCK_SIZE : UInt64 := DECRYPTED_BUCKET_SIZE / BLOCKS_PER_BUCKET

/-- `UNROUNDED_BLOCK_DATA_SIZE_BYTES`: a block less its id and position words. -/
def UNROUNDED_BLOCK_DATA_SIZE_BYTES : UInt64 := DECRYPTED_BLOCK_SIZE - 16

/-- `BLOCK_DATA_SIZE_QWORDS`. -/
def BLOCK_DATA_SIZE_QWORDS : UInt64 := UNROUNDED_BLOCK_DATA_SIZE_BYTES / 8

/-- `EMPTY_BLOCK_ID`. -/
def EMPTY_BLOCK_ID : UInt64 := UINT64_MAX

theorem BLOCK_DATA_SIZE_QWORDS_eq : BLOCK_DATA_SIZE_QWORDS = 168 := by decide

@[simp] theorem BLOCKS_PER_BUCKET_toNat : BLOCKS_PER_BUCKET.toNat = 3 := rfl

/-- `block`. -/
structure Block where
  id : UInt64
  position : UInt64
  data : List UInt64
  deriving DecidableEq, Repr

/-- A block of `0xFF` bytes, as `memset(…, 255, …)` leaves it: empty, at position `UINT64_MAX`. -/
def Block.empty : Block :=
  ⟨EMPTY_BLOCK_ID, UINT64_MAX, List.replicate BLOCK_DATA_SIZE_QWORDS.toNat UINT64_MAX⟩

/-- `block_is_empty`. -/
def blockIsEmpty (b : Block) : Bool := b.id == EMPTY_BLOCK_ID

/-- `bucket_store`: bucket `b`'s slot `i` is `blocks (3 * b + i)`. -/
structure BucketStore where
  numLevels : UInt64
  blocks : ℕ → Block

/-- `memcpy` of `n` blocks from `src` at `srcStart` to `dst` at `dstStart`. -/
def copyBlocks (dst : ℕ → Block) (dstStart : ℕ) (src : ℕ → Block) (srcStart n : ℕ) : ℕ → Block :=
  fun k => if dstStart ≤ k ∧ k < dstStart + n then src (srcStart + (k - dstStart)) else dst k

/-- `bucket_store_create`: `2^numLevels - 1` buckets of `0xFF` bytes (allocation assumed to
succeed). -/
def bucketStoreCreate (numLevels : UInt64) : BucketStore := ⟨numLevels, fun _ => Block.empty⟩

/-- `bucket_store_clear`. -/
def bucketStoreClear (store : BucketStore) : BucketStore := { store with blocks := fun _ => Block.empty }

/-- `bucket_store_root`. -/
def bucketStoreRoot (store : BucketStore) : UInt64 := (1 <<< (store.numLevels - 1)) - 1

/-- `bucket_store_num_levels`. -/
def bucketStoreNumLevels (store : BucketStore) : UInt64 := store.numLevels

/-- `bucket_store_num_leaves`. -/
def bucketStoreNumLeaves (store : BucketStore) : UInt64 := 1 <<< (store.numLevels - 1)

/-- `bucket_store_read_bucket_blocks`: copy bucket `bucketId` into `dst` at `dstStart`; `none`
when the `CHECK` that the bucket exists aborts. -/
def bucketStoreReadBucketBlocks (store : BucketStore) (bucketId : UInt64) (dst : ℕ → Block)
    (dstStart : ℕ) : Option (ℕ → Block) :=
  if bucketId < treePathNumNodes store.numLevels then
    some (copyBlocks dst dstStart store.blocks (BLOCKS_PER_BUCKET.toNat * bucketId.toNat)
      BLOCKS_PER_BUCKET.toNat)
  else none

/-- `bucket_store_write_bucket_blocks` (no check). -/
def bucketStoreWriteBucketBlocks (store : BucketStore) (bucketId : UInt64) (src : ℕ → Block)
    (srcStart : ℕ) : BucketStore :=
  { store with
    blocks := copyBlocks store.blocks (BLOCKS_PER_BUCKET.toNat * bucketId.toNat) src srcStart
      BLOCKS_PER_BUCKET.toNat }

/-! ## The stash -/

/-- `STASH_GROWTH_INCREMENT`. -/
def STASH_GROWTH_INCREMENT : ℕ := 20

/-- `stash`: `blocks` holds the path stash (`path_blocks`, the first `3 * pathLength` entries)
followed by the overflow stash (`overflow_blocks`). -/
structure Stash where
  blocks : ℕ → Block
  numBlocks : ℕ
  pathLength : ℕ
  overflowCapacity : ℕ
  bucketOccupancy : ℕ → UInt64
  bucketAssignments : ℕ → UInt64

/-- Index of `overflow_blocks[i]` in `blocks`. -/
def Stash.overflowIndex (s : Stash) (i : ℕ) : ℕ := BLOCKS_PER_BUCKET.toNat * s.pathLength + i

/-- `block_type`. -/
inductive BlockType where
  | overflow
  | path
  deriving DecidableEq, Repr

/-- `stash_create`; the `CHECK` on the overflow capacity (allocations assumed to succeed). -/
def stashCreate (pathLength overflowSize : ℕ) : Option Stash :=
  let numPathBlocks := BLOCKS_PER_BUCKET.toNat * pathLength
  let numBlocks := overflowSize + numPathBlocks
  let overflowCapacity := numBlocks - numPathBlocks
  if overflowSize = overflowCapacity then
    some ⟨fun _ => Block.empty, numBlocks, pathLength, overflowCapacity, fun _ => 0, fun _ => 0⟩
  else none

/-- The loop of `stash_overflow_ub` from `i`: step down while `overflow_blocks[i - 1]` is empty. -/
def stashOverflowUbLoop (s : Stash) : ℕ → ℕ
  | 0 => 0
  | i + 1 => if (s.blocks (s.overflowIndex i)).id ≠ EMPTY_BLOCK_ID then i + 1 else stashOverflowUbLoop s i

/-- `stash_overflow_ub`: one past the last non-empty overflow block (the leaking variant the
source selects with `allow_overflow_size_leak = true`). -/
def stashOverflowUb (s : Stash) : ℕ := stashOverflowUbLoop s s.overflowCapacity

/-- `cond_swap_blocks(cond, a, b)`: word-wise `cond_obv_swap_u64`, i.e. a swap when `cond`. -/
def condSwapBlocks (cond : Bool) (a b : Block) : Block × Block := if cond then (b, a) else (a, b)

/-- One iteration of the loops of `stash_add_path_bucket` and `stash_scan_overflow_for_target`
at entry `k`: abort if a second copy of the target shows up, else swap the target out. -/
def swapOutTarget (targetBlockId : UInt64) (k : ℕ) (acc : (ℕ → Block) × Block) :
    Option ((ℕ → Block) × Block) :=
  let (blocks, target) := acc
  let cond := targetBlockId == (blocks k).id
  if cond && target.id != EMPTY_BLOCK_ID then none
  else
    let (target', entry) := condSwapBlocks cond target (blocks k)
    some (Function.update blocks k entry, target')

/-- `stash_add_path_bucket`: load bucket `bucketId` into the path stash at its level and swap
the target block out of it. -/
def stashAddPathBucket (s : Stash) (store : BucketStore) (bucketId targetBlockId : UInt64)
    (target : Block) : Option (Stash × Block) :=
  let base := BLOCKS_PER_BUCKET.toNat * (treePathLevel bucketId).toNat
  (bucketStoreReadBucketBlocks store bucketId s.blocks base).bind fun blocks =>
    ((List.range BLOCKS_PER_BUCKET.toNat).foldlM (fun acc i => swapOutTarget targetBlockId (base + i) acc)
      (blocks, target)).map fun (blocks, target) => ({ s with blocks }, target)

/-- `stash_scan_overflow_for_target`: the same swap over the overflow up to
`stash_overflow_ub`, then `CHECK(num_found <= 1)`. -/
def stashScanOverflowForTarget (s : Stash) (targetBlockId : UInt64) (target : Block) :
    Option (Stash × Block) :=
  let ub := stashOverflowUb s
  ((List.range ub).foldlM
      (fun (acc : (ℕ → Block) × Block × ℕ) i =>
        let k := s.overflowIndex i
        let found := targetBlockId == (acc.1 k).id
        (swapOutTarget targetBlockId k (acc.1, acc.2.1)).map fun (blocks, target) =>
          (blocks, target, acc.2.2 + if found then 1 else 0))
      (s.blocks, target, 0)).bind fun (blocks, target, numFound) =>
    if numFound ≤ 1 then some ({ s with blocks }, target) else none

/-- One pass of `stash_add_block`: copy `newBlock` into the first empty overflow slot; the flag
says whether it was inserted. -/
def stashAddBlockPass (s : Stash) (newBlock : Block) : (ℕ → Block) × Bool :=
  (List.range s.overflowCapacity).foldl
    (fun (acc : (ℕ → Block) × Bool) i =>
      let k := s.overflowIndex i
      let cond := (acc.1 k).id == EMPTY_BLOCK_ID && !acc.2
      (if cond then Function.update acc.1 k newBlock else acc.1, acc.2 || cond))
    (s.blocks, false)

/-- `stash_extend_overflow`: `STASH_GROWTH_INCREMENT` more empty overflow blocks at the end
(`realloc` keeps the old blocks), and fresh `calloc`ed assignments. -/
def stashExtendOverflow (s : Stash) : Stash :=
  let newNumBlocks := s.numBlocks + STASH_GROWTH_INCREMENT
  { s with
    blocks := fun k => if s.numBlocks ≤ k ∧ k < newNumBlocks then Block.empty else s.blocks k
    bucketAssignments := fun _ => 0
    numBlocks := newNumBlocks
    overflowCapacity := s.overflowCapacity + STASH_GROWTH_INCREMENT }

/-- `stash_add_block` and its tail call after an extension, on `fuel` rounds. -/
def stashAddBlockLoop : ℕ → Stash → Block → Option Stash
  | 0, _, _ => none
  | fuel + 1, s, newBlock =>
    let (blocks, inserted) := stashAddBlockPass s newBlock
    if !inserted then stashAddBlockLoop fuel (stashExtendOverflow { s with blocks }) newBlock
    else some { s with blocks }

/-- `stash_add_block`: after one extension the new empty blocks take the block, so two rounds
always suffice (`stashAddBlock_isSome`). -/
def stashAddBlock (s : Stash) (newBlock : Block) : Option Stash := stashAddBlockLoop 2 s newBlock

/-- `stash_assign_block_to_bucket`: give the block at `index` (of the path stash, or of the
overflow) the lowest level below `max_level` whose path bucket lies above the block's position
and has room; occupancy and assignment are written by conditional copies. -/
def stashAssignBlockToBucket (s : Stash) (path : TreePath) (type : BlockType) (index : ℕ) : Stash :=
  let isOverflowBlock := type == .overflow
  -- the block cannot be assigned to this level or higher
  let maxLevel := if isOverflowBlock then s.pathLength else index / BLOCKS_PER_BUCKET.toNat + 1
  let assignmentIndex :=
    if isOverflowBlock then BLOCKS_PER_BUCKET.toNat * s.pathLength + index else index
  let block := s.blocks assignmentIndex
  let r := (List.range maxLevel).foldl
    (fun (acc : (ℕ → UInt64) × (ℕ → UInt64) × Bool) level =>
      let (occupancy, assignments, isAssigned) := acc
      let bucketOccupancy := occupancy level
      let bucketId := path.values level
      let isValid := decide (treePathLowerBound bucketId ≤ block.position) &&
        decide (block.position ≤ treePathUpperBound bucketId)
      let bucketHasRoom := decide (bucketOccupancy < BLOCKS_PER_BUCKET)
      let cond := isValid && bucketHasRoom && !isAssigned && block.id != EMPTY_BLOCK_ID
      (condObvCpyU64 cond occupancy level (bucketOccupancy + 1),
        condObvCpyU64 cond assignments assignmentIndex (UInt64.ofNat level), cond || isAssigned))
    (s.bucketOccupancy, s.bucketAssignments, false)
  { s with bucketOccupancy := r.1, bucketAssignments := r.2.1 }

/-- The inner loop of `stash_place_empty_blocks`: `curr_bucket` becomes the first bucket with
room, and keeps its value when every bucket is full. -/
def firstBucketWithRoom (occupancy : ℕ → UInt64) (pathLength : ℕ) (currBucket : UInt64) : UInt64 :=
  ((List.range pathLength).foldl
    (fun (acc : UInt64 × Bool) j =>
      let bucketHasRoom := occupancy j != BLOCKS_PER_BUCKET
      let setCurrBucket := bucketHasRoom && !acc.2
      (u64Ternary setCurrBucket (UInt64.ofNat j) acc.1, setCurrBucket || acc.2))
    (currBucket, false)).1

/-- `stash_place_empty_blocks`: every empty block, in index order, fills the first bucket that
still has room. -/
def stashPlaceEmptyBlocks (s : Stash) : Stash :=
  let r := (List.range s.numBlocks).foldl
    (fun (acc : (ℕ → UInt64) × (ℕ → UInt64) × UInt64) i =>
      let (occupancy, assignments, currBucket) := acc
      let currBucket := firstBucketWithRoom occupancy s.pathLength currBucket
      let bucketOccupancy := occupancy currBucket.toNat
      let condPlaceInBucket :=
        decide (bucketOccupancy < BLOCKS_PER_BUCKET) && (s.blocks i).id == EMPTY_BLOCK_ID
      (condObvCpyU64 condPlaceInBucket occupancy currBucket.toNat (bucketOccupancy + 1),
        condObvCpyU64 condPlaceInBucket assignments i currBucket, currBucket))
    (s.bucketOccupancy, s.bucketAssignments, 0)
  { s with bucketOccupancy := r.1, bucketAssignments := r.2.1 }

/-- `stash_assign_buckets`: all assignments to `UINT64_MAX` (overflow) and all occupancies to
`0`; then the path blocks level by level, the overflow blocks up to `stash_overflow_ub`, and the
empty blocks. -/
def stashAssignBuckets (s : Stash) (path : TreePath) : Stash :=
  let s := { s with bucketAssignments := fun _ => UINT64_MAX, bucketOccupancy := fun _ => 0 }
  let s := (List.range s.pathLength).foldl
    (fun s level => (List.range BLOCKS_PER_BUCKET.toNat).foldl
      (fun s b => stashAssignBlockToBucket s path .path (level * BLOCKS_PER_BUCKET.toNat + b)) s) s
  let ub := stashOverflowUb s
  let s := (List.range ub).foldl (fun s i => stashAssignBlockToBucket s path .overflow i) s
  stashPlaceEmptyBlocks s

/-- `comp_blocks`: the order of the sort, by assignment and then by position. -/
def compBlocks (x y : Block × UInt64) : Bool :=
  decide (x.2 > y.2) || (x.2 == y.2 && decide (x.1.position > y.1.position))

/-- `stash_build_path`: assign, then `bitonic_sort` ascending the blocks with their assignments
over the path stash and the used overflow. The source's merge splits at `first_pow2_leq`, which
is `Bitonic.splitPoint` (`merge_unfold_pow2Split`). -/
def stashBuildPath (s : Stash) (path : TreePath) : Stash :=
  let overflowSize := stashOverflowUb s
  let s := stashAssignBuckets s path
  let sorted := Bitonic.sort compBlocks true (fun k => (s.blocks k, s.bucketAssignments k)) 0
    (BLOCKS_PER_BUCKET.toNat * s.pathLength + overflowSize)
  { s with blocks := fun k => (sorted k).1, bucketAssignments := fun k => (sorted k).2 }

@[simp] theorem stashAssignBlockToBucket_blocks (s : Stash) (path : TreePath) (type : BlockType)
    (index : ℕ) : (stashAssignBlockToBucket s path type index).blocks = s.blocks := rfl

@[simp] theorem stashPlaceEmptyBlocks_blocks (s : Stash) : (stashPlaceEmptyBlocks s).blocks = s.blocks :=
  rfl

/-- Assigning buckets moves no block. -/
@[simp] theorem stashAssignBuckets_blocks (s : Stash) (path : TreePath) :
    (stashAssignBuckets s path).blocks = s.blocks := by
  unfold stashAssignBuckets
  simp only [stashPlaceEmptyBlocks_blocks]
  -- each of the two loops only writes occupancies and assignments
  refine List.foldlRecOn (motive := fun (s' : Stash) => s'.blocks = s.blocks) _ _ ?_ ?_
  · refine List.foldlRecOn (motive := fun (s' : Stash) => s'.blocks = s.blocks) _ _ rfl ?_
    intro s' hs' level _
    refine List.foldlRecOn (motive := fun (s'' : Stash) => s''.blocks = s.blocks) _ _ hs' ?_
    intro s'' hs'' b _
    rw [stashAssignBlockToBucket_blocks, hs'']
  · intro s' hs' i _
    rw [stashAssignBlockToBucket_blocks, hs']

/-- `stash_clear`. -/
def stashClear (s : Stash) : Stash := { s with blocks := fun _ => Block.empty }

/-! ## Sizes -/

/-- The sizes a stash keeps: its array is the `3 * path_length` blocks of the path stash followed
by the overflow, and is indexed by a `size_t`. -/
structure Stash.WellFormed (s : Stash) : Prop where
  numBlocks_eq : s.numBlocks = BLOCKS_PER_BUCKET.toNat * s.pathLength + s.overflowCapacity
  numBlocks_lt : s.numBlocks < 2 ^ 64

theorem stashCreate_wellFormed {pathLength overflowSize : ℕ} {s : Stash}
    (h : stashCreate pathLength overflowSize = some s)
    (hsize : overflowSize + BLOCKS_PER_BUCKET.toNat * pathLength < 2 ^ 64) : s.WellFormed := by
  unfold stashCreate at h
  simp only at h
  split at h
  · cases h
    exact ⟨by simp only [BLOCKS_PER_BUCKET_toNat] at *; omega, hsize⟩
  · cases h

theorem stashExtendOverflow_wellFormed {s : Stash} (h : s.WellFormed)
    (hsize : s.numBlocks + STASH_GROWTH_INCREMENT < 2 ^ 64) : (stashExtendOverflow s).WellFormed :=
  ⟨by simp only [stashExtendOverflow, h.numBlocks_eq]; omega, hsize⟩

end ContactDiscovery
