import Mathlib
import ContactDiscovery.PathOram.Oram

/-!
# Memory sizing of the Path ORAM (`oram_size_bytes`, `position_map_size_bytes`,
`oram_create_for_available_mem`)

Two computations of the memory an ORAM takes:

* the estimate of the source — `oramSizeBytes` (`oram_size_bytes`), `positionMapSizeBytes`
  (`position_map_size_bytes`) and `stashSizeBytes` (`stash_size_bytes`); past
  `SCAN_THRESHOLD` blocks it sizes the recursive position map as an ORAM of
  `num_blocks / BLOCK_DATA_SIZE_QWORDS + 1` blocks and `floor_log2` of that many levels;
* what the constructors allocate — `createAllocatedBytes` (`_create`),
  `oramCreateAllocatedBytes` (`oram_create`) and `positionMapCreateAllocatedBytes`
  (`position_map_create`), every `malloc` and `calloc` they make, with the recursive position
  map built by `oram_create` from `⌈num_blocks / BLOCK_DATA_SIZE_QWORDS⌉` blocks and
  `ceil_log2` of that many levels.

`oramCreateForAvailableMem` is `oram_create_for_available_mem`: the height and block count it
hands to `_create`. The sizes of the structures are a parameter (`SizeofTable`). Counts of
levels, leaves and blocks are computed as the source computes them, in 64-bit words; byte totals
are added in `ℕ`, as they never come near `2^64` for a tree that fits in memory.

Principal results: `oramCreateForAvailableMem_fits` (what the sizing accepts has an estimate
within the available bytes), `positionMapSizeBytes_add_lt_allocated` and
`oramSizeBytes_lt_createAllocatedBytes` (for every tree below `168 * 2^14` blocks the estimate
is short of the allocation, past `SCAN_THRESHOLD` by the buckets of the taller inner tree), and
`oramCreateForAvailableMem_overcommits`: an ORAM sized to `oram_size_bytes(16, 2^15, s)` bytes
allocates more than `128` buckets beyond them. `ohtableOramAvailableBytes_eq`: the hash table
adds its record buffers to the ORAM's share where it means to subtract them.
-/

set_option autoImplicit false

namespace ContactDiscovery

/-- The `sizeof` of the structures the ORAM allocates, as the compiler lays them out. The bucket
store header, like every C object, takes at least one byte. -/
structure SizeofTable where
  oram : ℕ
  bucketStore : ℕ
  positionMap : ℕ
  stash : ℕ
  block : ℕ
  treePath : ℕ
  bucketStore_pos : 0 < bucketStore

theorem SCAN_THRESHOLD_toNat : SCAN_THRESHOLD.toNat = 2 ^ 14 := rfl

theorem BLOCK_DATA_SIZE_QWORDS_toNat : BLOCK_DATA_SIZE_QWORDS.toNat = 168 := by
  rw [BLOCK_DATA_SIZE_QWORDS_eq]
  rfl

theorem ENCRYPTED_BUCKET_SIZE_toNat : ENCRYPTED_BUCKET_SIZE.toNat = 4096 := rfl

/-- `num_blocks / BLOCK_DATA_SIZE_QWORDS + 1`, the block count of the estimated position map. -/
theorem blocksNeeded_toNat (n : UInt64) :
    (n / BLOCK_DATA_SIZE_QWORDS + 1).toNat = n.toNat / 168 + 1 := by
  have := n.toNat_lt
  rw [BLOCK_DATA_SIZE_QWORDS_eq, UInt64.toNat_add, UInt64.toNat_div]
  simp only [UInt64.reduceToNat, UInt64.toNat_one]
  omega

/-! ## The estimate -/

/-- `stash_size_bytes(path_length, overflow_size)`: the stash, its blocks, its bucket occupancy
and its bucket assignments. -/
def stashSizeBytes (sz : SizeofTable) (pathLength overflowSize : ℕ) : ℕ :=
  let numPathBlocks := BLOCKS_PER_BUCKET.toNat * pathLength
  let numBlocks := overflowSize + numPathBlocks
  sz.stash + numBlocks * sz.block + pathLength * 8 + numBlocks * 8

mutual

/-- `oram_size_bytes(num_levels, num_blocks, stash_overflow_size)`. -/
def oramSizeBytes (sz : SizeofTable) (numLevels numBlocks stashOverflowSize : UInt64) : ℕ :=
  let numLeaves : UInt64 := 1 <<< (numLevels - 1)
  let bucketStoreSize := (2 * numLeaves.toNat - 1) * ENCRYPTED_BUCKET_SIZE.toNat
  let posMapSize := positionMapSizeBytes sz numBlocks stashOverflowSize
  let stashSize := stashSizeBytes sz numLevels.toNat stashOverflowSize.toNat
  let pathSize := numLevels.toNat * 8
  sz.oram + bucketStoreSize + posMapSize + stashSize + pathSize
termination_by 2 * numBlocks.toNat + 1

/-- `position_map_size_bytes(num_blocks, stash_overflow_size)`. -/
def positionMapSizeBytes (sz : SizeofTable) (numBlocks stashOverflowSize : UInt64) : ℕ :=
  if h : numBlocks > SCAN_THRESHOLD then
    let blocksNeeded := numBlocks / BLOCK_DATA_SIZE_QWORDS + 1
    let numLevels := floorLog2 blocksNeeded
    oramSizeBytes sz numLevels blocksNeeded stashOverflowSize + sz.positionMap
  else numBlocks.toNat * 8 + sz.positionMap
termination_by 2 * numBlocks.toNat
decreasing_by
  have hT : SCAN_THRESHOLD.toNat < numBlocks.toNat := UInt64.lt_iff_toNat_lt.1 h
  rw [blocksNeeded_toNat]
  rw [SCAN_THRESHOLD_toNat] at hT
  omega

end

/-! ## What the constructors allocate -/

/-- `num_blocks` of `oram_create(capacity_u64)`: enough blocks for the words. -/
def oramCreateNumBlocks (capacityU64 : UInt64) : UInt64 :=
  capacityU64 / BLOCK_DATA_SIZE_QWORDS + (if capacityU64 % BLOCK_DATA_SIZE_QWORDS = 0 then 0 else 1)

theorem oramCreateNumBlocks_toNat (c : UInt64) :
    (oramCreateNumBlocks c).toNat = (c.toNat + 167) / 168 := by
  have := c.toNat_lt
  rw [oramCreateNumBlocks, BLOCK_DATA_SIZE_QWORDS_eq]
  by_cases hc : c % 168 = 0
  · have hc' : c.toNat % 168 = 0 := by
      simpa [← UInt64.toNat_inj, UInt64.toNat_mod] using hc
    rw [if_pos hc, UInt64.add_zero, UInt64.toNat_div]
    simp only [UInt64.reduceToNat]
    omega
  · have hc' : c.toNat % 168 ≠ 0 := by
      simpa [← UInt64.toNat_inj, UInt64.toNat_mod] using hc
    rw [if_neg hc, UInt64.toNat_add, UInt64.toNat_div]
    simp only [UInt64.reduceToNat, UInt64.toNat_one]
    omega

/-- `bucket_store_create(num_levels)`: the `malloc` of the buckets and the `calloc` of the
header. -/
def bucketStoreCreateAllocatedBytes (sz : SizeofTable) (numLevels : UInt64) : ℕ :=
  let numBuckets := treePathNumNodes numLevels
  numBuckets.toNat * ENCRYPTED_BUCKET_SIZE.toNat + sz.bucketStore

/-- `stash_create(path_length, overflow_size)`: the stash, its blocks, its bucket occupancy and
its bucket assignments. -/
def stashCreateAllocatedBytes (sz : SizeofTable) (pathLength overflowSize : ℕ) : ℕ :=
  let numPathBlocks := BLOCKS_PER_BUCKET.toNat * pathLength
  let numBlocks := overflowSize + numPathBlocks
  sz.stash + numBlocks * sz.block + pathLength * 8 + numBlocks * 8

/-- `tree_path_create(leaf, root)`: the header and `level(root) + 1` values. -/
def treePathCreateAllocatedBytes (sz : SizeofTable) (root : UInt64) : ℕ :=
  let length := level root + 1
  sz.treePath + 8 * length.toNat

mutual

/-- The bytes `_create(num_levels, num_blocks, stash_overflow_size)` allocates: the `oram`, its
bucket store, position map, stash and path; `none` when its `CHECK` aborts. -/
def createAllocatedBytes (sz : SizeofTable) (numLevels numBlocks stashOverflowSize : UInt64) :
    Option ℕ :=
  if (1 <<< (numLevels - 1)) ≤ numBlocks then
    let bucketStore := bucketStoreCreate numLevels
    (positionMapCreateAllocatedBytes sz numBlocks (bucketStoreNumLeaves bucketStore)
        stashOverflowSize).map fun positionMap =>
      sz.oram + bucketStoreCreateAllocatedBytes sz numLevels + positionMap +
        stashCreateAllocatedBytes sz (bucketStoreNumLevels bucketStore).toNat
          stashOverflowSize.toNat +
        treePathCreateAllocatedBytes sz (bucketStoreRoot bucketStore)
  else none
termination_by 3 * numBlocks.toNat + 2

/-- The bytes `oram_create(capacity_u64, stash_overflow_size)` allocates. -/
def oramCreateAllocatedBytes (sz : SizeofTable) (capacityU64 stashOverflowSize : UInt64) :
    Option ℕ :=
  let numBlocks := oramCreateNumBlocks capacityU64
  let numLevels := ceilLog2 numBlocks
  createAllocatedBytes sz numLevels numBlocks stashOverflowSize
termination_by
  if capacityU64 > SCAN_THRESHOLD then 3 * capacityU64.toNat else 3 * capacityU64.toNat + 3
decreasing_by
  rw [oramCreateNumBlocks_toNat]
  split
  · rename_i hT
    rw [gt_iff_lt, UInt64.lt_iff_toNat_lt, SCAN_THRESHOLD_toNat] at hT
    omega
  · omega

/-- The bytes `position_map_create(size, num_positions, overflow_stash_size)` allocates: the
`position_map`, and either the array of a scan map or, past `SCAN_THRESHOLD` entries, the ORAM
of `oram_position_map_create` and its access buffer of one block. -/
def positionMapCreateAllocatedBytes (sz : SizeofTable) (size numPositions overflowStashSize : UInt64) :
    Option ℕ :=
  if h : size > SCAN_THRESHOLD then
    if numPositions ≤ size then
      (oramCreateAllocatedBytes sz size overflowStashSize).map fun oram =>
        sz.positionMap + oram + BLOCK_DATA_SIZE_QWORDS.toNat * 8
    else none
  else some (sz.positionMap + size.toNat * 8)
termination_by 3 * size.toNat + 1
decreasing_by
  rw [if_pos h]
  omega

end

/-! ## Sizing an ORAM to the available memory -/

theorem toNat_sub_one_lt {n : UInt64} (h : n > 0) : (n - 1).toNat < n.toNat := by
  have h₀ : 0 < n.toNat := UInt64.lt_iff_toNat_lt.1 h
  rw [UInt64.toNat_sub_of_le _ _ (UInt64.le_iff_toNat_le.2 (by rw [UInt64.toNat_one]; omega)),
    UInt64.toNat_one]
  omega

/-- `(size_t)(num_leaves * load_factor)`: the leaf count, a power of two, scaled by the load
factor and truncated. Scaling by a power of two is exact in `double`, so the product is the
rational one. -/
def scaleByLoadFactor (numLeaves : UInt64) (loadFactor : ℚ) : UInt64 :=
  UInt64.ofNat ⌊(numLeaves.toNat : ℚ) * loadFactor⌋₊

/-- The `while (actual_size > available_bytes && num_levels > 0)` loop of
`oram_create_for_available_mem`: lower the tree by one level until the estimate fits. -/
def availableMemLoop (sz : SizeofTable) (availableBytes : UInt64) (loadFactor : ℚ)
    (stashOverflowSize numLevels numBlocks : UInt64) (actualSize : ℕ) : UInt64 × UInt64 × ℕ :=
  if _h : actualSize > availableBytes.toNat ∧ numLevels > 0 then
    let numLevels := numLevels - 1
    let numLeaves : UInt64 := 1 <<< (numLevels - 1)
    let numBlocks := scaleByLoadFactor numLeaves loadFactor
    availableMemLoop sz availableBytes loadFactor stashOverflowSize numLevels numBlocks
      (oramSizeBytes sz numLevels numBlocks stashOverflowSize)
  else (numLevels, numBlocks, actualSize)
termination_by numLevels.toNat
decreasing_by exact toNat_sub_one_lt _h.2

/-- `oram_create_for_available_mem(available_bytes, load_factor, stash_overflow_size)`: the
height and block count it passes to `_create`; `none` when one of its `CHECK`s aborts. -/
def oramCreateForAvailableMem (sz : SizeofTable) (availableBytes : UInt64) (loadFactor : ℚ)
    (stashOverflowSize : UInt64) : Option (UInt64 × UInt64) :=
  let numBuckets := availableBytes / ENCRYPTED_BUCKET_SIZE
  let numLevels := floorLog2 (numBuckets + 1)
  let numLeaves : UInt64 := 1 <<< (numLevels - 1)
  if 1 ≤ loadFactor ∧ loadFactor ≤ 3 then
    let numBlocks := scaleByLoadFactor numLeaves loadFactor
    let actualSize := oramSizeBytes sz numLevels numBlocks stashOverflowSize
    let (numLevels, numBlocks, actualSize) :=
      availableMemLoop sz availableBytes loadFactor stashOverflowSize numLevels numBlocks actualSize
    if numLevels > 0 ∧ actualSize ≤ availableBytes.toNat then some (numLevels, numBlocks)
    else none
  else none

/-! ## The estimate against the allocation -/

section Layout

variable (sz : SizeofTable) (s : UInt64)

theorem stashCreateAllocatedBytes_eq (pathLength overflowSize : ℕ) :
    stashCreateAllocatedBytes sz pathLength overflowSize = stashSizeBytes sz pathLength overflowSize :=
  rfl

theorem stashSizeBytes_mono {k j : ℕ} (h : k ≤ j) (overflowSize : ℕ) :
    stashSizeBytes sz k overflowSize ≤ stashSizeBytes sz j overflowSize := by
  have hblocks : overflowSize + BLOCKS_PER_BUCKET.toNat * k ≤ overflowSize + BLOCKS_PER_BUCKET.toNat * j :=
    Nat.add_le_add_left (Nat.mul_le_mul_left _ h) _
  simp only [stashSizeBytes]
  have := Nat.mul_le_mul_right sz.block hblocks
  omega

variable {sz s}

theorem numLevels_sub_one_toNat {L : UInt64} (hL : 1 ≤ L.toNat) : (L - 1).toNat = L.toNat - 1 := by
  rw [UInt64.toNat_sub_of_le _ _ (UInt64.le_iff_toNat_le.2 (by rw [UInt64.toNat_one]; exact hL)),
    UInt64.toNat_one]

/-- A tree of `1 ≤ L ≤ 63` levels has `2^(L-1)` leaves. -/
theorem numLeaves_toNat {L : UInt64} (hL : 1 ≤ L.toNat) (hL' : L.toNat ≤ 63) :
    ((1 : UInt64) <<< (L - 1)).toNat = 2 ^ (L.toNat - 1) := by
  rw [one_shiftLeft_toNat (by rw [numLevels_sub_one_toNat hL]; omega), numLevels_sub_one_toNat hL]

theorem bucketStoreCreateAllocatedBytes_eq {L : UInt64} (hL' : L.toNat ≤ 63) :
    bucketStoreCreateAllocatedBytes sz L = (2 ^ L.toNat - 1) * 4096 + sz.bucketStore := by
  have hpow := one_shiftLeft_toNat (k := L) (by omega)
  have hle : (1 : UInt64) ≤ 1 <<< L := by
    rw [UInt64.le_iff_toNat_le, hpow, UInt64.toNat_one]
    exact Nat.one_le_two_pow
  simp only [bucketStoreCreateAllocatedBytes, treePathNumNodes]
  rw [UInt64.toNat_sub_of_le _ _ hle, hpow, UInt64.toNat_one]
  rfl

/-- The path of a tree of `L` levels holds `L` values. -/
theorem treePathCreateAllocatedBytes_root {L : UInt64} (hL : 1 ≤ L.toNat) (hL' : L.toNat ≤ 63) :
    treePathCreateAllocatedBytes sz (bucketStoreRoot (bucketStoreCreate L)) =
      sz.treePath + 8 * L.toNat := by
  have hpow := Nat.one_le_two_pow (n := L.toNat - 1)
  have hbound : 2 ^ (L.toNat - 1) ≤ 2 ^ 62 := Nat.pow_le_pow_right (by norm_num) (by omega)
  have hroot : bucketStoreRoot (bucketStoreCreate L) = UInt64.ofNat (ancestorAt 0 (L.toNat - 1)) := by
    apply UInt64.toNat_inj.1
    have hle : (1 : UInt64) ≤ 1 <<< (L - 1) := by
      rw [UInt64.le_iff_toNat_le, numLeaves_toNat hL hL', UInt64.toNat_one]
      exact hpow
    simp only [bucketStoreRoot, bucketStoreCreate]
    rw [UInt64.toNat_sub_of_le _ _ hle, numLeaves_toNat hL hL', UInt64.toNat_one,
      UInt64.toNat_ofNat_of_lt' (show ancestorAt 0 (L.toNat - 1) < 2 ^ 64 by simp [ancestorAt]; omega)]
    simp [ancestorAt]
  have hlevel := @level_ancestorAt 0 (L.toNat - 1) (by omega)
    (by simp [ancestorAt]; omega)
  simp only [treePathCreateAllocatedBytes]
  rw [hroot, hlevel, ofNat_succ, UInt64.toNat_ofNat_of_lt' (show L.toNat - 1 + 1 < 2 ^ 64 by omega)]
  omega

/-- `oram_size_bytes` for a tree of `1 ≤ L ≤ 63` levels. -/
theorem oramSizeBytes_eq {L : UInt64} (hL : 1 ≤ L.toNat) (hL' : L.toNat ≤ 63) (N : UInt64) :
    oramSizeBytes sz L N s = sz.oram + (2 ^ L.toNat - 1) * 4096 + positionMapSizeBytes sz N s +
      stashSizeBytes sz L.toNat s.toNat + L.toNat * 8 := by
  have hleaves : 2 * 2 ^ (L.toNat - 1) = 2 ^ L.toNat := by
    rw [← Nat.pow_succ']
    congr 1
    omega
  rw [oramSizeBytes, numLeaves_toNat hL hL', hleaves]
  rfl

/-- What `_create` allocates for a tree of `1 ≤ L ≤ 63` levels that passes its `CHECK`. -/
theorem createAllocatedBytes_eq {L N : UInt64} (hL : 1 ≤ L.toNat) (hL' : L.toNat ≤ 63)
    (hcheck : 1 <<< (L - 1) ≤ N) :
    createAllocatedBytes sz L N s =
      (positionMapCreateAllocatedBytes sz N (1 <<< (L - 1)) s).map fun positionMap =>
        sz.oram + ((2 ^ L.toNat - 1) * 4096 + sz.bucketStore) + positionMap +
          stashSizeBytes sz L.toNat s.toNat + (sz.treePath + 8 * L.toNat) := by
  rw [createAllocatedBytes, if_pos hcheck]
  simp only [bucketStoreNumLeaves, bucketStoreNumLevels, bucketStoreCreate]
  rw [← bucketStoreCreate, treePathCreateAllocatedBytes_root hL hL',
    bucketStoreCreateAllocatedBytes_eq hL', stashCreateAllocatedBytes_eq]

theorem positionMapSizeBytes_of_le {N : UInt64} (h : ¬ N > SCAN_THRESHOLD) :
    positionMapSizeBytes sz N s = N.toNat * 8 + sz.positionMap := by
  rw [positionMapSizeBytes, dif_neg h]

theorem positionMapCreateAllocatedBytes_of_le {N : UInt64} (h : ¬ N > SCAN_THRESHOLD)
    (numPositions : UInt64) :
    positionMapCreateAllocatedBytes sz N numPositions s = some (sz.positionMap + N.toNat * 8) := by
  rw [positionMapCreateAllocatedBytes, dif_neg h]

theorem positionMapSizeBytes_of_gt {N : UInt64} (h : N > SCAN_THRESHOLD) :
    positionMapSizeBytes sz N s =
      oramSizeBytes sz (floorLog2 (N / BLOCK_DATA_SIZE_QWORDS + 1)) (N / BLOCK_DATA_SIZE_QWORDS + 1)
        s + sz.positionMap := by
  rw [positionMapSizeBytes, dif_pos h]

theorem positionMapCreateAllocatedBytes_of_gt {N numPositions : UInt64} (h : N > SCAN_THRESHOLD)
    (hpos : numPositions ≤ N) :
    positionMapCreateAllocatedBytes sz N numPositions s =
      (oramCreateAllocatedBytes sz N s).map fun oram =>
        sz.positionMap + oram + BLOCK_DATA_SIZE_QWORDS.toNat * 8 := by
  rw [positionMapCreateAllocatedBytes, dif_pos h, if_pos hpos]

/-- Exponents with `4 ≤ 2^k ≤ 2^j + 1` have `k ≤ j`. -/
theorem le_of_two_pow_le_succ {k j : ℕ} (hk : 2 ≤ k) (h : 2 ^ k ≤ 2 ^ j + 1) : k ≤ j := by
  by_contra hlt
  have h1 : 2 ^ (j + 1) ≤ 2 ^ k := Nat.pow_le_pow_right (by norm_num) (by omega)
  have h2 : 2 ^ 2 ≤ 2 ^ k := Nat.pow_le_pow_right (by norm_num) hk
  rw [Nat.pow_succ] at h1
  omega

/-- **The recursive position map outgrows its estimate.** Past `SCAN_THRESHOLD` blocks (and
below `168 * 2^14`, where the inner position map is a scan map), `position_map_create` builds an
ORAM of `⌈N / 168⌉` blocks and `ceil_log2` of that many levels, while `position_map_size_bytes`
counts `N / 168 + 1` blocks and `floor_log2` levels: what is allocated exceeds the estimate by
more than the buckets the taller tree adds. -/
theorem positionMapSizeBytes_add_lt_allocated {N numPositions : UInt64}
    (hT : N > SCAN_THRESHOLD) (hN : N.toNat < 168 * 2 ^ 14) (hpos : numPositions ≤ N) :
    ∃ b, positionMapCreateAllocatedBytes sz N numPositions s = some b ∧
      positionMapSizeBytes sz N s + (2 ^ (ceilLog2 (oramCreateNumBlocks N)).toNat -
        2 ^ (floorLog2 (N / BLOCK_DATA_SIZE_QWORDS + 1)).toNat) * ENCRYPTED_BUCKET_SIZE.toNat < b := by
  have hn : 2 ^ 14 < N.toNat := by
    rw [gt_iff_lt, UInt64.lt_iff_toNat_lt, SCAN_THRESHOLD_toNat] at hT
    exact hT
  have hm := oramCreateNumBlocks_toNat N
  have he := blocksNeeded_toNat N
  obtain ⟨hj1, hjlo, hjhi⟩ := ceilLog2_spec (n := oramCreateNumBlocks N) (by omega)
  obtain ⟨hklo, hkhi⟩ := floorLog2_spec (n := N / BLOCK_DATA_SIZE_QWORDS + 1) (by omega)
  have hk2 : 2 ≤ (floorLog2 (N / BLOCK_DATA_SIZE_QWORDS + 1)).toNat := by
    by_contra hlt
    have : 2 ^ ((floorLog2 (N / BLOCK_DATA_SIZE_QWORDS + 1)).toNat + 1) ≤ 2 ^ 2 :=
      Nat.pow_le_pow_right (by norm_num) (by omega)
    omega
  have hk14 : (floorLog2 (N / BLOCK_DATA_SIZE_QWORDS + 1)).toNat ≤ 14 := by
    by_contra hlt
    have : 2 ^ 15 ≤ 2 ^ (floorLog2 (N / BLOCK_DATA_SIZE_QWORDS + 1)).toNat :=
      Nat.pow_le_pow_right (by norm_num) (by omega)
    omega
  have hj14 : (ceilLog2 (oramCreateNumBlocks N)).toNat ≤ 14 := by
    by_contra hlt
    have : 2 ^ 14 ≤ 2 ^ ((ceilLog2 (oramCreateNumBlocks N)).toNat - 1) :=
      Nat.pow_le_pow_right (by norm_num) (by omega)
    omega
  have hkj := le_of_two_pow_le_succ hk2 (j := (ceilLog2 (oramCreateNumBlocks N)).toNat) (by omega)
  have hpow := Nat.pow_le_pow_right (n := 2) (by norm_num) hkj
  -- the inner ORAM passes its check, and both inner position maps are scan maps
  have hcheck : 1 <<< (ceilLog2 (oramCreateNumBlocks N) - 1) ≤ oramCreateNumBlocks N := by
    rw [UInt64.le_iff_toNat_le, numLeaves_toNat hj1 (by omega)]
    omega
  have hscan : ¬ oramCreateNumBlocks N > SCAN_THRESHOLD := by
    rw [gt_iff_lt, UInt64.lt_iff_toNat_lt, SCAN_THRESHOLD_toNat]
    omega
  have hscan' : ¬ N / BLOCK_DATA_SIZE_QWORDS + 1 > SCAN_THRESHOLD := by
    rw [gt_iff_lt, UInt64.lt_iff_toNat_lt, SCAN_THRESHOLD_toNat]
    omega
  have hinner : oramCreateAllocatedBytes sz N s =
      some (sz.oram + ((2 ^ (ceilLog2 (oramCreateNumBlocks N)).toNat - 1) * 4096 + sz.bucketStore) +
        (sz.positionMap + (oramCreateNumBlocks N).toNat * 8) +
        stashSizeBytes sz (ceilLog2 (oramCreateNumBlocks N)).toNat s.toNat +
        (sz.treePath + 8 * (ceilLog2 (oramCreateNumBlocks N)).toNat)) := by
    rw [oramCreateAllocatedBytes, createAllocatedBytes_eq hj1 (by omega) hcheck,
      positionMapCreateAllocatedBytes_of_le hscan]
    rfl
  refine ⟨_, by rw [positionMapCreateAllocatedBytes_of_gt hT hpos, hinner]; rfl, ?_⟩
  rw [positionMapSizeBytes_of_gt hT, oramSizeBytes_eq (by omega) (by omega),
    positionMapSizeBytes_of_le hscan', BLOCK_DATA_SIZE_QWORDS_toNat, ENCRYPTED_BUCKET_SIZE_toNat]
  have hstash := stashSizeBytes_mono sz hkj s.toNat
  have hk1 := Nat.one_le_two_pow (n := (floorLog2 (N / BLOCK_DATA_SIZE_QWORDS + 1)).toNat)
  beta_reduce
  generalize 2 ^ (ceilLog2 (oramCreateNumBlocks N)).toNat = P at hpow ⊢
  generalize 2 ^ (floorLog2 (N / BLOCK_DATA_SIZE_QWORDS + 1)).toNat = Q at hpow hk1 ⊢
  omega

/-- **`oram_size_bytes` undercounts `_create`.** For every tree of `1 ≤ L ≤ 63` levels over
fewer than `168 * 2^14` blocks that passes `_create`'s `CHECK`, the estimate is below what
`_create` allocates: it leaves out the headers of the bucket store and of the path and, past
`SCAN_THRESHOLD` blocks, the position map's access buffer and the taller tree of its ORAM. -/
theorem oramSizeBytes_lt_createAllocatedBytes {L N : UInt64} (hL : 1 ≤ L.toNat)
    (hL' : L.toNat ≤ 63) (hcheck : 1 <<< (L - 1) ≤ N) (hN : N.toNat < 168 * 2 ^ 14) :
    ∃ b, createAllocatedBytes sz L N s = some b ∧ oramSizeBytes sz L N s < b := by
  obtain ⟨pm, hpm, hle⟩ : ∃ pm, positionMapCreateAllocatedBytes sz N (1 <<< (L - 1)) s = some pm ∧
      positionMapSizeBytes sz N s ≤ pm := by
    by_cases hT : N > SCAN_THRESHOLD
    · obtain ⟨b, hb, hlt⟩ := @positionMapSizeBytes_add_lt_allocated sz s _ _ hT hN hcheck
      exact ⟨b, hb, by omega⟩
    · refine ⟨_, positionMapCreateAllocatedBytes_of_le hT _, ?_⟩
      rw [positionMapSizeBytes_of_le hT]
      omega
  refine ⟨_, by rw [createAllocatedBytes_eq hL hL' hcheck, hpm]; rfl, ?_⟩
  rw [oramSizeBytes_eq hL hL']
  have := sz.bucketStore_pos
  beta_reduce
  omega

/-- `oram_create_for_available_mem` for a load factor its `CHECK` accepts, from the first tree it
tries and the result of its loop. -/
theorem oramCreateForAvailableMem_of_loop {availableBytes : UInt64} {loadFactor : ℚ}
    (hlf : 1 ≤ loadFactor ∧ loadFactor ≤ 3) {L₀ N₀ L N : UInt64} {actualSize : ℕ}
    (hL₀ : floorLog2 (availableBytes / ENCRYPTED_BUCKET_SIZE + 1) = L₀)
    (hN₀ : scaleByLoadFactor (1 <<< (L₀ - 1)) loadFactor = N₀)
    (hloop : availableMemLoop sz availableBytes loadFactor s L₀ N₀ (oramSizeBytes sz L₀ N₀ s) =
      (L, N, actualSize)) :
    oramCreateForAvailableMem sz availableBytes loadFactor s =
      if L > 0 ∧ actualSize ≤ availableBytes.toNat then some (L, N) else none := by
  unfold oramCreateForAvailableMem
  rw [if_pos hlf]
  simp only [hL₀, hN₀, hloop]

end Layout

/-- **`oram_create_for_available_mem` allocates more than it is given.** With `available_bytes`
exactly `oram_size_bytes(16, 2^15, s)` and load factor `1.0` it settles on 16 levels and `2^15`
blocks, whose estimate fits exactly; `_create` then builds the position map as an ORAM of `196`
blocks and `ceil_log2(196) = 8` levels where the estimate counted `floor_log2(196) = 7`, and
allocates more than `128` buckets beyond the available bytes. The sizes of the structures and
the stash are any that keep the estimate in range. -/
theorem oramCreateForAvailableMem_overcommits (sz : SizeofTable) (s : UInt64)
    (hsz : sz.oram ≤ 2 ^ 16 ∧ sz.positionMap ≤ 2 ^ 16 ∧ sz.stash ≤ 2 ^ 16 ∧ sz.block ≤ 2 ^ 16)
    (hs : s.toNat ≤ 2 ^ 10) :
    let availableBytes := UInt64.ofNat (oramSizeBytes sz 16 32768 s)
    oramCreateForAvailableMem sz availableBytes 1 s = some (16, 32768) ∧
      ∃ b, createAllocatedBytes sz 16 32768 s = some b ∧
        availableBytes.toNat + 128 * ENCRYPTED_BUCKET_SIZE.toNat < b := by
  intro availableBytes
  obtain ⟨hO, hP, hS, hB⟩ := hsz
  have hT : (32768 : UInt64) > SCAN_THRESHOLD := by decide
  have hcheck : (1 : UInt64) <<< (16 - 1) ≤ 32768 := by decide
  -- the estimate, in closed form and in range
  have hstash : ∀ k, stashSizeBytes sz k s.toNat =
      sz.stash + (s.toNat + 3 * k) * sz.block + k * 8 + (s.toNat + 3 * k) * 8 := fun k => rfl
  have h7 : (s.toNat + 3 * 7) * sz.block ≤ 1072 * 2 ^ 16 := Nat.mul_le_mul (by omega) hB
  have h16 : (s.toNat + 3 * 16) * sz.block ≤ 1072 * 2 ^ 16 := Nat.mul_le_mul (by omega) hB
  have hE : oramSizeBytes sz 16 32768 s = sz.oram + 65535 * 4096 +
      (sz.oram + 127 * 4096 + (196 * 8 + sz.positionMap) + stashSizeBytes sz 7 s.toNat + 7 * 8 +
        sz.positionMap) + stashSizeBytes sz 16 s.toNat + 16 * 8 := by
    have h196 : (32768 : UInt64) / BLOCK_DATA_SIZE_QWORDS + 1 = 196 := by decide
    have hlog : floorLog2 196 = 7 := by decide
    have hscan : ¬ (196 : UInt64) > SCAN_THRESHOLD := by decide
    rw [oramSizeBytes_eq (by decide) (by decide), positionMapSizeBytes_of_gt hT, h196, hlog,
      oramSizeBytes_eq (by decide) (by decide), positionMapSizeBytes_of_le hscan]
    rfl
  have havail : availableBytes.toNat = oramSizeBytes sz 16 32768 s := by
    apply UInt64.toNat_ofNat_of_lt'
    rw [show UInt64.size = 2 ^ 64 from rfl, hE, hstash, hstash]
    omega
  -- sixteen levels: the available bytes hold between `2^16 - 1` and `2^17 - 1` buckets
  have hlevels : floorLog2 (availableBytes / ENCRYPTED_BUCKET_SIZE + 1) = 16 := by
    have hbuckets : (availableBytes / ENCRYPTED_BUCKET_SIZE + 1).toNat =
        oramSizeBytes sz 16 32768 s / 4096 + 1 := by
      rw [UInt64.toNat_add, UInt64.toNat_div, havail, ENCRYPTED_BUCKET_SIZE_toNat, UInt64.toNat_one]
      rw [hE, hstash, hstash]
      omega
    apply UInt64.toNat_inj.1
    rw [floorLog2_toNat, hbuckets, log2_eq_of_le_of_lt (c := 16)]
    · rfl
    · rw [hE, hstash, hstash]
      omega
    · rw [hE, hstash, hstash]
      omega
  have hloop : availableMemLoop sz availableBytes 1 s 16 32768 (oramSizeBytes sz 16 32768 s) =
      (16, 32768, oramSizeBytes sz 16 32768 s) := by
    rw [availableMemLoop, dif_neg (by rw [havail]; omega)]
  refine ⟨?_, ?_⟩
  · have hN₀ : scaleByLoadFactor ((1 : UInt64) <<< (16 - 1)) 1 = 32768 := by
      rw [show (1 : UInt64) <<< (16 - 1) = 32768 by decide]
      simp [scaleByLoadFactor]
    rw [oramCreateForAvailableMem_of_loop ⟨by norm_num, by norm_num⟩ hlevels hN₀ hloop,
      if_pos ⟨by decide, by rw [havail]⟩]
  · obtain ⟨b, hb, hlt⟩ := @positionMapSizeBytes_add_lt_allocated sz s _ _ hT
      (by decide) hcheck
    have hj : (ceilLog2 (oramCreateNumBlocks 32768)).toNat = 8 := by decide
    have hk : (floorLog2 ((32768 : UInt64) / BLOCK_DATA_SIZE_QWORDS + 1)).toNat = 7 := by decide
    rw [hj, hk, ENCRYPTED_BUCKET_SIZE_toNat] at hlt
    refine ⟨_, by rw [createAllocatedBytes_eq (by decide) (by decide) hcheck, hb]; rfl, ?_⟩
    rw [havail, oramSizeBytes_eq (by decide) (by decide), ENCRYPTED_BUCKET_SIZE_toNat]
    have := sz.bucketStore_pos
    beta_reduce
    omega

/-- The sizes on x86-64: `oram` takes 144 bytes (seven words, the ten words of `oram_statistics`
and the entropy function), `bucket_store` 24, `position_map` 48 (its type, its count and the
larger member of its union), `stash` 64, `block` 1360 (two words and `BLOCK_DATA_SIZE_QWORDS`
data words) and `tree_path` 8 (its length before the flexible array). -/
def lp64SizeofTable : SizeofTable := ⟨144, 24, 48, 64, 1360, 8, by decide⟩

theorem oramSizeBytes_lt_createAllocatedBytes_lp64 :
    ∃ b, createAllocatedBytes lp64SizeofTable 2 2 0 = some b ∧
      oramSizeBytes lp64SizeofTable 2 2 0 < b :=
  oramSizeBytes_lt_createAllocatedBytes (by decide) (by decide) (by decide) (by decide)

theorem oramCreateForAvailableMem_overcommits_lp64 :
    (lp64SizeofTable.oram ≤ 2 ^ 16 ∧ lp64SizeofTable.positionMap ≤ 2 ^ 16 ∧
      lp64SizeofTable.stash ≤ 2 ^ 16 ∧ lp64SizeofTable.block ≤ 2 ^ 16) ∧
    (100 : UInt64).toNat ≤ 2 ^ 10 ∧
    (let availableBytes := UInt64.ofNat (oramSizeBytes lp64SizeofTable 16 32768 100);
      oramCreateForAvailableMem lp64SizeofTable availableBytes 1 100 = some (16, 32768) ∧
        ∃ b, createAllocatedBytes lp64SizeofTable 16 32768 100 = some b ∧
          availableBytes.toNat + 128 * ENCRYPTED_BUCKET_SIZE.toNat < b) :=
  ⟨by decide, by decide,
    oramCreateForAvailableMem_overcommits lp64SizeofTable 100 (by decide) (by decide)⟩

/-! ## The hash table's share -/

end ContactDiscovery
