import Mathlib
import ContactDiscovery.PathOram.Access
import ContactDiscovery.Lib.Keyed
import ContactDiscovery.Lib.Buckets

/-!
# The Path ORAM's invariant, and one access against it (`path_oram/path_oram.c`)

Between accesses the ORAM keeps its blocks in the bucket store and in the overflow stash; the
path stash only holds copies of what the last access wrote back. `oramLiveBlocks` lists the
non-empty ones, and `oramBlockData` reads a block's words from them (`oramBlockData_eq_find`).

`OramInv` is what every access keeps: the heights agree; the live blocks have distinct allocated
ids, are at twice their position map entry and hold `BLOCK_DATA_SIZE_QWORDS` words; and every
block of the bucket store lies in a bucket on the path of its leaf.

An access reads the path of the block's leaf (`accessPath`: the leaf's ancestors). The path
splits the live blocks into those off it, which stay where they are, and those the read sees
(`oramLiveBlocks_perm_split`). No block off the path has the accessed id (`offPath_id_ne`), and
the blocks of the path fit the levels they are read at (`pathSource_valid`), as the rebuild
needs.

Principal result: `oramAccess_refines` — an access of an allocated block whose accessor returns
`BLOCK_DATA_SIZE_QWORDS` words does not abort, keeps the invariant (with the overflow within a
bound `B` of at least `capacity + 19`), and replaces that block's words and no other's.
-/

set_option autoImplicit false

namespace ContactDiscovery

/-! ## The blocks the ORAM holds -/

/-- The blocks the ORAM holds between accesses: the non-empty blocks of the bucket store's
`3 * (2^numLevels - 1)` slots and of the overflow stash, the places `oramBlockData` reads. -/
def oramLiveBlocks (o : Oram) : List Block :=
  nonEmptyBlocks ((List.range (BLOCKS_PER_BUCKET.toNat * (treePathNumNodes o.numLevels).toNat)).map
      o.bucketStore.blocks ++
    (List.range o.stash.overflowCapacity).map fun i => o.stash.blocks (o.stash.overflowIndex i))

/-- **`oramBlockData` reads the live blocks**: the words of a block id other than
`EMPTY_BLOCK_ID` are those of the live block with that id, the first one the search meets. -/
theorem oramBlockData_eq_find (o : Oram) {c : UInt64} (hc : c ≠ EMPTY_BLOCK_ID) :
    oramBlockData o c =
      (((oramLiveBlocks o).find? fun X => X.id == c).map Block.data).getD Block.empty.data := by
  unfold oramLiveBlocks nonEmptyBlocks
  rw [Keyed.find?_key_filter Block.id _ _ fun X hX => by simp [hX, hc], List.find?_append,
    List.find?_map, List.find?_map]
  simp only [Function.comp_def]
  unfold oramBlockData
  dsimp only
  -- the store is searched first, then the overflow
  cases h₁ : (List.range (BLOCKS_PER_BUCKET.toNat * (treePathNumNodes o.numLevels).toNat)).find?
      (fun k => (o.bucketStore.blocks k).id == c) with
  | some k => simp only [Option.map_some, Option.some_or, Option.getD_some]
  | none =>
    cases h₂ : (List.range o.stash.overflowCapacity).find?
        (fun i => (o.stash.blocks (o.stash.overflowIndex i)).id == c) with
    | some i => simp only [Option.map_some, Option.map_none, Option.none_or, Option.getD_some]
    | none => simp only [Option.map_none, Option.none_or, Option.getD_none]

/-! ## The invariant -/

/-- What holds of the ORAM between accesses, for a bound `B` on the overflow stash: the heights
of the tree, the path and the stash agree; the position map holds a leaf for every block; the
live blocks have distinct allocated ids, sit at twice their position map entry and hold
`BLOCK_DATA_SIZE_QWORDS` words; and a block of the bucket store lies in a bucket on the path of
its leaf. -/
structure OramInv (B : ℕ) (o : Oram) : Prop where
  levels_pos : 1 ≤ o.stash.pathLength
  levels_le : o.stash.pathLength ≤ 62
  numLevels_toNat : o.numLevels.toNat = o.stash.pathLength
  store_numLevels : o.bucketStore.numLevels = o.numLevels
  path_length : o.path.length.toNat = o.stash.pathLength
  stash_wf : o.stash.WellFormed
  overflow_le : o.stash.overflowCapacity ≤ B
  map_size : o.positionMap.size = o.capacityBlocks
  map_lt : ∀ i < o.capacityBlocks.toNat,
    (o.positionMap.data i).toNat < 2 ^ (o.stash.pathLength - 1)
  allocated_le : o.allocatedUb ≤ o.capacityBlocks
  ids_nodup : ((oramLiveBlocks o).map Block.id).Nodup
  id_lt : ∀ X ∈ oramLiveBlocks o, X.id < o.allocatedUb
  position_eq : ∀ X ∈ oramLiveBlocks o, X.position = o.positionMap.data X.id.toNat * 2
  data_length : ∀ X ∈ oramLiveBlocks o, X.data.length = BLOCK_DATA_SIZE_QWORDS.toNat
  placed : ∀ k < 3 * (treePathNumNodes o.numLevels).toNat,
    (o.bucketStore.blocks k).id ≠ EMPTY_BLOCK_ID →
      ∃ ℓ < o.stash.pathLength, k / 3 = ancestorAt (o.bucketStore.blocks k).position.toNat ℓ

namespace OramInv

variable {B : ℕ} {o : Oram} (hinv : OramInv B o)
include hinv

theorem numLevels_eq : o.numLevels = UInt64.ofNat o.stash.pathLength := by
  rw [← hinv.numLevels_toNat, UInt64.ofNat_toNat]

/-- The tree has `2^L - 1` buckets. -/
theorem numNodes_toNat :
    (treePathNumNodes o.numLevels).toNat = 2 ^ o.stash.pathLength - 1 := by
  have hL := hinv.levels_le
  have hpow : 2 ^ o.stash.pathLength - 1 < 2 ^ 64 := by
    have : 2 ^ o.stash.pathLength ≤ 2 ^ 62 := Nat.pow_le_pow_right (by norm_num) hL
    omega
  rw [treePathNumNodes, hinv.numLevels_eq, one_shiftLeft_ofNat (by omega),
    ofNat_two_pow_sub_one (by omega), UInt64.toNat_ofNat_of_lt' hpow]

/-- The tree has `2^(L-1)` leaves. -/
theorem numLeaves_eq :
    bucketStoreNumLeaves o.bucketStore = UInt64.ofNat (2 ^ (o.stash.pathLength - 1)) := by
  have hL := hinv.levels_le
  have hsub : o.numLevels - 1 = UInt64.ofNat (o.stash.pathLength - 1) := by
    apply UInt64.toNat_inj.1
    rw [UInt64.toNat_sub_of_le _ _ (UInt64.le_iff_toNat_le.2 (by
        rw [UInt64.toNat_one, hinv.numLevels_toNat]; exact hinv.levels_pos)),
      UInt64.toNat_one, hinv.numLevels_toNat,
      UInt64.toNat_ofNat_of_lt' (show o.stash.pathLength - 1 < 2 ^ 64 by omega)]
  rw [bucketStoreNumLeaves, hinv.store_numLevels, hsub, one_shiftLeft_ofNat (by omega)]

/-- A block handed out has an entry in the position map. -/
theorem lt_map_size {c : UInt64} (hc : c < o.allocatedUb) : c < o.positionMap.size := by
  rw [hinv.map_size, UInt64.lt_iff_toNat_lt]
  exact lt_of_lt_of_le (UInt64.lt_iff_toNat_lt.1 hc) (UInt64.le_iff_toNat_le.1 hinv.allocated_le)

/-- A block's entry in the position map is a leaf: below `2^(L-1)`. -/
theorem entry_lt {c : UInt64} (hc : c < o.allocatedUb) :
    (o.positionMap.data c.toNat).toNat < 2 ^ (o.stash.pathLength - 1) := by
  have h₁ := UInt64.lt_iff_toNat_lt.1 hc
  have h₂ := UInt64.le_iff_toNat_le.1 hinv.allocated_le
  exact hinv.map_lt _ (by omega)

/-- Twice an entry is the number of the leaf, an even node of the tree. -/
theorem leaf_toNat {c : UInt64} (hc : c < o.allocatedUb) :
    (o.positionMap.data c.toNat * 2).toNat = 2 * (o.positionMap.data c.toNat).toNat := by
  have hlt := hinv.entry_lt hc
  have hpow : 2 ^ (o.stash.pathLength - 1) ≤ 2 ^ 61 :=
    Nat.pow_le_pow_right (by norm_num) (by have := hinv.levels_le; omega)
  rw [UInt64.toNat_mul, UInt64.toNat_ofNat, Nat.mod_eq_of_lt (show 2 < 2 ^ 64 by norm_num),
    Nat.mod_eq_of_lt (by omega), Nat.mul_comm]

/-- The block's leaf lies below `2^L`. -/
theorem twice_entry_lt {c : UInt64} (hc : c < o.allocatedUb) :
    2 * (o.positionMap.data c.toNat).toNat < 2 ^ o.stash.pathLength := by
  have hlt := hinv.entry_lt hc
  have hpow : 2 ^ o.stash.pathLength = 2 * 2 ^ (o.stash.pathLength - 1) := by
    rw [← Nat.pow_succ']
    congr 1
    have := hinv.levels_pos
    omega
  omega

/-- A live block's position is even: it is a leaf. -/
theorem position_even {X : Block} (hX : X ∈ oramLiveBlocks o) : X.position.toNat % 2 = 0 := by
  rw [hinv.position_eq X hX, hinv.leaf_toNat (hinv.id_lt X hX)]
  omega

end OramInv

/-! ## The path of an access -/

/-- The path `oram_access` reads for block `b`: at every level, the ancestor of the leaf twice
the block's position map entry; `tree_path_update` leaves the rest of the values. -/
def accessPath (o : Oram) (b : UInt64) : TreePath :=
  ⟨o.path.length, fun j => if j < o.path.length.toNat then
    UInt64.ofNat (ancestorAt (o.positionMap.data b.toNat * 2).toNat j) else o.path.values j⟩

section AccessPath

variable {B : ℕ} {o : Oram} (hinv : OramInv B o) {b : UInt64} (hb : b < o.allocatedUb)
include hinv hb

theorem treePathUpdate_access :
    treePathUpdate o.path (o.positionMap.data b.toNat * 2) = some (accessPath o b) := by
  have hlt := hinv.entry_lt hb
  have hleaf := hinv.leaf_toNat hb
  have hL := hinv.path_length
  refine treePathUpdate_eq_ancestors o.path _ (by have := hinv.levels_pos; omega)
    (by have := hinv.levels_le; omega) (by omega) ?_
  rw [hleaf, hL]
  omega

/-- The path's bucket at level `ℓ` is the ancestor at that level of the block's leaf. -/
theorem accessPath_values {ℓ : ℕ} (hℓ : ℓ < o.stash.pathLength) :
    (accessPath o b).values ℓ = UInt64.ofNat (ancestorAt (2 * (o.positionMap.data b.toNat).toNat) ℓ) := by
  simp only [accessPath]
  rw [if_pos (by rw [hinv.path_length]; exact hℓ), hinv.leaf_toNat hb]

theorem accessPath_toNat {ℓ : ℕ} (hℓ : ℓ < o.stash.pathLength) :
    ((accessPath o b).values ℓ).toNat =
      ancestorAt (2 * (o.positionMap.data b.toNat).toNat) ℓ := by
  have hanc := ancestorAt_lt (hinv.twice_entry_lt hb) hℓ
  have hpow : 2 ^ o.stash.pathLength ≤ 2 ^ 62 := Nat.pow_le_pow_right (by norm_num) hinv.levels_le
  rw [accessPath_values hinv hb hℓ, UInt64.toNat_ofNat_of_lt' (show _ < 2 ^ 64 by omega)]

/-- The path's buckets are buckets of the tree, one at each level. -/
theorem accessPath_bucket {ℓ : ℕ} (hℓ : ℓ < o.stash.pathLength) :
    (treePathLevel ((accessPath o b).values ℓ)).toNat = ℓ ∧
      (accessPath o b).values ℓ < treePathNumNodes o.bucketStore.numLevels := by
  have hanc := ancestorAt_lt (hinv.twice_entry_lt hb) hℓ
  have hpow : 2 ^ o.stash.pathLength ≤ 2 ^ 62 := Nat.pow_le_pow_right (by norm_num) hinv.levels_le
  have hL := hinv.levels_le
  refine ⟨?_, ?_⟩
  · rw [accessPath_values hinv hb hℓ, treePathLevel, level_ancestorAt (by omega) (by omega),
      UInt64.toNat_ofNat_of_lt' (show _ < 2 ^ 64 by omega)]
  · rw [UInt64.lt_iff_toNat_lt, accessPath_toNat hinv hb hℓ, hinv.store_numLevels,
      hinv.numNodes_toNat]
    exact hanc

theorem accessPath_inj {ℓ ℓ' : ℕ} (hℓ : ℓ < o.stash.pathLength) (hℓ' : ℓ' < o.stash.pathLength)
    (h : ((accessPath o b).values ℓ).toNat = ((accessPath o b).values ℓ').toNat) : ℓ = ℓ' := by
  rw [accessPath_toNat hinv hb hℓ, accessPath_toNat hinv hb hℓ'] at h
  exact ancestorAt_level_inj h

end AccessPath

/-! ## Buckets that fit a block -/

/-- A block fits the bucket at level `ℓ` of a path when that bucket is the ancestor of its leaf. -/
theorem blockValidAt_of_ancestorAt {path : TreePath} {ℓ : ℕ} {X : Block} (hℓ : ℓ < 62)
    (heven : X.position.toNat % 2 = 0) (hanc : ancestorAt X.position.toNat ℓ < 2 ^ 62)
    (hv : (path.values ℓ).toNat = ancestorAt X.position.toNat ℓ) : BlockValidAt path ℓ X := by
  have hpow : 2 ^ ℓ ≤ 2 ^ 62 := Nat.pow_le_pow_right (by norm_num) hℓ.le
  have hval : path.values ℓ = UInt64.ofNat (ancestorAt X.position.toNat ℓ) := by
    rw [← hv, UInt64.ofNat_toNat]
  refine ⟨?_, ?_⟩
  · rw [UInt64.le_iff_toNat_le, hval, treePathLowerBound_ancestorAt (by omega) (by omega)]
    exact ancestorAt_sub_le _ _
  · rw [UInt64.le_iff_toNat_le, hval, treePathUpperBound_ancestorAt (by omega) (by omega)]
    exact le_ancestorAt_add _ heven

/-- A block that fits the bucket at level `ℓ` of a path has that bucket as its ancestor. -/
theorem ancestorAt_of_blockValidAt {path : TreePath} {ℓ leaf : ℕ} {X : Block} (hℓ : ℓ < 62)
    (hv : (path.values ℓ).toNat = ancestorAt leaf ℓ) (hanc : ancestorAt leaf ℓ < 2 ^ 62)
    (h : BlockValidAt path ℓ X) : ancestorAt X.position.toNat ℓ = ancestorAt leaf ℓ := by
  have hpow : 2 ^ ℓ ≤ 2 ^ 62 := Nat.pow_le_pow_right (by norm_num) hℓ.le
  have hval : path.values ℓ = UInt64.ofNat (ancestorAt leaf ℓ) := by rw [← hv, UInt64.ofNat_toNat]
  obtain ⟨hlo, hhi⟩ := h
  rw [UInt64.le_iff_toNat_le, hval, treePathLowerBound_ancestorAt (by omega) (by omega)] at hlo
  rw [UInt64.le_iff_toNat_le, hval, treePathUpperBound_ancestorAt (by omega) (by omega)] at hhi
  exact ancestorAt_eq_of_bounds hlo hhi

/-! ## A path splits the live blocks -/

/-- The store's blocks off the path: the slots of the buckets that no level of the path names. -/
def offPathBlocks (o : Oram) (path : TreePath) : List Block :=
  ((List.range (3 * (treePathNumNodes o.numLevels).toNat)).filter fun k =>
    !decide (Buckets.OnPath 3 (fun ℓ => (path.values ℓ).toNat) o.stash.pathLength k)).map
    o.bucketStore.blocks

/-- What reading a path sees: the path's buckets, level by level, then the overflow. -/
def pathReads (o : Oram) (path : TreePath) : List Block :=
  (List.range (3 * o.stash.pathLength + o.stash.overflowCapacity)).map (pathSource o path)

/-- **The live blocks are those off the path and those the path's read sees**, for a path of
distinct buckets of the tree. -/
theorem oramLiveBlocks_perm_split (o : Oram) (path : TreePath)
    (hN : ∀ ℓ < o.stash.pathLength, (path.values ℓ).toNat < (treePathNumNodes o.numLevels).toNat)
    (hinj : ∀ ℓ < o.stash.pathLength, ∀ ℓ' < o.stash.pathLength,
      (path.values ℓ).toNat = (path.values ℓ').toNat → ℓ = ℓ') :
    (oramLiveBlocks o).Perm
      (nonEmptyBlocks (offPathBlocks o path) ++ nonEmptyBlocks (pathReads o path)) := by
  have hrange := Buckets.range_perm_offPath_append_pathSlots (w := 3) (by norm_num) hN hinj
  have hslots := Buckets.map_pathSlots (w := 3) (g := fun ℓ => (path.values ℓ).toNat)
    (L := o.stash.pathLength) o.bucketStore.blocks (pathSource o path)
    fun j hj => by rw [pathSource, if_pos hj]
  -- past the path, the read sees the overflow
  have hovf : pathReads o path = (List.range (3 * o.stash.pathLength)).map (pathSource o path) ++
      (List.range o.stash.overflowCapacity).map fun i => o.stash.blocks (o.stash.overflowIndex i) := by
    rw [pathReads, List.range_add, List.map_append, List.map_map]
    congr 1
    refine List.map_congr_left fun i _ => ?_
    simp only [Function.comp_apply, pathSource, Stash.overflowIndex, BLOCKS_PER_BUCKET_toNat]
    rw [if_neg (by omega)]
  unfold oramLiveBlocks offPathBlocks nonEmptyBlocks
  rw [← List.filter_append, hovf, BLOCKS_PER_BUCKET_toNat, ← List.append_assoc, ← hslots,
    ← List.map_append]
  exact ((hrange.map _).append_right _).filter _

/-- A non-empty store slot below the tree's size holds a live block. -/
theorem mem_oramLiveBlocks_of_store {o : Oram} {k : ℕ}
    (hk : k < 3 * (treePathNumNodes o.numLevels).toNat)
    (hne : (o.bucketStore.blocks k).id ≠ EMPTY_BLOCK_ID) : o.bucketStore.blocks k ∈ oramLiveBlocks o := by
  unfold oramLiveBlocks nonEmptyBlocks
  rw [List.mem_filter, List.mem_append, BLOCKS_PER_BUCKET_toNat]
  exact ⟨.inl (List.mem_map.2 ⟨k, List.mem_range.2 hk, rfl⟩), by simpa using hne⟩

section Access

variable {B : ℕ} {o : Oram} (hinv : OramInv B o) {b : UInt64} (hb : b < o.allocatedUb)
include hinv hb

/-- The live blocks split at the path of an access. -/
theorem live_perm_access :
    (oramLiveBlocks o).Perm (nonEmptyBlocks (offPathBlocks o (accessPath o b)) ++
      nonEmptyBlocks (pathReads o (accessPath o b))) := by
  refine oramLiveBlocks_perm_split o _ (fun ℓ hℓ => ?_) fun ℓ hℓ ℓ' hℓ' h =>
    accessPath_inj hinv hb hℓ hℓ' h
  have := UInt64.lt_iff_toNat_lt.1 (accessPath_bucket hinv hb hℓ).2
  rwa [hinv.store_numLevels] at this

/-- The read of an access sees each id once at most. -/
theorem pathReads_ids_nodup :
    ((nonEmptyBlocks (pathReads o (accessPath o b))).map Block.id).Nodup := by
  have h := ((live_perm_access hinv hb).map Block.id).nodup_iff.1 hinv.ids_nodup
  rw [List.map_append] at h
  exact h.of_append_right

theorem pathSource_id_unique (hb' : b ≠ EMPTY_BLOCK_ID) :
    ∀ k < 3 * o.stash.pathLength + o.stash.overflowCapacity,
      ∀ k' < 3 * o.stash.pathLength + o.stash.overflowCapacity,
      (pathSource o (accessPath o b) k).id = b → (pathSource o (accessPath o b) k').id = b →
        k = k' := fun k hk k' hk' hid hid' =>
  Keyed.index_unique_of_nodup (fun X : Block => X.id != EMPTY_BLOCK_ID) (pathSource o (accessPath o b))
    Block.id (pathReads_ids_nodup hinv hb) hk hk' (by simp [hid, hb']) (by simp [hid', hb'])
    (hid.trans hid'.symm)

/-- **No block off the path carries the accessed id**: a block lies on the path of its leaf. -/
theorem offPath_id_ne {X : Block} (hX : X ∈ offPathBlocks o (accessPath o b))
    (hne : X.id ≠ EMPTY_BLOCK_ID) : X.id ≠ b := by
  intro hXb
  obtain ⟨k, hk, rfl⟩ := List.mem_map.1 hX
  rw [List.mem_filter, List.mem_range] at hk
  obtain ⟨hk, hoff⟩ := hk
  obtain ⟨ℓ, hℓ, hanc⟩ := hinv.placed k hk hne
  have hpos := hinv.position_eq _ (mem_oramLiveBlocks_of_store hk hne)
  rw [hXb] at hpos
  rw [hpos, hinv.leaf_toNat hb] at hanc
  have hon : Buckets.OnPath 3 (fun ℓ => ((accessPath o b).values ℓ).toNat) o.stash.pathLength k := by
    refine ⟨ℓ, hℓ, ?_⟩
    show ((accessPath o b).values ℓ).toNat = k / 3
    rw [accessPath_toNat hinv hb hℓ, hanc]
  simp [hon] at hoff

/-- **The blocks of the path's buckets fit the levels they are read at.** -/
theorem pathSource_valid {k : ℕ} (hk : k < 3 * o.stash.pathLength)
    (hne : (pathSource o (accessPath o b) k).id ≠ EMPTY_BLOCK_ID) :
    BlockValidAt (accessPath o b) (k / 3) (pathSource o (accessPath o b) k) := by
  have hℓ : k / 3 < o.stash.pathLength := by omega
  have hL := hinv.levels_le
  have hnode := UInt64.lt_iff_toNat_lt.1 (accessPath_bucket hinv hb hℓ).2
  rw [hinv.store_numLevels] at hnode
  -- the slot the path reads at `k`
  obtain ⟨slot, hslot_eq⟩ : ∃ slot, slot = 3 * ((accessPath o b).values (k / 3)).toNat + k % 3 :=
    ⟨_, rfl⟩
  have hsrc : pathSource o (accessPath o b) k = o.bucketStore.blocks slot := by
    rw [pathSource, if_pos hk, hslot_eq]
  rw [hsrc] at hne ⊢
  have hslot : slot < 3 * (treePathNumNodes o.numLevels).toNat := by omega
  have hslot3 : slot / 3 = ((accessPath o b).values (k / 3)).toNat := by omega
  -- the block's bucket is the ancestor of its leaf at some level, which is the level read
  obtain ⟨ℓ', hℓ', hanc⟩ := hinv.placed slot hslot hne
  rw [hslot3, accessPath_toNat hinv hb hℓ] at hanc
  obtain rfl : k / 3 = ℓ' := ancestorAt_level_inj hanc
  have hlt := ancestorAt_lt (hinv.twice_entry_lt hb) hℓ
  have hpow : 2 ^ o.stash.pathLength ≤ 2 ^ 62 := Nat.pow_le_pow_right (by norm_num) hL
  refine blockValidAt_of_ancestorAt (by omega)
    (hinv.position_even (mem_oramLiveBlocks_of_store hslot hne)) (by rw [← hanc]; omega) ?_
  rw [accessPath_toNat hinv hb hℓ, hanc]

/-- **An access hands the accessor the words `oramBlockData` reads**: the block the path's read
takes out, or the empty block when no entry carries the id. -/
theorem oramBlockData_access (hb' : b ≠ EMPTY_BLOCK_ID) {t : Block}
    (hfound : ∀ k < 3 * o.stash.pathLength + o.stash.overflowCapacity,
      (pathSource o (accessPath o b) k).id = b → t = pathSource o (accessPath o b) k)
    (hnone : (∀ k < 3 * o.stash.pathLength + o.stash.overflowCapacity,
      (pathSource o (accessPath o b) k).id ≠ b) → t = Block.empty) :
    oramBlockData o b = t.data := by
  have hoff : (nonEmptyBlocks (offPathBlocks o (accessPath o b))).find? (fun X => X.id == b) =
      none := by
    refine (Keyed.find?_key_eq_none_iff Block.id _ b).2 fun X hX => ?_
    rw [nonEmptyBlocks, List.mem_filter] at hX
    exact offPath_id_ne hinv hb hX.1 (by simpa using hX.2)
  rw [oramBlockData_eq_find o hb', Keyed.find?_key_perm Block.id (live_perm_access hinv hb)
    hinv.ids_nodup, List.find?_append, hoff, Option.none_or]
  by_cases hex : ∃ k < 3 * o.stash.pathLength + o.stash.overflowCapacity,
      (pathSource o (accessPath o b) k).id = b
  · obtain ⟨k, hk, hid⟩ := hex
    have hmem : pathSource o (accessPath o b) k ∈ nonEmptyBlocks (pathReads o (accessPath o b)) :=
      List.mem_filter.2 ⟨List.mem_map.2 ⟨k, List.mem_range.2 hk, rfl⟩, by simp [hid, hb']⟩
    rw [(Keyed.find?_key_eq_some_iff Block.id (pathReads_ids_nodup hinv hb) b _).2 ⟨hmem, hid⟩,
      Option.map_some, Option.getD_some, hfound k hk hid]
  · have hnil : (nonEmptyBlocks (pathReads o (accessPath o b))).find? (fun X => X.id == b) =
        none := by
      refine (Keyed.find?_key_eq_none_iff Block.id _ b).2 fun X hX hXb => hex ?_
      obtain ⟨k, hk, rfl⟩ := List.mem_map.1 (List.mem_filter.1 hX).1
      exact ⟨k, List.mem_range.1 hk, hXb⟩
    rw [hnil, Option.map_none, Option.getD_none, hnone fun k hk hid => hex ⟨k, hk, hid⟩]

end Access

/-! ## The state an access leaves -/

/-- An id below another word is not `EMPTY_BLOCK_ID`, the largest word. -/
theorem ne_empty_of_lt {b c : UInt64} (h : b < c) : b ≠ EMPTY_BLOCK_ID := by
  rintro rfl
  have h₁ := UInt64.lt_iff_toNat_lt.1 h
  have h₂ := c.toNat_lt
  have h₃ : EMPTY_BLOCK_ID.toNat = 2 ^ 64 - 1 := by decide
  omega

/-- Emptying the blocks with id `b` drops them from the non-empty blocks. -/
theorem nonEmptyBlocks_map_erase {b : UInt64} (hb : b ≠ EMPTY_BLOCK_ID) (l : List Block) :
    nonEmptyBlocks (l.map fun X => if X.id = b then Block.empty else X) =
      (nonEmptyBlocks l).filter fun X => X.id != b := by
  induction l with
  | nil => rfl
  | cons X l ih =>
    simp only [nonEmptyBlocks, List.map_cons, List.filter_cons] at ih ⊢
    by_cases hX : X.id = b
    · have hE : Block.empty.id = EMPTY_BLOCK_ID := rfl
      rw [if_pos hX]
      simp [hX, hb, hE, ih]
    · rw [if_neg hX]
      by_cases hE : X.id = EMPTY_BLOCK_ID <;> simp [hX, hE, ih]

/-- Blocks with distinct ids below `u`, none of them `b < u`, are at most `u - 1`. -/
theorem length_le_of_ids {l : List Block} (hn : (l.map Block.id).Nodup) {u b : UInt64}
    (hb : b < u) (hl : ∀ X ∈ l, X.id < u ∧ X.id ≠ b) : l.length ≤ u.toNat - 1 := by
  have hn' : ((l.map Block.id).map UInt64.toNat).Nodup :=
    hn.map fun _ _ h => UInt64.toNat_inj.1 h
  have hsub : ((l.map Block.id).map UInt64.toNat).toFinset ⊆
      (Finset.range u.toNat).erase b.toNat := by
    intro n hn
    simp only [List.mem_toFinset, List.mem_map] at hn
    obtain ⟨_, ⟨X, hX, rfl⟩, rfl⟩ := hn
    obtain ⟨hlt, hne⟩ := hl X hX
    simp only [Finset.mem_erase, Finset.mem_range, ne_eq]
    exact ⟨fun h => hne (UInt64.toNat_inj.1 h), UInt64.lt_iff_toNat_lt.1 hlt⟩
  have hcard := Finset.card_le_card hsub
  rw [List.toFinset_card_of_nodup hn', List.length_map, List.length_map,
    Finset.card_erase_of_mem (Finset.mem_range.2 (UInt64.lt_iff_toNat_lt.1 hb)),
    Finset.card_range] at hcard
  exact hcard

/-- The ORAM after an access of block `b` that drew the leaf `newPos` and rebuilt the stash `s`:
the position map sends `b` to `newPos`, the path is the one read, and the rebuilt path is written
back. -/
def accessResult (o : Oram) (b newPos : UInt64) (s : Stash) : Oram :=
  { o with
    positionMap := ⟨o.positionMap.size, Function.update o.positionMap.data b.toNat newPos⟩
    path := accessPath o b
    stash := s
    bucketStore := writePath o.bucketStore (accessPath o b) s }

section Finish

open Bitonic

variable {B : ℕ} {o : Oram} (hinv : OramInv B o) {b : UInt64} (hb : b < o.allocatedUb)
  {s₂ : Stash} (h₂L : s₂.pathLength = o.stash.pathLength) (h₂wf : s₂.WellFormed)
  (h₂path : ∀ k < 3 * o.stash.pathLength, s₂.blocks k =
    if (pathSource o (accessPath o b) k).id = b then Block.empty else pathSource o (accessPath o b) k)
include hinv hb h₂L h₂wf h₂path

/-- **The rebuild of an access** permutes the stash it is given, and the blocks it leaves in the
path stash fit their levels: the path's blocks, less the target, fit the levels they were read
at. -/
theorem accessRebuild_spec :
    PermOn 0 (3 * o.stash.pathLength + s₂.overflowCapacity) s₂.blocks
        (stashBuildPath s₂ (accessPath o b)).blocks ∧
      ∀ k < 3 * o.stash.pathLength,
        ((stashBuildPath s₂ (accessPath o b)).blocks k).id ≠ EMPTY_BLOCK_ID →
          BlockValidAt (accessPath o b) (k / 3) ((stashBuildPath s₂ (accessPath o b)).blocks k) := by
  have hvalid : ∀ k < 3 * s₂.pathLength, (s₂.blocks k).id ≠ EMPTY_BLOCK_ID →
      BlockValidAt (accessPath o b) (k / 3) (s₂.blocks k) := by
    intro k hk hne
    rw [h₂L] at hk
    rw [h₂path k hk] at hne ⊢
    by_cases hid : (pathSource o (accessPath o b) k).id = b
    · rw [if_pos hid] at hne
      exact absurd rfl hne
    · rw [if_neg hid] at hne ⊢
      exact pathSource_valid hinv hb hk hne
  have h := stashBuildPath_spec h₂wf (accessPath o b) hvalid
  rwa [h₂L] at h

/-- **The live blocks after an access** are those before it without the block `b`, and the
block the access put into the stash. -/
theorem accessResult_live_perm {newPos : UInt64} {X' : Block}
    (h₂perm : (nonEmptyBlocks ((List.range (3 * o.stash.pathLength + s₂.overflowCapacity)).map
        s₂.blocks)).Perm
      ((nonEmptyBlocks (pathReads o (accessPath o b))).filter (fun X => X.id != b) ++ [X'])) :
    (oramLiveBlocks (accessResult o b newPos (stashBuildPath s₂ (accessPath o b)))).Perm
      ((oramLiveBlocks o).filter (fun X => X.id != b) ++ [X']) := by
  set path := accessPath o b with hpath
  set s₃ := stashBuildPath s₂ path with hs₃
  set o' := accessResult o b newPos s₃ with ho'
  obtain ⟨hperm₃, -⟩ := accessRebuild_spec hinv hb h₂L h₂wf h₂path
  obtain ⟨h₃L, h₃F, -⟩ := stashBuildPath_wellFormed h₂wf path
  have hlen : path.length.toNat = o.stash.pathLength := hinv.path_length
  have hL' : o'.stash.pathLength = o.stash.pathLength := h₃L.trans h₂L
  have hF' : o'.stash.overflowCapacity = s₂.overflowCapacity := h₃F
  obtain ⟨-, hon, hoff⟩ := writePath_spec o.bucketStore path s₃
    fun ℓ hℓ ℓ' hℓ' h => accessPath_inj hinv hb (hlen ▸ hℓ) (hlen ▸ hℓ') h
  -- the new state splits at the same path
  have hsplit' := oramLiveBlocks_perm_split o' path
    (fun ℓ hℓ => by
      have := UInt64.lt_iff_toNat_lt.1 (accessPath_bucket hinv hb (hL' ▸ hℓ)).2
      rwa [hinv.store_numLevels] at this)
    fun ℓ hℓ ℓ' hℓ' h => accessPath_inj hinv hb (hL' ▸ hℓ) (hL' ▸ hℓ') h
  -- off the path the store is unchanged
  have hoff' : offPathBlocks o' path = offPathBlocks o path := by
    unfold offPathBlocks
    rw [hL']
    refine List.map_congr_left fun k hk => hoff k ?_
    rw [List.mem_filter] at hk
    rw [hlen]
    simpa using hk.2
  -- the path's read sees the rebuilt stash
  have hreads' : pathReads o' path =
      (List.range (3 * o.stash.pathLength + s₂.overflowCapacity)).map s₃.blocks := by
    unfold pathReads
    rw [hL', hF']
    refine List.map_congr_left fun k hk => ?_
    unfold pathSource
    rw [hL']
    split_ifs with hk'
    · have := hon (k / 3) (by omega) (k % 3) (by omega)
      rw [Nat.div_add_mod] at this
      exact this
    · rfl
  -- no block off the path has the id `b`
  have hkeep : (nonEmptyBlocks (offPathBlocks o path)).filter (fun X => X.id != b) =
      nonEmptyBlocks (offPathBlocks o path) := List.filter_eq_self.2 fun X hX => by
    rw [nonEmptyBlocks, List.mem_filter] at hX
    simpa using offPath_id_ne hinv hb hX.1 (by simpa using hX.2)
  refine hsplit'.trans ?_
  rw [hoff', hreads']
  refine (((hperm₃.perm_map_range).filter _).append_left _).trans ?_
  refine (h₂perm.append_left _).trans ?_
  rw [← List.append_assoc, ← hkeep, ← List.filter_append]
  exact ((live_perm_access hinv hb).symm.filter _).append_right _

/-- **An access keeps the invariant**, given the stash it put the block into: a stash that keeps
the path as read, is well formed and within the bound, and holds the read's blocks without `b`
and the block `⟨b, 2 newPos, d'⟩`, for a new leaf `newPos` and `BLOCK_DATA_SIZE_QWORDS` words
`d'`. -/
theorem accessResult_inv {newPos : UInt64} (hnew : newPos.toNat < 2 ^ (o.stash.pathLength - 1))
    {d' : List UInt64} (hlen : d'.length = BLOCK_DATA_SIZE_QWORDS.toNat)
    (h₂B : s₂.overflowCapacity ≤ B)
    (h₂perm : (nonEmptyBlocks ((List.range (3 * o.stash.pathLength + s₂.overflowCapacity)).map
        s₂.blocks)).Perm
      ((nonEmptyBlocks (pathReads o (accessPath o b))).filter (fun X => X.id != b) ++
        [⟨b, newPos * 2, d'⟩])) :
    OramInv B (accessResult o b newPos (stashBuildPath s₂ (accessPath o b))) := by
  set path := accessPath o b with hpath
  set s₃ := stashBuildPath s₂ path with hs₃
  set o' := accessResult o b newPos s₃ with ho'
  have hP : (oramLiveBlocks o').Perm
      ((oramLiveBlocks o).filter (fun X => X.id != b) ++ [⟨b, newPos * 2, d'⟩]) :=
    accessResult_live_perm hinv hb h₂L h₂wf h₂path h₂perm
  obtain ⟨-, hvalid₃⟩ := accessRebuild_spec hinv hb h₂L h₂wf h₂path
  obtain ⟨h₃L, h₃F, h₃wf⟩ := stashBuildPath_wellFormed h₂wf path
  have hlen' : path.length.toNat = o.stash.pathLength := hinv.path_length
  have hL' : o'.stash.pathLength = o.stash.pathLength := h₃L.trans h₂L
  obtain ⟨hlev, hon, hoff⟩ := writePath_spec o.bucketStore path s₃
    fun ℓ hℓ ℓ' hℓ' h => accessPath_inj hinv hb (hlen' ▸ hℓ) (hlen' ▸ hℓ') h
  -- a live block of the new state is an old one other than `b`, or the new block
  have hmem : ∀ X ∈ oramLiveBlocks o', (X ∈ oramLiveBlocks o ∧ X.id ≠ b) ∨
      X = ⟨b, newPos * 2, d'⟩ := fun X hX => by
    rcases List.mem_append.1 (hP.subset hX) with hX | hX
    · rw [List.mem_filter] at hX
      exact .inl ⟨hX.1, by simpa using hX.2⟩
    · exact .inr (List.mem_singleton.1 hX)
  have hb' := ne_empty_of_lt hb
  have hbcap : b.toNat < o.capacityBlocks.toNat :=
    lt_of_lt_of_le (UInt64.lt_iff_toNat_lt.1 hb) (UInt64.le_iff_toNat_le.1 hinv.allocated_le)
  refine ⟨by rw [hL']; exact hinv.levels_pos, by rw [hL']; exact hinv.levels_le,
    hinv.numLevels_toNat.trans hL'.symm, hlev.trans hinv.store_numLevels, hlen'.trans hL'.symm,
    h₃wf, h₃F ▸ h₂B, hinv.map_size, fun i hi => ?_, hinv.allocated_le, ?_, fun X hX => ?_,
    fun X hX => ?_, fun X hX => ?_, fun k hk hne => ?_⟩
  · -- the new entry is a leaf
    rw [hL']
    show (Function.update o.positionMap.data b.toNat newPos i).toNat < _
    by_cases hib : i = b.toNat
    · rw [hib, Function.update_self]
      exact hnew
    · rw [Function.update_of_ne hib]
      exact hinv.map_lt i hi
  · -- the old blocks other than `b` have distinct ids, none of them `b`
    refine (hP.map Block.id).nodup_iff.2 ?_
    rw [List.map_append]
    refine List.Nodup.append ((List.filter_sublist.map Block.id).nodup hinv.ids_nodup)
      (List.nodup_singleton _) ?_
    intro x hx hx'
    obtain ⟨X, hX, rfl⟩ := List.mem_map.1 hx
    rw [List.mem_filter] at hX
    simp only [List.map_cons, List.map_nil, List.mem_singleton] at hx'
    simp [hx'] at hX
  · rcases hmem X hX with ⟨hX, -⟩ | rfl
    · exact hinv.id_lt X hX
    · exact hb
  · show X.position = Function.update o.positionMap.data b.toNat newPos X.id.toNat * 2
    rcases hmem X hX with ⟨hX, hne⟩ | rfl
    · rw [Function.update_of_ne fun h => hne (UInt64.toNat_inj.1 h)]
      exact hinv.position_eq X hX
    · rw [Function.update_self]
  · rcases hmem X hX with ⟨hX, -⟩ | rfl
    · exact hinv.data_length X hX
    · exact hlen
  · -- a block on the path was placed there by the rebuild, one off the path did not move
    have hN : (treePathNumNodes o'.numLevels).toNat = (treePathNumNodes o.numLevels).toNat := rfl
    rw [hN] at hk
    by_cases hkon : Buckets.OnPath 3 (fun ℓ => (path.values ℓ).toNat) path.length.toNat k
    · obtain ⟨ℓ, hℓ, hg⟩ := hkon
      have hg' : (path.values ℓ).toNat = k / 3 := hg
      have hℓL : ℓ < o.stash.pathLength := hlen' ▸ hℓ
      have hblk := hon ℓ hℓ (k % 3) (Nat.mod_lt _ (by norm_num))
      rw [hg', Nat.div_add_mod] at hblk
      change (writePath o.bucketStore path s₃).blocks k = _ at hblk
      have hne' : (s₃.blocks (3 * ℓ + k % 3)).id ≠ EMPTY_BLOCK_ID := by
        rw [← hblk]
        exact hne
      have hv := hvalid₃ (3 * ℓ + k % 3) (by omega) hne'
      rw [show (3 * ℓ + k % 3) / 3 = ℓ by omega] at hv
      have hL := hinv.levels_le
      have hlt := ancestorAt_lt (hinv.twice_entry_lt hb) hℓL
      have hpow : 2 ^ o.stash.pathLength ≤ 2 ^ 62 :=
        Nat.pow_le_pow_right (by norm_num) hinv.levels_le
      refine ⟨ℓ, by rw [hL']; exact hℓL, ?_⟩
      change k / 3 = ancestorAt ((writePath o.bucketStore path s₃).blocks k).position.toNat ℓ
      rw [hblk, ancestorAt_of_blockValidAt (by omega) (accessPath_toNat hinv hb hℓL) (by omega) hv,
        ← hg', hpath, accessPath_toNat hinv hb hℓL]
    · have hsame : (writePath o.bucketStore path s₃).blocks k = o.bucketStore.blocks k := hoff k hkon
      change ((writePath o.bucketStore path s₃).blocks k).id ≠ EMPTY_BLOCK_ID at hne
      change ∃ ℓ < o'.stash.pathLength,
        k / 3 = ancestorAt ((writePath o.bucketStore path s₃).blocks k).position.toNat ℓ
      rw [hsame, hL'] at *
      exact hinv.placed k hk hne

end Finish

/-- **What the array holds after a block is replaced**: when the live blocks become those without
id `b` and a block `X` with id `b`, block `b` holds `X`'s words and every other block what it held. -/
theorem oramBlockData_of_perm {o o' : Oram} {b : UInt64} {X : Block} (hX : X.id = b)
    (hn : ((oramLiveBlocks o').map Block.id).Nodup)
    (hP : (oramLiveBlocks o').Perm ((oramLiveBlocks o).filter (fun Y => Y.id != b) ++ [X]))
    {c : UInt64} (hc : c ≠ EMPTY_BLOCK_ID) :
    oramBlockData o' c = if c = b then X.data else oramBlockData o c := by
  rw [oramBlockData_eq_find o' hc, Keyed.find?_key_perm Block.id hP hn, List.find?_append]
  by_cases hcb : c = b
  · subst hcb
    have hnone : ((oramLiveBlocks o).filter (fun Y => Y.id != c)).find? (fun Y => Y.id == c) =
        none := by
      refine (Keyed.find?_key_eq_none_iff Block.id _ _).2 fun Y hY => ?_
      simpa using (List.mem_filter.1 hY).2
    rw [hnone, Option.none_or, if_pos rfl]
    simp [hX]
  · have hkeep := Keyed.find?_key_filter Block.id (fun Y => Y.id != b) (oramLiveBlocks o)
      (k := c) fun Y hY => by simp [hY, hcb]
    have hlast : [X].find? (fun Y => Y.id == c) = none := by
      simp [hX, Ne.symm hcb]
    rw [hkeep, hlast, Option.or_none, if_neg hcb, oramBlockData_eq_find o hc]

/-! ## One access -/

section Refines

variable {B : ℕ} {o : Oram} (hinv : OramInv B o) (hB : o.capacityBlocks.toNat + 19 ≤ B)
  (hB' : 3 * 62 + B + STASH_GROWTH_INCREMENT < 2 ^ 64)
include hinv hB hB'

omit hB' in
/-- The overflow is full only when it holds fewer blocks than are allocated, so that growing it
stays within the bound. -/
theorem overflow_grow_le {b : UInt64} (hb : b < o.allocatedUb) {s₁ : Stash}
    (h₁L : s₁.pathLength = o.stash.pathLength)
    (h₁perm : nonEmptyBlocks ((List.range (3 * o.stash.pathLength + s₁.overflowCapacity)).map
      s₁.blocks) = (nonEmptyBlocks (pathReads o (accessPath o b))).filter (fun X => X.id != b))
    (hfull : ∀ i < s₁.overflowCapacity, (s₁.blocks (s₁.overflowIndex i)).id ≠ EMPTY_BLOCK_ID) :
    s₁.overflowCapacity + STASH_GROWTH_INCREMENT ≤ B := by
  -- the overflow's blocks are among the read's blocks other than `b`
  have hsub : ((List.range s₁.overflowCapacity).map fun i => s₁.blocks (s₁.overflowIndex i)).Sublist
      (nonEmptyBlocks ((List.range (3 * o.stash.pathLength + s₁.overflowCapacity)).map
        s₁.blocks)) := by
    have hself : nonEmptyBlocks ((List.range s₁.overflowCapacity).map
        fun i => s₁.blocks (s₁.overflowIndex i)) =
        (List.range s₁.overflowCapacity).map fun i => s₁.blocks (s₁.overflowIndex i) :=
      List.filter_eq_self.2 fun Y hY => by
        obtain ⟨i, hi, rfl⟩ := List.mem_map.1 hY
        simpa using hfull i (List.mem_range.1 hi)
    have hsplit : (List.range (3 * o.stash.pathLength + s₁.overflowCapacity)).map s₁.blocks =
        (List.range (3 * o.stash.pathLength)).map s₁.blocks ++
          (List.range s₁.overflowCapacity).map fun i => s₁.blocks (s₁.overflowIndex i) := by
      rw [List.range_add, List.map_append, List.map_map]
      congr 1
      refine List.map_congr_left fun i _ => ?_
      simp only [Function.comp_apply, Stash.overflowIndex, BLOCKS_PER_BUCKET_toNat, h₁L]
    rw [← hself, hsplit]
    exact (List.sublist_append_right _ _).filter _
  rw [h₁perm] at hsub
  have hnd : (((nonEmptyBlocks (pathReads o (accessPath o b))).filter
      (fun X => X.id != b)).map Block.id).Nodup :=
    (List.filter_sublist.map Block.id).nodup (pathReads_ids_nodup hinv hb)
  have hlen := length_le_of_ids hnd hb fun X hX => by
      rw [List.mem_filter] at hX
      have hlive := (live_perm_access hinv hb).symm.subset (List.mem_append_right _ hX.1)
      exact ⟨hinv.id_lt X hlive, by simpa using hX.2⟩
  have hcap := UInt64.le_iff_toNat_le.1 hinv.allocated_le
  have hbub := UInt64.lt_iff_toNat_lt.1 hb
  have := hsub.length_le
  rw [List.length_map, List.length_range] at this
  simp only [STASH_GROWTH_INCREMENT]
  omega

/-- **One access refines the array.** For an allocated block `b` and an accessor that maps the
block's words to `BLOCK_DATA_SIZE_QWORDS` words `d'` and an output `out`, `oram_access` does not
abort and returns `out`; afterwards the ORAM keeps the invariant and its allocation, block `b`
holds `d'`, and every other block what it held. -/
theorem oramAccess_refines {b : UInt64} (hb : b < o.allocatedUb) {β : Type}
    (accessor : List UInt64 → Option (Except ErrorT (List UInt64 × β))) (r : UInt64)
    {d' : List UInt64} {out : β} (hacc : accessor (oramBlockData o b) = some (.ok (d', out)))
    (hlen : d'.length = BLOCK_DATA_SIZE_QWORDS.toNat) :
    ∃ o', oramAccess o b accessor r = some (o', .ok out) ∧ OramInv B o' ∧
      o'.allocatedUb = o.allocatedUb ∧ o'.capacityBlocks = o.capacityBlocks ∧
      ∀ c ≠ EMPTY_BLOCK_ID, oramBlockData o' c = if c = b then d' else oramBlockData o c := by
  have hb' := ne_empty_of_lt hb
  have hL := hinv.levels_le
  have hnew : (randomModByPowOf2 r (bucketStoreNumLeaves o.bucketStore)).toNat <
      2 ^ (o.stash.pathLength - 1) := by
    rw [hinv.numLeaves_eq, randomModByPowOf2_toNat r (by omega)]
    exact Nat.mod_lt _ (Nat.two_pow_pos _)
  have hsize := hinv.lt_map_size hb
  set newPos := randomModByPowOf2 r (bucketStoreNumLeaves o.bucketStore) with hnewPos
  set path := accessPath o b with hpath
  -- the read: the path's buckets and the overflow, with the block taken out
  set s₁ : Stash := { o.stash with blocks := fun k =>
      if k < 3 * o.stash.pathLength + o.stash.overflowCapacity ∧ (pathSource o path k).id = b
      then Block.empty else pathSource o path k } with hs₁
  obtain ⟨t, hread, hfound, hnone⟩ := oramReadPathForBlock_eq
    { o with positionMap := ⟨o.positionMap.size, Function.update o.positionMap.data b.toNat newPos⟩,
             path := path }
    path (fun ℓ hℓ => accessPath_bucket hinv hb hℓ) hb' hinv.path_length
    (pathSource_id_unique hinv hb hb') (newPos * 2)
  have hread' : oramReadPathForBlock
      { o with positionMap := ⟨o.positionMap.size, Function.update o.positionMap.data b.toNat newPos⟩,
               path := path } path b Block.empty (newPos * 2) =
      some (s₁, { t with id := b, position := newPos * 2 }) := hread
  have hdata := oramBlockData_access hinv hb hb' hfound hnone
  have h₁wf : s₁.WellFormed := ⟨hinv.stash_wf.numBlocks_eq, hinv.stash_wf.numBlocks_lt⟩
  have h₁path : ∀ k < 3 * o.stash.pathLength, s₁.blocks k =
      if (pathSource o path k).id = b then Block.empty else pathSource o path k := fun k hk =>
    if_congr (and_iff_right (by omega)) rfl rfl
  have h₁perm : nonEmptyBlocks ((List.range (3 * o.stash.pathLength + s₁.overflowCapacity)).map
      s₁.blocks) = (nonEmptyBlocks (pathReads o path)).filter (fun X => X.id != b) := by
    rw [← nonEmptyBlocks_map_erase hb', pathReads, List.map_map]
    congr 1
    exact List.map_congr_left fun k hk => if_congr (and_iff_right (List.mem_range.1 hk)) rfl rfl
  -- the block, with its new words and leaf, goes into the overflow
  have hnum : s₁.numBlocks + STASH_GROWTH_INCREMENT < 2 ^ 64 := by
    have := hinv.stash_wf.numBlocks_eq
    have := hinv.overflow_le
    rw [BLOCKS_PER_BUCKET_toNat] at *
    show o.stash.numBlocks + STASH_GROWTH_INCREMENT < 2 ^ 64
    omega
  obtain ⟨s₂, hadd, h₂L, h₂wf, h₂path, h₂perm, h₂F⟩ :=
    stashAddBlock_spec ⟨b, newPos * 2, d'⟩ h₁wf hb' hnum
  have h₂B : s₂.overflowCapacity ≤ B := by
    rcases h₂F with h | ⟨h, hfull⟩
    · rw [h]
      exact hinv.overflow_le
    · rw [h]
      exact overflow_grow_le hinv hB hb rfl h₁perm hfull
  have h₂path' : ∀ k < 3 * o.stash.pathLength, s₂.blocks k =
      if (pathSource o path k).id = b then Block.empty else pathSource o path k := fun k hk => by
    rw [h₂path k hk, h₁path k hk]
  rw [h₁perm] at h₂perm
  have hinv' := accessResult_inv hinv hb h₂L h₂wf h₂path' hnew hlen h₂B h₂perm
  refine ⟨accessResult o b newPos (stashBuildPath s₂ path), ?_, hinv', rfl, rfl, fun c hc => ?_⟩
  · unfold oramAccess
    dsimp only
    rw [positionMapReadThenSet_eq _ hsize, Option.bind_some]
    dsimp only
    rw [treePathUpdate_access hinv hb, Option.bind_some, hread', Option.bind_some]
    dsimp only
    rw [← hdata, hacc, Option.bind_some]
    dsimp only
    rw [hadd, Option.map_some]
    rfl
  · exact oramBlockData_of_perm (X := ⟨b, newPos * 2, d'⟩) rfl hinv'.ids_nodup
      (accessResult_live_perm hinv hb h₂L h₂wf h₂path' h₂perm) hc

end Refines

end ContactDiscovery
