import Mathlib
import ContactDiscovery.Lib.Fold
import ContactDiscovery.PathOram.Oram

/-!
# Where the words of an ORAM come from

An ORAM operation moves whole blocks. It copies them between the bucket store and the stash,
swaps them, permutes them in the bitonic sort, and fills new room with empty blocks. The only
words it ever writes into a block are the accessor's. So fix a set `S` of block words that holds
the empty block's, and an accessor that maps words of `S` to words of `S`:

* `oramAccess_dataIn` — an access keeps every block of the store and of the stash in `S`, and
  what it returns is the accessor's output on words of `S`;
* `oramFunctionAccess_dataIn` — the same when the block may be unallocated;
* `Oram.create_dataIn` — a new ORAM holds empty blocks only.

The arrays are total functions here, so "every block" ranges over every index, also those past
the C arrays' ends. Two instances are used: the words the ORAM already holds, for accessors that
only read (a lookup returns what the ORAM held), and the words of `BLOCK_DATA_SIZE_QWORDS` words
(a block keeps its size).
-/

set_option autoImplicit false

namespace ContactDiscovery

/-- Every block of `blocks` carries words of `S`. -/
def DataIn (S : Set (List UInt64)) (blocks : ℕ → Block) : Prop := ∀ k, (blocks k).data ∈ S

/-- Every block of the ORAM's bucket store and stash carries words of `S`. -/
structure OramDataIn (S : Set (List UInt64)) (o : Oram) : Prop where
  store : DataIn S o.bucketStore.blocks
  stash : DataIn S o.stash.blocks

/-- The words of some block in the ORAM's bucket store or stash. -/
def Oram.Holds (o : Oram) (d : List UInt64) : Prop :=
  (∃ k, (o.bucketStore.blocks k).data = d) ∨ ∃ k, (o.stash.blocks k).data = d

theorem OramDataIn.mono {S T : Set (List UInt64)} {o : Oram} (h : OramDataIn S o) (hST : S ⊆ T) :
    OramDataIn T o :=
  ⟨fun k => hST (h.store k), fun k => hST (h.stash k)⟩

section Moves

variable {S : Set (List UInt64)}

theorem DataIn.update {f : ℕ → Block} (h : DataIn S f) {b : Block} (hb : b.data ∈ S) (k : ℕ) :
    DataIn S (Function.update f k b) := by
  intro j
  by_cases hj : j = k
  · subst hj
    simpa using hb
  · simpa [Function.update_of_ne hj] using h j

theorem DataIn.copyBlocks {dst src : ℕ → Block} (hd : DataIn S dst) (hs : DataIn S src)
    (dstStart srcStart n : ℕ) : DataIn S (copyBlocks dst dstStart src srcStart n) := by
  intro k
  unfold ContactDiscovery.copyBlocks
  split
  · exact hs _
  · exact hd k

/-- One step of the target search swaps the target with a stash entry or does nothing. -/
theorem swapOutTarget_dataIn {targetBlockId : UInt64} {k : ℕ} {acc acc' : (ℕ → Block) × Block}
    (h : DataIn S acc.1 ∧ acc.2.data ∈ S) (hs : swapOutTarget targetBlockId k acc = some acc') :
    DataIn S acc'.1 ∧ acc'.2.data ∈ S := by
  obtain ⟨blocks, target⟩ := acc
  simp only [swapOutTarget, condSwapBlocks] at hs
  by_cases habort : (targetBlockId == (blocks k).id && target.id != EMPTY_BLOCK_ID) = true
  · rw [if_pos habort] at hs
    cases hs
  · rw [if_neg habort] at hs
    -- a swap puts the target into the stash and the entry into the target
    by_cases hc : (targetBlockId == (blocks k).id) = true
    · rw [if_pos hc] at hs
      cases hs
      exact ⟨h.1.update h.2 k, h.1 k⟩
    · rw [if_neg hc] at hs
      cases hs
      exact ⟨h.1.update (h.1 k) k, h.2⟩

/-- The loops of the target search: swaps over the stash entries. -/
theorem swapOutTarget_loop_dataIn {targetBlockId : UInt64} {l : List ℕ} {base : ℕ}
    {acc acc' : (ℕ → Block) × Block} (h : DataIn S acc.1 ∧ acc.2.data ∈ S)
    (hl : l.foldlM (fun acc i => swapOutTarget targetBlockId (base + i) acc) acc = some acc') :
    DataIn S acc'.1 ∧ acc'.2.data ∈ S :=
  Fold.foldlM_option_inv (fun acc => DataIn S acc.1 ∧ acc.2.data ∈ S)
    (fun _ _ _ _ ha hs => swapOutTarget_dataIn ha hs) h hl

theorem stashAddPathBucket_dataIn {s s' : Stash} {store : BucketStore}
    {bucketId targetBlockId : UInt64} {target target' : Block} (hs : DataIn S s.blocks)
    (hstore : DataIn S store.blocks) (ht : target.data ∈ S)
    (h : stashAddPathBucket s store bucketId targetBlockId target = some (s', target')) :
    DataIn S s'.blocks ∧ target'.data ∈ S := by
  unfold stashAddPathBucket bucketStoreReadBucketBlocks at h
  split at h
  · obtain ⟨blocks, hblocks, h⟩ := Option.bind_eq_some_iff.1 h
    cases hblocks
    obtain ⟨⟨blocks, target₁⟩, hloop, heq⟩ := Option.map_eq_some_iff.1 h
    cases heq
    -- the bucket is copied into the path stash, then the target is swapped out of it
    exact swapOutTarget_loop_dataIn ⟨hs.copyBlocks hstore _ _ _, ht⟩ hloop
  · cases h

theorem stashScanOverflowForTarget_dataIn {s s' : Stash} {targetBlockId : UInt64}
    {target target' : Block} (hs : DataIn S s.blocks) (ht : target.data ∈ S)
    (h : stashScanOverflowForTarget s targetBlockId target = some (s', target')) :
    DataIn S s'.blocks ∧ target'.data ∈ S := by
  unfold stashScanOverflowForTarget at h
  obtain ⟨⟨blocks, target₁, numFound⟩, hloop, h⟩ := Option.bind_eq_some_iff.1 h
  simp only [Option.ite_none_right_eq_some, Option.some.injEq, Prod.mk.injEq] at h
  obtain ⟨-, rfl, rfl⟩ := h
  -- the found-count rides along the swaps
  refine Fold.foldlM_option_inv (fun acc => DataIn S acc.1 ∧ acc.2.1.data ∈ S) ?_ ⟨hs, ht⟩ hloop
  intro acc i acc' _ ha hstep
  obtain ⟨p, hp, rfl⟩ := Option.map_eq_some_iff.1 hstep
  exact swapOutTarget_dataIn ha hp

/-- **Reading a path** leaves only words of `S` in the stash and in the target. -/
theorem oramReadPathForBlock_dataIn {o : Oram} {path : TreePath} {targetBlockId newPosition : UInt64}
    {target target' : Block} {s' : Stash} (ho : OramDataIn S o) (ht : target.data ∈ S)
    (h : oramReadPathForBlock o path targetBlockId target newPosition = some (s', target')) :
    DataIn S s'.blocks ∧ target'.data ∈ S := by
  unfold oramReadPathForBlock at h
  obtain ⟨⟨s₁, target₁⟩, hloop, h⟩ := Option.bind_eq_some_iff.1 h
  obtain ⟨⟨s₂, target₂⟩, hscan, heq⟩ := Option.map_eq_some_iff.1 h
  cases heq
  have h₁ : DataIn S s₁.blocks ∧ target₁.data ∈ S := by
    refine Fold.foldlM_option_inv (fun acc => DataIn S acc.1.blocks ∧ acc.2.data ∈ S) ?_
      ⟨ho.stash, ht⟩ hloop
    intro acc i acc' _ ha hstep
    exact stashAddPathBucket_dataIn ha.1 ho.store ha.2 hstep
  obtain ⟨hs₂, ht₂⟩ := stashScanOverflowForTarget_dataIn h₁.1 h₁.2 hscan
  exact ⟨hs₂, ht₂⟩

theorem stashAddBlockPass_dataIn {s : Stash} {b : Block} (hs : DataIn S s.blocks) (hb : b.data ∈ S) :
    DataIn S (stashAddBlockPass s b).1 := by
  unfold stashAddBlockPass
  refine List.foldlRecOn (motive := fun (acc : (ℕ → Block) × Bool) => DataIn S acc.1) _ _ hs ?_
  intro acc hacc i _
  dsimp only
  split
  · exact hacc.update hb _
  · exact hacc

section Room

variable (hE : Block.empty.data ∈ S)
include hE

theorem stashExtendOverflow_dataIn {s : Stash} (hs : DataIn S s.blocks) :
    DataIn S (stashExtendOverflow s).blocks := by
  intro k
  simp only [stashExtendOverflow]
  split
  · exact hE
  · exact hs k

/-- **Adding a block** to the overflow, extended with empty blocks when full. -/
theorem stashAddBlockLoop_dataIn {b : Block} (hb : b.data ∈ S) :
    ∀ (fuel : ℕ) {s s' : Stash}, DataIn S s.blocks → stashAddBlockLoop fuel s b = some s' →
      DataIn S s'.blocks
  | 0, _, _, _, h => by cases h
  | fuel + 1, s, s', hs, h => by
    unfold stashAddBlockLoop at h
    rcases hp : stashAddBlockPass s b with ⟨blocks, inserted⟩
    have hblocks : DataIn S blocks := by
      have := stashAddBlockPass_dataIn hs hb
      rwa [hp] at this
    rw [hp] at h
    simp only at h
    split at h
    · -- no empty overflow slot: extend, and run again
      exact stashAddBlockLoop_dataIn hb fuel (stashExtendOverflow_dataIn hE (s := { s with blocks })
        hblocks) h
    · cases h
      exact hblocks

end Room

/-- **Building the path** permutes the stash. -/
theorem stashBuildPath_dataIn {s : Stash} (path : TreePath) (hs : DataIn S s.blocks) :
    DataIn S (stashBuildPath s path).blocks := by
  intro k
  simp only [stashBuildPath]
  obtain ⟨j, hj⟩ := (Bitonic.sort_permOn true
    (fun k => ((stashAssignBuckets s path).blocks k, (stashAssignBuckets s path).bucketAssignments k))
    0 _).exists_eq k
  rw [hj, stashAssignBuckets_blocks]
  exact hs j

/-- **Writing the path back** copies stash blocks into the store. -/
theorem writePath_dataIn {store : BucketStore} {path : TreePath} {stash : Stash}
    (hstore : DataIn S store.blocks) (hs : DataIn S stash.blocks) :
    DataIn S (writePath store path stash).blocks := by
  unfold writePath
  refine List.foldlRecOn (motive := fun (store : BucketStore) => DataIn S store.blocks) _ _ hstore ?_
  intro store hstore' i _
  exact hstore'.copyBlocks hs _ _ _

/-! ## Accesses -/

section Access

variable (hE : Block.empty.data ∈ S)
include hE

/-- **An access moves blocks and writes only the accessor's words.** If the ORAM's blocks carry
words of `S` and the accessor maps words of `S` to words of `S`, the blocks still do after the
access, and its result is the accessor's output on words of `S`. -/
theorem oramAccess_dataIn {β : Type} {o o' : Oram} {blockId r : UInt64}
    {accessor : List UInt64 → Option (Except ErrorT (List UInt64 × β))} {res : Except ErrorT β}
    (ho : OramDataIn S o)
    (hacc : ∀ d ∈ S, ∀ d' out, accessor d = some (.ok (d', out)) → d' ∈ S)
    (h : oramAccess o blockId accessor r = some (o', res)) :
    OramDataIn S o' ∧ ∃ d ∈ S, ∃ x, accessor d = some x ∧ res = x.map Prod.snd := by
  unfold oramAccess at h
  obtain ⟨⟨positionMap, _⟩, -, h⟩ := Option.bind_eq_some_iff.1 h
  obtain ⟨path, -, h⟩ := Option.bind_eq_some_iff.1 h
  obtain ⟨⟨stash, target⟩, hread, h⟩ := Option.bind_eq_some_iff.1 h
  -- the target starts empty; reading the path swaps it with the block it looks for
  obtain ⟨hstash, htarget⟩ := oramReadPathForBlock_dataIn (o := { o with positionMap, path })
    ⟨ho.store, ho.stash⟩ hE hread
  obtain ⟨x, hx, h⟩ := Option.bind_eq_some_iff.1 h
  refine ⟨?_, target.data, htarget, x, hx, ?_⟩ <;> rcases x with e | ⟨data, out⟩
  · cases h
    exact ⟨ho.store, hstash⟩
  · -- the target, with the accessor's words, joins the overflow; the path is rebuilt
    obtain ⟨stash', hadd, heq⟩ := Option.map_eq_some_iff.1 h
    cases heq
    have hdata := hacc _ htarget data out hx
    have hstash' := stashAddBlockLoop_dataIn hE (b := { target with data }) hdata 2 hstash hadd
    exact ⟨writePath_dataIn ho.store (stashBuildPath_dataIn path hstash'),
      stashBuildPath_dataIn path hstash'⟩
  · cases h
    rfl
  · obtain ⟨stash', -, heq⟩ := Option.map_eq_some_iff.1 h
    cases heq
    rfl

/-- `oram_function_access`: an unallocated block leaves the ORAM as it is. -/
theorem oramFunctionAccess_dataIn {β : Type} {o o' : Oram} {blockId r : UInt64}
    {accessor : List UInt64 → Option (Except ErrorT (List UInt64 × β))} {res : Except ErrorT β}
    (ho : OramDataIn S o)
    (hacc : ∀ d ∈ S, ∀ d' out, accessor d = some (.ok (d', out)) → d' ∈ S)
    (h : oramFunctionAccess o blockId accessor r = some (o', res)) :
    OramDataIn S o' ∧ ∀ out, res = .ok out → ∃ d ∈ S, ∃ d', accessor d = some (.ok (d', out)) := by
  unfold oramFunctionAccess at h
  split at h
  · obtain ⟨ho', d, hd, x, hx, rfl⟩ := oramAccess_dataIn hE ho hacc h
    refine ⟨ho', fun out hout => ?_⟩
    rcases x with e | ⟨d', out'⟩
    · cases hout
    · cases hout
      exact ⟨d, hd, d', hx⟩
  · cases h
    exact ⟨ho, fun out hout => by cases hout⟩

end Access

/-! ## Creation -/

section Creation

variable (hE : Block.empty.data ∈ S)
include hE

theorem stashCreate_dataIn {pathLength overflowSize : ℕ} {s : Stash}
    (h : stashCreate pathLength overflowSize = some s) : DataIn S s.blocks := by
  unfold stashCreate at h
  simp only at h
  split at h
  · cases h
    exact fun _ => hE
  · cases h

/-- **A new ORAM holds empty blocks only.** -/
theorem Oram.create_dataIn {numLevels numBlocks stashOverflowSize : UInt64} {draws : ℕ → UInt64}
    {o : Oram} (h : Oram.create numLevels numBlocks stashOverflowSize draws = some o) :
    OramDataIn S o := by
  unfold Oram.create at h
  split at h
  · obtain ⟨stash, hstash, h⟩ := Option.bind_eq_some_iff.1 h
    obtain ⟨path, -, rfl⟩ := Option.map_eq_some_iff.1 h
    exact ⟨fun _ => hE, stashCreate_dataIn hE hstash⟩
  · cases h

end Creation

/-- An allocation moves the bound only. -/
theorem OramDataIn.allocateContiguous {o : Oram} (ho : OramDataIn S o) (n : UInt64) :
    OramDataIn S (oramAllocateContiguous o n).2 := by
  unfold oramAllocateContiguous
  dsimp only
  split
  · exact ⟨ho.store, ho.stash⟩
  · exact ho

end Moves

end ContactDiscovery
