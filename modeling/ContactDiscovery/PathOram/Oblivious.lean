import Mathlib
import ContactDiscovery.PathOram.Refinement
import ContactDiscovery.Lib.Redraw

/-!
# What the Path ORAM's accesses show (`path_oram/path_oram.c`)

An access of `oram_get`, `oram_put` or `oram_put_partial` reads and writes back the buckets of one
path of the tree: the path to twice the leaf the position map holds for the block. That is all it
shows of the tree; the stash and the position map are scanned whole. The leaf is then redrawn
from the access's entropy word (`random_mod_by_pow_of_2`), and no other entry of the position map
changes (`oramAccess_walk`, `oramStep_walk`, `oramStep_positionMap_of_none`).

`oramWalks` lists, operation by operation, the buckets a run walks. With the block each operation
accesses read off the array the ORAM stands for (`OramArray.accesses`), the walks of every run are
what `Redraw.revealed` reveals from the position map under the run's draws
(`oramWalks_eq_revealed`). So (`oramCreate_walks_fresh`): from `oram_create`, every path a run walks
leads to a leaf drawn by one entropy word, of the creation or of an earlier access, and no word's
leaf is walked to twice.
-/

set_option autoImplicit false

namespace ContactDiscovery

/-! ## Which operations access a block -/

/-- The block an operation hands to `oram_access`: `oram_get`, `oram_put` and `oram_put_partial`
test `block_is_allocated` first; allocation and `oram_clear` access none. -/
def accessedBlock (o : Oram) : OramOp → Option UInt64
  | .get b | .put b _ | .putPartial b _ _ _ => if blockIsAllocated o b then some b else none
  | .allocateBlock | .clear => none

namespace OramArray

/-- The block an operation of the array reads or writes: a get, put or partial put of a block
handed out. -/
def accessed (A : OramArray) : OramOp → Option UInt64
  | .get b | .put b _ | .putPartial b _ _ _ => if b < A.allocatedUb then some b else none
  | .allocateBlock | .clear => none

/-- The blocks the operations of a run access, in order. -/
def accesses (A : OramArray) : List OramOp → List (Option UInt64)
  | [] => []
  | op :: ops =>
    match A.step op with
    | some (A', _) => A.accessed op :: A'.accesses ops
    | none => []

theorem accesses_cons {A A' : OramArray} {op : OramOp} {rep : OramReply} (ops : List OramOp)
    (h : A.step op = some (A', rep)) : A.accesses (op :: ops) = A.accessed op :: A'.accesses ops := by
  rw [accesses, h]

end OramArray

theorem Represents.accessedBlock_eq {o : Oram} {A : OramArray} (hR : Represents o A) (op : OramOp) :
    accessedBlock o op = A.accessed op := by
  cases op <;> simp [accessedBlock, OramArray.accessed, hR.blockIsAllocated_eq]

/-! ## What one operation shows -/

/-- The buckets of a path, from the leaf's end: what the memory bus shows of one access. -/
def pathBuckets (p : TreePath) : List UInt64 := (List.range p.length.toNat).map p.values

/-- The buckets of the `L`-level path to twice the leaf `ℓ`. -/
def leafBuckets (L ℓ : UInt64) : List UInt64 :=
  (List.range L.toNat).map fun j => UInt64.ofNat (ancestorAt (ℓ * 2).toNat j)

/-- An access walks the buckets of the path to its block's leaf. -/
theorem pathBuckets_accessPath (o : Oram) (b : UInt64) :
    pathBuckets (accessPath o b) = leafBuckets o.path.length (o.positionMap.data b.toNat) :=
  List.map_congr_left fun _ hj => if_pos (List.mem_range.1 hj)

/-- **An access walks one path and redraws one leaf**: whatever its accessor does, `oram_access`
of an allocated block leaves the path to the block's leaf as the ORAM's path, and the position map
with that block's entry, and no other, set to the leaf drawn from `r`. -/
theorem oramAccess_walk {B : ℕ} {o : Oram} (hinv : OramInv B o) {b : UInt64}
    (hb : b < o.allocatedUb) {β : Type} (accessor : List UInt64 → Option (Except ErrorT (List UInt64 × β)))
    {r : UInt64} {o' : Oram} {res : Except ErrorT β} (h : oramAccess o b accessor r = some (o', res)) :
    o'.path = accessPath o b ∧
      o'.positionMap = ⟨o.positionMap.size, Function.update o.positionMap.data b.toNat
        (randomModByPowOf2 r (bucketStoreNumLeaves o.bucketStore))⟩ ∧
      o'.numLevels = o.numLevels := by
  unfold oramAccess at h
  dsimp only at h
  rw [positionMapReadThenSet_eq _ (hinv.lt_map_size hb), Option.bind_some] at h
  dsimp only at h
  rw [treePathUpdate_access hinv hb, Option.bind_some] at h
  obtain ⟨⟨s, t⟩, -, h⟩ := Option.bind_eq_some_iff.1 h
  obtain ⟨res', -, h⟩ := Option.bind_eq_some_iff.1 h
  -- both the accessor's error and the write-back keep the path and the map just set
  rcases res' with e | ⟨d, out⟩
  · cases h
    exact ⟨rfl, rfl, rfl⟩
  · obtain ⟨s', -, h⟩ := Option.map_eq_some_iff.1 h
    cases h
    exact ⟨rfl, rfl, rfl⟩

/-- An operation that accesses a block is an `oram_access` of it. -/
theorem oramStep_accessed {o o' : Oram} {op : OramOp} {b r : UInt64} {rep : OramReply}
    (hacc : accessedBlock o op = some b) (h : oramStep o r op = some (o', rep)) :
    b < o.allocatedUb ∧ ∃ (β : Type) (accessor : List UInt64 → Option (Except ErrorT (List UInt64 × β)))
      (res : Except ErrorT β), oramAccess o b accessor r = some (o', res) := by
  cases op with
  | get c =>
    simp only [accessedBlock, Option.ite_none_right_eq_some, Option.some.injEq] at hacc
    obtain ⟨halloc, rfl⟩ := hacc
    obtain ⟨⟨o₁, res⟩, hget, heq⟩ := Option.map_eq_some_iff.1 h
    cases heq
    rw [oramGet, oramFunctionAccess, if_pos halloc] at hget
    exact ⟨of_decide_eq_true halloc, _, _, _, hget⟩
  | put c data =>
    simp only [accessedBlock, Option.ite_none_right_eq_some, Option.some.injEq] at hacc
    obtain ⟨halloc, rfl⟩ := hacc
    obtain ⟨⟨o₁, res⟩, hput, heq⟩ := Option.map_eq_some_iff.1 h
    cases heq
    rw [oramPut, oramFunctionAccess, if_pos halloc] at hput
    obtain ⟨⟨o₂, res'⟩, hacc', heq'⟩ := Option.map_eq_some_iff.1 hput
    cases heq'
    exact ⟨of_decide_eq_true halloc, _, _, _, hacc'⟩
  | putPartial c start len data =>
    simp only [accessedBlock, Option.ite_none_right_eq_some, Option.some.injEq] at hacc
    obtain ⟨halloc, rfl⟩ := hacc
    obtain ⟨⟨o₁, res⟩, hpp, heq⟩ := Option.map_eq_some_iff.1 h
    cases heq
    rw [oramPutPartial, if_pos halloc] at hpp
    -- a range past the block aborts before the access
    split at hpp
    · obtain ⟨⟨o₂, res'⟩, hacc', heq'⟩ := Option.map_eq_some_iff.1 hpp
      cases heq'
      exact ⟨of_decide_eq_true halloc, _, _, _, hacc'⟩
    · cases hpp
  | allocateBlock => cases hacc
  | clear => cases hacc

/-- **One operation that accesses a block** walks the path to the block's leaf, and redraws that
leaf, and only it, from its entropy word. -/
theorem oramStep_walk {B : ℕ} {o o' : Oram} (hinv : OramInv B o) {op : OramOp} {b r : UInt64}
    {rep : OramReply} (hacc : accessedBlock o op = some b) (h : oramStep o r op = some (o', rep)) :
    pathBuckets o'.path = leafBuckets o.path.length (o.positionMap.data b.toNat) ∧
      o'.positionMap.data = Function.update o.positionMap.data b.toNat
        (randomModByPowOf2 r (bucketStoreNumLeaves o.bucketStore)) ∧
      o'.numLevels = o.numLevels := by
  obtain ⟨hb, β, accessor, res, hstep⟩ := oramStep_accessed hacc h
  obtain ⟨hpath, hmap, hlevels⟩ := oramAccess_walk hinv hb accessor hstep
  rw [hpath, hmap, pathBuckets_accessPath]
  exact ⟨rfl, rfl, hlevels⟩

/-- **One operation that accesses no block** leaves the position map as it is. -/
theorem oramStep_positionMap_of_none {o o' : Oram} {op : OramOp} {r : UInt64} {rep : OramReply}
    (hacc : accessedBlock o op = none) (h : oramStep o r op = some (o', rep)) :
    o'.positionMap = o.positionMap ∧ o'.numLevels = o.numLevels := by
  cases op with
  | get c =>
    simp only [accessedBlock, ite_eq_right_iff, reduceCtorEq, imp_false] at hacc
    obtain ⟨⟨o₁, res⟩, hget, heq⟩ := Option.map_eq_some_iff.1 h
    cases heq
    rw [oramGet, oramFunctionAccess, if_neg hacc] at hget
    cases hget
    exact ⟨rfl, rfl⟩
  | put c data =>
    simp only [accessedBlock, ite_eq_right_iff, reduceCtorEq, imp_false] at hacc
    obtain ⟨⟨o₁, res⟩, hput, heq⟩ := Option.map_eq_some_iff.1 h
    cases heq
    rw [oramPut, oramFunctionAccess, if_neg hacc, Option.map_some] at hput
    cases hput
    exact ⟨rfl, rfl⟩
  | putPartial c start len data =>
    simp only [accessedBlock, ite_eq_right_iff, reduceCtorEq, imp_false] at hacc
    obtain ⟨⟨o₁, res⟩, hpp, heq⟩ := Option.map_eq_some_iff.1 h
    cases heq
    rw [oramPutPartial, if_neg hacc] at hpp
    cases hpp
    exact ⟨rfl, rfl⟩
  | allocateBlock =>
    cases h
    unfold oramAllocateBlock
    split_ifs <;> exact ⟨rfl, rfl⟩
  | clear =>
    cases h
    exact ⟨rfl, rfl⟩

/-- Two ORAMs under the invariant with the same height have as many leaves and as long a path. -/
theorem OramInv.shape_eq {B B' : ℕ} {o o' : Oram} (hinv : OramInv B o) (hinv' : OramInv B' o')
    (h : o'.numLevels = o.numLevels) :
    bucketStoreNumLeaves o'.bucketStore = bucketStoreNumLeaves o.bucketStore ∧
      o'.path.length = o.path.length := by
  have hL : o'.stash.pathLength = o.stash.pathLength := by
    rw [← hinv'.numLevels_toNat, ← hinv.numLevels_toNat, h]
  refine ⟨by rw [hinv'.numLeaves_eq, hinv.numLeaves_eq, hL], UInt64.toNat_inj.1 ?_⟩
  rw [hinv'.path_length, hinv.path_length, hL]

/-! ## What a run shows -/

/-- What a run shows of the tree: for each operation, the buckets of the path it walked when it
accessed a block, and nothing otherwise; the list stops where an operation aborts. -/
def oramWalks (o : Oram) : List (OramOp × UInt64) → List (Option (List UInt64))
  | [] => []
  | (op, r) :: ops =>
    match oramStep o r op with
    | some (o', _) => ((accessedBlock o op).map fun _ => pathBuckets o'.path) :: oramWalks o' ops
    | none => []

/-- The position map as a store of leaves, one for each block id. -/
def leafOf (o : Oram) (b : UInt64) : UInt64 := o.positionMap.data b.toNat

theorem leafOf_update (f : ℕ → UInt64) (b v : UInt64) :
    (fun c : UInt64 => Function.update f b.toNat v c.toNat) =
      Function.update (fun c : UInt64 => f c.toNat) b v :=
  Function.update_comp_eq_of_injective f (fun _ _ h => UInt64.toNat_inj.1 h) b v

section Run

variable {B : ℕ} (hB' : 3 * 62 + B + STASH_GROWTH_INCREMENT < 2 ^ 64)
include hB'

/-- **The walks of a run are the position map's leaves, revealed** block by block as the array
sees the run access them, each access then holding the leaf drawn from its entropy word.
Induction on the run, with the invariant and the representation carried by `oramStep_refines`;
the number of leaves and the length of the path stay those of the start. -/
theorem oramWalks_eq_revealed : ∀ (ops : List (OramOp × UInt64)) {o : Oram} {A A' : OramArray}
    {replies : List OramReply}, OramInv B o → o.capacityBlocks.toNat + 19 ≤ B → Represents o A →
      A.run (ops.map Prod.fst) = some (A', replies) →
        oramWalks o ops = (Redraw.revealed (leafOf o) ((A.accesses (ops.map Prod.fst)).zip
          (ops.map fun p => randomModByPowOf2 p.2 (bucketStoreNumLeaves o.bucketStore)))).map
          (Option.map (leafBuckets o.path.length))
  | [], _, _, _, _, _, _, _, _ => rfl
  | (op, r) :: ops, o, A, A', replies, hinv, hB, hR, h => by
    rw [List.map_cons, OramArray.run] at h
    obtain ⟨⟨A₁, rep⟩, hstep, hrest⟩ := Option.bind_eq_some_iff.1 h
    obtain ⟨⟨A₂, reps⟩, hrun, hq⟩ := Option.map_eq_some_iff.1 hrest
    cases hq
    obtain ⟨o₁, ho₁, hinv₁, hR₁⟩ := oramStep_refines hB' hinv hB hR op r hstep
    have hB₁ : o₁.capacityBlocks.toNat + 19 ≤ B := by
      rw [hR₁.capacityBlocks_eq, OramArray.step_capacityBlocks hstep, ← hR.capacityBlocks_eq]
      exact hB
    have ih := oramWalks_eq_revealed ops hinv₁ hB₁ hR₁ hrun
    rw [oramWalks, ho₁, List.map_cons, OramArray.accesses_cons _ hstep, List.map_cons,
      List.zip_cons_cons, ← hR.accessedBlock_eq]
    dsimp only
    -- the operation either walks the path to its block's leaf and redraws it, or shows nothing
    cases hacc : accessedBlock o op with
    | some b =>
      obtain ⟨hwalk, hmap, hlevels⟩ := oramStep_walk hinv hacc ho₁
      obtain ⟨hleaves, hlen⟩ := hinv.shape_eq hinv₁ hlevels
      have hleaf : leafOf o₁ = Function.update (leafOf o) b
          (randomModByPowOf2 r (bucketStoreNumLeaves o.bucketStore)) := by
        unfold leafOf
        rw [hmap]
        exact leafOf_update _ b _
      rw [Option.map_some, hwalk, Redraw.revealed_cons_some, List.map_cons, Option.map_some, ih,
        hleaf, hleaves, hlen]
      rfl
    | none =>
      obtain ⟨hmap, hlevels⟩ := oramStep_positionMap_of_none hacc ho₁
      obtain ⟨hleaves, hlen⟩ := hinv.shape_eq hinv₁ hlevels
      have hleaf : leafOf o₁ = leafOf o := by
        unfold leafOf
        rw [hmap]
      rw [Option.map_none, Redraw.revealed_cons_none, List.map_cons, Option.map_none, ih, hleaf,
        hleaves, hlen]

end Run

/-! ## From creation -/

/-- `_create` fills the position map with the creation's draws, reduced to leaves. -/
theorem Oram.create_positionMap_data {numLevels numBlocks stashOverflowSize : UInt64}
    {draws : ℕ → UInt64} {o : Oram} (h : Oram.create numLevels numBlocks stashOverflowSize draws = some o) :
    o.positionMap.data = fun i => draws i % bucketStoreNumLeaves o.bucketStore := by
  unfold Oram.create at h
  split_ifs at h
  obtain ⟨s, -, hs⟩ := Option.bind_eq_some_iff.1 h
  obtain ⟨p, -, rfl⟩ := Option.map_eq_some_iff.1 hs
  rfl

/-- A run the array defines accesses at most one block per operation. -/
theorem OramArray.length_accesses : ∀ (ops : List OramOp) {A A' : OramArray}
    {replies : List OramReply}, A.run ops = some (A', replies) → (A.accesses ops).length = ops.length
  | [], _, _, _, _ => rfl
  | op :: ops, A, A', replies, h => by
    rw [OramArray.run] at h
    obtain ⟨⟨A₁, rep⟩, hstep, hrest⟩ := Option.bind_eq_some_iff.1 h
    obtain ⟨⟨A₂, reps⟩, hrun, -⟩ := Option.map_eq_some_iff.1 hrest
    rw [OramArray.accesses_cons _ hstep, List.length_cons, List.length_cons,
      OramArray.length_accesses ops hrun]

/-- **Every path the ORAM walks leads to a fresh leaf.** `oram_create` of more words than one block
holds, with an overflow stash below `2^63` blocks, builds an ORAM whose position map holds the
creation's draws, reduced to leaves. In every run of operations that a fresh array defines, each
operation that accesses a block walks the path to a leaf named by one entropy word: `Sum.inl b`
for the creation's draw of block `b`, `Sum.inr i` for the draw of operation `i`, an operation
before it. No name is walked to twice. -/
theorem oramCreate_walks_fresh {capacityU64 stashOverflowSize : UInt64} (draws : ℕ → UInt64)
    (hcap : BLOCK_DATA_SIZE_QWORDS < capacityU64) (hovf : stashOverflowSize.toNat < 2 ^ 63) :
    ∃ o, oramCreate capacityU64 stashOverflowSize draws = some o ∧
      (∀ b : UInt64, leafOf o b = draws b.toNat % bucketStoreNumLeaves o.bucketStore) ∧
      ∀ (ops : List (OramOp × UInt64)) {A' : OramArray} {replies : List OramReply},
        (OramArray.init (oramCreateNumBlocks capacityU64)).run (ops.map Prod.fst) =
            some (A', replies) →
          ∃ ns : List (Option (UInt64 ⊕ ℕ)), ns.reduceOption.Nodup ∧
            (∀ j i : ℕ, ns[j]? = some (some (Sum.inr i)) → i < j) ∧
            oramWalks o ops = ns.map (Option.map fun n => leafBuckets o.path.length
              (Sum.elim (leafOf o) (fun i => (ops.map fun p =>
                randomModByPowOf2 p.2 (bucketStoreNumLeaves o.bucketStore)).getD i default) n)) := by
  have hinc : STASH_GROWTH_INCREMENT = 20 := rfl
  have hN57 := oramCreateNumBlocks_le capacityU64
  obtain ⟨o, ho, hinv, hR⟩ := oramCreate_refines draws hcap hovf
  refine ⟨o, ho, fun b => ?_, fun ops A' replies hrun => ?_⟩
  · rw [leafOf, Oram.create_positionMap_data ho]
  have hB : o.capacityBlocks.toNat + 19 ≤
      stashOverflowSize.toNat + (oramCreateNumBlocks capacityU64).toNat + 19 := by
    rw [hR.capacityBlocks_eq]
    exact Nat.add_le_add_right (Nat.le_add_left _ _) _
  have hwalks := oramWalks_eq_revealed (by omega) ops hinv hB hR hrun
  -- name the draws: the leaves revealed are those of distinct names
  obtain ⟨ns, hnd, hlt, hrev⟩ := Redraw.revealed_eq_names (leafOf o)
    (((OramArray.init (oramCreateNumBlocks capacityU64)).accesses (ops.map Prod.fst)).zip
      (ops.map fun p => randomModByPowOf2 p.2 (bucketStoreNumLeaves o.bucketStore)))
  have hsnd : (((OramArray.init (oramCreateNumBlocks capacityU64)).accesses (ops.map Prod.fst)).zip
      (ops.map fun p => randomModByPowOf2 p.2 (bucketStoreNumLeaves o.bucketStore))).map Prod.snd =
      ops.map fun p => randomModByPowOf2 p.2 (bucketStoreNumLeaves o.bucketStore) :=
    List.map_snd_zip (by rw [OramArray.length_accesses _ hrun, List.length_map, List.length_map])
  refine ⟨ns, hnd, hlt, ?_⟩
  rw [hwalks, hrev, hsnd, List.map_map, Option.map_comp_map]
  rfl

theorem oramCreate_walks_fresh_two_blocks :
    BLOCK_DATA_SIZE_QWORDS < (336 : UInt64) ∧ (0 : UInt64).toNat < 2 ^ 63 ∧
      ∃ o, oramCreate 336 0 (fun _ => 0) = some o ∧
        (∀ b : UInt64, leafOf o b = 0 % bucketStoreNumLeaves o.bucketStore) ∧
        ∀ (ops : List (OramOp × UInt64)) {A' : OramArray} {replies : List OramReply},
          (OramArray.init (oramCreateNumBlocks 336)).run (ops.map Prod.fst) = some (A', replies) →
            ∃ ns : List (Option (UInt64 ⊕ ℕ)), ns.reduceOption.Nodup ∧
              (∀ j i : ℕ, ns[j]? = some (some (Sum.inr i)) → i < j) ∧
              oramWalks o ops = ns.map (Option.map fun n => leafBuckets o.path.length
                (Sum.elim (leafOf o) (fun i => (ops.map fun p =>
                  randomModByPowOf2 p.2 (bucketStoreNumLeaves o.bucketStore)).getD i default) n)) :=
  ⟨by decide, by decide, oramCreate_walks_fresh (fun _ => 0) (by decide) (by decide)⟩

end ContactDiscovery
