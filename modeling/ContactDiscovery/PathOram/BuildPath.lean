import Mathlib
import ContactDiscovery.PathOram.Stash
import ContactDiscovery.Lib.BitonicSorted
import ContactDiscovery.Lib.Fold
import ContactDiscovery.Lib.Count

/-!
# How `stash_build_path` lays out a path (`path_oram/stash.c`)

`stash_build_path` gives every block of the path stash and of the used overflow a bucket of the
path (a level) or none (`UINT64_MAX`), then sorts these blocks by (assignment, position), so
that the blocks of level `i` land in `path_blocks[3i .. 3i + 3)`.

* `stashAssignBlockToBucket_cases` — one block goes to the lowest level below its bound whose
  bucket covers its position and has room, or nowhere;
* `GreedyInv` — what the two greedy passes keep: the occupancy of a level counts the blocks
  assigned to it and is at most `3`, and only non-empty blocks that fit their level are
  assigned; every path block finds room (`pathPass_spec`: a level only takes blocks read at that
  level or below it);
* `placePass_spec` — `stash_place_empty_blocks` fills the remaining room with empty blocks in
  index order; enough of them lie in the sorted prefix (`freeSlots_le_countP_empty`), so every
  level is full and nothing outside the prefix is assigned;
* `sortedLevel_iff` — after the sort the levels ascend, so with three blocks per level in the
  prefix entry `k` has level below `c` exactly when `k < 3 * c`.

Principal result: `stashBuildPath_places_path` — for a well-formed stash whose path blocks fit
the buckets they were read from, the path and overflow keep their non-empty blocks, every
non-empty block placed at level `i` fits bucket `p[i]`, and no non-empty path block leaves the
path.
-/

set_option autoImplicit false

namespace ContactDiscovery

open Bitonic

/-- The check of `stash_assign_block_to_bucket`: the block's position lies between the leftmost
and the rightmost leaf below the path's bucket at `level`. -/
def BlockValidAt (path : TreePath) (level : ℕ) (b : Block) : Prop :=
  treePathLowerBound (path.values level) ≤ b.position ∧
    b.position ≤ treePathUpperBound (path.values level)

instance (path : TreePath) (level : ℕ) (b : Block) : Decidable (BlockValidAt path level b) :=
  inferInstanceAs (Decidable (_ ∧ _))

/-! ## One block -/

/-- **One block of `stash_assign_block_to_bucket`**: with `M` the bound on its level and `a` the
index of the block, either the block is non-empty and goes to a level below `M` that covers its
position and has room, or nothing changes and no such level exists. -/
theorem stashAssignBlockToBucket_cases (s : Stash) (path : TreePath) (type : BlockType)
    (index : ℕ) {M a : ℕ} (hM : M = if type = .overflow then s.pathLength else index / 3 + 1)
    (ha : a = if type = .overflow then 3 * s.pathLength + index else index) :
    (∃ ℓ < M, (s.blocks a).id ≠ EMPTY_BLOCK_ID ∧ BlockValidAt path ℓ (s.blocks a) ∧
        s.bucketOccupancy ℓ < BLOCKS_PER_BUCKET ∧
        (stashAssignBlockToBucket s path type index).bucketOccupancy =
          Function.update s.bucketOccupancy ℓ (s.bucketOccupancy ℓ + 1) ∧
        (stashAssignBlockToBucket s path type index).bucketAssignments =
          Function.update s.bucketAssignments a (UInt64.ofNat ℓ)) ∨
      (((s.blocks a).id = EMPTY_BLOCK_ID ∨
          ∀ ℓ < M, BlockValidAt path ℓ (s.blocks a) → BLOCKS_PER_BUCKET ≤ s.bucketOccupancy ℓ) ∧
        (stashAssignBlockToBucket s path type index).bucketOccupancy = s.bucketOccupancy ∧
        (stashAssignBlockToBucket s path type index).bucketAssignments = s.bucketAssignments) := by
  have hM' : (if (type == BlockType.overflow) = true then s.pathLength
      else index / BLOCKS_PER_BUCKET.toNat + 1) = M := by
    cases type <;> simp [hM]
  have ha' : (if (type == BlockType.overflow) = true then
      BLOCKS_PER_BUCKET.toNat * s.pathLength + index else index) = a := by
    cases type <;> simp [ha]
  unfold stashAssignBlockToBucket
  dsimp only
  rw [hM', ha']
  generalize hr : List.foldl _ _ _ = r
  set blk := s.blocks a
  set occ := s.bucketOccupancy
  set asg := s.bucketAssignments
  -- the scan over the levels: the flag says whether the block was assigned at a level so far
  let P : ℕ → (ℕ → UInt64) × (ℕ → UInt64) × Bool → Prop := fun n r =>
    (r.2.2 = true ∧ ∃ ℓ < n, blk.id ≠ EMPTY_BLOCK_ID ∧ BlockValidAt path ℓ blk ∧
        occ ℓ < BLOCKS_PER_BUCKET ∧ r.1 = Function.update occ ℓ (occ ℓ + 1) ∧
        r.2.1 = Function.update asg a (UInt64.ofNat ℓ)) ∨
      (r.2.2 = false ∧ (blk.id = EMPTY_BLOCK_ID ∨
          ∀ ℓ < n, BlockValidAt path ℓ blk → BLOCKS_PER_BUCKET ≤ occ ℓ) ∧
        r.1 = occ ∧ r.2.1 = asg)
  have key : P M r := by
    rw [← hr]
    refine Fold.foldl_range_inv P
      (.inr ⟨rfl, .inr fun _ h => absurd h (Nat.not_lt_zero _), rfl, rfl⟩) ?_
    rintro i ⟨o, g, done⟩ - (⟨hdone, ℓ, hℓ, hne, hv, hroom, ho, hg⟩ | ⟨hdone, hfit, ho, hg⟩)
    · -- already assigned: the later levels write nothing
      dsimp only at hdone ho hg ⊢
      subst hdone
      simp only [Bool.not_true, Bool.and_false, Bool.false_and, Bool.false_or, condObvCpyU64_eq,
        if_false, Bool.false_eq_true]
      exact .inl ⟨rfl, ℓ, by omega, hne, hv, hroom, ho, hg⟩
    · dsimp only at hdone ho hg ⊢
      subst hdone ho hg
      by_cases hc : BlockValidAt path i blk ∧ occ i < BLOCKS_PER_BUCKET ∧ blk.id ≠ EMPTY_BLOCK_ID
      · obtain ⟨hv, hroom, hne⟩ := hc
        have hcond : (decide (treePathLowerBound (path.values i) ≤ blk.position) &&
            decide (blk.position ≤ treePathUpperBound (path.values i)) &&
            decide (occ i < BLOCKS_PER_BUCKET) && !false && blk.id != EMPTY_BLOCK_ID) = true := by
          simp [hv.1, hv.2, hroom, hne]
        simp only [hcond, condObvCpyU64_eq, if_true, Bool.true_or]
        exact .inl ⟨rfl, i, by omega, hne, hv, hroom, rfl, rfl⟩
      · have hcond : (decide (treePathLowerBound (path.values i) ≤ blk.position) &&
            decide (blk.position ≤ treePathUpperBound (path.values i)) &&
            decide (occ i < BLOCKS_PER_BUCKET) && !false && blk.id != EMPTY_BLOCK_ID) = false := by
          rw [Bool.eq_false_iff]
          intro h
          simp only [Bool.not_false, Bool.and_true, Bool.and_eq_true, decide_eq_true_eq,
            bne_iff_ne, ne_eq] at h
          exact hc ⟨⟨h.1.1.1, h.1.1.2⟩, h.1.2, h.2⟩
        simp only [hcond, condObvCpyU64_eq, if_false, Bool.false_or, Bool.false_eq_true]
        refine .inr ⟨rfl, ?_, rfl, rfl⟩
        rcases hfit with hempty | hfit
        · exact .inl hempty
        · by_cases hne : blk.id = EMPTY_BLOCK_ID
          · exact .inl hne
          refine .inr fun ℓ hℓ hv => ?_
          rcases Nat.lt_succ_iff_lt_or_eq.1 hℓ with hℓ | rfl
          · exact hfit ℓ hℓ hv
          · exact UInt64.not_lt.1 fun hroom => hc ⟨hv, hroom, hne⟩
  rcases key with ⟨-, h⟩ | ⟨-, h⟩
  · exact .inl h
  · exact .inr h

/-! ## The greedy passes -/

theorem stashOverflowUbLoop_le (s : Stash) : ∀ i, stashOverflowUbLoop s i ≤ i
  | 0 => le_rfl
  | i + 1 => by
    unfold stashOverflowUbLoop
    split
    · exact le_rfl
    · exact (stashOverflowUbLoop_le s i).trans (Nat.le_succ i)

/-- The used overflow lies within the overflow. -/
theorem stashOverflowUb_le (s : Stash) : stashOverflowUb s ≤ s.overflowCapacity :=
  stashOverflowUbLoop_le s _

/-- The stash with its occupancy and assignment arrays replaced: the states of
`stash_assign_buckets`. -/
def Stash.withArrays (s : Stash) (occupancy assignments : ℕ → UInt64) : Stash :=
  { s with bucketOccupancy := occupancy, bucketAssignments := assignments }

section Greedy

variable (s : Stash) (path : TreePath)

@[simp] theorem Stash.withArrays_blocks (o g : ℕ → UInt64) : (s.withArrays o g).blocks = s.blocks :=
  rfl

@[simp] theorem Stash.withArrays_pathLength (o g : ℕ → UInt64) :
    (s.withArrays o g).pathLength = s.pathLength := rfl

@[simp] theorem Stash.withArrays_numBlocks (o g : ℕ → UInt64) :
    (s.withArrays o g).numBlocks = s.numBlocks := rfl

@[simp] theorem Stash.withArrays_bucketOccupancy (o g : ℕ → UInt64) :
    (s.withArrays o g).bucketOccupancy = o := rfl

@[simp] theorem Stash.withArrays_bucketAssignments (o g : ℕ → UInt64) :
    (s.withArrays o g).bucketAssignments = g := rfl

/-- The used overflow does not depend on the assignment arrays. -/
@[simp] theorem stashOverflowUb_withArrays (o g : ℕ → UInt64) :
    stashOverflowUb (s.withArrays o g) = stashOverflowUb s := by
  have hloop : ∀ i, stashOverflowUbLoop (s.withArrays o g) i = stashOverflowUbLoop s i := by
    intro i
    induction i with
    | zero => rfl
    | succ i ih =>
      unfold stashOverflowUbLoop
      rw [ih]
      rfl
  exact hloop _

/-- `stash_assign_buckets` keeps the path length. -/
@[simp] theorem stashAssignBuckets_pathLength (s : Stash) (path : TreePath) :
    (stashAssignBuckets s path).pathLength = s.pathLength := by
  unfold stashAssignBuckets
  -- each of the two loops only writes occupancies and assignments
  refine List.foldlRecOn (motive := fun (s' : Stash) => s'.pathLength = s.pathLength) _ _ ?_ ?_
  · refine List.foldlRecOn (motive := fun (s' : Stash) => s'.pathLength = s.pathLength) _ _ rfl ?_
    intro s' hs' level _
    refine List.foldlRecOn (motive := fun (s'' : Stash) => s''.pathLength = s.pathLength) _ _ hs' ?_
    intro s'' hs'' b _
    exact hs''
  · intro s' hs' i _
    exact hs'

/-- Assigning one block only writes the two arrays. -/
theorem stashAssignBlockToBucket_withArrays (o g : ℕ → UInt64) (type : BlockType) (index : ℕ) :
    stashAssignBlockToBucket (s.withArrays o g) path type index =
      s.withArrays (stashAssignBlockToBucket (s.withArrays o g) path type index).bucketOccupancy
        (stashAssignBlockToBucket (s.withArrays o g) path type index).bucketAssignments := rfl

/-- What the assignment arrays `occ`, `asg` of `s` keep through `stash_assign_buckets`: the
occupancy of each level counts the entries assigned to it and is at most `BLOCKS_PER_BUCKET`,
only entries below `lim` are assigned, and an assigned non-empty block fits its level. A level
is read as `asg k` in `ℕ`; `UINT64_MAX` and every other value from `path_length` up mean no
level. -/
structure AssignInv (occ asg : ℕ → UInt64) (lim : ℕ) : Prop where
  occ_le : ∀ ℓ < s.pathLength, (occ ℓ).toNat ≤ 3
  occ_count : ∀ ℓ < s.pathLength,
    (occ ℓ).toNat = (List.range s.numBlocks).countP fun k => (asg k).toNat = ℓ
  lt_lim : ∀ k, (asg k).toNat < s.pathLength → k < lim
  valid : ∀ k, (asg k).toNat < s.pathLength → (s.blocks k).id ≠ EMPTY_BLOCK_ID →
    BlockValidAt path (asg k).toNat (s.blocks k)

/-- During the two greedy passes only non-empty blocks are assigned. -/
structure GreedyInv (occ asg : ℕ → UInt64) (lim : ℕ) : Prop extends AssignInv s path occ asg lim where
  nonempty : ∀ k, (asg k).toNat < s.pathLength → (s.blocks k).id ≠ EMPTY_BLOCK_ID

variable {s path}

theorem AssignInv.mono {occ asg : ℕ → UInt64} {lim lim' : ℕ} (h : AssignInv s path occ asg lim)
    (hl : lim ≤ lim') : AssignInv s path occ asg lim' :=
  { h with lt_lim := fun k hk => lt_of_lt_of_le (h.lt_lim k hk) hl }

/-- Assigning the unassigned entry `a` to a level `ℓ` with room keeps the counts. -/
theorem AssignInv.assign {occ asg : ℕ → UInt64} {lim a ℓ : ℕ} (h : AssignInv s path occ asg lim)
    (hL : s.pathLength < 2 ^ 64) (hℓ : ℓ < s.pathLength) (hfree : ¬(asg a).toNat < s.pathLength)
    (ha : a < lim) (hnum : a < s.numBlocks) (hroom : occ ℓ < BLOCKS_PER_BUCKET)
    (hv : (s.blocks a).id ≠ EMPTY_BLOCK_ID → BlockValidAt path ℓ (s.blocks a)) :
    AssignInv s path (Function.update occ ℓ (occ ℓ + 1))
      (Function.update asg a (UInt64.ofNat ℓ)) lim := by
  have hofNat : (UInt64.ofNat ℓ).toNat = ℓ := UInt64.toNat_ofNat_of_lt (show ℓ < 2 ^ 64 by omega)
  have hroom' : (occ ℓ).toNat < 3 := UInt64.lt_iff_toNat_lt.1 hroom
  have hsucc : (occ ℓ + 1).toNat = (occ ℓ).toNat + 1 := by
    rw [UInt64.toNat_add, UInt64.toNat_one, Nat.mod_eq_of_lt (by omega)]
  refine ⟨fun ℓ' hℓ' => ?_, fun ℓ' hℓ' => ?_, fun k hk => ?_, fun k hk hne => ?_⟩
  · by_cases he : ℓ' = ℓ
    · subst he
      rw [Function.update_self, hsucc]
      omega
    · rw [Function.update_of_ne he]
      exact h.occ_le ℓ' hℓ'
  · have hcount := Count.countP_range_update asg (fun x => decide (x.toNat = ℓ'))
      (UInt64.ofNat ℓ) hnum
    simp only [hofNat, decide_eq_true_eq] at hcount
    rw [if_neg (fun (he : (asg a).toNat = ℓ') => hfree (he ▸ hℓ'))] at hcount
    by_cases he : ℓ' = ℓ
    · subst he
      rw [Function.update_self, hsucc, h.occ_count ℓ' hℓ']
      simp only [if_true] at hcount
      omega
    · rw [Function.update_of_ne he, h.occ_count ℓ' hℓ']
      simp only [Ne.symm he, if_false] at hcount
      omega
  · by_cases hka : k = a
    · exact hka ▸ ha
    · rw [Function.update_of_ne hka] at hk
      exact h.lt_lim k hk
  · by_cases hka : k = a
    · subst hka
      rw [Function.update_self, hofNat]
      exact hv hne
    · rw [Function.update_of_ne hka] at hk ⊢
      exact h.valid k hk hne

/-- One block of a greedy pass keeps the invariant, for any bound `M ≤ path_length` on its
level. -/
theorem GreedyInv.step {occ asg : ℕ → UInt64} {lim : ℕ} (h : GreedyInv s path occ asg lim)
    (hL : s.pathLength < 2 ^ 64) (type : BlockType) (index : ℕ) {M a : ℕ}
    (hM : M = if type = .overflow then s.pathLength else index / 3 + 1)
    (ha : a = if type = .overflow then 3 * s.pathLength + index else index)
    (hML : M ≤ s.pathLength) (hlim : lim ≤ a) (hnum : a < s.numBlocks) :
    let t := stashAssignBlockToBucket (s.withArrays occ asg) path type index
    GreedyInv s path t.bucketOccupancy t.bucketAssignments (a + 1) := by
  intro t
  rcases stashAssignBlockToBucket_cases (s.withArrays occ asg) path type index hM ha with
    ⟨ℓ, hℓ, hne, hv, hroom, ho, hg⟩ | ⟨-, ho, hg⟩
  · simp only [Stash.withArrays_blocks, Stash.withArrays_bucketOccupancy,
      Stash.withArrays_bucketAssignments] at hne hv hroom ho hg hM ha
    refine ⟨?_, fun k hk => ?_⟩
    · rw [ho, hg]
      -- `a` is not assigned yet
      have hfree : ¬(asg a).toNat < s.pathLength := fun h' => absurd (h.lt_lim a h') (by omega)
      exact (h.toAssignInv.mono (Nat.le_succ_of_le hlim)).assign hL (by omega) hfree
        (Nat.lt_succ_self a) hnum hroom fun _ => hv
    · rw [hg] at hk
      by_cases hka : k = a
      · exact hka ▸ hne
      · rw [Function.update_of_ne hka] at hk
        exact h.nonempty k hk
  · simp only [Stash.withArrays_bucketOccupancy, Stash.withArrays_bucketAssignments] at ho hg
    rw [ho, hg]
    exact { h with toAssignInv := h.toAssignInv.mono (by omega) }

variable (s path)

/-- In the path pass the blocks of level `λ` of the path stash are read in index order. -/
structure PathPassInv (occ asg : ℕ → UInt64) (n : ℕ) : Prop extends GreedyInv s path occ asg n where
  own : ∀ k, (asg k).toNat < s.pathLength → (asg k).toNat ≤ k / 3
  done : ∀ k < n, (s.blocks k).id ≠ EMPTY_BLOCK_ID → (asg k).toNat < s.pathLength

/-- Every non-empty block of the path stash is assigned. -/
def PathAssigned (asg : ℕ → UInt64) : Prop :=
  ∀ k < 3 * s.pathLength, (s.blocks k).id ≠ EMPTY_BLOCK_ID → (asg k).toNat < s.pathLength

/-- Before the passes nothing is assigned and no level is occupied. -/
theorem greedyInv_init (hL : s.pathLength < 2 ^ 64) :
    PathPassInv s path (fun _ => 0) (fun _ => UINT64_MAX) 0 := by
  have hmax : ¬UINT64_MAX.toNat < s.pathLength := by
    rw [UINT64_MAX_toNat]
    omega
  refine ⟨⟨⟨fun _ _ => by simp, fun ℓ hℓ => ?_, fun k hk => absurd hk hmax,
    fun k hk => absurd hk hmax⟩, fun k hk => absurd hk hmax⟩, fun k hk => absurd hk hmax,
    fun k hk => absurd hk (Nat.not_lt_zero k)⟩
  rw [UInt64.toNat_zero, eq_comm, List.countP_eq_zero]
  intro k _
  rw [UINT64_MAX_toNat, decide_eq_true_eq]
  omega

variable {s path}

/-- **A path block finds room.** The block at `k` of the path stash fits its own level `k / 3`,
and that level holds only blocks read at it before `k`, at most two. -/
theorem PathPassInv.step {occ asg : ℕ → UInt64} {k : ℕ} (h : PathPassInv s path occ asg k)
    (hL : s.pathLength < 2 ^ 64) (hnum : 3 * s.pathLength ≤ s.numBlocks) (hk : k < 3 * s.pathLength)
    (hpath : (s.blocks k).id ≠ EMPTY_BLOCK_ID → BlockValidAt path (k / 3) (s.blocks k)) :
    let t := stashAssignBlockToBucket (s.withArrays occ asg) path .path k
    PathPassInv s path t.bucketOccupancy t.bucketAssignments (k + 1) := by
  intro t
  have hinv := h.toGreedyInv.step hL .path k (M := k / 3 + 1) (a := k) (by simp) (by simp)
    (by omega) le_rfl (by omega)
  rcases stashAssignBlockToBucket_cases (s.withArrays occ asg) path .path k
      (M := k / 3 + 1) (a := k) (by simp) (by simp) with
    ⟨ℓ, hℓ, -, -, -, -, hg⟩ | ⟨hfit, -, hg⟩
  · simp only [Stash.withArrays_bucketAssignments] at hg
    have hofNat : (UInt64.ofNat ℓ).toNat = ℓ := UInt64.toNat_ofNat_of_lt (show ℓ < 2 ^ 64 by omega)
    refine ⟨hinv, fun j hj => ?_, fun j hj hne => ?_⟩
    · change (t.bucketAssignments j).toNat < _ at hj
      rw [hg] at hj ⊢
      by_cases hjk : j = k
      · subst hjk
        rw [Function.update_self, hofNat]
        omega
      · rw [Function.update_of_ne hjk] at hj ⊢
        exact h.own j hj
    · rw [hg]
      by_cases hjk : j = k
      · subst hjk
        rw [Function.update_self, hofNat]
        omega
      · rw [Function.update_of_ne hjk]
        exact h.done j (by omega) hne
  · simp only [Stash.withArrays_blocks, Stash.withArrays_bucketOccupancy,
      Stash.withArrays_bucketAssignments] at hfit hg
    refine ⟨hinv, fun j hj => ?_, fun j hj hne => ?_⟩
    · change (t.bucketAssignments j).toNat < _ at hj
      rw [hg] at hj ⊢
      exact h.own j hj
    · rw [hg]
      rcases Nat.lt_succ_iff_lt_or_eq.1 hj with hj | rfl
      · exact h.done j hj hne
      -- level `j / 3` would be full, but only the blocks `3 * (j / 3) … j - 1` can be in it
      exfalso
      rcases hfit with hempty | hfull
      · exact hne hempty
      have hocc := UInt64.le_iff_toNat_le.1 (hfull (j / 3) (by omega) (hpath hne))
      rw [BLOCKS_PER_BUCKET_toNat, h.occ_count (j / 3) (by omega)] at hocc
      have hcount := Count.countP_range_le_of_imp
        (fun i => decide ((asg i).toNat = j / 3)) (n := s.numBlocks) (a := 3 * (j / 3)) (b := j)
        fun i _ hi => by
          rw [decide_eq_true_eq] at hi
          have hlt := h.lt_lim i (by omega)
          have hown := h.own i (by omega)
          omega
      omega

/-- An overflow block leaves the path blocks' assignments alone. -/
theorem GreedyInv.overflowStep {occ asg : ℕ → UInt64} {i : ℕ}
    (h : GreedyInv s path occ asg (3 * s.pathLength + i)) (hpa : PathAssigned s asg)
    (hL : s.pathLength < 2 ^ 64) (hnum : 3 * s.pathLength + i < s.numBlocks) :
    let t := stashAssignBlockToBucket (s.withArrays occ asg) path .overflow i
    GreedyInv s path t.bucketOccupancy t.bucketAssignments (3 * s.pathLength + i + 1) ∧
      PathAssigned s t.bucketAssignments := by
  intro t
  refine ⟨h.step hL .overflow i (M := s.pathLength) (by simp) (by simp) le_rfl le_rfl hnum,
    fun k hk hne => ?_⟩
  rcases stashAssignBlockToBucket_cases (s.withArrays occ asg) path .overflow i
      (M := s.pathLength) (a := 3 * s.pathLength + i) (by simp) (by simp) with
    ⟨ℓ, -, -, -, -, -, hg⟩ | ⟨-, -, hg⟩
  · simp only [Stash.withArrays_bucketAssignments] at hg
    rw [hg, Function.update_of_ne (by omega)]
    exact hpa k hk hne
  · simp only [Stash.withArrays_bucketAssignments] at hg
    rw [hg]
    exact hpa k hk hne

end Greedy

/-! ## Filling the buckets with empty blocks -/

/-- The room left in the buckets of the path: `BLOCKS_PER_BUCKET` less each level's occupancy. -/
def freeSlots (occ : ℕ → UInt64) (L : ℕ) : ℕ := ∑ ℓ ∈ Finset.range L, (3 - (occ ℓ).toNat)

/-- The empty blocks of the stash below index `k`. -/
def emptyBelow (s : Stash) (k : ℕ) : ℕ :=
  (List.range k).countP fun j => (s.blocks j).id == EMPTY_BLOCK_ID

theorem freeSlots_eq_zero_iff {occ : ℕ → UInt64} {L : ℕ} :
    freeSlots occ L = 0 ↔ ∀ ℓ < L, 3 ≤ (occ ℓ).toNat := by
  simp only [freeSlots, Finset.sum_eq_zero_iff, Finset.mem_range, Nat.sub_eq_zero_iff_le]

/-- Taking one slot of a level with room. -/
theorem freeSlots_update {occ : ℕ → UInt64} {L j : ℕ} (hj : j < L) (hroom : (occ j).toNat < 3) :
    freeSlots (Function.update occ j (occ j + 1)) L + 1 = freeSlots occ L := by
  have hsucc : (occ j + 1).toNat = (occ j).toNat + 1 := by
    rw [UInt64.toNat_add, UInt64.toNat_one, Nat.mod_eq_of_lt (by omega)]
  have hmem := Finset.mem_range.2 hj
  unfold freeSlots
  rw [← Finset.add_sum_erase _ (fun ℓ => 3 - (Function.update occ j (occ j + 1) ℓ).toNat) hmem,
    ← Finset.add_sum_erase _ (fun ℓ => 3 - (occ ℓ).toNat) hmem]
  have hrest : ∑ ℓ ∈ (Finset.range L).erase j, (3 - (Function.update occ j (occ j + 1) ℓ).toNat) =
      ∑ ℓ ∈ (Finset.range L).erase j, (3 - (occ ℓ).toNat) :=
    Finset.sum_congr rfl fun ℓ hℓ => by rw [Function.update_of_ne (Finset.ne_of_mem_erase hℓ)]
  simp only [Function.update_self, hsucc, hrest]
  omega

theorem emptyBelow_succ (s : Stash) (k : ℕ) :
    emptyBelow s (k + 1) = emptyBelow s k + if (s.blocks k).id = EMPTY_BLOCK_ID then 1 else 0 := by
  simp [emptyBelow, List.range_succ, List.countP_append]

theorem emptyBelow_mono (s : Stash) {k k' : ℕ} (h : k ≤ k') : emptyBelow s k ≤ emptyBelow s k' :=
  (List.range_sublist.2 h).countP_le

/-- The inner loop of `stash_place_empty_blocks`: the first level with room when there is one,
else `curr_bucket` unchanged. -/
theorem firstBucketWithRoom_spec (occ : ℕ → UInt64) {L : ℕ} (curr : UInt64) (hL : L < 2 ^ 64) :
    ((∃ j < L, occ j ≠ BLOCKS_PER_BUCKET) →
        (firstBucketWithRoom occ L curr).toNat < L ∧
          occ (firstBucketWithRoom occ L curr).toNat ≠ BLOCKS_PER_BUCKET) ∧
      ((∀ j < L, occ j = BLOCKS_PER_BUCKET) → firstBucketWithRoom occ L curr = curr) := by
  unfold firstBucketWithRoom
  generalize hr : List.foldl _ _ _ = r
  -- the flag says whether a level with room was met
  let P : ℕ → UInt64 × Bool → Prop := fun n r =>
    (r.2 = false ∧ r.1 = curr ∧ ∀ j < n, occ j = BLOCKS_PER_BUCKET) ∨
      (r.2 = true ∧ r.1.toNat < n ∧ occ r.1.toNat ≠ BLOCKS_PER_BUCKET)
  have key : P L r := by
    rw [← hr]
    refine Fold.foldl_range_inv P (.inl ⟨rfl, rfl, fun j hj => absurd hj (Nat.not_lt_zero j)⟩) ?_
    rintro i ⟨c, found⟩ hi (⟨hf, hc, hfull⟩ | ⟨hf, hc, hroom⟩)
    · dsimp only at hf hc hfull ⊢
      subst hf hc
      by_cases hroom : occ i = BLOCKS_PER_BUCKET
      · simp only [hroom, bne_self_eq_false, Bool.false_and, u64Ternary_eq, Bool.false_eq_true,
          if_false, Bool.false_or]
        refine .inl ⟨rfl, rfl, fun j hj => ?_⟩
        rcases Nat.lt_succ_iff_lt_or_eq.1 hj with hj | rfl
        · exact hfull j hj
        · exact hroom
      · have hofNat : (UInt64.ofNat i).toNat = i := UInt64.toNat_ofNat_of_lt (show i < 2 ^ 64 by omega)
        have hne : (occ i != BLOCKS_PER_BUCKET) = true := bne_iff_ne.2 hroom
        simp only [hne, Bool.not_false, Bool.and_self, u64Ternary_eq, if_true, Bool.true_or]
        refine .inr ⟨rfl, ?_, ?_⟩ <;> simp only [hofNat]
        · omega
        · exact hroom
    · dsimp only at hf hc hroom ⊢
      subst hf
      simp only [Bool.not_true, Bool.and_false, u64Ternary_eq, Bool.false_eq_true, if_false,
        Bool.or_true]
      exact .inr ⟨rfl, Nat.lt_succ_of_lt hc, hroom⟩
  constructor
  · rintro ⟨j, hj, hroom⟩
    rcases key with ⟨-, -, hfull⟩ | ⟨-, hlt, hr⟩
    · exact absurd (hfull j hj) hroom
    · exact ⟨hlt, hr⟩
  · intro hfull
    rcases key with ⟨-, hc, -⟩ | ⟨-, hlt, hr⟩
    · exact hc
    · exact absurd (hfull _ hlt) hr

section Place

variable {s : Stash} {path : TreePath}

/-- **Enough empty blocks in the sorted prefix.** After the greedy passes, with every assigned
entry below `N ≥ 3 * path_length` and every non-empty path block assigned, the free room is at
most the number of empty blocks below `N`: of the `N` entries, the non-empty ones are the
assigned ones and at most `N - 3 * path_length` unassigned overflow blocks. -/
theorem freeSlots_le_emptyBelow {occ asg : ℕ → UInt64} {N : ℕ} (h : GreedyInv s path occ asg N)
    (hpa : PathAssigned s asg) (hN : 3 * s.pathLength ≤ N) (hNn : N ≤ s.numBlocks) :
    freeSlots occ s.pathLength ≤ emptyBelow s N := by
  set L := s.pathLength
  -- the occupancies count the assigned entries, all of which lie below `N`
  have hA : ∑ ℓ ∈ Finset.range L, (occ ℓ).toNat =
      (List.range N).countP fun k => decide ((asg k).toNat < L) := by
    rw [← Count.countP_range_of_le _ hNn fun k hk _ => decide_eq_false fun h' => by
        have := h.lt_lim k h'
        omega,
      Count.countP_range_lt_eq_sum (fun k => (asg k).toNat)]
    exact Finset.sum_congr rfl fun ℓ hℓ => h.occ_count ℓ (Finset.mem_range.1 hℓ)
  have hAle : ∑ ℓ ∈ Finset.range L, (occ ℓ).toNat ≤ 3 * L := by
    calc ∑ ℓ ∈ Finset.range L, (occ ℓ).toNat ≤ ∑ _ℓ ∈ Finset.range L, 3 :=
          Finset.sum_le_sum fun ℓ hℓ => h.occ_le ℓ (Finset.mem_range.1 hℓ)
      _ = 3 * L := by rw [Finset.sum_const, Finset.card_range, smul_eq_mul, mul_comm]
  have hfree : freeSlots occ L = 3 * L - ∑ ℓ ∈ Finset.range L, (occ ℓ).toNat := by
    unfold freeSlots
    rw [Finset.sum_tsub_distrib _ fun ℓ hℓ => h.occ_le ℓ (Finset.mem_range.1 hℓ),
      Finset.sum_const, Finset.card_range, smul_eq_mul, mul_comm]
  -- a non-empty entry below `N` is assigned, or an overflow entry
  have hne : (List.range N).countP (fun k => decide ¬((s.blocks k).id == EMPTY_BLOCK_ID) = true) ≤
      (List.range N).countP (fun k => decide ((asg k).toNat < L)) + (N - 3 * L) := by
    have hover := Count.countP_range_le_of_imp (fun k => decide (3 * L ≤ k)) (n := N) (a := 3 * L)
      (b := N) fun k hk h' => ⟨of_decide_eq_true h', hk⟩
    have hsplit := Count.countP_le_add_of_imp (fun k => decide ¬((s.blocks k).id == EMPTY_BLOCK_ID) = true)
      (fun k => decide ((asg k).toNat < L)) (fun k => decide (3 * L ≤ k)) (l := List.range N)
      fun k _ hk => by
        simp only [beq_iff_eq, decide_eq_true_eq] at hk ⊢
        by_cases hkL : k < 3 * L
        · exact .inl (hpa k hkL hk)
        · exact .inr (by omega)
    omega
  have htotal := List.length_eq_countP_add_countP (fun k => (s.blocks k).id == EMPTY_BLOCK_ID)
    (l := List.range N)
  rw [List.length_range] at htotal
  unfold emptyBelow
  omega

variable (s path)

/-- What `stash_place_empty_blocks` keeps after `n` entries, from the arrays `occ₂`, `asg₂` of
the greedy passes: the counts, a current bucket of the path, the entries from `n` on untouched,
every changed entry an empty block placed while there was room, and the room used up by the
empty blocks met so far. -/
structure PlaceInv (occ₂ asg₂ : ℕ → UInt64) (n : ℕ) (occ asg : ℕ → UInt64) (curr : UInt64) :
    Prop where
  inv : AssignInv s path occ asg s.numBlocks
  curr_lt : curr.toNat < s.pathLength
  frame : ∀ k, n ≤ k → asg k = asg₂ k
  placed : ∀ k, asg k ≠ asg₂ k →
    (s.blocks k).id = EMPTY_BLOCK_ID ∧ emptyBelow s k < freeSlots occ₂ s.pathLength
  free_eq : freeSlots occ s.pathLength =
    freeSlots occ₂ s.pathLength - min (freeSlots occ₂ s.pathLength) (emptyBelow s n)

variable {s path}

/-- One entry of `stash_place_empty_blocks`: an empty block takes the first level with room;
when every level is full, `curr_bucket` is full too and nothing is placed. -/
theorem PlaceInv.step {occ₂ asg₂ occ asg : ℕ → UInt64} {curr : UInt64} {n : ℕ}
    (h : PlaceInv s path occ₂ asg₂ n occ asg curr) (hL : s.pathLength < 2 ^ 64)
    (hn : n < s.numBlocks) (hne₂ : ∀ k, (asg₂ k).toNat < s.pathLength → (s.blocks k).id ≠ EMPTY_BLOCK_ID) :
    let c := firstBucketWithRoom occ s.pathLength curr
    let cond := decide (occ c.toNat < BLOCKS_PER_BUCKET) && (s.blocks n).id == EMPTY_BLOCK_ID
    PlaceInv s path occ₂ asg₂ (n + 1) (condObvCpyU64 cond occ c.toNat (occ c.toNat + 1))
      (condObvCpyU64 cond asg n c) c := by
  intro c cond
  obtain ⟨hroomSpec, hfullSpec⟩ := firstBucketWithRoom_spec occ curr hL
  have hE := emptyBelow_succ s n
  have hfe := h.free_eq
  by_cases hfull : ∀ j < s.pathLength, occ j = BLOCKS_PER_BUCKET
  · -- every level is full: `curr_bucket` keeps its full level and nothing is placed
    have hc : c = curr := hfullSpec hfull
    have hcond : cond = false := by
      simp [cond, hc, hfull _ h.curr_lt, UInt64.lt_irrefl]
    have hzero : freeSlots occ s.pathLength = 0 :=
      freeSlots_eq_zero_iff.2 fun ℓ hℓ => by rw [hfull ℓ hℓ]; decide
    simp only [hcond, condObvCpyU64_eq, Bool.false_eq_true, if_false]
    refine ⟨h.inv, hc ▸ h.curr_lt, fun k hk => h.frame k (by omega), h.placed, ?_⟩
    split_ifs at hE <;> omega
  have hsome : ∃ j < s.pathLength, occ j ≠ BLOCKS_PER_BUCKET := by
    by_contra hno
    exact hfull fun j hj => by_contra fun hj' => hno ⟨j, hj, hj'⟩
  have hcL : c.toNat < s.pathLength := (hroomSpec hsome).1
  have hcroom : occ c.toNat ≠ BLOCKS_PER_BUCKET := (hroomSpec hsome).2
  have hroom : occ c.toNat < BLOCKS_PER_BUCKET := by
    have hle := h.inv.occ_le _ hcL
    have hne : (occ c.toNat).toNat ≠ 3 := fun he => hcroom (UInt64.toNat_inj.1 he)
    exact UInt64.lt_iff_toNat_lt.2 (by rw [BLOCKS_PER_BUCKET_toNat]; omega)
  have hpos : 0 < freeSlots occ s.pathLength := by
    refine Nat.pos_of_ne_zero fun hz => ?_
    have := freeSlots_eq_zero_iff.1 hz c.toNat hcL
    have := UInt64.lt_iff_toNat_lt.1 hroom
    rw [BLOCKS_PER_BUCKET_toNat] at this
    omega
  by_cases hemp : (s.blocks n).id = EMPTY_BLOCK_ID
  · -- an empty block takes the first level with room
    have hcond : cond = true := by simp [cond, hroom, hemp]
    simp only [hcond, condObvCpyU64_eq, if_true]
    have hn₂ : asg n = asg₂ n := h.frame n le_rfl
    have hfree : ¬(asg n).toNat < s.pathLength := fun h' => hne₂ n (hn₂ ▸ h') hemp
    have hlt : emptyBelow s n < freeSlots occ₂ s.pathLength := by omega
    have hinv := h.inv.assign hL hcL hfree hn hn hroom fun hne => absurd hemp hne
    rw [UInt64.ofNat_toNat] at hinv
    refine ⟨hinv, hcL, fun k hk => ?_, fun k hk => ?_, ?_⟩
    · rw [Function.update_of_ne (by omega)]
      exact h.frame k (by omega)
    · by_cases hkn : k = n
      · exact hkn ▸ ⟨hemp, hlt⟩
      · rw [Function.update_of_ne hkn] at hk
        exact h.placed k hk
    · have hu := freeSlots_update hcL (UInt64.lt_iff_toNat_lt.1 hroom)
      rw [if_pos hemp] at hE
      omega
  · have hcond : cond = false := by simp [cond, hemp]
    simp only [hcond, condObvCpyU64_eq, Bool.false_eq_true, if_false]
    refine ⟨h.inv, hcL, fun k hk => h.frame k (by omega), h.placed, ?_⟩
    rw [if_neg hemp] at hE
    omega

/-- **`stash_place_empty_blocks` fills every bucket from the prefix.** After the greedy passes
(assigned entries below `N`), the empty blocks placed in index order fill every level, all of
them below `N`, and the non-empty blocks keep their levels. -/
theorem placePass_spec (hL : s.pathLength < 2 ^ 64) (hL0 : 0 < s.pathLength)
    {occ asg : ℕ → UInt64} {N : ℕ} (h : GreedyInv s path occ asg N) (hpa : PathAssigned s asg)
    (hN : 3 * s.pathLength ≤ N) (hNn : N ≤ s.numBlocks) :
    ∃ occ' asg', stashPlaceEmptyBlocks (s.withArrays occ asg) = s.withArrays occ' asg' ∧
      AssignInv s path occ' asg' N ∧ (∀ ℓ < s.pathLength, occ' ℓ = BLOCKS_PER_BUCKET) ∧
      PathAssigned s asg' := by
  have hfit := freeSlots_le_emptyBelow h hpa hN hNn
  unfold stashPlaceEmptyBlocks
  dsimp only
  generalize hr : List.foldl _ _ _ = r
  have key : PlaceInv s path occ asg s.numBlocks r.1 r.2.1 r.2.2 := by
    rw [← hr]
    refine Fold.foldl_range_inv
      (fun n (r : (ℕ → UInt64) × (ℕ → UInt64) × UInt64) => PlaceInv s path occ asg n r.1 r.2.1 r.2.2)
      ⟨h.toAssignInv.mono hNn, by rw [UInt64.toNat_zero]; exact hL0, fun _ _ => rfl,
        fun k hk => absurd rfl hk, by simp [emptyBelow]⟩ ?_
    rintro i ⟨o, g, c⟩ hi hP
    exact hP.step hL hi h.nonempty
  -- the empty blocks met reach the free room before `N`, so it is used up
  have hzero : freeSlots r.1 s.pathLength = 0 := by
    have := key.free_eq
    have := emptyBelow_mono s hNn
    omega
  have hchanged : ∀ k, r.2.1 k ≠ asg k → (s.blocks k).id = EMPTY_BLOCK_ID ∧ k < N := by
    intro k hk
    obtain ⟨hemp, hlt⟩ := key.placed k hk
    refine ⟨hemp, Nat.lt_of_not_le fun hNk => ?_⟩
    have := emptyBelow_mono s hNk
    omega
  refine ⟨r.1, r.2.1, rfl, ⟨key.inv.occ_le, key.inv.occ_count, fun k hk => ?_, fun k hk hne => ?_⟩,
    fun ℓ hℓ => ?_, fun k hk hne => ?_⟩
  · by_cases hkc : r.2.1 k = asg k
    · exact h.lt_lim k (hkc ▸ hk)
    · exact (hchanged k hkc).2
  · by_cases hkc : r.2.1 k = asg k
    · rw [hkc] at hk ⊢
      exact h.valid k hk hne
    · exact absurd (hchanged k hkc).1 hne
  · have h3 := freeSlots_eq_zero_iff.1 hzero ℓ hℓ
    have hle := key.inv.occ_le ℓ hℓ
    exact UInt64.toNat_inj.1 (by rw [BLOCKS_PER_BUCKET_toNat]; omega)
  · by_cases hkc : r.2.1 k = asg k
    · rw [hkc]
      exact hpa k hk hne
    · exact absurd (hchanged k hkc).1 hne

end Place

/-- **`stash_assign_buckets`**: every level of the path gets exactly `BLOCKS_PER_BUCKET` entries,
all in the path stash or the used overflow; every non-empty path block is assigned, and every
assigned non-empty block fits its level. -/
theorem stashAssignBuckets_spec {s : Stash} (hwf : s.WellFormed) (hL0 : 0 < s.pathLength)
    (path : TreePath) (hpath : ∀ k < 3 * s.pathLength, (s.blocks k).id ≠ EMPTY_BLOCK_ID →
      BlockValidAt path (k / 3) (s.blocks k)) :
    ∃ occ asg, stashAssignBuckets s path = s.withArrays occ asg ∧
      AssignInv s path occ asg (3 * s.pathLength + stashOverflowUb s) ∧
      (∀ ℓ < s.pathLength, occ ℓ = BLOCKS_PER_BUCKET) ∧ PathAssigned s asg := by
  have hnum := hwf.numBlocks_eq
  rw [BLOCKS_PER_BUCKET_toNat] at hnum
  have hL : s.pathLength < 2 ^ 64 := by
    have := hwf.numBlocks_lt
    omega
  have hub := stashOverflowUb_le s
  unfold stashAssignBuckets
  dsimp only
  generalize h1 : List.foldl _ _ (List.range s.pathLength) = t1
  -- the path pass, level by level and within a level block by block
  have hp1 : ∃ occ asg, t1 = s.withArrays occ asg ∧ PathPassInv s path occ asg (3 * s.pathLength) := by
    rw [← h1]
    refine Fold.foldl_range_inv
      (fun n t => ∃ occ asg, t = s.withArrays occ asg ∧ PathPassInv s path occ asg (3 * n))
      ⟨_, _, rfl, greedyInv_init s path hL⟩ ?_
    rintro lvl t hlvl ⟨occ, asg, rfl, hinv⟩
    have key := Fold.foldl_range_inv
      (F := fun t b => stashAssignBlockToBucket t path .path (lvl * BLOCKS_PER_BUCKET.toNat + b))
      (a := s.withArrays occ asg) (n := BLOCKS_PER_BUCKET.toNat)
      (fun b t => ∃ occ asg, t = s.withArrays occ asg ∧ PathPassInv s path occ asg (3 * lvl + b))
      ⟨occ, asg, rfl, hinv⟩ ?_
    · obtain ⟨o, g, he, hi⟩ := key
      refine ⟨o, g, he, ?_⟩
      rwa [show 3 * (lvl + 1) = 3 * lvl + BLOCKS_PER_BUCKET.toNat by
        rw [BLOCKS_PER_BUCKET_toNat]; ring]
    · rintro b t hb ⟨occ, asg, rfl, hinv⟩
      rw [stashAssignBlockToBucket_withArrays]
      refine ⟨_, _, rfl, ?_⟩
      rw [BLOCKS_PER_BUCKET_toNat] at hb ⊢
      have hk : lvl * 3 + b < 3 * s.pathLength := by omega
      have hstep := (show lvl * 3 + b = 3 * lvl + b by ring) ▸ hinv
      rw [show 3 * lvl + (b + 1) = lvl * 3 + b + 1 by ring]
      exact hstep.step hL (by omega) hk (hpath _ hk)
  obtain ⟨occ1, asg1, rfl, hp1⟩ := hp1
  rw [stashOverflowUb_withArrays]
  generalize h2 : List.foldl _ (s.withArrays occ1 asg1) _ = t2
  -- the overflow pass over the used overflow
  have hp2 : ∃ occ asg, t2 = s.withArrays occ asg ∧
      GreedyInv s path occ asg (3 * s.pathLength + stashOverflowUb s) ∧ PathAssigned s asg := by
    rw [← h2]
    refine Fold.foldl_range_inv (fun i t => ∃ occ asg, t = s.withArrays occ asg ∧
        GreedyInv s path occ asg (3 * s.pathLength + i) ∧ PathAssigned s asg)
      ⟨occ1, asg1, rfl, hp1.toGreedyInv, hp1.done⟩ ?_
    rintro i t hi ⟨occ, asg, rfl, hinv, hpa⟩
    rw [stashAssignBlockToBucket_withArrays]
    obtain ⟨h', hpa'⟩ := hinv.overflowStep hpa hL (by omega)
    exact ⟨_, _, rfl, h', hpa'⟩
  obtain ⟨occ2, asg2, rfl, hp2, hpa2⟩ := hp2
  exact placePass_spec hL hL0 hp2 hpa2 (by omega) (by omega)

/-! ## The sort -/

/-- The order of `comp_blocks`: the assignment, then the position. -/
def blockSortKey (x : Block × UInt64) : ℕ ×ₗ ℕ := toLex (x.2.toNat, x.1.position.toNat)

/-- `comp_blocks(x, y)` holds when `y` comes before `x`. -/
theorem compBlocks_eq (x y : Block × UInt64) :
    compBlocks x y = decide (blockSortKey y < blockSortKey x) := by
  rw [Bool.eq_iff_iff]
  simp only [compBlocks, blockSortKey, Prod.Lex.toLex_lt_toLex, gt_iff_lt, Bool.or_eq_true,
    Bool.and_eq_true, decide_eq_true_eq, beq_iff_eq, UInt64.lt_iff_toNat_lt, ← UInt64.toNat_inj]
  constructor
  · rintro (h | ⟨h₁, h₂⟩)
    · exact .inl h
    · exact .inr ⟨h₁.symm, h₂⟩
  · rintro (h | ⟨h₁, h₂⟩)
    · exact .inl h
    · exact .inr ⟨h₁.symm, h₂⟩

/-- The ascending sort with `comp_blocks` is the sort of the keys, up to equal keys. -/
theorem compBlocks_key (x y : Block × UInt64) :
    decide (blockSortKey x < blockSortKey y) = (compBlocks x y ^^ true) ∨
      blockSortKey x = blockSortKey y := by
  rw [compBlocks_eq, Bool.xor_true]
  by_cases h : blockSortKey x = blockSortKey y
  · exact .inr h
  · refine .inl ?_
    rcases lt_or_gt_of_ne h with hlt | hgt
    · simp [hlt, not_lt_of_gt hlt]
    · simp [hgt, not_lt_of_gt hgt]

/-- **The stash's bitonic sort orders the keys**, on every range: `bitonic_sort(…, true)` with
`comp_blocks` leaves (assignment, position) ascending. -/
theorem blockSortKey_sortedOn (f : ℕ → Block × UInt64) (lb ub : ℕ) :
    SortedOn (blockSortKey ∘ sort compBlocks true f lb ub) lb ub := by
  have hcomm := comp_sort (fun a b => decide (a < b)) blockSortKey compBlocks_key true f lb ub
  rw [hcomm]
  exact sort_sortedOn (blockSortKey ∘ f) lb ub

/-- **The level of an entry after the sort.** With `3` entries of each level below `L` among
the first `N`, the sorted entry `k < N` has a level below `c ≤ L` exactly when `k < 3 * c`. -/
theorem sortedLevel_iff (f : ℕ → Block × UInt64) {L N : ℕ}
    (hcount : ∀ ℓ < L, (List.range N).countP (fun k => (f k).2.toNat = ℓ) = 3) {c k : ℕ}
    (hc : c ≤ L) (hk : k < N) :
    (sort compBlocks true f 0 N k).2.toNat < c ↔ k < 3 * c := by
  set g := sort compBlocks true f 0 N
  have hperm := (@sort_permOn _ compBlocks true f 0 N).perm_map_range
  -- the sort keeps the number of entries of each level
  have hcount' : ∀ ℓ < L, (List.range N).countP (fun k => (g k).2.toNat = ℓ) = 3 := by
    intro ℓ hℓ
    have := hperm.countP_eq (fun x => decide (x.2.toNat = ℓ))
    rw [List.countP_map, List.countP_map] at this
    rw [← hcount ℓ hℓ]
    exact this
  -- the levels ascend, so the entries below level `c` come first
  have hdown : ∀ i j, i ≤ j → j < N → decide ((g j).2.toNat < c) = true →
      decide ((g i).2.toNat < c) = true := by
    intro i j hij hj h
    rw [decide_eq_true_eq] at h ⊢
    exact lt_of_le_of_lt
      (Prod.Lex.monotone_fst _ _ (blockSortKey_sortedOn f 0 N i j (Nat.zero_le i) hij hj)) h
  have hnum : (List.range N).countP (fun k => decide ((g k).2.toNat < c)) = 3 * c := by
    rw [Count.countP_range_lt_eq_sum (fun k => (g k).2.toNat),
      Finset.sum_congr rfl fun ℓ hℓ => hcount' ℓ (by rw [Finset.mem_range] at hℓ; omega),
      Finset.sum_const, Finset.card_range, smul_eq_mul, mul_comm]
  have h := Count.countP_range_iff_of_downward _ hdown k hk
  rwa [hnum, decide_eq_true_eq] at h

/-- **`bitonic_sort` of the stash sorts every range**: `bitonic_sort(blocks, assignments, lb, ub,
true)` permutes `[lb, ub)` of both arrays by one permutation and leaves the pairs
(assignment, position) ascending, for every length. -/
theorem bitonicSort_sorts_blocks (blocks : ℕ → Block) (assignments : ℕ → UInt64) (lb ub : ℕ) :
    (∃ σ : Equiv.Perm ℕ, (∀ k, (k < lb ∨ ub ≤ k) → σ k = k) ∧ ∀ k,
      (sort compBlocks true (fun k => (blocks k, assignments k)) lb ub k).1 = blocks (σ k) ∧
      (sort compBlocks true (fun k => (blocks k, assignments k)) lb ub k).2 = assignments (σ k)) ∧
    ∀ i j, lb ≤ i → i ≤ j → j < ub →
      toLex ((sort compBlocks true (fun k => (blocks k, assignments k)) lb ub i).2.toNat,
          (sort compBlocks true (fun k => (blocks k, assignments k)) lb ub i).1.position.toNat) ≤
        toLex ((sort compBlocks true (fun k => (blocks k, assignments k)) lb ub j).2.toNat,
          (sort compBlocks true (fun k => (blocks k, assignments k)) lb ub j).1.position.toNat) := by
  obtain ⟨σ, hσ, heq⟩ := @sort_permOn _ compBlocks true (fun k => (blocks k, assignments k)) lb ub
  refine ⟨⟨σ, hσ, fun k => ?_⟩, blockSortKey_sortedOn _ lb ub⟩
  rw [heq]
  exact ⟨rfl, rfl⟩

/-! ## The path `stash_build_path` lays out -/

/-- The non-empty blocks a filter keeps are the first components of the pairs it keeps, when
every non-empty block has a level below `L`. -/
theorem map_fst_filter_level (f : ℕ → Block × UInt64) (L : ℕ) :
    ∀ l : List ℕ, (∀ k ∈ l, (f k).1.id ≠ EMPTY_BLOCK_ID → (f k).2.toNat < L) →
      ((l.map f).filter fun x => x.1.id != EMPTY_BLOCK_ID && decide (x.2.toNat < L)).map Prod.fst =
        (l.map fun k => (f k).1).filter fun b => b.id != EMPTY_BLOCK_ID
  | [], _ => rfl
  | k :: l, h => by
    have ih := map_fst_filter_level f L l fun j hj => h j (List.mem_cons_of_mem k hj)
    simp only [List.map_cons, List.filter_cons]
    by_cases hne : (f k).1.id = EMPTY_BLOCK_ID
    · simp [hne, ih]
    · have hlt := h k List.mem_cons_self hne
      simp [hne, hlt, ih]

/-- **`stash_build_path` places the path.** For a well-formed stash whose path blocks fit the
buckets of the path they were read at, after `stash_build_path`: the path stash and the overflow
hold the same non-empty blocks; every non-empty block of `path_blocks[3i .. 3i + 3)` fits
bucket `p[i]`; and every non-empty block of the path stash is still in it. -/
theorem stashBuildPath_places_path {s : Stash} (hwf : s.WellFormed) (path : TreePath)
    (hpath : ∀ k < BLOCKS_PER_BUCKET.toNat * s.pathLength, (s.blocks k).id ≠ EMPTY_BLOCK_ID →
      BlockValidAt path (k / BLOCKS_PER_BUCKET.toNat) (s.blocks k)) :
    (((List.range (BLOCKS_PER_BUCKET.toNat * s.pathLength + s.overflowCapacity)).map
        (stashBuildPath s path).blocks).filter fun b => b.id != EMPTY_BLOCK_ID).Perm
      (((List.range (BLOCKS_PER_BUCKET.toNat * s.pathLength + s.overflowCapacity)).map
        s.blocks).filter fun b => b.id != EMPTY_BLOCK_ID) ∧
    (∀ i < s.pathLength, ∀ k, BLOCKS_PER_BUCKET.toNat * i ≤ k →
      k < BLOCKS_PER_BUCKET.toNat * (i + 1) → ((stashBuildPath s path).blocks k).id ≠ EMPTY_BLOCK_ID →
        BlockValidAt path i ((stashBuildPath s path).blocks k)) ∧
    (((List.range (BLOCKS_PER_BUCKET.toNat * s.pathLength)).map s.blocks).filter
        fun b => b.id != EMPTY_BLOCK_ID).Subperm
      (((List.range (BLOCKS_PER_BUCKET.toNat * s.pathLength)).map
        (stashBuildPath s path).blocks).filter fun b => b.id != EMPTY_BLOCK_ID) := by
  have hs' : (stashBuildPath s path).blocks = fun k => (sort compBlocks true
      (fun k => ((stashAssignBuckets s path).blocks k, (stashAssignBuckets s path).bucketAssignments k))
      0 (BLOCKS_PER_BUCKET.toNat * (stashAssignBuckets s path).pathLength + stashOverflowUb s) k).1 :=
    rfl
  rw [hs', stashAssignBuckets_blocks, stashAssignBuckets_pathLength]
  simp only [BLOCKS_PER_BUCKET_toNat] at hpath ⊢
  set asg := (stashAssignBuckets s path).bucketAssignments
  set N := 3 * s.pathLength + stashOverflowUb s
  set g := sort compBlocks true (fun k => (s.blocks k, asg k)) 0 N
  have hNdef : N = 3 * s.pathLength + stashOverflowUb s := rfl
  have hub := stashOverflowUb_le s
  have hperm : PermOn 0 N (fun k => (s.blocks k, asg k)) g :=
    @sort_permOn _ compBlocks true (fun k => (s.blocks k, asg k)) 0 N
  -- the sort permutes the path stash and the used overflow and leaves the rest
  have hregion : ((List.range (3 * s.pathLength + s.overflowCapacity)).map g).Perm
      ((List.range (3 * s.pathLength + s.overflowCapacity)).map fun k => (s.blocks k, asg k)) :=
    (hperm.mono le_rfl (by omega)).perm_map_range
  refine ⟨?_, ?_⟩
  · have := (hregion.map Prod.fst).filter fun b => b.id != EMPTY_BLOCK_ID
    simpa only [List.map_map, Function.comp_def] using this
  rcases Nat.eq_zero_or_pos s.pathLength with hL0 | hL0
  · -- no path: nothing to place
    refine ⟨fun i hi => absurd hi (by omega), ?_⟩
    simp [hL0]
  obtain ⟨occ, asg', heq, hinv, hfull, hpa⟩ := stashAssignBuckets_spec hwf hL0 path hpath
  have hasg : asg = asg' := by
    change (stashAssignBuckets s path).bucketAssignments = asg'
    rw [heq]
    rfl
  have hnum := hwf.numBlocks_eq
  rw [BLOCKS_PER_BUCKET_toNat] at hnum
  -- three entries of each level below `N`
  have hcount : ∀ ℓ < s.pathLength,
      (List.range N).countP (fun k => ((s.blocks k, asg k).2).toNat = ℓ) = 3 := by
    intro ℓ hℓ
    have hocc := hinv.occ_count ℓ hℓ
    rw [hfull ℓ hℓ, BLOCKS_PER_BUCKET_toNat, Count.countP_range_of_le _ (show N ≤ s.numBlocks by omega)
      fun k hk _ => decide_eq_false fun h' => by
        have := hinv.lt_lim k (by omega)
        omega] at hocc
    rw [hasg]
    exact hocc.symm
  have hlevel : ∀ {c k}, c ≤ s.pathLength → k < N → ((g k).2.toNat < c ↔ k < 3 * c) :=
    fun hc hk => sortedLevel_iff _ hcount hc hk
  refine ⟨fun i hi k hk₁ hk₂ hne => ?_, ?_⟩
  · -- the entry has level `i`; it came from an entry of level `i`, which fits bucket `p[i]`
    have hkN : k < N := by omega
    have hi₁ := (hlevel (c := i + 1) (by omega) hkN).2 (by omega)
    have hi₂ := mt (hlevel (c := i) (by omega) hkN).1 (by omega)
    obtain ⟨y, -, hy, hgy⟩ := hperm.exists_mem (Nat.zero_le k) hkN
    rw [hgy] at hi₁ hi₂ hne ⊢
    dsimp only at hi₁ hi₂ hne ⊢
    rw [hasg] at hi₁ hi₂
    have hyi : (asg' y).toNat = i := by omega
    have := hinv.valid y (by omega) hne
    rwa [hyi] at this
  · -- the path stash's non-empty blocks are assigned; after the sort the assigned entries are
    -- the first `3 * path_length`
    set Q : Block × UInt64 → Bool := fun x => x.1.id != EMPTY_BLOCK_ID && decide (x.2.toNat < s.pathLength)
    have hbefore := map_fst_filter_level (fun k => (s.blocks k, asg k)) s.pathLength
      (List.range (3 * s.pathLength)) fun k hk hne => by
        rw [hasg]
        exact hpa k (List.mem_range.1 hk) hne
    have hafter := map_fst_filter_level g s.pathLength (List.range (3 * s.pathLength))
      fun k hk _ => (hlevel le_rfl (by rw [List.mem_range] at hk; omega)).2 (List.mem_range.1 hk)
    have htail : ((List.range N).map g).filter Q = ((List.range (3 * s.pathLength)).map g).filter Q := by
      have hnil : ((List.range (stashOverflowUb s)).map (fun j => 3 * s.pathLength + j) |>.map g).filter Q =
          [] := by
        refine List.filter_eq_nil_iff.2 fun x hx => ?_
        simp only [List.map_map, List.mem_map, List.mem_range, Function.comp_apply] at hx
        obtain ⟨j, hj, rfl⟩ := hx
        have := mt (hlevel (c := s.pathLength) (k := 3 * s.pathLength + j) le_rfl (by omega)).1
          (by omega)
        simp [Q, this]
      rw [show N = 3 * s.pathLength + stashOverflowUb s from rfl, List.range_add, List.map_append,
        List.filter_append, hnil, List.append_nil]
    have hsub : (((List.range (3 * s.pathLength)).map fun k => (s.blocks k, asg k)).filter Q).Sublist
        (((List.range N).map fun k => (s.blocks k, asg k)).filter Q) :=
      ((List.range_sublist.2 (by omega)).map _).filter Q
    have hperm' := (hperm.perm_map_range.filter Q).symm
    rw [htail] at hperm'
    rw [← hbefore, ← hafter]
    exact (hsub.map Prod.fst).subperm.trans (hperm'.map Prod.fst).subperm

/-- A stash of two levels with one block at each, read at the levels that cover them. -/
theorem stashBuildPath_places_path_two_levels :
    let s : Stash := ⟨fun k => if k = 0 then ⟨5, 2, []⟩ else if k = 3 then ⟨7, 0, []⟩ else Block.empty,
      8, 2, 2, fun _ => 0, fun _ => 0⟩
    let path : TreePath := ⟨2, fun k => if k = 0 then 2 else 1⟩
    s.WellFormed ∧
      (∀ k < BLOCKS_PER_BUCKET.toNat * s.pathLength, (s.blocks k).id ≠ EMPTY_BLOCK_ID →
        BlockValidAt path (k / BLOCKS_PER_BUCKET.toNat) (s.blocks k)) ∧
      ((((List.range (BLOCKS_PER_BUCKET.toNat * s.pathLength + s.overflowCapacity)).map
          (stashBuildPath s path).blocks).filter fun b => b.id != EMPTY_BLOCK_ID).Perm
        (((List.range (BLOCKS_PER_BUCKET.toNat * s.pathLength + s.overflowCapacity)).map
          s.blocks).filter fun b => b.id != EMPTY_BLOCK_ID) ∧
      (∀ i < s.pathLength, ∀ k, BLOCKS_PER_BUCKET.toNat * i ≤ k →
        k < BLOCKS_PER_BUCKET.toNat * (i + 1) → ((stashBuildPath s path).blocks k).id ≠ EMPTY_BLOCK_ID →
          BlockValidAt path i ((stashBuildPath s path).blocks k)) ∧
      (((List.range (BLOCKS_PER_BUCKET.toNat * s.pathLength)).map s.blocks).filter
          fun b => b.id != EMPTY_BLOCK_ID).Subperm
        (((List.range (BLOCKS_PER_BUCKET.toNat * s.pathLength)).map
          (stashBuildPath s path).blocks).filter fun b => b.id != EMPTY_BLOCK_ID)) := by
  intro s path
  have hwf : s.WellFormed := ⟨rfl, by decide⟩
  have hpath : ∀ k < BLOCKS_PER_BUCKET.toNat * s.pathLength, (s.blocks k).id ≠ EMPTY_BLOCK_ID →
      BlockValidAt path (k / BLOCKS_PER_BUCKET.toNat) (s.blocks k) := by
    decide
  exact ⟨hwf, hpath, stashBuildPath_places_path hwf path hpath⟩

end ContactDiscovery
