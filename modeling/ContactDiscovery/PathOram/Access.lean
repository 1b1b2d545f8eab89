import Mathlib
import ContactDiscovery.PathOram.Oram
import ContactDiscovery.PathOram.BuildPath
import ContactDiscovery.Lib.Fold
import ContactDiscovery.Lib.Buckets
import ContactDiscovery.Lib.Keyed

/-!
# One access of the Path ORAM, step by step (`path_oram/path_oram.c`, `path_oram/stash.c`)

`oram_access` swaps a new leaf into the position map, loads the buckets of the old leaf's path
into the path stash while it swaps the target block out, scans the overflow the same way, hands
the target to the accessor, puts it into the overflow, rebuilds the path and writes it back.
Each step is specified here on the whole array it works on, as a function of what it read;
`PathOram/Refinement.lean` composes them.

* `positionMapReadThenSet_eq` — the oblivious scan of `scan_position_map_set` is the plain read
  and write of entry `block_id`;
* `swapOutTarget_loop_eq` — the target search over a range, when at most one entry carries the
  target's id, swaps the target into that entry and takes the entry;
* `readPathBuckets_eq`, `oramReadPathForBlock_eq` — after the read the path stash holds the
  path's buckets, the entry with the target's id is empty, and the target is that entry's block;
* `stashAddBlock_cases` — the block goes to the first empty overflow slot, or to the first of
  `STASH_GROWTH_INCREMENT` new ones;
* `stashBuildPath_spec` — the rebuild permutes the path stash and the overflow and leaves in the
  path stash only blocks that fit their level's bucket;
* `writePath_spec` — the write-back copies the path stash into the path's buckets and leaves the
  other buckets alone.
-/

set_option autoImplicit false

namespace ContactDiscovery

/-! ## The position map -/

theorem ofNat_beq_iff {n : ℕ} (hn : n < 2 ^ 64) (b : UInt64) :
    (UInt64.ofNat n == b) = true ↔ n = b.toNat := by
  rw [beq_iff_eq]
  constructor
  · rintro rfl
    exact (UInt64.toNat_ofNat_of_lt' hn).symm
  · rintro rfl
    exact UInt64.ofNat_toNat

/-- The scan of `scan_position_map_set` over the first `n` entries: it swaps `position` in at
`block_id`, once it has passed it, and takes the previous entry out. -/
theorem scanPositionMapSetLoop_eq (blockId p : UInt64) (data : ℕ → UInt64) :
    ∀ n, n ≤ 2 ^ 64 → scanPositionMapSetLoop blockId n (p, data) =
      if blockId.toNat < n then (data blockId.toNat, Function.update data blockId.toNat p)
      else (p, data)
  | 0, _ => by simp [scanPositionMapSetLoop]
  | n + 1, hn => by
    have ih := scanPositionMapSetLoop_eq blockId p data n (by omega)
    unfold scanPositionMapSetLoop at ih ⊢
    rw [List.range_succ, List.foldl_append, ih]
    simp only [List.foldl_cons, List.foldl_nil, condObvSwapU64_eq]
    have hcond := ofNat_beq_iff (show n < 2 ^ 64 by omega) blockId
    by_cases hlt : blockId.toNat < n
    · have hne : (UInt64.ofNat n == blockId) = false := by
        rw [Bool.eq_false_iff]
        exact fun h => absurd (hcond.1 h) (by omega)
      simp only [if_pos hlt, if_pos (Nat.lt_succ_of_lt hlt), hne, Bool.false_eq_true, if_false,
        Function.update_eq_self]
    · by_cases heq : blockId.toNat = n
      · subst heq
        simp only [if_neg hlt, if_pos (Nat.lt_succ_self _), hcond.2 rfl, if_true]
      · have hne : (UInt64.ofNat n == blockId) = false := by
          rw [Bool.eq_false_iff]
          exact fun h => heq (hcond.1 h).symm
        simp only [if_neg hlt, if_neg (show ¬ blockId.toNat < n + 1 by omega), hne,
          Bool.false_eq_true, if_false, Function.update_eq_self]

/-- **`position_map_read_then_set`** of a block below the map's size returns the block's entry
and writes the new one there. -/
theorem positionMapReadThenSet_eq (pm : PositionMap) {blockId : UInt64} (h : blockId < pm.size)
    (p : UInt64) :
    positionMapReadThenSet pm blockId p =
      some (⟨pm.size, Function.update pm.data blockId.toNat p⟩, pm.data blockId.toNat) := by
  have hlt : blockId.toNat < pm.size.toNat := UInt64.lt_iff_toNat_lt.1 h
  unfold positionMapReadThenSet
  rw [if_pos h]
  simp only [scanPositionMapSetLoop_eq blockId p pm.data pm.size.toNat pm.size.toNat_lt.le, if_pos hlt]

/-- `random_mod_by_pow_of_2` keeps the low bits: it draws a leaf below a power of two. -/
theorem randomModByPowOf2_toNat (r : UInt64) {m : ℕ} (hm : m < 64) :
    (randomModByPowOf2 r (UInt64.ofNat (2 ^ m))).toNat = r.toNat % 2 ^ m := by
  have hpow : 2 ^ m < 2 ^ 64 := Nat.pow_lt_pow_right (by norm_num) hm
  rw [randomModByPowOf2, UInt64.toNat_and, ofNat_two_pow_sub_one hm,
    UInt64.toNat_ofNat_of_lt' (show 2 ^ m - 1 < 2 ^ 64 by omega), Nat.and_two_pow_sub_one_eq_mod]

/-! ## Reading the path -/

section Swap

variable {b : UInt64} (f : ℕ → Block) (t : Block) (base : ℕ)

/-- **The target search over `[base, base + n)`**: when at most one entry carries the target's
id, and none does if the target is already held, the search does not abort; it swaps the target
into the entry that carried the id and takes that entry as the new target. -/
theorem swapOutTarget_loop_eq :
    ∀ n, (∀ i < n, ∀ j < n, (f (base + i)).id = b → (f (base + j)).id = b → i = j) →
      (t.id ≠ EMPTY_BLOCK_ID → ∀ i < n, (f (base + i)).id ≠ b) →
      ∃ t', (List.range n).foldlM (fun acc i => swapOutTarget b (base + i) acc) (f, t) =
          some (fun k => if base ≤ k ∧ k < base + n ∧ (f k).id = b then t else f k, t') ∧
        (∀ i < n, (f (base + i)).id = b → t' = f (base + i)) ∧
        ((∀ i < n, (f (base + i)).id ≠ b) → t' = t)
  | 0, _, _ => by
    refine ⟨t, ?_, fun i hi => absurd hi (Nat.not_lt_zero i), fun _ => rfl⟩
    show some (f, t) = _
    congr 2
    funext k
    exact (if_neg (by omega)).symm
  | n + 1, huniq, hheld => by
    obtain ⟨t₁, hloop, hfound, hnone⟩ := swapOutTarget_loop_eq n
      (fun i hi j hj => huniq i (by omega) j (by omega)) (fun h i hi => hheld h i (by omega))
    rw [Fold.foldlM_option_range_succ, hloop, Option.bind_some]
    -- entry `base + n` is untouched by the search below it
    have hentry : (if base ≤ base + n ∧ base + n < base + n ∧ (f (base + n)).id = b then t
        else f (base + n)) = f (base + n) := if_neg (by omega)
    have hiff : ∀ k, k ≠ base + n → ((base ≤ k ∧ k < base + n ∧ (f k).id = b) ↔
        (base ≤ k ∧ k < base + (n + 1) ∧ (f k).id = b)) := fun k hk => by
      constructor <;> rintro ⟨h₁, h₂, h₃⟩ <;> exact ⟨h₁, by omega, h₃⟩
    simp only [swapOutTarget, condSwapBlocks]
    rw [hentry]
    by_cases hn : (f (base + n)).id = b
    · -- the entry carries the id: nothing was found before it, so the target is still `t`
      have hbelow : ∀ i < n, (f (base + i)).id ≠ b := fun i hi hi' =>
        absurd (huniq i (by omega) n (by omega) hi' hn) (by omega)
      have ht₁ := hnone hbelow
      have htempty : t.id = EMPTY_BLOCK_ID := by
        by_contra hne
        exact hheld hne n (by omega) hn
      subst ht₁
      simp only [hn, beq_self_eq_true, htempty, bne_self_eq_false, Bool.and_false,
        Bool.false_eq_true, if_false, if_true]
      refine ⟨f (base + n), ?_, fun i hi hi' => ?_, fun h => absurd hn (h n (by omega))⟩
      · congr 2
        funext k
        by_cases hk : k = base + n
        · subst hk
          simp [hn]
        · rw [Function.update_of_ne hk]
          exact if_congr (hiff k hk) rfl rfl
      · rw [huniq i hi n (by omega) hi' hn]
    · have hne : (b == (f (base + n)).id) = false := by
        rw [Bool.eq_false_iff]
        exact fun h => hn (beq_iff_eq.1 h).symm
      simp only [hne, Bool.false_and, Bool.false_eq_true, if_false]
      refine ⟨t₁, ?_, fun i hi hi' => ?_, fun h => hnone fun i hi => h i (by omega)⟩
      · congr 2
        funext k
        by_cases hk : k = base + n
        · subst hk
          simp [hn]
        · rw [Function.update_of_ne hk]
          exact if_congr (hiff k hk) rfl rfl
      · rcases Nat.lt_succ_iff_lt_or_eq.1 hi with hi | rfl
        · exact hfound i hi hi'
        · exact absurd hi' hn

end Swap

section Scan

variable {b : UInt64} {base : ℕ}

/-- The search over `[base, base + n)` touches no other entry. -/
theorem swapOutTarget_loop_frame {f f' : ℕ → Block} {t t' : Block} {n : ℕ}
    (h : (List.range n).foldlM (fun acc i => swapOutTarget b (base + i) acc) (f, t) = some (f', t'))
    {k : ℕ} (hk : ¬ (base ≤ k ∧ k < base + n)) : f' k = f k := by
  refine Fold.foldlM_option_range_inv (fun i (acc : (ℕ → Block) × Block) =>
    ¬ (base ≤ k ∧ k < base + n) → acc.1 k = f k) (fun _ => rfl) ?_ h hk
  rintro i ⟨g, u⟩ acc' hi hP hstep hk'
  simp only [swapOutTarget, condSwapBlocks] at hstep
  split at hstep
  · cases hstep
  · cases hstep
    dsimp only
    rw [Function.update_of_ne (by omega)]
    exact hP hk'

/-- The loop of `stash_scan_overflow_for_target` is the target search, with a count of the
entries that carried the target's id. -/
theorem scanOverflowLoop_eq (f : ℕ → Block) (t : Block) (c : ℕ) :
    ∀ n, (List.range n).foldlM
        (fun (acc : (ℕ → Block) × Block × ℕ) i =>
          (swapOutTarget b (base + i) (acc.1, acc.2.1)).map fun x =>
            (x.1, x.2, acc.2.2 + if (b == (acc.1 (base + i)).id) = true then 1 else 0))
        (f, t, c) =
      ((List.range n).foldlM (fun acc i => swapOutTarget b (base + i) acc) (f, t)).map fun p =>
        (p.1, p.2, c + (List.range n).countP fun i => b == (f (base + i)).id)
  | 0 => rfl
  | n + 1 => by
    rw [Fold.foldlM_option_range_succ, Fold.foldlM_option_range_succ, scanOverflowLoop_eq f t c n]
    cases hloop : (List.range n).foldlM (fun acc i => swapOutTarget b (base + i) acc) (f, t) with
    | none => rfl
    | some p =>
      obtain ⟨g, u⟩ := p
      have hg : g (base + n) = f (base + n) := swapOutTarget_loop_frame hloop (by omega)
      simp only [Option.map_some, Option.bind_some, hg, List.range_succ, List.countP_append,
        List.countP_singleton]
      congr 1
      funext p
      simp only [Nat.add_assoc]

theorem countP_range_le_one (p : ℕ → Bool) :
    ∀ n, (∀ i < n, ∀ j < n, p i = true → p j = true → i = j) → (List.range n).countP p ≤ 1
  | 0, _ => by simp
  | n + 1, huniq => by
    rw [List.range_succ, List.countP_append, List.countP_singleton]
    by_cases hn : p n = true
    · have hzero : (List.range n).countP p = 0 := List.countP_eq_zero.2 fun i hi hpi =>
        absurd (huniq i (by simp at hi; omega) n (by omega) hpi hn) (by simp at hi; omega)
      simp [hzero, hn]
    · have := countP_range_le_one p n fun i hi j hj => huniq i (by omega) j (by omega)
      simp [hn, this]

end Scan

section Read

variable {b : UInt64} {t : Block}

/-- **Loading one bucket of the path** at level `m`: its three blocks land at `3m, 3m + 1,
3m + 2`, the one with the target's id (if any) swapped for the target. -/
theorem stashAddPathBucket_eq (s : Stash) (store : BucketStore) {bucketId : UInt64} {m : ℕ}
    (hlevel : (treePathLevel bucketId).toNat = m)
    (hnode : bucketId < treePathNumNodes store.numLevels)
    (huniq : ∀ i < 3, ∀ j < 3, (store.blocks (3 * bucketId.toNat + i)).id = b →
      (store.blocks (3 * bucketId.toNat + j)).id = b → i = j)
    (hheld : t.id ≠ EMPTY_BLOCK_ID → ∀ i < 3, (store.blocks (3 * bucketId.toNat + i)).id ≠ b) :
    ∃ t', stashAddPathBucket s store bucketId b t =
        some ({ s with blocks := fun k => if 3 * m ≤ k ∧ k < 3 * m + 3 then
          (if (store.blocks (3 * bucketId.toNat + (k - 3 * m))).id = b then t
            else store.blocks (3 * bucketId.toNat + (k - 3 * m)))
          else s.blocks k }, t') ∧
      (∀ i < 3, (store.blocks (3 * bucketId.toNat + i)).id = b →
        t' = store.blocks (3 * bucketId.toNat + i)) ∧
      ((∀ i < 3, (store.blocks (3 * bucketId.toNat + i)).id ≠ b) → t' = t) := by
  set g := copyBlocks s.blocks (3 * m) store.blocks (3 * bucketId.toNat) 3 with hg
  have hgat : ∀ i < 3, g (3 * m + i) = store.blocks (3 * bucketId.toNat + i) := fun i hi => by
    rw [hg, copyBlocks, if_pos (by omega), Nat.add_sub_cancel_left]
  obtain ⟨t', hloop, hfound, hnone⟩ := swapOutTarget_loop_eq g t (3 * m) 3
    (fun i hi j hj hi' hj' => huniq i hi j hj (hgat i hi ▸ hi') (hgat j hj ▸ hj'))
    (fun h i hi => hgat i hi ▸ hheld h i hi)
  refine ⟨t', ?_, fun i hi hi' => (hfound i hi (hgat i hi ▸ hi')).trans (hgat i hi),
    fun h => hnone fun i hi => hgat i hi ▸ h i hi⟩
  unfold stashAddPathBucket bucketStoreReadBucketBlocks
  simp only [BLOCKS_PER_BUCKET_toNat, hlevel, if_pos hnode, Option.bind_some]
  rw [hloop, Option.map_some]
  congr 3
  funext k
  dsimp only
  by_cases hk : 3 * m ≤ k ∧ k < 3 * m + 3
  · have hgk : g k = store.blocks (3 * bucketId.toNat + (k - 3 * m)) := by
      rw [← hgat (k - 3 * m) (by omega), Nat.add_sub_cancel' hk.1]
    simp only [hk, true_and, if_true, hgk]
  · have hgk : g k = s.blocks k := by rw [hg, copyBlocks, if_neg hk]
    rw [if_neg hk, hgk, if_neg fun h => hk ⟨h.1, h.2.1⟩]

/-- Entries of the overflow from `stash_overflow_ub` on are empty. -/
theorem stashOverflowUbLoop_empty (s : Stash) :
    ∀ n j, stashOverflowUbLoop s n ≤ j → j < n →
      (s.blocks (s.overflowIndex j)).id = EMPTY_BLOCK_ID
  | 0, j, _, hj => absurd hj (Nat.not_lt_zero j)
  | n + 1, j, hub, hj => by
    unfold stashOverflowUbLoop at hub
    split at hub
    · omega
    · rename_i hne
      rcases Nat.lt_succ_iff_lt_or_eq.1 hj with hj | rfl
      · exact stashOverflowUbLoop_empty s n j hub hj
      · exact not_not.1 hne

/-- `stash_overflow_ub` reads the overflow only. -/
theorem stashOverflowUbLoop_congr {s s' : Stash}
    (h : ∀ i, s.blocks (s.overflowIndex i) = s'.blocks (s'.overflowIndex i)) :
    ∀ n, stashOverflowUbLoop s n = stashOverflowUbLoop s' n
  | 0 => rfl
  | n + 1 => by simp only [stashOverflowUbLoop, h n, stashOverflowUbLoop_congr h n]

/-- **Scanning the overflow for the target**: with the target's id at one overflow entry at
most, and at none if the target is already held, the scan swaps the target into that entry and
takes the entry. -/
theorem stashScanOverflowForTarget_eq (s : Stash) (hb : b ≠ EMPTY_BLOCK_ID)
    (huniq : ∀ i < s.overflowCapacity, ∀ j < s.overflowCapacity,
      (s.blocks (3 * s.pathLength + i)).id = b → (s.blocks (3 * s.pathLength + j)).id = b → i = j)
    (hheld : t.id ≠ EMPTY_BLOCK_ID →
      ∀ i < s.overflowCapacity, (s.blocks (3 * s.pathLength + i)).id ≠ b) :
    ∃ t', stashScanOverflowForTarget s b t =
        some ({ s with blocks := fun k =>
          if 3 * s.pathLength ≤ k ∧ k < 3 * s.pathLength + s.overflowCapacity ∧ (s.blocks k).id = b
          then t else s.blocks k }, t') ∧
      (∀ i < s.overflowCapacity, (s.blocks (3 * s.pathLength + i)).id = b →
        t' = s.blocks (3 * s.pathLength + i)) ∧
      ((∀ i < s.overflowCapacity, (s.blocks (3 * s.pathLength + i)).id ≠ b) → t' = t) := by
  have hub := stashOverflowUb_le s
  have hempty : ∀ i, stashOverflowUb s ≤ i → i < s.overflowCapacity →
      (s.blocks (3 * s.pathLength + i)).id ≠ b := fun i h₁ h₂ h =>
    hb (h ▸ stashOverflowUbLoop_empty s _ i h₁ h₂)
  obtain ⟨t', hloop, hfound, hnone⟩ := swapOutTarget_loop_eq s.blocks t (3 * s.pathLength)
    (stashOverflowUb s) (fun i hi j hj => huniq i (by omega) j (by omega))
    (fun h i hi => hheld h i (by omega))
  have hcount := countP_range_le_one (fun i => b == (s.blocks (3 * s.pathLength + i)).id)
    (stashOverflowUb s) fun i hi j hj hi' hj' =>
      huniq i (by omega) j (by omega) (beq_iff_eq.1 hi').symm (beq_iff_eq.1 hj').symm
  refine ⟨t', ?_, fun i hi hi' => ?_, fun h => hnone fun i hi => h i (by omega)⟩
  · unfold stashScanOverflowForTarget
    simp only [Stash.overflowIndex, BLOCKS_PER_BUCKET_toNat]
    erw [scanOverflowLoop_eq]
    rw [hloop, Option.map_some, Option.bind_some]
    dsimp only
    rw [if_pos (by omega)]
    congr 3
    funext k
    by_cases hk : 3 * s.pathLength ≤ k ∧ k < 3 * s.pathLength + stashOverflowUb s
    · have hk' : k < 3 * s.pathLength + s.overflowCapacity := by omega
      simp only [hk, hk', true_and]
    · by_cases hk' : 3 * s.pathLength ≤ k ∧ k < 3 * s.pathLength + s.overflowCapacity
      · -- past `stash_overflow_ub` the entries are empty
        have hne : (s.blocks k).id ≠ b := by
          have := hempty (k - 3 * s.pathLength) (by omega) (by omega)
          rwa [Nat.add_sub_cancel' hk'.1] at this
        rw [if_neg fun h => hk ⟨h.1, h.2.1⟩, if_neg fun h => hne h.2.2]
      · rw [if_neg fun h => hk ⟨h.1, h.2.1⟩, if_neg fun h => hk' ⟨h.1, h.2.1⟩]
  · by_cases hiu : i < stashOverflowUb s
    · exact hfound i hiu hi'
    · exact absurd hi' (hempty i (by omega) hi)

/-- What `oram_access` reads for a path: entry `3ℓ + i` of the path stash is slot `i` of bucket
`path.values ℓ`, and the other entries are the stash's own. -/
def pathSource (o : Oram) (path : TreePath) (k : ℕ) : Block :=
  if k < 3 * o.stash.pathLength then o.bucketStore.blocks (3 * (path.values (k / 3)).toNat + k % 3)
  else o.stash.blocks k

section Path

variable (o : Oram) (path : TreePath)
  (hpath : ∀ ℓ < o.stash.pathLength, (treePathLevel (path.values ℓ)).toNat = ℓ ∧
    path.values ℓ < treePathNumNodes o.bucketStore.numLevels)

theorem pathSource_bucket {m i : ℕ} (hm : m < o.stash.pathLength) (hi : i < 3) :
    pathSource o path (3 * m + i) = o.bucketStore.blocks (3 * (path.values m).toNat + i) := by
  have hdiv : (3 * m + i) / 3 = m := by omega
  have hmod : (3 * m + i) % 3 = i := by omega
  rw [pathSource, if_pos (by omega), hdiv, hmod]

include hpath in
/-- **Loading the path's buckets**, level by level: after `m` levels the path stash holds the
first `m` buckets with the target's block taken out, and the target is that block if it was
among them. -/
theorem readPathBuckets_eq
    (huniq : ∀ k < 3 * o.stash.pathLength, ∀ k' < 3 * o.stash.pathLength,
      (pathSource o path k).id = b → (pathSource o path k').id = b → k = k') :
    ∀ m ≤ o.stash.pathLength, ∃ t₁,
      (List.range m).foldlM (fun (acc : Stash × Block) i =>
          stashAddPathBucket acc.1 o.bucketStore (path.values i) b acc.2) (o.stash, Block.empty) =
        some ({ o.stash with blocks := fun k =>
          if k < 3 * m then (if (pathSource o path k).id = b then Block.empty else pathSource o path k)
          else o.stash.blocks k }, t₁) ∧
      (∀ k < 3 * m, (pathSource o path k).id = b → t₁ = pathSource o path k) ∧
      ((∀ k < 3 * m, (pathSource o path k).id ≠ b) → t₁ = Block.empty)
  | 0, _ => ⟨Block.empty, by simp, fun k hk => absurd hk (Nat.not_lt_zero k), fun _ => rfl⟩
  | m + 1, hm => by
    obtain ⟨t₁, hloop, hfound, hnone⟩ := readPathBuckets_eq huniq m (by omega)
    obtain ⟨hlev, hnode⟩ := hpath m (by omega)
    have hsrc : ∀ i < 3, pathSource o path (3 * m + i) =
        o.bucketStore.blocks (3 * (path.values m).toNat + i) := fun i hi =>
      pathSource_bucket o path (by omega) hi
    -- a bucket with the target's id comes after every bucket without it
    have hbelow : ∀ i < 3, (pathSource o path (3 * m + i)).id = b →
        ∀ k < 3 * m, (pathSource o path k).id ≠ b := fun i hi hi' k hk hk' =>
      absurd (huniq k (by omega) (3 * m + i) (by omega) hk' hi') (by omega)
    obtain ⟨t₂, hadd, hfound₂, hnone₂⟩ := stashAddPathBucket_eq (t := t₁) (m := m)
      { o.stash with blocks := fun k =>
          if k < 3 * m then (if (pathSource o path k).id = b then Block.empty else pathSource o path k)
          else o.stash.blocks k } o.bucketStore hlev hnode
      (fun i hi j hj hi' hj' => by
        have := huniq (3 * m + i) (by omega) (3 * m + j) (by omega) (hsrc i hi ▸ hi') (hsrc j hj ▸ hj')
        omega)
      (fun ht i hi hi' => ht (by rw [hnone (hbelow i hi (hsrc i hi ▸ hi'))]; rfl))
    rw [Fold.foldlM_option_range_succ, hloop, Option.bind_some, hadd]
    refine ⟨t₂, ?_, fun k hk hk' => ?_, fun h => ?_⟩
    · congr 2
      dsimp only
      congr 1
      funext k
      by_cases hk : 3 * m ≤ k ∧ k < 3 * m + 3
      · have hk' := hsrc (k - 3 * m) (by omega)
        rw [Nat.add_sub_cancel' hk.1] at hk'
        rw [if_pos hk, if_pos (show k < 3 * (m + 1) by omega), ← hk']
        by_cases hid : (pathSource o path k).id = b
        · rw [if_pos hid, if_pos hid, hnone (hbelow (k - 3 * m) (by omega)
            (by rwa [Nat.add_sub_cancel' hk.1]))]
        · rw [if_neg hid, if_neg hid]
      · rw [if_neg hk]
        by_cases hk' : k < 3 * m
        · rw [if_pos hk', if_pos (show k < 3 * (m + 1) by omega)]
        · rw [if_neg hk', if_neg (show ¬ k < 3 * (m + 1) by omega)]
    · by_cases hkm : k < 3 * m
      · have hbucket : ∀ i < 3, (o.bucketStore.blocks (3 * (path.values m).toNat + i)).id ≠ b :=
          fun i hi hi' => absurd (huniq k (by omega) (3 * m + i) (by omega) hk' (hsrc i hi ▸ hi'))
            (by omega)
        rw [hnone₂ hbucket]
        exact hfound k hkm hk'
      · have hk₁ := hsrc (k - 3 * m) (by omega)
        rw [Nat.add_sub_cancel' (by omega)] at hk₁
        rw [hk₁] at hk' ⊢
        exact hfound₂ (k - 3 * m) (by omega) hk'
    · rw [hnone₂ fun i hi hi' => h (3 * m + i) (by omega) (hsrc i hi ▸ hi'),
        hnone fun k hk => h k (by omega)]

include hpath in
/-- **`oram_read_path_for_block`** for a target id other than `EMPTY_BLOCK_ID` that at most one
entry of the path and the overflow carries: the path stash receives the path's buckets and the
entry with the target's id becomes empty; the target is that entry's block (an empty block when
no entry had the id), with the id and the new position. -/
theorem oramReadPathForBlock_eq (hb : b ≠ EMPTY_BLOCK_ID)
    (hlen : path.length.toNat = o.stash.pathLength)
    (huniq : ∀ k < 3 * o.stash.pathLength + o.stash.overflowCapacity,
      ∀ k' < 3 * o.stash.pathLength + o.stash.overflowCapacity,
      (pathSource o path k).id = b → (pathSource o path k').id = b → k = k')
    (newPosition : UInt64) :
    ∃ t, oramReadPathForBlock o path b Block.empty newPosition =
        some ({ o.stash with blocks := fun k =>
          if k < 3 * o.stash.pathLength + o.stash.overflowCapacity ∧ (pathSource o path k).id = b
          then Block.empty else pathSource o path k }, { t with id := b, position := newPosition }) ∧
      (∀ k < 3 * o.stash.pathLength + o.stash.overflowCapacity, (pathSource o path k).id = b →
        t = pathSource o path k) ∧
      ((∀ k < 3 * o.stash.pathLength + o.stash.overflowCapacity, (pathSource o path k).id ≠ b) →
        t = Block.empty) := by
  set L := o.stash.pathLength with hL
  set F := o.stash.overflowCapacity with hF
  obtain ⟨t₁, hread, hfound₁, hnone₁⟩ := readPathBuckets_eq o path hpath
    (fun k hk k' hk' => huniq k (by omega) k' (by omega)) L le_rfl
  set s₁ : Stash := { o.stash with blocks := (fun k =>
      if k < 3 * L then (if (pathSource o path k).id = b then Block.empty else pathSource o path k)
      else o.stash.blocks k) } with hs₁
  have hL₁ : s₁.pathLength = L := rfl
  have hF₁ : s₁.overflowCapacity = F := rfl
  -- the overflow is read as it stands
  have hovf : ∀ i, s₁.blocks (3 * s₁.pathLength + i) = pathSource o path (3 * L + i) := fun i => by
    show (if 3 * L + i < 3 * L then _ else _) = _
    rw [if_neg (by omega), pathSource, if_neg (by omega)]
  -- a target already found on the path has no copy in the overflow
  have hheld : t₁.id ≠ EMPTY_BLOCK_ID →
      ∀ i < s₁.overflowCapacity, (s₁.blocks (3 * s₁.pathLength + i)).id ≠ b := by
    intro ht i hi hi'
    rw [hovf] at hi'
    by_cases hpath' : ∃ k < 3 * L, (pathSource o path k).id = b
    · obtain ⟨k, hk, hk'⟩ := hpath'
      exact absurd (huniq k (by omega) (3 * L + i) (by omega) hk' hi') (by omega)
    · exact ht (by rw [hnone₁ fun k hk hk' => hpath' ⟨k, hk, hk'⟩]; rfl)
  obtain ⟨t₂, hscan, hfound₂, hnone₂⟩ := stashScanOverflowForTarget_eq s₁ hb
    (fun i hi j hj hi' hj' => by
      rw [hovf] at hi' hj'
      have := huniq (3 * L + i) (by omega) (3 * L + j) (by omega) hi' hj'
      omega)
    hheld
  refine ⟨t₂, ?_, fun k hk hk' => ?_, fun h => ?_⟩
  · unfold oramReadPathForBlock
    rw [hlen, hread, Option.bind_some]
    dsimp only
    rw [hscan, Option.map_some]
    congr 2
    dsimp only
    congr 1
    funext k
    have hB₁ : s₁.blocks k = if k < 3 * L then
        (if (pathSource o path k).id = b then Block.empty else pathSource o path k)
        else pathSource o path k := by
      show (if k < 3 * L then _ else o.stash.blocks k) = _
      by_cases hk : k < 3 * L
      · rw [if_pos hk, if_pos hk]
      · rw [if_neg hk, if_neg hk, pathSource, if_neg hk]
    rw [hL₁, hF₁, hB₁]
    by_cases hk : k < 3 * L
    · rw [if_pos hk, if_neg (not_and_of_not_left _ (show ¬ 3 * L ≤ k by omega))]
      by_cases hid : (pathSource o path k).id = b
      · rw [if_pos hid, if_pos (show k < 3 * L + F ∧ (pathSource o path k).id = b from ⟨by omega, hid⟩)]
      · rw [if_neg hid,
          if_neg (show ¬ (k < 3 * L + F ∧ (pathSource o path k).id = b) from fun h => hid h.2)]
    · rw [if_neg hk]
      by_cases hk' : k < 3 * L + F ∧ (pathSource o path k).id = b
      · -- the id was in the overflow, so the path had none and the target was empty
        have hnil : ∀ k' < 3 * L, (pathSource o path k').id ≠ b := fun k' hk'' hid =>
          absurd (huniq k' (by omega) k hk'.1 hid hk'.2) (by omega)
        rw [if_pos (show 3 * L ≤ k ∧ k < 3 * L + F ∧ (pathSource o path k).id = b from
          ⟨by omega, hk'.1, hk'.2⟩), if_pos hk', hnone₁ hnil]
      · rw [if_neg (show ¬ (3 * L ≤ k ∧ k < 3 * L + F ∧ (pathSource o path k).id = b) from
          fun h => hk' ⟨h.2.1, h.2.2⟩), if_neg hk']
  · by_cases hkL : k < 3 * L
    · have hovf' : ∀ i < F, (pathSource o path (3 * L + i)).id ≠ b := fun i hi hi' =>
        absurd (huniq k hk (3 * L + i) (by omega) hk' hi') (by omega)
      rw [hnone₂ fun i hi => by rw [hovf]; exact hovf' i hi]
      exact hfound₁ k hkL hk'
    · have hi : s₁.blocks (3 * s₁.pathLength + (k - 3 * L)) = pathSource o path k := by
        rw [hovf, Nat.add_sub_cancel' (show 3 * L ≤ k by omega)]
      rw [← hi] at hk' ⊢
      exact hfound₂ (k - 3 * L) (by omega) hk'
  · rw [hnone₂ fun i hi => by rw [hovf]; exact h (3 * L + i) (by omega),
      hnone₁ fun k hk => h k (by omega)]

end Path

end Read

/-! ## Putting the target into the overflow -/

section Add

variable (s : Stash) (X : Block)

/-- **One pass of `stash_add_block`**: the block goes to the first empty overflow slot, and
nowhere when the overflow is full. -/
theorem stashAddBlockPass_cases :
    (∃ i < s.overflowCapacity, (s.blocks (s.overflowIndex i)).id = EMPTY_BLOCK_ID ∧
        (∀ j < i, (s.blocks (s.overflowIndex j)).id ≠ EMPTY_BLOCK_ID) ∧
        stashAddBlockPass s X = (Function.update s.blocks (s.overflowIndex i) X, true)) ∨
      ((∀ i < s.overflowCapacity, (s.blocks (s.overflowIndex i)).id ≠ EMPTY_BLOCK_ID) ∧
        stashAddBlockPass s X = (s.blocks, false)) := by
  unfold stashAddBlockPass
  refine Fold.foldl_range_inv (fun n acc =>
    (∃ i < n, (s.blocks (s.overflowIndex i)).id = EMPTY_BLOCK_ID ∧
        (∀ j < i, (s.blocks (s.overflowIndex j)).id ≠ EMPTY_BLOCK_ID) ∧
        acc = (Function.update s.blocks (s.overflowIndex i) X, true)) ∨
      ((∀ i < n, (s.blocks (s.overflowIndex i)).id ≠ EMPTY_BLOCK_ID) ∧ acc = (s.blocks, false)))
    (.inr ⟨fun i hi => absurd hi (Nat.not_lt_zero i), rfl⟩) ?_
  rintro n acc hn (⟨i, hi, hempty, hfirst, rfl⟩ | ⟨hfull, rfl⟩)
  · -- once the block is in, the flag turns every later copy off
    exact .inl ⟨i, by omega, hempty, hfirst, by simp⟩
  · by_cases hn' : (s.blocks (s.overflowIndex n)).id = EMPTY_BLOCK_ID
    · exact .inl ⟨n, by omega, hn', hfull, by simp [hn']⟩
    · refine .inr ⟨fun i hi => ?_, by simp [hn']⟩
      rcases Nat.lt_succ_iff_lt_or_eq.1 hi with hi | rfl
      · exact hfull i hi
      · exact hn'

variable {s}

/-- The extension keeps the overflow and appends empty blocks to it. -/
theorem stashExtendOverflow_overflow (hwf : s.WellFormed) (i : ℕ) :
    (stashExtendOverflow s).blocks (s.overflowIndex i) =
      if s.overflowCapacity ≤ i ∧ i < s.overflowCapacity + STASH_GROWTH_INCREMENT then Block.empty
      else s.blocks (s.overflowIndex i) := by
  have hnum := hwf.numBlocks_eq
  simp only [stashExtendOverflow, Stash.overflowIndex] at hnum ⊢
  exact if_congr (by omega) rfl rfl

/-- **`stash_add_block`** puts the block into the first empty overflow slot; when the overflow is
full, it grows by `STASH_GROWTH_INCREMENT` empty blocks and the block takes the first of them. -/
theorem stashAddBlock_cases (hwf : s.WellFormed) :
    (∃ i < s.overflowCapacity, (s.blocks (s.overflowIndex i)).id = EMPTY_BLOCK_ID ∧
        stashAddBlock s X = some { s with blocks := Function.update s.blocks (s.overflowIndex i) X }) ∨
      ((∀ i < s.overflowCapacity, (s.blocks (s.overflowIndex i)).id ≠ EMPTY_BLOCK_ID) ∧
        stashAddBlock s X = some { stashExtendOverflow s with
          blocks := Function.update (stashExtendOverflow s).blocks
            (s.overflowIndex s.overflowCapacity) X }) := by
  rcases stashAddBlockPass_cases s X with ⟨i, hi, hempty, -, hpass⟩ | ⟨hfull, hpass⟩
  · refine .inl ⟨i, hi, hempty, ?_⟩
    simp only [stashAddBlock, stashAddBlockLoop, hpass, Bool.not_true, Bool.false_eq_true, if_false]
  refine .inr ⟨hfull, ?_⟩
  have hext := stashExtendOverflow_overflow hwf
  have hnew : ((stashExtendOverflow s).blocks (s.overflowIndex s.overflowCapacity)).id =
      EMPTY_BLOCK_ID := by
    rw [hext, if_pos ⟨le_rfl, by simp [STASH_GROWTH_INCREMENT]⟩]
    rfl
  -- the second pass finds the old overflow full and the first new block empty
  rcases stashAddBlockPass_cases (stashExtendOverflow s) X with
    ⟨i, hi, hempty, hfirst, hpass'⟩ | ⟨hfull', -⟩
  · have hi' : i = s.overflowCapacity := by
      rcases lt_trichotomy i s.overflowCapacity with hlt | heq | hgt
      · refine absurd ?_ (hfull i hlt)
        rw [← hempty]
        exact (congrArg Block.id ((hext i).trans (if_neg (by omega)))).symm
      · exact heq
      · exact absurd hnew (hfirst _ hgt)
    subst hi'
    simp only [stashAddBlock, stashAddBlockLoop, hpass, hpass', Bool.not_false, Bool.not_true,
      Bool.false_eq_true, if_true, if_false]
    rfl
  · exact absurd hnew (hfull' _ (by simp [stashExtendOverflow, STASH_GROWTH_INCREMENT]))

/-- The non-empty blocks of a list. -/
def nonEmptyBlocks (l : List Block) : List Block := l.filter fun X => X.id != EMPTY_BLOCK_ID

/-- **`stash_add_block`** of a non-empty block into a well-formed stash does not abort: it keeps
the path stash and adds the block to the non-empty blocks of the stash, and grows the overflow
only when the overflow was full. -/
theorem stashAddBlock_spec (hwf : s.WellFormed) (hX : X.id ≠ EMPTY_BLOCK_ID)
    (hsize : s.numBlocks + STASH_GROWTH_INCREMENT < 2 ^ 64) :
    ∃ s', stashAddBlock s X = some s' ∧ s'.pathLength = s.pathLength ∧ s'.WellFormed ∧
      (∀ k < 3 * s.pathLength, s'.blocks k = s.blocks k) ∧
      (nonEmptyBlocks ((List.range (3 * s.pathLength + s'.overflowCapacity)).map s'.blocks)).Perm
        (nonEmptyBlocks ((List.range (3 * s.pathLength + s.overflowCapacity)).map s.blocks) ++ [X]) ∧
      (s'.overflowCapacity = s.overflowCapacity ∨
        s'.overflowCapacity = s.overflowCapacity + STASH_GROWTH_INCREMENT ∧
          ∀ i < s.overflowCapacity, (s.blocks (s.overflowIndex i)).id ≠ EMPTY_BLOCK_ID) := by
  have hnum := hwf.numBlocks_eq
  rw [BLOCKS_PER_BUCKET_toNat] at hnum
  have hpX : (fun Y : Block => Y.id != EMPTY_BLOCK_ID) X = true := by simpa using hX
  have hidx : ∀ i, s.overflowIndex i = 3 * s.pathLength + i := fun i => by
    rw [Stash.overflowIndex, BLOCKS_PER_BUCKET_toNat]
  rcases stashAddBlock_cases X hwf with ⟨i, hi, hempty, hadd⟩ | ⟨hfull, hadd⟩
  · -- an empty overflow slot takes the block
    refine ⟨_, hadd, rfl, ⟨hwf.numBlocks_eq, hwf.numBlocks_lt⟩, fun k hk => ?_, ?_, .inl rfl⟩
    · exact Function.update_of_ne (by rw [hidx]; omega) _ _
    · dsimp only
      exact Keyed.filter_range_update_perm _ _ X (by simpa using hempty) hpX
        (by rw [hidx]; omega)
  · -- the overflow grows by empty blocks and the first of them takes the block
    have hext := stashExtendOverflow_overflow hwf
    have hwf' := stashExtendOverflow_wellFormed hwf hsize
    have hold : ∀ k, k < 3 * s.pathLength + s.overflowCapacity →
        (stashExtendOverflow s).blocks k = s.blocks k := fun k hk => by
      simp only [stashExtendOverflow]
      rw [if_neg (by omega)]
    refine ⟨_, hadd, rfl, ⟨hwf'.numBlocks_eq, hwf'.numBlocks_lt⟩, fun k hk => ?_, ?_,
      .inr ⟨rfl, hfull⟩⟩
    · dsimp only
      rw [Function.update_of_ne (by rw [hidx]; omega), hold k (by omega)]
    dsimp only
    have hnew : (fun Y : Block => Y.id != EMPTY_BLOCK_ID)
        ((stashExtendOverflow s).blocks (s.overflowIndex s.overflowCapacity)) = false := by
      rw [hext, if_pos ⟨le_rfl, by simp [STASH_GROWTH_INCREMENT]⟩]
      rfl
    have hperm := Keyed.filter_range_update_perm (fun Y : Block => Y.id != EMPTY_BLOCK_ID)
      (stashExtendOverflow s).blocks X hnew hpX
      (n := 3 * s.pathLength + (s.overflowCapacity + STASH_GROWTH_INCREMENT))
      (by rw [hidx]; simp [STASH_GROWTH_INCREMENT])
    -- the new empty blocks are not among the non-empty ones
    have htail : nonEmptyBlocks ((List.range (3 * s.pathLength +
        (s.overflowCapacity + STASH_GROWTH_INCREMENT))).map (stashExtendOverflow s).blocks) =
        nonEmptyBlocks ((List.range (3 * s.pathLength + s.overflowCapacity)).map s.blocks) := by
      rw [← Nat.add_assoc, List.range_add, List.map_append, nonEmptyBlocks, List.filter_append]
      have hnil : ((List.map (fun j => 3 * s.pathLength + s.overflowCapacity + j)
          (List.range STASH_GROWTH_INCREMENT)).map (stashExtendOverflow s).blocks).filter
          (fun Y => Y.id != EMPTY_BLOCK_ID) = [] := by
        refine List.filter_eq_nil_iff.2 fun Y hY => ?_
        simp only [List.map_map, List.mem_map, List.mem_range, Function.comp_apply] at hY
        obtain ⟨j, hj, rfl⟩ := hY
        simp only [stashExtendOverflow]
        rw [if_pos (by omega)]
        simp [Block.empty]
      rw [hnil, List.append_nil, List.map_congr_left fun k hk => hold k (List.mem_range.1 hk)]
      rfl
    rw [← htail]
    exact hperm

end Add

/-! ## Rebuilding and writing back the path -/

section Build

open Bitonic

/-- **`stash_build_path`** on a well-formed stash whose path blocks fit the buckets they were
read at: it permutes the path stash and the overflow, and every non-empty block it leaves in
the path stash fits the bucket of its level. -/
theorem stashBuildPath_spec {s : Stash} (hwf : s.WellFormed) (path : TreePath)
    (hpath : ∀ k < 3 * s.pathLength, (s.blocks k).id ≠ EMPTY_BLOCK_ID →
      BlockValidAt path (k / 3) (s.blocks k)) :
    PermOn 0 (3 * s.pathLength + s.overflowCapacity) s.blocks (stashBuildPath s path).blocks ∧
      ∀ k < 3 * s.pathLength, ((stashBuildPath s path).blocks k).id ≠ EMPTY_BLOCK_ID →
        BlockValidAt path (k / 3) ((stashBuildPath s path).blocks k) := by
  have hs' : (stashBuildPath s path).blocks = fun k => (sort compBlocks true
      (fun k => ((stashAssignBuckets s path).blocks k, (stashAssignBuckets s path).bucketAssignments k))
      0 (BLOCKS_PER_BUCKET.toNat * (stashAssignBuckets s path).pathLength + stashOverflowUb s) k).1 :=
    rfl
  rw [hs', stashAssignBuckets_blocks, stashAssignBuckets_pathLength, BLOCKS_PER_BUCKET_toNat]
  set asg := (stashAssignBuckets s path).bucketAssignments
  set N := 3 * s.pathLength + stashOverflowUb s
  set g := sort compBlocks true (fun k => (s.blocks k, asg k)) 0 N
  have hub := stashOverflowUb_le s
  have hperm : PermOn 0 N (fun k => (s.blocks k, asg k)) g :=
    @sort_permOn _ compBlocks true (fun k => (s.blocks k, asg k)) 0 N
  refine ⟨?_, fun k hk hne => ?_⟩
  · -- the blocks are the first components of the permuted pairs
    obtain ⟨σ, hσ, hg⟩ := hperm.mono le_rfl (show N ≤ 3 * s.pathLength + s.overflowCapacity by omega)
    exact ⟨σ, hσ, by rw [hg]; rfl⟩
  have hL0 : 0 < s.pathLength := by omega
  obtain ⟨occ, asg', heq, hinv, hfull, -⟩ := stashAssignBuckets_spec hwf hL0 path hpath
  have hasg : asg = asg' := by
    change (stashAssignBuckets s path).bucketAssignments = asg'
    rw [heq]
    rfl
  have hnum := hwf.numBlocks_eq
  rw [BLOCKS_PER_BUCKET_toNat] at hnum
  -- three entries of each level below `N`, so after the sort entry `k` has level `k / 3`
  have hcount : ∀ ℓ < s.pathLength,
      (List.range N).countP (fun k => ((s.blocks k, asg k).2).toNat = ℓ) = 3 := by
    intro ℓ hℓ
    have hocc := hinv.occ_count ℓ hℓ
    rw [hfull ℓ hℓ, BLOCKS_PER_BUCKET_toNat, Count.countP_range_of_le _ (show N ≤ s.numBlocks by omega)
      fun k hk _ => decide_eq_false fun h' => by
        have := hinv.lt_lim k (by omega)
        omega] at hocc
    rw [hasg]
    exact hocc.symm
  have hkN : k < N := by omega
  have hi₁ : (g k).2.toNat < k / 3 + 1 :=
    (sortedLevel_iff _ hcount (c := k / 3 + 1) (by omega) hkN).2 (by omega)
  have hi₂ : ¬ (g k).2.toNat < k / 3 :=
    mt (sortedLevel_iff _ hcount (c := k / 3) (by omega) hkN).1 (by omega)
  -- the entry came from an entry of the same level, which fits that level
  obtain ⟨y, -, hy, hgy⟩ := hperm.exists_mem (Nat.zero_le k) hkN
  dsimp only at hne ⊢
  rw [hgy] at hi₁ hi₂ hne ⊢
  dsimp only at hi₁ hi₂ hne ⊢
  rw [hasg] at hi₁ hi₂
  have hyi : (asg' y).toNat = k / 3 := by omega
  have := hinv.valid y (by omega) hne
  rwa [hyi] at this

/-- `stash_assign_buckets` writes only the two arrays: the stash keeps its sizes. -/
theorem stashAssignBuckets_sizes (s : Stash) (path : TreePath) :
    (stashAssignBuckets s path).numBlocks = s.numBlocks ∧
      (stashAssignBuckets s path).overflowCapacity = s.overflowCapacity := by
  unfold stashAssignBuckets
  refine List.foldlRecOn (motive := fun (s' : Stash) => s'.numBlocks = s.numBlocks ∧
    s'.overflowCapacity = s.overflowCapacity) _ _ ?_ ?_
  · refine List.foldlRecOn (motive := fun (s' : Stash) => s'.numBlocks = s.numBlocks ∧
      s'.overflowCapacity = s.overflowCapacity) _ _ ⟨rfl, rfl⟩ ?_
    intro s' hs' level _
    refine List.foldlRecOn (motive := fun (s'' : Stash) => s''.numBlocks = s.numBlocks ∧
      s''.overflowCapacity = s.overflowCapacity) _ _ hs' ?_
    intro s'' hs'' b _
    exact hs''
  · intro s' hs' i _
    exact hs'

/-- The rebuild keeps the stash's sizes. -/
theorem stashBuildPath_wellFormed {s : Stash} (hwf : s.WellFormed) (path : TreePath) :
    (stashBuildPath s path).pathLength = s.pathLength ∧
      (stashBuildPath s path).overflowCapacity = s.overflowCapacity ∧
      (stashBuildPath s path).WellFormed := by
  have h₁ : (stashBuildPath s path).pathLength = s.pathLength := stashAssignBuckets_pathLength s path
  have h₂ : (stashBuildPath s path).overflowCapacity = s.overflowCapacity :=
    (stashAssignBuckets_sizes s path).2
  have h₃ : (stashBuildPath s path).numBlocks = s.numBlocks := (stashAssignBuckets_sizes s path).1
  refine ⟨h₁, h₂, ?_, ?_⟩
  · rw [h₃, h₁, h₂]
    exact hwf.numBlocks_eq
  · rw [h₃]
    exact hwf.numBlocks_lt

end Build

/-- **The write-back loop of `oram_access`**: for a path of distinct buckets, slot `i` of the
bucket at level `ℓ` receives the path stash's block `3ℓ + i`, and every slot off the path keeps
its block. -/
theorem writePath_spec (store : BucketStore) (path : TreePath) (stash : Stash)
    (hinj : ∀ ℓ < path.length.toNat, ∀ ℓ' < path.length.toNat,
      (path.values ℓ).toNat = (path.values ℓ').toNat → ℓ = ℓ') :
    (writePath store path stash).numLevels = store.numLevels ∧
      (∀ ℓ < path.length.toNat, ∀ i < 3, (writePath store path stash).blocks
        (3 * (path.values ℓ).toNat + i) = stash.blocks (3 * ℓ + i)) ∧
      ∀ k, ¬ Buckets.OnPath 3 (fun ℓ => (path.values ℓ).toNat) path.length.toNat k →
        (writePath store path stash).blocks k = store.blocks k := by
  have key := Fold.foldl_range_inv (fun n (st : BucketStore) =>
      st.numLevels = store.numLevels ∧
      (∀ ℓ < n, ∀ i < 3, st.blocks (3 * (path.values ℓ).toNat + i) = stash.blocks (3 * ℓ + i)) ∧
      ∀ k, (∀ ℓ < n, (path.values ℓ).toNat ≠ k / 3) → st.blocks k = store.blocks k)
    (F := fun store i => bucketStoreWriteBucketBlocks store (path.values i) stash.blocks
      (BLOCKS_PER_BUCKET.toNat * i)) (a := store) (n := path.length.toNat)
    ⟨rfl, fun ℓ hℓ => absurd hℓ (Nat.not_lt_zero ℓ), fun _ _ => rfl⟩ ?_
  · obtain ⟨hlev, hon, hoff⟩ := key
    exact ⟨hlev, hon, fun k hk => hoff k fun ℓ hℓ heq => hk ⟨ℓ, hℓ, heq⟩⟩
  rintro n st hn ⟨hlev, hon, hoff⟩
  simp only [bucketStoreWriteBucketBlocks, copyBlocks, BLOCKS_PER_BUCKET_toNat]
  refine ⟨hlev, fun ℓ hℓ i hi => ?_, fun k hk => ?_⟩
  · rcases Nat.lt_succ_iff_lt_or_eq.1 hℓ with hℓ | rfl
    · -- a bucket of a lower level is another bucket
      have hne : (path.values ℓ).toNat ≠ (path.values n).toNat := fun h =>
        absurd (hinj ℓ (by omega) n (by omega) h) (by omega)
      rw [if_neg (by omega)]
      exact hon ℓ hℓ i hi
    · rw [if_pos (by omega), Nat.add_sub_cancel_left]
  · rw [if_neg fun h => hk n (by omega) (by omega)]
    exact hoff k fun ℓ hℓ => hk ℓ (by omega)

end ContactDiscovery
