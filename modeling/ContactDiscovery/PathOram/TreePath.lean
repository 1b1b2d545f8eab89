import Mathlib
import ContactDiscovery.Util

/-!
# Paths of the Path ORAM bucket tree (`path_oram/tree_path.c`)

The buckets of a tree of height `L` are the numbers `0 … 2^L - 2` in in-order numbering: the
leaves are the even numbers (level 0), level `k` holds the numbers `≡ 2^k - 1 (mod 2^(k+1))`,
and the root is `2^(L-1) - 1`.

* `level` — the number of trailing one bits (`__builtin_ffsll(~n) - 1`);
* `coordsForVal` / `nodeVal` — in-order number to `(level, offset)` and back; `parent`;
* `treePathUpdate` — the path from a leaf up to the root, one value per level, with the two
  `CHECK`s of the source (`none` is an abort);
* `treePathLowerBound` / `treePathUpperBound` — the smallest and largest leaf below a node.

Principal results: `level_eq` (`level` counts the trailing ones), `nodeVal_ofNat`,
`treePathUpdateLoop_eq` and `treePathUpdate_eq_ancestors` (the path holds the leaf's ancestor
`ancestorAt` at every level), and `treePathUpdate_root_path`: every value of the path is at its
level, has the leaf between its subtree bounds, and the last one is the root.
-/

set_option autoImplicit false

namespace ContactDiscovery

/-! ## Levels and coordinates -/

/-- `__builtin_ffsll(x)` scanning bits `k, k + 1, …`: one plus the index of the lowest set bit
from `k` on, `0` when there is none. -/
def ffsllScan (x : UInt64) : ℕ → ℕ → UInt64
  | 0, _ => 0
  | fuel + 1, k =>
    if (x >>> UInt64.ofNat k) &&& 1 = 1 then UInt64.ofNat (k + 1) else ffsllScan x fuel (k + 1)

/-- `__builtin_ffsll`: one plus the index of the lowest set bit, `0` for `0`. -/
def ffsll (x : UInt64) : UInt64 := ffsllScan x 64 0

/-- `level(n)`: `0` for `UINT64_MAX`, else `__builtin_ffsll(~n) - 1`, the number of trailing ones. -/
def level (n : UInt64) : UInt64 := if n = UINT64_MAX then 0 else ffsll (~~~n) - 1

/-- `tree_path_level`. -/
def treePathLevel (val : UInt64) : UInt64 := level val

/-- `tree_coords`: a node as its level and its offset within the level. -/
structure TreeCoords where
  level : UInt64
  offset : UInt64
  deriving DecidableEq, Repr

/-- `coords_for_val`. -/
def coordsForVal (val : UInt64) : TreeCoords :=
  let l := level val
  let levelModulus : UInt64 := 1 <<< (l + 1)
  let levelResidue := levelModulus / 2 - 1
  ⟨l, (val - levelResidue) / levelModulus⟩

/-- `parent`. -/
def parent (node : TreeCoords) : TreeCoords := ⟨node.level + 1, node.offset >>> 1⟩

/-- `node_val`. -/
def nodeVal (node : TreeCoords) : UInt64 :=
  let levelModulus : UInt64 := 1 <<< (node.level + 1)
  let levelResidue := levelModulus / 2 - 1
  levelModulus * node.offset + levelResidue

/-- `tree_path_num_nodes`. -/
def treePathNumNodes (numLevels : UInt64) : UInt64 := (1 <<< numLevels) - 1

/-- `tree_path_lower_bound`: the leftmost leaf below `val`. -/
def treePathLowerBound (val : UInt64) : UInt64 := val - ((1 <<< level val) - 1)

/-- `tree_path_upper_bound`: the rightmost leaf below `val`. -/
def treePathUpperBound (val : UInt64) : UInt64 := val + ((1 <<< level val) - 1)

/-! ## Paths -/

/-- `tree_path`: `values[k]` is the node of the path at level `k`, for `k < length`. -/
structure TreePath where
  length : UInt64
  values : ℕ → UInt64

/-- The `while (coords.level < root_level)` loop of `tree_path_update`: climb to the parent and
record it at its level. The level rises by one per iteration, so 64 rounds are enough. -/
def treePathUpdateLoop (rootLevel : UInt64) : ℕ → TreeCoords → (ℕ → UInt64) → ℕ → UInt64
  | 0, _, values => values
  | fuel + 1, coords, values =>
    if coords.level < rootLevel then
      let up := parent coords
      treePathUpdateLoop rootLevel fuel up (Function.update values up.level.toNat (nodeVal up))
    else values

/-- `tree_path_update(t, leaf)`; `none` when one of its `CHECK`s aborts. -/
def treePathUpdate (t : TreePath) (leaf : UInt64) : Option TreePath :=
  let rootLevel := t.length - 1
  let root : UInt64 := (1 <<< rootLevel) - 1
  -- leaves are even
  if leaf % 2 = 0 then
    -- and lie below the root
    if leaf ≤ 2 * root then
      some ⟨t.length,
        treePathUpdateLoop rootLevel 64 (coordsForVal leaf) (Function.update t.values 0 leaf)⟩
    else none
  else none

/-- `tree_path_create(leaf, root)`: a path of `level(root) + 1` nodes, filled by the update (the
`malloc`ed values are all overwritten). -/
def treePathCreate (leaf root : UInt64) : Option TreePath :=
  treePathUpdate ⟨level root + 1, fun _ => 0⟩ leaf

example : level 1040678 = 0 ∧ level 1 = 1 ∧ level 10009 = 1 ∧ level 7 = 3 ∧
    level 100000000255 = 8 ∧ coordsForVal 1087 = ⟨6, 8⟩ ∧ nodeVal ⟨2, 1⟩ = 11 ∧
    treePathLowerBound 11 = 8 ∧ treePathUpperBound 11 = 14 := by decide

/-! ## The path to the root -/

/-- The in-order number of the ancestor at level `k` of the leaf `leaf`: the leaf's offset
shifted down `k + 1` bits, times the level modulus, plus the level residue. -/
def ancestorAt (leaf k : ℕ) : ℕ := 2 ^ (k + 1) * (leaf / 2 ^ (k + 1)) + (2 ^ k - 1)

/-- The test of the scan of `__builtin_ffsll` reads bit `k`. -/
theorem shiftRight_and_one_eq_one_iff (x : UInt64) {k : ℕ} (hk : k < 64) :
    (x >>> UInt64.ofNat k) &&& 1 = 1 ↔ x.toNat.testBit k = true := by
  rw [← UInt64.toNat_inj, shiftRight_and_one_toNat x hk, UInt64.toNat_one,
    Nat.testBit_eq_decide_div_mod_eq, decide_eq_true_eq]

/-- The scan stops at the first set bit from `j` on. -/
theorem ffsllScan_eq (x : UInt64) {k : ℕ} (hk : k < 64) (hbit : x.toNat.testBit k = true) :
    ∀ fuel j, j ≤ k → k < j + fuel → (∀ i, j ≤ i → i < k → x.toNat.testBit i = false) →
      ffsllScan x fuel j = UInt64.ofNat (k + 1)
  | 0, _, hj, hk', _ => absurd hk' (by omega)
  | fuel + 1, j, hj, hk', hlow => by
    unfold ffsllScan
    by_cases hjk : j = k
    · subst hjk
      rw [if_pos ((shiftRight_and_one_eq_one_iff x hk).2 hbit)]
    · have hzero : ¬(x >>> UInt64.ofNat j) &&& 1 = 1 := fun h => by
        have := (shiftRight_and_one_eq_one_iff x (by omega)).1 h
        rw [hlow j le_rfl (by omega)] at this
        exact Bool.false_ne_true this
      rw [if_neg hzero]
      exact ffsllScan_eq x hk hbit fuel (j + 1) (by omega) (by omega)
        fun i h₁ h₂ => hlow i (by omega) h₂

/-- **`level(n)` counts the trailing one bits**: `k` ones followed by a zero give level `k`. -/
theorem level_eq {n : UInt64} {k : ℕ} (hk : k < 64) (hlow : ∀ i < k, n.toNat.testBit i = true)
    (hbit : n.toNat.testBit k = false) : level n = UInt64.ofNat k := by
  have hne : n ≠ UINT64_MAX := by
    rintro rfl
    rw [UINT64_MAX_toNat, Nat.testBit_two_pow_sub_one, decide_eq_false_iff_not] at hbit
    exact hbit hk
  -- the bits of `~n` are those of `n` flipped
  have hnot : ∀ i < 64, (~~~n).toNat.testBit i = !n.toNat.testBit i := by
    intro i hi
    rw [UInt64.toNat_not, show UInt64.size - 1 - n.toNat = 2 ^ 64 - (n.toNat + 1) by
      simp only [UInt64.size]; omega, Nat.testBit_two_pow_sub_succ n.toNat_lt]
    simp [hi]
  unfold level
  rw [if_neg hne, ffsll, ffsllScan_eq (~~~n) hk (by rw [hnot k hk, hbit]; rfl) 64 0
    (Nat.zero_le k) (by omega) fun i _ hi => by rw [hnot i (by omega), hlow i hi]; rfl]
  rw [UInt64.ofNat_add]
  simp

/-- The ancestor at level `k` has `k` trailing ones. -/
theorem testBit_ancestorAt (leaf : ℕ) {k i : ℕ} (hi : i ≤ k) :
    (ancestorAt leaf k).testBit i = decide (i < k) := by
  have hlt : 2 ^ k - 1 < 2 ^ (k + 1) := by
    have := Nat.one_le_two_pow (n := k)
    rw [Nat.pow_succ]
    omega
  rw [ancestorAt, Nat.testBit_two_pow_mul_add _ hlt, if_pos (by omega), Nat.testBit_two_pow_sub_one]

theorem one_shiftLeft_ofNat {m : ℕ} (hm : m < 64) :
    (1 : UInt64) <<< UInt64.ofNat m = UInt64.ofNat (2 ^ m) := by
  have hpow : 2 ^ m < 2 ^ 64 := Nat.pow_lt_pow_right (by norm_num) hm
  apply UInt64.toNat_inj.1
  rw [UInt64.toNat_shiftLeft, UInt64.toNat_ofNat_of_lt' (show m < 2 ^ 64 by omega),
    UInt64.toNat_one, Nat.mod_eq_of_lt hm, Nat.one_shiftLeft, Nat.mod_eq_of_lt hpow,
    UInt64.toNat_ofNat_of_lt' hpow]

theorem ofNat_two_pow_sub_one {m : ℕ} (hm : m < 64) :
    UInt64.ofNat (2 ^ m) - 1 = UInt64.ofNat (2 ^ m - 1) := by
  have hpow : 2 ^ m < 2 ^ 64 := Nat.pow_lt_pow_right (by norm_num) hm
  have hone : 1 ≤ 2 ^ m := Nat.one_le_two_pow
  have hle : (1 : UInt64) ≤ UInt64.ofNat (2 ^ m) := by
    rw [UInt64.le_iff_toNat_le, UInt64.toNat_ofNat_of_lt' hpow, UInt64.toNat_one]
    exact hone
  apply UInt64.toNat_inj.1
  rw [UInt64.toNat_sub_of_le _ _ hle, UInt64.toNat_ofNat_of_lt' hpow,
    UInt64.toNat_ofNat_of_lt' (show 2 ^ m - 1 < 2 ^ 64 by omega), UInt64.toNat_one]

theorem ofNat_succ (m : ℕ) : UInt64.ofNat m + 1 = UInt64.ofNat (m + 1) := by
  rw [UInt64.ofNat_add]
  rfl

/-- The level modulus and residue of a level below `63`, as the source computes them. -/
theorem levelModulus_ofNat {m : ℕ} (hm : m < 63) :
    (1 : UInt64) <<< (UInt64.ofNat m + 1) = UInt64.ofNat (2 ^ (m + 1)) := by
  rw [ofNat_succ, one_shiftLeft_ofNat (by omega)]

theorem levelResidue_ofNat {m : ℕ} (hm : m < 63) :
    UInt64.ofNat (2 ^ (m + 1)) / 2 - 1 = UInt64.ofNat (2 ^ m - 1) := by
  have hpow : 2 ^ (m + 1) < 2 ^ 64 := Nat.pow_lt_pow_right (by norm_num) (by omega)
  have hhalf : UInt64.ofNat (2 ^ (m + 1)) / 2 = UInt64.ofNat (2 ^ m) := by
    apply UInt64.toNat_inj.1
    rw [UInt64.toNat_div, UInt64.toNat_ofNat_of_lt' hpow,
      UInt64.toNat_ofNat_of_lt' (show 2 ^ m < 2 ^ 64 by omega), Nat.pow_succ]
    simp
  rw [hhalf, ofNat_two_pow_sub_one (by omega)]

/-- The number of a node from its coordinates, as long as its level is below `63`. -/
theorem nodeVal_ofNat {m : ℕ} (hm : m < 63) (q : ℕ) :
    nodeVal ⟨UInt64.ofNat m, UInt64.ofNat q⟩ = UInt64.ofNat (2 ^ (m + 1) * q + (2 ^ m - 1)) := by
  simp only [nodeVal, levelModulus_ofNat hm, levelResidue_ofNat hm, UInt64.ofNat_add,
    UInt64.ofNat_mul]

theorem ofNat_shiftRight_one {q : ℕ} (hq : q < 2 ^ 64) :
    UInt64.ofNat q >>> 1 = UInt64.ofNat (q / 2) := by
  apply UInt64.toNat_inj.1
  rw [UInt64.toNat_shiftRight, UInt64.toNat_ofNat_of_lt' hq,
    UInt64.toNat_ofNat_of_lt' (show q / 2 < 2 ^ 64 by omega)]
  simp [Nat.shiftRight_eq_div_pow]

/-- A leaf is at level `0`, at offset half its number. -/
theorem coordsForVal_of_even {leaf : UInt64} (heven : leaf.toNat % 2 = 0) :
    coordsForVal leaf = ⟨UInt64.ofNat 0, UInt64.ofNat (leaf.toNat / 2 ^ (0 + 1))⟩ := by
  have hlevel : level leaf = UInt64.ofNat 0 :=
    level_eq (by norm_num) (fun i hi => absurd hi (Nat.not_lt_zero i))
      (by simp [Nat.testBit_zero, heven])
  simp only [coordsForVal, hlevel, levelModulus_ofNat (m := 0) (by norm_num),
    levelResidue_ofNat (m := 0) (by norm_num)]
  congr 1
  apply UInt64.toNat_inj.1
  rw [UInt64.toNat_div, UInt64.toNat_ofNat_of_lt' (show 2 ^ (0 + 1) < 2 ^ 64 by norm_num),
    UInt64.toNat_ofNat_of_lt' (show leaf.toNat / 2 ^ (0 + 1) < 2 ^ 64 by
      have := leaf.toNat_lt; omega)]
  simp

/-- **The climb of `tree_path_update`**: from the node at level `k` above the leaf, the loop
writes the leaf's ancestor at every level from `k + 1` up to the root level `R`, and nothing
else. -/
theorem treePathUpdateLoop_eq {leaf R : ℕ} (hleaf : leaf < 2 ^ 64) (hR : R < 63) :
    ∀ fuel k (values : ℕ → UInt64), k ≤ R → R - k ≤ fuel →
      treePathUpdateLoop (UInt64.ofNat R) fuel
          ⟨UInt64.ofNat k, UInt64.ofNat (leaf / 2 ^ (k + 1))⟩ values =
        fun j => if k < j ∧ j ≤ R then UInt64.ofNat (ancestorAt leaf j) else values j
  | 0, k, values, hk, hfuel => by
    funext j
    rw [if_neg (by omega)]
    rfl
  | fuel + 1, k, values, hk, hfuel => by
    unfold treePathUpdateLoop
    by_cases hkR : k < R
    · have hlt : UInt64.ofNat k < UInt64.ofNat R := by
        rw [UInt64.lt_iff_toNat_lt, UInt64.toNat_ofNat_of_lt' (show k < 2 ^ 64 by omega),
          UInt64.toNat_ofNat_of_lt' (show R < 2 ^ 64 by omega)]
        exact hkR
      have hup : parent ⟨UInt64.ofNat k, UInt64.ofNat (leaf / 2 ^ (k + 1))⟩ =
          ⟨UInt64.ofNat (k + 1), UInt64.ofNat (leaf / 2 ^ (k + 1 + 1))⟩ := by
        have hq : leaf / 2 ^ (k + 1) < 2 ^ 64 := lt_of_le_of_lt (Nat.div_le_self _ _) hleaf
        rw [parent, ofNat_shiftRight_one hq, Nat.div_div_eq_div_mul, ← Nat.pow_succ, ofNat_succ]
      have hlevel : (UInt64.ofNat (k + 1)).toNat = k + 1 :=
        UInt64.toNat_ofNat_of_lt' (show k + 1 < 2 ^ 64 by omega)
      dsimp only
      rw [if_pos hlt, hup, treePathUpdateLoop_eq hleaf hR fuel (k + 1) _ (by omega) (by omega),
        hlevel, nodeVal_ofNat (by omega)]
      funext j
      by_cases hj : j = k + 1
      · subst hj
        simp [hkR, ancestorAt]
      · rw [Function.update_of_ne hj]
        exact if_congr (by omega) rfl rfl
    · have hkR' : k = R := by omega
      subst hkR'
      rw [if_neg (UInt64.lt_irrefl _)]
      funext j
      rw [if_neg (by omega)]

theorem ancestorAt_zero {leaf : ℕ} (heven : leaf % 2 = 0) : ancestorAt leaf 0 = leaf := by
  simp only [ancestorAt, zero_add, pow_one, pow_zero, Nat.sub_self, add_zero]
  omega

/-- The leaves below the ancestor at level `k` are `2^(k+1) q, …, 2^(k+1) q + 2^(k+1) - 2`, its
number minus and plus `2^k - 1`; the leaf is one of them. -/
theorem ancestorAt_sub_le (leaf k : ℕ) : ancestorAt leaf k - (2 ^ k - 1) ≤ leaf := by
  have hdiv := Nat.div_add_mod leaf (2 ^ (k + 1))
  rw [ancestorAt]
  omega

theorem le_ancestorAt_add {leaf : ℕ} (k : ℕ) (heven : leaf % 2 = 0) :
    leaf ≤ ancestorAt leaf k + (2 ^ k - 1) := by
  have hdiv := Nat.div_add_mod leaf (2 ^ (k + 1))
  have hlt := Nat.mod_lt leaf (Nat.two_pow_pos (k + 1))
  have hmod : leaf % 2 ^ (k + 1) % 2 = 0 := by
    rw [Nat.mod_mod_of_dvd _ (dvd_pow_self 2 (Nat.succ_ne_zero k))]
    exact heven
  have hpow : 2 ^ (k + 1) = 2 * 2 ^ k := Nat.pow_succ'
  have hone : 1 ≤ 2 ^ k := Nat.one_le_two_pow
  rw [ancestorAt]
  omega

theorem ancestorAt_le (leaf k : ℕ) : ancestorAt leaf k ≤ leaf + (2 ^ k - 1) := by
  have hdiv := Nat.div_add_mod leaf (2 ^ (k + 1))
  rw [ancestorAt]
  omega

/-- The ancestor at the top level of a tree holding the leaf is the root. -/
theorem ancestorAt_root {leaf R : ℕ} (hleaf : leaf < 2 ^ (R + 1)) :
    ancestorAt leaf R = 2 ^ R - 1 := by
  rw [ancestorAt, Nat.div_eq_of_lt hleaf, mul_zero, zero_add]

theorem level_ancestorAt {leaf k : ℕ} (hk : k < 64) (ha : ancestorAt leaf k < 2 ^ 64) :
    level (UInt64.ofNat (ancestorAt leaf k)) = UInt64.ofNat k := by
  have htoNat : (UInt64.ofNat (ancestorAt leaf k)).toNat = ancestorAt leaf k :=
    UInt64.toNat_ofNat_of_lt' ha
  apply level_eq hk
  · intro i hi
    rw [htoNat, testBit_ancestorAt leaf hi.le, decide_eq_true hi]
  · rw [htoNat, testBit_ancestorAt leaf le_rfl, decide_eq_false (lt_irrefl k)]

/-- The step `(1 << level(val)) - 1` of the subtree bounds at an ancestor. -/
theorem subtreeStep_ancestorAt {leaf k : ℕ} (hk : k < 64) (ha : ancestorAt leaf k < 2 ^ 64) :
    (1 : UInt64) <<< level (UInt64.ofNat (ancestorAt leaf k)) - 1 = UInt64.ofNat (2 ^ k - 1) := by
  rw [level_ancestorAt hk ha, one_shiftLeft_ofNat hk, ofNat_two_pow_sub_one hk]

theorem treePathLowerBound_ancestorAt {leaf k : ℕ} (hk : k < 64) (ha : ancestorAt leaf k < 2 ^ 64) :
    (treePathLowerBound (UInt64.ofNat (ancestorAt leaf k))).toNat =
      ancestorAt leaf k - (2 ^ k - 1) := by
  have hstep : 2 ^ k - 1 ≤ ancestorAt leaf k := by
    rw [ancestorAt]
    omega
  have hle : UInt64.ofNat (2 ^ k - 1) ≤ UInt64.ofNat (ancestorAt leaf k) := by
    rw [UInt64.le_iff_toNat_le, UInt64.toNat_ofNat_of_lt' ha,
      UInt64.toNat_ofNat_of_lt' (show 2 ^ k - 1 < 2 ^ 64 by omega)]
    exact hstep
  rw [treePathLowerBound, subtreeStep_ancestorAt hk ha, UInt64.toNat_sub_of_le _ _ hle,
    UInt64.toNat_ofNat_of_lt' ha, UInt64.toNat_ofNat_of_lt' (show 2 ^ k - 1 < 2 ^ 64 by omega)]

theorem treePathUpperBound_ancestorAt {leaf k : ℕ} (hk : k < 64)
    (ha : ancestorAt leaf k + (2 ^ k - 1) < 2 ^ 64) :
    (treePathUpperBound (UInt64.ofNat (ancestorAt leaf k))).toNat =
      ancestorAt leaf k + (2 ^ k - 1) := by
  rw [treePathUpperBound, subtreeStep_ancestorAt hk (by omega), ← UInt64.ofNat_add,
    UInt64.toNat_ofNat_of_lt' ha]

/-- Below a root of level `L - 1`, every ancestor of a leaf is a node of the tree. -/
theorem ancestorAt_lt {leaf L k : ℕ} (hleaf : leaf < 2 ^ L) (hk : k < L) :
    ancestorAt leaf k < 2 ^ L - 1 := by
  have hsplit : 2 ^ L = 2 ^ (k + 1) * 2 ^ (L - (k + 1)) := by
    rw [← Nat.pow_add]
    congr 1
    omega
  have hq : leaf / 2 ^ (k + 1) < 2 ^ (L - (k + 1)) := by
    rw [Nat.div_lt_iff_lt_mul (Nat.two_pow_pos _), Nat.mul_comm, ← hsplit]
    exact hleaf
  have hmul : 2 ^ (k + 1) * (leaf / 2 ^ (k + 1) + 1) ≤ 2 ^ L :=
    hsplit ▸ Nat.mul_le_mul_left _ hq
  have hpow : 2 ^ (k + 1) = 2 * 2 ^ k := Nat.pow_succ'
  have hone : 1 ≤ 2 ^ k := Nat.one_le_two_pow
  rw [ancestorAt, Nat.mul_succ] at *
  omega

/-- **Ancestors at two levels are two nodes**, whatever their leaves: the level of a node is the
number of its trailing ones. -/
theorem ancestorAt_level_inj {leaf leaf' k k' : ℕ} (h : ancestorAt leaf k = ancestorAt leaf' k') :
    k = k' := by
  by_contra hne
  rcases Nat.lt_or_gt_of_ne hne with hlt | hlt
  · have := congrArg (Nat.testBit · k) h
    simp only [testBit_ancestorAt leaf le_rfl, testBit_ancestorAt leaf' hlt.le, lt_irrefl,
      decide_false, hlt, decide_true] at this
    exact Bool.false_ne_true this
  · have := congrArg (Nat.testBit · k') h
    simp only [testBit_ancestorAt leaf hlt.le, testBit_ancestorAt leaf' le_rfl, lt_irrefl,
      decide_false, hlt, decide_true] at this
    exact Bool.false_ne_true this.symm

/-- **A leaf between the subtree bounds of an ancestor has that ancestor.** -/
theorem ancestorAt_eq_of_bounds {leaf leaf' k : ℕ} (hlo : ancestorAt leaf k - (2 ^ k - 1) ≤ leaf')
    (hhi : leaf' ≤ ancestorAt leaf k + (2 ^ k - 1)) : ancestorAt leaf' k = ancestorAt leaf k := by
  have hpow : 2 ^ (k + 1) = 2 * 2 ^ k := Nat.pow_succ'
  have hone : 1 ≤ 2 ^ k := Nat.one_le_two_pow
  have hq : leaf' / 2 ^ (k + 1) = leaf / 2 ^ (k + 1) := by
    rw [ancestorAt] at hlo hhi
    refine Nat.div_eq_of_lt_le ?_ ?_
    · rw [Nat.mul_comm]
      omega
    · rw [Nat.succ_mul, Nat.mul_comm]
      omega
  rw [ancestorAt, ancestorAt, hq]

/-- `tree_path_update` on an even leaf below the root passes both `CHECK`s and sets the path's
value at every level `j < length` to the leaf's ancestor at level `j`. -/
theorem treePathUpdate_eq_ancestors (t : TreePath) (leaf : UInt64) (hL₁ : 1 ≤ t.length.toNat)
    (hL₂ : t.length.toNat ≤ 63) (heven : leaf.toNat % 2 = 0)
    (hleaf : leaf.toNat ≤ 2 * (2 ^ (t.length.toNat - 1) - 1)) :
    treePathUpdate t leaf = some ⟨t.length, fun j =>
      if j < t.length.toNat then UInt64.ofNat (ancestorAt leaf.toNat j) else t.values j⟩ := by
  have hpowR : 2 ^ (t.length.toNat - 1) ≤ 2 ^ 62 := Nat.pow_le_pow_right (by norm_num) (by omega)
  have hpow62 : (2 : ℕ) ^ 62 < 2 ^ 64 := by norm_num
  have hrootLevel : t.length - 1 = UInt64.ofNat (t.length.toNat - 1) := by
    apply UInt64.toNat_inj.1
    rw [UInt64.toNat_sub_of_le _ _ (UInt64.le_iff_toNat_le.2 (by simpa using hL₁)),
      UInt64.toNat_one, UInt64.toNat_ofNat_of_lt' (show t.length.toNat - 1 < 2 ^ 64 by omega)]
  have hroot : (1 : UInt64) <<< UInt64.ofNat (t.length.toNat - 1) - 1 =
      UInt64.ofNat (2 ^ (t.length.toNat - 1) - 1) := by
    rw [one_shiftLeft_ofNat (by omega), ofNat_two_pow_sub_one (by omega)]
  have hcheck₁ : leaf % 2 = 0 := by
    apply UInt64.toNat_inj.1
    simpa [UInt64.toNat_mod] using heven
  have hcheck₂ : leaf ≤ 2 * UInt64.ofNat (2 ^ (t.length.toNat - 1) - 1) := by
    rw [UInt64.le_iff_toNat_le, UInt64.toNat_mul,
      UInt64.toNat_ofNat_of_lt' (show 2 ^ (t.length.toNat - 1) - 1 < 2 ^ 64 by omega)]
    simp only [UInt64.toNat_ofNat]
    rw [Nat.mod_eq_of_lt (by omega)]
    exact hleaf
  unfold treePathUpdate
  dsimp only
  rw [hrootLevel, hroot, if_pos hcheck₁, if_pos hcheck₂, coordsForVal_of_even heven,
    treePathUpdateLoop_eq leaf.toNat_lt (by omega) 64 0 _ (by omega) (by omega)]
  congr
  funext j
  by_cases hj : j = 0
  · subst hj
    rw [if_neg (by omega), Function.update_self, if_pos (by omega), ancestorAt_zero heven,
      UInt64.ofNat_toNat]
  · rw [Function.update_of_ne hj]
    exact if_congr (by omega) rfl rfl

/-- **`tree_path_update` computes the root path**: for a tree of `L` levels (`1 ≤ L ≤ 63`) and
an even leaf below the root, every `values[k]` with `k < L` is at level `k` and has the leaf
between its subtree bounds, and `values[L - 1]` is the root `2^(L-1) - 1`. -/
theorem treePathUpdate_root_path (t : TreePath) (leaf : UInt64) (hL₁ : 1 ≤ t.length.toNat)
    (hL₂ : t.length.toNat ≤ 63) (heven : leaf.toNat % 2 = 0)
    (hleaf : leaf.toNat ≤ 2 * (2 ^ (t.length.toNat - 1) - 1)) :
    ∃ t', treePathUpdate t leaf = some t' ∧ t'.length = t.length ∧
      (∀ k < t.length.toNat, (treePathLevel (t'.values k)).toNat = k ∧
        treePathLowerBound (t'.values k) ≤ leaf ∧ leaf ≤ treePathUpperBound (t'.values k)) ∧
      (t'.values (t.length.toNat - 1)).toNat = 2 ^ (t.length.toNat - 1) - 1 := by
  have hpow62 : (2 : ℕ) ^ 62 < 2 ^ 64 := by norm_num
  refine ⟨_, treePathUpdate_eq_ancestors t leaf hL₁ hL₂ heven hleaf, rfl, ?_, ?_⟩
  · intro k hk
    have hpowk : 2 ^ k ≤ 2 ^ (t.length.toNat - 1) := Nat.pow_le_pow_right (by norm_num) (by omega)
    have hpowR : 2 ^ (t.length.toNat - 1) ≤ 2 ^ 62 := Nat.pow_le_pow_right (by norm_num) (by omega)
    have hup := ancestorAt_le leaf.toNat k
    have ha : ancestorAt leaf.toNat k + (2 ^ k - 1) < 2 ^ 64 := by omega
    dsimp only
    rw [if_pos hk]
    refine ⟨?_, ?_, ?_⟩
    · rw [treePathLevel, level_ancestorAt (by omega) (by omega),
        UInt64.toNat_ofNat_of_lt' (show k < 2 ^ 64 by omega)]
    · rw [UInt64.le_iff_toNat_le, treePathLowerBound_ancestorAt (by omega) (by omega)]
      exact ancestorAt_sub_le _ _
    · rw [UInt64.le_iff_toNat_le, treePathUpperBound_ancestorAt (by omega) ha]
      exact le_ancestorAt_add _ heven
  · have hpowR : 2 ^ (t.length.toNat - 1) ≤ 2 ^ 62 := Nat.pow_le_pow_right (by norm_num) (by omega)
    have hroot : leaf.toNat < 2 ^ (t.length.toNat - 1 + 1) := by
      have hone : 1 ≤ 2 ^ (t.length.toNat - 1) := Nat.one_le_two_pow
      rw [Nat.pow_succ]
      omega
    dsimp only
    rw [if_pos (by omega), ancestorAt_root hroot,
      UInt64.toNat_ofNat_of_lt' (show 2 ^ (t.length.toNat - 1) - 1 < 2 ^ 64 by omega)]

theorem treePathUpdate_root_path_three_levels :
    let t : TreePath := ⟨3, fun _ => 0⟩
    let leaf : UInt64 := 4
    (1 ≤ t.length.toNat ∧ t.length.toNat ≤ 63 ∧ leaf.toNat % 2 = 0 ∧
      leaf.toNat ≤ 2 * (2 ^ (t.length.toNat - 1) - 1)) ∧
    ∃ t', treePathUpdate t leaf = some t' ∧ t'.length = t.length ∧
      (∀ k < t.length.toNat, (treePathLevel (t'.values k)).toNat = k ∧
        treePathLowerBound (t'.values k) ≤ leaf ∧ leaf ≤ treePathUpperBound (t'.values k)) ∧
      (t'.values (t.length.toNat - 1)).toNat = 2 ^ (t.length.toNat - 1) - 1 := by
  intro t leaf
  have hL₁ : 1 ≤ t.length.toNat := by decide
  have hL₂ : t.length.toNat ≤ 63 := by decide
  have heven : leaf.toNat % 2 = 0 := by decide
  have hleaf : leaf.toNat ≤ 2 * (2 ^ (t.length.toNat - 1) - 1) := by decide
  exact ⟨⟨hL₁, hL₂, heven, hleaf⟩, treePathUpdate_root_path t leaf hL₁ hL₂ heven hleaf⟩

end ContactDiscovery
