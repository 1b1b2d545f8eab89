import Mathlib

/-!
# Bitonic sorting networks of arbitrary length, in place

A data-oblivious sort on the index range `[lb, ub)` of an array `f : ℕ → α`, for every length
`ub - lb` (not only powers of two):

* `condSwap` — compare-exchange of two entries, a swap or the identity;
* `cexPass` — the loop `for (i = lo; i < lo + k; ++i) cex(i, i + m)` of compare-exchanges at
  distance `m`, each swapping when `dir == cmp (f i) (f (i + m))`;
* `merge` — at length `n ≥ 2` take `p = splitPoint n`, the largest power of two below `n`,
  run `cexPass` over `[lb, ub - p)` at distance `p`, then merge `[lb, lb + p)` and
  `[lb + p, ub)`;
* `sort` — sort the first `⌊n / 2⌋` entries with `!dir`, the rest with `dir`, then merge.

The comparison `cmp` is a parameter: callers instantiate it with their own order on keys.

Results:

* `PermOn` (the range is permuted, everything outside it is left alone) for `cexPass`, `merge`
  and `sort` (`cexPass_permOn`, `merge_permOn`, `sort_permOn`), and as lists
  (`PermOn.perm_map_range`);
* `comp_sort` — a map that keeps every comparison up to the entries it identifies commutes with
  the network (the tool of the zero-one principle, `Lib.BitonicSorted`).
-/

set_option autoImplicit false

namespace Bitonic

variable {α : Type} (cmp : α → α → Bool)

/-- Exchange entries `i` and `j` when `c` holds. -/
def condSwap (c : Bool) (f : ℕ → α) (i j : ℕ) : ℕ → α :=
  if c then f ∘ Equiv.swap i j else f

/-- `k` compare-exchanges `(i, i + m), (i + 1, i + 1 + m), …`. -/
def cexPass (dir : Bool) (m : ℕ) : ℕ → ℕ → (ℕ → α) → ℕ → α
  | 0, _, f => f
  | k + 1, i, f => cexPass dir m k (i + 1) (condSwap (dir == cmp (f i) (f (i + m))) f i (i + m))

/-- The largest power of two strictly below `n` (for `n ≥ 2`). -/
def splitPoint (n : ℕ) : ℕ := 2 ^ Nat.log2 (n - 1)

theorem splitPoint_pos (n : ℕ) : 0 < splitPoint n := Nat.two_pow_pos _

theorem splitPoint_lt {n : ℕ} (hn : 1 < n) : splitPoint n < n := by
  have h := Nat.log2_self_le (show n - 1 ≠ 0 by omega)
  unfold splitPoint
  omega

/-- The largest power of two below `2 ^ (j + 1)` is `2 ^ j`. -/
theorem splitPoint_two_pow (j : ℕ) : splitPoint (2 ^ (j + 1)) = 2 ^ j := by
  have h := Nat.one_le_two_pow (n := j)
  unfold splitPoint
  congr 1
  rw [Nat.log2_eq_iff (by rw [Nat.pow_succ]; omega)]
  rw [Nat.pow_succ]
  omega

/-- The split point is at least half the length. -/
theorem splitPoint_two_mul {n : ℕ} (hn : 1 < n) : n ≤ 2 * splitPoint n := by
  have h := Nat.lt_log2_self (n := n - 1)
  unfold splitPoint
  rw [Nat.pow_succ] at h
  omega

/-- The bitonic merge of `[lb, ub)` in direction `dir`. -/
def merge (dir : Bool) (f : ℕ → α) (lb ub : ℕ) : ℕ → α :=
  if _h : 1 < ub - lb then
    let p := splitPoint (ub - lb)
    let f := cexPass cmp dir p (ub - lb - p) lb f
    merge dir (merge dir f lb (lb + p)) (lb + p) ub
  else f
termination_by ub - lb
decreasing_by
  all_goals
    have h₁ := splitPoint_lt _h
    have h₂ := splitPoint_pos (ub - lb)
    omega

/-- The bitonic sort of `[lb, ub)` in direction `dir`. -/
def sort (dir : Bool) (f : ℕ → α) (lb ub : ℕ) : ℕ → α :=
  if _h : 1 < ub - lb then
    let half := (ub - lb) / 2
    merge cmp dir (sort dir (sort (!dir) f lb (lb + half)) (lb + half) ub) lb ub
  else f
termination_by ub - lb
decreasing_by all_goals omega

/-! ## Permutations of a range -/

/-- `g` is `f` with the entries of `[lb, ub)` permuted. -/
def PermOn (lb ub : ℕ) (f g : ℕ → α) : Prop :=
  ∃ σ : Equiv.Perm ℕ, (∀ k, (k < lb ∨ ub ≤ k) → σ k = k) ∧ g = f ∘ σ

variable {cmp}

theorem PermOn.refl (lb ub : ℕ) (f : ℕ → α) : PermOn lb ub f f :=
  ⟨1, fun _ _ => rfl, rfl⟩

theorem PermOn.trans {lb ub : ℕ} {f g h : ℕ → α} (h₁ : PermOn lb ub f g) (h₂ : PermOn lb ub g h) :
    PermOn lb ub f h := by
  obtain ⟨σ, hσ, rfl⟩ := h₁
  obtain ⟨τ, hτ, rfl⟩ := h₂
  refine ⟨σ * τ, fun k hk => ?_, rfl⟩
  simp only [Equiv.Perm.coe_mul, Function.comp_apply]
  rw [hτ k hk, hσ k hk]

theorem PermOn.mono {lb ub lb' ub' : ℕ} {f g : ℕ → α} (h : PermOn lb ub f g) (hl : lb' ≤ lb)
    (hu : ub ≤ ub') : PermOn lb' ub' f g := by
  obtain ⟨σ, hσ, rfl⟩ := h
  exact ⟨σ, fun k hk => hσ k (by omega), rfl⟩

/-- Outside the range a permuted array is unchanged. -/
theorem PermOn.eq_outside {lb ub : ℕ} {f g : ℕ → α} (h : PermOn lb ub f g) {k : ℕ}
    (hk : k < lb ∨ ub ≤ k) : g k = f k := by
  obtain ⟨σ, hσ, rfl⟩ := h
  simp [hσ k hk]

/-- Every entry of a permuted array is an entry of the original. -/
theorem PermOn.exists_eq {lb ub : ℕ} {f g : ℕ → α} (h : PermOn lb ub f g) (k : ℕ) :
    ∃ j, g k = f j := by
  obtain ⟨σ, -, rfl⟩ := h
  exact ⟨σ k, rfl⟩

theorem condSwap_permOn {lb ub i j : ℕ} (c : Bool) (f : ℕ → α) (hi : lb ≤ i ∧ i < ub)
    (hj : lb ≤ j ∧ j < ub) : PermOn lb ub f (condSwap c f i j) := by
  unfold condSwap
  cases c
  · exact PermOn.refl _ _ _
  · refine ⟨Equiv.swap i j, fun k hk => ?_, rfl⟩
    exact Equiv.swap_apply_of_ne_of_ne (by omega) (by omega)

theorem cexPass_permOn (dir : Bool) (m : ℕ) :
    ∀ (k i : ℕ) (f : ℕ → α), PermOn i (i + k + m) f (cexPass cmp dir m k i f)
  | 0, i, f => PermOn.refl _ _ _
  | k + 1, i, f => by
    -- the first exchange, then the remaining `k` from `i + 1`, all inside the wider range
    let c := dir == cmp (f i) (f (i + m))
    have h₁ : PermOn i (i + (k + 1) + m) f (condSwap c f i (i + m)) :=
      condSwap_permOn c f ⟨le_refl i, by omega⟩ ⟨by omega, by omega⟩
    have h₂ := cexPass_permOn dir m k (i + 1) (condSwap c f i (i + m))
    exact h₁.trans (h₂.mono (by omega) (by omega))

theorem merge_permOn (dir : Bool) (f : ℕ → α) (lb ub : ℕ) :
    PermOn lb ub f (merge cmp dir f lb ub) := by
  induction f, lb, ub using merge.induct cmp dir with
  | case1 f lb ub h p g ih₁ _ ih₂ =>
    -- the exchange pass, then the two half merges, each permuting a part of `[lb, ub)`
    rw [merge, dif_pos h]
    have hp : p < ub - lb := splitPoint_lt h
    have h₀ : PermOn lb ub f g := (cexPass_permOn dir p (ub - lb - p) lb f).mono le_rfl (by omega)
    exact h₀.trans ((ih₁.mono le_rfl (by omega)).trans (ih₂.mono (by omega) le_rfl))
  | case2 f lb ub h => rw [merge, dif_neg h]; exact PermOn.refl _ _ _

theorem sort_permOn (dir : Bool) (f : ℕ → α) (lb ub : ℕ) :
    PermOn lb ub f (sort cmp dir f lb ub) := by
  induction dir, f, lb, ub using sort.induct cmp with
  | case1 dir f lb ub h half ih₁ _ ih₂ =>
    -- the two half sorts permute the two halves; the merge then permutes the whole range
    rw [sort, dif_pos h]
    have hl : PermOn lb ub f _ := ih₁.mono le_rfl (by omega)
    have hr : PermOn lb ub _ _ := ih₂.mono (by omega) le_rfl
    exact (hl.trans hr).trans (merge_permOn dir _ lb ub)
  | case2 dir f lb ub h => rw [sort, dif_neg h]; exact PermOn.refl _ _ _

/-- A permutation that fixes everything outside `[lb, ub)` maps `[lb, ub)` into itself. -/
theorem perm_mem_of_fixes {σ : Equiv.Perm ℕ} {lb ub : ℕ} (hσ : ∀ k, (k < lb ∨ ub ≤ k) → σ k = k)
    {x : ℕ} (h₁ : lb ≤ x) (h₂ : x < ub) : lb ≤ σ x ∧ σ x < ub := by
  by_contra hout
  -- `σ` fixes `σ x`, so `σ x = x`, which lies inside
  have hx : σ x = x := σ.injective (hσ (σ x) (by omega))
  omega

/-- Inside the range a permuted array takes its entries from the range. -/
theorem PermOn.exists_mem {lb ub : ℕ} {f g : ℕ → α} (h : PermOn lb ub f g) {x : ℕ} (h₁ : lb ≤ x)
    (h₂ : x < ub) : ∃ y, lb ≤ y ∧ y < ub ∧ g x = f y := by
  obtain ⟨σ, hσ, rfl⟩ := h
  exact ⟨σ x, (perm_mem_of_fixes hσ h₁ h₂).1, (perm_mem_of_fixes hσ h₁ h₂).2, rfl⟩

/-! ## The entries of a range, as a list -/

/-- A permuted range lists the same entries. -/
theorem PermOn.perm_map_range {n : ℕ} {f g : ℕ → α} (h : PermOn 0 n f g) :
    ((List.range n).map g).Perm ((List.range n).map f) := by
  obtain ⟨σ, hσ, rfl⟩ := h
  rw [← List.map_map]
  refine List.Perm.map f ?_
  -- `σ` maps `[0, n)` onto itself
  rw [List.perm_ext_iff_of_nodup (List.nodup_range.map σ.injective) List.nodup_range]
  intro y
  simp only [List.mem_map, List.mem_range]
  constructor
  · rintro ⟨x, hx, rfl⟩
    exact (perm_mem_of_fixes hσ (Nat.zero_le x) hx).2
  · intro hy
    refine ⟨σ.symm y, ?_, σ.apply_symm_apply y⟩
    by_contra hout
    have hfix : σ (σ.symm y) = σ.symm y := hσ _ (Or.inr (not_lt.1 hout))
    rw [σ.apply_symm_apply] at hfix
    omega

/-! ## Maps through the network

A map `g` that keeps every comparison the network makes, up to entries it identifies, commutes
with the network: exchanging two entries that `g` identifies changes nothing of `g ∘ f`. -/

section Comp

variable {β : Type} (cmp' : β → β → Bool) (g : α → β)

theorem comp_condSwap {c c' : Bool} (f : ℕ → α) (i j : ℕ) (h : c' = c ∨ g (f i) = g (f j)) :
    g ∘ condSwap c f i j = condSwap c' (g ∘ f) i j := by
  rcases h with rfl | h
  · cases c' <;> rfl
  · -- exchanging two entries that `g` identifies leaves `g ∘ f` as it is
    have hswap : (g ∘ f) ∘ Equiv.swap i j = g ∘ f := by
      funext x
      simp only [Function.comp_apply, Equiv.swap_apply_def]
      split_ifs with hi hj
      · rw [hi, h]
      · rw [hj, h]
      · rfl
    unfold condSwap
    cases c <;> cases c' <;> simp only [Bool.false_eq_true, ite_false, ite_true] <;> first | rfl | exact hswap | exact hswap.symm

variable {e : Bool} (hg : ∀ a b, cmp' (g a) (g b) = (cmp a b ^^ e) ∨ g a = g b)
include hg

theorem comp_cexPass (dir : Bool) (m : ℕ) : ∀ (k i : ℕ) (f : ℕ → α),
    g ∘ cexPass cmp dir m k i f = cexPass cmp' (dir ^^ e) m k i (g ∘ f)
  | 0, i, f => rfl
  | k + 1, i, f => by
    have hc : ((dir ^^ e) == cmp' (g (f i)) (g (f (i + m)))) = (dir == cmp (f i) (f (i + m))) ∨
        g (f i) = g (f (i + m)) := by
      rcases hg (f i) (f (i + m)) with h | h
      · rw [h]; left; cases dir <;> cases e <;> cases cmp (f i) (f (i + m)) <;> rfl
      · exact Or.inr h
    rw [cexPass, cexPass, comp_cexPass dir m k (i + 1), comp_condSwap g f i (i + m) hc]
    rfl

theorem comp_merge (dir : Bool) (f : ℕ → α) (lb ub : ℕ) :
    g ∘ merge cmp dir f lb ub = merge cmp' (dir ^^ e) (g ∘ f) lb ub := by
  induction f, lb, ub using merge.induct cmp dir with
  | case1 f lb ub h p f' ih₁ _ ih₂ =>
    rw [merge, dif_pos h]
    conv_rhs => rw [merge, dif_pos h]
    dsimp only
    rw [ih₂, ih₁, comp_cexPass cmp' g hg]
  | case2 f lb ub h =>
    rw [merge, dif_neg h]
    conv_rhs => rw [merge, dif_neg h]

theorem comp_sort (dir : Bool) (f : ℕ → α) (lb ub : ℕ) :
    g ∘ sort cmp dir f lb ub = sort cmp' (dir ^^ e) (g ∘ f) lb ub := by
  induction dir, f, lb, ub using sort.induct cmp with
  | case1 dir f lb ub h half ih₁ _ ih₂ =>
    rw [sort, dif_pos h]
    conv_rhs => rw [sort, dif_pos h]
    dsimp only
    rw [comp_merge cmp' g hg, ih₂, ih₁, Bool.not_xor]
  | case2 dir f lb ub h =>
    rw [sort, dif_neg h]
    conv_rhs => rw [sort, dif_neg h]

end Comp

end Bitonic
