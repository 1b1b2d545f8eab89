import Mathlib
import ContactDiscovery.Lib.Bitonic

/-!
# The bitonic network sorts

The ascending `Bitonic.sort` leaves every range sorted, for every length, by the zero-one
principle:

* `cexPass_lt_apply` — with the comparison `<` of a linear order and at most `m` exchanges at
  distance `m`, the pass puts the minimum of each pair first and the maximum second;
* `Valley` (ones, zeros, ones) and `Peak` (zeros, ones, zeros) — the shapes of zero-one arrays
  the merges meet; `valley_cexPass`, `peak_cexPass` — what one pass makes of them;
* `merge_sortedOn_valley` — the ascending merge sorts every valley (`merge_sortedOn_pow2`: and
  every valley or peak of a power-of-two length), `sort_sortedOn_bool` — the sort sorts every
  zero-one array;
* `sort_sortedOn` — the sort sorts every array over a linear order: a pair left out of order
  would be one of the zero-one array thresholded at the smaller entry (`comp_sort`).
-/

set_option autoImplicit false

namespace Bitonic

variable {α : Type}

/-! ## Zero-one arrays -/

section Shapes

variable {β : Type} [Preorder β]

/-- `f` is ascending on `[lb, ub)`. -/
def SortedOn (f : ℕ → β) (lb ub : ℕ) : Prop :=
  ∀ i j, lb ≤ i → i ≤ j → j < ub → f i ≤ f j

/-- No entry of `[lb, mid)` is above an entry of `[mid, ub)`. -/
def LeAcross (f : ℕ → β) (lb mid ub : ℕ) : Prop :=
  ∀ i j, lb ≤ i → i < mid → mid ≤ j → j < ub → f i ≤ f j

/-- Two sorted parts, nothing of the first above the second: the whole is sorted. -/
theorem SortedOn.of_leAcross {f : ℕ → β} {lb mid ub : ℕ} (hl : SortedOn f lb mid)
    (hr : SortedOn f mid ub) (hx : LeAcross f lb mid ub) : SortedOn f lb ub := by
  intro i j hi hij hj
  by_cases hjm : j < mid
  · exact hl i j hi hij hjm
  by_cases him : mid ≤ i
  · exact hr i j him hij hj
  · exact hx i j hi (by omega) (by omega) hj

/-- An array of at most one entry is sorted. -/
theorem sortedOn_of_le_one {f : ℕ → β} {lb ub : ℕ} (h : ub - lb ≤ 1) : SortedOn f lb ub := by
  intro i j hi hij hj
  rw [show j = i by omega]

theorem SortedOn.congr {f g : ℕ → β} {lb ub : ℕ} (hf : SortedOn f lb ub)
    (h : ∀ x, lb ≤ x → x < ub → g x = f x) : SortedOn g lb ub := by
  intro i j hi hij hj
  rw [h i hi (by omega), h j (by omega) hj]
  exact hf i j hi hij hj

end Shapes

/-- On `[lb, ub)` the zero-one array `f` is zero exactly within `[p, q)`: ones, zeros, ones. -/
def Valley (f : ℕ → Bool) (lb ub : ℕ) : Prop :=
  ∃ p q, ∀ x, lb ≤ x → x < ub → (f x = false ↔ p ≤ x ∧ x < q)

/-- On `[lb, ub)` the zero-one array `f` is one exactly within `[p, q)`: zeros, ones, zeros. -/
def Peak (f : ℕ → Bool) (lb ub : ℕ) : Prop :=
  ∃ p q, ∀ x, lb ≤ x → x < ub → (f x = true ↔ p ≤ x ∧ x < q)

section ZeroOne

variable {f g : ℕ → Bool} {lb ub : ℕ}

theorem Valley.congr (hf : Valley f lb ub) (h : ∀ x, lb ≤ x → x < ub → g x = f x) :
    Valley g lb ub := by
  obtain ⟨p, q, hpq⟩ := hf
  exact ⟨p, q, fun x h₁ h₂ => by rw [h x h₁ h₂]; exact hpq x h₁ h₂⟩

theorem Peak.congr (hf : Peak f lb ub) (h : ∀ x, lb ≤ x → x < ub → g x = f x) :
    Peak g lb ub := by
  obtain ⟨p, q, hpq⟩ := hf
  exact ⟨p, q, fun x h₁ h₂ => by rw [h x h₁ h₂]; exact hpq x h₁ h₂⟩

/-- A sorted zero-one array is zeros up to a threshold, then ones. -/
theorem SortedOn.exists_threshold (hf : SortedOn f lb ub) :
    ∃ t, ∀ x, lb ≤ x → x < ub → (f x = false ↔ x < t) := by
  induction ub with
  | zero => exact ⟨0, fun x _ h => absurd h (Nat.not_lt_zero x)⟩
  | succ ub ih =>
    obtain ⟨t, ht⟩ := ih fun i j hi hij hj => hf i j hi hij (by omega)
    by_cases hlast : lb ≤ ub ∧ f ub = false
    · -- the last entry is zero, and every entry below it too
      refine ⟨ub + 1, fun x h₁ h₂ => ⟨fun _ => h₂, fun _ => ?_⟩⟩
      have hle := hf x ub h₁ (by omega) (by omega)
      rw [hlast.2] at hle
      exact Bool.eq_false_iff.2 fun h => by rw [h] at hle; exact absurd hle (by decide)
    · refine ⟨min t ub, fun x h₁ h₂ => ?_⟩
      by_cases hx : x = ub
      · subst hx
        have : f x = true := by simpa [h₁] using hlast
        simp only [this, Bool.true_eq_false, false_iff]
        omega
      · rw [ht x h₁ (by omega)]
        omega

/-- A descending part followed by an ascending part is a valley. -/
theorem valley_of_sortedOn (mid : ℕ) (hl : SortedOn (fun x => !f x) lb mid)
    (hr : SortedOn f mid ub) : Valley f lb ub := by
  obtain ⟨s, hs⟩ := hl.exists_threshold
  obtain ⟨t, ht⟩ := hr.exists_threshold
  refine ⟨min s mid, max t mid, fun x h₁ h₂ => ?_⟩
  by_cases hx : x < mid
  · have := hs x h₁ hx
    rw [Bool.not_eq_false'] at this
    rw [← Bool.not_eq_true, this]
    omega
  · rw [ht x (by omega) h₂]
    omega

end ZeroOne

/-! ## Exchanges on a linear order -/

section Linear

variable [LinearOrder α]

/-- An ascending exchange puts the smaller entry first. -/
theorem condSwap_lt_apply (f : ℕ → α) {i j : ℕ} (hij : i ≠ j) (x : ℕ) :
    condSwap (false == decide (f i < f j)) f i j x =
      if x = i then min (f i) (f j) else if x = j then max (f i) (f j) else f x := by
  unfold condSwap
  by_cases hlt : f i < f j
  · simp only [hlt, decide_true, beq_true, Bool.false_eq_true, ite_false, min_eq_left hlt.le,
      max_eq_right hlt.le]
    split_ifs with hi hj <;> subst_vars <;> rfl
  · have hle : f j ≤ f i := not_lt.1 hlt
    simp only [hlt, decide_false, beq_self_eq_true, ite_true, Function.comp_apply,
      min_eq_right hle, max_eq_left hle]
    split_ifs with hi hj
    · rw [hi, Equiv.swap_apply_left]
    · rw [hj, Equiv.swap_apply_right]
    · rw [Equiv.swap_apply_of_ne_of_ne hi hj]

/-- **The ascending exchange pass in closed form**: with `k ≤ m` the pairs `(x, x + m)` for
`x ∈ [i, i + k)` are disjoint, and each gets its minimum first and its maximum second. -/
theorem cexPass_lt_apply (m : ℕ) : ∀ (k i : ℕ) (f : ℕ → α), k ≤ m → ∀ x,
    cexPass (fun a b => decide (a < b)) false m k i f x =
      if i ≤ x ∧ x < i + k then min (f x) (f (x + m))
      else if i + m ≤ x ∧ x < i + m + k then max (f (x - m)) (f x) else f x
  | 0, i, f, _, x => by
    rw [cexPass, if_neg (by omega), if_neg (by omega)]
  | k + 1, i, f, hk, x => by
    rw [cexPass, cexPass_lt_apply m k (i + 1) _ (by omega)]
    have hne : i ≠ i + m := by omega
    simp only [condSwap_lt_apply f hne]
    -- the first pair is exchanged here, the others in the remaining pass
    by_cases h₁ : i + 1 ≤ x ∧ x < i + 1 + k
    · rw [if_pos h₁, if_pos (show i ≤ x ∧ x < i + (k + 1) by omega), if_neg (show x ≠ i by omega),
        if_neg (show x ≠ i + m by omega), if_neg (show x + m ≠ i by omega),
        if_neg (show x + m ≠ i + m by omega)]
    by_cases h₂ : i + 1 + m ≤ x ∧ x < i + 1 + m + k
    · rw [if_neg h₁, if_pos h₂, if_neg (show ¬(i ≤ x ∧ x < i + (k + 1)) by omega),
        if_pos (show i + m ≤ x ∧ x < i + m + (k + 1) by omega), if_neg (show x - m ≠ i by omega),
        if_neg (show x - m ≠ i + m by omega), if_neg (show x ≠ i by omega),
        if_neg (show x ≠ i + m by omega)]
    rw [if_neg h₁, if_neg h₂]
    by_cases hi : x = i
    · subst hi
      rw [if_pos rfl, if_pos (show x ≤ x ∧ x < x + (k + 1) by omega)]
    by_cases hm : x = i + m
    · subst hm
      rw [if_neg hi, if_pos rfl, if_neg (show ¬(i ≤ i + m ∧ i + m < i + (k + 1)) by omega),
        if_pos (show i + m ≤ i + m ∧ i + m < i + m + (k + 1) by omega), Nat.add_sub_cancel]
    rw [if_neg hi, if_neg hm, if_neg (show ¬(i ≤ x ∧ x < i + (k + 1)) by omega),
      if_neg (show ¬(i + m ≤ x ∧ x < i + m + (k + 1)) by omega)]

end Linear

/-! ## The ascending pass on zero-one arrays -/

section Pass

variable {f : ℕ → Bool} {lb ub m k : ℕ}

theorem bool_min_eq_false (a b : Bool) : min a b = false ↔ a = false ∨ b = false := by
  cases a <;> cases b <;> decide

theorem bool_max_eq_false (a b : Bool) : max a b = false ↔ a = false ∧ b = false := by
  cases a <;> cases b <;> decide

/-- Below `lb + m`, an entry of the pass is zero when it was, or when its partner `m` on was. -/
theorem cexPass_bool_left (hk : k ≤ m) {x : ℕ} (h₁ : lb ≤ x) (h₂ : x < lb + m) :
    cexPass (fun a b => decide (a < b)) false m k lb f x = false ↔
      f x = false ∨ (x < lb + k ∧ f (x + m) = false) := by
  rw [cexPass_lt_apply m k lb f hk x]
  by_cases hx : x < lb + k
  · rw [if_pos ⟨h₁, hx⟩, bool_min_eq_false]
    simp only [hx, true_and]
  · rw [if_neg (by omega), if_neg (by omega)]
    simp only [hx, false_and, or_false]

/-- From `lb + m` on, an entry of the pass is zero when it and its partner `m` below were. -/
theorem cexPass_bool_right (hk : k ≤ m) {x : ℕ} (h₁ : lb + m ≤ x) (h₂ : x < lb + m + k) :
    cexPass (fun a b => decide (a < b)) false m k lb f x = false ↔
      f (x - m) = false ∧ f x = false := by
  rw [cexPass_lt_apply m k lb f hk x, if_neg (by omega), if_pos ⟨h₁, h₂⟩, bool_max_eq_false]

/-- A zero-one array with all zeros before `mid` or all ones from `mid` on. -/
theorem leAcross_of_or {mid : ℕ}
    (h : (∀ x, lb ≤ x → x < mid → f x = false) ∨ (∀ x, mid ≤ x → x < ub → f x = true)) :
    LeAcross f lb mid ub := by
  intro i j hi him hmj hj
  rcases h with h | h
  · rw [h i hi him]
    exact Bool.false_le _
  · rw [h j hmj hj]
    exact Bool.le_true _

/-- **The pass over a valley.** With `m < ub - lb ≤ 2m`, the ascending pass at distance `m`
leaves a valley or a peak below `lb + m`, a valley from there, and no one below a zero above. -/
theorem valley_cexPass (hv : Valley f lb ub) (hm : m < ub - lb) (hm₂ : ub - lb ≤ 2 * m) :
    (Valley (cexPass (fun a b => decide (a < b)) false m (ub - lb - m) lb f) lb (lb + m) ∨
      Peak (cexPass (fun a b => decide (a < b)) false m (ub - lb - m) lb f) lb (lb + m)) ∧
    Valley (cexPass (fun a b => decide (a < b)) false m (ub - lb - m) lb f) (lb + m) ub ∧
    LeAcross (cexPass (fun a b => decide (a < b)) false m (ub - lb - m) lb f) lb (lb + m) ub := by
  obtain ⟨p, q, hf⟩ := hv
  -- the zeros of the pass, below and from `lb + m`, in terms of `[p, q)`
  have hL : ∀ x, lb ≤ x → x < lb + m →
      (cexPass (fun a b => decide (a < b)) false m (ub - lb - m) lb f x = false ↔
        (p ≤ x ∧ x < q) ∨ (x + m < ub ∧ p ≤ x + m ∧ x + m < q)) := by
    intro x h₁ h₂
    rw [cexPass_bool_left (by omega) h₁ h₂, hf x h₁ (by omega)]
    by_cases hx : x < lb + (ub - lb - m)
    · rw [hf (x + m) (by omega) (by omega)]
      omega
    · simp only [hx, false_and, or_false]
      omega
  have hR : ∀ x, lb + m ≤ x → x < ub →
      (cexPass (fun a b => decide (a < b)) false m (ub - lb - m) lb f x = false ↔
        p + m ≤ x ∧ x < q) := by
    intro x h₁ h₂
    rw [cexPass_bool_right (by omega) h₁ (by omega), hf (x - m) (by omega) (by omega),
      hf x (by omega) h₂]
    omega
  refine ⟨?_, ⟨p + m, q, hR⟩, leAcross_of_or ?_⟩
  · -- the zeros below `lb + m`: where they were, shifted down by `m`, or both
    by_cases hq : q ≤ lb + m
    · exact Or.inl ⟨p, q, fun x h₁ h₂ => by rw [hL x h₁ h₂]; omega⟩
    by_cases hp : lb + m ≤ p
    · exact Or.inl ⟨p - m, min q ub - m, fun x h₁ h₂ => by rw [hL x h₁ h₂]; omega⟩
    · refine Or.inr ⟨min q ub - m, p, fun x h₁ h₂ => ?_⟩
      rw [← Bool.not_eq_false, hL x h₁ h₂]
      omega
  · -- a zero from `lb + m` on makes every entry below it zero
    by_cases hs : max p lb + m < min q ub
    · exact Or.inl fun x h₁ h₂ => (hL x h₁ h₂).2 (by omega)
    · refine Or.inr fun x h₁ h₂ => ?_
      rw [← Bool.not_eq_false, hR x h₁ h₂]
      omega

/-- **The pass over a peak** of even length `2m`: both halves become valleys or peaks, and no
one below a zero above. -/
theorem peak_cexPass (hv : Peak f lb ub) (hm : ub - lb = 2 * m) :
    (Valley (cexPass (fun a b => decide (a < b)) false m (ub - lb - m) lb f) lb (lb + m) ∨
      Peak (cexPass (fun a b => decide (a < b)) false m (ub - lb - m) lb f) lb (lb + m)) ∧
    (Valley (cexPass (fun a b => decide (a < b)) false m (ub - lb - m) lb f) (lb + m) ub ∨
      Peak (cexPass (fun a b => decide (a < b)) false m (ub - lb - m) lb f) (lb + m) ub) ∧
    LeAcross (cexPass (fun a b => decide (a < b)) false m (ub - lb - m) lb f) lb (lb + m) ub := by
  obtain ⟨p, q, hf⟩ := hv
  have hf' : ∀ x, lb ≤ x → x < ub → (f x = false ↔ ¬(p ≤ x ∧ x < q)) := by
    intro x h₁ h₂
    rw [← hf x h₁ h₂, Bool.not_eq_true]
  -- the ones of the pass, below and from `lb + m`, in terms of `[p, q)`
  have hL : ∀ x, lb ≤ x → x < lb + m →
      (cexPass (fun a b => decide (a < b)) false m (ub - lb - m) lb f x = true ↔
        p ≤ x ∧ x + m < q) := by
    intro x h₁ h₂
    rw [← Bool.not_eq_false, cexPass_bool_left (by omega) h₁ h₂, hf' x h₁ (by omega),
      hf' (x + m) (by omega) (by omega)]
    omega
  have hR : ∀ x, lb + m ≤ x → x < ub →
      (cexPass (fun a b => decide (a < b)) false m (ub - lb - m) lb f x = false ↔
        ¬(p + m ≤ x ∧ x < q + m) ∧ ¬(p ≤ x ∧ x < q)) := by
    intro x h₁ h₂
    rw [cexPass_bool_right (by omega) h₁ (by omega), hf' (x - m) (by omega) (by omega),
      hf' x (by omega) h₂]
    omega
  refine ⟨Or.inr ⟨p, q - m, fun x h₁ h₂ => by rw [hL x h₁ h₂]; omega⟩, ?_, leAcross_of_or ?_⟩
  · -- the ones from `lb + m`: shifted up by `m`, where they were, or both
    by_cases hq : q ≤ lb + m
    · refine Or.inr ⟨p + m, q + m, fun x h₁ h₂ => ?_⟩
      rw [← Bool.not_eq_false, hR x h₁ h₂]
      omega
    by_cases hp : lb + m ≤ p
    · refine Or.inr ⟨p, q, fun x h₁ h₂ => ?_⟩
      rw [← Bool.not_eq_false, hR x h₁ h₂]
      omega
    · exact Or.inl ⟨q, p + m, fun x h₁ h₂ => by rw [hR x h₁ h₂]; omega⟩
  · -- a one below `lb + m` makes every entry from `lb + m` on one
    by_cases hs : max p lb + m < min q ub
    · refine Or.inr fun x h₁ h₂ => ?_
      rw [← Bool.not_eq_false, hR x h₁ h₂]
      omega
    · refine Or.inl fun x h₁ h₂ => ?_
      rw [← Bool.not_eq_true, hL x h₁ h₂]
      omega

end Pass

/-! ## Ascending merges and sorts of zero-one arrays -/

/-- Permuting each part keeps every entry of the first part below every entry of the second. -/
theorem LeAcross.permOn {β : Type} [Preorder β] {f g h : ℕ → β} {lb mid ub : ℕ}
    (hx : LeAcross f lb mid ub) (hg : PermOn lb mid f g) (hh : PermOn mid ub g h) :
    LeAcross h lb mid ub := by
  intro i j hi him hmj hj
  obtain ⟨i', hi₁, hi₂, hgi⟩ := hg.exists_mem hi him
  obtain ⟨j', hj₁, hj₂, hhj⟩ := hh.exists_mem hmj hj
  rw [hh.eq_outside (Or.inl him), hgi, hhj, hg.eq_outside (Or.inr hj₁)]
  exact hx i' j' hi₁ hi₂ hj₁ hj₂

section Sorting

variable {f : ℕ → Bool} {lb ub : ℕ}

/-- The two merges after a pass: when the pass leaves two parts that the merges sort, with
nothing of the first above the second, the whole range ends sorted. -/
theorem sortedOn_merge_merge {m : ℕ} (F : ℕ → Bool)
    (hl : ∀ g : ℕ → Bool, PermOn lb (lb + m) F g →
      SortedOn (merge (fun a b => decide (a < b)) false F lb (lb + m)) lb (lb + m))
    (hr : SortedOn (merge (fun a b => decide (a < b)) false
      (merge (fun a b => decide (a < b)) false F lb (lb + m)) (lb + m) ub) (lb + m) ub)
    (hx : LeAcross F lb (lb + m) ub) :
    SortedOn (merge (fun a b => decide (a < b)) false
      (merge (fun a b => decide (a < b)) false F lb (lb + m)) (lb + m) ub) lb ub := by
  have hG := @merge_permOn _ (fun a b => decide (a < b)) false F lb (lb + m)
  have hH := @merge_permOn _ (fun a b => decide (a < b)) false
    (merge (fun a b => decide (a < b)) false F lb (lb + m)) (lb + m) ub
  refine SortedOn.of_leAcross ?_ hr (hx.permOn hG hH)
  exact (hl _ hG).congr fun x _ h₂ => hH.eq_outside (Or.inl h₂)

/-- **The ascending merge sorts every valley and every peak of a power-of-two length.** -/
theorem merge_sortedOn_pow2 : ∀ (j : ℕ) (f : ℕ → Bool) (lb ub : ℕ), ub - lb = 2 ^ j →
    Valley f lb ub ∨ Peak f lb ub →
      SortedOn (merge (fun a b => decide (a < b)) false f lb ub) lb ub
  | 0, f, lb, ub, hn, _ => by
    rw [merge, dif_neg (by omega)]
    exact sortedOn_of_le_one (by omega)
  | j + 1, f, lb, ub, hn, hf => by
    have hpos := Nat.one_le_two_pow (n := j)
    have hj : 2 ^ (j + 1) = 2 * 2 ^ j := by rw [Nat.pow_succ]; omega
    rw [merge, dif_pos (by omega)]
    dsimp only
    rw [hn, splitPoint_two_pow, ← hn]
    -- the pass leaves two valleys or peaks, nothing of the first above the second
    have hstep : (Valley (cexPass (fun a b => decide (a < b)) false (2 ^ j) (ub - lb - 2 ^ j) lb f)
          (lb + 2 ^ j) ub ∨
        Peak (cexPass (fun a b => decide (a < b)) false (2 ^ j) (ub - lb - 2 ^ j) lb f)
          (lb + 2 ^ j) ub) ∧
        (Valley (cexPass (fun a b => decide (a < b)) false (2 ^ j) (ub - lb - 2 ^ j) lb f)
          lb (lb + 2 ^ j) ∨
        Peak (cexPass (fun a b => decide (a < b)) false (2 ^ j) (ub - lb - 2 ^ j) lb f)
          lb (lb + 2 ^ j)) ∧
        LeAcross (cexPass (fun a b => decide (a < b)) false (2 ^ j) (ub - lb - 2 ^ j) lb f)
          lb (lb + 2 ^ j) ub := by
      rcases hf with hv | hv
      · obtain ⟨hl, hr, hx⟩ := valley_cexPass (m := 2 ^ j) hv (by omega) (by omega)
        exact ⟨Or.inl hr, hl, hx⟩
      · obtain ⟨hl, hr, hx⟩ := peak_cexPass (m := 2 ^ j) hv (by omega)
        exact ⟨hr, hl, hx⟩
    refine sortedOn_merge_merge _ (fun _ _ => merge_sortedOn_pow2 j _ lb (lb + 2 ^ j) (by omega) hstep.2.1)
      ?_ hstep.2.2
    -- the lower merge leaves the upper part as the pass left it
    have hG := @merge_permOn _ (fun a b => decide (a < b)) false
      (cexPass (fun a b => decide (a < b)) false (2 ^ j) (ub - lb - 2 ^ j) lb f) lb (lb + 2 ^ j)
    refine merge_sortedOn_pow2 j _ (lb + 2 ^ j) ub (by omega) ?_
    rcases hstep.1 with hv | hv
    · exact Or.inl (hv.congr fun x h₁ _ => hG.eq_outside (Or.inr h₁))
    · exact Or.inr (hv.congr fun x h₁ _ => hG.eq_outside (Or.inr h₁))

/-- **The ascending merge sorts every valley**, of any length. -/
theorem merge_sortedOn_valley (f : ℕ → Bool) (lb ub : ℕ) (hf : Valley f lb ub) :
    SortedOn (merge (fun a b => decide (a < b)) false f lb ub) lb ub := by
  induction f, lb, ub using merge.induct (fun a b : Bool => decide (a < b)) false with
  | case1 f lb ub h p F _ _ ih₂ =>
    rw [merge, dif_pos h]
    obtain ⟨hl, hr, hx⟩ := valley_cexPass hf (splitPoint_lt h) (splitPoint_two_mul h)
    -- the lower part has a power-of-two length; the upper one is a valley again
    refine sortedOn_merge_merge F
      (fun _ _ => merge_sortedOn_pow2 (Nat.log2 (ub - lb - 1)) F lb (lb + p) (by simp [p, splitPoint]) hl)
      (ih₂ ?_) hx
    have hG := @merge_permOn _ (fun a b => decide (a < b)) false F lb (lb + p)
    exact hr.congr fun x h₁ _ => hG.eq_outside (Or.inr h₁)
  | case2 f lb ub h =>
    rw [merge, dif_neg h]
    exact sortedOn_of_le_one (by omega)

/-- Seen through `· ^^ dir`, a merge in direction `dir` is the ascending one. -/
theorem lt_xor_comm (dir a b : Bool) :
    decide ((a ^^ dir) < (b ^^ dir)) = (decide (a < b) ^^ dir) ∨ (a ^^ dir) = (b ^^ dir) := by
  cases a <;> cases b <;> cases dir <;> decide

/-- **The zero-one sort**: in either direction, `sort` sorts every zero-one array (ascending
once its entries are flipped for a descending sort). -/
theorem sort_sortedOn_bool (dir : Bool) (f : ℕ → Bool) (lb ub : ℕ) :
    SortedOn (fun x => sort (fun a b => decide (a < b)) dir f lb ub x ^^ dir) lb ub := by
  induction dir, f, lb, ub using sort.induct (fun a b : Bool => decide (a < b)) with
  | case1 dir f lb ub h half ih₁ _ ih₂ =>
    rw [sort, dif_pos h]
    have hcomm := comp_merge (fun a b : Bool => decide (a < b)) (fun b => b ^^ dir) (lt_xor_comm dir) dir
      (sort (fun a b => decide (a < b)) dir (sort (fun a b => decide (a < b)) (!dir) f lb (lb + half))
        (lb + half) ub) lb ub
    rw [Bool.xor_self] at hcomm
    change SortedOn ((fun b => b ^^ dir) ∘ _) lb ub
    rw [hcomm]
    refine merge_sortedOn_valley _ lb ub (valley_of_sortedOn (lb + half) ?_ ih₂)
    -- the lower half, sorted the other way, is left alone by the upper sort
    have hS := @sort_permOn _ (fun a b => decide (a < b)) dir
      (sort (fun a b => decide (a < b)) (!dir) f lb (lb + half)) (lb + half) ub
    refine ih₁.congr fun x _ h₂ => ?_
    simp only [Function.comp_apply, hS.eq_outside (Or.inl h₂), Bool.xor_not]
  | case2 dir f lb ub h =>
    rw [sort, dif_neg h]
    exact sortedOn_of_le_one (by omega)

end Sorting

/-! ## Sorting a linear order -/

section Order

variable [LinearOrder α]

/-- A monotone map keeps every strict comparison, up to entries it identifies. -/
theorem lt_comp_of_monotone {β : Type} [LinearOrder β] {g : α → β} (hg : Monotone g) (a b : α) :
    decide (g a < g b) = (decide (a < b) ^^ false) ∨ g a = g b := by
  rw [Bool.xor_false]
  by_cases hab : a < b
  · by_cases hgab : g a < g b
    · exact Or.inl (by simp [hab, hgab])
    · exact Or.inr (le_antisymm (hg hab.le) (not_lt.1 hgab))
  · have hgab : ¬g a < g b := fun h => hab (hg.reflect_lt h)
    exact Or.inl (by simp [hab, hgab])

/-- **The bitonic sort sorts**, for every length: the ascending `sort` leaves `[lb, ub)`
ascending. By the zero-one principle: were two entries out of order, the threshold at the
smaller one would turn the run into a zero-one run left unsorted. -/
theorem sort_sortedOn (f : ℕ → α) (lb ub : ℕ) :
    SortedOn (sort (fun a b => decide (a < b)) false f lb ub) lb ub := by
  intro i j hi hij hj
  by_contra hlt
  rw [not_le] at hlt
  set s := sort (fun a b => decide (a < b)) false f lb ub with hs
  have hmono : Monotone fun a => decide (s j < a) := by
    intro a b hab
    simp only [Bool.le_iff_imp, decide_eq_true_eq]
    exact fun h => lt_of_lt_of_le h hab
  have hcomm := comp_sort (fun a b : Bool => decide (a < b)) (fun a => decide (s j < a))
    (lt_comp_of_monotone hmono) false f lb ub
  have h01 := sort_sortedOn_bool false (fun x => decide (s j < f x)) lb ub i j hi hij hj
  rw [Bool.xor_false] at hcomm
  simp only [Bool.xor_false] at h01
  rw [← Function.comp_def (fun a => decide (s j < a)) f, ← hcomm] at h01
  simp only [Function.comp_apply, ← hs, lt_irrefl, decide_false, hlt, decide_true] at h01
  exact absurd h01 (by decide)

end Order

/-! ## As lists -/

/-- A range sorted in place lists its entries in ascending order. -/
theorem SortedOn.sortedLE_map_range {β : Type} [Preorder β] {n : ℕ} {g : ℕ → β}
    (h : SortedOn g 0 n) : ((List.range n).map g).SortedLE := by
  rw [List.sortedLE_iff_getElem_le_getElem_of_le]
  intro i j hi hj hij
  simp only [List.getElem_map, List.getElem_range]
  exact h i j (Nat.zero_le i) hij (by simpa using hj)

end Bitonic
