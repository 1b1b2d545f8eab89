import Mathlib

/-!
# A path of buckets in an array of buckets

An array of `N` buckets of `w` slots is a function on `[0, w N)`: bucket `j` holds the slots
`w j, …, w j + w - 1`. A path picks `L` distinct buckets `g 0, …, g (L - 1)`; its slots, bucket
by bucket, are `pathSlots w g L`, so that slot `w ℓ + i` of the path is slot `w (g ℓ) + i` of the
array.

* `range_perm_offPath_append_pathSlots` — the array's slots are those off the path followed by
  the path's, up to order;
* `map_pathSlots` — reading the path's slots is reading the path bucket by bucket.

This is how the contents of an array whose path is read out, reordered and written back are
compared with what it held.
-/

set_option autoImplicit false

namespace Buckets

variable (w : ℕ) (g : ℕ → ℕ) (L : ℕ)

/-- Slot `k` lies in one of the buckets `g 0, …, g (L - 1)`. -/
def OnPath (k : ℕ) : Prop := ∃ ℓ < L, g ℓ = k / w

instance onPathDecidable : DecidablePred (OnPath w g L) :=
  fun _ => inferInstanceAs (Decidable (∃ ℓ < L, _))

/-- The path's slots, bucket by bucket. -/
def pathSlots : List ℕ := (List.range (w * L)).map fun j => w * g (j / w) + j % w

variable {w g L}

theorem slot_div {a r : ℕ} (hw : 0 < w) (hr : r < w) : (w * a + r) / w = a := by
  rw [Nat.mul_comm, Nat.add_comm, Nat.add_mul_div_right _ _ hw, Nat.div_eq_of_lt hr, Nat.zero_add]

theorem slot_mod {a r : ℕ} (hr : r < w) : (w * a + r) % w = r := by
  rw [Nat.mul_comm, Nat.add_comm, Nat.add_mul_mod_self_right, Nat.mod_eq_of_lt hr]

theorem mem_pathSlots (hw : 0 < w) {k : ℕ} : k ∈ pathSlots w g L ↔ OnPath w g L k := by
  constructor
  · rintro hk
    obtain ⟨j, hj, rfl⟩ := List.mem_map.1 hk
    have hjL : j / w < L := by
      rw [List.mem_range] at hj
      exact (Nat.div_lt_iff_lt_mul hw).2 (by rw [Nat.mul_comm]; exact hj)
    exact ⟨j / w, hjL, by rw [slot_div hw (Nat.mod_lt _ hw)]⟩
  · rintro ⟨ℓ, hℓ, hg⟩
    refine List.mem_map.2 ⟨w * ℓ + k % w, List.mem_range.2 ?_, ?_⟩
    · calc w * ℓ + k % w < w * ℓ + w := by have := Nat.mod_lt k hw; omega
        _ = w * (ℓ + 1) := by ring
        _ ≤ w * L := Nat.mul_le_mul_left w hℓ
    · rw [slot_div hw (Nat.mod_lt _ hw), slot_mod (Nat.mod_lt _ hw), hg, Nat.div_add_mod]

theorem pathSlots_nodup (hw : 0 < w) (hinj : ∀ ℓ < L, ∀ ℓ' < L, g ℓ = g ℓ' → ℓ = ℓ') :
    (pathSlots w g L).Nodup := by
  refine List.Nodup.map_on (fun j hj j' hj' heq => ?_) List.nodup_range
  have hjL : ∀ {j}, j ∈ List.range (w * L) → j / w < L := fun hj =>
    (Nat.div_lt_iff_lt_mul hw).2 (by rw [Nat.mul_comm]; exact List.mem_range.1 hj)
  have hdiv := congrArg (· / w) heq
  have hmod := congrArg (· % w) heq
  simp only [slot_div hw (Nat.mod_lt _ hw), slot_mod (Nat.mod_lt _ hw)] at hdiv hmod
  have hq := hinj _ (hjL hj) _ (hjL hj') hdiv
  rw [← Nat.div_add_mod j w, ← Nat.div_add_mod j' w, hq, hmod]

/-- **The array's slots are those off the path and those of the path.** -/
theorem range_perm_offPath_append_pathSlots {N : ℕ} (hw : 0 < w) (hg : ∀ ℓ < L, g ℓ < N)
    (hinj : ∀ ℓ < L, ∀ ℓ' < L, g ℓ = g ℓ' → ℓ = ℓ') :
    (List.range (w * N)).Perm
      ((List.range (w * N)).filter (fun k => !decide (OnPath w g L k)) ++ pathSlots w g L) := by
  refine (List.perm_ext_iff_of_nodup List.nodup_range ?_).2 fun k => ?_
  · refine List.Nodup.append (List.nodup_range.filter _) (pathSlots_nodup hw hinj) ?_
    intro k hk hk'
    rw [List.mem_filter] at hk
    simp only [Bool.not_eq_true', decide_eq_false_iff_not] at hk
    exact hk.2 ((mem_pathSlots hw).1 hk')
  · rw [List.mem_append, List.mem_filter, mem_pathSlots hw, List.mem_range]
    simp only [Bool.not_eq_true', decide_eq_false_iff_not]
    constructor
    · intro hk
      by_cases hon : OnPath w g L k
      · exact Or.inr hon
      · exact Or.inl ⟨hk, hon⟩
    · rintro (⟨hk, -⟩ | ⟨ℓ, hℓ, hgk⟩)
      · exact hk
      · have hb : k / w < N := hgk ▸ hg ℓ hℓ
        calc k = w * (k / w) + k % w := (Nat.div_add_mod k w).symm
          _ < w * (k / w) + w := by have := Nat.mod_lt k hw; omega
          _ = w * (k / w + 1) := by ring
          _ ≤ w * N := Nat.mul_le_mul_left w hb

/-- Reading the path's slots of an array that holds `h` there. -/
theorem map_pathSlots {β : Type*} (f h : ℕ → β)
    (hfh : ∀ j < w * L, f (w * g (j / w) + j % w) = h j) :
    (pathSlots w g L).map f = (List.range (w * L)).map h := by
  rw [pathSlots, List.map_map]
  exact List.map_congr_left fun j hj => hfh j (List.mem_range.1 hj)

end Buckets
