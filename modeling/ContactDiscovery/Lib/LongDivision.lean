import Mathlib

/-!
# One digit of schoolbook division

One step of long division in base `b` divides the window `U * b + low` (with `U < V` and
`low < b`) by the divisor `V = v1 * b + v0`, whose top digit is `v1`.  Algorithm D of Knuth
estimates the quotient digit as `U / v1` and corrects the estimate `q` down while
`q * v0 > r * b + low`, where `r = U - q * v1` is the remainder of the estimate:

* `digit_lt_base` — the digit of such a window is below `b`;
* `digit_le_estimate` — the estimate is never below the digit;
* `estimate_le_base_succ` — for a normalised divisor (`b ≤ 2 * v1`) the estimate is at most
  `b + 1`;
* `le_digit_of_test`, `digit_lt_of_test` — the correction test tells whether a candidate is at
  most the digit; `le_digit_of_overflow` — so does a remainder that reached the base;
* `div_two_digits` — two digit steps give the two-digit quotient.
-/

set_option autoImplicit false

namespace LongDivision

variable {b v1 v0 U low q r : ℕ}

theorem digit_lt_base (hU : U < v1 * b + v0) (hlow : low < b) :
    (U * b + low) / (v1 * b + v0) < b := by
  have hV : 0 < v1 * b + v0 := by omega
  rw [Nat.div_lt_iff_lt_mul hV]
  calc U * b + low < (U + 1) * b := by rw [Nat.succ_mul]; omega
    _ ≤ (v1 * b + v0) * b := Nat.mul_le_mul_right b hU
    _ = b * (v1 * b + v0) := Nat.mul_comm _ _

theorem digit_le_estimate (hv1 : 0 < v1) (hlow : low < b) :
    (U * b + low) / (v1 * b + v0) ≤ U / v1 := by
  set d := (U * b + low) / (v1 * b + v0)
  rw [Nat.le_div_iff_mul_le hv1]
  by_contra h
  have hd : d * (v1 * b + v0) ≤ U * b + low := Nat.div_mul_le_self _ _
  have hgt : (U + 1) * b ≤ d * v1 * b := Nat.mul_le_mul_right b (by omega)
  have hexp : d * (v1 * b + v0) = d * v1 * b + d * v0 := by ring
  rw [Nat.succ_mul] at hgt
  omega

theorem estimate_le_base_succ (hv1 : b ≤ 2 * v1) (hU : U < v1 * b + v0) (hv0 : v0 < b) :
    U / v1 ≤ b + 1 := by
  have hpos : 0 < v1 := by omega
  rw [Nat.le_iff_lt_add_one, Nat.div_lt_iff_lt_mul hpos]
  calc U < v1 * b + b := by omega
    _ ≤ v1 * b + 2 * v1 := by omega
    _ = (b + 1 + 1) * v1 := by ring

theorem le_digit_of_test (hV : 0 < v1 * b + v0) (hqr : q * v1 + r = U)
    (htest : q * v0 ≤ r * b + low) : q ≤ (U * b + low) / (v1 * b + v0) := by
  rw [Nat.le_div_iff_mul_le hV]
  calc q * (v1 * b + v0) = q * v1 * b + q * v0 := by ring
    _ ≤ q * v1 * b + (r * b + low) := by omega
    _ = U * b + low := by rw [← hqr]; ring

theorem digit_lt_of_test (hqr : q * v1 + r = U) (htest : r * b + low < q * v0) :
    (U * b + low) / (v1 * b + v0) < q := by
  have hV : 0 < v1 * b + v0 := by
    rcases Nat.eq_zero_or_pos v0 with h | h
    · subst h; simp at htest
    · omega
  rw [Nat.div_lt_iff_lt_mul hV]
  calc U * b + low = q * v1 * b + (r * b + low) := by rw [← hqr]; ring
    _ < q * v1 * b + q * v0 := by omega
    _ = q * (v1 * b + v0) := by ring

theorem le_digit_of_overflow (hV : 0 < v1 * b + v0) (hqr : q * v1 + r = U) (hr : b ≤ r)
    (hq : q ≤ b) (hv0 : v0 < b) : q ≤ (U * b + low) / (v1 * b + v0) := by
  apply le_digit_of_test hV hqr
  calc q * v0 ≤ b * b := Nat.mul_le_mul hq hv0.le
    _ ≤ r * b := Nat.mul_le_mul_right b hr
    _ ≤ r * b + low := Nat.le_add_right _ _

/-- Two digit steps: the remainder of the first window heads the second. -/
theorem div_two_digits {V U₁ l₁ l₀ : ℕ} (hV : 0 < V) :
    ((U₁ * b + l₁) * b + l₀) / V =
      (U₁ * b + l₁) / V * b + (((U₁ * b + l₁) % V) * b + l₀) / V := by
  set q₁ := (U₁ * b + l₁) / V
  set r₁ := (U₁ * b + l₁) % V
  have h₁ : V * q₁ + r₁ = U₁ * b + l₁ := Nat.div_add_mod _ _
  have h₂ := Nat.div_add_mod (r₁ * b + l₀) V
  have hsplit : (U₁ * b + l₁) * b + l₀ =
      V * (q₁ * b + (r₁ * b + l₀) / V) + (r₁ * b + l₀) % V := by
    calc (U₁ * b + l₁) * b + l₀ = V * q₁ * b + (r₁ * b + l₀) := by rw [← h₁]; ring
      _ = V * q₁ * b + (V * ((r₁ * b + l₀) / V) + (r₁ * b + l₀) % V) := by rw [h₂]
      _ = V * (q₁ * b + (r₁ * b + l₀) / V) + (r₁ * b + l₀) % V := by ring
  rw [hsplit, Nat.mul_add_div hV, Nat.div_eq_of_lt (Nat.mod_lt _ hV), add_zero]

end LongDivision
