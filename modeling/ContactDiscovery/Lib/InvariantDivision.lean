import Mathlib

/-!
# Division by an invariant integer

Granlund and Montgomery divide a word `n < 2^N` by a divisor `d` fixed in advance with one high
multiplication, a subtraction and two shifts. With `2^(l-1) < d ≤ 2^l`, the `N + 1`-bit
multiplier `m = ⌊2^(N+l) / d⌋ + 1` satisfies `2^(N+l) < m d ≤ 2^(N+l) + d`, which is close
enough for every `n < 2^N`:

* `mul_magic_div` — `⌊n m / 2^(N+l)⌋ = ⌊n / d⌋`;
* `magic_add_eq` — the stored multiplier `m' = ⌊2^N (2^l - d) / d⌋ + 1` is `m` less its top
  bit `2^N`;
* `magic_lt` — `m'` fits in `N` bits once `2 d ≤ 2^N`;
* `fixup_div` — the shifts `(t + (n - t) / 2) / 2^(l-1)` compute `(n + t) / 2^l` without a carry
  out of `N` bits;
* `add_mulHigh_div` — `(n + ⌊n m' / 2^N⌋) / 2^l` is `⌊n (2^N + m') / 2^(N+l)⌋`.
-/

set_option autoImplicit false

namespace InvariantDivision

variable {N l d n : ℕ}

/-- **The multiplier divides**: for `0 < d ≤ 2^l` and `n < 2^N`, multiplying by
`⌊2^(N+l) / d⌋ + 1` and dropping `N + l` bits is division by `d`. -/
theorem mul_magic_div (hd : 0 < d) (hdl : d ≤ 2 ^ l) (hn : n < 2 ^ N) :
    n * (2 ^ (N + l) / d + 1) / 2 ^ (N + l) = n / d := by
  set P := 2 ^ (N + l) with hPdef
  have hP : P = 2 ^ N * 2 ^ l := Nat.pow_add 2 N l
  -- `P < m d ≤ P + d`
  have hlo : P < (P / d + 1) * d := by
    rw [Nat.succ_mul]
    exact Nat.lt_div_mul_add hd
  have hhi : (P / d + 1) * d ≤ P + d := by
    rw [Nat.succ_mul]
    exact Nat.add_le_add_right (Nat.div_mul_le_self P d) d
  -- the error `n (m d - P) ≤ n d` stays below one step `P`
  have hnd : n * d < P := by
    calc n * d ≤ n * 2 ^ l := Nat.mul_le_mul_left _ hdl
      _ < 2 ^ N * 2 ^ l := Nat.mul_lt_mul_of_pos_right hn (Nat.two_pow_pos _)
      _ = P := hP.symm
  have hrem : n + 1 ≤ n / d * d + d := by
    have := Nat.mod_lt n hd
    have := Nat.div_add_mod' n d
    omega
  apply Nat.div_eq_of_lt_le
  · calc n / d * P ≤ n / d * ((P / d + 1) * d) := Nat.mul_le_mul_left _ hlo.le
      _ = n / d * d * (P / d + 1) := by ring
      _ ≤ n * (P / d + 1) := Nat.mul_le_mul_right _ (Nat.div_mul_le_self n d)
  · refine Nat.lt_of_mul_lt_mul_right (a := d) ?_
    calc n * (P / d + 1) * d = n * ((P / d + 1) * d) := by ring
      _ ≤ n * (P + d) := Nat.mul_le_mul_left _ hhi
      _ = n * P + n * d := by ring
      _ < n * P + P := by omega
      _ = (n + 1) * P := by ring
      _ ≤ (n / d * d + d) * P := Nat.mul_le_mul_right _ hrem
      _ = (n / d + 1) * P * d := by ring

/-- The stored multiplier is the multiplier less its top bit `2^N`. -/
theorem magic_add_eq (hd : 0 < d) (hdl : d ≤ 2 ^ l) :
    2 ^ N * (2 ^ l - d) / d + 2 ^ N = 2 ^ (N + l) / d := by
  have hle : d * 2 ^ N ≤ 2 ^ (N + l) := by
    rw [Nat.pow_add, Nat.mul_comm]
    exact Nat.mul_le_mul_left _ hdl
  have hsub : 2 ^ N * (2 ^ l - d) = 2 ^ (N + l) - d * 2 ^ N := by
    rw [Nat.mul_sub, Nat.pow_add, Nat.mul_comm d]
  have hbound : 2 ^ N ≤ 2 ^ (N + l) / d := (Nat.le_div_iff_mul_le hd).2 (by rwa [Nat.mul_comm])
  rw [hsub, Nat.sub_mul_div]
  omega

/-- **The stored multiplier fits in `N` bits** when `2^(l-1) < d` (so `2^l - d < d`) and
`2 d ≤ 2^N`. -/
theorem magic_lt (hl : 1 ≤ l) (hlo : 2 ^ (l - 1) < d) (hdN : 2 * d ≤ 2 ^ N) :
    2 ^ N * (2 ^ l - d) / d + 1 < 2 ^ N := by
  have hpow : 2 ^ l = 2 * 2 ^ (l - 1) := by
    rw [← Nat.pow_succ']
    congr 1
    omega
  -- `2^l - d ≤ d - 1`, so the quotient is at most `2^N - 2`
  have hstep : 2 ^ N * (2 ^ l - d) ≤ (2 ^ N - 2) * d := by
    calc 2 ^ N * (2 ^ l - d) ≤ 2 ^ N * (d - 1) := Nat.mul_le_mul_left _ (by omega)
      _ = 2 ^ N * d - 2 ^ N := by rw [Nat.mul_sub_one]
      _ ≤ 2 ^ N * d - 2 * d := Nat.sub_le_sub_left hdN _
      _ = (2 ^ N - 2) * d := by rw [Nat.sub_mul]
  have hq : 2 ^ N * (2 ^ l - d) / d ≤ 2 ^ N - 2 :=
    Nat.div_le_of_le_mul (by rw [Nat.mul_comm d]; exact hstep)
  omega

/-- The fix-up of the dropped top bit: for `t ≤ n`, `t + (n - t) / 2` is `(n + t) / 2`, which the
second shift brings to `(n + t) / 2^l`. -/
theorem fixup_div {t : ℕ} (hl : 1 ≤ l) (ht : t ≤ n) :
    (t + (n - t) / 2) / 2 ^ (l - 1) = (n + t) / 2 ^ l := by
  have hhalf : t + (n - t) / 2 = (n + t) / 2 := by omega
  rw [hhalf, Nat.div_div_eq_div_mul, ← Nat.pow_succ']
  congr 2
  omega

/-- Adding `n` to the high word of `n m'` adds the top bit `2^N` back to the multiplier. -/
theorem add_mulHigh_div (m' : ℕ) :
    (n + n * m' / 2 ^ N) / 2 ^ l = n * (2 ^ N + m') / 2 ^ (N + l) := by
  have hadd : n + n * m' / 2 ^ N = (n * m' + n * 2 ^ N) / 2 ^ N := by
    rw [Nat.add_mul_div_right _ _ (Nat.two_pow_pos N), Nat.add_comm]
  rw [hadd, Nat.div_div_eq_div_mul, ← Nat.pow_add, Nat.mul_add, Nat.add_comm (n * 2 ^ N)]

end InvariantDivision
