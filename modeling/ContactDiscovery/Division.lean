import ContactDiscovery.Util
import ContactDiscovery.Lib.LongDivision
import ContactDiscovery.Lib.InvariantDivision

/-!
# Division by invariant integers (`util/uint128div.c`, `prep_ct_div`, `ct_div`, `ct_mod`)

* `divmod128by64` — the two-digit Knuth algorithm D of `uint128div.c`: normalise the divisor,
  estimate each base-`2^32` quotient digit from the top digit of the divisor and correct it in
  the `while` loop (`knuthCorrect`);
* `prepCtDiv` — the precomputation of `util.h`: `l = ceil_log2(d)`,
  `m' = 1 + div128by64(2^64 * ((1 << l) - d), d)`, `shift1 = l < 1 ? l : 1` and
  `shift2 = (l - 1) > 0 ? (l - 1) : 0`, evaluated with `size_t` arithmetic;
* `ctDiv`, `ctMod` — `(t1 + ((n - t1) >> shift1)) >> shift2` with `t1 = muluh64(m', n)`.

`divmod128by64_exact`: the quotient is exact for every `v ≠ 0` and `u1 < v`. The correction
loop keeps the invariant `CorrectInv` and stops on the quotient digit within two rounds
(`knuthCorrect_eq`, `knuthDigit_eq`); the facts about one digit of long division it uses are
those of `Lib/LongDivision`.

`prepCtDiv_one` records what `size_t` arithmetic does at `d = 1`: `l = 0`, so `l - 1` wraps to
`SIZE_MAX`, which is positive, and `shift2 = SIZE_MAX`.  The shift then takes the count modulo
64 and `ct_div(n, 1) = n >> 63` (`ctDiv_one`), not `n`: for every `n ≥ 2` both the quotient and
the remainder by one are wrong (`ctDiv_by_one_inexact`). For every other divisor up to `2^63`
the method is exact (`ctDiv_exact`): `prepCtDiv_spec` reads the constants as numbers, and the
arithmetic of `Lib/InvariantDivision` shows that the multiplication and the two shifts divide.
-/

set_option autoImplicit false

namespace ContactDiscovery

/-- `base = 1ul << 32`. -/
def knuthBase : UInt64 := (1 : UInt64) <<< 32

/-- The correction loop of `divmod128by64`:
`while (q >= base || left > right) { --q; rhat += v1; if (rhat < base) { left -= v0;
right = (rhat << 32) | low; } else break; }`.  The fuel bounds the iterations by `2^32`:
each one raises `rhat < 2^32` by `v1 ≥ 1`. -/
def knuthCorrect (v1 v0 low : UInt64) : Nat → UInt64 → UInt64 → UInt64 → UInt64 → UInt64
  | 0, q, _, _, _ => q
  | fuel + 1, q, rhat, left, right =>
    if q ≥ knuthBase || left > right then
      let q := q - 1
      let rhat := rhat + v1
      if rhat < knuthBase then knuthCorrect v1 v0 low fuel q rhat (left - v0) ((rhat <<< 32) ||| low)
      else q
    else q

/-- `divmod128by64(u1, u0, v, &q)`: the quotient of `u1 * 2^64 + u0` by `v`. -/
def divmod128by64 (u1 u0 v : UInt64) : UInt64 :=
  let s := clzll v
  let v := v <<< s
  let vs1 := v >>> 32
  let vs0 := v &&& 0xffffffff
  let u32 := if s > 0 then (u1 <<< s) ||| (u0 >>> (64 - s)) else u1
  let u10 := if s > 0 then u0 <<< s else u0
  let lu1 := u10 >>> 32
  let lu0 := u10 &&& 0xffffffff
  let q1 := u32 / vs1
  let rhat := u32 % vs1
  let q1 := knuthCorrect vs1 vs0 lu1 (2 ^ 32) q1 rhat (q1 * vs0) ((rhat <<< 32) + lu1)
  let u21 := (u32 <<< 32) + (lu1 - q1 * v)
  let q0 := u21 / vs1
  let rhat := u21 % vs1
  let q0 := knuthCorrect vs1 vs0 lu0 (2 ^ 32) q0 rhat (q0 * vs0) ((rhat <<< 32) ||| lu0)
  (q1 <<< 32) ||| q0

/-- `div128by64(u, v)` on a 128-bit `u < 2^128`. -/
def div128by64 (u : Nat) (v : UInt64) : UInt64 :=
  divmod128by64 (UInt64.ofNat (u / 2 ^ 64)) (UInt64.ofNat u) v

/-! ## The quotient is exact -/

theorem knuthBase_toNat : knuthBase.toNat = 2 ^ 32 := rfl

/-- A digit shifted into the high half, or-ed with a low digit, is their two-digit number. -/
theorem shiftLeft_32_or_toNat {a c : UInt64} (ha : a.toNat < 2 ^ 32) (hc : c.toNat < 2 ^ 32) :
    ((a <<< 32) ||| c).toNat = a.toNat * 2 ^ 32 + c.toNat := by
  have hlt : a.toNat * 2 ^ 32 < 2 ^ 64 := by omega
  rw [UInt64.toNat_or, UInt64.toNat_shiftLeft, show (32 : UInt64).toNat % 64 = 32 from rfl,
    Nat.shiftLeft_eq, Nat.mod_eq_of_lt hlt, Nat.mul_comm, ← Nat.two_pow_add_eq_or_of_lt hc]

/-- The invariant of the correction loop on the window `U * 2^32 + low`: `q` and `rhat` are a
quotient and remainder of `U` by `v1`, `left` and `right` the two sides of the test, the digit
is at most `q`, which is at most `2^32 + 1`, and the fuel outlasts the loop (`rhat` grows by `v1`
in each round that goes on, and stays below `2^32`). -/
structure CorrectInv (v1 v0 low : UInt64) (U fuel : ℕ) (q rhat left right : UInt64) : Prop where
  quot_rem : q.toNat * v1.toNat + rhat.toNat = U
  rhat_lt : rhat.toNat < 2 ^ 32
  left_eq : left.toNat = q.toNat * v0.toNat % 2 ^ 64
  right_eq : right.toNat = rhat.toNat * 2 ^ 32 + low.toNat
  digit_le : (U * 2 ^ 32 + low.toNat) / (v1.toNat * 2 ^ 32 + v0.toNat) ≤ q.toNat
  le_succ : q.toNat ≤ 2 ^ 32 + 1
  fuel_ge : 2 ^ 32 ≤ rhat.toNat + fuel * v1.toNat

section Correction

variable {v1 v0 low : UInt64} {U : ℕ}

/-- A candidate that fails the loop's test is above the digit. -/
theorem CorrectInv.digit_lt {fuel : ℕ} {q rhat left right : UInt64}
    (h : CorrectInv v1 v0 low U fuel q rhat left right) (hv0 : v0.toNat < 2 ^ 32)
    (hlow : low.toNat < 2 ^ 32) (hU : U < v1.toNat * 2 ^ 32 + v0.toNat)
    (htest : (q ≥ knuthBase || left > right) = true) :
    (U * 2 ^ 32 + low.toNat) / (v1.toNat * 2 ^ 32 + v0.toNat) < q.toNat := by
  have hd := LongDivision.digit_lt_base hU hlow
  have htest' : 2 ^ 32 ≤ q.toNat ∨ right.toNat < left.toNat := by
    simpa [UInt64.le_iff_toNat_le, UInt64.lt_iff_toNat_lt, knuthBase_toNat] using htest
  rcases htest' with hq | hlr
  · omega
  by_cases hq : q.toNat < 2 ^ 32
  · have hleft : left.toNat = q.toNat * v0.toNat := by
      rw [h.left_eq, Nat.mod_eq_of_lt (lt_of_lt_of_le (Nat.mul_lt_mul_of_lt_of_le hq hv0.le
        (by omega)) (by norm_num))]
    apply LongDivision.digit_lt_of_test h.quot_rem
    rw [← h.right_eq, ← hleft]
    exact hlr
  · omega

/-- A candidate that passes the loop's test is at most the digit. -/
theorem CorrectInv.le_digit {fuel : ℕ} {q rhat left right : UInt64}
    (h : CorrectInv v1 v0 low U fuel q rhat left right) (hV : 0 < v1.toNat * 2 ^ 32 + v0.toNat)
    (hv0 : v0.toNat < 2 ^ 32) (htest : ¬(q ≥ knuthBase || left > right) = true) :
    q.toNat ≤ (U * 2 ^ 32 + low.toNat) / (v1.toNat * 2 ^ 32 + v0.toNat) := by
  have htest' : q.toNat < 2 ^ 32 ∧ left.toNat ≤ right.toNat := by
    simpa [UInt64.le_iff_toNat_le, UInt64.lt_iff_toNat_lt, knuthBase_toNat] using htest
  have hleft : left.toNat = q.toNat * v0.toNat := by
    rw [h.left_eq, Nat.mod_eq_of_lt (lt_of_lt_of_le (Nat.mul_lt_mul_of_lt_of_le htest'.1 hv0.le
      (by omega)) (by norm_num))]
  apply LongDivision.le_digit_of_test hV h.quot_rem
  rw [← h.right_eq, ← hleft]
  exact htest'.2

/-- **The correction loop ends on the digit**: from a state of the invariant, `knuth_correct`
stops, within its fuel, at the quotient digit of the window. -/
theorem knuthCorrect_eq (hv1 : 2 ^ 31 ≤ v1.toNat) (hv1' : v1.toNat < 2 ^ 32)
    (hv0 : v0.toNat < 2 ^ 32) (hlow : low.toNat < 2 ^ 32) (hU : U < v1.toNat * 2 ^ 32 + v0.toNat) :
    ∀ fuel q rhat left right, CorrectInv v1 v0 low U fuel q rhat left right →
      knuthCorrect v1 v0 low fuel q rhat left right =
        UInt64.ofNat ((U * 2 ^ 32 + low.toNat) / (v1.toNat * 2 ^ 32 + v0.toNat))
  | 0, _, rhat, _, _, h => absurd h.fuel_ge (by have := h.rhat_lt; omega)
  | fuel + 1, q, rhat, left, right, h => by
    have hV : 0 < v1.toNat * 2 ^ 32 + v0.toNat := by omega
    have hd := LongDivision.digit_lt_base hU hlow
    generalize hd_def : (U * 2 ^ 32 + low.toNat) / (v1.toNat * 2 ^ 32 + v0.toNat) = d at hd ⊢
    unfold knuthCorrect
    by_cases htest : (q ≥ knuthBase || left > right) = true
    · have hgt : d < q.toNat := hd_def ▸ h.digit_lt hv0 hlow hU htest
      have hq1 : (q - 1).toNat = q.toNat - 1 :=
        UInt64.toNat_sub_of_le _ _ (UInt64.le_iff_toNat_le.2 (by rw [UInt64.toNat_one]; omega))
      have hr1 : (rhat + v1).toNat = rhat.toNat + v1.toNat := by
        have := h.rhat_lt
        rw [UInt64.toNat_add]
        omega
      have hmul : ∀ m, (q.toNat - 1) * m + m = q.toNat * m := fun m => by
        rw [Nat.sub_one_mul, Nat.sub_add_cancel (Nat.le_mul_of_pos_left m (by omega))]
      have hqr : (q.toNat - 1) * v1.toNat + (rhat.toNat + v1.toNat) = U := by
        have := h.quot_rem
        have := hmul v1.toNat
        omega
      rw [if_pos htest]
      dsimp only
      by_cases hroom : rhat + v1 < knuthBase
      · rw [if_pos hroom]
        have hroom' : rhat.toNat + v1.toNat < 2 ^ 32 := by
          rw [← hr1, ← knuthBase_toNat]
          exact UInt64.lt_iff_toNat_lt.1 hroom
        rw [← hd_def]
        apply knuthCorrect_eq hv1 hv1' hv0 hlow hU fuel
        refine ⟨by rw [hq1, hr1]; exact hqr, by rw [hr1]; exact hroom', ?_, ?_, ?_, ?_, ?_⟩
        · have := hmul v0.toNat
          rw [UInt64.toNat_sub, hq1, h.left_eq]
          omega
        · rw [shiftLeft_32_or_toNat (by rw [hr1]; exact hroom') hlow, hr1]
        · rw [hq1, hd_def]
          omega
        · have := h.le_succ
          rw [hq1]
          omega
        · have := h.fuel_ge
          rw [hr1]
          rw [Nat.succ_mul] at this
          omega
      · rw [if_neg hroom]
        -- the remainder reached the base: the decremented candidate is the digit
        have hover : 2 ^ 32 ≤ rhat.toNat + v1.toNat := by
          rw [← hr1, ← knuthBase_toNat]
          exact UInt64.not_lt.1 hroom
        have hle : q.toNat - 1 ≤ d := hd_def ▸ LongDivision.le_digit_of_overflow hV hqr hover
          (by have := h.le_succ; omega) hv0
        apply UInt64.toNat_inj.1
        rw [hq1, UInt64.toNat_ofNat_of_lt' (show d < 2 ^ 64 by omega)]
        omega
    · rw [if_neg htest]
      have hle : q.toNat ≤ d := hd_def ▸ h.le_digit hV hv0 htest
      have hge : d ≤ q.toNat := hd_def ▸ h.digit_le
      apply UInt64.toNat_inj.1
      rw [UInt64.toNat_ofNat_of_lt' (show d < 2 ^ 64 by omega)]
      omega

/-- **One digit of `divmod128by64`**: estimating from the top divisor digit and correcting gives
the quotient digit of the window `u * 2^32 + low`, for a normalised divisor and `u` below it.
Two rounds of the loop are always enough, so the source's bound of `2^32` is never reached. -/
theorem knuthDigit_eq (hv1 : 2 ^ 31 ≤ v1.toNat) (hv1' : v1.toNat < 2 ^ 32)
    (hv0 : v0.toNat < 2 ^ 32) (hlow : low.toNat < 2 ^ 32) {u right : UInt64}
    (hu : u.toNat < v1.toNat * 2 ^ 32 + v0.toNat)
    (hright : right.toNat = u.toNat % v1.toNat * 2 ^ 32 + low.toNat) {fuel : ℕ} (hfuel : 2 ≤ fuel) :
    knuthCorrect v1 v0 low fuel (u / v1) (u % v1) (u / v1 * v0) right =
      UInt64.ofNat ((u.toNat * 2 ^ 32 + low.toNat) / (v1.toNat * 2 ^ 32 + v0.toNat)) := by
  have hpos : 0 < v1.toNat := by omega
  have hfuel' : 2 * v1.toNat ≤ fuel * v1.toNat := Nat.mul_le_mul_right _ hfuel
  apply knuthCorrect_eq hv1 hv1' hv0 hlow hu
  refine ⟨?_, ?_, ?_, ?_, ?_, ?_, ?_⟩
  · rw [UInt64.toNat_div, UInt64.toNat_mod, Nat.div_add_mod']
  · rw [UInt64.toNat_mod]
    exact lt_trans (Nat.mod_lt _ hpos) hv1'
  · rw [UInt64.toNat_mul, UInt64.toNat_div]
  · rw [hright, UInt64.toNat_mod]
  · rw [UInt64.toNat_div]
    exact LongDivision.digit_le_estimate hpos hlow
  · rw [UInt64.toNat_div]
    exact LongDivision.estimate_le_base_succ (by omega) hu hv0
  · omega

end Correction

theorem clzll_toNat {v : UInt64} (hv : v ≠ 0) : (clzll v).toNat = 63 - Nat.log2 v.toNat := by
  have hb := log2_lt_64 v
  have hle : UInt64.ofNat (Nat.log2 v.toNat) ≤ 63 := by
    rw [UInt64.le_iff_toNat_le, UInt64.toNat_ofNat_of_lt' (show Nat.log2 v.toNat < 2 ^ 64 by omega)]
    exact Nat.le_of_lt_succ hb
  rw [clzll, clzllScan_eq hv 64 hb le_rfl, UInt64.toNat_sub_of_le _ _ hle,
    UInt64.toNat_ofNat_of_lt' (show Nat.log2 v.toNat < 2 ^ 64 by omega)]
  rfl

/-- **Normalisation**: `v << clz(v)` is `v * 2^clz(v)`, with its top bit set. -/
theorem normalize_toNat {v : UInt64} (hv : v ≠ 0) :
    (v <<< clzll v).toNat = v.toNat * 2 ^ (clzll v).toNat ∧
      2 ^ 63 ≤ v.toNat * 2 ^ (clzll v).toNat ∧ v.toNat * 2 ^ (clzll v).toNat < 2 ^ 64 := by
  have hv' : v.toNat ≠ 0 := by simpa [← UInt64.toNat_inj] using hv
  have hb := log2_lt_64 v
  have hlo := Nat.log2_self_le hv'
  have hhi := Nat.lt_log2_self (n := v.toNat)
  have hs := clzll_toNat hv
  have hsplit : ∀ e, 2 ^ e * 2 ^ (clzll v).toNat = 2 ^ (e + (63 - Nat.log2 v.toNat)) := fun e => by
    rw [hs, ← Nat.pow_add]
  have hlt : v.toNat * 2 ^ (clzll v).toNat < 2 ^ 64 := by
    calc v.toNat * 2 ^ (clzll v).toNat < 2 ^ (Nat.log2 v.toNat + 1) * 2 ^ (clzll v).toNat :=
          Nat.mul_lt_mul_of_pos_right hhi (Nat.two_pow_pos _)
      _ = 2 ^ 64 := by rw [hsplit]; congr 1; omega
  refine ⟨?_, ?_, hlt⟩
  · rw [UInt64.toNat_shiftLeft, Nat.mod_eq_of_lt (show (clzll v).toNat < 64 by omega),
      Nat.shiftLeft_eq, Nat.mod_eq_of_lt hlt]
  · calc 2 ^ 63 = 2 ^ Nat.log2 v.toNat * 2 ^ (clzll v).toNat := by rw [hsplit]; congr 1; omega
      _ ≤ v.toNat * 2 ^ (clzll v).toNat := Nat.mul_le_mul_right _ hlo

/-- The dividend shifted by the same amount: its high word `u32` and its low word `u10`. -/
theorem normalizeHigh_toNat {u1 u0 s : UInt64} (hs : s.toNat < 64)
    (hu1 : u1.toNat * 2 ^ s.toNat < 2 ^ 64) :
    (if s > 0 then (u1 <<< s) ||| (u0 >>> (64 - s)) else u1).toNat =
      (u1.toNat * 2 ^ 64 + u0.toNat) * 2 ^ s.toNat / 2 ^ 64 := by
  have hu0 := u0.toNat_lt
  by_cases hpos : s > 0
  · have hpos' : 0 < s.toNat := UInt64.lt_iff_toNat_lt.1 hpos
    have h64 : s ≤ 64 := by
      rw [UInt64.le_iff_toNat_le, show (64 : UInt64).toNat = 64 from rfl]
      omega
    have hsub : (64 - s).toNat = 64 - s.toNat := by
      rw [UInt64.toNat_sub_of_le _ _ h64]
      rfl
    have hpow : 2 ^ 64 = 2 ^ (64 - s.toNat) * 2 ^ s.toNat := by
      rw [← Nat.pow_add]
      congr 1
      omega
    have hlow : u0.toNat / 2 ^ (64 - s.toNat) < 2 ^ s.toNat := by
      rw [Nat.div_lt_iff_lt_mul (Nat.two_pow_pos _), Nat.mul_comm, ← hpow]
      exact hu0
    have hdiv : u0.toNat * 2 ^ s.toNat / 2 ^ 64 = u0.toNat / 2 ^ (64 - s.toNat) := by
      rw [hpow, Nat.mul_div_mul_right _ _ (Nat.two_pow_pos _)]
    have hrhs : (u1.toNat * 2 ^ 64 + u0.toNat) * 2 ^ s.toNat =
        2 ^ 64 * (2 ^ s.toNat * u1.toNat) + u0.toNat * 2 ^ s.toNat := by ring
    rw [if_pos hpos, UInt64.toNat_or, UInt64.toNat_shiftLeft, UInt64.toNat_shiftRight, hsub,
      Nat.mod_eq_of_lt hs, Nat.mod_eq_of_lt (show 64 - s.toNat < 64 by omega), Nat.shiftLeft_eq,
      Nat.mod_eq_of_lt hu1, Nat.shiftRight_eq_div_pow, Nat.mul_comm (u1.toNat),
      ← Nat.two_pow_add_eq_or_of_lt hlow, hrhs, Nat.mul_add_div (Nat.two_pow_pos 64), hdiv]
  · have hs0 : s.toNat = 0 := by
      simpa [UInt64.lt_iff_toNat_lt] using hpos
    rw [if_neg hpos, hs0, Nat.pow_zero, Nat.mul_one, Nat.mul_comm, Nat.mul_add_div
      (Nat.two_pow_pos 64), Nat.div_eq_of_lt hu0, Nat.add_zero]

theorem normalizeLow_toNat (u1 u0 : UInt64) {s : UInt64} (hs : s.toNat < 64) :
    (if s > 0 then u0 <<< s else u0).toNat =
      (u1.toNat * 2 ^ 64 + u0.toNat) * 2 ^ s.toNat % 2 ^ 64 := by
  have hsplit : (u1.toNat * 2 ^ 64 + u0.toNat) * 2 ^ s.toNat =
      u0.toNat * 2 ^ s.toNat + 2 ^ 64 * (u1.toNat * 2 ^ s.toNat) := by ring
  rw [hsplit, Nat.add_mul_mod_self_left]
  by_cases hpos : s > 0
  · rw [if_pos hpos, UInt64.toNat_shiftLeft, Nat.mod_eq_of_lt hs, Nat.shiftLeft_eq]
  · have hs0 : s.toNat = 0 := by
      simpa [UInt64.lt_iff_toNat_lt] using hpos
    rw [if_neg hpos, hs0, Nat.pow_zero, Nat.mul_one, Nat.mod_eq_of_lt u0.toNat_lt]

/-- The partial remainder `u21 = (u32 << 32) + (low_us[1] - qs[1] * v)`, computed modulo
`2^64`, is the true remainder of the first digit step, which is below `2^64`. -/
theorem partialRemainder_toNat {u32 lu1 q1 v : UInt64} {r : ℕ}
    (h : q1.toNat * v.toNat + r = u32.toNat * 2 ^ 32 + lu1.toNat) (hr : r < 2 ^ 64) :
    ((u32 <<< 32) + (lu1 - q1 * v)).toNat = r := by
  have hu := u32.toNat_lt
  have hl := lu1.toNat_lt
  rw [UInt64.toNat_add, UInt64.toNat_sub, UInt64.toNat_mul, UInt64.toNat_shiftLeft,
    show (32 : UInt64).toNat % 64 = 32 from rfl, Nat.shiftLeft_eq]
  omega


/-- A 128-bit number as two 64-bit words, the low word as two 32-bit digits. -/
theorem dividend_digits (u : ℕ) :
    (u / 2 ^ 64 * 2 ^ 32 + u % 2 ^ 64 / 2 ^ 32) * 2 ^ 32 + u % 2 ^ 64 % 2 ^ 32 = u := by
  omega

/-- The quotient of `divmod128by64` as a number: normalising both operands by `clz(v)` keeps the
quotient, whose two base-`2^32` digits the two correction loops find. -/
theorem divmod128by64_toNat {u1 u0 v : UInt64} (hv : v ≠ 0) (hu1 : u1 < v) :
    (divmod128by64 u1 u0 v).toNat = (u1.toNat * 2 ^ 64 + u0.toNat) / v.toNat := by
  have hs64 : (clzll v).toNat < 64 := by rw [clzll_toNat hv]; omega
  obtain ⟨hVw, hV63, hV64⟩ := normalize_toNat hv
  have hu1' : u1.toNat < v.toNat := UInt64.lt_iff_toNat_lt.1 hu1
  have hu1s : u1.toNat * 2 ^ (clzll v).toNat < 2 ^ 64 :=
    lt_trans (Nat.mul_lt_mul_of_pos_right hu1' (Nat.two_pow_pos _)) hV64
  have hhigh := @normalizeHigh_toNat u1 u0 _ hs64 hu1s
  have hlowW := normalizeLow_toNat u1 u0 hs64
  -- the dividend is below `v * 2^64`, so its high word is below the normalised divisor
  have hu : (u1.toNat * 2 ^ 64 + u0.toNat) * 2 ^ (clzll v).toNat <
      v.toNat * 2 ^ (clzll v).toNat * 2 ^ 64 := by
    rw [Nat.mul_right_comm]
    apply Nat.mul_lt_mul_of_pos_right _ (Nat.two_pow_pos _)
    calc u1.toNat * 2 ^ 64 + u0.toNat < (u1.toNat + 1) * 2 ^ 64 := by
          rw [Nat.succ_mul]; have := u0.toNat_lt; omega
      _ ≤ v.toNat * 2 ^ 64 := Nat.mul_le_mul_right _ hu1'
  have hquot : (u1.toNat * 2 ^ 64 + u0.toNat) / v.toNat =
      (u1.toNat * 2 ^ 64 + u0.toNat) * 2 ^ (clzll v).toNat / (v.toNat * 2 ^ (clzll v).toNat) :=
    (Nat.mul_div_mul_right _ _ (Nat.two_pow_pos _)).symm
  unfold divmod128by64
  dsimp only
  rw [hquot]
  generalize clzll v = s at *
  generalize v <<< s = vn at *
  generalize v.toNat * 2 ^ s.toNat = V at *
  generalize (u1.toNat * 2 ^ 64 + u0.toNat) * 2 ^ s.toNat = u at *
  generalize (if s > 0 then (u1 <<< s) ||| (u0 >>> (64 - s)) else u1) = u32 at *
  generalize (if s > 0 then u0 <<< s else u0) = u10 at *
  have hvs1 : (vn >>> 32).toNat = V / 2 ^ 32 := by
    rw [UInt64.toNat_shiftRight, show (32 : UInt64).toNat % 64 = 32 from rfl,
      Nat.shiftRight_eq_div_pow, hVw]
  have hvs0 : (vn &&& 0xffffffff).toNat = V % 2 ^ 32 := by
    rw [UInt64.toNat_and, show (0xffffffff : UInt64).toNat = 2 ^ 32 - 1 from rfl,
      Nat.and_two_pow_sub_one_eq_mod, hVw]
  have hlu1 : (u10 >>> 32).toNat = u % 2 ^ 64 / 2 ^ 32 := by
    rw [UInt64.toNat_shiftRight, show (32 : UInt64).toNat % 64 = 32 from rfl,
      Nat.shiftRight_eq_div_pow, hlowW]
  have hlu0 : (u10 &&& 0xffffffff).toNat = u % 2 ^ 64 % 2 ^ 32 := by
    rw [UInt64.toNat_and, show (0xffffffff : UInt64).toNat = 2 ^ 32 - 1 from rfl,
      Nat.and_two_pow_sub_one_eq_mod, hlowW]
  generalize vn >>> 32 = vs1 at *
  generalize vn &&& 0xffffffff = vs0 at *
  generalize u10 >>> 32 = lu1 at *
  generalize u10 &&& 0xffffffff = lu0 at *
  have hv1 : 2 ^ 31 ≤ vs1.toNat := by rw [hvs1]; omega
  have hv1' : vs1.toNat < 2 ^ 32 := by rw [hvs1]; omega
  have hv0 : vs0.toNat < 2 ^ 32 := by rw [hvs0]; omega
  have hl1 : lu1.toNat < 2 ^ 32 := by rw [hlu1]; omega
  have hl0 : lu0.toNat < 2 ^ 32 := by rw [hlu0]; omega
  have hVsplit : vs1.toNat * 2 ^ 32 + vs0.toNat = V := by rw [hvs1, hvs0]; omega
  have hH : u32.toNat < vs1.toNat * 2 ^ 32 + vs0.toNat := by rw [hVsplit, hhigh]; omega
  -- the first digit
  have hrem1 : u32.toNat % vs1.toNat < 2 ^ 32 := lt_trans (Nat.mod_lt _ (by omega)) hv1'
  have hright1 : ((u32 % vs1) <<< 32 + lu1).toNat = u32.toNat % vs1.toNat * 2 ^ 32 + lu1.toNat := by
    rw [UInt64.toNat_add, UInt64.toNat_shiftLeft, show (32 : UInt64).toNat % 64 = 32 from rfl,
      Nat.shiftLeft_eq, UInt64.toNat_mod]
    omega
  have hD1 := LongDivision.digit_lt_base hH hl1
  rw [knuthDigit_eq hv1 hv1' hv0 hl1 hH hright1 (by norm_num)]
  rw [hVsplit] at hD1 hH ⊢
  generalize hD1def : (u32.toNat * 2 ^ 32 + lu1.toNat) / V = D1 at hD1 ⊢
  -- the partial remainder
  have hw : (u32 <<< 32 + (lu1 - UInt64.ofNat D1 * vn)).toNat = (u32.toNat * 2 ^ 32 + lu1.toNat) % V := by
    apply partialRemainder_toNat _ (by have := Nat.mod_lt (u32.toNat * 2 ^ 32 + lu1.toNat) (show 0 < V by omega); omega)
    rw [UInt64.toNat_ofNat_of_lt' (show D1 < 2 ^ 64 by omega), hVw, ← hD1def, Nat.div_add_mod']
  generalize u32 <<< 32 + (lu1 - UInt64.ofNat D1 * vn) = w at *
  -- the second digit, on the window headed by the partial remainder
  have hW : w.toNat < vs1.toNat * 2 ^ 32 + vs0.toNat := by
    rw [hVsplit, hw]
    exact Nat.mod_lt _ (by omega)
  have hrem0 : (w % vs1).toNat < 2 ^ 32 := by
    rw [UInt64.toNat_mod]
    exact lt_trans (Nat.mod_lt _ (by omega)) hv1'
  have hright0 : ((w % vs1) <<< 32 ||| lu0).toNat = w.toNat % vs1.toNat * 2 ^ 32 + lu0.toNat := by
    rw [shiftLeft_32_or_toNat hrem0 hl0, UInt64.toNat_mod]
  have hD0 := LongDivision.digit_lt_base hW hl0
  rw [knuthDigit_eq hv1 hv1' hv0 hl0 hW hright0 (by norm_num)]
  rw [hVsplit] at hD0 ⊢
  generalize hD0def : (w.toNat * 2 ^ 32 + lu0.toNat) / V = D0 at hD0 ⊢
  have hD1' : (UInt64.ofNat D1).toNat = D1 := UInt64.toNat_ofNat_of_lt' (show D1 < 2 ^ 64 by omega)
  have hD0' : (UInt64.ofNat D0).toNat = D0 := UInt64.toNat_ofNat_of_lt' (show D0 < 2 ^ 64 by omega)
  rw [shiftLeft_32_or_toNat (by rw [hD1']; exact hD1) (by rw [hD0']; exact hD0), hD1', hD0',
    ← hD1def, ← hD0def, hw]
  have hsplit : (u32.toNat * 2 ^ 32 + lu1.toNat) * 2 ^ 32 + lu0.toNat = u := by
    rw [hhigh, hlu1, hlu0]
    exact dividend_digits u
  rw [← LongDivision.div_two_digits (by omega : 0 < V), hsplit]

/-- **Two-digit Knuth division is exact**: for every `v ≠ 0`, `divmod128by64(u1, u0, v)` with
`u1 < v` returns `⌊(u1 * 2^64 + u0) / v⌋`, and `div128by64(u, v)` returns `⌊u / v⌋` for every
128-bit `u` whose quotient fits in 64 bits. -/
theorem divmod128by64_exact (v : UInt64) (hv : v ≠ 0) :
    (∀ u1 u0 : UInt64, u1 < v →
      (divmod128by64 u1 u0 v).toNat = (u1.toNat * 2 ^ 64 + u0.toNat) / v.toNat) ∧
    (∀ u : ℕ, u < 2 ^ 128 → u / v.toNat < 2 ^ 64 → (div128by64 u v).toNat = u / v.toNat) := by
  refine ⟨fun u1 u0 hu1 => divmod128by64_toNat hv hu1, fun u hu hq => ?_⟩
  have hv' : 0 < v.toNat := by
    have : v.toNat ≠ 0 := by simpa [← UInt64.toNat_inj] using hv
    omega
  have hhigh : (UInt64.ofNat (u / 2 ^ 64)).toNat = u / 2 ^ 64 :=
    UInt64.toNat_ofNat_of_lt' (show u / 2 ^ 64 < 2 ^ 64 by omega)
  have hlow : (UInt64.ofNat u).toNat = u % 2 ^ 64 := UInt64.toNat_ofNat'
  -- the quotient fits in 64 bits exactly when the high word is below the divisor
  have hlt : u < v.toNat * 2 ^ 64 := by
    rw [Nat.mul_comm]
    exact (Nat.div_lt_iff_lt_mul hv').1 hq
  have hu1 : UInt64.ofNat (u / 2 ^ 64) < v := by
    rw [UInt64.lt_iff_toNat_lt, hhigh]
    omega
  rw [div128by64, divmod128by64_toNat hv hu1, hhigh, hlow, Nat.div_add_mod']

theorem divmod128by64_exact_seven :
    (7 : UInt64) ≠ 0 ∧
      (∀ u1 u0 : UInt64, u1 < 7 →
        (divmod128by64 u1 u0 7).toNat = (u1.toNat * 2 ^ 64 + u0.toNat) / (7 : UInt64).toNat) ∧
      (∀ u : ℕ, u < 2 ^ 128 → u / (7 : UInt64).toNat < 2 ^ 64 →
        (div128by64 u 7).toNat = u / (7 : UInt64).toNat) :=
  ⟨by decide, divmod128by64_exact 7 (by decide)⟩

/-- The constants `(m', shift1, shift2)` that `prep_ct_div(d, ...)` writes. -/
structure CtDivConsts where
  mPrime : UInt64
  shift1 : UInt64
  shift2 : UInt64
  deriving DecidableEq, Repr

/-- `prep_ct_div(d, &m_prime, &shift1, &shift2)`. -/
def prepCtDiv (d : UInt64) : CtDivConsts :=
  let l := ceilLog2 d
  let dividend := 2 ^ 64 * ((1 <<< l) - d).toNat
  let q := div128by64 dividend d
  { mPrime := 1 + q
    shift1 := if l < 1 then l else 1
    shift2 := if l - 1 > 0 then l - 1 else 0 }

/-- `ct_div(n, d, m_prime, shift1, shift2)`. -/
def ctDiv (n : UInt64) (c : CtDivConsts) : UInt64 :=
  let t1 := muluh64 c.mPrime n
  (t1 + ((n - t1) >>> c.shift1)) >>> c.shift2

/-- `ct_mod(n, d, m_prime, shift1, shift2)`: `n - ct_div(n, ...) * d`. -/
def ctMod (n d : UInt64) (c : CtDivConsts) : UInt64 :=
  n - ctDiv n c * d

/-- At `d = 1`, `l - 1` wraps and `shift2` is `SIZE_MAX`. -/
theorem prepCtDiv_one : prepCtDiv 1 = ⟨1, 0, UINT64_MAX⟩ := by decide +kernel

/-- **`ct_div` by one keeps only the top bit**: with the constants of `prep_ct_div(1)`,
`ct_div(n, 1) = n >> 63` for every `n`. -/
theorem ctDiv_one (n : UInt64) : ctDiv n (prepCtDiv 1) = n >>> 63 := by
  rw [prepCtDiv_one]
  have hm : muluh64 1 n = 0 := by
    have := n.toNat_lt
    simp only [muluh64, UInt64.toNat_one, one_mul]
    rw [Nat.div_eq_of_lt this]; rfl
  have h63 : n >>> UINT64_MAX = n >>> 63 := by
    rw [UInt64.shiftRight_eq_shiftRight_mod]; rfl
  simp only [ctDiv, hm, UInt64.sub_zero, UInt64.zero_add]
  rw [show n >>> (0 : UInt64) = n by
    apply UInt64.toNat_inj.1; simp, h63]

/-- For `n ≥ 2` the top bit `n >> 63` is below `n`. -/
theorem ctDiv_one_lt (n : UInt64) (hn : 2 ≤ n) : ctDiv n (prepCtDiv 1) < n := by
  rw [ctDiv_one, UInt64.lt_iff_toNat_lt, UInt64.toNat_shiftRight, Nat.shiftRight_eq_div_pow]
  have h2 : 2 ≤ n.toNat := UInt64.le_iff_toNat_le.1 hn
  exact Nat.div_lt_self (by omega) (Nat.one_lt_two_pow (by decide))

/-- **Division by one is inexact**: for every `n ≥ 2`, `ct_div(n, 1)` is not `n / 1` and
`ct_mod(n, 1)` is not `n % 1`. -/
theorem ctDiv_by_one_inexact (n : UInt64) (hn : 2 ≤ n) :
    ctDiv n (prepCtDiv 1) ≠ n / 1 ∧ ctMod n 1 (prepCtDiv 1) ≠ n % 1 := by
  have hlt := ctDiv_one_lt n hn
  rw [UInt64.lt_iff_toNat_lt] at hlt
  refine ⟨fun h => ?_, fun h => ?_⟩
  · rw [UInt64.div_one] at h
    rw [h] at hlt
    exact lt_irrefl _ hlt
  · -- `ct_mod(n, 1) = n - ct_div(n, 1)`, which is not zero since the quotient is below `n`
    rw [UInt64.mod_one, ctMod, UInt64.mul_one] at h
    have h0 := congrArg UInt64.toNat h
    rw [UInt64.toNat_sub_of_le _ _ (UInt64.le_iff_toNat_le.2 hlt.le)] at h0
    simp only [UInt64.toNat_zero] at h0
    omega

theorem ctDiv_by_one_inexact_two :
    (2 : UInt64) ≤ 2 ∧ ctDiv 2 (prepCtDiv 1) ≠ 2 / 1 ∧ ctMod 2 1 (prepCtDiv 1) ≠ 2 % 1 :=
  ⟨by decide, ctDiv_by_one_inexact 2 (by decide)⟩

example : ctMod 1000 7 (prepCtDiv 7) = 1000 % 7 ∧ ctDiv 1000 (prepCtDiv 24) = 1000 / 24 ∧
    ctMod 123456789 336 (prepCtDiv 336) = 123456789 % 336 := by decide +kernel

/-! ## `ct_div` is exact for `2 ≤ d ≤ 2^63` -/

/-- `div128by64(u, v)` is the quotient of every `u` whose quotient fits in 64 bits. -/
theorem div128by64_toNat {u : ℕ} {v : UInt64} (hv : v ≠ 0) (hu : u / 2 ^ 64 < v.toNat) :
    (div128by64 u v).toNat = u / v.toNat := by
  have hhigh : (UInt64.ofNat (u / 2 ^ 64)).toNat = u / 2 ^ 64 :=
    UInt64.toNat_ofNat_of_lt' (show u / 2 ^ 64 < 2 ^ 64 by have := v.toNat_lt; omega)
  have hu1 : UInt64.ofNat (u / 2 ^ 64) < v := by
    rw [UInt64.lt_iff_toNat_lt, hhigh]
    exact hu
  rw [div128by64, divmod128by64_toNat hv hu1, hhigh, UInt64.toNat_ofNat', Nat.div_add_mod']

/-- The constants of `prep_ct_div(d)` for `2 ≤ d ≤ 2^63`, with `l = ceil_log2(d)`: the stored
multiplier `m' = ⌊2^64 (2^l - d) / d⌋ + 1`, `shift1 = 1` and `shift2 = l - 1`. -/
theorem prepCtDiv_spec {d : UInt64} (hd : 2 ≤ d.toNat) (hd' : d.toNat ≤ 2 ^ 63) :
    (prepCtDiv d).mPrime.toNat = 2 ^ 64 * (2 ^ (ceilLog2 d).toNat - d.toNat) / d.toNat + 1 ∧
      (prepCtDiv d).shift1 = 1 ∧ (prepCtDiv d).shift2.toNat = (ceilLog2 d).toNat - 1 := by
  obtain ⟨hl, hlo, hhi⟩ := ceilLog2_spec hd
  have hl63 : (ceilLog2 d).toNat ≤ 63 := by
    by_contra h
    have : 2 ^ 63 ≤ 2 ^ ((ceilLog2 d).toNat - 1) := Nat.pow_le_pow_right (by norm_num) (by omega)
    omega
  have hpow2 : 2 ^ (ceilLog2 d).toNat = 2 * 2 ^ ((ceilLog2 d).toNat - 1) := by
    rw [← Nat.pow_succ']
    congr 1
    omega
  have hpow : ((1 : UInt64) <<< ceilLog2 d).toNat = 2 ^ (ceilLog2 d).toNat :=
    one_shiftLeft_toNat (by omega)
  have hsub : ((1 : UInt64) <<< ceilLog2 d - d).toNat = 2 ^ (ceilLog2 d).toNat - d.toNat := by
    rw [UInt64.toNat_sub_of_le _ _ (by rw [UInt64.le_iff_toNat_le, hpow]; exact hhi), hpow]
  have hd0 : d ≠ 0 := by
    rintro rfl
    exact absurd hd (by decide)
  -- the 128-bit quotient fits: `2^l - d < d`
  have hq := div128by64_toNat (u := 2 ^ 64 * (2 ^ (ceilLog2 d).toNat - d.toNat)) hd0
    (by rw [Nat.mul_div_cancel_left _ (Nat.two_pow_pos 64)]; omega)
  have hmagic := InvariantDivision.magic_lt (N := 64) hl hlo (by omega)
  have hone : 1 ≤ ceilLog2 d := by
    rw [UInt64.le_iff_toNat_le, UInt64.toNat_one]
    exact hl
  refine ⟨?_, ?_, ?_⟩
  · show (1 + div128by64 (2 ^ 64 * ((1 : UInt64) <<< ceilLog2 d - d).toNat) d).toNat = _
    rw [hsub, UInt64.toNat_add, UInt64.toNat_one, hq, Nat.mod_eq_of_lt (by omega), Nat.add_comm]
  · show (if ceilLog2 d < 1 then ceilLog2 d else 1) = 1
    rw [if_neg fun h => absurd (UInt64.lt_iff_toNat_lt.1 h) (by rw [UInt64.toNat_one]; omega)]
  · show (if ceilLog2 d - 1 > 0 then ceilLog2 d - 1 else 0).toNat = _
    have hsub1 : (ceilLog2 d - 1).toNat = (ceilLog2 d).toNat - 1 := by
      rw [UInt64.toNat_sub_of_le _ _ hone, UInt64.toNat_one]
    split_ifs with h
    · exact hsub1
    · -- `l - 1` is zero: `l = 1`
      rw [gt_iff_lt, UInt64.lt_iff_toNat_lt, hsub1, UInt64.toNat_zero] at h
      rw [UInt64.toNat_zero]
      omega

section Exact

variable {d : UInt64} (hd : 2 ≤ d) (hd' : d.toNat ≤ 2 ^ 63)
include hd hd'

/-- The quotient of `ct_div` as a number: the multiplier `2^64 + m'` is within `d` above
`2^(64+l)` (`InvariantDivision.mul_magic_div`), and the two shifts add its top bit back without a
carry (`InvariantDivision.fixup_div`). -/
theorem ctDiv_toNat (n : UInt64) : (ctDiv n (prepCtDiv d)).toNat = n.toNat / d.toNat := by
  have hd2 : 2 ≤ d.toNat := UInt64.le_iff_toNat_le.1 hd
  obtain ⟨hm, hs1, hs2⟩ := prepCtDiv_spec hd2 hd'
  obtain ⟨hl, hlo, hhi⟩ := ceilLog2_spec hd2
  have hl64 : (ceilLog2 d).toNat - 1 < 64 := by
    by_contra h
    have : 2 ^ 63 ≤ 2 ^ ((ceilLog2 d).toNat - 1) := Nat.pow_le_pow_right (by norm_num) (by omega)
    omega
  have hn := n.toNat_lt
  have hmlt := (prepCtDiv d).mPrime.toNat_lt
  -- `t1 = ⌊m' n / 2^64⌋` is at most `n`
  have htn : (prepCtDiv d).mPrime.toNat * n.toNat / 2 ^ 64 ≤ n.toNat :=
    Nat.div_le_of_le_mul (Nat.mul_le_mul_right _ hmlt.le)
  have ht : (muluh64 (prepCtDiv d).mPrime n).toNat =
      (prepCtDiv d).mPrime.toNat * n.toNat / 2 ^ 64 := by
    rw [muluh64, UInt64.toNat_ofNat_of_lt'
      (show (prepCtDiv d).mPrime.toNat * n.toNat / 2 ^ 64 < 2 ^ 64 by omega)]
  set t1 := muluh64 (prepCtDiv d).mPrime n with ht1
  have hdef : ctDiv n (prepCtDiv d) =
      (t1 + (n - t1) >>> (prepCtDiv d).shift1) >>> (prepCtDiv d).shift2 := rfl
  have hnt : (n - t1).toNat = n.toNat - t1.toNat := by
    rw [UInt64.toNat_sub_of_le _ _ (by rw [UInt64.le_iff_toNat_le, ht]; exact htn)]
  have hhalf : ((n - t1) >>> (1 : UInt64)).toNat = (n.toNat - t1.toNat) / 2 := by
    rw [UInt64.toNat_shiftRight, hnt, Nat.shiftRight_eq_div_pow]
    rfl
  have hsum : (t1 + (n - t1) >>> (1 : UInt64)).toNat = t1.toNat + (n.toNat - t1.toNat) / 2 := by
    rw [UInt64.toNat_add, hhalf, Nat.mod_eq_of_lt (by omega)]
  rw [hdef, hs1, UInt64.toNat_shiftRight, hsum, hs2, Nat.mod_eq_of_lt hl64,
    Nat.shiftRight_eq_div_pow, InvariantDivision.fixup_div hl (ht ▸ htn), ht, Nat.mul_comm,
    InvariantDivision.add_mulHigh_div, hm, ← Nat.add_assoc, Nat.add_comm (2 ^ 64),
    InvariantDivision.magic_add_eq (by omega) hhi,
    InvariantDivision.mul_magic_div (by omega) hhi hn]

/-- The remainder of `ct_mod` as a number: `n - ⌊n / d⌋ d` does not wrap. -/
theorem ctMod_toNat (n : UInt64) : (ctMod n d (prepCtDiv d)).toNat = n.toNat % d.toNat := by
  have hn := n.toNat_lt
  have hq := ctDiv_toNat hd hd' n
  have hqd : (ctDiv n (prepCtDiv d)).toNat * d.toNat ≤ n.toNat := by
    rw [hq]
    exact Nat.div_mul_le_self _ _
  have hmul : (ctDiv n (prepCtDiv d) * d).toNat = (ctDiv n (prepCtDiv d)).toNat * d.toNat := by
    rw [UInt64.toNat_mul, Nat.mod_eq_of_lt (by omega)]
  rw [ctMod, UInt64.toNat_sub_of_le _ _ (by rw [UInt64.le_iff_toNat_le, hmul]; exact hqd), hmul, hq,
    Nat.mod_eq_sub_div_mul]

/-- **`ct_div` and `ct_mod` are exact for every divisor `2 ≤ d ≤ 2^63`**: with the constants
of `prep_ct_div(d)`, `ct_div(n, d) = n / d` and `ct_mod(n, d) = n % d` for every word `n`. -/
theorem ctDiv_exact (n : UInt64) :
    ctDiv n (prepCtDiv d) = n / d ∧ ctMod n d (prepCtDiv d) = n % d :=
  ⟨UInt64.toNat_inj.1 (by rw [ctDiv_toNat hd hd', UInt64.toNat_div]),
    UInt64.toNat_inj.1 (by rw [ctMod_toNat hd hd', UInt64.toNat_mod])⟩

end Exact

theorem ctDiv_exact_seven :
    (2 : UInt64) ≤ 7 ∧ (7 : UInt64).toNat ≤ 2 ^ 63 ∧
      ∀ n : UInt64, ctDiv n (prepCtDiv 7) = n / 7 ∧ ctMod n 7 (prepCtDiv 7) = n % 7 :=
  ⟨by decide, by decide, ctDiv_exact (by decide) (by decide)⟩

end ContactDiscovery
