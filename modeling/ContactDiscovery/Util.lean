import Mathlib
import ContactDiscovery.Lib.Bitonic

/-!
# `util/util.h` and `util/error.h`

Reference model of the word-level helpers every component of the enclave uses:

* `ErrorT` — the `error_t` codes returned by the modelled C functions (`err_SUCCESS` is the
  `.ok` of `Except`);
* `u64Ternary` — the branch-free `U64_TERNARY` mask formula, `condObvCpyU64` /
  `condObvSwapU64` on an array modelled as a function `Nat → UInt64`;
* `floorLog2`, `ceilLog2`, `firstPow2Leq`, `clzll` (`__builtin_clzll`), `muluh64`;
* `u64sOfBytes`, `bytesOfU64s` — a byte buffer read as the little-endian words it stores.

`size_t` and `u64` values are `UInt64`, so that wrapping subtraction and the x86 masking of
shift counts (Lean's `UInt64` shifts take the count modulo 64) are those of the compiled code.

Principal results: `u64Ternary_eq` — the mask formula is a conditional, which every later
branch-free loop is read through; `pow2Split_toNat` — the split of the bitonic merges is the
largest power of two below the length.
-/

set_option autoImplicit false

namespace ContactDiscovery

/-- The `error_t` codes that the modelled functions return (`util/error.h`). `external`
stands for a code produced by a library outside the repository (noise-c, pbtools, libc). -/
inductive ErrorT where
  | OOM
  | ENCLAVE__GENERAL__CLIENT_STATE
  | ENCLAVE__GENERAL__ENTROPY
  | ENCLAVE__GENERAL__CLIENT_GET_FAILED
  | ENCLAVE__GENERAL__CLIENT_REMOVE_FAILED
  | ENCLAVE__GENERAL__CLIENT_LOCK_FAILED
  | ENCLAVE__GENERAL__NOINIT
  | ENCLAVE__GENERAL__INVALID_PRIVATE_KEY
  | ENCLAVE__NEWCLIENT__EREPORT_TOO_LARGE
  | ENCLAVE__RATELIMIT__REQUEST_PB_NEW
  | ENCLAVE__RATELIMIT__RESPONSE_PB_NEW
  | ENCLAVE__RATELIMIT__INVALID_TOKEN
  | ENCLAVE__RATELIMIT__INVALID_E164S
  | ENCLAVE__RATELIMIT__BAD_OUTPUT
  | ENCLAVE__RATELIMIT__NO_TOKEN
  | ENCLAVE__RATELIMIT__UNSUPPORTED_VERSION
  | ENCLAVE__RATELIMIT__REQUEST_PB_DECODE
  | ENCLAVE__RATELIMIT__RESPONSE_PB_ENCODE
  | ENCLAVE__RATELIMIT__REQUEST_PB_INVALID
  | ENCLAVE__RATELIMIT__INVALID_TOKEN_FORMAT
  | ENCLAVE__RUN__REQUEST_PB_NEW
  | ENCLAVE__RUN__NO_TOKEN_ACK
  | ENCLAVE__RUN__RESPONSE_PB_NEW
  | ENCLAVE__RUN__REQUEST_PB_DECODE
  | ENCLAVE__RUN__RESPONSE_PB_ENCODE
  | ENCLAVE__HANDSHAKE__INVALID_STATE
  | ENCLAVE__RETRYRESPONSE__RESPONSE_PB_ENCODE
  | ENCLAVE__RETRYRESPONSE__RESPONSE_PB_NEW
  | FIXEDSET__RESIZE_INVALID
  | ORAM__ACCESS_UNALLOCATED_BLOCK
  | OHTABLE__TABLE_FULL
  | QUEUE__CLOSED
  | SHARD__DESTROYING
  | external (code : Nat)
  deriving DecidableEq, Repr

/-- Results of the modelled functions are compared in the statements about concrete runs. -/
instance exceptDecidableEq {ε α : Type} [DecidableEq ε] [DecidableEq α] : DecidableEq (Except ε α)
  | .error a, .error b => decidable_of_iff (a = b) ⟨congrArg _, Except.error.inj⟩
  | .ok a, .ok b => decidable_of_iff (a = b) ⟨congrArg _, Except.ok.inj⟩
  | .error _, .ok _ => isFalse nofun
  | .ok _, .error _ => isFalse nofun

/-- A mapped result is a success exactly when the original one is. -/
theorem except_map_eq_ok {α β ε : Type} {f : α → β} {x : Except ε α} {b : β}
    (h : x.map f = .ok b) : ∃ a, x = .ok a ∧ f a = b := by
  cases x with
  | error e => cases h
  | ok a => exact ⟨a, rfl, by simpa [Except.map] using h⟩

/-- `UINT64_MAX`. -/
def UINT64_MAX : UInt64 := 18446744073709551615

@[simp] theorem UINT64_MAX_toNat : UINT64_MAX.toNat = 2 ^ 64 - 1 := rfl

/-- `U64_TERNARY(b, t, f)`: `((0 - b) & t) | ((UINT64_MAX + b) & f)` with `b ∈ {0, 1}`. -/
def u64Ternary (b : Bool) (t f : UInt64) : UInt64 :=
  ((0 - (if b then 1 else 0)) &&& t) ||| ((UINT64_MAX + (if b then 1 else 0)) &&& f)

/-- `UINT64_MAX` is the all-ones mask. -/
@[simp] theorem UINT64_MAX_and (x : UInt64) : UINT64_MAX &&& x = x := by
  apply UInt64.toBitVec_inj.1
  have : UINT64_MAX.toBitVec = BitVec.allOnes 64 := by decide
  rw [UInt64.toBitVec_and, this, BitVec.allOnes_and]

@[simp] theorem and_UINT64_MAX (x : UInt64) : x &&& UINT64_MAX = x := by
  rw [UInt64.and_comm, UINT64_MAX_and]

@[simp] theorem UINT64_MAX_or (x : UInt64) : UINT64_MAX ||| x = UINT64_MAX := by
  apply UInt64.toBitVec_inj.1
  have : UINT64_MAX.toBitVec = BitVec.allOnes 64 := by decide
  rw [UInt64.toBitVec_or, this, BitVec.allOnes_or]

@[simp] theorem or_UINT64_MAX (x : UInt64) : x ||| UINT64_MAX = UINT64_MAX := by
  rw [UInt64.or_comm, UINT64_MAX_or]

/-- The complement of a word is zero exactly for `UINT64_MAX`. -/
theorem not_eq_zero_iff (x : UInt64) : ~~~x = 0 ↔ x = UINT64_MAX := by
  constructor
  · intro h
    rw [← UInt64.not_not (a := x), h]
    rfl
  · rintro rfl
    rfl

/-- **The mask formula selects**: `U64_TERNARY` is `b ? t : f` for every pair of words. -/
@[simp] theorem u64Ternary_eq (b : Bool) (t f : UInt64) : u64Ternary b t f = if b then t else f := by
  cases b
  · have h0 : (0 : UInt64) - 0 = 0 := rfl
    have hm : UINT64_MAX + 0 = UINT64_MAX := rfl
    simp only [u64Ternary, Bool.false_eq_true, ↓reduceIte, h0, hm, UInt64.zero_and, UInt64.zero_or,
      UINT64_MAX_and]
  · have h1 : (0 : UInt64) - 1 = UINT64_MAX := rfl
    have hm : UINT64_MAX + 1 = 0 := rfl
    simp only [u64Ternary, ↓reduceIte, h1, hm, UInt64.zero_and, UInt64.or_zero, UINT64_MAX_and]

/-- `cond_obv_cpy_u64(cond, dest, src)` on the word array `a`: `a[dest] = cond ? a[src] : a[dest]`. -/
def condObvCpyU64 (cond : Bool) (a : Nat → UInt64) (dest : Nat) (src : UInt64) : Nat → UInt64 :=
  Function.update a dest (u64Ternary cond src (a dest))

theorem condObvCpyU64_eq (cond : Bool) (a : Nat → UInt64) (dest : Nat) (src : UInt64) :
    condObvCpyU64 cond a dest src = if cond then Function.update a dest src else a := by
  cases cond <;> simp [condObvCpyU64]

/-- `cond_obv_swap_u64(cond, a, b)` on the two words `(x, y)`: three conditional copies through
`tmp`. -/
def condObvSwapU64 (cond : Bool) (x y : UInt64) : UInt64 × UInt64 :=
  let tmp := u64Ternary cond x 0
  let x' := u64Ternary cond y x
  let y' := u64Ternary cond tmp y
  (x', y')

@[simp] theorem condObvSwapU64_eq (cond : Bool) (x y : UInt64) :
    condObvSwapU64 cond x y = if cond then (y, x) else (x, y) := by
  cases cond <;> simp [condObvSwapU64]

/-! ## Logarithms and powers of two -/

/-- The `while (n > 1) { n >>= 1; result += 1; }` loop of `floor_log2`, with the bound of 64
iterations that a 64-bit `n` never reaches. -/
def floorLog2Loop : Nat → UInt64 → UInt64 → UInt64
  | 0, _, result => result
  | fuel + 1, n, result => if n > 1 then floorLog2Loop fuel (n >>> 1) (result + 1) else result

/-- `floor_log2`. -/
def floorLog2 (n : UInt64) : UInt64 := floorLog2Loop 64 n 0

/-- `ceil_log2`: `floor_log2(n) + 1` unless `n` is exactly `1 << floor_log2(n)`. -/
def ceilLog2 (n : UInt64) : UInt64 :=
  let floor := floorLog2 n
  if n > 1 <<< floor then floor + 1 else floor

/-- `__builtin_clzll(n)`: the number of zero bits above the highest set bit, found by scanning
from bit 63 down (GCC leaves the result for `n = 0` undefined; the scan gives 64). -/
def clzllScan (n : UInt64) : Nat → UInt64
  | 0 => 64
  | k + 1 => if (n >>> UInt64.ofNat k) &&& 1 = 1 then 63 - UInt64.ofNat k else clzllScan n k

/-- `__builtin_clzll`. -/
def clzll (n : UInt64) : UInt64 := clzllScan n 64

/-- `first_pow2_leq(n)`: `1 << (64 - clz(n) - 1)`, the largest power of two `≤ n` (`n > 0`). -/
def firstPow2Leq (n : UInt64) : UInt64 :=
  let msb := 64 - clzll n
  1 <<< (msb - 1)

/-- The split point of the two bitonic merges (`ratelimit.c`, `stash.c`): `first_pow2_leq(n)`,
shifted right once when it equals `n`. -/
def pow2Split (n : UInt64) : UInt64 :=
  let pow2 := firstPow2Leq n
  if pow2 = n then pow2 >>> 1 else pow2

theorem log2_lt_64 (n : UInt64) : Nat.log2 n.toNat < 64 := by
  rcases Nat.eq_zero_or_pos n.toNat with h | h
  · simp [h]
  · exact (Nat.log2_lt (by omega)).2 n.toNat_lt

theorem log2_eq_of_le_of_lt {m c : Nat} (h₁ : 2 ^ c ≤ m) (h₂ : m < 2 ^ (c + 1)) :
    Nat.log2 m = c := by
  have hm : m ≠ 0 := by have := Nat.two_pow_pos c; omega
  have := (Nat.le_log2 hm).2 h₁
  have := (Nat.log2_lt hm).2 h₂
  omega

/-- Bit `k` of `n`, read as `(n >> k) & 1`. -/
theorem shiftRight_and_one_toNat (n : UInt64) {k : Nat} (hk : k < 64) :
    ((n >>> UInt64.ofNat k) &&& 1).toNat = n.toNat / 2 ^ k % 2 := by
  have hk' : (UInt64.ofNat k).toNat = k := by simp; omega
  rw [UInt64.toNat_and, UInt64.toNat_shiftRight, hk', Nat.mod_eq_of_lt hk,
    Nat.shiftRight_eq_div_pow, UInt64.toNat_one, Nat.and_one_is_mod]

/-- Scanning down from bit `k - 1` stops at the highest set bit, bit `log2 n`. -/
theorem clzllScan_eq {n : UInt64} (hn : n ≠ 0) :
    ∀ k, Nat.log2 n.toNat < k → k ≤ 64 → clzllScan n k = 63 - UInt64.ofNat (Nat.log2 n.toNat)
  | 0, hk, _ => absurd hk (Nat.not_lt_zero _)
  | k + 1, hk, hk64 => by
    have hn' : n.toNat ≠ 0 := by simpa [← UInt64.toNat_inj] using hn
    have hlo := Nat.log2_self_le hn'
    have hhi := Nat.lt_log2_self (n := n.toNat)
    have hbit := shiftRight_and_one_toNat n (k := k) (by omega)
    unfold clzllScan
    by_cases hkb : k = Nat.log2 n.toNat
    · -- bit `log2 n` is set: `n / 2 ^ log2 n = 1`
      have h1 : n.toNat / 2 ^ k = 1 := by
        subst hkb
        apply le_antisymm
        · have := Nat.pow_succ 2 (Nat.log2 n.toNat)
          exact Nat.lt_succ_iff.1 ((Nat.div_lt_iff_lt_mul (Nat.two_pow_pos _)).2 (by omega))
        · exact (Nat.le_div_iff_mul_le (Nat.two_pow_pos _)).2 (by simpa using hlo)
      rw [if_pos (UInt64.toNat_inj.1 (by rw [hbit, h1]; rfl)), hkb]
    · -- above the highest set bit every bit is clear
      have h0 : n.toNat / 2 ^ k = 0 :=
        Nat.div_eq_of_lt (lt_of_lt_of_le hhi (Nat.pow_le_pow_right (by norm_num) (by omega)))
      have hne : ¬ (n >>> UInt64.ofNat k) &&& 1 = 1 := by
        intro h
        have := congrArg UInt64.toNat h
        rw [hbit, h0] at this
        simp at this
      rw [if_neg hne]
      exact clzllScan_eq hn k (by omega) (by omega)

theorem one_shiftLeft_toNat {k : UInt64} (hk : k.toNat < 64) :
    ((1 : UInt64) <<< k).toNat = 2 ^ k.toNat := by
  rw [UInt64.toNat_shiftLeft, Nat.mod_eq_of_lt hk, UInt64.toNat_one, Nat.one_shiftLeft,
    Nat.mod_eq_of_lt (Nat.pow_lt_pow_right (by norm_num) hk)]

/-- The loop of `floor_log2` adds `⌊log₂ n⌋` to its counter, halving `n` once per round. -/
theorem floorLog2Loop_toNat : ∀ (fuel : Nat) (n result : UInt64), Nat.log2 n.toNat ≤ fuel →
    result.toNat + Nat.log2 n.toNat < 2 ^ 64 →
      (floorLog2Loop fuel n result).toNat = result.toNat + Nat.log2 n.toNat
  | 0, n, result, hfuel, _ => by
    rw [floorLog2Loop]
    omega
  | fuel + 1, n, result, hfuel, hlt => by
    unfold floorLog2Loop
    by_cases hn : n > 1
    · have hn' : 2 ≤ n.toNat := UInt64.lt_iff_toNat_lt.1 hn
      have hlog : Nat.log2 n.toNat = Nat.log2 (n.toNat / 2) + 1 := by
        rw [Nat.log2_def, if_pos hn']
      have hshift : (n >>> 1).toNat = n.toNat / 2 := by
        rw [UInt64.toNat_shiftRight, show (1 : UInt64).toNat % 64 = 1 from rfl, Nat.shiftRight_one]
      have hres : (result + 1).toNat = result.toNat + 1 := by
        rw [UInt64.toNat_add, UInt64.toNat_one]
        omega
      rw [if_pos hn, floorLog2Loop_toNat fuel _ _ (by rw [hshift]; omega)
        (by rw [hshift, hres]; omega), hshift, hres]
      omega
    · have hn' : n.toNat ≤ 1 := by
        simpa [UInt64.lt_iff_toNat_lt] using hn
      have hlog : Nat.log2 n.toNat = 0 := by
        rw [Nat.log2_def, if_neg (by omega)]
      rw [if_neg hn, hlog, Nat.add_zero]

/-- `floor_log2(n)` is `⌊log₂ n⌋` (and `0` for `n = 0`). -/
theorem floorLog2_toNat (n : UInt64) : (floorLog2 n).toNat = Nat.log2 n.toNat := by
  have hb := log2_lt_64 n
  rw [floorLog2, floorLog2Loop_toNat 64 n 0 (by omega) (by simp only [UInt64.toNat_zero]; omega),
    UInt64.toNat_zero, Nat.zero_add]

/-- `ceil_log2(n)` is `⌊log₂ n⌋`, plus one unless `n` is a power of two. -/
theorem ceilLog2_toNat (n : UInt64) :
    (ceilLog2 n).toNat =
      if 2 ^ Nat.log2 n.toNat < n.toNat then Nat.log2 n.toNat + 1 else Nat.log2 n.toNat := by
  have hb := log2_lt_64 n
  have hfloor := floorLog2_toNat n
  have hpow : ((1 : UInt64) <<< floorLog2 n).toNat = 2 ^ Nat.log2 n.toNat := by
    rw [one_shiftLeft_toNat (by omega), hfloor]
  unfold ceilLog2
  by_cases h : 2 ^ Nat.log2 n.toNat < n.toNat
  · have h' : n > 1 <<< floorLog2 n := by
      rw [gt_iff_lt, UInt64.lt_iff_toNat_lt, hpow]
      exact h
    rw [if_pos h', if_pos h, UInt64.toNat_add, hfloor, UInt64.toNat_one]
    omega
  · have h' : ¬ n > 1 <<< floorLog2 n := by
      rw [gt_iff_lt, UInt64.lt_iff_toNat_lt, hpow]
      exact h
    rw [if_neg h', if_neg h, hfloor]

/-- `floor_log2(n)` is the exponent of the largest power of two `≤ n`. -/
theorem floorLog2_spec {n : UInt64} (hn : n.toNat ≠ 0) :
    2 ^ (floorLog2 n).toNat ≤ n.toNat ∧ n.toNat < 2 ^ ((floorLog2 n).toNat + 1) := by
  rw [floorLog2_toNat]
  exact ⟨Nat.log2_self_le hn, Nat.lt_log2_self⟩

/-- `ceil_log2(n)` is the exponent of the smallest power of two `≥ n`, for `n ≥ 2`. -/
theorem ceilLog2_spec {n : UInt64} (hn : 2 ≤ n.toNat) :
    1 ≤ (ceilLog2 n).toNat ∧ 2 ^ ((ceilLog2 n).toNat - 1) < n.toNat ∧
      n.toNat ≤ 2 ^ (ceilLog2 n).toNat := by
  have hlo := Nat.log2_self_le (n := n.toNat) (by omega)
  have hhi := Nat.lt_log2_self (n := n.toNat)
  have hpos : 1 ≤ Nat.log2 n.toNat := (Nat.le_log2 (by omega)).2 (by simpa using hn)
  rw [ceilLog2_toNat]
  by_cases h : 2 ^ Nat.log2 n.toNat < n.toNat
  · rw [if_pos h, Nat.add_sub_cancel]
    exact ⟨by omega, h, hhi.le⟩
  · rw [if_neg h]
    have heq : n.toNat = 2 ^ Nat.log2 n.toNat := by omega
    have hhalf : 2 ^ (Nat.log2 n.toNat - 1) < 2 ^ Nat.log2 n.toNat :=
      Nat.pow_lt_pow_right (by norm_num) (by omega)
    exact ⟨hpos, by omega, by omega⟩

/-- `first_pow2_leq(n)` is `2 ^ ⌊log₂ n⌋` for every non-zero word. -/
theorem firstPow2Leq_toNat {n : UInt64} (hn : n ≠ 0) :
    (firstPow2Leq n).toNat = 2 ^ Nat.log2 n.toNat := by
  have hb := log2_lt_64 n
  have hclz : clzll n = 63 - UInt64.ofNat (Nat.log2 n.toNat) := clzllScan_eq hn 64 hb le_rfl
  -- `64 - (63 - b) - 1 = b` holds in wrapping arithmetic for every word `b`
  have hmsb : (64 - clzll n - 1).toNat = Nat.log2 n.toNat := by
    rw [hclz, show ∀ b : UInt64, 64 - (63 - b) - 1 = b by intro b; grind]
    rw [UInt64.toNat_ofNat']
    exact Nat.mod_eq_of_lt (by omega)
  unfold firstPow2Leq
  rw [UInt64.toNat_shiftLeft, hmsb, Nat.mod_eq_of_lt hb, UInt64.toNat_one, Nat.one_shiftLeft,
    Nat.mod_eq_of_lt (Nat.pow_lt_pow_right (by norm_num) hb)]

/-- **The merge split is the largest power of two below `n`**: for `n ≥ 2`,
`pow2Split n = 2 ^ ⌊log₂ (n - 1)⌋`. -/
theorem pow2Split_toNat {n : UInt64} (hn : 1 < n) :
    (pow2Split n).toNat = 2 ^ Nat.log2 (n.toNat - 1) := by
  have hn' : 1 < n.toNat := UInt64.lt_iff_toNat_lt.1 hn
  have hp := firstPow2Leq_toNat (n := n) (by rintro rfl; exact absurd hn (by decide))
  have hlo := Nat.log2_self_le (n := n.toNat) (by omega)
  have hhi := Nat.lt_log2_self (n := n.toNat)
  have hsucc := Nat.pow_succ 2 (Nat.log2 n.toNat)
  simp only [pow2Split]
  split
  · -- `n` is a power of two, `2 ^ b`; the split is `2 ^ (b - 1)`
    rename_i heq
    have hnb : n.toNat = 2 ^ Nat.log2 n.toNat := by rw [← hp, heq]
    obtain ⟨c, hc⟩ : ∃ c, Nat.log2 n.toNat = c + 1 := by
      rcases Nat.eq_zero_or_pos (Nat.log2 n.toNat) with h | h
      · rw [h] at hnb; omega
      · exact ⟨_, (Nat.succ_pred_eq_of_pos h).symm⟩
    have hc2 := Nat.pow_succ 2 c
    rw [hc] at hnb
    rw [UInt64.toNat_shiftRight, hp, hc, show (1 : UInt64).toNat % 64 = 1 from rfl, Nat.shiftRight_one,
      log2_eq_of_le_of_lt (m := n.toNat - 1) (c := c) (by omega) (by omega)]
    omega
  · -- otherwise `2 ^ b < n < 2 ^ (b + 1)`, and `n - 1` has the same logarithm
    rename_i hne
    have hlt : 2 ^ Nat.log2 n.toNat < n.toNat := by
      rcases Nat.lt_or_eq_of_le hlo with h | h
      · exact h
      · exact absurd (UInt64.toNat_inj.1 (by rw [hp, h])) hne
    rw [hp, log2_eq_of_le_of_lt (m := n.toNat - 1) (c := Nat.log2 n.toNat) (by omega) (by omega)]

/-- **The bitonic merges of `ratelimit.c` and `stash.c` split where `Bitonic.merge` does**:
`Bitonic.merge` unfolds once to the source's body, with `pow2 = pow2Split n` and the loop
`for (i = lb; i < ub - pow2; ++i)`. -/
theorem merge_unfold_pow2Split {α : Type} (cmp : α → α → Bool) (dir : Bool) (f : ℕ → α)
    {lb ub : ℕ} (h : 1 < ub - lb) (hn : ub - lb < 2 ^ 64) :
    Bitonic.merge cmp dir f lb ub =
      let pow2 := (pow2Split (UInt64.ofNat (ub - lb))).toNat
      let f := Bitonic.cexPass cmp dir pow2 (ub - pow2 - lb) lb f
      Bitonic.merge cmp dir (Bitonic.merge cmp dir f lb (lb + pow2)) (lb + pow2) ub := by
  have hn' : (UInt64.ofNat (ub - lb)).toNat = ub - lb := UInt64.toNat_ofNat_of_lt' hn
  have hsplit : (pow2Split (UInt64.ofNat (ub - lb))).toNat = Bitonic.splitPoint (ub - lb) := by
    rw [pow2Split_toNat (UInt64.lt_iff_toNat_lt.2 (by rw [hn']; exact h)), hn']
    rfl
  -- the loop bound `ub - pow2` counts `ub - pow2 - lb` exchanges from `lb`
  have hk : ub - Bitonic.splitPoint (ub - lb) - lb = ub - lb - Bitonic.splitPoint (ub - lb) := by
    omega
  rw [Bitonic.merge, dif_pos h, hsplit]
  simp only [hk]

/-- `muluh64(a, b)`: the high word of the 128-bit product. -/
def muluh64 (a b : UInt64) : UInt64 := UInt64.ofNat (a.toNat * b.toNat / 2 ^ 64)

/-! ## Byte buffers -/

/-- The word stored little-endian (the x86 layout) in the first eight bytes of `b`. -/
def u64OfLe (b : List UInt8) : UInt64 :=
  (b.take 8).foldr (fun x acc => x.toUInt64 ||| (acc <<< 8)) 0

/-- A byte buffer read through a `u64*` cast: its full words, in order. -/
def u64sOfBytes : List UInt8 → List UInt64
  | b₀ :: b₁ :: b₂ :: b₃ :: b₄ :: b₅ :: b₆ :: b₇ :: rest =>
    u64OfLe [b₀, b₁, b₂, b₃, b₄, b₅, b₆, b₇] :: u64sOfBytes rest
  | _ => []

/-- The eight bytes of a word, little-endian. -/
def bytesOfU64 (w : UInt64) : List UInt8 :=
  (List.range 8).map fun i => (w >>> UInt64.ofNat (8 * i)).toUInt8

/-- An array of words written to memory and read back as bytes. -/
def bytesOfU64s (ws : List UInt64) : List UInt8 := ws.flatMap bytesOfU64

/-- A buffer that does not start with a full word is shorter than a word. -/
theorem length_lt_8_of_u64sOfBytes_short {b : List UInt8}
    (h : ∀ b₀ b₁ b₂ b₃ b₄ b₅ b₆ b₇ rest, b = b₀ :: b₁ :: b₂ :: b₃ :: b₄ :: b₅ :: b₆ :: b₇ :: rest →
      False) : b.length < 8 := by
  match b, h with
  | [], _ | [_], _ | [_, _], _ | [_, _, _], _ | [_, _, _, _], _ | [_, _, _, _, _], _
  | [_, _, _, _, _, _], _ | [_, _, _, _, _, _, _], _ => simp
  | _ :: _ :: _ :: _ :: _ :: _ :: _ :: _ :: _, h => exact absurd rfl (h _ _ _ _ _ _ _ _ _)

@[simp] theorem u64sOfBytes_length (b : List UInt8) : (u64sOfBytes b).length = b.length / 8 := by
  induction b using u64sOfBytes.induct with
  | case1 b₀ b₁ b₂ b₃ b₄ b₅ b₆ b₇ rest ih => simp only [u64sOfBytes, List.length_cons, ih]; omega
  | case2 b h =>
    have := length_lt_8_of_u64sOfBytes_short h
    rw [u64sOfBytes.eq_2 _ h, List.length_nil]
    omega

/-- Buffers of whole words concatenate to concatenated word arrays. -/
theorem u64sOfBytes_append {a : List UInt8} (ha : a.length % 8 = 0) (b : List UInt8) :
    u64sOfBytes (a ++ b) = u64sOfBytes a ++ u64sOfBytes b := by
  induction a using u64sOfBytes.induct with
  | case1 b₀ b₁ b₂ b₃ b₄ b₅ b₆ b₇ rest ih =>
    simp only [List.cons_append, u64sOfBytes, List.length_cons] at ha ⊢
    rw [ih (by omega)]
  | case2 a h =>
    -- a buffer of whole words that is shorter than a word is empty
    have hlt := length_lt_8_of_u64sOfBytes_short h
    have ha0 : a = [] := List.eq_nil_of_length_eq_zero (by omega)
    subst ha0
    rfl

example : floorLog2 1040678 = 19 ∧ ceilLog2 1 = 0 ∧ ceilLog2 2 = 1 ∧ ceilLog2 9 = 4 ∧
    firstPow2Leq 100 = 64 := by decide

end ContactDiscovery
