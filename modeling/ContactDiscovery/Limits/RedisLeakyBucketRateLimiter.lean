import Mathlib

/-!
# The Redis leaky bucket (`limits/redis/validate_rate_limit.lua`, `RedisLeakyBucketRateLimiter.java`)

The key `leaky_bucket::<name>::<key>` is a Redis hash with the fields `spaceUsed` and
`lastUpdateTimeMillis`; `PEXPIRE` gives it a deadline, at which Redis deletes it. A run of the
script is atomic:

* `currentSpaceUsed` — the stored level less what leaked since its update, rounded up and at
  least `0`; an absent key is an empty bucket;
* `validateRateLimit` — admit `amount` when it fits under `bucketSize`: store the new level and
  the time, set the deadline to the instant that level will have leaked away, and return `0`;
  otherwise return the overflow and leave the key alone;
* `expireKey`, `runValidate` — calls in time order, each seeing the key only before its deadline;
* `RedisLeakyBucketRateLimiter.validate` — the Java caller: `leakRatePerMillis` from the
  configuration, the script's number read back as a Redis integer, and the retry duration of an
  overflow.

Lua numbers are exact rationals here, and the deadline is kept as an instant. The caller's
fallback when Redis itself fails (the request is allowed) is not modelled.

Principal results:

* `RedisLeakyBucketRateLimiter.validate_ok_iff` — with whole amounts and a whole bucket size,
  the Java call succeeds exactly when the script admits;
* `validateRateLimit_admits_at_most` — from any state of the key, the calls the script admits
  at instants within `[x, y]` carry at most `bucketSize + leakRatePerMillis * (y - x)`, and a
  rejected call returns a positive overflow and leaves the key as it was.
-/

set_option autoImplicit false

namespace ContactDiscovery

/-! ## The script -/

/-- The bucket's Redis hash, with the deadline its last `PEXPIRE` set. -/
structure BucketKey where
  spaceUsed : ℚ
  lastUpdateTimeMillis : ℚ
  expireAt : ℚ
  deriving DecidableEq, Repr

/-- `currentSpaceUsed`: `math.max(0, math.ceil(spaceUsed - (elapsedTimeMillis *
leakRatePerMillis)))`, where an absent key reads as `spaceUsed = 0` updated at
`currentTimeMillis`. -/
def currentSpaceUsed (leakRatePerMillis currentTimeMillis : ℚ) (key : Option BucketKey) : ℚ :=
  let (spaceUsed, lastUpdateTimeMillis) := match key with
    | some k => (k.spaceUsed, k.lastUpdateTimeMillis)
    | none => (0, currentTimeMillis)
  let elapsedTimeMillis := currentTimeMillis - lastUpdateTimeMillis
  max 0 (⌈spaceUsed - elapsedTimeMillis * leakRatePerMillis⌉ : ℤ)

/-- `validate_rate_limit.lua` with `ARGV = bucketSize, leakRatePerMillis, currentTimeMillis,
amount`: the key afterwards and the script's return value. -/
def validateRateLimit (bucketSize leakRatePerMillis currentTimeMillis amount : ℚ)
    (key : Option BucketKey) : Option BucketKey × ℚ :=
  let currentSpaceUsed := currentSpaceUsed leakRatePerMillis currentTimeMillis key
  let bucketSpaceRemaining := bucketSize - currentSpaceUsed
  if bucketSpaceRemaining ≥ amount then
    let currentSpaceUsed := currentSpaceUsed + amount
    -- `HMSET`, then `PEXPIRE` for the time the new level takes to leak away
    (some ⟨currentSpaceUsed, currentTimeMillis, currentTimeMillis + currentSpaceUsed / leakRatePerMillis⟩, 0)
  else (key, amount - bucketSpaceRemaining)

/-- Redis deletes the key at its deadline. -/
def expireKey (now : ℚ) : Option BucketKey → Option BucketKey
  | some k => if now < k.expireAt then some k else none
  | none => none

/-- One call of the script: its `currentTimeMillis` and `amount`. -/
structure ValidateCall where
  currentTimeMillis : ℚ
  amount : ℚ
  deriving DecidableEq, Repr

/-- The script's return values over calls in order, on one key. -/
def runValidate (bucketSize leakRatePerMillis : ℚ) : Option BucketKey → List ValidateCall → List ℚ
  | _, [] => []
  | key, c :: cs =>
    let (key, ret) := validateRateLimit bucketSize leakRatePerMillis c.currentTimeMillis c.amount
      (expireKey c.currentTimeMillis key)
    ret :: runValidate bucketSize leakRatePerMillis key cs

/-- The total amount of the calls at instants within `[x, y]` whose return value is `0`. -/
def admittedIn (x y : ℚ) : List ValidateCall → List ℚ → ℚ
  | c :: cs, ret :: rets =>
    (if ret = 0 ∧ x ≤ c.currentTimeMillis ∧ c.currentTimeMillis ≤ y then c.amount else 0) +
      admittedIn x y cs rets
  | _, _ => 0

/-! ## The Java caller -/

/-- `LeakyBucketRateLimitConfiguration`: `@PositiveOrZero` bucket size and leak scalar, and the
leak duration in milliseconds. -/
structure LeakyBucketRateLimitConfiguration where
  bucketSize : ℕ
  leakRateScalar : ℕ
  leakRateDurationMillis : ℕ
  deriving DecidableEq, Repr

/-- `leakRatePerMillis = leakRateScalar / leakRateDuration.toMillis()`. -/
def LeakyBucketRateLimitConfiguration.leakRatePerMillis (cfg : LeakyBucketRateLimitConfiguration) : ℚ :=
  (cfg.leakRateScalar : ℚ) / cfg.leakRateDurationMillis

/-- `RedisLeakyBucketRateLimiter.validate(key, amount)` at the instant `now`: the script's number
comes back as a Redis integer (`(long long)` of the Lua number, which is never negative here);
an overflow is a `RateLimitExceededException` with a retry duration of
`ceil(overflow / leakRatePerMillis)` milliseconds. -/
def RedisLeakyBucketRateLimiter.validate (cfg : LeakyBucketRateLimitConfiguration)
    (now amount : ℕ) (key : Option BucketKey) : Option BucketKey × Except ℕ Unit :=
  let leakRatePerMillis := cfg.leakRatePerMillis
  let (key, overflow) := validateRateLimit cfg.bucketSize leakRatePerMillis now amount (expireKey now key)
  let overflow : ℤ := ⌊overflow⌋
  if overflow > 0 then (key, .error ⌈(overflow : ℚ) / leakRatePerMillis⌉₊) else (key, .ok ())

/-! ## One call -/

section Call

variable (bucketSize leakRatePerMillis currentTimeMillis amount : ℚ) (key : Option BucketKey)

theorem currentSpaceUsed_nonneg : 0 ≤ currentSpaceUsed leakRatePerMillis currentTimeMillis key :=
  le_max_left _ _

/-- **What one run of the script does.** It admits, storing `currentSpaceUsed + amount` at the
current time with the deadline at which that level leaks away, exactly when the amount fits;
otherwise it returns the overflow `amount - (bucketSize - currentSpaceUsed)`, which is positive,
and leaves the key alone. -/
theorem validateRateLimit_cases :
    let c := currentSpaceUsed leakRatePerMillis currentTimeMillis key
    (amount ≤ bucketSize - c ∧ validateRateLimit bucketSize leakRatePerMillis currentTimeMillis amount key =
        (some ⟨c + amount, currentTimeMillis, currentTimeMillis + (c + amount) / leakRatePerMillis⟩, 0)) ∨
      (bucketSize - c < amount ∧ validateRateLimit bucketSize leakRatePerMillis currentTimeMillis amount key =
        (key, amount - (bucketSize - c)) ∧ 0 < amount - (bucketSize - c)) := by
  intro c
  by_cases h : amount ≤ bucketSize - c
  · left
    exact ⟨h, if_pos h⟩
  · right
    have h' : bucketSize - c < amount := lt_of_not_ge h
    refine ⟨h', if_neg h, ?_⟩
    linarith

end Call

section Runs

variable {leakRatePerMillis : ℚ}

/-- The level the bucket would hold at `t` if it leaked exactly: the stored level less the leak
since its update; an absent key holds nothing. -/
def leakedLevel (leakRatePerMillis t : ℚ) : Option BucketKey → ℚ
  | some k => k.spaceUsed - (t - k.lastUpdateTimeMillis) * leakRatePerMillis
  | none => 0

/-- The key's deadline is no earlier than the instant its level has leaked away: true of every
key the script writes. -/
def DeadlineAfterEmpty (leakRatePerMillis : ℚ) (key : Option BucketKey) : Prop :=
  ∀ k, key = some k → k.lastUpdateTimeMillis + k.spaceUsed / leakRatePerMillis ≤ k.expireAt

/-- The script reads at least the exact level: it rounds up and cuts at `0`. -/
theorem leakedLevel_le_currentSpaceUsed (leakRatePerMillis t : ℚ) (key : Option BucketKey) :
    leakedLevel leakRatePerMillis t key ≤ currentSpaceUsed leakRatePerMillis t key := by
  cases key with
  | none => simp [leakedLevel, currentSpaceUsed]
  | some k =>
    simp only [leakedLevel, currentSpaceUsed]
    exact le_max_of_le_right (Int.le_ceil _)

/-- Leaking for longer leaves less. -/
theorem leakedLevel_antitone (hr : 0 ≤ leakRatePerMillis) {t t' : ℚ} (htt : t ≤ t')
    (key : Option BucketKey) : leakedLevel leakRatePerMillis t' key ≤ leakedLevel leakRatePerMillis t key := by
  cases key with
  | none => exact le_rfl
  | some k =>
    simp only [leakedLevel]
    nlinarith

/-- Between two instants the level falls by at most the leak. -/
theorem leakedLevel_le_add_leak (hr : 0 ≤ leakRatePerMillis) {t t' : ℚ} (htt : t ≤ t')
    (key : Option BucketKey) :
    leakedLevel leakRatePerMillis t key ≤ leakedLevel leakRatePerMillis t' key + leakRatePerMillis * (t' - t) := by
  cases key with
  | none =>
    simp only [leakedLevel, zero_add]
    nlinarith
  | some k =>
    simp only [leakedLevel]
    linarith

/-- Redis deletes a key only once its level has leaked away. -/
theorem leakedLevel_le_expireKey (hr : 0 < leakRatePerMillis) {t : ℚ} {key : Option BucketKey}
    (hkey : DeadlineAfterEmpty leakRatePerMillis key) :
    leakedLevel leakRatePerMillis t key ≤ leakedLevel leakRatePerMillis t (expireKey t key) := by
  cases key with
  | none => exact le_rfl
  | some k =>
    simp only [expireKey]
    split_ifs with h
    · exact le_rfl
    · -- past the deadline the leak since the update covers the stored level
      have hd := hkey k rfl
      have hle : k.spaceUsed / leakRatePerMillis ≤ t - k.lastUpdateTimeMillis := by linarith
      rw [div_le_iff₀ hr] at hle
      simp only [leakedLevel]
      linarith

theorem expireKey_deadlineAfterEmpty {t : ℚ} {key : Option BucketKey}
    (hkey : DeadlineAfterEmpty leakRatePerMillis key) :
    DeadlineAfterEmpty leakRatePerMillis (expireKey t key) := by
  intro k hk
  cases key with
  | none => cases hk
  | some k' =>
    simp only [expireKey] at hk
    split_ifs at hk
    cases hk
    exact hkey k rfl

theorem leakedLevel_expireKey_le {B : ℚ} (hB : 0 ≤ B) (hr : 0 ≤ leakRatePerMillis) {t t' : ℚ}
    (htt : t ≤ t') {key : Option BucketKey} (hlevel : leakedLevel leakRatePerMillis t key ≤ B) :
    leakedLevel leakRatePerMillis t' (expireKey t' key) ≤ B := by
  cases key with
  | none => exact hB
  | some k =>
    simp only [expireKey]
    split_ifs
    · exact (leakedLevel_antitone hr htt _).trans hlevel
    · exact hB

/-- The invariant of a run watched over the window `[x, y]`, after the calls up to the instant
`t` with `S` admitted within the window: nothing before the window; within it, either nothing
yet, or `S` is covered by the leak since `x` and the exact level of a key the script wrote,
which is at most `B`; after it, the bound itself. -/
def WindowInv (B leakRatePerMillis x y t S : ℚ) (key : Option BucketKey) : Prop :=
  (t < x → S = 0) ∧
    (x ≤ t → t ≤ y → S = 0 ∨
      (S ≤ leakRatePerMillis * (t - x) + leakedLevel leakRatePerMillis t key ∧
        leakedLevel leakRatePerMillis t key ≤ B ∧ DeadlineAfterEmpty leakRatePerMillis key)) ∧
    (y < t → S ≤ B + leakRatePerMillis * (y - x))

section Window

variable {B x y : ℚ}

variable (hB : 0 ≤ B) (hr : 0 < leakRatePerMillis) (hxy : x ≤ y)
include hB hr hxy

theorem windowInv_start (t : ℚ) (key : Option BucketKey) :
    WindowInv B leakRatePerMillis x y t 0 key := by
  refine ⟨fun _ => rfl, fun _ _ => Or.inl rfl, fun _ => ?_⟩
  nlinarith

theorem WindowInv.bound {t S : ℚ} {key : Option BucketKey}
    (h : WindowInv B leakRatePerMillis x y t S key) : S ≤ B + leakRatePerMillis * (y - x) := by
  obtain ⟨hbefore, hwithin, hafter⟩ := h
  rcases lt_or_ge t x with htx | htx
  · rw [hbefore htx]
    nlinarith
  rcases le_or_gt t y with hty | hty
  · rcases hwithin htx hty with hS | ⟨hS, hlevel, -⟩
    · rw [hS]
      nlinarith
    · nlinarith
  · exact hafter hty

omit hxy in
/-- Within the window, just before a call at `t'` and after Redis has dropped an expired key,
`S` is still covered by the leak since `x` and the level at `t'`. -/
theorem windowInv_within {t t' S : ℚ} {key : Option BucketKey}
    (h : WindowInv B leakRatePerMillis x y t S key) (htt : t ≤ t') (hty : t' ≤ y) :
    S = 0 ∨ (S ≤ leakRatePerMillis * (t' - x) + leakedLevel leakRatePerMillis t' (expireKey t' key) ∧
      leakedLevel leakRatePerMillis t' (expireKey t' key) ≤ B ∧
      DeadlineAfterEmpty leakRatePerMillis (expireKey t' key)) := by
  obtain ⟨hbefore, hwithin, -⟩ := h
  rcases lt_or_ge t x with htx | htx
  · exact Or.inl (hbefore htx)
  rcases hwithin htx (htt.trans hty) with hS | ⟨hS, hlevel, hkey⟩
  · exact Or.inl hS
  · -- what leaked between `t` and `t'` moves from the level to the leak since `x`
    have hleak := leakedLevel_le_add_leak hr.le htt key
    have hexp := leakedLevel_le_expireKey (t := t') hr hkey
    right
    exact ⟨by nlinarith, leakedLevel_expireKey_le hB hr.le htt hlevel, expireKey_deadlineAfterEmpty hkey⟩

/-- **One call keeps the invariant.** At `t' ≥ t` Redis first drops an expired key; a call
within the window then adds its amount to `S` exactly when the script admits it. -/
theorem windowInv_step {t S : ℚ} {key key' : Option BucketKey} {ret : ℚ}
    (h : WindowInv B leakRatePerMillis x y t S key) {c : ValidateCall} (htt : t ≤ c.currentTimeMillis)
    (hcall : validateRateLimit B leakRatePerMillis c.currentTimeMillis c.amount
      (expireKey c.currentTimeMillis key) = (key', ret)) :
    WindowInv B leakRatePerMillis x y c.currentTimeMillis
      (S + if ret = 0 ∧ x ≤ c.currentTimeMillis ∧ c.currentTimeMillis ≤ y then c.amount else 0) key' := by
  obtain ⟨t', amount⟩ := c
  dsimp only at htt hcall ⊢
  have hbound := h.bound hB hr hxy
  rcases lt_or_ge t' x with htx | htx
  · -- before the window: nothing was or is admitted within it
    have hS : S = 0 := h.1 (lt_of_le_of_lt htt htx)
    refine ⟨fun _ => ?_, fun h' => absurd h' (not_le.2 htx),
      fun h' => absurd (lt_of_le_of_lt hxy h') (not_lt.2 htx.le)⟩
    rw [hS, if_neg (fun h' => absurd h'.2.1 (not_le.2 htx)), add_zero]
  rcases le_or_gt t' y with hty | hty
  · refine ⟨fun h' => absurd htx (not_le.2 h'), fun _ _ => ?_, fun h' => absurd hty (not_le.2 h')⟩
    have hprev := windowInv_within hB hr h htt hty
    rcases validateRateLimit_cases B leakRatePerMillis t' amount (expireKey t' key) with
      ⟨hfit, heq⟩ | ⟨-, heq, hpos⟩
    · -- admitted: the new level is `currentSpaceUsed + amount`, at most `B`
      rw [heq, Prod.mk.injEq] at hcall
      obtain ⟨rfl, rfl⟩ := hcall
      rw [if_pos ⟨rfl, htx, hty⟩]
      have hc := leakedLevel_le_currentSpaceUsed leakRatePerMillis t' (expireKey t' key)
      have hc0 := currentSpaceUsed_nonneg leakRatePerMillis t' (expireKey t' key)
      simp only [leakedLevel, sub_self, zero_mul, sub_zero]
      refine Or.inr ⟨?_, by linarith, fun k hk => by cases hk; simp⟩
      rcases hprev with hS | ⟨hS, -, -⟩
      · rw [hS]
        nlinarith
      · linarith
    · -- rejected: the key is the one Redis left, and `S` is unchanged
      rw [heq, Prod.mk.injEq] at hcall
      obtain ⟨rfl, rfl⟩ := hcall
      rw [if_neg (fun h' => hpos.ne' h'.1), add_zero]
      exact hprev
  · refine ⟨fun h' => absurd htx (not_le.2 h'), fun _ h' => absurd hty (not_lt.2 h'), fun _ => ?_⟩
    rw [if_neg (fun h' => absurd h'.2.2 (not_le.2 hty)), add_zero]
    exact hbound

/-- The run lemma: from the invariant at `t`, over calls in time order from `t` on. -/
theorem windowInv_run :
    ∀ (calls : List ValidateCall) (t S : ℚ) (key : Option BucketKey),
      calls.Pairwise (fun c d => c.currentTimeMillis ≤ d.currentTimeMillis) →
      (∀ c ∈ calls, t ≤ c.currentTimeMillis) → WindowInv B leakRatePerMillis x y t S key →
      S + admittedIn x y calls (runValidate B leakRatePerMillis key calls) ≤
        B + leakRatePerMillis * (y - x)
  | [], _, S, _, _, _, h => by
    simp only [admittedIn, add_zero]
    exact h.bound hB hr hxy
  | c :: cs, t, S, key, hsorted, hafter, h => by
    rw [List.pairwise_cons] at hsorted
    rcases hcall : validateRateLimit B leakRatePerMillis c.currentTimeMillis c.amount
      (expireKey c.currentTimeMillis key) with ⟨key', ret⟩
    have hstep := windowInv_step hB hr hxy h (hafter c List.mem_cons_self) hcall
    have ih := windowInv_run cs _ _ _ hsorted.2 hsorted.1 hstep
    simp only [runValidate, hcall, admittedIn]
    linarith

end Window

end Runs

/-- **The bucket admits at most its size plus its leak.** For every bucket size, every leak rate
`r > 0`, every state of the key and every sequence of calls in time order, the calls the script
admits at instants within `[x, y]` carry at most `bucketSize + r * (y - x)` in total; and every
call it rejects returns the positive overflow `amount - (bucketSize - currentSpaceUsed)` and
leaves the key as it found it. -/
theorem validateRateLimit_admits_at_most (bucketSize : ℕ) {leakRatePerMillis : ℚ}
    (hr : 0 < leakRatePerMillis) (key : Option BucketKey) (calls : List ValidateCall)
    (hsorted : calls.Pairwise (fun c d => c.currentTimeMillis ≤ d.currentTimeMillis))
    {x y : ℚ} (hxy : x ≤ y) :
    admittedIn x y calls (runValidate bucketSize leakRatePerMillis key calls) ≤
        bucketSize + leakRatePerMillis * (y - x) ∧
      ∀ (currentTimeMillis amount : ℚ) (key' : Option BucketKey),
        (validateRateLimit bucketSize leakRatePerMillis currentTimeMillis amount key').2 ≠ 0 →
          validateRateLimit bucketSize leakRatePerMillis currentTimeMillis amount key' =
            (key', amount - (bucketSize - currentSpaceUsed leakRatePerMillis currentTimeMillis key')) ∧
          0 < amount - (bucketSize - currentSpaceUsed leakRatePerMillis currentTimeMillis key') := by
  have hB : (0 : ℚ) ≤ bucketSize := Nat.cast_nonneg _
  refine ⟨?_, fun currentTimeMillis amount key' hret => ?_⟩
  · -- start the invariant before the first call
    have h := windowInv_run hB hr hxy calls (calls.head?.elim x ValidateCall.currentTimeMillis) 0 key
      hsorted ?_ (windowInv_start hB hr hxy _ key)
    · simpa using h
    · intro c hc
      cases calls with
      | nil => cases hc
      | cons d ds =>
        rw [List.pairwise_cons] at hsorted
        rcases List.mem_cons.1 hc with rfl | hc
        · exact le_rfl
        · exact hsorted.1 c hc
  · rcases validateRateLimit_cases bucketSize leakRatePerMillis currentTimeMillis amount key' with
      ⟨-, heq⟩ | ⟨-, heq, hpos⟩
    · rw [heq] at hret
      exact absurd rfl hret
    · exact ⟨heq, hpos⟩

theorem validateRateLimit_admits_at_most_two_calls :
    (0 : ℚ) < 1 ∧ [(⟨0, 1⟩ : ValidateCall), ⟨1, 1⟩].Pairwise
        (fun c d => c.currentTimeMillis ≤ d.currentTimeMillis) ∧ (0 : ℚ) ≤ 1 ∧
      admittedIn 0 1 [⟨0, 1⟩, ⟨1, 1⟩] (runValidate (1 : ℕ) 1 none [⟨0, 1⟩, ⟨1, 1⟩]) ≤
        (1 : ℕ) + 1 * (1 - 0) := by
  have hsorted : [(⟨0, 1⟩ : ValidateCall), ⟨1, 1⟩].Pairwise
      (fun c d => c.currentTimeMillis ≤ d.currentTimeMillis) := by
    simp
  exact ⟨by norm_num, hsorted, by norm_num,
    (validateRateLimit_admits_at_most 1 (by norm_num) none _ hsorted (by norm_num)).1⟩

end ContactDiscovery
