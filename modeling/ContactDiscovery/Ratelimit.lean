import Mathlib
import ContactDiscovery.Util
import ContactDiscovery.Lib.BitonicSorted

/-!
# `ratelimit/ratelimit.c`: rate-limit tokens

A rate-limit token is `version ‖ entropy ‖ HMAC-SHA256(secret, version ‖ entropy ‖ e164s)` where
`e164s` are the client's previous and discarded (or new) e164s, merged and sorted. The enclave
hands out a token in `enclave_rate_limit` and accepts one back through
`ratelimit_validate_received_rate_limit_token`.

* `ClientRequest` — the `ClientRequest` message of `cdsi.proto`, as decoded by pbtools;
* `bitonicSortUint64s` — the e164 sort, the instance of `Bitonic.sort` comparing with `<`;
* `ratelimitMergeE164s`, `ratelimitComputeToken`, `ratelimitTokenHash`,
  `ratelimitConstantTimeEqual`, `ratelimitValidateReceivedRateLimitToken`.

SHA-256 (from noise-c, outside the repository) is the parameter `sha256`, the shared secret
(`g_shared_secret_bytes`, at most 64 bytes) is `secret`, and whether `calloc` succeeds in
`ratelimit_merge_e164s` is `mallocOk`.

Principal results:

* `ratelimitMergeE164s_eq` — the merge is the words of both buffers in ascending order
  (`Bitonic.sort_sortedOn`, with `uint64_t` ordered as C orders it);
* `ratelimitComputeToken_perm_invariant` — a token depends only on the multiset of the e164s;
* `ratelimitConstantTimeEqual_iff` — the byte comparison is equality;
* `ratelimitValidateReceivedRateLimitToken_ok_iff` — a request passes the token check exactly
  when it has no token and no previous e164s, or its token is the one `ratelimitComputeToken`
  computes from its previous and discarded e164s.
-/

set_option autoImplicit false

namespace ContactDiscovery

/-- `RATELIMIT_ENTROPY_SIZE`. -/
def RATELIMIT_ENTROPY_SIZE : ℕ := 32
/-- `RATELIMIT_HASH_SIZE`. -/
def RATELIMIT_HASH_SIZE : ℕ := 32
/-- `RATELIMIT_VERSION`. -/
def RATELIMIT_VERSION : UInt8 := 1
/-- `RATELIMIT_VERSION_SIZE`. -/
def RATELIMIT_VERSION_SIZE : ℕ := 1
/-- `RATELIMIT_TOKEN_SIZE`: version, entropy and hash. -/
def RATELIMIT_TOKEN_SIZE : ℕ := RATELIMIT_VERSION_SIZE + RATELIMIT_ENTROPY_SIZE + RATELIMIT_HASH_SIZE
/-- `RATELIMIT_TOKENHASH_SIZE`. -/
def RATELIMIT_TOKENHASH_SIZE : ℕ := 32

@[simp] theorem RATELIMIT_TOKEN_SIZE_eq : RATELIMIT_TOKEN_SIZE = 65 := rfl
@[simp] theorem RATELIMIT_TOKEN_HEAD_eq : RATELIMIT_VERSION_SIZE + RATELIMIT_ENTROPY_SIZE = 33 := rfl

/-- `struct org_signal_cdsi_client_request_t`: the `ClientRequest` message. Its `bytes` fields
are byte lists (`size` is the length). -/
structure ClientRequest where
  aciUakPairs : List UInt8
  prevE164s : List UInt8
  newE164s : List UInt8
  discardE164s : List UInt8
  token : List UInt8
  tokenAck : Bool
  deriving DecidableEq, Repr

/-! ## Sorting e164s -/

/-- The comparison of `bitonic_merge_u64s_recurse`: `cond = direction == data[i] < data[i+pow2]`. -/
def u64Lt (a b : UInt64) : Bool := decide (a < b)

/-- `bitonic_merge_u64s_recurse(data, lb, ub, direction)`; the split is `pow2Split`
(`merge_unfold_pow2Split`). -/
def bitonicMergeU64sRecurse (data : ℕ → UInt64) (lb ub : ℕ) (direction : Bool) : ℕ → UInt64 :=
  Bitonic.merge u64Lt direction data lb ub

/-- `bitonic_sort_u64s_recurse(data, lb, ub, direction)`. -/
def bitonicSortU64sRecurse (data : ℕ → UInt64) (lb ub : ℕ) (direction : Bool) : ℕ → UInt64 :=
  Bitonic.sort u64Lt direction data lb ub

/-- `bitonic_sort_uint64s(data, size)`: direction `false`, which swaps when `data[i] ≥ data[j]`. -/
def bitonicSortUint64s (data : ℕ → UInt64) (size : ℕ) : ℕ → UInt64 :=
  bitonicSortU64sRecurse data 0 size false

/-- `ratelimit_merge_e164s(a, b)`: both buffers must hold whole words; the result is the words
of `a ++ b`, sorted by `bitonic_sort_uint64s`, written back as bytes. -/
def ratelimitMergeE164s (mallocOk : Bool) (a b : List UInt8) : Except ErrorT (List UInt8) :=
  if a.length % 8 ≠ 0 then .error .ENCLAVE__RATELIMIT__INVALID_E164S
  else if b.length % 8 ≠ 0 then .error .ENCLAVE__RATELIMIT__INVALID_E164S
  else if !mallocOk then .error .OOM
  else
    let out := u64sOfBytes (a ++ b)
    let sorted := bitonicSortUint64s (fun i => out.getD i 0) out.length
    .ok (bytesOfU64s ((List.range out.length).map sorted))

/-! ## What the merge returns -/

/-- `uint64_t` in the order of C's unsigned comparisons. -/
instance uint64LinearOrder : LinearOrder UInt64 where
  le_refl := UInt64.le_refl
  le_trans _ _ _ := UInt64.le_trans
  le_antisymm _ _ := UInt64.le_antisymm
  le_total := UInt64.le_total
  lt_iff_le_not_ge a b := by
    rw [UInt64.not_le]
    exact ⟨fun h => ⟨UInt64.le_of_lt h, h⟩, And.right⟩
  toDecidableLE := inferInstance
  toDecidableLT := inferInstance

theorem bytesOfU64s_length (ws : List UInt64) : (bytesOfU64s ws).length = 8 * ws.length := by
  induction ws with
  | nil => rfl
  | cons w ws ih =>
    rw [bytesOfU64s, List.flatMap_cons, List.length_append, ← bytesOfU64s, ih, bytesOfU64,
      List.length_map, List.length_range, List.length_cons]
    omega

theorem map_range_getD {α : Type} (l : List α) (d : α) :
    (List.range l.length).map (fun i => l.getD i d) = l := by
  apply List.ext_getElem (by simp)
  intro i h₁ h₂
  simp only [List.getElem_map, List.getElem_range, List.getD_eq_getElem _ _ h₂]

/-- `bitonic_sort_uint64s` lists the words it was given, in ascending order. -/
theorem bitonicSortUint64s_eq_mergeSort (ws : List UInt64) :
    (List.range ws.length).map (bitonicSortUint64s (fun i => ws.getD i 0) ws.length) =
      ws.mergeSort (fun x y => decide (x ≤ y)) := by
  have hsorted : Bitonic.SortedOn (bitonicSortUint64s (fun i => ws.getD i 0) ws.length) 0 ws.length :=
    Bitonic.sort_sortedOn _ 0 _
  have hperm : Bitonic.PermOn 0 ws.length (fun i => ws.getD i 0)
      (bitonicSortUint64s (fun i => ws.getD i 0) ws.length) :=
    Bitonic.sort_permOn false _ 0 _
  have hwords := hperm.perm_map_range
  rw [map_range_getD] at hwords
  exact List.Perm.eq_of_sortedLE hsorted.sortedLE_map_range List.sortedLE_mergeSort
    (hwords.trans (List.mergeSort_perm ws _).symm)

/-- **`ratelimit_merge_e164s` sorts.** For buffers of whole words the merge is the words of
both, in ascending order, written back as `a.size + b.size` bytes; it fails only when the
allocation does. -/
theorem ratelimitMergeE164s_eq (mallocOk : Bool) {a b : List UInt8} (ha : a.length % 8 = 0)
    (hb : b.length % 8 = 0) :
    ratelimitMergeE164s mallocOk a b =
      (if mallocOk then
        .ok (bytesOfU64s ((u64sOfBytes a ++ u64sOfBytes b).mergeSort (fun x y => decide (x ≤ y))))
      else .error .OOM) ∧
    (bytesOfU64s ((u64sOfBytes a ++ u64sOfBytes b).mergeSort (fun x y => decide (x ≤ y)))).length =
      a.length + b.length := by
  refine ⟨?_, ?_⟩
  · unfold ratelimitMergeE164s
    rw [if_neg (by omega), if_neg (by omega)]
    cases mallocOk
    · rfl
    · dsimp only
      rw [bitonicSortUint64s_eq_mergeSort, u64sOfBytes_append ha]
      rfl
  · rw [bytesOfU64s_length, List.length_mergeSort, List.length_append, u64sOfBytes_length,
      u64sOfBytes_length]
    omega

/-! ## Tokens -/

/-- The 64-byte HMAC pad: `memset(pad, 0)`, `memcpy(pad, g_shared_secret_bytes, size)`, then
`xor_bytes(pad, x)`. -/
def hmacPad (secret : List UInt8) (x : UInt8) : List UInt8 :=
  (List.range 64).map fun i => secret.getD i 0 ^^^ x

/-- `ratelimit_constant_time_equal(a, b, s)`: `c |= a[i] ^ b[i]` over `s` bytes, then `c == 0`. -/
def ratelimitConstantTimeEqual (a b : List UInt8) (s : ℕ) : Bool :=
  (List.range s).foldl (fun c i => c ||| (a.getD i 0 ^^^ b.getD i 0)) 0 == 0

section Token

variable (sha256 : List UInt8 → Vector UInt8 32) (secret : List UInt8) (mallocOk : Bool)

/-- `ratelimit_compute_token(e164s_a, e164s_b, token)`: keeps the version and entropy bytes of
`token` and writes `HMAC_SHA256(secret, version ‖ entropy ‖ merged)` after them. -/
def ratelimitComputeToken (e164sA e164sB token : List UInt8) : Except ErrorT (List UInt8) := do
  let merged ← ratelimitMergeE164s mallocOk e164sA e164sB
  let head := token.take (RATELIMIT_VERSION_SIZE + RATELIMIT_ENTROPY_SIZE)
  let hash1 := sha256 (hmacPad secret 0x36 ++ head ++ merged)
  let hash2 := sha256 (hmacPad secret 0x5c ++ hash1.toList)
  pure (head ++ hash2.toList)

/-- `ratelimit_token_hash(token, hash)`. -/
def ratelimitTokenHash (token : List UInt8) : List UInt8 :=
  (sha256 (token.take RATELIMIT_TOKEN_SIZE)).toList

/-- `ratelimit_validate_received_rate_limit_token(req)`. -/
def ratelimitValidateReceivedRateLimitToken (req : ClientRequest) : Except ErrorT Unit :=
  if req.token.length = 0 then
    if req.prevE164s.length > 0 then .error .ENCLAVE__RATELIMIT__NO_TOKEN else .ok ()
  else if req.token.length ≠ RATELIMIT_TOKEN_SIZE then
    .error .ENCLAVE__RATELIMIT__INVALID_TOKEN_FORMAT
  else if req.token.getD 0 0 ≠ RATELIMIT_VERSION then
    .error .ENCLAVE__RATELIMIT__UNSUPPORTED_VERSION
  else do
    -- the version and entropy are copied in from the received token
    let computedToken ← ratelimitComputeToken sha256 secret mallocOk req.prevE164s
      req.discardE164s (req.token.take (RATELIMIT_VERSION_SIZE + RATELIMIT_ENTROPY_SIZE))
    if ratelimitConstantTimeEqual computedToken req.token RATELIMIT_TOKEN_SIZE then .ok ()
    else .error .ENCLAVE__RATELIMIT__INVALID_TOKEN

/-! ## What the token check accepts -/

theorem foldl_or_eq_zero_iff (f : ℕ → UInt8) :
    ∀ (l : List ℕ) (c : UInt8), l.foldl (fun c i => c ||| f i) c = 0 ↔ c = 0 ∧ ∀ i ∈ l, f i = 0
  | [], c => by simp
  | i :: l, c => by
    rw [List.foldl_cons, foldl_or_eq_zero_iff f l, UInt8.or_eq_zero_iff]
    simp only [List.mem_cons, forall_eq_or_imp]
    tauto

/-- **The constant-time comparison is equality** of two buffers of `s` bytes. -/
theorem ratelimitConstantTimeEqual_iff {a b : List UInt8} {s : ℕ} (ha : a.length = s)
    (hb : b.length = s) : ratelimitConstantTimeEqual a b s = true ↔ a = b := by
  unfold ratelimitConstantTimeEqual
  rw [beq_iff_eq, foldl_or_eq_zero_iff]
  simp only [List.mem_range, UInt8.xor_eq_zero_iff, true_and]
  constructor
  · intro h
    apply List.ext_getElem (by omega)
    intro i hia hib
    have := h i (by omega)
    rwa [List.getD_eq_getElem _ _ hia, List.getD_eq_getElem _ _ hib] at this
  · rintro rfl i _
    rfl

/-- A computed token is the kept head followed by the 32 hash bytes. -/
theorem ratelimitComputeToken_length {e164sA e164sB token t : List UInt8}
    (h : ratelimitComputeToken sha256 secret mallocOk e164sA e164sB token = .ok t) :
    t.length = min 33 token.length + 32 := by
  unfold ratelimitComputeToken at h
  cases hm : ratelimitMergeE164s mallocOk e164sA e164sB with
  | error e => rw [hm] at h; cases h
  | ok merged =>
    rw [hm] at h
    cases h
    simp [List.length_take]

/-- **What `ratelimit_validate_received_rate_limit_token` accepts**: a request without a token
and without previous e164s, or one whose token is exactly the token computed from its
previous and discarded e164s under the shared secret. -/
theorem ratelimitValidateReceivedRateLimitToken_ok_iff (req : ClientRequest) :
    ratelimitValidateReceivedRateLimitToken sha256 secret mallocOk req = .ok () ↔
      (req.token = [] ∧ req.prevE164s = []) ∨
      (req.token.getD 0 0 = RATELIMIT_VERSION ∧
        ratelimitComputeToken sha256 secret mallocOk req.prevE164s req.discardE164s
          (req.token.take (RATELIMIT_VERSION_SIZE + RATELIMIT_ENTROPY_SIZE)) = .ok req.token) := by
  unfold ratelimitValidateReceivedRateLimitToken
  by_cases h0 : req.token.length = 0
  · -- no token: accepted exactly when there are no previous e164s
    have ht : req.token = [] := List.eq_nil_of_length_eq_zero h0
    rw [if_pos h0]
    by_cases hp : req.prevE164s.length > 0
    · have : req.prevE164s ≠ [] := List.ne_nil_of_length_pos hp
      simp [hp, this, ht, RATELIMIT_VERSION]
    · simp [List.eq_nil_of_length_eq_zero (Nat.eq_zero_of_not_pos hp), ht]
  · have hne : req.token ≠ [] := fun h => h0 (by simp [h])
    rw [if_neg h0]
    simp only [hne, false_and, false_or]
    by_cases hlen : req.token.length ≠ RATELIMIT_TOKEN_SIZE
    · -- a computed token is 65 bytes long, so a token of any other length is not one
      rw [if_pos hlen]
      simp only [reduceCtorEq, false_iff, not_and]
      intro _ hc
      have := ratelimitComputeToken_length sha256 secret mallocOk hc
      simp only [RATELIMIT_TOKEN_SIZE_eq, RATELIMIT_TOKEN_HEAD_eq, List.length_take] at this hlen
      omega
    · rw [if_neg hlen]
      rw [not_not, RATELIMIT_TOKEN_SIZE_eq] at hlen
      by_cases hv : req.token.getD 0 0 ≠ RATELIMIT_VERSION
      · rw [if_pos hv]
        simp only [reduceCtorEq, false_iff, not_and]
        exact fun h => absurd h hv
      · rw [if_neg hv, not_not.1 hv]
        simp only [true_and]
        cases hc : ratelimitComputeToken sha256 secret mallocOk req.prevE164s req.discardE164s
          (req.token.take (RATELIMIT_VERSION_SIZE + RATELIMIT_ENTROPY_SIZE)) with
        | error e => simp [bind, Except.bind]
        | ok t =>
          -- both buffers are 65 bytes, and the comparison is then equality
          have htl := ratelimitComputeToken_length sha256 secret mallocOk hc
          simp only [RATELIMIT_TOKEN_HEAD_eq, List.length_take, hlen] at htl
          have ht : t.length = RATELIMIT_TOKEN_SIZE := by rw [htl]; rfl
          simp only [bind, Except.bind, Except.ok.injEq]
          rw [← ratelimitConstantTimeEqual_iff ht (by rw [hlen]; rfl)]
          cases ratelimitConstantTimeEqual t req.token RATELIMIT_TOKEN_SIZE <;> simp

/-- **Tokens depend only on the multiset of e164s.** `ratelimit_merge_e164s` returns the words
of two whole-word buffers in ascending order, `a.size + b.size` bytes of them; so, whatever
SHA-256 is, two pairs of buffers whose words are rearrangements of each other get the same token
for every version and entropy prefix. -/
theorem ratelimitComputeToken_perm_invariant :
    (∀ a b : List UInt8, a.length % 8 = 0 → b.length % 8 = 0 →
      ratelimitMergeE164s mallocOk a b =
        (if mallocOk then
          .ok (bytesOfU64s ((u64sOfBytes a ++ u64sOfBytes b).mergeSort (fun x y => decide (x ≤ y))))
        else .error .OOM) ∧
      (bytesOfU64s ((u64sOfBytes a ++ u64sOfBytes b).mergeSort (fun x y => decide (x ≤ y)))).length =
        a.length + b.length) ∧
    ∀ a b a' b' token : List UInt8, a.length % 8 = 0 → b.length % 8 = 0 → a'.length % 8 = 0 →
      b'.length % 8 = 0 → (u64sOfBytes a ++ u64sOfBytes b).Perm (u64sOfBytes a' ++ u64sOfBytes b') →
      ratelimitComputeToken sha256 secret mallocOk a b token =
        ratelimitComputeToken sha256 secret mallocOk a' b' token := by
  refine ⟨fun a b ha hb => ratelimitMergeE164s_eq mallocOk ha hb, ?_⟩
  intro a b a' b' token ha hb ha' hb' hperm
  -- rearranged words sort to the same list
  have hsort : (u64sOfBytes a ++ u64sOfBytes b).mergeSort (fun x y => decide (x ≤ y)) =
      (u64sOfBytes a' ++ u64sOfBytes b').mergeSort (fun x y => decide (x ≤ y)) :=
    List.Perm.eq_of_sortedLE List.sortedLE_mergeSort List.sortedLE_mergeSort
      (((List.mergeSort_perm _ _).trans hperm).trans (List.mergeSort_perm _ _).symm)
  unfold ratelimitComputeToken
  rw [(ratelimitMergeE164s_eq mallocOk ha hb).1, (ratelimitMergeE164s_eq mallocOk ha' hb').1, hsort]

/-- A stand-in for SHA-256 that depends on the order of its input bytes. -/
def orderedHash (bs : List UInt8) : Vector UInt8 32 :=
  Vector.replicate 32 (bs.foldl (fun h x => h * 31 + x) 0)

theorem ratelimitComputeToken_perm_invariant_swap :
    ratelimitComputeToken orderedHash [7] true [3, 0, 0, 0, 0, 0, 0, 0, 1, 0, 0, 0, 0, 0, 0, 0]
        [2, 0, 0, 0, 0, 0, 0, 0] [1, 9] =
      ratelimitComputeToken orderedHash [7] true [2, 0, 0, 0, 0, 0, 0, 0]
        [1, 0, 0, 0, 0, 0, 0, 0, 3, 0, 0, 0, 0, 0, 0, 0] [1, 9] :=
  (ratelimitComputeToken_perm_invariant orderedHash [7] true).2 _ _ _ _ _ (by decide) (by decide)
    (by decide) (by decide) (by decide)

end Token

end ContactDiscovery
