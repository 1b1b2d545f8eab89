import Mathlib
import ContactDiscovery.Ohtable
import ContactDiscovery.Lib.Fold

/-!
# The sharded table (`sharded_ohtable/shard.c`, `sharded_ohtable/sharded_ohtable.c`)

The key space is cut into `num_shards` ranges `[lb, ub)` of the keyed hash of a key
(`sharded_ohtable_khash`, `halfsiphash` under the table's `hash_key`: a library outside the
repository, so a parameter `khash` here). Each shard owns an `ohtable` holding an all-zero
record, put at creation.

* `shardHandleInsert`, `shardHandleQuery` — `shard_handle_request`: `ohtable_put` of the
  request's records at stride `record_size_qwords`, or `ohtable_get` of its keys into the
  response buffer at the same stride; a record read or written past the end of its buffer is
  undefined behaviour (`none`);
* `batchQueries` — lay the queries out per shard (`1` word per query, `7` per inserted record,
  `7` per response: the constants `REQUEST_*_BYTES`, `RESPONSE_QUERY_BYTES`), padded with zero
  records to the largest shard's count, and run every shard's request;
* `shardedOhtablePutBatch`, `shardedOhtableGetBatch` — the two batch calls; the results of a
  lookup are the responses whose first word is not `UINT64_MAX`, then `0xFF` words.

The shards run in their own threads; `batch_queries` waits for every request, so a batch is
modelled as the shards' requests run one after another. Every ORAM access draws fresh entropy,
so every call is given a segment of the draws of its own (`drawsAt`): shard `sh` of a batch
reads segment `sh`, and its `i`-th `ohtable` call segment `i` of that; `shard_create`'s three
calls read segments `0`, `1` and `2`.
-/

set_option autoImplicit false

namespace ContactDiscovery

/-- The entropy words of call `i` of a sequence of calls that draw from `draws`: the words
`draws (Nat.pair i k)`, a segment of `draws` that no other call of the sequence reads. -/
def drawsAt (draws : ℕ → UInt64) (i : ℕ) : ℕ → UInt64 := fun k => draws (Nat.pair i k)

/-! ## Shards -/

/-- `shard` (without its request queue and its thread flag). -/
structure Shard where
  lb : UInt64
  ub : UInt64
  recordSizeQwords : UInt64
  table : Ohtable

/-- `shard_contains`: `lb <= key < ub`. -/
def shardContains (shard : Shard) (key : UInt64) : Bool := decide (shard.lb ≤ key) && decide (key < shard.ub)

/-- `shard_add_zero_record`: `ohtable_put` of an all-zero record (its result is ignored). -/
def shardAddZeroRecord (shard : Shard) (draws : ℕ → UInt64) : Option Shard :=
  (ohtablePut shard.table (List.replicate shard.recordSizeQwords.toNat 0) draws).map fun (table, _) =>
    { shard with table }

/-- `_create(table, lb, ub, record_size_qwords)`: a shard with its zero record. -/
def Shard.create (table : Ohtable) (lb ub recordSizeQwords : UInt64) (draws : ℕ → UInt64) :
    Option Shard :=
  shardAddZeroRecord ⟨lb, ub, recordSizeQwords, table⟩ draws

/-- `shard_create`: `ohtable_create`, `_create`, and a second `shard_add_zero_record`. -/
def shardCreate (lb ub recordSizeQwords recordCapacity stashOverflowSize : UInt64)
    (draws : ℕ → UInt64) : Option Shard :=
  (ohtableCreate recordCapacity recordSizeQwords stashOverflowSize (drawsAt draws 0)).bind fun table =>
    (Shard.create table lb ub recordSizeQwords (drawsAt draws 1)).bind fun shard =>
      shardAddZeroRecord shard (drawsAt draws 2)

/-- The `n` words of `buf` from `off`, or `none` past its end. -/
def readWords (buf : List UInt64) (off n : ℕ) : Option (List UInt64) :=
  if off + n ≤ buf.length then some ((buf.drop off).take n) else none

/-- `buf` with the words `ws` written from `off`, or `none` past its end. -/
def writeWords (buf : List UInt64) (off : ℕ) (ws : List UInt64) : Option (List UInt64) :=
  if off + ws.length ≤ buf.length then some (buf.take off ++ ws ++ buf.drop (off + ws.length))
  else none

/-- `shard_handle_request` for an insert: `ohtable_put` of record `request + record_size * i`
for `i < batch_size`, stopping at the first error. -/
def shardHandleInsert (shard : Shard) (request : List UInt64) (batchSize : ℕ)
    (draws : ℕ → UInt64) : Option (Shard × Except ErrorT Unit) :=
  (List.range batchSize).foldlM
    (fun (acc : Shard × Except ErrorT Unit) i =>
      match acc with
      | (shard, .error e) => some (shard, .error e)
      | (shard, .ok ()) =>
        let size := shard.recordSizeQwords.toNat
        (readWords request (size * i) size).bind fun record =>
          (ohtablePut shard.table record (drawsAt draws i)).map fun (table, err) =>
            ({ shard with table }, err))
    (shard, .ok ())

/-- `shard_handle_request` for a query: `ohtable_get` of key `request[i]` into the response
buffer at `respBase + record_size * i`, for `i < batch_size`, stopping at the first error. -/
def shardHandleQuery (shard : Shard) (request : List UInt64) (responses : List UInt64)
    (respBase batchSize : ℕ) (draws : ℕ → UInt64) :
    Option (Shard × List UInt64 × Except ErrorT Unit) :=
  (List.range batchSize).foldlM
    (fun (acc : Shard × List UInt64 × Except ErrorT Unit) i =>
      match acc with
      | (shard, responses, .error e) => some (shard, responses, .error e)
      | (shard, responses, .ok ()) =>
        let size := shard.recordSizeQwords.toNat
        let off := respBase + size * i
        (readWords responses off size).bind fun before =>
          (ohtableGet shard.table (request.getD i 0) before (drawsAt draws i)).bind fun
            | (table, .error e) => some ({ shard with table }, responses, .error e)
            | (table, .ok record) =>
              (writeWords responses off record).map fun responses =>
                ({ shard with table }, responses, .ok ()))
    (shard, responses, .ok ())

/-! ## The sharded table -/

/-- `sharded_ohtable`; `khash` is `sharded_ohtable_khash`, the keyed hash of a key word. -/
structure ShardedOhtable where
  recordSizeQwords : UInt64
  shards : List Shard
  khash : UInt64 → UInt64

/-- `sharded_ohtable_create`: `num_shards` shards of `1 + record_capacity / num_shards` records
over consecutive ranges of width `UINT64_MAX / num_shards`, the last one ending at `UINT64_MAX`;
`num_shards = 0` traps on the division. -/
def shardedOhtableCreate (recordSizeQwords recordCapacity numShards stashOverflowSize : UInt64)
    (khash : UInt64 → UInt64) (draws : ℕ → UInt64) : Option ShardedOhtable :=
  if numShards = 0 then none
  else
    let stepSize := UINT64_MAX / numShards
    let shardCapacity := 1 + recordCapacity / numShards
    ((List.range numShards.toNat).mapM fun i =>
      let lb := UInt64.ofNat i * stepSize
      let ub := if UInt64.ofNat i = numShards - 1 then UINT64_MAX else (UInt64.ofNat i + 1) * stepSize
      shardCreate lb ub recordSizeQwords shardCapacity stashOverflowSize (drawsAt draws i)).map
        fun shards => ⟨recordSizeQwords, shards, khash⟩

/-- `shard_request_type`, the two kinds a batch sends. -/
inductive ShardRequestType where
  | query
  | insert
  deriving DecidableEq, Repr

/-- `REQUEST_QUERY_BYTES`. -/
def REQUEST_QUERY_BYTES : ℕ := 8
/-- `REQUEST_INSERT_BYTES`. -/
def REQUEST_INSERT_BYTES : ℕ := 56
/-- `RESPONSE_QUERY_BYTES`. -/
def RESPONSE_QUERY_BYTES : ℕ := 56
/-- `RESPONSE_INSERT_BYTES`. -/
def RESPONSE_INSERT_BYTES : ℕ := 0

/-- The sizes, in words, of a query and of a response of a request type. -/
def ShardRequestType.sizesU64 : ShardRequestType → ℕ × ℕ
  | .query => (REQUEST_QUERY_BYTES / 8, RESPONSE_QUERY_BYTES / 8)
  | .insert => (REQUEST_INSERT_BYTES / 8, RESPONSE_INSERT_BYTES / 8)

/-- Which shards take query `i`: `shard_contains(shards[sh], khash(&queries[i * query_size]))`,
evaluated alike in both passes of `batch_queries`. -/
def shardRouting (t : ShardedOhtable) (queries : List UInt64) (querySizeU64 : ℕ) (i sh : ℕ) : Bool :=
  match t.shards[sh]? with
  | some shard => shardContains shard (t.khash (queries.getD (i * querySizeU64) 0))
  | none => false

/-- `shard_batched_queries` after the shards have run their requests. -/
structure ShardBatchedQueries where
  batchSize : ℕ
  queries : List UInt64
  responses : List UInt64
  counters : ℕ → ℕ
  errors : ℕ → Except ErrorT Unit

/-- The first pass of `batch_queries`: each shard's count of queries. -/
def batchSizes (route : ℕ → ℕ → Bool) (numShards numQueries : ℕ) : ℕ → ℕ :=
  (List.range numQueries).foldl
    (fun sizes i => (List.range numShards).foldl
      (fun sizes sh => Function.update sizes sh (sizes sh + if route i sh then 1 else 0)) sizes)
    fun _ => 0

/-- The second pass of `batch_queries`: query `i` is copied to slot
`sh * batch_size + counters[sh]` of every shard that takes it (a conditional copy, which leaves
the slot as it is otherwise). -/
def layOutQueries (route : ℕ → ℕ → Bool) (numShards numQueries batchSize querySizeU64 : ℕ)
    (queries : List UInt64) (laid : List UInt64) : List UInt64 × (ℕ → ℕ) :=
  (List.range numQueries).foldl
    (fun (acc : List UInt64 × (ℕ → ℕ)) i =>
      let origQuery := (queries.drop (i * querySizeU64)).take querySizeU64
      (List.range numShards).foldl
        (fun (acc : List UInt64 × (ℕ → ℕ)) sh =>
          let (laid, counters) := acc
          let newQueryIdx := sh * batchSize + counters sh
          let contained := route i sh
          let laid := if contained then
              laid.take (newQueryIdx * querySizeU64) ++ origQuery ++
                laid.drop ((newQueryIdx + 1) * querySizeU64)
            else laid
          (laid, Function.update counters sh (counters sh + if contained then 1 else 0)))
        acc)
    (laid, fun _ => 0)

/-- `batch_queries(table, num_queries, queries, type)` with the routing `route`; the shards' new
states and the batch. -/
def batchQueriesWith (t : ShardedOhtable) (route : ℕ → ℕ → Bool) (numQueries : ℕ)
    (queries : List UInt64) (type : ShardRequestType) (draws : ℕ → UInt64) :
    Option (ShardedOhtable × ShardBatchedQueries) :=
  let (querySizeU64, responseSizeU64) := type.sizesU64
  let numShards := t.shards.length
  let sizes := batchSizes route numShards numQueries
  let batchSize := (List.range numShards).foldl (fun m sh => max m (sizes sh)) 0
  let totalQueries := numShards * batchSize
  let responses := List.replicate (totalQueries * responseSizeU64) 0
  -- one spare query record: a query after a full last shard writes there
  let (laid, counters) := layOutQueries route numShards numQueries batchSize querySizeU64 queries
    (List.replicate ((totalQueries + 1) * querySizeU64) 0)
  let run := (List.range numShards).foldlM
    (fun (acc : List Shard × List UInt64 × (ℕ → Except ErrorT Unit)) sh =>
      let (shards, responses, errors) := acc
      match shards[sh]? with
      | none => none
      | some shard =>
        let idx := batchSize * sh
        let request := laid.drop (idx * querySizeU64)
        match type with
        | .insert =>
          (shardHandleInsert shard request batchSize (drawsAt draws sh)).map fun (shard, err) =>
            (shards.set sh shard, responses, Function.update errors sh err)
        | .query =>
          (shardHandleQuery shard request responses (idx * responseSizeU64) batchSize
              (drawsAt draws sh)).map
            fun (shard, responses, err) => (shards.set sh shard, responses, Function.update errors sh err))
    (t.shards, responses, fun _ => .ok ())
  run.map fun (shards, responses, errors) =>
    ({ t with shards }, ⟨batchSize, laid, responses, counters, errors⟩)

/-- `batch_queries`. -/
def batchQueries (t : ShardedOhtable) (numQueries : ℕ) (queries : List UInt64)
    (type : ShardRequestType) (draws : ℕ → UInt64) : Option (ShardedOhtable × ShardBatchedQueries) :=
  batchQueriesWith t (shardRouting t queries type.sizesU64.1) numQueries queries type draws

/-- The first error among the shards' requests, in shard order. -/
def firstError (errors : ℕ → Except ErrorT Unit) (numShards : ℕ) : Except ErrorT Unit :=
  (List.range numShards).foldl (fun err sh => match err with
    | .error e => .error e
    | .ok () => errors sh) (.ok ())

/-- `sharded_ohtable_put_batch(table, num_inserts, records)`. -/
def shardedOhtablePutBatch (t : ShardedOhtable) (numInserts : ℕ) (records : List UInt64)
    (draws : ℕ → UInt64) : Option (ShardedOhtable × Except ErrorT Unit) :=
  (batchQueries t numInserts records .insert draws).map fun (t, b) =>
    (t, firstError b.errors t.shards.length)

/-- The result loop of `sharded_ohtable_get_batch` over shard `sh`'s first `counters[sh]`
responses: those whose first word is not `UINT64_MAX` are copied to the results in order. -/
def collectResponses (b : ShardBatchedQueries) (sh : ℕ) (acc : List UInt64 × ℕ) : List UInt64 × ℕ :=
  let responseSizeU64 := RESPONSE_QUERY_BYTES / 8
  (List.range (b.counters sh)).foldl
    (fun (acc : List UInt64 × ℕ) i =>
      let (results, idx) := acc
      let responseI := (b.responses.drop ((b.batchSize * sh + i) * responseSizeU64)).take responseSizeU64
      if responseI.getD 0 0 ≠ UINT64_MAX then
        (results.take (idx * responseSizeU64) ++ responseI ++
          results.drop ((idx + 1) * responseSizeU64), idx + 1)
      else (results, idx))
    acc

/-- `sharded_ohtable_get_batch(table, num_queries, keys, results)`: the results buffer is
`0xFF` words, then the found responses of each shard in turn, stopping at a shard whose
request failed. -/
def shardedOhtableGetBatch (t : ShardedOhtable) (numQueries : ℕ) (keys : List UInt64)
    (draws : ℕ → UInt64) : Option (ShardedOhtable × List UInt64 × Except ErrorT Unit) :=
  (batchQueries t numQueries keys .query draws).map fun (t, b) =>
    let results := List.replicate (RESPONSE_QUERY_BYTES / 8 * numQueries) UINT64_MAX
    let (results, _, err) := (List.range t.shards.length).foldl
      (fun (acc : List UInt64 × ℕ × Except ErrorT Unit) sh =>
        let (results, idx, err) := acc
        match err with
        | .error e => (results, idx, .error e)
        | .ok () =>
          match b.errors sh with
          | .error e => (results, idx, .error e)
          | .ok () =>
            let (results, idx) := collectResponses b sh (results, idx)
            (results, idx, .ok ()))
      (results, 0, .ok ())
    (t, results, err)

/-! ## Routing and the hash -/

section Routing

variable {route route' : ℕ → ℕ → Bool} {numQueries numShards : ℕ}

/-- Two routings agree on the queries and the shards of a batch. -/
def RoutingAgrees (route route' : ℕ → ℕ → Bool) (numQueries numShards : ℕ) : Prop :=
  ∀ i < numQueries, ∀ sh < numShards, route i sh = route' i sh

theorem batchSizes_congr (h : RoutingAgrees route route' numQueries numShards) :
    batchSizes route numShards numQueries = batchSizes route' numShards numQueries := by
  unfold batchSizes
  refine List.foldl_ext _ _ _ fun sizes i hi => List.foldl_ext _ _ _ fun sizes sh hsh => ?_
  rw [h i (List.mem_range.1 hi) sh (List.mem_range.1 hsh)]

theorem layOutQueries_congr (h : RoutingAgrees route route' numQueries numShards)
    (batchSize querySizeU64 : ℕ) (queries laid : List UInt64) :
    layOutQueries route numShards numQueries batchSize querySizeU64 queries laid =
      layOutQueries route' numShards numQueries batchSize querySizeU64 queries laid := by
  unfold layOutQueries
  refine List.foldl_ext _ _ _ fun acc i hi => List.foldl_ext _ _ _ fun acc sh hsh => ?_
  rw [h i (List.mem_range.1 hi) sh (List.mem_range.1 hsh)]

/-- A batch depends on the routing only on its own queries and shards. -/
theorem batchQueriesWith_congr (t : ShardedOhtable)
    (h : RoutingAgrees route route' numQueries t.shards.length) (queries : List UInt64)
    (type : ShardRequestType) (draws : ℕ → UInt64) :
    batchQueriesWith t route numQueries queries type draws =
      batchQueriesWith t route' numQueries queries type draws := by
  simp only [batchQueriesWith, batchSizes_congr h, layOutQueries_congr h]

/-- A batch reads the hash only through the routing. -/
theorem batchQueriesWith_khash (t : ShardedOhtable) (k : UInt64 → UInt64) (queries : List UInt64)
    (type : ShardRequestType) (draws : ℕ → UInt64) :
    batchQueriesWith { t with khash := k } route numQueries queries type draws =
      (batchQueriesWith t route numQueries queries type draws).map fun p =>
        ({ p.1 with khash := k }, p.2) := by
  simp only [batchQueriesWith, Option.map_map]
  rfl

end Routing

/-- The shards of a new table do not depend on its hash. -/
theorem shardedOhtableCreate_khash (recordSizeQwords recordCapacity numShards stashOverflowSize : UInt64)
    (k k' : UInt64 → UInt64) (draws : ℕ → UInt64) :
    shardedOhtableCreate recordSizeQwords recordCapacity numShards stashOverflowSize k draws =
      (shardedOhtableCreate recordSizeQwords recordCapacity numShards stashOverflowSize k' draws).map
        fun t => { t with khash := k } := by
  unfold shardedOhtableCreate
  split
  · rfl
  · rw [Option.map_map]
    rfl

/-- An insert batch under another hash that routes its records alike. -/
theorem shardedOhtablePutBatch_khash (t : ShardedOhtable) (k : UInt64 → UInt64) {n : ℕ}
    {records : List UInt64} (draws : ℕ → UInt64)
    (h : RoutingAgrees (shardRouting { t with khash := k } records 7) (shardRouting t records 7) n
      t.shards.length) :
    shardedOhtablePutBatch { t with khash := k } n records draws =
      (shardedOhtablePutBatch t n records draws).map fun p => ({ p.1 with khash := k }, p.2) := by
  have hsize : ShardRequestType.insert.sizesU64.1 = 7 := rfl
  unfold shardedOhtablePutBatch batchQueries
  rw [hsize, batchQueriesWith_congr { t with khash := k } h, batchQueriesWith_khash, Option.map_map, Option.map_map]
  rfl

/-- A new table keeps the hash it is given. -/
theorem shardedOhtableCreate_khash_eq {recordSizeQwords recordCapacity numShards stashOverflowSize : UInt64}
    {k : UInt64 → UInt64} {draws : ℕ → UInt64} {t : ShardedOhtable}
    (ht : shardedOhtableCreate recordSizeQwords recordCapacity numShards stashOverflowSize k draws = some t) :
    t.khash = k := by
  unfold shardedOhtableCreate at ht
  split at ht
  · cases ht
  · obtain ⟨shards, -, rfl⟩ := Option.map_eq_some_iff.1 ht
    rfl

/-! ## Shard ranges -/

/-- Consecutive ranges `[b i, b (i + 1))` of a monotone `b` cover `[b 0, b N)` once. -/
theorem countP_consecutive {b : ℕ → ℕ} (hb : Monotone b) (x : ℕ) :
    ∀ N, (List.range N).countP (fun i => decide (b i ≤ x ∧ x < b (i + 1))) =
      if b 0 ≤ x ∧ x < b N then 1 else 0
  | 0 => by simp
  | N + 1 => by
    rw [List.range_succ, List.countP_append, countP_consecutive hb x N]
    have h0N : b 0 ≤ b N := hb (Nat.zero_le N)
    have hN : b N ≤ b (N + 1) := hb (Nat.le_succ N)
    by_cases hx : x < b N
    · simp [hx, Nat.not_le.2 hx, lt_of_lt_of_le hx hN]
    · simp [hx, Nat.le_of_not_lt hx, le_trans h0N (Nat.le_of_not_lt hx)]

theorem shardAddZeroRecord_bounds {shard shard' : Shard} {draws : ℕ → UInt64}
    (h : shardAddZeroRecord shard draws = some shard') : shard'.lb = shard.lb ∧ shard'.ub = shard.ub := by
  unfold shardAddZeroRecord at h
  obtain ⟨_, -, rfl⟩ := Option.map_eq_some_iff.1 h
  exact ⟨rfl, rfl⟩

/-- A created shard keeps the range it was given. -/
theorem shardCreate_bounds {lb ub rs cap so : UInt64} {draws : ℕ → UInt64} {shard : Shard}
    (h : shardCreate lb ub rs cap so draws = some shard) : shard.lb = lb ∧ shard.ub = ub := by
  unfold shardCreate Shard.create at h
  obtain ⟨table, -, h⟩ := Option.bind_eq_some_iff.1 h
  obtain ⟨shard₁, h₁, h₂⟩ := Option.bind_eq_some_iff.1 h
  obtain ⟨hl₁, hu₁⟩ := shardAddZeroRecord_bounds h₁
  obtain ⟨hl₂, hu₂⟩ := shardAddZeroRecord_bounds h₂
  exact ⟨hl₂.trans hl₁, hu₂.trans hu₁⟩

section Ranges

variable {n : UInt64}

/-- At most `num_shards` steps of `UINT64_MAX / num_shards` fit in 64 bits. -/
theorem mul_stepSize_lt {i : ℕ} (hi : i ≤ n.toNat) :
    i * (UINT64_MAX.toNat / n.toNat) < 2 ^ 64 := by
  calc i * (UINT64_MAX.toNat / n.toNat) ≤ n.toNat * (UINT64_MAX.toNat / n.toNat) :=
        Nat.mul_le_mul_right _ hi
    _ ≤ UINT64_MAX.toNat := Nat.mul_div_le _ _
    _ < 2 ^ 64 := by simp

theorem ofNat_toNat_of_lt {i : ℕ} (hi : i ≤ n.toNat) : (UInt64.ofNat i).toNat = i :=
  UInt64.toNat_ofNat_of_lt' (Nat.lt_of_le_of_lt hi n.toNat_lt)

/-- Shard `i`'s bounds, `i * step_size` and (but for the last) `(i + 1) * step_size`, do not
wrap. -/
theorem shard_lb_toNat {i : ℕ} (hi : i < n.toNat) :
    (UInt64.ofNat i * (UINT64_MAX / n)).toNat = i * (UINT64_MAX.toNat / n.toNat) := by
  rw [UInt64.toNat_mul, UInt64.toNat_div, ofNat_toNat_of_lt hi.le]
  exact Nat.mod_eq_of_lt (mul_stepSize_lt hi.le)

theorem shard_ub_toNat (hn : n ≠ 0) {i : ℕ} (hi : i < n.toNat) :
    (if UInt64.ofNat i = n - 1 then UINT64_MAX else (UInt64.ofNat i + 1) * (UINT64_MAX / n)).toNat =
      if i + 1 < n.toNat then (i + 1) * (UINT64_MAX.toNat / n.toNat) else UINT64_MAX.toNat := by
  have hone : 1 ≤ n := by
    rw [UInt64.le_iff_toNat_le, UInt64.toNat_one, Nat.one_le_iff_ne_zero, Ne, ← UInt64.toNat_zero,
      UInt64.toNat_inj]
    exact hn
  have hlast : UInt64.ofNat i = n - 1 ↔ ¬ i + 1 < n.toNat := by
    rw [← UInt64.toNat_inj, ofNat_toNat_of_lt hi.le, UInt64.toNat_sub_of_le _ _ hone,
      UInt64.toNat_one]
    omega
  by_cases hl : i + 1 < n.toNat
  · have hsucc : (UInt64.ofNat i + 1).toNat = i + 1 := by
      rw [UInt64.toNat_add, ofNat_toNat_of_lt hi.le, UInt64.toNat_one]
      exact Nat.mod_eq_of_lt (by have := n.toNat_lt; omega)
    rw [if_neg (mt hlast.1 (not_not.2 hl)), if_pos hl, UInt64.toNat_mul, UInt64.toNat_div, hsucc]
    exact Nat.mod_eq_of_lt (mul_stepSize_lt hl.le)
  · rw [if_pos (hlast.2 hl), if_neg hl]

/-- **No shard holds `UINT64_MAX`.** In every table `sharded_ohtable_create` builds, each key
other than `UINT64_MAX` lies in exactly one shard, and `UINT64_MAX` in none: the last range ends
at `UINT64_MAX`, which `shard_contains` excludes. -/
theorem shardedOhtableCreate_shardContains_count {rs cap n so : UInt64} {khash : UInt64 → UInt64}
    {draws : ℕ → UInt64} {t : ShardedOhtable} (h : shardedOhtableCreate rs cap n so khash draws = some t)
    (k : UInt64) :
    t.shards.countP (fun shard => shardContains shard k) = if k = UINT64_MAX then 0 else 1 := by
  unfold shardedOhtableCreate at h
  by_cases hn : n = 0
  · rw [if_pos hn] at h
    cases h
  rw [if_neg hn] at h
  obtain ⟨shards, hmap, rfl⟩ := Option.map_eq_some_iff.1 h
  -- shard `i` is `[b i, b (i + 1))` for the consecutive bounds `b`
  let S := UINT64_MAX.toNat / n.toNat
  let b : ℕ → ℕ := fun i => if i < n.toNat then i * S else UINT64_MAX.toNat
  have hmono : Monotone b := by
    intro i j hij
    simp only [b]
    split_ifs with hi hj hj
    · exact Nat.mul_le_mul_right _ hij
    · exact Nat.le_of_lt_succ (mul_stepSize_lt hi.le)
    · omega
    · exact le_rfl
  have hpos : 0 < n.toNat := by
    rw [Nat.pos_iff_ne_zero, Ne, ← UInt64.toNat_zero, UInt64.toNat_inj]
    exact hn
  rw [Fold.countP_of_forall₂ (q := fun i => decide (b i ≤ k.toNat ∧ k.toNat < b (i + 1))) ?_
    (Fold.mapM_option_forall₂ hmap), countP_consecutive hmono]
  · -- the bounds run from `0` to `UINT64_MAX`, which is itself in no range
    have h0 : b 0 = 0 := by simp [b, hpos]
    have hN : b n.toNat = UINT64_MAX.toNat := by simp [b]
    rw [h0, hN]
    by_cases hk : k = UINT64_MAX
    · simp [hk]
    · have hlt : k.toNat < UINT64_MAX.toNat := by
        have hne : k.toNat ≠ UINT64_MAX.toNat := fun h => hk (UInt64.toNat_inj.1 h)
        have := k.toNat_lt
        rw [UINT64_MAX_toNat] at hne ⊢
        omega
      rw [if_neg hk, if_pos ⟨Nat.zero_le _, hlt⟩]
  · intro i hi shard hshard
    obtain ⟨hlb, hub⟩ := shardCreate_bounds hshard
    rw [List.mem_range] at hi
    simp only [shardContains, hlb, hub, UInt64.le_iff_toNat_le, UInt64.lt_iff_toNat_lt,
      shard_lb_toNat hi, shard_ub_toNat hn hi, b, if_pos hi, Bool.decide_and]
    rfl

end Ranges

theorem shardedOhtableCreate_shardContains_count_max :
    ∃ t, shardedOhtableCreate 7 48 2 0 id (fun _ => 0) = some t ∧
      t.shards.countP (fun shard => shardContains shard UINT64_MAX) = 0 := by
  have hs : (shardedOhtableCreate 7 48 2 0 id fun _ => 0).isSome := by decide +kernel
  obtain ⟨t, ht⟩ := Option.isSome_iff_exists.1 hs
  exact ⟨t, ht, shardedOhtableCreate_shardContains_count ht UINT64_MAX⟩
/-- A shard over `[0, UINT64_MAX)` takes every hash but `UINT64_MAX`. -/
theorem shardContains_of_full {shard : Shard} (hlb : shard.lb = 0) (hub : shard.ub = UINT64_MAX)
    (x : UInt64) : shardContains shard x = decide (x ≠ UINT64_MAX) := by
  have hx := UInt64.toNat_lt x
  have hlt : x < UINT64_MAX ↔ x ≠ UINT64_MAX := by
    rw [UInt64.lt_iff_toNat_lt, Ne, ← UInt64.toNat_inj, UINT64_MAX_toNat]
    omega
  simp [shardContains, hlb, hub, hlt]

/-- `batch_queries` lays inserted records out `56` bytes apart and `shard_handle_request` reads
them `record_size_qwords` words apart: with records of `8` words, the second record of a batch
is stored as the last `7` words of the first one's slot, shifted, and zero padding. -/
theorem shardedOhtablePutBatch_misaligns_records (khash : UInt64 → UInt64)
    (h1 : khash 1 ≠ UINT64_MAX) (h8 : khash 8 ≠ UINT64_MAX) :
    ((shardedOhtableCreate 8 40 1 0 khash fun _ => 0).bind fun t =>
      (shardedOhtablePutBatch t 2 ((List.range 16).map fun i => UInt64.ofNat (i + 1)) fun _ => 0).bind
        fun (t, err) => t.shards.head?.bind fun shard =>
          (ohtableGet shard.table 9 (List.replicate 8 0) fun _ => 0).map fun (_, record) => (err, record)) =
      some (.ok (), .ok [9, 10, 11, 12, 13, 14, 0, 0]) := by
  -- the same run under the identity hash, evaluated
  have hrun : ((shardedOhtableCreate 8 40 1 0 id fun _ => 0).bind fun t =>
      (shardedOhtablePutBatch t 2 ((List.range 16).map fun i => UInt64.ofNat (i + 1)) fun _ => 0).bind
        fun (t, err) => t.shards.head?.bind fun shard =>
          (ohtableGet shard.table 9 (List.replicate 8 0) fun _ => 0).map fun (_, record) => (err, record)) =
      some (.ok (), .ok [9, 10, 11, 12, 13, 14, 0, 0]) := by decide +kernel
  have hshape : (shardedOhtableCreate 8 40 1 0 id fun _ => 0).map (fun t => t.shards.map fun s => (s.lb, s.ub)) =
      some [(0, UINT64_MAX)] := by decide +kernel
  rw [shardedOhtableCreate_khash _ _ _ _ khash id, Option.bind_map, ← hrun]
  refine Option.bind_congr fun t ht => ?_
  rw [ht, Option.map_some, Option.some_inj, List.map_eq_singleton_iff] at hshape
  obtain ⟨shard, hshards, hbounds⟩ := hshape
  obtain ⟨hlb, hub⟩ := Prod.mk.inj hbounds
  -- both hashes send both records to the one shard
  have hroute : RoutingAgrees (shardRouting { t with khash := khash } ((List.range 16).map fun i =>
      UInt64.ofNat (i + 1)) 7) (shardRouting t ((List.range 16).map fun i => UInt64.ofNat (i + 1)) 7) 2
      t.shards.length := by
    intro i hi sh hsh
    rw [hshards, List.length_singleton, Nat.lt_one_iff] at hsh
    subst hsh
    simp only [shardRouting, hshards, List.getElem?_cons_zero, shardContains_of_full hlb hub,
      shardedOhtableCreate_khash_eq ht, id]
    interval_cases i
    · simpa [UINT64_MAX] using h1
    · simpa [UINT64_MAX] using h8
  rw [Function.comp_apply, shardedOhtablePutBatch_khash t khash _ hroute, Option.bind_map]
  rfl

theorem shardedOhtablePutBatch_misaligns_records_id_hash :
    ((shardedOhtableCreate 8 40 1 0 id fun _ => 0).bind fun t =>
      (shardedOhtablePutBatch t 2 ((List.range 16).map fun i => UInt64.ofNat (i + 1)) fun _ => 0).bind
        fun (t, err) => t.shards.head?.bind fun shard =>
          (ohtableGet shard.table 9 (List.replicate 8 0) fun _ => 0).map fun (_, record) => (err, record)) =
      some (.ok (), .ok [9, 10, 11, 12, 13, 14, 0, 0]) :=
  shardedOhtablePutBatch_misaligns_records id (by decide) (by decide)

end ContactDiscovery
