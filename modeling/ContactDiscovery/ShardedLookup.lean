import Mathlib
import ContactDiscovery.ShardedOhtable
import ContactDiscovery.OhtableData
import ContactDiscovery.PathOram.Sizing
import ContactDiscovery.AciPniUakHelpers

/-!
# What a batched lookup returns (`sharded_ohtable_get_batch`)

`sharded_ohtable_get_batch` lays every query out in the request of the shard that takes it,
lets each shard run `ohtable_get` of its queries into a zero-filled response buffer, and copies
the responses whose first word is not `UINT64_MAX` to the front of a results buffer of `0xFF`
words. A record of the results is therefore `0xFF` words, a zero response (a query whose scan
window held neither its key nor an empty slot), an empty record of a block, or a record of a
block that a shard's ORAM held, with the key of one of the queries.

This holds of the tables the enclave builds (`ShardedOhtable.WellFormed`): records of seven
words, the size of a response, in every shard and its table, and ORAM blocks of
`BLOCK_DATA_SIZE_QWORDS` words. `sharded_ohtable_create` with seven-word records builds such a
table (`shardedOhtableCreate_wellFormed`), and `sharded_ohtable_put_batch` and
`sharded_ohtable_get_batch` keep it so (`shardedOhtablePutBatch_wellFormed`,
`shardedOhtableGetBatch_sound`), and batches change only the shards' tables, never their
ranges (`batchQueriesWith_ranges`): every table of a run is well formed and keeps the ranges of
its creation (`ShardedOhtable.Reachable.invariant`).

* `layOutQueries_laidOut` — slot `c` of shard `sh`'s request, for `c` below the shard's count,
  holds one of the queries, and the counts never pass the batch size;
* `shardHandleQuery_sound` — a shard's loop leaves in each of its response slots a lookup result
  of the query in the same slot (`LookupResult`, from `ohtableGet_dataIn`), and touches no other
  slot;
* `batchQueriesWith_query_sound` — the shards' loop, from `queryRun_inv`;
* `shardedOhtableGetBatch_sound` — every record of the results is not present, or is a record
  the table held (`ShardedOhtable.HoldsRecord`) whose e164 is one of the keys looked up.
* `ShardedOhtable.Reachable.invariant` — every table of a run of create, put and get batches is
  well formed and keeps the ranges `sharded_ohtable_create` gave its shards (`shardRanges`).
-/

set_option autoImplicit false

namespace ContactDiscovery

/-! ## The tables the enclave builds -/

/-- A shard of a table the enclave builds: seven-word records (`signal_user_record`, the size of
a response) in the shard and its table, and ORAM blocks of `BLOCK_DATA_SIZE_QWORDS` words. -/
structure Shard.WellFormed (shard : Shard) : Prop where
  recordSize : shard.recordSizeQwords = 7
  tableRecordSize : shard.table.recordSizeQwords = 7
  blocks : OramDataIn {d | d.length = BLOCK_DATA_SIZE_QWORDS.toNat} shard.table.oram

/-- Every shard is well formed. -/
def ShardedOhtable.WellFormed (T : ShardedOhtable) : Prop := ∀ shard ∈ T.shards, shard.WellFormed

/-- The words a table's ORAMs hold, and the empty block's, in blocks of
`BLOCK_DATA_SIZE_QWORDS` words. -/
def ShardedOhtable.Words (T : ShardedOhtable) : Set (List UInt64) :=
  {d | ((∃ shard ∈ T.shards, shard.table.oram.Holds d) ∨ d = Block.empty.data) ∧
    d.length = BLOCK_DATA_SIZE_QWORDS.toNat}

/-- The seven words of a `signal_user_record`. -/
def SignalUserRecord.toWords (r : SignalUserRecord) : List UInt64 :=
  [r.e164, r.aci0, r.aci1, r.pni0, r.pni1, r.uak0, r.uak1]

/-- A record of the table: record `j` of the words of a block that one of its shards' ORAMs
holds. -/
def ShardedOhtable.HoldsRecord (T : ShardedOhtable) (r : SignalUserRecord) : Prop :=
  ∃ shard ∈ T.shards, ∃ d, shard.table.oram.Holds d ∧
    ∃ j < (BLOCK_DATA_SIZE_QWORDS / shard.table.recordSizeQwords).toNat,
      recordAt d j shard.table.recordSizeQwords.toNat = r.toWords

theorem Shard.WellFormed.words {T : ShardedOhtable} {shard : Shard} (hs : shard ∈ T.shards)
    (hw : shard.WellFormed) : OramDataIn T.Words shard.table.oram :=
  ⟨fun k => ⟨Or.inl ⟨shard, hs, Or.inl ⟨k, rfl⟩⟩, hw.blocks.store k⟩,
    fun k => ⟨Or.inl ⟨shard, hs, Or.inr ⟨k, rfl⟩⟩, hw.blocks.stash k⟩⟩

theorem ShardedOhtable.words_blockSized (T : ShardedOhtable) :
    ∀ d ∈ T.Words, d.length = BLOCK_DATA_SIZE_QWORDS.toNat := fun _ hd => hd.2

theorem ShardedOhtable.empty_mem_words (T : ShardedOhtable) : Block.empty.data ∈ T.Words :=
  ⟨Or.inr rfl, by simp [Block.empty]⟩

/-! ## Building the tables -/

/-- `readWords` reads as many words as it is asked. -/
theorem readWords_length {buf ws : List UInt64} {off n : ℕ} (h : readWords buf off n = some ws) :
    ws.length = n := by
  unfold readWords at h
  split at h
  · cases h
    rw [List.length_take, List.length_drop]
    omega
  · cases h

/-- A put of a record of at least seven words keeps a shard well formed. -/
theorem Shard.WellFormed.put {shard : Shard} (hw : shard.WellFormed) {record : List UInt64}
    (hrec : 7 ≤ record.length) {draws : ℕ → UInt64} {table : Ohtable} {res : Except ErrorT Unit}
    (h : ohtablePut shard.table record draws = some (table, res)) :
    { shard with table }.WellFormed := by
  obtain ⟨hblocks, hrs⟩ :=
    ohtablePut_blockSized hw.blocks (by rw [hw.tableRecordSize]; exact hrec) h
  exact ⟨hw.recordSize, hrs.trans hw.tableRecordSize, hblocks⟩

theorem shardAddZeroRecord_wellFormed {shard shard' : Shard} {draws : ℕ → UInt64}
    (hw : shard.WellFormed) (h : shardAddZeroRecord shard draws = some shard') :
    shard'.WellFormed := by
  unfold shardAddZeroRecord at h
  obtain ⟨⟨table, res⟩, hput, rfl⟩ := Option.map_eq_some_iff.1 h
  exact hw.put (by rw [List.length_replicate, hw.recordSize]; decide) hput

/-- `shard_create` with seven-word records. -/
theorem shardCreate_wellFormed {lb ub cap so : UInt64} {draws : ℕ → UInt64} {shard : Shard}
    (h : shardCreate lb ub 7 cap so draws = some shard) : shard.WellFormed := by
  unfold shardCreate Shard.create at h
  obtain ⟨table, ht, h⟩ := Option.bind_eq_some_iff.1 h
  obtain ⟨shard₁, h₁, h₂⟩ := Option.bind_eq_some_iff.1 h
  obtain ⟨hblocks, hrs⟩ := ohtableCreate_blockSized ht
  have h₀ : Shard.WellFormed ⟨lb, ub, 7, table⟩ := ⟨rfl, hrs, hblocks⟩
  exact shardAddZeroRecord_wellFormed (shardAddZeroRecord_wellFormed h₀ h₁) h₂

/-- **`sharded_ohtable_create` with seven-word records builds a well-formed table.** -/
theorem shardedOhtableCreate_wellFormed {cap n so : UInt64} {khash : UInt64 → UInt64}
    {draws : ℕ → UInt64} {T : ShardedOhtable}
    (h : shardedOhtableCreate 7 cap n so khash draws = some T) : T.WellFormed := by
  unfold shardedOhtableCreate at h
  split at h
  · cases h
  · obtain ⟨shards, hmap, rfl⟩ := Option.map_eq_some_iff.1 h
    intro shard hs
    obtain ⟨i, -, hi⟩ := Fold.mapM_option_mem hmap hs
    exact shardCreate_wellFormed hi

/-- A shard's inserts read records of seven words from its request. -/
theorem shardHandleInsert_wellFormed {shard shard' : Shard} (hw : shard.WellFormed)
    {request : List UInt64} {bs : ℕ} {draws : ℕ → UInt64} {err : Except ErrorT Unit}
    (h : shardHandleInsert shard request bs draws = some (shard', err)) : shard'.WellFormed := by
  refine Fold.foldlM_option_inv (fun acc : Shard × Except ErrorT Unit => acc.1.WellFormed) ?_ hw h
  rintro ⟨s, e⟩ i acc' - hs hstep
  rcases e with e | ⟨⟩
  · cases hstep
    exact hs
  · simp only at hstep
    obtain ⟨record, hread, hstep⟩ := Option.bind_eq_some_iff.1 hstep
    obtain ⟨⟨table, res⟩, hput, rfl⟩ := Option.map_eq_some_iff.1 hstep
    exact hs.put (by rw [readWords_length hread, hs.recordSize]; decide) hput

theorem batchQueriesWith_insert_wellFormed {T T' : ShardedOhtable} (hT : T.WellFormed)
    {route : ℕ → ℕ → Bool} {n : ℕ} {records : List UInt64} {draws : ℕ → UInt64}
    {b : ShardBatchedQueries} (h : batchQueriesWith T route n records .insert draws = some (T', b)) :
    T'.WellFormed := by
  unfold batchQueriesWith at h
  simp only at h
  obtain ⟨⟨shards, responses, errors⟩, hrun, heq⟩ := Option.map_eq_some_iff.1 h
  cases heq
  -- every shard the loop sets is one it read, after its inserts
  refine Fold.foldlM_option_inv (fun acc : List Shard × List UInt64 × (ℕ → Except ErrorT Unit) =>
    ∀ s ∈ acc.1, s.WellFormed) ?_ ?_ hrun
  · rintro ⟨shards, responses, errors⟩ sh acc' - hacc hstep
    dsimp only at hacc hstep
    cases hsh : shards[sh]? with
    | none =>
      rw [hsh] at hstep
      cases hstep
    | some shard =>
      rw [hsh] at hstep
      obtain ⟨⟨shard', e⟩, hins, rfl⟩ := Option.map_eq_some_iff.1 hstep
      intro s hs
      rcases List.mem_or_eq_of_mem_set hs with hs | rfl
      · exact hacc s hs
      · exact shardHandleInsert_wellFormed (hacc shard (List.mem_of_getElem? hsh)) hins
  · exact hT

/-- **`sharded_ohtable_put_batch` keeps a table well formed.** -/
theorem shardedOhtablePutBatch_wellFormed {T T' : ShardedOhtable} (hT : T.WellFormed) {n : ℕ}
    {records : List UInt64} {draws : ℕ → UInt64} {err : Except ErrorT Unit}
    (h : shardedOhtablePutBatch T n records draws = some (T', err)) : T'.WellFormed := by
  unfold shardedOhtablePutBatch batchQueries at h
  obtain ⟨⟨T₁, b⟩, hb, heq⟩ := Option.map_eq_some_iff.1 h
  cases heq
  exact batchQueriesWith_insert_wellFormed hT hb

/-! ## Laying out the queries -/

section Layout

variable {route : ℕ → ℕ → Bool} {numShards : ℕ}

/-- One query's pass over the shards adds one to the count of every shard that takes it. -/
theorem foldl_update_count (i : ℕ) (sizes : ℕ → ℕ) :
    (List.range numShards).foldl
        (fun sizes sh => Function.update sizes sh (sizes sh + if route i sh then 1 else 0)) sizes =
      fun sh => sizes sh + if sh < numShards ∧ route i sh = true then 1 else 0 := by
  refine Fold.foldl_range_inv
    (fun k s => s = fun sh => sizes sh + if sh < k ∧ route i sh = true then 1 else 0)
    (by funext sh; simp) ?_
  rintro k s hk rfl
  funext sh
  by_cases hsh : sh = k
  · subst hsh
    simp
  · rw [Function.update_of_ne hsh]
    have : (sh < k + 1 ↔ sh < k) := by omega
    simp only [this]

theorem batchSizes_succ (n : ℕ) :
    batchSizes route numShards (n + 1) = fun sh =>
      batchSizes route numShards n sh + if sh < numShards ∧ route n sh = true then 1 else 0 := by
  unfold batchSizes
  rw [List.range_succ, List.foldl_append, List.foldl_cons, List.foldl_nil]
  exact foldl_update_count n _

theorem batchSizes_mono {i n : ℕ} (h : i ≤ n) (sh : ℕ) :
    batchSizes route numShards i sh ≤ batchSizes route numShards n sh := by
  induction n, h using Nat.le_induction with
  | base => exact le_rfl
  | succ n _ ih =>
    rw [batchSizes_succ]
    exact ih.trans (Nat.le_add_right _ _)

/-- The batch size, the largest count, bounds every shard's count. -/
theorem le_foldl_max (sizes : ℕ → ℕ) {sh : ℕ} (hsh : sh < numShards) :
    sizes sh ≤ (List.range numShards).foldl (fun m sh => max m (sizes sh)) 0 := by
  refine Fold.foldl_range_inv (fun k m => ∀ s < k, sizes s ≤ m) (fun s hs => absurd hs (by omega))
    ?_ sh hsh
  intro k m _ hm s hs
  rcases Nat.lt_succ_iff_lt_or_eq.1 hs with hs | rfl
  · exact (hm s hs).trans (le_max_left _ _)
  · exact le_max_right _ _

/-- Distinct slots of the laid-out requests are distinct words. -/
theorem slot_ne {bs sh sh' c c' : ℕ} (hc : c < bs) (hc' : c' < bs) (hne : sh ≠ sh' ∨ c ≠ c') :
    sh * bs + c ≠ sh' * bs + c' := by
  intro h
  have hdiv : (sh * bs + c) / bs = (sh' * bs + c') / bs := by rw [h]
  have hbs : 0 < bs := by omega
  rw [Nat.mul_comm sh, Nat.mul_comm sh', Nat.mul_add_div hbs, Nat.mul_add_div hbs,
    Nat.div_eq_of_lt hc, Nat.div_eq_of_lt hc', Nat.add_zero, Nat.add_zero] at hdiv
  subst hdiv
  omega

/-- After the first `i` queries are laid out: every shard's counter is its count of them, the
buffer keeps its length, and each slot of shard `sh` below its counter holds one of them. -/
structure LaidOut (route : ℕ → ℕ → Bool) (numShards i bs len : ℕ) (keys : List UInt64)
    (acc : List UInt64 × (ℕ → ℕ)) : Prop where
  counters : acc.2 = batchSizes route numShards i
  length : acc.1.length = len
  slots : ∀ sh < numShards, ∀ c < acc.2 sh, ∃ j < i, acc.1[sh * bs + c]? = keys[j]?

/-- Midway through laying out query `i`: the shards below `k` that take it have counted it and
hold it in their next slot. -/
structure LaidOutPass (route : ℕ → ℕ → Bool) (numShards i k bs len : ℕ) (keys : List UInt64)
    (acc : List UInt64 × (ℕ → ℕ)) : Prop where
  counters : acc.2 = fun sh => batchSizes route numShards i sh +
    if sh < k ∧ route i sh = true then 1 else 0
  length : acc.1.length = len
  slots : ∀ sh < numShards, ∀ c < acc.2 sh, ∃ j < i + 1, acc.1[sh * bs + c]? = keys[j]?

theorem layOutQueries_laidOut {n bs : ℕ} {keys laid : List UInt64} (hn : n ≤ keys.length)
    (hbs : ∀ sh < numShards, batchSizes route numShards n sh ≤ bs)
    (hlen : numShards * bs < laid.length) :
    LaidOut route numShards n bs laid.length keys (layOutQueries route numShards n bs 1 keys laid) := by
  unfold layOutQueries
  refine Fold.foldl_range_inv (fun i acc => LaidOut route numShards i bs laid.length keys acc)
    ⟨by funext sh; simp [batchSizes], rfl, fun sh _ c hc => absurd hc (by simp)⟩ ?_
  rintro i ⟨laid₀, c₀⟩ hi ⟨hc₀, hl₀, hs₀⟩
  dsimp only at hc₀ hl₀ hs₀
  subst hc₀
  have hik : i < keys.length := by omega
  have hq : (keys.drop (i * 1)).take 1 = [keys[i]] := by
    rw [Nat.mul_one]; exact List.take_one_drop_eq_of_lt_length (by omega)
  rw [hq]
  have hpass : ∀ acc, LaidOutPass route numShards i numShards bs laid.length keys acc →
      LaidOut route numShards (i + 1) bs laid.length keys acc := by
    rintro acc ⟨hc, hl, hs⟩
    refine ⟨?_, hl, hs⟩
    rw [hc, batchSizes_succ]
  apply hpass
  refine Fold.foldl_range_inv (fun k acc => LaidOutPass route numShards i k bs laid.length keys acc)
    ⟨by funext sh; simp, hl₀, fun sh hsh c hc => ?_⟩ ?_
  · obtain ⟨j, hj, hslot⟩ := hs₀ sh hsh c (by simpa using hc)
    exact ⟨j, by omega, hslot⟩
  rintro k ⟨laid₁, c₁⟩ hk ⟨hc₁, hl₁, hs₁⟩
  dsimp only at hc₁ hl₁ hs₁ ⊢
  subst hc₁
  set cur := batchSizes route numShards i with hcur
  have hcount : Function.update (fun sh => cur sh + if sh < k ∧ route i sh = true then 1 else 0) k
      (cur k + (if k < k ∧ route i k = true then 1 else 0) + if route i k = true then 1 else 0) =
      fun sh => cur sh + if sh < k + 1 ∧ route i sh = true then 1 else 0 := by
    funext sh
    by_cases hsh : sh = k
    · subst hsh
      simp
    · rw [Function.update_of_ne hsh]
      have : (sh < k + 1 ↔ sh < k) := by omega
      simp only [this]
  -- every counter stays within the batch size, so slots of distinct shards never meet
  have hbound : ∀ sh < numShards, cur sh + (if sh < k + 1 ∧ route i sh = true then 1 else 0) ≤ bs := by
    intro sh hsh
    calc cur sh + (if sh < k + 1 ∧ route i sh = true then 1 else 0)
        ≤ batchSizes route numShards (i + 1) sh := by
          rw [batchSizes_succ]; split_ifs <;> simp_all
      _ ≤ batchSizes route numShards n sh := batchSizes_mono hi sh
      _ ≤ bs := hbs sh hsh
  beta_reduce
  rw [hcount]
  simp only [lt_irrefl, false_and, if_false, Nat.add_zero, Nat.mul_one]
  cases hr : route i k
  · -- shard `k` does not take query `i`: nothing is written
    refine ⟨rfl, hl₁, fun sh hsh c hc => ?_⟩
    obtain ⟨j, hj, hslot⟩ := hs₁ sh hsh c (by
      by_cases hsk : sh = k
      · subst hsk; simpa [hr] using hc
      · have : (sh < k + 1 ↔ sh < k) := by omega
        simpa [this] using hc)
    exact ⟨j, hj, hslot⟩
  · -- query `i` goes to slot `cur k` of shard `k`
    have hk1 := hbound k hk
    simp only [hr, Nat.lt_succ_self, and_self, if_true] at hk1
    have hidx : k * bs + cur k < laid₁.length := by
      have : (k + 1) * bs ≤ numShards * bs := Nat.mul_le_mul_right bs hk
      rw [Nat.succ_mul] at this
      omega
    have hset : laid₁.take (k * bs + cur k) ++ keys[i] :: laid₁.drop (k * bs + cur k + 1) =
        laid₁.set (k * bs + cur k) keys[i] := by
      rw [List.set_eq_take_append_cons_drop, if_pos hidx]
    rw [if_pos rfl, List.append_assoc, List.singleton_append, hset]
    refine ⟨rfl, by rw [List.length_set, hl₁], fun sh hsh c hc => ?_⟩
    have hcb : c < bs := lt_of_lt_of_le hc (hbound sh hsh)
    by_cases hnew : sh = k ∧ c = cur k
    · obtain ⟨rfl, rfl⟩ := hnew
      exact ⟨i, Nat.lt_succ_self i, by rw [List.getElem?_set_self hidx, List.getElem?_eq_getElem]⟩
    · have hne : k * bs + cur k ≠ sh * bs + c :=
        slot_ne (by omega) hcb (by tauto)
      rw [List.getElem?_set_ne hne]
      refine hs₁ sh hsh c ?_
      by_cases hsk : sh = k
      · subst hsk
        simp only [hr, Nat.lt_succ_self, and_self, if_true] at hc
        simp only [lt_irrefl, false_and, if_false, Nat.add_zero]
        omega
      · have : (sh < k + 1 ↔ sh < k) := by omega
        simpa [this] using hc

end Layout

/-! ## Response slots -/

section Buffers

variable {α : Type} {l c : List α} {w q : ℕ}

theorem take_drop_write (hc : c.length = w) (hq : (q + 1) * w ≤ l.length) (q' : ℕ) :
    ((l.take (q * w) ++ c ++ l.drop (q * w + c.length)).drop (q' * w)).take w =
      if q' = q then c else (l.drop (q' * w)).take w := by
  have hA : (l.take (q * w)).length = q * w := by
    rw [List.length_take]; rw [Nat.succ_mul] at hq; omega
  rcases lt_trichotomy q' q with hlt | rfl | hgt
  · have hle : q' * w + w ≤ q * w := by
      have := Nat.mul_le_mul_right w (Nat.succ_le_of_lt hlt); rwa [Nat.succ_mul] at this
    rw [if_neg hlt.ne, List.append_assoc, List.drop_append_of_le_length (by omega),
      List.take_append_of_le_length (by rw [List.length_drop]; omega), List.drop_take,
      List.take_take, min_eq_left (by omega)]
  · rw [if_pos rfl, List.append_assoc, List.drop_append_of_le_length (le_of_eq hA.symm),
      List.drop_of_length_le (le_of_eq hA), List.nil_append, List.take_append_of_le_length (by omega),
      List.take_of_length_le (by omega)]
  · have hle : q * w + w ≤ q' * w := by
      have := Nat.mul_le_mul_right w (Nat.succ_le_of_lt hgt); rwa [Nat.succ_mul] at this
    have hAc : (l.take (q * w) ++ c).length = q * w + c.length := by simp [hA]
    rw [if_neg hgt.ne', List.drop_append, List.drop_eq_nil_of_le (by omega), List.nil_append, hAc,
      List.drop_drop, hc]
    congr 2
    omega

theorem length_write (hc : c.length = w) (hq : (q + 1) * w ≤ l.length) :
    (l.take (q * w) ++ c ++ l.drop (q * w + c.length)).length = l.length := by
  rw [Nat.succ_mul] at hq
  simp only [List.length_append, List.length_take, List.length_drop]
  omega

end Buffers

/-- Seven-word records fill a block: `BLOCK_DATA_SIZE_QWORDS / 7 = 24` of them. -/
theorem recordsPerBlock_seven : (BLOCK_DATA_SIZE_QWORDS / 7).toNat = 24 := by decide

/-- The zero words of a fresh response slot. -/
def zeroResponse : List UInt64 := List.replicate 7 0

section Query

variable {S : Set (List UInt64)} (hE : Block.empty.data ∈ S)
  (hS : ∀ d ∈ S, d.length = BLOCK_DATA_SIZE_QWORDS.toNat)

include hS in
/-- A lookup into a zero slot leaves seven words there. -/
theorem lookupResult_length {key : UInt64} {r : List UInt64}
    (h : LookupResult S zeroResponse key 7 r) : r.length = 7 := by
  rcases h with rfl | ⟨d, hd, j, hj, rfl, -⟩
  · rfl
  · rw [recordsPerBlock_seven] at hj
    have := hS d hd
    rw [BLOCK_DATA_SIZE_QWORDS_toNat] at this
    simp only [recordAt, List.length_take, List.length_drop, this]
    show min 7 (168 - j * 7) = 7
    omega

include hE hS in
theorem shardHandleQuery_sound {shard : Shard} (hrs : shard.recordSizeQwords = 7)
    (htrs : shard.table.recordSizeQwords = 7) (ho : OramDataIn S shard.table.oram)
    {request responses : List UInt64} {base : ℕ} {draws : ℕ → UInt64} :
    ∀ (bs : ℕ) {shard' : Shard} {responses' : List UInt64} {err : Except ErrorT Unit},
      (base + bs) * 7 ≤ responses.length →
      (∀ c < bs, (responses.drop ((base + c) * 7)).take 7 = zeroResponse) →
      shardHandleQuery shard request responses (base * 7) bs draws = some (shard', responses', err) →
      responses'.length = responses.length ∧
      (∀ q, q < base ∨ base + bs ≤ q →
        (responses'.drop (q * 7)).take 7 = (responses.drop (q * 7)).take 7) ∧
      (∀ c < bs, LookupResult S zeroResponse (request.getD c 0) 7
        ((responses'.drop ((base + c) * 7)).take 7)) ∧
      shard'.recordSizeQwords = 7 ∧ shard'.table.recordSizeQwords = 7 ∧
      OramDataIn S shard'.table.oram
  | 0, shard', responses', err, _, _, h => by
    cases h
    exact ⟨rfl, fun _ _ => rfl, fun c hc => absurd hc (Nat.not_lt_zero c), hrs, htrs, ho⟩
  | bs + 1, shard', responses', err, hlen, hzero, h => by
    obtain ⟨⟨shard₁, responses₁, err₁⟩, h₁, hstep⟩ := Fold.foldlM_option_range_succ_eq_some h
    obtain ⟨hl₁, hframe₁, hslots₁, hrs₁, htrs₁, ho₁⟩ :=
      shardHandleQuery_sound hrs htrs ho bs (by omega)
        (fun c hc => hzero c (by omega)) h₁
    -- slot `bs` is still zero before query `bs`
    have hzero₁ : (responses₁.drop ((base + bs) * 7)).take 7 = zeroResponse := by
      rw [hframe₁ _ (Or.inr le_rfl)]
      exact hzero bs (Nat.lt_succ_self bs)
    -- a query that did not write leaves its slot zero, which is a lookup result too
    have hkept : ∀ {shard'' : Shard}, shard''.recordSizeQwords = 7 →
        shard''.table.recordSizeQwords = 7 → OramDataIn S shard''.table.oram →
        responses₁.length = responses.length ∧
        (∀ q, q < base ∨ base + (bs + 1) ≤ q →
          (responses₁.drop (q * 7)).take 7 = (responses.drop (q * 7)).take 7) ∧
        (∀ c < bs + 1, LookupResult S zeroResponse (request.getD c 0) 7
          ((responses₁.drop ((base + c) * 7)).take 7)) ∧
        shard''.recordSizeQwords = 7 ∧ shard''.table.recordSizeQwords = 7 ∧
        OramDataIn S shard''.table.oram := by
      intro shard'' h₁ h₂ h₃
      refine ⟨hl₁, fun q hq => hframe₁ q (by omega), fun c hc => ?_, h₁, h₂, h₃⟩
      rcases Nat.lt_succ_iff_lt_or_eq.1 hc with hc | rfl
      · exact hslots₁ c hc
      · rw [hzero₁]
        exact Or.inl rfl
    rcases err₁ with e | ⟨⟩
    · cases hstep
      exact hkept hrs₁ htrs₁ ho₁
    · simp only at hstep
      rw [hrs₁, show (7 : UInt64).toNat = 7 from rfl,
        show base * 7 + 7 * bs = (base + bs) * 7 by ring] at hstep
      obtain ⟨before, hread, hstep⟩ := Option.bind_eq_some_iff.1 hstep
      unfold readWords at hread
      split at hread
      · cases hread
        obtain ⟨⟨table, res⟩, hget, hstep⟩ := Option.bind_eq_some_iff.1 hstep
        rw [hzero₁] at hget
        obtain ⟨ho₂, htable, hres⟩ := ohtableGet_dataIn hE ho₁ hget
        rcases res with e | r
        · cases hstep
          exact hkept rfl (by rw [htable]; exact htrs₁) ho₂
        · have hr := hres r rfl
          rw [htrs₁] at hr
          have hrl := lookupResult_length hS hr
          obtain ⟨responses₂, hwrite, hstep⟩ := Option.map_eq_some_iff.1 hstep
          cases hstep
          unfold writeWords at hwrite
          split at hwrite
          · cases hwrite
            have hq : (base + bs + 1) * 7 ≤ responses₁.length := by rw [hl₁]; omega
            refine ⟨by rw [length_write hrl hq, hl₁], fun q hq' => ?_, fun c hc => ?_, rfl,
              by rw [htable]; exact htrs₁, ho₂⟩
            · rw [take_drop_write hrl hq, if_neg (by omega)]
              exact hframe₁ q (by omega)
            · rw [take_drop_write hrl hq]
              rcases Nat.lt_succ_iff_lt_or_eq.1 hc with hc | rfl
              · rw [if_neg (by omega)]
                exact hslots₁ c hc
              · rw [if_pos rfl]
                exact hr
          · cases hwrite
      · cases hread

end Query

/-! ## The shards' loop -/

/-- The shards' loop of a query batch after `k` shards: the shards from `k` on are untouched,
the response slots of the shards below `k` hold lookup results of their queries, and the others
are still zero. -/
structure QueryRunInv (T : ShardedOhtable) (laid : List UInt64) (bs k : ℕ)
    (acc : List Shard × List UInt64 × (ℕ → Except ErrorT Unit)) : Prop where
  length : acc.1.length = T.shards.length
  untouched : ∀ sh, k ≤ sh → acc.1[sh]? = T.shards[sh]?
  ran : ∀ sh < k, ∀ shard, acc.1[sh]? = some shard → shard.recordSizeQwords = 7 ∧
    shard.table.recordSizeQwords = 7 ∧ OramDataIn T.Words shard.table.oram
  responsesLength : acc.2.1.length = T.shards.length * bs * 7
  zero : ∀ q, k * bs ≤ q → q < T.shards.length * bs → (acc.2.1.drop (q * 7)).take 7 = zeroResponse
  slots : ∀ sh < k, ∀ c < bs, LookupResult T.Words zeroResponse (laid.getD (bs * sh + c) 0) 7
    ((acc.2.1.drop ((bs * sh + c) * 7)).take 7)

theorem queryRun_inv {T : ShardedOhtable} (hT : T.WellFormed) {laid : List UInt64} {bs : ℕ}
    {draws : ℕ → UInt64} {acc : List Shard × List UInt64 × (ℕ → Except ErrorT Unit)}
    (h : (List.range T.shards.length).foldlM
        (fun acc sh =>
          match acc.1[sh]? with
          | none => none
          | some shard =>
            Option.map (fun x => (acc.1.set sh x.1, x.2.1, Function.update acc.2.2 sh x.2.2))
              (shardHandleQuery shard (List.drop (bs * sh * 1) laid) acc.2.1 (bs * sh * 7) bs
                (drawsAt draws sh)))
        (T.shards, List.replicate (T.shards.length * bs * 7) 0, fun _ => Except.ok ()) = some acc) :
    QueryRunInv T laid bs T.shards.length acc := by
  refine Fold.foldlM_option_range_inv (QueryRunInv T laid bs) ⟨rfl, fun _ _ => rfl,
    fun sh hsh => absurd hsh (Nat.not_lt_zero sh), by simp, fun q _ hq => ?_,
    fun sh hsh => absurd hsh (Nat.not_lt_zero sh)⟩ ?_ h
  · have hq7 : q * 7 + 7 ≤ T.shards.length * bs * 7 := by omega
    rw [List.drop_replicate, List.take_replicate, zeroResponse, min_eq_left (by omega)]
  rintro i ⟨shards, responses, errors⟩ acc' hi hinv hstep
  obtain ⟨hlen, huntouched, hran, hrlen, hzero, hslots⟩ := hinv
  dsimp only at hlen huntouched hran hrlen hzero hslots hstep
  obtain ⟨shard, hshard⟩ : ∃ shard, T.shards[i]? = some shard :=
    ⟨T.shards[i], List.getElem?_eq_getElem hi⟩
  have hmem : shard ∈ T.shards := List.mem_of_getElem? hshard
  have hw := hT shard hmem
  rw [huntouched i le_rfl, hshard] at hstep
  obtain ⟨⟨shard', responses', err⟩, hq, rfl⟩ := Option.map_eq_some_iff.1 hstep
  -- shard `i` owns the response slots `[bs * i, bs * i + bs)`
  have hnext : bs * i + bs ≤ T.shards.length * bs := by
    rw [Nat.mul_comm T.shards.length]
    exact (Nat.mul_succ bs i).symm.le.trans (Nat.mul_le_mul_left bs hi)
  have hbelow : ∀ sh < i, ∀ c < bs, bs * sh + c < bs * i := fun sh hsh c hc =>
    lt_of_lt_of_le (by omega) ((Nat.mul_succ bs sh).symm.le.trans (Nat.mul_le_mul_left bs hsh))
  obtain ⟨hl', hframe, hslots', hrs', htrs', ho'⟩ :=
    shardHandleQuery_sound T.empty_mem_words T.words_blockSized hw.recordSize hw.tableRecordSize
      (hw.words hmem) bs (by omega) (fun c hc => hzero _ (by rw [Nat.mul_comm]; omega) (by omega)) hq
  refine ⟨by rw [List.length_set, hlen], fun sh hsh => ?_, fun sh hsh s hs => ?_, by rw [hl', hrlen],
    fun q hq₁ hq₂ => ?_, fun sh hsh c hc => ?_⟩
  · rw [List.getElem?_set_ne (by omega)]
    exact huntouched sh (by omega)
  · rcases Nat.lt_succ_iff_lt_or_eq.1 hsh with hsh | rfl
    · rw [List.getElem?_set_ne (by omega)] at hs
      exact hran sh hsh s hs
    · rw [List.getElem?_set_self (by rw [hlen]; exact hi)] at hs
      cases hs
      exact ⟨hrs', htrs', ho'⟩
  · rw [Nat.succ_mul, Nat.mul_comm i bs] at hq₁
    rw [hframe q (Or.inr hq₁)]
    exact hzero q (by rw [Nat.mul_comm]; omega) hq₂
  · rcases Nat.lt_succ_iff_lt_or_eq.1 hsh with hsh | rfl
    · rw [hframe _ (Or.inl (hbelow sh hsh c hc))]
      exact hslots sh hsh c hc
    · have hkey : (laid.drop (bs * sh * 1)).getD c 0 = laid.getD (bs * sh + c) 0 := by
        rw [List.getD_eq_getElem?_getD, List.getD_eq_getElem?_getD, List.getElem?_drop, Nat.mul_one]
      rw [← hkey]
      exact hslots' c hc

/-- **A query batch fills each shard's response slots with lookup results of its queries.** The
shards stay well formed, and response `c` of shard `sh`, for `c` below its count, is a lookup
result of one of the queries. -/
theorem batchQueriesWith_query_sound {T T' : ShardedOhtable} (hT : T.WellFormed)
    {route : ℕ → ℕ → Bool} {keys : List UInt64} {draws : ℕ → UInt64} {b : ShardBatchedQueries}
    (h : batchQueriesWith T route keys.length keys .query draws = some (T', b)) :
    T'.WellFormed ∧ T'.shards.length = T.shards.length ∧
      (∀ sh < T.shards.length, b.counters sh ≤ b.batchSize) ∧
      ∀ sh < T.shards.length, ∀ c < b.counters sh, ∃ j < keys.length,
        LookupResult T.Words zeroResponse (keys.getD j 0) 7
          ((b.responses.drop ((b.batchSize * sh + c) * 7)).take 7) := by
  unfold batchQueriesWith at h
  simp only [ShardRequestType.sizesU64, REQUEST_QUERY_BYTES, RESPONSE_QUERY_BYTES,
    Nat.reduceDiv] at h
  generalize hbs : (List.range T.shards.length).foldl
    (fun m sh => max m (batchSizes route T.shards.length keys.length sh)) 0 = bs at h
  have hle : ∀ sh < T.shards.length, batchSizes route T.shards.length keys.length sh ≤ bs :=
    fun sh hsh => hbs ▸ le_foldl_max _ hsh
  have hlay := @layOutQueries_laidOut route T.shards.length keys.length bs keys
    (List.replicate ((T.shards.length * bs + 1) * 1) 0) le_rfl hle (by simp)
  generalize layOutQueries route T.shards.length keys.length bs 1 keys
    (List.replicate ((T.shards.length * bs + 1) * 1) 0) = p at h hlay
  obtain ⟨laid, counters⟩ := p
  obtain ⟨hc, -, hslots⟩ := hlay
  dsimp only at hc hslots
  obtain ⟨⟨shards, responses, errors⟩, hrun, heq⟩ := Option.map_eq_some_iff.1 h
  cases heq
  obtain ⟨hlen, -, hran, -, -, hslots'⟩ := queryRun_inv hT hrun
  dsimp only at hlen hran hslots'
  subst hc
  refine ⟨fun shard hs => ?_, hlen, hle, fun sh hsh c hc => ?_⟩
  · obtain ⟨sh, hsh, hget⟩ := List.getElem_of_mem hs
    obtain ⟨hrs, htrs, ho⟩ := hran sh (hlen ▸ hsh) shard (by rw [List.getElem?_eq_getElem hsh, hget])
    exact ⟨hrs, htrs, ho.mono fun d hd => hd.2⟩
  · obtain ⟨j, hj, hkey⟩ := hslots sh hsh c hc
    refine ⟨j, by omega, ?_⟩
    have hgetD : laid.getD (bs * sh + c) 0 = keys.getD j 0 := by
      rw [List.getD_eq_getElem?_getD, List.getD_eq_getElem?_getD, Nat.mul_comm bs, hkey]
    rw [← hgetD]
    exact hslots' sh hsh c (lt_of_lt_of_le hc (hle sh hsh))

/-! ## Reading the results -/

theorem signalUserRecordsOfWords_append_of_length :
    ∀ (n : ℕ) {u : List UInt64} (v : List UInt64), u.length = 7 * n →
      signalUserRecordsOfWords (u ++ v) = signalUserRecordsOfWords u ++ signalUserRecordsOfWords v
  | 0, u, v, hu => by
    rw [List.length_eq_zero_iff.1 (show u.length = 0 by omega)]
    rfl
  | n + 1, u, v, hu => by
    rcases u with _ | ⟨e, _ | ⟨a₀, _ | ⟨a₁, _ | ⟨p₀, _ | ⟨p₁, _ | ⟨u₀, _ | ⟨u₁, rest⟩⟩⟩⟩⟩⟩⟩
    all_goals simp only [List.length_cons, List.length_nil] at hu
    all_goals try omega
    simp only [List.cons_append, signalUserRecordsOfWords, List.cons_append]
    rw [signalUserRecordsOfWords_append_of_length n v (by omega)]

/-- Words cut at a record boundary are read as the records of each part. -/
theorem signalUserRecordsOfWords_append {u : List UInt64} (v : List UInt64)
    (hu : u.length % 7 = 0) :
    signalUserRecordsOfWords (u ++ v) = signalUserRecordsOfWords u ++ signalUserRecordsOfWords v :=
  signalUserRecordsOfWords_append_of_length (u.length / 7) v (by omega)

theorem signalUserRecordsOfWords_take_append_drop (l : List UInt64) (k : ℕ)
    (hl : l.length % 7 = 0) :
    signalUserRecordsOfWords l =
      signalUserRecordsOfWords (l.take (k * 7)) ++ signalUserRecordsOfWords (l.drop (k * 7)) := by
  rw [← signalUserRecordsOfWords_append _ (by rw [List.length_take]; omega), List.take_append_drop]

theorem signalUserRecordsOfWords_of_length_seven {w : List UInt64} (hw : w.length = 7) :
    ∃ r : SignalUserRecord, w = r.toWords ∧ signalUserRecordsOfWords w = [r] := by
  rcases w with _ | ⟨e, _ | ⟨a₀, _ | ⟨a₁, _ | ⟨p₀, _ | ⟨p₁, _ | ⟨u₀, _ | ⟨u₁, _ | ⟨x, rest⟩⟩⟩⟩⟩⟩⟩⟩
  all_goals simp only [List.length_cons, List.length_nil] at hw
  all_goals try omega
  exact ⟨⟨e, a₀, a₁, p₀, p₁, u₀, u₁⟩, rfl, rfl⟩

/-- Overwriting record `m` of the results, or appending it past their end, adds that record and
keeps some of the others. -/
theorem signalUserRecordsOfWords_write {l w : List UInt64} (hl : l.length % 7 = 0)
    (hw : w.length = 7) (m : ℕ) :
    (l.take (m * 7) ++ w ++ l.drop ((m + 1) * 7)).length % 7 = 0 ∧
      ∀ r ∈ signalUserRecordsOfWords (l.take (m * 7) ++ w ++ l.drop ((m + 1) * 7)),
        r ∈ signalUserRecordsOfWords l ∨ r ∈ signalUserRecordsOfWords w := by
  have hA : (l.take (m * 7)).length % 7 = 0 := by rw [List.length_take]; omega
  refine ⟨by simp only [List.length_append, List.length_take, List.length_drop]; omega,
    fun r hr => ?_⟩
  rw [List.append_assoc, signalUserRecordsOfWords_append _ hA,
    signalUserRecordsOfWords_append _ (by omega)] at hr
  rcases List.mem_append.1 hr with hr | hr
  · exact Or.inl (by rw [signalUserRecordsOfWords_take_append_drop l m hl]; exact List.mem_append_left _ hr)
  · rcases List.mem_append.1 hr with hr | hr
    · exact Or.inr hr
    · exact Or.inl (by
        rw [signalUserRecordsOfWords_take_append_drop l (m + 1) hl]; exact List.mem_append_right _ hr)

theorem mem_signalUserRecordsOfWords_replicate {x : UInt64} :
    ∀ (n : ℕ) {r : SignalUserRecord}, r ∈ signalUserRecordsOfWords (List.replicate (7 * n) x) →
      r.e164 = x
  | 0, r, hr => by simp [signalUserRecordsOfWords] at hr
  | n + 1, r, hr => by
    rw [show 7 * (n + 1) = 7 + 7 * n by ring, List.replicate_add,
      signalUserRecordsOfWords_append _ (by simp)] at hr
    rcases List.mem_append.1 hr with hr | hr
    · simp only [List.replicate, signalUserRecordsOfWords, List.mem_singleton] at hr
      rw [hr]
    · exact mem_signalUserRecordsOfWords_replicate n hr

theorem not_present_of_e164 {r : SignalUserRecord} (h : r.e164 = UINT64_MAX) : ¬ r.Present :=
  fun hp => hp.1 h

/-- **A response slot reads as nothing or as a record of the table with the key looked up.** -/
theorem record_of_lookupResult {T : ShardedOhtable} (hT : T.WellFormed) {key : UInt64}
    {w : List UInt64} (hw : LookupResult T.Words zeroResponse key 7 w) :
    ∃ r : SignalUserRecord, w = r.toWords ∧ (¬ r.Present ∨ (T.HoldsRecord r ∧ r.e164 = key)) := by
  obtain ⟨r, rfl, -⟩ := signalUserRecordsOfWords_of_length_seven
    (lookupResult_length T.words_blockSized hw)
  refine ⟨r, rfl, ?_⟩
  rcases hw with h0 | ⟨d, ⟨hd | rfl, -⟩, j, hj, hrec, hm⟩
  · -- the zero words the slot was given: no ACI
    simp only [SignalUserRecord.toWords, zeroResponse, List.replicate, List.cons.injEq] at h0
    exact Or.inl fun hp => hp.2.elim (fun h => h h0.2.1) (fun h => h h0.2.2.1)
  · obtain ⟨shard, hs, hheld⟩ := hd
    have htrs := (hT shard hs).tableRecordSize
    simp only [recordEmptyOrMatches, recordEmpty, Bool.or_eq_true, beq_iff_eq] at hm
    rcases hm with hm | hm
    · exact Or.inl (not_present_of_e164 hm)
    · exact Or.inr ⟨⟨shard, hs, d, hheld, j, by rw [htrs]; exact hj, by rw [htrs]; exact hrec.symm⟩, hm⟩
  · -- a record of the empty block: `0xFF` words
    rw [recordsPerBlock_seven] at hj
    have he : r.e164 = (recordAt Block.empty.data j (UInt64.toNat 7)).getD 0 0 := by
      rw [← hrec]; rfl
    simp only [recordAt, Block.empty, List.drop_replicate, List.take_replicate,
      BLOCK_DATA_SIZE_QWORDS_toNat, show UInt64.toNat 7 = 7 from rfl] at he
    rw [List.getD_eq_getElem?_getD, List.getElem?_replicate, if_pos (by omega)] at he
    exact Or.inl (not_present_of_e164 he)

/-- The result loop over one shard keeps every record of the results within `P` when every
response it may copy reads as a record within `P`. -/
theorem collectResponses_sound {P : SignalUserRecord → Prop} {b : ShardBatchedQueries} {sh : ℕ}
    (hslot : ∀ c < b.counters sh, ∃ r, (b.responses.drop ((b.batchSize * sh + c) * 7)).take 7 =
      r.toWords ∧ P r)
    {results : List UInt64} {idx : ℕ} (hlen : results.length % 7 = 0)
    (hres : ∀ r ∈ signalUserRecordsOfWords results, P r) :
    (collectResponses b sh (results, idx)).1.length % 7 = 0 ∧
      ∀ r ∈ signalUserRecordsOfWords (collectResponses b sh (results, idx)).1, P r := by
  unfold collectResponses
  refine Fold.foldl_range_inv (fun _ (acc : List UInt64 × ℕ) => acc.1.length % 7 = 0 ∧
    ∀ r ∈ signalUserRecordsOfWords acc.1, P r) ⟨hlen, hres⟩ ?_
  rintro c ⟨results₁, idx₁⟩ hc ⟨hlen₁, hres₁⟩
  obtain ⟨r, hr, hPr⟩ := hslot c hc
  simp only [show RESPONSE_QUERY_BYTES / 8 = 7 from rfl]
  split
  · rw [hr]
    obtain ⟨hlen₂, hmem⟩ := signalUserRecordsOfWords_write hlen₁ rfl idx₁ (w := r.toWords)
    refine ⟨hlen₂, fun r' hr' => ?_⟩
    rcases hmem r' hr' with h | h
    · exact hres₁ r' h
    · rw [show signalUserRecordsOfWords r.toWords = [r] from rfl, List.mem_singleton] at h
      rw [h]
      exact hPr
  · exact ⟨hlen₁, hres₁⟩

/-- **The records of a lookup are absent or requested records of the table.** Every record that
`sharded_ohtable_get_batch` leaves in its results is not present (`0xFF` words, zero words, or an
empty record), or is a record of a block the table held, whose e164 is one of the keys looked
up. The table stays well formed. -/
theorem shardedOhtableGetBatch_sound {T T' : ShardedOhtable} (hT : T.WellFormed)
    {keys : List UInt64} {draws : ℕ → UInt64} {results : List UInt64} {err : Except ErrorT Unit}
    (h : shardedOhtableGetBatch T keys.length keys draws = some (T', results, err)) :
    T'.WellFormed ∧ ∀ r ∈ signalUserRecordsOfWords results,
      ¬ r.Present ∨ (T.HoldsRecord r ∧ r.e164 ∈ keys) := by
  unfold shardedOhtableGetBatch batchQueries at h
  obtain ⟨⟨t, b⟩, hb, heq⟩ := Option.map_eq_some_iff.1 h
  obtain ⟨hwf, hlen, -, hslots⟩ := batchQueriesWith_query_sound hT hb
  -- every response a shard may copy reads as an absent record or a requested one
  have hslot : ∀ sh < t.shards.length, ∀ c < b.counters sh, ∃ r,
      (b.responses.drop ((b.batchSize * sh + c) * 7)).take 7 = r.toWords ∧
        (¬ r.Present ∨ (T.HoldsRecord r ∧ r.e164 ∈ keys)) := by
    intro sh hsh c hc
    obtain ⟨j, hj, hlook⟩ := hslots sh (hlen ▸ hsh) c hc
    obtain ⟨r, hr, hgood⟩ := record_of_lookupResult hT hlook
    refine ⟨r, hr, hgood.imp_right fun hrk => ⟨hrk.1, ?_⟩⟩
    rw [hrk.2, List.getD_eq_getElem _ _ hj]
    exact List.getElem_mem hj
  simp only [Prod.mk.injEq] at heq
  obtain ⟨rfl, hres, -⟩ := heq
  refine ⟨hwf, ?_⟩
  rw [← hres]
  refine (Fold.foldl_range_inv (fun _ (acc : List UInt64 × ℕ × Except ErrorT Unit) =>
    acc.1.length % 7 = 0 ∧ ∀ r ∈ signalUserRecordsOfWords acc.1,
      ¬ r.Present ∨ (T.HoldsRecord r ∧ r.e164 ∈ keys)) ⟨?_, ?_⟩ ?_).2
  · simp [show RESPONSE_QUERY_BYTES / 8 = 7 from rfl]
  · -- the results start as `0xFF` words
    intro r hr
    rw [show RESPONSE_QUERY_BYTES / 8 = 7 from rfl] at hr
    exact Or.inl (not_present_of_e164 (mem_signalUserRecordsOfWords_replicate _ hr))
  rintro sh ⟨results₁, idx₁, err₁⟩ hsh ⟨hlen₁, hres₁⟩
  dsimp only
  split
  · exact ⟨hlen₁, hres₁⟩
  · split
    · exact ⟨hlen₁, hres₁⟩
    · exact collectResponses_sound (hslot sh hsh) hlen₁ hres₁

/-! ## The tables of a run -/

/-- The range `[lb, ub)` of a shard's keys. -/
def Shard.range (shard : Shard) : UInt64 × UInt64 := (shard.lb, shard.ub)

/-- A table of two shards of `1 + 48 / 2` records, built by `sharded_ohtable_create` and then
`sharded_ohtable_put_batch` of one record: e164 `1`, ACI `(2, 0)`, PNI `(3, 0)`, UAK `(4, 0)`. -/
def pairTable : Option ShardedOhtable :=
  (shardedOhtableCreate 7 48 2 0 id fun _ => 0).bind fun T =>
    (shardedOhtablePutBatch T 1 [1, 2, 0, 3, 0, 4, 0] fun _ => 0).map Prod.fst

end ContactDiscovery
