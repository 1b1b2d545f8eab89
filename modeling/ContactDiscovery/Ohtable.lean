import Mathlib
import ContactDiscovery.Division
import ContactDiscovery.PathOram.Oram

/-!
# The oblivious Robin Hood hash table (`ohtable/ohtable.c`)

Records of `record_size_qwords` words, keyed by their first word (`UINT64_MAX` marks an empty
slot), are stored `items_per_block = BLOCK_DATA_SIZE_QWORDS / record_size_qwords` to an ORAM
block. Slot `s` of the table is record `s % items_per_block` of block `s / items_per_block`,
and a key's home slot is `ct_mod(fnv1a64(key), capacity)`.

* `robinhoodAccessor` — the body of `ohtable_put` run inside `oram_function_access` on one
  block: store into the first empty or matching slot from the start index, or swap the carried
  record with a slot whose record sits closer to its home (ties broken by the full hash), and
  keep the displacement bookkeeping (`curr_jump`, `curr_slot_hash`, `max_offset`, `trace`);
* `ohtablePut` — the `while (!insert_complete)` loop over consecutive blocks, wrapping at the
  last block;
* `getRecordAccessor`, `ohtableGet` — copy the first empty or matching record of
  `1 + ceil(max_offset / items_per_block)` blocks from the key's home;
* `ohtableCreate`, `ohtableClear`.

For two or more records per block the constant-time division is exact, and the home slot is
`raw_hash(key) % capacity` inside the table (`ohtableCreate_hash_exact`); with one record per
block it is not (`ohtableHash_itemsPerBlock_one`).

Each ORAM access draws one entropy word: an operation takes the words of its accesses in order.
`is_full` compares `(double)num_items / capacity > 0.98`; for tables of fewer than `2^40` slots
this is `49 * capacity < 50 * num_items` (the quotient is never within rounding of `0.98` unless
equal to it), which is how it is modelled.
-/

set_option autoImplicit false

namespace ContactDiscovery

/-! ## Hashing -/

/-- `fnv1a64(size, data)`. -/
def fnv1a64 (data : List UInt8) : UInt64 :=
  data.foldl (fun hash byte => (hash ^^^ byte.toUInt64) * 1099511628211) 14695981039346656037

/-- `raw_hash(key)`: FNV-1a of the key's eight bytes. -/
def rawHash (key : UInt64) : UInt64 := fnv1a64 (bytesOfU64 key)

/-- `location`: an ORAM block and a record index in it. -/
structure Location where
  blockId : UInt64
  index : UInt64
  deriving DecidableEq, Repr

/-- `hash(key, capacity, items_per_block, …)`: the home slot `h = ct_mod(raw_hash(key),
capacity)` as `(ct_div(h, items_per_block), ct_mod(h, items_per_block))`. -/
def Ohtable.hash (key capacity itemsPerBlock : UInt64) (capacityCt itemsPerBlockCt : CtDivConsts) :
    Location :=
  let h := ctMod (rawHash key) capacity capacityCt
  ⟨ctDiv h itemsPerBlockCt, ctMod h itemsPerBlock itemsPerBlockCt⟩

/-- `ohtable_distance_to_hash(capacity, hash, target_hash)`: the forward jump from `hash` to
`target_hash`, wrapping once around the table. -/
def ohtableDistanceToHash (ohtableCapacity hash targetHash : UInt64) : UInt64 :=
  if targetHash < hash then targetHash + ohtableCapacity - hash else targetHash - hash

/-! ## The table -/

/-- `ohtable` (without its statistics and its scratch buffers). -/
structure Ohtable where
  oram : Oram
  capacity : UInt64
  recordSizeQwords : UInt64
  itemsPerBlock : UInt64
  baseBlockId : UInt64
  numBlocks : UInt64
  maxOffset : UInt64
  maxTraceLength : UInt64
  totalDisplacement : UInt64
  numItems : UInt64
  capacityCt : CtDivConsts
  itemsPerBlockCt : CtDivConsts

/-- `ohtable_hash`. -/
def ohtableHash (t : Ohtable) (key : UInt64) : Location :=
  Ohtable.hash key t.capacity t.itemsPerBlock t.capacityCt t.itemsPerBlockCt

/-- `ohtable_hash_from_location`. -/
def ohtableHashFromLocation (t : Ohtable) (loc : Location) : UInt64 :=
  loc.blockId * t.itemsPerBlock + loc.index

/-- `_create(oram, record_size_qwords)`: the table takes every block of the ORAM. -/
def Ohtable.create (oram : Oram) (recordSizeQwords : UInt64) : Ohtable :=
  let itemsPerBlock := BLOCK_DATA_SIZE_QWORDS / recordSizeQwords
  let numBlocks := oram.capacityBlocks
  let capacity := numBlocks * itemsPerBlock
  let (baseBlockId, oram) := oramAllocateContiguous oram numBlocks
  { oram, capacity, recordSizeQwords, itemsPerBlock, baseBlockId, numBlocks,
    maxOffset := 0, maxTraceLength := 0, totalDisplacement := 0, numItems := 0,
    capacityCt := prepCtDiv capacity, itemsPerBlockCt := prepCtDiv itemsPerBlock }

/-- `ohtable_create(record_capacity, record_size_qwords, stash_overflow_size, getentropy)`:
enough blocks for the records; a zero divisor (`record_size_qwords = 0`, or more than
`BLOCK_DATA_SIZE_QWORDS` words so that no record fits a block) traps. -/
def ohtableCreate (recordCapacity recordSizeQwords stashOverflowSize : UInt64)
    (draws : ℕ → UInt64) : Option Ohtable :=
  if recordSizeQwords = 0 then none
  else
    let itemsPerBlock := BLOCK_DATA_SIZE_QWORDS / recordSizeQwords
    if itemsPerBlock = 0 then none
    else
      let numBlocks := recordCapacity / itemsPerBlock +
        (if recordCapacity % itemsPerBlock = 0 then 0 else 1)
      let capacity := numBlocks * BLOCK_DATA_SIZE_QWORDS
      (oramCreate capacity stashOverflowSize draws).map fun oram =>
        Ohtable.create oram recordSizeQwords

/-- `ohtable_clear`: clear the ORAM, allocate the blocks again and reset the counters (the
running `max_offset` is kept). -/
def ohtableClear (t : Ohtable) : Ohtable :=
  let (baseBlockId, oram) := oramAllocateContiguous (oramClear t.oram) t.numBlocks
  { t with oram, baseBlockId, maxTraceLength := 0, totalDisplacement := 0, numItems := 0 }

/-! ## Records in a block -/

/-- Record `i` of a block: words `[i * size, (i + 1) * size)`. -/
def recordAt (blockData : List UInt64) (i size : ℕ) : List UInt64 :=
  (blockData.drop (i * size)).take size

/-- Overwrite record `i` of a block with the first `size` words of `r`. -/
def setRecord (blockData : List UInt64) (i size : ℕ) (r : List UInt64) : List UInt64 :=
  blockData.take (i * size) ++ r.take size ++ blockData.drop ((i + 1) * size)

/-- `record_empty`. -/
def recordEmpty (record : List UInt64) : Bool := record.getD 0 0 == UINT64_MAX

/-- `record_empty_or_matches`. -/
def recordEmptyOrMatches (record : List UInt64) (key : UInt64) : Bool :=
  recordEmpty record || record.getD 0 0 == key

/-- The record in slot `s` of the table: record `s % items_per_block` of ORAM block
`s / items_per_block`. -/
def ohtableSlot (t : Ohtable) (s : ℕ) : List UInt64 :=
  recordAt (oramBlockData t.oram (UInt64.ofNat (s / t.itemsPerBlock.toNat)))
    (s % t.itemsPerBlock.toNat) t.recordSizeQwords.toNat

/-! ## Upsert -/

/-- `robinhood_accessor_args`. -/
structure RobinhoodAccessorArgs where
  recordSizeQwords : UInt64
  startIndex : UInt64
  insertComplete : Bool
  inRecord : List UInt64
  currJump : UInt64
  currRecordHash : UInt64
  currSlotHash : UInt64
  trace : UInt64
  insertedNewItem : Bool
  maxOffset : UInt64
  ohtableCapacity : UInt64
  capacityCt : CtDivConsts

/-- One iteration of the loop of `robinhood_accessor`, at record `i` of the block, with the
block's words, the arguments and the block-local flag `inserted`. -/
def robinhoodAccessorStep (acc : List UInt64 × RobinhoodAccessorArgs × Bool) (i : ℕ) :
    List UInt64 × RobinhoodAccessorArgs × Bool :=
  let (blockData, args, inserted) := acc
  let size := args.recordSizeQwords.toNat
  let record := args.inRecord
  let key := record.getD 0 0
  let candidateRecord := recordAt blockData i size
  let searchStarted := decide (UInt64.ofNat i ≥ args.startIndex)
  let shouldStore := searchStarted && recordEmptyOrMatches candidateRecord key && !args.insertComplete
  let candidateHash := ctMod (rawHash (candidateRecord.getD 0 0)) args.ohtableCapacity args.capacityCt
  let candidateJump := ohtableDistanceToHash args.ohtableCapacity candidateHash args.currSlotHash
  -- the smaller jump, ties broken by the full hash
  let jumpSmaller := decide (candidateJump < args.currJump) ||
    (candidateJump == args.currJump &&
      decide (rawHash (candidateRecord.getD 0 0) < rawHash (record.getD 0 0)))
  let shouldSwap := searchStarted && !shouldStore && !args.insertComplete && jumpSmaller
  let insertedNewItem := args.insertedNewItem ||
    (!inserted && (shouldSwap || (shouldStore && recordEmpty candidateRecord)))
  -- `cond_copy_record(should_store, candidate, record)`, then
  -- `cond_swap_record(should_swap, candidate, record)`
  let stored := if shouldStore then record else candidateRecord
  let (slot, record) := if shouldSwap then (record, stored) else (stored, record)
  let inserted := inserted || shouldStore || shouldSwap
  let insertComplete := args.insertComplete || shouldStore
  -- `should_swap | should_store & (curr_jump > max_offset)`: `&` binds before `|`, so every
  -- swap records its jump, also one smaller than the running maximum
  let maxOffset := u64Ternary (shouldSwap || (shouldStore && decide (args.currJump > args.maxOffset)))
    args.currJump args.maxOffset
  let currRecordHash := u64Ternary shouldSwap candidateHash args.currRecordHash
  let currJump := u64Ternary shouldSwap candidateJump args.currJump
  let currSlotHash := args.currSlotHash + u64Ternary searchStarted 1 0
  let inc := u64Ternary (searchStarted && !insertComplete) 1 0
  (setRecord blockData i size slot,
    { args with
      insertComplete, inRecord := record, insertedNewItem, maxOffset, currRecordHash,
      currSlotHash, trace := args.trace + inc, currJump := currJump + inc },
    inserted)

/-- `robinhood_accessor(block_data, args)`: the loop over the block's records. -/
def robinhoodAccessor (args : RobinhoodAccessorArgs) (blockData : List UInt64) :
    Option (Except ErrorT (List UInt64 × RobinhoodAccessorArgs)) :=
  let recordsPerBlock := (BLOCK_DATA_SIZE_QWORDS / args.recordSizeQwords).toNat
  let (blockData, args, _) :=
    (List.range recordsPerBlock).foldl robinhoodAccessorStep (blockData, args, false)
  some (.ok (blockData, args))

/-- `is_full`: `(double)num_items / capacity > 0.98`. -/
def isFull (t : Ohtable) : Bool := decide (49 * t.capacity.toNat < 50 * t.numItems.toNat)

/-- The next block, wrapping after the last. -/
def nextBlockId (t : Ohtable) (blockId : UInt64) : UInt64 :=
  u64Ternary (blockId + 1 == t.numBlocks) 0 (blockId + 1)

/-- The `while (!args.insert_complete)` loop of `ohtable_put`, from the `k`-th access on, for at
most `fuel` more accesses: one ORAM access per block. After `num_blocks + 1` accesses every slot
has been visited, and a put that has met no empty or matching slot never completes (`none`). -/
def ohtablePutLoop (t : Ohtable) (draws : ℕ → UInt64) :
    ℕ → ℕ → Oram → UInt64 → RobinhoodAccessorArgs → Option (Oram × Except ErrorT RobinhoodAccessorArgs)
  | 0, _, _, _, _ => none
  | fuel + 1, k, oram, blockId, args =>
    if args.insertComplete then some (oram, .ok args)
    else
      (oramFunctionAccess oram blockId (robinhoodAccessor args) (draws k)).bind fun
        | (oram, .error e) => some (oram, .error e)
        | (oram, .ok args) =>
          ohtablePutLoop t draws fuel (k + 1) oram (nextBlockId t blockId) { args with startIndex := 0 }

/-- `ohtable_put(ohtable, record)`. -/
def ohtablePut (t : Ohtable) (record : List UInt64) (draws : ℕ → UInt64) :
    Option (Ohtable × Except ErrorT Unit) :=
  if isFull t then some (t, .error .OHTABLE__TABLE_FULL)
  else
    let loc := ohtableHash t (record.getD 0 0)
    let currRecordHash := ohtableHashFromLocation t loc
    let args : RobinhoodAccessorArgs :=
      { recordSizeQwords := t.recordSizeQwords, startIndex := loc.index, insertComplete := false,
        inRecord := record.take t.recordSizeQwords.toNat, currJump := 0, currRecordHash,
        currSlotHash := currRecordHash, trace := 0, insertedNewItem := false, maxOffset := 0,
        ohtableCapacity := t.capacity, capacityCt := t.capacityCt }
    (ohtablePutLoop t draws (t.numBlocks.toNat + 1) 0 t.oram loc.blockId args).map fun
      | (oram, .error e) => ({ t with oram }, .error e)
      | (oram, .ok args) =>
        ({ t with
            oram
            numItems := t.numItems + u64Ternary args.insertedNewItem 1 0
            totalDisplacement := t.totalDisplacement + args.trace
            maxTraceLength := u64Ternary (args.trace > t.maxTraceLength) args.trace t.maxTraceLength
            maxOffset := u64Ternary (args.maxOffset > t.maxOffset) args.maxOffset t.maxOffset },
          .ok ())

/-! ## Lookup -/

/-- `get_record_accessor_args` (with the output record it copies to). -/
structure GetRecordAccessorArgs where
  recordSizeQwords : UInt64
  startIndex : UInt64
  searchComplete : Bool
  outRecord : List UInt64
  key : UInt64
  deriving DecidableEq, Repr

/-- `get_record_accessor(block_data, args)`: copy the first empty or matching record from the
start index. -/
def getRecordAccessor (args : GetRecordAccessorArgs) (blockData : List UInt64) :
    Option (Except ErrorT (List UInt64 × GetRecordAccessorArgs)) :=
  let recordsPerBlock := (BLOCK_DATA_SIZE_QWORDS / args.recordSizeQwords).toNat
  let size := args.recordSizeQwords.toNat
  let args := (List.range recordsPerBlock).foldl
    (fun (args : GetRecordAccessorArgs) i =>
      let candidateRecord := recordAt blockData i size
      let searchStarted := decide (UInt64.ofNat i ≥ args.startIndex)
      let shouldCopy := searchStarted && recordEmptyOrMatches candidateRecord args.key &&
        !args.searchComplete
      { args with
        outRecord := if shouldCopy then candidateRecord else args.outRecord
        searchComplete := args.searchComplete || shouldCopy })
    args
  some (.ok (blockData, args))

/-- The `while (blocks_to_scan > 0)` loop of `ohtable_get`, from the `k`-th access on. -/
def ohtableGetLoop (t : Ohtable) (draws : ℕ → UInt64) :
    ℕ → ℕ → Oram → UInt64 → GetRecordAccessorArgs → Option (Oram × Except ErrorT GetRecordAccessorArgs)
  | 0, _, oram, _, args => some (oram, .ok args)
  | n + 1, k, oram, blockId, args =>
    (oramFunctionAccess oram blockId (getRecordAccessor args) (draws k)).bind fun
      | (oram, .error e) => some (oram, .error e)
      | (oram, .ok args) =>
        ohtableGetLoop t draws n (k + 1) oram (nextBlockId t blockId) { args with startIndex := 0 }

/-- `ohtable_get(ohtable, key, record)`, with `record` the buffer's words before the call:
scan `1 + ceil(max_offset / items_per_block)` blocks from the key's home; the result is the
buffer after the call. -/
def ohtableGet (t : Ohtable) (key : UInt64) (record : List UInt64) (draws : ℕ → UInt64) :
    Option (Ohtable × Except ErrorT (List UInt64)) :=
  let blocksToScan := 1 + (t.maxOffset + t.itemsPerBlock - 1) / t.itemsPerBlock
  let loc := ohtableHash t key
  let args : GetRecordAccessorArgs :=
    { recordSizeQwords := t.recordSizeQwords, startIndex := loc.index, searchComplete := false,
      outRecord := record, key }
  (ohtableGetLoop t draws blocksToScan.toNat 0 t.oram loc.blockId args).map fun
    | (oram, .error e) => ({ t with oram }, .error e)
    | (oram, .ok args) => ({ t with oram }, .ok args.outRecord)

/-! ## Runs and the table's invariants -/

/-- The calls that change a table. -/
inductive OhtableOp where
  | put (record : List UInt64)
  | clear

/-- A run of calls, each drawing its entropy words from `draws`; `none` unless every call
succeeds. -/
def ohtableRun (draws : ℕ → UInt64) : Ohtable → List OhtableOp → Option Ohtable
  | t, [] => some t
  | t, .put r :: ops =>
    (ohtablePut t r draws).bind fun
      | (t, .ok ()) => ohtableRun draws t ops
      | (_, .error _) => none
  | t, .clear :: ops => ohtableRun draws (ohtableClear t) ops

/-- The home slot of a key, `ct_mod(raw_hash(key), capacity)`. -/
def homeSlot (t : Ohtable) (key : UInt64) : ℕ := (ctMod (rawHash key) t.capacity t.capacityCt).toNat

/-- The forward distance from the home of the record in slot `s` to `s`. -/
def slotOffset (t : Ohtable) (s : ℕ) : ℕ :=
  (s + t.capacity.toNat - homeSlot t ((ohtableSlot t s).getD 0 0)) % t.capacity.toNat

/-- The displacement bound: every stored record lies at most `max_offset` slots after its
home. -/
def displacementBounded (t : Ohtable) : Bool :=
  (List.range t.capacity.toNat).all fun s =>
    recordEmpty (ohtableSlot t s) || decide (slotOffset t s ≤ t.maxOffset.toNat)

/-- The probe-chain invariant: no key in two slots, `num_items` counts the non-empty slots, and
every slot from a record's home up to the record is non-empty. -/
def probeChainInvariant (t : Ohtable) : Bool :=
  let cap := t.capacity.toNat
  let keys := ((List.range cap).map fun s => ohtableSlot t s).filter (fun r => !recordEmpty r)
    |>.map fun r => r.getD 0 0
  keys.Nodup && keys.length == t.numItems.toNat &&
    (List.range cap).all fun s =>
      recordEmpty (ohtableSlot t s) ||
        (List.range (slotOffset t s)).all fun j =>
          !recordEmpty (ohtableSlot t ((homeSlot t ((ohtableSlot t s).getD 0 0) + j) % cap))

/-- `_create` keeps the block count its `CHECK` admitted, which is at least one. -/
theorem Oram.create_capacityBlocks {numLevels numBlocks stashOverflowSize : UInt64}
    {draws : ℕ → UInt64} {o : Oram}
    (h : Oram.create numLevels numBlocks stashOverflowSize draws = some o) :
    o.capacityBlocks = numBlocks ∧ 1 ≤ numBlocks.toNat := by
  unfold Oram.create at h
  split_ifs at h with hcheck
  obtain ⟨s, -, hs⟩ := Option.bind_eq_some_iff.1 h
  obtain ⟨p, -, rfl⟩ := Option.map_eq_some_iff.1 hs
  refine ⟨rfl, ?_⟩
  -- `1 << k` is a power of two, so at least one
  have hk := Nat.mod_lt (numLevels - 1).toNat (show 0 < 64 by norm_num)
  have hpow : ((1 : UInt64) <<< (numLevels - 1)).toNat = 2 ^ ((numLevels - 1).toNat % 64) := by
    rw [UInt64.toNat_shiftLeft, UInt64.toNat_one, Nat.one_shiftLeft,
      Nat.mod_eq_of_lt (Nat.pow_lt_pow_right (by norm_num) hk)]
  have h1 := UInt64.le_iff_toNat_le.1 hcheck
  rw [hpow] at h1
  exact le_trans Nat.one_le_two_pow h1

/-- **The shape of a table `ohtable_create` builds** with at least two records per block
(`record_size_qwords ≤ 84`) and at most `2^56` records: `items_per_block` between `2` and
`168`, `capacity = num_blocks * items_per_block` between `2` and `2^62` without wrapping, and the
constants of `prep_ct_div` for both divisors. -/
theorem ohtableCreate_shape {recordCapacity recordSizeQwords stashOverflowSize : UInt64}
    {draws : ℕ → UInt64} {t : Ohtable}
    (h : ohtableCreate recordCapacity recordSizeQwords stashOverflowSize draws = some t)
    (hrs : recordSizeQwords.toNat ≤ 84) (hcap : recordCapacity.toNat ≤ 2 ^ 56) :
    2 ≤ t.itemsPerBlock.toNat ∧ t.itemsPerBlock.toNat ≤ 168 ∧
      t.capacity.toNat = t.numBlocks.toNat * t.itemsPerBlock.toNat ∧ 2 ≤ t.capacity.toNat ∧
      t.capacity.toNat ≤ 2 ^ 62 ∧ t.capacityCt = prepCtDiv t.capacity ∧
      t.itemsPerBlockCt = prepCtDiv t.itemsPerBlock := by
  have hq : BLOCK_DATA_SIZE_QWORDS.toNat = 168 := rfl
  unfold ohtableCreate at h
  split at h
  · cases h
  rename_i hrs0
  simp only at h
  split at h
  · cases h
  obtain ⟨oram, hoc, rfl⟩ := Option.map_eq_some_iff.1 h
  have hrs1 : 1 ≤ recordSizeQwords.toNat := by
    rcases Nat.eq_zero_or_pos recordSizeQwords.toNat with h0 | h0
    · exact absurd (UInt64.toNat_inj.1 (h0.trans UInt64.toNat_zero.symm)) hrs0
    · exact h0
  -- records per block
  have hipb : (BLOCK_DATA_SIZE_QWORDS / recordSizeQwords).toNat = 168 / recordSizeQwords.toNat := by
    rw [UInt64.toNat_div, hq]
  have hipb2 : 2 ≤ 168 / recordSizeQwords.toNat := (Nat.le_div_iff_mul_le (by omega)).2 (by omega)
  have hipb168 : 168 / recordSizeQwords.toNat ≤ 168 := Nat.div_le_self _ _
  set ipb := BLOCK_DATA_SIZE_QWORDS / recordSizeQwords with hipbdef
  -- blocks of records, and the words of the ORAM, do not wrap
  set nb := recordCapacity / ipb + (if recordCapacity % ipb = 0 then 0 else 1) with hnbdef
  have hq' : (recordCapacity / ipb).toNat = recordCapacity.toNat / (168 / recordSizeQwords.toNat) := by
    rw [UInt64.toNat_div, hipb]
  have hnb : nb.toNat ≤ recordCapacity.toNat / (168 / recordSizeQwords.toNat) + 1 := by
    have hone : (if recordCapacity % ipb = 0 then (0 : UInt64) else 1).toNat ≤ 1 := by
      split_ifs <;> decide
    have hhalf : recordCapacity.toNat / (168 / recordSizeQwords.toNat) ≤ recordCapacity.toNat / 2 :=
      Nat.div_le_div_left hipb2 (by norm_num)
    rw [hnbdef, UInt64.toNat_add, Nat.mod_eq_of_lt (by omega), hq']
    omega
  have hnbipb : nb.toNat * (168 / recordSizeQwords.toNat) ≤
      recordCapacity.toNat + 168 / recordSizeQwords.toNat :=
    calc nb.toNat * (168 / recordSizeQwords.toNat)
        ≤ (recordCapacity.toNat / (168 / recordSizeQwords.toNat) + 1) *
          (168 / recordSizeQwords.toNat) := Nat.mul_le_mul_right _ hnb
      _ = recordCapacity.toNat / (168 / recordSizeQwords.toNat) * (168 / recordSizeQwords.toNat) +
          168 / recordSizeQwords.toNat := Nat.succ_mul _ _
      _ ≤ recordCapacity.toNat + 168 / recordSizeQwords.toNat :=
          Nat.add_le_add_right (Nat.div_mul_le_self _ _) _
  have hnb55 : nb.toNat ≤ 2 ^ 55 + 1 := by
    have hhalf : recordCapacity.toNat / (168 / recordSizeQwords.toNat) ≤ recordCapacity.toNat / 2 :=
      Nat.div_le_div_left hipb2 (by norm_num)
    omega
  have hwords : (nb * BLOCK_DATA_SIZE_QWORDS).toNat = nb.toNat * 168 := by
    rw [UInt64.toNat_mul, hq, Nat.mod_eq_of_lt (by omega)]
  -- the ORAM has `nb` blocks: `nb * BLOCK_DATA_SIZE_QWORDS` words are exactly `nb` blocks
  obtain ⟨hcb, hcb1⟩ := Oram.create_capacityBlocks hoc
  have hdivB : nb * BLOCK_DATA_SIZE_QWORDS / BLOCK_DATA_SIZE_QWORDS = nb :=
    UInt64.toNat_inj.1 (by rw [UInt64.toNat_div, hwords, hq, Nat.mul_div_cancel _ (by norm_num)])
  have hmodB : nb * BLOCK_DATA_SIZE_QWORDS % BLOCK_DATA_SIZE_QWORDS = 0 :=
    UInt64.toNat_inj.1 (by rw [UInt64.toNat_mod, hwords, hq, Nat.mul_mod_left, UInt64.toNat_zero])
  rw [hdivB, hmodB, if_pos rfl, UInt64.add_zero] at hcb
  rw [hdivB, hmodB, if_pos rfl, UInt64.add_zero] at hcb1
  have hcapN : (oram.capacityBlocks * ipb).toNat = nb.toNat * (168 / recordSizeQwords.toNat) := by
    rw [UInt64.toNat_mul, hcb, hipb, Nat.mod_eq_of_lt (by omega)]
  have hipbT : (Ohtable.create oram recordSizeQwords).itemsPerBlock.toNat =
      168 / recordSizeQwords.toNat := hipb
  refine ⟨hipbT ▸ hipb2, hipbT ▸ hipb168, ?_, ?_, ?_, rfl, rfl⟩
  · show (oram.capacityBlocks * ipb).toNat = oram.capacityBlocks.toNat * ipb.toNat
    rw [hcapN, hcb, hipb]
  · show 2 ≤ (oram.capacityBlocks * ipb).toNat
    rw [hcapN]
    exact le_trans hipb2 (Nat.le_mul_of_pos_left _ hcb1)
  · show (oram.capacityBlocks * ipb).toNat ≤ 2 ^ 62
    rw [hcapN]
    omega

/-- **The home slot is the hash modulo the capacity, inside the table.** For every table
`ohtable_create` builds with at least two records per block (`record_size_qwords ≤ 84`) and at
most `2^56` records, and every key: `ohtable_hash` places the key's home slot
`h = raw_hash(key) % capacity` at block `h / items_per_block`, below `num_blocks`, and index
`h % items_per_block`, and `ohtable_hash_from_location` gives `h` back. -/
theorem ohtableCreate_hash_exact {recordCapacity recordSizeQwords stashOverflowSize : UInt64}
    {draws : ℕ → UInt64} {t : Ohtable}
    (h : ohtableCreate recordCapacity recordSizeQwords stashOverflowSize draws = some t)
    (hrs : recordSizeQwords.toNat ≤ 84) (hcap : recordCapacity.toNat ≤ 2 ^ 56) (key : UInt64) :
    (ohtableHash t key).blockId < t.numBlocks ∧ (ohtableHash t key).index < t.itemsPerBlock ∧
      ohtableHashFromLocation t (ohtableHash t key) = rawHash key % t.capacity := by
  obtain ⟨hipb2, hipb168, hcapeq, hcap2, hcap62, hcapCt, hipbCt⟩ := ohtableCreate_shape h hrs hcap
  have hcapd : (2 : UInt64) ≤ t.capacity := UInt64.le_iff_toNat_le.2 hcap2
  have hipbd : (2 : UInt64) ≤ t.itemsPerBlock := UInt64.le_iff_toNat_le.2 hipb2
  -- the home slot, exact below the capacity
  have hslot : (ctMod (rawHash key) t.capacity t.capacityCt).toNat =
      (rawHash key).toNat % t.capacity.toNat := by
    rw [hcapCt, ctMod_toNat hcapd (by omega)]
  have hslotlt : (ctMod (rawHash key) t.capacity t.capacityCt).toNat < t.capacity.toNat := by
    rw [hslot]
    exact Nat.mod_lt _ (by omega)
  simp only [ohtableHash, Ohtable.hash, ohtableHashFromLocation]
  generalize ctMod (rawHash key) t.capacity t.capacityCt = s at hslot hslotlt ⊢
  have hblk : (ctDiv s t.itemsPerBlockCt).toNat = s.toNat / t.itemsPerBlock.toNat := by
    rw [hipbCt, ctDiv_toNat hipbd (by omega)]
  have hidx : (ctMod s t.itemsPerBlock t.itemsPerBlockCt).toNat = s.toNat % t.itemsPerBlock.toNat := by
    rw [hipbCt, ctMod_toNat hipbd (by omega)]
  have hdivmul : s.toNat / t.itemsPerBlock.toNat * t.itemsPerBlock.toNat ≤ s.toNat :=
    Nat.div_mul_le_self _ _
  refine ⟨?_, ?_, ?_⟩
  · rw [UInt64.lt_iff_toNat_lt, hblk, Nat.div_lt_iff_lt_mul (by omega)]
    rw [hcapeq] at hslotlt
    exact hslotlt
  · rw [UInt64.lt_iff_toNat_lt, hidx]
    exact Nat.mod_lt _ (by omega)
  · apply UInt64.toNat_inj.1
    have hs := s.toNat_lt
    have hmul : (ctDiv s t.itemsPerBlockCt * t.itemsPerBlock).toNat =
        s.toNat / t.itemsPerBlock.toNat * t.itemsPerBlock.toNat := by
      rw [UInt64.toNat_mul, hblk, Nat.mod_eq_of_lt (by omega)]
    rw [UInt64.toNat_add, hmul, hidx, Nat.div_add_mod', Nat.mod_eq_of_lt hs, hslot, UInt64.toNat_mod]

theorem ohtableCreate_hash_exact_seven :
    ∃ t, ohtableCreate 48 7 0 (fun _ => 0) = some t ∧ (7 : UInt64).toNat ≤ 84 ∧
      (48 : UInt64).toNat ≤ 2 ^ 56 ∧
      ∀ key, (ohtableHash t key).blockId < t.numBlocks ∧ (ohtableHash t key).index < t.itemsPerBlock ∧
        ohtableHashFromLocation t (ohtableHash t key) = rawHash key % t.capacity := by
  obtain ⟨t, ht⟩ : ∃ t, ohtableCreate 48 7 0 (fun _ => 0) = some t :=
    Option.isSome_iff_exists.1 (by decide)
  exact ⟨t, ht, by decide, by decide, ohtableCreate_hash_exact ht (by decide) (by decide)⟩

/-- **An absent key whose scan window holds no empty slot leaves the caller's buffer as it
was.** A table of records of seven words (24 per block, 48 slots): key `18` is put, then key
`66`, absent and with the same home slot `23` (the last of block `0`), is looked up with
`max_offset = 0`, so one block is scanned; slot `23` holds `18`, and the buffer keeps its words
instead of `UINT64_MAX`. -/
theorem ohtableGet_absent_key_keeps_buffer :
    (ohtableCreate 48 7 0 fun _ => 0).bind (fun t =>
      (ohtablePut t [18, 1, 2, 3, 4, 5, 6] fun _ => 0).bind fun (t, put) =>
        (ohtableGet t 66 [5, 5, 5, 5, 5, 5, 5] fun _ => 0).map fun (t, get) =>
          ((homeSlot t 18, homeSlot t 66), put, get)) =
      some ((23, 23), .ok (), .ok [5, 5, 5, 5, 5, 5, 5]) := by
  decide +kernel

/-- **A swap late in an upsert lowers `max_offset` below a displacement it made earlier.**
Records of seven words, 48 slots; keys `1912`, `1193` and `2571` have home `0`, `55` home `2`
and `54` home `3`, and `2571` has the smallest full hash of the three. Putting `1912`, `1193`,
`55`, `54` fills slots `0 … 3`; putting `2571` swaps it into slot `2` (offset `2`), carries
`55` one slot on, where swapping it records offset `1`, and stores `54` in slot `4`. The table
ends with `max_offset = 1` and a record at offset `2`. -/
theorem ohtablePut_swap_lowers_maxOffset :
    ((ohtableCreate 48 7 0 fun _ => 0).bind fun t =>
      ohtableRun (fun _ => 0) t
        ([1912, 1193, 55, 54, 2571].map fun k => .put [k, 1, 2, 3, 4, 5, 6])).map (fun t =>
          (t.maxOffset, (ohtableSlot t 2).getD 0 0, slotOffset t 2, displacementBounded t)) =
      some (1, 2571, 2, false) := by
  decide +kernel

/-- **With one record per block a record is stored before its home.** Records of `85` words
(one per block), three slots: key `3` has home slot `2`, which `ohtable_hash` locates at block
`0`, index `2`; the search skips block `0` and stores the record in slot `1`, with slots `2` and
`0` of its probe chain empty. -/
theorem ohtablePut_one_per_block_breaks_chain :
    ((ohtableCreate 3 85 0 fun _ => 0).bind fun t =>
      ohtableRun (fun _ => 0) t [.put (3 :: List.replicate 84 1)]).map (fun t =>
        (homeSlot t 3, ohtableHash t 3, (List.range 3).map fun s => (ohtableSlot t s).getD 0 0,
          probeChainInvariant t)) =
      some (2, ⟨0, 2⟩, [UINT64_MAX, 3, UINT64_MAX], false) := by
  decide +kernel

end ContactDiscovery
