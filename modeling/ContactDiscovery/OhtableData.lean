import Mathlib
import ContactDiscovery.Ohtable
import ContactDiscovery.PathOram.Provenance

/-!
# What an ohtable's blocks hold

The table reaches its ORAM only through `oram_function_access` with its two accessors, so the
provenance rules of `PathOram.Provenance` apply to it:

* `ohtableGet_dataIn` — a lookup keeps the ORAM's blocks in any set `S` of block words that
  holds the empty block's, and it leaves in its buffer the words it was given or an empty or
  matching record of a block with words in `S` (`LookupResult`);
* `ohtablePut_blockSized` — an upsert keeps every block `BLOCK_DATA_SIZE_QWORDS` words long,
  for a record of at least `record_size_qwords` words, as the C arrays are.
-/

set_option autoImplicit false

namespace ContactDiscovery

/-! ## Lookups -/

/-- What a lookup of `key` in records of `rs` words can leave in its buffer: the words it was
given, or an empty or matching record of a block with words in `S`. -/
def LookupResult (S : Set (List UInt64)) (before : List UInt64) (key rs : UInt64)
    (r : List UInt64) : Prop :=
  r = before ∨ ∃ d ∈ S, ∃ j < (BLOCK_DATA_SIZE_QWORDS / rs).toNat,
    r = recordAt d j rs.toNat ∧ recordEmptyOrMatches r key = true

/-- The arguments of a lookup of `key` in records of `rs` words from the buffer `before`. -/
def GetArgsFrom (S : Set (List UInt64)) (before : List UInt64) (key rs : UInt64)
    (args : GetRecordAccessorArgs) : Prop :=
  args.key = key ∧ args.recordSizeQwords = rs ∧ LookupResult S before key rs args.outRecord

/-- `get_record_accessor` returns the block's words as they are, and copies at most records of
them that are empty or match the key. -/
theorem getRecordAccessor_spec (args : GetRecordAccessorArgs) (d : List UInt64) :
    ∃ args', getRecordAccessor args d = some (.ok (d, args')) ∧ args'.key = args.key ∧
      args'.recordSizeQwords = args.recordSizeQwords ∧
      (args'.outRecord = args.outRecord ∨
        ∃ j < (BLOCK_DATA_SIZE_QWORDS / args.recordSizeQwords).toNat,
          args'.outRecord = recordAt d j args.recordSizeQwords.toNat ∧
          recordEmptyOrMatches args'.outRecord args.key = true) := by
  refine ⟨_, rfl, ?_⟩
  refine List.foldlRecOn (motive := fun (a : GetRecordAccessorArgs) => a.key = args.key ∧
      a.recordSizeQwords = args.recordSizeQwords ∧ (a.outRecord = args.outRecord ∨
        ∃ j < (BLOCK_DATA_SIZE_QWORDS / args.recordSizeQwords).toNat,
          a.outRecord = recordAt d j args.recordSizeQwords.toNat ∧
          recordEmptyOrMatches a.outRecord args.key = true)) _ _ ⟨rfl, rfl, Or.inl rfl⟩ ?_
  rintro a ⟨hkey, hrs, hout⟩ i hi
  refine ⟨hkey, hrs, ?_⟩
  dsimp only
  split
  · -- record `i` is copied: it is empty or matches
    rename_i hcopy
    simp only [Bool.and_eq_true] at hcopy
    rw [List.mem_range] at hi
    refine Or.inr ⟨i, hi, rfl, ?_⟩
    rw [← hkey]
    exact hcopy.1.2
  · exact hout

section Lookup

variable {S : Set (List UInt64)} {before : List UInt64} {key rs : UInt64}

theorem getRecordAccessor_getArgsFrom {args args' : GetRecordAccessorArgs} {d d' : List UInt64}
    (hd : d ∈ S) (ha : GetArgsFrom S before key rs args)
    (h : getRecordAccessor args d = some (.ok (d', args'))) :
    d' = d ∧ GetArgsFrom S before key rs args' := by
  obtain ⟨args₁, hspec, hkey, hrs, hout⟩ := getRecordAccessor_spec args d
  rw [hspec] at h
  cases h
  obtain ⟨hkey₀, hrs₀, hout₀⟩ := ha
  refine ⟨rfl, hkey.trans hkey₀, hrs.trans hrs₀, ?_⟩
  rcases hout with hsame | ⟨j, hj, hr, hm⟩
  · rw [hsame]
    exact hout₀
  · rw [hkey₀] at hm
    rw [hrs₀] at hj hr
    exact Or.inr ⟨d, hd, j, hj, hr, hm⟩

variable (hE : Block.empty.data ∈ S)
include hE

/-- The block scan of `ohtable_get`: every access keeps the blocks in `S` and the buffer a
`LookupResult`. -/
theorem ohtableGetLoop_dataIn (t : Ohtable) (draws : ℕ → UInt64) :
    ∀ (n k : ℕ) {oram oram' : Oram} {blockId : UInt64} {args : GetRecordAccessorArgs}
      {res : Except ErrorT GetRecordAccessorArgs},
      OramDataIn S oram → GetArgsFrom S before key rs args →
      ohtableGetLoop t draws n k oram blockId args = some (oram', res) →
      OramDataIn S oram' ∧ ∀ args', res = .ok args' → GetArgsFrom S before key rs args'
  | 0, _, oram, oram', _, args, res, ho, ha, h => by
    cases h
    exact ⟨ho, fun args' h' => by cases h'; exact ha⟩
  | n + 1, k, oram, oram', blockId, args, res, ho, ha, h => by
    unfold ohtableGetLoop at h
    obtain ⟨⟨oram₁, res₁⟩, hacc, h⟩ := Option.bind_eq_some_iff.1 h
    -- the accessor returns the block's words unchanged
    have hread : ∀ d ∈ S, ∀ d' out, getRecordAccessor args d = some (.ok (d', out)) → d' ∈ S := by
      intro d hd d' out hg
      rw [(getRecordAccessor_getArgsFrom hd ha hg).1]
      exact hd
    obtain ⟨ho₁, hout⟩ := oramFunctionAccess_dataIn hE ho hread hacc
    rcases res₁ with e | args₁
    · cases h
      exact ⟨ho₁, fun args' h' => by cases h'⟩
    · obtain ⟨d, hd, d', hg⟩ := hout args₁ rfl
      have ha₁ := (getRecordAccessor_getArgsFrom hd ha hg).2
      -- the next block's scan starts at record `0`; the arguments are otherwise those returned
      have ha₁' : GetArgsFrom S before key rs { args₁ with startIndex := 0 } := ha₁
      exact ohtableGetLoop_dataIn t draws n (k + 1) ho₁ ha₁' h

/-- **A lookup returns what the table held.** A lookup keeps the ORAM's blocks in `S`, changes
nothing of the table but its ORAM, and leaves in the buffer the words it was given or an empty or
matching record of a block with words in `S`. -/
theorem ohtableGet_dataIn {t t' : Ohtable} {draws : ℕ → UInt64} {res : Except ErrorT (List UInt64)}
    (ht : OramDataIn S t.oram) (h : ohtableGet t key before draws = some (t', res)) :
    OramDataIn S t'.oram ∧ t' = { t with oram := t'.oram } ∧
      ∀ r, res = .ok r → LookupResult S before key t.recordSizeQwords r := by
  unfold ohtableGet at h
  obtain ⟨⟨oram, res₁⟩, hloop, heq⟩ := Option.map_eq_some_iff.1 h
  have hargs₀ : GetArgsFrom S before key t.recordSizeQwords
      { recordSizeQwords := t.recordSizeQwords, startIndex := (ohtableHash t key).index,
        searchComplete := false, outRecord := before, key } := ⟨rfl, rfl, Or.inl rfl⟩
  obtain ⟨ho, hargs⟩ := ohtableGetLoop_dataIn hE t draws _ 0 ht hargs₀ hloop
  rcases res₁ with e | args
  · cases heq
    exact ⟨ho, rfl, fun r hr => by cases hr⟩
  · cases heq
    exact ⟨ho, rfl, fun r hr => by cases hr; exact (hargs args rfl).2.2⟩

end Lookup

/-! ## Block sizes -/

theorem recordAt_length {d : List UInt64} {i size : ℕ} (h : (i + 1) * size ≤ d.length) :
    (recordAt d i size).length = size := by
  rw [Nat.succ_mul] at h
  simp only [recordAt, List.length_take, List.length_drop]
  omega

theorem setRecord_length {d r : List UInt64} {i size : ℕ} (h : (i + 1) * size ≤ d.length)
    (hr : r.length = size) : (setRecord d i size r).length = d.length := by
  rw [Nat.succ_mul] at h
  simp only [setRecord, List.length_append, List.length_take, List.length_drop, hr,
    Nat.succ_mul]
  omega

/-- The words of a block of `BLOCK_DATA_SIZE_QWORDS` words. -/
def BlockSized : Set (List UInt64) := {d | d.length = BLOCK_DATA_SIZE_QWORDS.toNat}

theorem empty_mem_blockSized : Block.empty.data ∈ BlockSized := by
  simp [BlockSized, Block.empty]

/-- One record of `robinhood_accessor` keeps the block's size and a carried record of
`record_size_qwords` words. -/
theorem robinhoodAccessorStep_sized {acc : List UInt64 × RobinhoodAccessorArgs × Bool} {i : ℕ}
    (hd : acc.1.length = BLOCK_DATA_SIZE_QWORDS.toNat)
    (hr : acc.2.1.inRecord.length = acc.2.1.recordSizeQwords.toNat)
    (hi : (i + 1) * acc.2.1.recordSizeQwords.toNat ≤ BLOCK_DATA_SIZE_QWORDS.toNat) :
    (robinhoodAccessorStep acc i).1.length = BLOCK_DATA_SIZE_QWORDS.toNat ∧
      (robinhoodAccessorStep acc i).2.1.inRecord.length =
        (robinhoodAccessorStep acc i).2.1.recordSizeQwords.toNat ∧
      (robinhoodAccessorStep acc i).2.1.recordSizeQwords = acc.2.1.recordSizeQwords := by
  obtain ⟨d, args, inserted⟩ := acc
  dsimp only at hd hr hi
  have hc := recordAt_length (d := d) (i := i) (hd ▸ hi)
  simp only [robinhoodAccessorStep]
  split_ifs <;> dsimp only <;>
    exact ⟨by rw [setRecord_length (hd ▸ hi) (by assumption), hd], by assumption, trivial⟩

/-- `robinhood_accessor` keeps the block's size and a carried record of `record_size_qwords`
words. -/
theorem robinhoodAccessor_sized {args args' : RobinhoodAccessorArgs} {d d' : List UInt64}
    (hd : d ∈ BlockSized) (hr : args.inRecord.length = args.recordSizeQwords.toNat)
    (h : robinhoodAccessor args d = some (.ok (d', args'))) :
    d' ∈ BlockSized ∧ args'.inRecord.length = args'.recordSizeQwords.toNat ∧
      args'.recordSizeQwords = args.recordSizeQwords := by
  unfold robinhoodAccessor at h
  have hfold := Fold.foldl_range_inv (F := robinhoodAccessorStep) (a := (d, args, false))
    (n := (BLOCK_DATA_SIZE_QWORDS / args.recordSizeQwords).toNat)
    (fun _ acc => acc.1.length = BLOCK_DATA_SIZE_QWORDS.toNat ∧
      acc.2.1.inRecord.length = acc.2.1.recordSizeQwords.toNat ∧
      acc.2.1.recordSizeQwords = args.recordSizeQwords) ⟨hd, hr, rfl⟩ ?_
  · simp only [Option.some.injEq, Except.ok.injEq] at h
    obtain ⟨hd', hr', hrs'⟩ := hfold
    simp only [Prod.mk.injEq] at h
    obtain ⟨rfl, rfl⟩ := h
    exact ⟨hd', hr', hrs'⟩
  · rintro i acc hi ⟨hd₁, hr₁, hrs₁⟩
    -- record `i` lies inside the block
    have hfit : (i + 1) * acc.2.1.recordSizeQwords.toNat ≤ BLOCK_DATA_SIZE_QWORDS.toNat := by
      rw [UInt64.toNat_div, ← hrs₁] at hi
      exact (Nat.le_div_iff_mul_le (Nat.pos_of_ne_zero fun h0 => by simp [h0] at hi)).1 hi
    obtain ⟨hd₂, hr₂, hrs₂⟩ := robinhoodAccessorStep_sized hd₁ hr₁ hfit
    exact ⟨hd₂, hr₂, hrs₂.trans hrs₁⟩

/-- The upsert loop keeps every block of the ORAM `BLOCK_DATA_SIZE_QWORDS` words long. -/
theorem ohtablePutLoop_sized (t : Ohtable) (draws : ℕ → UInt64) :
    ∀ (fuel k : ℕ) {oram oram' : Oram} {blockId : UInt64} {args : RobinhoodAccessorArgs}
      {res : Except ErrorT RobinhoodAccessorArgs},
      OramDataIn BlockSized oram → args.inRecord.length = args.recordSizeQwords.toNat →
      ohtablePutLoop t draws fuel k oram blockId args = some (oram', res) →
      OramDataIn BlockSized oram'
  | 0, _, _, _, _, _, _, _, _, h => by cases h
  | fuel + 1, k, oram, oram', blockId, args, res, ho, hr, h => by
    unfold ohtablePutLoop at h
    split at h
    · cases h
      exact ho
    · obtain ⟨⟨oram₁, res₁⟩, hacc, h⟩ := Option.bind_eq_some_iff.1 h
      obtain ⟨ho₁, hout⟩ := oramFunctionAccess_dataIn empty_mem_blockSized ho
        (fun d hd d' out hrob => (robinhoodAccessor_sized hd hr hrob).1) hacc
      rcases res₁ with e | args₁
      · cases h
        exact ho₁
      · obtain ⟨d, hd, d', hrob⟩ := hout args₁ rfl
        -- the next block starts at record `0` with the record carried so far
        exact @ohtablePutLoop_sized t draws fuel (k + 1) oram₁ oram' (nextBlockId t blockId)
          { args₁ with startIndex := 0 } res ho₁ (robinhoodAccessor_sized hd hr hrob).2.1 h

/-- **An upsert keeps the blocks their size**: for a record of at least `record_size_qwords`
words, as the C arrays are, every block of the ORAM stays `BLOCK_DATA_SIZE_QWORDS` words long. -/
theorem ohtablePut_blockSized {t t' : Ohtable} {record : List UInt64} {draws : ℕ → UInt64}
    {res : Except ErrorT Unit} (ht : OramDataIn BlockSized t.oram)
    (hrec : t.recordSizeQwords.toNat ≤ record.length) (h : ohtablePut t record draws = some (t', res)) :
    OramDataIn BlockSized t'.oram ∧ t'.recordSizeQwords = t.recordSizeQwords := by
  unfold ohtablePut at h
  split at h
  · cases h
    exact ⟨ht, rfl⟩
  · obtain ⟨⟨oram, res₁⟩, hloop, heq⟩ := Option.map_eq_some_iff.1 h
    have ho := ohtablePutLoop_sized t draws _ 0 ht (by simp; omega) hloop
    rcases res₁ with e | args <;> cases heq <;> exact ⟨ho, rfl⟩

/-- A new table's blocks are empty ones, of `BLOCK_DATA_SIZE_QWORDS` words. -/
theorem ohtableCreate_blockSized {recordCapacity rs stashOverflowSize : UInt64}
    {draws : ℕ → UInt64} {t : Ohtable}
    (h : ohtableCreate recordCapacity rs stashOverflowSize draws = some t) :
    OramDataIn BlockSized t.oram ∧ t.recordSizeQwords = rs := by
  unfold ohtableCreate at h
  split at h
  · cases h
  · simp only at h
    split at h
    · cases h
    · obtain ⟨oram, hoc, rfl⟩ := Option.map_eq_some_iff.1 h
      exact ⟨(Oram.create_dataIn empty_mem_blockSized hoc).allocateContiguous _, rfl⟩

end ContactDiscovery
