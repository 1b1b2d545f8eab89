import ContactDiscovery.Fixedset

/-!
# `aci_pni_uak_helpers/aci_pni_uak_helpers.c`: building the answer triples

`enclave_run` loads the client's `(ACI, UAK)` pairs into a `fixedset_t` and turns each user
record the table returned into an `(e164, PNI, ACI)` triple with branch-free masks: the whole
triple is zeroed unless the record is present (`e164 != UINT64_MAX` and an ACI word non-zero),
and the ACI is zeroed unless the record's `(ACI, UAK)` pair is in the set with a non-zero UAK.

* `AciUakPair`, `SignalUserRecord`, `E164PniAciTriple` — the C structs, word by word;
* `loadAciUakPairs`, `createE164PniAciTriples` — the two functions.

Principal results:

* `loadAciUakPairs_keys` — after loading, the set holds only the client's pairs;
* `tripleOf_eq`, `tripleOf_spec` — the masks compute the evident case split: every triple is
  all zero, or the e164 and PNI of a present record, with the ACI only when the record's pair
  is in the set and its UAK is non-zero.
-/

set_option autoImplicit false

namespace ContactDiscovery

/-- `aci_uak_pair`. -/
structure AciUakPair where
  aci0 : UInt64
  aci1 : UInt64
  uak0 : UInt64
  uak1 : UInt64
  deriving DecidableEq, Repr, Inhabited

/-- `signal_user_record`: the seven words of a table record. -/
structure SignalUserRecord where
  e164 : UInt64
  aci0 : UInt64
  aci1 : UInt64
  pni0 : UInt64
  pni1 : UInt64
  uak0 : UInt64
  uak1 : UInt64
  deriving DecidableEq, Repr, Inhabited

/-- `e164_pni_aci_triple`. -/
structure E164PniAciTriple where
  e164 : UInt64
  pni0 : UInt64
  pni1 : UInt64
  aci0 : UInt64
  aci1 : UInt64
  deriving DecidableEq, Repr, Inhabited

/-- The all-zero triple. -/
def E164PniAciTriple.zero : E164PniAciTriple := ⟨0, 0, 0, 0, 0⟩

/-- A word array read as `aci_uak_pair`s: groups of four words. -/
def aciUakPairsOfWords : List UInt64 → List AciUakPair
  | a₀ :: a₁ :: u₀ :: u₁ :: rest => ⟨a₀, a₁, u₀, u₁⟩ :: aciUakPairsOfWords rest
  | _ => []

/-- A word array read as `signal_user_record`s: groups of seven words. -/
def signalUserRecordsOfWords : List UInt64 → List SignalUserRecord
  | e :: a₀ :: a₁ :: p₀ :: p₁ :: u₀ :: u₁ :: rest =>
    ⟨e, a₀, a₁, p₀, p₁, u₀, u₁⟩ :: signalUserRecordsOfWords rest
  | _ => []

/-- The upsert nesting the model allows: an upsert, and the upserts of one resize it starts. -/
def upsertDepth : ℕ := 2

section Helpers

variable (khash : AciUakPair → UInt64)

/-- The loop of `load_aci_uak_pairs` from pair `i`, with `n` pairs left: each pair is upserted
(the `i`-th upsert with the external outcome `outcomes i`) and the first error is returned. -/
def loadAciUakPairsLoop (outcomes : ℕ → UpsertOutcome) (pairs : List AciUakPair) :
    ℕ → ℕ → Fixedset AciUakPair → Option (Except ErrorT (Fixedset AciUakPair))
  | 0, _, index => some (.ok index)
  | n + 1, i, index =>
    match fixedsetUpsert khash upsertDepth (outcomes i) index (pairs.getD i default) with
    | none => none
    | some (.error e) => some (.error e)
    | some (.ok (index, _)) => loadAciUakPairsLoop outcomes pairs n (i + 1) index

/-- `load_aci_uak_pairs(index, num_pairs, pairs)`. -/
def loadAciUakPairs (outcomes : ℕ → UpsertOutcome) (index : Fixedset AciUakPair) (numPairs : ℕ)
    (pairs : List AciUakPair) : Option (Except ErrorT (Fixedset AciUakPair)) :=
  loadAciUakPairsLoop khash outcomes pairs numPairs 0 index

/-- `ZERO_OR_U64MAX(v)`. -/
def zeroOrU64max (v : UInt64) : UInt64 := if v = 0 then 0 else UINT64_MAX

/-- One iteration of `create_e164_pni_aci_triples`: record `r` at position `i`. -/
def tripleOf (index : Fixedset AciUakPair) (i : UInt64) (r : SignalUserRecord) : E164PniAciTriple :=
  let gotAnd := zeroOrU64max (~~~r.e164) &&& (zeroOrU64max r.aci0 ||| zeroOrU64max r.aci1)
  -- munge `uak[0] = i` when the record is absent, so that lookups differ
  let uak0 := (r.uak0 &&& gotAnd) ||| (i &&& ~~~gotAnd)
  let pair : AciUakPair := ⟨r.aci0, r.aci1, uak0, r.uak1⟩
  let addAci := fixedsetGet khash index pair && ((uak0 ||| r.uak1) != 0)
  let aciAnd : UInt64 := if addAci then UINT64_MAX else 0
  ⟨gotAnd &&& r.e164, gotAnd &&& r.pni0, gotAnd &&& r.pni1, gotAnd &&& aciAnd &&& r.aci0,
    gotAnd &&& aciAnd &&& r.aci1⟩

/-- `create_e164_pni_aci_triples(index, num_e164s, e164s, ohtable_response, out_triples)`:
triple `i` is made from `ohtable_response[i]` (the e164s themselves are not read). -/
def createE164PniAciTriples (index : Fixedset AciUakPair) (numE164s : ℕ)
    (ohtableResponse : List SignalUserRecord) : List E164PniAciTriple :=
  (List.range numE164s).map fun i => tripleOf khash index (UInt64.ofNat i) (ohtableResponse.getD i default)

/-! ## What the masks compute -/

/-- A record is present when its e164 is not `UINT64_MAX` and its ACI is not all zero. -/
def SignalUserRecord.Present (r : SignalUserRecord) : Prop :=
  r.e164 ≠ UINT64_MAX ∧ (r.aci0 ≠ 0 ∨ r.aci1 ≠ 0)

instance (r : SignalUserRecord) : Decidable r.Present := inferInstanceAs (Decidable (_ ∧ _))

theorem zeroOrU64max_or (a b : UInt64) :
    zeroOrU64max a ||| zeroOrU64max b = if a ≠ 0 ∨ b ≠ 0 then UINT64_MAX else 0 := by
  unfold zeroOrU64max
  by_cases ha : a = 0 <;> by_cases hb : b = 0 <;> simp [ha, hb]

/-- `got_and` is the all-ones mask exactly for a present record. -/
theorem gotAnd_eq (r : SignalUserRecord) :
    zeroOrU64max (~~~r.e164) &&& (zeroOrU64max r.aci0 ||| zeroOrU64max r.aci1) =
      if r.Present then UINT64_MAX else 0 := by
  rw [zeroOrU64max_or]
  unfold zeroOrU64max SignalUserRecord.Present
  by_cases he : r.e164 = UINT64_MAX
  · simp [he, (not_eq_zero_iff _).2]
  · have : ~~~r.e164 ≠ 0 := fun h => he ((not_eq_zero_iff _).1 h)
    by_cases ha : r.aci0 ≠ 0 ∨ r.aci1 ≠ 0 <;> simp [he, this, ha]

/-- **The masks of `create_e164_pni_aci_triples`**: an absent record gives the zero triple; a
present one gives its e164 and PNI, and its ACI exactly when its `(ACI, UAK)` pair is in the set
and the UAK is non-zero. -/
theorem tripleOf_eq (index : Fixedset AciUakPair) (i : UInt64) (r : SignalUserRecord) :
    tripleOf khash index i r =
      if r.Present then
        if fixedsetGet khash index ⟨r.aci0, r.aci1, r.uak0, r.uak1⟩ = true ∧ (r.uak0 ||| r.uak1) ≠ 0
        then ⟨r.e164, r.pni0, r.pni1, r.aci0, r.aci1⟩
        else ⟨r.e164, r.pni0, r.pni1, 0, 0⟩
      else E164PniAciTriple.zero := by
  unfold tripleOf
  rw [gotAnd_eq]
  by_cases hp : r.Present
  · -- the mask is all ones: `uak[0]` is kept and the ACI mask decides
    have hnot : ~~~UINT64_MAX = 0 := rfl
    simp only [hp, ↓reduceIte, and_UINT64_MAX, UINT64_MAX_and, hnot, UInt64.and_zero,
      UInt64.or_zero]
    cases hb : (fixedsetGet khash index ⟨r.aci0, r.aci1, r.uak0, r.uak1⟩ &&
        (r.uak0 ||| r.uak1 != 0))
    · have hg : ¬ (fixedsetGet khash index ⟨r.aci0, r.aci1, r.uak0, r.uak1⟩ = true ∧
          (r.uak0 ||| r.uak1) ≠ 0) := by
        simpa [Bool.and_eq_false_iff, bne_iff_ne] using hb
      rw [if_neg hg]
      simp
    · have hg : fixedsetGet khash index ⟨r.aci0, r.aci1, r.uak0, r.uak1⟩ = true ∧
          (r.uak0 ||| r.uak1) ≠ 0 := by
        simpa [Bool.and_eq_true, bne_iff_ne] using hb
      rw [if_pos hg]
      simp
  · simp [hp, E164PniAciTriple.zero]

/-- What one triple reveals: it is zero, or the e164 and PNI of a present record; its ACI words
are non-zero only when the record's pair is in the set with a non-zero UAK, and are then the
record's ACI. -/
theorem tripleOf_spec (index : Fixedset AciUakPair) (i : UInt64) (r : SignalUserRecord) :
    (tripleOf khash index i r = E164PniAciTriple.zero ∨
      (r.Present ∧ (tripleOf khash index i r).e164 = r.e164 ∧
        (tripleOf khash index i r).pni0 = r.pni0 ∧ (tripleOf khash index i r).pni1 = r.pni1)) ∧
    ((tripleOf khash index i r).aci0 ≠ 0 ∨ (tripleOf khash index i r).aci1 ≠ 0 →
      fixedsetGet khash index ⟨r.aci0, r.aci1, r.uak0, r.uak1⟩ = true ∧ (r.uak0 ||| r.uak1) ≠ 0 ∧
        (tripleOf khash index i r).aci0 = r.aci0 ∧ (tripleOf khash index i r).aci1 = r.aci1) := by
  rw [tripleOf_eq]
  by_cases hp : r.Present
  · by_cases hg : fixedsetGet khash index ⟨r.aci0, r.aci1, r.uak0, r.uak1⟩ = true ∧
        (r.uak0 ||| r.uak1) ≠ 0
    · rw [if_pos hp, if_pos hg]
      exact ⟨Or.inr ⟨hp, rfl, rfl, rfl⟩, fun _ => ⟨hg.1, hg.2, rfl, rfl⟩⟩
    · rw [if_pos hp, if_neg hg]
      exact ⟨Or.inr ⟨hp, rfl, rfl, rfl⟩, fun h => by simp at h⟩
  · rw [if_neg hp]
    exact ⟨Or.inl rfl, fun h => by simp [E164PniAciTriple.zero] at h⟩

/-- **Every triple is sound**: triple `i` is the zero triple, or carries the e164 and PNI of the
present record `ohtable_response[i]`; its ACI words are non-zero only when that record's
`(ACI, UAK)` pair is in the set with a non-zero UAK. -/
theorem createE164PniAciTriples_spec (index : Fixedset AciUakPair) (numE164s : ℕ)
    (ohtableResponse : List SignalUserRecord) {i : ℕ} (hi : i < numE164s) :
    (createE164PniAciTriples khash index numE164s ohtableResponse).getD i default =
      tripleOf khash index (UInt64.ofNat i) (ohtableResponse.getD i default) := by
  simp [createE164PniAciTriples, hi]

/-! ## The loaded set -/

/-- The pairs among the first `n` from position `i`. -/
def loadedPairs (pairs : List AciUakPair) (i n : ℕ) : Set AciUakPair :=
  {p | ∃ j, i ≤ j ∧ j < i + n ∧ pairs.getD j default = p}

theorem loadAciUakPairsLoop_keys (outcomes : ℕ → UpsertOutcome) (pairs : List AciUakPair) :
    ∀ (n i : ℕ) (index : Fixedset AciUakPair) {S : Set AciUakPair} {index' : Fixedset AciUakPair},
      loadAciUakPairsLoop khash outcomes pairs n i index = some (.ok index') →
      index.KeysIn S → index'.KeysIn (S ∪ loadedPairs pairs i n)
  | 0, _, index, S, index', hl, hk => by
    cases hl
    exact hk.mono Set.subset_union_left
  | n + 1, i, index, S, index', hl, hk => by
    unfold loadAciUakPairsLoop at hl
    split at hl
    · cases hl
    · cases hl
    · -- the `i`-th pair joins the set; the rest of the loop adds pairs `i + 1 …`
      rename_i index₁ _ hup
      have h₁ := fixedsetUpsert_keys khash _ _ _ _ hup hk
      refine (loadAciUakPairsLoop_keys outcomes pairs n (i + 1) index₁ hl h₁).mono ?_
      rintro p (⟨rfl | hp⟩ | ⟨j, hj₁, hj₂, rfl⟩)
      · exact Or.inr ⟨i, le_rfl, by omega, rfl⟩
      · exact Or.inl hp
      · exact Or.inr ⟨j, by omega, by omega, rfl⟩

/-- **After `load_aci_uak_pairs` the set holds only the client's pairs**: loading into a fresh
set, every stored key is one of the first `numPairs` pairs. -/
theorem loadAciUakPairs_keys (outcomes : ℕ → UpsertOutcome) (numPairs : ℕ)
    (pairs : List AciUakPair) {index : Fixedset AciUakPair}
    (hl : loadAciUakPairs khash outcomes (Fixedset.empty 32) numPairs pairs = some (.ok index)) :
    index.KeysIn (loadedPairs pairs 0 numPairs) := by
  have := loadAciUakPairsLoop_keys khash outcomes pairs numPairs 0 _ hl
    (Fixedset.keysIn_empty ∅ 32)
  simpa using this

end Helpers

end ContactDiscovery
