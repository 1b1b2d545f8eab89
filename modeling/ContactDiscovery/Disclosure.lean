import Mathlib
import ContactDiscovery.ClientLifecycle
import ContactDiscovery.ShardedLookup

/-!
# What `enclave_run` discloses

`enclave_run` answers a client with one triple per e164 it asked for. Each triple is made by
`create_e164_pni_aci_triples` from the record `sharded_ohtable_get_batch` returned at that place,
masked by the set of the client's `(ACI, UAK)` pairs that `load_aci_uak_pairs` built. Three
results meet here: the lookup returns only absent records or requested records of the table
(`shardedOhtableGetBatch_sound`), the masks zero an absent record and keep an ACI only for a pair
in the set (`tripleOf_spec`), and the set holds only the client's pairs (`loadAciUakPairs_keys`,
`fixedsetGet_sound`). `halfsiphash` is the outcome's arbitrary `sipHash`.

* `Enclave.LooksUpIn` — the enclave's `getBatch` is `sharded_ohtable_get_batch` on a table, as
  it is for `Enclave.withTable` (`Enclave.withTable_looksUpIn`);
* `TripleSound` — what a triple may disclose;
* `enclaveRun_triples_sound` — every triple of a successful `enclave_run` is sound, and the
  triple of an absent record is zero, for a well-formed table: every table of a run of the
  table's batches is one (`ShardedOhtable.Reachable.invariant`).
-/

set_option autoImplicit false

namespace ContactDiscovery

/-- The enclave's lookup is `sharded_ohtable_get_batch(g_table, num_e164s, e164s, user_records)`
on the table `T`: the records it returns are those of the results of a successful batch. -/
def Enclave.LooksUpIn (g : Enclave) (T : ShardedOhtable) : Prop :=
  ∀ keys recs, g.getBatch keys = .ok recs →
    ∃ draws T' results,
      shardedOhtableGetBatch T keys.length keys draws = some (T', results, .ok ()) ∧
        recs = signalUserRecordsOfWords results

/-- What a response triple may disclose to a client that asked for `e164s` and loaded the pairs
`pairs`: nothing, or the e164 and PNI of a present record of the table with one of those e164s,
and that record's ACI (and no other) only when its `(ACI, UAK)` pair is among `pairs` with a
non-zero UAK. -/
def TripleSound (T : ShardedOhtable) (e164s : List UInt64) (pairs : Set AciUakPair)
    (t : E164PniAciTriple) : Prop :=
  t = E164PniAciTriple.zero ∨
    ∃ r, T.HoldsRecord r ∧ r.Present ∧ r.e164 ∈ e164s ∧
      t.e164 = r.e164 ∧ t.pni0 = r.pni0 ∧ t.pni1 = r.pni1 ∧
      (t.aci0 ≠ 0 ∨ t.aci1 ≠ 0 →
        t.aci0 = r.aci0 ∧ t.aci1 = r.aci1 ∧
          ⟨r.aci0, r.aci1, r.uak0, r.uak1⟩ ∈ pairs ∧ (r.uak0, r.uak1) ≠ (0, 0))

theorem or_ne_zero_iff (a b : UInt64) : (a ||| b) ≠ 0 ↔ (a, b) ≠ (0, 0) := by
  rw [ne_eq, ne_eq, UInt64.or_eq_zero_iff, Prod.mk.injEq]

/-- **A triple is sound when its record is absent or a requested record of the table.** -/
theorem tripleOf_sound {T : ShardedOhtable} {e164s : List UInt64} {pairs : Set AciUakPair}
    {khash : AciUakPair → UInt64} {index : Fixedset AciUakPair} (hindex : index.KeysIn pairs)
    (i : UInt64) {r : SignalUserRecord} (hr : ¬ r.Present ∨ (T.HoldsRecord r ∧ r.e164 ∈ e164s)) :
    TripleSound T e164s pairs (tripleOf khash index i r) := by
  obtain ⟨hzero, haci⟩ := tripleOf_spec khash index i r
  rcases hzero with hzero | ⟨hp, he, hp0, hp1⟩
  · exact Or.inl hzero
  · obtain ⟨hheld, hmem⟩ := hr.resolve_left (not_not.2 hp)
    refine Or.inr ⟨r, hheld, hp, hmem, he, hp0, hp1, fun hne => ?_⟩
    obtain ⟨hget, huak, ha0, ha1⟩ := haci hne
    exact ⟨ha0, ha1, fixedsetGet_sound khash hindex hget, (or_ne_zero_iff _ _).1 huak⟩

/-- **No ACI is disclosed without its UAK.** For every well-formed table and every successful
`enclave_run` whose lookup is the table's: every triple of the response is zero, or carries the
e164 and PNI of a present record of the table whose e164 the client asked for (the e164s the
merge loop built from its previous and new e164s), and carries an ACI only when that record's
`(ACI, UAK)` pair, with a non-zero UAK, is among the pairs `load_aci_uak_pairs` loaded from the
request; and the triple of a record that is not present (e164 `UINT64_MAX`, or a zero ACI) is
zero. -/
theorem enclaveRun_triples_sound {T : ShardedOhtable} (hT : T.WellFormed) {g : Enclave}
    (hg : g.LooksUpIn T) {o : RunOutcome} {permits : UInt32} {m m' : Option Client}
    {out : RunOutput} (h : enclaveRun g o permits m = some (m', .ok out)) :
    ∃ c req recs, m = some c ∧ c.req = some req ∧
      out.e164s = enclaveRunE164s req.prevE164s req.newE164s ∧ g.getBatch out.e164s = .ok recs ∧
      (∀ t ∈ out.response.e164PniAciTriples, TripleSound T out.e164s
        (loadedPairs (aciUakPairsOfWords (u64sOfBytes req.aciUakPairs)) 0
          (req.aciUakPairs.length >>> 5)) t) ∧
      ∀ i < out.e164s.length, ¬ (recs.getD i default).Present →
        out.response.e164PniAciTriples[i]? = some E164PniAciTriple.zero := by
  rcases withClient_cases h with ⟨-, e, he⟩ | ⟨c₀, c₁, rfl, -, hbody, -⟩
  · cases he
  obtain ⟨req, index, recs, hreq, hload, he164s, hget, htriples⟩ := enclaveRunBody_response hbody
  have hindex := loadAciUakPairs_keys o.sipHash o.upserts _ _ hload
  obtain ⟨draws, T', results, hbatch, rfl⟩ := hg _ _ hget
  have hrecs := (shardedOhtableGetBatch_sound hT hbatch).2
  -- the record at every place is absent or a requested record of the table
  have hrec : ∀ i, ¬ ((signalUserRecordsOfWords results).getD i default).Present ∨
      (T.HoldsRecord ((signalUserRecordsOfWords results).getD i default) ∧
        ((signalUserRecordsOfWords results).getD i default).e164 ∈ out.e164s) := by
    intro i
    rw [List.getD_eq_getElem?_getD]
    cases hi : (signalUserRecordsOfWords results)[i]? with
    | none =>
      exact Or.inl fun hp => hp.2.elim (fun h => h rfl) (fun h => h rfl)
    | some r => exact hrecs r (List.mem_of_getElem? hi)
  have hlen : out.e164s.length = (req.prevE164s.length + req.newE164s.length) >>> 3 := by
    rw [he164s, enclaveRunE164s, List.length_map, List.length_range]
  refine ⟨c₀, req, _, rfl, hreq, he164s, hget, fun t ht => ?_, fun i hi hp => ?_⟩
  · rw [htriples, createE164PniAciTriples, List.mem_map] at ht
    obtain ⟨i, -, rfl⟩ := ht
    exact tripleOf_sound hindex _ (hrec i)
  · rw [htriples, createE164PniAciTriples, List.getElem?_map, List.getElem?_range (hlen ▸ hi),
      Option.map_some, tripleOf_eq, if_neg hp]

/-- The enclave `g` with its lookup `sharded_ohtable_get_batch(T, …)` drawing from `draws`. A
lookup the model leaves undefined (a buffer read past its end) is reported as `OOM`. -/
def Enclave.withTable (g : Enclave) (T : ShardedOhtable) (draws : ℕ → UInt64) : Enclave :=
  { g with getBatch := fun keys =>
      match shardedOhtableGetBatch T keys.length keys draws with
      | some (_, results, .ok ()) => .ok (signalUserRecordsOfWords results)
      | some (_, _, .error e) => .error e
      | none => .error .OOM }

theorem Enclave.withTable_looksUpIn (g : Enclave) (T : ShardedOhtable) (draws : ℕ → UInt64) :
    (g.withTable T draws).LooksUpIn T := by
  intro keys recs hget
  simp only [Enclave.withTable] at hget
  split at hget
  · cases hget
    exact ⟨draws, _, _, ‹_›, rfl⟩
  · cases hget
  · cases hget

/-- A request for e164 `1` that carries the record's `(ACI, UAK)` pair. -/
def pairRequest : ClientRequest :=
  { goodRequest with aciUakPairs := [2, 0, 0, 0, 0, 0, 0, 0, 0, 0, 0, 0, 0, 0, 0, 0,
      4, 0, 0, 0, 0, 0, 0, 0, 0, 0, 0, 0, 0, 0, 0, 0] }

/-- The external calls of `demoRun`, decoding `pairRequest`. -/
def pairRun : RunOutcome := { demoRun with decode := fun _ => some pairRequest }

theorem enclaveRun_triples_sound_pair :
    ∃ T out, pairTable = some T ∧ T.WellFormed ∧ (demoEnclave.withTable T fun _ => 0).LooksUpIn T ∧
      enclaveRun (demoEnclave.withTable T fun _ => 0) pairRun 0
          (some (storedClient pairRequest .CLIENT_UNUSED)) =
        some (some (storedClient pairRequest .CLIENT_UNUSED), .ok out) ∧
      out.response.e164PniAciTriples = [⟨1, 3, 0, 2, 0⟩] ∧
      ∃ c req recs, some (storedClient pairRequest .CLIENT_UNUSED) = some c ∧ c.req = some req ∧
        out.e164s = enclaveRunE164s req.prevE164s req.newE164s ∧
        (demoEnclave.withTable T fun _ => 0).getBatch out.e164s = .ok recs ∧
        (∀ t ∈ out.response.e164PniAciTriples, TripleSound T out.e164s
          (loadedPairs (aciUakPairsOfWords (u64sOfBytes req.aciUakPairs)) 0
            (req.aciUakPairs.length >>> 5)) t) ∧
        ∀ i < out.e164s.length, ¬ (recs.getD i default).Present →
          out.response.e164PniAciTriples[i]? = some E164PniAciTriple.zero := by
  -- the table and the run are computed together; the table's well-formedness is read off its
  -- construction
  have hrun : (pairTable.bind fun T => enclaveRun (demoEnclave.withTable T fun _ => 0) pairRun 0
      (some (storedClient pairRequest .CLIENT_UNUSED))) =
      some (some (storedClient pairRequest .CLIENT_UNUSED),
        .ok ⟨[], [1], ⟨[⟨1, 3, 0, 2, 0⟩], 0, [], 0⟩⟩) := by
    decide +kernel
  obtain ⟨T, hT, hrunT⟩ := Option.bind_eq_some_iff.1 hrun
  obtain ⟨T₀, hcreate, hput⟩ := Option.bind_eq_some_iff.1 hT
  obtain ⟨⟨T₁, err⟩, hput₁, rfl⟩ := Option.map_eq_some_iff.1 hput
  have hwf : T₁.WellFormed :=
    shardedOhtablePutBatch_wellFormed (shardedOhtableCreate_wellFormed hcreate) hput₁
  have hg := demoEnclave.withTable_looksUpIn T₁ fun _ => 0
  exact ⟨T₁, _, hT, hwf, hg, hrunT, rfl, enclaveRun_triples_sound hwf hg hrunT⟩

end ContactDiscovery
