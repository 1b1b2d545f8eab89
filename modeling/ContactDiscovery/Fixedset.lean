import ContactDiscovery.Util

/-!
# `fixedset/fixedset.c`: the per-request ACI/UAK set

`enclave_run` loads the client's `(ACI, UAK)` pairs into a `fixedset_t`, a Robin Hood hash set
of fixed-size keys, and `create_e164_pni_aci_triples` asks it whether a record's pair is among
them. An entry `[jump][key]` stored at index `hash(key) + jump` (taken modulo the capacity) is
empty when `jump = 0`.

* `fixedsetNew`, `fixedsetFind`, `fixedsetGet` — creation and the branch-free lookup over
  `jump = 1 … maxjump`;
* `fixedsetRobinhood` — the insertion loop, which takes the entry of any key closer to its home
  and carries that key on;
* `fixedsetUpsert`, `fixedsetResize` — growth when the set is 8/9 full, re-inserting every key;
* `fixedsetRemove` (the back-shift), `fixedsetClear`, and `fixedsetRun` — a client's calls one
  after another.

The key type `κ` stands for the `ksize` bytes compared by `keq`; `khash` is `halfsiphash` under
the set's random key, a parameter. `rand()` and whether `calloc` succeeds are the fields of
`UpsertOutcome`, one per call.

Principal results:

* `fixedsetRun_get_sound` — after every run of upserts, removals and clears, `fixedset_get`
  answers `true` only for a key that was upserted (`fixedsetGet_sound`, `fixedsetRun_keysIn`);
* `fixedsetRun_get_misses_upserted_key` — but it can answer `false` for a key upserted and never
  removed: the Robin Hood loop re-derives a displaced key's home as `hash + jump - e->jump` in
  `size_t` arithmetic, which is the key's own home only modulo the capacity; once the set has
  grown to a capacity that does not divide `2^64`, a probe sequence that wraps past `2^64` puts
  the key where its lookup never probes.
-/

set_option autoImplicit false

namespace ContactDiscovery

/-- `fixedset_entry_t`: the `jump` (zero for an empty entry) and the key. -/
structure FixedsetEntry (κ : Type) where
  jump : UInt32
  kv : κ
  deriving DecidableEq, Repr

/-- `fixedset_t`: the entry array `block` (indices `< cap`), `size` and `maxjump`. -/
structure Fixedset (κ : Type) where
  block : ℕ → FixedsetEntry κ
  cap : ℕ
  size : ℕ
  maxjump : ℕ

/-- The outcome of the external calls one `fixedset_upsert` makes: the value of `rand()` and
whether `calloc` succeeds, both used only when the set grows. -/
structure UpsertOutcome where
  mallocOk : Bool
  rand : ℕ
  deriving DecidableEq, Repr

variable {κ : Type} [DecidableEq κ] [Inhabited κ]

/-- A zero-filled entry. -/
def emptyEntry : FixedsetEntry κ := ⟨0, default⟩

/-- An empty set of capacity `cap` (a fresh `calloc`'d block). -/
def Fixedset.empty (cap : ℕ) : Fixedset κ :=
  { block := fun _ => emptyEntry, cap := cap, size := 0, maxjump := 0 }

/-- `fixedset_entry_n(h, i)`: the entry at `i % cap`. -/
def fixedsetEntryN (h : Fixedset κ) (i : UInt64) : FixedsetEntry κ := h.block (i.toNat % h.cap)

/-- Writing entry `i % cap`. -/
def Fixedset.setEntry (h : Fixedset κ) (i : UInt64) (e : FixedsetEntry κ) : Fixedset κ :=
  { h with block := Function.update h.block (i.toNat % h.cap) e }

/-- The address of entry `i % cap`, which `fixedset_find` accumulates in `outp`: any non-null
address, distinct per entry, stands for `block + (i % cap) * entry_size`. -/
def fixedsetEntryAddr (h : Fixedset κ) (i : UInt64) : UInt64 := UInt64.ofNat (i.toNat % h.cap + 1)

/-- `fixedset_new(out, ksize, sipkey)`: capacity 32; any failed `calloc` gives `err_OOM`. -/
def fixedsetNew (mallocOk : Bool) : Except ErrorT (Fixedset κ) :=
  if mallocOk then .ok (Fixedset.empty 32) else .error .OOM

variable (khash : κ → UInt64)

/-- The loop of `fixedset_find` from `jump`, for `n` more jumps: `got` is `keq(k, e->kv) &
(e->jump == jump)`, and `idx` and `outp` xor in the index and address of every entry that
matches. -/
def fixedsetFindLoop (h : Fixedset κ) (k : κ) (hash : UInt64) :
    ℕ → ℕ → UInt64 × UInt64 → UInt64 × UInt64
  | 0, _, acc => acc
  | n + 1, jump, (idx, outp) =>
    let i := hash + UInt64.ofNat jump
    let e := fixedsetEntryN h i
    let got := decide (k = e.kv) && e.jump.toNat == jump
    let mask : UInt64 := if got then UINT64_MAX else 0
    fixedsetFindLoop h k hash n (jump + 1)
      (idx ^^^ (i &&& mask), outp ^^^ (fixedsetEntryAddr h i &&& mask))

/-- `fixedset_find(h, k, &idx, &out)`: jumps `1 … maxjump`; found when `outp != 0`. -/
def fixedsetFind (h : Fixedset κ) (k : κ) : UInt64 × Bool :=
  let r := fixedsetFindLoop h k (khash k) h.maxjump 1 (0, 0)
  (r.1, r.2 != 0)

/-- `fixedset_get(h, k)`. -/
def fixedsetGet (h : Fixedset κ) (k : κ) : Bool := (fixedsetFind khash h k).2

/-- The Robin Hood loop of `fixedset_upsert`, carrying key `k` of home `hash` at `jump`.
An empty entry takes `k`; an entry with a smaller jump is taken and its key carried on from its
own home (`hash + jump - e->jump`). The source loops until it meets an empty entry; `fuel`
bounds the iterations and `none` means it ran out. -/
def fixedsetRobinhood : ℕ → Fixedset κ → κ → UInt64 → ℕ → Option (Fixedset κ)
  | 0, _, _, _, _ => none
  | fuel + 1, h, k, hash, jump =>
    let i := hash + UInt64.ofNat jump
    let e := fixedsetEntryN h i
    if e.jump = 0 then
      some { h.setEntry i ⟨UInt32.ofNat jump, k⟩ with
        size := h.size + 1, maxjump := max h.maxjump jump }
    else if e.jump.toNat < jump then
      let h' := { h.setEntry i ⟨UInt32.ofNat jump, k⟩ with maxjump := max h.maxjump jump }
      fixedsetRobinhood fuel h' e.kv (hash + UInt64.ofNat jump - UInt64.ofNat e.jump.toNat)
        (e.jump.toNat + 1)
    else fixedsetRobinhood fuel h k hash (jump + 1)

/-- The copy loop of `fixedset_resize`: every non-empty entry of `old` among `is` is upserted
into the new set; an error rolls the resize back. -/
def fixedsetReinsert (upsert : Fixedset κ → κ → Option (Except ErrorT (Fixedset κ × Bool)))
    (old : Fixedset κ) : List ℕ → Fixedset κ → Option (Except ErrorT (Fixedset κ))
  | [], h => some (.ok h)
  | i :: is, h =>
    if (old.block i).jump ≠ 0 then
      match upsert h (old.block i).kv with
      | none => none
      | some (.error e) => some (.error e)
      | some (.ok (h, _)) => fixedsetReinsert upsert old is h
    else fixedsetReinsert upsert old is h

/-- `fixedset_resize(h, newcap)`, with the `fixedset_upsert` it calls for each entry. -/
def fixedsetResize (upsert : Fixedset κ → κ → Option (Except ErrorT (Fixedset κ × Bool)))
    (mallocOk : Bool) (h : Fixedset κ) (newcap : ℕ) : Option (Except ErrorT (Fixedset κ)) :=
  if newcap ≤ h.cap then some (.error .FIXEDSET__RESIZE_INVALID)
  else if !mallocOk then some (.error .OOM)
  else fixedsetReinsert upsert h (List.range h.cap) (Fixedset.empty newcap)

/-- `fixedset_upsert(h, k, &replaced)`: grow to `cap + cap/4 + rand() % (cap/2)` when
`size + size/8 > cap`, then return if `k` is present, else run the Robin Hood loop (bounded by
`2 * cap` probes, enough to pass every index once before and once after a wrap of `size_t`).
The result carries `replaced`. The upserts of a resize are one `depth` down; `depth` bounds the
nesting and `none` means it ran out. -/
def fixedsetUpsert : ℕ → UpsertOutcome → Fixedset κ → κ →
    Option (Except ErrorT (Fixedset κ × Bool))
  | 0, _, _, _ => none
  | depth + 1, o, h, k =>
    let captest := h.size + h.size / 8
    let grown := if captest > h.cap then
        fixedsetResize (fixedsetUpsert depth o) o.mallocOk h (h.cap + h.cap / 4 + o.rand % (h.cap / 2))
      else some (.ok h)
    match grown with
    | none => none
    | some (.error e) => some (.error e)
    | some (.ok h) =>
      if (fixedsetFind khash h k).2 then some (.ok (h, true))
      else (fixedsetRobinhood (2 * h.cap) h k (khash k) 1).map fun h => .ok (h, false)

/-- The back-shift loop of `fixedset_remove` from `idx + i`, `e` the index of the entry to
fill: while the next entry sits away from its home (`jump ≥ 2`) it moves back one place, one
jump nearer; the last entry moved from is emptied. The source loops until it meets an entry with
`jump < 2`; `fuel` bounds the iterations and `none` means it ran out. -/
def fixedsetRemoveLoop : ℕ → Fixedset κ → UInt64 → UInt64 → ℕ → Option (Fixedset κ)
  | 0, _, _, _, _ => none
  | fuel + 1, h, idx, e, i =>
    let next := fixedsetEntryN h (idx + UInt64.ofNat i)
    if next.jump < 2 then some (h.setEntry e { fixedsetEntryN h e with jump := 0 })
    else
      fixedsetRemoveLoop fuel (h.setEntry e ⟨next.jump - 1, next.kv⟩) idx (idx + UInt64.ofNat i)
        (i + 1)

/-- `fixedset_remove(h, k)`: `false` when `k` is not found; otherwise `size` drops by one and
the entries after `k`'s shift back over it (at most `cap` of them). -/
def fixedsetRemove (h : Fixedset κ) (k : κ) : Option (Fixedset κ × Bool) :=
  let r := fixedsetFind khash h k
  if r.2 then (fixedsetRemoveLoop h.cap { h with size := h.size - 1 } r.1 r.1 1).map (·, true)
  else some (h, false)

/-- `fixedset_clear(h)`: every entry zeroed and `size = 0`; `maxjump` is kept. -/
def fixedsetClear (h : Fixedset κ) : Fixedset κ :=
  { h with block := fun _ => emptyEntry, size := 0 }

/-- A call a client makes on a set: `fixedset_upsert` (with the outcomes of its external calls),
`fixedset_remove` or `fixedset_clear`. -/
inductive FixedsetOp (κ : Type) where
  | upsert (k : κ) (o : UpsertOutcome)
  | remove (k : κ)
  | clear

/-- The calls `ops` one after another, upserts nested at most `depth` deep; the first error
ends the run. -/
def fixedsetRun (depth : ℕ) : Fixedset κ → List (FixedsetOp κ) → Option (Except ErrorT (Fixedset κ))
  | h, [] => some (.ok h)
  | h, .upsert k o :: ops =>
    match fixedsetUpsert khash depth o h k with
    | none => none
    | some (.error e) => some (.error e)
    | some (.ok (h, _)) => fixedsetRun depth h ops
  | h, .remove k :: ops =>
    match fixedsetRemove khash h k with
    | none => none
    | some (h, _) => fixedsetRun depth h ops
  | h, .clear :: ops => fixedsetRun depth (fixedsetClear h) ops

/-! ## Every stored key was inserted -/

/-- Every non-empty entry of `h` holds a key of `S`. -/
def Fixedset.KeysIn (S : Set κ) (h : Fixedset κ) : Prop :=
  ∀ i, (h.block i).jump ≠ 0 → (h.block i).kv ∈ S

omit [DecidableEq κ] in
theorem Fixedset.keysIn_empty (S : Set κ) (cap : ℕ) : (Fixedset.empty cap).KeysIn S :=
  fun _ h => absurd rfl h

omit [DecidableEq κ] [Inhabited κ] in
theorem Fixedset.KeysIn.mono {S T : Set κ} {h : Fixedset κ} (hh : h.KeysIn S) (hST : S ⊆ T) :
    h.KeysIn T :=
  fun i hi => hST (hh i hi)

omit [DecidableEq κ] [Inhabited κ] in
theorem Fixedset.KeysIn.setEntry {S : Set κ} {h : Fixedset κ} (hh : h.KeysIn S) (i : UInt64)
    {e : FixedsetEntry κ} (he : e.jump ≠ 0 → e.kv ∈ S) : (h.setEntry i e).KeysIn S := by
  intro j hj
  by_cases hji : j = i.toNat % h.cap
  · subst hji
    simp only [Fixedset.setEntry, Function.update_self] at hj ⊢
    exact he hj
  · simp only [Fixedset.setEntry, Function.update_of_ne hji] at hj ⊢
    exact hh j hj

omit [DecidableEq κ] [Inhabited κ] in
/-- The Robin Hood loop writes only the key it carries and the keys it displaces. -/
theorem fixedsetRobinhood_keysIn {S : Set κ} :
    ∀ (fuel : ℕ) (h : Fixedset κ) (k : κ) (hash : UInt64) (jump : ℕ) {h' : Fixedset κ},
      fixedsetRobinhood fuel h k hash jump = some h' → h.KeysIn S → k ∈ S → h'.KeysIn S
  | 0, _, _, _, _, _, hr, _, _ => by cases hr
  | fuel + 1, h, k, hash, jump, h', hr, hh, hk => by
    unfold fixedsetRobinhood at hr
    simp only at hr
    split at hr
    · cases hr
      exact hh.setEntry _ fun _ => hk
    · split at hr
      · -- the displaced key was in a non-empty entry, so it is in `S`
        rename_i hne _
        have hkv : (fixedsetEntryN h (hash + UInt64.ofNat jump)).kv ∈ S := hh _ hne
        exact fixedsetRobinhood_keysIn fuel _ _ _ _ hr (hh.setEntry _ fun _ => hk) hkv
      · exact fixedsetRobinhood_keysIn fuel h k hash jump.succ hr hh hk

section Growth

variable {upsert : Fixedset κ → κ → Option (Except ErrorT (Fixedset κ × Bool))} {S : Set κ}

omit [DecidableEq κ] [Inhabited κ] in
/-- Re-inserting keys of `old` with an upsert that keeps to `S` keeps to `S`. -/
theorem fixedsetReinsert_keysIn
    (hup : ∀ h k h' r, upsert h k = some (.ok (h', r)) → h.KeysIn S → k ∈ S → h'.KeysIn S)
    {old : Fixedset κ} (hold : old.KeysIn S) :
    ∀ (is : List ℕ) (h : Fixedset κ) {h' : Fixedset κ},
      fixedsetReinsert upsert old is h = some (.ok h') → h.KeysIn S → h'.KeysIn S
  | [], h, h', hr, hh => by cases hr; exact hh
  | i :: is, h, h', hr, hh => by
    unfold fixedsetReinsert at hr
    split at hr
    · rename_i hne
      split at hr
      · cases hr
      · cases hr
      · rename_i h₁ r heq
        exact fixedsetReinsert_keysIn hup hold is h₁ hr (hup _ _ _ _ heq hh (hold i hne))
    · exact fixedsetReinsert_keysIn hup hold is h hr hh

omit [DecidableEq κ] in
theorem fixedsetResize_keys
    (hup : ∀ h k h' r, upsert h k = some (.ok (h', r)) → h.KeysIn S → k ∈ S → h'.KeysIn S)
    {mallocOk : Bool} {h h' : Fixedset κ} {newcap : ℕ}
    (hr : fixedsetResize upsert mallocOk h newcap = some (.ok h')) (hh : h.KeysIn S) :
    h'.KeysIn S := by
  unfold fixedsetResize at hr
  split at hr
  · cases hr
  · split at hr
    · cases hr
    · exact fixedsetReinsert_keysIn hup hh _ _ hr (Fixedset.keysIn_empty S _)

end Growth

/-- **An upsert adds only its own key**: if every stored key is in `S` before, every stored key
is in `S ∪ {k}` after, whether or not the set grows. -/
theorem fixedsetUpsert_keys :
    ∀ (depth : ℕ) (o : UpsertOutcome) (h : Fixedset κ) (k : κ) {S : Set κ} {h' : Fixedset κ}
      {r : Bool}, fixedsetUpsert khash depth o h k = some (.ok (h', r)) → h.KeysIn S →
      h'.KeysIn (insert k S)
  | 0, _, _, _, _, _, _, hr, _ => by cases hr
  | depth + 1, o, h, k, S, h', r, hr, hh => by
    -- first the (possible) growth, then the lookup or the Robin Hood loop
    unfold fixedsetUpsert at hr
    simp only at hr
    have hgrow : ∀ h₁, (if h.size + h.size / 8 > h.cap then
        fixedsetResize (fixedsetUpsert khash depth o) o.mallocOk h
          (h.cap + h.cap / 4 + o.rand % (h.cap / 2)) else some (.ok h)) = some (.ok h₁) →
        h₁.KeysIn S := by
      intro h₁ hg
      split at hg
      · exact fixedsetResize_keys (fun h k h' r hu hk hks => by
          simpa [Set.insert_eq_of_mem hks] using fixedsetUpsert_keys depth o h k hu hk) hg hh
      · cases hg; exact hh
    split at hr
    · cases hr
    · cases hr
    · rename_i h₁ hg
      have h₁S := hgrow h₁ hg
      split at hr
      · cases hr
        exact h₁S.mono (Set.subset_insert k S)
      · obtain ⟨h₂, hrh, he⟩ := Option.map_eq_some_iff.1 hr
        cases he
        exact fixedsetRobinhood_keysIn _ _ _ _ _ hrh (h₁S.mono (Set.subset_insert k S))
          (Set.mem_insert k S)

omit [Inhabited κ] in
/-- A match found by the lookup loop is a non-empty entry holding the key. -/
theorem fixedsetFindLoop_found (h : Fixedset κ) (k : κ) (hash : UInt64) :
    ∀ (n jump : ℕ) (idx outp : UInt64), 0 < jump →
      (fixedsetFindLoop h k hash n jump (idx, outp)).2 ≠ outp →
      ∃ i : UInt64, (fixedsetEntryN h i).jump ≠ 0 ∧ (fixedsetEntryN h i).kv = k
  | 0, _, _, _, _, hne => absurd rfl hne
  | n + 1, jump, idx, outp, hj, hne => by
    unfold fixedsetFindLoop at hne
    simp only at hne
    by_cases hgot : (decide (k = (fixedsetEntryN h (hash + UInt64.ofNat jump)).kv) &&
        (fixedsetEntryN h (hash + UInt64.ofNat jump)).jump.toNat == jump) = true
    · -- this entry matches: its jump is `jump ≥ 1`
      simp only [Bool.and_eq_true, decide_eq_true_eq, beq_iff_eq] at hgot
      refine ⟨hash + UInt64.ofNat jump, fun h0 => ?_, hgot.1.symm⟩
      have := hgot.2
      rw [h0] at this
      simp at this
      omega
    · -- no match: the mask is zero and `outp` is unchanged
      rw [if_neg hgot, UInt64.and_zero, UInt64.xor_zero, UInt64.and_zero, UInt64.xor_zero] at hne
      exact fixedsetFindLoop_found h k hash n (jump + 1) idx outp (by omega) hne

omit [Inhabited κ] in
/-- **`fixedset_get` is sound**: when every stored key is in `S`, a key the set reports present
is in `S`. -/
theorem fixedsetGet_sound {S : Set κ} {h : Fixedset κ} (hh : h.KeysIn S) {k : κ}
    (hk : fixedsetGet khash h k = true) : k ∈ S := by
  unfold fixedsetGet fixedsetFind at hk
  simp only [bne_iff_ne, ne_eq] at hk
  obtain ⟨i, hi, hkv⟩ := fixedsetFindLoop_found h k (khash k) h.maxjump 1 0 0 one_pos hk
  rw [← hkv]
  exact hh _ hi

/-! ## Removal, clearing and whole runs -/

omit [DecidableEq κ] [Inhabited κ] in
/-- The back-shift moves keys back over the removed one and empties an entry: it stores no new
key. -/
theorem fixedsetRemoveLoop_keysIn {S : Set κ} :
    ∀ (fuel : ℕ) (h : Fixedset κ) (idx e : UInt64) (i : ℕ) {h' : Fixedset κ},
      fixedsetRemoveLoop fuel h idx e i = some h' → h.KeysIn S → h'.KeysIn S
  | 0, _, _, _, _, _, hr, _ => by cases hr
  | fuel + 1, h, idx, e, i, h', hr, hh => by
    unfold fixedsetRemoveLoop at hr
    simp only at hr
    split at hr
    · cases hr
      exact hh.setEntry _ fun h0 => absurd rfl h0
    · -- the entry moved back is a non-empty one
      rename_i hnext
      have hne : (fixedsetEntryN h (idx + UInt64.ofNat i)).jump ≠ 0 := fun h0 => hnext (by
        rw [h0]; decide)
      exact fixedsetRemoveLoop_keysIn fuel _ idx _ (i + 1) hr (hh.setEntry _ fun _ => hh _ hne)

omit [Inhabited κ] in
theorem fixedsetRemove_keysIn {S : Set κ} {h h' : Fixedset κ} {k : κ} {r : Bool}
    (hr : fixedsetRemove khash h k = some (h', r)) (hh : h.KeysIn S) : h'.KeysIn S := by
  unfold fixedsetRemove at hr
  simp only at hr
  split at hr
  · obtain ⟨h₁, hloop, he⟩ := Option.map_eq_some_iff.1 hr
    cases he
    exact fixedsetRemoveLoop_keysIn _ _ _ _ _ hloop hh
  · cases hr
    exact hh

omit [DecidableEq κ] in
theorem fixedsetClear_keysIn (S : Set κ) (h : Fixedset κ) : (fixedsetClear h).KeysIn S :=
  fun _ hi => absurd rfl hi

/-- The keys `ops` upserts. -/
def FixedsetOp.upserted (ops : List (FixedsetOp κ)) : Set κ := {k | ∃ o, .upsert k o ∈ ops}

/-- **A run stores only keys it upserted**: from a set whose keys are in `S`, every key stored
after any run of upserts, removals and clears is in `S` or upserted by the run. -/
theorem fixedsetRun_keysIn (depth : ℕ) :
    ∀ (ops : List (FixedsetOp κ)) (h : Fixedset κ) {S : Set κ} {h' : Fixedset κ},
      fixedsetRun khash depth h ops = some (.ok h') → h.KeysIn S →
        h'.KeysIn (S ∪ FixedsetOp.upserted ops)
  | [], h, S, h', hr, hh => by
    cases hr
    exact hh.mono Set.subset_union_left
  | .upsert k o :: ops, h, S, h', hr, hh => by
    unfold fixedsetRun at hr
    split at hr
    · cases hr
    · cases hr
    · rename_i h₁ r hup
      -- the upserted key joins `S`, and the rest of the run continues from there
      have h₁S := fixedsetUpsert_keys khash depth o h k hup hh
      refine (fixedsetRun_keysIn depth ops h₁ hr h₁S).mono ?_
      rintro x (hx | ⟨o', ho'⟩)
      · rcases Set.mem_insert_iff.1 hx with rfl | hx
        · exact Or.inr ⟨o, List.mem_cons_self⟩
        · exact Or.inl hx
      · exact Or.inr ⟨o', List.mem_cons_of_mem _ ho'⟩
  | .remove k :: ops, h, S, h', hr, hh => by
    unfold fixedsetRun at hr
    split at hr
    · cases hr
    · rename_i h₁ r hrem
      refine (fixedsetRun_keysIn depth ops h₁ hr (fixedsetRemove_keysIn khash hrem hh)).mono ?_
      rintro x (hx | ⟨o', ho'⟩)
      · exact Or.inl hx
      · exact Or.inr ⟨o', List.mem_cons_of_mem _ ho'⟩
  | .clear :: ops, h, S, h', hr, hh => by
    unfold fixedsetRun at hr
    refine (fixedsetRun_keysIn depth ops _ hr (fixedsetClear_keysIn S h)).mono ?_
    rintro x (hx | ⟨o', ho'⟩)
    · exact Or.inl hx
    · exact Or.inr ⟨o', List.mem_cons_of_mem _ ho'⟩

/-- **`fixedset_get` answers `true` only for upserted keys**, after any run of upserts,
removals and clears on a new set. -/
theorem fixedsetRun_get_sound {mallocOk : Bool} {h₀ h : Fixedset κ} {depth : ℕ}
    {ops : List (FixedsetOp κ)} (hnew : fixedsetNew mallocOk = .ok h₀)
    (hr : fixedsetRun khash depth h₀ ops = some (.ok h)) {k : κ} (hk : fixedsetGet khash h k = true) :
    ∃ o, FixedsetOp.upsert k o ∈ ops := by
  unfold fixedsetNew at hnew
  split at hnew
  · cases hnew
    have hkeys := fixedsetRun_keysIn khash depth ops _ hr (Fixedset.keysIn_empty ∅ 32)
    rcases fixedsetGet_sound khash hkeys hk with hk | hk
    · exact absurd hk (Set.notMem_empty k)
    · exact hk
  · cases hnew

theorem fixedsetRun_get_sound_one_key :
    ∃ h : Fixedset ℕ, fixedsetNew true = (.ok (Fixedset.empty 32) : Except ErrorT (Fixedset ℕ)) ∧
      fixedsetRun (fun k : ℕ => UInt64.ofNat k) 2 (Fixedset.empty 32) [.upsert 5 ⟨true, 0⟩] =
        some (.ok h) ∧ fixedsetGet (fun k : ℕ => UInt64.ofNat k) h 5 = true ∧
      ∃ o, FixedsetOp.upsert 5 o ∈ [FixedsetOp.upsert (5 : ℕ) ⟨true, 0⟩] := by
  have hnew : fixedsetNew true = (.ok (Fixedset.empty 32) : Except ErrorT (Fixedset ℕ)) := rfl
  have hrun : (fixedsetRun (fun k : ℕ => UInt64.ofNat k) 2 (Fixedset.empty 32)
      [.upsert 5 ⟨true, 0⟩]).map (Except.map fun h => fixedsetGet (fun k : ℕ => UInt64.ofNat k) h 5) =
      some (.ok true) := by
    decide +kernel
  obtain ⟨r, hr, hmap⟩ := Option.map_eq_some_iff.1 hrun
  rcases r with e | h
  · cases hmap
  · have hget : fixedsetGet (fun k : ℕ => UInt64.ofNat k) h 5 = true := by
      simpa [Except.map] using hmap
    exact ⟨h, hnew, hr, hget, fixedsetRun_get_sound (fun k : ℕ => UInt64.ofNat k) hnew hr hget⟩

/-- **A key can be lost across the wrap of `size_t`.** Thirty keys, `0 … 6` and `16 … 38`, each
its own hash, grow the set from 32 to 40 entries (`rand() = 0`) at the next upsert, of key 13;
then key 14 goes home to entry 15. Key 99 hashes to `2^64 - 3`: its probes `2^64 - 2` and
`2^64 - 1` are entries 14 and 15 (`2^64 ≡ 16 mod 40`), and at entry 15 it takes key 14's place.
The Robin Hood loop carries key 14 on from `hash + jump - e->jump = 2^64 - 2`, whose next probe
wraps to 0: entry 0, not 16. The lookup of 14 probes entries 15 and 16 and answers `false`. -/
theorem fixedsetRun_get_misses_upserted_key :
    (fixedsetRun (fun k : ℕ => if k = 99 then 0 - 3 else UInt64.ofNat k) 2 (Fixedset.empty 32)
      ((List.range 7 ++ List.range' 16 23 ++ [13, 14, 99]).map fun k => .upsert k ⟨true, 0⟩)).map
      (Except.map fun h => fixedsetGet (fun k : ℕ => if k = 99 then 0 - 3 else UInt64.ofNat k) h 14) =
    some (.ok false) := by
  decide +kernel

end ContactDiscovery
