import Mathlib

/-!
# Rows with distinct keys

A store that keeps every key at most once is read back with `List.find?` on the key. With the
keys distinct the row found is the row with that key (`find?_key_eq_some_iff`), so every
reordering of the rows reads back the same (`find?_key_perm`); and an index range over which the
keys of the passing entries are distinct holds each key at one index at most
(`index_unique_of_nodup`).

Entries of an array `f : ℕ → α` are counted through a filter over an index range: writing a
passing entry where a failing one stood adds it to the filtered list (`filter_range_update_perm`).
-/

set_option autoImplicit false

namespace Keyed

section Find

variable {α κ : Type*} [BEq κ] [LawfulBEq κ] (key : α → κ)

theorem find?_key_eq_some_iff {l : List α} (hn : (l.map key).Nodup) (k : κ) (r : α) :
    l.find? (fun x => key x == k) = some r ↔ r ∈ l ∧ key r = k := by
  constructor
  · intro h
    exact ⟨List.mem_of_find?_eq_some h, by simpa using List.find?_some h⟩
  · rintro ⟨hr, rfl⟩
    obtain ⟨r', hr'⟩ : ∃ r', l.find? (fun x => key x == key r) = some r' := by
      cases h : l.find? (fun x => key x == key r) with
      | some r' => exact ⟨r', rfl⟩
      | none =>
        rw [List.find?_eq_none] at h
        exact absurd (beq_self_eq_true (key r)) (h r hr)
    have hm := List.mem_of_find?_eq_some hr'
    have hk : key r' = key r := by simpa using List.find?_some hr'
    rw [hr', List.inj_on_of_nodup_map hn hm hr hk]

theorem find?_key_eq_none_iff (l : List α) (k : κ) :
    l.find? (fun x => key x == k) = none ↔ ∀ r ∈ l, key r ≠ k := by
  simp [List.find?_eq_none]

/-- **Two orders of the same rows read back the same.** -/
theorem find?_key_perm {l l' : List α} (hp : l.Perm l') (hn : (l.map key).Nodup) (k : κ) :
    l.find? (fun x => key x == k) = l'.find? (fun x => key x == k) := by
  have hn' : (l'.map key).Nodup := (hp.map key).nodup_iff.1 hn
  cases h : l.find? (fun x => key x == k) with
  | some r =>
    obtain ⟨hr, hk⟩ := (find?_key_eq_some_iff key hn k r).1 h
    exact ((find?_key_eq_some_iff key hn' k r).2 ⟨hp.subset hr, hk⟩).symm
  | none =>
    rw [find?_key_eq_none_iff] at h
    exact ((find?_key_eq_none_iff key l' k).2 fun r hr => h r (hp.symm.subset hr)).symm

/-- Rows dropped by a filter that keeps every row with the key are not read. -/
theorem find?_key_filter (p : α → Bool) (l : List α) {k : κ} (hp : ∀ x, key x = k → p x = true) :
    (l.filter p).find? (fun x => key x == k) = l.find? (fun x => key x == k) := by
  induction l with
  | nil => rfl
  | cons x l ih =>
    by_cases hx : key x = k
    · simp [hp x hx, hx]
    · by_cases hpx : p x = true <;> simp [hpx, hx, ih]

end Find

section Array

variable {α κ : Type*} (p : α → Bool) (f : ℕ → α)

/-- In an index range whose passing entries have distinct keys, a key is at one index at most. -/
theorem index_unique_of_nodup (key : α → κ) {n : ℕ}
    (hn : ((((List.range n).map f).filter p).map key).Nodup) {i j : ℕ} (hi : i < n) (hj : j < n)
    (hpi : p (f i) = true) (hpj : p (f j) = true) (hk : key (f i) = key (f j)) : i = j := by
  rw [List.filter_map, List.map_map] at hn
  exact List.inj_on_of_nodup_map hn (List.mem_filter.2 ⟨List.mem_range.2 hi, hpi⟩)
    (List.mem_filter.2 ⟨List.mem_range.2 hj, hpj⟩) hk

/-- **Writing a passing entry over a failing one** adds it to the passing entries. -/
theorem filter_range_update_perm {i : ℕ} (x : α) (hold : p (f i) = false) (hx : p x = true) :
    ∀ {n : ℕ}, i < n → (((List.range n).map (Function.update f i x)).filter p).Perm
      ((((List.range n).map f).filter p) ++ [x])
  | 0, hi => absurd hi (Nat.not_lt_zero i)
  | n + 1, hi => by
    simp only [List.range_succ, List.map_append, List.map_cons, List.map_nil, List.filter_append]
    rcases Nat.lt_succ_iff_lt_or_eq.1 hi with hi | rfl
    · -- the last entry is untouched
      rw [Function.update_of_ne (Nat.ne_of_gt hi)]
      refine ((filter_range_update_perm x hold hx hi).append_right _).trans ?_
      rw [List.append_assoc, List.append_assoc]
      exact List.Perm.append_left _ List.perm_append_comm
    · -- the last entry is the one written
      have hbelow : (List.range i).map (Function.update f i x) = (List.range i).map f :=
        List.map_congr_left fun k hk => Function.update_of_ne (List.mem_range.1 hk).ne _ _
      rw [hbelow, Function.update_self]
      simp [hold, hx]

end Array

end Keyed
