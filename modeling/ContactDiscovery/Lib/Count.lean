import Mathlib

/-!
# Counting the entries of an array below an index

An array is a function `f : ℕ → β`; `(List.range n).countP p` counts its entries below `n` that
pass a test, as an oblivious loop over the array keeps such counts:

* `countP_range_update` — writing one entry moves the count by what the entry held and what it
  receives;
* `countP_range_of_le` — entries past a bound that never pass do not count;
* `countP_le_add_of_imp` — what passes one test passes one of two others;
* `countP_range_le_of_imp` — entries that pass only inside `[a, b)` number at most `b - a`;
* `countP_range_iff_of_downward` — when the passing entries are closed downwards, they are
  exactly the first ones, as many as are counted;
* `countP_range_lt_eq_sum` — the entries below `L` are those equal to `0`, …, `L - 1`.
-/

set_option autoImplicit false

namespace Count

variable {β : Type*}

/-- Writing `v` at `a < n` adds what `v` counts and removes what the old entry counted. -/
theorem countP_range_update [DecidableEq β] (f : ℕ → β) (p : β → Bool) {a : ℕ} (v : β) :
    ∀ {n : ℕ}, a < n →
      (List.range n).countP (fun k => p (Function.update f a v k)) + (if p (f a) then 1 else 0) =
        (List.range n).countP (fun k => p (f k)) + (if p v then 1 else 0)
  | 0, ha => absurd ha (Nat.not_lt_zero a)
  | n + 1, ha => by
    rw [List.range_succ, List.countP_append, List.countP_append]
    by_cases han : a = n
    · subst han
      -- the entries below `a` are untouched, the last one is the written one
      have hbelow : (List.range a).countP (fun k => p (Function.update f a v k)) =
          (List.range a).countP (fun k => p (f k)) := by
        refine List.countP_congr fun k hk => ?_
        rw [Function.update_of_ne (List.mem_range.1 hk).ne]
      rw [hbelow]
      simp only [Function.update_self, List.countP_singleton]
      split_ifs <;> omega
    · have ih := countP_range_update f p v (show a < n by omega)
      simp only [List.countP_singleton, Function.update_of_ne (Ne.symm han)]
      omega

/-- Entries in `[m, n)` that never pass leave the count of `[0, n)` that of `[0, m)`. -/
theorem countP_range_of_le (p : ℕ → Bool) {m : ℕ} :
    ∀ {n : ℕ}, m ≤ n → (∀ k, m ≤ k → k < n → p k = false) →
      (List.range n).countP p = (List.range m).countP p
  | 0, hmn, _ => by rw [Nat.le_zero.1 hmn]
  | n + 1, hmn, h => by
    by_cases hm : m = n + 1
    · rw [hm]
    · rw [List.range_succ, List.countP_append, List.countP_singleton, h n (by omega) (by omega),
        countP_range_of_le p (by omega) fun k h₁ h₂ => h k h₁ (by omega)]
      rfl

/-- What passes one test passes one of two others: the count is at most the sum of theirs. -/
theorem countP_le_add_of_imp {α : Type*} (p q r : α → Bool) :
    ∀ {l : List α}, (∀ x ∈ l, p x = true → q x = true ∨ r x = true) →
      l.countP p ≤ l.countP q + l.countP r
  | [], _ => by simp
  | x :: l, h => by
    have ih := countP_le_add_of_imp p q r (l := l) fun y hy => h y (List.mem_cons_of_mem x hy)
    have hx := h x List.mem_cons_self
    simp only [List.countP_cons]
    split_ifs <;> simp_all <;> omega

/-- Entries that pass only inside `[a, b)` number at most `b - a`. -/
theorem countP_range_le_of_imp (p : ℕ → Bool) {n a b : ℕ}
    (h : ∀ k, k < n → p k = true → a ≤ k ∧ k < b) : (List.range n).countP p ≤ b - a := by
  rw [List.countP_eq_length_filter]
  have hsub : (List.range n).filter p ⊆ List.range' a (b - a) := by
    intro k hk
    rw [List.mem_filter, List.mem_range] at hk
    have := h k hk.1 hk.2
    rw [List.mem_range']
    exact ⟨k - a, by omega, by omega⟩
  have hperm := List.subperm_of_subset (List.nodup_range.filter p) hsub
  simpa using hperm.length_le

/-- **Closed downwards, counted from the front.** When every entry below a passing one passes,
the passing entries of `[0, n)` are exactly those below their count. -/
theorem countP_range_iff_of_downward (p : ℕ → Bool) :
    ∀ {n : ℕ}, (∀ i j, i ≤ j → j < n → p j = true → p i = true) →
      ∀ k, k < n → (p k = true ↔ k < (List.range n).countP p)
  | 0, _, k, hk => absurd hk (Nat.not_lt_zero k)
  | n + 1, hp, k, hk => by
    rw [List.range_succ, List.countP_append, List.countP_singleton]
    have ih := countP_range_iff_of_downward p (n := n) fun i j hij hj => hp i j hij (by omega)
    have hle := List.countP_le_length (p := p) (l := List.range n)
    rw [List.length_range] at hle
    by_cases hpn : p n = true
    · -- the last entry passes, so every entry does
      have hall : (List.range n).countP p = n := by
        rw [List.countP_eq_length.2 fun i hi => hp i n (List.mem_range.1 hi).le (by omega) hpn,
          List.length_range]
      rw [hall, if_pos hpn]
      exact ⟨fun _ => hk, fun _ => hp k n (by omega) (by omega) hpn⟩
    · rw [if_neg hpn, Nat.add_zero]
      by_cases hkn : k = n
      · subst hkn
        exact ⟨fun h => absurd h hpn, fun h => absurd h (by omega)⟩
      · exact ih k (by omega)

/-- The entries below `L` are the entries equal to `0`, …, `L - 1`. -/
theorem countP_range_lt_eq_sum (f : ℕ → ℕ) (n : ℕ) :
    ∀ L : ℕ, (List.range n).countP (fun k => decide (f k < L)) =
      ∑ ℓ ∈ Finset.range L, (List.range n).countP (fun k => decide (f k = ℓ))
  | 0 => by simp
  | L + 1 => by
    rw [Finset.sum_range_succ, ← countP_range_lt_eq_sum f n L]
    -- below `L + 1` is below `L` or equal to `L`, never both
    have hsplit : ∀ l : List ℕ, l.countP (fun k => decide (f k < L + 1)) =
        l.countP (fun k => decide (f k < L)) + l.countP (fun k => decide (f k = L)) := by
      intro l
      induction l with
      | nil => rfl
      | cons x l ih =>
        simp only [List.countP_cons, ih, decide_eq_true_eq]
        split_ifs <;> omega
    exact hsplit _

end Count
