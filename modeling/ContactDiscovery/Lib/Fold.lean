import Mathlib

/-!
# Invariants of loops that may abort

A loop whose body may abort is a `List.foldlM` in `Option`: `none` is the abort. An invariant
that every successful step preserves holds of the result of every successful loop
(`foldlM_option_inv`); a loop over `[0, n + 1)` is the loop over `[0, n)` followed by one more
step (`foldlM_option_range_succ`), which is how an invariant that names the loop index is
carried (`foldlM_option_range_inv`). A successful `mapM` relates its input and output place by
place (`mapM_option_forall₂`), so each output is the image of an input (`mapM_option_mem`). For
loops that cannot abort, `foldl_range_inv` carries an invariant that names the loop index, and
`List.foldlRecOn` and `List.foldl_ext` of Mathlib one that does not. A pass that sets each entry
from its old value rewrites the entries it passed (`foldl_set_range`).
-/

set_option autoImplicit false

namespace Fold

variable {α β : Type*}

/-- **Invariant rule for a loop that may abort**: a property that each successful step keeps
holds after every successful run. -/
theorem foldlM_option_inv (P : α → Prop) {f : α → β → Option α} {l : List β}
    (hstep : ∀ a b a', b ∈ l → P a → f a b = some a' → P a') :
    ∀ {a a' : α}, P a → l.foldlM f a = some a' → P a' := by
  induction l with
  | nil =>
    intro a a' ha h
    cases h
    exact ha
  | cons b l ih =>
    intro a a' ha h
    rw [List.foldlM_cons] at h
    obtain ⟨a₁, h₁, h₂⟩ := Option.bind_eq_some_iff.1 h
    -- the first step keeps the invariant, the rest of the loop is the induction hypothesis
    have ha₁ := hstep a b a₁ List.mem_cons_self ha h₁
    exact ih (fun a b a' hb => hstep a b a' (List.mem_cons_of_mem _ hb)) ha₁ h₂

/-- The loop over `[0, n + 1)` is the loop over `[0, n)`, then the step at `n`. -/
theorem foldlM_option_range_succ (f : α → ℕ → Option α) (a : α) (n : ℕ) :
    (List.range (n + 1)).foldlM f a = ((List.range n).foldlM f a).bind fun a => f a n := by
  rw [List.range_succ, List.foldlM_append]
  simp only [List.foldlM_cons, List.foldlM_nil, bind_pure]
  rfl

/-- A successful loop over `[0, n + 1)`: a successful loop over `[0, n)` and a successful last
step. -/
theorem foldlM_option_range_succ_eq_some {f : α → ℕ → Option α} {a a' : α} {n : ℕ}
    (h : (List.range (n + 1)).foldlM f a = some a') :
    ∃ a₁, (List.range n).foldlM f a = some a₁ ∧ f a₁ n = some a' := by
  rw [foldlM_option_range_succ] at h
  exact Option.bind_eq_some_iff.1 h

/-- **Invariant rule for a loop over `[0, n)` that may abort**, with an invariant that names the
number of steps taken. -/
theorem foldlM_option_range_inv {f : α → ℕ → Option α} {a a' : α} {n : ℕ} (P : ℕ → α → Prop)
    (h₀ : P 0 a) (hstep : ∀ i b b', i < n → P i b → f b i = some b' → P (i + 1) b')
    (h : (List.range n).foldlM f a = some a') : P n a' := by
  induction n generalizing a' with
  | zero =>
    cases h
    exact h₀
  | succ n ih =>
    obtain ⟨b, hb, hlast⟩ := foldlM_option_range_succ_eq_some h
    exact hstep n b a' (Nat.lt_succ_self n) (ih (fun i b b' hi => hstep i b b' (by omega)) hb) hlast

/-- **Invariant rule for a loop over `[0, n)` that cannot abort**, with an invariant that names
the number of steps taken. -/
theorem foldl_range_inv {F : α → ℕ → α} {a : α} {n : ℕ} (P : ℕ → α → Prop) (h₀ : P 0 a)
    (hstep : ∀ i b, i < n → P i b → P (i + 1) (F b i)) : P n ((List.range n).foldl F a) := by
  induction n with
  | zero => exact h₀
  | succ n ih =>
    rw [List.range_succ, List.foldl_append, List.foldl_cons, List.foldl_nil]
    exact hstep n _ (Nat.lt_succ_self n) (ih fun i b hi => hstep i b (by omega))

/-! ## Maps that may abort -/

/-- A successful `mapM` in `Option`: each output is the image of the input at its place. -/
theorem mapM_option_forall₂ {f : α → Option β} :
    ∀ {l : List α} {r : List β}, l.mapM f = some r → List.Forall₂ (fun a b => f a = some b) l r
  | [], r, h => by
    cases h
    exact .nil
  | a :: l, r, h => by
    rw [List.mapM_cons] at h
    obtain ⟨b, hb, h⟩ := Option.bind_eq_some_iff.1 h
    obtain ⟨bs, hbs, h⟩ := Option.bind_eq_some_iff.1 h
    cases h
    exact .cons hb (mapM_option_forall₂ hbs)

/-- Each output of a successful `mapM` is the image of one of its inputs. -/
theorem mapM_option_mem {f : α → Option β} {l : List α} {r : List β} (h : l.mapM f = some r)
    {b : β} (hb : b ∈ r) : ∃ a ∈ l, f a = some b := by
  have hF := mapM_option_forall₂ h
  obtain ⟨i, hi, rfl⟩ := List.getElem_of_mem hb
  have hil : i < l.length := hF.length_eq ▸ hi
  exact ⟨l[i], List.getElem_mem hil, hF.get hil hi⟩

/-- Counting along two lists related place by place. -/
theorem countP_of_forall₂ {R : α → β → Prop} {p : β → Bool} {q : α → Bool} :
    ∀ {l : List α} {r : List β}, (∀ a ∈ l, ∀ b, R a b → p b = q a) → List.Forall₂ R l r →
      r.countP p = l.countP q
  | _, _, _, .nil => rfl
  | a :: l, b :: r, hpq, .cons hab h => by
    rw [List.countP_cons, List.countP_cons, hpq a List.mem_cons_self b hab,
      countP_of_forall₂ (fun a ha => hpq a (List.mem_cons_of_mem _ ha)) h]
/-! ## Passes that rewrite a list in place -/

/-- **A pass that rewrites each entry from its old value**: setting entry `i` to `f i` of its
current value, for each `i < n`, rewrites the first `n` entries from the old ones. -/
theorem foldl_set_range (f : ℕ → α → α) (d : α) (l : List α) :
    ∀ n ≤ l.length, (List.range n).foldl (fun acc i => acc.set i (f i (acc.getD i d))) l =
      (List.range n).map (fun i => f i (l.getD i d)) ++ l.drop n
  | 0, _ => by simp
  | n + 1, hn => by
    rw [List.range_succ, List.foldl_append, foldl_set_range f d l n (by omega), List.foldl_cons,
      List.foldl_nil]
    -- entry `n` is still the old one
    have hdrop : l.drop n = l[n] :: l.drop (n + 1) := List.drop_eq_getElem_cons (by omega)
    have hA : ((List.range n).map fun i => f i (l.getD i d)).length = n := by simp
    have hget : l.getD n d = l[n] := by simp [List.getD_eq_getElem?_getD, List.getElem?_eq_getElem (by omega : n < l.length)]
    rw [hdrop, List.getD_append_right _ _ _ _ (by omega), hA, Nat.sub_self, List.getD_cons_zero,
      List.set_append_right _ _ (by omega), hA, Nat.sub_self, List.set_cons_zero, List.map_append,
      List.map_singleton, List.append_assoc, List.singleton_append, hget]

end Fold
