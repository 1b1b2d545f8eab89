import Mathlib

/-!
# Ring buffers

A ring of capacity `cap` holds its `num` entries at `rem, rem + 1, …`, indices taken modulo
`cap`, and takes the next one at `(rem + num) % cap`. `ringContents` reads the entries out in
order: writing at the tail appends (`ringContents_push`), and advancing the head takes the
first off (`ringContents_pop`).
-/

set_option autoImplicit false

namespace Ring

variable {α : Type}

/-- The `num` entries of a ring of capacity `cap` from `rem`, in order. -/
def ringContents (items : ℕ → α) (cap rem num : ℕ) : List α :=
  (List.range num).map fun i => items ((rem + i) % cap)

@[simp] theorem ringContents_length (items : ℕ → α) (cap rem num : ℕ) :
    (ringContents items cap rem num).length = num := by
  simp [ringContents]

/-- Two offsets below the capacity are two places of the ring. -/
theorem add_mod_ne {cap rem i n : ℕ} (hi : i < n) (hn : n < cap) :
    (rem + i) % cap ≠ (rem + n) % cap := by
  intro he
  have h := Nat.sub_mod_eq_zero_of_mod_eq he.symm
  rw [show rem + n - (rem + i) = n - i by omega, Nat.mod_eq_of_lt (by omega)] at h
  omega

/-- Writing at the tail of a ring that is not full appends. -/
theorem ringContents_push {items : ℕ → α} {cap rem num : ℕ} (hnum : num < cap) (x : α) :
    ringContents (Function.update items ((rem + num) % cap) x) cap rem (num + 1) =
      ringContents items cap rem num ++ [x] := by
  unfold ringContents
  rw [List.range_succ, List.map_append, List.map_singleton, Function.update_self]
  congr 1
  -- the entries already there sit elsewhere than the tail
  refine List.map_congr_left fun i hi => ?_
  rw [Function.update_of_ne (add_mod_ne (List.mem_range.1 hi) hnum)]

/-- Advancing the head of a non-empty ring takes its first entry off. -/
theorem ringContents_pop {items : ℕ → α} {cap rem num : ℕ} (hrem : rem < cap) (hnum : 0 < num) :
    ringContents items cap rem num =
      items rem :: ringContents items cap ((rem + 1) % cap) (num - 1) := by
  obtain ⟨n, rfl⟩ : ∃ n, num = n + 1 := ⟨num - 1, by omega⟩
  unfold ringContents
  rw [List.range_succ_eq_map, List.map_cons, List.map_map, Nat.add_zero, Nat.mod_eq_of_lt hrem,
    Nat.add_sub_cancel]
  congr 1
  refine List.map_congr_left fun i _ => ?_
  simp only [Function.comp_apply, Nat.mod_add_mod]
  congr 2
  omega

end Ring
