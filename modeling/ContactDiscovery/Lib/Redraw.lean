import Mathlib

/-!
# Values redrawn at every use

A store holds one value for each key. An event either leaves the store alone or uses one key: it
reveals the value that key holds, and the key then holds the event's draw. What a run of events
reveals is a relabelling of the initial values and of the draws:

* `revealed_map` — relabelling the values relabels what is revealed;
* `revealed_getElem?_mem` — what event `j` reveals is an initial value or the draw of an event
  before `j`;
* `revealed_reduceOption_nodup` — with distinct initial values and distinct new draws, no value is
  revealed twice;
* `revealed_eq_names` — so, naming the initial value of key `k` by `Sum.inl k` and the draw of event
  `i` by `Sum.inr i`, what a run reveals is the valuation of a list of names in which no name
  stands twice, and in which event `j` names only draws of events before `j`.
-/

set_option autoImplicit false

namespace Redraw

variable {κ δ ε : Type*} [DecidableEq κ]

/-- What a run of events reveals from the store `held`: an event `(some k, d)` reveals what key
`k` holds, which is `d` from then on; an event `(none, d)` reveals nothing. -/
def revealed : (κ → δ) → List (Option κ × δ) → List (Option δ)
  | _, [] => []
  | held, (some k, d) :: es => some (held k) :: revealed (Function.update held k d) es
  | held, (none, _) :: es => none :: revealed held es

@[simp] theorem revealed_nil (held : κ → δ) : revealed held [] = [] := rfl

@[simp] theorem revealed_cons_some (held : κ → δ) (k : κ) (d : δ) (es : List (Option κ × δ)) :
    revealed held ((some k, d) :: es) = some (held k) :: revealed (Function.update held k d) es :=
  rfl

@[simp] theorem revealed_cons_none (held : κ → δ) (d : δ) (es : List (Option κ × δ)) :
    revealed held ((none, d) :: es) = none :: revealed held es := rfl

@[simp] theorem length_revealed : ∀ (held : κ → δ) (es : List (Option κ × δ)),
    (revealed held es).length = es.length
  | _, [] => rfl
  | held, (some k, d) :: es => by simp [length_revealed _ es]
  | held, (none, _) :: es => by simp [length_revealed _ es]

/-- Relabelling the values relabels what is revealed. -/
theorem revealed_map (f : δ → ε) : ∀ (held : κ → δ) (es : List (Option κ × δ)),
    revealed (f ∘ held) (es.map (Prod.map id f)) = (revealed held es).map (Option.map f)
  | _, [] => rfl
  | held, (some k, d) :: es => by
    rw [List.map_cons, Prod.map_apply, id, revealed_cons_some, ← Function.comp_update,
      revealed_map f _ es, revealed_cons_some, List.map_cons, Option.map_some, Function.comp_apply]
  | held, (none, d) :: es => by
    rw [List.map_cons, Prod.map_apply, id, revealed_cons_none, revealed_map f _ es,
      revealed_cons_none, List.map_cons, Option.map_none]

/-- **What event `j` reveals** is an initial value, or the draw of an event before `j`. Induction
on the run: the store after the first event holds initial values and that event's draw. -/
theorem revealed_getElem?_mem : ∀ {held : κ → δ} {es : List (Option κ × δ)} {j : ℕ} {x : δ},
    (revealed held es)[j]? = some (some x) →
      x ∈ Set.range held ∨ ∃ i < j, (es[i]?).map Prod.snd = some x
  | _, [], _, _, h => by simp at h
  | held, (some k, d) :: es, 0, x, h => by
    simp only [revealed_cons_some, List.getElem?_cons_zero, Option.some.injEq] at h
    exact .inl ⟨k, h⟩
  | held, (some k, d) :: es, j + 1, x, h => by
    rw [revealed_cons_some, List.getElem?_cons_succ] at h
    rcases revealed_getElem?_mem h with ⟨k', hk'⟩ | ⟨i, hi, hx⟩
    · -- the key holds its initial value, or the first event's draw
      by_cases hkk : k' = k
      · subst hkk
        rw [Function.update_self] at hk'
        exact .inr ⟨0, Nat.succ_pos j, by simp [hk']⟩
      · rw [Function.update_of_ne hkk] at hk'
        exact .inl ⟨k', hk'⟩
    · exact .inr ⟨i + 1, by omega, by simpa using hx⟩
  | held, (none, d) :: es, 0, x, h => by simp at h
  | held, (none, d) :: es, j + 1, x, h => by
    rw [revealed_cons_none, List.getElem?_cons_succ] at h
    rcases revealed_getElem?_mem h with hx | ⟨i, hi, hx⟩
    · exact .inl hx
    · exact .inr ⟨i + 1, by omega, by simpa using hx⟩

/-- What a run reveals is an initial value or a draw. -/
theorem revealed_mem {held : κ → δ} {es : List (Option κ × δ)} {x : δ}
    (h : x ∈ (revealed held es).reduceOption) : x ∈ Set.range held ∨ x ∈ es.map Prod.snd := by
  obtain ⟨j, hj⟩ := List.getElem?_of_mem (List.reduceOption_mem_iff.1 h)
  rcases revealed_getElem?_mem hj with hx | ⟨i, -, hx⟩
  · exact .inl hx
  · obtain ⟨e, he, rfl⟩ := Option.map_eq_some_iff.1 hx
    exact .inr (List.mem_map_of_mem (List.mem_of_getElem? he))

/-- Setting a key of a store of distinct values to a new value keeps the values distinct. -/
theorem injective_update {held : κ → δ} (hinj : Function.Injective held) (k : κ) {d : δ}
    (hd : d ∉ Set.range held) : Function.Injective (Function.update held k d) := by
  intro a b hab
  by_cases ha : a = k <;> by_cases hb : b = k
  · rw [ha, hb]
  · rw [ha, Function.update_self, Function.update_of_ne hb] at hab
    exact absurd ⟨b, hab.symm⟩ hd
  · rw [hb, Function.update_self, Function.update_of_ne ha] at hab
    exact absurd ⟨a, hab⟩ hd
  · rw [Function.update_of_ne ha, Function.update_of_ne hb] at hab
    exact hinj hab

/-- **No value is revealed twice** when the initial values are distinct and the draws are
distinct and new. Induction on the run, with these three facts as the invariant: the value the
first event reveals leaves the store, so no later event reveals it. -/
theorem revealed_reduceOption_nodup : ∀ {held : κ → δ} {es : List (Option κ × δ)},
    Function.Injective held → (es.map Prod.snd).Nodup →
      (∀ d ∈ es.map Prod.snd, d ∉ Set.range held) → (revealed held es).reduceOption.Nodup
  | _, [], _, _, _ => List.nodup_nil
  | held, (some k, d) :: es, hinj, hnd, hfresh => by
    rw [List.map_cons, List.nodup_cons] at hnd
    have hd : d ∉ Set.range held := hfresh d List.mem_cons_self
    have hinj' := injective_update hinj k hd
    have hfresh' : ∀ d' ∈ es.map Prod.snd, d' ∉ Set.range (Function.update held k d) := by
      rintro d' hd' ⟨k', hk'⟩
      by_cases hkk : k' = k
      · rw [hkk, Function.update_self] at hk'
        exact hnd.1 (hk' ▸ hd')
      · rw [Function.update_of_ne hkk] at hk'
        exact hfresh d' (List.mem_cons_of_mem _ hd') ⟨k', hk'⟩
    rw [revealed_cons_some, List.reduceOption_cons_of_some, List.nodup_cons]
    refine ⟨fun hmem => ?_, revealed_reduceOption_nodup hinj' hnd.2 hfresh'⟩
    -- the revealed value is neither held any more nor drawn again
    rcases revealed_mem hmem with ⟨k', hk'⟩ | hmem'
    · by_cases hkk : k' = k
      · rw [hkk, Function.update_self] at hk'
        exact hd ⟨k, hk'.symm⟩
      · rw [Function.update_of_ne hkk] at hk'
        exact hkk (hinj hk')
    · exact hfresh (held k) (List.mem_cons_of_mem _ hmem') ⟨k, rfl⟩
  | held, (none, d) :: es, hinj, hnd, hfresh => by
    rw [List.map_cons, List.nodup_cons] at hnd
    rw [revealed_cons_none, List.reduceOption_cons_of_none]
    exact revealed_reduceOption_nodup hinj hnd.2 fun d' hd' => hfresh d' (List.mem_cons_of_mem _ hd')

/-- The names of a run: event `i` draws `Sum.inr i`. -/
def names (es : List (Option κ × δ)) : List (Option κ × (κ ⊕ ℕ)) :=
  es.mapIdx fun i e => (e.1, Sum.inr i)

omit [DecidableEq κ] in
theorem names_map_snd (es : List (Option κ × δ)) :
    (names es).map Prod.snd = (List.range es.length).map Sum.inr := by
  apply List.ext_getElem <;> simp [names]

omit [DecidableEq κ] in
/-- Valuing the names gives back the run. -/
theorem names_map_value [Inhabited δ] (held : κ → δ) (es : List (Option κ × δ)) :
    (names es).map (Prod.map id (Sum.elim held fun i => (es.map Prod.snd).getD i default)) = es := by
  apply List.ext_getElem
  · simp [names]
  · intro i h₁ h₂
    simp [names, List.getD_eq_getElem?_getD, List.getElem?_eq_getElem h₂]

/-- **What a run reveals is a list of names without repetition, valued**: the initial value of
key `k` is named `Sum.inl k`, the draw of event `i` is named `Sum.inr i`, and the names event `j`
reveals are initial values or draws of events before `j`. -/
theorem revealed_eq_names [Inhabited δ] (held : κ → δ) (es : List (Option κ × δ)) :
    ∃ ns : List (Option (κ ⊕ ℕ)), ns.reduceOption.Nodup ∧
      (∀ j i : ℕ, ns[j]? = some (some (Sum.inr i)) → i < j) ∧
      revealed held es = ns.map (Option.map (Sum.elim held fun i => (es.map Prod.snd).getD i default)) := by
  refine ⟨revealed Sum.inl (names es), ?_, fun j i hj => ?_, ?_⟩
  · refine revealed_reduceOption_nodup Sum.inl_injective ?_ ?_
    · rw [names_map_snd]
      exact List.nodup_range.map Sum.inr_injective
    · intro d hd ⟨k, hk⟩
      rw [names_map_snd] at hd
      obtain ⟨i, -, rfl⟩ := List.mem_map.1 hd
      exact Sum.inl_ne_inr hk
  · -- an initial value is no draw, so the name is the draw of an earlier event
    rcases revealed_getElem?_mem hj with ⟨k, hk⟩ | ⟨i', hi', hx⟩
    · exact absurd hk Sum.inl_ne_inr
    · have hlt : i' < es.length := by
        by_contra hge
        rw [List.getElem?_eq_none (by simp [names]; omega)] at hx
        cases hx
      rw [List.getElem?_eq_getElem (by simp [names]; omega)] at hx
      simp only [names, List.getElem_mapIdx, Option.map_some, Option.some.injEq, Sum.inr.injEq] at hx
      omega
  · rw [← revealed_map, names_map_value]
    rfl

end Redraw
