import Mathlib.Data.List.Induction

/-! Lists of which the last entry that matters counts: loops in which a later entry
overwrites an earlier one, and the last index with a property. -/

namespace LastHit

/-- What the last hit of a loop leaves. -/
theorem foldl_lastHit {ι σ α : Type _} (get : σ → α) {step : σ → ι → σ} {hit : ι → Option α}
    {xs : List ι} (h : ∀ s, ∀ x ∈ xs, get (step s x) = (hit x).getD (get s)) (s : σ) :
    get (xs.foldl step s) = ((xs.filterMap hit).getLast?).getD (get s) := by
  induction xs generalizing s with
  | nil => rfl
  | cons x xs ih =>
    rw [List.foldl_cons, ih (fun s y hy => h s y (List.mem_cons_of_mem x hy)),
      h s x List.mem_cons_self]
    cases hx : hit x with
    | none => rw [List.filterMap_cons_none hx, Option.getD_none]
    | some val =>
      rw [List.filterMap_cons_some hx, List.getLast?_cons]
      cases (xs.filterMap hit).getLast? <;> rfl

/-- The last entry with a property stands at `k`. -/
def IsLastIndex {α : Type _} (p : α → Prop) (xs : List α) (k : ℕ) : Prop :=
  (∃ x, xs[k]? = some x ∧ p x) ∧ ∀ k' x, xs[k']? = some x → p x → k' ≤ k

section

variable {α : Type _} {p : α → Prop} {xs : List α} {x : α} {k : ℕ}

theorem isLastIndex_concat_of_pos (h : p x) : IsLastIndex p (xs ++ [x]) k ↔ k = xs.length := by
  have hlast : (xs ++ [x])[xs.length]? = some x := List.getElem?_concat_length
  constructor
  · rintro ⟨⟨y, hy, -⟩, hmax⟩
    have hge := hmax _ x hlast h
    obtain ⟨hlt, -⟩ := List.getElem?_eq_some_iff.mp hy
    rw [List.length_append, List.length_singleton] at hlt
    omega
  · rintro rfl
    refine ⟨⟨x, hlast, h⟩, fun k' y hy _ => ?_⟩
    obtain ⟨hlt, -⟩ := List.getElem?_eq_some_iff.mp hy
    rw [List.length_append, List.length_singleton] at hlt
    omega

theorem isLastIndex_concat_of_neg (h : ¬ p x) :
    IsLastIndex p (xs ++ [x]) k ↔ IsLastIndex p xs k := by
  have hget : ∀ (k : ℕ) (y : α), p y → ((xs ++ [x])[k]? = some y ↔ xs[k]? = some y) := by
    intro k y hy
    rw [List.getElem?_append]
    split_ifs with hlt
    · rfl
    · rw [List.getElem?_eq_none (Nat.not_lt.mp hlt), List.getElem?_singleton]
      constructor
      · intro hsome
        split_ifs at hsome
        exact absurd (Option.some.inj hsome ▸ hy) h
      · intro hnone
        cases hnone
  constructor
  · rintro ⟨⟨y, hy, hpy⟩, hmax⟩
    exact ⟨⟨y, (hget k y hpy).mp hy, hpy⟩, fun k' z hz hpz => hmax k' z ((hget k' z hpz).mpr hz) hpz⟩
  · rintro ⟨⟨y, hy, hpy⟩, hmax⟩
    exact ⟨⟨y, (hget k y hpy).mpr hy, hpy⟩, fun k' z hz hpz => hmax k' z ((hget k' z hpz).mp hz) hpz⟩

theorem isLastIndex_congr {q : α → Prop} (h : ∀ (k : ℕ) (x : α), xs[k]? = some x → (p x ↔ q x)) :
    IsLastIndex p xs k ↔ IsLastIndex q xs k := by
  constructor
  · rintro ⟨⟨y, hy, hpy⟩, hmax⟩
    exact ⟨⟨y, hy, (h k y hy).mp hpy⟩, fun k' z hz hqz => hmax k' z hz ((h k' z hz).mpr hqz)⟩
  · rintro ⟨⟨y, hy, hqy⟩, hmax⟩
    exact ⟨⟨y, hy, (h k y hy).mpr hqy⟩, fun k' z hz hpz => hmax k' z hz ((h k' z hz).mp hpz)⟩

theorem exists_isLastIndex (hget : xs[k]? = some x) (hp : p x) :
    ∃ k', k ≤ k' ∧ IsLastIndex p xs k' := by
  induction xs using List.reverseRecOn with
  | nil => cases hget
  | append_singleton xs y ih =>
    by_cases hy : p y
    · obtain ⟨hlt, -⟩ := List.getElem?_eq_some_iff.mp hget
      rw [List.length_append, List.length_singleton] at hlt
      exact ⟨xs.length, by omega, (isLastIndex_concat_of_pos hy).mpr rfl⟩
    · rw [List.getElem?_append] at hget
      split_ifs at hget with hlt
      · obtain ⟨k', hle, hlast⟩ := ih hget
        exact ⟨k', hle, (isLastIndex_concat_of_neg hy).mpr hlast⟩
      · rw [List.getElem?_singleton] at hget
        split_ifs at hget
        exact absurd (Option.some.inj hget ▸ hp) hy

end

end LastHit
