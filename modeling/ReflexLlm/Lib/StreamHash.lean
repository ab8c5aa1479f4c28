import Mathlib.Data.List.Basic

/-! Hashes that absorb a text item by item. Where each round can be undone, two texts
that differ in one item only never have the same hash. -/

namespace StreamHash

variable {σ β : Type*}

/-- A round keeps what it absorbs apart, and the states it starts from. -/
structure Reversible (absorb : σ → β → σ) : Prop where
  state : ∀ b, Function.Injective fun s => absorb s b
  input : ∀ s, Function.Injective (absorb s)

/-- What is absorbed behind a difference does not make up for it. -/
theorem Reversible.foldl_injective {absorb : σ → β → σ} (h : Reversible absorb) (bs : List β) :
    Function.Injective fun s => bs.foldl absorb s := by
  induction bs with
  | nil => exact fun _ _ heq => heq
  | cons b bs ih =>
    intro s s' heq
    exact h.state b (ih heq)

/-- Lists of the same length that differ at one index. -/
structure DiffersOnce (xs ys : List β) : Prop where
  length : xs.length = ys.length
  at_one : ∃ i : ℕ, xs[i]? ≠ ys[i]? ∧ ∀ j, j ≠ i → xs[j]? = ys[j]?

theorem DiffersOnce.split {xs ys : List β} (h : DiffersOnce xs ys) :
    ∃ front b b' back, b ≠ b' ∧ xs = front ++ b :: back ∧ ys = front ++ b' :: back := by
  obtain ⟨hlen, i, hne, heq⟩ := h
  have hi : i < xs.length := by
    by_contra hi
    refine hne ?_
    rw [List.getElem?_eq_none (by omega), List.getElem?_eq_none (by omega)]
  have hi' : i < ys.length := hlen ▸ hi
  rw [List.getElem?_eq_getElem hi, List.getElem?_eq_getElem hi'] at hne
  have hfront : xs.take i = ys.take i := by
    refine List.ext_getElem? fun j => ?_
    rw [List.getElem?_take, List.getElem?_take]
    split_ifs with hj
    · exact heq j (by omega)
    · rfl
  have hback : xs.drop (i + 1) = ys.drop (i + 1) := by
    refine List.ext_getElem? fun j => ?_
    rw [List.getElem?_drop, List.getElem?_drop]
    exact heq _ (by omega)
  refine ⟨xs.take i, xs[i], ys[i], xs.drop (i + 1), fun h => hne (congrArg some h), ?_, ?_⟩
  · rw [List.getElem_cons_drop, List.take_append_drop]
  · rw [hfront, hback, List.getElem_cons_drop, List.take_append_drop]

theorem differsOnce_append (front back : List β) {b b' : β} (h : b ≠ b') :
    DiffersOnce (front ++ b :: back) (front ++ b' :: back) where
  length := by simp
  at_one := by
    refine ⟨front.length, by simpa using h, fun j hj => ?_⟩
    rcases Nat.lt_or_gt_of_ne hj with hlt | hgt
    · rw [List.getElem?_append_left hlt, List.getElem?_append_left hlt]
    · obtain ⟨k, rfl⟩ := Nat.exists_eq_add_of_lt hgt
      rw [Nat.add_assoc, List.getElem?_append_right (by omega),
        List.getElem?_append_right (by omega), Nat.add_sub_cancel_left, List.getElem?_cons_succ,
        List.getElem?_cons_succ]

theorem Reversible.foldl_ne {absorb : σ → β → σ} (h : Reversible absorb) {xs ys : List β}
    (hdiff : DiffersOnce xs ys) (s : σ) : xs.foldl absorb s ≠ ys.foldl absorb s := by
  obtain ⟨front, b, b', back, hne, rfl, rfl⟩ := hdiff.split
  rw [List.foldl_append, List.foldl_append, List.foldl_cons, List.foldl_cons]
  intro heq
  exact hne (h.input _ (h.foldl_injective back heq))

end StreamHash
