import Mathlib.Data.List.Basic
import Mathlib.Data.List.Infix

/-! The first occurrence of a pattern in a list, and what of it can be told from a part
of the list: an occurrence that is there stays, and an occurrence that is still to come
starts in the last `pat.length - 1` elements at the earliest. -/

namespace Search

variable {α : Type _}

/-- A pattern that fits in a list does not depend on what follows it. -/
theorem isPrefix_drop_append_iff {pat s : List α} (t : List α) {q : ℕ}
    (h : q + pat.length ≤ s.length) : pat <+: (s ++ t).drop q ↔ pat <+: s.drop q := by
  rw [List.drop_append_of_le_length (by omega)]
  constructor
  · intro hp
    exact List.prefix_of_prefix_length_le hp (List.prefix_append _ _)
      (by rw [List.length_drop]; omega)
  · exact fun hp => hp.trans (List.prefix_append _ _)

variable [DecidableEq α]

/-- Where the pattern occurs first. -/
def find (pat : List α) : List α → Option ℕ
  | [] => if pat = [] then some 0 else none
  | c :: cs => if pat <+: c :: cs then some 0 else (find pat cs).map (· + 1)

variable {pat : List α}

theorem find_eq_none_iff {s : List α} :
    find pat s = none ↔ ∀ q ≤ s.length, ¬ pat <+: s.drop q := by
  induction s with
  | nil =>
    unfold find
    split_ifs with h
    · simp [h]
    · simpa using h
  | cons c cs ih =>
    unfold find
    split_ifs with h
    · exact ⟨fun hc => (by cases hc), fun hq => absurd h (hq 0 (Nat.zero_le _))⟩
    · rw [Option.map_eq_none_iff, ih]
      constructor
      · intro hq q hle
        cases q with
        | zero => exact h
        | succ q => exact hq q (by simpa using hle)
      · exact fun hq q hle => hq (q + 1) (by simpa using hle)

theorem find_eq_some_iff {s : List α} {p : ℕ} :
    find pat s = some p ↔ p ≤ s.length ∧ pat <+: s.drop p ∧ ∀ q < p, ¬ pat <+: s.drop q := by
  induction s generalizing p with
  | nil =>
    unfold find
    split_ifs with h
    · subst h
      constructor
      · intro hp
        obtain rfl := Option.some.inj hp
        simp
      · rintro ⟨hle, -⟩
        rw [Nat.le_zero.mp hle]
    · simp [h]
  | cons c cs ih =>
    unfold find
    split_ifs with h
    · constructor
      · intro hp
        obtain rfl := Option.some.inj hp
        exact ⟨Nat.zero_le _, h, fun q hq => absurd hq (Nat.not_lt_zero _)⟩
      · rintro ⟨-, -, hmin⟩
        cases p with
        | zero => rfl
        | succ p => exact absurd h (hmin 0 (Nat.succ_pos _))
    · rw [Option.map_eq_some_iff]
      constructor
      · rintro ⟨p, hp, rfl⟩
        obtain ⟨hle, hpat, hmin⟩ := ih.mp hp
        refine ⟨Nat.succ_le_succ hle, hpat, fun q hq => ?_⟩
        cases q with
        | zero => exact h
        | succ q => exact hmin q (Nat.lt_of_succ_lt_succ hq)
      · rintro ⟨hle, hpat, hmin⟩
        cases p with
        | zero => exact absurd hpat h
        | succ p =>
          refine ⟨p, ih.mpr ⟨Nat.le_of_succ_le_succ hle, hpat, fun q hq => ?_⟩, rfl⟩
          exact hmin (q + 1) (Nat.succ_lt_succ hq)

theorem find_eq_none_iff_absent {s : List α} : find pat s = none ↔ ¬ pat <:+: s := by
  rw [find_eq_none_iff]
  constructor
  · rintro h ⟨a, b, rfl⟩
    refine h a.length (by simp only [List.length_append]; omega) ?_
    rw [List.append_assoc, List.drop_left]
    exact List.prefix_append _ _
  · exact fun h q _ hp => h (hp.isInfix.trans (List.drop_suffix q s).isInfix)

/-- An occurrence ends inside the list. -/
theorem find_add_length_le {s : List α} {p : ℕ} (h : find pat s = some p) :
    p + pat.length ≤ s.length := by
  obtain ⟨hle, hpat, -⟩ := find_eq_some_iff.mp h
  have hlen := hpat.length_le
  rw [List.length_drop] at hlen
  omega

/-- The list around the occurrence. -/
theorem eq_of_find_eq_some {s : List α} {p : ℕ} (h : find pat s = some p) :
    s = s.take p ++ pat ++ s.drop (p + pat.length) := by
  obtain ⟨-, ⟨t, ht⟩, -⟩ := find_eq_some_iff.mp h
  have hdrop : s.drop (p + pat.length) = t := by
    rw [← List.drop_drop, ← ht, List.drop_left]
  rw [hdrop, List.append_assoc, ht, List.take_append_drop]

/-- An occurrence stays the first one. -/
theorem find_append_of_some {s : List α} {p : ℕ} (h : find pat s = some p) (t : List α) :
    find pat (s ++ t) = some p := by
  have hfits := find_add_length_le h
  obtain ⟨hle, hpat, hmin⟩ := find_eq_some_iff.mp h
  refine find_eq_some_iff.mpr ⟨?_, ?_, fun q hq hp => ?_⟩
  · rw [List.length_append]
    omega
  · exact (isPrefix_drop_append_iff t hfits).mpr hpat
  · exact hmin q hq ((isPrefix_drop_append_iff t (by omega)).mp hp)

/-- An occurrence that was not there before ends in what has been added. -/
theorem lt_of_find_append {s t : List α} {p : ℕ} (h : find pat s = none)
    (hp : find pat (s ++ t) = some p) : s.length < p + pat.length := by
  by_contra hle
  obtain ⟨-, hpat, -⟩ := find_eq_some_iff.mp hp
  exact find_eq_none_iff.mp h p (by omega) ((isPrefix_drop_append_iff t (by omega)).mp hpat)

/-- There is no occurrence before the first one. -/
theorem find_take_of_some {s : List α} {p : ℕ} (hpat : pat ≠ []) (h : find pat s = some p) :
    find pat (s.take p) = none := by
  obtain ⟨hle, -, hmin⟩ := find_eq_some_iff.mp h
  refine find_eq_none_iff.mpr fun q _ hp => ?_
  have hlen := hp.length_le
  have hpos := List.length_pos_iff.mpr hpat
  rw [List.length_drop, List.length_take] at hlen
  refine hmin q (by omega) ?_
  rw [List.drop_take] at hp
  exact hp.trans (List.take_prefix _ _)

/-- What starts no occurrence can be searched without. -/
theorem find_append_left {a u : List α} (h : ∀ q < a.length, ¬ pat <+: (a ++ u).drop q) :
    find pat (a ++ u) = (find pat u).map (a.length + ·) := by
  induction a with
  | nil => simp
  | cons c a ih =>
    have hhead : ¬ pat <+: c :: (a ++ u) := h 0 (by simp)
    have htail : ∀ q < a.length, ¬ pat <+: (a ++ u).drop q :=
      fun q hq => h (q + 1) (by simpa using hq)
    rw [List.cons_append, find, if_neg hhead, ih htail, Option.map_map]
    congr 1
    funext p
    simp only [Function.comp_apply, List.length_cons]
    omega

/-- Holding back one element less than the pattern has is enough. -/
theorem find_append_held {a b : List α} (t : List α) (h : find pat (a ++ b) = none)
    (hheld : a = [] ∨ pat.length ≤ b.length + 1) :
    find pat (a ++ (b ++ t)) = (find pat (b ++ t)).map (a.length + ·) := by
  refine find_append_left fun q hq hp => ?_
  rcases hheld with rfl | hheld
  · exact absurd hq (Nat.not_lt_zero _)
  · rw [← List.append_assoc] at hp
    refine find_eq_none_iff.mp h q ?_ ((isPrefix_drop_append_iff t ?_).mp hp)
    all_goals
      rw [List.length_append]
      omega

end Search
