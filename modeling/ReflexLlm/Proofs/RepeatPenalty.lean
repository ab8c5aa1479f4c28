import Mathlib.Algebra.Order.Field.Basic
import Mathlib.Algebra.Order.Field.Rat
import Mathlib.Algebra.Order.Monoid.Unbundled.Pow
import Mathlib.Tactic.NormNum
import ReflexLlm.Spec.Sample

/-! The repetition penalty for windows that hold the same tokens: each occurrence of a token
scales its logit once more. -/

namespace JLLM

variable {K : Type} [Field K] [LinearOrder K] {logits : List (Option K)} {penalty : K}

/-- What the penalty does to a finite logit. -/
def penalise (penalty x : K) : K := if 0 < x then x / penalty else x * penalty

theorem applyRepeatPenalty_getElem? (hpenalty : 1 < penalty) (recentTokens : List ℕ) (id : ℕ) :
    (applyRepeatPenalty logits recentTokens penalty)[id]? =
      logits[id]?.map (Option.map (penalise penalty)^[recentTokens.count id]) := by
  rw [applyRepeatPenalty, if_neg (not_le.mpr hpenalty)]
  induction recentTokens generalizing logits with
  | nil =>
    rw [List.foldl_nil, List.count_nil, Function.iterate_zero]
    simp
  | cons tok recentTokens ih =>
    rw [List.foldl_cons, ih, List.getElem?_modify, List.count_cons]
    by_cases htok : tok = id
    · subst htok
      rw [beq_self_eq_true, if_pos rfl, Function.iterate_succ]
      cases logits[tok]? with
      | none => rfl
      | some v =>
        cases v with
        | none => simp
        | some x => simp [penalise]
    · rw [if_neg (by simpa using htok)]
      simp [htok]

/-- The order of the window does not matter. -/
theorem applyRepeatPenalty_perm {a b : List ℕ} (hpenalty : 1 < penalty) (h : a.Perm b) :
    applyRepeatPenalty logits a penalty = applyRepeatPenalty logits b penalty := by
  apply List.ext_getElem?
  intro id
  rw [applyRepeatPenalty_getElem? hpenalty, applyRepeatPenalty_getElem? hpenalty, h.count_eq]

variable [IsStrictOrderedRing K]

theorem penalise_iterate (hpenalty : 1 < penalty) (x : K) (n : ℕ) :
    (penalise penalty)^[n] x = if 0 < x then x / penalty ^ n else x * penalty ^ n := by
  have hpos : 0 < penalty := zero_lt_one.trans hpenalty
  induction n with
  | zero => simp
  | succ n ih =>
    rw [Function.iterate_succ_apply', ih]
    by_cases hx : 0 < x
    · rw [if_pos hx, if_pos hx, penalise, if_pos (div_pos hx (pow_pos hpos n)), div_div, pow_succ]
    · have hsign : ¬ 0 < x * penalty ^ n :=
        not_lt.mpr (mul_nonpos_of_nonpos_of_nonneg (not_lt.mp hx) (pow_pos hpos n).le)
      rw [if_neg hx, if_neg hx, penalise, if_neg hsign, mul_assoc, pow_succ]

/-- More than once differs from once, for a logit that is not zero. -/
theorem penalise_iterate_eq_iff (hpenalty : 1 < penalty) {x : K} (hx : x ≠ 0) (n : ℕ) :
    (penalise penalty)^[n] x = penalise penalty x ↔ n = 1 := by
  have hpos : 0 < penalty := zero_lt_one.trans hpenalty
  have hpow : penalty ^ n = penalty ↔ n = 1 := by
    conv_lhs => rhs; rw [← pow_one penalty]
    exact (pow_right_injective₀ hpos hpenalty.ne').eq_iff
  rw [penalise_iterate hpenalty, penalise]
  by_cases hsign : 0 < x
  · rw [if_pos hsign, if_pos hsign, div_eq_div_iff (pow_pos hpos n).ne' hpos.ne', mul_right_inj' hx,
      eq_comm]
    exact hpow
  · rw [if_neg hsign, if_neg hsign, mul_right_inj' hx]
    exact hpow

/-- Each token of the window is penalised exactly once, the other logits are as before. -/
def PenalisedOnce (logits : List (Option K)) (recentTokens : List ℕ) (penalty : K)
    (penalised : List (Option K)) : Prop :=
  ∀ id, penalised[id]? =
    if id ∈ recentTokens then logits[id]?.map (Option.map (penalise penalty)) else logits[id]?

theorem penalisedOnce_iff (hpenalty : 1 < penalty) (recentTokens : List ℕ) :
    PenalisedOnce logits recentTokens penalty (applyRepeatPenalty logits recentTokens penalty) ↔
      ∀ id x, logits[id]? = some (some x) → x ≠ 0 → recentTokens.count id ≤ 1 := by
  constructor
  · intro h id x hid hx
    have hvalue := h id
    rw [applyRepeatPenalty_getElem? hpenalty, hid] at hvalue
    by_cases hmem : id ∈ recentTokens
    · rw [if_pos hmem] at hvalue
      have honce : (penalise penalty)^[recentTokens.count id] x = penalise penalty x := by
        simpa using hvalue
      exact ((penalise_iterate_eq_iff hpenalty hx _).mp honce).le
    · rw [List.count_eq_zero_of_not_mem hmem]
      exact Nat.zero_le 1
  · intro h id
    rw [applyRepeatPenalty_getElem? hpenalty]
    by_cases hmem : id ∈ recentTokens
    · rw [if_pos hmem]
      have hcount : 0 < recentTokens.count id := List.count_pos_iff.mpr hmem
      cases hid : logits[id]? with
      | none => rfl
      | some v =>
        cases v with
        | none => rfl
        | some x =>
          by_cases hx : x = 0
          · subst hx
            simp [penalise_iterate hpenalty, penalise]
          · have hone : recentTokens.count id = 1 := by
              have hle := h id x hid hx
              omega
            rw [hone, Function.iterate_one]
    · rw [if_neg hmem, List.count_eq_zero_of_not_mem hmem]
      simp

/-- Windows of the same tokens give the same logits, each token penalised once, exactly when
no token with a logit other than zero is twice in one of them. -/
theorem applyRepeatPenalty_once_iff {logits : List (Option K)} {penalty : K} (hpenalty : 1 < penalty)
    {a b : List ℕ} (hab : ∀ id, id ∈ a ↔ id ∈ b) :
    (applyRepeatPenalty logits a penalty = applyRepeatPenalty logits b penalty ∧
      PenalisedOnce logits a penalty (applyRepeatPenalty logits a penalty) ∧
      PenalisedOnce logits b penalty (applyRepeatPenalty logits b penalty)) ↔
    ∀ id x, logits[id]? = some (some x) → x ≠ 0 → a.count id ≤ 1 ∧ b.count id ≤ 1 := by
  rw [penalisedOnce_iff hpenalty, penalisedOnce_iff hpenalty]
  constructor
  · rintro ⟨-, ha, hb⟩ id x hid hx
    exact ⟨ha id x hid hx, hb id x hid hx⟩
  · intro h
    have ha := fun id x hid hx => (h id x hid hx).1
    have hb := fun id x hid hx => (h id x hid hx).2
    refine ⟨List.ext_getElem? fun id => ?_, ha, hb⟩
    rw [(penalisedOnce_iff hpenalty a).mpr ha id, (penalisedOnce_iff hpenalty b).mpr hb id]
    simp only [hab id]

theorem applyRepeatPenalty_once_reordered :
    applyRepeatPenalty [some (1 : ℚ), some (-3), none] [0, 1] 2 =
        applyRepeatPenalty [some (1 : ℚ), some (-3), none] [1, 0] 2 ∧
      PenalisedOnce [some (1 : ℚ), some (-3), none] [0, 1] 2
        (applyRepeatPenalty [some (1 : ℚ), some (-3), none] [0, 1] 2) ∧
      PenalisedOnce [some (1 : ℚ), some (-3), none] [1, 0] 2
        (applyRepeatPenalty [some (1 : ℚ), some (-3), none] [1, 0] 2) := by
  have hnodup : [0, 1].Nodup ∧ [1, 0].Nodup := by decide
  refine (applyRepeatPenalty_once_iff (by norm_num) fun id => ?_).mpr fun id x _ _ => ?_
  · exact (List.Perm.swap 1 0 []).mem_iff
  · exact ⟨List.nodup_iff_count_le_one.mp hnodup.1 id, List.nodup_iff_count_le_one.mp hnodup.2 id⟩

/-- A token that is twice in the window is penalised twice. -/
theorem applyRepeatPenalty_compounds :
    (∀ id, id ∈ [0] ↔ id ∈ [0, 0]) ∧
      applyRepeatPenalty [some (1 : ℚ)] [0] 2 ≠ applyRepeatPenalty [some (1 : ℚ)] [0, 0] 2 := by
  have honce : applyRepeatPenalty [some (1 : ℚ)] [0] 2 = [some (1 / 2)] := by
    norm_num [applyRepeatPenalty]
  have htwice : applyRepeatPenalty [some (1 : ℚ)] [0, 0] 2 = [some (1 / 4)] := by
    norm_num [applyRepeatPenalty]
  refine ⟨by simp, ?_⟩
  rw [honce, htwice]
  norm_num

end JLLM
