import Mathlib.MeasureTheory.Measure.Lebesgue.Basic
import Mathlib.Probability.ConditionalProbability
import ReflexLlm.Lib.Nucleus

/-! A draw among weighted items by one number: the first item up to which the weights reach it. For
a number that is uniform below the sum, each item comes up in proportion to its weight. -/

namespace WeightedDraw

open MeasureTheory Nucleus Set

section

variable {α K : Type*} [AddCommGroup K] [LinearOrder K]

/-- The draw, with the weight of what came before. -/
def draw (w : α → K) (r : K) : K → List α → Option α
  | _, [] => none
  | sum, a :: rest => if r ≤ sum + w a then some a else draw w r (sum + w a) rest

/-- What is drawn is the item in whose part of the sum the number lies. -/
theorem draw_spec {w : α → K} {r sum : K} {l : List α} {a : α} (h : draw w r sum l = some a)
    (hsum : sum < r) : ∃ before after, l = before ++ a :: after ∧
      sum + mass w before < r ∧ r ≤ sum + mass w before + w a := by
  induction l generalizing sum with
  | nil => cases h
  | cons b rest ih =>
    rw [draw] at h
    split_ifs at h with hb
    · obtain rfl := Option.some.inj h
      exact ⟨[], rest, rfl, by simpa using hsum, by simpa using hb⟩
    · obtain ⟨before, after, rfl, hlt, hle⟩ := ih h (not_le.mp hb)
      refine ⟨b :: before, after, rfl, ?_, ?_⟩
      · rwa [mass_cons, ← add_assoc]
      · rwa [mass_cons, ← add_assoc]

theorem draw_isSome {w : α → K} {r sum : K} {l : List α} (hne : l ≠ []) (h : r ≤ sum + mass w l) :
    (draw w r sum l).isSome := by
  induction l generalizing sum with
  | nil => exact absurd rfl hne
  | cons b rest ih =>
    rw [draw]
    split_ifs with hb
    · rfl
    · cases rest with
      | nil => exact absurd (by simpa using h) hb
      | cons c rest => exact ih (by simp) (by rwa [mass_cons, ← add_assoc] at h)

theorem draw_mem {w : α → K} {r sum : K} {l : List α} {a : α} (h : draw w r sum l = some a) :
    a ∈ l := by
  induction l generalizing sum with
  | nil => cases h
  | cons b rest ih =>
    rw [draw] at h
    split_ifs at h
    · obtain rfl := Option.some.inj h
      exact List.mem_cons_self
    · exact List.mem_cons_of_mem _ (ih h)

variable [IsOrderedAddMonoid K]

theorem draw_of_mem_part {w : α → K} {r sum : K} {before after : List α} {a : α}
    (hw : ∀ b ∈ before, 0 ≤ w b) (hlt : sum + mass w before < r)
    (hle : r ≤ sum + mass w before + w a) : draw w r sum (before ++ a :: after) = some a := by
  induction before generalizing sum with
  | nil =>
    rw [mass_nil, add_zero] at hle
    rw [List.nil_append, draw, if_pos hle]
  | cons b before ih =>
    rw [mass_cons, ← add_assoc] at hlt hle
    have hnonneg : 0 ≤ mass w before := mass_nonneg fun c hc => hw c (List.mem_cons_of_mem _ hc)
    have hb : ¬ r ≤ sum + w b :=
      not_le.mpr ((le_add_of_nonneg_right hnonneg).trans_lt hlt)
    rw [List.cons_append, draw, if_neg hb]
    exact ih (fun c hc => hw c (List.mem_cons_of_mem _ hc)) hlt hle

/-- The numbers that draw one of several distinct items. -/
theorem draw_eq_iff {w : α → K} {before after : List α} {a : α}
    (hw : ∀ b ∈ before ++ a :: after, 0 ≤ w b) (hnodup : (before ++ a :: after).Nodup) {r : K}
    (hr : 0 < r) : draw w r 0 (before ++ a :: after) = some a ↔
      r ∈ Ioc (mass w before) (mass w before + w a) := by
  constructor
  · intro h
    obtain ⟨before', after', heq, hlt, hle⟩ := draw_spec h hr
    have hnot := (List.nodup_cons.mp (List.nodup_middle.mp hnodup)).1
    rw [List.mem_append, not_or] at hnot
    obtain ⟨rfl, -, -⟩ := (List.append_cons_inj_of_notMem hnot.1 hnot.2).mp heq
    rw [zero_add] at hlt hle
    exact ⟨hlt, hle⟩
  · rintro ⟨hlt, hle⟩
    exact draw_of_mem_part (fun b hb => hw b (List.mem_append_left _ hb)) (by rwa [zero_add])
      (by rwa [zero_add])

end

section

variable {α : Type*} {w : α → ℝ}

/-- The numbers below the sum that draw an item make up its part of the sum. -/
theorem volume_draw {before after : List α} {a : α} (hw : ∀ b ∈ before ++ a :: after, 0 ≤ w b)
    (hnodup : (before ++ a :: after).Nodup) :
    volume (Ico 0 (mass w (before ++ a :: after)) ∩
      {r | draw w r 0 (before ++ a :: after) = some a}) = ENNReal.ofReal (w a) := by
  have hbefore : 0 ≤ mass w before := mass_nonneg fun b hb => hw b (List.mem_append_left _ hb)
  have hafter : 0 ≤ mass w after :=
    mass_nonneg fun b hb => hw b (List.mem_append_right _ (List.mem_cons_of_mem _ hb))
  have hpart : Ioc 0 (mass w (before ++ a :: after)) ∩
      {r | draw w r 0 (before ++ a :: after) = some a} =
        Ioc (mass w before) (mass w before + w a) := by
    ext r
    constructor
    · rintro ⟨hr, hdraw⟩
      exact (draw_eq_iff hw hnodup hr.1).mp hdraw
    · intro hr
      have hpos := hbefore.trans_lt hr.1
      refine ⟨⟨hpos, ?_⟩, (draw_eq_iff hw hnodup hpos).mpr hr⟩
      rw [mass_append, mass_cons]
      linarith [hr.2]
  calc
    volume (Ico 0 (mass w (before ++ a :: after)) ∩
        {r | draw w r 0 (before ++ a :: after) = some a}) =
      volume (Ioc 0 (mass w (before ++ a :: after)) ∩
        {r | draw w r 0 (before ++ a :: after) = some a}) :=
      measure_congr (Ico_ae_eq_Ioc.inter (ae_eq_refl _))
    _ = ENNReal.ofReal (w a) := by rw [hpart, Real.volume_Ioc, add_sub_cancel_left]

/-- Each of distinct items is drawn in proportion to its weight. -/
theorem cond_draw [DecidableEq α] {l : List α} (hw : ∀ b ∈ l, 0 ≤ w b) (hnodup : l.Nodup)
    (hpos : 0 < mass w l) (a : α) :
    ProbabilityTheory.cond volume (Ico 0 (mass w l)) {r | draw w r 0 l = some a} =
      ENNReal.ofReal (if a ∈ l then w a / mass w l else 0) := by
  rw [ProbabilityTheory.cond_apply measurableSet_Ico]
  split_ifs with ha
  · obtain ⟨before, after, rfl⟩ := List.append_of_mem ha
    rw [volume_draw hw hnodup, Real.volume_Ico, sub_zero, ENNReal.ofReal_div_of_pos hpos, mul_comm]
    rfl
  · have hempty : Ico 0 (mass w l) ∩ {r | draw w r 0 l = some a} = ∅ :=
      eq_empty_of_forall_notMem fun r hr => ha (draw_mem hr.2)
    rw [hempty, measure_empty, mul_zero, ENNReal.ofReal_zero]

end

end WeightedDraw
