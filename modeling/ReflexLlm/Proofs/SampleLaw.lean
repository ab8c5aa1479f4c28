import ReflexLlm.Lib.WeightedDraw
import ReflexLlm.Proofs.FastSample

/-! The law of `sample_token` over the reals, with `exp` itself: among the candidates it keeps, a
token is drawn with the probability that the softmax of the penalised and tempered logits gives it
under them, and nothing else is. -/

namespace JLLM

open MeasureTheory Nucleus Set WeightedDraw

/-- The weight of a token under softmax, up to a factor; zero without a finite logit. -/
noncomputable def softWeight (scaled : List (Option ℝ)) (id : ℕ) : ℝ :=
  (scaled[id]?.join.map Real.exp).getD 0

/-- What the numbers of `sample_from` lie below. -/
def SampleCall.total {K : Type} [AddCommGroup K] : SampleCall K → K
  | .direct _ => 0
  | .sampleFrom candidates => mass TokenProb.prob candidates

/-- The call draws among `ids` by their softmax weights. -/
structure DrawsSoftmax (scaled : List (Option ℝ)) (ids : List ℕ) (call : SampleCall ℝ) : Prop where
  nodup : ids.Nodup
  lt : ∀ id ∈ ids, id < scaled.length
  mass_pos : 0 < mass (softWeight scaled) ids
  call : ∃ z, 0 < z ∧ call = .sampleFrom (ids.map fun id => ⟨id, softWeight scaled id * z⟩)

theorem softWeight_nonneg (scaled : List (Option ℝ)) (id : ℕ) : 0 ≤ softWeight scaled id := by
  rw [softWeight]
  cases scaled[id]?.join with
  | none => exact le_rfl
  | some x => exact (Real.exp_pos x).le

theorem softmaxCandidates_prob (scaled : List (Option ℝ)) :
    ∀ t ∈ softmaxCandidates realExp scaled,
      t.prob = softWeight scaled t.id * Real.exp (-(maxElement scaled).getD 0) := by
  intro t ht
  obtain ⟨⟨v, i⟩, hmem, rfl⟩ := List.mem_map.mp ht
  have hget : scaled[i]? = some v := List.mk_mem_zipIdx_iff_getElem?.mp hmem
  rw [softWeight, hget]
  cases v with
  | none => simp
  | some x => simp [realExp, sub_eq_add_neg, Real.exp_add]

/-- Some of the candidates, whatever their order and common factor. -/
theorem drawsSoftmax_of_subperm {scaled : List (Option ℝ)} {kept : List (TokenProb ℝ)} {z : ℝ}
    (hz : 0 < z) (h : kept.Subperm ((softmaxCandidates realExp scaled).map (TokenProb.scale z)))
    (hmass : 0 < mass TokenProb.prob kept) :
    DrawsSoftmax scaled (kept.map TokenProb.id) (.sampleFrom kept) := by
  have hz' : 0 < Real.exp (-(maxElement scaled).getD 0) * z := mul_pos (Real.exp_pos _) hz
  have hprob : ∀ t ∈ kept, t.prob =
      softWeight scaled t.id * (Real.exp (-(maxElement scaled).getD 0) * z) := by
    intro t ht
    obtain ⟨t', ht', rfl⟩ := List.mem_map.mp (h.subset ht)
    rw [TokenProb.scale_prob, TokenProb.scale_id, softmaxCandidates_prob scaled t' ht', mul_assoc]
  have hids : (kept.map TokenProb.id).Subperm (List.range scaled.length) := by
    obtain ⟨l, hperm, hsub⟩ := h
    refine ⟨l.map TokenProb.id, hperm.map _, ?_⟩
    have hmap := hsub.map TokenProb.id
    rw [List.map_map] at hmap
    exact softmaxCandidates_id realExp scaled ▸ hmap
  constructor
  case nodup =>
    obtain ⟨l, hperm, hsub⟩ := hids
    exact hperm.nodup_iff.mp (hsub.nodup List.nodup_range)
  case lt => exact fun id hid => List.mem_range.mp (hids.subset hid)
  case mass_pos =>
    have hsum : mass TokenProb.prob kept = mass (softWeight scaled) (kept.map TokenProb.id) *
        (Real.exp (-(maxElement scaled).getD 0) * z) := by
      rw [mass, mass, List.map_map, ← List.sum_map_mul_right]
      exact congrArg List.sum (List.map_congr_left hprob)
    rw [hsum] at hmass
    exact pos_of_mul_pos_left hmass hz'.le
  case call =>
    refine ⟨_, hz', congrArg _ ?_⟩
    rw [List.map_map]
    exact (List.map_id kept).symm.trans (List.map_congr_left fun t ht => by
      rw [Function.comp_apply, ← hprob t ht]
      rfl)

section

variable (A : StdAlgo ℝ) {logits : List (Option ℝ)} {params : SampleParams ℝ}
  (hfin : finiteTokens (applyTemperature logits params.temperature) ≠ [])
  (hT : 0 < params.temperature) (hp : 0 ≤ params.topP)

include hfin hT hp

theorem sampleTopKFast_drawsSoftmax (hk : 0 < params.topK) (hk' : params.topK < logits.length) :
    ∃ call ids, sampleTopKFast realExp A logits params = some call ∧
      DrawsSoftmax (applyTemperature logits params.temperature) ids call := by
  obtain ⟨top, htop, -, hcall⟩ := sampleTopKFast_eq realExp A hfin hT hk hk'
  have hweights := softmaxWeights_pos realExp (applyTemperature logits params.temperature)
  have htopMass : 0 < mass TokenProb.prob top := htop.mass_pos (by omega)
    (fun t ht => (hweights t ht).le) (softmaxWeights_mass_pos realExp hfin)
  have hz := one_div_pos.mpr htopMass
  have hcut := topPFilter_cut params.topP
    (top.map (TokenProb.scale (1 / mass TokenProb.prob top)))
  rw [List.length_map] at hcut
  refine ⟨_, _, hcall, drawsSoftmax_of_subperm hz ?_ (hcut.mass_pos hp ?_)⟩
  · obtain ⟨rest, hsplit, -, -⟩ := htop
    obtain ⟨zeros, -, hperm⟩ := softmaxCandidates_perm realExp
      (applyTemperature logits params.temperature)
    have hsub : top.Subperm (softmaxCandidates realExp
        (applyTemperature logits params.temperature)) :=
      ((List.sublist_append_left top rest).subperm.trans hsplit.subperm).trans
        ((List.sublist_append_left _ zeros).subperm.trans hperm.symm.subperm)
    obtain ⟨l, hl, hcand⟩ := hsub
    exact (List.take_sublist _ _).subperm.trans ⟨_, hl.map _, hcand.map _⟩
  · rw [mass_scale]
    exact mul_pos htopMass hz

theorem sampleSoftmax_drawsSoftmax :
    ∃ ids, DrawsSoftmax (applyTemperature logits params.temperature) ids
      (sampleSoftmax realExp A logits params) := by
  have hz := one_div_pos.mpr (softmaxWeights_mass_pos realExp hfin)
  have hone := softmaxWeights_scaled_mass realExp hfin
  by_cases hk : 0 < params.topK ∧ params.topK < logits.length
  · obtain ⟨top, htop, -, hcall⟩ := sampleSoftmax_topK realExp A hfin hT hk.1 hk.2
    rw [hcall]
    refine ⟨_, drawsSoftmax_of_subperm hz ?_ ((topPFilter_cut params.topP top).mass_pos hp ?_)⟩
    · obtain ⟨rest, hsplit, -, -⟩ := htop
      exact (List.take_sublist _ _).subperm.trans
        ((List.sublist_append_left top rest).subperm.trans hsplit.subperm)
    · refine htop.mass_pos (by omega) (fun t ht => ?_) ?_
      · obtain ⟨t', ht', rfl⟩ := List.mem_map.mp ht
        exact mul_nonneg (softmaxCandidates_nonneg realExp _ t' ht') hz.le
      · rw [mass_scale, softmaxCandidates_mass, ← mass_scale, hone]
        exact one_pos
  · rw [sampleSoftmax_eq realExp A hfin]
    simp only
    rw [topKFilter, if_pos (by
      rw [List.length_map, softmaxCandidates, List.length_map, List.length_zipIdx,
        applyTemperature_pos hT, List.length_map]
      omega)]
    refine ⟨_, drawsSoftmax_of_subperm hz (List.take_sublist _ _).subperm
      ((topPFilter_cut params.topP _).mass_pos hp ?_)⟩
    rw [mass_scale, softmaxCandidates_mass, ← mass_scale, hone]
    exact one_pos

end

/-! ### The law -/

theorem sampleFromLoop_eq_draw (p : ℕ → ℝ) (r sum : ℝ) (ids : List ℕ) :
    sampleFromLoop r sum (ids.map fun id => ⟨id, p id⟩) = draw p r sum ids := by
  induction ids generalizing sum with
  | nil => rfl
  | cons id ids ih =>
    rw [List.map_cons, sampleFromLoop, draw]
    split_ifs
    · rfl
    · exact ih _

theorem mass_mul (w : ℕ → ℝ) (z : ℝ) (ids : List ℕ) :
    mass (fun id => w id * z) ids = mass w ids * z := by
  rw [mass, mass, ← List.sum_map_mul_right]

/-- A draw by weights comes up with each id in proportion to its weight. -/
theorem DrawsSoftmax.law {scaled : List (Option ℝ)} {ids : List ℕ} {call : SampleCall ℝ}
    (h : DrawsSoftmax scaled ids call) (id : ℕ) :
    ProbabilityTheory.cond volume (Ico 0 call.total) {r | call.token r = id} =
      ENNReal.ofReal (if id ∈ ids then softWeight scaled id / mass (softWeight scaled) ids else 0) := by
  obtain ⟨z, hz, rfl⟩ := h.call
  have htotal : SampleCall.total (.sampleFrom (ids.map fun id => ⟨id, softWeight scaled id * z⟩)) =
      mass (fun id => softWeight scaled id * z) ids := by
    rw [SampleCall.total, mass, List.map_map]
    rfl
  have hpos : 0 < mass (fun id => softWeight scaled id * z) ids := by
    rw [mass_mul]
    exact mul_pos h.mass_pos hz
  have hlaw := cond_draw (w := fun id => softWeight scaled id * z)
    (fun id _ => mul_nonneg (softWeight_nonneg scaled id) hz.le) h.nodup hpos id
  rw [mass_mul, mul_div_mul_right _ _ hz.ne'] at hlaw
  rw [htotal, ← hlaw, ← mass_mul]
  rw [ProbabilityTheory.cond_apply measurableSet_Ico, ProbabilityTheory.cond_apply measurableSet_Ico]
  congr 2
  ext r
  refine and_congr_right fun hr => ?_
  -- below the total the loop always returns
  have hne : ids ≠ [] := by
    rintro rfl
    exact absurd hpos (lt_irrefl _)
  have hbelow : r ≤ 0 + mass (fun id => softWeight scaled id * z) ids := by
    rw [zero_add]
    exact hr.2.le
  obtain ⟨id', hid'⟩ := Option.isSome_iff_exists.mp (draw_isSome hne hbelow)
  rw [Set.mem_ofPred_eq, Set.mem_ofPred_eq, SampleCall.token, sampleFrom, sampleFromLoop_eq_draw,
    hid', Option.getD_some, Option.some.injEq]

theorem DrawsSoftmax.token_mem {scaled : List (Option ℝ)} {ids : List ℕ} {call : SampleCall ℝ}
    (h : DrawsSoftmax scaled ids call) (r : ℝ) : call.token r ∈ ids := by
  obtain ⟨z, -, rfl⟩ := h.call
  rw [SampleCall.token, sampleFrom, sampleFromLoop_eq_draw]
  cases hdraw : draw (fun id => softWeight scaled id * z) r 0 ids with
  | some id => exact draw_mem hdraw
  | none =>
    have hne : ids ≠ [] := by
      rintro rfl
      exact absurd h.mass_pos (lt_irrefl _)
    rw [List.getLast?_map, List.getLast?_eq_some_getLast hne]
    exact List.getLast_mem hne

end JLLM
