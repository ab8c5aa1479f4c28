import ReflexLlm.Proofs.Sampling

/-! Whether the candidates `sample_token` draws from are a nucleus of the top-k
survivors. `top_p_filter` relies on an order that only the top-k stage establishes;
with that stage off it cuts the vocabulary in the order of the ids. -/

namespace JLLM

open Nucleus

variable {K : Type} [Field K] [LinearOrder K]

/-- The top-k stage keeps fewer tokens than there are. -/
def TopKOn (logits : List (Option K)) (params : SampleParams K) : Prop :=
  0 < params.topK ∧ params.topK < logits.length

instance (logits : List (Option K)) (params : SampleParams K) : Decidable (TopKOn logits params) :=
  inferInstanceAs (Decidable (_ ∧ _))

/-- The call draws from a nucleus of the top-k survivors, whose probabilities are
normalised over the survivors on the fast path and over all tokens on the plain one. -/
def DrawsNucleus (E : ExpFn K) (fastSample : Bool) (logits : List (Option K))
    (params : SampleParams K) (call : SampleCall K) : Prop :=
  let weights := softmaxWeights E (applyTemperature logits params.temperature)
  ∃ kept survivors total, call = .sampleFrom kept ∧ 0 < total ∧
    IsTopK TokenProb.prob (if TopKOn logits params then params.topK.toNat else logits.length)
      (weights.map (TokenProb.scale (1 / total))) survivors ∧
    mass TokenProb.prob (if fastSample ∧ TopKOn logits params then survivors
      else weights.map (TokenProb.scale (1 / total))) = 1 ∧
    IsNucleus TokenProb.prob params.topP survivors kept

/-- The first ids are all finite, no later token weighs more, they exceed the
share `top_p` of the mass and do not without any one of them. -/
def VocabStartsWithNucleus (E : ExpFn K) (logits : List (Option K)) (params : SampleParams K) :
    Prop :=
  let weights := softmaxWeights E (applyTemperature logits params.temperature)
  ∃ c ≤ logits.length, (∀ v ∈ logits.take c, v ≠ none) ∧
    (∀ a ∈ weights.take c, ∀ b ∈ weights.drop c, b.prob ≤ a.prob) ∧
    params.topP * mass TokenProb.prob weights < mass TokenProb.prob (weights.take c) ∧
    ∀ a ∈ weights.take c,
      mass TokenProb.prob (weights.take c) - a.prob ≤ params.topP * mass TokenProb.prob weights

instance (E : ExpFn K) (logits : List (Option K)) (params : SampleParams K) :
    Decidable (VocabStartsWithNucleus E logits params) :=
  inferInstanceAs (Decidable (∃ c ≤ logits.length, _ ∧ _ ∧ _ ∧ _))

variable [IsStrictOrderedRing K]

section

variable (E : ExpFn K) (A : StdAlgo K) {logits : List (Option K)} {params : SampleParams K}
  (hfin : finiteTokens (applyTemperature logits params.temperature) ≠ [])

include hfin

/-- The fast path draws from a nucleus. -/
theorem sampleTopKFast_nucleus (hT : 0 < params.temperature) (hp : 0 ≤ params.topP)
    (hk : TopKOn logits params) :
    ∃ call, sampleTopKFast E A logits params = some call ∧
      DrawsNucleus E true logits params call := by
  obtain ⟨top, htop, hdesc, hcall⟩ := sampleTopKFast_eq E A hfin hT hk.1 hk.2
  have hposTop : 0 < mass TokenProb.prob top := by
    refine mass_pos ?_ fun t ht => ?_
    · rintro rfl
      obtain ⟨rest, -, hlen, -⟩ := htop
      have := List.length_pos_iff.mpr (softmaxWeights_ne_nil E hfin)
      have := hk.1
      simp only [List.length_nil] at hlen
      omega
    · obtain ⟨rest, hsplit, -, -⟩ := htop
      exact softmaxWeights_pos E _ t (hsplit.subset (List.mem_append_left _ ht))
  have hz : 0 < 1 / mass TokenProb.prob top := one_div_pos.mpr hposTop
  refine ⟨_, hcall, _, top.map (TokenProb.scale (1 / mass TokenProb.prob top)), _, rfl, hposTop,
    ?_, ?_, ?_⟩
  · rw [if_pos hk]
    exact isTopK_scale hz htop
  · rw [if_pos ⟨rfl, hk⟩, mass_scale, mul_one_div_cancel hposTop.ne']
  · have hcut := topPFilter_cut params.topP
      (top.map (TokenProb.scale (1 / mass TokenProb.prob top)))
    rw [List.length_map] at hcut
    exact ⟨_, List.Perm.refl _, descending_scale hz hdesc, _, hcut.isCut hp, List.Perm.refl _⟩

/-- So does the plain path behind the top-k filter. -/
theorem sampleSoftmax_nucleus_topK (hT : 0 < params.temperature) (hp : 0 ≤ params.topP)
    (hp' : params.topP < 1) (hk : TopKOn logits params) :
    DrawsNucleus E false logits params (sampleSoftmax E A logits params) := by
  obtain ⟨survivors, zeros, htop, hdesc, -, -, hlen, hcall⟩ :=
    sampleSoftmax_survivors E A hfin hT hk.1 hk.2
  have hmass := softmaxWeights_mass_pos E hfin
  have hone := softmaxWeights_scaled_mass E hfin
  have hcut := (topPFilter_cut params.topP (survivors ++ zeros)).isCut hp
  generalize topPFilter (survivors ++ zeros) (survivors ++ zeros).length params.topP = c at hcut hcall
  have hle : c ≤ survivors.length := by
    by_contra hlt
    obtain ⟨-, -, hmin, -⟩ := id htop
    by_cases hn : survivors.length = params.topK.toNat
    · have := hcut.le
      rw [List.length_append] at this
      omega
    · -- all finite tokens survive, and together they weigh one
      have hall := htop.all (by omega)
      have hshort := hcut.shortest _ (not_le.mp hlt)
      rw [List.take_left, mass_perm hall, hone] at hshort
      exact absurd hshort (not_le.mpr hp')
  refine ⟨_, survivors, _, hcall, hmass, ?_, ?_, ?_⟩
  · rwa [if_pos hk]
  · rwa [if_neg (by simp)]
  · refine ⟨survivors, List.Perm.refl _, hdesc, c, hcut.left hle, ?_⟩
    rw [List.take_append_of_le_length hle]

end

theorem nucleusParts_scale {p total : K} (htotal : 0 < total) {items kept rest : List (TokenProb K)}
    (h : NucleusParts TokenProb.prob (p * total) items kept rest) :
    NucleusParts TokenProb.prob p (items.map (TokenProb.scale (1 / total)))
      (kept.map (TokenProb.scale (1 / total))) (rest.map (TokenProb.scale (1 / total))) where
  split := by
    rw [← List.map_append]
    exact h.split.map _
  dominates := by
    simp only [List.forall_mem_map, TokenProb.scale_prob]
    exact fun a ha b hb =>
      mul_le_mul_of_nonneg_right (h.dominates a ha b hb) (one_div_pos.mpr htotal).le
  enough := by
    rw [mass_scale, mul_one_div, lt_div_iff₀ htotal, List.map_eq_nil_iff]
    exact h.enough
  needed := by
    simp only [List.forall_mem_map, TokenProb.scale_prob, mass_scale, mul_one_div, ← sub_div]
    exact fun a ha => (div_le_iff₀ htotal).mpr (h.needed a ha)

/-! ### The vocabulary in the order of the ids -/

omit [IsStrictOrderedRing K] in
/-- Before the first entry that is not finite candidates and weights agree. -/
theorem softmaxCandidates_take (E : ExpFn K) {scaled : List (Option K)} {c : ℕ}
    (h : ∀ v ∈ scaled.take c, v ≠ none) :
    (softmaxCandidates E scaled).take c = (softmaxWeights E scaled).take c := by
  rw [softmaxCandidates, softmaxWeights, finiteTokens]
  generalize (maxElement scaled).getD 0 = m
  rw [← List.zipIdx_map_fst 0 scaled] at h
  generalize scaled.zipIdx = entries at h ⊢
  induction entries generalizing c with
  | nil => rfl
  | cons e entries ih =>
    cases c with
    | zero => rfl
    | succ c =>
      obtain ⟨v, i⟩ := e
      cases v with
      | none => simp at h
      | some x =>
        have hrest := @ih c fun v hv => h v (by
          rw [List.map_cons, List.take_succ_cons]
          exact List.mem_cons_of_mem _ hv)
        simpa using hrest

omit [IsStrictOrderedRing K] in
/-- A prefix of candidates of positive probability is finite. -/
theorem finite_of_softmaxCandidates_pos (E : ExpFn K) {scaled : List (Option K)} {c : ℕ}
    (h : ∀ t ∈ (softmaxCandidates E scaled).take c, 0 < t.prob) :
    ∀ v ∈ scaled.take c, v ≠ none := by
  intro v hv hnone
  rw [← List.zipIdx_map_fst 0 scaled, ← List.map_take] at hv
  obtain ⟨e, he, rfl⟩ := List.mem_map.mp hv
  rw [softmaxCandidates, ← List.map_take] at h
  have := h _ (List.mem_map_of_mem he)
  rw [hnone] at this
  exact lt_irrefl _ this

omit [IsStrictOrderedRing K] in
theorem applyTemperature_take_finite {T : K} (hT : 0 < T) (logits : List (Option K)) (c : ℕ) :
    (∀ v ∈ (applyTemperature logits T).take c, v ≠ none) ↔ ∀ v ∈ logits.take c, v ≠ none := by
  rw [applyTemperature_pos hT, ← List.map_take, List.forall_mem_map]
  exact forall₂_congr fun v _ => not_congr Option.map_eq_none_iff

omit [IsStrictOrderedRing K] in
theorem softmaxWeights_length_le (E : ExpFn K) {T : K} (hT : 0 < T) (logits : List (Option K)) :
    (softmaxWeights E (applyTemperature logits T)).length ≤ logits.length := by
  rw [softmaxWeights, List.length_map, finiteTokens]
  refine (List.length_filterMap_le _ _).trans ?_
  simp [applyTemperature_pos hT]

section

variable (E : ExpFn K) (A : StdAlgo K) {logits : List (Option K)} {params : SampleParams K}
  (hfin : finiteTokens (applyTemperature logits params.temperature) ≠ [])

include hfin

/-- Without the top-k filter the cut is made in the order of the ids. -/
theorem sampleSoftmax_all (hT : 0 < params.temperature) (hp : 0 ≤ params.topP)
    (hk : ¬ TopKOn logits params) :
    let weights := softmaxWeights E (applyTemperature logits params.temperature)
    let candidates := (softmaxCandidates E (applyTemperature logits params.temperature)).map
      (TokenProb.scale (1 / mass TokenProb.prob weights))
    ∃ c, IsCut TokenProb.prob params.topP candidates c ∧ c ≤ logits.length ∧
      sampleSoftmax E A logits params = .sampleFrom (candidates.take c) := by
  intro weights candidates
  have hlen : candidates.length = logits.length := by
    simp [candidates, softmaxCandidates, applyTemperature_pos hT]
  have hfilter : topKFilter A candidates params.topK = (candidates, candidates.length) := by
    rw [topKFilter, if_pos]
    rw [TopKOn] at hk
    omega
  have hcut := (topPFilter_cut params.topP candidates).isCut hp
  refine ⟨_, hcut, hlen ▸ hcut.le, ?_⟩
  rw [sampleSoftmax_eq E A hfin]
  simp only
  rw [hfilter]

/-- If that draws from a nucleus, the vocabulary starts with one. -/
theorem vocabStartsWithNucleus_of_draws (fastSample : Bool) (hT : 0 < params.temperature)
    (hp : 0 ≤ params.topP) (hp' : params.topP < 1) (hk : ¬ TopKOn logits params)
    (h : DrawsNucleus E fastSample logits params (sampleSoftmax E A logits params)) :
    VocabStartsWithNucleus E logits params := by
  obtain ⟨cut, -, hle, hcall⟩ := sampleSoftmax_all E A hfin hT hp hk
  have hmass := softmaxWeights_mass_pos E hfin
  have hone := softmaxWeights_scaled_mass E hfin
  have hpos := softmaxWeights_pos E (applyTemperature logits params.temperature)
  have hlen := softmaxWeights_length_le E hT logits
  obtain ⟨kept, survivors, total, hkept, htotal, htop, htotalMass, hnucleus⟩ := h
  rw [if_neg hk] at htop
  rw [if_neg (fun h => hk h.2), mass_scale, mul_one_div, div_eq_one_iff_eq htotal.ne'] at htotalMass
  subst htotalMass
  rw [hcall, SampleCall.sampleFrom.injEq, ← List.map_take] at hkept
  subst hkept
  have hz := one_div_pos.mpr hmass
  obtain ⟨rest, hsplit, hdom, henough, hneeded⟩ := hnucleus.parts
  have hperm := hsplit.trans (htop.all (by rwa [List.length_map]))
  have hfinite : ∀ v ∈ (applyTemperature logits params.temperature).take cut, v ≠ none := by
    refine finite_of_softmaxCandidates_pos E fun t ht => ?_
    obtain ⟨t', ht', heq⟩ := List.mem_map.mp
      (hperm.subset (List.mem_append_left _ (List.mem_map_of_mem ht)))
    have hprob : t'.prob = t.prob := mul_right_cancel₀ hz.ne' (congrArg TokenProb.prob heq)
    exact hprob ▸ hpos t' ht'
  rw [softmaxCandidates_take E hfinite] at hperm hdom henough hneeded
  rw [mass_scale, mul_one_div] at henough hneeded
  have hrest : rest.Perm (((softmaxWeights E (applyTemperature logits params.temperature)).drop
      cut).map (TokenProb.scale (1 / mass TokenProb.prob
        (softmaxWeights E (applyTemperature logits params.temperature))))) := by
    refine (List.perm_append_left_iff _).mp (hperm.trans ?_)
    rw [← List.map_append, List.take_append_drop]
  refine ⟨cut, hle, (applyTemperature_take_finite hT logits cut).mp hfinite, ?_, ?_, ?_⟩
  · intro a ha b hb
    refine le_of_mul_le_mul_right ?_ hz
    exact hdom _ (List.mem_map_of_mem ha) _ (hrest.symm.subset (List.mem_map_of_mem hb))
  · rw [← lt_div_iff₀ hmass]
    rcases henough with henough | rfl
    · exact henough
    · rw [List.append_nil] at hperm
      rwa [← mul_one_div, ← mass_scale, mass_perm hperm, hone]
  · intro a ha
    rw [← div_le_iff₀ hmass, sub_div]
    refine le_trans (le_of_eq ?_) (hneeded _ (List.mem_map_of_mem ha))
    rw [TokenProb.scale_prob, mul_one_div]

/-- And if the vocabulary starts with a nucleus, that is what is drawn from. -/
theorem draws_of_vocabStartsWithNucleus (fastSample : Bool) (hT : 0 < params.temperature)
    (hp : 0 ≤ params.topP) (hk : ¬ TopKOn logits params)
    (h : VocabStartsWithNucleus E logits params) :
    DrawsNucleus E fastSample logits params (sampleSoftmax E A logits params) := by
  obtain ⟨cut, hcut, -, hcall⟩ := sampleSoftmax_all E A hfin hT hp hk
  obtain ⟨c, hle, hfinite, hdom, henough, hneeded⟩ := h
  have hmass := softmaxWeights_mass_pos E hfin
  have hone := softmaxWeights_scaled_mass E hfin
  have hpos := softmaxWeights_pos E (applyTemperature logits params.temperature)
  have hlen := softmaxWeights_length_le E hT logits
  have hz := one_div_pos.mpr hmass
  have htake : ∀ c' ≤ c, (softmaxCandidates E (applyTemperature logits params.temperature)).take c' =
      (softmaxWeights E (applyTemperature logits params.temperature)).take c' := by
    intro c' hc'
    refine softmaxCandidates_take E ((applyTemperature_take_finite hT logits c').mpr fun v hv => ?_)
    refine hfinite v ?_
    rw [← Nat.min_eq_left hc', ← List.take_take] at hv
    exact List.mem_of_mem_take hv
  have hcand : (softmaxCandidates E (applyTemperature logits params.temperature)).length =
      logits.length := by
    simp [softmaxCandidates, applyTemperature_pos hT]
  have hweights : c ≤ (softmaxWeights E (applyTemperature logits params.temperature)).length := by
    have := congrArg List.length (htake c le_rfl)
    rw [List.length_take, List.length_take, hcand] at this
    omega
  have hcut' : IsCut TokenProb.prob params.topP ((softmaxCandidates E (applyTemperature logits
      params.temperature)).map (TokenProb.scale (1 / mass TokenProb.prob
        (softmaxWeights E (applyTemperature logits params.temperature))))) c := by
    refine ⟨by rwa [List.length_map, hcand], Or.inl ?_, fun c' hc' => ?_⟩
    · rwa [← List.map_take, mass_scale, htake c le_rfl, mul_one_div, lt_div_iff₀ hmass]
    · rw [← List.map_take, mass_scale, htake c' hc'.le, mul_one_div, div_le_iff₀ hmass]
      generalize softmaxWeights E (applyTemperature logits params.temperature) = weights at *
      -- a shorter prefix misses its next token
      have hnext : weights.take (c' + 1) = weights.take c' ++ [weights[c']] := by
        rw [List.take_add_one, List.getElem?_eq_getElem]
        rfl
      have hmem : weights[c'] ∈ weights.take c :=
        List.mem_take_iff_getElem.mpr ⟨c', by omega, rfl⟩
      have hmono := mass_take_mono (fun a ha => (hpos a ha).le) (Nat.succ_le_of_lt hc')
      rw [hnext, mass_append, mass_cons, mass_nil, add_zero] at hmono
      linarith [hneeded _ hmem]
  rw [hcut.unique hcut', ← List.map_take, htake c le_rfl] at hcall
  have hparts := nucleusParts_scale hmass ⟨by rw [List.take_append_drop], hdom, Or.inl henough, hneeded⟩
  refine ⟨_, _, _, hcall, hmass, ?_, ?_, hparts.isNucleus fun t ht => ?_⟩
  · rw [if_neg hk]
    exact ⟨[], by rw [List.append_nil], (Nat.min_eq_right (by rwa [List.length_map])).symm, by simp⟩
  · rwa [if_neg fun h => hk h.2]
  · obtain ⟨t', ht', rfl⟩ := List.mem_map.mp ht
    exact (mul_pos (hpos t' ht') hz).le

end

/-- `sample_token` draws from a nucleus of the top-k survivors exactly when the top-k
stage is on or the vocabulary happens to start with a nucleus. -/
theorem sampleToken_drawsNucleus_iff (E : ExpFn K) (A : StdAlgo K) (debug fastSample : Bool)
    (logits : List (Option K)) (params : SampleParams K) (recentTokens : List ℕ)
    (hfinite : ∃ x, some x ∈ logits) (hT : 0 < params.temperature) (hp : 0 < params.topP)
    (hp' : params.topP < 1) :
    DrawsNucleus E fastSample (applyRepeatPenalty logits recentTokens params.repeatPenalty) params
        (sampleToken E A debug fastSample logits params recentTokens) ↔
      TopKOn logits params ∨
        VocabStartsWithNucleus E (applyRepeatPenalty logits recentTokens params.repeatPenalty)
          params := by
  have hfin := finiteTokens_penalised hfinite recentTokens params.repeatPenalty params.temperature
  have hlen := congrArg List.length
    (applyRepeatPenalty_isSome logits recentTokens params.repeatPenalty)
  rw [List.length_map, List.length_map] at hlen
  have hon : TopKOn logits params ↔
      TopKOn (applyRepeatPenalty logits recentTokens params.repeatPenalty) params := by
    rw [TopKOn, TopKOn, hlen]
  rw [sampleToken_pos E A debug fastSample logits params recentTokens hT, hon]
  generalize applyRepeatPenalty logits recentTokens params.repeatPenalty = penalised at *
  simp only
  by_cases hk : TopKOn penalised params
  · refine iff_of_true ?_ (Or.inl hk)
    cases fastSample with
    | true =>
      obtain ⟨call, hcall, hnucleus⟩ := sampleTopKFast_nucleus E A hfin hT hp.le hk
      rwa [if_pos rfl, hcall]
    | false => exact sampleSoftmax_nucleus_topK E A hfin hT hp.le hp' hk
  · have hfast : (if fastSample then sampleTopKFast E A penalised params else none) = none := by
      have hnone : sampleTopKFast E A penalised params = none := by
        rw [sampleTopKFast, if_pos]
        rw [TopKOn] at hk
        omega
      rw [hnone, ite_self]
    rw [hfast, Option.getD_none]
    constructor
    · exact fun h => Or.inr (vocabStartsWithNucleus_of_draws E A hfin fastSample hT hp.le hp' hk h)
    · exact fun h => draws_of_vocabStartsWithNucleus E A hfin fastSample hT hp.le hk
        (h.resolve_left hk)

/-- The two most probable of three tokens. -/
theorem sampleToken_drawsNucleus_topTwo :
    DrawsNucleus rationalExp true [some 1, some 0, some 2] ⟨1, 2, 1 / 2, 1⟩
      (sampleToken rationalExp sortedAlgo false true [some 1, some 0, some 2] ⟨1, 2, 1 / 2, 1⟩ []) :=
  (sampleToken_drawsNucleus_iff rationalExp sortedAlgo false true [some 1, some 0, some 2]
    ⟨1, 2, 1 / 2, 1⟩ [] ⟨1, by simp⟩ (by decide) (by norm_num) (by norm_num)).mpr (Or.inl (by decide))

/-- With `top_k` zero the first token is all that is kept, though the last is twice as
probable. -/
theorem sampleToken_keeps_first_id :
    sampleToken rationalExp sortedAlgo false true [some 1, some 0, some 2] ⟨1, 0, 1 / 4, 1⟩ [] =
        .sampleFrom [⟨0, 3 / 11⟩] ∧
      ¬ DrawsNucleus rationalExp true [some 1, some 0, some 2] ⟨1, 0, 1 / 4, 1⟩
        (sampleToken rationalExp sortedAlgo false true [some 1, some 0, some 2] ⟨1, 0, 1 / 4, 1⟩
          []) := by
  refine ⟨by decide +kernel, fun h => ?_⟩
  have hcall : sampleToken rationalExp sortedAlgo false true [some 1, some 0, some 2]
      ⟨1, 0, 1 / 4, 1⟩ [] = sampleSoftmax rationalExp sortedAlgo [some 1, some 0, some 2]
        ⟨1, 0, 1 / 4, 1⟩ := by decide +kernel
  rw [hcall] at h
  have hstart := vocabStartsWithNucleus_of_draws rationalExp sortedAlgo (by decide +kernel) true
    (by decide) (by norm_num) (by norm_num) (by decide) h
  exact absurd hstart (by decide +kernel)

end JLLM
