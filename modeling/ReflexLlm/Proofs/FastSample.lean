import Mathlib.Analysis.Complex.ExponentialBounds
import ReflexLlm.Proofs.Sampling

/-! Whether the fast path keeps what the plain path keeps. Both cut the tokens in
descending order; the fast path compares with `top_p` of the mass of the survivors,
the plain path with `top_p` of the mass of all tokens. -/

namespace JLLM

open Nucleus

variable {K : Type} [Field K] [LinearOrder K]

/-- The same token, or the same ids with the same selection probabilities. -/
def SameSelection : SampleCall K → SampleCall K → Prop
  | .direct id, .direct id' => id = id'
  | .sampleFrom kept, .sampleFrom kept' => ∀ id q,
      (∃ t ∈ kept, t.id = id ∧ t.prob / mass TokenProb.prob kept = q) ↔
        ∃ t ∈ kept', t.id = id ∧ t.prob / mass TokenProb.prob kept' = q
  | _, _ => False

/-- The softmax weights, largest first. -/
def rankedWeights (E : ExpFn K) (scaled : List (Option K)) : List (TokenProb K) :=
  (softmaxWeights E scaled).insertionSort fun a b => b.prob ≤ a.prob

/-- Where the leading tokens outweigh `top_p` of the `top_k` largest they outweigh
`top_p` of all, and if there are fewer finite tokens than `top_k`, `top_p` is less
than one. -/
def CutsAgree (E : ExpFn K) (logits : List (Option K)) (params : SampleParams K) : Prop :=
  let ranked := rankedWeights E (applyTemperature logits params.temperature)
  let top := ranked.take params.topK.toNat
  (∀ c < top.length,
    params.topP * mass TokenProb.prob top < mass TokenProb.prob (top.take c) →
      params.topP * mass TokenProb.prob ranked < mass TokenProb.prob (top.take c)) ∧
  (ranked.length < params.topK.toNat → ranked = [] ∨ params.topP < 1)

instance (E : ExpFn K) (logits : List (Option K)) (params : SampleParams K) :
    Decidable (CutsAgree E logits params) :=
  inferInstanceAs (Decidable ((∀ c < _, _ → _) ∧ (_ → _ ∨ _)))

omit [LinearOrder K] in
theorem SameSelection.mem_id {kept kept' : List (TokenProb K)}
    (h : SameSelection (.sampleFrom kept) (.sampleFrom kept')) (id : ℕ) :
    id ∈ kept.map TokenProb.id ↔ id ∈ kept'.map TokenProb.id := by
  simp only [List.mem_map]
  constructor
  · rintro ⟨t, ht, rfl⟩
    obtain ⟨t', ht', hid, -⟩ := (h t.id _).mp ⟨t, ht, rfl, rfl⟩
    exact ⟨t', ht', hid⟩
  · rintro ⟨t, ht, rfl⟩
    obtain ⟨t', ht', hid, -⟩ := (h t.id _).mpr ⟨t, ht, rfl, rfl⟩
    exact ⟨t', ht', hid⟩

omit [LinearOrder K] in
/-- The same ids are equally many. -/
theorem SameSelection.length_eq {kept kept' : List (TokenProb K)}
    (h : SameSelection (.sampleFrom kept) (.sampleFrom kept'))
    (hnodup : (kept.map TokenProb.id).Nodup) (hnodup' : (kept'.map TokenProb.id).Nodup) :
    kept.length = kept'.length := by
  have := ((List.perm_ext_iff_of_nodup hnodup hnodup').mpr h.mem_id).length_eq
  rwa [List.length_map, List.length_map] at this

omit [LinearOrder K] in
/-- How the candidates are normalised does not matter to the draw. -/
theorem sameSelection_scale (l : List (TokenProb K)) {z z' : K} (hz : z ≠ 0) (hz' : z' ≠ 0) :
    SameSelection (.sampleFrom (l.map (TokenProb.scale z)))
      (.sampleFrom (l.map (TokenProb.scale z'))) := by
  intro id q
  simp only [List.mem_map, exists_exists_and_eq_and, TokenProb.scale_id, TokenProb.scale_prob,
    mass_scale, mul_div_mul_right _ _ hz, mul_div_mul_right _ _ hz']

omit [LinearOrder K] in
/-- Of one list with distinct ids, prefixes make the same selection when they are equally long. -/
theorem sameSelection_take_iff {top zeros : List (TokenProb K)} {z z' : K} (hz : z ≠ 0)
    (hz' : z' ≠ 0) (hnodup : ((top ++ zeros).map TokenProb.id).Nodup) {c c' : ℕ}
    (hc : c ≤ top.length) (hc' : c' ≤ (top ++ zeros).length) :
    SameSelection (.sampleFrom ((top.map (TokenProb.scale z)).take c))
      (.sampleFrom (((top ++ zeros).map (TokenProb.scale z')).take c')) ↔ c = c' := by
  rw [← List.map_take, ← List.map_take]
  constructor
  · intro h
    have hids : ∀ (l : List (TokenProb K)) (y : K),
        (l.map (TokenProb.scale y)).map TokenProb.id = l.map TokenProb.id := fun l y => by
      rw [List.map_map]
      rfl
    have hlen := h.length_eq (by
      rw [hids]
      rw [List.map_append] at hnodup
      exact (List.nodup_append.mp hnodup).1.sublist ((List.take_sublist c top).map _)) (by
      rw [hids]
      exact hnodup.sublist ((List.take_sublist c' _).map _))
    rw [List.length_map, List.length_map, List.length_take, List.length_take] at hlen
    omega
  · rintro rfl
    rw [List.take_append_of_le_length hc]
    exact sameSelection_scale _ hz hz'

variable [IsStrictOrderedRing K]

theorem loopCut_scale {p total : K} (htotal : 0 < total) {l : List (TokenProb K)} {c : ℕ}
    (h : LoopCut TokenProb.prob p (l.map (TokenProb.scale (1 / total))) c) :
    LoopCut TokenProb.prob (p * total) l c where
  le := by simpa using h.le
  pos hl := h.pos (by simpa using hl)
  reached := by
    have := h.reached
    rwa [← List.map_take, mass_scale, mul_one_div, lt_div_iff₀ htotal, List.length_map] at this
  shortest c' hpos hc' := by
    have := h.shortest c' hpos hc'
    rwa [← List.map_take, mass_scale, mul_one_div, div_le_iff₀ htotal] at this

/-- Two cuts of one descending list, the second with zeros appended. -/
theorem loopCut_eq_iff {p total : K} {top zeros : List (TokenProb K)} {c c' : ℕ} (hne : top ≠ [])
    (hpos : ∀ t ∈ top, 0 < t.prob) (htotal : mass TokenProb.prob top ≤ total)
    (htotal' : zeros ≠ [] → total = mass TokenProb.prob top)
    (h : LoopCut TokenProb.prob (p * mass TokenProb.prob top) top c)
    (h' : LoopCut TokenProb.prob (p * total) (top ++ zeros) c') :
    c = c' ↔ (∀ c < top.length,
        p * mass TokenProb.prob top < mass TokenProb.prob (top.take c) →
          p * total < mass TokenProb.prob (top.take c)) ∧
      (zeros ≠ [] → p < 1) := by
  have hmass : 0 < mass TokenProb.prob top := mass_pos hne hpos
  have hcpos := h.pos hne
  have hcpos' := h'.pos (by simp [hne])
  have hle := h.le
  have hle' := h'.le
  rw [List.length_append] at hle'
  have hmono : ∀ {a b : ℕ}, a ≤ b →
      mass TokenProb.prob (top.take a) ≤ mass TokenProb.prob (top.take b) :=
    mass_take_mono fun t ht => (hpos t ht).le
  have htake : ∀ c₀ ≤ top.length, mass TokenProb.prob ((top ++ zeros).take c₀) =
      mass TokenProb.prob (top.take c₀) := fun c₀ hc₀ => by rw [List.take_append_of_le_length hc₀]
  have hwhole : mass TokenProb.prob (top.take top.length) = mass TokenProb.prob top := by
    rw [List.take_length]
  constructor
  · rintro rfl
    constructor
    · intro c₀ hc₀ hover
      rcases Nat.eq_zero_or_pos c₀ with rfl | hc₀pos
      · -- the bound is below zero
        have hp : p < 0 := by
          by_contra hp
          rw [List.take_zero, mass_nil] at hover
          exact absurd hover (not_lt.mpr (mul_nonneg (not_lt.mp hp) hmass.le))
        exact mul_neg_of_neg_of_pos hp (hmass.trans_le htotal)
      · have hcc₀ : c ≤ c₀ := by
          by_contra hlt
          exact absurd hover (not_lt.mpr (h.shortest c₀ hc₀pos (not_le.mp hlt)))
        rcases h'.reached with hr | hr
        · rw [htake c hle] at hr
          exact hr.trans_le (hmono hcc₀)
        · rw [List.length_append] at hr
          omega
    · intro hzeros
      have hzlen := List.length_pos_iff.mpr hzeros
      rcases h'.reached with hr | hr
      · rw [htake c hle, htotal' hzeros] at hr
        have hlt := hr.trans_le ((hmono hle).trans hwhole.le)
        exact lt_of_mul_lt_mul_right (by rwa [one_mul]) hmass.le
      · rw [List.length_append] at hr
        omega
  · rintro ⟨hagree, hsmall⟩
    rcases Nat.lt_trichotomy c c' with hlt | heq | hlt
    · have hshort := h'.shortest c hcpos hlt
      rw [htake c hle] at hshort
      rcases h.reached with hr | rfl
      · rcases Nat.lt_or_ge c top.length with hclen | hclen
        · exact absurd (hagree c hclen hr) (not_lt.mpr hshort)
        · obtain rfl : c = top.length := Nat.le_antisymm hle hclen
          have hzeros : zeros ≠ [] := List.length_pos_iff.mp (by omega)
          rw [htotal' hzeros] at hshort
          exact absurd hr (not_lt.mpr hshort)
      · -- the plain path reaches the zeros
        have hzeros : zeros ≠ [] := List.length_pos_iff.mp (by omega)
        rw [htotal' hzeros, hwhole] at hshort
        exact absurd hshort (not_le.mpr (mul_lt_of_lt_one_left hmass (hsmall hzeros)))
    · exact heq
    · have hshort := h.shortest c' hcpos' hlt
      rcases h'.reached with hr | hr
      · rw [htake c' (by omega)] at hr
        have hp : 0 ≤ p := by
          by_contra hp
          have hneg := mul_neg_of_neg_of_pos (not_le.mp hp) hmass
          have hzero := hmono (Nat.zero_le c')
          rw [List.take_zero, mass_nil] at hzero
          exact absurd (hzero.trans hshort) (not_le.mpr hneg)
        exact absurd (hr.trans_le hshort) (not_lt.mpr (mul_le_mul_of_nonneg_left htotal hp))
      · rw [List.length_append] at hr
        omega

omit [IsStrictOrderedRing K] in
theorem rankedWeights_perm (E : ExpFn K) (scaled : List (Option K)) :
    (rankedWeights E scaled).Perm (softmaxWeights E scaled) :=
  List.perm_insertionSort _ _

omit [IsStrictOrderedRing K] in
/-- Distinct finite logits have distinct weights. -/
theorem softmaxWeights_injOn (E : ExpFn K) {scaled : List (Option K)}
    (hdistinct : scaled.reduceOption.Nodup) :
    ∀ a ∈ softmaxWeights E scaled, ∀ b ∈ softmaxWeights E scaled, a.prob = b.prob → a = b := by
  have hnodup : ((softmaxWeights E scaled).map TokenProb.prob).Nodup := by
    have hexp : (softmaxWeights E scaled).map TokenProb.prob =
        scaled.reduceOption.map fun x => E.exp (x - (maxElement scaled).getD 0) := by
      rw [← finiteTokens_prob, softmaxWeights, List.map_map, List.map_map]
      rfl
    rw [hexp]
    exact hdistinct.map fun x y hxy => sub_left_injective (E.strictMono.injective hxy)
  exact fun a ha b hb hab => List.inj_on_of_nodup_map hnodup ha hb hab

theorem reduceOption_applyTemperature_nodup {T : K} (hT : 0 < T) {logits : List (Option K)}
    (hdistinct : logits.reduceOption.Nodup) : (applyTemperature logits T).reduceOption.Nodup := by
  rw [applyTemperature_pos hT, List.reduceOption_map]
  have hz : (if T = 1 then 1 else 1 / T) ≠ 0 := by
    split
    · exact one_ne_zero
    · exact (one_div_pos.mpr hT).ne'
  exact hdistinct.map (mul_left_injective₀ hz)

omit [Field K] [IsStrictOrderedRing K] in
theorem sampleGreedy_of_none {logits : List (Option K)} (h : ∀ v ∈ logits, v = none) :
    sampleGreedy logits = 0 := by
  rw [← List.zipIdx_map_fst 0 logits] at h
  rw [sampleGreedy]
  generalize logits.zipIdx = entries at h ⊢
  induction entries with
  | nil => rfl
  | cons e entries ih =>
    obtain ⟨v, i⟩ := e
    obtain rfl : v = none := h v (by simp)
    exact ih fun v hv => h v (List.mem_cons_of_mem _ hv)

section

variable (E : ExpFn K) (A : StdAlgo K) {logits : List (Option K)} {params : SampleParams K}

omit [IsStrictOrderedRing K] in
/-- Without a finite logit both paths give token zero. -/
theorem sample_of_no_finite (hT : 0 < params.temperature) (hk : 0 < params.topK)
    (hk' : params.topK < logits.length)
    (hfin : finiteTokens (applyTemperature logits params.temperature) = []) :
    sampleTopKFast E A logits params = some (.direct 0) ∧
      sampleSoftmax E A logits params = .direct 0 := by
  have hnone : ∀ v ∈ logits, v = none := by
    intro v hv
    by_contra hsome
    refine finiteTokens_ne_nil ?_ hfin
    rw [applyTemperature_isSome]
    exact List.mem_map.mpr ⟨v, hv, Option.isSome_iff_ne_none.mpr hsome⟩
  constructor
  · have hscan := (fastScan_top A (show 0 < params.topK.toNat by omega)
      (if params.temperature = 1 then 1 else 1 / params.temperature) logits).perm (A.sort_perm _)
    rw [scaledTokens_eq hT, hfin] at hscan
    have hsorted := List.eq_nil_of_length_eq_zero
      (hscan.choose_spec.2.1.trans (Nat.min_eq_right (Nat.zero_le _)))
    simp only [sampleTopKFast]
    rw [if_neg (by omega), hsorted, sampleGreedy_of_none hnone]
  · have hprob := finiteTokens_prob (applyTemperature logits params.temperature)
    rw [hfin, List.map_nil] at hprob
    have hmax : maxElement (applyTemperature logits params.temperature) = none := by
      rw [maxElement, ← hprob]
      rfl
    simp only [sampleSoftmax, hmax]

theorem sameSelection_iff_cutsAgree (hT : 0 < params.temperature) (hk : 0 < params.topK)
    (hk' : params.topK < logits.length) (hdistinct : logits.reduceOption.Nodup)
    (hfin : finiteTokens (applyTemperature logits params.temperature) ≠ []) :
    ∃ call, sampleTopKFast E A logits params = some call ∧
      (SameSelection call (sampleSoftmax E A logits params) ↔ CutsAgree E logits params) := by
  obtain ⟨top, htop, hdesc, hfast⟩ := sampleTopKFast_eq E A hfin hT hk hk'
  obtain ⟨survivors, zeros, hsurvive, hdesc', hzero, hnodup, hlen, hplain⟩ :=
    sampleSoftmax_survivors E A hfin hT hk hk'
  have hmass := softmaxWeights_mass_pos E hfin
  have hpos := softmaxWeights_pos E (applyTemperature logits params.temperature)
  have hinj := softmaxWeights_injOn E (reduceOption_applyTemperature_nodup hT hdistinct)
  have hperm := rankedWeights_perm E (applyTemperature logits params.temperature)
  have hranked : Descending TokenProb.prob
      (rankedWeights E (applyTemperature logits params.temperature)) :=
    pairwise_insertionSort_prob _
  have hfin' := softmaxWeights_ne_nil E hfin
  refine ⟨_, hfast, ?_⟩
  rw [hplain, CutsAgree]
  have htake := htop.eq_take hperm hranked hinj hdesc
  generalize softmaxWeights E (applyTemperature logits params.temperature) = weights at *
  generalize rankedWeights E (applyTemperature logits params.temperature) = ranked at *
  have hz := one_div_pos.mpr hmass
  have htake' := hsurvive.eq_take (hperm.map _) (descending_scale hz hranked) ?_ hdesc'
  swap
  · simp only [List.forall_mem_map, TokenProb.scale_prob]
    exact fun a ha b hb hab => congrArg _ (hinj a ha b hb (mul_right_cancel₀ hz.ne' hab))
  rw [← List.map_take, ← htake] at htake'
  have hzeros : zeros.map (TokenProb.scale (1 / mass TokenProb.prob weights)) = zeros := by
    refine (List.map_congr_left fun t ht => ?_).trans (List.map_id zeros)
    obtain ⟨i, q⟩ := t
    obtain rfl : q = 0 := hzero _ ht
    simp [TokenProb.scale]
  have htopPos : ∀ t ∈ top, 0 < t.prob := fun t ht =>
    hpos t (hperm.subset (List.mem_of_mem_take (htake ▸ ht)))
  have hrankedLen : 0 < ranked.length := hperm.length_eq ▸ List.length_pos_iff.mpr hfin'
  have htopLen : top.length = min params.topK.toNat ranked.length := by
    rw [htake, List.length_take]
  have htopNe : top ≠ [] := List.length_pos_iff.mp (by omega)
  have hzerosIff : zeros ≠ [] ↔ ranked.length < params.topK.toNat := by
    rw [htake', List.length_map] at hlen
    rw [← List.length_pos_iff]
    omega
  have htotal : mass TokenProb.prob top ≤ mass TokenProb.prob weights := by
    have := mass_take_mono (w := TokenProb.prob) (l := ranked)
      (fun t ht => (hpos t (hperm.subset ht)).le) (Nat.min_le_right params.topK.toNat ranked.length)
    rwa [List.take_length, mass_perm hperm, ← List.take_eq_take_min, ← htake] at this
  have htotal' : zeros ≠ [] → mass TokenProb.prob weights = mass TokenProb.prob top := by
    intro hne
    rw [htake, List.take_of_length_le (hzerosIff.mp hne).le, mass_perm hperm]
  rw [htake', ← hzeros, ← List.map_append] at hnodup ⊢
  rw [List.map_map] at hnodup
  have htopMass := mass_pos htopNe htopPos
  have hcut := loopCut_scale htopMass (topPFilter_cut params.topP
    (top.map (TokenProb.scale (1 / mass TokenProb.prob top))))
  have hcut' := loopCut_scale hmass (topPFilter_cut params.topP
    ((top ++ zeros).map (TokenProb.scale (1 / mass TokenProb.prob weights))))
  rw [List.length_map] at hcut
  rw [sameSelection_take_iff (one_div_pos.mpr htopMass).ne' hz.ne' hnodup hcut.le hcut'.le,
    loopCut_eq_iff htopNe htopPos htotal htotal' hcut hcut']
  rw [← htake, mass_perm hperm, hzerosIff]
  have hne := List.length_pos_iff.mp hrankedLen
  simp only [hne, false_or]

end

/-- The fast path selects like the plain one exactly when the two cuts agree. -/
theorem sampleToken_fast_iff (E : ExpFn K) (A : StdAlgo K) (debug : Bool)
    (logits : List (Option K)) (params : SampleParams K) (recentTokens : List ℕ)
    (hT : 0 < params.temperature) (hk : 0 < params.topK) (hk' : params.topK < logits.length)
    (hdistinct : (applyRepeatPenalty logits recentTokens params.repeatPenalty).reduceOption.Nodup) :
    SameSelection (sampleToken E A debug true logits params recentTokens)
        (sampleToken E A debug false logits params recentTokens) ↔
      CutsAgree E (applyRepeatPenalty logits recentTokens params.repeatPenalty) params := by
  have hlen := congrArg List.length
    (applyRepeatPenalty_isSome logits recentTokens params.repeatPenalty)
  rw [List.length_map, List.length_map] at hlen
  rw [sampleToken_pos E A debug true logits params recentTokens hT,
    sampleToken_pos E A debug false logits params recentTokens hT]
  rw [← hlen] at hk'
  generalize applyRepeatPenalty logits recentTokens params.repeatPenalty = penalised at *
  simp only [if_true, Bool.false_eq_true, if_false, Option.getD_none]
  by_cases hfin : finiteTokens (applyTemperature penalised params.temperature) = []
  · obtain ⟨hfast, hplain⟩ := sample_of_no_finite E A hT hk hk' hfin
    rw [hfast, hplain, Option.getD_some]
    refine iff_of_true rfl ?_
    have hnil : rankedWeights E (applyTemperature penalised params.temperature) = [] := by
      rw [rankedWeights, softmaxWeights, hfin]
      rfl
    simp [CutsAgree, hnil]
  · obtain ⟨call, hcall, hiff⟩ := sameSelection_iff_cutsAgree E A hT hk hk' hdistinct hfin
    rw [hcall, Option.getD_some]
    exact hiff

/-- A low `top_p` keeps the most probable token on both paths. -/
theorem sampleToken_fast_low_topP :
    SameSelection
      (sampleToken rationalExp sortedAlgo false true [some 1, some 0, some 2] ⟨1, 2, 1 / 4, 1⟩ [])
      (sampleToken rationalExp sortedAlgo false false [some 1, some 0, some 2] ⟨1, 2, 1 / 4, 1⟩
        []) :=
  (sampleToken_fast_iff rationalExp sortedAlgo false [some 1, some 0, some 2] ⟨1, 2, 1 / 4, 1⟩ []
    (by decide) (by decide) (by decide) (by decide +kernel)).mpr (by decide +kernel)

noncomputable def realExp : ExpFn ℝ := ⟨Real.exp, Real.exp_pos, Real.exp_strictMono⟩

theorem rankedWeights_zero_neg :
    rankedWeights realExp [some 0, some (-1), some (-2)] =
      [⟨0, 1⟩, ⟨1, Real.exp (-1)⟩, ⟨2, Real.exp (-2)⟩] := by
  have hmax : maxElement [some (0 : ℝ), some (-1), some (-2)] = some 0 := by
    rw [maxElement, List.max?_eq_some_iff]
    simp [List.reduceOption]
  have hweights : softmaxWeights realExp [some (0 : ℝ), some (-1), some (-2)] =
      [⟨0, 1⟩, ⟨1, Real.exp (-1)⟩, ⟨2, Real.exp (-2)⟩] := by
    rw [softmaxWeights, hmax]
    simp [finiteTokens, realExp]
  rw [rankedWeights, hweights]
  refine List.Pairwise.insertionSort_eq ?_
  simp

/-- The two most probable tokens carry 73 and 27 percent of their own mass but 67 and
24 percent of all, so at 70 percent the plain path keeps both and the fast path one. -/
theorem sampleToken_fast_differs :
    (∀ a b, realExp.exp (a - b) = realExp.exp a / realExp.exp b) ∧
      ¬ SameSelection
        (sampleToken realExp sortedAlgo false true [some 0, some (-1), some (-2)]
          ⟨1, 2, 7 / 10, 1⟩ [])
        (sampleToken realExp sortedAlgo false false [some 0, some (-1), some (-2)]
          ⟨1, 2, 7 / 10, 1⟩ []) := by
  refine ⟨Real.exp_sub, fun h => ?_⟩
  rw [sampleToken_pos _ _ _ _ _ _ _ one_pos, sampleToken_pos _ _ _ _ _ _ _ one_pos] at h
  simp only [if_true, Bool.false_eq_true, if_false, Option.getD_none, applyRepeatPenalty,
    le_refl] at h
  have hscaled : applyTemperature [some (0 : ℝ), some (-1), some (-2)] 1 =
      [some 0, some (-1), some (-2)] := by
    rw [applyTemperature, if_pos (Or.inr rfl)]
  have hdistinct : [some (0 : ℝ), some (-1), some (-2)].reduceOption.Nodup := by
    simp [List.reduceOption]
  obtain ⟨call, hcall, hiff⟩ := @sameSelection_iff_cutsAgree ℝ _ _ _ realExp sortedAlgo _
    ⟨1, 2, 7 / 10, 1⟩ one_pos (by decide) (by decide) hdistinct
    (by simp [hscaled, finiteTokens])
  rw [hcall, Option.getD_some, hiff] at h
  have hcut := h.1 1
  simp only [hscaled, rankedWeights_zero_neg] at hcut
  simp only [show (2 : ℤ).toNat = 2 from rfl, List.take_succ_cons, List.take_zero, mass_cons,
    mass_nil, List.length_cons, List.length_nil] at hcut
  have hone := Real.exp_pos (-1)
  have htwo : Real.exp (-2) = Real.exp (-1) * Real.exp (-1) := by
    rw [← Real.exp_add]
    norm_num
  have hinv : Real.exp (-1) * Real.exp 1 = 1 := by
    rw [← Real.exp_add]
    norm_num
  have hlow : 3679 / 10000 > Real.exp (-1) := by nlinarith [Real.exp_one_gt_d9]
  have hhigh : 367 / 1000 < Real.exp (-1) := by nlinarith [Real.exp_one_lt_d9]
  have := hcut (by norm_num) (by linarith)
  nlinarith

end JLLM
