import Mathlib.Algebra.BigOperators.Ring.List
import Mathlib.Algebra.Order.Field.Basic
import Mathlib.Data.List.ReduceOption
import ReflexLlm.Proofs.TopK

/-! What the two sampling paths keep. Both weigh the finite logits by the same
softmax weights; the fast path keeps the largest before it normalises, the plain
path normalises over the whole vocabulary. -/

namespace JLLM

open Nucleus

/-! ### Softmax weights -/

section

variable {K : Type} [Field K]

/-- Multiply a probability. -/
def TokenProb.scale (z : K) (t : TokenProb K) : TokenProb K := { t with prob := t.prob * z }

@[simp] theorem TokenProb.scale_id (z : K) (t : TokenProb K) : (t.scale z).id = t.id := rfl

@[simp] theorem TokenProb.scale_prob (z : K) (t : TokenProb K) : (t.scale z).prob = t.prob * z := rfl

theorem mass_scale (z : K) (l : List (TokenProb K)) :
    mass TokenProb.prob (l.map (TokenProb.scale z)) = mass TokenProb.prob l * z := by
  rw [mass, List.map_map, mass, ← List.sum_map_mul_right]
  rfl

theorem normalise_eq (l : List (TokenProb K)) :
    normalise l = l.map (TokenProb.scale (1 / mass TokenProb.prob l)) := rfl

end

variable {K : Type} [Field K] [LinearOrder K]

/-- The finite entries with their ids. -/
def finiteTokens (scaled : List (Option K)) : List (TokenProb K) :=
  scaled.zipIdx.filterMap fun e => e.1.map fun x => ⟨e.2, x⟩

/-- The finite tokens with `exp` of their distance to the largest logit. -/
def softmaxWeights (E : ExpFn K) (scaled : List (Option K)) : List (TokenProb K) :=
  (finiteTokens scaled).map fun t => ⟨t.id, E.exp (t.prob - (maxElement scaled).getD 0)⟩

theorem applyTemperature_pos {T : K} (hT : 0 < T) (logits : List (Option K)) :
    applyTemperature logits T =
      logits.map fun v => v.map fun x => x * (if T = 1 then 1 else 1 / T) := by
  rw [applyTemperature]
  by_cases h1 : T = 1
  · simp [h1]
  · rw [if_neg (not_or.mpr ⟨not_le.mpr hT, h1⟩), if_neg h1]

/-- The scan sees the scaled logits. -/
theorem scaledTokens_eq {T : K} (hT : 0 < T) (logits : List (Option K)) :
    scaledTokens (if T = 1 then 1 else 1 / T) logits.zipIdx =
      finiteTokens (applyTemperature logits T) := by
  rw [applyTemperature_pos hT, finiteTokens, List.zipIdx_map, List.filterMap_map, scaledTokens]
  refine List.filterMap_congr fun e _ => ?_
  obtain ⟨v, i⟩ := e
  cases v <;> rfl

omit [Field K] [LinearOrder K] in
theorem finiteTokens_prob (scaled : List (Option K)) :
    (finiteTokens scaled).map TokenProb.prob = scaled.reduceOption := by
  rw [finiteTokens, List.map_filterMap, List.reduceOption]
  conv_rhs => rw [← List.zipIdx_map_fst 0 scaled, List.filterMap_map]
  refine List.filterMap_congr fun e _ => ?_
  obtain ⟨v, i⟩ := e
  cases v <;> rfl

omit [Field K] [LinearOrder K] in
theorem finiteTokens_ne_nil {scaled : List (Option K)} (h : true ∈ scaled.map Option.isSome) :
    finiteTokens scaled ≠ [] := by
  intro hnil
  have hprob := finiteTokens_prob scaled
  rw [hnil, List.map_nil] at hprob
  obtain ⟨v, hv, hsome⟩ := List.mem_map.mp h
  obtain ⟨x, rfl⟩ := Option.isSome_iff_exists.mp hsome
  have hx := List.reduceOption_mem_iff.mpr hv
  rw [← hprob] at hx
  exact List.not_mem_nil hx

omit [Field K] in
theorem maxElement_none {scaled : List (Option K)} (h : maxElement scaled = none) :
    finiteTokens scaled = [] := by
  have := finiteTokens_prob scaled
  rw [List.max?_eq_none_iff.mp h] at this
  exact List.map_eq_nil_iff.mp this

omit [Field K] in
theorem le_maxElement {scaled : List (Option K)} {m : K} (h : maxElement scaled = some m) :
    ∀ t ∈ finiteTokens scaled, t.prob ≤ m := by
  intro t ht
  refine (List.max?_eq_some_iff.mp h).2 _ ?_
  rw [← finiteTokens_prob]
  exact List.mem_map_of_mem ht

omit [Field K] in
theorem exists_maxElement {scaled : List (Option K)} {m : K} (h : maxElement scaled = some m) :
    ∃ t ∈ finiteTokens scaled, t.prob = m := by
  have hm := (List.max?_eq_some_iff.mp h).1
  rw [← finiteTokens_prob] at hm
  exact List.mem_map.mp hm

theorem softmaxWeights_pos (E : ExpFn K) (scaled : List (Option K)) :
    ∀ t ∈ softmaxWeights E scaled, 0 < t.prob := by
  intro t ht
  obtain ⟨t', -, rfl⟩ := List.mem_map.mp ht
  exact E.pos _

/-- The candidates of the plain path before they are normalised. -/
def softmaxCandidates (E : ExpFn K) (scaled : List (Option K)) : List (TokenProb K) :=
  scaled.zipIdx.map fun e =>
    ⟨e.2, (e.1.map fun x => E.exp (x - (maxElement scaled).getD 0)).getD 0⟩

/-- They are the softmax weights of the finite tokens, and zeros. -/
theorem softmaxCandidates_perm (E : ExpFn K) (scaled : List (Option K)) :
    ∃ zeros, (∀ t ∈ zeros, t.prob = 0) ∧
      (softmaxCandidates E scaled).Perm (softmaxWeights E scaled ++ zeros) := by
  rw [softmaxCandidates, softmaxWeights, finiteTokens]
  generalize (maxElement scaled).getD 0 = m
  induction scaled.zipIdx with
  | nil => exact ⟨[], by simp, by simp⟩
  | cons e entries ih =>
    obtain ⟨zeros, hzero, hperm⟩ := ih
    obtain ⟨v, i⟩ := e
    cases v with
    | none =>
      refine ⟨⟨i, 0⟩ :: zeros, ?_, ?_⟩
      · rintro t ht
        rcases List.mem_cons.mp ht with rfl | ht
        · rfl
        · exact hzero t ht
      · exact (hperm.cons _).trans List.perm_middle.symm
    | some x => exact ⟨zeros, hzero, hperm.cons _⟩

theorem softmaxCandidates_mass (E : ExpFn K) (scaled : List (Option K)) :
    mass TokenProb.prob (softmaxCandidates E scaled) =
      mass TokenProb.prob (softmaxWeights E scaled) := by
  obtain ⟨zeros, hzero, hperm⟩ := softmaxCandidates_perm E scaled
  rw [mass_perm hperm, mass_append]
  have : mass TokenProb.prob zeros = 0 := by
    refine List.sum_eq_zero fun x hx => ?_
    obtain ⟨t, ht, rfl⟩ := List.mem_map.mp hx
    exact hzero t ht
  rw [this, add_zero]

/-! ### The cut of `top_p_filter` -/

variable [IsStrictOrderedRing K]

theorem topPLoop_eq (p : K) (l : List (TokenProb K)) : ∀ (cumsum : K) (i : ℕ),
    ∃ c, topPLoop p cumsum i l = i + c ∧ LoopCut TokenProb.prob (p - cumsum) l c := by
  induction l with
  | nil => exact fun cumsum i => ⟨0, rfl, ⟨le_rfl, fun h => absurd rfl h, Or.inr rfl, by simp⟩⟩
  | cons t l ih =>
    intro cumsum i
    rw [topPLoop]
    by_cases h : p < cumsum + t.prob
    · rw [if_pos h]
      refine ⟨1, rfl, ⟨by simp, fun _ => Nat.one_pos, Or.inl ?_, by omega⟩⟩
      simpa using sub_lt_iff_lt_add'.mpr h
    · rw [if_neg h]
      obtain ⟨c, hc, hcut⟩ := ih (cumsum + t.prob) (i + 1)
      refine ⟨c + 1, by omega, ⟨?_, fun _ => Nat.succ_pos c, ?_, ?_⟩⟩
      · simpa using hcut.le
      · rcases hcut.reached with hr | hr
        · left
          rw [List.take_succ_cons, mass_cons]
          linarith
        · exact Or.inr (by simpa using hr)
      · intro c' hpos hc'
        obtain ⟨d, rfl⟩ := Nat.exists_eq_succ_of_ne_zero hpos.ne'
        rw [List.take_succ_cons, mass_cons]
        rcases Nat.eq_zero_or_pos d with rfl | hd
        · rw [List.take_zero, mass_nil]
          linarith [not_lt.mp h]
        · linarith [hcut.shortest d hd (by omega)]

theorem topPFilter_cut (p : K) (l : List (TokenProb K)) :
    LoopCut TokenProb.prob p l (topPFilter l l.length p) := by
  obtain ⟨c, hc, hcut⟩ := topPLoop_eq p l 0 0
  rw [topPFilter, List.take_length, hc, Nat.zero_add]
  rwa [sub_zero] at hcut

/-! ### The two paths -/

theorem descending_scale {l : List (TokenProb K)} {z : K} (hz : 0 < z)
    (h : Descending TokenProb.prob l) : Descending TokenProb.prob (l.map (TokenProb.scale z)) :=
  List.pairwise_map.mpr (h.imp fun hab => mul_le_mul_of_nonneg_right hab hz.le)

theorem isTopK_scale {k : ℕ} {items sel : List (TokenProb K)} {z : K} (hz : 0 < z)
    (h : IsTopK TokenProb.prob k items sel) :
    IsTopK TokenProb.prob k (items.map (TokenProb.scale z)) (sel.map (TokenProb.scale z)) :=
  h.map fun _ _ hab => mul_le_mul_of_nonneg_right hab hz.le

/-- The candidates of positive probability are the finite tokens. -/
theorem softmaxCandidates_filter (E : ExpFn K) (scaled : List (Option K)) {z : K} (hz : 0 < z) :
    (((softmaxCandidates E scaled).map (TokenProb.scale z)).filter fun t => 0 < t.prob).Perm
      ((softmaxWeights E scaled).map (TokenProb.scale z)) := by
  obtain ⟨zeros, hzero, hperm⟩ := softmaxCandidates_perm E scaled
  refine ((hperm.map (TokenProb.scale z)).filter _).trans ?_
  rw [List.map_append, List.filter_append, List.filter_eq_self.mpr, List.filter_eq_nil_iff.mpr,
    List.append_nil]
  · intro t ht
    obtain ⟨t', ht', rfl⟩ := List.mem_map.mp ht
    simp [hzero t' ht']
  · intro t ht
    obtain ⟨t', ht', rfl⟩ := List.mem_map.mp ht
    exact decide_eq_true (mul_pos (softmaxWeights_pos E scaled t' ht') hz)

omit [IsStrictOrderedRing K] in
theorem softmaxCandidates_nonneg (E : ExpFn K) (scaled : List (Option K)) :
    ∀ t ∈ softmaxCandidates E scaled, 0 ≤ t.prob := by
  intro t ht
  obtain ⟨e, -, rfl⟩ := List.mem_map.mp ht
  cases e.1 with
  | none => exact le_rfl
  | some x => exact (E.pos _).le

omit [IsStrictOrderedRing K] in
theorem softmaxCandidates_id (E : ExpFn K) (scaled : List (Option K)) :
    (softmaxCandidates E scaled).map TokenProb.id = List.range scaled.length := by
  rw [softmaxCandidates, List.map_map, List.range_eq_range', ← List.zipIdx_map_snd 0 scaled]
  rfl

theorem mass_pos {l : List (TokenProb K)} (hne : l ≠ []) (hpos : ∀ t ∈ l, 0 < t.prob) :
    0 < mass TokenProb.prob l := by
  cases l with
  | nil => exact absurd rfl hne
  | cons t l =>
    rw [mass_cons]
    have hl : 0 ≤ mass TokenProb.prob l :=
      mass_nonneg fun a ha => (hpos a (List.mem_cons_of_mem _ ha)).le
    exact add_pos_of_pos_of_nonneg (hpos t List.mem_cons_self) hl

section

variable (E : ExpFn K) (A : StdAlgo K) {logits : List (Option K)} {params : SampleParams K}
  (hfin : finiteTokens (applyTemperature logits params.temperature) ≠ [])

include hfin

omit [IsStrictOrderedRing K] in
theorem softmaxWeights_ne_nil :
    softmaxWeights E (applyTemperature logits params.temperature) ≠ [] := by
  simpa [softmaxWeights] using hfin

theorem softmaxWeights_mass_pos :
    0 < mass TokenProb.prob (softmaxWeights E (applyTemperature logits params.temperature)) :=
  mass_pos (softmaxWeights_ne_nil E hfin) (softmaxWeights_pos E _)

theorem softmaxWeights_scaled_mass :
    mass TokenProb.prob ((softmaxWeights E (applyTemperature logits params.temperature)).map
      (TokenProb.scale (1 / mass TokenProb.prob
        (softmaxWeights E (applyTemperature logits params.temperature))))) = 1 := by
  rw [mass_scale, mul_one_div_cancel (softmaxWeights_mass_pos E hfin).ne']

/-- What the plain path passes on. -/
theorem sampleSoftmax_eq :
    sampleSoftmax E A logits params =
      let scaled := applyTemperature logits params.temperature
      let candidates := (softmaxCandidates E scaled).map
        (TokenProb.scale (1 / mass TokenProb.prob (softmaxWeights E scaled)))
      let filtered := topKFilter A candidates params.topK
      .sampleFrom (filtered.1.take (topPFilter filtered.1 filtered.2 params.topP)) := by
  simp only [sampleSoftmax]
  generalize applyTemperature logits params.temperature = scaled at hfin ⊢
  cases hm : maxElement scaled with
  | none => exact absurd (maxElement_none hm) hfin
  | some m =>
    have hcand : ((scaled.map fun v => (v.map fun x => E.exp (x - m)).getD 0).zipIdx.map
        fun e => (⟨e.2, e.1⟩ : TokenProb K)) = softmaxCandidates E scaled := by
      rw [List.zipIdx_map, List.map_map, softmaxCandidates, hm]
      rfl
    have hsum : (scaled.map fun v => (v.map fun x => E.exp (x - m)).getD 0).sum =
        mass TokenProb.prob (softmaxWeights E scaled) := by
      rw [← softmaxCandidates_mass, mass, ← hcand, List.map_map]
      congr 1
      exact (List.zipIdx_map_fst 0 _).symm
    have hpos : 0 < mass TokenProb.prob (softmaxWeights E scaled) :=
      mass_pos (by simpa [softmaxWeights] using hfin) (softmaxWeights_pos E scaled)
    simp only
    rw [hsum, if_neg (not_le.mpr hpos), hcand, normalise_eq, softmaxCandidates_mass]

/-- With the top-k filter on, its survivors are largest candidates. -/
theorem sampleSoftmax_topK (hT : 0 < params.temperature) (hk : 0 < params.topK)
    (hk' : params.topK < logits.length) :
    let scaled := applyTemperature logits params.temperature
    let total := mass TokenProb.prob (softmaxWeights E scaled)
    ∃ top, IsTopK TokenProb.prob params.topK.toNat
        ((softmaxCandidates E scaled).map (TokenProb.scale (1 / total))) top ∧
      Descending TokenProb.prob top ∧
      sampleSoftmax E A logits params =
        .sampleFrom (top.take (topPFilter top top.length params.topP)) := by
  intro scaled total
  set candidates := (softmaxCandidates E scaled).map (TokenProb.scale (1 / total)) with hcand
  have hlen : candidates.length = logits.length := by
    simp [hcand, softmaxCandidates, scaled, applyTemperature_pos hT]
  have hperm := A.partialSort_perm candidates params.topK.toNat
  have htake : ((A.partialSort candidates params.topK.toNat).take params.topK.toNat).length =
      params.topK.toNat := by
    rw [List.length_take, hperm.length_eq]
    omega
  refine ⟨(A.partialSort candidates params.topK.toNat).take params.topK.toNat,
    ⟨(A.partialSort candidates params.topK.toNat).drop params.topK.toNat, ?_, ?_, ?_⟩,
    A.partialSort_descending _ _, ?_⟩
  · rwa [List.take_append_drop]
  · rw [htake]
    omega
  · exact fun a ha b hb => A.partialSort_top _ _ a ha b hb
  · have hfilter : topKFilter A candidates params.topK =
        (A.partialSort candidates params.topK.toNat, params.topK.toNat) := by
      rw [topKFilter, if_neg]
      omega
    have hcut := (topPFilter_cut params.topP
      ((A.partialSort candidates params.topK.toNat).take params.topK.toNat)).le
    rw [htake] at hcut ⊢
    rw [sampleSoftmax_eq E A hfin]
    simp only
    rw [hfilter, List.take_take, Nat.min_eq_left hcut]
    simp only [topPFilter, List.take_take, Nat.min_self]

/-- The survivors among the finite tokens come first, zeros fill up. -/
theorem sampleSoftmax_survivors (hT : 0 < params.temperature) (hk : 0 < params.topK)
    (hk' : params.topK < logits.length) :
    let weights := softmaxWeights E (applyTemperature logits params.temperature)
    ∃ survivors zeros, IsTopK TokenProb.prob params.topK.toNat
        (weights.map (TokenProb.scale (1 / mass TokenProb.prob weights))) survivors ∧
      Descending TokenProb.prob survivors ∧ (∀ t ∈ zeros, t.prob = 0) ∧
      ((survivors ++ zeros).map TokenProb.id).Nodup ∧
      survivors.length + zeros.length = params.topK.toNat ∧
      sampleSoftmax E A logits params = .sampleFrom ((survivors ++ zeros).take
        (topPFilter (survivors ++ zeros) (survivors ++ zeros).length params.topP)) := by
  intro weights
  obtain ⟨top, htop, hdesc, hcall⟩ := sampleSoftmax_topK E A hfin hT hk hk'
  have hz := one_div_pos.mpr (softmaxWeights_mass_pos E hfin)
  have hsplit := descending_filter hdesc 0
  have hsurvive := (htop.filter 0).items_perm (softmaxCandidates_filter E _ hz)
  obtain ⟨rest, hperm, hlen, -⟩ := htop
  refine ⟨top.filter fun t => 0 < t.prob, top.filter fun t => ¬ 0 < t.prob, hsurvive,
    hdesc.filter _, ?_, ?_, ?_, ?_⟩
  · intro t ht
    have hnot : ¬ 0 < t.prob := by simpa using (List.mem_filter.mp ht).2
    obtain ⟨t', ht', rfl⟩ := List.mem_map.mp
      (hperm.subset (List.mem_append_left _ (List.mem_of_mem_filter ht)))
    exact le_antisymm (not_lt.mp hnot) (mul_nonneg (softmaxCandidates_nonneg E _ t' ht') hz.le)
  · rw [← hsplit]
    have hids := (hperm.map TokenProb.id).nodup_iff.mpr (by
      rw [List.map_map]
      exact softmaxCandidates_id E _ ▸ List.nodup_range)
    rw [List.map_append] at hids
    exact (List.nodup_append.mp hids).1
  · rw [← List.length_append, ← hsplit, hlen]
    simp only [List.length_map, softmaxCandidates, List.length_zipIdx, applyTemperature_pos hT]
    omega
  · rwa [← hsplit]

/-- The candidates of the fast path before its cut are largest softmax weights. -/
theorem sampleTopKFast_eq (hT : 0 < params.temperature) (hk : 0 < params.topK)
    (hk' : params.topK < logits.length) :
    ∃ top, IsTopK TokenProb.prob params.topK.toNat
        (softmaxWeights E (applyTemperature logits params.temperature)) top ∧
      Descending TokenProb.prob top ∧
      sampleTopKFast E A logits params = some (.sampleFrom
        ((top.map (TokenProb.scale (1 / mass TokenProb.prob top))).take
          (topPFilter (top.map (TokenProb.scale (1 / mass TokenProb.prob top))) top.length
            params.topP))) := by
  have hscan := (fastScan_top A (show 0 < params.topK.toNat by omega)
    (if params.temperature = 1 then 1 else 1 / params.temperature) logits).perm (A.sort_perm _)
  have hsort := A.sort_descending (fastScan A params.topK.toNat
    (if params.temperature = 1 then 1 else 1 / params.temperature) logits)
  rw [scaledTokens_eq hT] at hscan
  simp only [sampleTopKFast]
  rw [if_neg (by omega)]
  generalize A.sort (fastScan A params.topK.toNat
    (if params.temperature = 1 then 1 else 1 / params.temperature) logits) = sorted at hscan hsort ⊢
  generalize applyTemperature logits params.temperature = scaled at hscan hfin ⊢
  have hweights : IsTopK TokenProb.prob params.topK.toNat (softmaxWeights E scaled)
      (sorted.map fun t => ⟨t.id, E.exp (t.prob - (maxElement scaled).getD 0)⟩) :=
    hscan.map fun a b hab => E.strictMono.monotone (sub_le_sub_right hab _)
  obtain ⟨m, hm⟩ : ∃ m, maxElement scaled = some m :=
    Option.ne_none_iff_exists'.mp fun hnone => hfin (maxElement_none hnone)
  obtain ⟨rest, hsplit, hlen, hdom⟩ := hscan
  cases sorted with
  | nil =>
    have := List.length_pos_iff.mpr hfin
    simp only [List.length_nil] at hlen
    omega
  | cons front tl =>
    -- the front of the sorted candidates is the largest of all logits
    have hfront : front.prob = m := by
      refine le_antisymm (le_maxElement hm front (hsplit.subset (by simp))) ?_
      obtain ⟨t, ht, rfl⟩ := exists_maxElement hm
      rcases List.mem_append.mp (hsplit.symm.subset ht) with ht | ht
      · rcases List.mem_cons.mp ht with rfl | ht
        · exact le_rfl
        · exact (List.pairwise_cons.mp hsort).1 t ht
      · exact hdom front List.mem_cons_self t ht
    rw [hm, Option.getD_some] at hweights
    simp only
    rw [hfront]
    generalize htop : ((front :: tl).map fun t => (⟨t.id, E.exp (t.prob - m)⟩ : TokenProb K)) = top
      at hweights ⊢
    have hpos : 0 < mass TokenProb.prob top := by
      refine mass_pos (by simp [← htop]) fun t ht => ?_
      rw [← htop] at ht
      obtain ⟨t', -, rfl⟩ := List.mem_map.mp ht
      exact E.pos _
    refine ⟨top, hweights, ?_, ?_⟩
    · rw [← htop]
      exact List.pairwise_map.mpr (hsort.imp fun hab => E.strictMono.monotone (sub_le_sub_right hab m))
    · have hle : ¬ (top.map TokenProb.prob).sum ≤ 0 := not_le.mpr hpos
      rw [if_neg hle, normalise_eq, List.length_map]

end

omit [IsStrictOrderedRing K] in
/-- At a positive temperature the fast path is tried first. -/
theorem sampleToken_pos (E : ExpFn K) (A : StdAlgo K) (debug fastSample : Bool)
    (logits : List (Option K)) (params : SampleParams K) (recentTokens : List ℕ)
    (hT : 0 < params.temperature) :
    sampleToken E A debug fastSample logits params recentTokens =
      let penalised := applyRepeatPenalty logits recentTokens params.repeatPenalty
      ((if fastSample then sampleTopKFast E A penalised params else none)).getD
        (sampleSoftmax E A penalised params) := by
  have hT' : ¬ params.temperature ≤ 0 := not_le.mpr hT
  cases h : sampleTopKFast E A (applyRepeatPenalty logits recentTokens params.repeatPenalty) params <;>
    cases debug <;> cases fastSample <;> simp [sampleToken, hT', h]

omit [IsStrictOrderedRing K] in
theorem applyRepeatPenalty_isSome (logits : List (Option K)) (recentTokens : List ℕ) (penalty : K) :
    (applyRepeatPenalty logits recentTokens penalty).map Option.isSome =
      logits.map Option.isSome := by
  rw [applyRepeatPenalty]
  by_cases h : penalty ≤ 1
  · rw [if_pos h]
  · rw [if_neg h]
    induction recentTokens generalizing logits with
    | nil => rfl
    | cons tok recentTokens ih =>
      rw [List.foldl_cons, ih]
      refine List.ext_getElem? fun i => ?_
      rw [List.getElem?_map, List.getElem?_modify, List.getElem?_map]
      cases logits[i]? with
      | none => rfl
      | some v =>
        by_cases hi : tok = i
        · simp [hi]
        · simp [hi]

omit [IsStrictOrderedRing K] in
theorem applyTemperature_isSome (logits : List (Option K)) (T : K) :
    (applyTemperature logits T).map Option.isSome = logits.map Option.isSome := by
  rw [applyTemperature]
  split
  · rfl
  · rw [List.map_map]
    exact List.map_congr_left fun v _ => Option.isSome_map

omit [IsStrictOrderedRing K] in
/-- Penalty and temperature leave the finite entries finite. -/
theorem finiteTokens_penalised {logits : List (Option K)} (h : ∃ x, some x ∈ logits)
    (recentTokens : List ℕ) (penalty T : K) :
    finiteTokens (applyTemperature (applyRepeatPenalty logits recentTokens penalty) T) ≠ [] := by
  refine finiteTokens_ne_nil ?_
  rw [applyTemperature_isSome, applyRepeatPenalty_isSome]
  obtain ⟨x, hx⟩ := h
  exact List.mem_map.mpr ⟨_, hx, rfl⟩

end JLLM
