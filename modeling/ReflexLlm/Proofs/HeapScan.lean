import ReflexLlm.Proofs.Sampling

/-! What the scan of `sample_top_k_fast` leaves in its heap: the largest finite logits,
each token once. -/

namespace JLLM

open Nucleus

variable {K : Type} [Field K] [LinearOrder K]

/-- The candidates are the `k` largest scaled logits of distinct tokens. -/
structure SelectsLargest (k : ℕ) (invT : K) (logits : List (Option K))
    (candidates : List (TokenProb K)) : Prop where
  nodup : (candidates.map TokenProb.id).Nodup
  length : candidates.length = min k logits.reduceOption.length
  scaled : ∀ t ∈ candidates, ∃ x, logits[t.id]? = some (some x) ∧ t.prob = x * invT
  values : (candidates.map TokenProb.prob).Perm
    (((logits.reduceOption.map (· * invT)).insertionSort fun a b => b ≤ a).take k)
  dominates : ∀ i x, logits[i]? = some (some x) → i ∉ candidates.map TokenProb.id →
    ∀ t ∈ candidates, ∀ y, logits[t.id]? = some (some y) → x ≤ y

omit [LinearOrder K] in
theorem mem_scaledTokens {invT : K} {logits : List (Option K)} {t : TokenProb K} :
    t ∈ scaledTokens invT logits.zipIdx ↔
      ∃ x, logits[t.id]? = some (some x) ∧ t.prob = x * invT := by
  rw [scaledTokens, List.mem_filterMap]
  constructor
  · rintro ⟨⟨v, i⟩, hmem, ht⟩
    obtain ⟨x, rfl, rfl⟩ := Option.map_eq_some_iff.mp ht
    exact ⟨x, List.mem_zipIdx_iff_getElem?.mp hmem, rfl⟩
  · rintro ⟨x, hmem, hprob⟩
    refine ⟨(some x, t.id), List.mem_zipIdx_iff_getElem?.mpr hmem, ?_⟩
    rw [Option.map_some, ← hprob]

omit [LinearOrder K] in
theorem scaledTokens_prob (invT : K) (logits : List (Option K)) :
    (scaledTokens invT logits.zipIdx).map TokenProb.prob = logits.reduceOption.map (· * invT) := by
  rw [← finiteTokens_prob, scaledTokens, finiteTokens, List.map_filterMap, List.map_filterMap,
    List.map_filterMap]
  refine List.filterMap_congr fun e _ => ?_
  obtain ⟨v, i⟩ := e
  cases v <;> rfl

omit [LinearOrder K] in
/-- The scan meets every token once. -/
theorem scaledTokens_nodup (invT : K) (logits : List (Option K)) :
    ((scaledTokens invT logits.zipIdx).map TokenProb.id).Nodup := by
  have hindex : (logits.zipIdx.map Prod.snd).Nodup := by
    rw [List.zipIdx_map_snd]
    exact List.nodup_range'
  rw [List.Nodup, List.pairwise_map] at hindex ⊢
  refine List.pairwise_filterMap.mpr (hindex.imp fun hne t ht t' ht' => ?_)
  obtain ⟨-, -, rfl⟩ := Option.map_eq_some_iff.mp ht
  obtain ⟨-, -, rfl⟩ := Option.map_eq_some_iff.mp ht'
  exact hne

variable [IsStrictOrderedRing K]

omit [Field K] [IsStrictOrderedRing K] in
/-- The largest values do not depend on which of equal items were selected. -/
theorem values_of_top {α : Type*} {w : α → K} {k : ℕ} {items sel : List α}
    (h : IsTopK w k items sel) :
    (sel.map w).Perm (((items.map w).insertionSort fun a b => b ≤ a).take k) := by
  let r : K → K → Prop := fun a b => b ≤ a
  have hsorted (l : List K) : (l.insertionSort r).Pairwise r := by
    have : Std.Total r := ⟨fun a b => le_total b a⟩
    have : IsTrans K r := ⟨fun a b c hab hbc => le_trans hbc hab⟩
    exact List.pairwise_insertionSort r l
  have hvalues : IsTopK id k (items.map w) (sel.map w) := h.map fun _ _ hab => hab
  have hperm : ((sel.map w).insertionSort r).Perm (sel.map w) := List.perm_insertionSort r _
  have htake := (hvalues.perm hperm).eq_take (List.perm_insertionSort r _) (hsorted _)
    (fun _ _ _ _ hab => hab) (hsorted _)
  exact htake ▸ hperm.symm

end JLLM
