import Mathlib.Algebra.Order.Field.Basic
import Mathlib.Algebra.Order.Ring.Rat
import Mathlib.Tactic.Linarith
import ReflexLlm.Lib.Nucleus
import ReflexLlm.Spec.Sample

/-! The candidates of both sampling paths. The bounded heap scan holds the largest
logits seen so far; the partial sort keeps the largest probabilities; both turn
into softmax weights by the same strictly increasing map. -/

namespace JLLM

open Nucleus

section

variable {K : Type} [Field K] [LinearOrder K]

/-- The finite logits with their ids, scaled. -/
def scaledTokens (invT : K) (entries : List (Option K × ℕ)) : List (TokenProb K) :=
  entries.filterMap fun e => e.1.map fun x => ⟨e.2, x * invT⟩

/-- The heap holds the largest values of the tokens seen. -/
structure ScanInv (A : StdAlgo K) (k : ℕ) (seen candidates : List (TokenProb K)) : Prop where
  isHeap : A.IsHeap candidates
  top : IsTopK TokenProb.prob k seen candidates

section

variable (A : StdAlgo K) {k : ℕ}

omit [Field K]

/-- While there is room the entry is pushed: nothing was dropped so far. -/
theorem ScanInv.push {seen heap : List (TokenProb K)} (h : ScanInv A k seen heap)
    (hroom : heap.length < k) (e : TokenProb K) :
    ScanInv A k (seen ++ [e]) (A.pushHeap (heap ++ [e])) := by
  obtain ⟨hheap, rest, hsplit, hlen, hdom⟩ := h
  have hsplitLen := hsplit.length_eq
  rw [List.length_append] at hsplitLen
  have hrest : rest = [] := List.eq_nil_of_length_eq_zero (by omega)
  subst hrest
  have hpush := A.pushHeap_perm (heap ++ [e])
  refine ⟨A.pushHeap_isHeap heap _ hheap, [], ?_, ?_, by simp⟩
  · rw [List.append_nil] at hsplit ⊢
    exact hpush.trans (hsplit.append_right [e])
  · rw [hpush.length_eq]
    simp only [List.length_append, List.length_singleton]
    omega

/-- The front of the heap is its smallest. -/
theorem front_le_all {front : TokenProb K} {tl : List (TokenProb K)} (hheap : A.IsHeap (front :: tl)) :
    ∀ a ∈ front :: tl, front.prob ≤ a.prob := by
  intro a ha
  rcases List.mem_cons.mp ha with rfl | ha
  · exact le_rfl
  · exact A.front_le front tl hheap a ha

/-- A larger entry takes the place of the front. -/
theorem ScanInv.replace {seen tl : List (TokenProb K)} {front : TokenProb K}
    (h : ScanInv A k seen (front :: tl)) (hfull : ¬ (front :: tl).length < k) {e : TokenProb K}
    (he : front.prob < e.prob) :
    ScanInv A k (seen ++ [e]) (A.pushHeap ((A.popHeap (front :: tl)).dropLast ++ [e])) := by
  obtain ⟨hheap, rest, hsplit, hlen, hdom⟩ := h
  have hsplitLen := hsplit.length_eq
  have hmin := front_le_all A hheap
  simp only [List.length_append, List.length_cons] at hlen hsplitLen hfull
  obtain ⟨l', hpop, hheap', hperm'⟩ := A.popHeap_front front tl hheap
  rw [hpop, List.dropLast_concat]
  have hpush := A.pushHeap_perm (l' ++ [e])
  refine ⟨A.pushHeap_isHeap l' _ hheap', front :: rest, ?_, ?_, ?_⟩
  · have hmove : List.Perm (l' ++ [e] ++ front :: rest) (front :: tl ++ rest ++ [e]) := by
      refine List.Perm.trans ?_ List.perm_append_comm
      simp only [List.append_assoc, List.cons_append]
      refine List.perm_middle.trans (List.Perm.cons _ ?_)
      exact List.perm_middle.trans ((hperm'.append_right rest).cons front)
    exact (hpush.append_right _).trans (hmove.trans (hsplit.append_right _))
  · rw [hpush.length_eq]
    have hlen' := hperm'.length_eq
    simp only [List.length_append, List.length_cons, List.length_nil]
    omega
  · intro a ha b hb
    have hbf : b.prob ≤ front.prob := by
      rcases List.mem_cons.mp hb with rfl | hb
      · exact le_rfl
      · exact hdom front List.mem_cons_self b hb
    rcases List.mem_append.mp (hpush.subset ha) with ha | ha
    · exact hbf.trans (hmin a (List.mem_cons_of_mem _ (hperm'.subset ha)))
    · rw [List.mem_singleton.mp ha]
      exact hbf.trans he.le

/-- An entry no larger than the front is dropped. -/
theorem ScanInv.keep {seen tl : List (TokenProb K)} {front : TokenProb K}
    (h : ScanInv A k seen (front :: tl)) (hfull : ¬ (front :: tl).length < k) {e : TokenProb K}
    (he : ¬ front.prob < e.prob) : ScanInv A k (seen ++ [e]) (front :: tl) := by
  obtain ⟨hheap, rest, hsplit, hlen, hdom⟩ := h
  have hsplitLen := hsplit.length_eq
  have hmin := front_le_all A hheap
  refine ⟨hheap, rest ++ [e], ?_, ?_, ?_⟩
  · rw [← List.append_assoc]
    exact hsplit.append_right [e]
  · simp only [List.length_append, List.length_cons, List.length_nil] at *
    omega
  · intro a ha b hb
    rcases List.mem_append.mp hb with hb | hb
    · exact hdom a ha b hb
    · rw [List.mem_singleton.mp hb]
      exact (not_lt.mp he).trans (hmin a ha)

end

section

variable (A : StdAlgo K) {k : ℕ} (hk : 0 < k) (invT : K)

include hk

/-- One finite logit more. -/
theorem scanInv_some {seen heap : List (TokenProb K)} (h : ScanInv A k seen heap) (x : K) (i : ℕ) :
    ScanInv A k (seen ++ [⟨i, x * invT⟩]) (fastScanStep A k invT heap (some x, i)) := by
  simp only [fastScanStep]
  by_cases hroom : heap.length < k
  · rw [if_pos hroom]
    exact h.push A hroom _
  · rw [if_neg hroom]
    cases heap with
    | nil =>
      simp only [List.length_nil] at hroom
      omega
    | cons front tl =>
      simp only
      split_ifs with hv
      · exact h.replace A hroom hv
      · exact h.keep A hroom hv

/-- The scan from any point on. -/
theorem scanInv_foldl (entries : List (Option K × ℕ)) :
    ∀ {seen heap : List (TokenProb K)}, ScanInv A k seen heap →
      ScanInv A k (seen ++ scaledTokens invT entries) (entries.foldl (fastScanStep A k invT) heap) := by
  induction entries with
  | nil =>
    intro seen heap h
    simpa [scaledTokens] using h
  | cons e entries ih =>
    intro seen heap h
    obtain ⟨v, i⟩ := e
    rw [List.foldl_cons]
    cases v with
    | none => exact ih h
    | some x =>
      have hstep := ih (scanInv_some A hk invT h x i)
      rw [List.append_assoc] at hstep
      exact hstep

/-- After the scan the candidates are `k` largest finite logits. -/
theorem fastScan_top (logits : List (Option K)) :
    IsTopK TokenProb.prob k (scaledTokens invT logits.zipIdx) (fastScan A k invT logits) := by
  have hnil : ScanInv A k [] [] := ⟨A.isHeap_nil, [], List.Perm.refl _, by simp, by simp⟩
  exact (scanInv_foldl A hk invT logits.zipIdx hnil).top

end

end

/-! ### An instance -/

section

variable {K : Type} [LinearOrder K]

theorem pairwise_insertionSort_prob (l : List (TokenProb K)) :
    (l.insertionSort fun a b => b.prob ≤ a.prob).Pairwise fun a b => b.prob ≤ a.prob := by
  let r : TokenProb K → TokenProb K → Prop := fun a b => b.prob ≤ a.prob
  have : Std.Total r := ⟨fun a b => le_total b.prob a.prob⟩
  have : IsTrans (TokenProb K) r := ⟨fun _ _ _ hab hbc => le_trans hbc hab⟩
  exact List.pairwise_insertionSort r l

/-- The heap is kept as an ascending list. -/
def sortedAlgo : StdAlgo K where
  sort l := l.insertionSort fun a b => b.prob ≤ a.prob
  sort_perm l := List.perm_insertionSort _ l
  sort_descending l := pairwise_insertionSort_prob l
  partialSort l _ := l.insertionSort fun a b => b.prob ≤ a.prob
  partialSort_perm l _ := List.perm_insertionSort _ l
  partialSort_descending l k := (pairwise_insertionSort_prob l).sublist (List.take_sublist k _)
  partialSort_top l k := by
    have h := pairwise_insertionSort_prob l
    rw [← List.take_append_drop k (l.insertionSort _)] at h
    exact (List.pairwise_append.mp h).2.2
  IsHeap l := l.Pairwise fun a b => a.prob ≤ b.prob
  isHeap_nil := List.Pairwise.nil
  front_le _ _ h := (List.pairwise_cons.mp h).1
  pushHeap l := (l.insertionSort fun a b => b.prob ≤ a.prob).reverse
  pushHeap_perm l := (List.reverse_perm _).trans (List.perm_insertionSort _ l)
  pushHeap_isHeap l x _ := List.pairwise_reverse.mpr (pairwise_insertionSort_prob (l ++ [x]))
  popHeap
    | [] => []
    | x :: l => l ++ [x]
  popHeap_front _ l h := ⟨l, rfl, (List.pairwise_cons.mp h).2, List.Perm.refl l⟩

end

/-- A rational stand-in for `expf`. -/
def rationalExp : ExpFn ℚ where
  exp x := if 0 ≤ x then 1 + x else 1 / (1 - x)
  pos x := by
    split
    · linarith
    · exact one_div_pos.mpr (by linarith)
  strictMono x y hxy := by
    simp only
    split <;> split
    · linarith
    · linarith
    · have : 1 / (1 - x) < 1 := (div_lt_one (by linarith)).mpr (by linarith)
      linarith
    · exact one_div_lt_one_div_of_lt (by linarith) (by linarith)

end JLLM
