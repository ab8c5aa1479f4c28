import Mathlib.Algebra.Field.Defs
import Mathlib.Algebra.Order.Monoid.Defs
import Mathlib.Order.Monotone.Basic
import Mathlib.Data.List.Sort

/-! Token sampling of `src/engine/sample.cpp` in exact arithmetic over an ordered
field. `expf` is a positive strictly increasing function; a logit that is not
finite is `none`. The standard algorithms are any that do what the standard
promises, so ties and heap shapes are left open. -/

namespace JLLM

/-- What the sampler relies on from `expf`. -/
structure ExpFn (K : Type) [Zero K] [LinearOrder K] where
  exp : K → K
  pos : ∀ x, 0 < exp x
  strictMono : StrictMono exp

structure TokenProb (K : Type) where
  id : ℕ
  prob : K
deriving DecidableEq, Repr

/-- `std::sort` and `std::partial_sort` by descending `prob`, and the heap
operations with the smallest `prob` in front. -/
structure StdAlgo (K : Type) [LinearOrder K] where
  sort : List (TokenProb K) → List (TokenProb K)
  sort_perm : ∀ l, (sort l).Perm l
  sort_descending : ∀ l, (sort l).Pairwise fun a b => b.prob ≤ a.prob
  partialSort : List (TokenProb K) → ℕ → List (TokenProb K)
  partialSort_perm : ∀ l k, (partialSort l k).Perm l
  partialSort_descending : ∀ l k, ((partialSort l k).take k).Pairwise fun a b => b.prob ≤ a.prob
  partialSort_top : ∀ l k, ∀ a ∈ (partialSort l k).take k, ∀ b ∈ (partialSort l k).drop k,
    b.prob ≤ a.prob
  IsHeap : List (TokenProb K) → Prop
  isHeap_nil : IsHeap []
  front_le : ∀ x l, IsHeap (x :: l) → ∀ y ∈ l, x.prob ≤ y.prob
  /-- The last element has just been added. -/
  pushHeap : List (TokenProb K) → List (TokenProb K)
  pushHeap_perm : ∀ l, (pushHeap l).Perm l
  pushHeap_isHeap : ∀ l x, IsHeap l → IsHeap (pushHeap (l ++ [x]))
  /-- The front moves to the end, the others stay a heap. -/
  popHeap : List (TokenProb K) → List (TokenProb K)
  popHeap_front : ∀ x l, IsHeap (x :: l) → ∃ l', popHeap (x :: l) = l' ++ [x] ∧ IsHeap l' ∧ l'.Perm l

/-- The sampling fields of `GenParams`. -/
structure SampleParams (K : Type) where
  temperature : K
  topK : ℤ
  topP : K
  repeatPenalty : K

/-- How `sample_token` picks: a token outright, or a draw among candidates. -/
inductive SampleCall (K : Type) where
  | direct (id : ℕ)
  | sampleFrom (candidates : List (TokenProb K))
deriving DecidableEq, Repr

section

variable {K : Type} [Field K] [LinearOrder K]

/-- Greedy: the first highest finite logit, token zero when there is none. -/
def sampleGreedy (logits : List (Option K)) : ℕ :=
  (logits.zipIdx.foldl (fun (best : ℕ × Option K) entry =>
    match entry.1, best.2 with
    | none, _ => best
    | some v, none => (entry.2, some v)
    | some v, some bestVal => if bestVal < v then (entry.2, some v) else best) (0, none)).1

def applyTemperature (logits : List (Option K)) (temperature : K) : List (Option K) :=
  if temperature ≤ 0 ∨ temperature = 1 then logits
  else logits.map fun v => v.map fun x => x * (1 / temperature)

/-- A token id outside the vocabulary is undefined behaviour in the source and
skipped here. -/
def applyRepeatPenalty (logits : List (Option K)) (recentTokens : List ℕ) (penalty : K) :
    List (Option K) :=
  if penalty ≤ 1 then logits
  else
    recentTokens.foldl (fun logits tok => logits.modify tok fun v =>
      v.map fun x => if 0 < x then x / penalty else x * penalty) logits

/-- The filtered array and how many of its elements survive. -/
def topKFilter (A : StdAlgo K) (candidates : List (TokenProb K)) (k : ℤ) :
    List (TokenProb K) × ℕ :=
  if k ≤ 0 ∨ (candidates.length : ℤ) ≤ k then (candidates, candidates.length)
  else (A.partialSort candidates k.toNat, k.toNat)

/-- The loop of `top_p_filter` from element `i` on; at the end `cutoff` is `n`. -/
def topPLoop (p : K) : K → ℕ → List (TokenProb K) → ℕ
  | _, i, [] => i
  | cumsum, i, c :: rest =>
      if p < cumsum + c.prob then i + 1 else topPLoop p (cumsum + c.prob) (i + 1) rest

def topPFilter (candidates : List (TokenProb K)) (n : ℕ) (p : K) : ℕ :=
  topPLoop p 0 0 (candidates.take n)

/-- The draw of `sample_from` for the random number `r` below the total. -/
def sampleFromLoop (r : K) : K → List (TokenProb K) → Option ℕ
  | _, [] => none
  | cumsum, c :: rest =>
      if r ≤ cumsum + c.prob then some c.id else sampleFromLoop r (cumsum + c.prob) rest

def sampleFrom (candidates : List (TokenProb K)) (r : K) : ℕ :=
  (sampleFromLoop r 0 candidates).getD ((candidates.getLast?.map TokenProb.id).getD 0)

/-- One iteration of the scan of `sample_top_k_fast`. -/
def fastScanStep (A : StdAlgo K) (k : ℕ) (invT : K) (candidates : List (TokenProb K))
    (entry : Option K × ℕ) : List (TokenProb K) :=
  match entry.1 with
  | none => candidates
  | some x =>
      let v := x * invT
      if candidates.length < k then A.pushHeap (candidates ++ [⟨entry.2, v⟩])
      else
        match candidates with
        | [] => []
        | front :: rest =>
            if front.prob < v then
              A.pushHeap ((A.popHeap (front :: rest)).dropLast ++ [⟨entry.2, v⟩])
            else front :: rest

/-- The candidates after the scan. -/
def fastScan (A : StdAlgo K) (k : ℕ) (invT : K) (logits : List (Option K)) : List (TokenProb K) :=
  logits.zipIdx.foldl (fastScanStep A k invT) []

/-- Scale to sum one. -/
def normalise (candidates : List (TokenProb K)) : List (TokenProb K) :=
  let sum := (candidates.map TokenProb.prob).sum
  candidates.map fun c => { c with prob := c.prob * (1 / sum) }

/-- `sample_top_k_fast`; `none` is its result -1. -/
def sampleTopKFast (E : ExpFn K) (A : StdAlgo K) (logits : List (Option K))
    (params : SampleParams K) : Option (SampleCall K) :=
  if params.topK ≤ 0 ∨ (logits.length : ℤ) ≤ params.topK then none
  else
    let invT := if params.temperature = 1 then 1 else 1 / params.temperature
    let candidates := A.sort (fastScan A params.topK.toNat invT logits)
    match candidates with
    | [] => some (.direct (sampleGreedy logits))
    | front :: _ =>
        let exps := candidates.map fun c => { c with prob := E.exp (c.prob - front.prob) }
        if (exps.map TokenProb.prob).sum ≤ 0 then some (.direct (sampleGreedy logits))
        else
          let probs := normalise exps
          some (.sampleFrom (probs.take (topPFilter probs probs.length params.topP)))

/-- `*std::max_element`, where a logit that is not finite is minus infinity. -/
def maxElement (logits : List (Option K)) : Option K := logits.reduceOption.max?

/-- The full softmax with both filters. -/
def sampleSoftmax (E : ExpFn K) (A : StdAlgo K) (logits : List (Option K))
    (params : SampleParams K) : SampleCall K :=
  let scaled := applyTemperature logits params.temperature
  match maxElement scaled with
  | none => .direct 0
  | some maxVal =>
      let exps := scaled.map fun v => (v.map fun x => E.exp (x - maxVal)).getD 0
      if exps.sum ≤ 0 then .direct (sampleGreedy (exps.map some))
      else
        let candidates := normalise (exps.zipIdx.map fun e => ⟨e.2, e.1⟩)
        let filtered := topKFilter A candidates params.topK
        .sampleFrom (filtered.1.take (topPFilter filtered.1 filtered.2 params.topP))

/-- `sample_token`. The flags are `JLLM_DEBUG_KERNELS` and `JLLM_FAST_SAMPLE`; the
pass that prints statistics also turns non-finite logits into minus infinity,
which `none` already is. -/
def sampleToken (E : ExpFn K) (A : StdAlgo K) (debug fastSample : Bool) (logits : List (Option K))
    (params : SampleParams K) (recentTokens : List ℕ) : SampleCall K :=
  if debug = false ∧ params.temperature ≤ 0 then .direct (sampleGreedy logits)
  else
    let penalised := applyRepeatPenalty logits recentTokens params.repeatPenalty
    let logits := if debug then logits else penalised
    match if debug = false ∧ fastSample = true then sampleTopKFast E A logits params else none with
    | some call => call
    | none =>
        if params.temperature ≤ 0 then .direct (sampleGreedy logits)
        else
          match if fastSample then sampleTopKFast E A penalised params else none with
          | some call => call
          | none => sampleSoftmax E A penalised params

/-- The token of a call, when a draw uses the random number `r`. -/
def SampleCall.token (call : SampleCall K) (r : K) : ℕ :=
  match call with
  | .direct id => id
  | .sampleFrom candidates => JLLM.sampleFrom candidates r

end

end JLLM
