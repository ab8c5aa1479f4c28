import ReflexLlm.Lib.Causal
import ReflexLlm.Spec.Transformer

/-! The forward pass as a causal stack. A layer splits into the projections of
one token, the store of its row, and the rest of the layer; the batched layer
does the same to every token. Any KV memory whose stores and reads behave like
rows of their own realises the stack. -/

namespace JLLM

open Causal

section

variable {W R σ : Type} (K : Kernels W R) (M : KvMem σ) (d : ModelDims) (kvInt8 : Bool)

/-- The QK-normed projections of a token, before RoPE. -/
def qkvOf (lw : LayerWeights W) (x : R) : R × R × R :=
  let normed := K.rmsnorm lw.rmsAttn x
  let q := K.gemvQuant lw.wq normed
  let k := K.gemvQuant lw.wk normed
  let v := K.gemvQuant lw.wv normed
  let qk := qkNorm K d lw false q k
  (qk.1, qk.2, v)

/-- The layer from the attention output on: projection, residual, FFN, residual. -/
def layerTail (lw : LayerWeights W) (x attn : R) : R :=
  let x2 := K.vecAdd x (K.gemvQuant lw.wo attn)
  let normed2 := K.rmsnorm lw.rmsFfn x2
  K.vecAdd x2 (K.gemvQuant lw.wDown
    (K.swiglu (K.gemvQuant lw.wGate normed2) (K.gemvQuant lw.wUp normed2)))

/-- Attention for the query at a position over the memory as it is. -/
def attend (layer pos : ℕ) (s : σ) (q : R) : R :=
  K.flashAttentionDecode q (M.keys s kvInt8 layer) (M.vals s kvInt8 layer) (pos + 1) kvInt8
    (attnScales M kvInt8 s layer M.kScales) (attnScales M kvInt8 s layer M.vScales)

/-- Storing a row does not move the boundary of the fast pool. -/
def KvMem.StableFast : Prop :=
  ∀ s l p row pos, M.isFast (M.putKey s l p row) pos = M.isFast s pos ∧
    M.isFast (M.putVal s l p row) pos = M.isFast s pos

variable {K M}

theorem qkNorm_already (lw : LayerWeights W) (q k : R) : qkNorm K d lw true q k = (q, k) := by
  unfold qkNorm
  cases lw.qNorm <;> cases lw.kNorm <;> rfl

/-- The QK norm of a batch is the QK norm of its tokens. -/
theorem qkNormRows_eq (hK : K.RowWise) (lw : LayerWeights W) (xs : List R) (f g : R → R) :
    qkNormRows K d lw (xs.map f) (xs.map g) =
      (xs.map fun x => (qkNorm K d lw false (f x) (g x)).1,
        xs.map fun x => (qkNorm K d lw false (f x) (g x)).2) := by
  unfold qkNormRows qkNorm
  cases lw.qNorm <;> cases lw.kNorm <;> simp [hK.rmsnormHeadRows, Function.comp_def]

/-- Whatever branch stores it, the query comes back rotated. -/
theorem prefillStore_query (layer pos : ℕ) (s : σ) (q k v : R) :
    (prefillStore K M d kvInt8 layer pos s q k v).2 = (K.ropeInplace pos q k).1 := by
  unfold prefillStore
  split_ifs <;> rfl

/-- The single-token attention block stores the row exactly as the batch does. -/
theorem attnCompute_eq (hfast : M.StableFast) (lw : LayerWeights W) (layer pos : ℕ) (s : σ)
    (q k v : R) :
    transformerLayerAttnCompute K M d kvInt8 lw layer pos s q k v true =
      let st := prefillStore K M d kvInt8 layer pos s q k v
      (st.1, attend K M kvInt8 layer pos st.1 st.2) := by
  have hf : M.isFast (ropeInplaceStoreKvFp16 K M d layer pos s q k v).1 pos = M.isFast s pos :=
    ((hfast _ _ _ _ _).2).trans (hfast _ _ _ _ _).1
  unfold transformerLayerAttnCompute prefillStore attend
  rw [qkNorm_already]
  cases kvInt8 <;> cases hpos : M.isFast s pos <;> simp [hf, hpos]

/-- The QK norm inside the attention block is the one of the projections. -/
theorem attnCompute_norm (lw : LayerWeights W) (layer pos : ℕ) (s : σ) (x : R) :
    let normed := K.rmsnorm lw.rmsAttn x
    transformerLayerAttnCompute K M d kvInt8 lw layer pos s (K.gemvQuant lw.wq normed)
        (K.gemvQuant lw.wk normed) (K.gemvQuant lw.wv normed) false =
      let qkv := qkvOf K d lw x
      transformerLayerAttnCompute K M d kvInt8 lw layer pos s qkv.1 qkv.2.1 qkv.2.2 true := by
  simp only [qkvOf, transformerLayerAttnCompute, qkNorm_already]

/-- One token through one layer: project, store the row, attend, finish. -/
theorem transformerLayer_eq (hK : K.RowWise) (hfast : M.StableFast) (weights : ℕ → LayerWeights W)
    (layer pos : ℕ) (s : σ) (x : R) :
    transformerLayer K M d kvInt8 weights layer pos s x =
      let qkv := qkvOf K d (weights layer) x
      let st := prefillStore K M d kvInt8 layer pos s qkv.1 qkv.2.1 qkv.2.2
      (st.1, layerTail K (weights layer) x (attend K M kvInt8 layer pos st.1 st.2)) := by
  have hattn := attnCompute_norm (K := K) (M := M) d kvInt8 (weights layer) layer pos s x
  simp only [attnCompute_eq d kvInt8 hfast] at hattn
  simp only [transformerLayer, hK.triple, hK.pair, transformerLayerAttnBlock,
    transformerLayerFfnBlock, hK.add, hattn, layerTail]

theorem prefillStoreLoop_length (layer pos : ℕ) (s : σ) (ts : List (R × R × R)) :
    (prefillStoreLoop K M d kvInt8 layer pos s ts).2.length = ts.length := by
  induction ts generalizing pos s with
  | nil => rfl
  | cons t ts ih => simp [prefillStoreLoop, ih]

/-- The store loop returns every query rotated for its own position. -/
theorem prefillStoreLoop_queries (layer pos : ℕ) (s : σ) (ts : List (R × R × R)) :
    (prefillStoreLoop K M d kvInt8 layer pos s ts).2 =
      ts.mapIdx fun i t => (K.ropeInplace (pos + i) t.1 t.2.1).1 := by
  induction ts generalizing pos s with
  | nil => rfl
  | cons t ts ih =>
    simp only [prefillStoreLoop, ih, prefillStore_query, List.mapIdx_cons, Nat.add_zero]
    congr 2
    funext i t
    rw [show pos + 1 + i = pos + (i + 1) by omega]

/-- A batch through one layer: store every row, then attend for every query. -/
theorem transformerPrefill_eq (hK : K.RowWise) (weights : ℕ → LayerWeights W) (layer start : ℕ)
    (s : σ) (xs : List R) :
    transformerPrefill K M d kvInt8 weights layer start s xs =
      let st := prefillStoreLoop K M d kvInt8 layer start s (xs.map (qkvOf K d (weights layer)))
      (st.1, xs.mapIdx fun i x =>
        let qkv := qkvOf K d (weights layer) x
        layerTail K (weights layer) x (attend K M kvInt8 layer (start + i) st.1
          (K.ropeInplace (start + i) qkv.1 qkv.2.1).1)) := by
  set lw := weights layer with hlw
  have hproj : ∀ w, K.gemmQuantBatched w (K.rmsnormRows lw.rmsAttn xs) =
      xs.map fun x => K.gemvQuant w (K.rmsnorm lw.rmsAttn x) := by
    intro w
    rw [hK.gemm, hK.rmsnormRows, List.map_map]
    rfl
  have hzip : (xs.map fun x => (qkNorm K d lw false (K.gemvQuant lw.wq (K.rmsnorm lw.rmsAttn x))
        (K.gemvQuant lw.wk (K.rmsnorm lw.rmsAttn x))).1).zip
      ((xs.map fun x => (qkNorm K d lw false (K.gemvQuant lw.wq (K.rmsnorm lw.rmsAttn x))
        (K.gemvQuant lw.wk (K.rmsnorm lw.rmsAttn x))).2).zip
        (xs.map fun x => K.gemvQuant lw.wv (K.rmsnorm lw.rmsAttn x))) =
      xs.map (qkvOf K d lw) := by
    rw [List.zip_map', List.zip_map']
    rfl
  unfold transformerPrefill
  simp only [← hlw, hproj, qkNormRows_eq d hK, hzip]
  refine Prod.ext rfl ?_
  set st := prefillStoreLoop K M d kvInt8 layer start s (xs.map (qkvOf K d lw)) with hst
  have hqs : st.2 = xs.mapIdx fun i x =>
      (K.ropeInplace (start + i) (qkvOf K d lw x).1 (qkvOf K d lw x).2.1).1 := by
    rw [hst, prefillStoreLoop_queries]
    apply List.ext_getElem?
    intro i
    simp only [List.getElem?_mapIdx, List.getElem?_map, Option.map_map, Function.comp_def]
  simp only [hK.prefillRow, hqs, hK.gemm, hK.vecAddRows, hK.rmsnormRows, hK.swigluRows]
  apply List.ext_getElem?
  intro i
  simp only [List.getElem?_zipWith, List.getElem?_map, List.getElem?_mapIdx, attend, layerTail]
  cases xs[i]? <;> rfl

end

/-! ### Row views -/

/-- A view of a KV memory as rows of entries `E`: each store writes one entry and
attention reads the entries it should. -/
structure RowView {W R σ : Type} (K : Kernels W R) (M : KvMem σ) (d : ModelDims) (kvInt8 : Bool)
    (E : Type) where
  inv : σ → Prop
  get : σ → ℕ → ℕ → E
  valid : ℕ → ℕ → Prop
  /-- The entry stored for a rotated key row and a value row, over the old one. -/
  enc : ℕ → R → R → E → E
  /-- Attention as a function of the layer's entries. -/
  att : R → (ℕ → E) → ℕ → R
  stableFast : M.StableFast
  keeps : ∀ {l p} s q k v, inv s → valid l p → inv (prefillStore K M d kvInt8 l p s q k v).1
  written : ∀ {l p} s q k v, inv s → valid l p →
    get (prefillStore K M d kvInt8 l p s q k v).1 l p =
      enc p (K.ropeInplace p q k).2 v (get s l p)
  frame : ∀ {l p l' p'} s q k v, inv s → valid l p → valid l' p' → (l', p') ≠ (l, p) →
    get (prefillStore K M d kvInt8 l p s q k v).1 l' p' = get s l' p'
  reads : ∀ {l p} s q, inv s → valid l p →
    attend K M kvInt8 l p s q = att q (get s l) (p + 1)
  readsBelow : ∀ q f g n, (∀ j, j < n → f j = g j) → att q f n = att q g n

namespace RowView

variable {W R σ E : Type} {K : Kernels W R} {M : KvMem σ} {d : ModelDims} {kvInt8 : Bool}
  (V : RowView K M d kvInt8 E) (weights : ℕ → LayerWeights W)

/-- The stack of layers that the forward pass computes. -/
def stack : Stack R E where
  entry := fun l p x e =>
    let qkv := qkvOf K d (weights l) x
    V.enc p (K.ropeInplace p qkv.1 qkv.2.1).2 qkv.2.2 e
  out := fun l p x f =>
    let qkv := qkvOf K d (weights l) x
    layerTail K (weights l) x (V.att (K.ropeInplace p qkv.1 qkv.2.1).1 f (p + 1))
  causal := by
    intro l p x f g h
    simp only
    rw [V.readsBelow _ f g (p + 1) fun j hj => h j (by omega)]

theorem realizes (hK : K.RowWise) :
    Realizes (V.stack weights) V.inv V.get V.valid (transformerLayer K M d kvInt8 weights) where
  keeps := by
    intro l p s x hs hv
    rw [transformerLayer_eq d kvInt8 hK V.stableFast]
    exact V.keeps _ _ _ _ hs hv
  written := by
    intro l p s x hs hv
    rw [transformerLayer_eq d kvInt8 hK V.stableFast]
    exact V.written _ _ _ _ hs hv
  frame := by
    intro l p l' p' s x hs hv hv' hne
    rw [transformerLayer_eq d kvInt8 hK V.stableFast]
    exact V.frame _ _ _ _ hs hv hv' hne
  value := by
    intro l p s x hs hv
    rw [transformerLayer_eq d kvInt8 hK V.stableFast]
    simp only [stack, prefillStore_query, V.reads _ _ (V.keeps _ _ _ _ hs hv) hv]

/-- The store loop as a whole: the batch's entries are new, the rest is as before. -/
theorem storeLoop_spec (l : ℕ) (ts : List (R × R × R)) : ∀ (pos : ℕ) (s : σ), V.inv s →
    (∀ j < ts.length, V.valid l (pos + j)) →
    V.inv (prefillStoreLoop K M d kvInt8 l pos s ts).1 ∧
    (∀ i t, ts[i]? = some t → V.get (prefillStoreLoop K M d kvInt8 l pos s ts).1 l (pos + i) =
      V.enc (pos + i) (K.ropeInplace (pos + i) t.1 t.2.1).2 t.2.2 (V.get s l (pos + i))) ∧
    (∀ l' p', V.valid l' p' → ¬ (l' = l ∧ pos ≤ p' ∧ p' < pos + ts.length) →
      V.get (prefillStoreLoop K M d kvInt8 l pos s ts).1 l' p' = V.get s l' p') := by
  induction ts with
  | nil =>
    intro pos s hs _
    exact ⟨hs, fun i t h => by simp at h, fun _ _ _ _ => rfl⟩
  | cons t ts ih =>
    obtain ⟨q, k, v⟩ := t
    intro pos s hs hv
    have hpos : V.valid l pos := hv 0 (by simp)
    have hs' := V.keeps s q k v hs hpos
    obtain ⟨hinv, hnew, hrest⟩ := ih (pos + 1) _ hs' fun j hj => by
      rw [show pos + 1 + j = pos + (j + 1) by omega]
      exact hv (j + 1) (by simpa using hj)
    refine ⟨hinv, ?_, ?_⟩
    · intro i t ht
      cases i with
      | zero =>
        simp only [List.getElem?_cons_zero, Option.some.injEq] at ht
        subst ht
        simp only [prefillStoreLoop, Nat.add_zero]
        rw [hrest l pos hpos (by omega), V.written _ _ _ _ hs hpos]
      | succ i =>
        simp only [List.getElem?_cons_succ] at ht
        obtain ⟨hi, -⟩ := List.getElem?_eq_some_iff.mp ht
        have hvi : V.valid l (pos + (i + 1)) := hv (i + 1) (by simpa using hi)
        simp only [prefillStoreLoop]
        rw [show pos + (i + 1) = pos + 1 + i by omega] at hvi ⊢
        rw [hnew i t ht, V.frame _ _ _ _ hs hpos hvi (by
          simp only [ne_eq, Prod.mk.injEq]
          omega)]
    · intro l' p' hv' hne
      simp only [List.length_cons] at hne
      simp only [prefillStoreLoop]
      rw [hrest l' p' hv' (by omega), V.frame _ _ _ _ hs hpos hv' (by
        simp only [ne_eq, Prod.mk.injEq]
        omega)]

theorem realizesBatch (hK : K.RowWise) :
    RealizesBatch (V.stack weights) V.inv V.get V.valid
      (transformerPrefill K M d kvInt8 weights) where
  keeps := by
    intro l start s xs hs hv
    rw [transformerPrefill_eq d kvInt8 hK]
    exact (V.storeLoop_spec l _ start s hs (by simpa using hv)).1
  written := by
    intro l start s xs i x hs hx hv
    rw [transformerPrefill_eq d kvInt8 hK]
    exact (V.storeLoop_spec l _ start s hs (by simpa using hv)).2.1 i _ (by simp [hx])
  frame := by
    intro l start l' p' s xs hs hv hv' hne
    rw [transformerPrefill_eq d kvInt8 hK]
    exact (V.storeLoop_spec l _ start s hs (by simpa using hv)).2.2 l' p' hv' (by simpa using hne)
  value := by
    intro l start s xs hs hv
    rw [transformerPrefill_eq d kvInt8 hK]
    have hinv := (V.storeLoop_spec l (xs.map (qkvOf K d (weights l))) start s hs
      (by simpa using hv)).1
    apply List.ext_getElem?
    intro i
    simp only [List.getElem?_mapIdx, stack]
    cases hx : xs[i]? with
    | none => rfl
    | some x =>
      obtain ⟨hi, -⟩ := List.getElem?_eq_some_iff.mp hx
      simp only [Option.map_some, V.reads _ _ hinv (hv i hi)]

theorem forwardToken_eq (nLayers pos : ℕ) (s : σ) (token : Int32) :
    forwardToken K M d kvInt8 weights nLayers pos s token =
      throughLayers (transformerLayer K M d kvInt8 weights) nLayers pos s
        (K.dequantEmbedding token) := rfl

/-- The per-token branch keeps the state and the last residual of the token-major run. -/
theorem prefillPerToken_eq (nLayers : ℕ) (tokens : List Int32) : ∀ (i : ℕ) (s : σ) (last : Option R),
    prefillPerToken K M d kvInt8 weights nLayers i s last tokens =
      let run := tokenMajor (transformerLayer K M d kvInt8 weights) nLayers i s
        (tokens.map K.dequantEmbedding)
      (run.1, if tokens.isEmpty then last else run.2.getLast?) := by
  induction tokens with
  | nil => exact fun _ _ _ => rfl
  | cons t ts ih =>
    intro i s last
    rw [prefillPerToken, ih]
    cases ts with
    | nil => rfl
    | cons u us => rfl

theorem prefillBatched_eq (nLayers start : ℕ) (s : σ) (tokens : List Int32) :
    prefillBatched K M d kvInt8 weights nLayers start s tokens =
      let run := layerMajor (transformerPrefill K M d kvInt8 weights) nLayers start s
        (tokens.map K.dequantEmbedding)
      (run.1, run.2.getLast?) := rfl

end RowView

/-! ### Kernels that satisfy the laws -/

/-- Integer kernels: every hidden state is a number, attention adds up the bytes
it reads. -/
def byteSumKernels : Kernels ℕ ℕ where
  dequantEmbedding := fun token => token.toInt.toNat + 1
  gemvQuant := fun w x => w + x
  gemvQuantTriple := fun wq wk wv x => (wq + x, wk + x, wv + x)
  gemvQuantPair := fun w₀ w₁ x => (w₀ + x, w₁ + x)
  gemvQuantAdd := fun w x residual => residual + (w + x)
  gemmQuantBatched := fun w xs => xs.map (w + ·)
  vecAdd := fun x y => x + y
  vecAddRows := List.zipWith fun x y => x + y
  rmsnorm := fun w x => w + x
  rmsnormRows := fun w xs => xs.map (w + ·)
  rmsnormHeads := fun w n x => w + n + x
  rmsnormHeadRows := fun w n xs => xs.map (w + n + ·)
  swiglu := fun x y => x + y
  swigluRows := List.zipWith fun x y => x + y
  ropeInplace := fun pos q k => (q + pos, k + pos)
  halfBytes := fun n r => List.replicate (2 * n) (UInt8.ofNat r)
  fp16ToInt8 := fun rows cols r =>
    (List.replicate (rows * cols) (UInt8.ofNat r), List.replicate rows (UInt32.ofNat r))
  flashAttentionDecode := fun q ks vs n _ kss _ =>
    q + ((List.range n).map fun j => ((ks j ++ vs j).map UInt8.toNat).sum +
      (((kss.map (· j)).getD []).map UInt32.toNat).sum).sum
  flashAttentionPrefillBatched := fun qs ks vs start _ kss _ =>
    qs.mapIdx fun i q => q + ((List.range (start + i + 1)).map fun j =>
      ((ks j ++ vs j).map UInt8.toNat).sum +
        (((kss.map (· j)).getD []).map UInt32.toNat).sum).sum
  halfBytes_length := by simp
  fp16ToInt8_length := by simp
  fp16ToInt8_scales := by simp

/-- A layer with every weight one. -/
def unitWeights : LayerWeights ℕ where
  wq := 1
  wk := 1
  wv := 1
  wo := 1
  wGate := 1
  wUp := 1
  wDown := 1
  rmsAttn := 1
  rmsFfn := 1
  qNorm := some 1
  kNorm := some 1

theorem byteSumKernels_rowWise : byteSumKernels.RowWise where
  triple := fun _ _ _ _ => rfl
  pair := fun _ _ _ => rfl
  add := fun _ _ _ => rfl
  gemm := fun _ _ => rfl
  vecAddRows := fun _ _ => rfl
  rmsnormRows := fun _ _ => rfl
  rmsnormHeadRows := fun _ _ _ => rfl
  swigluRows := fun _ _ => rfl
  prefillRow := fun _ _ _ _ _ _ _ => rfl
  readsRows := by
    intro q n int8 ks ks' vs vs' kss kss' vss vss' scaled hk hv hks _
    simp only [byteSumKernels, Nat.add_left_cancel_iff]
    congr 1
    apply List.map_congr_left
    intro j hj
    have hj : j < n := List.mem_range.mp hj
    cases scaled <;> simp [hk j hj, hv j hj, hks j hj]

end JLLM
