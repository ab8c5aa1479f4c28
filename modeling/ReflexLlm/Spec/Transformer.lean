import ReflexLlm.Spec.KvCache

/-! The forward pass of `src/engine/decode.cu`: `transformer_layer` for one token
and `transformer_prefill` for a batch. The kernels are arguments; the KV memory
they reach through the pool's pointers is an interface, instantiated below by the
pool's bytes and by rows kept apart. Scratch buffers are values. -/

namespace JLLM

/-- The weights of a layer; the QK norms are null when the model has none. -/
structure LayerWeights (W : Type) where
  wq : W
  wk : W
  wv : W
  wo : W
  wGate : W
  wUp : W
  wDown : W
  rmsAttn : W
  rmsFfn : W
  qNorm : Option W
  kNorm : Option W

/-- The kernels on rows of halves `R`, with weights `W`. A list of rows is a
row-major batch. Cache rows are the bytes stored for them, scale rows the bits
of their floats. -/
structure Kernels (W R : Type) where
  dequantEmbedding : Int32 → R
  gemvQuant : W → R → R
  gemvQuantTriple : W → W → W → R → R × R × R
  gemvQuantPair : W → W → R → R × R
  /-- `y = W*x + residual`. -/
  gemvQuantAdd : W → R → R → R
  gemmQuantBatched : W → List R → List R
  vecAdd : R → R → R
  vecAddRows : List R → List R → List R
  rmsnorm : W → R → R
  rmsnormRows : W → List R → List R
  /-- RMSNorm over the heads of one token. -/
  rmsnormHeads : W → ℕ → R → R
  /-- RMSNorm over the heads of every token of a batch. -/
  rmsnormHeadRows : W → ℕ → List R → List R
  swiglu : R → R → R
  swigluRows : List R → List R → List R
  /-- Rotates q and k for a position. -/
  ropeInplace : ℕ → R → R → R × R
  /-- The bytes of the first `n` halves of a buffer. -/
  halfBytes : ℕ → R → List UInt8
  /-- Quantised bytes and scales of `rows × cols` halves. -/
  fp16ToInt8 : ℕ → ℕ → R → List UInt8 × List UInt32
  /-- q, the key rows, the value rows, `seq_len`, `kv_int8`, the scale rows. -/
  flashAttentionDecode : R → (ℕ → List UInt8) → (ℕ → List UInt8) → ℕ → Bool →
    Option (ℕ → List UInt32) → Option (ℕ → List UInt32) → R
  /-- The queries of a batch, the rows, `start_pos`, `kv_int8`, the scale rows. -/
  flashAttentionPrefillBatched : List R → (ℕ → List UInt8) → (ℕ → List UInt8) → ℕ → Bool →
    Option (ℕ → List UInt32) → Option (ℕ → List UInt32) → List R
  halfBytes_length : ∀ n r, (halfBytes n r).length = 2 * n
  fp16ToInt8_length : ∀ rows cols r, (fp16ToInt8 rows cols r).1.length = rows * cols
  fp16ToInt8_scales : ∀ rows cols r, (fp16ToInt8 rows cols r).2.length = rows

/-- The sizes of `ModelConfig` that the forward pass uses. -/
structure ModelDims where
  nLayers : ℕ
  nHeads : ℕ
  nKvHeads : ℕ
  headDim : ℕ

/-- Elements of a key or value row. -/
def ModelDims.kvDim (d : ModelDims) : ℕ := d.nKvHeads * d.headDim

/-- KV memory as the forward pass uses it: stores go through `key_ptr`,
`val_ptr` and `kv_scale_ptr` of a position, attention gets the rows it indexes
from the pointers of position zero. -/
structure KvMem (σ : Type) where
  isFast : σ → ℕ → Bool
  putKey : σ → ℕ → ℕ → List UInt8 → σ
  putVal : σ → ℕ → ℕ → List UInt8 → σ
  /-- `kv_scale_ptr(layer, pos, ·) != nullptr`. -/
  scaleSlot : σ → ℕ → ℕ → Bool
  putKScale : σ → ℕ → ℕ → List UInt32 → σ
  putVScale : σ → ℕ → ℕ → List UInt32 → σ
  keys : σ → Bool → ℕ → ℕ → List UInt8
  vals : σ → Bool → ℕ → ℕ → List UInt8
  kScales : σ → ℕ → ℕ → List UInt32
  vScales : σ → ℕ → ℕ → List UInt32

section

variable {W R σ : Type} (K : Kernels W R) (M : KvMem σ) (d : ModelDims) (kvInt8 : Bool)

/-- `rope_inplace_store_kv_fp16`: rotate q and k, store the rotated k and v. -/
def ropeInplaceStoreKvFp16 (layer pos : ℕ) (s : σ) (q k v : R) : σ × R × R :=
  let qk := K.ropeInplace pos q k
  let s := M.putKey s layer pos (K.halfBytes d.kvDim qk.2)
  let s := M.putVal s layer pos (K.halfBytes d.kvDim v)
  (s, qk)

/-- The two `fp16_to_int8` calls of the INT8 store; a null scale pointer is
skipped by the kernel. -/
def storeInt8 (layer pos : ℕ) (s : σ) (k v : R) : σ :=
  let slot := M.scaleSlot s layer pos
  let kq := K.fp16ToInt8 d.nKvHeads d.headDim k
  let s := M.putKey s layer pos kq.1
  let s := if slot then M.putKScale s layer pos kq.2 else s
  let vq := K.fp16ToInt8 d.nKvHeads d.headDim v
  let s := M.putVal s layer pos vq.1
  if slot then M.putVScale s layer pos vq.2 else s

/-- The two `cudaMemcpyAsync` calls of the FP16 store past the fast pool. -/
def storeMemcpy (layer pos : ℕ) (s : σ) (k v : R) : σ :=
  let s := M.putKey s layer pos (K.halfBytes d.kvDim k)
  M.putVal s layer pos (K.halfBytes d.kvDim v)

/-- The scale rows handed to attention: null in FP16 mode and when
`kv_scale_ptr(layer, 0, ·)` is null. -/
def attnScales (s : σ) (layer : ℕ) (scales : σ → ℕ → ℕ → List UInt32) :
    Option (ℕ → List UInt32) :=
  if kvInt8 && M.scaleSlot s layer 0 then some (scales s layer) else none

/-- The QK norm of one token, when the layer has both norms and the caller has
not done it already. -/
def qkNorm (lw : LayerWeights W) (qkNormAlready : Bool) (q k : R) : R × R :=
  match lw.qNorm, lw.kNorm, qkNormAlready with
  | some qn, some kn, false => (K.rmsnormHeads qn d.nHeads q, K.rmsnormHeads kn d.nKvHeads k)
  | _, _, _ => (q, k)

/-- The QK norm of a batch. -/
def qkNormRows (lw : LayerWeights W) (q k : List R) : List R × List R :=
  match lw.qNorm, lw.kNorm with
  | some qn, some kn => (K.rmsnormHeadRows qn d.nHeads q, K.rmsnormHeadRows kn d.nKvHeads k)
  | _, _ => (q, k)

/-- `transformer_layer_attn_compute`. -/
def transformerLayerAttnCompute (lw : LayerWeights W) (layer pos : ℕ) (s : σ) (q k v : R)
    (qkNormAlready : Bool) : σ × R :=
  let qk := qkNorm K d lw qkNormAlready q k
  let rotated :=
    if !kvInt8 && M.isFast s pos then ropeInplaceStoreKvFp16 K M d layer pos s qk.1 qk.2 v
    else (s, K.ropeInplace pos qk.1 qk.2)
  let q := rotated.2.1
  let k := rotated.2.2
  let s :=
    if kvInt8 then storeInt8 K M d layer pos rotated.1 k v
    else if !M.isFast rotated.1 pos then storeMemcpy K M d layer pos rotated.1 k v
    else rotated.1
  (s, K.flashAttentionDecode q (M.keys s kvInt8 layer) (M.vals s kvInt8 layer) (pos + 1) kvInt8
    (attnScales M kvInt8 s layer M.kScales) (attnScales M kvInt8 s layer M.vScales))

/-- `transformer_layer_attn_block`. -/
def transformerLayerAttnBlock (lw : LayerWeights W) (layer pos : ℕ) (s : σ) (xIn q k v : R)
    (qkNormAlready : Bool) : σ × R :=
  let attn := transformerLayerAttnCompute K M d kvInt8 lw layer pos s q k v qkNormAlready
  (attn.1, K.gemvQuantAdd lw.wo attn.2 xIn)

/-- `transformer_layer_ffn_block`. -/
def transformerLayerFfnBlock (lw : LayerWeights W) (xAttn swigluIn : R) : R :=
  K.gemvQuantAdd lw.wDown swigluIn xAttn

/-- `transformer_layer`: the new KV memory and the hidden state, in place of `x`. -/
def transformerLayer (weights : ℕ → LayerWeights W) (layer pos : ℕ) (s : σ) (x : R) : σ × R :=
  let lw := weights layer
  let normed := K.rmsnorm lw.rmsAttn x
  let qkv := K.gemvQuantTriple lw.wq lw.wk lw.wv normed
  let attn := transformerLayerAttnBlock K M d kvInt8 lw layer pos s x qkv.1 qkv.2.1 qkv.2.2 false
  let x2 := attn.2
  let normed2 := K.rmsnorm lw.rmsFfn x2
  let gateUp := K.gemvQuantPair lw.wGate lw.wUp normed2
  (attn.1, transformerLayerFfnBlock K lw x2 (K.swiglu gateUp.1 gateUp.2))

/-- The per-token RoPE and KV store of `transformer_prefill`. -/
def prefillStore (layer pos : ℕ) (s : σ) (q k v : R) : σ × R :=
  if !kvInt8 && M.isFast s pos then
    let rotated := ropeInplaceStoreKvFp16 K M d layer pos s q k v
    (rotated.1, rotated.2.1)
  else
    let qk := K.ropeInplace pos q k
    if kvInt8 then (storeInt8 K M d layer pos s qk.2 v, qk.1)
    else (storeMemcpy K M d layer pos s qk.2 v, qk.1)

/-- The loop of `transformer_prefill` over the tokens, from position `pos` on. -/
def prefillStoreLoop (layer : ℕ) : ℕ → σ → List (R × R × R) → σ × List R
  | _, s, [] => (s, [])
  | pos, s, (q, k, v) :: rest =>
      let stored := prefillStore K M d kvInt8 layer pos s q k v
      let tail := prefillStoreLoop layer (pos + 1) stored.1 rest
      (tail.1, stored.2 :: tail.2)

/-- `transformer_prefill`: one layer over a batch of tokens. -/
def transformerPrefill (weights : ℕ → LayerWeights W) (layer startPos : ℕ) (s : σ)
    (xBatch : List R) : σ × List R :=
  let lw := weights layer
  let normed := K.rmsnormRows lw.rmsAttn xBatch
  let q := K.gemmQuantBatched lw.wq normed
  let k := K.gemmQuantBatched lw.wk normed
  let v := K.gemmQuantBatched lw.wv normed
  let qk := qkNormRows K d lw q k
  let stored := prefillStoreLoop K M d kvInt8 layer startPos s (qk.1.zip (qk.2.zip v))
  let s := stored.1
  let attnOut := K.flashAttentionPrefillBatched stored.2 (M.keys s kvInt8 layer)
    (M.vals s kvInt8 layer) startPos kvInt8
    (attnScales M kvInt8 s layer M.kScales) (attnScales M kvInt8 s layer M.vScales)
  let attnProj := K.gemmQuantBatched lw.wo attnOut
  let xAttn := K.vecAddRows xBatch attnProj
  let normed2 := K.rmsnormRows lw.rmsFfn xAttn
  let gate := K.gemmQuantBatched lw.wGate normed2
  let up := K.gemmQuantBatched lw.wUp normed2
  let swigluOut := K.swigluRows gate up
  let ffnOut := K.gemmQuantBatched lw.wDown swigluOut
  (s, K.vecAddRows xAttn ffnOut)

/-- A token's embedding through every layer, as `decode_step` and the per-token
prefill of `generate` run it. -/
def forwardToken (weights : ℕ → LayerWeights W) (nLayers pos : ℕ) (s : σ) (token : Int32) :
    σ × R :=
  (List.range nLayers).foldl (fun a l => transformerLayer K M d kvInt8 weights l pos a.1 a.2)
    (s, K.dequantEmbedding token)

/-- The per-token prefill branch of `generate`, from position `i` on; the residual
of the last token is kept in `lastPrefillX`. -/
def prefillPerToken (weights : ℕ → LayerWeights W) (nLayers : ℕ) :
    ℕ → σ → Option R → List Int32 → σ × Option R
  | _, s, lastPrefillX, [] => (s, lastPrefillX)
  | i, s, lastPrefillX, token :: rest =>
      let a := forwardToken K M d kvInt8 weights nLayers i s token
      prefillPerToken weights nLayers (i + 1) a.1 (if rest.isEmpty then some a.2 else lastPrefillX)
        rest

/-- The batched prefill branch of `generate`: layers outer, tokens inner. -/
def prefillBatched (weights : ℕ → LayerWeights W) (nLayers prefillStart : ℕ) (s : σ)
    (tokens : List Int32) : σ × Option R :=
  let x := (List.range nLayers).foldl
    (fun a l => transformerPrefill K M d kvInt8 weights l prefillStart a.1 a.2)
    (s, tokens.map K.dequantEmbedding)
  (x.1, x.2.getLast?)

end

/-- What the batched and fused kernels have in common with the plain ones: they
act on each row, and attention reads the cache rows below its sequence length. -/
structure Kernels.RowWise {W R : Type} (K : Kernels W R) : Prop where
  triple : ∀ wq wk wv x, K.gemvQuantTriple wq wk wv x =
    (K.gemvQuant wq x, K.gemvQuant wk x, K.gemvQuant wv x)
  pair : ∀ w₀ w₁ x, K.gemvQuantPair w₀ w₁ x = (K.gemvQuant w₀ x, K.gemvQuant w₁ x)
  add : ∀ w x residual, K.gemvQuantAdd w x residual = K.vecAdd residual (K.gemvQuant w x)
  gemm : ∀ w xs, K.gemmQuantBatched w xs = xs.map (K.gemvQuant w)
  vecAddRows : ∀ xs ys, K.vecAddRows xs ys = List.zipWith K.vecAdd xs ys
  rmsnormRows : ∀ w xs, K.rmsnormRows w xs = xs.map (K.rmsnorm w)
  rmsnormHeadRows : ∀ w n xs, K.rmsnormHeadRows w n xs = xs.map (K.rmsnormHeads w n)
  swigluRows : ∀ xs ys, K.swigluRows xs ys = List.zipWith K.swiglu xs ys
  prefillRow : ∀ qs ks vs start int8 kss vss,
    K.flashAttentionPrefillBatched qs ks vs start int8 kss vss =
      qs.mapIdx fun i q => K.flashAttentionDecode q ks vs (start + i + 1) int8 kss vss
  readsRows : ∀ q n int8 (ks ks' vs vs' : ℕ → List UInt8) (kss kss' vss vss' : ℕ → List UInt32)
    (scaled : Bool), (∀ j, j < n → ks j = ks' j) → (∀ j, j < n → vs j = vs' j) →
    (∀ j, j < n → kss j = kss' j) → (∀ j, j < n → vss j = vss' j) →
    K.flashAttentionDecode q ks vs n int8 (if scaled then some kss else none)
        (if scaled then some vss else none) =
      K.flashAttentionDecode q ks' vs' n int8 (if scaled then some kss' else none)
        (if scaled then some vss' else none)

/-! ### Rows kept apart -/

/-- A KV cache whose rows never share storage: what the pool's layout is meant
to provide. -/
@[ext] structure RowCache where
  key : ℕ → ℕ → List UInt8
  val : ℕ → ℕ → List UInt8
  kScale : ℕ → ℕ → List UInt32
  vScale : ℕ → ℕ → List UInt32

/-- Replace the row of one layer and position. -/
def setRow {α : Type} (rows : ℕ → ℕ → α) (layer pos : ℕ) (row : α) : ℕ → ℕ → α :=
  fun l p => if l = layer ∧ p = pos then row else rows l p

/-- Row storage with a fast region of `maxContext` positions and scale rows for
that region when `scales`. -/
def RowCache.mem (maxContext : ℕ) (scales : Bool) : KvMem RowCache where
  isFast := fun _ pos => pos < maxContext
  putKey := fun s l p row => { s with key := setRow s.key l p row }
  putVal := fun s l p row => { s with val := setRow s.val l p row }
  scaleSlot := fun _ _ pos => scales && decide (pos < maxContext)
  putKScale := fun s l p row => { s with kScale := setRow s.kScale l p row }
  putVScale := fun s l p row => { s with vScale := setRow s.vScale l p row }
  keys := fun s _ l => s.key l
  vals := fun s _ l => s.val l
  kScales := fun s l => s.kScale l
  vScales := fun s l => s.vScale l

/-! ### The pool's bytes -/

/-- Bytes of a key row as attention indexes it: `n_kv_heads * head_dim` elements
of the width the request's `kv_int8` selects. -/
def attnRowBytes (c : Config) (kvInt8 : Bool) : ℕ :=
  c.nKvHeads * c.headDim * if kvInt8 then 1 else 2

/-- Where attention finds key row `pos`: `key_ptr(layer, 0) + pos * row`. -/
def attnKeyPtr (p : KVCachePool) (kvInt8 : Bool) (layer pos : ℕ) : Ptr :=
  (p.keyPtr layer 0).add (pos * attnRowBytes p.cfg kvInt8)

/-- Where attention finds value row `pos`. -/
def attnValPtr (p : KVCachePool) (kvInt8 : Bool) (layer pos : ℕ) : Ptr :=
  (p.valPtr layer 0).add (pos * attnRowBytes p.cfg kvInt8)

/-- Where attention finds the scales of row `pos`:
`kv_scale_ptr(layer, 0, ·) + pos * n_kv_heads`. -/
def attnScalePtr (p : KVCachePool) (layer pos : ℕ) (isValue : Bool) : Option Ptr :=
  (p.kvScalePtr layer 0 isValue).map fun ptr => ptr.add (pos * p.cfg.nKvHeads)

/-- What a run of the engine does, as its memory, its callers and its files see it. -/
inductive Event where
  /-- A forward pass for a token starts at a position. -/
  | forward (pos : ℕ) (token : Int32)
  /-- A key or value row is written. -/
  | rowWrite (layer pos : ℕ) (isValue : Bool) (dst : Ptr) (len : ℕ)
  /-- Rows were hydrated from a cache file. -/
  | hydrated (matched : ℕ)
  /-- `token_cb` is called. -/
  | delivered (token : Int32) (isEos : Bool)
  /-- A cache file was saved. -/
  | saved (committed : ℕ)
deriving DecidableEq

/-- The pool with the events so far. -/
structure Device where
  pool : KVCachePool
  trace : List Event

def Device.emit (s : Device) (e : Event) : Device := { s with trace := s.trace ++ [e] }

/-- The engine's KV memory. -/
def Device.mem : KvMem Device where
  isFast := fun s pos => s.pool.isFastPosition pos
  putKey := fun s l p row =>
    { s with pool := s.pool.store (s.pool.keyPtr l p) row }.emit
      (.rowWrite l p false (s.pool.keyPtr l p) row.length)
  putVal := fun s l p row =>
    { s with pool := s.pool.store (s.pool.valPtr l p) row }.emit
      (.rowWrite l p true (s.pool.valPtr l p) row.length)
  scaleSlot := fun s l p => (s.pool.kvScalePtr l p false).isSome
  putKScale := fun s l p row =>
    { s with pool := ((s.pool.kvScalePtr l p false).map (s.pool.storeScales · row)).getD s.pool }
  putVScale := fun s l p row =>
    { s with pool := ((s.pool.kvScalePtr l p true).map (s.pool.storeScales · row)).getD s.pool }
  keys := fun s int8 l p => s.pool.load (attnKeyPtr s.pool int8 l p) (attnRowBytes s.pool.cfg int8)
  vals := fun s int8 l p => s.pool.load (attnValPtr s.pool int8 l p) (attnRowBytes s.pool.cfg int8)
  kScales := fun s l p =>
    ((attnScalePtr s.pool l p false).map (s.pool.loadScales · s.pool.cfg.nKvHeads)).getD []
  vScales := fun s l p =>
    ((attnScalePtr s.pool l p true).map (s.pool.loadScales · s.pool.cfg.nKvHeads)).getD []

end JLLM
