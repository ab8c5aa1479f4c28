import ReflexLlm.Lib.Ownership
import ReflexLlm.Spec.DeviceCopy

/-! The part of `src/engine/decode.cu` that moves weights to the device: the norm weights, as
many layers as the budget takes, and the output projection, which is copied or whose pages of
the file are mapped. A step that fails leaves the pointers to the file. -/

namespace JLLM

open ByteMem Ownership

/-- What `getenv` returns for the switches. -/
structure WeightEnv where
  deviceOutput : Option (List UInt8) := none
  deviceOutputCopy : Option (List UInt8) := none
  mappedWeights : Option (List UInt8) := none
  fastGemv : Option (List UInt8) := none
  fastEmbd : Option (List UInt8) := none
  deviceLayers : Option (List UInt8) := none
  kvOverflow : Option (List UInt8) := none

/-- `!v || strcmp(v, "0") != 0`. -/
def switchedOn (v : Option (List UInt8)) : Bool := v != some [0x30]

namespace WeightEnv

def deviceOutputEnabled (env : WeightEnv) : Bool := switchedOn env.deviceOutput

def mappedWeightDeviceEnabled (env : WeightEnv) : Bool := switchedOn env.mappedWeights

def fastGemvEnabled (env : WeightEnv) : Bool := switchedOn env.fastGemv

def fastEmbeddingEnabled (env : WeightEnv) : Bool := switchedOn env.fastEmbd

/-- `force_copy`. -/
def forceCopy (env : WeightEnv) : Bool := env.deviceOutputCopy == some [0x31]

def deviceLayerLimit (env : WeightEnv) : ℤ :=
  match env.deviceLayers with
  | none => if env.mappedWeightDeviceEnabled then 0 else -1
  | some v => if atoi v < 0 then -1 else atoi v

end WeightEnv

/-- What the engine gets from the system besides device memory, and gives back. -/
inductive HostKind where
  /-- `mmap`, `munmap`. -/
  | mapping
  /-- `cudaHostRegister`, `cudaHostUnregister`. -/
  | registration
  /-- `malloc`, `free`. -/
  | overflowPool
  /-- `cudaMallocHost`, `cudaFreeHost`. -/
  | hostLogits
  /-- `cudaStreamCreate`, `cudaStreamDestroy`. -/
  | stream
  /-- `new[]`, `delete[]`. -/
  | layers
deriving DecidableEq, Repr

/-- The calls of the device's runtime, on `D`, and of the host's, on `H`. -/
structure System (D H : Type) where
  cuda : CudaRuntime D
  /-- `cudaMemset` to zero. -/
  memset : D → ℕ → ℕ → Bool × D
  /-- The bytes of a block that is allocated. -/
  size : D → ℕ → ℕ
  get : HostKind → H → ℕ → Option ℕ × H
  put : HostKind → H → ℕ → H
  register : H → ℕ → ℕ → Bool × H
  /-- `cudaHostGetDevicePointer`; `none` after an error or for null. -/
  devicePointer : H → ℕ → Option ℕ × H
  live : H → Set (HostKind × ℕ)
  pageSize : ℕ

/-- The blocks of the device. -/
def System.blocks {D H : Type} (sys : System D H) (d : D) : Blocks where
  live := sys.cuda.live d
  size := sys.size d
  mem := sys.cuda.mem d

/-- What the system promises. -/
structure System.Lawful {D H : Type} (sys : System D H) : Prop where
  cuda : sys.cuda.Lawful
  malloc_some {d : D} {n p : ℕ} : (sys.cuda.malloc d n).1 = some p →
    Blocks.Allocates p n (sys.blocks d) (sys.blocks (sys.cuda.malloc d n).2)
  malloc_none {d : D} {n : ℕ} : (sys.cuda.malloc d n).1 = none →
    Blocks.Keeps (sys.blocks d) (sys.blocks (sys.cuda.malloc d n).2)
  memcpy {d : D} {p ptr : ℕ} (src : List UInt8) : Blocks.Inside (sys.blocks d) p ptr src.length →
    Blocks.Writes p (sys.blocks d) (sys.blocks (sys.cuda.memcpy d ptr src).2)
  memset {d : D} {p n : ℕ} : Blocks.Inside (sys.blocks d) p p n →
    Blocks.Writes p (sys.blocks d) (sys.blocks (sys.memset d p n).2)
  free {d : D} {p : ℕ} : Blocks.Frees p (sys.blocks d) (sys.blocks (sys.cuda.free d p))
  get_some {k : HostKind} {h : H} {n x : ℕ} : (sys.get k h n).1 = some x →
    x ≠ 0 ∧ (k, x) ∉ sys.live h ∧ sys.live (sys.get k h n).2 = insert (k, x) (sys.live h)
  get_none {k : HostKind} {h : H} {n : ℕ} : (sys.get k h n).1 = none →
    sys.live (sys.get k h n).2 = sys.live h
  put_live {k : HostKind} {h : H} {x : ℕ} : sys.live (sys.put k h x) = sys.live h \ {(k, x)}
  register_true {h : H} {b n : ℕ} : (sys.register h b n).1 = true →
    0 < n ∧ (.registration, b) ∉ sys.live h ∧
      sys.live (sys.register h b n).2 = insert (.registration, b) (sys.live h)
  register_false {h : H} {b n : ℕ} : (sys.register h b n).1 = false →
    sys.live (sys.register h b n).2 = sys.live h
  devicePointer_live {h : H} {b : ℕ} : sys.live (sys.devicePointer h b).2 = sys.live h
  page_pos : 0 < sys.pageSize
  page_long : sys.pageSize < 0x8000000000000000

/-- A value of type `int` times `sizeof(float)`, as a `size_t`. -/
def floatBytes (n : ℤ) : ℕ := (n * 4 % 0x10000000000000000).toNat

/-- `MappedWeightRegion`. -/
structure MappedWeightRegion where
  hostBase : ℕ
  deviceBase : ℕ
  bytes : ℕ

/-- `resolve_mapped_weight_device_ptr`. -/
def resolveMappedWeightDevicePtr (region : Option MappedWeightRegion) (ptr : ℕ) : Option ℕ :=
  region.bind fun r =>
    if ptr = 0 ∨ r.hostBase = 0 ∨ ptr < r.hostBase ∨ r.hostBase + r.bytes ≤ ptr then none
    else some (r.deviceBase + (ptr - r.hostBase))

/-- `clear_mapped_weight_region`. -/
def clearMappedWeightRegion (region : Option MappedWeightRegion) (hostBase : ℕ) :
    Option MappedWeightRegion :=
  region.filter fun r => r.hostBase ≠ hostBase

/-- The host, `g_mapped_weight_region`, and `mapped_output_host_base_` with its bytes. -/
structure MapState (H : Type) where
  host : H
  region : Option MappedWeightRegion
  mappedOutput : Option (ℕ × ℕ)

section

variable {D H : Type} (sys : System D H) (host : Mem) (env : WeightEnv)

/-- `copy_weight_to_device`. -/
def copyWeightToDevice (src bytes : ℕ) (d : D) : Option ℕ × D :=
  if src = 0 ∨ bytes = 0 then (none, d)
  else
    match sys.cuda.malloc d bytes with
    | (none, d) => (none, d)
    | (some p, d) =>
        match sys.cuda.memcpy d p (host.read src bytes) with
        | (true, d) => (some p, d)
        | (false, d) => (none, sys.cuda.free d p)

/-- Two norm weights of a layer are copied, or none. -/
def copyNormPair (l : ℕ) (first second : LayerSlot) (bytes : ℕ) (s : CopyState D) :
    Bool × CopyState D :=
  match copyWeightToDevice sys host (s.weights.ptr (.layer l first)) bytes s.device with
  | (none, d) => (false, { s with device := d })
  | (some a, d) =>
      match copyWeightToDevice sys host (s.weights.ptr (.layer l second)) bytes d with
      | (none, d) => (false, { s with device := sys.cuda.free d a })
      | (some b, d) =>
          (true,
            { weights := { s.weights with
                ptr := Function.update (Function.update s.weights.ptr (.layer l first) a)
                  (.layer l second) b }
              owned := s.owned ++ [a, b]
              device := d })

/-- The body of the loop of `materialize_norm_weights`. -/
def materializeLayerNorms (normBytes qkNormBytes l : ℕ) (s : CopyState D) : Bool × CopyState D :=
  if s.weights.rmsType l ≠ 0 then (false, s)
  else
    match copyNormPair sys host l .rmsAttn .rmsFfn normBytes s with
    | (false, s) => (false, s)
    | (true, s) =>
        if s.weights.ptr (.layer l .qNorm) ≠ 0 ∧ s.weights.ptr (.layer l .kNorm) ≠ 0 then
          if s.weights.qkNormType l ≠ 0 then (false, s)
          else copyNormPair sys host l .qNorm .kNorm qkNormBytes s
        else (true, s)

/-- The loop of `materialize_norm_weights`. -/
def materializeNorms (normBytes qkNormBytes : ℕ) : List ℕ → CopyState D → Bool × CopyState D
  | [], s => (true, s)
  | l :: ls, s =>
      match materializeLayerNorms sys host normBytes qkNormBytes l s with
      | (true, s) => materializeNorms normBytes qkNormBytes ls s
      | (false, s) => (false, s)

/-- `materialize_norm_weights`. -/
def materializeNormWeights (cfg : ModelConfig) (s : CopyState D) : Bool × CopyState D :=
  let normBytes := floatBytes cfg.hiddenDim.toInt
  let qkNormBytes := floatBytes cfg.headDim.toInt
  match materializeNorms sys host normBytes qkNormBytes (List.range s.weights.nLayers.toNat) s with
  | (false, s) => (false, s)
  | (true, s) =>
      match copyWeightToDevice sys host (s.weights.ptr .outputNorm) normBytes s.device with
      | (none, d) => (false, { s with device := d })
      | (some p, d) =>
          (true,
            { weights := { s.weights with ptr := Function.update s.weights.ptr .outputNorm p }
              owned := s.owned ++ [p]
              device := d })

/-- `layer_quant_weight_bytes`; `none` when a dimension overflows. -/
def layerQuantWeightBytes (cfg : ModelConfig) (mw : ModelWeights) (l : ℕ) : Option ℕ :=
  (mul32 cfg.nHeads.toInt cfg.headDim.toInt).bind fun q =>
    (mul32 cfg.nKvHeads.toInt cfg.headDim.toInt).map fun kv =>
      ((layerSpecs mw l cfg.hiddenDim.toInt q kv cfg.intermediateDim.toInt).map
        TensorSpec.bytes).sum % 0x10000000000000000

/-- Bytes in megabytes, rounded up, as a `size_t`. -/
def ceilMb (bytes : ℕ) : ℕ := (bytes + 1024 * 1024 - 1) % 0x10000000000000000 / (1024 * 1024)

/-- `total_bytes` and `copied_layers`. -/
structure LayersCopied where
  totalBytes : ℕ := 0
  layers : ℕ := 0

/-- The loop of `materialize_layer_weights`, with `free_mb`. -/
def copyLayers (cfg : ModelConfig) : List ℕ → ℤ → LayersCopied → CopyState D →
    Option (LayersCopied × CopyState D)
  | [], _, n, s => some (n, s)
  | l :: ls, freeMb, n, s =>
      (layerQuantWeightBytes cfg s.weights l).bind fun bytes =>
        if bytes = 0 then some (n, s)
        else if freeMb < ceilMb bytes + 128 then some (n, s)
        else
          (copyLayerQuantWeightsToDevice sys.cuda host l cfg s).bind fun r =>
            if r.1 then
              copyLayers cfg ls (freeMb - ceilMb bytes)
                ⟨(n.totalBytes + bytes) % 0x10000000000000000, n.layers + 1⟩ r.2
            else some (n, r.2)

/-- `(size_t)-1`. -/
def sizeMax : ℕ := 0xFFFFFFFFFFFFFFFF

/-- `materialize_layer_weights`. -/
def materializeLayerWeights (cfg : ModelConfig) (budget : MemoryBudget) (s : CopyState D) :
    Option (ℕ × CopyState D) :=
  if !env.fastGemvEnabled then some (0, s)
  else
    let requestedLayers := env.deviceLayerLimit
    if requestedLayers = 0 then some (0, s)
    else
      let layerCap :=
        if requestedLayers < 0 then s.weights.nLayers else min requestedLayers s.weights.nLayers
      if !env.mappedWeightDeviceEnabled ∧ layerCap < s.weights.nLayers then some (sizeMax, s)
      else
        (copyLayers sys host cfg (List.range layerCap.toNat) budget.freeMb {} s).map fun r =>
          if !env.mappedWeightDeviceEnabled ∧ r.1.layers < s.weights.nLayers then (sizeMax, r.2)
          else (r.1.totalBytes, r.2)

/-- `map_host_weight_range_for_gpu`; the size of a page is a power of two. -/
def mapHostWeightRangeForGpu (ptr bytes : ℕ) (m : MapState H) : Bool × MapState H :=
  if ptr = 0 ∨ bytes = 0 then (false, m)
  else
    let first := ptr / sys.pageSize * sys.pageSize
    let last :=
      (ptr + bytes + sys.pageSize - 1) % 0x10000000000000000 / sys.pageSize * sys.pageSize
    if last ≤ first then (false, m)
    else
      match sys.register m.host first (last - first) with
      | (false, h) => (false, { m with host := h })
      | (true, h) =>
          match sys.devicePointer h first with
          | (none, h) => (false, { m with host := sys.put .registration h first })
          | (some device, h) =>
              (true,
                { host := h
                  region := some ⟨first, device, last - first⟩
                  mappedOutput := some (first, last - first) })

/-- The range is mapped, if `cond`. -/
def mapIf (cond : Bool) (ptr bytes : ℕ) (m : MapState H) : Bool × MapState H :=
  if cond then mapHostWeightRangeForGpu sys ptr bytes m else (false, m)

/-- `materialize_output_weight`, with the pages to map only where `load` passes a place for
them. -/
def materializeOutputWeight (cfg : ModelConfig) (budget : MemoryBudget) (s : CopyState D)
    (m : MapState H) : ℕ × CopyState D × MapState H :=
  let outputSrc := s.weights.ptr .output
  if !env.deviceOutputEnabled || !env.fastGemvEnabled || decide (outputSrc = 0) then (0, s, m)
  else
    let bytes := kquantTensorBytes s.weights.outputType cfg.vocabSize.toInt cfg.hiddenDim.toInt
    if bytes = 0 then (0, s, m)
    else
      let tiedOutput := decide (outputSrc = s.weights.ptr .tokEmbd)
      let mapped := !env.mappedWeightDeviceEnabled
      match mapIf sys (mapped && tiedOutput && !env.forceCopy) outputSrc bytes m with
      | (true, m) => (bytes, s, m)
      | (false, m) =>
          if budget.freeMb < ceilMb bytes + 128 then
            match mapIf sys mapped outputSrc bytes m with
            | (true, m) => (bytes, s, m)
            | (false, m) => (0, s, m)
          else
            match sys.cuda.malloc s.device bytes with
            | (none, d) =>
                match mapIf sys mapped outputSrc bytes m with
                | (true, m) => (bytes, { s with device := d }, m)
                | (false, m) => (0, { s with device := d }, m)
            | (some p, d) =>
                match sys.cuda.memcpy d p (host.read outputSrc bytes) with
                | (false, d) => (0, { s with device := sys.cuda.free d p }, m)
                | (true, d) =>
                    let ptr := Function.update s.weights.ptr .output p
                    let ptr :=
                      if tiedOutput && env.fastEmbeddingEnabled then Function.update ptr .tokEmbd p
                      else ptr
                    (bytes,
                      { weights := { s.weights with ptr := ptr }
                        owned := s.owned ++ [p]
                        device := d },
                      m)

end

end JLLM
