import Mathlib.Data.Set.Insert
import ReflexLlm.Lib.ByteMem
import ReflexLlm.Spec.EngineLoad
import ReflexLlm.Spec.WeightMap

/-! `copy_layer_quant_weights_to_device` of `src/engine/decode.cu`: the quantised weights of a
layer are copied into one block of device memory, and their pointers go there. The pages
that are released afterwards are those of a file that is mapped, their bytes stay. -/

namespace JLLM

open ByteMem

/-- The calls of the CUDA runtime. A call that can fail says if it did. -/
structure CudaRuntime (D : Type) where
  malloc : D → ℕ → Option ℕ × D
  /-- `cudaMemcpy` of bytes of the host. -/
  memcpy : D → ℕ → List UInt8 → Bool × D
  free : D → ℕ → D
  mem : D → Mem
  /-- The blocks that are allocated. -/
  live : D → Set ℕ

/-- What the runtime promises. Addresses of the device have 49 bits. -/
structure CudaRuntime.Lawful {D : Type} (cuda : CudaRuntime D) : Prop where
  malloc_bound {d : D} {size ptr : ℕ} :
    (cuda.malloc d size).1 = some ptr → ptr + size ≤ 0x2000000000000
  malloc_fresh {d : D} {size ptr : ℕ} : (cuda.malloc d size).1 = some ptr → ptr ∉ cuda.live d
  malloc_live {d : D} {size ptr : ℕ} :
    (cuda.malloc d size).1 = some ptr → cuda.live (cuda.malloc d size).2 = insert ptr (cuda.live d)
  malloc_none {d : D} {size : ℕ} :
    (cuda.malloc d size).1 = none → cuda.live (cuda.malloc d size).2 = cuda.live d
  memcpy_bound {d : D} {ptr : ℕ} {src : List UInt8} :
    (cuda.memcpy d ptr src).1 = true → ptr + src.length ≤ 0x2000000000000
  memcpy_mem {d : D} {ptr : ℕ} {src : List UInt8} : (cuda.memcpy d ptr src).1 = true →
    cuda.mem (cuda.memcpy d ptr src).2 = (cuda.mem d).write ptr src
  memcpy_live {d : D} {ptr : ℕ} {src : List UInt8} :
    cuda.live (cuda.memcpy d ptr src).2 = cuda.live d
  free_live {d : D} {ptr : ℕ} : cuda.live (cuda.free d ptr) = cuda.live d \ {ptr}

/-- `kquant_tensor_bytes`; the product of two positive `int` and 210 is in the range. -/
def kquantTensorBytes (ggmlType : UInt32) (rows cols : ℤ) : ℕ :=
  if rows ≤ 0 ∨ cols ≤ 0 ∨ cols % 256 ≠ 0 then 0
  else
    let blockBytes :=
      if ggmlType = 12 then 144  -- Q4_K
      else if ggmlType = 13 then 176  -- Q5_K
      else if ggmlType = 14 then 210  -- Q6_K
      else 0
    rows.toNat * (cols / 256).toNat * blockBytes

/-- `align_up_size`. -/
def alignUpSize (value alignment : ℕ) : ℕ := (value + alignment - 1) / alignment * alignment

/-- `Spec`; the pointer it stores to is that of the slot. -/
structure TensorSpec where
  slot : LayerSlot
  src : ℕ
  type : UInt32
  rows : ℤ
  cols : ℤ

def TensorSpec.bytes (spec : TensorSpec) : ℕ := kquantTensorBytes spec.type spec.rows spec.cols

/-- `specs` for the dimensions `H`, `Q`, `KV`, `I`. -/
def layerSpecs (mw : ModelWeights) (l : ℕ) (hidden q kv intermediate : ℤ) : List TensorSpec :=
  let spec (slot : LayerSlot) (rows cols : ℤ) : TensorSpec :=
    { slot, src := mw.ptr (.layer l slot), type := mw.matType (l, slot), rows, cols }
  [spec .wq q hidden, spec .wk kv hidden, spec .wv kv hidden, spec .wo hidden q,
    spec .wGate intermediate hidden, spec .wUp intermediate hidden,
    spec .wDown hidden intermediate]

/-- The loop for the offsets, with `arena_bytes`. -/
def layoutArena : List TensorSpec → ℕ → Option (List (TensorSpec × ℕ) × ℕ)
  | [], arenaBytes => some ([], arenaBytes)
  | spec :: specs, arenaBytes =>
      if spec.bytes = 0 ∨ spec.src = 0 then none
      else
        (layoutArena specs ((arenaBytes + alignUpSize spec.bytes 256) % 0x10000000000000000)).map
          fun r => ((spec, arenaBytes) :: r.1, r.2)

/-- `arena_u8 + offset`. -/
def arenaPtr (arena offset : ℕ) : ℕ := (arena + offset) % 0x10000000000000000

section

variable {D : Type} (cuda : CudaRuntime D) (host : Mem)

/-- The loop for the copies; the first one that fails frees the arena. -/
def copyTensors (arena : ℕ) : List (TensorSpec × ℕ) → D → Bool × D
  | [], d => (true, d)
  | (spec, offset) :: rest, d =>
      let copied := cuda.memcpy d (arenaPtr arena offset) (host.read spec.src spec.bytes)
      if copied.1 then copyTensors arena rest copied.2 else (false, cuda.free copied.2 arena)

/-- The loop that stores the pointers. -/
def publishTensors (l arena : ℕ) (ptr : WeightSlot → ℕ) (tensors : List (TensorSpec × ℕ)) :
    WeightSlot → ℕ :=
  tensors.foldl
    (fun ptr t => Function.update ptr (.layer l t.1.slot) (arenaPtr arena t.2)) ptr

/-- The weights, `owned` and the device. -/
structure CopyState (D : Type) where
  weights : ModelWeights
  owned : List ℕ
  device : D

/-- The call for tensors whose dimensions are known. There is room for one more pointer in
`owned`. -/
def copySpecsToDevice (l : ℕ) (specs : List TensorSpec) (s : CopyState D) : Bool × CopyState D :=
  match layoutArena specs 0 with
  | none => (false, s)
  | some (tensors, arenaBytes) =>
      match cuda.malloc s.device arenaBytes with
      | (none, d) => (false, { s with device := d })
      | (some arena, d) =>
          match copyTensors cuda host arena tensors d with
          | (false, d) => (false, { s with device := d })
          | (true, d) =>
              (true,
                { weights := { s.weights with ptr := publishTensors l arena s.weights.ptr tensors }
                  owned := s.owned ++ [arena]
                  device := d })

/-- `copy_layer_quant_weights_to_device`; `none` when a dimension overflows. -/
def copyLayerQuantWeightsToDevice (l : ℕ) (cfg : ModelConfig) (s : CopyState D) :
    Option (Bool × CopyState D) :=
  (mul32 cfg.nHeads.toInt cfg.headDim.toInt).bind fun q =>
    (mul32 cfg.nKvHeads.toInt cfg.headDim.toInt).map fun kv =>
      copySpecsToDevice cuda host l
        (layerSpecs s.weights l cfg.hiddenDim.toInt q kv cfg.intermediateDim.toInt) s

end

end JLLM
