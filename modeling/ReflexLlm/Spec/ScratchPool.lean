import ReflexLlm.Lib.Bump
import ReflexLlm.Spec.EngineLoad
import ReflexLlm.Spec.Generate

/-! `ScratchPool` of `src/memory/pool.cpp` and the buffers that the passes of
`src/engine/decode.cu` get from it. A pointer is an offset, `none` is null. -/

namespace JLLM

abbrev ScratchPool := Bump.Arena

namespace ScratchPool

def init (sizeBytes : ℕ) : ScratchPool := ⟨sizeBytes, 0, Nat.zero_le _⟩

/-- `get`; the size is rounded up to 256 bytes. -/
def get (s : ScratchPool) (size : ℕ) : Option ℕ × ScratchPool := s.alloc 256 size

def reset (s : ScratchPool) : ScratchPool := { s with offset := 0, offset_le := Nat.zero_le _ }

def mark (s : ScratchPool) : ℕ := s.offset

/-- `rewind_to`; an offset behind the end is ignored. -/
def rewindTo (s : ScratchPool) (savedOffset : ℕ) : ScratchPool :=
  if h : savedOffset ≤ s.capacity then { s with offset := savedOffset, offset_le := h } else s

/-- Calls of `get` for one size after the other. -/
def getAll (s : ScratchPool) (sizes : List ℕ) : List (Option ℕ) × ScratchPool := s.allocAll 256 sizes

end ScratchPool

/-- The sizes of the buffers of a pass: `H`, `Q_DIM`, `KV_DIM`, `I`. -/
structure BufferDims where
  hidden : ℕ
  q : ℕ
  kv : ℕ
  intermediate : ℕ

/-- The buffers of `transformer_layer`, with `attn_out` of its attention block. -/
def transformerLayerSizes (d : BufferDims) : List ℕ :=
  [d.hidden * 2,        -- normed
   d.q * 2,             -- q_buf
   d.kv * 2,            -- k_buf
   d.kv * 2,            -- v_buf
   d.hidden * 2,        -- x2
   d.q * 2,             -- attn_out
   d.hidden * 2,        -- normed2
   d.intermediate * 2,  -- gate_buf
   d.intermediate * 2,  -- up_buf
   d.intermediate * 2]  -- swiglu_out

/-- The buffers of `decode_step`: `x`, those of each layer, `normed`, `logits_fp32`. -/
def decodeStepSizes (d : BufferDims) (nLayers vocabSize : ℕ) : List ℕ :=
  d.hidden * 2 :: ((List.replicate nLayers (transformerLayerSizes d)).flatten ++
    [d.hidden * 2, vocabSize * 4])

/-- The pointers that `decode_step` gets from a pool. -/
def decodeStepBuffers (d : BufferDims) (nLayers vocabSize : ℕ) (s : ScratchPool) :
    List (Option ℕ) :=
  (s.getAll (decodeStepSizes d nLayers vocabSize)).1

/-- The buffers of one layer of `transformer_prefill` for `n` tokens. -/
def transformerPrefillSizes (d : BufferDims) (n : ℕ) : List ℕ :=
  [n * d.hidden * 2,        -- normed_batch
   n * d.q * 2,             -- q_batch
   n * d.kv * 2,            -- k_batch
   n * d.kv * 2,            -- v_batch
   n * d.q * 2,             -- attn_out_batch
   n * d.hidden * 2,        -- attn_proj_batch
   n * d.hidden * 2,        -- x_attn_batch
   n * d.hidden * 2,        -- normed2_batch
   n * d.intermediate * 2,  -- gate_batch
   n * d.intermediate * 2,  -- up_batch
   n * d.intermediate * 2,  -- swiglu_batch
   n * d.hidden * 2]        -- ffn_out_batch

/-- `transformer_prefill` on the pool: its buffers, given back at its end. -/
def transformerPrefillBuffers (d : BufferDims) (n : ℕ) (s : ScratchPool) :
    List (Option ℕ) × ScratchPool :=
  let snapshot := s.mark
  let buffers := s.getAll (transformerPrefillSizes d n)
  (buffers.1, buffers.2.rewindTo snapshot)

/-- The layers of the batched prefill, one after the other: the buffers of each and the
pool behind it. -/
def prefillLayerBuffers (d : BufferDims) (m : ℕ) : ℕ → ScratchPool → List (List (Option ℕ) × ScratchPool)
  | 0, _ => []
  | nLayers + 1, s =>
      let layer := transformerPrefillBuffers d m s
      layer :: prefillLayerBuffers d m nLayers layer.2

/-- The size of `x_batch` for `m` tokens. -/
def xBatchBytes (d : BufferDims) (m : ℕ) : ℕ := m * d.hidden * 2

/-- `x_batch`, and the pool that the layers of the batched prefill start with. -/
def batchedPrefillStart (d : BufferDims) (m : ℕ) (s : ScratchPool) : Option ℕ × ScratchPool :=
  s.reset.get (xBatchBytes d m)

section

variable {W R L P G : Type} (e : Engine W R L P G)

def Engine.bufferDims : BufferDims where
  hidden := e.hiddenDim
  q := e.dims.nHeads * e.dims.headDim
  kv := e.dims.nKvHeads * e.dims.headDim
  intermediate := e.intermediateDim

end

/-- The sizes of a configuration; its two products are of type `int`. -/
def ModelConfig.bufferDims (c : ModelConfig) : BufferDims where
  hidden := c.hiddenDim.toInt.toNat
  q := (c.nHeads.toInt * c.headDim.toInt).toNat
  kv := (c.nKvHeads.toInt * c.headDim.toInt).toNat
  intermediate := c.intermediateDim.toInt.toNat

end JLLM
