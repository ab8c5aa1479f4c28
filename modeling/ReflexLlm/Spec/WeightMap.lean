import Mathlib.Logic.Function.Basic
import ReflexLlm.Spec.GgufConfig
import ReflexLlm.Spec.Tokenizer

/-! `load_and_map_weights` of `src/engine/model.cpp`: the tensor descriptors are parsed, the
file is mapped into memory, and by its name each tensor gives a weight its pointer. Pointers
are addresses of 64 bits, zero is null. -/

namespace JLLM

open ByteStream

/-- `ggml_type_block_size`. -/
def ggmlTypeBlockSize (type : UInt32) : ℤ :=
  if type = 2 ∨ type = 3 ∨ (6 ≤ type ∧ type ≤ 9) then 32
  else if 10 ≤ type ∧ type ≤ 14 then 256
  else 1

/-- `ggml_type_bytes_per_block`. -/
def ggmlTypeBytesPerBlock (type : UInt32) : ℤ :=
  if type = 0 then 4
  else if type = 1 then 2
  else if type = 2 then 18
  else if type = 3 then 20
  else if type = 6 then 22
  else if type = 7 then 24
  else if type = 8 then 34
  else if type = 9 then 36
  else if type = 12 then 144
  else if type = 13 then 176
  else if type = 14 then 210
  else if type = 10 then 84
  else if type = 11 then 110
  else 4

/-- `tensor_bytes`, without overflow. -/
def tensorBytes (type : UInt32) (nElements : ℤ) : ℤ :=
  let blockSize := ggmlTypeBlockSize type
  let nBlocks := (nElements + blockSize - 1).tdiv blockSize
  nBlocks * ggmlTypeBytesPerBlock type

/-- The pointers of a layer that are mapped. -/
inductive LayerSlot where
  | wq
  | wk
  | wv
  | wo
  | wGate
  | wUp
  | wDown
  | qNorm
  | kNorm
  | rmsAttn
  | rmsFfn
deriving DecidableEq, Repr

/-- The pointers of the model that are mapped. -/
inductive WeightSlot where
  | layer (l : ℕ) (slot : LayerSlot)
  | tokEmbd
  | outputNorm
  | output
deriving DecidableEq, Repr

/-- `ModelWeights`, with the layers it points to. The scales are never mapped. -/
structure ModelWeights where
  nLayers : ℤ := 0
  ptr : WeightSlot → ℕ := fun _ => 0
  /-- `type_wq` to `type_w_down` of a layer. -/
  matType : ℕ × LayerSlot → UInt32 := fun _ => 0
  rmsType : ℕ → ℕ := fun _ => 0
  qkNormType : ℕ → ℕ := fun _ => 0
  embdType : UInt32 := 0
  outputType : UInt32 := 12

/-- `%d` of `sscanf`: what is out of the range of `long` is cut to it, then to an `int`. -/
def scanInt (text : List UInt8) : Option ℤ :=
  let text := text.dropWhile isSpace
  let neg := text.head? = some '-'.toUInt8
  let unsigned := if neg ∨ text.head? = some '+'.toUInt8 then text.tail else text
  let digits := unsigned.takeWhile isDigit
  if digits = [] then none
  else
    let n : ℕ := digits.foldl (fun n d => 10 * n + (d.toNat - 0x30)) 0
    let long : ℤ := if neg then max (-n) (-0x8000000000000000) else min n 0x7FFFFFFFFFFFFFFF
    some (long.bmod 0x100000000)

/-- `sscanf(name, "blk.%d.", &layer)`. -/
def scanLayer (name : List UInt8) : Option ℤ :=
  if ascii "blk." <+: name then scanInt (name.drop 4) else none

/-- The tests of a name that has a layer. -/
def layerSlot (name : List UInt8) : Option LayerSlot :=
  if hasSubstring name "attn_q.weight" then some .wq
  else if hasSubstring name "attn_k.weight" then some .wk
  else if hasSubstring name "attn_v.weight" then some .wv
  else if hasSubstring name "attn_output.weight" then some .wo
  else if hasSubstring name "ffn_gate.weight" then some .wGate
  else if hasSubstring name "ffn_up.weight" then some .wUp
  else if hasSubstring name "ffn_down.weight" then some .wDown
  else if hasSubstring name "attn_q_norm.weight" then some .qNorm
  else if hasSubstring name "attn_k_norm.weight" then some .kNorm
  else if hasSubstring name "attn_norm.weight" then some .rmsAttn
  else if hasSubstring name "ffn_norm.weight" then some .rmsFfn
  else none

/-- The pointer that a name stands for. -/
def weightSlot (nLayers : ℤ) (name : List UInt8) : Option WeightSlot :=
  match (scanLayer name).filter fun layer => 0 ≤ layer ∧ layer < nLayers with
  | some layer => (layerSlot name).map (.layer layer.toNat)
  | none =>
      if name = ascii "token_embd.weight" then some .tokEmbd
      else if name = ascii "output_norm.weight" then some .outputNorm
      else if name = ascii "output.weight" then some .output
      else none

/-- A pointer and the type that goes along with it. -/
def ModelWeights.store (mw : ModelWeights) (slot : WeightSlot) (ptr : ℕ) (type : UInt32) :
    ModelWeights :=
  let mw := { mw with ptr := Function.update mw.ptr slot ptr }
  match slot with
  | .layer l .qNorm | .layer l .kNorm =>
      { mw with qkNormType := Function.update mw.qkNormType l (if type = 0 then 0 else 1) }
  | .layer l .rmsAttn | .layer l .rmsFfn =>
      { mw with rmsType := Function.update mw.rmsType l (if type = 0 then 0 else 1) }
  | .layer l slot => { mw with matType := Function.update mw.matType (l, slot) type }
  | .tokEmbd => { mw with embdType := type }
  | .outputNorm => mw
  | .output => { mw with outputType := type }

/-- `data + ti.offset`. -/
def tensorPtr (blob dataOffset : ℕ) (ti : TensorInfo) : ℕ :=
  (blob + dataOffset + ti.offset.toNat) % 0x10000000000000000

/-- The body of the loop over the tensors, with `mapped`. -/
def mapTensor (blob dataOffset : ℕ) (s : ModelWeights × ℕ) (ti : TensorInfo) :
    ModelWeights × ℕ :=
  match weightSlot s.1.nLayers ti.name with
  | some slot => (s.1.store slot (tensorPtr blob dataOffset ti) ti.type, s.2 + 1)
  | none => s

/-- Without an output projection the token embedding is taken for it. -/
def ModelWeights.tieOutput (mw : ModelWeights) : ModelWeights :=
  if mw.ptr .output = 0 ∧ mw.ptr .tokEmbd ≠ 0 then
    { mw with
      ptr := Function.update mw.ptr .output (mw.ptr .tokEmbd)
      outputType := mw.embdType }
  else mw

/-- How `load_and_map_weights` ends. -/
inductive MapOutcome where
  /-- A store past the end of `shape`, or `mapped` overflows. -/
  | undefined
  | threw
  | returned (ok : Bool) (mw : ModelWeights)

/-- `load_and_map_weights` of a file that can be opened. `blob` is where the file is mapped,
if it can be; there is memory for `maxTensors` descriptors and `maxLayers` layers. -/
def loadAndMapWeights (f : Stream) (maxTensors maxLayers : ℕ) (blob : Option ℕ)
    (cfg : ModelConfig) : MapOutcome :=
  match (parseTensorInfos f maxTensors).1 with
  | .undefined => .undefined
  | .threw => .threw
  | .returned offset tensors =>
      if offset < 0 then .returned false {}
      else
        match blob with
        | none => .returned false {}
        | some blob =>
            let nLayers := cfg.nLayers.toInt
            if nLayers < 0 ∨ maxLayers < nLayers then .threw
            else
              let s := tensors.foldl (mapTensor blob offset.toNat)
                (({ nLayers := nLayers } : ModelWeights), 0)
              if 0x7FFFFFFF < s.2 then .undefined
              else .returned (decide (0 < s.2)) s.1.tieOutput

end JLLM
