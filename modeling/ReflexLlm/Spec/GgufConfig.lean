import Mathlib.Data.List.Infix
import ReflexLlm.Spec.GgufReader

/-! `load_gguf_config` of `src/engine/model.cpp`: the metadata pairs of a GGUF file, read by
key substrings, and what is derived when a key is absent. -/

namespace JLLM

open ByteStream Reader LittleEndian

/-- The bytes of an ASCII string. -/
def ascii (s : String) : List UInt8 := s.toList.map Char.toUInt8

/-- `ModelConfig`; a float is kept as its bits. -/
structure ModelConfig where
  nLayers : Int32 := 0
  nHeads : Int32 := 0
  nKvHeads : Int32 := 0
  headDim : Int32 := 0
  hiddenDim : Int32 := 0
  intermediateDim : Int32 := 0
  vocabSize : Int32 := 0
  maxSeqLen : Int32 := 0
  ropeTheta : UInt32 := 0
  rmsEps : UInt32 := 0x3727C5AC
  ropeNeox : Bool := false
  name : List UInt8 := []
deriving DecidableEq, Repr

/-- All dimensions are positive. -/
structure ModelConfig.Positive (c : ModelConfig) : Prop where
  nLayers : 0 < c.nLayers.toInt
  nHeads : 0 < c.nHeads.toInt
  nKvHeads : 0 < c.nKvHeads.toInt
  headDim : 0 < c.headDim.toInt
  hiddenDim : 0 < c.hiddenDim.toInt
  intermediateDim : 0 < c.intermediateDim.toInt
  vocabSize : 0 < c.vocabSize.toInt
  maxSeqLen : 0 < c.maxSeqLen.toInt

/-- The fields that a `uint32` value can go to. -/
inductive ConfigField where
  | nLayers
  | nKvHeads
  | nHeads
  | headDim
  | hiddenDim
  | intermediateDim
  | vocabSize
  | maxSeqLen
deriving DecidableEq, Repr

def ModelConfig.get (cfg : ModelConfig) : ConfigField → Int32
  | .nLayers => cfg.nLayers
  | .nKvHeads => cfg.nKvHeads
  | .nHeads => cfg.nHeads
  | .headDim => cfg.headDim
  | .hiddenDim => cfg.hiddenDim
  | .intermediateDim => cfg.intermediateDim
  | .vocabSize => cfg.vocabSize
  | .maxSeqLen => cfg.maxSeqLen

def ModelConfig.set (cfg : ModelConfig) (field : ConfigField) (val : Int32) : ModelConfig :=
  match field with
  | .nLayers => { cfg with nLayers := val }
  | .nKvHeads => { cfg with nKvHeads := val }
  | .nHeads => { cfg with nHeads := val }
  | .headDim => { cfg with headDim := val }
  | .hiddenDim => { cfg with hiddenDim := val }
  | .intermediateDim => { cfg with intermediateDim := val }
  | .vocabSize => { cfg with vocabSize := val }
  | .maxSeqLen => { cfg with maxSeqLen := val }

/-- `strstr(key, pattern)`. -/
def hasSubstring (key : List UInt8) (pattern : String) : Bool := ascii pattern <:+: key

/-- The field of a `uint32` key. -/
def u32Field (key : List UInt8) : Option ConfigField :=
  if hasSubstring key "block_count" then some .nLayers
  else if hasSubstring key "head_count_kv" then some .nKvHeads
  else if hasSubstring key "head_count" then some .nHeads
  else if hasSubstring key "attention.key_length" then some .headDim
  else if hasSubstring key "attention.value_length" then some .headDim
  else if hasSubstring key "embedding_length" then some .hiddenDim
  else if hasSubstring key "feed_forward_length" then some .intermediateDim
  else if hasSubstring key "vocab_size" then some .vocabSize
  else if hasSubstring key "context_length" then some .maxSeqLen
  else none

def setU32 (cfg : ModelConfig) (key : List UInt8) (val : UInt32) : ModelConfig :=
  match u32Field key with
  | some field => cfg.set field val.toInt32
  | none => cfg

def setF32 (cfg : ModelConfig) (key : List UInt8) (val : UInt32) : ModelConfig :=
  if hasSubstring key "rope.freq_base" then { cfg with ropeTheta := val }
  else if hasSubstring key "layer_norm_rms_epsilon" || hasSubstring key "rms_norm_eps" then
    { cfg with rmsEps := val }
  else cfg

/-- The architectures with `rope_neox`. -/
def isNeox (arch : List UInt8) : Bool :=
  arch ∈ ["qwen", "qwen2", "qwen3", "qwen2moe", "qwen3moe", "gemma", "gemma2", "gemma3", "phi2",
    "phi3", "gptneox", "olmo", "olmo2"].map ascii

/-- The string in front of the first zero of a buffer. -/
def bufferString (bytes : List UInt8) : List UInt8 := bytes.takeWhile (· ≠ 0)

section

variable (f : Stream)

/-- `esz`. -/
def longKeyElemSize (atype : UInt32) : ℕ :=
  if atype ≤ 1 ∨ atype = 7 then 1 else if atype ≤ 3 then 2 else if atype ≤ 6 then 4 else 8

/-- The value behind a key that is too long. -/
def skipByType (skipType : UInt32) : Reader Unit :=
  if skipType ≤ 1 ∨ skipType = 7 then seek f 1
  else if skipType ≤ 3 then seek f 2
  else if skipType ≤ 6 then seek f 4
  else if 10 ≤ skipType ∧ skipType ≤ 12 then seek f 8
  else if skipType = 8 then skipString f
  else if skipType = 9 then do
    let atype ← u32 f
    let alen ← u64 f
    if atype = 8 then loop alen.toNat (fun _ => skipString f) ()
    else seek f (alen * .ofNat (longKeyElemSize atype))
  else seek f 8

def readConfigString (cfg : ModelConfig) (key : List UInt8) : Reader ModelConfig := do
  let strLen ← u64 f
  if hasSubstring key "general.name" && strLen.toNat < 256 then do
    let name ← zeroed f strLen.toNat
    return { cfg with name := bufferString name }
  else if hasSubstring key "general.architecture" then do
    let arch ← zeroed f strLen.toNat
    return { cfg with ropeNeox := isNeox arch }
  else do
    seek f strLen
    return cfg

/-- A value; one that is not read counts as eight bytes. -/
def readConfigValue (cfg : ModelConfig) (key : List UInt8) (vtype : UInt32) :
    Reader ModelConfig :=
  if vtype = 4 then do
    let val ← u32 f
    return setU32 cfg key val
  else if vtype = 6 then do
    let val ← u32 f
    return setF32 cfg key val
  else if vtype = 8 then readConfigString f cfg key
  else do
    seek f 8
    return cfg

/-- The body of the loop over the pairs. -/
def readConfigPair (cfg : ModelConfig) : Reader ModelConfig := do
  let keyLen ← u64 f
  if 255 < keyLen.toNat then do
    seek f keyLen
    let skipType ← u32 f
    skipByType f skipType
    return cfg
  else do
    let key ← zeroed f keyLen.toNat
    let vtype ← u32 f
    readConfigValue f cfg (bufferString key) vtype

/-- The defaults of what is missing. -/
def deriveConfig (cfg : ModelConfig) : ModelConfig :=
  let cfg := if cfg.headDim = 0 ∧ 0 < cfg.nHeads ∧ 0 < cfg.hiddenDim then
    { cfg with headDim := cfg.hiddenDim / cfg.nHeads } else cfg
  let cfg := if cfg.ropeTheta = 0 ∨ cfg.ropeTheta = 0x80000000 then
    { cfg with ropeTheta := 0x461C4000 } else cfg
  let cfg := if cfg.maxSeqLen = 0 then { cfg with maxSeqLen := 2048 } else cfg
  if cfg.nKvHeads = 0 then { cfg with nKvHeads := cfg.nHeads } else cfg

/-- The header and the metadata; `none` for a wrong magic. -/
def readConfig (path : List UInt8) : Reader (Option ModelConfig) := do
  let hdr ← raw f 24
  if toU32 (field hdr 0 4) ≠ 0x46554747 then return none
  else do
    let cfg ← loop (min (toU64 (field hdr 16 8)).toNat 256) (readConfigPair f) { name := path }
    return some (deriveConfig cfg)

/-- `vocab_size` from the shape of `token_embd.weight`. -/
def vocabOf (cfg : ModelConfig) (tensors : List TensorInfo) : Int32 :=
  match tensors.find? (·.name = ascii "token_embd.weight") with
  | none => cfg.vocabSize
  | some ti =>
      let s0 := ti.shape.getD 0 1
      let s1 := if 2 ≤ ti.nDims then ti.shape.getD 1 1 else 0
      let v :=
        if s0 = cfg.hiddenDim.toInt64 then s1
        else if s1 = cfg.hiddenDim.toInt64 then s0
        else max s0 s1
      v.toInt32

/-- `load_gguf_config` of a file that can be opened; `none` when it does not return. -/
def loadGgufConfig (path : List UInt8) (maxTensors : ℕ) : Option ModelConfig :=
  match (readConfig f path .start).1 with
  | none => some { name := path }
  | some cfg =>
      if cfg.vocabSize = 0 ∧ 0 < cfg.hiddenDim then
        match (parseTensorInfos f maxTensors).1 with
        | .undefined => none
        | .threw => none
        | .returned offset tensors =>
            let cfg := if 0 ≤ offset then { cfg with vocabSize := vocabOf cfg tensors } else cfg
            some (if cfg.vocabSize = 0 then { cfg with vocabSize := 32000 } else cfg)
      else some cfg

end

end JLLM
