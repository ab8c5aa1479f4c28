import ReflexLlm.Lib.EarlyReturn
import ReflexLlm.Spec.Materialize

/-! `Engine::load` and `Engine::unload` of `src/engine/decode.cu`, with what they get from the
system and give back: the mapping of the file and its registration, device memory, the buffers
of the pools, the stream. `config_` is what `load_gguf_config` returns, `budget_` what
`probe_system_memory` does. -/

namespace JLLM

open ByteMem EarlyReturn

/-- The buffers of a KV pool. -/
structure PoolBuffers where
  gpuPool : Option ℕ := none
  cpuPool : Option ℕ := none
  kvScales : Option ℕ := none

/-- The fields of the engine that point to what it has got. `weights` of `CopyState` is
`model_weights_`, `owned` is `device_weight_copies_`, `blob` is `weights_`. -/
structure LoadState (D H : Type) extends CopyState D, MapState H where
  blob : Option ℕ
  blobBytes : ℕ
  layers : Option ℕ
  buffers : PoolBuffers
  scratchBase : Option ℕ
  stream : Option ℕ
  hostLogits : Option ℕ
  budget : MemoryBudget
  loaded : Bool

/-- How `load` ends before it returns true. -/
inductive LoadEnd where
  /-- After a signed overflow, or a store past the end of `shape`. -/
  | undefined
  | threw
  | returnedFalse
deriving DecidableEq, Repr

/-- The budget with more of the model on the device, in bytes here. -/
def MemoryBudget.addModel (b : MemoryBudget) (bytes : ℕ) : MemoryBudget :=
  { b with modelMb := b.modelMb + (bytes / (1024 * 1024) : ℕ) }

/-- `load_and_map_weights` has new layers, the other pointers stay. -/
def ModelWeights.relayer (mw : ModelWeights) (nLayers : ℤ) : ModelWeights where
  nLayers := nLayers
  ptr
    | .layer _ _ => 0
    | slot => mw.ptr slot
  embdType := mw.embdType
  outputType := mw.outputType

/-- `kv_scales_bytes`. -/
def Config.scalesBytes (c : Config) : ℕ := 2 * c.nLayers * c.maxContext * c.nKvHeads * 4

/-- `capacity_bytes`. -/
def Config.capacityBytes (c : Config) : ℕ :=
  (c.maxContext + c.overflowContext) * c.entryBytes * c.nLayers

abbrev LoadM (D H : Type) := Prog (LoadState D H) LoadEnd

section

variable {D H : Type} (sys : System D H) (host : Mem) (env : WeightEnv)

def mallocDevice (bytes : ℕ) : LoadM D H (Option ℕ) :=
  modifyGet fun s =>
    ((sys.cuda.malloc s.device bytes).1, { s with device := (sys.cuda.malloc s.device bytes).2 })

def memsetDevice (p bytes : ℕ) : LoadM D H Bool :=
  modifyGet fun s =>
    ((sys.memset s.device p bytes).1, { s with device := (sys.memset s.device p bytes).2 })

def freeDevice (p : ℕ) : LoadM D H Unit :=
  modify fun s => { s with device := sys.cuda.free s.device p }

def getHost (kind : HostKind) (size : ℕ) : LoadM D H (Option ℕ) :=
  modifyGet fun s => ((sys.get kind s.host size).1, { s with host := (sys.get kind s.host size).2 })

def registerHost (base bytes : ℕ) : LoadM D H Bool :=
  modifyGet fun s =>
    ((sys.register s.host base bytes).1, { s with host := (sys.register s.host base bytes).2 })

def hostGetDevicePointer (base : ℕ) : LoadM D H (Option ℕ) :=
  modifyGet fun s =>
    ((sys.devicePointer s.host base).1, { s with host := (sys.devicePointer s.host base).2 })

/-- The part of `load_gguf_weights` for a GPU that reads the mapping. A registration without a
device pointer is kept. -/
def registerWeights (blob size : ℕ) : LoadM D H Unit := do
  if ← registerHost sys blob size then
    match ← hostGetDevicePointer sys blob with
    | some device => modify fun s => { s with region := some ⟨blob, device, size⟩ }
    | none => pure ()

/-- `load_gguf_weights` of a file of `size` bytes that can be opened. -/
def loadGgufWeights (size : ℕ) : LoadM D H ℕ := do
  modify fun s => { s with blobBytes := size }
  match ← getHost sys .mapping size with
  | none => throw .returnedFalse
  | some blob =>
      if env.mappedWeightDeviceEnabled then registerWeights sys blob size
      modify fun s => { s with blob := some blob }
      return blob

/-- The part of `load_and_map_weights` from the new layers on, for a file that is mapped. -/
def mapTensors (offset : ℕ) (tensors : List TensorInfo) (blob : ℕ) (cfg : ModelConfig) :
    LoadM D H Unit := do
  returnIf (cfg.nLayers.toInt < 0) .threw
  match ← getHost sys .layers cfg.nLayers.toInt.toNat with
  | none => throw .threw
  | some layers =>
      modify fun s => { s with layers := some layers }
      let s ← get
      let r := tensors.foldl (mapTensor blob offset) (s.weights.relayer cfg.nLayers.toInt, 0)
      returnIf (0x7FFFFFFF < r.2) .undefined
      modify fun s => { s with weights := r.1.tieOutput }
      returnIf (r.2 = 0) .returnedFalse

/-- `load_and_map_weights`; when it returns false, `load` does. -/
def loadAndMap (f : ByteStream.Stream) (maxTensors size : ℕ) (cfg : ModelConfig) :
    LoadM D H Unit :=
  match (parseTensorInfos f maxTensors).1 with
  | .undefined => throw .undefined
  | .threw => throw .threw
  | .returned offset tensors => do
      returnIf (offset < 0) .returnedFalse
      let blob ← loadGgufWeights sys env size
      mapTensors sys offset.toNat tensors blob cfg

/-- The fast pool of `KVCachePool::init`. -/
def initFastPool (cfg : Config) : LoadM D H Unit := do
  returnIf (¬cfg.gpuPoolBytes < 2 ^ 63) .returnedFalse
  match ← mallocDevice sys cfg.gpuPoolBytes with
  | none => throw .returnedFalse
  | some p =>
      if ← memsetDevice sys p cfg.gpuPoolBytes then
        modify fun s => { s with buffers := { s.buffers with gpuPool := some p } }
      else
        freeDevice sys p
        throw .returnedFalse

/-- The overflow pool of `KVCachePool::init`, with the `cfg_` that is left. -/
def initOverflowPool (cfg : Config) : LoadM D H Config :=
  if 0 < cfg.overflowContext ∧ 0 < cfg.overflowBytes then do
    let q ← getHost sys .overflowPool cfg.overflowBytes
    modify fun s => { s with buffers := { s.buffers with cpuPool := q } }
    return if q.isSome then cfg else { cfg with overflowContext := 0 }
  else pure cfg

/-- The scales of `KVCachePool::init`. -/
def initScales (cfg : Config) : LoadM D H Unit :=
  if cfg.kvTypeBytes = 1 then do
    match ← mallocDevice sys cfg.scalesBytes with
    | none => modify fun s => { s with buffers := { s.buffers with kvScales := none } }
    | some r =>
        modify fun s => { s with buffers := { s.buffers with kvScales := some r } }
        discard (memsetDevice sys r cfg.scalesBytes)
  else pure ()

/-- `KVCachePool::init`, with the capacity of the pool. -/
def initBuffers (cfg : Config) : LoadM D H ℕ := do
  initFastPool sys cfg
  let cfg' ← initOverflowPool sys cfg
  initScales sys cfg
  return cfg'.capacityBytes

/-- The scratch pool. -/
def initScratch (cfg : ModelConfig) (capacity : ℕ) : LoadM D H Unit :=
  match EngineLoad.scratchBytes cfg with
  | none => throw .undefined
  | some scratch => do
      match ← mallocDevice sys scratch with
      | none => throw .returnedFalse
      | some base =>
          modify fun s =>
            { s with scratchBase := some base, budget := s.budget.record capacity scratch }

/-- The part of `load` from `max_context` to the scratch pool. -/
def loadBuffers (cfg : ModelConfig) (p : LoadParams) : LoadM D H Unit := do
  let s ← get
  match s.budget.maxContext cfg.nLayers.toInt cfg.nKvHeads.toInt cfg.headDim.toInt
      (EngineLoad.kvBytes p) with
  | none => throw .undefined
  | some autoCtx =>
      returnIf (EngineLoad.loadContext cfg p autoCtx < 0) .returnedFalse
      let capacity ← initBuffers sys
        (EngineLoad.kvConfig cfg p env.kvOverflow (EngineLoad.loadContext cfg p autoCtx))
      modify fun s => { s with budget := s.budget.record capacity 0 }
      initScratch sys cfg capacity

/-- The layers that the budget has room for. -/
def loadLayers (cfg : ModelConfig) : LoadM D H Unit := do
  let s ← get
  match materializeLayerWeights sys host env cfg s.budget s.toCopyState with
  | none => throw .undefined
  | some (bytes, c) =>
      modify fun s => { s with toCopyState := c }
      returnIf (bytes = sizeMax) .returnedFalse
      modify fun s => { s with budget := s.budget.addModel bytes }

def loadOutput (cfg : ModelConfig) : LoadM D H ℕ :=
  modifyGet fun s =>
    let r := materializeOutputWeight sys host env cfg s.budget s.toCopyState s.toMapState
    (r.1, { s with
      toCopyState := r.2.1, toMapState := r.2.2, budget := s.budget.addModel r.1 })

/-- The weights besides the norms. Without the mapping on the device the layers come first, and
the output projection has to be there. -/
def loadWeights (cfg : ModelConfig) : LoadM D H Unit :=
  if env.mappedWeightDeviceEnabled then do
    let _ ← loadOutput sys host env cfg
    loadLayers sys host env cfg
  else do
    loadLayers sys host env cfg
    let bytes ← loadOutput sys host env cfg
    returnIf (bytes = 0) .returnedFalse

def loadNorms (cfg : ModelConfig) : LoadM D H Unit := do
  let ok ← modifyGet fun s =>
    ((materializeNormWeights sys host cfg s.toCopyState).1,
      { s with toCopyState := (materializeNormWeights sys host cfg s.toCopyState).2 })
  returnIf (ok = false) .returnedFalse

/-- The stream and the buffer of the logits. A stream that cannot be created stays null. -/
def loadStream (cfg : ModelConfig) : LoadM D H Unit := do
  let stream ← getHost sys .stream 0
  modify fun s => { s with stream := stream }
  match ← getHost sys .hostLogits (floatBytes cfg.vocabSize.toInt) with
  | none => throw .returnedFalse
  | some logits => modify fun s => { s with hostLogits := some logits, loaded := true }

/-- The part of `load` behind `load_and_map_weights`. -/
def loadMapped (size : ℕ) (cfg : ModelConfig) (p : LoadParams) : LoadM D H Unit := do
  loadNorms sys host cfg
  modify fun s =>
    { s with budget := { s.budget with
        modelMb := if env.mappedWeightDeviceEnabled then (size / (1024 * 1024) : ℕ) else 0 } }
  loadBuffers sys env cfg p
  loadWeights sys host env cfg
  loadStream sys cfg

/-- `Engine::load`. -/
def load (f : ByteStream.Stream) (maxTensors size : ℕ) (cfg : ModelConfig) (probe : MemoryBudget)
    (p : LoadParams) : LoadM D H Unit := do
  modify fun s => { s with budget := probe }
  loadAndMap sys env f maxTensors size cfg
  loadMapped sys host env size cfg p

/-- What a pointer that is not null points to is given back. -/
def putHost (kind : HostKind) (held : Option ℕ) (h : H) : H :=
  match held with
  | some x => sys.put kind h x
  | none => h

def cudaFree (held : Option ℕ) (d : D) : D :=
  match held with
  | some p => sys.cuda.free d p
  | none => d

/-- The mapped pages of the output projection are unregistered. -/
def unmapOutput (m : MapState H) : MapState H :=
  match m.mappedOutput with
  | none => m
  | some (base, _) =>
      { host := sys.put .registration m.host base
        region := clearMappedWeightRegion m.region base
        mappedOutput := none }

/-- The mapping of the file; it is unregistered where its device pointer is known. -/
def unmapBlob (blob : Option ℕ) (m : MapState H) : MapState H :=
  match blob with
  | none => m
  | some blob =>
      let h :=
        if (resolveMappedWeightDevicePtr m.region blob).isSome then
          sys.put .registration m.host blob
        else m.host
      { m with host := sys.put .mapping h blob, region := clearMappedWeightRegion m.region blob }

/-- `Engine::unload`. No CUDA graph is ever captured. -/
def unload (s : LoadState D H) : LoadState D H :=
  let h := putHost sys .hostLogits s.hostLogits (putHost sys .stream s.stream s.host)
  let h := putHost sys .overflowPool s.buffers.cpuPool h
  let d := s.owned.foldl sys.cuda.free s.device
  let d := cudaFree sys s.buffers.kvScales (cudaFree sys s.buffers.gpuPool d)
  let d := cudaFree sys s.scratchBase d
  let m := unmapBlob sys s.blob (unmapOutput sys { s.toMapState with host := h })
  { s with
    toMapState := { m with host := putHost sys .layers s.layers m.host }
    owned := []
    device := d
    blob := none
    layers := none
    buffers := {}
    scratchBase := none
    stream := none
    hostLogits := none
    loaded := false }

end

end JLLM
