import ReflexLlm.Lib.ByteMem

/-! The KV cache pool of `src/memory/kv_cache.cpp`: sizes, the pointers into the
fast and overflow pools, eviction, and the gather and scatter used by the
persistent cache. Sizes and positions are naturals; `Config.IsInt` and the
pool's own fields record what the C types and a successful `init` guarantee. -/

namespace JLLM

open ByteMem

/-- The allocations a pool pointer can point into. -/
inductive Block where
  | gpuPool
  | cpuPool
  | kvScales
deriving DecidableEq, Repr

/-- A pointer is an allocation and an offset in it: bytes in the two pools,
floats in the scale storage. -/
structure Ptr where
  block : Block
  off : ℕ
deriving DecidableEq, Repr

/-- Pointer arithmetic stays in its allocation. -/
def Ptr.add (p : Ptr) (n : ℕ) : Ptr := { p with off := p.off + n }

/-- `KVCachePool::Config`. -/
structure Config where
  nLayers : ℕ
  nKvHeads : ℕ
  headDim : ℕ
  maxContext : ℕ
  overflowContext : ℕ
  kvTypeBytes : ℕ
deriving DecidableEq, Repr

namespace Config

/-- Every field is a C `int`. -/
def IsInt (c : Config) : Prop :=
  c.nLayers < 2 ^ 31 ∧ c.nKvHeads < 2 ^ 31 ∧ c.headDim < 2 ^ 31 ∧ c.maxContext < 2 ^ 31 ∧
    c.overflowContext < 2 ^ 31 ∧ c.kvTypeBytes < 2 ^ 31

instance (c : Config) : Decidable c.IsInt :=
  inferInstanceAs (Decidable (c.nLayers < 2 ^ 31 ∧ c.nKvHeads < 2 ^ 31 ∧ c.headDim < 2 ^ 31 ∧
    c.maxContext < 2 ^ 31 ∧ c.overflowContext < 2 ^ 31 ∧ c.kvTypeBytes < 2 ^ 31))

def entryBytes (c : Config) : ℕ := 2 * c.nKvHeads * c.headDim * c.kvTypeBytes

def gpuPoolBytes (c : Config) : ℕ := c.nLayers * c.entryBytes * c.maxContext

def overflowBytes (c : Config) : ℕ := c.nLayers * c.entryBytes * c.overflowContext

/-- Bytes of one key row or of one value row: half an entry. -/
def rowBytes (c : Config) : ℕ := c.nKvHeads * c.headDim * c.kvTypeBytes

def maxTokens (c : Config) : ℕ := c.maxContext + c.overflowContext

end Config

/-- A pool after a successful `init`. `cpuPool` and `kvScales` are null when
absent; a scale cell is kept as the bits of its float. -/
structure KVCachePool where
  cfg : Config
  gpuPool : Mem
  cpuPool : Option Mem
  kvScales : Option (ℕ → UInt32)
  usedTokens : ℕ
  gpuTokens : ℤ
  cfg_isInt : cfg.IsInt
  gpu_fits : cfg.gpuPoolBytes < 2 ^ 63
  overflow_backed : 0 < cfg.overflowContext → 0 < cfg.overflowBytes → cpuPool.isSome
  overflow_sized : cpuPool.isSome → 0 < cfg.overflowBytes
  scales_int8 : kvScales.isSome → cfg.kvTypeBytes = 1

/-- Which of `init`'s allocations succeed. -/
structure AllocOutcome where
  cudaMallocFast : Bool
  cudaMemsetFast : Bool
  mallocOverflow : Bool
  cudaMallocScales : Bool

namespace KVCachePool

/-- `init`: `none` when it returns false. A failed overflow allocation disables
the overflow pool, a failed scale allocation only leaves the pointer null. -/
def init (cfg : Config) (hInt : cfg.IsInt) (a : AllocOutcome) : Option KVCachePool :=
  if hFits : cfg.gpuPoolBytes < 2 ^ 63 then
    if a.cudaMallocFast && a.cudaMemsetFast then
      let scales : Option (ℕ → UInt32) :=
        if cfg.kvTypeBytes = 1 ∧ a.cudaMallocScales = true then some fun _ => 0 else none
      have hScales : scales.isSome → cfg.kvTypeBytes = 1 := by
        intro h
        by_contra hne
        simp [scales, hne] at h
      if hOver : 0 < cfg.overflowContext ∧ 0 < cfg.overflowBytes then
        if a.mallocOverflow then
          some { cfg := cfg, gpuPool := fun _ => 0, cpuPool := some fun _ => 0, kvScales := scales,
                 usedTokens := 0, gpuTokens := 0, cfg_isInt := hInt, gpu_fits := hFits,
                 overflow_backed := fun _ _ => rfl, overflow_sized := fun _ => hOver.2,
                 scales_int8 := hScales }
        else
          some { cfg := { cfg with overflowContext := 0 }, gpuPool := fun _ => 0, cpuPool := none,
                 kvScales := scales, usedTokens := 0, gpuTokens := 0,
                 cfg_isInt := ⟨hInt.1, hInt.2.1, hInt.2.2.1, hInt.2.2.2.1, by simp, hInt.2.2.2.2.2⟩,
                 gpu_fits := hFits, overflow_backed := fun h => absurd h (by simp),
                 overflow_sized := fun h => absurd h (by simp), scales_int8 := hScales }
      else
        some { cfg := cfg, gpuPool := fun _ => 0, cpuPool := none, kvScales := scales,
               usedTokens := 0, gpuTokens := 0, cfg_isInt := hInt, gpu_fits := hFits,
               overflow_backed := fun h h' => absurd ⟨h, h'⟩ hOver,
               overflow_sized := fun h => absurd h (by simp), scales_int8 := hScales }
    else none
  else none

/-- `init` as its allocators see it: whether it returns true, and the blocks that are
allocated then. -/
def initBlocks (cfg : Config) (a : AllocOutcome) : StateM (List Block) Bool := do
  if !(decide (cfg.gpuPoolBytes < 2 ^ 63) && a.cudaMallocFast) then
    return false
  modify (.gpuPool :: ·)
  if !a.cudaMemsetFast then
    modify (·.erase .gpuPool)
    return false
  if 0 < cfg.overflowContext ∧ 0 < cfg.overflowBytes then
    if a.mallocOverflow then
      modify (.cpuPool :: ·)
  if cfg.kvTypeBytes = 1 then
    if a.cudaMallocScales then
      modify (.kvScales :: ·)
  return true

def isFastPosition (p : KVCachePool) (pos : ℕ) : Bool := pos < p.cfg.maxContext

def maxTokens (p : KVCachePool) : ℕ := p.cfg.maxTokens

def keyPtr (p : KVCachePool) (layer pos : ℕ) : Ptr :=
  let eb := p.cfg.entryBytes / 2
  if pos < p.cfg.maxContext then
    let layerStride := p.cfg.maxContext * p.cfg.entryBytes
    ⟨.gpuPool, layer * layerStride + pos * eb⟩
  else
    let overflowPos := pos - p.cfg.maxContext
    let layerStride := p.cfg.overflowContext * p.cfg.entryBytes
    ⟨.cpuPool, layer * layerStride + overflowPos * eb⟩

def valPtr (p : KVCachePool) (layer pos : ℕ) : Ptr :=
  let eb := p.cfg.entryBytes / 2
  if pos < p.cfg.maxContext then
    let layerStride := p.cfg.maxContext * p.cfg.entryBytes
    let keyOffset := p.cfg.maxContext * eb
    ⟨.gpuPool, layer * layerStride + keyOffset + pos * eb⟩
  else
    let overflowPos := pos - p.cfg.maxContext
    let layerStride := p.cfg.overflowContext * p.cfg.entryBytes
    let keyOffset := p.cfg.overflowContext * eb
    ⟨.cpuPool, layer * layerStride + keyOffset + overflowPos * eb⟩

/-- `kv_scale_ptr`, an offset in floats; `none` is `nullptr`. -/
def kvScalePtr (p : KVCachePool) (layer pos : ℕ) (isValue : Bool) : Option Ptr :=
  if p.kvScales.isNone then none
  else if p.cfg.kvTypeBytes ≠ 1 then none
  else if p.cfg.nLayers ≤ layer then none
  else if p.cfg.maxContext ≤ pos then none
  else
    let perKvRegion := p.cfg.maxContext * p.cfg.nKvHeads
    let perLayer := 2 * perKvRegion
    let perPos := p.cfg.nKvHeads
    some ⟨.kvScales, layer * perLayer + (if isValue then perKvRegion else 0) + pos * perPos⟩

def kvScalesBytes (p : KVCachePool) : ℕ :=
  if p.cfg.kvTypeBytes ≠ 1 then 0
  else 2 * p.cfg.nLayers * p.cfg.maxContext * p.cfg.nKvHeads * 4

def usedBytes (p : KVCachePool) : ℕ := p.usedTokens * p.cfg.entryBytes * p.cfg.nLayers

def capacityBytes (p : KVCachePool) : ℕ :=
  (p.cfg.maxContext + p.cfg.overflowContext) * p.cfg.entryBytes * p.cfg.nLayers

def packedUsedBytes (p : KVCachePool) (usedTokens : ℕ) : ℕ :=
  if usedTokens = 0 then 0 else p.cfg.nLayers * usedTokens * p.cfg.entryBytes

/-- Store bytes through a pool pointer. -/
def store (p : KVCachePool) (ptr : Ptr) (bytes : List UInt8) : KVCachePool :=
  match ptr.block with
  | .gpuPool => { p with gpuPool := p.gpuPool.write ptr.off bytes }
  | .cpuPool =>
      { p with
        cpuPool := p.cpuPool.map fun m => m.write ptr.off bytes
        overflow_backed := fun h h' => by simpa using p.overflow_backed h h'
        overflow_sized := fun h => p.overflow_sized (by simpa using h) }
  | .kvScales => p

/-- Read bytes through a pool pointer; an absent overflow pool reads as zeros. -/
def load (p : KVCachePool) (ptr : Ptr) (len : ℕ) : List UInt8 :=
  match ptr.block with
  | .gpuPool => p.gpuPool.read ptr.off len
  | .cpuPool => (p.cpuPool.getD fun _ => 0).read ptr.off len
  | .kvScales => List.replicate len 0

/-- Store floats through a scale pointer. -/
def storeScales (p : KVCachePool) (ptr : Ptr) (cells : List UInt32) : KVCachePool :=
  { p with
    kvScales := p.kvScales.map fun m i =>
      if ptr.off ≤ i ∧ i < ptr.off + cells.length then cells.getD (i - ptr.off) 0 else m i
    scales_int8 := fun h => p.scales_int8 (by simpa using h) }

/-- Read floats through a scale pointer. -/
def loadScales (p : KVCachePool) (ptr : Ptr) (len : ℕ) : List UInt32 :=
  (List.range len).map fun i => (p.kvScales.getD fun _ => 0) (ptr.off + i)

def clear (p : KVCachePool) : KVCachePool := { p with usedTokens := 0, gpuTokens := 0 }

/-- One layer of `evict`: the copy to the overflow pool, then the shift in the
fast pool. `d2d gpu dst src len` is the device memory after a device-to-device
`cudaMemcpy`, whose result on overlapping ranges CUDA leaves open. -/
def evictLayer (d2d : Mem → ℕ → ℕ → ℕ → Mem) (c : Config) (gpuTokens : ℤ) (n : ℕ)
    (pools : Mem × Mem) (l : ℕ) : Mem × Mem :=
  let eb := c.entryBytes
  let src := l * (c.maxContext * eb)
  let dst := l * (c.overflowContext * eb)
  let cpu := pools.1.copy src pools.2 dst (n * eb)
  let remaining := gpuTokens - n
  let gpu :=
    if 0 < remaining then d2d pools.1 src (src + n * eb) (remaining.toNat * eb) else pools.1
  (gpu, cpu)

/-- `evict`; a non-positive argument is `0` here. -/
def evict (d2d : Mem → ℕ → ℕ → ℕ → Mem) (p : KVCachePool) (n : ℕ) : KVCachePool :=
  match hcpu : p.cpuPool with
  | none => p
  | some cpu =>
      if n = 0 then p
      else
        let pools := (List.range p.cfg.nLayers).foldl (evictLayer d2d p.cfg p.gpuTokens n)
          (p.gpuPool, cpu)
        { p with
          gpuPool := pools.1
          cpuPool := some pools.2
          gpuTokens := p.gpuTokens - n
          overflow_backed := fun _ _ => rfl
          overflow_sized := fun _ => p.overflow_sized (by rw [hcpu]; rfl) }

/-- CUDA calls in program order, stopping at the first one that fails; call `i`
succeeds when `cuda i`. -/
def runCuda (cuda : ℕ → Bool) : ℕ → List (Mem → Mem) → Mem → Bool × Mem
  | _, [], m => (true, m)
  | i, call :: calls, m => if cuda i then runCuda cuda (i + 1) calls (call m) else (false, m)

/-- The two copies of one layer of `gather_used_to_host`. -/
def gatherLayer (c : Config) (gpu : Mem) (usedTokens l : ℕ) : List (Mem → Mem) :=
  let eb := c.entryBytes
  let halfEb := eb / 2
  let layerInStride := c.maxContext * eb
  let layerOutStride := usedTokens * eb
  let keyUsedBytes := usedTokens * halfEb
  let srcKeys := l * layerInStride
  let srcVals := srcKeys + c.maxContext * halfEb
  let dstKeys := l * layerOutStride
  let dstVals := dstKeys + keyUsedBytes
  [fun dst => gpu.copy srcKeys dst dstKeys keyUsedBytes,
   fun dst => gpu.copy srcVals dst dstVals keyUsedBytes]

/-- `gather_used_to_host`: its result and the host buffer. -/
def gatherUsedToHost (cuda : ℕ → Bool) (p : KVCachePool) (dst : Mem) (usedTokens : ℕ) :
    Bool × Mem :=
  if usedTokens = 0 then (false, dst)
  else if p.cfg.maxContext < usedTokens then (false, dst)
  else
    runCuda cuda 0 ((List.range p.cfg.nLayers).flatMap (gatherLayer p.cfg p.gpuPool usedTokens)) dst

/-- The copies of one layer of `scatter_from_host`, and the fills that zero the
rest of the layer. -/
def scatterLayer (c : Config) (src : Mem) (usedTokens : ℕ) (zeroRemaining : Bool) (l : ℕ) :
    List (Mem → Mem) :=
  let eb := c.entryBytes
  let halfEb := eb / 2
  let layerOutStride := c.maxContext * eb
  let layerInStride := usedTokens * eb
  let keyUsedBytes := usedTokens * halfEb
  let keyUnusedBytes := (c.maxContext - usedTokens) * halfEb
  let dstKeys := l * layerOutStride
  let dstVals := dstKeys + c.maxContext * halfEb
  let srcKeys := l * layerInStride
  let srcVals := srcKeys + keyUsedBytes
  [fun gpu => src.copy srcKeys gpu dstKeys keyUsedBytes,
   fun gpu => src.copy srcVals gpu dstVals keyUsedBytes] ++
    if zeroRemaining && decide (0 < keyUnusedBytes) then
      [fun gpu => gpu.fill (dstKeys + keyUsedBytes) keyUnusedBytes 0,
       fun gpu => gpu.fill (dstVals + keyUsedBytes) keyUnusedBytes 0]
    else []

/-- `scatter_from_host`: on a CUDA failure the layers already written stay. -/
def scatterFromHost (cuda : ℕ → Bool) (p : KVCachePool) (src : Mem) (usedTokens : ℕ)
    (zeroRemaining : Bool) : Bool × KVCachePool :=
  if usedTokens = 0 then (false, p)
  else if p.cfg.maxContext < usedTokens then (false, p)
  else
    let result := runCuda cuda 0
      ((List.range p.cfg.nLayers).flatMap (scatterLayer p.cfg src usedTokens zeroRemaining)) p.gpuPool
    if result.1 then
      (true, { p with gpuPool := result.2, usedTokens := usedTokens, gpuTokens := usedTokens })
    else (false, { p with gpuPool := result.2 })

end KVCachePool

end JLLM
