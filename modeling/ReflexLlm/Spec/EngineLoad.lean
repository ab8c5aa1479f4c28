import Mathlib.Algebra.Order.Ring.Nat
import Mathlib.Algebra.Order.Ring.Int
import ReflexLlm.Spec.GgufConfig
import ReflexLlm.Spec.KvCache

/-! The part of `Engine::load` in `src/engine/decode.cu` that divides the memory: the
context from the budget of `jllm_memory.h`, the KV pool, the scratch pool. Signed overflow
in a product of dimensions is undefined, so such a product is partial. -/

namespace JLLM

/-- `MemoryBudget`, in megabytes. What the engine records there is a size. -/
structure MemoryBudget where
  totalMb : ℤ
  osMb : ℤ
  cmaMb : ℤ
  cudaCtxMb : ℤ
  modelMb : ℤ
  kvCacheMb : ℤ
  scratchMb : ℤ
  safetyMb : ℤ
  kvCache_nonneg : 0 ≤ kvCacheMb
  scratch_nonneg : 0 ≤ scratchMb

/-- A product of type `int`. -/
def mul32 (a b : ℤ) : Option ℤ :=
  if -0x80000000 ≤ a * b ∧ a * b < 0x80000000 then some (a * b) else none

/-- A product of type `int64_t`. -/
def mul64 (a b : ℤ) : Option ℤ :=
  if -0x8000000000000000 ≤ a * b ∧ a * b < 0x8000000000000000 then some (a * b) else none

/-- A product of `int64_t` factors, from left to right. -/
def product64 (factors : List ℤ) : Option ℤ := factors.foldlM mul64 1

/-- `static_cast<int>` of an `int64_t`. -/
def castInt (x : ℤ) : ℤ := x.bmod 0x100000000

namespace MemoryBudget

def usedMb (b : MemoryBudget) : ℤ :=
  b.osMb + b.cmaMb + b.cudaCtxMb + b.modelMb + b.kvCacheMb + b.scratchMb

def freeMb (b : MemoryBudget) : ℤ := b.totalMb - b.usedMb - b.safetyMb

def maxKvMb (b : MemoryBudget) : ℤ :=
  b.totalMb - b.osMb - b.cmaMb - b.cudaCtxMb - b.modelMb - b.scratchMb - b.safetyMb

def maxContext (b : MemoryBudget) (nLayers nKvHeads headDim kvBytes : ℤ) : Option ℤ :=
  (product64 [2, nLayers, nKvHeads, headDim, kvBytes]).bind fun bytesPerToken =>
    if bytesPerToken = 0 then some 0
    else
      (product64 [b.maxKvMb, 1024, 1024]).map fun bytes => castInt (bytes.tdiv bytesPerToken)

/-- The budget with the two pools recorded, in bytes here. -/
def record (b : MemoryBudget) (kvCache scratch : ℕ) : MemoryBudget :=
  { b with
    kvCacheMb := (kvCache / (1024 * 1024) : ℕ)
    scratchMb := (scratch / (1024 * 1024) : ℕ)
    kvCache_nonneg := Int.natCast_nonneg _
    scratch_nonneg := Int.natCast_nonneg _ }

end MemoryBudget

/-- The fields of `GenParams` that `load` reads. -/
structure LoadParams where
  kvInt8 : Bool
  contextLimit : Int32

/-- `atoi`: `strtol` in base 10, which saturates, cut to an `int`. -/
def atoi (s : List UInt8) : ℤ :=
  let s := s.dropWhile fun c => c = 0x20 || (0x09 ≤ c && c ≤ 0x0D)
  let digits (s : List UInt8) : ℕ :=
    (s.takeWhile fun c => 0x30 ≤ c && c ≤ 0x39).foldl (fun n c => n * 10 + (c.toNat - 0x30)) 0
  match s with
  | 0x2D :: s => castInt (max (-0x8000000000000000) (-digits s))
  | 0x2B :: s => castInt (min 0x7FFFFFFFFFFFFFFF (digits s))
  | s => castInt (min 0x7FFFFFFFFFFFFFFF (digits s))

/-- `kv_overflow_context`; `env` is `getenv("JLLM_KV_OVERFLOW")`. -/
def kvOverflowContext (env : Option (List UInt8)) (ctx : ℤ) : ℤ :=
  match env with
  | none => 0
  | some v =>
      if v = [0x30] then 0
      else if v = [0x31] then ctx.tdiv 4
      else
        let requested := atoi v
        if requested < 0 then 0 else requested

/-- The bytes behind the pointers of a pool. -/
def KVCachePool.allocatedBytes (kv : KVCachePool) : ℕ :=
  kv.cfg.gpuPoolBytes + (if kv.cpuPool.isSome then kv.cfg.overflowBytes else 0) +
    (if kv.kvScales.isSome then kv.kvScalesBytes else 0)

namespace EngineLoad

def kvBytes (p : LoadParams) : ℕ := if p.kvInt8 then 1 else 2

/-- The context of the pool, from the one that `max_context` returns. -/
def loadContext (c : ModelConfig) (p : LoadParams) (autoCtx : ℤ) : ℤ :=
  let defaultAutoContextCap : ℤ := if 128 ≤ c.headDim.toInt then 4096 else 8192
  if 0 < p.contextLimit.toInt then
    let requested := min p.contextLimit.toInt c.maxSeqLen.toInt
    min requested autoCtx
  else min (min autoCtx c.maxSeqLen.toInt) defaultAutoContextCap

/-- `kv_cfg`, for a context that is not negative. -/
def kvConfig (c : ModelConfig) (p : LoadParams) (env : Option (List UInt8)) (ctx : ℤ) : Config where
  nLayers := c.nLayers.toInt.toNat
  nKvHeads := c.nKvHeads.toInt.toNat
  headDim := c.headDim.toInt.toNat
  maxContext := ctx.toNat
  overflowContext := (kvOverflowContext env ctx).toNat
  kvTypeBytes := kvBytes p

theorem castInt_lt (x : ℤ) : castInt x < 0x80000000 := Int.bmod_lt (by decide)

theorem kvOverflowContext_lt (env : Option (List UInt8)) {ctx : ℤ} (h : ctx < 0x80000000) :
    kvOverflowContext env ctx < 0x80000000 := by
  have hatoi : ∀ s, atoi s < 0x80000000 := by
    intro s
    unfold atoi
    simp only
    split <;> exact castInt_lt _
  have hquarter : ctx.tdiv 4 < 0x80000000 :=
    lt_of_le_of_lt (Int.tdiv_le_tdiv (by decide) (Int.le_sub_one_of_lt h)) (by decide)
  unfold kvOverflowContext
  split
  · decide
  · simp only
    split_ifs
    · decide
    · exact hquarter
    · decide
    · exact hatoi _

theorem loadContext_lt (c : ModelConfig) (p : LoadParams) (autoCtx : ℤ) :
    loadContext c p autoCtx < 0x80000000 := by
  have hmax : c.maxSeqLen.toInt < 0x80000000 := c.maxSeqLen.toInt_lt
  unfold loadContext
  simp only
  split_ifs
  all_goals omega

theorem kvConfig_isInt (c : ModelConfig) (p : LoadParams) (env : Option (List UInt8))
    (autoCtx : ℤ) : (kvConfig c p env (loadContext c p autoCtx)).IsInt := by
  have hctx := loadContext_lt c p autoCtx
  have hover := kvOverflowContext_lt env hctx
  have hL : c.nLayers.toInt < 0x80000000 := c.nLayers.toInt_lt
  have hKV : c.nKvHeads.toInt < 0x80000000 := c.nKvHeads.toInt_lt
  have hHD : c.headDim.toInt < 0x80000000 := c.headDim.toInt_lt
  have hbytes : kvBytes p < 2 ^ 31 := by
    unfold kvBytes
    split_ifs <;> decide
  exact ⟨by simp only [kvConfig]; omega, by simp only [kvConfig]; omega,
    by simp only [kvConfig]; omega, by simp only [kvConfig]; omega,
    by simp only [kvConfig]; omega, hbytes⟩

/-- `scratch_bytes`. The two products are of type `int`, the sum wraps to itself. -/
def scratchBytes (c : ModelConfig) : Option ℕ :=
  (mul32 c.nHeads.toInt c.headDim.toInt).bind fun qDim =>
    (mul32 c.nKvHeads.toInt c.headDim.toInt).map fun kvDim =>
      let bytes := c.hiddenDim.toInt * 2 * 8 + qDim * 2 * 2 + kvDim * 2 * 2 +
        c.intermediateDim.toInt * 2 * 4 + c.vocabSize.toInt * 4
      ((max bytes (64 * 1024 * 1024)).toNat + 4095) / 4096 * 4096

/-- How `load` leaves this part. -/
inductive Outcome where
  /-- After a signed overflow. -/
  | undefined
  | returnedFalse
  | allocated (kv : KVCachePool) (scratch : ℕ) (budget : MemoryBudget)

/-- `Engine::load` from `max_context` to the scratch pool. A negative context asks
`cudaMalloc` for more bytes than there are addresses. -/
def loadPools (b : MemoryBudget) (c : ModelConfig) (p : LoadParams) (env : Option (List UInt8))
    (a : AllocOutcome) (cudaMallocScratch : Bool) : Outcome :=
  match b.maxContext c.nLayers.toInt c.nKvHeads.toInt c.headDim.toInt (kvBytes p) with
  | none => .undefined
  | some autoCtx =>
      if loadContext c p autoCtx < 0 then .returnedFalse
      else
        match KVCachePool.init (kvConfig c p env (loadContext c p autoCtx))
            (kvConfig_isInt c p env autoCtx) a with
        | none => .returnedFalse
        | some kv =>
            match scratchBytes c with
            | none => .undefined
            | some scratch =>
                if cudaMallocScratch then
                  .allocated kv scratch (b.record kv.capacityBytes scratch)
                else .returnedFalse

/-- The pools fit the megabytes that `max_kv_mb` left for them, and `free_mb` shows it. -/
def WithinBudget (b : MemoryBudget) : Outcome → Prop
  | .undefined => False
  | .returnedFalse => True
  | .allocated kv scratch recorded =>
      ((kv.allocatedBytes + scratch : ℕ) : ℤ) ≤ b.maxKvMb * (1024 * 1024) ∧ 0 ≤ recorded.freeMb

end EngineLoad

end JLLM
