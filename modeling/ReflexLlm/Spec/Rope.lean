import Mathlib.Algebra.Field.Defs
import ReflexLlm.Lib.Launch

/-! The rotation kernels of `src/kernels/rope.cu`, in place and with the store into the KV
cache, thread by thread; the transformer's model has each launch as one step. The conversions
and the functions of the float library are arguments, and so are the operations on `float`.
Sizes are far from the bounds of `int`. -/

namespace JLLM.Rope

open Launch

/-- The arrays of the kernels; by their `__restrict__` none overlaps another. -/
inductive RopeArray
  | q
  | k
  | v
  | kCacheDst
  | vCacheDst
deriving DecidableEq

/-- The functions on `half` and `float` that the kernels call. -/
structure RopeMath (H F : Type) where
  half2float : H → F
  float2half : F → H
  powf : F → F → F
  cosf : F → F
  sinf : F → F

/-- `BLOCK_SIZE`. -/
def blockSize : ℕ := 128

/-- What a thread number is decoded to. -/
structure RopePair where
  isQ : Bool
  head : ℕ
  pairIdx : ℕ

def ropePair (nHeads halfDim tid : ℕ) : RopePair :=
  let qPairs := nHeads * halfDim
  if tid < qPairs then ⟨true, tid / halfDim, tid % halfDim⟩
  else
    let kTid := tid - qPairs
    ⟨false, kTid / halfDim, kTid % halfDim⟩

/-- The array that `ptr` points into. -/
def RopePair.array (p : RopePair) : RopeArray := if p.isQ then .q else .k

/-- Where `ptr[idx0]` is in its array. -/
def RopePair.idx0 (p : RopePair) (neox : Bool) (headDim : ℕ) : ℕ :=
  p.head * headDim + if neox then p.pairIdx else p.pairIdx * 2

/-- Where `ptr[idx1]` is in its array. -/
def RopePair.idx1 (p : RopePair) (neox : Bool) (headDim : ℕ) : ℕ :=
  p.head * headDim + if neox then p.pairIdx + headDim / 2 else p.pairIdx * 2 + 1

section

variable {H F : Type} [NatCast F] [Add F] [Sub F] [Mul F] [Div F] (math : RopeMath H F)
variable (nHeads nKvHeads headDim position : ℕ) (thetaBase : F) (neox : Bool)

def ropeAngle (pairIdx : ℕ) : F :=
  let freq := ((1 : ℕ) : F) / math.powf thetaBase (((2 : ℕ) : F) * (pairIdx : F) / (headDim : F))
  (position : F) * freq

/-- The rotated pair. -/
def ropeRotate (pairIdx : ℕ) (h0 h1 : H) : H × H :=
  let angle := ropeAngle math headDim position thetaBase pairIdx
  let cosVal := math.cosf angle
  let sinVal := math.sinf angle
  let v0 := math.half2float h0
  let v1 := math.half2float h1
  (math.float2half (v0 * cosVal - v1 * sinVal), math.float2half (v0 * sinVal + v1 * cosVal))

/-- `rope_kernel`, for one thread. -/
def ropeKernel (tid : ℕ) : Thread (RopeArray × ℕ) H Unit :=
  let halfDim := headDim / 2
  let totalPairs := (nHeads + nKvHeads) * halfDim
  if totalPairs ≤ tid then pure ()
  else do
    let p := ropePair nHeads halfDim tid
    let h0 ← Thread.read (p.array, p.idx0 neox headDim)
    let h1 ← Thread.read (p.array, p.idx1 neox headDim)
    let r := ropeRotate math headDim position thetaBase p.pairIdx h0 h1
    Thread.write (p.array, p.idx0 neox headDim) r.1
    Thread.write (p.array, p.idx1 neox headDim) r.2

/-- The first half of `rope_store_kv_fp16_kernel`: the pair of the thread. -/
def ropeStorePair (tid : ℕ) : Thread (RopeArray × ℕ) H Unit :=
  let halfDim := headDim / 2
  let totalPairs := (nHeads + nKvHeads) * halfDim
  if tid < totalPairs then do
    let p := ropePair nHeads halfDim tid
    let h0 ← Thread.read (p.array, p.idx0 neox headDim)
    let h1 ← Thread.read (p.array, p.idx1 neox headDim)
    let r := ropeRotate math headDim position thetaBase p.pairIdx h0 h1
    Thread.write (p.array, p.idx0 neox headDim) r.1
    Thread.write (p.array, p.idx1 neox headDim) r.2
    if p.isQ then pure ()
    else do
      Thread.write (.kCacheDst, p.idx0 neox headDim) r.1
      Thread.write (.kCacheDst, p.idx1 neox headDim) r.2
  else pure ()

/-- The second half: one element of `v`. -/
def storeV (tid : ℕ) : Thread (RopeArray × ℕ) H Unit :=
  let kvDim := nKvHeads * headDim
  if tid < kvDim then do
    let x ← Thread.read (.v, tid)
    Thread.write (.vCacheDst, tid) x
  else pure ()

/-- `rope_store_kv_fp16_kernel`, for one thread. -/
def ropeStoreKvFp16Kernel (tid : ℕ) : Thread (RopeArray × ℕ) H Unit := do
  ropeStorePair math nHeads nKvHeads headDim position thetaBase neox tid
  storeV nKvHeads headDim tid

/-- `rope_inplace`: the threads that it launches. -/
def ropeInplace : ℕ × ℕ → Thread (RopeArray × ℕ) H Unit :=
  let totalPairs := (nHeads + nKvHeads) * (headDim / 2)
  grid ((totalPairs + blockSize - 1) / blockSize) blockSize
    (ropeKernel math nHeads nKvHeads headDim position thetaBase neox)

/-- `rope_inplace_store_kv_fp16`: the threads that it launches. -/
def ropeInplaceStoreKvFp16 : ℕ × ℕ → Thread (RopeArray × ℕ) H Unit :=
  let totalPairs := (nHeads + nKvHeads) * (headDim / 2)
  let kvDim := nKvHeads * headDim
  let total := if totalPairs > kvDim then totalPairs else kvDim
  grid ((total + blockSize - 1) / blockSize) blockSize
    (ropeStoreKvFp16Kernel math nHeads nKvHeads headDim position thetaBase neox)

/-- The copies of `transformer_prefill` after `rope_inplace`: `kvDim` elements of `k` and `v`. -/
def copyKv {V : Type} (mem : RopeArray × ℕ → V) : RopeArray × ℕ → V
  | (.kCacheDst, i) => if i < nKvHeads * headDim then mem (.k, i) else mem (.kCacheDst, i)
  | (.vCacheDst, i) => if i < nKvHeads * headDim then mem (.v, i) else mem (.vCacheDst, i)
  | loc => mem loc

end

end JLLM.Rope
