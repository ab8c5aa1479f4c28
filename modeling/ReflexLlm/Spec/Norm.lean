import Mathlib.Algebra.Field.Defs
import ReflexLlm.Lib.Warps

/-! `fused_rmsnorm_residual` of `src/kernels/fused_norm.cu`: the kernel, thread by thread, and
the path through the CPU. A half is kept as the float of its value, so `__half2float` is not
seen; the other functions of the float library and the operations on `float` are arguments. -/

namespace JLLM.Norm

open BlockMax Launch RaceFree

/-- An element of an array, by its address, or of the `block_partial` of a block. -/
inductive NormPlace
  | half (addr : ℕ)
  | float (addr : ℕ)
  | blockPartial (row slot : ℕ)
deriving DecidableEq

/-- The functions of the float library that are called. -/
structure NormMath (F : Type) where
  float2half : F → F
  rsqrtf : F → F
  sqrtf : F → F

/-- The arguments of a call; `residual` may be null. -/
structure NormCall (F : Type) where
  output : ℕ
  x : ℕ
  residual : Option ℕ
  weight : ℕ
  rows : ℕ
  hiddenDim : ℕ
  eps : F
  weightFp32 : Bool

variable {F : Type} [NatCast F] [Add F] [Mul F] [Div F] (math : NormMath F) (c : NormCall F)

/-- `weight[i]`, of either type. -/
def NormCall.weightPlace (i : ℕ) : NormPlace :=
  if c.weightFp32 then .float (c.weight + i) else .half (c.weight + i)

/-! ### The kernel -/

/-- `val`: an element of `x`, with that of `residual` if there is one. -/
def readVal (i : ℕ) : Thread NormPlace F F := do
  let val ← Thread.read (.half (c.x + i))
  match c.residual with
  | none => pure val
  | some residual => do
    let r ← Thread.read (.half (residual + i))
    pure (val + r)

/-- The first pass of a thread: its part of the sum of squares. -/
def sumSquares (offset : ℕ) (sumSq : F) : List ℕ → Thread NormPlace F F
  | [] => pure sumSq
  | i :: rest => do
    let val ← readVal c (offset + i)
    sumSquares offset (sumSq + val * val) rest

/-- `for (int w = 0; w < n_warps; w++) total += block_partial[w];` -/
def sumPartials (row : ℕ) (total : F) : List ℕ → Thread NormPlace F F
  | [] => pure total
  | w :: rest => do
    let partialSum ← Thread.read (.blockPartial row w)
    sumPartials row (total + partialSum) rest

/-- Thread 0 reduces across the warps and writes the result to slot 0. -/
def reduceWarps (stride row tid : ℕ) : Thread NormPlace F Unit :=
  if tid = 0 then do
    let total ← sumPartials row ((0 : ℕ) : F) (List.range ((stride + 31) / 32))
    Thread.write (.blockPartial row 0) (math.rsqrtf (total / (c.hiddenDim : F) + c.eps))
  else pure ()

/-- The second pass of a thread. -/
def writeRow (offset : ℕ) (rrms : F) : List ℕ → Thread NormPlace F Unit
  | [] => pure ()
  | i :: rest => do
    let val ← readVal c (offset + i)
    let w ← Thread.read (c.weightPlace i)
    Thread.write (.half (c.output + (offset + i))) (math.float2half (val * rrms * w))
    writeRow offset rrms rest

/-- After the second barrier. -/
def normalize (stride row tid : ℕ) : Thread NormPlace F Unit := do
  let rrms ← Thread.read (.blockPartial row 0)
  writeRow math c (row * c.hiddenDim) rrms (strided stride c.hiddenDim c.hiddenDim tid)

/-- `fused_rmsnorm_residual_kernel` up to the first barrier: the sum of squares of each warp. -/
def storePartials (absent : ℕ → ℕ → F) (stride : ℕ) (p : ℕ × ℕ) :
    Prog (ℕ × ℕ) NormPlace F Unit := do
  let sumSq ← .alone (sumSquares c (p.1 * c.hiddenDim) ((0 : ℕ) : F)
    (strided stride c.hiddenDim c.hiddenDim p.2))
  let sumSq ← warpReduce (· + ·) stride absent p [16, 8, 4, 2, 1] sumSq
  .alone (if p.2 % 32 = 0 then Thread.write (.blockPartial p.1 (p.2 / 32)) sumSq else pure ())

/-- `fused_rmsnorm_residual_kernel`, for one thread of a block of `stride`. -/
def fusedRmsnormResidualKernel (absent : ℕ → ℕ → F) (stride : ℕ) (p : ℕ × ℕ) :
    Prog (ℕ × ℕ) NormPlace F Unit :=
  if c.rows ≤ p.1 then .ret ()
  else do
    storePartials c absent stride p
    barrier (block stride p.1)
    .alone (reduceWarps math c stride p.1 p.2)
    barrier (block stride p.1)
    .alone (normalize math c stride p.1 p.2)

/-! ### The CPU path -/

/-- `val` of the CPU path. -/
def hostVal (mem : NormPlace → F) (i : ℕ) : F :=
  match c.residual with
  | none => mem (.half (c.x + i))
  | some residual => mem (.half (c.x + i)) + mem (.half (residual + i))

/-- A row of `h_out`. -/
def hostRow [One F] (mem : NormPlace → F) (row : ℕ) : List F :=
  let off := row * c.hiddenDim
  let sumSq := (List.range c.hiddenDim).foldl
    (fun sum i => sum + hostVal c mem (off + i) * hostVal c mem (off + i)) ((0 : ℕ) : F)
  let rrms := 1 / math.sqrtf (sumSq / (c.hiddenDim : F) + c.eps)
  (List.range c.hiddenDim).map fun i =>
    math.float2half (hostVal c mem (off + i) * rrms * mem (c.weightPlace i))

/-- `h_out`, copied to `output`. -/
def cpuRmsnorm [One F] (mem : NormPlace → F) : NormPlace → F
  | .half addr =>
      let hOut := (List.range c.rows).flatMap (hostRow math c mem)
      if c.output ≤ addr then (hOut[addr - c.output]?).getD (mem (.half addr)) else mem (.half addr)
  | place => mem place

/-! ### The call -/

/-- What a call can leave in memory: the kernel is launched unless it is switched off, and where
the launch fails the CPU does the work. -/
def FusedRmsnormResidual [One F] (fastNormEnabled launched : Bool) (mem mem' : NormPlace → F) :
    Prop :=
  if fastNormEnabled && launched then
    ∃ absent, Settles (launchBlocks c.rows 128 (fusedRmsnormResidualKernel math c absent 128)) mem mem'
  else mem' = cpuRmsnorm math c mem

end JLLM.Norm
