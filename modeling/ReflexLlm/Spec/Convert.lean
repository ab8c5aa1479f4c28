import Mathlib.Data.Rat.Floor
import ReflexLlm.Lib.BlockMax
import ReflexLlm.Lib.Launch

/-! `fp16_to_int8` of `src/kernels/convert.cu` in exact arithmetic. Up to the second
`__syncthreads` a block only makes `row_max`; after it the threads store. `absent row off tid`
is what `__shfl_xor_sync` returns where the lane it names is not run by the block. -/

namespace JLLM.Convert

open BlockMax Launch

/-- `__float2int_rn`: to the nearest integer, ties to the even one. -/
def float2intRn (x : ℚ) : ℤ :=
  if x - ⌊x⌋ < 1 / 2 then ⌊x⌋
  else if 1 / 2 < x - ⌊x⌋ then ⌊x⌋ + 1
  else if ⌊x⌋ % 2 = 0 then ⌊x⌋
  else ⌊x⌋ + 1

/-- The two arrays that the kernel writes. -/
inductive Int8Array
  | dst
  | scaleOut
deriving DecidableEq

/-- An element of one of them. -/
inductive Int8Cell
  | int8 (q : Int8)
  | float (x : ℚ)

section

variable (src : ℕ → ℚ) (rows cols threads : ℕ)

/-- The first pass of a thread over its columns. -/
def localMax (offset tid : ℕ) : ℚ :=
  (strided threads cols cols tid).foldl (fun m c => max m |src (offset + c)|) 0

/-- The warp reduction, for all threads. -/
def warpReduce (absent : ℕ → ℕ → ℚ) (localMax : ℕ → ℚ) : ℕ → ℚ :=
  [16, 8, 4, 2, 1].foldl (fun val off => shuffleMax 5 threads absent off val) localMax

/-- `row_max` at the second barrier; `order` is that of the threads at the `atomicMax`. -/
def rowMax (absent : ℕ → ℕ → ℚ) (order : List ℕ) (row : ℕ) : ℚ :=
  let offset := row * cols
  atomicMaxes 5 (warpReduce threads absent (localMax src cols threads offset)) order 0

def invScale (rowMax : ℚ) : ℚ :=
  let scale := rowMax / 127
  if scale > 0 then 127 / rowMax else 0

/-- Before the clamp. -/
def quantize (rowMax val : ℚ) : ℤ := float2intRn (val * invScale rowMax)

/-- The store of the scale, when there is where to store it. -/
def storeScale (scaleOut : Bool) (rowMax : ℚ) (row tid : ℕ) :
    Thread (Int8Array × ℕ) Int8Cell Unit :=
  if tid = 0 ∧ scaleOut = true then Thread.write (.scaleOut, row) (.float (rowMax / 127)) else pure ()

/-- The second pass. -/
def storeColumns (rowMax : ℚ) (row tid : ℕ) : Thread (Int8Array × ℕ) Int8Cell Unit :=
  let offset := row * cols
  forM (strided threads cols cols tid) fun c =>
    Thread.write (.dst, offset + c)
      (.int8 (Int8.ofInt (max (-127) (min 127 (quantize rowMax (src (offset + c)))))))

/-- `fp16_to_int8_kernel` after the second barrier, for one thread. -/
def fp16ToInt8Kernel (scaleOut : Bool) (rowMax : ℕ → ℚ) (row tid : ℕ) :
    Thread (Int8Array × ℕ) Int8Cell Unit :=
  if rows ≤ row then pure ()
  else do
    storeScale scaleOut (rowMax row) row tid
    storeColumns src cols threads (rowMax row) row tid

/-- `fp16_to_int8`: a block for each row. The launch has 128 threads a block. -/
def fp16ToInt8 (scaleOut : Bool) (absent : ℕ → ℕ → ℕ → ℚ) (order : ℕ → List ℕ) :
    ℕ × ℕ → Thread (Int8Array × ℕ) Int8Cell Unit :=
  launch rows threads (fp16ToInt8Kernel src rows cols threads scaleOut fun row =>
    rowMax src cols threads (absent row) (order row) row)

end

end JLLM.Convert
