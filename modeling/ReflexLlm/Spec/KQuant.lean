import Mathlib.Algebra.Ring.Defs
import ReflexLlm.Lib.WriteLog

/-! The row decoders for quantised embeddings of `src/engine/decode.cu`. A table is what can
be read behind its pointer; a decoder gives the elements of `out` that it writes, in their
order. Numbers are of any type with the operations used, and `fp16_to_float` is an argument. -/

namespace JLLM

open WriteLog (forRange)

/-- A `uint16_t` in memory. -/
def readU16 (blk : ℕ → Option UInt8) (off : ℕ) : Option UInt16 := do
  let lo ← blk off
  let hi ← blk (off + 1)
  return lo.toUInt16 ||| (hi.toUInt16 <<< 8)

/-- `get_scale_min_k4_cpu`: `d` and `m`. -/
def getScaleMinK4Cpu (j : ℕ) (q : ℕ → Option UInt8) : Option (UInt8 × UInt8) :=
  if j < 4 then do
    let d ← q j
    let m ← q (j + 4)
    return (d &&& (63 : UInt8), m &&& (63 : UInt8))
  else do
    let low ← q (j + 4)
    let highD ← q (j - 4)
    let highM ← q (j - 0)
    return ((low &&& (0xF : UInt8)) ||| ((highD >>> (6 : UInt8)) <<< (4 : UInt8)),
      (low >>> (4 : UInt8)) ||| ((highM >>> (6 : UInt8)) <<< (4 : UInt8)))

section

variable {F : Type} [Mul F] [Sub F] [IntCast F] (fp16ToFloat : UInt16 → F)

/-- One block of `embd_block_q4_K`: `d_raw`, `dmin_raw`, `scales[12]`, `qs[128]`. -/
def dequantQ4kBlock (blk : ℕ → Option UInt8) (b : ℕ) : Option (List (ℕ × F)) := do
  let dall ← (readU16 blk 0).map fp16ToFloat
  let dmin ← (readU16 blk 2).map fp16ToFloat
  let scales := fun k => blk (4 + k)
  let qs := fun k => blk (16 + k)
  forRange 4 fun il => do
    let is := 2 * il
    let s1 ← getScaleMinK4Cpu (is + 0) scales
    let s2 ← getScaleMinK4Cpu (is + 1) scales
    let d1 := dall * (s1.1.toNat : ℤ)
    let dm1 := dmin * (s1.2.toNat : ℤ)
    let d2 := dall * (s2.1.toNat : ℤ)
    let dm2 := dmin * (s2.2.toNat : ℤ)
    let q := fun l => qs (32 * il + l)
    let outBase := b * 256 + 64 * il
    forRange 32 fun l => do
      let x ← q l
      return [(outBase + l, d1 * ((x &&& 0xF).toNat : ℤ) - dm1),
        (outBase + l + 32, d2 * ((x >>> 4).toNat : ℤ) - dm2)]

/-- `dequant_q4k_row`. -/
def dequantQ4kRow (data : ℕ → Option UInt8) (tokenId hiddenDim : ℕ) : Option (List (ℕ × F)) :=
  let blocksPerRow := hiddenDim / 256
  let blockBytes := 144
  let rowData := fun k => data (tokenId * blocksPerRow * blockBytes + k)
  forRange blocksPerRow fun b => dequantQ4kBlock fp16ToFloat (fun k => rowData (b * blockBytes + k)) b

/-- One lane of `dequant_q6k_row`: `y`, `ql`, `qh` and `sc` are the four pointers. -/
def dequantQ6kLane (d : F) (blk : ℕ → Option UInt8) (y ql qh sc l : ℕ) : Option (List (ℕ × F)) := do
  let is := l / 16
  let ql0 ← blk (ql + l)
  let ql32 ← blk (ql + l + 32)
  let qhl ← blk (qh + l)
  let q1 := (ql0.toNat &&& 0xF) ||| (((qhl.toNat >>> 0) &&& 3) <<< 4)
  let q2 := (ql32.toNat &&& 0xF) ||| (((qhl.toNat >>> 2) &&& 3) <<< 4)
  let q3 := (ql0.toNat >>> 4) ||| (((qhl.toNat >>> 4) &&& 3) <<< 4)
  let q4 := (ql32.toNat >>> 4) ||| (((qhl.toNat >>> 6) &&& 3) <<< 4)
  let sc0 ← blk (sc + (is + 0))
  let sc2 ← blk (sc + (is + 2))
  let sc4 ← blk (sc + (is + 4))
  let sc6 ← blk (sc + (is + 6))
  return [(y + (l + 0), d * (sc0.toInt8.toInt : F) * ((q1 : ℤ) - 32 : ℤ)),
    (y + (l + 32), d * (sc2.toInt8.toInt : F) * ((q2 : ℤ) - 32 : ℤ)),
    (y + (l + 64), d * (sc4.toInt8.toInt : F) * ((q3 : ℤ) - 32 : ℤ)),
    (y + (l + 96), d * (sc6.toInt8.toInt : F) * ((q4 : ℤ) - 32 : ℤ))]

/-- The loop over the halves of a block: each moves the four pointers on. -/
def dequantQ6kHalves (d : F) (blk : ℕ → Option UInt8) :
    ℕ → ℕ → ℕ → ℕ → ℕ → Option (List (ℕ × F))
  | 0, _, _, _, _ => some []
  | halves + 1, y, ql, qh, sc => do
      let writes ← forRange 32 fun l => dequantQ6kLane d blk y ql qh sc l
      let rest ← dequantQ6kHalves d blk halves (y + 128) (ql + 64) (qh + 32) (sc + 8)
      return writes ++ rest

/-- One block of `embd_block_q6_K`: `ql[128]`, `qh[64]`, `scales[16]`, `d_raw`. -/
def dequantQ6kBlock (blk : ℕ → Option UInt8) (b : ℕ) : Option (List (ℕ × F)) := do
  let d ← (readU16 blk 208).map fp16ToFloat
  dequantQ6kHalves d blk 2 (b * 256) 0 128 192

/-- `dequant_q6k_row`. -/
def dequantQ6kRow (data : ℕ → Option UInt8) (tokenId hiddenDim : ℕ) : Option (List (ℕ × F)) :=
  let blocksPerRow := hiddenDim / 256
  let blockBytes := 210
  let rowData := fun k => data (tokenId * blocksPerRow * blockBytes + k)
  forRange blocksPerRow fun b => dequantQ6kBlock fp16ToFloat (fun k => rowData (b * blockBytes + k)) b

end

end JLLM
