import ReflexLlm.Lib.ByteStream

/-! `parse_tensor_infos` of `src/engine/model.cpp`: the metadata is skipped by the sizes of
the value types, then the tensor descriptors are read. Nothing in it looks at what `fread`
and `fseek` return. -/

namespace JLLM

open ByteStream Reader

/-- `TensorInfo`; the name is the string in front of the first zero of its buffer. -/
structure TensorInfo where
  name : List UInt8
  nDims : UInt32
  shape : List Int64
  type : UInt32
  offset : UInt64
  shape_length : shape.length = 4
deriving DecidableEq

/-- `gguf_scalar_size`. -/
def ggufScalarSize (type : UInt32) : ℕ :=
  if type = 0 ∨ type = 1 ∨ type = 7 then 1
  else if type = 2 ∨ type = 3 then 2
  else if type = 4 ∨ type = 5 ∨ type = 6 then 4
  else if type = 10 ∨ type = 11 ∨ type = 12 then 8
  else 0

section

variable (f : Stream)

/-- The length of a string is read, the string skipped. -/
def skipString : Reader Unit := do
  let len ← u64 f
  seek f len

/-- The elements of an array; those of a nested array count as eight bytes each. -/
def skipElements (atype : UInt32) (alen : UInt64) : Reader Unit :=
  if 0 < ggufScalarSize atype then seek f (alen * .ofNat (ggufScalarSize atype))
  else if atype = 8 then loop alen.toNat (fun _ => skipString f) ()
  else loop alen.toNat (fun _ => seek f 8) ()

/-- A value; one of unknown type counts as eight bytes. -/
def skipValue (vtype : UInt32) : Reader Unit :=
  if 0 < ggufScalarSize vtype then seek f (.ofNat (ggufScalarSize vtype))
  else if vtype = 8 then skipString f
  else if vtype = 9 then do
    let atype ← u32 f
    let alen ← u64 f
    skipElements f atype alen
  else seek f 8

/-- The body of the loop over the key-value pairs. -/
def skipKeyValue : Reader Unit := do
  skipString f
  let vtype ← u32 f
  skipValue f vtype

/-- What of a long name is not read. -/
def skipLongName (nameLen : UInt64) : Reader Unit :=
  if 255 < nameLen.toNat then seek f (nameLen - 255) else return

/-- The name, read into a buffer of zeros. -/
def readName (nameLen : UInt64) : Reader (List UInt8) := do
  let bytes ← zeroed f (min nameLen.toNat 255)
  skipLongName f nameLen
  return bytes.takeWhile (· ≠ 0)

/-- The rest of a descriptor; a dimension that is missing is one. -/
def readShape (name : List UInt8) (nDims : UInt32) : Reader (Option TensorInfo) := do
  let dims ← loop nDims.toNat (fun dims => do
    let d ← u64 f
    return dims ++ [d.toInt64]) []
  let type ← u32 f
  let offset ← u64 f
  let shape := (List.range 4).map fun d => dims.getD d 1
  return some ⟨name, nDims, shape, type, offset, by simp [shape]⟩

/-- The body of the loop over the descriptors; `none` once `shape` is overrun. -/
def readTensorInfo : Reader (Option TensorInfo) := do
  let nameLen ← u64 f
  let name ← readName f nameLen
  let nDims ← u32 f
  if 4 < nDims.toNat then return none else readShape f name nDims

/-- The loop over the descriptors. -/
def readTensorInfos : ℕ → Reader (Option (List TensorInfo))
  | 0 => return some []
  | n + 1 => do
      tick
      let ti ← readTensorInfo f
      match ti with
      | none => return none
      | some ti =>
          let tensors ← readTensorInfos n
          return tensors.map (ti :: ·)

/-- How `parse_tensor_infos` ends. -/
inductive ParseOutcome where
  /-- A store past the end of `shape`. -/
  | undefined
  /-- `resize` throws. -/
  | threw
  | returned (dataOffset : ℤ) (tensors : List TensorInfo)
deriving DecidableEq

/-- What is read; the outer `none` is an exception. -/
def readInfos (maxTensors : ℕ) : Reader (Option (Option (List TensorInfo))) := do
  let _magic ← u32 f
  let _version ← u32 f
  let nTensors ← u64 f
  let nKv ← u64 f
  loop nKv.toNat (fun _ => skipKeyValue f) ()
  if maxTensors < nTensors.toNat then return none
  else
    let tensors ← readTensorInfos f nTensors.toNat
    return some tensors

/-- `parse_tensor_infos` of a file that can be opened, with memory for `maxTensors`. -/
def parseTensorInfos (maxTensors : ℕ) : ParseOutcome × Cursor :=
  let run := readInfos f maxTensors .start
  match run.1 with
  | none => (.threw, run.2)
  | some none => (.undefined, run.2)
  | some (some tensors) =>
      let cur := run.2.pos
      let alignment := 32
      (.returned (((cur + alignment - 1) / alignment * alignment : ℕ) : ℤ) tensors, run.2)

end

end JLLM
