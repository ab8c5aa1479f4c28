import ReflexLlm.Lib.LittleEndian

/-! The GGUF container: a header, key-value pairs with values of thirteen types, tensor
descriptors. Values are typed by construction; numbers of fixed width are kept as bytes. -/

namespace Gguf

open LittleEndian

/-- The value types of fixed width. -/
inductive ScalarType where
  | uint8
  | int8
  | uint16
  | int16
  | uint32
  | int32
  | float32
  | bool
  | uint64
  | int64
  | float64
deriving DecidableEq, Repr

namespace ScalarType

def code : ScalarType → UInt32
  | uint8 => 0
  | int8 => 1
  | uint16 => 2
  | int16 => 3
  | uint32 => 4
  | int32 => 5
  | float32 => 6
  | bool => 7
  | uint64 => 10
  | int64 => 11
  | float64 => 12

/-- Bytes of a value. -/
def size : ScalarType → ℕ
  | uint8 | int8 | bool => 1
  | uint16 | int16 => 2
  | uint32 | int32 | float32 => 4
  | uint64 | int64 | float64 => 8

theorem size_pos (t : ScalarType) : 0 < t.size := by
  cases t <;> decide

theorem size_le (t : ScalarType) : t.size ≤ 8 := by
  cases t <;> decide

end ScalarType

/-- The bytes of a value of fixed width. -/
abbrev Scalar (t : ScalarType) := { bytes : List UInt8 // bytes.length = t.size }

def Scalar.word (w : UInt32) : Scalar .uint32 := ⟨u32 w, u32_length w⟩

def Scalar.flag (b : Bool) : Scalar .bool := ⟨[if b then 1 else 0], rfl⟩

/-- A string with its length in front. -/
def encodeString (s : List UInt8) : List UInt8 := u64 (.ofNat s.length) ++ s

/-- Arrays; their elements have one type. -/
inductive Arr where
  | scalars (t : ScalarType) (elems : List (Scalar t))
  | strings (elems : List (List UInt8))
  | arrays (elems : List Arr)

namespace Arr

mutual

/-- The element type, the number of elements, the elements. -/
def encode : Arr → List UInt8
  | scalars t elems => u32 t.code ++ u64 (.ofNat elems.length) ++ elems.flatMap Subtype.val
  | strings elems => u32 8 ++ u64 (.ofNat elems.length) ++ elems.flatMap encodeString
  | arrays elems => u32 9 ++ u64 (.ofNat elems.length) ++ encodeAll elems

def encodeAll : List Arr → List UInt8
  | [] => []
  | a :: as => a.encode ++ encodeAll as

end

/-- No element is an array. -/
def Flat : Arr → Prop
  | arrays elems => elems = []
  | _ => True

end Arr

inductive Value where
  | scalar (t : ScalarType) (bytes : Scalar t)
  | string (s : List UInt8)
  | array (a : Arr)

namespace Value

def code : Value → UInt32
  | scalar t _ => t.code
  | string _ => 8
  | array _ => 9

def encode : Value → List UInt8
  | scalar _ bytes => bytes.val
  | string s => encodeString s
  | array a => a.encode

/-- No array of arrays. -/
def Flat : Value → Prop
  | array a => a.Flat
  | _ => True

/-- The number in a `uint32` value. -/
def asU32 : Value → Option UInt32
  | scalar .uint32 bytes => some (toU32 bytes.val)
  | _ => none

/-- The bytes of a string value. -/
def asString : Value → Option (List UInt8)
  | string s => some s
  | _ => none

end Value

/-- A key-value pair. -/
structure KeyValue where
  key : List UInt8
  value : Value

def KeyValue.encode (kv : KeyValue) : List UInt8 :=
  encodeString kv.key ++ (u32 kv.value.code ++ kv.value.encode)

/-- A tensor descriptor. -/
structure Tensor where
  name : List UInt8
  dims : List UInt64
  type : UInt32
  offset : UInt64
deriving DecidableEq, Repr

def Tensor.encode (t : Tensor) : List UInt8 :=
  encodeString t.name ++ (u32 (.ofNat t.dims.length) ++ (t.dims.flatMap u64 ++
    (u32 t.type ++ u64 t.offset)))

/-- `GGUF`, as a little-endian word. -/
def magic : UInt32 := 0x46554747

/-- What stands in a file before the tensor data. -/
structure Contents where
  version : UInt32
  pairs : List KeyValue
  tensors : List Tensor

namespace Contents

def header (c : Contents) : List UInt8 :=
  u32 magic ++ (u32 c.version ++ (u64 (.ofNat c.tensors.length) ++ u64 (.ofNat c.pairs.length)))

def encode (c : Contents) : List UInt8 :=
  c.header ++ (c.pairs.flatMap KeyValue.encode ++ c.tensors.flatMap Tensor.encode)

end Contents

/-! ### Lengths -/

/-- A length that fits is stored as it is. -/
theorem toNat_ofNat_length {α : Type} {xs : List α} (h : xs.length < 0x10000000000000000) :
    (UInt64.ofNat xs.length).toNat = xs.length := UInt64.toNat_ofNat_of_lt' h

@[simp] theorem encodeString_length (s : List UInt8) : (encodeString s).length = 8 + s.length := by
  simp [encodeString]

theorem flatMap_length_le {α : Type} {g : α → List UInt8} {k : ℕ} {xs : List α}
    (h : ∀ x ∈ xs, k ≤ (g x).length) : k * xs.length ≤ (xs.flatMap g).length := by
  induction xs with
  | nil => simp
  | cons x xs ih =>
    have hx := h x List.mem_cons_self
    have hxs := ih fun y hy => h y (List.mem_cons_of_mem x hy)
    rw [List.flatMap_cons, List.length_append, List.length_cons, Nat.mul_succ]
    omega

theorem length_le_flatMap {α : Type} {g : α → List UInt8} {x : α} {xs : List α} (h : x ∈ xs) :
    (g x).length ≤ (xs.flatMap g).length :=
  (List.sublist_flatten_of_mem (List.mem_map_of_mem h)).length_le

theorem scalars_length {t : ScalarType} (elems : List (Scalar t)) :
    (elems.flatMap Subtype.val).length = elems.length * t.size := by
  induction elems with
  | nil => simp
  | cons x xs ih =>
    rw [List.flatMap_cons, List.length_append, ih, x.property, List.length_cons, Nat.succ_mul]
    omega

end Gguf
