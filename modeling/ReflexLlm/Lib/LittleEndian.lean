import Mathlib.Algebra.Order.Ring.Nat
import Mathlib.Tactic.Ring

/-! Fixed-width little-endian codec for naturals and for the machine words
built on them, with fields read at a byte offset of a larger buffer. -/

namespace LittleEndian

/-- The `k` low bytes of `n`, least significant first. -/
def encode : ℕ → ℕ → List UInt8
  | 0, _ => []
  | k + 1, n => UInt8.ofNat n :: encode k (n / 256)

/-- The natural whose bytes, least significant first, are the given ones. -/
def decode (bytes : List UInt8) : ℕ :=
  bytes.foldr (fun b acc => b.toNat + 256 * acc) 0

@[simp] theorem decode_nil : decode [] = 0 := rfl

@[simp] theorem decode_cons (b : UInt8) (bytes : List UInt8) :
    decode (b :: bytes) = b.toNat + 256 * decode bytes := rfl

@[simp] theorem encode_length (k n : ℕ) : (encode k n).length = k := by
  induction k generalizing n with
  | zero => rfl
  | succ k ih => simp [encode, ih]

/-- Decoding keeps the residue that fits in the encoded width. -/
theorem decode_encode (k n : ℕ) : decode (encode k n) = n % 256 ^ k := by
  induction k generalizing n with
  | zero => simp [encode, Nat.mod_one]
  | succ k ih =>
    have hmod : n % (256 * 256 ^ k) = n % 256 + 256 * (n / 256 % 256 ^ k) := Nat.mod_mul
    rw [encode, decode_cons, ih, UInt8.toNat_ofNat', pow_succ' 256 k, hmod]

theorem decode_lt (bytes : List UInt8) : decode bytes < 256 ^ bytes.length := by
  induction bytes with
  | nil => simp
  | cons b bytes ih =>
    have hb := b.toNat_lt
    rw [decode_cons, List.length_cons, pow_succ']
    omega

/-- Any byte string is the encoding of the number it denotes. -/
theorem encode_decode (bytes : List UInt8) : encode bytes.length (decode bytes) = bytes := by
  induction bytes with
  | nil => rfl
  | cons b bytes ih =>
    have hb := b.toNat_lt
    have hlow : UInt8.ofNat (b.toNat + 256 * decode bytes) = b := by
      apply UInt8.toNat_inj.mp
      rw [UInt8.toNat_ofNat']
      omega
    have hhigh : (b.toNat + 256 * decode bytes) / 256 = decode bytes := by omega
    rw [List.length_cons, decode_cons, encode, hlow, hhigh, ih]

theorem encode_decode_of_length {k : ℕ} {bytes : List UInt8} (h : bytes.length = k) :
    encode k (decode bytes) = bytes := by
  rw [← h, encode_decode]

/-- `len` bytes of a buffer from offset `off`. -/
def field (buf : List UInt8) (off len : ℕ) : List UInt8 := (buf.drop off).take len

theorem field_length {buf : List UInt8} {off len : ℕ} (h : off + len ≤ buf.length) :
    (field buf off len).length = len := by
  simp only [field, List.length_take, List.length_drop]
  omega

/-- A field ends with its buffer. -/
theorem field_length_le (buf : List UInt8) (off len : ℕ) :
    (field buf off len).length ≤ buf.length - off := by
  rw [field, List.length_take, List.length_drop]
  exact Nat.min_le_right _ _

/-- A field that lies behind a prefix is read relative to it. -/
theorem field_append_right (pre buf : List UInt8) (off len : ℕ) :
    field (pre ++ buf) (pre.length + off) len = field buf off len := by
  simp only [field, List.drop_length_add_append]

/-- A field that ends before a suffix does not see it. -/
theorem field_append_left {pre : List UInt8} (buf : List UInt8) {off len : ℕ}
    (h : off + len ≤ pre.length) : field (pre ++ buf) off len = field pre off len := by
  simp only [field]
  rw [List.drop_append_of_le_length (by omega), List.take_append_of_le_length]
  rw [List.length_drop]
  omega

/-- Two adjacent fields are one longer field. -/
theorem field_append_field (buf : List UInt8) (off len₁ len₂ : ℕ) :
    field buf off len₁ ++ field buf (off + len₁) len₂ = field buf off (len₁ + len₂) := by
  simp only [field, ← List.drop_drop]
  rw [List.take_add]

theorem field_zero (buf : List UInt8) (len : ℕ) : field buf 0 len = buf.take len := by
  simp [field]

/-- A 32-bit word as its four bytes. -/
def u32 (x : UInt32) : List UInt8 := encode 4 x.toNat

/-- A 64-bit word as its eight bytes. -/
def u64 (x : UInt64) : List UInt8 := encode 8 x.toNat

@[simp] theorem u32_length (x : UInt32) : (u32 x).length = 4 := encode_length _ _

@[simp] theorem u64_length (x : UInt64) : (u64 x).length = 8 := encode_length _ _

/-- The 32-bit word of a byte string. -/
def toU32 (bytes : List UInt8) : UInt32 := UInt32.ofNat (decode bytes)

/-- The 64-bit word of a byte string. -/
def toU64 (bytes : List UInt8) : UInt64 := UInt64.ofNat (decode bytes)

@[simp] theorem toU32_u32 (x : UInt32) : toU32 (u32 x) = x := by
  have hx := x.toNat_lt
  rw [toU32, u32, decode_encode, Nat.mod_eq_of_lt (by omega), UInt32.ofNat_toNat]

@[simp] theorem toU64_u64 (x : UInt64) : toU64 (u64 x) = x := by
  have hx := x.toNat_lt
  rw [toU64, u64, decode_encode, Nat.mod_eq_of_lt (by omega), UInt64.ofNat_toNat]

theorem u32_toU32 {bytes : List UInt8} (h : bytes.length = 4) : u32 (toU32 bytes) = bytes := by
  have hlt := decode_lt bytes
  rw [h] at hlt
  rw [u32, toU32, UInt32.toNat_ofNat_of_lt' (by simpa using hlt), encode_decode_of_length h]

theorem u64_toU64 {bytes : List UInt8} (h : bytes.length = 8) : u64 (toU64 bytes) = bytes := by
  have hlt := decode_lt bytes
  rw [h] at hlt
  rw [u64, toU64, UInt64.toNat_ofNat_of_lt' (by simpa using hlt), encode_decode_of_length h]

/-- An array of 32-bit words, one after the other. -/
def u32s (xs : List UInt32) : List UInt8 := xs.flatMap u32

/-- The first `n` words of an array. -/
def toU32s : ℕ → List UInt8 → List UInt32
  | 0, _ => []
  | n + 1, bytes => toU32 (bytes.take 4) :: toU32s n (bytes.drop 4)

@[simp] theorem u32s_length (xs : List UInt32) : (u32s xs).length = 4 * xs.length := by
  induction xs with
  | nil => rfl
  | cons x xs ih =>
    simp only [u32s, List.flatMap_cons, List.length_append, u32_length, List.length_cons] at ih ⊢
    omega

@[simp] theorem toU32s_length (n : ℕ) (bytes : List UInt8) : (toU32s n bytes).length = n := by
  induction n generalizing bytes with
  | zero => rfl
  | succ n ih => simp [toU32s, ih]

/-- Reading back as many words as were written ignores what follows them. -/
theorem toU32s_u32s_append (xs : List UInt32) (rest : List UInt8) :
    toU32s xs.length (u32s xs ++ rest) = xs := by
  induction xs with
  | nil => rfl
  | cons x xs ih =>
    have hsplit : u32s (x :: xs) ++ rest = u32 x ++ (u32s xs ++ rest) := by
      simp [u32s]
    rw [hsplit, List.length_cons, toU32s, List.take_left' (u32_length x),
      List.drop_left' (u32_length x), toU32_u32, ih]

theorem toU32s_u32s (xs : List UInt32) : toU32s xs.length (u32s xs) = xs := by
  simpa using toU32s_u32s_append xs []

/-- Every string of `4 * n` bytes is an array of `n` words. -/
theorem u32s_toU32s {n : ℕ} {bytes : List UInt8} (h : bytes.length = 4 * n) :
    u32s (toU32s n bytes) = bytes := by
  induction n generalizing bytes with
  | zero =>
    have hnil : bytes = [] := List.length_eq_zero_iff.mp (by omega)
    simp [toU32s, u32s, hnil]
  | succ n ih =>
    have htake : (bytes.take 4).length = 4 := by
      rw [List.length_take]
      omega
    have hdrop : (bytes.drop 4).length = 4 * n := by
      rw [List.length_drop]
      omega
    calc
      u32s (toU32s (n + 1) bytes) =
          u32 (toU32 (bytes.take 4)) ++ u32s (toU32s n (bytes.drop 4)) := by
        simp [toU32s, u32s]
      _ = bytes := by rw [u32_toU32 htake, ih hdrop, List.take_append_drop]

end LittleEndian
