import Mathlib.Algebra.Order.Ring.Nat
import Mathlib.Data.Nat.Bitwise
import Mathlib.Tactic.Ring

/-! Small unsigned numbers packed into bytes. A layout says for each bit of a number which
bit of which byte it is. -/

namespace BitLayout

/-- The bit at a position: a byte and a bit of it. -/
def bitAt (bytes : ℕ → UInt8) (pos : ℕ × ℕ) : Bool := (bytes pos.1).toNat.testBit pos.2

/-- The number of `w` bits, the lowest first, that are at these positions. -/
def value (bytes : ℕ → UInt8) (pos : ℕ → ℕ × ℕ) : ℕ → ℕ
  | 0 => 0
  | w + 1 => 2 ^ w * (bitAt bytes (pos w)).toNat + value bytes pos w

variable {bytes : ℕ → UInt8} {pos : ℕ → ℕ × ℕ}

theorem value_lt (w : ℕ) : value bytes pos w < 2 ^ w := by
  induction w with
  | zero => exact Nat.one_pos
  | succ w ih =>
    have hbit := (bitAt bytes (pos w)).toNat_le
    have hmul := Nat.mul_le_mul_left (2 ^ w) hbit
    rw [value, pow_succ]
    omega

theorem testBit_value {w p : ℕ} (hp : p < w) :
    (value bytes pos w).testBit p = bitAt bytes (pos p) := by
  induction w with
  | zero => omega
  | succ w ih =>
    rw [value, Nat.testBit_two_pow_mul_add _ (value_lt w)]
    by_cases hlow : p < w
    · rw [if_pos hlow, ih hlow]
    · obtain rfl : p = w := by omega
      rw [if_neg hlow, Nat.sub_self, Nat.testBit_zero]
      cases bitAt bytes (pos p) <;> rfl

/-- A number is known by its bits. -/
theorem eq_value {w v : ℕ} (hv : v < 2 ^ w)
    (hbits : ∀ p < w, v.testBit p = bitAt bytes (pos p)) : v = value bytes pos w := by
  refine Nat.eq_of_testBit_eq fun p => ?_
  by_cases hp : p < w
  · rw [hbits p hp, testBit_value hp]
  · have hpow : 2 ^ w ≤ 2 ^ p := Nat.pow_le_pow_right (by decide) (by omega)
    rw [Nat.testBit_lt_two_pow (hv.trans_le hpow),
      Nat.testBit_lt_two_pow ((value_lt w).trans_le hpow)]

/-- The low bits of one number, and above them another. -/
theorem testBit_join (x y k p : ℕ) :
    (x % 2 ^ k ||| y <<< k).testBit p = if p < k then x.testBit p else y.testBit (p - k) := by
  rw [Nat.testBit_or, Nat.testBit_mod_two_pow, Nat.testBit_shiftLeft]
  by_cases hp : p < k
  · simp [hp]
  · simp [hp, Nat.le_of_not_lt hp]

theorem join_lt {x y k m : ℕ} (hy : y < 2 ^ m) : x % 2 ^ k ||| y <<< k < 2 ^ (k + m) := by
  refine Nat.or_lt_two_pow ?_ ?_
  · exact (Nat.mod_lt x (Nat.two_pow_pos k)).trans_le (Nat.pow_le_pow_right (by decide) (by omega))
  · rw [Nat.shiftLeft_eq, Nat.mul_comm, pow_add]
    exact Nat.mul_lt_mul_of_pos_left hy (Nat.two_pow_pos k)

/-- The bits of `n` numbers of `w` bits are those of `size` bytes, each of them once. -/
structure EachBitOnce (n w size : ℕ) (pos : ℕ → ℕ → ℕ × ℕ) : Prop where
  inside : ∀ i < n, ∀ p < w, (pos i p).1 < size ∧ (pos i p).2 < 8
  once : ∀ byte < size, ∀ bit < 8, ∃! q : ℕ × ℕ, q.1 < n ∧ q.2 < w ∧ pos q.1 q.2 = (byte, bit)

/-- A layout that can be inverted. -/
theorem EachBitOnce.of_inverse {n w size : ℕ} {pos : ℕ → ℕ → ℕ × ℕ} (inv : ℕ × ℕ → ℕ × ℕ)
    (hinside : ∀ i < n, ∀ p < w, (pos i p).1 < size ∧ (pos i p).2 < 8)
    (hleft : ∀ i < n, ∀ p < w, inv (pos i p) = (i, p))
    (hright : ∀ byte < size, ∀ bit < 8, (inv (byte, bit)).1 < n ∧ (inv (byte, bit)).2 < w ∧
      pos (inv (byte, bit)).1 (inv (byte, bit)).2 = (byte, bit)) : EachBitOnce n w size pos where
  inside := hinside
  once byte hbyte bit hbit := by
    refine ⟨inv (byte, bit), hright byte hbyte bit hbit, fun q hq => ?_⟩
    obtain ⟨hi, hp, hpos⟩ := hq
    rw [← hpos, hleft _ hi _ hp]

end BitLayout
