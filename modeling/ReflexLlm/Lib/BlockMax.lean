import Mathlib.Data.Nat.Bitwise
import Mathlib.Order.Lattice
import Mathlib.Order.MinMax

/-! The largest of many values by a block of threads: strided loops, a butterfly of shuffles in
each warp of `2 ^ w` lanes, and one atomic update a warp, the threads in any order. A maximum is
handled through its upper bounds. -/

namespace BlockMax

/-! ### Strided loops -/

/-- `for (c = start; c < bound; c += stride)`, for at most so many rounds. -/
def strided (stride bound : ℕ) : ℕ → ℕ → List ℕ
  | 0, _ => []
  | fuel + 1, c => if c < bound then c :: strided stride bound fuel (c + stride) else []

variable {stride bound : ℕ}

theorem mem_strided {fuel start c : ℕ} :
    c ∈ strided stride bound fuel start ↔ c < bound ∧ ∃ i < fuel, c = start + i * stride := by
  induction fuel generalizing start with
  | zero => simp [strided]
  | succ fuel ih =>
    rw [strided]
    split_ifs with hstart
    · rw [List.mem_cons, ih]
      constructor
      · rintro (rfl | ⟨hc, i, hi, rfl⟩)
        · exact ⟨hstart, 0, by omega, by omega⟩
        · exact ⟨hc, i + 1, by omega, by rw [Nat.succ_mul]; omega⟩
      · rintro ⟨hc, i, hi, rfl⟩
        cases i with
        | zero => exact .inl (by omega)
        | succ i => exact .inr ⟨hc, i, by omega, by rw [Nat.succ_mul]; omega⟩
    · refine ⟨fun h => absurd h List.not_mem_nil, ?_⟩
      rintro ⟨hc, i, hi, rfl⟩
      omega

/-- The threads of a block share the indices out: each has those that it is the remainder of. -/
theorem mem_strided_thread {tid c : ℕ} (htid : tid < stride) :
    c ∈ strided stride bound bound tid ↔ c < bound ∧ c % stride = tid := by
  rw [mem_strided]
  refine and_congr_right fun hc => ⟨?_, fun hmod => ?_⟩
  · rintro ⟨i, hi, rfl⟩
    rw [Nat.add_mul_mod_self_right, Nat.mod_eq_of_lt htid]
  · have hdiv : c / stride ≤ c := Nat.div_le_self c stride
    refine ⟨c / stride, by omega, ?_⟩
    rw [← hmod, Nat.add_comm, Nat.div_add_mod']

/-! ### Folds -/

variable {α : Type*} [LinearOrder α]

theorem foldl_max_le {γ : Type*} {f : γ → α} {l : List γ} {z b : α} :
    l.foldl (fun m c => max m (f c)) z ≤ b ↔ z ≤ b ∧ ∀ c ∈ l, f c ≤ b := by
  induction l generalizing z with
  | nil => simp
  | cons c l ih => rw [List.foldl_cons, ih, max_le_iff, List.forall_mem_cons, and_assoc]

theorem foldl_max_mem {γ : Type*} (f : γ → α) (l : List γ) (z : α) :
    l.foldl (fun m c => max m (f c)) z = z ∨ ∃ c ∈ l, l.foldl (fun m c => max m (f c)) z = f c := by
  induction l generalizing z with
  | nil => exact .inl rfl
  | cons c l ih =>
    rw [List.foldl_cons]
    rcases ih (max z (f c)) with h | ⟨a, ha, h⟩
    · rcases max_choice z (f c) with hz | hc
      · exact .inl (h.trans hz)
      · exact .inr ⟨c, List.mem_cons_self, h.trans hc⟩
    · exact .inr ⟨a, List.mem_cons_of_mem c ha, h⟩

/-- Only some elements count. -/
theorem foldl_max_if_le {γ : Type*} {p : γ → Prop} [DecidablePred p] {f : γ → α} {l : List γ}
    {z b : α} : l.foldl (fun m c => if p c then max m (f c) else m) z ≤ b ↔
      z ≤ b ∧ ∀ c ∈ l, p c → f c ≤ b := by
  induction l generalizing z with
  | nil => simp
  | cons c l ih =>
    rw [List.foldl_cons, ih, List.forall_mem_cons]
    split_ifs with hc
    · rw [max_le_iff, and_assoc, forall_prop_of_true hc]
    · rw [forall_prop_of_false hc, true_and]

/-! ### The butterfly -/

/-- One shuffle: a thread takes the larger of its value and of that of the lane `off` away. What
a shuffle reads from a lane that no thread of the block runs is not known: `absent`. -/
def shuffleMax (w threads : ℕ) (absent : ℕ → ℕ → α) (off : ℕ) (val : ℕ → α) (tid : ℕ) : α :=
  let partner := 2 ^ w * (tid / 2 ^ w) + (tid % 2 ^ w ^^^ off)
  max (val tid) (if partner < threads then val partner else absent off tid)

/-- The rounds with the offsets from `2 ^ (k - 1)` down to `1`. -/
def butterfly (w threads : ℕ) (absent : ℕ → ℕ → α) : ℕ → (ℕ → α) → ℕ → α
  | 0, val => val
  | k + 1, val => butterfly w threads absent k (shuffleMax w threads absent (2 ^ k) val)

variable {w threads : ℕ} {absent : ℕ → ℕ → α}

/-- No lane comes to more than a bound of all that can be read. -/
theorem butterfly_le {b : α} (habsent : 2 ^ w ∣ threads ∨ ∀ off tid, absent off tid ≤ b) :
    ∀ {k : ℕ}, k ≤ w → ∀ {val : ℕ → α}, (∀ t < threads, val t ≤ b) →
      ∀ t < threads, butterfly w threads absent k val t ≤ b := by
  intro k
  induction k with
  | zero => exact fun _ val hval => hval
  | succ k ih =>
    intro hk val hval
    refine ih (by omega) fun t ht => max_le (hval t ht) ?_
    split_ifs with hpartner
    · exact hval _ hpartner
    · refine habsent.elim (fun hdvd => absurd ?_ hpartner) fun h => h _ _
      -- the warp of the thread is full
      obtain ⟨n, rfl⟩ := hdvd
      have hpos : 0 < 2 ^ w := Nat.two_pow_pos w
      have hwarp : t / 2 ^ w < n := Nat.div_lt_of_lt_mul ht
      have hlane : (t % 2 ^ w) ^^^ 2 ^ k < 2 ^ w :=
        Nat.xor_lt_two_pow (Nat.mod_lt t hpos) (Nat.pow_lt_pow_right (by decide) (by omega))
      have hmul := Nat.mul_le_mul_left (2 ^ w) hwarp
      rw [Nat.mul_succ] at hmul
      omega

/-- A bit above a number. -/
theorem xor_two_pow {l k : ℕ} (hl : l < 2 ^ k) : l ^^^ 2 ^ k = 2 ^ k * 1 + l := by
  refine Nat.eq_of_testBit_eq fun i => ?_
  rw [Nat.testBit_xor, Nat.testBit_two_pow, Nat.testBit_two_pow_mul_add 1 hl]
  split_ifs with hi
  · rw [decide_eq_false (by omega), Bool.xor_false]
  · have hpow : 2 ^ k ≤ 2 ^ i := Nat.pow_le_pow_right (by decide) (by omega)
    rw [Nat.testBit_lt_two_pow (Nat.lt_of_lt_of_le hl hpow), Bool.false_xor, Bool.eq_iff_iff,
      decide_eq_true_iff, Nat.testBit_one_eq_true_iff_self_eq_zero]
    omega

/-- The first lane of a warp comes to at least the value of every lane. -/
theorem le_butterfly {k : ℕ} (hk : k ≤ w) :
    ∀ {val : ℕ → α} {t : ℕ}, t < threads → t % 2 ^ w < 2 ^ k →
      val t ≤ butterfly w threads absent k val (2 ^ w * (t / 2 ^ w)) := by
  have hpos : 0 < 2 ^ w := Nat.two_pow_pos w
  induction k with
  | zero =>
    intro val t ht hlane
    have hbase : 2 ^ w * (t / 2 ^ w) = t := by
      have hmod := Nat.div_add_mod t (2 ^ w)
      omega
    rw [butterfly, hbase]
  | succ k ih =>
    intro val t ht hlane
    rw [butterfly]
    by_cases hlow : t % 2 ^ w < 2 ^ k
    · have hown : val t ≤ shuffleMax w threads absent (2 ^ k) val t := le_max_left _ _
      exact hown.trans (ih (by omega) ht hlow)
    · -- the lane `2 ^ k` below reads the value, and it is in the lower half
      rw [pow_succ] at hlane
      have hdecomp := Nat.div_add_mod t (2 ^ w)
      have hlt := Nat.mod_lt t hpos
      have hbelow : t - 2 ^ k = 2 ^ w * (t / 2 ^ w) + (t % 2 ^ w - 2 ^ k) := by omega
      have hlane' : t % 2 ^ w - 2 ^ k < 2 ^ w := by omega
      have hdiv : (t - 2 ^ k) / 2 ^ w = t / 2 ^ w := by
        rw [hbelow, Nat.mul_add_div hpos, Nat.div_eq_of_lt hlane', Nat.add_zero]
      have hmod : (t - 2 ^ k) % 2 ^ w = t % 2 ^ w - 2 ^ k := by
        rw [hbelow, Nat.mul_add_mod, Nat.mod_eq_of_lt hlane']
      have hpartner : 2 ^ w * ((t - 2 ^ k) / 2 ^ w) + ((t - 2 ^ k) % 2 ^ w ^^^ 2 ^ k) = t := by
        rw [hdiv, hmod, xor_two_pow (by omega)]
        omega
      have hread : val t ≤ shuffleMax w threads absent (2 ^ k) val (t - 2 ^ k) := by
        rw [shuffleMax, hpartner, if_pos ht]
        exact le_max_right _ _
      rw [← hdiv]
      exact hread.trans (ih (by omega) (by omega) (by omega))

/-! ### The block -/

/-- The first lanes of the warps update one cell, in the order of the list. -/
def atomicMaxes (w : ℕ) (val : ℕ → α) (order : List ℕ) (z : α) : α :=
  order.foldl (fun m tid => if tid % 2 ^ w = 0 then max m (val tid) else m) z

variable {val : ℕ → α} {order : List ℕ} {z : α}

theorem atomicMaxes_le {b : α} (habsent : 2 ^ w ∣ threads ∨ ∀ off tid, absent off tid ≤ b)
    (horder : order.Perm (List.range threads)) (hz : z ≤ b) (hval : ∀ t < threads, val t ≤ b) :
    atomicMaxes w (butterfly w threads absent w val) order z ≤ b := by
  refine foldl_max_if_le.mpr ⟨hz, fun t ht _ => ?_⟩
  exact butterfly_le habsent le_rfl hval t (List.mem_range.mp (horder.mem_iff.mp ht))

theorem le_atomicMaxes (horder : order.Perm (List.range threads)) :
    z ≤ atomicMaxes w (butterfly w threads absent w val) order z ∧
      ∀ t < threads, val t ≤ atomicMaxes w (butterfly w threads absent w val) order z := by
  obtain ⟨hz, hlanes⟩ := foldl_max_if_le.mp
    (le_refl (atomicMaxes w (butterfly w threads absent w val) order z))
  refine ⟨hz, fun t ht => ?_⟩
  have hbase : 2 ^ w * (t / 2 ^ w) < threads := Nat.lt_of_le_of_lt (Nat.mul_div_le t _) ht
  exact (le_butterfly le_rfl ht (Nat.mod_lt t (Nat.two_pow_pos w))).trans
    (hlanes _ (horder.mem_iff.mpr (List.mem_range.mpr hbase)) (Nat.mul_mod_right _ _))

end BlockMax
