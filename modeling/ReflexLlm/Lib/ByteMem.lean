import Mathlib.Data.List.GetD
import Mathlib.Tactic.IntervalCases
import Mathlib.Tactic.Ring
import Mathlib.Tactic.Tauto

/-! Byte memories as total functions of the offset, with the block operations
of a C program (copy, fill, read and write of a range) and the layout of a bank
of layers: each layer is two halves of `n` rows of `h` bytes. Bounds are not
part of a memory; a program that has to check them does so beside it. -/

namespace ByteMem

/-- One allocated block: the byte at every offset. -/
abbrev Mem := ℕ → UInt8

/-- `memcpy(dst + dOff, src + sOff, len)`. The source is read before the
destination is written. -/
def Mem.copy (src : Mem) (sOff : ℕ) (dst : Mem) (dOff len : ℕ) : Mem :=
  fun i => if dOff ≤ i ∧ i < dOff + len then src (sOff + (i - dOff)) else dst i

/-- `memmove(m + dOff, m + sOff, len)`. -/
def Mem.move (m : Mem) (dOff sOff len : ℕ) : Mem := m.copy sOff m dOff len

/-- `memset(m + off, b, len)`. -/
def Mem.fill (m : Mem) (off len : ℕ) (b : UInt8) : Mem :=
  fun i => if off ≤ i ∧ i < off + len then b else m i

/-- The `len` bytes from `off` on. -/
def Mem.read (m : Mem) (off len : ℕ) : List UInt8 := (List.range len).map fun i => m (off + i)

/-- Store a byte string at `off`. -/
def Mem.write (m : Mem) (off : ℕ) (bytes : List UInt8) : Mem :=
  fun i => if off ≤ i ∧ i < off + bytes.length then bytes.getD (i - off) 0 else m i

/-- The memory that starts with the given bytes and is zero behind them. -/
def ofBytes (bytes : List UInt8) : Mem := fun i => bytes.getD i 0

theorem copy_inside (src dst : Mem) {sOff dOff len i : ℕ} (hi : i < len) :
    src.copy sOff dst dOff len (dOff + i) = src (sOff + i) := by
  simp only [Mem.copy]
  rw [if_pos (by omega), Nat.add_sub_cancel_left]

theorem copy_outside (src dst : Mem) {sOff dOff len i : ℕ} (hi : ¬ (dOff ≤ i ∧ i < dOff + len)) :
    src.copy sOff dst dOff len i = dst i := if_neg hi

@[simp] theorem read_length (m : Mem) (off len : ℕ) : (m.read off len).length = len := by
  simp [Mem.read]

/-- Two ranges that agree byte for byte read the same. -/
theorem read_congr {m m' : Mem} {off off' len : ℕ}
    (h : ∀ i, i < len → m (off + i) = m' (off' + i)) : m.read off len = m'.read off' len := by
  apply List.map_congr_left
  intro i hi
  exact h i (List.mem_range.mp hi)

/-- Conversely an equal read pins every byte of the range. -/
theorem read_byte {m m' : Mem} {off off' len : ℕ} (h : m.read off len = m'.read off' len)
    {i : ℕ} (hi : i < len) : m (off + i) = m' (off' + i) :=
  List.map_inj_left.mp h i (List.mem_range.mpr hi)

/-- A stored string reads back. -/
theorem read_write_same (m : Mem) (off : ℕ) (bytes : List UInt8) :
    (m.write off bytes).read off bytes.length = bytes := by
  apply List.ext_getElem (by simp)
  intro i h₁ h₂
  simp only [Mem.read, List.getElem_map, List.getElem_range, Mem.write]
  rw [if_pos (by omega), Nat.add_sub_cancel_left, List.getD_eq_getElem _ _ h₂]

/-- A range that the stored string does not meet is unchanged. -/
theorem read_write_disjoint (m : Mem) {off off' len : ℕ} {bytes : List UInt8}
    (h : off + bytes.length ≤ off' ∨ off' + len ≤ off) :
    (m.write off bytes).read off' len = m.read off' len := by
  apply read_congr
  intro i hi
  simp only [Mem.write]
  rw [if_neg (by omega)]

/-- Store one string after the other. -/
def Mem.writeAll (m : Mem) (ws : List (ℕ × List UInt8)) : Mem :=
  ws.foldl (fun m w => m.write w.1 w.2) m

theorem read_writeAll_disjoint {m : Mem} {off len : ℕ} {ws : List (ℕ × List UInt8)}
    (h : ∀ w ∈ ws, off + len ≤ w.1) : (m.writeAll ws).read off len = m.read off len := by
  induction ws generalizing m with
  | nil => rfl
  | cons w ws ih =>
    rw [List.forall_mem_cons] at h
    rw [Mem.writeAll, List.foldl_cons]
    exact (ih h.2).trans (read_write_disjoint m (Or.inr h.1))

/-- Strings that are stored at rising places all read back. -/
theorem read_writeAll {m : Mem} {ws : List (ℕ × List UInt8)}
    (h : ws.Pairwise fun a b => a.1 + a.2.length ≤ b.1) :
    ∀ w ∈ ws, (m.writeAll ws).read w.1 w.2.length = w.2 := by
  induction ws generalizing m with
  | nil => simp
  | cons w ws ih =>
    rw [List.pairwise_cons] at h
    rw [Mem.writeAll, List.foldl_cons, List.forall_mem_cons]
    refine ⟨?_, ih h.2⟩
    exact (read_writeAll_disjoint h.1).trans (read_write_same m w.1 w.2)

theorem ofBytes_read (m : Mem) {len i : ℕ} (hi : i < len) : ofBytes (m.read 0 len) i = m i := by
  simp only [ofBytes]
  rw [List.getD_eq_getElem _ _ (by simpa using hi)]
  simp [Mem.read]

/-! ### Loops whose iterations own disjoint addresses -/

/-- An address that only iteration `l` writes holds what that iteration wrote,
whatever the memory was when it ran. -/
theorem foldl_range_owned (step : Mem → ℕ → Mem) {i l n : ℕ} {v : UInt8} (hl : l < n)
    (hself : ∀ m, step m l i = v) (hother : ∀ m l', l' ≠ l → step m l' i = m i) (m : Mem) :
    (List.range n).foldl step m i = v := by
  induction n with
  | zero => omega
  | succ n ih =>
    rw [List.range_succ, List.foldl_append, List.foldl_cons, List.foldl_nil]
    by_cases h : n = l
    · subst h
      exact hself _
    · rw [hother _ n h]
      exact ih (by omega)

/-- An address that no iteration writes is unchanged. -/
theorem foldl_range_frame (step : Mem → ℕ → Mem) {i n : ℕ}
    (h : ∀ m l, l < n → step m l i = m i) (m : Mem) : (List.range n).foldl step m i = m i := by
  induction n with
  | zero => rfl
  | succ n ih =>
    rw [List.range_succ, List.foldl_append, List.foldl_cons, List.foldl_nil,
      h _ n (Nat.lt_succ_self n), ih fun m l hl => h m l (by omega)]

/-- A loop whose guards all pass is the plain loop. -/
theorem foldlM_guard_pass {α β : Type} (ok : α → Bool) (step : β → α → β) (ls : List α) (b : β)
    (h : ∀ a ∈ ls, ok a = true) :
    ls.foldlM (fun b a => if ok a then some (step b a) else none) b = some (ls.foldl step b) := by
  induction ls generalizing b with
  | nil => rfl
  | cons a ls ih =>
    rw [List.foldlM_cons, if_pos (h a (by simp))]
    exact ih (step b a) fun a' ha' => h a' (by simp [ha'])

/-! ### Banks of layers -/

/-- Offset of row `p` of half `s` of layer `l`, in a bank whose halves hold
`n` rows of `h` bytes. -/
def rowOffset (n h l s p : ℕ) : ℕ := ((2 * l + s) * n + p) * h

theorem rowOffset_eq (n h l s p : ℕ) :
    rowOffset n h l s p = l * (n * (2 * h)) + s * (n * h) + p * h := by
  simp only [rowOffset]
  ring

/-- Bytes of a whole bank of `L` layers. -/
def bankBytes (L n h : ℕ) : ℕ := L * (n * (2 * h))

theorem mul_le_mul_add_iff {h b : ℕ} (hb : b < h) (x y : ℕ) : y * h ≤ x * h + b ↔ y ≤ x := by
  constructor
  · intro hle
    by_contra hlt
    have : (x + 1) * h ≤ y * h := Nat.mul_le_mul_right h (by omega)
    rw [Nat.add_mul] at this
    omega
  · intro hle
    have := Nat.mul_le_mul_right h hle
    omega

theorem mul_add_lt_mul_iff {h b : ℕ} (hb : b < h) (x y : ℕ) : x * h + b < y * h ↔ x < y := by
  have := mul_le_mul_add_iff hb x y
  omega

/-- Byte `b` of row `p` lies among the first `k` rows of another half exactly
when it is that half and one of those rows. -/
theorem rowOffset_mem_iff {n h k l s p b s₀ : ℕ} (l₀ : ℕ) (hs : s < 2) (hs₀ : s₀ < 2)
    (hp : p < n) (hb : b < h) (hk : k ≤ n) :
    (rowOffset n h l₀ s₀ 0 ≤ rowOffset n h l s p + b ∧
      rowOffset n h l s p + b < rowOffset n h l₀ s₀ 0 + k * h) ↔
    (l = l₀ ∧ s = s₀) ∧ p < k := by
  have hend : rowOffset n h l₀ s₀ 0 + k * h = ((2 * l₀ + s₀) * n + k) * h := by
    simp only [rowOffset]
    ring
  rw [hend, rowOffset, rowOffset, Nat.add_zero, mul_le_mul_add_iff hb, mul_add_lt_mul_iff hb,
    mul_le_mul_add_iff hp]
  constructor
  · rintro ⟨hle, hlt⟩
    have heq : 2 * l + s = 2 * l₀ + s₀ := by
      by_contra hne
      have : (2 * l₀ + s₀ + 1) * n ≤ (2 * l + s) * n := Nat.mul_le_mul_right n (by omega)
      rw [Nat.add_mul (2 * l₀ + s₀)] at this
      omega
    rw [heq] at hlt
    exact ⟨by omega, by omega⟩
  · rintro ⟨⟨rfl, rfl⟩, hpk⟩
    exact ⟨le_rfl, by omega⟩

/-- Different rows of a bank do not overlap. -/
theorem rowOffset_disjoint {n h l s p l' s' p' : ℕ} (hs : s < 2) (hs' : s' < 2) (hp : p < n)
    (hp' : p' < n) (hne : (l, s, p) ≠ (l', s', p')) :
    rowOffset n h l s p + h ≤ rowOffset n h l' s' p' ∨
      rowOffset n h l' s' p' + h ≤ rowOffset n h l s p := by
  have hrow : (2 * l + s) * n + p ≠ (2 * l' + s') * n + p' := by
    intro heq
    have hn : 0 < n := by omega
    have hdiv : 2 * l + s = 2 * l' + s' := by
      have := congrArg (· / n) heq
      simpa [Nat.add_mul_div_right, Nat.mul_add_div hn, Nat.div_eq_of_lt, hp, hp', Nat.mul_comm _ n]
        using this
    have hpp : p = p' := by
      rw [hdiv] at heq
      omega
    apply hne
    have hl : l = l' := by omega
    have hss : s = s' := by omega
    rw [hl, hss, hpp]
  simp only [rowOffset]
  rcases Nat.lt_or_gt_of_ne hrow with hlt | hlt
  · left
    have := Nat.mul_le_mul_right h (Nat.succ_le_of_lt hlt)
    rw [Nat.succ_eq_add_one, Nat.add_mul _ 1] at this
    omega
  · right
    have := Nat.mul_le_mul_right h (Nat.succ_le_of_lt hlt)
    rw [Nat.succ_eq_add_one, Nat.add_mul _ 1] at this
    omega

/-- Every row of the first `L` layers lies inside the bank. -/
theorem rowOffset_bound {L n h l s p : ℕ} (hl : l < L) (hs : s < 2) (hp : p < n) :
    rowOffset n h l s p + h ≤ bankBytes L n h := by
  have hrow : (2 * l + s) * n + p + 1 ≤ 2 * L * n := by
    have : (2 * l + s + 1) * n ≤ 2 * L * n := Nat.mul_le_mul_right n (by omega)
    rw [Nat.add_mul (2 * l + s)] at this
    omega
  calc
    rowOffset n h l s p + h = ((2 * l + s) * n + p + 1) * h := by
      simp only [rowOffset]
      ring
    _ ≤ 2 * L * n * h := Nat.mul_le_mul_right h hrow
    _ = bankBytes L n h := by
      simp only [bankBytes]
      ring

/-- Copy the first `k` rows of both halves of layer `l` between two banks. -/
def copyLayer (h k nSrc nDst : ℕ) (src dst : Mem) (l : ℕ) : Mem :=
  src.copy (rowOffset nSrc h l 1 0)
    (src.copy (rowOffset nSrc h l 0 0) dst (rowOffset nDst h l 0 0) (k * h))
    (rowOffset nDst h l 1 0) (k * h)

/-- What one copied layer does to each byte of a row. -/
theorem copyLayer_apply {h k nSrc nDst : ℕ} (src dst : Mem) {l l₀ s p b : ℕ} (hk : k ≤ nDst)
    (hs : s < 2) (hp : p < nDst) (hb : b < h) :
    copyLayer h k nSrc nDst src dst l₀ (rowOffset nDst h l s p + b) =
      if l = l₀ ∧ p < k then src (rowOffset nSrc h l s p + b)
      else dst (rowOffset nDst h l s p + b) := by
  have hrow (s₀ : ℕ) (hs₀ : s₀ < 2) :=
    rowOffset_mem_iff (l := l) l₀ hs hs₀ hp hb hk
  -- the bytes of the row sit at the same place behind the start of its half
  have hoff (n : ℕ) : rowOffset n h l s p + b = rowOffset n h l s 0 + (p * h + b) := by
    simp only [rowOffset]
    ring
  have hin (hpk : p < k) : p * h + b < k * h := (mul_add_lt_mul_iff hb p k).mpr hpk
  by_cases hc : l = l₀ ∧ p < k
  · obtain ⟨rfl, hpk⟩ := hc
    rw [if_pos ⟨rfl, hpk⟩, copyLayer]
    interval_cases s
    · rw [copy_outside _ _ fun h => by simpa using (hrow 1 (by decide)).mp h, hoff nDst, hoff nSrc,
        copy_inside _ _ (hin hpk)]
    · rw [hoff nDst, hoff nSrc, copy_inside _ _ (hin hpk)]
  · rw [if_neg hc, copyLayer, copy_outside, copy_outside]
    · rw [hrow 0 (by decide)]
      tauto
    · rw [hrow 1 (by decide)]
      tauto

/-- Copying layer after layer moves the first `k` rows of every half and
leaves the other rows of the destination alone. -/
theorem copyLayers_apply {L h k nSrc nDst : ℕ} (src dst : Mem) {l s p b : ℕ} (hk : k ≤ nDst)
    (hl : l < L) (hs : s < 2) (hp : p < nDst) (hb : b < h) :
    (List.range L).foldl (copyLayer h k nSrc nDst src) dst (rowOffset nDst h l s p + b) =
      if p < k then src (rowOffset nSrc h l s p + b) else dst (rowOffset nDst h l s p + b) := by
  by_cases hpk : p < k
  · rw [if_pos hpk]
    apply foldl_range_owned _ hl
    · intro m
      rw [copyLayer_apply src m hk hs hp hb, if_pos ⟨rfl, hpk⟩]
    · intro m l' hne
      rw [copyLayer_apply src m hk hs hp hb, if_neg fun h => hne h.1.symm]
  · rw [if_neg hpk]
    apply foldl_range_frame
    intro m l' _
    rw [copyLayer_apply src m hk hs hp hb, if_neg fun h => hpk h.2]

end ByteMem
