import ReflexLlm.Lib.BitLayout
import ReflexLlm.Spec.KQuant

/-! The row decoders against the block formats: which bits make up which number, and what
each output is. -/

namespace JLLM

open BitLayout WriteLog

/-! ### The formats -/

/-- The packed scales of a Q4_K block: bit `p` of the scale `i`, or of the minimum `i - 8`. -/
def q4kScaleBit (i p : ℕ) : ℕ × ℕ :=
  if i % 8 < 4 then (i % 8 + 4 * (i / 8), p)
  else if p < 4 then (i % 8 + 4, 4 * (i / 8) + p)
  else (i % 8 - 4 + 4 * (i / 8), p + 2)

/-- The quants of a Q4_K block: the low nibbles of 32 bytes, then their high nibbles. -/
def q4kQuantBit (i p : ℕ) : ℕ × ℕ := (32 * (i / 64) + i % 32, 4 * (i / 32 % 2) + p)

/-- The quants of a Q6_K block: a nibble of `ql`, then two bits of `qh`, which follows it. -/
def q6kQuantBit (i p : ℕ) : ℕ × ℕ :=
  if p < 4 then (64 * (i / 128) + 32 * (i / 32 % 2) + i % 32, 4 * (i % 128 / 64) + p)
  else (128 + 32 * (i / 128) + i % 32, 2 * (i % 128 / 32) + (p - 4))

theorem q4kScaleBit_once : EachBitOnce 16 6 12 q4kScaleBit :=
  .of_inverse
    (fun pos =>
      if 8 ≤ pos.1 then (pos.1 - 4 + 8 * (pos.2 / 4), pos.2 % 4)
      else if pos.2 < 6 then (pos.1 % 4 + 8 * (pos.1 / 4), pos.2)
      else (pos.1 % 4 + 4 + 8 * (pos.1 / 4), pos.2 - 2))
    (by decide) (by decide) (by decide)

theorem q4kQuantBit_once : EachBitOnce 256 4 128 q4kQuantBit := by
  refine .of_inverse (fun pos =>
    (64 * (pos.1 / 32) + 32 * (pos.2 / 4) + pos.1 % 32, pos.2 % 4)) ?_ ?_ ?_
  · intro i hi p hp
    simp only [q4kQuantBit]
    omega
  · intro i hi p hp
    simp only [q4kQuantBit, Prod.mk.injEq]
    omega
  · intro byte hbyte bit hbit
    simp only [q4kQuantBit, Prod.mk.injEq]
    omega

theorem q6kQuantBit_once : EachBitOnce 256 6 192 q6kQuantBit := by
  refine .of_inverse (fun pos =>
    if pos.1 < 128 then
      (128 * (pos.1 / 64) + 64 * (pos.2 / 4) + 32 * (pos.1 / 32 % 2) + pos.1 % 32, pos.2 % 4)
    else (128 * ((pos.1 - 128) / 32) + 32 * (pos.2 / 2) + pos.1 % 32, 4 + pos.2 % 2)) ?_ ?_ ?_
  · intro i hi p hp
    simp only [q6kQuantBit]
    split_ifs <;> simp only <;> omega
  · intro i hi p hp
    simp only [q6kQuantBit]
    split_ifs <;> simp only [Prod.mk.injEq] at * <;> omega
  · intro byte hbyte bit hbit
    simp only [q6kQuantBit]
    split_ifs <;> simp only [Prod.mk.injEq] at * <;> omega

/-! ### The numbers that the decoders build -/

theorem low_nibble (x : ℕ) : x &&& 15 = (x >>> 0) % 2 ^ 4 := Nat.and_two_pow_sub_one_eq_mod x 4

theorem high_nibble (x : UInt8) : x.toNat >>> 4 = x.toNat >>> 4 % 2 ^ 4 := by
  have hlt := x.toNat_lt
  rw [Nat.shiftRight_eq_div_pow]
  omega

theorem low_pair (x : ℕ) : x &&& 3 = x % 2 ^ 2 := Nat.and_two_pow_sub_one_eq_mod x 2

theorem high_pair (x : UInt8) : x.toNat >>> 6 = x.toNat >>> 6 % 2 ^ 2 := by
  have hlt := x.toNat_lt
  rw [Nat.shiftRight_eq_div_pow]
  omega

theorem value_nibble (bytes : ℕ → UInt8) (a c : ℕ) :
    ((bytes a).toNat >>> c) % 2 ^ 4 = value bytes (fun p => (a, c + p)) 4 := by
  refine eq_value (Nat.mod_lt _ (by decide)) fun p hp => ?_
  rw [Nat.testBit_mod_two_pow, decide_eq_true hp, Bool.true_and, Nat.testBit_shiftRight, bitAt]

theorem value_sixBits (bytes : ℕ → UInt8) (a : ℕ) :
    (bytes a).toNat % 2 ^ 6 = value bytes (fun p => (a, p)) 6 := by
  refine eq_value (Nat.mod_lt _ (by decide)) fun p hp => ?_
  rw [Nat.testBit_mod_two_pow, decide_eq_true hp, Bool.true_and, bitAt]

/-- Six bits: a nibble of one byte and, above it, two bits of another. -/
theorem value_joined (bytes : ℕ → UInt8) (a c b s : ℕ) :
    ((bytes a).toNat >>> c) % 2 ^ 4 ||| (((bytes b).toNat >>> s) % 2 ^ 2) <<< 4 =
      value bytes (fun p => if p < 4 then (a, c + p) else (b, s + (p - 4))) 6 := by
  refine eq_value (join_lt (Nat.mod_lt _ (by decide))) fun p hp => ?_
  rw [testBit_join]
  split_ifs with hlow
  · rw [Nat.testBit_shiftRight, bitAt]
  · rw [Nat.testBit_mod_two_pow, decide_eq_true (by omega), Bool.true_and, Nat.testBit_shiftRight,
      bitAt]

/-- The two top bits of a byte, above a nibble, in eight bits. -/
theorem toNat_or_top (low high : UInt8) :
    (low ||| (high >>> 6) <<< 4).toNat = low.toNat ||| ((high.toNat >>> 6) % 2 ^ 2) <<< 4 := by
  have hlt := high.toNat_lt
  have hshift : ((high >>> 6) <<< 4).toNat = (high.toNat >>> 6) <<< 4 := by
    rw [UInt8.toNat_shiftLeft, UInt8.toNat_shiftRight]
    refine Nat.mod_eq_of_lt ?_
    change high.toNat >>> 6 <<< 4 < 2 ^ 8
    rw [Nat.shiftLeft_eq, Nat.shiftRight_eq_div_pow]
    omega
  rw [UInt8.toNat_or, hshift, ← high_pair]

theorem getScaleMinK4Cpu_eq {q : ℕ → Option UInt8} (scales : ℕ → UInt8)
    (hq : ∀ k < 12, q k = some (scales k)) {j : ℕ} (hj : j < 8) :
    ∃ d m, getScaleMinK4Cpu j q = some (d, m) ∧ d.toNat = value scales (q4kScaleBit j) 6 ∧
      m.toNat = value scales (q4kScaleBit (8 + j)) 6 := by
  have hscale : j % 8 = j ∧ j / 8 = 0 := by omega
  have hmin : (8 + j) % 8 = j ∧ (8 + j) / 8 = 1 := by omega
  by_cases h4 : j < 4
  · have hlow (k : ℕ) : (scales k &&& 63).toNat = value scales (fun p => (k, p)) 6 := by
      rw [UInt8.toNat_and, ← value_sixBits]
      exact Nat.and_two_pow_sub_one_eq_mod _ 6
    refine ⟨scales j &&& 63, scales (j + 4) &&& 63, ?_, ?_, ?_⟩
    · simp [getScaleMinK4Cpu, h4, hq j (by omega), hq (j + 4) (by omega)]
    · rw [hlow]
      refine congrArg (value scales · 6) (funext fun p => ?_)
      simp only [q4kScaleBit, hscale, if_pos h4, Nat.mul_zero, Nat.add_zero]
    · rw [hlow]
      refine congrArg (value scales · 6) (funext fun p => ?_)
      simp only [q4kScaleBit, hmin, if_pos h4, Nat.mul_one]
  · refine ⟨(scales (j + 4) &&& (15 : UInt8)) ||| ((scales (j - 4) >>> 6) <<< 4),
      (scales (j + 4) >>> 4) ||| ((scales j >>> 6) <<< 4), ?_, ?_, ?_⟩
    · simp [getScaleMinK4Cpu, h4, hq j (by omega), hq (j + 4) (by omega), hq (j - 4) (by omega)]
    · have hlow : (scales (j + 4) &&& 15).toNat = ((scales (j + 4)).toNat >>> 0) % 2 ^ 4 := by
        rw [UInt8.toNat_and]
        exact low_nibble _
      rw [toNat_or_top, hlow, value_joined]
      refine congrArg (value scales · 6) (funext fun p => ?_)
      simp only [q4kScaleBit, hscale, if_neg h4]
      split_ifs
      · simp
      · rw [Prod.mk.injEq]
        omega
    · have hhigh : (scales (j + 4) >>> 4).toNat = ((scales (j + 4)).toNat >>> 4) % 2 ^ 4 := by
        rw [UInt8.toNat_shiftRight]
        exact high_nibble _
      rw [toNat_or_top, hhigh, value_joined]
      refine congrArg (value scales · 6) (funext fun p => ?_)
      simp only [q4kScaleBit, hmin, if_neg h4]
      split_ifs
      · simp
      · rw [Prod.mk.injEq]
        omega

/-! ### The rows -/

/-- The half-precision number at a place. -/
def halfAt (bytes : ℕ → UInt8) (off : ℕ) : UInt16 :=
  (bytes off).toUInt16 ||| ((bytes (off + 1)).toUInt16 <<< 8)

theorem readU16_eq {blk : ℕ → Option UInt8} {bytes : ℕ → UInt8} {size : ℕ}
    (hblk : ∀ k < size, blk k = some (bytes k)) {off : ℕ} (hoff : off + 1 < size) :
    readU16 blk off = some (halfAt bytes off) := by
  simp [readU16, halfAt, hblk off (by omega), hblk (off + 1) hoff]

section

variable {F : Type} [Mul F] [Sub F] [IntCast F] (fp16ToFloat : UInt16 → F)

/-- Output `i` of a Q4_K block: `d * sc[j] * q - dmin * m[j]` with `j = i / 32`. -/
def q4kOutput (bytes : ℕ → UInt8) (i : ℕ) : F :=
  let scales := fun k => bytes (4 + k)
  let qs := fun k => bytes (16 + k)
  fp16ToFloat (halfAt bytes 0) * ((value scales (q4kScaleBit (i / 32)) 6 : ℕ) : ℤ) *
      ((value qs (q4kQuantBit i) 4 : ℕ) : ℤ) -
    fp16ToFloat (halfAt bytes 2) * ((value scales (q4kScaleBit (8 + i / 32)) 6 : ℕ) : ℤ)

/-- The output as the loops count it. -/
theorem q4kOutput_eq (bytes : ℕ → UInt8) {il l half : ℕ} (hl : l < 32) (hhalf : half < 2) :
    q4kOutput fp16ToFloat bytes (64 * il + l + 32 * half) =
      fp16ToFloat (halfAt bytes 0) *
          ((value (fun k => bytes (4 + k)) (q4kScaleBit (2 * il + half)) 6 : ℕ) : ℤ) *
          (((bytes (16 + (32 * il + l))).toNat >>> (4 * half) % 2 ^ 4 : ℕ) : ℤ) -
        fp16ToFloat (halfAt bytes 2) *
          ((value (fun k => bytes (4 + k)) (q4kScaleBit (8 + (2 * il + half))) 6 : ℕ) : ℤ) := by
  have hscale : (64 * il + l + 32 * half) / 32 = 2 * il + half := by omega
  have hquant : q4kQuantBit (64 * il + l + 32 * half) = fun p => (32 * il + l, 4 * half + p) := by
    funext p
    simp only [q4kQuantBit, Prod.mk.injEq]
    omega
  simp only [q4kOutput, hscale, hquant]
  rw [← value_nibble]

theorem dequantQ4kBlock_writes {blk : ℕ → Option UInt8} (bytes : ℕ → UInt8)
    (hblk : ∀ k < 144, blk k = some (bytes k)) (b : ℕ) :
    Writes (dequantQ4kBlock fp16ToFloat blk b) 256
      fun x => ∃ i < 256, x = (b * 256 + i, q4kOutput fp16ToFloat bytes i) := by
  have hscales : ∀ k < 12, blk (4 + k) = some (bytes (4 + k)) := fun k hk => hblk _ (by omega)
  simp only [dequantQ4kBlock, readU16_eq hblk (show 0 + 1 < 144 by decide),
    readU16_eq hblk (show 2 + 1 < 144 by decide), Option.map_some]
  refine (writes_forRange (n := 4) (c := 64) (M := fun il x => ∃ l < 32, ∃ half < 2,
    x = (b * 256 + 64 * il + l + 32 * half,
      q4kOutput fp16ToFloat bytes (64 * il + l + 32 * half))) fun il hil => ?_).mono ?_
  · obtain ⟨d1, m1, hread1, hd1, hm1⟩ :=
      getScaleMinK4Cpu_eq (fun k => bytes (4 + k)) hscales (show 2 * il + 0 < 8 by omega)
    obtain ⟨d2, m2, hread2, hd2, hm2⟩ :=
      getScaleMinK4Cpu_eq (fun k => bytes (4 + k)) hscales (show 2 * il + 1 < 8 by omega)
    simp only [hread1, hread2, Option.bind_eq_bind, Option.bind_some]
    refine (writes_forRange (n := 32) (c := 2) (M := fun l x => ∃ half < 2,
      x = (b * 256 + 64 * il + l + 32 * half,
        q4kOutput fp16ToFloat bytes (64 * il + l + 32 * half))) fun l hl => ?_).mono ?_
    · rw [hblk _ (by omega), Option.bind_some]
      refine ⟨_, rfl, rfl, ?_⟩
      rintro x ⟨half, hhalf, rfl⟩
      rw [q4kOutput_eq fp16ToFloat bytes hl hhalf]
      obtain rfl | rfl : half = 0 ∨ half = 1 := by omega
      · have hx : (bytes (16 + (32 * il + l)) &&& 0xF).toNat =
            (bytes (16 + (32 * il + l))).toNat >>> (4 * 0) % 2 ^ 4 := by
          rw [UInt8.toNat_and]
          exact low_nibble _
        rw [hd1, hm1, hx, Nat.mul_zero 32, Nat.add_zero (b * 256 + 64 * il + l)]
        exact List.mem_cons_self
      · have hx : (bytes (16 + (32 * il + l)) >>> 4).toNat =
            (bytes (16 + (32 * il + l))).toNat >>> (4 * 1) % 2 ^ 4 := by
          rw [UInt8.toNat_shiftRight]
          exact high_nibble _
        rw [hd2, hm2, hx, Nat.mul_one 32]
        exact List.mem_cons_of_mem _ List.mem_cons_self
    · rintro x ⟨l, hl, half, hhalf, rfl⟩
      exact ⟨l, hl, half, hhalf, rfl⟩
  · rintro x ⟨i, hi, rfl⟩
    have hindex : 64 * (i / 64) + i % 32 + 32 * (i / 32 % 2) = i := by omega
    refine ⟨i / 64, by omega, i % 32, by omega, i / 32 % 2, by omega, Prod.ext ?_ ?_⟩
    · simp only
      omega
    · rw [hindex]

theorem dequantQ4kRow_writes {data : ℕ → Option UInt8} {row : ℕ → UInt8} {t hiddenDim : ℕ}
    (hdim : 256 ∣ hiddenDim)
    (hrow : ∀ k < hiddenDim / 256 * 144, data (t * (hiddenDim / 256) * 144 + k) = some (row k)) :
    Writes (dequantQ4kRow fp16ToFloat data t hiddenDim) hiddenDim fun x => x.1 < hiddenDim ∧
      x.2 = q4kOutput fp16ToFloat (fun k => row (x.1 / 256 * 144 + k)) (x.1 % 256) := by
  have hrows := writes_blocks fun b (hb : b < hiddenDim / 256) =>
    dequantQ4kBlock_writes fp16ToFloat (fun k => row (b * 144 + k))
      (fun k hk => hrow (b * 144 + k) (by omega)) b
  rwa [Nat.div_mul_cancel hdim] at hrows

end

section

variable {F : Type} [Mul F] [IntCast F] (fp16ToFloat : UInt16 → F)

/-- Output `i` of a Q6_K block: `d * sc[8 * h + l / 16 + 2 * g] * (q - 32)` with `h = i / 128`,
`g = i % 128 / 32` and `l = i % 32`. -/
def q6kOutput (bytes : ℕ → UInt8) (i : ℕ) : F :=
  fp16ToFloat (halfAt bytes 208) *
      ((bytes (192 + (8 * (i / 128) + i % 32 / 16 + 2 * (i % 128 / 32)))).toInt8.toInt : F) *
    (((value bytes (q6kQuantBit i) 6 : ℕ) : ℤ) - 32 : ℤ)

/-- The output as the lanes count it. -/
theorem q6kOutput_eq (bytes : ℕ → UInt8) {h l g : ℕ} (hl : l < 32) (hg : g < 4) :
    q6kOutput fp16ToFloat bytes (128 * h + l + 32 * g) =
      fp16ToFloat (halfAt bytes 208) *
          ((bytes (192 + 8 * h + (l / 16 + 2 * g))).toInt8.toInt : F) *
        ((((bytes (64 * h + l + 32 * (g % 2))).toNat >>> (4 * (g / 2)) % 2 ^ 4 |||
          ((bytes (128 + 32 * h + l)).toNat >>> (2 * g) % 2 ^ 2) <<< 4 : ℕ) : ℤ) - 32 : ℤ) := by
  have hscale : 192 + (8 * ((128 * h + l + 32 * g) / 128) + (128 * h + l + 32 * g) % 32 / 16 +
      2 * ((128 * h + l + 32 * g) % 128 / 32)) = 192 + 8 * h + (l / 16 + 2 * g) := by omega
  have hquant : q6kQuantBit (128 * h + l + 32 * g) = fun p =>
      if p < 4 then (64 * h + l + 32 * (g % 2), 4 * (g / 2) + p)
      else (128 + 32 * h + l, 2 * g + (p - 4)) := by
    funext p
    simp only [q6kQuantBit]
    split_ifs
    · rw [Prod.mk.injEq]
      omega
    · rw [Prod.mk.injEq]
      omega
  rw [q6kOutput, hscale, hquant, value_joined]

theorem dequantQ6kLane_writes {blk : ℕ → Option UInt8} {bytes : ℕ → UInt8}
    (hblk : ∀ k < 210, blk k = some (bytes k)) (y : ℕ) {h l : ℕ} (hh : h < 2) (hl : l < 32) :
    Writes (dequantQ6kLane (fp16ToFloat (halfAt bytes 208)) blk y (64 * h) (128 + 32 * h)
      (192 + 8 * h) l) 4
      fun x => ∃ g < 4,
        x = (y + (l + 32 * g), q6kOutput fp16ToFloat bytes (128 * h + l + 32 * g)) := by
  rw [dequantQ6kLane, hblk (64 * h + l) (by omega), hblk (64 * h + l + 32) (by omega),
    hblk (128 + 32 * h + l) (by omega), hblk (192 + 8 * h + (l / 16 + 0)) (by omega),
    hblk (192 + 8 * h + (l / 16 + 2)) (by omega), hblk (192 + 8 * h + (l / 16 + 4)) (by omega),
    hblk (192 + 8 * h + (l / 16 + 6)) (by omega)]
  refine ⟨_, rfl, rfl, ?_⟩
  rintro x ⟨g, hg, rfl⟩
  rw [q6kOutput_eq fp16ToFloat bytes hl hg, low_nibble, low_nibble, low_pair, low_pair, low_pair,
    low_pair, high_nibble (bytes (64 * h + l)), high_nibble (bytes (64 * h + l + 32))]
  obtain rfl | rfl | rfl | rfl : g = 0 ∨ g = 1 ∨ g = 2 ∨ g = 3 := by omega
  · simp only [Nat.reduceMod, Nat.reduceDiv, Nat.reduceMul, Nat.add_zero]
    exact List.mem_cons_self
  · simp only [Nat.reduceMod, Nat.reduceDiv, Nat.reduceMul, Nat.add_zero]
    exact List.mem_cons_of_mem _ List.mem_cons_self
  · simp only [Nat.reduceMod, Nat.reduceDiv, Nat.reduceMul, Nat.add_zero]
    exact List.mem_cons_of_mem _ (List.mem_cons_of_mem _ List.mem_cons_self)
  · simp only [Nat.reduceMod, Nat.reduceDiv, Nat.reduceMul]
    exact List.mem_cons_of_mem _ (List.mem_cons_of_mem _ (List.mem_cons_of_mem _ List.mem_cons_self))

/-- The pointers at half `h` stand where `h` rounds have moved them. -/
theorem dequantQ6kHalves_writes {blk : ℕ → Option UInt8} {bytes : ℕ → UInt8}
    (hblk : ∀ k < 210, blk k = some (bytes k)) (b halves : ℕ) :
    ∀ {h : ℕ}, h + halves = 2 →
      Writes (dequantQ6kHalves (fp16ToFloat (halfAt bytes 208)) blk halves (b * 256 + 128 * h)
        (64 * h) (128 + 32 * h) (192 + 8 * h)) (halves * 128)
        fun x => ∃ i < 256, 128 * h ≤ i ∧ x = (b * 256 + i, q6kOutput fp16ToFloat bytes i) := by
  induction halves with
  | zero =>
    intro h hend
    refine ⟨[], rfl, rfl, ?_⟩
    rintro x ⟨i, hi, hfrom, -⟩
    omega
  | succ halves ih =>
    intro h hend
    rw [dequantQ6kHalves]
    have hlanes := writes_forRange (n := 32) fun l hl =>
      dequantQ6kLane_writes fp16ToFloat hblk (b * 256 + 128 * h) (show h < 2 by omega) hl
    have hrest := ih (h := h + 1) (by omega)
    rw [Nat.mul_succ 128, Nat.mul_succ 64, Nat.mul_succ 32, Nat.mul_succ 8] at hrest
    simp only [← Nat.add_assoc] at hrest
    rw [show halves.succ * 128 = 32 * 4 + halves * 128 by omega]
    refine (hlanes.append hrest).mono ?_
    rintro x ⟨i, hi, hfrom, rfl⟩
    by_cases hnext : 128 * h + 128 ≤ i
    · exact .inr ⟨i, hi, hnext, rfl⟩
    · have hindex : 128 * h + i % 32 + 32 * (i % 128 / 32) = i := by omega
      refine .inl ⟨i % 32, by omega, i % 128 / 32, by omega, Prod.ext ?_ ?_⟩
      · simp only
        omega
      · rw [hindex]

theorem dequantQ6kBlock_writes {blk : ℕ → Option UInt8} (bytes : ℕ → UInt8)
    (hblk : ∀ k < 210, blk k = some (bytes k)) (b : ℕ) :
    Writes (dequantQ6kBlock fp16ToFloat blk b) 256
      fun x => ∃ i < 256, x = (b * 256 + i, q6kOutput fp16ToFloat bytes i) := by
  simp only [dequantQ6kBlock, readU16_eq hblk (show 208 + 1 < 210 by decide), Option.map_some]
  have hhalves := dequantQ6kHalves_writes fp16ToFloat hblk b 2 (h := 0) rfl
  simp only [Nat.mul_zero, Nat.add_zero] at hhalves
  refine hhalves.mono ?_
  rintro x ⟨i, hi, rfl⟩
  exact ⟨i, hi, Nat.zero_le i, rfl⟩


theorem dequantQ6kRow_writes {data : ℕ → Option UInt8} {row : ℕ → UInt8} {t hiddenDim : ℕ}
    (hdim : 256 ∣ hiddenDim)
    (hrow : ∀ k < hiddenDim / 256 * 210, data (t * (hiddenDim / 256) * 210 + k) = some (row k)) :
    Writes (dequantQ6kRow fp16ToFloat data t hiddenDim) hiddenDim fun x => x.1 < hiddenDim ∧
      x.2 = q6kOutput fp16ToFloat (fun k => row (x.1 / 256 * 210 + k)) (x.1 % 256) := by
  have hrows := writes_blocks fun b (hb : b < hiddenDim / 256) =>
    dequantQ6kBlock_writes fp16ToFloat (fun k => row (b * 210 + k))
      (fun k hk => hrow (b * 210 + k) (by omega)) b
  rwa [Nat.div_mul_cancel hdim] at hrows

end

/-! ### The claim of both rows -/

/-- The bytes of row `t` can be read and are those of the table. Of other places nothing is
said: a decoder that reads one of them is not sure to return. -/
def RowReadable (table : ℕ → UInt8) (t hiddenDim blockBytes : ℕ) (data : ℕ → Option UInt8) : Prop :=
  ∀ k, t * (hiddenDim / 256) * blockBytes ≤ k → k < (t + 1) * (hiddenDim / 256) * blockBytes →
    data k = some (table k)

theorem RowReadable.at {table : ℕ → UInt8} {t hiddenDim blockBytes : ℕ} {data : ℕ → Option UInt8}
    (h : RowReadable table t hiddenDim blockBytes data) {k : ℕ}
    (hk : k < hiddenDim / 256 * blockBytes) :
    data (t * (hiddenDim / 256) * blockBytes + k) =
      some (table (t * (hiddenDim / 256) * blockBytes + k)) := by
  refine h _ (Nat.le_add_right _ _) ?_
  rw [Nat.succ_mul, Nat.add_mul]
  omega

/-- Both decoders read the row only, write each output once, and write there what the block
format says; the formats use each bit once. -/
theorem dequantRow_decodes {F : Type} [Mul F] [Sub F] [IntCast F] (fp16ToFloat : UInt16 → F)
    (table : ℕ → UInt8) (t hiddenDim : ℕ) (hdim : 256 ∣ hiddenDim) :
    (∀ data, RowReadable table t hiddenDim 144 data →
      ∃ writes, dequantQ4kRow fp16ToFloat data t hiddenDim = some writes ∧
        (writes.map Prod.fst).Perm (List.range hiddenDim) ∧
        ∀ i < hiddenDim, (i, q4kOutput fp16ToFloat
          (fun k => table (t * (hiddenDim / 256) * 144 + (i / 256 * 144 + k))) (i % 256)) ∈ writes) ∧
    (∀ data, RowReadable table t hiddenDim 210 data →
      ∃ writes, dequantQ6kRow fp16ToFloat data t hiddenDim = some writes ∧
        (writes.map Prod.fst).Perm (List.range hiddenDim) ∧
        ∀ i < hiddenDim, (i, q6kOutput fp16ToFloat
          (fun k => table (t * (hiddenDim / 256) * 210 + (i / 256 * 210 + k))) (i % 256)) ∈ writes) ∧
    EachBitOnce 16 6 12 q4kScaleBit ∧ EachBitOnce 256 4 128 q4kQuantBit ∧
    EachBitOnce 256 6 192 q6kQuantBit := by
  refine ⟨fun data hdata => ?_, fun data hdata => ?_, q4kScaleBit_once, q4kQuantBit_once,
    q6kQuantBit_once⟩
  · exact (dequantQ4kRow_writes fp16ToFloat hdim fun k hk => hdata.at hk).indices
  · exact (dequantQ6kRow_writes fp16ToFloat hdim fun k hk => hdata.at hk).indices

/-- The second row of a table of one-block rows, with nothing else to read. -/
theorem dequantRow_decodes_second :
    ∃ writes, dequantQ6kRow (fun h => (h.toNat : ℚ))
        (fun k => if 210 ≤ k ∧ k < 420 then some 7 else none) 1 256 = some writes ∧
      (writes.map Prod.fst).Perm (List.range 256) := by
  obtain ⟨-, hq6k, -⟩ :=
    dequantRow_decodes (fun h => (h.toNat : ℚ)) (fun _ => 7) 1 256 (Nat.dvd_refl 256)
  obtain ⟨writes, hrun, hperm, -⟩ := hq6k (fun k => if 210 ≤ k ∧ k < 420 then some 7 else none)
    fun k hfrom hto => if_pos ⟨hfrom, hto⟩
  exact ⟨writes, hrun, hperm⟩

end JLLM
