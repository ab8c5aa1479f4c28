import Mathlib.Order.Bounds.Basic
import Mathlib.Tactic.FieldSimp
import Mathlib.Tactic.Linarith
import ReflexLlm.Spec.Convert

/-! The INT8 conversion against its purpose: one scale for each row, from the row alone, and
each element within half a step of what is stored for it. -/

namespace JLLM.Convert

open BlockMax Launch

/-! ### Rounding -/

theorem abs_sub_float2intRn_le (x : ℚ) : |x - float2intRn x| ≤ 1 / 2 := by
  have hlow := Int.floor_le x
  have hhigh := Int.lt_floor_add_one x
  rw [float2intRn]
  split_ifs with hbelow habove heven
  · rw [abs_le]
    constructor <;> linarith
  · rw [abs_le]
    push_cast
    constructor <;> linarith
  · rw [abs_le]
    constructor <;> linarith
  · rw [abs_le]
    push_cast
    constructor <;> linarith

theorem abs_float2intRn_le {x : ℚ} {n : ℤ} (hx : |x| ≤ n) : |float2intRn x| ≤ n := by
  have hround := abs_le.mp (abs_sub_float2intRn_le x)
  have hbounds := abs_le.mp hx
  have hhigh : (float2intRn x : ℚ) < ((n + 1 : ℤ) : ℚ) := by
    push_cast
    linarith
  have hlow : ((-n - 1 : ℤ) : ℚ) < float2intRn x := by
    push_cast
    linarith
  have hhigh' := Int.cast_lt.mp hhigh
  have hlow' := Int.cast_lt.mp hlow
  rw [abs_le]
  omega

theorem float2intRn_intCast (n : ℤ) : float2intRn n = n := by
  have hround := abs_le.mp (abs_sub_float2intRn_le n)
  have hhigh : (float2intRn n : ℚ) < ((n + 1 : ℤ) : ℚ) := by
    push_cast
    linarith
  have hlow : ((n - 1 : ℤ) : ℚ) < float2intRn n := by
    push_cast
    linarith
  have hhigh' := Int.cast_lt.mp hhigh
  have hlow' := Int.cast_lt.mp hlow
  omega

/-! ### The largest magnitude of a row -/

/-- The largest magnitude of a row. -/
def rowAbsMax (src : ℕ → ℚ) (cols row : ℕ) : ℚ :=
  (List.range cols).foldl (fun m c => max m |src (row * cols + c)|) 0

section

variable {src : ℕ → ℚ} {cols threads row : ℕ}

theorem le_rowAbsMax {c : ℕ} (hc : c < cols) : |src (row * cols + c)| ≤ rowAbsMax src cols row :=
  (foldl_max_le.mp (le_refl (rowAbsMax src cols row))).2 c (List.mem_range.mpr hc)

theorem rowAbsMax_nonneg : 0 ≤ rowAbsMax src cols row :=
  (foldl_max_le.mp (le_refl (rowAbsMax src cols row))).1

theorem isGreatest_rowAbsMax (hcols : 0 < cols) :
    IsGreatest ((fun c => |src (row * cols + c)|) '' Set.Iio cols) (rowAbsMax src cols row) := by
  refine ⟨?_, ?_⟩
  · rcases foldl_max_mem (fun c => |src (row * cols + c)|) (List.range cols) 0 with h | ⟨c, hc, h⟩
    · have hzero : |src (row * cols + 0)| ≤ 0 := h ▸ le_rowAbsMax hcols
      exact ⟨0, hcols, (le_antisymm hzero (abs_nonneg _)).trans h.symm⟩
    · exact ⟨c, List.mem_range.mp hc, h.symm⟩
  · rintro _ ⟨c, hc, rfl⟩
    exact le_rowAbsMax hc

theorem localMax_le {offset tid : ℕ} {b : ℚ} (htid : tid < threads) :
    localMax src cols threads offset tid ≤ b ↔
      0 ≤ b ∧ ∀ c < cols, c % threads = tid → |src (offset + c)| ≤ b := by
  rw [localMax, foldl_max_le]
  refine and_congr_right fun _ => forall_congr' fun c => ?_
  rw [mem_strided_thread htid, and_imp]

/-- The block finds it, however the columns and the updates fall. -/
theorem rowMax_eq {absent : ℕ → ℕ → ℚ} {order : List ℕ} (hthreads : 0 < threads)
    (horder : order.Perm (List.range threads))
    (habsent : 32 ∣ threads ∨ ∀ off tid, absent off tid ≤ rowAbsMax src cols row) :
    rowMax src cols threads absent order row = rowAbsMax src cols row := by
  have hbounds : 0 ≤ rowMax src cols threads absent order row ∧ ∀ t < threads,
      localMax src cols threads (row * cols) t ≤ rowMax src cols threads absent order row :=
    le_atomicMaxes horder
  refine le_antisymm ?_ (foldl_max_le.mpr ?_)
  · refine atomicMaxes_le habsent horder rowAbsMax_nonneg fun t ht => ?_
    exact (localMax_le ht).mpr ⟨rowAbsMax_nonneg, fun c hc _ => le_rowAbsMax hc⟩
  · refine ⟨hbounds.1, fun c hc => ?_⟩
    have htid : c % threads < threads := Nat.mod_lt c hthreads
    exact ((localMax_le htid).mp (hbounds.2 _ htid)).2 c (List.mem_range.mp hc) rfl

end

/-! ### One element -/

theorem invScale_zero : invScale 0 = 0 := by simp [invScale]

theorem invScale_of_pos {m : ℚ} (hm : 0 < m) : invScale m = 127 / m :=
  if_pos (div_pos hm (by norm_num))

theorem quantize_zero (x : ℚ) : quantize 0 x = 0 := by
  rw [quantize, invScale_zero, mul_zero]
  exact float2intRn_intCast 0

/-- The clamp has nothing to do. -/
theorem abs_quantize_le {m x : ℚ} (hx : |x| ≤ m) : |quantize m x| ≤ 127 := by
  rcases (abs_nonneg x).trans hx |>.eq_or_lt with hm | hm
  · rw [← hm, quantize_zero]
    decide
  · refine abs_float2intRn_le ?_
    rw [invScale_of_pos hm, abs_mul, abs_of_pos (div_pos (by norm_num) hm), ← mul_div_assoc,
      div_le_iff₀ hm]
    push_cast
    linarith

/-- Half a step. -/
theorem abs_sub_quantize_le {m x : ℚ} (hx : |x| ≤ m) :
    |x - quantize m x * (m / 127)| ≤ m / 127 / 2 := by
  rcases (abs_nonneg x).trans hx |>.eq_or_lt with hm | hm
  · obtain rfl : x = 0 := abs_nonpos_iff.mp (hm ▸ hx)
    simp [← hm]
  · have hround := abs_sub_float2intRn_le (x * (127 / m))
    have hstep : 0 < m / 127 := div_pos hm (by norm_num)
    have hscaled : x - quantize m x * (m / 127) =
        (x * (127 / m) - float2intRn (x * (127 / m))) * (m / 127) := by
      rw [quantize, invScale_of_pos hm]
      field_simp
    rw [hscaled, abs_mul, abs_of_pos hstep]
    calc |x * (127 / m) - float2intRn (x * (127 / m))| * (m / 127)
        ≤ 1 / 2 * (m / 127) := mul_le_mul_of_nonneg_right hround hstep.le
      _ = m / 127 / 2 := by ring

theorem quantize_largest {m x : ℚ} (hm : 0 < m) (hx : |x| = m) :
    quantize m x = 127 ∨ quantize m x = -127 := by
  rw [quantize, invScale_of_pos hm]
  rcases abs_choice x with habs | habs
  · have hx' : x * (127 / m) = ((127 : ℤ) : ℚ) := by
      rw [← hx, habs] at hm ⊢
      push_cast
      field_simp
    rw [hx', float2intRn_intCast]
    exact .inl rfl
  · have hx' : x * (127 / m) = ((-127 : ℤ) : ℚ) := by
      have hx'' : x = -m := by linarith
      rw [hx'']
      push_cast
      field_simp
    rw [hx', float2intRn_intCast]
    exact .inr rfl

/-! ### The stores -/

section

variable {src : ℕ → ℚ} {rows cols threads : ℕ} {scaleOut : Bool} {m : ℕ → ℚ}

instance : Nonempty Int8Cell := ⟨.float 0⟩

theorem fp16ToInt8Kernel_of_lt {row tid : ℕ} (hrow : row < rows) :
    fp16ToInt8Kernel src rows cols threads scaleOut m row tid =
      storeScale scaleOut (m row) row tid >>= fun _ =>
        storeColumns src cols threads (m row) row tid :=
  if_neg (Nat.not_le_of_lt hrow)

theorem fp16ToInt8Kernel_touches {row tid : ℕ} {loc : Int8Array × ℕ} (hrow : row < rows)
    (htid : tid < threads) :
    (fp16ToInt8Kernel src rows cols threads scaleOut m row tid).Touches loc ↔
      ((tid = 0 ∧ scaleOut = true) ∧ (.scaleOut, row) = loc) ∨
        ∃ c, (c < cols ∧ c % threads = tid) ∧ (.dst, row * cols + c) = loc := by
  rw [fp16ToInt8Kernel_of_lt hrow, Thread.touches_bind]
  refine or_congr ?_ ?_
  · rw [storeScale]
    split_ifs with hscale
    · rw [Thread.touches_write]
      exact (and_iff_right hscale).symm
    · exact ⟨False.elim, fun h => hscale h.1⟩
  · rw [storeColumns, Thread.touches_forM_write]
    refine exists_congr fun c => ?_
    rw [mem_strided_thread htid]

/-- The thread that a place belongs to. -/
def int8Owner (cols threads : ℕ) : Int8Array × ℕ → ℕ × ℕ
  | (.scaleOut, row) => (row, 0)
  | (.dst, i) => (i / cols, i % cols % threads)

theorem int8Owner_dst {row c : ℕ} (hc : c < cols) :
    int8Owner cols threads (.dst, row * cols + c) = (row, c % threads) := by
  have hdiv : (row * cols + c) / cols = row := by
    rw [Nat.mul_comm, Nat.mul_add_div (Nat.zero_lt_of_lt hc), Nat.div_eq_of_lt hc, Nat.add_zero]
  have hmod : (row * cols + c) % cols = c := by
    rw [Nat.mul_comm, Nat.mul_add_mod, Nat.mod_eq_of_lt hc]
  rw [int8Owner, hdiv, hmod]

theorem fp16ToInt8_separate :
    Separate (launch rows threads (fp16ToInt8Kernel src rows cols threads scaleOut m)) := by
  have hown {p : ℕ × ℕ} {loc : Int8Array × ℕ}
      (h : (launch rows threads (fp16ToInt8Kernel src rows cols threads scaleOut m) p).Touches loc) :
      int8Owner cols threads loc = p := by
    obtain ⟨⟨hrow, htid⟩, h⟩ := launch_touches.mp h
    rcases (fp16ToInt8Kernel_touches hrow htid).mp h with ⟨⟨hzero, -⟩, rfl⟩ | ⟨c, ⟨hc, hmod⟩, rfl⟩
    · exact Prod.ext rfl hzero.symm
    · rw [int8Owner_dst hc, hmod]
  exact fun _ _ _ hp hq => (hown hp).symm.trans (hown hq)

theorem fp16ToInt8Kernel_run_scale {row : ℕ} (hrow : row < rows)
    (mem : Int8Array × ℕ → Int8Cell) :
    ((fp16ToInt8Kernel src rows cols threads true m row 0).run mem).2 (.scaleOut, row) =
      .float (m row / 127) := by
  rw [fp16ToInt8Kernel_of_lt hrow, Thread.run_bind]
  have hcolumns : ¬ (storeColumns src cols threads (m row) row 0).Touches (.scaleOut, row) := by
    rw [storeColumns, Thread.touches_forM_write]
    rintro ⟨c, -, heq⟩
    simp at heq
  rw [Thread.run_untouched hcolumns, storeScale, if_pos ⟨rfl, rfl⟩]
  exact Function.update_self _ _ _

theorem fp16ToInt8Kernel_run_dst {row c : ℕ} (hrow : row < rows) (hthreads : 0 < threads)
    (hc : c < cols) (mem : Int8Array × ℕ → Int8Cell) :
    ((fp16ToInt8Kernel src rows cols threads scaleOut m row (c % threads)).run mem).2
        (.dst, row * cols + c) =
      .int8 (Int8.ofInt (max (-127) (min 127 (quantize (m row) (src (row * cols + c)))))) := by
  rw [fp16ToInt8Kernel_of_lt hrow, Thread.run_bind]
  have hinj : Function.Injective fun c => (Int8Array.dst, row * cols + c) := by
    intro a b heq
    simpa using heq
  exact Thread.run_forM_write hinj _ ((mem_strided_thread (Nat.mod_lt c hthreads)).mpr ⟨hc, rfl⟩) _

theorem fp16ToInt8Kernel_stores {row c : ℕ} (hrow : row < rows) (hthreads : 0 < threads)
    (hc : c < cols) : (fp16ToInt8Kernel src rows cols threads scaleOut m row (c % threads)).Stores
      (.dst, row * cols + c) := by
  rw [fp16ToInt8Kernel_of_lt hrow]
  refine Thread.Stores.bind_right _ fun _ => ?_
  exact Thread.stores_forM_write (fun c => (Int8Array.dst, row * cols + c)) _
    ((mem_strided_thread (Nat.mod_lt c hthreads)).mpr ⟨hc, rfl⟩)

variable {mem mem' : Int8Array × ℕ → Int8Cell}

theorem scale_stored
    (hends : Ends (launch rows threads (fp16ToInt8Kernel src rows cols threads true m)) mem mem')
    {row : ℕ} (hrow : row < rows) (hthreads : 0 < threads) :
    mem' (.scaleOut, row) = .float (m row / 127) := by
  rw [hends.launch_own fp16ToInt8_separate hrow hthreads
    ((fp16ToInt8Kernel_touches hrow hthreads).mpr (.inl ⟨⟨rfl, rfl⟩, rfl⟩))]
  exact fp16ToInt8Kernel_run_scale hrow mem

theorem element_stored
    (hends : Ends (launch rows threads (fp16ToInt8Kernel src rows cols threads scaleOut m)) mem mem')
    {row c : ℕ} (hrow : row < rows) (hthreads : 0 < threads) (hc : c < cols) :
    mem' (.dst, row * cols + c) =
      .int8 (Int8.ofInt (max (-127) (min 127 (quantize (m row) (src (row * cols + c)))))) := by
  have htid : c % threads < threads := Nat.mod_lt c hthreads
  rw [hends.launch_own fp16ToInt8_separate hrow htid
    ((fp16ToInt8Kernel_touches hrow htid).mpr (.inr ⟨c, ⟨hc, rfl⟩, rfl⟩))]
  exact fp16ToInt8Kernel_run_dst hrow hthreads hc mem

end

/-- What may be stored for `x` in a row whose largest magnitude is `m`. -/
structure Quantized (m x : ℚ) (q : Int8) : Prop where
  unclamped : q.toInt = quantize m x
  bounded : |q.toInt| ≤ 127
  close : |x - q.toInt * (m / 127)| ≤ m / 127 / 2
  largest : 0 < m → |x| = m → q.toInt = 127 ∨ q.toInt = -127
  zero : m = 0 → q = 0

theorem quantized_clamp {m x : ℚ} (hx : |x| ≤ m) :
    Quantized m x (Int8.ofInt (max (-127) (min 127 (quantize m x)))) := by
  have hbound := abs_quantize_le hx
  have hrange := abs_le.mp hbound
  rw [min_eq_right hrange.2, max_eq_right hrange.1]
  have hq : (Int8.ofInt (quantize m x)).toInt = quantize m x :=
    Int8.toInt_ofInt_of_le (by omega) (by omega)
  refine ⟨hq, ?_, ?_, fun hm hlargest => ?_, fun hm => ?_⟩
  · rwa [hq]
  · rw [hq]
    exact abs_sub_quantize_le hx
  · rw [hq]
    exact quantize_largest hm hlargest
  · rw [hm, quantize_zero]
    rfl

/-- The conversion of every row of every matrix, for every schedule of the stores and every order
of the updates of `row_max`. A block that does not fill its last warp reads from absent lanes, and
then nothing above the row's largest magnitude may come from there. -/
theorem fp16ToInt8_quantizes (src : ℕ → ℚ) (rows cols threads : ℕ) (hcols : 0 < cols)
    (hthreads : 0 < threads) (scaleOut : Bool) (absent : ℕ → ℕ → ℕ → ℚ) (order : ℕ → List ℕ)
    (horder : ∀ row < rows, (order row).Perm (List.range threads))
    (habsent : 32 ∣ threads ∨
      ∀ row < rows, ∀ off tid, absent row off tid ≤ rowAbsMax src cols row)
    (mem : Int8Array × ℕ → Int8Cell) :
    let run := fp16ToInt8 src rows cols threads scaleOut absent order
    (∃ mem', Ends run mem mem') ∧
    (∀ mem', Ends run mem mem' → ∀ row < rows,
      IsGreatest ((fun c => |src (row * cols + c)|) '' Set.Iio cols) (rowAbsMax src cols row) ∧
      (scaleOut = true → mem' (.scaleOut, row) = .float (rowAbsMax src cols row / 127)) ∧
      (∀ c < cols, ∃ q, mem' (.dst, row * cols + c) = .int8 q ∧
        Quantized (rowAbsMax src cols row) (src (row * cols + c)) q) ∧
      ((∀ c < cols, src (row * cols + c) = 0) → rowAbsMax src cols row / 127 = 0 ∧
        ∀ c < cols, mem' (.dst, row * cols + c) = .int8 0)) ∧
    ∀ row < rows, ∀ c < cols, ∃! p, (run p).Stores (.dst, row * cols + c) := by
  refine ⟨exists_ends_launch _ _ _ mem, fun mem' hends row hrow => ?_, fun row hrow c hc => ?_⟩
  · have hmax : rowMax src cols threads (absent row) (order row) row = rowAbsMax src cols row :=
      rowMax_eq hthreads (horder row hrow) (habsent.imp id fun h => h row hrow)
    have helement : ∀ c < cols, ∃ q, mem' (.dst, row * cols + c) = .int8 q ∧
        Quantized (rowAbsMax src cols row) (src (row * cols + c)) q := fun c hc =>
      ⟨_, hmax ▸ element_stored hends hrow hthreads hc, quantized_clamp (le_rowAbsMax hc)⟩
    refine ⟨isGreatest_rowAbsMax hcols, ?_, helement, fun hzero => ?_⟩
    · rintro rfl
      exact hmax ▸ scale_stored hends hrow hthreads
    · have hrowzero : rowAbsMax src cols row = 0 := by
        refine le_antisymm (foldl_max_le.mpr ⟨le_rfl, fun c hc => ?_⟩) rowAbsMax_nonneg
        rw [hzero c (List.mem_range.mp hc), abs_zero]
      refine ⟨by rw [hrowzero, zero_div], fun c hc => ?_⟩
      obtain ⟨q, hq, hquantized⟩ := helement c hc
      rw [hq, hquantized.zero hrowzero]
  · have htid : c % threads < threads := Nat.mod_lt c hthreads
    refine fp16ToInt8_separate.existsUnique_stores (t := (row, c % threads)) ?_
    rw [launch_of_lt _ hrow htid]
    exact fp16ToInt8Kernel_stores hrow hthreads hc

/-- A full warp over one row of three columns. -/
theorem fp16ToInt8_quantizes_row :
    ∃ mem', Ends (fp16ToInt8 (fun i => (i : ℚ) - 1) 1 3 32 true (fun _ _ _ => 7) fun _ =>
        List.range 32) (fun _ => .float 0) mem' ∧
      mem' (.scaleOut, 0) = .float (rowAbsMax (fun i => (i : ℚ) - 1) 3 0 / 127) := by
  obtain ⟨⟨mem', hends⟩, hrows, -⟩ := fp16ToInt8_quantizes (fun i => (i : ℚ) - 1) 1 3 32 (by decide)
    (by decide) true (fun _ _ _ => 7) (fun _ => List.range 32) (fun _ _ => List.Perm.refl _)
    (.inl (Nat.dvd_refl 32)) fun _ => .float 0
  exact ⟨mem', hends, (hrows mem' hends 0 (by decide)).2.1 rfl⟩

/-- One thread alone: the shuffles read from the lanes that are missing, and the scale is not that
of the row. -/
theorem scale_of_absent_lane :
    ∃ mem', Ends (fp16ToInt8 (fun _ => 1) 1 1 1 true (fun _ _ _ => 254) fun _ => [0])
        (fun _ => .float 0) mem' ∧
      mem' (.scaleOut, 0) = .float 2 ∧ rowAbsMax (fun _ => 1) 1 0 / 127 = 1 / 127 := by
  obtain ⟨mem', hends⟩ := exists_ends_launch 1 1 (fp16ToInt8Kernel (fun _ => 1) 1 1 1 true fun row =>
    rowMax (fun _ => 1) 1 1 (fun _ _ => 254) [0] row) fun _ => .float 0
  have hmax : rowMax (fun _ => 1) 1 1 (fun _ _ => 254) [0] 0 = 254 := by
    norm_num [rowMax, atomicMaxes, warpReduce, shuffleMax, localMax, strided]
  refine ⟨mem', hends, ?_, ?_⟩
  · rw [scale_stored hends Nat.one_pos Nat.one_pos, hmax]
    norm_num
  · norm_num [rowAbsMax]

end JLLM.Convert
