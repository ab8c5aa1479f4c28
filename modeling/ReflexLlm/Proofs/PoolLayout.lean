import ReflexLlm.Spec.Transformer

/-! The pool as two banks of rows. Every pointer is a row of a bank, so rows are
disjoint and in bounds; attention indexes one bank from its first row, which
says for which positions it finds the rows that were stored. -/

namespace JLLM

open ByteMem

theorem Config.entryBytes_eq (c : Config) : c.entryBytes = 2 * c.rowBytes := by
  simp only [entryBytes, rowBytes]
  ring

@[simp] theorem Config.entryBytes_half (c : Config) : c.entryBytes / 2 = c.rowBytes := by
  rw [c.entryBytes_eq, Nat.mul_div_cancel_left _ (by decide)]

theorem Config.gpuPoolBytes_eq (c : Config) :
    c.gpuPoolBytes = bankBytes c.nLayers c.maxContext c.rowBytes := by
  simp only [gpuPoolBytes, bankBytes, entryBytes_eq]
  ring

theorem Config.overflowBytes_eq (c : Config) :
    c.overflowBytes = bankBytes c.nLayers c.overflowContext c.rowBytes := by
  simp only [overflowBytes, bankBytes, entryBytes_eq]
  ring

namespace KVCachePool

variable (p : KVCachePool)

/-- `key_ptr` and `val_ptr` as one function of the half. -/
def rowPtr (layer half pos : ℕ) : Ptr :=
  if half = 0 then p.keyPtr layer pos else p.valPtr layer pos

/-- In the fast pool a row pointer is a row of the bank of `max_context` rows. -/
theorem rowPtr_fast {layer half pos : ℕ} (hhalf : half < 2) (hpos : pos < p.cfg.maxContext) :
    p.rowPtr layer half pos =
      ⟨.gpuPool, rowOffset p.cfg.maxContext p.cfg.rowBytes layer half pos⟩ := by
  interval_cases half <;>
    simp only [rowPtr, keyPtr, valPtr, if_pos hpos, rowOffset_eq, Config.entryBytes_eq,
      Nat.mul_div_cancel_left _ Nat.zero_lt_two, if_true, one_ne_zero, if_false, Nat.zero_mul,
      Nat.add_zero, Nat.one_mul]

/-- Past it, a row of the bank of `overflow_context` rows. -/
theorem rowPtr_overflow {layer half pos : ℕ} (hhalf : half < 2) (hpos : p.cfg.maxContext ≤ pos) :
    p.rowPtr layer half pos =
      ⟨.cpuPool, rowOffset p.cfg.overflowContext p.cfg.rowBytes layer half
        (pos - p.cfg.maxContext)⟩ := by
  interval_cases half <;>
    simp only [rowPtr, keyPtr, valPtr, if_neg (Nat.not_lt.mpr hpos), rowOffset_eq,
      Config.entryBytes_eq, Nat.mul_div_cancel_left _ Nat.zero_lt_two, if_true, one_ne_zero,
      if_false, Nat.zero_mul, Nat.add_zero, Nat.one_mul]

theorem keyPtr_fast {layer pos : ℕ} (hpos : pos < p.cfg.maxContext) :
    p.keyPtr layer pos = ⟨.gpuPool, rowOffset p.cfg.maxContext p.cfg.rowBytes layer 0 pos⟩ :=
  p.rowPtr_fast Nat.zero_lt_two hpos

theorem valPtr_fast {layer pos : ℕ} (hpos : pos < p.cfg.maxContext) :
    p.valPtr layer pos = ⟨.gpuPool, rowOffset p.cfg.maxContext p.cfg.rowBytes layer 1 pos⟩ :=
  p.rowPtr_fast Nat.one_lt_two hpos

/-- A scale pointer is a row of the bank of float rows. -/
theorem kvScalePtr_eq (layer pos : ℕ) (isValue : Bool) :
    p.kvScalePtr layer pos isValue =
      if p.kvScales.isSome ∧ layer < p.cfg.nLayers ∧ pos < p.cfg.maxContext then
        some ⟨.kvScales, rowOffset p.cfg.maxContext p.cfg.nKvHeads layer isValue.toNat pos⟩
      else none := by
  cases hs : p.kvScales with
  | none => simp [kvScalePtr, hs]
  | some m =>
    have htype : p.cfg.kvTypeBytes = 1 := p.scales_int8 (by rw [hs]; rfl)
    by_cases hc : layer < p.cfg.nLayers ∧ pos < p.cfg.maxContext
    · have h₁ : ¬ p.cfg.nLayers ≤ layer := by omega
      have h₂ : ¬ p.cfg.maxContext ≤ pos := by omega
      rw [if_pos ⟨rfl, hc⟩]
      cases isValue <;>
        simp only [kvScalePtr, hs, htype, rowOffset_eq, Option.isNone_some, Bool.false_eq_true,
          if_false, ne_eq, not_true_eq_false, h₁, h₂, if_true, Bool.toNat_true, Bool.toNat_false] <;>
        ring_nf
    · rw [if_neg (by tauto)]
      simp only [kvScalePtr, hs, htype]
      by_cases h₁ : p.cfg.nLayers ≤ layer
      · simp [h₁]
      · simp [h₁, show p.cfg.maxContext ≤ pos by omega]

/-- The bytes of a pool that exists. -/
def blockBytes : Block → ℕ
  | .gpuPool => p.cfg.gpuPoolBytes
  | .cpuPool => p.cfg.overflowBytes
  | .kvScales => p.kvScalesBytes / 4

/-- Every row up to `max_tokens` lies inside its pool. -/
theorem rowPtr_bound {layer half pos : ℕ} (hl : layer < p.cfg.nLayers) (hhalf : half < 2)
    (hpos : pos < p.maxTokens) :
    (p.rowPtr layer half pos).off + p.cfg.rowBytes ≤
      p.blockBytes (p.rowPtr layer half pos).block := by
  by_cases hfast : pos < p.cfg.maxContext
  · rw [p.rowPtr_fast hhalf hfast]
    simp only [blockBytes, Config.gpuPoolBytes_eq]
    exact rowOffset_bound hl hhalf hfast
  · rw [p.rowPtr_overflow hhalf (by omega)]
    simp only [blockBytes, Config.overflowBytes_eq]
    refine rowOffset_bound hl hhalf ?_
    simp only [maxTokens, Config.maxTokens] at hpos
    omega

/-- Different rows up to `max_tokens` are in different pools or do not overlap. -/
theorem rowPtr_disjoint {l half pos l' half' pos' : ℕ} (hh : half < 2) (hh' : half' < 2)
    (hpos : pos < p.maxTokens) (hpos' : pos' < p.maxTokens)
    (hne : (l, half, pos) ≠ (l', half', pos')) :
    (p.rowPtr l half pos).block ≠ (p.rowPtr l' half' pos').block ∨
      (p.rowPtr l half pos).off + p.cfg.rowBytes ≤ (p.rowPtr l' half' pos').off ∨
      (p.rowPtr l' half' pos').off + p.cfg.rowBytes ≤ (p.rowPtr l half pos).off := by
  simp only [maxTokens, Config.maxTokens] at hpos hpos'
  by_cases hf : pos < p.cfg.maxContext <;> by_cases hf' : pos' < p.cfg.maxContext
  · rw [p.rowPtr_fast hh hf, p.rowPtr_fast hh' hf']
    exact Or.inr (rowOffset_disjoint hh hh' hf hf' hne)
  · rw [p.rowPtr_fast hh hf, p.rowPtr_overflow hh' (by omega)]
    exact Or.inl (by simp)
  · rw [p.rowPtr_overflow hh (by omega), p.rowPtr_fast hh' hf']
    exact Or.inl (by simp)
  · rw [p.rowPtr_overflow hh (by omega), p.rowPtr_overflow hh' (by omega)]
    refine Or.inr (rowOffset_disjoint hh hh' (by omega) (by omega) ?_)
    simp only [ne_eq, Prod.mk.injEq] at hne ⊢
    omega

/-- The bytes of a key row (`half = 0`) or value row (`half = 1`). -/
def row (layer half pos : ℕ) : List UInt8 :=
  p.load (p.rowPtr layer half pos) p.cfg.rowBytes

theorem rowPtr_congr {p q : KVCachePool} (h : p.cfg = q.cfg) (l half pos : ℕ) :
    p.rowPtr l half pos = q.rowPtr l half pos := by
  simp only [rowPtr, keyPtr, valPtr, h]

theorem row_fast {l half pos : ℕ} (hhalf : half < 2) (hpos : pos < p.cfg.maxContext) :
    p.row l half pos =
      p.gpuPool.read (rowOffset p.cfg.maxContext p.cfg.rowBytes l half pos) p.cfg.rowBytes := by
  rw [row, p.rowPtr_fast hhalf hpos]
  rfl

theorem row_overflow {cpu : Mem} (hcpu : p.cpuPool = some cpu) {l half : ℕ} (i : ℕ)
    (hhalf : half < 2) :
    p.row l half (p.cfg.maxContext + i) =
      cpu.read (rowOffset p.cfg.overflowContext p.cfg.rowBytes l half i) p.cfg.rowBytes := by
  rw [row, p.rowPtr_overflow hhalf (by omega), Nat.add_sub_cancel_left]
  simp only [load, hcpu, Option.getD_some]

end KVCachePool

/-! ### What attention reads -/

/-- For every position up to `pos`, attention's index arithmetic arrives at the
key row, the value row and in INT8 mode the scale rows that the store of that
position was given. -/
def AttentionReadsStored (p : KVCachePool) (kvInt8 : Bool) (layer pos : ℕ) : Prop :=
  ∀ q, q ≤ pos →
    attnKeyPtr p kvInt8 layer q = p.keyPtr layer q ∧
    attnValPtr p kvInt8 layer q = p.valPtr layer q ∧
    (kvInt8 = true → ∀ isValue, (p.kvScalePtr layer q isValue).isSome ∧
      attnScalePtr p layer q isValue = p.kvScalePtr layer q isValue)

section

variable (p : KVCachePool) (kvInt8 : Bool) (layer : ℕ)

/-- The key pointer advances by one row within a pool. -/
theorem keyPtr_add {q : ℕ} (hq : q < p.cfg.maxContext ∨ p.cfg.maxContext = 0) :
    (p.keyPtr layer 0).add (q * p.cfg.rowBytes) = p.keyPtr layer q := by
  rcases hq with hq | hq
  · rw [p.keyPtr_fast hq, p.keyPtr_fast (Nat.zero_lt_of_lt hq)]
    simp only [Ptr.add, rowOffset_eq, Nat.zero_mul, Nat.add_zero]
  · simp [KVCachePool.keyPtr, hq, Ptr.add]

/-- The value pointer advances by one row within a pool. -/
theorem valPtr_add {q : ℕ} (hq : q < p.cfg.maxContext ∨ p.cfg.maxContext = 0) :
    (p.valPtr layer 0).add (q * p.cfg.rowBytes) = p.valPtr layer q := by
  rcases hq with hq | hq
  · rw [p.valPtr_fast hq, p.valPtr_fast (Nat.zero_lt_of_lt hq)]
    simp only [Ptr.add, rowOffset_eq, Nat.zero_mul, Nat.add_zero]
  · simp [KVCachePool.valPtr, hq, Ptr.add]

/-- Past the fast pool the key row is in another allocation. -/
theorem keyPtr_leaves {q : ℕ} (h0 : 0 < p.cfg.maxContext) (hq : p.cfg.maxContext ≤ q) :
    attnKeyPtr p kvInt8 layer q ≠ p.keyPtr layer q := by
  intro h
  have hblock := congrArg Ptr.block h
  have hq' : ¬ q < p.cfg.maxContext := by omega
  simp [attnKeyPtr, Ptr.add, KVCachePool.keyPtr, h0, hq'] at hblock

/-- In FP16 mode attention arrives at the stored rows exactly while the position
is in the pool that position zero is in and the stored rows are halves. -/
theorem attentionReadsStored_fp16 (pos : ℕ) :
    AttentionReadsStored p false layer pos ↔
      (pos < p.cfg.maxContext ∨ p.cfg.maxContext = 0) ∧
        (p.cfg.kvTypeBytes = 2 ∨ pos = 0 ∨ p.cfg.nKvHeads * p.cfg.headDim = 0) := by
  have hrow : attnRowBytes p.cfg false = p.cfg.nKvHeads * p.cfg.headDim * 2 := rfl
  constructor
  · intro h
    have hpool : pos < p.cfg.maxContext ∨ p.cfg.maxContext = 0 := by
      by_contra hc
      exact keyPtr_leaves p false layer (by omega) (by omega) (h pos le_rfl).1
    refine ⟨hpool, ?_⟩
    by_contra hc
    have h1 : 1 < p.cfg.maxContext ∨ p.cfg.maxContext = 0 := by omega
    have hkey := (h 1 (by omega)).1
    rw [attnKeyPtr, ← keyPtr_add p layer h1, hrow] at hkey
    have hoff : p.cfg.nKvHeads * p.cfg.headDim * 2 = p.cfg.rowBytes := by
      simpa [Ptr.add] using congrArg Ptr.off hkey
    have := Nat.eq_of_mul_eq_mul_left (Nat.pos_of_ne_zero (by tauto)) hoff
    omega
  · rintro ⟨hpool, hwidth⟩ q hq
    have hstride : q * attnRowBytes p.cfg false = q * p.cfg.rowBytes := by
      rw [hrow, Config.rowBytes]
      rcases hwidth with h2 | h0 | hz
      · rw [h2]
      · rw [show q = 0 by omega, Nat.zero_mul, Nat.zero_mul]
      · rw [hz, Nat.zero_mul, Nat.zero_mul]
    have hqpool : q < p.cfg.maxContext ∨ p.cfg.maxContext = 0 := by omega
    refine ⟨?_, ?_, by simp⟩
    · rw [attnKeyPtr, hstride, keyPtr_add p layer hqpool]
    · rw [attnValPtr, hstride, valPtr_add p layer hqpool]

/-- In INT8 mode the scale rows exist for the fast pool only. -/
theorem attentionReadsStored_int8 {layer : ℕ} (hl : layer < p.cfg.nLayers) (pos : ℕ) :
    AttentionReadsStored p true layer pos ↔
      p.kvScales.isSome ∧ pos < p.cfg.maxContext := by
  constructor
  · intro h
    have hsome := ((h pos le_rfl).2.2 rfl false).1
    rw [p.kvScalePtr_eq] at hsome
    by_cases hc : p.kvScales.isSome ∧ layer < p.cfg.nLayers ∧ pos < p.cfg.maxContext
    · exact ⟨hc.1, hc.2.2⟩
    · simp [if_neg hc] at hsome
  · rintro ⟨hs, hpos⟩ q hq
    have htype := p.scales_int8 hs
    have hqpool : q < p.cfg.maxContext := by omega
    have hstride : attnRowBytes p.cfg true = p.cfg.rowBytes := by
      simp [attnRowBytes, Config.rowBytes, htype]
    refine ⟨?_, ?_, fun _ isValue => ?_⟩
    · rw [attnKeyPtr, hstride, keyPtr_add p layer (Or.inl hqpool)]
    · rw [attnValPtr, hstride, valPtr_add p layer (Or.inl hqpool)]
    · rw [attnScalePtr, p.kvScalePtr_eq, p.kvScalePtr_eq, if_pos ⟨hs, hl, hqpool⟩,
        if_pos ⟨hs, hl, by omega⟩]
      refine ⟨rfl, ?_⟩
      simp only [Option.map_some, Ptr.add, rowOffset_eq, Nat.zero_mul, Nat.add_zero]

/-- Attention reads the rows that were stored for the positions of the fast pool,
in INT8 mode only if the scales could be allocated; at the first overflow
position it runs on into the value rows of its own layer. -/
theorem attentionReadsStored_iff {layer : ℕ} (hl : layer < p.cfg.nLayers) (pos : ℕ) :
    AttentionReadsStored p kvInt8 layer pos ↔
      if kvInt8 then p.kvScales.isSome ∧ pos < p.cfg.maxContext
      else (pos < p.cfg.maxContext ∨ p.cfg.maxContext = 0) ∧
        (p.cfg.kvTypeBytes = 2 ∨ pos = 0 ∨ p.cfg.nKvHeads * p.cfg.headDim = 0) := by
  cases kvInt8 with
  | false => exact attentionReadsStored_fp16 p layer pos
  | true => exact attentionReadsStored_int8 p hl pos

end

/-- An FP16 pool of four fast and four overflow positions, as `init` returns it. -/
def smallOverflowPool : KVCachePool where
  cfg := ⟨1, 1, 1, 4, 4, 2⟩
  gpuPool := fun _ => 0
  cpuPool := some fun _ => 0
  kvScales := none
  usedTokens := 0
  gpuTokens := 0
  cfg_isInt := by decide
  gpu_fits := by decide
  overflow_backed := fun _ _ => rfl
  overflow_sized := fun _ => by decide
  scales_int8 := fun h => absurd h (by decide)

theorem attentionReadsStored_smallOverflowPool :
    AttentionReadsStored smallOverflowPool false 0 3 ↔
      (3 < 4 ∨ 4 = 0) ∧ (2 = 2 ∨ 3 = 0 ∨ 1 * 1 = 0) :=
  attentionReadsStored_iff smallOverflowPool false (show 0 < 1 by decide) 3

/-- Position four is stored in the overflow pool and read from the fast one. -/
theorem attention_leaves_overflow_position :
    ¬ ∀ (cfg : Config) (hInt : cfg.IsInt) (a : AllocOutcome) (p : KVCachePool),
      cfg.kvTypeBytes = 1 ∨ cfg.kvTypeBytes = 2 → KVCachePool.init cfg hInt a = some p →
      ∀ layer pos, layer < p.cfg.nLayers → pos < p.maxTokens →
        AttentionReadsStored p (p.cfg.kvTypeBytes == 1) layer pos := by
  intro h
  have hinit : KVCachePool.init ⟨1, 1, 1, 4, 4, 2⟩ (by decide) ⟨true, true, true, true⟩ =
      some smallOverflowPool := rfl
  have hread := h _ _ _ _ (Or.inr rfl) hinit 0 4 (by decide) (by decide) 4 le_rfl
  exact absurd hread.1 (by decide)

end JLLM
