import ReflexLlm.Proofs.StorageWidth

/-! The pool as `init` leaves it: which of its blocks exist, and that the rows behind its
pointers lie in them and apart from each other. -/

namespace JLLM

open ByteMem

/-- The overflow positions that are left when the overflow pool cannot be allocated. -/
def AllocOutcome.keptOverflow (a : AllocOutcome) (cfg : Config) : ℕ :=
  if 0 < cfg.overflowContext ∧ 0 < cfg.overflowBytes ∧ a.mallocOverflow = false then 0
  else cfg.overflowContext

/-- A pool that `init` returns true with. -/
structure Initialised (cfg : Config) (a : AllocOutcome) (p : KVCachePool) : Prop where
  fits : cfg.gpuPoolBytes < 2 ^ 63
  fast : a.cudaMallocFast = true ∧ a.cudaMemsetFast = true
  shape : p.cfg = { cfg with overflowContext := a.keptOverflow cfg }
  cpu : p.cpuPool.isSome = true ↔
    0 < cfg.overflowContext ∧ 0 < cfg.overflowBytes ∧ a.mallocOverflow = true
  scales : p.kvScales.isSome = true ↔ cfg.kvTypeBytes = 1 ∧ a.cudaMallocScales = true

theorem init_initialised {cfg : Config} {hInt : cfg.IsInt} {a : AllocOutcome} {p : KVCachePool}
    (h : KVCachePool.init cfg hInt a = some p) : Initialised cfg a p := by
  have hscales : (if cfg.kvTypeBytes = 1 ∧ a.cudaMallocScales = true then some fun _ => 0
      else none : Option (ℕ → UInt32)).isSome = true ↔
        cfg.kvTypeBytes = 1 ∧ a.cudaMallocScales = true := by
    split_ifs with hc
    · simp [hc]
    · simp [hc]
  unfold KVCachePool.init at h
  by_cases hfits : cfg.gpuPoolBytes < 2 ^ 63
  swap
  · rw [dif_neg hfits] at h
    cases h
  rw [dif_pos hfits] at h
  by_cases hfast : (a.cudaMallocFast && a.cudaMemsetFast) = true
  swap
  · rw [if_neg hfast] at h
    cases h
  rw [if_pos hfast] at h
  simp only at h
  rw [Bool.and_eq_true] at hfast
  by_cases hover : 0 < cfg.overflowContext ∧ 0 < cfg.overflowBytes
  · rw [dif_pos hover] at h
    cases hmalloc : a.mallocOverflow with
    | true =>
      rw [hmalloc, if_pos rfl] at h
      obtain rfl := Option.some.inj h
      exact ⟨hfits, hfast, by simp [AllocOutcome.keptOverflow, hmalloc], by simp [hover, hmalloc],
        hscales⟩
    | false =>
      rw [hmalloc, if_neg Bool.false_ne_true] at h
      obtain rfl := Option.some.inj h
      exact ⟨hfits, hfast, by simp [AllocOutcome.keptOverflow, hmalloc, hover], by simp [hmalloc],
        hscales⟩
  · rw [dif_neg hover] at h
    obtain rfl := Option.some.inj h
    have hkept : a.keptOverflow cfg = cfg.overflowContext :=
      if_neg fun hc => hover ⟨hc.1, hc.2.1⟩
    refine ⟨hfits, hfast, by rw [hkept], ?_, hscales⟩
    simp only [Option.isSome_none, Bool.false_eq_true, false_iff]
    exact fun hc => hover ⟨hc.1, hc.2.1⟩

theorem init_isSome_iff (cfg : Config) (hInt : cfg.IsInt) (a : AllocOutcome) :
    (KVCachePool.init cfg hInt a).isSome = true ↔
      cfg.gpuPoolBytes < 2 ^ 63 ∧ a.cudaMallocFast = true ∧ a.cudaMemsetFast = true := by
  constructor
  · intro h
    obtain ⟨p, hp⟩ := Option.isSome_iff_exists.mp h
    exact ⟨(init_initialised hp).fits, (init_initialised hp).fast⟩
  · rintro ⟨hfits, hmalloc, hmemset⟩
    unfold KVCachePool.init
    simp only [dif_pos hfits, hmalloc, hmemset, Bool.and_self, if_true]
    split_ifs <;> rfl

/-- The blocks of a pool. -/
def KVCachePool.blocks (p : KVCachePool) : List Block :=
  (if p.kvScales.isSome then [.kvScales] else []) ++ (if p.cpuPool.isSome then [.cpuPool] else []) ++
    [.gpuPool]

/-- `init` keeps the blocks that its pointers point to, and none when it returns false. -/
theorem initBlocks_eq (cfg : Config) (hInt : cfg.IsInt) (a : AllocOutcome) :
    (KVCachePool.initBlocks cfg a).run [] =
      match KVCachePool.init cfg hInt a with
      | none => (false, [])
      | some p => (true, p.blocks) := by
  have hsome := init_isSome_iff cfg hInt a
  unfold KVCachePool.initBlocks
  cases hmalloc : decide (cfg.gpuPoolBytes < 2 ^ 63) && a.cudaMallocFast with
  | false =>
    have hnone : KVCachePool.init cfg hInt a = none := by
      rw [Bool.and_eq_false_iff, decide_eq_false_iff_not] at hmalloc
      rw [← Option.not_isSome_iff_eq_none, hsome]
      rintro ⟨hfits, hfast, -⟩
      rcases hmalloc with h | h
      · exact h hfits
      · rw [hfast] at h
        cases h
    rw [hnone]
    rfl
  | true =>
    rw [Bool.and_eq_true, decide_eq_true_eq] at hmalloc
    cases hmemset : a.cudaMemsetFast with
    | false =>
      have hnone : KVCachePool.init cfg hInt a = none := by
        rw [← Option.not_isSome_iff_eq_none, hsome, hmemset]
        simp
      rw [hnone]
      rfl
    | true =>
      obtain ⟨p, hp⟩ := Option.isSome_iff_exists.mp (hsome.mpr ⟨hmalloc.1, hmalloc.2, hmemset⟩)
      obtain ⟨-, -, -, hcpu, hscales⟩ := init_initialised hp
      rw [hp]
      simp only [KVCachePool.blocks, hscales, hcpu]
      by_cases hover : 0 < cfg.overflowContext ∧ 0 < cfg.overflowBytes <;>
        by_cases hint8 : cfg.kvTypeBytes = 1 <;> cases a.mallocOverflow <;>
        cases a.cudaMallocScales <;> simp [hover, hint8] <;> rfl

/-! ### The layout -/

/-- A range of a block whose bytes an `int64_t` can count. -/
def Within (size : ℕ) (p : Ptr) (len : ℕ) : Prop := p.off + len ≤ size ∧ size < 2 ^ 63

section

variable {cfg : Config} {hInt : cfg.IsInt} {a : AllocOutcome} {p : KVCachePool}
  (h : KVCachePool.init cfg hInt a = some p)

include h

theorem init_overflow_kept (hpos : p.cfg.maxContext < p.maxTokens) :
    p.cfg = cfg ∧ 0 < cfg.overflowContext := by
  have hp := init_initialised h
  rw [KVCachePool.maxTokens, Config.maxTokens, hp.shape] at hpos
  have hkept : 0 < a.keptOverflow cfg := by
    change cfg.maxContext < cfg.maxContext + a.keptOverflow cfg at hpos
    omega
  rw [hp.shape]
  unfold AllocOutcome.keptOverflow at hkept ⊢
  split_ifs at hkept ⊢
  · exact absurd hkept (lt_irrefl 0)
  · exact ⟨rfl, hkept⟩

/-- With rows that have bytes, every overflow position has a place in the overflow pool. -/
theorem init_overflow_backed (hbytes : 0 < cfg.nLayers * cfg.entryBytes)
    (hpos : p.cfg.maxContext < p.maxTokens) : p.cpuPool.isSome = true := by
  obtain ⟨hcfg, hover⟩ := init_overflow_kept h hpos
  have hoverflow : 0 < cfg.overflowBytes := Nat.mul_pos hbytes hover
  exact p.overflow_backed (by rwa [hcfg]) (by rwa [hcfg])

/-- A key or value row lies in the pool of its position. -/
theorem slotPtr_within (hbytes : 0 < cfg.nLayers * cfg.entryBytes)
    (hfits : cfg.gpuPoolBytes + cfg.overflowBytes < 2 ^ 63) {layer pos : ℕ}
    (hl : layer < p.cfg.nLayers) (hpos : pos < p.maxTokens) (isValue : Bool) :
    if pos < p.cfg.maxContext then
      (p.slotPtr isValue layer pos).block = .gpuPool ∧
        Within cfg.gpuPoolBytes (p.slotPtr isValue layer pos) (p.cfg.entryBytes / 2)
    else
      p.cpuPool.isSome = true ∧ (p.slotPtr isValue layer pos).block = .cpuPool ∧
        Within cfg.overflowBytes (p.slotPtr isValue layer pos) (p.cfg.entryBytes / 2) := by
  have hbound := p.rowPtr_bound hl (toNat_lt_two isValue) hpos
  have hshape := (init_initialised h).shape
  rw [Config.entryBytes_half, p.slotPtr_eq]
  split_ifs with hfast
  · rw [p.rowPtr_fast (toNat_lt_two isValue) hfast] at hbound ⊢
    have hsize : p.cfg.gpuPoolBytes = cfg.gpuPoolBytes := by rw [hshape]; rfl
    exact ⟨rfl, hsize ▸ hbound, by omega⟩
  · have hlate : p.cfg.maxContext < p.maxTokens := by omega
    obtain ⟨hcfg, -⟩ := init_overflow_kept h hlate
    have hsize : p.cfg.overflowBytes = cfg.overflowBytes := by rw [hcfg]
    rw [p.rowPtr_overflow (toNat_lt_two isValue) (by omega)] at hbound ⊢
    exact ⟨init_overflow_backed h hbytes hlate, rfl, hsize ▸ hbound, by omega⟩

omit h in
/-- So do the scales of a row, which are floats. -/
theorem kvScalePtr_within (hfits : p.kvScalesBytes < 2 ^ 63) {layer pos : ℕ} {isValue : Bool}
    {ptr : Ptr} (hptr : p.kvScalePtr layer pos isValue = some ptr) :
    Within p.kvScalesBytes ⟨.kvScales, ptr.off * 4⟩ (p.cfg.nKvHeads * 4) := by
  rw [p.kvScalePtr_eq] at hptr
  split_ifs at hptr with hc
  obtain ⟨hscales, hl, hpos⟩ := hc
  obtain rfl := Option.some.inj hptr
  have hbound := rowOffset_bound (h := p.cfg.nKvHeads) hl (toNat_lt_two isValue) hpos
  have hsize : p.kvScalesBytes = bankBytes p.cfg.nLayers p.cfg.maxContext p.cfg.nKvHeads * 4 := by
    rw [KVCachePool.kvScalesBytes, p.scales_int8 hscales, if_neg (by decide), bankBytes]
    ring
  refine ⟨?_, hfits⟩
  rw [hsize, ← Nat.add_mul]
  exact Nat.mul_le_mul_right 4 hbound

/-- The rows behind `key_ptr` and `val_ptr` lie in the blocks that `init` allocates, the rows
behind `kv_scale_ptr` in the scale storage, and no two of them overlap. -/
theorem init_layout (hdims : 0 < cfg.nLayers ∧ 0 < cfg.nKvHeads ∧ 0 < cfg.headDim ∧ 0 < cfg.kvTypeBytes)
    (hfits : cfg.gpuPoolBytes + cfg.overflowBytes + p.kvScalesBytes < 2 ^ 63) :
    (∀ layer < p.cfg.nLayers, ∀ pos < p.maxTokens, ∀ isValue,
      if pos < p.cfg.maxContext then
        (p.slotPtr isValue layer pos).block = .gpuPool ∧
          Within cfg.gpuPoolBytes (p.slotPtr isValue layer pos) (p.cfg.entryBytes / 2)
      else
        p.cpuPool.isSome = true ∧ (p.slotPtr isValue layer pos).block = .cpuPool ∧
          Within cfg.overflowBytes (p.slotPtr isValue layer pos) (p.cfg.entryBytes / 2)) ∧
    (∀ layer < p.cfg.nLayers, ∀ layer' < p.cfg.nLayers, ∀ pos < p.maxTokens, ∀ pos' < p.maxTokens,
      ∀ isValue isValue', (layer, pos, isValue) ≠ (layer', pos', isValue') →
        Apart (p.slotPtr isValue layer pos) (p.cfg.entryBytes / 2)
          (p.slotPtr isValue' layer' pos') (p.cfg.entryBytes / 2)) ∧
    (cfg.kvTypeBytes = 1 → a.cudaMallocScales = true →
      (∀ layer < p.cfg.nLayers, ∀ pos < p.cfg.maxContext, ∀ isValue, ∃ ptr,
        p.kvScalePtr layer pos isValue = some ptr ∧
          Within p.kvScalesBytes ⟨.kvScales, ptr.off * 4⟩ (p.cfg.nKvHeads * 4)) ∧
      ∀ layer layer' pos pos' isValue isValue' ptr ptr',
        p.kvScalePtr layer pos isValue = some ptr → p.kvScalePtr layer' pos' isValue' = some ptr' →
        (layer, pos, isValue) ≠ (layer', pos', isValue') →
        Apart ptr p.cfg.nKvHeads ptr' p.cfg.nKvHeads) := by
  obtain ⟨hL, hKV, hHD, htype⟩ := hdims
  have hbytes : 0 < cfg.nLayers * cfg.entryBytes := by
    unfold Config.entryBytes
    positivity
  refine ⟨fun layer hl pos hpos isValue => ?_, ?_, fun hint8 hmalloc => ⟨?_, ?_⟩⟩
  · exact slotPtr_within h hbytes (by omega) hl hpos isValue
  · intro layer _ layer' _ pos hpos pos' hpos' isValue isValue' hne
    rw [Apart, Config.entryBytes_half, p.slotPtr_eq, p.slotPtr_eq]
    exact p.rowPtr_disjoint (toNat_lt_two _) (toNat_lt_two _) hpos hpos' (slot_ne hne)
  · intro layer hl pos hpos isValue
    have hscales := (init_initialised h).scales.mpr ⟨hint8, hmalloc⟩
    have hptr := p.kvScalePtr_eq layer pos isValue
    rw [if_pos ⟨hscales, hl, hpos⟩] at hptr
    exact ⟨_, hptr, kvScalePtr_within (by omega) hptr⟩
  · intro layer layer' pos pos' isValue isValue' ptr ptr' hptr hptr' hne
    rw [p.kvScalePtr_eq] at hptr hptr'
    split_ifs at hptr with hc
    split_ifs at hptr' with hc'
    obtain rfl := Option.some.inj hptr
    obtain rfl := Option.some.inj hptr'
    exact .inr (rowOffset_disjoint (toNat_lt_two _) (toNat_lt_two _) hc.2.2 hc'.2.2 (slot_ne hne))

end

/-- An INT8 pool with overflow positions. -/
def int8Overflow : Config := ⟨2, 2, 4, 3, 2, 1⟩

theorem init_layout_int8Overflow :
    ∃ p, KVCachePool.init int8Overflow (by decide) ⟨true, true, true, true⟩ = some p ∧
      Apart (p.slotPtr true 1 4) 8 (p.slotPtr false 1 4) 8 := by
  obtain ⟨p, hp⟩ := Option.isSome_iff_exists.mp
    ((init_isSome_iff int8Overflow (by decide) ⟨true, true, true, true⟩).mpr (by decide))
  have hcfg : p.cfg = int8Overflow := (init_initialised hp).shape
  have hlayout := init_layout hp (by decide) (by
    rw [KVCachePool.kvScalesBytes, hcfg]
    decide)
  refine ⟨p, hp, ?_⟩
  have hrows := hlayout.2.1 1 (by rw [hcfg]; decide) 1 (by rw [hcfg]; decide) 4
    (by rw [KVCachePool.maxTokens, hcfg]; decide) 4 (by rw [KVCachePool.maxTokens, hcfg]; decide)
    true false (by decide)
  rwa [hcfg] at hrows

end JLLM
