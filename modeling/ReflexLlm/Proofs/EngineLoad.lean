import Mathlib.Algebra.BigOperators.Group.List.Basic
import Mathlib.Tactic.Linarith
import Mathlib.Tactic.Ring
import ReflexLlm.Spec.EngineLoad

/-! Whether what `Engine::load` allocates fits the budget that it computed the context
from. `max_context` divides the whole budget by the bytes of a token, so overflow, scales
and scratch have to fit what the cap on the context or the division leaves. -/

namespace JLLM

namespace EngineLoad

variable {b : MemoryBudget} {c : ModelConfig} {p : LoadParams} {env : Option (List UInt8)}

/-! ### Products -/

theorem one_le_prod {xs : List ℤ} (h : ∀ x ∈ xs, 1 ≤ x) : 1 ≤ xs.prod := by
  induction xs with
  | nil => simp
  | cons x xs ih =>
    obtain ⟨hx, hxs⟩ := List.forall_mem_cons.mp h
    rw [List.prod_cons]
    exact one_le_mul_of_one_le_of_one_le hx (ih hxs)

theorem foldlM_mul64 {xs : List ℤ} (hxs : ∀ x ∈ xs, 1 ≤ x) {a : ℤ} (ha : 0 ≤ a)
    (hlt : a < 0x8000000000000000) :
    xs.foldlM mul64 a = if a * xs.prod < 0x8000000000000000 then some (a * xs.prod) else none := by
  induction xs generalizing a with
  | nil => simp [hlt]
  | cons x xs ih =>
    obtain ⟨hx, hxs⟩ := List.forall_mem_cons.mp hxs
    have hax : 0 ≤ a * x := mul_nonneg ha (by omega)
    have hprod : 1 ≤ xs.prod := one_le_prod hxs
    rw [List.foldlM_cons, List.prod_cons, ← mul_assoc, mul64]
    by_cases hfits : a * x < 0x8000000000000000
    · rw [if_pos ⟨by omega, hfits⟩]
      exact ih hxs hax hfits
    · have hgrow : a * x ≤ a * x * xs.prod := le_mul_of_one_le_right hax hprod
      rw [if_neg (fun h => hfits h.2), if_neg (by omega)]
      rfl

theorem product64_eq {x : ℤ} {xs : List ℤ} (hx : 0 ≤ x) (hxs : ∀ y ∈ xs, 1 ≤ y) :
    product64 (x :: xs) =
      if x * xs.prod < 0x8000000000000000 then some (x * xs.prod) else none := by
  rw [product64, List.foldlM_cons, mul64, one_mul]
  by_cases hfits : x < 0x8000000000000000
  · rw [if_pos ⟨by omega, hfits⟩]
    exact foldlM_mul64 hxs hx hfits
  · have hgrow : x ≤ x * xs.prod := le_mul_of_one_le_right hx (one_le_prod hxs)
    rw [if_neg (fun h => hfits h.2), if_neg (by omega)]
    rfl

theorem castInt_natCast (n : ℕ) : castInt n =
    if n % 0x100000000 < 0x80000000 then ((n % 0x100000000 : ℕ) : ℤ)
    else ((n % 0x100000000 : ℕ) : ℤ) - 0x100000000 := by
  unfold castInt
  rw [Int.bmod_def]
  split_ifs <;> omega

/-! ### Sizes as naturals -/

/-- `bytes_per_token`. -/
def tokenBytes (c : ModelConfig) (p : LoadParams) : ℕ :=
  2 * c.nLayers.toInt.toNat * c.nKvHeads.toInt.toNat * c.headDim.toInt.toNat * kvBytes p

/-- `max_kv_mb() * 1024 * 1024`. -/
def budgetBytes (b : MemoryBudget) : ℕ := b.maxKvMb.toNat * (1024 * 1024)

/-- What limits the context besides the memory. -/
def contextCap (c : ModelConfig) (p : LoadParams) : ℕ :=
  if 0 < p.contextLimit.toInt then (min p.contextLimit.toInt c.maxSeqLen.toInt).toNat
  else (min c.maxSeqLen.toInt (if 128 ≤ c.headDim.toInt then 4096 else 8192)).toNat

/-- What a context takes besides its keys and values: overflow, scales, scratch. -/
def extraBytes (c : ModelConfig) (p : LoadParams) (env : Option (List UInt8)) (scratch ctx : ℕ) :
    ℕ :=
  tokenBytes c p * (kvOverflowContext env ctx).toNat +
    (if p.kvInt8 then 2 * c.nLayers.toInt.toNat * ctx * c.nKvHeads.toInt.toNat * 4 else 0) + scratch

/-- The sizes are representable, and the pools fit. When the cap limits the context, the
budget is for all of them; when the memory does, the rest of the division is for what comes
besides keys and values. A quotient past the range of `int` wraps. -/
def BudgetCovers (b : MemoryBudget) (c : ModelConfig) (p : LoadParams)
    (env : Option (List UInt8)) : Prop :=
  tokenBytes c p < 0x8000000000000000 ∧ budgetBytes b < 0x8000000000000000 ∧
    (budgetBytes b / tokenBytes c p % 0x100000000 < 0x80000000 →
      ∃ scratch, scratchBytes c = some scratch ∧
        if contextCap c p ≤ budgetBytes b / tokenBytes c p % 0x100000000 then
          tokenBytes c p * contextCap c p + extraBytes c p env scratch (contextCap c p) ≤
            budgetBytes b
        else if budgetBytes b / tokenBytes c p < 0x100000000 then
          extraBytes c p env scratch (budgetBytes b / tokenBytes c p) ≤
            budgetBytes b % tokenBytes c p
        else
          tokenBytes c p * (budgetBytes b / tokenBytes c p % 0x100000000) +
            extraBytes c p env scratch (budgetBytes b / tokenBytes c p % 0x100000000) ≤
              budgetBytes b)

theorem kvBytes_pos (p : LoadParams) : 0 < kvBytes p := by
  unfold kvBytes
  split_ifs <;> decide

theorem tokenBytes_pos (hc : c.Positive) : 0 < tokenBytes c p := by
  have hL : 0 < c.nLayers.toInt.toNat := Int.pos_iff_toNat_pos.mp hc.nLayers
  have hKV : 0 < c.nKvHeads.toInt.toNat := Int.pos_iff_toNat_pos.mp hc.nKvHeads
  have hHD : 0 < c.headDim.toInt.toNat := Int.pos_iff_toNat_pos.mp hc.headDim
  have hkv := kvBytes_pos p
  unfold tokenBytes
  positivity

theorem maxContext_eq (hb : 0 ≤ b.maxKvMb) (hc : c.Positive) :
    b.maxContext c.nLayers.toInt c.nKvHeads.toInt c.headDim.toInt (kvBytes p) =
      if tokenBytes c p < 0x8000000000000000 ∧ budgetBytes b < 0x8000000000000000 then
        some (castInt ((budgetBytes b / tokenBytes c p : ℕ) : ℤ)) else none := by
  have hkv : 1 ≤ (kvBytes p : ℤ) := by exact_mod_cast kvBytes_pos p
  have htoken : (2 : ℤ) * [c.nLayers.toInt, c.nKvHeads.toInt, c.headDim.toInt, (kvBytes p : ℤ)].prod =
      (tokenBytes c p : ℤ) := by
    simp only [tokenBytes, Nat.cast_mul, Int.toNat_of_nonneg hc.nLayers.le,
      Int.toNat_of_nonneg hc.nKvHeads.le, Int.toNat_of_nonneg hc.headDim.le, List.prod_cons,
      List.prod_nil]
    push_cast
    ring
  have hbudget : b.maxKvMb * [(1024 : ℤ), 1024].prod = (budgetBytes b : ℤ) := by
    simp only [budgetBytes, Nat.cast_mul, Int.toNat_of_nonneg hb, List.prod_cons, List.prod_nil]
    push_cast
    ring
  have hones : ∀ x ∈ [c.nLayers.toInt, c.nKvHeads.toInt, c.headDim.toInt, (kvBytes p : ℤ)],
      1 ≤ x := by
    simp only [List.forall_mem_cons]
    exact ⟨hc.nLayers, hc.nKvHeads, hc.headDim, hkv, by simp⟩
  rw [MemoryBudget.maxContext, product64_eq (by decide) hones, htoken,
    product64_eq hb (by simp), hbudget]
  have hne : (tokenBytes c p : ℤ) ≠ 0 := by exact_mod_cast (tokenBytes_pos hc).ne'
  by_cases htoken : tokenBytes c p < 0x8000000000000000
  · rw [if_pos (by exact_mod_cast htoken), Option.bind_some, if_neg hne]
    by_cases hbudget : budgetBytes b < 0x8000000000000000
    · rw [if_pos (by exact_mod_cast hbudget), if_pos ⟨htoken, hbudget⟩, Option.map_some,
        Int.tdiv_eq_ediv_of_nonneg (Int.natCast_nonneg _), Int.natCast_ediv]
    · rw [if_neg (by exact_mod_cast hbudget), if_neg (fun h => hbudget h.2), Option.map_none]
  · rw [if_neg (by exact_mod_cast htoken), Option.bind_none,
      if_neg (fun h => htoken h.1)]

theorem loadContext_eq (hc : c.Positive) (autoCtx : ℤ) :
    loadContext c p autoCtx = min (contextCap c p : ℤ) autoCtx := by
  have hmax := hc.maxSeqLen
  unfold loadContext contextCap
  simp only
  split_ifs <;> omega

theorem contextCap_pos (hc : c.Positive) : 0 < contextCap c p := by
  have hmax := hc.maxSeqLen
  unfold contextCap
  split_ifs <;> omega

/-! ### What `init` allocates -/

/-- Keys, values, overflow and scales of a pool whose allocations all succeed. -/
def fullBytes (cfg : Config) : ℕ :=
  cfg.gpuPoolBytes + cfg.overflowBytes +
    if cfg.kvTypeBytes = 1 then 2 * cfg.nLayers * cfg.maxContext * cfg.nKvHeads * 4 else 0

theorem capacityBytes_le (kv : KVCachePool) : kv.capacityBytes ≤ kv.allocatedBytes := by
  have hcap : kv.capacityBytes = kv.cfg.gpuPoolBytes + kv.cfg.overflowBytes := by
    simp only [KVCachePool.capacityBytes, Config.gpuPoolBytes, Config.overflowBytes]
    ring
  have hover : kv.cfg.overflowBytes ≤ if kv.cpuPool.isSome then kv.cfg.overflowBytes else 0 := by
    split_ifs with hcpu
    · exact le_rfl
    · by_contra hpos
      have hover : 0 < kv.cfg.overflowContext := by
        refine Nat.pos_of_ne_zero fun h0 => hpos ?_
        simp [Config.overflowBytes, h0]
      exact hcpu (kv.overflow_backed hover (by omega))
  rw [hcap, KVCachePool.allocatedBytes]
  omega

theorem init_cfg {cfg : Config} {hInt : cfg.IsInt} {a : AllocOutcome} {kv : KVCachePool}
    (h : KVCachePool.init cfg hInt a = some kv) :
    kv.cfg = cfg ∨ kv.cfg = { cfg with overflowContext := 0 } ∧ kv.cpuPool = none := by
  unfold KVCachePool.init at h
  simp only at h
  split_ifs at h
  all_goals
    cases h
    first
      | exact .inl rfl
      | exact .inr ⟨rfl, rfl⟩

theorem init_allocatedBytes_le {cfg : Config} {hInt : cfg.IsInt} {a : AllocOutcome}
    {kv : KVCachePool} (h : KVCachePool.init cfg hInt a = some kv) :
    kv.allocatedBytes ≤ fullBytes cfg := by
  unfold KVCachePool.allocatedBytes fullBytes KVCachePool.kvScalesBytes
  rcases init_cfg h with hcfg | ⟨hcfg, hcpu⟩
  · rw [hcfg]
    split_ifs <;> omega
  · rw [hcfg, hcpu]
    simp only [Config.gpuPoolBytes, Config.entryBytes, Option.isSome_none, Bool.false_eq_true,
      if_false]
    split_ifs <;> omega

theorem init_full {cfg : Config} (hInt : cfg.IsInt) (h : cfg.gpuPoolBytes < 0x8000000000000000) :
    ∃ kv, KVCachePool.init cfg hInt ⟨true, true, true, true⟩ = some kv ∧
      kv.allocatedBytes = fullBytes cfg := by
  unfold KVCachePool.init
  rw [dif_pos (by omega)]
  simp only [Bool.and_self, if_true, and_true]
  by_cases hover : 0 < cfg.overflowContext ∧ 0 < cfg.overflowBytes
  · rw [dif_pos hover]
    refine ⟨_, rfl, ?_⟩
    simp only [KVCachePool.allocatedBytes, fullBytes, KVCachePool.kvScalesBytes]
    by_cases hint8 : cfg.kvTypeBytes = 1 <;> simp [hint8]
  · rw [dif_neg hover]
    refine ⟨_, rfl, ?_⟩
    have hnone : cfg.overflowBytes = 0 := by
      by_contra hne
      refine hover ⟨Nat.pos_of_ne_zero fun h0 => hne ?_, Nat.pos_of_ne_zero hne⟩
      simp [Config.overflowBytes, h0]
    simp only [KVCachePool.allocatedBytes, fullBytes, KVCachePool.kvScalesBytes, hnone]
    by_cases hint8 : cfg.kvTypeBytes = 1 <;> simp [hint8]

theorem fullBytes_kvConfig (ctx scratch : ℕ) :
    fullBytes (kvConfig c p env ctx) + scratch =
      tokenBytes c p * ctx + extraBytes c p env scratch ctx := by
  have hint8 : kvBytes p = 1 ↔ p.kvInt8 = true := by
    unfold kvBytes
    split_ifs with h <;> simp [h]
  simp only [fullBytes, kvConfig, Config.gpuPoolBytes, Config.overflowBytes, Config.entryBytes,
    extraBytes, tokenBytes, Int.toNat_natCast, hint8]
  ring

theorem gpuPoolBytes_kvConfig (ctx : ℕ) :
    (kvConfig c p env ctx).gpuPoolBytes = tokenBytes c p * ctx := by
  simp only [kvConfig, Config.gpuPoolBytes, Config.entryBytes, tokenBytes, Int.toNat_natCast]
  ring

theorem scratchBytes_ge {scratch : ℕ} (h : scratchBytes c = some scratch) :
    64 * 1024 * 1024 ≤ scratch := by
  simp only [scratchBytes, Option.bind_eq_some_iff, Option.map_eq_some_iff] at h
  obtain ⟨qDim, -, kvDim, -, rfl⟩ := h
  omega

/-! ### The budget -/

theorem freeMb_record_nonneg {kv : KVCachePool} {scratch : ℕ}
    (h : kv.allocatedBytes + scratch ≤ budgetBytes b) (hb : 0 ≤ b.maxKvMb) :
    0 ≤ (b.record kv.capacityBytes scratch).freeMb := by
  have hcap := capacityBytes_le kv
  have hold := b.scratch_nonneg
  have hsum : kv.capacityBytes / (1024 * 1024) + scratch / (1024 * 1024) ≤ b.maxKvMb.toNat := by
    unfold budgetBytes at h
    omega
  simp only [MemoryBudget.freeMb, MemoryBudget.usedMb, MemoryBudget.record]
  unfold MemoryBudget.maxKvMb at hsum hb
  omega

/-- Over all outcomes of the allocations, the worst is that they all succeed. -/
theorem loadPools_within_iff {autoCtx : ℤ} (hb : 0 ≤ b.maxKvMb) (hc : c.Positive)
    (hauto : b.maxContext c.nLayers.toInt c.nKvHeads.toInt c.headDim.toInt (kvBytes p) =
      some autoCtx)
    (hfits : tokenBytes c p * (min (contextCap c p : ℤ) autoCtx).toNat < 0x8000000000000000) :
    (∀ a ok, WithinBudget b (loadPools b c p env a ok)) ↔
      (0 ≤ autoCtx → ∃ scratch, scratchBytes c = some scratch ∧
        tokenBytes c p * (min (contextCap c p : ℤ) autoCtx).toNat +
          extraBytes c p env scratch (min (contextCap c p : ℤ) autoCtx).toNat ≤ budgetBytes b) := by
  have hbytes : b.maxKvMb * (1024 * 1024) = (budgetBytes b : ℤ) := by
    rw [budgetBytes, Nat.cast_mul, Int.toNat_of_nonneg hb]
    rfl
  have hcap : 0 < contextCap c p := contextCap_pos hc
  have hctx (h : 0 ≤ autoCtx) :
      loadContext c p autoCtx = ((min (contextCap c p : ℤ) autoCtx).toNat : ℤ) := by
    rw [loadContext_eq hc]
    omega
  constructor
  · intro hall hnonneg
    have hgpu : (kvConfig c p env (loadContext c p autoCtx)).gpuPoolBytes < 0x8000000000000000 := by
      rw [hctx hnonneg, gpuPoolBytes_kvConfig]
      exact hfits
    obtain ⟨kv, hkv, hfull⟩ := init_full (kvConfig_isInt c p env autoCtx) hgpu
    have hin := hall ⟨true, true, true, true⟩ true
    unfold loadPools at hin
    simp only [hauto, hkv, if_neg (show ¬ loadContext c p autoCtx < 0 by rw [hctx hnonneg]; omega)]
      at hin
    cases hscratch : scratchBytes c with
    | none =>
      rw [hscratch] at hin
      exact hin.elim
    | some scratch =>
      rw [hscratch] at hin
      have hle := hin.1
      rw [hfull, hbytes] at hle
      refine ⟨scratch, rfl, ?_⟩
      rw [← fullBytes_kvConfig, ← hctx hnonneg]
      exact_mod_cast hle
  · intro hcovers a ok
    unfold loadPools
    simp only [hauto]
    by_cases hneg : loadContext c p autoCtx < 0
    · rw [if_pos hneg]
      trivial
    · rw [if_neg hneg]
      cases hinit : KVCachePool.init _ (kvConfig_isInt c p env autoCtx) a with
      | none => trivial
      | some kv =>
        have hnonneg : 0 ≤ autoCtx := by
          rw [loadContext_eq hc] at hneg
          omega
        obtain ⟨scratch, hscratch, hle⟩ := hcovers hnonneg
        have hkv := init_allocatedBytes_le hinit
        rw [← fullBytes_kvConfig, ← hctx hnonneg] at hle
        simp only [hscratch]
        split_ifs
        · refine ⟨?_, freeMb_record_nonneg (by omega) hb⟩
          rw [hbytes]
          exact_mod_cast (by omega)
        · trivial

/-- Where the context comes from decides what the other pools have to fit. -/
theorem covers_iff {token tokens budget rest cap : ℕ} {extra : ℕ → ℕ}
    (h : token * tokens + rest = budget) :
    token * (min (cap : ℤ) ((tokens % 0x100000000 : ℕ) : ℤ)).toNat +
        extra (min (cap : ℤ) ((tokens % 0x100000000 : ℕ) : ℤ)).toNat ≤ budget ↔
      if cap ≤ tokens % 0x100000000 then token * cap + extra cap ≤ budget
      else if tokens < 0x100000000 then extra tokens ≤ rest
      else token * (tokens % 0x100000000) + extra (tokens % 0x100000000) ≤ budget := by
  have hmin : (min (cap : ℤ) ((tokens % 0x100000000 : ℕ) : ℤ)).toNat =
      min cap (tokens % 0x100000000) := by omega
  rw [hmin]
  split_ifs with hcap hsmall
  · rw [min_eq_left hcap]
  · rw [min_eq_right (by omega), Nat.mod_eq_of_lt hsmall]
    omega
  · rw [min_eq_right (by omega)]

/-- The pools fit the budget, whatever succeeds, exactly when the budget covers overflow,
scales and scratch as well. -/
theorem load_within_budget_iff (b : MemoryBudget) (c : ModelConfig) (p : LoadParams)
    (env : Option (List UInt8)) (hb : 0 ≤ b.maxKvMb) (hc : c.Positive) :
    (∀ a ok, WithinBudget b (loadPools b c p env a ok)) ↔ BudgetCovers b c p env := by
  have hmax := maxContext_eq (p := p) hb hc
  by_cases hsizes : tokenBytes c p < 0x8000000000000000 ∧ budgetBytes b < 0x8000000000000000
  · rw [if_pos hsizes] at hmax
    have hdiv := Nat.div_add_mod (budgetBytes b) (tokenBytes c p)
    unfold BudgetCovers
    generalize budgetBytes b / tokenBytes c p = tokens at hmax hdiv ⊢
    have hle : tokenBytes c p * (min (contextCap c p : ℤ) (castInt tokens)).toNat ≤
        tokenBytes c p * tokens := by
      refine Nat.mul_le_mul_left _ ?_
      rw [castInt_natCast]
      split_ifs <;> omega
    rw [loadPools_within_iff hb hc hmax (by omega), castInt_natCast]
    refine Iff.trans ?_ ⟨fun h => ⟨hsizes.1, hsizes.2, h⟩, fun h => h.2.2⟩
    by_cases hwrap : tokens % 0x100000000 < 0x80000000
    · rw [if_pos hwrap]
      refine ⟨fun h _ => ?_, fun h _ => ?_⟩
      · obtain ⟨scratch, hscratch, hfits⟩ := h (by omega)
        exact ⟨scratch, hscratch, (covers_iff hdiv).mp hfits⟩
      · obtain ⟨scratch, hscratch, hfits⟩ := h hwrap
        exact ⟨scratch, hscratch, (covers_iff hdiv).mpr hfits⟩
    · rw [if_neg hwrap]
      exact ⟨fun _ h => absurd h hwrap, fun _ h => absurd h (by omega)⟩
  · rw [if_neg hsizes] at hmax
    constructor
    · intro hall
      have hin := hall ⟨true, true, true, true⟩ true
      unfold loadPools at hin
      rw [hmax] at hin
      exact hin.elim
    · rintro ⟨htoken, hbudget, -⟩
      exact absurd ⟨htoken, hbudget⟩ hsizes

/-- A Jetson with eight gigabytes and a model of 1800 megabytes. -/
def jetsonBudget : MemoryBudget :=
  ⟨7633, 500, 768, 300, 1800, 0, 0, 256, by decide, by decide⟩

/-- A model of four billion parameters. -/
def jetsonModel : ModelConfig where
  nLayers := 36
  nHeads := 32
  nKvHeads := 8
  headDim := 128
  hiddenDim := 2560
  intermediateDim := 9728
  vocabSize := 151936
  maxSeqLen := 40960

theorem jetsonModel_positive : jetsonModel.Positive := by
  constructor <;> decide

theorem load_within_budget_jetson :
    BudgetCovers jetsonBudget jetsonModel ⟨true, 0⟩ none ∧
      ∀ a ok, WithinBudget jetsonBudget (loadPools jetsonBudget jetsonModel ⟨true, 0⟩ none a ok) := by
  have hcovers : BudgetCovers jetsonBudget jetsonModel ⟨true, 0⟩ none :=
    ⟨by decide, by decide, fun _ => ⟨0x4000000, by decide, by decide⟩⟩
  exact ⟨hcovers, (load_within_budget_iff jetsonBudget jetsonModel ⟨true, 0⟩ none (by decide)
    jetsonModel_positive).mpr hcovers⟩

/-- Where the memory limits the context and a token takes no more than the least scratch
pool, the budget is never enough. -/
theorem not_covers_of_memory_bound (htokens : budgetBytes b / tokenBytes c p < contextCap c p)
    (htoken : tokenBytes c p ≤ 64 * 1024 * 1024) (hc : c.Positive) : ¬ BudgetCovers b c p env := by
  rintro ⟨-, -, hcovers⟩
  have hcap : contextCap c p < 0x80000000 := by
    have hmax : c.maxSeqLen.toInt < 0x80000000 := c.maxSeqLen.toInt_lt
    unfold contextCap
    split_ifs <;> omega
  have hrest : budgetBytes b % tokenBytes c p < tokenBytes c p := Nat.mod_lt _ (tokenBytes_pos hc)
  generalize budgetBytes b / tokenBytes c p = tokens at htokens hcovers
  have hmod : tokens % 0x100000000 = tokens := Nat.mod_eq_of_lt (by omega)
  rw [hmod] at hcovers
  obtain ⟨scratch, hscratch, hfits⟩ := hcovers (by omega)
  rw [if_neg (by omega), if_pos (by omega)] at hfits
  have hleast := scratchBytes_ge hscratch
  unfold extraBytes at hfits
  omega

/-- A user asks for the whole context of the model, with keys and values in FP16. -/
theorem load_overcommits :
    ¬ ∀ (b : MemoryBudget) (c : ModelConfig) (p : LoadParams) (env : Option (List UInt8)),
      0 ≤ b.maxKvMb → c.Positive → ∀ a ok, WithinBudget b (loadPools b c p env a ok) := by
  intro h
  have hall := h jetsonBudget jetsonModel ⟨false, 40960⟩ none (by decide) jetsonModel_positive
  have hauto : jetsonBudget.maxContext jetsonModel.nLayers.toInt jetsonModel.nKvHeads.toInt
      jetsonModel.headDim.toInt (kvBytes ⟨false, 40960⟩) = some 28508 := by decide
  rw [loadPools_within_iff (by decide) jetsonModel_positive hauto (by decide)] at hall
  obtain ⟨scratch, hscratch, hle⟩ := hall (by decide)
  obtain rfl : 0x4000000 = scratch := Option.some.inj ((by decide : some _ = _).trans hscratch)
  revert hle
  decide

end EngineLoad

end JLLM
