import ReflexLlm.Proofs.PoolLayout
import ReflexLlm.Spec.Hydrate

/-! Gather, compaction and scatter as copies between banks of rows: the pool has
`max_context` rows in a half, the packed body as many as tokens were saved, the
compacted body as many as matched. A row keeps its bytes through all three. -/

namespace JLLM

open ByteMem

/-- Calls that all succeed run in order. -/
theorem runCuda_ok {cuda : ℕ → Bool} (hcuda : ∀ i, cuda i = true) (calls : List (Mem → Mem)) :
    ∀ (i : ℕ) (m : Mem),
      KVCachePool.runCuda cuda i calls m = (true, calls.foldl (fun m call => call m) m) := by
  induction calls with
  | nil => exact fun _ _ => rfl
  | cons call calls ih =>
    intro i m
    rw [KVCachePool.runCuda, if_pos (hcuda i), ih, List.foldl_cons]

theorem runCuda_flatMap {cuda : ℕ → Bool} (hcuda : ∀ i, cuda i = true) (L : ℕ)
    (layer : ℕ → List (Mem → Mem)) (m : Mem) :
    KVCachePool.runCuda cuda 0 ((List.range L).flatMap layer) m =
      (true, (List.range L).foldl (fun m l => (layer l).foldl (fun m call => call m) m) m) := by
  rw [runCuda_ok hcuda, List.foldl_flatMap]

namespace KVCachePool

theorem gatherLayer_eq (c : Config) (gpu : Mem) (used l : ℕ) (m : Mem) :
    (gatherLayer c gpu used l).foldl (fun m call => call m) m =
      copyLayer c.rowBytes used c.maxContext used gpu m l := by
  simp only [gatherLayer, copyLayer, Config.entryBytes_eq, Nat.mul_div_cancel_left _ Nat.zero_lt_two,
    List.foldl_cons, List.foldl_nil, rowOffset_eq, Nat.zero_mul, Nat.add_zero, Nat.one_mul]

/-- Gathering packs the first `used` rows of every half. -/
theorem gatherUsedToHost_ok (p : KVCachePool) {cuda : ℕ → Bool} (hcuda : ∀ i, cuda i = true)
    (dst : Mem) {used : ℕ} (hused : 0 < used) (hle : used ≤ p.cfg.maxContext) :
    p.gatherUsedToHost cuda dst used = (true,
      (List.range p.cfg.nLayers).foldl
        (copyLayer p.cfg.rowBytes used p.cfg.maxContext used p.gpuPool) dst) := by
  rw [gatherUsedToHost, if_neg hused.ne', if_neg (Nat.not_lt.mpr hle), runCuda_flatMap hcuda]
  simp only [gatherLayer_eq]

/-- One layer of a scatter. -/
def scatterStep (c : Config) (src : Mem) (used : ℕ) (zeroRemaining : Bool) (m : Mem) (l : ℕ) : Mem :=
  (scatterLayer c src used zeroRemaining l).foldl (fun m call => call m) m

theorem scatterFromHost_ok (p : KVCachePool) {cuda : ℕ → Bool} (hcuda : ∀ i, cuda i = true)
    (src : Mem) {used : ℕ} (hused : 0 < used) (hle : used ≤ p.cfg.maxContext) (zeroRemaining : Bool) :
    p.scatterFromHost cuda src used zeroRemaining = (true,
      { p with
        gpuPool := (List.range p.cfg.nLayers).foldl
          (scatterStep p.cfg src used zeroRemaining) p.gpuPool
        usedTokens := used
        gpuTokens := used }) := by
  rw [scatterFromHost, if_neg hused.ne', if_neg (Nat.not_lt.mpr hle), runCuda_flatMap hcuda]
  rfl

theorem scatterFromHost_cfg (p : KVCachePool) (cuda : ℕ → Bool) (src : Mem) (used : ℕ)
    (zeroRemaining : Bool) : (p.scatterFromHost cuda src used zeroRemaining).2.cfg = p.cfg := by
  simp only [scatterFromHost]
  split_ifs <;> rfl

/-- Zeroing the rows from `k` on of both halves of a layer. -/
def zeroTail (h k n : ℕ) (m : Mem) (l : ℕ) : Mem :=
  (m.fill (rowOffset n h l 0 0 + k * h) ((n - k) * h) 0).fill
    (rowOffset n h l 1 0 + k * h) ((n - k) * h) 0

theorem zeroTail_apply (m : Mem) {h k n l l₀ s p b : ℕ} (hk : k ≤ n) (hs : s < 2) (hp : p < n)
    (hb : b < h) :
    zeroTail h k n m l₀ (rowOffset n h l s p + b) =
      if l = l₀ ∧ k ≤ p then 0 else m (rowOffset n h l s p + b) := by
  -- a byte is in the tail of a half when it is in the half and not in its first rows
  have htail (s₀ : ℕ) (hs₀ : s₀ < 2) :
      (rowOffset n h l₀ s₀ 0 + k * h ≤ rowOffset n h l s p + b ∧
        rowOffset n h l s p + b < rowOffset n h l₀ s₀ 0 + k * h + (n - k) * h) ↔
      (l = l₀ ∧ s = s₀) ∧ k ≤ p := by
    have hall := rowOffset_mem_iff (l := l) l₀ hs hs₀ hp hb le_rfl
    have hhead := rowOffset_mem_iff (l := l) l₀ hs hs₀ hp hb hk
    have hsum : k * h + (n - k) * h = n * h := by rw [← Nat.add_mul]; congr 1; omega
    rw [Nat.add_assoc, hsum]
    omega
  simp only [zeroTail, Mem.fill, htail 0 (by decide), htail 1 (by decide)]
  by_cases hc : l = l₀ ∧ k ≤ p
  · interval_cases s <;> simp [hc]
  · rw [if_neg (by tauto), if_neg (by tauto), if_neg hc]

theorem scatterStep_eq (c : Config) (src : Mem) (used : ℕ) (m : Mem) (l : ℕ) :
    scatterStep c src used true m l =
      let copied := copyLayer c.rowBytes used used c.maxContext src m l
      if 0 < (c.maxContext - used) * c.rowBytes then zeroTail c.rowBytes used c.maxContext copied l
      else copied := by
  simp only [scatterStep, scatterLayer, Config.entryBytes_eq,
    Nat.mul_div_cancel_left _ Nat.zero_lt_two, Bool.true_and, decide_eq_true_eq]
  split_ifs <;>
    simp only [copyLayer, zeroTail, List.foldl_append, List.foldl_cons, List.foldl_nil,
      rowOffset_eq, Nat.zero_mul, Nat.add_zero, Nat.one_mul]

/-- After a scatter the first rows of every half are the packed ones and the
others are zero. -/
theorem scatterSteps_apply (c : Config) (src m : Mem) {used l s p b : ℕ} (hk : used ≤ c.maxContext)
    (hl : l < c.nLayers) (hs : s < 2) (hp : p < c.maxContext) (hb : b < c.rowBytes) :
    (List.range c.nLayers).foldl (scatterStep c src used true) m
        (rowOffset c.maxContext c.rowBytes l s p + b) =
      if p < used then src (rowOffset used c.rowBytes l s p + b) else 0 := by
  have hstep (m : Mem) (l₀ : ℕ) : scatterStep c src used true m l₀
      (rowOffset c.maxContext c.rowBytes l s p + b) =
      if l = l₀ then if p < used then src (rowOffset used c.rowBytes l s p + b) else 0
      else m (rowOffset c.maxContext c.rowBytes l s p + b) := by
    rw [scatterStep_eq]
    simp only
    split_ifs with hz hll hpu hpu
    · rw [zeroTail_apply _ hk hs hp hb, if_neg (by omega), copyLayer_apply _ _ hk hs hp hb,
        if_pos ⟨hll, hpu⟩]
    · rw [zeroTail_apply _ hk hs hp hb, if_pos ⟨hll, by omega⟩]
    · rw [zeroTail_apply _ hk hs hp hb, if_neg (by tauto), copyLayer_apply _ _ hk hs hp hb,
        if_neg (by tauto)]
    · rw [copyLayer_apply _ _ hk hs hp hb, if_pos ⟨by assumption, by assumption⟩]
    · -- nothing to zero: no row lies behind the packed ones
      have : 0 < (c.maxContext - used) * c.rowBytes := Nat.mul_pos (by omega) (by omega)
      omega
    · rw [copyLayer_apply _ _ hk hs hp hb, if_neg (by tauto)]
  apply foldl_range_owned _ hl
  · intro m
    rw [hstep, if_pos rfl]
  · intro m l' hne
    rw [hstep, if_neg (Ne.symm hne)]

end KVCachePool

/-! ### Compaction -/

theorem compactLayer_eq (c : Config) (used matched : ℕ) (staging m : Mem) (l : ℕ) :
    compactLayer c used matched staging m l =
      copyLayer c.rowBytes matched used matched staging m l := by
  have heb : 2 * c.nKvHeads * c.headDim * c.kvTypeBytes = 2 * c.rowBytes := c.entryBytes_eq
  simp only [compactLayer, copyLayer, heb, Nat.mul_div_cancel_left _ Nat.zero_lt_two, rowOffset_eq,
    Nat.zero_mul, Nat.add_zero, Nat.one_mul]

/-- The packed body of `used` tokens. -/
theorem Config.bodyBytes_eq (c : Config) (used : ℕ) :
    c.nLayers * used * c.entryBytes = bankBytes c.nLayers used c.rowBytes := by
  rw [bankBytes, entryBytes_eq, Nat.mul_assoc]

/-- A staging buffer of the packed size is read within its bounds. -/
theorem compactInBounds_packed (c : Config) {used matched l : ℕ} (hm : matched ≤ used)
    (hl : l < c.nLayers) :
    compactInBounds c used matched (c.nLayers * used * c.entryBytes) l = true := by
  have heb : 2 * c.nKvHeads * c.headDim * c.kvTypeBytes = 2 * c.rowBytes := c.entryBytes_eq
  have hrows : matched * c.rowBytes ≤ used * c.rowBytes := Nat.mul_le_mul_right _ hm
  have hlayer : (l + 1) * (used * (2 * c.rowBytes)) ≤ c.nLayers * (used * (2 * c.rowBytes)) :=
    Nat.mul_le_mul_right _ hl
  have htwo : used * (2 * c.rowBytes) = 2 * (used * c.rowBytes) := by ring
  rw [Nat.add_mul] at hlayer
  rw [Config.bodyBytes_eq, bankBytes]
  simp only [compactInBounds, heb, Nat.mul_div_cancel_left _ Nat.zero_lt_two, Bool.and_eq_true,
    decide_eq_true_eq]
  omega

theorem compactBody_packed (c : Config) {used matched : ℕ} (hm : matched ≤ used) (staging : Mem) :
    compactBody c used matched (c.nLayers * used * c.entryBytes) staging =
      some ((List.range c.nLayers).foldl
        (copyLayer c.rowBytes matched used matched staging) fun _ => 0) := by
  rw [compactBody, foldlM_guard_pass]
  · exact congrArg (fun step => some ((List.range c.nLayers).foldl step fun _ => 0))
      (funext₂ (compactLayer_eq c used matched staging))
  · intro l hl
    exact compactInBounds_packed c hm (List.mem_range.mp hl)

/-- A row of the packed body that `used` gathered tokens are saved with. -/
theorem gathered_byte (c : Config) (gpu : Mem) {used l s p b : ℕ}
    (hl : l < c.nLayers) (hs : s < 2) (hp : p < used) (hb : b < c.rowBytes) :
    ofBytes (((List.range c.nLayers).foldl (copyLayer c.rowBytes used c.maxContext used gpu)
        fun _ => 0).read 0 (c.nLayers * used * c.entryBytes)) (rowOffset used c.rowBytes l s p + b) =
      gpu (rowOffset c.maxContext c.rowBytes l s p + b) := by
  have hin := rowOffset_bound (h := c.rowBytes) hl hs hp
  rw [← Config.bodyBytes_eq] at hin
  rw [ofBytes_read _ (by omega), copyLayers_apply _ _ le_rfl hl hs hp hb, if_pos hp]

/-- A row of the pool after the first `matched` rows of a packed body are
compacted and scattered. -/
theorem scattered_byte (c : Config) (staging old : Mem) {used matched l s p b : ℕ}
    (hm : matched ≤ used) (hu : used ≤ c.maxContext) (hl : l < c.nLayers) (hs : s < 2)
    (hp : p < c.maxContext) (hb : b < c.rowBytes) :
    (List.range c.nLayers).foldl (KVCachePool.scatterStep c
        ((List.range c.nLayers).foldl (copyLayer c.rowBytes matched used matched staging) fun _ => 0)
        matched true) old (rowOffset c.maxContext c.rowBytes l s p + b) =
      if p < matched then staging (rowOffset used c.rowBytes l s p + b) else 0 := by
  rw [KVCachePool.scatterSteps_apply c _ old (by omega) hl hs hp hb]
  split_ifs with hpm
  · rw [copyLayers_apply _ _ le_rfl hl hs hpm hb, if_pos hpm]
  · rfl

end JLLM
