import ReflexLlm.Proofs.PoolLayout

/-! Eviction moves `n * entry_bytes` bytes from the start of each layer, as if
keys and values of a token were stored together, to the start of the overflow
layer. The pool keeps all keys of a layer before all values, so the bytes moved
are the rows of the oldest tokens only when whole layers of equal size move. -/

namespace JLLM

open ByteMem

namespace KVCachePool

/-- The pool with other bytes in the fast and the overflow pool. -/
def withContents (p : KVCachePool) (hcpu : p.cpuPool.isSome) (gpu cpu : Mem) : KVCachePool :=
  { p with
    gpuPool := gpu
    cpuPool := some cpu
    overflow_backed := fun _ _ => rfl
    overflow_sized := fun _ => p.overflow_sized hcpu }

/-- What eviction of the `n` oldest tokens promises, when `e` tokens were evicted
before. -/
structure EvictPreserves (d2d : Mem → ℕ → ℕ → ℕ → Mem) (p : KVCachePool) (e n : ℕ) : Prop where
  moved : ∀ l half i, l < p.cfg.nLayers → half < 2 → i < n →
    (p.evict d2d n).row l half (p.cfg.maxContext + e + i) = p.row l half i
  shifted : ∀ l half (i : ℕ), l < p.cfg.nLayers → half < 2 → n ≤ i → (i : ℤ) < p.gpuTokens →
    (p.evict d2d n).row l half (i - n) = p.row l half i
  kept : ∀ l half i, l < p.cfg.nLayers → half < 2 → i < e →
    (p.evict d2d n).row l half (p.cfg.maxContext + i) = p.row l half (p.cfg.maxContext + i)
  tokens : (p.evict d2d n).gpuTokens = p.gpuTokens - n
  tokens_range : 0 ≤ (p.evict d2d n).gpuTokens ∧
    (p.evict d2d n).gpuTokens ≤ p.cfg.maxContext

/-- The loop of `evict` over the layers. -/
def evictPools (d2d : Mem → ℕ → ℕ → ℕ → Mem) (p : KVCachePool) (n L : ℕ) (cpu : Mem) : Mem × Mem :=
  (List.range L).foldl (evictLayer d2d p.cfg p.gpuTokens n) (p.gpuPool, cpu)

variable (d2d : Mem → ℕ → ℕ → ℕ → Mem) (p : KVCachePool) {cpu : Mem} {n : ℕ}

theorem evict_some (hcpu : p.cpuPool = some cpu) (hn : n ≠ 0) :
    (p.evict d2d n).cfg = p.cfg ∧
    (p.evict d2d n).gpuPool = (evictPools d2d p n p.cfg.nLayers cpu).1 ∧
    (p.evict d2d n).cpuPool = some (evictPools d2d p n p.cfg.nLayers cpu).2 ∧
    (p.evict d2d n).gpuTokens = p.gpuTokens - n := by
  unfold evict
  split
  · simp_all
  · rename_i cpu' hcpu'
    obtain rfl : cpu' = cpu := by simpa [hcpu'] using hcpu
    simp only [if_neg hn, evictPools, and_self]

theorem evictPools_succ (L : ℕ) :
    evictPools d2d p n (L + 1) cpu =
      evictLayer d2d p.cfg p.gpuTokens n (evictPools d2d p n L cpu) L := by
  simp only [evictPools, List.range_succ, List.foldl_append, List.foldl_cons, List.foldl_nil]

/-- The overflow bytes of the first layer: the fast pool's first bytes, then
what was there. -/
theorem evictPools_first {i : ℕ} (hi : i < p.cfg.overflowContext * p.cfg.entryBytes) (L : ℕ) :
    (evictPools d2d p n (L + 1) cpu).2 i =
      if i < n * p.cfg.entryBytes then p.gpuPool i else cpu i := by
  induction L with
  | zero => simp [evictPools, evictLayer, Mem.copy]
  | succ L ih =>
    have hnext : p.cfg.overflowContext * p.cfg.entryBytes ≤
        (L + 1) * (p.cfg.overflowContext * p.cfg.entryBytes) :=
      Nat.le_mul_of_pos_left _ (Nat.succ_pos L)
    rw [evictPools_succ]
    exact (copy_outside _ _ (by omega)).trans ih

/-- Evicting the whole fast pool leaves it in place and fills every overflow
layer with the fast layer. -/
theorem evictPools_whole (hg : p.gpuTokens = n) (hn : n = p.cfg.maxContext)
    (ho : n = p.cfg.overflowContext) {l : ℕ} (L : ℕ) (hl : l < L) {x : ℕ}
    (hx : x < n * p.cfg.entryBytes) :
    (evictPools d2d p n L cpu).2 (l * (n * p.cfg.entryBytes) + x) =
        p.gpuPool (l * (n * p.cfg.entryBytes) + x) ∧
      (evictPools d2d p n L cpu).1 = p.gpuPool := by
  have hgpu (L : ℕ) : (evictPools d2d p n L cpu).1 = p.gpuPool := by
    induction L with
    | zero => rfl
    | succ L ih =>
      rw [evictPools_succ, evictLayer]
      simp only [hg, sub_self, lt_irrefl, if_false]
      exact ih
  refine ⟨?_, hgpu L⟩
  induction L with
  | zero => omega
  | succ L ih =>
    rw [evictPools_succ]
    simp only [evictLayer, hgpu L, ← hn, ← ho]
    by_cases h : l = L
    · subst h
      exact copy_inside _ _ hx
    · rw [copy_outside, ih (by omega)]
      -- an earlier layer ends where this one starts
      have : (l + 1) * (n * p.cfg.entryBytes) ≤ L * (n * p.cfg.entryBytes) :=
        Nat.mul_le_mul_right _ (by omega)
      rw [Nat.add_mul] at this
      omega

/-- A row's byte inside its layer. -/
theorem rowOffset_in_layer {m h l s i b : ℕ} (hs : s < 2) (hi : i < m) (hb : b < h) :
    rowOffset m h l s i + b = l * (m * (2 * h)) + (s * (m * h) + i * h + b) ∧
      s * (m * h) + i * h + b < m * (2 * h) := by
  have hrow : (i + 1) * h ≤ m * h := Nat.mul_le_mul_right h hi
  rw [Nat.add_mul] at hrow
  refine ⟨by rw [rowOffset_eq]; omega, ?_⟩
  rw [show m * (2 * h) = 2 * (m * h) by ring]
  interval_cases s <;> omega

/-- Moving all of a fast pool into an overflow pool of its size loses nothing. -/
theorem evictPreserves_whole {e : ℕ} (hcpu : p.cpuPool = some cpu) (hn : 0 < n)
    (hg : p.gpuTokens = n) (hroom : e + n ≤ p.cfg.overflowContext) (hm : n = p.cfg.maxContext)
    (ho : n = p.cfg.overflowContext) : EvictPreserves d2d p e n := by
  obtain ⟨hcfg, -, hcpu', htok⟩ := p.evict_some d2d hcpu hn.ne'
  have he : e = 0 := by omega
  subst he
  refine ⟨?_, fun l half i _ _ hi hi' => by omega, by omega, htok, by omega⟩
  intro l half i hl hhalf hi
  have hrow : (p.evict d2d n).row l half (p.cfg.maxContext + 0 + i) =
      (evictPools d2d p n p.cfg.nLayers cpu).2.read
        (rowOffset p.cfg.overflowContext p.cfg.rowBytes l half i) p.cfg.rowBytes := by
    rw [← hcfg, Nat.add_zero, row_overflow _ hcpu' i hhalf, hcfg]
  rw [hrow, p.row_fast hhalf (by omega), ← ho, ← hm]
  apply read_congr
  intro b hb
  obtain ⟨hoff, hlt⟩ := rowOffset_in_layer (l := l) hhalf hi hb
  rw [hoff, ← p.cfg.entryBytes_eq]
  rw [← p.cfg.entryBytes_eq] at hlt
  exact (p.evictPools_whole d2d hg hm ho p.cfg.nLayers hl hlt).1

/-- A pool with an overflow pool has a layer, and rows are not empty. -/
theorem overflow_rows (hcpu : p.cpuPool.isSome) : 0 < p.cfg.nLayers ∧ 0 < p.cfg.rowBytes := by
  have h := p.overflow_sized hcpu
  rw [Config.overflowBytes_eq, bankBytes] at h
  refine ⟨Nat.pos_of_mul_pos_right h, ?_⟩
  by_contra hz
  rw [show p.cfg.rowBytes = 0 by omega] at h
  simp at h

/-- For a pool with an overflow pool, `g` fast tokens and `e` evicted before:
evicting `n` of them keeps every row readable, whatever the pools hold, exactly
when the overflow layers are as long as the fast layers and all of a full fast
pool moves at once. -/
theorem evictPreserves_iff (hcpu : p.cpuPool.isSome) {e : ℕ} (hn : 0 < n)
    (hng : (n : ℤ) ≤ p.gpuTokens) (hg : p.gpuTokens ≤ p.cfg.maxContext)
    (hroom : e + n ≤ p.cfg.overflowContext) :
    (∀ gpu cpu, EvictPreserves d2d (p.withContents hcpu gpu cpu) e n) ↔
      n = p.cfg.maxContext ∧ n = p.cfg.overflowContext := by
  constructor
  · intro h
    obtain ⟨hL, hh⟩ := p.overflow_rows hcpu
    -- mark the first byte of the last value row that moves
    set mark := (p.cfg.maxContext + (n - 1)) * p.cfg.rowBytes
    set q := p.withContents hcpu (fun i => if i = mark then 1 else 0) fun _ => 0 with hq
    obtain ⟨hcfg, -, hcpu', -⟩ := q.evict_some d2d (show q.cpuPool = some fun _ => 0 from rfl) hn.ne'
    have hmoved := (h (fun i => if i = mark then 1 else 0) fun _ => 0).moved 0 1 (n - 1) hL
      (by decide) (by omega)
    rw [← hq] at hmoved
    have hlast : n - 1 < q.cfg.maxContext := by
      simp only [hq, withContents]
      omega
    have hrow : (q.evict d2d n).row 0 1 (q.cfg.maxContext + e + (n - 1)) =
        (evictPools d2d q n q.cfg.nLayers fun _ => 0).2.read
          (rowOffset q.cfg.overflowContext q.cfg.rowBytes 0 1 (e + (n - 1))) q.cfg.rowBytes := by
      rw [← hcfg, Nat.add_assoc, row_overflow _ hcpu' _ (by decide), hcfg]
    rw [hrow, q.row_fast (by decide) hlast] at hmoved
    have hsrc : rowOffset q.cfg.maxContext q.cfg.rowBytes 0 1 (n - 1) + 0 = mark := by
      simp [rowOffset, mark, hq, withContents]
    have hdst : rowOffset q.cfg.overflowContext q.cfg.rowBytes 0 1 (e + (n - 1)) + 0 =
        (p.cfg.overflowContext + (e + (n - 1))) * p.cfg.rowBytes := by
      simp [rowOffset, hq, withContents]
    obtain ⟨L, hL'⟩ : ∃ L, q.cfg.nLayers = L + 1 := Nat.exists_eq_succ_of_ne_zero hL.ne'
    have hin : (p.cfg.overflowContext + (e + (n - 1))) * p.cfg.rowBytes <
        q.cfg.overflowContext * q.cfg.entryBytes := by
      rw [Config.entryBytes_eq, ← Nat.mul_assoc]
      exact Nat.mul_lt_mul_of_pos_right (by simp only [hq, withContents]; omega) hh
    have hbyte := read_byte hmoved hh
    rw [hsrc, hdst, hL', evictPools_first d2d q hin] at hbyte
    have hmark : q.gpuPool mark = 1 := if_pos rfl
    rw [hmark] at hbyte
    split_ifs at hbyte with hlow
    · -- the mark arrived: the two banks have the same length and nothing was evicted before
      have hsame : (p.cfg.overflowContext + (e + (n - 1))) * p.cfg.rowBytes = mark := by
        by_contra hne
        simp [hq, withContents, hne] at hbyte
      have hlen := Nat.eq_of_mul_eq_mul_right hh hsame
      rw [Config.entryBytes_eq, ← Nat.mul_assoc] at hlow
      have hlow' : p.cfg.overflowContext + (e + (n - 1)) < n * 2 := Nat.lt_of_mul_lt_mul_right hlow
      omega
    · simp at hbyte
  · rintro ⟨hm, ho⟩ gpu cpu
    exact evictPreserves_whole d2d (p.withContents hcpu gpu cpu) rfl hn
      (by simp only [withContents]; omega) hroom hm ho

/-- Four fast tokens, each byte of the fast pool its own offset, and an overflow
pool of the same length. -/
def fullPool : KVCachePool :=
  { smallOverflowPool with
    gpuPool := UInt8.ofNat
    gpuTokens := 4 }

theorem evictPreserves_fullPool :
    (∀ gpu cpu, EvictPreserves Mem.move (fullPool.withContents rfl gpu cpu) 0 4) ↔
      4 = fullPool.cfg.maxContext ∧ 4 = fullPool.cfg.overflowContext :=
  evictPreserves_iff Mem.move fullPool rfl (by decide) (by decide) (by decide) (by decide)

/-- Evicting one token of four moves two key rows and no value row. -/
theorem evict_loses_value_row :
    ¬ ∀ (p : KVCachePool) (e n : ℕ), p.cpuPool.isSome → 0 < n → (n : ℤ) ≤ p.gpuTokens →
      p.gpuTokens ≤ p.cfg.maxContext → e + n ≤ p.cfg.overflowContext →
      EvictPreserves Mem.move p e n := by
  intro h
  have hmoved := (h fullPool 0 1 rfl (by decide) (by decide) (by decide) (by decide)).moved 0 1 0
    (by decide) (by decide) (by decide)
  exact absurd hmoved (by decide)

end KVCachePool

end JLLM
