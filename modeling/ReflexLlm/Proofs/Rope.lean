import Mathlib.Tactic.Tauto
import ReflexLlm.Spec.Rope

/-! The fused rotation and store against the rotation followed by the copies: each element
belongs to one thread, so that every schedule ends with the same memory. -/

namespace JLLM.Rope

open Launch

/-! ### Pairs and elements -/

/-- The thread of a pair. -/
def RopePair.tid (p : RopePair) (nHeads d : ℕ) : ℕ :=
  (if p.isQ then 0 else nHeads * d) + (p.head * d + p.pairIdx)

/-- The pair of an element, in heads of `2 * d` elements. -/
def elementPair (neox : Bool) (d : ℕ) (isQ : Bool) (i : ℕ) : RopePair :=
  ⟨isQ, i / (2 * d), if neox then i % (2 * d) % d else i % (2 * d) / 2⟩

theorem ropePair_q {nHeads d tid : ℕ} (h : tid < nHeads * d) :
    ropePair nHeads d tid = ⟨true, tid / d, tid % d⟩ := if_pos h

theorem ropePair_k {nHeads d tid : ℕ} (h : ¬ tid < nHeads * d) :
    ropePair nHeads d tid = ⟨false, (tid - nHeads * d) / d, (tid - nHeads * d) % d⟩ := if_neg h

theorem ropePair_tid (nHeads d tid : ℕ) : (ropePair nHeads d tid).tid nHeads d = tid := by
  by_cases hq : tid < nHeads * d
  · simp [ropePair_q hq, RopePair.tid, Nat.div_add_mod']
  · simp [ropePair_k hq, RopePair.tid, Nat.div_add_mod', Nat.le_of_not_lt hq]

theorem ropePair_bounds {nHeads nKvHeads d tid : ℕ} (h : tid < (nHeads + nKvHeads) * d) :
    (ropePair nHeads d tid).pairIdx < d ∧
      (ropePair nHeads d tid).head < if (ropePair nHeads d tid).isQ then nHeads else nKvHeads := by
  have hd : 0 < d := Nat.pos_of_mul_pos_left (Nat.zero_lt_of_lt h)
  rw [Nat.add_mul] at h
  by_cases hq : tid < nHeads * d
  · rw [ropePair_q hq]
    exact ⟨Nat.mod_lt _ hd, Nat.div_lt_of_lt_mul (Nat.mul_comm nHeads d ▸ hq)⟩
  · have hk : tid - nHeads * d < nKvHeads * d := by omega
    rw [ropePair_k hq]
    exact ⟨Nat.mod_lt _ hd, Nat.div_lt_of_lt_mul (Nat.mul_comm nKvHeads d ▸ hk)⟩

/-- A pair of a head of `2 * d` elements, given the place of an element in the head. -/
theorem elementPair_of_offset {neox : Bool} {d : ℕ} {p : RopePair} {off : ℕ} (hoff : off < 2 * d)
    (hpair : (if neox then off % d else off / 2) = p.pairIdx) :
    elementPair neox d p.isQ (p.head * (2 * d) + off) = p := by
  have hpos : 0 < 2 * d := Nat.zero_lt_of_lt hoff
  have hdiv : (p.head * (2 * d) + off) / (2 * d) = p.head := by
    rw [Nat.mul_comm p.head, Nat.mul_add_div hpos, Nat.div_eq_of_lt hoff, Nat.add_zero]
  have hmod : (p.head * (2 * d) + off) % (2 * d) = off := by
    rw [Nat.mul_comm p.head, Nat.mul_add_mod, Nat.mod_eq_of_lt hoff]
  rw [elementPair, hdiv, hmod, hpair]

theorem elementPair_idx0 (neox : Bool) {d : ℕ} {p : RopePair} (hp : p.pairIdx < d) :
    elementPair neox d p.isQ (p.idx0 neox (2 * d)) = p := by
  cases neox with
  | false => exact elementPair_of_offset (by simp; omega) (by simp)
  | true => exact elementPair_of_offset (by simp; omega) (by simp [Nat.mod_eq_of_lt hp])

theorem elementPair_idx1 (neox : Bool) {d : ℕ} {p : RopePair} (hp : p.pairIdx < d) :
    elementPair neox d p.isQ (p.idx1 neox (2 * d)) = p := by
  cases neox with
  | false => exact elementPair_of_offset (by simp; omega) (by simp; omega)
  | true => exact elementPair_of_offset (by simp; omega) (by simp [Nat.mod_eq_of_lt hp])

theorem idx_elementPair (neox : Bool) {d : ℕ} (hd : 0 < d) (isQ : Bool) (i : ℕ) :
    (elementPair neox d isQ i).idx0 neox (2 * d) = i ∨
      (elementPair neox d isQ i).idx1 neox (2 * d) = i := by
  have hi : i / (2 * d) * (2 * d) + i % (2 * d) = i := Nat.div_add_mod' i (2 * d)
  have hlt : i % (2 * d) < 2 * d := Nat.mod_lt i (by omega)
  cases neox with
  | false =>
    simp only [RopePair.idx0, RopePair.idx1, elementPair, Bool.false_eq_true, if_false]
    omega
  | true =>
    simp only [RopePair.idx0, RopePair.idx1, elementPair, if_true]
    by_cases hlow : i % (2 * d) < d
    · rw [Nat.mod_eq_of_lt hlow]
      exact .inl hi
    · have hmod : i % (2 * d) % d = i % (2 * d) - d := by
        rw [Nat.mod_eq_sub_mod (Nat.le_of_not_lt hlow), Nat.mod_eq_of_lt (by omega)]
      rw [hmod]
      omega

/-- One of the two elements of the pair. -/
def RopePair.Covers (p : RopePair) (neox : Bool) (d i : ℕ) : Prop :=
  p.idx0 neox (2 * d) = i ∨ p.idx1 neox (2 * d) = i

theorem RopePair.array_q {p : RopePair} (hq : p.isQ = true) : p.array = .q := by
  rw [RopePair.array, hq, if_pos rfl]

theorem RopePair.array_k {p : RopePair} (hq : p.isQ = false) : p.array = .k := by
  rw [RopePair.array, hq, if_neg Bool.false_ne_true]

theorem RopePair.array_eq (p : RopePair) : p.array = .q ∨ p.array = .k := by
  cases hq : p.isQ with
  | true => exact .inl (RopePair.array_q hq)
  | false => exact .inr (RopePair.array_k hq)

theorem RopePair.covers_iff {neox : Bool} {d : ℕ} {p : RopePair} (hp : p.pairIdx < d) {i : ℕ} :
    p.Covers neox d i ↔ elementPair neox d p.isQ i = p := by
  constructor
  · rintro (rfl | rfl)
    · exact elementPair_idx0 neox hp
    · exact elementPair_idx1 neox hp
  · intro hpair
    have hidx := idx_elementPair neox (Nat.zero_lt_of_lt hp) p.isQ i
    rwa [hpair] at hidx

theorem elementPair_bounds (neox : Bool) {d n i : ℕ} (isQ : Bool) (hi : i < n * (2 * d)) :
    (elementPair neox d isQ i).pairIdx < d ∧ (elementPair neox d isQ i).head < n := by
  have hpos : 0 < 2 * d := Nat.pos_of_mul_pos_left (Nat.zero_lt_of_lt hi)
  refine ⟨?_, Nat.div_lt_of_lt_mul (Nat.mul_comm n (2 * d) ▸ hi)⟩
  have hlt := Nat.mod_lt i hpos
  cases neox with
  | false => exact Nat.div_lt_of_lt_mul hlt
  | true => exact Nat.mod_lt _ (by omega)

/-- A pair within the heads is that of its thread. -/
theorem RopePair.tid_decodes {nHeads nKvHeads d : ℕ} {p : RopePair} (hp : p.pairIdx < d)
    (hhead : p.head < if p.isQ then nHeads else nKvHeads) :
    p.tid nHeads d < (nHeads + nKvHeads) * d ∧ ropePair nHeads d (p.tid nHeads d) = p := by
  obtain ⟨isQ, head, pairIdx⟩ := p
  change pairIdx < d at hp
  have hbelow {n : ℕ} (hn : head < n) : head * d + pairIdx < n * d := by
    have hmul := Nat.mul_le_mul_right d hn
    rw [Nat.succ_mul] at hmul
    exact Nat.lt_of_lt_of_le (Nat.add_lt_add_left hp _) hmul
  have hdiv : (head * d + pairIdx) / d = head := by
    rw [Nat.mul_comm, Nat.mul_add_div (Nat.zero_lt_of_lt hp), Nat.div_eq_of_lt hp, Nat.add_zero]
  have hmod : (head * d + pairIdx) % d = pairIdx := by
    rw [Nat.mul_comm, Nat.mul_add_mod, Nat.mod_eq_of_lt hp]
  rw [Nat.add_mul]
  cases isQ with
  | true =>
    have htid : head * d + pairIdx < nHeads * d := hbelow hhead
    simp only [RopePair.tid, if_true, Nat.zero_add]
    rw [ropePair_q htid, hdiv, hmod]
    exact ⟨by omega, rfl⟩
  | false =>
    have htid : head * d + pairIdx < nKvHeads * d := hbelow hhead
    simp only [RopePair.tid, Bool.false_eq_true, if_false]
    rw [ropePair_k (by omega), Nat.add_sub_cancel_left, hdiv, hmod]
    exact ⟨by omega, rfl⟩

theorem half_double (d : ℕ) : 2 * d / 2 = d := Nat.mul_div_cancel_left d (by decide)

/-! ### What the threads touch -/

section

variable {H F : Type} [NatCast F] [Add F] [Sub F] [Mul F] [Div F] (math : RopeMath H F)
variable (nHeads nKvHeads d position : ℕ) (thetaBase : F) (neox : Bool)

theorem ropeKernel_touches [Nonempty H] {tid : ℕ} {loc : RopeArray × ℕ} :
    (ropeKernel math nHeads nKvHeads (2 * d) position thetaBase neox tid).Touches loc ↔
      tid < (nHeads + nKvHeads) * d ∧ (ropePair nHeads d tid).array = loc.1 ∧
        (ropePair nHeads d tid).Covers neox d loc.2 := by
  simp only [ropeKernel, half_double]
  by_cases htid : tid < (nHeads + nKvHeads) * d
  · rw [if_neg (Nat.not_le_of_lt htid)]
    simp only [Thread.touches_read_bind, Thread.touches_bind, Thread.touches_write, exists_const,
      Prod.ext_iff, RopePair.Covers, htid]
    tauto
  · rw [if_pos (Nat.le_of_not_lt htid)]
    simp [htid]

theorem ropeStorePair_touches [Nonempty H] {tid : ℕ} {loc : RopeArray × ℕ} :
    (ropeStorePair math nHeads nKvHeads (2 * d) position thetaBase neox tid).Touches loc ↔
      tid < (nHeads + nKvHeads) * d ∧ ((ropePair nHeads d tid).array = loc.1 ∨
          (ropePair nHeads d tid).isQ = false ∧ .kCacheDst = loc.1) ∧
        (ropePair nHeads d tid).Covers neox d loc.2 := by
  simp only [ropeStorePair, half_double]
  by_cases htid : tid < (nHeads + nKvHeads) * d
  · rw [if_pos htid]
    cases hq : (ropePair nHeads d tid).isQ with
    | true =>
      simp only [Thread.touches_read_bind, Thread.touches_bind, Thread.touches_write, exists_const,
        Prod.ext_iff, RopePair.Covers, htid, if_true, Thread.touches_pure]
      tauto
    | false =>
      simp only [Thread.touches_read_bind, Thread.touches_bind, Thread.touches_write, exists_const,
        Prod.ext_iff, RopePair.Covers, htid, Bool.false_eq_true, if_false]
      tauto
  · rw [if_neg htid]
    simp [htid]

omit [NatCast F] [Add F] [Sub F] [Mul F] [Div F] in
theorem storeV_touches [Nonempty H] {tid : ℕ} {loc : RopeArray × ℕ} :
    (storeV nKvHeads (2 * d) tid : Thread _ H Unit).Touches loc ↔
      tid < nKvHeads * (2 * d) ∧ (.v = loc.1 ∨ .vCacheDst = loc.1) ∧ tid = loc.2 := by
  rw [storeV]
  by_cases hkv : tid < nKvHeads * (2 * d)
  · rw [if_pos hkv]
    simp only [Thread.touches_read_bind, Thread.touches_write, exists_const, Prod.ext_iff, hkv]
    tauto
  · rw [if_neg hkv]
    simp [hkv]

theorem ropeStoreKernel_touches [Nonempty H] {tid : ℕ} {loc : RopeArray × ℕ} :
    (ropeStoreKvFp16Kernel math nHeads nKvHeads (2 * d) position thetaBase neox tid).Touches loc ↔
      (tid < (nHeads + nKvHeads) * d ∧ ((ropePair nHeads d tid).array = loc.1 ∨
          (ropePair nHeads d tid).isQ = false ∧ .kCacheDst = loc.1) ∧
        (ropePair nHeads d tid).Covers neox d loc.2) ∨
      tid < nKvHeads * (2 * d) ∧ (.v = loc.1 ∨ .vCacheDst = loc.1) ∧ tid = loc.2 := by
  rw [ropeStoreKvFp16Kernel, Thread.touches_bind, ropeStorePair_touches, storeV_touches]

/-- The thread that a place belongs to. -/
def ropeOwner : RopeArray × ℕ → ℕ
  | (.q, i) => (elementPair neox d true i).tid nHeads d
  | (.k, i) | (.kCacheDst, i) => (elementPair neox d false i).tid nHeads d
  | (.v, i) | (.vCacheDst, i) => i

variable {nHeads nKvHeads d neox}

theorem pair_owner {tid i : ℕ} (htid : tid < (nHeads + nKvHeads) * d)
    (hcov : (ropePair nHeads d tid).Covers neox d i) :
    (elementPair neox d (ropePair nHeads d tid).isQ i).tid nHeads d = tid := by
  rw [(RopePair.covers_iff (ropePair_bounds htid).1).mp hcov, ropePair_tid]

theorem ropeKernel_owner [Nonempty H] {tid : ℕ} {loc : RopeArray × ℕ}
    (h : (ropeKernel math nHeads nKvHeads (2 * d) position thetaBase neox tid).Touches loc) :
    ropeOwner nHeads d neox loc = tid := by
  obtain ⟨htid, harray, hcov⟩ := (ropeKernel_touches math _ _ _ position thetaBase _).mp h
  have hown := pair_owner htid hcov
  obtain ⟨array, i⟩ := loc
  obtain rfl : _ = array := harray
  rw [RopePair.array]
  cases hq : (ropePair nHeads d tid).isQ <;> rwa [hq] at hown

theorem ropeStoreKernel_owner [Nonempty H] {tid : ℕ} {loc : RopeArray × ℕ}
    (h : (ropeStoreKvFp16Kernel math nHeads nKvHeads (2 * d) position thetaBase neox tid).Touches
      loc) : ropeOwner nHeads d neox loc = tid := by
  obtain ⟨array, i⟩ := loc
  rcases (ropeStoreKernel_touches math _ _ _ position thetaBase _).mp h with
    ⟨htid, harray, hcov⟩ | ⟨-, harray, htid⟩
  · have hown := pair_owner htid hcov
    rcases harray with harray | ⟨hq, harray⟩
    · obtain rfl : _ = array := harray
      rw [RopePair.array]
      cases hq : (ropePair nHeads d tid).isQ <;> rwa [hq] at hown
    · obtain rfl : _ = array := harray
      rwa [hq] at hown
  · rcases harray with rfl | rfl
    · exact htid.symm
    · exact htid.symm

theorem ropeKernel_separate [Nonempty H] :
    Separate (ropeKernel math nHeads nKvHeads (2 * d) position thetaBase neox) :=
  fun _ _ _ ht hu => (ropeKernel_owner math position thetaBase ht).symm.trans
    (ropeKernel_owner math position thetaBase hu)

theorem ropeStoreKernel_separate [Nonempty H] :
    Separate (ropeStoreKvFp16Kernel math nHeads nKvHeads (2 * d) position thetaBase neox) :=
  fun _ _ _ ht hu => (ropeStoreKernel_owner math position thetaBase ht).symm.trans
    (ropeStoreKernel_owner math position thetaBase hu)

/-! ### What the threads leave -/

/-- The memory with the pair rotated. -/
def ropeRotated (headDim : ℕ) (neox : Bool) (p : RopePair) (m : RopeArray × ℕ → H) :
    RopeArray × ℕ → H :=
  let loc0 := (p.array, p.idx0 neox headDim)
  let loc1 := (p.array, p.idx1 neox headDim)
  let r := ropeRotate math headDim position thetaBase p.pairIdx (m loc0) (m loc1)
  Function.update (Function.update m loc0 r.1) loc1 r.2

theorem ropeKernel_run {tid : ℕ} (htid : tid < (nHeads + nKvHeads) * d) (m : RopeArray × ℕ → H) :
    ((ropeKernel math nHeads nKvHeads (2 * d) position thetaBase neox tid).run m).2 =
      ropeRotated math position thetaBase (2 * d) neox (ropePair nHeads d tid) m := by
  simp only [ropeKernel, half_double]
  rw [if_neg (Nat.not_le_of_lt htid)]
  simp [ropeRotated]

theorem RopePair.idx0_ne_idx1 (neox : Bool) {d : ℕ} {p : RopePair} (hp : p.pairIdx < d) :
    p.idx0 neox (2 * d) ≠ p.idx1 neox (2 * d) := by
  rw [RopePair.idx0, RopePair.idx1]
  cases neox with
  | false => simp
  | true =>
    simp
    omega

theorem ropeStorePair_run {tid : ℕ} (htid : tid < (nHeads + nKvHeads) * d) (m : RopeArray × ℕ → H) :
    ((ropeStorePair math nHeads nKvHeads (2 * d) position thetaBase neox tid).run m).2 =
      let p := ropePair nHeads d tid
      let m' := ropeRotated math position thetaBase (2 * d) neox p m
      if p.isQ then m'
      else Function.update (Function.update m' (.kCacheDst, p.idx0 neox (2 * d))
        (m' (.k, p.idx0 neox (2 * d)))) (.kCacheDst, p.idx1 neox (2 * d))
        (m' (.k, p.idx1 neox (2 * d))) := by
  simp only [ropeStorePair, half_double]
  rw [if_pos htid]
  cases hq : (ropePair nHeads d tid).isQ with
  | true => simp [ropeRotated]
  | false =>
    have hne := RopePair.idx0_ne_idx1 neox (ropePair_bounds htid).1
    simp [ropeRotated, RopePair.array, hq, hne]

/-- The second half changes the cache of `v` only. -/
theorem ropeStoreKernel_run_pair (tid : ℕ) (m : RopeArray × ℕ → H) {loc : RopeArray × ℕ}
    (hloc : loc.1 ≠ .v ∧ loc.1 ≠ .vCacheDst) :
    ((ropeStoreKvFp16Kernel math nHeads nKvHeads (2 * d) position thetaBase neox tid).run m).2 loc =
      ((ropeStorePair math nHeads nKvHeads (2 * d) position thetaBase neox tid).run m).2 loc := by
  have hH : Nonempty H := ⟨m loc⟩
  rw [ropeStoreKvFp16Kernel, Thread.run_bind]
  refine Thread.run_untouched (fun htouch => ?_) _
  obtain ⟨-, harray, -⟩ := storeV_touches _ _ |>.mp htouch
  exact harray.elim (fun h => hloc.1 h.symm) fun h => hloc.2 h.symm

/-- Of `q` and `k` both kernels leave the same. -/
theorem ropeStoreKernel_run_eq (tid : ℕ) (m : RopeArray × ℕ → H) {loc : RopeArray × ℕ}
    (hloc : loc.1 = .q ∨ loc.1 = .k) :
    ((ropeStoreKvFp16Kernel math nHeads nKvHeads (2 * d) position thetaBase neox tid).run m).2 loc =
      ((ropeKernel math nHeads nKvHeads (2 * d) position thetaBase neox tid).run m).2 loc := by
  have hother : loc.1 ≠ .v ∧ loc.1 ≠ .vCacheDst := by
    rcases hloc with hloc | hloc <;> simp [hloc]
  have hcache (i : ℕ) : loc ≠ (.kCacheDst, i) := by
    rintro rfl
    simp at hloc
  rw [ropeStoreKernel_run_pair math position thetaBase tid m hother]
  by_cases htid : tid < (nHeads + nKvHeads) * d
  · rw [ropeStorePair_run math position thetaBase htid, ropeKernel_run math position thetaBase htid]
    simp only
    split_ifs
    · rfl
    · rw [Function.update_of_ne (hcache _), Function.update_of_ne (hcache _)]
  · simp [ropeStorePair, ropeKernel, htid, Nat.le_of_not_lt htid]

/-- The store of a rotated element of `k`. -/
theorem ropeStoreKernel_run_kCache {tid : ℕ} (htid : tid < (nHeads + nKvHeads) * d)
    (hq : (ropePair nHeads d tid).isQ = false) {i : ℕ}
    (hcov : (ropePair nHeads d tid).Covers neox d i) (m : RopeArray × ℕ → H) :
    ((ropeStoreKvFp16Kernel math nHeads nKvHeads (2 * d) position thetaBase neox tid).run m).2
        (.kCacheDst, i) =
      ((ropeKernel math nHeads nKvHeads (2 * d) position thetaBase neox tid).run m).2 (.k, i) := by
  rw [ropeStoreKernel_run_pair math position thetaBase tid m (by simp),
    ropeStorePair_run math position thetaBase htid, ropeKernel_run math position thetaBase htid]
  simp only [hq, Bool.false_eq_true, if_false]
  have hne := RopePair.idx0_ne_idx1 neox (ropePair_bounds htid).1
  rcases hcov with rfl | rfl
  · rw [Function.update_of_ne (by simpa using hne), Function.update_self]
  · rw [Function.update_self]

/-- `v` is left, and the store of an element of it. -/
theorem ropeStoreKernel_run_v (tid : ℕ) (m : RopeArray × ℕ → H) :
    (∀ i, ((ropeStoreKvFp16Kernel math nHeads nKvHeads (2 * d) position thetaBase neox tid).run m).2
        (.v, i) = m (.v, i)) ∧
      (tid < nKvHeads * (2 * d) →
        ((ropeStoreKvFp16Kernel math nHeads nKvHeads (2 * d) position thetaBase neox tid).run m).2
          (.vCacheDst, tid) = m (.v, tid)) := by
  have hH : Nonempty H := ⟨m (.v, tid)⟩
  have hpair (i : ℕ) : ((ropeStorePair math nHeads nKvHeads (2 * d) position thetaBase neox tid).run
      m).2 (.v, i) = m (.v, i) := by
    refine Thread.run_untouched (fun htouch => ?_) m
    obtain ⟨-, harray, -⟩ := (ropeStorePair_touches math _ _ _ position thetaBase _).mp htouch
    rcases RopePair.array_eq (ropePair nHeads d tid) with hq | hq <;> simp [hq] at harray
  rw [ropeStoreKvFp16Kernel, Thread.run_bind, storeV]
  refine ⟨fun i => ?_, fun htid => ?_⟩
  · split_ifs
    · simp [hpair]
    · simp [hpair]
  · rw [if_pos htid]
    simp [hpair]

theorem ropeStoreKernel_stores {tid : ℕ} (htid : tid < (nHeads + nKvHeads) * d) {i : ℕ}
    (hcov : (ropePair nHeads d tid).Covers neox d i) :
    (ropeStoreKvFp16Kernel math nHeads nKvHeads (2 * d) position thetaBase neox tid).Stores
      ((ropePair nHeads d tid).array, i) := by
  refine Thread.Stores.bind_left ?_ _
  simp only [ropeStorePair, half_double]
  rw [if_pos htid]
  simp only [Thread.stores_read_bind, Thread.stores_write_bind, Prod.mk.injEq, true_and]
  intro h0 h1
  rcases hcov with h | h
  · exact .inl h
  · exact .inr (.inl h)

/-! ### The launches -/

theorem ropeInplace_launched {tid : ℕ} (h : tid < (nHeads + nKvHeads) * d) :
    tid < ((nHeads + nKvHeads) * (2 * d / 2) + blockSize - 1) / blockSize * blockSize := by
  rw [half_double]
  exact Nat.lt_of_lt_of_le h (le_blocks_mul (by decide) _)

theorem ropeStore_launched (nHeads : ℕ) {nKvHeads d tid : ℕ}
    (h : tid < (nHeads + nKvHeads) * d ∨ tid < nKvHeads * (2 * d)) :
    tid < ((if (nHeads + nKvHeads) * (2 * d / 2) > nKvHeads * (2 * d) then
      (nHeads + nKvHeads) * (2 * d / 2) else nKvHeads * (2 * d)) + blockSize - 1) /
        blockSize * blockSize := by
  refine Nat.lt_of_lt_of_le ?_ (le_blocks_mul (by decide) _)
  rw [half_double]
  split_ifs <;> omega

/-- The pair of an element within the heads, as its thread decodes it. -/
theorem element_thread (nHeads nKvHeads : ℕ) (neox : Bool) {d n i : ℕ} (isQ : Bool)
    (hn : n = if isQ then nHeads else nKvHeads) (hi : i < n * (2 * d)) :
    ∃ tid < (nHeads + nKvHeads) * d, (ropePair nHeads d tid).isQ = isQ ∧
      (ropePair nHeads d tid).Covers neox d i := by
  obtain ⟨hpair, hhead⟩ := elementPair_bounds neox isQ hi
  rw [hn] at hhead
  obtain ⟨htid, hdecodes⟩ := RopePair.tid_decodes hpair hhead
  refine ⟨_, htid, ?_⟩
  rw [hdecodes]
  exact ⟨rfl, (RopePair.covers_iff hpair).mpr rfl⟩

theorem RopePair.Covers.lt {p : RopePair} {n i : ℕ} (hcov : p.Covers neox d i) (hp : p.pairIdx < d)
    (hhead : p.head < n) : i < n * (2 * d) := by
  have hpair := (RopePair.covers_iff hp).mp hcov
  have hdiv : i / (2 * d) = p.head := congrArg RopePair.head hpair
  rw [← hdiv] at hhead
  exact (Nat.div_lt_iff_lt_mul (by omega)).mp hhead

variable {mem memF memP : RopeArray × ℕ → H}

section

variable [Nonempty H]
variable (hF : Ends (ropeInplaceStoreKvFp16 math nHeads nKvHeads (2 * d) position thetaBase neox)
    mem memF)
variable (hP : Ends (ropeInplace math nHeads nKvHeads (2 * d) position thetaBase neox) mem memP)

include hP in
theorem ropeInplace_own {tid : ℕ} {loc : RopeArray × ℕ} (htid : tid < (nHeads + nKvHeads) * d)
    (harray : (ropePair nHeads d tid).array = loc.1)
    (hcov : (ropePair nHeads d tid).Covers neox d loc.2) :
    memP loc =
      ((ropeKernel math nHeads nKvHeads (2 * d) position thetaBase neox tid).run mem).2 loc := by
  refine hP.grid_own (ropeKernel_separate math position thetaBase) (ropeInplace_launched htid) ?_
  exact (ropeKernel_touches math _ _ _ position thetaBase _).mpr ⟨htid, harray, hcov⟩

include hP in
theorem ropeInplace_rest {loc : RopeArray × ℕ} (h : ¬ ∃ tid < (nHeads + nKvHeads) * d,
      (ropePair nHeads d tid).array = loc.1 ∧ (ropePair nHeads d tid).Covers neox d loc.2) :
    memP loc = mem loc := by
  refine hP.grid_rest (ropeKernel_separate math position thetaBase) fun tid htouch => h ?_
  exact ⟨tid, (ropeKernel_touches math _ _ _ position thetaBase _).mp htouch⟩

include hP in
/-- `rope_inplace` leaves all but `q` and `k`. -/
theorem ropeInplace_other {loc : RopeArray × ℕ} (hloc : loc.1 ≠ .q ∧ loc.1 ≠ .k) :
    memP loc = mem loc := by
  refine ropeInplace_rest math position thetaBase hP ?_
  rintro ⟨tid, -, harray, -⟩
  rcases RopePair.array_eq (ropePair nHeads d tid) with hq | hk
  · exact hloc.1 (harray.symm.trans hq)
  · exact hloc.2 (harray.symm.trans hk)

include hF in
theorem ropeStore_own {tid : ℕ} {loc : RopeArray × ℕ}
    (hlaunched : tid < (nHeads + nKvHeads) * d ∨ tid < nKvHeads * (2 * d))
    (htouch : (ropeStoreKvFp16Kernel math nHeads nKvHeads (2 * d) position thetaBase neox
      tid).Touches loc) :
    memF loc = ((ropeStoreKvFp16Kernel math nHeads nKvHeads (2 * d) position thetaBase neox
      tid).run mem).2 loc :=
  hF.grid_own (ropeStoreKernel_separate math position thetaBase)
    (ropeStore_launched nHeads hlaunched) htouch

include hF in
theorem ropeStore_rest {loc : RopeArray × ℕ}
    (h : ∀ tid, ¬ (ropeStoreKvFp16Kernel math nHeads nKvHeads (2 * d) position thetaBase neox
      tid).Touches loc) : memF loc = mem loc :=
  hF.grid_rest (ropeStoreKernel_separate math position thetaBase) h

include hF hP in
theorem ropeStore_rotates {loc : RopeArray × ℕ} (hloc : loc.1 = .q ∨ loc.1 = .k) :
    memF loc = memP loc := by
  by_cases htouch : ∃ tid < (nHeads + nKvHeads) * d, (ropePair nHeads d tid).array = loc.1 ∧
      (ropePair nHeads d tid).Covers neox d loc.2
  · obtain ⟨tid, htid, harray, hcov⟩ := htouch
    have htouch := (ropeStoreKernel_touches math _ _ _ position thetaBase _).mpr
      (.inl ⟨htid, .inl harray, hcov⟩)
    have hF' := ropeStore_own math position thetaBase hF (.inl htid) htouch
    have hP' := ropeInplace_own math position thetaBase hP htid harray hcov
    rw [hF', hP', ropeStoreKernel_run_eq math position thetaBase tid mem hloc]
  · rw [ropeInplace_rest math position thetaBase hP htouch]
    refine ropeStore_rest math position thetaBase hF fun tid h => ?_
    rcases (ropeStoreKernel_touches math _ _ _ position thetaBase _).mp h with
      ⟨htid, harray | ⟨-, harray⟩, hcov⟩ | ⟨-, harray, -⟩
    · exact htouch ⟨tid, htid, harray, hcov⟩
    · simp [← harray] at hloc
    · rcases harray with harray | harray <;> simp [← harray] at hloc

include hF hP in
theorem ropeStore_kCache {i : ℕ} (hi : i < nKvHeads * (2 * d)) :
    memF (.kCacheDst, i) = memP (.k, i) := by
  obtain ⟨tid, htid, hq, hcov⟩ := element_thread nHeads nKvHeads neox false rfl hi
  have hF' : memF (.kCacheDst, i) = _ := ropeStore_own math position thetaBase hF (.inl htid)
    ((ropeStoreKernel_touches math _ _ _ position thetaBase _).mpr
      (.inl ⟨htid, .inr ⟨hq, rfl⟩, hcov⟩))
  have hP' : memP (.k, i) = _ :=
    ropeInplace_own math position thetaBase hP htid (RopePair.array_k hq) hcov
  rw [hF', hP', ropeStoreKernel_run_kCache math position thetaBase htid hq hcov mem]

include hF in
theorem ropeStore_vCache {i : ℕ} (hi : i < nKvHeads * (2 * d)) :
    memF (.v, i) = mem (.v, i) ∧ memF (.vCacheDst, i) = mem (.v, i) := by
  have htouch {array : RopeArray} (h : .v = array ∨ .vCacheDst = array) :
      (ropeStoreKvFp16Kernel math nHeads nKvHeads (2 * d) position thetaBase neox i).Touches
        (array, i) :=
    (ropeStoreKernel_touches math _ _ _ position thetaBase _).mpr (.inr ⟨hi, h, rfl⟩)
  rw [ropeStore_own math position thetaBase hF (.inr hi) (htouch (.inl rfl)),
    ropeStore_own math position thetaBase hF (.inr hi) (htouch (.inr rfl))]
  exact ⟨(ropeStoreKernel_run_v math position thetaBase i mem).1 i,
    (ropeStoreKernel_run_v math position thetaBase i mem).2 hi⟩

include hF in
/-- Behind the row nothing is changed. -/
theorem ropeStore_behind {i : ℕ} (hi : ¬ i < nKvHeads * (2 * d)) {array : RopeArray}
    (harray : array ≠ .q ∧ array ≠ .k) : memF (array, i) = mem (array, i) := by
  refine ropeStore_rest math position thetaBase hF fun tid htouch => ?_
  rcases (ropeStoreKernel_touches math _ _ _ position thetaBase _).mp htouch with
    ⟨htid, hpair, hcov⟩ | ⟨hlt, -, htid⟩
  · have hother : (ropePair nHeads d tid).array ≠ array := by
      rintro rfl
      rcases RopePair.array_eq (ropePair nHeads d tid) with hq | hk
      · exact harray.1 hq
      · exact harray.2 hk
    obtain ⟨hidx, hhead⟩ := ropePair_bounds htid
    rw [(hpair.resolve_left hother).1] at hhead
    exact hi (hcov.lt hidx hhead)
  · obtain rfl : tid = i := htid
    exact hi hlt

include hF hP in
/-- The fused launch leaves what the rotation and the copies leave. -/
theorem ropeStore_eq_copyKv : memF = copyKv nKvHeads (2 * d) memP := by
  funext ⟨array, i⟩
  have hother (array : RopeArray) (h : array ≠ .q ∧ array ≠ .k) : memP (array, i) = mem (array, i) :=
    ropeInplace_other math position thetaBase hP h
  have hbehind (hi : ¬ i < nKvHeads * (2 * d)) (array : RopeArray) (h : array ≠ .q ∧ array ≠ .k) :
      memF (array, i) = memP (array, i) :=
    (ropeStore_behind math position thetaBase hF hi h).trans (hother array h).symm
  cases array with
  | q => exact ropeStore_rotates math position thetaBase hF hP (.inl rfl)
  | k => exact ropeStore_rotates math position thetaBase hF hP (.inr rfl)
  | v =>
    by_cases hi : i < nKvHeads * (2 * d)
    · exact (ropeStore_vCache math position thetaBase hF hi).1.trans (hother .v (by simp)).symm
    · exact hbehind hi .v (by simp)
  | kCacheDst =>
    rw [copyKv]
    split_ifs with hi
    · exact ropeStore_kCache math position thetaBase hF hP hi
    · exact hbehind hi .kCacheDst (by simp)
  | vCacheDst =>
    rw [copyKv]
    split_ifs with hi
    · exact (ropeStore_vCache math position thetaBase hF hi).2.trans (hother .v (by simp)).symm
    · exact hbehind hi .vCacheDst (by simp)

end

end

end JLLM.Rope
