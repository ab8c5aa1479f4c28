import Mathlib.Analysis.Real.Sqrt
import ReflexLlm.Spec.Norm

/-! The RMSNorm kernel comes, under every schedule, to one result in each row, and in exact
arithmetic to that of the CPU path. -/

namespace JLLM.Norm

open BlockMax Launch RaceFree

variable {F : Type} {c : NormCall F}

/-! ### Places -/

/-- The two arrays are one, or they do not meet. -/
def Overlays (n p q : ℕ) : Prop := p = q ∨ p + n ≤ q ∨ q + n ≤ p

/-- Where a call may put its output: over an input, as the QK norms do, or apart from it. -/
structure NormCall.Placed (c : NormCall F) : Prop where
  x : Overlays (c.rows * c.hiddenDim) c.output c.x
  residual : ∀ r, c.residual = some r → Overlays (c.rows * c.hiddenDim) c.output r
  weight : c.weightFp32 = true ∨ c.output + c.rows * c.hiddenDim ≤ c.weight ∨
    c.weight + c.hiddenDim ≤ c.output

/-- What `val` is made from. -/
def NormCall.Reads (c : NormCall F) (i : ℕ) (loc : NormPlace) : Prop :=
  loc = .half (c.x + i) ∨ ∃ r, c.residual = some r ∧ loc = .half (r + i)

/-- An element of the output. -/
def NormCall.out (c : NormCall F) (i : ℕ) : NormPlace := .half (c.output + i)

theorem NormCall.Placed.eq_of_reads (h : c.Placed) {i j : ℕ} (hi : i < c.rows * c.hiddenDim)
    (hj : j < c.rows * c.hiddenDim) (hread : c.Reads j (c.out i)) : i = j := by
  rcases hread with heq | ⟨r, hr, heq⟩
  · have haddr : c.output + i = c.x + j := NormPlace.half.inj heq
    rcases h.x with h | h | h <;> omega
  · have haddr : c.output + i = r + j := NormPlace.half.inj heq
    rcases h.residual r hr with h | h | h <;> omega

theorem NormCall.Placed.weightPlace_ne (h : c.Placed) {i j : ℕ} (hi : i < c.rows * c.hiddenDim)
    (hj : j < c.hiddenDim) : c.weightPlace j ≠ c.out i := by
  rw [NormCall.weightPlace, NormCall.out]
  split_ifs with hfp
  · exact NormPlace.noConfusion
  · intro heq
    have haddr : c.weight + j = c.output + i := NormPlace.half.inj heq
    rcases h.weight with h | h | h
    · exact hfp h
    · omega
    · omega

theorem NormCall.Reads.ne_blockPartial {i row slot : ℕ} (h : c.Reads i (.blockPartial row slot)) :
    False := by
  rcases h with h | ⟨r, -, h⟩ <;> cases h

theorem NormCall.weightPlace_ne_blockPartial (i row slot : ℕ) :
    c.weightPlace i ≠ .blockPartial row slot := by
  rw [NormCall.weightPlace]
  split_ifs <;> exact NormPlace.noConfusion

/-- An element of a row. -/
theorem row_index_lt {row rows dim i : ℕ} (hrow : row < rows) (hi : i < dim) :
    row * dim + i < rows * dim := by
  have hmul := Nat.mul_le_mul_right dim hrow
  rw [Nat.succ_mul] at hmul
  omega

theorem row_index_inj {row row' dim i j : ℕ} (hi : i < dim) (hj : j < dim)
    (h : row * dim + i = row' * dim + j) : row = row' ∧ i = j := by
  have hp := number_inj (p := (row, i)) (q := (row', j)) hi hj h
  exact ⟨congrArg Prod.fst hp, congrArg Prod.snd hp⟩

/-! ### The threads -/

section

variable [Add F]

theorem readVal_run (i : ℕ) (m : NormPlace → F) : (readVal c i).run m = (hostVal c m i, m) := by
  rw [readVal, hostVal]
  cases c.residual with
  | none => rfl
  | some r => rfl

theorem readVal_touches {i : ℕ} {loc : NormPlace} (h : (readVal c i).Touches loc) :
    c.Reads i loc := by
  rw [readVal] at h
  cases hres : c.residual with
  | none =>
    rw [hres] at h
    rcases h with h | ⟨v, h⟩
    · exact .inl h.symm
    · exact h.elim
  | some r =>
    rw [hres] at h
    rcases h with h | ⟨v, h | ⟨u, h⟩⟩
    · exact .inl h.symm
    · exact .inr ⟨r, hres, h.symm⟩
    · exact h.elim

theorem readVal_writes {i : ℕ} {loc : NormPlace} : ¬ (readVal c i).Writes loc := by
  intro h
  rw [readVal] at h
  cases hres : c.residual with
  | none =>
    rw [hres] at h
    exact h.elim fun v h => h
  | some r =>
    rw [hres] at h
    exact h.elim fun v h => h.elim fun u h => h

theorem sumPartials_run (row : ℕ) (l : List ℕ) (total : F) (m : NormPlace → F) :
    (sumPartials row total l).run m =
      (l.foldl (fun total w => total + m (.blockPartial row w)) total, m) := by
  induction l generalizing total with
  | nil => rfl
  | cons w l ih =>
    rw [sumPartials, Thread.run_bind, Thread.run_read]
    exact ih _

theorem sumPartials_touches {row : ℕ} {l : List ℕ} {total : F} {loc : NormPlace}
    (h : (sumPartials row total l).Touches loc) : ∃ w, loc = .blockPartial row w := by
  induction l generalizing total with
  | nil => exact h.elim
  | cons w l ih =>
    rcases h with h | ⟨v, h⟩
    · exact ⟨w, h.symm⟩
    · exact ih h

theorem sumPartials_writes {row : ℕ} {l : List ℕ} {total : F} {loc : NormPlace} :
    ¬ (sumPartials row total l).Writes loc := by
  induction l generalizing total with
  | nil => exact id
  | cons w l ih => exact fun h => h.elim fun v h => ih h

section

variable [NatCast F] [Div F] {math : NormMath F}

theorem reduceWarps_touches {stride row tid : ℕ} {loc : NormPlace}
    (h : (reduceWarps math c stride row tid).Touches loc) :
    tid = 0 ∧ ∃ w, loc = .blockPartial row w := by
  rw [reduceWarps] at h
  split_ifs at h with htid
  · refine ⟨htid, ?_⟩
    rcases Thread.Touches.of_bind h with h | ⟨v, h⟩
    · exact sumPartials_touches h
    · exact ⟨0, ((Thread.touches_write _).mp h).symm⟩
  · exact h.elim

theorem reduceWarps_writes {stride row tid : ℕ} {loc : NormPlace}
    (h : (reduceWarps math c stride row tid).Writes loc) : tid = 0 ∧ loc = .blockPartial row 0 := by
  rw [reduceWarps] at h
  split_ifs at h with htid
  · refine ⟨htid, ?_⟩
    rcases Thread.Writes.of_bind h with h | ⟨v, h⟩
    · exact absurd h sumPartials_writes
    · exact (h.resolve_right id).symm
  · exact h.elim

/-- The reciprocal root that thread 0 leaves. -/
def rrmsOf (math : NormMath F) (c : NormCall F) (stride : ℕ) (partials : ℕ → F) : F :=
  math.rsqrtf ((List.range ((stride + 31) / 32)).foldl (fun total w => total + partials w)
    ((0 : ℕ) : F) / (c.hiddenDim : F) + c.eps)

theorem reduceWarps_stores (stride row : ℕ) :
    (reduceWarps math c stride row 0).Stores (.blockPartial row 0) := by
  rw [reduceWarps, if_pos rfl]
  exact Thread.Stores.bind_right _ fun total => .inl rfl

theorem reduceWarps_run (stride row : ℕ) (m : NormPlace → F) :
    ((reduceWarps math c stride row 0).run m).2 (.blockPartial row 0) =
      rrmsOf math c stride fun w => m (.blockPartial row w) := by
  rw [reduceWarps, if_pos rfl, Thread.run_bind, sumPartials_run, Thread.run_write]
  exact Function.update_self _ _ _

end

variable [Mul F]

/-- The part of a thread in the sum of squares. -/
def squaresOf (val : ℕ → F) (sumSq : F) (l : List ℕ) : F :=
  l.foldl (fun sum i => sum + val i * val i) sumSq

theorem sumSquares_run (offset : ℕ) (l : List ℕ) (sumSq : F) (m : NormPlace → F) :
    (sumSquares c offset sumSq l).run m =
      (squaresOf (fun i => hostVal c m (offset + i)) sumSq l, m) := by
  induction l generalizing sumSq with
  | nil => rfl
  | cons i l ih =>
    rw [sumSquares, Thread.run_bind, readVal_run]
    exact ih _

theorem sumSquares_touches {offset : ℕ} {l : List ℕ} {sumSq : F} {loc : NormPlace}
    (h : (sumSquares c offset sumSq l).Touches loc) : ∃ i ∈ l, c.Reads (offset + i) loc := by
  induction l generalizing sumSq with
  | nil => exact h.elim
  | cons i l ih =>
    rcases Thread.Touches.of_bind h with h | ⟨v, h⟩
    · exact ⟨i, List.mem_cons_self, readVal_touches h⟩
    · obtain ⟨j, hj, h⟩ := ih h
      exact ⟨j, List.mem_cons_of_mem i hj, h⟩

theorem sumSquares_writes {offset : ℕ} {l : List ℕ} {sumSq : F} {loc : NormPlace} :
    ¬ (sumSquares c offset sumSq l).Writes loc := by
  induction l generalizing sumSq with
  | nil => exact id
  | cons i l ih =>
    intro h
    rcases Thread.Writes.of_bind h with h | ⟨v, h⟩
    · exact readVal_writes h
    · exact ih h

/-! ### The second pass -/

variable {math : NormMath F}

/-- An element of the output, from those of its inputs. -/
def normElem (math : NormMath F) (val rrms w : F) : F := math.float2half (val * rrms * w)

theorem writeRow_touches {offset : ℕ} {rrms : F} {l : List ℕ} {loc : NormPlace}
    (h : (writeRow math c offset rrms l).Touches loc) :
    ∃ i ∈ l, c.Reads (offset + i) loc ∨ loc = c.weightPlace i ∨ loc = c.out (offset + i) := by
  induction l with
  | nil => exact h.elim
  | cons i l ih =>
    rcases Thread.Touches.of_bind h with h | ⟨v, h | ⟨w, h | h⟩⟩
    · exact ⟨i, List.mem_cons_self, .inl (readVal_touches h)⟩
    · exact ⟨i, List.mem_cons_self, .inr (.inl h.symm)⟩
    · exact ⟨i, List.mem_cons_self, .inr (.inr h.symm)⟩
    · obtain ⟨j, hj, h⟩ := ih h
      exact ⟨j, List.mem_cons_of_mem i hj, h⟩

theorem writeRow_stores {offset : ℕ} {rrms : F} {l : List ℕ} {i : ℕ} (hi : i ∈ l) :
    (writeRow math c offset rrms l).Stores (c.out (offset + i)) := by
  induction l with
  | nil => exact absurd hi List.not_mem_nil
  | cons j l ih =>
    refine Thread.Stores.bind_right _ fun v w => ?_
    rcases List.mem_cons.mp hi with rfl | hi
    · exact .inl rfl
    · exact .inr (ih hi)

theorem writeRow_writes {offset : ℕ} {rrms : F} {l : List ℕ} {loc : NormPlace}
    (h : (writeRow math c offset rrms l).Writes loc) : ∃ i ∈ l, loc = c.out (offset + i) := by
  induction l with
  | nil => exact h.elim
  | cons i l ih =>
    rcases Thread.Writes.of_bind h with h | ⟨v, w, h | h⟩
    · exact absurd h readVal_writes
    · exact ⟨i, List.mem_cons_self, h.symm⟩
    · obtain ⟨j, hj, h⟩ := ih h
      exact ⟨j, List.mem_cons_of_mem i hj, h⟩

omit [Mul F] in
theorem hostVal_congr {i : ℕ} {m m' : NormPlace → F} (h : ∀ loc, c.Reads i loc → m loc = m' loc) :
    hostVal c m i = hostVal c m' i := by
  have hx : m (.half (c.x + i)) = m' (.half (c.x + i)) := h _ (.inl rfl)
  rw [hostVal, hostVal]
  cases hres : c.residual with
  | none => exact hx
  | some r => exact congrArg₂ (· + ·) hx (h _ (.inr ⟨r, hres, rfl⟩))

/-- Each element that the thread has to do is made from the inputs as they were, also when the
output lies over them. -/
theorem writeRow_run {offset : ℕ} {rrms : F} {l : List ℕ} (hl : l.Nodup)
    (hread : ∀ i ∈ l, ∀ j ∈ l, c.Reads (offset + j) (c.out (offset + i)) → i = j)
    (hweight : ∀ i ∈ l, ∀ j ∈ l, c.weightPlace j ≠ c.out (offset + i)) {i : ℕ} (hi : i ∈ l)
    (m : NormPlace → F) : ((writeRow math c offset rrms l).run m).2 (c.out (offset + i)) =
      normElem math (hostVal c m (offset + i)) rrms (m (c.weightPlace i)) := by
  induction l generalizing m with
  | nil => exact absurd hi List.not_mem_nil
  | cons j l ih =>
    rw [writeRow, Thread.run_bind, readVal_run, Thread.run_bind, Thread.run_read, Thread.run_bind,
      Thread.run_write]
    obtain ⟨hj, hl⟩ := List.nodup_cons.mp hl
    by_cases hmem : i ∈ l
    · have hne : j ≠ i := fun h => hj (h ▸ hmem)
      have hin : ∀ k ∈ l, k ∈ j :: l := fun k hk => List.mem_cons_of_mem j hk
      rw [ih hl (fun a ha b hb => hread a (hin a ha) b (hin b hb))
        (fun a ha b hb => hweight a (hin a ha) b (hin b hb)) hmem]
      -- the element just written is none of the inputs of another one
      have hval : hostVal c (Function.update m (c.out (offset + j)) _) (offset + i) =
          hostVal c m (offset + i) := hostVal_congr fun loc hloc => Function.update_of_ne
        (fun h : loc = c.out (offset + j) => hne (hread j List.mem_cons_self i hi (h ▸ hloc)))
        (normElem math (hostVal c m (offset + j)) rrms (m (c.weightPlace j))) m
      have hw : Function.update m (c.out (offset + j))
          (normElem math (hostVal c m (offset + j)) rrms (m (c.weightPlace j))) (c.weightPlace i) =
          m (c.weightPlace i) :=
        Function.update_of_ne (hweight j List.mem_cons_self i hi) _ m
      exact congrArg₂ (fun v w => normElem math v rrms w) hval hw
    · obtain rfl := (List.mem_cons.mp hi).resolve_right hmem
      rw [Thread.run_unwritten]
      · exact Function.update_self _ _ m
      · intro h
        obtain ⟨k, hk, heq⟩ := writeRow_writes h
        have haddr : c.output + (offset + i) = c.output + (offset + k) := NormPlace.half.inj heq
        exact hmem (show i = k by omega ▸ hk)

theorem normalize_touches {stride row tid : ℕ} {loc : NormPlace}
    (h : (normalize math c stride row tid).Touches loc) :
    loc = .blockPartial row 0 ∨ ∃ i < c.hiddenDim, i % stride = tid % stride ∧
      (c.Reads (row * c.hiddenDim + i) loc ∨ loc = c.weightPlace i ∨
        loc = c.out (row * c.hiddenDim + i)) := by
  rcases h with h | ⟨rrms, h⟩
  · exact .inl h.symm
  · obtain ⟨i, hi, h⟩ := writeRow_touches h
    obtain ⟨hlt, r, -, rfl⟩ := mem_strided.mp hi
    exact .inr ⟨_, hlt, Nat.add_mul_mod_self_right _ _ _, h⟩

theorem normalize_writes {stride row tid : ℕ} {loc : NormPlace}
    (h : (normalize math c stride row tid).Writes loc) :
    ∃ i < c.hiddenDim, i % stride = tid % stride ∧ loc = c.out (row * c.hiddenDim + i) := by
  obtain ⟨rrms, h⟩ := h
  obtain ⟨i, hi, h⟩ := writeRow_writes h
  obtain ⟨hlt, r, -, rfl⟩ := mem_strided.mp hi
  exact ⟨_, hlt, Nat.add_mul_mod_self_right _ _ _, h⟩

/-- The threads of a block do not meet in the second pass. -/
theorem normalize_separate (hplaced : c.Placed) {n b : ℕ} (hb : b < c.rows) :
    ∀ p ∈ block n b, ∀ q ∈ block n b, ∀ loc, (normalize math c n p.1 p.2).Writes loc →
      (normalize math c n q.1 q.2).Touches loc → p = q := by
  intro p hp q hq loc hw ht
  obtain ⟨hpb, hpn⟩ := mem_block.mp hp
  obtain ⟨hqb, hqn⟩ := mem_block.mp hq
  rw [hpb] at hw
  rw [hqb] at ht
  obtain ⟨i, hi, hmod, rfl⟩ := normalize_writes hw
  suffices h : ∃ j, j % n = q.2 % n ∧ j = i by
    obtain ⟨j, hmod', rfl⟩ := h
    refine Prod.ext (hpb.trans hqb.symm) ?_
    rw [← Nat.mod_eq_of_lt hpn, ← hmod, hmod', Nat.mod_eq_of_lt hqn]
  rcases normalize_touches ht with h | ⟨j, hj, hmod', h | h | h⟩
  · exact absurd h NormPlace.noConfusion
  · refine ⟨j, hmod', ?_⟩
    have heq := hplaced.eq_of_reads (row_index_lt hb hi) (row_index_lt hb hj) h
    omega
  · exact absurd h.symm (hplaced.weightPlace_ne (row_index_lt hb hi) hj)
  · have haddr : c.output + (b * c.hiddenDim + i) = c.output + (b * c.hiddenDim + j) :=
      NormPlace.half.inj h
    exact ⟨j, hmod', by omega⟩

theorem normalize_stores {n b i : ℕ} (hpos : 0 < n) (hi : i < c.hiddenDim) :
    (normalize math c n b (i % n)).Stores (c.out (b * c.hiddenDim + i)) := fun _ =>
  writeRow_stores ((mem_strided_thread (Nat.mod_lt i hpos)).mpr ⟨hi, rfl⟩)

/-- What the thread of an element writes there. -/
theorem normalize_run (hplaced : c.Placed) {n b i : ℕ} (hpos : 0 < n) (hb : b < c.rows)
    (hi : i < c.hiddenDim) (m : NormPlace → F) :
    ((normalize math c n b (i % n)).run m).2 (c.out (b * c.hiddenDim + i)) =
      normElem math (hostVal c m (b * c.hiddenDim + i)) (m (.blockPartial b 0))
        (m (c.weightPlace i)) := by
  have hlt : ∀ j ∈ strided n c.hiddenDim c.hiddenDim (i % n), j < c.hiddenDim := fun j hj =>
    (mem_strided.mp hj).1
  rw [normalize, Thread.run_bind, Thread.run_read]
  refine writeRow_run (strided_nodup hpos _ _) (fun j hj k hk hread => ?_)
    (fun j hj k hk => hplaced.weightPlace_ne (row_index_lt hb (hlt j hj)) (hlt k hk)) ?_ m
  · have heq := hplaced.eq_of_reads (row_index_lt hb (hlt j hj)) (row_index_lt hb (hlt k hk)) hread
    omega
  · exact (mem_strided_thread (Nat.mod_lt i hpos)).mpr ⟨hi, rfl⟩

end

/-! ### A block -/

variable [NatCast F] [Add F] [Mul F]

/-- What the first lane of a warp comes to. -/
def warpSquares (dim stride : ℕ) (val : ℕ → F) (w : ℕ) : F :=
  xorReduce (· + ·) [16, 8, 4, 2, 1]
    (fun t => squaresOf val ((0 : ℕ) : F) (strided stride dim dim t)) (32 * w)

/-- The places of a thread up to the first barrier. -/
def firstFoot (c : NormCall F) : Foot (ℕ × ℕ) NormPlace := fun p loc w =>
  w = false ∧ (∃ i < c.hiddenDim, c.Reads (p.1 * c.hiddenDim + i) loc) ∨
    p.2 % 32 = 0 ∧ loc = .blockPartial p.1 (p.2 / 32)

omit [NatCast F] [Add F] [Mul F] in
theorem firstFoot_apart : (firstFoot c).Apart (firstFoot c) := by
  rintro ⟨b, t⟩ ⟨b', t'⟩ loc w w' (⟨rfl, i, hi, hread⟩ | ⟨ht, rfl⟩) (⟨rfl, j, hj, hread'⟩ | ⟨ht', heq⟩) hne
  · exact ⟨rfl, rfl⟩
  · exact (heq ▸ hread).ne_blockPartial.elim
  · exact hread'.ne_blockPartial.elim
  · obtain ⟨rfl, hdiv⟩ := NormPlace.blockPartial.inj heq
    have hlane : t % 32 = 0 := ht
    have hlane' : t' % 32 = 0 := ht'
    have hwarp : t / 32 = t' / 32 := hdiv
    exact absurd (congrArg (b, ·) (show t = t' by omega)) hne

/-- The store of the first lane of a warp. -/
def storeLane (p : ℕ × ℕ) (sumSq : F) : Thread NormPlace F Unit :=
  if p.2 % 32 = 0 then Thread.write (.blockPartial p.1 (p.2 / 32)) sumSq else pure ()

omit [NatCast F] [Add F] [Mul F] in
theorem storeLane_touches {p : ℕ × ℕ} {sumSq : F} {loc : NormPlace}
    (h : (storeLane p sumSq).Touches loc) : p.2 % 32 = 0 ∧ loc = .blockPartial p.1 (p.2 / 32) := by
  rw [storeLane] at h
  split_ifs at h with hlane
  · exact ⟨hlane, ((Thread.touches_write _).mp h).symm⟩
  · exact h.elim

/-- Up to the first barrier each warp leaves its part of the sum of squares. -/
theorem storePartials_phase {n : ℕ} (hn : 32 ∣ n) (absent : ℕ → ℕ → F) (b : ℕ) (m : NormPlace → F) :
    ∃ m', Phase (block n b) (storePartials c absent n) (firstFoot c) m m' (fun _ => ()) ∧
      (∀ w < n / 32, m' (.blockPartial b w) =
        warpSquares c.hiddenDim n (fun i => hostVal c m (b * c.hiddenDim + i)) w) ∧
      ∀ loc, (∀ w, loc ≠ .blockPartial b w) → m' loc = m loc := by
  let squares (t : ℕ) : F := squaresOf (fun i => hostVal c m (b * c.hiddenDim + i)) ((0 : ℕ) : F)
    (strided n c.hiddenDim c.hiddenDim t)
  let sums : ℕ → F := xorReduce (· + ·) [16, 8, 4, 2, 1] squares
  have hread : Phase (block n b) (fun p => .alone (sumSquares c (p.1 * c.hiddenDim) ((0 : ℕ) : F)
      (strided n c.hiddenDim c.hiddenDim p.2))) (firstFoot c) m m (fun p => squares p.2) := by
    obtain ⟨m₁, hphase, -, hrest⟩ := Phase.alone (T := block n b)
      (p := fun p => sumSquares c (p.1 * c.hiddenDim) ((0 : ℕ) : F)
        (strided n c.hiddenDim c.hiddenDim p.2))
      (fun t _ u _ loc hw _ => (sumSquares_writes hw).elim) m
    obtain rfl : m₁ = m := funext fun loc => hrest loc fun t _ => sumSquares_writes
    refine (hphase.congr (fun _ _ => rfl) fun p hp => ?_).mono fun p loc w hF => ?_
    · rw [sumSquares_run, (mem_block.mp hp).1]
    · obtain ⟨i, hi, hreads⟩ := sumSquares_touches hF.1
      refine .inl ⟨Bool.eq_false_iff.mpr fun hw => sumSquares_writes (hF.2 hw), i, ?_, hreads⟩
      exact (mem_strided.mp hi).1
  have hshuffle : Phase (block n b) (fun p => warpReduce (· + ·) n absent p [16, 8, 4, 2, 1]
      (squares p.2)) (firstFoot c) m m (fun p => sums p.2) :=
    (Phase.warpReduce hn _ absent b m (by decide) squares).mono fun _ _ _ h => h.elim
  obtain ⟨m', hstore, hown, hrest⟩ := Phase.alone (T := block n b)
    (p := fun p => storeLane p (sums p.2)) (fun t _ u _ loc hw ht => by
      obtain ⟨hlane, rfl⟩ := storeLane_touches hw.touches
      obtain ⟨hlane', heq⟩ := storeLane_touches ht
      obtain ⟨hb, hwarp⟩ := NormPlace.blockPartial.inj heq
      exact Prod.ext hb (by omega)) m
  have hstore' : Phase (block n b) (fun p => .alone (storeLane p (sums p.2))) (firstFoot c) m m'
      (fun _ => ()) := hstore.mono fun p loc w hF => .inr (storeLane_touches hF.1)
  refine ⟨m', ?_, fun w hw => ?_, fun loc hloc => ?_⟩
  · refine hread.bind (q := fun p sumSq => warpReduce (· + ·) n absent p [16, 8, 4, 2, 1] sumSq >>=
      fun sumSq => .alone (storeLane p sumSq)) ?_ firstFoot_apart
    exact hshuffle.bind (q := fun p sumSq => .alone (storeLane p sumSq)) hstore' firstFoot_apart
  · have hmem : (b, 32 * w) ∈ block n b := mem_block.mpr ⟨rfl, show 32 * w < n by omega⟩
    have hrun : (storeLane (b, 32 * w) (sums (32 * w))) =
        Thread.write (.blockPartial b w) (sums (32 * w)) := by
      rw [storeLane, if_pos (Nat.mul_mod_right 32 w), Nat.mul_div_cancel_left w (by decide)]
    have hwritten := hown (b, 32 * w) hmem (.blockPartial b w) (by rw [hrun]; exact .inl rfl)
    rw [hwritten, hrun]
    exact Function.update_self _ _ m
  · refine hrest loc fun p hp hw => ?_
    obtain ⟨-, heq⟩ := storeLane_touches hw.touches
    exact hloc _ ((mem_block.mp hp).1 ▸ heq)

/-- What a block writes: its row of the output, and its shared memory. -/
def RowWrites (c : NormCall F) (row : ℕ) (loc : NormPlace) : Prop :=
  (∃ i < c.hiddenDim, loc = c.out (row * c.hiddenDim + i)) ∨ ∃ slot, loc = .blockPartial row slot

/-- What a block uses. -/
def RowUses (c : NormCall F) (row : ℕ) (loc : NormPlace) : Prop :=
  RowWrites c row loc ∨
    ∃ i < c.hiddenDim, c.Reads (row * c.hiddenDim + i) loc ∨ loc = c.weightPlace i

def rowFoot (c : NormCall F) : Foot (ℕ × ℕ) NormPlace := fun p loc w =>
  RowUses c p.1 loc ∧ (w = true → RowWrites c p.1 loc)

variable [Div F] {math : NormMath F}

/-- The reciprocal root of a row, from the values of the row. -/
def rowRrms (math : NormMath F) (c : NormCall F) (stride : ℕ) (val : ℕ → F) : F :=
  rrmsOf math c stride (warpSquares c.hiddenDim stride val)

omit [Mul F] in
theorem rrmsOf_congr {stride : ℕ} {partials partials' : ℕ → F}
    (h : ∀ w < (stride + 31) / 32, partials w = partials' w) :
    rrmsOf math c stride partials = rrmsOf math c stride partials' := by
  have hfold := List.foldl_ext (fun total w => total + partials w) (fun total w => total + partials' w)
    ((0 : ℕ) : F) fun total w hw => congrArg (total + ·) (h w (List.mem_range.mp hw))
  rw [rrmsOf, rrmsOf, hfold]

variable (math) in
/-- A block leaves its row, made from the row as it was. -/
theorem kernel_phase (hplaced : c.Placed) {n : ℕ} (hn : 32 ∣ n) (hpos : 0 < n)
    (absent : ℕ → ℕ → F) {b : ℕ} (hb : b < c.rows) (m : NormPlace → F) :
    ∃ m', Phase (block n b) (fusedRmsnormResidualKernel math c absent n) (rowFoot c) m m'
        (fun _ => ()) ∧
      (∀ i < c.hiddenDim, m' (c.out (b * c.hiddenDim + i)) =
        normElem math (hostVal c m (b * c.hiddenDim + i))
          (rowRrms math c n fun j => hostVal c m (b * c.hiddenDim + j)) (m (c.weightPlace i))) ∧
      ∀ loc, ¬ RowWrites c b loc → m' loc = m loc := by
  have hne : (block n b).Nonempty := ⟨(b, 0), mem_block.mpr ⟨rfl, hpos⟩⟩
  obtain ⟨m₁, hfirst, hsums, hrest₁⟩ := storePartials_phase (c := c) hn absent b m
  obtain ⟨m₂, hreduce, hown₂, hrest₂⟩ := Phase.alone (T := block n b)
    (p := fun p => reduceWarps math c n p.1 p.2) (fun p hp q hq loc hw ht => by
      obtain ⟨h0, -⟩ := reduceWarps_writes hw
      obtain ⟨h0', -⟩ := reduceWarps_touches ht
      exact Prod.ext ((mem_block.mp hp).1.trans (mem_block.mp hq).1.symm) (h0.trans h0'.symm)) m₁
  obtain ⟨m₃, hwrite, hown₃, hrest₃⟩ := Phase.alone (T := block n b)
    (p := fun p => normalize math c n p.1 p.2) (normalize_separate hplaced hb) m₂
  have hleft₂ : ∀ loc, (∀ slot, loc ≠ .blockPartial b slot) → m₂ loc = m loc := by
    intro loc hloc
    refine (hrest₂ loc fun p hp hw => ?_).trans (hrest₁ loc hloc)
    obtain ⟨-, heq⟩ := reduceWarps_writes hw
    exact hloc 0 ((mem_block.mp hp).1 ▸ heq)
  refine ⟨m₃, ?_, fun i hi => ?_, fun loc hloc => ?_⟩
  · have hfirst' : Phase (block n b) (storePartials c absent n) (rowFoot c) m m₁ (fun _ => ()) := by
      refine hfirst.mono fun p loc w hF => ?_
      rcases hF with ⟨rfl, i, hi, hread⟩ | ⟨-, rfl⟩
      · exact ⟨.inr ⟨i, hi, .inl hread⟩, Bool.noConfusion⟩
      · exact ⟨.inl (.inr ⟨_, rfl⟩), fun _ => .inr ⟨_, rfl⟩⟩
    have hreduce' : Phase (block n b) (fun p => .alone (reduceWarps math c n p.1 p.2)) (rowFoot c)
        m₁ m₂ (fun _ => ()) := by
      refine hreduce.mono fun p loc w hF => ⟨.inl (.inr ?_), fun hw => .inr ?_⟩
      · exact (reduceWarps_touches hF.1).2
      · exact ⟨0, (reduceWarps_writes (hF.2 hw)).2⟩
    have hwrite' : Phase (block n b) (fun p => .alone (normalize math c n p.1 p.2)) (rowFoot c)
        m₂ m₃ (fun _ => ()) := by
      refine hwrite.mono fun p loc w hF => ⟨?_, fun hw => .inl ?_⟩
      · rcases normalize_touches hF.1 with h | ⟨i, hi, -, h | h | h⟩
        · exact .inl (.inr ⟨0, h⟩)
        · exact .inr ⟨i, hi, .inl h⟩
        · exact .inr ⟨i, hi, .inr h⟩
        · exact .inl (.inl ⟨i, hi, h⟩)
      · obtain ⟨i, hi, -, h⟩ := normalize_writes (hF.2 hw)
        exact ⟨i, hi, h⟩
    have hrest := hreduce'.barrier (q := fun p _ => .alone (normalize math c n p.1 p.2)) hne hwrite'
    have hall := hfirst'.barrier (q := fun p _ => .alone (reduceWarps math c n p.1 p.2) >>= fun _ =>
      barrier (block n b) >>= fun _ => .alone (normalize math c n p.1 p.2)) hne hrest
    refine hall.congr (fun p hp => ?_) fun _ _ => rfl
    have hpb : p.1 = b := (mem_block.mp hp).1
    rw [fusedRmsnormResidualKernel, hpb, if_neg (by omega)]
  · have : Nonempty F := ⟨((0 : ℕ) : F)⟩
    have hmem : (b, i % n) ∈ block n b := mem_block.mpr ⟨rfl, Nat.mod_lt i hpos⟩
    have hroot : m₂ (.blockPartial b 0) =
        rowRrms math c n fun j => hostVal c m (b * c.hiddenDim + j) := by
      have hstores : (reduceWarps math c n b 0).Stores (.blockPartial b 0) := reduceWarps_stores n b
      rw [hown₂ (b, 0) (mem_block.mpr ⟨rfl, hpos⟩) _ hstores.writes, reduceWarps_run]
      exact rrmsOf_congr fun w hw => hsums w (by omega)
    rw [hown₃ (b, i % n) hmem _ (normalize_stores hpos hi).writes,
      normalize_run hplaced hpos hb hi, hroot,
      hleft₂ _ fun slot => NormCall.weightPlace_ne_blockPartial i b slot]
    have hval : hostVal c m₂ (b * c.hiddenDim + i) = hostVal c m (b * c.hiddenDim + i) :=
      hostVal_congr fun loc hread => hleft₂ loc fun slot h => (h ▸ hread).ne_blockPartial
    rw [hval]
  · rw [hrest₃ loc fun p hp hw => ?_, hleft₂ loc fun slot h => hloc (.inr ⟨slot, h⟩)]
    obtain ⟨i, hi, -, h⟩ := normalize_writes hw
    exact hloc (.inl ⟨i, hi, (mem_block.mp hp).1 ▸ h⟩)

/-- Only the values of the row count. -/
theorem rowRrms_congr {n : ℕ} {val val' : ℕ → F} (h : ∀ i < c.hiddenDim, val i = val' i) :
    rowRrms math c n val = rowRrms math c n val' := by
  have hsquares : (fun t => squaresOf val ((0 : ℕ) : F) (strided n c.hiddenDim c.hiddenDim t)) =
      fun t => squaresOf val' ((0 : ℕ) : F) (strided n c.hiddenDim c.hiddenDim t) := by
    funext t
    refine List.foldl_ext _ _ _ fun sum i hi => ?_
    rw [h i (mem_strided.mp hi).1]
  exact rrmsOf_congr fun w _ => by rw [warpSquares, warpSquares, hsquares]

/-! ### The launch -/

omit [NatCast F] [Add F] [Mul F] [Div F] in
theorem rows_separate (hplaced : c.Placed) : ∀ row < c.rows, ∀ row' < c.rows, ∀ loc,
    RowWrites c row loc → RowUses c row' loc → row = row' := by
  rintro row hrow row' hrow' loc (⟨i, hi, rfl⟩ | ⟨slot, rfl⟩) huse
  · rcases huse with (⟨j, hj, heq⟩ | ⟨slot, heq⟩) | ⟨j, hj, hread | hweight⟩
    · have haddr : c.output + (row * c.hiddenDim + i) = c.output + (row' * c.hiddenDim + j) :=
        NormPlace.half.inj heq
      exact (row_index_inj hi hj (Nat.add_left_cancel haddr)).1
    · cases heq
    · have heq := hplaced.eq_of_reads (row_index_lt hrow hi) (row_index_lt hrow' hj) hread
      exact (row_index_inj hi hj heq).1
    · exact absurd hweight.symm (hplaced.weightPlace_ne (row_index_lt hrow hi) hj)
  · rcases huse with (⟨j, hj, heq⟩ | ⟨slot', heq⟩) | ⟨j, hj, hread | hweight⟩
    · cases heq
    · exact (NormPlace.blockPartial.inj heq).1
    · exact hread.ne_blockPartial.elim
    · exact absurd hweight.symm (NormCall.weightPlace_ne_blockPartial j row slot)

variable (math) in
/-- Every schedule of the launch comes to the same end, whatever the arithmetic: each row is made
from its own values, and outside the output and the shared memory nothing is written. -/
theorem rmsnorm_settles (hplaced : c.Placed) {n : ℕ} (hn : 32 ∣ n) (hpos : 0 < n)
    (absent : ℕ → ℕ → F) (m : NormPlace → F) :
    ∃ m', Settles (launchBlocks c.rows n (fusedRmsnormResidualKernel math c absent n)) m m' ∧
      (∀ row < c.rows, ∀ i < c.hiddenDim, m' (c.out (row * c.hiddenDim + i)) =
        normElem math (hostVal c m (row * c.hiddenDim + i))
          (rowRrms math c n fun j => hostVal c m (row * c.hiddenDim + j)) (m (c.weightPlace i))) ∧
      ∀ loc, (∀ row < c.rows, ¬ RowWrites c row loc) → m' loc = m loc := by
  refine settles_blocks (F := rowFoot c) (fun row loc h => .inl h) (rows_separate hplaced)
    (fun row hrow t loc w hF => hF) (fun row m₁ m₂ hsame hpost i hi => ?_) fun row hrow m₁ hm => ?_
  · exact (hsame _ (.inl ⟨i, hi, rfl⟩)).trans (hpost i hi)
  · obtain ⟨m₂, hphase, hout, hrest⟩ := kernel_phase math hplaced hn hpos absent hrow m₁
    refine ⟨m₂, hphase, fun i hi => ?_, hrest⟩
    have hval : ∀ j < c.hiddenDim, hostVal c m₁ (row * c.hiddenDim + j) =
        hostVal c m (row * c.hiddenDim + j) := fun j hj =>
      hostVal_congr fun loc hread => hm loc (.inr ⟨j, hj, .inl hread⟩)
    rw [hout i hi, hval i hi, hm _ (.inr ⟨i, hi, .inr rfl⟩), rowRrms_congr hval]

/-- The result of a row depends on its values, the weights and `eps` alone: not on how many rows
are normalised with it, which of them it is, where the arrays are or how the threads run. -/
theorem rmsnorm_row_alone {c' : NormCall F} (hplaced : c.Placed) (hplaced' : c'.Placed)
    (hdim : c'.hiddenDim = c.hiddenDim) (heps : c'.eps = c.eps) {n : ℕ} (hn : 32 ∣ n) (hpos : 0 < n)
    {absent absent' : ℕ → ℕ → F} {m m' e e' : NormPlace → F}
    (hsettles : Settles (launchBlocks c.rows n (fusedRmsnormResidualKernel math c absent n)) m e)
    (hsettles' : Settles (launchBlocks c'.rows n (fusedRmsnormResidualKernel math c' absent' n)) m' e')
    {row row' : ℕ} (hrow : row < c.rows) (hrow' : row' < c'.rows)
    (hval : ∀ i < c.hiddenDim, hostVal c' m' (row' * c.hiddenDim + i) =
      hostVal c m (row * c.hiddenDim + i))
    (hweight : ∀ i < c.hiddenDim, m' (c'.weightPlace i) = m (c.weightPlace i)) :
    ∀ i < c.hiddenDim, e' (c'.out (row' * c.hiddenDim + i)) = e (c.out (row * c.hiddenDim + i)) := by
  obtain ⟨e₁, hsettles₁, hout, -⟩ := rmsnorm_settles math hplaced hn hpos absent m
  obtain ⟨e₂, hsettles₂, hout', -⟩ := rmsnorm_settles math hplaced' hn hpos absent' m'
  obtain rfl := hsettles.unique hsettles₁
  obtain rfl := hsettles'.unique hsettles₂
  rw [hdim] at hout'
  intro i hi
  have hroot : rowRrms math c' n (fun j => hostVal c' m' (row' * c.hiddenDim + j)) =
      rowRrms math c n fun j => hostVal c m (row * c.hiddenDim + j) := by
    rw [← rowRrms_congr hval, rowRrms, rowRrms, rrmsOf, rrmsOf, hdim, heps]
  rw [hout row hrow i hi, hout' row' hrow' i hi, hval i hi, hweight i hi, hroot]

/-! ### Exact arithmetic -/

section

variable {K : Type} [Field K] {call : NormCall K}

theorem squaresOf_eq_sum (val : ℕ → K) (l : List ℕ) (sumSq : K) :
    squaresOf val sumSq l = sumSq + (l.map fun i => val i * val i).sum := by
  induction l generalizing sumSq with
  | nil => exact (add_zero _).symm
  | cons i l ih => rw [squaresOf, List.foldl_cons, ← squaresOf, ih, List.map_cons, List.sum_cons, add_assoc]

theorem foldl_add_range (f : ℕ → K) (n : ℕ) :
    (List.range n).foldl (fun total w => total + f w) 0 = ∑ w ∈ Finset.range n, f w := by
  induction n with
  | zero => rfl
  | succ n ih => rw [List.range_succ, List.foldl_append, ih, Finset.sum_range_succ]; rfl

/-- The block comes to the sum of squares of its row. -/
theorem rowRrms_eq (math : NormMath K) {n : ℕ} (hn : 32 ∣ n) (hpos : 0 < n) (val : ℕ → K) :
    rowRrms math call n val = math.rsqrtf
      ((∑ i ∈ Finset.range call.hiddenDim, val i * val i) / (call.hiddenDim : K) + call.eps) := by
  obtain ⟨k, rfl⟩ := hn
  have hwarps : (32 * k + 31) / 32 = k := by omega
  let part (t : ℕ) : K :=
    ((strided (32 * k) call.hiddenDim call.hiddenDim t).map fun i => val i * val i).sum
  have hthread : (fun t => squaresOf val ((0 : ℕ) : K)
      (strided (32 * k) call.hiddenDim call.hiddenDim t)) = part := by
    funext t
    rw [squaresOf_eq_sum, Nat.cast_zero, zero_add]
  have hwarp : ∀ w ∈ Finset.range k, warpSquares call.hiddenDim (32 * k) val w =
      ∑ j ∈ Finset.range 32, part (32 * w + j) := by
    intro w _
    rw [warpSquares, hthread]
    exact xorReduce_add_first part w
  have hblock : ∑ w ∈ Finset.range k, warpSquares call.hiddenDim (32 * k) val w =
      ∑ i ∈ Finset.range call.hiddenDim, val i * val i := by
    rw [Finset.sum_congr rfl hwarp, sum_warps part]
    exact sum_strided hpos call.hiddenDim fun i => val i * val i
  rw [rowRrms, rrmsOf, hwarps, Nat.cast_zero, foldl_add_range, hblock]

/-! ### The CPU path -/

theorem hostRow_length (math : NormMath K) (m : NormPlace → K) (row : ℕ) :
    (hostRow math call m row).length = call.hiddenDim := by
  rw [hostRow, List.length_map, List.length_range]

/-- An element of rows one after the other. -/
theorem getElem?_rows {α : Type} {f : ℕ → List α} {dim : ℕ} (hf : ∀ r, (f r).length = dim) (rows : ℕ) :
    ((List.range rows).flatMap f).length = rows * dim ∧ ∀ row < rows, ∀ i < dim,
      ((List.range rows).flatMap f)[row * dim + i]? = (f row)[i]? := by
  induction rows with
  | zero => exact ⟨(Nat.zero_mul dim).symm, fun row hrow => absurd hrow (Nat.not_lt_zero row)⟩
  | succ rows ih =>
    rw [List.range_succ, List.flatMap_append, List.flatMap_singleton]
    refine ⟨by rw [List.length_append, ih.1, hf, Nat.succ_mul], fun row hrow i hi => ?_⟩
    by_cases hlast : row < rows
    · rw [List.getElem?_append_left (ih.1 ▸ row_index_lt hlast hi)]
      exact ih.2 row hlast i hi
    · obtain rfl : row = rows := by omega
      rw [List.getElem?_append_right (by omega), ih.1, Nat.add_sub_cancel_left]

theorem cpuRmsnorm_out (math : NormMath K) (m : NormPlace → K) {row i : ℕ} (hrow : row < call.rows)
    (hi : i < call.hiddenDim) : cpuRmsnorm math call m (call.out (row * call.hiddenDim + i)) =
      normElem math (hostVal call m (row * call.hiddenDim + i))
        (1 / math.sqrtf ((∑ j ∈ Finset.range call.hiddenDim, hostVal call m (row * call.hiddenDim + j) *
          hostVal call m (row * call.hiddenDim + j)) / (call.hiddenDim : K) + call.eps))
        (m (call.weightPlace i)) := by
  have hrows := (getElem?_rows (hostRow_length math m) call.rows).2 row hrow i hi
  rw [NormCall.out, cpuRmsnorm]
  rw [if_pos (Nat.le_add_right _ _), Nat.add_sub_cancel_left, hrows, hostRow, List.getElem?_map,
    List.getElem?_range hi, Option.map_some, Option.getD_some, Nat.cast_zero, foldl_add_range]
  rfl

theorem cpuRmsnorm_rest (math : NormMath K) (m : NormPlace → K) {addr : ℕ}
    (h : ∀ row < call.rows, ∀ i < call.hiddenDim, NormPlace.half addr ≠
      call.out (row * call.hiddenDim + i)) : cpuRmsnorm math call m (.half addr) = m (.half addr) := by
  rw [cpuRmsnorm]
  split_ifs with hle
  · rw [List.getElem?_eq_none, Option.getD_none]
    rw [(getElem?_rows (hostRow_length math m) call.rows).1]
    by_contra hlt
    have hpos : 0 < call.hiddenDim := Nat.pos_of_mul_pos_left (show 0 < call.rows * call.hiddenDim by omega)
    refine h ((addr - call.output) / call.hiddenDim) (Nat.div_lt_of_lt_mul ?_)
      ((addr - call.output) % call.hiddenDim) (Nat.mod_lt _ hpos) ?_
    · rw [Nat.mul_comm]
      omega
    · rw [Nat.div_add_mod', NormCall.out, Nat.add_sub_cancel' hle]
  · rfl

/-- The launch leaves what the CPU path leaves, in every array. -/
theorem launch_eq_cpu {math : NormMath K} (hplaced : call.Placed)
    (hroot : ∀ y, math.rsqrtf y = 1 / math.sqrtf y) {n : ℕ} (hn : 32 ∣ n) (hpos : 0 < n)
    {absent : ℕ → ℕ → K} {m m' : NormPlace → K}
    (hsettles : Settles (launchBlocks call.rows n (fusedRmsnormResidualKernel math call absent n)) m m')
    {place : NormPlace} (hplace : ∀ row slot, place ≠ .blockPartial row slot) :
    m' place = cpuRmsnorm math call m place := by
  obtain ⟨m₁, hsettles₁, hout, hrest⟩ := rmsnorm_settles math hplaced hn hpos absent m
  obtain rfl := hsettles.unique hsettles₁
  by_cases hwritten : ∃ row < call.rows, ∃ i < call.hiddenDim,
      place = call.out (row * call.hiddenDim + i)
  · obtain ⟨row, hrow, i, hi, rfl⟩ := hwritten
    rw [hout row hrow i hi, rowRrms_eq math hn hpos, hroot, cpuRmsnorm_out math m hrow hi]
  · have hleft : m' place = m place := by
      refine hrest place fun row hrow hw => ?_
      rcases hw with ⟨i, hi, heq⟩ | ⟨slot, heq⟩
      · exact hwritten ⟨row, hrow, i, hi, heq⟩
      · exact hplace row slot heq
    rw [hleft]
    cases place with
    | half addr =>
      exact (cpuRmsnorm_rest math m fun row hrow i hi heq => hwritten ⟨row, hrow, i, hi, heq⟩).symm
    | float addr => rfl
    | blockPartial row slot => rfl

/-- In exact arithmetic a call leaves the same in every array whether the kernel runs, under any
schedule, or the CPU does its work. -/
theorem fusedRmsnormResidual_eq_cpu {math : NormMath K} (hplaced : call.Placed)
    (hroot : ∀ y, math.rsqrtf y = 1 / math.sqrtf y) (fastNormEnabled launched : Bool)
    (m : NormPlace → K) :
    (∃ m', FusedRmsnormResidual math call fastNormEnabled launched m m') ∧
      ∀ m', FusedRmsnormResidual math call fastNormEnabled launched m m' →
        ∀ place, (∀ row slot, place ≠ .blockPartial row slot) →
          m' place = cpuRmsnorm math call m place := by
  unfold FusedRmsnormResidual
  split_ifs with hfast
  · obtain ⟨m', hsettles, -⟩ := rmsnorm_settles math hplaced (n := 128) (by decide)
      (by decide) (fun _ _ => 0) m
    refine ⟨⟨m', fun _ _ => 0, hsettles⟩, fun m' h place hplace => ?_⟩
    obtain ⟨absent, hsettles⟩ := h
    exact launch_eq_cpu hplaced hroot (by decide) (by decide) hsettles hplace
  · exact ⟨⟨_, rfl⟩, fun m' h place _ => h ▸ rfl⟩

end

/-- Three rows of the heads of one token, normalised in place as for the QK norm. -/
noncomputable def qkCall : NormCall ℝ :=
  { output := 0, x := 0, residual := none, weight := 500, rows := 3, hiddenDim := 128,
    eps := 1 / 1000000, weightFp32 := true }

/-- One row of another array, normalised to a third one. -/
noncomputable def qkRow : NormCall ℝ :=
  { qkCall with output := 2000, x := 1000, rows := 1 }

noncomputable def realMath : NormMath ℝ :=
  { float2half := id, rsqrtf := fun y => 1 / √y, sqrtf := fun y => √y }

theorem qkCall_placed : qkCall.Placed :=
  { x := .inl rfl, residual := nofun, weight := .inl rfl }

theorem qkRow_placed : qkRow.Placed :=
  { x := .inr (.inr (by simp [qkRow, qkCall])), residual := nofun,
    weight := .inl rfl }

theorem fusedRmsnormResidual_eq_cpu_qk :
    (∃ m', FusedRmsnormResidual realMath qkCall true true (fun _ => 2) m') ∧
      ∀ m', FusedRmsnormResidual realMath qkCall true true (fun _ => 2) m' →
        ∀ place, (∀ row slot, place ≠ .blockPartial row slot) →
          m' place = cpuRmsnorm realMath qkCall (fun _ => 2) place :=
  fusedRmsnormResidual_eq_cpu qkCall_placed (fun _ => rfl) true true _

theorem rmsnorm_row_alone_qk : ∃ e e' : NormPlace → ℝ,
    Settles (launchBlocks 3 128 (fusedRmsnormResidualKernel realMath qkCall (fun _ _ => 0) 128))
      (fun _ => 2) e ∧
    Settles (launchBlocks 1 128 (fusedRmsnormResidualKernel realMath qkRow (fun _ _ => 1) 128))
      (fun _ => 2) e' ∧ ∀ i < 128, e' (.half (2000 + (0 * 128 + i))) = e (.half (0 + (2 * 128 + i))) := by
  obtain ⟨e, hsettles, -⟩ := rmsnorm_settles realMath qkCall_placed (n := 128) (by decide)
    (by decide) (fun _ _ => 0) fun _ => 2
  obtain ⟨e', hsettles', -⟩ := rmsnorm_settles realMath qkRow_placed (n := 128) (by decide)
    (by decide) (fun _ _ => 1) fun _ => 2
  refine ⟨e, e', hsettles, hsettles', ?_⟩
  exact rmsnorm_row_alone qkCall_placed qkRow_placed rfl rfl (by decide) (by decide) hsettles
    hsettles' (show 2 < 3 by decide) (show 0 < 1 by decide) (fun _ _ => rfl) fun _ _ => rfl

end JLLM.Norm
