import ReflexLlm.Proofs.Turn
import ReflexLlm.Spec.ScratchPool

/-! Whether the scratch pool is large enough. `load` sizes it for the buffers of one layer,
but `decode_step` gets those of all layers before it is reset. The batched prefill gives the
buffers of a layer back, and the test that admits it is sufficient. -/

namespace JLLM

open Bump

/-! ### The decode step -/

/-- Every buffer of a decode step on an empty pool of that size. -/
def DecodeStepFits (d : BufferDims) (nLayers vocabSize capacity : ℕ) : Prop :=
  ∀ buffer ∈ decodeStepBuffers d nLayers vocabSize (.init capacity), buffer.isSome = true

/-- Bytes that a layer takes. -/
def layerBytes (d : BufferDims) : ℕ :=
  3 * roundUp 256 (d.hidden * 2) + 2 * roundUp 256 (d.q * 2) + 2 * roundUp 256 (d.kv * 2) +
    3 * roundUp 256 (d.intermediate * 2)

theorem total_transformerLayerSizes (d : BufferDims) :
    total 256 (transformerLayerSizes d) = layerBytes d := by
  simp only [transformerLayerSizes, total_cons, total_nil, layerBytes]
  ring

theorem decodeStepFits_iff (d : BufferDims) (nLayers vocabSize capacity : ℕ) :
    DecodeStepFits d nLayers vocabSize capacity ↔
      nLayers * layerBytes d + 2 * roundUp 256 (d.hidden * 2) + roundUp 256 (vocabSize * 4) ≤
        capacity := by
  have htotal : total 256 (decodeStepSizes d nLayers vocabSize) =
      nLayers * layerBytes d + 2 * roundUp 256 (d.hidden * 2) + roundUp 256 (vocabSize * 4) := by
    rw [decodeStepSizes, total_cons, total_append, total_replicate_flatten,
      total_transformerLayerSizes]
    simp only [total_cons, total_nil]
    ring
  unfold DecodeStepFits decodeStepBuffers ScratchPool.getAll
  rw [Arena.allocAll_isSome_iff, htotal, ScratchPool.init, Nat.zero_add]

/-- A size rounded up to 256 bytes. -/
def scratchRound (x : ℤ) : ℤ := (x + 255) / 256 * 256

theorem cast_roundUp (n : ℕ) : ((roundUp 256 n : ℕ) : ℤ) = scratchRound n := by
  unfold roundUp scratchRound
  omega

/-- A decode step gets its buffers exactly when those of all layers together fit the pool,
which `load` sizes for one. -/
theorem decodeStep_fits_scratch_iff {c : ModelConfig} (hc : c.Positive) {capacity : ℕ}
    (hcapacity : EngineLoad.scratchBytes c = some capacity) :
    DecodeStepFits c.bufferDims c.nLayers.toInt.toNat c.vocabSize.toInt.toNat capacity ↔
      c.nLayers.toInt *
            (3 * scratchRound (c.hiddenDim.toInt * 2) +
              2 * scratchRound (c.nHeads.toInt * c.headDim.toInt * 2) +
              2 * scratchRound (c.nKvHeads.toInt * c.headDim.toInt * 2) +
              3 * scratchRound (c.intermediateDim.toInt * 2)) +
          2 * scratchRound (c.hiddenDim.toInt * 2) + scratchRound (c.vocabSize.toInt * 4) ≤
        (max (c.hiddenDim.toInt * 16 + c.nHeads.toInt * c.headDim.toInt * 4 +
            c.nKvHeads.toInt * c.headDim.toInt * 4 + c.intermediateDim.toInt * 8 +
            c.vocabSize.toInt * 4) 0x4000000 + 4095) / 4096 * 4096 := by
  have hhidden : (c.bufferDims.hidden : ℤ) = c.hiddenDim.toInt :=
    Int.toNat_of_nonneg hc.hiddenDim.le
  have hq : (c.bufferDims.q : ℤ) = c.nHeads.toInt * c.headDim.toInt :=
    Int.toNat_of_nonneg (mul_nonneg hc.nHeads.le hc.headDim.le)
  have hkv : (c.bufferDims.kv : ℤ) = c.nKvHeads.toInt * c.headDim.toInt :=
    Int.toNat_of_nonneg (mul_nonneg hc.nKvHeads.le hc.headDim.le)
  have hintermediate : (c.bufferDims.intermediate : ℤ) = c.intermediateDim.toInt :=
    Int.toNat_of_nonneg hc.intermediateDim.le
  have hlayers : (c.nLayers.toInt.toNat : ℤ) = c.nLayers.toInt := Int.toNat_of_nonneg hc.nLayers.le
  have hvocab : (c.vocabSize.toInt.toNat : ℤ) = c.vocabSize.toInt :=
    Int.toNat_of_nonneg hc.vocabSize.le
  have hcap : (capacity : ℤ) = (max (c.hiddenDim.toInt * 16 + c.nHeads.toInt * c.headDim.toInt * 4 +
      c.nKvHeads.toInt * c.headDim.toInt * 4 + c.intermediateDim.toInt * 8 +
      c.vocabSize.toInt * 4) 0x4000000 + 4095) / 4096 * 4096 := by
    simp only [EngineLoad.scratchBytes, mul32, Option.bind_eq_some_iff, Option.map_eq_some_iff,
      Option.ite_none_right_eq_some, Option.some.injEq] at hcapacity
    obtain ⟨qDim, ⟨-, rfl⟩, kvDim, ⟨-, rfl⟩, rfl⟩ := hcapacity
    omega
  rw [decodeStepFits_iff, ← hcap, ← Int.ofNat_le]
  simp only [layerBytes, Nat.cast_add, Nat.cast_mul, cast_roundUp, Nat.cast_ofNat, hhidden, hq, hkv,
    hintermediate, hlayers, hvocab]

/-- Thirty-two layers of a common size. -/
def commonConfig : ModelConfig where
  nLayers := 32
  nHeads := 32
  nKvHeads := 8
  headDim := 128
  hiddenDim := 4096
  intermediateDim := 14336
  vocabSize := 32000
  maxSeqLen := 8192

theorem decodeStep_fits_scratch_common :
    DecodeStepFits commonConfig.bufferDims 32 32000 0x4000000 := by
  have hpositive : commonConfig.Positive :=
    ⟨by decide, by decide, by decide, by decide, by decide, by decide, by decide, by decide⟩
  have hcapacity : EngineLoad.scratchBytes commonConfig = some 0x4000000 := by decide
  exact (decodeStep_fits_scratch_iff hpositive hcapacity).mpr (by decide)

/-- Two hundred wide layers. -/
def deepConfig : ModelConfig :=
  { commonConfig with nLayers := 200, nHeads := 64, nKvHeads := 64, hiddenDim := 8192,
                      intermediateDim := 65536 }

theorem decodeStep_exhausts_scratch :
    ¬ ∀ c : ModelConfig, c.Positive → ∀ capacity, EngineLoad.scratchBytes c = some capacity →
      DecodeStepFits c.bufferDims c.nLayers.toInt.toNat c.vocabSize.toInt.toNat capacity := by
  intro h
  have hfits := h deepConfig
    ⟨by decide, by decide, by decide, by decide, by decide, by decide, by decide, by decide⟩
    0x4000000 (by decide)
  rw [decodeStepFits_iff] at hfits
  revert hfits
  decide

/-! ### The batched prefill -/

theorem sum_transformerPrefillSizes (d : BufferDims) (m : ℕ) :
    (transformerPrefillSizes d m).sum =
      m * ((5 * d.hidden + 2 * d.q + 2 * d.kv + 3 * d.intermediate) * 2) := by
  simp only [transformerPrefillSizes, List.sum_cons, List.sum_nil]
  ring

/-- The buffers of a layer are given back. -/
theorem transformerPrefillBuffers_fits {d : BufferDims} {m : ℕ} {s : ScratchPool}
    (h : s.offset + total 256 (transformerPrefillSizes d m) ≤ s.capacity) :
    transformerPrefillBuffers d m s =
      ((places 256 s.offset (transformerPrefillSizes d m)).map some, s) := by
  unfold transformerPrefillBuffers ScratchPool.getAll
  simp only [Arena.allocAll_of_fits h, ScratchPool.mark, ScratchPool.rewindTo]
  rw [dif_pos s.offset_le]

theorem prefillLayerBuffers_fits {d : BufferDims} {m : ℕ} {s : ScratchPool}
    (h : s.offset + total 256 (transformerPrefillSizes d m) ≤ s.capacity) (nLayers : ℕ) :
    ∀ layer ∈ prefillLayerBuffers d m nLayers s,
      layer = ((places 256 s.offset (transformerPrefillSizes d m)).map some, s) := by
  induction nLayers with
  | zero => exact fun _ h => absurd h List.not_mem_nil
  | succ nLayers ih =>
    simp only [prefillLayerBuffers]
    rw [transformerPrefillBuffers_fits h, List.forall_mem_cons]
    exact ⟨rfl, ih⟩

section

variable {W R L P G : Type} (e : Engine W R L P G)

/-- The test leaves room for the rounding of thirteen buffers. -/
theorem batchedFits_room {n m : ℕ} (hfits : e.batchedFits n = true) (hle : m ≤ n) :
    ((total 256 (xBatchBytes e.bufferDims m :: transformerPrefillSizes e.bufferDims m) : ℕ) : ℤ) ≤
      e.scratchCapacity := by
  have hround : total 256 (xBatchBytes e.bufferDims m :: transformerPrefillSizes e.bufferDims m) ≤
      _ + _ * 255 := total_le _
  have hlength : (xBatchBytes e.bufferDims m :: transformerPrefillSizes e.bufferDims m).length = 13 :=
    rfl
  have hmono : (xBatchBytes e.bufferDims m :: transformerPrefillSizes e.bufferDims m).sum ≤
      n * e.hiddenDim * 2 + n * ((5 * e.hiddenDim + 2 * (e.dims.nHeads * e.dims.headDim) +
        2 * (e.dims.nKvHeads * e.dims.headDim) + 3 * e.intermediateDim) * 2) := by
    rw [List.sum_cons, sum_transformerPrefillSizes]
    exact Nat.add_le_add (Nat.mul_le_mul_right _ (Nat.mul_le_mul_right _ hle))
      (Nat.mul_le_mul_right _ hle)
  have hmargin := of_decide_eq_true hfits
  rw [hlength] at hround
  omega

/-- A prefill that is admitted gets `x_batch` and all buffers of every layer. They lie in the
pool one behind the other, and each layer leaves the cursor behind `x_batch`. -/
theorem batchedFits_sufficient {n m : ℕ} (hfits : e.batchedFits n = true) (hle : m ≤ n)
    (pool : ScratchPool) (hpool : (pool.capacity : ℤ) = e.scratchCapacity) :
    ∃ start, batchedPrefillStart e.bufferDims m pool = (some 0, start) ∧
      xBatchBytes e.bufferDims m ≤ start.offset ∧
      ∀ layer ∈ prefillLayerBuffers e.bufferDims m e.dims.nLayers start,
        layer.2 = start ∧
        ∃ offsets : List ℕ, layer.1 = offsets.map some ∧ offsets.length = 12 ∧
          ((0, xBatchBytes e.bufferDims m) ::
              offsets.zip (transformerPrefillSizes e.bufferDims m)).Pairwise
            (fun a b => a.1 + a.2 ≤ b.1) ∧
          ∀ block ∈ (0, xBatchBytes e.bufferDims m) ::
              offsets.zip (transformerPrefillSizes e.bufferDims m),
            block.1 + block.2 ≤ pool.capacity := by
  have hroom := batchedFits_room e hfits hle
  rw [← hpool, total_cons] at hroom
  have hx : roundUp 256 (xBatchBytes e.bufferDims m) ≤ pool.capacity := by omega
  have hxround : xBatchBytes e.bufferDims m ≤ roundUp 256 (xBatchBytes e.bufferDims m) :=
    le_roundUp (by decide) _
  obtain ⟨start, hstart, hoffset, hcapacity⟩ : ∃ start : ScratchPool,
      batchedPrefillStart e.bufferDims m pool = (some 0, start) ∧
        start.offset = roundUp 256 (xBatchBytes e.bufferDims m) ∧
        start.capacity = pool.capacity := by
    refine ⟨⟨pool.capacity, roundUp 256 (xBatchBytes e.bufferDims m), hx⟩, ?_, rfl, rfl⟩
    unfold batchedPrefillStart ScratchPool.get Arena.alloc ScratchPool.reset
    simp only [Nat.zero_add, dif_pos hx]
  refine ⟨start, hstart, by rwa [hoffset], fun layer hlayer => ?_⟩
  have hlayerFits : start.offset + total 256 (transformerPrefillSizes e.bufferDims m) ≤
      start.capacity := by omega
  obtain rfl := prefillLayerBuffers_fits hlayerFits e.dims.nLayers layer hlayer
  refine ⟨rfl, places 256 start.offset (transformerPrefillSizes e.bufferDims m), rfl,
    by simp [transformerPrefillSizes], ?_, ?_⟩
  · rw [List.pairwise_cons]
    refine ⟨fun block hblock => ?_, places_pairwise (by decide) _ _⟩
    have hbound := (places_bound (by decide) block hblock).1
    simp only
    omega
  · rw [List.forall_mem_cons]
    refine ⟨by simp only; omega, fun block hblock => ?_⟩
    have hbound := (places_bound (by decide) block hblock).2
    omega

end

/-- Two tokens of a prompt of three, on a pool of the least size. -/
theorem batchedFits_sufficient_constant :
    ∃ start, batchedPrefillStart ({ constantEngine Unit with scratchCapacity := 0x401000 }).bufferDims 2
        (.init 0x401000) = (some 0, start) ∧
      ∀ layer ∈ prefillLayerBuffers
        ({ constantEngine Unit with scratchCapacity := 0x401000 }).bufferDims 2 1 start,
          layer.2 = start := by
  obtain ⟨start, hstart, -, hlayers⟩ := batchedFits_sufficient
    { constantEngine Unit with scratchCapacity := 0x401000 } (n := 3) (m := 2) (by decide)
    (by decide) (.init 0x401000) rfl
  exact ⟨start, hstart, fun layer hlayer => (hlayers layer hlayer).1⟩

end JLLM
