import ReflexLlm.Proofs.ForwardPass
import ReflexLlm.Proofs.Hydrate
import ReflexLlm.Spec.Generate

/-! A turn of `generate`: which prompts it refuses, and that it keeps what every store
of a forward pass keeps. An invariant of the KV memory goes through the layers, the two
prefills and the decode loop. -/

namespace JLLM

section Prompts

variable {W R L P G : Type} {e : Engine W R L P G} {env : TurnEnv} {params : GenParams P}
  {dir : String} {prompt : List UInt8} {s : EngineState G} {fs : FileSystem}

/-- The guards of `generate` before it touches the cache. -/
def promptRefused (limit : ℕ) (params : GenParams P) (prompt : List UInt8)
    (promptTokens : List Int32) : Prop :=
  max 4096 (limit * 8) < prompt.length ∨ limit ≤ promptTokens.length ∨
    reserveThrows promptTokens.length params.maxTokens = true

theorem generate_refused (h : promptRefused s.pool.maxTokens params prompt (e.promptTokens prompt)) :
    generate e env params dir prompt s fs = .threw s := by
  simp only [generate]
  rcases h with h | h | h
  · rw [if_pos h]
  · rw [if_pos h, ite_self]
  · rw [if_pos h, ite_self, ite_self]

theorem promptTokens_ne_nil (prompt : List UInt8) : e.promptTokens prompt ≠ [] := by
  rw [Engine.promptTokens]
  split_ifs with h
  · simp
  · simpa using h

theorem promptTokens_lt {limit : ℕ}
    (h : ¬ promptRefused limit params prompt (e.promptTokens prompt)) :
    (e.promptTokens prompt).length < limit :=
  Nat.not_le.mp fun hle => h (Or.inr (Or.inl hle))

/-- The state of a turn when its decode loop ends. -/
def turnState (e : Engine W R L P G) (env : TurnEnv) (params : GenParams P) (limit : ℕ) (rng : G)
    (promptTokens : List Int32) (m : ℕ) (q : KVCachePool) : GenState G :=
  decodeFrom e env params limit rng promptTokens
    (prefill e params ⟨q, if m = 0 then [] else [.hydrated m]⟩ m promptTokens)

/-- An admitted prompt ends as its hydration does. -/
theorem generate_admitted
    (h : ¬ promptRefused s.pool.maxTokens params prompt (e.promptTokens prompt)) :
    generate e env params dir prompt s fs =
      match tryHydrateKv env.hydrate dir fs e.fingerprint s.pool
        ((e.promptTokens prompt).map Int32.toUInt32) params.conversationId with
      | .threw => .threw s
      | .outOfBounds => .outOfBounds
      | .returned m q =>
          .returned (finishTurn e env params dir fs (e.encode prompt).length
            (turnState e env params s.pool.maxTokens s.rng (e.promptTokens prompt) m q)) := by
  rw [promptRefused, not_or, not_or] at h
  obtain ⟨hbytes, htokens, hreserve⟩ := h
  simp only [generate]
  rw [if_neg hbytes, if_neg htokens, if_neg hreserve]
  rfl

/-- Without a conversation the prompt is prefilled from its start. -/
theorem generate_fresh
    (h : ¬ promptRefused s.pool.maxTokens params prompt (e.promptTokens prompt))
    (hconv : ¬ Persistent params.conversationId) :
    generate e env params dir prompt s fs =
      .returned (finishTurn e env params dir fs (e.encode prompt).length
        (turnState e env params s.pool.maxTokens s.rng (e.promptTokens prompt) 0 s.pool)) := by
  rw [generate_admitted h, tryHydrateKv_fresh hconv]

/-- A turn that throws leaves the engine as it was. -/
theorem generate_threw {engine : EngineState G}
    (h : generate e env params dir prompt s fs = .threw engine) : engine = s := by
  by_cases hrefused : promptRefused s.pool.maxTokens params prompt (e.promptTokens prompt)
  · rw [generate_refused hrefused] at h
    exact (TurnResult.threw.inj h).symm
  · rw [generate_admitted hrefused] at h
    split at h
    · exact (TurnResult.threw.inj h).symm
    · cases h
    · cases h

/-- A turn that returns was admitted and hydrated. -/
theorem generate_eq_returned {turn : Turn G}
    (h : generate e env params dir prompt s fs = .returned turn) :
    ∃ m q, tryHydrateKv env.hydrate dir fs e.fingerprint s.pool
        ((e.promptTokens prompt).map Int32.toUInt32) params.conversationId = .returned m q ∧
      (e.promptTokens prompt).length < s.pool.maxTokens ∧
      turn = finishTurn e env params dir fs (e.encode prompt).length
        (turnState e env params s.pool.maxTokens s.rng (e.promptTokens prompt) m q) := by
  by_cases hrefused : promptRefused s.pool.maxTokens params prompt (e.promptTokens prompt)
  · rw [generate_refused hrefused] at h
    cases h
  · rw [generate_admitted hrefused] at h
    cases hhydrate : tryHydrateKv env.hydrate dir fs e.fingerprint s.pool
        ((e.promptTokens prompt).map Int32.toUInt32) params.conversationId with
    | threw =>
      rw [hhydrate] at h
      cases h
    | outOfBounds =>
      rw [hhydrate] at h
      cases h
    | returned m q =>
      rw [hhydrate] at h
      exact ⟨m, q, rfl, promptTokens_lt hrefused, (TurnResult.returned.inj h).symm⟩

end Prompts

/-- A batch kernel returns no more rows than it gets. -/
structure Kernels.RowCounts {W R : Type} (K : Kernels W R) : Prop where
  gemm : ∀ w xs, (K.gemmQuantBatched w xs).length = xs.length
  rmsnormRows : ∀ w xs, (K.rmsnormRows w xs).length = xs.length
  rmsnormHeadRows : ∀ w n xs, (K.rmsnormHeadRows w n xs).length = xs.length
  vecAddRows : ∀ xs ys, (K.vecAddRows xs ys).length ≤ xs.length

theorem Kernels.RowWise.rowCounts {W R : Type} {K : Kernels W R} (h : K.RowWise) : K.RowCounts where
  gemm := fun w xs => by rw [h.gemm, List.length_map]
  rmsnormRows := fun w xs => by rw [h.rmsnormRows, List.length_map]
  rmsnormHeadRows := fun w n xs => by rw [h.rmsnormHeadRows, List.length_map]
  vecAddRows := fun xs ys => by simp [h.vecAddRows]

/-- Bytes of the rows that a forward pass stores. -/
def ModelDims.storedBytes (d : ModelDims) (kvInt8 : Bool) : ℕ :=
  d.kvDim * if kvInt8 then 1 else 2

section Stores

variable {W R σ : Type} (K : Kernels W R) (M : KvMem σ) (d : ModelDims) (kvInt8 : Bool)

/-- Stores of rows of that size below `limit` keep `inv`. -/
structure StoresKeep (limit : ℕ) (inv : σ → Prop) : Prop where
  key : ∀ s l p row, inv s → l < d.nLayers → p < limit → row.length = d.storedBytes kvInt8 →
    inv (M.putKey s l p row)
  val : ∀ s l p row, inv s → l < d.nLayers → p < limit → row.length = d.storedBytes kvInt8 →
    inv (M.putVal s l p row)
  kScale : ∀ s l p row, inv s → inv (M.putKScale s l p row)
  vScale : ∀ s l p row, inv s → inv (M.putVScale s l p row)

variable {M d kvInt8} {limit : ℕ} {inv : σ → Prop}

theorem halfBytes_stored (r : R) :
    (K.halfBytes d.kvDim r).length = d.storedBytes false := by
  rw [K.halfBytes_length, ModelDims.storedBytes, if_neg (by decide), Nat.mul_comm]

theorem fp16ToInt8_stored (r : R) :
    (K.fp16ToInt8 d.nKvHeads d.headDim r).1.length = d.storedBytes true := by
  rw [K.fp16ToInt8_length, ModelDims.storedBytes, if_pos rfl, Nat.mul_one, ModelDims.kvDim]

section

variable {l p : ℕ} {s : σ} (hs : inv s) (hl : l < d.nLayers) (hp : p < limit)

include hs hl hp

theorem StoresKeep.ropeStore (h : StoresKeep M d false limit inv) (q k v : R) :
    inv (ropeInplaceStoreKvFp16 K M d l p s q k v).1 := by
  have hkey := h.key s l p _ hs hl hp (halfBytes_stored K (K.ropeInplace p q k).2)
  exact h.val _ l p _ hkey hl hp (halfBytes_stored K v)

theorem StoresKeep.memcpy (h : StoresKeep M d false limit inv) (k v : R) :
    inv (storeMemcpy K M d l p s k v) := by
  have hkey := h.key s l p _ hs hl hp (halfBytes_stored K k)
  exact h.val _ l p _ hkey hl hp (halfBytes_stored K v)

theorem StoresKeep.int8 (h : StoresKeep M d true limit inv) (k v : R) :
    inv (storeInt8 K M d l p s k v) := by
  have hkey := h.key s l p _ hs hl hp (fp16ToInt8_stored K k)
  rw [storeInt8]
  cases M.scaleSlot s l p
  · exact h.val _ l p _ hkey hl hp (fp16ToInt8_stored K v)
  · have hscale := h.kScale _ l p (K.fp16ToInt8 d.nKvHeads d.headDim k).2 hkey
    exact h.vScale _ l p _ (h.val _ l p _ hscale hl hp (fp16ToInt8_stored K v))

/-- Whichever branch stores, one token's rows of a layer keep the invariant. -/
theorem StoresKeep.attnCompute (h : StoresKeep M d kvInt8 limit inv) (lw : LayerWeights W)
    (q k v : R) (qkNormAlready : Bool) :
    inv (transformerLayerAttnCompute K M d kvInt8 lw l p s q k v qkNormAlready).1 := by
  cases kvInt8 with
  | true =>
    simp only [transformerLayerAttnCompute, Bool.not_true, Bool.false_and, Bool.false_eq_true,
      if_false, if_true]
    exact h.int8 K hs hl hp _ _
  | false =>
    simp only [transformerLayerAttnCompute, Bool.not_false, Bool.true_and, Bool.false_eq_true,
      if_false]
    have hrope := h.ropeStore K hs hl hp (qkNorm K d lw qkNormAlready q k).1
      (qkNorm K d lw qkNormAlready q k).2 v
    cases hfast : M.isFast s p
    · simp only [Bool.false_eq_true, if_false, hfast, Bool.not_false, if_true]
      exact h.memcpy K hs hl hp _ _
    · simp only [if_true]
      split_ifs
      · exact h.memcpy K hrope hl hp _ _
      · exact hrope

theorem StoresKeep.prefillStore (h : StoresKeep M d kvInt8 limit inv) (q k v : R) :
    inv (prefillStore K M d kvInt8 l p s q k v).1 := by
  cases kvInt8 with
  | true =>
    simp only [JLLM.prefillStore, Bool.not_true, Bool.false_and, Bool.false_eq_true, if_false,
      if_true]
    exact h.int8 K hs hl hp _ _
  | false =>
    simp only [JLLM.prefillStore, Bool.not_false, Bool.true_and, Bool.false_eq_true, if_false]
    split_ifs
    · exact h.ropeStore K hs hl hp q k v
    · exact h.memcpy K hs hl hp _ _

end

theorem StoresKeep.prefillStoreLoop (h : StoresKeep M d kvInt8 limit inv) {l : ℕ}
    (hl : l < d.nLayers) (rows : List (R × R × R)) : ∀ (p : ℕ) {s : σ}, inv s →
      p + rows.length ≤ limit → inv (prefillStoreLoop K M d kvInt8 l p s rows).1 := by
  induction rows with
  | nil => exact fun p s hs _ => hs
  | cons row rest ih =>
    intro p s hs hp
    obtain ⟨q, k, v⟩ := row
    rw [List.length_cons] at hp
    rw [JLLM.prefillStoreLoop]
    exact ih (p + 1) (h.prefillStore K hs hl (by omega) q k v) (by omega)

variable (weights : ℕ → LayerWeights W)

theorem StoresKeep.forwardToken (h : StoresKeep M d kvInt8 limit inv) {p : ℕ} {s : σ} (hs : inv s)
    (hp : p < limit) (token : Int32) :
    inv (forwardToken K M d kvInt8 weights d.nLayers p s token).1 := by
  rw [JLLM.forwardToken]
  refine List.foldlRecOn (motive := fun a : σ × R => inv a.1) _ _ hs fun a ha l hl => ?_
  exact h.attnCompute K ha (List.mem_range.mp hl) hp _ _ _ _ _

theorem StoresKeep.prefillPerToken (h : StoresKeep M d kvInt8 limit inv) (tokens : List Int32) :
    ∀ (i : ℕ) {s : σ} (last : Option R), inv s → i + tokens.length ≤ limit →
      inv (prefillPerToken K M d kvInt8 weights d.nLayers i s last tokens).1 := by
  induction tokens with
  | nil => exact fun i s last hs _ => hs
  | cons token rest ih =>
    intro i s last hs hi
    rw [List.length_cons] at hi
    rw [JLLM.prefillPerToken]
    exact ih (i + 1) _ (h.forwardToken K weights hs (by omega) token) (by omega)

theorem qkNormRows_length (hK : ∀ w n xs, (K.rmsnormHeadRows w n xs).length = xs.length)
    (lw : LayerWeights W) (q k : List R) :
    (qkNormRows K d lw q k).1.length = q.length ∧ (qkNormRows K d lw q k).2.length = k.length := by
  rw [qkNormRows]
  split
  · exact ⟨hK _ _ q, hK _ _ k⟩
  · exact ⟨rfl, rfl⟩

/-- One layer of a batch stores at most as many rows as it has tokens, and leaves no
more of them. -/
theorem StoresKeep.transformerPrefill (h : StoresKeep M d kvInt8 limit inv) (hK : K.RowCounts)
    {l start : ℕ} (hl : l < d.nLayers) {s : σ} (hs : inv s) {xBatch : List R}
    (hstart : start + xBatch.length ≤ limit) :
    inv (transformerPrefill K M d kvInt8 weights l start s xBatch).1 ∧
      (transformerPrefill K M d kvInt8 weights l start s xBatch).2.length ≤ xBatch.length := by
  constructor
  · refine h.prefillStoreLoop K hl _ start hs ?_
    rw [List.length_zip, (qkNormRows_length K hK.rmsnormHeadRows _ _ _).1, hK.gemm,
      hK.rmsnormRows]
    omega
  · exact (hK.vecAddRows _ _).trans (hK.vecAddRows _ _)

theorem StoresKeep.prefillBatched (h : StoresKeep M d kvInt8 limit inv) (hK : K.RowCounts)
    {start : ℕ} {s : σ} (hs : inv s) {tokens : List Int32} (hstart : start + tokens.length ≤ limit) :
    inv (prefillBatched K M d kvInt8 weights d.nLayers start s tokens).1 := by
  have hlayers : ∀ ls : List ℕ, (∀ l ∈ ls, l < d.nLayers) → ∀ a : σ × List R, inv a.1 →
      start + a.2.length ≤ limit → inv (ls.foldl (fun a l =>
        JLLM.transformerPrefill K M d kvInt8 weights l start a.1 a.2) a).1 := by
    intro ls
    induction ls with
    | nil => exact fun _ a ha _ => ha
    | cons l rest ih =>
      intro hls a ha hlen
      obtain ⟨hinv, hshrink⟩ := h.transformerPrefill K weights hK (hls l List.mem_cons_self) ha hlen
      exact ih (fun l' hl' => hls l' (List.mem_cons_of_mem _ hl')) _ hinv
        ((Nat.add_le_add_left hshrink start).trans hlen)
  exact hlayers _ (fun l hl => List.mem_range.mp hl) _ hs (by rwa [List.length_map])

end Stores

section Turns

variable {W R L P G : Type} (e : Engine W R L P G) (env : TurnEnv) (params : GenParams P)

/-- So do the stores of a turn and what it records of its passes and its tokens. -/
structure TurnKeeps (d : ModelDims) (kvInt8 : Bool) (limit : ℕ) (inv : Device → Prop) : Prop where
  stores : StoresKeep Device.mem d kvInt8 limit inv
  forward : ∀ s p token, inv s → p < limit → inv (s.emit (.forward p token))
  delivered : ∀ s token isEos, inv s → inv (s.emit (.delivered token isEos))

variable {e env params} {limit : ℕ} {inv : Device → Prop}
  (h : TurnKeeps e.dims params.kvInt8 limit inv)

include h

theorem TurnKeeps.prefill (hK : e.kernels.RowCounts) {s : Device} (hs : inv s) (start : ℕ)
    {tokens : List Int32} (hlimit : tokens.length ≤ limit) :
    inv (prefill e params s start tokens).1 := by
  rw [JLLM.prefill]
  split_ifs with hempty hbatched
  · exact hs
  all_goals
    have hrest : start + (tokens.drop start).length ≤ limit := by
      have hne : tokens.drop start ≠ [] := by simpa using hempty
      have := List.length_pos_iff.mpr hne
      rw [List.length_drop] at this ⊢
      omega
    have hforward : inv (((tokens.drop start).zipIdx start).foldl
        (fun dev t => dev.emit (.forward t.2 t.1)) s) := by
      refine List.foldlRecOn (motive := inv) _ _ hs fun dev hdev t ht => ?_
      have := List.snd_lt_of_mem_zipIdx ht
      exact h.forward _ _ _ hdev (by omega)
  · exact h.stores.prefillBatched e.kernels e.weights hK hforward hrest
  · exact h.stores.prefillPerToken e.kernels e.weights _ start _ hforward hrest

theorem TurnKeeps.decodeIteration {s : GenState G} (hs : inv s.dev) (hpos : s.pos < limit) :
    inv (decodeIteration e env params s).1.dev := by
  have hstep := h.stores.forwardToken e.kernels e.weights (h.forward _ s.pos s.lastToken hs hpos)
    hpos s.lastToken
  simp only [JLLM.decodeIteration, GenState.deliver, decodeStep, GenState.commit_dev,
    GenState.commit_lastToken]
  split_ifs
  · exact h.delivered _ _ _ hstep
  · exact h.delivered _ _ _ hstep

/-- The loop head stops at `limit`, so every iteration stores below it. -/
theorem TurnKeeps.decodeLoop (n : ℕ) : ∀ (i : ℕ) {s : GenState G}, inv s.dev →
    inv (decodeLoop e env params limit n i s).dev := by
  induction n with
  | zero => exact fun _ _ hs => hs
  | succ n ih =>
    intro i s hs
    rw [JLLM.decodeLoop]
    split_ifs with hstop hfull hmem
    · exact hs
    · exact hs
    · exact hs
    · have hnext : inv (JLLM.decodeIteration e env params s).1.dev :=
        h.decodeIteration hs (Nat.not_le.mp hfull)
      simp only
      split_ifs
      · exact hnext
      · exact ih (i + 1) hnext

theorem TurnKeeps.decodeFrom {promptTokens : List Int32} {prefilled : Device × Option R}
    (hs : inv prefilled.1) (rng : G) :
    inv (decodeFrom e env params limit rng promptTokens prefilled).dev := by
  simp only [JLLM.decodeFrom]
  split_ifs
  · exact h.delivered _ _ _ hs
  · exact h.decodeLoop _ _ (h.delivered _ _ _ hs)
  · exact h.decodeLoop _ _ hs

end Turns

/-! ### A small engine -/

/-- An engine of one layer that reads three bytes and always samples token three. -/
def constantEngine (P : Type) : Engine ℕ ℕ ℕ P Unit where
  kernels := byteSumKernels
  dims := ⟨1, 1, 1, 1⟩
  hiddenDim := 1
  intermediateDim := 1
  weights := fun _ => unitWeights
  encode := fun prompt => (prompt.take 3).map fun b => b.toUInt32.toInt32
  bosId := 1
  eosId := 2
  logits := id
  sampleToken := fun _ _ _ rng => (3, rng)
  sampleToken_nonneg := fun _ _ _ _ => show (0 : Int32) ≤ 3 by decide
  fingerprint := Vector.replicate 32 0
  scratchCapacity := 0
  batchedPrefillEnabled := true

/-- Nothing fails and nothing interferes. -/
def calmEnv : TurnEnv where
  hydrate := wholeHydrate
  save := ⟨true, fun _ => true, wholeWrites, fun _ => false⟩
  stop := fun _ => false
  memOk := fun _ => true
  firstLogitsOk := true
  logitsOk := fun _ => true

theorem calmEnv_noFailure : calmEnv.NoFailure :=
  ⟨wholeHydrate_noFailure, ⟨rfl, fun _ => rfl, wholeWrites_noFailure⟩, rfl, fun _ => rfl⟩

end JLLM
