import ReflexLlm.Proofs.DecodeLoop
import ReflexLlm.Proofs.HydrateRace
import ReflexLlm.Proofs.Turn

/-! What a turn writes, in order: the trace of its row writes up to the place of the
bytes. A token's pass writes the key and the value row of each layer at its position,
and a batch those of all its positions layer by layer. -/

namespace JLLM

/-- The write of a row, wherever its bytes go. -/
def rowEvent (l p : ℕ) (isValue : Bool) : Event := .rowWrite l p isValue ⟨.gpuPool, 0⟩ 0

/-- An event without the place of its bytes. -/
def Event.bare : Event → Event
  | .rowWrite l p isValue _ _ => rowEvent l p isValue
  | event => event

def Device.bare (s : Device) : List Event := s.trace.map Event.bare

/-- The key and the value row of a layer and position. -/
def rowPair (l p : ℕ) : List Event := [rowEvent l p false, rowEvent l p true]

/-- As many rows come back from a batch kernel as it gets. -/
structure Kernels.SameRows {W R : Type} (K : Kernels W R) : Prop where
  gemm : ∀ w xs, (K.gemmQuantBatched w xs).length = xs.length
  rmsnormRows : ∀ w xs, (K.rmsnormRows w xs).length = xs.length
  rmsnormHeadRows : ∀ w n xs, (K.rmsnormHeadRows w n xs).length = xs.length
  vecAddRows : ∀ xs ys, xs.length = ys.length → (K.vecAddRows xs ys).length = xs.length
  swigluRows : ∀ xs ys, xs.length = ys.length → (K.swigluRows xs ys).length = xs.length
  attention : ∀ qs ks vs start int8 kss vss,
    (K.flashAttentionPrefillBatched qs ks vs start int8 kss vss).length = qs.length

theorem Kernels.RowWise.sameRows {W R : Type} {K : Kernels W R} (h : K.RowWise) : K.SameRows where
  gemm := fun w xs => by rw [h.gemm, List.length_map]
  rmsnormRows := fun w xs => by rw [h.rmsnormRows, List.length_map]
  rmsnormHeadRows := fun w n xs => by rw [h.rmsnormHeadRows, List.length_map]
  vecAddRows := fun xs ys hlen => by rw [h.vecAddRows, List.length_zipWith, hlen, min_self]
  swigluRows := fun xs ys hlen => by rw [h.swigluRows, List.length_zipWith, hlen, min_self]
  attention := fun qs ks vs start int8 kss vss => by rw [h.prefillRow, List.length_mapIdx]

/-! ### One position -/

section

variable (s : Device) (l p : ℕ) (row : List UInt8) (scales : List UInt32)

theorem bare_emit (event : Event) : (s.emit event).bare = s.bare ++ [event.bare] := by
  rw [Device.bare, Device.emit, List.map_append]
  rfl

theorem bare_putKey : (Device.mem.putKey s l p row).bare = s.bare ++ [rowEvent l p false] :=
  bare_emit _ _

theorem bare_putVal : (Device.mem.putVal s l p row).bare = s.bare ++ [rowEvent l p true] :=
  bare_emit _ _

theorem bare_putKScale : (Device.mem.putKScale s l p scales).bare = s.bare := rfl

theorem bare_putVScale : (Device.mem.putVScale s l p scales).bare = s.bare := rfl

theorem mem_stableFast : Device.mem.StableFast := by
  intro s l p row pos
  simp only [Device.mem, Device.emit, KVCachePool.isFastPosition, KVCachePool.store]
  constructor <;> split <;> rfl

end

section

variable {W R : Type} (K : Kernels W R) (d : ModelDims) (kvInt8 : Bool) (l p : ℕ) (s : Device)
  (q k v : R)

theorem bare_ropeStore :
    (ropeInplaceStoreKvFp16 K Device.mem d l p s q k v).1.bare = s.bare ++ rowPair l p := by
  rw [ropeInplaceStoreKvFp16]
  simp only [bare_putVal, bare_putKey, List.append_assoc]
  rfl

theorem bare_storeMemcpy : (storeMemcpy K Device.mem d l p s k v).bare = s.bare ++ rowPair l p := by
  rw [storeMemcpy]
  simp only [bare_putVal, bare_putKey, List.append_assoc]
  rfl

theorem bare_storeInt8 : (storeInt8 K Device.mem d l p s k v).bare = s.bare ++ rowPair l p := by
  rw [storeInt8]
  cases Device.mem.scaleSlot s l p
  · simp only [Bool.false_eq_true, if_false, bare_putVal, bare_putKey, List.append_assoc]
    rfl
  · simp only [if_true, bare_putVScale, bare_putVal, bare_putKScale, bare_putKey, List.append_assoc]
    rfl

theorem bare_prefillStore :
    (prefillStore K Device.mem d kvInt8 l p s q k v).1.bare = s.bare ++ rowPair l p := by
  unfold prefillStore
  split_ifs
  · exact bare_ropeStore K d l p s q k v
  · exact bare_storeInt8 K d l p s _ v
  · exact bare_storeMemcpy K d l p s _ v

/-- One token through one layer writes its two rows. -/
theorem bare_attnCompute (lw : LayerWeights W) (qkNormAlready : Bool) :
    (transformerLayerAttnCompute K Device.mem d kvInt8 lw l p s q k v qkNormAlready).1.bare =
      s.bare ++ rowPair l p := by
  cases kvInt8 with
  | true =>
    simp only [transformerLayerAttnCompute, Bool.not_true, Bool.false_and, Bool.false_eq_true,
      if_false, if_true]
    exact bare_storeInt8 K d l p s _ _
  | false =>
    simp only [transformerLayerAttnCompute, Bool.not_false, Bool.true_and, Bool.false_eq_true,
      if_false]
    cases hfast : Device.mem.isFast s p
    · simp only [Bool.false_eq_true, if_false, hfast, Bool.not_false, if_true]
      exact bare_storeMemcpy K d l p s _ _
    · have hkeep (q k : R) :
          Device.mem.isFast (ropeInplaceStoreKvFp16 K Device.mem d l p s q k v).1 p = true :=
        ((mem_stableFast _ l p _ p).2.trans (mem_stableFast s l p _ p).1).trans hfast
      simp only [if_true, hkeep, Bool.not_true, Bool.false_eq_true, if_false]
      exact bare_ropeStore K d l p s _ _ v

end

/-! ### The passes -/

section

variable {W R : Type} (K : Kernels W R) (d : ModelDims) (kvInt8 : Bool)
  (weights : ℕ → LayerWeights W)

/-- The rows of one position at all layers. -/
def tokenRows (nLayers p : ℕ) : List Event := (List.range nLayers).flatMap (rowPair · p)

theorem mem_rowPair {l p : ℕ} {event : Event} :
    event ∈ rowPair l p ↔ ∃ isValue, event = rowEvent l p isValue := by
  simp [rowPair]

theorem mem_tokenRows {nLayers p : ℕ} {event : Event} :
    event ∈ tokenRows nLayers p ↔ ∃ l isValue, event = rowEvent l p isValue ∧ l < nLayers := by
  simp only [tokenRows, List.mem_flatMap, List.mem_range, mem_rowPair]
  constructor
  · rintro ⟨l, hl, isValue, rfl⟩
    exact ⟨l, isValue, rfl, hl⟩
  · rintro ⟨l, isValue, rfl, hl⟩
    exact ⟨l, hl, isValue, rfl⟩

/-- The rows of one layer at `n` positions. -/
def layerRows (l start n : ℕ) : List Event := (List.range' start n).flatMap (rowPair l)

theorem bare_transformerLayer (l p : ℕ) (s : Device) (x : R) :
    (transformerLayer K Device.mem d kvInt8 weights l p s x).1.bare = s.bare ++ rowPair l p :=
  bare_attnCompute K d kvInt8 l p s _ _ _ _ _

theorem bare_forwardToken (nLayers p : ℕ) (s : Device) (token : Int32) :
    (forwardToken K Device.mem d kvInt8 weights nLayers p s token).1.bare =
      s.bare ++ tokenRows nLayers p := by
  rw [forwardToken, tokenRows]
  induction nLayers with
  | zero => simp
  | succ n ih =>
    rw [List.range_succ, List.foldl_append, List.foldl_cons, List.foldl_nil, bare_transformerLayer,
      ih, List.flatMap_append, List.flatMap_singleton, List.append_assoc]

theorem bare_prefillPerToken (nLayers : ℕ) (tokens : List Int32) :
    ∀ (start : ℕ) (s : Device) (last : Option R),
      (prefillPerToken K Device.mem d kvInt8 weights nLayers start s last tokens).1.bare =
        s.bare ++ (List.range' start tokens.length).flatMap (tokenRows nLayers) := by
  induction tokens with
  | nil => simp [prefillPerToken]
  | cons token rest ih =>
    intro start s last
    rw [prefillPerToken, ih, bare_forwardToken, List.length_cons, List.range'_succ,
      List.flatMap_cons, List.append_assoc]

theorem prefillPerToken_isSome (nLayers : ℕ) (tokens : List Int32) :
    ∀ (start : ℕ) (s : Device) (last : Option R), tokens ≠ [] →
      (prefillPerToken K Device.mem d kvInt8 weights nLayers start s last tokens).2.isSome := by
  induction tokens with
  | nil => exact fun _ _ _ hne => absurd rfl hne
  | cons token rest ih =>
    intro start s last _
    rw [prefillPerToken]
    cases rest with
    | nil => rfl
    | cons next rest => exact ih _ _ _ (List.cons_ne_nil _ _)

theorem bare_prefillStoreLoop (l : ℕ) (rows : List (R × R × R)) : ∀ (p : ℕ) (s : Device),
    (prefillStoreLoop K Device.mem d kvInt8 l p s rows).1.bare =
      s.bare ++ layerRows l p rows.length := by
  induction rows with
  | nil => simp [prefillStoreLoop, layerRows]
  | cons row rest ih =>
    intro p s
    obtain ⟨q, k, v⟩ := row
    rw [prefillStoreLoop, ih, bare_prefillStore, layerRows, layerRows, List.length_cons,
      List.range'_succ, List.flatMap_cons, List.append_assoc]

/-- A batch through one layer writes the rows of its positions and leaves a row for each. -/
theorem bare_transformerPrefill (hK : K.SameRows) (l start : ℕ) (s : Device) (xBatch : List R) :
    (transformerPrefill K Device.mem d kvInt8 weights l start s xBatch).1.bare =
        s.bare ++ layerRows l start xBatch.length ∧
      (transformerPrefill K Device.mem d kvInt8 weights l start s xBatch).2.length =
        xBatch.length := by
  have hproj (w : W) : (K.gemmQuantBatched w (K.rmsnormRows (weights l).rmsAttn xBatch)).length =
      xBatch.length := by
    rw [hK.gemm, hK.rmsnormRows]
  have hnorm := qkNormRows_length K (d := d) hK.rmsnormHeadRows (weights l)
    (K.gemmQuantBatched (weights l).wq (K.rmsnormRows (weights l).rmsAttn xBatch))
    (K.gemmQuantBatched (weights l).wk (K.rmsnormRows (weights l).rmsAttn xBatch))
  rw [hproj, hproj] at hnorm
  constructor
  · simp only [transformerPrefill, bare_prefillStoreLoop, List.length_zip, hnorm, hproj, min_self]
  · have hattn {ys : List R} (hys : ys.length = xBatch.length) (w : W) :
        (K.vecAddRows xBatch (K.gemmQuantBatched w ys)).length = xBatch.length :=
      hK.vecAddRows _ _ (by rw [hK.gemm, hys])
    simp only [transformerPrefill]
    rw [hK.vecAddRows]
    · refine hattn ?_ _
      rw [hK.attention, prefillStoreLoop_length, List.length_zip, List.length_zip, hnorm.1, hnorm.2,
        hproj, min_self, min_self]
    · rw [hK.gemm, hK.swigluRows _ _ (by rw [hK.gemm, hK.gemm]), hK.gemm, hK.rmsnormRows]

theorem bare_prefillBatched (hK : K.SameRows) (nLayers start : ℕ) (s : Device)
    (tokens : List Int32) :
    (prefillBatched K Device.mem d kvInt8 weights nLayers start s tokens).1.bare =
        s.bare ++ (List.range nLayers).flatMap (layerRows · start tokens.length) ∧
      ((prefillBatched K Device.mem d kvInt8 weights nLayers start s tokens).2.isSome ↔
        tokens ≠ []) := by
  have hlayers : ∀ n, ((List.range n).foldl (fun a l =>
        transformerPrefill K Device.mem d kvInt8 weights l start a.1 a.2)
        (s, tokens.map K.dequantEmbedding)).1.bare =
          s.bare ++ (List.range n).flatMap (layerRows · start tokens.length) ∧
      ((List.range n).foldl (fun a l =>
        transformerPrefill K Device.mem d kvInt8 weights l start a.1 a.2)
        (s, tokens.map K.dequantEmbedding)).2.length = tokens.length := by
    intro n
    induction n with
    | zero => simp
    | succ n ih =>
      obtain ⟨hbare, hlen⟩ := ih
      rw [List.range_succ, List.foldl_append, List.foldl_cons, List.foldl_nil]
      have hlayer := bare_transformerPrefill K d kvInt8 weights hK n start
      refine ⟨?_, (hlayer _ _).2.trans hlen⟩
      rw [(hlayer _ _).1, hbare, hlen, List.flatMap_append, List.flatMap_singleton,
        List.append_assoc]
  obtain ⟨hbare, hlen⟩ := hlayers nLayers
  refine ⟨hbare, ?_⟩
  rw [prefillBatched, List.getLast?_isSome, ← List.length_pos_iff, ← List.length_pos_iff, hlen]

end

/-! ### Prefill -/

section

variable {W R L P G : Type} (e : Engine W R L P G) (params : GenParams P)

/-- The rows that a prefill writes, in the order of its branch. -/
def prefillRows (e : Engine W R L P G) (start : ℕ) (promptTokens : List Int32) : List Event :=
  if e.batchedPrefillEnabled && e.batchedFits promptTokens.length then
    (List.range e.dims.nLayers).flatMap (layerRows · start (promptTokens.length - start))
  else (List.range' start (promptTokens.length - start)).flatMap (tokenRows e.dims.nLayers)

theorem mem_prefillRows {start : ℕ} {promptTokens : List Int32} {event : Event} :
    event ∈ prefillRows e start promptTokens ↔ ∃ l p isValue, event = rowEvent l p isValue ∧
      l < e.dims.nLayers ∧ start ≤ p ∧ p < promptTokens.length := by
  unfold prefillRows
  split_ifs
  · simp only [layerRows, List.mem_flatMap, List.mem_range, List.mem_range'_1, mem_rowPair]
    constructor
    · rintro ⟨l, hl, p, ⟨hstart, hp⟩, isValue, rfl⟩
      exact ⟨l, p, isValue, rfl, hl, hstart, by omega⟩
    · rintro ⟨l, p, isValue, rfl, hl, hstart, hp⟩
      exact ⟨l, hl, p, ⟨hstart, by omega⟩, isValue, rfl⟩
  · simp only [List.mem_flatMap, mem_tokenRows, List.mem_range'_1]
    constructor
    · rintro ⟨p, ⟨hstart, hp⟩, l, isValue, rfl, hl⟩
      exact ⟨l, p, isValue, rfl, hl, hstart, by omega⟩
    · rintro ⟨l, p, isValue, rfl, hl, hstart, hp⟩
      exact ⟨p, ⟨hstart, by omega⟩, l, isValue, rfl, hl⟩

/-- A prefill starts the passes of the tokens that are left and writes their rows. -/
theorem bare_prefill (hK : e.kernels.SameRows) (s : Device) (start : ℕ) (promptTokens : List Int32) :
    (prefill e params s start promptTokens).1.bare =
        s.bare ++ prefillEvents start promptTokens ++ prefillRows e start promptTokens ∧
      ((prefill e params s start promptTokens).2.isSome ↔ start < promptTokens.length) := by
  have hempty : (promptTokens.drop start).isEmpty ↔ promptTokens.length ≤ start := by
    rw [List.isEmpty_iff, List.drop_eq_nil_iff]
  have hevents : ((promptTokens.drop start).zipIdx start).foldl
      (fun s t => s.emit (.forward t.2 t.1)) s =
      { s with trace := s.trace ++ prefillEvents start promptTokens } := emit_foldl _ _ _
  have hbare : Device.bare { s with trace := s.trace ++ prefillEvents start promptTokens } =
      s.bare ++ prefillEvents start promptTokens := by
    rw [Device.bare, List.map_append, Device.bare, prefillEvents, List.map_map]
    rfl
  by_cases hrest : promptTokens.length ≤ start
  · have hnone : promptTokens.length - start = 0 := by omega
    have hdrop : promptTokens.drop start = [] := List.drop_eq_nil_of_le hrest
    simp [prefill, prefillEvents, prefillRows, hdrop, hnone, layerRows, hrest]
  · have hne : promptTokens.drop start ≠ [] := by
      rw [ne_eq, List.drop_eq_nil_iff]
      exact hrest
    rw [prefill]
    simp only [hempty, if_neg hrest, hevents]
    unfold prefillRows
    split_ifs with hbatched
    · obtain ⟨hrows, hsome⟩ := bare_prefillBatched e.kernels e.dims params.kvInt8 e.weights hK
        e.dims.nLayers start { s with trace := s.trace ++ prefillEvents start promptTokens }
        (promptTokens.drop start)
      rw [hrows, hbare, List.length_drop, hsome]
      exact ⟨rfl, fun _ => Nat.not_le.mp hrest, fun _ => hne⟩
    · rw [bare_prefillPerToken, hbare, List.length_drop]
      exact ⟨rfl, fun _ => Nat.not_le.mp hrest, fun _ => prefillPerToken_isSome _ _ _ _ _ _ _ _ _ hne⟩

/-- The prefill of a turn, behind the tokens that it was hydrated with. -/
theorem bare_prefill_hydrated (hK : e.kernels.SameRows) (q : KVCachePool) (m : ℕ)
    (promptTokens : List Int32) :
    (prefill e params ⟨q, if m = 0 then [] else [.hydrated m]⟩ m promptTokens).1.bare =
      (if m = 0 then [] else [.hydrated m]) ++ prefillEvents m promptTokens ++
        prefillRows e m promptTokens := by
  have hhydrated : Device.bare ⟨q, if m = 0 then [] else [.hydrated m]⟩ =
      if m = 0 then [] else [.hydrated m] := by
    rw [Device.bare]
    split_ifs <;> rfl
  rw [(bare_prefill e params hK _ m promptTokens).1, hhydrated]

/-! ### The decode loop -/

variable (env : TurnEnv)

theorem GenState.commit_completionTokens (s : GenState G) :
    s.commit.completionTokens = s.completionTokens := by
  rw [GenState.commit]
  split <;> rfl

/-- What an iteration that samples `token` does to the state. -/
structure Iterated (e : Engine W R L P G) (s s' : GenState G) (token : Int32) : Prop where
  bare : s'.dev.bare = s.dev.bare ++ .forward s.pos s.lastToken ::
    (tokenRows e.dims.nLayers s.pos ++ [.delivered token (token = e.eosId)])
  pos : s'.pos = s.pos + 1
  completionTokens : s'.completionTokens = s.completionTokens + 1
  kvTokens : s'.kvTokens =
    if s.kvTokens.length = s.pos then s.kvTokens ++ [s.lastToken.toUInt32] else s.kvTokens
  lastToken : token ≠ e.eosId → s'.lastToken = token

theorem decodeIteration_iterated (s : GenState G) :
    Iterated e s (decodeIteration e env params s).1 (decodeIteration e env params s).2 := by
  have hforward := bare_forwardToken e.kernels e.dims params.kvInt8 e.weights e.dims.nLayers s.pos
    (s.dev.emit (.forward s.pos s.lastToken)) s.lastToken
  rw [bare_emit] at hforward
  have hbare (token : Int32) (isEos : Bool) :
      ((forwardToken e.kernels Device.mem e.dims params.kvInt8 e.weights e.dims.nLayers s.pos
        (s.dev.emit (.forward s.pos s.lastToken)) s.lastToken).1.emit (.delivered token isEos)).bare =
        s.dev.bare ++ .forward s.pos s.lastToken ::
          (tokenRows e.dims.nLayers s.pos ++ [.delivered token isEos]) := by
    rw [bare_emit, hforward, List.append_assoc, List.append_assoc]
    rfl
  by_cases hok : env.logitsOk s.pos = false
  · simp only [decodeIteration, decodeStep, GenState.deliver, GenState.commit_dev,
      GenState.commit_lastToken, hok, if_true]
    refine ⟨?_, rfl, congrArg (· + 1) s.commit_completionTokens, s.commit_kvTokens,
      fun hne => absurd rfl hne⟩
    rw [decide_eq_true (rfl : e.eosId = e.eosId)]
    exact hbare e.eosId true
  · simp only [decodeIteration, decodeStep, GenState.deliver, GenState.commit_dev,
      GenState.commit_lastToken, GenState.commit_recentTokens, GenState.commit_rng, hok]
    exact ⟨hbare _ _, rfl, congrArg (· + 1) s.commit_completionTokens, s.commit_kvTokens,
      fun _ => rfl⟩

theorem Iterated.mem_bare {e : Engine W R L P G} {s s' : GenState G} {token : Int32}
    (h : Iterated e s s' token) {event : Event} (hmem : event ∈ s'.dev.bare) :
    event ∈ s.dev.bare ∨ event = .forward s.pos s.lastToken ∨
      event ∈ tokenRows e.dims.nLayers s.pos ∨ event = .delivered token (token = e.eosId) := by
  rwa [h.bare, List.mem_append, List.mem_cons, List.mem_append, List.mem_singleton] at hmem

/-- The states at the head of the decode loop, also where it ends. -/
def decodeHeads (kvTokenLimit : ℕ) : ℕ → ℕ → GenState G → List (GenState G)
  | 0, _, s => [s]
  | n + 1, i, s =>
      s ::
        if env.stop i then []
        else if kvTokenLimit ≤ s.pos then []
        else if env.memOk s.pos = false then []
        else
          let next := decodeIteration e env params s
          if next.2 = e.eosId then [] else decodeHeads kvTokenLimit n (i + 1) next.1

variable {e env params}

/-- What every iteration keeps holds at each head, and what it leads to where the loop ends. -/
theorem decodeLoop_rule {limit : ℕ} (head exit : GenState G → Prop)
    (hexit : ∀ s, head s → exit s)
    (hoom : ∀ s, head s → exit { s with oomStops := s.oomStops + 1 })
    (hlast : ∀ s s' token, head s → s.pos < limit → Iterated e s s' token → token = e.eosId →
      exit s')
    (hnext : ∀ s s' token, head s → s.pos < limit → Iterated e s s' token → token ≠ e.eosId →
      head s')
    (n i : ℕ) (s : GenState G) (hs : head s) :
    (∀ h ∈ decodeHeads e params env limit n i s, head h) ∧
      exit (decodeLoop e env params limit n i s) := by
  induction n generalizing i s with
  | zero => exact ⟨by simpa [decodeHeads] using hs, hexit s hs⟩
  | succ n ih =>
    rw [decodeHeads, decodeLoop, List.forall_mem_cons]
    split_ifs with hstop hlimit hmem
    · exact ⟨⟨hs, by simp⟩, hexit s hs⟩
    · exact ⟨⟨hs, by simp⟩, hexit s hs⟩
    · exact ⟨⟨hs, by simp⟩, hoom s hs⟩
    · have hiter := decodeIteration_iterated e params env s
      have hpos : s.pos < limit := Nat.not_le.mp hlimit
      simp only
      split_ifs with heos
      · exact ⟨⟨hs, by simp⟩, hlast s _ _ hs hpos hiter heos⟩
      · obtain ⟨hheads, hend⟩ := ih (i + 1) _ (hnext s _ _ hs hpos hiter heos)
        exact ⟨⟨hs, hheads⟩, hend⟩

variable (e env params) in
/-- Each iteration delivers one token. -/
theorem decodeLoop_completionTokens (limit n i : ℕ) (s : GenState G) :
    (decodeLoop e env params limit n i s).completionTokens ≤ s.completionTokens + n := by
  induction n generalizing i s with
  | zero => exact le_rfl
  | succ n ih =>
    rw [decodeLoop]
    split_ifs with hstop hlimit hmem
    · exact Nat.le_add_right _ _
    · exact Nat.le_add_right _ _
    · exact Nat.le_add_right _ _
    · have hcount := (decodeIteration_iterated e params env s).completionTokens
      simp only
      split_ifs
      · omega
      · have hrest := ih (i + 1) (decodeIteration e env params s).1
        omega

/-! ### The way into the loop -/

/-- Path A does not get to sample. -/
def NoFirstToken (env : TurnEnv) (lastPrefillX : Option R) : Prop :=
  lastPrefillX = none ∨ env.firstLogitsOk = false

theorem decodeFrom_fallback {limit : ℕ} {rng : G} {promptTokens : List Int32}
    (prefilled : Device × Option R) (h : NoFirstToken env prefilled.2) :
    decodeFrom e env params limit rng promptTokens prefilled =
      decodeLoop e env params limit params.maxTokens.toNat 0
        (turnHead rng promptTokens prefilled.1 (promptTokens.getLastD 0) []
          (promptTokens.length - 1)) := by
  have hfirst : firstToken e env params prefilled.2 rng = (-1, rng) := by
    cases hx : prefilled.2 with
    | none => rfl
    | some x =>
      have hok := h.resolve_left (by rw [hx]; exact Option.some_ne_none x)
      simp only [firstToken, hok, Bool.false_eq_true, if_false]
  rw [decodeFrom]
  simp only [hfirst]
  rw [if_neg (by decide)]
  rfl

/-- The state in which Path A enters the loop, its token delivered. -/
def pathAHead (e : Engine W R L P G) (params : GenParams P) (rng : G) (promptTokens : List Int32)
    (dev : Device) (x : R) : GenState G :=
  let t := e.sampleToken (e.logits x) params.sampling [] rng
  (turnHead t.2 promptTokens dev t.1 (pushRecent [] t.1) promptTokens.length).deliver t.1
    (t.1 = e.eosId)

theorem decodeFrom_pathA {limit : ℕ} {rng : G} {promptTokens : List Int32} {dev : Device} {x : R}
    (h : env.firstLogitsOk = true) :
    decodeFrom e env params limit rng promptTokens (dev, some x) =
      if (e.sampleToken (e.logits x) params.sampling [] rng).1 = e.eosId then
        pathAHead e params rng promptTokens dev x
      else decodeLoop e env params limit (params.maxTokens - 1).toNat 1
        (pathAHead e params rng promptTokens dev x) := by
  have hnonneg := e.sampleToken_nonneg (e.logits x) params.sampling [] rng
  rw [decodeFrom]
  simp only [firstToken, h, if_true]
  rw [if_pos hnonneg]
  rfl

/-! ### A turn that returns -/

/-- What a turn hydrates is a common prefix of its prompt and of the tokens of a file. -/
theorem tryHydrateKv_match {io : HydrateIo} {dir : String} {fs : FileSystem}
    {fingerprint : Vector UInt8 32} {p q : KVCachePool} {promptTokens : List UInt32}
    {convId : String} {m : ℕ}
    (h : tryHydrateKv io dir fs fingerprint p promptTokens convId = .returned m q) (hm : m ≠ 0) :
    ∃ f, fs (pathForConvId dir convId) = some f ∧ m = commonPrefix (tokensOf f) promptTokens := by
  simp only [tryHydrateKv] at h
  split_ifs at h with hconv hprompt
  · obtain ⟨rfl, -⟩ := HydrateResult.returned.inj h
    exact absurd rfl hm
  · obtain ⟨rfl, -⟩ := HydrateResult.returned.inj h
    exact absurd rfl hm
  · cases hpeek : hydratePeek io.peek p fingerprint (fs (pathForConvId dir convId)) with
    | none =>
      rw [hpeek] at h
      obtain ⟨rfl, -⟩ := HydrateResult.returned.inj h
      exact absurd rfl hm
    | some hdr =>
      rw [hpeek] at h
      obtain ⟨f, hf, hmatch⟩ := hydrateLoad_matched h (Nat.pos_of_ne_zero hm)
      exact ⟨f, hf, hmatch.tokens⟩

theorem tryHydrateKv_le {io : HydrateIo} {dir : String} {fs : FileSystem}
    {fingerprint : Vector UInt8 32} {p q : KVCachePool} {promptTokens : List UInt32}
    {convId : String} {m : ℕ}
    (h : tryHydrateKv io dir fs fingerprint p promptTokens convId = .returned m q) :
    m ≤ promptTokens.length := by
  by_cases hm : m = 0
  · omega
  · obtain ⟨f, -, rfl⟩ := tryHydrateKv_match h hm
    exact (commonPrefix_isLongest _ _).right

end

end JLLM
