import ReflexLlm.Lib.Runs
import ReflexLlm.Proofs.Hydrate
import ReflexLlm.Proofs.PoolRows
import ReflexLlm.Proofs.Turn
import ReflexLlm.Spec.Server

/-! The width of a row is chosen twice: by the pool at load time and by each request.
A server whose requests keep to the pool's width stores every row inside its slot and
writes and reads no cache file of an INT8 pool; a request for FP16 rows breaks both. -/

namespace JLLM

open Runs

/-- Byte ranges of different pools, or one before the other. -/
def Apart (p : Ptr) (len : ℕ) (q : Ptr) (len' : ℕ) : Prop :=
  p.block ≠ q.block ∨ p.off + len ≤ q.off ∨ q.off + len' ≤ p.off

/-- The slot of a key or value row. -/
def KVCachePool.slotPtr (p : KVCachePool) (isValue : Bool) (layer pos : ℕ) : Ptr :=
  if isValue then p.valPtr layer pos else p.keyPtr layer pos

/-- A row is written into its slot, inside the pool and off every other slot; files are
saved and hydrated by FP16 pools only. -/
def Event.Coherent (p : KVCachePool) : Event → Prop
  | .rowWrite layer pos isValue dst len =>
      dst = p.slotPtr isValue layer pos ∧ len ≤ p.cfg.entryBytes / 2 ∧
        dst.off + len ≤ p.blockBytes dst.block ∧
        ∀ isValue' layer' pos', pos' < p.maxTokens →
          (isValue', layer', pos') ≠ (isValue, layer, pos) →
          Apart dst len (p.slotPtr isValue' layer' pos') (p.cfg.entryBytes / 2)
  | .hydrated _ => p.cfg.kvTypeBytes = 2
  | .saved _ => p.cfg.kvTypeBytes = 2
  | .forward _ _ => True
  | .delivered _ _ => True

theorem KVCachePool.slotPtr_eq (p : KVCachePool) (isValue : Bool) (layer pos : ℕ) :
    p.slotPtr isValue layer pos = p.rowPtr layer isValue.toNat pos := by
  cases isValue <;> rfl

theorem toNat_lt_two (isValue : Bool) : isValue.toNat < 2 := by cases isValue <;> decide

theorem slot_ne {l l' pos pos' : ℕ} {isValue isValue' : Bool}
    (h : (l, pos, isValue) ≠ (l', pos', isValue')) :
    (l, isValue.toNat, pos) ≠ (l', isValue'.toNat, pos') := by
  intro heq
  simp only [Prod.mk.injEq] at heq
  obtain ⟨rfl, hvalue, rfl⟩ := heq
  cases isValue <;> cases isValue' <;> simp at hvalue h

/-- A row no wider than its slot is coherent. -/
theorem rowWrite_coherent (p : KVCachePool) {layer pos len : ℕ} (isValue : Bool)
    (hl : layer < p.cfg.nLayers) (hpos : pos < p.maxTokens) (hlen : len ≤ p.cfg.rowBytes) :
    (Event.rowWrite layer pos isValue (p.slotPtr isValue layer pos) len).Coherent p := by
  refine ⟨rfl, by rwa [Config.entryBytes_half], ?_, fun isValue' layer' pos' hpos' hne => ?_⟩
  · have := p.rowPtr_bound hl (toNat_lt_two isValue) hpos
    rw [p.slotPtr_eq]
    omega
  · rw [Apart, Config.entryBytes_half, p.slotPtr_eq, p.slotPtr_eq]
    have hne' : (layer, pos, isValue) ≠ (layer', pos', isValue') := by
      simp only [ne_eq, Prod.mk.injEq] at hne ⊢
      tauto
    rcases p.rowPtr_disjoint (toNat_lt_two isValue) (toNat_lt_two isValue') hpos hpos'
      (slot_ne hne') with h | h | h
    · exact Or.inl h
    · exact Or.inr (Or.inl (by omega))
    · exact Or.inr (Or.inr (by omega))

/-! ### A turn -/

/-- The device has the pool's shape, and what happened on it is coherent. -/
def CoherentDevice (p : KVCachePool) (s : Device) : Prop :=
  s.pool.cfg = p.cfg ∧ ∀ event ∈ s.trace, event.Coherent p

theorem CoherentDevice.emit {p : KVCachePool} {s : Device} (h : CoherentDevice p s) {event : Event}
    (hevent : event.Coherent p) : CoherentDevice p (s.emit event) := by
  refine ⟨h.1, fun event' hmem => ?_⟩
  rcases List.mem_append.mp hmem with hmem | hmem
  · exact h.2 event' hmem
  · rw [List.mem_singleton.mp hmem]
    exact hevent

section

variable {W R L P G : Type} {e : Engine W R L P G} {p : KVCachePool} (hshape : ModelRows p.cfg e.dims)
  {kvInt8 : Bool}

include hshape

/-- The rows of a request fit an FP16 pool, and an INT8 pool when they are INT8. -/
theorem storedBytes_le (hwidth : p.cfg.kvTypeBytes = 2 ∨ p.cfg.kvTypeBytes = 1 ∧ kvInt8 = true) :
    e.dims.storedBytes kvInt8 ≤ p.cfg.rowBytes := by
  rw [ModelDims.storedBytes, ModelDims.kvDim, Config.rowBytes, hshape.heads, hshape.headDim]
  refine Nat.mul_le_mul_left _ ?_
  rcases hwidth with h | ⟨h, rfl⟩
  · rw [h]
    split <;> decide
  · rw [h, if_pos rfl]

theorem coherentDevice_keeps
    (hwidth : p.cfg.kvTypeBytes = 2 ∨ p.cfg.kvTypeBytes = 1 ∧ kvInt8 = true) :
    TurnKeeps e.dims kvInt8 p.maxTokens (CoherentDevice p) := by
  have hlen := storedBytes_le hshape hwidth
  have hslot (s : Device) (hcfg : s.pool.cfg = p.cfg) (isValue : Bool) (l pos : ℕ) :
      s.pool.slotPtr isValue l pos = p.slotPtr isValue l pos := by
    rw [KVCachePool.slotPtr_eq, KVCachePool.slotPtr_eq, KVCachePool.rowPtr_congr hcfg]
  refine ⟨⟨fun s l pos row hs hl hpos hrow => ?_, fun s l pos row hs hl hpos hrow => ?_,
    fun s l pos row hs => ?_, fun s l pos row hs => ?_⟩, fun s pos token hs _ => hs.emit trivial,
    fun s token isEos hs => hs.emit trivial⟩
  · have hevent := rowWrite_coherent p false (hshape.layers ▸ hl) hpos (hrow ▸ hlen)
    rw [← hslot s hs.1] at hevent
    have hstored : CoherentDevice p { s with pool := s.pool.store (s.pool.keyPtr l pos) row } :=
      ⟨(KVCachePool.store_cfg _ _ _).trans hs.1, hs.2⟩
    exact hstored.emit hevent
  · have hevent := rowWrite_coherent p true (hshape.layers ▸ hl) hpos (hrow ▸ hlen)
    rw [← hslot s hs.1] at hevent
    have hstored : CoherentDevice p { s with pool := s.pool.store (s.pool.valPtr l pos) row } :=
      ⟨(KVCachePool.store_cfg _ _ _).trans hs.1, hs.2⟩
    exact hstored.emit hevent
  all_goals
    refine ⟨?_, hs.2⟩
    simp only [Device.mem]
    cases s.pool.kvScalePtr l pos _ with
    | none => exact hs.1
    | some ptr => exact hs.1

omit hshape in
/-- A request for INT8 rows saves nothing. -/
theorem saveTurn_int8 (io : SaveTurnIo) (dir : String) (fs : FileSystem)
    (fingerprint : Vector UInt8 32) (q : KVCachePool) (convId : String) (kvTokens : List UInt32) :
    saveTurn io dir fs fingerprint q convId true kvTokens = (false, fs) := by
  simp only [saveTurn, if_true, ite_self]

/-- No file of the directory is one that the pool's header checks accept. -/
def NoFileFor (c : Config) (fingerprint : Vector UInt8 32) (fs : FileSystem) : Prop :=
  ∀ path f, fs path = some f → ¬ HeaderAccepted c fingerprint f

/-- A turn of an FP16 pool is coherent, and so is an INT8 turn that finds no file. -/
theorem turn_coherent {env : TurnEnv} {params : GenParams P} {dir : String} {prompt : List UInt8}
    {s : EngineState G} {fs : FileSystem} {turn : Turn G} (hK : e.kernels.RowCounts)
    (hcfg : s.pool.cfg = p.cfg)
    (hfiles : p.cfg.kvTypeBytes = 2 ∨ NoFileFor p.cfg e.fingerprint fs)
    (hwidth : p.cfg.kvTypeBytes = 2 ∨ p.cfg.kvTypeBytes = 1 ∧ params.kvInt8 = true)
    (h : generate e env params dir prompt s fs = .returned turn) :
    (turn.engine.pool.cfg = p.cfg ∧ ∀ event ∈ turn.trace, event.Coherent p) ∧
      (params.kvInt8 = true → turn.fs = fs) := by
  obtain ⟨m, q, hhydrate, htokens, rfl⟩ := generate_eq_returned h
  obtain ⟨hq, hmatch⟩ := tryHydrateKv_returned hhydrate
  have hhydrated : CoherentDevice p ⟨q, if m = 0 then [] else [.hydrated m]⟩ := by
    refine ⟨hq.trans hcfg, fun event hevent => ?_⟩
    split_ifs at hevent with hm
    · cases hevent
    · rw [List.mem_singleton.mp hevent]
      refine hfiles.resolve_right fun hnone => ?_
      obtain ⟨f, hf, haccepted⟩ := hmatch hm
      exact hnone _ f hf (hcfg ▸ haccepted)
  have hkeeps := coherentDevice_keeps hshape hwidth
  have hlimit : s.pool.maxTokens = p.maxTokens := by
    rw [KVCachePool.maxTokens, KVCachePool.maxTokens, hcfg]
  rw [hlimit] at htokens ⊢
  have hdev : CoherentDevice p
      (turnState e env params p.maxTokens s.rng (e.promptTokens prompt) m q).dev :=
    hkeeps.decodeFrom (hkeeps.prefill hK hhydrated m htokens.le) s.rng
  refine ⟨⟨hdev.1, ?_⟩, fun hint8 => ?_⟩
  · simp only [finishTurn]
    split_ifs with hsaved
    · have hhalves : p.cfg.kvTypeBytes = 2 := hwidth.resolve_right fun hint8 => by
        rw [hint8.2, saveTurn_int8] at hsaved
        cases hsaved
      exact (CoherentDevice.emit hdev (show (Event.saved _).Coherent p from hhalves)).2
    · exact hdev.2
  · simp only [finishTurn, hint8, saveTurn_int8]

end

/-! ### A server -/

section

variable {W R L G : Type} (e : Engine W R L (SampleParams ℚ) G) (p : KVCachePool)

/-- Everything the server did is coherent. -/
def Server.Coherent (s : Server G) : Prop := ∀ event ∈ s.trace, event.Coherent p

/-- What keeps an INT8 server coherent: a request whose prompt is not refused asks for
INT8 rows, and nobody brings a file that the pool accepts. -/
def ServerEvent.KeepsWidth : ServerEvent → Prop
  | .chat _ parsed => ∀ request, chatCompletions true parsed = .ok request →
      request.params.kvInt8 = true ∨
        promptRefused p.maxTokens request.params request.promptBytes
          (e.promptTokens request.promptBytes)
  | .directory fs => NoFileFor p.cfg e.fingerprint fs

/-- The pool keeps its shape, everything so far is coherent, and an INT8 pool finds no
file of its own. -/
structure CoherentServer (s : Server G) : Prop where
  cfg : s.engine.pool.cfg = p.cfg
  trace : s.Coherent p
  files : p.cfg.kvTypeBytes = 2 ∨ NoFileFor p.cfg e.fingerprint s.fs

variable {e p} (hK : e.kernels.RowCounts) (hshape : ModelRows p.cfg e.dims) {dir : String}
  {defaultKvInt8 : Bool} (hload : p.cfg.kvTypeBytes = loadKvTypeBytes defaultKvInt8)

include hK hshape hload

/-- One request or one change of the directory. -/
theorem serverStep_coherent {s s' : Server G} {event : ServerEvent} (hs : CoherentServer e p s)
    (hevent : p.cfg.kvTypeBytes = 2 ∨ event.KeepsWidth e p)
    (hstep : ServerStep e dir defaultKvInt8 s event s') : CoherentServer e p s' := by
  cases hstep with
  | @chat _ env parsed h =>
    simp only [Server.chat] at h
    split at h
    · cases h
      exact hs
    · rename_i request hrequest
      split at h
      · rename_i turn hturn
        cases h
        have hwidth : p.cfg.kvTypeBytes = 2 ∨
            p.cfg.kvTypeBytes = 1 ∧ request.params.kvInt8 = true := by
          rcases hevent with hpool | hkeeps
          · exact Or.inl hpool
          cases defaultKvInt8 with
          | false => exact Or.inl hload
          | true =>
            refine Or.inr ⟨hload, (hkeeps request hrequest).resolve_right fun hrefused => ?_⟩
            have hlimit : s.engine.pool.maxTokens = p.maxTokens := by
              rw [KVCachePool.maxTokens, KVCachePool.maxTokens, hs.cfg]
            rw [← hlimit] at hrefused
            rw [generate_refused hrefused] at hturn
            cases hturn
        obtain ⟨⟨hcfg, hcoherent⟩, hfs⟩ := turn_coherent hshape hK hs.cfg hs.files hwidth hturn
        refine ⟨hcfg, fun event hmem => ?_, ?_⟩
        · rcases List.mem_append.mp hmem with hmem | hmem
          · exact hs.trace event hmem
          · exact hcoherent event hmem
        · rcases hwidth with hwidth | ⟨-, hint8⟩
          · exact Or.inl hwidth
          · rw [hfs hint8]
            exact hs.files
      · rename_i engine hturn
        cases h
        exact ⟨generate_threw hturn ▸ hs.cfg, hs.trace, hs.files⟩
      · cases h
  | directory => exact ⟨hs.cfg, hs.trace, hevent⟩

/-- Whatever a server is sent: while its pool is FP16, or every admitted request keeps to
INT8 rows and nobody brings an INT8 file, every row write stays in its slot and no file of
an INT8 pool is saved or hydrated. -/
theorem server_coherent {s₀ s : Server G} {events : List ServerEvent} (hpool : s₀.engine.pool = p)
    (htrace : s₀.trace = []) (hfiles : p.cfg.kvTypeBytes = 2 ∨ NoFileFor p.cfg e.fingerprint s₀.fs)
    (hevents : ∀ event ∈ events, p.cfg.kvTypeBytes = 2 ∨ event.KeepsWidth e p)
    (hrun : Run (ServerStep e dir defaultKvInt8) s₀ events s) : s.Coherent p := by
  have hs₀ : CoherentServer e p s₀ := ⟨by rw [hpool], by simp [Server.Coherent, htrace], hfiles⟩
  have hs := hrun.invariant_on
    (fun _ _ _ hs hevent hstep => serverStep_coherent hK hshape hload hs hevent hstep) hevents hs₀
  exact hs.trace

end

/-! ### Two requests to an INT8 server -/

/-- A request of one message with two tokens to generate. -/
def chatBody (fields : List (String × Json)) : Json :=
  .object ([("messages", .array [.object [("role", .string "user"), ("content", .string "Hi")]]),
    ("max_tokens", .integer 2), ("conversation_id", .string "chat")] ++ fields)

/-- An INT8 pool of eight positions. -/
def int8Pool : KVCachePool where
  cfg := ⟨1, 1, 1, 8, 0, 1⟩
  gpuPool := fun _ => 0
  cpuPool := none
  kvScales := some fun _ => 0
  usedTokens := 0
  gpuTokens := 0
  cfg_isInt := by decide
  gpu_fits := by decide
  overflow_backed := fun h => absurd h (by decide)
  overflow_sized := fun h => absurd h (by decide)
  scales_int8 := fun _ => rfl

def int8Server : Server Unit := ⟨⟨int8Pool, ()⟩, fun _ => none, []⟩

/-- The server after a request that it answers. -/
def int8ServerAfter (fields : List (String × Json)) : Server Unit :=
  (int8Server.chat (constantEngine _) "kv" true calmEnv (.ok (chatBody fields))).getD int8Server

theorem int8ServerAfter_run (fields : List (String × Json))
    (h : (int8Server.chat (constantEngine _) "kv" true calmEnv
      (.ok (chatBody fields))).isSome = true) :
    Run (ServerStep (constantEngine _) "kv" true) int8Server
      [.chat calmEnv (.ok (chatBody fields))] (int8ServerAfter fields) := by
  obtain ⟨s, hs⟩ := Option.isSome_iff_exists.mp h
  rw [int8ServerAfter, hs, Option.getD_some]
  exact .cons (.chat hs) (.nil s)

/-- A request that leaves `kv_int8` alone. -/
theorem server_coherent_default : (int8ServerAfter []).Coherent int8Pool :=
  server_coherent (p := int8Pool)
    byteSumKernels_rowWise.rowCounts ⟨rfl, rfl, rfl⟩ rfl rfl rfl
    (Or.inr fun _ _ h => absurd h (by simp [int8Server]))
    (fun event hevent => Or.inr (by
      rw [List.mem_singleton.mp hevent]
      intro request h
      have hkv : (chatCompletions true (.ok (chatBody []))).map (·.params.kvInt8) = .ok true := rfl
      rw [h] at hkv
      exact Or.inl (Except.ok.inj hkv)))
    (int8ServerAfter_run [] (by decide +kernel))

/-- A request for FP16 rows writes two bytes into slots of one, and has its rows saved. -/
theorem fp16_request_leaves_slots :
    ¬ (∀ events s, Run (ServerStep (constantEngine _) "kv" true) int8Server events s →
      ∀ event ∈ s.trace, event.isRowWrite = true → event.Coherent int8Pool) ∧
    ¬ (∀ events s, Run (ServerStep (constantEngine _) "kv" true) int8Server events s →
      ∀ event ∈ s.trace, event.isRowWrite = false → event.Coherent int8Pool) := by
  have hrun := int8ServerAfter_run [("kv_int8", .boolean false)] (by decide +kernel)
  constructor
  · intro h
    have hmem : Event.rowWrite 0 0 false ⟨.gpuPool, 0⟩ 2 ∈
        (int8ServerAfter [("kv_int8", .boolean false)]).trace := by decide +kernel
    have hlen := (h _ _ hrun _ hmem rfl).2.1
    exact absurd hlen (by decide)
  · intro h
    have hmem : Event.saved 4 ∈ (int8ServerAfter [("kv_int8", .boolean false)]).trace := by
      decide +kernel
    exact absurd (h _ _ hrun _ hmem rfl) (by rw [Event.Coherent]; decide)

end JLLM
