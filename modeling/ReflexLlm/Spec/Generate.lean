import ReflexLlm.Spec.Hydrate
import ReflexLlm.Spec.Transformer

/-! One turn of `Engine::generate` in `src/engine/decode.cu`: hydrate, prefill, sample
the first token from the prefill (Path A), decode, save. What is outside the engine
answers through `TurnEnv`; timing, logging and the scratch buffers are left out. A turn
records the events that its caller and its files see. -/

namespace JLLM

/-- What `load` fixes: kernels and weights, sizes, tokenizer, sampler, fingerprint. -/
structure Engine (W R L P G : Type) where
  kernels : Kernels W R
  dims : ModelDims
  hiddenDim : ℕ
  intermediateDim : ℕ
  weights : ℕ → LayerWeights W
  encode : List UInt8 → List Int32
  bosId : Int32
  eosId : Int32
  /-- Final norm and output projection of a hidden state, copied to the host. -/
  logits : R → L
  /-- `sample_token` on the recent tokens, with the state of its generator. -/
  sampleToken : L → P → List Int32 → G → Int32 × G
  /-- It returns an index into the vocabulary. -/
  sampleToken_nonneg : ∀ logits params recentTokens rng,
    0 ≤ (sampleToken logits params recentTokens rng).1
  fingerprint : Vector UInt8 32
  scratchCapacity : ℤ
  batchedPrefillEnabled : Bool

/-- `GenParams`; `sampling` are the fields that `sample_token` reads. -/
structure GenParams (P : Type) where
  maxTokens : ℤ
  kvInt8 : Bool
  conversationId : String
  sampling : P

/-- How the surroundings answer during a turn. -/
structure TurnEnv where
  hydrate : HydrateIo
  save : SaveTurnIo
  /-- `stop_flag_`, as the loop head of iteration `i` reads it. -/
  stop : ℕ → Bool
  /-- `check_memory_and_thermal(pos)`. -/
  memOk : ℕ → Bool
  /-- Path A gets its buffers and the copy of the logits. -/
  firstLogitsOk : Bool
  /-- `decode_step(pos)` gets its buffer and the copy of the logits. -/
  logitsOk : ℕ → Bool

/-- Neither files nor CUDA calls nor scratch allocations fail. -/
structure TurnEnv.NoFailure (env : TurnEnv) : Prop where
  hydrate : env.hydrate.NoFailure
  save : env.save.NoFailure
  firstLogits : env.firstLogitsOk = true
  logits : ∀ pos, env.logitsOk pos = true

/-- What the engine carries from turn to turn. `last_token_` and `recent_tokens_`
are set before they are read. -/
structure EngineState (G : Type) where
  pool : KVCachePool
  rng : G

/-- The state of a turn once the prompt is tokenised. -/
structure GenState (G : Type) where
  dev : Device
  rng : G
  lastToken : Int32
  recentTokens : List Int32
  kvTokens : List UInt32
  pos : ℕ
  completionTokens : ℕ
  oomStops : ℕ

/-- A turn that returned. -/
structure Turn (G : Type) where
  engine : EngineState G
  fs : FileSystem
  kvTokens : List UInt32
  trace : List Event
  promptTokens : ℕ
  completionTokens : ℕ
  oomStops : ℕ

/-- How `generate` ends. -/
inductive TurnResult (G : Type) where
  | returned (turn : Turn G)
  /-- `std::length_error`. -/
  | threw (engine : EngineState G)
  /-- A read past the end of a buffer. -/
  | outOfBounds

/-- `recent_tokens_` keeps the last 64. -/
def pushRecent (recentTokens : List Int32) (token : Int32) : List Int32 :=
  let pushed := recentTokens ++ [token]
  if 64 < pushed.length then pushed.drop 1 else pushed

/-- Whether `kv_tokens.reserve(prompt_tokens.size() + max_tokens)` throws; the sum is
a `size_t`. -/
def reserveThrows (promptTokens : ℕ) (maxTokens : ℤ) : Bool :=
  decide ((2 ^ 63 - 1) / 4 < ((promptTokens : ℤ) + maxTokens) % 2 ^ 64)

section

variable {W R L P G : Type} (e : Engine W R L P G) (env : TurnEnv) (params : GenParams P)

def Engine.batchedFits (n : ℕ) : Bool :=
  let qDim := e.dims.nHeads * e.dims.headDim
  let kvDim := e.dims.nKvHeads * e.dims.headDim
  let perToken := (5 * e.hiddenDim + 2 * qDim + 2 * kvDim + 3 * e.intermediateDim) * 2
  let total := n * e.hiddenDim * 2 + n * perToken
  decide (4 * 1024 * 1024 ≤ e.scratchCapacity - total)

/-- The prefill of the prompt from `prefillStart` on, with the residual of the last
token. Nothing is left to prefill when hydration covered the prompt. -/
def prefill (dev : Device) (prefillStart : ℕ) (promptTokens : List Int32) : Device × Option R :=
  let rest := promptTokens.drop prefillStart
  if rest.isEmpty then (dev, none)
  else
    let dev := (rest.zipIdx prefillStart).foldl (fun dev t => dev.emit (.forward t.2 t.1)) dev
    if e.batchedPrefillEnabled && e.batchedFits promptTokens.length then
      prefillBatched e.kernels Device.mem e.dims params.kvInt8 e.weights e.dims.nLayers prefillStart
        dev rest
    else
      prefillPerToken e.kernels Device.mem e.dims params.kvInt8 e.weights e.dims.nLayers
        prefillStart dev none rest

/-- A token is handed to `token_cb` and counted. -/
def GenState.deliver (s : GenState G) (token : Int32) (isEos : Bool) : GenState G :=
  { s with dev := s.dev.emit (.delivered token isEos), completionTokens := s.completionTokens + 1 }

/-- `first_token` and the generator after it; -1 when it could not be sampled. -/
def firstToken (lastPrefillX : Option R) (rng : G) : Int32 × G :=
  match lastPrefillX with
  | none => (-1, rng)
  | some x =>
      if env.firstLogitsOk then e.sampleToken (e.logits x) params.sampling [] rng else (-1, rng)

/-- `decode_step`: the forward pass of `last_token_` at a position, and a sample.
Without logits it returns the end token and leaves `last_token_` as it is. -/
def decodeStep (s : GenState G) (pos : ℕ) : GenState G × Int32 :=
  let a := forwardToken e.kernels Device.mem e.dims params.kvInt8 e.weights e.dims.nLayers pos
    (s.dev.emit (.forward pos s.lastToken)) s.lastToken
  let s := { s with dev := a.1 }
  if env.logitsOk pos = false then (s, e.eosId)
  else
    let t := e.sampleToken (e.logits a.2) params.sampling s.recentTokens s.rng
    ({ s with rng := t.2, recentTokens := pushRecent s.recentTokens t.1, lastToken := t.1 }, t.1)

/-- The token about to be stored is recorded when it extends the committed prefix. -/
def GenState.commit (s : GenState G) : GenState G :=
  if s.kvTokens.length = s.pos then { s with kvTokens := s.kvTokens ++ [s.lastToken.toUInt32] } else s

/-- The body of the decode loop past its three exits, with the sampled token. -/
def decodeIteration (s : GenState G) : GenState G × Int32 :=
  let step := decodeStep e env params s.commit s.pos
  (({ step.1 with pos := s.pos + 1 }).deliver step.2 (step.2 = e.eosId), step.2)

/-- The decode loop from iteration `i` on, with the iterations that `max_tokens`
leaves. -/
def decodeLoop (kvTokenLimit : ℕ) : ℕ → ℕ → GenState G → GenState G
  | 0, _, s => s
  | n + 1, i, s =>
      if env.stop i then s
      else if kvTokenLimit ≤ s.pos then s
      else if env.memOk s.pos = false then { s with oomStops := s.oomStops + 1 }
      else
        let next := decodeIteration e env params s
        if next.2 = e.eosId then next.1 else decodeLoop kvTokenLimit n (i + 1) next.1

/-- From the prefilled prompt to the end of the decode loop: Path A when there is a
first token, else the loop starts over at the last prompt position. -/
def decodeFrom (kvTokenLimit : ℕ) (rng : G) (promptTokens : List Int32)
    (prefilled : Device × Option R) : GenState G :=
  let first := firstToken e env params prefilled.2 rng
  let s : GenState G :=
    { dev := prefilled.1, rng := first.2, lastToken := promptTokens.getLastD 0, recentTokens := [],
      kvTokens := promptTokens.map Int32.toUInt32, pos := promptTokens.length - 1,
      completionTokens := 0, oomStops := 0 }
  if 0 ≤ first.1 then
    let s := ({ s with lastToken := first.1, recentTokens := pushRecent [] first.1,
                       pos := promptTokens.length }).deliver first.1 (first.1 = e.eosId)
    if first.1 = e.eosId then s
    else decodeLoop e env params kvTokenLimit (params.maxTokens - 1).toNat 1 s
  else decodeLoop e env params kvTokenLimit params.maxTokens.toNat 0 s

/-- The save at turn end and the return. -/
def finishTurn (dir : String) (fs : FileSystem) (promptTokens : ℕ) (s : GenState G) : Turn G :=
  let saved := saveTurn env.save dir fs e.fingerprint s.dev.pool params.conversationId params.kvInt8
    s.kvTokens
  { engine := ⟨s.dev.pool, s.rng⟩, fs := saved.2, kvTokens := s.kvTokens,
    trace := if saved.1 then s.dev.trace ++ [.saved s.kvTokens.length] else s.dev.trace,
    promptTokens := promptTokens, completionTokens := s.completionTokens, oomStops := s.oomStops }

/-- The tokens a turn works on: an empty prompt becomes the start token. -/
def Engine.promptTokens (prompt : List UInt8) : List Int32 :=
  let encoded := e.encode prompt
  if encoded.isEmpty then [e.bosId] else encoded

/-- `generate`. -/
def generate (dir : String) (prompt : List UInt8) (s : EngineState G) (fs : FileSystem) :
    TurnResult G :=
  let kvTokenLimit := s.pool.maxTokens
  let promptTokens := e.promptTokens prompt
  if max 4096 (kvTokenLimit * 8) < prompt.length then .threw s
  else if kvTokenLimit ≤ promptTokens.length then .threw s
  else if reserveThrows promptTokens.length params.maxTokens then .threw s
  else
    match tryHydrateKv env.hydrate dir fs e.fingerprint s.pool (promptTokens.map Int32.toUInt32)
        params.conversationId with
    | .threw => .threw s
    | .outOfBounds => .outOfBounds
    | .returned matched pool =>
        let dev : Device := ⟨pool, if matched = 0 then [] else [.hydrated matched]⟩
        let prefilled := prefill e params dev matched promptTokens
        let s := decodeFrom e env params kvTokenLimit s.rng promptTokens prefilled
        .returned (finishTurn e env params dir fs (e.encode prompt).length s)

end

section

variable {G : Type} (s : GenState G)

@[simp] theorem GenState.commit_dev : s.commit.dev = s.dev := by
  rw [GenState.commit]
  split <;> rfl

@[simp] theorem GenState.commit_lastToken : s.commit.lastToken = s.lastToken := by
  rw [GenState.commit]
  split <;> rfl

@[simp] theorem GenState.commit_recentTokens : s.commit.recentTokens = s.recentTokens := by
  rw [GenState.commit]
  split <;> rfl

@[simp] theorem GenState.commit_rng : s.commit.rng = s.rng := by
  rw [GenState.commit]
  split <;> rfl

theorem GenState.commit_kvTokens : s.commit.kvTokens =
    if s.kvTokens.length = s.pos then s.kvTokens ++ [s.lastToken.toUInt32] else s.kvTokens := by
  rw [GenState.commit]
  split <;> rfl

end

/-- The tokens handed to `token_cb`. -/
def deliveredTokens (trace : List Event) : List Int32 :=
  trace.filterMap fun
    | .delivered token _ => some token
    | _ => none

/-! ### A process -/

/-- An engine and its cache directory. -/
structure Session (G : Type) where
  engine : EngineState G
  fs : FileSystem

/-- A call of `generate`, or cache files disappearing between calls. -/
inductive SessionEvent (P : Type) where
  | turn (env : TurnEnv) (params : GenParams P) (prompt : List UInt8)
  | evict (removed : String → Bool)

/-- A turn that throws leaves the directory alone; nothing follows a read out of
bounds. -/
inductive SessionStep {W R L P G : Type} (e : Engine W R L P G) (dir : String) :
    Session G → SessionEvent P → Session G → Prop
  | returned {s : Session G} {env : TurnEnv} {params : GenParams P} {prompt : List UInt8}
      {turn : Turn G} (h : generate e env params dir prompt s.engine s.fs = .returned turn) :
      SessionStep e dir s (.turn env params prompt) ⟨turn.engine, turn.fs⟩
  | threw {s : Session G} {env : TurnEnv} {params : GenParams P} {prompt : List UInt8}
      {engine : EngineState G} (h : generate e env params dir prompt s.engine s.fs = .threw engine) :
      SessionStep e dir s (.turn env params prompt) ⟨engine, s.fs⟩
  | evict {s : Session G} {removed : String → Bool} :
      SessionStep e dir s (.evict removed) ⟨s.engine, fun q => if removed q then none else s.fs q⟩

end JLLM
