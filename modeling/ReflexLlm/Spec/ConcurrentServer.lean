import Mathlib.Logic.Function.Basic
import ReflexLlm.Lib.Lock
import ReflexLlm.Spec.Server
import ReflexLlm.Spec.Stream

/-! The threads of `src/server/http_server.cpp` around one engine. `generate` goes in steps that
read and write the members of `Engine`; a chat request takes `g_engine_mutex` for its turn, in the
handler or, when it streams, in the provider. -/

namespace JLLM

open Lock

/-- What a turn leaves for later ones. `g_rng` is `thread_local`. -/
structure Committed (θ G : Type) where
  pool : KVCachePool
  rng : θ → G
  fs : FileSystem

/-- The members of `Engine` that `generate` writes, and its cache directory. -/
structure SharedEngine (θ P G : Type) extends Committed θ G where
  stopFlag : Bool
  genParams : GenParams P
  recentTokens : List Int32
  lastToken : Int32

/-- The local variables of `generate` in its decode loop. -/
structure TurnLocals where
  trace : List Event
  kvTokens : List UInt32
  pos : ℕ
  completionTokens : ℕ
  oomStops : ℕ

def GenState.locals {G : Type} (s : GenState G) : TurnLocals :=
  ⟨s.dev.trace, s.kvTokens, s.pos, s.completionTokens, s.oomStops⟩

variable {θ W R L P G C : Type}

/-- The engine as a thread sees it. -/
def Committed.engine (s : Committed θ G) (t : θ) : EngineState G := ⟨s.pool, s.rng t⟩

/-- The state of a turn on a thread. -/
def SharedEngine.state (h : SharedEngine θ P G) (t : θ) (l : TurnLocals) : GenState G where
  dev := ⟨h.pool, l.trace⟩
  rng := h.rng t
  lastToken := h.lastToken
  recentTokens := h.recentTokens
  kvTokens := l.kvTokens
  pos := l.pos
  completionTokens := l.completionTokens
  oomStops := l.oomStops

variable [DecidableEq θ]

/-- What a turn on a thread leaves. -/
def Committed.leave (s : Committed θ G) (t : θ) (engine : EngineState G) (fs : FileSystem) :
    Committed θ G :=
  ⟨engine.pool, Function.update s.rng t engine.rng, fs⟩

def SharedEngine.setRng (h : SharedEngine θ P G) (t : θ) (rng : G) : SharedEngine θ P G :=
  { h with rng := Function.update h.rng t rng }

/-- The members after a step of a turn on a thread. -/
def SharedEngine.put (h : SharedEngine θ P G) (t : θ) (s : GenState G) : SharedEngine θ P G :=
  { h.setRng t s.rng with
    pool := s.dev.pool, lastToken := s.lastToken, recentTokens := s.recentTokens }

/-! ### `generate` -/

section

variable (e : Engine W R L P G) (env : TurnEnv) (params : GenParams P)
variable (text : Int32 → List UInt8) (cb : TokenCallback C) (dir : String) (t : θ)

/-- The call of `token_cb`, which can call `stop`. -/
def sayTask (token : Int32) (isEos : Bool) (talk : Talk C)
    (next : Talk C → Task (SharedEngine θ P G) (CbTurn G C)) :
    Task (SharedEngine θ P G) (CbTurn G C) :=
  .act fun h =>
    let said := talk.say text cb token isEos
    ({ h with stopFlag := h.stopFlag || cb.stopped said.1.state },
      match said with
      | (talk, some what) => .done (.threw (h.engine t) talk what)
      | (talk, none) => next talk)

/-- The save at turn end. -/
def saveTask (promptTokens : ℕ) (l : TurnLocals) (talk : Talk C) :
    Task (SharedEngine θ P G) (CbTurn G C) :=
  .act fun h =>
    let turn := finishTurn e env params dir h.fs promptTokens (h.state t l)
    ({ h with fs := turn.fs }, .done (.returned turn talk))

/-- The decode loop from iteration `i` on. -/
def decodeTask (promptTokens kvTokenLimit : ℕ) : ℕ → ℕ → TurnLocals → Talk C →
    Task (SharedEngine θ P G) (CbTurn G C)
  | 0, _, l, talk => saveTask e env params dir t promptTokens l talk
  | n + 1, i, l, talk => .act fun h =>
      if env.stop i || h.stopFlag then (h, saveTask e env params dir t promptTokens l talk)
      else if kvTokenLimit ≤ l.pos then (h, saveTask e env params dir t promptTokens l talk)
      else if env.memOk l.pos = false then
        (h, saveTask e env params dir t promptTokens { l with oomStops := l.oomStops + 1 } talk)
      else
        let next := decodeIteration e env h.genParams (h.state t l)
        (h.put t next.1, sayTask text cb t next.2 (next.2 = e.eosId) talk fun talk =>
          if next.2 = e.eosId then saveTask e env params dir t promptTokens next.1.locals talk
          else decodeTask promptTokens kvTokenLimit n (i + 1) next.1.locals talk)

/-- Path A and what follows it. -/
def firstTask (kvTokenLimit : ℕ) (prompt : List UInt8) (trace : List Event)
    (lastPrefillX : Option R) (c : C) : Task (SharedEngine θ P G) (CbTurn G C) :=
  .act fun h =>
    let promptTokens := e.promptTokens prompt
    let first := firstToken e env h.genParams lastPrefillX (h.rng t)
    let l : TurnLocals :=
      ⟨trace, promptTokens.map Int32.toUInt32, promptTokens.length - 1, 0, 0⟩
    (h.setRng t first.2,
      if 0 ≤ first.1 then
        sayTask text cb t first.1 (first.1 = e.eosId) ⟨[], c⟩ fun talk => .act fun h =>
          let l := { l with trace := trace ++ [.delivered first.1 (first.1 = e.eosId)],
                            pos := promptTokens.length, completionTokens := 1 }
          ({ h with lastToken := first.1, recentTokens := pushRecent h.recentTokens first.1 },
            if first.1 = e.eosId then
              saveTask e env params dir t (e.encode prompt).length l talk
            else
              decodeTask e env params text cb dir t (e.encode prompt).length kvTokenLimit
                (params.maxTokens - 1).toNat 1 l talk)
      else
        decodeTask e env params text cb dir t (e.encode prompt).length kvTokenLimit
          params.maxTokens.toNat 0 l ⟨[], c⟩)

def prefillTask (kvTokenLimit : ℕ) (prompt : List UInt8) (matched : ℕ) (c : C) :
    Task (SharedEngine θ P G) (CbTurn G C) :=
  .act fun h =>
    let promptTokens := e.promptTokens prompt
    let prefilled := prefill e h.genParams
      ⟨h.pool, if matched = 0 then [] else [.hydrated matched]⟩ matched promptTokens
    ({ h with pool := prefilled.1.pool, lastToken := promptTokens.getLastD 0 },
      firstTask e env params text cb dir t kvTokenLimit prompt prefilled.1.trace prefilled.2 c)

/-- The text of the `std::length_error` for a prompt, if it is refused. -/
def promptRefusal (kvTokenLimit : ℕ) (prompt : List UInt8) : Option String :=
  let maxPromptBytes := max 4096 (kvTokenLimit * 8)
  let promptTokens := e.promptTokens prompt
  if maxPromptBytes < prompt.length then
    some ("prompt size " ++ toString prompt.length ++
      " bytes exceeds runtime pre-tokenization budget " ++ toString maxPromptBytes ++
      " bytes for context capacity " ++ toString kvTokenLimit ++ shorterPrompt)
  else if kvTokenLimit ≤ promptTokens.length then
    some ("prompt length " ++ toString promptTokens.length ++
      " tokens exceeds runtime context capacity " ++ toString kvTokenLimit ++ shorterPrompt)
  else if reserveThrows promptTokens.length params.maxTokens then some "vector::reserve"
  else none

/-- `generate`; what an earlier turn left in the members that it sets is not read. -/
def generateTask (prompt : List UInt8) (c : C) : Task (SharedEngine θ P G) (CbTurn G C) :=
  .act fun h =>
    let h : SharedEngine θ P G :=
      { h with stopFlag := false, genParams := params, recentTokens := [] }
    match promptRefusal e params h.pool.maxTokens prompt with
    | some what => (h, .done (.threw (h.engine t) ⟨[], c⟩ what))
    | none =>
        match tryHydrateKv env.hydrate dir h.fs e.fingerprint h.pool
            ((e.promptTokens prompt).map Int32.toUInt32) params.conversationId with
        | .threw =>
            (h, .done (.threw (h.engine t) ⟨[], c⟩
              "cannot create std::vector larger than max_size()"))
        | .outOfBounds => (h, .stuck)
        | .returned matched pool =>
            ({ h with pool := pool },
              prefillTask e env params text cb dir t h.pool.maxTokens prompt matched c)

end

/-! ### Requests -/

/-- A chat request: the worker thread that serves it, its body, and how the surroundings answer
its turn and the writes of its stream. -/
structure ChatClient (θ : Type) where
  worker : θ
  env : TurnEnv
  parsed : Except String Json
  sink : ℕ → Bool

/-- What a client gets in the end. -/
inductive ClientAnswer where
  | reply (answer : ChatAnswer)
  /-- The frames of a stream, with what the sink answered. -/
  | frames (writes : List (SseFrame × Bool))

/-- What `build_completion` answers after a turn. -/
def completionOf (turn : Turn G) (talk : Talk (ThinkSplit × List Segment)) : Completion :=
  let segments := talk.state.2 ++ talk.state.1.flush
  ⟨absorbed .content segments, absorbed .reasoning segments, turn.promptTokens,
    turn.completionTokens⟩

/-- The provider from the end of its turn on. -/
def streamEnd (sink : ℕ → Bool) (utf8Error : List UInt8 → String) (r : CbTurn G SseStream) :
    SseStream :=
  match r with
  | .returned _ t =>
      let flushed := t.state.emitAll sink utf8Error t.state.split.flush
      flushed.1.close sink flushed.2
  | .threw _ t what => t.state.close sink (some what)
  | .outOfBounds => SseStream.write sink ⟨{}, true, []⟩ .role

section

variable (e : Engine W R L (SampleParams ℚ) G) (text : Int32 → List UInt8) (dir : String)
variable (defaultKvInt8 : Bool) (render : Completion → Except CompletionError Json)
variable (utf8Error : List UInt8 → String)

/-- What `build_completion(...).dump()` gives the handler; a turn throws a `std::length_error`
only. -/
def renderTurn (r : CbTurn G (ThinkSplit × List Segment)) : Except CompletionError Json :=
  match r with
  | .returned turn talk => render (completionOf turn talk)
  | .threw _ _ what => .error (.lengthError what)
  | .outOfBounds => .error .unknown

/-- The part of the handler under the lock. -/
def completionTask (client : ChatClient θ) (request : ChatRequest) :
    Task (SharedEngine θ (SampleParams ℚ) G) ClientAnswer :=
  (generateTask e client.env request.params text absorbCallback dir client.worker
    request.promptBytes ({}, [])).bind fun r =>
      .done (.reply (answerChat (fun _ => renderTurn render r) defaultKvInt8 client.parsed))

/-- The provider. -/
def streamTask (client : ChatClient θ) (request : ChatRequest) :
    Task (SharedEngine θ (SampleParams ℚ) G) ClientAnswer :=
  let opened := SseStream.write client.sink ⟨{}, true, []⟩ .role
  if client.sink 0 = false then .done (.frames opened.writes)
  else
    (generateTask e client.env request.params text (streamCallback client.sink utf8Error) dir
      client.worker request.promptBytes opened).bind fun r => .act fun h =>
        let closed := streamEnd client.sink utf8Error r
        ({ h with stopFlag := h.stopFlag || !closed.clientAlive }, .done (.frames closed.writes))

/-- The handler of a chat request. -/
def chatCall (client : ChatClient θ) : Call (SharedEngine θ (SampleParams ℚ) G) ClientAnswer :=
  match chatCompletions defaultKvInt8 client.parsed with
  | .error (.invalidRequest message) =>
      .answer (.reply (sendError 400 message "invalid_request_error"))
  | .error (.uncaught error) => .answer (.reply (.uncaught error))
  | .ok request =>
      .locked (if request.stream then streamTask e text dir utf8Error client request
        else completionTask e text dir defaultKvInt8 render client request)

/-! ### One request after the other -/

/-- The end of a turn on a thread. -/
def Committed.settle (s : Committed θ G) (t : θ) : CbTurn G C → Option (Committed θ G)
  | .returned turn _ => some (s.leave t turn.engine turn.fs)
  | .threw engine _ _ => some (s.leave t engine s.fs)
  | .outOfBounds => none

/-- A request that has the engine for itself; a refused one does not get to it. -/
def serveChat (client : ChatClient θ) (s : Committed θ G) :
    Option (ClientAnswer × Committed θ G) :=
  match chatCompletions defaultKvInt8 client.parsed with
  | .error _ => none
  | .ok request =>
      let engine := s.engine client.worker
      if request.stream then
        let sent := streamChatCompletion e client.env request.params text client.sink utf8Error dir
          request.promptBytes engine s.fs
        match sent.1 with
        | none => some (.frames sent.2, s)
        | some r => (s.settle client.worker r).map fun s => (.frames sent.2, s)
      else
        let built := buildCompletion e client.env request.params text dir request.promptBytes engine
          s.fs
        (s.settle client.worker built.1).map fun s =>
          (.reply (answerChat (fun _ => renderTurn render built.1) defaultKvInt8 client.parsed), s)

end

end JLLM
