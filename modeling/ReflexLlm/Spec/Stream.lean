import ReflexLlm.Lib.Utf8
import ReflexLlm.Spec.Generate
import ReflexLlm.Spec.ThinkSplit

/-! `generate` together with its `token_cb`, which can throw and can call `stop`, and the two
callbacks of `src/server/http_server.cpp`: `build_completion` and the provider of
`stream_chat_completion`. What `sink.write` answers is an argument; `id`, `created` and `model`,
the same in every chunk of a stream, are left out. -/

namespace JLLM

/-! ### `generate` with a callback -/

/-- `token_cb` with its own state: what a call leaves, and the text of what it throws. -/
structure TokenCallback (C : Type) where
  call : C → List UInt8 → Bool → C × Option String
  /-- It has called `stop`. -/
  stopped : C → Bool

/-- The calls so far, and the state that they left. -/
structure Talk (C : Type) where
  calls : List (Int32 × Bool)
  state : C

/-- How the part of `generate` that calls `token_cb` ends. -/
inductive TalkEnd (G C : Type) where
  | ended (s : GenState G) (talk : Talk C)
  | raised (engine : EngineState G) (talk : Talk C) (what : String)

/-- How `generate` ends. -/
inductive CbTurn (G C : Type) where
  | returned (turn : Turn G) (talk : Talk C)
  | threw (engine : EngineState G) (talk : Talk C) (what : String)
  /-- A read past the end of a buffer. -/
  | outOfBounds

section

variable {W R L P G C : Type} (e : Engine W R L P G) (env : TurnEnv) (params : GenParams P)
variable (text : Int32 → List UInt8) (cb : TokenCallback C)

/-- `token_cb(text.c_str(), is_eos)`. -/
def Talk.say (t : Talk C) (token : Int32) (isEos : Bool) : Talk C × Option String :=
  let r := cb.call t.state (text token) isEos
  (⟨t.calls ++ [(token, isEos)], r.1⟩, r.2)

/-- The decode loop from iteration `i` on. -/
def decodeLoopCb (kvTokenLimit : ℕ) : ℕ → ℕ → GenState G → Talk C → TalkEnd G C
  | 0, _, s, t => .ended s t
  | n + 1, i, s, t =>
      if env.stop i || cb.stopped t.state then .ended s t
      else if kvTokenLimit ≤ s.pos then .ended s t
      else if env.memOk s.pos = false then .ended { s with oomStops := s.oomStops + 1 } t
      else
        let next := decodeIteration e env params s
        match t.say text cb next.2 (next.2 = e.eosId) with
        | (t, some what) => .raised ⟨next.1.dev.pool, next.1.rng⟩ t what
        | (t, none) =>
            if next.2 = e.eosId then .ended next.1 t
            else decodeLoopCb kvTokenLimit n (i + 1) next.1 t

/-- From the prefilled prompt to the end of the decode loop. -/
def decodeFromCb (kvTokenLimit : ℕ) (rng : G) (promptTokens : List Int32)
    (prefilled : Device × Option R) (c : C) : TalkEnd G C :=
  let first := firstToken e env params prefilled.2 rng
  let s : GenState G :=
    { dev := prefilled.1, rng := first.2, lastToken := promptTokens.getLastD 0, recentTokens := [],
      kvTokens := promptTokens.map Int32.toUInt32, pos := promptTokens.length - 1,
      completionTokens := 0, oomStops := 0 }
  if 0 ≤ first.1 then
    match Talk.say text cb ⟨[], c⟩ first.1 (first.1 = e.eosId) with
    | (t, some what) => .raised ⟨s.dev.pool, s.rng⟩ t what
    | (t, none) =>
        let s := ({ s with lastToken := first.1, recentTokens := pushRecent [] first.1,
                           pos := promptTokens.length }).deliver first.1 (first.1 = e.eosId)
        if first.1 = e.eosId then .ended s t
        else decodeLoopCb e env params text cb kvTokenLimit (params.maxTokens - 1).toNat 1 s t
  else decodeLoopCb e env params text cb kvTokenLimit params.maxTokens.toNat 0 s ⟨[], c⟩

/-- The advice at the end of the two refusals. -/
def shorterPrompt : String :=
  " tokens; reduce the prompt/history or start the server with a larger -c value"

/-- `generate` with the callback. -/
def generateCb (dir : String) (prompt : List UInt8) (s : EngineState G) (fs : FileSystem) (c : C) :
    CbTurn G C :=
  let kvTokenLimit := s.pool.maxTokens
  let maxPromptBytes := max 4096 (kvTokenLimit * 8)
  let promptTokens := e.promptTokens prompt
  if maxPromptBytes < prompt.length then
    .threw s ⟨[], c⟩ ("prompt size " ++ toString prompt.length ++
      " bytes exceeds runtime pre-tokenization budget " ++ toString maxPromptBytes ++
      " bytes for context capacity " ++ toString kvTokenLimit ++ shorterPrompt)
  else if kvTokenLimit ≤ promptTokens.length then
    .threw s ⟨[], c⟩ ("prompt length " ++ toString promptTokens.length ++
      " tokens exceeds runtime context capacity " ++ toString kvTokenLimit ++ shorterPrompt)
  else if reserveThrows promptTokens.length params.maxTokens then
    .threw s ⟨[], c⟩ "vector::reserve"
  else
    match tryHydrateKv env.hydrate dir fs e.fingerprint s.pool (promptTokens.map Int32.toUInt32)
        params.conversationId with
    | .threw => .threw s ⟨[], c⟩ "cannot create std::vector larger than max_size()"
    | .outOfBounds => .outOfBounds
    | .returned matched pool =>
        let dev : Device := ⟨pool, if matched = 0 then [] else [.hydrated matched]⟩
        let prefilled := prefill e params dev matched promptTokens
        match decodeFromCb e env params text cb kvTokenLimit s.rng promptTokens prefilled c with
        | .raised engine t what => .threw engine t what
        | .ended s t => .returned (finishTurn e env params dir fs (e.encode prompt).length s) t

/-! ### `build_completion` -/

/-- `absorb` behind the splitter, with the segments so far. -/
def absorbCallback : TokenCallback (ThinkSplit × List Segment) where
  call c chunk isEos :=
    if isEos then (c, none)
    else
      let fed := c.1.feed chunk
      ((fed.1, c.2 ++ fed.2), none)
  stopped _ := false

/-- The parts of a completion that come from its tokens. -/
structure Completion where
  content : List UInt8
  reasoning : List UInt8
  promptTokens : ℕ
  completionTokens : ℕ

/-- `build_completion`: what it answers, and the turn. -/
def buildCompletion (dir : String) (prompt : List UInt8) (s : EngineState G) (fs : FileSystem) :
    CbTurn G (ThinkSplit × List Segment) × Option Completion :=
  let r := generateCb e env params text absorbCallback dir prompt s fs ({}, [])
  (r, match r with
    | .returned turn t =>
        let segments := t.state.2 ++ t.state.1.flush
        some ⟨absorbed .content segments, absorbed .reasoning segments, turn.promptTokens,
          turn.completionTokens⟩
    | _ => none)

/-! ### `stream_chat_completion` -/

/-- One `data:` envelope. -/
inductive SseFrame where
  /-- The delta with the role alone. -/
  | role
  | delta (segment : Segment)
  | error (message : String)
  /-- The empty delta with `finish_reason` `stop`. -/
  | finish
  /-- `[DONE]`. -/
  | done
deriving DecidableEq

/-- What the provider carries: the calls of `sink.write` with their answers among it. -/
structure SseStream where
  split : ThinkSplit
  clientAlive : Bool
  writes : List (SseFrame × Bool)

variable (sink : ℕ → Bool) (utf8Error : List UInt8 → String)

def SseStream.write (s : SseStream) (frame : SseFrame) : SseStream :=
  { s with writes := s.writes ++ [(frame, sink s.writes.length)] }

/-- `emit_segment`; `dump` throws at what is not UTF-8. -/
def SseStream.emitSegment (s : SseStream) (segment : Segment) : SseStream × Option String :=
  if s.clientAlive = false then (s, none)
  else if Utf8.Valid segment.2 then
    let written := s.write sink (.delta segment)
    ({ written with clientAlive := sink s.writes.length }, none)
  else (s, some (utf8Error segment.2))

/-- `emit_segment` for one segment after the other. -/
def SseStream.emitAll (s : SseStream) : List Segment → SseStream × Option String
  | [] => (s, none)
  | segment :: rest =>
      match s.emitSegment sink utf8Error segment with
      | (s, none) => s.emitAll rest
      | thrown => thrown

/-- The `token_cb` of the stream. -/
def streamCallback : TokenCallback SseStream where
  call s chunk isEos :=
    if s.clientAlive = false then (s, none)
    else if isEos then (s, none)
    else
      let fed := s.split.feed chunk
      { s with split := fed.1 }.emitAll sink utf8Error fed.2
  stopped s := !s.clientAlive

/-- The end of the provider; `errored` is the text of a caught exception. -/
def SseStream.close (s : SseStream) (errored : Option String) : SseStream :=
  if s.clientAlive = false then s
  else
    let s := match errored with
      | some what => s.write sink (.error what)
      | none => s.write sink .finish
    s.write sink .done

/-- The provider of `stream_chat_completion`: the turn, unless the client is gone before it, and
what was sent. -/
def streamChatCompletion (dir : String) (prompt : List UInt8) (s : EngineState G)
    (fs : FileSystem) : Option (CbTurn G SseStream) × List (SseFrame × Bool) :=
  let opened := SseStream.write sink ⟨{}, true, []⟩ .role
  if sink 0 = false then (none, opened.writes)
  else
    let r := generateCb e env params text (streamCallback sink utf8Error) dir prompt s fs opened
    (some r, match r with
      | .returned _ t =>
          let flushed := t.state.emitAll sink utf8Error t.state.split.flush
          (flushed.1.close sink flushed.2).writes
      | .threw _ t what => (t.state.close sink (some what)).writes
      | .outOfBounds => opened.writes)

end

end JLLM
