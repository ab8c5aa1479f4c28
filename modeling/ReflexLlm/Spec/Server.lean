import Mathlib.Data.Rat.Defs
import ReflexLlm.Spec.Generate
import ReflexLlm.Spec.Sample

/-! The chat handler of `src/server/http_server.cpp` and the server process around the
engine. A body is what `json::parse` makes of it; numbers are exact. `generate` runs
under the engine mutex, so requests are turns one after the other. -/

namespace JLLM

/-- A parsed `json` value; the keys of an object are distinct. -/
inductive Json where
  | null
  | boolean (b : Bool)
  | integer (n : ℤ)
  | float (x : ℚ)
  | string (s : String)
  | array (items : List Json)
  | object (fields : List (String × Json))

/-- The `json::type_error`s of `value`. -/
inductive TypeError where
  /-- 302: a value of the wrong type. -/
  | wrongType
  /-- 306: a key of something that is not an object. -/
  | notAnObject
deriving DecidableEq

namespace Json

def toBool : Json → Option Bool
  | .boolean b => some b
  | _ => none

/-- Conversion to `int`; a number outside its range wraps. -/
def toInt : Json → Option ℤ
  | .boolean b => some b.toNat
  | .integer n => some (n.bmod (2 ^ 32))
  | .float x => some ((x.num.tdiv x.den).bmod (2 ^ 32))
  | _ => none

def toFloat : Json → Option ℚ
  | .boolean b => some b.toNat
  | .integer n => some n
  | .float x => some x
  | _ => none

def toStr : Json → Option String
  | .string s => some s
  | _ => none

/-- `value(key, default)`. -/
def value {α : Type} (convert : Json → Option α) (body : Json) (key : String) (default : α) :
    Except TypeError α :=
  match body with
  | .object fields =>
      match fields.lookup key with
      | none => .ok default
      | some v => (convert v).elim (.error .wrongType) .ok
  | _ => .error .notAnObject

end Json

/-- One message of the prompt. -/
def formatMessage (m : Json) : Except TypeError String := do
  let role ← m.value Json.toStr "role" "user"
  let content ← m.value Json.toStr "content" ""
  return "<|im_start|>" ++ role ++ "\n" ++ content ++ "<|im_end|>\n"

def formatQwenChat (messages : List Json) (think : Bool) : Except TypeError String := do
  let out ← messages.mapM formatMessage
  return String.join out ++ "<|im_start|>assistant\n" ++ if think then "" else "<think>\n\n</think>\n\n"

/-- What the handler hands on. -/
structure ChatRequest where
  params : GenParams (SampleParams ℚ)
  think : Bool
  prompt : String
  stream : Bool

/-- The handler gives up before `generate`. -/
inductive ChatError where
  /-- It answers with status 400. -/
  | invalidRequest (message : String)
  /-- An exception leaves it. -/
  | uncaught (error : TypeError)

/-- The handler of `POST /v1/chat/completions` up to the call of `generate`. -/
def chatCompletions (defaultKvInt8 : Bool) (parsed : Except String Json) :
    Except ChatError ChatRequest := do
  let body ← parsed.mapError fun what => .invalidRequest ("invalid json: " ++ what)
  let read {α : Type} (convert : Json → Option α) (key : String) (default : α) :=
    (body.value convert key default).mapError ChatError.uncaught
  let messages ← read some "messages" (.array [])
  let .array (m :: ms) := messages
    | throw (.invalidRequest "messages: non-empty array required")
  let maxTokens ← read Json.toInt "max_tokens" 256
  let temperature ← read Json.toFloat "temperature" (7 / 10)
  let topK ← read Json.toInt "top_k" 40
  let topP ← read Json.toFloat "top_p" (9 / 10)
  let kvInt8 ← read Json.toBool "kv_int8" defaultKvInt8
  let convId ← read Json.toStr "conversation_id" ""
  let think ← read Json.toBool "think" false
  let prompt ← (formatQwenChat (m :: ms) think).mapError ChatError.uncaught
  let stream ← read Json.toBool "stream" false
  return {
    params := {
      maxTokens := maxTokens
      kvInt8 := kvInt8
      conversationId := if validateConversationId convId then convId else ""
      sampling := ⟨temperature, topK, topP, 11 / 10⟩ }
    think := think
    prompt := prompt
    stream := stream }

/-- What a client gets from the handler. -/
inductive ChatAnswer where
  | reply (status : ℕ) (body : Json)
  /-- The chunks come from a provider that runs behind the handler. -/
  | stream (request : ChatRequest)
  /-- An exception leaves the handler. -/
  | uncaught (error : TypeError)

/-- `send_error`. -/
def sendError (code : ℕ) (msg type : String) : ChatAnswer :=
  .reply code (.object [("error",
    .object [("message", .string msg), ("type", .string type), ("code", .integer code)])])

/-- What `build_completion` and `dump` can throw. -/
inductive CompletionError where
  | lengthError (what : String)
  | exception (what : String)
  | unknown

/-- The handler with the answer of `build_completion`. -/
def answerChat (complete : ChatRequest → Except CompletionError Json) (defaultKvInt8 : Bool)
    (parsed : Except String Json) : ChatAnswer :=
  match chatCompletions defaultKvInt8 parsed with
  | .error (.invalidRequest message) => sendError 400 message "invalid_request_error"
  | .error (.uncaught error) => .uncaught error
  | .ok request =>
      if request.stream then .stream request
      else
        match complete request with
        | .ok completion => .reply 200 completion
        | .error (.lengthError what) => sendError 400 what "invalid_request_error"
        | .error (.exception what) => sendError 500 what "internal_error"
        | .error .unknown => sendError 500 "chat completion failed" "internal_error"

def ChatRequest.promptBytes (request : ChatRequest) : List UInt8 := request.prompt.toUTF8.data.toList

/-- `kv_type_bytes` of the pool that `load` makes for a mode. -/
def loadKvTypeBytes (kvInt8 : Bool) : ℕ := if kvInt8 then 1 else 2

/-- The engine, its cache directory, and what the turns did so far. -/
structure Server (G : Type) where
  engine : EngineState G
  fs : FileSystem
  trace : List Event

inductive ServerEvent where
  /-- A request, and how the surroundings answer its turn. -/
  | chat (env : TurnEnv) (parsed : Except String Json)
  /-- Another process leaves the directory like this. -/
  | directory (fs : FileSystem)

section

variable {W R L G : Type} (e : Engine W R L (SampleParams ℚ) G) (dir : String) (defaultKvInt8 : Bool)

/-- The server after a request; nothing follows a read out of bounds. -/
def Server.chat (s : Server G) (env : TurnEnv) (parsed : Except String Json) : Option (Server G) :=
  match chatCompletions defaultKvInt8 parsed with
  | .error _ => some s
  | .ok request =>
      match generate e env request.params dir request.promptBytes s.engine s.fs with
      | .returned turn => some ⟨turn.engine, turn.fs, s.trace ++ turn.trace⟩
      | .threw engine => some ⟨engine, s.fs, s.trace⟩
      | .outOfBounds => none

inductive ServerStep : Server G → ServerEvent → Server G → Prop
  | chat {s s' : Server G} {env : TurnEnv} {parsed : Except String Json}
      (h : s.chat e dir defaultKvInt8 env parsed = some s') : ServerStep s (.chat env parsed) s'
  | directory {s : Server G} {fs : FileSystem} :
      ServerStep s (.directory fs) ⟨s.engine, fs, s.trace⟩

end

end JLLM
