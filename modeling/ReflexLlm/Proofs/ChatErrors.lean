import ReflexLlm.Spec.Server

/-! Which bodies the chat handler answers itself: a field of a type that does not convert is
read outside of its `try` blocks, and the exception leaves the handler. -/

namespace JLLM

/-- The field is absent or converts. -/
def Readable {α : Type} (convert : Json → Option α) (fields : List (String × Json))
    (key : String) : Prop :=
  ∀ v, fields.lookup key = some v → (convert v).isSome = true

def ValidMessage (m : Json) : Prop :=
  ∃ fields, m = .object fields ∧ Readable Json.toStr fields "role" ∧
    Readable Json.toStr fields "content"

/-- What the fields of a request have to be. -/
structure ValidFields (fields : List (String × Json)) : Prop where
  messages : ∃ m ms, fields.lookup "messages" = some (.array (m :: ms)) ∧
    ∀ message ∈ m :: ms, ValidMessage message
  maxTokens : Readable Json.toInt fields "max_tokens"
  temperature : Readable Json.toFloat fields "temperature"
  topK : Readable Json.toInt fields "top_k"
  topP : Readable Json.toFloat fields "top_p"
  kvInt8 : Readable Json.toBool fields "kv_int8"
  conversationId : Readable Json.toStr fields "conversation_id"
  think : Readable Json.toBool fields "think"
  stream : Readable Json.toBool fields "stream"

def ValidRequest (body : Json) : Prop := ∃ fields, body = .object fields ∧ ValidFields fields

/-- The handler's own check of the messages fails. -/
def MessagesRejected (fields : List (String × Json)) : Prop :=
  ∀ m ms, fields.lookup "messages" ≠ some (.array (m :: ms))

section

variable {ε α β : Type}

theorem bind_eq_ok_iff {x : Except ε α} {f : α → Except ε β} {b : β} :
    (x >>= f) = .ok b ↔ ∃ a, x = .ok a ∧ f a = .ok b := by
  cases x with
  | error e => simp [bind, Except.bind]
  | ok a => simp [bind, Except.bind]

theorem ok_bind (a : α) (f : α → Except ε β) : (Except.ok a >>= f) = f a := rfl

theorem mapError_ok (a : α) (f : ε → β) : (Except.ok a : Except ε α).mapError f = .ok a := rfl

theorem mapError_bind {γ : Type} {x : Except ε α} {f : α → Except ε β} {g : ε → γ} :
    (x >>= f).mapError g = x.mapError g >>= fun a => (f a).mapError g := by
  cases x with
  | error e => rfl
  | ok a => rfl

theorem mapM_eq_ok_iff {f : α → Except ε β} {xs : List α} :
    (∃ ys, xs.mapM f = .ok ys) ↔ ∀ x ∈ xs, ∃ y, f x = .ok y := by
  induction xs with
  | nil => simp [pure, Except.pure]
  | cons x xs ih =>
    rw [List.forall_mem_cons, ← ih]
    simp only [List.mapM_cons, bind_eq_ok_iff]
    constructor
    · rintro ⟨_, y, hy, ys, hys, -⟩
      exact ⟨⟨y, hy⟩, ys, hys⟩
    · rintro ⟨⟨y, hy⟩, ys, hys⟩
      exact ⟨y :: ys, y, hy, ys, hys, rfl⟩

theorem value_eq_ok_iff {convert : Json → Option α} {fields : List (String × Json)} {key : String}
    {default : α} :
    (∃ x, (Json.object fields).value convert key default = .ok x) ↔
      Readable convert fields key := by
  rw [Json.value, Readable]
  cases fields.lookup key with
  | none => simp
  | some v =>
    cases hv : convert v with
    | none => simp [hv]
    | some x => simp [hv]

end

theorem formatMessage_eq_ok_iff (m : Json) :
    (∃ text, formatMessage m = .ok text) ↔ ValidMessage m := by
  rw [formatMessage]
  simp only [bind_eq_ok_iff]
  constructor
  · rintro ⟨_, role, hrole, content, hcontent, -⟩
    cases m with
    | object fields =>
      exact ⟨fields, rfl, value_eq_ok_iff.mp ⟨role, hrole⟩, value_eq_ok_iff.mp ⟨content, hcontent⟩⟩
    | _ => cases hrole
  · rintro ⟨fields, rfl, hrole, hcontent⟩
    obtain ⟨role, hrole⟩ := value_eq_ok_iff.mpr hrole
    obtain ⟨content, hcontent⟩ := value_eq_ok_iff.mpr hcontent
    exact ⟨_, role, hrole, content, hcontent, rfl⟩

theorem formatQwenChat_eq_ok_iff (messages : List Json) (think : Bool) :
    (∃ prompt, formatQwenChat messages think = .ok prompt) ↔ ∀ m ∈ messages, ValidMessage m := by
  rw [formatQwenChat]
  simp only [bind_eq_ok_iff]
  constructor
  · rintro ⟨_, out, hout, -⟩ m hm
    exact (formatMessage_eq_ok_iff m).mp (mapM_eq_ok_iff.mp ⟨out, hout⟩ m hm)
  · intro h
    obtain ⟨out, hout⟩ := mapM_eq_ok_iff.mpr fun m hm => (formatMessage_eq_ok_iff m).mpr (h m hm)
    exact ⟨_, out, hout, rfl⟩

theorem value_messages (fields : List (String × Json)) :
    (Json.object fields).value some "messages" (.array []) =
      .ok ((fields.lookup "messages").getD (.array [])) := by
  rw [Json.value]
  cases fields.lookup "messages" with
  | none => rfl
  | some v => rfl

/-- The reads that follow the messages. -/
def readFields (defaultKvInt8 : Bool) (body : Json) (messages : List Json) :
    Except TypeError ChatRequest := do
  let maxTokens ← body.value Json.toInt "max_tokens" 256
  let temperature ← body.value Json.toFloat "temperature" (7 / 10)
  let topK ← body.value Json.toInt "top_k" 40
  let topP ← body.value Json.toFloat "top_p" (9 / 10)
  let kvInt8 ← body.value Json.toBool "kv_int8" defaultKvInt8
  let convId ← body.value Json.toStr "conversation_id" ""
  let think ← body.value Json.toBool "think" false
  let prompt ← formatQwenChat messages think
  let stream ← body.value Json.toBool "stream" false
  return {
    params := {
      maxTokens := maxTokens
      kvInt8 := kvInt8
      conversationId := if validateConversationId convId then convId else ""
      sampling := ⟨temperature, topK, topP, 11 / 10⟩ }
    think := think
    prompt := prompt
    stream := stream }

theorem chatCompletions_notAnObject (defaultKvInt8 : Bool) {body : Json}
    (h : ∀ fields, body ≠ .object fields) :
    chatCompletions defaultKvInt8 (.ok body) = .error (.uncaught .notAnObject) := by
  cases body with
  | object fields => exact absurd rfl (h fields)
  | _ => rfl

theorem chatCompletions_rejected (defaultKvInt8 : Bool) {fields : List (String × Json)}
    (h : MessagesRejected fields) :
    chatCompletions defaultKvInt8 (.ok (.object fields)) =
      .error (.invalidRequest "messages: non-empty array required") := by
  simp only [chatCompletions, Except.mapError, bind, Except.bind, value_messages]
  cases hmessages : fields.lookup "messages" with
  | none => rfl
  | some v =>
    cases v with
    | array items =>
      cases items with
      | nil => rfl
      | cons m ms => exact absurd hmessages (h m ms)
    | _ => rfl

theorem chatCompletions_messages (defaultKvInt8 : Bool) {fields : List (String × Json)} {m : Json}
    {ms : List Json} (h : fields.lookup "messages" = some (.array (m :: ms))) :
    chatCompletions defaultKvInt8 (.ok (.object fields)) =
      (readFields defaultKvInt8 (.object fields) (m :: ms)).mapError ChatError.uncaught := by
  have hread : ((Json.object fields).value some "messages" (.array [])).mapError ChatError.uncaught =
      .ok (.array (m :: ms)) := by
    rw [value_messages, h]
    rfl
  simp only [chatCompletions, readFields, mapError_ok, ok_bind, hread, mapError_bind]
  rfl

theorem readFields_eq_ok_iff (defaultKvInt8 : Bool) {fields : List (String × Json)} {m : Json}
    {ms : List Json} (h : fields.lookup "messages" = some (.array (m :: ms))) :
    (∃ request, readFields defaultKvInt8 (.object fields) (m :: ms) = .ok request) ↔
      ValidFields fields := by
  simp only [readFields, bind_eq_ok_iff]
  constructor
  · rintro ⟨_, maxTokens, hmaxTokens, temperature, htemperature, topK, htopK, topP, htopP, kvInt8,
      hkvInt8, convId, hconvId, think, hthink, prompt, hprompt, stream, hstream, -⟩
    exact {
      messages := ⟨m, ms, h, (formatQwenChat_eq_ok_iff (m :: ms) think).mp ⟨prompt, hprompt⟩⟩
      maxTokens := value_eq_ok_iff.mp ⟨maxTokens, hmaxTokens⟩
      temperature := value_eq_ok_iff.mp ⟨temperature, htemperature⟩
      topK := value_eq_ok_iff.mp ⟨topK, htopK⟩
      topP := value_eq_ok_iff.mp ⟨topP, htopP⟩
      kvInt8 := value_eq_ok_iff.mp ⟨kvInt8, hkvInt8⟩
      conversationId := value_eq_ok_iff.mp ⟨convId, hconvId⟩
      think := value_eq_ok_iff.mp ⟨think, hthink⟩
      stream := value_eq_ok_iff.mp ⟨stream, hstream⟩ }
  · intro hvalid
    obtain ⟨m', ms', hmessages, hms⟩ := hvalid.messages
    rw [h, Option.some.injEq, Json.array.injEq] at hmessages
    rw [← hmessages] at hms
    obtain ⟨maxTokens, hmaxTokens⟩ := value_eq_ok_iff.mpr hvalid.maxTokens
    obtain ⟨temperature, htemperature⟩ := value_eq_ok_iff.mpr hvalid.temperature
    obtain ⟨topK, htopK⟩ := value_eq_ok_iff.mpr hvalid.topK
    obtain ⟨topP, htopP⟩ := value_eq_ok_iff.mpr hvalid.topP
    obtain ⟨kvInt8, hkvInt8⟩ := value_eq_ok_iff.mpr hvalid.kvInt8
    obtain ⟨convId, hconvId⟩ := value_eq_ok_iff.mpr hvalid.conversationId
    obtain ⟨think, hthink⟩ := value_eq_ok_iff.mpr hvalid.think
    obtain ⟨prompt, hprompt⟩ := (formatQwenChat_eq_ok_iff (m :: ms) think).mpr hms
    obtain ⟨stream, hstream⟩ := value_eq_ok_iff.mpr hvalid.stream
    exact ⟨_, maxTokens, hmaxTokens, temperature, htemperature, topK, htopK, topP, htopP, kvInt8,
      hkvInt8, convId, hconvId, think, hthink, prompt, hprompt, stream, hstream, rfl⟩

section

variable (complete : ChatRequest → Except CompletionError Json) (defaultKvInt8 : Bool)

/-- What follows a request that was read is inside the `try`. -/
theorem answerChat_of_ok {parsed : Except String Json} {request : ChatRequest}
    (h : chatCompletions defaultKvInt8 parsed = .ok request) (error : TypeError) :
    answerChat complete defaultKvInt8 parsed ≠ .uncaught error := by
  simp only [answerChat, h, sendError]
  split
  · exact ChatAnswer.noConfusion
  · split <;> exact ChatAnswer.noConfusion

theorem answerChat_of_uncaught {parsed : Except String Json} {error : TypeError}
    (h : chatCompletions defaultKvInt8 parsed = .error (.uncaught error)) :
    answerChat complete defaultKvInt8 parsed = .uncaught error := by
  simp only [answerChat, h]

/-- A body with messages is a request, or an exception leaves the handler. -/
theorem answerChat_messages {fields : List (String × Json)} {m : Json} {ms : List Json}
    (h : fields.lookup "messages" = some (.array (m :: ms))) :
    (∀ error, answerChat complete defaultKvInt8 (.ok (.object fields)) ≠ .uncaught error) ↔
      ValidFields fields := by
  rw [← readFields_eq_ok_iff defaultKvInt8 h]
  have hread := chatCompletions_messages defaultKvInt8 h
  cases hfields : readFields defaultKvInt8 (.object fields) (m :: ms) with
  | error error =>
    rw [hfields] at hread
    have huncaught := answerChat_of_uncaught complete defaultKvInt8 hread
    constructor
    · intro hnone
      exact absurd huncaught (hnone error)
    · rintro ⟨request, hrequest⟩
      cases hrequest
  | ok request =>
    rw [hfields] at hread
    exact ⟨fun _ => ⟨request, rfl⟩, fun _ => answerChat_of_ok complete defaultKvInt8 hread⟩

/-- No exception leaves the handler and a body that is no request is answered with status 400
exactly for an object whose messages the handler rejects itself or whose fields all convert. -/
theorem answerChat_itself_iff (body : Json) :
    ((∀ error, answerChat complete defaultKvInt8 (.ok body) ≠ .uncaught error) ∧
      (¬ ValidRequest body → ∃ message, answerChat complete defaultKvInt8 (.ok body) =
        sendError 400 message "invalid_request_error")) ↔
    ∃ fields, body = .object fields ∧ (MessagesRejected fields ∨ ValidFields fields) := by
  constructor
  · rintro ⟨hcaught, -⟩
    by_cases hobject : ∃ fields, body = .object fields
    · obtain ⟨fields, rfl⟩ := hobject
      refine ⟨fields, rfl, ?_⟩
      by_cases hrejected : MessagesRejected fields
      · exact Or.inl hrejected
      · simp only [MessagesRejected, not_forall, not_not] at hrejected
        obtain ⟨m, ms, hmessages⟩ := hrejected
        exact Or.inr ((answerChat_messages complete defaultKvInt8 hmessages).mp hcaught)
    · have huncaught := answerChat_of_uncaught complete defaultKvInt8
        (chatCompletions_notAnObject defaultKvInt8 fun fields hfields => hobject ⟨fields, hfields⟩)
      exact absurd huncaught (hcaught _)
  · rintro ⟨fields, rfl, hrejected | hvalid⟩
    · have hanswer : answerChat complete defaultKvInt8 (.ok (.object fields)) =
          sendError 400 "messages: non-empty array required" "invalid_request_error" := by
        simp only [answerChat, chatCompletions_rejected defaultKvInt8 hrejected]
      rw [hanswer]
      exact ⟨fun _ => ChatAnswer.noConfusion, fun _ => ⟨_, rfl⟩⟩
    · obtain ⟨m, ms, hmessages, -⟩ := hvalid.messages
      refine ⟨(answerChat_messages complete defaultKvInt8 hmessages).mpr hvalid, fun hnone => ?_⟩
      exact absurd ⟨fields, rfl, hvalid⟩ hnone

end

/-- A request whose content is an array of parts. -/
def partsBody : Json :=
  .object [("messages", .array [.object [("role", .string "user"),
    ("content", .array [.object [("type", .string "text"), ("text", .string "hi")]])]])]

theorem answerChat_content_escapes :
    ¬ ValidRequest partsBody ∧
      ∀ complete, answerChat complete false (.ok partsBody) = .uncaught .wrongType := by
  have huncaught (complete : ChatRequest → Except CompletionError Json) :
      answerChat complete false (.ok partsBody) = .uncaught .wrongType := rfl
  refine ⟨?_, huncaught⟩
  rintro ⟨fields, hfields, hvalid⟩
  obtain ⟨m, ms, hmessages, -⟩ := hvalid.messages
  have hcaught := (answerChat_messages (fun _ => .error .unknown) false hmessages).mpr hvalid
  rw [← hfields] at hcaught
  exact hcaught _ (huncaught _)

end JLLM
