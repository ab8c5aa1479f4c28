import ReflexLlm.Proofs.Callback
import ReflexLlm.Spec.ConcurrentServer

/-! The chat endpoint under concurrent requests. However the threads interleave, each client is
answered as if the requests had been served one after the other, in the order in which they took
the mutex. -/

namespace JLLM

open Lock Runs

variable {θ W R L P G C : Type} [DecidableEq θ]

/-! ### Members and locals -/

/-- A turn that ends like this on a thread, with what it leaves. -/
def Committed.outcome (s : Committed θ G) (t : θ) (r : CbTurn G C) :
    Option (CbTurn G C × Committed θ G) :=
  (s.settle t r).map fun s => (r, s)

/-- A turn that leaves the engine alone. -/
theorem Committed.leave_engine (s : Committed θ G) (t : θ) (fs : FileSystem) :
    s.leave t (s.engine t) fs = { s with fs := fs } :=
  congrArg (fun rng => (⟨s.pool, rng, fs⟩ : Committed θ G)) (Function.update_eq_self t s.rng)

theorem Committed.outcome_threw (s : Committed θ G) (t : θ) (talk : Talk C) (what : String) :
    s.outcome t (.threw (s.engine t) talk what) = some (.threw (s.engine t) talk what, s) := by
  rw [Committed.outcome, Committed.settle, Committed.leave_engine]
  rfl

/-- The pool before the end of a turn does not matter. -/
theorem Committed.outcome_pool (s : Committed θ G) (t : θ) (pool : KVCachePool) (r : CbTurn G C) :
    Committed.outcome { s with pool := pool } t r = s.outcome t r := by
  cases r <;> rfl

section

variable (h : SharedEngine θ P G) (t : θ)

@[simp] theorem SharedEngine.put_genParams (s : GenState G) :
    (h.put t s).genParams = h.genParams := rfl

@[simp] theorem SharedEngine.put_stopFlag (s : GenState G) :
    (h.put t s).stopFlag = h.stopFlag := rfl

@[simp] theorem SharedEngine.put_fs (s : GenState G) : (h.put t s).fs = h.fs := rfl

@[simp] theorem SharedEngine.put_rng_self (s : GenState G) : (h.put t s).rng t = s.rng :=
  Function.update_self ..

/-- The next step reads what this one has stored. -/
theorem SharedEngine.state_put (s : GenState G) : (h.put t s).state t s.locals = s :=
  congrArg (fun rng => ({ s with rng := rng } : GenState G)) (h.put_rng_self t s)

theorem SharedEngine.engine_put (s : GenState G) :
    (h.put t s).engine t = ⟨s.dev.pool, s.rng⟩ :=
  congrArg (EngineState.mk s.dev.pool) (h.put_rng_self t s)

/-- The end of a turn does not show what its steps have stored. -/
theorem SharedEngine.outcome_put (s : GenState G) (r : CbTurn G C) :
    (h.put t s).toCommitted.outcome t r = h.toCommitted.outcome t r := by
  have hleave (engine : EngineState G) (fs : FileSystem) :
      (h.put t s).toCommitted.leave t engine fs = h.toCommitted.leave t engine fs := by
    have hrng : Function.update (h.put t s).rng t engine.rng = Function.update h.rng t engine.rng :=
      Function.update_idem ..
    exact congrArg (fun rng => (⟨engine.pool, rng, fs⟩ : Committed θ G)) hrng
  cases r with
  | returned turn talk =>
    rw [Committed.outcome, Committed.settle, hleave]
    rfl
  | threw engine talk what =>
    rw [Committed.outcome, Committed.settle, hleave]
    rfl
  | outOfBounds => rfl

end

/-! ### Steps of a turn -/

section

variable (e : Engine W R L P G) (env : TurnEnv) {params : GenParams P}
variable (text : Int32 → List UInt8) (cb : TokenCallback C) (dir : String) (t : θ)

theorem saveTask_run (promptTokens : ℕ) {h : SharedEngine θ P G} {s : GenState G}
    (hs : h.state t s.locals = s) (talk : Talk C) :
    (saveTask e env params dir t promptTokens s.locals talk).runView SharedEngine.toCommitted h =
      h.toCommitted.outcome t
        (.returned (finishTurn e env params dir h.fs promptTokens s) talk) := by
  rw [saveTask, Task.runView_act, hs]
  have hengine : (finishTurn e env params dir h.fs promptTokens s).engine =
      h.toCommitted.engine t := by
    rw [← hs]
    rfl
  rw [Committed.outcome, Committed.settle, hengine, Committed.leave_engine]
  rfl

/-- A call of `token_cb`; the flag follows the callback. -/
theorem sayTask_run {h : SharedEngine θ P G} (token : Int32) (isEos : Bool) (talk : Talk C)
    (next : Talk C → Task (SharedEngine θ P G) (CbTurn G C)) (hflag : h.stopFlag = false) :
    (sayTask text cb t token isEos talk next).runView SharedEngine.toCommitted h =
      match talk.say text cb token isEos with
      | (talk, some what) => h.toCommitted.outcome t (.threw (h.engine t) talk what)
      | (talk, none) => (next talk).runView SharedEngine.toCommitted
          { h with stopFlag := cb.stopped talk.state } := by
  rw [sayTask, Task.runView_act, hflag]
  simp only [Bool.false_or]
  rcases talk.say text cb token isEos with ⟨talk', what | _⟩
  · rfl
  · simp only [Task.runView_done, Committed.outcome, Committed.settle, Committed.leave_engine]
    rfl

theorem decodeTask_run (promptTokens limit n : ℕ) : ∀ (i : ℕ) (s : GenState G) (talk : Talk C)
    (h : SharedEngine θ P G), h.state t s.locals = s → h.genParams = params →
    h.stopFlag = cb.stopped talk.state →
    (decodeTask e env params text cb dir t promptTokens limit n i s.locals talk).runView
        SharedEngine.toCommitted h =
      h.toCommitted.outcome t ((decodeLoopCb e env params text cb limit n i s talk).finish
        (finishTurn e env params dir h.fs promptTokens)) := by
  induction n with
  | zero => exact fun i s talk h hs _ _ => saveTask_run e env dir t promptTokens hs talk
  | succ n ih =>
    intro i s talk h hs hparams hflag
    rw [decodeTask, Task.runView_act, decodeLoopCb, hs, hparams, ← hflag]
    have hpos : s.locals.pos = s.pos := rfl
    rw [hpos]
    split_ifs with hstop hlimit hmem
    · exact saveTask_run e env dir t promptTokens hs talk
    · exact saveTask_run e env dir t promptTokens hs talk
    · have hs' : h.state t { s with oomStops := s.oomStops + 1 }.locals =
          { s with oomStops := s.oomStops + 1 } :=
        congrArg (fun s : GenState G => { s with oomStops := s.oomStops + 1 }) hs
      exact saveTask_run e env dir t promptTokens hs' talk
    · have hrunning : h.stopFlag = false := by
        cases hflag : h.stopFlag with
        | false => rfl
        | true => exact absurd (by rw [hflag, Bool.or_true]) hstop
      simp only
      generalize decodeIteration e env params s = next
      rw [sayTask_run (h := h.put t next.1) text cb t next.2 _ talk _ hrunning]
      rcases hsay : talk.say text cb next.2 (next.2 = e.eosId) with ⟨talk', _ | what⟩
      · simp only
        split_ifs
        · exact (saveTask_run e env dir t promptTokens (h.state_put t next.1) talk').trans
            (h.outcome_put t next.1 _)
        · exact (ih (i + 1) next.1 talk' { h.put t next.1 with stopFlag := cb.stopped talk'.state }
            (h.state_put t next.1) hparams rfl).trans (h.outcome_put t next.1 _)
      · simp only
        rw [SharedEngine.outcome_put, SharedEngine.engine_put]
        rfl

variable (prompt : List UInt8)

theorem firstTask_run (limit : ℕ) (prefilled : Device × Option R) {c : C}
    {h : SharedEngine θ P G} (hpool : h.pool = prefilled.1.pool) (hparams : h.genParams = params)
    (hlast : h.lastToken = (e.promptTokens prompt).getLastD 0) (hrecent : h.recentTokens = [])
    (hflag : h.stopFlag = false) (hstopped : cb.stopped c = false) :
    (firstTask e env params text cb dir t limit prompt prefilled.1.trace prefilled.2 c).runView
        SharedEngine.toCommitted h =
      h.toCommitted.outcome t ((decodeFromCb e env params text cb limit (h.rng t)
        (e.promptTokens prompt) prefilled c).finish
          (finishTurn e env params dir h.fs (e.encode prompt).length)) := by
  rw [firstTask, Task.runView_act, hparams, decodeFromCb]
  simp only
  generalize firstToken e env params prefilled.2 (h.rng t) = first
  let s : GenState G :=
    { dev := prefilled.1, rng := first.2, lastToken := (e.promptTokens prompt).getLastD 0,
      recentTokens := [], kvTokens := (e.promptTokens prompt).map Int32.toUInt32,
      pos := (e.promptTokens prompt).length - 1, completionTokens := 0, oomStops := 0 }
  have hput : h.setRng t first.2 = h.put t s := by
    simp only [SharedEngine.put, s, ← hpool, ← hlast, ← hrecent]
    rfl
  rw [hput]
  by_cases hfirst : 0 ≤ first.1
  · rw [if_pos hfirst, if_pos hfirst,
      sayTask_run (h := h.put t s) text cb t first.1 _ ⟨[], c⟩ _ hflag]
    rcases hsay : Talk.say text cb ⟨[], c⟩ first.1 (first.1 = e.eosId) with ⟨talk, _ | what⟩
    · let s₁ : GenState G :=
        ({ s with lastToken := first.1, recentTokens := pushRecent [] first.1,
                  pos := (e.promptTokens prompt).length }).deliver first.1 (first.1 = e.eosId)
      simp only [Task.runView_act]
      split_ifs
      · exact (saveTask_run e env dir t (e.encode prompt).length (s := s₁) (h.state_put t s₁)
          talk).trans (h.outcome_put t s₁ _)
      · exact (decodeTask_run e env text cb dir t (e.encode prompt).length limit _ 1 s₁ talk
          { h.put t s₁ with stopFlag := cb.stopped talk.state } (h.state_put t s₁) hparams
          rfl).trans (h.outcome_put t s₁ _)
    · simp only
      rw [SharedEngine.outcome_put, SharedEngine.engine_put]
      rfl
  · rw [if_neg hfirst, if_neg hfirst]
    exact (decodeTask_run e env text cb dir t (e.encode prompt).length limit _ 0 s ⟨[], c⟩
      (h.put t s) (h.state_put t s) hparams (hflag.trans hstopped.symm)).trans (h.outcome_put t s _)

theorem prefillTask_run (limit matched : ℕ) {c : C} {h : SharedEngine θ P G}
    (hparams : h.genParams = params) (hrecent : h.recentTokens = []) (hflag : h.stopFlag = false)
    (hstopped : cb.stopped c = false) :
    (prefillTask e env params text cb dir t limit prompt matched c).runView
        SharedEngine.toCommitted h =
      h.toCommitted.outcome t ((decodeFromCb e env params text cb limit (h.rng t)
        (e.promptTokens prompt)
        (prefill e params ⟨h.pool, if matched = 0 then [] else [.hydrated matched]⟩ matched
          (e.promptTokens prompt)) c).finish
            (finishTurn e env params dir h.fs (e.encode prompt).length)) := by
  subst hparams
  rw [prefillTask, Task.runView_act]
  simp only
  generalize prefill e h.genParams ⟨h.pool, if matched = 0 then [] else [.hydrated matched]⟩ matched
    (e.promptTokens prompt) = prefilled
  let filled : SharedEngine θ P G :=
    { h with pool := prefilled.1.pool, lastToken := (e.promptTokens prompt).getLastD 0 }
  have hrun := firstTask_run (h := filled) e env text cb dir t prompt limit prefilled rfl rfl rfl
    hrecent hflag hstopped
  exact hrun.trans (h.toCommitted.outcome_pool t prefilled.1.pool _)

omit [DecidableEq θ] in
/-- A turn is refused, or it hydrates and goes on. -/
theorem generateCb_refusal (s : EngineState G) (fs : FileSystem) (c : C) :
    generateCb e env params text cb dir prompt s fs c =
      match promptRefusal e params s.pool.maxTokens prompt with
      | some what => .threw s ⟨[], c⟩ what
      | none =>
          match tryHydrateKv env.hydrate dir fs e.fingerprint s.pool
              ((e.promptTokens prompt).map Int32.toUInt32) params.conversationId with
          | .threw => .threw s ⟨[], c⟩ "cannot create std::vector larger than max_size()"
          | .outOfBounds => .outOfBounds
          | .returned matched pool =>
              (decodeFromCb e env params text cb s.pool.maxTokens s.rng (e.promptTokens prompt)
                (prefill e params ⟨pool, if matched = 0 then [] else [.hydrated matched]⟩ matched
                  (e.promptTokens prompt)) c).finish
                (finishTurn e env params dir fs (e.encode prompt).length) := by
  rw [generateCb, promptRefusal]
  simp only
  split_ifs
  · rfl
  · rfl
  · rfl
  · cases tryHydrateKv env.hydrate dir fs e.fingerprint s.pool
      ((e.promptTokens prompt).map Int32.toUInt32) params.conversationId with
    | threw => rfl
    | outOfBounds => rfl
    | returned matched pool => rfl

theorem TalkEnd.finish_inBounds (r : TalkEnd G C) (f : GenState G → Turn G) :
    r.finish f ≠ .outOfBounds := by
  cases r with
  | ended s talk => exact fun h => nomatch h
  | raised engine talk what => exact fun h => nomatch h

omit [DecidableEq θ] in
/-- Without a conversation no file is read. -/
theorem generateCb_inBounds (hconv : params.conversationId = "") (s : EngineState G)
    (fs : FileSystem) (c : C) :
    generateCb e env params text cb dir prompt s fs c ≠ .outOfBounds := by
  have hcold : tryHydrateKv env.hydrate dir fs e.fingerprint s.pool
      ((e.promptTokens prompt).map Int32.toUInt32) params.conversationId = .returned 0 s.pool := by
    rw [hconv]
    rfl
  rw [generateCb_refusal, hcold]
  cases promptRefusal e params s.pool.maxTokens prompt with
  | some what => exact fun h => nomatch h
  | none => exact TalkEnd.finish_inBounds _ _

/-- A turn of the threads is a turn of `generate`, whatever earlier turns have left in the members
that it sets first. -/
theorem generateTask_run (h : SharedEngine θ P G) {c : C} (hstopped : cb.stopped c = false) :
    (generateTask e env params text cb dir t prompt c).runView SharedEngine.toCommitted h =
      h.toCommitted.outcome t
        (generateCb e env params text cb dir prompt (h.engine t) h.fs c) := by
  rw [generateCb_refusal, generateTask, Task.runView_act]
  simp only
  have hpool : (h.engine t).pool = h.pool := rfl
  rw [hpool]
  cases promptRefusal e params h.pool.maxTokens prompt with
  | some what => exact (h.toCommitted.outcome_threw t ⟨[], c⟩ what).symm
  | none =>
    cases tryHydrateKv env.hydrate dir h.fs e.fingerprint h.pool
        ((e.promptTokens prompt).map Int32.toUInt32) params.conversationId with
    | threw => exact (h.toCommitted.outcome_threw t ⟨[], c⟩ _).symm
    | outOfBounds => rfl
    | returned matched pool =>
      let hydrated : SharedEngine θ P G :=
        { h with pool := pool, stopFlag := false, genParams := params, recentTokens := [] }
      have hrun := prefillTask_run (h := hydrated) e env text cb dir t prompt
        h.pool.maxTokens matched rfl rfl rfl hstopped
      exact hrun.trans (h.toCommitted.outcome_pool t pool _)

end

/-! ### Requests -/

section

variable (e : Engine W R L (SampleParams ℚ) G) (text : Int32 → List UInt8) (dir : String)
variable (defaultKvInt8 : Bool) (render : Completion → Except CompletionError Json)
variable (utf8Error : List UInt8 → String)

omit [DecidableEq θ] in
theorem streamChatCompletion_sent (client : ChatClient θ) (request : ChatRequest)
    (s : EngineState G) (fs : FileSystem) (hsink : client.sink 0 = true) :
    streamChatCompletion e client.env request.params text client.sink utf8Error dir
        request.promptBytes s fs =
      (let r := generateCb e client.env request.params text (streamCallback client.sink utf8Error)
        dir request.promptBytes s fs (SseStream.write client.sink ⟨{}, true, []⟩ .role)
      (some r, (streamEnd client.sink utf8Error r).writes)) := by
  rw [streamChatCompletion]
  simp only [hsink, Bool.true_eq_false, if_false]
  cases generateCb e client.env request.params text (streamCallback client.sink utf8Error)
      dir request.promptBytes s fs (SseStream.write client.sink ⟨{}, true, []⟩ .role) <;> rfl

/-- The steps of each request under the lock are the request on its own. -/
theorem chatCall_refines {ι : Type} (clients : ι → ChatClient θ) :
    Refines SharedEngine.toCommitted
      (fun i => chatCall e text dir defaultKvInt8 render utf8Error (clients i))
      fun i => serveChat e text dir defaultKvInt8 render utf8Error (clients i) := by
  intro i t ht h
  simp only [chatCall] at ht
  simp only [serveChat]
  generalize clients i = client at ht ⊢
  cases hparsed : chatCompletions defaultKvInt8 client.parsed with
  | error error =>
    rw [hparsed] at ht
    cases error <;> exact nomatch ht
  | ok request =>
    rw [hparsed] at ht
    obtain rfl := Call.locked.inj ht
    simp only
    split_ifs with hstream
    · cases hsink : client.sink 0 with
      | false =>
        rw [streamTask, streamChatCompletion]
        simp only [hsink, if_true]
        rfl
      | true =>
        rw [streamTask, streamChatCompletion_sent e text dir utf8Error client request _ _ hsink]
        simp only [hsink, Bool.true_eq_false, if_false]
        rw [Task.runView_bind (g := fun r => .frames (streamEnd client.sink utf8Error r).writes) h
            fun r h => rfl, generateTask_run, Committed.outcome, Option.map_map]
        · rfl
        · rfl
    · rw [completionTask, Task.runView_bind
          (g := fun r => .reply
            (answerChat (fun _ => renderTurn render r) defaultKvInt8 client.parsed))
          h fun r h => rfl, generateTask_run _ _ _ _ _ _ _ _ rfl, Committed.outcome,
        Option.map_map]
      rfl

theorem settle_ne_none {s : Committed θ G} {t : θ} {r : CbTurn G C} (h : r ≠ .outOfBounds) :
    s.settle t r ≠ none := by
  cases r with
  | returned turn talk => exact fun h => nomatch h
  | threw engine talk what => exact fun h => nomatch h
  | outOfBounds => exact absurd rfl h

/-- A request without a conversation is always answered. -/
theorem serveChat_ne_none {client : ChatClient θ} {request : ChatRequest}
    (hparsed : chatCompletions defaultKvInt8 client.parsed = .ok request)
    (hconv : request.params.conversationId = "") (s : Committed θ G) :
    serveChat e text dir defaultKvInt8 render utf8Error client s ≠ none := by
  rw [serveChat, hparsed]
  simp only
  split_ifs
  · cases hsink : client.sink 0 with
    | false =>
      rw [streamChatCompletion]
      simp only [hsink, if_true]
      exact fun h => nomatch h
    | true =>
      rw [streamChatCompletion_sent e text dir utf8Error client request _ _ hsink]
      exact fun h => settle_ne_none (generateCb_inBounds e _ _ _ dir _ hconv _ _ _)
        (Option.map_eq_none_iff.mp h)
  · exact fun h => settle_ne_none (generateCb_inBounds e _ _ _ dir _ hconv _ _ _)
      (Option.map_eq_none_iff.mp h)

variable {ι : Type} [DecidableEq ι] (clients : ι → ChatClient θ)

/-- Mutual exclusion and linearizability of the endpoint: the turns so far are those of the requests
served one after the other in the order in which they took the mutex, which respects real time. -/
theorem chat_linearizable {h : SharedEngine θ (SampleParams ℚ) G}
    {w : World (SharedEngine θ (SampleParams ℚ) G) ClientAnswer ι} {is : List ι}
    (hrun : Run (Step fun i => chatCall e text dir defaultKvInt8 render utf8Error (clients i))
      (World.start h) is w) :
    (∀ i j t t', w.phase i = .running t → w.phase j = .running t' → i = j) ∧
    (∃ before answers s,
      serial (fun i => serveChat e text dir defaultKvInt8 render utf8Error (clients i)) before
        h.toCommitted = some (answers, s) ∧
      w.order = before ++ w.holder.toList ∧ w.order.Nodup ∧
      (w.holder = none → w.shared.toCommitted = s) ∧
      ∀ i r, w.phase i = .answered r →
        chatCall e text dir defaultKvInt8 render utf8Error (clients i) = .answer r ∨
          (i, r) ∈ answers) ∧
    ∀ is' w', Run (Step fun i => chatCall e text dir defaultKvInt8 render utf8Error (clients i))
      w is' w' → ∀ i ∈ w.order, ∀ j ∈ w'.order, w.phase j = .away → [i, j].Sublist w'.order := by
  obtain ⟨before, answers, s, hw⟩ := serialized_of_run
    (chatCall_refines e text dir defaultKvInt8 render utf8Error clients) hrun
  refine ⟨fun i j t t' hi hj => ?_, ⟨before, answers, s, hw.serial, hw.order, hw.nodup, hw.free,
    hw.answered⟩, fun is' w' hrun' i hi j hj haway => hw.realtime hrun' hi haway hj⟩
  exact Option.some.inj ((hw.running i t hi).symm.trans (hw.running j t' hj))

/-- No deadlock: whoever has come so far, any clients can still be answered, unless the turn that
has the mutex reads past the end of a buffer. -/
theorem chat_all_answered {h : SharedEngine θ (SampleParams ℚ) G}
    {w : World (SharedEngine θ (SampleParams ℚ) G) ClientAnswer ι} {is : List ι}
    (hrun : Run (Step fun i => chatCall e text dir defaultKvInt8 render utf8Error (clients i))
      (World.start h) is w) (js : List ι) :
    ∃ is' w', Run (Step fun i => chatCall e text dir defaultKvInt8 render utf8Error (clients i))
        w is' w' ∧
      ((w'.holder = none ∧ ∀ j ∈ js, ∃ r, w'.phase j = .answered r) ∨
        ∃ before i answers s, w'.order = before ++ [i] ∧
          serial (fun i => serveChat e text dir defaultKvInt8 render utf8Error (clients i)) before
            h.toCommitted = some (answers, s) ∧
          serveChat e text dir defaultKvInt8 render utf8Error (clients i) s = none) := by
  have hrefines := chatCall_refines e text dir defaultKvInt8 render utf8Error clients
  obtain ⟨is', w', hrun', hend⟩ := exists_all_answered hrefines (serialized_of_run hrefines hrun) js
  refine ⟨is', w', hrun', hend.symm.imp_right fun hstuck => ?_⟩
  obtain ⟨before, answers, s, hw⟩ := serialized_of_run hrefines (hrun.append hrun')
  obtain ⟨i, horder, hnone⟩ := hw.stuck hstuck
  exact ⟨before, i, answers, s, horder, hw.serial, hnone⟩

end

/-! ### Two clients -/

/-- A request for two tokens, streamed or not. -/
def greeting (stream : Bool) : Json :=
  .object [("messages", .array [.object [("content", .string "Hi")]]), ("max_tokens", .integer 2),
    ("stream", .boolean stream)]

/-- One client streams, the other does not; each has a thread of its own. -/
def twoClients (stream : Bool) : ChatClient Bool :=
  ⟨stream, calmEnv, .ok (greeting stream), fun _ => true⟩

/-- An engine with leftovers of an earlier turn. -/
def usedEngine : SharedEngine Bool (SampleParams ℚ) Unit where
  pool := eightRowPool
  rng := fun _ => ()
  fs := fun _ => none
  stopFlag := true
  genParams := ⟨9, true, "chat", ⟨0, 0, 0, 0⟩⟩
  recentTokens := [7]
  lastToken := 7

def twoCalls (stream : Bool) : Call (SharedEngine Bool (SampleParams ℚ) Unit) ClientAnswer :=
  chatCall (constantEngine _) (fun _ => [0x68]) "kv" false (fun _ => .ok .null) (fun _ => "")
    (twoClients stream)

def serveTwo (stream : Bool) : Committed Bool Unit → Option (ClientAnswer × Committed Bool Unit) :=
  serveChat (constantEngine _) (fun _ => [0x68]) "kv" false (fun _ => .ok .null) (fun _ => "")
    (twoClients stream)

theorem serveTwo_ne_none (stream : Bool) (s : Committed Bool Unit) : serveTwo stream s ≠ none := by
  have hconv (request : ChatRequest)
      (h : chatCompletions false (twoClients stream).parsed = .ok request) :
      request.params.conversationId = "" := by
    cases stream <;> cases h <;> rfl
  cases hparsed : chatCompletions false (twoClients stream).parsed with
  | error error => cases stream <;> exact nomatch hparsed
  | ok request => exact serveChat_ne_none _ _ _ _ _ _ hparsed (hconv request hparsed) s

/-- Both are answered, as if they had come one after the other. -/
theorem chat_linearizable_two : ∃ is w, Run (Step twoCalls) (World.start usedEngine) is w ∧
    (∀ i, ∃ r, w.phase i = .answered r) ∧
    ∃ answers, serial serveTwo w.order usedEngine.toCommitted =
        some (answers, w.shared.toCommitted) ∧
      ∀ i r, w.phase i = .answered r → twoCalls i = .answer r ∨ (i, r) ∈ answers := by
  have hrefines : Refines SharedEngine.toCommitted twoCalls serveTwo :=
    chatCall_refines _ _ _ _ _ _ twoClients
  obtain ⟨is, w, hrun, hend⟩ := exists_all_answered hrefines
    ⟨[], [], _, Serialized.start usedEngine⟩ [false, true]
  obtain ⟨before, answers, s, hw⟩ := serialized_of_run hrefines hrun
  rcases hend with hstuck | ⟨hfree, hall⟩
  · obtain ⟨i, -, hnone⟩ := hw.stuck hstuck
    exact absurd hnone (serveTwo_ne_none i s)
  obtain ⟨-, ⟨before, answers, s, hserial, horder, -, hshared, hanswers⟩, -⟩ :=
    chat_linearizable _ _ _ _ _ _ twoClients hrun
  refine ⟨is, w, hrun, fun i => hall i (by cases i <;> decide), answers, ?_, hanswers⟩
  rw [hfree, Option.toList_none, List.append_nil] at horder
  rw [horder, hshared hfree]
  exact hserial

/-- While the first turn has only begun, both can still be answered. -/
theorem chat_all_answered_two : ∃ is w, Run (Step twoCalls) (World.start usedEngine) is w ∧
    w.holder = some false ∧ w.phase true = .away ∧
    ∃ is' w', Run (Step twoCalls) w is' w' ∧ w'.holder = none ∧
      ∀ i, ∃ r, w'.phase i = .answered r := by
  have hcall : ∃ write next, twoCalls false = .locked (.step write next) := ⟨_, _, rfl⟩
  obtain ⟨write, next, hcall⟩ := hcall
  let arrived : World (SharedEngine Bool (SampleParams ℚ) Unit) ClientAnswer Bool :=
    (World.start usedEngine).set false .waiting
  let begun : World (SharedEngine Bool (SampleParams ℚ) Unit) ClientAnswer Bool :=
    { arrived.set false (.running (.step write next)) with
      holder := some false, order := arrived.order ++ [false] }
  have hbegun : Run (Step twoCalls) (World.start usedEngine) [false, false] begun :=
    .cons (.arrive rfl hcall) (.cons (.acquire rfl hcall rfl) (.nil begun))
  have hrun : Run (Step twoCalls) (World.start usedEngine) [false, false, false] _ :=
    hbegun.append (.cons (.work rfl) (.nil _))
  refine ⟨_, _, hrun, rfl, rfl, ?_⟩
  obtain ⟨is', w', hrun', ⟨hfree, hall⟩ | ⟨before, i, answers, s, -, -, hnone⟩⟩ :=
    chat_all_answered _ _ _ _ _ _ twoClients hrun [false, true]
  · exact ⟨is', w', hrun', hfree, fun i => hall i (by cases i <;> decide)⟩
  · exact absurd hnone (serveTwo_ne_none i s)

end JLLM
