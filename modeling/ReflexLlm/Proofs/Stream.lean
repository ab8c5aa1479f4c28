import ReflexLlm.Proofs.Callback
import ReflexLlm.Proofs.SplitInvariant
import ReflexLlm.Proofs.StreamedUtf8

/-! The two answers of the chat handler. What a stream sends while its turn runs is what would be
sent once the turn of `build_completion` is over, also when the client leaves or a segment is no
UTF-8; every stream keeps to one protocol. -/

namespace JLLM

open ThinkSplit

/-- The texts that the calls pass on to the splitter. -/
def chunksOf (text : Int32 → List UInt8) (calls : List (Int32 × Bool)) : List (List UInt8) :=
  (calls.filter fun call => !call.2).map fun call => text call.1

/-- The segments of a reply. -/
def replySegments (text : Int32 → List UInt8) (calls : List (Int32 × Bool)) : List Segment :=
  run {} (chunksOf text calls)

section

variable (sink : ℕ → Bool) (utf8Error : List UInt8 → String)

/-- The opener of a stream. -/
def SseStream.opened : SseStream := SseStream.write sink ⟨{}, true, []⟩ .role

/-- A stream whose segments are all there from the start. -/
def replay (segments : List Segment) : List (SseFrame × Bool) :=
  if sink 0 = false then (SseStream.opened sink).writes
  else
    let r := (SseStream.opened sink).emitAll sink utf8Error segments
    (r.1.close sink r.2).writes

end

section

variable {W R L P G : Type} {e : Engine W R L P G} {env : TurnEnv} {params : GenParams P}
variable {text : Int32 → List UInt8} {sink : ℕ → Bool} {utf8Error : List UInt8 → String}

theorem chunksOf_append (calls calls' : List (Int32 × Bool)) :
    chunksOf text (calls ++ calls') = chunksOf text calls ++ chunksOf text calls' := by
  rw [chunksOf, List.filter_append, List.map_append]
  rfl

/-! ### Segments one after the other -/

theorem emitSegment_split (s : SseStream) (t : ThinkSplit) (segment : Segment) :
    SseStream.emitSegment sink utf8Error { s with split := t } segment =
      ({ (s.emitSegment sink utf8Error segment).1 with split := t },
        (s.emitSegment sink utf8Error segment).2) := by
  simp only [SseStream.emitSegment]
  split_ifs <;> rfl

/-- What is sent does not depend on the splitter. -/
theorem emitAll_split (s : SseStream) (t : ThinkSplit) (segments : List Segment) :
    SseStream.emitAll sink utf8Error { s with split := t } segments =
      ({ (s.emitAll sink utf8Error segments).1 with split := t },
        (s.emitAll sink utf8Error segments).2) := by
  induction segments generalizing s with
  | nil => rfl
  | cons segment rest ih =>
    rw [SseStream.emitAll, SseStream.emitAll, emitSegment_split]
    rcases hsegment : s.emitSegment sink utf8Error segment with ⟨s', what⟩
    cases what with
    | none => exact ih s'
    | some what => rfl

/-- A stream stays as a throw left it. -/
theorem emitAll_append (s : SseStream) (segments more : List Segment) :
    s.emitAll sink utf8Error (segments ++ more) =
      match s.emitAll sink utf8Error segments with
      | (s', none) => s'.emitAll sink utf8Error more
      | thrown => thrown := by
  induction segments generalizing s with
  | nil => rfl
  | cons segment rest ih =>
    rw [List.cons_append, SseStream.emitAll, SseStream.emitAll]
    rcases hsegment : s.emitSegment sink utf8Error segment with ⟨s', what⟩
    cases what with
    | none => exact ih s'
    | some what => rfl

theorem close_split (s : SseStream) (t : ThinkSplit) (errored : Option String) :
    (SseStream.close sink { s with split := t } errored).writes = (s.close sink errored).writes := by
  simp only [SseStream.close]
  split_ifs
  · rfl
  · cases errored <;> rfl

theorem emitAll_gone {s : SseStream} (h : s.clientAlive = false) (segments : List Segment) :
    s.emitAll sink utf8Error segments = (s, none) := by
  induction segments with
  | nil => rfl
  | cons segment rest ih =>
    rw [SseStream.emitAll, SseStream.emitSegment, if_pos h]
    exact ih

theorem run_append (t : ThinkSplit) (chunks more : List (List UInt8)) :
    t.run (chunks ++ more) = (t.feedAll chunks).2 ++ (t.feedAll chunks).1.run more := by
  induction chunks generalizing t with
  | nil => rfl
  | cons c cs ih => simp only [List.cons_append, run, feedAll, ih, List.append_assoc]

/-! ### The turn of a stream -/

/-- What was sent is what the segments up to here are sent as. -/
structure Streamed (text : Int32 → List UInt8) (sink : ℕ → Bool) (utf8Error : List UInt8 → String)
    (t : Talk SseStream) : Prop where
  sent : (SseStream.opened sink).emitAll sink utf8Error (feedAll {} (chunksOf text t.calls)).2 =
    ({ t.state with split := {} }, none)
  split : t.state.clientAlive = true → t.state.split = (feedAll {} (chunksOf text t.calls)).1

/-- The last call met a segment that cannot be serialised. -/
structure Broke (text : Int32 → List UInt8) (sink : ℕ → Bool) (utf8Error : List UInt8 → String)
    (t : Talk SseStream) (what : String) : Prop where
  sent : (SseStream.opened sink).emitAll sink utf8Error (feedAll {} (chunksOf text t.calls)).2 =
    ({ t.state with split := {} }, some what)

variable (text sink utf8Error) in
theorem streamed_keeps : SayKeeps text (streamCallback sink utf8Error)
    (Streamed text sink utf8Error) (Broke text sink utf8Error) := by
  intro t token isEos ht hstopped
  have halive : t.state.clientAlive = true := by simpa [streamCallback] using hstopped
  cases isEos with
  | true =>
    have hsay : t.say text (streamCallback sink utf8Error) token true =
        (⟨t.calls ++ [(token, true)], t.state⟩, none) := by
      simp [Talk.say, streamCallback, halive]
    have hchunks : chunksOf text (t.calls ++ [(token, true)]) = chunksOf text t.calls := by
      rw [chunksOf_append]
      exact List.append_nil _
    rw [hsay]
    constructor
    · rw [hchunks]
      exact ht.sent
    · rw [hchunks]
      exact ht.split
  | false =>
    have hchunks : chunksOf text (t.calls ++ [(token, false)]) =
        chunksOf text t.calls ++ [text token] := chunksOf_append _ _
    have hsay : t.say text (streamCallback sink utf8Error) token false =
        (⟨t.calls ++ [(token, false)],
          (SseStream.emitAll sink utf8Error { t.state with split := (t.state.split.feed (text token)).1 }
            (t.state.split.feed (text token)).2).1⟩,
          (SseStream.emitAll sink utf8Error { t.state with split := (t.state.split.feed (text token)).1 }
            (t.state.split.feed (text token)).2).2) := by
      simp [Talk.say, streamCallback, halive]
    rw [emitAll_split] at hsay
    have hfed := feedAll_concat {} (chunksOf text t.calls) (text token)
    rw [← ht.split halive, ← hchunks] at hfed
    have hsent : (SseStream.opened sink).emitAll sink utf8Error
        (feedAll {} (chunksOf text (t.calls ++ [(token, false)]))).2 =
        ({ (t.state.emitAll sink utf8Error (t.state.split.feed (text token)).2).1 with split := {} },
          (t.state.emitAll sink utf8Error (t.state.split.feed (text token)).2).2) := by
      rw [hfed, emitAll_append, ht.sent]
      exact emitAll_split t.state {} _
    rw [hsay]
    cases hthrown : (t.state.emitAll sink utf8Error (t.state.split.feed (text token)).2).2 with
    | none => exact ⟨hthrown ▸ hsent, fun _ => by rw [hfed]⟩
    | some what => exact ⟨hthrown ▸ hsent⟩

theorem streamed_start : Streamed text sink utf8Error ⟨[], SseStream.opened sink⟩ where
  sent := rfl
  split _ := rfl

/-! ### The turn of a completion -/

/-- The splitter and the segments are those of the texts so far. -/
def Absorbed (text : Int32 → List UInt8) (t : Talk (ThinkSplit × List Segment)) : Prop :=
  t.state = feedAll {} (chunksOf text t.calls)

variable (text) in
theorem absorbed_keeps : SayKeeps text absorbCallback (Absorbed text) fun _ _ => False := by
  intro t token isEos ht _
  rw [Absorbed] at ht
  cases isEos with
  | true =>
    change t.state = feedAll {} (chunksOf text (t.calls ++ [(token, true)]))
    rw [ht, chunksOf_append]
    exact congrArg _ (List.append_nil _).symm
  | false =>
    change ((t.state.1.feed (text token)).1, t.state.2 ++ (t.state.1.feed (text token)).2) =
      feedAll {} (chunksOf text (t.calls ++ [(token, false)]))
    rw [ht, chunksOf_append]
    exact (feedAll_concat {} (chunksOf text t.calls) (text token)).symm

/-! ### Both answers -/

theorem stoppedBy_unstopped {C : Type} {cb : TokenCallback C} {t : Talk C}
    (h : cb.stopped t.state = false) : env.stoppedBy cb t = env := by
  rw [TurnEnv.stoppedBy, h]
  simp only [Bool.false_and, Bool.or_false]

theorem replySegments_append (calls more : List (Int32 × Bool)) :
    replySegments text (calls ++ more) = (feedAll {} (chunksOf text calls)).2 ++
      (feedAll {} (chunksOf text calls)).1.run (chunksOf text more) := by
  rw [replySegments, chunksOf_append, run_append]

/-- What is sent of a turn that a throw ended is what is sent of the whole reply. -/
theorem Broke.replay {t : Talk SseStream} {what : String} (h : Broke text sink utf8Error t what)
    (hopen : sink 0 = true) {calls : List (Int32 × Bool)} (hcalls : t.calls <+: calls) :
    replay sink utf8Error (replySegments text calls) = (t.state.close sink (some what)).writes := by
  obtain ⟨more, rfl⟩ := hcalls
  rw [JLLM.replay, if_neg (by rw [hopen]; decide), replySegments_append, emitAll_append, h.sent]
  exact close_split t.state {} (some what)

/-- So is what is sent of a turn that the client left. -/
theorem Streamed.replay_gone {t : Talk SseStream} (h : Streamed text sink utf8Error t)
    (hopen : sink 0 = true) (hgone : t.state.clientAlive = false) {calls : List (Int32 × Bool)}
    (hcalls : t.calls <+: calls) :
    replay sink utf8Error (replySegments text calls) = t.state.writes := by
  obtain ⟨more, rfl⟩ := hcalls
  rw [JLLM.replay, if_neg (by rw [hopen]; decide), replySegments_append, emitAll_append, h.sent]
  simp only
  rw [emitAll_gone (s := { t.state with split := {} }) hgone, SseStream.close, if_pos hgone]

theorem Streamed.replay_flush {t : Talk SseStream} (h : Streamed text sink utf8Error t)
    (hopen : sink 0 = true) (halive : t.state.clientAlive = true) :
    replay sink utf8Error (replySegments text t.calls) =
      ((t.state.emitAll sink utf8Error t.state.split.flush).1.close sink
        (t.state.emitAll sink utf8Error t.state.split.flush).2).writes := by
  rw [JLLM.replay, if_neg (by rw [hopen]; decide), replySegments, run_eq_feedAll, emitAll_append,
    h.sent, h.split halive]
  simp only
  rw [emitAll_split, close_split]

section

variable {dir : String} {prompt : List UInt8} {s : EngineState G} {fs : FileSystem}
variable {prefilled : Device × Option R} (hnone : tokenCalls prefilled.1.bare = [])

include hnone

variable (e env params text) in
/-- The loop behind a prefill, with the callback of `build_completion`. -/
theorem decodeFromCb_absorbed (limit : ℕ) (rng : G) (promptTokens : List Int32) :
    ∃ t, decodeFromCb e env params text absorbCallback limit rng promptTokens prefilled ({}, []) =
        .ended (decodeFrom e env params limit rng promptTokens prefilled) t ∧
      t.calls = tokenCalls (decodeFrom e env params limit rng promptTokens prefilled).dev.bare ∧
      Absorbed text t := by
  have hwhole := decodeFromCb_satisfies e env params (absorbed_keeps text) limit rng promptTokens
    prefilled (c := ({}, [])) rfl rfl
  cases hfrom : decodeFromCb e env params text absorbCallback limit rng promptTokens prefilled
      ({}, []) with
  | raised engine t what =>
    rw [hfrom] at hwhole
    exact hwhole.elim
  | ended g t =>
    rw [hfrom] at hwhole
    obtain ⟨hcalls, hstate⟩ := decodeFromCb_ended hnone hfrom
    rw [stoppedBy_unstopped rfl] at hstate
    exact ⟨t, by rw [hstate], by rw [hstate, hcalls], hwhole⟩

variable (e env params text utf8Error) in
/-- The loop behind a prefill, with the callback of a stream whose opener was accepted. -/
theorem decodeFromCb_streamed (hopen : sink 0 = true) (limit : ℕ) (rng : G)
    (promptTokens : List Int32) :
    replay sink utf8Error (replySegments text
        (tokenCalls (decodeFrom e env params limit rng promptTokens prefilled).dev.bare)) =
      match decodeFromCb e env params text (streamCallback sink utf8Error) limit rng promptTokens
        prefilled (SseStream.opened sink) with
      | .ended _ t =>
          ((t.state.emitAll sink utf8Error t.state.split.flush).1.close sink
            (t.state.emitAll sink utf8Error t.state.split.flush).2).writes
      | .raised _ t what => (t.state.close sink (some what)).writes := by
  have hsent := decodeFromCb_satisfies e env params (streamed_keeps text sink utf8Error) limit rng
    promptTokens prefilled streamed_start rfl
  have hcalls := decodeFromCb_prefix e env params text (streamCallback sink utf8Error) limit rng
    promptTokens (SseStream.opened sink) hnone
  cases hfrom : decodeFromCb e env params text (streamCallback sink utf8Error) limit rng promptTokens
      prefilled (SseStream.opened sink) with
  | raised engine t what =>
    rw [hfrom] at hsent hcalls
    exact Broke.replay hsent hopen hcalls
  | ended g t =>
    rw [hfrom] at hsent hcalls
    simp only
    cases halive : t.state.clientAlive with
    | false =>
      rw [emitAll_gone halive, SseStream.close, if_pos halive]
      exact Streamed.replay_gone hsent hopen halive hcalls
    | true =>
      obtain ⟨hall, hstate⟩ := decodeFromCb_ended hnone hfrom
      rw [stoppedBy_unstopped (by simp [streamCallback, halive])] at hstate
      rw [hstate, ← hall]
      exact Streamed.replay_flush hsent hopen halive

end

variable (e env params text sink utf8Error) in
/-- The client of a stream is sent what it would be sent of the answer that `build_completion`
gives to the same request, segment by segment and after the whole turn. -/
theorem streamChatCompletion_eq_replay (dir : String) (prompt : List UInt8) (s : EngineState G)
    (fs : FileSystem) :
    match buildCompletion e env params text dir prompt s fs with
    | (.returned turn _, answer) =>
        answer = some
          ⟨absorbed .content (replySegments text (tokenCalls turn.trace)),
            absorbed .reasoning (replySegments text (tokenCalls turn.trace)),
            turn.promptTokens, turn.completionTokens⟩ ∧
        (streamChatCompletion e env params text sink utf8Error dir prompt s fs).2 =
          replay sink utf8Error (replySegments text (tokenCalls turn.trace))
    | (.threw _ _ what, answer) =>
        answer = none ∧ (streamChatCompletion e env params text sink utf8Error dir prompt s fs).2 =
          if sink 0 = false then [(.role, false)]
          else [(.role, sink 0), (.error what, sink 1), (.done, sink 2)]
    | (.outOfBounds, answer) => answer = none := by
  rw [buildCompletion, streamChatCompletion]
  rcases turnHead_cases e env params dir prompt s fs with
    ⟨what, hcb⟩ | hcb | ⟨prefilled, hnone, hcb, hplain⟩
  · simp only [hcb]
    refine ⟨trivial, ?_⟩
    split_ifs with hopen
    · exact congrArg (fun b => [(SseFrame.role, b)]) hopen
    · rfl
  · simp only [hcb]
  · obtain ⟨t, hended, hcalls, habsorbed⟩ := decodeFromCb_absorbed e env params text hnone
      s.pool.maxTokens s.rng (e.promptTokens prompt)
    have hsegments : t.state.2 ++ t.state.1.flush = replySegments text t.calls := by
      rw [replySegments, run_eq_feedAll, habsorbed]
    simp only [hcb, hended, TalkEnd.finish, tokenCalls_finishTurn, ← hcalls, hsegments]
    refine ⟨trivial, ?_⟩
    cases hopen : sink 0 with
    | false =>
      rw [if_pos rfl, replay, if_pos hopen]
      rfl
    | true =>
      have hstreamed := decodeFromCb_streamed e env params text utf8Error hnone hopen s.pool.maxTokens
        s.rng (e.promptTokens prompt)
      rw [if_neg (by decide), hcalls, hstreamed, SseStream.opened]
      cases decodeFromCb e env params text (streamCallback sink utf8Error) s.pool.maxTokens s.rng
          (e.promptTokens prompt) prefilled (SseStream.write sink ⟨{}, true, []⟩ .role) with
      | ended g t => rfl
      | raised engine t what => rfl

/-! ### The protocol -/

/-- Deltas that the client took. -/
def accepted (segments : List Segment) : List (SseFrame × Bool) :=
  segments.map fun segment => (.delta segment, true)

/-- How segments can be sent. -/
inductive Emission (sink : ℕ → Bool) (utf8Error : List UInt8 → String) (s : SseStream)
    (segments : List Segment) : SseStream × Option String → Prop where
  | all (hvalid : AllValid segments) :
      Emission sink utf8Error s segments
        ({ s with writes := s.writes ++ accepted segments }, none)
  | gone {sent rest : List Segment} {segment : Segment} (h : segments = sent ++ segment :: rest)
      (hvalid : AllValid sent) (hsegment : Utf8.Valid segment.2)
      (hsink : sink (s.writes.length + sent.length) = false) :
      Emission sink utf8Error s segments
        ({ s with clientAlive := false,
                  writes := s.writes ++ accepted sent ++ [(.delta segment, false)] }, none)
  | thrown {sent rest : List Segment} {segment : Segment} (h : segments = sent ++ segment :: rest)
      (hvalid : AllValid sent) (hsegment : ¬ Utf8.Valid segment.2) :
      Emission sink utf8Error s segments
        ({ s with writes := s.writes ++ accepted sent }, some (utf8Error segment.2))

variable (sink utf8Error) in
theorem emitAll_emission {s : SseStream} (halive : s.clientAlive = true) (segments : List Segment) :
    Emission sink utf8Error s segments (s.emitAll sink utf8Error segments) := by
  induction segments generalizing s with
  | nil =>
    have hall : Emission sink utf8Error s [] _ := .all allValid_nil
    rwa [accepted, List.map_nil, List.append_nil] at hall
  | cons segment rest ih =>
    rw [SseStream.emitAll, SseStream.emitSegment, if_neg (by rw [halive]; decide)]
    by_cases hvalid : Utf8.Valid segment.2
    · rw [if_pos hvalid]
      cases hsink : sink s.writes.length with
      | false =>
        have hgone : Emission sink utf8Error s ([] ++ segment :: rest) _ :=
          .gone rfl allValid_nil hvalid hsink
        rw [accepted, List.map_nil, List.append_nil] at hgone
        simp only
        rw [emitAll_gone rfl, SseStream.write, hsink]
        exact hgone
      | true =>
        have hs : { s.write sink (.delta segment) with clientAlive := true } =
            { s with writes := s.writes ++ accepted [segment] } := by
          simp only [SseStream.write, hsink, accepted, List.map_cons, List.map_nil, halive]
        simp only
        rw [hs]
        have hwrites (more : List Segment) : s.writes ++ accepted [segment] ++ accepted more =
            s.writes ++ accepted (segment :: more) := List.append_assoc _ _ _
        have hrest := ih (s := { s with writes := s.writes ++ accepted [segment] }) halive
        generalize SseStream.emitAll sink utf8Error
          { s with writes := s.writes ++ accepted [segment] } rest = r at hrest ⊢
        cases hrest with
        | all hall =>
          simp only [hwrites]
          exact .all ((allValid_cons segment rest).mpr ⟨hvalid, hall⟩)
        | gone h hsent hseg hanswer =>
          simp only [hwrites]
          refine .gone (by rw [h]; rfl) ((allValid_cons segment _).mpr ⟨hvalid, hsent⟩) hseg ?_
          rw [List.length_append] at hanswer
          rwa [List.length_cons, Nat.add_comm _ 1, ← Nat.add_assoc]
        | thrown h hsent hseg =>
          simp only [hwrites]
          exact .thrown (by rw [h]; rfl) ((allValid_cons segment _).mpr ⟨hvalid, hsent⟩) hseg
    · have hthrown : Emission sink utf8Error s ([] ++ segment :: rest) _ :=
        .thrown rfl allValid_nil hvalid
      rw [accepted, List.map_nil, List.append_nil] at hthrown
      rw [if_neg hvalid]
      exact hthrown

/-- What a client is sent for a reply of these segments: the opener, deltas that are all valid
UTF-8, and one of three ends. After a write that the client refuses there is nothing more. -/
inductive SseReply (sink : ℕ → Bool) (utf8Error : List UInt8 → String) (segments : List Segment) :
    List (SseFrame × Bool) → Prop where
  | refused (h : sink 0 = false) : SseReply sink utf8Error segments [(.role, false)]
  | gone {sent rest : List Segment} {segment : Segment} (h : segments = sent ++ segment :: rest)
      (hvalid : AllValid sent) (hsegment : Utf8.Valid segment.2)
      (hsink : sink (sent.length + 1) = false) :
      SseReply sink utf8Error segments
        ((.role, true) :: accepted sent ++ [(.delta segment, false)])
  | failed {sent rest : List Segment} {segment : Segment} (h : segments = sent ++ segment :: rest)
      (hvalid : AllValid sent) (hsegment : ¬ Utf8.Valid segment.2) :
      SseReply sink utf8Error segments
        ((.role, true) :: accepted sent ++ [(.error (utf8Error segment.2), sink (sent.length + 1)),
          (.done, sink (sent.length + 2))])
  | complete (hvalid : AllValid segments) :
      SseReply sink utf8Error segments
        ((.role, true) :: accepted segments ++ [(.finish, sink (segments.length + 1)),
          (.done, sink (segments.length + 2))])

theorem replay_reply (segments : List Segment) :
    SseReply sink utf8Error segments (replay sink utf8Error segments) := by
  have hopened : SseStream.opened sink = ⟨{}, true, [(.role, sink 0)]⟩ := rfl
  rw [replay, hopened]
  cases hopen : sink 0 with
  | false => exact .refused hopen
  | true =>
    have hclose (sent : List Segment) (frame : SseFrame) :
        (SseStream.write sink (SseStream.write sink ⟨{}, true, [(.role, true)] ++ accepted sent⟩ frame)
          .done).writes = (.role, true) :: accepted sent ++
            [(frame, sink (sent.length + 1)), (.done, sink (sent.length + 2))] := by
      simp [SseStream.write, accepted]
    have hemission := emitAll_emission sink utf8Error
      (s := ⟨{}, true, [(.role, true)]⟩) rfl segments
    generalize SseStream.emitAll sink utf8Error ⟨{}, true, [(.role, true)]⟩ segments = r
      at hemission ⊢
    cases hemission with
    | all hvalid =>
      rw [if_neg (by decide)]
      exact (hclose segments .finish).symm ▸ .complete hvalid
    | gone h hvalid hsegment hsink =>
      exact .gone h hvalid hsegment (by rwa [List.length_singleton, Nat.add_comm] at hsink)
    | @thrown sent _ segment h hvalid hsegment =>
      rw [if_neg (by decide)]
      exact (hclose sent (.error (utf8Error segment.2))).symm ▸ .failed h hvalid hsegment

section

variable {dir : String} {prompt : List UInt8} {s : EngineState G} {fs : FileSystem}
variable {turn : Turn G} {t : Talk (ThinkSplit × List Segment)} {answer : Option Completion}
  (h : buildCompletion e env params text dir prompt s fs = (.returned turn t, answer))

include h

variable (sink utf8Error) in
/-- Every stream keeps to the protocol, with the segments of the turn that a completion runs. -/
theorem streamChatCompletion_reply :
    SseReply sink utf8Error (replySegments text (tokenCalls turn.trace))
      (streamChatCompletion e env params text sink utf8Error dir prompt s fs).2 := by
  have hagree := streamChatCompletion_eq_replay e env params text sink utf8Error dir prompt s fs
  rw [h] at hagree
  rw [hagree.2]
  exact replay_reply _

end

end

/-- Two tokens `hi`. -/
theorem constantEngine_completes :
    ∃ turn t answer, buildCompletion (constantEngine Unit) calmEnv twoTokens (fun _ => [0x68, 0x69])
        "kv" [5, 6, 7] emptySession.engine emptySession.fs = (.returned turn t, answer) ∧
      tokenCalls turn.trace = [(3, false), (3, false)] := ⟨_, _, _, rfl, by decide +kernel⟩

/-- The client leaves after the first of them. -/
theorem streamChatCompletion_reply_leaving :
    SseReply (fun k => decide (k < 2)) (fun _ => "")
      (replySegments (fun _ => [0x68, 0x69]) [(3, false), (3, false)])
      (streamChatCompletion (constantEngine Unit) calmEnv twoTokens (fun _ => [0x68, 0x69])
        (fun k => decide (k < 2)) (fun _ => "") "kv" [5, 6, 7] emptySession.engine
        emptySession.fs).2 := by
  obtain ⟨turn, t, answer, h, hcalls⟩ := constantEngine_completes
  rw [← hcalls]
  exact streamChatCompletion_reply _ _ h

end JLLM
