import ReflexLlm.Proofs.TurnCap
import ReflexLlm.Spec.Stream

/-! Turns with a callback. A callback that has called `stop` is not called again; a turn that
returns is one of `generate`, and the calls before a throw are the first of those of `generate`. -/

namespace JLLM

section

variable {W R L P G C : Type} {e : Engine W R L P G} {env : TurnEnv} {params : GenParams P}
variable {text : Int32 → List UInt8} {cb : TokenCallback C}

/-! ### Calls -/

/-- The state that calls leave. -/
def TokenCallback.after (cb : TokenCallback C) (text : Int32 → List UInt8) (c : C)
    (calls : List (Int32 × Bool)) : C :=
  calls.foldl (fun c call => (cb.call c (text call.1) call.2).1) c

theorem TokenCallback.after_concat (c : C) (calls : List (Int32 × Bool)) (call : Int32 × Bool) :
    cb.after text c (calls ++ [call]) = (cb.call (cb.after text c calls) (text call.1) call.2).1 :=
  List.foldl_concat _ c call calls

theorem Talk.say_calls (t : Talk C) (token : Int32) (isEos : Bool) :
    (t.say text cb token isEos).1.calls = t.calls ++ [(token, isEos)] := rfl

def TalkEnd.talk : TalkEnd G C → Talk C
  | .ended _ t => t
  | .raised _ t _ => t

/-- What holds where the talk ends, `ok` after calls that returned, `bad` after one that threw. -/
def TalkEnd.Satisfies (r : TalkEnd G C) (ok : Talk C → Prop) (bad : Talk C → String → Prop) : Prop :=
  match r with
  | .ended _ t => ok t
  | .raised _ t what => bad t what

def CbTurn.Satisfies (r : CbTurn G C) (ok : Talk C → Prop) (bad : Talk C → String → Prop) : Prop :=
  match r with
  | .returned _ t => ok t
  | .threw _ t what => bad t what
  | .outOfBounds => True

/-- What one call does to what holds of a talk; it is only made before a stop. -/
def SayKeeps (text : Int32 → List UInt8) (cb : TokenCallback C) (ok : Talk C → Prop)
    (bad : Talk C → String → Prop) : Prop :=
  ∀ t token isEos, ok t → cb.stopped t.state = false →
    match t.say text cb token isEos with
    | (t', none) => ok t'
    | (t', some what) => bad t' what

section

variable {ok : Talk C → Prop} {bad : Talk C → String → Prop} (hsay : SayKeeps text cb ok bad)

include hsay

/-- What every call keeps holds where the loop ends. -/
theorem decodeLoopCb_satisfies (limit n : ℕ) : ∀ (i : ℕ) (s : GenState G) (t : Talk C), ok t →
    (decodeLoopCb e env params text cb limit n i s t).Satisfies ok bad := by
  induction n with
  | zero => exact fun i s t ht => ht
  | succ n ih =>
    intro i s t ht
    rw [decodeLoopCb]
    split_ifs with hstop hlimit hmem
    · exact ht
    · exact ht
    · exact ht
    · have hstopped : cb.stopped t.state = false :=
        Bool.eq_false_iff.mpr fun h => hstop (by rw [h, Bool.or_true])
      have hcall := hsay t (decodeIteration e env params s).2
        ((decodeIteration e env params s).2 = e.eosId) ht hstopped
      simp only
      split
      · rename_i t' what heq
        rw [heq] at hcall
        exact hcall
      · rename_i t' heq
        rw [heq] at hcall
        split_ifs
        · exact hcall
        · exact ih (i + 1) _ t' hcall

variable (e env params) in
theorem decodeFromCb_satisfies (limit : ℕ) (rng : G) (promptTokens : List Int32)
    (prefilled : Device × Option R) {c : C} (hc : ok ⟨[], c⟩) (hstopped : cb.stopped c = false) :
    (decodeFromCb e env params text cb limit rng promptTokens prefilled c).Satisfies ok bad := by
  rw [decodeFromCb]
  simp only
  split_ifs with hfirst heos
  · have hcall := hsay ⟨[], c⟩ (firstToken e env params prefilled.2 rng).1
      ((firstToken e env params prefilled.2 rng).1 = e.eosId) hc hstopped
    split
    · rename_i t' what heq
      rw [heq] at hcall
      exact hcall
    · rename_i t' heq
      rw [heq] at hcall
      exact hcall
  · have hcall := hsay ⟨[], c⟩ (firstToken e env params prefilled.2 rng).1
      ((firstToken e env params prefilled.2 rng).1 = e.eosId) hc hstopped
    split
    · rename_i t' what heq
      rw [heq] at hcall
      exact hcall
    · rename_i t' heq
      rw [heq] at hcall
      exact decodeLoopCb_satisfies hsay limit _ _ _ t' hcall
  · exact decodeLoopCb_satisfies hsay limit _ _ _ _ hc

/-- What every call keeps holds where the turn ends. -/
theorem generateCb_satisfies {dir : String} {prompt : List UInt8} {s : EngineState G}
    {fs : FileSystem} {c : C} (hc : ok ⟨[], c⟩) (hstopped : cb.stopped c = false)
    (hthrow : ∀ what, bad ⟨[], c⟩ what) :
    (generateCb e env params text cb dir prompt s fs c).Satisfies ok bad := by
  rw [generateCb]
  simp only
  split_ifs with hbytes htokens hreserve
  · exact hthrow _
  · exact hthrow _
  · exact hthrow _
  · split
    · exact hthrow _
    · trivial
    · rename_i matched pool hhydrate
      have hfrom := decodeFromCb_satisfies e env params hsay
        s.pool.maxTokens s.rng (e.promptTokens prompt)
        (prefill e params ⟨pool, if matched = 0 then [] else [.hydrated matched]⟩ matched
          (e.promptTokens prompt)) hc hstopped
      split
      · rename_i engine t what heq
        rw [heq] at hfrom
        exact hfrom
      · rename_i s' t heq
        rw [heq] at hfrom
        exact hfrom

end

/-! ### Stops -/

/-- No call was made after a stop, and the state is what the calls left. -/
structure SaidBeforeStop (text : Int32 → List UInt8) (cb : TokenCallback C) (c : C) (t : Talk C) :
    Prop where
  state : t.state = cb.after text c t.calls
  unstopped : ∀ before call after, t.calls = before ++ call :: after →
    cb.stopped (cb.after text c before) = false

theorem SaidBeforeStop.say {c : C} {t : Talk C} (h : SaidBeforeStop text cb c t)
    (hstopped : cb.stopped t.state = false) (token : Int32) (isEos : Bool) :
    SaidBeforeStop text cb c (t.say text cb token isEos).1 where
  state := by
    rw [Talk.say_calls, TokenCallback.after_concat, ← h.state]
    rfl
  unstopped := by
    intro before call after heq
    rw [Talk.say_calls] at heq
    rcases List.eq_nil_or_concat after with rfl | ⟨more, last, rfl⟩
    · obtain ⟨rfl, -⟩ := List.append_inj' heq rfl
      rw [← h.state]
      exact hstopped
    · rw [List.concat_eq_append, ← List.cons_append, ← List.append_assoc] at heq
      exact h.unstopped before call more (List.append_inj' heq rfl).1

theorem saidBeforeStop_keeps (c : C) :
    SayKeeps text cb (SaidBeforeStop text cb c) fun t _ => SaidBeforeStop text cb c t := by
  intro t token isEos ht hstopped
  have hsaid := ht.say hstopped token isEos
  split <;> rename_i heq <;> rw [heq] at hsaid <;> exact hsaid

/-- However the turn ends, no call of `token_cb` follows one in which it stopped the engine. -/
theorem generateCb_unstopped {dir : String} {prompt : List UInt8} {s : EngineState G}
    {fs : FileSystem} {c : C} (hstopped : cb.stopped c = false) :
    (generateCb e env params text cb dir prompt s fs c).Satisfies (SaidBeforeStop text cb c)
      fun t _ => SaidBeforeStop text cb c t := by
  have hstart : SaidBeforeStop text cb c ⟨[], c⟩ := ⟨rfl, fun _ _ _ h => by simp at h⟩
  exact generateCb_satisfies (saidBeforeStop_keeps c) hstart hstopped fun _ => hstart

/-! ### The turn of a callback that returns -/

/-- The stops that the loop saw when the talk ended in `t`. -/
def TurnEnv.stoppedBy (env : TurnEnv) (cb : TokenCallback C) (t : Talk C) : TurnEnv :=
  { env with stop := fun i => env.stop i || (cb.stopped t.state && decide (t.calls.length ≤ i)) }

/-- At a loop head the talk has said what was delivered, one token for each iteration. -/
structure InStep (i : ℕ) (s : GenState G) (t : Talk C) : Prop where
  calls : t.calls = tokenCalls s.dev.bare
  index : t.calls.length = i

variable (e env params text cb) in
theorem InStep.say {i : ℕ} {s : GenState G} {t : Talk C} (h : InStep i s t) :
    InStep (i + 1) (decodeIteration e env params s).1
      (t.say text cb (decodeIteration e env params s).2
        ((decodeIteration e env params s).2 = e.eosId)).1 where
  calls := by
    rw [(decodeIteration_iterated e params env s).tokenCalls, ← h.calls]
    rfl
  index := by rw [Talk.say_calls, List.length_append, h.index, List.length_singleton]

theorem stoppedBy_stop (t : Talk C) (i : ℕ) : (env.stoppedBy cb t).stop i =
    (env.stop i || (cb.stopped t.state && decide (t.calls.length ≤ i))) := rfl

/-- The loop with a callback that returns each time is the loop of `generate`. -/
theorem decodeLoopCb_ended {limit n : ℕ} {i : ℕ} {s s' : GenState G} {t t' : Talk C}
    (hstep : InStep i s t) (h : decodeLoopCb e env params text cb limit n i s t = .ended s' t') :
    i ≤ t'.calls.length ∧ t'.calls = tokenCalls s'.dev.bare ∧
      decodeLoop e (env.stoppedBy cb t') params limit n i s = s' := by
  induction n generalizing i s t with
  | zero =>
    obtain ⟨rfl, rfl⟩ := TalkEnd.ended.inj h
    exact ⟨hstep.index.ge, hstep.calls, rfl⟩
  | succ n ih =>
    rw [decodeLoopCb] at h
    rw [decodeLoop, stoppedBy_stop]
    split_ifs at h with hstop hlimit hmem
    · obtain ⟨rfl, rfl⟩ := TalkEnd.ended.inj h
      refine ⟨hstep.index.ge, hstep.calls, if_pos ?_⟩
      rwa [decide_eq_true hstep.index.le, Bool.and_true]
    · obtain ⟨rfl, rfl⟩ := TalkEnd.ended.inj h
      refine ⟨hstep.index.ge, hstep.calls, ?_⟩
      rw [if_pos hlimit, ite_self]
    · obtain ⟨rfl, rfl⟩ := TalkEnd.ended.inj h
      refine ⟨hstep.index.ge, hstep.calls, ?_⟩
      rw [decide_eq_true hstep.index.le, Bool.and_true, if_neg hstop, if_neg hlimit]
      exact if_pos hmem
    · have hsaid := hstep.say e env params text cb
      simp only at h
      split at h
      · cases h
      · rename_i t₁ heq
        rw [heq] at hsaid
        have hcontinue (hlen : i + 1 ≤ t'.calls.length) : ¬ (env.stop i ||
            (cb.stopped t'.state && decide (t'.calls.length ≤ i))) = true := by
          rw [decide_eq_false (by omega), Bool.and_false, Bool.or_false]
          exact fun hs => hstop (by rw [hs, Bool.true_or])
        split_ifs at h with heos
        · obtain ⟨rfl, rfl⟩ := TalkEnd.ended.inj h
          have hlen := hsaid.index.ge
          refine ⟨(Nat.le_succ i).trans hlen, hsaid.calls, ?_⟩
          rw [if_neg (hcontinue hlen), if_neg hlimit]
          exact (if_neg hmem).trans (if_pos heos)
        · obtain ⟨hlen, hcalls, hloop⟩ := ih hsaid h
          refine ⟨(Nat.le_succ i).trans hlen, hcalls, ?_⟩
          rw [if_neg (hcontinue hlen), if_neg hlimit]
          exact (if_neg hmem).trans ((if_neg heos).trans hloop)

variable (e env params) in
theorem decodeLoop_calls (limit n i : ℕ) (s : GenState G) :
    tokenCalls s.dev.bare <+: tokenCalls (decodeLoop e env params limit n i s).dev.bare :=
  (decodeLoop_rule (fun s' => tokenCalls s.dev.bare <+: tokenCalls s'.dev.bare)
    (fun s' => tokenCalls s.dev.bare <+: tokenCalls s'.dev.bare) (fun _ h => h) (fun _ h => h)
    (fun _ _ _ h _ hiter _ => h.trans (by rw [hiter.tokenCalls]; exact List.prefix_append _ _))
    (fun _ _ _ h _ hiter _ => h.trans (by rw [hiter.tokenCalls]; exact List.prefix_append _ _))
    n i s List.prefix_rfl).2

/-- The calls are the first of those of the loop of `generate`, also when one throws. -/
theorem decodeLoopCb_prefix {limit n : ℕ} {i : ℕ} {s : GenState G} {t : Talk C}
    (hstep : InStep i s t) : (decodeLoopCb e env params text cb limit n i s t).talk.calls <+:
      tokenCalls (decodeLoop e env params limit n i s).dev.bare := by
  induction n generalizing i s t with
  | zero => exact hstep.calls ▸ List.prefix_rfl
  | succ n ih =>
    have hsofar := decodeLoop_calls e env params limit (n + 1) i s
    rw [← hstep.calls] at hsofar
    rw [decodeLoopCb]
    split_ifs with hstop hlimit hmem
    · exact hsofar
    · exact hsofar
    · exact hsofar
    · have hsaid := hstep.say e env params text cb
      have hnext : decodeLoop e env params limit (n + 1) i s =
          if (decodeIteration e env params s).2 = e.eosId then (decodeIteration e env params s).1
          else decodeLoop e env params limit n (i + 1) (decodeIteration e env params s).1 := by
        rw [decodeLoop, if_neg fun hs => hstop (by rw [hs, Bool.true_or]), if_neg hlimit, if_neg hmem]
      rw [hnext]
      simp only
      split
      · rename_i t₁ what heq
        rw [heq] at hsaid
        split_ifs
        · exact hsaid.calls ▸ List.prefix_rfl
        · exact hsaid.calls ▸ decodeLoop_calls _ _ _ _ _ _ _
      · rename_i t₁ heq
        rw [heq] at hsaid
        split_ifs
        · exact hsaid.calls ▸ List.prefix_rfl
        · exact ih hsaid

section

variable {limit : ℕ} {rng : G} {promptTokens : List Int32} {prefilled : Device × Option R}

/-- The state behind the call for the first token. -/
def firstHead (e : Engine W R L P G) (env : TurnEnv) (params : GenParams P) (rng : G)
    (promptTokens : List Int32) (prefilled : Device × Option R) : GenState G :=
  let first := firstToken e env params prefilled.2 rng
  (turnHead first.2 promptTokens prefilled.1 first.1 (pushRecent [] first.1)
    promptTokens.length).deliver first.1 (first.1 = e.eosId)

theorem InStep.start (c : C) (rng : G) (lastToken : Int32) (pos : ℕ)
    (hnone : tokenCalls prefilled.1.bare = []) :
    InStep 0 (turnHead rng promptTokens prefilled.1 lastToken [] pos) ⟨[], c⟩ where
  calls := hnone.symm
  index := rfl

variable (e env params text cb rng promptTokens) in
theorem InStep.first (c : C) (hnone : tokenCalls prefilled.1.bare = []) :
    InStep 1 (firstHead e env params rng promptTokens prefilled)
      (Talk.say text cb ⟨[], c⟩ (firstToken e env params prefilled.2 rng).1
        ((firstToken e env params prefilled.2 rng).1 = e.eosId)).1 where
  calls := by
    rw [firstHead, GenState.deliver, bare_emit, tokenCalls_append, turnHead, hnone]
    rfl
  index := rfl

/-- The first token does not depend on the stops. -/
theorem decodeFrom_stoppedBy (t : Talk C) :
    decodeFrom e (env.stoppedBy cb t) params limit rng promptTokens prefilled =
      let first := firstToken e env params prefilled.2 rng
      if 0 ≤ first.1 then
        if first.1 = e.eosId then firstHead e env params rng promptTokens prefilled
        else decodeLoop e (env.stoppedBy cb t) params limit (params.maxTokens - 1).toNat 1
          (firstHead e env params rng promptTokens prefilled)
      else decodeLoop e (env.stoppedBy cb t) params limit params.maxTokens.toNat 0
        (turnHead first.2 promptTokens prefilled.1 (promptTokens.getLastD 0) []
          (promptTokens.length - 1)) := rfl

/-- Up to the end of the decode loop a callback that returns each time changes nothing but the
stops. -/
theorem decodeFromCb_ended {c : C} {s' : GenState G} {t' : Talk C}
    (hnone : tokenCalls prefilled.1.bare = [])
    (h : decodeFromCb e env params text cb limit rng promptTokens prefilled c = .ended s' t') :
    t'.calls = tokenCalls s'.dev.bare ∧
      decodeFrom e (env.stoppedBy cb t') params limit rng promptTokens prefilled = s' := by
  have hfirst := InStep.first e env params text cb rng promptTokens c hnone
  rw [decodeFromCb] at h
  rw [decodeFrom_stoppedBy]
  simp only at h ⊢
  split at h
  · rename_i hnonneg
    rw [if_pos hnonneg]
    split at h
    · cases h
    · rename_i t heq
      rw [heq] at hfirst
      split_ifs at h with heos
      · obtain ⟨rfl, rfl⟩ := TalkEnd.ended.inj h
        exact ⟨hfirst.calls, if_pos heos⟩
      · obtain ⟨-, hcalls, hloop⟩ := decodeLoopCb_ended hfirst h
        exact ⟨hcalls, (if_neg heos).trans hloop⟩
  · rename_i hneg
    obtain ⟨-, hcalls, hloop⟩ := decodeLoopCb_ended (InStep.start c _ _ _ hnone) h
    exact ⟨hcalls, (if_neg hneg).trans hloop⟩

variable (e env params text cb limit rng promptTokens) in
theorem decodeFromCb_prefix (c : C) (hnone : tokenCalls prefilled.1.bare = []) :
    (decodeFromCb e env params text cb limit rng promptTokens prefilled c).talk.calls <+:
      tokenCalls (decodeFrom e env params limit rng promptTokens prefilled).dev.bare := by
  have hfirst := InStep.first e env params text cb rng promptTokens c hnone
  rw [decodeFromCb, decodeFrom]
  simp only
  by_cases hnonneg : 0 ≤ (firstToken e env params prefilled.2 rng).1
  · rw [if_pos hnonneg, if_pos hnonneg]
    split
    · rename_i t what heq
      rw [heq] at hfirst
      split_ifs
      · exact hfirst.calls ▸ List.prefix_rfl
      · exact hfirst.calls ▸ decodeLoop_calls _ _ _ _ _ _ _
    · rename_i t heq
      rw [heq] at hfirst
      split_ifs
      · exact hfirst.calls ▸ List.prefix_rfl
      · exact decodeLoopCb_prefix hfirst
  · rw [if_neg hnonneg, if_neg hnonneg]
    exact decodeLoopCb_prefix (InStep.start c _ _ _ hnone)

end

section

variable {dir : String} {prompt : List UInt8} {s : EngineState G} {fs : FileSystem}

/-- What the end of the decode loop makes of the turn. -/
def TalkEnd.finish (r : TalkEnd G C) (f : GenState G → Turn G) : CbTurn G C :=
  match r with
  | .raised engine t what => .threw engine t what
  | .ended s t => .returned (f s) t

/-- How a turn begins, whatever its callback. -/
inductive TurnHead (e : Engine W R L P G) (env : TurnEnv) (params : GenParams P) (dir : String)
    (prompt : List UInt8) (s : EngineState G) (fs : FileSystem) : Prop where
  | refused (what : String) (h : ∀ {C : Type} (text : Int32 → List UInt8) (cb : TokenCallback C)
      (c : C), generateCb e env params text cb dir prompt s fs c = .threw s ⟨[], c⟩ what)
  | overrun (h : ∀ {C : Type} (text : Int32 → List UInt8) (cb : TokenCallback C) (c : C),
      generateCb e env params text cb dir prompt s fs c = .outOfBounds)
  | hydrated (prefilled : Device × Option R) (hnone : tokenCalls prefilled.1.bare = [])
      (h : ∀ {C : Type} (text : Int32 → List UInt8) (cb : TokenCallback C) (c : C),
        generateCb e env params text cb dir prompt s fs c =
          (decodeFromCb e env params text cb s.pool.maxTokens s.rng (e.promptTokens prompt) prefilled
            c).finish (finishTurn e env params dir fs (e.encode prompt).length))
      (hplain : ∀ stop, generate e { env with stop := stop } params dir prompt s fs =
        .returned (finishTurn e env params dir fs (e.encode prompt).length
          (decodeFrom e { env with stop := stop } params s.pool.maxTokens s.rng
            (e.promptTokens prompt) prefilled)))

variable (e env params dir prompt s fs) in
theorem turnHead_cases : TurnHead e env params dir prompt s fs := by
  by_cases hbytes : max 4096 (s.pool.maxTokens * 8) < prompt.length
  · exact .refused _ fun text cb c => if_pos hbytes
  by_cases htokens : s.pool.maxTokens ≤ (e.promptTokens prompt).length
  · exact .refused _ fun text cb c => (if_neg hbytes).trans (if_pos htokens)
  by_cases hreserve : reserveThrows (e.promptTokens prompt).length params.maxTokens = true
  · exact .refused _ fun text cb c =>
      (if_neg hbytes).trans ((if_neg htokens).trans (if_pos hreserve))
  have hadmitted : ¬ promptRefused s.pool.maxTokens params prompt (e.promptTokens prompt) :=
    not_or.mpr ⟨hbytes, not_or.mpr ⟨htokens, hreserve⟩⟩
  have hplain (stop : ℕ → Bool) : generate e { env with stop := stop } params dir prompt s fs = _ :=
    generate_admitted hadmitted
  cases hhydrate : tryHydrateKv env.hydrate dir fs e.fingerprint s.pool
      ((e.promptTokens prompt).map Int32.toUInt32) params.conversationId with
  | threw =>
    refine .refused "cannot create std::vector larger than max_size()" fun text cb c => ?_
    rw [generateCb]
    simp only
    rw [if_neg hbytes, if_neg htokens, if_neg hreserve, hhydrate]
  | outOfBounds =>
    refine .overrun fun text cb c => ?_
    rw [generateCb]
    simp only
    rw [if_neg hbytes, if_neg htokens, if_neg hreserve, hhydrate]
  | returned m q =>
    refine .hydrated (prefill e params ⟨q, if m = 0 then [] else [.hydrated m]⟩ m
      (e.promptTokens prompt)) ?_ (fun text cb c => ?_) fun stop => ?_
    · rw [tokenCalls_prefill, Device.bare]
      split_ifs <;> rfl
    · rw [generateCb]
      simp only
      rw [if_neg hbytes, if_neg htokens, if_neg hreserve, hhydrate]
      rfl
    · rw [hplain stop]
      simp only [hhydrate]
      rfl

theorem tokenCalls_finishTurn (n : ℕ) (g : GenState G) :
    tokenCalls (finishTurn e env params dir fs n g).trace = tokenCalls g.dev.bare := by
  obtain ⟨saved, htrace, hsaved⟩ := finishTurn_trace e env params dir fs n g
  rw [htrace, tokenCalls_append, Device.bare, tokenCalls_bare]
  rcases hsaved with rfl | ⟨k, rfl⟩ <;> exact List.append_nil _

/-- A turn whose callback returns each time is the turn of `generate` under the stops it saw, and
it has been called for each token, in order. -/
theorem generateCb_returned {c : C} {turn : Turn G} {talk : Talk C}
    (h : generateCb e env params text cb dir prompt s fs c = .returned turn talk) :
    generate e (env.stoppedBy cb talk) params dir prompt s fs = .returned turn ∧
      talk.calls = tokenCalls turn.trace := by
  rcases turnHead_cases e env params dir prompt s fs with
    ⟨what, hcb⟩ | hcb | ⟨prefilled, hnone, hcb, hplain⟩
  · rw [hcb] at h
    cases h
  · rw [hcb] at h
    cases h
  · rw [hcb] at h
    cases hfrom : decodeFromCb e env params text cb s.pool.maxTokens s.rng (e.promptTokens prompt)
        prefilled c with
    | raised engine t what =>
      rw [hfrom] at h
      cases h
    | ended s' t' =>
      rw [hfrom] at h
      obtain ⟨rfl, rfl⟩ := CbTurn.returned.inj h
      obtain ⟨hcalls, hstate⟩ := decodeFromCb_ended hnone hfrom
      rw [tokenCalls_finishTurn, ← hcalls]
      refine ⟨(hplain _).trans ?_, rfl⟩
      rw [← hstate]
      rfl

/-- The calls of a turn, also of one that a call throws out of, are the first of those for the
tokens of `generate`. -/
theorem generateCb_prefix {turn : Turn G} (c : C)
    (h : generate e env params dir prompt s fs = .returned turn) :
    (generateCb e env params text cb dir prompt s fs c).Satisfies
      (fun t => t.calls <+: tokenCalls turn.trace) fun t _ => t.calls <+: tokenCalls turn.trace := by
  rcases turnHead_cases e env params dir prompt s fs with
    ⟨what, hcb⟩ | hcb | ⟨prefilled, hnone, hcb, hplain⟩
  · rw [hcb]
    exact List.nil_prefix
  · rw [hcb]
    trivial
  · have hprefix := decodeFromCb_prefix e env params text cb s.pool.maxTokens s.rng
      (e.promptTokens prompt) c hnone
    obtain rfl := TurnResult.returned.inj ((hplain env.stop).symm.trans h)
    rw [hcb, tokenCalls_finishTurn]
    cases hfrom : decodeFromCb e env params text cb s.pool.maxTokens s.rng (e.promptTokens prompt)
        prefilled c with
    | raised engine t what =>
      rw [hfrom] at hprefix
      exact hprefix
    | ended s' t' =>
      rw [hfrom] at hprefix
      exact hprefix

end

end

/-- It stops the engine with its second call. -/
def twiceCallback : TokenCallback ℕ where
  call calls _ _ := (calls + 1, none)
  stopped calls := decide (2 ≤ calls)

theorem generateCb_unstopped_twice :
    (generateCb (constantEngine Unit) calmEnv twoTokens (fun _ => []) twiceCallback "kv" [5, 6, 7]
      emptySession.engine emptySession.fs 0).Satisfies
        (SaidBeforeStop (fun _ => []) twiceCallback 0)
        fun t _ => SaidBeforeStop (fun _ => []) twiceCallback 0 t :=
  generateCb_unstopped (by decide)

/-- The second of three tokens is the last one. -/
theorem generateCb_returned_twice :
    ∃ turn talk, generateCb (constantEngine Unit) calmEnv { twoTokens with maxTokens := 3 }
        (fun _ => []) twiceCallback "kv" [5, 6, 7] emptySession.engine emptySession.fs 0 =
          .returned turn talk ∧
      generate (constantEngine Unit) (calmEnv.stoppedBy twiceCallback talk)
        { twoTokens with maxTokens := 3 } "kv" [5, 6, 7] emptySession.engine emptySession.fs =
          .returned turn ∧
      talk.calls = tokenCalls turn.trace ∧ talk.calls.length = 2 := by
  have hreturned : ∃ turn talk, generateCb (constantEngine Unit) calmEnv
      { twoTokens with maxTokens := 3 } (fun _ => []) twiceCallback "kv" [5, 6, 7]
      emptySession.engine emptySession.fs 0 = .returned turn talk ∧ talk.calls.length = 2 :=
    ⟨_, _, rfl, by decide +kernel⟩
  obtain ⟨turn, talk, h, hlength⟩ := hreturned
  obtain ⟨hplain, hcalls⟩ := generateCb_returned h
  exact ⟨turn, talk, h, hplain, hcalls, hlength⟩

end JLLM
