import ReflexLlm.Proofs.Transparent
import ReflexLlm.Proofs.TurnTrace

/-! The generation cap and the calls of `token_cb`. The loop counts its calls and stops
at `max_tokens`, at the end token and at the context limit; Path A delivers the first
token before any of these is asked. -/

namespace JLLM

variable {W R L P G : Type}

/-- The calls of `token_cb`: the token and `is_eos`. -/
def tokenCalls (trace : List Event) : List (Int32 × Bool) :=
  trace.filterMap fun
    | .delivered token isEos => some (token, isEos)
    | _ => none

@[simp] theorem tokenCalls_append (trace trace' : List Event) :
    tokenCalls (trace ++ trace') = tokenCalls trace ++ tokenCalls trace' :=
  List.filterMap_append

theorem tokenCalls_bare (trace : List Event) : tokenCalls (trace.map Event.bare) = tokenCalls trace := by
  rw [tokenCalls, List.filterMap_map]
  refine List.filterMap_congr fun event _ => ?_
  cases event <;> rfl

theorem forward_mem_bare {trace : List Event} {p : ℕ} {token : Int32} :
    .forward p token ∈ trace.map Event.bare ↔ .forward p token ∈ trace := by
  rw [List.mem_map]
  constructor
  · rintro ⟨event, hmem, heq⟩
    cases event <;> cases heq
    exact hmem
  · exact fun hmem => ⟨_, hmem, rfl⟩

/-- What the calls and the passes of a turn keep to: each call is counted, the count stays
below the cap, `is_eos` is for the end token and the last call, and no pass reaches the
limit of the cache. -/
structure ProtocolKept (e : Engine W R L P G) (limit : ℕ) (maxTokens : ℤ) (turn : Turn G) : Prop
    where
  count : turn.completionTokens = (tokenCalls turn.trace).length
  cap : (turn.completionTokens : ℤ) ≤ max maxTokens 0
  eos : ∀ before token after, tokenCalls turn.trace = before ++ (token, true) :: after →
    token = e.eosId ∧ after = []
  positions : ∀ p token, .forward p token ∈ turn.trace → p < limit

/-- The part of it that the end of a turn keeps in any case. -/
structure CallsKept (e : Engine W R L P G) (limit : ℕ) (s : GenState G) : Prop where
  count : s.completionTokens = (tokenCalls s.dev.bare).length
  eos : ∀ before token after, tokenCalls s.dev.bare = before ++ (token, true) :: after →
    token = e.eosId ∧ after = []
  positions : ∀ p token, .forward p token ∈ s.dev.bare → p < limit

/-- At a loop head no call was for the end token. -/
structure CallsOpen (limit : ℕ) (s : GenState G) : Prop where
  count : s.completionTokens = (tokenCalls s.dev.bare).length
  noEos : ∀ call ∈ tokenCalls s.dev.bare, call.2 = false
  positions : ∀ p token, .forward p token ∈ s.dev.bare → p < limit

variable {e : Engine W R L P G} {env : TurnEnv} {params : GenParams P} {limit : ℕ}

theorem CallsOpen.kept {s : GenState G} (h : CallsOpen limit s) : CallsKept e limit s where
  count := h.count
  eos := by
    intro before token after heq
    have hfalse := h.noEos (token, true) (by rw [heq]; simp)
    cases hfalse
  positions := h.positions

/-- Behind calls that are not for the end token, the next one is the last that can be. -/
theorem last_eos (calls : List (Int32 × Bool)) {eosId token : Int32}
    (hopen : ∀ call ∈ calls, call.2 = false) {before after : List (Int32 × Bool)} {t : Int32}
    (h : calls ++ [(token, decide (token = eosId))] = before ++ (t, true) :: after) :
    t = eosId ∧ after = [] := by
  rcases List.append_eq_append_iff.mp h with ⟨more, rfl, hmore⟩ | ⟨more, rfl, hmore⟩
  · cases more with
    | nil =>
      obtain ⟨hcall, rfl⟩ := List.cons.inj hmore
      obtain ⟨rfl, heos⟩ := Prod.mk.inj hcall
      exact ⟨of_decide_eq_true heos, rfl⟩
    | cons call more => simp at hmore
  · cases more with
    | nil =>
      obtain ⟨hcall, rfl⟩ := List.cons.inj hmore
      obtain ⟨rfl, heos⟩ := Prod.mk.inj hcall
      exact ⟨of_decide_eq_true heos.symm, rfl⟩
    | cons call more =>
      obtain ⟨rfl, -⟩ := List.cons.inj hmore
      cases hopen (t, true) (by simp)

theorem tokenCalls_rows {events : List Event}
    (h : ∀ event ∈ events, ∃ l p isValue, event = rowEvent l p isValue) : tokenCalls events = [] := by
  refine List.filterMap_eq_nil_iff.mpr fun event hevent => ?_
  obtain ⟨l, p, isValue, rfl⟩ := h event hevent
  rfl

theorem forward_not_mem_rows {events : List Event}
    (h : ∀ event ∈ events, ∃ l p isValue, event = rowEvent l p isValue) (p : ℕ) (token : Int32) :
    .forward p token ∉ events := by
  intro hmem
  obtain ⟨l, q, isValue, heq⟩ := h _ hmem
  cases heq

theorem tokenRows_rows (nLayers q : ℕ) :
    ∀ event ∈ tokenRows nLayers q, ∃ l p isValue, event = rowEvent l p isValue := by
  intro event hevent
  obtain ⟨l, isValue, rfl, -⟩ := mem_tokenRows.mp hevent
  exact ⟨l, q, isValue, rfl⟩

theorem layerRows_rows (l start n : ℕ) :
    ∀ event ∈ layerRows l start n, ∃ l p isValue, event = rowEvent l p isValue := by
  intro event hevent
  obtain ⟨p, -, hp⟩ := List.mem_flatMap.mp hevent
  obtain ⟨isValue, rfl⟩ := mem_rowPair.mp hp
  exact ⟨l, p, isValue, rfl⟩

theorem prefillRows_rows (start : ℕ) (promptTokens : List Int32) :
    ∀ event ∈ prefillRows e start promptTokens, ∃ l p isValue, event = rowEvent l p isValue := by
  intro event hevent
  obtain ⟨l, p, isValue, rfl, -⟩ := (mem_prefillRows e).mp hevent
  exact ⟨l, p, isValue, rfl⟩

section

variable {s s' : GenState G} {token : Int32} (h : CallsOpen limit s) (hpos : s.pos < limit)
  (hiter : Iterated e s s' token)

include hiter

theorem Iterated.tokenCalls :
    tokenCalls s'.dev.bare = tokenCalls s.dev.bare ++ [(token, decide (token = e.eosId))] := by
  rw [hiter.bare, tokenCalls_append]
  congr 1
  rw [← List.singleton_append, tokenCalls_append, tokenCalls_append,
    tokenCalls_rows (tokenRows_rows _ _)]
  rfl

theorem Iterated.forward {p : ℕ} {t : Int32} (hmem : .forward p t ∈ s'.dev.bare) :
    .forward p t ∈ s.dev.bare ∨ p = s.pos ∧ t = s.lastToken := by
  rcases hiter.mem_bare hmem with hmem | hmem | hmem | hmem
  · exact .inl hmem
  · cases hmem
    exact .inr ⟨rfl, rfl⟩
  · exact absurd hmem (forward_not_mem_rows (tokenRows_rows _ _) p t)
  · cases hmem

include h hpos

theorem CallsOpen.iterate : CallsKept e limit s' where
  count := by
    rw [hiter.completionTokens, hiter.tokenCalls, List.length_append, h.count]
    rfl
  eos := by
    intro before t after heq
    rw [hiter.tokenCalls] at heq
    exact last_eos _ h.noEos heq
  positions := by
    intro p t hmem
    rcases hiter.forward hmem with hmem | ⟨rfl, -⟩
    · exact h.positions p t hmem
    · exact hpos

theorem CallsOpen.next (hne : token ≠ e.eosId) : CallsOpen limit s' where
  count := (h.iterate hpos hiter).count
  noEos := by
    rw [hiter.tokenCalls, List.forall_mem_append, List.forall_mem_singleton]
    exact ⟨h.noEos, decide_eq_false hne⟩
  positions := (h.iterate hpos hiter).positions

end

theorem CallsOpen.decodeLoop {s : GenState G} (h : CallsOpen limit s) (n i : ℕ) :
    CallsKept e limit (decodeLoop e env params limit n i s) :=
  (decodeLoop_rule (CallsOpen limit) (CallsKept e limit) (fun _ hs => hs.kept)
    (fun _ hs => ⟨hs.count, hs.kept.eos, hs.positions⟩)
    (fun _ _ _ hs hpos hiter _ => hs.iterate hpos hiter)
    (fun _ _ _ hs hpos hiter hne => hs.next hpos hiter hne) n i s h).2

/-! ### From the prefill to the end of the turn -/

theorem tokenCalls_prefillBatched {K : Kernels W R} {d : ModelDims} {kvInt8 : Bool}
    {weights : ℕ → LayerWeights W} (nLayers start : ℕ) (s : Device) (tokens : List Int32) :
    tokenCalls (prefillBatched K Device.mem d kvInt8 weights nLayers start s tokens).1.bare =
      tokenCalls s.bare := by
  rw [prefillBatched]
  induction nLayers with
  | zero => rfl
  | succ n ih =>
    rw [List.range_succ, List.foldl_append, List.foldl_cons, List.foldl_nil]
    simp only [transformerPrefill, bare_prefillStoreLoop, tokenCalls_append]
    rw [tokenCalls_rows (layerRows_rows _ _ _), List.append_nil]
    exact ih

theorem tokenCalls_prefillPerToken {K : Kernels W R} {d : ModelDims} {kvInt8 : Bool}
    {weights : ℕ → LayerWeights W} (nLayers start : ℕ) (s : Device) (last : Option R)
    (tokens : List Int32) :
    tokenCalls (prefillPerToken K Device.mem d kvInt8 weights nLayers start s last tokens).1.bare =
      tokenCalls s.bare := by
  have hrows : tokenCalls ((List.range' start tokens.length).flatMap (tokenRows nLayers)) = [] := by
    refine tokenCalls_rows fun event hevent => ?_
    obtain ⟨p, -, hp⟩ := List.mem_flatMap.mp hevent
    exact tokenRows_rows nLayers p event hp
  rw [bare_prefillPerToken, tokenCalls_append, hrows, List.append_nil]

theorem tokenCalls_prefillEvents (m : ℕ) (promptTokens : List Int32) :
    tokenCalls (prefillEvents m promptTokens) = [] := by
  refine List.filterMap_eq_nil_iff.mpr fun event hevent => ?_
  obtain ⟨t, -, rfl⟩ := List.mem_map.mp hevent
  rfl

variable (e params) in
/-- No token is delivered before the prefill is over. -/
theorem tokenCalls_prefill (dev : Device) (m : ℕ) (promptTokens : List Int32) :
    tokenCalls (prefill e params dev m promptTokens).1.bare = tokenCalls dev.bare := by
  have hemit : ((promptTokens.drop m).zipIdx m).foldl
      (fun s t => s.emit (.forward t.2 t.1)) dev =
      { dev with trace := dev.trace ++ prefillEvents m promptTokens } := emit_foldl _ _ _
  have hcalls : tokenCalls (Device.bare { dev with trace := dev.trace ++ prefillEvents m promptTokens }) =
      tokenCalls dev.bare := by
    rw [Device.bare, tokenCalls_bare, tokenCalls_append, tokenCalls_prefillEvents, List.append_nil,
      Device.bare, tokenCalls_bare]
  rw [prefill]
  simp only [hemit]
  split_ifs
  · rfl
  · rw [tokenCalls_prefillBatched, hcalls]
  · rw [tokenCalls_prefillPerToken, hcalls]

/-- A prefill calls nobody, and its passes are for the positions of the prompt. -/
structure Prefilled (promptTokens : List Int32) (dev : Device) : Prop where
  noCalls : tokenCalls dev.bare = []
  positions : ∀ p token, .forward p token ∈ dev.bare → p < promptTokens.length

theorem mem_prefillEvents {m p : ℕ} {promptTokens : List Int32} {token : Int32}
    (h : .forward p token ∈ prefillEvents m promptTokens) : p < promptTokens.length := by
  obtain ⟨t, ht, heq⟩ := List.mem_map.mp h
  cases heq
  have hlt := List.snd_lt_of_mem_zipIdx ht
  have hle := List.le_snd_of_mem_zipIdx ht
  rw [List.length_drop] at hlt
  omega

variable (params) in
theorem prefill_prefilled (hK : e.kernels.SameRows) (promptTokens : List Int32) (m : ℕ)
    (q : KVCachePool) :
    Prefilled promptTokens
      (prefill e params ⟨q, if m = 0 then [] else [.hydrated m]⟩ m promptTokens).1 := by
  have hbare := bare_prefill_hydrated e params hK q m promptTokens
  have hrows := prefillRows_rows (e := e) m promptTokens
  constructor
  · rw [tokenCalls_prefill, Device.bare]
    split_ifs <;> rfl
  · intro p token hmem
    rw [hbare, List.mem_append, List.mem_append] at hmem
    rcases hmem with (hmem | hmem) | hmem
    · split_ifs at hmem <;> simp at hmem
    · exact mem_prefillEvents hmem
    · exact absurd hmem (forward_not_mem_rows hrows p token)

section

variable {promptTokens : List Int32} {dev : Device} (h : Prefilled promptTokens dev)
  (hlimit : promptTokens.length < limit)

include h hlimit

theorem Prefilled.fallback (rng : G) (lastToken : Int32) (pos : ℕ) :
    CallsOpen limit (turnHead rng promptTokens dev lastToken [] pos) where
  count := by
    rw [show (turnHead rng promptTokens dev lastToken [] pos).dev = dev from rfl, h.noCalls]
    rfl
  noEos := by
    rw [show (turnHead rng promptTokens dev lastToken [] pos).dev = dev from rfl, h.noCalls]
    exact fun _ hc => absurd hc List.not_mem_nil
  positions := fun p token hmem => (h.positions p token hmem).trans hlimit

theorem Prefilled.pathA (params : GenParams P) (rng : G) (x : R) :
    CallsKept e limit (pathAHead e params rng promptTokens dev x) ∧
      ((e.sampleToken (e.logits x) params.sampling [] rng).1 ≠ e.eosId →
        CallsOpen limit (pathAHead e params rng promptTokens dev x)) := by
  have hbare : (pathAHead e params rng promptTokens dev x).dev.bare =
      dev.bare ++ [.delivered (e.sampleToken (e.logits x) params.sampling [] rng).1
        (decide ((e.sampleToken (e.logits x) params.sampling [] rng).1 = e.eosId))] := bare_emit _ _
  have hcalls : tokenCalls (pathAHead e params rng promptTokens dev x).dev.bare =
      [((e.sampleToken (e.logits x) params.sampling [] rng).1,
        decide ((e.sampleToken (e.logits x) params.sampling [] rng).1 = e.eosId))] := by
    rw [hbare, tokenCalls_append, h.noCalls]
    rfl
  have hpositions : ∀ p token,
      .forward p token ∈ (pathAHead e params rng promptTokens dev x).dev.bare → p < limit := by
    intro p token hmem
    rw [hbare, List.mem_append] at hmem
    rcases hmem with hmem | hmem
    · exact (h.positions p token hmem).trans hlimit
    · simp at hmem
  refine ⟨⟨by rw [hcalls]; rfl, fun before token after heq => ?_, hpositions⟩,
    fun hne => ⟨by rw [hcalls]; rfl, ?_, hpositions⟩⟩
  · rw [hcalls] at heq
    exact last_eos [] (fun _ hc => absurd hc List.not_mem_nil) heq
  · rw [hcalls, List.forall_mem_singleton]
    exact decide_eq_false hne

/-- What a turn keeps in any case. -/
theorem Prefilled.decodeFrom (rng : G) (lastPrefillX : Option R) :
    CallsKept e limit (decodeFrom e env params limit rng promptTokens (dev, lastPrefillX)) := by
  by_cases hfallback : NoFirstToken env lastPrefillX
  · rw [decodeFrom_fallback (dev, lastPrefillX) hfallback]
    exact (h.fallback hlimit rng _ _).decodeLoop _ _
  · rw [NoFirstToken, not_or] at hfallback
    obtain ⟨x, rfl⟩ := Option.ne_none_iff_exists'.mp hfallback.1
    rw [decodeFrom_pathA (by simpa using hfallback.2)]
    obtain ⟨hkept, hopen⟩ := h.pathA (e := e) hlimit params rng x
    split_ifs with heos
    · exact hkept
    · exact (hopen heos).decodeLoop _ _

end

variable (e env params) in
/-- Without Path A the cap is kept; with it, if it is not below one. -/
theorem decodeFrom_cap (limit : ℕ) (rng : G) (promptTokens : List Int32)
    (prefilled : Device × Option R) :
    ((decodeFrom e env params limit rng promptTokens prefilled).completionTokens : ℤ) ≤
        max params.maxTokens 0 ↔ 1 ≤ params.maxTokens ∨ NoFirstToken env prefilled.2 := by
  by_cases hfallback : NoFirstToken env prefilled.2
  · rw [decodeFrom_fallback prefilled hfallback]
    have hcount := decodeLoop_completionTokens e params env limit
      params.maxTokens.toNat 0 (turnHead rng promptTokens prefilled.1 (promptTokens.getLastD 0) []
        (promptTokens.length - 1))
    have hzero : (turnHead rng promptTokens prefilled.1 (promptTokens.getLastD 0) []
        (promptTokens.length - 1)).completionTokens = 0 := rfl
    refine ⟨fun _ => .inr hfallback, fun _ => ?_⟩
    omega
  · obtain ⟨dev, lastPrefillX⟩ := prefilled
    rw [or_iff_left hfallback]
    rw [NoFirstToken, not_or] at hfallback
    obtain ⟨x, rfl⟩ := Option.ne_none_iff_exists'.mp hfallback.1
    rw [decodeFrom_pathA (by simpa using hfallback.2)]
    have hone : (pathAHead e params rng promptTokens dev x).completionTokens = 1 := rfl
    split_ifs
    · rw [hone]
      omega
    · have hcount := decodeLoop_completionTokens e params env limit
        (params.maxTokens - 1).toNat 1 (pathAHead e params rng promptTokens dev x)
      by_cases hmax : 1 ≤ params.maxTokens
      · refine ⟨fun _ => hmax, fun _ => ?_⟩
        omega
      · have hn : (params.maxTokens - 1).toNat = 0 := by omega
        rw [hn, decodeLoop, hone]
        omega

variable (e env params) in
theorem finishTurn_trace (dir : String) (fs : FileSystem) (n : ℕ) (s : GenState G) :
    ∃ saved : List Event, (finishTurn e env params dir fs n s).trace = s.dev.trace ++ saved ∧
      (saved = [] ∨ ∃ k, saved = [.saved k]) := by
  simp only [finishTurn]
  split_ifs
  · exact ⟨_, rfl, .inr ⟨_, rfl⟩⟩
  · exact ⟨[], (List.append_nil _).symm, .inl rfl⟩

/-- The save at the end of a turn neither calls nor starts a pass. -/
theorem CallsKept.finishTurn {s : GenState G} (h : CallsKept e limit s) (dir : String)
    (fs : FileSystem) (n : ℕ) (hcap : (s.completionTokens : ℤ) ≤ max params.maxTokens 0) :
    ProtocolKept e limit params.maxTokens (finishTurn e env params dir fs n s) := by
  obtain ⟨saved, htrace, hsaved⟩ := finishTurn_trace e env params dir fs n s
  have hcalls : tokenCalls (JLLM.finishTurn e env params dir fs n s).trace =
      tokenCalls s.dev.bare := by
    rw [htrace, tokenCalls_append, Device.bare, tokenCalls_bare]
    rcases hsaved with rfl | ⟨k, rfl⟩
    · exact List.append_nil _
    · exact List.append_nil _
  refine ⟨?_, hcap, ?_, ?_⟩
  · rw [hcalls]
    exact h.count
  · rw [hcalls]
    exact h.eos
  · intro p token hmem
    rw [htrace, List.mem_append] at hmem
    rcases hmem with hmem | hmem
    · exact h.positions p token (forward_mem_bare.mpr hmem)
    · rcases hsaved with rfl | ⟨k, rfl⟩ <;> simp at hmem

/-- Path A does not sample if its logits fail or hydration covered the prompt. -/
theorem noFirstToken_iff (hK : e.kernels.SameRows) {promptTokens : List Int32} {m : ℕ}
    (hm : m ≤ promptTokens.length) (q : KVCachePool) :
    NoFirstToken env
        (prefill e params ⟨q, if m = 0 then [] else [.hydrated m]⟩ m promptTokens).2 ↔
      env.firstLogitsOk = false ∨ m = promptTokens.length := by
  rw [NoFirstToken, or_comm, ← Option.not_isSome_iff_eq_none, (bare_prefill e params hK _ _ _).2]
  exact or_congr_right (by omega)

/-- A turn keeps the protocol and its cap if and only if the cap is at least one or Path A
does not sample. -/
theorem generate_protocol_iff (e : Engine W R L P G) (hK : e.kernels.SameRows) (env : TurnEnv)
    (params : GenParams P) (dir : String) (prompt : List UInt8) (s : EngineState G)
    (fs : FileSystem) (turn : Turn G)
    (h : generate e env params dir prompt s fs = .returned turn) :
    ProtocolKept e s.pool.maxTokens params.maxTokens turn ↔
      1 ≤ params.maxTokens ∨ env.firstLogitsOk = false ∨
        ∃ q, tryHydrateKv env.hydrate dir fs e.fingerprint s.pool
          ((e.promptTokens prompt).map Int32.toUInt32) params.conversationId =
            .returned (e.promptTokens prompt).length q := by
  obtain ⟨m, q, hhydrate, hlimit, rfl⟩ := generate_eq_returned h
  have hm := tryHydrateKv_le hhydrate
  rw [List.length_map] at hm
  have hkept : CallsKept e s.pool.maxTokens
      (turnState e env params s.pool.maxTokens s.rng (e.promptTokens prompt) m q) :=
    (prefill_prefilled params hK (e.promptTokens prompt) m q).decodeFrom hlimit s.rng _
  have hcap := decodeFrom_cap e env params s.pool.maxTokens s.rng
    (e.promptTokens prompt)
    (prefill e params ⟨q, if m = 0 then [] else [.hydrated m]⟩ m (e.promptTokens prompt))
  have hcovered : (∃ q, tryHydrateKv env.hydrate dir fs e.fingerprint s.pool
      ((e.promptTokens prompt).map Int32.toUInt32) params.conversationId =
        .returned (e.promptTokens prompt).length q) ↔ m = (e.promptTokens prompt).length := by
    rw [hhydrate]
    constructor
    · rintro ⟨q', heq⟩
      exact (HydrateResult.returned.inj heq).1
    · rintro rfl
      exact ⟨q, rfl⟩
  rw [hcovered, ← noFirstToken_iff hK hm q, ← hcap]
  exact ⟨ProtocolKept.cap, hkept.finishTurn dir fs _⟩

theorem generate_protocol_iff_two :
    ∃ turn, generate (constantEngine Unit) calmEnv twoTokens "kv" [5, 6, 7] emptySession.engine
        emptySession.fs = .returned turn ∧
      (ProtocolKept (constantEngine Unit) 8 2 turn ↔ 1 ≤ (2 : ℤ) ∨ calmEnv.firstLogitsOk = false ∨
        ∃ q, tryHydrateKv calmEnv.hydrate "kv" emptySession.fs (constantEngine Unit).fingerprint
          emptySession.engine.pool (((constantEngine Unit).promptTokens [5, 6, 7]).map Int32.toUInt32)
          "chat" = .returned ((constantEngine Unit).promptTokens [5, 6, 7]).length q) := by
  obtain ⟨turn, h⟩ : ∃ turn, generate (constantEngine Unit) calmEnv twoTokens "kv" [5, 6, 7]
      emptySession.engine emptySession.fs = .returned turn := ⟨_, rfl⟩
  exact ⟨turn, h, generate_protocol_iff (constantEngine Unit) byteSumKernels_rowWise.sameRows calmEnv
    twoTokens "kv" [5, 6, 7] emptySession.engine emptySession.fs turn h⟩

/-- No tokens wanted. -/
def noTokens : GenParams Unit := ⟨0, false, "", ()⟩

/-- A cold turn with `max_tokens` 0 delivers a token. -/
theorem generate_exceeds_cap :
    ¬ ∀ (env : TurnEnv) (params : GenParams Unit) (prompt : List UInt8) (turn : Turn Unit),
      generate (constantEngine Unit) env params "kv" prompt emptySession.engine emptySession.fs =
        .returned turn → ProtocolKept (constantEngine Unit) 8 params.maxTokens turn := by
  intro h
  have hturn : ∃ turn, generate (constantEngine Unit) calmEnv noTokens "kv" [5, 6, 7]
      emptySession.engine emptySession.fs = .returned turn ∧ turn.completionTokens = 1 := ⟨_, rfl, rfl⟩
  obtain ⟨turn, hreturned, hone⟩ := hturn
  have hcap := (h calmEnv noTokens [5, 6, 7] turn hreturned).cap
  rw [hone] at hcap
  exact absurd hcap (by decide)

end JLLM
