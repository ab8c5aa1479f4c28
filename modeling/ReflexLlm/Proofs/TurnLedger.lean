import ReflexLlm.Proofs.TurnCap

/-! The token ledger of a turn. Replaying the events of a turn tells which token each row
was last written for; at every loop head and where the turn is saved, these are the tokens
of `kv_tokens`, position by position, and no row is written behind them. -/

namespace JLLM

/-- The token whose pass runs at a position, and the token a row was last written for. -/
structure Ledger where
  passing : ℕ → Option UInt32
  owner : ℕ → ℕ → Bool → Option UInt32

/-- `cached` are the tokens of the file that is hydrated; its fill leaves the other rows
to nobody. -/
def Ledger.step (cached : List UInt32) (g : Ledger) : Event → Ledger
  | .forward p token => { g with passing := Function.update g.passing p (some token.toUInt32) }
  | .rowWrite l p isValue _ _ =>
      { g with
        owner := fun l' p' isValue' =>
          if (l', p', isValue') = (l, p, isValue) then g.passing p else g.owner l' p' isValue' }
  | .hydrated m => { g with owner := fun _ p _ => if p < m then cached[p]? else none }
  | .delivered _ _ => g
  | .saved _ => g

/-- The ledger after the events of a turn. -/
def ledgerOf (cached : List UInt32) (trace : List Event) : Ledger :=
  trace.foldl (Ledger.step cached) ⟨fun _ => none, fun _ _ _ => none⟩

variable {W R L P G : Type}

/-- The rows of the first positions belong to `kv_tokens`, no row is written behind them,
and they fit into the cache. -/
structure LedgerMatches (nLayers limit : ℕ) (cached : List UInt32) (s : GenState G) : Prop where
  rows : ∀ l p isValue, l < nLayers → p < s.kvTokens.length →
    (ledgerOf cached s.dev.trace).owner l p isValue = s.kvTokens[p]?
  inside : ∀ l p isValue dst len, .rowWrite l p isValue dst len ∈ s.dev.trace →
    p < s.kvTokens.length
  fits : s.kvTokens.length ≤ limit

/-- The two ways in which `pos`, `last_token_` and `kv_tokens` fit together at a loop head. -/
def HeadAligned (s : GenState G) : Prop :=
  (s.pos = s.kvTokens.length ∧
      (tokenCalls s.dev.trace).getLast?.map (·.1) = some s.lastToken) ∨
    (s.pos + 1 = s.kvTokens.length ∧ s.kvTokens[s.pos]? = some s.lastToken.toUInt32)

/-! ### Replaying events -/

section

variable {cached : List UInt32}

theorem ledgerOf_append (trace more : List Event) :
    ledgerOf cached (trace ++ more) = more.foldl (Ledger.step cached) (ledgerOf cached trace) :=
  List.foldl_append

theorem ledgerOf_bare (trace : List Event) :
    ledgerOf cached (trace.map Event.bare) = ledgerOf cached trace := by
  rw [ledgerOf, List.foldl_map, ledgerOf]
  congr 1
  funext g event
  cases event <;> rfl

theorem rowWrite_mem_bare {trace : List Event} {l p len : ℕ} {isValue : Bool} {dst : Ptr}
    (h : .rowWrite l p isValue dst len ∈ trace) : rowEvent l p isValue ∈ trace.map Event.bare :=
  List.mem_map.mpr ⟨_, h, rfl⟩

theorem rowWrite_of_bare {trace : List Event} {l p : ℕ} {isValue : Bool}
    (h : rowEvent l p isValue ∈ trace.map Event.bare) :
    ∃ dst len, .rowWrite l p isValue dst len ∈ trace := by
  obtain ⟨event, hevent, heq⟩ := List.mem_map.mp h
  cases event with
  | rowWrite l' p' isValue' dst len =>
    cases heq
    exact ⟨dst, len, hevent⟩
  | forward p' token => cases heq
  | hydrated m => cases heq
  | delivered token isEos => cases heq
  | saved n => cases heq

variable (cached) in
/-- Rows that are written belong to the tokens whose passes run at their positions. -/
theorem replay_rows {events : List Event}
    (h : ∀ event ∈ events, ∃ l p isValue, event = rowEvent l p isValue) (g : Ledger) :
    (events.foldl (Ledger.step cached) g).passing = g.passing ∧
      ∀ l p isValue, (events.foldl (Ledger.step cached) g).owner l p isValue =
        if rowEvent l p isValue ∈ events then g.passing p else g.owner l p isValue := by
  induction events generalizing g with
  | nil => exact ⟨rfl, fun _ _ _ => rfl⟩
  | cons event events ih =>
    obtain ⟨⟨l, p, isValue, rfl⟩, hrest⟩ := List.forall_mem_cons.mp h
    obtain ⟨hpassing, howner⟩ := ih hrest (Ledger.step cached g (rowEvent l p isValue))
    refine ⟨hpassing, fun l' p' isValue' => ?_⟩
    have hsame : rowEvent l' p' isValue' = rowEvent l p isValue ↔
        (l', p', isValue') = (l, p, isValue) := by
      simp [rowEvent]
    rw [List.foldl_cons, howner]
    by_cases hin : rowEvent l' p' isValue' ∈ events
    · rw [if_pos hin, if_pos (List.mem_cons_of_mem _ hin)]
      rfl
    · rw [if_neg hin]
      by_cases heq : (l', p', isValue') = (l, p, isValue)
      · rw [if_pos (List.mem_cons.mpr (.inl (hsame.mpr heq)))]
        obtain ⟨rfl, rfl, rfl⟩ := heq
        exact if_pos rfl
      · have hnot : rowEvent l' p' isValue' ∉ rowEvent l p isValue :: events := by
          rw [List.mem_cons, hsame]
          exact not_or.mpr ⟨heq, hin⟩
        rw [if_neg hnot]
        exact if_neg heq

variable (cached) in
/-- The passes of a prefill begin with the tokens of the prompt. -/
theorem replay_prefillEvents (rest : List Int32) (m : ℕ) (g : Ledger) :
    (((rest.zipIdx m).map fun t => Event.forward t.2 t.1).foldl (Ledger.step cached) g).owner =
        g.owner ∧
      ∀ p, (((rest.zipIdx m).map fun t => Event.forward t.2 t.1).foldl (Ledger.step cached) g).passing
        p = if m ≤ p ∧ p < m + rest.length then (rest[p - m]?).map Int32.toUInt32 else g.passing p := by
  induction rest generalizing m g with
  | nil => exact ⟨rfl, fun p => (if_neg (by simp)).symm⟩
  | cons t rest ih =>
    rw [List.zipIdx_cons, List.map_cons, List.foldl_cons, List.length_cons]
    obtain ⟨howner, hpassing⟩ := ih (m + 1) (Ledger.step cached g (.forward m t))
    refine ⟨howner, fun p => ?_⟩
    rw [hpassing]
    by_cases hp : p = m
    · subst hp
      rw [if_neg (by omega), if_pos (by omega), Nat.sub_self]
      exact Function.update_self _ _ _
    · have hupdate : (Ledger.step cached g (.forward m t)).passing p = g.passing p :=
        Function.update_of_ne hp _ _
      rw [hupdate]
      by_cases hin : m + 1 ≤ p ∧ p < m + 1 + rest.length
      · rw [if_pos hin, if_pos (by omega), show p - m = p - (m + 1) + 1 by omega,
          List.getElem?_cons_succ]
      · rw [if_neg hin, if_neg (by omega)]

theorem rowEvent_mem_tokenRows {nLayers l p q : ℕ} {isValue : Bool} :
    rowEvent l p isValue ∈ tokenRows nLayers q ↔ l < nLayers ∧ p = q := by
  rw [mem_tokenRows]
  constructor
  · rintro ⟨l', isValue', heq, hl⟩
    cases heq
    exact ⟨hl, rfl⟩
  · rintro ⟨hl, rfl⟩
    exact ⟨l, isValue, rfl, hl⟩

theorem rowEvent_mem_prefillRows {e : Engine W R L P G} {start l p : ℕ} {isValue : Bool}
    {promptTokens : List Int32} : rowEvent l p isValue ∈ prefillRows e start promptTokens ↔
      l < e.dims.nLayers ∧ start ≤ p ∧ p < promptTokens.length := by
  rw [mem_prefillRows]
  constructor
  · rintro ⟨l', p', isValue', heq, hrest⟩
    cases heq
    exact hrest
  · exact fun hrest => ⟨l, p, isValue, rfl, hrest⟩

/-! ### One iteration -/

variable {e : Engine W R L P G} {env : TurnEnv} {params : GenParams P} {limit : ℕ}

/-- The rows of the position of an iteration pass to its token, the others stay. -/
theorem Iterated.owner {s s' : GenState G} {token : Int32} (hiter : Iterated e s s' token)
    {l : ℕ} (hl : l < e.dims.nLayers) (p : ℕ) (isValue : Bool) :
    (ledgerOf cached s'.dev.trace).owner l p isValue =
      if p = s.pos then some s.lastToken.toUInt32
      else (ledgerOf cached s.dev.trace).owner l p isValue := by
  have hrows := replay_rows cached (tokenRows_rows e.dims.nLayers s.pos)
    (Ledger.step cached (ledgerOf cached s.dev.trace) (.forward s.pos s.lastToken))
  have hreplay : (ledgerOf cached s'.dev.trace).owner = ((tokenRows e.dims.nLayers s.pos).foldl
      (Ledger.step cached) (Ledger.step cached (ledgerOf cached s.dev.trace)
        (.forward s.pos s.lastToken))).owner := by
    rw [← ledgerOf_bare, ← Device.bare, hiter.bare, ledgerOf_append, Device.bare, ledgerOf_bare,
      List.foldl_cons, List.foldl_append]
    rfl
  rw [hreplay, hrows.2]
  by_cases hp : p = s.pos
  · rw [if_pos (rowEvent_mem_tokenRows.mpr ⟨hl, hp⟩), if_pos hp, hp]
    exact Function.update_self _ _ _
  · rw [if_neg fun hmem => hp (rowEvent_mem_tokenRows.mp hmem).2, if_neg hp]
    rfl

theorem Iterated.rowEvent {s s' : GenState G} {token : Int32} (hiter : Iterated e s s' token)
    {l p : ℕ} {isValue : Bool} (hmem : rowEvent l p isValue ∈ s'.dev.bare) :
    rowEvent l p isValue ∈ s.dev.bare ∨ p = s.pos := by
  rcases hiter.mem_bare hmem with hmem | hmem | hmem | hmem
  · exact .inl hmem
  · cases hmem
  · exact .inr (rowEvent_mem_tokenRows.mp hmem).2
  · cases hmem

/-- What the pass of an iteration is recorded as: its token at its position, the last one. -/
theorem HeadAligned.committed {s : GenState G} (h : HeadAligned s) {kvTokens : List UInt32}
    (hkv : kvTokens =
      if s.kvTokens.length = s.pos then s.kvTokens ++ [s.lastToken.toUInt32] else s.kvTokens) :
    kvTokens.length = s.pos + 1 ∧ kvTokens[s.pos]? = some s.lastToken.toUInt32 ∧
      (s.pos ≤ s.kvTokens.length ∧ s.kvTokens.length ≤ s.pos + 1) ∧
      ∀ p < s.pos, kvTokens[p]? = s.kvTokens[p]? := by
  rcases h with ⟨hpos, -⟩ | ⟨hpos, hlast⟩
  · rw [if_pos hpos.symm] at hkv
    subst hkv
    refine ⟨by rw [List.length_append, List.length_singleton, hpos], ?_, by omega, fun p hp => ?_⟩
    · rw [hpos, List.getElem?_concat_length]
    · rw [List.getElem?_append_left (by omega)]
  · rw [if_neg (by omega)] at hkv
    subst hkv
    exact ⟨hpos.symm, hlast, by omega, fun _ _ => rfl⟩

theorem LedgerMatches.iterate {s s' : GenState G} {token : Int32}
    (h : LedgerMatches e.dims.nLayers limit cached s) (haligned : HeadAligned s)
    (hpos : s.pos < limit) (hiter : Iterated e s s' token) :
    LedgerMatches e.dims.nLayers limit cached s' ∧ (token ≠ e.eosId → HeadAligned s') := by
  obtain ⟨hlen, hlast, hle, hfirst⟩ := haligned.committed hiter.kvTokens
  refine ⟨⟨fun l p isValue hl hp => ?_, fun l p isValue dst len hmem => ?_, by omega⟩,
    fun hne => .inl ⟨by rw [hiter.pos, hlen], ?_⟩⟩
  · rw [hiter.owner hl]
    by_cases heq : p = s.pos
    · rw [if_pos heq, heq, hlast]
    · rw [if_neg heq, hfirst p (by omega), h.rows l p isValue hl (by omega)]
  · rcases hiter.rowEvent (rowWrite_mem_bare hmem) with hold | rfl
    · obtain ⟨dst, len, hwrite⟩ := rowWrite_of_bare hold
      have hlt := h.inside l p isValue dst len hwrite
      omega
    · omega
  · rw [← tokenCalls_bare, ← Device.bare, hiter.tokenCalls, hiter.lastToken hne]
    simp

/-! ### The way into the loop -/

/-- A prefilled prompt: its rows belong to its tokens, and no others are written. -/
structure PromptRows (nLayers : ℕ) (cached : List UInt32) (promptTokens : List Int32)
    (dev : Device) : Prop where
  owner : ∀ l p isValue, l < nLayers → p < promptTokens.length →
    (ledgerOf cached dev.trace).owner l p isValue = (promptTokens.map Int32.toUInt32)[p]?
  inside : ∀ l p isValue dst len, .rowWrite l p isValue dst len ∈ dev.trace →
    p < promptTokens.length
  noCalls : tokenCalls dev.trace = []

theorem prefill_promptRows (hK : e.kernels.SameRows) {promptTokens : List Int32} {m : ℕ}
    (q : KVCachePool)
    (hcached : cached.take m = (promptTokens.map Int32.toUInt32).take m) :
    PromptRows e.dims.nLayers cached promptTokens
      (prefill e params ⟨q, if m = 0 then [] else [.hydrated m]⟩ m promptTokens).1 := by
  have hbare := bare_prefill_hydrated e params hK q m promptTokens
  have hrows := prefillRows_rows (e := e) m promptTokens
  have hfilled : ∀ l p isValue, p < m → (ledgerOf cached
      (if m = 0 then [] else [.hydrated m])).owner l p isValue = cached[p]? := by
    intro l p isValue hp
    rw [if_neg (by omega)]
    exact if_pos hp
  refine ⟨fun l p isValue hl hp => ?_, fun l p isValue dst len hmem => ?_, ?_⟩
  · obtain ⟨howner, hpassing⟩ := replay_prefillEvents cached (promptTokens.drop m) m
      (ledgerOf cached (if m = 0 then [] else [.hydrated m]))
    rw [← ledgerOf_bare, ← Device.bare, hbare, ledgerOf_append, ledgerOf_append,
      (replay_rows cached hrows _).2, prefillEvents, hpassing, howner]
    by_cases hpm : m ≤ p
    · rw [if_pos ((mem_prefillRows e).mpr ⟨l, p, isValue, rfl, hl, hpm, hp⟩),
        if_pos (by rw [List.length_drop]; omega), List.getElem?_drop, List.getElem?_map,
        show m + (p - m) = p by omega]
    · have hmem : rowEvent l p isValue ∉ prefillRows e m promptTokens :=
        fun hmem => hpm (rowEvent_mem_prefillRows.mp hmem).2.1
      have htake := congrArg (·[p]?) hcached
      simp only [List.getElem?_take, if_pos (Nat.not_le.mp hpm)] at htake
      rw [if_neg hmem, hfilled l p isValue (Nat.not_le.mp hpm), htake]
  · have hwrite := rowWrite_mem_bare hmem
    rw [← Device.bare, hbare, List.mem_append, List.mem_append] at hwrite
    rcases hwrite with (hwrite | hwrite) | hwrite
    · split_ifs at hwrite <;> simp [JLLM.rowEvent] at hwrite
    · obtain ⟨t, -, heq⟩ := List.mem_map.mp hwrite
      cases heq
    · exact (rowEvent_mem_prefillRows.mp hwrite).2.2
  · rw [← tokenCalls_bare]
    exact (prefill_prefilled params hK promptTokens m q).noCalls

/-- The states at the loop head of a turn, from its prefilled prompt on. -/
def turnHeads (e : Engine W R L P G) (env : TurnEnv) (params : GenParams P) (limit : ℕ) (rng : G)
    (promptTokens : List Int32) (prefilled : Device × Option R) : List (GenState G) :=
  let first := firstToken e env params prefilled.2 rng
  if 0 ≤ first.1 then
    if first.1 = e.eosId then []
    else
      decodeHeads e params env limit (params.maxTokens - 1).toNat 1
        ((turnHead first.2 promptTokens prefilled.1 first.1 (pushRecent [] first.1)
          promptTokens.length).deliver first.1 (first.1 = e.eosId))
  else
    decodeHeads e params env limit params.maxTokens.toNat 0
      (turnHead first.2 promptTokens prefilled.1 (promptTokens.getLastD 0) []
        (promptTokens.length - 1))

section

variable {promptTokens : List Int32} {dev : Device}
  (h : PromptRows e.dims.nLayers cached promptTokens dev) (hlimit : promptTokens.length < limit)

include h hlimit

theorem PromptRows.fallback (hne : promptTokens ≠ []) (rng : G) :
    LedgerMatches e.dims.nLayers limit cached
        (turnHead rng promptTokens dev (promptTokens.getLastD 0) [] (promptTokens.length - 1)) ∧
      HeadAligned
        (turnHead rng promptTokens dev (promptTokens.getLastD 0) [] (promptTokens.length - 1)) := by
  have hlen : 0 < promptTokens.length := List.length_pos_iff.mpr hne
  refine ⟨⟨?_, ?_, ?_⟩, .inr ⟨?_, ?_⟩⟩
  · intro l p isValue hl hp
    exact h.owner l p isValue hl (by simpa [turnHead] using hp)
  · intro l p isValue dst len hmem
    simpa [turnHead] using h.inside l p isValue dst len hmem
  · simpa [turnHead] using hlimit.le
  · simp only [turnHead, List.length_map]
    omega
  · simp only [turnHead, List.getElem?_map, ← List.getLast?_eq_getElem?,
      List.getLastD_eq_getLast?]
    rw [List.getLast?_eq_some_getLast hne]
    rfl

theorem PromptRows.delivered (rng : G) (t : Int32) (isEos : Bool) :
    LedgerMatches e.dims.nLayers limit cached
        ((turnHead rng promptTokens dev t (pushRecent [] t) promptTokens.length).deliver t isEos) ∧
      HeadAligned
        ((turnHead rng promptTokens dev t (pushRecent [] t) promptTokens.length).deliver t isEos) := by
  refine ⟨⟨?_, ?_, ?_⟩, .inl ⟨(List.length_map _).symm, ?_⟩⟩
  · intro l p isValue hl hp
    rw [GenState.deliver, Device.emit_trace, ledgerOf_append]
    exact h.owner l p isValue hl (by simpa [turnHead, GenState.deliver] using hp)
  · intro l p isValue dst len hmem
    rw [GenState.deliver, Device.emit_trace, List.mem_append] at hmem
    rcases hmem with hmem | hmem
    · simpa [turnHead, GenState.deliver] using h.inside l p isValue dst len hmem
    · simp at hmem
  · simpa [turnHead, GenState.deliver] using hlimit.le
  · rw [GenState.deliver, Device.emit_trace, tokenCalls_append]
    simp [tokenCalls, turnHead]

variable (env params) in
/-- At each loop head and where the loop ends the ledger matches. -/
theorem PromptRows.decodeFrom (hne : promptTokens ≠ []) (rng : G) (lastPrefillX : Option R) :
    (∀ head ∈ turnHeads e env params limit rng promptTokens (dev, lastPrefillX),
        LedgerMatches e.dims.nLayers limit cached head ∧ HeadAligned head) ∧
      LedgerMatches e.dims.nLayers limit cached
        (decodeFrom e env params limit rng promptTokens (dev, lastPrefillX)) := by
  have hloop (n i : ℕ) (s : GenState G)
      (hs : LedgerMatches e.dims.nLayers limit cached s ∧ HeadAligned s) :
      (∀ head ∈ decodeHeads e params env limit n i s,
          LedgerMatches e.dims.nLayers limit cached head ∧ HeadAligned head) ∧
        LedgerMatches e.dims.nLayers limit cached (decodeLoop e env params limit n i s) :=
    decodeLoop_rule (fun s => LedgerMatches e.dims.nLayers limit cached s ∧ HeadAligned s)
      (LedgerMatches e.dims.nLayers limit cached) (fun _ hs => hs.1)
      (fun _ hs => ⟨hs.1.rows, hs.1.inside, hs.1.fits⟩)
      (fun _ _ _ hs hpos hiter _ => (hs.1.iterate hs.2 hpos hiter).1)
      (fun _ _ _ hs hpos hiter heos =>
        ⟨(hs.1.iterate hs.2 hpos hiter).1, (hs.1.iterate hs.2 hpos hiter).2 heos⟩) n i s hs
  rw [JLLM.decodeFrom, turnHeads]
  simp only
  split_ifs with hfirst heos
  · exact ⟨fun _ hmem => absurd hmem List.not_mem_nil, (h.delivered hlimit _ _ _).1⟩
  · exact hloop _ _ _ (h.delivered hlimit _ _ _)
  · exact hloop _ _ _ (h.fallback hlimit hne _)

end

/-- The tokens of the file that a turn may hydrate from. -/
def cachedTokens (dir : String) (fs : FileSystem) (convId : String) : List UInt32 :=
  ((fs (pathForConvId dir convId)).map tokensOf).getD []

theorem tryHydrateKv_cached {io : HydrateIo} {dir : String} {fs : FileSystem}
    {fingerprint : Vector UInt8 32} {p q : KVCachePool} {promptTokens : List UInt32}
    {convId : String} {m : ℕ}
    (h : tryHydrateKv io dir fs fingerprint p promptTokens convId = .returned m q) :
    (cachedTokens dir fs convId).take m = promptTokens.take m := by
  by_cases hm : m = 0
  · rw [hm, List.take_zero, List.take_zero]
  · obtain ⟨f, hf, rfl⟩ := tryHydrateKv_match h hm
    rw [cachedTokens, hf]
    exact (commonPrefix_isLongest _ _).same

end

end JLLM
