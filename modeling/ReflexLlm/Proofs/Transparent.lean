import ReflexLlm.Lib.Runs
import ReflexLlm.Proofs.DecodeLoop
import ReflexLlm.Proofs.Hydrate
import ReflexLlm.Proofs.Turn

/-! Hydration is transparent. Every cache file of a session holds the rows of its own
tokens, so hydration starts a turn from rows that prefill would have computed, and the
turn goes on as the cold one. The exception is a prompt that is cached whole: its first
token passes the checks of the decode loop, which Path A does not make. -/

namespace JLLM

open ByteMem KVCacheFileHeader Runs

variable {W R L P G : Type} (e : Engine W R L P G) {c : Config} (he : Fp16Engine e c)

/-! ### Files -/

/-- A file of this model and pool whose rows are the rows of its tokens. -/
structure TurnFile (f : List UInt8) : Prop where
  accepted : HeaderAccepted c e.fingerprint f
  packed : BodyPacked c f
  rows : ∀ l pos, l < e.dims.nLayers → pos < (decode f).usedTokens.toNat →
    (bodyRow c f l 0 pos, bodyRow c f l 1 pos) = refRows e he (tokensOf f) l pos

/-- Every file is one. -/
def FilesMatch (fs : FileSystem) : Prop := ∀ path f, fs path = some f → TurnFile e he f

theorem filesMatch_empty : FilesMatch e he fun _ => none := fun _ _ h => absurd h (by simp)

variable {e he}

theorem FilesMatch.evict {fs : FileSystem} (h : FilesMatch e he fs) (removed : String → Bool) :
    FilesMatch e he fun q => if removed q then none else fs q := by
  intro path f hf
  by_cases hr : removed path
  · simp [hr] at hf
  · exact h path f (by simpa [hr] using hf)

/-- Hydration leaves the rows of the matched prefix. -/
theorem tryHydrateKv_matches {io : HydrateIo} (hio : io.NoFailure) (dir : String) {fs : FileSystem}
    (hfs : FilesMatch e he fs) {p : KVCachePool} (hcfg : p.cfg = c) {tokens : List UInt32}
    (hne : tokens ≠ []) (convId : String) :
    ∃ m q, tryHydrateKv io dir fs e.fingerprint p tokens convId = .returned m q ∧ q.cfg = c ∧
      m ≤ tokens.length ∧ ∀ trace, RowsMatch e he (tokens.take m) ⟨q, trace⟩ := by
  have hcold : ∀ trace, RowsMatch e he (tokens.take 0) ⟨p, trace⟩ := fun trace =>
    rowsMatch_nil e he _
  by_cases hconv : Persistent convId
  · rw [tryHydrateKv_eq hconv hne]
    cases hfile : fs (pathForConvId dir convId) with
    | none =>
      rw [hydratePeek_none]
      exact ⟨0, p, rfl, hcfg, Nat.zero_le _, hcold⟩
    | some f =>
      obtain ⟨haccepted, hpacked, hrows⟩ := hfs _ f hfile
      subst hcfg
      rw [hydratePeek_ok hio.peek haccepted]
      simp only
      rw [hydrateLoad_packed hio haccepted hpacked]
      have hmatch := commonPrefix_isLongest (tokensOf f) tokens
      by_cases hz : commonPrefix (tokensOf f) tokens = 0
      · simp only [hz, if_true]
        exact ⟨0, p, rfl, rfl, Nat.zero_le _, hcold⟩
      · simp only [if_neg hz]
        refine ⟨_, _, rfl, rfl, hmatch.right, fun trace l pos hl hpos => ?_⟩
        rw [List.length_take, Nat.min_eq_left hmatch.right] at hpos
        have hused := match_le_used f tokens
        have hl' : l < p.cfg.nLayers := he.rows.layers ▸ hl
        have hctx : pos < p.cfg.maxContext := by
          have := haccepted.fits
          omega
        rw [Device.rows, scattered_row hused haccepted.fits hl' (by decide) hctx,
          scattered_row hused haccepted.fits hl' (by decide) hctx, if_pos hpos, if_pos hpos,
          hrows l pos hl (by omega), ← hmatch.same]
        have hinitial := List.take_prefix (commonPrefix (tokensOf f) tokens) (tokensOf f)
        refine (refRows_initial e he hinitial l ?_).symm
        rw [List.length_take, tokensOf_length]
        omega
  · exact ⟨0, p, tryHydrateKv_fresh hconv, hcfg, Nat.zero_le _, hcold⟩

theorem FilesMatch.set {fs : FileSystem} (h : FilesMatch e he fs) (path : String)
    (file : Option (List UInt8)) (hfile : ∀ f, file = some f → TurnFile e he f) :
    FilesMatch e he (fs.set path file) := by
  intro path' f hf
  by_cases hp : path' = path
  · exact hfile f (by simpa [FileSystem.set, hp] using hf)
  · exact h path' f (by simpa [FileSystem.set, hp] using hf)

/-- A saved turn has the rows of the committed tokens. -/
theorem turnImage_turnFile {s : Device} (hcfg : s.pool.cfg = c) {kvTokens : List UInt32}
    (hrows : RowsMatch e he kvTokens s) (hn : 0 < kvTokens.length)
    (hle : kvTokens.length ≤ s.pool.cfg.maxContext) :
    TurnFile e he (turnImage s.pool e.fingerprint kvTokens) := by
  subst hcfg
  refine ⟨turnImage_accepted e.fingerprint hn hle, turnImage_bodyPacked e.fingerprint hn hle, ?_⟩
  intro l pos hl hpos
  have hl' : l < s.pool.cfg.nLayers := he.rows.layers ▸ hl
  rw [turnImage_decode, turnHeader_used e.fingerprint hle] at hpos
  rw [turnImage_bodyRow e.fingerprint hn hle hl' (by decide) hpos,
    turnImage_bodyRow e.fingerprint hn hle hl' (by decide) hpos,
    turnImage_tokensOf e.fingerprint hle]
  exact hrows l pos hl hpos

/-- The save keeps the files of the directory. -/
theorem saveTurn_matches {io : SaveTurnIo} (hio : io.NoFailure) (dir : String) {fs : FileSystem}
    (hfs : FilesMatch e he fs) {s : Device} (hcfg : s.pool.cfg = c) {kvTokens : List UInt32}
    (hrows : RowsMatch e he kvTokens s) (convId : String) :
    FilesMatch e he (saveTurn io dir fs e.fingerprint s.pool convId false kvTokens).2 := by
  simp only [saveTurn, Bool.false_eq_true, if_false]
  split_ifs with hconv hmin hover hdir hsaved
  · exact hfs
  · exact hfs
  · exact hfs
  · exact hfs
  all_goals
    have hn : 0 < kvTokens.length := by
      rw [minTokensToSave] at hmin
      omega
    have hle : kvTokens.length ≤ s.pool.cfg.maxContext := Nat.not_lt.mp hover
    have himage : TurnFile e he (turnImage s.pool e.fingerprint kvTokens) :=
      turnImage_turnFile hcfg hrows hn hle
    have hset := (hfs.set (pathForConvId dir convId ++ ".tmp") none (by simp)).set
      (pathForConvId dir convId) (some (turnImage s.pool e.fingerprint kvTokens)) (by
        intro f hf
        obtain rfl := Option.some.inj hf
        exact himage)
    rw [gatherAndSave_ok e.fingerprint hn hle hio.cuda hio.save]
  · exact hset.evict _
  · exact hset

/-! ### Turns -/

section

variable {env : TurnEnv} (henv : env.NoFailure) {params : GenParams P}
  (hint8 : params.kvInt8 = false) {promptTokens : List Int32}

/-- What hydration hands over: a pool with the rows of the first `m` prompt tokens. -/
structure Hydrated (e : Engine W R L P G) {c : Config} (he : Fp16Engine e c)
    (promptTokens : List Int32) (m : ℕ) (q : KVCachePool) : Prop where
  cfg : q.cfg = c
  le : m ≤ promptTokens.length
  rows : ∀ trace, RowsMatch e he ((promptTokens.map Int32.toUInt32).take m) ⟨q, trace⟩

include henv

theorem generate_returned (dir : String) {prompt : List UInt8} {s : EngineState G} {fs : FileSystem}
    (hcfg : s.pool.cfg = c) (hfs : FilesMatch e he fs)
    (h : ¬ promptRefused s.pool.maxTokens params prompt (e.promptTokens prompt)) :
    ∃ m q, tryHydrateKv env.hydrate dir fs e.fingerprint s.pool
        ((e.promptTokens prompt).map Int32.toUInt32) params.conversationId = .returned m q ∧
      Hydrated e he (e.promptTokens prompt) m q ∧ (e.promptTokens prompt).length < c.maxContext ∧
      generate e env params dir prompt s fs = .returned (finishTurn e env params dir fs
        (e.encode prompt).length
        (turnState e env params c.maxContext s.rng (e.promptTokens prompt) m q)) := by
  have hne : (e.promptTokens prompt).map Int32.toUInt32 ≠ [] := by
    simpa using promptTokens_ne_nil prompt
  obtain ⟨m, q, hhydrate, hq, hm, hrows⟩ :=
    tryHydrateKv_matches henv.hydrate dir hfs hcfg hne params.conversationId
  have hlimit : s.pool.maxTokens = c.maxContext := by
    rw [KVCachePool.maxTokens, hcfg, Config.maxTokens, he.noOverflow, Nat.add_zero]
  refine ⟨m, q, hhydrate, ⟨hq, by simpa using hm, hrows⟩, hlimit ▸ promptTokens_lt h, ?_⟩
  rw [generate_admitted h, hhydrate]
  simp only
  rw [hlimit]

include hint8

/-- A turn with something to prefill, or let into the loop, decodes as without a
cache. -/
theorem turnState_decoded {m : ℕ} {q : KVCachePool} (hq : Hydrated e he promptTokens m q)
    (hne : promptTokens ≠ []) (hfits : promptTokens.length ≤ c.maxContext) (rng : G)
    (h : m < promptTokens.length ∨ 1 ≤ params.maxTokens ∧ env.stop 0 = false ∧
      env.memOk (promptTokens.length - 1) = true) :
    Decoded e he (turnState e env params c.maxContext rng promptTokens m q)
      (cachelessTurn (refHidden e he) e env params c.maxContext (promptTokens.map Int32.toUInt32)
        rng) := by
  have hhydrated : DeviceInv c (if m = 0 then [] else [.hydrated m])
      ⟨q, if m = 0 then [] else [.hydrated m]⟩ := ⟨hq.cfg, by split <;> rfl⟩
  obtain ⟨hinv, hrows, hlast⟩ := prefill_matches e he hint8 hhydrated hq.le hfits (hq.rows _)
  have hdelivered := hinv.delivered
  rw [deliveredTokens_append, deliveredTokens_prefillEvents, List.append_nil] at hdelivered
  have hnone : deliveredTokens (if m = 0 then [] else [.hydrated m]) = [] := by split <;> rfl
  rw [hnone] at hdelivered
  rw [turnState, ← Prod.mk.eta (p := prefill e params _ m promptTokens), hlast]
  by_cases hm : m = promptTokens.length
  · obtain ⟨hmax, hstop, hmem⟩ := h.resolve_left (by omega)
    rw [if_pos hm]
    exact decodeFrom_cached hint8 henv.logits hne hfits hmax hinv.1 hdelivered hrows rng hstop hmem
  · rw [if_neg hm]
    exact decodeFrom_prefilled hint8 henv.logits henv.firstLogits hfits hinv.1 hdelivered hrows rng

omit henv hint8 in
/-- A turn that is not let in keeps the hydrated prompt. -/
theorem turnState_refused (e : Engine W R L P G) (q : KVCachePool) (hne : promptTokens ≠ [])
    (hfits : promptTokens.length ≤ c.maxContext) (rng : G)
    (h : params.maxTokens ≤ 0 ∨ env.stop 0 = true ∨ env.memOk (promptTokens.length - 1) = false) :
    (turnState e env params c.maxContext rng promptTokens promptTokens.length q).dev =
        ⟨q, [.hydrated promptTokens.length]⟩ ∧
      (turnState e env params c.maxContext rng promptTokens promptTokens.length q).kvTokens =
        promptTokens.map Int32.toUInt32 := by
  have hlen : promptTokens.length ≠ 0 := by simpa using hne
  have hprefill : prefill e params ⟨q, [.hydrated promptTokens.length]⟩ promptTokens.length
      promptTokens = (⟨q, [.hydrated promptTokens.length]⟩, none) := by
    simp [prefill]
  rw [turnState, if_neg hlen, hprefill]
  exact decodeFrom_refused hne hfits rng h

/-- However a turn ends, the pool holds the rows of the committed tokens. -/
theorem turnState_rows {m : ℕ} {q : KVCachePool} (hq : Hydrated e he promptTokens m q)
    (hne : promptTokens ≠ []) (hfits : promptTokens.length ≤ c.maxContext) (rng : G) :
    (turnState e env params c.maxContext rng promptTokens m q).dev.pool.cfg = c ∧
      RowsMatch e he (turnState e env params c.maxContext rng promptTokens m q).kvTokens
        (turnState e env params c.maxContext rng promptTokens m q).dev := by
  by_cases h : m < promptTokens.length ∨ 1 ≤ params.maxTokens ∧ env.stop 0 = false ∧
      env.memOk (promptTokens.length - 1) = true
  · have hdecoded := turnState_decoded henv hint8 hq hne hfits rng h
    exact ⟨hdecoded.cfg, hdecoded.rows⟩
  · obtain rfl : m = promptTokens.length := Nat.le_antisymm hq.le (by omega)
    have hrefused : params.maxTokens ≤ 0 ∨ env.stop 0 = true ∨
        env.memOk (promptTokens.length - 1) = false := by
      rw [or_iff_not_imp_left, or_iff_not_imp_left]
      intro hmax hstop
      by_contra hmem
      exact h (Or.inr ⟨by omega, by simpa using hstop, by simpa using hmem⟩)
    obtain ⟨hdev, hkv⟩ := turnState_refused e q hne hfits rng hrefused
    rw [hdev, hkv]
    refine ⟨hq.cfg, ?_⟩
    have hrows := hq.rows [.hydrated promptTokens.length]
    rwa [List.take_of_length_le (by simp)] at hrows

end

/-! ### Sessions -/

/-- A turn without failures that stores FP16 rows. -/
def SessionEvent.Fp16 : SessionEvent P → Prop
  | .turn env params _ => env.NoFailure ∧ params.kvInt8 = false
  | .evict _ => True

/-- The pool keeps its shape and every file holds the rows of its tokens. -/
def SessionInv (e : Engine W R L P G) {c : Config} (he : Fp16Engine e c) (s : Session G) : Prop :=
  s.engine.pool.cfg = c ∧ FilesMatch e he s.fs

theorem sessionStep_inv {dir : String} {s s' : Session G} {event : SessionEvent P}
    (hs : SessionInv e he s) (hevent : event.Fp16) (hstep : SessionStep e dir s event s') :
    SessionInv e he s' := by
  obtain ⟨hcfg, hfs⟩ := hs
  cases hstep with
  | @returned env params prompt turn h =>
    obtain ⟨henv, hint8⟩ := hevent
    by_cases hrefused : promptRefused s.engine.pool.maxTokens params prompt (e.promptTokens prompt)
    · rw [generate_refused hrefused] at h
      cases h
    · obtain ⟨m, q, -, hq, hfits, heq⟩ := generate_returned henv dir hcfg hfs hrefused
      rw [heq] at h
      cases h
      obtain ⟨hcfg', hrows⟩ := turnState_rows henv hint8 hq (promptTokens_ne_nil prompt) hfits.le
        s.engine.rng
      refine ⟨hcfg', ?_⟩
      simp only [finishTurn, hint8]
      exact saveTurn_matches henv.save dir hfs hcfg' hrows params.conversationId
  | @threw env params prompt engine h =>
    obtain ⟨henv, hint8⟩ := hevent
    by_cases hrefused : promptRefused s.engine.pool.maxTokens params prompt (e.promptTokens prompt)
    · rw [generate_refused hrefused] at h
      cases h
      exact ⟨hcfg, hfs⟩
    · obtain ⟨m, q, -, hq, hfits, heq⟩ := generate_returned henv dir hcfg hfs hrefused
      rw [heq] at h
      cases h
  | evict => exact ⟨hcfg, hfs.evict _⟩

/-- From an empty directory the files of a session match the model. -/
theorem session_inv (he : Fp16Engine e c) {dir : String} {s₀ s : Session G} {events : List (SessionEvent P)}
    (hcfg : s₀.engine.pool.cfg = c) (hempty : s₀.fs = fun _ => none)
    (hevents : ∀ event ∈ events, event.Fp16) (hrun : Run (SessionStep e dir) s₀ events s) :
    SessionInv e he s :=
  hrun.invariant_on (fun _ _ _ hs hevent hstep => sessionStep_inv hs hevent hstep) hevents
    ⟨hcfg, hempty ▸ filesMatch_empty e he⟩

/-! ### The hydrated turn and the cold one -/

/-- The pools hold the same rows at the first `n` positions. -/
def SameRows (nLayers n : ℕ) (p q : KVCachePool) : Prop :=
  ∀ l half pos, l < nLayers → half < 2 → pos < n → p.row l half pos = q.row l half pos

theorem RowsMatch.sameRows {tokens : List UInt32} {s s' : Device} (h : RowsMatch e he tokens s)
    (h' : RowsMatch e he tokens s') : SameRows e.dims.nLayers tokens.length s.pool s'.pool := by
  intro l half pos hl hhalf hpos
  have hrow := (h l pos hl hpos).trans (h' l pos hl hpos).symm
  simp only [Device.rows, Prod.mk.injEq] at hrow
  interval_cases half
  · exact hrow.1
  · exact hrow.2

/-- The prompt is cached whole, and the loop is stopped or short of memory when it
starts over at the last prompt position. -/
def RefusedWhole (env : TurnEnv) (params : GenParams P) (fingerprint : Vector UInt8 32) (dir : String)
    (promptTokens : List Int32) (s : Session G) : Prop :=
  (∃ q, tryHydrateKv env.hydrate dir s.fs fingerprint s.engine.pool
    (promptTokens.map Int32.toUInt32) params.conversationId = .returned promptTokens.length q) ∧
  (env.stop 0 = true ∨ env.memOk (promptTokens.length - 1) = false)

/-- Both turns throw; or both return, with the same tokens and the same committed rows.
When the prompt is refused whole, the cold turn delivers at least the token of Path A,
the hydrated one nothing, and they agree on the rows of the prompt. -/
def TransparentTurn (nLayers : ℕ) (promptTokens : List UInt32) (refused : Prop) :
    TurnResult G → TurnResult G → Prop
  | .returned hydrated, .returned cold =>
      (¬ refused → deliveredTokens hydrated.trace = deliveredTokens cold.trace ∧
        hydrated.kvTokens = cold.kvTokens ∧
        SameRows nLayers cold.kvTokens.length hydrated.engine.pool cold.engine.pool) ∧
      (refused → deliveredTokens hydrated.trace = [] ∧ deliveredTokens cold.trace ≠ [] ∧
        hydrated.kvTokens = promptTokens ∧ promptTokens <+: cold.kvTokens ∧
        SameRows nLayers promptTokens.length hydrated.engine.pool cold.engine.pool)
  | .threw _, .threw _ => True
  | _, _ => False

/-- Decoding without a cache delivers a first token. -/
theorem cachelessLoop_delivered (hidden : List UInt32 → R) (env : TurnEnv) (params : GenParams P)
    (limit n : ℕ) : ∀ (i : ℕ) (a : CachelessState G),
      a.delivered <+: (cachelessLoop hidden e env params limit n i a).delivered ∧
        a.context <+: (cachelessLoop hidden e env params limit n i a).context := by
  induction n with
  | zero => exact fun _ a => ⟨List.prefix_refl _, List.prefix_refl _⟩
  | succ n ih =>
    intro i a
    have hstep : a.delivered <+: (cachelessStep hidden e params a).1.delivered ∧
        a.context <+: (cachelessStep hidden e params a).1.context :=
      ⟨List.prefix_append _ _, List.prefix_append _ _⟩
    rw [cachelessLoop]
    split_ifs
    · exact ⟨List.prefix_refl _, List.prefix_refl _⟩
    · exact ⟨List.prefix_refl _, List.prefix_refl _⟩
    · exact ⟨List.prefix_refl _, List.prefix_refl _⟩
    · simp only
      split_ifs
      · exact hstep
      · obtain ⟨hd, hc⟩ := ih (i + 1) (cachelessStep hidden e params a).1
        exact ⟨hstep.1.trans hd, hstep.2.trans hc⟩

theorem cachelessTurn_delivered (hidden : List UInt32 → R) (env : TurnEnv) (params : GenParams P)
    (limit : ℕ) (tokens : List UInt32) (rng : G) :
    (cachelessTurn hidden e env params limit tokens rng).delivered ≠ [] ∧
      ∃ token, tokens ++ [token] <+: (cachelessTurn hidden e env params limit tokens rng).context := by
  rw [cachelessTurn]
  split_ifs
  · exact ⟨by simp [cachelessStep], _, List.prefix_refl _⟩
  · obtain ⟨hd, hc⟩ := cachelessLoop_delivered (e := e) hidden env params limit
      (params.maxTokens - 1).toNat 1 (cachelessStep hidden e params ⟨tokens, rng, [], []⟩).1
    refine ⟨fun hnil => ?_, _, hc⟩
    rw [hnil] at hd
    simp [cachelessStep] at hd

theorem finishTurn_delivered (env : TurnEnv) (params : GenParams P) (dir : String) (fs : FileSystem)
    (n : ℕ) (s : GenState G) :
    deliveredTokens (finishTurn e env params dir fs n s).trace = deliveredTokens s.dev.trace := by
  simp only [finishTurn]
  split_ifs
  · simp [deliveredTokens]
  · rfl

/-- The first turn on an empty directory is cold. -/
theorem tryHydrateKv_empty {io : HydrateIo} (dir : String) (fingerprint : Vector UInt8 32)
    (p : KVCachePool) (tokens : List UInt32) (convId : String) :
    tryHydrateKv io dir (fun _ => none) fingerprint p tokens convId = .returned 0 p := by
  simp only [tryHydrateKv, hydratePeek_none, ite_self]

/-- Whatever turns and evictions came before: hydrating a turn changes neither the tokens
it delivers nor the rows it commits, unless its prompt is cached whole and the loop does
not let it in. -/
theorem hydration_transparent (e : Engine W R L P G) {c : Config} (he : Fp16Engine e c) (dir : String)
    {s₀ s : Session G} {events : List (SessionEvent P)} (hcfg : s₀.engine.pool.cfg = c)
    (hempty : s₀.fs = fun _ => none) (hevents : ∀ event ∈ events, event.Fp16)
    (hrun : Run (SessionStep e dir) s₀ events s) {env : TurnEnv} (henv : env.NoFailure)
    {params : GenParams P} (hint8 : params.kvInt8 = false) (hmax : 1 ≤ params.maxTokens)
    (prompt : List UInt8) :
    TransparentTurn e.dims.nLayers ((e.promptTokens prompt).map Int32.toUInt32)
      (RefusedWhole env params e.fingerprint dir (e.promptTokens prompt) s)
      (generate e env params dir prompt s.engine s.fs)
      (generate e env params dir prompt s.engine fun _ => none) := by
  obtain ⟨hs, hfs⟩ := session_inv he hcfg hempty hevents hrun
  by_cases hrefused : promptRefused s.engine.pool.maxTokens params prompt (e.promptTokens prompt)
  · rw [generate_refused hrefused, generate_refused hrefused]
    trivial
  have hne := promptTokens_ne_nil (e := e) prompt
  obtain ⟨m, q, hhydrate, hq, hfits, hhyd⟩ := generate_returned henv dir hs hfs hrefused
  obtain ⟨m', q', hempty', hq', -, hcold⟩ :=
    generate_returned henv dir hs (filesMatch_empty e he) hrefused
  rw [tryHydrateKv_empty] at hempty'
  obtain ⟨rfl, rfl⟩ := HydrateResult.returned.inj hempty'
  have hlen := List.length_pos_iff.mpr hne
  have hdecoded := turnState_decoded henv hint8 hq' hne hfits.le s.engine.rng (Or.inl hlen)
  rw [hhyd, hcold]
  simp only [TransparentTurn, finishTurn_delivered]
  constructor
  · -- both turns end where decoding without a cache ends
    intro hpass
    have hdecoded' := turnState_decoded henv hint8 hq hne hfits.le s.engine.rng (by
      rw [or_iff_not_imp_left]
      intro hm
      obtain rfl : m = (e.promptTokens prompt).length := Nat.le_antisymm hq.le (Nat.not_lt.mp hm)
      rw [RefusedWhole, not_and, not_or] at hpass
      have := hpass ⟨q, hhydrate⟩
      exact ⟨hmax, by simpa using this.1, by simpa using this.2⟩)
    have hkv := (List.append_inj' (hdecoded'.committed.symm.trans hdecoded.committed) (by simp)).1
    refine ⟨hdecoded'.delivered.trans hdecoded.delivered.symm, hkv, ?_⟩
    have hrows := hdecoded'.rows
    rw [hkv] at hrows
    exact hrows.sameRows hdecoded.rows
  · rintro ⟨⟨q₁, hwhole⟩, hstop⟩
    obtain ⟨rfl, rfl⟩ := HydrateResult.returned.inj (hhydrate.symm.trans hwhole)
    obtain ⟨hdev, hkv⟩ := turnState_refused e q hne hfits.le s.engine.rng (Or.inr hstop)
    obtain ⟨hfirst, token, hinitial⟩ := cachelessTurn_delivered (e := e) (refHidden e he) env params
      c.maxContext ((e.promptTokens prompt).map Int32.toUInt32) s.engine.rng
    have hcommitted : (e.promptTokens prompt).map Int32.toUInt32 <+:
        (turnState e env params c.maxContext s.engine.rng (e.promptTokens prompt) 0
          s.engine.pool).kvTokens := by
      rw [hdecoded.committed] at hinitial
      rcases List.prefix_concat_iff.mp hinitial with heq | hinitial
      · exact (List.append_inj' heq (by simp)).1 ▸ List.prefix_refl _
      · exact (List.prefix_append _ _).trans hinitial
    refine ⟨?_, ?_, hkv, hcommitted, ?_⟩
    · rw [hdev]
      rfl
    · rw [hdecoded.delivered]
      exact hfirst
    · have hrows := hq.rows [.hydrated (e.promptTokens prompt).length]
      rw [List.take_of_length_le (by simp)] at hrows
      have := hrows.sameRows (hdecoded.rows.ofInitial e he hcommitted)
      rw [← hdev] at this
      exact this

/-! ### A small session -/

/-- An FP16 pool of eight positions without overflow. -/
def eightRowPool : KVCachePool where
  cfg := ⟨1, 1, 1, 8, 0, 2⟩
  gpuPool := fun _ => 0
  cpuPool := none
  kvScales := none
  usedTokens := 0
  gpuTokens := 0
  cfg_isInt := by decide
  gpu_fits := by decide
  overflow_backed := fun h => absurd h (by decide)
  overflow_sized := fun h => absurd h (by decide)
  scales_int8 := fun h => absurd h (by decide)

theorem constantEngine_fp16 : Fp16Engine (constantEngine Unit) eightRowPool.cfg :=
  ⟨byteSumKernels_rowWise, ⟨⟨rfl, rfl, rfl⟩, rfl⟩, rfl⟩

def twoTokens : GenParams Unit := ⟨2, false, "chat", ()⟩

def emptySession : Session Unit := ⟨⟨eightRowPool, ()⟩, fun _ => none⟩

/-- After a turn on the prompt 5 6 7, which saves these tokens and the first sample. -/
def savedSession : Session Unit :=
  match generate (constantEngine Unit) calmEnv twoTokens "kv" [5, 6, 7] emptySession.engine
      emptySession.fs with
  | .returned turn => ⟨turn.engine, turn.fs⟩
  | _ => emptySession

theorem savedSession_run : Run (SessionStep (constantEngine Unit) "kv") emptySession
    [.turn calmEnv twoTokens [5, 6, 7]] savedSession := by
  obtain ⟨turn, h⟩ : ∃ turn, generate (constantEngine Unit) calmEnv twoTokens "kv" [5, 6, 7]
      emptySession.engine emptySession.fs = .returned turn := by
    have hadmitted : ¬ promptRefused emptySession.engine.pool.maxTokens twoTokens [5, 6, 7]
        ((constantEngine Unit).promptTokens [5, 6, 7]) := by
      unfold promptRefused
      decide
    obtain ⟨m, q, -, -, -, h⟩ := generate_returned calmEnv_noFailure "kv" rfl
      (filesMatch_empty (constantEngine Unit) constantEngine_fp16) hadmitted
    exact ⟨_, h⟩
  have hsaved : savedSession = ⟨turn.engine, turn.fs⟩ := by simp only [savedSession, h]
  rw [hsaved]
  exact .cons (.returned h) (.nil _)

/-- A later prompt that shares two of the saved tokens. -/
theorem hydration_transparent_two_of_three :
    TransparentTurn 1 [5, 6, 9]
      (RefusedWhole calmEnv twoTokens (constantEngine Unit).fingerprint "kv" [5, 6, 9] savedSession)
      (generate (constantEngine Unit) calmEnv twoTokens "kv" [5, 6, 9] savedSession.engine savedSession.fs)
      (generate (constantEngine Unit) calmEnv twoTokens "kv" [5, 6, 9] savedSession.engine fun _ => none) :=
  hydration_transparent (constantEngine Unit) constantEngine_fp16 "kv" rfl rfl
    (by simpa using ⟨calmEnv_noFailure, rfl⟩) savedSession_run calmEnv_noFailure rfl (by decide)
    [5, 6, 9]

/-- The memory guard refuses position two. -/
def shortEnv : TurnEnv := { calmEnv with memOk := fun pos => decide (pos ≠ 2) }

/-- The tokens of a turn that returned. -/
def TurnResult.delivered? {G : Type} : TurnResult G → Option (List Int32)
  | .returned turn => some (deliveredTokens turn.trace)
  | _ => none

/-- The same prompt again: hydrated, the guard refuses its last position before
anything is sampled; cold, Path A samples without asking. -/
theorem hydration_loses_first_token :
    ¬ ∀ (events : List (SessionEvent Unit)) (s : Session Unit),
      (∀ event ∈ events, event.Fp16) → Run (SessionStep (constantEngine Unit) "kv") emptySession events s →
      ∀ (env : TurnEnv) (params : GenParams Unit) (prompt : List UInt8), env.NoFailure →
        params.kvInt8 = false → 1 ≤ params.maxTokens →
        (generate (constantEngine Unit) env params "kv" prompt s.engine s.fs).delivered? =
          (generate (constantEngine Unit) env params "kv" prompt s.engine fun _ => none).delivered? := by
  intro h
  have hsame := h _ _ (by simpa using ⟨calmEnv_noFailure, rfl⟩) savedSession_run shortEnv twoTokens
    [5, 6, 7] ⟨calmEnv_noFailure.hydrate, calmEnv_noFailure.save, rfl, fun _ => rfl⟩ rfl (by decide)
  have hhydrated : (generate (constantEngine Unit) shortEnv twoTokens "kv" [5, 6, 7] savedSession.engine
      savedSession.fs).delivered? = some [] := by decide +kernel
  have hcold : (generate (constantEngine Unit) shortEnv twoTokens "kv" [5, 6, 7] savedSession.engine
      fun _ => none).delivered? = some [3, 3] := by decide +kernel
  rw [hhydrated, hcold] at hsame
  exact absurd hsame (by decide)

end JLLM
