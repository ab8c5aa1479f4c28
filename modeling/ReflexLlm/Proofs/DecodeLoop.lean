import Mathlib.Data.List.Basic
import ReflexLlm.Proofs.CachedDecode

/-! The decode loop against decoding without a cache. At a loop head the committed
tokens are the context, with or without its last token; one iteration commits the
context and samples what the cacheless step samples. -/

namespace JLLM

variable {W R L P G : Type}

theorem Device.emit_trace (s : Device) (event : Event) : (s.emit event).trace = s.trace ++ [event] :=
  rfl

@[simp] theorem deliveredTokens_append (trace trace' : List Event) :
    deliveredTokens (trace ++ trace') = deliveredTokens trace ++ deliveredTokens trace' :=
  List.filterMap_append

@[simp] theorem deliveredTokens_turnEvents (trace : List Event) :
    deliveredTokens (turnEvents trace) = deliveredTokens trace := by
  rw [deliveredTokens, turnEvents, List.filterMap_filter]
  refine List.filterMap_congr fun event _ => ?_
  cases event <;> rfl

theorem deliveredTokens_prefillEvents (m : ℕ) (promptTokens : List Int32) :
    deliveredTokens (prefillEvents m promptTokens) = [] := by
  refine List.filterMap_eq_nil_iff.mpr fun event hevent => ?_
  obtain ⟨t, -, rfl⟩ := List.mem_map.mp hevent
  rfl

/-- Equal events besides row writes deliver the same tokens. -/
theorem DeviceInv.delivered {c : Config} {events : List Event} {s : Device} (h : DeviceInv c events s) :
    deliveredTokens s.trace = deliveredTokens events := by
  rw [← deliveredTokens_turnEvents, h.2]

section

variable (e : Engine W R L P G) {c : Config} (he : Fp16Engine e c) (env : TurnEnv)
  (params : GenParams P)

/-- A loop head whose context is `a`'s: its last token is `last_token_`, at `pos`, and
may be committed already. -/
structure LoopHead (s : GenState G) (a : CachelessState G) : Prop where
  cfg : s.dev.pool.cfg = c
  context : ∃ init, a.context = init ++ [s.lastToken.toUInt32] ∧ s.pos = init.length ∧
    (s.kvTokens = init ∨ s.kvTokens = a.context)
  rows : RowsMatch e he s.kvTokens s.dev
  rng : s.rng = a.rng
  recent : s.recentTokens = a.recentTokens
  delivered : deliveredTokens s.dev.trace = a.delivered

/-- A loop head past the first token: the last one is not committed. -/
structure Decoded (s : GenState G) (a : CachelessState G) : Prop extends LoopHead e he s a where
  committed : a.context = s.kvTokens ++ [s.lastToken.toUInt32]
  fits : s.kvTokens.length ≤ c.maxContext

variable {e he env params}

theorem LoopHead.commit_kvTokens {s : GenState G} {a : CachelessState G} (h : LoopHead e he s a) :
    s.commit.kvTokens = a.context := by
  obtain ⟨init, hinit, hpos, hkv⟩ := h.context
  rw [GenState.commit_kvTokens]
  rcases hkv with hkv | hkv
  · rw [if_pos (by rw [hkv, hpos]), hkv, hinit]
  · rw [if_neg, hkv]
    rw [hkv, hinit, List.length_append, List.length_singleton]
    omega

theorem LoopHead.length_eq {s : GenState G} {a : CachelessState G} (h : LoopHead e he s a) :
    a.context.length - 1 = s.pos := by
  obtain ⟨init, hinit, hpos, -⟩ := h.context
  rw [hinit, List.length_append, List.length_singleton, hpos, Nat.add_sub_cancel]

/-- One iteration refines one cacheless step. -/
theorem decodeIteration_refines (hint8 : params.kvInt8 = false)
    (hok : ∀ pos, env.logitsOk pos = true) {s : GenState G} {a : CachelessState G}
    (h : LoopHead e he s a) (hpos : s.pos < c.maxContext) :
    (decodeIteration e env params s).2 = (cachelessStep (refHidden e he) e params a).2 ∧
      Decoded e he (decodeIteration e env params s).1
        (cachelessStep (refHidden e he) e params a).1 := by
  have hcommit := h.commit_kvTokens
  obtain ⟨init, hinit, hposInit, hkv⟩ := h.context
  have hrows : RowsMatch e he init s.dev := by
    rcases hkv with hkv | hkv
    · exact hkv ▸ h.rows
    · exact h.rows.ofInitial e he (by rw [hkv, hinit]; exact List.prefix_append _ _)
  have hinv : DeviceInv c (turnEvents (s.dev.emit (.forward s.pos s.lastToken)).trace)
      (s.dev.emit (.forward s.pos s.lastToken)) := ⟨h.cfg, rfl⟩
  have hrows' : RowsMatch e he init (s.dev.emit (.forward s.pos s.lastToken)) :=
    hrows.of_pool e he rfl
  obtain ⟨hdev, hmatch, hx⟩ :=
    forwardToken_matches e he s.lastToken.toUInt32 hinv (hposInit ▸ hpos) hrows'
  rw [← hposInit, Int32.toInt32_toUInt32] at hdev hmatch hx
  rw [← hinit] at hmatch hx
  have hdelivered := hdev.delivered
  rw [deliveredTokens_turnEvents] at hdelivered
  simp only [decodeIteration, decodeStep, cachelessStep, hok, Bool.true_eq_false, if_false,
    GenState.commit_dev, GenState.commit_lastToken, GenState.commit_recentTokens,
    GenState.commit_rng, hint8, hx, h.rng, h.recent, GenState.deliver]
  generalize e.sampleToken (e.logits (refHidden e he a.context)) params.sampling a.recentTokens
    a.rng = t
  have hlen : s.pos + 1 = a.context.length := by
    rw [hinit, List.length_append, List.length_singleton, hposInit]
  refine ⟨trivial, ⟨hdev.1, ?_, ?_, rfl, rfl, ?_⟩, ?_, ?_⟩
  · exact ⟨a.context, rfl, hlen, Or.inl hcommit⟩
  · rw [hcommit]
    exact hmatch.of_pool e he rfl
  · simp only [Device.emit_trace, deliveredTokens_append] at hdelivered ⊢
    rw [hdelivered, h.delivered]
    simp [deliveredTokens]
  · rw [hcommit]
  · rw [hcommit, ← hlen]
    exact hpos

/-- The loop refines the cacheless loop. -/
theorem decodeLoop_refines (hint8 : params.kvInt8 = false) (hok : ∀ pos, env.logitsOk pos = true)
    (n : ℕ) : ∀ (i : ℕ) {s : GenState G} {a : CachelessState G}, Decoded e he s a →
      Decoded e he (decodeLoop e env params c.maxContext n i s)
        (cachelessLoop (refHidden e he) e env params c.maxContext n i a) := by
  induction n with
  | zero => exact fun _ _ _ h => h
  | succ n ih =>
    intro i s a h
    rw [decodeLoop, cachelessLoop, h.length_eq]
    split_ifs with hstop hlimit hmem
    · exact h
    · exact h
    · exact { h with }
    · obtain ⟨htoken, hnext⟩ :=
        decodeIteration_refines hint8 hok h.toLoopHead (Nat.not_le.mp hlimit)
      simp only [htoken]
      split_ifs
      · exact hnext
      · exact ih (i + 1) hnext

variable {promptTokens : List Int32} {dev : Device}

/-- The state in which a turn enters the loop, `pos` aside; without Path A nothing is
sampled yet. -/
def turnHead (rng : G) (promptTokens : List Int32) (dev : Device) (lastToken : Int32)
    (recentTokens : List Int32) (pos : ℕ) : GenState G :=
  { dev := dev, rng := rng, lastToken := lastToken, recentTokens := recentTokens,
    kvTokens := promptTokens.map Int32.toUInt32, pos := pos, completionTokens := 0, oomStops := 0 }

/-- The loop head behind Path A. -/
theorem pathA_decoded (hfits : promptTokens.length ≤ c.maxContext) (hcfg : dev.pool.cfg = c)
    (hdelivered : deliveredTokens dev.trace = [])
    (hrows : RowsMatch e he (promptTokens.map Int32.toUInt32) dev) (t : Int32 × G) (isEos : Bool) :
    Decoded e he
      ((turnHead t.2 promptTokens dev t.1 (pushRecent [] t.1) promptTokens.length).deliver t.1 isEos)
      ⟨promptTokens.map Int32.toUInt32 ++ [t.1.toUInt32], t.2, pushRecent [] t.1, [] ++ [t.1]⟩ := by
  refine ⟨⟨hcfg, ⟨_, rfl, (List.length_map _).symm, Or.inl rfl⟩, hrows.of_pool e he rfl, rfl, rfl, ?_⟩,
    rfl, by simpa [GenState.deliver, turnHead] using hfits⟩
  simp only [GenState.deliver, turnHead, Device.emit_trace, deliveredTokens_append, hdelivered]
  rfl

/-- With the hidden state of the prompt the first token comes from Path A. -/
theorem decodeFrom_prefilled (hint8 : params.kvInt8 = false) (hok : ∀ pos, env.logitsOk pos = true)
    (hfirst : env.firstLogitsOk = true) (hfits : promptTokens.length ≤ c.maxContext)
    (hcfg : dev.pool.cfg = c) (hdelivered : deliveredTokens dev.trace = [])
    (hrows : RowsMatch e he (promptTokens.map Int32.toUInt32) dev) (rng : G) :
    Decoded e he
      (decodeFrom e env params c.maxContext rng promptTokens
        (dev, some (refHidden e he (promptTokens.map Int32.toUInt32))))
      (cachelessTurn (refHidden e he) e env params c.maxContext (promptTokens.map Int32.toUInt32)
        rng) := by
  have hnonneg := e.sampleToken_nonneg
    (e.logits (refHidden e he (promptTokens.map Int32.toUInt32))) params.sampling [] rng
  have hhead := pathA_decoded hfits hcfg hdelivered hrows (e.sampleToken
    (e.logits (refHidden e he (promptTokens.map Int32.toUInt32))) params.sampling [] rng)
  rw [cachelessTurn]
  simp only [decodeFrom, firstToken, hfirst, if_true, if_pos hnonneg]
  by_cases heos : (e.sampleToken (e.logits (refHidden e he (promptTokens.map Int32.toUInt32)))
      params.sampling [] rng).1 = e.eosId
  · rw [if_pos heos, if_pos (by exact heos)]
    exact hhead _
  · rw [if_neg heos, if_neg (by exact heos)]
    exact decodeLoop_refines hint8 hok _ 1 (hhead _)

/-- Without it the loop starts over at the last position of the prompt. -/
theorem decodeFrom_none (limit : ℕ) (rng : G) :
    decodeFrom e env params limit rng promptTokens (dev, none) =
      decodeLoop e env params limit params.maxTokens.toNat 0
        (turnHead rng promptTokens dev (promptTokens.getLastD 0) [] (promptTokens.length - 1)) := by
  simp only [decodeFrom, firstToken]
  rfl

/-- A loop head whose context is the prompt itself. -/
theorem cached_loopHead (hne : promptTokens ≠ []) (hcfg : dev.pool.cfg = c)
    (hdelivered : deliveredTokens dev.trace = [])
    (hrows : RowsMatch e he (promptTokens.map Int32.toUInt32) dev) (rng : G) :
    LoopHead e he (turnHead rng promptTokens dev (promptTokens.getLastD 0) []
        (promptTokens.length - 1))
      ⟨promptTokens.map Int32.toUInt32, rng, [], []⟩ := by
  refine ⟨hcfg, ⟨(promptTokens.dropLast).map Int32.toUInt32, ?_, ?_, Or.inr rfl⟩, hrows, rfl, rfl,
    hdelivered⟩
  · obtain ⟨init, last, rfl⟩ := (List.eq_nil_or_concat promptTokens).resolve_left hne
    simp [turnHead]
  · simp [turnHead]

/-- If the loop gets past its checks there, it arrives where Path A does. -/
theorem decodeFrom_cached (hint8 : params.kvInt8 = false) (hok : ∀ pos, env.logitsOk pos = true)
    (hne : promptTokens ≠ []) (hfits : promptTokens.length ≤ c.maxContext)
    (hmax : 1 ≤ params.maxTokens) (hcfg : dev.pool.cfg = c)
    (hdelivered : deliveredTokens dev.trace = [])
    (hrows : RowsMatch e he (promptTokens.map Int32.toUInt32) dev) (rng : G)
    (hstop : env.stop 0 = false) (hmem : env.memOk (promptTokens.length - 1) = true) :
    Decoded e he (decodeFrom e env params c.maxContext rng promptTokens (dev, none))
      (cachelessTurn (refHidden e he) e env params c.maxContext (promptTokens.map Int32.toUInt32)
        rng) := by
  have hlen := List.length_pos_iff.mpr hne
  obtain ⟨n, hn⟩ : ∃ n, params.maxTokens.toNat = n + 1 := ⟨params.maxTokens.toNat - 1, by omega⟩
  have hn' : (params.maxTokens - 1).toNat = n := by omega
  have hhead := cached_loopHead hne hcfg hdelivered hrows rng
  obtain ⟨htoken, hnext⟩ := decodeIteration_refines hint8 hok hhead (by
    simp only [turnHead]
    omega)
  rw [decodeFrom_none, hn, decodeLoop, cachelessTurn, hn']
  simp only [hstop, Bool.false_eq_true, if_false, htoken]
  rw [if_neg (by simp only [turnHead]; omega), if_neg (by simp [turnHead, hmem])]
  split_ifs
  · exact hnext
  · exact decodeLoop_refines hint8 hok n 1 hnext

/-- If not, the turn ends with the prompt committed and nothing delivered. -/
theorem decodeFrom_refused (hne : promptTokens ≠ []) (hfits : promptTokens.length ≤ c.maxContext)
    (rng : G) (hrefused : params.maxTokens ≤ 0 ∨ env.stop 0 = true ∨
      env.memOk (promptTokens.length - 1) = false) :
    (decodeFrom e env params c.maxContext rng promptTokens (dev, none)).dev = dev ∧
      (decodeFrom e env params c.maxContext rng promptTokens (dev, none)).kvTokens =
        promptTokens.map Int32.toUInt32 := by
  have hlen := List.length_pos_iff.mpr hne
  rw [decodeFrom_none]
  cases hn : params.maxTokens.toNat with
  | zero => exact ⟨rfl, rfl⟩
  | succ n =>
    have hrefused := hrefused.resolve_left (by omega)
    rw [decodeLoop]
    by_cases hstop : env.stop 0 = true
    · rw [if_pos hstop]
      exact ⟨rfl, rfl⟩
    · rw [if_neg hstop, if_neg (by simp only [turnHead]; omega),
        if_pos (by simpa [turnHead] using hrefused.resolve_left hstop)]
      exact ⟨rfl, rfl⟩

end

end JLLM
