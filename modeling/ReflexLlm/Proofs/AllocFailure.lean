import ReflexLlm.Proofs.PoolInit
import ReflexLlm.Proofs.TurnTrace

/-! What becomes of allocations that fail in `init`. A refused pool keeps no block. A pool
without scale storage is served like any other: nobody looks at the null pointer before
the INT8 rows of the next turn are stored. -/

namespace JLLM

open Runs

/-- The INT8 calls of a turn get scales: `fp16_to_int8` those of the row it stores, and the
attention behind it those of the positions up to that row. -/
def Int8CallsScaled (p : KVCachePool) (trace : List Event) : Prop :=
  ∀ layer pos isValue dst len, Event.rowWrite layer pos isValue dst len ∈ trace →
    ∀ q ≤ pos, (p.kvScalePtr layer q isValue).isSome = true

/-- Whatever turns there were, the next one for INT8 rows gets its scales. -/
def Int8Served (p : KVCachePool) : Prop :=
  ∀ (W R L P G : Type) (e : Engine W R L P G), e.kernels.RowCounts → ModelRows p.cfg e.dims →
    ∀ (dir : String) (rng : G) (fs : FileSystem) (events : List (SessionEvent P)) (s : Session G),
      Run (SessionStep e dir) ⟨⟨p, rng⟩, fs⟩ events s →
      ∀ (env : TurnEnv) (params : GenParams P) (prompt : List UInt8) (turn : Turn G),
        params.kvInt8 = true → generate e env params dir prompt s.engine s.fs = .returned turn →
        Int8CallsScaled s.engine.pool turn.trace

/-- A pool that advertises only storage that it has. -/
structure Backed (p : KVCachePool) : Prop where
  overflow : p.cfg.maxContext < p.maxTokens → p.cpuPool.isSome = true
  int8 : p.cfg.kvTypeBytes = 1 → Int8Served p

/-- What `init` should leave behind, whichever allocations fail. -/
def InitConsistent (cfg : Config) (hInt : cfg.IsInt) (a : AllocOutcome) : Prop :=
  (KVCachePool.init cfg hInt a = none → ((KVCachePool.initBlocks cfg a).run []).2 = []) ∧
    ∀ p, KVCachePool.init cfg hInt a = some p → Backed p

/-- The allocations that are needed succeed. -/
def AllocOutcome.Suffices (a : AllocOutcome) (cfg : Config) : Prop :=
  (cfg.overflowContext = 0 ∨ 0 < cfg.nLayers * cfg.entryBytes) ∧
    (cfg.kvTypeBytes = 1 →
      cfg.nLayers = 0 ∨ cfg.maxContext + a.keptOverflow cfg ≤ 1 ∨
        a.cudaMallocScales = true ∧ a.keptOverflow cfg = 0)

/-! ### Rows of a turn -/

/-- A pool with the shape and the scale storage of `p`. -/
structure SameScales (p q : KVCachePool) : Prop where
  cfg : q.cfg = p.cfg
  scales : q.kvScales.isSome = p.kvScales.isSome

theorem SameScales.kvScalePtr {p q : KVCachePool} (h : SameScales p q) (layer pos : ℕ)
    (isValue : Bool) : q.kvScalePtr layer pos isValue = p.kvScalePtr layer pos isValue := by
  rw [q.kvScalePtr_eq, p.kvScalePtr_eq, h.cfg, h.scales]

theorem sameScales_store {p q : KVCachePool} (h : SameScales p q) (ptr : Ptr) (bytes : List UInt8) :
    SameScales p (q.store ptr bytes) := by
  refine ⟨(KVCachePool.store_cfg _ _ _).trans h.cfg, ?_⟩
  rw [← h.scales]
  obtain ⟨block, off⟩ := ptr
  cases block <;> rfl

theorem sameScales_storeScales {p q : KVCachePool} (h : SameScales p q) (ptr : Option Ptr)
    (cells : List UInt32) : SameScales p ((ptr.map (q.storeScales · cells)).getD q) := by
  cases ptr with
  | none => exact h
  | some ptr =>
    refine ⟨h.cfg, ?_⟩
    rw [← h.scales]
    exact Option.isSome_map

/-- The rows that a device wrote are rows of the pool. -/
def RowsWithin (p : KVCachePool) (s : Device) : Prop :=
  SameScales p s.pool ∧ ∀ layer pos isValue dst len,
    Event.rowWrite layer pos isValue dst len ∈ s.trace → layer < p.cfg.nLayers ∧ pos < p.maxTokens

theorem RowsWithin.emit {p : KVCachePool} {s : Device} (h : RowsWithin p s) {event : Event}
    (hevent : ∀ layer pos isValue dst len, event = .rowWrite layer pos isValue dst len →
      layer < p.cfg.nLayers ∧ pos < p.maxTokens) : RowsWithin p (s.emit event) := by
  refine ⟨h.1, fun layer pos isValue dst len hmem => ?_⟩
  rcases List.mem_append.mp hmem with hmem | hmem
  · exact h.2 layer pos isValue dst len hmem
  · exact hevent layer pos isValue dst len (List.mem_singleton.mp hmem).symm

theorem rowsWithin_keeps {p : KVCachePool} {d : ModelDims} (hshape : ModelRows p.cfg d)
    (kvInt8 : Bool) : TurnKeeps d kvInt8 p.maxTokens (RowsWithin p) := by
  refine ⟨⟨fun s l pos row hs hl hpos _ => ?_, fun s l pos row hs hl hpos _ => ?_,
    fun s l pos row hs => ?_, fun s l pos row hs => ?_⟩, fun s pos token hs _ => ?_,
    fun s token isEos hs => ?_⟩
  · have hstored : RowsWithin p { s with pool := s.pool.store (s.pool.keyPtr l pos) row } :=
      ⟨sameScales_store hs.1 _ _, hs.2⟩
    refine hstored.emit fun layer pos' isValue dst len heq => ?_
    cases heq
    exact ⟨hshape.layers ▸ hl, hpos⟩
  · have hstored : RowsWithin p { s with pool := s.pool.store (s.pool.valPtr l pos) row } :=
      ⟨sameScales_store hs.1 _ _, hs.2⟩
    refine hstored.emit fun layer pos' isValue dst len heq => ?_
    cases heq
    exact ⟨hshape.layers ▸ hl, hpos⟩
  · exact ⟨sameScales_storeScales hs.1 _ _, hs.2⟩
  · exact ⟨sameScales_storeScales hs.1 _ _, hs.2⟩
  · exact hs.emit fun layer pos' isValue dst len heq => by cases heq
  · exact hs.emit fun layer pos' isValue dst len heq => by cases heq

section

variable {W R L P G : Type} {e : Engine W R L P G} {p : KVCachePool} {dir : String}

/-- A turn writes rows of the pool only, and leaves its shape and its scale storage. -/
theorem turn_rowsWithin (hK : e.kernels.RowCounts) (hshape : ModelRows p.cfg e.dims) {env : TurnEnv}
    {params : GenParams P} {prompt : List UInt8} {s : EngineState G} {fs : FileSystem}
    {turn : Turn G} (hs : SameScales p s.pool)
    (h : generate e env params dir prompt s fs = .returned turn) :
    SameScales p turn.engine.pool ∧ 1 < p.maxTokens ∧
      ∀ layer pos isValue dst len, Event.rowWrite layer pos isValue dst len ∈ turn.trace →
        layer < p.cfg.nLayers ∧ pos < p.maxTokens := by
  obtain ⟨m, q, hhydrate, htokens, rfl⟩ := generate_eq_returned h
  have hlimit : s.pool.maxTokens = p.maxTokens := by
    rw [KVCachePool.maxTokens, KVCachePool.maxTokens, hs.cfg]
  rw [hlimit] at htokens ⊢
  have hsome := List.length_pos_iff.mpr (promptTokens_ne_nil (e := e) prompt)
  have hq : SameScales p q := by
    refine ⟨(tryHydrateKv_returned hhydrate).1.trans hs.cfg, ?_⟩
    rw [← hs.scales]
    refine tryHydrateKv_keeps (fun p => p.kvScales.isSome) (fun src used => ?_) hhydrate
    simp only [KVCachePool.scatterFromHost]
    split_ifs <;> rfl
  have hhydrated : RowsWithin p ⟨q, if m = 0 then [] else [.hydrated m]⟩ := by
    refine ⟨hq, fun layer pos isValue dst len hmem => ?_⟩
    split_ifs at hmem
    · cases hmem
    · cases List.mem_singleton.mp hmem
  have hkeeps := rowsWithin_keeps hshape params.kvInt8
  have hdev : RowsWithin p
      (turnState e env params p.maxTokens s.rng (e.promptTokens prompt) m q).dev :=
    hkeeps.decodeFrom (hkeeps.prefill hK hhydrated m htokens.le) s.rng
  refine ⟨hdev.1, by omega, fun layer pos isValue dst len hmem => ?_⟩
  simp only [finishTurn] at hmem
  split_ifs at hmem
  · refine hdev.2 layer pos isValue dst len ?_
    rcases List.mem_append.mp hmem with hmem | hmem
    · exact hmem
    · cases List.mem_singleton.mp hmem
  · exact hdev.2 layer pos isValue dst len hmem

theorem sessionStep_sameScales (hK : e.kernels.RowCounts) (hshape : ModelRows p.cfg e.dims)
    {s s' : Session G} {event : SessionEvent P} (hs : SameScales p s.engine.pool)
    (hstep : SessionStep e dir s event s') : SameScales p s'.engine.pool := by
  cases hstep with
  | returned h => exact (turn_rowsWithin hK hshape hs h).1
  | threw h => exact generate_threw h ▸ hs
  | evict => exact hs

end

/-- Scale storage without overflow positions serves INT8 turns; otherwise there has to be
nothing to serve. -/
theorem int8Served_of {p : KVCachePool} (h : p.cfg.nLayers = 0 ∨ p.maxTokens ≤ 1 ∨
    p.kvScales.isSome = true ∧ p.cfg.overflowContext = 0) : Int8Served p := by
  intro W R L P G e hK hshape dir rng fs events s hrun env params prompt turn _ hturn
  have hstep : ∀ s event s', SameScales p s.engine.pool → SessionStep e dir s event s' →
      SameScales p s'.engine.pool :=
    fun _ _ _ hs hstep => sessionStep_sameScales hK hshape hs hstep
  have hs : SameScales p s.engine.pool := hrun.invariant hstep ⟨rfl, rfl⟩
  obtain ⟨-, hlimit, hrows⟩ := turn_rowsWithin hK hshape hs hturn
  intro layer pos isValue dst len hmem q hq
  obtain ⟨hl, hpos⟩ := hrows layer pos isValue dst len hmem
  rcases h with hL | hmax | ⟨hscales, hover⟩
  · omega
  · omega
  · rw [KVCachePool.maxTokens, Config.maxTokens, hover] at hpos
    rw [hs.kvScalePtr, p.kvScalePtr_eq, if_pos ⟨hscales, hl, by omega⟩]
    rfl

/-! ### A turn that fills the context -/

/-- An engine that reads any prompt as `n` tokens. -/
def fillingEngine (d : ModelDims) (n : ℕ) : Engine ℕ ℕ ℕ Unit Unit :=
  { constantEngine Unit with dims := d, encode := fun _ => List.replicate n 0 }

/-- Nothing fails but the sampling of the first token. -/
def secondTryEnv : TurnEnv := { calmEnv with firstLogitsOk := false }

def int8Params : GenParams Unit := ⟨2, true, "", ()⟩

section

variable {d : ModelDims} {n limit : ℕ}

/-- Its samples do not end the loop. -/
theorem fillingEngine_loop (k i : ℕ) {s : GenState Unit} (hpos : s.pos < limit) :
    decodeLoop (fillingEngine d n) secondTryEnv int8Params limit (k + 1) i s =
      decodeLoop (fillingEngine d n) secondTryEnv int8Params limit k (i + 1)
        (decodeIteration (fillingEngine d n) secondTryEnv int8Params s).1 := by
  have htoken : (decodeIteration (fillingEngine d n) secondTryEnv int8Params s).2 = 3 := rfl
  have hstop : ¬ secondTryEnv.stop i = true := Bool.false_ne_true
  have hmem : ¬ secondTryEnv.memOk s.pos = false := fun h => absurd h.symm Bool.false_ne_true
  rw [decodeLoop, if_neg hstop, if_neg (Nat.not_le.mpr hpos), if_neg hmem]
  simp only [htoken]
  exact if_neg (show ¬ (3 : Int32) = 2 by decide)

/-- The last of two iterations writes the row behind the prompt. -/
theorem fillingEngine_loop_writes (hd : 0 < d.nLayers) {s : GenState Unit} (hpos : s.pos + 1 < limit) :
    rowEvent 0 (s.pos + 1) false ∈
      (decodeLoop (fillingEngine d n) secondTryEnv int8Params limit 2 0 s).dev.bare := by
  have hfirst := decodeIteration_iterated (fillingEngine d n) int8Params secondTryEnv s
  have hsecond := decodeIteration_iterated (fillingEngine d n) int8Params secondTryEnv
    (decodeIteration (fillingEngine d n) secondTryEnv int8Params s).1
  rw [fillingEngine_loop 1 0 (by omega), fillingEngine_loop 0 1 (by rw [hfirst.pos]; exact hpos),
    decodeLoop, hsecond.bare, hfirst.pos, List.mem_append, List.mem_cons, List.mem_append]
  exact .inr (.inr (.inl (mem_tokenRows.mpr ⟨0, false, rfl, hd⟩)))

theorem mem_trace_of_bare {trace : List Event} {layer pos : ℕ} {isValue : Bool}
    (h : rowEvent layer pos isValue ∈ trace.map Event.bare) :
    ∃ dst len, Event.rowWrite layer pos isValue dst len ∈ trace := by
  obtain ⟨event, hmem, heq⟩ := List.mem_map.mp h
  cases event with
  | rowWrite layer' pos' isValue' dst len =>
    simp only [Event.bare, rowEvent, Event.rowWrite.injEq] at heq
    obtain ⟨rfl, rfl, rfl, -⟩ := heq
    exact ⟨dst, len, hmem⟩
  | _ => cases heq

/-- Two tokens behind a prompt write a row at the position behind it. -/
theorem fillingEngine_writes (hd : 0 < d.nLayers) (hn : 0 < n) (hlt : n < 2 ^ 32)
    {p : KVCachePool} (hmax : p.maxTokens = n + 1) (fs : FileSystem) :
    ∃ turn, generate (fillingEngine d n) secondTryEnv int8Params "" [] ⟨p, ()⟩ fs = .returned turn ∧
      ∃ dst len, Event.rowWrite 0 n false dst len ∈ turn.trace := by
  have htokens : (fillingEngine d n).promptTokens [] = List.replicate n 0 := by
    have hne : ¬ (List.replicate n (0 : Int32)).isEmpty = true := by
      rw [List.isEmpty_iff, List.replicate_eq_nil_iff]
      omega
    exact if_neg hne
  have hadmitted : ¬ promptRefused p.maxTokens int8Params [] ((fillingEngine d n).promptTokens []) := by
    rw [htokens, promptRefused, List.length_replicate, hmax]
    rintro (h | h | h)
    · simp at h
    · omega
    · have hsum : ((n : ℤ) + 2) % 2 ^ 64 = n + 2 := Int.emod_eq_of_lt (by omega) (by omega)
      rw [reserveThrows, decide_eq_true_eq] at h
      change (2 ^ 63 - 1) / 4 < ((n : ℤ) + 2) % 2 ^ 64 at h
      omega
  have hloop (prefilled : Device × Option ℕ) :
      rowEvent 0 n false ∈ (decodeFrom (fillingEngine d n) secondTryEnv int8Params p.maxTokens ()
        (List.replicate n 0) prefilled).dev.bare := by
    have hfirst : firstToken (fillingEngine d n) secondTryEnv int8Params prefilled.2 () = (-1, ()) := by
      unfold firstToken
      cases prefilled.2 with
      | none => rfl
      | some x => rfl
    unfold decodeFrom
    simp only [hfirst]
    rw [if_neg (by decide)]
    have hwrites := @fillingEngine_loop_writes d n p.maxTokens hd
      (s := ⟨prefilled.1, (), (List.replicate n 0).getLastD 0, [],
        (List.replicate n (0 : Int32)).map Int32.toUInt32, (List.replicate n (0 : Int32)).length - 1,
        0, 0⟩) (by simp only [List.length_replicate]; omega)
    simp only [List.length_replicate, Nat.sub_add_cancel hn] at hwrites ⊢
    exact hwrites
  refine ⟨_, generate_fresh (s := ⟨p, ()⟩) hadmitted (fun h => absurd h.1 (by decide)),
    mem_trace_of_bare ?_⟩
  have hrow := hloop (prefill (fillingEngine d n) int8Params ⟨p, []⟩ 0 (List.replicate n 0))
  rw [← htokens] at hrow
  simp only [finishTurn]
  split_ifs
  · rw [List.map_append, List.mem_append]
    exact .inl hrow
  · exact hrow

end

theorem int8Served_iff (p : KVCachePool) : Int8Served p ↔ p.cfg.nLayers = 0 ∨ p.maxTokens ≤ 1 ∨
    p.kvScales.isSome = true ∧ p.cfg.overflowContext = 0 := by
  refine ⟨fun h => ?_, int8Served_of⟩
  by_contra hnone
  rw [not_or, not_or] at hnone
  obtain ⟨hL, hmax, hscales⟩ := hnone
  obtain ⟨-, -, -, hctx, hover, -⟩ := p.cfg_isInt
  have hlimit : p.maxTokens = p.cfg.maxContext + p.cfg.overflowContext := rfl
  obtain ⟨turn, hturn, dst, len, hmem⟩ := fillingEngine_writes
    (d := ⟨p.cfg.nLayers, 1, p.cfg.nKvHeads, p.cfg.headDim⟩) (n := p.maxTokens - 1)
    (Nat.pos_of_ne_zero hL) (by omega) (by omega) (p := p) (by omega) (fun _ => none)
  have hscaled := h ℕ ℕ ℕ Unit Unit (fillingEngine _ (p.maxTokens - 1))
    byteSumKernels_rowWise.rowCounts ⟨rfl, rfl, rfl⟩ "" () (fun _ => none) []
    ⟨⟨p, ()⟩, fun _ => none⟩ (.nil _) secondTryEnv int8Params [] turn rfl hturn 0 _ false dst len hmem
    _ le_rfl
  rw [p.kvScalePtr_eq] at hscaled
  by_cases hc : p.kvScales.isSome = true ∧ 0 < p.cfg.nLayers ∧ p.maxTokens - 1 < p.cfg.maxContext
  · exact hscales ⟨hc.1, by omega⟩
  · rw [if_neg hc] at hscaled
    cases hscaled

/-- A pool advertises only what it has when every advertised overflow position has bytes,
and every position of an INT8 context has scales. -/
theorem backed_iff {cfg : Config} {hInt : cfg.IsInt} {a : AllocOutcome} {p : KVCachePool}
    (h : KVCachePool.init cfg hInt a = some p) : Backed p ↔ a.Suffices cfg := by
  obtain ⟨-, -, hshape, hcpu, hscales⟩ := init_initialised h
  have hint8 : (p.cfg.kvTypeBytes = 1 → Int8Served p) ↔ (cfg.kvTypeBytes = 1 →
      cfg.nLayers = 0 ∨ cfg.maxContext + a.keptOverflow cfg ≤ 1 ∨
        a.cudaMallocScales = true ∧ a.keptOverflow cfg = 0) := by
    rw [int8Served_iff, hscales, KVCachePool.maxTokens, Config.maxTokens, hshape]
    refine imp_congr_right fun htype => ?_
    have hint8 : cfg.kvTypeBytes = 1 := htype
    simp only [hint8, true_and]
  have hoverflow : (p.cfg.maxContext < p.maxTokens → p.cpuPool.isSome = true) ↔
      (cfg.overflowContext = 0 ∨ 0 < cfg.nLayers * cfg.entryBytes) := by
    constructor
    · intro hbacked
      by_contra hnone
      rw [not_or, Nat.not_lt, Nat.le_zero] at hnone
      obtain ⟨hover, hbytes⟩ := hnone
      have hempty : cfg.overflowBytes = 0 := by rw [Config.overflowBytes, hbytes, Nat.zero_mul]
      have hkept : a.keptOverflow cfg = cfg.overflowContext :=
        if_neg fun hc => absurd hc.2.1 (by rw [hempty]; exact lt_irrefl 0)
      have hpos : p.cfg.maxContext < p.maxTokens := by
        rw [KVCachePool.maxTokens, Config.maxTokens, hshape]
        change cfg.maxContext < cfg.maxContext + a.keptOverflow cfg
        omega
      have hsize := (hcpu.mp (hbacked hpos)).2.1
      omega
    · intro hbytes hpos
      obtain ⟨-, hover⟩ := init_overflow_kept h hpos
      exact init_overflow_backed h (hbytes.resolve_left (by omega)) hpos
  constructor
  · exact fun hb => ⟨hoverflow.mp hb.overflow, hint8.mp hb.int8⟩
  · exact fun hs => ⟨hoverflow.mpr hs.1, hint8.mpr hs.2⟩

end JLLM
