import ReflexLlm.Proofs.PoolRows
import ReflexLlm.Spec.Cacheless

/-! The KV cache refines decoding without one. The rows of the committed tokens are the
reference rows, prefill and each decode step keep it so, and the hidden state they
arrive at is the one of the whole context. -/

namespace JLLM

open Causal

variable {W R L P G : Type}

/-- An engine whose pool of configuration `c` has FP16 rows and no overflow, and whose
kernels act row by row. -/
structure Fp16Engine (e : Engine W R L P G) (c : Config) : Prop where
  kernels : e.kernels.RowWise
  rows : HalfRows c e.dims
  noOverflow : c.overflowContext = 0

section

variable (e : Engine W R L P G) {c : Config} (he : Fp16Engine e c)

/-- The causal stack of the model. -/
def refStack : Stack R (List UInt8 × List UInt8) :=
  (poolView e.kernels he.kernels he.rows []).stack e.weights

/-- The embeddings of a list of tokens, by position. -/
def refInput (tokens : List UInt32) (p : ℕ) : R :=
  e.kernels.dequantEmbedding (tokens.getD p 0).toInt32

/-- The key and value row that position `p` of a context has at a layer. -/
def refRows (tokens : List UInt32) (l p : ℕ) : List UInt8 × List UInt8 :=
  (refStack e he).rows (fun _ _ => ([], [])) 0 (refInput e tokens) l p

/-- The hidden state of the last position of a context. -/
def refHidden (tokens : List UInt32) : R :=
  (refStack e he).hid (fun _ _ => ([], [])) 0 (refInput e tokens) e.dims.nLayers (tokens.length - 1)

/-- The device holds the rows of these tokens. -/
def RowsMatch (tokens : List UInt32) (s : Device) : Prop :=
  ∀ l p, l < e.dims.nLayers → p < tokens.length → s.rows l p = refRows e he tokens l p

theorem refStack_overwrites : (refStack e he).Overwrites := fun _ _ _ _ _ => rfl

theorem rowsMatch_iff {tokens : List UInt32} {s : Device} :
    RowsMatch e he tokens s ↔ Holds (refStack e he) (fun _ _ => ([], [])) Device.rows
      (refInput e tokens) e.dims.nLayers tokens.length s := Iff.rfl

theorem rowsMatch_nil (s : Device) : RowsMatch e he [] s := fun _ p _ hp => absurd hp (Nat.not_lt_zero p)

/-- Only the pool matters. -/
theorem RowsMatch.of_pool {tokens : List UInt32} {s s' : Device} (h : RowsMatch e he tokens s)
    (hpool : s'.pool = s.pool) : RowsMatch e he tokens s' := by
  intro l p hl hp
  rw [← h l p hl hp, Device.rows, Device.rows, hpool]

theorem refInput_initial {tokens tokens' : List UInt32} (h : tokens <+: tokens') {j : ℕ}
    (hj : j < tokens.length) : refInput e tokens j = refInput e tokens' j := by
  obtain ⟨rest, rfl⟩ := h
  rw [refInput, refInput, List.getD_append _ _ _ _ hj]

/-- The rows of a context do not depend on what follows. -/
theorem refRows_initial {tokens tokens' : List UInt32} (h : tokens <+: tokens') (l : ℕ) {p : ℕ}
    (hp : p < tokens.length) : refRows e he tokens l p = refRows e he tokens' l p :=
  Stack.rows_congr (fun _ hj => refInput_initial e h (Nat.lt_of_le_of_lt hj hp)) l le_rfl

theorem RowsMatch.ofInitial {tokens tokens' : List UInt32} {s : Device} (h : RowsMatch e he tokens' s)
    (hpre : tokens <+: tokens') : RowsMatch e he tokens s := fun l p hl hp => by
  rw [h l p hl (Nat.lt_of_lt_of_le hp hpre.length_le), refRows_initial e he hpre l hp]

/-- The pool keeps its shape and the trace has these events besides row writes. -/
def DeviceInv (c : Config) (events : List Event) (s : Device) : Prop :=
  s.pool.cfg = c ∧ turnEvents s.trace = events

/-- A forward pass of the next token stores its rows and arrives at its hidden state. -/
theorem forwardToken_matches {tokens : List UInt32} (token : UInt32) {events : List Event}
    {s : Device} (hinv : DeviceInv c events s) (hfits : tokens.length < c.maxContext)
    (hs : RowsMatch e he tokens s) :
    let a := forwardToken e.kernels Device.mem e.dims false e.weights e.dims.nLayers tokens.length s
      token.toInt32
    DeviceInv c events a.1 ∧ RowsMatch e he (tokens ++ [token]) a.1 ∧
      a.2 = refHidden e he (tokens ++ [token]) := by
  have hprior : Holds (refStack e he) (fun _ _ => ([], [])) Device.rows
      (refInput e (tokens ++ [token])) e.dims.nLayers tokens.length s :=
    ((rowsMatch_iff e he).mp hs).congr fun j hj => refInput_initial e (List.prefix_append _ _) hj
  have hinput : refInput e (tokens ++ [token]) tokens.length =
      e.kernels.dequantEmbedding token.toInt32 := by
    simp [refInput]
  obtain ⟨hi, hget, hx⟩ := throughLayers_holds (refStack_overwrites e he)
    ((poolView e.kernels he.kernels he.rows events).realizes e.weights he.kernels) hinv
    (fun l p _ hp => Nat.lt_of_le_of_lt hp hfits) hprior
  rw [hinput, ← RowView.forwardToken_eq] at hi hget hx
  refine ⟨hi, ?_, ?_⟩
  · rw [rowsMatch_iff, List.length_append]
    exact hget
  · rw [refHidden, List.length_append]
    exact hx

/-! ### Prefill -/

/-- The forward events of a prefill. -/
def prefillEvents (prefillStart : ℕ) (promptTokens : List Int32) : List Event :=
  ((promptTokens.drop prefillStart).zipIdx prefillStart).map fun t => .forward t.2 t.1

theorem emit_foldl {α : Type} (f : α → Event) (l : List α) (s : Device) :
    l.foldl (fun s t => s.emit (f t)) s = { s with trace := s.trace ++ l.map f } := by
  induction l generalizing s with
  | nil => simp
  | cons t l ih =>
    rw [List.foldl_cons, ih]
    simp [Device.emit]

theorem deviceInv_prefillEvents {events : List Event} {s : Device} (h : DeviceInv c events s)
    (m : ℕ) (promptTokens : List Int32) :
    DeviceInv c (events ++ prefillEvents m promptTokens)
      { s with trace := s.trace ++ prefillEvents m promptTokens } := by
  refine ⟨h.1, ?_⟩
  have hforward : turnEvents (prefillEvents m promptTokens) = prefillEvents m promptTokens := by
    refine List.filter_eq_self.mpr fun event hevent => ?_
    obtain ⟨t, -, rfl⟩ := List.mem_map.mp hevent
    rfl
  rw [turnEvents, List.filter_append]
  exact congrArg₂ _ h.2 hforward

/-- The embeddings of the rest of a prompt. -/
theorem embeddings_eq (promptTokens : List Int32) (m : ℕ) :
    (promptTokens.drop m).map e.kernels.dequantEmbedding =
      (List.range (promptTokens.length - m)).map fun i =>
        refInput e (promptTokens.map Int32.toUInt32) (m + i) := by
  apply List.ext_getElem
  · simp
  · intro i h₁ h₂
    simp only [List.length_map, List.length_drop] at h₁
    have hlt : m + i < promptTokens.length := by omega
    simp [refInput, hlt]

/-- Prefill completes the rows of a held prefix to the rows of the prompt, and returns
the hidden state of its last token unless there was nothing to do. -/
theorem prefill_matches {params : GenParams P} (hint8 : params.kvInt8 = false)
    {promptTokens : List Int32} {m : ℕ} {events : List Event} {s : Device}
    (hinv : DeviceInv c events s) (hm : m ≤ promptTokens.length)
    (hfits : promptTokens.length ≤ c.maxContext)
    (hs : RowsMatch e he ((promptTokens.map Int32.toUInt32).take m) s) :
    DeviceInv c (events ++ prefillEvents m promptTokens) (prefill e params s m promptTokens).1 ∧
      RowsMatch e he (promptTokens.map Int32.toUInt32) (prefill e params s m promptTokens).1 ∧
      (prefill e params s m promptTokens).2 =
        if m = promptTokens.length then none
        else some (refHidden e he (promptTokens.map Int32.toUInt32)) := by
  by_cases hfull : m = promptTokens.length
  · subst hfull
    rw [List.take_of_length_le (by simp)] at hs
    simp only [prefill, prefillEvents, List.drop_length, List.isEmpty_nil, if_true]
    exact ⟨by simpa using hinv, hs, trivial⟩
  · have hrest : (promptTokens.drop m).isEmpty = false := by
      simp only [List.isEmpty_eq_false_iff, ne_eq, List.drop_eq_nil_iff]
      omega
    have hprior : Holds (refStack e he) (fun _ _ => ([], [])) Device.rows
        (refInput e (promptTokens.map Int32.toUInt32)) e.dims.nLayers m s := by
      have hlen : ((promptTokens.map Int32.toUInt32).take m).length = m := by simp [hm]
      have hinitial := List.take_prefix m (promptTokens.map Int32.toUInt32)
      have h := (rowsMatch_iff e he).mp hs
      rw [hlen] at h
      exact h.congr fun j hj => refInput_initial e hinitial (by rwa [hlen])
    have hinv' := deviceInv_prefillEvents hinv m promptTokens
    have hprior' : Holds (refStack e he) (fun _ _ => ([], [])) Device.rows
        (refInput e (promptTokens.map Int32.toUInt32)) e.dims.nLayers m
        { s with trace := s.trace ++ prefillEvents m promptTokens } := hprior
    have hemit : ((promptTokens.drop m).zipIdx m).foldl
        (fun s t => s.emit (.forward t.2 t.1)) s =
        { s with trace := s.trace ++ prefillEvents m promptTokens } := emit_foldl _ _ _
    have hvalid : ∀ l p, l < e.dims.nLayers → p < m + (promptTokens.length - m) →
        p < c.maxContext := fun l p _ hp => by omega
    have hlast : ((List.range (promptTokens.length - m)).map fun i =>
        (refStack e he).hid (fun _ _ => ([], [])) 0 (refInput e (promptTokens.map Int32.toUInt32))
          e.dims.nLayers (m + i)).getLast? =
        some (refHidden e he (promptTokens.map Int32.toUInt32)) := by
      rw [List.getLast?_map, List.getLast?_range, if_neg (by omega), refHidden, List.length_map,
        Option.map_some]
      congr 2
      omega
    have hlen : m + (promptTokens.length - m) = (promptTokens.map Int32.toUInt32).length := by
      rw [List.length_map]
      omega
    simp only [prefill, hrest, hemit, hint8, Bool.false_eq_true, if_false, if_neg hfull]
    split_ifs with hbatched
    · obtain ⟨hi, hget, hx⟩ := layerMajor_holds (refStack_overwrites e he)
        ((poolView e.kernels he.kernels he.rows (events ++ prefillEvents m promptTokens)).realizesBatch
          e.weights he.kernels) hinv' hvalid hprior'
      rw [RowView.prefillBatched_eq, embeddings_eq]
      simp only [hx, hlast]
      exact ⟨hi, by rwa [rowsMatch_iff, ← hlen], trivial⟩
    · obtain ⟨hi, hget, hx⟩ := tokenMajor_holds (refStack_overwrites e he)
        ((poolView e.kernels he.kernels he.rows (events ++ prefillEvents m promptTokens)).realizes
          e.weights he.kernels) hinv' hvalid hprior'
      rw [RowView.prefillPerToken_eq, embeddings_eq]
      simp only [hx, hlast, hrest, Bool.false_eq_true, if_false]
      exact ⟨hi, by rwa [rowsMatch_iff, ← hlen], trivial⟩

end

end JLLM
