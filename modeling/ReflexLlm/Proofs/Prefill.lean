import ReflexLlm.Proofs.ForwardPass

/-! Batched prefill against per-token prefill. Both branches of `generate` run the
same causal stack over a row cache, one layer by layer and the other token by
token; they leave the same cache and the same residual of the last token. -/

namespace JLLM

open Causal

variable {W R : Type}

/-- The rows of a layer and position: key, value and their scales. -/
abbrev RowEntry := List UInt8 × List UInt8 × List UInt32 × List UInt32

def RowCache.entry (s : RowCache) (l p : ℕ) : RowEntry :=
  (s.key l p, s.val l p, s.kScale l p, s.vScale l p)

theorem RowCache.ext_entry {s s' : RowCache} (h : ∀ l p, s.entry l p = s'.entry l p) : s = s' := by
  simp only [entry, Prod.mk.injEq] at h
  exact RowCache.ext (funext₂ fun l p => (h l p).1) (funext₂ fun l p => (h l p).2.1)
    (funext₂ fun l p => (h l p).2.2.1) (funext₂ fun l p => (h l p).2.2.2)

/-- The entry a store leaves: without a scale slot the old scales stay. -/
def rowEntry (K : Kernels W R) (d : ModelDims) (kvInt8 slot : Bool) (k v : R) (e : RowEntry) :
    RowEntry :=
  if kvInt8 then
    let kq := K.fp16ToInt8 d.nKvHeads d.headDim k
    let vq := K.fp16ToInt8 d.nKvHeads d.headDim v
    (kq.1, vq.1, if slot then (kq.2, vq.2) else e.2.2)
  else (K.halfBytes d.kvDim k, K.halfBytes d.kvDim v, e.2.2)

section

variable (K : Kernels W R) (maxContext : ℕ) (scales : Bool) (d : ModelDims) (l p : ℕ)
  (s : RowCache) (q k v : R)

/-- Fused or copied, an FP16 store writes the two rows. -/
theorem prefillStore_fp16 :
    (prefillStore K (RowCache.mem maxContext scales) d false l p s q k v).1 =
      { s with
        key := setRow s.key l p (K.halfBytes d.kvDim (K.ropeInplace p q k).2)
        val := setRow s.val l p (K.halfBytes d.kvDim v) } := by
  simp only [prefillStore, Bool.false_eq_true, if_false]
  split_ifs <;> rfl

/-- An INT8 store writes the two rows, and the scales where there is a slot. -/
theorem prefillStore_int8 :
    (prefillStore K (RowCache.mem maxContext scales) d true l p s q k v).1 =
      let kq := K.fp16ToInt8 d.nKvHeads d.headDim (K.ropeInplace p q k).2
      let vq := K.fp16ToInt8 d.nKvHeads d.headDim v
      let slot := scales && decide (p < maxContext)
      { key := setRow s.key l p kq.1
        val := setRow s.val l p vq.1
        kScale := if slot then setRow s.kScale l p kq.2 else s.kScale
        vScale := if slot then setRow s.vScale l p vq.2 else s.vScale } := by
  simp only [prefillStore, Bool.not_true, Bool.false_and, Bool.false_eq_true, if_false, if_true]
  cases hslot : scales && decide (p < maxContext) <;>
    simp only [storeInt8, RowCache.mem, hslot, Bool.false_eq_true, if_false, if_true]

/-- A store replaces its own entry and leaves the others. -/
theorem prefillStore_entry (kvInt8 : Bool) (l' p' : ℕ) :
    (prefillStore K (RowCache.mem maxContext scales) d kvInt8 l p s q k v).1.entry l' p' =
      if (l', p') = (l, p) then
        rowEntry K d kvInt8 (scales && decide (p < maxContext)) (K.ropeInplace p q k).2 v
          (s.entry l p)
      else s.entry l' p' := by
  cases kvInt8 with
  | false =>
    rw [prefillStore_fp16]
    by_cases h : l' = l ∧ p' = p
    · obtain ⟨rfl, rfl⟩ := h
      simp [RowCache.entry, setRow, rowEntry]
    · simp [RowCache.entry, setRow, h]
  | true =>
    rw [prefillStore_int8]
    by_cases h : l' = l ∧ p' = p
    · obtain ⟨rfl, rfl⟩ := h
      cases hslot : scales && decide (p' < maxContext) <;>
        simp [RowCache.entry, setRow, rowEntry]
    · cases hslot : scales && decide (p < maxContext) <;>
        simp [RowCache.entry, setRow, h]

end

/-- The row cache as a row view. -/
def rowCacheView (K : Kernels W R) (hK : K.RowWise) (maxContext : ℕ) (scales : Bool)
    (d : ModelDims) (kvInt8 : Bool) :
    RowView K (RowCache.mem maxContext scales) d kvInt8 RowEntry where
  inv := fun _ => True
  get := RowCache.entry
  valid := fun _ _ => True
  enc := fun p => rowEntry K d kvInt8 (scales && decide (p < maxContext))
  att := fun q f n =>
    let scaled := kvInt8 && (scales && decide (0 < maxContext))
    K.flashAttentionDecode q (fun j => (f j).1) (fun j => (f j).2.1) n kvInt8
      (if scaled then some fun j => (f j).2.2.1 else none)
      (if scaled then some fun j => (f j).2.2.2 else none)
  stableFast := fun _ _ _ _ _ => ⟨rfl, rfl⟩
  keeps := fun _ _ _ _ _ _ => trivial
  written := fun _ _ _ _ _ _ => by rw [prefillStore_entry, if_pos rfl]
  frame := fun _ _ _ _ _ _ _ hne => by rw [prefillStore_entry, if_neg hne]
  reads := fun _ _ _ _ => rfl
  readsBelow := by
    intro q f g n h
    apply hK.readsRows <;> intro j hj <;> rw [h j hj]

end JLLM
