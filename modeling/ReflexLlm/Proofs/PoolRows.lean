import ReflexLlm.Proofs.ForwardPass
import ReflexLlm.Proofs.PoolLayout

/-! The pool's bytes as rows. In FP16 mode and below `max_context` a store replaces one
key row and one value row, and attention reads the rows it should, so the pool realises
the causal stack of the forward pass. -/

namespace JLLM

open ByteMem Causal

namespace KVCachePool

@[simp] theorem store_cfg (p : KVCachePool) (ptr : Ptr) (bytes : List UInt8) :
    (p.store ptr bytes).cfg = p.cfg := by
  obtain ⟨block, off⟩ := ptr
  cases block <;> rfl

@[simp] theorem storeScales_cfg (p : KVCachePool) (ptr : Ptr) (cells : List UInt32) :
    (p.storeScales ptr cells).cfg = p.cfg := rfl

/-- A row stored in the fast pool replaces that row only. -/
theorem row_store (p : KVCachePool) {l half pos l' half' pos' : ℕ} (hh : half < 2) (hh' : half' < 2)
    (hpos : pos < p.cfg.maxContext) (hpos' : pos' < p.cfg.maxContext) {bytes : List UInt8}
    (hlen : bytes.length = p.cfg.rowBytes) :
    (p.store (p.rowPtr l half pos) bytes).row l' half' pos' =
      if (l', half', pos') = (l, half, pos) then bytes else p.row l' half' pos' := by
  rw [row_fast _ hh' (by rwa [store_cfg]), store_cfg, p.rowPtr_fast hh hpos]
  simp only [store]
  by_cases heq : (l', half', pos') = (l, half, pos)
  · obtain ⟨rfl, rfl, rfl⟩ : l' = l ∧ half' = half ∧ pos' = pos := by simpa using heq
    rw [if_pos rfl]
    conv_lhs => rw [← hlen]
    exact read_write_same _ _ _
  · rw [if_neg heq, p.row_fast hh' hpos', read_write_disjoint]
    rw [hlen]
    exact rowOffset_disjoint hh hh' hpos hpos' (Ne.symm heq)

end KVCachePool

variable {W R : Type}

def Event.isRowWrite : Event → Bool
  | .rowWrite .. => true
  | _ => false

/-- A trace without the row writes. -/
def turnEvents (trace : List Event) : List Event := trace.filter fun event => !event.isRowWrite

/-- The two rows of a layer and position. -/
def Device.rows (s : Device) (l p : ℕ) : List UInt8 × List UInt8 :=
  (s.pool.row l 0 p, s.pool.row l 1 p)

/-- The pool has the shape of the model. -/
structure ModelRows (c : Config) (d : ModelDims) : Prop where
  layers : c.nLayers = d.nLayers
  heads : c.nKvHeads = d.nKvHeads
  headDim : c.headDim = d.headDim

/-- It stores halves. -/
structure HalfRows (c : Config) (d : ModelDims) : Prop extends ModelRows c d where
  halves : c.kvTypeBytes = 2

theorem HalfRows.rowBytes {c : Config} {d : ModelDims} (h : HalfRows c d) :
    c.rowBytes = 2 * d.kvDim := by
  rw [Config.rowBytes, ModelDims.kvDim, h.heads, h.headDim, h.halves, Nat.mul_comm]

section

variable (K : Kernels W R) {c : Config} {d : ModelDims} (hc : HalfRows c d) (l p : ℕ) (s : Device)
  (q k v : R)

/-- Below `max_context` the FP16 store is the fused one. -/
theorem prefillStore_fast (hp : s.pool.isFastPosition p = true) :
    (prefillStore K Device.mem d false l p s q k v).1 =
      (ropeInplaceStoreKvFp16 K Device.mem d l p s q k v).1 := by
  have hfast : Device.mem.isFast s p = true := hp
  simp only [prefillStore, hfast, Bool.not_false, Bool.true_and, if_true]

variable {l p s}

theorem ropeStore_cfg :
    (ropeInplaceStoreKvFp16 K Device.mem d l p s q k v).1.pool.cfg = s.pool.cfg := by
  simp [ropeInplaceStoreKvFp16, Device.mem, Device.emit]

theorem ropeStore_turnEvents :
    turnEvents (ropeInplaceStoreKvFp16 K Device.mem d l p s q k v).1.trace = turnEvents s.trace := by
  simp [ropeInplaceStoreKvFp16, Device.mem, Device.emit, turnEvents, Event.isRowWrite]

include hc in
theorem ropeStore_row (hcfg : s.pool.cfg = c) (hp : p < c.maxContext) {l' half' p' : ℕ}
    (hh' : half' < 2) (hp' : p' < c.maxContext) :
    (ropeInplaceStoreKvFp16 K Device.mem d l p s q k v).1.pool.row l' half' p' =
      if (l', half', p') = (l, 1, p) then K.halfBytes d.kvDim v
      else if (l', half', p') = (l, 0, p) then K.halfBytes d.kvDim (K.ropeInplace p q k).2
      else s.pool.row l' half' p' := by
  subst hcfg
  have hkey : s.pool.keyPtr l p = s.pool.rowPtr l 0 p := rfl
  have hlen (x : R) : (K.halfBytes d.kvDim x).length = s.pool.cfg.rowBytes := by
    rw [K.halfBytes_length, hc.rowBytes]
  simp only [ropeInplaceStoreKvFp16, Device.mem, Device.emit, hkey]
  have hval (r : KVCachePool) (hr : r.cfg = s.pool.cfg) : r.valPtr l p = r.rowPtr l 1 p := rfl
  rw [hval _ (KVCachePool.store_cfg _ _ _), KVCachePool.row_store _ (by decide) hh'
    (by rwa [KVCachePool.store_cfg]) (by rwa [KVCachePool.store_cfg])
    (by rw [KVCachePool.store_cfg, hlen]), KVCachePool.row_store _ (by decide) hh' hp hp' (hlen _)]

end

/-- The pool in FP16 mode as a row view; stores add nothing but row writes to a trace. -/
def poolView (K : Kernels W R) (hK : K.RowWise) {c : Config} {d : ModelDims} (hc : HalfRows c d)
    (events : List Event) : RowView K Device.mem d false (List UInt8 × List UInt8) where
  inv := fun s => s.pool.cfg = c ∧ turnEvents s.trace = events
  get := Device.rows
  valid := fun _ p => p < c.maxContext
  enc := fun _ k v _ => (K.halfBytes d.kvDim k, K.halfBytes d.kvDim v)
  att := fun q f n => K.flashAttentionDecode q (fun j => (f j).1) (fun j => (f j).2) n false none none
  stableFast := fun s l p row pos => by
    simp [Device.mem, Device.emit, KVCachePool.isFastPosition]
  keeps := fun {l p} s q k v hs hp => by
    rw [prefillStore_fast K l p s q k v (by simpa [KVCachePool.isFastPosition, hs.1] using hp),
      ropeStore_cfg, ropeStore_turnEvents]
    exact hs
  written := fun {l p} s q k v ⟨hs, _⟩ hp => by
    rw [prefillStore_fast K l p s q k v (by simpa [KVCachePool.isFastPosition, hs] using hp),
      Device.rows, ropeStore_row K hc q k v hs hp (by decide) hp,
      ropeStore_row K hc q k v hs hp (by decide) hp]
    simp
  frame := fun {l p l' p'} s q k v ⟨hs, _⟩ hp hp' hne => by
    rw [prefillStore_fast K l p s q k v (by simpa [KVCachePool.isFastPosition, hs] using hp),
      Device.rows, ropeStore_row K hc q k v hs hp (by decide) hp',
      ropeStore_row K hc q k v hs hp (by decide) hp']
    have hne' : ¬ (l' = l ∧ p' = p) := by simpa using hne
    simp [hne', Device.rows]
  reads := fun {l p} s q ⟨hs, _⟩ hp => by
    subst hs
    have hrow : attnRowBytes s.pool.cfg false = s.pool.cfg.rowBytes := by
      rw [attnRowBytes, Config.rowBytes, hc.halves]
      rfl
    have hkey (j : ℕ) (hj : j < p + 1) :
        Device.mem.keys s false l j = (Device.rows s l j).1 := by
      have hj' : j < s.pool.cfg.maxContext := by omega
      simp only [Device.mem, Device.rows, KVCachePool.row, attnKeyPtr, hrow,
        keyPtr_add s.pool l (Or.inl hj')]
      rfl
    have hval (j : ℕ) (hj : j < p + 1) :
        Device.mem.vals s false l j = (Device.rows s l j).2 := by
      have hj' : j < s.pool.cfg.maxContext := by omega
      simp only [Device.mem, Device.rows, KVCachePool.row, attnValPtr, hrow,
        valPtr_add s.pool l (Or.inl hj')]
      rfl
    exact hK.readsRows q (p + 1) false _ _ _ _ (fun _ => []) (fun _ => []) (fun _ => []) (fun _ => [])
      false hkey hval (fun _ _ => rfl) (fun _ _ => rfl)
  readsBelow := fun q f g n h => by
    refine hK.readsRows q n false _ _ _ _ (fun _ => []) (fun _ => []) (fun _ => []) (fun _ => [])
      false ?_ ?_ (fun _ _ => rfl) (fun _ _ => rfl) <;> intro j hj <;> rw [h j hj]

end JLLM
