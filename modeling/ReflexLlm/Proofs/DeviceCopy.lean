import Mathlib.Algebra.Order.BigOperators.Group.List
import ReflexLlm.Lib.Bump
import ReflexLlm.Spec.DeviceCopy

/-! Copying a layer's weights to the device: all seven tensors are copied and their pointers
go to the copies, or nothing changes. -/

namespace JLLM

open ByteMem

theorem alignUpSize_eq (value : ℕ) : alignUpSize value 256 = Bump.roundUp 256 value := by
  rw [alignUpSize, Bump.roundUp, Nat.add_sub_assoc (by decide)]

/-- The tensors with their places; without overflow these are those of a bump allocator. -/
theorem layoutArena_eq_some {specs : List TensorSpec} {arenaBytes : ℕ}
    {r : List (TensorSpec × ℕ) × ℕ} (h : layoutArena specs arenaBytes = some r) :
    r.1.map Prod.fst = specs ∧ (∀ spec ∈ specs, 0 < spec.bytes) ∧
      (arenaBytes + Bump.total 256 (specs.map TensorSpec.bytes) < 0x10000000000000000 →
        r.1.map (fun t => (t.2, t.1.bytes)) =
            (Bump.places 256 arenaBytes (specs.map TensorSpec.bytes)).zip
              (specs.map TensorSpec.bytes) ∧
          r.2 = arenaBytes + Bump.total 256 (specs.map TensorSpec.bytes)) := by
  induction specs generalizing arenaBytes r with
  | nil =>
    cases h
    exact ⟨rfl, by simp, fun _ => by simp [Bump.places]⟩
  | cons spec specs ih =>
    rw [layoutArena, Option.ite_none_left_eq_some, Option.map_eq_some_iff] at h
    obtain ⟨hgood, rest, hrest, rfl⟩ := h
    rw [not_or] at hgood
    obtain ⟨hspecs, hpos, hplaces⟩ := ih hrest
    refine ⟨by rw [List.map_cons, hspecs],
      List.forall_mem_cons.mpr ⟨Nat.pos_of_ne_zero hgood.1, hpos⟩, fun hsmall => ?_⟩
    rw [List.map_cons, Bump.total_cons] at hsmall
    have hnext : (arenaBytes + alignUpSize spec.bytes 256) % 0x10000000000000000 =
        arenaBytes + Bump.roundUp 256 spec.bytes := by
      rw [alignUpSize_eq]
      exact Nat.mod_eq_of_lt (by omega)
    rw [hnext] at hplaces
    obtain ⟨hoffsets, hend⟩ := hplaces (by omega)
    rw [List.map_cons, List.map_cons, Bump.places, List.zip_cons_cons, Bump.total_cons,
      ← Nat.add_assoc, hoffsets]
    exact ⟨rfl, hend⟩

/-- In an arena without overflow the tensors lie one behind the other. -/
theorem layoutArena_placed {specs : List TensorSpec} {tensors : List (TensorSpec × ℕ)}
    {arenaBytes : ℕ} (h : layoutArena specs 0 = some (tensors, arenaBytes))
    (hsmall : Bump.total 256 (specs.map TensorSpec.bytes) < 0x10000000000000000) :
    (tensors.Pairwise fun a b => a.2 + a.1.bytes ≤ b.2) ∧
      ∀ t ∈ tensors, 256 ∣ t.2 ∧ t.2 + t.1.bytes ≤ arenaBytes := by
  obtain ⟨-, -, hplaces⟩ := layoutArena_eq_some h
  rw [Nat.zero_add] at hplaces
  obtain ⟨hoffsets, rfl⟩ := hplaces hsmall
  constructor
  · have hpairwise := Bump.places_pairwise (by decide : 0 < 256) 0 (specs.map TensorSpec.bytes)
    rwa [← hoffsets, List.pairwise_map] at hpairwise
  · intro t ht
    have hmem : (t.2, t.1.bytes) ∈ (Bump.places 256 0 (specs.map TensorSpec.bytes)).zip
        (specs.map TensorSpec.bytes) := by
      rw [← hoffsets]
      exact List.mem_map_of_mem ht
    have hbound := (Bump.places_bound (by decide : 0 < 256) _ hmem).2
    rw [Nat.zero_add] at hbound
    exact ⟨Bump.places_dvd (Nat.dvd_zero 256) t.2 (List.of_mem_zip hmem).1, hbound⟩

section

variable {D : Type} {cuda : CudaRuntime D} {host : Mem}

/-- What the copies store. -/
def tensorWrites (host : Mem) (arena : ℕ) (tensors : List (TensorSpec × ℕ)) :
    List (ℕ × List UInt8) :=
  tensors.map fun t => (arenaPtr arena t.2, host.read t.1.src t.1.bytes)

/-- Tensors that lie one behind the other do not overwrite each other. -/
theorem read_tensorWrites {m : Mem} {arena : ℕ} {tensors : List (TensorSpec × ℕ)}
    (hpairwise : tensors.Pairwise fun a b => a.2 + a.1.bytes ≤ b.2)
    (harena : ∀ t ∈ tensors, arenaPtr arena t.2 = arena + t.2) :
    ∀ t ∈ tensors, (m.writeAll (tensorWrites host arena tensors)).read (arena + t.2) t.1.bytes =
      host.read t.1.src t.1.bytes := by
  intro t ht
  have hrising : (tensorWrites host arena tensors).Pairwise
      fun a b => a.1 + a.2.length ≤ b.1 := by
    rw [tensorWrites, List.pairwise_map]
    refine hpairwise.imp_of_mem fun {a b} ha hb hab => ?_
    rw [harena a ha, harena b hb, read_length]
    omega
  have hwritten : (arenaPtr arena t.2, host.read t.1.src t.1.bytes) ∈
      tensorWrites host arena tensors := List.mem_map_of_mem ht
  have hread := read_writeAll (m := m) hrising _ hwritten
  rwa [read_length, harena t ht] at hread

theorem copyTensors_true (hcuda : cuda.Lawful) {arena : ℕ} {tensors : List (TensorSpec × ℕ)}
    {d d' : D} (h : copyTensors cuda host arena tensors d = (true, d')) :
    (∀ t ∈ tensors, arenaPtr arena t.2 + t.1.bytes ≤ 0x2000000000000) ∧
      cuda.mem d' = (cuda.mem d).writeAll (tensorWrites host arena tensors) ∧
      cuda.live d' = cuda.live d := by
  induction tensors generalizing d with
  | nil =>
    cases h
    exact ⟨by simp, rfl, rfl⟩
  | cons t tensors ih =>
    obtain ⟨spec, offset⟩ := t
    rw [copyTensors] at h
    by_cases hcopy : (cuda.memcpy d (arenaPtr arena offset) (host.read spec.src spec.bytes)).1 = true
    · rw [if_pos hcopy] at h
      obtain ⟨hbound, hmem, hlive⟩ := ih h
      have hfirst := hcuda.memcpy_bound hcopy
      rw [read_length] at hfirst
      refine ⟨List.forall_mem_cons.mpr ⟨hfirst, hbound⟩, ?_, hlive.trans hcuda.memcpy_live⟩
      rw [hmem, hcuda.memcpy_mem hcopy]
      rfl
    · rw [if_neg hcopy] at h
      cases h

theorem copyTensors_false (hcuda : cuda.Lawful) {arena : ℕ} {tensors : List (TensorSpec × ℕ)}
    {d d' : D} (h : copyTensors cuda host arena tensors d = (false, d')) :
    cuda.live d' = cuda.live d \ {arena} := by
  induction tensors generalizing d with
  | nil => cases h
  | cons t tensors ih =>
    obtain ⟨spec, offset⟩ := t
    rw [copyTensors] at h
    by_cases hcopy : (cuda.memcpy d (arenaPtr arena offset) (host.read spec.src spec.bytes)).1 = true
    · rw [if_pos hcopy] at h
      rw [ih h, hcuda.memcpy_live]
    · rw [if_neg hcopy] at h
      cases h
      rw [hcuda.free_live, hcuda.memcpy_live]

end

/-- A pointer that no tensor stores to stays. -/
theorem publishTensors_of_ne {l arena : ℕ} {ptr : WeightSlot → ℕ}
    {tensors : List (TensorSpec × ℕ)} {slot : WeightSlot}
    (h : ∀ t ∈ tensors, slot ≠ .layer l t.1.slot) :
    publishTensors l arena ptr tensors slot = ptr slot := by
  induction tensors generalizing ptr with
  | nil => rfl
  | cons t tensors ih =>
    rw [List.forall_mem_cons] at h
    rw [publishTensors, List.foldl_cons]
    exact (ih h.2).trans (Function.update_of_ne h.1 _ _)

theorem publishTensors_of_mem {l arena : ℕ} {ptr : WeightSlot → ℕ}
    {tensors : List (TensorSpec × ℕ)} (hnodup : (tensors.map fun t => t.1.slot).Nodup) :
    ∀ t ∈ tensors, publishTensors l arena ptr tensors (.layer l t.1.slot) = arenaPtr arena t.2 := by
  induction tensors generalizing ptr with
  | nil => simp
  | cons t tensors ih =>
    rw [List.map_cons, List.nodup_cons] at hnodup
    rw [publishTensors, List.foldl_cons, List.forall_mem_cons]
    refine ⟨?_, ih hnodup.2⟩
    have hother : ∀ t' ∈ tensors, WeightSlot.layer l t.1.slot ≠ .layer l t'.1.slot := by
      intro t' ht' heq
      injection heq with _ hslot
      exact hnodup.1 (hslot ▸ List.mem_map_of_mem ht')
    exact (publishTensors_of_ne hother).trans (Function.update_self _ _ _)

/-- Places below the end of the device's addresses do not overflow. -/
theorem total_lt_of_bounds {sizes : List ℕ} (hlength : sizes.length ≤ 7)
    (hbound : ∀ size ∈ sizes, size ≤ 0x2000000000000) :
    Bump.total 256 sizes < 0x10000000000000000 := by
  have hsum := List.sum_le_card_nsmul sizes _ hbound
  have htotal : Bump.total 256 sizes ≤ sizes.sum + sizes.length * 255 := Bump.total_le sizes
  rw [Nat.nsmul_eq_mul] at hsum
  omega

/-- What a call that succeeds leaves behind: the tensors of the layer are in the one block that
is new, each at its own multiple of 256 bytes. -/
structure Redirected {D : Type} (cuda : CudaRuntime D) (host : Mem) (l : ℕ)
    (specs : List TensorSpec) (s s' : CopyState D) (arena arenaBytes : ℕ)
    (offset : LayerSlot → ℕ) : Prop where
  malloc : (cuda.malloc s.device arenaBytes).1 = some arena
  live : cuda.live s'.device = insert arena (cuda.live s.device)
  owned : s'.owned = s.owned ++ [arena]
  ptr : ∀ spec ∈ specs, s'.weights.ptr (.layer l spec.slot) = arena + offset spec.slot
  others : ∀ slot, (∀ spec ∈ specs, slot ≠ .layer l spec.slot) →
    s'.weights.ptr slot = s.weights.ptr slot
  fields : s'.weights = { s.weights with ptr := s'.weights.ptr }
  copied : ∀ spec ∈ specs, 0 < spec.bytes ∧
    (cuda.mem s'.device).read (arena + offset spec.slot) spec.bytes = host.read spec.src spec.bytes
  aligned : ∀ spec ∈ specs, 256 ∣ offset spec.slot
  inside : ∀ spec ∈ specs, offset spec.slot + spec.bytes ≤ arenaBytes
  disjoint : specs.Pairwise fun a b => offset a.slot + a.bytes ≤ offset b.slot

section

variable {D : Type} {cuda : CudaRuntime D} {host : Mem} {l : ℕ} {specs : List TensorSpec}
  {s s' : CopyState D}

/-- A block that was got is new and lies within the device's addresses. -/
theorem CudaRuntime.Lawful.malloc_some (hcuda : cuda.Lawful) {d d' : D} {size ptr : ℕ}
    (h : cuda.malloc d size = (some ptr, d')) :
    ptr + size ≤ 0x2000000000000 ∧ ptr ∉ cuda.live d ∧ cuda.live d' = insert ptr (cuda.live d) := by
  have hptr : (cuda.malloc d size).1 = some ptr := by rw [h]
  have hlive := hcuda.malloc_live hptr
  rw [h] at hlive
  exact ⟨hcuda.malloc_bound hptr, hcuda.malloc_fresh hptr, hlive⟩

theorem copySpecsToDevice_false (hcuda : cuda.Lawful)
    (h : copySpecsToDevice cuda host l specs s = (false, s')) :
    s'.weights = s.weights ∧ s'.owned = s.owned ∧ cuda.live s'.device = cuda.live s.device := by
  rw [copySpecsToDevice] at h
  split at h
  · cases h
    exact ⟨rfl, rfl, rfl⟩
  · rename_i tensors arenaBytes hlayout
    split at h
    · rename_i d hmalloc
      cases h
      have hfailed : (cuda.malloc s.device arenaBytes).1 = none := by rw [hmalloc]
      have hlive := hcuda.malloc_none hfailed
      rw [hmalloc] at hlive
      exact ⟨rfl, rfl, hlive⟩
    · rename_i arena d hmalloc
      split at h
      · rename_i d' hcopy
        cases h
        obtain ⟨-, hfresh, hlive⟩ := hcuda.malloc_some hmalloc
        refine ⟨rfl, rfl, ?_⟩
        rw [copyTensors_false hcuda hcopy, hlive, Set.insert_sdiff_self_of_notMem hfresh]
      · cases h

/-- A call that succeeds has gone through the layout, the block and all copies. -/
theorem copySpecsToDevice_eq_true (h : copySpecsToDevice cuda host l specs s = (true, s')) :
    ∃ tensors arenaBytes arena d d', layoutArena specs 0 = some (tensors, arenaBytes) ∧
      cuda.malloc s.device arenaBytes = (some arena, d) ∧
      copyTensors cuda host arena tensors d = (true, d') ∧
      s' = { weights := { s.weights with ptr := publishTensors l arena s.weights.ptr tensors }
             owned := s.owned ++ [arena]
             device := d' } := by
  rw [copySpecsToDevice] at h
  split at h
  · cases h
  rename_i tensors arenaBytes hlayout
  split at h
  · cases h
  rename_i arena d hmalloc
  split at h
  · cases h
  rename_i d' hcopy
  cases h
  exact ⟨tensors, arenaBytes, arena, d, d', hlayout, hmalloc, hcopy, rfl⟩

/-- Tensors that could be copied are small, and so is their total. -/
theorem total_lt_of_copied {arena arenaBytes : ℕ} {tensors : List (TensorSpec × ℕ)}
    (hlayout : layoutArena specs 0 = some (tensors, arenaBytes)) (hlength : specs.length ≤ 7)
    (hbound : ∀ t ∈ tensors, arenaPtr arena t.2 + t.1.bytes ≤ 0x2000000000000) :
    Bump.total 256 (specs.map TensorSpec.bytes) < 0x10000000000000000 := by
  obtain ⟨hspecs, -, -⟩ := layoutArena_eq_some hlayout
  apply total_lt_of_bounds (by rwa [List.length_map])
  intro size hsize
  obtain ⟨spec, hspec, rfl⟩ := List.mem_map.mp hsize
  rw [← hspecs] at hspec
  obtain ⟨t, ht, rfl⟩ := List.mem_map.mp hspec
  have hcopied := hbound t ht
  omega

theorem copySpecsToDevice_true (hcuda : cuda.Lawful)
    (hnodup : (specs.map TensorSpec.slot).Nodup) (hlength : specs.length ≤ 7)
    (h : copySpecsToDevice cuda host l specs s = (true, s')) :
    ∃ arena arenaBytes offset, Redirected cuda host l specs s s' arena arenaBytes offset := by
  obtain ⟨tensors, arenaBytes, arena, d, d', hlayout, hmalloc, hcopy, rfl⟩ :=
    copySpecsToDevice_eq_true h
  obtain ⟨hend, -, hlive⟩ := hcuda.malloc_some hmalloc
  obtain ⟨hspecs, hpos, -⟩ := layoutArena_eq_some hlayout
  obtain ⟨hbound, hmem, hkeep⟩ := copyTensors_true hcuda hcopy
  obtain ⟨hpairwise, hplaced⟩ :=
    layoutArena_placed hlayout (total_lt_of_copied hlayout hlength hbound)
  -- no pointer into the arena overflows
  have harena : ∀ t ∈ tensors, arenaPtr arena t.2 = arena + t.2 := by
    intro t ht
    have hinside := (hplaced t ht).2
    exact Nat.mod_eq_of_lt (by omega)
  have hptrs : ∀ t ∈ tensors, publishTensors l arena s.weights.ptr tensors
      (.layer l t.1.slot) = arena + t.2 := by
    intro t ht
    have hslots : (tensors.map fun t => t.1.slot).Nodup := by
      rwa [← hspecs, List.map_map] at hnodup
    rw [publishTensors_of_mem hslots t ht, harena t ht]
  have hoffset : ∀ t ∈ tensors, publishTensors l arena s.weights.ptr tensors
      (.layer l t.1.slot) - arena = t.2 := by
    intro t ht
    rw [hptrs t ht, Nat.add_sub_cancel_left]
  refine ⟨arena, arenaBytes,
    fun slot => publishTensors l arena s.weights.ptr tensors (.layer l slot) - arena, ?_⟩
  subst hspecs
  exact {
    malloc := by rw [hmalloc]
    live := by rw [hkeep, hlive]
    owned := rfl
    ptr := by
      rw [List.forall_mem_map]
      intro t ht
      rw [hoffset t ht]
      exact hptrs t ht
    others := by
      intro slot hslot
      rw [List.forall_mem_map] at hslot
      exact publishTensors_of_ne hslot
    fields := rfl
    copied := by
      rw [List.forall_mem_map]
      intro t ht
      rw [hoffset t ht, hmem]
      exact ⟨hpos t.1 (List.mem_map_of_mem ht), read_tensorWrites hpairwise harena t ht⟩
    aligned := by
      rw [List.forall_mem_map]
      intro t ht
      rw [hoffset t ht]
      exact (hplaced t ht).1
    inside := by
      rw [List.forall_mem_map]
      intro t ht
      rw [hoffset t ht]
      exact (hplaced t ht).2
    disjoint := by
      rw [List.pairwise_map]
      refine hpairwise.imp_of_mem fun {a b} ha hb hab => ?_
      rwa [hoffset a ha, hoffset b hb] }

theorem copyLayer_eq_some_iff {cfg : ModelConfig} {ok : Bool} :
    copyLayerQuantWeightsToDevice cuda host l cfg s = some (ok, s') ↔
      ∃ q kv, mul32 cfg.nHeads.toInt cfg.headDim.toInt = some q ∧
        mul32 cfg.nKvHeads.toInt cfg.headDim.toInt = some kv ∧
        copySpecsToDevice cuda host l
          (layerSpecs s.weights l cfg.hiddenDim.toInt q kv cfg.intermediateDim.toInt) s =
            (ok, s') := by
  simp only [copyLayerQuantWeightsToDevice, Option.bind_eq_some_iff, Option.map_eq_some_iff,
    exists_and_left]

/-- All seven tensors are copied and redirected, or the weights and `owned` stay. -/
theorem copyLayer_all_or_nothing (hcuda : cuda.Lawful) (host : Mem) (l : ℕ) (cfg : ModelConfig)
    (s : CopyState D) :
    (copyLayerQuantWeightsToDevice cuda host l cfg s = none ↔
      mul32 cfg.nHeads.toInt cfg.headDim.toInt = none ∨
        mul32 cfg.nKvHeads.toInt cfg.headDim.toInt = none) ∧
    ∀ ok s', copyLayerQuantWeightsToDevice cuda host l cfg s = some (ok, s') →
      (ok = true ∧ ∃ q kv, mul32 cfg.nHeads.toInt cfg.headDim.toInt = some q ∧
        mul32 cfg.nKvHeads.toInt cfg.headDim.toInt = some kv ∧
        ∃ arena arenaBytes offset, Redirected cuda host l
          (layerSpecs s.weights l cfg.hiddenDim.toInt q kv cfg.intermediateDim.toInt)
          s s' arena arenaBytes offset) ∨
      (ok = false ∧ s'.weights = s.weights ∧ s'.owned = s.owned ∧
        cuda.live s'.device = cuda.live s.device) := by
  constructor
  · cases hq : mul32 cfg.nHeads.toInt cfg.headDim.toInt with
    | none => simp [copyLayerQuantWeightsToDevice, hq]
    | some q =>
      cases hkv : mul32 cfg.nKvHeads.toInt cfg.headDim.toInt with
      | none => simp [copyLayerQuantWeightsToDevice, hq, hkv]
      | some kv => simp [copyLayerQuantWeightsToDevice, hq, hkv]
  · intro ok s' h
    obtain ⟨q, kv, hq, hkv, hcopy⟩ := copyLayer_eq_some_iff.mp h
    cases ok with
    | false => exact Or.inr ⟨rfl, copySpecsToDevice_false hcuda hcopy⟩
    | true =>
      refine Or.inl ⟨rfl, q, kv, hq, hkv, ?_⟩
      exact copySpecsToDevice_true hcuda (by simp [layerSpecs]) (by simp [layerSpecs]) hcopy

end

/-- A device of 1 GB that gives out one block behind the other. -/
structure BumpDevice where
  mem : Mem
  next : ℕ
  live : List ℕ
  next_le : next ≤ 0x40000000
  live_lt : ∀ ptr ∈ live, ptr < next

def BumpDevice.malloc (d : BumpDevice) (size : ℕ) : Option ℕ × BumpDevice :=
  if h : 0 < size ∧ d.next + size ≤ 0x40000000 then
    (some d.next,
      { mem := d.mem
        next := d.next + size
        live := d.next :: d.live
        next_le := h.2
        live_lt := List.forall_mem_cons.mpr
          ⟨by omega, fun ptr hptr => Nat.lt_add_right size (d.live_lt ptr hptr)⟩ })
  else (none, d)

def BumpDevice.memcpy (d : BumpDevice) (ptr : ℕ) (src : List UInt8) : Bool × BumpDevice :=
  if ptr + src.length ≤ d.next then (true, { d with mem := d.mem.write ptr src }) else (false, d)

def BumpDevice.free (d : BumpDevice) (ptr : ℕ) : BumpDevice :=
  { d with
    live := d.live.filter (· ≠ ptr)
    live_lt := fun p hp => d.live_lt p (List.mem_of_mem_filter hp) }

def bumpRuntime : CudaRuntime BumpDevice where
  malloc := BumpDevice.malloc
  memcpy := BumpDevice.memcpy
  free := BumpDevice.free
  mem := BumpDevice.mem
  live d := {ptr | ptr ∈ d.live}

theorem BumpDevice.malloc_eq_some {d : BumpDevice} {size ptr : ℕ}
    (h : (d.malloc size).1 = some ptr) :
    ptr = d.next ∧ ptr + size ≤ 0x40000000 ∧ (d.malloc size).2.live = ptr :: d.live := by
  rw [BumpDevice.malloc] at h ⊢
  split at h
  · rename_i hfits
    cases h
    rw [dif_pos hfits]
    exact ⟨rfl, hfits.2, rfl⟩
  · cases h

theorem BumpDevice.malloc_of_room {d : BumpDevice} {size : ℕ} (hpos : 0 < size)
    (hroom : d.next + size ≤ 0x40000000) :
    ∃ d', d.malloc size = (some d.next, d') ∧ d'.next = d.next + size :=
  ⟨_, dif_pos ⟨hpos, hroom⟩, rfl⟩

theorem bumpRuntime_lawful : bumpRuntime.Lawful where
  malloc_bound h := by
    have hfits := (BumpDevice.malloc_eq_some h).2.1
    omega
  malloc_fresh {d size ptr} h hlive := by
    have hptr := (BumpDevice.malloc_eq_some h).1
    have hlt := d.live_lt ptr hlive
    omega
  malloc_live {d size ptr} h := by
    ext p
    change p ∈ (d.malloc size).2.live ↔ p ∈ insert ptr {p | p ∈ d.live}
    rw [(BumpDevice.malloc_eq_some h).2.2, List.mem_cons]
    rfl
  malloc_none {d size} h := by
    change (d.malloc size).1 = none at h
    change {p | p ∈ (d.malloc size).2.live} = {p | p ∈ d.live}
    rw [BumpDevice.malloc] at h ⊢
    split at h
    · cases h
    · rename_i hfull
      rw [dif_neg hfull]
  memcpy_bound {d ptr src} h := by
    change (d.memcpy ptr src).1 = true at h
    rw [BumpDevice.memcpy] at h
    split at h
    · have hnext := d.next_le
      omega
    · cases h
  memcpy_mem {d ptr src} h := by
    change (d.memcpy ptr src).1 = true at h
    change (d.memcpy ptr src).2.mem = d.mem.write ptr src
    rw [BumpDevice.memcpy] at h ⊢
    split at h
    · rename_i hfits
      rw [if_pos hfits]
    · cases h
  memcpy_live {d ptr src} := by
    change {p | p ∈ (d.memcpy ptr src).2.live} = {p | p ∈ d.live}
    rw [BumpDevice.memcpy]
    split <;> rfl
  free_live {d ptr} := by
    ext p
    change p ∈ d.live.filter (· ≠ ptr) ↔ p ∈ d.live ∧ p ≠ ptr
    rw [List.mem_filter, decide_eq_true_iff]

theorem copyTensors_bump {host : Mem} {arena : ℕ} {tensors : List (TensorSpec × ℕ)}
    {d : BumpDevice} (h : ∀ t ∈ tensors, arenaPtr arena t.2 + t.1.bytes ≤ d.next) :
    (copyTensors bumpRuntime host arena tensors d).1 = true := by
  induction tensors generalizing d with
  | nil => rfl
  | cons t tensors ih =>
    rw [List.forall_mem_cons] at h
    have hcopy : bumpRuntime.memcpy d (arenaPtr arena t.2) (host.read t.1.src t.1.bytes) =
        (true, { d with
          mem := d.mem.write (arenaPtr arena t.2) (host.read t.1.src t.1.bytes) }) :=
      if_pos (by rw [read_length]; exact h.1)
    rw [copyTensors, hcopy]
    exact ih h.2

/-- With room for the arena the call succeeds. -/
theorem copySpecsToDevice_bump {host : Mem} {l : ℕ} {specs : List TensorSpec}
    {s : CopyState BumpDevice} (hlayout : (layoutArena specs 0).isSome = true)
    (hpos : 0 < Bump.total 256 (specs.map TensorSpec.bytes))
    (hroom : s.device.next + Bump.total 256 (specs.map TensorSpec.bytes) ≤ 0x40000000) :
    ∃ s', copySpecsToDevice bumpRuntime host l specs s = (true, s') := by
  obtain ⟨⟨tensors, arenaBytes⟩, hr⟩ := Option.isSome_iff_exists.mp hlayout
  have hsmall : Bump.total 256 (specs.map TensorSpec.bytes) < 0x10000000000000000 := by omega
  have hplaced := (layoutArena_placed hr hsmall).2
  have hsize := ((layoutArena_eq_some hr).2.2 (by omega)).2
  rw [Nat.zero_add] at hsize
  subst hsize
  obtain ⟨d, hmalloc, hnext⟩ := BumpDevice.malloc_of_room hpos hroom
  have hcopied : (copyTensors bumpRuntime host s.device.next tensors d).1 = true := by
    apply copyTensors_bump
    intro t ht
    have hinside := (hplaced t ht).2
    rw [arenaPtr, Nat.mod_eq_of_lt (by omega), hnext]
    omega
  obtain ⟨d', hd'⟩ : ∃ d', copyTensors bumpRuntime host s.device.next tensors d = (true, d') :=
    ⟨_, Prod.ext hcopied rfl⟩
  have hptr : bumpRuntime.malloc s.device (Bump.total 256 (specs.map TensorSpec.bytes)) =
    (some s.device.next, d) := hmalloc
  simp only [copySpecsToDevice, hr, hptr, hd', Prod.mk.injEq, true_and, exists_eq']

/-- A layer of `Q4_K` tensors. -/
def q4kLayerState : CopyState BumpDevice where
  weights := { nLayers := 1, ptr := fun _ => 0x1000, matType := fun _ => 12 }
  owned := [0x40]
  device := {
    mem := fun _ => 0
    next := 0x100
    live := [0x40]
    next_le := by decide
    live_lt := by decide }

def q4kConfig : ModelConfig :=
  { nHeads := 2, nKvHeads := 1, headDim := 128, hiddenDim := 256, intermediateDim := 512 }

theorem copyLayer_all_or_nothing_q4k :
    ∃ s', copyLayerQuantWeightsToDevice bumpRuntime (fun i => UInt8.ofNat i) 0 q4kConfig
        q4kLayerState = some (true, s') ∧ ∃ arena arenaBytes offset,
      Redirected bumpRuntime (fun i => UInt8.ofNat i) 0
        (layerSpecs q4kLayerState.weights 0 q4kConfig.hiddenDim.toInt 256 128
          q4kConfig.intermediateDim.toInt) q4kLayerState s' arena arenaBytes offset := by
  have hq : mul32 q4kConfig.nHeads.toInt q4kConfig.headDim.toInt = some 256 := by decide
  have hkv : mul32 q4kConfig.nKvHeads.toInt q4kConfig.headDim.toInt = some 128 := by decide
  obtain ⟨s', hs'⟩ : ∃ s', copySpecsToDevice bumpRuntime (fun i => UInt8.ofNat i) 0
      (layerSpecs q4kLayerState.weights 0 q4kConfig.hiddenDim.toInt 256 128
        q4kConfig.intermediateDim.toInt) q4kLayerState = (true, s') :=
    copySpecsToDevice_bump (by decide) (by decide) (by decide)
  have hcopy := copyLayer_eq_some_iff.mpr ⟨256, 128, hq, hkv, hs'⟩
  refine ⟨s', hcopy, ?_⟩
  rcases (copyLayer_all_or_nothing bumpRuntime_lawful _ 0 q4kConfig q4kLayerState).2 _ s' hcopy
    with ⟨-, q, kv, hq', hkv', hredirected⟩ | ⟨hfalse, -⟩
  · rw [hq, Option.some.injEq] at hq'
    rw [hkv, Option.some.injEq] at hkv'
    rwa [hq', hkv']
  · cases hfalse

end JLLM
