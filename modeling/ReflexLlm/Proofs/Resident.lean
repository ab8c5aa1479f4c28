import ReflexLlm.Proofs.Materialize
import ReflexLlm.Proofs.RecordedSystem

/-! Where the weights are once `load` has returned true: each pointer is the one that the file
gave it, or goes to a block of the device with the bytes that the file has there. The buffers
that are got in between take nothing from the blocks. -/

namespace JLLM

open ByteMem EarlyReturn Ownership

section

variable {D H : Type} {sys : System D H} {host : Mem} {env : WeightEnv} {cfg : ModelConfig}
  {s₀ s s' : LoadState D H} {q n : ℕ} {α : Type}

/-- What the buffers leave as it is: the weights, the mapping and the region. -/
structure SameParts (s s' : LoadState D H) : Prop where
  copy : s'.toCopyState = s.toCopyState
  blob : s'.blob = s.blob
  region : s'.region = s.region

/-- They do, but for new blocks of the device. -/
structure Kept (sys : System D H) (s₀ s : LoadState D H) : Prop where
  weights : s.weights = s₀.weights
  owned : s.owned = s₀.owned
  blob : s.blob = s₀.blob
  region : s.region = s₀.region
  keeps : Blocks.Keeps (sys.blocks s₀.device) (sys.blocks s.device)

/-- A block that there was not. -/
def NewBlock (sys : System D H) (s₀ s : LoadState D H) (q n : ℕ) : Prop :=
  q ∉ sys.cuda.live s₀.device ∧ Blocks.Inside (sys.blocks s.device) q q n

theorem Kept.refl : Kept sys s s := ⟨rfl, rfl, rfl, rfl, .refl _⟩

theorem Kept.same (h : Kept sys s₀ s) (hsame : SameParts s s') : Kept sys s₀ s' := by
  obtain ⟨hcopy, hblob, hregion⟩ := hsame
  refine ⟨?_, ?_, hblob.trans h.blob, hregion.trans h.region, ?_⟩
  · rw [hcopy, h.weights]
  · rw [hcopy, h.owned]
  · rw [hcopy]
    exact h.keeps

theorem Kept.next (h : Kept sys s₀ s) {d : D}
    (hkeeps : Blocks.Keeps (sys.blocks s₀.device) (sys.blocks d)) :
    Kept sys s₀ { s with device := d } :=
  ⟨h.weights, h.owned, h.blob, h.region, hkeeps⟩

theorem mallocDevice_kept (hsys : sys.Lawful) (n : ℕ) :
    Triple (Kept sys s₀) (mallocDevice sys n)
      (fun p s => Kept sys s₀ s ∧ ∀ q, p = some q → NewBlock sys s₀ s q n)
      (fun (_ : LoadEnd) _ => True) := by
  refine ⟨fun s h => ?_⟩
  rcases hmalloc : sys.cuda.malloc s.device n with ⟨_ | p, d⟩
  · obtain ⟨hkeeps, -⟩ := hsys.not_allocated hmalloc
    simp only [mallocDevice, exec_modifyGet, hmalloc]
    exact ⟨h.next (h.keeps.trans hkeeps), fun q hq => by cases hq⟩
  · have halloc := hsys.allocates hmalloc
    simp only [mallocDevice, exec_modifyGet, hmalloc]
    refine ⟨h.next (h.keeps.trans halloc.keeps), fun q hq => ?_⟩
    cases hq
    exact ⟨fun hlive => halloc.fresh (h.keeps.live hlive), halloc.inside⟩

theorem memsetDevice_kept (hsys : sys.Lawful) (q n : ℕ) :
    Triple (fun s => Kept sys s₀ s ∧ NewBlock sys s₀ s q n) (memsetDevice sys q n)
      (fun _ s => Kept sys s₀ s ∧ NewBlock sys s₀ s q n) (fun (_ : LoadEnd) _ => True) := by
  refine ⟨fun s => ?_⟩
  rintro ⟨h, hfresh, hinside⟩
  have hwrite := hsys.memset hinside
  simp only [memsetDevice, exec_modifyGet]
  exact ⟨h.next (h.keeps.writes hfresh hwrite), hfresh, hinside.writes hwrite⟩

theorem freeDevice_kept (hsys : sys.Lawful) (q n : ℕ) :
    Triple (fun s => Kept sys s₀ s ∧ NewBlock sys s₀ s q n) (freeDevice sys q)
      (fun _ s => Kept sys s₀ s) (fun (_ : LoadEnd) _ => True) := by
  refine ⟨fun s => ?_⟩
  rintro ⟨h, hfresh, -⟩
  exact h.next (h.keeps.frees hfresh hsys.free)

/-- What is done to the host and to other fields. -/
theorem modify_kept {f : LoadState D H → LoadState D H}
    (hf : ∀ s, SameParts s (f s)) :
    Triple (Kept sys s₀) (modify f) (fun _ => Kept sys s₀) (fun (_ : LoadEnd) _ => True) :=
  Triple.modify fun _ h => h.same (hf _)

theorem getHost_kept (kind : HostKind) (n : ℕ) :
    Triple (Kept sys s₀) (getHost sys kind n) (fun _ => Kept sys s₀)
      (fun (_ : LoadEnd) _ => True) := ⟨fun _ h => h.same ⟨rfl, rfl, rfl⟩⟩

theorem returnIf_kept (b : Prop) [Decidable b] (e : LoadEnd) :
    Triple (Kept sys s₀) (returnIf b e) (fun _ => Kept sys s₀) (fun (_ : LoadEnd) _ => True) :=
  (Triple.returnIf (fun _ _ _ => trivial)).conseq (fun _ => id) (fun _ _ => And.left) fun _ _ => id

theorem throw_any {P : LoadState D H → Prop} {Q : α → LoadState D H → Prop} (e : LoadEnd) :
    Triple P (throw e : LoadM D H α) Q fun _ _ => True := Triple.throw fun _ _ => trivial

theorem initFastPool_kept (hsys : sys.Lawful) (cfg : Config) :
    Triple (Kept sys s₀) (initFastPool sys cfg) (fun _ => Kept sys s₀) (fun _ _ => True) := by
  refine (returnIf_kept _ _).bind fun _ => ?_
  refine (mallocDevice_kept hsys _).bind fun p => ?_
  cases p with
  | none => exact throw_any _
  | some q =>
    refine ((memsetDevice_kept hsys q _).pre fun _ h => ⟨h.1, h.2 q rfl⟩).bind fun ok => ?_
    cases ok with
    | true => exact Triple.pre (modify_kept fun _ => ⟨rfl, rfl, rfl⟩) fun _ h => h.1
    | false => exact (freeDevice_kept hsys q _).bind fun _ => throw_any _

theorem initOverflowPool_kept (cfg : Config) :
    Triple (Kept sys s₀) (initOverflowPool sys cfg) (fun _ => Kept sys s₀) (fun _ _ => True) := by
  rw [initOverflowPool]
  split
  · refine (getHost_kept _ _).bind fun q => ?_
    exact Triple.bind (modify_kept fun _ => ⟨rfl, rfl, rfl⟩) fun _ => Triple.pure fun _ => id
  · exact Triple.pure fun _ => id

theorem initScales_kept (hsys : sys.Lawful) (cfg : Config) :
    Triple (Kept sys s₀) (initScales sys cfg) (fun _ => Kept sys s₀) (fun _ _ => True) := by
  rw [initScales]
  split
  swap
  · exact Triple.pure fun _ => id
  refine (mallocDevice_kept hsys _).bind fun p => ?_
  cases p with
  | none => exact Triple.pre (modify_kept fun _ => ⟨rfl, rfl, rfl⟩) fun _ h => h.1
  | some r =>
    refine Triple.bind (M := fun _ s => Kept sys s₀ s ∧ NewBlock sys s₀ s r cfg.scalesBytes)
      (Triple.modify fun _ h => ⟨h.1.same ⟨rfl, rfl, rfl⟩, h.2 r rfl⟩) fun _ => ?_
    exact (memsetDevice_kept hsys r _).bind fun _ => Triple.pure fun _ h => h.1

theorem initBuffers_kept (hsys : sys.Lawful) (cfg : Config) :
    Triple (Kept sys s₀) (initBuffers sys cfg) (fun _ => Kept sys s₀) (fun _ _ => True) := by
  refine (initFastPool_kept hsys cfg).bind fun _ => ?_
  refine (initOverflowPool_kept cfg).bind fun _ => ?_
  exact (initScales_kept hsys cfg).bind fun _ => Triple.pure fun _ => id

theorem initScratch_kept (hsys : sys.Lawful) (capacity : ℕ) :
    Triple (Kept sys s₀) (initScratch sys cfg capacity) (fun _ => Kept sys s₀)
      (fun _ _ => True) := by
  rw [initScratch]
  split
  · exact throw_any _
  refine (mallocDevice_kept hsys _).bind fun p => ?_
  cases p with
  | none => exact throw_any _
  | some q => exact Triple.pre (modify_kept fun _ => ⟨rfl, rfl, rfl⟩) fun _ h => h.1

theorem loadBuffers_kept (hsys : sys.Lawful) (p : LoadParams) :
    Triple (Kept sys s₀) (loadBuffers sys env cfg p) (fun _ => Kept sys s₀) (fun _ _ => True) := by
  refine Triple.bind (Triple.get.conseq (fun _ => id) (fun _ _ => And.right) fun _ _ => id)
    fun s₀ => ?_
  split
  · exact throw_any _
  refine (returnIf_kept _ _).bind fun _ => ?_
  refine (initBuffers_kept hsys _).bind fun capacity => ?_
  exact Triple.bind (modify_kept fun _ => ⟨rfl, rfl, rfl⟩) fun _ => initScratch_kept hsys capacity

end

/-- The loop of `load_and_map_weights`, on the pointers that are left from before. -/
def mapWeights (old : ModelWeights) (offset : ℕ) (tensors : List TensorInfo) (blob : ℕ)
    (cfg : ModelConfig) : ModelWeights × ℕ :=
  tensors.foldl (mapTensor blob offset) (old.relayer cfg.nLayers.toInt, 0)

/-- `load_and_map_weights` has returned true, with `mw`. -/
def MappedAs (old : ModelWeights) (f : ByteStream.Stream) (maxTensors blob : ℕ) (cfg : ModelConfig)
    (mw : ModelWeights) : Prop :=
  ∃ offset tensors, (parseTensorInfos f maxTensors).1 = .returned offset tensors ∧ 0 ≤ offset ∧
    0 ≤ cfg.nLayers.toInt ∧ 0 < (mapWeights old offset.toNat tensors blob cfg).2 ∧
    (mapWeights old offset.toNat tensors blob cfg).2 ≤ 0x7FFFFFFF ∧
    mw = (mapWeights old offset.toNat tensors blob cfg).1.tieOutput

section

variable {old mw : ModelWeights} {f : ByteStream.Stream} {maxTensors blob offset : ℕ}
  {tensors : List TensorInfo} {cfg : ModelConfig}

theorem relayer_empty (n : ℤ) : ({} : ModelWeights).relayer n = { nLayers := n } := by
  rw [ModelWeights.relayer, ModelWeights.mk.injEq]
  refine ⟨rfl, funext fun slot => ?_, rfl, rfl, rfl, rfl, rfl⟩
  cases slot <;> rfl

/-- In an engine that has loaded nothing before. -/
theorem MappedAs.returned (h : MappedAs {} f maxTensors blob cfg mw) :
    loadAndMapWeights f maxTensors cfg.nLayers.toInt.toNat (some blob) cfg =
      .returned true mw := by
  obtain ⟨offset, tensors, hparse, hoffset, hlayers, hpos, hmax, hmw⟩ := h
  rw [mapWeights, relayer_empty] at hpos hmax hmw
  simp only [loadAndMapWeights, hparse]
  rw [if_neg (by omega), if_neg (by omega), if_neg (by omega), ← hmw, decide_eq_true hpos]

theorem mapWeights_concat (ti : TensorInfo) :
    mapWeights old offset (tensors ++ [ti]) blob cfg =
      mapTensor blob offset (mapWeights old offset tensors blob cfg) ti := by
  rw [mapWeights, List.foldl_append, List.foldl_cons, List.foldl_nil, ← mapWeights]

theorem mapWeights_nLayers :
    (mapWeights old offset tensors blob cfg).1.nLayers = cfg.nLayers.toInt := by
  induction tensors using List.reverseRecOn with
  | nil => rfl
  | append_singleton tensors ti ih => rw [mapWeights_concat, mapTensor_nLayers, ih]

/-- A pointer is that of the last tensor for it, or what it was. -/
theorem mapWeights_ptr (slot : WeightSlot) :
    (mapWeights old offset tensors blob cfg).1.ptr slot =
      ((lastFor cfg.nLayers.toInt tensors slot).map (tensorPtr blob offset)).getD
        ((old.relayer cfg.nLayers.toInt).ptr slot) := by
  induction tensors using List.reverseRecOn with
  | nil => rfl
  | append_singleton tensors ti ih =>
    rw [mapWeights_concat, mapTensor, mapWeights_nLayers]
    by_cases hslot : weightSlot cfg.nLayers.toInt ti.name = some slot
    · rw [lastFor_concat_of_eq hslot]
      simp only [hslot, store_ptr, Function.update_self, Option.map_some, Option.getD_some]
    · rw [lastFor_concat_of_ne hslot, ← ih]
      cases hother : weightSlot cfg.nLayers.toInt ti.name with
      | none => rfl
      | some other =>
        have hne : slot ≠ other := by
          rintro rfl
          exact hslot hother
        simp only [store_ptr, Function.update_of_ne hne]

theorem MappedAs.nLayers (h : MappedAs old f maxTensors blob cfg mw) :
    mw.nLayers = cfg.nLayers.toInt := by
  obtain ⟨offset, tensors, -, -, -, -, -, hmw⟩ := h
  have htied : ∀ mw : ModelWeights, mw.tieOutput.nLayers = mw.nLayers := by
    intro mw
    rw [ModelWeights.tieOutput]
    split <;> rfl
  rw [hmw, htied, mapWeights_nLayers]

theorem relayer_ptr_lt (hold : ∀ slot, old.ptr slot < 0x10000000000000000) (n : ℤ)
    (slot : WeightSlot) : (old.relayer n).ptr slot < 0x10000000000000000 := by
  cases slot with
  | layer l kind => exact Nat.zero_lt_succ _
  | tokEmbd => exact hold _
  | outputNorm => exact hold _
  | output => exact hold _

/-- Pointers are 64 bits long, where the old ones were. -/
theorem MappedAs.ptr_lt (h : MappedAs old f maxTensors blob cfg mw)
    (hold : ∀ slot, old.ptr slot < 0x10000000000000000) (slot : WeightSlot) :
    mw.ptr slot < 0x10000000000000000 := by
  obtain ⟨offset, tensors, -, -, -, -, -, hmw⟩ := h
  have hmapped : ∀ slot, (mapWeights old offset.toNat tensors blob cfg).1.ptr slot <
      0x10000000000000000 := by
    intro slot
    rw [mapWeights_ptr]
    cases lastFor cfg.nLayers.toInt tensors slot with
    | none => exact relayer_ptr_lt hold _ slot
    | some ti => exact Nat.mod_lt _ (by decide)
  rw [hmw, tieOutput_ptr]
  split
  · exact hmapped _
  · exact hmapped _

end

section

variable {D H : Type} {sys : System D H} {env : WeightEnv} {cfg : ModelConfig}
  {old : ModelWeights}

/-- Nothing is owned, and the weights are still the old ones. -/
structure BeforeMap (old : ModelWeights) (s : LoadState D H) : Prop where
  weights : s.weights = old
  owned : s.owned = []

theorem BeforeMap.same {s s' : LoadState D H} (h : BeforeMap old s)
    (hcopy : s'.toCopyState = s.toCopyState) : BeforeMap old s' := by
  refine ⟨?_, ?_⟩
  · rw [hcopy, h.weights]
  · rw [hcopy, h.owned]

theorem registerWeights_before (blob size : ℕ) :
    Triple (BeforeMap old) (registerWeights sys blob size) (fun _ => BeforeMap old)
      (fun _ _ => True) := by
  refine Triple.bind (M := fun _ => BeforeMap old) ⟨fun _ h => h.same rfl⟩ fun ok => ?_
  cases ok with
  | false => exact Triple.pure fun _ => id
  | true =>
    refine Triple.bind (M := fun _ => BeforeMap old) ⟨fun _ h => h.same rfl⟩ fun device => ?_
    cases device with
    | none => exact Triple.pure fun _ => id
    | some device => exact Triple.modify fun _ h => h.same rfl

theorem loadGgufWeights_before (size : ℕ) :
    Triple (BeforeMap old) (loadGgufWeights sys env size)
      (fun blob s => BeforeMap old s ∧ s.blob = some blob) (fun _ _ => True) := by
  refine Triple.bind (M := fun _ => BeforeMap old) (Triple.modify fun _ h => h.same rfl) fun _ => ?_
  refine Triple.bind (M := fun _ => BeforeMap old) ⟨fun _ h => h.same rfl⟩ fun blob => ?_
  cases blob with
  | none => exact throw_any _
  | some blob =>
    have hrest : Triple (BeforeMap old)
        (do
          modify fun s : LoadState D H => { s with blob := some blob }
          return blob : LoadM D H ℕ)
        (fun b s => BeforeMap old s ∧ s.blob = some b) (fun _ _ => True) := by
      refine Triple.bind (M := fun _ s => BeforeMap old s ∧ s.blob = some blob)
        (Triple.modify fun _ h => ⟨h.same rfl, rfl⟩) fun _ => ?_
      exact Triple.pure fun _ => id
    simp only
    split
    · exact (registerWeights_before blob size).bind fun _ => hrest
    · exact hrest

/-- What holds once the file is mapped. -/
structure AfterMap (f : ByteStream.Stream) (maxTensors : ℕ) (cfg : ModelConfig)
    (old : ModelWeights) (s : LoadState D H) : Prop where
  owned : s.owned = []
  mapped : ∃ blob, s.blob = some blob ∧ MappedAs old f maxTensors blob cfg s.weights

theorem mapTensors_maps {f : ByteStream.Stream} {maxTensors blob : ℕ} {offset : ℤ}
    {tensors : List TensorInfo}
    (hparse : (parseTensorInfos f maxTensors).1 = .returned offset tensors) (hoffset : 0 ≤ offset) :
    Triple (fun s => BeforeMap old s ∧ s.blob = some blob)
      (mapTensors sys offset.toNat tensors blob cfg)
      (fun _ s => AfterMap f maxTensors cfg old s) (fun _ _ => True) := by
  refine Triple.bind (Triple.returnIf fun _ _ _ => trivial) fun _ => ?_
  refine ⟨?_⟩
  rintro s ⟨⟨⟨rfl, howned⟩, hblob⟩, hlayers⟩
  rw [exec_bind]
  rcases hget : sys.get .layers s.host cfg.nLayers.toInt.toNat with ⟨_ | layers, h₂⟩
  · simp only [getHost, exec_modifyGet, hget, exec_throw]
    trivial
  simp only [getHost, exec_modifyGet, hget, exec_bind, exec_modify, exec_get, exec_returnIf]
  by_cases hmax : 0x7FFFFFFF < (mapWeights s.weights offset.toNat tensors blob cfg).2
  · rw [mapWeights] at hmax
    simp only [if_pos hmax]
    trivial
  by_cases hzero : (mapWeights s.weights offset.toNat tensors blob cfg).2 = 0
  · rw [mapWeights] at hmax hzero
    simp only [if_neg hmax, if_pos hzero]
    trivial
  · rw [mapWeights] at hmax hzero
    simp only [if_neg hmax, if_neg hzero]
    exact ⟨howned, blob, hblob, offset, tensors, hparse, hoffset, not_lt.mp hlayers,
        Nat.pos_of_ne_zero hzero, not_lt.mp hmax, rfl⟩

theorem loadAndMap_maps (f : ByteStream.Stream) (maxTensors size : ℕ) :
    Triple (BeforeMap old) (loadAndMap sys env f maxTensors size cfg)
      (fun _ s => AfterMap f maxTensors cfg old s) (fun _ _ => True) := by
  rw [loadAndMap]
  split
  · exact throw_any _
  · exact throw_any _
  rename_i offset tensors hparse
  refine Triple.bind (Triple.returnIf fun _ _ _ => trivial) fun _ => ?_
  by_cases hoffset : offset < 0
  · refine ⟨fun s h => absurd hoffset h.2⟩
  refine Triple.pre ?_ fun _ h => h.1
  refine (loadGgufWeights_before size).bind fun blob => ?_
  exact mapTensors_maps hparse (not_lt.mp hoffset)

end

/-- The pages that hold the output projection are mapped for the device. -/
structure OutputMapped {D H : Type} (cfg : ModelConfig) (s s' : LoadState D H) : Prop where
  same : s'.weights.ptr .output = s.weights.ptr .output
  covered : ∃ first len device, s'.region = some ⟨first, device, len⟩ ∧
    (s.weights.ptr .output < 0x10000000000000000 → first ≤ s.weights.ptr .output ∧
      s.weights.ptr .output + slotBytes cfg s.weights .output ≤ first + len)

/-- What moving the layers does. -/
structure LayersStep {D H : Type} (sys : System D H) (host : Mem) (env : WeightEnv)
    (cfg : ModelConfig) (s s' : LoadState D H) (done : List ℕ) : Prop where
  first : done <+: List.range s.weights.nLayers.toNat
  moves : Moves sys host cfg (layerSlots quantKinds done) s.toCopyState s'.toCopyState
  moved : AllMoved sys host cfg (layerSlots quantKinds done) s.toCopyState s'.toCopyState
  all : env.mappedWeightDeviceEnabled = false → env.fastGemvEnabled = true →
    env.deviceLayerLimit ≠ 0 → done = List.range s.weights.nLayers.toNat
  reserve : done = [] ∧ s'.budget.freeMb = s.budget.freeMb ∨ 128 ≤ s'.budget.freeMb

/-- What moving the output projection does, `n` bytes of it. -/
structure OutputStep {D H : Type} (sys : System D H) (host : Mem) (env : WeightEnv)
    (cfg : ModelConfig) (s s' : LoadState D H) (n : ℕ) : Prop where
  moves : Moves sys host cfg {.output, .tokEmbd} s.toCopyState s'.toCopyState
  ended :
    n = 0 ∧ s'.weights.ptr = s.weights.ptr ∧ s'.budget.freeMb = s.budget.freeMb ∨
    env.mappedWeightDeviceEnabled = false ∧ s'.weights.ptr = s.weights.ptr ∧
      OutputMapped cfg s s' ∧ s'.budget.freeMb =
        s.budget.freeMb - (slotBytes cfg s.weights .output / (1024 * 1024) : ℕ) ∨
    AllMoved sys host cfg {.output} s.toCopyState s'.toCopyState ∧ 128 ≤ s'.budget.freeMb

section

variable {D H : Type} {sys : System D H} {host : Mem} {env : WeightEnv} {cfg : ModelConfig}
  {s s₀ s' : LoadState D H} {bytes n : ℕ} {c : CopyState D}

theorem addModel_freeMb (b : MemoryBudget) (bytes : ℕ) :
    (b.addModel bytes).freeMb = b.freeMb - (bytes / (1024 * 1024) : ℕ) := by
  simp only [MemoryBudget.freeMb, MemoryBudget.usedMb, MemoryBudget.addModel]
  omega

theorem div_le_ceilMb (h : bytes < 0x8000000000000000) :
    bytes / (1024 * 1024) ≤ ceilMb bytes := by
  have hle := le_ceilMb h
  omega

theorem layersStep (hsys : sys.Lawful)
    (hfits : ∀ l < s.weights.nLayers.toNat, quantBytes cfg s.weights l < 0x8000000000000000)
    (h : materializeLayerWeights sys host env cfg s.budget s.toCopyState = some (bytes, c))
    (hmax : bytes ≠ sizeMax) :
    ∃ done, LayersStep sys host env cfg s
      { s with toCopyState := c, budget := s.budget.addModel bytes } done := by
  obtain ⟨done, hfirst, hadvances, hmoved, hreserve, hbytes⟩ :=
    materializeLayerWeights_first hsys hfits h
  obtain ⟨hle, hall⟩ := hbytes hmax
  have hmb : bytes / (1024 * 1024) ≤ layersMb cfg s.weights done :=
    Nat.div_le_of_le_mul (by omega)
  refine ⟨done, hfirst, hadvances.moves, hmoved, hall, ?_⟩
  rw [addModel_freeMb]
  rcases hreserve with rfl | hreserve
  · have hzero : bytes = 0 := by simpa [layersMb] using hle
    exact Or.inl ⟨rfl, by rw [hzero]; simp⟩
  · exact Or.inr (by omega)

theorem outputStep (hsys : sys.Lawful) {m : MapState H}
    (h : materializeOutputWeight sys host env cfg s.budget s.toCopyState s.toMapState =
      (n, c, m)) :
    OutputStep sys host env cfg s
      { s with toCopyState := c, toMapState := m, budget := s.budget.addModel n } n := by
  obtain ⟨hadvances, hmoved⟩ := materializeOutputWeight_moved hsys h
  refine ⟨hadvances.moves, ?_⟩
  rw [addModel_freeMb]
  cases hmoved with
  | skipped hweights => exact Or.inl ⟨rfl, by rw [hweights], by simp⟩
  | mapped bytes first len device hpos hsize hoff hweights hmaps =>
    refine Or.inr (Or.inl ⟨hoff, by rw [hweights], ⟨by rw [hweights], first, len, device,
      hmaps.region, ?_⟩, by rw [hsize]⟩)
    rw [← hsize]
    exact hmaps.covers
  | copied bytes hpos hsize hreserve hmoved =>
    have hlt : n < 0x8000000000000000 := by
      rw [hsize]
      exact kquantTensorBytes_lt _ cfg.vocabSize.toInt_lt cfg.hiddenDim.toInt_lt
    have hmb := div_le_ceilMb hlt
    exact Or.inr (Or.inr ⟨hmoved, by omega⟩)

variable (s₀) in
theorem loadLayers_step (hsys : sys.Lawful)
    (hfits : ∀ l < s₀.weights.nLayers.toNat, quantBytes cfg s₀.weights l < 0x8000000000000000) :
    Triple (fun s => s = s₀) (loadLayers sys host env cfg)
      (fun _ s => ∃ done, LayersStep sys host env cfg s₀ s done) (fun _ _ => True) := by
  refine ⟨?_⟩
  rintro s rfl
  rw [loadLayers, exec_bind, exec_get]
  simp only
  split
  · trivial
  rename_i bytes c hlayers
  simp only [exec_bind, exec_modify, exec_returnIf]
  by_cases hmax : bytes = sizeMax
  · simp only [if_pos hmax]
    trivial
  · simp only [if_neg hmax]
    exact layersStep hsys hfits hlayers hmax

variable (s₀) in
theorem loadOutput_step (hsys : sys.Lawful) :
    Triple (fun s => s = s₀) (loadOutput sys host env cfg)
      (fun n s => OutputStep sys host env cfg s₀ s n) (fun (_ : LoadEnd) _ => True) := by
  refine ⟨?_⟩
  rintro s rfl
  rw [loadOutput, exec_modifyGet]
  exact outputStep hsys rfl

end

/-- What moving the layers and the output projection does, in either order. -/
structure WeightsMoved {D H : Type} (sys : System D H) (host : Mem) (env : WeightEnv)
    (cfg : ModelConfig) (s s' : LoadState D H) (done : List ℕ) : Prop where
  first : done <+: List.range s.weights.nLayers.toNat
  moves : Moves sys host cfg (layerSlots quantKinds done ∪ {.output, .tokEmbd}) s.toCopyState
    s'.toCopyState
  moved : AllMoved sys host cfg (layerSlots quantKinds done) s.toCopyState s'.toCopyState
  all : env.mappedWeightDeviceEnabled = false → env.fastGemvEnabled = true →
    env.deviceLayerLimit ≠ 0 → done = List.range s.weights.nLayers.toNat
  output : env.mappedWeightDeviceEnabled = false →
    AllMoved sys host cfg {.output} s.toCopyState s'.toCopyState ∨ OutputMapped cfg s s'
  reserve : s'.weights.ptr = s.weights.ptr ∨ 128 ≤ s'.budget.freeMb ∨
    OutputMapped cfg s s' ∧
      128 ≤ s'.budget.freeMb + (slotBytes cfg s.weights .output / (1024 * 1024) : ℕ)

section

variable {D H : Type} {sys : System D H} {host : Mem} {env : WeightEnv} {cfg : ModelConfig}
  {s s₀ s₁ s' : LoadState D H} {n : ℕ} {done : List ℕ}

theorem quant_disjoint_output :
    Disjoint (layerSlots quantKinds done) {WeightSlot.output, .tokEmbd} :=
  layerSlots_disjoint_model (by simp)

theorem LayersStep.ptr_nil (h : LayersStep sys host env cfg s s' []) :
    s'.weights.ptr = s.weights.ptr := by
  funext slot
  apply h.moves.others slot
  rintro ⟨l, hl, -⟩
  cases hl

/-- The output projection first, where the device reads the mapping. -/
theorem LayersStep.after (hmapped : env.mappedWeightDeviceEnabled = true)
    (ho : OutputStep sys host env cfg s s₁ n) (hl : LayersStep sys host env cfg s₁ s' done) :
    WeightsMoved sys host env cfg s s' done := by
  have hlayers : s₁.weights.nLayers = s.weights.nLayers := by rw [ho.moves.fields]
  have hunion : layerSlots quantKinds done ∪ {.output, .tokEmbd} =
      ({.output, .tokEmbd} : Set WeightSlot) ∪ layerSlots quantKinds done := Set.union_comm _ _
  refine ⟨hlayers ▸ hl.first, ?_, ?_, hlayers ▸ hl.all, fun hoff => ?_, ?_⟩
  · rw [hunion]
    exact ho.moves.trans hl.moves quant_disjoint_output.symm
  · exact hl.moved.earlier ho.moves quant_disjoint_output.symm
  · rw [hmapped] at hoff
    cases hoff
  · rcases hl.reserve with ⟨rfl, hsame⟩ | hreserve
    · rcases ho.ended with ⟨-, hptr, -⟩ | ⟨hoff, -⟩ | ⟨-, hreserve⟩
      · exact Or.inl (hl.ptr_nil.trans hptr)
      · rw [hmapped] at hoff
        cases hoff
      · exact Or.inr (Or.inl (by rw [hsame]; exact hreserve))
    · exact Or.inr (Or.inl hreserve)

/-- The layers first, where it does not; then the output projection has to be there. -/
theorem OutputStep.after (hl : LayersStep sys host env cfg s s₁ done)
    (ho : OutputStep sys host env cfg s₁ s' n) (hpos : n ≠ 0) :
    WeightsMoved sys host env cfg s s' done := by
  -- the layers have left the output projection alone
  have houtput : s₁.weights.ptr .output = s.weights.ptr .output :=
    hl.moves.others .output (Set.disjoint_right.mp quant_disjoint_output (Or.inl rfl))
  have hsize : slotBytes cfg s₁.weights .output = slotBytes cfg s.weights .output :=
    slotBytes_fields hl.moves.fields .output
  have hmapped (h : OutputMapped cfg s₁ s') : OutputMapped cfg s s' := by
    refine ⟨h.same.trans houtput, ?_⟩
    have hcovered := h.covered
    rwa [houtput, hsize] at hcovered
  have hdisjoint : Disjoint (layerSlots quantKinds done) {WeightSlot.output} :=
    layerSlots_disjoint_model (by simp)
  refine ⟨hl.first, hl.moves.trans ho.moves quant_disjoint_output,
    hl.moved.later ho.moves quant_disjoint_output, hl.all, fun _ => ?_, ?_⟩
  · rcases ho.ended with ⟨hzero, -⟩ | ⟨-, -, houtput, -⟩ | ⟨hmoved, -⟩
    · exact absurd hzero hpos
    · exact Or.inr (hmapped houtput)
    · exact Or.inl (hmoved.earlier hl.moves hdisjoint)
  · rcases ho.ended with ⟨hzero, -⟩ | ⟨-, hptr, houtput, hfree⟩ | ⟨-, hreserve⟩
    · exact absurd hzero hpos
    · rcases hl.reserve with ⟨rfl, -⟩ | hreserve
      · exact Or.inl (hptr.trans hl.ptr_nil)
      · refine Or.inr (Or.inr ⟨hmapped houtput, ?_⟩)
        rw [hsize] at hfree
        omega
    · exact Or.inr (Or.inl hreserve)

theorem loadWeights_moved (hsys : sys.Lawful)
    (hfits : ∀ l < s₀.weights.nLayers.toNat, quantBytes cfg s₀.weights l < 0x8000000000000000) :
    Triple (fun s => s = s₀) (loadWeights sys host env cfg)
      (fun _ s => ∃ done, WeightsMoved sys host env cfg s₀ s done) (fun _ _ => True) := by
  rw [loadWeights]
  split
  · rename_i hmapped
    refine (loadOutput_step s₀ hsys).bind fun n => ?_
    refine (Triple.remember fun s₁ ho => loadLayers_step s₁ hsys ?_).conseq (fun _ => id)
      ?_ fun _ _ => id
    · intro l hl
      rw [quantBytes_fields ho.moves.fields]
      rw [ho.moves.fields] at hl
      exact hfits l hl
    · rintro - s' ⟨s₁, ho, done, hl⟩
      exact ⟨done, hl.after hmapped ho⟩
  · refine (loadLayers_step s₀ hsys hfits).bind fun _ => ?_
    refine Triple.bind (Triple.remember fun s₁ _ => loadOutput_step s₁ hsys) fun n => ?_
    refine Triple.conseq (Triple.returnIf fun _ _ _ => trivial) (fun _ => id) ?_ fun _ _ => id
    rintro - s' ⟨⟨s₁, ⟨done, hl⟩, ho⟩, hpos⟩
    exact ⟨done, ho.after hl hpos⟩

end

/-- What the end of `load` leaves as it is. -/
structure SameWeights {D H : Type} (s s' : LoadState D H) : Prop extends SameParts s s' where
  budget : s'.budget = s.budget

/-- What moving the norm weights does. -/
structure NormsStep {D H : Type} (sys : System D H) (host : Mem) (cfg : ModelConfig)
    (s s' : LoadState D H) : Prop where
  moves : Moves sys host cfg
    (layerSlots normKinds (List.range s.weights.nLayers.toNat) ∪ {.outputNorm}) s.toCopyState
    s'.toCopyState
  moved : AllMoved sys host cfg
    (usedNorms s.weights (List.range s.weights.nLayers.toNat) ∪ {.outputNorm}) s.toCopyState
    s'.toCopyState
  blob : s'.blob = s.blob

/-- The layers have sizes that a `size_t` can count. -/
def LayersFit (cfg : ModelConfig) (mw : ModelWeights) : Prop :=
  ∀ l < mw.nLayers.toNat, quantBytes cfg mw l < 0x8000000000000000

/-- The weights of a file that gave the pointers of `mw` can be read through those of `s`. The
quantised weights of the layers `done`, and of no other, are on the device. -/
structure Resident {D H : Type} (sys : System D H) (host : Mem) (env : WeightEnv)
    (cfg : ModelConfig) (mw : ModelWeights) (s : LoadState D H) (done : List ℕ) : Prop where
  fields : s.weights = { mw with ptr := s.weights.ptr }
  same : ∀ slot, s.weights.ptr slot = mw.ptr slot ∨
    OnDevice sys host s.toCopyState (s.weights.ptr slot) (mw.ptr slot) (slotBytes cfg mw slot)
  norms : ∀ slot ∈ usedNorms mw (List.range mw.nLayers.toNat) ∪ {.outputNorm},
    OnDevice sys host s.toCopyState (s.weights.ptr slot) (mw.ptr slot) (slotBytes cfg mw slot)
  first : done <+: List.range mw.nLayers.toNat
  layers : ∀ l ∈ done, ∀ kind ∈ quantKinds, OnDevice sys host s.toCopyState
    (s.weights.ptr (.layer l kind)) (mw.ptr (.layer l kind)) (slotBytes cfg mw (.layer l kind))
  others : ∀ l, l ∉ done → ∀ kind ∈ quantKinds,
    s.weights.ptr (.layer l kind) = mw.ptr (.layer l kind)
  /-- Without the mapping on the device every layer has to be moved, unless none may be. -/
  all : env.mappedWeightDeviceEnabled = false → env.fastGemvEnabled = true →
    env.deviceLayerLimit ≠ 0 → done = List.range mw.nLayers.toNat
  /-- And the output projection is on the device, or its pages are mapped. -/
  output : env.mappedWeightDeviceEnabled = false →
    OnDevice sys host s.toCopyState (s.weights.ptr .output) (mw.ptr .output)
        (slotBytes cfg mw .output) ∨
      s.weights.ptr .output = mw.ptr .output ∧
        ∃ first len device, s.region = some ⟨first, device, len⟩ ∧ first ≤ mw.ptr .output ∧
          mw.ptr .output + slotBytes cfg mw .output ≤ first + len

section

variable {D H : Type} {sys : System D H} {host : Mem} {env : WeightEnv} {cfg : ModelConfig}
  {s s₀ s₁ s₂ s₃ s' : LoadState D H} {done : List ℕ}

theorem SameWeights.trans (h : SameWeights s₀ s) (h' : SameWeights s s') : SameWeights s₀ s' :=
  ⟨⟨h'.copy.trans h.copy, h'.blob.trans h.blob, h'.region.trans h.region⟩,
    h'.budget.trans h.budget⟩

theorem loadStream_same :
    Triple (SameWeights s₀) (loadStream sys cfg)
      (fun _ s => SameWeights s₀ s ∧ s.loaded = true) (fun (_ : LoadEnd) _ => True) := by
  refine Triple.bind (M := fun _ => SameWeights s₀) ⟨fun _ h => h.trans ⟨⟨rfl, rfl, rfl⟩, rfl⟩⟩
    fun stream => ?_
  refine Triple.bind (M := fun _ => SameWeights s₀)
    (Triple.modify fun _ h => h.trans ⟨⟨rfl, rfl, rfl⟩, rfl⟩) fun _ => ?_
  refine Triple.bind (M := fun _ => SameWeights s₀) ⟨fun _ h => h.trans ⟨⟨rfl, rfl, rfl⟩, rfl⟩⟩
    fun logits => ?_
  cases logits with
  | none => exact throw_any _
  | some _ => exact Triple.modify fun _ h => ⟨h.trans ⟨⟨rfl, rfl, rfl⟩, rfl⟩, rfl⟩

theorem loadNorms_step (hsys : sys.Lawful) :
    Triple (fun s => s = s₀) (loadNorms sys host cfg) (fun _ s => NormsStep sys host cfg s₀ s)
      (fun _ _ => True) := by
  refine ⟨?_⟩
  rintro s rfl
  rcases hnorms : materializeNormWeights sys host cfg s.toCopyState with ⟨_ | _, c⟩
  all_goals simp only [loadNorms, exec_bind, exec_modifyGet, exec_returnIf, hnorms]
  · trivial
  · obtain ⟨hadvances, hmoved⟩ := materializeNormWeights_advances host cfg hsys hnorms
    exact ⟨hadvances.moves, hmoved rfl, rfl⟩

theorem loadWeights_blob {b : Option ℕ} :
    Triple (fun s => s.blob = b) (loadWeights sys host env cfg) (fun _ s => s.blob = b)
      (fun _ _ => True) := by
  have hlayers : Triple (fun s => s.blob = b) (loadLayers sys host env cfg)
      (fun _ s => s.blob = b) (fun _ _ => True) := by
    refine Triple.bind (Triple.get.conseq (fun _ => id) (fun _ _ => And.right) fun _ _ => id)
      fun s => ?_
    split
    · exact throw_any _
    refine Triple.bind (M := fun _ s => s.blob = b) (Triple.modify fun _ h => h) fun _ => ?_
    refine Triple.bind (Triple.returnIf fun _ _ _ => trivial) fun _ => ?_
    exact Triple.modify fun _ h => h.1
  have houtput : Triple (fun s => s.blob = b) (loadOutput sys host env cfg)
      (fun _ s => s.blob = b) (fun _ _ => True) := ⟨fun _ h => h⟩
  rw [loadWeights]
  split
  · exact houtput.bind fun _ => hlayers
  · refine hlayers.bind fun _ => houtput.bind fun n => ?_
    exact (Triple.returnIf fun _ _ _ => trivial).conseq (fun _ => id) (fun _ _ => And.left)
      fun _ _ => id

/-- The stages of a `load` that has returned true. -/
structure Loaded (sys : System D H) (host : Mem) (env : WeightEnv) (cfg : ModelConfig)
    (s₁ s₂ s₃ s₄ s' : LoadState D H) : Prop where
  norms : NormsStep sys host cfg s₁ s₂
  buffers : Kept sys s₂ s₃
  weights : LayersFit cfg s₃.weights → ∃ done, WeightsMoved sys host env cfg s₃ s₄ done
  blob : s₄.blob = s₃.blob
  stream : SameWeights s₄ s'
  loaded : s'.loaded = true

theorem loadWeights_step (hsys : sys.Lawful) :
    Triple (fun s => s = s₃) (loadWeights sys host env cfg)
      (fun _ s => (LayersFit cfg s₃.weights → ∃ done, WeightsMoved sys host env cfg s₃ s done) ∧
        s.blob = s₃.blob) (fun _ _ => True) := by
  have hblob : Triple (fun s => s = s₃) (loadWeights sys host env cfg)
      (fun _ s => s.blob = s₃.blob) (fun _ _ => True) := loadWeights_blob.pre fun s hs => by rw [hs]
  refine Triple.and ?_ hblob
  by_cases hfits : LayersFit cfg s₃.weights
  · exact (loadWeights_moved hsys hfits).conseq (fun _ => id) (fun _ _ h _ => h) fun _ _ => id
  · exact Triple.any.conseq (fun _ _ => trivial) (fun _ _ _ h => absurd h hfits) fun _ _ => id

/-- From the buffers on. -/
theorem loadRest_loaded (hsys : sys.Lawful) (p : LoadParams)
    (hnorms : NormsStep sys host cfg s₁ s₂) :
    Triple (Kept sys s₂)
      (do
        loadBuffers sys env cfg p
        loadWeights sys host env cfg
        loadStream sys cfg)
      (fun _ s' => ∃ s₃ s₄, Loaded sys host env cfg s₁ s₂ s₃ s₄ s') (fun _ _ => True) := by
  have hweights (s₃ : LoadState D H) (hkept : Kept sys s₂ s₃) : Triple (fun s => s = s₃)
      (do
        loadWeights sys host env cfg
        loadStream sys cfg)
      (fun _ s' => ∃ s₄, Loaded sys host env cfg s₁ s₂ s₃ s₄ s') (fun _ _ => True) := by
    refine (loadWeights_step hsys).bind fun _ => ?_
    have hstream (s₄ : LoadState D H) : Triple (fun s => s = s₄) (loadStream sys cfg)
        (fun _ s' => SameWeights s₄ s' ∧ s'.loaded = true) (fun (_ : LoadEnd) _ => True) := by
      refine loadStream_same.pre fun s hs => ?_
      rw [hs]
      exact ⟨⟨rfl, rfl, rfl⟩, rfl⟩
    refine (Triple.remember fun s₄ _ => hstream s₄).conseq (fun _ => id) ?_ fun _ _ => id
    rintro - s' ⟨s₄, ⟨hmoved, hblob⟩, hsame, hloaded⟩
    exact ⟨s₄, hnorms, hkept, hmoved, hblob, hsame, hloaded⟩
  refine (loadBuffers_kept hsys p).bind fun _ => ?_
  refine (Triple.remember hweights).conseq (fun _ => id) ?_ fun _ _ => id
  rintro - s' ⟨s₃, -, s₄, h⟩
  exact ⟨s₃, s₄, h⟩

theorem loadMapped_loaded (hsys : sys.Lawful) (size : ℕ) (p : LoadParams) :
    Triple (fun s => s = s₁) (loadMapped sys host env size cfg p)
      (fun _ s' => ∃ s₂ s₃ s₄, Loaded sys host env cfg s₁ s₂ s₃ s₄ s') (fun _ _ => True) := by
  refine (loadNorms_step hsys).bind fun _ => ?_
  have hrest (s₂ : LoadState D H) (hnorms : NormsStep sys host cfg s₁ s₂) :
      Triple (fun s => s = s₂)
        (do
          modify fun s =>
            { s with budget := { s.budget with
                modelMb := if env.mappedWeightDeviceEnabled then (size / (1024 * 1024) : ℕ) else 0 } }
          loadBuffers sys env cfg p
          loadWeights sys host env cfg
          loadStream sys cfg)
        (fun _ s' => ∃ s₃ s₄, Loaded sys host env cfg s₁ s₂ s₃ s₄ s') (fun _ _ => True) := by
    refine Triple.bind (M := fun _ => Kept sys s₂) (Triple.modify ?_) fun _ =>
      loadRest_loaded hsys p hnorms
    rintro s rfl
    exact Kept.refl.same ⟨rfl, rfl, rfl⟩
  refine (Triple.remember hrest).conseq (fun _ => id) ?_ fun _ _ => id
  rintro - s' ⟨s₂, -, s₃, s₄, h⟩
  exact ⟨s₂, s₃, s₄, h⟩

theorem load_loaded (host : Mem) (env : WeightEnv) (cfg : ModelConfig) (hsys : sys.Lawful)
    (f : ByteStream.Stream) (maxTensors size : ℕ) (probe : MemoryBudget) (p : LoadParams)
    {old : ModelWeights} :
    Triple (BeforeMap old) (load sys host env f maxTensors size cfg probe p)
      (fun _ s' => ∃ s₁, AfterMap f maxTensors cfg old s₁ ∧
        ∃ s₂ s₃ s₄, Loaded sys host env cfg s₁ s₂ s₃ s₄ s') (fun _ _ => True) := by
  refine Triple.bind (M := fun _ => BeforeMap old) (Triple.modify fun _ h => h.same rfl) fun _ => ?_
  refine (loadAndMap_maps f maxTensors size).bind fun _ => ?_
  exact Triple.remember fun s₁ _ => loadMapped_loaded hsys size p

theorem Kept.moves (host : Mem) (cfg : ModelConfig) (h : Kept sys s₀ s) :
    Moves sys host cfg ∅ s₀.toCopyState s.toCopyState where
  fields := by rw [h.weights]
  keeps := h.keeps
  owned := by
    rw [h.owned]
    exact List.Subset.refl s₀.owned
  others slot _ := by rw [h.weights]
  moved slot := Or.inl (by rw [h.weights])

/-- All that `load` moves after the norm weights. -/
def movedLate (done : List ℕ) : Set WeightSlot :=
  layerSlots quantKinds done ∪ {.output, .tokEmbd}

/-- The norm weights. -/
def normSlots (mw : ModelWeights) : Set WeightSlot :=
  layerSlots normKinds (List.range mw.nLayers.toNat) ∪ {.outputNorm}

theorem norms_disjoint_late (mw : ModelWeights) (done : List ℕ) :
    Disjoint (normSlots mw) (movedLate done) := by
  rw [Set.disjoint_left]
  rintro slot (⟨l, hl, kind, hkind, rfl⟩ | rfl)
  · rintro (hquant | houtput)
    · obtain ⟨-, hquant⟩ := mem_layerSlots.mp hquant
      rcases hkind with rfl | rfl | rfl | rfl <;> simp [quantKinds] at hquant
    · simp at houtput
  · rintro (⟨l, hl, kind, hkind, hslot⟩ | houtput)
    · cases hslot
    · simp at houtput

section

variable {s₄ : LoadState D H}

/-- Up to the buffers only norm weights have moved. -/
theorem Loaded.early (h : Loaded sys host env cfg s₁ s₂ s₃ s₄ s') :
    Moves sys host cfg (normSlots s₁.weights) s₁.toCopyState s₃.toCopyState := by
  have hmoves := h.norms.moves.trans (h.buffers.moves host cfg)
    (Set.disjoint_empty _)
  rwa [Set.union_empty] at hmoves

theorem Loaded.fits (h : Loaded sys host env cfg s₁ s₂ s₃ s₄ s') (hfits : LayersFit cfg s₁.weights) :
    LayersFit cfg s₃.weights := by
  intro l hl
  rw [quantBytes_fields h.early.fields]
  rw [h.early.fields] at hl
  exact hfits l hl

theorem Loaded.resident (h : Loaded sys host env cfg s₁ s₂ s₃ s₄ s')
    (hptr : s₁.weights.ptr .output < 0x10000000000000000)
    (hw : WeightsMoved sys host env cfg s₃ s₄ done) :
    Resident sys host env cfg s₁.weights s' done := by
  have hlayers : s₃.weights.nLayers = s₁.weights.nLayers := by rw [h.early.fields]
  have hdisjoint := norms_disjoint_late s₁.weights done
  have hmoves := h.early.trans hw.moves hdisjoint
  have hnorms := (h.norms.moved.later (h.buffers.moves host cfg)
    (Set.disjoint_empty _)).later hw.moves
    (hdisjoint.mono_left (Set.union_subset_union_left _ (usedNorms_subset _)))
  have hquant := hw.moved.earlier h.early (hdisjoint.mono_right Set.subset_union_left)
  have hsame := h.stream.copy
  refine ⟨?_, ?_, ?_, hlayers ▸ hw.first, ?_, ?_, hlayers ▸ hw.all, ?_⟩
  · rw [hsame]
    exact hmoves.fields
  · rw [hsame]
    exact hmoves.moved
  · rw [hsame]
    exact hnorms
  · rw [hsame]
    exact fun l hl kind hkind => hquant _ (mem_layerSlots.mpr ⟨hl, hkind⟩)
  · rw [hsame]
    intro l hl kind hkind
    apply hmoves.others
    rintro (hnorm | hlate)
    · exact Set.disjoint_left.mp (norms_disjoint_late s₁.weights [l]) hnorm
        (Or.inl (mem_layerSlots.mpr ⟨List.mem_singleton_self l, hkind⟩))
    · rcases hlate with hquant | houtput
      · exact hl (mem_layerSlots.mp hquant).1
      · simp at houtput
  · intro hoff
    rw [hsame, h.stream.region]
    have houtput : WeightSlot.output ∉ normSlots s₁.weights :=
      fun hnorm => Set.disjoint_left.mp hdisjoint hnorm (Or.inr (Or.inl rfl))
    rcases hw.output hoff with hmoved | ⟨hkept, first, len, device, hregion, hcovers⟩
    · exact Or.inl (hmoved.earlier h.early (Set.disjoint_singleton_right.mpr houtput) .output rfl)
    · rw [h.early.others .output houtput, slotBytes_fields h.early.fields] at hcovers
      rw [h.early.others .output houtput] at hkept
      exact Or.inr ⟨hkept, first, len, device, hregion, hcovers hptr⟩

end

end

/-- After a first `load` that has returned true every weight can be read: its pointer is the one
that the file gave it, or goes to a block of the device with the same bytes. The norm weights
that the kernels read are on the device, and so are the first layers, each as a whole. -/
theorem load_resident {D H : Type} {sys : System D H} (hsys : sys.Lawful) (host : Mem)
    (env : WeightEnv) (f : ByteStream.Stream) (maxTensors size : ℕ) (cfg : ModelConfig)
    (probe : MemoryBudget) (p : LoadParams) {s s' : LoadState D H} (howned : s.owned = [])
    (hfresh : s.weights = {})
    (hload : (load sys host env f maxTensors size cfg probe p).exec s = (.ok (), s')) :
    ∃ blob mw, s'.blob = some blob ∧ s'.loaded = true ∧
      loadAndMapWeights f maxTensors cfg.nLayers.toInt.toNat (some blob) cfg = .returned true mw ∧
      (LayersFit cfg mw → ∃ done, Resident sys host env cfg mw s' done) := by
  obtain ⟨s₁, ⟨-, blob, hblob, hmapped⟩, s₂, s₃, s₄, h⟩ :=
    (load_loaded host env cfg hsys f maxTensors size probe p).run
      ⟨hfresh, howned⟩ hload
  refine ⟨blob, s₁.weights, ?_, h.loaded, hmapped.returned, fun hfits => ?_⟩
  · rw [h.stream.blob, h.blob, h.buffers.blob, h.norms.blob, hblob]
  · obtain ⟨done, hw⟩ := h.weights (h.fits hfits)
    exact ⟨done, h.resident (hmapped.ptr_lt (fun _ => Nat.zero_lt_succ _) .output) hw⟩

/-- Layers of less than 2^63 weights fit. -/
theorem layersFit_of_weights {cfg : ModelConfig} (mw : ModelWeights)
    (h : (cfg.nHeads.toInt * cfg.headDim.toInt).toNat * cfg.hiddenDim.toInt.toNat * 2 +
      (cfg.nKvHeads.toInt * cfg.headDim.toInt).toNat * cfg.hiddenDim.toInt.toNat * 2 +
      cfg.intermediateDim.toInt.toNat * cfg.hiddenDim.toInt.toNat * 3 < 0x8000000000000000) :
    LayersFit cfg mw := by
  intro l _
  have hle : ∀ kind rows cols,
      kquantTensorBytes (mw.matType (l, kind)) rows cols ≤ rows.toNat * cols.toNat :=
    fun kind => kquantTensorBytes_le _
  have hq := hle .wq (cfg.nHeads.toInt * cfg.headDim.toInt) cfg.hiddenDim.toInt
  have hk := hle .wk (cfg.nKvHeads.toInt * cfg.headDim.toInt) cfg.hiddenDim.toInt
  have hv := hle .wv (cfg.nKvHeads.toInt * cfg.headDim.toInt) cfg.hiddenDim.toInt
  have ho := hle .wo cfg.hiddenDim.toInt (cfg.nHeads.toInt * cfg.headDim.toInt)
  have hgate := hle .wGate cfg.intermediateDim.toInt cfg.hiddenDim.toInt
  have hup := hle .wUp cfg.intermediateDim.toInt cfg.hiddenDim.toInt
  have hdown := hle .wDown cfg.hiddenDim.toInt cfg.intermediateDim.toInt
  rw [Nat.mul_comm cfg.hiddenDim.toInt.toNat] at ho hdown
  simp only [quantBytes, slotBytes, List.map_cons, List.map_nil, List.sum_cons, List.sum_nil]
  omega

theorem small_loaded : ∃ s', (load recordedSystem (fun _ => 0) {} smallFile 4 3216 smallConfig
    EngineLoad.jetsonBudget ⟨false, 16⟩).exec (newEngine true) = (.ok (), s') := by
  have hok : ((load recordedSystem (fun _ => 0) {} smallFile 4 3216 smallConfig
      EngineLoad.jetsonBudget ⟨false, 16⟩).exec (newEngine true)).1.isOk = true := by decide +kernel
  obtain ⟨⟨⟩, s', hload⟩ := exists_of_isOk hok
  exact ⟨s', hload⟩

theorem load_resident_small : ∃ (s' : LoadState SizedDevice RecordedHost) (blob : ℕ)
    (mw : ModelWeights) (done : List ℕ), s'.blob = some blob ∧
    loadAndMapWeights smallFile 4 1 (some blob) smallConfig = .returned true mw ∧
    Resident recordedSystem (fun _ => 0) {} smallConfig mw s' done := by
  obtain ⟨s', hload⟩ := small_loaded
  obtain ⟨blob, mw, hblob, -, hmap, hresident⟩ := load_resident recordedSystem_lawful (fun _ => 0) {}
    smallFile 4 3216 smallConfig EngineLoad.jetsonBudget ⟨false, 16⟩ rfl rfl hload
  obtain ⟨done, h⟩ := hresident (layersFit_of_weights mw (by decide))
  exact ⟨s', blob, mw, done, hblob, hmap, h⟩

/-- What a first `load` that has returned true has copied, besides the norm weights, leaves 128 MB
of the budget; pages of the output projection that are mapped are counted there, but not copied. -/
theorem load_reserve {D H : Type} {sys : System D H} (hsys : sys.Lawful) (host : Mem)
    (env : WeightEnv) (f : ByteStream.Stream) (maxTensors size : ℕ) (cfg : ModelConfig)
    (probe : MemoryBudget) (p : LoadParams) {s s' : LoadState D H} (howned : s.owned = [])
    (hfresh : s.weights = {})
    (hload : (load sys host env f maxTensors size cfg probe p).exec s = (.ok (), s')) :
    ∃ blob mw, s'.blob = some blob ∧
      loadAndMapWeights f maxTensors cfg.nLayers.toInt.toNat (some blob) cfg = .returned true mw ∧
      (LayersFit cfg mw →
        (∀ slot, slot ∉ normSlots mw → s'.weights.ptr slot = mw.ptr slot) ∨
        128 ≤ s'.budget.freeMb ∨
        s'.weights.ptr .output = mw.ptr .output ∧ s'.region.isSome = true ∧
          128 ≤ s'.budget.freeMb + (slotBytes cfg mw .output / (1024 * 1024) : ℕ)) := by
  obtain ⟨s₁, ⟨-, blob, hblob, hmapped⟩, s₂, s₃, s₄, h⟩ :=
    (load_loaded host env cfg hsys f maxTensors size probe p).run
      ⟨hfresh, howned⟩ hload
  refine ⟨blob, s₁.weights, ?_, hmapped.returned, fun hfits => ?_⟩
  · rw [h.stream.blob, h.blob, h.buffers.blob, h.norms.blob, hblob]
  obtain ⟨done, hw⟩ := h.weights (h.fits hfits)
  have hearly := h.early.others
  rw [h.stream.copy, h.stream.budget, h.stream.region]
  rcases hw.reserve with hptr | hreserve | ⟨hmapped, hreserve⟩
  · left
    intro slot hslot
    rw [hptr]
    exact hearly slot hslot
  · exact Or.inr (Or.inl hreserve)
  · obtain ⟨hsame, first, len, device, hregion, -⟩ := hmapped
    rw [slotBytes_fields h.early.fields] at hreserve
    refine Or.inr (Or.inr ⟨hsame.trans (hearly .output ?_), by rw [hregion]; rfl, hreserve⟩)
    exact fun hnorm => Set.disjoint_left.mp (norms_disjoint_late s₁.weights []) hnorm
      (Or.inr (Or.inl rfl))

theorem load_reserve_small : ∃ (s' : LoadState SizedDevice RecordedHost) (blob : ℕ)
    (mw : ModelWeights), s'.blob = some blob ∧
    loadAndMapWeights smallFile 4 1 (some blob) smallConfig = .returned true mw ∧
    ((∀ slot, slot ∉ normSlots mw → s'.weights.ptr slot = mw.ptr slot) ∨
      128 ≤ s'.budget.freeMb ∨
      s'.weights.ptr .output = mw.ptr .output ∧ s'.region.isSome = true ∧
        128 ≤ s'.budget.freeMb + (slotBytes smallConfig mw .output / (1024 * 1024) : ℕ)) := by
  obtain ⟨s', hload⟩ := small_loaded
  obtain ⟨blob, mw, hblob, hmap, hreserve⟩ := load_reserve recordedSystem_lawful (fun _ => 0) {}
    smallFile 4 3216 smallConfig EngineLoad.jetsonBudget ⟨false, 16⟩ rfl rfl hload
  exact ⟨s', blob, mw, hblob, hmap, hreserve (layersFit_of_weights mw (by decide))⟩

end JLLM
