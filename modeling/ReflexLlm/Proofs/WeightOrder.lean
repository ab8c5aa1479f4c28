import ReflexLlm.Lib.LastHit
import ReflexLlm.Proofs.WeightMap

/-! Whether the order of the tensors in a file matters. Each pointer has its own place, and
so has each type but four: the two norms of a layer share a flag, and so do its two
query and key norms. -/

namespace JLLM

open ByteStream Gguf LastHit

/-! ### Types as fields -/

/-- The places for element types. -/
inductive TypeField where
  | mat (l : ℕ) (slot : LayerSlot)
  | rms (l : ℕ)
  | qkNorm (l : ℕ)
  | embd
  | output
deriving DecidableEq

/-- Where the type of a weight goes. -/
def WeightSlot.typeField : WeightSlot → Option TypeField
  | .layer l .qNorm | .layer l .kNorm => some (.qkNorm l)
  | .layer l .rmsAttn | .layer l .rmsFfn => some (.rms l)
  | .layer l slot => some (.mat l slot)
  | .tokEmbd => some .embd
  | .outputNorm => none
  | .output => some .output

/-- 0=F32, 1=F16. -/
def typeFlag (type : UInt32) : ℕ := if type = 0 then 0 else 1

/-- What is stored there. -/
def WeightSlot.storedType : WeightSlot → UInt32 → ℕ
  | .layer _ .qNorm, type | .layer _ .kNorm, type => typeFlag type
  | .layer _ .rmsAttn, type | .layer _ .rmsFfn, type => typeFlag type
  | _, type => type.toNat

def ModelWeights.typeOf (mw : ModelWeights) : TypeField → ℕ
  | .mat l slot => (mw.matType (l, slot)).toNat
  | .rms l => mw.rmsType l
  | .qkNorm l => mw.qkNormType l
  | .embd => mw.embdType.toNat
  | .output => mw.outputType.toNat

theorem ModelWeights.eq_of {mw mw' : ModelWeights} (hlayers : mw.nLayers = mw'.nLayers)
    (hptr : mw.ptr = mw'.ptr) (htype : mw.typeOf = mw'.typeOf) : mw = mw' := by
  obtain ⟨nLayers, ptr, matType, rmsType, qkNormType, embdType, outputType⟩ := mw
  obtain ⟨nLayers', ptr', matType', rmsType', qkNormType', embdType', outputType'⟩ := mw'
  obtain rfl : nLayers = nLayers' := hlayers
  obtain rfl : ptr = ptr' := hptr
  have hmat : matType = matType' := funext fun key =>
    UInt32.toNat_inj.mp (congrFun htype (.mat key.1 key.2))
  have hrms : rmsType = rmsType' := funext fun l => congrFun htype (.rms l)
  have hqk : qkNormType = qkNormType' := funext fun l => congrFun htype (.qkNorm l)
  have hembd : embdType = embdType' := UInt32.toNat_inj.mp (congrFun htype .embd)
  have houtput : outputType = outputType' := UInt32.toNat_inj.mp (congrFun htype .output)
  rw [hmat, hrms, hqk, hembd, houtput]

/-- A store writes one field. -/
theorem store_typeOf (mw : ModelWeights) (slot : WeightSlot) (ptr : ℕ) (type : UInt32) :
    (mw.store slot ptr type).typeOf =
      (slot.typeField.map fun k => Function.update mw.typeOf k (slot.storedType type)).getD
        mw.typeOf := by
  funext k
  cases slot with
  | layer l slot =>
    cases slot <;> cases k <;>
      simp [ModelWeights.store, ModelWeights.typeOf, WeightSlot.typeField, WeightSlot.storedType,
        typeFlag, Function.update_apply, apply_ite UInt32.toNat]
  | tokEmbd =>
    cases k <;>
      simp [ModelWeights.store, ModelWeights.typeOf, WeightSlot.typeField, WeightSlot.storedType]
  | outputNorm => cases k <;> rfl
  | output =>
    cases k <;>
      simp [ModelWeights.store, ModelWeights.typeOf, WeightSlot.typeField, WeightSlot.storedType]

/-- Stores to different pointers commute when they agree on a field that they share. -/
theorem store_comm (mw : ModelWeights) {slot slot' : WeightSlot} (hne : slot ≠ slot')
    {type type' : UInt32} (hagree : ∀ k, slot.typeField = some k → slot'.typeField = some k →
      slot.storedType type = slot'.storedType type') (ptr ptr' : ℕ) :
    (mw.store slot ptr type).store slot' ptr' type' =
      (mw.store slot' ptr' type').store slot ptr type := by
  refine ModelWeights.eq_of ?_ ?_ ?_
  · simp only [store_nLayers]
  · simp only [store_ptr]
    exact Function.update_comm hne _ _ _
  · simp only [store_typeOf]
    cases hk : slot.typeField with
    | none => rfl
    | some k =>
      cases hk' : slot'.typeField with
      | none => rfl
      | some k' =>
        simp only [Option.map_some, Option.getD_some]
        by_cases heq : k = k'
        · subst heq
          rw [hagree k hk hk', Function.update_idem]
        · exact Function.update_comm heq _ _ _

/-! ### The loop -/

/-- The body of the loop for a number of layers that stays the same. -/
def mapTensorOf (nLayers : ℤ) (blob dataOffset : ℕ) (s : ModelWeights × ℕ) (ti : TensorInfo) :
    ModelWeights × ℕ :=
  match weightSlot nLayers ti.name with
  | some slot => (s.1.store slot (tensorPtr blob dataOffset ti) ti.type, s.2 + 1)
  | none => s

section

variable {nLayers : ℤ} {blob dataOffset : ℕ} {tensors tensors' : List TensorInfo}

theorem mapAll_eq_foldl (tensors : List TensorInfo) : mapAll nLayers blob dataOffset tensors =
    tensors.foldl (mapTensorOf nLayers blob dataOffset) ({ nLayers := nLayers }, 0) := by
  induction tensors using List.reverseRecOn with
  | nil => rfl
  | append_singleton tensors ti ih =>
    rw [mapAll_concat, mapTensor, mapAll_nLayers, ih, List.foldl_append]
    rfl

/-- Each pointer has one tensor at most. -/
def SlotsDistinct (nLayers : ℤ) (tensors : List TensorInfo) : Prop :=
  tensors.Pairwise fun ti ti' =>
    ∀ slot, weightSlot nLayers ti.name = some slot → weightSlot nLayers ti'.name ≠ some slot

/-- The norms of a layer that share a flag are of one type, as far as the flag tells. -/
def NormTypesAgree (nLayers : ℤ) (tensors : List TensorInfo) : Prop :=
  ∀ ti ∈ tensors, ∀ ti' ∈ tensors, ∀ l,
    (weightSlot nLayers ti.name = some (.layer l .rmsAttn) →
      weightSlot nLayers ti'.name = some (.layer l .rmsFfn) → (ti.type = 0 ↔ ti'.type = 0)) ∧
    (weightSlot nLayers ti.name = some (.layer l .qNorm) →
      weightSlot nLayers ti'.name = some (.layer l .kNorm) → (ti.type = 0 ↔ ti'.type = 0))

/-- The flag that a norm is read with. -/
def ModelWeights.normFlag (mw : ModelWeights) : WeightSlot → Option ℕ
  | .layer l .rmsAttn | .layer l .rmsFfn => some (mw.rmsType l)
  | .layer l .qNorm | .layer l .kNorm => some (mw.qkNormType l)
  | _ => none

/-- Every norm is read as what it is. -/
def NormFlagsRight (nLayers : ℤ) (tensors : List TensorInfo) (mw : ModelWeights) : Prop :=
  ∀ ti ∈ tensors, ∀ slot flag, weightSlot nLayers ti.name = some slot →
    mw.normFlag slot = some flag → flag = typeFlag ti.type

theorem typeFlag_eq_iff (type type' : UInt32) :
    typeFlag type = typeFlag type' ↔ (type = 0 ↔ type' = 0) := by
  unfold typeFlag
  split_ifs with h h' h'
  · simp [h, h']
  · simp [h, h']
  · simp [h, h']
  · simp [h, h']

theorem typeField_rms {slot : WeightSlot} {l : ℕ} (h : slot.typeField = some (.rms l)) :
    slot = .layer l .rmsAttn ∨ slot = .layer l .rmsFfn := by
  cases slot with
  | layer l' slot => cases slot <;> simp [WeightSlot.typeField] at h ⊢ <;> exact h
  | _ => simp [WeightSlot.typeField] at h

theorem typeField_qkNorm {slot : WeightSlot} {l : ℕ} (h : slot.typeField = some (.qkNorm l)) :
    slot = .layer l .qNorm ∨ slot = .layer l .kNorm := by
  cases slot with
  | layer l' slot => cases slot <;> simp [WeightSlot.typeField] at h ⊢ <;> exact h
  | _ => simp [WeightSlot.typeField] at h

/-- Only norms share a field. -/
theorem eq_of_typeField {slot slot' : WeightSlot} {k : TypeField} (h : slot.typeField = some k)
    (h' : slot'.typeField = some k) :
    slot = slot' ∨ (∃ l, k = .rms l) ∨ ∃ l, k = .qkNorm l := by
  cases slot with
  | layer l slot =>
    cases slot with
    | qNorm | kNorm => exact .inr (.inr ⟨l, (Option.some.inj h).symm⟩)
    | rmsAttn | rmsFfn => exact .inr (.inl ⟨l, (Option.some.inj h).symm⟩)
    | _ =>
      obtain rfl := Option.some.inj h
      cases slot' with
      | layer l' slot' =>
        cases slot' <;> simp [WeightSlot.typeField] at h' ⊢
        exact h'.symm
      | _ => simp [WeightSlot.typeField] at h'
  | tokEmbd =>
    obtain rfl := Option.some.inj h
    cases slot' with
    | layer l' slot' => cases slot' <;> simp [WeightSlot.typeField] at h'
    | tokEmbd => exact .inl rfl
    | _ => simp [WeightSlot.typeField] at h'
  | outputNorm => cases h
  | output =>
    obtain rfl := Option.some.inj h
    cases slot' with
    | layer l' slot' => cases slot' <;> simp [WeightSlot.typeField] at h'
    | output => exact .inl rfl
    | _ => simp [WeightSlot.typeField] at h'

theorem SlotsDistinct.eq {ti ti' : TensorInfo} {slot : WeightSlot}
    (h : SlotsDistinct nLayers tensors) (hti : ti ∈ tensors) (hti' : ti' ∈ tensors)
    (hslot : weightSlot nLayers ti.name = some slot)
    (hslot' : weightSlot nLayers ti'.name = some slot) : ti = ti' := by
  have hall := List.Pairwise.forall_of_forall_of_flip
    (R := fun ti ti' : TensorInfo => ti = ti' ∨ ∀ slot, weightSlot nLayers ti.name = some slot →
      weightSlot nLayers ti'.name ≠ some slot)
    (fun _ _ => .inl rfl) (h.imp fun hne => .inr hne)
    (h.imp fun hne => .inr fun slot h₁ h₂ => hne slot h₂ h₁)
  exact (hall hti hti').resolve_right fun hne => hne slot hslot hslot'

/-- Tensors that write one field write one value. -/
theorem storedType_agree {ti ti' : TensorInfo} {slot slot' : WeightSlot} {k : TypeField}
    (hdistinct : SlotsDistinct nLayers tensors) (hagree : NormTypesAgree nLayers tensors)
    (hti : ti ∈ tensors) (hti' : ti' ∈ tensors) (hslot : weightSlot nLayers ti.name = some slot)
    (hslot' : weightSlot nLayers ti'.name = some slot') (hk : slot.typeField = some k)
    (hk' : slot'.typeField = some k) : slot.storedType ti.type = slot'.storedType ti'.type := by
  rcases eq_of_typeField hk hk' with rfl | ⟨l, rfl⟩ | ⟨l, rfl⟩
  · rw [hdistinct.eq hti hti' hslot hslot']
  · rcases typeField_rms hk with rfl | rfl <;> rcases typeField_rms hk' with rfl | rfl
    · rw [hdistinct.eq hti hti' hslot hslot']
    · exact (typeFlag_eq_iff _ _).mpr ((hagree ti hti ti' hti' l).1 hslot hslot')
    · exact (typeFlag_eq_iff _ _).mpr ((hagree ti' hti' ti hti l).1 hslot' hslot).symm
    · rw [hdistinct.eq hti hti' hslot hslot']
  · rcases typeField_qkNorm hk with rfl | rfl <;> rcases typeField_qkNorm hk' with rfl | rfl
    · rw [hdistinct.eq hti hti' hslot hslot']
    · exact (typeFlag_eq_iff _ _).mpr ((hagree ti hti ti' hti' l).2 hslot hslot')
    · exact (typeFlag_eq_iff _ _).mpr ((hagree ti' hti' ti hti l).2 hslot' hslot).symm
    · rw [hdistinct.eq hti hti' hslot hslot']

theorem mapTensorOf_comm {ti ti' : TensorInfo} (hdistinct : SlotsDistinct nLayers tensors)
    (hagree : NormTypesAgree nLayers tensors) (hti : ti ∈ tensors) (hti' : ti' ∈ tensors)
    (s : ModelWeights × ℕ) :
    mapTensorOf nLayers blob dataOffset (mapTensorOf nLayers blob dataOffset s ti) ti' =
      mapTensorOf nLayers blob dataOffset (mapTensorOf nLayers blob dataOffset s ti') ti := by
  unfold mapTensorOf
  cases hslot : weightSlot nLayers ti.name with
  | none => simp only
  | some slot =>
    cases hslot' : weightSlot nLayers ti'.name with
    | none => simp only
    | some slot' =>
      simp only
      by_cases heq : slot = slot'
      · subst heq
        rw [hdistinct.eq hti hti' hslot hslot']
      · rw [store_comm s.1 heq fun k hk hk' =>
          storedType_agree hdistinct hagree hti hti' hslot hslot' hk hk']

/-- The order does not matter where shared flags agree. -/
theorem mapAll_perm (hdistinct : SlotsDistinct nLayers tensors)
    (hagree : NormTypesAgree nLayers tensors) (hperm : tensors'.Perm tensors) :
    mapAll nLayers blob dataOffset tensors' = mapAll nLayers blob dataOffset tensors := by
  rw [mapAll_eq_foldl, mapAll_eq_foldl]
  exact (hperm.symm.foldl_eq' (fun ti hti ti' hti' s =>
    mapTensorOf_comm hdistinct hagree hti hti' s) _).symm

/-- What a tensor writes to a field. -/
def fieldHit (nLayers : ℤ) (k : TypeField) (ti : TensorInfo) : Option ℕ :=
  (weightSlot nLayers ti.name).bind fun slot =>
    if slot.typeField = some k then some (slot.storedType ti.type) else none

theorem mapAll_typeOf (tensors : List TensorInfo) (k : TypeField) :
    (mapAll nLayers blob dataOffset tensors).1.typeOf k =
      ((tensors.filterMap (fieldHit nLayers k)).getLast?).getD
        (({ nLayers := nLayers } : ModelWeights).typeOf k) := by
  rw [mapAll_eq_foldl]
  refine foldl_lastHit (fun s : ModelWeights × ℕ => s.1.typeOf k) (fun s ti _ => ?_) _
  unfold mapTensorOf fieldHit
  cases hslot : weightSlot nLayers ti.name with
  | none => rfl
  | some slot =>
    simp only [Option.bind_some, store_typeOf]
    cases hk : slot.typeField with
    | none => simp
    | some k' =>
      simp only [Option.map_some, Option.getD_some, Option.some.injEq]
      by_cases heq : k' = k
      · subst heq
        simp
      · rw [if_neg heq, Function.update_of_ne (Ne.symm heq)]
        rfl

theorem typeField_of_normFlag {mw : ModelWeights} {slot : WeightSlot} {flag : ℕ}
    (h : mw.normFlag slot = some flag) : ∃ k, slot.typeField = some k ∧ mw.typeOf k = flag ∧
      ∀ type, slot.storedType type = typeFlag type := by
  cases slot with
  | layer l slot =>
    cases slot with
    | rmsAttn | rmsFfn => exact ⟨.rms l, rfl, Option.some.inj h, fun _ => rfl⟩
    | qNorm | kNorm => exact ⟨.qkNorm l, rfl, Option.some.inj h, fun _ => rfl⟩
    | _ => cases h
  | _ => cases h

theorem tieOutput_normFlag (mw : ModelWeights) (slot : WeightSlot) :
    mw.tieOutput.normFlag slot = mw.normFlag slot := by
  unfold ModelWeights.tieOutput
  split_ifs
  · rfl
  · rfl

/-- The flags are right exactly where tensors that share one agree. -/
theorem normFlagsRight_iff (hdistinct : SlotsDistinct nLayers tensors) :
    NormFlagsRight nLayers tensors (mapAll nLayers blob dataOffset tensors).1.tieOutput ↔
      NormTypesAgree nLayers tensors := by
  constructor
  · intro hright ti hti ti' hti' l
    refine ⟨fun hslot hslot' => ?_, fun hslot hslot' => ?_⟩
    · rw [← typeFlag_eq_iff, ← hright ti hti _ _ hslot rfl, ← hright ti' hti' _ _ hslot' rfl]
    · rw [← typeFlag_eq_iff, ← hright ti hti _ _ hslot rfl, ← hright ti' hti' _ _ hslot' rfl]
  · intro hagree ti hti slot flag hslot hflag
    rw [tieOutput_normFlag] at hflag
    obtain ⟨k, hk, rfl, hstored⟩ := typeField_of_normFlag hflag
    have hhit : fieldHit nLayers k ti = some (slot.storedType ti.type) := by
      rw [fieldHit, hslot, Option.bind_some, if_pos hk]
    have hmem : slot.storedType ti.type ∈ tensors.filterMap (fieldHit nLayers k) :=
      List.mem_filterMap.mpr ⟨ti, hti, hhit⟩
    have hall : ∀ val ∈ tensors.filterMap (fieldHit nLayers k), val = slot.storedType ti.type := by
      intro val hval
      obtain ⟨ti', hti', hhit'⟩ := List.mem_filterMap.mp hval
      rw [fieldHit, Option.bind_eq_some_iff] at hhit'
      obtain ⟨slot', hslot', hval'⟩ := hhit'
      split_ifs at hval' with hk'
      rw [← Option.some.inj hval']
      exact storedType_agree hdistinct hagree hti' hti hslot' hslot hk' hk
    obtain ⟨val, hlast⟩ := Option.isSome_iff_exists.mp
      (List.getLast?_isSome.mpr (List.ne_nil_of_mem hmem))
    rw [mapAll_typeOf, hlast, Option.getD_some, hall val (List.mem_of_getLast? hlast), hstored]

end

/-! ### Files -/

theorem loadAndMapWeights_of_parsed {f : Stream} {maxTensors maxLayers blob : ℕ} {cfg : ModelConfig}
    {offset : ℤ} {tensors : List TensorInfo} {ok : Bool} {mw : ModelWeights}
    (hparse : (parseTensorInfos f maxTensors).1 = .returned offset tensors) (hoffset : 0 ≤ offset)
    (h : loadAndMapWeights f maxTensors maxLayers (some blob) cfg = .returned ok mw) :
    mw = (mapAll cfg.nLayers.toInt blob offset.toNat tensors).1.tieOutput := by
  unfold loadAndMapWeights at h
  rw [hparse] at h
  simp only at h
  split_ifs at h with hneg hlayers hmany
  · omega
  · exact (MapOutcome.returned.inj h).2.symm

/-- Two files with the same tensors in another order. -/
theorem loadAndMapWeights_perm {f f' : Stream} {maxTensors maxLayers blob : ℕ} {cfg : ModelConfig}
    {offset : ℤ} {tensors tensors' : List TensorInfo}
    (hparse : (parseTensorInfos f maxTensors).1 = .returned offset tensors)
    (hparse' : (parseTensorInfos f' maxTensors).1 = .returned offset tensors')
    (hmap : mapAll cfg.nLayers.toInt blob offset.toNat tensors' =
      mapAll cfg.nLayers.toInt blob offset.toNat tensors) :
    loadAndMapWeights f' maxTensors maxLayers (some blob) cfg =
      loadAndMapWeights f maxTensors maxLayers (some blob) cfg := by
  unfold mapAll at hmap
  unfold loadAndMapWeights
  rw [hparse, hparse']
  simp only [hmap]

/-- The two norms of a layer, of these types. -/
def layerNorms (attnType ffnType : UInt32) : Contents where
  version := 3
  pairs := []
  tensors := [⟨ascii "blk.0.attn_norm.weight", [1], attnType, 0⟩,
    ⟨ascii "blk.0.ffn_norm.weight", [1], ffnType, 32⟩]

/-- A file with room for both. -/
def layerNormsFile (attnType ffnType : UInt32) : List UInt8 :=
  (layerNorms attnType ffnType).encode ++ List.replicate 93 0

def oneLayer : ModelConfig := { nLayers := 1 }

theorem layerNorms_distinct (attnType ffnType : UInt32) :
    SlotsDistinct 1 ((layerNorms attnType ffnType).tensors.map TensorInfo.stored) := by
  have hattn : weightSlot 1 (TensorInfo.stored ⟨ascii "blk.0.attn_norm.weight", [1], 0, 0⟩).name =
      some (.layer 0 .rmsAttn) := by decide +kernel
  have hffn : weightSlot 1 (TensorInfo.stored ⟨ascii "blk.0.ffn_norm.weight", [1], 0, 32⟩).name =
      some (.layer 0 .rmsFfn) := by decide +kernel
  refine List.pairwise_pair.mpr fun slot hslot hslot' => ?_
  have hslots := Option.some.inj (hslot.symm.trans hattn)
  rw [hslots] at hslot'
  have hsame := Option.some.inj (hslot'.symm.trans hffn)
  revert hsame
  decide

end JLLM
