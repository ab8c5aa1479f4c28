import ReflexLlm.Proofs.GgufConfig
import ReflexLlm.Spec.WeightMap

/-! Where `load_and_map_weights` points. It neither looks for `general.alignment` nor compares
anything with the size of the file, so its pointers are right exactly for files that are laid
out in steps of 32 bytes and hold all of the tensors that it maps. -/

namespace JLLM

open ByteStream Reader Gguf LittleEndian

/-! ### What the pointers should be -/

/-- The number in a value of an integer type. -/
def asInteger : Value → Option ℕ
  | .scalar .float32 _ => none
  | .scalar .float64 _ => none
  | .scalar .bool _ => none
  | .scalar _ bytes => some (decode bytes.val)
  | _ => none

def roundUp (n alignment : ℕ) : ℕ := (n + alignment - 1) / alignment * alignment

/-- `general.alignment`. -/
def alignmentOf (c : Contents) : ℕ :=
  ((valueOf c (ascii "general.alignment")).bind asInteger).getD 32

/-- Where the tensor data begins. -/
def dataStart (c : Contents) : ℕ := roundUp c.encode.length (alignmentOf c)

/-- The last tensor with a name that stands for the pointer. -/
def lastFor (nLayers : ℤ) (tensors : List TensorInfo) (slot : WeightSlot) : Option TensorInfo :=
  (tensors.filter fun ti => weightSlot nLayers ti.name = some slot).getLast?

/-- The bytes of a tensor. -/
def sizeOf (ti : TensorInfo) : ℕ :=
  (tensorBytes ti.type ((ti.shape.map Int64.toInt).foldl (· * ·) 1)).toNat

/-- All tensors that are mapped lie inside a file of `size` bytes. -/
def TensorsInside (nLayers : ℤ) (c : Contents) (size : ℕ) : Prop :=
  ∀ slot ti, lastFor nLayers (c.tensors.map TensorInfo.stored) slot = some ti →
    dataStart c + ti.offset.toNat + sizeOf ti ≤ size

/-- The file is a complete prefix, each pointer that is mapped is the address of its tensor,
and its tensor lies inside the mapped file. -/
def DesignatesTensors (bytes : List UInt8) (blob : ℕ) (nLayers : ℤ) (mw : ModelWeights) : Prop :=
  ∃ c rest, Parsable c ∧ bytes = c.encode ++ rest ∧
    (∀ slot ti, lastFor nLayers (c.tensors.map TensorInfo.stored) slot = some ti →
      mw.ptr slot = blob + dataStart c + ti.offset.toNat) ∧ TensorsInside nLayers c bytes.length

/-- The file is a complete prefix whose alignment gives the data the start that 32 gives it,
and it holds the tensors that are mapped. -/
def LaidOut (bytes : List UInt8) (nLayers : ℤ) : Prop :=
  ∃ c rest, Parsable c ∧ bytes = c.encode ++ rest ∧
    roundUp c.encode.length 32 = dataStart c ∧ TensorsInside nLayers c bytes.length

/-! ### The loop over the tensors -/

section

variable {nLayers : ℤ} {blob dataOffset : ℕ}

theorem store_ptr (mw : ModelWeights) (slot : WeightSlot) (ptr : ℕ) (type : UInt32) :
    (mw.store slot ptr type).ptr = Function.update mw.ptr slot ptr := by
  cases slot with
  | layer l slot => cases slot <;> rfl
  | tokEmbd => rfl
  | outputNorm => rfl
  | output => rfl

theorem store_nLayers (mw : ModelWeights) (slot : WeightSlot) (ptr : ℕ) (type : UInt32) :
    (mw.store slot ptr type).nLayers = mw.nLayers := by
  cases slot with
  | layer l slot => cases slot <;> rfl
  | tokEmbd => rfl
  | outputNorm => rfl
  | output => rfl

theorem mapTensor_nLayers (s : ModelWeights × ℕ) (ti : TensorInfo) :
    (mapTensor blob dataOffset s ti).1.nLayers = s.1.nLayers := by
  unfold mapTensor
  split
  · exact store_nLayers _ _ _ _
  · rfl

/-- The loop from weights without pointers. -/
def mapAll (nLayers : ℤ) (blob dataOffset : ℕ) (tensors : List TensorInfo) : ModelWeights × ℕ :=
  tensors.foldl (mapTensor blob dataOffset) (({ nLayers := nLayers } : ModelWeights), 0)

theorem mapAll_concat (tensors : List TensorInfo) (ti : TensorInfo) :
    mapAll nLayers blob dataOffset (tensors ++ [ti]) =
      mapTensor blob dataOffset (mapAll nLayers blob dataOffset tensors) ti := by
  rw [mapAll, List.foldl_append, List.foldl_cons, List.foldl_nil, ← mapAll]

theorem mapAll_nLayers (tensors : List TensorInfo) :
    (mapAll nLayers blob dataOffset tensors).1.nLayers = nLayers := by
  induction tensors using List.reverseRecOn with
  | nil => rfl
  | append_singleton tensors ti ih => rw [mapAll_concat, mapTensor_nLayers, ih]

theorem lastFor_concat_of_eq {tensors : List TensorInfo} {ti : TensorInfo} {slot : WeightSlot}
    (h : weightSlot nLayers ti.name = some slot) :
    lastFor nLayers (tensors ++ [ti]) slot = some ti := by
  have hself : [ti].filter (fun ti => weightSlot nLayers ti.name = some slot) = [ti] := by simp [h]
  rw [lastFor, List.filter_append, hself, List.getLast?_concat]

theorem lastFor_concat_of_ne {tensors : List TensorInfo} {ti : TensorInfo} {slot : WeightSlot}
    (h : weightSlot nLayers ti.name ≠ some slot) :
    lastFor nLayers (tensors ++ [ti]) slot = lastFor nLayers tensors slot := by
  have hself : [ti].filter (fun ti => weightSlot nLayers ti.name = some slot) = [] := by simp [h]
  rw [lastFor, List.filter_append, hself, List.append_nil, lastFor]

/-- A pointer is that of the last tensor for it. -/
theorem mapAll_ptr (tensors : List TensorInfo) (slot : WeightSlot) :
    (mapAll nLayers blob dataOffset tensors).1.ptr slot =
      ((lastFor nLayers tensors slot).map (tensorPtr blob dataOffset)).getD 0 := by
  induction tensors using List.reverseRecOn with
  | nil => rfl
  | append_singleton tensors ti ih =>
    rw [mapAll_concat, mapTensor, mapAll_nLayers]
    by_cases hslot : weightSlot nLayers ti.name = some slot
    · rw [lastFor_concat_of_eq hslot]
      simp only [hslot, store_ptr, Function.update_self, Option.map_some, Option.getD_some]
    · rw [lastFor_concat_of_ne hslot, ← ih]
      cases hother : weightSlot nLayers ti.name with
      | none => rfl
      | some other =>
        have hne : slot ≠ other := by
          rintro rfl
          exact hslot hother
        simp only [store_ptr, Function.update_of_ne hne]

/-- If something was mapped, there is a tensor for a pointer. -/
theorem mapAll_count {tensors : List TensorInfo}
    (h : 0 < (mapAll nLayers blob dataOffset tensors).2) :
    ∃ slot ti, lastFor nLayers tensors slot = some ti := by
  induction tensors using List.reverseRecOn with
  | nil => exact absurd h (lt_irrefl 0)
  | append_singleton tensors ti ih =>
    rw [mapAll_concat, mapTensor, mapAll_nLayers] at h
    cases hslot : weightSlot nLayers ti.name with
    | some slot => exact ⟨slot, ti, lastFor_concat_of_eq hslot⟩
    | none =>
      rw [hslot] at h
      obtain ⟨slot, ti', hlast⟩ := ih h
      refine ⟨slot, ti', ?_⟩
      rw [lastFor_concat_of_ne (by simp [hslot]), hlast]

theorem tieOutput_ptr (mw : ModelWeights) (slot : WeightSlot) : mw.tieOutput.ptr slot =
    if slot = .output ∧ mw.ptr .output = 0 ∧ mw.ptr .tokEmbd ≠ 0 then mw.ptr .tokEmbd
    else mw.ptr slot := by
  unfold ModelWeights.tieOutput
  by_cases htied : mw.ptr .output = 0 ∧ mw.ptr .tokEmbd ≠ 0
  · rw [if_pos htied]
    by_cases hslot : slot = .output
    · rw [if_pos ⟨hslot, htied⟩, hslot]
      simp only [Function.update_self]
    · rw [if_neg fun h => hslot h.1]
      simp only [Function.update_of_ne hslot]
  · rw [if_neg htied, if_neg fun h => htied h.2]

end

/-! ### Files -/

variable {f : Stream} {maxTensors maxLayers blob : ℕ} {cfg : ModelConfig} {mw : ModelWeights}

/-- A complete prefix that is mapped with success is parsed whole. -/
theorem parsed_of_returned {c : Contents} {rest : List UInt8} (hc : Parsable c)
    (hfile : f.bytes = c.encode ++ rest)
    (h : loadAndMapWeights f maxTensors maxLayers (some blob) cfg = .returned true mw) :
    (parseTensorInfos f maxTensors).1 =
      .returned (roundUp c.encode.length 32 : ℕ) (c.tensors.map TensorInfo.stored) := by
  have hlen := encode_lt hfile
  by_cases hmem : c.tensors.length ≤ maxTensors
  · obtain ⟨reads, hrun⟩ := takes_readInfos hc hlen hmem .start rest hfile
    unfold parseTensorInfos
    simp only [hrun]
    simp only [Cursor.start, Nat.zero_add, roundUp]
  · obtain ⟨reads, hrun⟩ := takes_readInfos_threw hc hlen (Nat.not_le.mp hmem) .start
      (c.tensors.flatMap Tensor.encode ++ rest)
      (by rw [Cursor.start, List.drop_zero, hfile, Contents.encode]; simp only [List.append_assoc])
    have hparse : (parseTensorInfos f maxTensors).1 = .threw := by
      unfold parseTensorInfos
      simp only [hrun]
    unfold loadAndMapWeights at h
    rw [hparse] at h
    cases h

theorem loadAndMapWeights_parsed {c : Contents} {rest : List UInt8} (hc : Parsable c)
    (hfile : f.bytes = c.encode ++ rest)
    (h : loadAndMapWeights f maxTensors maxLayers (some blob) cfg = .returned true mw) :
    mw = (mapAll cfg.nLayers.toInt blob (roundUp c.encode.length 32)
        (c.tensors.map TensorInfo.stored)).1.tieOutput ∧
      0 < (mapAll cfg.nLayers.toInt blob (roundUp c.encode.length 32)
        (c.tensors.map TensorInfo.stored)).2 := by
  have hparse := parsed_of_returned hc hfile h
  unfold loadAndMapWeights at h
  rw [hparse] at h
  simp only [Int.toNat_natCast] at h
  split_ifs at h with hneg hlayers hmany
  · omega
  · obtain ⟨hok, rfl⟩ := MapOutcome.returned.inj h
    exact ⟨rfl, of_decide_eq_true hok⟩

theorem roundUp_lt {n : ℕ} (h : n < 0x8000000000000000) : roundUp n 32 < 0x10000000000000000 := by
  unfold roundUp
  omega

/-- The code's pointer is the address behind another start of the data only if the starts
agree. -/
theorem tensorPtr_eq_iff {start start' size : ℕ} {ti : TensorInfo}
    (hstart : start < 0x10000000000000000) (hinside : start' + ti.offset.toNat ≤ size)
    (hspace : blob + size < 0x10000000000000000) :
    tensorPtr blob start ti = blob + start' + ti.offset.toNat ↔ start = start' := by
  unfold tensorPtr
  constructor
  · intro h
    omega
  · rintro rfl
    exact Nat.mod_eq_of_lt (by omega)

theorem le_roundUp (n : ℕ) : n ≤ roundUp n 32 := by
  unfold roundUp
  omega

theorem mapAll_ptr_of_last {nLayers : ℤ} {start : ℕ} {tensors : List TensorInfo} {slot : WeightSlot}
    {ti : TensorInfo} (h : lastFor nLayers tensors slot = some ti) :
    (mapAll nLayers blob start tensors).1.ptr slot = tensorPtr blob start ti := by
  rw [mapAll_ptr, h, Option.map_some, Option.getD_some]

/-- Of the pointers that are right, one has not been tied. -/
theorem exists_tensorPtr {nLayers : ℤ} {start start' : ℕ} {tensors : List TensorInfo}
    (hcount : 0 < (mapAll nLayers blob start tensors).2)
    (hptrs : ∀ slot ti, lastFor nLayers tensors slot = some ti →
      (mapAll nLayers blob start tensors).1.tieOutput.ptr slot =
        blob + start' + ti.offset.toNat) :
    ∃ slot ti, lastFor nLayers tensors slot = some ti ∧
      tensorPtr blob start ti = blob + start' + ti.offset.toNat := by
  obtain ⟨slot, ti, hlast⟩ := mapAll_count hcount
  have hptr := hptrs slot ti hlast
  rw [tieOutput_ptr] at hptr
  split_ifs at hptr with htied
  · obtain ⟨-, -, htok⟩ := htied
    cases htok' : lastFor nLayers tensors .tokEmbd with
    | none =>
      rw [mapAll_ptr, htok'] at htok
      exact absurd rfl htok
    | some ti' =>
      have hptr' := hptrs .tokEmbd ti' htok'
      rw [tieOutput_ptr, if_neg fun hslot => absurd hslot.1 (by decide),
        mapAll_ptr_of_last htok'] at hptr'
      exact ⟨.tokEmbd, ti', htok', hptr'⟩
  · rw [mapAll_ptr_of_last hlast] at hptr
    exact ⟨slot, ti, hlast, hptr⟩

def MapOutcome.succeeded : MapOutcome → Bool
  | .returned ok _ => ok
  | _ => false

theorem exists_returned {o : MapOutcome} (h : o.succeeded = true) : ∃ mw, o = .returned true mw := by
  cases o with
  | returned ok mw =>
    obtain rfl : ok = true := h
    exact ⟨mw, rfl⟩
  | undefined => cases h
  | threw => cases h

/-- An output projection of two numbers. -/
def twoWeights : Contents where
  version := 3
  pairs := []
  tensors := [⟨ascii "output.weight", [2], 0, 0⟩]

/-- The file with the data, or without. -/
def twoWeightsFile (data : List UInt8) : List UInt8 :=
  twoWeights.encode ++ (List.replicate 27 0 ++ data)

theorem laidOut_twoWeights : LaidOut (twoWeightsFile (List.replicate 8 1)) 0 := by
  refine ⟨twoWeights, _, ⟨by simp [twoWeights], by simp [twoWeights]⟩, rfl, by decide +kernel, ?_⟩
  intro slot ti hlast
  have hmem : ti ∈ twoWeights.tensors.map TensorInfo.stored :=
    List.mem_of_mem_filter (List.mem_of_getLast? hlast)
  obtain rfl : ti = TensorInfo.stored ⟨ascii "output.weight", [2], 0, 0⟩ := by
    simpa [twoWeights] using hmem
  decide +kernel

end JLLM
