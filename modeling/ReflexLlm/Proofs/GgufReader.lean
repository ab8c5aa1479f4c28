import Mathlib.Data.List.TakeWhile
import ReflexLlm.Lib.Gguf
import ReflexLlm.Spec.GgufReader

/-! What `parse_tensor_infos` makes of an encoded file: it takes every pair and every
descriptor with exactly the bytes that a writer gives them. -/

namespace JLLM

open ByteStream Reader Gguf

variable {f : Stream}

/-! ### Pairs -/

theorem ggufScalarSize_code (t : ScalarType) : ggufScalarSize t.code = t.size := by
  cases t <;> rfl

theorem takes_skipString {s : List UInt8} (h : s.length < 0x10000000000000000) :
    Takes f (skipString f) (encodeString s) () 0 :=
  Takes.bind (takes_u64 _) (takes_seek (toNat_ofNat_length h))

/-- Loop iterations that skip a value. -/
def skipCost : Value → ℕ
  | .array (.strings elems) => elems.length
  | _ => 0

theorem takes_seek_scalar {t : ScalarType} (bytes : Scalar t) :
    Takes f (seek f (.ofNat t.size)) bytes.val () 0 := by
  refine takes_seek ?_
  rw [UInt64.toNat_ofNat_of_lt' (lt_of_le_of_lt t.size_le (by decide)), bytes.property]

/-- Skipping an array of scalars at once. -/
theorem takes_seek_scalars {t : ScalarType} {elems : List (Scalar t)}
    (hlen : (elems.flatMap Subtype.val).length < 0x8000000000000000) :
    Takes f (seek f (.ofNat elems.length * .ofNat t.size)) (elems.flatMap Subtype.val) () 0 := by
  have hbytes := scalars_length elems
  refine takes_seek ?_
  rw [UInt64.toNat_mul, UInt64.toNat_ofNat', UInt64.toNat_ofNat', hbytes, ← Nat.mul_mod]
  exact Nat.mod_eq_of_lt (by omega)

/-- Skipping an array of strings one by one. -/
theorem takes_skipStrings {elems : List (List UInt8)}
    (hlen : (elems.flatMap encodeString).length < 0x8000000000000000) :
    Takes f (loop (UInt64.ofNat elems.length).toNat (fun _ => skipString f) ())
      (elems.flatMap encodeString) () elems.length := by
  have hcount : 8 * elems.length ≤ (elems.flatMap encodeString).length :=
    flatMap_length_le fun s _ => by simp
  have hn : (UInt64.ofNat elems.length).toNat = elems.length := toNat_ofNat_length (by omega)
  have hstring : ∀ s ∈ elems, Takes f (skipString f) (encodeString s) () 0 := by
    intro s hs
    have hle := length_le_flatMap (g := encodeString) hs
    rw [encodeString_length] at hle
    exact takes_skipString (by omega)
  rw [hn]
  exact takes_loop_flat encodeString (fun _ _ => ()) (fun _ => hstring) ()

theorem takes_skipElements {a : Arr} (hflat : a.Flat)
    (hlen : a.encode.length < 0x8000000000000000) :
    ∃ code n bytes, a.encode = LittleEndian.u32 code ++ (LittleEndian.u64 n ++ bytes) ∧
      Takes f (skipElements f code n) bytes () (skipCost (.array a)) := by
  cases a with
  | scalars t elems =>
    refine ⟨t.code, .ofNat elems.length, elems.flatMap Subtype.val, by simp [Arr.encode], ?_⟩
    simp only [Arr.encode, List.length_append] at hlen
    unfold skipElements
    rw [ggufScalarSize_code, if_pos t.size_pos]
    exact takes_seek_scalars (by omega)
  | strings elems =>
    refine ⟨8, .ofNat elems.length, elems.flatMap encodeString, by simp [Arr.encode], ?_⟩
    simp only [Arr.encode, List.length_append] at hlen
    unfold skipElements
    rw [if_neg (by decide), if_pos rfl]
    exact takes_skipStrings (by omega)
  | arrays elems =>
    obtain rfl : elems = [] := hflat
    refine ⟨9, 0, [], by simp [Arr.encode, Arr.encodeAll], ?_⟩
    exact .pure ()

theorem takes_skipValue {v : Value} (hflat : v.Flat) (hlen : v.encode.length < 0x8000000000000000) :
    Takes f (skipValue f v.code) v.encode () (skipCost v) := by
  cases v with
  | scalar t bytes =>
    unfold skipValue Value.code
    rw [ggufScalarSize_code, if_pos t.size_pos]
    exact takes_seek_scalar bytes
  | string s =>
    simp only [Value.encode, encodeString_length] at hlen
    exact takes_skipString (by omega)
  | array a =>
    obtain ⟨code, n, bytes, hencode, htakes⟩ := takes_skipElements (f := f) hflat hlen
    have hall := Takes.bind (g := fun code => u64 f >>= skipElements f code) (takes_u32 code)
      ((takes_u64 n).bind htakes)
    rw [Value.encode, hencode]
    exact hall.of_eq rfl rfl (by omega)

theorem takes_skipKeyValue {kv : KeyValue} (hflat : kv.value.Flat)
    (hlen : kv.encode.length < 0x8000000000000000) :
    Takes f (skipKeyValue f) kv.encode () (skipCost kv.value) := by
  simp only [KeyValue.encode, List.length_append, encodeString_length] at hlen
  have hkey : Takes f (skipString f) (encodeString kv.key) () 0 := takes_skipString (by omega)
  have hvalue := takes_skipValue (f := f) hflat (by omega)
  have hall := Takes.bind (g := fun _ => u32 f >>= skipValue f) hkey
    ((takes_u32 kv.value.code).bind hvalue)
  exact hall.of_eq rfl rfl (by omega)

/-! ### Descriptors -/

/-- The descriptor of a tensor, with one for the dimensions that are missing. -/
def TensorInfo.ofTensor (t : Tensor) : TensorInfo where
  name := t.name
  nDims := .ofNat t.dims.length
  shape := (List.range 4).map fun d => (t.dims.map UInt64.toInt64).getD d 1
  type := t.type
  offset := t.offset
  shape_length := by simp

/-- What the parser stores of it: the string in the first 255 bytes of the name. -/
def TensorInfo.stored (t : Tensor) : TensorInfo :=
  { TensorInfo.ofTensor t with name := (t.name.take 255).takeWhile (· ≠ 0) }

/-- A tensor that `TensorInfo` can hold. -/
structure Storable (t : Tensor) : Prop where
  nul_free : (0 : UInt8) ∉ t.name
  name_length : t.name.length ≤ 255
  dims_length : t.dims.length ≤ 4

theorem Storable.stored_eq {t : Tensor} (h : Storable t) :
    TensorInfo.stored t = TensorInfo.ofTensor t := by
  have hself : t.name.takeWhile (· ≠ 0) = t.name := by
    refine List.takeWhile_eq_self_iff.mpr fun b hb => ?_
    have hne : b ≠ 0 := fun h0 => h.nul_free (h0 ▸ hb)
    simpa using hne
  unfold TensorInfo.stored
  rw [List.take_of_length_le h.name_length, hself]
  rfl

theorem takes_dims (dims : List UInt64) :
    Takes f (loop dims.length (fun dims => do
      let d ← u64 f
      return dims ++ [d.toInt64]) []) (dims.flatMap LittleEndian.u64) (dims.map UInt64.toInt64)
      dims.length := by
  have hbody : ∀ s : List Int64, ∀ d ∈ dims, Takes f (do
      let d ← u64 f
      return s ++ [d.toInt64]) (LittleEndian.u64 d) (s ++ [d.toInt64]) 0 :=
    fun s d _ => (takes_u64 d).last (.pure _)
  have hloop := takes_loop_flat LittleEndian.u64 (fun s d => s ++ [d.toInt64]) hbody []
  exact hloop.of_eq rfl (foldl_snoc _ _ _) rfl

theorem takes_readName {name : List UInt8} (hlen : name.length < 0x8000000000000000) :
    Takes f (readName f (.ofNat name.length)) name ((name.take 255).takeWhile (· ≠ 0)) 0 := by
  have hn : (UInt64.ofNat name.length).toNat = name.length := toNat_ofNat_length (by omega)
  have hread : Takes f (zeroed f (min name.length 255)) (name.take 255) (name.take 255) 0 :=
    takes_zeroed (by rw [List.length_take, min_comm])
  have hskip : Takes f (skipLongName f (.ofNat name.length)) (name.drop 255) () 0 := by
    unfold skipLongName
    rw [hn]
    split_ifs with hlong
    · refine takes_seek ?_
      have hle : (255 : UInt64) ≤ .ofNat name.length := by
        rw [UInt64.le_iff_toNat_le, hn]
        exact hlong.le
      rw [UInt64.toNat_sub_of_le _ _ hle, hn, List.length_drop]
      rfl
    · rw [List.drop_eq_nil_of_le (by omega)]
      exact .pure ()
  unfold readName
  rw [hn]
  refine (hread.next (hskip.last ?_)).of_eq (List.take_append_drop 255 name) rfl rfl
  exact .pure _

theorem takes_readTensorInfo {t : Tensor} (hle : t.dims.length ≤ 4)
    (hlen : t.encode.length < 0x8000000000000000) :
    Takes f (readTensorInfo f) t.encode (some (.stored t)) t.dims.length := by
  simp only [Tensor.encode, List.length_append, encodeString_length] at hlen
  have hn : (UInt32.ofNat t.dims.length).toNat = t.dims.length := by
    rw [UInt32.toNat_ofNat']
    exact Nat.mod_eq_of_lt (by omega)
  have hdims : Takes f (loop (UInt32.ofNat t.dims.length).toNat (fun dims => do
      let d ← u64 f
      return dims ++ [d.toInt64]) []) (t.dims.flatMap LittleEndian.u64)
      (t.dims.map UInt64.toInt64) t.dims.length := by
    rw [hn]
    exact takes_dims t.dims
  have hshape : Takes f
      (readShape f ((t.name.take 255).takeWhile (· ≠ 0)) (.ofNat t.dims.length))
      (t.dims.flatMap LittleEndian.u64 ++ (LittleEndian.u32 t.type ++ LittleEndian.u64 t.offset))
      (some (.stored t)) (t.dims.length + 0) := by
    unfold readShape
    refine hdims.bind ((takes_u32 _).next ((takes_u64 _).last ?_))
    exact .pure (some (TensorInfo.stored t))
  have hname : Takes f (readName f (.ofNat t.name.length)) t.name
      ((t.name.take 255).takeWhile (· ≠ 0)) 0 := takes_readName (by omega)
  unfold readTensorInfo Tensor.encode encodeString
  rw [List.append_assoc]
  refine (takes_u64 _).next (hname.next ((takes_u32 _).next ?_))
  rw [hn, if_neg (by omega)]
  exact hshape

theorem takes_readTensorInfos {ts : List Tensor} (h : ∀ t ∈ ts, t.dims.length ≤ 4)
    (hlen : (ts.flatMap Tensor.encode).length < 0x8000000000000000) :
    Takes f (readTensorInfos f ts.length) (ts.flatMap Tensor.encode)
      (some (ts.map TensorInfo.stored)) (ts.length + (ts.map fun t => t.dims.length).sum) := by
  induction ts with
  | nil => exact .pure (some [])
  | cons t ts ih =>
    rw [List.flatMap_cons, List.length_append] at hlen
    have hfirst := takes_readTensorInfo (f := f) (h t List.mem_cons_self) (by omega)
    have hrest := ih (fun t ht => h t (List.mem_cons_of_mem _ ht)) (by omega)
    have hall : Takes f (readTensorInfos f (ts.length + 1))
        (t.encode ++ ts.flatMap Tensor.encode) (some ((t :: ts).map TensorInfo.stored))
        (1 + (t.dims.length + (ts.length + (ts.map fun t => t.dims.length).sum))) := by
      unfold readTensorInfos
      refine Takes.bind (a := []) takes_tick (hfirst.bind (hrest.last ?_))
      exact .pure _
    refine hall.of_eq rfl rfl ?_
    rw [List.length_cons, List.map_cons, List.sum_cons]
    omega

/-! ### Files -/

/-- Loop iterations over the metadata and the descriptors. -/
def parseCost (c : Contents) : ℕ :=
  (c.pairs.length + (c.pairs.map fun kv => skipCost kv.value).sum) +
    (c.tensors.length + (c.tensors.map fun t => t.dims.length).sum)

/-- Contents that the parser takes whole: no arrays of arrays, at most four dimensions. -/
structure Parsable (c : Contents) : Prop where
  flat : ∀ kv ∈ c.pairs, kv.value.Flat
  dims : ∀ t ∈ c.tensors, t.dims.length ≤ 4

theorem count_toNat {α : Type} {g : α → List UInt8} {xs : List α}
    (h : ∀ x ∈ xs, 1 ≤ (g x).length) (hlen : (xs.flatMap g).length < 0x8000000000000000) :
    (UInt64.ofNat xs.length).toNat = xs.length := by
  have hle := flatMap_length_le h
  exact toNat_ofNat_length (by omega)

theorem takes_pairs {pairs : List KeyValue} (hflat : ∀ kv ∈ pairs, kv.value.Flat)
    (hlen : (pairs.flatMap KeyValue.encode).length < 0x8000000000000000) :
    Takes f (loop pairs.length (fun _ => skipKeyValue f) ()) (pairs.flatMap KeyValue.encode) ()
      (pairs.length + (pairs.map fun kv => skipCost kv.value).sum) := by
  refine takes_loop KeyValue.encode (fun _ _ => ()) (fun kv => skipCost kv.value) ?_ ()
  intro _ kv hkv
  have hle := length_le_flatMap (g := KeyValue.encode) hkv
  exact takes_skipKeyValue (hflat kv hkv) (by omega)

theorem counts_toNat {c : Contents} (hlen : c.encode.length < 0x8000000000000000) :
    (UInt64.ofNat c.pairs.length).toNat = c.pairs.length ∧
      (UInt64.ofNat c.tensors.length).toNat = c.tensors.length := by
  simp only [Contents.encode, List.length_append] at hlen
  constructor
  · exact count_toNat (g := KeyValue.encode) (fun kv _ => by simp [KeyValue.encode]; omega)
      (by omega)
  · exact count_toNat (g := Tensor.encode) (fun t _ => by simp [Tensor.encode]; omega) (by omega)

/-- The parser takes exactly the contents, and answers with the descriptors. -/
theorem takes_readInfos {c : Contents} {maxTensors : ℕ} (hc : Parsable c)
    (hlen : c.encode.length < 0x8000000000000000) (hmem : c.tensors.length ≤ maxTensors) :
    Takes f (readInfos f maxTensors) c.encode (some (some (c.tensors.map TensorInfo.stored)))
      (parseCost c) := by
  obtain ⟨hpairs, htensors⟩ := counts_toNat hlen
  simp only [Contents.encode, List.length_append] at hlen
  unfold readInfos Contents.encode Contents.header parseCost
  simp only [List.append_assoc]
  refine (takes_u32 _).next ((takes_u32 _).next ((takes_u64 _).next ((takes_u64 _).next ?_)))
  rw [hpairs, htensors, if_neg (by omega)]
  refine (takes_pairs hc.flat (by omega)).bind ?_
  exact (takes_readTensorInfos hc.dims (by omega)).last (.pure _)

/-- Without memory for the descriptors it has taken what stands in front of them. -/
theorem takes_readInfos_threw {c : Contents} {maxTensors : ℕ} (hc : Parsable c)
    (hlen : c.encode.length < 0x8000000000000000) (hmem : maxTensors < c.tensors.length) :
    Takes f (readInfos f maxTensors) (c.header ++ c.pairs.flatMap KeyValue.encode) none
      (c.pairs.length + (c.pairs.map fun kv => skipCost kv.value).sum) := by
  obtain ⟨hpairs, htensors⟩ := counts_toNat hlen
  simp only [Contents.encode, List.length_append] at hlen
  unfold readInfos Contents.header
  simp only [List.append_assoc]
  refine (takes_u32 _).next ((takes_u32 _).next ((takes_u64 _).next ((takes_u64 _).next ?_)))
  rw [hpairs, htensors, if_pos hmem]
  exact (takes_pairs hc.flat (by omega)).last (.pure none)

theorem encode_lt {c : Contents} {rest : List UInt8} (h : f.bytes = c.encode ++ rest) :
    c.encode.length < 0x8000000000000000 := by
  have hfits := f.fits
  have hoffsets := f.offsets
  rw [h, List.length_append] at hfits
  omega

/-- Parsing what a writer encodes gives back the descriptors, and the position behind them
rounded up to a multiple of 32. -/
theorem parseTensorInfos_encode (f : Stream) (maxTensors : ℕ) (c : Contents) (rest : List UInt8)
    (hfile : f.bytes = c.encode ++ rest) (hflat : ∀ kv ∈ c.pairs, kv.value.Flat)
    (hstorable : ∀ t ∈ c.tensors, Storable t) (hmem : c.tensors.length ≤ maxTensors) :
    (parseTensorInfos f maxTensors).1 =
      .returned (((c.encode.length + 31) / 32 * 32 : ℕ) : ℤ)
        (c.tensors.map TensorInfo.ofTensor) := by
  have hdims : ∀ t ∈ c.tensors, t.dims.length ≤ 4 := fun t ht => (hstorable t ht).dims_length
  have hstored : c.tensors.map TensorInfo.stored = c.tensors.map TensorInfo.ofTensor :=
    List.map_congr_left fun t ht => (hstorable t ht).stored_eq
  obtain ⟨reads, hrun⟩ := takes_readInfos ⟨hflat, hdims⟩ (encode_lt hfile) hmem .start rest hfile
  unfold parseTensorInfos
  simp only [hrun]
  simp only [hstored, Cursor.start, Nat.zero_add, Nat.add_succ_sub_one]

/-- Values of a fixed width, strings and arrays of both, in front of two tensors. -/
def sampleContents : Contents where
  version := 3
  pairs :=
    [⟨[0x61], .scalar .uint32 ⟨[2, 0, 0, 0], rfl⟩⟩, ⟨[0x62], .scalar .bool ⟨[1], rfl⟩⟩,
      ⟨[0x63], .string [0x78, 0x79]⟩, ⟨[0x64], .array (.strings [[], [0x7A]])⟩,
      ⟨[], .array (.scalars .int16 [⟨[1, 0], rfl⟩, ⟨[2, 0], rfl⟩])⟩]
  tensors := [⟨[0x77], [4, 2], 12, 0⟩, ⟨[0x6E], [], 0, 32⟩]

theorem parseTensorInfos_encode_sample :
    (parseTensorInfos (.full sampleContents.encode (by decide +kernel)) 2).1 =
      .returned (((sampleContents.encode.length + 31) / 32 * 32 : ℕ) : ℤ)
        (sampleContents.tensors.map TensorInfo.ofTensor) :=
  parseTensorInfos_encode _ 2 sampleContents [] (List.append_nil _).symm
    (by simp [sampleContents, Value.Flat, Arr.Flat])
    (by
      simp only [sampleContents, List.forall_mem_cons]
      exact ⟨⟨by decide, by decide, by decide⟩, ⟨by decide, by decide, by decide⟩, by simp⟩)
    (by decide)

/-! ### Files that are not whole -/

/-- A complete prefix of a GGUF file: header, pairs and descriptors, of values that have a
size in the table of types. -/
def IsGgufPrefix (bytes : List UInt8) : Prop :=
  ∃ c rest, Parsable c ∧ bytes = c.encode ++ rest

/-- Stores stay in `shape` and `name`, all values come from the file, and the loops are no
longer than it. -/
structure ParseSafe (f : Stream) (run : ParseOutcome × Cursor) : Prop where
  shape : run.1 ≠ .undefined
  name : ∀ offset tensors, run.1 = .returned offset tensors → ∀ ti ∈ tensors, ti.name.length ≤ 255
  read : run.2.short = false
  iterations : run.2.steps ≤ f.bytes.length

/-- What is not a complete prefix is answered with a negative number; in every case the
parse is safe. -/
def RejectsIncomplete (f : Stream) (maxTensors : ℕ) : Prop :=
  (¬ IsGgufPrefix f.bytes →
    ∃ offset tensors, (parseTensorInfos f maxTensors).1 = .returned offset tensors ∧ offset < 0) ∧
    ParseSafe f (parseTensorInfos f maxTensors)

theorem skipCost_le (kv : KeyValue) : skipCost kv.value + 1 ≤ kv.encode.length := by
  have hkv : kv.encode.length = 8 + kv.key.length + (4 + kv.value.encode.length) := by
    simp [KeyValue.encode]
  unfold skipCost
  split
  · next elems hvalue =>
    have hcount : 8 * elems.length ≤ (elems.flatMap encodeString).length :=
      flatMap_length_le fun s _ => by simp
    rw [hkv, hvalue]
    simp only [Value.encode, Arr.encode, List.length_append]
    omega
  · omega

theorem sum_cost_le {α : Type} {cost : α → ℕ} {g : α → List UInt8} (xs : List α)
    (h : ∀ x ∈ xs, cost x + 1 ≤ (g x).length) :
    xs.length + (xs.map cost).sum ≤ (xs.flatMap g).length := by
  induction xs with
  | nil => simp
  | cons x xs ih =>
    have hx := h x List.mem_cons_self
    have hxs := ih fun y hy => h y (List.mem_cons_of_mem _ hy)
    rw [List.length_cons, List.map_cons, List.sum_cons, List.flatMap_cons, List.length_append]
    omega

theorem tensorCost_le (t : Tensor) : t.dims.length + 1 ≤ t.encode.length := by
  have hdims : 8 * t.dims.length ≤ (t.dims.flatMap LittleEndian.u64).length :=
    flatMap_length_le fun d _ => by simp
  simp only [Tensor.encode, List.length_append, encodeString_length, LittleEndian.u32_length,
    LittleEndian.u64_length]
  omega

theorem stored_name_length (t : Tensor) : (TensorInfo.stored t).name.length ≤ 255 := by
  have htake : (t.name.take 255).length ≤ 255 := List.length_take_le _ _
  exact le_trans (List.takeWhile_sublist _).length_le htake

theorem parseSafe_of_isGgufPrefix {maxTensors : ℕ} (h : IsGgufPrefix f.bytes) :
    ParseSafe f (parseTensorInfos f maxTensors) := by
  obtain ⟨c, rest, hc, hfile⟩ := h
  have hpairs := sum_cost_le c.pairs fun kv _ => skipCost_le kv
  have htensors := sum_cost_le c.tensors fun t _ => tensorCost_le t
  have hlen : f.bytes.length = c.header.length + ((c.pairs.flatMap KeyValue.encode).length +
      (c.tensors.flatMap Tensor.encode).length) + rest.length := by
    simp only [hfile, Contents.encode, List.length_append]
  unfold parseTensorInfos
  rcases le_or_gt c.tensors.length maxTensors with hmem | hmem
  · obtain ⟨reads, hrun⟩ := takes_readInfos hc (encode_lt hfile) hmem .start rest hfile
    simp only [hrun]
    refine ⟨by simp, ?_, rfl, ?_⟩
    · rintro offset tensors heq ti hti
      cases heq
      obtain ⟨t, -, rfl⟩ := List.mem_map.mp hti
      exact stored_name_length t
    · simp only [Cursor.start, parseCost]
      omega
  · have hsplit : f.bytes = (c.header ++ c.pairs.flatMap KeyValue.encode) ++
        (c.tensors.flatMap Tensor.encode ++ rest) := by
      simp only [hfile, Contents.encode, List.append_assoc]
    obtain ⟨reads, hrun⟩ := takes_readInfos_threw hc (encode_lt hfile) hmem .start _ hsplit
    simp only [hrun]
    refine ⟨by simp, by simp, rfl, ?_⟩
    simp only [Cursor.start]
    omega

theorem returned_nonneg {maxTensors : ℕ} {offset : ℤ} {tensors : List TensorInfo}
    (h : (parseTensorInfos f maxTensors).1 = .returned offset tensors) : 0 ≤ offset := by
  unfold parseTensorInfos at h
  simp only at h
  split at h
  · cases h
  · cases h
  · cases h
    exact Int.natCast_nonneg _

end JLLM
