import ReflexLlm.Lib.LastHit
import ReflexLlm.Proofs.GgufReader
import ReflexLlm.Spec.GgufConfig

/-! What `load_gguf_config` makes of an encoded file. While the pairs are skipped by their
true lengths, a field gets the last value whose key has its substring. -/

namespace JLLM

open ByteStream Reader Gguf LastHit LittleEndian

variable {f : Stream}

/-! ### Pairs -/

/-- The value is read, or as wide as the guess. -/
def ReadExactly : Value → Prop
  | .scalar t _ => t = .uint32 ∨ t = .float32 ∨ t.size = 8
  | .string _ => True
  | .array _ => False

/-- The value of the pair is passed over with its own length; behind a key that is too long
that is so for all values but nested arrays. -/
def PassedExactly (kv : KeyValue) : Prop :=
  if 255 < kv.key.length then kv.value.Flat else ReadExactly kv.value

/-- The string of a pair. -/
def stringStep (cfg : ModelConfig) (key s : List UInt8) : ModelConfig :=
  if hasSubstring key "general.name" && s.length < 256 then { cfg with name := bufferString s }
  else if hasSubstring key "general.architecture" then { cfg with ropeNeox := isNeox s }
  else cfg

/-- What a value does to the configuration. -/
def valueStep (cfg : ModelConfig) (key : List UInt8) : Value → ModelConfig
  | .scalar .uint32 bytes => setU32 cfg key (toU32 bytes.val)
  | .scalar .float32 bytes => setF32 cfg key (toU32 bytes.val)
  | .string s => stringStep cfg key s
  | _ => cfg

/-- What a pair does to the configuration. -/
def configStep (cfg : ModelConfig) (kv : KeyValue) : ModelConfig :=
  if 255 < kv.key.length then cfg else valueStep cfg (bufferString kv.key) kv.value

theorem takes_readConfigString {cfg : ModelConfig} {key s : List UInt8}
    (hlen : s.length < 0x8000000000000000) :
    Takes f (readConfigString f cfg key) (encodeString s) (stringStep cfg key s) 0 := by
  have hn : (UInt64.ofNat s.length).toNat = s.length := toNat_ofNat_length (by omega)
  unfold readConfigString stringStep encodeString
  refine (takes_u64 _).next ?_
  rw [hn]
  split_ifs
  · exact (takes_zeroed rfl).last (.pure _)
  · exact (takes_zeroed rfl).last (.pure _)
  · exact (takes_seek hn).last (.pure _)

theorem takes_word {t : ScalarType} (bytes : Scalar t) (h : t.size = 4) :
    Takes f (u32 f) bytes.val (toU32 bytes.val) 0 := by
  have htake := takes_u32 (f := f) (toU32 bytes.val)
  rwa [u32_toU32 (bytes.property.trans h)] at htake

/-- A scalar that is not read. -/
theorem readConfigValue_scalar {t : ScalarType} (h : t ≠ .uint32 ∧ t ≠ .float32)
    (cfg : ModelConfig) (key : List UInt8) (bytes : Scalar t) :
    readConfigValue f cfg key t.code = (do seek f 8; return cfg) ∧
      valueStep cfg key (.scalar t bytes) = cfg := by
  have hcode : t.code ≠ 4 ∧ t.code ≠ 6 ∧ t.code ≠ 8 := by
    revert h
    cases t <;> decide
  constructor
  · unfold readConfigValue
    rw [if_neg hcode.1, if_neg hcode.2.1, if_neg hcode.2.2]
  · cases t <;> first | rfl | exact absurd rfl h.1 | exact absurd rfl h.2

theorem takes_readConfigValue {cfg : ModelConfig} {key : List UInt8} {v : Value}
    (hv : ReadExactly v) (hlen : v.encode.length < 0x8000000000000000) :
    Takes f (readConfigValue f cfg key v.code) v.encode (valueStep cfg key v) 0 := by
  cases v with
  | scalar t bytes =>
    rcases hv with rfl | rfl | hsize
    · exact (takes_word bytes rfl).last (.pure _)
    · exact (takes_word bytes rfl).last (.pure _)
    · have hseek : Takes f (seek f 8) bytes.val () 0 :=
        takes_seek (by rw [bytes.property, hsize]; rfl)
      have hother : t ≠ .uint32 ∧ t ≠ .float32 := by
        constructor
        · rintro rfl
          cases hsize
        · rintro rfl
          cases hsize
      obtain ⟨hread, hstep⟩ := readConfigValue_scalar (f := f) hother cfg key bytes
      rw [Value.code, hread, hstep]
      exact hseek.last (.pure _)
  | string s =>
    simp only [Value.encode, encodeString_length] at hlen
    exact takes_readConfigString (by omega)
  | array a => exact hv.elim

theorem skipByType_scalar (t : ScalarType) : skipByType f t.code = seek f (.ofNat t.size) := by
  cases t <;> simp [skipByType, ScalarType.code, ScalarType.size]

theorem longKeyElemSize_code (t : ScalarType) : longKeyElemSize t.code = t.size := by
  cases t <;> rfl

/-- The elements behind a long key. -/
theorem takes_skipByType_array {a : Arr} (hflat : a.Flat)
    (hlen : a.encode.length < 0x8000000000000000) :
    Takes f (skipByType f 9) a.encode () (skipCost (.array a)) := by
  unfold skipByType
  rw [if_neg (by decide), if_neg (by decide), if_neg (by decide), if_neg (by decide),
    if_neg (by decide), if_pos rfl]
  cases a with
  | scalars t elems =>
    simp only [Arr.encode, List.length_append] at hlen
    rw [Arr.encode, List.append_assoc]
    refine (takes_u32 _).next ((takes_u64 _).next ?_)
    rw [if_neg (by cases t <;> decide), longKeyElemSize_code]
    exact takes_seek_scalars (by omega)
  | strings elems =>
    simp only [Arr.encode, List.length_append] at hlen
    rw [Arr.encode, List.append_assoc]
    refine (takes_u32 _).next ((takes_u64 _).next ?_)
    rw [if_pos rfl]
    exact takes_skipStrings (by omega)
  | arrays elems =>
    obtain rfl : elems = [] := hflat
    rw [Arr.encode, List.append_assoc]
    refine (takes_u32 _).next ((takes_u64 _).next ?_)
    rw [if_neg (by decide)]
    exact takes_seek rfl

theorem takes_skipByType {v : Value} (hflat : v.Flat)
    (hlen : v.encode.length < 0x8000000000000000) :
    Takes f (skipByType f v.code) v.encode () (skipCost v) := by
  cases v with
  | scalar t bytes =>
    rw [Value.code, skipByType_scalar]
    exact takes_seek_scalar bytes
  | string s =>
    simp only [Value.encode, encodeString_length] at hlen
    exact takes_skipString (by omega)
  | array a => exact takes_skipByType_array hflat hlen

/-- Loop iterations that read a pair. -/
def configCost (kv : KeyValue) : ℕ := if 255 < kv.key.length then skipCost kv.value else 0

theorem takes_readConfigPair (cfg : ModelConfig) {kv : KeyValue} (h : PassedExactly kv)
    (hlen : kv.encode.length < 0x8000000000000000) :
    Takes f (readConfigPair f cfg) kv.encode (configStep cfg kv) (configCost kv) := by
  simp only [KeyValue.encode, List.length_append, encodeString_length] at hlen
  have hn : (UInt64.ofNat kv.key.length).toNat = kv.key.length := toNat_ofNat_length (by omega)
  unfold readConfigPair configStep configCost KeyValue.encode encodeString
  unfold PassedExactly at h
  rw [List.append_assoc]
  refine (takes_u64 _).next ?_
  rw [hn]
  split_ifs with hlong
  · rw [if_pos hlong] at h
    refine (takes_seek hn).next ((takes_u32 _).next ?_)
    exact (takes_skipByType h (by omega)).last (.pure cfg)
  · rw [if_neg hlong] at h
    refine (takes_zeroed rfl).next ((takes_u32 _).next ?_)
    exact takes_readConfigValue h (by omega)

theorem readConfigValue_other {v : Value} (h : ¬ ReadExactly v) (cfg : ModelConfig)
    (key : List UInt8) :
    readConfigValue f cfg key v.code = (do seek f 8; return cfg) ∧ valueStep cfg key v = cfg := by
  cases v with
  | scalar t bytes =>
    exact readConfigValue_scalar ⟨fun ht => h (.inl ht), fun ht => h (.inr (.inl ht))⟩ cfg key bytes
  | string s => exact absurd trivial h
  | array a => exact ⟨rfl, rfl⟩

/-- The last pair that is read may be passed over wrongly. -/
theorem answers_readConfigPair (cfg : ModelConfig) {kv : KeyValue}
    (hlen : kv.encode.length < 0x8000000000000000) :
    Answers f (readConfigPair f cfg) kv.encode (configStep cfg kv) := by
  by_cases hpassed : PassedExactly kv
  · exact (takes_readConfigPair cfg hpassed hlen).answers
  · simp only [KeyValue.encode, List.length_append, encodeString_length] at hlen
    have hn : (UInt64.ofNat kv.key.length).toNat = kv.key.length := toNat_ofNat_length (by omega)
    unfold PassedExactly at hpassed
    unfold readConfigPair configStep KeyValue.encode encodeString
    rw [List.append_assoc]
    refine (takes_u64 _).nextAnswers ?_
    rw [hn]
    split_ifs with hlong
    · refine (takes_seek hn).nextAnswers ((takes_u32 _).nextAnswers ?_)
      exact .const _ _ _
    · rw [if_neg hlong] at hpassed
      refine (takes_zeroed rfl).nextAnswers ((takes_u32 _).nextAnswers ?_)
      obtain ⟨hread, hstep⟩ := readConfigValue_other (f := f) hpassed cfg (bufferString kv.key)
      rw [hread, hstep]
      exact .const _ _ _

/-! ### The configuration that is read -/

/-- The pairs that the loop reads. -/
def pairsRead (c : Contents) : List KeyValue := c.pairs.take 256

theorem header_magic (c : Contents) : field c.header 0 4 = LittleEndian.u32 magic := by
  rw [Contents.header, field_append_left _ (by simp), field_zero]
  exact List.take_of_length_le (by simp)

theorem header_pairs (c : Contents) :
    field c.header 16 8 = LittleEndian.u64 (.ofNat c.pairs.length) := by
  have hsplit : c.header = (LittleEndian.u32 magic ++ (LittleEndian.u32 c.version ++
      LittleEndian.u64 (.ofNat c.tensors.length))) ++ LittleEndian.u64 (.ofNat c.pairs.length) := by
    simp [Contents.header]
  have hfield := field_append_right (LittleEndian.u32 magic ++ (LittleEndian.u32 c.version ++
    LittleEndian.u64 (.ofNat c.tensors.length))) (LittleEndian.u64 (.ofNat c.pairs.length)) 0 8
  simp only [List.length_append, LittleEndian.u32_length, LittleEndian.u64_length] at hfield
  rw [hsplit, hfield, field_zero]
  exact List.take_of_length_le (by simp)

theorem answers_readConfig {c : Contents} {path : List UInt8}
    (hlen : c.encode.length < 0x8000000000000000)
    (hpassed : ∀ kv ∈ (pairsRead c).dropLast, PassedExactly kv) :
    Answers f (readConfig f path) (c.header ++ (pairsRead c).flatMap KeyValue.encode)
      (some (deriveConfig ((pairsRead c).foldl configStep { name := path }))) := by
  obtain ⟨hpairs, -⟩ := counts_toNat hlen
  simp only [Contents.encode, List.length_append] at hlen
  have hsmall : ∀ kv ∈ pairsRead c, kv.encode.length < 0x8000000000000000 := by
    intro kv hkv
    have hle := length_le_flatMap (g := KeyValue.encode) (List.mem_of_mem_take hkv)
    omega
  have hloop := answers_loop (f := f) KeyValue.encode configStep configCost
    (fun cfg kv hkv => takes_readConfigPair cfg (hpassed kv hkv)
      (hsmall kv (List.mem_of_mem_dropLast hkv)))
    (fun cfg kv hkv => answers_readConfigPair cfg (hsmall kv hkv)) { name := path }
  have hcount : min (toU64 (field c.header 16 8)).toNat 256 = (pairsRead c).length := by
    rw [header_pairs, toU64_u64, hpairs, pairsRead, List.length_take, min_comm]
  unfold readConfig
  refine (takes_raw (by simp [Contents.header])).nextAnswers ?_
  rw [header_magic, toU32_u32, if_neg (by decide), hcount]
  exact hloop.map _

/-! ### Fields -/

/-- The value that a pair has for a field, by the substrings of its key. -/
def hit (field : ConfigField) (kv : KeyValue) : Option UInt32 :=
  if kv.key.length ≤ 255 ∧ u32Field (bufferString kv.key) = some field then kv.value.asU32 else none

/-- The last value for a field among the pairs that are read. -/
def lastHit (c : Contents) (field : ConfigField) : Option UInt32 :=
  ((pairsRead c).filterMap (hit field)).getLast?

theorem get_set (cfg : ModelConfig) (field other : ConfigField) (val : Int32) :
    (cfg.set field val).get other = if field = other then val else cfg.get other := by
  cases field <;> cases other <;> rfl

theorem get_setU32 (cfg : ModelConfig) (key : List UInt8) (val : UInt32) (field : ConfigField) :
    (setU32 cfg key val).get field =
      if u32Field key = some field then val.toInt32 else cfg.get field := by
  unfold setU32
  cases hkey : u32Field key with
  | none => simp
  | some other =>
    simp only [get_set, Option.some.injEq]

theorem get_valueStep {v : Value} (hv : v.asU32 = none) (cfg : ModelConfig) (key : List UInt8)
    (field : ConfigField) : (valueStep cfg key v).get field = cfg.get field := by
  cases v with
  | scalar t bytes =>
    cases t <;> first
      | rfl
      | (unfold valueStep setF32; split_ifs <;> cases field <;> rfl)
      | cases hv
  | string s =>
    unfold valueStep stringStep
    simp only
    split_ifs <;> cases field <;> rfl
  | array a => rfl

theorem valueStep_u32 {v : Value} {val : UInt32} (hv : v.asU32 = some val) (cfg : ModelConfig)
    (key : List UInt8) : valueStep cfg key v = setU32 cfg key val := by
  unfold Value.asU32 at hv
  split at hv
  · cases hv
    rfl
  · cases hv

theorem get_configStep (cfg : ModelConfig) (kv : KeyValue) (field : ConfigField) :
    (configStep cfg kv).get field = ((hit field kv).map UInt32.toInt32).getD (cfg.get field) := by
  unfold configStep hit
  by_cases hlong : 255 < kv.key.length
  · rw [if_pos hlong, if_neg (by omega)]
    rfl
  · rw [if_neg hlong]
    cases hv : kv.value.asU32 with
    | none =>
      rw [get_valueStep hv, ite_self]
      rfl
    | some val =>
      have hvalue : valueStep cfg (bufferString kv.key) kv.value =
          setU32 cfg (bufferString kv.key) val := valueStep_u32 hv cfg _
      rw [hvalue, get_setU32]
      by_cases hkey : u32Field (bufferString kv.key) = some field
      · rw [if_pos hkey, if_pos ⟨by omega, hkey⟩]
        rfl
      · rw [if_neg hkey, if_neg (fun h => hkey h.2)]
        rfl

theorem get_foldl (cfg : ModelConfig) (pairs : List KeyValue) (field : ConfigField) :
    (pairs.foldl configStep cfg).get field =
      (((pairs.filterMap (hit field)).getLast?).map UInt32.toInt32).getD (cfg.get field) := by
  rw [foldl_lastHit (fun cfg => ModelConfig.get cfg field) (fun cfg kv _ => get_configStep cfg kv field),
    ← List.getLast?_map, List.map_filterMap]

/-! ### What the keys name -/

def valueOf (c : Contents) (key : List UInt8) : Option Value :=
  (c.pairs.find? (·.key = key)).map KeyValue.value

/-- What follows the architecture in the key of a field. -/
def keyEnd : ConfigField → String
  | .nLayers => ".block_count"
  | .nHeads => ".attention.head_count"
  | .nKvHeads => ".attention.head_count_kv"
  | .headDim => ".attention.key_length"
  | .hiddenDim => ".embedding_length"
  | .intermediateDim => ".feed_forward_length"
  | .vocabSize => ".vocab_size"
  | .maxSeqLen => ".context_length"

/-- The `uint32` under exactly the key of a field. -/
def stored (c : Contents) (field : ConfigField) : Option Int32 := do
  let arch ← (valueOf c (ascii "general.architecture")).bind Value.asString
  let val ← (valueOf c (arch ++ ascii (keyEnd field))).bind Value.asU32
  return val.toInt32

/-- The value of a field, with what stands in for one that is missing. -/
def fallback (val : ConfigField → Option Int32) (field : ConfigField) : Int32 :=
  (val field).getD <|
    match field with
    | .nKvHeads => (val .nHeads).getD 0
    | .headDim =>
        let nHeads := (val .nHeads).getD 0
        let hiddenDim := (val .hiddenDim).getD 0
        if 0 < nHeads ∧ 0 < hiddenDim then hiddenDim / nHeads else 0
    | .maxSeqLen => 2048
    | _ => 0

/-- The configuration has what is stored under the exact keys. -/
def HasStored (c : Contents) (cfg : ModelConfig) : Prop :=
  ∀ field, field ≠ .vocabSize → cfg.get field = fallback (stored c) field

/-- A zero counts as missing. -/
def nonzero (val : Int32) : Option Int32 := if val = 0 then none else some val

/-- The last value among the keys with the substring of a field. -/
def matched (c : Contents) (field : ConfigField) : Option Int32 :=
  nonzero (((lastHit c field).map UInt32.toInt32).getD 0)

/-- The keys with the substring of a field give it what its own key gives it. -/
def KeysMatch (c : Contents) : Prop :=
  ∀ field, field ≠ .vocabSize → fallback (matched c) field = fallback (stored c) field

/-- All pairs in front of the last one that is read are passed over with their own lengths,
and so are all pairs when the vocabulary is taken from a tensor. -/
structure Walkable (c : Contents) : Prop where
  passed : ∀ kv ∈ (pairsRead c).dropLast, PassedExactly kv
  flat : matched c .vocabSize = none → 0 < (matched c .hiddenDim).getD 0 →
    ∀ kv ∈ c.pairs, kv.value.Flat

theorem nonzero_getD (val : Int32) : (nonzero val).getD 0 = val := by
  unfold nonzero
  split_ifs with h
  · exact h.symm
  · rfl

theorem nonzero_getD_eq (val d : Int32) : (nonzero val).getD d = if val = 0 then d else val := by
  unfold nonzero
  split_ifs <;> rfl

theorem headDim_deriveConfig (cfg : ModelConfig) : (deriveConfig cfg).headDim =
    if cfg.headDim = 0 then
      if 0 < cfg.nHeads ∧ 0 < cfg.hiddenDim then cfg.hiddenDim / cfg.nHeads else 0
    else cfg.headDim := by
  simp only [deriveConfig, apply_ite ModelConfig.headDim, ite_self]
  split_ifs <;> tauto

theorem nKvHeads_deriveConfig (cfg : ModelConfig) : (deriveConfig cfg).nKvHeads =
    if cfg.nKvHeads = 0 then cfg.nHeads else cfg.nKvHeads := by
  simp only [deriveConfig, apply_ite ModelConfig.nKvHeads, apply_ite ModelConfig.nHeads, ite_self]

theorem maxSeqLen_deriveConfig (cfg : ModelConfig) : (deriveConfig cfg).maxSeqLen =
    if cfg.maxSeqLen = 0 then 2048 else cfg.maxSeqLen := by
  simp only [deriveConfig, apply_ite ModelConfig.maxSeqLen, ite_self]

/-- What is derived stands in for what is zero. -/
theorem get_deriveConfig (cfg : ModelConfig) (field : ConfigField) :
    (deriveConfig cfg).get field = fallback (fun field => nonzero (cfg.get field)) field := by
  unfold fallback
  cases field with
  | headDim =>
    rw [nonzero_getD_eq]
    simp only [nonzero_getD]
    exact headDim_deriveConfig cfg
  | nKvHeads =>
    rw [nonzero_getD_eq]
    simp only [nonzero_getD]
    exact nKvHeads_deriveConfig cfg
  | maxSeqLen =>
    rw [nonzero_getD_eq]
    exact maxSeqLen_deriveConfig cfg
  | _ =>
    simp only [nonzero_getD, ModelConfig.get, deriveConfig, apply_ite ModelConfig.nLayers,
      apply_ite ModelConfig.nHeads, apply_ite ModelConfig.hiddenDim, ite_self,
      apply_ite ModelConfig.intermediateDim, apply_ite ModelConfig.vocabSize]

/-! ### Files -/

/-- The configuration after the metadata. -/
def configRead (c : Contents) (path : List UInt8) : ModelConfig :=
  deriveConfig ((pairsRead c).foldl configStep { name := path })

theorem get_configRead (c : Contents) (path : List UInt8) (field : ConfigField) :
    (configRead c path).get field = fallback (matched c) field := by
  have hinit : ∀ field, ({ name := path } : ModelConfig).get field = 0 := by
    intro field
    cases field <;> rfl
  have hraw : (fun field => nonzero (((pairsRead c).foldl configStep { name := path }).get field)) =
      matched c := by
    funext field
    rw [get_foldl, hinit]
    rfl
  rw [configRead, get_deriveConfig, hraw]

theorem matched_eq_none {c : Contents} {field : ConfigField} (h : (matched c field).getD 0 = 0) :
    matched c field = none := by
  unfold matched at h ⊢
  rw [nonzero_getD] at h
  rw [h]
  rfl

theorem readConfig_encode {c : Contents} {rest path : List UInt8}
    (hfile : f.bytes = c.encode ++ rest)
    (hpassed : ∀ kv ∈ (pairsRead c).dropLast, PassedExactly kv) :
    (readConfig f path .start).1 = some (configRead c path) := by
  refine answers_readConfig (encode_lt hfile) hpassed .start
    ((c.pairs.drop 256).flatMap KeyValue.encode ++ (c.tensors.flatMap Tensor.encode ++ rest)) ?_
  have hsplit : c.pairs.flatMap KeyValue.encode = (pairsRead c).flatMap KeyValue.encode ++
      (c.pairs.drop 256).flatMap KeyValue.encode := by
    rw [pairsRead, ← List.flatMap_append, List.take_append_drop]
  rw [Cursor.start, List.drop_zero, hfile, Contents.encode, hsplit]
  simp only [List.append_assoc]

theorem parseTensorInfos_returned {c : Contents} {rest : List UInt8} {maxTensors : ℕ}
    (hc : Parsable c) (hfile : f.bytes = c.encode ++ rest) (hmem : c.tensors.length ≤ maxTensors) :
    ∃ offset tensors, (parseTensorInfos f maxTensors).1 = .returned offset tensors := by
  obtain ⟨reads, hrun⟩ := takes_readInfos hc (encode_lt hfile) hmem .start rest hfile
  unfold parseTensorInfos
  rw [hrun]
  exact ⟨_, _, rfl⟩

/-- The vocabulary does not touch the other fields. -/
theorem get_vocabSize (cfg : ModelConfig) (val : Int32) {field : ConfigField}
    (h : field ≠ .vocabSize) : ({ cfg with vocabSize := val } : ModelConfig).get field =
      cfg.get field := by
  cases field <;> first | rfl | contradiction

theorem loadGgufConfig_encode {c : Contents} {rest : List UInt8} {maxTensors : ℕ}
    (path : List UInt8) (hfile : f.bytes = c.encode ++ rest) (hwalk : Walkable c)
    (hdims : ∀ t ∈ c.tensors, t.dims.length ≤ 4) (hmem : c.tensors.length ≤ maxTensors) :
    ∃ cfg, loadGgufConfig f path maxTensors = some cfg ∧
      ∀ field, field ≠ .vocabSize → cfg.get field = fallback (matched c) field := by
  have hget := get_configRead c path
  unfold loadGgufConfig
  rw [readConfig_encode hfile hwalk.passed]
  generalize configRead c path = cfg at hget ⊢
  have hvocab : cfg.vocabSize = (matched c .vocabSize).getD 0 := hget .vocabSize
  have hhidden : cfg.hiddenDim = (matched c .hiddenDim).getD 0 := hget .hiddenDim
  simp only
  split_ifs with hsought
  · rw [hvocab, hhidden] at hsought
    have hnone : matched c .vocabSize = none := matched_eq_none hsought.1
    obtain ⟨offset, tensors, hparse⟩ :=
      parseTensorInfos_returned ⟨hwalk.flat hnone hsought.2, hdims⟩ hfile hmem
    rw [hparse]
    refine ⟨_, rfl, fun field hfield => ?_⟩
    rw [← hget field]
    split_ifs <;> simp only [get_vocabSize _ _ hfield]
  · exact ⟨cfg, rfl, fun field _ => hget field⟩

/-- A file that the reader walks through is read as its keys say exactly where no other key
with the substring of a field interferes. -/
theorem loadGgufConfig_stored_iff (f : Stream) (path : List UInt8) (maxTensors : ℕ) (c : Contents)
    (rest : List UInt8) (hfile : f.bytes = c.encode ++ rest)
    (hdims : ∀ t ∈ c.tensors, t.dims.length ≤ 4) (hmem : c.tensors.length ≤ maxTensors)
    (hwalk : Walkable c) :
    (∃ cfg, loadGgufConfig f path maxTensors = some cfg ∧ HasStored c cfg) ↔ KeysMatch c := by
  obtain ⟨cfg, hload, hget⟩ := loadGgufConfig_encode path hfile hwalk hdims hmem
  constructor
  · rintro ⟨cfg', hload', hstored⟩
    obtain rfl : cfg = cfg' := by
      rw [hload] at hload'
      exact Option.some.inj hload'
    exact fun field hfield => (hget field hfield).symm.trans (hstored field hfield)
  · exact fun hkeys => ⟨cfg, hload, fun field hfield =>
      (hget field hfield).trans (hkeys field hfield)⟩

/-- Two layers of an architecture, behind a number of eight bytes and an array that ends the
metadata. -/
def twoLayers : Contents where
  version := 3
  pairs :=
    [⟨ascii "a.block_count", .scalar .uint32 (.word 2)⟩,
      ⟨ascii "general.file_size", .scalar .uint64 ⟨[1, 0, 0, 0, 0, 0, 0, 0], rfl⟩⟩,
      ⟨ascii "a.embedding_length", .scalar .uint32 (.word 64)⟩,
      ⟨ascii "a.attention.head_count", .scalar .uint32 (.word 4)⟩,
      ⟨ascii "general.architecture", .string (ascii "a")⟩,
      ⟨ascii "tokenizer.ggml.tokens", .array (.strings [ascii "x", ascii "yz"])⟩]
  tensors := []

theorem keysMatch_twoLayers : KeysMatch twoLayers := by
  have hall : ∀ field ∈ [ConfigField.nLayers, .nKvHeads, .nHeads, .headDim, .hiddenDim,
      .intermediateDim, .maxSeqLen], fallback (matched twoLayers) field =
        fallback (stored twoLayers) field := by decide +kernel
  intro field hfield
  cases field with
  | vocabSize => exact absurd rfl hfield
  | _ => exact hall _ (by simp)

theorem loadGgufConfig_twoLayers : ∃ cfg,
    loadGgufConfig (.full twoLayers.encode (by decide +kernel)) [] 0 = some cfg ∧
      HasStored twoLayers cfg :=
  (loadGgufConfig_stored_iff _ [] 0 twoLayers [] (List.append_nil _).symm
    (by simp [twoLayers]) (by simp [twoLayers])
    { passed := by
        simp only [pairsRead, twoLayers, List.take_succ_cons, List.take_nil, List.dropLast,
          List.forall_mem_cons]
        exact ⟨.inl rfl, .inr (.inr rfl), .inl rfl, .inl rfl, trivial, by simp⟩
      flat := by simp [twoLayers, Value.Flat, Arr.Flat] }).mpr keysMatch_twoLayers

/-- A flag in front of the layers. -/
def flagFirst : Contents where
  version := 3
  pairs :=
    [⟨ascii "general.architecture", .string (ascii "a")⟩, ⟨ascii "b", .scalar .bool (.flag true)⟩,
      ⟨ascii "a.block_count", .scalar .uint32 (.word 2)⟩]
  tensors := []

/-- Behind a flag the keys are lost. -/
theorem loses_keys_after_flag : ¬ ∀ (f : Stream) (path : List UInt8) (maxTensors : ℕ)
    (c : Contents) (rest : List UInt8), f.bytes = c.encode ++ rest →
    (c.pairs.map KeyValue.key).Nodup → (∀ t ∈ c.tensors, t.dims.length ≤ 4) →
    c.tensors.length ≤ maxTensors →
    ∃ cfg, loadGgufConfig f path maxTensors = some cfg ∧ HasStored c cfg := by
  intro h
  obtain ⟨cfg, hload, hstored⟩ := h (.full flagFirst.encode (by decide +kernel)) [] 0 flagFirst []
    (List.append_nil _).symm (by decide +kernel) (by simp [flagFirst]) (by simp [flagFirst])
  have hlayers : (loadGgufConfig (.full flagFirst.encode (by decide +kernel)) [] 0).map
      ModelConfig.nLayers = some 0 := by decide +kernel
  have hkey : fallback (stored flagFirst) .nLayers = 2 := by decide +kernel
  have hget := hstored .nLayers (by decide)
  rw [hload] at hlayers
  rw [hkey, ModelConfig.get, Option.some.inj hlayers] at hget
  exact absurd hget (by decide)

end JLLM
