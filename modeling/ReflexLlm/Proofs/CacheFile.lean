import Mathlib.Data.List.GetD
import ReflexLlm.Spec.KvCacheFile

/-! The cache file against its bytes: the header codec, the read and write loops
under any pattern of short transfers, and what a successful save, peek and load
say about the file. -/

namespace JLLM

open LittleEndian

namespace KVCacheFileHeader

@[simp] theorem encode_length (h : KVCacheFileHeader) : h.encode.length = size := by
  simp [encode, size]

@[simp] theorem field_u32_head (x : UInt32) (buf : List UInt8) : field (u32 x ++ buf) 0 4 = u32 x := by
  rw [field_zero, ← u32_length x, List.take_left]

@[simp] theorem field_u32_skip (x : UInt32) (buf : List UInt8) (off len : ℕ) :
    field (u32 x ++ buf) (off + 4) len = field buf off len := by
  rw [Nat.add_comm, ← u32_length x, field_append_right]

@[simp] theorem field_u64_head (x : UInt64) (buf : List UInt8) : field (u64 x ++ buf) 0 8 = u64 x := by
  rw [field_zero, ← u64_length x, List.take_left]

/-- A byte of an array behind the fields before it. -/
theorem getD_append_at {pre mid post : List UInt8} {off i : ℕ} (hoff : pre.length = off)
    (hi : i < mid.length) : (pre ++ (mid ++ post)).getD (off + i) 0 = mid[i] := by
  subst hoff
  rw [List.getD_append_right _ _ _ _ (by omega), Nat.add_sub_cancel_left,
    List.getD_append _ _ _ _ hi, List.getD_eq_getElem]

/-- A header read back from the start of a file. -/
theorem decode_encode (h : KVCacheFileHeader) (rest : List UInt8) : decode (h.encode ++ rest) = h := by
  obtain ⟨magic, version, nLayers, nKvHeads, headDim, kvTypeBytes, maxContext, usedTokens, bodyBytes,
    modelHash, reserved⟩ := h
  have hhash (i : ℕ) (hi : i < 32) : (encode ⟨magic, version, nLayers, nKvHeads, headDim,
      kvTypeBytes, maxContext, usedTokens, bodyBytes, modelHash, reserved⟩ ++ rest).getD
        (40 + i) 0 = modelHash[i] := by
    simp only [encode]
    rw [List.append_assoc _ reserved.toList, List.append_assoc _ modelHash.toList]
    exact (getD_append_at (by simp) (by simpa using hi)).trans (by simp)
  have hres (i : ℕ) (hi : i < 56) : (encode ⟨magic, version, nLayers, nKvHeads, headDim,
      kvTypeBytes, maxContext, usedTokens, bodyBytes, modelHash, reserved⟩ ++ rest).getD
        (72 + i) 0 = reserved[i] := by
    simp only [encode]
    rw [List.append_assoc _ reserved.toList]
    exact (getD_append_at (by simp) (by simpa using hi)).trans (by simp)
  simp only [decode, hhash _ (Fin.isLt _), hres _ (Fin.isLt _)]
  simp only [encode, List.append_assoc, KVCacheFileHeader.mk.injEq]
  simp

end KVCacheFileHeader

theorem tokensBytes_lt (h : KVCacheFileHeader) : h.tokensBytes < 2 ^ 34 := by
  have hused := h.usedTokens.toNat_lt
  unfold KVCacheFileHeader.tokensBytes
  omega

/-- Bytes past the end are not there: a successful read is the wanted range. -/
theorem readAll_eq_some {deliver : ℕ → ℕ} {file : List UInt8} {got want : ℕ} {r : List UInt8}
    (hle : got ≤ want) (h : readAll deliver file got want = some r) :
    r = field file got (want - got) ∧ (got < want → want ≤ file.length) := by
  fun_induction readAll deliver file got want generalizing r with
  | case1 => simp at h
  | case2 got hlt n hn =>
    rename_i ih
    obtain ⟨rest, hrest, rfl⟩ := Option.map_eq_some_iff.mp h
    have hn' : n ≤ want - got ∧ n ≤ file.length - got := by simp only [n]; omega
    obtain ⟨rfl, hlen⟩ := ih (by omega) hrest
    refine ⟨?_, fun _ => ?_⟩
    · rw [field_append_field, show n + (want - (got + n)) = want - got by omega]
    · by_cases h' : got + n < want
      · exact hlen h'
      · omega
  | case3 got hlt =>
    simp only [Option.some.injEq] at h
    subst h
    rw [show want - got = 0 by omega]
    exact ⟨by simp [field], fun hc => absurd hc hlt⟩

/-- When every call delivers something, the range is read. -/
theorem readAll_ok {deliver : ℕ → ℕ} (hdel : ∀ w, 0 < deliver w) {file : List UInt8}
    {got want : ℕ} (hle : got ≤ want) (hlen : want ≤ file.length) :
    readAll deliver file got want = some (field file got (want - got)) := by
  fun_induction readAll deliver file got want with
  | case1 got hlt n hn =>
    have := hdel got
    simp only [n] at hn
    omega
  | case2 got hlt n hn ih =>
    rw [ih (by omega), Option.map_some, field_append_field,
      show n + (want - (got + n)) = want - got by omega]
  | case3 got hlt =>
    rw [show want - got = 0 by omega]
    simp [field]

/-- When every call accepts something, the rest of the buffer is appended. -/
theorem writeAll_ok {accept : ℕ → ℕ} (hacc : ∀ w, 0 < accept w) (file buf : List UInt8)
    {written : ℕ} (hle : written ≤ buf.length) :
    writeAll accept file buf written = (true, file ++ buf.drop written) := by
  fun_induction writeAll accept file buf written with
  | case1 file written hlt n hn =>
    have := hacc written
    simp only [n] at hn
    omega
  | case2 file written hlt n hn ih =>
    rw [ih (by omega), List.append_assoc, field, ← List.drop_drop, List.take_append_drop]
  | case3 file written hlt =>
    rw [List.drop_eq_nil_of_le (by omega), List.append_nil]

/-! ### Saving -/

/-- The bytes of a saved turn. -/
def image (hdr : KVCacheFileHeader) (tokens : List UInt32) (body : List UInt8) : List UInt8 :=
  hdr.encode ++ u32s tokens ++ body

/-- A save without failures installs the image. -/
theorem saveKvToFile_ok {io : SaveIo} (hio : io.NoFailure) (fs : FileSystem) (path : String)
    {hdr : KVCacheFileHeader} {tokens : List UInt32} (body : List UInt8)
    (htokens : hdr.usedTokens.toNat = tokens.length) (hbody : hdr.bodyBytes.toNat = body.length) :
    saveKvToFile io fs path hdr (some tokens) tokens.length body body.length =
      (true, (fs.set (path ++ ".tmp") none).set path (some (image hdr tokens body))) := by
  have htok : (if 0 < tokens.length then
      writeAll io.tokenWrite hdr.encode (u32s (((some tokens).getD []).take tokens.length)) 0
      else (true, hdr.encode)) = (true, hdr.encode ++ u32s tokens) := by
    split_ifs with h
    · rw [writeAll_ok hio.tokens _ _ (Nat.zero_le _)]
      simp
    · simp [List.length_eq_zero_iff.mp (Nat.eq_zero_of_not_pos h), u32s]
  unfold saveKvToFile
  simp only [htok]
  simp [hbody, htokens, hio.opened, hio.header, writeAll_ok hio.body, hio.synced, hio.renamed,
    image]

/-! ### Peeking and loading -/

/-- What both readers check: a whole header with magic and version, and a size
that adds up in `size_t`. -/
structure FileAccepted (f : List UInt8) : Prop where
  header : KVCacheFileHeader.size ≤ f.length
  magic : (KVCacheFileHeader.decode f).magic = kvcacheMagic
  version : (KVCacheFileHeader.decode f).version = kvcacheVersion
  length : f.length = (KVCacheFileHeader.decode f).expectedSize

/-- The token region of a file. -/
def tokensOf (f : List UInt8) : List UInt32 :=
  toU32s (KVCacheFileHeader.decode f).usedTokens.toNat
    (field f KVCacheFileHeader.size (KVCacheFileHeader.decode f).tokensBytes)

/-- The body region of a file. -/
def bodyOf (f : List UInt8) : List UInt8 :=
  field f (KVCacheFileHeader.size + (KVCacheFileHeader.decode f).tokensBytes)
    (KVCacheFileHeader.decode f).bodyBytes.toNat

/-- What a load returns of a file that it has read whole. -/
def loadedOf (outTokens : Bool) (f : List UInt8) : LoadedKv :=
  ⟨.decode f, if outTokens then tokensOf f else [], bodyOf f⟩

theorem decode_image (hdr : KVCacheFileHeader) (tokens : List UInt32) (body : List UInt8) :
    KVCacheFileHeader.decode (image hdr tokens body) = hdr := by
  rw [image, List.append_assoc, KVCacheFileHeader.decode_encode]

section

variable {hdr : KVCacheFileHeader} {tokens : List UInt32} (body : List UInt8)
  (htokens : hdr.usedTokens.toNat = tokens.length)

include htokens

theorem tokensOf_image : tokensOf (image hdr tokens body) = tokens := by
  have hfield : field (image hdr tokens body) KVCacheFileHeader.size hdr.tokensBytes =
      u32s tokens := by
    rw [image, List.append_assoc, ← hdr.encode_length, ← Nat.add_zero hdr.encode.length,
      field_append_right, field_zero, List.take_append_of_le_length, List.take_of_length_le]
    all_goals rw [u32s_length, KVCacheFileHeader.tokensBytes, htokens]; omega
  rw [tokensOf, decode_image, hfield, htokens, toU32s_u32s]

theorem bodyOf_image (hbody : hdr.bodyBytes.toNat = body.length) :
    bodyOf (image hdr tokens body) = body := by
  have hpre : KVCacheFileHeader.size + hdr.tokensBytes =
      (hdr.encode ++ u32s tokens).length + 0 := by
    simp [KVCacheFileHeader.tokensBytes, htokens, Nat.mul_comm]
  rw [bodyOf, decode_image, hpre, image, field_append_right, field_zero, hbody, List.take_length]

end

/-- The calls and the checks of a peek that go well. -/
theorem peekKvHeader_eq_some_iff {io : ReadIo} {f : List UInt8} {hdr : KVCacheFileHeader} :
    peekKvHeader io (some f) = some hdr ↔
      io.openOk = true ∧ KVCacheFileHeader.size ≤ min io.headerRead f.length ∧
        (KVCacheFileHeader.decode f).magic = kvcacheMagic ∧
        (KVCacheFileHeader.decode f).version = kvcacheVersion ∧ io.fstatOk = true ∧
        f.length = (KVCacheFileHeader.decode f).expectedSize ∧
        KVCacheFileHeader.decode f = hdr := by
  simp only [peekKvHeader, Option.ite_none_left_eq_some, Option.some.injEq, ne_eq, not_not, not_lt,
    Bool.not_eq_false]

theorem peekKvHeader_eq_some {io : ReadIo} {file : Option (List UInt8)} {hdr : KVCacheFileHeader}
    (h : peekKvHeader io file = some hdr) :
    ∃ f, file = some f ∧ FileAccepted f ∧ hdr = KVCacheFileHeader.decode f := by
  cases file with
  | none => cases h
  | some f =>
    obtain ⟨-, hheader, hmagic, hversion, -, hlen, rfl⟩ := peekKvHeader_eq_some_iff.mp h
    exact ⟨f, rfl, ⟨hheader.trans (Nat.min_le_right _ _), hmagic, hversion, hlen⟩, rfl⟩

theorem peekKvHeader_ok {io : ReadIo} (hio : io.NoFailure) {f : List UInt8} (hf : FileAccepted f) :
    peekKvHeader io (some f) = some (KVCacheFileHeader.decode f) :=
  peekKvHeader_eq_some_iff.mpr ⟨hio.opened, Nat.le_min.mpr ⟨hio.header.ge, hf.header⟩, hf.magic,
    hf.version, hio.statted, hf.length, rfl⟩

/-- The token part of a load. -/
def tokenPart (io : ReadIo) (f : List UInt8) (outTokens : Bool) : Option (List UInt32) :=
  if outTokens then
    if 0 < (KVCacheFileHeader.decode f).usedTokens.toNat then
      (readAll io.tokenRead (f.drop KVCacheFileHeader.size) 0
        (KVCacheFileHeader.decode f).tokensBytes).map
          (toU32s (KVCacheFileHeader.decode f).usedTokens.toNat)
    else some []
  else if 0 < (KVCacheFileHeader.decode f).tokensBytes ∧ io.lseekOk = false then none
  else some []

/-- The body part of a load. -/
def bodyPart (io : ReadIo) (f : List UInt8) : Option (List UInt8) :=
  readAll io.bodyRead ((f.drop KVCacheFileHeader.size).drop
    (KVCacheFileHeader.decode f).tokensBytes) 0 (KVCacheFileHeader.decode f).bodyBytes.toNat

/-- The calls and the checks of a load that go well, before it reads tokens and body. -/
structure LoadChecked (io : ReadIo) (f : List UInt8) (cap : ℕ) : Prop where
  opened : io.openOk = true
  headerRead : KVCacheFileHeader.size ≤ io.headerRead
  statted : io.fstatOk = true
  file : FileAccepted f
  room : (KVCacheFileHeader.decode f).bodyBytes.toNat ≤ cap

theorem loadKvFromFile_eq_some_iff {io : ReadIo} {f : List UInt8} {outTokens : Bool} {cap : ℕ}
    {kv : LoadedKv} :
    loadKvFromFile io (some f) outTokens cap = some kv ↔
      LoadChecked io f cap ∧ ∃ tokens, tokenPart io f outTokens = some tokens ∧
        ∃ body, bodyPart io f = some body ∧ ⟨KVCacheFileHeader.decode f, tokens, body⟩ = kv := by
  simp only [loadKvFromFile, Option.ite_none_left_eq_some, Option.bind_eq_some_iff,
    Option.map_eq_some_iff, ne_eq, not_not, not_lt, Bool.not_eq_false, Nat.le_min]
  constructor
  · rintro ⟨hopen, ⟨hread, hheader⟩, hmagic, hversion, hroom, hstat, hlen, hparts⟩
    exact ⟨⟨hopen, hread, hstat, ⟨hheader, hmagic, hversion, hlen⟩, hroom⟩, hparts⟩
  · rintro ⟨h, hparts⟩
    exact ⟨h.opened, ⟨h.headerRead, h.file.header⟩, h.file.magic, h.file.version, h.room, h.statted,
      h.file.length, hparts⟩

theorem tokenPart_eq_some {io : ReadIo} {f : List UInt8} {tokens : List UInt32}
    (h : tokenPart io f true = some tokens) : tokens = tokensOf f := by
  rw [tokenPart, if_pos rfl] at h
  split_ifs at h with hpos
  · obtain ⟨bytes, hread, rfl⟩ := Option.map_eq_some_iff.mp h
    obtain ⟨rfl, -⟩ := readAll_eq_some (Nat.zero_le _) hread
    simp [tokensOf, field]
  · rw [tokensOf, Nat.eq_zero_of_not_pos hpos]
    simpa [toU32s] using h.symm

/-- A body that is not empty is read to its end. -/
theorem bodyPart_eq_some {io : ReadIo} {f : List UInt8} {body : List UInt8}
    (h : bodyPart io f = some body) :
    body = bodyOf f ∧ (0 < (KVCacheFileHeader.decode f).bodyBytes.toNat →
      KVCacheFileHeader.size + (KVCacheFileHeader.decode f).tokensBytes +
        (KVCacheFileHeader.decode f).bodyBytes.toNat ≤ f.length) := by
  obtain ⟨rfl, hlen⟩ := readAll_eq_some (Nat.zero_le _) h
  refine ⟨by simp [bodyOf, field, List.drop_drop], fun hpos => ?_⟩
  have hle := hlen hpos
  rw [List.length_drop, List.length_drop] at hle
  omega

theorem loadKvFromFile_eq_some {io : ReadIo} {file : Option (List UInt8)} {cap : ℕ} {kv : LoadedKv}
    (h : loadKvFromFile io file true cap = some kv) :
    ∃ f, file = some f ∧ FileAccepted f ∧ (KVCacheFileHeader.decode f).bodyBytes.toNat ≤ cap ∧
      kv = ⟨KVCacheFileHeader.decode f, tokensOf f, bodyOf f⟩ := by
  cases file with
  | none => cases h
  | some f =>
    obtain ⟨hchecked, tokens, htokens, body, hbody, rfl⟩ := loadKvFromFile_eq_some_iff.mp h
    obtain ⟨rfl, -⟩ := bodyPart_eq_some hbody
    obtain rfl := tokenPart_eq_some htokens
    exact ⟨f, rfl, hchecked.file, hchecked.room, rfl⟩

section

variable {io : ReadIo} (hio : io.NoFailure) {f : List UInt8}
  (hlen : KVCacheFileHeader.size + (KVCacheFileHeader.decode f).tokensBytes +
    (KVCacheFileHeader.decode f).bodyBytes.toNat ≤ f.length)

include hio hlen

theorem tokenPart_ok (outTokens : Bool) :
    tokenPart io f outTokens = some (if outTokens then tokensOf f else []) := by
  cases outTokens with
  | false => simp [tokenPart, hio.sought]
  | true =>
    rw [tokenPart, if_pos rfl, if_pos rfl,
      readAll_ok hio.tokens (Nat.zero_le _) (by rw [List.length_drop]; omega)]
    split_ifs with hpos
    · simp [tokensOf, field]
    · rw [tokensOf, Nat.eq_zero_of_not_pos hpos]
      rfl

theorem bodyPart_ok : bodyPart io f = some (bodyOf f) := by
  rw [bodyPart, readAll_ok hio.body (Nat.zero_le _) (by simp only [List.length_drop]; omega)]
  simp [bodyOf, field, List.drop_drop]

end

/-- A load without failures returns what an accepted file holds, if it has room for it and
the sizes add up without wrap-around. -/
theorem loadKvFromFile_ok {io : ReadIo} (hio : io.NoFailure) {f : List UInt8} (hf : FileAccepted f)
    (hsize : KVCacheFileHeader.size + (KVCacheFileHeader.decode f).tokensBytes +
      (KVCacheFileHeader.decode f).bodyBytes.toNat < 2 ^ 64) (outTokens : Bool) {cap : ℕ}
    (hcap : (KVCacheFileHeader.decode f).bodyBytes.toNat ≤ cap) :
    loadKvFromFile io (some f) outTokens cap = some (loadedOf outTokens f) := by
  have hlen := hf.length
  rw [KVCacheFileHeader.expectedSize, Nat.mod_eq_of_lt hsize] at hlen
  exact loadKvFromFile_eq_some_iff.mpr ⟨⟨hio.opened, hio.header.ge, hio.statted, hf, hcap⟩, _,
    tokenPart_ok hio hlen.ge outTokens, _, bodyPart_ok hio hlen.ge, rfl⟩

end JLLM
