import ReflexLlm.Proofs.SaveRace

/-! The cache file format from both sides. What a load accepts is exactly what a save
writes; the peek, which reads nothing behind the header, takes a size that wraps for the
size of the file. -/

namespace JLLM

open LittleEndian
open KVCacheFileHeader (size)

/-! ### The bytes of a file from its parts -/

namespace KVCacheFileHeader

theorem toList_ofFn_getD {f : List UInt8} {off n : ℕ} (h : off + n ≤ f.length) :
    (Vector.ofFn fun i : Fin n => f.getD (off + i.val) 0).toList = field f off n := by
  apply List.ext_getElem
  · rw [Vector.length_toList, field_length h]
  · intro i hi hi'
    have hn : i < n := by simpa using hi
    have hlt : off + i < f.length := by omega
    simp [field, List.getElem?_eq_getElem hlt]

/-- Every 128 bytes are a header. -/
theorem encode_decode {f : List UInt8} (h : size ≤ f.length) : (decode f).encode = f.take size := by
  have h' : 128 ≤ f.length := h
  have hword (off : ℕ) (hoff : off + 4 ≤ 128) : u32 (toU32 (field f off 4)) = field f off 4 :=
    u32_toU32 (field_length (by omega))
  have hlong : u64 (toU64 (field f 32 8)) = field f 32 8 := u64_toU64 (field_length (by omega))
  unfold encode decode
  simp only [hword 0 (by omega), hword 4 (by omega), hword 8 (by omega), hword 12 (by omega),
    hword 16 (by omega), hword 20 (by omega), hword 24 (by omega), hword 28 (by omega), hlong,
    toList_ofFn_getD (show 40 + 32 ≤ f.length by omega),
    toList_ofFn_getD (show 72 + 56 ≤ f.length by omega)]
  rw [field_append_field f 0 4 4, field_append_field f 0 8 4, field_append_field f 0 12 4,
    field_append_field f 0 16 4, field_append_field f 0 20 4, field_append_field f 0 24 4,
    field_append_field f 0 28 4, field_append_field f 0 32 8, field_append_field f 0 40 32,
    field_append_field f 0 72 56, field_zero]
  rfl

end KVCacheFileHeader

/-- The length of a file as its header has it, without wrap-around. -/
def fullSize (f : List UInt8) : ℕ :=
  size + (KVCacheFileHeader.decode f).tokensBytes + (KVCacheFileHeader.decode f).bodyBytes.toNat

/-- A file that is as long as its header says. -/
structure WholeFile (f : List UInt8) : Prop where
  magic : (KVCacheFileHeader.decode f).magic = kvcacheMagic
  version : (KVCacheFileHeader.decode f).version = kvcacheVersion
  length : f.length = fullSize f

theorem size_le_fullSize (f : List UInt8) : size ≤ fullSize f := by
  unfold fullSize
  omega

/-- A whole file is the header, the tokens and the body that it holds. -/
theorem WholeFile.image_eq {f : List UInt8} (h : WholeFile f) :
    image (.decode f) (tokensOf f) (bodyOf f) = f := by
  have hlen := h.length
  have hle : size ≤ f.length := hlen ▸ size_le_fullSize f
  unfold fullSize at hlen
  have htokens : u32s (tokensOf f) = field f size (KVCacheFileHeader.decode f).tokensBytes := by
    refine u32s_toU32s ?_
    rw [field_length (by omega), KVCacheFileHeader.tokensBytes, Nat.mul_comm]
  have hstart : f.take size ++ field f size (KVCacheFileHeader.decode f).tokensBytes =
      field f 0 (size + (KVCacheFileHeader.decode f).tokensBytes) := by
    rw [← field_zero, ← field_append_field, Nat.zero_add]
  have hall := field_append_field f 0 (size + (KVCacheFileHeader.decode f).tokensBytes)
    (KVCacheFileHeader.decode f).bodyBytes.toNat
  rw [Nat.zero_add] at hall
  rw [image, KVCacheFileHeader.encode_decode hle, htokens, bodyOf, hstart, hall, ← hlen, field_zero,
    List.take_length]

theorem wholeFile_image {hdr : KVCacheFileHeader} {tokens : List UInt32} {body : List UInt8}
    (hmagic : hdr.magic = kvcacheMagic) (hversion : hdr.version = kvcacheVersion)
    (htokens : hdr.usedTokens.toNat = tokens.length) (hbody : hdr.bodyBytes.toNat = body.length) :
    WholeFile (image hdr tokens body) := by
  refine ⟨?_, ?_, ?_⟩
  · rw [decode_image, hmagic]
  · rw [decode_image, hversion]
  · rw [fullSize, decode_image, KVCacheFileHeader.tokensBytes, htokens, hbody]
    simp [image, Nat.mul_comm, Nat.add_assoc]

/-! ### What the readers accept -/

theorem expectedSize_eq_fullSize (f : List UInt8) :
    (KVCacheFileHeader.decode f).expectedSize = fullSize f % 2 ^ 64 := rfl

theorem FileAccepted.whole {f : List UInt8} (h : FileAccepted f) (hlt : fullSize f < 2 ^ 64) :
    WholeFile f :=
  ⟨h.magic, h.version, by rw [h.length, expectedSize_eq_fullSize, Nat.mod_eq_of_lt hlt]⟩

theorem WholeFile.accepted {f : List UInt8} (h : WholeFile f) (hlt : fullSize f < 2 ^ 64) :
    FileAccepted f :=
  ⟨h.length ▸ size_le_fullSize f, h.magic, h.version, by
    rw [expectedSize_eq_fullSize, Nat.mod_eq_of_lt hlt, h.length]⟩

theorem fullSize_lt {f : List UInt8}
    (h : (KVCacheFileHeader.decode f).bodyBytes.toNat < 2 ^ 63) : fullSize f < 2 ^ 64 := by
  have htokens := tokensBytes_lt (.decode f)
  have hsize : size = 128 := rfl
  unfold fullSize
  omega

/-- A load checks what the peek checks, and finds all of a body that is not empty. -/
theorem loadKvFromFile_fits {io : ReadIo} {f : List UInt8} {outTokens : Bool} {cap : ℕ}
    {kv : LoadedKv} (h : loadKvFromFile io (some f) outTokens cap = some kv) :
    FileAccepted f ∧ (KVCacheFileHeader.decode f).bodyBytes.toNat ≤ cap ∧
      (0 < (KVCacheFileHeader.decode f).bodyBytes.toNat → fullSize f ≤ f.length) := by
  obtain ⟨hchecked, -, -, body, hbody, -⟩ := loadKvFromFile_eq_some_iff.mp h
  exact ⟨hchecked.file, hchecked.room, (bodyPart_eq_some hbody).2⟩

theorem loadKvFromFile_whole {io : ReadIo} (hio : io.NoFailure) {f : List UInt8}
    (hf : WholeFile f) (hlt : fullSize f < 2 ^ 64) (outTokens : Bool) {cap : ℕ}
    (hcap : (KVCacheFileHeader.decode f).bodyBytes.toNat ≤ cap) :
    loadKvFromFile io (some f) outTokens cap = some (loadedOf outTokens f) :=
  loadKvFromFile_ok hio (hf.accepted hlt) hlt outTokens hcap

/-- What a load with room for its body accepts. -/
theorem loadKvFromFile_iff {io : ReadIo} (hio : io.NoFailure) {f : List UInt8} {outTokens : Bool}
    {cap : ℕ} {kv : LoadedKv} (hcap : cap < 2 ^ 63) :
    loadKvFromFile io (some f) outTokens cap = some kv ↔
      WholeFile f ∧ (KVCacheFileHeader.decode f).bodyBytes.toNat ≤ cap ∧
        kv = loadedOf outTokens f := by
  constructor
  · intro h
    obtain ⟨haccepted, hbody, -⟩ := loadKvFromFile_fits h
    have hlt : fullSize f < 2 ^ 64 := fullSize_lt (lt_of_le_of_lt hbody hcap)
    have hwhole := haccepted.whole hlt
    rw [loadKvFromFile_whole hio hwhole hlt outTokens hbody] at h
    exact ⟨hwhole, hbody, (Option.some.inj h).symm⟩
  · rintro ⟨hwhole, hbody, rfl⟩
    exact loadKvFromFile_whole hio hwhole (fullSize_lt (lt_of_le_of_lt hbody hcap)) outTokens hbody

/-- Without tokens the pointer to them does not matter. -/
theorem saveKvToFile_pointer (io : SaveIo) (fs : FileSystem) (path : String)
    (hdr : KVCacheFileHeader) {tokens : List UInt32} {pointer : Option (List UInt32)}
    (h : pointer.getD [] = tokens) (body : List UInt8) (bodyBytes : ℕ) :
    saveKvToFile io fs path hdr pointer tokens.length body bodyBytes =
      saveKvToFile io fs path hdr (some tokens) tokens.length body bodyBytes := by
  cases pointer with
  | some words =>
    obtain rfl : words = tokens := h
    rfl
  | none =>
    obtain rfl : [] = tokens := h
    simp [saveKvToFile]

/-- What was saved is loaded again, and nothing else is loaded. -/
theorem load_accepts_saved (sio : SaveIo) (rio : ReadIo) (hsave : sio.NoFailure)
    (hread : rio.NoFailure) :
    (∀ (args : SaveArgs) (pointer : Option (List UInt32)) (fs : FileSystem) (path : String)
      (kvCapacity : ℕ), args.hdr.magic = kvcacheMagic → args.hdr.version = kvcacheVersion →
      pointer.getD [] = args.tokens → args.body.length ≤ kvCapacity →
      ∃ fs', saveKvToFile sio fs path args.hdr pointer args.tokens.length args.body
          args.body.length = (true, fs') ∧
        loadKvFromFile rio (fs' path) true kvCapacity = some ⟨args.hdr, args.tokens, args.body⟩) ∧
    ∀ (f : List UInt8) (outTokens : Bool) (c : ℕ) (kv : LoadedKv), c < 2 ^ 63 →
      (loadKvFromFile rio (some f) outTokens c = some kv ↔
        ∃ (hdr : KVCacheFileHeader) (tokens : List UInt32) (body : List UInt8),
          hdr.magic = kvcacheMagic ∧ hdr.version = kvcacheVersion ∧
            hdr.usedTokens.toNat = tokens.length ∧ hdr.bodyBytes.toNat = body.length ∧
            body.length ≤ c ∧ f = image hdr tokens body ∧
            kv = ⟨hdr, if outTokens then tokens else [], body⟩) := by
  constructor
  · intro args pointer fs path kvCapacity hmagic hversion hpointer hcap
    rw [saveKvToFile_pointer sio fs path args.hdr hpointer,
      saveKvToFile_ok hsave fs path args.body args.tokens_eq args.body_eq]
    refine ⟨_, rfl, ?_⟩
    have hfile : ((fs.set (path ++ ".tmp") none).set path
        (some (image args.hdr args.tokens args.body))) path = some args.image := by
      simp [FileSystem.set, SaveArgs.image]
    have hwhole : WholeFile args.image :=
      wholeFile_image hmagic hversion args.tokens_eq args.body_eq
    have hlt : fullSize args.image < 2 ^ 64 := by
      have hfits := args.fits
      rw [← hwhole.length, args.image_length]
      omega
    have hbody : (KVCacheFileHeader.decode args.image).bodyBytes.toNat ≤ kvCapacity := by
      rw [SaveArgs.image, decode_image, args.body_eq]
      exact hcap
    rw [hfile, loadKvFromFile_whole hread hwhole hlt true hbody, args.loadedOf_image]
    rfl
  · intro f outTokens c kv hc
    rw [loadKvFromFile_iff hread hc]
    constructor
    · rintro ⟨hwhole, hbody, rfl⟩
      have hlen := hwhole.length
      unfold fullSize at hlen
      have hbodyLen : (bodyOf f).length = (KVCacheFileHeader.decode f).bodyBytes.toNat :=
        field_length (by omega)
      refine ⟨.decode f, tokensOf f, bodyOf f, hwhole.magic, hwhole.version, ?_, hbodyLen.symm, ?_,
        hwhole.image_eq.symm, rfl⟩
      · rw [tokensOf, toU32s_length]
      · rw [hbodyLen]
        exact hbody
    · rintro ⟨hdr, tokens, body, hmagic, hversion, htokens, hbodyLen, hle, rfl, rfl⟩
      refine ⟨wholeFile_image hmagic hversion htokens hbodyLen, ?_, ?_⟩
      · rw [decode_image, hbodyLen]
        exact hle
      · rw [loadedOf, decode_image, tokensOf_image _ htokens, bodyOf_image _ htokens hbodyLen]

/-- Every call transfers one byte, the header aside. -/
def byteWrites : SaveIo := ⟨true, size, fun _ => 1, fun _ => 1, true, true⟩

def byteReads : ReadIo := ⟨true, size, true, true, fun _ => 1, fun _ => 1⟩

theorem byteWrites_noFailure : byteWrites.NoFailure :=
  ⟨rfl, rfl, fun _ => Nat.one_pos, fun _ => Nat.one_pos, rfl, rfl⟩

theorem byteReads_noFailure : byteReads.NoFailure :=
  ⟨rfl, rfl, rfl, rfl, fun _ => Nat.one_pos, fun _ => Nat.one_pos⟩

theorem load_accepts_saved_bytewise :
    ∃ after, saveKvToFile byteWrites (fun _ => none) "c.bin" (oneTokenSave 7 9).hdr (some [7]) 1 [9] 1 =
        (true, after) ∧
      loadKvFromFile byteReads (after "c.bin") true 1 = some ⟨(oneTokenSave 7 9).hdr, [7], [9]⟩ :=
  (load_accepts_saved byteWrites byteReads byteWrites_noFailure byteReads_noFailure).1
    (oneTokenSave 7 9) (some [7]) (fun _ => none) "c.bin" 1 rfl rfl rfl le_rfl

/-! ### The peek -/

/-- The peek and a load with a buffer of the size in the header succeed together, on the
files that are as long as their headers say. -/
def PeekAgrees (pio lio : ReadIo) (f : List UInt8) : Prop :=
  ((peekKvHeader pio (some f)).isSome ↔ WholeFile f) ∧
    ∀ outTokens, ((loadKvFromFile lio (some f) outTokens
      (KVCacheFileHeader.decode f).bodyBytes.toNat).isSome ↔ WholeFile f)

/-- The size in the header wraps around to the length of the file. -/
structure WrappedSize (f : List UInt8) : Prop where
  accepted : FileAccepted f
  wraps : 2 ^ 64 ≤ fullSize f

theorem peekKvHeader_isSome {io : ReadIo} (hio : io.NoFailure) {f : List UInt8} :
    (peekKvHeader io (some f)).isSome ↔ FileAccepted f := by
  constructor
  · intro h
    obtain ⟨hdr, hpeek⟩ := Option.isSome_iff_exists.mp h
    obtain ⟨f', hfile, haccepted, -⟩ := peekKvHeader_eq_some hpeek
    obtain rfl := Option.some.inj hfile
    exact haccepted
  · intro haccepted
    rw [peekKvHeader_ok hio haccepted]
    rfl

/-- A load is not deceived: it would have to read what is not there. -/
theorem loadKvFromFile_isSome {io : ReadIo} (hio : io.NoFailure) {f : List UInt8}
    (hlen : f.length < 2 ^ 63) (outTokens : Bool) :
    (loadKvFromFile io (some f) outTokens (KVCacheFileHeader.decode f).bodyBytes.toNat).isSome ↔
      WholeFile f := by
  constructor
  · intro h
    obtain ⟨kv, hload⟩ := Option.isSome_iff_exists.mp h
    obtain ⟨haccepted, -, hfits⟩ := loadKvFromFile_fits hload
    refine haccepted.whole ?_
    rcases Nat.eq_zero_or_pos (KVCacheFileHeader.decode f).bodyBytes.toNat with hzero | hpos
    · exact fullSize_lt (by omega)
    · have hle := hfits hpos
      omega
  · intro hwhole
    have hlt : fullSize f < 2 ^ 64 := by
      rw [← hwhole.length]
      omega
    rw [loadKvFromFile_whole hio hwhole hlt outTokens le_rfl]
    rfl

/-- The peek agrees with the load on every file but those whose size wraps. -/
theorem peekAgrees_iff (pio lio : ReadIo) (hpeek : pio.NoFailure) (hload : lio.NoFailure)
    (f : List UInt8) (hlen : f.length < 2 ^ 63) : PeekAgrees pio lio f ↔ ¬ WrappedSize f := by
  have hloads := loadKvFromFile_isSome hload hlen
  constructor
  · rintro ⟨hwhole, -⟩ hwrapped
    have hexact := (hwhole.mp ((peekKvHeader_isSome hpeek).mpr hwrapped.accepted)).length
    have hwraps := hwrapped.wraps
    omega
  · intro hwrapped
    refine ⟨?_, hloads⟩
    rw [peekKvHeader_isSome hpeek]
    constructor
    · intro haccepted
      refine haccepted.whole ?_
      by_contra hwraps
      exact hwrapped ⟨haccepted, by omega⟩
    · intro hwhole
      refine hwhole.accepted ?_
      rw [← hwhole.length]
      omega

theorem peekAgrees_iff_bytewise :
    PeekAgrees byteReads byteReads (oneTokenSave 7 9).image ↔
      ¬ WrappedSize (oneTokenSave 7 9).image :=
  peekAgrees_iff byteReads byteReads byteReads_noFailure byteReads_noFailure _
    (by rw [SaveArgs.image_length]; exact (oneTokenSave 7 9).fits)

/-- A header alone, of one token and a body of all but four bytes of the address space. -/
def bareHeader : KVCacheFileHeader :=
  ⟨kvcacheMagic, kvcacheVersion, 1, 1, 1, 1, 1, 1, 0xFFFFFFFFFFFFFFFC, .replicate 32 0,
    .replicate 56 0⟩

/-- The peek accepts it, for the sizes add up to 128 modulo 2^64. -/
theorem peek_accepts_wrapped_size : ¬ ∀ (pio lio : ReadIo), pio.NoFailure → lio.NoFailure →
    ∀ f : List UInt8, f.length < 2 ^ 63 → PeekAgrees pio lio f := by
  intro h
  have hdecode : KVCacheFileHeader.decode bareHeader.encode = bareHeader := by
    simpa using KVCacheFileHeader.decode_encode bareHeader []
  have hlen : bareHeader.encode.length = 128 := bareHeader.encode_length
  obtain ⟨hpeek, -⟩ := h byteReads byteReads byteReads_noFailure byteReads_noFailure
    bareHeader.encode (by omega)
  have haccepted : FileAccepted bareHeader.encode := by
    refine ⟨hlen.ge, ?_, ?_, ?_⟩ <;> rw [hdecode]
    · rfl
    · rfl
    · rw [hlen]
      decide
  have hwhole := hpeek.mp ((peekKvHeader_isSome byteReads_noFailure).mpr haccepted)
  have hexact := hwhole.length
  rw [hlen, fullSize, hdecode] at hexact
  revert hexact
  decide

end JLLM
