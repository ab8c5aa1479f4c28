import ReflexLlm.Lib.LittleEndian

/-! The persistent cache file of `src/persistence/kv_cache_file.cpp`: the 128-byte
header, `save_kv_to_file`, `load_kv_from_file` and `peek_kv_header`. A file is
its bytes; what the system calls do (short transfers, failures) is an argument. -/

namespace JLLM

open LittleEndian

def kvcacheMagic : UInt32 := 0x4D4C4C4A

def kvcacheVersion : UInt32 := 2

/-- `KVCacheFileHeader`, packed to 128 bytes on disk. -/
structure KVCacheFileHeader where
  magic : UInt32
  version : UInt32
  nLayers : UInt32
  nKvHeads : UInt32
  headDim : UInt32
  kvTypeBytes : UInt32
  maxContext : UInt32
  usedTokens : UInt32
  bodyBytes : UInt64
  modelHash : Vector UInt8 32
  reserved : Vector UInt8 56
deriving DecidableEq

namespace KVCacheFileHeader

/-- `sizeof(KVCacheFileHeader)`. -/
def size : ℕ := 128

/-- The header as written by `write(fd, &hdr, sizeof(hdr))`. -/
def encode (h : KVCacheFileHeader) : List UInt8 :=
  u32 h.magic ++ u32 h.version ++ u32 h.nLayers ++ u32 h.nKvHeads ++ u32 h.headDim ++
    u32 h.kvTypeBytes ++ u32 h.maxContext ++ u32 h.usedTokens ++ u64 h.bodyBytes ++
    h.modelHash.toList ++ h.reserved.toList

/-- The header that `read(fd, &hdr, sizeof(hdr))` leaves in memory. -/
def decode (f : List UInt8) : KVCacheFileHeader where
  magic := toU32 (field f 0 4)
  version := toU32 (field f 4 4)
  nLayers := toU32 (field f 8 4)
  nKvHeads := toU32 (field f 12 4)
  headDim := toU32 (field f 16 4)
  kvTypeBytes := toU32 (field f 20 4)
  maxContext := toU32 (field f 24 4)
  usedTokens := toU32 (field f 28 4)
  bodyBytes := toU64 (field f 32 8)
  modelHash := Vector.ofFn fun i => f.getD (40 + i.val) 0
  reserved := Vector.ofFn fun i => f.getD (72 + i.val) 0

/-- `(size_t)hdr.used_tokens * sizeof(uint32_t)`. -/
def tokensBytes (h : KVCacheFileHeader) : ℕ := h.usedTokens.toNat * 4

/-- The size the loaders compare with the file's: a `size_t` sum, which wraps. -/
def expectedSize (h : KVCacheFileHeader) : ℕ :=
  (size + h.tokensBytes + h.bodyBytes.toNat) % 2 ^ 64

end KVCacheFileHeader

/-- The directory's files by path. -/
abbrev FileSystem := String → Option (List UInt8)

def FileSystem.set (fs : FileSystem) (path : String) (file : Option (List UInt8)) : FileSystem :=
  fun q => if q = path then file else fs q

/-- Outcomes of the system calls of one save. A transfer count is what the call
at that offset of the buffer accepts; zero is an error. -/
structure SaveIo where
  openOk : Bool
  headerWrite : ℕ
  tokenWrite : ℕ → ℕ
  bodyWrite : ℕ → ℕ
  fsyncOk : Bool
  renameOk : Bool

/-- Every call of the save succeeds; data may still go out in pieces. -/
structure SaveIo.NoFailure (io : SaveIo) : Prop where
  opened : io.openOk = true
  header : io.headerWrite = KVCacheFileHeader.size
  tokens : ∀ w, 0 < io.tokenWrite w
  body : ∀ w, 0 < io.bodyWrite w
  synced : io.fsyncOk = true
  renamed : io.renameOk = true

/-- Outcomes of the system calls of one load or peek. -/
structure ReadIo where
  openOk : Bool
  headerRead : ℕ
  fstatOk : Bool
  lseekOk : Bool
  tokenRead : ℕ → ℕ
  bodyRead : ℕ → ℕ

/-- Every call of the load succeeds; data may still come in pieces. -/
structure ReadIo.NoFailure (io : ReadIo) : Prop where
  opened : io.openOk = true
  header : io.headerRead = KVCacheFileHeader.size
  statted : io.fstatOk = true
  sought : io.lseekOk = true
  tokens : ∀ w, 0 < io.tokenRead w
  body : ∀ w, 0 < io.bodyRead w

/-- `write_all`: whether everything was written, and the file so far. -/
def writeAll (accept : ℕ → ℕ) (file buf : List UInt8) (written : ℕ) : Bool × List UInt8 :=
  if written < buf.length then
    let n := min (accept written) (buf.length - written)
    if n = 0 then (false, file)
    else writeAll accept (file ++ field buf written n) buf (written + n)
  else (true, file)
termination_by buf.length - written
decreasing_by omega

/-- `read_all` of `want` bytes from the descriptor's position, where the rest of
the file is `file`; a call at the end of the file delivers nothing. -/
def readAll (deliver : ℕ → ℕ) (file : List UInt8) (got want : ℕ) : Option (List UInt8) :=
  if got < want then
    let n := min (deliver got) (min (want - got) (file.length - got))
    if n = 0 then none
    else (readAll deliver file (got + n) want).map fun rest => field file got n ++ rest
  else some []
termination_by want - got
decreasing_by omega

/-- `save_kv_to_file`. The two pointers come with their element counts; a null
`tokens` is `none`. -/
def saveKvToFile (io : SaveIo) (fs : FileSystem) (path : String) (hdr : KVCacheFileHeader)
    (tokens : Option (List UInt32)) (nTokens : ℕ) (hostKv : List UInt8) (bodyBytes : ℕ) :
    Bool × FileSystem :=
  if hdr.bodyBytes.toNat ≠ bodyBytes then (false, fs)
  else if hdr.usedTokens.toNat ≠ nTokens then (false, fs)
  else if 0 < nTokens ∧ tokens = none then (false, fs)
  else
    let tmpPath := path ++ ".tmp"
    if io.openOk = false then (false, fs)
    else if io.headerWrite ≠ KVCacheFileHeader.size then (false, fs.set tmpPath none)
    else
      let afterTokens :=
        if 0 < nTokens then
          writeAll io.tokenWrite hdr.encode (u32s ((tokens.getD []).take nTokens)) 0
        else (true, hdr.encode)
      if afterTokens.1 = false then (false, fs.set tmpPath none)
      else
        let afterBody := writeAll io.bodyWrite afterTokens.2 (hostKv.take bodyBytes) 0
        if afterBody.1 = false then (false, fs.set tmpPath none)
        else if io.fsyncOk = false then (false, fs.set tmpPath none)
        else if io.renameOk = false then (false, fs.set tmpPath none)
        else (true, (fs.set tmpPath none).set path (some afterBody.2))

/-- What a successful load hands back: the header, the tokens (when asked for)
and the body bytes at the start of the caller's buffer. -/
structure LoadedKv where
  hdr : KVCacheFileHeader
  tokens : List UInt32
  body : List UInt8

/-- `load_kv_from_file` on the file that `open` found. -/
def loadKvFromFile (io : ReadIo) (file : Option (List UInt8)) (outTokens : Bool)
    (kvCapacity : ℕ) : Option LoadedKv :=
  match file with
  | none => none
  | some f =>
      if io.openOk = false then none
      else if min io.headerRead f.length < KVCacheFileHeader.size then none
      else
        let hdr := KVCacheFileHeader.decode f
        if hdr.magic ≠ kvcacheMagic then none
        else if hdr.version ≠ kvcacheVersion then none
        else if kvCapacity < hdr.bodyBytes.toNat then none
        else if io.fstatOk = false then none
        else if f.length ≠ hdr.expectedSize then none
        else
          let rest := f.drop KVCacheFileHeader.size
          let tokens :=
            if outTokens then
              if 0 < hdr.usedTokens.toNat then
                (readAll io.tokenRead rest 0 hdr.tokensBytes).map (toU32s hdr.usedTokens.toNat)
              else some []
            else if 0 < hdr.tokensBytes ∧ io.lseekOk = false then none
            else some []
          tokens.bind fun tokens =>
            (readAll io.bodyRead (rest.drop hdr.tokensBytes) 0 hdr.bodyBytes.toNat).map fun body =>
              ⟨hdr, tokens, body⟩

/-- `peek_kv_header` on the file that `open` found. -/
def peekKvHeader (io : ReadIo) (file : Option (List UInt8)) : Option KVCacheFileHeader :=
  match file with
  | none => none
  | some f =>
      if io.openOk = false then none
      else if min io.headerRead f.length < KVCacheFileHeader.size then none
      else
        let hdr := KVCacheFileHeader.decode f
        if hdr.magic ≠ kvcacheMagic then none
        else if hdr.version ≠ kvcacheVersion then none
        else if io.fstatOk = false then none
        else if f.length ≠ hdr.expectedSize then none
        else some hdr

/-- `validate_conversation_id`. -/
def validateConversationId (id : String) : Bool :=
  if id.isEmpty then true
  else if 64 < id.utf8ByteSize then false
  else id.toList.all fun c =>
    ('a' ≤ c && c ≤ 'z') || ('A' ≤ c && c ≤ 'Z') || ('0' ≤ c && c ≤ '9') || c == '_' || c == '-'

/-- `path_for_conv_id`. -/
def pathForConvId (dir convId : String) : String :=
  if dir.isEmpty || convId.isEmpty then ""
  else if dir.toList.getLast? = some '/' then dir ++ convId ++ ".bin"
  else dir ++ "/" ++ convId ++ ".bin"

end JLLM
