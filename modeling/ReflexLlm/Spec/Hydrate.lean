import ReflexLlm.Spec.KvCache
import ReflexLlm.Spec.KvCacheFile

/-! The two ends of a persisted turn: `Engine::try_hydrate_kv` and the save that
closes `Engine::generate`. Hydration opens the cache file twice, for the peek and
for the load, so the two contents are separate arguments of its two halves. A
throw from the staging vector and a read past its end are outcomes of their own. -/

namespace JLLM

open ByteMem

/-- Outcomes of the calls made by one `try_hydrate_kv`. -/
structure HydrateIo where
  peek : ReadIo
  load : ReadIo
  cuda : ℕ → Bool

structure HydrateIo.NoFailure (io : HydrateIo) : Prop where
  peek : io.peek.NoFailure
  load : io.load.NoFailure
  cuda : ∀ i, io.cuda i = true

/-- How `try_hydrate_kv` ends. -/
inductive HydrateResult where
  /-- It returns the matched length; the pool is as it leaves it. -/
  | returned (matched : ℕ) (pool : KVCachePool)
  /-- A vector constructor throws `std::length_error`. -/
  | threw
  /-- `memcpy` reads past the end of the staging buffer. -/
  | outOfBounds

/-- `std::vector<uint8_t>::max_size()`. -/
def vectorMaxSize : ℕ := 2 ^ 63 - 1

/-- `(int)x` for a `uint32_t`. -/
def asInt (x : UInt32) : ℤ := x.toInt32.toInt

/-- The fingerprint and shape checks on the peeked header. -/
def compatibleHeader (hdr : KVCacheFileHeader) (fingerprint : Vector UInt8 32) (c : Config) : Bool :=
  decide (hdr.modelHash = fingerprint) &&
    (decide (asInt hdr.nLayers = c.nLayers) && decide (asInt hdr.nKvHeads = c.nKvHeads) &&
      decide (asInt hdr.headDim = c.headDim) && decide (asInt hdr.maxContext = c.maxContext) &&
      decide (asInt hdr.kvTypeBytes = c.kvTypeBytes))

/-- Everything up to the load: the peek, the compatibility checks and the bound
on the token count. `none` means cold prefill. -/
def hydratePeek (io : ReadIo) (p : KVCachePool) (fingerprint : Vector UInt8 32)
    (file : Option (List UInt8)) : Option KVCacheFileHeader :=
  match peekKvHeader io file with
  | none => none
  | some hdr =>
      if compatibleHeader hdr fingerprint p.cfg = false then none
      else if hdr.usedTokens = 0 ∨ p.cfg.maxContext < hdr.usedTokens.toNat then none
      else some hdr

/-- The longest-common-prefix loop. -/
def commonPrefix : List UInt32 → List UInt32 → ℕ
  | c :: cached, t :: prompt => if c = t then commonPrefix cached prompt + 1 else 0
  | _, _ => 0

/-- The two `memcpy`s that compact one layer read inside the staging buffer. -/
def compactInBounds (c : Config) (usedTokens matched stagingSize l : ℕ) : Bool :=
  let eb := 2 * c.nKvHeads * c.headDim * c.kvTypeBytes
  let halfEb := eb / 2
  let srcKeys := l * (usedTokens * eb)
  let srcVals := srcKeys + usedTokens * halfEb
  let matchedKeysBytes := matched * halfEb
  decide (srcKeys + matchedKeysBytes ≤ stagingSize) && decide (srcVals + matchedKeysBytes ≤ stagingSize)

/-- The two `memcpy`s that compact one layer. -/
def compactLayer (c : Config) (usedTokens matched : ℕ) (staging compact : Mem) (l : ℕ) : Mem :=
  let eb := 2 * c.nKvHeads * c.headDim * c.kvTypeBytes
  let halfEb := eb / 2
  let matchedKeysBytes := matched * halfEb
  let srcKeys := l * (usedTokens * eb)
  let srcVals := srcKeys + usedTokens * halfEb
  let dstKeys := l * (matched * eb)
  let dstVals := dstKeys + matchedKeysBytes
  staging.copy srcVals (staging.copy srcKeys compact dstKeys matchedKeysBytes) dstVals matchedKeysBytes

/-- The compaction loop over the layers; `none` is an out-of-bounds read. -/
def compactBody (c : Config) (usedTokens matched stagingSize : ℕ) (staging : Mem) : Option Mem :=
  (List.range c.nLayers).foldlM
    (fun compact l =>
      if compactInBounds c usedTokens matched stagingSize l
      then some (compactLayer c usedTokens matched staging compact l) else none)
    fun _ => 0

/-- Everything from the staging buffer on, given the peeked header. The staging
buffer is zero-initialised and the loaded body fills its start. -/
def hydrateLoad (io : HydrateIo) (p : KVCachePool) (promptTokens : List UInt32)
    (hdr : KVCacheFileHeader) (file : Option (List UInt8)) : HydrateResult :=
  if vectorMaxSize < hdr.bodyBytes.toNat then .threw
  else
    match loadKvFromFile io.load file true hdr.bodyBytes.toNat with
    | none => .returned 0 p
    | some loaded =>
        if loaded.tokens.length ≠ hdr.usedTokens.toNat then .returned 0 p
        else
          let matched := commonPrefix loaded.tokens promptTokens
          if matched = 0 then .returned 0 p
          else
            match compactBody p.cfg hdr.usedTokens.toNat matched hdr.bodyBytes.toNat
                (ofBytes loaded.body) with
            | none => .outOfBounds
            | some compact =>
                let scattered := p.scatterFromHost io.cuda compact matched true
                if scattered.1 = false then .returned 0 scattered.2
                else .returned matched scattered.2

/-- `try_hydrate_kv` when nobody else writes the directory between its two
opens. Token ids are compared as `uint32_t`. -/
def tryHydrateKv (io : HydrateIo) (dir : String) (fs : FileSystem) (fingerprint : Vector UInt8 32)
    (p : KVCachePool) (promptTokens : List UInt32) (convId : String) : HydrateResult :=
  if convId.isEmpty || !validateConversationId convId then .returned 0 p
  else if promptTokens.isEmpty then .returned 0 p
  else
    let path := pathForConvId dir convId
    match hydratePeek io.peek p fingerprint (fs path) with
    | none => .returned 0 p
    | some hdr => hydrateLoad io p promptTokens hdr (fs path)

/-- The header `generate` fills in for `committed` tokens. -/
def turnHeader (p : KVCachePool) (fingerprint : Vector UInt8 32) (committed : ℕ) :
    KVCacheFileHeader where
  magic := kvcacheMagic
  version := kvcacheVersion
  nLayers := UInt32.ofNat p.cfg.nLayers
  nKvHeads := UInt32.ofNat p.cfg.nKvHeads
  headDim := UInt32.ofNat p.cfg.headDim
  kvTypeBytes := UInt32.ofNat p.cfg.kvTypeBytes
  maxContext := UInt32.ofNat p.cfg.maxContext
  usedTokens := UInt32.ofNat committed
  bodyBytes := UInt64.ofNat (p.packedUsedBytes committed)
  modelHash := fingerprint
  reserved := Vector.replicate 56 0

/-- Gather the committed rows and save them with their tokens. -/
def gatherAndSave (cuda : ℕ → Bool) (io : SaveIo) (fs : FileSystem) (path : String)
    (fingerprint : Vector UInt8 32) (p : KVCachePool) (kvTokens : List UInt32) :
    Bool × FileSystem :=
  let committed := kvTokens.length
  let packedBytes := p.packedUsedBytes committed
  let gathered := p.gatherUsedToHost cuda (fun _ => 0) committed
  if gathered.1 = false then (false, fs)
  else
    saveKvToFile io fs path (turnHeader p fingerprint committed) (some kvTokens) committed
      (gathered.2.read 0 packedBytes) packedBytes

/-- Outcomes of the calls made by the save at turn end. `removed` is what the
stale-file and budget clean-up after a successful save unlinks. -/
structure SaveTurnIo where
  dirOk : Bool
  cuda : ℕ → Bool
  save : SaveIo
  removed : String → Bool

structure SaveTurnIo.NoFailure (io : SaveTurnIo) : Prop where
  dir : io.dirOk = true
  cuda : ∀ i, io.cuda i = true
  save : io.save.NoFailure

def minTokensToSave : ℕ := 4

/-- The save at turn end with its skip rules: whether a file was written, and
the directory after it. -/
def saveTurn (io : SaveTurnIo) (dir : String) (fs : FileSystem) (fingerprint : Vector UInt8 32)
    (p : KVCachePool) (convId : String) (kvInt8 : Bool) (kvTokens : List UInt32) :
    Bool × FileSystem :=
  if convId.isEmpty || !validateConversationId convId then (false, fs)
  else if kvTokens.length < minTokensToSave then (false, fs)
  else if p.cfg.maxContext < kvTokens.length then (false, fs)
  else if kvInt8 then (false, fs)
  else if io.dirOk = false then (false, fs)
  else
    let saved := gatherAndSave io.cuda io.save fs (pathForConvId dir convId) fingerprint p kvTokens
    if saved.1 then (true, fun q => if io.removed q then none else saved.2 q)
    else saved

end JLLM
