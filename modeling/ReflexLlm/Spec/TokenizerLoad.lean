import ReflexLlm.Spec.GgufConfig
import ReflexLlm.Spec.Tokenizer

/-! `Tokenizer::load_from_gguf` of `src/engine/tokenizer.cpp`: a walk of its own through the
metadata pairs, which reads seven keys and skips the rest. Allocations succeed up to
`maxAlloc`; past it they throw, which ends the load. -/

namespace JLLM

open ByteStream Reader LittleEndian

section

variable (f : Stream) (maxAlloc : ℕ)

/-- `vocab[t].resize(str_len)` and the read into it; `old` is the vocabulary before. -/
def readToken (old : List (List UInt8)) :
    Option (List (List UInt8)) → Reader (Option (List (List UInt8)))
  | none => return none
  | some vocab => do
      let strLen ← u64 f
      if maxAlloc < strLen.toNat then return none
      else do
        let tok ← fread f strLen.toNat fun i => (old.getD vocab.length []).getD i 0
        return some (vocab ++ [tok])

/-- The two sides of a merge: what stands in front of the first space, and behind it. -/
def mergePair (merge : List UInt8) : Option (List UInt8 × List UInt8) :=
  if ' '.toUInt8 ∈ merge then
    some (merge.takeWhile (· ≠ ' '.toUInt8), (merge.dropWhile (· ≠ ' '.toUInt8)).tail)
  else none

/-- `bpe_ranks_[bpe_key(left, right)] = (int)m`. -/
def addMerge (ranks : List (List UInt8 × ℤ)) (m : ℕ) (merge : List UInt8) :
    List (List UInt8 × ℤ) :=
  match mergePair merge with
  | some (left, right) => (bpeKey left right, toInt m) :: ranks
  | none => ranks

/-- The body of the loop over the merges; the number of those that were read goes along. -/
def readMerge : Option (ℕ × List (List UInt8 × ℤ)) →
    Reader (Option (ℕ × List (List UInt8 × ℤ)))
  | none => return none
  | some (m, ranks) => do
      let strLen ← u64 f
      if maxAlloc < strLen.toNat then return none
      else do
        let merge ← zeroed f strLen.toNat
        return some (m + 1, addMerge ranks m merge)

/-- The bytes of an `int`. -/
def intBytes (v : ℤ) : List UInt8 := LittleEndian.u32 (.ofNat (v % 0x100000000).toNat)

/-- `fread` of an `int` over the one that is there. -/
def readInt (old : ℤ) : Reader ℤ := do
  let bytes ← fread f 4 fun i => (intBytes old).getD i 0
  return (toU32 bytes).toInt32.toInt

/-- A `uint8_t`, as a flag. -/
def readFlag : Reader Bool := do
  let bytes ← zeroed f 1
  return decide (bytes.headD 0 ≠ 0)

def readTokens (t : Tokenizer) : Reader (Option Tokenizer) := do
  let _arrType ← u32 f
  let arrLen ← u64 f
  if maxAlloc < arrLen.toNat then return none
  else do
    let vocab ← loop arrLen.toNat (readToken f maxAlloc t.vocab) (some [])
    return vocab.map fun vocab => { t with vocab := vocab }

def readMerges (t : Tokenizer) : Reader (Option Tokenizer) := do
  let _arrType ← u32 f
  let arrLen ← u64 f
  if maxAlloc < arrLen.toNat then return none
  else do
    let merges ← loop arrLen.toNat (readMerge f maxAlloc) (some (0, []))
    return merges.map fun merges => { t with bpeRanks := merges.2 }

def readModel (t : Tokenizer) : Reader (Option Tokenizer) := do
  let strLen ← u64 f
  if maxAlloc < strLen.toNat then return none
  else do
    let model ← zeroed f strLen.toNat
    return some { t with byteEncode := decide (model = ascii "gpt2" ∨ model = ascii "qwen2") }

/-- A value that is not read; the elements of an array count as strings or as four bytes. -/
def skipTokenizerValue (vtype : UInt32) : Reader Unit :=
  if vtype = 0 ∨ vtype = 1 ∨ vtype = 7 then seek f 1
  else if vtype = 2 ∨ vtype = 3 then seek f 2
  else if vtype = 4 ∨ vtype = 5 ∨ vtype = 6 then seek f 4
  else if vtype = 8 then skipString f
  else if vtype = 9 then do
    let atype ← u32 f
    let alen ← u64 f
    loop alen.toNat (fun _ => if atype = 8 then skipString f else seek f 4) ()
  else seek f 8

/-- The value behind a key. -/
def readTokenizerValue (t : Tokenizer) (key : List UInt8) (vtype : UInt32) :
    Reader (Option Tokenizer) :=
  if key = ascii "tokenizer.ggml.tokens" ∧ vtype = 9 then readTokens f maxAlloc t
  else if key = ascii "tokenizer.ggml.merges" ∧ vtype = 9 then readMerges f maxAlloc t
  else if key = ascii "tokenizer.ggml.model" ∧ vtype = 8 then readModel f maxAlloc t
  else if key = ascii "tokenizer.ggml.bos_token_id" ∧ vtype = 4 then do
    let bosId ← readInt f t.bosId
    return some { t with bosId := bosId }
  else if key = ascii "tokenizer.ggml.eos_token_id" ∧ vtype = 4 then do
    let eosId ← readInt f t.eosId
    return some { t with eosId := eosId }
  else if key = ascii "tokenizer.ggml.add_bos_token" ∧ vtype = 7 then do
    let v ← readFlag f
    return some { t with addBos := v }
  else if key = ascii "tokenizer.ggml.add_eos_token" ∧ vtype = 7 then do
    let v ← readFlag f
    return some { t with addEos := v }
  else do
    skipTokenizerValue f vtype
    return some t

/-- The body of the loop over the pairs; behind a key that is too long only the type is
skipped. -/
def readTokenizerPair : Option Tokenizer → Reader (Option Tokenizer)
  | none => return none
  | some t => do
      let keyLen ← u64 f
      if 1024 < keyLen.toNat then do
        seek f keyLen
        seek f 4
        return some t
      else do
        let key ← zeroed f keyLen.toNat
        let vtype ← u32 f
        readTokenizerValue f maxAlloc t (bufferString key) vtype

/-- The header and the metadata; `none` when an allocation throws. -/
def readTokenizer (t : Tokenizer) : Reader (Option (Bool × Tokenizer)) := do
  let magic ← u32 f
  let _version ← u32 f
  let _nTensors ← u64 f
  let nKv ← u64 f
  if magic ≠ 0x46554747 then return some (false, t)
  else do
    let t ← loop nKv.toNat (readTokenizerPair f maxAlloc) (some t)
    return t.map fun t => (!t.vocab.isEmpty, t)

/-- `load_from_gguf` of a file that can be opened, into a tokenizer that nothing was loaded
into yet: what it returns, and the tokenizer. -/
def loadFromGguf : Option (Bool × Tokenizer) := (readTokenizer f maxAlloc {} .start).1

end

end JLLM
