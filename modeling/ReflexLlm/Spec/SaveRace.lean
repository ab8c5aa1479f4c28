import Mathlib.Logic.Function.Basic
import ReflexLlm.Lib.Runs
import ReflexLlm.Spec.KvCacheFile

/-! Saves and a load of one cache path, system call by system call:
`save_kv_to_file` and `load_kv_from_file` of `src/persistence/kv_cache_file.cpp` in
processes that share the directory. A name refers to an inode, a descriptor keeps its
inode and its own offset. What a call answers is part of its event. -/

namespace JLLM

open LittleEndian

/-- The arguments of a save that passes its checks on them. The buffers fit in memory. -/
structure SaveArgs where
  hdr : KVCacheFileHeader
  tokens : List UInt32
  body : List UInt8
  body_eq : hdr.bodyBytes.toNat = body.length
  tokens_eq : hdr.usedTokens.toNat = tokens.length
  fits : KVCacheFileHeader.size + 4 * tokens.length + body.length < 2 ^ 63

/-- The inodes behind the two names that a save uses. -/
structure SharedDir where
  inode : ℕ → List UInt8
  next : ℕ
  tmp : Option ℕ
  path : Option ℕ

/-- `write` at an offset; a gap reads as zeros. -/
def writeAt (file : List UInt8) (off : ℕ) (bytes : List UInt8) : List UInt8 :=
  file.take off ++ List.replicate (off - file.length) 0 ++ bytes ++ file.drop (off + bytes.length)

def SharedDir.write (d : SharedDir) (ino off : ℕ) (bytes : List UInt8) : SharedDir :=
  { d with inode := Function.update d.inode ino (writeAt (d.inode ino) off bytes) }

/-- `open(tmp_path, O_WRONLY | O_CREAT | O_TRUNC)`: the inode behind the descriptor. -/
def SharedDir.openTmp (d : SharedDir) : ℕ × SharedDir :=
  match d.tmp with
  | some ino => (ino, { d with inode := Function.update d.inode ino [] })
  | none =>
      (d.next, { d with
        inode := Function.update d.inode d.next []
        next := d.next + 1
        tmp := some d.next })

/-- The call that a save makes next. -/
inductive SavePc where
  | «open»
  | header (ino : ℕ)
  | tokens (ino written : ℕ)
  | body (ino written : ℕ)
  | fsync (ino : ℕ)
  | rename
  | unlink
  | done (ok : Bool)
deriving DecidableEq

/-- What a call of a save answers. `write n` accepts `n` bytes of what it is given; zero
is an error. -/
inductive SaveCall where
  | «open» (ok : Bool)
  | write (n : ℕ)
  | fsync (ok : Bool)
  | rename (ok : Bool)
  | unlink (ok : Bool)

/-- The second `write_all` has a call to make unless the body is empty. -/
def SaveArgs.toBody (args : SaveArgs) (ino : ℕ) : SavePc :=
  if args.body = [] then .fsync ino else .body ino 0

def SaveArgs.toTokens (args : SaveArgs) (ino : ℕ) : SavePc :=
  if args.tokens = [] then args.toBody ino else .tokens ino 0

/-- One call of `save_kv_to_file`; `none` when it is not the call that comes next. The
descriptor is closed after the last call that uses it. -/
def saveStep (args : SaveArgs) (d : SharedDir) : SavePc → SaveCall → Option (SharedDir × SavePc)
  | .open, .open false => some (d, .done false)
  | .open, .open true => some (d.openTmp.2, .header d.openTmp.1)
  | .header ino, .write n =>
      let d := d.write ino 0 (args.hdr.encode.take n)
      some (d, if n < KVCacheFileHeader.size then .unlink else args.toTokens ino)
  | .tokens ino written, .write n =>
      let bytes := field (u32s args.tokens) written n
      let d := d.write ino (KVCacheFileHeader.size + written) bytes
      some (d,
        if bytes = [] then .unlink
        else if written + bytes.length < 4 * args.tokens.length then
          .tokens ino (written + bytes.length)
        else args.toBody ino)
  | .body ino written, .write n =>
      let bytes := field args.body written n
      let d := d.write ino (KVCacheFileHeader.size + 4 * args.tokens.length + written) bytes
      some (d,
        if bytes = [] then .unlink
        else if written + bytes.length < args.body.length then .body ino (written + bytes.length)
        else .fsync ino)
  | .fsync _, .fsync ok => some (d, if ok then .rename else .unlink)
  | .rename, .rename ok =>
      match d.tmp with
      | some ino =>
          some (if ok then ({ d with tmp := none, path := some ino }, .done true) else (d, .unlink))
      | none => some (d, .unlink)
  | .unlink, .unlink ok => some (if ok then { d with tmp := none } else d, .done false)
  | _, _ => none

/-- The call that a load makes next, with what it has read. -/
inductive LoadPc where
  | «open»
  | header (ino : ℕ)
  | fstat (ino : ℕ) (hdr : KVCacheFileHeader)
  | tokens (ino : ℕ) (hdr : KVCacheFileHeader) (got : List UInt8)
  | lseek (ino : ℕ) (hdr : KVCacheFileHeader)
  | body (ino : ℕ) (hdr : KVCacheFileHeader) (tokens : List UInt32) (got : List UInt8)
  | failed
  | loaded (kv : LoadedKv)

/-- What a call of a load answers. `read n` delivers at most `n` bytes. -/
inductive LoadCall where
  | «open» (ok : Bool)
  | read (n : ℕ)
  | fstat (ok : Bool)
  | lseek (ok : Bool)

/-- The last `read_all` has a call to make unless the body is empty. -/
def loadBody (ino : ℕ) (hdr : KVCacheFileHeader) (tokens : List UInt32) : LoadPc :=
  if hdr.bodyBytes = 0 then .loaded ⟨hdr, tokens, []⟩ else .body ino hdr tokens []

/-- One call of `load_kv_from_file`; the descriptor's offset is what it has read. -/
def loadStep (outTokens : Bool) (kvCapacity : ℕ) (d : SharedDir) : LoadPc → LoadCall → Option LoadPc
  | .open, .open ok =>
      match d.path with
      | some ino => some (if ok then .header ino else .failed)
      | none => some .failed
  | .header ino, .read n =>
      let bytes := field (d.inode ino) 0 (min n KVCacheFileHeader.size)
      let hdr := KVCacheFileHeader.decode bytes
      some (
        if bytes.length < KVCacheFileHeader.size then .failed
        else if hdr.magic ≠ kvcacheMagic then .failed
        else if hdr.version ≠ kvcacheVersion then .failed
        else if kvCapacity < hdr.bodyBytes.toNat then .failed
        else .fstat ino hdr)
  | .fstat ino hdr, .fstat ok =>
      some (
        if ok = false then .failed
        else if (d.inode ino).length ≠ hdr.expectedSize then .failed
        else if hdr.usedTokens = 0 then loadBody ino hdr []
        else if outTokens then .tokens ino hdr []
        else .lseek ino hdr)
  | .tokens ino hdr got, .read n =>
      let bytes := field (d.inode ino) (KVCacheFileHeader.size + got.length)
        (min n (hdr.tokensBytes - got.length))
      let got := got ++ bytes
      some (
        if bytes = [] then .failed
        else if got.length < hdr.tokensBytes then .tokens ino hdr got
        else loadBody ino hdr (toU32s hdr.usedTokens.toNat got))
  | .lseek ino hdr, .lseek ok => some (if ok then loadBody ino hdr [] else .failed)
  | .body ino hdr tokens got, .read n =>
      let bytes := field (d.inode ino) (KVCacheFileHeader.size + hdr.tokensBytes + got.length)
        (min n (hdr.bodyBytes.toNat - got.length))
      let got := got ++ bytes
      some (
        if bytes = [] then .failed
        else if got.length < hdr.bodyBytes.toNat then .body ino hdr tokens got
        else .loaded ⟨hdr, tokens, got⟩)
  | _, _ => none

/-- Saves `W` of one path, and a load of it. -/
structure SaveRaceState (W : Type) where
  dir : SharedDir
  saver : W → SavePc
  loader : LoadPc

inductive SaveRaceEvent (W : Type) where
  | save (w : W) (call : SaveCall)
  | load (call : LoadCall)

/-- One call of one of them. -/
def saveRaceStep {W : Type} [DecidableEq W] (saves : W → SaveArgs) (outTokens : Bool)
    (kvCapacity : ℕ) (s : SaveRaceState W) : SaveRaceEvent W → Option (SaveRaceState W)
  | .save w call =>
      (saveStep (saves w) s.dir (s.saver w) call).map fun r =>
        { s with dir := r.1, saver := Function.update s.saver w r.2 }
  | .load call =>
      (loadStep outTokens kvCapacity s.dir s.loader call).map fun pc => { s with loader := pc }

/-- Nobody has made a call yet; the names, where they exist, have inodes of their own. -/
structure SaveRaceState.Initial {W : Type} (s : SaveRaceState W) : Prop where
  saver : ∀ w, s.saver w = .open
  loader : s.loader = .open
  tmp_lt : ∀ ino, s.dir.tmp = some ino → ino < s.dir.next
  path_lt : ∀ ino, s.dir.path = some ino → ino < s.dir.next
  apart : ∀ ino, s.dir.tmp = some ino → s.dir.path ≠ some ino

end JLLM
