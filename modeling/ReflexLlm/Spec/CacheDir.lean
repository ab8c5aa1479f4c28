import ReflexLlm.Spec.CacheBudget
import ReflexLlm.Spec.SaveRace

/-! The cache directory as its processes share it: saves and loads of any conversations, call by
call, the files that `enforce_kv_cache_budget` and `cleanup_stale_tmp_files` of
`src/persistence/kv_cache_file.cpp` unlink, and processes that stop between two calls. -/

namespace JLLM

/-- An id under which turns are saved. -/
structure ConvId where
  id : String
  nonempty : id.isEmpty = false
  valid : validateConversationId id = true
deriving DecidableEq

/-- What `default_kv_cache_dir` answers. -/
structure CacheRoot where
  path : String
  nonempty : path.isEmpty = false

def CacheRoot.pathFor (root : CacheRoot) (conv : ConvId) : String :=
  pathForConvId root.path conv.id

/-- The names, and the inodes behind them. -/
structure CacheDir where
  inode : ℕ → List UInt8
  next : ℕ
  name : String → Option ℕ

/-- The part that a save or load of one path uses. -/
def CacheDir.view (d : CacheDir) (path : String) : SharedDir :=
  { inode := d.inode, next := d.next, tmp := d.name (path ++ ".tmp"), path := d.name path }

/-- The directory with that part as a call left it. -/
def CacheDir.put (d : CacheDir) (path : String) (s : SharedDir) : CacheDir :=
  { inode := s.inode, next := s.next,
    name := Function.update (Function.update d.name (path ++ ".tmp") s.tmp) path s.path }

def CacheDir.unlink (d : CacheDir) (name : String) : CacheDir :=
  { d with name := Function.update d.name name none }

/-- A save of a conversation. -/
structure ConvSave where
  conv : ConvId
  args : SaveArgs

/-- A load of a conversation, with the arguments of `load_kv_from_file`. -/
structure ConvLoad where
  conv : ConvId
  outTokens : Bool
  kvCapacity : ℕ

/-- Saves `W` and loads `L` of one directory. -/
structure CacheDirState (W L : Type) where
  dir : CacheDir
  saver : W → SavePc
  loader : L → LoadPc

inductive CacheDirEvent (W L : Type) where
  | save (w : W) (call : SaveCall)
  | load (l : L) (call : LoadCall)
  /-- The process of a save stops. -/
  | stop (w : W)
  /-- An eviction. -/
  | evict (name : String)
  /-- An unlink of `cleanup_stale_tmp_files`. -/
  | clean (name : String)

section

variable {W L : Type} [DecidableEq W] [DecidableEq L]
variable (root : CacheRoot) (saves : W → ConvSave) (loads : L → ConvLoad)

def cacheDirStep (s : CacheDirState W L) : CacheDirEvent W L → Option (CacheDirState W L)
  | .save w call =>
      let path := root.pathFor (saves w).conv
      (saveStep (saves w).args (s.dir.view path) (s.saver w) call).map fun r =>
        { s with dir := s.dir.put path r.1, saver := Function.update s.saver w r.2 }
  | .load l call =>
      (loadStep (loads l).outTokens (loads l).kvCapacity
        (s.dir.view (root.pathFor (loads l).conv)) (s.loader l) call).map fun pc =>
          { s with loader := Function.update s.loader l pc }
  | .stop w => some { s with saver := Function.update s.saver w (.done false) }
  | .evict name =>
      if hasExtension name ".bin" then some { s with dir := s.dir.unlink name } else none
  | .clean name =>
      if hasExtension name ".tmp" then some { s with dir := s.dir.unlink name } else none

end

/-- Nobody has made a call yet; what the directory holds is arbitrary. -/
structure CacheDirState.Initial {W L : Type} (s : CacheDirState W L) : Prop where
  saver : ∀ w, s.saver w = .open
  loader : ∀ l, s.loader l = .open
  lt : ∀ name ino, s.dir.name name = some ino → ino < s.dir.next
  apart : ∀ name name' ino, s.dir.name name = some ino → s.dir.name name' = some ino → name = name'

end JLLM
