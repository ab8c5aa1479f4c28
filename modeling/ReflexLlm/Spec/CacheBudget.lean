import Mathlib.Data.Int.Basic

/-! The cache directory of `src/persistence/kv_cache_file.cpp`: `list_kv_files` and
`enforce_kv_cache_budget`. What `unlink` answers is an argument. -/

namespace JLLM

/-- A name in a directory, with what the calls on it answer. -/
structure DirEntry where
  name : String
  isRegularFile : Bool
  /-- `st_mtime` and `st_size`. -/
  stat : Option (ℤ × ℕ)
  size_lt : ∀ mtime size, stat = some (mtime, size) → size < 0x8000000000000000

/-- A directory; its names are distinct. -/
structure Directory where
  path : String
  entries : List DirEntry
  nodup : (entries.map DirEntry.name).Nodup

/-- `CacheEntry`. -/
structure CacheEntry where
  path : String
  mtime : ℤ
  sizeBytes : ℕ
deriving DecidableEq, Repr

/-- The path of a name, as `directory_iterator` gives it. -/
def Directory.join (dir : Directory) (name : String) : String :=
  if dir.path.toList.getLast? = some '/' then dir.path ++ name else dir.path ++ ("/" ++ name)

/-- `p.extension() == suffix`, for a dot and letters: a name that is nothing else has no
extension. -/
def hasExtension (name suffix : String) : Bool :=
  suffix.toList <:+ name.toList && decide (name ≠ suffix)

/-- The body of the loop over the directory. -/
def DirEntry.cacheEntry (dir : Directory) (suffix : String) (de : DirEntry) : Option CacheEntry :=
  if de.isRegularFile = false then none
  else if hasExtension de.name suffix = false then none
  else de.stat.map fun st => ⟨dir.join de.name, st.1, st.2⟩

/-- `list_kv_files`. -/
def listKvFiles (dir : Directory) (suffix : String) : List CacheEntry :=
  dir.entries.filterMap (DirEntry.cacheEntry dir suffix)

/-- The sum in an `int64_t`; `none` when it overflows. -/
def addSizes : ℕ → List CacheEntry → Option ℕ
  | total, [] => some total
  | total, e :: rest =>
      if total + e.sizeBytes < 0x8000000000000000 then addSizes (total + e.sizeBytes) rest else none

/-- `std::sort` by `mtime`: files of one time may come in any order. -/
structure OldestFirst where
  sort : List CacheEntry → List CacheEntry
  perm : ∀ entries, (sort entries).Perm entries
  sorted : ∀ entries, (sort entries).Pairwise fun a b => a.mtime ≤ b.mtime

/-- The loop that evicts: the calls of `unlink`, with what they answer. -/
def evictLoop (maxBytes : ℤ) (keepPath : String) (unlinkOk : String → Bool) :
    ℤ → List CacheEntry → List (CacheEntry × Bool)
  | _, [] => []
  | total, e :: rest =>
      if total ≤ maxBytes then []
      else if e.path = keepPath then evictLoop maxBytes keepPath unlinkOk total rest
      else if unlinkOk e.path then
        (e, true) :: evictLoop maxBytes keepPath unlinkOk (total - e.sizeBytes) rest
      else (e, false) :: evictLoop maxBytes keepPath unlinkOk total rest

/-- `enforce_kv_cache_budget`; `none` when the total overflows. -/
def enforceKvCacheBudget (order : OldestFirst) (dir : Directory) (maxBytes : ℤ) (keepPath : String)
    (unlinkOk : String → Bool) : Option (List (CacheEntry × Bool)) :=
  if maxBytes ≤ 0 then some []
  else
    let entries := listKvFiles dir ".bin"
    match addSizes 0 entries with
    | none => none
    | some total =>
        some (if (total : ℤ) ≤ maxBytes then []
          else evictLoop maxBytes keepPath unlinkOk total (order.sort entries))

/-- `cleanup_stale_tmp_files` at time `now`: the files that it unlinks. -/
def cleanupStaleTmpFiles (dir : Directory) (now maxAgeSeconds : ℤ) : List CacheEntry :=
  if maxAgeSeconds ≤ 0 then []
  else (listKvFiles dir ".tmp").filter fun e => maxAgeSeconds ≤ now - e.mtime

end JLLM
