import ReflexLlm.Lib.Runs
import ReflexLlm.Spec.Hydrate

/-! One `try_hydrate_kv` call beside other processes. The cache path is a register
that a rename replaces and an unlink empties; each open of the call sees one
version, and keeps reading it whatever happens to the path afterwards. -/

namespace JLLM

/-- Where the call is. -/
inductive HydratePhase where
  | start
  /-- The peek is done and its checks passed. -/
  | peeked (hdr : KVCacheFileHeader)
  /-- The peek or its checks failed. -/
  | cold
  /-- The load opened `version` and the call has ended. -/
  | loaded (hdr : KVCacheFileHeader) (version : Option (List UInt8)) (result : HydrateResult)

structure RaceState where
  path : Option (List UInt8)
  phase : HydratePhase

inductive RaceEvent where
  /-- Another process renames a file over the path. -/
  | rename (version : List UInt8)
  /-- Another process removes the file. -/
  | unlink
  /-- The call opens the path, peeks at the header and checks it. -/
  | openForPeek
  /-- The call opens the path again, loads, compacts and scatters. -/
  | openForLoad

/-- The call's own steps and its environment's. -/
def raceStep (io : HydrateIo) (fingerprint : Vector UInt8 32) (p : KVCachePool)
    (promptTokens : List UInt32) (s : RaceState) : RaceEvent → Option RaceState
  | .rename version => some { s with path := some version }
  | .unlink => some { s with path := none }
  | .openForPeek =>
      match s.phase with
      | .start =>
          some { s with
            phase := match hydratePeek io.peek p fingerprint s.path with
              | none => .cold
              | some hdr => .peeked hdr }
      | _ => none
  | .openForLoad =>
      match s.phase with
      | .peeked hdr =>
          some { s with phase := .loaded hdr s.path (hydrateLoad io p promptTokens hdr s.path) }
      | _ => none

/-- The steps as a relation. -/
def RaceStep (io : HydrateIo) (fingerprint : Vector UInt8 32) (p : KVCachePool)
    (promptTokens : List UInt32) (s : RaceState) (e : RaceEvent) (s' : RaceState) : Prop :=
  raceStep io fingerprint p promptTokens s e = some s'

end JLLM
