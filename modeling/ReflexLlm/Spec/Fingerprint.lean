import ReflexLlm.Lib.LittleEndian

/-! `compute_model_fingerprint` of `src/persistence/kv_cache_file.cpp`: FNV-1a of the
size of the model file and its first 256 bytes. -/

namespace JLLM

/-- `FNV_OFFSET`. -/
def fnvOffset : UInt64 := 0xcbf29ce484222325

/-- `FNV_PRIME`. -/
def fnvPrime : UInt64 := 0x100000001b3

/-- The two statements of both loops. -/
def fnvRound (h b : UInt64) : UInt64 := (h ^^^ b) * fnvPrime

/-- The loop over the size and the loop over the head of the file. -/
def fnvHash (sz : UInt64) (head : Vector UInt8 256) : UInt64 :=
  let h := (List.range 8).foldl
    (fun h i => fnvRound h ((sz >>> UInt64.ofNat (i * 8)) &&& 0xFF)) fnvOffset
  head.toList.foldl (fun h b => fnvRound h b.toUInt64) h

/-- `out_hash` after `memset` and `memcpy`. -/
def outHash (h : UInt64) : Vector UInt8 32 :=
  ⟨(LittleEndian.u64 h ++ List.replicate 24 0).toArray, by simp⟩

/-- Outcomes of the system calls of one fingerprint. -/
structure FingerprintIo where
  openOk : Bool
  fstatOk : Bool
  headRead : ℕ

/-- `compute_model_fingerprint` of the file that `open` found; with failure the hash
stays zero. -/
def computeModelFingerprint (io : FingerprintIo) (file : Option (List UInt8)) :
    Bool × Vector UInt8 32 :=
  let zero := Vector.replicate 32 0
  match file with
  | none => (false, zero)
  | some f =>
      if io.openOk = false then (false, zero)
      else if io.fstatOk = false then (false, zero)
      else if f.length < 256 then (false, zero)
      else if min io.headRead (min 256 f.length) ≠ 256 then (false, zero)
      else (true, outHash (fnvHash (UInt64.ofNat f.length) (Vector.ofFn fun i => f.getD i 0)))

end JLLM
