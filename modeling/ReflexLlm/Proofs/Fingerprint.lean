import ReflexLlm.Lib.StreamHash
import ReflexLlm.Proofs.Hydrate
import ReflexLlm.Spec.Fingerprint

/-! A model whose size or head differs in one byte has another fingerprint: a round of
FNV-1a can be undone, since the prime is odd. -/

namespace JLLM

open LittleEndian (u64 toU64_u64)
open StreamHash
open KVCacheFileHeader (decode)

/-- The inverse of the prime modulo 2^64. -/
def fnvPrimeInverse : UInt64 := 0xce965057aff6957b

theorem fnvPrime_mul_inverse : fnvPrime * fnvPrimeInverse = 1 := by decide

theorem mul_fnvPrime_injective : Function.Injective (· * fnvPrime) := by
  intro x y h
  have hback : ∀ z : UInt64, z * fnvPrime * fnvPrimeInverse = z := fun z => by
    rw [UInt64.mul_assoc, fnvPrime_mul_inverse, UInt64.mul_one]
  rw [← hback x, ← hback y]
  exact congrArg (· * fnvPrimeInverse) h

theorem fnvRound_reversible : Reversible fun h (b : UInt8) => fnvRound h b.toUInt64 where
  state _ _ _ heq := (UInt64.xor_left_inj _).mp (mul_fnvPrime_injective heq)
  input _ _ _ heq := UInt8.toUInt64_inj.mp ((UInt64.xor_right_inj _).mp (mul_fnvPrime_injective heq))

/-- The bytes that are mixed: those of the size, the lowest first, then the head. -/
def fingerprintInput (sz : UInt64) (head : Vector UInt8 256) : List UInt8 := u64 sz ++ head.toList

/-- Byte `i` of the size, as the first loop cuts it out. -/
theorem sizeByte_eq (sz : UInt64) (i : ℕ) (hi : i < 8) :
    (sz >>> UInt64.ofNat (i * 8)) &&& 0xFF = (UInt8.ofNat (sz.toNat / 256 ^ i)).toUInt64 := by
  apply UInt64.toNat_inj.mp
  have hshift : (UInt64.ofNat (i * 8)).toNat % 64 = i * 8 := by
    rw [UInt64.toNat_ofNat']
    omega
  have hpow : 2 ^ (i * 8) = 256 ^ i := by rw [Nat.mul_comm, Nat.pow_mul]
  rw [UInt64.toNat_and, UInt64.toNat_shiftRight, hshift, Nat.shiftRight_eq_div_pow, hpow]
  exact (Nat.and_two_pow_sub_one_eq_mod _ 8).trans (by simp)

theorem encode_eq_map (k n : ℕ) :
    LittleEndian.encode k n = (List.range k).map fun i => UInt8.ofNat (n / 256 ^ i) := by
  induction k generalizing n with
  | zero => rfl
  | succ k ih =>
    rw [LittleEndian.encode, ih, List.range_succ_eq_map, List.map_cons, List.map_map, pow_zero,
      Nat.div_one]
    refine congrArg _ (List.map_congr_left fun i _ => ?_)
    rw [Function.comp, Nat.pow_succ', Nat.div_div_eq_div_mul]

/-- Both loops are one over the input. -/
theorem fnvHash_eq (sz : UInt64) (head : Vector UInt8 256) :
    fnvHash sz head =
      (fingerprintInput sz head).foldl (fun h b => fnvRound h b.toUInt64) fnvOffset := by
  have hsize : (List.range 8).foldl
      (fun h i => fnvRound h ((sz >>> UInt64.ofNat (i * 8)) &&& 0xFF)) fnvOffset =
      (u64 sz).foldl (fun h b => fnvRound h b.toUInt64) fnvOffset := by
    rw [u64, encode_eq_map, List.foldl_map]
    refine List.foldl_ext _ _ _ fun h i hi => ?_
    rw [sizeByte_eq sz i (List.mem_range.mp hi)]
  rw [fingerprintInput, List.foldl_append, ← hsize]
  rfl

theorem outHash_injective : Function.Injective outHash := by
  intro h h' heq
  have hbytes : u64 h ++ List.replicate 24 0 = u64 h' ++ List.replicate 24 0 :=
    congrArg Vector.toList heq
  rw [← toU64_u64 h, ← toU64_u64 h', List.append_cancel_right hbytes]

/-- The bytes that are mixed for a model file. -/
def fileInput (gguf : List UInt8) : List UInt8 :=
  fingerprintInput (UInt64.ofNat gguf.length) (Vector.ofFn fun i => gguf.getD i 0)

/-- A fingerprint that is computed is the hash of the file's size and head. -/
theorem computeModelFingerprint_eq_true {io : FingerprintIo} {gguf : List UInt8}
    {hash : Vector UInt8 32} (h : computeModelFingerprint io (some gguf) = (true, hash)) :
    hash = outHash (fnvHash (UInt64.ofNat gguf.length) (Vector.ofFn fun i => gguf.getD i 0)) := by
  simp only [computeModelFingerprint] at h
  split_ifs at h <;> cases h
  rfl

/-- A cache with another fingerprint is not read. -/
theorem tryHydrateKv_otherModel {io : HydrateIo} {dir : String} {fs : FileSystem}
    {fingerprint : Vector UInt8 32} {p : KVCachePool} {promptTokens : List UInt32} {convId : String}
    {f : List UInt8} (hfile : fs (pathForConvId dir convId) = some f)
    (hother : (decode f).modelHash ≠ fingerprint) :
    tryHydrateKv io dir fs fingerprint p promptTokens convId = .returned 0 p := by
  have hpeek : hydratePeek io.peek p fingerprint (some f) = none := by
    cases hpeek : hydratePeek io.peek p fingerprint (some f) with
    | none => rfl
    | some hdr =>
      obtain ⟨f', hf', haccepted, -⟩ := hydratePeek_eq_some hpeek
      obtain rfl := Option.some.inj hf'
      have hcompatible := haccepted.compatible
      rw [compatibleHeader, decide_eq_false hother] at hcompatible
      cases hcompatible
  simp only [tryHydrateKv, hfile, hpeek, ite_self]

theorem fnvHash_ne {sz sz' : UInt64} {head head' : Vector UInt8 256}
    (hdiff : DiffersOnce (fingerprintInput sz head) (fingerprintInput sz' head')) :
    fnvHash sz head ≠ fnvHash sz' head' := by
  rw [fnvHash_eq, fnvHash_eq]
  exact fnvRound_reversible.foldl_ne hdiff fnvOffset

/-- Inputs that differ in one byte have other hashes, and two models whose sizes and heads
do never take each other's caches. -/
theorem fingerprint_detects_byte :
    (∀ (sz sz' : UInt64) (head head' : Vector UInt8 256),
      DiffersOnce (fingerprintInput sz head) (fingerprintInput sz' head') →
      fnvHash sz head ≠ fnvHash sz' head') ∧
    ∀ (io io' : FingerprintIo) (gguf gguf' : List UInt8) (hash hash' : Vector UInt8 32),
      computeModelFingerprint io (some gguf) = (true, hash) →
      computeModelFingerprint io' (some gguf') = (true, hash') →
      DiffersOnce (fileInput gguf) (fileInput gguf') →
      ∀ (hio : HydrateIo) (dir : String) (fs : FileSystem) (p : KVCachePool)
        (promptTokens : List UInt32) (convId : String) (f : List UInt8),
        fs (pathForConvId dir convId) = some f → (decode f).modelHash = hash →
        tryHydrateKv hio dir fs hash' p promptTokens convId = .returned 0 p := by
  refine ⟨fun sz sz' head head' hdiff => fnvHash_ne hdiff, ?_⟩
  intro io io' gguf gguf' hash hash' hhash hhash' hdiff hio dir fs p promptTokens convId f hfile hsaved
  refine tryHydrateKv_otherModel hfile ?_
  rw [hsaved, computeModelFingerprint_eq_true hhash, computeModelFingerprint_eq_true hhash']
  exact outHash_injective.ne (fnvHash_ne hdiff)

/-- A model of 256 bytes, all but the first of them zero. -/
def zeroModel (b : UInt8) : List UInt8 := b :: List.replicate 255 0

theorem zeroModel_length (b : UInt8) : (zeroModel b).length = 256 := by
  rw [zeroModel, List.length_cons, List.length_replicate]

theorem zeroModel_input (b : UInt8) : fileInput (zeroModel b) = u64 256 ++ zeroModel b := by
  have hhead : (Vector.ofFn fun i : Fin 256 => (zeroModel b).getD i 0).toList = zeroModel b := by
    refine List.ext_getElem (by simp [zeroModel_length]) fun i hi hi' => ?_
    simp [List.getElem?_eq_getElem hi']
  rw [fileInput, fingerprintInput, hhead, zeroModel_length]
  rfl

theorem zeroModel_hash (b : UInt8) :
    computeModelFingerprint ⟨true, true, 256⟩ (some (zeroModel b)) =
      (true, (computeModelFingerprint ⟨true, true, 256⟩ (some (zeroModel b))).2) := by
  simp [computeModelFingerprint, zeroModel_length]

theorem turnImage_modelHash (p : KVCachePool) (hash : Vector UInt8 32) (kvTokens : List UInt32) :
    (decode (turnImage p hash kvTokens)).modelHash = hash := by
  rw [turnImage_decode]
  rfl

/-- The cache of a model of zeros and a model that starts with a one. -/
theorem fingerprint_detects_byte_first :
    tryHydrateKv wholeHydrate "kv"
        (fun _ => some (turnImage smallOverflowPool
          (computeModelFingerprint ⟨true, true, 256⟩ (some (zeroModel 0))).2 [7, 8, 9]))
        (computeModelFingerprint ⟨true, true, 256⟩ (some (zeroModel 1))).2
        smallOverflowPool [7, 8, 9] "chat" =
      .returned 0 smallOverflowPool :=
  have hdiff : DiffersOnce (fileInput (zeroModel 0)) (fileInput (zeroModel 1)) := by
    rw [zeroModel_input, zeroModel_input]
    exact differsOnce_append (u64 256) (List.replicate 255 0) (by decide)
  fingerprint_detects_byte.2 ⟨true, true, 256⟩ ⟨true, true, 256⟩ _ _ _ _ (zeroModel_hash 0)
    (zeroModel_hash 1) hdiff wholeHydrate "kv" _ smallOverflowPool _ "chat" _ rfl
    (turnImage_modelHash smallOverflowPool _ [7, 8, 9])

end JLLM
