import ReflexLlm.Spec.SaveRace

/-! One run of `save_kv_to_file` of `src/persistence/kv_cache_file.cpp` from its arguments:
the checks, then the system calls one after the other. A process that stops leaves the
directory as the calls so far have made it. -/

namespace JLLM

open Runs

/-- The arguments. The buffers hold what the counts say, and fit in memory. -/
structure SaveRequest where
  hdr : KVCacheFileHeader
  tokens : Option (List UInt32)
  nTokens : ℕ
  hostKv : List UInt8
  bodyBytes : ℕ
  tokens_le : ∀ words, tokens = some words → nTokens ≤ words.length
  body_le : bodyBytes ≤ hostKv.length
  fits : KVCacheFileHeader.size + 4 * nTokens + bodyBytes < 2 ^ 63

namespace SaveRequest

/-- The checks on the arguments. -/
def args (r : SaveRequest) : Option SaveArgs :=
  if hbody : r.hdr.bodyBytes.toNat ≠ r.bodyBytes then none
  else if htokens : r.hdr.usedTokens.toNat ≠ r.nTokens then none
  else if hnull : 0 < r.nTokens ∧ r.tokens = none then none
  else
    have hlen : ((r.tokens.getD []).take r.nTokens).length = r.nTokens := by
      rw [List.length_take]
      cases hwords : r.tokens with
      | some words => exact Nat.min_eq_left (r.tokens_le words hwords)
      | none =>
        have hzero : r.nTokens = 0 := by
          by_contra hne
          exact hnull ⟨Nat.pos_of_ne_zero hne, hwords⟩
        simp [hzero]
    have hbodyLen : (r.hostKv.take r.bodyBytes).length = r.bodyBytes := by
      rw [List.length_take]
      exact Nat.min_eq_left r.body_le
    some
      { hdr := r.hdr
        tokens := (r.tokens.getD []).take r.nTokens
        body := r.hostKv.take r.bodyBytes
        body_eq := by rw [hbodyLen]; exact not_not.mp hbody
        tokens_eq := by rw [hlen]; exact not_not.mp htokens
        fits := by rw [hlen, hbodyLen]; exact r.fits }

/-- Arguments that do not pass end the save before its first call. -/
def start (r : SaveRequest) : SavePc := if r.args.isSome then .open else .done false

end SaveRequest

/-- The next call. -/
def saveRunStep (r : SaveRequest) (s : SharedDir × SavePc) (call : SaveCall) :
    Option (SharedDir × SavePc) :=
  r.args.bind fun args => saveStep args s.1 s.2 call

/-- The calls so far. -/
def saveRun (r : SaveRequest) (before : SharedDir) (calls : List SaveCall) :
    Option (SharedDir × SavePc) :=
  exec (saveRunStep r) (before, r.start) calls

end JLLM
