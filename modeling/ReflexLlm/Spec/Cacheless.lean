import ReflexLlm.Spec.Generate

/-! Decoding without a cache: what a turn is meant to compute. Every token is sampled
from the hidden state of the whole context, and nothing is kept but the context. -/

namespace JLLM

/-- The prompt with the tokens generated so far. -/
structure CachelessState (G : Type) where
  context : List UInt32
  rng : G
  recentTokens : List Int32
  delivered : List Int32

section

variable {W R L P G : Type} (hidden : List UInt32 → R) (e : Engine W R L P G) (env : TurnEnv)
  (params : GenParams P)

/-- Sample the next token, with the hidden state of the last position of a context. -/
def cachelessStep (a : CachelessState G) : CachelessState G × Int32 :=
  let t := e.sampleToken (e.logits (hidden a.context)) params.sampling a.recentTokens a.rng
  (⟨a.context ++ [t.1.toUInt32], t.2, pushRecent a.recentTokens t.1, a.delivered ++ [t.1]⟩, t.1)

/-- Sample up to `n` tokens from iteration `i` on, until the end token, a stop, the
context limit or the memory guard. -/
def cachelessLoop (limit : ℕ) : ℕ → ℕ → CachelessState G → CachelessState G
  | 0, _, a => a
  | n + 1, i, a =>
      if env.stop i then a
      else if limit ≤ a.context.length - 1 then a
      else if env.memOk (a.context.length - 1) = false then a
      else
        let next := cachelessStep hidden e params a
        if next.2 = e.eosId then next.1 else cachelessLoop limit n (i + 1) next.1

/-- A turn whose first token is sampled unconditionally. -/
def cachelessTurn (limit : ℕ) (promptTokens : List UInt32) (rng : G) : CachelessState G :=
  let first := cachelessStep hidden e params ⟨promptTokens, rng, [], []⟩
  if first.2 = e.eosId then first.1
  else cachelessLoop hidden e env params limit (params.maxTokens - 1).toNat 1 first.1

end

end JLLM
