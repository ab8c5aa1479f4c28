import ReflexLlm.Lib.LittleEndian
import ReflexLlm.Spec.Tokenizer

/-! The loops of `pretokenize_ascii` of `src/engine/tokenizer.cpp` with their cursor, one
iteration of the outer loop at a time. -/

namespace JLLM

open LittleEndian (field)

/-- `while (i < text.size() && p(text[i])) i++;` -/
def advanceWhile (p : UInt8 → Bool) (text : List UInt8) (i : ℕ) : ℕ :=
  if h : i < text.length then
    if p text[i] then advanceWhile p text (i + 1) else i
  else i
termination_by text.length - i

/-- The loop over `contractions`: the cursor behind the first one that the text has at
`i + 1`. -/
def contractionEnd (text : List UInt8) (i : ℕ) : Option ℕ :=
  contractions.findSome? fun c =>
    if i + 1 + c.length ≤ text.length ∧ field text (i + 1) c.length = c then some (i + (c.length + 1))
    else none

/-- The cursor behind the optional space. -/
def skipSpace (text : List UInt8) (i : ℕ) : ℕ :=
  if text[i]? = some 0x20 ∧ i + 1 < text.length ∧ (text[i + 1]?.map isSpace) = some false then i + 1
  else i

/-- The four inner loops. -/
def skipClass (text : List UInt8) (i : ℕ) : ℕ :=
  if (text[i]?.map isAlpha) = some true then advanceWhile isAlpha text i
  else if (text[i]?.map isDigit) = some true then advanceWhile isDigit text i
  else if (text[i]?.map isSpace) = some false then
    advanceWhile (fun b => !isSpace b && !isAlpha b && !isDigit b) text i
  else advanceWhile isSpace text i

/-- The cursor after one iteration that starts at `i`. -/
def nextPiece (text : List UInt8) (i : ℕ) : ℕ :=
  let past := if text[i]? = some 0x27 ∧ i + 1 < text.length then contractionEnd text i else none
  match past with
  | some j => j
  | none => skipClass text (skipSpace text i)

/-- The outer loop with room for `fuel` iterations; `none` when it is not done by then. -/
def pretokenizeLoop (text : List UInt8) : ℕ → ℕ → List (List UInt8) → Option (List (List UInt8))
  | 0, i, out => if i < text.length then none else some out
  | fuel + 1, i, out =>
      if i < text.length then
        let j := nextPiece text i
        pretokenizeLoop text fuel j (out ++ [field text i (j - i)])
      else some out

end JLLM
