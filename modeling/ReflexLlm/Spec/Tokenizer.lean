import Mathlib.Data.List.Sort
import Mathlib.Data.Int.Basic

/-! The tokenizer of `src/engine/tokenizer.cpp` after loading: `encode`, `decode` and the
helpers they use. Strings are their bytes; a position in a string is what is left of it. -/

namespace JLLM

/-! ### Byte-level symbols -/

/-- `utf8_from_codepoint`. -/
def utf8FromCodepoint (cp : ℕ) : List UInt8 :=
  if cp ≤ 0x7F then [.ofNat cp]
  else if cp ≤ 0x7FF then [.ofNat (0xC0 + cp / 64), .ofNat (0x80 + cp % 64)]
  else if cp ≤ 0xFFFF then
    [.ofNat (0xE0 + cp / 4096), .ofNat (0x80 + cp / 64 % 64), .ofNat (0x80 + cp % 64)]
  else
    [.ofNat (0xF0 + cp / 262144), .ofNat (0x80 + cp / 4096 % 64), .ofNat (0x80 + cp / 64 % 64),
      .ofNat (0x80 + cp % 64)]

/-- `utf8_len`. -/
def utf8Len (c : UInt8) : ℕ :=
  if c &&& 0x80 = 0 then 1
  else if c &&& 0xE0 = 0xC0 then 2
  else if c &&& 0xF0 = 0xE0 then 3
  else if c &&& 0xF8 = 0xF0 then 4
  else 1

/-- The length of the next symbol: a lead byte without all of its tail stands alone. -/
def symbolLen (text : List UInt8) : ℕ :=
  match text with
  | [] => 0
  | c :: _ => if text.length < utf8Len c then 1 else utf8Len c

theorem utf8Len_pos (c : UInt8) : 0 < utf8Len c := by
  unfold utf8Len
  split_ifs <;> decide

theorem symbolLen_pos {text : List UInt8} (h : text ≠ []) : 0 < symbolLen text := by
  cases text with
  | nil => exact absurd rfl h
  | cons c text =>
    simp only [symbolLen]
    split_ifs
    · exact Nat.one_pos
    · exact utf8Len_pos c

/-- The bytes that the three loops of `byte_encoder` push: they stand for themselves. -/
def isPrintableByte (b : ℕ) : Bool :=
  (0x21 ≤ b ∧ b ≤ 0x7E) ∨ (0xA1 ≤ b ∧ b ≤ 0xAC) ∨ (0xAE ≤ b ∧ b ≤ 0xFF)

/-- The other bytes, in the order in which they are pushed behind. -/
def otherBytes : List ℕ := (List.range 256).filter fun b => !isPrintableByte b

/-- `byte_encoder`. -/
def byteEncoder (b : UInt8) : List UInt8 :=
  utf8FromCodepoint
    (if isPrintableByte b.toNat then b.toNat else 256 + otherBytes.idxOf b.toNat)

/-- `byte_decoder`; of equal symbols the last would count. -/
def byteDecoder (cp : List UInt8) : Option UInt8 :=
  ((List.range 256).map UInt8.ofNat).reverse.find? fun b => byteEncoder b = cp

/-- `encode_bytes_gpt2`. -/
def encodeBytesGpt2 (text : List UInt8) : List UInt8 := text.flatMap byteEncoder

/-- `split_utf8_symbols`. -/
def splitUtf8Symbols (text : List UInt8) : List (List UInt8) :=
  if _h : text = [] then []
  else text.take (symbolLen text) :: splitUtf8Symbols (text.drop (symbolLen text))
termination_by text.length
decreasing_by
  have hpos := symbolLen_pos _h
  have hlen := List.length_pos_iff.mpr _h
  rw [List.length_drop]
  omega

/-! ### Pretokenisation -/

/-- `isalpha` of the C locale. -/
def isAlpha (c : UInt8) : Bool := (0x41 ≤ c ∧ c ≤ 0x5A) ∨ (0x61 ≤ c ∧ c ≤ 0x7A)

/-- `isdigit`. -/
def isDigit (c : UInt8) : Bool := 0x30 ≤ c ∧ c ≤ 0x39

/-- `isspace` of the C locale. -/
def isSpace (c : UInt8) : Bool := c = 0x20 ∨ (0x09 ≤ c ∧ c ≤ 0x0D)

/-- `contractions`. -/
def contractions : List (List UInt8) :=
  [['s'], ['t'], ['r', 'e'], ['v', 'e'], ['m'], ['l', 'l'], ['d']].map (·.map Char.toUInt8)

/-- The contraction that the text begins with, with its apostrophe. -/
def contractionLen (text : List UInt8) : Option ℕ :=
  match text with
  | [] => none
  | c :: rest =>
      if c = 0x27 then (contractions.find? (· <+: rest)).map (·.length + 1) else none

/-- The run of one class at the start of the text. -/
def classRun (text : List UInt8) : ℕ :=
  match text with
  | [] => 0
  | c :: _ =>
      (if isAlpha c then text.takeWhile isAlpha
        else if isDigit c then text.takeWhile isDigit
        else if !isSpace c then text.takeWhile fun b => !isSpace b && !isAlpha b && !isDigit b
        else text.takeWhile isSpace).length

/-- A space is taken along with what follows it. -/
def leadingSpace (text : List UInt8) : ℕ :=
  match text with
  | c :: next :: _ => if c = ' '.toUInt8 ∧ isSpace next = false then 1 else 0
  | _ => 0

/-- The length of the next piece. -/
def pieceLen (text : List UInt8) : ℕ :=
  match contractionLen text with
  | some n => n
  | none => leadingSpace text + classRun (text.drop (leadingSpace text))

theorem classRun_pos {text : List UInt8} (h : text ≠ []) : 0 < classRun text := by
  cases text with
  | nil => exact absurd rfl h
  | cons c text =>
    simp only [classRun]
    split_ifs with halpha hdigit hother <;> simp_all

theorem pieceLen_pos {text : List UInt8} (h : text ≠ []) : 0 < pieceLen text := by
  unfold pieceLen
  split
  · rename_i n hn
    unfold contractionLen at hn
    split at hn
    · cases hn
    · split_ifs at hn
      obtain ⟨c, -, rfl⟩ := Option.map_eq_some_iff.mp hn
      exact Nat.succ_pos _
  · by_cases hspace : leadingSpace text = 0
    · rw [hspace, List.drop_zero]
      exact Nat.add_pos_right 0 (classRun_pos h)
    · exact Nat.add_pos_left (Nat.pos_of_ne_zero hspace) _

/-- `pretokenize_ascii`. -/
def pretokenizeAscii (text : List UInt8) : List (List UInt8) :=
  if _h : text = [] then []
  else text.take (pieceLen text) :: pretokenizeAscii (text.drop (pieceLen text))
termination_by text.length
decreasing_by
  have hpos := pieceLen_pos _h
  have hlen := List.length_pos_iff.mpr _h
  rw [List.length_drop]
  omega

/-! ### Encoding -/

/-- `(int)` of a `size_t`. -/
def toInt (n : ℕ) : ℤ :=
  if n % 0x100000000 < 0x80000000 then (n % 0x100000000 : ℕ)
  else (n % 0x100000000 : ℕ) - 0x100000000

theorem toInt_of_lt {n : ℕ} (h : n < 0x80000000) : toInt n = n := by
  unfold toInt
  rw [Nat.mod_eq_of_lt (by omega), if_pos h]

/-- `bpe_key`. -/
def bpeKey (a b : List UInt8) : List UInt8 := a ++ '\n'.toUInt8 :: b

/-- Pairs without a newline cannot share a key. -/
theorem bpeKey_inj {l r a b : List UInt8} (hl : '\n'.toUInt8 ∉ l) (hr : '\n'.toUInt8 ∉ r)
    (h : bpeKey l r = bpeKey a b) : l = a ∧ r = b := by
  rcases List.append_eq_append_iff.mp h with ⟨more, rfl, hmore⟩ | ⟨more, rfl, hmore⟩
  · cases more with
    | nil =>
      obtain ⟨-, rfl⟩ := List.cons.inj hmore
      exact ⟨(List.append_nil l).symm, rfl⟩
    | cons x more =>
      obtain ⟨-, rfl⟩ := List.cons.inj hmore
      exact absurd (by simp) hr
  · cases more with
    | nil =>
      obtain ⟨-, rfl⟩ := List.cons.inj hmore
      exact ⟨List.append_nil a, rfl⟩
    | cons x more =>
      obtain ⟨rfl, -⟩ := List.cons.inj hmore
      exact absurd (by simp) hl

/-- A pair with a newline shares its key with another. -/
theorem exists_same_key {l r : List UInt8} (h : '\n'.toUInt8 ∈ l ∨ '\n'.toUInt8 ∈ r) :
    ∃ a b, bpeKey l r = bpeKey a b ∧ ¬ (l = a ∧ r = b) := by
  rcases h with h | h
  · obtain ⟨x, y, rfl⟩ := List.append_of_mem h
    refine ⟨x, y ++ '\n'.toUInt8 :: r, by simp [bpeKey], fun heq => ?_⟩
    have hlen := congrArg List.length heq.1
    simp at hlen
  · obtain ⟨x, y, rfl⟩ := List.append_of_mem h
    refine ⟨l ++ '\n'.toUInt8 :: x, y, by simp [bpeKey], fun heq => ?_⟩
    have hlen := congrArg List.length heq.1
    simp at hlen

/-- `Tokenizer`. `bpeRanks` is a map: of equal keys the first counts. What loading derives
from `vocab` (`token_to_id_`, `special_tokens_`, `max_token_len_`) is below. -/
structure Tokenizer where
  vocab : List (List UInt8) := []
  bosId : ℤ := 1
  eosId : ℤ := 2
  bpeRanks : List (List UInt8 × ℤ) := []
  byteEncode : Bool := true
  addBos : Bool := true
  addEos : Bool := false

namespace Tokenizer

/-- The entries that `for (int i = 0; i < (int)vocab.size(); i++)` visits. -/
def entries (t : Tokenizer) : List (List UInt8 × ℕ) :=
  t.vocab.zipIdx.take (toInt t.vocab.length).toNat

/-- `token_to_id_`; of equal strings the last counts. -/
def tokenToId (t : Tokenizer) (s : List UInt8) : Option ℕ :=
  (t.entries.reverse.find? (·.1 = s)).map (·.2)

/-- What makes a token special. -/
def isSpecial (tok : List UInt8) : Bool :=
  5 ≤ tok.length ∧
    ((['<', '|'].map Char.toUInt8 <+: tok ∧ tok.drop (tok.length - 2) = ['|', '>'].map Char.toUInt8) ∨
      tok = ['<', 't', 'h', 'i', 'n', 'k', '>'].map Char.toUInt8 ∨
      tok = ['<', '/', 't', 'h', 'i', 'n', 'k', '>'].map Char.toUInt8)

/-- `special_tokens_`, the longest first. -/
def specialTokens (t : Tokenizer) : List (List UInt8 × ℕ) :=
  (t.entries.filter (isSpecial ·.1)).insertionSort fun a b => b.1.length ≤ a.1.length

theorem mem_specialTokens {t : Tokenizer} {sp : List UInt8 × ℕ} :
    sp ∈ t.specialTokens ↔ sp ∈ t.entries ∧ isSpecial sp.1 = true := by
  rw [specialTokens, List.mem_insertionSort, List.mem_filter]

theorem specialTokens_length {t : Tokenizer} {sp : List UInt8 × ℕ} (h : sp ∈ t.specialTokens) :
    0 < sp.1.length := by
  have hspecial := (mem_specialTokens.mp h).2
  rw [isSpecial] at hspecial
  have h5 := (of_decide_eq_true hspecial).1
  omega

/-- `max_token_len_`. -/
def maxTokenLen (t : Tokenizer) : ℤ :=
  t.vocab.foldl (fun m tok => max m (toInt tok.length)) 0

/-- The longest of the first `len` prefixes that is a token, with its length. -/
def longestMatch (t : Tokenizer) (text : List UInt8) : ℕ → Option (ℕ × ℕ)
  | 0 => none
  | len + 1 =>
      match t.tokenToId (text.take (len + 1)) with
      | some id => some (id, len + 1)
      | none => t.longestMatch text len

theorem longestMatch_pos {t : Tokenizer} {text : List UInt8} {n id len : ℕ}
    (h : t.longestMatch text n = some (id, len)) : 0 < len := by
  induction n with
  | zero => cases h
  | succ n ih =>
    unfold longestMatch at h
    split at h
    · obtain ⟨-, rfl⟩ := Prod.mk.inj (Option.some.inj h)
      exact Nat.succ_pos _
    · exact ih h

/-- `encode_plain` of a piece without a merge table: the longest token again and again;
a symbol that starts none is dropped. -/
def encodeGreedy (t : Tokenizer) (piece : List UInt8) : List ℤ :=
  if _h : piece = [] then []
  else
    match _hmatch : t.longestMatch piece (min t.maxTokenLen (toInt piece.length)).toNat with
    | some (id, len) => id :: t.encodeGreedy (piece.drop len)
    | none => t.encodeGreedy (piece.drop (symbolLen piece))
termination_by piece.length
decreasing_by
  · have hpos := longestMatch_pos _hmatch
    have hlen := List.length_pos_iff.mpr _h
    rw [List.length_drop]
    omega
  · have hpos := symbolLen_pos _h
    have hlen := List.length_pos_iff.mpr _h
    rw [List.length_drop]
    omega

/-- The rank of a pair. -/
def rank (t : Tokenizer) (a b : List UInt8) : Option ℤ :=
  (t.bpeRanks.find? (·.1 = bpeKey a b)).map (·.2)

/-- `INT_MAX`. -/
def intMax : ℤ := 0x7FFFFFFF

/-- The first pair of the least rank below `best`, counted from `i`; else `found`. -/
def bestPair (t : Tokenizer) (best : ℤ) (found : Option ℕ) (i : ℕ) :
    List (List UInt8) → Option ℕ
  | a :: b :: rest =>
      match t.rank a b with
      | some r =>
          if r < best then t.bestPair r (some i) (i + 1) (b :: rest)
          else t.bestPair best found (i + 1) (b :: rest)
      | none => t.bestPair best found (i + 1) (b :: rest)
  | _ => found

/-- Symbol `i` grows by the next one, which goes. -/
def mergeAt (symbols : List (List UInt8)) (i : ℕ) : List (List UInt8) :=
  symbols.take i ++ (symbols.getD i [] ++ symbols.getD (i + 1) []) :: symbols.drop (i + 2)

theorem bestPair_lt {t : Tokenizer} {best : ℤ} {found : Option ℕ} {i k : ℕ}
    {symbols : List (List UInt8)} (h : t.bestPair best found i symbols = some k) :
    found = some k ∨ k + 1 < i + symbols.length := by
  induction symbols generalizing best found i with
  | nil => exact .inl h
  | cons a symbols ih =>
    cases symbols with
    | nil => exact .inl h
    | cons b rest =>
      have hlen : i + 1 + (b :: rest).length = i + (a :: b :: rest).length := by
        simp only [List.length_cons]
        omega
      unfold bestPair at h
      split at h
      · split_ifs at h
        · rcases ih h with hk | hk
          · obtain rfl := Option.some.inj hk
            exact .inr (by simp only [List.length_cons]; omega)
          · exact .inr (hlen ▸ hk)
        · exact (ih h).imp_right fun hk => hlen ▸ hk
      · exact (ih h).imp_right fun hk => hlen ▸ hk

theorem mergeAt_length {symbols : List (List UInt8)} {i : ℕ} (h : i + 1 < symbols.length) :
    (mergeAt symbols i).length + 1 = symbols.length := by
  unfold mergeAt
  simp only [List.length_append, List.length_cons, List.length_take, List.length_drop]
  omega

/-- The merge loop. -/
def mergeLoop (t : Tokenizer) (symbols : List (List UInt8)) : List (List UInt8) :=
  match _h : t.bestPair intMax none 0 symbols with
  | some i => t.mergeLoop (mergeAt symbols i)
  | none => symbols
termination_by symbols.length
decreasing_by
  rcases bestPair_lt _h with hnone | hlt
  · cases hnone
  · have hlen := @mergeAt_length symbols i (by omega)
    omega

/-- A symbol that is no token, by its characters; what is no token is dropped. -/
def encodeFallback (t : Tokenizer) (sym : List UInt8) : List ℤ :=
  (splitUtf8Symbols sym).filterMap fun c => (t.tokenToId c).map (↑·)

/-- `encode_plain` of a piece with a merge table. -/
def encodeMerged (t : Tokenizer) (piece : List UInt8) : List ℤ :=
  (t.mergeLoop (splitUtf8Symbols piece)).flatMap fun sym =>
    match t.tokenToId sym with
    | some id => [(id : ℤ)]
    | none => t.encodeFallback sym

/-- `encode_plain`. -/
def encodePlain (t : Tokenizer) (plain : List UInt8) : List ℤ :=
  (pretokenizeAscii plain).flatMap fun rawPiece =>
    let piece := if t.byteEncode then encodeBytesGpt2 rawPiece else rawPiece
    if t.bpeRanks = [] then t.encodeGreedy piece else t.encodeMerged piece

/-- The special token at the start of the text. -/
def specialAt (t : Tokenizer) (text : List UInt8) : Option (List UInt8 × ℕ) :=
  t.specialTokens.find? (·.1 <+: text)

/-- How far the text goes without a special token starting in it. -/
def plainLen (t : Tokenizer) : List UInt8 → ℕ
  | [] => 0
  | c :: rest => if (t.specialAt (c :: rest)).isSome then 0 else t.plainLen rest + 1

theorem specialAt_length {t : Tokenizer} {text : List UInt8} {sp : List UInt8 × ℕ}
    (h : t.specialAt text = some sp) : 0 < sp.1.length :=
  specialTokens_length (List.mem_of_find?_eq_some h)

/-- The loop of `encode` over the text. -/
def encodeText (t : Tokenizer) (text : List UInt8) : List ℤ :=
  if _h : text = [] then []
  else
    match _hspecial : t.specialAt text with
    | some sp => sp.2 :: t.encodeText (text.drop sp.1.length)
    | none =>
        let next := t.plainLen text.tail + 1
        t.encodePlain (text.take next) ++ t.encodeText (text.drop next)
termination_by text.length
decreasing_by
  · have hpos := specialAt_length _hspecial
    have hlen := List.length_pos_iff.mpr _h
    rw [List.length_drop]
    omega
  · have hlen := List.length_pos_iff.mpr _h
    rw [List.length_drop]
    omega

/-- `encode`. -/
def encode (t : Tokenizer) (text : List UInt8) : List ℤ :=
  (if t.addBos then [t.bosId] else []) ++ t.encodeText text ++
    if t.addEos then [t.eosId] else []

/-! ### Decoding -/

/-- The value of a hexadecimal digit. -/
def hexDigit (c : UInt8) : Option ℕ :=
  if isDigit c then some (c.toNat - 0x30)
  else if 0x41 ≤ c ∧ c ≤ 0x46 then some (c.toNat - 0x41 + 10)
  else if 0x61 ≤ c ∧ c ≤ 0x66 then some (c.toNat - 0x61 + 10)
  else none

/-- `%02X` of `sscanf`: at most two characters behind white space, of which the first may
be a sign; `0x` alone is no number. -/
def scanHex (text : List UInt8) : Option ℤ :=
  match text.dropWhile isSpace with
  | a :: b :: _ =>
      match hexDigit a, hexDigit b with
      | some x, some y => some (16 * x + y)
      | some x, none => if a = 0x30 ∧ (b = 0x78 ∨ b = 0x58) then none else some x
      | none, some y => if a = 0x2B then some y else if a = 0x2D then some (-y) else none
      | none, none => none
  | [a] => (hexDigit a).map (↑·)
  | [] => none

/-- The loop of `decode` over the symbols of a token. -/
def decodeSymbols (tok : List UInt8) (decodedAny : Bool) (out : List UInt8) :
    List (List UInt8) → List UInt8
  | [] => out
  | cp :: rest =>
      match byteDecoder cp with
      | none => if decodedAny then decodeSymbols tok true (out ++ cp) rest else tok
      | some b => decodeSymbols tok true (out ++ [b]) rest

/-- `decode` of a token. -/
def decodeToken (t : Tokenizer) (tokenId : ℤ) : List UInt8 :=
  if 0 ≤ tokenId ∧ tokenId < toInt t.vocab.length then
    let tok := t.vocab.getD tokenId.toNat []
    let byteVal :=
      if tok.length = 6 ∧ ['<', '0', 'x'].map Char.toUInt8 <+: tok then
        scanHex ((tok.takeWhile (· ≠ 0)).drop 3)
      else none
    match byteVal with
    | some v => [.ofNat (v % 256).toNat]
    | none => if t.byteEncode then decodeSymbols tok false [] (splitUtf8Symbols tok) else tok
  else []

/-- `decode` of a vector. -/
def decode (t : Tokenizer) (ids : List ℤ) : List UInt8 :=
  (ids.filter fun id => id ≠ t.bosId ∧ id ≠ t.eosId).flatMap t.decodeToken

end Tokenizer

end JLLM
