import ReflexLlm.Proofs.Tokenizer

/-! The encoder without a merge table on text that is not byte-encoded. It takes the
longest token at each position, and where none begins it skips the character, also when
the vocabulary has a token for each byte: the text comes back when a token begins at each
position that the search comes to, and only then. -/

namespace JLLM

namespace Tokenizer

/-- A digit of `%02X`. -/
def hexUpper (n : ℕ) : UInt8 := .ofNat (if n < 10 then 0x30 + n else 0x41 + (n - 10))

/-- The token `<0xNN>` of a byte. -/
def byteToken (b : UInt8) : List UInt8 :=
  ['<', '0', 'x'].map Char.toUInt8 ++ [hexUpper (b.toNat / 16), hexUpper (b.toNat % 16)] ++
    ['>'].map Char.toUInt8

/-- The text of an id does not occur in the text. -/
def AbsentId (t : Tokenizer) (i : ℤ) (text : List UInt8) : Prop :=
  ∀ (id : ℕ) (tok : List UInt8), (id : ℤ) = i → t.vocab[id]? = some tok → ¬ tok <:+: text

/-- A tokenizer with a token for each byte, neither byte-encoded nor with merges, and a text
in which no special token, no first or last token and no `<0x` occurs. -/
structure ByteFallback (t : Tokenizer) (text : List UInt8) : Prop where
  plain : t.byteEncode = false
  noMerges : t.bpeRanks = []
  byteTokens : ∀ b, byteToken b ∈ t.vocab
  noSpecial : ∀ sp ∈ t.specialTokens, ¬ sp.1 <:+: text
  noBos : t.AbsentId t.bosId text
  noEos : t.AbsentId t.eosId text
  noLiteral : ¬ ['<', '0', 'x'].map Char.toUInt8 <:+: text

/-- A token begins at each position of the piece that the search comes to. -/
inductive Covered (t : Tokenizer) : List UInt8 → Prop
  | nil : Covered t []
  | token {piece : List UInt8} {id len : ℕ} :
      t.longestMatch piece (min t.maxTokenLen (toInt piece.length)).toNat = some (id, len) →
      Covered t (piece.drop len) → Covered t piece

/-- What a piece is decoded to. -/
def decodedPiece (t : Tokenizer) (piece : List UInt8) : List UInt8 :=
  (t.encodeGreedy piece).flatMap t.decodeToken

theorem tokenToId_entry {t : Tokenizer} {s : List UInt8} {id : ℕ} (h : t.tokenToId s = some id) :
    t.vocab[id]? = some s ∧ (id : ℤ) < toInt t.vocab.length := by
  obtain ⟨sp, hsp, rfl⟩ := Option.map_eq_some_iff.mp h
  have hmem := List.mem_reverse.mp (List.mem_of_find?_eq_some hsp)
  have hs := List.find?_some hsp
  obtain rfl : sp.1 = s := of_decide_eq_true hs
  rw [entries, List.mem_take_iff_getElem] at hmem
  obtain ⟨i, hi, rfl⟩ := hmem
  rw [List.getElem_zipIdx]
  rw [List.length_zipIdx] at hi
  exact ⟨by simp, by simp; omega⟩

section

variable {t : Tokenizer} {text : List UInt8} (h : ByteFallback t text)

include h

/-- A token of the text decodes to its own text. -/
theorem ByteFallback.decodeToken {s : List UInt8} {id : ℕ} (hid : t.tokenToId s = some id)
    (hin : s <:+: text) : t.decodeToken id = s := by
  obtain ⟨hget, hlt⟩ := tokenToId_entry hid
  have hgetD : t.vocab.getD (id : ℤ).toNat [] = s := by
    rw [Int.toNat_natCast, List.getD_eq_getElem?_getD, hget, Option.getD_some]
  have hno : ¬ (s.length = 6 ∧ ['<', '0', 'x'].map Char.toUInt8 <+: s) :=
    fun hc => h.noLiteral (hc.2.isInfix.trans hin)
  unfold Tokenizer.decodeToken
  rw [if_pos ⟨by omega, hlt⟩]
  simp only [hgetD, if_neg hno, h.plain]
  rfl

theorem ByteFallback.kept {s : List UInt8} {id : ℕ} (hid : t.tokenToId s = some id)
    (hin : s <:+: text) : (id : ℤ) ≠ t.bosId ∧ (id : ℤ) ≠ t.eosId := by
  obtain ⟨hget, -⟩ := tokenToId_entry hid
  exact ⟨fun hbos => h.noBos id s hbos hget hin, fun heos => h.noEos id s heos hget hin⟩

/-- A piece comes back if it is covered; else something of it is missing. -/
theorem ByteFallback.piece {piece : List UInt8} (hin : piece <:+: text) :
    (∀ id ∈ t.encodeGreedy piece, id ≠ t.bosId ∧ id ≠ t.eosId) ∧
      (t.decodedPiece piece).Sublist piece ∧
      (t.decodedPiece piece = piece ↔ t.Covered piece) := by
  unfold decodedPiece
  induction hn : piece.length using Nat.strong_induction_on generalizing piece with
  | _ n ih =>
    rw [encodeGreedy]
    split_ifs with hnil
    · subst hnil
      exact ⟨fun _ hc => absurd hc List.not_mem_nil, .slnil, fun _ => .nil, fun _ => rfl⟩
    · have hlen := List.length_pos_iff.mpr hnil
      have hdrop (k : ℕ) : piece.drop k <:+: text := (List.drop_suffix k piece).isInfix.trans hin
      split
      · rename_i id len hmatch
        have hpos := longestMatch_pos hmatch
        obtain ⟨-, hid⟩ := longestMatch_spec hmatch
        have htake : piece.take len <:+: text := (List.take_prefix len piece).isInfix.trans hin
        obtain ⟨hkept, hsub, hcov⟩ :=
          ih (piece.drop len).length (by rw [List.length_drop]; omega) (hdrop len) rfl
        rw [List.flatMap_cons, h.decodeToken hid htake]
        refine ⟨List.forall_mem_cons.mpr ⟨h.kept hid htake, hkept⟩, ?_, fun heq => ?_, fun hc => ?_⟩
        · have happend := hsub.append_left (piece.take len)
          rwa [List.take_append_drop] at happend
        · refine .token hmatch (hcov.mp ?_)
          nth_rewrite 3 [← List.take_append_drop len piece] at heq
          exact List.append_cancel_left heq
        · cases hc with
          | nil => exact absurd rfl hnil
          | token hmatch' hrest =>
            obtain ⟨rfl, rfl⟩ := Prod.mk.inj (Option.some.inj (hmatch.symm.trans hmatch'))
            rw [hcov.mpr hrest, List.take_append_drop]
      · -- a character is skipped
        rename_i hnone
        have hpos := symbolLen_pos hnil
        obtain ⟨hkept, hsub, -⟩ := ih (piece.drop (symbolLen piece)).length
          (by rw [List.length_drop]; omega) (hdrop _) rfl
        refine ⟨hkept, hsub.trans (List.drop_sublist _ _), fun heq => ?_, fun hc => ?_⟩
        · have hle := hsub.length_le
          rw [heq, List.length_drop] at hle
          omega
        · cases hc with
          | nil => exact absurd rfl hnil
          | token hmatch' hrest =>
            rw [hnone] at hmatch'
            cases hmatch'

theorem ByteFallback.specialAt {rest : List UInt8} (hin : rest <:+: text) :
    t.specialAt rest = none := by
  refine List.find?_eq_none.mpr fun sp hsp hpre => ?_
  exact h.noSpecial sp hsp ((of_decide_eq_true hpre : _ <+: _).isInfix.trans hin)

theorem ByteFallback.plainLen {rest : List UInt8} (hin : rest <:+: text) :
    t.plainLen rest = rest.length := by
  induction rest with
  | nil => rfl
  | cons c rest ih =>
    have htail : rest <:+: text := (List.suffix_cons c rest).isInfix.trans hin
    rw [Tokenizer.plainLen, h.specialAt hin, if_neg (by simp), ih htail, List.length_cons]

/-- Text without a special token is one plain stretch. -/
theorem ByteFallback.encodeText :
    t.encodeText text = (pretokenizeAscii text).flatMap t.encodeGreedy := by
  have hplain : t.encodePlain text = (pretokenizeAscii text).flatMap t.encodeGreedy := by
    unfold encodePlain
    simp only [h.plain, h.noMerges, if_true, Bool.false_eq_true, if_false]
  rw [← hplain]
  cases text with
  | nil =>
    rw [encodeText_nil, encodePlain, pretokenizeAscii]
    rfl
  | cons c rest =>
    have htail : rest <:+: c :: rest := (List.suffix_cons c rest).isInfix
    have hlen : t.plainLen rest + 1 = (c :: rest).length := by
      rw [h.plainLen htail, List.length_cons]
    rw [encodeText_plain (h.specialAt (List.infix_refl _)), hlen, List.take_length,
      List.drop_length, encodeText_nil, List.append_nil]

end

theorem flatMap_sublist_flatten {α : Type} {f : List α → List α} {parts : List (List α)}
    (hsub : ∀ part ∈ parts, (f part).Sublist part) : (parts.flatMap f).Sublist parts.flatten := by
  induction parts with
  | nil => exact .slnil
  | cons part parts ih =>
    obtain ⟨hpart, hparts⟩ := List.forall_mem_cons.mp hsub
    exact hpart.append (ih hparts)

/-- Parts that are cut short make up the whole only if none is. -/
theorem flatMap_eq_flatten_iff {α : Type} {f : List α → List α} {parts : List (List α)}
    (hsub : ∀ part ∈ parts, (f part).Sublist part) :
    parts.flatMap f = parts.flatten ↔ ∀ part ∈ parts, f part = part := by
  induction parts with
  | nil => simp
  | cons part parts ih =>
    obtain ⟨hpart, hparts⟩ := List.forall_mem_cons.mp hsub
    rw [List.flatMap_cons, List.flatten_cons, List.forall_mem_cons, ← ih hparts]
    refine ⟨fun heq => ?_, fun heq => by rw [heq.1, heq.2]⟩
    have hrest := (flatMap_sublist_flatten hparts).length_le
    have hlen := congrArg List.length heq
    rw [List.length_append, List.length_append] at hlen
    have hle := hpart.length_le
    exact List.append_inj heq (by omega)

/-- Decoding gives back what was encoded if and only if a token begins wherever the search
comes to. -/
theorem decode_encode_greedy_iff (t : Tokenizer) (text : List UInt8) (h : ByteFallback t text) :
    t.decode (t.encode text) = text ↔ ∀ piece ∈ pretokenizeAscii text, t.Covered piece := by
  have hin (piece : List UInt8) (hpiece : piece ∈ pretokenizeAscii text) : piece <:+: text := by
    have hinfix := List.infix_of_mem_flatten hpiece
    rwa [pretokenizeAscii_flatten] at hinfix
  have hkept : ∀ id ∈ t.encodeText text, id ≠ t.bosId ∧ id ≠ t.eosId := by
    rw [h.encodeText]
    intro id hid
    obtain ⟨piece, hpiece, hid⟩ := List.mem_flatMap.mp hid
    exact (h.piece (hin piece hpiece)).1 id hid
  have hdecoded : (t.encodeText text).flatMap t.decodeToken =
      (pretokenizeAscii text).flatMap t.decodedPiece := by
    rw [h.encodeText, List.flatMap_assoc]
    rfl
  have hparts := flatMap_eq_flatten_iff fun piece hpiece => (h.piece (hin piece hpiece)).2.1
  rw [pretokenizeAscii_flatten] at hparts
  rw [decode_encode_of_kept hkept, hdecoded, hparts]
  exact forall₂_congr fun piece hpiece => (h.piece (hin piece hpiece)).2.2

/-- The tokens of all bytes, and further entries. -/
def fallbackTokenizer (more : List (List UInt8)) : Tokenizer where
  vocab := (List.range 256).map (fun n => byteToken (.ofNat n)) ++ more
  byteEncode := false

theorem fallbackTokenizer_byteTokens (more : List (List UInt8)) (b : UInt8) :
    byteToken b ∈ (fallbackTokenizer more).vocab := by
  refine List.mem_append_left _ (List.mem_map.mpr ⟨b.toNat, List.mem_range.mpr b.toNat_lt, ?_⟩)
  rw [UInt8.ofNat_toNat]

theorem absentId_of_entry {t : Tokenizer} (i : ℕ) (tok : List UInt8) {text : List UInt8}
    (hget : t.vocab[i]? = some tok) (hno : ¬ tok <:+: text) : t.AbsentId i text := by
  intro id tok' hid hget'
  rw [Int.natCast_inj.mp hid, hget] at hget'
  exact Option.some.inj hget' ▸ hno

theorem byteFallback_fallbackTokenizer {more : List (List UInt8)} {text : List UInt8}
    (hspecial : (fallbackTokenizer more).specialTokens = [])
    (hliteral : ¬ ['<', '0', 'x'].map Char.toUInt8 <:+: text) :
    ByteFallback (fallbackTokenizer more) text where
  plain := rfl
  noMerges := rfl
  byteTokens := fallbackTokenizer_byteTokens more
  noSpecial := by simp [hspecial]
  noBos := absentId_of_entry 1 (byteToken 1) rfl
    fun hin => hliteral ((List.infix_append' [] _ _).trans hin)
  noEos := absentId_of_entry 2 (byteToken 2) rfl
    fun hin => hliteral ((List.infix_append' [] _ _).trans hin)
  noLiteral := hliteral

theorem decode_encode_greedy_iff_hi :
    (fallbackTokenizer [[0x68], [0x69]]).decode ((fallbackTokenizer [[0x68], [0x69]]).encode
        [0x68, 0x69]) = [0x68, 0x69] ↔
      ∀ piece ∈ pretokenizeAscii [0x68, 0x69], (fallbackTokenizer [[0x68], [0x69]]).Covered piece :=
  decode_encode_greedy_iff _ _
    (byteFallback_fallbackTokenizer (by decide +kernel) (by decide))

/-- A letter that is no token is dropped, though its byte has one. -/
theorem encode_drops_letter :
    ¬ ∀ (t : Tokenizer) (text : List UInt8), ByteFallback t text →
      t.decode (t.encode text) = text := by
  intro h
  have hencode : (fallbackTokenizer []).encode [0x61] = [1] := by decide +kernel
  have hround := h (fallbackTokenizer []) [0x61]
    (byteFallback_fallbackTokenizer (by decide +kernel) (by decide))
  rw [hencode] at hround
  exact absurd hround (by decide +kernel)

end Tokenizer

end JLLM
