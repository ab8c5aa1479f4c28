import Mathlib.Algebra.Order.Ring.Nat
import Mathlib.Data.List.GetD
import ReflexLlm.Lib.Utf8
import ReflexLlm.Spec.Tokenizer

/-! Byte-level tokenization is lossless: every token that the encoder appends spells the
symbols of some bytes of the text, and decoding turns symbols back into bytes. Without a
merge table the encoder matches bytes, so there the tokens have to be whole characters. -/

namespace JLLM

open Utf8

/-! ### The byte table -/

theorem forall_byte {P : UInt8 → Prop} (h : ∀ n < 256, P (.ofNat n)) (b : UInt8) : P b := by
  have hb := h b.toNat b.toNat_lt
  rwa [UInt8.ofNat_toNat] at hb

theorem otherBytes_eq : otherBytes = List.range 0x21 ++ List.range' 0x7F 0x22 ++ [0xAD] := by
  decide +kernel

/-- The code point of a byte's symbol. -/
def symbolCodepoint (n : ℕ) : ℕ :=
  if n < 0x21 then 256 + n
  else if n < 0x7F then n
  else if n < 0xA1 then 256 + 0x21 + (n - 0x7F)
  else if n = 0xAD then 256 + 0x21 + 0x22
  else n

theorem byteEncoder_eq : ∀ b, byteEncoder b = utf8FromCodepoint (symbolCodepoint b.toNat) := by
  have hcp : ∀ n < 256, (if isPrintableByte n then n
      else 256 + (List.range 0x21 ++ List.range' 0x7F 0x22 ++ [0xAD]).idxOf n) =
        symbolCodepoint n := by
    decide +kernel
  intro b
  unfold byteEncoder
  rw [otherBytes_eq]
  rw [hcp _ b.toNat_lt]

/-- The code point of a symbol, and the byte of a code point. -/
def symbolByte (symbol : List UInt8) : ℕ :=
  let cp := match symbol with
    | [c] => c.toNat
    | c :: d :: _ => (c.toNat - 0xC0) * 64 + (d.toNat - 0x80)
    | [] => 0
  if cp < 256 then cp
  else (List.range 0x21 ++ List.range' 0x7F 0x22 ++ [0xAD]).getD (cp - 256) 0

/-- What is known of the symbol of a byte. Its lead byte tells its length, half of it is
not UTF-8, and a symbol of ASCII stands for itself. -/
structure IsSymbol (b : UInt8) (symbol : List UInt8) : Prop where
  valid : Valid symbol
  length_le : symbol.length ≤ 2
  lead : symbol.head?.map utf8Len = some symbol.length
  half : symbol.length = 2 → ¬ Valid (symbol.take 1)
  ascii : (symbol.all fun c => decide (c < 0x80)) = true → symbol = [b]
  byte : symbolByte symbol = b.toNat

theorem isSymbol_byteEncoder (b : UInt8) : IsSymbol b (byteEncoder b) := by
  rw [byteEncoder_eq]
  revert b
  refine forall_byte fun n hn => ?_
  have htable : ∀ n < 256, ∀ symbol ∈ [utf8FromCodepoint (symbolCodepoint (UInt8.ofNat n).toNat)],
      Valid symbol ∧ symbol.length ≤ 2 ∧ symbol.head?.map utf8Len = some symbol.length ∧
        (symbol.length = 2 → ¬ Valid (symbol.take 1)) ∧
        ((symbol.all fun c => decide (c < 0x80)) = true → symbol = [.ofNat n]) ∧
        symbolByte symbol = (UInt8.ofNat n).toNat := by
    decide +kernel
  obtain ⟨hvalid, hlen, hlead, hhalf, hascii, hbyte⟩ := htable n hn _ (List.mem_singleton_self _)
  exact ⟨hvalid, hlen, hlead, hhalf, hascii, hbyte⟩

theorem valid_byteEncoder (b : UInt8) : Valid (byteEncoder b) := (isSymbol_byteEncoder b).valid

theorem byteEncoder_ne_nil (b : UInt8) : byteEncoder b ≠ [] := by
  intro hnil
  have hlead := (isSymbol_byteEncoder b).lead
  rw [hnil] at hlead
  cases hlead

theorem utf8Len_byteEncoder (b : UInt8) :
    ∀ c ∈ (byteEncoder b).head?, utf8Len c = (byteEncoder b).length := by
  intro c hc
  have hlead := (isSymbol_byteEncoder b).lead
  rw [Option.mem_def.mp hc] at hlead
  exact Option.some.inj hlead

theorem byteEncoder_of_ascii (b : UInt8) (h : ∀ c ∈ byteEncoder b, c < 0x80) :
    byteEncoder b = [b] :=
  (isSymbol_byteEncoder b).ascii (List.all_eq_true.mpr fun c hc => decide_eq_true (h c hc))

theorem symbolByte_byteEncoder (b : UInt8) : symbolByte (byteEncoder b) = b.toNat :=
  (isSymbol_byteEncoder b).byte

theorem byteEncoder_injective : Function.Injective byteEncoder := by
  intro b c h
  apply UInt8.toNat_inj.mp
  rw [← symbolByte_byteEncoder, h, symbolByte_byteEncoder]

theorem byteDecoder_byteEncoder (b : UInt8) : byteDecoder (byteEncoder b) = some b := by
  unfold byteDecoder
  cases hfind : List.find? (fun c => decide (byteEncoder c = byteEncoder b))
      ((List.range 256).map UInt8.ofNat).reverse with
  | none =>
    have hmem : b ∈ ((List.range 256).map UInt8.ofNat).reverse := by
      rw [List.mem_reverse, List.mem_map]
      exact ⟨b.toNat, List.mem_range.mpr b.toNat_lt, UInt8.ofNat_toNat⟩
    exact absurd (decide_eq_true rfl) (List.find?_eq_none.mp hfind b hmem)
  | some c =>
    have hc := List.find?_some hfind
    rw [byteEncoder_injective (of_decide_eq_true hc)]

/-- An ASCII byte that is a symbol is its own. -/
theorem byteDecoder_ascii {b : UInt8} (hb : b < 0x80) :
    byteDecoder [b] = none ∨ byteDecoder [b] = some b := by
  cases hdec : byteDecoder [b] with
  | none => exact .inl rfl
  | some c =>
    have hfind := List.find?_some hdec
    have hc : byteEncoder c = [b] := of_decide_eq_true hfind
    have hself := byteEncoder_of_ascii c (by simpa [hc] using hb)
    rw [hc] at hself
    rw [(List.cons.inj hself).1]
    exact .inr rfl

/-! ### Splitting and decoding symbols -/

theorem encodeBytesGpt2_append (x y : List UInt8) :
    encodeBytesGpt2 (x ++ y) = encodeBytesGpt2 x ++ encodeBytesGpt2 y := List.flatMap_append

theorem encodeBytesGpt2_cons (b : UInt8) (x : List UInt8) :
    encodeBytesGpt2 (b :: x) = byteEncoder b ++ encodeBytesGpt2 x := rfl

theorem symbolLen_byteEncoder (b : UInt8) (rest : List UInt8) :
    symbolLen (byteEncoder b ++ rest) = (byteEncoder b).length := by
  cases henc : byteEncoder b with
  | nil => exact absurd henc (byteEncoder_ne_nil b)
  | cons c tail =>
    have hlen : utf8Len c = (c :: tail).length := by
      rw [← henc]
      exact utf8Len_byteEncoder b c (by rw [henc]; rfl)
    rw [List.cons_append]
    simp only [symbolLen, hlen]
    rw [if_neg (by simp)]

theorem splitUtf8Symbols_cons {text : List UInt8} (h : text ≠ []) :
    splitUtf8Symbols text =
      text.take (symbolLen text) :: splitUtf8Symbols (text.drop (symbolLen text)) := by
  rw [splitUtf8Symbols, dif_neg h]

/-- Byte-encoded text falls into the symbols of its bytes. -/
theorem splitUtf8Symbols_encode (x : List UInt8) :
    splitUtf8Symbols (encodeBytesGpt2 x) = x.map byteEncoder := by
  induction x with
  | nil =>
    rw [splitUtf8Symbols]
    rfl
  | cons b x ih =>
    have hne : encodeBytesGpt2 (b :: x) ≠ [] := by
      rw [encodeBytesGpt2_cons]
      exact List.append_ne_nil_of_left_ne_nil (byteEncoder_ne_nil b) _
    rw [splitUtf8Symbols_cons hne, encodeBytesGpt2_cons, symbolLen_byteEncoder, List.take_left,
      List.drop_left, ih, List.map_cons]

namespace Tokenizer

theorem decodeSymbols_encoder (tok : List UInt8) (decodedAny : Bool) (out x : List UInt8) :
    decodeSymbols tok decodedAny out (x.map byteEncoder) = out ++ x := by
  induction x generalizing decodedAny out with
  | nil => simp [decodeSymbols]
  | cons b x ih =>
    rw [List.map_cons, decodeSymbols, byteDecoder_byteEncoder]
    simp only [ih, List.append_assoc, List.singleton_append]

/-- Once a symbol has been decoded, ASCII decodes to itself. -/
theorem decodeSymbols_ascii (tok out x : List UInt8) (h : ∀ b ∈ x, b < 0x80) :
    decodeSymbols tok true out (x.map fun b => [b]) = out ++ x := by
  induction x generalizing out with
  | nil => simp [decodeSymbols]
  | cons b x ih =>
    obtain ⟨hb, hx⟩ := List.forall_mem_cons.mp h
    rw [List.map_cons, decodeSymbols]
    rcases byteDecoder_ascii hb with hdec | hdec
    · rw [hdec]
      simp [ih _ hx]
    · rw [hdec]
      simp [ih _ hx]

theorem utf8Len_ascii : ∀ b : UInt8, b < 0x80 → utf8Len b = 1 := forall_byte (by decide +kernel)

theorem splitUtf8Symbols_ascii {x : List UInt8} (h : ∀ b ∈ x, b < 0x80) :
    splitUtf8Symbols x = x.map fun b => [b] := by
  induction x with
  | nil =>
    rw [splitUtf8Symbols]
    rfl
  | cons b x ih =>
    obtain ⟨hb, hx⟩ := List.forall_mem_cons.mp h
    rw [splitUtf8Symbols_cons (List.cons_ne_nil _ _), List.map_cons]
    simp only [symbolLen, utf8Len_ascii b hb]
    rw [if_neg (by simp), List.take_one, List.drop_one, List.head?_cons, List.tail_cons, ih hx]
    rfl

/-! ### The scan for special tokens -/

theorem specialAt_nil {t : Tokenizer} : t.specialAt [] = none := by
  cases h : t.specialAt [] with
  | none => rfl
  | some sp =>
    have hpos := specialAt_length h
    have hfound := List.find?_some h
    rw [List.prefix_nil.mp (of_decide_eq_true hfound)] at hpos
    exact absurd hpos (Nat.lt_irrefl 0)

theorem encodeText_nil {t : Tokenizer} : t.encodeText [] = [] := by
  rw [encodeText]
  rfl

theorem encodeText_special {t : Tokenizer} {text : List UInt8} {sp : List UInt8 × ℕ}
    (h : t.specialAt text = some sp) :
    t.encodeText text = (sp.2 : ℤ) :: t.encodeText (text.drop sp.1.length) := by
  have hne : text ≠ [] := by
    rintro rfl
    rw [specialAt_nil] at h
    cases h
  rw [encodeText, dif_neg hne]
  split
  · rename_i sp' h'
    rw [h] at h'
    obtain rfl := Option.some.inj h'
    rfl
  · rename_i h'
    rw [h] at h'
    cases h'

theorem encodeText_plain {t : Tokenizer} {c : UInt8} {rest : List UInt8}
    (h : t.specialAt (c :: rest) = none) :
    t.encodeText (c :: rest) = t.encodePlain ((c :: rest).take (t.plainLen rest + 1)) ++
      t.encodeText ((c :: rest).drop (t.plainLen rest + 1)) := by
  rw [encodeText, dif_neg (List.cons_ne_nil c rest)]
  split
  · rename_i h'
    rw [h] at h'
    cases h'
  · rfl

theorem plainLen_le (t : Tokenizer) (text : List UInt8) : t.plainLen text ≤ text.length := by
  induction text with
  | nil => exact le_rfl
  | cons c rest ih =>
    unfold plainLen
    split_ifs
    · exact Nat.zero_le _
    · exact Nat.succ_le_succ ih

/-! ### What the vocabulary has to be -/

/-- A byte-level vocabulary: distinct entries, the symbols of all bytes among them, special
tokens of printable ASCII, no `<0x` token. -/
structure ByteLevel (t : Tokenizer) : Prop where
  byteEncode : t.byteEncode = true
  nodup : t.vocab.Nodup
  symbols : ∀ b, byteEncoder b ∈ t.vocab
  special : ∀ tok ∈ t.vocab, isSpecial tok = true → ∀ b ∈ tok, 0x20 ≤ b ∧ b ≤ 0x7E
  noByteToken : ∀ tok ∈ t.vocab, tok.length = 6 → ¬ ['<', '0', 'x'].map Char.toUInt8 <+: tok

/-- An id of a special token that does not occur in the text. -/
def AbsentSpecial (t : Tokenizer) (id : ℤ) (text : List UInt8) : Prop :=
  ∃ sp ∈ t.specialTokens, (sp.2 : ℤ) = id ∧ ¬ sp.1 <:+: text

/-- What the encoder needs where it works without a merge table: entries that are whole
characters, and pieces whose length is an `int`. -/
structure GreedyInput (t : Tokenizer) (text : List UInt8) : Prop where
  valid : ∀ tok ∈ t.vocab, Valid tok
  fits : ∀ plain, plain <:+: text → ∀ piece ∈ pretokenizeAscii plain,
    (encodeBytesGpt2 piece).length < 2 ^ 31

/-- A text and a tokenizer for which encoding loses nothing. -/
structure LosslessInput (t : Tokenizer) (text : List UInt8) : Prop extends ByteLevel t where
  ids : t.vocab.length < 2 ^ 31
  bos : AbsentSpecial t t.bosId text
  eos : AbsentSpecial t t.eosId text
  greedy : t.bpeRanks = [] → GreedyInput t text

theorem entries_eq {t : Tokenizer} (h : t.vocab.length < 2 ^ 31) : t.entries = t.vocab.zipIdx := by
  unfold entries
  rw [toInt_of_lt h, Int.toNat_natCast, List.take_of_length_le (by simp)]

theorem mem_entries {t : Tokenizer} (h : t.vocab.length < 2 ^ 31) {sp : List UInt8 × ℕ} :
    sp ∈ t.entries ↔ t.vocab[sp.2]? = some sp.1 := by
  rw [entries_eq h, List.mem_zipIdx_iff_getElem?]

theorem tokenToId_eq_some {t : Tokenizer} (h : t.vocab.length < 2 ^ 31) {s : List UInt8} {id : ℕ}
    (hid : t.tokenToId s = some id) : t.vocab[id]? = some s := by
  obtain ⟨sp, hsp, rfl⟩ := Option.map_eq_some_iff.mp hid
  have hmem := List.mem_reverse.mp (List.mem_of_find?_eq_some hsp)
  have hs := List.find?_some hsp
  rw [← of_decide_eq_true hs]
  exact (mem_entries h).mp hmem

theorem tokenToId_of_mem {t : Tokenizer} (h : t.vocab.length < 2 ^ 31) {s : List UInt8}
    (hs : s ∈ t.vocab) : ∃ id, t.tokenToId s = some id := by
  obtain ⟨i, hi, rfl⟩ := List.mem_iff_getElem.mp hs
  have hmem : (t.vocab[i], i) ∈ t.entries.reverse := by
    rw [List.mem_reverse, mem_entries h]
    exact List.getElem?_eq_getElem hi
  cases hfind : t.entries.reverse.find? (·.1 = t.vocab[i]) with
  | none => exact absurd (decide_eq_true rfl) (List.find?_eq_none.mp hfind _ hmem)
  | some sp => exact ⟨sp.2, by rw [tokenToId, hfind, Option.map_some]⟩

theorem encodeBytesGpt2_ascii {x : List UInt8} (h : ∀ b ∈ encodeBytesGpt2 x, b < 0x80) :
    encodeBytesGpt2 x = x := by
  induction x with
  | nil => rfl
  | cons b x ih =>
    rw [encodeBytesGpt2_cons, List.forall_mem_append] at h
    rw [encodeBytesGpt2_cons, byteEncoder_of_ascii b h.1, ih h.2, List.singleton_append]

/-! ### Decoding what was encoded -/

theorem isSpecial_head {tok : List UInt8} (h : isSpecial tok = true) : ∃ rest, tok = 0x3C :: rest := by
  rw [isSpecial, decide_eq_true_eq] at h
  rcases h.2 with ⟨⟨rest, rfl⟩, -⟩ | rfl | rfl
  · exact ⟨_, rfl⟩
  · exact ⟨_, rfl⟩
  · exact ⟨_, rfl⟩

theorem decodeToken_eq {t : Tokenizer} (h : ByteLevel t) (hids : t.vocab.length < 2 ^ 31) {id : ℕ}
    {tok : List UInt8} (hid : t.vocab[id]? = some tok) :
    t.decodeToken id = decodeSymbols tok false [] (splitUtf8Symbols tok) := by
  obtain ⟨hlt, hget⟩ := List.getElem?_eq_some_iff.mp hid
  have hmem : tok ∈ t.vocab := hget ▸ List.getElem_mem hlt
  have hrange : (0 : ℤ) ≤ (id : ℤ) ∧ (id : ℤ) < toInt t.vocab.length := by
    rw [toInt_of_lt hids]
    omega
  have hno : ¬ (tok.length = 6 ∧ ['<', '0', 'x'].map Char.toUInt8 <+: tok) :=
    fun hc => h.noByteToken tok hmem hc.1 hc.2
  have hgetD : t.vocab.getD (id : ℤ).toNat [] = tok := by
    rw [Int.toNat_natCast, List.getD_eq_getElem?_getD, hid, Option.getD_some]
  unfold decodeToken
  rw [if_pos hrange]
  simp only [hgetD, if_neg hno, h.byteEncode, if_true]

section

variable {t : Tokenizer} {text : List UInt8} (h : LosslessInput t text)

include h

theorem decodeToken_encoded {id : ℕ} {x : List UInt8}
    (hid : t.vocab[id]? = some (encodeBytesGpt2 x)) : t.decodeToken id = x := by
  rw [decodeToken_eq h.toByteLevel h.ids hid, splitUtf8Symbols_encode, decodeSymbols_encoder,
    List.nil_append]

theorem decodeToken_special {id : ℕ} {tok : List UInt8} (hid : t.vocab[id]? = some tok)
    (hspecial : isSpecial tok = true) : t.decodeToken id = tok := by
  obtain ⟨hlt, hget⟩ := List.getElem?_eq_some_iff.mp hid
  have hascii : ∀ b ∈ tok, b < 0x80 := by
    intro b hb
    have hle := (h.special tok (hget ▸ List.getElem_mem hlt) hspecial b hb).2
    exact UInt8.lt_of_le_of_lt hle (by decide)
  obtain ⟨rest, rfl⟩ := isSpecial_head hspecial
  have hless : byteDecoder [0x3C] = some 0x3C := by
    have henc : byteEncoder 0x3C = [0x3C] := by
      rw [byteEncoder_eq]
      decide
    rw [← henc, byteDecoder_byteEncoder]
  rw [decodeToken_eq h.toByteLevel h.ids hid, splitUtf8Symbols_ascii hascii, List.map_cons,
    decodeSymbols, hless]
  simp only
  rw [decodeSymbols_ascii _ _ _ (List.forall_mem_cons.mp hascii).2]
  rfl

/-- A token of the text is not the one that is absent from it. -/
theorem ne_absent {i : ℤ} (habsent : AbsentSpecial t i text) {id : ℕ} {tok : List UInt8}
    (hid : t.vocab[id]? = some tok)
    (hin : tok <:+: text ∨ ∃ x, tok = encodeBytesGpt2 x ∧ x <:+: text) : (id : ℤ) ≠ i := by
  rintro rfl
  obtain ⟨sp, hsp, hspid, hno⟩ := habsent
  rw [mem_specialTokens] at hsp
  have hget := (mem_entries h.ids).mp hsp.1
  have htok : sp.1 = tok := by
    rw [Int.natCast_inj.mp hspid, hid] at hget
    exact (Option.some.inj hget).symm
  rcases hin with hin | ⟨x, hx, hin⟩
  · exact hno (htok ▸ hin)
  · obtain ⟨hlt, hmem⟩ := List.getElem?_eq_some_iff.mp hid
    have hascii : ∀ b ∈ encodeBytesGpt2 x, b < 0x80 := by
      intro b hb
      rw [← hx, ← htok] at hb
      have hle := (h.special sp.1 (htok ▸ hmem ▸ List.getElem_mem hlt) hsp.2 b hb).2
      exact UInt8.lt_of_le_of_lt hle (by decide)
    rw [htok, hx, encodeBytesGpt2_ascii hascii] at hno
    exact hno hin

/-- These ids decode to this part of the text. -/
structure Spells (t : Tokenizer) (x : List UInt8) (ids : List ℤ) : Prop where
  decode : ids.flatMap t.decodeToken = x
  kept : ∀ id ∈ ids, id ≠ t.bosId ∧ id ≠ t.eosId

omit h in
theorem Spells.append {x y : List UInt8} {is js : List ℤ} (hx : Spells t x is)
    (hy : Spells t y js) : Spells t (x ++ y) (is ++ js) := by
  refine ⟨by rw [List.flatMap_append, hx.decode, hy.decode], ?_⟩
  rw [List.forall_mem_append]
  exact ⟨hx.kept, hy.kept⟩

omit h in
theorem Spells.flatMap {α : Type} {xs : List α} {part : α → List UInt8} {ids : α → List ℤ}
    (hall : ∀ a ∈ xs, Spells t (part a) (ids a)) : Spells t (xs.flatMap part) (xs.flatMap ids) := by
  induction xs with
  | nil => exact ⟨rfl, fun _ hid => absurd hid List.not_mem_nil⟩
  | cons a xs ih =>
    obtain ⟨ha, hxs⟩ := List.forall_mem_cons.mp hall
    exact ha.append (ih hxs)

theorem spells_encoded {id : ℕ} {x : List UInt8} (hin : x <:+: text)
    (hid : t.tokenToId (encodeBytesGpt2 x) = some id) : Spells t x [(id : ℤ)] := by
  have hget := tokenToId_eq_some h.ids hid
  refine ⟨by simp [decodeToken_encoded h hget], ?_⟩
  rw [List.forall_mem_singleton]
  exact ⟨ne_absent h h.bos hget (.inr ⟨x, rfl, hin⟩), ne_absent h h.eos hget (.inr ⟨x, rfl, hin⟩)⟩

theorem spells_special {sp : List UInt8 × ℕ} (hsp : sp ∈ t.specialTokens) (hin : sp.1 <:+: text) :
    Spells t sp.1 [(sp.2 : ℤ)] := by
  rw [mem_specialTokens] at hsp
  have hget := (mem_entries h.ids).mp hsp.1
  refine ⟨by simp [decodeToken_special h hget hsp.2], ?_⟩
  rw [List.forall_mem_singleton]
  exact ⟨ne_absent h h.bos hget (.inl hin), ne_absent h h.eos hget (.inl hin)⟩

/-! ### With a merge table -/

omit h in
theorem map_mergeAt (groups : List (List UInt8)) (i : ℕ) :
    mergeAt (groups.map encodeBytesGpt2) i = (mergeAt groups i).map encodeBytesGpt2 := by
  have hget (j : ℕ) : (groups.map encodeBytesGpt2).getD j [] =
      encodeBytesGpt2 (groups.getD j []) := by
    rw [List.getD_eq_getElem?_getD, List.getD_eq_getElem?_getD, List.getElem?_map]
    cases groups[j]? <;> rfl
  unfold mergeAt
  rw [hget, hget, ← encodeBytesGpt2_append, ← List.map_take, ← List.map_drop]
  simp

omit h in
theorem mergeAt_flatten {groups : List (List UInt8)} {i : ℕ} (hi : i + 1 < groups.length) :
    (mergeAt groups i).flatten = groups.flatten := by
  have hsplit : groups = groups.take i ++ groups[i] :: groups[i + 1] :: groups.drop (i + 2) := by
    rw [← List.drop_eq_getElem_cons, ← List.drop_eq_getElem_cons, List.take_append_drop]
  unfold mergeAt
  rw [List.getD_eq_getElem _ _ (by omega), List.getD_eq_getElem _ _ hi]
  calc
    (groups.take i ++ (groups[i] ++ groups[i + 1]) :: groups.drop (i + 2)).flatten =
        (groups.take i ++ groups[i] :: groups[i + 1] :: groups.drop (i + 2)).flatten := by
      simp only [List.flatten_append, List.flatten_cons, List.append_assoc]
    _ = groups.flatten := by rw [← hsplit]

omit h in
/-- Merging only moves the boundaries between groups of bytes. -/
theorem mergeLoop_groups (groups : List (List UInt8)) :
    ∃ merged : List (List UInt8),
      t.mergeLoop (groups.map encodeBytesGpt2) = merged.map encodeBytesGpt2 ∧
        merged.flatten = groups.flatten := by
  induction hn : groups.length using Nat.strong_induction_on generalizing groups with
  | _ n ih =>
    rw [mergeLoop]
    split
    · rename_i i hbest
      have hlt : i + 1 < groups.length := by
        rcases bestPair_lt hbest with hnone | hlt
        · cases hnone
        · simpa using hlt
      have hlen := mergeAt_length hlt
      obtain ⟨merged, hmerged, hflat⟩ := ih (mergeAt groups i).length (by omega) _ rfl
      rw [map_mergeAt, hmerged]
      exact ⟨merged, rfl, hflat.trans (mergeAt_flatten hlt)⟩
    · exact ⟨groups, rfl, rfl⟩

omit h in
theorem flatMap_singleton (x : List UInt8) : x.flatMap (fun b => [b]) = x := by
  induction x with
  | nil => rfl
  | cons b x ih => rw [List.flatMap_cons, ih, List.singleton_append]

theorem spells_fallback {x : List UInt8} (hin : x <:+: text) :
    Spells t x (t.encodeFallback (encodeBytesGpt2 x)) := by
  have hids : t.encodeFallback (encodeBytesGpt2 x) = x.flatMap fun b =>
      ((t.tokenToId (byteEncoder b)).map fun id => (id : ℤ)).toList := by
    rw [encodeFallback, splitUtf8Symbols_encode, List.filterMap_map, List.filterMap_eq_flatMap_toList]
    rfl
  have hspells : Spells t (x.flatMap fun b => [b]) (x.flatMap fun b =>
      ((t.tokenToId (byteEncoder b)).map fun id => (id : ℤ)).toList) := by
    refine Spells.flatMap fun b hb => ?_
    obtain ⟨id, hid⟩ := tokenToId_of_mem h.ids (h.symbols b)
    have hbyte : [b] <:+: text := by
      obtain ⟨pre, post, rfl⟩ := List.append_of_mem hb
      exact List.IsInfix.trans ⟨pre, post, by simp⟩ hin
    rw [hid]
    exact spells_encoded h hbyte (by rw [encodeBytesGpt2_cons]; simpa [encodeBytesGpt2] using hid)
  rw [hids]
  rwa [flatMap_singleton] at hspells

theorem spells_merged {piece : List UInt8} (hin : piece <:+: text) :
    Spells t piece (t.encodeMerged (encodeBytesGpt2 piece)) := by
  have hsplit : splitUtf8Symbols (encodeBytesGpt2 piece) =
      (piece.map fun b => [b]).map encodeBytesGpt2 := by
    rw [splitUtf8Symbols_encode, List.map_map]
    congr 1
    funext b
    simp [encodeBytesGpt2]
  obtain ⟨merged, hmerged, hflat⟩ := @mergeLoop_groups t (piece.map fun b => [b])
  have hpiece : merged.flatten = piece := by
    rw [hflat, ← List.flatMap_def, flatMap_singleton]
  rw [encodeMerged, hsplit, hmerged, List.flatMap_map]
  conv => arg 2; rw [← hpiece, ← List.flatMap_id]
  refine Spells.flatMap fun x hx => ?_
  have hx' : x <:+: text := (List.infix_of_mem_flatten hx).trans (hpiece ▸ hin)
  split
  · rename_i id hid
    exact spells_encoded h hx' hid
  · exact spells_fallback h hx'

/-! ### Without a merge table -/

omit h in
/-- Whole characters at the start of symbols are whole symbols. -/
theorem valid_isPrefix_encode {tok : List UInt8} (hvalid : Valid tok) {x : List UInt8}
    (hpre : tok <+: encodeBytesGpt2 x) : ∃ y z, x = y ++ z ∧ tok = encodeBytesGpt2 y := by
  induction x generalizing tok with
  | nil => exact ⟨[], [], rfl, List.prefix_nil.mp hpre⟩
  | cons b x ih =>
    rw [encodeBytesGpt2_cons] at hpre
    by_cases hlen : (byteEncoder b).length ≤ tok.length
    · obtain ⟨rest, rfl⟩ := List.prefix_of_prefix_length_le (List.prefix_append _ _) hpre hlen
      obtain ⟨y, z, rfl, rfl⟩ := ih ((valid_append_iff (valid_byteEncoder b)).mp hvalid)
        ((List.prefix_append_right_inj _).mp hpre)
      exact ⟨b :: y, z, rfl, rfl⟩
    · -- a part of a symbol is no character
      have hpart := List.prefix_of_prefix_length_le hpre (List.prefix_append _ _) (by omega)
      have hle := (isSymbol_byteEncoder b).length_le
      cases tok with
      | nil => exact ⟨[], b :: x, rfl, rfl⟩
      | cons c tok =>
        have htake := List.prefix_iff_eq_take.mp hpart
        rw [List.length_cons] at hlen htake
        have htok : tok.length = 0 := by omega
        rw [htake, htok] at hvalid
        exact absurd hvalid ((isSymbol_byteEncoder b).half (by omega))

omit h in
theorem longestMatch_spec {piece : List UInt8} {n id len : ℕ}
    (hmatch : t.longestMatch piece n = some (id, len)) :
    len ≤ n ∧ t.tokenToId (piece.take len) = some id := by
  induction n with
  | zero => cases hmatch
  | succ n ih =>
    unfold longestMatch at hmatch
    split at hmatch
    · rename_i hid
      obtain ⟨rfl, rfl⟩ := Prod.mk.inj (Option.some.inj hmatch)
      exact ⟨le_rfl, hid⟩
    · obtain ⟨hle, hid⟩ := ih hmatch
      exact ⟨Nat.le_succ_of_le hle, hid⟩

omit h in
theorem longestMatch_exists {piece : List UInt8} {n k id : ℕ} (hpos : 0 < k) (hle : k ≤ n)
    (hid : t.tokenToId (piece.take k) = some id) : ∃ sp, t.longestMatch piece n = some sp := by
  induction n with
  | zero => omega
  | succ n ih =>
    unfold longestMatch
    split
    · exact ⟨_, rfl⟩
    · rename_i hnone
      refine ih (Nat.le_of_lt_succ (lt_of_le_of_ne hle ?_))
      rintro rfl
      rw [hid] at hnone
      cases hnone

omit h in
theorem le_maxTokenLen {tok : List UInt8} (hmem : tok ∈ t.vocab) :
    toInt tok.length ≤ t.maxTokenLen := by
  have hfold (m : ℤ) (vocab : List (List UInt8)) :
      m ≤ vocab.foldl (fun m tok => max m (toInt tok.length)) m ∧
        ∀ tok ∈ vocab, toInt tok.length ≤
          vocab.foldl (fun m tok => max m (toInt tok.length)) m := by
    induction vocab generalizing m with
    | nil => exact ⟨le_rfl, fun _ hc => absurd hc List.not_mem_nil⟩
    | cons a vocab ih =>
      obtain ⟨hm, hall⟩ := ih (max m (toInt a.length))
      refine ⟨le_trans (le_max_left _ _) hm, List.forall_mem_cons.mpr ⟨?_, hall⟩⟩
      exact le_trans (le_max_right _ _) hm
  exact (hfold 0 t.vocab).2 tok hmem

/-- The longest match is the text of some bytes in a row. -/
theorem longestMatch_encoded (hvalid : ∀ tok ∈ t.vocab, Valid tok) {piece : List UInt8}
    (hfits : (encodeBytesGpt2 piece).length < 2 ^ 31) {id len : ℕ}
    (hmatch : t.longestMatch (encodeBytesGpt2 piece)
      (min t.maxTokenLen (toInt (encodeBytesGpt2 piece).length)).toNat = some (id, len)) :
    ∃ y z, piece = y ++ z ∧ 0 < y.length ∧ t.tokenToId (encodeBytesGpt2 y) = some id ∧
      (encodeBytesGpt2 piece).drop len = encodeBytesGpt2 z := by
  have hpos := longestMatch_pos hmatch
  obtain ⟨hle, hid⟩ := longestMatch_spec hmatch
  rw [toInt_of_lt hfits] at hle
  obtain ⟨hlt, hget⟩ := List.getElem?_eq_some_iff.mp (tokenToId_eq_some h.ids hid)
  obtain ⟨y, z, hyz, htake⟩ := valid_isPrefix_encode (hvalid _ (hget ▸ List.getElem_mem hlt))
    (List.take_prefix len (encodeBytesGpt2 piece))
  have hlen : (encodeBytesGpt2 y).length = len := by
    rw [← htake, List.length_take]
    omega
  refine ⟨y, z, hyz, ?_, htake ▸ hid, ?_⟩
  · rw [List.length_pos_iff]
    rintro rfl
    rw [← hlen] at hpos
    exact absurd hpos (Nat.lt_irrefl 0)
  · rw [hyz, encodeBytesGpt2_append, ← hlen, List.drop_left]

/-- There is a match: the symbol of the first byte is a token. -/
theorem longestMatch_ne_none {b : UInt8} {rest : List UInt8}
    (hfits : (encodeBytesGpt2 (b :: rest)).length < 2 ^ 31) :
    t.longestMatch (encodeBytesGpt2 (b :: rest))
      (min t.maxTokenLen (toInt (encodeBytesGpt2 (b :: rest)).length)).toNat ≠ none := by
  obtain ⟨id, hid⟩ := tokenToId_of_mem h.ids (h.symbols b)
  have hk := (isSymbol_byteEncoder b).length_le
  have hmax := le_maxTokenLen (h.symbols b)
  have hpos := List.length_pos_iff.mpr (byteEncoder_ne_nil b)
  have htake : (encodeBytesGpt2 (b :: rest)).take (byteEncoder b).length = byteEncoder b := by
    rw [encodeBytesGpt2_cons, List.take_left]
  have hwhole : (byteEncoder b).length ≤ (encodeBytesGpt2 (b :: rest)).length := by
    rw [encodeBytesGpt2_cons, List.length_append]
    omega
  have hle : (byteEncoder b).length ≤
      (min t.maxTokenLen (toInt (encodeBytesGpt2 (b :: rest)).length)).toNat := by
    rw [toInt_of_lt (by omega)] at hmax
    rw [toInt_of_lt hfits]
    omega
  obtain ⟨sp, hsp⟩ := longestMatch_exists hpos hle (by rwa [htake])
  rw [hsp]
  exact Option.some_ne_none sp

theorem spells_greedy (hvalid : ∀ tok ∈ t.vocab, Valid tok) {piece : List UInt8}
    (hin : piece <:+: text) (hfits : (encodeBytesGpt2 piece).length < 2 ^ 31) :
    Spells t piece (t.encodeGreedy (encodeBytesGpt2 piece)) := by
  induction hn : piece.length using Nat.strong_induction_on generalizing piece with
  | _ n ih =>
    rw [encodeGreedy]
    cases piece with
    | nil => exact ⟨rfl, fun _ hc => absurd hc List.not_mem_nil⟩
    | cons b rest =>
      have hne : encodeBytesGpt2 (b :: rest) ≠ [] := by
        rw [encodeBytesGpt2_cons]
        exact List.append_ne_nil_of_left_ne_nil (byteEncoder_ne_nil b) _
      rw [dif_neg hne]
      split
      · rename_i id len hmatch
        obtain ⟨y, z, hyz, hy, hid, hdrop⟩ := longestMatch_encoded h hvalid hfits hmatch
        rw [hdrop, hyz]
        rw [hyz] at hin hfits hn
        rw [encodeBytesGpt2_append, List.length_append] at hfits
        rw [List.length_append] at hn
        have hyin : y <:+: text := (List.prefix_append y z).isInfix.trans hin
        have hzin : z <:+: text := (List.suffix_append y z).isInfix.trans hin
        exact (spells_encoded h hyin hid).append (ih z.length (by omega) hzin (by omega) rfl)
      · rename_i hnone
        exact absurd hnone (longestMatch_ne_none h hfits)

/-! ### The whole text -/

omit h in
theorem pretokenizeAscii_flatten (plain : List UInt8) : (pretokenizeAscii plain).flatten = plain := by
  induction plain using pretokenizeAscii.induct with
  | case1 =>
    rw [pretokenizeAscii, dif_pos rfl]
    rfl
  | case2 plain hnil ih =>
    rw [pretokenizeAscii, dif_neg hnil, List.flatten_cons, ih, List.take_append_drop]

theorem spells_plain {plain : List UInt8} (hin : plain <:+: text) :
    Spells t plain (t.encodePlain plain) := by
  have hpieces : Spells t ((pretokenizeAscii plain).flatMap fun piece => piece)
      (t.encodePlain plain) := by
    unfold encodePlain
    refine Spells.flatMap fun piece hpiece => ?_
    have hpin : piece <:+: text := by
      have hinfix := List.infix_of_mem_flatten hpiece
      rw [pretokenizeAscii_flatten] at hinfix
      exact hinfix.trans hin
    simp only [h.byteEncode, if_true]
    split_ifs with hranks
    · have hgreedy := h.greedy hranks
      exact spells_greedy h hgreedy.valid hpin (hgreedy.fits plain hin piece hpiece)
    · exact spells_merged h hpin
  rwa [List.flatMap_id', pretokenizeAscii_flatten] at hpieces

theorem spells_text {rest : List UInt8} (hin : rest <:+: text) :
    Spells t rest (t.encodeText rest) := by
  induction hn : rest.length using Nat.strong_induction_on generalizing rest with
  | _ n ih =>
    rw [encodeText]
    split_ifs with hnil
    · rw [hnil]
      exact ⟨rfl, fun _ hc => absurd hc List.not_mem_nil⟩
    · have hlen := List.length_pos_iff.mpr hnil
      split
      · rename_i sp hspecial
        have hpos := specialAt_length hspecial
        have hfound := List.find?_some hspecial
        obtain ⟨after, rfl⟩ : sp.1 <+: rest := of_decide_eq_true hfound
        have hsp : sp.1 <:+: text := (List.prefix_append _ after).isInfix.trans hin
        have hafter : after <:+: text := (List.suffix_append sp.1 after).isInfix.trans hin
        rw [List.length_append] at hn
        rw [List.drop_left]
        exact (spells_special h (List.mem_of_find?_eq_some hspecial) hsp).append
          (ih after.length (by omega) hafter rfl)
      · have htake : rest.take (t.plainLen rest.tail + 1) <:+: text :=
          (List.take_prefix _ _).isInfix.trans hin
        have hdrop : rest.drop (t.plainLen rest.tail + 1) <:+: text :=
          (List.drop_suffix _ _).isInfix.trans hin
        have hshorter : (rest.drop (t.plainLen rest.tail + 1)).length < n := by
          rw [List.length_drop]
          omega
        have happend := (spells_plain h htake).append (ih _ hshorter hdrop rfl)
        rwa [List.take_append_drop] at happend

end

/-- Decoding leaves the first and the last id out. -/
theorem decode_encode_of_kept {t : Tokenizer} {text : List UInt8}
    (hkept : ∀ id ∈ t.encodeText text, id ≠ t.bosId ∧ id ≠ t.eosId) :
    t.decode (t.encode text) = (t.encodeText text).flatMap t.decodeToken := by
  have hbos : (if t.addBos then [t.bosId] else []).filter
      (fun id => id ≠ t.bosId ∧ id ≠ t.eosId) = [] := by
    split_ifs <;> simp
  have heos : (if t.addEos then [t.eosId] else []).filter
      (fun id => id ≠ t.bosId ∧ id ≠ t.eosId) = [] := by
    split_ifs <;> simp
  have htext : (t.encodeText text).filter (fun id => id ≠ t.bosId ∧ id ≠ t.eosId) =
      t.encodeText text := by
    rw [List.filter_eq_self]
    exact fun id hid => decide_eq_true (hkept id hid)
  rw [decode, encode, List.filter_append, List.filter_append, hbos, heos, htext, List.nil_append,
    List.append_nil]

/-- Encoding loses nothing: it appends ids that spell the text. -/
theorem decode_encode_text (t : Tokenizer) (text : List UInt8) (h : LosslessInput t text) :
    t.decode (t.encode text) = text := by
  obtain ⟨hdecode, hkept⟩ := spells_text h (List.infix_refl text)
  rw [decode_encode_of_kept hkept, hdecode]

/-- The symbols of all bytes, one special token, and further entries. -/
def byteTokenizer (more : List (List UInt8)) (ranks : List (List UInt8 × ℤ)) : Tokenizer where
  vocab := (List.range 256).map (fun n => utf8FromCodepoint (symbolCodepoint n)) ++
    ['<', '|', 'a', '|', '>'].map Char.toUInt8 :: more
  bosId := 256
  eosId := 256
  bpeRanks := ranks

theorem byteTokenizer_symbols (more : List (List UInt8)) (ranks : List (List UInt8 × ℤ))
    (b : UInt8) : byteEncoder b ∈ (byteTokenizer more ranks).vocab := by
  refine List.mem_append_left _ (List.mem_map.mpr ⟨b.toNat, List.mem_range.mpr b.toNat_lt, ?_⟩)
  rw [byteEncoder_eq]

theorem byteTokenizer_nodup {more : List (List UInt8)} (ranks : List (List UInt8 × ℤ))
    (hmore : (['<', '|', 'a', '|', '>'].map Char.toUInt8 :: more).Nodup)
    (hapart : ∀ tok ∈ ['<', '|', 'a', '|', '>'].map Char.toUInt8 :: more,
      tok ∉ (List.range 256).map (fun n => utf8FromCodepoint (symbolCodepoint n))) :
    (byteTokenizer more ranks).vocab.Nodup := by
  refine List.Nodup.append (List.nodup_range.map_on fun i hi j hj hij => ?_) hmore
    fun tok hsymbol htok => hapart tok htok hsymbol
  have hval (n : ℕ) (hn : n ∈ List.range 256) :
      symbolByte (utf8FromCodepoint (symbolCodepoint n)) = n := by
    have henc := symbolByte_byteEncoder (.ofNat n)
    rwa [byteEncoder_eq, UInt8.toNat_ofNat_of_lt' (List.mem_range.mp hn)] at henc
  rw [← hval i hi, hij, hval j hj]

theorem special_of_all {vocab : List (List UInt8)}
    (h : (vocab.all fun tok => !isSpecial tok ||
      tok.all fun b => decide (0x20 ≤ b ∧ b ≤ 0x7E)) = true) :
    ∀ tok ∈ vocab, isSpecial tok = true → ∀ b ∈ tok, 0x20 ≤ b ∧ b ≤ 0x7E := by
  intro tok htok hspecial b hb
  have htok := List.all_eq_true.mp h tok htok
  rw [hspecial, Bool.not_true, Bool.false_or] at htok
  exact of_decide_eq_true (List.all_eq_true.mp htok b hb)

/-- With a merge for `hi`, and a text that is not UTF-8. -/
def hiTokenizer : Tokenizer := byteTokenizer [[0x68, 0x69]] [(bpeKey [0x68] [0x69], 0)]

theorem decode_encode_hi : hiTokenizer.decode (hiTokenizer.encode [0x68, 0x69, 0x20, 0xFF]) =
    [0x68, 0x69, 0x20, 0xFF] :=
  decode_encode_text hiTokenizer _
    { byteEncode := rfl
      nodup := byteTokenizer_nodup _ (by decide) (by decide +kernel)
      symbols := byteTokenizer_symbols _ _
      special := special_of_all (by decide +kernel)
      noByteToken := by decide +kernel
      ids := by decide +kernel
      bos := by unfold AbsentSpecial; decide +kernel
      eos := by unfold AbsentSpecial; decide +kernel
      greedy := fun h => absurd h (by decide) }

/-- An entry that ends in the middle of a character. -/
def halfTokenizer : Tokenizer := byteTokenizer [[0x21, 0xC4]] []

/-- Without a merge table, an entry that is not UTF-8 can split a symbol. -/
theorem encode_splits_symbol :
    ¬ ∀ (t : Tokenizer) (text : List UInt8), ByteLevel t → t.vocab.length < 2 ^ 31 →
      AbsentSpecial t t.bosId text → AbsentSpecial t t.eosId text →
      t.decode (t.encode text) = text := by
  intro h
  have hlevel : ByteLevel halfTokenizer :=
    { byteEncode := rfl
      nodup := byteTokenizer_nodup _ (by decide) (by decide +kernel)
      symbols := byteTokenizer_symbols _ _
      special := special_of_all (by decide +kernel)
      noByteToken := by decide +kernel }
  have habsent : AbsentSpecial halfTokenizer 256 [0x21, 0x00] := by
    unfold AbsentSpecial
    decide +kernel
  have hencode : halfTokenizer.encode [0x21, 0x00] = [256, 257] := by decide +kernel
  have hdecode : halfTokenizer.decode [256, 257] = [0x21, 0xC4] := by
    have hwhole : byteDecoder [0x21] = some 0x21 := by
      have henc : byteEncoder 0x21 = [0x21] := by
        rw [byteEncoder_eq]
        decide
      rw [← henc, byteDecoder_byteEncoder]
    have hhalf : byteDecoder [0xC4] = none := by
      have hno : ∀ b, byteEncoder b ≠ [0xC4] := by
        simp only [byteEncoder_eq]
        exact forall_byte (by decide +kernel)
      rw [byteDecoder, List.find?_eq_none]
      exact fun b _ hb => hno b (of_decide_eq_true hb)
    have hsplit : splitUtf8Symbols [0x21, 0xC4] = [[0x21], [0xC4]] := by decide +kernel
    have htok : halfTokenizer.decodeToken (257 : ℕ) =
        decodeSymbols [0x21, 0xC4] false [] (splitUtf8Symbols [0x21, 0xC4]) :=
      decodeToken_eq hlevel (by decide +kernel) (by decide +kernel)
    have hids : halfTokenizer.decode [256, 257] = halfTokenizer.decodeToken (257 : ℕ) := by
      rw [decode, List.filter_cons_of_neg (by decide), List.filter_cons_of_pos (by decide),
        List.filter_nil, List.flatMap_singleton]
      rfl
    rw [hids, htok, hsplit, decodeSymbols, hwhole]
    simp only
    rw [decodeSymbols, hhalf]
    rfl
  have hround := h halfTokenizer [0x21, 0x00] hlevel (by decide +kernel) habsent habsent
  rw [hencode, hdecode] at hround
  exact absurd hround (by decide)

end Tokenizer

end JLLM
