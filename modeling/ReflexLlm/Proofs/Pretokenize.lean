import ReflexLlm.Lib.Utf8
import ReflexLlm.Proofs.Tokenizer
import ReflexLlm.Spec.Pretokenize

/-! `pretokenize_ascii` gets to the end of every text, one piece of at least one byte in
each iteration, and cuts only next to ASCII bytes. -/

namespace JLLM

open LittleEndian (field)

/-! ### The cursor and what is left of the text -/

theorem advanceWhile_eq (p : UInt8 → Bool) (text : List UInt8) (i : ℕ) :
    advanceWhile p text i = i + ((text.drop i).takeWhile p).length := by
  induction i using advanceWhile.induct p text with
  | case1 i h hp ih =>
    rw [advanceWhile, dif_pos h, if_pos hp, ih, List.drop_eq_getElem_cons h,
      List.takeWhile_cons_of_pos hp, List.length_cons]
    omega
  | case2 i h hp =>
    rw [advanceWhile, dif_pos h, if_neg hp, List.drop_eq_getElem_cons h,
      List.takeWhile_cons_of_neg hp, List.length_nil, Nat.add_zero]
  | case3 i h =>
    rw [advanceWhile, dif_neg h, List.drop_of_length_le (by omega), List.takeWhile_nil,
      List.length_nil, Nat.add_zero]

theorem skipClass_eq (text : List UInt8) (i : ℕ) :
    skipClass text i = i + classRun (text.drop i) := by
  simp only [skipClass, advanceWhile_eq, ← List.head?_drop]
  cases text.drop i with
  | nil => simp [classRun]
  | cons c rest =>
    simp only [classRun, List.head?_cons, Option.map_some, Option.some.injEq, Bool.not_eq_true']
    split_ifs <;> rfl

theorem skipSpace_eq (text : List UInt8) (i : ℕ) :
    skipSpace text i = i + leadingSpace (text.drop i) := by
  have hnext : text.drop (i + 1) = (text.drop i).tail := List.tail_drop.symm
  have hroom : i + 1 < text.length ↔ 1 < (text.drop i).length := by
    rw [List.length_drop]
    omega
  simp only [skipSpace, ← List.head?_drop, hnext, hroom]
  match text.drop i with
  | [] => simp [leadingSpace]
  | [c] => simp [leadingSpace]
  | c :: next :: rest =>
    have hlong : 1 < (c :: next :: rest).length := by simp
    have hspace : ' '.toUInt8 = 0x20 := rfl
    simp only [leadingSpace, hlong, hspace, List.head?_cons, List.tail_cons, Option.map_some,
      Option.some.injEq, true_and]
    split_ifs <;> rfl

theorem contractionEnd_eq (text : List UInt8) {i : ℕ} (hi : i < text.length) :
    contractionEnd text i =
      (contractions.find? (· <+: (text.drop i).tail)).map fun c => i + (c.length + 1) := by
  have hnext : text.drop (i + 1) = (text.drop i).tail := List.tail_drop.symm
  have hfits (c : List UInt8) : (i + 1 + c.length ≤ text.length ∧ field text (i + 1) c.length = c) ↔
      c <+: (text.drop i).tail := by
    rw [List.prefix_iff_eq_take, field, hnext]
    constructor
    · exact fun h => h.2.symm
    · intro h
      have hlen := congrArg List.length h
      rw [List.length_take, ← hnext, List.length_drop] at hlen
      exact ⟨by omega, h.symm⟩
  rw [contractionEnd, List.find?_eq_findSome?_guard, List.map_findSome?]
  refine congrArg (List.findSome? · contractions) (funext fun c => ?_)
  simp only [hfits, Option.guard, decide_eq_true_eq, Function.comp, apply_ite (Option.map _),
    Option.map_some, Option.map_none]

theorem nextPiece_eq {text : List UInt8} {i : ℕ} (hi : i < text.length) :
    nextPiece text i = i + pieceLen (text.drop i) := by
  have hlen : (text.drop i).length = text.length - i := List.length_drop
  have hpast : (if text[i]? = some 0x27 ∧ i + 1 < text.length then contractionEnd text i else none) =
      (contractionLen (text.drop i)).map (i + ·) := by
    rw [contractionEnd_eq text hi, ← List.head?_drop]
    cases hdrop : text.drop i with
    | nil =>
      rw [hdrop, List.length_nil] at hlen
      omega
    | cons c rest =>
      rw [hdrop, List.length_cons] at hlen
      simp only [contractionLen, List.head?_cons, Option.some.injEq, List.tail_cons]
      by_cases hc : c = 0x27
      · cases rest with
        | nil =>
          have hnone : contractions.find? (· <+: []) = none := by decide
          rw [List.length_nil] at hlen
          rw [if_neg (by omega), if_pos hc, hnone, Option.map_none, Option.map_none]
        | cons next rest =>
          rw [if_pos ⟨hc, by simp only [List.length_cons] at hlen; omega⟩, if_pos hc, Option.map_map]
          rfl
      · rw [if_neg fun h => hc h.1, if_neg hc]
        rfl
  simp only [nextPiece, hpast, pieceLen]
  cases contractionLen (text.drop i) with
  | none =>
    simp only [Option.map_none, skipSpace_eq, skipClass_eq, List.drop_drop]
    omega
  | some n => rfl

/-- Every iteration takes at least a byte, so the loop needs at most one for each. -/
theorem pretokenizeLoop_eq (text : List UInt8) (fuel i : ℕ) (out : List (List UInt8))
    (hfuel : text.length ≤ i + fuel) :
    pretokenizeLoop text fuel i out = some (out ++ pretokenizeAscii (text.drop i)) := by
  induction fuel generalizing i out with
  | zero =>
    have hnil : text.drop i = [] := List.drop_of_length_le hfuel
    rw [pretokenizeLoop, if_neg (by omega), hnil, pretokenizeAscii, dif_pos rfl, List.append_nil]
  | succ fuel ih =>
    rw [pretokenizeLoop]
    by_cases hi : i < text.length
    · have hne : text.drop i ≠ [] := by simpa using hi
      have hpos := pieceLen_pos hne
      rw [if_pos hi, pretokenizeAscii, dif_neg hne]
      simp only [nextPiece_eq hi, Nat.add_sub_cancel_left]
      rw [ih _ _ (by omega), List.append_assoc, List.drop_drop]
      rfl
    · have hnil : text.drop i = [] := List.drop_of_length_le (by omega)
      rw [if_neg hi, hnil, pretokenizeAscii, dif_pos rfl, List.append_nil]

/-! ### Where the pieces end -/

theorem isAlpha_ascii {b : UInt8} (h : isAlpha b = true) : b < 0x80 := by
  rcases of_decide_eq_true h with ⟨-, h⟩ | ⟨-, h⟩ <;> exact UInt8.lt_of_le_of_lt h (by decide)

theorem isDigit_ascii {b : UInt8} (h : isDigit b = true) : b < 0x80 :=
  UInt8.lt_of_le_of_lt (of_decide_eq_true h).2 (by decide)

theorem isSpace_ascii {b : UInt8} (h : isSpace b = true) : b < 0x80 := by
  rcases of_decide_eq_true h with rfl | ⟨-, h⟩
  · decide
  · exact UInt8.lt_of_le_of_lt h (by decide)

section

open Utf8

variable {p : UInt8 → Bool}

/-- A run of ASCII bytes. -/
theorem valid_takeWhile_ascii (hp : ∀ b, p b = true → b < 0x80) (text : List UInt8) :
    Valid (text.takeWhile p) :=
  valid_of_ascii fun b hb => hp b (List.all_eq_true.mp List.all_takeWhile b hb)

/-- A run that an ASCII byte or the end of the text stops. -/
theorem valid_takeWhile (hp : ∀ b, p b = false → b < 0x80) {text : List UInt8} (h : Valid text) :
    Valid (text.takeWhile p) := by
  rw [← List.takeWhile_append_dropWhile (p := p) (l := text)] at h
  cases hrest : text.dropWhile p with
  | nil =>
    rwa [hrest, List.append_nil] at h
  | cons b rest =>
    have hb : p b = false := by
      have hstop := List.head?_dropWhile_not p text
      simpa [hrest] using hstop
    rw [hrest] at h
    exact (h.split_ascii (hp b hb)).1

theorem valid_take_classRun {text : List UInt8} (h : Valid text) :
    Valid (text.take (classRun text)) := by
  cases text with
  | nil => simp
  | cons c rest =>
    have htake (p : UInt8 → Bool) :
        (c :: rest).take ((c :: rest).takeWhile p).length = (c :: rest).takeWhile p :=
      (List.prefix_iff_eq_take.mp (List.takeWhile_prefix p)).symm
    simp only [classRun]
    split_ifs
    · rw [htake]
      exact valid_takeWhile_ascii (fun _ => isAlpha_ascii) _
    · rw [htake]
      exact valid_takeWhile_ascii (fun _ => isDigit_ascii) _
    · rw [htake]
      refine valid_takeWhile (fun b hb => ?_) h
      simp only [Bool.and_eq_false_iff, Bool.not_eq_false'] at hb
      rcases hb with (hb | hb) | hb
      · exact isSpace_ascii hb
      · exact isAlpha_ascii hb
      · exact isDigit_ascii hb
    · rw [htake]
      exact valid_takeWhile_ascii (fun _ => isSpace_ascii) _

theorem contractions_ascii : ∀ c ∈ contractions, ∀ b ∈ c, b < 0x80 := by decide +kernel

/-- A piece holds whole characters. -/
theorem valid_take_pieceLen {text : List UInt8} (h : Valid text) :
    Valid (text.take (pieceLen text)) := by
  unfold pieceLen
  split
  · rename_i n hn
    unfold contractionLen at hn
    split at hn
    · cases hn
    · rename_i c rest
      split_ifs at hn with hc
      obtain ⟨tail, htail, rfl⟩ := Option.map_eq_some_iff.mp hn
      have hpre : tail <+: rest := by simpa using List.find?_some htail
      have htake : (c :: rest).take (tail.length + 1) = c :: tail := by
        rw [List.take_succ_cons, ← List.prefix_iff_eq_take.mp hpre]
      rw [htake]
      refine valid_of_ascii (List.forall_mem_cons.mpr ⟨hc ▸ by decide, ?_⟩)
      exact contractions_ascii tail (List.mem_of_find?_eq_some htail)
  · have hspace : Valid (text.take (leadingSpace text)) := by
      unfold leadingSpace
      split
      · split_ifs with hs
        · refine valid_of_ascii fun b hb => ?_
          rw [List.mem_singleton.mp hb, hs.1]
          decide
        · exact valid_nil
      · exact valid_nil
    have hrest : Valid (text.drop (leadingSpace text)) := by
      rw [← List.take_append_drop (leadingSpace text) text] at h
      exact (valid_append_iff hspace).mp h
    rw [List.take_add]
    exact hspace.append (valid_take_classRun hrest)

theorem valid_pieces {text : List UInt8} (h : Valid text) :
    ∀ piece ∈ pretokenizeAscii text, Valid piece := by
  induction text using pretokenizeAscii.induct with
  | case1 =>
    rw [pretokenizeAscii, dif_pos rfl]
    exact fun _ hmem => absurd hmem List.not_mem_nil
  | case2 text hne ih =>
    have hpiece := valid_take_pieceLen h
    rw [← List.take_append_drop (pieceLen text) text] at h
    rw [pretokenizeAscii, dif_neg hne]
    exact List.forall_mem_cons.mpr ⟨hpiece, ih ((valid_append_iff hpiece).mp h)⟩

end

theorem pretokenizeAscii_ne_nil (text : List UInt8) :
    ∀ piece ∈ pretokenizeAscii text, piece ≠ [] := by
  induction text using pretokenizeAscii.induct with
  | case1 =>
    rw [pretokenizeAscii, dif_pos rfl]
    exact fun _ hmem => absurd hmem List.not_mem_nil
  | case2 text hne ih =>
    have hpos := pieceLen_pos hne
    rw [pretokenizeAscii, dif_neg hne]
    refine List.forall_mem_cons.mpr ⟨fun hnil => ?_, ih⟩
    rcases List.take_eq_nil_iff.mp hnil with hzero | hnil
    · omega
    · exact hne hnil

/-- `pretokenize_ascii` ends within one iteration for each byte; its pieces are not empty and
make up the text, and of a UTF-8 text each cut is between two characters. -/
theorem pretokenizeLoop_lossless (text : List UInt8) :
    ∃ pieces, pretokenizeLoop text text.length 0 [] = some pieces ∧
      (∀ piece ∈ pieces, piece ≠ []) ∧ pieces.flatten = text ∧
      ∀ cs : List Char, text = cs.flatMap String.utf8EncodeChar →
        ∀ k, ∃ m, (pieces.take k).flatten = (cs.take m).flatMap String.utf8EncodeChar := by
  refine ⟨pretokenizeAscii text, ?_, pretokenizeAscii_ne_nil text,
    Tokenizer.pretokenizeAscii_flatten text, ?_⟩
  · exact pretokenizeLoop_eq text text.length 0 [] (by omega)
  · rintro cs rfl k
    exact Utf8.take_flatten_of_valid (Tokenizer.pretokenizeAscii_flatten _)
      (valid_pieces (Utf8.valid_iff.mpr ⟨cs, rfl⟩)) k

end JLLM
