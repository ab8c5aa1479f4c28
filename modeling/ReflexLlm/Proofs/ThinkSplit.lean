import Mathlib.Data.List.TakeWhile
import ReflexLlm.Spec.ThinkSplit

/-! What the splitter makes of a text that comes in pieces, against a split of the whole
text at once. The tags are found wherever the pieces end. The separator behind the closing
tag is only dropped from the piece in which that tag ends. -/

namespace JLLM

open Search

/-- The bytes that reach the splitter's buffer. -/
def chunkText (chunks : List (List UInt8)) : List UInt8 := chunks.flatMap cString

/-- The split of a whole text. -/
def referenceSplit (s : List UInt8) : List UInt8 × List UInt8 :=
  if openTag <+: s then
    let rest := s.drop openTag.length
    match find closeTag rest with
    | some pos =>
        (rest.take pos, (rest.drop (pos + closeTag.length)).dropWhile isSeparator)
    | none => (rest, [])
  else ([], s)

/-- The text behind position `e`: what its piece still holds, and the later pieces. -/
def cutAt : ℕ → List (List UInt8) → List UInt8 × List UInt8
  | _, [] => ([], [])
  | e, c :: cs => if e ≤ c.length then (c.drop e, cs.flatten) else cutAt (e - c.length) cs

/-- The separator behind the closing tag, if there is one, does not go on past the end of
the piece in which that tag ends. -/
def SeparatorUncut (chunks : List (List UInt8)) : Prop :=
  ∀ pos, openTag <+: chunks.flatten →
    find closeTag (chunks.flatten.drop openTag.length) = some pos →
    (∃ b ∈ (cutAt (openTag.length + (pos + closeTag.length)) chunks).1, isSeparator b = false) ∨
      ∀ b ∈ (cutAt (openTag.length + (pos + closeTag.length)) chunks).2.head?,
        isSeparator b = false

@[simp] theorem openTag_length : openTag.length = 7 := rfl

@[simp] theorem closeTag_length : closeTag.length = 8 := rfl

@[simp] theorem chunkText_nil : chunkText [] = [] := rfl

@[simp] theorem chunkText_cons (c : List UInt8) (cs : List (List UInt8)) :
    chunkText (c :: cs) = cString c ++ chunkText cs := rfl

theorem chunkText_eq_flatten (chunks : List (List UInt8)) :
    (chunks.map cString).flatten = chunkText chunks := by
  rw [chunkText, List.flatMap_def]

@[simp] theorem absorbed_nil (kind : SegmentKind) : absorbed kind [] = [] := rfl

@[simp] theorem absorbed_append (kind : SegmentKind) (xs ys : List Segment) :
    absorbed kind (xs ++ ys) = absorbed kind xs ++ absorbed kind ys := by
  simp [absorbed]

@[simp] theorem absorbed_cons (kind : SegmentKind) (seg : Segment) (segs : List Segment) :
    absorbed kind (seg :: segs) =
      (if seg.1 = kind then seg.2 else []) ++ absorbed kind segs := by
  by_cases h : seg.1 = kind <;> simp [absorbed, h]

/-! ### Where a text is cut -/

theorem cutAt_flatten {e : ℕ} {chunks : List (List UInt8)} :
    (cutAt e chunks).1 ++ (cutAt e chunks).2 = chunks.flatten.drop e := by
  induction chunks generalizing e with
  | nil => simp [cutAt]
  | cons c cs ih =>
    unfold cutAt
    split_ifs with h
    · rw [List.flatten_cons, List.drop_append_of_le_length h]
    · have hnil : c.drop e = [] := List.drop_eq_nil_of_le (by omega)
      rw [ih, List.flatten_cons, List.drop_append, hnil, List.nil_append]

theorem cutAt_merge {e : ℕ} {b c : List UInt8} {cs : List (List UInt8)} (h : b.length < e) :
    cutAt e (b :: c :: cs) = cutAt e ((b ++ c) :: cs) := by
  have hsub : e - b.length ≤ c.length ↔ e ≤ (b ++ c).length := by
    rw [List.length_append]
    omega
  rw [cutAt, if_neg (by omega), cutAt, cutAt]
  simp only [hsub]
  split_ifs with hle
  · rw [List.drop_append, List.drop_eq_nil_of_le h.le, List.nil_append]
  · rw [List.length_append, Nat.sub_sub]

theorem cutAt_drop {e k : ℕ} {c : List UInt8} {cs : List (List UInt8)} (h : k ≤ c.length) :
    cutAt (k + e) (c :: cs) = cutAt e (c.drop k :: cs) := by
  have hsub : k + e ≤ c.length ↔ e ≤ (c.drop k).length := by
    rw [List.length_drop]
    omega
  unfold cutAt
  simp only [hsub]
  split_ifs with hle
  · rw [List.drop_drop]
  · rw [List.length_drop, show k + e - c.length = e - (c.length - k) by omega]

/-! ### Runs of the splitter -/

namespace ThinkSplit

/-- From `CONTENT` on, everything is content. -/
theorem run_content (chunks : List (List UInt8)) :
    absorbed .reasoning (run ⟨.content, []⟩ chunks) = [] ∧
      absorbed .content (run ⟨.content, []⟩ chunks) = chunkText chunks := by
  induction chunks with
  | nil => exact ⟨rfl, rfl⟩
  | cons c cs ih =>
    obtain ⟨hreasoning, hcontent⟩ := ih
    by_cases hc : cString c = []
    · simp [run, feed, feedContent, hc, hreasoning, hcontent]
    · simp [run, feed, feedContent, hc, hreasoning, hcontent]

/-- Without a closing tag in the buffer, all of it but a tail is passed on. -/
structure Holds (buf out held : List UInt8) : Prop where
  split : buf = out ++ held
  some : closeTag.length < buf.length → out ≠ [] ∧ held.length + 1 = closeTag.length
  none : ¬ closeTag.length < buf.length → out = []
  state : (feedThinking buf).1 = ⟨.thinking, held⟩
  segments : (feedThinking buf).2 = if out = [] then [] else [(.reasoning, out)]

theorem feedThinking_held {buf : List UInt8} (h : find closeTag buf = none) :
    ∃ out held, Holds buf out held := by
  by_cases hlen : closeTag.length < buf.length
  · have hne : buf.take (buf.length - (closeTag.length - 1)) ≠ [] := by
      rw [← List.length_pos_iff, List.length_take]
      omega
    refine ⟨buf.take (buf.length - (closeTag.length - 1)),
      buf.drop (buf.length - (closeTag.length - 1)), (List.take_append_drop _ _).symm,
      fun _ => ⟨hne, ?_⟩, fun hn => absurd hlen hn, ?_, ?_⟩
    · rw [closeTag_length] at hlen ⊢
      rw [List.length_drop]
      omega
    · unfold feedThinking
      simp only [h, if_pos hlen]
    · unfold feedThinking
      simp only [h, if_pos hlen, if_neg hne]
  · refine ⟨[], buf, rfl, fun hl => absurd hl hlen, fun _ => rfl, ?_, ?_⟩
    · unfold feedThinking
      simp only [h, if_neg hlen]
    · unfold feedThinking
      simp only [h, if_neg hlen, if_true]

theorem Holds.enough {buf out held : List UInt8} (h : Holds buf out held) :
    out = [] ∨ closeTag.length ≤ held.length + 1 := by
  by_cases hlen : closeTag.length < buf.length
  · exact .inr (h.some hlen).2.ge
  · exact .inl (h.none hlen)

/-- The answer behind a closing tag that ends at `e`. -/
def answerFrom (e : ℕ) (chunks : List (List UInt8)) : List UInt8 :=
  (cutAt e chunks).1.dropWhile isSeparator ++ (cutAt e chunks).2

theorem run_feedContent (buf : List UInt8) (chunks : List (List UInt8)) :
    absorbed .reasoning ((feedContent buf).2 ++ (feedContent buf).1.run chunks) = [] ∧
      absorbed .content ((feedContent buf).2 ++ (feedContent buf).1.run chunks) =
        buf ++ chunkText chunks := by
  obtain ⟨hreasoning, hcontent⟩ := run_content chunks
  unfold feedContent
  split_ifs with hbuf
  · simp [hreasoning, hcontent, hbuf]
  · simp [hreasoning, hcontent]

/-- The piece in which the closing tag ends. -/
theorem feedThinking_run_found {buf : List UInt8} {pos : ℕ} (h : find closeTag buf = some pos)
    (chunks : List (List UInt8)) :
    absorbed .reasoning ((feedThinking buf).2 ++ (feedThinking buf).1.run chunks) =
        buf.take pos ∧
      absorbed .content ((feedThinking buf).2 ++ (feedThinking buf).1.run chunks) =
        answerFrom (pos + closeTag.length) (buf :: chunks.map cString) := by
  obtain ⟨hreasoning, hcontent⟩ :=
    run_feedContent ((buf.drop (pos + closeTag.length)).dropWhile isSeparator) chunks
  have hcut : cutAt (pos + closeTag.length) (buf :: chunks.map cString) =
      (buf.drop (pos + closeTag.length), chunkText chunks) := by
    rw [cutAt, if_pos (find_add_length_le h), chunkText_eq_flatten]
  rw [answerFrom, hcut]
  unfold feedThinking
  simp only [h, List.append_assoc, absorbed_append _ (if 0 < pos then _ else _), hreasoning,
    hcontent]
  rcases Nat.eq_zero_or_pos pos with rfl | hpos
  · simp
  · simp [hpos]

/-- The closing tag is found wherever the pieces end. -/
theorem feedThinking_run (buf : List UInt8) (chunks : List (List UInt8)) :
    absorbed .reasoning ((feedThinking buf).2 ++ (feedThinking buf).1.run chunks) =
        (match find closeTag (buf ++ chunkText chunks) with
          | some pos => (buf ++ chunkText chunks).take pos
          | none => buf ++ chunkText chunks) ∧
      absorbed .content ((feedThinking buf).2 ++ (feedThinking buf).1.run chunks) =
        match find closeTag (buf ++ chunkText chunks) with
          | some pos => answerFrom (pos + closeTag.length) (buf :: chunks.map cString)
          | none => [] := by
  induction chunks generalizing buf with
  | nil =>
    cases hfind : find closeTag buf with
    | some pos =>
      simp only [chunkText_nil, List.append_nil, hfind]
      exact feedThinking_run_found hfind []
    | none =>
      obtain ⟨out, held, hholds⟩ := feedThinking_held hfind
      have hstate := hholds.state
      have hout := hholds.segments
      obtain rfl := hholds.split
      simp only [chunkText_nil, List.append_nil, hfind, hstate, hout]
      by_cases hnil : out = [] <;> by_cases hheld : held = [] <;> simp [run, flush, hnil, hheld]
  | cons c cs ih =>
    cases hfind : find closeTag buf with
    | some pos =>
      have hle : pos ≤ buf.length := (find_eq_some_iff.mp hfind).1
      obtain ⟨hreasoning, hcontent⟩ := feedThinking_run_found hfind (c :: cs)
      rw [find_append_of_some hfind, hreasoning, hcontent]
      exact ⟨(List.take_append_of_le_length hle).symm, rfl⟩
    | none =>
      obtain ⟨out, held, hholds⟩ := feedThinking_held hfind
      have hheld := hholds.enough
      have hstate := hholds.state
      have hout := hholds.segments
      obtain rfl := hholds.split
      obtain ⟨hreasoning, hcontent⟩ := ih (held ++ cString c)
      have hrun : (⟨.thinking, held⟩ : ThinkSplit).run (c :: cs) =
          (feedThinking (held ++ cString c)).2 ++ (feedThinking (held ++ cString c)).1.run cs := rfl
      have hsearch : find closeTag (out ++ held ++ chunkText (c :: cs)) =
          (find closeTag (held ++ cString c ++ chunkText cs)).map (out.length + ·) := by
        rw [chunkText_cons, List.append_assoc, find_append_held _ hfind hheld, List.append_assoc]
      have hemitted (kind : SegmentKind) :
          absorbed kind (if out = [] then [] else [(.reasoning, out)]) =
            if kind = .reasoning then out else [] := by
        by_cases hnil : out = [] <;> cases kind <;> simp [hnil]
      rw [hstate, hout, hrun, absorbed_append, absorbed_append _ (if out = [] then _ else _),
        hreasoning, hcontent, hsearch, hemitted, hemitted]
      cases hrest : find closeTag (held ++ cString c ++ chunkText cs) with
      | none => simp
      | some pos =>
        -- the tag does not end in the part that has been searched
        rw [hrest, Option.map_some, chunkText_cons] at hsearch
        have hlate := lt_of_find_append hfind hsearch
        have hcut : cutAt (out.length + pos + closeTag.length)
            ((out ++ held) :: (c :: cs).map cString) =
              cutAt (pos + closeTag.length) ((held ++ cString c) :: cs.map cString) := by
          have hdrop : ((out ++ held) ++ cString c).drop out.length = held ++ cString c := by
            rw [List.append_assoc, List.drop_left]
          rw [List.map_cons, cutAt_merge hlate, Nat.add_assoc, cutAt_drop (by simp), hdrop]
        simp only [Option.map_some, if_true, reduceCtorEq, if_false, List.nil_append]
        refine ⟨?_, by rw [answerFrom, answerFrom, hcut]⟩
        simp only [chunkText_cons, List.append_assoc, List.take_length_add_append]

/-- The cases of `INIT`: undecided, opened, or no opening tag to come. -/
theorem feedInit_cases (buf : List UInt8) :
    (buf.length < openTag.length ∧ buf <+: openTag ∧ feedInit buf = (⟨.init, buf⟩, [])) ∨
      (openTag <+: buf ∧ feedInit buf = feedThinking (buf.drop openTag.length)) ∨
      ((∀ t, ¬ openTag <+: buf ++ t) ∧ feedInit buf = feedContent buf) := by
  unfold feedInit
  split_ifs with hshort hopen
  · have hpre : openTag.take buf.length <+: openTag := List.take_prefix _ _
    rw [hshort.2] at hpre
    exact .inl ⟨hshort.1, hpre, rfl⟩
  · exact .inr (.inl ⟨hopen, rfl⟩)
  · refine .inr (.inr ⟨fun t ht => ?_, rfl⟩)
    rcases Nat.lt_or_ge buf.length openTag.length with hlt | hge
    · have hpre : buf <+: openTag :=
        List.prefix_of_prefix_length_le (List.prefix_append _ _) ht hlt.le
      exact hshort ⟨hlt, (List.prefix_iff_eq_take.mp hpre).symm⟩
    · exact hopen (List.prefix_of_prefix_length_le ht (List.prefix_append _ _) hge)

/-- The answer when it is known what the text begins with. -/
def contentOf (chunks : List (List UInt8)) : List UInt8 :=
  if openTag <+: chunks.flatten then
    match find closeTag (chunks.flatten.drop openTag.length) with
    | some pos => answerFrom (openTag.length + (pos + closeTag.length)) chunks
    | none => []
  else chunks.flatten

theorem referenceSplit_opened {s : List UInt8} (h : openTag <+: s) :
    (referenceSplit s).1 =
      match find closeTag (s.drop openTag.length) with
      | some pos => (s.drop openTag.length).take pos
      | none => s.drop openTag.length := by
  rw [referenceSplit, if_pos h]
  cases hfind : find closeTag (s.drop openTag.length) with
  | none => simp only [hfind]
  | some pos => simp only [hfind]

theorem referenceSplit_plain {s : List UInt8} (h : ¬ openTag <+: s) :
    referenceSplit s = ([], s) := if_neg h

theorem feedInit_run_opened {buf : List UInt8} (h : openTag <+: buf) (chunks : List (List UInt8)) :
    absorbed .reasoning ((feedThinking (buf.drop openTag.length)).2 ++
        (feedThinking (buf.drop openTag.length)).1.run chunks) =
          (referenceSplit (buf ++ chunkText chunks)).1 ∧
      absorbed .content ((feedThinking (buf.drop openTag.length)).2 ++
        (feedThinking (buf.drop openTag.length)).1.run chunks) =
          contentOf (buf :: chunks.map cString) := by
  have hopen : openTag <+: buf ++ chunkText chunks := h.trans (List.prefix_append _ _)
  have hdrop : (buf ++ chunkText chunks).drop openTag.length =
      buf.drop openTag.length ++ chunkText chunks := List.drop_append_of_le_length h.length_le
  obtain ⟨hreasoning, hcontent⟩ := feedThinking_run (buf.drop openTag.length) chunks
  rw [hreasoning, hcontent, referenceSplit_opened hopen, contentOf, List.flatten_cons,
    chunkText_eq_flatten, if_pos hopen, hdrop]
  refine ⟨rfl, ?_⟩
  cases find closeTag (buf.drop openTag.length ++ chunkText chunks) with
  | none => rfl
  | some pos => simp only [answerFrom, cutAt_drop h.length_le]

theorem feedInit_run_plain {buf : List UInt8} (h : ∀ t, ¬ openTag <+: buf ++ t)
    (chunks : List (List UInt8)) :
    absorbed .reasoning ((feedContent buf).2 ++ (feedContent buf).1.run chunks) =
        (referenceSplit (buf ++ chunkText chunks)).1 ∧
      absorbed .content ((feedContent buf).2 ++ (feedContent buf).1.run chunks) =
        contentOf (buf :: chunks.map cString) := by
  obtain ⟨hreasoning, hcontent⟩ := run_feedContent buf chunks
  rw [hreasoning, hcontent, referenceSplit_plain (h _), contentOf, List.flatten_cons,
    chunkText_eq_flatten, if_neg (h _)]
  exact ⟨rfl, rfl⟩

theorem contentOf_merge {b c : List UInt8} (h : b.length < openTag.length)
    (cs : List (List UInt8)) : contentOf (b :: c :: cs) = contentOf ((b ++ c) :: cs) := by
  have hflat : (b :: c :: cs).flatten = ((b ++ c) :: cs).flatten := by simp
  unfold contentOf
  rw [hflat]
  split_ifs
  · cases find closeTag (((b ++ c) :: cs).flatten.drop openTag.length) with
    | none => rfl
    | some pos =>
      simp only [answerFrom]
      rw [cutAt_merge (by omega)]
  · rfl

/-- The opening tag is told apart wherever the pieces end. -/
theorem feedInit_run (buf : List UInt8) (chunks : List (List UInt8)) :
    absorbed .reasoning ((feedInit buf).2 ++ (feedInit buf).1.run chunks) =
        (referenceSplit (buf ++ chunkText chunks)).1 ∧
      absorbed .content ((feedInit buf).2 ++ (feedInit buf).1.run chunks) =
        contentOf (buf :: chunks.map cString) := by
  induction chunks generalizing buf with
  | nil =>
    rcases feedInit_cases buf with ⟨hshort, -, hfeed⟩ | ⟨hopen, hfeed⟩ | ⟨hplain, hfeed⟩
    · have hno : ¬ openTag <+: buf := fun h => absurd h.length_le (by omega)
      rw [hfeed]
      by_cases hbuf : buf = []
      · simp [run, flush, referenceSplit_plain, contentOf, hbuf, openTag]
      · simp [run, flush, referenceSplit_plain, contentOf, hno, hbuf]
    · rw [hfeed]
      exact feedInit_run_opened hopen []
    · rw [hfeed]
      exact feedInit_run_plain hplain []
  | cons c cs ih =>
    rcases feedInit_cases buf with ⟨hshort, -, hfeed⟩ | ⟨hopen, hfeed⟩ | ⟨hplain, hfeed⟩
    · obtain ⟨hreasoning, hcontent⟩ := ih (buf ++ cString c)
      have hrun : (⟨.init, buf⟩ : ThinkSplit).run (c :: cs) =
          (feedInit (buf ++ cString c)).2 ++ (feedInit (buf ++ cString c)).1.run cs := rfl
      rw [hfeed, List.nil_append, hrun, hreasoning, hcontent, List.map_cons,
        contentOf_merge hshort, chunkText_cons, List.append_assoc]
      exact ⟨rfl, rfl⟩
    · rw [hfeed]
      exact feedInit_run_opened hopen (c :: cs)
    · rw [hfeed]
      exact feedInit_run_plain hplain (c :: cs)

end ThinkSplit

open ThinkSplit

theorem splitChunks_eq (chunks : List (List UInt8)) :
    splitChunks chunks =
      ((referenceSplit (chunkText chunks)).1, contentOf ([] :: chunks.map cString)) := by
  obtain ⟨hreasoning, hcontent⟩ := feedInit_run [] chunks
  exact Prod.ext hreasoning hcontent

/-- Dropping from the first part only is dropping from both, where no separator goes on
from the one into the other. -/
theorem dropWhile_append_iff {α : Type} (p : α → Bool) (z w : List α) :
    z.dropWhile p ++ w = (z ++ w).dropWhile p ↔
      (∃ b ∈ z, p b = false) ∨ ∀ b ∈ w.head?, p b = false := by
  induction z with
  | nil =>
    cases w with
    | nil => simp
    | cons b w =>
      cases hb : p b with
      | true =>
        have hne : b :: w ≠ w.dropWhile p := by
          intro h
          have hle := (List.dropWhile_suffix (l := w) p).length_le
          rw [← h, List.length_cons] at hle
          omega
        simp [hb, hne]
      | false => simp [hb]
  | cons a z ih =>
    cases ha : p a with
    | true => simpa [ha] using ih
    | false => simp [ha]

theorem contentOf_nil_cons (chunks : List (List UInt8)) :
    contentOf ([] :: chunks) = contentOf chunks := by
  unfold contentOf
  rw [List.flatten_cons, List.nil_append]
  split_ifs
  · cases find closeTag (chunks.flatten.drop openTag.length) with
    | none => rfl
    | some pos =>
      have hcut (e : ℕ) (he : 0 < e) : cutAt e ([] :: chunks) = cutAt e chunks := by
        rw [cutAt, List.length_nil, if_neg (by omega), Nat.sub_zero]
      simp only [answerFrom]
      rw [hcut _ (by rw [openTag_length]; omega)]
  · rfl

theorem cString_of_nul_free {chunks : List (List UInt8)} (h : (0 : UInt8) ∉ chunks.flatten) :
    chunks.map cString = chunks := by
  have hid : ∀ c ∈ chunks, cString c = id c := by
    intro c hc
    refine List.takeWhile_eq_self_iff.mpr fun b hb => ?_
    have hne : b ≠ 0 := fun h0 => h (List.mem_flatten_of_mem hc (h0 ▸ hb))
    simpa using hne
  rw [List.map_congr_left hid, List.map_id]

/-- Splitting piece by piece gives the split of the whole text exactly when the separator
behind the closing tag ends with the piece in which that tag does. -/
theorem splitChunks_eq_reference_iff (chunks : List (List UInt8))
    (h : (0 : UInt8) ∉ chunks.flatten) :
    splitChunks chunks = referenceSplit chunks.flatten ↔ SeparatorUncut chunks := by
  have hmap := cString_of_nul_free h
  have htext : chunkText chunks = chunks.flatten := by
    rw [← chunkText_eq_flatten, hmap]
  have hcontent : splitChunks chunks = referenceSplit chunks.flatten ↔
      contentOf chunks = (referenceSplit chunks.flatten).2 := by
    rw [splitChunks_eq, htext, hmap, contentOf_nil_cons]
    constructor
    · exact fun heq => congrArg Prod.snd heq
    · exact fun heq => Prod.ext rfl heq
  rw [hcontent, SeparatorUncut, contentOf]
  by_cases hopen : openTag <+: chunks.flatten
  · rw [referenceSplit, if_pos hopen, if_pos hopen]
    cases hfind : find closeTag (chunks.flatten.drop openTag.length) with
    | none =>
      simp only [hfind]
      simp
    | some pos =>
      have hcut : (chunks.flatten.drop openTag.length).drop (pos + closeTag.length) =
          (cutAt (openTag.length + (pos + closeTag.length)) chunks).1 ++
            (cutAt (openTag.length + (pos + closeTag.length)) chunks).2 := by
        rw [cutAt_flatten, List.drop_drop]
      simp only [hfind, hcut, answerFrom, dropWhile_append_iff]
      simp [hopen]
  · rw [referenceSplit_plain hopen, if_neg hopen]
    simp [hopen]

/-- A reasoning text and an answer; the newlines come in the token of the closing tag. -/
def wholeSeparator : List (List UInt8) :=
  [openTag, [50, 43, 50], closeTag ++ [10, 10], [52]]

theorem splitChunks_wholeSeparator :
    splitChunks wholeSeparator = referenceSplit wholeSeparator.flatten :=
  (splitChunks_eq_reference_iff wholeSeparator (by decide)).mpr fun pos _ hpos => by
    obtain rfl : 3 = pos := Option.some.inj ((by decide : some 3 = _).trans hpos)
    refine .inr fun b hb => ?_
    have hhead : (cutAt 18 wholeSeparator).2.head? = some 52 := by decide
    obtain rfl : 52 = b := Option.some.inj (hhead.symm.trans hb)
    decide

/-- The same text; the newlines come in a token of their own. -/
def separateNewlines : List (List UInt8) :=
  [openTag, [50, 43, 50], closeTag, [10, 10], [52]]

/-- A separator that comes in a token of its own is kept. -/
theorem splitChunks_keeps_separator :
    ¬ ∀ chunks : List (List UInt8), (0 : UInt8) ∉ chunks.flatten →
      splitChunks chunks = referenceSplit chunks.flatten := by
  intro h
  have hsplit := h separateNewlines (by decide)
  revert hsplit
  decide

end JLLM
