import ReflexLlm.Lib.Utf8
import ReflexLlm.Proofs.ThinkSplit

/-! Which segments of a streamed reply are valid UTF-8. A segment ends where a token does,
or seven bytes before that while the splitter holds a tail back for the closing tag, so
it can end in the middle of a character. -/

namespace JLLM

open Search Utf8 ThinkSplit

/-- Where the tokens end in a text of which `len` bytes are there already. -/
def chunkEnds (len : ℕ) : List (List UInt8) → List ℕ
  | [] => []
  | c :: cs => (len + (cString c).length) :: chunkEnds (len + (cString c).length) cs

/-- Cuts in the reasoning: once more than the closing tag's length is pending since the
last cut, all is passed on but one byte less than the closing tag has. -/
def heldCuts : ℕ → List ℕ → List ℕ
  | _, [] => []
  | last, len :: ends =>
      if last + closeTag.length < len then
        (len - (closeTag.length - 1)) :: heldCuts (len - (closeTag.length - 1)) ends
      else heldCuts last ends

/-- Cuts of a text whose answer starts at `start`. -/
def cutsFrom (last : ℕ) (start : Option ℕ) (ends : List ℕ) : List ℕ :=
  match start with
  | none => heldCuts last ends
  | some e => heldCuts last (ends.filter (· < e)) ++ ends.filter (e ≤ ·)

/-- Where the answer of a text starts. -/
def answerStart (s : List UInt8) : Option ℕ :=
  if openTag <+: s then
    (find closeTag (s.drop openTag.length)).map fun pos =>
      openTag.length + (pos + closeTag.length)
  else some 0

/-- Where a reply that comes in these tokens is cut. -/
def cutPoints (chunks : List (List UInt8)) : List ℕ :=
  cutsFrom openTag.length (answerStart (chunkText chunks)) (chunkEnds 0 chunks)

/-- The text and its parts up to each cut are valid UTF-8. -/
def CutsBetweenCharacters (chunks : List (List UInt8)) : Prop :=
  Valid (chunkText chunks) ∧ ∀ p ∈ cutPoints chunks, Valid ((chunkText chunks).take p)

theorem ascii_of_all {bs : List UInt8} (h : (bs.all fun b => decide (b < 0x80)) = true) :
    ∀ b ∈ bs, b < 0x80 :=
  fun b hb => of_decide_eq_true (List.all_eq_true.mp h b hb)

theorem valid_openTag : Valid openTag := valid_of_ascii (ascii_of_all (by decide))

theorem valid_closeTag : Valid closeTag := valid_of_ascii (ascii_of_all (by decide))

theorem chunkEnds_ge {len : ℕ} {chunks : List (List UInt8)} : ∀ p ∈ chunkEnds len chunks, len ≤ p := by
  induction chunks generalizing len with
  | nil => simp [chunkEnds]
  | cons c cs ih =>
    rw [chunkEnds, List.forall_mem_cons]
    exact ⟨Nat.le_add_right _ _, fun p hp => le_trans (Nat.le_add_right _ _) (ih p hp)⟩

/-- Every segment is valid UTF-8. -/
def AllValid (segments : List Segment) : Prop := ∀ seg ∈ segments, Valid seg.2

@[simp] theorem allValid_nil : AllValid [] := fun _ h => absurd h List.not_mem_nil

@[simp] theorem allValid_cons (seg : Segment) (segs : List Segment) :
    AllValid (seg :: segs) ↔ Valid seg.2 ∧ AllValid segs := List.forall_mem_cons

@[simp] theorem allValid_append (xs ys : List Segment) :
    AllValid (xs ++ ys) ↔ AllValid xs ∧ AllValid ys := List.forall_mem_append

/-- A segment that is only emitted when there is something to emit. -/
theorem allValid_unless_nil (kind : SegmentKind) (seg : List UInt8) :
    AllValid (if seg = [] then [] else [(kind, seg)]) ↔ Valid seg := by
  by_cases h : seg = [] <;> simp [h]

theorem run_content_valid {v : List UInt8} (hv : Valid v) (chunks : List (List UInt8)) :
    AllValid (run ⟨.content, []⟩ chunks) ↔
      Valid (v ++ chunkText chunks) ∧
        ∀ p ∈ chunkEnds v.length chunks, Valid ((v ++ chunkText chunks).take p) := by
  induction chunks generalizing v with
  | nil => simp [run, flush, chunkEnds, hv]
  | cons c cs ih =>
    have hrun : run ⟨.content, []⟩ (c :: cs) =
        (if cString c = [] then [] else [(.content, cString c)]) ++ run ⟨.content, []⟩ cs := by
      simp [run, feed, feedContent]
    have htake : (v ++ chunkText (c :: cs)).take (v.length + (cString c).length) =
        v ++ cString c := by
      rw [chunkText_cons, ← List.append_assoc, ← List.length_append, List.take_left]
    rw [hrun, allValid_append, allValid_unless_nil, chunkEnds, List.forall_mem_cons, htake,
      ← valid_append_iff (b := cString c) hv, ← List.length_append, chunkText_cons,
      ← List.append_assoc]
    constructor
    · rintro ⟨hc, hrest⟩
      obtain ⟨hall, hcuts⟩ := (ih hc).mp hrest
      exact ⟨hall, hc, hcuts⟩
    · rintro ⟨hall, hc, hcuts⟩
      exact ⟨hc, (ih hc).mpr ⟨hall, hcuts⟩⟩

/-- The closing tag and the separator behind it are characters of their own. -/
theorem valid_around_close {buf : List UInt8} {pos : ℕ} (h : find closeTag buf = some pos) :
    Valid (buf.take pos) ∧ Valid ((buf.drop (pos + closeTag.length)).dropWhile isSeparator) ↔
      Valid buf := by
  have hsplit := eq_of_find_eq_some h
  have hclose : closeTag = 60 :: closeTag.tail := rfl
  have htail : Valid closeTag.tail := valid_of_ascii (ascii_of_all (by decide))
  have hseps : Valid ((buf.drop (pos + closeTag.length)).takeWhile isSeparator) := by
    refine valid_of_ascii fun b hb => ?_
    have hsep := List.mem_takeWhile_imp hb
    simp only [isSeparator, decide_eq_true_eq] at hsep
    rcases hsep with rfl | rfl <;> decide
  have hdrop : Valid (buf.drop (pos + closeTag.length)) ↔
      Valid ((buf.drop (pos + closeTag.length)).dropWhile isSeparator) := by
    have happ := valid_append_iff (b := (buf.drop (pos + closeTag.length)).dropWhile isSeparator) hseps
    rwa [List.takeWhile_append_dropWhile] at happ
  constructor
  · rintro ⟨hreasoning, hanswer⟩
    rw [hsplit]
    exact (hreasoning.append valid_closeTag).append (hdrop.mpr hanswer)
  · intro hbuf
    rw [hsplit, hclose, List.append_assoc, List.cons_append] at hbuf
    obtain ⟨hreasoning, hrest⟩ := hbuf.split_ascii (by decide)
    exact ⟨hreasoning, hdrop.mp ((valid_append_iff htail).mp hrest)⟩

/-! ### Cuts -/

theorem cutsFrom_start_le {last e : ℕ} {ends : List ℕ} (h : ∀ p ∈ ends, e ≤ p) :
    cutsFrom last (some e) ends = ends := by
  have hlt : ends.filter (· < e) = [] := by
    rw [List.filter_eq_nil_iff]
    intro p hp
    simpa using h p hp
  have hge : ends.filter (e ≤ ·) = ends := by
    rw [List.filter_eq_self]
    intro p hp
    simpa using h p hp
  rw [cutsFrom, hlt, hge]
  rfl

/-- A token that ends before the answer starts. -/
theorem cutsFrom_cons {last len : ℕ} {start : Option ℕ} (h : ∀ e, start = some e → len < e)
    (ends : List ℕ) :
    cutsFrom last start (len :: ends) =
      if last + closeTag.length < len then
        (len - (closeTag.length - 1)) :: cutsFrom (len - (closeTag.length - 1)) start ends
      else cutsFrom last start ends := by
  cases start with
  | none => rfl
  | some e =>
    have hlt := h e rfl
    unfold cutsFrom
    simp only [List.filter_cons, decide_eq_true hlt, decide_eq_false (Nat.not_le.mpr hlt),
      Bool.false_eq_true, if_true, if_false, heldCuts]
    split_ifs <;> rfl

/-- An end within the opening tag is no cut, or a harmless one. -/
theorem cutsFrom_early {last len : ℕ} {start : Option ℕ} {ends : List ℕ} {P : ℕ → Prop}
    (hlen : len ≤ last) (hP : P len) :
    (∀ p ∈ cutsFrom last start (len :: ends), P p) ↔ ∀ p ∈ cutsFrom last start ends, P p := by
  by_cases h : ∀ e, start = some e → len < e
  · rw [cutsFrom_cons h, if_neg (by omega)]
  · push Not at h
    obtain ⟨e, rfl, hle⟩ := h
    unfold cutsFrom
    simp only [List.filter_cons, decide_eq_true hle, decide_eq_false (Nat.not_lt.mpr hle),
      Bool.false_eq_true, if_true, if_false, List.forall_mem_append, List.forall_mem_cons]
    tauto

/-! ### Runs -/

/-- What has been cut at the end of a token, and content after that. -/
theorem content_after {v : List UInt8} {segs : List Segment} (h : AllValid segs ↔ Valid v)
    (chunks : List (List UInt8)) :
    AllValid (segs ++ run ⟨.content, []⟩ chunks) ↔
      Valid (v ++ chunkText chunks) ∧
        ∀ p ∈ v.length :: chunkEnds v.length chunks, Valid ((v ++ chunkText chunks).take p) := by
  rw [allValid_append, h, List.forall_mem_cons, List.take_left]
  constructor
  · rintro ⟨hv, hrest⟩
    obtain ⟨hall, hcuts⟩ := (run_content_valid hv chunks).mp hrest
    exact ⟨hall, hv, hcuts⟩
  · rintro ⟨hall, hv, hcuts⟩
    exact ⟨hv, (run_content_valid hv chunks).mpr ⟨hall, hcuts⟩⟩

theorem feedThinking_valid_found {v buf : List UInt8} {pos : ℕ} (hv : Valid v)
    (h : find closeTag buf = some pos) :
    AllValid (feedThinking buf).2 ↔ Valid (v ++ buf) := by
  rw [valid_append_iff hv, ← valid_around_close h]
  unfold feedThinking
  simp only [h, allValid_append]
  refine and_congr ?_ (allValid_unless_nil _ _)
  rcases Nat.eq_zero_or_pos pos with rfl | hpos
  · simp
  · simp [hpos]

theorem feedThinking_state_found {buf : List UInt8} {pos : ℕ}
    (h : find closeTag buf = some pos) : (feedThinking buf).1 = ⟨.content, []⟩ := by
  unfold feedThinking
  simp only [h]
  rfl

/-- The cuts of a reasoning that goes on with `buf` after `v` fall between characters. -/
def ThinkingCuts (v buf : List UInt8) (chunks : List (List UInt8)) : Prop :=
  Valid (v ++ buf ++ chunkText chunks) ∧
    ∀ p ∈ cutsFrom v.length
        ((find closeTag (buf ++ chunkText chunks)).map fun pos =>
          v.length + (pos + closeTag.length))
        ((v ++ buf).length :: chunkEnds (v ++ buf).length chunks),
      Valid ((v ++ buf ++ chunkText chunks).take p)

theorem feedThinking_valid_opened {v buf : List UInt8} {pos : ℕ} (hv : Valid v)
    (h : find closeTag buf = some pos) (chunks : List (List UInt8)) :
    AllValid ((feedThinking buf).2 ++ (feedThinking buf).1.run chunks) ↔
      ThinkingCuts v buf chunks := by
  have hle : v.length + (pos + closeTag.length) ≤ (v ++ buf).length := by
    have hfits := find_add_length_le h
    rw [List.length_append]
    omega
  rw [ThinkingCuts, find_append_of_some h, Option.map_some, cutsFrom_start_le,
    feedThinking_state_found h]
  · exact content_after (feedThinking_valid_found hv h) chunks
  · rw [List.forall_mem_cons]
    exact ⟨hle, fun p hp => le_trans hle (chunkEnds_ge p hp)⟩

/-- Where the reasoning is cut when a token has come in without the closing tag. -/
theorem cutsFrom_held {v buf out held : List UInt8} {start : Option ℕ} {ends : List ℕ}
    (h : Holds buf out held) (hstart : ∀ e, start = some e → (v ++ buf).length < e) :
    cutsFrom v.length start ((v ++ buf).length :: ends) =
      (if out = [] then [] else [(v ++ out).length]) ++ cutsFrom (v ++ out).length start ends := by
  rw [cutsFrom_cons hstart]
  by_cases hlen : closeTag.length < buf.length
  · obtain ⟨hne, hheld⟩ := h.some hlen
    have hcut : (v ++ buf).length - (closeTag.length - 1) = (v ++ out).length := by
      rw [h.split]
      simp only [List.length_append]
      omega
    rw [if_pos (by rw [List.length_append]; omega), if_neg hne, hcut]
    rfl
  · rw [if_neg (by rw [List.length_append]; omega), h.none hlen]
    simp

theorem held_cut {v out : List UInt8} (hv : Valid v) (rest : List UInt8) :
    (∀ p ∈ if out = [] then [] else [(v ++ out).length], Valid ((v ++ out ++ rest).take p)) ↔
      Valid (v ++ out) := by
  by_cases h : out = []
  · simp [h, hv]
  · rw [if_neg h, List.forall_mem_singleton, List.take_left]

/-- In the reasoning, cuts that lag behind the token ends. -/
theorem feedThinking_valid {v : List UInt8} (hv : Valid v) (buf : List UInt8)
    (chunks : List (List UInt8)) :
    AllValid ((feedThinking buf).2 ++ (feedThinking buf).1.run chunks) ↔
      ThinkingCuts v buf chunks := by
  induction chunks generalizing v buf with
  | nil =>
    cases hfind : find closeTag buf with
    | some pos => exact feedThinking_valid_opened hv hfind []
    | none =>
      obtain ⟨out, held, hholds⟩ := feedThinking_held hfind
      have hflush : AllValid (run ⟨.thinking, held⟩ []) ↔ Valid held := allValid_unless_nil _ _
      simp only [ThinkingCuts, chunkText_nil, List.append_nil, hfind, Option.map_none, chunkEnds]
      rw [hholds.state, hholds.segments, allValid_append, allValid_unless_nil, hflush,
        cutsFrom_held hholds (by simp), hholds.split, ← List.append_assoc, cutsFrom, heldCuts,
        List.append_nil, held_cut hv, ← valid_append_iff (b := out) hv]
      constructor
      · rintro ⟨hout, hheld⟩
        exact ⟨hout.append hheld, hout⟩
      · rintro ⟨hall, hout⟩
        exact ⟨hout, (valid_append_iff hout).mp hall⟩
  | cons c cs ih =>
    cases hfind : find closeTag buf with
    | some pos => exact feedThinking_valid_opened hv hfind (c :: cs)
    | none =>
      obtain ⟨out, held, hholds⟩ := feedThinking_held hfind
      have hrun : (⟨.thinking, held⟩ : ThinkSplit).run (c :: cs) =
          (feedThinking (held ++ cString c)).2 ++ (feedThinking (held ++ cString c)).1.run cs := rfl
      have hstart : (find closeTag (buf ++ chunkText (c :: cs))).map
            (fun pos => v.length + (pos + closeTag.length)) =
          (find closeTag (held ++ cString c ++ chunkText cs)).map
            fun pos => (v ++ out).length + (pos + closeTag.length) := by
        have hsearch := find_append_held (chunkText (c :: cs)) (hholds.split ▸ hfind) hholds.enough
        rw [hholds.split, List.append_assoc, hsearch, Option.map_map, chunkText_cons,
          List.append_assoc]
        congr 1
        funext pos
        rw [Function.comp_apply, List.length_append]
        omega
      have hlate : ∀ e, (find closeTag (buf ++ chunkText (c :: cs))).map
          (fun pos => v.length + (pos + closeTag.length)) = some e → (v ++ buf).length < e := by
        intro e he
        obtain ⟨pos, hpos, rfl⟩ := Option.map_eq_some_iff.mp he
        have hlt := lt_of_find_append hfind hpos
        rw [List.length_append]
        omega
      have htext : v ++ buf ++ chunkText (c :: cs) =
          v ++ out ++ (held ++ cString c) ++ chunkText cs := by
        simp [hholds.split]
      have hends : chunkEnds (v ++ buf).length (c :: cs) =
          (v ++ out ++ (held ++ cString c)).length ::
            chunkEnds (v ++ out ++ (held ++ cString c)).length cs := by
        simp [chunkEnds, hholds.split, Nat.add_assoc]
      rw [hholds.state, hholds.segments, hrun, allValid_append, allValid_unless_nil,
        ThinkingCuts, cutsFrom_held hholds hlate, hstart, hends, List.forall_mem_append, htext,
        List.append_assoc (v ++ out), held_cut hv, ← List.append_assoc (v ++ out),
        ← valid_append_iff (b := out) hv]
      constructor
      · rintro ⟨hout, hrest⟩
        obtain ⟨hall, hcuts⟩ := (ih hout _).mp hrest
        exact ⟨hall, hout, hcuts⟩
      · rintro ⟨hall, hout, hcuts⟩
        exact ⟨hout, (ih hout _).mpr ⟨hall, hcuts⟩⟩

theorem answerStart_opened {s : List UInt8} (h : openTag <+: s) :
    answerStart s = (find closeTag (s.drop openTag.length)).map fun pos =>
      openTag.length + (pos + closeTag.length) := if_pos h

theorem answerStart_plain {s : List UInt8} (h : ¬ openTag <+: s) : answerStart s = some 0 :=
  if_neg h

theorem cutsFrom_nil (last : ℕ) (start : Option ℕ) : cutsFrom last start [] = [] := by
  cases start <;> rfl

/-- What `AllValid` of the rest of a reply amounts to, with `buf` in front of it. -/
def RestCuts (buf : List UInt8) (chunks : List (List UInt8)) : Prop :=
  Valid (buf ++ chunkText chunks) ∧
    ∀ p ∈ cutsFrom openTag.length (answerStart (buf ++ chunkText chunks))
        (buf.length :: chunkEnds buf.length chunks),
      Valid ((buf ++ chunkText chunks).take p)

theorem feedInit_valid_opened {buf : List UInt8} (h : openTag <+: buf)
    (chunks : List (List UInt8)) :
    AllValid ((feedThinking (buf.drop openTag.length)).2 ++
      (feedThinking (buf.drop openTag.length)).1.run chunks) ↔ RestCuts buf chunks := by
  have hopen : openTag <+: buf ++ chunkText chunks := h.trans (List.prefix_append _ _)
  have hbuf : openTag ++ buf.drop openTag.length = buf := (List.prefix_append_drop h).symm
  have hdrop : (buf ++ chunkText chunks).drop openTag.length =
      buf.drop openTag.length ++ chunkText chunks := List.drop_append_of_le_length h.length_le
  rw [feedThinking_valid valid_openTag, ThinkingCuts, hbuf, RestCuts, answerStart_opened hopen,
    hdrop]

theorem feedInit_valid_plain {buf : List UInt8} (h : ∀ t, ¬ openTag <+: buf ++ t)
    (chunks : List (List UInt8)) :
    AllValid ((feedContent buf).2 ++ (feedContent buf).1.run chunks) ↔ RestCuts buf chunks := by
  rw [RestCuts, answerStart_plain (h _), cutsFrom_start_le (fun p _ => Nat.zero_le p)]
  exact content_after (allValid_unless_nil _ _) chunks

theorem valid_of_isPrefix_openTag {buf : List UInt8} (h : buf <+: openTag) : Valid buf := by
  refine valid_of_ascii fun b hb => ?_
  exact ascii_of_all (by decide) b (h.subset hb)

/-- Until the opening tag is decided, nothing is cut. -/
theorem feedInit_valid (buf : List UInt8) (chunks : List (List UInt8)) :
    AllValid ((feedInit buf).2 ++ (feedInit buf).1.run chunks) ↔ RestCuts buf chunks := by
  induction chunks generalizing buf with
  | nil =>
    rcases feedInit_cases buf with ⟨hshort, hpre, hfeed⟩ | ⟨hopen, hfeed⟩ | ⟨hplain, hfeed⟩
    · have hbuf := valid_of_isPrefix_openTag hpre
      have hflush : AllValid (run ⟨.init, buf⟩ []) ↔ Valid buf := allValid_unless_nil _ _
      rw [hfeed, List.nil_append, hflush, RestCuts, chunkText_nil, List.append_nil, chunkEnds,
        cutsFrom_early hshort.le (by rwa [List.take_length]), cutsFrom_nil]
      simp
    · rw [hfeed]
      exact feedInit_valid_opened hopen []
    · rw [hfeed]
      exact feedInit_valid_plain hplain []
  | cons c cs ih =>
    rcases feedInit_cases buf with ⟨hshort, hpre, hfeed⟩ | ⟨hopen, hfeed⟩ | ⟨hplain, hfeed⟩
    · have hbuf := valid_of_isPrefix_openTag hpre
      have hrun : (⟨.init, buf⟩ : ThinkSplit).run (c :: cs) =
          (feedInit (buf ++ cString c)).2 ++ (feedInit (buf ++ cString c)).1.run cs := rfl
      rw [hfeed, List.nil_append, hrun, ih, RestCuts, RestCuts,
        cutsFrom_early hshort.le (by rwa [List.take_left]), chunkEnds, chunkText_cons,
        List.append_assoc, List.length_append]
    · rw [hfeed]
      exact feedInit_valid_opened hopen (c :: cs)
    · rw [hfeed]
      exact feedInit_valid_plain hplain (c :: cs)

/-- The segments of a streamed reply are valid UTF-8 exactly when the text is, and every
cut is between two characters. -/
theorem stream_segments_valid_iff (chunks : List (List UInt8)) :
    (∀ seg ∈ run {} chunks, Valid seg.2) ↔ CutsBetweenCharacters chunks := by
  have hrun : (∀ seg ∈ run {} chunks, Valid seg.2) ↔
      AllValid ((feedInit []).2 ++ (feedInit []).1.run chunks) := Iff.rfl
  rw [hrun, feedInit_valid, RestCuts, List.nil_append, CutsBetweenCharacters, cutPoints]
  exact and_congr_right' (cutsFrom_early (Nat.zero_le _) valid_nil)

/-- A token that ends in the middle of a character is streamed as it is. -/
theorem stream_segment_invalid :
    ¬ ∀ chunks : List (List UInt8), (∀ c ∈ chunks, c ≠ []) → Valid chunks.flatten →
      ∀ seg ∈ run {} chunks, Valid seg.2 := by
  intro h
  have hvalid : Valid [0xC3, 0xA9] := by decide +kernel
  have hseg := h [[0xC3], [0xA9]] (by decide) hvalid (.content, [0xC3]) (by decide)
  revert hseg
  decide +kernel

end JLLM
