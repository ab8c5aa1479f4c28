import ReflexLlm.Proofs.ThinkSplit

/-! What holds of the splitter after every token it is fed: each byte of the text is in a
tag that has been consumed, in a segment that has been passed on, or in the short tail that
is held back. -/

namespace JLLM

open Search

/-- The tags that are behind a splitter of some mode. -/
inductive Consumed : SplitMode → List UInt8 → List UInt8 → Prop
  | undecided : Consumed .init [] []
  | opened : Consumed .thinking openTag []
  | plain : Consumed .content [] []
  | closed {seps : List UInt8} (h : ∀ b ∈ seps, isSeparator b = true) :
      Consumed .content openTag (closeTag ++ seps)

/-- The state of a splitter that was fed a text and has emitted segments. -/
structure SplitInv (fed : List UInt8) (t : ThinkSplit) (segments : List Segment) : Prop where
  account : ∃ opening closing, Consumed t.mode opening closing ∧
    fed = opening ++ absorbed .reasoning segments ++ closing ++
      absorbed .content segments ++ t.buf
  undecided : t.mode = .init → segments = [] ∧ t.buf <+: openTag ∧ t.buf ≠ openTag
  thinking : t.mode = .thinking → t.buf.length ≤ closeTag.length ∧
    (∀ seg ∈ segments, seg.1 = .reasoning) ∧
    find closeTag (absorbed .reasoning segments ++ t.buf) = none ∧
    (absorbed .reasoning segments = [] ∨ closeTag.length ≤ t.buf.length + 1)
  content : t.mode = .content → t.buf = []
  nonempty : ∀ seg ∈ segments, seg.2 ≠ []
  ordered : segments.Pairwise fun a b => a.1 = .content → b.1 = .content
  unclosed : find closeTag (absorbed .reasoning segments) = none

namespace ThinkSplit

theorem feedAll_concat (t : ThinkSplit) (chunks : List (List UInt8)) (c : List UInt8) :
    t.feedAll (chunks ++ [c]) =
      (((t.feedAll chunks).1.feed c).1, (t.feedAll chunks).2 ++ ((t.feedAll chunks).1.feed c).2) := by
  induction chunks generalizing t with
  | nil => simp [feedAll]
  | cons d ds ih => simp only [List.cons_append, feedAll, ih, List.append_assoc]

theorem run_eq_feedAll (t : ThinkSplit) (chunks : List (List UInt8)) :
    t.run chunks = (t.feedAll chunks).2 ++ (t.feedAll chunks).1.flush := by
  induction chunks generalizing t with
  | nil => rfl
  | cons c cs ih => simp only [run, feedAll, ih, List.append_assoc]

end ThinkSplit

open ThinkSplit

theorem closeTag_ne_nil : closeTag ≠ [] := by decide

theorem SplitInv.start : SplitInv [] {} [] where
  account := ⟨[], [], .undecided, rfl⟩
  undecided _ := ⟨rfl, List.nil_prefix, by decide⟩
  thinking h := by cases h
  content h := by cases h
  nonempty := fun _ h => absurd h List.not_mem_nil
  ordered := List.Pairwise.nil
  unclosed := by decide

theorem SplitInv.opened : SplitInv openTag ⟨.thinking, []⟩ [] where
  account := ⟨openTag, [], .opened, by simp⟩
  undecided h := by cases h
  thinking _ := ⟨Nat.zero_le _, fun _ h => absurd h List.not_mem_nil, by decide, .inl rfl⟩
  content h := by cases h
  nonempty := fun _ h => absurd h List.not_mem_nil
  ordered := List.Pairwise.nil
  unclosed := by decide

theorem SplitInv.plain : SplitInv [] ⟨.content, []⟩ [] where
  account := ⟨[], [], .plain, rfl⟩
  undecided h := by cases h
  thinking h := by cases h
  content _ := rfl
  nonempty := fun _ h => absurd h List.not_mem_nil
  ordered := List.Pairwise.nil
  unclosed := by decide

theorem SplitInv.feedContent {fed : List UInt8} {segs : List Segment}
    (h : SplitInv fed ⟨.content, []⟩ segs) (buf : List UInt8) :
    SplitInv (fed ++ buf) (feedContent buf).1 (segs ++ (feedContent buf).2) := by
  obtain ⟨opening, closing, hconsumed, hfed⟩ := h.account
  by_cases hbuf : buf = []
  · subst hbuf
    simpa [ThinkSplit.feedContent] using h
  · have hsegs : (ThinkSplit.feedContent buf).2 = [(.content, buf)] := if_neg hbuf
    have hreasoning : absorbed .reasoning (segs ++ [(.content, buf)]) =
        absorbed .reasoning segs := by simp
    rw [hsegs]
    refine ⟨⟨opening, closing, hconsumed, ?_⟩, (fun hm => by cases hm), (fun hm => by cases hm),
      fun _ => rfl, ?_, ?_, ?_⟩
    · rw [hfed, hreasoning]
      simp [ThinkSplit.feedContent]
    · rw [List.forall_mem_append]
      exact ⟨h.nonempty, by simpa using hbuf⟩
    · rw [List.pairwise_append]
      refine ⟨h.ordered, List.pairwise_singleton _ _, fun a _ b hb _ => ?_⟩
      rw [List.mem_singleton.mp hb]
    · rw [hreasoning]
      exact h.unclosed

/-- Only reasoning has been passed on while the closing tag is awaited. -/
theorem absorbed_content_of_reasoning {segs : List Segment}
    (h : ∀ seg ∈ segs, seg.1 = .reasoning) : absorbed .content segs = [] := by
  induction segs with
  | nil => rfl
  | cons seg segs ih =>
    obtain ⟨hseg, hsegs⟩ := List.forall_mem_cons.mp h
    simp [hseg, ih hsegs]

theorem absorbed_snoc_reasoning (segs : List Segment) (out : List UInt8) :
    absorbed .reasoning (segs ++ if out = [] then [] else [(.reasoning, out)]) =
      absorbed .reasoning segs ++ out := by
  by_cases h : out = [] <;> simp [h]

/-- Reasoning that is passed on keeps the order and is not empty. -/
theorem snoc_reasoning_facts {segs : List Segment} (hkind : ∀ seg ∈ segs, seg.1 = .reasoning)
    (hne : ∀ seg ∈ segs, seg.2 ≠ []) (out : List UInt8) :
    (∀ seg ∈ segs ++ (if out = [] then [] else [(.reasoning, out)]), seg.1 = .reasoning) ∧
      ∀ seg ∈ segs ++ (if out = [] then [] else [(.reasoning, out)]), seg.2 ≠ [] := by
  by_cases h : out = []
  · rw [if_pos h, List.append_nil]
    exact ⟨hkind, hne⟩
  · rw [if_neg h, List.forall_mem_append, List.forall_mem_append, List.forall_mem_singleton,
      List.forall_mem_singleton]
    exact ⟨⟨hkind, rfl⟩, hne, h⟩

theorem pairwise_of_reasoning {segs : List Segment} (h : ∀ seg ∈ segs, seg.1 = .reasoning) :
    segs.Pairwise fun a b => a.1 = .content → b.1 = .content := by
  refine List.pairwise_of_forall_mem_list fun a ha b _ hc => ?_
  rw [h a ha] at hc
  cases hc

/-- The text that the splitter has not given up to is searched for the closing tag. -/
theorem SplitInv.find_fed {fed held : List UInt8} {segs : List Segment}
    (h : SplitInv fed ⟨.thinking, held⟩ segs) (c : List UInt8) :
    find closeTag (absorbed .reasoning segs ++ (held ++ c)) =
      (find closeTag (held ++ c)).map ((absorbed .reasoning segs).length + ·) := by
  obtain ⟨-, -, hnone, hheld⟩ := h.thinking rfl
  exact find_append_held c hnone hheld

theorem SplitInv.fed_eq {fed held : List UInt8} {segs : List Segment}
    (h : SplitInv fed ⟨.thinking, held⟩ segs) :
    fed = openTag ++ absorbed .reasoning segs ++ held := by
  obtain ⟨-, hkind, -, -⟩ := h.thinking rfl
  obtain ⟨opening, closing, hconsumed, hfed⟩ := h.account
  cases hconsumed
  rw [hfed, absorbed_content_of_reasoning hkind]
  simp

/-- The closing tag has not come yet. -/
theorem SplitInv.feedThinking_held {fed held c : List UInt8} {segs : List Segment}
    (h : SplitInv fed ⟨.thinking, held⟩ segs) (hfind : find closeTag (held ++ c) = none) :
    SplitInv (fed ++ c) (feedThinking (held ++ c)).1
      (segs ++ (feedThinking (held ++ c)).2) := by
  obtain ⟨-, hkind, -, hheld⟩ := h.thinking rfl
  change _ ∨ closeTag.length ≤ held.length + 1 at hheld
  obtain ⟨out, held', hholds⟩ := ThinkSplit.feedThinking_held hfind
  obtain ⟨hkind', hne'⟩ := snoc_reasoning_facts hkind h.nonempty out
  have habs := absorbed_snoc_reasoning segs out
  have hsearch : find closeTag (absorbed .reasoning segs ++ out ++ held') = none := by
    rw [List.append_assoc, ← hholds.split, h.find_fed, hfind]
    rfl
  rw [hholds.state, hholds.segments]
  refine ⟨⟨openTag, [], .opened, ?_⟩, (fun hm => by cases hm), fun _ => ⟨?_, hkind', ?_, ?_⟩,
    (fun hm => by cases hm), hne', pairwise_of_reasoning hkind', ?_⟩
  · rw [h.fed_eq, habs, absorbed_content_of_reasoning hkind', List.append_nil, List.append_nil,
      List.append_assoc _ held c, hholds.split]
    simp only [List.append_assoc]
  · change held'.length ≤ closeTag.length
    by_cases hlen : closeTag.length < (held ++ c).length
    · have hlast := (hholds.some hlen).2
      omega
    · obtain rfl := hholds.none hlen
      have hsplit := hholds.split
      rw [List.nil_append] at hsplit
      rw [← hsplit]
      omega
  · rw [habs]
    exact hsearch
  · rw [habs]
    rcases hholds.enough with rfl | henough
    · rcases hheld with hnil | hlong
      · exact .inl (by rw [hnil, List.append_nil])
      · have hlen := congrArg List.length hholds.split
        simp only [List.length_append, List.length_nil] at hlen
        refine .inr ?_
        change closeTag.length ≤ held'.length + 1
        omega
    · exact .inr henough
  · rw [habs]
    rw [find_eq_none_iff_absent] at hsearch ⊢
    exact fun hin => hsearch (hin.trans (List.prefix_append _ _).isInfix)

/-- The closing tag ends in what has just been fed. -/
theorem SplitInv.feedThinking_found {fed held c : List UInt8} {segs : List Segment} {pos : ℕ}
    (h : SplitInv fed ⟨.thinking, held⟩ segs) (hfind : find closeTag (held ++ c) = some pos) :
    SplitInv (fed ++ c) (feedThinking (held ++ c)).1
      (segs ++ (feedThinking (held ++ c)).2) := by
  obtain ⟨-, hkind, -, -⟩ := h.thinking rfl
  obtain ⟨hkind', hne'⟩ := snoc_reasoning_facts hkind h.nonempty ((held ++ c).take pos)
  have habs := absorbed_snoc_reasoning segs ((held ++ c).take pos)
  have hle : pos ≤ (held ++ c).length := (find_eq_some_iff.mp hfind).1
  have hout : (if 0 < pos then [(SegmentKind.reasoning, (held ++ c).take pos)] else []) =
      if (held ++ c).take pos = [] then [] else [(.reasoning, (held ++ c).take pos)] := by
    have hiff : (held ++ c).take pos = [] ↔ ¬ 0 < pos := by
      rw [← List.length_eq_zero_iff, List.length_take]
      omega
    simp only [hiff]
    split_ifs <;> rfl
  have hfound : SplitInv (openTag ++ absorbed .reasoning segs ++ (held ++ c).take pos ++
      (closeTag ++ ((held ++ c).drop (pos + closeTag.length)).takeWhile isSeparator))
      ⟨.content, []⟩ (segs ++ if (held ++ c).take pos = [] then []
        else [(.reasoning, (held ++ c).take pos)]) := by
    have hseps : ∀ b ∈ ((held ++ c).drop (pos + closeTag.length)).takeWhile isSeparator,
        isSeparator b = true := fun b hb => List.mem_takeWhile_imp hb
    refine ⟨⟨openTag, _, .closed hseps, ?_⟩,
      (fun hm => by cases hm), (fun hm => by cases hm), fun _ => rfl, hne',
      pairwise_of_reasoning hkind', ?_⟩
    · rw [habs, absorbed_content_of_reasoning hkind']
      simp only [List.append_assoc, List.append_nil]
    · have hat : find closeTag (absorbed .reasoning segs ++ (held ++ c)) =
          some ((absorbed .reasoning segs).length + pos) := by rw [h.find_fed, hfind]; rfl
      have htake := find_take_of_some closeTag_ne_nil hat
      rwa [List.take_length_add_append, ← habs] at htake
  have hrest := hfound.feedContent
    (((held ++ c).drop (pos + closeTag.length)).dropWhile isSeparator)
  have htext : openTag ++ absorbed .reasoning segs ++ (held ++ c).take pos ++
      (closeTag ++ ((held ++ c).drop (pos + closeTag.length)).takeWhile isSeparator) ++
      ((held ++ c).drop (pos + closeTag.length)).dropWhile isSeparator = fed ++ c := by
    have hparts := eq_of_find_eq_some hfind
    rw [h.fed_eq, List.append_assoc _ held c]
    conv_rhs => rw [hparts]
    simp only [List.append_assoc, List.takeWhile_append_dropWhile]
  rw [htext] at hrest
  unfold feedThinking
  simp only [hfind, hout, ← List.append_assoc]
  exact hrest

theorem SplitInv.feedThinking {fed held : List UInt8} {segs : List Segment}
    (h : SplitInv fed ⟨.thinking, held⟩ segs) (c : List UInt8) :
    SplitInv (fed ++ c) (feedThinking (held ++ c)).1
      (segs ++ (feedThinking (held ++ c)).2) := by
  cases hfind : find closeTag (held ++ c) with
  | none => exact h.feedThinking_held hfind
  | some pos => exact h.feedThinking_found hfind

/-- One token. -/
theorem SplitInv.feed {fed : List UInt8} {t : ThinkSplit} {segs : List Segment}
    (h : SplitInv fed t segs) (chunk : List UInt8) :
    SplitInv (fed ++ cString chunk) (t.feed chunk).1 (segs ++ (t.feed chunk).2) := by
  obtain ⟨mode, buf⟩ := t
  cases mode with
  | init =>
    obtain ⟨rfl, -, -⟩ := h.undecided rfl
    obtain ⟨opening, closing, hconsumed, hfed⟩ := h.account
    cases hconsumed
    obtain rfl : fed = buf := hfed
    have hfeed : (⟨.init, fed⟩ : ThinkSplit).feed chunk = feedInit (fed ++ cString chunk) := rfl
    rw [hfeed]
    rcases feedInit_cases (fed ++ cString chunk) with
      ⟨hshort, hpre, heq⟩ | ⟨⟨rest, hrest⟩, heq⟩ | ⟨-, heq⟩
    · rw [heq]
      refine ⟨⟨[], [], .undecided, rfl⟩, fun _ => ⟨rfl, hpre, fun hall => ?_⟩,
        (fun hm => by cases hm), (fun hm => by cases hm), h.nonempty, h.ordered, h.unclosed⟩
      have hlen := congrArg List.length hall
      exact absurd hlen hshort.ne
    · rw [heq, ← hrest, List.drop_left]
      exact SplitInv.opened.feedThinking rest
    · rw [heq]
      exact SplitInv.plain.feedContent (fed ++ cString chunk)
  | thinking => exact h.feedThinking (cString chunk)
  | content =>
    obtain rfl : buf = [] := h.content rfl
    exact h.feedContent (cString chunk)

theorem splitInv_feedAll (chunks : List (List UInt8)) :
    SplitInv (chunkText chunks) (feedAll {} chunks).1 (feedAll {} chunks).2 := by
  induction chunks using List.reverseRecOn with
  | nil => exact SplitInv.start
  | append_singleton chunks c ih =>
    have htext : chunkText (chunks ++ [c]) = chunkText chunks ++ cString c := by
      simp [chunkText]
    rw [htext, feedAll_concat]
    exact ih.feed c

/-- After every feed, the text so far is the tags that were consumed, what was emitted, and
a tail that is held back: part of the opening tag, or at most as many bytes as the closing
tag has. -/
theorem feedAll_accounts (chunks : List (List UInt8)) (h : (0 : UInt8) ∉ chunks.flatten) :
    (∃ opening closing, Consumed (feedAll {} chunks).1.mode opening closing ∧
        chunks.flatten = opening ++ absorbed .reasoning (feedAll {} chunks).2 ++ closing ++
          absorbed .content (feedAll {} chunks).2 ++ (feedAll {} chunks).1.buf) ∧
      ((feedAll {} chunks).1.mode = .init →
        (feedAll {} chunks).1.buf <+: openTag ∧ (feedAll {} chunks).1.buf ≠ openTag) ∧
      ((feedAll {} chunks).1.mode = .thinking →
        (feedAll {} chunks).1.buf.length ≤ 8 ∧ ¬ closeTag <:+: (feedAll {} chunks).1.buf) ∧
      ((feedAll {} chunks).1.mode = .content → (feedAll {} chunks).1.buf = []) ∧
      (∀ seg ∈ (feedAll {} chunks).2, seg.2 ≠ []) ∧
      (feedAll {} chunks).2.Pairwise (fun a b => a.1 = .content → b.1 = .content) ∧
      ¬ closeTag <:+: absorbed .reasoning (feedAll {} chunks).2 := by
  have hinv := splitInv_feedAll chunks
  have htext : chunkText chunks = chunks.flatten := by
    rw [← chunkText_eq_flatten, cString_of_nul_free h]
  refine ⟨htext ▸ hinv.account, fun hm => (hinv.undecided hm).2, fun hm => ⟨?_, ?_⟩,
    hinv.content, hinv.nonempty, hinv.ordered, find_eq_none_iff_absent.mp hinv.unclosed⟩
  · exact (hinv.thinking hm).1
  · obtain ⟨-, -, hnone, -⟩ := hinv.thinking hm
    rw [find_eq_none_iff_absent] at hnone
    exact fun hin => hnone (hin.trans (List.suffix_append _ _).isInfix)

/-- A closing tag that comes in two pieces. -/
theorem feedAll_accounts_straddle :
    (feedAll {} [openTag, [65, 66, 60, 47, 116], [104, 105, 110, 107, 62, 10, 67]]).2 =
        [(.reasoning, [65, 66]), (.content, [67])] ∧
      ¬ closeTag <:+: absorbed .reasoning
        (feedAll {} [openTag, [65, 66, 60, 47, 116], [104, 105, 110, 107, 62, 10, 67]]).2 :=
  ⟨by decide, (feedAll_accounts
    [openTag, [65, 66, 60, 47, 116], [104, 105, 110, 107, 62, 10, 67]]
    (by decide)).2.2.2.2.2.2⟩

end JLLM
