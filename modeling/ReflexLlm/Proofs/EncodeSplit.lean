import Mathlib.Data.List.Find
import ReflexLlm.Proofs.Hydrate
import ReflexLlm.Proofs.Tokenizer

/-! Encoding splits at a special token: the scan of what stands before the token does not
see what comes behind it, unless another special token reaches across. So the tokens of a
history that ends at a special token are a prefix of the tokens of what extends it. -/

namespace JLLM

namespace Tokenizer

/-- The special token `tok` occurs in the text at position `i`. -/
structure SpecialOccurs (t : Tokenizer) (text : List UInt8) (i : ℕ) (tok : List UInt8) : Prop where
  special : ∃ id, (tok, id) ∈ t.specialTokens
  here : tok <+: text.drop i

/-- The id of a special token. -/
def specialId (t : Tokenizer) (tok : List UInt8) : Option ℕ :=
  (t.specialTokens.find? (·.1 = tok)).map (·.2)

/-- Where no two special tokens have one text, each has its own id. -/
theorem specialId_of_mem {t : Tokenizer} (hdistinct : (t.specialTokens.map (·.1)).Nodup)
    {tok : List UInt8} {id : ℕ} (h : (tok, id) ∈ t.specialTokens) : t.specialId tok = some id := by
  unfold specialId
  cases hfind : t.specialTokens.find? (·.1 = tok) with
  | none => exact absurd (decide_eq_true rfl) (List.find?_eq_none.mp hfind _ h)
  | some sp =>
    have hsp := List.find?_some hfind
    have htok : sp.1 = tok := of_decide_eq_true hsp
    rw [List.inj_on_of_nodup_map hdistinct (List.mem_of_find?_eq_some hfind) h htok,
      Option.map_some]

/-- No other special token overlaps the `s` between `u` and `v`. -/
def StandsAlone (t : Tokenizer) (u s v : List UInt8) : Prop :=
  ∀ i tok, t.SpecialOccurs (u ++ s ++ v) i tok → i < u.length + s.length →
    u.length < i + tok.length → i = u.length ∧ tok = s

/-- No special token that starts in `x` reaches into `rest`. -/
def EndsWithin (t : Tokenizer) (x rest : List UInt8) : Prop :=
  ∀ i tok, t.SpecialOccurs (x ++ rest) i tok → i < x.length → i + tok.length ≤ x.length

variable {t : Tokenizer}

/-! ### What stands behind is not seen -/

theorem EndsWithin.drop {x rest : List UInt8} (h : t.EndsWithin x rest) {n : ℕ}
    (hn : n ≤ x.length) : t.EndsWithin (x.drop n) rest := by
  intro i tok hocc hi
  rw [List.length_drop] at hi ⊢
  have hhere : tok <+: (x ++ rest).drop (n + i) := by
    rw [← List.drop_drop, List.drop_append_of_le_length hn]
    exact hocc.here
  have hle := h (n + i) tok ⟨hocc.special, hhere⟩ (by omega)
  omega

theorem EndsWithin.specialAt_append {x rest : List UInt8} (h : t.EndsWithin x rest)
    (hne : x ≠ []) : t.specialAt (x ++ rest) = t.specialAt x := by
  refine List.find?_congr fun sp hsp => decide_eq_decide.mpr ⟨fun hpre => ?_, fun hpre => ?_⟩
  · have hle := h 0 sp.1 ⟨⟨sp.2, hsp⟩, hpre⟩ (List.length_pos_iff.mpr hne)
    exact List.prefix_of_prefix_length_le hpre (List.prefix_append x rest) (by omega)
  · exact hpre.trans (List.prefix_append x rest)

/-- A special token ends the plain stretch where the text would end. -/
theorem EndsWithin.plainLen_append {x rest : List UInt8} (h : t.EndsWithin x rest)
    (hrest : (t.specialAt rest).isSome) : t.plainLen (x ++ rest) = t.plainLen x := by
  induction x with
  | nil =>
    cases rest with
    | nil => rfl
    | cons c rest => exact if_pos hrest
  | cons c x ih =>
    have htail : t.EndsWithin x rest := h.drop (n := 1) (by simp)
    have hhere : t.specialAt (c :: (x ++ rest)) = t.specialAt (c :: x) :=
      h.specialAt_append (List.cons_ne_nil c x)
    rw [List.cons_append, plainLen, plainLen, hhere, ih htail]

/-- Text that is cut in front of a special token is encoded part by part. -/
theorem EndsWithin.encodeText_append {x rest : List UInt8} (h : t.EndsWithin x rest)
    (hrest : (t.specialAt rest).isSome) :
    t.encodeText (x ++ rest) = t.encodeText x ++ t.encodeText rest := by
  induction hn : x.length using Nat.strong_induction_on generalizing x with
  | _ n ih =>
    cases x with
    | nil => rw [encodeText_nil, List.nil_append, List.nil_append]
    | cons c x =>
      have hhere := h.specialAt_append (List.cons_ne_nil c x)
      have htail : t.EndsWithin x rest := h.drop (n := 1) (by simp)
      cases hspecial : t.specialAt (c :: x) with
      | some sp =>
        have hpos := specialAt_length hspecial
        have hfound := List.find?_some hspecial
        have hle : sp.1.length ≤ (c :: x).length := (of_decide_eq_true hfound : _ <+: _).length_le
        have hrec := ih _ (by rw [List.length_drop]; omega) (h.drop hle) rfl
        rw [encodeText_special hspecial, encodeText_special (hhere.trans hspecial),
          List.drop_append_of_le_length hle, hrec, List.cons_append]
      | none =>
        have hlen := htail.plainLen_append hrest
        have hle : t.plainLen x + 1 ≤ (c :: x).length := Nat.succ_le_succ (plainLen_le t x)
        have hrec := ih _ (by rw [List.length_drop]; omega) (h.drop hle) rfl
        have hwhole : t.specialAt (c :: (x ++ rest)) = none := hhere.trans hspecial
        rw [encodeText_plain hspecial, List.cons_append, encodeText_plain hwhole, hlen,
          ← List.cons_append, List.take_append_of_le_length hle,
          List.drop_append_of_le_length hle, hrec, List.append_assoc]

/-! ### A special token that stands alone -/

section

variable {u s v : List UInt8} (h : t.StandsAlone u s v)

include h

theorem StandsAlone.endsWithin : t.EndsWithin u (s ++ v) := by
  intro i tok hocc hi
  by_contra hgt
  rw [← List.append_assoc] at hocc
  obtain ⟨rfl, -⟩ := h i tok hocc (by omega) (by omega)
  exact absurd hi (Nat.lt_irrefl _)

theorem StandsAlone.specialAt {k : ℕ} (hid : t.specialId s = some k) :
    t.specialAt (s ++ v) = some (s, k) := by
  obtain ⟨sp, hfind, rfl⟩ := Option.map_eq_some_iff.mp hid
  have hs := List.find?_some hfind
  obtain rfl : sp.1 = s := of_decide_eq_true hs
  have hpos := specialTokens_length (List.mem_of_find?_eq_some hfind)
  rw [Tokenizer.specialAt, ← hfind]
  refine List.find?_congr fun other hother => decide_eq_decide.mpr ⟨fun hpre => ?_, fun heq => ?_⟩
  · have hhere : other.1 <+: (u ++ sp.1 ++ v).drop u.length := by
      rwa [List.append_assoc, List.drop_left]
    have hlen := specialTokens_length hother
    exact (h u.length other.1 ⟨⟨other.2, hother⟩, hhere⟩ (by omega) (by omega)).2
  · rw [heq]
    exact List.prefix_append _ _

theorem StandsAlone.encodeText {k : ℕ} (hid : t.specialId s = some k) :
    t.encodeText (u ++ s ++ v) = t.encodeText u ++ [(k : ℤ)] ++ t.encodeText v := by
  have hspecial := h.specialAt hid
  rw [List.append_assoc, h.endsWithin.encodeText_append (by rw [hspecial]; rfl),
    encodeText_special hspecial, List.drop_left, List.append_assoc, List.singleton_append]

/-- What was not there cannot overlap. -/
theorem StandsAlone.history : t.StandsAlone u s [] := by
  intro i tok hocc hi hlen
  refine h i tok ⟨hocc.special, ?_⟩ hi hlen
  rw [List.append_nil] at hocc
  rw [List.drop_append_of_le_length (by rw [List.length_append]; omega)]
  exact hocc.here.trans (List.prefix_append _ v)

theorem StandsAlone.history_append {k : ℕ} (hid : t.specialId s = some k) :
    t.encodeText (u ++ s ++ v) = t.encodeText (u ++ s) ++ t.encodeText v := by
  have hhistory := h.history.encodeText hid
  rw [List.append_nil, encodeText_nil, List.append_nil] at hhistory
  rw [h.encodeText hid, hhistory]

end

theorem standsAlone_of_forall {t : Tokenizer} {u s v : List UInt8}
    (h : ∀ sp ∈ t.specialTokens, ∀ i < u.length + s.length, sp.1 <+: (u ++ s ++ v).drop i →
      u.length < i + sp.1.length → i = u.length ∧ sp.1 = s) : t.StandsAlone u s v := by
  rintro i tok ⟨⟨id, hmem⟩, hhere⟩ hi hlen
  exact h (tok, id) hmem i hi hhere hlen

/-- The texts of the two chat markers. -/
def imStart : List UInt8 :=
  ['<', '|', 'i', 'm', '_', 's', 't', 'a', 'r', 't', '|', '>'].map Char.toUInt8

def imEnd : List UInt8 := ['<', '|', 'i', 'm', '_', 'e', 'n', 'd', '|', '>'].map Char.toUInt8

/-- The chat markers and two letters. -/
def chatTokenizer : Tokenizer where
  vocab := [imStart, imEnd, [0x68], [0x69]]

/-- When a turn that extends the history is hydrated, the whole history matches. -/
theorem commonPrefix_history {t : Tokenizer} {u s v : List UInt8} {k : ℕ}
    (hid : t.specialId s = some k) (halone : t.StandsAlone u s v) (word : ℤ → UInt32) :
    commonPrefix ((t.encodeText (u ++ s)).map word) ((t.encodeText (u ++ s ++ v)).map word) =
      (t.encodeText (u ++ s)).length := by
  have hlongest := commonPrefix_isLongest ((t.encodeText (u ++ s)).map word)
    ((t.encodeText (u ++ s ++ v)).map word)
  rw [halone.history_append hid, List.map_append] at hlongest ⊢
  have hge := hlongest.longest _ le_rfl (by simp) (by rw [List.take_left, List.take_length])
  have hle := hlongest.left
  rw [List.length_map] at hge hle
  omega

end Tokenizer

end JLLM
