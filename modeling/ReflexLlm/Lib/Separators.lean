import Mathlib.Data.List.Find
import Mathlib.Data.List.Infix

/-! Texts joined by separators that say what comes next. If no separator can begin inside
another, a text falls apart at its separators in one way, and joining again gives it back.
A part that holds separators itself falls apart further. -/

namespace Separators

variable {α ρ : Type _}

/-- None of the separators is empty, none begins another, and none can begin inside
another, also where it reaches beyond its end. -/
structure Apart (sep : ρ → List α) : Prop where
  ne_nil : ∀ r, sep r ≠ []
  inj : ∀ r r', sep r <+: sep r' → r = r'
  inside : ∀ r r' j, 0 < j → j < (sep r).length →
    ¬ (sep r).drop j <+: sep r' ∧ ¬ sep r' <+: (sep r).drop j

/-- A first part, and further parts with the separators in front of them. -/
def join (sep : ρ → List α) (parts : List α × List (ρ × List α)) : List α :=
  parts.1 ++ parts.2.flatMap fun part => sep part.1 ++ part.2

variable [DecidableEq α] (sep : ρ → List α) (kinds : List ρ)

/-- The separator that the text begins with. -/
def sepAt (s : List α) : Option ρ := kinds.find? fun r => sep r ≠ [] ∧ sep r <+: s

theorem sepAt_ne_nil {sep : ρ → List α} {kinds : List ρ} {s : List α} {r : ρ}
    (h : sepAt sep kinds s = some r) : sep r ≠ [] ∧ sep r <+: s := by
  have hr := List.find?_some h
  exact of_decide_eq_true hr

/-- Cut a text at its separators, from left to right. -/
def split (s : List α) : List α × List (ρ × List α) :=
  if _h : s = [] then ([], [])
  else
    match _hsep : sepAt sep kinds s with
    | some r =>
        let parts := split (s.drop (sep r).length)
        ([], (r, parts.1) :: parts.2)
    | none =>
        let parts := split s.tail
        (s.take 1 ++ parts.1, parts.2)
termination_by s.length
decreasing_by
  · have hsep := List.length_pos_iff.mpr (sepAt_ne_nil _hsep).1
    have hlen := List.length_pos_iff.mpr _h
    rw [List.length_drop]
    omega
  · have hlen := List.length_pos_iff.mpr _h
    rw [List.length_tail]
    omega

variable {sep kinds}

theorem split_nil : split sep kinds [] = ([], []) := by
  rw [split]
  rfl

theorem split_sep {s : List α} {r : ρ} (h : sepAt sep kinds s = some r) :
    split sep kinds s = ([], (r, (split sep kinds (s.drop (sep r).length)).1) ::
      (split sep kinds (s.drop (sep r).length)).2) := by
  obtain ⟨hne, hpre⟩ := sepAt_ne_nil h
  have hs : s ≠ [] := by
    rintro rfl
    exact hne (List.prefix_nil.mp hpre)
  rw [split, dif_neg hs]
  split
  · rename_i r' hr'
    rw [h] at hr'
    obtain rfl := Option.some.inj hr'
    rfl
  · rename_i hnone
    rw [h] at hnone
    cases hnone

theorem split_cons {a : α} {s : List α} (h : sepAt sep kinds (a :: s) = none) :
    split sep kinds (a :: s) = (a :: (split sep kinds s).1, (split sep kinds s).2) := by
  rw [split, dif_neg (List.cons_ne_nil a s)]
  split
  · rename_i r hr
    rw [h] at hr
    cases hr
  · rfl

variable (sep kinds) in
/-- Cutting loses nothing. -/
theorem join_split (s : List α) : join sep (split sep kinds s) = s := by
  induction hn : s.length using Nat.strong_induction_on generalizing s with
  | _ n ih =>
    cases s with
    | nil =>
      rw [split_nil]
      rfl
    | cons a s =>
      cases h : sepAt sep kinds (a :: s) with
      | some r =>
        obtain ⟨hne, rest, hrest⟩ := sepAt_ne_nil h
        have hpos := List.length_pos_iff.mpr hne
        have hrec := ih rest.length (by rw [← hn, ← hrest, List.length_append]; omega) rest rfl
        rw [split_sep h, ← hrest, List.drop_left]
        rw [join] at hrec ⊢
        rw [List.flatMap_cons, List.nil_append, List.append_assoc, hrec]
      | none =>
        have hrec := ih s.length (by rw [← hn]; exact Nat.lt_succ_self _) s rfl
        rw [split_cons h]
        rw [join] at hrec ⊢
        rw [List.cons_append, hrec]

section

variable (hsep : Apart sep) (hkinds : ∀ r, r ∈ kinds)

include hsep hkinds

theorem sepAt_append (r : ρ) (s : List α) : sepAt sep kinds (sep r ++ s) = some r := by
  cases h : sepAt sep kinds (sep r ++ s) with
  | none =>
    have hno := List.find?_eq_none.mp h r (hkinds r)
    exact absurd (decide_eq_true ⟨hsep.ne_nil r, List.prefix_append _ _⟩) hno
  | some r' =>
    obtain ⟨-, hpre⟩ := sepAt_ne_nil h
    rcases List.prefix_or_prefix_of_prefix hpre (List.prefix_append (sep r) s) with hrr | hrr
    · rw [hsep.inj r' r hrr]
    · rw [hsep.inj r r' hrr]

omit hkinds in
/-- In front of a separator, what the text begins with does not depend on it. -/
theorem sepAt_before {c : List α} (hc : c ≠ []) (r : ρ) (s : List α) :
    sepAt sep kinds (c ++ sep r ++ s) = sepAt sep kinds c := by
  refine List.find?_congr fun r' _ => decide_eq_decide.mpr (and_congr_right fun _ => ⟨?_, ?_⟩)
  · intro hpre
    rw [List.append_assoc] at hpre
    rcases Nat.lt_or_ge c.length (sep r').length with hlt | hge
    · -- it would begin inside the separator behind it, or the other way round
      obtain ⟨rest, hrest⟩ := hpre
      have hdrop : (sep r').drop c.length ++ rest = sep r ++ s := by
        rw [← List.drop_append_of_le_length (by omega), hrest, List.drop_left]
      have hinside := hsep.inside r' r c.length (List.length_pos_iff.mpr hc) hlt
      rcases List.prefix_or_prefix_of_prefix (List.prefix_append ((sep r').drop c.length) rest)
        (hdrop ▸ List.prefix_append (sep r) s) with hpre | hpre
      · exact absurd hpre hinside.1
      · exact absurd hpre hinside.2
    · exact List.prefix_of_prefix_length_le hpre (List.prefix_append _ _) hge
  · intro hpre
    rw [List.append_assoc]
    exact hpre.trans (List.prefix_append _ _)

/-- A separator cuts, whatever stands in front of it. -/
theorem split_append (c : List α) (r : ρ) (s : List α) :
    split sep kinds (c ++ sep r ++ s) = ((split sep kinds c).1,
      (split sep kinds c).2 ++ (r, (split sep kinds s).1) :: (split sep kinds s).2) := by
  induction hn : c.length using Nat.strong_induction_on generalizing c with
  | _ n ih =>
    cases c with
    | nil => rw [List.nil_append, split_sep (sepAt_append hsep hkinds r s), List.drop_left, split_nil,
        List.nil_append]
    | cons a c =>
      have hsame : sepAt sep kinds (a :: c ++ sep r ++ s) = sepAt sep kinds (a :: c) :=
        sepAt_before hsep (List.cons_ne_nil a c) r s
      cases h : sepAt sep kinds (a :: c) with
      | some r' =>
        obtain ⟨hne, rest, hrest⟩ := sepAt_ne_nil h
        have hpos := List.length_pos_iff.mpr hne
        have hrec := ih rest.length (by rw [← hn, ← hrest, List.length_append]; omega) rest rfl
        rw [split_sep (hsame.trans h), split_sep h, ← hrest, List.append_assoc, List.append_assoc,
          List.drop_left, ← List.append_assoc, hrec, List.drop_left]
        rfl
      | none =>
        have hrec := ih c.length (by rw [← hn]; exact Nat.lt_succ_self _) c rfl
        have hwhole : sepAt sep kinds (a :: (c ++ sep r ++ s)) = none := hsame.trans h
        rw [List.cons_append, List.cons_append, split_cons hwhole, split_cons h, hrec]

/-- Joined parts fall apart into what each of them falls apart into. -/
theorem split_join (c : List α) (parts : List (ρ × List α)) :
    split sep kinds (join sep (c, parts)) = ((split sep kinds c).1,
      (split sep kinds c).2 ++ parts.flatMap fun part =>
        (part.1, (split sep kinds part.2).1) :: (split sep kinds part.2).2) := by
  induction parts generalizing c with
  | nil => rw [join, List.flatMap_nil, List.append_nil, List.flatMap_nil, List.append_nil]
  | cons part parts ih =>
    have hjoin : join sep (c, part :: parts) = c ++ sep part.1 ++ join sep (part.2, parts) := by
      simp only [join, List.flatMap_cons, List.append_assoc]
    rw [hjoin, split_append hsep hkinds, ih, List.flatMap_cons, List.cons_append]

omit hsep hkinds in
/-- Without a separator there is one part. -/
theorem split_of_absent {c : List α} (h : ∀ r ∈ kinds, ¬ sep r <:+: c) :
    split sep kinds c = (c, []) := by
  induction c with
  | nil => exact split_nil
  | cons a c ih =>
    have hnone : sepAt sep kinds (a :: c) = none :=
      List.find?_eq_none.mpr fun r hr hpre => h r hr (of_decide_eq_true hpre).2.isInfix
    have htail := ih fun r hr hin => h r hr (hin.trans (List.suffix_cons a c).isInfix)
    rw [split_cons hnone, htail]

end

end Separators
