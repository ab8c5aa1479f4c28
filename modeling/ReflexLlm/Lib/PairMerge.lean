import Mathlib.Data.List.Infix
import Mathlib.Logic.Relation
import Mathlib.Order.Lattice

/-! Merging adjacent pairs by rank, in two ways: one occurrence of the lowest-ranked pair
after the other, or all of its occurrences in one round. Where no merge is to be done
before the merge that makes one of its sides, the second is the first done faster, and
both end in the same list. -/

namespace PairMerge

variable {α ρ : Type _} [LinearOrder ρ]

/-- Ranks tell merges apart, and a merge that needs the result of another comes later. -/
structure Consistent (rank : α → α → Option ρ) (cat : α → α → α) : Prop where
  distinct : ∀ {a b c d n}, rank a b = some n → rank c d = some n → a = c ∧ b = d
  later : ∀ {l r a b n m}, rank l r = some n → rank a b = some m → a = cat l r ∨ b = cat l r → n < m

/-- `(l, r)` is the pair of the least rank among the neighbours in `xs`. -/
structure IsLowest (rank : α → α → Option ρ) (xs : List α) (l r : α) (n : ρ) : Prop where
  ranked : rank l r = some n
  occurs : [l, r] <:+: xs
  least : ∀ a b m, [a, b] <:+: xs → rank a b = some m → n ≤ m

/-- No neighbours can be merged. -/
def Normal (rank : α → α → Option ρ) (xs : List α) : Prop :=
  ∀ a b, [a, b] <:+: xs → rank a b = none

section

variable [DecidableEq α]

/-- Merge the first occurrence of a pair. -/
def mergeFirst (cat : α → α → α) (l r : α) : List α → List α
  | a :: b :: rest =>
      if a = l ∧ b = r then cat l r :: rest else a :: mergeFirst cat l r (b :: rest)
  | xs => xs

/-- Merge all occurrences of a pair from left to right, where they do not overlap. -/
def mergeAll (cat : α → α → α) (l r : α) : List α → List α
  | a :: b :: rest =>
      if a = l ∧ b = r then cat l r :: mergeAll cat l r rest
      else a :: mergeAll cat l r (b :: rest)
  | xs => xs

def LeftmostStep (rank : α → α → Option ρ) (cat : α → α → α) (xs ys : List α) : Prop :=
  ∃ l r n, IsLowest rank xs l r n ∧ ys = mergeFirst cat l r xs

def RoundStep (rank : α → α → Option ρ) (cat : α → α → α) (xs ys : List α) : Prop :=
  ∃ l r n, IsLowest rank xs l r n ∧ ys = mergeAll cat l r xs

end

/-! ### Neighbours -/

theorem pair_infix_cons {a b x : α} {xs : List α} (h : [a, b] <:+: x :: xs) :
    a = x ∨ [a, b] <:+: xs := by
  rcases List.infix_cons_iff.mp h with hpre | hin
  · exact .inl (List.cons_prefix_cons.mp hpre).1
  · exact .inr hin

theorem pair_infix_cons_cons {a b x y : α} {xs : List α} (h : [a, b] <:+: x :: y :: xs) :
    (a = x ∧ b = y) ∨ [a, b] <:+: y :: xs := by
  rcases List.infix_cons_iff.mp h with hpre | hin
  · obtain ⟨rfl, hb⟩ := List.cons_prefix_cons.mp hpre
    exact .inl ⟨rfl, (List.cons_prefix_cons.mp hb).1⟩
  · exact .inr hin

theorem forall_pair_cons {P : α → α → Prop} {x y : α} {xs : List α} (hxy : P x y)
    (hxs : ∀ a b, [a, b] <:+: y :: xs → P a b) : ∀ a b, [a, b] <:+: x :: y :: xs → P a b := by
  intro a b h
  rcases pair_infix_cons_cons h with ⟨rfl, rfl⟩ | hin
  · exact hxy
  · exact hxs a b hin

theorem no_pair_of_short {a b : α} {xs : List α} (hshort : ∀ x y rest, xs = x :: y :: rest → False) :
    ¬ [a, b] <:+: xs := by
  intro hin
  have hlen := hin.length_le
  match xs, hshort with
  | [], _ => simp at hlen
  | [x], _ => simp at hlen
  | x :: y :: rest, hshort => exact hshort x y rest rfl

/-- Neighbours in a list stand on one side of an element, or are next to it. -/
theorem pair_infix_split {a b x : α} {pre post : List α} (h : [a, b] <:+: pre ++ x :: post) :
    [a, b] <:+: pre ∨ b = x ∨ a = x ∨ [a, b] <:+: post := by
  induction pre with
  | nil => exact .inr (.inr (pair_infix_cons h))
  | cons y pre ih =>
    rw [List.cons_append] at h
    rcases List.infix_cons_iff.mp h with hpre | hin
    · obtain ⟨rfl, hb⟩ := List.cons_prefix_cons.mp hpre
      cases pre with
      | nil => exact .inr (.inl (List.cons_prefix_cons.mp hb).1)
      | cons z pre =>
        rw [List.cons_append] at hb
        obtain ⟨rfl, -⟩ := List.cons_prefix_cons.mp hb
        exact .inl ⟨[], pre, rfl⟩
    · exact (ih hin).imp_left fun hpre => hpre.trans (List.suffix_cons y pre).isInfix

/-- Neighbours in front of two elements that are no such pair, and what they are with it. -/
theorem pair_infix_snoc {a b x y : α} {pre : List α} (h : [a, b] <:+: pre ++ [x] ++ [y]) :
    [a, b] <:+: pre ++ [x] ∨ a = x ∧ b = y := by
  rcases List.infix_concat_iff.mp h with hsuf | hin
  · rw [List.append_assoc] at hsuf
    have heq := List.suffix_of_suffix_length_le hsuf (List.suffix_append pre ([x] ++ [y])) le_rfl
    have hab := heq.eq_of_length rfl
    simp only [List.cons_append, List.nil_append, List.cons.injEq, and_true] at hab
    exact .inr hab
  · exact .inl hin

section

variable {rank : α → α → Option ρ} {cat : α → α → α}

/-! ### One round is some leftmost steps -/

/-- What merging one pair keeps: it stays the lowest, and its result makes no new one. -/
theorem least_merged (hc : Consistent rank cat) {l r : α} {n : ρ} (hn : rank l r = some n)
    {pre rest : List α}
    (hleast : ∀ a b m, [a, b] <:+: pre ++ l :: r :: rest → rank a b = some m → n ≤ m) :
    ∀ a b m, [a, b] <:+: pre ++ cat l r :: rest → rank a b = some m → n ≤ m := by
  intro a b m hin hm
  rcases pair_infix_split hin with hpre | hb | ha | hpost
  · exact hleast a b m (hpre.trans (List.prefix_append _ _).isInfix) hm
  · exact le_of_lt (hc.later hn hm (.inr hb))
  · exact le_of_lt (hc.later hn hm (.inl ha))
  · refine hleast a b m (hpost.trans ?_) hm
    exact ⟨pre ++ [l, r], [], by simp⟩

theorem not_infix_merged (hc : Consistent rank cat) {l r : α} {n : ρ} (hn : rank l r = some n)
    {pre rest : List α} (hpre : ¬ [l, r] <:+: pre) (hrest : rest.length ≤ 1) :
    ¬ [l, r] <:+: pre ++ cat l r :: rest := by
  intro hin
  rcases pair_infix_split hin with hin | hr | hl | hin
  · exact hpre hin
  · exact absurd (hc.later hn hn (.inr hr)) (lt_irrefl n)
  · exact absurd (hc.later hn hn (.inl hl)) (lt_irrefl n)
  · have hlen := hin.length_le
    simp only [List.length_cons, List.length_nil] at hlen
    omega

variable [DecidableEq α]

theorem mergeFirst_append {l r : α} {pre rest : List α} (h : ¬ [l, r] <:+: pre ++ [l]) :
    mergeFirst cat l r (pre ++ l :: r :: rest) = pre ++ cat l r :: rest := by
  induction pre with
  | nil => simp [mergeFirst]
  | cons a pre ih =>
    have htail : ¬ [l, r] <:+: pre ++ [l] :=
      fun hin => h (hin.trans (List.suffix_cons a (pre ++ [l])).isInfix)
    have hcons : ∃ b more, pre ++ l :: r :: rest = b :: more ∧ (a = l → b ≠ r) := by
      cases pre with
      | nil =>
        refine ⟨l, r :: rest, rfl, ?_⟩
        rintro rfl rfl
        exact h (List.infix_refl _)
      | cons b pre =>
        refine ⟨b, pre ++ l :: r :: rest, rfl, ?_⟩
        rintro rfl rfl
        exact h ⟨[], pre ++ [a], rfl⟩
    obtain ⟨b, more, hmore, hne⟩ := hcons
    rw [List.cons_append, hmore, mergeFirst, if_neg fun hc => hne hc.1 hc.2, ← hmore, ih htail,
      List.cons_append]

/-- Merging all occurrences behind `pre`, one by one: those in `pre` are done. -/
theorem leftmost_mergeAll (hc : Consistent rank cat) {l r : α} {n : ρ} (hn : rank l r = some n)
    (xs pre : List α) (hdone : ¬ [l, r] <:+: pre ++ xs.take 1)
    (hleast : ∀ a b m, [a, b] <:+: pre ++ xs → rank a b = some m → n ≤ m) :
    Relation.ReflTransGen (LeftmostStep rank cat) (pre ++ xs) (pre ++ mergeAll cat l r xs) := by
  induction xs using mergeAll.induct l r generalizing pre with
  | case1 a b rest hab ih =>
    obtain ⟨rfl, rfl⟩ := hab
    have hfirst : ¬ [a, b] <:+: pre ++ [a] := hdone
    have hpre : ¬ [a, b] <:+: pre := fun hin => hfirst (hin.trans (List.prefix_append _ _).isInfix)
    have hstep : LeftmostStep rank cat (pre ++ a :: b :: rest) (pre ++ [cat a b] ++ rest) := by
      refine ⟨a, b, n, ⟨hn, ⟨pre, rest, by simp⟩, hleast⟩, ?_⟩
      rw [mergeFirst_append hfirst, List.append_assoc, List.singleton_append]
    have hnext : ¬ [a, b] <:+: pre ++ [cat a b] ++ rest.take 1 := by
      rw [List.append_assoc, List.singleton_append]
      exact not_infix_merged hc hn hpre (List.length_take_le _ _)
    have hkeep := least_merged hc hn hleast
    rw [← List.singleton_append, ← List.append_assoc] at hkeep
    have hrest := ih (pre ++ [cat a b]) hnext hkeep
    rw [mergeAll, if_pos ⟨rfl, rfl⟩]
    rw [List.append_assoc, List.append_assoc, List.singleton_append, List.singleton_append] at hrest
    rw [List.append_assoc, List.singleton_append] at hstep
    exact .head hstep hrest
  | case2 a b rest hab ih =>
    have hnext : ¬ [l, r] <:+: pre ++ [a] ++ (b :: rest).take 1 := by
      intro hin
      rcases pair_infix_snoc hin with hin | ⟨rfl, rfl⟩
      · exact hdone hin
      · exact hab ⟨rfl, rfl⟩
    have hrest := ih (pre ++ [a]) hnext (by simpa using hleast)
    rw [mergeAll, if_neg hab]
    simpa using hrest
  | case3 xs hshort =>
    rw [mergeAll.eq_2 _ _ _ _ hshort]

theorem RoundStep.leftmost (hc : Consistent rank cat) {xs ys : List α}
    (h : RoundStep rank cat xs ys) : Relation.ReflTransGen (LeftmostStep rank cat) xs ys := by
  obtain ⟨l, r, n, hlow, rfl⟩ := h
  refine leftmost_mergeAll hc hlow.ranked xs [] ?_ hlow.least
  intro hin
  have hlen := hin.length_le
  rw [List.nil_append, List.length_take] at hlen
  simp only [List.length_cons, List.length_nil] at hlen
  omega

/-! ### Both ways end in the same list -/

omit [DecidableEq α] in
theorem IsLowest.unique (hc : Consistent rank cat) {xs : List α} {l r l' r' : α} {n n' : ρ}
    (h : IsLowest rank xs l r n) (h' : IsLowest rank xs l' r' n') : l = l' ∧ r = r' := by
  have hle := h.least l' r' n' h'.occurs h'.ranked
  have hge := h'.least l r n h.occurs h.ranked
  exact hc.distinct (le_antisymm hle hge ▸ h.ranked) h'.ranked

theorem leftmostStep_rightUnique (hc : Consistent rank cat) :
    Relator.RightUnique (LeftmostStep rank cat) := by
  rintro xs ys zs ⟨l, r, n, hlow, rfl⟩ ⟨l', r', n', hlow', rfl⟩
  obtain ⟨rfl, rfl⟩ := hlow.unique hc hlow'
  rfl

theorem Normal.eq_of_leftmost {xs ys : List α} (hn : Normal rank xs)
    (h : Relation.ReflTransGen (LeftmostStep rank cat) xs ys) : ys = xs := by
  cases h.cases_head with
  | inl heq => exact heq.symm
  | inr hstep =>
    obtain ⟨zs, ⟨l, r, n, hlow, -⟩, -⟩ := hstep
    have hnone := hn l r hlow.occurs
    rw [hlow.ranked] at hnone
    cases hnone

theorem normal_unique (hc : Consistent rank cat) {xs ys zs : List α}
    (hy : Relation.ReflTransGen (LeftmostStep rank cat) xs ys) (hny : Normal rank ys)
    (hz : Relation.ReflTransGen (LeftmostStep rank cat) xs zs) (hnz : Normal rank zs) :
    ys = zs := by
  rcases hy.total_of_right_unique (leftmostStep_rightUnique hc) hz with hyz | hzy
  · exact (hny.eq_of_leftmost hyz).symm
  · exact hnz.eq_of_leftmost hzy

/-! ### The algorithm that merges in rounds -/

/-- The lowest pair, with its rank. -/
def lowest (rank : α → α → Option ρ) : List α → Option (ρ × α × α)
  | a :: b :: rest =>
      match rank a b, lowest rank (b :: rest) with
      | some n, some low => if n ≤ low.1 then some (n, a, b) else some low
      | some n, none => some (n, a, b)
      | none, low => low
  | _ => none

omit [DecidableEq α] in
variable (rank) in
theorem normal_or_lowest (xs : List α) :
    (lowest rank xs = none ∧ Normal rank xs) ∨
      ∃ n l r, lowest rank xs = some (n, l, r) ∧ IsLowest rank xs l r n := by
  induction xs with
  | nil => exact .inl ⟨rfl, fun a b hin => absurd hin (no_pair_of_short (by simp))⟩
  | cons a xs ih =>
    cases xs with
    | nil => exact .inl ⟨rfl, fun c d hin => absurd hin (no_pair_of_short (by simp))⟩
    | cons b rest =>
      have hhere : [a, b] <:+: a :: b :: rest := ⟨[], rest, rfl⟩
      rcases ih with ⟨hnone, hnormal⟩ | ⟨n, l, r, hsome, hlow⟩
      · cases hab : rank a b with
        | none => exact .inl ⟨by rw [lowest, hab, hnone], forall_pair_cons hab hnormal⟩
        | some k =>
          have hk (m : ρ) (hm : rank a b = some m) : k ≤ m :=
            le_of_eq (Option.some.inj (hab.symm.trans hm))
          have hleast := forall_pair_cons (P := fun c d => ∀ m, rank c d = some m → k ≤ m) hk
            fun c d hin m hm => by cases (hnormal c d hin).symm.trans hm
          exact .inr ⟨k, a, b, by rw [lowest, hab, hnone], hab, hhere,
            fun c d m hin => hleast c d hin m⟩
      · have hwhole : [l, r] <:+: a :: b :: rest := hlow.occurs.trans (List.suffix_cons a _).isInfix
        have hmore (k : ρ) (hk : k ≤ n) (hab : ∀ m, rank a b = some m → k ≤ m) :=
          forall_pair_cons (P := fun c d => ∀ m, rank c d = some m → k ≤ m) hab
            fun c d hin m hm => hk.trans (hlow.least c d m hin hm)
        cases hab : rank a b with
        | none =>
          have hleast := hmore n le_rfl fun m hm => by cases hab.symm.trans hm
          exact .inr ⟨n, l, r, by rw [lowest, hab, hsome], hlow.ranked, hwhole,
            fun c d m hin => hleast c d hin m⟩
        | some k =>
          have hk (m : ρ) (hm : rank a b = some m) : k = m := Option.some.inj (hab.symm.trans hm)
          by_cases hle : k ≤ n
          · have hleast := hmore k hle fun m hm => le_of_eq (hk m hm)
            exact .inr ⟨k, a, b, by rw [lowest, hab, hsome]; exact if_pos hle, hab, hhere,
              fun c d m hin => hleast c d hin m⟩
          · have hleast := hmore n le_rfl fun m hm => hk m hm ▸ le_of_not_ge hle
            exact .inr ⟨n, l, r, by rw [lowest, hab, hsome]; exact if_neg hle, hlow.ranked, hwhole,
              fun c d m hin => hleast c d hin m⟩

variable (cat) in
theorem mergeAll_length_le (l r : α) (xs : List α) :
    (mergeAll cat l r xs).length ≤ xs.length := by
  induction xs using mergeAll.induct l r with
  | case1 a b rest hab ih =>
    rw [mergeAll, if_pos hab]
    simp only [List.length_cons]
    omega
  | case2 a b rest hab ih =>
    rw [mergeAll, if_neg hab]
    exact Nat.succ_le_succ ih
  | case3 xs hshort => rw [mergeAll.eq_2 _ _ _ _ hshort]

theorem mergeAll_length_lt {l r : α} {xs : List α} (h : [l, r] <:+: xs) :
    (mergeAll cat l r xs).length < xs.length := by
  induction xs using mergeAll.induct l r with
  | case1 a b rest hab ih =>
    have hle := mergeAll_length_le cat l r rest
    rw [mergeAll, if_pos hab]
    simp only [List.length_cons]
    omega
  | case2 a b rest hab ih =>
    rw [mergeAll, if_neg hab]
    refine Nat.succ_lt_succ (ih ?_)
    rcases pair_infix_cons_cons h with ⟨rfl, rfl⟩ | hin
    · exact absurd ⟨rfl, rfl⟩ hab
    · exact hin
  | case3 xs hshort => exact absurd h (no_pair_of_short hshort)

/-- Round after round, until no pair has a rank. -/
def rounds (rank : α → α → Option ρ) (cat : α → α → α) (xs : List α) : List α :=
  match _h : lowest rank xs with
  | some low => rounds rank cat (mergeAll cat low.2.1 low.2.2 xs)
  | none => xs
termination_by xs.length
decreasing_by
  rcases normal_or_lowest rank xs with ⟨hnone, -⟩ | ⟨n, l, r, hsome, hlow⟩
  · rw [_h] at hnone
    cases hnone
  · rw [_h] at hsome
    obtain rfl := Option.some.inj hsome
    exact mergeAll_length_lt hlow.occurs

variable (rank cat) in
theorem rounds_spec (xs : List α) :
    Relation.ReflTransGen (RoundStep rank cat) xs (rounds rank cat xs) ∧
      Normal rank (rounds rank cat xs) := by
  induction hn : xs.length using Nat.strong_induction_on generalizing xs with
  | _ n ih =>
    rw [rounds]
    split
    · rename_i low hlow
      rcases normal_or_lowest rank xs with ⟨hnone, -⟩ | ⟨n, l, r, hsome, hleast⟩
      · rw [hlow] at hnone
        cases hnone
      · rw [hlow] at hsome
        obtain rfl := Option.some.inj hsome
        obtain ⟨hrun, hnormal⟩ := ih _ (hn ▸ mergeAll_length_lt hleast.occurs) _ rfl
        exact ⟨.head ⟨l, r, n, hleast, rfl⟩ hrun, hnormal⟩
    · rename_i hnone
      rcases normal_or_lowest rank xs with ⟨-, hnormal⟩ | ⟨n, l, r, hsome, -⟩
      · exact ⟨.refl, hnormal⟩
      · rw [hnone] at hsome
        cases hsome

theorem rounds_singleton (x : α) : rounds rank cat [x] = [x] := by
  rw [rounds]
  rfl

theorem rounds_pair (l r : α) :
    rounds rank cat [l, r] = if (rank l r).isSome then [cat l r] else [l, r] := by
  have hlow : lowest rank [l, r] = (rank l r).map fun n => (n, l, r) := by
    cases hrank : rank l r <;> simp [lowest, hrank]
  rw [rounds]
  cases hrank : rank l r with
  | none =>
    rw [hrank, Option.map_none] at hlow
    split
    · rename_i low hsome
      rw [hlow] at hsome
      cases hsome
    · rfl
  | some n =>
    rw [hrank, Option.map_some] at hlow
    split
    · rename_i low hsome
      rw [hlow] at hsome
      obtain rfl := Option.some.inj hsome
      simp [mergeAll, rounds_singleton]
    · rename_i hnone
      rw [hlow] at hnone
      cases hnone

/-- What leftmost steps end in is what the rounds end in. -/
theorem eq_rounds (hc : Consistent rank cat) {xs ys : List α}
    (h : Relation.ReflTransGen (LeftmostStep rank cat) xs ys) (hnormal : Normal rank ys) :
    ys = rounds rank cat xs := by
  obtain ⟨hrun, hrounds⟩ := rounds_spec rank cat xs
  have hleftmost : Relation.ReflTransGen (LeftmostStep rank cat) xs (rounds rank cat xs) :=
    Relation.reflTransGen_closed (fun _ _ hstep => RoundStep.leftmost hc hstep) _ _ hrun
  exact normal_unique hc h hnormal hleftmost hrounds

end

end PairMerge
