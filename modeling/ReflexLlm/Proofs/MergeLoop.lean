import Mathlib.Data.List.Find
import Mathlib.Data.List.GetD
import ReflexLlm.Lib.PairMerge
import ReflexLlm.Spec.Tokenizer

/-! The merge loop of `encode` against byte-pair encoding in rounds. The loop merges the
leftmost of the lowest pairs, which is what a round does one by one. It looks pairs up by
`bpe_key`, which is one text for different pairs once a side holds a newline. -/

namespace JLLM

open PairMerge

namespace Tokenizer

/-- A line of `tokenizer.ggml.merges`, with its rank. -/
structure Merge where
  left : List UInt8
  right : List UInt8
  rank : ℤ

/-- The tokenizer after the table has been entered in order. -/
def withMerges (t : Tokenizer) (table : List Merge) : Tokenizer :=
  { t with bpeRanks := (table.map fun m => (bpeKey m.left m.right, m.rank)).reverse }

/-- The rank that the table gives a pair; of several the last counts. -/
def tableRank (table : List Merge) (l r : List UInt8) : Option ℤ :=
  (table.reverse.find? fun m => m.left = l ∧ m.right = r).map (·.rank)

/-- The reference algorithm: in each round, all occurrences of the lowest pair. -/
def mergeRounds (table : List Merge) : List (List UInt8) → List (List UInt8) :=
  rounds (tableRank table) (· ++ ·)

/-- Keys tell the sides of a merge, and no rank is the loop's bound. -/
def KeysApart (table : List Merge) : Prop :=
  ∀ l r n, tableRank table l r = some n → '\n'.toUInt8 ∉ l ∧ '\n'.toUInt8 ∉ r ∧ n < intMax

/-- No two merges of the table are entered under one key. -/
def DistinctKeys (table : List Merge) : Prop :=
  ∀ l r n l' r' n', tableRank table l r = some n → tableRank table l' r' = some n' →
    bpeKey l r = bpeKey l' r' → l = l' ∧ r = r'

/-! ### The loop takes leftmost steps -/

theorem mergeAt_append (pre post : List (List UInt8)) (l r : List UInt8) :
    mergeAt (pre ++ l :: r :: post) pre.length = pre ++ (l ++ r) :: post := by
  have hl : (pre ++ l :: r :: post).getD pre.length [] = l := by
    rw [List.getD_append_right _ _ _ _ le_rfl, Nat.sub_self, List.getD_cons_zero]
  have hr : (pre ++ l :: r :: post).getD (pre.length + 1) [] = r := by
    rw [List.getD_append_right _ _ _ _ (Nat.le_add_right _ 1), Nat.add_sub_cancel_left,
      List.getD_cons_succ, List.getD_cons_zero]
  have hdrop : (pre ++ l :: r :: post).drop (pre.length + 2) = post := by
    rw [List.drop_append, List.drop_of_length_le (by omega), List.nil_append,
      Nat.add_sub_cancel_left]
    rfl
  rw [mergeAt, hl, hr, hdrop, List.take_left]

/-- What `bestPair` finds among the pairs below `best`: the first of the lowest. -/
def FoundBest (t : Tokenizer) (best : ℤ) (i : ℕ) (symbols : List (List UInt8)) (k : ℕ) : Prop :=
  ∃ pre l r post n, symbols = pre ++ l :: r :: post ∧ k = i + pre.length ∧
    t.rank l r = some n ∧ n < best ∧
    (∀ a b, [a, b] <:+: pre ++ [l] → ∀ m, t.rank a b = some m → n < m) ∧
    ∀ a b, [a, b] <:+: symbols → ∀ m, t.rank a b = some m → n ≤ m

theorem FoundBest.cons {t : Tokenizer} {best : ℤ} {i k : ℕ} {a b : List UInt8}
    {rest : List (List UInt8)} (h : t.FoundBest best (i + 1) (b :: rest) k)
    (hab : ∀ m, t.rank a b = some m → best ≤ m) : t.FoundBest best i (a :: b :: rest) k := by
  obtain ⟨pre, l, r, post, n, hsym, rfl, hn, hlt, hfirst, hleast⟩ := h
  have hlate (m : ℤ) (hm : t.rank a b = some m) : n < m := lt_of_lt_of_le hlt (hab m hm)
  refine ⟨a :: pre, l, r, post, n, by rw [hsym, List.cons_append],
    by rw [List.length_cons]; omega, hn, hlt, ?_,
    forall_pair_cons (fun m hm => le_of_lt (hlate m hm)) hleast⟩
  obtain ⟨more, hmore⟩ : ∃ more, pre ++ [l] = b :: more := by
    cases pre with
    | nil => exact ⟨[], by rw [(List.cons.inj hsym).1]; rfl⟩
    | cons c pre => exact ⟨pre ++ [l], by rw [(List.cons.inj hsym).1]; rfl⟩
  rw [List.cons_append, hmore]
  exact forall_pair_cons hlate (hmore ▸ hfirst)

theorem bestPair_spec (t : Tokenizer) (best : ℤ) (found : Option ℕ) (i : ℕ)
    (symbols : List (List UInt8)) :
    (t.bestPair best found i symbols = found ∧
      ∀ a b, [a, b] <:+: symbols → ∀ n, t.rank a b = some n → best ≤ n) ∨
    ∃ k, t.bestPair best found i symbols = some k ∧ t.FoundBest best i symbols k := by
  induction symbols generalizing best found i with
  | nil => exact .inl ⟨rfl, fun a b hin => absurd hin (no_pair_of_short (by simp))⟩
  | cons a symbols ih =>
    cases symbols with
    | nil => exact .inl ⟨rfl, fun c d hin => absurd hin (no_pair_of_short (by simp))⟩
    | cons b rest =>
      unfold bestPair
      cases hab : t.rank a b with
      | none =>
        have hno (m : ℤ) (hm : t.rank a b = some m) : best ≤ m := by cases hab.symm.trans hm
        rcases ih best found (i + 1) with ⟨hsame, hge⟩ | ⟨k, hk, hbest⟩
        · exact .inl ⟨hsame, forall_pair_cons hno hge⟩
        · exact .inr ⟨k, hk, hbest.cons hno⟩
      | some r =>
        have hr (m : ℤ) (hm : t.rank a b = some m) : r = m := Option.some.inj (hab.symm.trans hm)
        by_cases hlt : r < best
        · simp only [if_pos hlt]
          rcases ih r (some i) (i + 1) with ⟨hsame, hge⟩ | ⟨k, hk, hbest⟩
          · -- this pair is the lowest so far, and no later one is lower
            refine .inr ⟨i, hsame, [], a, b, rest, r, rfl, rfl, hab, hlt, ?_, ?_⟩
            · exact fun c d hin => absurd hin (no_pair_of_short (by simp))
            · exact forall_pair_cons (fun m hm => le_of_eq (hr m hm)) hge
          · obtain ⟨pre, l, r', post, n, hsym, hk', hn, hnr, hrest⟩ :=
              hbest.cons fun m hm => le_of_eq (hr m hm)
            exact .inr ⟨k, hk, pre, l, r', post, n, hsym, hk', hn, hnr.trans hlt, hrest⟩
        · simp only [if_neg hlt]
          have hno (m : ℤ) (hm : t.rank a b = some m) : best ≤ m := hr m hm ▸ le_of_not_gt hlt
          rcases ih best found (i + 1) with ⟨hsame, hge⟩ | ⟨k, hk, hbest⟩
          · exact .inl ⟨hsame, forall_pair_cons hno hge⟩
          · exact .inr ⟨k, hk, hbest.cons hno⟩

theorem leftmostStep_of_bestPair {t : Tokenizer} {symbols : List (List UInt8)} {k : ℕ}
    (h : t.bestPair intMax none 0 symbols = some k) :
    LeftmostStep t.rank (· ++ ·) symbols (mergeAt symbols k) := by
  rcases bestPair_spec t intMax none 0 symbols with ⟨hnone, -⟩ | ⟨k', hk', hbest⟩
  · rw [h] at hnone
    cases hnone
  · rw [h] at hk'
    obtain rfl := Option.some.inj hk'
    obtain ⟨pre, l, r, post, n, rfl, rfl, hn, -, hfirst, hleast⟩ := hbest
    have hone : ¬ [l, r] <:+: pre ++ [l] := fun hin => absurd (hfirst l r hin n hn) (lt_irrefl n)
    refine ⟨l, r, n, ⟨hn, ⟨pre, post, by simp⟩, fun a b m hin => hleast a b hin m⟩, ?_⟩
    rw [mergeFirst_append hone, Nat.zero_add, mergeAt_append]

/-- The loop ends when no pair is left, if no rank is its bound. -/
theorem mergeLoop_spec {t : Tokenizer} (hbound : ∀ l r n, t.rank l r = some n → n < intMax)
    (symbols : List (List UInt8)) :
    Relation.ReflTransGen (LeftmostStep t.rank (· ++ ·)) symbols (t.mergeLoop symbols) ∧
      Normal t.rank (t.mergeLoop symbols) := by
  induction hn : symbols.length using Nat.strong_induction_on generalizing symbols with
  | _ n ih =>
    rw [mergeLoop]
    split
    · rename_i k hk
      have hlt : k + 1 < symbols.length := by
        rcases bestPair_lt hk with hnone | hlt
        · cases hnone
        · omega
      have hlen := mergeAt_length hlt
      obtain ⟨hrun, hnormal⟩ := ih _ (by omega) (mergeAt symbols k) rfl
      exact ⟨.head (leftmostStep_of_bestPair hk) hrun, hnormal⟩
    · rename_i hnone
      rcases bestPair_spec t intMax none 0 symbols with ⟨-, hge⟩ | ⟨k, hk, -⟩
      · refine ⟨.refl, fun a b hin => ?_⟩
        cases hab : t.rank a b with
        | none => rfl
        | some m => exact absurd (hge a b hin m hab) (not_le_of_gt (hbound a b m hab))
      · rw [hnone] at hk
        cases hk

/-! ### Keys and pairs -/

theorem rank_withMerges (t : Tokenizer) (table : List Merge) (l r : List UInt8) :
    (t.withMerges table).rank l r =
      (table.reverse.find? fun m => bpeKey m.left m.right = bpeKey l r).map (·.rank) := by
  rw [rank, withMerges, ← List.map_reverse, List.find?_map, Option.map_map]
  rfl

/-- Where no side holds a newline, the key of a pair finds the pair. -/
theorem rank_eq_tableRank {table : List Merge}
    (hline : ∀ l r n, tableRank table l r = some n → '\n'.toUInt8 ∉ l ∧ '\n'.toUInt8 ∉ r)
    (t : Tokenizer) (l r : List UInt8) : (t.withMerges table).rank l r = tableRank table l r := by
  have hself (m : Merge) (hm : m ∈ table.reverse) : ∃ n, tableRank table m.left m.right = some n := by
    unfold tableRank
    cases hfind : table.reverse.find? (fun m' => m'.left = m.left ∧ m'.right = m.right) with
    | none => exact absurd (decide_eq_true ⟨rfl, rfl⟩) (List.find?_eq_none.mp hfind m hm)
    | some m' => exact ⟨m'.rank, rfl⟩
  rw [rank_withMerges, tableRank]
  congr 1
  refine List.find?_congr fun m hm => decide_eq_decide.mpr ⟨fun hkey => ?_, ?_⟩
  · obtain ⟨n, hn⟩ := hself m hm
    obtain ⟨hleft, hright⟩ := hline _ _ n hn
    exact bpeKey_inj hleft hright hkey
  · rintro ⟨rfl, rfl⟩
    rfl

theorem mergeLoop_singleton (t : Tokenizer) (s : List UInt8) : t.mergeLoop [s] = [s] := by
  rw [mergeLoop]
  rfl

/-- The loop merges two symbols whose pair is ranked below its bound, and no others. -/
theorem mergeLoop_pair (t : Tokenizer) (l r : List UInt8) :
    (t.mergeLoop [l, r]).length = 1 ↔ ∃ n, t.rank l r = some n ∧ n < intMax := by
  rw [mergeLoop]
  split
  · rename_i k hk
    rcases bestPair_spec t intMax none 0 [l, r] with ⟨hnone, -⟩ | ⟨k', hk', hbest⟩
    · rw [hk] at hnone
      cases hnone
    · obtain ⟨pre, a, b, post, n, hsym, rfl, hn, hlt, -⟩ := hbest
      have hlen := congrArg List.length hsym
      simp only [List.length_append, List.length_cons, List.length_nil] at hlen
      obtain rfl : pre = [] := List.length_eq_zero_iff.mp (by omega)
      obtain ⟨rfl, hb⟩ := List.cons.inj hsym
      obtain ⟨rfl, rfl⟩ := List.cons.inj hb
      rw [hk] at hk'
      obtain rfl := Option.some.inj hk'
      rw [show mergeAt [l, r] (0 + List.length ([] : List (List UInt8))) = [l ++ r] from rfl,
        mergeLoop_singleton]
      exact ⟨fun _ => ⟨n, hn, hlt⟩, fun _ => rfl⟩
  · rename_i hnone
    rcases bestPair_spec t intMax none 0 [l, r] with ⟨-, hge⟩ | ⟨k, hk, -⟩
    · refine ⟨fun hlen => absurd hlen (by simp), ?_⟩
      rintro ⟨n, hn, hlt⟩
      exact absurd hlt (not_lt_of_ge (hge l r (List.infix_refl _) n hn))
    · rw [hnone] at hk
      cases hk

theorem mergeRounds_pair (table : List Merge) (l r : List UInt8) :
    (mergeRounds table [l, r]).length = 1 ↔ (tableRank table l r).isSome := by
  rw [mergeRounds, rounds_pair]
  split_ifs with h
  · simp [h]
  · simp [h]

section

variable {table : List Merge}

/-- Where keys tell pairs apart, the loop computes what the rounds compute. -/
theorem KeysApart.mergeLoop_eq (h : KeysApart table)
    (hc : Consistent (tableRank table) (· ++ ·)) (t : Tokenizer) (symbols : List (List UInt8)) :
    (t.withMerges table).mergeLoop symbols = mergeRounds table symbols := by
  have hrank : (t.withMerges table).rank = tableRank table := by
    funext l r
    exact rank_eq_tableRank (fun l r n hn => ⟨(h l r n hn).1, (h l r n hn).2.1⟩) t l r
  obtain ⟨hrun, hnormal⟩ := mergeLoop_spec (t := t.withMerges table)
    (fun l r n hn => (h l r n (hrank ▸ hn)).2.2) symbols
  rw [hrank] at hrun hnormal
  exact eq_rounds hc hrun hnormal

/-- If loop and rounds agree on pairs, a ranked pair is found below the loop's bound. -/
theorem rank_of_agree {t : Tokenizer}
    (h : ∀ symbols, (t.withMerges table).mergeLoop symbols = mergeRounds table symbols)
    (l r : List UInt8) : (tableRank table l r).isSome ↔
      ∃ n, (t.withMerges table).rank l r = some n ∧ n < intMax := by
  rw [← mergeRounds_pair, ← h, mergeLoop_pair]

theorem keysApart_of_agree (hkeys : DistinctKeys table) {t : Tokenizer}
    (h : ∀ symbols, (t.withMerges table).mergeLoop symbols = mergeRounds table symbols) :
    KeysApart table := by
  have hline (l r : List UInt8) (n : ℤ) (hn : tableRank table l r = some n) :
      ¬ ('\n'.toUInt8 ∈ l ∨ '\n'.toUInt8 ∈ r) := by
    intro hnewline
    obtain ⟨l', r', hkey, hne⟩ := exists_same_key hnewline
    have hfound := (rank_of_agree h l r).mp (by rw [hn]; rfl)
    rw [rank_withMerges, hkey, ← rank_withMerges] at hfound
    obtain ⟨n', hn'⟩ := Option.isSome_iff_exists.mp ((rank_of_agree h l' r').mpr hfound)
    exact hne (hkeys l r n l' r' n' hn hn' hkey)
  intro l r n hn
  have hl := hline l r n hn
  rw [not_or] at hl
  obtain ⟨n', hn', hlt⟩ := (rank_of_agree h l r).mp (by rw [hn]; rfl)
  rw [rank_eq_tableRank (fun l r n hn => not_or.mp (hline l r n hn)), hn] at hn'
  obtain rfl := Option.some.inj hn'
  exact ⟨hl.1, hl.2, hlt⟩

end

/-- The loop computes the segmentation of the rounds where no side of a merge holds a
newline and no rank is its bound; where the table's keys are distinct, only there. -/
theorem mergeLoop_eq_mergeRounds_iff (t : Tokenizer) (table : List Merge)
    (hc : Consistent (tableRank table) (· ++ ·)) :
    (KeysApart table →
      ∀ symbols, (t.withMerges table).mergeLoop symbols = mergeRounds table symbols) ∧
    (DistinctKeys table →
      (∀ symbols, (t.withMerges table).mergeLoop symbols = mergeRounds table symbols) →
        KeysApart table) :=
  ⟨fun h => h.mergeLoop_eq hc t, fun hkeys h => keysApart_of_agree hkeys h⟩

theorem consistent_of_forall {table : List Merge}
    (hdistinct : ∀ m ∈ table, ∀ m' ∈ table, m.rank = m'.rank → m.left = m'.left ∧ m.right = m'.right)
    (hlater : ∀ m ∈ table, ∀ m' ∈ table,
      m'.left = m.left ++ m.right ∨ m'.right = m.left ++ m.right → m.rank < m'.rank) :
    Consistent (tableRank table) (· ++ ·) := by
  have hmem {l r : List UInt8} {n : ℤ} (h : tableRank table l r = some n) :
      ∃ m ∈ table, m.left = l ∧ m.right = r ∧ m.rank = n := by
    obtain ⟨m, hfind, rfl⟩ := Option.map_eq_some_iff.mp h
    have hm := List.find?_some hfind
    obtain ⟨hl, hr⟩ := of_decide_eq_true hm
    exact ⟨m, List.mem_reverse.mp (List.mem_of_find?_eq_some hfind), hl, hr, rfl⟩
  constructor
  · intro a b c d n hab hcd
    obtain ⟨m, hm, rfl, rfl, hn⟩ := hmem hab
    obtain ⟨m', hm', rfl, rfl, hn'⟩ := hmem hcd
    exact hdistinct m hm m' hm' (hn.trans hn'.symm)
  · intro l r a b n k hlr hab hside
    obtain ⟨m, hm, rfl, rfl, rfl⟩ := hmem hlr
    obtain ⟨m', hm', rfl, rfl, rfl⟩ := hmem hab
    exact hlater m hm m' hm' hside

/-- The merges of `hi` and of `hii`. -/
def hiMerges : List Merge := [⟨[0x68], [0x69], 0⟩, ⟨[0x68, 0x69], [0x69], 1⟩]

theorem mergeLoop_eq_mergeRounds_hi :
    (KeysApart hiMerges → ∀ symbols,
      (withMerges {} hiMerges).mergeLoop symbols = mergeRounds hiMerges symbols) ∧
    (DistinctKeys hiMerges →
      (∀ symbols, (withMerges {} hiMerges).mergeLoop symbols = mergeRounds hiMerges symbols) →
        KeysApart hiMerges) :=
  mergeLoop_eq_mergeRounds_iff {} hiMerges (consistent_of_forall (by decide) (by decide))

/-- A tab merges with a newline, or with two. -/
def newlineMerges : List Merge := [⟨[0x09], [0x0A], 0⟩, ⟨[0x09], [0x0A, 0x0A], 1⟩]

/-- The key of the second merge is also the key of a tab and a newline, and a newline. -/
theorem mergeLoop_merges_unranked :
    ¬ ∀ (t : Tokenizer) (table : List Merge), Consistent (tableRank table) (· ++ ·) →
      ∀ symbols, (t.withMerges table).mergeLoop symbols = mergeRounds table symbols := by
  intro h
  have hagree := h {} newlineMerges (consistent_of_forall (by decide) (by decide))
  have hloop : (withMerges {} newlineMerges).mergeLoop [[0x09], [0x0A], [0x0A]] =
      [[0x09, 0x0A, 0x0A]] := by
    decide +kernel
  have hrounds : mergeRounds newlineMerges [[0x09], [0x0A], [0x0A]] = [[0x09, 0x0A], [0x0A]] := by
    decide +kernel
  have hbad := hagree [[0x09], [0x0A], [0x0A]]
  rw [hloop, hrounds] at hbad
  exact absurd hbad (by decide)

end Tokenizer

end JLLM
