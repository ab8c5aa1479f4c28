import Mathlib.Algebra.BigOperators.Group.List.Basic
import Mathlib.Algebra.Order.BigOperators.Group.List
import Mathlib.Algebra.Order.Group.Defs
import Mathlib.Data.List.Sort
import Mathlib.Tactic.Linarith

/-! Nucleus selection over weighted items: the shortest prefix of a descending
order whose mass exceeds a bound. Whether a list of items is such a prefix can be
read off without choosing the order. -/

namespace Nucleus

variable {α K : Type*}

/-- A descending order of a list. -/
theorem exists_descending [LinearOrder K] (w : α → K) (l : List α) :
    ∃ o : List α, o.Perm l ∧ o.Pairwise fun a b => w b ≤ w a := by
  classical
  let r : α → α → Prop := fun a b => w b ≤ w a
  have : Std.Total r := ⟨fun a b => le_total (w b) (w a)⟩
  have : IsTrans α r := ⟨fun a b c hab hbc => le_trans hbc hab⟩
  exact ⟨l.insertionSort r, List.perm_insertionSort r l, List.pairwise_insertionSort r l⟩

variable [AddCommGroup K]

/-- The sum of the weights. -/
def mass (w : α → K) (l : List α) : K := (l.map w).sum

@[simp] theorem mass_nil (w : α → K) : mass w [] = 0 := rfl

@[simp] theorem mass_cons (w : α → K) (a : α) (l : List α) : mass w (a :: l) = w a + mass w l := by
  simp [mass]

@[simp] theorem mass_append (w : α → K) (l₁ l₂ : List α) :
    mass w (l₁ ++ l₂) = mass w l₁ + mass w l₂ := by
  simp [mass]

theorem mass_perm {w : α → K} {l₁ l₂ : List α} (h : l₁.Perm l₂) : mass w l₁ = mass w l₂ :=
  (h.map w).sum_eq

variable [LinearOrder K] [IsOrderedAddMonoid K]

theorem mass_nonneg {w : α → K} {l : List α} (h : ∀ a ∈ l, 0 ≤ w a) : 0 ≤ mass w l :=
  List.sum_nonneg (by simpa using h)

/-- Longer prefixes weigh more. -/
theorem mass_take_mono {w : α → K} {l : List α} (h : ∀ a ∈ l, 0 ≤ w a) {c c' : ℕ} (hc : c ≤ c') :
    mass w (l.take c) ≤ mass w (l.take c') := by
  obtain ⟨d, rfl⟩ := Nat.exists_eq_add_of_le hc
  rw [List.take_add, mass_append]
  have : 0 ≤ mass w ((l.drop c).take d) :=
    mass_nonneg fun a ha => h a (List.mem_of_mem_drop (List.mem_of_mem_take ha))
  exact le_add_of_nonneg_right this

/-- Heaviest first. -/
def Descending (w : α → K) (l : List α) : Prop := l.Pairwise fun a b => w b ≤ w a

/-- `c` items are the shortest prefix whose mass exceeds `p`, or all items. -/
structure IsCut (w : α → K) (p : K) (order : List α) (c : ℕ) : Prop where
  le : c ≤ order.length
  reached : p < mass w (order.take c) ∨ c = order.length
  shortest : ∀ c', c' < c → mass w (order.take c') ≤ p

omit [IsOrderedAddMonoid K] in
/-- A list has one cut only. -/
theorem IsCut.unique {w : α → K} {p : K} {order : List α} {c c' : ℕ} (h : IsCut w p order c)
    (h' : IsCut w p order c') : c = c' := by
  rcases Nat.lt_trichotomy c c' with hlt | heq | hlt
  · rcases h.reached with hr | hr
    · exact absurd (h'.shortest c hlt) (not_le.mpr hr)
    · exact absurd h'.le (by omega)
  · exact heq
  · rcases h'.reached with hr | hr
    · exact absurd (h.shortest c' hlt) (not_le.mpr hr)
    · exact absurd h.le (by omega)

omit [IsOrderedAddMonoid K] in
/-- A cut inside a prefix is one of the prefix. -/
theorem IsCut.left {w : α → K} {p : K} {l₁ l₂ : List α} {c : ℕ} (h : IsCut w p (l₁ ++ l₂) c)
    (hc : c ≤ l₁.length) : IsCut w p l₁ c where
  le := hc
  reached := by
    rcases h.reached with hr | hr
    · rw [List.take_append_of_le_length hc] at hr
      exact Or.inl hr
    · rw [List.length_append] at hr
      exact Or.inr (by omega)
  shortest c' hc' := by
    have htake : (l₁ ++ l₂).take c' = l₁.take c' :=
      List.take_append_of_le_length (hc'.le.trans hc)
    rw [← htake]
    exact h.shortest c' hc'

/-- The cut of a loop that tests the mass after each item, so that a bound below
zero still keeps one. -/
structure LoopCut (w : α → K) (p : K) (l : List α) (c : ℕ) : Prop where
  le : c ≤ l.length
  pos : l ≠ [] → 0 < c
  reached : p < mass w (l.take c) ∨ c = l.length
  shortest : ∀ c', 0 < c' → c' < c → mass w (l.take c') ≤ p

omit [IsOrderedAddMonoid K] in
theorem LoopCut.isCut {w : α → K} {p : K} {l : List α} {c : ℕ} (h : LoopCut w p l c) (hp : 0 ≤ p) :
    IsCut w p l c where
  le := h.le
  reached := h.reached
  shortest c' hc' := by
    rcases Nat.eq_zero_or_pos c' with rfl | hpos
    · simpa using hp
    · exact h.shortest c' hpos hc'

omit [IsOrderedAddMonoid K] in
/-- Where anything has a weight, what such a loop keeps has one. -/
theorem LoopCut.mass_pos {w : α → K} {p : K} {l : List α} {c : ℕ} (h : LoopCut w p l c) (hp : 0 ≤ p)
    (hl : 0 < mass w l) : 0 < mass w (l.take c) := by
  rcases h.reached with hreached | rfl
  · exact hp.trans_lt hreached
  · rwa [List.take_length]

/-- `kept` is a cut prefix of some descending order of `items`. -/
def IsNucleus (w : α → K) (p : K) (items kept : List α) : Prop :=
  ∃ order, order.Perm items ∧ Descending w order ∧ ∃ c, IsCut w p order c ∧ kept.Perm (order.take c)

/-- The same without an order: the kept items dominate the others, exceed the
bound, and do not exceed it without any one of them. -/
structure NucleusParts (w : α → K) (p : K) (items kept rest : List α) : Prop where
  split : (kept ++ rest).Perm items
  dominates : ∀ a ∈ kept, ∀ b ∈ rest, w b ≤ w a
  enough : p < mass w kept ∨ rest = []
  needed : ∀ a ∈ kept, mass w kept - w a ≤ p

/-- Without the lightest of the kept items nothing exceeds the bound. -/
theorem IsCut.needed {w : α → K} {p : K} {order : List α} {c : ℕ} (hdesc : Descending w order)
    (hcut : IsCut w p order c) : ∀ a ∈ order.take c, mass w (order.take c) - w a ≤ p := by
  intro a ha
  cases c with
  | zero => simp at ha
  | succ c =>
    have hc : c < order.length := hcut.le
    have htake : order.take (c + 1) = order.take c ++ [order[c]] := by
      rw [List.take_add_one, List.getElem?_eq_getElem hc]
      rfl
    have hprev := hcut.shortest c (Nat.lt_succ_self c)
    have hlast : w order[c] ≤ w a := by
      rw [htake] at ha
      rcases List.mem_append.mp ha with ha | ha
      · have hsplit : (order.take c ++ order.drop c).Pairwise fun a b => w b ≤ w a := by
          rwa [List.take_append_drop]
        refine (List.pairwise_append.mp hsplit).2.2 a ha _ ?_
        rw [List.drop_eq_getElem_cons hc]
        exact List.mem_cons_self
      · rw [List.mem_singleton.mp ha]
    rw [htake, mass_append, mass_cons, mass_nil, add_zero]
    calc
      mass w (order.take c) + w order[c] - w a ≤ mass w (order.take c) + w a - w a :=
        sub_le_sub_right (add_le_add_right hlast _) _
      _ = mass w (order.take c) := add_sub_cancel_right _ _
      _ ≤ p := hprev

theorem IsNucleus.parts {w : α → K} {p : K} {items kept : List α} (h : IsNucleus w p items kept) :
    ∃ rest, NucleusParts w p items kept rest := by
  obtain ⟨order, hperm, hdesc, c, hcut, hkept⟩ := h
  have hsplit : (order.take c ++ order.drop c).Pairwise fun a b => w b ≤ w a := by
    rwa [List.take_append_drop]
  refine ⟨order.drop c, ?_, ?_, ?_, ?_⟩
  · have := hkept.append_right (order.drop c)
    rw [List.take_append_drop] at this
    exact this.trans hperm
  · intro a ha b hb
    exact (List.pairwise_append.mp hsplit).2.2 a (hkept.subset ha) b hb
  · rw [mass_perm hkept]
    rcases hcut.reached with h | rfl
    · exact Or.inl h
    · exact Or.inr List.drop_length
  · intro a ha
    rw [mass_perm hkept]
    exact hcut.needed hdesc a (hkept.subset ha)

theorem NucleusParts.isNucleus {w : α → K} {p : K} {items kept rest : List α}
    (h : NucleusParts w p items kept rest) (hw : ∀ a ∈ items, 0 ≤ w a) :
    IsNucleus w p items kept := by
  obtain ⟨o₁, hp₁, hd₁⟩ := exists_descending w kept
  obtain ⟨o₂, hp₂, hd₂⟩ := exists_descending w rest
  have htake : (o₁ ++ o₂).take o₁.length = o₁ := List.take_left
  refine ⟨o₁ ++ o₂, (hp₁.append hp₂).trans h.split, ?_, o₁.length, ⟨?_, ?_, ?_⟩, ?_⟩
  · refine List.pairwise_append.mpr ⟨hd₁, hd₂, fun a ha b hb => ?_⟩
    exact h.dominates a (hp₁.subset ha) b (hp₂.subset hb)
  · simp
  · rw [htake, mass_perm hp₁]
    rcases h.enough with h | rfl
    · exact Or.inl h
    · right
      rw [hp₂.eq_nil]
      simp
  · intro c' hc'
    rw [List.take_append_of_le_length hc'.le]
    have hnonneg : ∀ a ∈ o₁, 0 ≤ w a := fun a ha =>
      hw a (h.split.subset (List.mem_append_left _ (hp₁.subset ha)))
    -- a shorter prefix misses the last kept item
    obtain ⟨init, last, rfl⟩ := List.eq_nil_or_concat o₁ |>.resolve_left (by
      rintro rfl
      simp at hc')
    rw [List.concat_eq_append] at hc' hp₁ hnonneg ⊢
    have hneed := h.needed last (hp₁.subset (by simp))
    rw [← mass_perm hp₁, mass_append, mass_cons, mass_nil, add_zero, add_sub_cancel_right] at hneed
    have hlen : c' ≤ init.length := by simpa using Nat.lt_succ_iff.mp (by simpa using hc')
    rw [List.take_append_of_le_length hlen]
    refine le_trans ?_ hneed
    have := mass_take_mono (w := w) (l := init) (fun a ha => hnonneg a (by simp [ha])) hlen
    rwa [List.take_length] at this
  · rw [htake]
    exact hp₁.symm

/-! ### Selecting the heaviest -/

/-- `sel` are `k` heaviest items, or all if there are fewer. -/
def IsTopK {α K : Type*} [LE K] (w : α → K) (k : ℕ) (items sel : List α) : Prop :=
  ∃ rest, (sel ++ rest).Perm items ∧ sel.length = min k items.length ∧
    ∀ a ∈ sel, ∀ b ∈ rest, w b ≤ w a

section

variable {β L : Type*} [LinearOrder L] {w : α → K} {v : β → L} {k : ℕ} {items sel sel' : List α}

omit [AddCommGroup K] [IsOrderedAddMonoid K] in
theorem IsTopK.perm (h : IsTopK w k items sel) (hperm : sel'.Perm sel) : IsTopK w k items sel' := by
  obtain ⟨rest, hsplit, hlen, hdom⟩ := h
  exact ⟨rest, (hperm.append_right rest).trans hsplit, hperm.length_eq.trans hlen,
    fun a ha => hdom a (hperm.subset ha)⟩

omit [AddCommGroup K] [IsOrderedAddMonoid K] in
theorem IsTopK.items_perm {items' : List α} (h : IsTopK w k items sel) (hperm : items.Perm items') :
    IsTopK w k items' sel := by
  obtain ⟨rest, hsplit, hlen, hdom⟩ := h
  exact ⟨rest, hsplit.trans hperm, hperm.length_eq ▸ hlen, hdom⟩

omit [AddCommGroup K] [IsOrderedAddMonoid K] in
/-- A map that keeps the order of the weights keeps the selection. -/
theorem IsTopK.map (h : IsTopK w k items sel) {g : α → β} (hg : ∀ a b, w a ≤ w b → v (g a) ≤ v (g b)) :
    IsTopK v k (items.map g) (sel.map g) := by
  obtain ⟨rest, hsplit, hlen, hdom⟩ := h
  refine ⟨rest.map g, ?_, by simpa using hlen, ?_⟩
  · rw [← List.map_append]
    exact hsplit.map g
  · intro a ha b hb
    obtain ⟨a', ha', rfl⟩ := List.mem_map.mp ha
    obtain ⟨b', hb', rfl⟩ := List.mem_map.mp hb
    exact hg b' a' (hdom a' ha' b' hb')

omit [AddCommGroup K] [IsOrderedAddMonoid K] in
/-- With enough room everything is selected. -/
theorem IsTopK.all (h : IsTopK w k items sel) (hk : items.length ≤ k) : sel.Perm items := by
  obtain ⟨rest, hsplit, hlen, -⟩ := h
  have hrest : rest = [] := by
    have := hsplit.length_eq
    rw [List.length_append, hlen, Nat.min_eq_right hk] at this
    exact List.eq_nil_of_length_eq_zero (by omega)
  rwa [hrest, List.append_nil] at hsplit

omit [AddCommGroup K] [IsOrderedAddMonoid K] in
/-- A descending list starts with its elements above any bound. -/
theorem descending_filter {o : List α} (h : o.Pairwise fun a b => w b ≤ w a) (z : K) :
    o = (o.filter fun a => z < w a) ++ (o.filter fun a => ¬ z < w a) := by
  induction o with
  | nil => rfl
  | cons a o ih =>
    obtain ⟨ha, ho⟩ := List.pairwise_cons.mp h
    by_cases hz : z < w a
    · rw [List.filter_cons_of_pos (by simpa using hz), List.filter_cons_of_neg (by simpa using hz),
        List.cons_append, ← ih ho]
    · have hlow : ∀ b ∈ o, ¬ z < w b := fun b hb hzb => hz (hzb.trans_le (ha b hb))
      rw [List.filter_cons_of_neg (by simpa using hz), List.filter_cons_of_pos (by simpa using hz),
        List.filter_eq_nil_iff.mpr (by simpa using hlow),
        List.filter_eq_self.mpr (by simpa using hlow), List.nil_append]

omit [AddCommGroup K] [IsOrderedAddMonoid K] in
/-- Items that weigh no more than a bound do not disturb the selection above it. -/
theorem IsTopK.filter (h : IsTopK w k items sel) (z : K) :
    IsTopK w k (items.filter fun a => z < w a) (sel.filter fun a => z < w a) := by
  obtain ⟨rest, hsplit, hlen, hdom⟩ := h
  have hfilter := hsplit.filter fun a => z < w a
  rw [List.filter_append] at hfilter
  refine ⟨rest.filter fun a => z < w a, hfilter, ?_, fun a ha b hb =>
    hdom a (List.mem_of_mem_filter ha) b (List.mem_of_mem_filter hb)⟩
  have hlenSplit := hsplit.length_eq
  have hlenFilter := hfilter.length_eq
  rw [List.length_append] at hlenSplit hlenFilter
  have hle : (sel.filter fun a => z < w a).length ≤ sel.length := List.length_filter_le _ _
  by_cases hrest : ∃ b ∈ rest, z < w b
  · -- something above the bound was left out, so everything selected is above it
    obtain ⟨b, hb, hzb⟩ := hrest
    have hsel : (sel.filter fun a => z < w a) = sel :=
      List.filter_eq_self.mpr fun a ha => by simpa using hzb.trans_le (hdom a ha b hb)
    have hpos : 0 < rest.length := List.length_pos_of_mem hb
    rw [hsel] at hlenFilter ⊢
    omega
  · have hnil : (rest.filter fun a => z < w a) = [] :=
      List.filter_eq_nil_iff.mpr fun b hb => by simpa using fun hzb => hrest ⟨b, hb, hzb⟩
    rw [hnil, List.length_nil] at hlenFilter
    omega

/-- Nor do the heaviest weigh nothing unless all do. -/
theorem IsTopK.mass_pos (h : IsTopK w k items sel) (hk : 0 < k) (hw : ∀ a ∈ items, 0 ≤ w a)
    (hitems : 0 < mass w items) : 0 < mass w sel := by
  obtain ⟨rest, hsplit, hlen, hdom⟩ := h
  have hnonneg : ∀ a ∈ sel, 0 ≤ w a := fun a ha => hw a (hsplit.subset (List.mem_append_left _ ha))
  rw [← mass_perm hsplit, mass_append] at hitems
  refine lt_of_not_ge fun hle => ?_
  cases sel with
  | nil =>
    have hnil : items = [] := by
      rw [List.length_nil] at hlen
      exact List.length_eq_zero_iff.mp (by omega)
    rw [hnil] at hsplit
    rw [(List.append_eq_nil_iff.mp (List.perm_nil.mp hsplit)).2] at hitems
    simp at hitems
  | cons a sel =>
    have ha : w a ≤ 0 := by
      rw [mass_cons] at hle
      exact (le_add_of_nonneg_right (mass_nonneg fun b hb =>
        hnonneg b (List.mem_cons_of_mem _ hb))).trans hle
    have hrest : mass w rest = 0 := by
      refine List.sum_eq_zero fun x hx => ?_
      obtain ⟨b, hb, rfl⟩ := List.mem_map.mp hx
      exact le_antisymm ((hdom a List.mem_cons_self b hb).trans ha)
        (hw b (hsplit.subset (List.mem_append_right _ hb)))
    rw [hrest, add_zero] at hitems
    exact absurd hitems (not_lt.mpr hle)

omit [AddCommGroup K] [IsOrderedAddMonoid K] in
/-- When no two items weigh the same there is one descending order. -/
theorem descending_unique {o o' : List α} (hperm : o.Perm o')
    (hinj : ∀ a ∈ o, ∀ b ∈ o, w a = w b → a = b) (h : o.Pairwise fun a b => w b ≤ w a)
    (h' : o'.Pairwise fun a b => w b ≤ w a) : o = o' := by
  refine hperm.eq_of_pairwise ?_ h h'
  intro a b ha hb hab hba
  exact hinj a ha b (hperm.symm.subset hb) (le_antisymm hba hab)

omit [AddCommGroup K] [IsOrderedAddMonoid K] in
/-- Then a descending selection is the start of that order. -/
theorem IsTopK.eq_take (h : IsTopK w k items sel) {order : List α} (horder : order.Perm items)
    (hdesc : order.Pairwise fun a b => w b ≤ w a)
    (hinj : ∀ a ∈ items, ∀ b ∈ items, w a = w b → a = b)
    (hsel : sel.Pairwise fun a b => w b ≤ w a) : sel = order.take k := by
  obtain ⟨rest, hsplit, hlen, hdom⟩ := h
  obtain ⟨o, ho, hod⟩ := exists_descending w rest
  have hall : (sel ++ o).Perm items := (ho.append_left sel).trans hsplit
  have heq : sel ++ o = order := by
    refine descending_unique (hall.trans horder.symm) ?_ ?_ hdesc
    · exact fun a ha b hb => hinj a (hall.subset ha) b (hall.subset hb)
    · exact List.pairwise_append.mpr ⟨hsel, hod, fun a ha b hb => hdom a ha b (ho.subset hb)⟩
  rw [← heq]
  rcases Nat.le_total k items.length with hk | hk
  · rw [Nat.min_eq_left hk] at hlen
    rw [← hlen, List.take_left]
  · have ho' : o = [] := by
      have := hall.length_eq
      rw [List.length_append, hlen, Nat.min_eq_right hk] at this
      exact List.eq_nil_of_length_eq_zero (by omega)
    rw [ho', List.append_nil, List.take_of_length_le (by omega)]

end

end Nucleus
