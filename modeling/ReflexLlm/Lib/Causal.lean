import Mathlib.Algebra.Order.Ring.Nat
import Mathlib.Data.List.GetD
import Mathlib.Data.Prod.Basic
import Mathlib.Tactic.Tauto

/-! Causal layered computations over a store of entries, one for each layer and
position. A position's entry at a layer comes from its hidden state there, and
its next hidden state reads the layer's entries up to that position. The
reference values need no store; running all layers position by position and
running all positions layer by layer both compute them. -/

namespace Causal

/-- A stack of causal layers over hidden states `X` and store entries `E`. -/
structure Stack (X E : Type*) where
  /-- The entry written at a layer and position, over its old content. -/
  entry : ℕ → ℕ → X → E → E
  /-- The hidden state handed to the next layer, from the layer's entries. -/
  out : ℕ → ℕ → X → (ℕ → E) → X
  /-- No layer reads a later position. -/
  causal : ∀ l p x f g, (∀ j, j ≤ p → f j = g j) → out l p x f = out l p x g

namespace Stack

variable {X E : Type*} (S : Stack X E)

/-- Hidden states entering each layer, when the entries before `start` are
given and those from `start` on are computed from the inputs `x₀`. -/
def hid (prior : ℕ → ℕ → E) (start : ℕ) (x₀ : ℕ → X) : ℕ → ℕ → X
  | 0 => x₀
  | l + 1 => fun p => S.out l p (hid prior start x₀ l p)
      (fun j => if j < start then prior l j else S.entry l j (hid prior start x₀ l j) (prior l j))

/-- The entries of a layer: given before `start`, computed from there on. -/
def rows (prior : ℕ → ℕ → E) (start : ℕ) (x₀ : ℕ → X) (l j : ℕ) : E :=
  if j < start then prior l j else S.entry l j (S.hid prior start x₀ l j) (prior l j)

variable {S} {prior prior' : ℕ → ℕ → E} {start : ℕ} {x₀ x₀' : ℕ → X}

theorem hid_succ (l p : ℕ) :
    S.hid prior start x₀ (l + 1) p =
      S.out l p (S.hid prior start x₀ l p) (S.rows prior start x₀ l) := rfl

theorem rows_before {l j : ℕ} (hj : j < start) : S.rows prior start x₀ l j = prior l j :=
  if_pos hj

theorem rows_from {l j : ℕ} (hj : start ≤ j) :
    S.rows prior start x₀ l j = S.entry l j (S.hid prior start x₀ l j) (prior l j) :=
  if_neg (by omega)

/-- Causality: a hidden state depends on the inputs up to its position. -/
theorem hid_congr {p : ℕ} (hx : ∀ j, j ≤ p → x₀ j = x₀' j) (l : ℕ) :
    ∀ j, j ≤ p → S.hid prior start x₀ l j = S.hid prior start x₀' l j := by
  induction l with
  | zero => exact hx
  | succ l ih =>
    intro j hj
    rw [hid_succ, hid_succ, ih j hj]
    apply S.causal
    intro i hi
    simp only [rows, ih i (by omega)]

/-- Causality for the entries. -/
theorem rows_congr {p : ℕ} (hx : ∀ j, j ≤ p → x₀ j = x₀' j) (l : ℕ) {j : ℕ} (hj : j ≤ p) :
    S.rows prior start x₀ l j = S.rows prior start x₀' l j := by
  simp only [rows, hid_congr hx l j hj]

/-- The entries do not depend on what the store held before. -/
def Overwrites (S : Stack X E) : Prop := ∀ l p x e e', S.entry l p x e = S.entry l p x e'

/-- A computation resumed over correct entries for the first `m` positions
continues the computation from position zero. -/
theorem resume (hS : S.Overwrites) {L m : ℕ}
    (hprior : ∀ l j, l < L → j < m → prior' l j = S.rows prior 0 x₀ l j) :
    ∀ l, (l ≤ L → ∀ p, m ≤ p → S.hid prior' m x₀ l p = S.hid prior 0 x₀ l p) ∧
      (l < L → ∀ p, S.rows prior' m x₀ l p = S.rows prior 0 x₀ l p) := by
  have hrows (l : ℕ) (hl : l < L)
      (hh : ∀ p, m ≤ p → S.hid prior' m x₀ l p = S.hid prior 0 x₀ l p) (p : ℕ) :
      S.rows prior' m x₀ l p = S.rows prior 0 x₀ l p := by
    by_cases hp : p < m
    · rw [rows_before hp, hprior l p hl hp]
    · rw [rows_from (by omega), rows_from (Nat.zero_le p), hh p (by omega)]
      exact hS _ _ _ _ _
  intro l
  induction l with
  | zero =>
    have hh : ∀ p, m ≤ p → S.hid prior' m x₀ 0 p = S.hid prior 0 x₀ 0 p := fun _ _ => rfl
    exact ⟨fun _ => hh, fun hl => hrows 0 hl hh⟩
  | succ l ih =>
    have hh (hl : l + 1 ≤ L) (p : ℕ) (hp : m ≤ p) :
        S.hid prior' m x₀ (l + 1) p = S.hid prior 0 x₀ (l + 1) p := by
      rw [hid_succ, hid_succ, ih.1 (by omega) p hp]
      exact congrArg _ (funext (ih.2 (by omega)))
    exact ⟨hh, fun hl => hrows (l + 1) hl (hh (by omega))⟩

end Stack

/-! ### Running a stack over a store -/

variable {X E σ : Type*}

/-- `step l p` is one layer at one position: it writes that entry only, returns
the next hidden state and keeps the store's invariant. -/
structure Realizes (S : Stack X E) (inv : σ → Prop) (get : σ → ℕ → ℕ → E)
    (valid : ℕ → ℕ → Prop) (step : ℕ → ℕ → σ → X → σ × X) : Prop where
  keeps : ∀ {l p} s x, inv s → valid l p → inv (step l p s x).1
  written : ∀ {l p} s x, inv s → valid l p →
    get (step l p s x).1 l p = S.entry l p x (get s l p)
  frame : ∀ {l p l' p'} s x, inv s → valid l p → valid l' p' → (l', p') ≠ (l, p) →
    get (step l p s x).1 l' p' = get s l' p'
  value : ∀ {l p} s x, inv s → valid l p →
    (step l p s x).2 = S.out l p x (get (step l p s x).1 l)

/-- `batch l start` is one layer over a run of positions. -/
structure RealizesBatch (S : Stack X E) (inv : σ → Prop) (get : σ → ℕ → ℕ → E)
    (valid : ℕ → ℕ → Prop) (batch : ℕ → ℕ → σ → List X → σ × List X) : Prop where
  keeps : ∀ {l start} s xs, inv s → (∀ j < xs.length, valid l (start + j)) →
    inv (batch l start s xs).1
  written : ∀ {l start} s xs {i x}, inv s → xs[i]? = some x →
    (∀ j < xs.length, valid l (start + j)) →
    get (batch l start s xs).1 l (start + i) = S.entry l (start + i) x (get s l (start + i))
  frame : ∀ {l start l' p'} s xs, inv s → (∀ j < xs.length, valid l (start + j)) → valid l' p' →
    ¬ (l' = l ∧ start ≤ p' ∧ p' < start + xs.length) →
    get (batch l start s xs).1 l' p' = get s l' p'
  value : ∀ {l start} s xs, inv s → (∀ j < xs.length, valid l (start + j)) →
    (batch l start s xs).2 =
      xs.mapIdx fun i x => S.out l (start + i) x (get (batch l start s xs).1 l)

/-- One position through the first `L` layers. -/
def throughLayers (step : ℕ → ℕ → σ → X → σ × X) (L p : ℕ) (s : σ) (x : X) : σ × X :=
  (List.range L).foldl (fun a l => step l p a.1 a.2) (s, x)

/-- All layers for one position after the other. -/
def tokenMajor (step : ℕ → ℕ → σ → X → σ × X) (L : ℕ) : ℕ → σ → List X → σ × List X
  | _, s, [] => (s, [])
  | p, s, x :: xs =>
      let a := throughLayers step L p s x
      let rest := tokenMajor step L (p + 1) a.1 xs
      (rest.1, a.2 :: rest.2)

/-- All positions for one layer after the other. -/
def layerMajor (batch : ℕ → ℕ → σ → List X → σ × List X) (L start : ℕ) (s : σ) (xs : List X) :
    σ × List X :=
  (List.range L).foldl (fun a l => batch l start a.1 a.2) (s, xs)

/-- A list of inputs as a function of the position, from `start` on. -/
def inputs (dflt : X) (start : ℕ) (xs : List X) (p : ℕ) : X := xs.getD (p - start) dflt

theorem map_inputs (dflt : X) (start : ℕ) (xs : List X) :
    ((List.range xs.length).map fun i => inputs dflt start xs (start + i)) = xs := by
  apply List.ext_getElem
  · simp
  · intro i _ hi
    simp [inputs, hi]

theorem throughLayers_succ (step : ℕ → ℕ → σ → X → σ × X) (L p : ℕ) (s : σ) (x : X) :
    throughLayers step (L + 1) p s x =
      step L p (throughLayers step L p s x).1 (throughLayers step L p s x).2 := by
  simp only [throughLayers, List.range_succ, List.foldl_append, List.foldl_cons, List.foldl_nil]

theorem layerMajor_succ (batch : ℕ → ℕ → σ → List X → σ × List X) (L start : ℕ) (s : σ)
    (xs : List X) :
    layerMajor batch (L + 1) start s xs =
      batch L start (layerMajor batch L start s xs).1 (layerMajor batch L start s xs).2 := by
  simp only [layerMajor, List.range_succ, List.foldl_append, List.foldl_cons, List.foldl_nil]

section

variable {S : Stack X E} {inv : σ → Prop} {get : σ → ℕ → ℕ → E} {valid : ℕ → ℕ → Prop}
  {step : ℕ → ℕ → σ → X → σ × X} {batch : ℕ → ℕ → σ → List X → σ × List X}

/-- The store once positions `[start, q)` of the first `L` layers are computed. -/
def filled (S : Stack X E) (prior : ℕ → ℕ → E) (start : ℕ) (x₀ : ℕ → X) (L q l p : ℕ) : E :=
  if l < L ∧ start ≤ p ∧ p < q then S.rows prior start x₀ l p else prior l p

/-- Up to `q` a filled store holds the reference entries. -/
theorem filled_eq_rows {prior : ℕ → ℕ → E} {start : ℕ} {x₀ : ℕ → X} {L q l p : ℕ} (hl : l < L)
    (hp : p < q) : filled S prior start x₀ L q l p = S.rows prior start x₀ l p := by
  by_cases hs : start ≤ p
  · exact if_pos ⟨hl, hs, hp⟩
  · rw [filled, if_neg (by omega), Stack.rows_before (by omega)]

/-- One position through the layers fills exactly that position. -/
theorem throughLayers_spec (hstep : Realizes S inv get valid step) {prior : ℕ → ℕ → E}
    {start q L : ℕ} {x₀ : ℕ → X} {s : σ} (hq : start ≤ q) (hinv : inv s)
    (hv : ∀ l p, l < L → p ≤ q → valid l p)
    (hs : ∀ l p, valid l p → get s l p = filled S prior start x₀ L q l p) (k : ℕ) (hk : k ≤ L) :
    inv (throughLayers step k q s (x₀ q)).1 ∧
    (∀ l p, valid l p → get (throughLayers step k q s (x₀ q)).1 l p =
      if l < k ∧ p = q then S.rows prior start x₀ l p else filled S prior start x₀ L q l p) ∧
    (throughLayers step k q s (x₀ q)).2 = S.hid prior start x₀ k q := by
  induction k with
  | zero => exact ⟨hinv, fun l p hlp => by simpa [throughLayers] using hs l p hlp, rfl⟩
  | succ k ih =>
    obtain ⟨hi, hget, hx⟩ := ih (by omega)
    have hkq := hv k q (by omega) le_rfl
    rw [throughLayers_succ]
    set s₁ := (throughLayers step k q s (x₀ q)).1
    rw [hx]
    have hnew : get (step k q s₁ (S.hid prior start x₀ k q)).1 k q = S.rows prior start x₀ k q := by
      rw [hstep.written _ _ hi hkq, hget k q hkq, if_neg (by omega), filled, if_neg (by omega),
        Stack.rows_from hq]
    have hrest (l p : ℕ) (hlp : valid l p) (hne : (l, p) ≠ (k, q)) :
        get (step k q s₁ (S.hid prior start x₀ k q)).1 l p = get s₁ l p :=
      hstep.frame _ _ hi hkq hlp hne
    refine ⟨hstep.keeps _ _ hi hkq, ?_, ?_⟩
    · intro l p hlp
      by_cases hc : l = k ∧ p = q
      · obtain ⟨rfl, rfl⟩ := hc
        rw [hnew, if_pos ⟨Nat.lt_succ_self l, rfl⟩]
      · rw [hrest l p hlp (by simpa using hc), hget l p hlp]
        have hiff : (l < k ∧ p = q) ↔ (l < k + 1 ∧ p = q) := by omega
        simp only [hiff]
    · rw [hstep.value _ _ hi hkq, Stack.hid_succ]
      apply S.causal
      intro j hj
      by_cases hjq : j = q
      · rw [hjq, hnew]
      · rw [hrest k j (hv k j (by omega) hj) (by simp [hjq]), hget k j (hv k j (by omega) hj),
          if_neg (by omega), filled_eq_rows (by omega) (by omega)]

/-- Position after position computes the reference. -/
theorem tokenMajor_spec (hstep : Realizes S inv get valid step) {prior : ℕ → ℕ → E}
    {start L : ℕ} (x₀ : ℕ → X) (M : ℕ) : ∀ (q : ℕ) (s : σ), start ≤ q → inv s →
    (∀ l p, l < L → p < q + M → valid l p) →
    (∀ l p, valid l p → get s l p = filled S prior start x₀ L q l p) →
    inv (tokenMajor step L q s ((List.range M).map fun i => x₀ (q + i))).1 ∧
    (∀ l p, valid l p →
      get (tokenMajor step L q s ((List.range M).map fun i => x₀ (q + i))).1 l p =
        filled S prior start x₀ L (q + M) l p) ∧
    (tokenMajor step L q s ((List.range M).map fun i => x₀ (q + i))).2 =
      (List.range M).map fun i => S.hid prior start x₀ L (q + i) := by
  induction M with
  | zero => exact fun q s _ hinv _ hs => ⟨hinv, hs, rfl⟩
  | succ M ih =>
    intro q s hq hinv hv hs
    obtain ⟨hi, hget, hx⟩ :=
      throughLayers_spec hstep hq hinv (fun l p hl hp => hv l p hl (by omega)) hs L le_rfl
    have hnext : ∀ l p, valid l p →
        get (throughLayers step L q s (x₀ q)).1 l p = filled S prior start x₀ L (q + 1) l p := by
      intro l p hlp
      rw [hget l p hlp]
      by_cases hc : l < L ∧ p = q
      · rw [if_pos hc, filled_eq_rows hc.1 (by omega)]
      · rw [if_neg hc, filled, filled]
        have hiff : (l < L ∧ start ≤ p ∧ p < q) ↔ (l < L ∧ start ≤ p ∧ p < q + 1) := by omega
        simp only [hiff]
    have hlist (f : ℕ → X) :
        ((List.range (M + 1)).map fun i => f (q + i)) =
          f q :: (List.range M).map fun i => f (q + 1 + i) := by
      rw [List.range_succ_eq_map, List.map_cons, List.map_map, Nat.add_zero]
      congr 2
      funext i
      simp only [Function.comp, Nat.succ_eq_add_one]
      congr 1
      omega
    rw [hlist x₀, hlist (S.hid prior start x₀ L), tokenMajor]
    obtain ⟨hinv', hfin, hxs⟩ :=
      ih (q + 1) _ (by omega) hi (fun l p hl hp => hv l p hl (by omega)) hnext
    refine ⟨hinv', ?_, ?_⟩
    · rw [show q + (M + 1) = q + 1 + M by omega]
      exact hfin
    · simp only [hx, hxs]

/-- Layer after layer computes the same reference. -/
theorem layerMajor_spec (hbatch : RealizesBatch S inv get valid batch) {start M L : ℕ}
    (x₀ : ℕ → X) {s : σ} (hinv : inv s) (hv : ∀ l p, l < L → p < start + M → valid l p) (k : ℕ)
    (hk : k ≤ L) :
    inv (layerMajor batch k start s ((List.range M).map fun i => x₀ (start + i))).1 ∧
    (∀ l p, valid l p →
      get (layerMajor batch k start s ((List.range M).map fun i => x₀ (start + i))).1 l p =
        filled S (get s) start x₀ k (start + M) l p) ∧
    (layerMajor batch k start s ((List.range M).map fun i => x₀ (start + i))).2 =
      (List.range M).map fun i => S.hid (get s) start x₀ k (start + i) := by
  induction k with
  | zero =>
    refine ⟨hinv, fun l p _ => ?_, rfl⟩
    rw [filled, if_neg (by omega)]
    rfl
  | succ k ih =>
    obtain ⟨hi, hget, hx⟩ := ih (by omega)
    rw [layerMajor_succ]
    set s₁ := (layerMajor batch k start s ((List.range M).map fun i => x₀ (start + i))).1
    rw [hx]
    set xs := (List.range M).map fun i => S.hid (get s) start x₀ k (start + i) with hxs
    have hlen : xs.length = M := by simp [hxs]
    have hval : ∀ j < xs.length, valid k (start + j) :=
      fun j hj => hv k (start + j) (by omega) (by omega)
    have hat (i : ℕ) (hi : i < M) : xs[i]? = some (S.hid (get s) start x₀ k (start + i)) := by
      rw [hxs, List.getElem?_map, List.getElem?_range hi]
      rfl
    have hnew (p : ℕ) (h1 : start ≤ p) (h2 : p < start + M) :
        get (batch k start s₁ xs).1 k p = S.rows (get s) start x₀ k p := by
      obtain ⟨i, rfl⟩ := Nat.exists_eq_add_of_le h1
      rw [hbatch.written _ _ hi (hat i (by omega)) hval, hget _ _ (hv k _ (by omega) h2), filled,
        if_neg (by omega), Stack.rows_from h1]
    have hrest (l p : ℕ) (hlp : valid l p) (hne : ¬ (l = k ∧ start ≤ p ∧ p < start + M)) :
        get (batch k start s₁ xs).1 l p = get s₁ l p :=
      hbatch.frame _ _ hi hval hlp (by rwa [hlen])
    refine ⟨hbatch.keeps _ _ hi hval, ?_, ?_⟩
    · intro l p hlp
      by_cases hc : l = k ∧ start ≤ p ∧ p < start + M
      · obtain ⟨rfl, h1, h2⟩ := hc
        rw [hnew p h1 h2, filled, if_pos ⟨Nat.lt_succ_self l, h1, h2⟩]
      · rw [hrest l p hlp hc, hget l p hlp, filled, filled]
        have hiff : (l < k ∧ start ≤ p ∧ p < start + M) ↔
            (l < k + 1 ∧ start ≤ p ∧ p < start + M) := by omega
        simp only [hiff]
    · rw [hbatch.value _ _ hi hval]
      apply List.ext_getElem?
      intro i
      rw [List.getElem?_mapIdx]
      by_cases hi : i < M
      · rw [hat i hi, List.getElem?_map, List.getElem?_range hi]
        simp only [Option.map_some, Option.some.injEq]
        rw [Stack.hid_succ]
        apply S.causal
        intro j hj
        by_cases hjs : start ≤ j
        · exact hnew j hjs (by omega)
        · rw [hrest k j (hv k j (by omega) (by omega)) (by omega),
            hget k j (hv k j (by omega) (by omega)), filled, if_neg (by omega),
            Stack.rows_before (by omega)]
      · rw [List.getElem?_eq_none (by omega), List.getElem?_eq_none (by simp; omega)]
        rfl

/-- The two orders leave the same entries and return the same hidden states. -/
theorem layerMajor_eq_tokenMajor (hstep : Realizes S inv get valid step)
    (hbatch : RealizesBatch S inv get valid batch) (start : ℕ) {L : ℕ} (dflt : X) (xs : List X)
    {s : σ}
    (hinv : inv s) (hv : ∀ l p, l < L → p < start + xs.length → valid l p) :
    (∀ l p, valid l p → get (layerMajor batch L start s xs).1 l p =
      get (tokenMajor step L start s xs).1 l p) ∧
    (layerMajor batch L start s xs).2 = (tokenMajor step L start s xs).2 := by
  set x₀ := inputs dflt start xs with hx₀
  have hstart : ∀ l p, valid l p → get s l p = filled S (get s) start x₀ L start l p := by
    intro l p _
    rw [filled, if_neg (by omega)]
  obtain ⟨-, hb, hxb⟩ := layerMajor_spec hbatch x₀ hinv hv L le_rfl
  obtain ⟨-, ht, hxt⟩ :=
    tokenMajor_spec hstep x₀ xs.length start s le_rfl hinv hv hstart
  rw [hx₀, map_inputs, ← hx₀] at hb hxb ht hxt
  exact ⟨fun l p hlp => (hb l p hlp).trans (ht l p hlp).symm, hxb.trans hxt.symm⟩

/-! ### Resuming over a store that holds a prefix -/

/-- The first `n` positions of the store hold the reference entries. -/
def Holds (S : Stack X E) (prior : ℕ → ℕ → E) (get : σ → ℕ → ℕ → E) (x₀ : ℕ → X) (L n : ℕ) (s : σ) :
    Prop :=
  ∀ l p, l < L → p < n → get s l p = S.rows prior 0 x₀ l p

theorem Holds.congr {prior : ℕ → ℕ → E} {x₀ x₀' : ℕ → X} {L n : ℕ} {s : σ}
    (h : Holds S prior get x₀ L n s) (hx : ∀ j, j < n → x₀ j = x₀' j) :
    Holds S prior get x₀' L n s := fun l p hl hp =>
  (h l p hl hp).trans (Stack.rows_congr (fun j hj => hx j (by omega)) l le_rfl)

/-- What continues a held prefix extends it to the reference of all positions. -/
theorem holds_of_filled (hS : S.Overwrites) {prior : ℕ → ℕ → E} {x₀ : ℕ → X} {L m n : ℕ} {s s' : σ}
    (hprior : Holds S prior get x₀ L m s) (hv : ∀ l p, l < L → p < n → valid l p)
    (h : ∀ l p, valid l p → get s' l p = filled S (get s) m x₀ L n l p) :
    Holds S prior get x₀ L n s' := by
  intro l p hl hp
  rw [h l p (hv l p hl hp), filled_eq_rows hl hp]
  exact (Stack.resume hS hprior l).2 hl p

/-- Position after position from a held prefix on. -/
theorem tokenMajor_holds (hS : S.Overwrites) (hstep : Realizes S inv get valid step)
    {prior : ℕ → ℕ → E} {x₀ : ℕ → X} {L m M : ℕ} {s : σ} (hinv : inv s)
    (hv : ∀ l p, l < L → p < m + M → valid l p) (hprior : Holds S prior get x₀ L m s) :
    inv (tokenMajor step L m s ((List.range M).map fun i => x₀ (m + i))).1 ∧
    Holds S prior get x₀ L (m + M)
      (tokenMajor step L m s ((List.range M).map fun i => x₀ (m + i))).1 ∧
    (tokenMajor step L m s ((List.range M).map fun i => x₀ (m + i))).2 =
      (List.range M).map fun i => S.hid prior 0 x₀ L (m + i) := by
  obtain ⟨hi, hget, hx⟩ := tokenMajor_spec hstep x₀ M m s le_rfl hinv hv
    fun l p _ => by rw [filled, if_neg (by omega)]
  refine ⟨hi, holds_of_filled hS hprior hv hget, hx.trans (List.map_congr_left fun i _ => ?_)⟩
  exact (Stack.resume hS hprior L).1 le_rfl (m + i) (Nat.le_add_right m i)

/-- Layer after layer from a held prefix on. -/
theorem layerMajor_holds (hS : S.Overwrites) (hbatch : RealizesBatch S inv get valid batch)
    {prior : ℕ → ℕ → E} {x₀ : ℕ → X} {L m M : ℕ} {s : σ} (hinv : inv s)
    (hv : ∀ l p, l < L → p < m + M → valid l p) (hprior : Holds S prior get x₀ L m s) :
    inv (layerMajor batch L m s ((List.range M).map fun i => x₀ (m + i))).1 ∧
    Holds S prior get x₀ L (m + M)
      (layerMajor batch L m s ((List.range M).map fun i => x₀ (m + i))).1 ∧
    (layerMajor batch L m s ((List.range M).map fun i => x₀ (m + i))).2 =
      (List.range M).map fun i => S.hid prior 0 x₀ L (m + i) := by
  obtain ⟨hi, hget, hx⟩ := layerMajor_spec hbatch x₀ hinv hv L le_rfl
  refine ⟨hi, holds_of_filled hS hprior hv hget, hx.trans (List.map_congr_left fun i _ => ?_)⟩
  exact (Stack.resume hS hprior L).1 le_rfl (m + i) (Nat.le_add_right m i)

/-- One position after a held prefix. -/
theorem throughLayers_holds (hS : S.Overwrites) (hstep : Realizes S inv get valid step)
    {prior : ℕ → ℕ → E} {x₀ : ℕ → X} {L m : ℕ} {s : σ} (hinv : inv s)
    (hv : ∀ l p, l < L → p ≤ m → valid l p) (hprior : Holds S prior get x₀ L m s) :
    inv (throughLayers step L m s (x₀ m)).1 ∧
    Holds S prior get x₀ L (m + 1) (throughLayers step L m s (x₀ m)).1 ∧
    (throughLayers step L m s (x₀ m)).2 = S.hid prior 0 x₀ L m := by
  obtain ⟨hi, hget, hx⟩ := tokenMajor_holds hS hstep (M := 1) hinv
    (fun l p hl hp => hv l p hl (by omega)) hprior
  exact ⟨hi, hget, (List.cons.inj hx).1⟩

end

end Causal
