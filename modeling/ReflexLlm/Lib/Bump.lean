import Mathlib.Algebra.BigOperators.Group.List.Basic
import Mathlib.Algebra.Order.Ring.Nat
import Mathlib.Tactic.Ring

/-! A bump allocator: a region with a cursor that is moved up by the aligned size of each
block, and fails without moving when the block does not fit. -/

namespace Bump

/-- The next multiple of `align`. -/
def roundUp (align n : ℕ) : ℕ := (n + (align - 1)) / align * align

variable {align : ℕ}

theorem le_roundUp (h : 0 < align) (n : ℕ) : n ≤ roundUp align n := by
  have hdiv := Nat.div_add_mod (n + (align - 1)) align
  have hmod := Nat.mod_lt (n + (align - 1)) h
  rw [roundUp, Nat.mul_comm]
  omega

theorem roundUp_le (n : ℕ) : roundUp align n ≤ n + (align - 1) := Nat.div_mul_le_self _ _

structure Arena where
  capacity : ℕ
  offset : ℕ
  offset_le : offset ≤ capacity

namespace Arena

/-- The place of the next block. -/
def alloc (align : ℕ) (s : Arena) (size : ℕ) : Option ℕ × Arena :=
  let size := roundUp align size
  if h : s.offset + size ≤ s.capacity then
    (some s.offset, { s with offset := s.offset + size, offset_le := h })
  else (none, s)

/-- One block after the other. -/
def allocAll (align : ℕ) (s : Arena) : List ℕ → List (Option ℕ) × Arena
  | [] => ([], s)
  | size :: sizes =>
      let block := s.alloc align size
      let rest := block.2.allocAll align sizes
      (block.1 :: rest.1, rest.2)

end Arena

/-- What blocks of these sizes take. -/
def total (align : ℕ) (sizes : List ℕ) : ℕ := (sizes.map (roundUp align)).sum

/-- Where blocks of these sizes are when the first one is at `start`. -/
def places (align : ℕ) : ℕ → List ℕ → List ℕ
  | _, [] => []
  | start, size :: sizes => start :: places align (start + roundUp align size) sizes

@[simp] theorem total_nil : total align [] = 0 := rfl

@[simp] theorem total_cons (size : ℕ) (sizes : List ℕ) :
    total align (size :: sizes) = roundUp align size + total align sizes := by
  simp [total]

@[simp] theorem total_append (xs ys : List ℕ) :
    total align (xs ++ ys) = total align xs + total align ys := by
  simp [total]

theorem total_replicate_flatten (n : ℕ) (sizes : List ℕ) :
    total align (List.replicate n sizes).flatten = n * total align sizes := by
  induction n with
  | zero => simp
  | succ n ih =>
    rw [List.replicate_succ, List.flatten_cons, total_append, ih]
    ring

/-- Rounding adds less than `align` for each block. -/
theorem total_le (sizes : List ℕ) : total align sizes ≤ sizes.sum + sizes.length * (align - 1) := by
  induction sizes with
  | nil => simp
  | cons size sizes ih =>
    have hround : roundUp align size ≤ size + (align - 1) := roundUp_le size
    rw [total_cons, List.sum_cons, List.length_cons, Nat.add_mul, Nat.one_mul]
    omega

@[simp] theorem length_places (start : ℕ) (sizes : List ℕ) :
    (places align start sizes).length = sizes.length := by
  induction sizes generalizing start with
  | nil => rfl
  | cons size sizes ih => rw [places, List.length_cons, ih, List.length_cons]

theorem dvd_roundUp (n : ℕ) : align ∣ roundUp align n := Nat.dvd_mul_left _ _

theorem places_dvd {start : ℕ} (hstart : align ∣ start) {sizes : List ℕ} :
    ∀ place ∈ places align start sizes, align ∣ place := by
  induction sizes generalizing start with
  | nil => simp [places]
  | cons size sizes ih =>
    rw [places, List.forall_mem_cons]
    exact ⟨hstart, ih (Nat.dvd_add hstart (dvd_roundUp size))⟩

/-- The blocks lie between the first place and the end. -/
theorem places_bound (halign : 0 < align) {start : ℕ} {sizes : List ℕ} :
    ∀ block ∈ (places align start sizes).zip sizes,
      start ≤ block.1 ∧ block.1 + block.2 ≤ start + total align sizes := by
  induction sizes generalizing start with
  | nil => simp [places]
  | cons size sizes ih =>
    have hround := le_roundUp halign size
    rw [places, List.zip_cons_cons, List.forall_mem_cons, total_cons]
    refine ⟨⟨le_rfl, by simp only; omega⟩, fun block hblock => ?_⟩
    have hrest := ih block hblock
    omega

/-- A block ends before the next one starts. -/
theorem places_pairwise (halign : 0 < align) (start : ℕ) (sizes : List ℕ) :
    ((places align start sizes).zip sizes).Pairwise fun a b => a.1 + a.2 ≤ b.1 := by
  induction sizes generalizing start with
  | nil => exact List.Pairwise.nil
  | cons size sizes ih =>
    rw [places, List.zip_cons_cons, List.pairwise_cons]
    refine ⟨fun block hblock => ?_, ih _⟩
    have hlater := (places_bound halign block hblock).1
    have hround := le_roundUp halign size
    simp only
    omega

namespace Arena

/-- When there is room for all, each block is at its place. -/
theorem allocAll_of_fits {s : Arena} {sizes : List ℕ}
    (h : s.offset + total align sizes ≤ s.capacity) :
    s.allocAll align sizes =
      ((places align s.offset sizes).map some,
        { s with offset := s.offset + total align sizes, offset_le := h }) := by
  induction sizes generalizing s with
  | nil => rfl
  | cons size sizes ih =>
    rw [total_cons] at h
    have hfirst : s.alloc align size = (some s.offset,
        { s with offset := s.offset + roundUp align size, offset_le := by omega }) :=
      dif_pos (by omega)
    rw [allocAll, hfirst]
    simp only
    rw [ih (by simp only; omega)]
    simp only [places, List.map_cons, total_cons, Nat.add_assoc]

/-- No block fails exactly when there is room for all. -/
theorem allocAll_isSome_iff (s : Arena) (sizes : List ℕ) :
    (∀ block ∈ (s.allocAll align sizes).1, block.isSome = true) ↔
      s.offset + total align sizes ≤ s.capacity := by
  constructor
  · intro h
    induction sizes generalizing s with
    | nil => simpa using s.offset_le
    | cons size sizes ih =>
      rw [allocAll, List.forall_mem_cons] at h
      obtain ⟨hfirst, hrest⟩ := h
      by_cases hfits : s.offset + roundUp align size ≤ s.capacity
      · have halloc : s.alloc align size = (some s.offset,
            { s with offset := s.offset + roundUp align size, offset_le := hfits }) := dif_pos hfits
        rw [halloc] at hrest
        have hroom := ih _ hrest
        rw [total_cons]
        simp only at hroom
        omega
      · have halloc : s.alloc align size = (none, s) := dif_neg hfits
        rw [halloc] at hfirst
        cases hfirst
  · intro h block hblock
    rw [allocAll_of_fits h] at hblock
    obtain ⟨place, -, rfl⟩ := List.mem_map.mp hblock
    rfl

end Arena

end Bump
