import Mathlib.Data.List.Basic
import Mathlib.Tactic.SplitIfs

/-! Reading a text piece by piece into a buffer of limited size. Lines that fit come out whole. -/

namespace Lines

variable {α : Type _} [DecidableEq α]

/-- At most so many items, none behind the first separator, and what is left. -/
def piece (sep : α) : ℕ → List α → List α × List α
  | 0, s => ([], s)
  | _ + 1, [] => ([], [])
  | n + 1, a :: s => if a = sep then ([a], s) else ((a :: (piece sep n s).1), (piece sep n s).2)

theorem piece_rest_le (sep : α) (n : ℕ) (s : List α) : (piece sep n s).2.length ≤ s.length := by
  induction n generalizing s with
  | zero => exact Nat.le_refl _
  | succ n ih =>
    cases s with
    | nil => exact Nat.le_refl _
    | cons a s =>
      rw [piece]
      split_ifs
      · exact Nat.le_succ _
      · exact Nat.le_succ_of_le (ih s)

/-- All pieces of at most `n + 1` items. -/
def pieces (sep : α) (n : ℕ) : List α → List (List α)
  | [] => []
  | a :: s =>
      if a = sep then [a] :: pieces sep n s
      else (a :: (piece sep n s).1) :: pieces sep n (piece sep n s).2
termination_by s => s.length
decreasing_by
  · exact Nat.lt_succ_self _
  · exact Nat.lt_succ_of_le (piece_rest_le sep n s)

theorem piece_line {sep : α} {line : List α} (hsep : sep ∉ line) {n : ℕ} (hlen : line.length < n)
    (rest : List α) : piece sep n (line ++ sep :: rest) = (line ++ [sep], rest) := by
  induction line generalizing n with
  | nil =>
    obtain ⟨n, rfl⟩ := Nat.exists_eq_succ_of_ne_zero (Nat.ne_of_gt hlen)
    rw [List.nil_append, piece, if_pos rfl, List.nil_append]
  | cons a line ih =>
    obtain ⟨n, rfl⟩ := Nat.exists_eq_succ_of_ne_zero (Nat.ne_of_gt (Nat.zero_lt_of_lt hlen))
    have ha : a ≠ sep := fun h => hsep (h ▸ List.mem_cons_self)
    have hrest := ih (fun h => hsep (List.mem_cons_of_mem a h)) (Nat.lt_of_succ_lt_succ hlen)
    rw [List.cons_append, piece, if_neg ha, hrest, List.cons_append]

/-- Lines that fit into the buffer are the pieces of their text. -/
theorem pieces_lines {sep : α} {n : ℕ} {lines : List (List α)}
    (h : ∀ line ∈ lines, sep ∉ line ∧ line.length ≤ n) :
    pieces sep n (lines.flatMap (· ++ [sep])) = lines.map (· ++ [sep]) := by
  induction lines with
  | nil => exact pieces.eq_1 sep n
  | cons line lines ih =>
    obtain ⟨hsep, hlen⟩ := h line List.mem_cons_self
    have hrest := ih fun line hline => h line (List.mem_cons_of_mem _ hline)
    rw [List.flatMap_cons, List.map_cons, ← hrest, List.append_assoc, List.singleton_append]
    cases line with
    | nil => rw [List.nil_append, pieces, if_pos rfl, List.nil_append]
    | cons a line =>
      have ha : a ≠ sep := fun h => hsep (h ▸ List.mem_cons_self)
      rw [List.cons_append, pieces, if_neg ha,
        piece_line (fun h => hsep (List.mem_cons_of_mem a h)) (Nat.lt_of_succ_le hlen),
        List.cons_append]

end Lines
