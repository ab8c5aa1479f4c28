import Mathlib.Data.List.Perm.Subperm
import Mathlib.Data.List.Nodup

/-! Loops that write, as logs of what they write in their order; `none` is a read that is
not allowed. A loop is known by how often it writes and by writes that it makes for sure:
as many as there are indices, one to each, leave no room for others. -/

namespace WriteLog

variable {α β : Type*}

/-- `for (int k = 0; k < n; k++)`. -/
def forRange (n : ℕ) (body : ℕ → Option (List α)) : Option (List α) :=
  ((List.range n).mapM body).map List.flatten

/-- A log of `count` entries, with those of `M` among them. -/
def Writes (log : Option (List α)) (count : ℕ) (M : α → Prop) : Prop :=
  ∃ l, log = some l ∧ l.length = count ∧ ∀ x, M x → x ∈ l

theorem Writes.mono {log : Option (List α)} {count : ℕ} {M M' : α → Prop} (h : Writes log count M)
    (hM : ∀ x, M' x → M x) : Writes log count M' := by
  obtain ⟨l, hlog, hlen, hmem⟩ := h
  exact ⟨l, hlog, hlen, fun x hx => hmem x (hM x hx)⟩

theorem Writes.append {log log' : Option (List α)} {c c' : ℕ} {M M' : α → Prop}
    (h : Writes log c M) (h' : Writes log' c' M') :
    Writes (do let l ← log; let l' ← log'; return l ++ l') (c + c') fun x => M x ∨ M' x := by
  obtain ⟨l, rfl, rfl, hmem⟩ := h
  obtain ⟨l', rfl, rfl, hmem'⟩ := h'
  refine ⟨l ++ l', rfl, List.length_append, fun x hx => ?_⟩
  rcases hx with hx | hx
  · exact List.mem_append_left _ (hmem x hx)
  · exact List.mem_append_right _ (hmem' x hx)

/-- Every round writes as often. -/
theorem writes_forRange {n c : ℕ} {body : ℕ → Option (List α)} {M : ℕ → α → Prop}
    (h : ∀ k < n, Writes (body k) c (M k)) :
    Writes (forRange n body) (n * c) fun x => ∃ k < n, M k x := by
  induction n with
  | zero => exact ⟨[], rfl, (Nat.zero_mul c).symm, fun x ⟨k, hk, _⟩ => absurd hk (Nat.not_lt_zero k)⟩
  | succ n ih =>
    obtain ⟨front, hfront, hlen, hmem⟩ := ih fun k hk => h k (by omega)
    obtain ⟨last, hlast, hlen', hmem'⟩ := h n (by omega)
    obtain ⟨parts, hparts, rfl⟩ := Option.map_eq_some_iff.mp hfront
    refine ⟨parts.flatten ++ last, ?_, ?_, fun x ⟨k, hk, hx⟩ => ?_⟩
    · rw [forRange, List.range_succ, List.mapM_append, hparts]
      simp [hlast]
    · rw [List.length_append, hlen, hlen', Nat.succ_mul]
    · rcases Nat.lt_succ_iff_lt_or_eq.mp hk with hk | rfl
      · exact List.mem_append_left _ (hmem x ⟨k, hk, hx⟩)
      · exact List.mem_append_right _ (hmem' x hx)

/-- Blocks of `c` elements, one after the other. -/
theorem writes_blocks {m c : ℕ} {block : ℕ → Option (List (ℕ × β))} {output : ℕ → ℕ → β}
    (h : ∀ b < m, Writes (block b) c fun x => ∃ i < c, x = (b * c + i, output b i)) :
    Writes (forRange m block) (m * c)
      fun x => x.1 < m * c ∧ x.2 = output (x.1 / c) (x.1 % c) := by
  refine (writes_forRange h).mono ?_
  rintro x ⟨hi, hx⟩
  have hpos : 0 < c := Nat.pos_of_mul_pos_left (Nat.zero_lt_of_lt hi)
  have hblock : x.1 / c < m := Nat.div_lt_of_lt_mul (Nat.mul_comm m c ▸ hi)
  have hindex : x.1 = x.1 / c * c + x.1 % c := (Nat.div_add_mod' x.1 c).symm
  exact ⟨x.1 / c, hblock, x.1 % c, Nat.mod_lt _ hpos, Prod.ext hindex hx⟩

/-- A log with one write for each of `n` indices writes each index once. -/
theorem Writes.indices {n : ℕ} {log : Option (List (ℕ × β))} {value : ℕ → β}
    (h : Writes log n fun x => x.1 < n ∧ x.2 = value x.1) :
    ∃ l, log = some l ∧ (l.map Prod.fst).Perm (List.range n) ∧ ∀ i < n, (i, value i) ∈ l := by
  obtain ⟨l, hlog, hlen, hmem⟩ := h
  refine ⟨l, hlog, ?_, fun i hi => hmem (i, value i) ⟨hi, rfl⟩⟩
  have hsub : List.range n ⊆ l.map Prod.fst := fun i hi =>
    List.mem_map.mpr ⟨(i, value i), hmem _ ⟨List.mem_range.mp hi, rfl⟩, rfl⟩
  have hsubperm := List.nodup_range.subperm hsub
  exact (hsubperm.perm_of_length_le (by simp [hlen])).symm

end WriteLog
