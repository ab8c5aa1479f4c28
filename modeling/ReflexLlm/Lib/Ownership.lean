import Mathlib.Data.List.Perm.Lattice
import Mathlib.Data.Set.Insert
import ReflexLlm.Lib.ByteMem

/-! Who owns what is allocated: the resources that are live are those of the environment and
those that the program holds, each once. And the memory of blocks, with the frame rules of
allocating, writing and freeing: what another block holds stays. -/

namespace Ownership

section

variable {α : Type*} {base live : Set α} {held held' : List α} {x : α}

/-- What is live is what was live before the program and what the program holds. -/
structure Owns (base live : Set α) (held : List α) : Prop where
  nodup : held.Nodup
  apart : ∀ x ∈ held, x ∉ base
  live_eq : live = base ∪ {x | x ∈ held}

theorem Owns.start (base : Set α) : Owns base base [] where
  nodup := List.nodup_nil
  apart := by simp
  live_eq := by simp

theorem Owns.perm (h : Owns base live held) (hperm : held.Perm held') : Owns base live held' where
  nodup := hperm.nodup_iff.mp h.nodup
  apart x hx := h.apart x (hperm.mem_iff.mpr hx)
  live_eq := by
    rw [h.live_eq]
    ext y
    simp only [Set.mem_union, Set.mem_ofPred_eq, hperm.mem_iff]

/-- Something new is got. -/
theorem Owns.acquire (h : Owns base live held) (hx : x ∉ live) :
    Owns base (insert x live) (x :: held) := by
  rw [h.live_eq, Set.mem_union, not_or] at hx
  refine ⟨List.nodup_cons.mpr ⟨hx.2, h.nodup⟩, List.forall_mem_cons.mpr ⟨hx.1, h.apart⟩, ?_⟩
  ext y
  simp only [h.live_eq, Set.mem_insert_iff, Set.mem_union, Set.mem_ofPred_eq, List.mem_cons]
  tauto

/-- Something that is held is given back. -/
theorem Owns.release (h : Owns base live (x :: held)) : Owns base (live \ {x}) held := by
  obtain ⟨hfresh, hnodup⟩ := List.nodup_cons.mp h.nodup
  obtain ⟨hx, hapart⟩ := List.forall_mem_cons.mp h.apart
  refine ⟨hnodup, hapart, ?_⟩
  ext y
  simp only [h.live_eq, Set.mem_sdiff, Set.mem_union, Set.mem_ofPred_eq, List.mem_cons,
    Set.mem_singleton_iff]
  constructor
  · rintro ⟨hbase | rfl | hheld, hne⟩
    · exact Or.inl hbase
    · exact absurd rfl hne
    · exact Or.inr hheld
  · rintro (hbase | hheld)
    · exact ⟨Or.inl hbase, fun hyx => hx (hyx ▸ hbase)⟩
    · exact ⟨Or.inr (Or.inr hheld), fun hyx => hfresh (hyx ▸ hheld)⟩

/-- Everything that is new is held afterwards. -/
theorem Owns.acquireAll {new : List α} (h : Owns base live held) (hnodup : new.Nodup)
    (hnew : ∀ x ∈ new, x ∉ live) : Owns base (live ∪ {x | x ∈ new}) (new ++ held) := by
  induction new with
  | nil => simpa using h
  | cons x new ih =>
    obtain ⟨hx, hnodup⟩ := List.nodup_cons.mp hnodup
    obtain ⟨hlive, hnew⟩ := List.forall_mem_cons.mp hnew
    have hstep : x ∉ live ∪ {x | x ∈ new} := by
      rintro (h | h)
      · exact hlive h
      · exact hx h
    have h := (ih hnodup hnew).acquire hstep
    have hset : insert x (live ∪ {x | x ∈ new}) = live ∪ {y | y ∈ x :: new} := by
      ext y
      simp only [Set.mem_insert_iff, Set.mem_union, Set.mem_ofPred_eq, List.mem_cons]
      tauto
    rwa [hset] at h

/-- What is held on top of what was held. -/
theorem Owns.trans {live' : Set α} (h : Owns base live held) (h' : Owns live live' held') :
    Owns base live' (held ++ held') where
  nodup := by
    rw [List.nodup_append]
    refine ⟨h.nodup, h'.nodup, fun x hx y hy hxy => h'.apart y hy ?_⟩
    rw [h.live_eq]
    exact Or.inr (hxy ▸ hx)
  apart x hx := by
    rcases List.mem_append.mp hx with hx | hx
    · exact h.apart x hx
    · intro hbase
      apply h'.apart x hx
      rw [h.live_eq]
      exact Or.inl hbase
  live_eq := by
    rw [h'.live_eq, h.live_eq, Set.union_assoc]
    congr 1
    ext x
    simp only [Set.mem_union, Set.mem_ofPred_eq, List.mem_append]

/-- When nothing is held, nothing has been kept. -/
theorem Owns.eq_base (h : Owns base live []) : live = base := by
  rw [h.live_eq]
  simp

end

open ByteMem

/-- Allocated blocks: where they start, how long they are, and the memory. -/
structure Blocks where
  live : Set ℕ
  size : ℕ → ℕ
  mem : Mem

namespace Blocks

variable {b b' b'' : Blocks} {p ptr n : ℕ}

/-- The range lies in the block at `p`. -/
structure Inside (b : Blocks) (p ptr n : ℕ) : Prop where
  live : p ∈ b.live
  start : p ≤ ptr
  stop : ptr + n ≤ p + b.size p

/-- The blocks are still there, with what they held. -/
structure Keeps (b b' : Blocks) : Prop where
  live : b.live ⊆ b'.live
  size : ∀ q ∈ b.live, b'.size q = b.size q
  mem : ∀ q ∈ b.live, ∀ a, q ≤ a → a < q + b.size q → b'.mem a = b.mem a

/-- The block at `p` was written to, no other was. -/
structure Writes (p : ℕ) (b b' : Blocks) : Prop where
  live : b'.live = b.live
  size : ∀ q ∈ b.live, b'.size q = b.size q
  mem : ∀ q ∈ b.live, q ≠ p → ∀ a, q ≤ a → a < q + b.size q → b'.mem a = b.mem a

/-- The block at `p` was allocated. -/
structure Allocates (p n : ℕ) (b b' : Blocks) : Prop where
  fresh : p ∉ b.live
  keeps : Keeps b b'
  live : b'.live = insert p b.live
  size : b'.size p = n

/-- The block at `p` was freed. -/
structure Frees (p : ℕ) (b b' : Blocks) : Prop where
  live : b'.live = b.live \ {p}
  size : ∀ q ∈ b'.live, b'.size q = b.size q
  mem : ∀ q ∈ b'.live, ∀ a, q ≤ a → a < q + b.size q → b'.mem a = b.mem a

theorem Keeps.refl (b : Blocks) : Keeps b b := ⟨subset_rfl, fun _ _ => rfl, fun _ _ _ _ _ => rfl⟩

theorem Keeps.trans (h : Keeps b b') (h' : Keeps b' b'') : Keeps b b'' where
  live := h.live.trans h'.live
  size q hq := (h'.size q (h.live hq)).trans (h.size q hq)
  mem q hq a ha hlt :=
    (h'.mem q (h.live hq) a ha (by rwa [h.size q hq])).trans (h.mem q hq a ha hlt)

theorem Writes.refl (p : ℕ) (b : Blocks) : Writes p b b :=
  ⟨rfl, fun _ _ => rfl, fun _ _ _ _ _ _ => rfl⟩

theorem Writes.trans (h : Writes p b b') (h' : Writes p b' b'') : Writes p b b'' where
  live := h'.live.trans h.live
  size q hq := (h'.size q (by rwa [h.live])).trans (h.size q hq)
  mem q hq hne a ha hlt :=
    (h'.mem q (by rwa [h.live]) hne a ha (by rwa [h.size q hq])).trans (h.mem q hq hne a ha hlt)

/-- A write to a block that was not there keeps those that were. -/
theorem Keeps.writes (h : Keeps b b') (hp : p ∉ b.live) (h' : Writes p b' b'') : Keeps b b'' where
  live := by
    rw [h'.live]
    exact h.live
  size q hq := (h'.size q (h.live hq)).trans (h.size q hq)
  mem q hq a ha hlt := by
    have hne : q ≠ p := fun hqp => hp (hqp ▸ hq)
    rw [h'.mem q (h.live hq) hne a ha (by rwa [h.size q hq]), h.mem q hq a ha hlt]

/-- Freeing one keeps them too. -/
theorem Keeps.frees (h : Keeps b b') (hp : p ∉ b.live) (h' : Frees p b' b'') : Keeps b b'' := by
  have hlive : ∀ q ∈ b.live, q ∈ b''.live := by
    intro q hq
    rw [h'.live]
    exact ⟨h.live hq, fun hqp => hp (hqp ▸ hq)⟩
  refine ⟨hlive, fun q hq => ?_, fun q hq a ha hlt => ?_⟩
  · rw [h'.size q (hlive q hq), h.size q hq]
  · rw [h'.mem q (hlive q hq) a ha (by rwa [h.size q hq]), h.mem q hq a ha hlt]

/-- Writing to a block that is new keeps the others. -/
theorem Allocates.keeps_of_writes (h : Allocates p n b b') (h' : Writes p b' b'') : Keeps b b'' :=
  h.keeps.writes h.fresh h'

/-- A block that was new and is freed again leaves the others as they were. -/
theorem Frees.keeps {c : Blocks} (h : Frees p b' c) (hfresh : p ∉ b.live) (hkeeps : Keeps b b')
    (hlive : b'.live = insert p b.live) : Keeps b c ∧ c.live = b.live :=
  ⟨hkeeps.frees hfresh h, by rw [h.live, hlive, Set.insert_sdiff_self_of_notMem hfresh]⟩

theorem Allocates.inside (h : Allocates p n b b') : Inside b' p p n where
  live := by
    rw [h.live]
    exact Set.mem_insert p b.live
  start := le_rfl
  stop := by rw [h.size]

theorem Inside.writes {q : ℕ} (h : Inside b p ptr n) (hwrite : Writes q b b') :
    Inside b' p ptr n where
  live := by
    rw [hwrite.live]
    exact h.live
  start := h.start
  stop := by
    rw [hwrite.size p h.live]
    exact h.stop

theorem Inside.keeps (h : Inside b p ptr n) (hkeeps : Keeps b b') : Inside b' p ptr n where
  live := hkeeps.live h.live
  start := h.start
  stop := by
    rw [hkeeps.size p h.live]
    exact h.stop

/-- A range of a block that is kept reads the same. -/
theorem Inside.read_eq (h : Inside b p ptr n) (hkeeps : Keeps b b') :
    b'.mem.read ptr n = b.mem.read ptr n := by
  apply read_congr
  intro i hi
  have hstart := h.start
  have hstop := h.stop
  exact hkeeps.mem p h.live (ptr + i) (by omega) (by omega)

end Blocks

end Ownership
