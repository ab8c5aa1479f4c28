import ReflexLlm.Lib.Runs
import ReflexLlm.Spec.ScratchPool
import ReflexLlm.Spec.ScratchRun

/-! The blocks in use never overlap, in every sequence of calls whose sums do not overflow. -/

namespace JLLM

open Bump (roundUp)
open Runs (exec)

/-! ### Rounding a machine integer -/

/-- Masking off the low bits rounds down. -/
theorem and_not_255 (n : ℕ) (h : n < 2 ^ 64) : n &&& (2 ^ 64 - 256) = n / 256 * 256 := by
  have hmask : 2 ^ 64 - 256 = (2 ^ 56 - 1) * 2 ^ 8 := by norm_num
  have hdown : n / 256 * 256 = (n >>> 8) <<< 8 := by
    rw [Nat.shiftLeft_eq, Nat.shiftRight_eq_div_pow]
  rw [hmask, hdown, ← Nat.shiftLeft_eq]
  refine Nat.eq_of_testBit_eq fun i => ?_
  rw [Nat.testBit_and, Nat.testBit_shiftLeft, Nat.testBit_shiftLeft, Nat.testBit_shiftRight,
    Nat.testBit_two_pow_sub_one]
  by_cases hi : 8 ≤ i
  · have hback : 8 + (i - 8) = i := by omega
    rw [hback]
    by_cases hsmall : i - 8 < 56
    · simp [hi, hsmall]
    · have hhigh : n.testBit i = false :=
        Nat.testBit_lt_two_pow (h.trans_le (Nat.pow_le_pow_right (by norm_num) (by omega)))
      simp [hhigh]
  · simp [hi]

theorem toInt_and_not_255 (x : Int64) : (x &&& ~~~255).toInt = x.toInt / 256 * 256 := by
  have hand : (x &&& ~~~255).toBitVec.toNat = x.toBitVec.toNat / 256 * 256 := by
    rw [Int64.toBitVec_and, BitVec.toNat_and, ← and_not_255 _ x.toBitVec.isLt]
    rfl
  have hlt := x.toBitVec.isLt
  rw [← Int64.toInt_toBitVec, ← Int64.toInt_toBitVec, BitVec.toInt_eq_toNat_cond,
    BitVec.toInt_eq_toNat_cond, hand]
  split_ifs <;> push_cast <;> omega

theorem toInt_add (x y : Int64) : (x + y).toInt =
    if x.toInt + y.toInt < -2 ^ 63 then x.toInt + y.toInt + 2 ^ 64
    else if x.toInt + y.toInt < 2 ^ 63 then x.toInt + y.toInt
    else x.toInt + y.toInt - 2 ^ 64 := by
  have hx := x.toInt_lt
  have hx' := x.le_toInt
  have hy := y.toInt_lt
  have hy' := y.le_toInt
  rw [Int64.toInt_add, Int.bmod_def]
  split_ifs <;> omega

/-- The size that `get` takes from the pool: rounded up, or the least machine integer. -/
theorem toInt_rounded {size : Int64} (h : 0 ≤ size.toInt) :
    ((size + 255) &&& ~~~255).toInt =
      if roundUp 256 size.toInt.toNat < 2 ^ 63 then (roundUp 256 size.toInt.toNat : ℤ)
      else -2 ^ 63 := by
  have hlt := size.toInt_lt
  have hconst : (255 : Int64).toInt = 255 := rfl
  rw [toInt_and_not_255, toInt_add, hconst, roundUp]
  split_ifs <;> push_cast <;> omega

/-- A call of `get` fails or takes the rounded size, unless the sum overflows: then the
cursor becomes negative. -/
theorem get_cases (s : ScratchPool64) {size : Int64} (hoff : 0 ≤ s.offset.toInt)
    (hcap : s.offset.toInt ≤ s.capacity.toInt) (hsize : 0 ≤ size.toInt) :
    (s.get size = (none, s) ∧
      s.capacity.toInt < s.offset.toInt + roundUp 256 size.toInt.toNat ∧
      s.offset.toInt + roundUp 256 size.toInt.toNat < 2 ^ 63) ∨
    ∃ offset, s.get size = (some s.offset, ⟨s.capacity, offset⟩) ∧
      ((s.offset.toInt + roundUp 256 size.toInt.toNat ≤ s.capacity.toInt ∧
          offset.toInt = s.offset.toInt + roundUp 256 size.toInt.toNat) ∨
        (2 ^ 63 ≤ s.offset.toInt + roundUp 256 size.toInt.toNat ∧ offset.toInt < 0)) := by
  have hlt := s.capacity.toInt_lt
  have hsum := toInt_add s.offset ((size + 255) &&& ~~~255)
  rw [toInt_rounded hsize] at hsum
  simp only [ScratchPool64.get]
  by_cases hfull : s.capacity < s.offset + ((size + 255) &&& ~~~255)
  · rw [if_pos hfull]
    rw [Int64.lt_iff_toInt_lt, hsum] at hfull
    refine Or.inl ⟨rfl, ?_⟩
    split_ifs at hfull <;> constructor <;> omega
  · rw [if_neg hfull]
    rw [Int64.lt_iff_toInt_lt, hsum] at hfull
    refine Or.inr ⟨_, rfl, ?_⟩
    rw [hsum]
    split_ifs at hfull ⊢ <;> omega

theorem get_none {s : ScratchPool64} {size : Int64} (h : (s.get size).1 = none) :
    (s.get size).2 = s := by
  simp only [ScratchPool64.get] at h ⊢
  split_ifs at h ⊢
  rfl

/-! ### The blocks in use -/

/-- A block is in the pool, aligned, and not smaller than what was asked for. -/
structure ScratchBlock.Inside (capacity : Int64) (b : ScratchBlock) : Prop where
  start : 0 ≤ b.place.toInt
  aligned : 256 ∣ b.place.toInt
  large : b.place.toInt + b.requested.toInt ≤ b.stop.toInt
  stop : b.stop.toInt ≤ capacity.toInt

/-- What a caller of the pool relies on. -/
structure ScratchRun.Sound (s : ScratchRun) : Prop where
  used : 0 ≤ s.pool.used.toInt ∧ s.pool.used.toInt ≤ s.pool.capacity.toInt
  inside : ∀ b ∈ s.live, b.Inside s.pool.capacity
  disjoint : s.live.Pairwise fun a b =>
    a.stop.toInt ≤ b.place.toInt ∨ b.stop.toInt ≤ a.place.toInt
  failed : ∀ size, (s.pool.get size).1 = none → (s.pool.get size).2 = s.pool
  ignored : ∀ saved, saved < 0 ∨ s.pool.capacity < saved → s.pool.rewindTo saved = s.pool

/-- Blocks one behind the other, up to a cursor. -/
structure Stacked (cursor : Int64) (blocks : List ScratchBlock) : Prop where
  inside : ∀ b ∈ blocks, b.Inside cursor
  ordered : blocks.Pairwise fun older newer => older.stop.toInt ≤ newer.place.toInt

/-- A cursor of the pool: where the next block can start. -/
structure ScratchPool64.Cursor (s : ScratchPool64) (cursor : Int64) : Prop where
  low : 0 ≤ cursor.toInt
  high : cursor.toInt ≤ s.capacity.toInt
  aligned : 256 ∣ cursor.toInt

/-- Each mark is a cursor above the blocks that were in use when it was set, and a newer
mark has at least the blocks of an older one. -/
structure ScratchRun.Inv (s : ScratchRun) : Prop where
  cursor : s.pool.Cursor s.pool.offset
  stacked : Stacked s.pool.offset s.live
  marks : ∀ m ∈ s.marks, s.pool.Cursor m.1 ∧ m.2 ≤ s.live.length ∧ Stacked m.1 (s.live.take m.2)
  nested : s.marks.Pairwise fun newer older => older.2 ≤ newer.2

theorem ScratchRun.Inv.sound {s : ScratchRun} (h : s.Inv) : s.Sound where
  used := ⟨h.cursor.low, h.cursor.high⟩
  inside b hb :=
    { h.stacked.inside b hb with stop := (h.stacked.inside b hb).stop.trans h.cursor.high }
  disjoint := h.stacked.ordered.imp Or.inl
  failed _ := get_none
  ignored _ hout := if_pos hout

theorem ScratchRun.inv_init {capacity : Int64} (hcap : 0 ≤ capacity.toInt) :
    (ScratchRun.init capacity).Inv where
  cursor := ⟨le_rfl, hcap, dvd_zero _⟩
  stacked := ⟨fun _ hb => absurd hb List.not_mem_nil, List.Pairwise.nil⟩
  marks _ hm := absurd hm List.not_mem_nil
  nested := List.Pairwise.nil

/-- The new block goes on top of the stack. -/
theorem Stacked.push {cursor next : Int64} {blocks : List ScratchBlock} (h : Stacked cursor blocks)
    {requested : Int64} (hlow : 0 ≤ cursor.toInt) (haligned : 256 ∣ cursor.toInt)
    (hnext : cursor.toInt + requested.toInt ≤ next.toInt) (hsize : 0 ≤ requested.toInt) :
    Stacked next (blocks ++ [⟨cursor, requested, next⟩]) where
  inside b hb := by
    rcases List.mem_append.mp hb with hb | hb
    · have hin := h.inside b hb
      exact { hin with stop := hin.stop.trans (by omega) }
    · rw [List.mem_singleton.mp hb]
      exact ⟨hlow, haligned, hnext, le_rfl⟩
  ordered := by
    refine List.pairwise_append.mpr ⟨h.ordered, List.pairwise_singleton _ _, fun a ha b hb => ?_⟩
    rw [List.mem_singleton.mp hb]
    exact (h.inside a ha).stop

/-- The sum that a call of `get` forms is a machine integer. -/
def ScratchPool64.NoOverflow (s : ScratchPool64) (size : Int64) : Prop :=
  s.used.toInt + roundUp 256 size.toInt.toNat < 2 ^ 63

/-- The pool as one over naturals. -/
def ScratchPool64.toPool (s : ScratchPool64) (hs : s.Cursor s.offset) : ScratchPool :=
  ⟨s.capacity.toInt.toNat, s.offset.toInt.toNat, Int.toNat_le_toNat hs.high⟩

/-- Without overflow a call is that of the pool over naturals. -/
theorem get_refines {s : ScratchPool64} (hs : s.Cursor s.offset) {size : Int64}
    (hsize : 0 ≤ size.toInt) (hfits : s.NoOverflow size) :
    ((s.toPool hs).get size.toInt.toNat).1 = (s.get size).1.map (fun place => place.toInt.toNat) ∧
      ((s.toPool hs).get size.toInt.toNat).2.offset = (s.get size).2.offset.toInt.toNat := by
  have hlow := hs.low
  have hhigh := hs.high
  rcases get_cases s hlow hhigh hsize with
    ⟨hget, hfull, -⟩ | ⟨offset, hget, ⟨hroom, hoffset⟩ | ⟨hover, -⟩⟩
  · have halloc : (s.toPool hs).get size.toInt.toNat = (none, s.toPool hs) :=
      dif_neg (by simp only [ScratchPool64.toPool]; omega)
    rw [halloc, hget]
    exact ⟨rfl, rfl⟩
  · have hfit : s.offset.toInt.toNat + roundUp 256 size.toInt.toNat ≤ s.capacity.toInt.toNat := by
      omega
    have halloc : (s.toPool hs).get size.toInt.toNat =
        (some s.offset.toInt.toNat, ⟨s.capacity.toInt.toNat, _, hfit⟩) := dif_pos hfit
    rw [halloc, hget]
    refine ⟨rfl, ?_⟩
    simp only
    omega
  · exact absurd hfits (not_lt.mpr hover)

theorem scratchStep_get {s s' : ScratchRun} {size : Int64}
    (hstep : scratchStep s (.get size) = some s') :
    0 ≤ size.toInt ∧ s'.pool = (s.pool.get size).2 := by
  rw [scratchStep] at hstep
  split_ifs at hstep with hneg
  rw [Int64.lt_iff_toInt_lt, Int64.toInt_zero, not_lt] at hneg
  refine ⟨hneg, ?_⟩
  simp only at hstep
  split at hstep <;> exact Option.some.inj hstep ▸ rfl

theorem ScratchRun.Inv.get {s s' : ScratchRun} (h : s.Inv) {size : Int64}
    (hstep : scratchStep s (.get size) = some s') (hfits : s.pool.NoOverflow size) : s'.Inv := by
  have hsize := (scratchStep_get hstep).1
  rw [scratchStep] at hstep
  split_ifs at hstep
  rcases get_cases s.pool h.cursor.low h.cursor.high hsize with
    ⟨hget, -⟩ | ⟨offset, hget, ⟨hroom, hoffset⟩ | ⟨hover, -⟩⟩
  · simp only [hget] at hstep
    exact Option.some.inj hstep ▸ h
  · simp only [hget] at hstep
    obtain rfl := Option.some.inj hstep
    have hround : size.toInt.toNat ≤ roundUp 256 size.toInt.toNat := Bump.le_roundUp (by norm_num) _
    have hblock : 256 ∣ roundUp 256 size.toInt.toNat := Bump.dvd_roundUp _
    have hdvd : (256 : ℤ) ∣ roundUp 256 size.toInt.toNat := by exact_mod_cast hblock
    have hlow := h.cursor.low
    refine ⟨⟨?_, ?_, ?_⟩, ?_, fun m hm => ?_, h.nested⟩
    · simp only
      omega
    · simp only
      omega
    · simp only [hoffset]
      exact Int.dvd_add h.cursor.aligned hdvd
    · exact h.stacked.push hlow h.cursor.aligned
        (by simp only; omega) hsize
    · obtain ⟨hcursor, hle, hstacked⟩ := h.marks m hm
      refine ⟨⟨hcursor.low, hcursor.high, hcursor.aligned⟩, ?_, ?_⟩
      · rw [List.length_append]
        omega
      · rwa [List.take_append_of_le_length hle]
  · exact absurd hfits (not_lt.mpr hover)

/-- Back at a mark, the blocks are those that were in use when it was set. -/
theorem ScratchRun.Inv.rewindTo {s s' : ScratchRun} (h : s.Inv) {k : ℕ}
    (hstep : scratchStep s (.rewindTo k) = some s') : s'.Inv := by
  rw [scratchStep] at hstep
  split at hstep
  · cases hstep
  · rename_i saved n older hdrop
    obtain rfl := Option.some.inj hstep
    have hsub : ∀ m ∈ (saved, n) :: older, m ∈ s.marks := fun m hm =>
      List.mem_of_mem_drop (hdrop ▸ hm)
    have hnested := h.nested.sublist (List.drop_sublist k s.marks)
    rw [hdrop] at hnested
    obtain ⟨hcursor, -, hstacked⟩ := h.marks (saved, n) (hsub _ List.mem_cons_self)
    have hrewind : s.pool.rewindTo saved = { s.pool with offset := saved } := by
      refine if_neg ?_
      rw [Int64.lt_iff_toInt_lt, Int64.lt_iff_toInt_lt, Int64.toInt_zero]
      exact not_or.mpr ⟨not_lt.mpr hcursor.low, not_lt.mpr hcursor.high⟩
    rw [hrewind]
    refine ⟨⟨hcursor.low, hcursor.high, hcursor.aligned⟩, hstacked, fun m hm => ?_, hnested⟩
    obtain ⟨hcursor', hle', hstacked'⟩ := h.marks m (hsub m hm)
    have hn : m.2 ≤ n := by
      rcases List.mem_cons.mp hm with rfl | hm
      · exact le_rfl
      · exact (List.pairwise_cons.mp hnested).1 m hm
    refine ⟨⟨hcursor'.low, hcursor'.high, hcursor'.aligned⟩, ?_, ?_⟩
    · rw [List.length_take]
      omega
    · rwa [List.take_take, Nat.min_eq_left hn]

theorem ScratchRun.Inv.step {s s' : ScratchRun} (h : s.Inv) {op : ScratchOp}
    (hstep : scratchStep s op = some s')
    (hfits : ∀ size, op = .get size → s.pool.NoOverflow size) : s'.Inv := by
  cases op with
  | get size => exact h.get hstep (hfits size rfl)
  | mark =>
    obtain rfl := Option.some.inj hstep
    refine ⟨h.cursor, h.stacked, List.forall_mem_cons.mpr ⟨⟨h.cursor, le_rfl, ?_⟩, h.marks⟩,
      List.pairwise_cons.mpr ⟨fun m hm => (h.marks m hm).2.1, h.nested⟩⟩
    rw [List.take_length]
    exact h.stacked
  | rewindTo k => exact h.rewindTo hstep
  | rewindOutside saved =>
    simp only [scratchStep] at hstep
    split_ifs at hstep with hout
    obtain rfl := Option.some.inj hstep
    rw [h.sound.ignored saved hout]
    exact h
  | reset =>
    obtain rfl := Option.some.inj hstep
    exact ⟨⟨le_rfl, h.cursor.low.trans h.cursor.high, dvd_zero _⟩,
      ⟨fun _ hb => absurd hb List.not_mem_nil, List.Pairwise.nil⟩,
      fun _ hm => absurd hm List.not_mem_nil, List.Pairwise.nil⟩

/-- A run without overflow keeps the invariant. -/
theorem ScratchRun.Inv.exec {s s' : ScratchRun} (h : s.Inv) {ops : List ScratchOp}
    (hrun : exec scratchStep s ops = some s')
    (hfits : ∀ front size, front ++ [.get size] <+: ops → ∀ t, exec scratchStep s front = some t →
      t.pool.NoOverflow size) : s'.Inv := by
  induction ops generalizing s with
  | nil => exact Option.some.inj hrun ▸ h
  | cons op ops ih =>
    obtain ⟨s₁, hstep, hrest⟩ := Option.bind_eq_some_iff.mp hrun
    refine ih (h.step hstep ?_) hrest ?_
    · rintro size rfl
      exact hfits [] size (by simp) s rfl
    · intro front size hpre t ht
      refine hfits (op :: front) size (by simpa using hpre) t ?_
      rw [Runs.exec, hstep]
      exact ht

/-- In a run, every state is sound exactly when no call of `get` overflows. -/
theorem scratchRun_sound_iff (capacity : Int64) (ops : List ScratchOp) (s : ScratchRun)
    (hcap : 0 ≤ capacity.toInt)
    (hrun : exec scratchStep (ScratchRun.init capacity) ops = some s) :
    (∀ front, front <+: ops → ∀ t, exec scratchStep (ScratchRun.init capacity) front = some t →
        t.Sound) ↔
      ∀ front size, front ++ [.get size] <+: ops →
        ∀ t, exec scratchStep (ScratchRun.init capacity) front = some t →
          t.pool.used.toInt + roundUp 256 size.toInt.toNat < 2 ^ 63 := by
  constructor
  · intro hsound front size hpre t ht
    obtain ⟨rest, hrest⟩ := id hpre
    rw [← hrest, Runs.exec_append, Runs.exec_append, ht, Option.bind_some] at hrun
    obtain ⟨t', ht', -⟩ := Option.bind_eq_some_iff.mp hrun
    obtain ⟨t₁, hstep, hlast⟩ := Option.bind_eq_some_iff.mp ht'
    obtain rfl := Option.some.inj hlast
    obtain ⟨hsize, hpool⟩ := scratchStep_get hstep
    have hbefore := (hsound front ((List.prefix_append _ _).trans hpre) t ht).used
    have hafter := (hsound _ hpre t₁ (by rw [Runs.exec_append, ht]; exact ht')).used.1
    have hcapacity := t.pool.capacity.toInt_lt
    rcases get_cases t.pool hbefore.1 hbefore.2 hsize with
      ⟨-, -, hfits⟩ | ⟨offset, hget, ⟨hroom, -⟩ | ⟨-, hnegative⟩⟩
    · exact hfits
    · exact hroom.trans_lt hcapacity
    · rw [hpool, hget] at hafter
      exact absurd hafter (not_le.mpr hnegative)
  · intro hfits front hpre t ht
    exact ((ScratchRun.inv_init hcap).exec ht fun front' size hpre' =>
      hfits front' size (hpre'.trans hpre)).sound

/-- A pool of 64 MiB: two blocks, the second given up by a rewind, and one too large. -/
theorem scratchRun_sound_rewound :
    (∀ front, front <+: [ScratchOp.get 1024, .mark, .get 2000, .rewindTo 0, .get 67108864] →
      ∀ t, exec scratchStep (ScratchRun.init 67108864) front = some t → t.Sound) ↔
    ∀ front size,
      front ++ [.get size] <+: [ScratchOp.get 1024, .mark, .get 2000, .rewindTo 0, .get 67108864] →
      ∀ t, exec scratchStep (ScratchRun.init 67108864) front = some t →
        t.pool.used.toInt + roundUp 256 size.toInt.toNat < 2 ^ 63 :=
  scratchRun_sound_iff 67108864 [.get 1024, .mark, .get 2000, .rewindTo 0, .get 67108864]
    ⟨⟨67108864, 1024⟩, [⟨0, 1024, 1024⟩], [(1024, 1)]⟩ (by decide) (by decide)

/-- The largest request wraps to the least machine integer when it is rounded: the pool
hands out its start and the cursor is below it. -/
theorem get_wraps_cursor : ¬ ∀ (capacity : Int64) (ops : List ScratchOp) (s : ScratchRun),
    0 ≤ capacity.toInt →
    (ops.map fun op => match op with
      | .get size => size.toInt
      | _ => 0).sum < 2 ^ 63 →
    exec scratchStep (ScratchRun.init capacity) ops = some s → s.Sound := by
  intro h
  have hsound := h 67108864 [.get 9223372036854775807]
    ⟨⟨67108864, -9223372036854775808⟩, [⟨0, 9223372036854775807, -9223372036854775808⟩], []⟩
    (by decide) (by decide) (by decide)
  exact absurd hsound.used.1 (by decide)

end JLLM
