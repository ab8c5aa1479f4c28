import Mathlib.Algebra.BigOperators.Group.Finset.Basic
import Mathlib.Data.Finset.Prod
import ReflexLlm.Lib.BlockMax
import ReflexLlm.Lib.Phases

/-! Blocks of threads in warps of 32: threads are numbered by their block and their place in it.
A warp reduces its values by shuffles. -/

namespace RaceFree

variable {Loc V : Type} [DecidableEq Loc]

/-- The threads of a block. -/
def block (n b : ℕ) : Finset (ℕ × ℕ) := {b} ×ˢ Finset.range n

/-- The threads of a warp. -/
def warp (n b w : ℕ) : Finset (ℕ × ℕ) := {b} ×ˢ (Finset.range n).filter fun t => t / 32 = w

/-- `__shfl_xor_sync` with the full mask. What it returns for a lane that no thread of the block
runs is not known: `absent`. -/
def shflXor (n : ℕ) (absent : ℕ → ℕ → V) (p : ℕ × ℕ) (v : V) (off : ℕ) : Prog (ℕ × ℕ) Loc V V :=
  .meet (warp n p.1 (p.2 / 32)) (some v) fun xs =>
    .ret ((xs (p.1, p.2 ^^^ off)).getD (absent off p.2))

/-- The rounds of a warp reduction. -/
def warpReduce (op : V → V → V) (n : ℕ) (absent : ℕ → ℕ → V) (p : ℕ × ℕ) :
    List ℕ → V → Prog (ℕ × ℕ) Loc V V
  | [], v => .ret v
  | off :: offs, v => do
      let u ← shflXor n absent p v off
      warpReduce op n absent p offs (op v u)

/-- What the rounds come to, for each thread. -/
def xorReduce (op : V → V → V) : List ℕ → (ℕ → V) → ℕ → V
  | [], val => val
  | off :: offs, val => xorReduce op offs fun t => op (val t) (val (t ^^^ off))

section

variable {n b w : ℕ} {p : ℕ × ℕ}

theorem mem_block : p ∈ block n b ↔ p.1 = b ∧ p.2 < n := by
  rw [block, Finset.mem_product, Finset.mem_singleton, Finset.mem_range]

theorem mem_warp : p ∈ warp n b w ↔ p.1 = b ∧ p.2 < n ∧ p.2 / 32 = w := by
  rw [warp, Finset.mem_product, Finset.mem_singleton, Finset.mem_filter, Finset.mem_range]

theorem biUnion_warp (n b : ℕ) :
    ((Finset.range n).image (· / 32)).biUnion (warp n b) = block n b := by
  ext p
  simp only [Finset.mem_biUnion, Finset.mem_image, mem_warp, mem_block, Finset.mem_range]
  constructor
  · rintro ⟨w, -, hb, ht, -⟩
    exact ⟨hb, ht⟩
  · rintro ⟨hb, ht⟩
    exact ⟨p.2 / 32, ⟨p.2, ht, rfl⟩, hb, ht, rfl⟩

/-- A shuffle stays in the warp. -/
theorem xor_div_eq {t off : ℕ} (hoff : off < 32) : (t ^^^ off) / 32 = t / 32 := by
  rw [Nat.xor_div_two_pow (n := 5)]
  simp [Nat.div_eq_of_lt hoff]

theorem xor_lt_of_dvd {t off : ℕ} (hn : 32 ∣ n) (ht : t < n) (hoff : off < 32) : t ^^^ off < n := by
  obtain ⟨k, rfl⟩ := hn
  have hwarp : t / 32 < k := Nat.div_lt_of_lt_mul ht
  have hsame := xor_div_eq (t := t) hoff
  have hmod := Nat.div_add_mod (t ^^^ off) 32
  have hlt := Nat.mod_lt (t ^^^ off) (show 0 < 32 by decide)
  omega

end

/-- A whole block shuffles: each thread gets the value of the lane it names. -/
theorem Phase.shflXor {n off : ℕ} (hn : 32 ∣ n) (hoff : off < 32) (absent : ℕ → ℕ → V)
    (x : ℕ × ℕ → V) (b : ℕ) (m : Loc → V) :
    Phase (block n b) (fun p => RaceFree.shflXor n absent p (x p) off) (fun _ _ _ => False) m m
      (fun p => x (p.1, p.2 ^^^ off)) := by
  have hwarps : ∃ m', Phase (((Finset.range n).image (· / 32)).biUnion (warp n b))
      (fun p => RaceFree.shflXor n absent p (x p) off) (fun _ _ _ => False) m m'
      (fun p : ℕ × ℕ => x (p.1, p.2 ^^^ off)) ∧
      (∀ w ∈ (Finset.range n).image (· / 32), True) ∧
      ∀ loc, (∀ w ∈ (Finset.range n).image (· / 32), ¬ False) → m' loc = m loc := by
    refine Phase.parts (fun w _ w' _ p hw hw' => ?_) (fun w loc h => h)
      (fun w _ w' _ loc h => h.elim) (fun w _ p hp loc wr h => h.elim) (fun w m₁ m₂ _ h => h)
      fun w hw m₁ hm => ⟨m₁, ?_, trivial, fun _ _ => rfl⟩
    · exact (mem_warp.mp hw).2.2.symm.trans (mem_warp.mp hw').2.2
    · obtain ⟨t, ht, rfl⟩ := Finset.mem_image.mp hw
      have hne : (warp n b (t / 32)).Nonempty :=
        ⟨(b, t), mem_warp.mpr ⟨rfl, Finset.mem_range.mp ht, rfl⟩⟩
      have hmeet := Phase.meet hne (fun p => some (x p))
        (fun p xs => (xs (p.1, p.2 ^^^ off)).getD (absent off p.2)) (fun _ _ _ => False) m₁
      refine hmeet.congr (fun p hp => ?_) fun p hp => ?_
      · obtain ⟨hb, hlt, hwarp⟩ := mem_warp.mp hp
        rw [RaceFree.shflXor, hb, hwarp]
      · obtain ⟨hb, hlt, hwarp⟩ := mem_warp.mp hp
        have hpartner : (p.1, p.2 ^^^ off) ∈ warp n b (t / 32) :=
          mem_warp.mpr ⟨hb, xor_lt_of_dvd hn hlt hoff, (xor_div_eq hoff).trans hwarp⟩
        rw [handed, if_pos hpartner, Option.getD_some]
  obtain ⟨m', hphase, -, hrest⟩ := hwarps
  rw [biUnion_warp] at hphase
  have hmem : m' = m := funext fun loc => hrest loc fun _ _ h => h
  rwa [hmem] at hphase

/-- A warp reduction of a whole block. -/
theorem Phase.warpReduce {n : ℕ} (hn : 32 ∣ n) (op : V → V → V) (absent : ℕ → ℕ → V) (b : ℕ)
    (m : Loc → V) : ∀ {offs : List ℕ}, (∀ off ∈ offs, off < 32) → ∀ val : ℕ → V,
    Phase (block n b) (fun p => RaceFree.warpReduce op n absent p offs (val p.2))
      (fun _ _ _ => False) m m (fun p => xorReduce op offs val p.2) := by
  intro offs
  induction offs with
  | nil => exact fun _ val => Phase.pure _ m fun p : ℕ × ℕ => val p.2
  | cons off offs ih =>
    intro hoffs val
    obtain ⟨hoff, hrest⟩ := List.forall_mem_cons.mp hoffs
    have hshuffle := Phase.shflXor hn hoff absent (fun p => val p.2) b m
    exact hshuffle.bind (ih hrest fun t => op (val t) (val (t ^^^ off)))
      fun t u loc w w' h => h.elim

/-! ### Launches -/

/-- `kernel<<<blocks, n>>>` for a kernel that knows its block and its thread. -/
def launchBlocks (blocks n : ℕ) (kernel : ℕ × ℕ → Prog (ℕ × ℕ) Loc V Unit) (p : ℕ × ℕ) :
    Prog (ℕ × ℕ) Loc V Unit :=
  if p.1 < blocks ∧ p.2 < n then kernel p else .ret ()

/-- Blocks that each work on places of their own: every schedule of the launch leaves there what
each block leaves by itself. -/
theorem settles_blocks {blocks n : ℕ} {kernel : ℕ × ℕ → Prog (ℕ × ℕ) Loc V Unit}
    {F : Foot (ℕ × ℕ) Loc} {uses writes : ℕ → Loc → Prop} {post : ℕ → (Loc → V) → Prop}
    {m : Loc → V} (hwrites : ∀ b loc, writes b loc → uses b loc)
    (hsep : ∀ b < blocks, ∀ b' < blocks, ∀ loc, writes b loc → uses b' loc → b = b')
    (hfoot : ∀ b < blocks, ∀ t loc w, F (b, t) loc w → uses b loc ∧ (w = true → writes b loc))
    (hpost : ∀ b m₁ m₂, (∀ loc, writes b loc → m₂ loc = m₁ loc) → post b m₁ → post b m₂)
    (hblock : ∀ b < blocks, ∀ m₁, (∀ loc, uses b loc → m₁ loc = m loc) →
      ∃ m₂, Phase (block n b) kernel F m₁ m₂ (fun _ => ()) ∧ post b m₂ ∧
        ∀ loc, ¬ writes b loc → m₂ loc = m₁ loc) :
    ∃ m', Settles (launchBlocks blocks n kernel) m m' ∧ (∀ b < blocks, post b m') ∧
      ∀ loc, (∀ b < blocks, ¬ writes b loc) → m' loc = m loc := by
  have hlt : ∀ b ∈ Finset.range blocks, b < blocks := fun b hb => Finset.mem_range.mp hb
  have hparts : ∃ m', Phase ((Finset.range blocks).biUnion (block n)) kernel F m m' (fun _ => ()) ∧
      (∀ b ∈ Finset.range blocks, post b m') ∧
      ∀ loc, (∀ b ∈ Finset.range blocks, ¬ writes b loc) → m' loc = m loc := by
    refine Phase.parts (fun b _ b' _ p hb hb' => ?_) hwrites
      (fun b hb b' hb' => hsep b (hlt b hb) b' (hlt b' hb')) (fun b hb p hp loc w hF => ?_) hpost
      fun b hb => hblock b (hlt b hb)
    · exact (mem_block.mp hb).1.symm.trans (mem_block.mp hb').1
    · obtain rfl := (mem_block.mp hp).1
      exact hfoot p.1 (hlt _ hb) p.2 loc w hF
  obtain ⟨m', hphase, hpost', hrest⟩ := hparts
  have hmem (p : ℕ × ℕ) : p ∈ (Finset.range blocks).biUnion (block n) ↔ p.1 < blocks ∧ p.2 < n := by
    simp only [Finset.mem_biUnion, mem_block, Finset.mem_range]
    exact ⟨fun ⟨b, hb, hp, ht⟩ => ⟨hp ▸ hb, ht⟩, fun ⟨hb, ht⟩ => ⟨p.1, hb, rfl, ht⟩⟩
  refine ⟨m', ?_, fun b hb => hpost' b (Finset.mem_range.mpr hb), fun loc hloc => ?_⟩
  · refine (hphase.congr (fun p hp => ?_) fun _ _ => rfl).settles fun p hp => ?_
    · exact if_pos ((hmem p).mp hp)
    · exact if_neg fun h => hp ((hmem p).mpr h)
  · exact hrest loc fun b hb => hloc b (hlt b hb)

/-! ### Sums -/

open BlockMax in
theorem strided_nodup {stride bound : ℕ} (hpos : 0 < stride) (fuel start : ℕ) :
    (strided stride bound fuel start).Nodup := by
  induction fuel generalizing start with
  | zero => exact List.nodup_nil
  | succ fuel ih =>
    rw [strided]
    split_ifs
    · refine List.nodup_cons.mpr ⟨fun h => ?_, ih _⟩
      obtain ⟨-, i, -, heq⟩ := mem_strided.mp h
      omega
    · exact List.nodup_nil

/-- Rounds with the offsets from `2 ^ (k - 1)` down to `1`. -/
def halvings : ℕ → List ℕ
  | 0 => []
  | k + 1 => 2 ^ k :: halvings k

/-- Each lane comes to the sum of the lanes around it. -/
theorem xorReduce_add [AddCommMonoid V] (k : ℕ) (val : ℕ → V) (t : ℕ) :
    xorReduce (· + ·) (halvings k) val t = ∑ j ∈ Finset.range (2 ^ k), val (t ^^^ j) := by
  induction k generalizing val with
  | zero => simp [halvings, xorReduce]
  | succ k ih =>
    have hhigh : ∀ j ∈ Finset.range (2 ^ k), val (t ^^^ (2 ^ k + j)) = val (t ^^^ j ^^^ 2 ^ k) := by
      intro j hj
      have hxor := BlockMax.xor_two_pow (Finset.mem_range.mp hj)
      rw [Nat.mul_one] at hxor
      rw [Nat.xor_assoc, hxor]
    rw [halvings, xorReduce, ih, Finset.sum_add_distrib, pow_succ, Nat.mul_two,
      Finset.sum_range_add, Finset.sum_congr rfl hhigh]

theorem mul_xor {w j : ℕ} (hj : j < 32) : 32 * w ^^^ j = 32 * w + j := by
  refine Nat.eq_of_testBit_eq fun i => ?_
  have hsum := Nat.testBit_two_pow_mul_add w (i := 5) hj i
  have hbase := Nat.testBit_two_pow_mul_add w (i := 5) (b := 0) (by decide) i
  rw [Nat.add_zero, Nat.zero_testBit] at hbase
  change (32 * w).testBit i = _ at hbase
  change (32 * w + j).testBit i = _ at hsum
  rw [Nat.testBit_xor, hsum, hbase]
  split_ifs with hi
  · rw [Bool.false_xor]
  · have hpow : 2 ^ 5 ≤ 2 ^ i := Nat.pow_le_pow_right (by decide) (by omega)
    rw [Nat.testBit_lt_two_pow (Nat.lt_of_lt_of_le hj hpow), Bool.xor_false]

/-- The first lane of a warp comes to the sum of the warp. -/
theorem xorReduce_add_first [AddCommMonoid V] (val : ℕ → V) (w : ℕ) :
    xorReduce (· + ·) (halvings 5) val (32 * w) = ∑ j ∈ Finset.range 32, val (32 * w + j) := by
  rw [xorReduce_add]
  exact Finset.sum_congr rfl fun j hj => by rw [mul_xor (Finset.mem_range.mp hj)]

theorem sum_warps [AddCommMonoid V] (f : ℕ → V) (k : ℕ) :
    ∑ w ∈ Finset.range k, ∑ j ∈ Finset.range 32, f (32 * w + j) = ∑ t ∈ Finset.range (32 * k), f t := by
  induction k with
  | zero => rfl
  | succ k ih => rw [Finset.sum_range_succ, ih, Nat.mul_succ, Finset.sum_range_add]

open BlockMax in
/-- The threads of a block share the indices out. -/
theorem sum_strided [AddCommMonoid V] {stride : ℕ} (hpos : 0 < stride) (bound : ℕ) (f : ℕ → V) :
    ∑ t ∈ Finset.range stride, ((strided stride bound bound t).map f).sum =
      ∑ i ∈ Finset.range bound, f i := by
  have hmaps : ∀ i ∈ Finset.range bound, i % stride ∈ Finset.range stride := fun i _ =>
    Finset.mem_range.mpr (Nat.mod_lt i hpos)
  rw [← Finset.sum_fiberwise_of_maps_to hmaps f]
  refine Finset.sum_congr rfl fun t ht => ?_
  rw [← List.sum_toFinset f (strided_nodup hpos bound t)]
  refine Finset.sum_congr (Finset.ext fun i => ?_) fun _ _ => rfl
  rw [List.mem_toFinset, mem_strided_thread (Finset.mem_range.mp ht), Finset.mem_filter,
    Finset.mem_range]

end RaceFree
