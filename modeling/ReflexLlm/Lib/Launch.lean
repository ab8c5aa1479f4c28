import Mathlib.Data.List.ProdSigma
import Mathlib.Logic.Function.Basic
import ReflexLlm.Lib.Runs

/-! Threads that share a memory and make their loads and stores in any interleaving. Threads
with no place in common leave what each of them leaves alone, whatever the schedule. -/

namespace Launch

open Runs

/-- What a thread does: it reads and writes places, and ends with a value. -/
inductive Thread (Loc V : Type) (α : Type) : Type
  | ret (a : α)
  | load (loc : Loc) (next : V → Thread Loc V α)
  | store (loc : Loc) (v : V) (next : Thread Loc V α)

namespace Thread

variable {Loc V α β : Type}

def bind : Thread Loc V α → (α → Thread Loc V β) → Thread Loc V β
  | ret a, f => f a
  | load loc next, f => load loc fun v => (next v).bind f
  | store loc v next, f => store loc v (next.bind f)

instance : Monad (Thread Loc V) where
  pure := ret
  bind := bind

def read (loc : Loc) : Thread Loc V V := load loc ret

def write (loc : Loc) (v : V) : Thread Loc V Unit := store loc v (ret ())

/-- The thread reads or writes the place, whatever its loads return. -/
def Touches (loc : Loc) : Thread Loc V α → Prop
  | ret _ => False
  | load l next => l = loc ∨ ∃ v, (next v).Touches loc
  | store l _ next => l = loc ∨ next.Touches loc

/-- The thread writes the place, whatever its loads return. -/
def Stores (loc : Loc) : Thread Loc V α → Prop
  | ret _ => False
  | load _ next => ∀ v, (next v).Stores loc
  | store l _ next => l = loc ∨ next.Stores loc

section

variable {loc l : Loc}

@[simp] theorem touches_pure (a : α) : (pure a : Thread Loc V α).Touches loc ↔ False := Iff.rfl

@[simp] theorem touches_read_bind (f : V → Thread Loc V β) :
    (read l >>= f).Touches loc ↔ l = loc ∨ ∃ v, (f v).Touches loc := Iff.rfl

@[simp] theorem touches_write (v : V) : (write l v).Touches loc ↔ l = loc := Iff.of_eq (or_false _)

@[simp] theorem stores_read_bind (f : V → Thread Loc V β) :
    (read l >>= f).Stores loc ↔ ∀ v, (f v).Stores loc := Iff.rfl

@[simp] theorem stores_write (v : V) : (write l v).Stores loc ↔ l = loc := Iff.of_eq (or_false _)

@[simp] theorem stores_write_bind (v : V) (f : Unit → Thread Loc V β) :
    (write l v >>= f).Stores loc ↔ l = loc ∨ (f ()).Stores loc := Iff.rfl

end

theorem Stores.touches [Nonempty V] {loc : Loc} {p : Thread Loc V α} (h : p.Stores loc) :
    p.Touches loc := by
  induction p with
  | ret a => exact h
  | load l next ih => exact .inr ⟨Classical.arbitrary V, ih _ (h _)⟩
  | store l v next ih => exact h.imp id ih

@[simp] theorem touches_bind [Nonempty V] {loc : Loc} (p : Thread Loc V Unit)
    (f : Unit → Thread Loc V β) :
    (p >>= f).Touches loc ↔ p.Touches loc ∨ (f ()).Touches loc := by
  induction p with
  | ret a => exact Iff.of_eq (false_or _).symm
  | load l next ih =>
    change (l = loc ∨ ∃ v, (next v >>= f).Touches loc) ↔
      (l = loc ∨ ∃ v, (next v).Touches loc) ∨ (f ()).Touches loc
    simp only [ih, exists_or, exists_const, or_assoc]
  | store l v next ih =>
    change (l = loc ∨ (next >>= f).Touches loc) ↔
      (l = loc ∨ next.Touches loc) ∨ (f ()).Touches loc
    rw [ih, or_assoc]

theorem Stores.bind_left {loc : Loc} {p : Thread Loc V α} (h : p.Stores loc)
    (f : α → Thread Loc V β) : (p >>= f).Stores loc := by
  induction p with
  | ret a => exact h.elim
  | load l next ih => exact fun v => ih v (h v)
  | store l v next ih => exact h.imp id ih

theorem Stores.bind_right {loc : Loc} (p : Thread Loc V α) {f : α → Thread Loc V β}
    (h : ∀ a, (f a).Stores loc) : (p >>= f).Stores loc := by
  induction p with
  | ret a => exact h a
  | load l next ih => exact ih
  | store l v next ih => exact .inr ih

/-! ### One thread alone -/

variable [DecidableEq Loc]

/-- The value and the memory that the thread leaves. -/
def run : Thread Loc V α → (Loc → V) → α × (Loc → V)
  | ret a, m => (a, m)
  | load loc next, m => (next (m loc)).run m
  | store loc v next, m => next.run (Function.update m loc v)

@[simp] theorem run_pure (a : α) (m : Loc → V) : (pure a : Thread Loc V α).run m = (a, m) := rfl

@[simp] theorem run_read (loc : Loc) (m : Loc → V) :
    (read loc : Thread Loc V V).run m = (m loc, m) := rfl

@[simp] theorem run_write (loc : Loc) (v : V) (m : Loc → V) :
    (write loc v).run m = ((), Function.update m loc v) := rfl

@[simp] theorem run_bind (p : Thread Loc V α) (f : α → Thread Loc V β) (m : Loc → V) :
    (p >>= f).run m = (f (p.run m).1).run (p.run m).2 := by
  induction p generalizing m with
  | ret a => rfl
  | load loc next ih => exact ih (m loc) m
  | store loc v next ih => exact ih (Function.update m loc v)

section

variable {γ : Type} (place : γ → Loc) (v : γ → V)

omit [DecidableEq Loc] in
/-- A loop of stores. -/
theorem touches_forM_write {loc : Loc} (l : List γ) :
    (forM l fun c => write (place c) (v c)).Touches loc ↔ ∃ c ∈ l, place c = loc := by
  induction l with
  | nil => simp
  | cons c l ih =>
    rw [List.forM_cons]
    change place c = loc ∨ (forM l fun c => write (place c) (v c)).Touches loc ↔ _
    simp [ih]

omit [DecidableEq Loc] in
theorem stores_forM_write {l : List γ} {c : γ} (hc : c ∈ l) :
    (forM l fun c => write (place c) (v c)).Stores (place c) := by
  induction l with
  | nil => simp at hc
  | cons a l ih =>
    rw [List.forM_cons]
    rcases List.mem_cons.mp hc with rfl | hc
    · exact .inl rfl
    · exact .inr (ih hc)

end

/-- What is not touched is left. -/
theorem run_untouched {loc : Loc} {p : Thread Loc V α} (h : ¬ p.Touches loc) (m : Loc → V) :
    (p.run m).2 loc = m loc := by
  induction p generalizing m with
  | ret a => rfl
  | load l next ih => exact ih (m l) (fun hnext => h (.inr ⟨m l, hnext⟩)) m
  | store l v next ih =>
    rw [run, ih fun hnext => h (.inr hnext)]
    exact Function.update_of_ne (fun heq => h (.inl heq.symm)) v m

theorem run_forM_write {γ : Type} {place : γ → Loc} (hinj : Function.Injective place) (v : γ → V)
    {l : List γ} {c : γ} (hc : c ∈ l) (m : Loc → V) :
    ((forM l fun c => write (place c) (v c)).run m).2 (place c) = v c := by
  induction l generalizing m with
  | nil => simp at hc
  | cons a l ih =>
    rw [List.forM_cons, run_bind, run_write]
    by_cases hmem : c ∈ l
    · exact ih hmem _
    · obtain rfl := (List.mem_cons.mp hc).resolve_right hmem
      have hrest : ¬ (forM l fun c => write (place c) (v c)).Touches (place c) := by
        rw [touches_forM_write]
        rintro ⟨b, hb, heq⟩
        exact hmem (hinj heq ▸ hb)
      rw [run_untouched hrest]
      exact Function.update_self _ _ _

/-- A thread sees no more of the memory than a set with all that it touches. -/
theorem run_congr {S : Loc → Prop} {p : Thread Loc V α} (hS : ∀ loc, p.Touches loc → S loc)
    {m m' : Loc → V} (hm : ∀ loc, S loc → m loc = m' loc) :
    ∀ loc, S loc → (p.run m).2 loc = (p.run m').2 loc := by
  induction p generalizing m m' with
  | ret a => exact hm
  | load l next ih =>
    rw [run, run, hm l (hS l (.inl rfl))]
    exact ih (m' l) (fun loc hloc => hS loc (.inr ⟨m' l, hloc⟩)) hm
  | store l v next ih =>
    refine ih (fun loc hloc => hS loc (.inr hloc)) fun loc hloc => ?_
    by_cases heq : loc = l
    · rw [heq, Function.update_self, Function.update_self]
    · rw [Function.update_of_ne heq, Function.update_of_ne heq, hm loc hloc]

end Thread

/-! ### Many threads -/

variable {ι Loc V : Type}

/-- The memory, and what is left of each thread. -/
structure State (ι Loc V : Type) where
  mem : Loc → V
  threads : ι → Thread Loc V Unit

/-- No place is touched by two threads. -/
def Separate (threads : ι → Thread Loc V Unit) : Prop :=
  ∀ ⦃t u : ι⦄ ⦃loc : Loc⦄, (threads t).Touches loc → (threads u).Touches loc → t = u

/-- What a thread writes no other thread writes. -/
theorem Separate.existsUnique_stores [Nonempty V] {threads : ι → Thread Loc V Unit}
    (hsep : Separate threads) {t : ι} {loc : Loc} (h : (threads t).Stores loc) :
    ∃! t, (threads t).Stores loc :=
  ⟨t, h, fun _ hu => hsep hu.touches h.touches⟩

/-! ### Grids of blocks -/

/-- `kernel<<<blocks, block>>>` for a kernel that knows its block and its thread. -/
def launch (blocks block : ℕ) (kernel : ℕ → ℕ → Thread Loc V Unit) (p : ℕ × ℕ) :
    Thread Loc V Unit :=
  if p.1 < blocks ∧ p.2 < block then kernel p.1 p.2 else .ret ()

/-- A launch of a kernel that starts with the number of its thread. -/
def grid (blocks block : ℕ) (kernel : ℕ → Thread Loc V Unit) : ℕ × ℕ → Thread Loc V Unit :=
  launch blocks block fun b t => kernel (b * block + t)

theorem launch_of_lt {blocks block : ℕ} (kernel : ℕ → ℕ → Thread Loc V Unit) {b t : ℕ}
    (hb : b < blocks) (ht : t < block) : launch blocks block kernel (b, t) = kernel b t :=
  if_pos ⟨hb, ht⟩

theorem launch_touches {blocks block : ℕ} {kernel : ℕ → ℕ → Thread Loc V Unit} {p : ℕ × ℕ}
    {loc : Loc} : (launch blocks block kernel p).Touches loc ↔
      (p.1 < blocks ∧ p.2 < block) ∧ (kernel p.1 p.2).Touches loc := by
  rw [launch]
  split_ifs with hp
  · exact (and_iff_right hp).symm
  · exact ⟨False.elim, fun h => absurd h.1 hp⟩

/-- Enough blocks for `n` threads. -/
theorem le_blocks_mul {block : ℕ} (hblock : 0 < block) (n : ℕ) :
    n ≤ (n + block - 1) / block * block := by
  have hmod := Nat.div_add_mod' (n + block - 1) block
  have hlt := Nat.mod_lt (n + block - 1) hblock
  omega

variable {blocks block : ℕ} {kernel : ℕ → Thread Loc V Unit}

/-- The thread with this number is launched once. -/
theorem grid_number {i : ℕ} (hi : i < blocks * block) :
    grid blocks block kernel (i / block, i % block) = kernel i := by
  have hpos : 0 < block := Nat.pos_of_mul_pos_left (Nat.zero_lt_of_lt hi)
  have hdiv : i / block < blocks := Nat.div_lt_of_lt_mul (Nat.mul_comm blocks block ▸ hi)
  rw [grid, launch_of_lt _ hdiv (Nat.mod_lt i hpos), Nat.div_add_mod']

theorem number_inj {p q : ℕ × ℕ} (hp : p.2 < block) (hq : q.2 < block)
    (h : p.1 * block + p.2 = q.1 * block + q.2) : p = q := by
  have hpos : 0 < block := Nat.zero_lt_of_lt hp
  have hdiv (r : ℕ × ℕ) (hr : r.2 < block) : (r.1 * block + r.2) / block = r.1 := by
    rw [Nat.mul_comm, Nat.mul_add_div hpos, Nat.div_eq_of_lt hr, Nat.add_zero]
  have hfst : p.1 = q.1 := by rw [← hdiv p hp, h, hdiv q hq]
  rw [hfst] at h
  exact Prod.ext hfst (Nat.add_left_cancel h)

theorem Separate.grid (hsep : Separate kernel) : Separate (grid blocks block kernel) := by
  intro p q loc hp hq
  obtain ⟨hp', hp⟩ := launch_touches.mp hp
  obtain ⟨hq', hq⟩ := launch_touches.mp hq
  exact number_inj hp'.2 hq'.2 (hsep hp hq)

theorem grid_stores {i : ℕ} (hi : i < blocks * block) {loc : Loc} (h : (kernel i).Stores loc) :
    (grid blocks block kernel (i / block, i % block)).Stores loc := by
  rwa [grid_number hi]

/-! ### Schedules -/

variable [DecidableEq ι] [DecidableEq Loc]

/-- A thread makes its next load or store. -/
inductive Step : State ι Loc V → ι → State ι Loc V → Prop
  | load {s : State ι Loc V} {t : ι} {loc : Loc} {next : V → Thread Loc V Unit} :
      s.threads t = .load loc next →
      Step s t ⟨s.mem, Function.update s.threads t (next (s.mem loc))⟩
  | store {s : State ι Loc V} {t : ι} {loc : Loc} {v : V} {next : Thread Loc V Unit} :
      s.threads t = .store loc v next →
      Step s t ⟨Function.update s.mem loc v, Function.update s.threads t next⟩

/-- Under some schedule the threads all come to their ends, with this memory. -/
def Ends (threads : ι → Thread Loc V Unit) (mem mem' : Loc → V) : Prop :=
  ∃ sched : List ι, Run Step ⟨mem, threads⟩ sched ⟨mem', fun _ => .ret ()⟩

/-- What holds while separate threads run: each of them will leave what it leaves alone. -/
structure Alone (threads : ι → Thread Loc V Unit) (mem : Loc → V) (s : State ι Loc V) : Prop where
  within : ∀ t loc, (s.threads t).Touches loc → (threads t).Touches loc
  own : ∀ t loc, (threads t).Touches loc →
    ((s.threads t).run s.mem).2 loc = ((threads t).run mem).2 loc
  rest : ∀ loc, (∀ t, ¬ (threads t).Touches loc) → s.mem loc = mem loc

/-- One thread goes on: it comes to the same end, and only changes what it touches. -/
theorem Alone.advance {threads : ι → Thread Loc V Unit} {mem mem' : Loc → V}
    (hsep : Separate threads) {s : State ι Loc V} (h : Alone threads mem s) {t : ι}
    {next : Thread Loc V Unit} (hnext : ∀ loc, next.Touches loc → (s.threads t).Touches loc)
    (hrun : next.run mem' = (s.threads t).run s.mem)
    (hmem : ∀ loc, ¬ (s.threads t).Touches loc → mem' loc = s.mem loc) :
    Alone threads mem ⟨mem', Function.update s.threads t next⟩ where
  within u loc hloc := by
    change (Function.update s.threads t next u).Touches loc at hloc
    by_cases hu : u = t
    · subst hu
      rw [Function.update_self] at hloc
      exact h.within u loc (hnext loc hloc)
    · rw [Function.update_of_ne hu] at hloc
      exact h.within u loc hloc
  own u loc hloc := by
    change ((Function.update s.threads t next u).run mem').2 loc = _
    rw [← h.own u loc hloc]
    by_cases hu : u = t
    · subst hu
      rw [Function.update_self, hrun]
    · rw [Function.update_of_ne hu]
      refine Thread.run_congr (h.within u) (fun l hl => ?_) loc hloc
      exact hmem l fun ht => hu (hsep hl (h.within t l ht))
  rest loc hloc := (hmem loc fun ht => hloc t (h.within t loc ht)).trans (h.rest loc hloc)

theorem Alone.step {threads : ι → Thread Loc V Unit} {mem : Loc → V} (hsep : Separate threads)
    {s s' : State ι Loc V} {t : ι} (h : Alone threads mem s) (hstep : Step s t s') :
    Alone threads mem s' := by
  cases hstep with
  | @load loc next hnext =>
    refine h.advance hsep (fun l hl => hnext ▸ .inr ⟨s.mem loc, hl⟩) ?_ fun _ _ => rfl
    rw [hnext, Thread.run]
  | @store loc v next hnext =>
    refine h.advance hsep (fun l hl => hnext ▸ .inr hl) ?_ fun l hl => ?_
    · rw [hnext, Thread.run]
    · exact Function.update_of_ne (fun heq => hl (hnext ▸ .inl heq.symm)) v s.mem

section

variable {threads : ι → Thread Loc V Unit} {mem mem' : Loc → V}

theorem Ends.alone (hsep : Separate threads) (h : Ends threads mem mem') :
    Alone threads mem ⟨mem', fun _ => .ret ()⟩ := by
  obtain ⟨sched, hrun⟩ := h
  have hstart : Alone threads mem ⟨mem, threads⟩ :=
    { within := fun t loc h => h, own := fun t loc h => rfl, rest := fun loc h => rfl }
  exact hrun.invariant (fun _ _ _ h hstep => h.step hsep hstep) hstart

/-- A touched place is left as its thread leaves it alone. -/
theorem Ends.own (hsep : Separate threads) (h : Ends threads mem mem') {t : ι} {loc : Loc}
    (ht : (threads t).Touches loc) : mem' loc = ((threads t).run mem).2 loc :=
  (h.alone hsep).own t loc ht

theorem Ends.rest (hsep : Separate threads) (h : Ends threads mem mem') {loc : Loc}
    (hloc : ∀ t, ¬ (threads t).Touches loc) : mem' loc = mem loc :=
  (h.alone hsep).rest loc hloc

end

/-- A thread can run to its end. -/
theorem exists_run_thread (p : Thread Loc V Unit) (t : ι) : ∀ s : State ι Loc V, s.threads t = p →
    ∃ sched, Run Step s sched ⟨(p.run s.mem).2, Function.update s.threads t (.ret ())⟩ := by
  induction p with
  | ret a =>
    intro s hs
    have hself : Function.update s.threads t (.ret ()) = s.threads :=
      hs ▸ Function.update_eq_self t s.threads
    rw [hself]
    exact ⟨[], .nil s⟩
  | load loc next ih =>
    intro s hs
    obtain ⟨sched, hrun⟩ := ih (s.mem loc) ⟨s.mem, Function.update s.threads t (next (s.mem loc))⟩
      (Function.update_self t _ _)
    rw [Function.update_idem] at hrun
    exact ⟨t :: sched, .cons (.load hs) hrun⟩
  | store loc v next ih =>
    intro s hs
    obtain ⟨sched, hrun⟩ := ih ⟨Function.update s.mem loc v, Function.update s.threads t next⟩
      (Function.update_self t _ _)
    rw [Function.update_idem] at hrun
    exact ⟨t :: sched, .cons (.store hs) hrun⟩

/-- Finitely many threads can all run to their ends. -/
theorem exists_ends (ts : List ι) : ∀ (threads : ι → Thread Loc V Unit) (mem : Loc → V),
    (∀ t, t ∉ ts → threads t = .ret ()) → ∃ mem', Ends threads mem mem' := by
  induction ts with
  | nil =>
    intro threads mem hrest
    have hdone : threads = fun _ => .ret () := funext fun t => hrest t List.not_mem_nil
    exact ⟨mem, [], hdone ▸ .nil _⟩
  | cons t ts ih =>
    intro threads mem hrest
    obtain ⟨sched, hrun⟩ := exists_run_thread (threads t) t ⟨mem, threads⟩ rfl
    have hrest' : ∀ u, u ∉ ts → Function.update threads t (.ret ()) u = .ret () := by
      intro u hu
      by_cases heq : u = t
      · rw [heq, Function.update_self]
      · rw [Function.update_of_ne heq]
        exact hrest u fun hmem => (List.mem_cons.mp hmem).elim heq hu
    obtain ⟨mem', sched', hrun'⟩ := ih _ ((threads t).run mem).2 hrest'
    exact ⟨mem', sched ++ sched', hrun.append hrun'⟩

section

variable {mem mem' : Loc → V}

theorem Ends.launch_own {kernel : ℕ → ℕ → Thread Loc V Unit}
    (hsep : Separate (launch blocks block kernel)) (h : Ends (launch blocks block kernel) mem mem')
    {b t : ℕ} (hb : b < blocks) (ht : t < block) {loc : Loc} (hloc : (kernel b t).Touches loc) :
    mem' loc = ((kernel b t).run mem).2 loc := by
  rw [← launch_of_lt kernel hb ht] at hloc ⊢
  exact h.own hsep hloc

theorem Ends.grid_own (hsep : Separate kernel) (h : Ends (grid blocks block kernel) mem mem')
    {i : ℕ} (hi : i < blocks * block) {loc : Loc} (ht : (kernel i).Touches loc) :
    mem' loc = ((kernel i).run mem).2 loc := by
  have hnumber : grid blocks block kernel (i / block, i % block) = kernel i := grid_number hi
  rw [← hnumber] at ht ⊢
  exact h.own hsep.grid ht

theorem Ends.grid_rest (hsep : Separate kernel) (h : Ends (grid blocks block kernel) mem mem')
    {loc : Loc} (hloc : ∀ i, ¬ (kernel i).Touches loc) : mem' loc = mem loc := by
  exact h.rest hsep.grid fun p hp => hloc _ (launch_touches.mp hp).2

end

theorem exists_ends_launch (blocks block : ℕ) (kernel : ℕ → ℕ → Thread Loc V Unit) (mem : Loc → V) :
    ∃ mem', Ends (launch blocks block kernel) mem mem' := by
  refine exists_ends (List.range blocks ×ˢ List.range block) _ mem fun p hp => if_neg fun h => hp ?_
  exact List.mem_product.mpr ⟨List.mem_range.mpr h.1, List.mem_range.mpr h.2⟩

theorem exists_ends_grid (blocks block : ℕ) (kernel : ℕ → Thread Loc V Unit) (mem : Loc → V) :
    ∃ mem', Ends (grid blocks block kernel) mem mem' :=
  exists_ends_launch blocks block _ mem

end Launch
