import Mathlib.Data.Finset.Basic
import ReflexLlm.Lib.Launch

/-! Threads that share a memory and meet in groups. One complete run without a data race decides
all runs: each of them can go on to the same end. -/

namespace RaceFree

open Launch Runs

/-- What a thread does: loads, stores and meetings. To a meeting each thread of the group may
bring a value; it goes on with what the others have brought. -/
inductive Prog (ι Loc V α : Type) : Type
  | ret (a : α)
  | load (loc : Loc) (next : V → Prog ι Loc V α)
  | store (loc : Loc) (v : V) (next : Prog ι Loc V α)
  | meet (group : Finset ι) (x : Option V) (next : (ι → Option V) → Prog ι Loc V α)

variable {ι Loc V α β γ : Type}

namespace Prog

def bind : Prog ι Loc V α → (α → Prog ι Loc V β) → Prog ι Loc V β
  | ret a, f => f a
  | load loc next, f => load loc fun v => (next v).bind f
  | store loc v next, f => store loc v (next.bind f)
  | meet group x next, f => meet group x fun xs => (next xs).bind f

instance : Monad (Prog ι Loc V) where
  pure := ret
  bind := bind

/-- A thread that meets nobody. -/
def alone : Thread Loc V α → Prog ι Loc V α
  | .ret a => ret a
  | .load loc next => load loc fun v => alone (next v)
  | .store loc v next => store loc v (alone next)

@[simp] theorem pure_bind (a : α) (f : α → Prog ι Loc V β) : pure a >>= f = f a := rfl

@[simp] theorem meet_bind (group : Finset ι) (x : Option V) (next : (ι → Option V) → Prog ι Loc V α)
    (f : α → Prog ι Loc V β) : meet group x next >>= f = meet group x fun xs => next xs >>= f := rfl

theorem bind_assoc (p : Prog ι Loc V α) (f : α → Prog ι Loc V β) (g : β → Prog ι Loc V γ) :
    p >>= f >>= g = p >>= fun a => f a >>= g := by
  induction p with
  | ret a => rfl
  | load loc next ih => exact congrArg (load loc) (funext ih)
  | store loc v next ih => exact congrArg (store loc v) ih
  | meet group x next ih => exact congrArg (meet group x) (funext ih)

@[simp] theorem bind_pure (p : Prog ι Loc V α) : p >>= pure = p := by
  induction p with
  | ret a => rfl
  | load loc next ih => exact congrArg (load loc) (funext ih)
  | store loc v next ih => exact congrArg (store loc v) ih
  | meet group x next ih => exact congrArg (meet group x) (funext ih)

end Prog

/-! ### Steps -/

/-- The memory, and what is left of each thread. -/
structure World (ι Loc V : Type) where
  mem : Loc → V
  threads : ι → Prog ι Loc V Unit

/-- What a step does: one thread uses a place, or a group meets. -/
inductive Act (ι Loc : Type) : Type
  | access (t : ι) (loc : Loc) (write : Bool)
  | meet (group : Finset ι)

/-- The threads that move. -/
def Act.Moves (t : ι) : Act ι Loc → Prop
  | access u _ _ => t = u
  | meet group => t ∈ group

/-- Two threads use one place, and one of them writes it. -/
def Act.Conflict : Act ι Loc → Act ι Loc → Prop
  | access t loc w, access u loc' w' => t ≠ u ∧ loc = loc' ∧ (w = true ∨ w' = true)
  | _, _ => False

variable [DecidableEq ι] [DecidableEq Loc]

/-- What the threads of a group hand to each other. -/
def handed (group : Finset ι) (x : ι → Option V) (u : ι) : Option V :=
  if u ∈ group then x u else none

/-- The threads of the group go on, the others stay. -/
def resume (group : Finset ι) (next threads : ι → Prog ι Loc V Unit) (t : ι) :
    Prog ι Loc V Unit :=
  if t ∈ group then next t else threads t

section

omit [DecidableEq Loc]

variable {group : Finset ι} {next threads : ι → Prog ι Loc V Unit} {t : ι}

theorem resume_of_mem (ht : t ∈ group) : resume group next threads t = next t := if_pos ht

theorem resume_of_notMem (ht : t ∉ group) : resume group next threads t = threads t := if_neg ht

theorem resume_congr {next' threads' : ι → Prog ι Loc V Unit}
    (hin : ∀ t ∈ group, next t = next' t) (hout : ∀ t ∉ group, threads t = threads' t) :
    resume group next threads = resume group next' threads' := by
  funext t
  by_cases ht : t ∈ group
  · rw [resume_of_mem ht, resume_of_mem ht, hin t ht]
  · rw [resume_of_notMem ht, resume_of_notMem ht, hout t ht]

end

/-- A thread makes its next load or store, or a group meets of which all threads have come. -/
inductive Step : World ι Loc V → Act ι Loc → World ι Loc V → Prop
  | load {s : World ι Loc V} {t : ι} {loc : Loc} {next : V → Prog ι Loc V Unit} :
      s.threads t = .load loc next →
      Step s (.access t loc false) ⟨s.mem, Function.update s.threads t (next (s.mem loc))⟩
  | store {s : World ι Loc V} {t : ι} {loc : Loc} {v : V} {next : Prog ι Loc V Unit} :
      s.threads t = .store loc v next →
      Step s (.access t loc true)
        ⟨Function.update s.mem loc v, Function.update s.threads t next⟩
  | meet {s : World ι Loc V} {group : Finset ι} {x : ι → Option V}
      {next : ι → (ι → Option V) → Prog ι Loc V Unit} : group.Nonempty →
      (∀ t ∈ group, s.threads t = .meet group (x t) (next t)) →
      Step s (.meet group)
        ⟨s.mem, resume group (fun t => next t (handed group x)) s.threads⟩

/-- The step in which a thread with this program moves next. -/
def Prog.head (t : ι) : Prog ι Loc V Unit → Option (Act ι Loc)
  | ret _ => none
  | load loc _ => some (.access t loc false)
  | store loc _ _ => some (.access t loc true)
  | meet group _ _ => some (.meet group)

section

variable {s s' s'' : World ι Loc V} {a b : Act ι Loc}

theorem Step.exists_moves (h : Step s a s') : ∃ t, a.Moves t := by
  cases h with
  | @load t loc next ht => exact ⟨t, rfl⟩
  | @store t loc v next ht => exact ⟨t, rfl⟩
  | meet hne ht => exact hne

/-- The threads that move have all come to the step. -/
theorem Step.head (h : Step s a s') {t : ι} (ht : a.Moves t) : (s.threads t).head t = some a := by
  cases h with
  | load hu => rw [show t = _ from ht, hu, Prog.head]
  | store hu => rw [show t = _ from ht, hu, Prog.head]
  | meet hne hg => rw [hg t ht, Prog.head]

/-- The others stay where they are. -/
theorem Step.rest (h : Step s a s') {t : ι} (ht : ¬ a.Moves t) :
    s'.threads t = s.threads t := by
  cases h with
  | load hu => exact Function.update_of_ne ht _ _
  | store hu => exact Function.update_of_ne ht _ _
  | @meet group x next hne hg =>
    have hstay : resume group (fun t => next t (handed group x)) s.threads t = s.threads t :=
      resume_of_notMem ht
    exact hstay

/-- A step is known by what it does. -/
theorem Step.unique (h : Step s a s') (h' : Step s a s'') : s' = s'' := by
  cases h with
  | load hu =>
    cases h' with
    | load hu' =>
      obtain ⟨-, rfl⟩ := Prog.load.inj (hu.symm.trans hu')
      rfl
  | store hu =>
    cases h' with
    | store hu' =>
      obtain ⟨-, rfl, rfl⟩ := Prog.store.inj (hu.symm.trans hu')
      rfl
  | @meet group x next hne hg =>
    cases h' with
    | @meet _ x' next' hne' hg' =>
      have hsame : ∀ t ∈ group, x t = x' t ∧ next t = next' t := fun t ht =>
        (Prog.meet.inj ((hg t ht).symm.trans (hg' t ht))).2
      have hhanded : handed group x = handed group x' := by
        funext u
        rw [handed, handed]
        split_ifs with hu
        · exact (hsame u hu).1
        · rfl
      refine congrArg (World.mk s.mem) (resume_congr (fun t ht => ?_) fun _ _ => rfl)
      rw [(hsame t ht).2, hhanded]

/-- Two steps with a common thread are the same step. -/
theorem Step.same (h : Step s a s') (h' : Step s b s'') {t : ι} (ha : a.Moves t)
    (hb : b.Moves t) : a = b :=
  Option.some.inj ((h.head ha).symm.trans (h'.head hb))

end

/-- All threads have come to their ends. -/
def Done (s : World ι Loc V) : Prop := ∀ t, s.threads t = .ret ()

/-! ### Commuting steps -/

omit [DecidableEq Loc] in
theorem update_resume {group : Finset ι} {u : ι} (hu : u ∉ group)
    (next threads : ι → Prog ι Loc V Unit) (q : Prog ι Loc V Unit) :
    Function.update (resume group next threads) u q =
      resume group next (Function.update threads u q) := by
  funext t
  by_cases ht : t = u
  · rw [ht, Function.update_self, resume_of_notMem hu, Function.update_self]
  · rw [Function.update_of_ne ht, resume, resume, Function.update_of_ne ht]

omit [DecidableEq Loc] in
theorem resume_comm {group group' : Finset ι} (hdisj : ∀ t ∈ group', t ∉ group)
    (next next' threads : ι → Prog ι Loc V Unit) :
    resume group next (resume group' next' threads) =
      resume group' next' (resume group next threads) := by
  funext t
  by_cases ht : t ∈ group'
  · rw [resume_of_notMem (hdisj t ht), resume_of_mem ht, resume_of_mem ht]
  · rw [resume_of_notMem ht]
    exact congrArg (ite (t ∈ group) (next t)) (resume_of_notMem ht)

/-- A meeting and a step of other threads. -/
theorem Step.diamond_meet {s sa sb : World ι Loc V} {group : Finset ι} {b : Act ι Loc}
    (ha : Step s (.meet group) sa) (hb : Step s b sb) (hdisj : ∀ t ∈ group, ¬ b.Moves t) :
    ∃ s', Step sa b s' ∧ Step sb (.meet group) s' := by
  cases ha with
  | @meet _ x next hne hg =>
    have hstay : ∀ t ∈ group, sb.threads t = .meet group (x t) (next t) := fun t ht =>
      (hb.rest (hdisj t ht)).trans (hg t ht)
    refine ⟨_, ?_, .meet hne hstay⟩
    have hout : ∀ u ∉ group, resume group (fun t => next t (handed group x)) s.threads u =
        s.threads u := fun u hu => resume_of_notMem hu
    cases hb with
    | @load u loc next' hu =>
      have hmem : u ∉ group := fun h => hdisj u h rfl
      rw [← update_resume hmem]
      exact .load ((hout u hmem).trans hu)
    | @store u loc v next' hu =>
      have hmem : u ∉ group := fun h => hdisj u h rfl
      rw [← update_resume hmem]
      exact .store ((hout u hmem).trans hu)
    | @meet group' x' next' hne' hg' =>
      have hmem : ∀ t ∈ group', t ∉ group := fun t ht h => hdisj t h ht
      rw [resume_comm hmem]
      exact .meet hne' fun t ht => (hout t (hmem t ht)).trans (hg' t ht)

/-- Steps that share no thread and do not conflict can be made in either order. -/
theorem Step.diamond {s sa sb : World ι Loc V} {a b : Act ι Loc} (ha : Step s a sa)
    (hb : Step s b sb) (hdisj : ∀ t, a.Moves t → ¬ b.Moves t) (hfree : ¬ a.Conflict b) :
    ∃ s', Step sa b s' ∧ Step sb a s' := by
  cases ha with
  | @load t loc next ht =>
    cases hb with
    | @load u loc' next' hu =>
      have hne : t ≠ u := hdisj t rfl
      refine ⟨_, .load ((Function.update_of_ne hne.symm _ _).trans hu), ?_⟩
      rw [Function.update_comm hne]
      exact .load ((Function.update_of_ne hne _ _).trans ht)
    | @store u loc' v next' hu =>
      have hne : t ≠ u := hdisj t rfl
      have hloc : loc ≠ loc' := fun h => hfree ⟨hne, h, .inr rfl⟩
      refine ⟨_, .store ((Function.update_of_ne hne.symm _ _).trans hu), ?_⟩
      rw [Function.update_comm hne, ← Function.update_of_ne hloc v s.mem]
      exact .load ((Function.update_of_ne hne _ _).trans ht)
    | meet hne hg =>
      obtain ⟨s', h, h'⟩ := diamond_meet (.meet hne hg) (.load ht) fun u hu hm =>
        hdisj t rfl (hm ▸ hu)
      exact ⟨s', h', h⟩
  | @store t loc v next ht =>
    cases hb with
    | @load u loc' next' hu =>
      have hne : t ≠ u := hdisj t rfl
      have hloc : loc' ≠ loc := fun h => hfree ⟨hne, h.symm, .inl rfl⟩
      refine ⟨_, ?_, .store ((Function.update_of_ne hne _ _).trans ht)⟩
      rw [← Function.update_comm hne, ← Function.update_of_ne hloc v s.mem]
      exact .load ((Function.update_of_ne hne.symm _ _).trans hu)
    | @store u loc' v' next' hu =>
      have hne : t ≠ u := hdisj t rfl
      have hloc : loc ≠ loc' := fun h => hfree ⟨hne, h, .inl rfl⟩
      refine ⟨_, .store ((Function.update_of_ne hne.symm _ _).trans hu), ?_⟩
      rw [Function.update_comm hne, Function.update_comm hloc]
      exact .store ((Function.update_of_ne hne _ _).trans ht)
    | meet hne hg =>
      obtain ⟨s', h, h'⟩ := diamond_meet (.meet hne hg) (.store ht) fun u hu hm =>
        hdisj t rfl (hm ▸ hu)
      exact ⟨s', h', h⟩
  | meet hne hg => exact diamond_meet (.meet hne hg) hb hdisj

/-! ### Runs without a race -/

/-- What conflicts with `a` later on does so after a meeting of its thread with that of `a`. -/
def Ordered (a : Act ι Loc) (tr : List (Act ι Loc)) : Prop :=
  ∀ pre b post, tr = pre ++ b :: post → a.Conflict b →
    ∃ group, .meet group ∈ pre ∧ ∀ t, a.Moves t ∨ b.Moves t → t ∈ group

/-- The run has no data race. -/
def NoRace : List (Act ι Loc) → Prop
  | [] => True
  | a :: tr => Ordered a tr ∧ NoRace tr

omit [DecidableEq ι] [DecidableEq Loc] in
theorem Act.Conflict.exists_moves {a b : Act ι Loc} (h : a.Conflict b) : ∃ t, a.Moves t := by
  cases a with
  | access t loc w => exact ⟨t, rfl⟩
  | meet group => exact h.elim

omit [DecidableEq ι] [DecidableEq Loc] in
/-- A step that the thread of `a` has no part in is not needed to order it. -/
theorem Ordered.erase {a c : Act ι Loc} {pre post : List (Act ι Loc)}
    (h : Ordered a (pre ++ c :: post)) (hdisj : ∀ t, a.Moves t → ¬ c.Moves t) :
    Ordered a (pre ++ post) := by
  intro p b q hsplit hconf
  obtain ⟨t, ht⟩ := hconf.exists_moves
  rcases List.append_eq_append_iff.mp hsplit with ⟨m, rfl, rfl⟩ | ⟨m, rfl, hpost⟩
  · obtain ⟨group, hmem, hin⟩ := h (pre ++ c :: m) b q (by simp) hconf
    refine ⟨group, ?_, hin⟩
    have hne : Act.meet group ≠ c := fun heq => hdisj t ht (heq ▸ hin t (.inl ht))
    simp only [List.mem_append, List.mem_cons, hne, false_or] at hmem ⊢
    exact hmem
  · cases m with
    | nil =>
      obtain rfl : b :: q = post := hpost
      obtain ⟨group, hmem, hin⟩ := h (p ++ [c]) b q (by simp) hconf
      refine ⟨group, ?_, hin⟩
      have hne : Act.meet group ≠ c := fun heq => hdisj t ht (heq ▸ hin t (.inl ht))
      simpa only [List.mem_append, List.mem_singleton, hne, or_false] using hmem
    | cons d m =>
      obtain ⟨rfl, rfl⟩ := List.cons.inj hpost
      exact h p b (m ++ c :: post) (by simp) hconf

/-- The first step of some thread can be made at once. -/
theorem NoRace.front {a : Act ι Loc} {post : List (Act ι Loc)} {s' e : World ι Loc V} :
    ∀ {pre : List (Act ι Loc)} {s : World ι Loc V}, Run Step s (pre ++ a :: post) e →
      NoRace (pre ++ a :: post) → Step s a s' → (∀ b ∈ pre, ∀ t, b.Moves t → ¬ a.Moves t) →
      Run Step s' (pre ++ post) e ∧ NoRace (pre ++ post) := by
  intro pre
  induction pre generalizing s' with
  | nil =>
    intro s hrun hfree ha hdisj
    cases hrun with
    | cons hstep hrest => exact ⟨ha.unique hstep ▸ hrest, hfree.2⟩
  | cons b pre ih =>
    intro s hrun hfree ha hdisj
    cases hrun with
    | cons hstep hrest =>
      have hb : ∀ t, b.Moves t → ¬ a.Moves t := hdisj b List.mem_cons_self
      have hpre : ∀ c ∈ pre, ∀ t, c.Moves t → ¬ a.Moves t := fun c hc =>
        hdisj c (List.mem_cons_of_mem b hc)
      -- a conflict would need a meeting of the thread of `a` before its first step
      have hconf : ¬ b.Conflict a := by
        intro hconf
        obtain ⟨group, hmem, hin⟩ := hfree.1 pre a post rfl hconf
        obtain ⟨t, ht⟩ := ha.exists_moves
        exact hpre _ hmem t (hin t (.inr ht)) ht
      obtain ⟨s₁, hs, hs'⟩ := hstep.diamond ha hb hconf
      obtain ⟨hrun', hfree'⟩ := ih hrest hfree.2 hs hpre
      exact ⟨.cons hs' hrun', hfree.1.erase hb, hfree'⟩

/-- Threads at a step make it before anything else, if they come to their ends. -/
theorem exists_first {a : Act ι Loc} (hmoves : ∃ t, a.Moves t) {s e : World ι Loc V}
    {tr : List (Act ι Loc)} (hrun : Run Step s tr e) (hdone : Done e)
    (hhead : ∀ t, a.Moves t → (s.threads t).head t = some a) :
    ∃ pre post, tr = pre ++ a :: post ∧ ∀ b ∈ pre, ∀ t, b.Moves t → ¬ a.Moves t := by
  induction hrun with
  | nil s =>
    obtain ⟨t, ht⟩ := hmoves
    have hnone := hhead t ht
    rw [hdone t, Prog.head] at hnone
    cases hnone
  | @cons s s₁ e b tr hstep hrun ih =>
    by_cases hcommon : ∃ t, b.Moves t ∧ a.Moves t
    · obtain ⟨t, hb, ha⟩ := hcommon
      have hab : b = a := Option.some.inj ((hstep.head hb).symm.trans (hhead t ha))
      exact ⟨[], tr, hab ▸ rfl, fun c hc => absurd hc List.not_mem_nil⟩
    · have hdisj : ∀ t, b.Moves t → ¬ a.Moves t := fun t hb ha => hcommon ⟨t, hb, ha⟩
      have hhead₁ : ∀ t, a.Moves t → (s₁.threads t).head t = some a := fun t ht =>
        (congrArg (Prog.head t) (hstep.rest fun hb => hdisj t hb ht)).trans (hhead t ht)
      obtain ⟨pre, post, rfl, hpre⟩ := ih hdone hhead₁
      exact ⟨b :: pre, post, rfl, List.forall_mem_cons.mpr ⟨hdisj, hpre⟩⟩

/-- From wherever a run has come to, the threads can go on to the end of a race-free run; it
takes as many steps as are left of that run. -/
theorem NoRace.extend {s e : World ι Loc V} (hdone : Done e) {tr' : List (Act ι Loc)}
    {s' : World ι Loc V} (hrun' : Run Step s tr' s') :
    ∀ {tr : List (Act ι Loc)}, Run Step s tr e → NoRace tr →
      ∃ post, Run Step s' post e ∧ tr.length = tr'.length + post.length := by
  induction hrun' with
  | nil s =>
    intro tr hrun hfree
    exact ⟨tr, hrun, (Nat.zero_add _).symm⟩
  | @cons s s₁ s' a tr' hstep hrun' ih =>
    intro tr hrun hfree
    obtain ⟨pre, post, rfl, hpre⟩ :=
      exists_first hstep.exists_moves hrun hdone fun t ht => hstep.head ht
    obtain ⟨hrun₁, hfree₁⟩ := hfree.front hrun hstep hpre
    obtain ⟨rest, hrest, hlen⟩ := ih hrun₁ hfree₁
    refine ⟨rest, hrest, ?_⟩
    simp only [List.length_append, List.length_cons] at hlen ⊢
    omega

end RaceFree
