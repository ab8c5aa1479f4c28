import Mathlib.Data.Finset.Union
import ReflexLlm.Lib.RaceFree

/-! Race-free runs put together from the parts of the threads: one thread alone, one meeting,
parts side by side, and parts one after the other with or without a barrier between them. -/

namespace Launch.Thread

variable {Loc V α : Type}

/-- The thread may write the place. -/
def Writes (loc : Loc) : Thread Loc V α → Prop
  | ret _ => False
  | load _ next => ∃ v, (next v).Writes loc
  | store l _ next => l = loc ∨ next.Writes loc

theorem Writes.touches {loc : Loc} {p : Thread Loc V α} (h : p.Writes loc) : p.Touches loc := by
  induction p with
  | ret a => exact h
  | load l next ih => exact .inr (h.imp ih)
  | store l v next ih => exact h.imp id ih

theorem Stores.writes [Nonempty V] {loc : Loc} {p : Thread Loc V α} (h : p.Stores loc) :
    p.Writes loc := by
  induction p with
  | ret a => exact h
  | load l next ih => exact ⟨Classical.arbitrary V, ih _ (h _)⟩
  | store l v next ih => exact h.imp id ih

theorem Touches.of_bind {β : Type} {loc : Loc} {p : Thread Loc V α} {f : α → Thread Loc V β}
    (h : (p >>= f).Touches loc) : p.Touches loc ∨ ∃ a, (f a).Touches loc := by
  induction p with
  | ret a => exact .inr ⟨a, h⟩
  | load l next ih =>
    rcases h with h | ⟨v, h⟩
    · exact .inl (.inl h)
    · exact (ih v h).imp (fun h => .inr ⟨v, h⟩) id
  | store l v next ih =>
    rcases h with h | h
    · exact .inl (.inl h)
    · exact (ih h).imp .inr id

theorem Writes.of_bind {β : Type} {loc : Loc} {p : Thread Loc V α} {f : α → Thread Loc V β}
    (h : (p >>= f).Writes loc) : p.Writes loc ∨ ∃ a, (f a).Writes loc := by
  induction p with
  | ret a => exact .inr ⟨a, h⟩
  | load l next ih =>
    obtain ⟨v, h⟩ := h
    exact (ih v h).imp (fun h => ⟨v, h⟩) id
  | store l v next ih =>
    rcases h with h | h
    · exact .inl (.inl h)
    · exact (ih h).imp .inr id

variable [DecidableEq Loc]

/-- What is not written is left. -/
theorem run_unwritten {loc : Loc} {p : Thread Loc V α} (h : ¬ p.Writes loc) (m : Loc → V) :
    (p.run m).2 loc = m loc := by
  induction p generalizing m with
  | ret a => rfl
  | load l next ih => exact ih (m l) (fun hnext => h ⟨m l, hnext⟩) m
  | store l v next ih =>
    rw [run, ih fun hnext => h (.inr hnext)]
    exact Function.update_of_ne (fun heq => h (.inl heq.symm)) v m

/-- The value depends on the touched places only. -/
theorem run_fst_congr {p : Thread Loc V α} {m m' : Loc → V}
    (hm : ∀ loc, p.Touches loc → m loc = m' loc) : (p.run m).1 = (p.run m').1 := by
  induction p generalizing m m' with
  | ret a => rfl
  | load l next ih =>
    rw [run, run, hm l (.inl rfl)]
    exact ih (m' l) fun loc hloc => hm loc (.inr ⟨m' l, hloc⟩)
  | store l v next ih =>
    refine ih fun loc hloc => ?_
    by_cases heq : loc = l
    · rw [heq, Function.update_self, Function.update_self]
    · rw [Function.update_of_ne heq, Function.update_of_ne heq, hm loc (.inr hloc)]

end Launch.Thread

namespace RaceFree

open Launch Runs

variable {ι Loc V α β κ : Type} [DecidableEq ι] [DecidableEq Loc]

/-! ### Traces -/

section

variable {tr tr' : List (Act ι Loc)}

omit [DecidableEq ι] [DecidableEq Loc] in
theorem Ordered.append {a : Act ι Loc} (h : Ordered a tr)
    (h' : ∀ pre b post, tr' = pre ++ b :: post → a.Conflict b →
      ∃ group, .meet group ∈ tr ++ pre ∧ ∀ t, a.Moves t ∨ b.Moves t → t ∈ group) :
    Ordered a (tr ++ tr') := by
  intro pre b post hsplit hconf
  rcases List.append_eq_append_iff.mp hsplit with ⟨m, rfl, hm⟩ | ⟨m, rfl, hm⟩
  · exact h' m b post hm hconf
  · cases m with
    | nil =>
      obtain ⟨group, hmem, hin⟩ := h' [] b post hm.symm hconf
      exact ⟨group, by simpa using hmem, hin⟩
    | cons c m =>
      obtain ⟨rfl, rfl⟩ := List.cons.inj hm
      exact h pre b m rfl hconf

omit [DecidableEq ι] [DecidableEq Loc] in
/-- Runs one after the other, where what conflicts is ordered. -/
theorem NoRace.append (h : NoRace tr) (h' : NoRace tr')
    (hcross : ∀ mid a rest, tr = mid ++ a :: rest → ∀ pre b post, tr' = pre ++ b :: post →
      a.Conflict b → ∃ group, .meet group ∈ rest ++ pre ∧ ∀ t, a.Moves t ∨ b.Moves t → t ∈ group) :
    NoRace (tr ++ tr') := by
  induction tr with
  | nil => exact h'
  | cons a tr ih =>
    refine ⟨h.1.append (hcross [] a tr rfl), ih h.2 fun mid b rest hsplit => ?_⟩
    exact hcross (a :: mid) b rest (congrArg (a :: ·) hsplit)

end

/-! ### Phases -/

/-- Whether a thread may use a place, for a load or for a store. -/
abbrev Foot (ι Loc : Type) : Type := ι → Loc → Bool → Prop

/-- No place that a thread uses on one side is written by another thread on the other side. -/
def Foot.Apart (F F' : Foot ι Loc) : Prop :=
  ∀ ⦃t u : ι⦄ ⦃loc : Loc⦄ ⦃w w' : Bool⦄, F t loc w → F' u loc w' → t ≠ u → w = false ∧ w' = false

omit [DecidableEq Loc] in
theorem resume_resume (T : Finset ι) (next next' threads : ι → Prog ι Loc V Unit) :
    resume T next (resume T next' threads) = resume T next threads :=
  resume_congr (fun _ _ => rfl) fun _ ht => resume_of_notMem ht

/-- The run `tr` takes each thread through its part, from one memory to another; what comes after
the parts does not matter. -/
def Leads (T : Finset ι) (part : ι → Prog ι Loc V α) (m m' : Loc → V) (val : ι → α)
    (tr : List (Act ι Loc)) : Prop :=
  ∀ (k : ι → α → Prog ι Loc V Unit) (threads : ι → Prog ι Loc V Unit),
    (∀ t ∈ T, threads t = part t >>= k t) →
    Run Step ⟨m, threads⟩ tr ⟨m', resume T (fun t => k t (val t)) threads⟩

/-- The threads can go through their parts without a race, and use no more than their places. -/
def Phase (T : Finset ι) (part : ι → Prog ι Loc V α) (F : Foot ι Loc) (m m' : Loc → V)
    (val : ι → α) : Prop :=
  ∃ tr, NoRace tr ∧ (∀ t loc w, .access t loc w ∈ tr → t ∈ T ∧ F t loc w) ∧
    Leads T part m m' val tr

/-- All threads of the group wait for each other: `__syncthreads` for a block. -/
def barrier (T : Finset ι) : Prog ι Loc V Unit := .meet T none fun _ => .ret ()

section

variable {T T' : Finset ι} {part : ι → Prog ι Loc V α} {F F' : Foot ι Loc} {m m₁ m₂ : Loc → V}
variable {val : ι → α} {q : ι → α → Prog ι Loc V β} {val' : ι → β}

omit [DecidableEq ι] [DecidableEq Loc] in
theorem Act.Conflict.accesses {a b : Act ι Loc} (h : a.Conflict b) : ∃ t u loc w w',
    a = .access t loc w ∧ b = .access u loc w' ∧ t ≠ u ∧ (w = true ∨ w' = true) := by
  cases a with
  | meet group => exact h.elim
  | access t loc w =>
    cases b with
    | meet group => exact h.elim
    | access u loc' w' =>
      obtain ⟨hne, rfl, hw⟩ := h
      exact ⟨t, u, loc, w, w', rfl, rfl, hne, hw⟩

theorem Leads.bind {tr tr' : List (Act ι Loc)} (h : Leads T part m m₁ val tr)
    (h' : Leads T (fun t => q t (val t)) m₁ m₂ val' tr') :
    Leads T (fun t => part t >>= q t) m m₂ val' (tr ++ tr') := by
  intro k threads hk
  have hfirst := h (fun t a => q t a >>= k t) threads fun t ht => by
    rw [hk t ht, Prog.bind_assoc]
  have hgo : ∀ t ∈ T, resume T (fun t => q t (val t) >>= k t) threads t =
      q t (val t) >>= k t := fun t ht => resume_of_mem ht
  have hsecond := h' k _ hgo
  rw [resume_resume] at hsecond
  exact hfirst.append hsecond

theorem Leads.union {tr tr' : List (Act ι Loc)} (hdisj : Disjoint T T')
    (h : Leads T part m m₁ val tr) (h' : Leads T' part m₁ m₂ val tr') :
    Leads (T ∪ T') part m m₂ val (tr ++ tr') := by
  intro k threads hk
  have hfirst := h k threads fun t ht => hk t (Finset.mem_union_left T' ht)
  have hstay : ∀ t ∈ T', resume T (fun t => k t (val t)) threads t = part t >>= k t :=
    fun t ht => (resume_of_notMem (Finset.disjoint_right.mp hdisj ht)).trans
      (hk t (Finset.mem_union_right T ht))
  have hsecond := h' k _ hstay
  have hboth : resume T' (fun t => k t (val t)) (resume T (fun t => k t (val t)) threads) =
      resume (T ∪ T') (fun t => k t (val t)) threads := by
    funext t
    by_cases ht : t ∈ T'
    · rw [resume_of_mem ht, resume_of_mem (Finset.mem_union_right T ht)]
    · rw [resume_of_notMem ht, resume, resume]
      exact if_congr (by simp [ht]) rfl rfl
  rw [hboth] at hsecond
  exact hfirst.append hsecond

/-- A whole group meets, each thread with what it brings. -/
theorem Leads.meet (hT : T.Nonempty) (x : ι → Option V) (f : ι → (ι → Option V) → α)
    (m : Loc → V) : Leads T (fun t => .meet T (x t) fun xs => .ret (f t xs)) m m
      (fun t => f t (handed T x)) [.meet T] :=
  fun _ _ hk => .cons (.meet hT fun t ht => hk t ht) (.nil _)

theorem Phase.mono (h : Phase T part F m m₁ val) (hF : ∀ t loc w, F t loc w → F' t loc w) :
    Phase T part F' m m₁ val := by
  obtain ⟨tr, hfree, hfoot, hrun⟩ := h
  exact ⟨tr, hfree, fun t loc w hmem => (hfoot t loc w hmem).imp id (hF t loc w), hrun⟩

theorem Phase.congr {part' : ι → Prog ι Loc V α} {val₁ : ι → α} (h : Phase T part F m m₁ val)
    (hpart : ∀ t ∈ T, part' t = part t) (hval : ∀ t ∈ T, val t = val₁ t) :
    Phase T part' F m m₁ val₁ := by
  obtain ⟨tr, hfree, hfoot, hrun⟩ := h
  refine ⟨tr, hfree, hfoot, fun k threads hk => ?_⟩
  have hsame : resume T (fun t => k t (val₁ t)) threads = resume T (fun t => k t (val t)) threads :=
    resume_congr (fun t ht => by rw [hval t ht]) fun _ _ => rfl
  rw [hsame]
  exact hrun k threads fun t ht => by rw [hk t ht, hpart t ht]

/-- Nothing to do. -/
theorem Phase.pure (F : Foot ι Loc) (m : Loc → V) (val : ι → α) :
    Phase T (fun t => .ret (val t)) F m m val := by
  refine ⟨[], trivial, fun t loc w hmem => absurd hmem List.not_mem_nil, fun k threads hk => ?_⟩
  have hsame : resume T (fun t => k t (val t)) threads = threads := by
    funext t
    by_cases ht : t ∈ T
    · exact (resume_of_mem ht).trans (hk t ht).symm
    · exact resume_of_notMem ht
  rw [hsame]
  exact .nil _

theorem Phase.meet (hT : T.Nonempty) (x : ι → Option V) (f : ι → (ι → Option V) → α)
    (F : Foot ι Loc) (m : Loc → V) : Phase T (fun t => .meet T (x t) fun xs => .ret (f t xs)) F m m
      (fun t => f t (handed T x)) := by
  refine ⟨[.meet T], ⟨fun _ _ _ _ hconf => hconf.elim, trivial⟩, ?_, .meet hT x f m⟩
  intro t loc w hmem
  cases List.mem_singleton.mp hmem

/-- One part after the other, with no place between two threads. -/
theorem Phase.bind (h : Phase T part F m m₁ val)
    (h' : Phase T (fun t => q t (val t)) F m₁ m₂ val') (hF : F.Apart F) :
    Phase T (fun t => part t >>= q t) F m m₂ val' := by
  obtain ⟨tr, hfree, hfoot, hrun⟩ := h
  obtain ⟨tr', hfree', hfoot', hrun'⟩ := h'
  refine ⟨tr ++ tr', hfree.append hfree' ?_, ?_, hrun.bind hrun'⟩
  · rintro mid a rest rfl pre b post rfl hconf
    obtain ⟨t, u, loc, w, w', rfl, rfl, hne, hw⟩ := hconf.accesses
    obtain ⟨rfl, rfl⟩ := hF (hfoot t loc w (by simp)).2 (hfoot' u loc w' (by simp)).2 hne
    exact absurd hw (by decide)
  · intro t loc w hmem
    exact (List.mem_append.mp hmem).elim (hfoot t loc w) (hfoot' t loc w)

/-- One part after the other, with a barrier between them. -/
theorem Phase.barrier (hT : T.Nonempty) (h : Phase T part F m m₁ val)
    (h' : Phase T (fun t => q t (val t)) F m₁ m₂ val') :
    Phase T (fun t => part t >>= fun a => barrier T >>= fun _ => q t a) F m m₂ val' := by
  obtain ⟨tr, hfree, hfoot, hrun⟩ := h
  obtain ⟨tr', hfree', hfoot', hrun'⟩ := h'
  have hmeet : Leads T (fun _ => RaceFree.barrier T) m₁ m₁ (fun _ => ()) [.meet T] :=
    .meet hT (fun _ => none) (fun _ _ => ()) m₁
  refine ⟨tr ++ .meet T :: tr', hfree.append ⟨fun _ _ _ _ hconf => hconf.elim, hfree'⟩ ?_, ?_, ?_⟩
  · rintro mid a rest rfl pre b post hsplit hconf
    obtain ⟨t, u, loc, w, w', rfl, rfl, hne, hw⟩ := hconf.accesses
    cases pre with
    | nil => cases (List.cons.inj hsplit).1
    | cons c pre =>
      obtain ⟨rfl, rfl⟩ := List.cons.inj hsplit
      refine ⟨T, by simp, fun v hv => ?_⟩
      have ht : t ∈ T := (hfoot t loc w (by simp)).1
      have hu : u ∈ T := (hfoot' u loc w' (by simp)).1
      exact hv.elim (fun h => (show v = t from h) ▸ ht) fun h => (show v = u from h) ▸ hu
  · intro t loc w hmem
    have hmem' : Act.access t loc w ∈ tr ∨ Act.access t loc w ∈ tr' := by simpa using hmem
    exact hmem'.elim (hfoot t loc w) (hfoot' t loc w)
  · have hrest := Leads.bind (q := fun t _ => q t (val t)) hmeet hrun'
    exact Leads.bind (q := fun t a => RaceFree.barrier T >>= fun _ => q t a) hrun hrest

/-- Two groups side by side, with no place between them. -/
theorem Phase.union (hdisj : Disjoint T T') (h : Phase T part F m m₁ val)
    (h' : Phase T' part F m₁ m₂ val)
    (hF : ∀ t ∈ T, ∀ u ∈ T', ∀ loc w w', F t loc w → F u loc w' → w = false ∧ w' = false) :
    Phase (T ∪ T') part F m m₂ val := by
  obtain ⟨tr, hfree, hfoot, hrun⟩ := h
  obtain ⟨tr', hfree', hfoot', hrun'⟩ := h'
  refine ⟨tr ++ tr', hfree.append hfree' ?_, ?_, hrun.union hdisj hrun'⟩
  · rintro mid a rest rfl pre b post rfl hconf
    obtain ⟨t, u, loc, w, w', rfl, rfl, hne, hw⟩ := hconf.accesses
    obtain ⟨ht, hFt⟩ := hfoot t loc w (by simp)
    obtain ⟨hu, hFu⟩ := hfoot' u loc w' (by simp)
    obtain ⟨rfl, rfl⟩ := hF t ht u hu loc w w' hFt hFu
    exact absurd hw (by decide)
  · intro t loc w hmem
    rcases List.mem_append.mp hmem with hmem | hmem
    · exact (hfoot t loc w hmem).imp (Finset.mem_union_left T') id
    · exact (hfoot' t loc w hmem).imp (Finset.mem_union_right T) id

end

/-! ### Parts side by side -/

/-- Groups that each work on places of their own: whatever the others have done before, a group
finds its places as they were, and what it leaves there the others leave alone. -/
theorem Phase.parts [DecidableEq κ] {T : κ → Finset ι} {part : ι → Prog ι Loc V α} {F : Foot ι Loc}
    {val : ι → α} {uses writes : κ → Loc → Prop} {post : κ → (Loc → V) → Prop} {m : Loc → V}
    {K : Finset κ} (hT : ∀ k ∈ K, ∀ k' ∈ K, ∀ t, t ∈ T k → t ∈ T k' → k = k')
    (hwrites : ∀ k loc, writes k loc → uses k loc)
    (hsep : ∀ k ∈ K, ∀ k' ∈ K, ∀ loc, writes k loc → uses k' loc → k = k')
    (hfoot : ∀ k ∈ K, ∀ t ∈ T k, ∀ loc w, F t loc w → uses k loc ∧ (w = true → writes k loc))
    (hpost : ∀ k m₁ m₂, (∀ loc, writes k loc → m₂ loc = m₁ loc) → post k m₁ → post k m₂)
    (hpart : ∀ k ∈ K, ∀ m₁, (∀ loc, uses k loc → m₁ loc = m loc) →
      ∃ m₂, Phase (T k) part F m₁ m₂ val ∧ post k m₂ ∧ ∀ loc, ¬ writes k loc → m₂ loc = m₁ loc) :
    ∃ m', Phase (K.biUnion T) part F m m' val ∧ (∀ k ∈ K, post k m') ∧
      ∀ loc, (∀ k ∈ K, ¬ writes k loc) → m' loc = m loc := by
  induction K using Finset.induction_on with
  | empty => exact ⟨m, (Phase.pure F m val).congr (by simp) (by simp), by simp, by simp⟩
  | insert k K hk ih =>
    have hin : ∀ k' ∈ K, k' ∈ insert k K := fun k' hk' => Finset.mem_insert_of_mem hk'
    have hself : k ∈ insert k K := Finset.mem_insert_self k K
    have hne : ∀ k' ∈ K, k' ≠ k := fun k' hk' h => hk (h ▸ hk')
    obtain ⟨m₁, hphase₁, hpost₁, hrest₁⟩ := ih
      (fun a ha b hb => hT a (hin a ha) b (hin b hb))
      (fun a ha b hb => hsep a (hin a ha) b (hin b hb)) (fun a ha => hfoot a (hin a ha))
      fun a ha => hpart a (hin a ha)
    have hfind : ∀ loc, uses k loc → m₁ loc = m loc := fun loc hloc =>
      hrest₁ loc fun k' hk' hw => hne k' hk' (hsep k' (hin k' hk') k hself loc hw hloc)
    obtain ⟨m₂, hphase₂, hpost₂, hrest₂⟩ := hpart k hself m₁ hfind
    have hothers : ∀ t ∈ K.biUnion T, ∃ k' ∈ K, t ∈ T k' := fun t ht => Finset.mem_biUnion.mp ht
    refine ⟨m₂, ?_, ?_, ?_⟩
    · rw [Finset.biUnion_insert, Finset.union_comm]
      refine hphase₁.union (Finset.disjoint_left.mpr fun t ht htk => ?_) hphase₂ ?_
      · obtain ⟨k', hk', ht⟩ := hothers t ht
        exact hne k' hk' (hT k' (hin k' hk') k hself t ht htk)
      · intro t ht u hu loc w w' hFt hFu
        obtain ⟨k', hk', ht⟩ := hothers t ht
        obtain ⟨huse, hwrite⟩ := hfoot k' (hin k' hk') t ht loc w hFt
        obtain ⟨huse', hwrite'⟩ := hfoot k hself u hu loc w' hFu
        exact ⟨Bool.eq_false_iff.mpr fun h =>
            hne k' hk' (hsep k' (hin k' hk') k hself loc (hwrite h) huse'),
          Bool.eq_false_iff.mpr fun h =>
            hne k' hk' (hsep k hself k' (hin k' hk') loc (hwrite' h) huse).symm⟩
    · intro k' hk'
      rcases Finset.mem_insert.mp hk' with rfl | hk'
      · exact hpost₂
      · refine hpost k' m₁ m₂ (fun loc hloc => hrest₂ loc fun h => ?_) (hpost₁ k' hk')
        exact hne k' hk' (hsep k' (hin k' hk') k hself loc hloc (hwrites k loc h))
    · intro loc hloc
      rw [hrest₂ loc (hloc k hself)]
      exact hrest₁ loc fun k' hk' => hloc k' (hin k' hk')

/-! ### Threads on their own -/

/-- What threads may use that meet nobody. -/
def footOf (p : ι → Thread Loc V α) : Foot ι Loc := fun t loc w =>
  (p t).Touches loc ∧ (w = true → (p t).Writes loc)

omit [DecidableEq Loc] in
theorem resume_update {T : Finset ι} {t : ι} (ht : t ∈ T) (next threads : ι → Prog ι Loc V Unit)
    (q : Prog ι Loc V Unit) :
    resume T next (Function.update threads t q) = resume T next threads :=
  resume_congr (fun _ _ => rfl) fun u hu =>
    Function.update_of_ne (fun h : u = t => hu (h.symm ▸ ht)) _ _

/-- The run of a thread that meets nobody. -/
theorem exists_leads_alone (t : ι) (p : Thread Loc V α) : ∀ m : Loc → V,
    ∃ tr : List (Act ι Loc), (∀ a ∈ tr, ∃ loc w, a = .access t loc w ∧ p.Touches loc ∧
      (w = true → p.Writes loc)) ∧
      Leads {t} (fun _ => .alone p) m (p.run m).2 (fun _ => (p.run m).1) tr := by
  induction p with
  | ret a =>
    intro m
    refine ⟨[], by simp, fun k threads hk => ?_⟩
    have hsame : resume {t} (fun u => k u a) threads = threads := by
      funext u
      by_cases hu : u ∈ ({t} : Finset ι)
      · exact (resume_of_mem hu).trans (hk u hu).symm
      · exact resume_of_notMem hu
    have hnil : Run Step ⟨m, threads⟩ [] ⟨m, resume {t} (fun u => k u a) threads⟩ := by
      rw [hsame]
      exact .nil _
    exact hnil
  | load l next ih =>
    intro m
    obtain ⟨tr, htr, hrun⟩ := ih (m l) m
    refine ⟨.access t l false :: tr, fun a ha => ?_, fun k threads hk => ?_⟩
    · rcases List.mem_cons.mp ha with rfl | ha
      · exact ⟨l, false, rfl, .inl rfl, by simp⟩
      · obtain ⟨loc, w, rfl, htouch, hwrite⟩ := htr a ha
        exact ⟨loc, w, rfl, .inr ⟨_, htouch⟩, fun hw => ⟨_, hwrite hw⟩⟩
    · have hstep := Step.load (s := ⟨m, threads⟩) (hk t (Finset.mem_singleton_self t))
      refine .cons hstep ?_
      have hrest := hrun k (Function.update threads t _) fun u hu => by
        obtain rfl := Finset.mem_singleton.mp hu
        exact Function.update_self u _ threads
      rwa [resume_update (Finset.mem_singleton_self t)] at hrest
  | store l v next ih =>
    intro m
    obtain ⟨tr, htr, hrun⟩ := ih (Function.update m l v)
    refine ⟨.access t l true :: tr, fun a ha => ?_, fun k threads hk => ?_⟩
    · rcases List.mem_cons.mp ha with rfl | ha
      · exact ⟨l, true, rfl, .inl rfl, fun _ => .inl rfl⟩
      · obtain ⟨loc, w, rfl, htouch, hwrite⟩ := htr a ha
        exact ⟨loc, w, rfl, .inr htouch, fun hw => .inr (hwrite hw)⟩
    · have hstep := Step.store (s := ⟨m, threads⟩) (hk t (Finset.mem_singleton_self t))
      refine .cons hstep ?_
      have hrest := hrun k (Function.update threads t _) fun u hu => by
        obtain rfl := Finset.mem_singleton.mp hu
        exact Function.update_self u _ threads
      rwa [resume_update (Finset.mem_singleton_self t)] at hrest

omit [DecidableEq ι] [DecidableEq Loc] in
theorem NoRace.of_apart {tr : List (Act ι Loc)} (h : ∀ a ∈ tr, ∀ b ∈ tr, ¬ a.Conflict b) :
    NoRace tr := by
  induction tr with
  | nil => trivial
  | cons a tr ih =>
    refine ⟨fun pre b post hsplit hconf => absurd hconf ?_, ih fun b hb c hc => ?_⟩
    · exact h a List.mem_cons_self b (by simp [hsplit])
    · exact h b (List.mem_cons_of_mem a hb) c (List.mem_cons_of_mem a hc)

theorem Phase.single (p : ι → Thread Loc V α) (t : ι) (m : Loc → V) :
    Phase {t} (fun u => .alone (p u)) (footOf p) m ((p t).run m).2 (fun u => ((p u).run m).1) := by
  obtain ⟨tr, htr, hrun⟩ := exists_leads_alone t (p t) m
  have hphase : Phase {t} (fun _ => .alone (p t)) (footOf p) m ((p t).run m).2
      (fun _ => ((p t).run m).1) := by
    refine ⟨tr, .of_apart fun a ha b hb hconf => ?_, fun u loc w hmem => ?_, hrun⟩
    · obtain ⟨loc, w, rfl, -⟩ := htr a ha
      obtain ⟨loc', w', rfl, -⟩ := htr b hb
      exact hconf.1 rfl
    · obtain ⟨loc', w', heq, huse⟩ := htr _ hmem
      obtain ⟨rfl, rfl, rfl⟩ := Act.access.inj heq
      exact ⟨Finset.mem_singleton_self u, huse⟩
  refine hphase.congr (fun u hu => ?_) fun u hu => ?_
  · rw [Finset.mem_singleton.mp hu]
  · rw [Finset.mem_singleton.mp hu]

/-- Threads that meet nobody, none of which writes what another uses. -/
theorem Phase.alone {p : ι → Thread Loc V α} {T : Finset ι}
    (hsep : ∀ t ∈ T, ∀ u ∈ T, ∀ loc, (p t).Writes loc → (p u).Touches loc → t = u) (m : Loc → V) :
    ∃ m', Phase T (fun t => .alone (p t)) (footOf p) m m' (fun t => ((p t).run m).1) ∧
      (∀ t ∈ T, ∀ loc, (p t).Writes loc → m' loc = ((p t).run m).2 loc) ∧
      ∀ loc, (∀ t ∈ T, ¬ (p t).Writes loc) → m' loc = m loc := by
  have hparts : ∃ m', Phase (T.biUnion fun t => {t}) (fun t => .alone (p t)) (footOf p) m m'
      (fun t => ((p t).run m).1) ∧ (∀ t ∈ T, ∀ loc, (p t).Writes loc → m' loc = ((p t).run m).2 loc) ∧
      ∀ loc, (∀ t ∈ T, ¬ (p t).Writes loc) → m' loc = m loc := by
    refine Phase.parts ?_ (fun t loc hw => hw.touches) hsep ?_ ?_ fun t ht m₁ hm => ?_
    · exact fun t _ u _ v ht hu =>
        (Finset.mem_singleton.mp ht).symm.trans (Finset.mem_singleton.mp hu)
    · exact fun t _ u hu loc w hF => Finset.mem_singleton.mp hu ▸ hF
    · exact fun t m₁ m₂ hsame hpost loc hw => (hsame loc hw).trans (hpost loc hw)
    · have hval := Thread.run_fst_congr hm
      have hmem := Thread.run_congr (fun loc h => h) hm
      refine ⟨_, (Phase.single p t m₁).congr (fun _ _ => rfl) fun u hu => ?_, fun loc hw => ?_,
        fun loc hw => Thread.run_unwritten hw m₁⟩
      · rw [Finset.mem_singleton.mp hu, hval]
      · exact hmem loc hw.touches
  rwa [Finset.biUnion_singleton_eq_self] at hparts

/-! ### Whole launches -/

/-- Every schedule comes to its end with this memory: from wherever it is it can be continued
to there, and no schedule is longer than another. -/
def Settles (threads : ι → Prog ι Loc V Unit) (m m' : Loc → V) : Prop :=
  ∃ n, ∀ tr s, Run Step ⟨m, threads⟩ tr s →
    ∃ post, Run Step s post ⟨m', fun _ => .ret ()⟩ ∧ n = tr.length + post.length

theorem Phase.settles {T : Finset ι} {threads : ι → Prog ι Loc V Unit} {F : Foot ι Loc}
    {m m' : Loc → V} {val : ι → Unit} (h : Phase T threads F m m' val)
    (hrest : ∀ t ∉ T, threads t = .ret ()) : Settles threads m m' := by
  obtain ⟨tr, hfree, -, hrun⟩ := h
  have hend : resume T (fun _ => .ret ()) threads = fun _ => .ret () := by
    funext t
    by_cases ht : t ∈ T
    · exact resume_of_mem ht
    · exact (resume_of_notMem ht).trans (hrest t ht)
  have hall := hrun (fun _ a => .ret a) threads fun t _ => (Prog.bind_pure (threads t)).symm
  rw [hend] at hall
  exact ⟨tr.length, fun tr' s hrun' => NoRace.extend (fun _ => rfl) hrun' hall hfree⟩

section

variable {threads : ι → Prog ι Loc V Unit} {m m' : Loc → V}

theorem Settles.mem_eq (h : Settles threads m m') {tr : List (Act ι Loc)} {m₁ : Loc → V}
    (hrun : Run Step ⟨m, threads⟩ tr ⟨m₁, fun _ => .ret ()⟩) : m₁ = m' := by
  obtain ⟨n, hall⟩ := h
  obtain ⟨post, hpost, -⟩ := hall tr _ hrun
  cases hpost with
  | nil s => rfl
  | cons hstep _ =>
    obtain ⟨t, ht⟩ := hstep.exists_moves
    cases hstep.head ht

theorem Settles.unique {m'' : Loc → V} (h : Settles threads m m') (h' : Settles threads m m'') :
    m' = m'' := by
  obtain ⟨n, hall⟩ := h
  obtain ⟨post, hpost, -⟩ := hall [] _ (.nil _)
  exact h'.mem_eq hpost

end

end RaceFree
