/-! Runs of a labelled step relation. -/

namespace Runs

variable {S E : Type _} {step : S → E → S → Prop}

/-- A run with the labels of its steps. -/
inductive Run (step : S → E → S → Prop) : S → List E → S → Prop
  | nil (s : S) : Run step s [] s
  | cons {s s' s'' : S} {e : E} {es : List E} :
      step s e s' → Run step s' es s'' → Run step s (e :: es) s''

/-- A run of a stronger step relation. -/
theorem Run.mono {step' : S → E → S → Prop} (h : ∀ s e s', step s e s' → step' s e s') {s s' : S}
    {es : List E} (hrun : Run step s es s') : Run step' s es s' := by
  induction hrun with
  | nil s => exact .nil s
  | cons hstep _ ih => exact .cons (h _ _ _ hstep) ih

theorem Run.append {s s' s'' : S} {es es' : List E} (h : Run step s es s')
    (h' : Run step s' es' s'') : Run step s (es ++ es') s'' := by
  induction h with
  | nil s => exact h'
  | cons hstep _ ih => exact .cons hstep (ih h')

/-- The labels one after the other, where each step is a partial function. -/
def exec (next : S → E → Option S) : S → List E → Option S
  | s, [] => some s
  | s, e :: es => (next s e).bind fun s' => exec next s' es

theorem exec_append (next : S → E → Option S) (s : S) (es es' : List E) :
    exec next s (es ++ es') = (exec next s es).bind fun t => exec next t es' := by
  induction es generalizing s with
  | nil => rfl
  | cons e es ih =>
    rw [List.cons_append, exec, exec, Option.bind_assoc]
    exact congrArg _ (funext ih)

theorem Run.of_exec {next : S → E → Option S} {s s' : S} {es : List E}
    (h : exec next s es = some s') : Run (fun s e s' => next s e = some s') s es s' := by
  induction es generalizing s with
  | nil =>
    obtain rfl := Option.some.inj h
    exact .nil s
  | cons e es ih =>
    obtain ⟨s₁, hstep, hrest⟩ := Option.bind_eq_some_iff.mp h
    exact .cons hstep (ih hrest)

/-- What every step keeps of the state and says about its label holds along runs. -/
theorem Run.induct {inv : S → Prop} {good : E → Prop}
    (h : ∀ s e s', inv s → step s e s' → inv s' ∧ good e) {s s' : S} {es : List E}
    (hrun : Run step s es s') (hs : inv s) : inv s' ∧ ∀ e ∈ es, good e := by
  induction hrun with
  | nil s => exact ⟨hs, fun e he => absurd he List.not_mem_nil⟩
  | cons hstep _ ih =>
    obtain ⟨hinv, hgood⟩ := h _ _ _ hs hstep
    obtain ⟨hinv', hgoods⟩ := ih hinv
    refine ⟨hinv', fun e he => ?_⟩
    rcases List.mem_cons.mp he with rfl | he
    · exact hgood
    · exact hgoods e he

/-- A state invariant kept by every step holds after every run. -/
theorem Run.invariant {inv : S → Prop} (h : ∀ s e s', inv s → step s e s' → inv s')
    {s s' : S} {es : List E} (hrun : Run step s es s') (hs : inv s) : inv s' :=
  have hboth : ∀ s e s', inv s → step s e s' → inv s' ∧ True :=
    fun s e s' hs hstep => ⟨h s e s' hs hstep, trivial⟩
  (hrun.induct hboth hs).1

/-- The same for runs whose labels meet an assumption. -/
theorem Run.invariant_on {inv : S → Prop} {ok : E → Prop}
    (h : ∀ s e s', inv s → ok e → step s e s' → inv s') {s s' : S} {es : List E}
    (hrun : Run step s es s') (hok : ∀ e ∈ es, ok e) (hs : inv s) : inv s' := by
  induction hrun with
  | nil s => exact hs
  | cons hstep _ ih =>
    exact ih (fun e he => hok e (List.mem_cons_of_mem _ he))
      (h _ _ _ hs (hok _ List.mem_cons_self) hstep)

end Runs
