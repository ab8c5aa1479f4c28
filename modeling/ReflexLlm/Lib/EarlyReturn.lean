import Mathlib.Init

/-! Programs on a state that may return before their end, and the rules of their pre- and
postconditions. What such a program has returned early is its error; a program that goes on has
a value. -/

namespace EarlyReturn

/-- A program on `σ` that may return an `ε` before its end. -/
abbrev Prog (σ ε α : Type) := ExceptT ε (StateM σ) α

variable {σ ε α β : Type}

/-- The run of a program from a state. -/
def Prog.exec (x : Prog σ ε α) (s : σ) : Except ε α × σ := x.run.run s

@[simp] theorem exec_pure (a : α) (s : σ) : (pure a : Prog σ ε α).exec s = (.ok a, s) := rfl

@[simp] theorem exec_throw (e : ε) (s : σ) : (throw e : Prog σ ε α).exec s = (.error e, s) := rfl

@[simp] theorem exec_get (s : σ) : (get : Prog σ ε σ).exec s = (.ok s, s) := rfl

@[simp] theorem exec_modify (f : σ → σ) (s : σ) :
    (modify f : Prog σ ε Unit).exec s = (.ok (), f s) := rfl

@[simp] theorem exec_modifyGet (f : σ → α × σ) (s : σ) :
    (modifyGet f : Prog σ ε α).exec s = (.ok (f s).1, (f s).2) := rfl

theorem exec_bind (x : Prog σ ε α) (f : α → Prog σ ε β) (s : σ) :
    (x >>= f).exec s =
      match x.exec s with
      | (.ok a, s') => (f a).exec s'
      | (.error e, s') => (.error e, s') := by
  rw [Prog.exec, Prog.exec, ExceptT.run_bind, StateT.run_bind]
  obtain ⟨e | a, s'⟩ := x.run.run s <;> rfl

theorem exists_of_isOk {x : Prog σ ε α} {s : σ} (h : (x.exec s).1.isOk = true) :
    ∃ a s', x.exec s = (.ok a, s') := by
  rcases hx : x.exec s with ⟨e | a, s'⟩
  · rw [hx] at h
    cases h
  · exact ⟨a, s', rfl⟩

/-- `if (c) return e;` -/
def returnIf (c : Prop) [Decidable c] (e : ε) : Prog σ ε Unit := if c then throw e else pure ()

theorem exec_returnIf (c : Prop) [Decidable c] (e : ε) (s : σ) :
    (returnIf c e : Prog σ ε Unit).exec s = if c then (.error e, s) else (.ok (), s) := by
  rw [returnIf]
  split <;> rfl

/-- Where a run that goes on has its value and its state, and one that has returned what it
returned. -/
def Ends (Q : α → σ → Prop) (R : ε → σ → Prop) : Except ε α × σ → Prop
  | (.ok a, s) => Q a s
  | (.error e, s) => R e s

/-- From `P` the program goes on in `Q`, or it has returned in `R`. -/
structure Triple (P : σ → Prop) (x : Prog σ ε α) (Q : α → σ → Prop) (R : ε → σ → Prop) : Prop where
  ends : ∀ s, P s → Ends Q R (x.exec s)

variable {P P' : σ → Prop} {x : Prog σ ε α} {Q Q' : α → σ → Prop} {R R' : ε → σ → Prop}

/-- A run by the name of what it ends with. -/
theorem Triple.run (h : Triple P x Q R) {s : σ} (hs : P s) {r : Except ε α × σ}
    (hr : x.exec s = r) : Ends Q R r := hr ▸ h.ends s hs

theorem Triple.pure {a : α} (h : ∀ s, P s → Q a s) : Triple P (pure a) Q R := ⟨h⟩

theorem Triple.throw {e : ε} (h : ∀ s, P s → R e s) : Triple P (throw e) Q R := ⟨h⟩

theorem Triple.returnIf {c : Prop} [Decidable c] {e : ε} (h : ∀ s, P s → c → R e s) :
    Triple P (returnIf c e) (fun _ s => P s ∧ ¬c) R := by
  refine ⟨fun s hP => ?_⟩
  rw [exec_returnIf]
  split
  · exact h s hP ‹_›
  · exact ⟨hP, ‹_›⟩

theorem Triple.get : Triple P get (fun a s => s = a ∧ P s) R := ⟨fun _ hP => ⟨rfl, hP⟩⟩

theorem Triple.modify {f : σ → σ} {Q : Unit → σ → Prop} (h : ∀ s, P s → Q () (f s)) :
    Triple P (modify f) Q R := ⟨h⟩

/-- One program after the other. -/
theorem Triple.bind {f : α → Prog σ ε β} {M : α → σ → Prop} {Q : β → σ → Prop}
    (hx : Triple P x M R) (hf : ∀ a, Triple (M a) (f a) Q R) : Triple P (x >>= f) Q R := by
  refine ⟨fun s hP => ?_⟩
  have hends := hx.ends s hP
  rw [exec_bind]
  generalize x.exec s = r at hends
  obtain ⟨e | a, s'⟩ := r
  · exact hends
  · exact (hf a).ends s' hends

theorem Triple.conseq (h : Triple P x Q R) (hP : ∀ s, P' s → P s) (hQ : ∀ a s, Q a s → Q' a s)
    (hR : ∀ e s, R e s → R' e s) : Triple P' x Q' R' := by
  refine ⟨fun s hs => ?_⟩
  have hends := h.ends s (hP s hs)
  generalize x.exec s = r at hends
  obtain ⟨e | a, s'⟩ := r
  · exact hR e s' hends
  · exact hQ a s' hends

/-- A weaker start. -/
theorem Triple.pre (h : Triple P x Q R) (hP : ∀ s, P' s → P s) : Triple P' x Q R :=
  h.conseq hP (fun _ _ => id) fun _ _ => id

theorem Triple.and (h : Triple P x Q R) (h' : Triple P x Q' R) :
    Triple P x (fun a s => Q a s ∧ Q' a s) R := by
  refine ⟨fun s hP => ?_⟩
  have hends := h.ends s hP
  have hends' := h'.ends s hP
  generalize x.exec s = r at hends hends'
  obtain ⟨e | a, s'⟩ := r
  · exact hends
  · exact ⟨hends, hends'⟩

/-- Every program ends in some way. -/
theorem Triple.any : Triple P x (fun _ _ => True) fun _ _ => True := by
  refine ⟨fun s _ => ?_⟩
  obtain ⟨e | a, s'⟩ := x.exec s <;> trivial

/-- What is proved of each start by itself. -/
theorem Triple.remember {Q : σ → α → σ → Prop}
    (h : ∀ s₀, P s₀ → Triple (fun s => s = s₀) x (Q s₀) R) :
    Triple P x (fun a s => ∃ s₀, P s₀ ∧ Q s₀ a s) R := by
  refine ⟨fun s hP => ?_⟩
  have hends : Triple (fun s' => s' = s) x (fun a s' => ∃ s₀, P s₀ ∧ Q s₀ a s') R :=
    (h s hP).conseq (fun _ => id) (fun _ _ hQ => ⟨s, hP, hQ⟩) fun _ _ => id
  exact hends.ends s rfl

end EarlyReturn
