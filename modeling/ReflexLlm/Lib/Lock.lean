import Mathlib.Data.List.Nodup
import Mathlib.Logic.Function.Basic
import ReflexLlm.Lib.Runs

/-! Clients that share a state behind one lock. However their steps interleave, each is answered
as if the clients had the state one after the other, in the order in which they took the lock. -/

namespace Lock

open Runs

/-- What a client does while it has the lock. -/
inductive Task (σ ρ : Type) : Type
  | done (r : ρ)
  /-- It never gives the lock back. -/
  | stuck
  | step (write : σ → σ) (next : σ → Task σ ρ)

/-- What a client does. -/
inductive Call (σ ρ : Type) : Type
  /-- It is answered without the lock. -/
  | answer (r : ρ)
  | locked (t : Task σ ρ)

variable {σ τ ρ ρ' ι : Type}

namespace Task

/-- A step that reads and writes the state. -/
def act (f : σ → σ × Task σ ρ) : Task σ ρ := .step (fun s => (f s).1) fun s => (f s).2

/-- The task on its own. -/
def run : Task σ ρ → σ → Option (ρ × σ)
  | done r, s => some (r, s)
  | stuck, _ => none
  | step write next, s => (next s).run (write s)

/-- The same through a view of the state. -/
def runView (view : σ → τ) (t : Task σ ρ) (s : σ) : Option (ρ × τ) :=
  (t.run s).map (Prod.map id view)

def bind : Task σ ρ → (ρ → Task σ ρ') → Task σ ρ'
  | done r, f => f r
  | stuck, _ => stuck
  | step write next, f => step write fun s => (next s).bind f

variable (view : σ → τ)

@[simp] theorem runView_done (r : ρ) (s : σ) : (done r).runView view s = some (r, view s) := rfl

@[simp] theorem runView_stuck (s : σ) : (stuck : Task σ ρ).runView view s = none := rfl

@[simp] theorem runView_act (f : σ → σ × Task σ ρ) (s : σ) :
    (act f).runView view s = (f s).2.runView view (f s).1 := rfl

variable {view} in
/-- A task that goes on with a change that the view does not show. -/
theorem runView_bind {t : Task σ ρ} {f : ρ → Task σ ρ'} {g : ρ → ρ'} (s : σ)
    (h : ∀ r s, (f r).runView view s = some (g r, view s)) :
    (t.bind f).runView view s = (t.runView view s).map (Prod.map g id) := by
  induction t generalizing s with
  | done r => exact h r s
  | stuck => rfl
  | step write next ih => exact ih s (write s)

end Task

/-! ### Steps -/

/-- Where a client is. -/
inductive Phase (σ ρ : Type) : Type
  | away
  | waiting
  /-- It has the lock, and the task is what it still has to do. -/
  | running (t : Task σ ρ)
  | answered (r : ρ)

/-- The state, the clients, and who has taken the lock so far. -/
structure World (σ ρ ι : Type) where
  shared : σ
  phase : ι → Phase σ ρ
  holder : Option ι
  order : List ι

/-- Nobody has come yet. -/
def World.start (s : σ) : World σ ρ ι := ⟨s, fun _ => .away, none, []⟩

variable [DecidableEq ι]

def World.set (w : World σ ρ ι) (i : ι) (p : Phase σ ρ) : World σ ρ ι :=
  { w with phase := Function.update w.phase i p }

/-- One step of one client. -/
inductive Step (calls : ι → Call σ ρ) : World σ ρ ι → ι → World σ ρ ι → Prop
  | refuse {w : World σ ρ ι} {i : ι} {r : ρ} (haway : w.phase i = .away)
      (hcall : calls i = .answer r) : Step calls w i (w.set i (.answered r))
  | arrive {w : World σ ρ ι} {i : ι} {t : Task σ ρ} (haway : w.phase i = .away)
      (hcall : calls i = .locked t) : Step calls w i (w.set i .waiting)
  | acquire {w : World σ ρ ι} {i : ι} {t : Task σ ρ} (hwaits : w.phase i = .waiting)
      (hcall : calls i = .locked t) (hfree : w.holder = none) :
      Step calls w i { w.set i (.running t) with holder := some i, order := w.order ++ [i] }
  | work {w : World σ ρ ι} {i : ι} {write : σ → σ} {next : σ → Task σ ρ}
      (hruns : w.phase i = .running (.step write next)) :
      Step calls w i { w.set i (.running (next w.shared)) with shared := write w.shared }
  | release {w : World σ ρ ι} {i : ι} {r : ρ} (hruns : w.phase i = .running (.done r)) :
      Step calls w i { w.set i (.answered r) with holder := none }

@[simp] theorem World.set_phase (w : World σ ρ ι) (i : ι) (p : Phase σ ρ) :
    (w.set i p).phase i = p := Function.update_self ..

theorem World.set_phase_ne (w : World σ ρ ι) {i j : ι} (p : Phase σ ρ) (h : j ≠ i) :
    (w.set i p).phase j = w.phase j := Function.update_of_ne h ..

/-- A phase after a move is the one moved to or an old one. -/
theorem World.of_set_phase {w : World σ ρ ι} {i j : ι} {p q : Phase σ ρ}
    (h : (w.set i p).phase j = q) : (j = i ∧ p = q) ∨ (j ≠ i ∧ w.phase j = q) := by
  by_cases hji : j = i
  · subst hji
    exact .inl ⟨rfl, (w.set_phase j p).symm.trans h⟩
  · exact .inr ⟨hji, (w.set_phase_ne p hji).symm.trans h⟩

@[simp] theorem World.set_shared (w : World σ ρ ι) (i : ι) (p : Phase σ ρ) :
    (w.set i p).shared = w.shared := rfl

@[simp] theorem World.set_holder (w : World σ ρ ι) (i : ι) (p : Phase σ ρ) :
    (w.set i p).holder = w.holder := rfl

@[simp] theorem World.set_order (w : World σ ρ ι) (i : ι) (p : Phase σ ρ) :
    (w.set i p).order = w.order := rfl

/-! ### One after the other -/

/-- The operations of some clients one after the other, with their answers. -/
def serial (op : ι → τ → Option (ρ × τ)) : List ι → τ → Option (List (ι × ρ) × τ)
  | [], s => some ([], s)
  | i :: is, s => (op i s).bind fun r =>
      (serial op is r.2).map fun rest => ((i, r.1) :: rest.1, rest.2)

omit [DecidableEq ι] in
theorem serial_concat {op : ι → τ → Option (ρ × τ)} {is : List ι} {s s' s'' : τ}
    {answers : List (ι × ρ)} {i : ι} {r : ρ} (h : serial op is s = some (answers, s'))
    (hop : op i s' = some (r, s'')) :
    serial op (is ++ [i]) s = some (answers ++ [(i, r)], s'') := by
  induction is generalizing s answers with
  | nil =>
    obtain ⟨rfl, rfl⟩ := Prod.mk.inj (Option.some.inj h)
    simp only [List.nil_append, serial, hop, Option.bind_some, Option.map_some]
  | cons j is ih =>
    obtain ⟨r', hr', hrest⟩ := Option.bind_eq_some_iff.mp h
    obtain ⟨rest, hserial, heq⟩ := Option.map_eq_some_iff.mp hrest
    obtain ⟨rfl, rfl⟩ := Prod.mk.inj heq
    simp only [List.cons_append, serial, hr', Option.bind_some, ih hserial, Option.map_some]

/-- Each task of a client, seen through the view, is its operation. -/
def Refines (view : σ → τ) (calls : ι → Call σ ρ) (op : ι → τ → Option (ρ × τ)) : Prop :=
  ∀ i t, calls i = .locked t → ∀ s, t.runView view s = op i (view s)

/-- The client has been answered with the lock, or is about to be. -/
def Phase.Served : Phase σ ρ → Prop
  | .away | .waiting => False
  | .running _ | .answered _ => True

/-- Who had the lock before its holder, if any, was answered as in a serial run, and the holder is
on its way there. -/
structure Serialized (view : σ → τ) (calls : ι → Call σ ρ) (op : ι → τ → Option (ρ × τ)) (s₀ : σ)
    (w : World σ ρ ι) (before : List ι) (answers : List (ι × ρ)) (s : τ) : Prop where
  serial : serial op before (view s₀) = some (answers, s)
  order : w.order = before ++ w.holder.toList
  nodup : w.order.Nodup
  served : ∀ i ∈ w.order, (w.phase i).Served
  free : w.holder = none → view w.shared = s
  waiting : ∀ i, w.phase i = .waiting → ∃ t, calls i = .locked t
  running : ∀ i t, w.phase i = .running t → w.holder = some i
  held : ∀ i, w.holder = some i →
    ∃ t, w.phase i = .running t ∧ t.runView view w.shared = op i s
  answered : ∀ i r, w.phase i = .answered r → calls i = .answer r ∨ (i, r) ∈ answers

section

variable {view : σ → τ} {calls : ι → Call σ ρ} {op : ι → τ → Option (ρ × τ)} {s₀ : σ}
  {w w' : World σ ρ ι} {before : List ι} {answers : List (ι × ρ)} {s : τ} {i : ι}

theorem served_set {p : Phase σ ρ} (hp : p.Served) (h : ∀ j ∈ w.order, (w.phase j).Served) :
    ∀ j ∈ w.order ++ [i], ((w.set i p).phase j).Served := by
  intro j hj
  by_cases hji : j = i
  · subst hji
    exact (w.set_phase j p).symm ▸ hp
  · have hmem := (List.mem_append.mp hj).resolve_right fun hj => hji (List.mem_singleton.mp hj)
    exact (w.set_phase_ne p hji).symm ▸ h j hmem

omit [DecidableEq ι] in
theorem Serialized.start (s₀ : σ) :
    Serialized view calls op s₀ (World.start s₀) [] [] (view s₀) where
  serial := rfl
  order := rfl
  nodup := List.nodup_nil
  served _ h := absurd h List.not_mem_nil
  free _ := rfl
  waiting _ h := nomatch h
  running _ _ h := nomatch h
  held _ h := nomatch h
  answered _ _ h := nomatch h

theorem Serialized.waiting_set (h : Serialized view calls op s₀ w before answers s) {p : Phase σ ρ}
    (hp : p ≠ .waiting) (j : ι) (hj : (w.set i p).phase j = .waiting) :
    ∃ t, calls j = .locked t := by
  rcases World.of_set_phase hj with ⟨rfl, hwaits⟩ | ⟨hji, hj⟩
  · exact absurd hwaits hp
  · exact h.waiting j hj

theorem Serialized.answered_set (h : Serialized view calls op s₀ w before answers s)
    {p : Phase σ ρ} (hp : ∀ r, p ≠ .answered r) (j : ι) (r : ρ)
    (hj : (w.set i p).phase j = .answered r) : calls j = .answer r ∨ (j, r) ∈ answers := by
  rcases World.of_set_phase hj with ⟨rfl, hanswered⟩ | ⟨hji, hj⟩
  · exact absurd hanswered (hp r)
  · exact h.answered j r hj

/-- A client that has not had the lock moves without it. -/
theorem Serialized.aside (h : Serialized view calls op s₀ w before answers s) {p : Phase σ ρ}
    (hout : ¬ (w.phase i).Served) (hwaiting : p = .waiting → ∃ t, calls i = .locked t)
    (hruns : ∀ t, p ≠ .running t) (hanswered : ∀ r, p = .answered r → calls i = .answer r) :
    Serialized view calls op s₀ (w.set i p) before answers s where
  serial := h.serial
  order := h.order
  nodup := h.nodup
  served j hj := by
    have hji : j ≠ i := fun heq => hout (heq ▸ h.served j hj)
    rw [World.set_phase_ne w p hji]
    exact h.served j hj
  free := h.free
  waiting j hj := by
    rcases World.of_set_phase hj with ⟨rfl, hp⟩ | ⟨hji, hj⟩
    · exact hwaiting hp
    · exact h.waiting j hj
  running j t hj := by
    rcases World.of_set_phase hj with ⟨rfl, hp⟩ | ⟨hji, hj⟩
    · exact absurd hp (hruns t)
    · exact h.running j t hj
  held j hj := by
    obtain ⟨t, ht, hrun⟩ := h.held j hj
    have hji : j ≠ i := fun heq => hout (heq ▸ ht ▸ trivial)
    exact ⟨t, (w.set_phase_ne p hji).trans ht, hrun⟩
  answered j r hj := by
    rcases World.of_set_phase hj with ⟨rfl, hp⟩ | ⟨hji, hj⟩
    · exact .inl (hanswered r hp)
    · exact h.answered j r hj

theorem Serialized.acquire (h : Serialized view calls op s₀ w before answers s)
    (hrefines : Refines view calls op) {t : Task σ ρ} (hwaits : w.phase i = .waiting)
    (hcall : calls i = .locked t) (hfree : w.holder = none) :
    Serialized view calls op s₀
      { w.set i (.running t) with holder := some i, order := w.order ++ [i] } before answers s where
  serial := h.serial
  order := by
    have horder := h.order
    rw [hfree, Option.toList_none, List.append_nil] at horder
    exact congrArg (· ++ [i]) horder
  nodup := by
    have hout : i ∉ w.order := fun hi => (hwaits ▸ h.served i hi : Phase.Served .waiting)
    exact List.nodup_append.mpr ⟨h.nodup, List.nodup_singleton i,
      fun j hj k hk heq => hout (List.mem_singleton.mp hk ▸ heq ▸ hj)⟩
  served := served_set trivial h.served
  free hnone := nomatch hnone
  waiting := h.waiting_set (fun hp => nomatch hp)
  running j t' hj := by
    rcases World.of_set_phase hj with ⟨rfl, hp⟩ | ⟨hji, hj⟩
    · rfl
    · exact nomatch hfree.symm.trans (h.running j t' hj)
  held j hj := by
    obtain rfl := Option.some.inj hj
    exact ⟨t, w.set_phase i (.running t), h.free hfree ▸ hrefines i t hcall w.shared⟩
  answered := h.answered_set (fun r hp => nomatch hp)

theorem Serialized.work (h : Serialized view calls op s₀ w before answers s) {write : σ → σ}
    {next : σ → Task σ ρ} (hruns : w.phase i = .running (.step write next)) :
    Serialized view calls op s₀
      { w.set i (.running (next w.shared)) with shared := write w.shared } before answers s where
  serial := h.serial
  order := h.order
  nodup := h.nodup
  served j hj := served_set (p := .running (next w.shared)) trivial h.served j
    (List.mem_append_left _ hj)
  free hnone := nomatch hnone.symm.trans (h.running i _ hruns)
  waiting := h.waiting_set (fun hp => nomatch hp)
  running j t hj := by
    rcases World.of_set_phase hj with ⟨rfl, hp⟩ | ⟨hji, hj⟩
    · exact h.running j _ hruns
    · exact h.running j t hj
  held j hj := by
    obtain rfl := Option.some.inj (hj.symm.trans (h.running i _ hruns))
    obtain ⟨t, ht, hrun⟩ := h.held j hj
    obtain rfl := Phase.running.inj (ht.symm.trans hruns)
    exact ⟨next w.shared, w.set_phase j (.running (next w.shared)), hrun⟩
  answered := h.answered_set (fun r hp => nomatch hp)

theorem Serialized.release (h : Serialized view calls op s₀ w before answers s) {r : ρ}
    (hruns : w.phase i = .running (.done r)) :
    Serialized view calls op s₀ { w.set i (.answered r) with holder := none } (before ++ [i])
      (answers ++ [(i, r)]) (view w.shared) := by
  have hholder := h.running i _ hruns
  obtain ⟨t, ht, hrun⟩ := h.held i hholder
  obtain rfl := Phase.running.inj (ht.symm.trans hruns)
  refine
    { serial := serial_concat h.serial hrun.symm
      order := ?_
      nodup := h.nodup
      served := fun j hj => served_set (p := .answered r) trivial h.served j
        (List.mem_append_left _ hj)
      free := fun _ => rfl
      waiting := h.waiting_set (fun hp => nomatch hp)
      running := fun j t hj => ?_
      held := fun j hj => nomatch hj
      answered := fun j r' hj => ?_ }
  · have horder := h.order
    rw [hholder] at horder
    exact horder.trans (List.append_nil _).symm
  · rcases World.of_set_phase hj with ⟨rfl, hp⟩ | ⟨hji, hj⟩
    · exact nomatch hp
    · exact absurd (Option.some.inj ((h.running j t hj).symm.trans hholder)) hji
  · rcases World.of_set_phase hj with ⟨rfl, hp⟩ | ⟨hji, hj⟩
    · exact .inr (Phase.answered.inj hp ▸ List.mem_append_right _ List.mem_cons_self)
    · exact (h.answered j r' hj).imp_right (List.mem_append_left _)

variable (view calls op s₀) in
/-- The clients so far had the state one after the other. -/
def IsSerialized (w : World σ ρ ι) : Prop :=
  ∃ before answers s, Serialized view calls op s₀ w before answers s

/-- One step of any client. -/
theorem Step.serialized (hrefines : Refines view calls op) (hstep : Step calls w i w')
    (h : IsSerialized view calls op s₀ w) : IsSerialized view calls op s₀ w' := by
  obtain ⟨before, answers, s, h⟩ := h
  cases hstep with
  | refuse haway hcall =>
    refine ⟨before, answers, s, h.aside (haway ▸ id) (fun hp => nomatch hp) (fun t ht => nomatch ht)
      fun r hr => ?_⟩
    exact Phase.answered.inj hr ▸ hcall
  | arrive haway hcall =>
    exact ⟨before, answers, s, h.aside (haway ▸ id) (fun _ => ⟨_, hcall⟩) (fun t ht => nomatch ht)
      fun r hr => nomatch hr⟩
  | acquire hwaits hcall hfree =>
    exact ⟨before, answers, s, h.acquire hrefines hwaits hcall hfree⟩
  | work hruns => exact ⟨before, answers, s, h.work hruns⟩
  | release hruns => exact ⟨_, _, _, h.release hruns⟩

/-- Every run is serialized. -/
theorem serialized_of_run (hrefines : Refines view calls op) {is : List ι}
    (hrun : Run (Step calls) (World.start s₀) is w) : IsSerialized view calls op s₀ w :=
  hrun.invariant (fun _ _ _ h hstep => hstep.serialized hrefines h) ⟨[], [], view s₀, .start s₀⟩

/-! ### Who takes the lock when -/

theorem Step.order_extends (hstep : Step calls w i w') : w.order <+: w'.order := by
  cases hstep with
  | acquire hwaits hcall hfree => exact List.prefix_append _ _
  | refuse | arrive | work | release => exact List.prefix_rfl

theorem order_extends_of_run {is : List ι} (hrun : Run (Step calls) w is w') :
    w.order <+: w'.order := by
  induction hrun with
  | nil w => exact List.prefix_rfl
  | cons hstep _ ih => exact hstep.order_extends.trans ih

/-- A client that comes after another one had the lock has it after that one. -/
theorem Serialized.realtime (h : Serialized view calls op s₀ w before answers s)
    {is : List ι} (hrun : Run (Step calls) w is w') {j : ι} (hi : i ∈ w.order)
    (haway : w.phase j = .away) (hj : j ∈ w'.order) : [i, j].Sublist w'.order := by
  obtain ⟨later, hlater⟩ := order_extends_of_run hrun
  have hout : j ∉ w.order := fun hj => (haway ▸ h.served j hj : Phase.Served .away)
  have hmem : j ∈ later := (List.mem_append.mp (hlater ▸ hj)).resolve_left hout
  exact hlater ▸ (List.singleton_sublist.mpr hi).append (List.singleton_sublist.mpr hmem)

/-! ### Everybody is answered -/

/-- The holder of the lock never gives it back. -/
def World.Stuck (w : World σ ρ ι) : Prop := ∃ i, w.holder = some i ∧ w.phase i = .running .stuck

omit [DecidableEq ι] in
/-- The operation of a holder that is stuck has no end. -/
theorem Serialized.stuck (h : Serialized view calls op s₀ w before answers s) (hstuck : w.Stuck) :
    ∃ i, w.order = before ++ [i] ∧ op i s = none := by
  obtain ⟨i, hholder, hruns⟩ := hstuck
  obtain ⟨t, ht, hrun⟩ := h.held i hholder
  obtain rfl := Phase.running.inj (ht.symm.trans hruns)
  have horder := h.order
  rw [hholder] at horder
  exact ⟨i, horder, hrun.symm⟩

/-- The lock is free and the client answered, and nobody else has moved. -/
structure Answers (w : World σ ρ ι) (i : ι) (w' : World σ ρ ι) : Prop where
  free : w'.holder = none
  answered : ∃ r, w'.phase i = .answered r
  others : ∀ j, j ≠ i → w'.phase j = w.phase j

variable (calls) in
/-- The holder can go on alone to its answer. -/
theorem exists_release (t : Task σ ρ) : ∀ {w : World σ ρ ι} {i : ι}, w.phase i = .running t →
    w.holder = some i → ∃ is w', Run (Step calls) w is w' ∧ (w'.Stuck ∨ Answers w i w') := by
  induction t with
  | done r =>
    intro w i hruns _
    exact ⟨[i], _, .cons (.release hruns) (.nil _), .inr
      ⟨rfl, ⟨r, w.set_phase i _⟩, fun j hji => w.set_phase_ne _ hji⟩⟩
  | stuck =>
    intro w i hruns hholder
    exact ⟨[], w, .nil w, .inl ⟨i, hholder, hruns⟩⟩
  | step write next ih =>
    intro w i hruns hholder
    let worked : World σ ρ ι :=
      { w.set i (.running (next w.shared)) with shared := write w.shared }
    have hruns' : worked.phase i = .running (next w.shared) := w.set_phase i _
    obtain ⟨is, w', hrun, hend⟩ := ih w.shared hruns' hholder
    refine ⟨i :: is, w', .cons (.work hruns) hrun, hend.imp_right fun h => ?_⟩
    exact ⟨h.free, h.answered, fun j hji => (h.others j hji).trans (w.set_phase_ne _ hji)⟩

/-- A waiting client can take a free lock and be answered. -/
theorem exists_acquire {t : Task σ ρ} (hwaits : w.phase i = .waiting) (hcall : calls i = .locked t)
    (hfree : w.holder = none) :
    ∃ is w', Run (Step calls) w is w' ∧ (w'.Stuck ∨ Answers w i w') := by
  let taken : World σ ρ ι :=
    { w.set i (.running t) with holder := some i, order := w.order ++ [i] }
  have hruns : taken.phase i = .running t := w.set_phase i _
  obtain ⟨is, w', hrun, hend⟩ := exists_release calls t hruns rfl
  refine ⟨i :: is, w', .cons (.acquire hwaits hcall hfree) hrun, hend.imp_right fun h => ?_⟩
  exact ⟨h.free, h.answered, fun j hji => (h.others j hji).trans (w.set_phase_ne _ hji)⟩

/-- With the lock free any client can be answered. -/
theorem Serialized.exists_answers (h : Serialized view calls op s₀ w before answers s)
    (hfree : w.holder = none) (i : ι) :
    ∃ is w', Run (Step calls) w is w' ∧ (w'.Stuck ∨ Answers w i w') := by
  cases hphase : w.phase i with
  | away =>
    cases hcall : calls i with
    | answer r =>
      exact ⟨[i], _, .cons (.refuse hphase hcall) (.nil _), .inr
        ⟨hfree, ⟨r, w.set_phase i _⟩, fun j hji => w.set_phase_ne _ hji⟩⟩
    | locked t =>
      obtain ⟨is, w', hrun, hend⟩ := exists_acquire (w.set_phase i .waiting) hcall hfree
      refine ⟨i :: is, w', .cons (.arrive hphase hcall) hrun, hend.imp_right fun h => ?_⟩
      exact ⟨h.free, h.answered, fun j hji => (h.others j hji).trans (w.set_phase_ne _ hji)⟩
  | waiting =>
    obtain ⟨t, hcall⟩ := h.waiting i hphase
    exact exists_acquire hphase hcall hfree
  | running t => exact nomatch hfree.symm.trans (h.running i t hphase)
  | answered r => exact ⟨[], w, .nil w, .inr ⟨hfree, ⟨r, hphase⟩, fun j _ => rfl⟩⟩

/-- The lock can be given back. -/
theorem Serialized.exists_free (h : Serialized view calls op s₀ w before answers s) :
    ∃ is w', Run (Step calls) w is w' ∧ (w'.Stuck ∨ w'.holder = none) := by
  cases hholder : w.holder with
  | none => exact ⟨[], w, .nil w, .inr hholder⟩
  | some i =>
    obtain ⟨t, hruns, -⟩ := h.held i hholder
    obtain ⟨is, w', hrun, hend⟩ := exists_release calls t hruns hholder
    exact ⟨is, w', hrun, hend.imp_right Answers.free⟩

/-- From every state that can be reached, any number of clients can be answered, unless one of
them keeps the lock for ever. -/
theorem exists_all_answered (hrefines : Refines view calls op)
    (h : IsSerialized view calls op s₀ w) (js : List ι) : ∃ is w', Run (Step calls) w is w' ∧
      (w'.Stuck ∨ (w'.holder = none ∧ ∀ j ∈ js, ∃ r, w'.phase j = .answered r)) := by
  induction js with
  | nil =>
    obtain ⟨_, _, _, h⟩ := h
    obtain ⟨is, w', hrun, hend⟩ := h.exists_free
    refine ⟨is, w', hrun, hend.imp_right fun hfree => ⟨hfree, fun j hj => ?_⟩⟩
    exact absurd hj List.not_mem_nil
  | cons i js ih =>
    obtain ⟨is, w₁, hrun, hstuck | ⟨hfree, hjs⟩⟩ := ih
    · exact ⟨is, w₁, hrun, .inl hstuck⟩
    obtain ⟨_, _, _, h₁⟩ := hrun.invariant (fun _ _ _ h hstep => hstep.serialized hrefines h) h
    obtain ⟨is', w₂, hrun', hend⟩ := h₁.exists_answers hfree i
    refine ⟨is ++ is', w₂, hrun.append hrun', hend.imp_right fun hi => ⟨hi.free, fun j hj => ?_⟩⟩
    by_cases hji : j = i
    · exact hji ▸ hi.answered
    · exact hi.others j hji ▸ hjs j ((List.mem_cons.mp hj).resolve_left hji)

end

end Lock
