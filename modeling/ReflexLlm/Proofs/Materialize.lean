import Mathlib.Order.CompletePartialOrder
import ReflexLlm.Proofs.DeviceCopy
import ReflexLlm.Spec.Materialize

/-! Moving weights to the device keeps their meaning: every step only redirects pointers to
blocks that are new and hold the bytes that the pointers meant before, also where a later step
fails. -/

namespace JLLM

open ByteMem Ownership

/-- The bytes that the kernels read behind a pointer. -/
def slotBytes (cfg : ModelConfig) (mw : ModelWeights) : WeightSlot → ℕ
  | .layer l .wq =>
      kquantTensorBytes (mw.matType (l, .wq)) (cfg.nHeads.toInt * cfg.headDim.toInt)
        cfg.hiddenDim.toInt
  | .layer l .wk =>
      kquantTensorBytes (mw.matType (l, .wk)) (cfg.nKvHeads.toInt * cfg.headDim.toInt)
        cfg.hiddenDim.toInt
  | .layer l .wv =>
      kquantTensorBytes (mw.matType (l, .wv)) (cfg.nKvHeads.toInt * cfg.headDim.toInt)
        cfg.hiddenDim.toInt
  | .layer l .wo =>
      kquantTensorBytes (mw.matType (l, .wo)) cfg.hiddenDim.toInt
        (cfg.nHeads.toInt * cfg.headDim.toInt)
  | .layer l .wGate =>
      kquantTensorBytes (mw.matType (l, .wGate)) cfg.intermediateDim.toInt cfg.hiddenDim.toInt
  | .layer l .wUp =>
      kquantTensorBytes (mw.matType (l, .wUp)) cfg.intermediateDim.toInt cfg.hiddenDim.toInt
  | .layer l .wDown =>
      kquantTensorBytes (mw.matType (l, .wDown)) cfg.hiddenDim.toInt cfg.intermediateDim.toInt
  | .layer _ .qNorm | .layer _ .kNorm => floatBytes cfg.headDim.toInt
  | .layer _ .rmsAttn | .layer _ .rmsFfn | .outputNorm => floatBytes cfg.hiddenDim.toInt
  | .output | .tokEmbd =>
      kquantTensorBytes mw.outputType cfg.vocabSize.toInt cfg.hiddenDim.toInt

/-- At `ptr`, in a block that is owned, are the `n` bytes that the host has at `src`. -/
def OnDevice {D H : Type} (sys : System D H) (host : Mem) (s : CopyState D) (ptr src n : ℕ) :
    Prop :=
  ∃ p ∈ s.owned, Blocks.Inside (sys.blocks s.device) p ptr n ∧
    (sys.cuda.mem s.device).read ptr n = host.read src n

/-- Some pointers have gone to copies on the device, and no block was lost. -/
structure Moves {D H : Type} (sys : System D H) (host : Mem) (cfg : ModelConfig)
    (slots : Set WeightSlot) (s s' : CopyState D) : Prop where
  fields : s'.weights = { s.weights with ptr := s'.weights.ptr }
  keeps : Blocks.Keeps (sys.blocks s.device) (sys.blocks s'.device)
  owned : s.owned ⊆ s'.owned
  others : ∀ slot, slot ∉ slots → s'.weights.ptr slot = s.weights.ptr slot
  moved : ∀ slot, s'.weights.ptr slot = s.weights.ptr slot ∨
    OnDevice sys host s' (s'.weights.ptr slot) (s.weights.ptr slot) (slotBytes cfg s.weights slot)

/-- The blocks that are new are the ones that `owned` has got. -/
def Grows {D H : Type} (sys : System D H) (s s' : CopyState D) : Prop :=
  ∃ new, s'.owned = s.owned ++ new ∧ new.Nodup ∧ (∀ p ∈ new, p ∉ sys.cuda.live s.device) ∧
    sys.cuda.live s'.device = sys.cuda.live s.device ∪ {p | p ∈ new}

/-- What moving some of the weights can do. -/
structure Advances {D H : Type} (sys : System D H) (host : Mem) (cfg : ModelConfig)
    (slots : Set WeightSlot) (s s' : CopyState D) : Prop where
  moves : Moves sys host cfg slots s s'
  grows : Grows sys s s'

/-- These weights have all been moved. -/
def AllMoved {D H : Type} (sys : System D H) (host : Mem) (cfg : ModelConfig)
    (slots : Set WeightSlot) (s s' : CopyState D) : Prop :=
  ∀ slot ∈ slots,
    OnDevice sys host s' (s'.weights.ptr slot) (s.weights.ptr slot) (slotBytes cfg s.weights slot)

section

variable {D H : Type} {sys : System D H} {host : Mem} {cfg : ModelConfig}
  {slots slots' : Set WeightSlot} {s s' s'' : CopyState D} {ptr src n p l : ℕ} {d d' : D}

theorem slotBytes_fields {mw mw' : ModelWeights} (h : mw' = { mw with ptr := mw'.ptr })
    (slot : WeightSlot) : slotBytes cfg mw' slot = slotBytes cfg mw slot := by
  rw [h]
  rcases slot with ⟨l, _ | _ | _ | _ | _ | _ | _ | _ | _ | _ | _⟩ | _ | _ | _ <;> rfl

theorem OnDevice.keeps (h : OnDevice sys host s ptr src n) (howned : s.owned ⊆ s'.owned)
    (hkeeps : Blocks.Keeps (sys.blocks s.device) (sys.blocks s'.device)) :
    OnDevice sys host s' ptr src n := by
  obtain ⟨p, hp, hinside, hread⟩ := h
  exact ⟨p, howned hp, hinside.keeps hkeeps, (hinside.read_eq hkeeps).trans hread⟩

theorem Grows.of_live (howned : s'.owned = s.owned)
    (hlive : sys.cuda.live s'.device = sys.cuda.live s.device) : Grows sys s s' :=
  ⟨[], by rw [howned, List.append_nil], List.nodup_nil, by simp, by simp [hlive]⟩

theorem Grows.one (hfresh : p ∉ sys.cuda.live s.device) (howned : s'.owned = s.owned ++ [p])
    (hlive : sys.cuda.live s'.device = insert p (sys.cuda.live s.device)) : Grows sys s s' := by
  refine ⟨[p], howned, List.nodup_singleton p, List.forall_mem_singleton.mpr hfresh, ?_⟩
  rw [hlive]
  ext q
  simp only [Set.mem_insert_iff, Set.mem_union, Set.mem_ofPred_eq, List.mem_singleton]
  exact or_comm

theorem Grows.trans (h : Grows sys s s') (h' : Grows sys s' s'') : Grows sys s s'' := by
  obtain ⟨new, howned, hnodup, hfresh, hlive⟩ := h
  obtain ⟨new', howned', hnodup', hfresh', hlive'⟩ := h'
  rw [hlive] at hfresh' hlive'
  refine ⟨new ++ new', by rw [howned', howned, List.append_assoc], ?_, ?_, ?_⟩
  · rw [List.nodup_append]
    exact ⟨hnodup, hnodup', fun p hp q hq hpq => hfresh' q hq (Or.inr (hpq ▸ hp))⟩
  · intro p hp
    rcases List.mem_append.mp hp with hp | hp
    · exact hfresh p hp
    · exact fun hmem => hfresh' p hp (Or.inl hmem)
  · rw [hlive', Set.union_assoc]
    congr 1
    ext p
    simp only [Set.mem_union, Set.mem_ofPred_eq, List.mem_append]

theorem Grows.subset (h : Grows sys s s') : s.owned ⊆ s'.owned := by
  obtain ⟨new, howned, -⟩ := h
  rw [howned]
  exact List.subset_append_left s.owned new

theorem Moves.trans (h : Moves sys host cfg slots s s') (h' : Moves sys host cfg slots' s' s'')
    (hdisjoint : Disjoint slots slots') : Moves sys host cfg (slots ∪ slots') s s'' where
  fields := by
    rw [h'.fields, h.fields]
  keeps := h.keeps.trans h'.keeps
  owned _ hp := h'.owned (h.owned hp)
  others slot hslot := by
    rw [Set.mem_union, not_or] at hslot
    rw [h'.others slot hslot.2, h.others slot hslot.1]
  moved slot := by
    by_cases hslot : slot ∈ slots
    · rw [h'.others slot (Set.disjoint_left.mp hdisjoint hslot)]
      exact (h.moved slot).imp id fun hdevice => hdevice.keeps h'.owned h'.keeps
    · have hsame := h.others slot hslot
      have hmoved := h'.moved slot
      rwa [hsame, slotBytes_fields h.fields] at hmoved

theorem Advances.trans (h : Advances sys host cfg slots s s')
    (h' : Advances sys host cfg slots' s' s'') (hdisjoint : Disjoint slots slots') :
    Advances sys host cfg (slots ∪ slots') s s'' :=
  ⟨h.moves.trans h'.moves hdisjoint, h.grows.trans h'.grows⟩

theorem Moves.mono (h : Moves sys host cfg slots s s') (hsub : slots ⊆ slots') :
    Moves sys host cfg slots' s s' :=
  { h with others := fun slot hslot => h.others slot fun hmem => hslot (hsub hmem) }

theorem Advances.mono (h : Advances sys host cfg slots s s') (hsub : slots ⊆ slots') :
    Advances sys host cfg slots' s s' := ⟨h.moves.mono hsub, h.grows⟩

/-- Weights that were moved stay so. -/
theorem AllMoved.later (h : AllMoved sys host cfg slots s s')
    (h' : Moves sys host cfg slots' s' s'') (hdisjoint : Disjoint slots slots') :
    AllMoved sys host cfg slots s s'' := by
  intro slot hslot
  rw [h'.others slot (Set.disjoint_left.mp hdisjoint hslot)]
  exact (h slot hslot).keeps h'.owned h'.keeps

/-- Weights that an earlier step has left alone. -/
theorem AllMoved.earlier (h : Moves sys host cfg slots s s')
    (h' : AllMoved sys host cfg slots' s' s'') (hdisjoint : Disjoint slots slots') :
    AllMoved sys host cfg slots' s s'' := by
  intro slot hslot
  have hmoved := h' slot hslot
  rwa [h.others slot (Set.disjoint_right.mp hdisjoint hslot), slotBytes_fields h.fields] at hmoved

theorem AllMoved.union (h : AllMoved sys host cfg slots s s')
    (h' : AllMoved sys host cfg slots' s s') : AllMoved sys host cfg (slots ∪ slots') s s' := by
  rintro slot (hslot | hslot)
  · exact h slot hslot
  · exact h' slot hslot

theorem Advances.of_same (h : Advances sys host cfg slots s s') (hsame : s'.weights = s.weights) :
    Advances sys host cfg slots' s s' :=
  ⟨{ h.moves with others := fun slot _ => by rw [hsame] }, h.grows⟩

theorem Moves.of_keeps {d : D} (hkeeps : Blocks.Keeps (sys.blocks s.device) (sys.blocks d)) :
    Moves sys host cfg slots s { s with device := d } where
  fields := rfl
  keeps := hkeeps
  owned := List.Subset.refl s.owned
  others _ _ := rfl
  moved _ := Or.inl rfl

/-- A step that leaves no block behind. -/
theorem Advances.of_keeps {d : D} (hkeeps : Blocks.Keeps (sys.blocks s.device) (sys.blocks d))
    (hlive : sys.cuda.live d = sys.cuda.live s.device) :
    Advances sys host cfg slots s { s with device := d } :=
  ⟨.of_keeps hkeeps, .of_live rfl hlive⟩

theorem Advances.refl : Advances sys host cfg slots s s :=
  .of_keeps (Blocks.Keeps.refl _) rfl

/-- A block that is new and holds what the host has at `src`. -/
structure NewCopy (sys : System D H) (host : Mem) (d d' : D) (p src n : ℕ) : Prop where
  fresh : p ∉ sys.cuda.live d
  live : sys.cuda.live d' = insert p (sys.cuda.live d)
  keeps : Blocks.Keeps (sys.blocks d) (sys.blocks d')
  inside : Blocks.Inside (sys.blocks d') p p n
  read : (sys.cuda.mem d').read p n = host.read src n

/-- Freeing a block that was new leaves the blocks as they were. -/
theorem System.Lawful.keeps_of_free (hsys : sys.Lawful) (hfresh : p ∉ sys.cuda.live d)
    (hkeeps : Blocks.Keeps (sys.blocks d) (sys.blocks d'))
    (hlive : sys.cuda.live d' = insert p (sys.cuda.live d)) :
    Blocks.Keeps (sys.blocks d) (sys.blocks (sys.cuda.free d' p)) ∧
      sys.cuda.live (sys.cuda.free d' p) = sys.cuda.live d :=
  (hsys.free (d := d') (p := p)).keeps hfresh hkeeps hlive

theorem System.Lawful.allocates (hsys : sys.Lawful)
    (hmalloc : sys.cuda.malloc d n = (some p, d')) :
    Blocks.Allocates p n (sys.blocks d) (sys.blocks d') := by
  have h := hsys.malloc_some (d := d) (n := n) (p := p) (by rw [hmalloc])
  rwa [hmalloc] at h

theorem System.Lawful.not_allocated (hsys : sys.Lawful)
    (hmalloc : sys.cuda.malloc d n = (none, d')) :
    Blocks.Keeps (sys.blocks d) (sys.blocks d') ∧ sys.cuda.live d' = sys.cuda.live d := by
  have hnone : (sys.cuda.malloc d n).1 = none := by rw [hmalloc]
  have hkeeps := hsys.malloc_none hnone
  have hlive := hsys.cuda.malloc_none hnone
  rw [hmalloc] at hkeeps hlive
  exact ⟨hkeeps, hlive⟩

/-- A copy to a block that is new, of the block's size. -/
theorem System.Lawful.copied (hsys : sys.Lawful) {d₁ : D} {ok : Bool}
    (hmalloc : sys.cuda.malloc d n = (some p, d₁))
    (hcopy : sys.cuda.memcpy d₁ p (host.read src n) = (ok, d')) :
    Blocks.Allocates p n (sys.blocks d) (sys.blocks d₁) ∧
      Blocks.Writes p (sys.blocks d₁) (sys.blocks d') := by
  have halloc := hsys.allocates hmalloc
  have hwrite := hsys.memcpy (host.read src n) (by
    rw [read_length]
    exact halloc.inside)
  rw [hcopy] at hwrite
  exact ⟨halloc, hwrite⟩

theorem System.Lawful.newCopy (hsys : sys.Lawful) {d₁ : D}
    (hmalloc : sys.cuda.malloc d n = (some p, d₁))
    (hcopy : sys.cuda.memcpy d₁ p (host.read src n) = (true, d')) :
    NewCopy sys host d d' p src n := by
  obtain ⟨halloc, hwrite⟩ := hsys.copied hmalloc hcopy
  refine ⟨halloc.fresh, hwrite.live.trans halloc.live, halloc.keeps_of_writes hwrite,
    halloc.inside.writes hwrite, ?_⟩
  have hmem : sys.cuda.mem (sys.cuda.memcpy d₁ p (host.read src n)).2 =
      (sys.cuda.mem d₁).write p (host.read src n) := hsys.cuda.memcpy_mem (by rw [hcopy])
  have hread := read_write_same (sys.cuda.mem d₁) p (host.read src n)
  rw [hcopy] at hmem
  rwa [← hmem, read_length] at hread

/-- After a copy that failed the block is freed. -/
theorem System.Lawful.not_copied (hsys : sys.Lawful) {d₁ : D}
    (hmalloc : sys.cuda.malloc d n = (some p, d₁))
    (hcopy : sys.cuda.memcpy d₁ p (host.read src n) = (false, d')) :
    Blocks.Keeps (sys.blocks d) (sys.blocks (sys.cuda.free d' p)) ∧
      sys.cuda.live (sys.cuda.free d' p) = sys.cuda.live d := by
  obtain ⟨halloc, hwrite⟩ := hsys.copied hmalloc hcopy
  exact hsys.keeps_of_free halloc.fresh (halloc.keeps_of_writes hwrite)
    (hwrite.live.trans halloc.live)

theorem copyWeightToDevice_some (hsys : sys.Lawful)
    (h : copyWeightToDevice sys host src n d = (some p, d')) :
    src ≠ 0 ∧ n ≠ 0 ∧ NewCopy sys host d d' p src n := by
  rw [copyWeightToDevice] at h
  split at h
  · cases h
  rename_i hnull
  split at h
  · cases h
  rename_i a d₁ hmalloc
  split at h
  · rename_i d₂ hcopy
    cases h
    rw [not_or] at hnull
    exact ⟨hnull.1, hnull.2, hsys.newCopy hmalloc hcopy⟩
  · cases h

theorem copyWeightToDevice_none (hsys : sys.Lawful)
    (h : copyWeightToDevice sys host src n d = (none, d')) :
    Blocks.Keeps (sys.blocks d) (sys.blocks d') ∧ sys.cuda.live d' = sys.cuda.live d := by
  rw [copyWeightToDevice] at h
  split at h
  · cases h
    exact ⟨Blocks.Keeps.refl _, rfl⟩
  split at h
  · rename_i d₁ hmalloc
    cases h
    exact hsys.not_allocated hmalloc
  rename_i a d₁ hmalloc
  split at h
  · cases h
  · rename_i d₂ hcopy
    cases h
    exact hsys.not_copied hmalloc hcopy

/-- Pointers that mean the same bytes go to a copy of them that is new. -/
theorem NewCopy.advances_of (cfg : ModelConfig) (slots : Set WeightSlot) (ptrs : WeightSlot → ℕ)
    {d : D}
    (h : NewCopy sys host s.device d p src n)
    (hin : ∀ slot ∈ slots,
      ptrs slot = p ∧ s.weights.ptr slot = src ∧ slotBytes cfg s.weights slot = n)
    (hout : ∀ slot, slot ∉ slots → ptrs slot = s.weights.ptr slot) :
    let moved : CopyState D :=
      { weights := { s.weights with ptr := ptrs }, owned := s.owned ++ [p], device := d }
    Advances sys host cfg slots s moved ∧ AllMoved sys host cfg slots s moved := by
  intro moved
  have hmoved : AllMoved sys host cfg slots s moved := by
    intro slot hslot
    obtain ⟨hp, hsrc, hn⟩ := hin slot hslot
    rw [show moved.weights.ptr slot = p from hp, hsrc, hn]
    exact ⟨p, List.mem_append_right s.owned (List.mem_singleton_self p), h.inside, h.read⟩
  have hgrows : Grows sys s moved := .one h.fresh rfl h.live
  refine ⟨⟨⟨rfl, h.keeps, hgrows.subset, hout, fun slot => ?_⟩, hgrows⟩, hmoved⟩
  by_cases hslot : slot ∈ slots
  · exact Or.inr (hmoved slot hslot)
  · exact Or.inl (hout slot hslot)

/-- A pointer goes to a copy that is new. -/
theorem NewCopy.advances (slot : WeightSlot) {d : D}
    (h : NewCopy sys host s.device d p (s.weights.ptr slot) (slotBytes cfg s.weights slot)) :
    let moved : CopyState D :=
      { weights := { s.weights with ptr := Function.update s.weights.ptr slot p }
        owned := s.owned ++ [p]
        device := d }
    Advances sys host cfg {slot} s moved ∧ AllMoved sys host cfg {slot} s moved := by
  refine h.advances_of cfg {slot} _ ?_ fun other hother =>
    Function.update_of_ne hother p s.weights.ptr
  rintro other rfl
  exact ⟨Function.update_self _ _ _, rfl, rfl⟩

/-- Both weights of the pair are moved, or neither. -/
theorem copyNormPair_advances (cfg : ModelConfig) (first second : LayerSlot) (hsys : sys.Lawful)
    (hne : first ≠ second) (hfirst : slotBytes cfg s.weights (.layer l first) = n)
    (hsecond : slotBytes cfg s.weights (.layer l second) = n) {ok : Bool}
    (h : copyNormPair sys host l first second n s = (ok, s')) :
    Advances sys host cfg {.layer l first, .layer l second} s s' ∧
      (ok = true → AllMoved sys host cfg {.layer l first, .layer l second} s s') := by
  have hslots : WeightSlot.layer l second ≠ .layer l first := by
    intro heq
    injection heq with _ heq
    exact hne heq.symm
  rw [copyNormPair] at h
  split at h
  · rename_i d hcopy
    cases h
    obtain ⟨hkeeps, hlive⟩ := copyWeightToDevice_none hsys hcopy
    exact ⟨.of_keeps hkeeps hlive, by simp⟩
  rename_i a d hcopy
  obtain ⟨-, -, hnew⟩ := copyWeightToDevice_some hsys hcopy
  split at h
  · rename_i d₂ hcopy₂
    cases h
    obtain ⟨hkeeps, hlive⟩ := copyWeightToDevice_none hsys hcopy₂
    obtain ⟨hkeeps, hlive⟩ := hsys.keeps_of_free hnew.fresh (hnew.keeps.trans hkeeps)
      (hlive.trans hnew.live)
    exact ⟨.of_keeps hkeeps hlive, by simp⟩
  · rename_i b d₂ hcopy₂
    cases h
    obtain ⟨-, -, hnew₂⟩ := copyWeightToDevice_some hsys hcopy₂
    rw [← hfirst] at hnew
    obtain ⟨hadvances, hmoved⟩ := hnew.advances (.layer l first)
    -- the second pointer is still that of the file
    have hsame : Function.update s.weights.ptr (.layer l first) a (.layer l second) =
        s.weights.ptr (.layer l second) := Function.update_of_ne hslots a s.weights.ptr
    rw [← hsecond, ← hsame] at hnew₂
    obtain ⟨hadvances₂, hmoved₂⟩ := NewCopy.advances (.layer l second)
      (s := { weights := { s.weights with
                ptr := Function.update s.weights.ptr (.layer l first) a }
              owned := s.owned ++ [a]
              device := d }) hnew₂
    have hdisjoint : Disjoint ({.layer l first} : Set WeightSlot) {.layer l second} :=
      Set.disjoint_singleton.mpr hslots.symm
    rw [List.append_assoc] at hadvances₂ hmoved₂
    exact ⟨hadvances.trans hadvances₂ hdisjoint,
      fun _ => (hmoved.later hadvances₂.moves hdisjoint).union
        (hmoved₂.earlier hadvances.moves hdisjoint)⟩

end

/-- The pointers of these kinds in these layers. -/
def layerSlots (kinds : Set LayerSlot) (ls : List ℕ) : Set WeightSlot :=
  {slot | ∃ l ∈ ls, ∃ kind ∈ kinds, slot = .layer l kind}

/-- The norm weights of a layer. -/
def normKinds : Set LayerSlot := {.rmsAttn, .rmsFfn, .qNorm, .kNorm}

/-- The quantised weights of a layer. -/
def quantKinds : Set LayerSlot := {.wq, .wk, .wv, .wo, .wGate, .wUp, .wDown}

/-- The norm weights that the kernels read: those of queries and keys only where both are there. -/
def usedNorms (mw : ModelWeights) (ls : List ℕ) : Set WeightSlot :=
  layerSlots {.rmsAttn, .rmsFfn} ls ∪
    {slot | ∃ l ∈ ls, (mw.ptr (.layer l .qNorm) ≠ 0 ∧ mw.ptr (.layer l .kNorm) ≠ 0) ∧
      (slot = .layer l .qNorm ∨ slot = .layer l .kNorm)}

section

variable {kinds kinds' : Set LayerSlot} {l : ℕ} {ls ls' : List ℕ}

theorem mem_layerSlots {kind : LayerSlot} :
    WeightSlot.layer l kind ∈ layerSlots kinds ls ↔ l ∈ ls ∧ kind ∈ kinds := by
  constructor
  · rintro ⟨l', hl, kind', hkind, heq⟩
    cases heq
    exact ⟨hl, hkind⟩
  · rintro ⟨hl, hkind⟩
    exact ⟨l, hl, kind, hkind, rfl⟩

theorem layerSlots_append :
    layerSlots kinds (ls ++ ls') = layerSlots kinds ls ∪ layerSlots kinds ls' := by
  ext slot
  simp only [layerSlots, Set.mem_ofPred_eq, Set.mem_union, List.mem_append, or_and_right, exists_or]

theorem layerSlots_cons :
    layerSlots kinds (l :: ls) = layerSlots kinds [l] ∪ layerSlots kinds ls := by
  rw [← layerSlots_append, List.singleton_append]

theorem layerSlots_disjoint (h : ∀ l ∈ ls, l ∈ ls' → Disjoint kinds kinds') :
    Disjoint (layerSlots kinds ls) (layerSlots kinds' ls') := by
  rw [Set.disjoint_left]
  rintro slot ⟨l, hl, kind, hkind, rfl⟩ hmem
  obtain ⟨hl', hkind'⟩ := mem_layerSlots.mp hmem
  exact Set.disjoint_left.mp (h l hl hl') hkind hkind'

theorem layerSlots_disjoint_model {slots : Set WeightSlot}
    (h : ∀ l kind, WeightSlot.layer l kind ∉ slots) : Disjoint (layerSlots kinds ls) slots := by
  rw [Set.disjoint_left]
  rintro slot ⟨l, hl, kind, hkind, rfl⟩
  exact h l kind

theorem usedNorms_cons (mw : ModelWeights) :
    usedNorms mw (l :: ls) = usedNorms mw [l] ∪ usedNorms mw ls := by
  have hlayers : layerSlots {.rmsAttn, .rmsFfn} (l :: ls) =
      layerSlots {.rmsAttn, .rmsFfn} [l] ∪ layerSlots {.rmsAttn, .rmsFfn} ls := layerSlots_cons
  ext slot
  simp only [usedNorms, hlayers, Set.mem_union, Set.mem_ofPred_eq, List.mem_cons, List.mem_nil_iff,
    or_false, or_and_right, exists_or, exists_eq_left]
  exact or_or_or_comm

theorem usedNorms_subset (mw : ModelWeights) : usedNorms mw ls ⊆ layerSlots normKinds ls := by
  rintro slot (⟨l, hl, kind, hkind, rfl⟩ | ⟨l, hl, -, rfl | rfl⟩)
  · refine mem_layerSlots.mpr ⟨hl, ?_⟩
    rcases hkind with rfl | rfl <;> simp [normKinds]
  all_goals exact mem_layerSlots.mpr ⟨hl, by simp [normKinds]⟩

theorem usedNorms_congr {mw mw' : ModelWeights}
    (h : ∀ slot ∈ layerSlots normKinds ls, mw'.ptr slot = mw.ptr slot) :
    usedNorms mw' ls = usedNorms mw ls := by
  have hptr : ∀ l ∈ ls, mw'.ptr (.layer l .qNorm) = mw.ptr (.layer l .qNorm) ∧
      mw'.ptr (.layer l .kNorm) = mw.ptr (.layer l .kNorm) := fun l hl =>
    ⟨h _ (mem_layerSlots.mpr ⟨hl, by simp [normKinds]⟩),
      h _ (mem_layerSlots.mpr ⟨hl, by simp [normKinds]⟩)⟩
  ext slot
  simp only [usedNorms, Set.mem_union, Set.mem_ofPred_eq]
  refine or_congr_right (exists_congr fun l => and_congr_right fun hl => ?_)
  rw [(hptr l hl).1, (hptr l hl).2]

end

section

variable {D H : Type} {sys : System D H} {host : Mem} {cfg : ModelConfig} {s s' : CopyState D}
  {l : ℕ} {ls : List ℕ} {ok : Bool}

theorem materializeLayerNorms_advances (hsys : sys.Lawful)
    (h : materializeLayerNorms sys host (floatBytes cfg.hiddenDim.toInt)
      (floatBytes cfg.headDim.toInt) l s = (ok, s')) :
    Advances sys host cfg (layerSlots normKinds [l]) s s' ∧
      (ok = true → AllMoved sys host cfg (usedNorms s.weights [l]) s s') := by
  rw [materializeLayerNorms] at h
  split at h
  · cases h
    exact ⟨.refl, by simp⟩
  have hfirst : ({.layer l .rmsAttn, .layer l .rmsFfn} : Set WeightSlot) ⊆
      layerSlots normKinds [l] := by
    rintro slot (rfl | rfl) <;> exact mem_layerSlots.mpr ⟨by simp, by simp [normKinds]⟩
  split at h
  · rename_i s₁ hpair
    cases h
    obtain ⟨hadvances, -⟩ :=
      copyNormPair_advances cfg .rmsAttn .rmsFfn hsys (by decide) rfl rfl hpair
    exact ⟨hadvances.mono hfirst, by simp⟩
  rename_i s₁ hpair
  obtain ⟨hadvances, hmoved⟩ :=
    copyNormPair_advances cfg .rmsAttn .rmsFfn hsys (by decide) rfl rfl hpair
  have hq : s₁.weights.ptr (.layer l .qNorm) = s.weights.ptr (.layer l .qNorm) :=
    hadvances.moves.others _ (by simp)
  have hk : s₁.weights.ptr (.layer l .kNorm) = s.weights.ptr (.layer l .kNorm) :=
    hadvances.moves.others _ (by simp)
  split at h
  · rename_i hqk
    split at h
    · cases h
      exact ⟨hadvances.mono hfirst, by simp⟩
    obtain ⟨hadvances₂, hmoved₂⟩ :=
      copyNormPair_advances cfg .qNorm .kNorm hsys (by decide) rfl rfl h
    have hdisjoint : Disjoint ({.layer l .rmsAttn, .layer l .rmsFfn} : Set WeightSlot)
        {.layer l .qNorm, .layer l .kNorm} := by
      simp
    refine ⟨(hadvances.trans hadvances₂ hdisjoint).mono ?_, fun hok => ?_⟩
    · rintro slot (hslot | rfl | rfl)
      · exact hfirst hslot
      all_goals exact mem_layerSlots.mpr ⟨by simp, by simp [normKinds]⟩
    · have hboth := ((hmoved rfl).later hadvances₂.moves hdisjoint).union
        ((hmoved₂ hok).earlier hadvances.moves hdisjoint)
      rintro slot (⟨l', hl, kind, hkind, rfl⟩ | ⟨l', hl, -, hslot⟩)
      · rw [List.mem_singleton] at hl
        subst hl
        rcases hkind with rfl | rfl
        · exact hboth _ (Or.inl (Or.inl rfl))
        · exact hboth _ (Or.inl (Or.inr rfl))
      · rw [List.mem_singleton] at hl
        subst hl
        exact hboth _ (Or.inr hslot)
  · rename_i hqk
    cases h
    refine ⟨hadvances.mono hfirst, fun _ => ?_⟩
    rintro slot (⟨l', hl, kind, hkind, rfl⟩ | ⟨l', hl, hqk', -⟩)
    · rw [List.mem_singleton] at hl
      subst hl
      rcases hkind with rfl | rfl
      · exact hmoved rfl _ (Or.inl rfl)
      · exact hmoved rfl _ (Or.inr rfl)
    · rw [List.mem_singleton] at hl
      subst hl
      rw [hq, hk] at hqk
      exact absurd hqk' hqk

theorem materializeNorms_advances (hsys : sys.Lawful) (hnodup : ls.Nodup)
    (h : materializeNorms sys host (floatBytes cfg.hiddenDim.toInt)
      (floatBytes cfg.headDim.toInt) ls s = (ok, s')) :
    Advances sys host cfg (layerSlots normKinds ls) s s' ∧
      (ok = true → AllMoved sys host cfg (usedNorms s.weights ls) s s') := by
  induction ls generalizing s with
  | nil =>
    cases h
    refine ⟨.refl, fun _ => ?_⟩
    rintro slot (⟨l, hl, -⟩ | ⟨l, hl, -⟩) <;> cases hl
  | cons l ls ih =>
    obtain ⟨hl, hnodup⟩ := List.nodup_cons.mp hnodup
    have hcons : layerSlots normKinds (l :: ls) =
        layerSlots normKinds [l] ∪ layerSlots normKinds ls := layerSlots_cons
    rw [materializeNorms] at h
    split at h
    · rename_i s₁ hlayer
      obtain ⟨hadvances, hmoved⟩ := materializeLayerNorms_advances hsys hlayer
      obtain ⟨hadvances₂, hmoved₂⟩ := ih hnodup h
      have hdisjoint : Disjoint (layerSlots normKinds [l]) (layerSlots normKinds ls) := by
        refine layerSlots_disjoint fun l' hl' hmem => absurd hmem ?_
        rwa [List.mem_singleton.mp hl']
      refine ⟨hcons ▸ hadvances.trans hadvances₂ hdisjoint, fun hok => ?_⟩
      have hused : usedNorms s₁.weights ls = usedNorms s.weights ls :=
        usedNorms_congr fun slot hslot =>
          hadvances.moves.others slot (Set.disjoint_right.mp hdisjoint hslot)
      rw [usedNorms_cons]
      refine ((hmoved rfl).later hadvances₂.moves (hdisjoint.mono_left (usedNorms_subset _))).union ?_
      exact (hused ▸ hmoved₂ hok).earlier hadvances.moves (hdisjoint.mono_right (usedNorms_subset _))
    · rename_i s₁ hlayer
      cases h
      obtain ⟨hadvances, -⟩ := materializeLayerNorms_advances hsys hlayer
      refine ⟨hadvances.mono ?_, by simp⟩
      rw [hcons]
      exact Set.subset_union_left

/-- What `materialize_norm_weights` can do, and what it has done when it returns true. -/
theorem materializeNormWeights_advances (host : Mem) (cfg : ModelConfig) (hsys : sys.Lawful)
    (h : materializeNormWeights sys host cfg s = (ok, s')) :
    let layers := List.range s.weights.nLayers.toNat
    Advances sys host cfg (layerSlots normKinds layers ∪ {.outputNorm}) s s' ∧
      (ok = true → AllMoved sys host cfg (usedNorms s.weights layers ∪ {.outputNorm}) s s') := by
  intro layers
  have hdisjoint : Disjoint (layerSlots normKinds layers) {WeightSlot.outputNorm} :=
    layerSlots_disjoint_model (by simp)
  rw [materializeNormWeights] at h
  split at h
  · rename_i s₁ hlayers
    cases h
    obtain ⟨hadvances, -⟩ := materializeNorms_advances hsys List.nodup_range hlayers
    exact ⟨hadvances.mono Set.subset_union_left, by simp⟩
  rename_i s₁ hlayers
  obtain ⟨hadvances, hmoved⟩ := materializeNorms_advances hsys List.nodup_range hlayers
  split at h
  · rename_i d hcopy
    cases h
    obtain ⟨hkeeps, hlive⟩ := copyWeightToDevice_none hsys hcopy
    exact ⟨hadvances.trans (.of_keeps hkeeps hlive) hdisjoint, by simp⟩
  · rename_i p d hcopy
    cases h
    obtain ⟨-, -, hnew⟩ := copyWeightToDevice_some hsys hcopy
    obtain ⟨hadvances₂, hmoved₂⟩ := NewCopy.advances .outputNorm hnew
    refine ⟨hadvances.trans hadvances₂ hdisjoint, fun _ => ?_⟩
    exact ((hmoved rfl).later hadvances₂.moves (hdisjoint.mono_left (usedNorms_subset _))).union
      (hmoved₂.earlier hadvances.moves hdisjoint)

/-- The copies of a layer write to its arena only; the first that fails frees it. -/
theorem copyTensors_writes (hsys : sys.Lawful) {arena : ℕ} {tensors : List (TensorSpec × ℕ)}
    {d d' : D}
    (hinside : ∀ t ∈ tensors,
      Blocks.Inside (sys.blocks d) arena (arenaPtr arena t.2) t.1.bytes)
    (h : copyTensors sys.cuda host arena tensors d = (ok, d')) :
    ∃ d₁, Blocks.Writes arena (sys.blocks d) (sys.blocks d₁) ∧
      d' = if ok then d₁ else sys.cuda.free d₁ arena := by
  induction tensors generalizing d with
  | nil =>
    cases h
    exact ⟨_, Blocks.Writes.refl _ _, rfl⟩
  | cons t tensors ih =>
    obtain ⟨hfirst, hrest⟩ := List.forall_mem_cons.mp hinside
    obtain ⟨spec, offset⟩ := t
    have hwrite := hsys.memcpy (host.read spec.src spec.bytes) (by
      rw [read_length]
      exact hfirst)
    rw [copyTensors] at h
    split at h
    · obtain ⟨d₁, hwrites, hd'⟩ := ih (fun t ht => (hrest t ht).writes hwrite) h
      exact ⟨d₁, hwrite.trans hwrites, hd'⟩
    · cases h
      exact ⟨_, hwrite, rfl⟩

/-- The tensors of a layer, aligned, have less than 2⁶⁴ bytes. -/
def LayerFits (specs : List TensorSpec) : Prop :=
  Bump.total 256 (specs.map TensorSpec.bytes) < 0x10000000000000000

/-- In a new arena every tensor has its place. -/
theorem inside_of_layout (hsys : sys.Lawful) {specs : List TensorSpec}
    {tensors : List (TensorSpec × ℕ)} {arena arenaBytes : ℕ} {d d₁ : D}
    (hlayout : layoutArena specs 0 = some (tensors, arenaBytes)) (hfits : LayerFits specs)
    (hmalloc : sys.cuda.malloc d arenaBytes = (some arena, d₁)) :
    Blocks.Allocates arena arenaBytes (sys.blocks d) (sys.blocks d₁) ∧
      ∀ t ∈ tensors, Blocks.Inside (sys.blocks d₁) arena (arenaPtr arena t.2) t.1.bytes := by
  have halloc := hsys.allocates hmalloc
  refine ⟨halloc, fun t ht => ?_⟩
  have hbound := (hsys.cuda.malloc_some hmalloc).1
  have hplaced := ((layoutArena_placed hlayout hfits).2 t ht).2
  have hptr : arenaPtr arena t.2 = arena + t.2 := Nat.mod_eq_of_lt (by omega)
  have hinside := halloc.inside
  refine ⟨hinside.live, by omega, ?_⟩
  rw [halloc.size]
  omega

/-- The kinds of tensors that a list of specs stores. -/
def specSlots (l : ℕ) (specs : List TensorSpec) : Set WeightSlot :=
  {slot | ∃ spec ∈ specs, slot = .layer l spec.slot}

/-- A layer is moved as a whole, or not at all. -/
theorem copySpecsToDevice_advances (hsys : sys.Lawful) {specs : List TensorSpec}
    (hnodup : (specs.map TensorSpec.slot).Nodup) (hlength : specs.length ≤ 7)
    (hfits : LayerFits specs)
    (hspecs : ∀ spec ∈ specs, spec.src = s.weights.ptr (.layer l spec.slot) ∧
      spec.bytes = slotBytes cfg s.weights (.layer l spec.slot))
    (h : copySpecsToDevice sys.cuda host l specs s = (ok, s')) :
    Advances sys host cfg (specSlots l specs) s s' ∧
      (ok = false → s'.weights = s.weights) ∧
      (ok = true → AllMoved sys host cfg (specSlots l specs) s s') := by
  cases ok with
  | false =>
    obtain ⟨hweights, howned, hlive⟩ := copySpecsToDevice_false hsys.cuda h
    have hs' : s' = { s with device := s'.device } := by
      rw [← hweights, ← howned]
    refine ⟨?_, fun _ => hweights, by simp⟩
    rw [hs']
    refine .of_keeps ?_ hlive
    rw [copySpecsToDevice] at h
    split at h
    · cases h
      exact Blocks.Keeps.refl _
    rename_i tensors arenaBytes hlayout
    split at h
    · rename_i d hmalloc
      cases h
      exact (hsys.not_allocated hmalloc).1
    rename_i arena d hmalloc
    obtain ⟨halloc, hinside⟩ := inside_of_layout hsys hlayout hfits hmalloc
    split at h
    · rename_i d' hcopy
      cases h
      obtain ⟨d₁, hwrites, rfl⟩ := copyTensors_writes hsys hinside hcopy
      exact (hsys.keeps_of_free halloc.fresh (halloc.keeps_of_writes hwrites)
        (hwrites.live.trans halloc.live)).1
    · cases h
  | true =>
    obtain ⟨arena, arenaBytes, offset, hred⟩ := copySpecsToDevice_true hsys.cuda hnodup hlength h
    obtain ⟨tensors, arenaBytes', arena', d, d', hlayout, hmalloc, hcopy, hs'⟩ :=
      copySpecsToDevice_eq_true h
    obtain ⟨halloc, hinside⟩ := inside_of_layout hsys hlayout hfits hmalloc
    obtain ⟨d₁, hwrites, hd₁⟩ := copyTensors_writes hsys hinside hcopy
    simp only [if_true] at hd₁
    subst hd₁
    -- the arena that was redirected to is the one that was allocated
    have harena : arena' = arena := by
      have howned := hred.owned
      rw [hs'] at howned
      simpa using howned
    subst harena
    have hdevice : s'.device = d' := by rw [hs']
    have hmoved : AllMoved sys host cfg (specSlots l specs) s s' := by
      rintro slot ⟨spec, hspec, rfl⟩
      obtain ⟨hsrc, hbytes⟩ := hspecs spec hspec
      have hread := (hred.copied spec hspec).2
      rw [← hred.ptr spec hspec] at hread
      rw [← hsrc, ← hbytes]
      refine ⟨arena', ?_, ?_, hread⟩
      · rw [hred.owned]
        exact List.mem_append_right s.owned (List.mem_singleton_self arena')
      · rw [← (layoutArena_eq_some hlayout).1] at hspec
        obtain ⟨t, ht, rfl⟩ := List.mem_map.mp hspec
        have hptr : s'.weights.ptr (.layer l t.1.slot) = arenaPtr arena' t.2 := by
          rw [hs']
          refine publishTensors_of_mem ?_ t ht
          rwa [← (layoutArena_eq_some hlayout).1, List.map_map] at hnodup
        rw [hdevice, hptr]
        exact (hinside t ht).writes hwrites
    have hgrows : Grows sys s s' := .one halloc.fresh hred.owned hred.live
    refine ⟨⟨⟨hred.fields, ?_, hgrows.subset, ?_, ?_⟩, hgrows⟩, by simp, fun _ => hmoved⟩
    · rw [hdevice]
      exact halloc.keeps_of_writes hwrites
    · intro slot hslot
      exact hred.others slot fun spec hspec heq => hslot ⟨spec, hspec, heq⟩
    · intro slot
      by_cases hslot : slot ∈ specSlots l specs
      · exact Or.inr (hmoved slot hslot)
      · exact Or.inl (hred.others slot fun spec hspec heq => hslot ⟨spec, hspec, heq⟩)

end

/-- The bytes of the quantised weights of a layer. -/
def quantBytes (cfg : ModelConfig) (mw : ModelWeights) (l : ℕ) : ℕ :=
  ([.wq, .wk, .wv, .wo, .wGate, .wUp, .wDown].map fun kind =>
    slotBytes cfg mw (.layer l kind)).sum

/-- The megabytes that `copyLayers` counts for these layers. -/
def layersMb (cfg : ModelConfig) (mw : ModelWeights) (ls : List ℕ) : ℕ :=
  (ls.map fun l => ceilMb (quantBytes cfg mw l)).sum

section

variable {D H : Type} {sys : System D H} {host : Mem} {cfg : ModelConfig} {s s' : CopyState D}
  {l : ℕ} {ls : List ℕ} {ok : Bool}

theorem quantBytes_fields {mw mw' : ModelWeights} (h : mw' = { mw with ptr := mw'.ptr }) (l : ℕ) :
    quantBytes cfg mw' l = quantBytes cfg mw l := by
  simp only [quantBytes, slotBytes_fields h]

theorem mul32_eq_some {a b c : ℤ} (h : mul32 a b = some c) : c = a * b := by
  rw [mul32, Option.ite_none_right_eq_some] at h
  exact (Option.some.inj h.2).symm

theorem layerSpecs_bytes (mw : ModelWeights) (l : ℕ) :
    (layerSpecs mw l cfg.hiddenDim.toInt (cfg.nHeads.toInt * cfg.headDim.toInt)
      (cfg.nKvHeads.toInt * cfg.headDim.toInt) cfg.intermediateDim.toInt).map TensorSpec.bytes =
    [.wq, .wk, .wv, .wo, .wGate, .wUp, .wDown].map fun kind => slotBytes cfg mw (.layer l kind) :=
  rfl

theorem specSlots_layerSpecs (mw : ModelWeights) (l : ℕ) (hidden q kv intermediate : ℤ) :
    specSlots l (layerSpecs mw l hidden q kv intermediate) = layerSlots quantKinds [l] := by
  ext slot
  simp only [specSlots, layerSpecs, layerSlots, quantKinds, Set.mem_ofPred_eq, List.mem_cons,
    List.mem_nil_iff, or_false, exists_eq_or_imp, exists_eq_left, Set.mem_insert_iff,
    Set.mem_singleton_iff]

theorem layerQuantWeightBytes_eq_some {mw : ModelWeights} {bytes : ℕ}
    (h : layerQuantWeightBytes cfg mw l = some bytes) :
    bytes = quantBytes cfg mw l % 0x10000000000000000 := by
  rw [layerQuantWeightBytes, Option.bind_eq_some_iff] at h
  obtain ⟨q, hq, h⟩ := h
  rw [Option.map_eq_some_iff] at h
  obtain ⟨kv, hkv, rfl⟩ := h
  rw [mul32_eq_some hq, mul32_eq_some hkv, layerSpecs_bytes, quantBytes]

/-- A layer is moved as a whole, or not at all. -/
theorem copyLayer_advances (hsys : sys.Lawful)
    (hfits : quantBytes cfg s.weights l < 0x8000000000000000)
    (h : copyLayerQuantWeightsToDevice sys.cuda host l cfg s = some (ok, s')) :
    Advances sys host cfg (layerSlots quantKinds [l]) s s' ∧ (ok = false → s'.weights = s.weights) ∧
      (ok = true → AllMoved sys host cfg (layerSlots quantKinds [l]) s s') := by
  obtain ⟨q, kv, hq, hkv, hcopy⟩ := copyLayer_eq_some_iff.mp h
  rw [mul32_eq_some hq, mul32_eq_some hkv] at hcopy
  rw [← specSlots_layerSpecs s.weights l]
  refine copySpecsToDevice_advances hsys (by simp [layerSpecs]) (by simp [layerSpecs]) ?_ ?_ hcopy
  · rw [LayerFits, layerSpecs_bytes]
    refine lt_of_le_of_lt (Bump.total_le _) ?_
    rw [quantBytes] at hfits
    rw [List.length_map]
    simp only [List.length_cons, List.length_nil]
    omega
  · simp [layerSpecs, slotBytes, TensorSpec.bytes]

theorem copyLayer_grows (hsys : sys.Lawful)
    (h : copyLayerQuantWeightsToDevice sys.cuda host l cfg s = some (ok, s')) :
    Grows sys s s' := by
  obtain ⟨q, kv, -, -, hcopy⟩ := copyLayer_eq_some_iff.mp h
  cases ok with
  | false =>
    obtain ⟨-, howned, hlive⟩ := copySpecsToDevice_false hsys.cuda hcopy
    exact .of_live howned hlive
  | true =>
    obtain ⟨arena, arenaBytes, offset, hred⟩ :=
      copySpecsToDevice_true hsys.cuda (by simp [layerSpecs]) (by simp [layerSpecs]) hcopy
    exact .one (hsys.cuda.malloc_fresh hred.malloc) hred.owned hred.live

theorem copyLayers_grows (hsys : sys.Lawful) {freeMb : ℤ} {n n' : LayersCopied}
    (h : copyLayers sys host cfg ls freeMb n s = some (n', s')) : Grows sys s s' := by
  induction ls generalizing s n freeMb with
  | nil =>
    cases h
    exact .of_live rfl rfl
  | cons l ls ih =>
    rw [copyLayers, Option.bind_eq_some_iff] at h
    obtain ⟨bytes, -, h⟩ := h
    split at h
    · cases h
      exact .of_live rfl rfl
    split at h
    · cases h
      exact .of_live rfl rfl
    rw [Option.bind_eq_some_iff] at h
    obtain ⟨⟨ok, s₁⟩, hlayer, h⟩ := h
    have hgrows := copyLayer_grows hsys hlayer
    cases ok with
    | false =>
      cases h
      exact hgrows
    | true => exact hgrows.trans (ih h)

/-- The blocks of the layers are owned, also where a layer is too large to be placed. -/
theorem materializeLayerWeights_grows (hsys : sys.Lawful) {env : WeightEnv}
    {budget : MemoryBudget} {bytes : ℕ}
    (h : materializeLayerWeights sys host env cfg budget s = some (bytes, s')) :
    Grows sys s s' := by
  rw [materializeLayerWeights] at h
  simp only at h
  split at h
  · cases h
    exact .of_live rfl rfl
  split at h
  · cases h
    exact .of_live rfl rfl
  set layerCap := if env.deviceLayerLimit < 0 then s.weights.nLayers
    else min env.deviceLayerLimit s.weights.nLayers
  split at h
  · cases h
    exact .of_live rfl rfl
  rw [Option.map_eq_some_iff] at h
  obtain ⟨⟨n, s₁⟩, hlayers, h⟩ := h
  have hgrows := copyLayers_grows hsys hlayers
  split at h <;> cases h <;> exact hgrows

/-- What the loop has done after the layers `done`, with `freeMb` megabytes and the counts `n`
before them. -/
structure FirstLayers (sys : System D H) (host : Mem) (cfg : ModelConfig) (freeMb : ℤ)
    (n n' : LayersCopied) (s s' : CopyState D) (done : List ℕ) : Prop where
  count : n'.layers = n.layers + done.length
  advances : Advances sys host cfg (layerSlots quantKinds done) s s'
  moved : AllMoved sys host cfg (layerSlots quantKinds done) s s'
  reserve : done = [] ∨ 128 ≤ freeMb - layersMb cfg s.weights done
  total : n'.totalBytes ≤ n.totalBytes + layersMb cfg s.weights done * (1024 * 1024)

theorem FirstLayers.nil {freeMb : ℤ} {n : LayersCopied}
    (h : Advances sys host cfg (layerSlots quantKinds []) s s') :
    FirstLayers sys host cfg freeMb n n s s' [] where
  count := rfl
  advances := h
  moved := by
    rintro slot ⟨l, hl, -⟩
    cases hl
  reserve := Or.inl rfl
  total := Nat.le_add_right _ _

theorem le_ceilMb {bytes : ℕ} (h : bytes < 0x8000000000000000) :
    bytes ≤ ceilMb bytes * (1024 * 1024) := by
  rw [ceilMb, Nat.mod_eq_of_lt (by omega)]
  omega

theorem FirstLayers.cons {s₁ : CopyState D} {freeMb : ℤ} {n n' : LayersCopied} {done : List ℕ}
    (hl : l ∉ done) (hfits : quantBytes cfg s.weights l < 0x8000000000000000)
    (hroom : ¬freeMb < ceilMb (quantBytes cfg s.weights l) + 128)
    (hadvances : Advances sys host cfg (layerSlots quantKinds [l]) s s₁)
    (hmoved : AllMoved sys host cfg (layerSlots quantKinds [l]) s s₁)
    (h : FirstLayers sys host cfg (freeMb - ceilMb (quantBytes cfg s.weights l))
      ⟨(n.totalBytes + quantBytes cfg s.weights l) % 0x10000000000000000, n.layers + 1⟩ n' s₁ s'
      done) :
    FirstLayers sys host cfg freeMb n n' s s' (l :: done) := by
  have hcons : layerSlots quantKinds (l :: done) =
      layerSlots quantKinds [l] ∪ layerSlots quantKinds done := layerSlots_cons
  have hdisjoint : Disjoint (layerSlots quantKinds [l]) (layerSlots quantKinds done) := by
    refine layerSlots_disjoint fun l' hl' hmem => absurd hmem ?_
    rwa [List.mem_singleton.mp hl']
  have hmb : layersMb cfg s₁.weights done = layersMb cfg s.weights done := by
    simp only [layersMb, quantBytes_fields hadvances.moves.fields]
  have hsum : layersMb cfg s.weights (l :: done) =
      ceilMb (quantBytes cfg s.weights l) + layersMb cfg s.weights done := List.sum_cons
  have hcount : n'.layers = n.layers + 1 + done.length := h.count
  have hreserve := h.reserve
  have htotal := h.total
  rw [hmb] at hreserve htotal
  refine ⟨?_, ?_, ?_, Or.inr ?_, ?_⟩
  · rw [hcount, List.length_cons]
    omega
  · rw [hcons]
    exact hadvances.trans h.advances hdisjoint
  · rw [hcons]
    exact (hmoved.later h.advances.moves hdisjoint).union (h.moved.earlier hadvances.moves hdisjoint)
  · rw [hsum]
    rcases hreserve with rfl | hreserve
    · simp only [layersMb, List.map_nil, List.sum_nil]
      omega
    · omega
  · have hbytes := le_ceilMb hfits
    have hmod := Nat.mod_le (n.totalBytes + quantBytes cfg s.weights l) 0x10000000000000000
    simp only at htotal
    rw [hsum]
    omega

/-- The loop moves the first layers of the list, each as a whole, and leaves 128 MB. -/
theorem copyLayers_first (hsys : sys.Lawful) (hnodup : ls.Nodup) {freeMb : ℤ}
    {n n' : LayersCopied}
    (hfits : ∀ l ∈ ls, quantBytes cfg s.weights l < 0x8000000000000000)
    (h : copyLayers sys host cfg ls freeMb n s = some (n', s')) :
    ∃ done, done <+: ls ∧ FirstLayers sys host cfg freeMb n n' s s' done := by
  induction ls generalizing s n freeMb with
  | nil =>
    cases h
    exact ⟨[], List.nil_prefix, .nil .refl⟩
  | cons l ls ih =>
    obtain ⟨hl, hnodup⟩ := List.nodup_cons.mp hnodup
    obtain ⟨hfirst, hrest⟩ := List.forall_mem_cons.mp hfits
    rw [copyLayers, Option.bind_eq_some_iff] at h
    obtain ⟨bytes, hbytes, h⟩ := h
    have hbytes := layerQuantWeightBytes_eq_some hbytes
    rw [Nat.mod_eq_of_lt (by omega)] at hbytes
    subst hbytes
    split at h
    · cases h
      exact ⟨[], List.nil_prefix, .nil .refl⟩
    split at h
    · cases h
      exact ⟨[], List.nil_prefix, .nil .refl⟩
    rename_i hroom
    rw [Option.bind_eq_some_iff] at h
    obtain ⟨⟨ok, s₁⟩, hlayer, h⟩ := h
    obtain ⟨hadvances, hsame, hmoved⟩ := copyLayer_advances hsys hfirst hlayer
    cases ok with
    | false =>
      cases h
      exact ⟨[], List.nil_prefix, .nil (hadvances.of_same (hsame rfl))⟩
    | true =>
      obtain ⟨done, hdone, hlayers⟩ := ih hnodup
        (fun l hl => by
          rw [quantBytes_fields hadvances.moves.fields]
          exact hrest l hl) h
      exact ⟨l :: done, List.cons_prefix_cons.mpr ⟨rfl, hdone⟩,
        hlayers.cons (fun hmem => hl (hdone.subset hmem)) hfirst hroom hadvances (hmoved rfl)⟩

/-- What `materialize_layer_weights` can do. Where it has to, it moves every layer. -/
theorem materializeLayerWeights_first (hsys : sys.Lawful) {env : WeightEnv} {budget : MemoryBudget}
    {bytes : ℕ}
    (hfits : ∀ l < s.weights.nLayers.toNat, quantBytes cfg s.weights l < 0x8000000000000000)
    (h : materializeLayerWeights sys host env cfg budget s = some (bytes, s')) :
    ∃ done, done <+: List.range s.weights.nLayers.toNat ∧
      Advances sys host cfg (layerSlots quantKinds done) s s' ∧
      AllMoved sys host cfg (layerSlots quantKinds done) s s' ∧
      (done = [] ∨ 128 ≤ budget.freeMb - layersMb cfg s.weights done) ∧
      (bytes ≠ sizeMax → bytes ≤ layersMb cfg s.weights done * (1024 * 1024) ∧
        (env.mappedWeightDeviceEnabled = false → env.fastGemvEnabled = true →
          env.deviceLayerLimit ≠ 0 → done = List.range s.weights.nLayers.toNat)) := by
  have hnone : AllMoved sys host cfg (layerSlots quantKinds []) s s := by
    rintro slot ⟨l, hl, -⟩
    cases hl
  rw [materializeLayerWeights] at h
  split at h
  · rename_i hslow
    cases h
    refine ⟨[], List.nil_prefix, .refl, hnone, Or.inl rfl, fun _ => ⟨Nat.zero_le _, ?_⟩⟩
    intro _ hfast
    simp [hfast] at hslow
  simp only at h
  split at h
  · rename_i hzero
    cases h
    exact ⟨[], List.nil_prefix, .refl, hnone, Or.inl rfl,
      fun _ => ⟨Nat.zero_le _, fun _ _ hlimit => absurd hzero hlimit⟩⟩
  set layerCap := if env.deviceLayerLimit < 0 then s.weights.nLayers
    else min env.deviceLayerLimit s.weights.nLayers with hlayerCap
  split at h
  · cases h
    exact ⟨[], List.nil_prefix, .refl, hnone, Or.inl rfl, fun hmax => absurd rfl hmax⟩
  rename_i hcap
  rw [Option.map_eq_some_iff] at h
  obtain ⟨⟨n, s₁⟩, hlayers, h⟩ := h
  have hle : layerCap.toNat ≤ s.weights.nLayers.toNat := by
    rw [hlayerCap]
    split_ifs <;> omega
  obtain ⟨done, hleading, hdone⟩ := copyLayers_first hsys List.nodup_range
    (fun l hl => hfits l (lt_of_lt_of_le (List.mem_range.mp hl) hle)) hlayers
  have hrange : List.range layerCap.toNat <+: List.range s.weights.nLayers.toNat := by
    rw [List.prefix_iff_eq_take, List.take_range, List.length_range, min_eq_left hle]
  have hs' : s' = s₁ := by
    split at h <;> cases h <;> rfl
  subst hs'
  refine ⟨done, hleading.trans hrange, hdone.advances, hdone.moved, hdone.reserve, fun hmax => ?_⟩
  split at h
  · cases h
    exact absurd rfl hmax
  rename_i hall
  cases h
  have htotal := hdone.total
  have hcount := hdone.count
  simp only [Nat.zero_add] at htotal hcount
  refine ⟨htotal, fun hoff _ _ => ?_⟩
  rw [hoff] at hall
  simp only [Bool.not_false, true_and, not_lt] at hall
  -- as many layers were moved as there are
  refine List.IsPrefix.eq_of_length_le (hleading.trans hrange) ?_
  rw [List.length_range]
  omega

end

/-- The pages around the range are mapped for the device. -/
structure MapsRange {D H : Type} (sys : System D H) (ptr bytes : ℕ) (m m' : MapState H)
    (first len device : ℕ) : Prop where
  region : m'.region = some ⟨first, device, len⟩
  mappedOutput : m'.mappedOutput = some (first, len)
  fresh : (HostKind.registration, first) ∉ sys.live m.host
  live : sys.live m'.host = insert (.registration, first) (sys.live m.host)
  covers : ptr < 0x10000000000000000 → first ≤ ptr ∧ ptr + bytes ≤ first + len

/-- Nothing is mapped that was not before. -/
structure MapsNothing {D H : Type} (sys : System D H) (m m' : MapState H) : Prop where
  region : m'.region = m.region
  mappedOutput : m'.mappedOutput = m.mappedOutput
  live : sys.live m'.host = sys.live m.host

/-- How `materialize_output_weight` can end. -/
inductive OutputMoved {D H : Type} (sys : System D H) (host : Mem) (env : WeightEnv)
    (cfg : ModelConfig) (budget : MemoryBudget) (s s' : CopyState D) (m m' : MapState H) :
    ℕ → Prop
  | skipped (weights : s'.weights = s.weights) (maps : MapsNothing sys m m') :
      OutputMoved sys host env cfg budget s s' m m' 0
  | mapped (bytes first len device : ℕ) (pos : 0 < bytes)
      (size : bytes = slotBytes cfg s.weights .output)
      (off : env.mappedWeightDeviceEnabled = false) (weights : s'.weights = s.weights)
      (maps : MapsRange sys (s.weights.ptr .output) bytes m m' first len device) :
      OutputMoved sys host env cfg budget s s' m m' bytes
  | copied (bytes : ℕ) (pos : 0 < bytes) (size : bytes = slotBytes cfg s.weights .output)
      (reserve : 128 ≤ budget.freeMb - ceilMb bytes)
      (moved : AllMoved sys host cfg {.output} s s')
      (maps : MapsNothing sys m m') : OutputMoved sys host env cfg budget s s' m m' bytes

section

variable {D H : Type} {sys : System D H} {host : Mem} {cfg : ModelConfig} {s s' : CopyState D}
  {m m' : MapState H} {ptr bytes : ℕ}

theorem MapsNothing.refl : MapsNothing sys m m := ⟨rfl, rfl, rfl⟩

theorem MapsNothing.trans {m'' : MapState H} (h : MapsNothing sys m m')
    (h' : MapsNothing sys m' m'') : MapsNothing sys m m'' :=
  ⟨h'.region.trans h.region, h'.mappedOutput.trans h.mappedOutput, h'.live.trans h.live⟩

theorem MapsRange.of_nothing {m₁ : MapState H} {first len device : ℕ}
    (h : MapsNothing sys m m₁) (h' : MapsRange sys ptr bytes m₁ m' first len device) :
    MapsRange sys ptr bytes m m' first len device where
  region := h'.region
  mappedOutput := h'.mappedOutput
  fresh := by
    rw [← h.live]
    exact h'.fresh
  live := by rw [h'.live, h.live]
  covers := h'.covers

/-- The pages from the one of `ptr` to the one of the range's last byte. -/
theorem page_range {page : ℕ} (hpage : 0 < page) (hlong : page < 0x8000000000000000)
    (hbytes : bytes < 0x8000000000000000) (hptr : ptr < 0x10000000000000000)
    (h : ¬(ptr + bytes + page - 1) % 0x10000000000000000 / page * page ≤ ptr / page * page) :
    ptr / page * page ≤ ptr ∧ ptr + bytes ≤ ptr / page * page +
      ((ptr + bytes + page - 1) % 0x10000000000000000 / page * page - ptr / page * page) := by
  refine ⟨Nat.div_mul_le_self ptr page, ?_⟩
  by_cases hwrap : ptr + bytes + page - 1 < 0x10000000000000000
  · rw [Nat.mod_eq_of_lt hwrap] at h ⊢
    have hup := Nat.lt_div_mul_add (a := ptr + bytes + page - 1) hpage
    omega
  · -- past the end of the addresses the range would end before it starts
    have hmod : (ptr + bytes + page - 1) % 0x10000000000000000 ≤ ptr := by omega
    exact absurd (Nat.mul_le_mul_right page (Nat.div_le_div_right hmod)) h

theorem mapHostWeightRangeForGpu_true (hsys : sys.Lawful) (hbytes : bytes < 0x8000000000000000)
    (h : mapHostWeightRangeForGpu sys ptr bytes m = (true, m')) :
    ∃ first len device, MapsRange sys ptr bytes m m' first len device := by
  rw [mapHostWeightRangeForGpu] at h
  simp only at h
  split at h
  · cases h
  split at h
  · cases h
  rename_i hrange
  split at h
  · cases h
  rename_i h₁ hregister
  split at h
  · cases h
  rename_i device h₂ hdevice
  cases h
  obtain ⟨-, hfresh, hlive⟩ := hsys.register_true (by rw [hregister])
  have hsame := hsys.devicePointer_live (h := h₁) (b := ptr / sys.pageSize * sys.pageSize)
  rw [hregister] at hlive
  rw [hdevice] at hsame
  exact ⟨_, _, device, rfl, rfl, hfresh, hsame.trans hlive,
    fun hptr => page_range hsys.page_pos hsys.page_long hbytes hptr hrange⟩

theorem mapHostWeightRangeForGpu_false (hsys : sys.Lawful)
    (h : mapHostWeightRangeForGpu sys ptr bytes m = (false, m')) : MapsNothing sys m m' := by
  rw [mapHostWeightRangeForGpu] at h
  simp only at h
  split at h
  · cases h
    exact .refl
  split at h
  · cases h
    exact .refl
  split at h
  · rename_i h₁ hregister
    cases h
    have hlive := hsys.register_false (by rw [hregister])
    rw [hregister] at hlive
    exact ⟨rfl, rfl, hlive⟩
  rename_i h₁ hregister
  obtain ⟨-, hfresh, hlive⟩ := hsys.register_true (by rw [hregister])
  rw [hregister] at hlive
  split at h
  · rename_i h₂ hdevice
    cases h
    have hsame := hsys.devicePointer_live (h := h₁) (b := ptr / sys.pageSize * sys.pageSize)
    rw [hdevice] at hsame
    refine ⟨rfl, rfl, ?_⟩
    rw [hsys.put_live, hsame, hlive, Set.insert_sdiff_self_of_notMem hfresh]
  · cases h

/-- A matrix takes no more bytes than it has weights. -/
theorem kquantTensorBytes_le (type : UInt32) (rows cols : ℤ) :
    kquantTensorBytes type rows cols ≤ rows.toNat * cols.toNat := by
  rw [kquantTensorBytes]
  split
  · exact Nat.zero_le _
  have hcols : (cols / 256).toNat * 210 ≤ cols.toNat := by omega
  rw [Nat.mul_assoc]
  refine Nat.mul_le_mul_left _ (le_trans (Nat.mul_le_mul_left _ ?_) hcols)
  split_ifs <;> omega

theorem kquantTensorBytes_lt (type : UInt32) {rows cols : ℤ} (hrows : rows < 0x80000000)
    (hcols : cols < 0x80000000) : kquantTensorBytes type rows cols < 0x8000000000000000 := by
  have hweights : rows.toNat * cols.toNat ≤ 0x80000000 * 0x80000000 :=
    Nat.mul_le_mul (by omega) (by omega)
  exact lt_of_le_of_lt ((kquantTensorBytes_le type rows cols).trans hweights) (by decide)

/-- The two ways in which the pages are mapped, or not. -/
theorem mapIf_cases (hsys : sys.Lawful) {cond : Bool} (hbytes : bytes < 0x8000000000000000)
    {ok : Bool} (h : mapIf sys cond ptr bytes m = (ok, m')) :
    (ok = true ∧ cond = true ∧
        ∃ first len device, MapsRange sys ptr bytes m m' first len device) ∨
      (ok = false ∧ MapsNothing sys m m') := by
  rw [mapIf] at h
  split at h
  · rename_i hcond
    cases ok with
    | true => exact Or.inl ⟨rfl, hcond, mapHostWeightRangeForGpu_true hsys hbytes h⟩
    | false => exact Or.inr ⟨rfl, mapHostWeightRangeForGpu_false hsys h⟩
  · cases h
    exact Or.inr ⟨rfl, .refl⟩

/-- What `materialize_output_weight` can do. -/
theorem materializeOutputWeight_moved (hsys : sys.Lawful) {env : WeightEnv} {budget : MemoryBudget}
    {n : ℕ}
    (h : materializeOutputWeight sys host env cfg budget s m = (n, s', m')) :
    Advances sys host cfg {.output, .tokEmbd} s s' ∧
      OutputMoved sys host env cfg budget s s' m m' n := by
  rw [materializeOutputWeight] at h
  simp only at h
  split at h
  · cases h
    exact ⟨.refl, .skipped rfl .refl⟩
  split at h
  · cases h
    exact ⟨.refl, .skipped rfl .refl⟩
  rename_i hzero
  set bytes := kquantTensorBytes s.weights.outputType cfg.vocabSize.toInt cfg.hiddenDim.toInt
    with hbytes
  have hlt : bytes < 0x8000000000000000 :=
    kquantTensorBytes_lt _ cfg.vocabSize.toInt_lt cfg.hiddenDim.toInt_lt
  have hpos : 0 < bytes := Nat.pos_of_ne_zero hzero
  clear_value bytes
  -- a range is only mapped where the layers are not
  have hmapped : ∀ {cond : Bool} {m₁ m₂ : MapState H} {s₁ : CopyState D},
      (cond = true → env.mappedWeightDeviceEnabled = false) → MapsNothing sys m m₁ →
      s₁.weights = s.weights →
      mapIf sys cond (s.weights.ptr .output) bytes m₁ = (true, m₂) →
      OutputMoved sys host env cfg budget s s₁ m m₂ bytes := by
    intro cond m₁ m₂ s₁ hoff hnothing hsame hmap
    rcases mapIf_cases hsys hlt hmap with ⟨-, hcond, first, len, device, hrange⟩ | ⟨hfalse, -⟩
    · exact .mapped bytes first len device hpos hbytes (hoff hcond) hsame (hrange.of_nothing hnothing)
    · cases hfalse
  have hunmapped : ∀ {cond : Bool} {m₁ m₂ : MapState H},
      mapIf sys cond (s.weights.ptr .output) bytes m₁ = (false, m₂) → MapsNothing sys m₁ m₂ := by
    intro cond m₁ m₂ hmap
    rcases mapIf_cases hsys hlt hmap with ⟨hfalse, -⟩ | ⟨-, hnothing⟩
    · cases hfalse
    · exact hnothing
  split at h
  · rename_i m₁ hmap
    cases h
    exact ⟨.refl, hmapped (by simp +contextual) .refl rfl hmap⟩
  rename_i m₁ hmap
  have hfirst := hunmapped hmap
  split at h
  · -- the budget is spent
    split at h
    · rename_i m₂ hmap₂
      cases h
      exact ⟨.refl, hmapped (by simp) hfirst rfl hmap₂⟩
    · rename_i m₂ hmap₂
      cases h
      exact ⟨.refl, .skipped rfl (hfirst.trans (hunmapped hmap₂))⟩
  rename_i hroom
  split at h
  · rename_i d hmalloc
    obtain ⟨hkeeps, hlive⟩ := hsys.not_allocated hmalloc
    split at h
    · rename_i m₂ hmap₂
      cases h
      exact ⟨.of_keeps hkeeps hlive, hmapped (by simp) hfirst rfl hmap₂⟩
    · rename_i m₂ hmap₂
      cases h
      exact ⟨.of_keeps hkeeps hlive, .skipped rfl (hfirst.trans (hunmapped hmap₂))⟩
  rename_i p d hmalloc
  split at h
  · rename_i d₂ hcopy
    cases h
    obtain ⟨hkeeps, hlive⟩ := hsys.not_copied hmalloc hcopy
    exact ⟨.of_keeps hkeeps hlive, .skipped rfl hfirst⟩
  · rename_i d₂ hcopy
    cases h
    have hnew := hsys.newCopy hmalloc hcopy
    have hreserve : 128 ≤ budget.freeMb - ceilMb n := by omega
    split
    · -- the token embedding is the same tensor
      rename_i htied
      simp only [Bool.and_eq_true, decide_eq_true_eq] at htied
      obtain ⟨hadvances, hmoved⟩ := hnew.advances_of cfg {.output, .tokEmbd}
        (Function.update (Function.update s.weights.ptr .output p) .tokEmbd p) (by
          rintro slot (rfl | rfl)
          · exact ⟨by simp, rfl, hbytes.symm⟩
          · exact ⟨by simp, htied.1.symm, hbytes.symm⟩) (by
          intro slot hslot
          simp only [Set.mem_insert_iff, Set.mem_singleton_iff, not_or] at hslot
          rw [Function.update_of_ne hslot.2, Function.update_of_ne hslot.1])
      exact ⟨hadvances, .copied n hpos hbytes hreserve (fun slot hslot => hmoved slot (Or.inl hslot))
        hfirst⟩
    · obtain ⟨hadvances, hmoved⟩ := hnew.advances_of cfg {.output} _
        (fun slot hslot =>
          ⟨by rw [hslot, Function.update_self], by rw [hslot], by rw [hslot, hbytes]; rfl⟩)
        fun slot hslot => Function.update_of_ne hslot p s.weights.ptr
      exact ⟨hadvances.mono (by simp), .copied n hpos hbytes hreserve hmoved hfirst⟩

end

end JLLM
