import Mathlib.Algebra.Order.Group.Multiset
import Mathlib.Tactic.Abel
import ReflexLlm.Lib.Runs
import ReflexLlm.Proofs.Materialize
import ReflexLlm.Proofs.RecordedSystem

/-! What `load` gets from the system, `unload` gives back, wherever `load` has ended. One thing
is kept: the registration of the file's mapping when its device pointer could not be had. -/

namespace JLLM

open ByteMem EarlyReturn Ownership

/-- What a pointer that is not null stands for. -/
def heldAs (kind : HostKind) (held : Option ℕ) : List (HostKind × ℕ) := held.toList.map (kind, ·)

/-- The registration of the mapping that `unload` can see. -/
def blobRegistered (blob : ℕ) (region : Option MappedWeightRegion)
    (mappedOutput : Option (ℕ × ℕ)) : Bool :=
  mappedOutput.isNone && (resolveMappedWeightDevicePtr region blob).isSome

/-- The mapping of the file, with its registration. -/
def blobHeld (blob : Option ℕ) (region : Option MappedWeightRegion)
    (mappedOutput : Option (ℕ × ℕ)) : List (HostKind × ℕ) :=
  match blob with
  | none => []
  | some blob =>
      (if blobRegistered blob region mappedOutput then [(.registration, blob)] else []) ++
        [(.mapping, blob)]

namespace LoadState

variable {D H : Type}

/-- The blocks of the device that the fields of the engine name. -/
def deviceHeld (s : LoadState D H) : List ℕ :=
  s.scratchBase.toList ++ (s.buffers.kvScales.toList ++ (s.buffers.gpuPool.toList ++ s.owned))

/-- What the fields of the engine name of the host. -/
def hostHeld (s : LoadState D H) : List (HostKind × ℕ) :=
  heldAs .hostLogits s.hostLogits ++ (heldAs .stream s.stream ++
    (heldAs .registration (s.mappedOutput.map Prod.fst) ++
      (heldAs .overflowPool s.buffers.cpuPool ++
        (heldAs .layers s.layers ++ blobHeld s.blob s.region s.mappedOutput))))

/-- The region that is registered is the one of the mapping, or the one of the output
projection. -/
def RegionKnown (env : WeightEnv) (s : LoadState D H) : Prop :=
  match s.mappedOutput with
  | some (base, len) =>
      env.mappedWeightDeviceEnabled = false ∧ ∃ device, s.region = some ⟨base, device, len⟩
  | none =>
      s.region = none ∨ env.mappedWeightDeviceEnabled = true ∧
        ∃ blob device len, s.blob = some blob ∧ blob ≠ 0 ∧ 0 < len ∧
          s.region = some ⟨blob, device, len⟩

/-- Nothing is held. -/
structure Unloaded (s : LoadState D H) : Prop where
  owned : s.owned = []
  region : s.region = none
  mappedOutput : s.mappedOutput = none
  blob : s.blob = none
  layers : s.layers = none
  buffers : s.buffers = {}
  scratchBase : s.scratchBase = none
  stream : s.stream = none
  hostLogits : s.hostLogits = none

end LoadState

open LoadState

section

variable {D H : Type} (sys : System D H) (env : WeightEnv)

/-- The registration that the call for the file's mapping keeps. -/
def lostRegistration (size : ℕ) (h : H) : List (HostKind × ℕ) :=
  match sys.get .mapping h size with
  | (none, _) => []
  | (some blob, h) =>
      if env.mappedWeightDeviceEnabled then
        match sys.register h blob size with
        | (false, _) => []
        | (true, h) =>
            match sys.devicePointer h blob with
            | (some _, _) => []
            | (none, _) => [(.registration, blob)]
      else []

/-- The registration that `load` keeps. -/
def lostByLoad (f : ByteStream.Stream) (maxTensors size : ℕ) (h : H) : List (HostKind × ℕ) :=
  match (parseTensorInfos f maxTensors).1 with
  | .undefined => []
  | .threw => []
  | .returned offset _ => if offset < 0 then [] else lostRegistration sys env size h

/-- What is live is what was live before `load`, what the engine's fields name, and `lost`. -/
structure Accounted (deviceBase : Set ℕ) (hostBase : Set (HostKind × ℕ))
    (lost : List (HostKind × ℕ)) (s : LoadState D H) : Prop where
  device : Owns deviceBase (sys.cuda.live s.device) s.deviceHeld
  host : Owns hostBase (sys.live s.host) (s.hostHeld ++ lost)
  region : s.RegionKnown env

end

section

variable {D H : Type} {sys : System D H} {env : WeightEnv} {deviceBase : Set ℕ}
  {hostBase : Set (HostKind × ℕ)} {lost : List (HostKind × ℕ)} {s s' : LoadState D H}

theorem Accounted.start (sys : System D H) (env : WeightEnv) (h : s.Unloaded) :
    Accounted sys env (sys.cuda.live s.device) (sys.live s.host) [] s where
  device := by
    have hheld : s.deviceHeld = [] := by simp [deviceHeld, h.owned, h.buffers, h.scratchBase]
    rw [hheld]
    exact .start _
  host := by
    have hheld : s.hostHeld ++ [] = [] := by
      simp [hostHeld, heldAs, blobHeld, h.mappedOutput, h.blob, h.layers, h.buffers, h.stream,
        h.hostLogits]
    rw [hheld]
    exact .start _
  region := by
    rw [RegionKnown, h.mappedOutput]
    exact Or.inl h.region

/-- The blocks of the weights are new ones that `owned` has got. -/
theorem Accounted.grows {c : CopyState D} (h : Accounted sys env deviceBase hostBase lost s)
    (hgrows : Grows sys s.toCopyState c) :
    Accounted sys env deviceBase hostBase lost { s with toCopyState := c } where
  device := by
    obtain ⟨new, howned, hnodup, hfresh, hlive⟩ := hgrows
    have howns := h.device.acquireAll hnodup hfresh
    rw [← hlive] at howns
    refine howns.perm (List.perm_append_comm.trans (List.Perm.of_eq ?_))
    simp only [deviceHeld, howned, List.append_assoc]
  host := h.host
  region := h.region

/-- The pages of the output projection are mapped, or nothing is. -/
theorem Accounted.maps {m : MapState H} {ptr bytes first len device : ℕ}
    (h : Accounted sys env deviceBase hostBase lost s) (hoff : env.mappedWeightDeviceEnabled = false)
    (hnone : s.mappedOutput = none) (hstream : s.stream = none) (hlogits : s.hostLogits = none)
    (hmaps : MapsRange sys ptr bytes s.toMapState m first len device) :
    Accounted sys env deviceBase hostBase lost { s with toMapState := m } where
  device := h.device
  host := by
    have howns := h.host.acquire hmaps.fresh
    rw [← hmaps.live] at howns
    refine howns.perm (List.Perm.of_eq ?_)
    have hregion := h.region
    rw [RegionKnown, hnone, hoff] at hregion
    have hnone' : s.region = none := by simpa using hregion
    -- the mapping of the file was not registered, and is not now
    have hblob : blobHeld s.blob m.region (some (first, len)) = blobHeld s.blob s.region none := by
      cases s.blob with
      | none => rfl
      | some blob =>
        simp [blobHeld, blobRegistered, resolveMappedWeightDevicePtr, hnone']
    simp [hostHeld, heldAs, hstream, hlogits, hnone, hmaps.mappedOutput, hblob]
  region := by
    rw [RegionKnown, hmaps.mappedOutput]
    exact ⟨hoff, device, hmaps.region⟩

theorem putHost_owns (hsys : sys.Lawful) {kind : HostKind} {held : Option ℕ} {h : H}
    {rest : List (HostKind × ℕ)} (howns : Owns hostBase (sys.live h) (heldAs kind held ++ rest)) :
    Owns hostBase (sys.live (putHost sys kind held h)) rest := by
  cases held with
  | none => exact howns
  | some x =>
    rw [putHost, hsys.put_live]
    exact howns.release

theorem cudaFree_owns (hsys : sys.Lawful) {held : Option ℕ} {d : D} {rest : List ℕ}
    (howns : Owns deviceBase (sys.cuda.live d) (held.toList ++ rest)) :
    Owns deviceBase (sys.cuda.live (cudaFree sys held d)) rest := by
  cases held with
  | none => exact howns
  | some p =>
    rw [cudaFree, hsys.cuda.free_live]
    exact howns.release

theorem freeAll_owns (hsys : sys.Lawful) {ps : List ℕ} {d : D} {rest : List ℕ}
    (howns : Owns deviceBase (sys.cuda.live d) (ps ++ rest)) :
    Owns deviceBase (sys.cuda.live (ps.foldl sys.cuda.free d)) rest := by
  induction ps generalizing d with
  | nil => exact howns
  | cons p ps ih =>
    apply ih
    rw [hsys.cuda.free_live]
    exact howns.release

theorem unmapOutput_owns (hsys : sys.Lawful) {m : MapState H} {rest : List (HostKind × ℕ)}
    (howns : Owns hostBase (sys.live m.host)
      (heldAs .registration (m.mappedOutput.map Prod.fst) ++ rest)) :
    Owns hostBase (sys.live (unmapOutput sys m).host) rest := by
  rw [unmapOutput]
  split
  · rename_i hnone
    rwa [hnone] at howns
  · rename_i base len hsome
    rw [hsome] at howns
    rw [hsys.put_live]
    exact howns.release

theorem unmapBlob_owns (hsys : sys.Lawful) {blob : Option ℕ} {m : MapState H}
    {rest : List (HostKind × ℕ)} (hnone : m.mappedOutput = none)
    (howns : Owns hostBase (sys.live m.host) (blobHeld blob m.region m.mappedOutput ++ rest)) :
    Owns hostBase (sys.live (unmapBlob sys blob m).host) rest := by
  cases blob with
  | none => exact howns
  | some blob =>
    have hregistered : blobRegistered blob m.region m.mappedOutput =
        (resolveMappedWeightDevicePtr m.region blob).isSome := by
      rw [blobRegistered, hnone, Option.isNone_none, Bool.true_and]
    rw [blobHeld, hregistered, List.append_assoc] at howns
    simp only [unmapBlob]
    rw [hsys.put_live]
    split at howns
    · rename_i hresolved
      rw [if_pos hresolved, hsys.put_live]
      exact howns.release.release
    · rename_i hresolved
      rw [if_neg hresolved]
      exact howns.release

/-- The region is cleared with the pages that it stands for. -/
theorem unmapOutput_region (sys : System D H) (h : s.RegionKnown env) {m : MapState H}
    (hregion : m.region = s.region) (houtput : m.mappedOutput = s.mappedOutput) :
    (unmapOutput sys m).mappedOutput = none ∧
      ((unmapOutput sys m).region = none ∧ (s.mappedOutput = none → s.region = none) ∨
        s.mappedOutput = none ∧ (unmapOutput sys m).region = s.region ∧
        ∃ blob device len, s.blob = some blob ∧ s.region = some ⟨blob, device, len⟩) := by
  rw [RegionKnown] at h
  rw [unmapOutput, houtput, hregion]
  split at h
  · rename_i base len hmapped
    obtain ⟨-, device, hsome⟩ := h
    rw [hmapped, hsome]
    exact ⟨rfl, Or.inl ⟨by simp [clearMappedWeightRegion], fun hnone => by cases hnone⟩⟩
  · rename_i hmapped
    rw [hmapped]
    refine ⟨houtput.trans hmapped, ?_⟩
    rcases h with hnone | ⟨-, blob, device, len, hblob, -, -, hsome⟩
    · exact Or.inl ⟨hregion.trans hnone, fun _ => hnone⟩
    · exact Or.inr ⟨rfl, hregion, blob, device, len, hblob, hsome⟩

/-- `unload` gives back everything that the engine's fields name. -/
theorem unload_owns (hsys : sys.Lawful)
    (h : Accounted sys env deviceBase hostBase lost s) :
    sys.cuda.live (unload sys s).device = deviceBase ∧
      Owns hostBase (sys.live (unload sys s).host) lost ∧ (unload sys s).Unloaded := by
  -- the order in which the fields are given back
  have hdevice : s.deviceHeld.Perm (s.owned ++ (s.buffers.gpuPool.toList ++
      (s.buffers.kvScales.toList ++ (s.scratchBase.toList ++ [])))) := by
    rw [deviceHeld, List.append_nil, ← Multiset.coe_eq_coe]
    simp only [← Multiset.coe_add]
    abel
  have hhost : (s.hostHeld ++ lost).Perm (heldAs .stream s.stream ++
      (heldAs .hostLogits s.hostLogits ++ (heldAs .overflowPool s.buffers.cpuPool ++
        (heldAs .registration (s.mappedOutput.map Prod.fst) ++
          (blobHeld s.blob s.region s.mappedOutput ++ (heldAs .layers s.layers ++ lost)))))) := by
    rw [hostHeld, ← Multiset.coe_eq_coe]
    simp only [← Multiset.coe_add]
    abel
  have hdevice := cudaFree_owns hsys (cudaFree_owns hsys (cudaFree_owns hsys
    (freeAll_owns hsys (h.device.perm hdevice))))
  have hhost := putHost_owns hsys (putHost_owns hsys (putHost_owns hsys (h.host.perm hhost)))
  set h₃ := putHost sys .overflowPool s.buffers.cpuPool
    (putHost sys .hostLogits s.hostLogits (putHost sys .stream s.stream s.host))
  have houtput := unmapOutput_owns (m := { s.toMapState with host := h₃ }) hsys hhost
  obtain ⟨hnone, hregion⟩ := unmapOutput_region sys
    (m := { s.toMapState with host := h₃ }) h.region rfl rfl
  set m := unmapOutput sys { s.toMapState with host := h₃ }
  -- the registration of the mapping is seen as it was
  have hblob :
      blobHeld s.blob s.region s.mappedOutput = blobHeld s.blob m.region m.mappedOutput := by
    cases s.blob with
    | none => rfl
    | some blob =>
      have hsame : blobRegistered blob s.region s.mappedOutput =
          blobRegistered blob m.region m.mappedOutput := by
        rw [blobRegistered, blobRegistered, hnone]
        rcases hregion with ⟨hcleared, hnothing⟩ | ⟨houtput, hsame, -⟩
        · rw [hcleared]
          cases hmapped : s.mappedOutput with
          | none => rw [hnothing hmapped]
          | some _ => rfl
        · rw [houtput, hsame]
      rw [blobHeld, blobHeld, hsame]
  rw [hblob] at houtput
  have hall := putHost_owns hsys (unmapBlob_owns hsys hnone houtput)
  have hcleared : (unmapBlob sys s.blob m).region = none := by
    rcases hregion with ⟨hcleared, -⟩ | ⟨-, hsame, blob, device, len, hsome, hknown⟩
    · cases s.blob with
      | none => exact hcleared
      | some blob =>
        change clearMappedWeightRegion m.region blob = none
        rw [hcleared, clearMappedWeightRegion, Option.filter_none]
    · rw [hsome]
      change clearMappedWeightRegion m.region blob = none
      rw [hsame, hknown]
      simp [clearMappedWeightRegion]
  have hoff : (unmapBlob sys s.blob m).mappedOutput = none := by
    cases s.blob <;> exact hnone
  exact ⟨hdevice.eq_base, hall, ⟨rfl, hcleared, hoff, rfl, rfl, rfl, rfl, rfl, rfl⟩⟩

/-- The fields that `load` sets at the end are null. -/
structure LoadState.BeforeStream (s : LoadState D H) : Prop where
  stream : s.stream = none
  hostLogits : s.hostLogits = none

/-- And no page of the output projection is mapped. -/
structure LoadState.BeforeWeights (s : LoadState D H) : Prop extends s.BeforeStream where
  mappedOutput : s.mappedOutput = none

/-- And there is no scratch pool. -/
structure LoadState.BeforeScratch (s : LoadState D H) : Prop extends s.BeforeWeights where
  scratchBase : s.scratchBase = none

/-- And there is no KV pool. -/
structure LoadState.Early (s : LoadState D H) : Prop extends s.BeforeScratch where
  buffers : s.buffers = {}

theorem LoadState.Unloaded.early (h : s.Unloaded) : s.Early :=
  ⟨⟨⟨⟨h.stream, h.hostLogits⟩, h.mappedOutput⟩, h.scratchBase⟩, h.buffers⟩

/-- After the mapping of the file, with what was registered. -/
theorem LoadState.Unloaded.mapped (h : s.Unloaded) {blob size : ℕ} {h₂ : H}
    {region : Option MappedWeightRegion}
    (howns : Owns (sys.live s.host) (sys.live h₂)
      (blobHeld (some blob) region none ++ lost))
    (hregion : region = none ∨ env.mappedWeightDeviceEnabled = true ∧ blob ≠ 0 ∧ 0 < size ∧
      ∃ device, region = some ⟨blob, device, size⟩) :
    let s' : LoadState D H :=
      { s with blobBytes := size, host := h₂, region := region, blob := some blob }
    Accounted sys env (sys.cuda.live s.device) (sys.live s.host) lost s' ∧ s'.Early ∧
      s'.layers = none := by
  refine ⟨⟨?_, ?_, ?_⟩, ⟨⟨⟨⟨h.stream, h.hostLogits⟩, h.mappedOutput⟩, h.scratchBase⟩,
    h.buffers⟩, h.layers⟩
  · have hheld := (Accounted.start sys env h).device
    exact hheld
  · simpa only [hostHeld, heldAs, h.hostLogits, h.stream, h.mappedOutput, h.buffers, h.layers,
      Option.toList_none, Option.map_none, List.map_nil, List.nil_append] using howns
  · rw [RegionKnown, h.mappedOutput]
    refine hregion.imp id ?_
    rintro ⟨hmapped, hblob, hsize, device, hsome⟩
    exact ⟨hmapped, blob, device, size, rfl, hblob, hsize, hsome⟩

theorem loadGgufWeights_accounted (env : WeightEnv) (hsys : sys.Lawful) (size : ℕ)
    (h : s.Unloaded) :
    Ends
      (fun _ s' => Accounted sys env (sys.cuda.live s.device) (sys.live s.host)
        (lostRegistration sys env size s.host) s' ∧ s'.Early ∧ s'.layers = none)
      (fun _ s' => Accounted sys env (sys.cuda.live s.device) (sys.live s.host)
        (lostRegistration sys env size s.host) s')
      ((loadGgufWeights sys env size).exec s) := by
  rcases hget : sys.get .mapping s.host size with ⟨_ | blob, h₁⟩
  · have hlive := hsys.get_none (k := .mapping) (h := s.host) (n := size) (by rw [hget])
    rw [hget] at hlive
    simp only [loadGgufWeights, getHost, exec_bind, exec_modify, exec_modifyGet, hget, exec_throw,
      lostRegistration]
    have hstart := Accounted.start sys env h
    exact ⟨hstart.device, hlive ▸ hstart.host, hstart.region⟩
  obtain ⟨hblob, hfresh, hlive⟩ :=
    hsys.get_some (k := .mapping) (h := s.host) (n := size) (x := blob) (by rw [hget])
  rw [hget] at hlive
  have hmapping := (Owns.start (sys.live s.host)).acquire hfresh
  rw [← hlive] at hmapping
  -- without a region the mapping is all that is held
  have hplain : ∀ {h₂ : H} {lost : List (HostKind × ℕ)},
      Owns (sys.live s.host) (sys.live h₂) ((.mapping, blob) :: lost) →
      Owns (sys.live s.host) (sys.live h₂) (blobHeld (some blob) s.region none ++ lost) := by
    intro h₂ lost howns
    simpa [blobHeld, blobRegistered, h.region, resolveMappedWeightDevicePtr] using howns
  cases henabled : env.mappedWeightDeviceEnabled with
  | false =>
    simp only [loadGgufWeights, getHost, exec_bind, exec_modify, exec_modifyGet, hget, henabled,
      Bool.false_eq_true, if_false, exec_pure, lostRegistration]
    exact h.mapped (hplain hmapping) (Or.inl h.region)
  | true =>
    rcases hregister : sys.register h₁ blob size with ⟨_ | _, h₂⟩
    · have hsame := hsys.register_false (h := h₁) (b := blob) (n := size) (by rw [hregister])
      rw [hregister] at hsame
      simp only [loadGgufWeights, registerWeights, getHost, registerHost, exec_bind, exec_modify,
        exec_modifyGet, hget, henabled, hregister, Bool.false_eq_true, if_false, if_true, exec_pure,
        lostRegistration]
      exact h.mapped (hplain (hsame ▸ hmapping)) (Or.inl h.region)
    obtain ⟨hsize, hnew, hlive₂⟩ :=
      hsys.register_true (h := h₁) (b := blob) (n := size) (by rw [hregister])
    rw [hregister] at hlive₂
    have hboth := hmapping.acquire hnew
    rcases hdevice : sys.devicePointer h₂ blob with ⟨_ | device, h₃⟩
    all_goals
      have hsame := hsys.devicePointer_live (h := h₂) (b := blob)
      rw [hdevice] at hsame
      rw [← hlive₂, ← hsame] at hboth
      simp only [loadGgufWeights, registerWeights, getHost, registerHost, hostGetDevicePointer,
        exec_bind, exec_modify, exec_modifyGet, hget, henabled, hregister, hdevice, if_true,
        exec_pure, lostRegistration]
    · -- the registration is lost
      exact h.mapped (hplain (hboth.perm (List.Perm.swap _ _ _))) (Or.inl h.region)
    · have hregistered : blobRegistered blob (some ⟨blob, device, size⟩) none = true := by
        simp [blobRegistered, resolveMappedWeightDevicePtr, hblob, hsize.ne']
      exact h.mapped (by simpa [blobHeld, hregistered] using hboth)
        (Or.inr ⟨henabled, hblob, hsize, device, rfl⟩)

theorem Accounted.got (hsys : sys.Lawful) (h : Accounted sys env deviceBase hostBase lost s)
    {kind : HostKind} {n x : ℕ} {h₂ : H} (hget : sys.get kind s.host n = (some x, h₂)) :
    Owns hostBase (sys.live h₂) ((kind, x) :: (s.hostHeld ++ lost)) := by
  obtain ⟨-, hfresh, hlive⟩ := hsys.get_some (k := kind) (h := s.host) (n := n) (x := x)
    (by rw [hget])
  rw [hget] at hlive
  have howns := h.host.acquire hfresh
  rwa [← hlive] at howns

theorem System.Lawful.live_get_none (hsys : sys.Lawful) {kind : HostKind} {n : ℕ} {h h₂ : H}
    (hget : sys.get kind h n = (none, h₂)) : sys.live h₂ = sys.live h := by
  have hlive := hsys.get_none (k := kind) (h := h) (n := n) (by rw [hget])
  rwa [hget] at hlive

theorem mapTensors_accounted (hsys : sys.Lawful) (offset : ℕ) (tensors : List TensorInfo)
    (blob : ℕ) (cfg : ModelConfig) :
    Triple
      (fun s => Accounted sys env deviceBase hostBase lost s ∧ s.Early ∧ s.layers = none)
      (mapTensors sys offset tensors blob cfg)
      (fun _ s => Accounted sys env deviceBase hostBase lost s ∧ s.Early)
      (fun _ s => Accounted sys env deviceBase hostBase lost s) := by
  refine Triple.bind (Triple.returnIf fun s h _ => h.1) fun _ => ?_
  refine ⟨fun s => ?_⟩
  rintro ⟨⟨haccounted, hearly, hlayers⟩, -⟩
  rw [exec_bind]
  rcases hget : sys.get .layers s.host cfg.nLayers.toInt.toNat with ⟨_ | layers, h₂⟩
  · simp only [getHost, exec_modifyGet, hget, exec_throw]
    exact ⟨haccounted.device, hsys.live_get_none hget ▸ haccounted.host, haccounted.region⟩
  -- the layers are held, whatever the tensors are
  have hheld : ∀ mw : ModelWeights, Accounted sys env deviceBase hostBase lost
      { s with weights := mw, host := h₂, layers := some layers } := by
    intro mw
    refine ⟨haccounted.device, ?_, haccounted.region⟩
    have howns := haccounted.got hsys hget
    simpa only [hostHeld, heldAs, hearly.hostLogits, hearly.stream, hearly.mappedOutput,
      hearly.buffers, hlayers, Option.toList_none, Option.toList_some, Option.map_none,
      List.map_nil, List.map_cons, List.nil_append, List.cons_append] using howns
  simp only [getHost, exec_modifyGet, hget, exec_bind, exec_modify, exec_get, exec_returnIf]
  split_ifs
  · exact hheld _
  · exact hheld _
  · exact hheld _
  · exact ⟨hheld _, ⟨⟨⟨⟨hearly.stream, hearly.hostLogits⟩, hearly.mappedOutput⟩,
      hearly.scratchBase⟩, hearly.buffers⟩⟩

theorem loadAndMap_accounted (hsys : sys.Lawful) (f : ByteStream.Stream) (maxTensors size : ℕ)
    (cfg : ModelConfig) {d : D} {h₀ : H} (hlost : lostByLoad sys env f maxTensors size h₀ = lost) :
    Triple (fun s => s.Unloaded ∧ s.device = d ∧ s.host = h₀)
      (loadAndMap sys env f maxTensors size cfg)
      (fun _ s => Accounted sys env (sys.cuda.live d) (sys.live h₀) lost s ∧ s.Early)
      (fun _ s => Accounted sys env (sys.cuda.live d) (sys.live h₀) lost s) := by
  have hstart : lost = [] → ∀ s : LoadState D H, (s.Unloaded ∧ s.device = d ∧ s.host = h₀) →
      Accounted sys env (sys.cuda.live d) (sys.live h₀) lost s := by
    rintro rfl s ⟨h, rfl, rfl⟩
    exact .start sys env h
  rw [loadAndMap]
  rw [lostByLoad] at hlost
  split
  · rename_i hparse
    rw [hparse] at hlost
    exact Triple.throw (hstart hlost.symm)
  · rename_i hparse
    rw [hparse] at hlost
    exact Triple.throw (hstart hlost.symm)
  rename_i offset tensors hparse
  simp only [hparse] at hlost
  by_cases hoffset : offset < 0
  · rw [if_pos hoffset] at hlost
    exact Triple.bind (Triple.returnIf fun s h _ => hstart hlost.symm s h) fun _ =>
      ⟨fun _ h => absurd hoffset h.2⟩
  rw [if_neg hoffset] at hlost
  have hmapped : Triple (fun s : LoadState D H => s.Unloaded ∧ s.device = d ∧ s.host = h₀)
      (loadGgufWeights sys env size)
      (fun _ s => Accounted sys env (sys.cuda.live d) (sys.live h₀) lost s ∧ s.Early ∧
        s.layers = none)
      (fun _ s => Accounted sys env (sys.cuda.live d) (sys.live h₀) lost s) := by
    subst hlost
    refine ⟨?_⟩
    rintro s ⟨h, rfl, rfl⟩
    exact loadGgufWeights_accounted env hsys size h
  refine Triple.bind ((Triple.returnIf fun _ _ hneg => absurd hneg hoffset).conseq (fun _ => id)
    (fun _ _ => And.left) fun _ _ => id) fun _ => ?_
  exact hmapped.bind fun blob => mapTensors_accounted hsys offset.toNat tensors blob cfg

theorem loadNorms_accounted (hsys : sys.Lawful) (host : Mem) (cfg : ModelConfig) :
    Triple (fun s => Accounted sys env deviceBase hostBase lost s ∧ s.Early)
      (loadNorms sys host cfg)
      (fun _ s => Accounted sys env deviceBase hostBase lost s ∧ s.Early)
      (fun _ s => Accounted sys env deviceBase hostBase lost s) := by
  refine ⟨fun s => ?_⟩
  rintro ⟨haccounted, hearly⟩
  have hgrows := (materializeNormWeights_advances host cfg (s := s.toCopyState)
    hsys rfl).1.grows
  simp only [loadNorms, exec_bind, exec_modifyGet, exec_returnIf]
  split_ifs
  · exact haccounted.grows hgrows
  · exact ⟨haccounted.grows hgrows,
      ⟨⟨⟨hearly.stream, hearly.hostLogits⟩, hearly.mappedOutput⟩, hearly.scratchBase⟩,
      hearly.buffers⟩

theorem Accounted.allocated (hsys : sys.Lawful) (h : Accounted sys env deviceBase hostBase lost s)
    {n p : ℕ} {d : D} (hmalloc : sys.cuda.malloc s.device n = (some p, d)) :
    Owns deviceBase (sys.cuda.live d) (p :: s.deviceHeld) := by
  have halloc := hsys.allocates hmalloc
  have howns := h.device.acquire halloc.fresh
  rwa [← show sys.cuda.live d = insert p (sys.cuda.live s.device) from halloc.live] at howns

theorem initFastPool_accounted (hsys : sys.Lawful) (cfg : Config) :
    Triple (fun s => Accounted sys env deviceBase hostBase lost s ∧ s.Early)
      (initFastPool sys cfg)
      (fun _ s => Accounted sys env deviceBase hostBase lost s ∧ s.BeforeScratch ∧
        s.buffers.cpuPool = none ∧ s.buffers.kvScales = none)
      (fun _ s => Accounted sys env deviceBase hostBase lost s) := by
  refine Triple.bind (Triple.returnIf fun s h _ => h.1) fun _ => ?_
  refine ⟨fun s => ?_⟩
  rintro ⟨⟨haccounted, hearly⟩, -⟩
  rw [exec_bind]
  rcases hmalloc : sys.cuda.malloc s.device cfg.gpuPoolBytes with ⟨_ | p, d⟩
  · simp only [mallocDevice, exec_modifyGet, hmalloc, exec_throw]
    obtain ⟨-, hlive⟩ := hsys.not_allocated hmalloc
    exact ⟨hlive ▸ haccounted.device, haccounted.host, haccounted.region⟩
  have howns := haccounted.allocated hsys hmalloc
  have hwrite := hsys.memset (hsys.allocates hmalloc).inside
  rcases hmemset : sys.memset d p cfg.gpuPoolBytes with ⟨_ | _, d₂⟩
  all_goals
    rw [hmemset] at hwrite
    have hlive : sys.cuda.live d₂ = sys.cuda.live d := hwrite.live
    simp only [mallocDevice, memsetDevice, freeDevice, exec_modifyGet, hmalloc, hmemset, exec_bind,
      exec_modify, exec_throw, if_true, Bool.false_eq_true, if_false]
    rw [← hlive] at howns
  · -- the block is freed again
    refine ⟨?_, haccounted.host, haccounted.region⟩
    change Owns deviceBase (sys.cuda.live (sys.cuda.free d₂ p)) s.deviceHeld
    rw [hsys.cuda.free_live]
    exact howns.release
  · refine ⟨⟨?_, ?_, haccounted.region⟩,
      ⟨⟨⟨hearly.stream, hearly.hostLogits⟩, hearly.mappedOutput⟩, hearly.scratchBase⟩, ?_, ?_⟩
    · simpa only [deviceHeld, hearly.scratchBase, hearly.buffers, Option.toList_none,
        Option.toList_some, List.nil_append, List.cons_append] using howns
    · simpa only [hostHeld, hearly.buffers] using haccounted.host
    · rw [hearly.buffers]
    · rw [hearly.buffers]

theorem initOverflowPool_accounted (hsys : sys.Lawful) (cfg : Config) :
    Triple
      (fun s => Accounted sys env deviceBase hostBase lost s ∧ s.BeforeScratch ∧
        s.buffers.cpuPool = none ∧ s.buffers.kvScales = none)
      (initOverflowPool sys cfg)
      (fun _ s => Accounted sys env deviceBase hostBase lost s ∧ s.BeforeScratch ∧
        s.buffers.kvScales = none)
      (fun _ s => Accounted sys env deviceBase hostBase lost s) := by
  refine ⟨fun s => ?_⟩
  rintro ⟨haccounted, hscratch, hcpu, hscales⟩
  rw [initOverflowPool]
  split
  swap
  · exact ⟨haccounted, hscratch, hscales⟩
  rcases hget : sys.get .overflowPool s.host cfg.overflowBytes with ⟨_ | q, h₂⟩
  all_goals
    simp only [getHost, exec_bind, exec_modifyGet, exec_modify, exec_pure, hget]
    refine ⟨⟨?_, ?_, haccounted.region⟩, ⟨⟨⟨hscratch.stream, hscratch.hostLogits⟩,
      hscratch.mappedOutput⟩, hscratch.scratchBase⟩, hscales⟩
  · exact haccounted.device
  · have howns := haccounted.host
    rw [← hsys.live_get_none hget] at howns
    simpa only [hostHeld, hcpu] using howns
  · exact haccounted.device
  · have howns := haccounted.got hsys hget
    simpa only [hostHeld, heldAs, hscratch.hostLogits, hscratch.stream, hscratch.mappedOutput, hcpu,
      Option.toList_none, Option.toList_some, Option.map_none, List.map_nil, List.map_cons,
      List.nil_append, List.cons_append] using howns

theorem initScales_accounted (hsys : sys.Lawful) (cfg : Config) :
    Triple
      (fun s => Accounted sys env deviceBase hostBase lost s ∧ s.BeforeScratch ∧
        s.buffers.kvScales = none)
      (initScales sys cfg)
      (fun _ s => Accounted sys env deviceBase hostBase lost s ∧ s.BeforeScratch)
      (fun _ s => Accounted sys env deviceBase hostBase lost s) := by
  refine ⟨fun s => ?_⟩
  rintro ⟨haccounted, hscratch, hscales⟩
  rw [initScales]
  split
  swap
  · exact ⟨haccounted, hscratch⟩
  have hnext : ∀ {s' : LoadState D H}, s'.stream = s.stream → s'.hostLogits = s.hostLogits →
      s'.mappedOutput = s.mappedOutput → s'.scratchBase = s.scratchBase → s'.BeforeScratch :=
    fun hstream hlogits houtput hbase => ⟨⟨⟨hstream.trans hscratch.stream,
      hlogits.trans hscratch.hostLogits⟩, houtput.trans hscratch.mappedOutput⟩,
      hbase.trans hscratch.scratchBase⟩
  rcases hmalloc : sys.cuda.malloc s.device cfg.scalesBytes with ⟨_ | r, d⟩
  · simp only [mallocDevice, exec_bind, exec_modifyGet, exec_modify, hmalloc]
    obtain ⟨-, hlive⟩ := hsys.not_allocated hmalloc
    refine ⟨⟨?_, haccounted.host, haccounted.region⟩, hnext rfl rfl rfl rfl⟩
    have howns := haccounted.device
    rw [← hlive] at howns
    simpa only [deviceHeld, hscales] using howns
  · have howns := haccounted.allocated hsys hmalloc
    have hwrite := hsys.memset (hsys.allocates hmalloc).inside
    have hlive : sys.cuda.live (sys.memset d r cfg.scalesBytes).2 = sys.cuda.live d := hwrite.live
    rw [← hlive] at howns
    simp only [mallocDevice, memsetDevice, exec_bind, exec_modifyGet, exec_modify, hmalloc, discard]
    refine ⟨⟨?_, haccounted.host, haccounted.region⟩, hnext rfl rfl rfl rfl⟩
    simpa only [deviceHeld, hscratch.scratchBase, hscales, Option.toList_none, Option.toList_some,
      List.nil_append, List.cons_append] using howns

theorem initBuffers_accounted (hsys : sys.Lawful) (cfg : Config) :
    Triple (fun s => Accounted sys env deviceBase hostBase lost s ∧ s.Early)
      (initBuffers sys cfg)
      (fun _ s => Accounted sys env deviceBase hostBase lost s ∧ s.BeforeScratch)
      (fun _ s => Accounted sys env deviceBase hostBase lost s) := by
  refine (initFastPool_accounted hsys cfg).bind fun _ => ?_
  refine (initOverflowPool_accounted hsys cfg).bind fun _ => ?_
  exact (initScales_accounted hsys cfg).bind fun _ => Triple.pure fun _ h => h

theorem initScratch_accounted (hsys : sys.Lawful) (cfg : ModelConfig) (capacity : ℕ) :
    Triple (fun s => Accounted sys env deviceBase hostBase lost s ∧ s.BeforeScratch)
      (initScratch sys cfg capacity)
      (fun _ s => Accounted sys env deviceBase hostBase lost s ∧ s.BeforeWeights)
      (fun _ s => Accounted sys env deviceBase hostBase lost s) := by
  rw [initScratch]
  split
  · exact Triple.throw fun _ h => h.1
  rename_i scratch hscratch
  refine ⟨fun s => ?_⟩
  rintro ⟨haccounted, hbefore⟩
  rcases hmalloc : sys.cuda.malloc s.device scratch with ⟨_ | base, d⟩
  · simp only [mallocDevice, exec_bind, exec_modifyGet, exec_throw, hmalloc]
    obtain ⟨-, hlive⟩ := hsys.not_allocated hmalloc
    exact ⟨hlive ▸ haccounted.device, haccounted.host, haccounted.region⟩
  · simp only [mallocDevice, exec_bind, exec_modifyGet, exec_modify, hmalloc]
    refine ⟨⟨?_, haccounted.host, haccounted.region⟩,
      ⟨⟨hbefore.stream, hbefore.hostLogits⟩, hbefore.mappedOutput⟩⟩
    have howns := haccounted.allocated hsys hmalloc
    simpa only [deviceHeld, hbefore.scratchBase, Option.toList_none, Option.toList_some,
      List.nil_append, List.cons_append] using howns

/-- The budget is no resource. -/
theorem Accounted.budget (h : Accounted sys env deviceBase hostBase lost s) (b : MemoryBudget) :
    Accounted sys env deviceBase hostBase lost { s with budget := b } :=
  ⟨h.device, h.host, h.region⟩

theorem loadBuffers_accounted (hsys : sys.Lawful) (cfg : ModelConfig) (p : LoadParams) :
    Triple (fun s => Accounted sys env deviceBase hostBase lost s ∧ s.Early)
      (loadBuffers sys env cfg p)
      (fun _ s => Accounted sys env deviceBase hostBase lost s ∧ s.BeforeWeights)
      (fun _ s => Accounted sys env deviceBase hostBase lost s) := by
  refine Triple.bind (Triple.get.conseq (fun _ h => h) (fun _ _ h => h.2) fun _ _ h => h)
    fun s₀ => ?_
  split
  · exact Triple.throw fun _ h => h.1
  refine Triple.bind (Triple.returnIf fun _ h _ => h.1) fun _ => ?_
  refine Triple.bind ((initBuffers_accounted hsys _).pre fun _ h => h.1) fun capacity => ?_
  refine Triple.bind (Triple.modify fun s h => ?_) fun _ => initScratch_accounted hsys cfg capacity
  exact ⟨h.1.budget _, ⟨⟨h.2.stream, h.2.hostLogits⟩, h.2.mappedOutput⟩, h.2.scratchBase⟩

theorem loadLayers_accounted (hsys : sys.Lawful) (host : Mem) (cfg : ModelConfig)
    {P : MapState H → Option ℕ → Option ℕ → Prop} :
    Triple
      (fun s => Accounted sys env deviceBase hostBase lost s ∧ P s.toMapState s.stream s.hostLogits)
      (loadLayers sys host env cfg)
      (fun _ s => Accounted sys env deviceBase hostBase lost s ∧
        P s.toMapState s.stream s.hostLogits)
      (fun _ s => Accounted sys env deviceBase hostBase lost s) := by
  refine ⟨fun s => ?_⟩
  rintro ⟨haccounted, hP⟩
  rw [loadLayers, exec_bind, exec_get]
  simp only
  split
  · exact haccounted
  rename_i bytes c hlayers
  have hgrown := haccounted.grows (materializeLayerWeights_grows hsys hlayers)
  simp only [exec_bind, exec_modify, exec_returnIf]
  by_cases hmax : bytes = sizeMax
  · simp only [if_pos hmax]
    exact hgrown
  · simp only [if_neg hmax]
    exact ⟨hgrown.budget _, hP⟩

/-- Pages are mapped only where the weights are not. -/
theorem loadOutput_accounted (hsys : sys.Lawful) (host : Mem) (cfg : ModelConfig)
    {R : LoadEnd → LoadState D H → Prop} :
    Triple (fun s => Accounted sys env deviceBase hostBase lost s ∧ s.BeforeWeights)
      (loadOutput sys host env cfg)
      (fun _ s => Accounted sys env deviceBase hostBase lost s ∧ s.BeforeStream) R := by
  refine ⟨fun s => ?_⟩
  rintro ⟨haccounted, hbefore⟩
  rcases hr : materializeOutputWeight sys host env cfg s.budget s.toCopyState s.toMapState with
    ⟨n, c, m⟩
  obtain ⟨hadvances, hmoved⟩ := materializeOutputWeight_moved hsys hr
  rw [loadOutput, exec_modifyGet]
  simp only [hr]
  refine ⟨?_, hbefore.stream, hbefore.hostLogits⟩
  have hgrown := haccounted.grows hadvances.grows
  have hnothing : MapsNothing sys s.toMapState m → Accounted sys env deviceBase hostBase lost
      { s with toCopyState := c, toMapState := m } := by
    intro hmaps
    refine ⟨hgrown.device, ?_, ?_⟩
    · have howns := hgrown.host
      rw [← show sys.live m.host = sys.live s.host from hmaps.live] at howns
      simpa only [hostHeld, hmaps.region, hmaps.mappedOutput] using howns
    · have hregion := hgrown.region
      simpa only [RegionKnown, hmaps.region, hmaps.mappedOutput] using hregion
  cases hmoved with
  | skipped _ hmaps => exact (hnothing hmaps).budget _
  | mapped bytes first len device _ _ hoff _ hmaps =>
    exact (hgrown.maps hoff hbefore.mappedOutput hbefore.stream hbefore.hostLogits hmaps).budget _
  | copied bytes _ _ _ _ hmaps => exact (hnothing hmaps).budget _

theorem loadWeights_accounted (hsys : sys.Lawful) (host : Mem) (cfg : ModelConfig) :
    Triple (fun s => Accounted sys env deviceBase hostBase lost s ∧ s.BeforeWeights)
      (loadWeights sys host env cfg)
      (fun _ s => Accounted sys env deviceBase hostBase lost s ∧ s.BeforeStream)
      (fun _ s => Accounted sys env deviceBase hostBase lost s) := by
  rw [loadWeights]
  split
  · refine (loadOutput_accounted hsys host cfg).bind fun _ => ?_
    exact (loadLayers_accounted hsys host cfg
      (P := fun _ stream logits => stream = none ∧ logits = none)).conseq
      (fun _ h => ⟨h.1, h.2.stream, h.2.hostLogits⟩) (fun _ _ h => ⟨h.1, h.2.1, h.2.2⟩)
      fun _ _ h => h
  · refine Triple.bind ((loadLayers_accounted hsys host cfg
      (P := fun m stream logits => m.mappedOutput = none ∧ stream = none ∧ logits = none)).pre
      fun _ h => ⟨h.1, h.2.mappedOutput, h.2.stream, h.2.hostLogits⟩) fun _ => ?_
    refine Triple.bind ((loadOutput_accounted hsys host cfg).pre
      fun _ h => ⟨h.1, ⟨h.2.2.1, h.2.2.2⟩, h.2.1⟩) fun _ => ?_
    exact (Triple.returnIf fun _ h _ => h.1).conseq (fun _ h => h) (fun _ _ h => h.1) fun _ _ h => h

theorem loadStream_accounted (hsys : sys.Lawful) (cfg : ModelConfig) :
    Triple (fun s => Accounted sys env deviceBase hostBase lost s ∧ s.BeforeStream)
      (loadStream sys cfg)
      (fun _ s => Accounted sys env deviceBase hostBase lost s)
      (fun _ s => Accounted sys env deviceBase hostBase lost s) := by
  refine ⟨fun s => ?_⟩
  rintro ⟨haccounted, hbefore⟩
  obtain ⟨stream, h₁, hstream, hheld⟩ : ∃ stream h₁, sys.get .stream s.host 0 = (stream, h₁) ∧
      Accounted sys env deviceBase hostBase lost { s with host := h₁, stream := stream } := by
    rcases hget : sys.get .stream s.host 0 with ⟨_ | stream, h₁⟩
    · refine ⟨none, h₁, rfl, haccounted.device, ?_, haccounted.region⟩
      have howns := haccounted.host
      rw [← hsys.live_get_none hget] at howns
      simpa only [hostHeld, hbefore.stream] using howns
    · refine ⟨some stream, h₁, rfl, haccounted.device, ?_, haccounted.region⟩
      have howns := haccounted.got hsys hget
      simpa only [hostHeld, heldAs, hbefore.hostLogits, hbefore.stream, Option.toList_none,
        Option.toList_some, List.map_nil, List.map_cons, List.nil_append, List.cons_append]
        using howns
  simp only [loadStream, getHost, exec_bind, exec_modifyGet, exec_modify, hstream]
  rcases hget : sys.get .hostLogits h₁ (floatBytes cfg.vocabSize.toInt) with ⟨_ | logits, h₂⟩
  · simp only [exec_throw]
    refine ⟨hheld.device, ?_, hheld.region⟩
    have howns := hheld.host
    rwa [← show sys.live h₂ = sys.live h₁ from hsys.live_get_none hget] at howns
  · simp only [exec_modify]
    refine ⟨hheld.device, ?_, hheld.region⟩
    have howns := hheld.got hsys hget
    simpa only [hostHeld, heldAs, hbefore.hostLogits, Option.toList_none, Option.toList_some,
      List.map_nil, List.map_cons, List.nil_append, List.cons_append] using howns

/-- The budget is a field of its own. -/
theorem LoadState.Unloaded.budget (h : s.Unloaded) (b : MemoryBudget) :
    ({ s with budget := b } : LoadState D H).Unloaded :=
  ⟨h.owned, h.region, h.mappedOutput, h.blob, h.layers, h.buffers, h.scratchBase, h.stream,
    h.hostLogits⟩

theorem LoadState.Early.budget (h : s.Early) (b : MemoryBudget) :
    ({ s with budget := b } : LoadState D H).Early :=
  ⟨⟨⟨⟨h.stream, h.hostLogits⟩, h.mappedOutput⟩, h.scratchBase⟩, h.buffers⟩

/-- The rest of `load`, once the file is mapped. -/
theorem loadMapped_accounted (hsys : sys.Lawful) (host : Mem) (size : ℕ) (cfg : ModelConfig)
    (p : LoadParams) :
    Triple (fun s => Accounted sys env deviceBase hostBase lost s ∧ s.Early)
      (loadMapped sys host env size cfg p)
      (fun _ s => Accounted sys env deviceBase hostBase lost s)
      (fun _ s => Accounted sys env deviceBase hostBase lost s) := by
  refine (loadNorms_accounted hsys host cfg).bind fun _ => ?_
  refine Triple.bind (M := fun _ s => Accounted sys env deviceBase hostBase lost s ∧ s.Early)
    (Triple.modify fun s h => ⟨h.1.budget _, h.2.budget _⟩) fun _ => ?_
  refine (loadBuffers_accounted hsys cfg p).bind fun _ => ?_
  refine (loadWeights_accounted hsys host cfg).bind fun _ => ?_
  exact loadStream_accounted hsys cfg

/-- However `load` ends, what is live is known. -/
theorem load_accounted (env : WeightEnv) (hsys : sys.Lawful) (host : Mem) (f : ByteStream.Stream)
    (maxTensors size : ℕ) (cfg : ModelConfig) (probe : MemoryBudget) (p : LoadParams) {d : D} {h : H}
    (hlost : lostByLoad sys env f maxTensors size h = lost) :
    Triple (fun s => s.Unloaded ∧ s.device = d ∧ s.host = h)
      (load sys host env f maxTensors size cfg probe p)
      (fun _ s => Accounted sys env (sys.cuda.live d) (sys.live h) lost s)
      (fun _ s => Accounted sys env (sys.cuda.live d) (sys.live h) lost s) := by
  have hmap := loadAndMap_accounted (d := d) hsys f maxTensors size cfg hlost
  refine Triple.bind (Triple.modify ?_) fun _ => hmap.bind fun _ =>
    loadMapped_accounted hsys host size cfg p
  rintro s ⟨hunloaded, rfl, rfl⟩
  exact ⟨hunloaded.budget _, rfl, rfl⟩

end

/-- What a life of the engine is made of: it is loaded, used and unloaded. -/
structure LoadRequest where
  file : ByteStream.Stream
  maxTensors : ℕ
  size : ℕ
  cfg : ModelConfig
  probe : MemoryBudget
  params : LoadParams

section

variable {D H : Type} (sys : System D H) (env : WeightEnv) (host : Mem)

/-- `load` and, however it ends, `unload`; `none` after an overflow. -/
def loadUnload (s : LoadState D H) (r : LoadRequest) : Option (LoadState D H) :=
  match (load sys host env r.file r.maxTensors r.size r.cfg r.probe r.params).exec s with
  | (.error .undefined, _) => none
  | (_, s') => some (unload sys s')

/-- The registrations that a run of loads keeps. -/
def lostByRun : LoadState D H → List LoadRequest → List (HostKind × ℕ)
  | _, [] => []
  | s, r :: rs =>
      lostByLoad sys env r.file r.maxTensors r.size s.host ++
        match loadUnload sys env host s r with
        | none => []
        | some s' => lostByRun s' rs

end

section

variable {D H : Type} {sys : System D H} {env : WeightEnv} {host : Mem} {s s' : LoadState D H}

/-- One load, wherever it ends, and the `unload` behind it. -/
theorem loadUnload_owns (hsys : sys.Lawful) {r : LoadRequest} (h : s.Unloaded)
    (hstep : loadUnload sys env host s r = some s') :
    s'.Unloaded ∧ sys.cuda.live s'.device = sys.cuda.live s.device ∧
      Owns (sys.live s.host) (sys.live s'.host)
        (lostByLoad sys env r.file r.maxTensors r.size s.host) := by
  have hload := load_accounted env (d := s.device) hsys host r.file r.maxTensors r.size
    r.cfg r.probe r.params (h := s.host) rfl
  rw [loadUnload] at hstep
  obtain ⟨⟨e | a, s₁⟩, hresult⟩ : ∃ result,
      (load sys host env r.file r.maxTensors r.size r.cfg r.probe r.params).exec s = result :=
    ⟨_, rfl⟩
  all_goals
    have haccounted := hload.run ⟨h, rfl, rfl⟩ hresult
    rw [hresult] at hstep
  all_goals obtain ⟨hdevice, hhost, hunloaded⟩ := unload_owns hsys haccounted
  · cases e with
    | undefined => cases hstep
    | threw =>
      cases hstep
      exact ⟨hunloaded, hdevice, hhost⟩
    | returnedFalse =>
      cases hstep
      exact ⟨hunloaded, hdevice, hhost⟩
  · cases hstep
    exact ⟨hunloaded, hdevice, hhost⟩

end

end JLLM
