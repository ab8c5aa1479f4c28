import ReflexLlm.Proofs.DeviceCopy
import ReflexLlm.Proofs.EngineLoad
import ReflexLlm.Proofs.WeightMap
import ReflexLlm.Spec.LoadUnload

/-! A system that keeps its promises: a device that gives out one block behind the other and
knows how long they are, and a host that lists what it has given out. -/

namespace JLLM

open ByteMem EngineLoad Ownership Gguf

/-- The device, with the sizes of its blocks. -/
structure SizedDevice extends BumpDevice where
  size : ℕ → ℕ
  inside : ∀ p ∈ live, p + size p ≤ next
  apart : ∀ p ∈ live, ∀ q ∈ live, p < q → p + size p ≤ q

namespace SizedDevice

variable {d : SizedDevice} {n p : ℕ}

def malloc (d : SizedDevice) (n : ℕ) : Option ℕ × SizedDevice :=
  if h : 0 < n ∧ d.next + n ≤ 0x40000000 then
    (some d.next,
      { toBumpDevice :=
          { mem := d.mem
            next := d.next + n
            live := d.next :: d.live
            next_le := h.2
            live_lt := List.forall_mem_cons.mpr
              ⟨by omega, fun p hp => Nat.lt_add_right n (d.live_lt p hp)⟩ }
        size := fun p => if p = d.next then n else d.size p
        inside := by
          refine List.forall_mem_cons.mpr ⟨by simp, fun p hp => ?_⟩
          have hlt := d.live_lt p hp
          have hinside := d.inside p hp
          rw [if_neg hlt.ne]
          omega
        apart := by
          intro p hp q hq hpq
          rcases List.mem_cons.mp hp with rfl | hp
          · rcases List.mem_cons.mp hq with rfl | hq
            · exact absurd hpq (lt_irrefl _)
            · exact absurd hpq (d.live_lt q hq).le.not_gt
          · rw [if_neg (d.live_lt p hp).ne]
            rcases List.mem_cons.mp hq with rfl | hq
            · exact d.inside p hp
            · exact d.apart p hp q hq hpq })
  else (none, d)

def memcpy (d : SizedDevice) (ptr : ℕ) (src : List UInt8) : Bool × SizedDevice :=
  if ptr + src.length ≤ d.next then (true, { d with mem := d.mem.write ptr src }) else (false, d)

def memset (d : SizedDevice) (p n : ℕ) : Bool × SizedDevice :=
  if p + n ≤ d.next then
    (true, { d with mem := d.mem.fill p n 0 })
  else (false, d)

def free (d : SizedDevice) (p : ℕ) : SizedDevice :=
  { d with
    live := d.live.filter (· ≠ p)
    live_lt := fun q hq => d.live_lt q (List.mem_of_mem_filter hq)
    inside := fun q hq => d.inside q (List.mem_of_mem_filter hq)
    apart := fun q hq r hr =>
      d.apart q (List.mem_of_mem_filter hq) r (List.mem_of_mem_filter hr) }

theorem malloc_bump (d : SizedDevice) (n : ℕ) :
    (d.malloc n).1 = (d.toBumpDevice.malloc n).1 ∧
      (d.malloc n).2.toBumpDevice = (d.toBumpDevice.malloc n).2 := by
  rw [malloc, BumpDevice.malloc]
  split <;> exact ⟨rfl, rfl⟩

theorem memcpy_bump (d : SizedDevice) (ptr : ℕ) (src : List UInt8) :
    (d.memcpy ptr src).1 = (d.toBumpDevice.memcpy ptr src).1 ∧
      (d.memcpy ptr src).2.toBumpDevice = (d.toBumpDevice.memcpy ptr src).2 := by
  rw [memcpy, BumpDevice.memcpy]
  split <;> exact ⟨rfl, rfl⟩

/-- The runtime of the device, without the sizes. -/
def runtime : CudaRuntime SizedDevice where
  malloc := malloc
  memcpy := memcpy
  free := free
  mem d := d.mem
  live d := {p | p ∈ d.live}

theorem runtime_lawful : runtime.Lawful where
  malloc_bound {d n p} h := bumpRuntime_lawful.malloc_bound (d := d.toBumpDevice)
    ((d.malloc_bump n).1.symm.trans h)
  malloc_fresh {d n p} h := bumpRuntime_lawful.malloc_fresh (d := d.toBumpDevice)
    ((d.malloc_bump n).1.symm.trans h)
  malloc_live {d n p} h := by
    have hlive := bumpRuntime_lawful.malloc_live (d := d.toBumpDevice)
      ((d.malloc_bump n).1.symm.trans h)
    change {q | q ∈ (d.malloc n).2.toBumpDevice.live} = _
    rw [(d.malloc_bump n).2]
    exact hlive
  malloc_none {d n} h := by
    have hlive := bumpRuntime_lawful.malloc_none (d := d.toBumpDevice)
      ((d.malloc_bump n).1.symm.trans h)
    change {q | q ∈ (d.malloc n).2.toBumpDevice.live} = _
    rw [(d.malloc_bump n).2]
    exact hlive
  memcpy_bound {d ptr src} h := bumpRuntime_lawful.memcpy_bound (d := d.toBumpDevice)
    ((d.memcpy_bump ptr src).1.symm.trans h)
  memcpy_mem {d ptr src} h := by
    have hmem := bumpRuntime_lawful.memcpy_mem (d := d.toBumpDevice)
      ((d.memcpy_bump ptr src).1.symm.trans h)
    change (d.memcpy ptr src).2.toBumpDevice.mem = _
    rw [(d.memcpy_bump ptr src).2]
    exact hmem
  memcpy_live {d ptr src} := by
    change {q | q ∈ (d.memcpy ptr src).2.toBumpDevice.live} = _
    rw [(d.memcpy_bump ptr src).2]
    exact bumpRuntime_lawful.memcpy_live (d := d.toBumpDevice)
  free_live {d p} := bumpRuntime_lawful.free_live (d := d.toBumpDevice)

end SizedDevice

/-- What the host has given out; `answers` says whether it knows device pointers. -/
structure RecordedHost where
  live : List (HostKind × ℕ)
  answers : Bool

namespace RecordedHost

/-- The first page behind all that is in use. -/
def fresh (h : RecordedHost) : ℕ := ((h.live.map Prod.snd).foldr max 0 / 4096 + 1) * 4096

theorem lt_fresh {h : RecordedHost} {x : HostKind × ℕ} (hx : x ∈ h.live) : x.2 < h.fresh := by
  have hmax : ∀ l : List (HostKind × ℕ), x ∈ l → x.2 ≤ (l.map Prod.snd).foldr max 0 := by
    intro l hx
    induction l with
    | nil => cases hx
    | cons y l ih =>
      rcases List.mem_cons.mp hx with rfl | hx
      · exact le_max_left _ _
      · exact (ih hx).trans (le_max_right _ _)
  have hle := hmax h.live hx
  rw [fresh]
  omega

def get (k : HostKind) (h : RecordedHost) (_ : ℕ) : Option ℕ × RecordedHost :=
  (some h.fresh, { h with live := (k, h.fresh) :: h.live })

def put (k : HostKind) (h : RecordedHost) (x : ℕ) : RecordedHost :=
  { h with live := h.live.filter (· ≠ (k, x)) }

def register (h : RecordedHost) (b n : ℕ) : Bool × RecordedHost :=
  if 0 < n ∧ (HostKind.registration, b) ∉ h.live then
    (true, { h with live := (.registration, b) :: h.live })
  else (false, h)

end RecordedHost

/-- The device and the host, with pages of 4 KB. -/
def recordedSystem : System SizedDevice RecordedHost where
  cuda := SizedDevice.runtime
  memset := SizedDevice.memset
  size := SizedDevice.size
  get := RecordedHost.get
  put := RecordedHost.put
  register := RecordedHost.register
  devicePointer h b := (if h.answers then some (0x100000000 + b) else none, h)
  live h := {x | x ∈ h.live}
  pageSize := 4096

namespace SizedDevice

variable {d : SizedDevice} {n p ptr : ℕ}

/-- Writing to a block leaves the others alone, as they are apart. -/
theorem writes_of_inside {m : Mem} (hinside : Blocks.Inside (recordedSystem.blocks d) p ptr n)
    (hm : ∀ a, a < ptr ∨ ptr + n ≤ a → m a = d.mem a) :
    Blocks.Writes p (recordedSystem.blocks d) (recordedSystem.blocks { d with mem := m }) where
  live := rfl
  size _ _ := rfl
  mem q hq hne a ha hlt := by
    apply hm
    have hstart := hinside.start
    have hstop : ptr + n ≤ p + d.size p := hinside.stop
    have hlt : a < q + d.size q := hlt
    rcases lt_or_gt_of_ne hne with hqp | hpq
    · have hapart := d.apart q hq p hinside.live hqp
      omega
    · have hapart := d.apart p hinside.live q hq hpq
      omega

theorem malloc_allocates (h : (d.malloc n).1 = some p) :
    Blocks.Allocates p n (recordedSystem.blocks d) (recordedSystem.blocks (d.malloc n).2) := by
  have hfresh : p ∉ recordedSystem.cuda.live d := runtime_lawful.malloc_fresh (d := d) h
  have hlive := runtime_lawful.malloc_live (d := d) h
  rw [malloc] at h
  split at h
  · rename_i hroom
    cases h
    rw [malloc, dif_pos hroom]
    refine ⟨hfresh, ⟨fun q hq => List.mem_cons_of_mem _ hq, fun q hq => ?_, fun _ _ _ _ _ => rfl⟩,
      ?_, if_pos rfl⟩
    · exact if_neg (d.live_lt q hq).ne
    · ext q
      exact List.mem_cons
  · cases h

end SizedDevice

theorem recordedSystem_lawful : recordedSystem.Lawful where
  cuda := SizedDevice.runtime_lawful
  malloc_some h := SizedDevice.malloc_allocates h
  malloc_none {d n} h := by
    have hsame : (d.malloc n).2 = d := by
      change (d.malloc n).1 = none at h
      rw [SizedDevice.malloc] at h ⊢
      split at h
      · cases h
      · rename_i hfull
        rw [dif_neg hfull]
    change Blocks.Keeps _ (recordedSystem.blocks (d.malloc n).2)
    rw [hsame]
    exact Blocks.Keeps.refl _
  memcpy {d p ptr} src hinside := by
    change Blocks.Writes p _ (recordedSystem.blocks (d.memcpy ptr src).2)
    rw [SizedDevice.memcpy]
    split
    · refine SizedDevice.writes_of_inside hinside fun a ha => ?_
      exact if_neg (by omega)
    · exact Blocks.Writes.refl _ _
  memset {d p n} hinside := by
    change Blocks.Writes p _ (recordedSystem.blocks (d.memset p n).2)
    rw [SizedDevice.memset]
    split
    · refine SizedDevice.writes_of_inside hinside fun a ha => if_neg ?_
      omega
    · exact Blocks.Writes.refl _ _
  free {d p} := by
    have hlive : SizedDevice.runtime.live (d.free p) = SizedDevice.runtime.live d \ {p} :=
      SizedDevice.runtime_lawful.free_live
    exact ⟨hlive, fun _ _ => rfl, fun _ _ _ _ _ => rfl⟩
  get_some {k h n x} hx := by
    cases hx
    refine ⟨by simp [RecordedHost.fresh], fun hmem => ?_, ?_⟩
    · exact lt_irrefl _ (RecordedHost.lt_fresh (h := h) hmem)
    · ext y
      exact List.mem_cons
  get_none h := by cases h
  put_live {k h x} := by
    ext y
    change y ∈ h.live.filter (· ≠ (k, x)) ↔ y ∈ h.live ∧ y ≠ (k, x)
    rw [List.mem_filter, decide_eq_true_iff]
  register_true {h b n} hok := by
    change (h.register b n).1 = true at hok
    rw [RecordedHost.register] at hok
    split at hok
    · rename_i hnew
      refine ⟨hnew.1, hnew.2, ?_⟩
      change {x | x ∈ (h.register b n).2.live} = _
      rw [RecordedHost.register, if_pos hnew]
      ext y
      exact List.mem_cons
    · cases hok
  register_false {h b n} hfalse := by
    change (h.register b n).1 = false at hfalse
    change {x | x ∈ (h.register b n).2.live} = _
    rw [RecordedHost.register] at hfalse ⊢
    split at hfalse
    · cases hfalse
    · rename_i hold
      rw [if_neg hold]
      rfl
  devicePointer_live := rfl
  page_pos := by decide
  page_long := by decide

theorem firstBlock_le : 0x100 ≤ 0x40000000 := by decide

/-- An engine that has loaded nothing; `answers` says whether the host knows device pointers. -/
def newEngine (answers : Bool) : LoadState SizedDevice RecordedHost where
  weights := {}
  owned := []
  device :=
    { mem := fun _ => 0
      next := 0x100
      live := []
      next_le := firstBlock_le
      live_lt := by simp
      size := fun _ => 0
      inside := by simp
      apart := by simp }
  host := ⟨[], answers⟩
  region := none
  mappedOutput := none
  blob := none
  blobBytes := 0
  layers := none
  buffers := {}
  scratchBase := none
  stream := none
  hostLogits := none
  budget := jetsonBudget
  loaded := false

/-- A model of one layer that has its norms only, with a token embedding of 144 bytes. -/
def smallModel : Contents where
  version := 3
  pairs := []
  tensors := [⟨ascii "blk.0.attn_norm.weight", [256], 0, 0⟩,
    ⟨ascii "blk.0.ffn_norm.weight", [256], 0, 1024⟩,
    ⟨ascii "output_norm.weight", [256], 0, 2048⟩,
    ⟨ascii "token_embd.weight", [256, 1], 12, 3072⟩]

/-- Its file, up to the data. -/
def smallFile : ByteStream.Stream := .full smallModel.encode (by decide +kernel)

def smallConfig : ModelConfig where
  nLayers := 1
  nHeads := 1
  nKvHeads := 1
  headDim := 1
  hiddenDim := 256
  intermediateDim := 1
  vocabSize := 1
  maxSeqLen := 16

end JLLM
