import ReflexLlm.Proofs.SaveRace
import ReflexLlm.Spec.SaveRun

/-! A save that nobody interferes with replaces the file or leaves it alone. Until the
rename the name keeps its inode, and nothing is written but the temporary one. -/

namespace JLLM

open LittleEndian Runs
open KVCacheFileHeader (size)

/-- The two names have inodes of their own. -/
structure SharedDir.Apart (d : SharedDir) : Prop where
  tmp_lt : ∀ ino, d.tmp = some ino → ino < d.next
  path_lt : ∀ ino, d.path = some ino → ino < d.next
  apart : ∀ ino, d.tmp = some ino → d.path ≠ some ino

/-- The temporary file holds `content`, and the published one what it held before. -/
structure TmpHolds (before d : SharedDir) (ino : ℕ) (content : List UInt8) : Prop where
  tmp : d.tmp = some ino
  inode : d.inode ino = content
  old : d.file d.path = before.file before.path
  apart : d.path ≠ some ino

/-- The directory in front of each call of a save. -/
def SaveAt (args : SaveArgs) (before d : SharedDir) : SavePc → Prop
  | .open => d = before
  | .header ino => TmpHolds before d ino []
  | .tokens ino written =>
      written ≤ 4 * args.tokens.length ∧ TmpHolds before d ino (args.image.take (size + written))
  | .body ino written =>
      written ≤ args.body.length ∧
        TmpHolds before d ino (args.image.take (size + 4 * args.tokens.length + written))
  | .fsync ino => TmpHolds before d ino args.image
  | .rename => ∃ ino, TmpHolds before d ino args.image
  | .unlink => d.file d.path = before.file before.path
  | .done true => d.file d.path = some args.image
  | .done false => d.file d.path = before.file before.path

section

variable {args : SaveArgs} {before d : SharedDir} {ino : ℕ}

theorem tmpHolds_opened (h : before.Apart) :
    TmpHolds before before.openTmp.2 before.openTmp.1 [] := by
  have hopen := openTmp_spec h.tmp_lt
  have hapart : before.path ≠ some before.openTmp.1 := by
    intro hpath
    rcases hopen.origin with htmp | hnext
    · exact h.apart _ htmp hpath
    · have hlt := h.path_lt _ hpath
      omega
  refine ⟨hopen.tmp, by rw [hopen.inode, Function.update_self], ?_, hopen.path ▸ hapart⟩
  rw [SharedDir.file, SharedDir.file, hopen.path, hopen.inode]
  cases hpath : before.path with
  | none => rfl
  | some i =>
    have hne : i ≠ before.openTmp.1 := fun heq => hapart (heq ▸ hpath)
    simp [Function.update_of_ne hne]

/-- A write to the temporary file does not touch the published one. -/
theorem TmpHolds.write {content : List UInt8} (h : TmpHolds before d ino content) (off : ℕ)
    (bytes : List UInt8) :
    TmpHolds before (d.write ino off bytes) ino (writeAt content off bytes) := by
  refine ⟨h.tmp, by rw [SharedDir.inode_write, Function.update_self, h.inode], ?_, h.apart⟩
  rw [← h.old]
  unfold SharedDir.file SharedDir.write
  simp only
  cases hpath : d.path with
  | none => rfl
  | some i =>
    have hne : i ≠ ino := fun heq => h.apart (heq ▸ hpath)
    simp [Function.update_of_ne hne]

/-- The next bytes of the image behind those that are there. -/
theorem TmpHolds.writeNext {k n : ℕ} (h : TmpHolds before d ino (args.image.take k))
    (hk : k ≤ args.image.length) :
    TmpHolds before (d.write ino k (field args.image k n)) ino
      (args.image.take (k + (field args.image k n).length)) := by
  have hwrite := h.write k (field args.image k n)
  rwa [writeAt_take args.image hk] at hwrite

theorem saveAt_toBody (h : TmpHolds before d ino (args.image.take (size + 4 * args.tokens.length))) :
    SaveAt args before d (args.toBody ino) := by
  unfold SaveArgs.toBody
  split_ifs with hbody
  · have hall : args.image.take (size + 4 * args.tokens.length) = args.image := by
      refine List.take_of_length_le ?_
      rw [args.image_length, hbody]
      exact le_rfl
    rwa [hall] at h
  · exact ⟨Nat.zero_le _, h⟩

theorem saveAt_toTokens (h : TmpHolds before d ino (args.image.take size)) :
    SaveAt args before d (args.toTokens ino) := by
  unfold SaveArgs.toTokens
  split_ifs with htokens
  · refine saveAt_toBody ?_
    rwa [htokens]
  · exact ⟨Nat.zero_le _, h⟩

theorem saveAt_header {n : ℕ} (h : TmpHolds before d ino []) :
    SaveAt args before (d.write ino 0 (args.hdr.encode.take n))
      (if n < size then .unlink else args.toTokens ino) := by
  have hwrite : TmpHolds before (d.write ino 0 (field args.image 0 (min n size))) ino
      (args.image.take (0 + (field args.image 0 (min n size)).length)) := by
    refine TmpHolds.writeNext ?_ (Nat.zero_le _)
    rwa [List.take_zero]
  rw [args.take_encode]
  split_ifs with hn
  · exact hwrite.old
  · have hlen : (field args.image 0 (min n size)).length = size := by
      rw [← args.take_encode, List.length_take, KVCacheFileHeader.encode_length]
      exact Nat.min_eq_right (Nat.le_of_not_lt hn)
    rw [hlen, Nat.zero_add] at hwrite
    exact saveAt_toTokens hwrite

theorem saveAt_tokens {written n : ℕ} {bytes : List UInt8}
    (hbytes : bytes = field (u32s args.tokens) written n) (hle : written ≤ 4 * args.tokens.length)
    (h : TmpHolds before d ino (args.image.take (size + written))) :
    SaveAt args before (d.write ino (size + written) bytes)
      (if bytes = [] then .unlink
        else if written + bytes.length < 4 * args.tokens.length then
          .tokens ino (written + bytes.length)
        else args.toBody ino) := by
  have hlen : bytes.length ≤ 4 * args.tokens.length - written := by
    rw [hbytes, ← u32s_length]
    exact field_length_le _ _ _
  rw [args.field_tokens] at hbytes
  have hwrite := h.writeNext (n := min n (4 * args.tokens.length - written))
    (by rw [args.image_length]; omega)
  rw [← hbytes] at hwrite
  split_ifs with hnil hmore
  · exact hwrite.old
  · exact ⟨hmore.le, by rwa [← Nat.add_assoc]⟩
  · refine saveAt_toBody ?_
    have hall : size + written + bytes.length = size + 4 * args.tokens.length := by omega
    rwa [← hall]

theorem saveAt_body {written n : ℕ} {bytes : List UInt8}
    (hbytes : bytes = field args.body written n) (hle : written ≤ args.body.length)
    (h : TmpHolds before d ino (args.image.take (size + 4 * args.tokens.length + written))) :
    SaveAt args before (d.write ino (size + 4 * args.tokens.length + written) bytes)
      (if bytes = [] then .unlink
        else if written + bytes.length < args.body.length then .body ino (written + bytes.length)
        else .fsync ino) := by
  rw [args.field_body] at hbytes
  have hwrite := h.writeNext (n := n) (by rw [args.image_length]; omega)
  rw [← hbytes] at hwrite
  split_ifs with hnil hmore
  · exact hwrite.old
  · exact ⟨hmore.le, by rwa [← Nat.add_assoc]⟩
  · have hall : args.image.take (size + 4 * args.tokens.length + written + bytes.length) =
        args.image := by
      refine List.take_of_length_le ?_
      rw [args.image_length]
      omega
    rwa [hall] at hwrite

/-- Every call leads from one stage of a save to another. -/
theorem saveAt_step {d' : SharedDir} {pc pc' : SavePc} {call : SaveCall} (hbefore : before.Apart)
    (hat : SaveAt args before d pc) (h : saveStep args d pc call = some (d', pc')) :
    SaveAt args before d' pc' := by
  unfold saveStep at h
  split at h
  · obtain ⟨rfl, rfl⟩ := Prod.mk.inj (Option.some.inj h)
    exact hat ▸ rfl
  · obtain ⟨rfl, rfl⟩ := Prod.mk.inj (Option.some.inj h)
    obtain rfl : d = before := hat
    exact tmpHolds_opened hbefore
  · obtain ⟨rfl, rfl⟩ := Prod.mk.inj (Option.some.inj h)
    exact saveAt_header hat
  · obtain ⟨rfl, rfl⟩ := Prod.mk.inj (Option.some.inj h)
    exact saveAt_tokens rfl hat.1 hat.2
  · obtain ⟨rfl, rfl⟩ := Prod.mk.inj (Option.some.inj h)
    exact saveAt_body rfl hat.1 hat.2
  · rename_i ino ok
    obtain ⟨rfl, rfl⟩ := Prod.mk.inj (Option.some.inj h)
    cases ok with
    | true => exact ⟨ino, hat⟩
    | false => exact hat.old
  · rename_i ok
    obtain ⟨ino, hino⟩ := hat
    rw [hino.tmp] at h
    cases ok with
    | true =>
      obtain ⟨rfl, rfl⟩ := Prod.mk.inj (Option.some.inj h)
      exact congrArg some hino.inode
    | false =>
      obtain ⟨rfl, rfl⟩ := Prod.mk.inj (Option.some.inj h)
      exact hino.old
  · rename_i ok
    obtain ⟨rfl, rfl⟩ := Prod.mk.inj (Option.some.inj h)
    cases ok <;> exact hat
  · cases h

end

/-! ### Runs -/

theorem SaveArgs.running_toBody (args : SaveArgs) (ino : ℕ) : (args.toBody ino).Running := by
  unfold SaveArgs.toBody
  split_ifs
  · exact ⟨by simp, by simp⟩
  · exact ⟨by simp, by simp⟩

theorem SaveArgs.running_toTokens (args : SaveArgs) (ino : ℕ) : (args.toTokens ino).Running := by
  unfold SaveArgs.toTokens
  split_ifs
  · exact args.running_toBody ino
  · exact ⟨by simp, by simp⟩

/-- Past the `open` a save goes on, or has replaced the file, or has called `unlink`. -/
theorem saveStep_ends {args : SaveArgs} {d d' : SharedDir} {pc pc' : SavePc} {call : SaveCall}
    (h : saveStep args d pc call = some (d', pc')) (hpc : pc ≠ .open) :
    pc'.Running ∨ pc' = .done true ∨ ∃ ok, call = .unlink ok := by
  unfold saveStep at h
  split at h
  · exact absurd rfl hpc
  · exact absurd rfl hpc
  · obtain ⟨-, rfl⟩ := Prod.mk.inj (Option.some.inj h)
    split_ifs
    · exact .inl ⟨by simp, by simp⟩
    · exact .inl (args.running_toTokens _)
  · obtain ⟨-, rfl⟩ := Prod.mk.inj (Option.some.inj h)
    split_ifs
    · exact .inl ⟨by simp, by simp⟩
    · exact .inl ⟨by simp, by simp⟩
    · exact .inl (args.running_toBody _)
  · obtain ⟨-, rfl⟩ := Prod.mk.inj (Option.some.inj h)
    split_ifs <;> exact .inl ⟨by simp, by simp⟩
  · obtain ⟨-, rfl⟩ := Prod.mk.inj (Option.some.inj h)
    split_ifs <;> exact .inl ⟨by simp, by simp⟩
  · split at h
    · split_ifs at h
      · obtain ⟨-, rfl⟩ := Prod.mk.inj (Option.some.inj h)
        exact .inr (.inl rfl)
      · obtain ⟨-, rfl⟩ := Prod.mk.inj (Option.some.inj h)
        exact .inl ⟨by simp, by simp⟩
    · obtain ⟨-, rfl⟩ := Prod.mk.inj (Option.some.inj h)
      exact .inl ⟨by simp, by simp⟩
  · rename_i ok
    exact .inr (.inr ⟨ok, rfl⟩)
  · cases h

variable {r : SaveRequest}

/-- Nothing is called after the end. -/
theorem exec_done {s s' : SharedDir × SavePc} {ok : Bool} {calls : List SaveCall}
    (h : exec (saveRunStep r) s calls = some s') (hend : s.2 = .done ok) : calls = [] ∧ s' = s := by
  cases calls with
  | nil => exact ⟨rfl, (Option.some.inj h).symm⟩
  | cons call calls =>
    obtain ⟨s₁, hstep, -⟩ := Option.bind_eq_some_iff.mp h
    obtain ⟨args, -, hcall⟩ := Option.bind_eq_some_iff.mp hstep
    rw [hend] at hcall
    cases hcall

/-- A save that fails behind its `open` has called `unlink`. -/
theorem unlink_of_failure {s s' : SharedDir × SavePc} {calls : List SaveCall}
    (h : exec (saveRunStep r) s calls = some s') (hpc : s.2.Running) (hend : s'.2 = .done false) :
    ∃ ok, .unlink ok ∈ calls := by
  induction calls generalizing s with
  | nil =>
    obtain rfl := Option.some.inj h
    exact absurd hend (hpc.2 false)
  | cons call calls ih =>
    obtain ⟨s₁, hstep, hrest⟩ := Option.bind_eq_some_iff.mp h
    obtain ⟨args, -, hcall⟩ := Option.bind_eq_some_iff.mp hstep
    rcases saveStep_ends hcall hpc.1 with hrun | hdone | ⟨ok, rfl⟩
    · obtain ⟨ok, hmem⟩ := ih hrest hrun
      exact ⟨ok, List.mem_cons_of_mem _ hmem⟩
    · obtain ⟨-, rfl⟩ := exec_done hrest hdone
      rw [hdone] at hend
      cases hend
    · exact ⟨ok, List.mem_cons_self⟩

/-- The bytes that the save is to install. -/
def SaveRequest.image (r : SaveRequest) : List UInt8 :=
  JLLM.image r.hdr ((r.tokens.getD []).take r.nTokens) (r.hostKv.take r.bodyBytes)

theorem SaveRequest.args_image {args : SaveArgs} (h : r.args = some args) : args.image = r.image := by
  unfold SaveRequest.args at h
  split_ifs at h
  obtain rfl := Option.some.inj h
  rfl

/-- Where a run of a save can be. -/
def SaveReached (r : SaveRequest) (before : SharedDir) (s : SharedDir × SavePc) : Prop :=
  (r.args = none ∧ s = (before, .done false)) ∨
    ∃ args, r.args = some args ∧ SaveAt args before s.1 s.2

theorem saveReached_run {before : SharedDir} (hbefore : before.Apart) {calls : List SaveCall}
    {s : SharedDir × SavePc} (h : saveRun r before calls = some s) : SaveReached r before s := by
  have hstart : SaveReached r before (before, r.start) := by
    unfold SaveRequest.start
    cases hargs : r.args with
    | none => exact .inl ⟨hargs, rfl⟩
    | some args => exact .inr ⟨args, hargs, rfl⟩
  refine (Run.of_exec h).invariant ?_ hstart
  rintro s₁ call s₂ hreached hstep
  obtain ⟨args, hargs, hcall⟩ := Option.bind_eq_some_iff.mp hstep
  rcases hreached with ⟨hnone, -⟩ | ⟨args', hargs', hat⟩
  · rw [hnone] at hargs
    cases hargs
  · obtain rfl := Option.some.inj (hargs.symm.trans hargs')
    exact .inr ⟨args, hargs, saveAt_step hbefore hat hcall⟩

/-- The published file is the old one or the new one. -/
theorem SaveAt.file {args : SaveArgs} {before d : SharedDir} {pc : SavePc}
    (h : SaveAt args before d pc) :
    (d.file d.path = before.file before.path ∧ pc ≠ .done true) ∨
      (d.file d.path = some args.image ∧ pc = .done true) := by
  cases pc with
  | «open» =>
    obtain rfl : d = before := h
    exact .inl ⟨rfl, by simp⟩
  | header ino => exact .inl ⟨TmpHolds.old h, by simp⟩
  | tokens ino written => exact .inl ⟨h.2.old, by simp⟩
  | body ino written => exact .inl ⟨h.2.old, by simp⟩
  | fsync ino => exact .inl ⟨TmpHolds.old h, by simp⟩
  | rename =>
    obtain ⟨ino, hino⟩ := h
    exact .inl ⟨hino.old, by simp⟩
  | unlink => exact .inl ⟨h, by simp⟩
  | done ok =>
    cases ok with
    | true => exact .inr ⟨h, rfl⟩
    | false => exact .inl ⟨h, by simp⟩

/-- Wherever a save stops, the published file is the old one or the whole new one; it is the
old one after a failure, with the temporary one unlinked, and the new one after a success. -/
theorem save_atomic (r : SaveRequest) (before : SharedDir) (hbefore : before.Apart)
    (calls : List SaveCall) (d : SharedDir) (pc : SavePc)
    (hrun : saveRun r before calls = some (d, pc)) :
    (d.file d.path = before.file before.path ∨ d.file d.path = some r.image) ∧
      (pc = .done false → d.file d.path = before.file before.path ∧
        (.open true ∈ calls → ∃ ok, .unlink ok ∈ calls)) ∧
      (pc = .done true → d.file d.path = some r.image) := by
  have hfile : (d.file d.path = before.file before.path ∧ pc ≠ .done true) ∨
      (d.file d.path = some r.image ∧ pc = .done true) := by
    rcases saveReached_run hbefore hrun with ⟨-, heq⟩ | ⟨args, hargs, hat⟩
    · obtain ⟨rfl, rfl⟩ := Prod.mk.inj heq
      exact .inl ⟨rfl, by simp⟩
    · rw [← r.args_image hargs]
      exact hat.file
  refine ⟨hfile.imp And.left And.left, ?_, ?_⟩
  · rintro rfl
    refine ⟨(hfile.resolve_right (by simp)).1, fun hopened => ?_⟩
    cases calls with
    | nil => cases hopened
    | cons call calls =>
      obtain ⟨s₁, hstep, hrest⟩ := Option.bind_eq_some_iff.mp hrun
      obtain ⟨args, hargs, hcall⟩ := Option.bind_eq_some_iff.mp hstep
      have hstart : r.start = .open := by rw [SaveRequest.start, hargs]; rfl
      rw [hstart] at hcall
      cases call with
      | «open» ok =>
        cases ok with
        | true =>
          obtain rfl := Option.some.inj hcall
          obtain ⟨ok, hmem⟩ := unlink_of_failure hrest ⟨by simp, by simp⟩ rfl
          exact ⟨ok, List.mem_cons_of_mem _ hmem⟩
        | false =>
          obtain rfl := Option.some.inj hcall
          obtain ⟨rfl, -⟩ := exec_done hrest rfl
          simp at hopened
      | _ => cases hcall
  · rintro rfl
    exact (hfile.resolve_left (by simp)).1

/-- A request for a save of one token. -/
def oneTokenRequest : SaveRequest where
  hdr := (oneTokenSave 7 9).hdr
  tokens := some [7]
  nTokens := 1
  hostKv := [9]
  bodyBytes := 1
  tokens_le := by simp
  body_le := le_rfl
  fits := by simp [size]

def oldFile : SharedDir := ⟨fun _ => [1, 2, 3], 1, none, some 0⟩

/-- A save over an old file; its token is written in two pieces. -/
theorem save_atomic_overwrites : ∃ d, saveRun oneTokenRequest oldFile
      [.open true, .write 128, .write 3, .write 1, .write 8, .fsync true, .rename true] =
      some (d, .done true) ∧ d.file d.path = some oneTokenRequest.image := by
  obtain ⟨d, hrun⟩ : ∃ d, saveRun oneTokenRequest oldFile
      [.open true, .write 128, .write 3, .write 1, .write 8, .fsync true, .rename true] =
      some (d, .done true) := ⟨_, rfl⟩
  have hapart : oldFile.Apart := ⟨by simp [oldFile], by simp [oldFile], by simp [oldFile]⟩
  exact ⟨d, hrun, (save_atomic oneTokenRequest oldFile hapart _ d _ hrun).2.2 rfl⟩

end JLLM
