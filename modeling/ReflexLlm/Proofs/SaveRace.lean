import ReflexLlm.Proofs.CacheFile
import ReflexLlm.Spec.SaveRace

/-! Saves of one path that race with a load. Every save writes to the inode that it
opened as `<path>.tmp`; an inode belongs to the save that opened it last. As long as
nobody opens an inode that another save still writes to, an inode holds a prefix of its
owner's image, and a load that passes the size check has found all of it. -/

namespace JLLM

open LittleEndian Runs

namespace KVCacheFileHeader

/-- The header is in the first bytes. -/
theorem decode_append {f : List UInt8} (h : size ≤ f.length) (rest : List UInt8) :
    decode (f ++ rest) = decode f := by
  have h' : 128 ≤ f.length := h
  have hhash (i : Fin 32) : (f ++ rest).getD (40 + i.val) 0 = f.getD (40 + i.val) 0 :=
    List.getD_append _ _ _ _ (by omega)
  have hres (i : Fin 56) : (f ++ rest).getD (72 + i.val) 0 = f.getD (72 + i.val) 0 :=
    List.getD_append _ _ _ _ (by omega)
  simp only [decode, hhash, hres]
  simp only [KVCacheFileHeader.mk.injEq, and_true]
  refine ⟨?_, ?_, ?_, ?_, ?_, ?_, ?_, ?_, ?_⟩ <;> rw [field_append_left _ (by omega)]

theorem decode_of_isPrefix {f g : List UInt8} (h : size ≤ f.length) (hfg : f <+: g) :
    decode f = decode g := by
  obtain ⟨rest, rfl⟩ := hfg
  rw [decode_append h]

end KVCacheFileHeader

open KVCacheFileHeader (size)

namespace SaveArgs

def image (args : SaveArgs) : List UInt8 :=
  JLLM.image args.hdr args.tokens args.body

theorem image_length (args : SaveArgs) :
    args.image.length = size + 4 * args.tokens.length + args.body.length := by
  simp [image, JLLM.image, Nat.add_assoc]

theorem expectedSize_eq (args : SaveArgs) : args.hdr.expectedSize = args.image.length := by
  have hfits := args.fits
  rw [KVCacheFileHeader.expectedSize, KVCacheFileHeader.tokensBytes, args.tokens_eq,
    args.body_eq, image_length, Nat.mod_eq_of_lt] <;> omega

/-- What the first `write` puts down, as bytes of the image. -/
theorem take_encode (args : SaveArgs) (n : ℕ) :
    args.hdr.encode.take n = field args.image 0 (min n size) := by
  rw [field_zero, image, JLLM.image, List.append_assoc, ← List.take_take,
    ← KVCacheFileHeader.encode_length args.hdr, List.take_left]

/-- The tokens that a `write` puts down, as bytes of the image. -/
theorem field_tokens (args : SaveArgs) (k n : ℕ) :
    field (u32s args.tokens) k n =
      field args.image (size + k) (min n (4 * args.tokens.length - k)) := by
  rw [image, JLLM.image, List.append_assoc, ← KVCacheFileHeader.encode_length args.hdr,
    field_append_right]
  unfold field
  by_cases h : k ≤ 4 * args.tokens.length
  · have hlen : ((u32s args.tokens).drop k).length = 4 * args.tokens.length - k := by simp
    rw [List.drop_append_of_le_length (by simpa using h), ← List.take_take, ← hlen,
      List.take_left]
  · have hnil : (u32s args.tokens).drop k = [] := by
      apply List.drop_eq_nil_of_le
      simp only [u32s_length]
      omega
    rw [hnil, show 4 * args.tokens.length - k = 0 by omega]
    simp

theorem field_body (args : SaveArgs) (k n : ℕ) :
    field args.body k n = field args.image (size + 4 * args.tokens.length + k) n := by
  have hlen : size + 4 * args.tokens.length = (args.hdr.encode ++ u32s args.tokens).length := by
    simp
  rw [image, JLLM.image, hlen, field_append_right]

end SaveArgs

/-- The inode that a save is writing to, and how far it has come. -/
def SavePc.writing (args : SaveArgs) : SavePc → Option (ℕ × ℕ)
  | .header ino => some (ino, 0)
  | .tokens ino written => some (ino, size + written)
  | .body ino written => some (ino, size + 4 * args.tokens.length + written)
  | _ => none

@[simp] theorem SharedDir.inode_write (d : SharedDir) (ino off : ℕ) (bytes : List UInt8) :
    (d.write ino off bytes).inode =
      Function.update d.inode ino (writeAt (d.inode ino) off bytes) := rfl

/-- Between the `open` of a save and its end. -/
def SavePc.Running (pc : SavePc) : Prop := pc ≠ .open ∧ ∀ ok, pc ≠ .done ok

/-- What one call of a save does. -/
inductive SaveEffect (args : SaveArgs) (d : SharedDir) (pc : SavePc) (call : SaveCall) :
    SharedDir → SavePc → Prop
  | openFailed : SaveEffect args d pc call d (.done false)
  | opened : call = .open true → SaveEffect args d pc call d.openTmp.2 (.header d.openTmp.1)
  | wrote {ino k n : ℕ} {pc' : SavePc} :
      pc.Running → pc.writing args = some (ino, k) →
      (∀ target, pc'.writing args = some target →
        target = (ino, k + (field args.image k n).length) ∧ target.2 < args.image.length) →
      SaveEffect args d pc call (d.write ino k (field args.image k n)) pc'
  | quiet {pc' : SavePc} :
      pc.Running → pc'.writing args = none → SaveEffect args d pc call d pc'
  | renamed {ino : ℕ} :
      pc.Running → d.tmp = some ino →
      SaveEffect args d pc call { d with tmp := none, path := some ino } (.done true)
  | unlinked : SaveEffect args d pc call { d with tmp := none } (.done false)

theorem SaveArgs.writing_toBody (args : SaveArgs) (ino : ℕ) {target : ℕ × ℕ}
    (h : (args.toBody ino).writing args = some target) :
    target = (ino, size + 4 * args.tokens.length) ∧ target.2 < args.image.length := by
  unfold SaveArgs.toBody at h
  split_ifs at h with hbody
  · cases h
  · obtain rfl := Option.some.inj h
    have hpos := List.length_pos_iff.mpr hbody
    exact ⟨rfl, by rw [args.image_length]; simpa using hpos⟩

theorem SaveArgs.writing_toTokens (args : SaveArgs) (ino : ℕ) {target : ℕ × ℕ}
    (h : (args.toTokens ino).writing args = some target) :
    target = (ino, size) ∧ target.2 < args.image.length := by
  unfold SaveArgs.toTokens at h
  split_ifs at h with htokens
  · simpa [htokens] using args.writing_toBody ino h
  · obtain rfl := Option.some.inj h
    have hpos := List.length_pos_iff.mpr htokens
    refine ⟨rfl, ?_⟩
    rw [args.image_length]
    simp only [Nat.add_zero]
    omega

section

variable {args : SaveArgs} {d : SharedDir} {n : ℕ}

theorem saveEffect_header (ino : ℕ) : SaveEffect args d (.header ino) (.write n)
    (d.write ino 0 (args.hdr.encode.take n))
    (if n < size then .unlink else args.toTokens ino) := by
  rw [args.take_encode]
  refine .wrote ⟨by simp, by simp⟩ rfl fun target htarget => ?_
  split_ifs at htarget with hn
  · cases htarget
  · obtain ⟨rfl, hlt⟩ := args.writing_toTokens ino htarget
    refine ⟨?_, hlt⟩
    rw [← args.take_encode, List.length_take, KVCacheFileHeader.encode_length]
    simp [Nat.min_eq_right (Nat.le_of_not_lt hn)]

theorem saveEffect_tokens (ino written : ℕ) {bytes : List UInt8}
    (hbytes : bytes = field (u32s args.tokens) written n) :
    SaveEffect args d (.tokens ino written) (.write n) (d.write ino (size + written) bytes)
      (if bytes = [] then .unlink
        else if written + bytes.length < 4 * args.tokens.length then
          .tokens ino (written + bytes.length)
        else args.toBody ino) := by
  have hle : bytes.length ≤ 4 * args.tokens.length - written := by
    rw [hbytes, ← u32s_length]
    exact field_length_le _ _ _
  rw [args.field_tokens] at hbytes
  subst hbytes
  refine .wrote ⟨by simp, by simp⟩ rfl fun target htarget => ?_
  split_ifs at htarget with hnil hmore
  · cases htarget
  · obtain rfl := Option.some.inj htarget
    refine ⟨by rw [Nat.add_assoc], ?_⟩
    rw [args.image_length]
    simp only
    omega
  · obtain ⟨rfl, hlt⟩ := args.writing_toBody ino htarget
    have hpos := List.length_pos_iff.mpr hnil
    refine ⟨?_, hlt⟩
    simp only [Prod.mk.injEq, true_and]
    omega

theorem saveEffect_body (ino written : ℕ) {bytes : List UInt8}
    (hbytes : bytes = field args.body written n) :
    SaveEffect args d (.body ino written) (.write n)
      (d.write ino (size + 4 * args.tokens.length + written) bytes)
      (if bytes = [] then .unlink
        else if written + bytes.length < args.body.length then .body ino (written + bytes.length)
        else .fsync ino) := by
  rw [args.field_body] at hbytes
  subst hbytes
  refine .wrote ⟨by simp, by simp⟩ rfl fun target htarget => ?_
  split_ifs at htarget with hnil hmore
  · cases htarget
  · obtain rfl := Option.some.inj htarget
    refine ⟨by simp only [Nat.add_assoc], ?_⟩
    rw [args.image_length]
    simp only
    omega
  · cases htarget

end

/-- A save does nothing else. -/
theorem saveStep_effect {args : SaveArgs} {d d' : SharedDir} {pc pc' : SavePc} {call : SaveCall}
    (h : saveStep args d pc call = some (d', pc')) : SaveEffect args d pc call d' pc' := by
  unfold saveStep at h
  split at h
  · obtain ⟨rfl, rfl⟩ := Prod.mk.inj (Option.some.inj h)
    exact .openFailed
  · obtain ⟨rfl, rfl⟩ := Prod.mk.inj (Option.some.inj h)
    exact .opened rfl
  · obtain ⟨rfl, rfl⟩ := Prod.mk.inj (Option.some.inj h)
    exact saveEffect_header _
  · obtain ⟨rfl, rfl⟩ := Prod.mk.inj (Option.some.inj h)
    exact saveEffect_tokens _ _ rfl
  · obtain ⟨rfl, rfl⟩ := Prod.mk.inj (Option.some.inj h)
    exact saveEffect_body _ _ rfl
  · obtain ⟨rfl, rfl⟩ := Prod.mk.inj (Option.some.inj h)
    refine .quiet ⟨by simp, by simp⟩ ?_
    split_ifs <;> rfl
  · split at h
    · rename_i ino htmp
      split_ifs at h with hok
      · obtain ⟨rfl, rfl⟩ := Prod.mk.inj (Option.some.inj h)
        exact .renamed ⟨by simp, by simp⟩ htmp
      · obtain ⟨rfl, rfl⟩ := Prod.mk.inj (Option.some.inj h)
        exact .quiet ⟨by simp, by simp⟩ rfl
    · obtain ⟨rfl, rfl⟩ := Prod.mk.inj (Option.some.inj h)
      exact .quiet ⟨by simp, by simp⟩ rfl
  · obtain ⟨hd, rfl⟩ := Prod.mk.inj (Option.some.inj h)
    split_ifs at hd with hok
    · subst hd
      exact .unlinked
    · subst hd
      exact .quiet ⟨by simp, by simp⟩ rfl
  · cases h

/-! ### What a load has found -/

def LoadPc.ino : LoadPc → Option ℕ
  | .header ino => some ino
  | .fstat ino _ => some ino
  | .tokens ino _ _ => some ino
  | .lseek ino _ => some ino
  | .body ino _ _ _ => some ino
  | _ => none

/-- A load of an inode that holds `f`, and that will hold `target`, has seen `target` only. -/
def LoadPc.Sees (outTokens : Bool) (f target : List UInt8) : LoadPc → Prop
  | .fstat _ hdr => hdr = .decode target
  | .tokens _ hdr got => f = target ∧ hdr = .decode target ∧ outTokens = true ∧
      got = field target size got.length
  | .lseek _ hdr => f = target ∧ hdr = .decode target ∧ outTokens = false
  | .body _ hdr words got =>
      f = target ∧ hdr = .decode target ∧ words = (if outTokens then tokensOf target else []) ∧
        got = field target (size + hdr.tokensBytes) got.length
  | _ => True

/-- `f` is growing into `target`, and is it once its size adds up. -/
structure GrowsInto (f target : List UInt8) : Prop where
  isPrefix : f <+: target
  whole : f.length = (KVCacheFileHeader.decode target).expectedSize → f = target

section

variable {outTokens : Bool} {kvCapacity ino : ℕ} {d : SharedDir} {target : List UInt8}

/-- What the next call of a load may leave behind. -/
def LoadPc.Stays (outTokens : Bool) (ino : ℕ) (f target : List UInt8) (pc : LoadPc) : Prop :=
  (∀ i, pc.ino = some i → i = ino) ∧ pc.Sees outTokens f target ∧
    ∀ kv, pc = .loaded kv → kv = loadedOf outTokens target

theorem loadStays_failed (f : List UInt8) : LoadPc.failed.Stays outTokens ino f target :=
  ⟨by simp [LoadPc.ino], trivial, by simp⟩

theorem loadStays_body {tokens : List UInt32}
    (htokens : tokens = if outTokens then tokensOf target else []) :
    (loadBody ino (.decode target) tokens).Stays outTokens ino target target := by
  unfold loadBody
  split_ifs with hbody
  · refine ⟨by simp [LoadPc.ino], trivial, fun kv hkv => ?_⟩
    obtain rfl := LoadPc.loaded.inj hkv
    simp [loadedOf, bodyOf, hbody, htokens, field]
  · exact ⟨by simp [LoadPc.ino], ⟨rfl, rfl, htokens, by simp [field]⟩, by simp⟩

/-- A read that goes on where the last one stopped. -/
theorem got_append {f got : List UInt8} {off want n : ℕ} (hgot : got = field f off got.length) :
    got ++ field f (off + got.length) (min n (want - got.length)) =
      field f off (got ++ field f (off + got.length) (min n (want - got.length))).length := by
  have hlen (k : ℕ) : (field f off k).length = min k (f.length - off) := by simp [field]
  have happ : got ++ field f (off + got.length) (min n (want - got.length)) =
      field f off (got.length + min n (want - got.length)) := by
    rw [← field_append_field, ← hgot]
  rw [happ, hlen]
  unfold field
  rw [List.take_eq_take_iff]
  simp

theorem got_finished {f got : List UInt8} {off want n : ℕ} (hgot : got = field f off got.length)
    (hnil : field f (off + got.length) (min n (want - got.length)) ≠ [])
    (hend : ¬ (got ++ field f (off + got.length) (min n (want - got.length))).length < want) :
    got ++ field f (off + got.length) (min n (want - got.length)) = field f off want := by
  have hpos := List.length_pos_iff.mpr hnil
  have hle : (field f (off + got.length) (min n (want - got.length))).length ≤
      want - got.length := by
    rw [field, List.length_take]
    omega
  have hlen : (got ++ field f (off + got.length) (min n (want - got.length))).length = want := by
    rw [List.length_append] at hend ⊢
    omega
  rw [got_append hgot, hlen]

/-- A load without a descriptor is before its `open`. -/
theorem loadStep_opens {pc pc' : LoadPc} {call : LoadCall} (hino : pc.ino = none)
    (h : loadStep outTokens kvCapacity d pc call = some pc') :
    pc' = .failed ∨ ∃ i, d.path = some i ∧ pc' = .header i := by
  unfold loadStep at h
  split at h
  · split at h
    · rename_i i hpath
      split_ifs at h
      · exact .inr ⟨i, hpath, (Option.some.inj h).symm⟩
      · exact .inl (Option.some.inj h).symm
    · exact .inl (Option.some.inj h).symm
  · cases hino
  · cases hino
  · cases hino
  · cases hino
  · cases hino
  · cases h

section

variable {hdr : KVCacheFileHeader} {got : List UInt8} {pc' : LoadPc}

/-- The header is in the file already, and stays. -/
theorem loadStays_header (hgrow : GrowsInto (d.inode ino) target) {n : ℕ}
    (h : loadStep outTokens kvCapacity d (.header ino) (.read n) = some pc') :
    pc'.Stays outTokens ino (d.inode ino) target := by
  obtain rfl := Option.some.inj h
  split_ifs with hshort hmagic hversion hcap
  · exact loadStays_failed _
  · exact loadStays_failed _
  · exact loadStays_failed _
  · exact loadStays_failed _
  · refine ⟨by simp [LoadPc.ino], ?_, by simp⟩
    have hpre : field (d.inode ino) 0 (min n size) <+: d.inode ino := by
      rw [field_zero]
      exact List.take_prefix _ _
    exact KVCacheFileHeader.decode_of_isPrefix (Nat.le_of_not_lt hshort)
      (hpre.trans hgrow.isPrefix)

/-- The size adds up: the file is all there. -/
theorem loadStays_fstat (hgrow : GrowsInto (d.inode ino) target) {ok : Bool}
    (hsees : (LoadPc.fstat ino hdr).Sees outTokens (d.inode ino) target)
    (h : loadStep outTokens kvCapacity d (.fstat ino hdr) (.fstat ok) = some pc') :
    pc'.Stays outTokens ino (d.inode ino) target := by
  obtain rfl := Option.some.inj h
  obtain rfl : hdr = .decode target := hsees
  split_ifs with hok hsize hused hout
  · exact loadStays_failed _
  · exact loadStays_failed _
  · have hwhole := hgrow.whole (by simpa using hsize)
    rw [hwhole]
    apply loadStays_body
    simp [tokensOf, hused, toU32s]
  · have hwhole := hgrow.whole (by simpa using hsize)
    exact ⟨by simp [LoadPc.ino], ⟨hwhole, rfl, hout, by simp [field]⟩, by simp⟩
  · have hwhole := hgrow.whole (by simpa using hsize)
    exact ⟨by simp [LoadPc.ino], ⟨hwhole, rfl, by simpa using hout⟩, by simp⟩

theorem loadStays_tokens {n : ℕ}
    (hsees : (LoadPc.tokens ino hdr got).Sees outTokens (d.inode ino) target)
    (h : loadStep outTokens kvCapacity d (.tokens ino hdr got) (.read n) = some pc') :
    pc'.Stays outTokens ino (d.inode ino) target := by
  obtain rfl := Option.some.inj h
  obtain ⟨hwhole, rfl, hout, hgot⟩ := hsees
  simp only [hwhole]
  split_ifs with hnil hmore
  · exact loadStays_failed _
  · exact ⟨by simp [LoadPc.ino], ⟨rfl, rfl, hout, got_append hgot⟩, by simp⟩
  · apply loadStays_body
    rw [got_finished hgot hnil hmore, if_pos hout]
    rfl

theorem loadStays_lseek {ok : Bool}
    (hsees : (LoadPc.lseek ino hdr).Sees outTokens (d.inode ino) target)
    (h : loadStep outTokens kvCapacity d (.lseek ino hdr) (.lseek ok) = some pc') :
    pc'.Stays outTokens ino (d.inode ino) target := by
  obtain rfl := Option.some.inj h
  obtain ⟨hwhole, rfl, hout⟩ := hsees
  split_ifs with hok
  · rw [hwhole]
    apply loadStays_body
    simp [hout]
  · exact loadStays_failed _

theorem loadStays_read {tokens : List UInt32} {n : ℕ}
    (hsees : (LoadPc.body ino hdr tokens got).Sees outTokens (d.inode ino) target)
    (h : loadStep outTokens kvCapacity d (.body ino hdr tokens got) (.read n) = some pc') :
    pc'.Stays outTokens ino (d.inode ino) target := by
  obtain rfl := Option.some.inj h
  obtain ⟨hwhole, rfl, htokens, hgot⟩ := hsees
  simp only [hwhole]
  split_ifs with hnil hmore
  · exact loadStays_failed _
  · exact ⟨by simp [LoadPc.ino], ⟨rfl, rfl, htokens, got_append hgot⟩, by simp⟩
  · refine ⟨by simp [LoadPc.ino], trivial, fun kv hkv => ?_⟩
    obtain rfl := LoadPc.loaded.inj hkv
    rw [got_finished hgot hnil hmore, htokens]
    rfl

end

theorem loadStep_stays {pc pc' : LoadPc} {call : LoadCall} (hino : pc.ino = some ino)
    (hgrow : GrowsInto (d.inode ino) target) (hsees : pc.Sees outTokens (d.inode ino) target)
    (h : loadStep outTokens kvCapacity d pc call = some pc') :
    pc'.Stays outTokens ino (d.inode ino) target := by
  cases pc with
  | «open» => cases hino
  | failed => cases hino
  | loaded kv => cases hino
  | header i =>
    obtain rfl := Option.some.inj hino
    cases call with
    | read n => exact loadStays_header hgrow h
    | _ => cases h
  | fstat i hdr =>
    obtain rfl := Option.some.inj hino
    cases call with
    | fstat ok => exact loadStays_fstat hgrow hsees h
    | _ => cases h
  | tokens i hdr got =>
    obtain rfl := Option.some.inj hino
    cases call with
    | read n => exact loadStays_tokens hsees h
    | _ => cases h
  | lseek i hdr =>
    obtain rfl := Option.some.inj hino
    cases call with
    | lseek ok => exact loadStays_lseek hsees h
    | _ => cases h
  | body i hdr tokens got =>
    obtain rfl := Option.some.inj hino
    cases call with
    | read n => exact loadStays_read hsees h
    | _ => cases h

end

theorem LoadPc.Sees.mono {outTokens : Bool} {f f' target : List UInt8} {pc : LoadPc}
    (h : pc.Sees outTokens f target) (hf : f = target → f' = f) : pc.Sees outTokens f' target := by
  cases pc with
  | tokens ino hdr got => exact ⟨(hf h.1).trans h.1, h.2⟩
  | lseek ino hdr => exact ⟨(hf h.1).trans h.1, h.2⟩
  | body ino hdr tokens got => exact ⟨(hf h.1).trans h.1, h.2⟩
  | _ => exact h

/-- A load that has ended with a cache got all of it from one save, or from the file
that was there before. -/
def LoadsOneSave {W : Type} (saves : W → SaveArgs) (outTokens : Bool)
    (before : Option (List UInt8)) (loader : LoadPc) : Prop :=
  ∀ kv, loader = .loaded kv →
    (∃ w, kv = ⟨(saves w).hdr, if outTokens then (saves w).tokens else [], (saves w).body⟩) ∨
      ∃ f, before = some f ∧ kv = loadedOf outTokens f

/-- The file behind a name, if there is one. -/
def SharedDir.file (d : SharedDir) (name : Option ℕ) : Option (List UInt8) :=
  name.map d.inode

/-- A save opens the temporary name only while nobody else writes to its inode. -/
def OpensAlone {W : Type} (saves : W → SaveArgs) (s : SaveRaceState W) (e : SaveRaceEvent W) :
    Prop :=
  ∀ w, e = .save w (.open true) → ∀ v, v ≠ w → ∀ ino k,
    (s.saver v).writing (saves v) = some (ino, k) → s.dir.tmp ≠ some ino

/-- One call of a save or of the load. -/
def SaveRaceStep {W : Type} [DecidableEq W] (saves : W → SaveArgs) (outTokens : Bool)
    (kvCapacity : ℕ) (s : SaveRaceState W) (e : SaveRaceEvent W) (s' : SaveRaceState W) : Prop :=
  saveRaceStep saves outTokens kvCapacity s e = some s'

/-- The same, with nobody opening what another save still writes. -/
def AloneSaveRaceStep {W : Type} [DecidableEq W] (saves : W → SaveArgs) (outTokens : Bool)
    (kvCapacity : ℕ) (s : SaveRaceState W) (e : SaveRaceEvent W) (s' : SaveRaceState W) : Prop :=
  SaveRaceStep saves outTokens kvCapacity s e s' ∧ OpensAlone saves s e

theorem SaveArgs.loadedOf_image (args : SaveArgs) (outTokens : Bool) :
    loadedOf outTokens args.image = ⟨args.hdr, if outTokens then args.tokens else [], args.body⟩ := by
  rw [loadedOf, image, decode_image, tokensOf_image _ args.tokens_eq,
    bodyOf_image _ args.tokens_eq args.body_eq]

theorem SaveArgs.growsInto (args : SaveArgs) {f : List UInt8} (h : f <+: args.image) :
    GrowsInto f args.image := by
  refine ⟨h, fun hlen => h.eq_of_length ?_⟩
  rw [hlen, ← args.expectedSize_eq, image, decode_image]

/-- A write of the next bytes of an image behind the bytes already there. -/
theorem writeAt_take (img : List UInt8) {k n : ℕ} (hk : k ≤ img.length) :
    writeAt (img.take k) k (field img k n) = img.take (k + (field img k n).length) := by
  have hlen : (img.take k).length = k := by simp [hk]
  have hfield : field img k n = field img k (field img k n).length := by
    unfold field
    rw [List.length_take, List.take_eq_take_iff]
    simp
  unfold writeAt
  rw [hlen, Nat.sub_self, List.drop_eq_nil_of_le (by omega), List.take_take, Nat.min_self,
    List.replicate_zero, List.append_nil, List.append_nil, ← field_zero, ← field_zero]
  calc
    field img 0 k ++ field img k n = field img 0 k ++ field img (0 + k) (field img k n).length := by
      rw [Nat.zero_add, ← hfield]
    _ = field img 0 (k + (field img k n).length) := field_append_field ..

section

variable {W : Type} {saves : W → SaveArgs} {before : SharedDir}

/-- What an inode is going to hold: the image of the save that opened it last, or what it
held before. -/
def targetOf (saves : W → SaveArgs) (before : SharedDir) (own : ℕ → Option W) (ino : ℕ) :
    List UInt8 :=
  match own ino with
  | some w => (saves w).image
  | none => before.inode ino

/-- An inode that a load may meet. -/
def Known (before : SharedDir) (own : ℕ → Option W) (ino : ℕ) : Prop :=
  own ino ≠ none ∨ before.path = some ino

/-- An inode that no save can open any more. -/
structure Settled (before : SharedDir) (own : ℕ → Option W) (d : SharedDir) (ino : ℕ) : Prop where
  known : Known before own ino
  lt : ino < d.next
  notTmp : d.tmp ≠ some ino

/-- The directory and the saves, with the last opener of each inode. -/
structure DirInv (saves : W → SaveArgs) (before : SharedDir) (own : ℕ → Option W) (d : SharedDir)
    (saver : W → SavePc) : Prop where
  known_lt : ∀ ino, Known before own ino → ino < d.next
  tmp_lt : ∀ ino, d.tmp = some ino → ino < d.next
  path : ∀ ino, d.path = some ino → Settled before own d ino
  grows : ∀ ino, Known before own ino → GrowsInto (d.inode ino) (targetOf saves before own ino)
  writers : ∀ w ino k, (saver w).writing (saves w) = some (ino, k) →
    own ino = some w ∧ d.inode ino = (saves w).image.take k ∧ k < (saves w).image.length
  stale : ∀ ino, d.tmp = some ino → own ino = none → ∀ w, ¬ (saver w).Running

/-- The inode that a load has open is settled, and the load has seen of it what it is
going to hold. -/
structure SaveRaceInv (saves : W → SaveArgs) (outTokens : Bool) (before : SharedDir)
    (own : ℕ → Option W) (s : SaveRaceState W) : Prop where
  dir : DirInv saves before own s.dir s.saver
  reading : ∀ ino, s.loader.ino = some ino → Settled before own s.dir ino ∧
    s.loader.Sees outTokens (s.dir.inode ino) (targetOf saves before own ino)
  loaded : LoadsOneSave saves outTokens (before.file before.path) s.loader

theorem saveRaceInv_initial {outTokens : Bool} {s : SaveRaceState W} (h : s.Initial) :
    SaveRaceInv saves outTokens s.dir (fun _ => none) s := by
  have hpath (ino : ℕ) (hino : Known s.dir (fun _ => (none : Option W)) ino) :
      s.dir.path = some ino := by
    rcases hino with hino | hino
    · exact absurd rfl hino
    · exact hino
  refine ⟨⟨?_, h.tmp_lt, ?_, ?_, ?_, ?_⟩, ?_, ?_⟩
  · exact fun ino hino => h.path_lt ino (hpath ino hino)
  · exact fun ino hino => ⟨.inr hino, h.path_lt ino hino, fun htmp => h.apart ino htmp hino⟩
  · exact fun ino _ => ⟨List.prefix_refl _, fun _ => rfl⟩
  · intro w ino k hw
    rw [h.saver w] at hw
    cases hw
  · exact fun ino _ _ w hw => hw.1 (h.saver w)
  · intro ino hino
    rw [h.loader] at hino
    cases hino
  · intro kv hkv
    rw [h.loader] at hkv
    cases hkv

theorem loadedOf_target {outTokens : Bool} {own : ℕ → Option W} {ino : ℕ}
    (h : Known before own ino) {kv : LoadedKv}
    (hkv : kv = loadedOf outTokens (targetOf saves before own ino)) :
    (∃ w, kv = ⟨(saves w).hdr, if outTokens then (saves w).tokens else [], (saves w).body⟩) ∨
      ∃ f, before.file before.path = some f ∧ kv = loadedOf outTokens f := by
  unfold targetOf at hkv
  split at hkv
  · rename_i w _
    exact .inl ⟨w, by rw [hkv, SaveArgs.loadedOf_image]⟩
  · rename_i hnone
    rcases h with h | h
    · exact absurd hnone h
    · exact .inr ⟨before.inode ino, by rw [SharedDir.file, h, Option.map_some], hkv⟩

/-- What a step of a save leaves of the inodes a load may have open. -/
def KeepsSettled (saves : W → SaveArgs) (before : SharedDir) (own : ℕ → Option W) (d : SharedDir)
    (own' : ℕ → Option W) (d' : SharedDir) : Prop :=
  ∀ ino, Settled before own d ino → Settled before own' d' ino ∧ own' ino = own ino ∧
    (d.inode ino = targetOf saves before own ino → d'.inode ino = d.inode ino)

/-- Where `open` puts the temporary file. -/
structure OpenTmpSpec (d : SharedDir) (ino : ℕ) (d' : SharedDir) : Prop where
  inode : d'.inode = Function.update d.inode ino []
  tmp : d'.tmp = some ino
  path : d'.path = d.path
  next_le : d.next ≤ d'.next
  lt : ino < d'.next
  origin : d.tmp = some ino ∨ ino = d.next

theorem openTmp_spec {d : SharedDir} (htmp : ∀ ino, d.tmp = some ino → ino < d.next) :
    OpenTmpSpec d d.openTmp.1 d.openTmp.2 := by
  unfold SharedDir.openTmp
  split
  · rename_i ino h
    exact ⟨rfl, h, rfl, le_rfl, htmp ino h, .inl h⟩
  · exact ⟨rfl, rfl, rfl, Nat.le_succ _, Nat.lt_succ_self _, .inr rfl⟩

/-- The inode that `open` gives out is not settled, and changes alone. -/
theorem OpenTmpSpec.ne {own : ℕ → Option W} {d d' : SharedDir} {ino i : ℕ}
    (hopen : OpenTmpSpec d ino d') (hi : Settled before own d i) : i ≠ ino := by
  rintro rfl
  rcases hopen.origin with h | rfl
  · exact hi.notTmp h
  · exact absurd hi.lt (Nat.lt_irrefl _)

theorem OpenTmpSpec.inode_of_ne {d d' : SharedDir} {ino i : ℕ} (hopen : OpenTmpSpec d ino d')
    (hi : i ≠ ino) : d'.inode i = d.inode i := by
  rw [hopen.inode, Function.update_of_ne hi]

theorem known_update {own : ℕ → Option W} {w : W} {ino i : ℕ} (hi : i ≠ ino) :
    Known before (Function.update own ino (some w)) i ↔ Known before own i := by
  rw [Known, Known, Function.update_of_ne hi]

theorem targetOf_update {own : ℕ → Option W} {w : W} {ino i : ℕ} (hi : i ≠ ino) :
    targetOf saves before (Function.update own ino (some w)) i = targetOf saves before own i := by
  rw [targetOf, targetOf, Function.update_of_ne hi]

theorem Settled.opened {own : ℕ → Option W} {d d' : SharedDir} {ino i : ℕ} (w : W)
    (hi : Settled before own d i) (hopen : OpenTmpSpec d ino d') :
    Settled before (Function.update own ino (some w)) d' i where
  known := (known_update (hopen.ne hi)).mpr hi.known
  lt := lt_of_lt_of_le hi.lt hopen.next_le
  notTmp h := hopen.ne hi (Option.some.inj (hopen.tmp.symm.trans h)).symm

/-- Nobody else writes to the inode that is opened. -/
theorem DirInv.writing_ne {own : ℕ → Option W} {d d' : SharedDir} {saver : W → SavePc} {v : W}
    {ino i k : ℕ} (hinv : DirInv saves before own d saver) (hopen : OpenTmpSpec d ino d')
    (hv : (saver v).writing (saves v) = some (i, k)) (halone : d.tmp ≠ some i) : i ≠ ino := by
  have hown := (hinv.writers v i k hv).1
  rintro rfl
  rcases hopen.origin with htmp | rfl
  · exact halone htmp
  · exact absurd (hinv.known_lt d.next (.inl (by simp [hown]))) (Nat.lt_irrefl _)

variable [DecidableEq W]

theorem dirInv_opened {own : ℕ → Option W} {d d' : SharedDir} {saver : W → SavePc} {w : W}
    {ino : ℕ} (hinv : DirInv saves before own d saver) (hopen : OpenTmpSpec d ino d')
    (halone : ∀ v, v ≠ w → ∀ ino k, (saver v).writing (saves v) = some (ino, k) →
      d.tmp ≠ some ino) :
    DirInv saves before (Function.update own ino (some w)) d'
        (Function.update saver w (.header ino)) ∧
      KeepsSettled saves before own d (Function.update own ino (some w)) d' := by
  constructor
  · constructor
    case known_lt =>
      intro i hi
      by_cases h : i = ino
      · rw [h]
        exact hopen.lt
      · exact lt_of_lt_of_le (hinv.known_lt i ((known_update h).mp hi)) hopen.next_le
    case tmp_lt =>
      intro i hi
      rw [hopen.tmp] at hi
      obtain rfl := Option.some.inj hi
      exact hopen.lt
    case path =>
      intro i hi
      rw [hopen.path] at hi
      exact (hinv.path i hi).opened w hopen
    case grows =>
      intro i hi
      by_cases h : i = ino
      · subst h
        rw [hopen.inode, Function.update_self, targetOf, Function.update_self]
        exact (saves w).growsInto List.nil_prefix
      · rw [hopen.inode_of_ne h, targetOf_update h]
        exact hinv.grows i ((known_update h).mp hi)
    case writers =>
      intro v i k hv
      by_cases h : v = w
      · subst h
        rw [Function.update_self] at hv
        obtain ⟨rfl, rfl⟩ := Prod.mk.inj (Option.some.inj hv)
        refine ⟨Function.update_self .., ?_, ?_⟩
        · rw [hopen.inode, Function.update_self, List.take_zero]
        · rw [(saves v).image_length, KVCacheFileHeader.size]
          omega
      · rw [Function.update_of_ne h] at hv
        have hi := hinv.writing_ne hopen hv (halone v h i k hv)
        rw [hopen.inode_of_ne hi, Function.update_of_ne hi]
        exact hinv.writers v i k hv
    case stale =>
      intro i hi hown
      rw [hopen.tmp] at hi
      obtain rfl := Option.some.inj hi
      rw [Function.update_self] at hown
      cases hown
  · intro i hi
    have hne := hopen.ne hi
    exact ⟨hi.opened w hopen, Function.update_of_ne hne .., fun _ => hopen.inode_of_ne hne⟩

theorem dirInv_wrote {own : ℕ → Option W} {d : SharedDir} {saver : W → SavePc} {w : W}
    {ino k n : ℕ} {pc' : SavePc} (hinv : DirInv saves before own d saver)
    (hrunning : (saver w).Running) (hwriting : (saver w).writing (saves w) = some (ino, k))
    (hnext : ∀ target, pc'.writing (saves w) = some target →
      target = (ino, k + (field (saves w).image k n).length) ∧
        target.2 < (saves w).image.length) :
    DirInv saves before own (d.write ino k (field (saves w).image k n))
        (Function.update saver w pc') ∧
      KeepsSettled saves before own d own (d.write ino k (field (saves w).image k n)) := by
  obtain ⟨hown, hbytes, hlt⟩ := hinv.writers w ino k hwriting
  have hself : (d.write ino k (field (saves w).image k n)).inode ino =
      (saves w).image.take (k + (field (saves w).image k n).length) := by
    rw [SharedDir.inode_write, Function.update_self, hbytes, writeAt_take _ hlt.le]
  have hother (i : ℕ) (hi : i ≠ ino) :
      (d.write ino k (field (saves w).image k n)).inode i = d.inode i := by
    rw [SharedDir.inode_write, Function.update_of_ne hi]
  have hsettled (i : ℕ) (hi : Settled before own d i) :
      Settled before own (d.write ino k (field (saves w).image k n)) i :=
    ⟨hi.known, hi.lt, hi.notTmp⟩
  constructor
  · constructor
    case known_lt => exact hinv.known_lt
    case tmp_lt => exact hinv.tmp_lt
    case path => exact fun i hi => hsettled i (hinv.path i hi)
    case grows =>
      intro i hi
      by_cases h : i = ino
      · subst h
        rw [hself, targetOf, hown]
        exact (saves w).growsInto (List.take_prefix _ _)
      · rw [hother i h]
        exact hinv.grows i hi
    case writers =>
      intro v i k' hv
      by_cases h : v = w
      · subst h
        rw [Function.update_self] at hv
        obtain ⟨htarget, hlt'⟩ := hnext _ hv
        obtain ⟨rfl, rfl⟩ := Prod.mk.inj htarget
        exact ⟨hown, hself, hlt'⟩
      · rw [Function.update_of_ne h] at hv
        obtain ⟨hown', hbytes', hlt'⟩ := hinv.writers v i k' hv
        have hi : i ≠ ino := by
          rintro rfl
          exact h (Option.some.inj (hown'.symm.trans hown))
        rw [hother i hi]
        exact ⟨hown', hbytes', hlt'⟩
    case stale =>
      intro i hi hnone
      exact absurd hrunning (hinv.stale i hi hnone w)
  · intro i hi
    refine ⟨hsettled i hi, rfl, fun hwhole => ?_⟩
    by_cases h : i = ino
    · -- a writer's inode is not whole yet
      subst h
      simp only [targetOf, hown, hbytes] at hwhole
      have hlen := congrArg List.length hwhole
      rw [List.length_take] at hlen
      omega
    · exact hother i h

/-- A call that writes nothing. -/
theorem dirInv_idle {own : ℕ → Option W} {d d' : SharedDir} {saver : W → SavePc} {w : W}
    {pc' : SavePc} (hinv : DirInv saves before own d saver) (hinode : d'.inode = d.inode)
    (hnext : d'.next = d.next) (htmp : ∀ ino, d'.tmp = some ino → d.tmp = some ino)
    (hpath : ∀ ino, d'.path = some ino → Settled before own d' ino)
    (hidle : pc'.writing (saves w) = none)
    (hrunning : pc'.Running → (saver w).Running) :
    DirInv saves before own d' (Function.update saver w pc') ∧
      KeepsSettled saves before own d own d' := by
  constructor
  · constructor
    case known_lt => exact fun i hi => hnext ▸ hinv.known_lt i hi
    case tmp_lt => exact fun i hi => hnext ▸ hinv.tmp_lt i (htmp i hi)
    case path => exact hpath
    case grows => exact fun i hi => hinode ▸ hinv.grows i hi
    case writers =>
      intro v i k hv
      by_cases h : v = w
      · subst h
        rw [Function.update_self, hidle] at hv
        cases hv
      · rw [Function.update_of_ne h] at hv
        rw [hinode]
        exact hinv.writers v i k hv
    case stale =>
      intro i hi hnone v
      have hold := hinv.stale i (htmp i hi) hnone
      by_cases h : v = w
      · subst h
        rw [Function.update_self]
        exact fun hr => hold v (hrunning hr)
      · rw [Function.update_of_ne h]
        exact hold v
  · intro i hi
    refine ⟨⟨hi.known, hnext ▸ hi.lt, fun h => hi.notTmp (htmp i h)⟩, rfl, fun _ => ?_⟩
    rw [hinode]

theorem saveEffect_keeps {own : ℕ → Option W} {d d' : SharedDir} {saver : W → SavePc} {w : W}
    {call : SaveCall} {pc' : SavePc} (hinv : DirInv saves before own d saver)
    (halone : call = .open true → ∀ v, v ≠ w → ∀ ino k,
      (saver v).writing (saves v) = some (ino, k) → d.tmp ≠ some ino)
    (h : SaveEffect (saves w) d (saver w) call d' pc') :
    ∃ own', DirInv saves before own' d' (Function.update saver w pc') ∧
      KeepsSettled saves before own d own' d' := by
  cases h with
  | openFailed =>
    exact ⟨own, dirInv_idle hinv rfl rfl (fun _ h => h) hinv.path rfl
      (fun h => absurd rfl (h.2 false))⟩
  | opened hcall =>
    exact ⟨_, dirInv_opened hinv (openTmp_spec hinv.tmp_lt) (halone hcall)⟩
  | wrote hrunning hwriting hnext =>
    exact ⟨own, dirInv_wrote hinv hrunning hwriting hnext⟩
  | quiet hrunning hidle =>
    exact ⟨own, dirInv_idle hinv rfl rfl (fun _ h => h) hinv.path hidle (fun _ => hrunning)⟩
  | renamed hrunning htmp =>
    rename_i ino
    refine ⟨own, dirInv_idle hinv rfl rfl (by simp) (fun i hi => ?_) rfl (fun _ => hrunning)⟩
    obtain rfl := Option.some.inj hi
    have hown : own ino ≠ none := fun hnone => hinv.stale ino htmp hnone w hrunning
    exact ⟨.inl hown, hinv.tmp_lt ino htmp, by simp⟩
  | unlinked =>
    refine ⟨own, dirInv_idle hinv rfl rfl (by simp) (fun i hi => ?_) rfl
      (fun h => absurd rfl (h.2 false))⟩
    have hpath := hinv.path i hi
    exact ⟨hpath.known, hpath.lt, by simp⟩

variable {outTokens : Bool} {kvCapacity : ℕ}

theorem saveRaceInv_step (s : SaveRaceState W) (e : SaveRaceEvent W) (s' : SaveRaceState W)
    (hs : ∃ own, SaveRaceInv saves outTokens before own s)
    (hstep : AloneSaveRaceStep saves outTokens kvCapacity s e s') :
    ∃ own, SaveRaceInv saves outTokens before own s' := by
  obtain ⟨own, hdir, hreading, hloaded⟩ := hs
  obtain ⟨hstep, halone⟩ := hstep
  cases e with
  | save w call =>
    obtain ⟨⟨d', pc'⟩, hsave, rfl⟩ := Option.map_eq_some_iff.mp hstep
    obtain ⟨own', hdir', hkeeps⟩ :=
      saveEffect_keeps hdir (fun hcall => halone w (by rw [hcall])) (saveStep_effect hsave)
    refine ⟨own', hdir', fun ino hino => ?_, hloaded⟩
    obtain ⟨hsettled, hsees⟩ := hreading ino hino
    obtain ⟨hsettled', hown, hwhole⟩ := hkeeps ino hsettled
    have htarget : targetOf saves before own' ino = targetOf saves before own ino := by
      rw [targetOf, targetOf, hown]
    rw [htarget]
    exact ⟨hsettled', hsees.mono hwhole⟩
  | load call =>
    obtain ⟨pc', hload, rfl⟩ := Option.map_eq_some_iff.mp hstep
    cases hino : s.loader.ino with
    | some ino =>
      obtain ⟨hsettled, hsees⟩ := hreading ino hino
      obtain ⟨hsame, hsees', hkv⟩ :=
        loadStep_stays hino (hdir.grows ino hsettled.known) hsees hload
      refine ⟨own, hdir, fun i hi => ?_, fun kv h => loadedOf_target hsettled.known (hkv kv h)⟩
      obtain rfl := hsame i hi
      exact ⟨hsettled, hsees'⟩
    | none =>
      -- what the path names can no longer be opened as the temporary file
      rcases loadStep_opens hino hload with rfl | ⟨i, hpath, rfl⟩
      · exact ⟨own, hdir, by simp [LoadPc.ino], by simp [LoadsOneSave]⟩
      · refine ⟨own, hdir, fun j hj => ?_, by simp [LoadsOneSave]⟩
        obtain rfl := Option.some.inj hj
        exact ⟨hdir.path i hpath, trivial⟩

end

/-- In every run in which nobody opens an inode that another save still writes to, a load
that succeeds returns one single save, or the file that was there before. -/
theorem load_returns_one_save {W : Type} [DecidableEq W] (saves : W → SaveArgs)
    (outTokens : Bool) (kvCapacity : ℕ) (s : SaveRaceState W) (es : List (SaveRaceEvent W))
    (s' : SaveRaceState W) (hinit : s.Initial)
    (hrun : Run (AloneSaveRaceStep saves outTokens kvCapacity) s es s') :
    LoadsOneSave saves outTokens (s.dir.file s.dir.path) s'.loader := by
  obtain ⟨own, hinv⟩ := hrun.invariant saveRaceInv_step ⟨_, saveRaceInv_initial hinit⟩
  exact hinv.loaded

/-- A save of one token with a body of one byte. -/
def oneTokenSave (token : UInt32) (byte : UInt8) : SaveArgs where
  hdr := ⟨kvcacheMagic, kvcacheVersion, 1, 1, 1, 1, 1, 1, 1, .replicate 32 0, .replicate 56 0⟩
  tokens := [token]
  body := [byte]
  body_eq := rfl
  tokens_eq := rfl
  fits := by simp [KVCacheFileHeader.size]

/-- Two processes that save their own turn of one conversation. -/
def twoSaves : Bool → SaveArgs
  | true => oneTokenSave 1 10
  | false => oneTokenSave 2 20

def emptyDir : SaveRaceState Bool where
  dir := ⟨fun _ => [], 0, none, none⟩
  saver := fun _ => .open
  loader := .open

theorem emptyDir_initial : emptyDir.Initial :=
  ⟨fun _ => rfl, rfl, by simp [emptyDir], by simp [emptyDir], by simp [emptyDir]⟩

/-- The calls of a load that nothing interrupts. -/
def wholeLoad : List (SaveRaceEvent Bool) :=
  [.load (.open true), .load (.read 128), .load (.fstat true), .load (.read 4), .load (.read 1)]

/-- The tokens and the body that a load ended with. -/
def SaveRaceState.got (s : SaveRaceState Bool) : Option (List UInt32 × List UInt8) :=
  match s.loader with
  | .loaded kv => some (kv.tokens, kv.body)
  | _ => none

/-- A step in which nobody else is writing anything when a save opens. -/
def nobodyWriting (s : SaveRaceState Bool) (e : SaveRaceEvent Bool) : Option (SaveRaceState Bool) :=
  match e with
  | .save w (.open true) =>
      if (s.saver !w).writing (twoSaves !w) = none then saveRaceStep twoSaves true 1 s e else none
  | _ => saveRaceStep twoSaves true 1 s e

theorem nobodyWriting_alone (s : SaveRaceState Bool) (e : SaveRaceEvent Bool)
    (s' : SaveRaceState Bool) (h : nobodyWriting s e = some s') :
    AloneSaveRaceStep twoSaves true 1 s e s' := by
  unfold nobodyWriting at h
  split at h
  · rename_i w
    split_ifs at h with hidle
    refine ⟨h, fun w' hw v hv ino k hwriting => ?_⟩
    obtain ⟨rfl, -⟩ := SaveRaceEvent.save.inj hw
    obtain rfl : v = !w := by cases v <;> cases w <;> simp_all
    rw [hidle] at hwriting
    cases hwriting
  · rename_i hne
    exact ⟨h, fun w hw => absurd hw (hne w)⟩

/-- One save opens while the other has written all but not renamed it yet. -/
def turnsTaken : List (SaveRaceEvent Bool) :=
  [.save true (.open true), .save true (.write 128), .save true (.write 4), .save true (.write 1),
    .save false (.open true), .save true (.fsync true), .save true (.rename true),
    .save false (.write 128), .save false (.write 4), .save false (.write 1)] ++ wholeLoad

/-- The load finds the save that opened last, renamed by the other one. -/
theorem load_returns_one_save_turns : ∃ s', exec nobodyWriting emptyDir turnsTaken = some s' ∧
    s'.got = some ([2], [20]) ∧ LoadsOneSave twoSaves true none s'.loader := by
  have hgot : (exec nobodyWriting emptyDir turnsTaken).bind SaveRaceState.got =
      some ([2], [20]) := by
    decide +kernel
  obtain ⟨s', hexec, hs'⟩ := Option.bind_eq_some_iff.mp hgot
  exact ⟨s', hexec, hs', load_returns_one_save twoSaves true 1 emptyDir turnsTaken s'
    emptyDir_initial ((Run.of_exec hexec).mono nobodyWriting_alone)⟩

/-- One save opens what the other has only just opened. -/
def turnsMixed : List (SaveRaceEvent Bool) :=
  [.save true (.open true), .save false (.open true), .save true (.write 128),
    .save true (.write 4), .save true (.write 1), .save false (.write 128),
    .save false (.write 4), .save true (.fsync true), .save true (.rename true)] ++ wholeLoad

/-- The load returns the tokens of one save with the body of the other. -/
theorem load_returns_mixed_save :
    ¬ ∀ (saves : Bool → SaveArgs) (outTokens : Bool) (kvCapacity : ℕ) (s : SaveRaceState Bool)
      (es : List (SaveRaceEvent Bool)) (s' : SaveRaceState Bool), s.Initial →
      Run (SaveRaceStep saves outTokens kvCapacity) s es s' →
      LoadsOneSave saves outTokens (s.dir.file s.dir.path) s'.loader := by
  intro h
  have hgot : (exec (saveRaceStep twoSaves true 1) emptyDir turnsMixed).bind SaveRaceState.got =
      some ([2], [10]) := by
    decide +kernel
  obtain ⟨s', hexec, hs'⟩ := Option.bind_eq_some_iff.mp hgot
  have hone := h twoSaves true 1 emptyDir turnsMixed s' emptyDir_initial (Run.of_exec hexec)
  unfold SaveRaceState.got at hs'
  split at hs'
  · rename_i kv hkv
    rcases hone kv hkv with ⟨w, rfl⟩ | ⟨f, hf, -⟩
    · revert hs'
      cases w <;> decide
    · cases hf
  · cases hs'

end JLLM
