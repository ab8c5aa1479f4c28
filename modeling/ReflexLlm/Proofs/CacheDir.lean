import ReflexLlm.Proofs.CacheBudget
import ReflexLlm.Proofs.SaveAtomic
import ReflexLlm.Spec.CacheDir

/-! The shared cache directory over whole runs. As long as no two saves of one conversation
overlap, the file of a conversation is at every moment missing, as it was at the start, or the
whole image of one save of that conversation, wherever processes stop; loads get only such files. -/

namespace JLLM

open Runs

/-! ### Names -/

section

variable (root : CacheRoot)

theorem pathFor_eq : ∃ dir, ∀ conv : ConvId, root.pathFor conv = dir ++ conv.id ++ ".bin" := by
  by_cases hslash : root.path.toList.getLast? = some '/'
  · refine ⟨root.path, fun conv => ?_⟩
    rw [CacheRoot.pathFor, pathForConvId, root.nonempty, conv.nonempty, if_neg (by decide),
      if_pos hslash]
  · refine ⟨root.path ++ "/", fun conv => ?_⟩
    rw [CacheRoot.pathFor, pathForConvId, root.nonempty, conv.nonempty, if_neg (by decide),
      if_neg hslash]

theorem pathFor_inj {conv conv' : ConvId} (h : root.pathFor conv = root.pathFor conv') :
    conv = conv' := by
  obtain ⟨dir, hdir⟩ := pathFor_eq root
  rw [hdir, hdir] at h
  have hlist := congrArg String.toList h
  simp only [String.toList_append, List.append_assoc, List.append_cancel_left_eq,
    List.append_cancel_right_eq, String.toList_inj] at hlist
  cases conv
  cases conv'
  cases hlist
  rfl

theorem tmp_inj {conv conv' : ConvId} (h : root.pathFor conv ++ ".tmp" = root.pathFor conv' ++ ".tmp") :
    conv = conv' := by
  refine pathFor_inj root (String.toList_inj.mp ?_)
  have hlist := congrArg String.toList h
  rw [String.toList_append, String.toList_append] at hlist
  exact List.append_cancel_right hlist

/-- No name has both extensions. -/
theorem not_bin_and_tmp {name : String} (hbin : ".bin".toList <:+ name.toList)
    (htmp : ".tmp".toList <:+ name.toList) : False := by
  have hsuffix := List.suffix_of_suffix_length_le hbin htmp (by decide)
  have heq := hsuffix.eq_of_length (by decide)
  revert heq
  decide

theorem bin_suffix_pathFor (conv : ConvId) : ".bin".toList <:+ (root.pathFor conv).toList := by
  obtain ⟨dir, hdir⟩ := pathFor_eq root
  rw [hdir, String.toList_append]
  exact List.suffix_append _ _

theorem tmp_suffix (path : String) : ".tmp".toList <:+ (path ++ ".tmp").toList := by
  rw [String.toList_append]
  exact List.suffix_append _ _

theorem pathFor_ne_tmp (conv : ConvId) (path : String) : root.pathFor conv ≠ path ++ ".tmp" :=
  fun h => not_bin_and_tmp (bin_suffix_pathFor root conv) (h ▸ tmp_suffix path)

theorem suffix_of_hasExtension {name suffix : String} (h : hasExtension name suffix = true) :
    suffix.toList <:+ name.toList := by
  rw [hasExtension, Bool.and_eq_true] at h
  exact of_decide_eq_true h.1

end

/-! ### What the two walks over a directory unlink -/

theorem hasExtension_join {dir : Directory} {name suffix : String}
    (h : hasExtension name suffix = true) : hasExtension (dir.join name) suffix = true := by
  rw [hasExtension, Bool.and_eq_true] at h ⊢
  have hsuffix : suffix.toList <:+ name.toList := of_decide_eq_true h.1
  obtain ⟨stem, hstem⟩ : ∃ stem : String, dir.join name = stem ++ name ∧ stem.toList ≠ [] := by
    rw [Directory.join]
    split_ifs with hslash
    · exact ⟨dir.path, rfl, fun hnil => by simp [hnil] at hslash⟩
    · exact ⟨dir.path ++ "/", String.append_assoc.symm, by simp⟩
  rw [hstem.1, String.toList_append]
  refine ⟨decide_eq_true (hsuffix.trans (List.suffix_append _ _)), decide_eq_true fun heq => ?_⟩
  have hlen := congrArg (fun t => t.toList.length) heq
  simp only [String.toList_append, List.length_append] at hlen
  have hle := hsuffix.length_le
  have hpos := List.length_pos_iff.mpr hstem.2
  omega

theorem hasExtension_listed {dir : Directory} {suffix : String} {e : CacheEntry}
    (h : e ∈ listKvFiles dir suffix) : hasExtension e.path suffix = true := by
  obtain ⟨de, -, hde⟩ := List.mem_filterMap.mp h
  rw [DirEntry.cacheEntry] at hde
  split_ifs at hde with hregular hext
  obtain ⟨st, -, rfl⟩ := Option.map_eq_some_iff.mp hde
  exact hasExtension_join (by simpa using hext)

/-- The unlinks of `enforce_kv_cache_budget` are evictions. -/
theorem hasExtension_evicted {order : OldestFirst} {dir : Directory} {maxBytes : ℤ}
    {keepPath : String} {unlinkOk : String → Bool} {calls : List (CacheEntry × Bool)}
    (h : enforceKvCacheBudget order dir maxBytes keepPath unlinkOk = some calls) :
    ∀ call ∈ calls, hasExtension call.1.path ".bin" = true := by
  intro call hcall
  rw [enforceKvCacheBudget] at h
  split_ifs at h
  · obtain rfl := Option.some.inj h
    cases hcall
  · simp only at h
    split at h
    · cases h
    · obtain rfl := Option.some.inj h
      split_ifs at hcall
      · cases hcall
      · have hmem := (evictLoop_sublist maxBytes keepPath unlinkOk _ _).subset
          (List.mem_map_of_mem hcall)
        exact hasExtension_listed ((order.perm _).mem_iff.mp hmem)

/-- Those of `cleanup_stale_tmp_files` are of temporary files that are old enough. -/
theorem hasExtension_cleaned {dir : Directory} {now maxAgeSeconds : ℤ} {e : CacheEntry}
    (h : e ∈ cleanupStaleTmpFiles dir now maxAgeSeconds) :
    hasExtension e.path ".tmp" = true ∧ 0 < maxAgeSeconds ∧ maxAgeSeconds ≤ now - e.mtime := by
  rw [cleanupStaleTmpFiles] at h
  split_ifs at h with hage
  · cases h
  · obtain ⟨hlisted, hold⟩ := List.mem_filter.mp h
    exact ⟨hasExtension_listed hlisted, by omega, of_decide_eq_true hold⟩

/-! ### One save in its part of the directory -/

/-- What one call of a save does to the names and the inodes. -/
structure PartStep (d d' : SharedDir) : Prop where
  next_le : d.next ≤ d'.next
  tmp : ∀ ino, d'.tmp = some ino → ino < d'.next ∧ (d.tmp = some ino ∨ d.next ≤ ino)
  path : ∀ ino, d'.path = some ino → ino < d'.next ∧ (d.path = some ino ∨ d.tmp = some ino)
  apart : ∀ ino, d'.tmp = some ino → d'.path ≠ some ino
  inode : ∀ ino, ino < d.next → d.tmp ≠ some ino → d'.inode ino = d.inode ino

section

variable {args : SaveArgs} {before d d' : SharedDir} {pc pc' : SavePc} {call : SaveCall}

/-- Only the temporary file is written to. -/
theorem SaveAt.writing_tmp {ino k : ℕ} (hat : SaveAt args before d pc)
    (h : pc.writing args = some (ino, k)) : d.tmp = some ino := by
  cases pc with
  | header i =>
    obtain ⟨rfl, -⟩ := Prod.mk.inj (Option.some.inj h)
    exact TmpHolds.tmp hat
  | tokens i written =>
    obtain ⟨rfl, -⟩ := Prod.mk.inj (Option.some.inj h)
    exact hat.2.tmp
  | body i written =>
    obtain ⟨rfl, -⟩ := Prod.mk.inj (Option.some.inj h)
    exact hat.2.tmp
  | _ => cases h

theorem partStep_refl (hd : d.Apart) : PartStep d d where
  next_le := le_rfl
  tmp ino h := ⟨hd.tmp_lt ino h, .inl h⟩
  path ino h := ⟨hd.path_lt ino h, .inl h⟩
  apart := hd.apart
  inode _ _ _ := rfl

theorem partStep_of_saveStep (hd : d.Apart) (hat : SaveAt args before d pc)
    (h : saveStep args d pc call = some (d', pc')) : PartStep d d' := by
  cases saveStep_effect h with
  | openFailed => exact partStep_refl hd
  | opened =>
    have hopen := openTmp_spec hd.tmp_lt
    constructor
    case next_le => exact hopen.next_le
    case tmp =>
      intro ino htmp
      obtain rfl := Option.some.inj (hopen.tmp.symm.trans htmp)
      exact ⟨hopen.lt, hopen.origin.imp_right ge_of_eq⟩
    case path =>
      intro ino hpath
      rw [hopen.path] at hpath
      exact ⟨(hd.path_lt ino hpath).trans_le hopen.next_le, .inl hpath⟩
    case apart =>
      intro ino htmp hpath
      obtain rfl := Option.some.inj (hopen.tmp.symm.trans htmp)
      rw [hopen.path] at hpath
      rcases hopen.origin with horigin | horigin
      · exact hd.apart _ horigin hpath
      · exact absurd (hd.path_lt _ hpath) (by omega)
    case inode =>
      intro ino hlt htmp
      refine hopen.inode_of_ne fun heq => ?_
      rcases hopen.origin with horigin | horigin
      · exact htmp (heq ▸ horigin)
      · omega
  | wrote hrunning hwriting hnext =>
    have htmp := hat.writing_tmp hwriting
    refine ⟨le_rfl, (partStep_refl hd).tmp, (partStep_refl hd).path, hd.apart, fun i _ hi => ?_⟩
    rw [SharedDir.inode_write]
    refine Function.update_of_ne ?_ _ _
    rintro rfl
    exact hi htmp
  | quiet hrunning hidle => exact partStep_refl hd
  | renamed hrunning htmp =>
    refine ⟨le_rfl, by simp, fun i hi => ?_, by simp, fun _ _ _ => rfl⟩
    obtain rfl := Option.some.inj hi
    exact ⟨hd.tmp_lt _ htmp, .inr htmp⟩
  | unlinked => exact ⟨le_rfl, by simp, (partStep_refl hd).path, by simp, fun _ _ _ => rfl⟩

/-- A running save does not mind what happens elsewhere, nor that its file is evicted. -/
theorem SaveAt.elsewhere (hat : SaveAt args before d pc) (hrunning : pc.Running)
    (htmp : d'.tmp = d.tmp) (hpath : ∀ ino, d'.path = some ino → d.path = some ino)
    (hinode : ∀ ino, d.tmp = some ino → d'.inode ino = d.inode ino) : SaveAt args d' d' pc := by
  have hholds {ino : ℕ} {content : List UInt8} (h : TmpHolds before d ino content) :
      TmpHolds d' d' ino content :=
    ⟨htmp.trans h.tmp, (hinode ino h.tmp).trans h.inode, rfl, fun hp => h.apart (hpath ino hp)⟩
  cases pc with
  | «open» => exact absurd rfl hrunning.1
  | header ino => exact hholds hat
  | tokens ino written => exact ⟨hat.1, hholds hat.2⟩
  | body ino written => exact ⟨hat.1, hholds hat.2⟩
  | fsync ino => exact hholds hat
  | rename =>
    obtain ⟨ino, hino⟩ := hat
    exact ⟨ino, hholds hino⟩
  | unlink => exact rfl
  | done ok => exact absurd rfl (hrunning.2 ok)

end

/-! ### The directory -/

/-- The file behind a name, if there is one. -/
def CacheDir.file (d : CacheDir) (name : String) : Option (List UInt8) := (d.name name).map d.inode

section

variable {W L : Type} (root : CacheRoot) (saves : W → ConvSave) (loads : L → ConvLoad)

/-- The part of the directory that a save uses. -/
def savePart (d : CacheDir) (w : W) : SharedDir := d.view (root.pathFor (saves w).conv)

/-- What a file of a conversation holds: the whole image of one of its saves, or what was there at
the start. -/
def Stored (before : CacheDir) (conv : ConvId) (f : List UInt8) : Prop :=
  (∃ w, (saves w).conv = conv ∧ f = (saves w).args.image) ∨
    before.file (root.pathFor conv) = some f

/-- Names do not share inodes. -/
structure CacheDir.Distinct (d : CacheDir) : Prop where
  lt : ∀ name ino, d.name name = some ino → ino < d.next
  apart : ∀ name name' ino, d.name name = some ino → d.name name' = some ino → name = name'

/-- An inode that a load has open: no save can open it any more. -/
structure Opened (before d : CacheDir) (conv : ConvId) (ino : ℕ) : Prop where
  lt : ino < d.next
  notTmp : ∀ conv', d.name (root.pathFor conv' ++ ".tmp") ≠ some ino
  stored : Stored root saves before conv (d.inode ino)

structure CacheDirInv (before : CacheDir) (s : CacheDirState W L) : Prop where
  distinct : s.dir.Distinct
  stored : ∀ conv f, s.dir.file (root.pathFor conv) = some f → Stored root saves before conv f
  saving : ∀ w, (s.saver w).Running →
    SaveAt (saves w).args (savePart root saves s.dir w) (savePart root saves s.dir w) (s.saver w)
  alone : ∀ w v, (s.saver w).Running → (s.saver v).Running → (saves w).conv = (saves v).conv → w = v
  reading : ∀ l ino, (s.loader l).ino = some ino → Opened root saves before s.dir (loads l).conv ino ∧
    (s.loader l).Sees (loads l).outTokens (s.dir.inode ino) (s.dir.inode ino)
  loaded : ∀ l kv, s.loader l = .loaded kv →
    ∃ f, Stored root saves before (loads l).conv f ∧ kv = loadedOf (loads l).outTokens f

variable {root saves loads} {before d : CacheDir} {s : CacheDirState W L}

theorem CacheDir.Distinct.view (h : d.Distinct) (path : String) (hne : path ≠ path ++ ".tmp") :
    (d.view path).Apart where
  tmp_lt ino hino := h.lt _ ino hino
  path_lt ino hino := h.lt _ ino hino
  apart ino htmp hpath := hne (h.apart _ _ ino hpath htmp)

theorem put_name_tmp (path : String) (hne : path ≠ path ++ ".tmp") (part : SharedDir) :
    (d.put path part).name (path ++ ".tmp") = part.tmp := by
  rw [CacheDir.put]
  simp only
  rw [Function.update_of_ne hne.symm, Function.update_self]

theorem put_name_path (path : String) (part : SharedDir) :
    (d.put path part).name path = part.path := Function.update_self ..

theorem put_name_of_ne {path name : String} (hpath : name ≠ path) (htmp : name ≠ path ++ ".tmp")
    (part : SharedDir) : (d.put path part).name name = d.name name := by
  rw [CacheDir.put]
  simp only
  rw [Function.update_of_ne hpath, Function.update_of_ne htmp]

theorem put_view (path : String) (hne : path ≠ path ++ ".tmp") (part : SharedDir) :
    (d.put path part).view path = part := by
  rw [CacheDir.view, put_name_tmp path hne, put_name_path]
  rfl

theorem put_file_of_ne {path name : String} {part : SharedDir} (hpath : name ≠ path)
    (htmp : name ≠ path ++ ".tmp")
    (hinode : ∀ ino, d.name name = some ino → part.inode ino = d.inode ino) :
    (d.put path part).file name = d.file name := by
  rw [CacheDir.file, CacheDir.file, put_name_of_ne hpath htmp]
  cases hname : d.name name with
  | none => rfl
  | some ino => exact congrArg some (hinode ino hname)

theorem put_name_cases {path name : String} {part : SharedDir} {ino : ℕ}
    (h : (d.put path part).name name = some ino) :
    (name = path ∧ part.path = some ino) ∨ (name = path ++ ".tmp" ∧ part.tmp = some ino) ∨
      (name ≠ path ∧ name ≠ path ++ ".tmp" ∧ d.name name = some ino) := by
  by_cases hpath : name = path
  · subst hpath
    rw [put_name_path] at h
    exact .inl ⟨rfl, h⟩
  · by_cases htmp : name = path ++ ".tmp"
    · subst htmp
      rw [put_name_tmp path (Ne.symm hpath)] at h
      exact .inr (.inl ⟨rfl, h⟩)
    · rw [put_name_of_ne hpath htmp] at h
      exact .inr (.inr ⟨hpath, htmp, h⟩)

/-- An inode that a part names afterwards has no other name. -/
theorem CacheDir.Distinct.part_ne (h : d.Distinct) {path name : String} {part : SharedDir} {ino : ℕ}
    (hpart : PartStep (d.view path) part) (hino : part.path = some ino ∨ part.tmp = some ino)
    (hpath : name ≠ path) (htmp : name ≠ path ++ ".tmp") : d.name name ≠ some ino := by
  intro hname
  have hlt := h.lt name ino hname
  have hcases : (d.view path).path = some ino ∨ (d.view path).tmp = some ino ∨ d.next ≤ ino := by
    rcases hino with hino | hino
    · exact (hpart.path ino hino).2.imp_right .inl
    · exact .inr (hpart.tmp ino hino).2
  rcases hcases with hold | hold | hold
  · exact hpath (h.apart _ _ ino hname hold)
  · exact htmp (h.apart _ _ ino hname hold)
  · omega

/-- Names stay apart when one part is replaced by what a call of a save makes of it. -/
theorem CacheDir.Distinct.put (h : d.Distinct) {path : String} {part : SharedDir}
    (hpart : PartStep (d.view path) part) : (d.put path part).Distinct where
  lt name ino hname := by
    rcases put_name_cases hname with ⟨-, hino⟩ | ⟨-, hino⟩ | ⟨-, -, hold⟩
    · exact (hpart.path ino hino).1
    · exact (hpart.tmp ino hino).1
    · exact (h.lt name ino hold).trans_le hpart.next_le
  apart name name' ino hname hname' := by
    rcases put_name_cases hname with ⟨rfl, hino⟩ | ⟨rfl, hino⟩ | ⟨hpath, htmp, hold⟩
    · rcases put_name_cases hname' with ⟨rfl, -⟩ | ⟨rfl, hino'⟩ | ⟨hpath', htmp', hold'⟩
      · rfl
      · exact absurd hino (hpart.apart ino hino')
      · exact absurd hold' (h.part_ne hpart (.inl hino) hpath' htmp')
    · rcases put_name_cases hname' with ⟨rfl, hino'⟩ | ⟨rfl, -⟩ | ⟨hpath', htmp', hold'⟩
      · exact absurd hino' (hpart.apart ino hino)
      · rfl
      · exact absurd hold' (h.part_ne hpart (.inr hino) hpath' htmp')
    · rcases put_name_cases hname' with ⟨-, hino'⟩ | ⟨-, hino'⟩ | ⟨-, -, hold'⟩
      · exact absurd hold (h.part_ne hpart (.inl hino') hpath htmp)
      · exact absurd hold (h.part_ne hpart (.inr hino') hpath htmp)
      · exact h.apart _ _ ino hold hold'

/-- A save that has a call to make has not ended. -/
theorem saveStep_unended {args : SaveArgs} {part part' : SharedDir} {pc pc' : SavePc}
    {call : SaveCall} (h : saveStep args part pc call = some (part', pc')) :
    pc.Running ∨ pc = .open ∧ ((∃ ok, call = .open ok) ∧
      (call = .open false → part' = part ∧ ¬ pc'.Running)) := by
  cases pc with
  | «open» =>
    refine .inr ⟨rfl, ?_⟩
    cases call with
    | «open» ok =>
      refine ⟨⟨ok, rfl⟩, fun hcall => ?_⟩
      obtain rfl := SaveCall.open.inj hcall
      obtain ⟨rfl, rfl⟩ := Prod.mk.inj (Option.some.inj h)
      exact ⟨rfl, fun hrun => hrun.2 false rfl⟩
    | _ => cases h
  | done ok => cases h
  | _ => exact .inl ⟨by simp, by simp⟩

section

variable {w : W} {call : SaveCall} {part : SharedDir} {pc' : SavePc}

/-- Where no other save of its conversation runs, one that goes on runs alone. -/
theorem CacheDirInv.save_alone (h : CacheDirInv root saves loads before s)
    (halone : call = .open true → ∀ v, (s.saver v).Running → (saves v).conv ≠ (saves w).conv)
    (hstep : saveStep (saves w).args (savePart root saves s.dir w) (s.saver w) call =
      some (part, pc')) {v : W} (hne : v ≠ w) (hv : (s.saver v).Running)
    (hconv : (saves v).conv = (saves w).conv) :
    part = savePart root saves s.dir w ∧ ¬ pc'.Running := by
  rcases saveStep_unended hstep with hrunning | ⟨-, ⟨ok, rfl⟩, hfailed⟩
  · exact absurd (h.alone v w hv hrunning hconv) hne
  · cases ok with
    | false => exact hfailed rfl
    | true => exact absurd hconv (halone rfl v hv)

theorem CacheDirInv.saveAt (h : CacheDirInv root saves loads before s)
    (hstep : saveStep (saves w).args (savePart root saves s.dir w) (s.saver w) call =
      some (part, pc')) : SaveAt (saves w).args (savePart root saves s.dir w)
        (savePart root saves s.dir w) (s.saver w) := by
  rcases saveStep_unended hstep with hrunning | ⟨hopen, -⟩
  · exact h.saving w hrunning
  · rw [hopen]
    rfl

variable [DecidableEq W]

/-- A call of a save. -/
theorem CacheDirInv.save (h : CacheDirInv root saves loads before s)
    (halone : call = .open true → ∀ v, (s.saver v).Running → (saves v).conv ≠ (saves w).conv)
    (hstep : saveStep (saves w).args (savePart root saves s.dir w) (s.saver w) call =
      some (part, pc')) :
    CacheDirInv root saves loads before
      { s with dir := s.dir.put (root.pathFor (saves w).conv) part,
               saver := Function.update s.saver w pc' } := by
  have hne (path : String) : root.pathFor (saves w).conv ≠ path ++ ".tmp" := pathFor_ne_tmp root _ _
  have hapart : (savePart root saves s.dir w).Apart := h.distinct.view _ (hne _)
  have hat := saveAt_step hapart (h.saveAt hstep) hstep
  have hpart : PartStep (savePart root saves s.dir w) part :=
    partStep_of_saveStep hapart (h.saveAt hstep) hstep
  -- only the temporary file of this conversation changes
  have hinode {name : String} {ino : ℕ} (hname : s.dir.name name = some ino)
      (htmp : name ≠ root.pathFor (saves w).conv ++ ".tmp") : part.inode ino = s.dir.inode ino :=
    hpart.inode ino (h.distinct.lt name ino hname) fun hino => htmp (h.distinct.apart _ _ ino hname hino)
  constructor
  case distinct => exact h.distinct.put hpart
  case stored =>
    intro conv f hf
    by_cases hconv : conv = (saves w).conv
    · subst hconv
      rw [CacheDir.file, put_name_path] at hf
      rcases hat.file with ⟨hold, -⟩ | ⟨hnew, -⟩
      · exact h.stored _ f (hold.symm.trans hf)
      · exact .inl ⟨w, rfl, (Option.some.inj (hnew.symm.trans hf)).symm⟩
    · rw [put_file_of_ne (fun heq => hconv (pathFor_inj root heq)) (pathFor_ne_tmp root _ _)
        fun ino hname => hinode hname (pathFor_ne_tmp root _ _)] at hf
      exact h.stored conv f hf
  case saving =>
    intro u hu
    simp only at hu ⊢
    by_cases huw : u = w
    · subst huw
      rw [Function.update_self] at hu ⊢
      rw [savePart, put_view _ (hne _)]
      exact hat.elsewhere hu rfl (fun _ hino => hino) fun _ _ => rfl
    · rw [Function.update_of_ne huw] at hu ⊢
      by_cases hconv : (saves u).conv = (saves w).conv
      · obtain ⟨rfl, -⟩ := h.save_alone halone hstep huw hu hconv
        have hsame : savePart root saves (s.dir.put (root.pathFor (saves w).conv)
            (savePart root saves s.dir w)) u = savePart root saves s.dir u := by
          rw [savePart, hconv, put_view _ (hne _), savePart, savePart, hconv]
        rw [hsame]
        exact h.saving u hu
      · have htmp : root.pathFor (saves u).conv ++ ".tmp" ≠ root.pathFor (saves w).conv ++ ".tmp" :=
          fun heq => hconv (tmp_inj root heq)
        refine (h.saving u hu).elsewhere hu (put_name_of_ne (pathFor_ne_tmp root _ _).symm htmp _)
          (fun ino hino => ?_) fun ino hino => hinode hino htmp
        exact (put_name_of_ne (fun heq => hconv (pathFor_inj root heq)) (pathFor_ne_tmp root _ _)
          _).symm.trans hino
  case alone =>
    intro u v hu hv hconv
    simp only at hu hv
    by_cases huw : u = w
    · by_cases hvw : v = w
      · rw [huw, hvw]
      · subst huw
        rw [Function.update_self] at hu
        rw [Function.update_of_ne hvw] at hv
        exact absurd hu (h.save_alone halone hstep hvw hv hconv.symm).2
    · rw [Function.update_of_ne huw] at hu
      by_cases hvw : v = w
      · subst hvw
        rw [Function.update_self] at hv
        exact absurd hv (h.save_alone halone hstep huw hu hconv).2
      · rw [Function.update_of_ne hvw] at hv
        exact h.alone u v hu hv hconv
  case reading =>
    intro l ino hl
    obtain ⟨hopened, hsees⟩ := h.reading l ino hl
    have hsame : part.inode ino = s.dir.inode ino := hpart.inode ino hopened.lt (hopened.notTmp _)
    refine ⟨⟨hopened.lt.trans_le hpart.next_le, fun conv' hname => ?_, ?_⟩, ?_⟩
    · rcases put_name_cases hname with ⟨heq, -⟩ | ⟨-, hino⟩ | ⟨-, -, hold⟩
      · exact pathFor_ne_tmp root _ _ heq.symm
      · rcases (hpart.tmp ino hino).2 with hold | hnew
        · exact hopened.notTmp _ hold
        · exact absurd hopened.lt hnew.not_gt
      · exact hopened.notTmp conv' hold
    · exact (congrArg (Stored root saves before _) hsame).mpr hopened.stored
    · exact (congrArg (fun f => (s.loader l).Sees (loads l).outTokens f f) hsame).mpr hsees
  case loaded => exact h.loaded

end

/-- A call of a load. -/
theorem CacheDirInv.load [DecidableEq L] (h : CacheDirInv root saves loads before s) {l : L}
    {call : LoadCall} {pc' : LoadPc}
    (hstep : loadStep (loads l).outTokens (loads l).kvCapacity
      (s.dir.view (root.pathFor (loads l).conv)) (s.loader l) call = some pc') :
    CacheDirInv root saves loads before { s with loader := Function.update s.loader l pc' } := by
  have hnext : (∀ ino, pc'.ino = some ino → Opened root saves before s.dir (loads l).conv ino ∧
        pc'.Sees (loads l).outTokens (s.dir.inode ino) (s.dir.inode ino)) ∧
      ∀ kv, pc' = .loaded kv →
        ∃ f, Stored root saves before (loads l).conv f ∧ kv = loadedOf (loads l).outTokens f := by
    cases hino : (s.loader l).ino with
    | some ino =>
      obtain ⟨hopened, hsees⟩ := h.reading l ino hino
      obtain ⟨hsame, hsees', hkv⟩ := loadStep_stays hino
        ⟨List.prefix_rfl, fun _ => rfl⟩ hsees hstep
      refine ⟨fun i hi => ?_, fun kv hloaded => ⟨_, hopened.stored, hkv kv hloaded⟩⟩
      obtain rfl := hsame i hi
      exact ⟨hopened, hsees'⟩
    | none =>
      rcases loadStep_opens hino hstep with rfl | ⟨i, hpath, rfl⟩
      · exact ⟨by simp [LoadPc.ino], by simp⟩
      · refine ⟨fun j hj => ?_, by simp⟩
        obtain rfl := Option.some.inj hj
        refine ⟨⟨h.distinct.lt _ i hpath, fun conv' htmp => ?_, ?_⟩, trivial⟩
        · exact pathFor_ne_tmp root _ _ (h.distinct.apart _ _ i hpath htmp)
        · exact h.stored _ _ (by rw [CacheDir.file, show s.dir.name _ = some i from hpath]; rfl)
  refine ⟨h.distinct, h.stored, h.saving, h.alone, fun l' ino hl' => ?_, fun l' kv hl' => ?_⟩
  · simp only at hl' ⊢
    by_cases heq : l' = l
    · subst heq
      rw [Function.update_self] at hl' ⊢
      exact hnext.1 ino hl'
    · rw [Function.update_of_ne heq] at hl' ⊢
      exact h.reading l' ino hl'
  · simp only at hl'
    by_cases heq : l' = l
    · subst heq
      rw [Function.update_self] at hl'
      exact hnext.2 kv hl'
    · rw [Function.update_of_ne heq] at hl'
      exact h.loaded l' kv hl'

/-- A process that stops leaves the directory as it is. -/
theorem CacheDirInv.stop [DecidableEq W] (h : CacheDirInv root saves loads before s) (w : W) :
    CacheDirInv root saves loads before
      { s with saver := Function.update s.saver w (.done false) } := by
  have hrunning {v : W} (hv : (Function.update s.saver w (.done false) v).Running) :
      Function.update s.saver w (.done false) v = s.saver v ∧ (s.saver v).Running := by
    by_cases heq : v = w
    · subst heq
      rw [Function.update_self] at hv
      exact absurd rfl (hv.2 false)
    · rw [Function.update_of_ne heq] at hv ⊢
      exact ⟨rfl, hv⟩
  refine ⟨h.distinct, h.stored, fun v hv => ?_, fun u v hu hv => ?_, h.reading, h.loaded⟩
  · simp only
    rw [(hrunning hv).1]
    exact h.saving v (hrunning hv).2
  · exact h.alone u v (hrunning hu).2 (hrunning hv).2

/-- An unlink that leaves the temporary files of running saves alone. -/
theorem CacheDirInv.unlink (h : CacheDirInv root saves loads before s) {name : String}
    (hfree : ∀ w, (s.saver w).Running → name ≠ root.pathFor (saves w).conv ++ ".tmp") :
    CacheDirInv root saves loads before { s with dir := s.dir.unlink name } := by
  have hname {n : String} {ino : ℕ} (hn : Function.update s.dir.name name none n = some ino) :
      s.dir.name n = some ino := by
    by_cases heq : n = name
    · subst heq
      rw [Function.update_self] at hn
      cases hn
    · rwa [Function.update_of_ne heq] at hn
  constructor
  case distinct =>
    exact ⟨fun n ino hn => h.distinct.lt n ino (hname hn),
      fun n n' ino hn hn' => h.distinct.apart n n' ino (hname hn) (hname hn')⟩
  case stored =>
    intro conv f hf
    obtain ⟨ino, hino, rfl⟩ := Option.map_eq_some_iff.mp hf
    exact h.stored conv _ (by rw [CacheDir.file, hname hino]; rfl)
  case saving =>
    intro w hw
    refine (h.saving w hw).elsewhere hw ?_ (fun ino hino => hname hino) fun _ _ => rfl
    exact Function.update_of_ne (hfree w hw).symm _ _
  case alone => exact h.alone
  case reading =>
    intro l ino hl
    obtain ⟨hopened, hsees⟩ := h.reading l ino hl
    exact ⟨⟨hopened.lt, fun conv' htmp => hopened.notTmp conv' (hname htmp), hopened.stored⟩, hsees⟩
  case loaded => exact h.loaded

theorem cacheDirInv_initial (h : s.Initial) : CacheDirInv root saves loads s.dir s where
  distinct := ⟨h.lt, h.apart⟩
  stored _ _ hf := .inr hf
  saving w hw := absurd (h.saver w) hw.1
  alone u _ hu _ _ := absurd (h.saver u) hu.1
  reading l ino hl := by
    rw [h.loader l] at hl
    cases hl
  loaded l kv hl := by
    rw [h.loader l] at hl
    cases hl

variable [DecidableEq W] [DecidableEq L]

variable (root saves loads) in
/-- One call, in which no save starts while another one of its conversation runs, and no temporary
file is cleaned up that a running save writes. -/
def ExclusiveStep (s : CacheDirState W L) (e : CacheDirEvent W L) (s' : CacheDirState W L) : Prop :=
  cacheDirStep root saves loads s e = some s' ∧
    (∀ w, e = .save w (.open true) → ∀ v, (s.saver v).Running → (saves v).conv ≠ (saves w).conv) ∧
    ∀ name, e = .clean name → ∀ w, (s.saver w).Running →
      name ≠ root.pathFor (saves w).conv ++ ".tmp"

theorem cacheDirInv_step (s : CacheDirState W L) (e : CacheDirEvent W L) (s' : CacheDirState W L)
    (h : CacheDirInv root saves loads before s) (hstep : ExclusiveStep root saves loads s e s') :
    CacheDirInv root saves loads before s' := by
  obtain ⟨hstep, halone, hclean⟩ := hstep
  cases e with
  | save w call =>
    obtain ⟨⟨part, pc'⟩, hsave, rfl⟩ := Option.map_eq_some_iff.mp hstep
    exact h.save (fun hcall => halone w (by rw [hcall])) hsave
  | load l call =>
    obtain ⟨pc', hload, rfl⟩ := Option.map_eq_some_iff.mp hstep
    exact h.load hload
  | stop w =>
    obtain rfl := Option.some.inj hstep
    exact h.stop w
  | evict name =>
    rw [cacheDirStep] at hstep
    split_ifs at hstep with hbin
    obtain rfl := Option.some.inj hstep
    exact h.unlink fun w _ heq =>
      not_bin_and_tmp (suffix_of_hasExtension hbin) (heq ▸ tmp_suffix _)
  | clean name =>
    rw [cacheDirStep] at hstep
    split_ifs at hstep
    obtain rfl := Option.some.inj hstep
    exact h.unlink (hclean name rfl)

end

instance (pc : SavePc) : Decidable pc.Running :=
  inferInstanceAs (Decidable (pc ≠ .open ∧ ∀ ok, pc ≠ .done ok))

def kvRoot : CacheRoot := ⟨"kv", by decide +kernel⟩

/-- Two saves of one conversation. -/
def chatSaves (w : Bool) : ConvSave :=
  ⟨⟨"chat", by decide +kernel, by decide +kernel⟩, twoSaves w⟩

def chatLoad (_ : Unit) : ConvLoad := ⟨(chatSaves true).conv, true, 1⟩

def emptyCacheDir : CacheDirState Bool Unit where
  dir := ⟨fun _ => [], 0, fun _ => none⟩
  saver := fun _ => .open
  loader := fun _ => .open

/-- A call with which the two saves do not overlap. -/
def exclusiveNext (s : CacheDirState Bool Unit) (e : CacheDirEvent Bool Unit) :
    Option (CacheDirState Bool Unit) :=
  match e with
  | .save w (.open true) =>
      if (s.saver true).Running ∨ (s.saver false).Running then none
      else cacheDirStep kvRoot chatSaves chatLoad s (.save w (.open true))
  | .clean _ => none
  | e => cacheDirStep kvRoot chatSaves chatLoad s e

theorem exclusiveNext_exclusive (s : CacheDirState Bool Unit) (e : CacheDirEvent Bool Unit)
    (s' : CacheDirState Bool Unit) (h : exclusiveNext s e = some s') :
    ExclusiveStep kvRoot chatSaves chatLoad s e s' := by
  unfold exclusiveNext at h
  split at h
  · split_ifs at h with hidle
    rw [not_or] at hidle
    refine ⟨h, fun w _ v hv => ?_, by simp⟩
    cases v
    · exact absurd hv hidle.2
    · exact absurd hv hidle.1
  · cases h
  · rename_i hopen hclean
    exact ⟨h, fun w heq => absurd heq (hopen w), fun name heq => absurd heq (hclean name)⟩

/-- One process stops behind the header; another one saves over what it left, and the file is
evicted while it is loaded. -/
def stoppedThenSaved : List (CacheDirEvent Bool Unit) :=
  [.save true (.open true), .save true (.write 128), .stop true, .save false (.open true),
    .save false (.write 128), .save false (.write 4), .save false (.write 1),
    .save false (.fsync true), .save false (.rename true), .load () (.open true),
    .load () (.read 128), .evict "kv/chat.bin", .load () (.fstat true), .load () (.read 4),
    .load () (.read 1)]

/-- The tokens that the load has got. -/
def CacheDirState.got (s : CacheDirState Bool Unit) : Option (List UInt32) :=
  match s.loader () with
  | .loaded kv => some kv.tokens
  | _ => none

end JLLM
