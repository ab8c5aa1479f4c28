import Mathlib.Algebra.BigOperators.Group.List.Basic
import Mathlib.Algebra.Order.Ring.Int
import Mathlib.Data.List.Nodup
import Mathlib.Data.List.Sort
import ReflexLlm.Spec.CacheBudget

/-! What `enforce_kv_cache_budget` unlinks: the oldest files first, never the one to keep,
and no more than the budget asks for. -/

namespace JLLM

/-- Bytes of some files. -/
def totalSize (entries : List CacheEntry) : ℕ := (entries.map CacheEntry.sizeBytes).sum

/-- The files that some calls have removed. -/
def unlinked (calls : List (CacheEntry × Bool)) : List CacheEntry :=
  (calls.filter Prod.snd).map Prod.fst

/-- The files that are left after some calls. -/
def surviving (entries : List CacheEntry) (calls : List (CacheEntry × Bool)) : List CacheEntry :=
  entries.filter (· ∉ unlinked calls)

/-- What the calls of `unlink` are to be. -/
structure EnforcesBudget (entries : List CacheEntry) (maxBytes : ℤ) (keepPath : String)
    (calls : List (CacheEntry × Bool)) : Prop where
  listed : ∀ call ∈ calls, call.1 ∈ entries
  keeps : ∀ call ∈ calls, call.1.path ≠ keepPath
  oldest : ∀ before call after, calls = before ++ call :: after → ∀ e ∈ entries,
    e.path ≠ keepPath → e.mtime < call.1.mtime → (e, true) ∈ before ∨ (e, false) ∈ before
  bounded : (totalSize (surviving entries calls) : ℤ) ≤ maxBytes ∨
    ∀ e ∈ surviving entries calls, e.path = keepPath ∨ (e, false) ∈ calls
  minimal : ∀ before e after, calls = before ++ (e, true) :: after →
    maxBytes < totalSize (surviving entries before)

section

variable {maxBytes : ℤ} {keepPath : String} {unlinkOk : String → Bool}

/-! ### The loop -/

theorem unlinked_cons (call : CacheEntry × Bool) (calls : List (CacheEntry × Bool)) :
    unlinked (call :: calls) = if call.2 then call.1 :: unlinked calls else unlinked calls := by
  unfold unlinked
  cases hcall : call.2 <;> simp [hcall]

variable (maxBytes keepPath unlinkOk) in
theorem evictLoop_sublist (total : ℤ) (entries : List CacheEntry) :
    ((evictLoop maxBytes keepPath unlinkOk total entries).map Prod.fst).Sublist entries := by
  induction entries generalizing total with
  | nil => exact .slnil
  | cons e rest ih =>
    unfold evictLoop
    split_ifs with hfits hkeep hok
    · exact List.nil_sublist _
    · exact (ih total).cons e
    · exact (ih _).cons_cons e
    · exact (ih total).cons_cons e

theorem evictLoop_keeps (total : ℤ) (entries : List CacheEntry) :
    ∀ call ∈ evictLoop maxBytes keepPath unlinkOk total entries, call.1.path ≠ keepPath := by
  induction entries generalizing total with
  | nil => simp [evictLoop]
  | cons e rest ih =>
    unfold evictLoop
    split_ifs with hfits hkeep hok
    · simp
    · exact ih total
    · exact List.forall_mem_cons.mpr ⟨hkeep, ih _⟩
    · exact List.forall_mem_cons.mpr ⟨hkeep, ih total⟩

/-- In front of a call come the calls for all older files. -/
theorem evictLoop_oldest (total : ℤ) {entries : List CacheEntry}
    (hsorted : entries.Pairwise fun a b => a.mtime ≤ b.mtime)
    {before after : List (CacheEntry × Bool)} {call : CacheEntry × Bool}
    (h : evictLoop maxBytes keepPath unlinkOk total entries = before ++ call :: after)
    {e : CacheEntry} (he : e ∈ entries) (hkeep : e.path ≠ keepPath)
    (holder : e.mtime < call.1.mtime) : (e, true) ∈ before ∨ (e, false) ∈ before := by
  induction entries generalizing total before with
  | nil => cases he
  | cons x rest ih =>
    rw [List.pairwise_cons] at hsorted
    unfold evictLoop at h
    split_ifs at h with hfits hx hok
    · simp at h
    · rcases List.mem_cons.mp he with rfl | he
      · exact absurd hx hkeep
      · exact ih _ hsorted.2 h he
    all_goals
      cases before with
      | nil =>
        -- the call is the one for `x`, and nothing listed is older
        obtain ⟨rfl, -⟩ := List.cons.inj h
        rcases List.mem_cons.mp he with rfl | he
        · exact absurd holder (lt_irrefl _)
        · exact absurd holder (not_lt.mpr (hsorted.1 e he))
      | cons first before =>
        obtain ⟨rfl, hrest⟩ := List.cons.inj h
        rcases List.mem_cons.mp he with rfl | he
        · simp
        · rcases ih _ hsorted.2 hrest he with hmem | hmem
          · exact .inl (List.mem_cons_of_mem _ hmem)
          · exact .inr (List.mem_cons_of_mem _ hmem)

/-- At each call that succeeds there was too much. -/
theorem evictLoop_minimal (total : ℤ) {entries : List CacheEntry}
    {before after : List (CacheEntry × Bool)} {e : CacheEntry}
    (h : evictLoop maxBytes keepPath unlinkOk total entries = before ++ (e, true) :: after) :
    maxBytes < total - totalSize (unlinked before) := by
  induction entries generalizing total before with
  | nil => simp [evictLoop] at h
  | cons x rest ih =>
    unfold evictLoop at h
    split_ifs at h with hfits hx hok
    · simp at h
    · exact ih _ h
    all_goals
      cases before with
      | nil =>
        simp only [unlinked, totalSize, List.filter_nil, List.map_nil, List.sum_nil,
          Nat.cast_zero, sub_zero]
        exact not_le.mp hfits
      | cons first before =>
        obtain ⟨rfl, hrest⟩ := List.cons.inj h
        have hle := ih _ hrest
        rw [unlinked_cons]
        simp only [Bool.false_eq_true, if_false, if_true]
        first
          | exact hle
          | (simp only [totalSize, List.map_cons, List.sum_cons, Nat.cast_add] at hle ⊢; omega)

variable (maxBytes keepPath unlinkOk) in
/-- At the end little enough is left, or there was a call for every file. -/
theorem evictLoop_bounded (total : ℤ) (entries : List CacheEntry) :
    total - totalSize (unlinked (evictLoop maxBytes keepPath unlinkOk total entries)) ≤ maxBytes ∨
      ∀ e ∈ entries, e.path = keepPath ∨
        (e, true) ∈ evictLoop maxBytes keepPath unlinkOk total entries ∨
          (e, false) ∈ evictLoop maxBytes keepPath unlinkOk total entries := by
  induction entries generalizing total with
  | nil => exact .inr (by simp)
  | cons x rest ih =>
    have hcalled {calls : List (CacheEntry × Bool)} (ok : Bool)
        (hall : ∀ e ∈ rest, e.path = keepPath ∨ (e, true) ∈ calls ∨ (e, false) ∈ calls) :
        ∀ e ∈ x :: rest, e.path = keepPath ∨
          (e, true) ∈ (x, ok) :: calls ∨ (e, false) ∈ (x, ok) :: calls := by
      refine List.forall_mem_cons.mpr ⟨by cases ok <;> simp, fun e he => ?_⟩
      rcases hall e he with hkeep | hmem | hmem
      · exact .inl hkeep
      · exact .inr (.inl (List.mem_cons_of_mem _ hmem))
      · exact .inr (.inr (List.mem_cons_of_mem _ hmem))
    unfold evictLoop
    split_ifs with hfits hx hok
    · exact .inl (by simpa [unlinked, totalSize] using hfits)
    · refine (ih total).imp_right fun hall => ?_
      exact List.forall_mem_cons.mpr ⟨.inl hx, hall⟩
    · rcases ih (total - x.sizeBytes) with hle | hall
      · left
        rw [unlinked_cons]
        simp only [if_true, totalSize, List.map_cons, List.sum_cons, Nat.cast_add] at hle ⊢
        omega
      · exact .inr (hcalled true hall)
    · rcases ih total with hle | hall
      · left
        rwa [unlinked_cons, if_neg (by simp)]
      · exact .inr (hcalled false hall)

/-! ### Totals -/

theorem totalSize_perm {xs ys : List CacheEntry} (h : xs.Perm ys) : totalSize xs = totalSize ys :=
  (h.map CacheEntry.sizeBytes).sum_eq

/-- What is left and what is gone. -/
theorem totalSize_surviving {entries : List CacheEntry} {calls : List (CacheEntry × Bool)}
    (hentries : entries.Nodup) (hcalls : (calls.map Prod.fst).Nodup)
    (hlisted : ∀ call ∈ calls, call.1 ∈ entries) :
    totalSize (surviving entries calls) + totalSize (unlinked calls) = totalSize entries := by
  have hsub : (unlinked calls).Sublist (calls.map Prod.fst) := List.filter_sublist.map _
  have hgone : (entries.filter (· ∈ unlinked calls)).Perm (unlinked calls) := by
    refine (List.perm_ext_iff_of_nodup (hentries.filter _) (hcalls.sublist hsub)).mpr fun e => ?_
    rw [List.mem_filter, decide_eq_true_eq]
    refine ⟨And.right, fun he => ⟨?_, he⟩⟩
    obtain ⟨call, hcall, rfl⟩ := List.mem_map.mp (hsub.subset he)
    exact hlisted call hcall
  have hsplit := totalSize_perm (List.filter_append_perm (· ∈ unlinked calls) entries)
  rw [totalSize, List.map_append, List.sum_append] at hsplit
  rw [← totalSize_perm hgone, ← hsplit, Nat.add_comm]
  simp only [surviving, totalSize, decide_not]

theorem addSizes_eq {n : ℕ} (hn : n < 0x8000000000000000) (entries : List CacheEntry) :
    addSizes n entries = if n + totalSize entries < 0x8000000000000000 then
      some (n + totalSize entries) else none := by
  induction entries generalizing n with
  | nil =>
    unfold addSizes totalSize
    simp [hn]
  | cons e rest ih =>
    have hsum : n + totalSize (e :: rest) = n + e.sizeBytes + totalSize rest := by
      simp [totalSize, Nat.add_assoc]
    unfold addSizes
    rw [hsum]
    split_ifs with hfits hall hall
    · rw [ih hfits, if_pos hall]
    · rw [ih hfits, if_neg hall]
    · omega
    · rfl

theorem join_injective (dir : Directory) : Function.Injective dir.join := by
  intro name name' h
  unfold Directory.join at h
  split_ifs at h
  · simpa using h
  · simpa using h

/-- The files of a directory are distinct. -/
theorem listKvFiles_nodup (dir : Directory) (suffix : String) : (listKvFiles dir suffix).Nodup := by
  have hpath : ∀ (de : DirEntry) (e : CacheEntry), de.cacheEntry dir suffix = some e →
      e.path = dir.join de.name := by
    intro de e h
    unfold DirEntry.cacheEntry at h
    split_ifs at h
    obtain ⟨st, -, rfl⟩ := Option.map_eq_some_iff.mp h
    rfl
  have hnames := List.pairwise_map.mp dir.nodup
  refine List.pairwise_filterMap.mpr (hnames.imp fun {de de'} hne e he e' he' heq => hne ?_)
  refine join_injective dir ?_
  rw [← hpath de e he, ← hpath de' e' he', heq]

/-! ### The budget -/

theorem enforcesBudget_nil {entries : List CacheEntry} (h : (totalSize entries : ℤ) ≤ maxBytes) :
    EnforcesBudget entries maxBytes keepPath [] where
  listed := by simp
  keeps := by simp
  oldest := by simp
  bounded := .inl (by simpa [surviving, unlinked] using h)
  minimal := by simp

/-- The loop over the files in their order. -/
theorem enforcesBudget_evictLoop {entries sorted : List CacheEntry} (hperm : sorted.Perm entries)
    (hsorted : sorted.Pairwise fun a b => a.mtime ≤ b.mtime) (hnodup : entries.Nodup) :
    EnforcesBudget entries maxBytes keepPath
      (evictLoop maxBytes keepPath unlinkOk (totalSize entries) sorted) := by
  have hsub := evictLoop_sublist maxBytes keepPath unlinkOk (totalSize entries) sorted
  have hlisted : ∀ call ∈ evictLoop maxBytes keepPath unlinkOk (totalSize entries) sorted,
      call.1 ∈ entries := fun call hcall =>
    hperm.subset (hsub.subset (List.mem_map_of_mem hcall))
  have hcalls := (hperm.nodup_iff.mpr hnodup).sublist hsub
  refine ⟨hlisted, evictLoop_keeps _ _, ?_, ?_, ?_⟩
  · intro before call after h e he hkeep holder
    exact evictLoop_oldest _ hsorted h (hperm.mem_iff.mpr he) hkeep holder
  · have htotal := totalSize_surviving hnodup hcalls hlisted
    rcases evictLoop_bounded maxBytes keepPath unlinkOk (totalSize entries) sorted with hle | hall
    · exact .inl (by omega)
    · refine .inr fun e he => ?_
      obtain ⟨hentry, hleft⟩ := List.mem_filter.mp he
      rcases hall e (hperm.mem_iff.mpr hentry) with hkeep | hgone | hfailed
      · exact .inl hkeep
      · have hmem : e ∈ unlinked (evictLoop maxBytes keepPath unlinkOk (totalSize entries) sorted) :=
          List.mem_map.mpr ⟨(e, true), List.mem_filter.mpr ⟨hgone, rfl⟩, rfl⟩
        exact absurd hmem (of_decide_eq_true hleft)
      · exact .inr hfailed
  · intro before e after h
    have hle := evictLoop_minimal _ h
    rw [h] at hcalls hlisted
    rw [List.map_append] at hcalls
    have htotal := totalSize_surviving hnodup (List.nodup_append.mp hcalls).1
      fun call hcall => hlisted call (List.mem_append_left _ hcall)
    omega

end

/-- Sorting by insertion. -/
def stableOrder : OldestFirst where
  sort := List.insertionSort fun a b => a.mtime ≤ b.mtime
  perm := List.perm_insertionSort _
  sorted := List.pairwise_insertionSort _

def sizedFile (name : String) (mtime : ℤ) (size : ℕ) (h : size < 0x8000000000000000) : DirEntry where
  name := name
  isRegularFile := true
  stat := some (mtime, size)
  size_lt := by
    intro time bytes hstat
    obtain ⟨-, rfl⟩ := Prod.mk.inj (Option.some.inj hstat)
    exact h

/-- Two files of one size. -/
def twoFiles (size : ℕ) (h : size < 0x8000000000000000) : Directory where
  path := "cache"
  entries := [sizedFile "a.bin" 2 size h, sizedFile "b.bin" 1 size h]
  nodup := by simp [sizedFile]

end JLLM
