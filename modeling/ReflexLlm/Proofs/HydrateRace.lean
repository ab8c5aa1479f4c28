import ReflexLlm.Proofs.Hydrate
import ReflexLlm.Spec.HydrateRace

/-! Hydration under concurrent replacement of the cache file. The load repeats
the size and token-count checks but not the fingerprint and shape checks, so the
scattered version is compatible when no incompatible one slips in between the
two opens. -/

namespace JLLM

open ByteMem KVCacheFileHeader Runs

/-- What the second open lets through: a file whose size adds up, whose body fits
the staging buffer, with as many tokens as peeked and the prompt's first token. -/
structure LoadAdmits (hdr : KVCacheFileHeader) (promptTokens : List UInt32) (f : List UInt8) :
    Prop where
  file : FileAccepted f
  fits : (decode f).bodyBytes.toNat ≤ hdr.bodyBytes.toNat
  used : (decode f).usedTokens = hdr.usedTokens
  first : commonPrefix (tokensOf f) promptTokens ≠ 0

/-- A match was made against one version, laid out by that version's token count. -/
structure MatchedFrom (io : HydrateIo) (p : KVCachePool) (promptTokens : List UInt32)
    (hdr : KVCacheFileHeader) (f : List UInt8) (matched : ℕ) (q : KVCachePool) : Prop where
  admitted : LoadAdmits hdr promptTokens f
  tokens : matched = commonPrefix (tokensOf f) promptTokens
  body : ∃ compact, compactBody p.cfg (decode f).usedTokens.toNat matched hdr.bodyBytes.toNat
      (ofBytes (bodyOf f)) = some compact ∧
    p.scatterFromHost io.cuda compact matched true = (true, q)

/-- The load half returns a match only from a version it admits. -/
theorem hydrateLoad_matched {io : HydrateIo} {p : KVCachePool} {promptTokens : List UInt32}
    {hdr : KVCacheFileHeader} {file : Option (List UInt8)} {matched : ℕ} {q : KVCachePool}
    (h : hydrateLoad io p promptTokens hdr file = .returned matched q) (hm : 0 < matched) :
    ∃ f, file = some f ∧ MatchedFrom io p promptTokens hdr f matched q := by
  unfold hydrateLoad at h
  split_ifs at h with hmax
  split at h
  · obtain ⟨rfl, -⟩ := HydrateResult.returned.inj h
    omega
  · rename_i kv hload
    obtain ⟨f, rfl, hf, hcap, rfl⟩ := loadKvFromFile_eq_some hload
    have hlen : (tokensOf f).length = hdr.usedTokens.toNat := by
      by_contra hne
      simp only [hne, ne_eq, not_false_eq_true, if_true] at h
      obtain ⟨rfl, -⟩ := HydrateResult.returned.inj h
      omega
    have hused : (decode f).usedTokens = hdr.usedTokens :=
      UInt32.toNat.inj (tokensOf_length.symm.trans hlen)
    simp only [hlen, ne_eq, not_true_eq_false, if_false, ← hused] at h
    by_cases hz : commonPrefix (tokensOf f) promptTokens = 0
    · rw [if_pos hz] at h
      obtain ⟨rfl, -⟩ := HydrateResult.returned.inj h
      omega
    · rw [if_neg hz] at h
      cases hcompact : compactBody p.cfg (decode f).usedTokens.toNat
          (commonPrefix (tokensOf f) promptTokens) hdr.bodyBytes.toNat (ofBytes (bodyOf f)) with
      | none => simp [hcompact] at h
      | some compact =>
        simp only [hcompact] at h
        split_ifs at h with hscatter
        · obtain ⟨rfl, -⟩ := HydrateResult.returned.inj h
          omega
        · obtain ⟨rfl, rfl⟩ := HydrateResult.returned.inj h
          exact ⟨f, rfl, ⟨hf, hcap, hused, hz⟩, rfl, compact, hcompact,
            Prod.ext (by simpa using hscatter) rfl⟩

/-- A call that has ended with a match made it against a version whose own header
is the loaded model's and the pool's. -/
def UsesCompatibleVersion (io : HydrateIo) (fingerprint : Vector UInt8 32) (p : KVCachePool)
    (promptTokens : List UInt32) (s : RaceState) : Prop :=
  ∀ hdr version matched q, s.phase = .loaded hdr version (.returned matched q) → 0 < matched →
    ∃ f, version = some f ∧ compatibleHeader (decode f) fingerprint p.cfg = true ∧
      MatchedFrom io p promptTokens hdr f matched q

/-- Between the two opens, only compatible versions that the load would admit
are renamed over the path. -/
def HarmlessRaceStep (io : HydrateIo) (fingerprint : Vector UInt8 32) (p : KVCachePool)
    (promptTokens : List UInt32) (s : RaceState) (e : RaceEvent) (s' : RaceState) : Prop :=
  RaceStep io fingerprint p promptTokens s e s' ∧
    ∀ hdr f, s.phase = .peeked hdr → e = .rename f → LoadAdmits hdr promptTokens f →
      compatibleHeader (decode f) fingerprint p.cfg = true

section

variable {io : HydrateIo} {fingerprint : Vector UInt8 32} {p : KVCachePool}
  {promptTokens : List UInt32}

/-- After the peek, the version at the path is compatible if the load admits it. -/
structure RaceInv (io : HydrateIo) (fingerprint : Vector UInt8 32) (p : KVCachePool)
    (promptTokens : List UInt32) (s : RaceState) : Prop where
  pending : ∀ hdr f, s.phase = .peeked hdr → s.path = some f → LoadAdmits hdr promptTokens f →
    compatibleHeader (decode f) fingerprint p.cfg = true
  ended : UsesCompatibleVersion io fingerprint p promptTokens s

theorem raceInv_step (s : RaceState) (e : RaceEvent) (s' : RaceState)
    (hs : RaceInv io fingerprint p promptTokens s)
    (hstep : HarmlessRaceStep io fingerprint p promptTokens s e s') :
    RaceInv io fingerprint p promptTokens s' := by
  obtain ⟨path, phase⟩ := s
  obtain ⟨hstep, hharmless⟩ := hstep
  cases e with
  | rename version =>
    obtain rfl := Option.some.inj hstep
    refine ⟨fun hdr f hphase hpath => ?_, hs.ended⟩
    obtain rfl := Option.some.inj hpath
    exact hharmless hdr version hphase rfl
  | unlink =>
    obtain rfl := Option.some.inj hstep
    exact ⟨fun _ _ _ hpath => absurd hpath (by simp), hs.ended⟩
  | openForPeek =>
    cases phase with
    | start =>
      obtain rfl := Option.some.inj hstep
      cases hpeek : hydratePeek io.peek p fingerprint path with
      | none => exact ⟨by simp, by simp [UsesCompatibleVersion]⟩
      | some hdr =>
        -- the peek itself checked the version it saw
        obtain ⟨f, rfl, hf, rfl⟩ := hydratePeek_eq_some hpeek
        refine ⟨fun hdr g _ hpath _ => ?_, by simp [UsesCompatibleVersion]⟩
        obtain rfl := Option.some.inj hpath
        exact hf.compatible
    | peeked hdr => simp [RaceStep, raceStep] at hstep
    | cold => simp [RaceStep, raceStep] at hstep
    | loaded hdr version result => simp [RaceStep, raceStep] at hstep
  | openForLoad =>
    cases phase with
    | peeked hdr =>
      obtain rfl := Option.some.inj hstep
      refine ⟨by simp, fun hdr' version matched q hphase hm => ?_⟩
      obtain ⟨rfl, rfl, hresult⟩ := HydratePhase.loaded.inj hphase
      obtain ⟨f, rfl, hmatch⟩ := hydrateLoad_matched hresult hm
      exact ⟨f, rfl, hs.pending hdr f rfl rfl hmatch.admitted, hmatch⟩
    | start => simp [RaceStep, raceStep] at hstep
    | cold => simp [RaceStep, raceStep] at hstep
    | loaded hdr version result => simp [RaceStep, raceStep] at hstep

end

/-- In every run in which no incompatible version that the load would admit is
renamed over the path between the two opens, a match is made against one version
whose own header passes the checks, with that version's token count. -/
theorem hydrate_uses_compatible_version (io : HydrateIo) (fingerprint : Vector UInt8 32)
    (p : KVCachePool) (promptTokens : List UInt32) (path : Option (List UInt8))
    (es : List RaceEvent) (s : RaceState)
    (hrun : Run (HarmlessRaceStep io fingerprint p promptTokens) ⟨path, .start⟩ es s) :
    UsesCompatibleVersion io fingerprint p promptTokens s :=
  (hrun.invariant raceInv_step ⟨by simp, by simp [UsesCompatibleVersion]⟩).ended

/-- A turn of three tokens saved by the model with the given fingerprint. -/
def savedBy (fingerprint : Vector UInt8 32) : List UInt8 :=
  turnImage smallOverflowPool fingerprint [7, 8, 9]

theorem savedBy_accepted (fingerprint : Vector UInt8 32) :
    HeaderAccepted smallOverflowPool.cfg fingerprint (savedBy fingerprint) :=
  turnImage_accepted fingerprint (by decide) (by decide)

theorem raceStep_peek (fingerprint : Vector UInt8 32) :
    raceStep wholeHydrate fingerprint smallOverflowPool [7, 8, 5]
        ⟨some (savedBy fingerprint), .start⟩ .openForPeek =
      some ⟨some (savedBy fingerprint), .peeked (decode (savedBy fingerprint))⟩ := by
  have hpeek : hydratePeek wholeHydrate.peek smallOverflowPool fingerprint
      (some (savedBy fingerprint)) = some (decode (savedBy fingerprint)) :=
    hydratePeek_ok wholeHydrate_noFailure.peek (savedBy_accepted fingerprint)
  simp only [raceStep, hpeek]

/-- The end of a call that peeked at one saved turn and loaded another. -/
def loadedState (mine version : Vector UInt8 32) : RaceState :=
  ⟨some (savedBy version), .loaded (decode (savedBy mine)) (some (savedBy version))
    (hydrateLoad wholeHydrate smallOverflowPool [7, 8, 5] (decode (savedBy mine))
      (some (savedBy version)))⟩

/-- The same turn saved again between the two opens. -/
theorem hydrate_uses_compatible_version_resaved :
    UsesCompatibleVersion wholeHydrate (Vector.replicate 32 0) smallOverflowPool [7, 8, 5]
      (loadedState (Vector.replicate 32 0) (Vector.replicate 32 0)) := by
  refine hydrate_uses_compatible_version wholeHydrate _ _ _
    (some (savedBy (Vector.replicate 32 0)))
    [.openForPeek, .rename (savedBy (Vector.replicate 32 0)), .openForLoad] _ ?_
  refine .cons ⟨raceStep_peek _, by simp⟩ (.cons ⟨rfl, ?_⟩ (.cons ⟨rfl, by simp⟩ (.nil _)))
  intro hdr f _ he _
  obtain rfl := RaceEvent.rename.inj he
  exact (savedBy_accepted _).compatible

theorem savedBy_decode (fingerprint : Vector UInt8 32) :
    decode (savedBy fingerprint) = turnHeader smallOverflowPool fingerprint 3 :=
  turnImage_decode _ _ _

/-- The load half looks at the token count and the body size of the peeked header. -/
theorem hydrateLoad_congr (io : HydrateIo) (p : KVCachePool) (promptTokens : List UInt32)
    {hdr hdr' : KVCacheFileHeader} (hused : hdr.usedTokens = hdr'.usedTokens)
    (hbody : hdr.bodyBytes = hdr'.bodyBytes) (file : Option (List UInt8)) :
    hydrateLoad io p promptTokens hdr file = hydrateLoad io p promptTokens hdr' file := by
  simp only [hydrateLoad, hused, hbody]

theorem hydrateLoad_savedBy (mine version : Vector UInt8 32) :
    ∃ q, hydrateLoad wholeHydrate smallOverflowPool [7, 8, 5] (decode (savedBy mine))
      (some (savedBy version)) = .returned 2 q := by
  have htokens : commonPrefix (tokensOf (savedBy version)) [7, 8, 5] = 2 := by
    rw [savedBy, turnImage_tokensOf version (by decide)]
    decide
  have hload := hydrateLoad_packed wholeHydrate_noFailure (savedBy_accepted version)
    (turnImage_bodyPacked version (by decide) (by decide)) [7, 8, 5]
  have hused : (decode (savedBy mine)).usedTokens = (decode (savedBy version)).usedTokens := by
    simp only [savedBy_decode, turnHeader]
  have hbody : (decode (savedBy mine)).bodyBytes = (decode (savedBy version)).bodyBytes := by
    simp only [savedBy_decode, turnHeader]
  rw [hydrateLoad_congr _ _ _ hused hbody, hload, htokens]
  exact ⟨_, rfl⟩

/-- A turn saved by another model between the two opens is scattered. -/
theorem hydrate_scatters_foreign_version :
    ¬ ∀ (io : HydrateIo) (fingerprint : Vector UInt8 32) (p : KVCachePool)
      (promptTokens : List UInt32) (path : Option (List UInt8)) (es : List RaceEvent)
      (s : RaceState), io.NoFailure →
      Run (RaceStep io fingerprint p promptTokens) ⟨path, .start⟩ es s →
      UsesCompatibleVersion io fingerprint p promptTokens s := by
  intro h
  have hrun : Run (RaceStep wholeHydrate (Vector.replicate 32 0) smallOverflowPool [7, 8, 5])
      ⟨some (savedBy (Vector.replicate 32 0)), .start⟩
      [.openForPeek, .rename (savedBy (Vector.replicate 32 1)), .openForLoad]
      (loadedState (Vector.replicate 32 0) (Vector.replicate 32 1)) :=
    .cons (raceStep_peek _) (.cons rfl (.cons rfl (.nil _)))
  obtain ⟨q, hload⟩ := hydrateLoad_savedBy (Vector.replicate 32 0) (Vector.replicate 32 1)
  have hphase : (loadedState (Vector.replicate 32 0) (Vector.replicate 32 1)).phase =
      .loaded _ _ (.returned 2 q) := congrArg (HydratePhase.loaded _ _) hload
  obtain ⟨f, hversion, hcompat, -⟩ :=
    h _ _ _ _ _ _ _ wholeHydrate_noFailure hrun _ _ 2 q hphase (by decide)
  obtain rfl := Option.some.inj hversion
  rw [savedBy_decode] at hcompat
  exact absurd hcompat (by decide)

end JLLM
