import ReflexLlm.Proofs.CacheFile
import ReflexLlm.Proofs.PackedBody

/-! Hydration. A file that passes every check of the peek and whose body has the
packed size is loaded, matched and scattered; a saved turn is such a file, so its
matched prefix comes back row for row. An accepted header with any other body
size is what the checks miss. -/

namespace JLLM

open ByteMem KVCacheFileHeader

/-! ### The longest common prefix -/

/-- `m` is the length of the longest common prefix. -/
structure IsLongestCommonPrefix {α : Type} (xs ys : List α) (m : ℕ) : Prop where
  left : m ≤ xs.length
  right : m ≤ ys.length
  same : xs.take m = ys.take m
  longest : ∀ k, k ≤ xs.length → k ≤ ys.length → xs.take k = ys.take k → k ≤ m

theorem commonPrefix_isLongest (xs ys : List UInt32) :
    IsLongestCommonPrefix xs ys (commonPrefix xs ys) := by
  induction xs generalizing ys with
  | nil => exact ⟨le_rfl, Nat.zero_le _, by simp [commonPrefix], fun k hk _ _ => hk⟩
  | cons x xs ih =>
    cases ys with
    | nil => exact ⟨Nat.zero_le _, le_rfl, by simp [commonPrefix], fun k _ hk _ => hk⟩
    | cons y ys =>
      obtain ⟨hleft, hright, hsame, hlongest⟩ := ih ys
      simp only [commonPrefix]
      by_cases h : x = y
      · subst h
        rw [if_pos rfl]
        refine ⟨by simpa using hleft, by simpa using hright, by simpa using hsame, ?_⟩
        intro k hk hk' htake
        cases k with
        | zero => exact Nat.zero_le _
        | succ k =>
          have := hlongest k (by simpa using hk) (by simpa using hk') (by simpa using htake)
          omega
      · rw [if_neg h]
        refine ⟨Nat.zero_le _, Nat.zero_le _, rfl, ?_⟩
        intro k _ _ htake
        cases k with
        | zero => exact le_rfl
        | succ k => exact absurd (List.cons.inj htake).1 h

theorem IsLongestCommonPrefix.eq_commonPrefix {xs ys : List UInt32} {m : ℕ}
    (h : IsLongestCommonPrefix xs ys m) : m = commonPrefix xs ys := by
  have h' := commonPrefix_isLongest xs ys
  exact Nat.le_antisymm (h'.longest m h.left h.right h.same)
    (h.longest _ h'.left h'.right h'.same)

/-- The match is empty exactly when the first tokens differ. -/
theorem commonPrefix_eq_zero {xs ys : List UInt32} (hx : xs ≠ []) (hy : ys ≠ []) :
    commonPrefix xs ys = 0 ↔ xs.head? ≠ ys.head? := by
  cases xs with
  | nil => exact absurd rfl hx
  | cons x xs =>
    cases ys with
    | nil => exact absurd rfl hy
    | cons y ys => by_cases h : x = y <;> simp [commonPrefix, h]

/-! ### Accepted files -/

/-- The file passes the peek, the compatibility checks and the token bound. -/
structure HeaderAccepted (c : Config) (fingerprint : Vector UInt8 32) (f : List UInt8) : Prop where
  file : FileAccepted f
  compatible : compatibleHeader (decode f) fingerprint c = true
  nonempty : (decode f).usedTokens ≠ 0
  fits : (decode f).usedTokens.toNat ≤ c.maxContext

/-- The body has the size of the packed rows of its tokens. -/
def BodyPacked (c : Config) (f : List UInt8) : Prop :=
  (decode f).bodyBytes.toNat = c.nLayers * (decode f).usedTokens.toNat * c.entryBytes

section

variable {p : KVCachePool} {fingerprint : Vector UInt8 32} {f : List UInt8}

theorem hydratePeek_eq_some {io : ReadIo} {file : Option (List UInt8)} {hdr : KVCacheFileHeader}
    (h : hydratePeek io p fingerprint file = some hdr) :
    ∃ f, file = some f ∧ HeaderAccepted p.cfg fingerprint f ∧ hdr = decode f := by
  unfold hydratePeek at h
  split at h
  · simp at h
  · rename_i hdr' hpeek
    split_ifs at h with h₁ h₂
    obtain ⟨f, rfl, hf, rfl⟩ := peekKvHeader_eq_some hpeek
    simp only [Option.some.injEq] at h
    exact ⟨f, rfl, ⟨hf, by simpa using h₁, fun h₀ => h₂ (Or.inl h₀),
      Nat.not_lt.mp fun hlt => h₂ (Or.inr hlt)⟩, h.symm⟩

@[simp] theorem hydratePeek_none (io : ReadIo) (p : KVCachePool) (fingerprint : Vector UInt8 32) :
    hydratePeek io p fingerprint none = none := rfl

theorem hydratePeek_ok {io : ReadIo} (hio : io.NoFailure) (hf : HeaderAccepted p.cfg fingerprint f) :
    hydratePeek io p fingerprint (some f) = some (decode f) := by
  simp only [hydratePeek, peekKvHeader_ok hio hf.file, hf.compatible]
  rw [if_neg (by simp), if_neg]
  rintro (h | h)
  · exact hf.nonempty h
  · exact absurd hf.fits (by omega)

theorem HeaderAccepted.used_pos (hf : HeaderAccepted p.cfg fingerprint f) :
    0 < (decode f).usedTokens.toNat := by
  rcases Nat.eq_zero_or_pos (decode f).usedTokens.toNat with h | h
  · exact absurd (UInt32.toNat.inj (h.trans UInt32.toNat_zero.symm)) hf.nonempty
  · exact h

/-- Packed rows of tokens that fit the pool are smaller than the pool. -/
theorem packed_lt (p : KVCachePool) {used : ℕ} (h : used ≤ p.cfg.maxContext) :
    p.cfg.nLayers * used * p.cfg.entryBytes < 2 ^ 63 := by
  refine Nat.lt_of_le_of_lt ?_ p.gpu_fits
  rw [Config.gpuPoolBytes, Nat.mul_right_comm]
  exact Nat.mul_le_mul_left _ h

/-- Below `vector::max_size` the size sum of the readers does not wrap. -/
theorem expectedSize_eq {h : KVCacheFileHeader} (hb : h.bodyBytes.toNat ≤ vectorMaxSize) :
    h.expectedSize = size + h.tokensBytes + h.bodyBytes.toNat := by
  have := tokensBytes_lt h
  rw [vectorMaxSize] at hb
  rw [expectedSize, Nat.mod_eq_of_lt]
  simp only [size]
  omega

/-- The bytes of a row in the packed body of a file. -/
def bodyRow (c : Config) (f : List UInt8) (layer half pos : ℕ) : List UInt8 :=
  (ofBytes (bodyOf f)).read (rowOffset (decode f).usedTokens.toNat c.rowBytes layer half pos)
    c.rowBytes

/-- The pool after the first `matched` rows of a packed body are scattered. -/
def scattered (p : KVCachePool) (f : List UInt8) (matched : ℕ) : KVCachePool :=
  { p with
    gpuPool := (List.range p.cfg.nLayers).foldl (KVCachePool.scatterStep p.cfg
      ((List.range p.cfg.nLayers).foldl
        (copyLayer p.cfg.rowBytes matched (decode f).usedTokens.toNat matched (ofBytes (bodyOf f)))
        fun _ => 0) matched true) p.gpuPool
    usedTokens := matched
    gpuTokens := matched }

/-- The rows of a scattered pool: the matched ones from the body, then zeros. -/
theorem scattered_row {matched l half pos : ℕ} (hm : matched ≤ (decode f).usedTokens.toNat)
    (hu : (decode f).usedTokens.toNat ≤ p.cfg.maxContext) (hl : l < p.cfg.nLayers)
    (hhalf : half < 2) (hpos : pos < p.cfg.maxContext) :
    (scattered p f matched).row l half pos =
      if pos < matched then bodyRow p.cfg f l half pos else List.replicate p.cfg.rowBytes 0 := by
  rw [(scattered p f matched).row_fast hhalf hpos]
  have hbyte (b : ℕ) (hb : b < p.cfg.rowBytes) :=
    scattered_byte p.cfg (ofBytes (bodyOf f)) p.gpuPool hm hu hl hhalf hpos hb
  split_ifs with hpm
  · apply read_congr
    intro b hb
    exact (hbyte b hb).trans (if_pos hpm)
  · rw [List.eq_replicate_iff]
    refine ⟨read_length _ _ _, ?_⟩
    intro x hx
    obtain ⟨b, hb, rfl⟩ := List.mem_map.mp hx
    exact (hbyte b (List.mem_range.mp hb)).trans (if_neg hpm)

theorem tokensOf_length : (tokensOf f).length = (decode f).usedTokens.toNat := by simp [tokensOf]

theorem match_le_used (f : List UInt8) (promptTokens : List UInt32) :
    commonPrefix (tokensOf f) promptTokens ≤ (decode f).usedTokens.toNat :=
  tokensOf_length (f := f) ▸ (commonPrefix_isLongest (tokensOf f) promptTokens).left

/-- Scattering the compacted rows of a file whose tokens fit. -/
theorem scatter_matched (hfits : (decode f).usedTokens.toNat ≤ p.cfg.maxContext) {cuda : ℕ → Bool}
    (hcuda : ∀ i, cuda i = true) {promptTokens : List UInt32}
    (hz : commonPrefix (tokensOf f) promptTokens ≠ 0) (compact : Mem) :
    p.scatterFromHost cuda compact (commonPrefix (tokensOf f) promptTokens) true =
      (true, { p with
        gpuPool := (List.range p.cfg.nLayers).foldl (KVCachePool.scatterStep p.cfg compact
          (commonPrefix (tokensOf f) promptTokens) true) p.gpuPool
        usedTokens := commonPrefix (tokensOf f) promptTokens
        gpuTokens := commonPrefix (tokensOf f) promptTokens }) :=
  p.scatterFromHost_ok hcuda compact (Nat.pos_of_ne_zero hz)
    ((match_le_used f promptTokens).trans hfits) true

/-- The load half once the file has loaded, with as many tokens as peeked. -/
theorem hydrateLoad_loaded {io : HydrateIo} (hcuda : ∀ i, io.cuda i = true)
    {hdr : KVCacheFileHeader} (hused : (decode f).usedTokens = hdr.usedTokens)
    (hfits : (decode f).usedTokens.toNat ≤ p.cfg.maxContext)
    (hmax : hdr.bodyBytes.toNat ≤ vectorMaxSize)
    (hload : loadKvFromFile io.load (some f) true hdr.bodyBytes.toNat =
      some ⟨decode f, tokensOf f, bodyOf f⟩) (promptTokens : List UInt32) :
    hydrateLoad io p promptTokens hdr (some f) =
      let matched := commonPrefix (tokensOf f) promptTokens
      if matched = 0 then .returned 0 p
      else match compactBody p.cfg (decode f).usedTokens.toNat matched
          hdr.bodyBytes.toNat (ofBytes (bodyOf f)) with
        | none => .outOfBounds
        | some compact => .returned matched
            { p with
              gpuPool := (List.range p.cfg.nLayers).foldl
                (KVCachePool.scatterStep p.cfg compact matched true) p.gpuPool
              usedTokens := matched
              gpuTokens := matched } := by
  simp only [hydrateLoad, hload, ← hused]
  rw [if_neg (by omega), if_neg (by simp [tokensOf_length])]
  by_cases hz : commonPrefix (tokensOf f) promptTokens = 0
  · simp only [hz, if_true]
  · simp only [if_neg hz, scatter_matched hfits hcuda hz]
    generalize compactBody p.cfg _ _ _ _ = compacted
    cases compacted <;> rfl

theorem HeaderAccepted.load_ok {io : ReadIo} (hio : io.NoFailure)
    (hf : HeaderAccepted p.cfg fingerprint f) (hmax : (decode f).bodyBytes.toNat ≤ vectorMaxSize) :
    loadKvFromFile io (some f) true (decode f).bodyBytes.toNat =
      some ⟨decode f, tokensOf f, bodyOf f⟩ := by
  have htok := tokensBytes_lt (decode f)
  rw [vectorMaxSize] at hmax
  exact loadKvFromFile_ok hio hf.file (by simp only [size]; omega) true le_rfl

theorem BodyPacked.le_max (hbody : BodyPacked p.cfg f)
    (hf : HeaderAccepted p.cfg fingerprint f) : (decode f).bodyBytes.toNat ≤ vectorMaxSize := by
  have hlt := packed_lt p hf.fits
  rw [← hbody] at hlt
  rw [vectorMaxSize]
  omega

theorem BodyPacked.compact (hbody : BodyPacked p.cfg f) (promptTokens : List UInt32) :
    compactBody p.cfg (decode f).usedTokens.toNat (commonPrefix (tokensOf f) promptTokens)
        (decode f).bodyBytes.toNat (ofBytes (bodyOf f)) =
      some ((List.range p.cfg.nLayers).foldl
        (copyLayer p.cfg.rowBytes (commonPrefix (tokensOf f) promptTokens)
          (decode f).usedTokens.toNat (commonPrefix (tokensOf f) promptTokens)
          (ofBytes (bodyOf f))) fun _ => 0) := by
  rw [hbody, compactBody_packed p.cfg (match_le_used f promptTokens)]

/-- The load half on an accepted file with a packed body. -/
theorem hydrateLoad_packed {io : HydrateIo} (hio : io.NoFailure)
    (hf : HeaderAccepted p.cfg fingerprint f) (hbody : BodyPacked p.cfg f)
    (promptTokens : List UInt32) :
    hydrateLoad io p promptTokens (decode f) (some f) =
      let matched := commonPrefix (tokensOf f) promptTokens
      .returned matched (if matched = 0 then p else scattered p f matched) := by
  have hmax := hbody.le_max hf
  rw [hydrateLoad_loaded hio.cuda rfl hf.fits hmax (hf.load_ok hio.load hmax)]
  by_cases hz : commonPrefix (tokensOf f) promptTokens = 0
  · simp only [hz, if_true]
  · simp only [if_neg hz, hbody.compact]
    rfl

end

/-! ### Saved turns -/

theorem asInt_ofNat {n : ℕ} (h : n < 2 ^ 31) : asInt (UInt32.ofNat n) = n := by
  rw [asInt, UInt32.toInt32_ofNat', Int32.toInt_ofNat_of_lt h]

section

variable (p : KVCachePool) (fingerprint : Vector UInt8 32) (kvTokens : List UInt32)

/-- The packed rows of the committed tokens. -/
def packedRows : List UInt8 :=
  ((List.range p.cfg.nLayers).foldl
    (copyLayer p.cfg.rowBytes kvTokens.length p.cfg.maxContext kvTokens.length p.gpuPool)
    fun _ => 0).read 0 (p.cfg.nLayers * kvTokens.length * p.cfg.entryBytes)

/-- The file that the save at turn end writes. -/
def turnImage : List UInt8 :=
  image (turnHeader p fingerprint kvTokens.length) kvTokens (packedRows p kvTokens)

theorem turnImage_decode : decode (turnImage p fingerprint kvTokens) =
    turnHeader p fingerprint kvTokens.length := decode_image _ _ _

variable {p kvTokens}

theorem turnHeader_used (hle : kvTokens.length ≤ p.cfg.maxContext) :
    (turnHeader p fingerprint kvTokens.length).usedTokens.toNat = kvTokens.length := by
  have := p.cfg_isInt.2.2.2.1
  exact UInt32.toNat_ofNat_of_lt (by simp only [UInt32.size]; omega)

variable (hn : 0 < kvTokens.length) (hle : kvTokens.length ≤ p.cfg.maxContext)

include hn hle

theorem turnHeader_body : (turnHeader p fingerprint kvTokens.length).bodyBytes.toNat =
    p.cfg.nLayers * kvTokens.length * p.cfg.entryBytes := by
  have := packed_lt p hle
  simp only [turnHeader, KVCachePool.packedUsedBytes, if_neg hn.ne']
  exact UInt64.toNat_ofNat_of_lt (by simp only [UInt64.size]; omega)

theorem gatherAndSave_ok {cuda : ℕ → Bool} (hcuda : ∀ i, cuda i = true) {io : SaveIo}
    (hio : io.NoFailure) (fs : FileSystem) (path : String) :
    gatherAndSave cuda io fs path fingerprint p kvTokens =
      (true, (fs.set (path ++ ".tmp") none).set path (some (turnImage p fingerprint kvTokens))) := by
  have hsave := saveKvToFile_ok hio fs path (packedRows p kvTokens) (turnHeader_used fingerprint hle)
    (by rw [turnHeader_body fingerprint hn hle]; simp [packedRows])
  simp only [packedRows, read_length] at hsave
  simp only [gatherAndSave, p.gatherUsedToHost_ok hcuda _ hn hle, KVCachePool.packedUsedBytes,
    if_neg hn.ne', hsave]
  rfl

theorem turnImage_bodyPacked : BodyPacked p.cfg (turnImage p fingerprint kvTokens) := by
  rw [BodyPacked, turnImage_decode, turnHeader_used fingerprint hle,
    turnHeader_body fingerprint hn hle]

/-- A saved turn passes every check of its own pool. -/
theorem turnImage_accepted : HeaderAccepted p.cfg fingerprint (turnImage p fingerprint kvTokens) := by
  have hused := turnHeader_used fingerprint hle
  have hbody := turnHeader_body fingerprint hn hle
  have hlt := packed_lt p hle
  have hlen : (turnImage p fingerprint kvTokens).length =
      (turnHeader p fingerprint kvTokens.length).expectedSize := by
    rw [expectedSize_eq (by rw [hbody, vectorMaxSize]; omega), tokensBytes, hused, hbody]
    simp [turnImage, image, packedRows]
    omega
  obtain ⟨h₁, h₂, h₃, h₄, -, h₅⟩ := p.cfg_isInt
  constructor
  · refine ⟨?_, ?_, ?_, ?_⟩
    · simp [turnImage, image]
    · rw [turnImage_decode]; rfl
    · rw [turnImage_decode]; rfl
    · rw [turnImage_decode, hlen]
  · rw [turnImage_decode]
    simp only [compatibleHeader, turnHeader, asInt_ofNat h₁, asInt_ofNat h₂, asInt_ofNat h₃,
      asInt_ofNat h₄, asInt_ofNat h₅, decide_true, Bool.and_self]
  · rw [turnImage_decode]
    intro h
    rw [h] at hused
    exact absurd hused (by simpa using hn.ne)
  · rw [turnImage_decode, hused]
    exact hle

/-- The rows of a saved turn are the rows of the pool it was saved from. -/
theorem turnImage_bodyRow {l half pos : ℕ} (hl : l < p.cfg.nLayers) (hhalf : half < 2)
    (hpos : pos < kvTokens.length) :
    bodyRow p.cfg (turnImage p fingerprint kvTokens) l half pos = p.row l half pos := by
  have hbody : bodyOf (turnImage p fingerprint kvTokens) = packedRows p kvTokens := by
    apply bodyOf_image _ (turnHeader_used fingerprint hle)
    rw [turnHeader_body fingerprint hn hle]
    simp [packedRows]
  rw [bodyRow, turnImage_decode, turnHeader_used fingerprint hle, hbody,
    p.row_fast hhalf (by omega)]
  apply read_congr
  intro b hb
  exact gathered_byte p.cfg p.gpuPool hl hhalf hpos hb

omit hn in
theorem turnImage_tokensOf : tokensOf (turnImage p fingerprint kvTokens) = kvTokens :=
  tokensOf_image _ (turnHeader_used fingerprint hle)

end

/-! ### Restoring a saved turn -/

/-- `convId` is used for persistence. -/
def Persistent (convId : String) : Prop :=
  convId.isEmpty = false ∧ validateConversationId convId = true

theorem tryHydrateKv_eq {io : HydrateIo} {dir : String} {fs : FileSystem}
    {fingerprint : Vector UInt8 32} {p : KVCachePool} {promptTokens : List UInt32} {convId : String}
    (hconv : Persistent convId) (hprompt : promptTokens ≠ []) :
    tryHydrateKv io dir fs fingerprint p promptTokens convId =
      match hydratePeek io.peek p fingerprint (fs (pathForConvId dir convId)) with
      | none => .returned 0 p
      | some hdr => hydrateLoad io p promptTokens hdr (fs (pathForConvId dir convId)) := by
  have hskip : ¬ (convId.isEmpty || !validateConversationId convId) = true := by
    simp [hconv.1, hconv.2]
  have hempty : ¬ promptTokens.isEmpty = true := by simpa using hprompt
  exact (if_neg hskip).trans (if_neg hempty)

/-- Without a conversation nothing is looked up. -/
theorem tryHydrateKv_fresh {io : HydrateIo} {dir : String} {fs : FileSystem}
    {fingerprint : Vector UInt8 32} {p : KVCachePool} {promptTokens : List UInt32} {convId : String}
    (hconv : ¬ Persistent convId) :
    tryHydrateKv io dir fs fingerprint p promptTokens convId = .returned 0 p := by
  have hskip : (convId.isEmpty || !validateConversationId convId) = true := by
    by_contra hne
    simp only [Bool.not_eq_true, Bool.or_eq_false_iff, Bool.not_eq_false'] at hne
    exact hconv hne
  exact if_pos hskip

/-- However a load ends, the pool keeps what a scatter keeps. -/
theorem hydrateLoad_keeps {α : Type} (f : KVCachePool → α) {io : HydrateIo} {p q : KVCachePool}
    (hf : ∀ src used, f (p.scatterFromHost io.cuda src used true).2 = f p)
    {promptTokens : List UInt32} {hdr : KVCacheFileHeader} {file : Option (List UInt8)} {m : ℕ}
    (h : hydrateLoad io p promptTokens hdr file = .returned m q) : f q = f p := by
  rw [hydrateLoad] at h
  split_ifs at h with hmax
  split at h
  · cases h; rfl
  · rename_i loaded _
    split_ifs at h with hcount
    · cases h; rfl
    simp only at h
    split_ifs at h with hzero
    · cases h; rfl
    cases hcompact : compactBody p.cfg hdr.usedTokens.toNat
        (commonPrefix loaded.tokens promptTokens) hdr.bodyBytes.toNat (ofBytes loaded.body) with
    | none => simp [hcompact] at h
    | some compact =>
      simp only [hcompact] at h
      split_ifs at h <;> cases h <;> exact hf _ _

theorem tryHydrateKv_keeps {α : Type} (f : KVCachePool → α) {io : HydrateIo} {p q : KVCachePool}
    (hf : ∀ src used, f (p.scatterFromHost io.cuda src used true).2 = f p)
    {dir : String} {fs : FileSystem} {fingerprint : Vector UInt8 32} {promptTokens : List UInt32}
    {convId : String} {m : ℕ}
    (h : tryHydrateKv io dir fs fingerprint p promptTokens convId = .returned m q) :
    f q = f p := by
  simp only [tryHydrateKv] at h
  split_ifs at h with hconv hprompt
  · cases h; rfl
  · cases h; rfl
  · cases hpeek : hydratePeek io.peek p fingerprint (fs (pathForConvId dir convId)) with
    | none =>
      rw [hpeek] at h
      cases h
      rfl
    | some hdr =>
      rw [hpeek] at h
      exact hydrateLoad_keeps f hf h

/-- A match comes from an accepted file of the conversation. -/
theorem tryHydrateKv_returned {io : HydrateIo} {dir : String} {fs : FileSystem}
    {fingerprint : Vector UInt8 32} {p q : KVCachePool} {promptTokens : List UInt32}
    {convId : String} {m : ℕ}
    (h : tryHydrateKv io dir fs fingerprint p promptTokens convId = .returned m q) :
    q.cfg = p.cfg ∧ (m ≠ 0 → ∃ f, fs (pathForConvId dir convId) = some f ∧
      HeaderAccepted p.cfg fingerprint f) := by
  refine ⟨tryHydrateKv_keeps KVCachePool.cfg (fun _ _ => p.scatterFromHost_cfg _ _ _ _) h, ?_⟩
  simp only [tryHydrateKv] at h
  split_ifs at h with hconv hprompt
  · cases h
    exact fun hm => absurd rfl hm
  · cases h
    exact fun hm => absurd rfl hm
  · cases hpeek : hydratePeek io.peek p fingerprint (fs (pathForConvId dir convId)) with
    | none =>
      rw [hpeek] at h
      cases h
      exact fun hm => absurd rfl hm
    | some hdr =>
      obtain ⟨f, hf, haccepted, -⟩ := hydratePeek_eq_some hpeek
      exact fun _ => ⟨f, hf, haccepted⟩

/-- Hydrating from an accepted file with a packed body. -/
theorem tryHydrateKv_packed {io : HydrateIo} (hio : io.NoFailure) {dir : String} {fs : FileSystem}
    {fingerprint : Vector UInt8 32} {p : KVCachePool} {promptTokens : List UInt32} {convId : String}
    (hconv : Persistent convId) (hprompt : promptTokens ≠ []) {f : List UInt8}
    (hfile : fs (pathForConvId dir convId) = some f)
    (hf : HeaderAccepted p.cfg fingerprint f) (hbody : BodyPacked p.cfg f) :
    tryHydrateKv io dir fs fingerprint p promptTokens convId =
      let matched := commonPrefix (tokensOf f) promptTokens
      .returned matched (if matched = 0 then p else scattered p f matched) := by
  rw [tryHydrateKv_eq hconv hprompt, hfile, hydratePeek_ok hio.peek hf]
  exact hydrateLoad_packed hio hf hbody promptTokens

/-- The rows and counters after hydrating `m` saved tokens into the pool `q`. -/
structure Restored (p q q' : KVCachePool) (m : ℕ) : Prop where
  matched : ∀ l half pos, l < p.cfg.nLayers → half < 2 → pos < m → q'.row l half pos = p.row l half pos
  zeroed : ∀ l half pos, l < p.cfg.nLayers → half < 2 → m ≤ pos → pos < p.cfg.maxContext →
    0 < m → q'.row l half pos = List.replicate p.cfg.rowBytes 0
  used : 0 < m → q'.usedTokens = m
  cold : m = 0 → q' = q

/-- Saving the committed tokens of a pool and hydrating a later prompt into any
pool of the same configuration restores the longest common prefix. -/
theorem hydrate_restores_saved {cuda : ℕ → Bool} (hcuda : ∀ i, cuda i = true) {save : SaveIo}
    (hsave : save.NoFailure) {io : HydrateIo} (hio : io.NoFailure) (dir : String)
    (fs : FileSystem) (fingerprint : Vector UInt8 32) {convId : String} (hconv : Persistent convId)
    (p q : KVCachePool) (hcfg : q.cfg = p.cfg) (kvTokens : List UInt32)
    (hn : 0 < kvTokens.length) (hle : kvTokens.length ≤ p.cfg.maxContext)
    (promptTokens : List UInt32) (hprompt : promptTokens ≠ []) (m : ℕ)
    (hm : IsLongestCommonPrefix kvTokens promptTokens m) :
    ∃ fs' q', gatherAndSave cuda save fs (pathForConvId dir convId) fingerprint p kvTokens =
        (true, fs') ∧
      tryHydrateKv io dir fs' fingerprint q promptTokens convId = .returned m q' ∧
      Restored p q q' m := by
  set f := turnImage p fingerprint kvTokens with hfdef
  have hf : HeaderAccepted q.cfg fingerprint f := hcfg ▸ turnImage_accepted fingerprint hn hle
  have hbody : BodyPacked q.cfg f := hcfg ▸ turnImage_bodyPacked fingerprint hn hle
  have hused : (decode f).usedTokens.toNat = kvTokens.length := by
    rw [hfdef, turnImage_decode, turnHeader_used fingerprint hle]
  have htokens : tokensOf f = kvTokens := turnImage_tokensOf fingerprint hle
  have hleft := hm.left
  refine ⟨_, if m = 0 then q else scattered q f m,
    gatherAndSave_ok fingerprint hn hle hcuda hsave fs _, ?_, ?_⟩
  · rw [tryHydrateKv_packed hio hconv hprompt (if_pos rfl) hf hbody, htokens,
      hm.eq_commonPrefix]
  · have hmatched : m ≤ (decode f).usedTokens.toNat := by omega
    have hrow (l half pos : ℕ) (hl : l < p.cfg.nLayers) (hhalf : half < 2)
        (hpos : pos < p.cfg.maxContext) :=
      scattered_row (p := q) hmatched (by rw [hcfg]; omega) (hcfg ▸ hl) hhalf (hcfg ▸ hpos)
    constructor
    · intro l half pos hl hhalf hpos
      rw [if_neg (by omega), hrow l half pos hl hhalf (by omega), if_pos hpos, hcfg]
      exact turnImage_bodyRow fingerprint hn hle hl hhalf (by omega)
    · intro l half pos hl hhalf hmpos hpos hmpos'
      rw [if_neg (by omega), hrow l half pos hl hhalf hpos, if_neg (by omega), hcfg]
    · intro hmpos
      rw [if_neg (by omega)]
      rfl
    · intro hz
      rw [if_pos hz]

/-- Calls that succeed and transfer what they are asked for. -/
def wholeReads : ReadIo := ⟨true, size, true, true, fun _ => 2 ^ 64, fun _ => 2 ^ 64⟩

def wholeWrites : SaveIo := ⟨true, size, fun _ => 2 ^ 64, fun _ => 2 ^ 64, true, true⟩

def wholeHydrate : HydrateIo := ⟨wholeReads, wholeReads, fun _ => true⟩

theorem wholeReads_noFailure : wholeReads.NoFailure :=
  ⟨rfl, rfl, rfl, rfl, fun _ => Nat.two_pow_pos 64, fun _ => Nat.two_pow_pos 64⟩

theorem wholeWrites_noFailure : wholeWrites.NoFailure :=
  ⟨rfl, rfl, fun _ => Nat.two_pow_pos 64, fun _ => Nat.two_pow_pos 64, rfl, rfl⟩

theorem wholeHydrate_noFailure : wholeHydrate.NoFailure :=
  ⟨wholeReads_noFailure, wholeReads_noFailure, fun _ => rfl⟩

theorem persistent_chat : Persistent "chat" := ⟨by decide, by decide⟩

/-- Three saved tokens, two of them shared by the prompt. -/
theorem hydrate_restores_two_of_three :
    ∃ fs' q', gatherAndSave (fun _ => true) wholeWrites (fun _ => none) (pathForConvId "kv" "chat")
        (Vector.replicate 32 0) smallOverflowPool [7, 8, 9] = (true, fs') ∧
      tryHydrateKv wholeHydrate "kv" fs' (Vector.replicate 32 0) smallOverflowPool [7, 8, 5] "chat" =
        .returned 2 q' ∧
      Restored smallOverflowPool smallOverflowPool q' 2 :=
  hydrate_restores_saved (fun _ => rfl) wholeWrites_noFailure wholeHydrate_noFailure "kv" _ _
    persistent_chat smallOverflowPool smallOverflowPool rfl [7, 8, 9] (by decide) (by decide)
    [7, 8, 5] (by decide) 2 (commonPrefix_isLongest [7, 8, 9] [7, 8, 5])

/-! ### Malformed files -/

/-- The file holds exactly the header, the tokens and the packed rows. -/
structure WellFormed (c : Config) (f : List UInt8) : Prop where
  packed : BodyPacked c f
  length : f.length = size + 4 * (decode f).usedTokens.toNat + (decode f).bodyBytes.toNat

/-- Hydration returns, without a throw or a read out of bounds; a match comes from
a well-formed file, and without a match the pool is as it was. -/
def ColdUnlessWellFormed (p : KVCachePool) (f : List UInt8) (r : HydrateResult) : Prop :=
  ∃ matched q, r = .returned matched q ∧
    (matched ≠ 0 → WellFormed p.cfg f) ∧ (matched = 0 → q = p)

theorem coldUnlessWellFormed_zero (p : KVCachePool) (f : List UInt8) :
    ColdUnlessWellFormed p f (.returned 0 p) := ⟨0, p, rfl, fun h => absurd rfl h, fun _ => rfl⟩

section

variable {p : KVCachePool} {fingerprint : Vector UInt8 32} {f : List UInt8}

theorem HeaderAccepted.wellFormed (hf : HeaderAccepted p.cfg fingerprint f)
    (hbody : BodyPacked p.cfg f) : WellFormed p.cfg f := by
  refine ⟨hbody, ?_⟩
  rw [hf.file.length, expectedSize_eq (hbody.le_max hf), tokensBytes, Nat.mul_comm 4]

/-- With an arbitrary body size the load half is safe when nothing matches. -/
theorem hydrateLoad_cold {io : HydrateIo} (hcuda : ∀ i, io.cuda i = true)
    (hf : HeaderAccepted p.cfg fingerprint f) (promptTokens : List UInt32)
    (h : BodyPacked p.cfg f ∨ (decode f).bodyBytes.toNat ≤ vectorMaxSize ∧
      commonPrefix (tokensOf f) promptTokens = 0) :
    ColdUnlessWellFormed p f (hydrateLoad io p promptTokens (decode f) (some f)) := by
  have hmax : (decode f).bodyBytes.toNat ≤ vectorMaxSize := by
    rcases h with hbody | h
    · exact hbody.le_max hf
    · exact h.1
  cases hload : loadKvFromFile io.load (some f) true (decode f).bodyBytes.toNat with
  | none =>
    simp only [hydrateLoad, hload, if_neg (Nat.not_lt.mpr hmax)]
    exact coldUnlessWellFormed_zero p f
  | some kv =>
    obtain ⟨g, hg, -, -, rfl⟩ := loadKvFromFile_eq_some hload
    obtain rfl := Option.some.inj hg
    rw [hydrateLoad_loaded hcuda rfl hf.fits hmax hload]
    by_cases hz : commonPrefix (tokensOf f) promptTokens = 0
    · simp only [hz, if_true]
      exact coldUnlessWellFormed_zero p f
    · have hbody : BodyPacked p.cfg f := by tauto
      simp only [if_neg hz, hbody.compact]
      exact ⟨_, _, rfl, fun _ => hf.wellFormed hbody, fun h => absurd h hz⟩

/-- An accepted header with another body size is not caught when the body is too
long for a vector or the first token matches. -/
theorem hydrateLoad_uncaught {io : HydrateIo} (hio : io.NoFailure)
    (hf : HeaderAccepted p.cfg fingerprint f) (promptTokens : List UInt32)
    (hbody : ¬ BodyPacked p.cfg f) (h : vectorMaxSize < (decode f).bodyBytes.toNat ∨
      commonPrefix (tokensOf f) promptTokens ≠ 0) :
    ¬ ColdUnlessWellFormed p f (hydrateLoad io p promptTokens (decode f) (some f)) := by
  by_cases hmax : vectorMaxSize < (decode f).bodyBytes.toNat
  · simp [hydrateLoad, hmax, ColdUnlessWellFormed]
  · have hz : commonPrefix (tokensOf f) promptTokens ≠ 0 := by tauto
    rw [hydrateLoad_loaded hio.cuda rfl hf.fits (Nat.not_lt.mp hmax)
      (hf.load_ok hio.load (Nat.not_lt.mp hmax))]
    simp only [if_neg hz]
    cases compactBody p.cfg (decode f).usedTokens.toNat (commonPrefix (tokensOf f) promptTokens)
      (decode f).bodyBytes.toNat (ofBytes (bodyOf f)) with
    | none => simp [ColdUnlessWellFormed]
    | some compact =>
      rintro ⟨matched, q, heq, hwf, -⟩
      obtain ⟨rfl, rfl⟩ := HydrateResult.returned.inj heq
      exact hbody (hwf hz).packed

end

/-- One token, and no body. -/
def bodylessHeader : KVCacheFileHeader :=
  ⟨kvcacheMagic, kvcacheVersion, 1, 1, 1, 2, 4, 1, 0, Vector.replicate 32 0, Vector.replicate 56 0⟩

/-- The 132 bytes of such a file. -/
def bodylessFile : List UInt8 := image bodylessHeader [0] []

theorem bodylessFile_decode : decode bodylessFile = bodylessHeader := decode_image _ _ _

theorem bodylessFile_accepted :
    HeaderAccepted smallOverflowPool.cfg (Vector.replicate 32 0) bodylessFile := by
  refine ⟨⟨?_, ?_, ?_, ?_⟩, ?_, ?_, ?_⟩
  · simp [bodylessFile, image]
  · rw [bodylessFile_decode]
    rfl
  · rw [bodylessFile_decode]
    rfl
  · rw [bodylessFile_decode]
    simp [bodylessFile, image]
    decide
  all_goals
    rw [bodylessFile_decode]
    decide

end JLLM
