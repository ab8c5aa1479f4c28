import Mathlib.Data.List.TakeWhile
import ReflexLlm.Proofs.TurnCap
import ReflexLlm.Spec.Meminfo

/-! What the budget and the guard read out of a `/proc/meminfo` as the kernel writes it. -/

namespace JLLM

open Lines

/-! ### Numbers -/

/-- A number as it is printed. -/
def decimal (n : ℕ) : List UInt8 := (Nat.toDigits 10 n).map Char.toUInt8

theorem digit_byte {c : Char} (h : c.isDigit = true) :
    c.toUInt8.toNat = c.toNat ∧ isDigit c.toUInt8 = true := by
  have hrange : 48 ≤ c.toNat ∧ c.toNat ≤ 57 := by
    simpa [Char.isDigit, UInt32.le_iff_toNat_le] using h
  have hbyte : c.toUInt8.toNat = c.toNat := by
    have hmod : c.toUInt8.toNat = c.toNat % 256 := rfl
    omega
  refine ⟨hbyte, decide_eq_true ?_⟩
  simp only [UInt8.le_iff_toNat_le, hbyte]
  exact hrange

theorem isDigit_of_mem_decimal {n : ℕ} {b : UInt8} (h : b ∈ decimal n) : isDigit b = true := by
  obtain ⟨c, hc, rfl⟩ := List.mem_map.mp h
  exact (digit_byte (Nat.isDigit_of_mem_toDigits (by decide) (by decide) hc)).2

theorem decimal_ne_nil (n : ℕ) : decimal n ≠ [] := fun h =>
  Nat.toDigits_ne_nil (List.map_eq_nil_iff.mp h)

/-- The digits read from left to right. -/
theorem foldl_digits {cs : List Char} (h : ∀ c ∈ cs, c.isDigit = true) (n : ℕ) :
    (cs.map Char.toUInt8).foldl (fun n d => 10 * n + (d.toNat - 0x30)) n =
      Nat.ofDigitChars 10 cs n := by
  induction cs generalizing n with
  | nil => exact Nat.ofDigitChars_nil.symm
  | cons c cs ih =>
    rw [List.map_cons, List.foldl_cons, Nat.ofDigitChars_cons,
      (digit_byte (h c List.mem_cons_self)).1]
    exact ih (fun c hc => h c (List.mem_cons_of_mem _ hc)) _

theorem decimal_value (n : ℕ) :
    (decimal n).foldl (fun n d => 10 * n + (d.toNat - 0x30)) 0 = n := by
  rw [decimal, foldl_digits fun c hc => Nat.isDigit_of_mem_toDigits (by decide) (by decide) hc]
  exact Nat.ofDigitChars_ten_toDigits

theorem isDigit_cases {b : UInt8} (h : isDigit b = true) :
    isSpace b = false ∧ b ≠ '-'.toUInt8 ∧ b ≠ '+'.toUInt8 ∧ isFieldSeparator b = false := by
  have hne {c : UInt8} (hc : isDigit c = false) : b ≠ c := by
    rintro rfl
    exact Bool.false_ne_true (hc.symm.trans h)
  have hlow : 0x30 ≤ b.toNat := UInt8.le_iff_toNat_le.mp (of_decide_eq_true h).1
  refine ⟨decide_eq_false ?_, hne rfl, hne rfl, decide_eq_false ?_⟩
  · rintro (hblank | ⟨-, hcontrol⟩)
    · exact hne rfl hblank
    · have hhigh : b.toNat ≤ 0x0D := UInt8.le_iff_toNat_le.mp hcontrol
      omega
  · exact not_or.mpr ⟨hne rfl, hne rfl⟩

/-- A printed number is read back up to the first byte that is no digit. -/
theorem strtoll_decimal {n : ℕ} (hn : n < 0x8000000000000000) {b : UInt8} (hb : isDigit b = false)
    (rest : List UInt8) : strtoll (decimal n ++ b :: rest) = n := by
  have hall : ∀ d ∈ decimal n, isDigit d = true := fun d => isDigit_of_mem_decimal
  have htake : (decimal n ++ b :: rest).takeWhile isDigit = decimal n := by
    rw [List.takeWhile_append_of_pos hall, List.takeWhile_cons_of_neg (Bool.eq_false_iff.mp hb),
      List.append_nil]
  obtain ⟨d, ds, hds⟩ := List.exists_cons_of_ne_nil (decimal_ne_nil n)
  obtain ⟨hspace, hminus, hplus, -⟩ := isDigit_cases (hall d (hds ▸ List.mem_cons_self))
  have hdrop : (decimal n ++ b :: rest).dropWhile isSpace = decimal n ++ b :: rest := by
    rw [hds, List.cons_append, List.dropWhile_cons_of_neg (Bool.eq_false_iff.mp hspace)]
  have hhead : (decimal n ++ b :: rest).head? = some d := by rw [hds]; rfl
  simp only [strtoll, hdrop, hhead, Option.some.injEq, hminus, hplus, or_self, if_false, htake,
    decimal_value]
  omega

/-! ### Rows -/

/-- One row of the table, in kB. -/
structure MeminfoRow where
  name : List UInt8
  pad : ℕ
  kb : ℕ

/-- `Name:    12345 kB`. -/
def MeminfoRow.text (r : MeminfoRow) : List UInt8 :=
  r.name ++ ':'.toUInt8 :: (List.replicate r.pad ' '.toUInt8 ++ (decimal r.kb ++ ascii " kB"))

def renderMeminfo (rows : List MeminfoRow) : List UInt8 :=
  (rows.map MeminfoRow.text).flatMap (· ++ ['\n'.toUInt8])

/-- The line fits into the buffer of the reader, and the number into an `int64_t`. -/
structure MeminfoRow.WellFormed (r : MeminfoRow) : Prop where
  newline : '\n'.toUInt8 ∉ r.name
  zero : 0 ∉ r.name
  length : r.text.length ≤ 254
  kb : r.kb < 0x8000000000000000

theorem MeminfoRow.not_mem_text {r : MeminfoRow} {b : UInt8} (hname : b ∉ r.name)
    (hseparator : isFieldSeparator b = false) (hdigit : isDigit b = false)
    (hunit : b ∉ ascii " kB") : b ∉ r.text := by
  have hne := not_or.mp (of_decide_eq_false hseparator)
  intro h
  rcases List.mem_append.mp h with h | h
  · exact hname h
  rcases List.mem_cons.mp h with h | h
  · exact hne.2 h
  rcases List.mem_append.mp h with h | h
  · exact hne.1 (List.eq_of_mem_replicate h)
  rcases List.mem_append.mp h with h | h
  · exact Bool.false_ne_true (hdigit.symm.trans (isDigit_of_mem_decimal h))
  · exact hunit h

/-- The line that the reader gets for a row. -/
def MeminfoRow.line (r : MeminfoRow) : List UInt8 := r.text ++ ['\n'.toUInt8]

theorem meminfoLines_render {rows : List MeminfoRow} (hrows : ∀ r ∈ rows, r.WellFormed) :
    meminfoLines (renderMeminfo rows) = rows.map MeminfoRow.line := by
  rw [meminfoLines, renderMeminfo, pieces_lines, List.map_map]
  · rfl
  · intro line hline
    obtain ⟨r, hr, rfl⟩ := List.mem_map.mp hline
    exact ⟨r.not_mem_text (hrows r hr).newline rfl rfl (by decide), (hrows r hr).length⟩

theorem MeminfoRow.WellFormed.cString_line {r : MeminfoRow} (h : r.WellFormed) :
    cString r.line = r.line := by
  refine List.takeWhile_eq_self_iff.mpr fun b hb => decide_eq_true ?_
  rintro rfl
  rcases List.mem_append.mp hb with hb | hb
  · exact r.not_mem_text h.zero rfl rfl (by decide) hb
  · exact absurd hb (by decide)

/-- A word without the mark begins a text where it begins what is in front of the mark. -/
theorem prefix_before {α : Type _} {word before after : List α} {mark : α} (h : mark ∉ word) :
    word <+: before ++ mark :: after ↔ word <+: before := by
  refine ⟨fun hword => ?_, fun hword => hword.trans (List.prefix_append _ _)⟩
  rcases Nat.le_total word.length before.length with hle | hle
  · exact List.prefix_of_prefix_length_le hword (List.prefix_append _ _) hle
  · obtain ⟨rest, rfl⟩ := List.prefix_of_prefix_length_le (List.prefix_append before _) hword hle
    cases rest with
    | nil => rw [List.append_nil]
    | cons a rest =>
      obtain ⟨rfl, -⟩ := List.cons_prefix_cons.mp ((List.prefix_append_right_inj before).mp hword)
      exact absurd (List.mem_append_right before List.mem_cons_self) h

theorem MeminfoRow.line_eq (r : MeminfoRow) : r.line = r.name ++ ':'.toUInt8 ::
    (List.replicate r.pad ' '.toUInt8 ++ (decimal r.kb ++ ' '.toUInt8 :: ascii "kB\n")) := by
  rw [MeminfoRow.line, MeminfoRow.text]
  simp only [List.append_assoc, List.cons_append]
  rfl

/-- The number behind the name of a row. -/
theorem MeminfoRow.WellFormed.value {r : MeminfoRow} (h : r.WellFormed) :
    strtoll ((r.line.drop r.name.length).dropWhile isFieldSeparator) = r.kb := by
  obtain ⟨d, ds, hds⟩ := List.exists_cons_of_ne_nil (decimal_ne_nil r.kb)
  have hdigit : isDigit d = true := isDigit_of_mem_decimal (hds ▸ List.mem_cons_self)
  have hblanks : ∀ b ∈ List.replicate r.pad ' '.toUInt8, isFieldSeparator b = true := by
    intro b hb
    rw [List.eq_of_mem_replicate hb]
    rfl
  have hrest : (decimal r.kb ++ ' '.toUInt8 :: ascii "kB\n").dropWhile isFieldSeparator =
      decimal r.kb ++ ' '.toUInt8 :: ascii "kB\n" := by
    rw [hds, List.cons_append,
      List.dropWhile_cons_of_neg (Bool.eq_false_iff.mp (isDigit_cases hdigit).2.2.2)]
  rw [r.line_eq, List.drop_left, List.dropWhile_cons_of_pos rfl,
    List.dropWhile_append_of_pos hblanks, hrest]
  exact strtoll_decimal h.kb rfl _

/-! ### Fields -/

/-- What a table says about a field, in MB; -1 where it says nothing. -/
def meminfoMb (rows : List MeminfoRow) (field : List UInt8) : ℤ :=
  match rows.find? fun r => r.name = field with
  | none => -1
  | some r => (r.kb / 1024 : ℕ)

/-- No other name begins like the field. -/
def FieldAlone (rows : List MeminfoRow) (field : List UInt8) : Prop :=
  ∀ r ∈ rows, field <+: r.name → r.name = field

instance (rows : List MeminfoRow) (field : List UInt8) : Decidable (FieldAlone rows field) :=
  inferInstanceAs (Decidable (∀ r ∈ rows, field <+: r.name → r.name = field))

theorem find_line {rows : List MeminfoRow} {field : List UInt8}
    (hrows : ∀ r ∈ rows, r.WellFormed) (halone : FieldAlone rows field)
    (hfield : ':'.toUInt8 ∉ field) :
    ((rows.map MeminfoRow.line).find? fun line => field <+: cString line) =
      (rows.find? fun r => r.name = field).map MeminfoRow.line := by
  induction rows with
  | nil => rfl
  | cons r rows ih =>
    have hbegins : field <+: cString r.line ↔ r.name = field := by
      rw [(hrows r List.mem_cons_self).cString_line, r.line_eq, prefix_before hfield]
      exact ⟨halone r List.mem_cons_self, fun h => h ▸ List.prefix_rfl⟩
    have hrest := ih (fun r hr => hrows r (List.mem_cons_of_mem _ hr))
      fun r hr => halone r (List.mem_cons_of_mem _ hr)
    have hsame : decide (field <+: cString r.line) = decide (r.name = field) :=
      decide_eq_decide.mpr hbegins
    rw [List.map_cons, List.find?_cons, List.find?_cons, hsame]
    cases decide (r.name = field) with
    | true => rfl
    | false => exact hrest

theorem parseMeminfoField_render {rows : List MeminfoRow} {field : List UInt8}
    (hrows : ∀ r ∈ rows, r.WellFormed) (halone : FieldAlone rows field)
    (hfield : ':'.toUInt8 ∉ field) :
    parseMeminfoField (some (renderMeminfo rows)) field = meminfoMb rows field := by
  rw [parseMeminfoField, meminfoMb]
  simp only [meminfoLines_render hrows, find_line hrows halone hfield]
  cases hfind : rows.find? fun r => r.name = field with
  | none => rfl
  | some r =>
    have hname : r.name = field :=
      of_decide_eq_true (List.find?_some (p := fun r : MeminfoRow => decide (r.name = field)) hfind)
    have hr := hrows r (List.mem_of_find?_eq_some hfind)
    simp only [Option.map_some, hr.cString_line, ← hname, hr.value]
    rw [Int.tdiv_eq_ediv_of_nonneg (Int.natCast_nonneg _)]
    rfl

/-! ### The budget and the guard -/

/-- The fields that are asked for. -/
def memoryFields : List (List UInt8) := [ascii "MemTotal", ascii "MemAvailable", ascii "CmaTotal"]

/-- A table of a board with CMA, and one line that the reader skips. -/
def boardRows : List MeminfoRow :=
  [⟨ascii "MemTotal", 8, 7802940⟩, ⟨ascii "MemFree", 9, 312044⟩, ⟨ascii "MemAvailable", 4, 5511224⟩,
    ⟨ascii "CmaTotal", 8, 262144⟩]

theorem boardRows_wellFormed : ∀ r ∈ boardRows, r.WellFormed := by
  intro r hr
  simp only [boardRows, List.mem_cons, List.not_mem_nil, or_false] at hr
  rcases hr with rfl | rfl | rfl | rfl <;> exact ⟨by decide, by decide, by decide, by decide⟩

section

variable {W R L P G : Type} {e : Engine W R L P G} {env : TurnEnv} {params : GenParams P}

/-- A pass of the decode loop is only made while the guard has agreed to each position up to it. -/
theorem decodeLoop_guarded (limit n : ℕ) : ∀ (i : ℕ) (s : GenState G) (q : ℕ) (token : Int32),
    .forward q token ∈ (decodeLoop e env params limit n i s).dev.bare →
      .forward q token ∈ s.dev.bare ∨ ∀ p, s.pos ≤ p → p ≤ q → env.memOk p = true := by
  induction n with
  | zero => exact fun i s q token hmem => .inl hmem
  | succ n ih =>
    intro i s q token hmem
    rw [decodeLoop] at hmem
    split_ifs at hmem with hstop hlimit hoom
    · exact .inl hmem
    · exact .inl hmem
    · exact .inl hmem
    have hok : env.memOk s.pos = true := Bool.not_eq_false _ ▸ hoom
    have hiter := decodeIteration_iterated e params env s
    have hnext (h : .forward q token ∈ (decodeIteration e env params s).1.dev.bare) :
        .forward q token ∈ s.dev.bare ∨ ∀ p, s.pos ≤ p → p ≤ q → env.memOk p = true := by
      refine (hiter.forward h).imp_right fun hq p hp hpq => ?_
      rw [hq.1] at hpq
      exact Nat.le_antisymm hpq hp ▸ hok
    simp only at hmem
    split_ifs at hmem with heos
    · exact hnext hmem
    · rcases ih (i + 1) _ q token hmem with hbefore | hafter
      · exact hnext hbefore
      · refine .inr fun p hp hpq => ?_
        rcases Nat.eq_or_lt_of_le hp with rfl | hlt
        · exact hok
        · exact hafter p (hiter.pos ▸ hlt) hpq

theorem decodeFrom_guarded {promptTokens : List Int32} {dev : Device}
    (h : Prefilled promptTokens dev) (limit : ℕ) (rng : G) (lastPrefillX : Option R) {q : ℕ}
    {token : Int32}
    (hmem : .forward q token ∈
      (decodeFrom e env params limit rng promptTokens (dev, lastPrefillX)).dev.bare)
    {p : ℕ} (hp : promptTokens.length ≤ p) (hpq : p ≤ q) : env.memOk p = true := by
  by_cases hfallback : NoFirstToken env lastPrefillX
  · rw [decodeFrom_fallback (dev, lastPrefillX) hfallback] at hmem
    rcases decodeLoop_guarded _ _ _ _ q token hmem with hbefore | hok
    · have hlt := h.positions q token hbefore
      omega
    · exact hok p ((Nat.sub_le _ 1).trans hp) hpq
  · rw [NoFirstToken, not_or] at hfallback
    obtain ⟨x, rfl⟩ := Option.ne_none_iff_exists'.mp hfallback.1
    have hhead (hmem : .forward q token ∈ (pathAHead e params rng promptTokens dev x).dev.bare) :
        q < promptTokens.length := by
      have hbare : (pathAHead e params rng promptTokens dev x).dev.bare = dev.bare ++
          [.delivered (e.sampleToken (e.logits x) params.sampling [] rng).1
            (decide ((e.sampleToken (e.logits x) params.sampling [] rng).1 = e.eosId))] :=
        bare_emit _ _
      rw [hbare, List.mem_append] at hmem
      rcases hmem with hmem | hmem
      · exact h.positions q token hmem
      · simp at hmem
    rw [decodeFrom_pathA (by simpa using hfallback.2)] at hmem
    split_ifs at hmem
    · have hlt := hhead hmem
      omega
    · rcases decodeLoop_guarded _ _ _ _ q token hmem with hbefore | hok
      · have hlt := hhead hbefore
        omega
      · exact hok p hp hpq

variable (env) in
/-- Behind the prompt a turn makes its passes only at positions where, and as long as,
`/proc/meminfo` has shown more than the reserve and the bytes of a token. -/
theorem generate_within_memory (hK : e.kernels.SameRows) (cfg : ModelConfig)
    (file : ℕ → Option (List UInt8)) {dir : String} {prompt : List UInt8} {s : EngineState G}
    {fs : FileSystem} {turn : Turn G}
    (h : generate e { env with memOk := fun p => checkMemory cfg params.kvInt8 (file p) } params dir
      prompt s fs = .returned turn) {q : ℕ} {token : Int32} (hmem : .forward q token ∈ turn.trace)
    {p : ℕ} (hp : (e.promptTokens prompt).length ≤ p) (hpq : p ≤ q) :
    (cfg.kvPerTokenBytes (if params.kvInt8 then 1 else 2)).tdiv (1024 * 1024) + 1 + 256 <
      parseMeminfoField (file p) (ascii "MemAvailable") := by
  obtain ⟨m, pool, -, -, rfl⟩ := generate_eq_returned h
  obtain ⟨saved, htrace, hsaved⟩ := finishTurn_trace e _ params dir fs (e.encode prompt).length
    (turnState e _ params s.pool.maxTokens s.rng (e.promptTokens prompt) m pool)
  rw [htrace, List.mem_append] at hmem
  rcases hmem with hmem | hmem
  · have hprefilled := prefill_prefilled params hK (e.promptTokens prompt) m pool
    have hok := decodeFrom_guarded hprefilled _ _ _ (forward_mem_bare.mpr hmem) hp hpq
    exact of_decide_eq_true hok
  · rcases hsaved with rfl | ⟨k, rfl⟩ <;> simp at hmem

end

def boardConfig : ModelConfig := { nLayers := 36, nKvHeads := 8, headDim := 128 }

/-- Two tokens, and no file. -/
def twoAlone : GenParams Unit := ⟨2, false, "", ()⟩

/-- The same table at every position. -/
def boardMeminfo (_ : ℕ) : Option (List UInt8) := some (renderMeminfo boardRows)

/-- Three tokens of prompt, then a pass at position 3 with 5382 MB available. -/
theorem generate_within_memory_board :
    ∃ turn, generate (constantEngine Unit)
        { calmEnv with memOk := fun p => checkMemory boardConfig twoAlone.kvInt8 (boardMeminfo p) }
        twoAlone "kv" [5, 6, 7] emptySession.engine emptySession.fs = .returned turn ∧
      .forward 3 3 ∈ turn.trace ∧
      (boardConfig.kvPerTokenBytes (if twoAlone.kvInt8 then 1 else 2)).tdiv (1024 * 1024) + 1 +
          256 <
        parseMeminfoField (boardMeminfo 3) (ascii "MemAvailable") := by
  have hread (p : ℕ) : parseMeminfoField (boardMeminfo p) (ascii "MemAvailable") = 5382 :=
    parseMeminfoField_render boardRows_wellFormed (by decide) (by decide)
  have hok (p : ℕ) : checkMemory boardConfig twoAlone.kvInt8 (boardMeminfo p) = true := by
    rw [checkMemory, OomGuard.canExtend, OomGuard.realFreeMb, hread]
    decide
  have hcalm : ({ calmEnv with
      memOk := fun p => checkMemory boardConfig twoAlone.kvInt8 (boardMeminfo p) } : TurnEnv) =
        calmEnv := by
    simp only [hok]
    rfl
  obtain ⟨turn, hturn, hmem⟩ : ∃ turn, generate (constantEngine Unit) calmEnv twoAlone "kv"
      [5, 6, 7] emptySession.engine emptySession.fs = .returned turn ∧
        Event.forward 3 3 ∈ turn.trace := ⟨_, rfl, by decide⟩
  rw [← hcalm] at hturn
  have hprompt : ((constantEngine Unit).promptTokens [5, 6, 7]).length ≤ 3 := by decide
  exact ⟨turn, hturn, hmem, generate_within_memory calmEnv byteSumKernels_rowWise.sameRows
    boardConfig boardMeminfo hturn hmem hprompt le_rfl⟩

end JLLM
