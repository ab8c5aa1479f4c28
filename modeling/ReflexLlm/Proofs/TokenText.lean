import Mathlib.Algebra.Order.BigOperators.Group.List
import Mathlib.Data.List.TakeWhile
import ReflexLlm.Proofs.TurnCap
import ReflexLlm.Spec.ThinkSplit
import ReflexLlm.Spec.Tokenizer

/-! The text that `token_cb` gets and the text that the vector `decode` makes of the same
tokens. The callback gets C strings, and `decode` of one token does not skip the start token. -/

namespace JLLM

theorem cString_eq_self_iff {chunk : List UInt8} : cString chunk = chunk ↔ (0 : UInt8) ∉ chunk := by
  rw [cString, List.takeWhile_eq_self_iff]
  constructor
  · intro h hzero
    simpa using h 0 hzero
  · intro h b hb
    simpa using ne_of_mem_of_not_mem hb h

theorem zero_notMem_cString (chunk : List UInt8) : (0 : UInt8) ∉ cString chunk := by
  intro hzero
  simpa using List.mem_takeWhile_imp hzero

/-- Where no part of the one text is shorter, the texts agree in whole only if they do part by
part. -/
theorem flatMap_eq_iff_of_isPrefix {α β : Type} {f g : α → List β} {xs : List α}
    (h : ∀ x ∈ xs, g x <+: f x) : xs.flatMap f = xs.flatMap g ↔ ∀ x ∈ xs, f x = g x := by
  refine ⟨fun heq => ?_, List.flatMap_congr⟩
  have hlength {ys : List α} (hys : ∀ y ∈ ys, g y <+: f y) :
      (ys.flatMap g).length ≤ (ys.flatMap f).length := by
    rw [List.length_flatMap, List.length_flatMap]
    exact List.sum_le_sum fun y hy => (hys y hy).length_le
  induction xs with
  | nil => simp
  | cons x xs ih =>
    rw [List.forall_mem_cons] at h ⊢
    rw [List.flatMap_cons, List.flatMap_cons] at heq
    have htotal := congrArg List.length heq
    have hrest := hlength h.2
    have hfirst := h.1.length_le
    rw [List.length_append, List.length_append] at htotal
    obtain ⟨hx, hxs⟩ := List.append_inj heq (by omega)
    exact ⟨hx, ih h.2 hxs⟩

section

variable (t : Tokenizer)

/-- The callback gets what the vector `decode` makes of a token: nothing of the start token,
and no other token holds a zero byte. -/
def StreamsWhole (id : ℤ) : Prop :=
  if id = t.bosId then cString (t.decodeToken id) = [] else (0 : UInt8) ∉ t.decodeToken id

/-- What the vector `decode` makes of a token. -/
def decodePart (id : ℤ) : List UInt8 := if id = t.bosId then [] else t.decodeToken id

theorem decode_eq_flatMap (ids : List ℤ) :
    t.decode ids = (ids.filter (· ≠ t.eosId)).flatMap (decodePart t) := by
  have hpart (ys : List ℤ) :
      (ys.filter (· ≠ t.bosId)).flatMap t.decodeToken = ys.flatMap (decodePart t) := by
    induction ys with
    | nil => rfl
    | cons id ys ih =>
      rw [List.filter_cons, List.flatMap_cons, ← ih, decodePart]
      by_cases hbos : id = t.bosId
      · simp [hbos]
      · simp [hbos]
  rw [← hpart, List.filter_filter, Tokenizer.decode]
  simp only [Bool.decide_and]

/-- The texts of single tokens, as C strings, make the text of the vector `decode` exactly
when each token streams whole. -/
theorem cStrings_eq_decode_iff (ids : List ℤ) :
    ((ids.filter (· ≠ t.eosId)).flatMap fun id => cString (t.decodeToken id)) = t.decode ids ↔
      ∀ id ∈ ids, id ≠ t.eosId → StreamsWhole t id := by
  rw [decode_eq_flatMap]
  have hkept {P : ℤ → Prop} : (∀ id ∈ ids, id ≠ t.eosId → P id) ↔
      ∀ id ∈ ids.filter (· ≠ t.eosId), P id := by
    simp only [List.mem_filter, decide_eq_true_eq, and_imp]
  rw [hkept]
  generalize ids.filter (· ≠ t.eosId) = ys
  have hpart {id : ℤ} : cString (t.decodeToken id) = decodePart t id ↔ StreamsWhole t id := by
    rw [decodePart, StreamsWhole]
    by_cases hbos : id = t.bosId
    · rw [if_pos hbos, if_pos hbos]
    · rw [if_neg hbos, if_neg hbos, cString_eq_self_iff]
  constructor
  · intro heq
    -- no C string holds a zero byte, so no part of the vector's text does
    have hfree : ∀ id ∈ ys, decodePart t id <+: cString (t.decodeToken id) := by
      intro id hid
      have hzero : (0 : UInt8) ∉ decodePart t id := by
        intro hmem
        have hall := List.mem_flatMap.mpr ⟨id, hid, hmem⟩
        rw [← heq] at hall
        obtain ⟨id', -, hid'⟩ := List.mem_flatMap.mp hall
        exact zero_notMem_cString _ hid'
      rw [decodePart] at hzero ⊢
      by_cases hbos : id = t.bosId
      · rw [if_pos hbos]
        exact List.nil_prefix
      · rw [if_neg hbos] at hzero ⊢
        rw [cString_eq_self_iff.mpr hzero]
    exact fun id hid => hpart.mp ((flatMap_eq_iff_of_isPrefix hfree).mp heq id hid)
  · exact fun h => List.flatMap_congr fun id hid => hpart.mpr (h id hid)

end

/-! ### The calls of a turn -/

section

variable {W R L P G : Type} {e : Engine W R L P G} {env : TurnEnv} {params : GenParams P}

/-- Each call says whether its token is the end token. -/
def CallsFlagged (e : Engine W R L P G) (s : GenState G) : Prop :=
  ∀ call ∈ tokenCalls s.dev.bare, call.2 = decide (call.1 = e.eosId)

theorem Iterated.flagged {s s' : GenState G} {token : Int32} (hiter : Iterated e s s' token)
    (h : CallsFlagged e s) : CallsFlagged e s' := by
  intro call hcall
  rw [hiter.tokenCalls, List.mem_append, List.mem_singleton] at hcall
  rcases hcall with hcall | rfl
  · exact h call hcall
  · rfl

theorem CallsFlagged.decodeLoop {limit : ℕ} {s : GenState G} (h : CallsFlagged e s) (n i : ℕ) :
    CallsFlagged e (decodeLoop e env params limit n i s) :=
  (decodeLoop_rule (CallsFlagged e) (CallsFlagged e) (fun _ hs => hs) (fun _ hs => hs)
    (fun _ _ _ hs _ hiter _ => hiter.flagged hs) (fun _ _ _ hs _ hiter _ => hiter.flagged hs)
    n i s h).2

theorem decodeFrom_flagged {limit : ℕ} {rng : G} {promptTokens : List Int32}
    {prefilled : Device × Option R} (h : tokenCalls prefilled.1.bare = []) :
    CallsFlagged e (decodeFrom e env params limit rng promptTokens prefilled) := by
  by_cases hfallback : NoFirstToken env prefilled.2
  · rw [decodeFrom_fallback prefilled hfallback]
    refine CallsFlagged.decodeLoop (fun call hcall => ?_) _ _
    rw [show (turnHead rng promptTokens prefilled.1 (promptTokens.getLastD 0) []
      (promptTokens.length - 1)).dev = prefilled.1 from rfl, h] at hcall
    cases hcall
  · obtain ⟨dev, lastPrefillX⟩ := prefilled
    rw [NoFirstToken, not_or] at hfallback
    obtain ⟨x, rfl⟩ := Option.ne_none_iff_exists'.mp hfallback.1
    have hhead : CallsFlagged e (pathAHead e params rng promptTokens dev x) := by
      intro call hcall
      have hbare : (pathAHead e params rng promptTokens dev x).dev.bare =
          dev.bare ++ [.delivered (e.sampleToken (e.logits x) params.sampling [] rng).1
            (decide ((e.sampleToken (e.logits x) params.sampling [] rng).1 = e.eosId))] :=
        bare_emit _ _
      rw [hbare, tokenCalls_append, h] at hcall
      obtain rfl := List.mem_singleton.mp hcall
      rfl
    rw [decodeFrom_pathA (by simpa using hfallback.2)]
    split_ifs
    · exact hhead
    · exact hhead.decodeLoop _ _

/-- In a turn that returns, `is_eos` is exactly for the end token. -/
theorem generate_flagged {dir : String} {prompt : List UInt8} {s : EngineState G} {fs : FileSystem}
    {turn : Turn G} (h : generate e env params dir prompt s fs = .returned turn) :
    ∀ call ∈ tokenCalls turn.trace, call.2 = decide (call.1 = e.eosId) := by
  obtain ⟨m, q, -, -, rfl⟩ := generate_eq_returned h
  have hnone : tokenCalls (prefill e params ⟨q, if m = 0 then [] else [.hydrated m]⟩ m
      (e.promptTokens prompt)).1.bare = [] := by
    rw [tokenCalls_prefill, Device.bare]
    split_ifs <;> rfl
  have hflagged : CallsFlagged e (turnState e env params s.pool.maxTokens s.rng
      (e.promptTokens prompt) m q) := decodeFrom_flagged hnone
  obtain ⟨saved, htrace, hsaved⟩ := finishTurn_trace e env params dir fs (e.encode prompt).length
    (turnState e env params s.pool.maxTokens s.rng (e.promptTokens prompt) m q)
  intro call hcall
  rw [htrace, tokenCalls_append, List.mem_append] at hcall
  rcases hcall with hcall | hcall
  · rw [← tokenCalls_bare] at hcall
    exact hflagged call hcall
  · rcases hsaved with rfl | ⟨k, rfl⟩ <;> cases hcall

/-- The text that the calls with `is_eos` false add up to. -/
def receivedText (t : Tokenizer) (trace : List Event) : List UInt8 :=
  ((tokenCalls trace).filter fun call => !call.2).flatMap fun call =>
    cString (t.decodeToken call.1.toInt)

/-- The text received token by token is that of the vector `decode` exactly when each token
that is delivered streams whole. `t` is `tokenizer_`. -/
theorem generate_text_iff (t : Tokenizer) (heos : t.eosId = e.eosId.toInt) {dir : String}
    {prompt : List UInt8} {s : EngineState G} {fs : FileSystem} {turn : Turn G}
    (h : generate e env params dir prompt s fs = .returned turn) :
    receivedText t turn.trace = t.decode ((tokenCalls turn.trace).map fun call => call.1.toInt) ↔
      ∀ call ∈ tokenCalls turn.trace, call.2 = false → StreamsWhole t call.1.toInt := by
  have hflag : ∀ call ∈ tokenCalls turn.trace,
      (!call.2) = decide (call.1.toInt ≠ t.eosId) := by
    intro call hcall
    rw [generate_flagged h call hcall, heos]
    simp [Int32.toInt_inj]
  have hreceived : receivedText t turn.trace =
      (((tokenCalls turn.trace).map fun call => call.1.toInt).filter (· ≠ t.eosId)).flatMap
        fun id => cString (t.decodeToken id) := by
    rw [receivedText, List.filter_congr hflag, List.filter_map, List.flatMap_map]
    rfl
  rw [hreceived, cStrings_eq_decode_iff, List.forall_mem_map]
  refine forall₂_congr fun call hcall => ?_
  rw [← decide_eq_true_iff (p := call.1.toInt ≠ t.eosId), ← hflag call hcall, Bool.not_eq_true']

end

/-- A vocabulary with these bytes for token 3. -/
def oneWord (word : List UInt8) : Tokenizer := { vocab := [[], [], [], word], byteEncode := false }

/-- `<0x00>`. -/
def zeroWord : List UInt8 := ['<', '0', 'x', '0', '0', '>'].map Char.toUInt8

theorem constantEngine_calls :
    ∃ turn, generate (constantEngine Unit) calmEnv twoTokens "kv" [5, 6, 7] emptySession.engine
        emptySession.fs = .returned turn ∧
      tokenCalls turn.trace = [(3, false), (3, false)] := ⟨_, rfl, by decide +kernel⟩

theorem generate_text_iff_hi :
    ∃ turn, generate (constantEngine Unit) calmEnv twoTokens "kv" [5, 6, 7] emptySession.engine
        emptySession.fs = .returned turn ∧
      receivedText (oneWord [0x68, 0x69]) turn.trace =
        (oneWord [0x68, 0x69]).decode ((tokenCalls turn.trace).map fun call => call.1.toInt) := by
  obtain ⟨turn, h, hcalls⟩ := constantEngine_calls
  refine ⟨turn, h, (generate_text_iff (oneWord [0x68, 0x69]) (by decide) h).mpr ?_⟩
  have hwhole : StreamsWhole (oneWord [0x68, 0x69]) 3 := by
    rw [StreamsWhole]
    decide
  rw [hcalls]
  intro call hcall _
  simp only [List.mem_cons, List.not_mem_nil, or_false, or_self] at hcall
  rw [hcall]
  exact hwhole

/-- A zero byte ends the string that the callback gets, and the start token gets through. -/
theorem generate_text_differs :
    ∃ turn, generate (constantEngine Unit) calmEnv twoTokens "kv" [5, 6, 7] emptySession.engine
        emptySession.fs = .returned turn ∧
      (receivedText (oneWord zeroWord) turn.trace = [] ∧
        (oneWord zeroWord).decode ((tokenCalls turn.trace).map fun call => call.1.toInt) =
          [0, 0]) ∧
      (receivedText { oneWord [0x68, 0x69] with bosId := 3 } turn.trace = [0x68, 0x69, 0x68, 0x69] ∧
        Tokenizer.decode { oneWord [0x68, 0x69] with bosId := 3 }
          ((tokenCalls turn.trace).map fun call => call.1.toInt) = []) := by
  obtain ⟨turn, h, hcalls⟩ := constantEngine_calls
  refine ⟨turn, h, ?_⟩
  rw [receivedText, receivedText, hcalls]
  decide +kernel

end JLLM
