import ReflexLlm.Proofs.GgufConfig
import ReflexLlm.Spec.TokenizerLoad

/-! What `load_from_gguf` of the tokenizer makes of an encoded file. While the pairs are
skipped by their true lengths, the tokenizer gets what is stored under its seven keys, and
the merges their ranks as long as their two sides can be told apart in a key of the map. -/

namespace JLLM

open ByteStream Reader Gguf LastHit LittleEndian

variable {f : Stream} {maxAlloc : ℕ}

/-! ### Values under the keys of the tokenizer -/

/-- The strings of an array; an array without elements has none, whatever their type. -/
def asStrings : Value → Option (List (List UInt8))
  | .array (.strings elems) => some elems
  | .array (.scalars _ []) => some []
  | .array (.arrays []) => some []
  | _ => none

/-- The flag in a `bool` value. -/
def asBool : Value → Option Bool
  | .scalar .bool bytes => some (decide (bytes.val.headD 0 ≠ 0))
  | _ => none

/-- The keys that are read. -/
inductive TokenizerKey where
  | tokens
  | merges
  | model
  | bosTokenId
  | eosTokenId
  | addBosToken
  | addEosToken
deriving DecidableEq, Repr

namespace TokenizerKey

def all : List TokenizerKey :=
  [tokens, merges, model, bosTokenId, eosTokenId, addBosToken, addEosToken]

def name : TokenizerKey → List UInt8
  | tokens => ascii "tokenizer.ggml.tokens"
  | merges => ascii "tokenizer.ggml.merges"
  | model => ascii "tokenizer.ggml.model"
  | bosTokenId => ascii "tokenizer.ggml.bos_token_id"
  | eosTokenId => ascii "tokenizer.ggml.eos_token_id"
  | addBosToken => ascii "tokenizer.ggml.add_bos_token"
  | addEosToken => ascii "tokenizer.ggml.add_eos_token"

theorem mem_all (k : TokenizerKey) : k ∈ all := by
  cases k <;> decide

theorem names_nodup : (all.map name).Nodup := by decide +kernel

theorem name_inj {k k' : TokenizerKey} (h : k.name = k'.name) : k = k' :=
  List.inj_on_of_nodup_map names_nodup (mem_all k) (mem_all k') h

theorem name_length (k : TokenizerKey) : k.name.length ≤ 1024 := by
  have hall : all.all fun k => k.name.length ≤ 1024 := by decide +kernel
  exact of_decide_eq_true (List.all_eq_true.mp hall k (mem_all k))

theorem bufferString_name (k : TokenizerKey) : bufferString k.name = k.name := by
  have hall : all.all fun k => bufferString k.name = k.name := by decide +kernel
  exact of_decide_eq_true (List.all_eq_true.mp hall k (mem_all k))

/-- The value has the type that the reader looks for under the key. -/
def Typed (v : Value) : TokenizerKey → Prop
  | tokens | merges => (asStrings v).isSome
  | model => v.asString.isSome
  | bosTokenId | eosTokenId => v.asU32.isSome
  | addBosToken | addEosToken => (asBool v).isSome

end TokenizerKey

/-- The merge table that a list of merges gives. -/
def ranksOf (merges : List (List UInt8)) : List (List UInt8 × ℤ) :=
  (merges.foldl (fun s merge => (s.1 + 1, addMerge s.2 s.1 merge))
    ((0, []) : ℕ × List (List UInt8 × ℤ))).2

def isByteModel (model : List UInt8) : Bool := decide (model = ascii "gpt2" ∨ model = ascii "qwen2")

/-- What the value under a key does to the tokenizer. -/
def keyStep (t : Tokenizer) (v : Value) : TokenizerKey → Tokenizer
  | .tokens => { t with vocab := (asStrings v).getD t.vocab }
  | .merges => { t with bpeRanks := ((asStrings v).map ranksOf).getD t.bpeRanks }
  | .model => { t with byteEncode := (v.asString.map isByteModel).getD t.byteEncode }
  | .bosTokenId => { t with bosId := (v.asU32.map fun w => w.toInt32.toInt).getD t.bosId }
  | .eosTokenId => { t with eosId := (v.asU32.map fun w => w.toInt32.toInt).getD t.eosId }
  | .addBosToken => { t with addBos := (asBool v).getD t.addBos }
  | .addEosToken => { t with addEos := (asBool v).getD t.addEos }

/-- The key of the tokenizer that a buffer holds. -/
def keyOf (key : List UInt8) : Option TokenizerKey := TokenizerKey.all.find? (·.name = key)

theorem keyOf_eq_some {key : List UInt8} {k : TokenizerKey} : keyOf key = some k ↔ k.name = key := by
  constructor
  · exact fun h => of_decide_eq_true (List.find?_some h :)
  · intro h
    cases hkey : keyOf key with
    | none =>
      have hno := List.find?_eq_none.mp hkey k (TokenizerKey.mem_all k)
      exact absurd (decide_eq_true h) hno
    | some k' =>
      have hname : k'.name = key := of_decide_eq_true (List.find?_some hkey :)
      rw [TokenizerKey.name_inj (hname.trans h.symm)]

/-- What a pair does to the tokenizer. -/
def tokenizerStep (t : Tokenizer) (kv : KeyValue) : Tokenizer :=
  if 1024 < kv.key.length then t
  else ((keyOf (bufferString kv.key)).map (keyStep t kv.value)).getD t

/-! ### Skipped values -/

/-- The value is skipped with its own length: an array of strings, of words of four bytes, or
of nothing, or no array. -/
def SkippedExactly : Value → Prop
  | .array (.scalars t elems) => t.size = 4 ∨ elems = []
  | .array (.arrays elems) => elems = []
  | _ => True

/-- Loop iterations for the elements of a value. -/
def elemCost : Value → ℕ
  | .array (.strings elems) => elems.length
  | .array (.scalars _ elems) => elems.length
  | _ => 0

theorem skipTokenizerValue_scalar (t : ScalarType) :
    skipTokenizerValue f t.code = seek f (.ofNat t.size) := by
  cases t <;> simp [skipTokenizerValue, ScalarType.code, ScalarType.size]

theorem takes_skipTokenizerValue {v : Value} (h : SkippedExactly v)
    (hlen : v.encode.length < 0x8000000000000000) :
    Takes f (skipTokenizerValue f v.code) v.encode () (elemCost v) := by
  cases v with
  | scalar t bytes =>
    rw [Value.code, skipTokenizerValue_scalar]
    exact takes_seek_scalar bytes
  | string s =>
    simp only [Value.encode, encodeString_length] at hlen
    exact takes_skipString (by omega)
  | array a =>
    have harray : skipTokenizerValue f (Value.array a).code = (do
        let atype ← u32 f
        let alen ← u64 f
        loop alen.toNat (fun _ => if atype = 8 then skipString f else seek f 4) ()) := rfl
    rw [harray, Value.encode]
    cases a with
    | strings elems =>
      simp only [Value.encode, Arr.encode, List.length_append] at hlen
      rw [Arr.encode, List.append_assoc]
      refine (takes_u32 _).next ((takes_u64 _).next ?_)
      simp only [if_true]
      exact takes_skipStrings (by omega)
    | scalars t elems =>
      rw [Arr.encode, List.append_assoc]
      refine (takes_u32 _).next ((takes_u64 _).next ?_)
      have hcode : t.code ≠ 8 := by cases t <;> decide
      simp only [if_neg hcode]
      rcases h with hsize | rfl
      · have hbytes := scalars_length elems
        have hfour : elems.length * t.size = elems.length * 4 := congrArg (elems.length * ·) hsize
        simp only [Value.encode, Arr.encode, List.length_append] at hlen
        rw [toNat_ofNat_length (by omega)]
        exact takes_loop_flat Subtype.val (fun _ _ => ())
          (fun _ bytes _ => takes_seek (by rw [bytes.property, hsize]; rfl)) ()
      · exact .pure ()
    | arrays elems =>
      obtain rfl : elems = [] := h
      rw [Arr.encode, List.append_assoc]
      exact (takes_u32 _).next ((takes_u64 _).next (.pure ()))

/-! ### Values that are read -/

/-- Arrays of strings are written as such. -/
theorem encode_strings {v : Value} {elems : List (List UInt8)} (h : asStrings v = some elems) :
    v.code = 9 ∧ elemCost v = elems.length ∧ ∃ code : UInt32, v.encode =
      LittleEndian.u32 code ++ (LittleEndian.u64 (.ofNat elems.length) ++
        elems.flatMap encodeString) := by
  unfold asStrings at h
  split at h
  · cases h
    exact ⟨rfl, rfl, 8, by rw [Value.encode, Arr.encode, List.append_assoc]⟩
  · rename_i t
    cases h
    exact ⟨rfl, rfl, t.code, by rw [Value.encode, Arr.encode, List.append_assoc]; rfl⟩
  · cases h
    exact ⟨rfl, rfl, 9, by rw [Value.encode, Arr.encode, List.append_assoc]; rfl⟩
  · cases h

section

variable {elems : List (List UInt8)} (hlen : (elems.flatMap encodeString).length <
  0x8000000000000000) (hmem : (elems.flatMap encodeString).length ≤ maxAlloc)

include hlen hmem

theorem strings_fit : elems.length ≤ maxAlloc ∧ elems.length < 0x8000000000000000 ∧
    ∀ s ∈ elems, s.length ≤ maxAlloc ∧ s.length < 0x8000000000000000 := by
  have hcount : 8 * elems.length ≤ (elems.flatMap encodeString).length :=
    flatMap_length_le fun s _ => by simp
  refine ⟨by omega, by omega, fun s hs => ?_⟩
  have hle := length_le_flatMap (g := encodeString) hs
  rw [encodeString_length] at hle
  omega

theorem takes_tokenLoop (old : List (List UInt8)) :
    Takes f (loop elems.length (readToken f maxAlloc old) (some []))
      (elems.flatMap encodeString) (some elems) elems.length := by
  obtain ⟨-, -, hstrings⟩ := strings_fit hlen hmem
  have htoken : ∀ vocab, ∀ tok ∈ elems, Takes f (readToken f maxAlloc old (some vocab))
      (encodeString tok) (some (vocab ++ [tok])) 0 := by
    intro vocab tok htok
    obtain ⟨hfits, h64⟩ := hstrings tok htok
    unfold readToken encodeString
    refine (takes_u64 _).next ?_
    rw [toNat_ofNat_length (by omega), if_neg (by omega)]
    exact (takes_fread tok _).last (.pure _)
  have hloop := takes_loop_through some encodeString (fun vocab tok => vocab ++ [tok]) (fun _ => 0)
    htoken []
  refine hloop.of_eq rfl ?_ ?_
  · rw [foldl_snoc fun tok => tok, List.map_id', List.nil_append]
  · rw [List.map_const', List.sum_replicate_nat, Nat.mul_zero, Nat.add_zero]

theorem takes_mergeLoop :
    ∃ n, Takes f (loop elems.length (readMerge f maxAlloc) (some (0, [])))
      (elems.flatMap encodeString) (some (n, ranksOf elems)) elems.length := by
  obtain ⟨-, -, hstrings⟩ := strings_fit hlen hmem
  have hmerge : ∀ s, ∀ merge ∈ elems, Takes f (readMerge f maxAlloc (some s))
      (encodeString merge) (some (s.1 + 1, addMerge s.2 s.1 merge)) 0 := by
    intro s merge hin
    obtain ⟨hfits, h64⟩ := hstrings merge hin
    unfold readMerge encodeString
    refine (takes_u64 _).next ?_
    rw [toNat_ofNat_length (by omega), if_neg (by omega)]
    exact (takes_zeroed rfl).last (.pure _)
  have hloop := takes_loop_through some encodeString
    (fun s merge => (s.1 + 1, addMerge s.2 s.1 merge)) (fun _ => 0) hmerge (0, [])
  refine ⟨_, hloop.of_eq rfl rfl ?_⟩
  rw [List.map_const', List.sum_replicate_nat, Nat.mul_zero, Nat.add_zero]

end

theorem takes_readInt (w : UInt32) (old : ℤ) :
    Takes f (readInt f old) (LittleEndian.u32 w) w.toInt32.toInt 0 := by
  have hbytes := takes_fread (f := f) (LittleEndian.u32 w) fun i => (intBytes old).getD i 0
  rw [u32_length] at hbytes
  have hread : Takes f (readInt f old) (LittleEndian.u32 w)
      (toU32 (LittleEndian.u32 w)).toInt32.toInt 0 := hbytes.last (.pure _)
  rwa [toU32_u32] at hread

theorem takes_readFlag (bytes : Scalar .bool) :
    Takes f (readFlag f) bytes.val (decide (bytes.val.headD 0 ≠ 0)) 0 :=
  (takes_zeroed bytes.property).last (.pure _)

theorem encode_u32 {v : Value} {w : UInt32} (h : v.asU32 = some w) :
    v.code = 4 ∧ elemCost v = 0 ∧ v.encode = LittleEndian.u32 w := by
  unfold Value.asU32 at h
  split at h
  · rename_i bytes
    cases h
    exact ⟨rfl, rfl, (u32_toU32 bytes.property).symm⟩
  · cases h

theorem scalar_of_asBool {v : Value} (h : (asBool v).isSome) : ∃ bytes, v = .scalar .bool bytes := by
  unfold asBool at h
  split at h
  · exact ⟨_, rfl⟩
  · cases h

section

variable (f maxAlloc)

/-- The type that the reader looks for under a key. -/
def TokenizerKey.vtype : TokenizerKey → UInt32
  | tokens | merges => 9
  | model => 8
  | bosTokenId | eosTokenId => 4
  | addBosToken | addEosToken => 7

/-- The branch for a key. -/
def keyRead (t : Tokenizer) : TokenizerKey → Reader (Option Tokenizer)
  | .tokens => readTokens f maxAlloc t
  | .merges => readMerges f maxAlloc t
  | .model => readModel f maxAlloc t
  | .bosTokenId => do
      let bosId ← readInt f t.bosId
      return some { t with bosId := bosId }
  | .eosTokenId => do
      let eosId ← readInt f t.eosId
      return some { t with eosId := eosId }
  | .addBosToken => do
      let v ← readFlag f
      return some { t with addBos := v }
  | .addEosToken => do
      let v ← readFlag f
      return some { t with addEos := v }

end

/-- Of the branches at most one is for a key. -/
theorem readTokenizerValue_eq (t : Tokenizer) (key : List UInt8) (vtype : UInt32) :
    readTokenizerValue f maxAlloc t key vtype =
      match keyOf key with
      | some k =>
          if vtype = k.vtype then keyRead f maxAlloc t k
          else do
            skipTokenizerValue f vtype
            return some t
      | none => do
          skipTokenizerValue f vtype
          return some t := by
  have hkey (k : TokenizerKey) : key = k.name ↔ keyOf key = some k :=
    eq_comm.trans keyOf_eq_some.symm
  have htokens : key = ascii "tokenizer.ggml.tokens" ↔ _ := hkey .tokens
  have hmerges : key = ascii "tokenizer.ggml.merges" ↔ _ := hkey .merges
  have hmodel : key = ascii "tokenizer.ggml.model" ↔ _ := hkey .model
  have hbos : key = ascii "tokenizer.ggml.bos_token_id" ↔ _ := hkey .bosTokenId
  have heos : key = ascii "tokenizer.ggml.eos_token_id" ↔ _ := hkey .eosTokenId
  have haddBos : key = ascii "tokenizer.ggml.add_bos_token" ↔ _ := hkey .addBosToken
  have haddEos : key = ascii "tokenizer.ggml.add_eos_token" ↔ _ := hkey .addEosToken
  unfold readTokenizerValue
  simp only [htokens, hmerges, hmodel, hbos, heos, haddBos, haddEos]
  cases keyOf key with
  | none => simp
  | some k => cases k <;> simp [TokenizerKey.vtype, keyRead]

/-- The frame of an array of strings. -/
theorem takes_stringArray {τ : Type} {v : Value} {elems : List (List UInt8)}
    (helems : asStrings v = some elems) (hlen : v.encode.length < 0x8000000000000000)
    (hmem : v.encode.length ≤ maxAlloc) (r : UInt64 → Reader (Option τ)) {x : τ}
    (hr : ∀ arrLen : UInt64, arrLen.toNat = elems.length →
      (elems.flatMap encodeString).length < 0x8000000000000000 →
      (elems.flatMap encodeString).length ≤ maxAlloc →
      Takes f (r arrLen) (elems.flatMap encodeString) (some x) elems.length) :
    Takes f (do
      let _arrType ← u32 f
      let arrLen ← u64 f
      if maxAlloc < arrLen.toNat then return none else r arrLen) v.encode (some x)
      (elemCost v) := by
  obtain ⟨-, hcost, code, hencode⟩ := encode_strings helems
  rw [hencode, List.length_append, List.length_append] at hlen hmem
  have hbytes : (elems.flatMap encodeString).length < 0x8000000000000000 := by omega
  have hroom : (elems.flatMap encodeString).length ≤ maxAlloc := by omega
  obtain ⟨hfits, h64, -⟩ := strings_fit hbytes hroom
  rw [hencode, hcost]
  refine (takes_u32 _).next ((takes_u64 _).next ?_)
  have hcount : (UInt64.ofNat elems.length).toNat = elems.length := toNat_ofNat_length (by omega)
  rw [if_neg (by omega)]
  exact hr _ hcount hbytes hroom

theorem takes_readTokens {v : Value} {elems : List (List UInt8)} (helems : asStrings v = some elems)
    (hlen : v.encode.length < 0x8000000000000000) (hmem : v.encode.length ≤ maxAlloc)
    (t : Tokenizer) :
    Takes f (readTokens f maxAlloc t) v.encode (some { t with vocab := elems }) (elemCost v) := by
  unfold readTokens
  refine takes_stringArray helems hlen hmem _ fun arrLen hcount hbytes hroom => ?_
  rw [hcount]
  exact (takes_tokenLoop hbytes hroom t.vocab).last (.pure _)

theorem takes_readMerges {v : Value} {elems : List (List UInt8)} (helems : asStrings v = some elems)
    (hlen : v.encode.length < 0x8000000000000000) (hmem : v.encode.length ≤ maxAlloc)
    (t : Tokenizer) :
    Takes f (readMerges f maxAlloc t) v.encode (some { t with bpeRanks := ranksOf elems })
      (elemCost v) := by
  unfold readMerges
  refine takes_stringArray helems hlen hmem _ fun arrLen hcount hbytes hroom => ?_
  rw [hcount]
  obtain ⟨n, hloop⟩ := takes_mergeLoop (f := f) hbytes hroom
  exact hloop.last (.pure _)

theorem takes_readModel {s : List UInt8} (hlen : s.length + 8 < 0x8000000000000000)
    (hmem : s.length + 8 ≤ maxAlloc) (t : Tokenizer) :
    Takes f (readModel f maxAlloc t) (encodeString s)
      (some { t with byteEncode := isByteModel s }) 0 := by
  unfold readModel encodeString
  refine (takes_u64 _).next ?_
  rw [toNat_ofNat_length (by omega), if_neg (by omega)]
  exact (takes_zeroed rfl).last (.pure _)

/-- The value under a key of the tokenizer is read as a whole. -/
theorem takes_keyRead {k : TokenizerKey} {v : Value} (h : k.Typed v)
    (hlen : v.encode.length < 0x8000000000000000) (hmem : v.encode.length ≤ maxAlloc)
    (t : Tokenizer) :
    v.code = k.vtype ∧
      Takes f (keyRead f maxAlloc t k) v.encode (some (keyStep t v k)) (elemCost v) := by
  cases k with
  | tokens =>
    obtain ⟨elems, helems⟩ := Option.isSome_iff_exists.mp h
    rw [keyStep, helems]
    exact ⟨(encode_strings helems).1, takes_readTokens helems hlen hmem t⟩
  | merges =>
    obtain ⟨elems, helems⟩ := Option.isSome_iff_exists.mp h
    rw [keyStep, helems]
    exact ⟨(encode_strings helems).1, takes_readMerges helems hlen hmem t⟩
  | model =>
    cases v with
    | string s =>
      simp only [Value.encode, encodeString_length] at hlen hmem
      exact ⟨rfl, takes_readModel (by omega) (by omega) t⟩
    | scalar _ _ => cases h
    | array _ => cases h
  | bosTokenId =>
    obtain ⟨w, hw⟩ := Option.isSome_iff_exists.mp h
    obtain ⟨hcode, hcost, hencode⟩ := encode_u32 hw
    rw [hencode, hcost, keyStep, hw]
    exact ⟨hcode, (takes_readInt w t.bosId).last (.pure _)⟩
  | eosTokenId =>
    obtain ⟨w, hw⟩ := Option.isSome_iff_exists.mp h
    obtain ⟨hcode, hcost, hencode⟩ := encode_u32 hw
    rw [hencode, hcost, keyStep, hw]
    exact ⟨hcode, (takes_readInt w t.eosId).last (.pure _)⟩
  | addBosToken =>
    obtain ⟨bytes, rfl⟩ := scalar_of_asBool h
    exact ⟨rfl, (takes_readFlag bytes).last (.pure _)⟩
  | addEosToken =>
    obtain ⟨bytes, rfl⟩ := scalar_of_asBool h
    exact ⟨rfl, (takes_readFlag bytes).last (.pure _)⟩

/-! ### Pairs -/

/-- The pair is stepped over with its own length. -/
def SteppedOver (kv : KeyValue) : Prop := kv.key.length ≤ 1024 ∧ SkippedExactly kv.value

/-- A key of the tokenizer is written as such and its value has the documented type. -/
def KeyRight (kv : KeyValue) : Prop :=
  kv.key.length ≤ 1024 → ∀ k : TokenizerKey, bufferString kv.key = k.name →
    kv.key = k.name ∧ k.Typed kv.value

section

variable {kv : KeyValue} (hright : KeyRight kv) (hlen : kv.encode.length < 0x8000000000000000)
  (hmem : kv.encode.length ≤ maxAlloc) (t : Tokenizer)

include hright hlen hmem

/-- Behind a key that fits, either the value is read or all of it is left to the skip. -/
theorem readTokenizerValue_cases (hshort : kv.key.length ≤ 1024) :
    Takes f (readTokenizerValue f maxAlloc t (bufferString kv.key) kv.value.code) kv.value.encode
        (some (tokenizerStep t kv)) (elemCost kv.value) ∨
      readTokenizerValue f maxAlloc t (bufferString kv.key) kv.value.code = (do
        skipTokenizerValue f kv.value.code
        return some t) ∧ tokenizerStep t kv = t := by
  simp only [KeyValue.encode, List.length_append] at hlen hmem
  rw [readTokenizerValue_eq, tokenizerStep, if_neg (by omega)]
  cases hkey : keyOf (bufferString kv.key) with
  | none => exact .inr ⟨rfl, rfl⟩
  | some k =>
    obtain ⟨-, htyped⟩ := hright hshort k (keyOf_eq_some.mp hkey).symm
    have hroom : kv.value.encode.length ≤ maxAlloc := by omega
    obtain ⟨hcode, htakes⟩ := takes_keyRead (f := f) htyped (by omega) hroom t
    simp only [hcode, if_true]
    exact .inl htakes

theorem takes_readTokenizerPair (hover : SteppedOver kv) :
    Takes f (readTokenizerPair f maxAlloc (some t)) kv.encode (some (tokenizerStep t kv))
      (elemCost kv.value) := by
  have hcases := readTokenizerValue_cases (f := f) hright hlen hmem t hover.1
  simp only [KeyValue.encode, encodeString_length, List.length_append] at hlen
  unfold readTokenizerPair KeyValue.encode encodeString
  rw [List.append_assoc]
  refine (takes_u64 _).next ?_
  rw [toNat_ofNat_length (by omega), if_neg (Nat.not_lt.mpr hover.1)]
  refine (takes_zeroed rfl).next ((takes_u32 _).next ?_)
  rcases hcases with htakes | ⟨hread, hstep⟩
  · exact htakes
  · rw [hread, hstep]
    exact (takes_skipTokenizerValue hover.2 (by omega)).last (.pure _)

/-- The last pair may be left anywhere. -/
theorem answers_readTokenizerPair :
    Answers f (readTokenizerPair f maxAlloc (some t)) kv.encode (some (tokenizerStep t kv)) := by
  have hcases := readTokenizerValue_cases (f := f) hright hlen hmem t
  simp only [KeyValue.encode, encodeString_length, List.length_append] at hlen
  unfold readTokenizerPair KeyValue.encode encodeString
  rw [List.append_assoc]
  refine (takes_u64 _).nextAnswers ?_
  rw [toNat_ofNat_length (by omega)]
  by_cases hlong : 1024 < kv.key.length
  · rw [if_pos hlong, tokenizerStep, if_pos hlong]
    refine (takes_seek (toNat_ofNat_length (by omega))).nextAnswers ?_
    exact .const _ _ _
  · rw [if_neg hlong]
    refine (takes_zeroed rfl).nextAnswers ((takes_u32 _).nextAnswers ?_)
    rcases hcases (Nat.not_lt.mp hlong) with htakes | ⟨hread, hstep⟩
    · exact htakes.answers
    · rw [hread, hstep]
      exact .const _ _ _

end

/-- Each pair in front of the last one is stepped over, and the keys of the tokenizer are
right. -/
structure Walked (c : Contents) : Prop where
  stepped : ∀ kv ∈ c.pairs.dropLast, SteppedOver kv
  right : ∀ kv ∈ c.pairs, KeyRight kv

/-- The tokenizer after the metadata. -/
def tokenizerRead (c : Contents) : Tokenizer := c.pairs.foldl tokenizerStep {}

theorem loadFromGguf_encode {c : Contents} {rest : List UInt8} (hfile : f.bytes = c.encode ++ rest)
    (hmem : c.encode.length ≤ maxAlloc) (hwalk : Walked c) :
    loadFromGguf f maxAlloc = some (!(tokenizerRead c).vocab.isEmpty, tokenizerRead c) := by
  have hlen := encode_lt hfile
  obtain ⟨hpairs, -⟩ := counts_toNat hlen
  have hsmall : ∀ kv ∈ c.pairs, kv.encode.length < 0x8000000000000000 ∧
      kv.encode.length ≤ maxAlloc := by
    intro kv hkv
    have hle := length_le_flatMap (g := KeyValue.encode) hkv
    simp only [Contents.encode, List.length_append] at hlen hmem
    omega
  have hloop := answers_loop_through (f := f) some KeyValue.encode tokenizerStep
    (fun kv => elemCost kv.value)
    (fun t kv hkv =>
      have hin := List.mem_of_mem_dropLast hkv
      takes_readTokenizerPair (hwalk.right kv hin) (hsmall kv hin).1 (hsmall kv hin).2 t
        (hwalk.stepped kv hkv))
    (fun t kv hkv =>
      answers_readTokenizerPair (hwalk.right kv hkv) (hsmall kv hkv).1 (hsmall kv hkv).2 t) {}
  have hread : Answers f (readTokenizer f maxAlloc {})
      (c.header ++ c.pairs.flatMap KeyValue.encode)
      (some (!(tokenizerRead c).vocab.isEmpty, tokenizerRead c)) := by
    unfold readTokenizer Contents.header
    simp only [List.append_assoc]
    refine (takes_u32 _).nextAnswers ((takes_u32 _).nextAnswers ((takes_u64 _).nextAnswers
      ((takes_u64 _).nextAnswers ?_)))
    rw [if_neg (by decide), hpairs]
    exact hloop.map fun t => t.map fun t => (!t.vocab.isEmpty, t)
  refine hread .start (c.tensors.flatMap Tensor.encode ++ rest) ?_
  rw [Cursor.start, List.drop_zero, hfile, Contents.encode]
  simp only [List.append_assoc]

/-! ### Fields -/

/-- The value under the name of a key. -/
def storedAs {α : Type} (c : Contents) (k : TokenizerKey) (as : Value → Option α) : Option α :=
  (valueOf c k.name).bind as

/-- What the pairs give a field. -/
def hitAs {α : Type} (k : TokenizerKey) (as : Value → Option α) (kv : KeyValue) : Option α :=
  if kv.key = k.name then as kv.value else none

theorem keyOf_bufferString {kv : KeyValue} (h : KeyRight kv) (hshort : kv.key.length ≤ 1024)
    (k : TokenizerKey) : keyOf (bufferString kv.key) = some k ↔ kv.key = k.name := by
  rw [keyOf_eq_some]
  constructor
  · exact fun hname => (h hshort k hname.symm).1
  · intro hkey
    rw [hkey, TokenizerKey.bufferString_name]

theorem storedAs_map {α β : Type} (c : Contents) (k : TokenizerKey) (as : Value → Option α)
    (g : α → β) : storedAs c k (fun v => (as v).map g) = (storedAs c k as).map g := by
  unfold storedAs
  cases valueOf c k.name <;> rfl

section

variable {α : Type} {k : TokenizerKey} {as : Value → Option α} {pairs : List KeyValue}

/-- A field that its key alone writes gets the last value under its name. -/
theorem foldl_field (get : Tokenizer → α)
    (hstep : ∀ t v k', get (keyStep t v k') = if k' = k then (as v).getD (get t) else get t)
    (hright : ∀ kv ∈ pairs, KeyRight kv) (t : Tokenizer) :
    get (pairs.foldl tokenizerStep t) = ((pairs.filterMap (hitAs k as)).getLast?).getD (get t) := by
  refine foldl_lastHit get (fun t kv hkv => ?_) t
  unfold tokenizerStep hitAs
  by_cases hlong : 1024 < kv.key.length
  · have hname : kv.key ≠ k.name := by
      intro hkey
      rw [hkey] at hlong
      exact absurd k.name_length (Nat.not_le.mpr hlong)
    rw [if_pos hlong, if_neg hname, Option.getD_none]
  · have hkeyOf := keyOf_bufferString (hright kv hkv) (Nat.not_lt.mp hlong)
    rw [if_neg hlong]
    by_cases hname : kv.key = k.name
    · rw [(hkeyOf k).mpr hname, if_pos hname]
      exact (hstep t kv.value k).trans (if_pos rfl)
    · rw [if_neg hname, Option.getD_none]
      cases hother' : keyOf (bufferString kv.key) with
      | none => rfl
      | some k' =>
        have hne : k' ≠ k := by
          rintro rfl
          exact hname ((hkeyOf k').mp hother')
        exact (hstep t kv.value k').trans (if_neg hne)

theorem filterMap_hitAs (hnodup : (pairs.map KeyValue.key).Nodup) :
    pairs.filterMap (hitAs k as) =
      (((pairs.find? (·.key = k.name)).map KeyValue.value).bind as).toList := by
  induction pairs with
  | nil => rfl
  | cons kv pairs ih =>
    rw [List.map_cons, List.nodup_cons] at hnodup
    by_cases hname : kv.key = k.name
    · have hrest : pairs.filterMap (hitAs k as) = [] := by
        refine List.filterMap_eq_nil_iff.mpr fun kv' hkv' => if_neg fun hname' => ?_
        exact hnodup.1 (List.mem_map.mpr ⟨kv', hkv', hname'.trans hname.symm⟩)
      rw [List.find?_cons_of_pos (by simpa using hname), List.filterMap_cons, hrest, hitAs,
        if_pos hname, Option.map_some, Option.bind_some]
      cases as kv.value <;> rfl
    · rw [List.find?_cons_of_neg (by simpa using hname), List.filterMap_cons, hitAs, if_neg hname]
      exact ih hnodup.2

variable (k as) in
theorem field_tokenizerRead {c : Contents} (get : Tokenizer → α)
    (hstep : ∀ t v k', get (keyStep t v k') = if k' = k then (as v).getD (get t) else get t)
    (hright : ∀ kv ∈ c.pairs, KeyRight kv) (hnodup : (c.pairs.map KeyValue.key).Nodup) :
    get (tokenizerRead c) = (storedAs c k as).getD (get {}) := by
  rw [tokenizerRead, foldl_field get hstep hright, filterMap_hitAs hnodup, storedAs, valueOf]
  cases ((c.pairs.find? (·.key = k.name)).map KeyValue.value).bind as <;> rfl

end

/-! ### Ranks -/

/-- The key of a merge in the map of ranks. -/
def mergeKey (merge : List UInt8) : Option (List UInt8) :=
  (mergePair merge).map fun sides => bpeKey sides.1 sides.2

theorem addMerge_find (ranks : List (List UInt8 × ℤ)) (m : ℕ) (merge key : List UInt8) :
    ((addMerge ranks m merge).find? (·.1 = key)).map (·.2) =
      if mergeKey merge = some key then some (toInt m) else (ranks.find? (·.1 = key)).map (·.2) := by
  unfold addMerge mergeKey
  cases mergePair merge with
  | none => simp
  | some sides =>
    simp only [Option.map_some, Option.some.injEq, List.find?_cons]
    by_cases hkey : bpeKey sides.1 sides.2 = key <;> simp [hkey]

theorem ranksOf_concat (merges : List (List UInt8)) (merge : List UInt8) :
    ranksOf (merges ++ [merge]) = addMerge (ranksOf merges) merges.length merge := by
  have hcount : ∀ (merges : List (List UInt8)) (s : ℕ × List (List UInt8 × ℤ)),
      (merges.foldl (fun s merge => (s.1 + 1, addMerge s.2 s.1 merge)) s).1 =
        s.1 + merges.length := by
    intro merges
    induction merges with
    | nil => exact fun _ => rfl
    | cons merge merges ih =>
      intro s
      rw [List.foldl_cons, ih, List.length_cons]
      omega
  rw [ranksOf, List.foldl_append, List.foldl_cons, List.foldl_nil, hcount, Nat.zero_add, ranksOf]

/-- The rank of a pair is the last index of its key. -/
theorem rank_iff {t : Tokenizer} {merges : List (List UInt8)} (h : t.bpeRanks = ranksOf merges)
    (l r : List UInt8) (v : ℤ) : t.rank l r = some v ↔
      ∃ k, v = toInt k ∧ IsLastIndex (mergeKey · = some (bpeKey l r)) merges k := by
  rw [Tokenizer.rank, h]
  clear h
  induction merges using List.reverseRecOn with
  | nil =>
    constructor
    · intro hnone
      cases hnone
    · rintro ⟨k, -, ⟨x, hx, -⟩, -⟩
      cases hx
  | append_singleton merges merge ih =>
    rw [ranksOf_concat, addMerge_find]
    by_cases hkey : mergeKey merge = some (bpeKey l r)
    · have hlast (k : ℕ) : IsLastIndex (mergeKey · = some (bpeKey l r)) (merges ++ [merge]) k ↔
          k = merges.length := isLastIndex_concat_of_pos hkey
      simp only [if_pos hkey, hlast, Option.some.injEq, exists_eq_right]
      exact eq_comm
    · have hlast (k : ℕ) : IsLastIndex (mergeKey · = some (bpeKey l r)) (merges ++ [merge]) k ↔
          IsLastIndex (mergeKey · = some (bpeKey l r)) merges k := isLastIndex_concat_of_neg hkey
      simp only [if_neg hkey, hlast]
      exact ih

/-! ### What is stored -/

/-- The merges of a file. -/
def storedMerges (c : Contents) : List (List UInt8) := (storedAs c .merges asStrings).getD []

/-- The tokenizer has what is stored under the exact keys, or the defaults, and the rank of
a pair is the last index at which the merges have it. -/
structure HasTokenizer (c : Contents) (t : Tokenizer) : Prop where
  vocab : t.vocab = (storedAs c .tokens asStrings).getD []
  rank : ∀ l r v, t.rank l r = some v ↔
    ∃ k : ℕ, v = k ∧ IsLastIndex (mergePair · = some (l, r)) (storedMerges c) k
  byteEncode : t.byteEncode = ((storedAs c .model Value.asString).map isByteModel).getD true
  bosId : t.bosId = ((storedAs c .bosTokenId Value.asU32).map fun w => (w.toNat : ℤ)).getD 1
  eosId : t.eosId = ((storedAs c .eosTokenId Value.asU32).map fun w => (w.toNat : ℤ)).getD 2
  addBos : t.addBos = (storedAs c .addBosToken asBool).getD true
  addEos : t.addEos = (storedAs c .addEosToken asBool).getD false

/-- The ids and the indices of the merges fit into an `int`, and no side of a merge has the
line break that parts the sides in the keys of the map. -/
structure FitsTables (c : Contents) : Prop where
  merges : ∀ (m : ℕ) merge, (storedMerges c)[m]? = some merge → ' '.toUInt8 ∈ merge →
    m < 0x80000000 ∧ '\n'.toUInt8 ∉ merge
  bosId : ∀ w, storedAs c .bosTokenId Value.asU32 = some w → w.toNat < 0x80000000
  eosId : ∀ w, storedAs c .eosTokenId Value.asU32 = some w → w.toNat < 0x80000000

theorem toInt_eq_iff (k m : ℕ) : toInt k = m → m < 0x80000000 := by
  unfold toInt
  split_ifs <;> omega

theorem toInt32_eq_iff (w : UInt32) : w.toInt32.toInt = w.toNat ↔ w.toNat < 0x80000000 := by
  have hlt := w.toNat_lt
  have hbits : w.toInt32.toInt = if 2 * w.toNat < 0x100000000 then (w.toNat : ℤ)
      else (w.toNat : ℤ) - 0x100000000 := BitVec.toInt_eq_toNat_cond w.toBitVec
  rw [hbits]
  split_ifs <;> omega

/-- A merge has its pair on both sides of a space. -/
theorem mergePair_eq {merge l r : List UInt8} (h : mergePair merge = some (l, r)) :
    ' '.toUInt8 ∈ merge ∧ merge = l ++ ' '.toUInt8 :: r := by
  unfold mergePair at h
  split_ifs at h with hspace
  obtain ⟨rfl, rfl⟩ := Prod.mk.inj (Option.some.inj h)
  refine ⟨hspace, ?_⟩
  have hne : merge.dropWhile (· ≠ ' '.toUInt8) ≠ [] := by
    intro hnil
    simpa using List.dropWhile_eq_nil_iff.mp hnil _ hspace
  have hhead : (merge.dropWhile (· ≠ ' '.toUInt8)).head hne = ' '.toUInt8 := by
    simpa using List.head_dropWhile_not (· ≠ ' '.toUInt8) hne
  have htail := List.cons_head_tail hne
  rw [hhead] at htail
  rw [htail, List.takeWhile_append_dropWhile]

/-- While no merge has a line break, the key of a pair stands for the pair. -/
theorem isLastIndex_mergeKey {merges : List (List UInt8)}
    (hbreak : ∀ (m : ℕ) merge, merges[m]? = some merge → ' '.toUInt8 ∈ merge → '\n'.toUInt8 ∉ merge)
    (l r : List UInt8) (k : ℕ) : IsLastIndex (mergeKey · = some (bpeKey l r)) merges k ↔
      IsLastIndex (mergePair · = some (l, r)) merges k := by
  refine isLastIndex_congr fun m merge hm => ?_
  unfold mergeKey
  rw [Option.map_eq_some_iff]
  constructor
  · rintro ⟨sides, hpair, hkey⟩
    obtain ⟨hspace, hsplit⟩ := mergePair_eq hpair
    have hnone := hbreak m merge hm hspace
    rw [hsplit, List.mem_append, List.mem_cons, not_or, not_or] at hnone
    obtain ⟨rfl, rfl⟩ := bpeKey_inj hnone.1 hnone.2.2 hkey
    exact hpair
  · exact fun hpair => ⟨(l, r), hpair, rfl⟩

/-- A pair whose rank is its last index has no line break: another would have its rank. -/
theorem no_break_of_lastIndex {t : Tokenizer} {merges : List (List UInt8)}
    (hrank : ∀ l r v, t.rank l r = some v ↔
      ∃ k : ℕ, v = k ∧ IsLastIndex (mergePair · = some (l, r)) merges k)
    {l r : List UInt8} {k : ℕ} (hlast : IsLastIndex (mergePair · = some (l, r)) merges k) :
    ¬ ('\n'.toUInt8 ∈ l ∨ '\n'.toUInt8 ∈ r) := by
  intro hbreak
  obtain ⟨a, b, hkey, hne⟩ := exists_same_key hbreak
  have hsame : t.rank a b = t.rank l r := by rw [Tokenizer.rank, Tokenizer.rank, hkey]
  have hk := hsame.trans ((hrank l r k).mpr ⟨k, rfl, hlast⟩)
  obtain ⟨j, hkj, ⟨⟨x, hx, hxpair⟩, -⟩⟩ := (hrank a b k).mp hk
  obtain ⟨⟨y, hy, hypair⟩, -⟩ := hlast
  rw [← Int.natCast_inj.mp hkj, hy] at hx
  obtain rfl := Option.some.inj hx
  exact hne (Prod.mk.inj (Option.some.inj (hypair.symm.trans hxpair)))

/-- The ranks are the last indices exactly where the merges fit. -/
theorem rank_lastIndex_iff {t : Tokenizer} {merges : List (List UInt8)}
    (h : t.bpeRanks = ranksOf merges) :
    (∀ l r v, t.rank l r = some v ↔
        ∃ k : ℕ, v = k ∧ IsLastIndex (mergePair · = some (l, r)) merges k) ↔
      ∀ (m : ℕ) merge, merges[m]? = some merge → ' '.toUInt8 ∈ merge →
        m < 0x80000000 ∧ '\n'.toUInt8 ∉ merge := by
  constructor
  · intro hrank m merge hm hspace
    obtain ⟨⟨l, r⟩, hpair⟩ : ∃ sides, mergePair merge = some sides := ⟨_, if_pos hspace⟩
    obtain ⟨k, hle, hlast⟩ := exists_isLastIndex (p := (mergePair · = some (l, r))) hm hpair
    obtain ⟨k', hkk', -⟩ := (rank_iff h l r k).mp ((hrank l r k).mpr ⟨k, rfl, hlast⟩)
    refine ⟨lt_of_le_of_lt hle (toInt_eq_iff k' k hkk'.symm), fun hbreak => ?_⟩
    refine no_break_of_lastIndex hrank hlast ?_
    rw [(mergePair_eq hpair).2, List.mem_append, List.mem_cons] at hbreak
    rcases hbreak with hbreak | hbreak | hbreak
    · exact .inl hbreak
    · exact absurd hbreak (by decide)
    · exact .inr hbreak
  · intro hfits l r v
    have hkeys := isLastIndex_mergeKey (fun m merge hm hspace => (hfits m merge hm hspace).2) l r
    have hint {k : ℕ} (hlast : IsLastIndex (mergePair · = some (l, r)) merges k) : toInt k = k := by
      obtain ⟨x, hx, hxpair⟩ := hlast.1
      exact toInt_of_lt (hfits k x hx (mergePair_eq hxpair).1).1
    rw [rank_iff h]
    constructor
    · rintro ⟨k, rfl, hlast⟩
      exact ⟨k, hint ((hkeys k).mp hlast), (hkeys k).mp hlast⟩
    · rintro ⟨k, rfl, hlast⟩
      exact ⟨k, (hint hlast).symm, (hkeys k).mpr hlast⟩

/-- An id that is read as an `int` is what is stored exactly if it fits. -/
theorem id_eq_iff (stored : Option UInt32) (d : ℤ) :
    (stored.map fun w => w.toInt32.toInt).getD d = (stored.map fun w => (w.toNat : ℤ)).getD d ↔
      ∀ w, stored = some w → w.toNat < 0x80000000 := by
  cases stored with
  | none => simp
  | some w => simpa using toInt32_eq_iff w

/-- Where the pairs are stepped over, the tokenizer of a file is recovered exactly if its ids
and its merges fit. -/
theorem loadFromGguf_stored_iff (f : Stream) (maxAlloc : ℕ) (c : Contents) (rest : List UInt8)
    (hfile : f.bytes = c.encode ++ rest) (hmem : c.encode.length ≤ maxAlloc)
    (hnodup : (c.pairs.map KeyValue.key).Nodup) (hwalk : Walked c) :
    (∃ t, loadFromGguf f maxAlloc = some (!t.vocab.isEmpty, t) ∧ HasTokenizer c t) ↔
      FitsTables c := by
  have hread := loadFromGguf_encode hfile hmem hwalk
  have hvocab := field_tokenizerRead .tokens asStrings (·.vocab)
    (fun _ _ k => by cases k <;> rfl) hwalk.right hnodup
  have hranks := field_tokenizerRead .merges (fun v => (asStrings v).map ranksOf) (·.bpeRanks)
    (fun _ _ k => by cases k <;> rfl) hwalk.right hnodup
  have hmodel := field_tokenizerRead .model (fun v => v.asString.map isByteModel) (·.byteEncode)
    (fun _ _ k => by cases k <;> rfl) hwalk.right hnodup
  have hbos := field_tokenizerRead .bosTokenId (fun v => v.asU32.map fun w => w.toInt32.toInt)
    (·.bosId) (fun _ _ k => by cases k <;> rfl) hwalk.right hnodup
  have heos := field_tokenizerRead .eosTokenId (fun v => v.asU32.map fun w => w.toInt32.toInt)
    (·.eosId) (fun _ _ k => by cases k <;> rfl) hwalk.right hnodup
  have haddBos := field_tokenizerRead .addBosToken asBool (·.addBos)
    (fun _ _ k => by cases k <;> rfl) hwalk.right hnodup
  have haddEos := field_tokenizerRead .addEosToken asBool (·.addEos)
    (fun _ _ k => by cases k <;> rfl) hwalk.right hnodup
  simp only [storedAs_map] at hranks hmodel hbos heos
  have hmerges : (tokenizerRead c).bpeRanks = ranksOf (storedMerges c) := by
    rw [hranks, storedMerges]
    cases storedAs c .merges asStrings <;> rfl
  have hrank := rank_lastIndex_iff hmerges
  constructor
  · rintro ⟨t, ht, hhas⟩
    obtain rfl : tokenizerRead c = t := by
      rw [hread] at ht
      exact (Prod.mk.inj (Option.some.inj ht)).2
    exact ⟨hrank.mp hhas.rank, (id_eq_iff _ 1).mp (hbos.symm.trans hhas.bosId),
      (id_eq_iff _ 2).mp (heos.symm.trans hhas.eosId)⟩
  · exact fun hfits => ⟨tokenizerRead c, hread, hvocab, hrank.mpr hfits.merges, hmodel,
      hbos.trans ((id_eq_iff _ 1).mpr hfits.bosId), heos.trans ((id_eq_iff _ 2).mpr hfits.eosId),
      haddBos, haddEos⟩

theorem keyRight_other {kv : KeyValue} (h : keyOf (bufferString kv.key) = none) : KeyRight kv := by
  intro _ k hk
  rw [keyOf_eq_some.mpr hk.symm] at h
  cases h

theorem keyRight_name (k : TokenizerKey) {v : Value} (h : k.Typed v) : KeyRight ⟨k.name, v⟩ := by
  intro _ k' hk
  have hname : k.name = k'.name := (TokenizerKey.bufferString_name k).symm.trans hk
  obtain rfl := TokenizerKey.name_inj hname
  exact ⟨rfl, h⟩

/-- A vocabulary with a merge, behind a flag and an array of words of four bytes, with an
array of flags at the end. -/
def oneMerge : Contents where
  version := 3
  pairs :=
    [⟨ascii "b", .scalar .bool (.flag true)⟩,
      ⟨ascii "s", .array (.scalars .float32 [⟨[0, 0, 0, 0], rfl⟩, ⟨[0, 0, 128, 63], rfl⟩])⟩,
      ⟨ascii "tokenizer.ggml.eos_token_id", .scalar .uint32 (.word 2)⟩,
      ⟨ascii "tokenizer.ggml.tokens", .array (.strings [ascii "x", ascii "y", ascii "xy"])⟩,
      ⟨ascii "tokenizer.ggml.merges", .array (.strings [ascii "x y"])⟩,
      ⟨ascii "z", .array (.scalars .bool [.flag true])⟩]
  tensors := []

theorem loadFromGguf_oneMerge : ∃ t,
    loadFromGguf (.full oneMerge.encode (by decide +kernel)) 0x1000 = some (!t.vocab.isEmpty, t) ∧
      HasTokenizer oneMerge t :=
  (loadFromGguf_stored_iff _ 0x1000 oneMerge [] (List.append_nil _).symm (by decide +kernel)
    (by decide +kernel)
    { stepped := by
        have hshort : (oneMerge.pairs.dropLast.all fun kv => kv.key.length ≤ 1024) = true := by
          decide +kernel
        have hskipped : ∀ kv ∈ oneMerge.pairs.dropLast, SkippedExactly kv.value := by
          simp [oneMerge, SkippedExactly, ScalarType.size]
        exact fun kv hkv => ⟨of_decide_eq_true (List.all_eq_true.mp hshort kv hkv), hskipped kv hkv⟩
      right := by
        simp only [oneMerge, List.forall_mem_cons]
        exact ⟨keyRight_other (by decide +kernel), keyRight_other (by decide +kernel),
          keyRight_name .eosTokenId rfl, keyRight_name .tokens rfl, keyRight_name .merges rfl,
          keyRight_other (by decide +kernel), by simp⟩ }).mpr
    { merges := by
        have hmerges : storedMerges oneMerge = [ascii "x y"] := by decide +kernel
        intro m merge hm hspace
        rw [hmerges, List.getElem?_singleton] at hm
        split_ifs at hm with hzero
        obtain rfl := Option.some.inj hm
        exact ⟨by omega, by decide +kernel⟩
      bosId := by
        have hnone : storedAs oneMerge .bosTokenId Value.asU32 = none := by decide +kernel
        simp [hnone]
      eosId := by
        have htwo : storedAs oneMerge .eosTokenId Value.asU32 = some 2 := by decide +kernel
        simp [htwo] }

/-- An array of flags in front of the vocabulary. -/
def flagsFirst : Contents where
  version := 3
  pairs :=
    [⟨ascii "b", .array (.scalars .bool [.flag true])⟩,
      ⟨ascii "tokenizer.ggml.tokens", .array (.strings [ascii "x"])⟩]
  tensors := []

/-- Behind an array of flags the vocabulary is lost. -/
theorem loses_vocab_after_flags : ¬ ∀ (f : Stream) (maxAlloc : ℕ) (c : Contents)
    (rest : List UInt8), f.bytes = c.encode ++ rest → c.encode.length ≤ maxAlloc →
    (c.pairs.map KeyValue.key).Nodup → (∀ kv ∈ c.pairs, kv.value.Flat) →
    (∀ kv ∈ c.pairs, KeyRight kv) →
    ∃ t, loadFromGguf f maxAlloc = some (!t.vocab.isEmpty, t) ∧ HasTokenizer c t := by
  intro h
  obtain ⟨t, hload, hhas⟩ := h (.full flagsFirst.encode (by decide +kernel)) 0x1000 flagsFirst []
    (List.append_nil _).symm (by decide +kernel) (by decide +kernel)
    (by simp [flagsFirst, Value.Flat, Arr.Flat])
    (List.forall_mem_cons.mpr ⟨keyRight_other (by decide +kernel), List.forall_mem_singleton.mpr
      (keyRight_name .tokens rfl)⟩)
  have hlost : (loadFromGguf (.full flagsFirst.encode (by decide +kernel)) 0x1000).map
      (·.2.vocab) = some [] := by decide +kernel
  have hstored : (storedAs flagsFirst .tokens asStrings).getD [] = [ascii "x"] := by decide +kernel
  rw [hload] at hlost
  have hempty : t.vocab = [] := Option.some.inj hlost
  have hvocab := hempty.symm.trans (hhas.vocab.trans hstored)
  cases hvocab

end JLLM
