import Mathlib.Data.List.Basic

/-! UTF-8 validity of byte lists, as it is for the strings of the language. What is in
front of a valid text can be cut off, and an ASCII byte is a character of its own. -/

namespace Utf8

/-- The bytes of some characters. -/
def Valid (bytes : List UInt8) : Prop := bytes.toByteArray.IsValidUTF8

instance (bytes : List UInt8) : Decidable (Valid bytes) :=
  inferInstanceAs (Decidable bytes.toByteArray.IsValidUTF8)

theorem valid_iff {bytes : List UInt8} :
    Valid bytes ↔ ∃ cs : List Char, bytes = cs.flatMap String.utf8EncodeChar := by
  constructor
  · rintro ⟨cs, hcs⟩
    refine ⟨cs, ?_⟩
    have hdata := congrArg (fun b => b.data.toList) hcs
    simpa [List.utf8Encode] using hdata
  · rintro ⟨cs, rfl⟩
    exact ⟨cs, rfl⟩

@[simp] theorem valid_nil : Valid [] := valid_iff.mpr ⟨[], rfl⟩

theorem Valid.append {a b : List UInt8} (ha : Valid a) (hb : Valid b) : Valid (a ++ b) := by
  obtain ⟨cs, rfl⟩ := valid_iff.mp ha
  obtain ⟨ds, rfl⟩ := valid_iff.mp hb
  exact valid_iff.mpr ⟨cs ++ ds, List.flatMap_append.symm⟩

theorem valid_encodeChar_append_iff (c : Char) (b : List UInt8) :
    Valid (String.utf8EncodeChar c ++ b) ↔ Valid b := by
  have h := @ByteArray.isValidUTF8_utf8Encode_singleton_append_iff b.toByteArray c
  rw [List.utf8Encode_singleton, ← List.toByteArray_append] at h
  exact h

/-- A valid text in front does not matter. -/
theorem valid_append_iff {a b : List UInt8} (ha : Valid a) : Valid (a ++ b) ↔ Valid b := by
  obtain ⟨cs, rfl⟩ := valid_iff.mp ha
  clear ha
  induction cs with
  | nil => rfl
  | cons c cs ih =>
    rw [List.flatMap_cons, List.append_assoc, valid_encodeChar_append_iff, ih]

/-- ASCII text is valid. -/
theorem valid_of_ascii {a : List UInt8} (h : ∀ b ∈ a, b < 0x80) : Valid a := by
  induction a with
  | nil => exact valid_nil
  | cons b a ih =>
    obtain ⟨hb, ha⟩ := List.forall_mem_cons.mp h
    have hlt : b.toNat < 128 := UInt8.lt_iff_toNat_lt.mp hb
    have hval : b.toUInt32.isValidChar := .inl (by rw [UInt8.toNat_toUInt32]; omega)
    have hchar : String.utf8EncodeChar ⟨b.toUInt32, hval⟩ = [b] := by
      unfold String.utf8EncodeChar
      simp only [UInt8.toNat_toUInt32]
      rw [if_pos (by omega), UInt8.ofNat_toNat]
    have hsplit : b :: a = String.utf8EncodeChar ⟨b.toUInt32, hval⟩ ++ a := by
      rw [hchar, List.singleton_append]
    rw [hsplit, valid_encodeChar_append_iff]
    exact ih ha

theorem le_ofNat {n : ℕ} (h : 128 ≤ n) (h' : n < 256) : (0x80 : UInt8) ≤ UInt8.ofNat n := by
  rw [UInt8.le_iff_toNat_le, UInt8.toNat_ofNat_of_lt' h']
  exact h

/-- Only the first byte of a character can be ASCII, and then it is all of it. -/
theorem encodeChar_eq_cons (c : Char) :
    ∃ b tail, String.utf8EncodeChar c = b :: tail ∧ (∀ x ∈ tail, 0x80 ≤ x) ∧
      (b < 0x80 → tail = []) := by
  have hcont (n : ℕ) {tail : List UInt8} (h : ∀ x ∈ tail, (0x80 : UInt8) ≤ x) :
      ∀ x ∈ UInt8.ofNat (n % 64 + 128) :: tail, (0x80 : UInt8) ≤ x :=
    List.forall_mem_cons.mpr ⟨le_ofNat (by omega) (by omega), h⟩
  have hnil : ∀ x ∈ ([] : List UInt8), (0x80 : UInt8) ≤ x := by simp
  unfold String.utf8EncodeChar
  simp only
  split_ifs
  · exact ⟨_, _, rfl, hnil, fun _ => rfl⟩
  · refine ⟨_, _, rfl, hcont _ hnil, fun h => absurd h (UInt8.not_lt.mpr ?_)⟩
    exact le_ofNat (by omega) (by omega)
  · refine ⟨_, _, rfl, hcont _ (hcont _ hnil), fun h => absurd h (UInt8.not_lt.mpr ?_)⟩
    exact le_ofNat (by omega) (by omega)
  · refine ⟨_, _, rfl, hcont _ (hcont _ (hcont _ hnil)), fun h => absurd h (UInt8.not_lt.mpr ?_)⟩
    exact le_ofNat (by omega) (by omega)

/-- An ASCII byte stands between characters. -/
theorem Valid.split_ascii {a b : List UInt8} {x : UInt8} (h : Valid (a ++ x :: b))
    (hx : x < 0x80) : Valid a ∧ Valid b := by
  obtain ⟨cs, hcs⟩ := valid_iff.mp h
  clear h
  induction cs generalizing a with
  | nil => simp at hcs
  | cons c cs ih =>
    obtain ⟨lead, tail, hc, htail, hlead⟩ := encodeChar_eq_cons c
    rw [List.flatMap_cons, hc, List.cons_append] at hcs
    have hrest : Valid (cs.flatMap String.utf8EncodeChar) := valid_iff.mpr ⟨cs, rfl⟩
    cases a with
    | nil =>
      obtain ⟨rfl, hb⟩ := List.cons.inj hcs
      rw [hlead hx, List.nil_append] at hb
      exact ⟨valid_nil, hb ▸ hrest⟩
    | cons y a =>
      obtain ⟨rfl, ha⟩ := List.cons.inj hcs
      rcases List.append_eq_append_iff.mp ha with ⟨w, hw, hxb⟩ | ⟨w, hw, hcs'⟩
      · -- the byte would be in the middle of this character
        cases w with
        | nil =>
          obtain ⟨-, hb⟩ := @ih [] hxb
          rw [List.append_nil] at hw
          rw [← hw, ← hc]
          exact ⟨valid_iff.mpr ⟨[c], by simp⟩, hb⟩
        | cons z w =>
          obtain ⟨rfl, -⟩ := List.cons.inj hxb
          exact absurd hx (UInt8.not_lt.mpr (htail _ (by simp [hw])))
      · obtain ⟨ha', hb⟩ := ih hcs'.symm
        refine ⟨?_, hb⟩
        rw [hw, ← List.cons_append, ← hc]
        exact (valid_encodeChar_append_iff c w).mpr ha'

/-- The characters of a valid text are the first ones of what continues it. -/
theorem isPrefix_of_encode_append {cs ds : List Char} {rest : List UInt8}
    (h : cs.flatMap String.utf8EncodeChar ++ rest = ds.flatMap String.utf8EncodeChar) : cs <+: ds := by
  refine List.isPrefix_of_utf8Encode_append_eq_utf8Encode rest.toByteArray ?_
  rw [List.utf8Encode, ← List.toByteArray_append, h, List.utf8Encode]

/-- Cuts between valid pieces of a text are cuts between its characters. -/
theorem take_flatten_of_valid {cs : List Char} {pieces : List (List UInt8)}
    (htext : pieces.flatten = cs.flatMap String.utf8EncodeChar)
    (hvalid : ∀ piece ∈ pieces, Valid piece) (k : ℕ) :
    ∃ m, (pieces.take k).flatten = (cs.take m).flatMap String.utf8EncodeChar := by
  have hfront (l : List (List UInt8)) (hl : ∀ piece ∈ l, Valid piece) : Valid l.flatten := by
    induction l with
    | nil => exact valid_nil
    | cons piece l ih =>
      obtain ⟨hpiece, hl⟩ := List.forall_mem_cons.mp hl
      exact hpiece.append (ih hl)
  obtain ⟨ds, hds⟩ := valid_iff.mp
    (hfront (pieces.take k) fun piece hmem => hvalid piece (List.mem_of_mem_take hmem))
  have hsplit : (pieces.take k).flatten ++ (pieces.drop k).flatten = pieces.flatten := by
    rw [← List.flatten_append, List.take_append_drop]
  rw [hds, htext] at hsplit
  refine ⟨ds.length, ?_⟩
  rw [hds, ← List.prefix_iff_eq_take.mp (isPrefix_of_encode_append hsplit)]

end Utf8
