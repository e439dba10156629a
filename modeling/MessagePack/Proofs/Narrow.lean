import MessagePack.Proofs.Header

/-!
Narrow headers. Whatever header a tag is read from, the one that is written for it is no longer.
-/

namespace MessagePack

theorem signedOfBigEndian_bounds {bytes : Bytes} (hpos : bytes ≠ []) :
    -(Nat.pow 256 bytes.length : Int) ≤ signedOfBigEndian bytes * 2 ∧
      signedOfBigEndian bytes * 2 < (Nat.pow 256 bytes.length : Int) := by
  have hsome : 0 < Nat.pow 256 bytes.length := Nat.pow_pos (by decide)
  have heven : Nat.pow 256 bytes.length % 2 = 0 := by
    cases bytes with
    | nil => exact absurd rfl hpos
    | cons byte bytes =>
        have hpow : Nat.pow 256 (bytes.length + 1) = Nat.pow 256 bytes.length * 256 := rfl
        rw [List.length_cons, hpow]
        omega
  have hleast := Int.le_bmod (x := (ofBigEndian bytes : Int)) hsome
  have hgreatest := Int.bmod_lt (x := (ofBigEndian bytes : Int)) hsome
  rw [signedOfBigEndian]
  omega

namespace Form

theorem wordLength_pos (k : Nat) : 0 < wordLength k := by
  induction k with
  | zero => exact Nat.one_pos
  | succ k ih => exact Nat.mul_pos (by decide) ih

theorem wordLength_wordIndex_le {n : Nat} (k : Fin 4) (hn : n < Nat.pow 256 (wordLength k)) :
    wordLength (wordIndex n) ≤ wordLength k := by
  unfold wordIndex
  match k with
  | 0 | 1 | 2 | 3 =>
      simp only [UInt8.size, UInt16.size, UInt32.size]
      simp [wordLength] at hn
      repeat' split
      all_goals decide

theorem wordLength_lengthIndex_le {n : Nat} (k : Fin 3) (hn : n < Nat.pow 256 (wordLength k)) :
    wordLength (lengthIndex n) ≤ wordLength k := by
  unfold lengthIndex
  match k with
  | 0 | 1 | 2 =>
      simp only [UInt8.size, UInt16.size]
      simp [wordLength] at hn
      repeat' split
      all_goals decide

theorem wordLength_countIndex_le {n : Nat} (k : Fin 2)
    (hn : n < Nat.pow 256 (wordLength (k + 1))) :
    wordLength (countIndex n + 1) ≤ wordLength (k + 1) := by
  unfold countIndex
  match k with
  | 0 | 1 =>
      simp only [UInt16.size]
      simp [wordLength] at hn
      repeat' split
      all_goals decide

/-! The narrowest form for a number has room for it, and no form with room for it is shorter. -/

variable {n : Nat}

theorem bodyLength_forUnsigned_le (k : Fin 4) (hn : n < Nat.pow 256 (wordLength k)) :
    (forUnsigned n).bodyLength ≤ wordLength k := by
  unfold forUnsigned
  split
  · exact Nat.zero_le _
  · exact wordLength_wordIndex_le k hn

theorem bodyLength_forNegative_le (k : Fin 4) (hpos : 0 < n)
    (hn : n * 2 ≤ Nat.pow 256 (wordLength k)) : (forNegative n).bodyLength ≤ wordLength k := by
  unfold forNegative
  split
  · exact Nat.zero_le _
  · exact wordLength_wordIndex_le k (by omega)

/-- The legacy format has no length of one byte. -/
theorem bodyLength_forStr_le {version : Version} (k : Fin 3)
    (hlegacy : version = .v4 → (Form.str k).inLegacy = true)
    (hn : n < Nat.pow 256 (wordLength k)) :
    (forStr version n).bodyLength ≤ wordLength k := by
  unfold forStr
  split
  · exact Nat.zero_le _
  · cases version with
    | v5 => exact wordLength_lengthIndex_le k hn
    | v4 =>
        match k with
        | 0 => cases hlegacy rfl
        | 1 =>
            have hword : n < UInt16.size := hn
            rw [if_pos hword]
            exact Nat.le_refl _
        | 2 => dsimp only; split <;> decide

theorem bodyLength_forArray_le (k : Fin 2) (hn : n < Nat.pow 256 (wordLength (k + 1))) :
    (forArray n).bodyLength ≤ wordLength (k + 1) := by
  unfold forArray
  split
  · exact Nat.zero_le _
  · exact wordLength_countIndex_le k hn

theorem bodyLength_forMap_le (k : Fin 2) (hn : n < Nat.pow 256 (wordLength (k + 1))) :
    (forMap n).bodyLength ≤ wordLength (k + 1) := by
  unfold forMap
  split
  · exact Nat.zero_le _
  · exact wordLength_countIndex_le k hn

theorem pow_lengthIndex_le (k : Fin 3) : Nat.pow 256 (wordLength k) ≤ UInt32.size := by
  revert k
  decide

theorem pow_countIndex_le (k : Fin 2) : Nat.pow 256 (wordLength (k + 1)) ≤ UInt32.size := by
  revert k
  decide

theorem pow_wordIndex_le (k : Fin 4) : Nat.pow 256 (wordLength k) ≤ UInt64.size := by
  revert k
  decide

end Form

namespace Header

variable {options : TagOptions} {form : Form} {body : Bytes} {n : Nat}

theorem length_word (form : Form) (n : Nat) : (word form n).length = form.bodyLength + 1 := by
  rw [word, List.length_cons, length_bigEndian]

theorem length_encodeExt_le (type : Int8) (k : Fin 3) (hn : n < Nat.pow 256 (Form.wordLength k)) :
    (encodeExt type n).length ≤ Form.wordLength k + 2 := by
  rcases Form.forExt_cases n with ⟨other, hform, -⟩ | hform
  · simp [encodeExt, hform]
  · have hindex := Form.wordLength_lengthIndex_le k hn
    simp only [encodeExt, hform, List.length_append, List.length_cons, List.length_nil,
      length_bigEndian]
    omega

theorem length_encodeInteger_le {value : Int} (k : Fin 4)
    (hleast : -(Nat.pow 256 (Form.wordLength k) : Int) ≤ value * 2)
    (hgreatest : value < (Nat.pow 256 (Form.wordLength k) : Int)) :
    (encodeInteger value).length ≤ Form.wordLength k + 1 := by
  unfold encodeInteger
  split
  · have hform := Form.bodyLength_forUnsigned_le (n := value.toNat) k (by omega)
    rw [length_word]
    omega
  · have hform := Form.bodyLength_forNegative_le (n := value.natAbs) k (by omega) (by omega)
    rw [length_word]
    omega

/-! What the forms without a word stand for is written without one. -/

theorem length_positiveFix (value : Fin 128) :
    (encodeInteger (UInt64.ofNat value).toNat).length = 1 := by
  revert value
  decide

theorem length_negativeFix (value : Fin 32) :
    (encodeInteger (Int64.ofInt (value - 32)).toInt).length = 1 := by
  revert value
  decide

theorem length_fixMap (pairs : Fin 16) :
    (word (.forMap (UInt32.ofNat pairs).toNat) (UInt32.ofNat pairs).toNat).length = 1 := by
  revert pairs
  decide

theorem length_fixArray (count : Fin 16) :
    (word (.forArray (UInt32.ofNat count).toNat) (UInt32.ofNat count).toNat).length = 1 := by
  revert count
  decide

theorem length_fixStr (version : Version) (length : Fin 32) :
    (word (.forStr version (UInt32.ofNat length).toNat) (UInt32.ofNat length).toNat).length =
      1 := by
  cases version <;> revert length <;> decide

theorem length_fixExt (type : Int8) (k : Fin 5) :
    (encodeExt type (UInt32.ofNat (Form.wordLength k)).toNat).length = 2 := by
  match k with
  | 0 | 1 | 2 | 3 | 4 => rfl

/-- A number that is read from a word is the number of the word. -/
theorem toNat_ofBigEndian {size : Nat} (hlength : body.length = size)
    (hsize : Nat.pow 256 size ≤ UInt32.size) :
    (UInt32.ofNat (ofBigEndian body)).toNat = ofBigEndian body ∧
      ofBigEndian body < Nat.pow 256 size := by
  have hlt := ofBigEndian_lt body
  rw [hlength] at hlt
  exact ⟨UInt32.toNat_ofNat_of_lt' (Nat.lt_of_lt_of_le hlt hsize), hlt⟩

theorem toNat_ofBigEndian_wide {k : Fin 4} (hlength : body.length = Form.wordLength k) :
    (UInt64.ofNat (ofBigEndian body)).toNat = ofBigEndian body ∧
      ofBigEndian body < Nat.pow 256 (Form.wordLength k) := by
  have hlt := ofBigEndian_lt body
  rw [hlength] at hlt
  exact ⟨UInt64.toNat_ofNat_of_lt' (Nat.lt_of_lt_of_le hlt (Form.pow_wordIndex_le k)), hlt⟩

theorem toInt_signedOfBigEndian {k : Fin 4} (hlength : body.length = Form.wordLength k) :
    (Int64.ofInt (signedOfBigEndian body)).toInt = signedOfBigEndian body ∧
      -(Nat.pow 256 (Form.wordLength k) : Int) ≤ signedOfBigEndian body * 2 ∧
      signedOfBigEndian body * 2 < (Nat.pow 256 (Form.wordLength k) : Int) := by
  have hword := Form.wordLength_pos k
  have hwide := Form.pow_wordIndex_le k
  have hsize : UInt64.size = 2 ^ 64 := rfl
  obtain ⟨hleast, hgreatest⟩ := signedOfBigEndian_bounds (List.ne_nil_of_length_pos
    (show 0 < body.length by omega))
  rw [hlength] at hleast hgreatest
  exact ⟨Int64.toInt_ofInt_of_le (by omega) (by omega), hleast, hgreatest⟩

theorem inLegacy_of_accepted (haccepted : refusal? options form = none)
    (hversion : options.version = .v4) : form.inLegacy = true := by
  unfold refusal? at haccepted
  split at haccepted
  · cases haccepted
  · split at haccepted
    · cases haccepted
    · next hlegacy => simpa [hversion] using hlegacy

theorem extensions_of_accepted (haccepted : refusal? options form = none)
    (hext : form.isExt = true) : options.extensions = true := by
  unfold refusal? at haccepted
  split at haccepted
  · cases haccepted
  · split at haccepted
    · cases haccepted
    · split at haccepted
      · cases haccepted
      · next hon => simpa [hext] using hon

/-- A form that the legacy format lacks is accepted in no other version than the newer one. -/
theorem version_of_accepted (haccepted : refusal? options form = none)
    (hmissing : form.inLegacy = false) : options.version = .v5 := by
  cases hversion : options.version with
  | v5 => rfl
  | v4 => cases hmissing.symm.trans (inLegacy_of_accepted haccepted hversion)

/-- The tag of any form is written in no more bytes. -/
theorem encode_tag (haccepted : refusal? options form = none)
    (hbody : body.length = form.bodyLength) :
    ∃ narrow, encode options (tag options.float body form) = .ok narrow ∧
      narrow.length ≤ form.bodyLength + 1 := by
  have hencodeExt : form.isExt = true → form.inLegacy = false → ∀ type length,
      encode options (.ext type length) = .ok (encodeExt type length.toNat) := by
    intro hext hmissing type length
    simp [encode, extensions_of_accepted haccepted hext,
      version_of_accepted haccepted hmissing]
  cases form with
  | positiveFix value => exact ⟨_, rfl, Nat.le_of_eq (length_positiveFix value)⟩
  | fixMap pairs => exact ⟨_, rfl, Nat.le_of_eq (length_fixMap pairs)⟩
  | fixArray count => exact ⟨_, rfl, Nat.le_of_eq (length_fixArray count)⟩
  | fixStr length => exact ⟨_, rfl, Nat.le_of_eq (length_fixStr _ length)⟩
  | nil => exact ⟨_, rfl, Nat.le_refl 1⟩
  | reserved => simp [refusal?] at haccepted
  | bool value => exact ⟨_, rfl, Nat.le_refl 1⟩
  | bin k =>
      obtain ⟨hnumber, hlt⟩ := toNat_ofBigEndian hbody (Form.pow_lengthIndex_le k)
      refine ⟨_, rfl, ?_⟩
      rw [version_of_accepted haccepted rfl, hnumber, length_word]
      exact Nat.succ_le_succ (Form.wordLength_lengthIndex_le k hlt)
  | ext k =>
      have hword : (body.take (Form.wordLength k)).length = Form.wordLength k := by
        rw [List.length_take, hbody]
        simp [Form.bodyLength]
      obtain ⟨hnumber, hlt⟩ := toNat_ofBigEndian hword (Form.pow_lengthIndex_le k)
      refine ⟨_, hencodeExt rfl rfl _ _, ?_⟩
      rw [hnumber]
      exact length_encodeExt_le _ k hlt
  | float =>
      cases hfloat : options.float with
      | native =>
          simp only [tag, encode, requireNativeFloats_of_native hfloat]
          exact ⟨_, rfl, Nat.le_of_eq (length_word _ _)⟩
      | raw => exact ⟨_, rfl, Nat.le_of_eq (length_word _ _)⟩
  | double =>
      cases hfloat : options.float with
      | native =>
          simp only [tag, encode, requireNativeFloats_of_native hfloat]
          exact ⟨_, rfl, Nat.le_of_eq (length_word _ _)⟩
      | raw => exact ⟨_, rfl, Nat.le_of_eq (length_word _ _)⟩
  | uint k =>
      obtain ⟨hnumber, hlt⟩ := toNat_ofBigEndian_wide hbody
      refine ⟨_, rfl, length_encodeInteger_le k ?_ ?_⟩
      · rw [hnumber]
        omega
      · rw [hnumber]
        omega
  | int k =>
      obtain ⟨hnumber, hleast, hgreatest⟩ := toInt_signedOfBigEndian hbody
      refine ⟨_, rfl, length_encodeInteger_le k ?_ ?_⟩
      · rw [hnumber]
        omega
      · rw [hnumber]
        omega
  | fixExt k =>
      exact ⟨_, hencodeExt rfl rfl _ _, Nat.le_of_eq (length_fixExt _ k)⟩
  | str k =>
      obtain ⟨hnumber, hlt⟩ := toNat_ofBigEndian hbody (Form.pow_lengthIndex_le k)
      refine ⟨_, rfl, ?_⟩
      rw [hnumber, length_word]
      exact Nat.succ_le_succ
        (Form.bodyLength_forStr_le k (fun hversion => inLegacy_of_accepted haccepted hversion) hlt)
  | array k =>
      obtain ⟨hnumber, hlt⟩ := toNat_ofBigEndian hbody (Form.pow_countIndex_le k)
      refine ⟨_, rfl, ?_⟩
      rw [hnumber, length_word]
      exact Nat.succ_le_succ (Form.bodyLength_forArray_le k hlt)
  | map k =>
      obtain ⟨hnumber, hlt⟩ := toNat_ofBigEndian hbody (Form.pow_countIndex_le k)
      refine ⟨_, rfl, ?_⟩
      rw [hnumber, length_word]
      exact Nat.succ_le_succ (Form.bodyLength_forMap_le k hlt)
  | negativeFix value => exact ⟨_, rfl, Nat.le_of_eq (length_negativeFix value)⟩

/-- A header that is read is written again in no more bytes. -/
theorem encode_decode_length_le {header : Bytes} {found : Tag}
    (hdecode : decode options header = .ok (found, n)) :
    ∃ narrow, encode options found = .ok narrow ∧ narrow.length ≤ n := by
  cases header with
  | nil => cases hdecode
  | cons marker rest =>
      obtain ⟨rfl, hlength, haccepted, rfl⟩ := decode_cons_iff.mp hdecode
      exact encode_tag haccepted (List.length_take_of_le hlength)

end Header
end MessagePack
