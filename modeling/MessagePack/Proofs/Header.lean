import MessagePack.Header

/-!
Headers read back. A header decodes to the tag it was written for, whatever follows it; only
what the header does not tell apart is lost.
-/

namespace MessagePack

/-- The tag that is read where this one was written. -/
def Tag.asRead (options : TagOptions) : Tag → Tag
  | .int value => if 0 ≤ value then .uint value.toUInt64 else .int value
  | .rawFloat bits =>
      match options.float with
      | .native => .float bits
      | .raw => .rawFloat bits
  | .rawDouble bits =>
      match options.float with
      | .native => .double bits
      | .raw => .rawDouble bits
  | .bin length =>
      match options.version with
      | .v4 => .str length
      | .v5 => .bin length
  | tag => tag

namespace Tag

theorem payloadLength_asRead (options : TagOptions) (tag : Tag) :
    (tag.asRead options).payloadLength? = tag.payloadLength? := by
  cases tag with
  | int value => simp only [asRead]; split <;> rfl
  | rawFloat bits | rawDouble bits | bin length => simp only [asRead]; split <;> rfl
  | _ => rfl

theorem childCount_asRead (options : TagOptions) (tag : Tag) :
    (tag.asRead options).childCount? = tag.childCount? := by
  cases tag with
  | int value => simp only [asRead]; split <;> rfl
  | rawFloat bits | rawDouble bits | bin length => simp only [asRead]; split <;> rfl
  | _ => rfl

theorem opens_asRead {options : TagOptions} (hversion : options.version = .v5) (tag : Tag) :
    (tag.asRead options).opens? = tag.opens? := by
  cases tag with
  | int value => simp only [asRead]; split <;> rfl
  | rawFloat bits | rawDouble bits => simp only [asRead]; split <;> rfl
  | bin length => simp only [asRead, hversion]
  | _ => rfl

theorem payloadLength_of_scalar {tag : Tag} (hopens : tag.opens? = none) :
    tag.payloadLength? = none := by
  cases tag <;> first | rfl | cases hopens

theorem childCount_of_payload {tag : Tag} {length : Nat}
    (hpayload : tag.payloadLength? = some length) : tag.childCount? = none := by
  cases tag <;> first | rfl | cases hpayload

theorem childCount_of_scalar {tag : Tag} (hopens : tag.opens? = none) :
    tag.childCount? = none := by
  cases tag <;> first | rfl | cases hopens

end Tag

theorem ofBigEndian_concat (bytes : Bytes) (byte : UInt8) :
    ofBigEndian (bytes ++ [byte]) = ofBigEndian bytes * 256 + byte.toNat := by
  simp [ofBigEndian, List.foldl_append]

theorem ofBigEndian_bigEndian (width n : Nat) :
    ofBigEndian (bigEndian width n) = n % Nat.pow 256 width := by
  induction width generalizing n with
  | zero => simp [bigEndian, ofBigEndian, Nat.mod_one]
  | succ width ih =>
      have hbyte : (UInt8.ofNat n).toNat = n % 256 := rfl
      have hpow : Nat.pow 256 (width + 1) = 256 * Nat.pow 256 width := Nat.mul_comm _ _
      rw [bigEndian, ofBigEndian_concat, ih, hbyte, hpow, Nat.mod_mul]
      omega

theorem ofBigEndian_of_lt {width n : Nat} (hn : n < Nat.pow 256 width) :
    ofBigEndian (bigEndian width n) = n := by
  rw [ofBigEndian_bigEndian, Nat.mod_eq_of_lt hn]

private theorem foldl_lt (bytes : Bytes) (value : Nat) :
    bytes.foldl (fun value byte => value * 256 + byte.toNat) value <
      (value + 1) * Nat.pow 256 bytes.length := by
  induction bytes generalizing value with
  | nil => simp
  | cons byte bytes ih =>
      have hbyte : byte.toNat < 256 := byte.toNat_lt
      have hpow : Nat.pow 256 (bytes.length + 1) = 256 * Nat.pow 256 bytes.length :=
        Nat.mul_comm _ _
      rw [List.foldl_cons, List.length_cons, hpow, ← Nat.mul_assoc]
      exact Nat.lt_of_lt_of_le (ih _) (Nat.mul_le_mul_right _ (by omega))

theorem ofBigEndian_lt (bytes : Bytes) : ofBigEndian bytes < Nat.pow 256 bytes.length := by
  have hlt := foldl_lt bytes 0
  rwa [Nat.zero_add, Nat.one_mul] at hlt

theorem signedOfBigEndian_bigEndian (width n : Nat) :
    signedOfBigEndian (bigEndian width n) = (n : Int).bmod (Nat.pow 256 width) := by
  rw [signedOfBigEndian, length_bigEndian, ofBigEndian_bigEndian, Int.natCast_emod,
    Int.emod_bmod]

/-- A signed number survives in any word that is wide enough for it. -/
theorem signedOfBigEndian_toUInt64 {width : Nat} {value : Int64}
    (hdivides : Nat.pow 256 width ∣ UInt64.size)
    (hleast : -(Nat.pow 256 width : Int) ≤ value.toInt * 2)
    (hgreatest : value.toInt * 2 < (Nat.pow 256 width : Int)) :
    signedOfBigEndian (bigEndian width value.toUInt64.toNat) = value.toInt := by
  have hvalue : (value.toUInt64.toNat : Int).bmod UInt64.size = value.toInt :=
    (BitVec.toInt_eq_toNat_bmod value.toBitVec).symm
  rw [signedOfBigEndian_bigEndian, ← Int.bmod_bmod_of_dvd hdivides, hvalue]
  exact Int.bmod_eq_of_le_mul_two hleast hgreatest

namespace Form

theorem ofMarker_marker (form : Form) : ofMarker form.marker = form := by
  cases form with
  | positiveFix value => revert value; decide
  | fixMap pairs => revert pairs; decide
  | fixArray count => revert count; decide
  | fixStr length => revert length; decide
  | nil | reserved | float | double => decide
  | bool value => revert value; decide
  | bin k | ext k | uint k | int k | fixExt k | str k | array k | map k => revert k; decide
  | negativeFix value => revert value; decide

theorem lt_wordIndex {n : Nat} (hn : n < UInt64.size) :
    n < Nat.pow 256 (wordLength (wordIndex n)) := by
  unfold wordIndex
  split
  · assumption
  · split
    · assumption
    · split <;> assumption

theorem lt_lengthIndex {n : Nat} (hn : n < UInt32.size) :
    n < Nat.pow 256 (wordLength (lengthIndex n)) := by
  unfold lengthIndex
  split
  · assumption
  · split <;> assumption

theorem lt_countIndex {n : Nat} (hn : n < UInt32.size) :
    n < Nat.pow 256 (wordLength (countIndex n + 1)) := by
  unfold countIndex
  split <;> assumption

theorem forExt_cases (n : Nat) :
    (∃ k : Fin 5, forExt n = .fixExt k ∧ n = wordLength k) ∨ forExt n = .ext (lengthIndex n) := by
  unfold forExt
  split
  · exact .inl ⟨0, rfl, rfl⟩
  · exact .inl ⟨1, rfl, rfl⟩
  · exact .inl ⟨2, rfl, rfl⟩
  · exact .inl ⟨3, rfl, rfl⟩
  · exact .inl ⟨4, rfl, rfl⟩
  · exact .inr rfl

end Form

namespace Header

variable {options : TagOptions}

/-- A header is accepted when it is all there and its form is not refused. -/
theorem decode_cons_iff {marker : UInt8} {rest : Bytes} {found : Tag} {n : Nat} :
    decode options (marker :: rest) = .ok (found, n) ↔
      n = size marker ∧ (Form.ofMarker marker).bodyLength ≤ rest.length ∧
        refusal? options (Form.ofMarker marker) = none ∧
        found = tag options.float (rest.take (Form.ofMarker marker).bodyLength)
          (Form.ofMarker marker) := by
  simp only [decode, size, List.length_take]
  by_cases hlength : (Form.ofMarker marker).bodyLength ≤ rest.length
  · rw [if_neg (by omega)]
    cases refusal? options (Form.ofMarker marker) with
    | some reason => simp
    | none =>
        simp only [Except.ok.injEq, Prod.mk.injEq, hlength, true_and]
        exact ⟨fun hdecode => ⟨hdecode.2.symm, hdecode.1.symm⟩,
          fun hdecode => ⟨hdecode.2.symm, hdecode.1.symm⟩⟩
  · rw [if_pos (by omega)]
    simp [hlength]

theorem decode_append {bytes : Bytes} {found : Tag} {n : Nat}
    (hdecode : decode options bytes = .ok (found, n)) (rest : Bytes) :
    decode options (bytes ++ rest) = .ok (found, n) := by
  cases bytes with
  | nil => cases hdecode
  | cons marker body =>
      obtain ⟨hsize, hlength, haccepted, hfound⟩ := decode_cons_iff.mp hdecode
      rw [List.cons_append]
      refine decode_cons_iff.mpr ⟨hsize, ?_, haccepted, ?_⟩
      · rw [List.length_append]
        omega
      · rw [List.take_append_of_le_length hlength]
        exact hfound

theorem decode_take {bytes : Bytes} {found : Tag} {n : Nat}
    (hdecode : decode options bytes = .ok (found, n)) :
    decode options (bytes.take n) = .ok (found, n) := by
  cases bytes with
  | nil => cases hdecode
  | cons marker body =>
      obtain ⟨rfl, hlength, haccepted, hfound⟩ := decode_cons_iff.mp hdecode
      rw [size, List.take_succ_cons]
      refine decode_cons_iff.mpr ⟨rfl, ?_, haccepted, ?_⟩
      · rw [List.length_take]
        omega
      · rw [List.take_take, Nat.min_self]
        exact hfound

theorem size_of_decode {bytes : Bytes} {found : Tag} {n : Nat}
    (hdecode : decode options bytes = .ok (found, n)) :
    ∃ marker body, bytes = marker :: body ∧ n = size marker := by
  cases bytes with
  | nil => cases hdecode
  | cons marker body => exact ⟨marker, body, rfl, (decode_cons_iff.mp hdecode).1⟩

theorem decode_split {bytes : Bytes} {found : Tag} {n : Nat}
    (hdecode : decode options bytes = .ok (found, n)) :
    ∃ header rest, bytes = header ++ rest ∧ header.length = n ∧
      decode options header = .ok (found, header.length) := by
  have hlength : (bytes.take n).length = n := by
    cases bytes with
    | nil => cases hdecode
    | cons marker body =>
        obtain ⟨rfl, hbody, -, -⟩ := decode_cons_iff.mp hdecode
        rw [size, List.take_succ_cons, List.length_cons, List.length_take_of_le hbody]
  refine ⟨bytes.take n, bytes.drop n, (List.take_append_drop n bytes).symm, hlength, ?_⟩
  rw [hlength]
  exact decode_take hdecode

/-- No header begins another. -/
theorem decode_unique {first second rest later : Bytes} {found other : Tag}
    (hfirst : decode options first = .ok (found, first.length))
    (hsecond : decode options second = .ok (other, second.length))
    (hsame : first ++ rest = second ++ later) : first = second ∧ found = other ∧ rest = later := by
  have hdecode := decode_append hfirst rest
  rw [hsame, decode_append hsecond later] at hdecode
  obtain ⟨rfl, hlength⟩ := Prod.mk.inj (Except.ok.inj hdecode)
  obtain ⟨rfl, rfl⟩ := List.append_inj hsame hlength.symm
  exact ⟨rfl, rfl, rfl⟩

/-- A header that is not all there is wanted for, whatever it would say. -/
theorem decode_short {header bytes unseen later : Bytes} {found : Tag}
    (hdecode : decode options header = .ok (found, header.length))
    (hsame : bytes ++ unseen = header ++ later) (hshort : bytes.length < header.length) :
    ∃ wanted got, decode options bytes = .error (.truncated wanted got) := by
  cases header with
  | nil => cases hdecode
  | cons marker body =>
      cases bytes with
      | nil => exact ⟨1, 0, rfl⟩
      | cons first rest =>
          obtain ⟨rfl, -⟩ := List.cons.inj hsame
          obtain ⟨hsize, -⟩ := decode_cons_iff.mp hdecode
          simp only [size, List.length_cons] at hsize hshort
          have hbody : (rest.take (Form.ofMarker first).bodyLength).length <
              (Form.ofMarker first).bodyLength := by
            rw [List.length_take]
            omega
          simp only [decode, hbody, if_true]
          exact ⟨_, _, rfl⟩

theorem decode_cut {marker : UInt8} {body : Bytes} (hshort : body.length + 1 < size marker) :
    decode options (marker :: body) = .error (.truncated (size marker) (body.length + 1)) := by
  have hbody : body.length < (Form.ofMarker marker).bodyLength := Nat.lt_of_succ_lt_succ hshort
  have htake : body.take (Form.ofMarker marker).bodyLength = body :=
    List.take_of_length_le (Nat.le_of_lt hbody)
  simp only [decode, htake, if_pos hbody, size]

theorem decode_marker (form : Form) (body rest : Bytes) (hbody : body.length = form.bodyLength)
    (haccepted : refusal? options form = none) :
    decode options (form.marker :: body ++ rest) =
      .ok (tag options.float body form, body.length + 1) := by
  have htake : (body ++ rest).take form.bodyLength = body := by
    rw [← hbody, List.take_left]
  simp only [decode, List.cons_append, Form.ofMarker_marker, htake, hbody, haccepted]
  simp

theorem decode_word (form : Form) (n : Nat) (rest : Bytes)
    (haccepted : refusal? options form = none) :
    decode options (word form n ++ rest) =
      .ok (tag options.float (bigEndian form.bodyLength n) form, (word form n).length) := by
  have hword := decode_marker form (bigEndian form.bodyLength n) rest (length_bigEndian _ _)
    haccepted
  simpa [word] using hword

theorem accepted {form : Form} (hreserved : form ≠ .reserved)
    (hlegacy : options.version = .v4 → form.inLegacy = true)
    (hextensions : form.isExt = true → options.extensions = true) :
    refusal? options form = none := by
  have hversion : ¬(options.version = .v4 ∧ (!form.inLegacy) = true) := by
    rintro ⟨hversion, hmissing⟩
    rw [hlegacy hversion] at hmissing
    cases hmissing
  have hswitch : ¬(form.isExt = true ∧ (!options.extensions) = true) := by
    rintro ⟨hext, hoff⟩
    rw [hextensions hext] at hoff
    cases hoff
  rw [refusal?, if_neg hreserved, if_neg hversion, if_neg hswitch]

theorem accepted_plain {form : Form} (hreserved : form ≠ .reserved)
    (hlegacy : form.inLegacy = true) (hext : form.isExt = false) :
    refusal? options form = none :=
  accepted hreserved (fun _ => hlegacy) fun hisExt => by rw [hext] at hisExt; cases hisExt

/-! Integers. -/

theorem decode_unsigned {n : Nat} (hn : n < UInt64.size) (rest : Bytes) :
    decode options (word (.forUnsigned n) n ++ rest) =
      .ok (.uint (UInt64.ofNat n), (word (.forUnsigned n) n).length) := by
  unfold Form.forUnsigned
  split
  · exact decode_word _ n rest (accepted_plain (by simp) rfl rfl)
  · rw [decode_word _ n rest (accepted_plain (by simp) rfl rfl)]
    simp only [tag, Form.bodyLength, ofBigEndian_of_lt (Form.lt_wordIndex hn)]

theorem signed_wordIndex {value : Int64} (hvalue : value.toInt < 0) :
    signedOfBigEndian (bigEndian
        (Form.wordLength (Form.wordIndex (2 * value.toInt.natAbs - 1))) value.toUInt64.toNat) =
      value.toInt := by
  have hleast := value.le_toInt
  unfold Form.wordIndex
  split
  · next hword =>
      refine signedOfBigEndian_toUInt64 (by decide) ?_ ?_ <;>
        simp [Form.wordLength, UInt8.size] at hword ⊢ <;> omega
  · split
    · next hword =>
        refine signedOfBigEndian_toUInt64 (by decide) ?_ ?_ <;>
          simp [Form.wordLength, UInt16.size] at hword ⊢ <;> omega
    · split
      · next hword =>
          refine signedOfBigEndian_toUInt64 (by decide) ?_ ?_ <;>
            simp [Form.wordLength, UInt32.size] at hword ⊢ <;> omega
      · refine signedOfBigEndian_toUInt64 (by decide) ?_ ?_ <;>
          simp [Form.wordLength] at hleast ⊢ <;> omega

theorem decode_negative {value : Int64} (hvalue : value.toInt < 0) (rest : Bytes) :
    decode options (word (.forNegative value.toInt.natAbs) value.toUInt64.toNat ++ rest) =
      .ok (.int value, (word (.forNegative value.toInt.natAbs) value.toUInt64.toNat).length) := by
  unfold Form.forNegative
  split
  · next hsmall =>
      have hfixed : ((32 - value.toInt.natAbs : Nat) : Int) - 32 = value.toInt := by omega
      rw [decode_word _ _ rest (accepted_plain (by simp) rfl rfl)]
      simp only [tag, hfixed, Int64.ofInt_toInt]
  · rw [decode_word _ _ rest (accepted_plain (by simp) rfl rfl)]
    simp only [tag, Form.bodyLength, signed_wordIndex hvalue, Int64.ofInt_toInt]

/-! Lengths and counts. -/

theorem decode_str (version : Version) {n : Nat} (hn : n < UInt32.size) (rest : Bytes)
    (hversion : options.version = .v4 → version = .v4) :
    decode options (word (.forStr version n) n ++ rest) =
      .ok (.str (UInt32.ofNat n), (word (.forStr version n) n).length) := by
  unfold Form.forStr
  split
  · exact decode_word _ n rest (accepted_plain (by simp) rfl rfl)
  · cases version with
    | v4 =>
        have hword : n < Nat.pow 256 (Form.wordLength
            (if n < UInt16.size then 1 else 2 : Fin 3)) := by
          split <;> assumption
        have hlegacy :
            (Form.str (if n < UInt16.size then 1 else 2)).inLegacy = true := by
          split <;> rfl
        rw [decode_word _ n rest (accepted_plain (by simp) hlegacy rfl)]
        simp only [tag, Form.bodyLength, ofBigEndian_of_lt hword]
    | v5 =>
        have hlegacy : options.version = .v4 → (Form.str (Form.lengthIndex n)).inLegacy = true :=
          fun hv4 => by cases hversion hv4
        rw [decode_word _ n rest (accepted (by simp) hlegacy fun hext => by cases hext)]
        simp only [tag, Form.bodyLength, ofBigEndian_of_lt (Form.lt_lengthIndex hn)]

theorem decode_array {n : Nat} (hn : n < UInt32.size) (rest : Bytes) :
    decode options (word (.forArray n) n ++ rest) =
      .ok (.array (UInt32.ofNat n), (word (.forArray n) n).length) := by
  unfold Form.forArray
  split
  · exact decode_word _ n rest (accepted_plain (by simp) rfl rfl)
  · rw [decode_word _ n rest (accepted_plain (by simp) rfl rfl)]
    simp only [tag, Form.bodyLength, ofBigEndian_of_lt (Form.lt_countIndex hn)]

theorem decode_map {n : Nat} (hn : n < UInt32.size) (rest : Bytes) :
    decode options (word (.forMap n) n ++ rest) =
      .ok (.map (UInt32.ofNat n), (word (.forMap n) n).length) := by
  unfold Form.forMap
  split
  · exact decode_word _ n rest (accepted_plain (by simp) rfl rfl)
  · rw [decode_word _ n rest (accepted_plain (by simp) rfl rfl)]
    simp only [tag, Form.bodyLength, ofBigEndian_of_lt (Form.lt_countIndex hn)]

theorem decode_bin {n : Nat} (hn : n < UInt32.size) (rest : Bytes)
    (hversion : options.version = .v5) :
    decode options (word (.forBin .v5 n) n ++ rest) =
      .ok (.bin (UInt32.ofNat n), (word (.forBin .v5 n) n).length) := by
  have hlegacy : options.version = .v4 → (Form.bin (Form.lengthIndex n)).inLegacy = true :=
    fun hv4 => by rw [hversion] at hv4; cases hv4
  have hform : Form.forBin .v5 n = .bin (Form.lengthIndex n) := rfl
  rw [hform, decode_word _ n rest (accepted (by simp) hlegacy fun hext => by cases hext)]
  simp only [tag, Form.bodyLength, ofBigEndian_of_lt (Form.lt_lengthIndex hn)]

theorem signedOfBigEndian_int8 (type : Int8) :
    Int8.ofInt (signedOfBigEndian [type.toUInt8]) = type := by
  have htype : (type.toUInt8.toNat : Int).bmod 256 = type.toInt :=
    (BitVec.toInt_eq_toNat_bmod type.toBitVec).symm
  simp [signedOfBigEndian, ofBigEndian, htype]

theorem decode_fixExt (type : Int8) (k : Fin 5) (rest : Bytes)
    (haccepted : refusal? options (.fixExt k) = none) :
    decode options ([(Form.fixExt k).marker, type.toUInt8] ++ rest) =
      .ok (.ext type (UInt32.ofNat (Form.wordLength k)), 2) := by
  have hdecode := decode_marker (.fixExt k) [type.toUInt8] rest rfl haccepted
  rwa [tag, signedOfBigEndian_int8] at hdecode

theorem decode_ext (type : Int8) {n : Nat} (hn : n < UInt32.size) (rest : Bytes)
    (hextensions : options.extensions = true) (hversion : options.version ≠ .v4) :
    decode options (encodeExt type n ++ rest) =
      .ok (.ext type (UInt32.ofNat n), (encodeExt type n).length) := by
  have haccepted {form : Form} (hreserved : form ≠ .reserved) : refusal? options form = none :=
    accepted hreserved (fun hv4 => absurd hv4 hversion) fun _ => hextensions
  rcases Form.forExt_cases n with ⟨k, hform, rfl⟩ | hform
  · simp only [encodeExt, hform]
    exact decode_fixExt type k rest (haccepted (by simp))
  · have hword := Form.lt_lengthIndex hn
    have hdecode := decode_marker (.ext (Form.lengthIndex n))
      (bigEndian (Form.wordLength (Form.lengthIndex n)) n ++ [type.toUInt8]) rest
      (by simp [Form.bodyLength]) (haccepted (by simp))
    have hlength : (bigEndian (Form.wordLength (Form.lengthIndex n)) n).length =
        Form.wordLength (Form.lengthIndex n) :=
      length_bigEndian _ _
    simp only [tag, List.take_left' hlength, List.drop_left' hlength, ofBigEndian_of_lt hword,
      signedOfBigEndian_int8] at hdecode
    simpa only [encodeExt, hform, List.cons_append, List.append_assoc, List.length_cons]
      using hdecode

theorem encodeInteger_nonneg {value : Int} (hvalue : 0 ≤ value) :
    encodeInteger value = word (.forUnsigned value.toNat) value.toNat :=
  if_pos hvalue

theorem decode_int (value : Int64) (rest : Bytes) :
    decode options (encodeInteger value.toInt ++ rest) =
      .ok ((Tag.int value).asRead options, (encodeInteger value.toInt).length) := by
  have hzero : 0 ≤ value ↔ 0 ≤ value.toInt := by
    rw [Int64.le_iff_toInt_le, Int64.toInt_zero]
  by_cases hsign : 0 ≤ value.toInt
  · have hnat : value.toInt.toNat = value.toUInt64.toNat :=
      (Int64.toNat_toUInt64_of_le (hzero.mpr hsign)).symm
    rw [encodeInteger_nonneg hsign, hnat, decode_unsigned value.toUInt64.toNat_lt]
    simp [Tag.asRead, hzero, hsign]
  · have hnegative : encodeInteger value.toInt =
        word (.forNegative value.toInt.natAbs) value.toUInt64.toNat := by
      rw [encodeInteger, if_neg hsign, Int64.ofInt_toInt]
    rw [hnegative, decode_negative (by omega)]
    simp [Tag.asRead, hzero, hsign]

theorem float_of_native (hnative : requireNativeFloats options = .ok ()) :
    options.float = .native := by
  cases hfloat : options.float with
  | native => rfl
  | raw => simp [requireNativeFloats, requireFeature, hfloat] at hnative

theorem requireNativeFloats_of_native (hfloat : options.float = .native) :
    requireNativeFloats options = .ok () := by
  simp [requireNativeFloats, requireFeature, hfloat]

theorem decode_float (bits : UInt32) (rest : Bytes) :
    decode options (word .float bits.toNat ++ rest) =
      .ok ((Tag.rawFloat bits).asRead options, (word .float bits.toNat).length) := by
  have hbits : ofBigEndian (bigEndian 4 bits.toNat) = bits.toNat := ofBigEndian_of_lt bits.toNat_lt
  rw [decode_word _ _ rest (accepted_plain (by simp) rfl rfl)]
  cases hfloat : options.float <;>
    simp [tag, Form.bodyLength, hbits, Tag.asRead, hfloat]

theorem decode_double (bits : UInt64) (rest : Bytes) :
    decode options (word .double bits.toNat ++ rest) =
      .ok ((Tag.rawDouble bits).asRead options, (word .double bits.toNat).length) := by
  have hbits : ofBigEndian (bigEndian 8 bits.toNat) = bits.toNat := ofBigEndian_of_lt bits.toNat_lt
  rw [decode_word _ _ rest (accepted_plain (by simp) rfl rfl)]
  cases hfloat : options.float <;>
    simp [tag, Form.bodyLength, hbits, Tag.asRead, hfloat]

/-- What is written for a tag is read as that tag. -/
theorem decode_encode {written : Tag} {header : Bytes}
    (hencode : encode options written = .ok header) (rest : Bytes) :
    decode options (header ++ rest) = .ok (written.asRead options, header.length) := by
  cases written with
  | nil =>
      cases hencode
      exact decode_marker .nil [] rest rfl (accepted_plain (by simp) rfl rfl)
  | bool value =>
      cases hencode
      exact decode_marker (.bool value) [] rest rfl (accepted_plain (by simp) rfl rfl)
  | int value =>
      cases hencode
      exact decode_int value rest
  | uint value =>
      cases hencode
      rw [encodeInteger_nonneg (Int.natCast_nonneg _), Int.toNat_natCast,
        decode_unsigned value.toNat_lt]
      simp [Tag.asRead]
  | float bits =>
      obtain ⟨_, hnative, hword⟩ := bind_eq_ok hencode
      cases hword
      rw [decode_float]
      simp [Tag.asRead, float_of_native hnative]
  | double bits =>
      obtain ⟨_, hnative, hword⟩ := bind_eq_ok hencode
      cases hword
      rw [decode_double]
      simp [Tag.asRead, float_of_native hnative]
  | rawFloat bits =>
      cases hencode
      exact decode_float bits rest
  | rawDouble bits =>
      cases hencode
      exact decode_double bits rest
  | str length =>
      cases hencode
      rw [decode_str _ length.toNat_lt rest fun hversion => hversion]
      simp [Tag.asRead]
  | bin length =>
      cases hencode
      cases hversion : options.version with
      | v4 =>
          have hform : Form.forBin .v4 length.toNat = .forStr .v4 length.toNat := rfl
          rw [hform, decode_str .v4 length.toNat_lt rest fun _ => rfl]
          simp [Tag.asRead, hversion]
      | v5 =>
          rw [decode_bin length.toNat_lt rest hversion]
          simp [Tag.asRead, hversion]
  | array count =>
      cases hencode
      rw [decode_array count.toNat_lt]
      simp [Tag.asRead]
  | map pairs =>
      cases hencode
      rw [decode_map pairs.toNat_lt]
      simp [Tag.asRead]
  | ext type length =>
      simp only [encode] at hencode
      split at hencode
      · cases hencode
      · next hextensions =>
          split at hencode
          · cases hencode
          · next hversion =>
              cases hencode
              rw [decode_ext type length.toNat_lt rest (by simpa using hextensions) hversion]
              simp [Tag.asRead]

theorem decode_encoded {written : Tag} {header : Bytes}
    (hencode : encode options written = .ok header) :
    decode options header = .ok (written.asRead options, header.length) := by
  have hdecode := decode_encode hencode []
  rwa [List.append_nil] at hdecode

end Header
end MessagePack
