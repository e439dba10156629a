import Mathlib.Data.Nat.Digits.Defs
import Mathlib.Data.List.Induction
import MessagePack.Proofs.Narrow

/-!
Headers against the table of the format. The table is written row by row from the leading bytes
and knows nothing of the forms; reading follows it and looks at no byte behind the header.
-/

namespace MessagePack
namespace Table

/-- The number in a word, its most significant byte first. -/
def unsigned (word : Bytes) : Nat :=
  Nat.ofDigits 256 (word.reverse.map UInt8.toNat)

/-- The number in a word whose greatest half is negative. -/
def signed (word : Bytes) : Int :=
  if 2 * unsigned word < 256 ^ word.length then unsigned word
  else unsigned word - (256 ^ word.length : Nat)

theorem unsigned_eq (word : Bytes) : unsigned word = ofBigEndian word := by
  induction word using List.reverseRecOn with
  | nil => rfl
  | append_singleton word byte ih =>
      rw [ofBigEndian_concat, ← ih, unsigned, List.reverse_append, List.reverse_singleton,
        List.singleton_append, List.map_cons, Nat.ofDigits_cons, unsigned]
      omega

theorem signed_eq (word : Bytes) : signed word = signedOfBigEndian word := by
  have hlt := ofBigEndian_lt word
  rw [Nat.pow_eq] at hlt
  have hword : (ofBigEndian word : Int) % (256 ^ word.length : Nat) = ofBigEndian word :=
    Int.emod_eq_of_lt (Int.natCast_nonneg _) (Int.ofNat_lt.mpr hlt)
  rw [signed, signedOfBigEndian, Nat.pow_eq, Int.bmod, hword, unsigned_eq]
  split <;> split <;> omega

/-- A row of the table: the bytes of a header behind its leading byte, and the tag they stand
for. -/
inductive Row (float : FloatMode) (marker : UInt8) : Bytes → Tag → Prop
  | positiveFix {value : UInt64} (hrange : marker.toNat ≤ 0x7f)
      (hvalue : value.toNat = marker.toNat) :
      Row float marker [] (.uint value)
  | fixMap {pairs : UInt32} (hrange : 0x80 ≤ marker.toNat ∧ marker.toNat ≤ 0x8f)
      (hpairs : pairs.toNat = marker.toNat - 0x80) :
      Row float marker [] (.map pairs)
  | fixArray {count : UInt32} (hrange : 0x90 ≤ marker.toNat ∧ marker.toNat ≤ 0x9f)
      (hcount : count.toNat = marker.toNat - 0x90) :
      Row float marker [] (.array count)
  | fixStr {length : UInt32} (hrange : 0xa0 ≤ marker.toNat ∧ marker.toNat ≤ 0xbf)
      (hlength : length.toNat = marker.toNat - 0xa0) :
      Row float marker [] (.str length)
  | nil (hmarker : marker = 0xc0) : Row float marker [] .nil
  | no (hmarker : marker = 0xc2) : Row float marker [] (.bool false)
  | yes (hmarker : marker = 0xc3) : Row float marker [] (.bool true)
  | bin {word : Bytes} {length : UInt32}
      (hrow : (marker, word.length) ∈ [((0xc4 : UInt8), 1), (0xc5, 2), (0xc6, 4)])
      (hlength : length.toNat = unsigned word) :
      Row float marker word (.bin length)
  /-- The type is the last byte. -/
  | ext {word : Bytes} {byte : UInt8} {type : Int8} {length : UInt32}
      (hrow : (marker, word.length) ∈ [((0xc7 : UInt8), 1), (0xc8, 2), (0xc9, 4)])
      (hlength : length.toNat = unsigned word) (htype : type.toInt = signed [byte]) :
      Row float marker (word ++ [byte]) (.ext type length)
  | float {word : Bytes} {bits : UInt32} (hfloat : float = .native) (hmarker : marker = 0xca)
      (hword : word.length = 4) (hbits : bits.toNat = unsigned word) :
      Row float marker word (.float bits)
  | rawFloat {word : Bytes} {bits : UInt32} (hfloat : float = .raw) (hmarker : marker = 0xca)
      (hword : word.length = 4) (hbits : bits.toNat = unsigned word) :
      Row float marker word (.rawFloat bits)
  | double {word : Bytes} {bits : UInt64} (hfloat : float = .native) (hmarker : marker = 0xcb)
      (hword : word.length = 8) (hbits : bits.toNat = unsigned word) :
      Row float marker word (.double bits)
  | rawDouble {word : Bytes} {bits : UInt64} (hfloat : float = .raw) (hmarker : marker = 0xcb)
      (hword : word.length = 8) (hbits : bits.toNat = unsigned word) :
      Row float marker word (.rawDouble bits)
  | uint {word : Bytes} {value : UInt64}
      (hrow : (marker, word.length) ∈ [((0xcc : UInt8), 1), (0xcd, 2), (0xce, 4), (0xcf, 8)])
      (hvalue : value.toNat = unsigned word) :
      Row float marker word (.uint value)
  | int {word : Bytes} {value : Int64}
      (hrow : (marker, word.length) ∈ [((0xd0 : UInt8), 1), (0xd1, 2), (0xd2, 4), (0xd3, 8)])
      (hvalue : value.toInt = signed word) :
      Row float marker word (.int value)
  | fixExt {byte : UInt8} {type : Int8} {length : UInt32}
      (hrow : (marker, length) ∈
        [((0xd4 : UInt8), (1 : UInt32)), (0xd5, 2), (0xd6, 4), (0xd7, 8), (0xd8, 16)])
      (htype : type.toInt = signed [byte]) :
      Row float marker [byte] (.ext type length)
  | str {word : Bytes} {length : UInt32}
      (hrow : (marker, word.length) ∈ [((0xd9 : UInt8), 1), (0xda, 2), (0xdb, 4)])
      (hlength : length.toNat = unsigned word) :
      Row float marker word (.str length)
  | array {word : Bytes} {count : UInt32}
      (hrow : (marker, word.length) ∈ [((0xdc : UInt8), 2), (0xdd, 4)])
      (hcount : count.toNat = unsigned word) :
      Row float marker word (.array count)
  | map {word : Bytes} {pairs : UInt32}
      (hrow : (marker, word.length) ∈ [((0xde : UInt8), 2), (0xdf, 4)])
      (hpairs : pairs.toNat = unsigned word) :
      Row float marker word (.map pairs)
  | negativeFix {value : Int64} (hrange : 0xe0 ≤ marker.toNat)
      (hvalue : value.toInt = signed [marker]) :
      Row float marker [] (.int value)

/-- The leading bytes that are refused, and why. -/
inductive Refused (options : TagOptions) (marker : UInt8) : Invalid → Prop
  | reserved (hmarker : marker = 0xc1) : Refused options marker (.reservedMarker marker)
  | legacy (hversion : options.version = .v4)
      (hmissing : marker = 0xd9 ∨ 0xc4 ≤ marker ∧ marker ≤ 0xc9 ∨
        0xd4 ≤ marker ∧ marker ≤ 0xd8) :
      Refused options marker (.legacyMarker marker)
  | extension (hversion : options.version = .v5)
      (hoff : options.extensions = false)
      (hext : 0xc7 ≤ marker ∧ marker ≤ 0xc9 ∨ 0xd4 ≤ marker ∧ marker ≤ 0xd8) :
      Refused options marker .extensionsDisabled

end Table

namespace Form

theorem marker_ofMarker (marker : UInt8) : (ofMarker marker).marker = marker := by
  have hall : ∀ n : Fin 256, (ofMarker (UInt8.ofNat n)).marker = UInt8.ofNat n := by
    decide +kernel
  have hmarker := hall ⟨marker.toNat, marker.toNat_lt⟩
  rwa [UInt8.ofNat_toNat] at hmarker

theorem missing_iff (form : Form) :
    form.inLegacy = false ↔ form.marker = 0xd9 ∨ 0xc4 ≤ form.marker ∧ form.marker ≤ 0xc9 ∨
      0xd4 ≤ form.marker ∧ form.marker ≤ 0xd8 := by
  cases form with
  | positiveFix value | fixMap value | fixArray value | fixStr value | bool value
  | negativeFix value => revert value; decide
  | nil | reserved | float | double => decide
  | bin k | ext k | uint k | int k | fixExt k | str k | array k | map k => revert k; decide

theorem isExt_iff (form : Form) :
    form.isExt = true ↔ 0xc7 ≤ form.marker ∧ form.marker ≤ 0xc9 ∨
      0xd4 ≤ form.marker ∧ form.marker ≤ 0xd8 := by
  cases form with
  | positiveFix value | fixMap value | fixArray value | fixStr value | bool value
  | negativeFix value => revert value; decide
  | nil | reserved | float | double => decide
  | bin k | ext k | uint k | int k | fixExt k | str k | array k | map k => revert k; decide

/-- The legacy format has no ext. -/
theorem missing_of_isExt {form : Form} (hext : form.isExt = true) : form.inLegacy = false := by
  cases form <;> first | rfl | cases hext

end Form

namespace Table
section Word

variable {word : Bytes}

theorem toNat_unsigned {size : Nat} (hlength : word.length = size)
    (hsize : Nat.pow 256 size ≤ UInt32.size) :
    (UInt32.ofNat (ofBigEndian word)).toNat = unsigned word := by
  rw [(Header.toNat_ofBigEndian hlength hsize).1, unsigned_eq]

theorem toNat_unsigned_wide {k : Fin 4} (hlength : word.length = Form.wordLength k) :
    (UInt64.ofNat (ofBigEndian word)).toNat = unsigned word := by
  rw [(Header.toNat_ofBigEndian_wide hlength).1, unsigned_eq]

theorem toInt_signed {k : Fin 4} (hlength : word.length = Form.wordLength k) :
    (Int64.ofInt (signedOfBigEndian word)).toInt = signed word := by
  rw [(Header.toInt_signedOfBigEndian hlength).1, signed_eq]

theorem toInt_signed_byte (byte : UInt8) :
    (Int8.ofInt (signedOfBigEndian [byte])).toInt = signed [byte] := by
  have hbounds := signedOfBigEndian_bounds (List.cons_ne_nil byte [])
  have hpow : (Nat.pow 256 [byte].length : Int) = 256 := rfl
  rw [hpow] at hbounds
  rw [signed_eq, Int8.toInt_ofInt_of_le (by omega) (by omega)]

/-! A word stands for one number. -/

theorem ofBigEndian_of_unsigned {length : UInt32} (hlength : length.toNat = unsigned word) :
    UInt32.ofNat (ofBigEndian word) = length := by
  rw [← unsigned_eq, ← hlength, UInt32.ofNat_toNat]

theorem ofBigEndian_of_unsigned_wide {value : UInt64} (hvalue : value.toNat = unsigned word) :
    UInt64.ofNat (ofBigEndian word) = value := by
  rw [← unsigned_eq, ← hvalue, UInt64.ofNat_toNat]

theorem signedOfBigEndian_of_signed {value : Int64} (hvalue : value.toInt = signed word) :
    Int64.ofInt (signedOfBigEndian word) = value := by
  rw [← signed_eq, ← hvalue, Int64.ofInt_toInt]

theorem signedOfBigEndian_of_byte {byte : UInt8} {type : Int8}
    (htype : type.toInt = signed [byte]) : Int8.ofInt (signedOfBigEndian [byte]) = type := by
  rw [← signed_eq, ← htype, Int8.ofInt_toInt]

end Word

/-- The rows of a family are its forms. -/
theorem mem_rows {width : Type} {rows : List (UInt8 × width)} {marker : UInt8} {size : width}
    (form : Fin n → Form) (widthOf : Fin n → width)
    (hrows : rows = List.ofFn fun k => ((form k).marker, widthOf k)) :
    (marker, size) ∈ rows ↔ ∃ k, (form k).marker = marker ∧ widthOf k = size := by
  rw [hrows, List.mem_ofFn]
  exact exists_congr fun k => Prod.mk.injEq ..▸ Iff.rfl

namespace Row

variable {float : FloatMode} {body : Bytes}

/-- Every form but the reserved one has a row, with the tag that the form stands for. -/
theorem of_form (form : Form) (hreserved : form ≠ .reserved)
    (hbody : body.length = form.bodyLength) :
    Row float form.marker body (Header.tag float body form) := by
  cases form with
  | positiveFix value =>
      cases List.eq_nil_of_length_eq_zero hbody
      exact .positiveFix (by revert value; decide) (by revert value; decide)
  | fixMap pairs =>
      cases List.eq_nil_of_length_eq_zero hbody
      exact .fixMap (by revert pairs; decide) (by revert pairs; decide)
  | fixArray count =>
      cases List.eq_nil_of_length_eq_zero hbody
      exact .fixArray (by revert count; decide) (by revert count; decide)
  | fixStr length =>
      cases List.eq_nil_of_length_eq_zero hbody
      exact .fixStr (by revert length; decide) (by revert length; decide)
  | nil =>
      cases List.eq_nil_of_length_eq_zero hbody
      exact .nil rfl
  | reserved => exact absurd rfl hreserved
  | bool value =>
      cases List.eq_nil_of_length_eq_zero hbody
      cases value with
      | false => exact .no rfl
      | true => exact .yes rfl
  | bin k =>
      refine .bin ?_ (toNat_unsigned hbody (Form.pow_lengthIndex_le k))
      exact (mem_rows Form.bin (fun k => Form.wordLength k) (by rfl)).mpr ⟨k, rfl, hbody.symm⟩
  | ext k =>
      obtain ⟨word, byte, rfl⟩ : ∃ word byte, body = word ++ [byte] := by
        refine ⟨_, _, (List.dropLast_concat_getLast ?_).symm⟩
        exact List.ne_nil_of_length_pos (hbody ▸ Nat.succ_pos _)
      have hword : word.length = Form.wordLength k :=
        Nat.succ.inj (List.length_append.symm.trans hbody)
      simp only [Header.tag, List.take_left' hword, List.drop_left' hword]
      refine .ext ?_ (toNat_unsigned hword (Form.pow_lengthIndex_le k)) (toInt_signed_byte byte)
      exact (mem_rows Form.ext (fun k => Form.wordLength k) (by rfl)).mpr ⟨k, rfl, hword.symm⟩
  | float =>
      have hbits := toNat_unsigned hbody (by decide)
      cases float with
      | native => exact .float rfl rfl hbody hbits
      | raw => exact .rawFloat rfl rfl hbody hbits
  | double =>
      have hword : body.length = Form.wordLength (3 : Fin 4) := hbody
      have hbits := toNat_unsigned_wide hword
      cases float with
      | native => exact .double rfl rfl hbody hbits
      | raw => exact .rawDouble rfl rfl hbody hbits
  | uint k =>
      refine .uint ?_ (toNat_unsigned_wide hbody)
      exact (mem_rows Form.uint (fun k => Form.wordLength k) (by rfl)).mpr ⟨k, rfl, hbody.symm⟩
  | int k =>
      refine .int ?_ (toInt_signed hbody)
      exact (mem_rows Form.int (fun k => Form.wordLength k) (by rfl)).mpr ⟨k, rfl, hbody.symm⟩
  | fixExt k =>
      obtain ⟨byte, rfl⟩ := List.length_eq_one_iff.mp hbody
      refine .fixExt ?_ (toInt_signed_byte byte)
      exact (mem_rows Form.fixExt (fun k => UInt32.ofNat (Form.wordLength k)) (by rfl)).mpr
        ⟨k, rfl, rfl⟩
  | str k =>
      refine .str ?_ (toNat_unsigned hbody (Form.pow_lengthIndex_le k))
      exact (mem_rows Form.str (fun k => Form.wordLength k) (by rfl)).mpr ⟨k, rfl, hbody.symm⟩
  | array k =>
      refine .array ?_ (toNat_unsigned hbody (Form.pow_countIndex_le k))
      exact (mem_rows Form.array (fun k => Form.wordLength (k + 1)) (by rfl)).mpr
        ⟨k, rfl, hbody.symm⟩
  | map k =>
      refine .map ?_ (toNat_unsigned hbody (Form.pow_countIndex_le k))
      exact (mem_rows Form.map (fun k => Form.wordLength (k + 1)) (by rfl)).mpr
        ⟨k, rfl, hbody.symm⟩
  | negativeFix value =>
      cases List.eq_nil_of_length_eq_zero hbody
      exact .negativeFix (by revert value; decide) (by revert value; decide)

theorem marker_eq {marker : UInt8} {form : Form} (hcode : form.code = marker.toNat) :
    form.marker = marker := by
  rw [Form.marker, hcode, UInt8.ofNat_toNat]

/-- Every row is that of a form, which stands for its tag. -/
theorem to_form {marker : UInt8} {found : Tag} (hentry : Row float marker body found) :
    ∃ form : Form, form.marker = marker ∧ body.length = form.bodyLength ∧
      Header.tag float body form = found := by
  cases hentry with
  | @positiveFix value hrange hvalue =>
      have hfix : value.toNat < 128 := by omega
      exact ⟨.positiveFix ⟨_, hfix⟩, marker_eq hvalue, rfl,
        congrArg Tag.uint UInt64.ofNat_toNat⟩
  | @fixMap pairs hrange hpairs =>
      have hfix : pairs.toNat < 16 ∧ 0x80 + pairs.toNat = marker.toNat := by omega
      exact ⟨.fixMap ⟨_, hfix.1⟩, marker_eq hfix.2, rfl,
        congrArg Tag.map UInt32.ofNat_toNat⟩
  | @fixArray count hrange hcount =>
      have hfix : count.toNat < 16 ∧ 0x90 + count.toNat = marker.toNat := by omega
      exact ⟨.fixArray ⟨_, hfix.1⟩, marker_eq hfix.2, rfl,
        congrArg Tag.array UInt32.ofNat_toNat⟩
  | @fixStr length hrange hlength =>
      have hfix : length.toNat < 32 ∧ 0xa0 + length.toNat = marker.toNat := by omega
      exact ⟨.fixStr ⟨_, hfix.1⟩, marker_eq hfix.2, rfl,
        congrArg Tag.str UInt32.ofNat_toNat⟩
  | nil hmarker => exact ⟨.nil, hmarker.symm, rfl, rfl⟩
  | no hmarker => exact ⟨.bool false, hmarker.symm, rfl, rfl⟩
  | yes hmarker => exact ⟨.bool true, hmarker.symm, rfl, rfl⟩
  | bin hrow hlength =>
      obtain ⟨k, rfl, hword⟩ :=
        (mem_rows Form.bin (fun k => Form.wordLength k) (by rfl)).mp hrow
      refine ⟨.bin k, rfl, hword.symm, ?_⟩
      rw [Header.tag, ofBigEndian_of_unsigned hlength]
  | ext hrow hlength htype =>
      obtain ⟨k, rfl, hword⟩ :=
        (mem_rows Form.ext (fun k => Form.wordLength k) (by rfl)).mp hrow
      refine ⟨.ext k, rfl, ?_, ?_⟩
      · rw [List.length_append, ← hword]
        rfl
      · simp only [Header.tag, List.take_left' hword.symm, List.drop_left' hword.symm]
        rw [ofBigEndian_of_unsigned hlength, signedOfBigEndian_of_byte htype]
  | float hfloat hmarker hword hbits =>
      refine ⟨.float, hmarker.symm, hword, ?_⟩
      simp only [Header.tag, hfloat, ofBigEndian_of_unsigned hbits]
  | rawFloat hfloat hmarker hword hbits =>
      refine ⟨.float, hmarker.symm, hword, ?_⟩
      simp only [Header.tag, hfloat, ofBigEndian_of_unsigned hbits]
  | double hfloat hmarker hword hbits =>
      refine ⟨.double, hmarker.symm, hword, ?_⟩
      simp only [Header.tag, hfloat, ofBigEndian_of_unsigned_wide hbits]
  | rawDouble hfloat hmarker hword hbits =>
      refine ⟨.double, hmarker.symm, hword, ?_⟩
      simp only [Header.tag, hfloat, ofBigEndian_of_unsigned_wide hbits]
  | uint hrow hvalue =>
      obtain ⟨k, rfl, hword⟩ :=
        (mem_rows Form.uint (fun k => Form.wordLength k) (by rfl)).mp hrow
      refine ⟨.uint k, rfl, hword.symm, ?_⟩
      rw [Header.tag, ofBigEndian_of_unsigned_wide hvalue]
  | int hrow hvalue =>
      obtain ⟨k, rfl, hword⟩ :=
        (mem_rows Form.int (fun k => Form.wordLength k) (by rfl)).mp hrow
      refine ⟨.int k, rfl, hword.symm, ?_⟩
      rw [Header.tag, signedOfBigEndian_of_signed hvalue]
  | fixExt hrow htype =>
      obtain ⟨k, rfl, hlength⟩ :=
        (mem_rows Form.fixExt (fun k => UInt32.ofNat (Form.wordLength k)) (by rfl)).mp hrow
      refine ⟨.fixExt k, rfl, rfl, ?_⟩
      rw [Header.tag, signedOfBigEndian_of_byte htype, hlength]
  | str hrow hlength =>
      obtain ⟨k, rfl, hword⟩ :=
        (mem_rows Form.str (fun k => Form.wordLength k) (by rfl)).mp hrow
      refine ⟨.str k, rfl, hword.symm, ?_⟩
      rw [Header.tag, ofBigEndian_of_unsigned hlength]
  | array hrow hcount =>
      obtain ⟨k, rfl, hword⟩ :=
        (mem_rows Form.array (fun k => Form.wordLength (k + 1)) (by rfl)).mp hrow
      refine ⟨.array k, rfl, hword.symm, ?_⟩
      rw [Header.tag, ofBigEndian_of_unsigned hcount]
  | map hrow hpairs =>
      obtain ⟨k, rfl, hword⟩ :=
        (mem_rows Form.map (fun k => Form.wordLength (k + 1)) (by rfl)).mp hrow
      refine ⟨.map k, rfl, hword.symm, ?_⟩
      rw [Header.tag, ofBigEndian_of_unsigned hpairs]
  | negativeFix hrange hvalue =>
      have hfix : marker.toNat - 0xe0 < 32 ∧ 0xe0 + (marker.toNat - 0xe0) = marker.toNat := by
        have hbyte := marker.toNat_lt
        omega
      refine ⟨.negativeFix ⟨_, hfix.1⟩, marker_eq hfix.2, rfl, ?_⟩
      have hnumber : signed [marker] = ((marker.toNat - 0xe0 : Nat) : Int) - 32 := by
        have hhalf : ¬2 * marker.toNat < 256 ^ 1 := by omega
        simp only [signed, unsigned, List.reverse_singleton, List.map_cons, List.map_nil,
          Nat.ofDigits_singleton, List.length_singleton, if_neg hhalf]
        omega
      rw [Header.tag, ← hnumber, ← hvalue, Int64.ofInt_toInt]

end Row

section Refusal

variable {options : TagOptions}

theorem refusal_iff {form : Form} {reason : Invalid} :
    Header.refusal? options form = some reason ↔ Refused options form.marker reason := by
  constructor
  · intro hrefused
    unfold Header.refusal? at hrefused
    split at hrefused
    · next hreserved =>
        cases hreserved
        cases hrefused
        exact .reserved rfl
    · split at hrefused
      · next hlegacy =>
          cases hrefused
          exact .legacy hlegacy.1 (form.missing_iff.mp (by simpa using hlegacy.2))
      · next hlegacy =>
          split at hrefused
          · next hext =>
              cases hrefused
              have hmissing := Form.missing_of_isExt hext.1
              have hversion : options.version = .v5 := by
                cases hversion : options.version with
                | v4 => exact absurd ⟨hversion, by simp [hmissing]⟩ hlegacy
                | v5 => rfl
              exact .extension hversion (by simpa using hext.2) (form.isExt_iff.mp hext.1)
          · cases hrefused
  · intro hrefused
    cases hrefused with
    | reserved hmarker =>
        have hform : form = .reserved := by
          rw [← form.ofMarker_marker, hmarker]
          rfl
        rw [hform]
        rfl
    | legacy hversion hmissing =>
        have hlegacy := form.missing_iff.mpr hmissing
        have hreserved : form ≠ .reserved := fun hform => by
          rw [hform] at hlegacy
          cases hlegacy
        rw [Header.refusal?, if_neg hreserved, if_pos ⟨hversion, by simp [hlegacy]⟩]
    | extension hversion hoff hext =>
        have hisExt := form.isExt_iff.mpr hext
        have hreserved : form ≠ .reserved := fun hform => by
          rw [hform] at hisExt
          cases hisExt
        rw [Header.refusal?, if_neg hreserved, if_neg (by simp [hversion]),
          if_pos ⟨hisExt, by simp [hoff]⟩]

end Refusal
end Table

namespace Header

variable {options : TagOptions}

theorem decode_whole {marker : UInt8} {body : Bytes} (hwhole : body.length + 1 = size marker)
    (behind : Bytes) :
    decode options (marker :: body ++ behind) =
      match refusal? options (Form.ofMarker marker) with
      | some reason => .error (.invalid reason)
      | none => .ok (tag options.float body (Form.ofMarker marker), size marker) := by
  have hbody : body.length = (Form.ofMarker marker).bodyLength := Nat.succ.inj hwhole
  have htake : (body ++ behind).take (Form.ofMarker marker).bodyLength = body :=
    List.take_left' hbody
  cases hrefusal : refusal? options (Form.ofMarker marker) with
  | none => simp [decode, htake, hbody, hrefusal, size]
  | some reason => simp [decode, htake, hbody, hrefusal]

/-- A leading byte that is not refused has one tag for each body. -/
theorem row_iff {marker : UInt8} {body : Bytes} {found : Tag}
    (hwhole : body.length + 1 = size marker) (hreserved : Form.ofMarker marker ≠ .reserved) :
    Table.Row options.float marker body found ↔
      found = tag options.float body (Form.ofMarker marker) := by
  constructor
  · intro hentry
    obtain ⟨form, rfl, -, hfound⟩ := hentry.to_form
    rw [Form.ofMarker_marker, hfound]
  · rintro rfl
    have hentry : Table.Row options.float (Form.ofMarker marker).marker body _ :=
      .of_form _ hreserved (Nat.succ.inj hwhole)
    rwa [Form.marker_ofMarker] at hentry

/-- Too little of a header is answered by how much there is. A whole header is read without a
look behind it: some leading bytes are refused, and the others give the tag that the table has
for them, in as many bytes as the leading byte announces. No row of the table is longer or
shorter. -/
theorem decode_exact (options : TagOptions) :
    decode options [] = .error (.truncated 1 0) ∧
      ∀ marker body,
        (body.length + 1 < size marker →
          decode options (marker :: body) =
            .error (.truncated (size marker) (body.length + 1))) ∧
        (body.length + 1 = size marker →
          (∀ behind, decode options (marker :: body ++ behind) = decode options (marker :: body)) ∧
          (∀ error, decode options (marker :: body) = .error error ↔
            ∃ reason, error = .invalid reason ∧ Table.Refused options marker reason) ∧
          ((∀ reason, ¬Table.Refused options marker reason) →
            ∃ found, decode options (marker :: body) = .ok (found, size marker) ∧
              ∀ tag, Table.Row options.float marker body tag ↔ tag = found)) ∧
        ∀ tag, Table.Row options.float marker body tag → body.length + 1 = size marker := by
  refine ⟨rfl, fun marker body => ⟨decode_cut, fun hwhole => ?_, fun tag hentry => ?_⟩⟩
  · have hdecode := @decode_whole options marker body hwhole
    have hhere := hdecode []
    rw [List.append_nil] at hhere
    have hrefused : ∀ reason, refusal? options (Form.ofMarker marker) = some reason ↔
        Table.Refused options marker reason := by
      intro reason
      rw [Table.refusal_iff, Form.marker_ofMarker]
    refine ⟨fun behind => (hdecode behind).trans hhere.symm, fun error => ?_, fun haccepted => ?_⟩
    · rw [hhere]
      simp only [← hrefused]
      cases refusal? options (Form.ofMarker marker) with
      | none => simp
      | some reason => simp [eq_comm]
    · have hnone : refusal? options (Form.ofMarker marker) = none := by
        apply Option.eq_none_iff_forall_ne_some.mpr
        intro reason hsome
        exact haccepted reason ((hrefused reason).mp hsome)
      have hreserved : Form.ofMarker marker ≠ .reserved := fun hform => by
        rw [hform] at hnone
        cases hnone
      rw [hnone] at hhere
      exact ⟨_, hhere, fun tag => row_iff hwhole hreserved⟩
  · obtain ⟨form, rfl, hbody, -⟩ := hentry.to_form
    rw [hbody, size, Form.ofMarker_marker]

end Header
end MessagePack
