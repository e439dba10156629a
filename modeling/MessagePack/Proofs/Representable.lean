import MessagePack.Proofs.Buffering
import MessagePack.Proofs.Header

/-!
Which tags have a header, and what that header tells apart. The options decide both: the float
mode picks the variant of a float, the legacy version has strings in place of binary data.
-/

namespace MessagePack
namespace Tag

/-- No header is written for the tag. -/
def Unrepresentable (options : TagOptions) : Tag → Prop
  | .float _ | .double _ => options.float = .raw
  | .ext _ _ => options.extensions = false ∨ options.version = .v4
  | _ => False

/-- The tag as the options have it: floats in the variant of the float mode, with their bits,
and legacy binary data as a string. -/
def under (options : TagOptions) : Tag → Tag
  | .float bits | .rawFloat bits =>
      match options.float with
      | .native => .float bits
      | .raw => .rawFloat bits
  | .double bits | .rawDouble bits =>
      match options.float with
      | .native => .double bits
      | .raw => .rawDouble bits
  | .bin length =>
      match options.version with
      | .v4 => .str length
      | .v5 => .bin length
  | tag => tag

theorem same_refl (tag : Tag) : tag.same tag = true := by
  unfold same
  cases tag.integer? <;> simp

/-- An integer that is not negative is read from an unsigned form, with its value. -/
theorem integer_asRead (options : TagOptions) (value : Int64) :
    ((Tag.int value).asRead options).integer? = some value.toInt := by
  by_cases hsign : 0 ≤ value
  · have hvalue : (value.toUInt64.toNat : Int) = value.toInt := by
      rw [Int64.toNat_toUInt64_of_le hsign]
      exact Int.toNat_of_nonneg (by simpa [Int64.le_iff_toInt_le] using hsign)
    simp only [asRead, if_pos hsign, integer?, hvalue]
  · simp only [asRead, if_neg hsign, integer?]

theorem same_under {options : TagOptions} {tag : Tag} (hwritten : ¬tag.Unrepresentable options) :
    (tag.asRead options).same (tag.under options) = true := by
  cases tag with
  | int value =>
      have hvalue : (under options (.int value)).integer? = some value.toInt := rfl
      rw [same, integer_asRead options value, hvalue]
      exact beq_self_eq_true _
  | float bits | double bits =>
      have hnative : options.float = .native := by
        cases hfloat : options.float with
        | native => rfl
        | raw => exact absurd hfloat hwritten
      simp only [asRead, under, hnative]
      exact same_refl _
  | _ => exact same_refl _

end Tag

namespace Header

variable {options : TagOptions} {tag : Tag}

theorem encode_eq_error :
    (∃ error, encode options tag = .error error) ↔ tag.Unrepresentable options := by
  cases tag with
  | float bits | double bits =>
      simp only [encode, Tag.Unrepresentable]
      cases hfloat : options.float <;>
        simp [requireNativeFloats, requireFeature, hfloat, Functor.map, Except.map]
  | ext type length =>
      simp only [encode, Tag.Unrepresentable]
      cases hextensions : options.extensions with
      | false => simp
      | true =>
          by_cases hversion : options.version = .v4 <;> simp [hversion]
  | _ => simp [encode, Tag.Unrepresentable]

/-- The leading byte of a header that is written announces the header's size. -/
theorem size_of_encode {header : Bytes} (hencode : encode options tag = .ok header) :
    ∃ marker body, header = marker :: body ∧ size marker = header.length := by
  have hdecode := decode_encoded hencode
  obtain ⟨marker, body, hheader, hsize⟩ := size_of_decode hdecode
  exact ⟨marker, body, hheader, hsize.symm⟩

/-- Writing fails for the unrepresentable tags alone. Any other tag has a header of one to nine
bytes, as many as its leading byte announces, and reading it back gives the tag as the options
have it, whatever follows. -/
theorem decode_undoes_encode (options : TagOptions) (tag : Tag) :
    ((∃ error, encode options tag = .error error) ↔ tag.Unrepresentable options) ∧
      (¬tag.Unrepresentable options →
        ∃ header, encode options tag = .ok header ∧
          1 ≤ header.length ∧ header.length ≤ 9 ∧
          (∃ marker body, header = marker :: body ∧ size marker = header.length) ∧
          ∀ rest, ∃ found,
            decode options (header ++ rest) = .ok (found, header.length) ∧
              found.same (tag.under options) = true) := by
  refine ⟨encode_eq_error, fun hwritten => ?_⟩
  cases hencode : encode options tag with
  | error error => exact absurd (encode_eq_error.mp ⟨error, hencode⟩) hwritten
  | ok header =>
      obtain ⟨marker, body, rfl, hsize⟩ := size_of_encode hencode
      refine ⟨marker :: body, rfl, ?_, ?_, ⟨marker, body, rfl, hsize⟩, fun rest => ?_⟩
      · exact Nat.succ_le_succ (Nat.zero_le _)
      · exact hsize ▸ size_le marker
      · exact ⟨tag.asRead options, decode_encode hencode rest, Tag.same_under hwritten⟩

/-- A signalling NaN keeps its bits, also from one float mode to the other. -/
example : encode { float := .raw } (.rawFloat 0x7f800001) = .ok [0xca, 0x7f, 0x80, 0, 1] ∧
    decode { float := .native } [0xca, 0x7f, 0x80, 0, 1, 0xc1] = .ok (.float 0x7f800001, 5) :=
  ⟨rfl, rfl⟩

end Header
end MessagePack
