import MessagePack.Proofs.Narrow
import MessagePack.Proofs.Representable

/-!
Minimal headers. Nothing shorter than the header of a tag is read as that tag.
-/

namespace MessagePack
namespace Header

variable {options : TagOptions} {tag other : Tag}

theorem encode_of_integer {value : Int} (hinteger : tag.integer? = some value) :
    encode options tag = .ok (encodeInteger value) := by
  cases tag with
  | int number | uint number =>
      cases hinteger
      rfl
  | _ => cases hinteger

/-- Tags that are the same have one header. -/
theorem encode_same (hsame : tag.same other = true) :
    encode options tag = encode options other := by
  unfold Tag.same at hsame
  split at hsame
  · next value number hvalue hnumber =>
      have hequal : value = number := eq_of_beq hsame
      rw [encode_of_integer hvalue, encode_of_integer hnumber, hequal]
  · rw [eq_of_beq hsame]
  · cases hsame

/-- What is read is already as the options have it. -/
theorem under_of_decode {bytes : Bytes} {found : Tag} {n : Nat}
    (hdecode : decode options bytes = .ok (found, n)) : found.under options = found := by
  obtain ⟨marker, body, rfl, -⟩ := size_of_decode hdecode
  obtain ⟨-, -, haccepted, rfl⟩ := decode_cons_iff.mp hdecode
  cases hform : Form.ofMarker marker with
  | bin k =>
      rw [hform] at haccepted
      simp only [Header.tag, Tag.under, version_of_accepted haccepted rfl]
  | float | double => cases hfloat : options.float <;> simp only [Header.tag, Tag.under, hfloat]
  | _ => rfl

/-- A tag that is read is written again in no more bytes, and these are read as the same tag.
Whatever the tag, no bytes shorter than its header are read as the same tag. -/
theorem encode_minimal (options : TagOptions) :
    (∀ bytes found n, decode options bytes = .ok (found, n) →
      ∃ header, encode options found = .ok header ∧ header.length ≤ n ∧
        ∃ again, decode options header = .ok (again, header.length) ∧
          again.same found = true) ∧
    ∀ tag header, encode options tag = .ok header →
      ∀ bytes found n, bytes.length < header.length →
        decode options bytes = .ok (found, n) → found.same tag = false := by
  constructor
  · intro bytes found n hdecode
    obtain ⟨header, hencode, hlength⟩ := encode_decode_length_le hdecode
    have hwritten : ¬found.Unrepresentable options := fun hrefused => by
      obtain ⟨error, herror⟩ := encode_eq_error.mpr hrefused
      rw [hencode] at herror
      cases herror
    have hagain := decode_encoded hencode
    have hsame := Tag.same_under hwritten
    rw [under_of_decode hdecode] at hsame
    exact ⟨header, hencode, hlength, found.asRead options, hagain, hsame⟩
  · intro tag header hencode bytes found n hshort hdecode
    cases hsame : found.same tag with
    | false => rfl
    | true =>
        obtain ⟨narrow, hnarrow, hlength⟩ := encode_decode_length_le hdecode
        rw [encode_same hsame, hencode] at hnarrow
        cases hnarrow
        have hread := decode_size_pos hdecode
        omega

end Header
end MessagePack
