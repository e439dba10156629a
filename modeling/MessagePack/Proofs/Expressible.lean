import MessagePack.Proofs.Levels

/-!
Values that can be written. Whatever the options have headers for has an encoding, and where this
is short enough to be counted in 32 bits, so are all payloads and counts in the value.
-/

namespace MessagePack
namespace Value

variable {options : TagOptions} {value : Value} {items : List Value}

theorem expressibleEntries_iff (entries : List (Value × Value)) :
    ExpressibleEntries options entries ↔ ExpressibleItems options (unpaired entries) := by
  induction entries with
  | nil => exact Iff.rfl
  | cons entry entries ih =>
      rw [ExpressibleEntries, ih, unpaired, ExpressibleItems, ExpressibleItems]

theorem Expressible.element {element : Value} (hexpressible : value.Expressible options)
    (helement : element ∈ value.elements) : element.Expressible options := by
  have hitems : ∀ items : List Value, ExpressibleItems options items → element ∈ items →
      element.Expressible options := by
    intro items hitems hmember
    induction items with
    | nil => exact absurd hmember List.not_mem_nil
    | cons item items ih =>
        rcases List.mem_cons.mp hmember with rfl | hlater
        · exact hitems.1
        · exact ih hitems.2 hlater
  cases value with
  | array items => exact hitems items hexpressible helement
  | map entries =>
      exact hitems _ ((expressibleEntries_iff entries).mp hexpressible) helement
  | _ => exact absurd helement List.not_mem_nil

theorem Expressible.encode_tag (hexpressible : value.Expressible options) :
    ∃ header, Header.encode options value.tag = .ok header := by
  cases value with
  | float bits | double bits => exact ⟨_, encode_native hexpressible rfl⟩
  | ext type content =>
      obtain ⟨hversion, hextensions⟩ := hexpressible
      refine ⟨Header.encodeExt type (UInt32.ofNat content.length).toNat, ?_⟩
      simp [tag, Header.encode, hversion, hextensions]
  | _ => exact ⟨_, rfl⟩

theorem fits_of_elements (hpayload : value.payload.length < UInt32.size)
    (hlength : value.elements.length < UInt32.size) (hfits : FitsItems value.elements) :
    value.Fits := by
  cases value with
  | str _ | bin _ | ext _ _ => exact hpayload
  | array items => exact ⟨hlength, hfits⟩
  | map entries =>
      rw [elements, length_unpaired] at hlength
      exact ⟨by omega, (fitsEntries_iff entries).mpr hfits⟩
  | _ => exact True.intro

/-- The encoding is there, and has a byte at least. -/
def HasEncoding (options : TagOptions) (value : Value) : Prop :=
  ∃ bytes, value.encoding options none = .ok bytes ∧ 0 < bytes.length ∧
    (bytes.length < UInt32.size → value.Fits)

theorem hasEncoding_items (hitems : ∀ item ∈ items, item.HasEncoding options) :
    ∃ text, itemsEncoding options none items = .ok text ∧ items.length ≤ text.length ∧
      (text.length < UInt32.size → FitsItems items) := by
  induction items with
  | nil => exact ⟨[], rfl, Nat.le_refl 0, fun _ => True.intro⟩
  | cons item items ih =>
      obtain ⟨bytes, hbytes, hpos, hfits⟩ := hitems item (.head _)
      obtain ⟨text, htext, hlength, hothers⟩ :=
        ih fun other hother => hitems other (.tail _ hother)
      refine ⟨bytes ++ text, ?_, ?_, fun hshort => ?_⟩
      · rw [itemsEncoding, hbytes, htext]
        rfl
      · rw [List.length_append, List.length_cons]
        omega
      · rw [List.length_append] at hshort
        exact ⟨hfits (by omega), hothers (by omega)⟩

theorem hasEncoding_of_elements {header : Bytes}
    (hencode : Header.encode options value.tag = .ok header)
    (helements : ∀ element ∈ value.elements, element.HasEncoding options) :
    value.HasEncoding options := by
  obtain ⟨text, htext, hlength, hfits⟩ := hasEncoding_items helements
  have hheader := (Header.decode_size_pos (Header.decode_encoded hencode)).1
  refine ⟨header ++ (value.payload ++ text), ?_, ?_, fun hshort => ?_⟩
  · rw [encoding_eq, hencode, Room.entered_none]
    simp only [bind, Except.bind, htext]
    rfl
  · rw [List.length_append]
    omega
  · rw [List.length_append, List.length_append] at hshort
    exact fits_of_elements (by omega) (by omega) (hfits (by omega))

theorem Expressible.hasEncoding (hexpressible : value.Expressible options) :
    value.HasEncoding options := by
  induction value using byElements with
  | hstep value ih =>
      obtain ⟨header, hencode⟩ := hexpressible.encode_tag
      exact hasEncoding_of_elements hencode fun element helement =>
        ih element helement (hexpressible.element helement)

end Value
end MessagePack
