import MessagePack.Proofs.Transcript

/-!
Values seen alike. Whatever a value is, it is written as the header of a tag, a payload and its
elements, one after the other; a property of values holds of all of them if it passes from the
elements to the whole.
-/

namespace MessagePack
namespace Value

variable {options : TagOptions} {room : Room}

/-! The entries of a map are the elements there, two by two. -/

theorem unpaired_paired {found : List Value} {n : Nat} (hlength : found.length = 2 * n) :
    unpaired (paired found) = found ∧ (paired found).length = n := by
  induction n generalizing found with
  | zero =>
      rw [List.eq_nil_of_length_eq_zero hlength]
      exact ⟨rfl, rfl⟩
  | succ n ih =>
      match found, hlength with
      | [_], hlength =>
          simp only [List.length_cons, List.length_nil] at hlength
          omega
      | key :: value :: rest, hlength =>
          simp only [List.length_cons] at hlength
          obtain ⟨hsame, hcount⟩ := ih (show rest.length = 2 * n by omega)
          rw [paired, unpaired, hsame, List.length_cons, hcount]
          exact ⟨rfl, rfl⟩

theorem length_unpaired (entries : List (Value × Value)) :
    (unpaired entries).length = 2 * entries.length := by
  induction entries with
  | nil => rfl
  | cons entry entries ih =>
      rw [unpaired, List.length_cons, List.length_cons, List.length_cons, ih]
      omega

theorem entriesEncoding_eq (entries : List (Value × Value)) :
    entriesEncoding options room entries = itemsEncoding options room (unpaired entries) := by
  induction entries with
  | nil => rfl
  | cons entry entries ih => rw [entriesEncoding, ih, unpaired, itemsEncoding, itemsEncoding]

theorem fitsEntries_iff (entries : List (Value × Value)) :
    FitsEntries entries ↔ FitsItems (unpaired entries) := by
  induction entries with
  | nil => exact Iff.rfl
  | cons entry entries ih => rw [FitsEntries, ih, unpaired, FitsItems, FitsItems]

theorem holdsExtEntries_iff (entries : List (Value × Value)) :
    HoldsExtEntries entries ↔ HoldsExtItems (unpaired entries) := by
  induction entries with
  | nil => exact Iff.rfl
  | cons entry entries ih => rw [HoldsExtEntries, ih, unpaired, HoldsExtItems, HoldsExtItems]

theorem nodesEntries_eq (entries : List (Value × Value)) :
    nodesEntries entries = nodesItems (unpaired entries) := by
  induction entries with
  | nil => rfl
  | cons entry entries ih => rw [nodesEntries, ih, unpaired, nodesItems, nodesItems]

theorem depthEntries_eq (entries : List (Value × Value)) :
    depthEntries entries = depthItems (unpaired entries) := by
  induction entries with
  | nil => rfl
  | cons entry entries ih => rw [depthEntries, ih, unpaired, depthItems, depthItems]

/-! What a value is made of. -/

/-- The tag that announces the value. -/
def tag : Value → Tag
  | .nil => .nil
  | .bool value => .bool value
  | .int value => .int value
  | .uint value => .uint value
  | .float bits => .float bits
  | .double bits => .double bits
  | .str text => .str (UInt32.ofNat (utf8 text).length)
  | .bin content => .bin (UInt32.ofNat content.length)
  | .ext type content => .ext type (UInt32.ofNat content.length)
  | .array items => .array (UInt32.ofNat items.length)
  | .map entries => .map (UInt32.ofNat entries.length)

def payload : Value → Bytes
  | .str text => utf8 text
  | .bin content | .ext _ content => content
  | _ => []

def elements : Value → List Value
  | .array items => items
  | .map entries => unpaired entries
  | _ => []

/-- The value itself, an element of it, an element of that, and so on. -/
inductive Within : Value → Value → Prop
  | self (value : Value) : Within value value
  | element {part element value : Value} (helement : element ∈ value.elements)
      (hpart : Within part element) : Within part value

mutual

theorem byElements {motive : Value → Prop}
    (hstep : ∀ value, (∀ element ∈ value.elements, motive element) → motive value) :
    (value : Value) → motive value
  | .array items => hstep _ (byElements_items hstep items)
  | .map entries => hstep _ (byElements_entries hstep entries)
  | .nil | .bool _ | .int _ | .uint _ | .float _ | .double _ | .str _ | .bin _ | .ext _ _ =>
      hstep _ fun _ hnone => absurd hnone List.not_mem_nil

theorem byElements_items {motive : Value → Prop}
    (hstep : ∀ value, (∀ element ∈ value.elements, motive element) → motive value) :
    (items : List Value) → ∀ item ∈ items, motive item
  | [], _, hnone => absurd hnone List.not_mem_nil
  | item :: items, other, hother => by
      rcases List.mem_cons.mp hother with hsame | hother
      · rw [hsame]
        exact byElements hstep item
      · exact byElements_items hstep items other hother

theorem byElements_entries {motive : Value → Prop}
    (hstep : ∀ value, (∀ element ∈ value.elements, motive element) → motive value) :
    (entries : List (Value × Value)) → ∀ element ∈ unpaired entries, motive element
  | [], _, hnone => absurd hnone List.not_mem_nil
  | (key, value) :: entries, other, hother => by
      rcases List.mem_cons.mp hother with hsame | hother
      · rw [hsame]
        exact byElements hstep key
      · rcases List.mem_cons.mp hother with hsame | hother
        · rw [hsame]
          exact byElements hstep value
        · exact byElements_entries hstep entries other hother

end

theorem fits_elements {value : Value} (hfits : value.Fits) : FitsItems value.elements := by
  cases value with
  | array items => exact hfits.2
  | map entries => exact (fitsEntries_iff entries).mp hfits.2
  | _ => exact True.intro

theorem length_payload {value : Value} (hfits : value.Fits) :
    value.payload.length = value.tag.payloadLength?.getD 0 := by
  cases value with
  | str _ | bin _ | ext _ _ => exact (UInt32.toNat_ofNat_of_lt' hfits).symm
  | _ => rfl

theorem length_elements {value : Value} (hfits : value.Fits) :
    value.elements.length = value.tag.childCount?.getD 0 := by
  cases value with
  | array items => exact (UInt32.toNat_ofNat_of_lt' hfits.1).symm
  | map entries =>
      rw [elements, length_unpaired]
      exact (congrArg (2 * ·) (UInt32.toNat_ofNat_of_lt' hfits.1)).symm
  | _ => rfl

theorem depth_eq (value : Value) :
    value.depth = if value.tag.childCount? = none then 0 else depthItems value.elements + 1 := by
  cases value with
  | map entries => exact congrArg (· + 1) (depthEntries_eq entries)
  | _ => rfl

theorem nodes_eq (value : Value) : value.nodes = nodesItems value.elements + 1 := by
  cases value with
  | map entries => exact congrArg (· + 1) (nodesEntries_eq entries)
  | _ => rfl

theorem holdsExt_element {value element : Value} (helement : element ∈ value.elements)
    (hext : element.HoldsExt) : value.HoldsExt := by
  have hitems : ∀ items : List Value, element ∈ items → HoldsExtItems items := by
    intro items hmember
    induction items with
    | nil => exact absurd hmember List.not_mem_nil
    | cons item items ih =>
        rcases List.mem_cons.mp hmember with rfl | hlater
        · exact .inl hext
        · exact .inr (ih hlater)
  cases value with
  | array items => exact hitems items helement
  | map entries => exact (holdsExtEntries_iff entries).mpr (hitems _ helement)
  | _ => exact absurd helement List.not_mem_nil

end Value

/-- The room for what a tag opens, where there is as much. -/
def Room.entered (tag : Tag) (room : Room) : Except Error Room :=
  if tag.isCompound then room.deeper else .ok room

/-- A value is written as the header of its tag, its payload and its elements. -/
theorem Value.encoding_eq {options : TagOptions} (value : Value) (room : Room) :
    value.encoding options room = (do
      let header ← Header.encode options value.tag
      let inner ← room.entered value.tag
      let text ← itemsEncoding options inner value.elements
      return header ++ (value.payload ++ text)) := by
  have hbare : ∀ header : Except Error Bytes,
      header = header >>= fun bytes => .ok (bytes ++ ([] ++ [])) := by
    intro header
    cases header with
    | error error => rfl
    | ok bytes => exact congrArg Except.ok (List.append_nil bytes).symm
  cases value with
  | str _ | bin _ | ext _ _ =>
      rw [encoding, enclosed]
      refine bind_congr fun header => bind_congr fun inner => ?_
      exact congrArg (fun text => Except.ok (header ++ text)) (List.append_nil _).symm
  | array items => rfl
  | map entries =>
      simp only [encoding, enclosed, entriesEncoding_eq]
      rfl
  | _ => exact hbare _

end MessagePack
