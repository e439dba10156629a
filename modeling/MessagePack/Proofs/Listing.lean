import MessagePack.Proofs.Faithful
import MessagePack.Proofs.Levels

/-!
What a text lists: the tags of its headers from left to right, each with the payload behind it.
The nodes of a tree in preorder are what its bytes list, and so are the parts of a value where it
is written.
-/

namespace MessagePack

/-- The tags of the headers in a text, and the payloads of those that announce one. -/
inductive Header.Listing (options : TagOptions) : Bytes → List (Tag × Option Bytes) → Prop
  | done : Listing options [] []
  | next {header payload rest : Bytes} {tag : Tag} {found : List (Tag × Option Bytes)}
      (hheader : Header.decode options header = .ok (tag, header.length))
      (hpayload : payload.length = tag.payloadLength?.getD 0)
      (hrest : Listing options rest found) :
      Listing options (header ++ (payload ++ rest))
        ((tag, tag.payloadLength?.map fun _ => payload) :: found)

namespace Header.Listing

variable {options : TagOptions} {text rest : Bytes} {found other : List (Tag × Option Bytes)}

theorem append (hlisting : Listing options text found) (hrest : Listing options rest other) :
    Listing options (text ++ rest) (found ++ other) := by
  induction hlisting with
  | done => exact hrest
  | next hheader hpayload _ ih =>
      rw [List.append_assoc, List.append_assoc]
      exact .next hheader hpayload ih

/-- A text lists one thing only. -/
theorem unique (hlisting : Listing options text found) (hother : Listing options text other) :
    found = other := by
  induction hlisting generalizing other with
  | done =>
      generalize hempty : ([] : Bytes) = text at hother
      cases hother with
      | done => rfl
      | next hheader =>
          have hpos := Header.decode_size_pos hheader
          rw [(List.append_eq_nil_iff.mp hempty.symm).1] at hpos
          exact absurd hpos.1 (Nat.lt_irrefl 0)
  | @next header payload rest tag found hheader hpayload hrest ih =>
      generalize hsame : header ++ (payload ++ rest) = text at hother
      cases hother with
      | done =>
          have hpos := Header.decode_size_pos hheader
          rw [(List.append_eq_nil_iff.mp hsame).1] at hpos
          exact absurd hpos.1 (Nat.lt_irrefl 0)
      | next hfirst hcontent hlater =>
          obtain ⟨rfl, rfl, hbehind⟩ := Header.decode_unique hheader hfirst hsame
          obtain ⟨rfl, rfl⟩ := List.append_inj hbehind (hpayload.trans hcontent.symm)
          rw [ih hlater]

end Header.Listing

/-- The payload that a tag announces, where its header ends in a text. -/
def Header.slice (whole : Bytes) (tag : Tag) (start : Nat) : Option Bytes :=
  tag.payloadLength?.map fun length => (whole.drop start).take length

theorem Header.Series.listing {options : TagOptions} {position : Nat} {text whole : Bytes}
    {found : List (Tag × Nat)} (hseries : Series options position text found)
    (hwhole : whole.drop position = text) :
    Listing options text (found.map fun place => (place.1, slice whole place.1 place.2)) := by
  induction hseries with
  | done => exact .done
  | @next position header payload rest tag found hdecode hpayload _ ih =>
      have hheader := Header.decode_take hdecode
      rw [List.take_left] at hheader
      have hbehind : whole.drop (position + header.length) = payload ++ rest := by
        rw [← List.drop_drop, hwhole, List.drop_left]
      have hrest : whole.drop (position + header.length + payload.length) = rest := by
        rw [← List.drop_drop, hbehind, List.drop_left]
      have hslice : slice whole tag (position + header.length) =
          tag.payloadLength?.map fun _ => payload := by
        rw [slice, hbehind]
        cases hlength : tag.payloadLength? with
        | none => rfl
        | some length =>
            rw [hlength, Option.getD_some] at hpayload
            rw [Option.map_some, Option.map_some, ← hpayload, List.take_left]
      rw [List.map_cons, hslice]
      exact .next hheader hpayload (ih hrest)

namespace Tree

/-- The tags of all nodes in preorder, with their payloads. -/
def outline (tree : Tree) : List (Tag × Option Bytes) :=
  tree.preorder.map fun id => (tree.tagAt id, tree.payload? id)

theorem payload_eq_slice (tree : Tree) (id : NodeId) :
    tree.payload? id =
      Header.slice tree.input.toList (tree.tagAt id) (tree.arena.get id).start := by
  rw [payload?, Header.slice, tagAt]
  refine congrArg (Option.map · _) (funext fun length => ?_)
  simp

variable {config : Config} {maxDepth : Nat} {bytes : Bytes} {tree : Tree}

theorem listing_of_parseWithin (hparse : parseWithin config maxDepth bytes = .ok tree) :
    Header.Listing config.tagOptions bytes tree.outline := by
  -- Any bound on the slots will do here: nothing is said of how they are numbered.
  obtain ⟨hinput, trace, hrecorded⟩ := parseFront_recorded (parseFront_of_parseWithin hparse)
    (Nat.le_max_left _ bytes.length) (Nat.le_max_right _ _)
  rw [List.append_nil] at hinput
  have hseries := hrecorded.series
  rw [hrecorded.series_preorder] at hseries
  have hlisting := hseries.listing (show tree.input.toList.drop 0 = tree.input.toList from rfl)
  rw [List.map_map, ← hinput] at hlisting
  have houtline : tree.outline = tree.preorder.map fun id =>
      (tree.tagAt id, Header.slice bytes (tree.tagAt id) (tree.arena.get id).start) := by
    rw [outline, hinput]
    exact List.map_congr_left fun id _ => congrArg _ (tree.payload_eq_slice id)
  rw [houtline]
  exact hlisting

end Tree

namespace Value

def payload? : Value → Option Bytes
  | .str text => some (utf8 text)
  | .bin content | .ext _ content => some content
  | _ => none

theorem payload?_eq (value : Value) :
    value.payload? = value.tag.payloadLength?.map fun _ => value.payload := by
  cases value <;> rfl

mutual

/-- The parts of a value in preorder, each by its tag as it is read and its payload. -/
def outline (read : Tag → Tag) : Value → List (Tag × Option Bytes)
  | .array items => (read (tag (.array items)), none) :: outlineItems read items
  | .map entries => (read (tag (.map entries)), none) :: outlineEntries read entries
  | value => [(read value.tag, value.payload?)]

def outlineItems (read : Tag → Tag) : List Value → List (Tag × Option Bytes)
  | [] => []
  | item :: items => outline read item ++ outlineItems read items

def outlineEntries (read : Tag → Tag) : List (Value × Value) → List (Tag × Option Bytes)
  | [] => []
  | (key, value) :: entries =>
      outline read key ++ (outline read value ++ outlineEntries read entries)

end

variable {options : TagOptions} {read : Tag → Tag}

theorem outlineEntries_eq (entries : List (Value × Value)) :
    outlineEntries read entries = outlineItems read (unpaired entries) := by
  induction entries with
  | nil => rfl
  | cons entry entries ih => rw [outlineEntries, ih, unpaired, outlineItems, outlineItems]

theorem outline_eq (value : Value) :
    value.outline read = (read value.tag, value.payload?) :: outlineItems read value.elements := by
  cases value with
  | map entries => exact congrArg _ (outlineEntries_eq entries)
  | _ => rfl

theorem listing_items {items : List Value} {text : Bytes}
    (hitems : ∀ item ∈ items, ∀ bytes, item.Fits → item.encoding options none = .ok bytes →
      Header.Listing options bytes (item.outline read))
    (hfits : FitsItems items) (htext : itemsEncoding options none items = .ok text) :
    Header.Listing options text (outlineItems read items) := by
  induction items generalizing text with
  | nil =>
      cases htext
      exact .done
  | cons item items ih =>
      obtain ⟨head, hhead, hrest⟩ := bind_eq_ok htext
      obtain ⟨tail, htail, hpure⟩ := bind_eq_ok hrest
      cases hpure
      exact (hitems item (.head _) head hfits.1 hhead).append
        (ih (fun other hother => hitems other (.tail _ hother)) hfits.2 htail)

/-- What is written of a value lists the parts of it, each as its header is read. -/
theorem listing_encoding (hread : ∀ value : Value, value.tag.asRead options = read value.tag)
    {value : Value} {bytes : Bytes} (hfits : value.Fits)
    (hencoding : value.encoding options none = .ok bytes) :
    Header.Listing options bytes (value.outline read) := by
  induction value using byElements generalizing bytes with
  | hstep value ih =>
      rw [encoding_eq] at hencoding
      obtain ⟨header, hencode, hrest⟩ := bind_eq_ok hencoding
      obtain ⟨inner, hinner, hrest⟩ := bind_eq_ok hrest
      rw [Room.entered_none] at hinner
      cases hinner
      obtain ⟨text, htext, hpure⟩ := bind_eq_ok hrest
      cases hpure
      have hitems : Header.Listing options text (outlineItems read value.elements) :=
        listing_items (fun element helement bytes hfits => ih element helement hfits)
          (fits_elements hfits) htext
      have hpayload : value.payload.length = (value.tag.asRead options).payloadLength?.getD 0 := by
        rw [Tag.payloadLength_asRead, length_payload hfits]
      have hlisting := Header.Listing.next (Header.decode_encoded hencode) hpayload hitems
      rwa [Tag.payloadLength_asRead, ← payload?_eq, hread, ← outline_eq] at hlisting

end Value
end MessagePack
