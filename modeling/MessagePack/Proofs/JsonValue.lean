import MessagePack.Json.Encode
import MessagePack.Proofs.Expressible
import MessagePack.Proofs.TextOrder

/-!
JSON documents as values. A document is written as the value it stands for; nothing of the value
is lost on the way back, and the members of an object come back as they stood.
-/

namespace MessagePack
namespace Json

mutual

/-- What there is to write of a document where floats are native. -/
def value : Json → Value
  | .null => .nil
  | .bool value => .bool value
  | .unsigned value => .uint value
  | .negative value => .int value
  | .double bits => .double bits
  | .string text => .str text
  | .array items => .array (values items)
  | .object members => .map (entries members)

def values : List Json → List Value
  | [] => []
  | item :: items => value item :: values items

def entries : List (String × Json) → List (Value × Value)
  | [] => []
  | (key, document) :: members => (.str key, value document) :: entries members

end

mutual

/-- A document in the form that reading gives it: an integer is negative only if it is below zero,
a double is a finite number, and members stand in the order of the bytes of their keys, no two with
the same key. -/
def Proper : Json → Prop
  | .negative value => value < 0
  | .double bits => ∃ negative significand exponent,
      Ieee.double.datum bits.toNat = .finite negative significand exponent
  | .array items => ProperItems items
  | .object members =>
      (members.Pairwise fun left right => utf8 left.1 < utf8 right.1) ∧ ProperMembers members
  | _ => True

def ProperItems : List Json → Prop
  | [] => True
  | item :: items => Proper item ∧ ProperItems items

def ProperMembers : List (String × Json) → Prop
  | [] => True
  | (_, document) :: members => Proper document ∧ ProperMembers members

end

theorem values_eq_map (items : List Json) : values items = items.map value := by
  induction items with
  | nil => rfl
  | cons item items ih => rw [values, ih, List.map_cons]

theorem entries_eq_map (members : List (String × Json)) :
    entries members = members.map fun (key, document) => (.str key, document.value) := by
  induction members with
  | nil => rfl
  | cons member members ih => rw [entries, ih, List.map_cons]

theorem ProperItems.item {items : List Json} {item : Json} (hproper : ProperItems items)
    (hitem : item ∈ items) : item.Proper := by
  induction items with
  | nil => exact absurd hitem List.not_mem_nil
  | cons first items ih =>
      rcases List.mem_cons.mp hitem with rfl | hitem
      · exact hproper.1
      · exact ih hproper.2 hitem

theorem ProperMembers.member {members : List (String × Json)} {member : String × Json}
    (hproper : ProperMembers members) (hmember : member ∈ members) : member.2.Proper := by
  induction members with
  | nil => exact absurd hmember List.not_mem_nil
  | cons first members ih =>
      rcases List.mem_cons.mp hmember with rfl | hmember
      · exact hproper.1
      · exact ih hproper.2 hmember

/-! Writing. -/

mutual

theorem write_value (framing : Value.Framing) :
    (document : Json) → document.write framing .native = document.value.write framing
  | .null | .bool _ | .unsigned _ | .negative _ | .double _ | .string _ => rfl
  | .array items => by
      rw [write, value, Value.write, writeItems_values framing items, values_eq_map,
        List.length_map]
  | .object members => by
      rw [write, value, Value.write, writeMembers_entries framing members, entries_eq_map,
        List.length_map]

theorem writeItems_values (framing : Value.Framing) :
    (items : List Json) →
      writeItems framing .native items = Value.writeItems framing (values items)
  | [] => rfl
  | item :: items => by
      rw [writeItems, values, Value.writeItems, write_value framing item,
        writeItems_values framing items]

theorem writeMembers_entries (framing : Value.Framing) :
    (members : List (String × Json)) →
      writeMembers framing .native members = Value.writeEntries framing (entries members)
  | [] => rfl
  | (key, document) :: members => by
      rw [writeMembers, entries, Value.writeEntries, write_value framing document,
        writeMembers_entries framing members]
      rfl

end

variable {options : TagOptions}

mutual

theorem expressible_value (hfloat : options.float = .native) :
    (document : Json) → document.value.Expressible options
  | .null | .bool _ | .unsigned _ | .negative _ | .string _ => True.intro
  | .double _ => hfloat
  | .array items => expressible_values hfloat items
  | .object members => expressible_entries hfloat members

theorem expressible_values (hfloat : options.float = .native) :
    (items : List Json) → Value.ExpressibleItems options (values items)
  | [] => True.intro
  | item :: items => ⟨expressible_value hfloat item, expressible_values hfloat items⟩

theorem expressible_entries (hfloat : options.float = .native) :
    (members : List (String × Json)) → Value.ExpressibleEntries options (entries members)
  | [] => True.intro
  | (_, document) :: members =>
      ⟨True.intro, expressible_value hfloat document, expressible_entries hfloat members⟩

end

/-! Reading. -/

mutual

/-- The sign of its integers is all that a value can lose. -/
theorem norm_value : (document : Json) → document.Proper → document.value.norm = document.value
  | .null, _ | .bool _, _ | .unsigned _, _ | .double _, _ | .string _, _ => rfl
  | .negative _, hnegative => if_neg (Int64.not_le.mpr hnegative)
  | .array items, hitems => congrArg Value.array (normItems_values items hitems)
  | .object members, ⟨_, hmembers⟩ => congrArg Value.map (normEntries_entries members hmembers)

theorem normItems_values :
    (items : List Json) → ProperItems items → Value.normItems (values items) = values items
  | [], _ => rfl
  | item :: items, hitems => by
      rw [values, Value.normItems, norm_value item hitems.1, normItems_values items hitems.2]

theorem normEntries_entries :
    (members : List (String × Json)) → ProperMembers members →
      Value.normEntries (entries members) = entries members
  | [], _ => rfl
  | (key, document) :: members, hmembers => by
      rw [entries, Value.normEntries, norm_value document hmembers.1,
        normEntries_entries members hmembers.2]
      rfl

end

theorem lastOfEach_nodup {members : List (String × Json)}
    (hkeys : members.Pairwise fun left right => left.1 ≠ right.1) :
    lastOfEach members = members := by
  induction members with
  | nil => rfl
  | cons member members ih =>
      obtain ⟨hfirst, hrest⟩ := List.pairwise_cons.mp hkeys
      have hkept := ih hrest
      rw [lastOfEach] at hkept ⊢
      rw [List.foldr_cons, hkept]
      cases members with
      | nil => rfl
      | cons next others => exact if_neg (hfirst next (.head _))

/-- Members that are in order stay as they are. -/
theorem ofMembers_sorted {members : List (String × Json)}
    (hsorted : members.Pairwise fun left right => utf8 left.1 < utf8 right.1) :
    ofMembers members = .object members := by
  have hless : members.Pairwise fun left right => left.1 < right.1 :=
    hsorted.imp utf8_lt_utf8.mp
  have hkept : (members.mergeSort fun left right => left.1 ≤ right.1) = members :=
    List.mergeSort_of_pairwise
      (hless.imp fun hkeys => decide_eq_true (String.not_lt.mp (String.lt_asymm hkeys)))
  rw [ofMembers, hkept, lastOfEach_nodup (hless.imp fun hkeys => String.ne_of_lt hkeys)]

end Json
end MessagePack
