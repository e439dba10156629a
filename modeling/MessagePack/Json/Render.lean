import MessagePack.Json.Number
import MessagePack.Json.Quoted

/-!
JSON text, indented by two spaces a level. A container without items takes no line breaks.
-/

namespace MessagePack.Json

def lineBreak (level : Nat) : String :=
  String.ofList ('\n' :: List.replicate (2 * level) ' ')

mutual

/-- Append a document that stands at the given level. -/
def append (level : Nat) (text : String) : Json → String
  | .null => text ++ "null"
  | .bool true => text ++ "true"
  | .bool false => text ++ "false"
  | .unsigned value => text ++ toString value.toNat
  | .negative value => text ++ toString value.toInt
  | .double bits => text ++ numberStyle.render .double bits.toNat
  | .string content => text ++ quote content
  | .array [] => text ++ "[]"
  | .array (item :: items) =>
      appendItems level (append (level + 1) (text ++ "[" ++ lineBreak (level + 1)) item) items
  | .object [] => text ++ "\x7b\x7d"
  | .object ((key, value) :: members) =>
      appendMembers level
        (append (level + 1) (text ++ "\x7b" ++ lineBreak (level + 1) ++ quote key ++ ": ") value)
        members

def appendItems (level : Nat) (text : String) : List Json → String
  | [] => text ++ lineBreak level ++ "]"
  | item :: items =>
      appendItems level (append (level + 1) (text ++ "," ++ lineBreak (level + 1)) item) items

def appendMembers (level : Nat) (text : String) : List (String × Json) → String
  | [] => text ++ lineBreak level ++ "\x7d"
  | (key, value) :: members =>
      appendMembers level
        (append (level + 1) (text ++ "," ++ lineBreak (level + 1) ++ quote key ++ ": ") value)
        members

end

def render (document : Json) : String :=
  append 0 "" document

end MessagePack.Json
