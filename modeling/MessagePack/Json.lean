/-!
JSON documents.

A number that is an integer of 64 bits is kept as one, any other as the bit pattern of a
double. The members of an object stand in the order of their keys, each key once.
-/

namespace MessagePack

inductive Json where
  | null
  | bool (value : Bool)
  | unsigned (value : UInt64)
  | negative (value : Int64)
  | double (bits : UInt64)
  | string (text : String)
  | array (items : List Json)
  | object (members : List (String × Json))
  deriving Inhabited

namespace Json

def ofInt (value : Int64) : Json :=
  if 0 ≤ value then .unsigned value.toUInt64 else .negative value

/-- Of neighbours with the same key the last one. -/
def lastOfEach (members : List (String × Json)) : List (String × Json) :=
  members.foldr (fun member kept =>
    match kept with
    | next :: _ => if member.1 = next.1 then kept else member :: kept
    | [] => [member]) []

/-- Of members with the same key the last one counts. -/
def ofMembers (members : List (String × Json)) : Json :=
  .object (lastOfEach (members.mergeSort fun left right => left.1 ≤ right.1))

end Json
end MessagePack
