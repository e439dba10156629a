import MessagePack.Json
import MessagePack.Tree.Render

/-!
Trees as JSON documents.

What JSON has no form for becomes text: payload bytes and bare bit patterns in hexadecimal,
keys that are not text in their rendering. A float that is no finite number becomes null.
-/

namespace MessagePack.Json

def ofDouble (bits : Nat) : Json :=
  match Ieee.double.datum bits with
  | .finite _ _ _ => .double (UInt64.ofNat bits)
  | _ => .null

def ofExt (type : Int8) (content : Bytes) : Json :=
  .object [("data", .string (hexString content)), ("ext", ofInt type.toInt64)]

def keyOfNode (tree : Tree) (id : NodeId) : Except Error String :=
  match tree.tagAt id with
  | .str _ => tree.asText id
  | _ => .ok (tree.render .compact id)

/-- The document of a node whose nesting is less than the fuel. -/
def ofNodeWithin (tree : Tree) : Nat → NodeId → Except Error Json
  | 0, _ => .error (.tooDeep tree.depth tree.depth)
  | fuel + 1, id =>
      match tree.tagAt id with
      | .nil => .ok .null
      | .bool value => .ok (.bool value)
      | .int value => .ok (ofInt value)
      | .uint value => .ok (.unsigned value)
      | .float bits => .ok (ofDouble (Ieee.single.convert .double bits.toNat))
      | .double bits => .ok (ofDouble bits.toNat)
      | .rawFloat bits => .ok (.string s!"0x{hex 8 bits.toNat}")
      | .rawDouble bits => .ok (.string s!"0x{hex 16 bits.toNat}")
      | .str _ => return .string (← tree.asText id)
      | .bin _ => return .string (hexString (← tree.asBytes id))
      | .ext type _ => return ofExt type (← tree.asBytes id)
      | .array _ => return .array (← (tree.childrenOf id).mapM (ofNodeWithin tree fuel))
      | .map pairs =>
          return ofMembers (← (tree.pairsOf id pairs.toNat).mapM fun (key, value) =>
            return (← keyOfNode tree key, ← ofNodeWithin tree fuel value))

def ofTree (tree : Tree) : Except Error Json :=
  ofNodeWithin tree (tree.depth + 1) tree.root

end MessagePack.Json
