import MessagePack.Reader
import MessagePack.Tree.Node
import MessagePack.Writer

/-!
Documents: owned values that are written with a writer, and read back with a reader or from
a tree.

Floats are bit patterns. A non-negative `int` is written like the `uint` of its value, so it
comes back as one; `norm` is that change alone.
-/

namespace MessagePack

inductive Value where
  | nil
  | bool (value : Bool)
  | int (value : Int64)
  | uint (value : UInt64)
  | float (bits : UInt32)
  | double (bits : UInt64)
  | str (text : String)
  | bin (content : Bytes)
  | array (items : List Value)
  | map (entries : List (Value × Value))
  | ext (type : Int8) (content : Bytes)

namespace Value

def object (entries : List (String × Value)) : Value :=
  .map (entries.map fun (key, value) => (.str key, value))

/-! Writing. -/

/-- Whether the counts of arrays and maps are declared or learnt by a build. -/
inductive Framing where
  | counted
  | built
  deriving DecidableEq

namespace Framing

open Writer.State

/-- A count as a header states it. -/
def count (n : Nat) : UInt32 :=
  UInt32.ofNat (min n (UInt32.size - 1))

def begin (framing : Framing) (kind : Compound) (header : UInt32 → Tag) (n : Nat) :
    Attempt Writer.State Unit :=
  match framing with
  | .counted => tag (header (count n))
  | .built => beginBuild kind

def finish (framing : Framing) (kind : Compound) : Attempt Writer.State Unit :=
  match framing with
  | .counted => finishCompound kind
  | .built => completeBuild kind

end Framing

mutual

def write (framing : Framing) : Value → Attempt Writer.State Unit
  | .nil => Writer.State.tag .nil
  | .bool value => Writer.State.tag (.bool value)
  | .int value => Writer.State.tag (.int value)
  | .uint value => Writer.State.tag (.uint value)
  | .float bits => Writer.State.tag (.float bits)
  | .double bits => Writer.State.tag (.double bits)
  | .str text => Writer.State.str text
  | .bin content => Writer.State.bin content
  | .ext type content => Writer.State.ext type content
  | .array items => do
      framing.begin .array .array items.length
      writeItems framing items
      framing.finish .array
  | .map entries => do
      framing.begin .map .map entries.length
      writeEntries framing entries
      framing.finish .map

def writeItems (framing : Framing) : List Value → Attempt Writer.State Unit
  | [] => pure ()
  | item :: items => do
      write framing item
      writeItems framing items

def writeEntries (framing : Framing) : List (Value × Value) → Attempt Writer.State Unit
  | [] => pure ()
  | (key, value) :: entries => do
      write framing key
      write framing value
      writeEntries framing entries

end

def encode (config : Config) (framing : Framing) (value : Value) : Except Error Bytes :=
  Writer.encode config (value.write framing)

/-! Reading. -/

/-- Run an attempt `n` times and collect the results. -/
def collect (attempt : Attempt σ α) : Nat → Array α → Attempt σ (List α)
  | 0, found => return found.toList
  | n + 1, found => do
      let next ← attempt
      collect attempt n (found.push next)

def readPair (read : Attempt σ Value) : Attempt σ (Value × Value) := do
  let key ← read
  let value ← read
  return (key, value)

variable {ι : Type} [ByteInput ι]

open Reader.State in
/-- Read one value whose nesting is less than the fuel. -/
def readWithin : Nat → Attempt (Reader.State ι) Value
  | 0 => throw (.truncated 1 0)
  | fuel + 1 => do
      match ← readTag with
      | .nil => return .nil
      | .bool value => return .bool value
      | .int value => return .int value
      | .uint value => return .uint value
      | .float bits | .rawFloat bits => return .float bits
      | .double bits | .rawDouble bits => return .double bits
      | .str length =>
          let text ← readText length.toNat
          leave .str
          return .str text
      | .bin length =>
          let content ← copyBytes length.toNat
          leave .bin
          return .bin content
      | .ext type length =>
          let content ← copyBytes length.toNat
          leave .ext
          return .ext type content
      | .array count =>
          let items ← collect (readWithin fuel) count.toNat #[]
          leave .array
          return .array items
      | .map pairs =>
          let entries ← collect (readPair (readWithin fuel)) pairs.toNat #[]
          leave .map
          return .map entries

/-- Read one value; every level of nesting takes a byte of the input. -/
def read : Attempt (Reader.State ι) Value := do
  readWithin ((← get).size + 1)

/-- Read one value, and tell whether the input ends with it. -/
def readWhole (reader : Reader ι) : Except Error (Value × Bool) :=
  (Latch.call (do
    let value ← read
    Reader.State.finish
    let atEnd ← Reader.State.atEnd
    return (value, atEnd)) reader).1

/-! Trees. -/

/-- The value of a node whose nesting is less than the fuel. -/
def ofNodeWithin (tree : Tree) : Nat → NodeId → Except Error Value
  | 0, _ => .error (.tooDeep tree.depth tree.depth)
  | fuel + 1, id =>
      match tree.tagAt id with
      | .nil => .ok .nil
      | .bool value => .ok (.bool value)
      | .int value => .ok (.int value)
      | .uint value => .ok (.uint value)
      | .float bits | .rawFloat bits => .ok (.float bits)
      | .double bits | .rawDouble bits => .ok (.double bits)
      | .str _ => return .str (← tree.asText id)
      | .bin _ => return .bin (← tree.asBytes id)
      | .ext type _ => return .ext type (← tree.asBytes id)
      | .array _ => return .array (← (tree.childrenOf id).mapM (ofNodeWithin tree fuel))
      | .map pairs =>
          return .map (← (tree.pairsOf id pairs.toNat).mapM fun (key, value) =>
            return (← ofNodeWithin tree fuel key, ← ofNodeWithin tree fuel value))

def ofNode (tree : Tree) (id : NodeId) : Except Error Value :=
  ofNodeWithin tree (tree.depth + 1) id

def ofTree (tree : Tree) : Except Error Value :=
  ofNode tree tree.root

/-! What is left of a value when it has been written and read. -/

mutual

def norm : Value → Value
  | .int value => if 0 ≤ value then .uint value.toUInt64 else .int value
  | .array items => .array (normItems items)
  | .map entries => .map (normEntries entries)
  | value => value

def normItems : List Value → List Value
  | [] => []
  | item :: items => norm item :: normItems items

def normEntries : List (Value × Value) → List (Value × Value)
  | [] => []
  | (key, value) :: entries => (norm key, norm value) :: normEntries entries

end

end Value
end MessagePack
