import MessagePack.Tag.Scalar
import MessagePack.Tree

/-!
What can be asked of the nodes of a tree.

The first question that fails sticks: from then on every question about any node of the tree
is answered with that error. Tags and renderings are not questions in this sense.
-/

namespace MessagePack.Tree

def tagAt (tree : Tree) (id : NodeId) : Tag :=
  (tree.arena.get id).tag

def payload? (tree : Tree) (id : NodeId) : Option Bytes :=
  let node := tree.arena.get id
  node.tag.payloadLength?.map fun length =>
    (tree.input.extract node.start (node.start + length)).toList

def child (tree : Tree) (id : NodeId) (n : Nat) : NodeId :=
  ((tree.arena.get id).children?.getD id).offset n

/-- The children of an array or map, keys and values in turn. -/
def childrenOf (tree : Tree) (id : NodeId) : List NodeId :=
  (List.range ((tree.tagAt id).childCount?.getD 0)).map (tree.child id)

def pairsOf (tree : Tree) (id : NodeId) (pairs : Nat) : List (NodeId × NodeId) :=
  (List.range pairs).map fun n => (tree.child id (2 * n), tree.child id (2 * n + 1))

def asNil (tree : Tree) (id : NodeId) : Except Error Unit :=
  match tree.tagAt id with
  | .nil => .ok ()
  | tag => tag.mismatch .nil

def asBool (tree : Tree) (id : NodeId) : Except Error Bool :=
  match tree.tagAt id with
  | .bool value => .ok value
  | tag => tag.mismatch .bool

def asUnsignedWord (tree : Tree) (id : NodeId) : Except Error UInt64 :=
  match tree.tagAt id with
  | tag@(.uint _) | tag@(.int _) => tag.unsigned?.elim (.error (.invalid .outOfRange)) .ok
  | tag => tag.mismatch .uint

def asSignedWord (tree : Tree) (id : NodeId) : Except Error Int64 :=
  match tree.tagAt id with
  | tag@(.uint _) | tag@(.int _) => tag.signed?.elim (.error (.invalid .outOfRange)) .ok
  | tag => tag.mismatch .int

/-- An unsigned integer of so many bits. -/
def asUnsigned (bits : Nat) (tree : Tree) (id : NodeId) : Except Error UInt64 := do
  let word ← tree.asUnsignedWord id
  if word.toNat < Nat.pow 2 bits then
    return word
  else
    throw (.invalid .outOfRange)

/-- A two's-complement integer of so many bits. -/
def asSigned (bits : Nat) (tree : Tree) (id : NodeId) : Except Error Int64 := do
  let half : Int := Nat.pow 2 (bits - 1)
  let word ← tree.asSignedWord id
  if -half ≤ word.toInt ∧ word.toInt < half then
    return word
  else
    throw (.invalid .outOfRange)

/-- Number conversion needs floating point, whatever the node is. -/
def numberAt (tree : Tree) (id : NodeId) : Except Error Tag := do
  Header.requireNativeFloats tree.options
  return tree.tagAt id

/-- Any number, rounded to single precision. -/
def asSingle (tree : Tree) (id : NodeId) : Except Error UInt32 := do
  match ← tree.numberAt id with
  | .float bits => return bits
  | .double bits => return Ieee.singleOfDouble bits
  | .uint value => return Ieee.singleOfInt value.toNat
  | .int value => return Ieee.singleOfInt value.toInt
  | tag => tag.mismatch .float

/-- Any number, rounded to double precision. -/
def asDouble (tree : Tree) (id : NodeId) : Except Error UInt64 := do
  match ← tree.numberAt id with
  | .float bits => return Ieee.doubleOfSingle bits
  | .double bits => return bits
  | .uint value => return Ieee.doubleOfInt value.toNat
  | .int value => return Ieee.doubleOfInt value.toInt
  | tag => tag.mismatch .double

def asExactSingle (tree : Tree) (id : NodeId) : Except Error UInt32 := do
  match ← tree.numberAt id with
  | .float bits => return bits
  | tag => tag.mismatch .float

/-- A float of either precision, but no integer. -/
def asExactDouble (tree : Tree) (id : NodeId) : Except Error UInt64 := do
  match ← tree.numberAt id with
  | .float bits => return Ieee.doubleOfSingle bits
  | .double bits => return bits
  | tag => tag.mismatch .double

def asSingleBits (tree : Tree) (id : NodeId) : Except Error UInt32 :=
  match tree.tagAt id with
  | .float bits | .rawFloat bits => .ok bits
  | tag => tag.mismatch .float

def asDoubleBits (tree : Tree) (id : NodeId) : Except Error UInt64 :=
  match tree.tagAt id with
  | .double bits | .rawDouble bits => .ok bits
  | tag => tag.mismatch .double

def asText (tree : Tree) (id : NodeId) : Except Error String :=
  match tree.tagAt id with
  | .str _ =>
      match ofUtf8? ((tree.payload? id).getD []) with
      | some text => .ok text
      | none => .error (.invalid .invalidUtf8)
  | tag => tag.mismatch .str

def asBytes (tree : Tree) (id : NodeId) : Except Error Bytes :=
  match tree.payload? id with
  | some bytes => .ok bytes
  | none => (tree.tagAt id).mismatch .bin

def extType (tree : Tree) (id : NodeId) : Except Error Int8 :=
  match tree.tagAt id with
  | .ext type _ => .ok type
  | tag => tag.mismatch .ext

/-- Elements of an array, pairs of a map, bytes of anything else that is compound. -/
def length (tree : Tree) (id : NodeId) : Except Error Nat :=
  match tree.tagAt id with
  | .array n | .map n | .str n | .bin n | .ext _ n => .ok n.toNat
  | tag => tag.mismatch .array

def elementAt (tree : Tree) (id : NodeId) (index : Nat) : Except Error NodeId :=
  match tree.tagAt id with
  | .array count =>
      if index < count.toNat then
        .ok (tree.child id index)
      else
        .error (.invalid (.indexOutOfBounds index count.toNat))
  | tag => tag.mismatch .array

def pairAt (tree : Tree) (id : NodeId) (index : Nat) : Except Error (NodeId × NodeId) :=
  match tree.tagAt id with
  | .map pairs =>
      if index < pairs.toNat then
        .ok (tree.child id (2 * index), tree.child id (2 * index + 1))
      else
        .error (.invalid (.indexOutOfBounds index pairs.toNat))
  | tag => tag.mismatch .map

def elements (tree : Tree) (id : NodeId) : Except Error (List NodeId) :=
  match tree.tagAt id with
  | .array _ => .ok (tree.childrenOf id)
  | tag => tag.mismatch .array

def entries (tree : Tree) (id : NodeId) : Except Error (List (NodeId × NodeId)) :=
  match tree.tagAt id with
  | .map pairs => .ok (tree.pairsOf id pairs.toNat)
  | tag => tag.mismatch .map

/-! Looking up keys. The first pair whose key matches counts. -/

def find? (accepts : NodeId → Bool) (tree : Tree) (id : NodeId) :
    Except Error (Option NodeId) := do
  return ((← tree.entries id).find? fun (key, _) => accepts key).map Prod.snd

def find (accepts : NodeId → Bool) (tree : Tree) (id : NodeId) : Except Error NodeId := do
  match ← find? accepts tree id with
  | some value => return value
  | none => throw (.invalid .keyNotFound)

/-- Only a str is a text key, whatever its bytes. -/
def isText (tree : Tree) (text : String) (key : NodeId) : Bool :=
  match tree.tagAt key with
  | .str _ => tree.payload? key == some (utf8 text)
  | _ => false

def isUnsigned (tree : Tree) (value : UInt64) (key : NodeId) : Bool :=
  (tree.tagAt key).unsigned? == some value

def isSigned (tree : Tree) (value : Int64) (key : NodeId) : Bool :=
  (tree.tagAt key).signed? == some value

inductive Query where
  | nil
  | bool
  | unsigned (bits : Nat)
  | signed (bits : Nat)
  | single
  | double
  | exactSingle
  | exactDouble
  | singleBits
  | doubleBits
  | text
  | bytes
  | extType
  | length
  | isEmpty
  | elementAt (index : Nat)
  | keyAt (index : Nat)
  | valueAt (index : Nat)
  | elements
  | entries
  | findText (key : String)
  | findText? (key : String)
  | containsText (key : String)
  | findUnsigned (key : UInt64)
  | findSigned (key : Int64)

/-- Look up an integer by a signed word if it fits one, else by an unsigned word. -/
def Query.findInteger (key : Int) : Query :=
  if key ≤ Int64.maxValue.toInt then
    .findSigned (Int64.ofInt key)
  else
    .findUnsigned (UInt64.ofNat key.toNat)

inductive Answer where
  | done
  | bool (value : Bool)
  | integer (value : Int)
  | single (bits : UInt32)
  | double (bits : UInt64)
  | singleBits (bits : UInt32)
  | doubleBits (bits : UInt64)
  | text (content : String)
  | bytes (content : Bytes)
  | extType (type : Int8)
  | count (count : Nat)
  | node (id : NodeId)
  | node? (id? : Option NodeId)
  | nodes (ids : List NodeId)
  | pairs (ids : List (NodeId × NodeId))
  deriving DecidableEq

def answer (tree : Tree) (id : NodeId) : Query → Except Error Answer
  | .nil => do tree.asNil id; return .done
  | .bool => return .bool (← tree.asBool id)
  | .unsigned bits => return .integer (← asUnsigned bits tree id).toNat
  | .signed bits => return .integer (← asSigned bits tree id).toInt
  | .single => return .single (← tree.asSingle id)
  | .double => return .double (← tree.asDouble id)
  | .exactSingle => return .single (← tree.asExactSingle id)
  | .exactDouble => return .double (← tree.asExactDouble id)
  | .singleBits => return .singleBits (← tree.asSingleBits id)
  | .doubleBits => return .doubleBits (← tree.asDoubleBits id)
  | .text => return .text (← tree.asText id)
  | .bytes => return .bytes (← tree.asBytes id)
  | .extType => return .extType (← tree.extType id)
  | .length => return .count (← tree.length id)
  | .isEmpty => return .bool ((← tree.length id) == 0)
  | .elementAt index => return .node (← tree.elementAt id index)
  | .keyAt index => return .node (← tree.pairAt id index).1
  | .valueAt index => return .node (← tree.pairAt id index).2
  | .elements => return .nodes (← tree.elements id)
  | .entries => return .pairs (← tree.entries id)
  | .findText key => return .node (← find (tree.isText key) tree id)
  | .findText? key => return .node? (← find? (tree.isText key) tree id)
  | .containsText key => return .bool (← find? (tree.isText key) tree id).isSome
  | .findUnsigned key => return .node (← find (tree.isUnsigned key) tree id)
  | .findSigned key => return .node (← find (tree.isSigned key) tree id)

/-- A tree with the first error that a question about it met. -/
abbrev Session := Latch Tree

def ask (id : NodeId) (query : Query) : Attempt Session Answer :=
  Latch.query fun tree => tree.answer id query

def finish : Attempt Session Unit :=
  Latch.query fun _ => .ok ()

end MessagePack.Tree
