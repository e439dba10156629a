import MessagePack.Number.Style
import MessagePack.Tree.Node

/-!
Text renderings of trees, on one line or indented by two spaces a level.

Rendering keeps its own stack of what is still to be written, so that nesting takes no call
stack.
-/

namespace MessagePack.Tree

/-- Floats are plain from 0.0001 up to 10 ^ 16; an exponent has no plus sign. -/
def floatStyle : NumberStyle where
  tie := .up
  leastPlain := -4
  greatestPlain := 15
  exponentSign := ""
  nan := "NaN"
  infinity := "inf"
  negativeInfinity := "-inf"

/-! Quoted text. -/

def isControl (c : Char) : Bool :=
  c.toNat < 0x20 || (0x7f ≤ c.toNat && c.toNat < 0xa0)

def escape (c : Char) : List Char :=
  if c = '"' then ['\\', '"']
  else if c = '\\' then ['\\', '\\']
  else if c = '\n' then ['\\', 'n']
  else if c = '\r' then ['\\', 'r']
  else if c = '\t' then ['\\', 't']
  else if isControl c then '\\' :: 'u' :: (hex 4 c.toNat).toList
  else [c]

def quote (text : String) : String :=
  String.ofList ('"' :: text.toList.flatMap escape ++ ['"'])

/-! Scalars. -/

def scalarText (tag : Tag) (payload : Bytes) : String :=
  match tag with
  | .nil => "null"
  | .bool value => if value then "true" else "false"
  | .int value => toString value.toInt
  | .uint value => toString value.toNat
  | .float bits => floatStyle.render .single bits.toNat
  | .double bits => floatStyle.render .double bits.toNat
  | .rawFloat bits => s!"<float 0x{hex 8 bits.toNat}>"
  | .rawDouble bits => s!"<double 0x{hex 16 bits.toNat}>"
  | .str length =>
      match ofUtf8? payload with
      | some text => quote text
      | none => s!"<invalid str of {length.toNat} bytes>"
  | .bin length => s!"<bin of {length.toNat} bytes>"
  | .ext type length => s!"<ext type {type.toInt} of {length.toNat} bytes>"
  | .array count => s!"<array of {count.toNat}>"
  | .map pairs => s!"<map of {pairs.toNat}>"

/-! Compounds. -/

inductive Layout where
  | compact
  | pretty
  deriving DecidableEq

inductive Piece where
  | node (id : NodeId) (level : Nat)
  | text (text : String)
  | newline (level : Nat)
  deriving DecidableEq

namespace Layout

def separator : Layout → String
  | .compact => ", "
  | .pretty => ","

def lineBreak (layout : Layout) (level : Nat) : List Piece :=
  match layout with
  | .compact => []
  | .pretty => [.newline level]

/-- The items of a compound, each a run of pieces, between its brackets. -/
def bracketed (layout : Layout) (level : Nat) (close : String) :
    List (List Piece) → List Piece
  | [] => [.text close]
  | first :: others =>
      layout.lineBreak (level + 1) ++ first ++
        others.flatMap (fun item =>
          .text layout.separator :: layout.lineBreak (level + 1) ++ item) ++
        layout.lineBreak level ++ [.text close]

end Layout

/-- The opening bracket of a compound and what follows it. -/
def contents? (layout : Layout) (tree : Tree) (id : NodeId) (level : Nat) :
    Option (String × List Piece) :=
  match tree.tagAt id with
  | .array _ =>
      some ("[", layout.bracketed level "]"
        ((tree.childrenOf id).map fun child => [.node child (level + 1)]))
  | .map pairs =>
      some ("\x7b", layout.bracketed level "\x7d"
        ((tree.pairsOf id pairs.toNat).map fun (key, value) =>
          [.node key (level + 1), .text ": ", .node value (level + 1)]))
  | _ => none

def indent (level : Nat) : String :=
  String.ofList ('\n' :: List.replicate (2 * level) ' ')

/-- Write the pieces in turn, at most `fuel` of them. -/
def writePieces (layout : Layout) (tree : Tree) : Nat → String → List Piece → String
  | 0, written, _ => written
  | _ + 1, written, [] => written
  | fuel + 1, written, .text text :: pieces =>
      writePieces layout tree fuel (written ++ text) pieces
  | fuel + 1, written, .newline level :: pieces =>
      writePieces layout tree fuel (written ++ indent level) pieces
  | fuel + 1, written, .node id level :: pieces =>
      match contents? layout tree id level with
      | some (bracket, inner) =>
          writePieces layout tree fuel (written ++ bracket) (inner ++ pieces)
      | none =>
          writePieces layout tree fuel
            (written ++ scalarText (tree.tagAt id) ((tree.payload? id).getD [])) pieces

/-- Pieces that a tree can give: a node comes with at most a separator, two line breaks, a
colon and a bracket. -/
def pieceBound (tree : Tree) : Nat :=
  6 * (tree.nodeCount + 1)

def render (layout : Layout) (tree : Tree) (id : NodeId) : String :=
  writePieces layout tree tree.pieceBound "" [.node id 0]

/-- The indented rendering as a line of its own. -/
def print (tree : Tree) (id : NodeId) : String :=
  render .pretty tree id ++ "\n"

end MessagePack.Tree
