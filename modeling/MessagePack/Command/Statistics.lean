import MessagePack.Tree.Preorder

/-!
How many nodes of each kind messages have, and how many payload bytes these hold.
-/

namespace MessagePack

/-- In the order in which they are listed. -/
def Kind.all : List Kind :=
  [.nil, .bool, .int, .uint, .float, .double, .str, .bin, .array, .map, .ext]

structure Statistics where
  messages : Nat
  /-- The deepest nesting of any message. -/
  depth : Nat
  tags : List Tag

namespace Statistics

def ofTrees (trees : List Tree) : Statistics where
  messages := trees.length
  depth := trees.foldl (fun depth tree => max depth tree.depth) 0
  tags := trees.flatMap Tree.tags

def nodes (statistics : Statistics) : Nat :=
  statistics.tags.length

def tagsOf (statistics : Statistics) (kind : Kind) : List Tag :=
  statistics.tags.filter fun tag => tag.kind = kind

def count (statistics : Statistics) (kind : Kind) : Nat :=
  (statistics.tagsOf kind).length

def payload (statistics : Statistics) (kind : Kind) : Nat :=
  (statistics.tagsOf kind).foldl (fun bytes tag => bytes + tag.payloadLength?.getD 0) 0

/-! The report. -/

/-- A comma stands before every group of three digits but the first. -/
def separated : List Char → List Char
  | [] => []
  | digit :: digits =>
      if digits ≠ [] ∧ digits.length % 3 = 0 then
        digit :: ',' :: separated digits
      else
        digit :: separated digits

def grouped (n : Nat) : String :=
  String.ofList (separated (Nat.toDigits 10 n))

def padLeft (width : Nat) (text : String) : String :=
  String.ofList (List.replicate (width - text.length) ' ') ++ text

def padRight (width : Nat) (text : String) : String :=
  text ++ String.ofList (List.replicate (width - text.length) ' ')

def row? (statistics : Statistics) (kind : Kind) : Option String :=
  let count := statistics.count kind
  let payload := statistics.payload kind
  let start := s!"{padRight 8 kind.name} {padLeft 7 (toString count)}"
  if count = 0 then none
  else if payload = 0 then some start
  else some s!"{start} {padLeft 7 (grouped payload)} B"

def report (statistics : Statistics) (path : String) (size : Nat) : String :=
  let (kind, count, payload) := (padRight 8 "Kind", padLeft 7 "Count", padLeft 9 "Payload")
  let lines := [
    s!"File:       {path}",
    s!"Size:       {grouped size} bytes",
    s!"Messages:   {statistics.messages}",
    s!"Nodes:      {statistics.nodes}",
    s!"Max depth:  {statistics.depth}",
    "",
    s!"{kind} {count} {payload}",
    String.ofList (List.replicate 26 '─')] ++ Kind.all.filterMap statistics.row?
  String.join (lines.map (· ++ "\n"))

end Statistics
end MessagePack
