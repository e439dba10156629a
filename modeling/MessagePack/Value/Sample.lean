import MessagePack.Value

/-!
Sample documents and the configurations they are tried under.
-/

namespace MessagePack

namespace Config

def withExtensions : Config :=
  { extensions := true }

def legacy : Config :=
  { compatibility := true, version := .v4 }

end Config

namespace Value

/-- Every common kind, and two levels of nesting. -/
def sample : Value :=
  object [
    ("id", .uint 42),
    ("name", .str "tagpack"),
    ("tags", .array [.str "a", .str "b"]),
    ("ratio", .double 0x3fe0000000000000),
    ("offset", .int (-33)),
    ("blob", .bin [1, 2, 3]),
    ("nested", object [("flags", .array [.nil, .bool true, .bool false])])]

def record (id : Nat) : Value :=
  object [
    ("id", .uint (UInt64.ofNat id)),
    ("name", .str s!"record-{id}"),
    ("score", .double (UInt64.ofNat (Ieee.double.round false id 3))),
    ("delta", .int (Int64.ofInt (-id - 1))),
    ("payload", .bin (List.replicate 64 (UInt8.ofNat (id % 251)))),
    ("tags", .array [.str "alpha", .str "beta"])]

def records (n : Nat) : Value :=
  .array ((List.range n).map record)

end Value

/-- A nil in `depth` arrays of one element. -/
def nestedArrays (depth : Nat) : Bytes :=
  List.replicate depth 0x91 ++ [0xc0]

end MessagePack
