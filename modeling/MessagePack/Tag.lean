import MessagePack.Bytes

/-!
The elements a message is made of, as their headers announce them.

A scalar tag carries its value. A compound tag carries what follows it: payload bytes for
`str`, `bin` and `ext`, elements for `array`, key/value pairs for `map`.
-/

namespace MessagePack

/-- Floats are their IEEE bit patterns. The raw forms are the ones read where floating point
is unavailable. -/
inductive Tag where
  | nil
  | bool (value : Bool)
  | int (value : Int64)
  | uint (value : UInt64)
  | float (bits : UInt32)
  | double (bits : UInt64)
  | rawFloat (bits : UInt32)
  | rawDouble (bits : UInt64)
  | str (length : UInt32)
  | bin (length : UInt32)
  | array (count : UInt32)
  | map (pairs : UInt32)
  | ext (type : Int8) (length : UInt32)
  deriving DecidableEq, Inhabited

inductive Kind where
  | nil
  | bool
  | int
  | uint
  | float
  | double
  | str
  | bin
  | array
  | map
  | ext
  deriving DecidableEq

def Kind.name : Kind → String
  | .nil => "nil"
  | .bool => "bool"
  | .int => "int"
  | .uint => "uint"
  | .float => "float"
  | .double => "double"
  | .str => "str"
  | .bin => "bin"
  | .array => "array"
  | .map => "map"
  | .ext => "ext"

/-- What stays open after its header: `array` and `map` hold elements, the others bytes. -/
inductive Compound where
  | array
  | map
  | str
  | bin
  | ext
  deriving DecidableEq

namespace Compound

def name : Compound → String
  | .array => "array"
  | .map => "map"
  | .str => "str"
  | .bin => "bin"
  | .ext => "ext"

def holdsBytes : Compound → Bool
  | .array | .map => false
  | .str | .bin | .ext => true

end Compound

namespace Tag

def kind : Tag → Kind
  | .nil => .nil
  | .bool _ => .bool
  | .int _ => .int
  | .uint _ => .uint
  | .float _ | .rawFloat _ => .float
  | .double _ | .rawDouble _ => .double
  | .str _ => .str
  | .bin _ => .bin
  | .array _ => .array
  | .map _ => .map
  | .ext _ _ => .ext

def payloadLength? : Tag → Option Nat
  | .str length | .bin length | .ext _ length => some length.toNat
  | _ => none

/-- A map has two children for each pair. -/
def childCount? : Tag → Option Nat
  | .array count => some count.toNat
  | .map pairs => some (2 * pairs.toNat)
  | _ => none

/-- The compound a tag opens, with the elements or bytes it is owed. -/
def opens? : Tag → Option (Compound × Nat)
  | .array count => some (.array, count.toNat)
  | .map pairs => some (.map, 2 * pairs.toNat)
  | .str length => some (.str, length.toNat)
  | .bin length => some (.bin, length.toNat)
  | .ext _ length => some (.ext, length.toNat)
  | _ => none

def isCompound (tag : Tag) : Bool :=
  tag.opens?.isSome

/-! Integers are judged by value: the width and sign of the header do not matter. -/

def integer? : Tag → Option Int
  | .int value => some value.toInt
  | .uint value => some value.toNat
  | _ => none

/-- The integer in an unsigned word, if it is not negative. -/
def unsigned? : Tag → Option UInt64
  | .uint value => some value
  | .int value => if 0 ≤ value then some value.toUInt64 else none
  | _ => none

/-- The integer in a signed word, if it is not too large for one. -/
def signed? : Tag → Option Int64
  | .int value => some value
  | .uint value => if value ≤ Int64.maxValue.toUInt64 then some value.toInt64 else none
  | _ => none

/-- Integers are the same when their values are, floats when their bits are. -/
def same (left right : Tag) : Bool :=
  match left.integer?, right.integer? with
  | some a, some b => a == b
  | none, none => left == right
  | _, _ => false

/-! The words of an integer have its value. -/

theorem toNat_toUInt64 {value : Int64} (hsign : 0 ≤ value) :
    (value.toUInt64.toNat : Int) = value.toInt := by
  rw [Int64.toNat_toUInt64_of_le hsign]
  exact Int.toNat_of_nonneg (Int64.le_iff_toInt_le.mp hsign)

theorem toInt_toInt64 {value : UInt64} (hsmall : value ≤ Int64.maxValue.toUInt64) :
    value.toInt64.toInt = value.toNat := by
  have hbound : value.toBitVec.toNat ≤ 0x7fffffffffffffff := hsmall
  show value.toBitVec.toInt = value.toBitVec.toNat
  exact BitVec.toInt_eq_toNat_of_lt (by omega)

theorem unsigned?_eq_some {tag : Tag} {word : UInt64} :
    tag.unsigned? = some word ↔ tag.integer? = some (word.toNat : Int) := by
  cases tag with
  | uint value =>
      simp only [unsigned?, integer?, Option.some.injEq, Int.natCast_inj, UInt64.toNat_inj]
  | int value =>
      simp only [unsigned?, integer?, Option.ite_none_right_eq_some, Option.some.injEq]
      constructor
      · rintro ⟨hsign, rfl⟩
        exact (toNat_toUInt64 hsign).symm
      · intro hvalue
        have hsign : 0 ≤ value := by
          rw [Int64.le_iff_toInt_le, hvalue]
          exact Int.natCast_nonneg _
        rw [← toNat_toUInt64 hsign] at hvalue
        exact ⟨hsign, UInt64.toNat_inj.mp (Int.ofNat_inj.mp hvalue)⟩
  | _ => simp [unsigned?, integer?]

theorem signed?_eq_some {tag : Tag} {word : Int64} :
    tag.signed? = some word ↔ tag.integer? = some word.toInt := by
  cases tag with
  | int value => simp only [signed?, integer?, Option.some.injEq, Int64.toInt_inj]
  | uint value =>
      simp only [signed?, integer?, Option.ite_none_right_eq_some, Option.some.injEq]
      constructor
      · rintro ⟨hsmall, rfl⟩
        exact (toInt_toInt64 hsmall).symm
      · intro hvalue
        have hbound := word.toInt_lt
        have hsmall : value ≤ Int64.maxValue.toUInt64 := by
          show value.toNat ≤ 0x7fffffffffffffff
          omega
        rw [← toInt_toInt64 hsmall] at hvalue
        exact ⟨hsmall, Int64.toInt_inj.mp hvalue⟩
  | _ => simp [signed?, integer?]

end Tag
end MessagePack
