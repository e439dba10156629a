import MessagePack.Error
import MessagePack.Number.Ieee

/-!
What typed reads have in common: the error for a tag of another kind, and numbers of one kind as
numbers of another, rounded to the nearest.
-/

namespace MessagePack

def Tag.mismatch (expected : Kind) (tag : Tag) : Except Error α :=
  .error (.invalid (.typeMismatch expected tag.kind))

namespace Ieee

def singleOfInt (value : Int) : UInt32 :=
  UInt32.ofNat (single.ofInt value)

def doubleOfInt (value : Int) : UInt64 :=
  UInt64.ofNat (double.ofInt value)

def singleOfDouble (bits : UInt64) : UInt32 :=
  UInt32.ofNat (double.convert single bits.toNat)

def doubleOfSingle (bits : UInt32) : UInt64 :=
  UInt64.ofNat (single.convert double bits.toNat)

end Ieee
end MessagePack
