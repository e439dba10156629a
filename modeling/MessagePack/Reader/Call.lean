import MessagePack.Reader.Typed

/-!
Every call a reader answers, and its replies.
-/

namespace MessagePack.Reader

inductive Call where
  | readTag
  | peekTag
  | readBytes (n : Nat)
  | copyBytes (n : Nat)
  | readText (n : Nat)
  | skipBytes (n : Nat)
  | leave (kind : Compound)
  | discard
  | atEnd
  | finish
  | expectNil
  | expectBool
  | expectUnsigned (bits : Nat)
  | expectSigned (bits : Nat)
  | expectUnsignedIn (least greatest : UInt64)
  | expectSignedIn (least greatest : Int64)
  | expectSingle
  | expectDouble
  | expectExactSingle
  | expectExactDouble
  | expectSingleBits
  | expectDoubleBits
  | expectArray
  | expectMap
  | expectStr
  | expectBin
  | expectArrayAtMost (limit : UInt32)
  | expectMapAtMost (limit : UInt32)
  | expectStrAtMost (limit : UInt32)
  | expectBinAtMost (limit : UInt32)
  | expectArrayOf (count : UInt32)
  | expectMapOf (pairs : UInt32)
  | expectText
  | expectSameText (text : String)
  | expectBinary
  | expectExt
  | expectName (names : List String)
  | expectKey (keys : List String) (found : List Bool)

inductive Reply where
  | done
  | tag (tag : Tag)
  | bytes (content : Bytes)
  | text (content : String)
  | bool (value : Bool)
  | integer (value : Int)
  | single (bits : UInt32)
  | double (bits : UInt64)
  | singleBits (bits : UInt32)
  | doubleBits (bits : UInt64)
  | count (count : Nat)
  | ext (type : Int8) (length : Nat)
  | key (index : Nat) (found : List Bool)
  deriving DecidableEq

variable {ι : Type} [ByteInput ι]

namespace State

def counted (count : Attempt (State ι) UInt32) : Attempt (State ι) Reply :=
  return .count (← count).toNat

def perform : Call → Attempt (State ι) Reply
  | .readTag => return .tag (← readTag)
  | .peekTag => return .tag (← peekTag)
  | .readBytes n => return .bytes (← readBytes n)
  | .copyBytes n => return .bytes (← copyBytes n)
  | .readText n => return .text (← readText n)
  | .skipBytes n => do skipBytes n; return .done
  | .leave kind => do leave kind; return .done
  | .discard => do discard; return .done
  | .atEnd => return .bool (← atEnd)
  | .finish => do finish; return .done
  | .expectNil => do expectNil; return .done
  | .expectBool => return .bool (← expectBool)
  | .expectUnsigned bits => return .integer (← expectUnsigned bits).toNat
  | .expectSigned bits => return .integer (← expectSigned bits).toInt
  | .expectUnsignedIn least greatest =>
      return .integer (← expectUnsignedIn least greatest).toNat
  | .expectSignedIn least greatest => return .integer (← expectSignedIn least greatest).toInt
  | .expectSingle => return .single (← expectSingle)
  | .expectDouble => return .double (← expectDouble)
  | .expectExactSingle => return .single (← expectExactSingle)
  | .expectExactDouble => return .double (← expectExactDouble)
  | .expectSingleBits => return .singleBits (← expectSingleBits)
  | .expectDoubleBits => return .doubleBits (← expectDoubleBits)
  | .expectArray => counted expectArray
  | .expectMap => counted expectMap
  | .expectStr => counted expectStr
  | .expectBin => counted expectBin
  | .expectArrayAtMost limit => counted (atMost limit expectArray)
  | .expectMapAtMost limit => counted (atMost limit expectMap)
  | .expectStrAtMost limit => counted (atMost limit expectStr)
  | .expectBinAtMost limit => counted (atMost limit expectBin)
  | .expectArrayOf count => do exactly count expectArray; return .done
  | .expectMapOf pairs => do exactly pairs expectMap; return .done
  | .expectText => return .text (← expectText)
  | .expectSameText text => do expectSameText text; return .done
  | .expectBinary => return .bytes (← expectBinary)
  | .expectExt => do
      let (type, length) ← expectExt
      return .ext type length.toNat
  | .expectName names => return .count (← expectName names)
  | .expectKey keys found => do
      let (index, found) ← expectKey keys found
      return .key index found

end State

def perform (call : Call) : Attempt (Reader ι) Reply :=
  Latch.call (State.perform call)

end MessagePack.Reader
