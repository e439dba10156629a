import MessagePack.Reader
import MessagePack.Tag.Scalar

/-!
Typed reads: one tag is read and must be what the caller asked for.

The compound forms leave the compound open for its contents to be read; the forms that
return a whole value leave it themselves.
-/

namespace MessagePack.Reader.State

variable {ι : Type} [ByteInput ι]

def expect (view : Tag → Except Error α) : Attempt (State ι) α := do
  Attempt.lift (view (← readTag))

/-- Number conversion needs floating point, whatever is read. -/
def expectNumber (view : Tag → Except Error α) : Attempt (State ι) α := do
  Attempt.lift (Header.requireNativeFloats (← get).options)
  expect view

def expectNil : Attempt (State ι) Unit :=
  expect fun
    | .nil => .ok ()
    | tag => tag.mismatch .nil

def expectBool : Attempt (State ι) Bool :=
  expect fun
    | .bool value => .ok value
    | tag => tag.mismatch .bool

/-! Integers are judged by value alone: a negative one is no unsigned word, but still an integer. -/

def expectUnsignedWord : Attempt (State ι) UInt64 :=
  expect fun
    | tag@(.uint _) | tag@(.int _) =>
        match tag.unsigned? with
        | some word => .ok word
        | none => .error (.invalid .outOfRange)
    | tag => tag.mismatch .uint

def expectSignedWord : Attempt (State ι) Int64 :=
  expect fun
    | tag@(.uint _) | tag@(.int _) =>
        match tag.signed? with
        | some word => .ok word
        | none => .error (.invalid .outOfRange)
    | tag => tag.mismatch .int

/-- Refuse a word that the caller has no use for. -/
def inRange (accepts : α → Bool) (word : Attempt (State ι) α) : Attempt (State ι) α := do
  let found ← word
  if !accepts found then
    throw (.invalid .outOfRange)
  return found

/-- An unsigned integer of so many bits. -/
def expectUnsigned (bits : Nat) : Attempt (State ι) UInt64 :=
  inRange (fun word => word.toNat < Nat.pow 2 bits) expectUnsignedWord

/-- A two's-complement integer of so many bits. -/
def expectSigned (bits : Nat) : Attempt (State ι) Int64 :=
  let half : Int := Nat.pow 2 (bits - 1)
  inRange (fun word => -half ≤ word.toInt ∧ word.toInt < half) expectSignedWord

def expectUnsignedIn (least greatest : UInt64) : Attempt (State ι) UInt64 :=
  inRange (fun word => least ≤ word ∧ word ≤ greatest) expectUnsignedWord

def expectSignedIn (least greatest : Int64) : Attempt (State ι) Int64 :=
  inRange (fun word => least ≤ word ∧ word ≤ greatest) expectSignedWord

/-- Any number, rounded to single precision. -/
def expectSingle : Attempt (State ι) UInt32 :=
  expectNumber fun
    | .float bits => .ok bits
    | .double bits => .ok (Ieee.singleOfDouble bits)
    | .uint value => .ok (Ieee.singleOfInt value.toNat)
    | .int value => .ok (Ieee.singleOfInt value.toInt)
    | tag => tag.mismatch .float

/-- Any number, rounded to double precision. -/
def expectDouble : Attempt (State ι) UInt64 :=
  expectNumber fun
    | .float bits => .ok (Ieee.doubleOfSingle bits)
    | .double bits => .ok bits
    | .uint value => .ok (Ieee.doubleOfInt value.toNat)
    | .int value => .ok (Ieee.doubleOfInt value.toInt)
    | tag => tag.mismatch .double

def expectExactSingle : Attempt (State ι) UInt32 :=
  expectNumber fun
    | .float bits => .ok bits
    | tag => tag.mismatch .float

/-- A float of either precision, but no integer. -/
def expectExactDouble : Attempt (State ι) UInt64 :=
  expectNumber fun
    | .float bits => .ok (Ieee.doubleOfSingle bits)
    | .double bits => .ok bits
    | tag => tag.mismatch .double

def expectSingleBits : Attempt (State ι) UInt32 :=
  expect fun
    | .float bits | .rawFloat bits => .ok bits
    | tag => tag.mismatch .float

def expectDoubleBits : Attempt (State ι) UInt64 :=
  expect fun
    | .double bits | .rawDouble bits => .ok bits
    | tag => tag.mismatch .double

def expectArray : Attempt (State ι) UInt32 :=
  expect fun
    | .array count => .ok count
    | tag => tag.mismatch .array

def expectMap : Attempt (State ι) UInt32 :=
  expect fun
    | .map pairs => .ok pairs
    | tag => tag.mismatch .map

def expectStr : Attempt (State ι) UInt32 :=
  expect fun
    | .str length => .ok length
    | tag => tag.mismatch .str

/-- Legacy binary data was stored as strings. -/
def expectBin : Attempt (State ι) UInt32 := do
  let version := (← get).options.version
  let tag ← nextTag fun
    | .str length => if version = .v4 then .bin length else .str length
    | tag => tag
  match tag with
  | .bin length => return length
  | tag => Attempt.lift (tag.mismatch .bin)

def expectExt : Attempt (State ι) (Int8 × UInt32) :=
  expect fun
    | .ext type length => .ok (type, length)
    | tag => tag.mismatch .ext

/-- Refuse a count above `limit`. -/
def atMost (limit : UInt32) (count : Attempt (State ι) UInt32) : Attempt (State ι) UInt32 := do
  let found ← count
  if limit < found then
    throw (.tooBig found.toNat limit.toNat)
  return found

/-- Refuse any count but one. -/
def exactly (wanted : UInt32) (count : Attempt (State ι) UInt32) : Attempt (State ι) Unit := do
  if (← count) ≠ wanted then
    throw (.invalid .valueMismatch)

def expectText : Attempt (State ι) String := do
  let length ← expectStr
  let text ← readText length.toNat
  leave .str
  return text

def expectBinary : Attempt (State ι) Bytes := do
  let length ← expectBin
  let content ← copyBytes length.toNat
  leave .bin
  return content

def expectSameText (text : String) : Attempt (State ι) Unit := do
  let wanted := utf8 text
  let length ← expectStr
  if length.toNat ≠ wanted.length then
    throw (.invalid .valueMismatch)
  let content ← copyBytes length.toNat
  leave .str
  if content ≠ wanted then
    throw (.invalid .valueMismatch)

/-- The index of the first name that equals the string read. A string as long as none of
them is skipped unseen. -/
def expectName (names : List String) : Attempt (State ι) Nat := do
  let candidates := names.map utf8
  let length ← expectStr
  let index? ← if candidates.any (·.length = length.toNat) then do
      let content ← copyBytes length.toNat
      pure (candidates.findIdx? (· = content))
    else do
      skipBytes length.toNat
      pure none
  leave .str
  match index? with
  | some index => return index
  | none => throw (.invalid .unknownKey)

/-- The index of a key that has not been found before, and the record with it marked. -/
def expectKey (keys : List String) (found : List Bool) :
    Attempt (State ι) (Nat × List Bool) := do
  if found.length < keys.length then
    throw (.usage (.keySlotsTooShort keys.length found.length))
  let index ← expectName keys
  if found[index]?.getD false then
    throw (.invalid .duplicateKey)
  return (index, found.set index true)

end MessagePack.Reader.State
