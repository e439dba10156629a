import MessagePack.Config

/-!
The 256 header forms, one for each leading byte.

A form says what the element is and how many bytes follow the leading byte; an index in a
family `k` stands for a word of `2 ^ k` bytes.
-/

namespace MessagePack

inductive Form where
  | positiveFix (value : Fin 128)
  | fixMap (pairs : Fin 16)
  | fixArray (count : Fin 16)
  | fixStr (length : Fin 32)
  | nil
  | reserved
  | bool (value : Bool)
  | bin (k : Fin 3)
  | ext (k : Fin 3)
  | float
  | double
  | uint (k : Fin 4)
  | int (k : Fin 4)
  /-- A payload of `2 ^ k` bytes. -/
  | fixExt (k : Fin 5)
  | str (k : Fin 3)
  /-- A count of `2 ^ (k + 1)` bytes. -/
  | array (k : Fin 2)
  | map (k : Fin 2)
  /-- The value less 32. -/
  | negativeFix (value : Fin 32)
  deriving DecidableEq

namespace Form

/-- The bytes of a word, by its index. -/
def wordLength : Nat → Nat
  | 0 => 1
  | k + 1 => 2 * wordLength k

def code : Form → Nat
  | .positiveFix value => value
  | .fixMap pairs => 0x80 + pairs
  | .fixArray count => 0x90 + count
  | .fixStr length => 0xa0 + length
  | .nil => 0xc0
  | .reserved => 0xc1
  | .bool false => 0xc2
  | .bool true => 0xc3
  | .bin k => 0xc4 + k
  | .ext k => 0xc7 + k
  | .float => 0xca
  | .double => 0xcb
  | .uint k => 0xcc + k
  | .int k => 0xd0 + k
  | .fixExt k => 0xd4 + k
  | .str k => 0xd9 + k
  | .array k => 0xdc + k
  | .map k => 0xde + k
  | .negativeFix value => 0xe0 + value

def marker (form : Form) : UInt8 :=
  UInt8.ofNat form.code

def ofMarker (marker : UInt8) : Form :=
  let n := marker.toNat
  if h : n < 0x80 then .positiveFix ⟨n, h⟩
  else if h : n < 0x90 then .fixMap ⟨n - 0x80, by omega⟩
  else if h : n < 0xa0 then .fixArray ⟨n - 0x90, by omega⟩
  else if h : n < 0xc0 then .fixStr ⟨n - 0xa0, by omega⟩
  else if n = 0xc0 then .nil
  else if n = 0xc1 then .reserved
  else if n = 0xc2 then .bool false
  else if n = 0xc3 then .bool true
  else if h : n < 0xc7 then .bin ⟨n - 0xc4, by omega⟩
  else if h : n < 0xca then .ext ⟨n - 0xc7, by omega⟩
  else if n = 0xca then .float
  else if n = 0xcb then .double
  else if h : n < 0xd0 then .uint ⟨n - 0xcc, by omega⟩
  else if h : n < 0xd4 then .int ⟨n - 0xd0, by omega⟩
  else if h : n < 0xd9 then .fixExt ⟨n - 0xd4, by omega⟩
  else if h : n < 0xdc then .str ⟨n - 0xd9, by omega⟩
  else if h : n < 0xde then .array ⟨n - 0xdc, by omega⟩
  else if h : n < 0xe0 then .map ⟨n - 0xde, by omega⟩
  else .negativeFix ⟨n - 0xe0, by have := marker.toNat_lt; omega⟩

/-- Bytes between the leading byte and the end of the header. -/
def bodyLength : Form → Nat
  | .bin k | .str k => wordLength k
  | .ext k => wordLength k + 1
  | .float => 4
  | .double => 8
  | .uint k | .int k => wordLength k
  | .fixExt _ => 1
  | .array k | .map k => wordLength (k + 1)
  | _ => 0

/-- Whether the legacy format has the form. -/
def inLegacy : Form → Bool
  | .bin _ | .ext _ | .fixExt _ => false
  | .str k => k != 0
  | _ => true

def isExt : Form → Bool
  | .ext _ | .fixExt _ => true
  | _ => false

/-! The narrowest form for a number. -/

def wordIndex (n : Nat) : Fin 4 :=
  if n < UInt8.size then 0 else if n < UInt16.size then 1 else if n < UInt32.size then 2 else 3

def lengthIndex (n : Nat) : Fin 3 :=
  if n < UInt8.size then 0 else if n < UInt16.size then 1 else 2

def countIndex (n : Nat) : Fin 2 :=
  if n < UInt16.size then 0 else 1

def forUnsigned (n : Nat) : Form :=
  if h : n < 128 then .positiveFix ⟨n, h⟩ else .uint (wordIndex n)

/-- For `-n` with `n` positive: a word of `w` bits reaches down to `-2 ^ (w - 1)`. -/
def forNegative (n : Nat) : Form :=
  if h : 0 < n ∧ n ≤ 32 then .negativeFix ⟨32 - n, by omega⟩ else .int (wordIndex (2 * n - 1))

def forStr (version : Version) (length : Nat) : Form :=
  if h : length < 32 then .fixStr ⟨length, h⟩
  else match version with
    | .v4 => .str (if length < UInt16.size then 1 else 2)
    | .v5 => .str (lengthIndex length)

/-- Legacy binary data shares the forms of strings. -/
def forBin (version : Version) (length : Nat) : Form :=
  match version with
  | .v4 => forStr .v4 length
  | .v5 => .bin (lengthIndex length)

def forArray (count : Nat) : Form :=
  if h : count < 16 then .fixArray ⟨count, h⟩ else .array (countIndex count)

def forMap (pairs : Nat) : Form :=
  if h : pairs < 16 then .fixMap ⟨pairs, h⟩ else .map (countIndex pairs)

def forExt (length : Nat) : Form :=
  match length with
  | 1 => .fixExt 0
  | 2 => .fixExt 1
  | 4 => .fixExt 2
  | 8 => .fixExt 3
  | 16 => .fixExt 4
  | _ => .ext (lengthIndex length)

end Form
end MessagePack
