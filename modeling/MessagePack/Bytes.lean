/-!
Byte strings and the big-endian words inside them.

`bigEndian width n` writes the low `width` bytes of `n`, most significant first;
`ofBigEndian` reads such a word back as an unsigned number and `signedOfBigEndian` as a
two's-complement one.
-/

namespace MessagePack

abbrev Bytes := List UInt8

def bigEndian : Nat → Nat → Bytes
  | 0, _ => []
  | width + 1, n => bigEndian width (n / 256) ++ [UInt8.ofNat n]

def ofBigEndian (bytes : Bytes) : Nat :=
  bytes.foldl (fun value byte => value * 256 + byte.toNat) 0

def signedOfBigEndian (bytes : Bytes) : Int :=
  (ofBigEndian bytes : Int).bmod (Nat.pow 256 bytes.length)

@[simp] theorem length_bigEndian (width n : Nat) : (bigEndian width n).length = width := by
  induction width generalizing n with
  | zero => rfl
  | succ width ih => simp [bigEndian, ih]

/-! Asking for a length without measuring a long list. -/

def hasAtLeast : Nat → List α → Bool
  | 0, _ => true
  | _ + 1, [] => false
  | n + 1, _ :: rest => hasAtLeast n rest

@[simp] theorem hasAtLeast_iff (n : Nat) (list : List α) :
    hasAtLeast n list = true ↔ n ≤ list.length := by
  induction list generalizing n with
  | nil => cases n <;> simp [hasAtLeast]
  | cons head tail ih => cases n <;> simp [hasAtLeast, ih]

/-! Text is the UTF-8 reading of a byte string. -/

def utf8 (text : String) : Bytes :=
  text.toUTF8.toList

def ofUtf8? (bytes : Bytes) : Option String :=
  String.fromUTF8? bytes.toByteArray

def hexDigit (n : Nat) : Char :=
  Nat.digitChar (n % 16)

/-- Lowercase hexadecimal with at least `width` digits. -/
def hex (width n : Nat) : String :=
  let digits := Nat.toDigits 16 n
  String.ofList (List.replicate (width - digits.length) '0' ++ digits)

def hexString (bytes : Bytes) : String :=
  String.ofList (bytes.flatMap fun byte => [hexDigit (byte.toNat / 16), hexDigit byte.toNat])

end MessagePack
